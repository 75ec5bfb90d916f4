import Cisa.Ancestors
import Cisa.CallGraph.Invalidation

/-!
# Runs of the analysis

A run loads files and then updates them any number of times. `Loaded` is what every
state of a run satisfies: the module tables agree, the recorded callers are loaded,
and `BCFuncs` registers exactly the definitions of the loaded modules.
-/

namespace Cisa

open Std

namespace TypeDive

variable {E : Env}

open CallGraphPass

structure Loaded (E : Env) (ctx : GlobalContext) : Prop extends Tables ctx, CallersLoaded ctx where
  bcFuncs : ∀ (p n : String) (F : FuncPtr), (ctx.bcFuncs.getD p ∅)[n]? = some F ↔
    ∃ M, (M, p) ∈ ctx.modules ∧ F ∈ definitionsOf E M ∧ (E.function F).name = n

def LiveDefinition (E : Env) (ctx : GlobalContext) (F : FuncPtr) : Prop :=
  ∃ M p, (M, p) ∈ ctx.modules ∧ F ∈ definitionsOf E M

theorem mod_of_mem_definitionsOf {M : ModPtr} {F : FuncPtr} (h : F ∈ definitionsOf E M) :
    F.mod = M :=
  E.mod_of_mem_functions (mem_definitionsOf.mp h).1

theorem Loaded.mem_registered {ctx : GlobalContext} (h : Loaded E ctx) {p : String} {F : FuncPtr} :
    F ∈ registered ctx p ↔ ∃ M, (M, p) ∈ ctx.modules ∧ F ∈ definitionsOf E M := by
  rw [TypeDive.mem_registered]
  constructor
  · rintro ⟨n, hn⟩
    obtain ⟨M, hM, hF, _⟩ := (h.bcFuncs p n F).mp hn
    exact ⟨M, hM, hF⟩
  · rintro ⟨M, hM, hF⟩
    exact ⟨_, (h.bcFuncs p _ F).mpr ⟨M, hM, hF, rfl⟩⟩

/-- What an update erases are the definitions of the modules that it analyses again. -/
theorem Loaded.erased_iff {ctx : GlobalContext} (h : Loaded E ctx) {files : List ParsedFile}
    {F : FuncPtr} : Erased E ctx files F ↔ OldDefinition E ctx files F := by
  simp only [Erased, OldDefinition, OldModule, h.mem_registered]
  constructor
  · rintro ⟨p, hp, M, hM, hF⟩
    exact ⟨M, ⟨p, hM, hp⟩, hF⟩
  · rintro ⟨M, ⟨p, hM, hp⟩, hF⟩
    exact ⟨p, hp, M, hM, hF⟩

/-! ## One run of the pass -/

section Run

variable {T : CallGraphPass} {ms : List ModPtr}

theorem Tables.getD_moduleMaps {ctx : GlobalContext} (h : Tables ctx) {M : ModPtr} {p : String}
    (hM : (M, p) ∈ ctx.modules) : ctx.moduleMaps.getD M "" = p := by
  rw [ExtTreeMap.getD_eq_getD_getElem?, (h.moduleMaps M p).mpr hM, Option.getD_some]

theorem SameInputs.moduleTables {S T : CallGraphPass} (h : SameInputs S T) :
    moduleTables T.ctx = moduleTables S.ctx := by
  have hp := congrArg TypeDive.moduleTables h.post
  exact hp

theorem moduleTables_callInst (F : FuncPtr) (S : CallGraphPass) (CI : ValPtr) :
    moduleTables (callInst E F S CI).ctx = moduleTables S.ctx := by
  have h := congrArg moduleTables (forgetPost_callInst (E := E) F S CI)
  exact h

theorem moduleTables_initialized (T : CallGraphPass) (ms : List ModPtr) :
    moduleTables (initialized E T ms).ctx = moduleTables T.ctx := by
  have h := congrArg moduleTables (forgetPre_initialized (E := E) T ms)
  exact h

theorem moduleTables_passed (T : CallGraphPass) (ms : List ModPtr) :
    moduleTables (passed E T ms).ctx = moduleTables T.ctx :=
  SameInputs.moduleTables (SameInputs.passed T ms)

theorem moduleTables_doFinalization (T : CallGraphPass) (ms : List ModPtr) :
    moduleTables (doFinalization E T ms).ctx = moduleTables T.ctx := by
  have h := congrArg moduleTables (forgetCallees_doFinalization (E := E) T ms)
  exact h

theorem moduleTables_runModules (T : CallGraphPass) (ms : List ModPtr) :
    moduleTables (runModules E T ms).ctx = moduleTables T.ctx := by
  rw [runModules, moduleTables_doFinalization, moduleTables_passed, moduleTables_initialized]

theorem modules_runModules (T : CallGraphPass) (ms : List ModPtr) :
    (runModules E T ms).ctx.modules = T.ctx.modules :=
  congrArg Prod.fst (moduleTables_runModules T ms)

theorem globalFuncMap_runModules (T : CallGraphPass) (ms : List ModPtr) :
    (runModules E T ms).ctx.globalFuncMap = (initialized E T ms).ctx.globalFuncMap := by
  have h1 := congrArg GlobalContext.globalFuncMap
    (forgetCallees_doFinalization (E := E) (passed E (initialized E T ms) ms) ms)
  have h2 := congrArg GlobalContext.globalFuncMap
    (SameInputs.passed (E := E) (initialized E T ms) ms).post
  exact Eq.trans h1 h2

theorem callersLoaded_callInst {ctx0 : GlobalContext} (h0 : Tables ctx0) {S : CallGraphPass}
    (hS : moduleTables S.ctx = moduleTables ctx0) (h : CallersLoaded S.ctx) {F : FuncPtr}
    (hF : F.mod ∈ ctx0.modules.map Prod.fst) (CI : ValPtr) :
    CallersLoaded (callInst E F S CI).ctx := by
  obtain ⟨⟨M, p⟩, hM, hFM⟩ := List.mem_map.mp hF
  have hmaps : S.ctx.moduleMaps.getD F.mod "" = p := by
    have ht := Tables.congr hS h0
    have hmods : S.ctx.modules = ctx0.modules := congrArg Prod.fst hS
    exact ht.getD_moduleMaps (by rw [hmods, ← hFM]; exact hM)
  have hp : p ∈ S.ctx.modules.map Prod.snd := by
    have hmods : S.ctx.modules = ctx0.modules := congrArg Prod.fst hS
    rw [hmods]
    exact List.mem_map.mpr ⟨_, hM, rfl⟩
  unfold callInst
  split
  · split
    · refine ⟨h.callerPaths, ?_⟩
      intro hash q hq
      simp only [indirectCall, hmaps, ExtTreeMap.mem_row_addTo] at hq
      rcases hq with ⟨_, rfl⟩ | hq
      · exact hp
      · exact h.candCallerPaths hash q hq
    · split
      · refine ⟨?_, h.candCallerPaths⟩
        intro r q hq
        simp only [directCall, hmaps, ExtTreeMap.mem_row_addTo] at hq
        rcases hq with ⟨_, rfl⟩ | hq
        · exact hp
        · exact h.callerPaths r q hq
      · exact ⟨h.callerPaths, h.candCallerPaths⟩
  · exact h

theorem callersLoaded_passed (ht : Tables T.ctx) (hc : CallersLoaded T.ctx)
    (hms : ∀ M ∈ ms, M ∈ T.ctx.modules.map Prod.fst) : CallersLoaded (passed E T ms).ctx := by
  have h := passed_invariant (E := E) (S := T) (l := ms)
    (I := fun S => moduleTables S.ctx = moduleTables T.ctx ∧ CallersLoaded S.ctx)
    ⟨rfl, hc⟩ (fun _ _ h => h) (fun S F _ h => ⟨h.1, h.2.callerPaths, h.2.candCallerPaths⟩) ?_
  · exact h.2
  · rintro S F CI ⟨M, hM, hF⟩ _ ⟨h1, h2⟩
    refine ⟨(moduleTables_callInst F S CI).trans h1, callersLoaded_callInst ht h1 h2 ?_ CI⟩
    rw [mod_of_mem_definitionsOf hF]
    exact hms M hM

theorem bcFuncs_callInst (F : FuncPtr) (S : CallGraphPass) (CI : ValPtr) :
    (callInst E F S CI).ctx.bcFuncs = S.ctx.bcFuncs := by
  unfold callInst
  split
  · split
    · rfl
    · split <;> rfl
  · rfl

theorem bcFuncs_doMLTA (S : CallGraphPass) (F : FuncPtr) :
    (doMLTA E S F).ctx.bcFuncs = (registerFunction E S.ctx F).bcFuncs := by
  unfold doMLTA
  exact Fold.foldl_frame (p := fun S : CallGraphPass => S.ctx.bcFuncs) (bcFuncs_callInst F) _ _

theorem getElem?_registerFunction {ctx : GlobalContext} {F G : FuncPtr} {p n : String} :
    ((registerFunction E ctx F).bcFuncs.getD p ∅)[n]? = some G ↔
      if ctx.moduleMaps.getD F.mod "" = p ∧ (E.function F).name = n then F = G
      else (ctx.bcFuncs.getD p ∅)[n]? = some G := by
  unfold registerFunction
  dsimp only
  by_cases hp : ctx.moduleMaps.getD F.mod "" = p
  · by_cases hn : (E.function F).name = n <;>
      simp [ExtTreeMap.getElem?_insert_eq_ite, hp, hn]
  · simp [ExtTreeMap.getD_insert, hp]

theorem mem_modules_of_registered {S : CallGraphPass} {M : ModPtr} {G : FuncPtr} {p : String}
    (ht : Tables T.ctx) (hms : ∀ M ∈ ms, M ∈ T.ctx.modules.map Prod.fst)
    (hS : moduleTables S.ctx = moduleTables T.ctx) (hM : M ∈ ms) (hG : G ∈ definitionsOf E M)
    (hp : S.ctx.moduleMaps.getD G.mod "" = p) : (M, p) ∈ T.ctx.modules := by
  obtain ⟨⟨N, r⟩, hr, rfl⟩ := List.mem_map.mp (hms M hM)
  have hmods : S.ctx.modules = T.ctx.modules := congrArg Prod.fst hS
  rw [mod_of_mem_definitionsOf hG,
    (Tables.congr hS ht).getD_moduleMaps (by rw [hmods]; exact hr)] at hp
  exact hp ▸ hr

theorem bcFuncs_of_passed (ht : Tables T.ctx) (hms : ∀ M ∈ ms, M ∈ T.ctx.modules.map Prod.fst)
    {p n : String} {F : FuncPtr} (hF : ((passed E T ms).ctx.bcFuncs.getD p ∅)[n]? = some F) :
    (T.ctx.bcFuncs.getD p ∅)[n]? = some F ∨
      ∃ M ∈ ms, (M, p) ∈ T.ctx.modules ∧ F ∈ definitionsOf E M ∧ (E.function F).name = n := by
  have h := passed_invariant (E := E) (S := T) (l := ms)
    (I := fun S => moduleTables S.ctx = moduleTables T.ctx ∧
      ((S.ctx.bcFuncs.getD p ∅)[n]? = some F → (T.ctx.bcFuncs.getD p ∅)[n]? = some F ∨
        ∃ M ∈ ms, (M, p) ∈ T.ctx.modules ∧ F ∈ definitionsOf E M ∧ (E.function F).name = n))
    ⟨rfl, Or.inl⟩ (fun _ _ h => h) ?_ ?_
  · exact h.2 hF
  · rintro S G ⟨M, hM, hG⟩ ⟨h1, h2⟩
    refine ⟨h1, fun hF => ?_⟩
    rw [getElem?_registerFunction] at hF
    split_ifs at hF with hGp
    · subst hF
      exact Or.inr ⟨M, hM, mem_modules_of_registered ht hms h1 hM hG hGp.1, hG, hGp.2⟩
    · exact h2 hF
  · rintro S G CI _ _ ⟨h1, h2⟩
    refine ⟨(moduleTables_callInst G S CI).trans h1, fun hF => h2 ?_⟩
    rwa [bcFuncs_callInst] at hF

theorem bcFuncs_passed_kept (ht : Tables T.ctx) (hms : ∀ M ∈ ms, M ∈ T.ctx.modules.map Prod.fst)
    (hnew : ∀ M ∈ ms, ∀ p, (M, p) ∈ T.ctx.modules →
      ∀ (n : String) (F : FuncPtr), (T.ctx.bcFuncs.getD p ∅)[n]? ≠ some F)
    {p n : String} {F : FuncPtr} (h : (T.ctx.bcFuncs.getD p ∅)[n]? = some F) :
    ((passed E T ms).ctx.bcFuncs.getD p ∅)[n]? = some F := by
  have hkeep := passed_invariant (E := E) (S := T) (l := ms)
    (I := fun S => moduleTables S.ctx = moduleTables T.ctx ∧
      (S.ctx.bcFuncs.getD p ∅)[n]? = some F) ⟨rfl, h⟩ (fun _ _ h => h) ?_ ?_
  · exact hkeep.2
  · rintro S G ⟨M, hM, hG⟩ ⟨h1, h2⟩
    refine ⟨h1, ?_⟩
    rw [getElem?_registerFunction]
    split_ifs with hGp
    · exact absurd h (hnew M hM p (mem_modules_of_registered ht hms h1 hM hG hGp.1) n F)
    · exact h2
  · rintro S G CI _ _ ⟨h1, h2⟩
    refine ⟨(moduleTables_callInst G S CI).trans h1, ?_⟩
    rw [bcFuncs_callInst]
    exact h2

/-- A later definition does not take the place of one of another name or module. -/
theorem bcFuncs_passed_registered (ht : Tables T.ctx)
    (hms : ∀ M ∈ ms, M ∈ T.ctx.modules.map Prod.fst) {M : ModPtr} {p : String} {F : FuncPtr}
    (hM : M ∈ ms) (hMp : (M, p) ∈ T.ctx.modules) (hF : F ∈ definitionsOf E M) :
    ((passed E T ms).ctx.bcFuncs.getD p ∅)[(E.function F).name]? = some F := by
  apply passed_of_defines (P := fun S =>
    (S.ctx.bcFuncs.getD p ∅)[(E.function F).name]? = some F) ⟨M, hM, hF⟩
  · exact fun _ _ h => h
  · rintro S G hS ⟨N, hN, hG⟩ h
    rw [bcFuncs_doMLTA, getElem?_registerFunction]
    split_ifs with hGp
    · have hNp := mem_modules_of_registered ht hms (SameInputs.moduleTables hS) hN hG hGp.1
      obtain rfl := ht.eq_of_path hMp hNp
      exact E.eq_of_name_eq (mem_definitionsOf.mp hG).1 (mem_definitionsOf.mp hF).1 hGp.2
    · exact h
  · intro S hS
    have htables := SameInputs.moduleTables hS
    have hmods : S.ctx.modules = T.ctx.modules := congrArg Prod.fst htables
    have hpath : S.ctx.moduleMaps.getD F.mod "" = p := by
      rw [mod_of_mem_definitionsOf hF]
      exact (Tables.congr htables ht).getD_moduleMaps (by rw [hmods]; exact hMp)
    rw [bcFuncs_doMLTA, getElem?_registerFunction, if_pos ⟨hpath, rfl⟩]

/-- The passes register the definitions of their modules, under paths not yet in use. -/
theorem bcFuncs_passed (ht : Tables T.ctx) (hms : ∀ M ∈ ms, M ∈ T.ctx.modules.map Prod.fst)
    (hnew : ∀ M ∈ ms, ∀ p, (M, p) ∈ T.ctx.modules →
      ∀ (n : String) (F : FuncPtr), (T.ctx.bcFuncs.getD p ∅)[n]? ≠ some F)
    {p n : String} {F : FuncPtr} : ((passed E T ms).ctx.bcFuncs.getD p ∅)[n]? = some F ↔
      (T.ctx.bcFuncs.getD p ∅)[n]? = some F ∨
        ∃ M ∈ ms, (M, p) ∈ T.ctx.modules ∧ F ∈ definitionsOf E M ∧ (E.function F).name = n := by
  constructor
  · exact bcFuncs_of_passed ht hms
  · rintro (h | ⟨M, hM, hMp, hF, rfl⟩)
    · exact bcFuncs_passed_kept ht hms hnew h
    · exact bcFuncs_passed_registered ht hms hM hMp hF

theorem CallersLoaded.congr {ctx ctx' : GlobalContext} (h : CallersLoaded ctx)
    (h1 : ctx'.modules = ctx.modules) (h2 : ctx'.callerPaths = ctx.callerPaths)
    (h3 : ctx'.candCallerPaths = ctx.candCallerPaths) : CallersLoaded ctx' :=
  ⟨by rw [h1, h2]; exact h.callerPaths, by rw [h1, h3]; exact h.candCallerPaths⟩

theorem loaded_runModules (ht : Tables T.ctx) (hc : CallersLoaded T.ctx)
    (hms : ∀ M ∈ ms, M ∈ T.ctx.modules.map Prod.fst)
    (hbc : ∀ (p n : String) (F : FuncPtr), (T.ctx.bcFuncs.getD p ∅)[n]? = some F ↔
      ∃ M, (M, p) ∈ T.ctx.modules ∧ M ∉ ms ∧ F ∈ definitionsOf E M ∧ (E.function F).name = n) :
    Loaded E (runModules E T ms).ctx := by
  set T1 := initialized E T ms
  have hpre := forgetPre_initialized (E := E) T ms
  have hT1 : moduleTables T1.ctx = moduleTables T.ctx := moduleTables_initialized T ms
  have hmods1 : T1.ctx.modules = T.ctx.modules := congrArg Prod.fst hT1
  have hbc1 : T1.ctx.bcFuncs = T.ctx.bcFuncs := by
    have h := congrArg GlobalContext.bcFuncs hpre
    exact h
  have hc1 : CallersLoaded T1.ctx := by
    have h2 := congrArg GlobalContext.callerPaths hpre
    have h3 := congrArg GlobalContext.candCallerPaths hpre
    exact hc.congr hmods1 h2 h3
  have ht1 := Tables.congr hT1 ht
  have hms1 : ∀ M ∈ ms, M ∈ T1.ctx.modules.map Prod.fst := by
    rw [hmods1]
    exact hms
  have hfinal := forgetCallees_doFinalization (E := E) (passed E T1 ms) ms
  have hmods2 : (passed E T1 ms).ctx.modules = T1.ctx.modules :=
    congrArg Prod.fst (moduleTables_passed T1 ms)
  have hmods3 : (runModules E T ms).ctx.modules = T.ctx.modules := modules_runModules T ms
  refine ⟨Tables.congr (moduleTables_runModules T ms) ht, ?_, ?_⟩
  · have h2 := congrArg GlobalContext.callerPaths hfinal
    have h3 := congrArg GlobalContext.candCallerPaths hfinal
    exact (callersLoaded_passed ht1 hc1 hms1).congr
      (hmods3.trans (hmods1.symm.trans hmods2.symm)) h2 h3
  · intro p n F
    have hrun : (runModules E T ms).ctx.bcFuncs = (passed E T1 ms).ctx.bcFuncs := by
      have h := congrArg GlobalContext.bcFuncs hfinal
      exact h
    rw [hrun, hmods3, bcFuncs_passed ht1 hms1, hbc1, hmods1, hbc]
    · constructor
      · rintro (⟨M, hM, _, hF⟩ | ⟨M, _, hM, hF⟩)
        · exact ⟨M, hM, hF⟩
        · exact ⟨M, hM, hF⟩
      · rintro ⟨M, hM, hF⟩
        by_cases hMms : M ∈ ms
        · exact Or.inr ⟨M, hMms, hM, hF⟩
        · exact Or.inl ⟨M, hM, hMms, hF⟩
    · intro M hM q hq m G hG
      rw [hmods1] at hq
      rw [hbc1, hbc] at hG
      obtain ⟨N, hN, hNms, _⟩ := hG
      exact hNms (ht.eq_of_path hq hN ▸ hM)

end Run

/-! ## Runs -/

def initialState (E : Env) (files : List ParsedFile) : CallGraphPass :=
  { ctx := (parsed files).foldl loadFile {}
    mlta := { elementsStructNameMap := E.loadElementsStructNameMap ∅ (files.map Prod.snd) } }

theorem foldl_loadFile {ctx : GlobalContext} (ht : Tables ctx) {files : List ParsedFile}
    (hp : (files.map Prod.fst).Nodup) (hm : (files.map Prod.snd).Nodup)
    (hp' : ∀ f ∈ files, f.1 ∉ ctx.modules.map Prod.snd)
    (hm' : ∀ f ∈ files, f.2 ∉ ctx.modules.map Prod.fst) :
    Tables ((parsed files).foldl loadFile ctx) ∧
      ((parsed files).foldl loadFile ctx).modules = ctx.modules ++ files.map Prod.swap ∧
      forgetTables ((parsed files).foldl loadFile ctx) = forgetTables ctx := by
  induction files generalizing ctx with
  | nil => exact ⟨ht, by simp [parsed], rfl⟩
  | cons f files ih =>
    rw [List.map_cons, List.nodup_cons] at hp hm
    have hstep : (parsed (f :: files)).foldl loadFile ctx =
        (parsed files).foldl loadFile (addModule ctx f.2 f.1) := rfl
    have hadd := ht.add (hm' f List.mem_cons_self) (hp' f List.mem_cons_self)
    have hmodules : (addModule ctx f.2 f.1).modules = ctx.modules ++ [(f.2, f.1)] := rfl
    obtain ⟨h1, h2, h3⟩ := ih hadd hp.2 hm.2
      (by
        intro g hg
        have hgf : g.1 ≠ f.1 := fun heq => hp.1 (heq ▸ List.mem_map.mpr ⟨g, hg, rfl⟩)
        rw [hmodules, List.map_append, List.mem_append]
        simpa [hgf] using hp' g (List.mem_cons_of_mem _ hg))
      (by
        intro g hg
        have hgf : g.2 ≠ f.2 := fun heq => hm.1 (heq ▸ List.mem_map.mpr ⟨g, hg, rfl⟩)
        rw [hmodules, List.map_append, List.mem_append]
        simpa [hgf] using hm' g (List.mem_cons_of_mem _ hg))
    rw [hstep]
    refine ⟨h1, ?_, h3⟩
    rw [h2, hmodules, List.append_assoc]
    rfl

section Initial

variable {files : List ParsedFile}

theorem initialState_tables (hp : (files.map Prod.fst).Nodup) (hm : (files.map Prod.snd).Nodup) :
    Tables (initialState E files).ctx :=
  (foldl_loadFile Tables.empty hp hm (by simp) (by simp)).1

theorem initialState_modules (hp : (files.map Prod.fst).Nodup) (hm : (files.map Prod.snd).Nodup) :
    (initialState E files).ctx.modules = files.map Prod.swap := by
  have h := (foldl_loadFile Tables.empty hp hm (by simp) (by simp)).2.1
  exact h.trans (List.nil_append _)

theorem initialState_empty (hp : (files.map Prod.fst).Nodup) (hm : (files.map Prod.snd).Nodup) :
    forgetTables (initialState E files).ctx = {} :=
  (foldl_loadFile Tables.empty hp hm (by simp) (by simp)).2.2

theorem globalFuncMap_initialState (hp : (files.map Prod.fst).Nodup)
    (hm : (files.map Prod.snd).Nodup) : (initialState E files).ctx.globalFuncMap = ∅ :=
  congrArg GlobalContext.globalFuncMap (initialState_empty (E := E) hp hm)

theorem onlyDefinitions_initialState (hp : (files.map Prod.fst).Nodup)
    (hm : (files.map Prod.snd).Nodup) :
    OnlyDefinitions E (initialState E files).ctx.globalFuncMap := by
  rw [globalFuncMap_initialState hp hm]
  intro k F hF
  simp at hF

theorem initializeModules_eq (hp : (files.map Prod.fst).Nodup) (hm : (files.map Prod.snd).Nodup) :
    initializeModules E (parsed files) =
      runModules E (initialState E files) (files.map Prod.snd) := by
  have hmodules : ((parsed files).foldl loadFile {}).modules.map Prod.fst =
      files.map Prod.snd := by
    have h := initialState_modules (E := E) hp hm
    rw [show ((parsed files).foldl loadFile {}).modules = _ from h]
    simp [Function.comp_def]
  unfold initializeModules initialState
  simp only [hmodules]

theorem loaded_initializeModules (hp : (files.map Prod.fst).Nodup)
    (hm : (files.map Prod.snd).Nodup) : Loaded E (initializeModules E (parsed files)).ctx := by
  have hempty := initialState_empty (E := E) hp hm
  have hmods := initialState_modules (E := E) hp hm
  have hcallers := congrArg GlobalContext.callerPaths hempty
  have hcands := congrArg GlobalContext.candCallerPaths hempty
  have hbcs := congrArg GlobalContext.bcFuncs hempty
  simp only [forgetTables] at hcallers hcands hbcs
  rw [initializeModules_eq hp hm]
  apply loaded_runModules (initialState_tables hp hm)
  · exact ⟨by simp [hcallers], by simp [hcands]⟩
  · intro M hM
    rw [hmods]
    simpa using hM
  · intro p n F
    rw [hbcs, hmods]
    simp only [ExtTreeMap.getD_empty, ExtTreeMap.getElem?_empty, reduceCtorEq, false_iff]
    rintro ⟨M, hM, hMms, _⟩
    obtain ⟨f, hf, hfM⟩ := List.mem_map.mp hM
    obtain ⟨rfl, rfl⟩ := Prod.mk.inj hfM
    exact hMms (List.mem_map.mpr ⟨f, hf, rfl⟩)

end Initial

section Start

variable {S T : CallGraphPass} {files : List ParsedFile} {ms : List ModPtr}

theorem Start.mem_next (h : Start E S files T ms) {M : ModPtr} (hM : M ∈ ms) :
    M ∈ (nextModules S.ctx.modules files).map Prod.fst := by
  rcases (h.mem_ms M).mp hM with ⟨p, hp⟩ | ⟨p, haff, hp⟩
  · exact List.mem_map.mpr ⟨(M, p), mem_nextModules.mpr (Or.inr hp), rfl⟩
  · exact List.mem_map.mpr ⟨(M, p), mem_nextModules.mpr (Or.inl ⟨hp, haff.2⟩), rfl⟩

theorem Start.next_cases (h : Start E S files T ms) {M : ModPtr} {p : String}
    (hM : (M, p) ∈ nextModules S.ctx.modules files) :
    M ∈ ms ∨ (M, p) ∈ S.ctx.modules ∧ ¬ Reprocessed E S.ctx files p := by
  rcases mem_nextModules.mp hM with ⟨hload, hpf⟩ | hfile
  · by_cases haff : Affected E S.ctx files p
    · exact Or.inl ((h.mem_ms M).mpr (Or.inr ⟨p, haff, hload⟩))
    · refine Or.inr ⟨hload, ?_⟩
      rintro (hp | hp)
      · exact hpf hp
      · exact haff hp
  · exact Or.inl ((h.mem_ms M).mpr (Or.inl ⟨p, hfile⟩))

theorem Start.not_mem_ms (h : Start E S files T ms) (hL : Loaded E S.ctx)
    (hf : FilesOk S.ctx files) {M : ModPtr} {p : String} (hM : (M, p) ∈ S.ctx.modules)
    (hp : ¬ Reprocessed E S.ctx files p) : M ∉ ms := by
  intro hms
  rcases (h.mem_ms M).mp hms with ⟨q, hq⟩ | ⟨q, haff, hq⟩
  · exact hf.fresh _ hq (List.mem_map.mpr ⟨_, hM, rfl⟩)
  · obtain rfl := hL.eq_of_mod hM hq
    exact hp (Or.inr haff)

end Start

theorem Start.onlyDefinitions {S T : CallGraphPass} {files : List ParsedFile} {ms : List ModPtr}
    (h : Start E S files T ms) (hS : OnlyDefinitions E S.ctx.globalFuncMap) :
    OnlyDefinitions E T.ctx.globalFuncMap :=
  fun k F hF => hS k F ((h.globalFuncMap k F).mp hF).1

theorem Start.loaded {S T : CallGraphPass} {files : List ParsedFile} {ms : List ModPtr}
    (hS : Loaded E S.ctx) (hf : FilesOk S.ctx files) (h : Start E S files T ms) :
    Loaded E (runModules E T ms).ctx := by
  have hnext : ∀ p, p ∈ S.ctx.modules.map Prod.snd → p ∉ files.map Prod.fst →
      p ∈ T.ctx.modules.map Prod.snd := by
    intro p hp hpf
    obtain ⟨⟨M, q⟩, hM, rfl⟩ := List.mem_map.mp hp
    rw [h.modules]
    exact List.mem_map.mpr ⟨(M, q), mem_nextModules.mpr (Or.inl ⟨hM, hpf⟩), rfl⟩
  apply loaded_runModules h.tables
  · constructor
    · intro q p hp
      obtain ⟨hp, _, hpf⟩ := (h.callerPaths q p).mp hp
      exact hnext p (hS.callerPaths q p hp) hpf
    · intro hash p hp
      obtain ⟨hp, hpf⟩ := (h.candCallerPaths hash p).mp hp
      exact hnext p (hS.candCallerPaths hash p hp) hpf
  · intro M hM
    rw [h.modules]
    rcases (h.mem_ms M).mp hM with ⟨p, hp⟩ | ⟨p, haff, hp⟩
    · exact List.mem_map.mpr ⟨(M, p), mem_nextModules.mpr (Or.inr hp), rfl⟩
    · exact List.mem_map.mpr ⟨(M, p), mem_nextModules.mpr (Or.inl ⟨hp, haff.2⟩), rfl⟩
  · intro p n F
    rw [h.bcFuncs, hS.bcFuncs, h.modules]
    constructor
    · rintro ⟨⟨M, hM, hF⟩, hp⟩
      refine ⟨M, mem_nextModules.mpr (Or.inl ⟨hM, fun hpf => hp (Or.inl hpf)⟩), ?_, hF⟩
      intro hMms
      rcases (h.mem_ms M).mp hMms with ⟨q, hq⟩ | ⟨q, haff, hq⟩
      · exact hf.fresh _ hq (List.mem_map.mpr ⟨_, hM, rfl⟩)
      · obtain rfl := hS.eq_of_mod hM hq
        exact hp (Or.inr haff)
    · rintro ⟨M, hM, hMms, hF⟩
      rcases mem_nextModules.mp hM with ⟨hM, hpf⟩ | hM
      · refine ⟨⟨M, hM, hF⟩, ?_⟩
        rintro (hp | haff)
        · exact hpf hp
        · exact hMms ((h.mem_ms M).mpr (Or.inr ⟨p, haff, hM⟩))
      · exact absurd ((h.mem_ms M).mpr (Or.inl ⟨p, hM⟩)) hMms

/-- Every update leads to a state in which the files have taken their places. -/
theorem updateModules_loaded {S : CallGraphPass} {files : List ParsedFile}
    (hL : Loaded E S.ctx) (hf : FilesOk S.ctx files) :
    ∃ S', updateModules E S (parsed files) = some S' ∧ Loaded E S'.ctx ∧
      S'.ctx.modules = nextModules S.ctx.modules files := by
  obtain ⟨hrun, hstart⟩ := updateModules_start hL.toTables hL.toCallersLoaded hf
  refine ⟨_, hrun, hstart.loaded hL hf, ?_⟩
  rw [modules_runModules, hstart.modules]

/-- The states of a run: `seen` are the modules loaded so far, `I` is assumed of the first
list of files and `C` of every update and the state before it. A new module differs from those
that are loaded; it may have the address of a deleted one. -/
inductive Reached (E : Env) (I : List ParsedFile → Prop)
    (C : CallGraphPass → List ParsedFile → Prop) : List ModPtr → CallGraphPass → Prop
  | init (files : List ParsedFile) (paths_nodup : (files.map Prod.fst).Nodup)
      (mods_nodup : (files.map Prod.snd).Nodup) (hI : I files) :
      Reached E I C (files.map Prod.snd) (initializeModules E (parsed files))
  | update {seen : List ModPtr} {S S' : CallGraphPass} (files : List ParsedFile)
      (reached : Reached E I C seen S) (paths_nodup : (files.map Prod.fst).Nodup)
      (mods_nodup : (files.map Prod.snd).Nodup)
      (fresh : ∀ f ∈ files, f.2 ∉ S.ctx.modules.map Prod.fst) (hC : C S files)
      (step : updateModules E S (parsed files) = some S') :
      Reached E I C (files.map Prod.snd ++ seen) S'

namespace Reached

variable {I : List ParsedFile → Prop} {C : CallGraphPass → List ParsedFile → Prop}
variable {seen : List ModPtr} {S : CallGraphPass}

theorem loaded (h : Reached E I C seen S) :
    Loaded E S.ctx ∧ ∀ M ∈ S.ctx.modules.map Prod.fst, M ∈ seen := by
  induction h with
  | init files hp hm _ =>
    refine ⟨loaded_initializeModules hp hm, ?_⟩
    rw [initializeModules_eq hp hm, modules_runModules, initialState_modules hp hm]
    intro M hM
    simpa using hM
  | update files _ hp hm hfresh _ hstep ih =>
    obtain ⟨hL, hseen⟩ := ih
    obtain ⟨S', hrun, hL', hmods⟩ := updateModules_loaded hL ⟨hp, hm, hfresh⟩
    obtain rfl := Option.some.inj (hrun.symm.trans hstep)
    refine ⟨hL', ?_⟩
    rw [hmods]
    exact seen_of_nextModules hseen

theorem fresh_of_seen (h : Reached E I C seen S) {files : List ParsedFile}
    (hnew : ∀ f ∈ files, f.2 ∉ seen) : ∀ f ∈ files, f.2 ∉ S.ctx.modules.map Prod.fst :=
  fun f hf hmem => hnew f hf (h.loaded.2 _ hmem)

/-- An update of a run, taken apart: it always gets as far as the pass. -/
theorem start (h : Reached E I C seen S) {files : List ParsedFile}
    (hp : (files.map Prod.fst).Nodup) (hm : (files.map Prod.snd).Nodup)
    (hfresh : ∀ f ∈ files, f.2 ∉ S.ctx.modules.map Prod.fst) :
    FilesOk S.ctx files ∧ Start E S files (passStart E S files) (passModules E S files) ∧
      updateModules E S (parsed files) =
        some (runModules E (passStart E S files) (passModules E S files)) := by
  have hL := h.loaded.1
  have hf : FilesOk S.ctx files := ⟨hp, hm, hfresh⟩
  obtain ⟨hrun, hstart⟩ := updateModules_start hL.toTables hL.toCallersLoaded hf
  exact ⟨hf, hstart, hrun⟩

theorem exists_update (h : Reached E I C seen S) (files : List ParsedFile)
    (hp : (files.map Prod.fst).Nodup) (hm : (files.map Prod.snd).Nodup)
    (hnew : ∀ f ∈ files, f.2 ∉ seen) (hC : C S files) :
    ∃ S', updateModules E S (parsed files) = some S' ∧
      Reached E I C (files.map Prod.snd ++ seen) S' := by
  have hfresh := h.fresh_of_seen hnew
  obtain ⟨_, _, hrun⟩ := h.start hp hm hfresh
  exact ⟨_, hrun, h.update files hp hm hfresh hC hrun⟩

/-- The rule for invariants of runs: they hold after the first run of the pass and are
kept by the run of the pass that an update starts. -/
theorem invariant {J : List ModPtr → CallGraphPass → Prop}
    (hinit : ∀ files : List ParsedFile, (files.map Prod.fst).Nodup → (files.map Prod.snd).Nodup →
      I files → J (files.map Prod.snd) (runModules E (initialState E files) (files.map Prod.snd)))
    (hupdate : ∀ {seen S files}, Loaded E S.ctx →
      (∀ M ∈ S.ctx.modules.map Prod.fst, M ∈ seen) → FilesOk S.ctx files → J seen S →
      C S files →
      Start E S files (passStart E S files) (passModules E S files) →
      J (files.map Prod.snd ++ seen)
        (runModules E (passStart E S files) (passModules E S files)))
    (h : Reached E I C seen S) : J seen S := by
  induction h with
  | init files hp hm hI =>
    rw [initializeModules_eq hp hm]
    exact hinit files hp hm hI
  | update files hS hp hm hfresh hC hstep ih =>
    obtain ⟨hL, hseen⟩ := hS.loaded
    obtain ⟨hf, hstart, hrun⟩ := hS.start hp hm hfresh
    rw [hrun] at hstep
    obtain rfl := Option.some.inj hstep
    exact hupdate hL hseen hf ih hC hstart

end Reached

theorem Reached.onlyDefinitions {I : List ParsedFile → Prop}
    {C : CallGraphPass → List ParsedFile → Prop} {seen : List ModPtr} {S : CallGraphPass}
    (h : Reached E I C seen S) : OnlyDefinitions E S.ctx.globalFuncMap := by
  apply h.invariant (J := fun _ S => OnlyDefinitions E S.ctx.globalFuncMap)
  · intro files hp hm _
    rw [globalFuncMap_runModules]
    exact onlyDefinitions_initialized (onlyDefinitions_initialState hp hm) _
  · intro _ _ _ _ _ _ hJ _ hstart
    rw [globalFuncMap_runModules]
    exact onlyDefinitions_initialized (hstart.onlyDefinitions hJ) _

/-! ## Queries -/

open Ancestors

def afterQuery (S : CallGraphPass) (q : Query) : CallGraphPass :=
  { S with ctx := (S.ctx.isAncestor q.1 q.2).2 }

theorem Loaded.afterQuery {S : CallGraphPass} (h : Loaded E S.ctx) (q : Query) :
    Loaded E (afterQuery S q).ctx := by
  have hframe := forgetCaches_isAncestor S.ctx q
  have hmods := congrArg GlobalContext.modules hframe
  have hmaps := congrArg GlobalContext.moduleMaps hframe
  have hrevs := congrArg GlobalContext.moduleRevMaps hframe
  have hcallers := congrArg GlobalContext.callerPaths hframe
  have hcands := congrArg GlobalContext.candCallerPaths hframe
  have hbc := congrArg GlobalContext.bcFuncs hframe
  dsimp only at hmods hmaps hrevs hcallers hcands hbc
  have htables : Tables (TypeDive.afterQuery S q).ctx := by
    apply Tables.congr _ h.toTables
    unfold moduleTables TypeDive.afterQuery
    rw [hmods, hmaps, hrevs]
  refine ⟨htables, h.toCallersLoaded.congr hmods hcallers hcands, ?_⟩
  intro p n F
  unfold TypeDive.afterQuery
  rw [hbc, hmods]
  exact h.bcFuncs p n F

theorem onlyDefinitions_afterQuery {S : CallGraphPass}
    (h : OnlyDefinitions E S.ctx.globalFuncMap) (q : Query) :
    OnlyDefinitions E (afterQuery S q).ctx.globalFuncMap := by
  have hmap := congrArg GlobalContext.globalFuncMap (forgetCaches_isAncestor S.ctx q)
  dsimp only at hmap
  unfold TypeDive.afterQuery
  rwa [hmap]

end TypeDive

end Cisa

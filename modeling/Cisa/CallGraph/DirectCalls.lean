import Cisa.CallGraph.Edges

/-!
# Direct calls across modules

A direct call enters the path of the caller into the row of `CallerPaths` for the module
of the callee. An update erases rows of `CallerPaths` and paths from the other rows; a
module whose path it erases somewhere is analysed again.
-/

namespace Cisa

open Std

namespace TypeDive

variable {E : Env}

open CallGraphPass Mlta

/-- The runs, with the definition map under which `doMLTA` last processed the functions
of every module. -/
inductive Processed (E : Env) : List ModPtr → (ModPtr → SortedMap ℕ FuncPtr) → CallGraphPass → Prop
  | init (files : List ParsedFile) (paths_nodup : (files.map Prod.fst).Nodup)
      (mods_nodup : (files.map Prod.snd).Nodup) :
      Processed E (files.map Prod.snd)
        (fun _ => (initializeModules E (parsed files)).ctx.globalFuncMap)
        (initializeModules E (parsed files))
  | update {seen : List ModPtr} {maps : ModPtr → SortedMap ℕ FuncPtr} {S S' : CallGraphPass}
      (files : List ParsedFile) (processed : Processed E seen maps S)
      (paths_nodup : (files.map Prod.fst).Nodup) (mods_nodup : (files.map Prod.snd).Nodup)
      (fresh : ∀ f ∈ files, f.2 ∉ S.ctx.modules.map Prod.fst)
      (step : updateModules E S (parsed files) = some S') :
      Processed E (files.map Prod.snd ++ seen)
        (fun M => if M ∈ passModules E S files then S'.ctx.globalFuncMap else maps M) S'

/-- A call of `F` that is not indirect resolves to the definition `G` under the map. -/
def DirectlyCalls (E : Env) (g : SortedMap ℕ FuncPtr) (F G : FuncPtr) : Prop :=
  ∃ CI ∈ E.insts F, isCall E CI = true ∧ isIndirectCall E CI = false ∧
    ∃ CF, calledFunction E CI = some CF ∧ definitionOf E g CF = some G

def RegisteredCaller (E : Env) (ctx : GlobalContext) (p : String) (G : FuncPtr) : Prop :=
  ∃ N q, (N, q) ∈ ctx.modules ∧ G ∈ definitionsOf E N ∧ p ∈ ctx.callerPaths.row q

def NoIndirectCalls (E : Env) (ms : List ModPtr) : Prop :=
  ∀ F, Defines E ms F → ∀ CI ∈ E.insts F, isCall E CI = true → isIndirectCall E CI = false

/-- What every state satisfies, for the maps `maps`. -/
structure CallsRegistered (E : Env) (seen : List ModPtr) (maps : ModPtr → SortedMap ℕ FuncPtr)
    (ctx : GlobalContext) : Prop where
  /-- The definition map holds live definitions, under their own GUIDs. -/
  guids : OwnGuids E ctx.globalFuncMap
  live : ∀ (k : ℕ) (F : FuncPtr), ctx.globalFuncMap[k]? = some F → LiveDefinition E ctx F
  registered : ∀ M p, (M, p) ∈ ctx.modules → ∀ F ∈ definitionsOf E M, ∀ G,
    DirectlyCalls E (maps M) F G → RegisteredCaller E ctx p G
  rowsLive : RowsLive E ctx
  direct : NoIndirectCalls E seen → ∀ F G, G ∈ ctx.callees.row F →
    DirectlyCalls E (maps F.mod) F G

section Run

variable {T : CallGraphPass} {ms : List ModPtr}

theorem mem_callerPaths_callInst {F : FuncPtr} {S : CallGraphPass} {CI : ValPtr} {p q : String}
    (h : p ∈ S.ctx.callerPaths.row q) : p ∈ (callInst E F S CI).ctx.callerPaths.row q := by
  unfold callInst
  split
  · split
    · exact h
    · split
      · exact ExtTreeMap.mem_row_addTo.mpr (Or.inr h)
      · exact h
  · exact h

theorem mem_callerPaths_passed {p q : String} (h : p ∈ T.ctx.callerPaths.row q) :
    p ∈ (passed E T ms).ctx.callerPaths.row q :=
  passed_invariant (I := fun S => p ∈ S.ctx.callerPaths.row q) h (fun _ _ hS => hS)
    (fun _ _ _ hS => hS) fun _ _ _ _ _ hS => mem_callerPaths_callInst hS

theorem mem_callerPaths_passed_of {F G : FuncPtr} (hF : Defines E ms F)
    (h : DirectlyCalls E T.ctx.globalFuncMap F G) :
    T.ctx.moduleMaps.getD F.mod "" ∈
      (passed E T ms).ctx.callerPaths.row (T.ctx.moduleMaps.getD G.mod "") := by
  obtain ⟨CI, hCI, hcall, hind, CF, hCF, hG⟩ := h
  apply passed_of_defines (P := fun S => T.ctx.moduleMaps.getD F.mod "" ∈
    S.ctx.callerPaths.row (T.ctx.moduleMaps.getD G.mod "")) hF
  · exact fun _ _ hS => hS
  · intro S A _ _ hS
    exact Fold.foldl_invariant (I := fun S : CallGraphPass => T.ctx.moduleMaps.getD F.mod "" ∈
      S.ctx.callerPaths.row (T.ctx.moduleMaps.getD G.mod "")) hS
      fun S CI _ hS => mem_callerPaths_callInst hS
  · intro S hS
    apply Fold.foldl_of_mem (I := SameInputs T) (P := fun S : CallGraphPass =>
      T.ctx.moduleMaps.getD F.mod "" ∈
        S.ctx.callerPaths.row (T.ctx.moduleMaps.getD G.mod "")) hCI (hS.register F)
    · exact fun U CI _ hU => hU.callInst F CI
    · exact fun U CI _ _ hU => mem_callerPaths_callInst hU
    · intro U hU
      have hmap := congrArg GlobalContext.globalFuncMap hU.post
      have hmaps := congrArg GlobalContext.moduleMaps hU.post
      simp only [GlobalContext.forgetPost] at hmap hmaps
      have hget : (definitionOf E U.ctx.globalFuncMap CF).getD CF = G := by
        rw [hmap, hG, Option.getD_some]
      simp only [callInst, hcall, hind, hCF, if_true, Bool.false_eq_true, if_false, directCall,
        hget, hmaps]
      exact ExtTreeMap.mem_row_addTo.mpr (Or.inl ⟨rfl, rfl⟩)

theorem callerPaths_initialized (T : CallGraphPass) (ms : List ModPtr) :
    (initialized E T ms).ctx.callerPaths = T.ctx.callerPaths := by
  have h := congrArg GlobalContext.callerPaths (forgetPre_initialized (E := E) T ms)
  exact h

theorem callerPaths_runModules (T : CallGraphPass) (ms : List ModPtr) :
    (runModules E T ms).ctx.callerPaths =
      (passed E (initialized E T ms) ms).ctx.callerPaths := by
  have h := congrArg GlobalContext.callerPaths
    (forgetCallees_doFinalization (E := E) (passed E (initialized E T ms) ms) ms)
  exact h

/-- Where a direct call of a definition of the loaded modules resolves to: into its own
module, or to an entry of the definition map. -/
theorem DirectlyCalls.liveDefinition {g : SortedMap ℕ FuncPtr} {ctx : GlobalContext} {M : ModPtr}
    {p : String} {F G : FuncPtr} (h : DirectlyCalls E g F G) (hM : (M, p) ∈ ctx.modules)
    (hF : F ∈ definitionsOf E M)
    (hlive : ∀ (k : ℕ) (A : FuncPtr), g[k]? = some A → LiveDefinition E ctx A) :
    LiveDefinition E ctx G := by
  obtain ⟨CI, hCI, _, _, CF, hCF, hG⟩ := h
  unfold definitionOf at hG
  split_ifs at hG with hdecl
  · exact hlive _ G hG
  · obtain rfl := Option.some.inj hG
    have hCI' : CI.mod = M := (E.mod_of_mem_insts hCI).trans (mod_of_mem_definitionsOf hF)
    have hmod : BelongsTo E (fun N => N = M) CF := Within.of_calledFunction hCI' hCF
    refine ⟨M, p, hM, mem_definitionsOf.mpr ⟨?_, by simpa using hdecl⟩⟩
    exact hmod.1 ▸ hmod.2

theorem registeredCaller_runModules (ht : Tables T.ctx) {M : ModPtr} {p : String}
    (hM : (M, p) ∈ T.ctx.modules) (hms : M ∈ ms) {F G : FuncPtr} (hF : F ∈ definitionsOf E M)
    (hcall : DirectlyCalls E (runModules E T ms).ctx.globalFuncMap F G)
    (hlive : ∀ (k : ℕ) (A : FuncPtr), (runModules E T ms).ctx.globalFuncMap[k]? = some A →
      LiveDefinition E T.ctx A) :
    RegisteredCaller E (runModules E T ms).ctx p G := by
  have htables := moduleTables_initialized (E := E) T ms
  have ht1 := Tables.congr htables ht
  have hmods : (initialized E T ms).ctx.modules = T.ctx.modules := congrArg Prod.fst htables
  obtain ⟨N, q, hN, hG⟩ := hcall.liveDefinition hM hF hlive
  refine ⟨N, q, by rwa [modules_runModules], hG, ?_⟩
  rw [globalFuncMap_runModules] at hcall
  have hpath : ∀ {K r A}, (K, r) ∈ T.ctx.modules → A ∈ definitionsOf E K →
      (initialized E T ms).ctx.moduleMaps.getD A.mod "" = r := by
    intro K r A hK hA
    rw [mod_of_mem_definitionsOf hA]
    exact ht1.getD_moduleMaps (by rw [hmods]; exact hK)
  have hrow := mem_callerPaths_passed_of ⟨M, hms, hF⟩ hcall
  rw [hpath hM hF, hpath hN hG] at hrow
  rw [callerPaths_runModules]
  exact hrow

theorem directlyCalls_of_mem_callees (hg : OnlyDefinitions E T.ctx.globalFuncMap)
    (hno : NoIndirectCalls E ms) {F G : FuncPtr} (hF : ∃ M ∈ ms, F ∈ E.functions M)
    (hnew : ∀ A, A ∉ T.ctx.callees.row F) (hG : G ∈ (runModules E T ms).ctx.callees.row F) :
    DirectlyCalls E (runModules E T ms).ctx.globalFuncMap F G := by
  rw [globalFuncMap_runModules]
  obtain ⟨D, hD, hDG⟩ := (mem_callees_runModules hg hF).mp hG
  rcases of_mem_callees_passed hD with hold | ⟨hdef, CI, hCI, U, hU, htarget⟩
  · rw [callees_initialized] at hold
    exact absurd hold (hnew D)
  · obtain ⟨hcall, ⟨hind, _⟩ | ⟨hind, CF, hCF, hDeq⟩⟩ := of_mem_targetsOf hU htarget
    · rw [hno F hdef CI hCI hcall] at hind
      cases hind
    · refine ⟨CI, hCI, hcall, hind, CF, hCF, ?_⟩
      cases hCFdef : definitionOf E (initialized E T ms).ctx.globalFuncMap CF with
      | none =>
        rw [hCFdef, Option.getD_none] at hDeq
        rw [hDeq, hDG] at hCFdef
        cases hCFdef
      | some A =>
        rw [hCFdef, Option.getD_some] at hDeq
        have hA := isDefinition_of_definitionOf (onlyDefinitions_initialized hg ms) hCFdef
        rw [← hDG, ← hDeq, definitionOf_of_isDefinition hA]

end Run

theorem NoIndirectCalls.mono {ms ms' : List ModPtr} (h : NoIndirectCalls E ms')
    (hms : ∀ M ∈ ms, M ∈ ms') : NoIndirectCalls E ms := by
  intro F hF
  obtain ⟨M, hM, hFM⟩ := hF
  exact h F ⟨M, hms M hM, hFM⟩

theorem callsRegistered_initial {files : List ParsedFile} (hp : (files.map Prod.fst).Nodup)
    (hm : (files.map Prod.snd).Nodup) :
    CallsRegistered E (files.map Prod.snd)
      (fun _ => (runModules E (initialState E files) (files.map Prod.snd)).ctx.globalFuncMap)
      (runModules E (initialState E files) (files.map Prod.snd)).ctx := by
  have hempty := initialState_empty (E := E) hp hm
  have hcallees := congrArg GlobalContext.callees hempty
  have hmap := congrArg GlobalContext.globalFuncMap hempty
  simp only [forgetTables] at hcallees hmap
  have hmods := initialState_modules (E := E) hp hm
  have hmem : ∀ {M p}, (M, p) ∈ (initialState E files).ctx.modules → M ∈ files.map Prod.snd := by
    intro M p hM
    rw [hmods] at hM
    obtain ⟨f, hf, hfM⟩ := List.mem_map.mp hM
    exact List.mem_map.mpr ⟨f, hf, congrArg Prod.fst hfM⟩
  have hlive : ∀ (k : ℕ) (F : FuncPtr),
      (runModules E (initialState E files) (files.map Prod.snd)).ctx.globalFuncMap[k]? = some F →
        LiveDefinition E (initialState E files).ctx F := by
    intro k F hF
    rw [globalFuncMap_runModules] at hF
    rcases getElem?_initialized hF with hF | ⟨M, hM, hFM, hdef, _⟩
    · simp [hmap] at hF
    · obtain ⟨f, hf, rfl⟩ := List.mem_map.mp hM
      refine ⟨f.2, f.1, ?_, mem_definitionsOf.mpr
        ⟨hFM, isDeclaration_of_isGlobalDefinition hdef⟩⟩
      rw [hmods]
      exact List.mem_map.mpr ⟨f, hf, rfl⟩
  constructor
  · rw [globalFuncMap_runModules]
    exact ownGuids_initialized (ownGuids_initialState hp hm) _
  · intro k F hF
    have h := hlive k F hF
    unfold LiveDefinition at h ⊢
    rwa [modules_runModules]
  · intro M p hM F hF G hcall
    rw [modules_runModules] at hM
    exact registeredCaller_runModules (initialState_tables hp hm) hM (hmem hM) hF hcall hlive
  · exact rowsLive_initial hp hm
  · intro hno F G hG
    obtain ⟨M, p, hM, hF⟩ := rowsLive_initial hp hm F G hG
    rw [modules_runModules] at hM
    apply directlyCalls_of_mem_callees (onlyDefinitions_initialState hp hm) hno _ _ hG
    · exact ⟨M, hmem hM, (mem_definitionsOf.mp hF).1⟩
    · simp [hcallees]

section Update

variable {S T : CallGraphPass} {files : List ParsedFile} {ms : List ModPtr}

/-- A file in whose row a caller stands that the update leaves alone is not updated. -/
theorem not_updated_of_row {p q : String} (hp : ¬ Reprocessed E S.ctx files p)
    (hrow : p ∈ S.ctx.callerPaths.row q) : q ∉ files.map Prod.fst := by
  intro hmem
  obtain ⟨f, hf, rfl⟩ := List.mem_map.mp hmem
  exact hp (Or.inr ⟨⟨f, hf, Or.inl hrow⟩, fun hpf => hp (Or.inl hpf)⟩)

theorem Start.registeredCaller (h : Start E S files T ms) {p : String} {G : FuncPtr}
    (hp : ¬ Reprocessed E S.ctx files p) (hG : RegisteredCaller E S.ctx p G) :
    RegisteredCaller E (runModules E T ms).ctx p G := by
  obtain ⟨N, q, hN, hGN, hrow⟩ := hG
  have hpf : p ∉ files.map Prod.fst := fun hmem => hp (Or.inl hmem)
  have hqf := not_updated_of_row hp hrow
  refine ⟨N, q, ?_, hGN, ?_⟩
  · rw [modules_runModules, h.modules]
    exact mem_nextModules.mpr (Or.inl ⟨hN, hqf⟩)
  · rw [callerPaths_runModules]
    apply mem_callerPaths_passed
    rw [callerPaths_initialized, h.callerPaths]
    exact ⟨hrow, hqf, hpf⟩

theorem Start.liveMap (h : Start E S files T ms) (hguids : OwnGuids E S.ctx.globalFuncMap)
    (hlive : ∀ (k : ℕ) (F : FuncPtr), S.ctx.globalFuncMap[k]? = some F →
      LiveDefinition E S.ctx F) {k : ℕ} {F : FuncPtr}
    (hF : (runModules E T ms).ctx.globalFuncMap[k]? = some F) : LiveDefinition E T.ctx F := by
  rw [globalFuncMap_runModules] at hF
  unfold LiveDefinition
  rw [h.modules]
  rcases getElem?_initialized hF with hF | ⟨M, hM, hFM, hdef, _⟩
  · obtain ⟨hSF, hno⟩ := (h.globalFuncMap k F).mp hF
    obtain ⟨M, p, hM, hFM⟩ := hlive k F hSF
    refine ⟨M, p, mem_nextModules.mpr (Or.inl ⟨hM, ?_⟩), hFM⟩
    exact fun hpf => hno ⟨F, ⟨M, ⟨p, hM, Or.inl hpf⟩, hFM⟩, hguids k F hSF⟩
  · obtain ⟨⟨M, p⟩, hMp, rfl⟩ := List.mem_map.mp (h.mem_next hM)
    exact ⟨M, p, hMp, mem_definitionsOf.mpr ⟨hFM, isDeclaration_of_isGlobalDefinition hdef⟩⟩

theorem Start.callsRegistered {seen : List ModPtr} {maps : ModPtr → SortedMap ℕ FuncPtr}
    (h : Start E S files T ms) (hL : Loaded E S.ctx) (hf : FilesOk S.ctx files)
    (hseen : ∀ M ∈ S.ctx.modules.map Prod.fst, M ∈ seen)
    (hg : OnlyDefinitions E S.ctx.globalFuncMap) (hS : CallsRegistered E seen maps S.ctx) :
    CallsRegistered E (files.map Prod.snd ++ seen)
      (fun M => if M ∈ ms then (runModules E T ms).ctx.globalFuncMap else maps M)
      (runModules E T ms).ctx := by
  have hlive : ∀ (k : ℕ) (F : FuncPtr), (runModules E T ms).ctx.globalFuncMap[k]? = some F →
      LiveDefinition E T.ctx F := fun k F hF => h.liveMap hS.guids hS.live hF
  have hrows := h.rowsLive hL hg hS.rowsLive
  constructor
  · rw [globalFuncMap_runModules]
    apply ownGuids_initialized
    exact fun k F hF => hS.guids k F ((h.globalFuncMap k F).mp hF).1
  · intro k F hF
    have hFlive := hlive k F hF
    unfold LiveDefinition at hFlive ⊢
    rwa [modules_runModules]
  · intro M p hM F hF G hcall
    rw [modules_runModules] at hM
    by_cases hMms : M ∈ ms
    · rw [if_pos hMms] at hcall
      exact registeredCaller_runModules h.tables hM hMms hF hcall hlive
    · rw [if_neg hMms] at hcall
      rw [h.modules] at hM
      rcases h.next_cases hM with hms | ⟨hold, hp⟩
      · exact absurd hms hMms
      · exact h.registeredCaller hp (hS.registered M p hold F hF G hcall)
  · exact hrows
  · intro hno F G hG
    obtain ⟨M, p, hM, hF⟩ := hrows F G hG
    rw [modules_runModules, h.modules] at hM
    have hFM : F.mod = M := mod_of_mem_definitionsOf hF
    by_cases hMms : M ∈ ms
    · rw [hFM, if_pos hMms]
      apply directlyCalls_of_mem_callees (h.onlyDefinitions hg) _
        ⟨M, hMms, (mem_definitionsOf.mp hF).1⟩ _ hG
      · apply hno.mono
        intro N hN
        rcases (h.mem_ms N).mp hN with ⟨q, hq⟩ | ⟨q, _, hq⟩
        · exact List.mem_append_left _ (List.mem_map.mpr ⟨_, hq, rfl⟩)
        · exact List.mem_append_right _ (hseen N (List.mem_map.mpr ⟨_, hq, rfl⟩))
      · intro A hA
        obtain ⟨N, q, hN, hq, hFN⟩ := h.kept_row hL hS.rowsLive hA
        have hNM : N = M := (mod_of_mem_definitionsOf hFN).symm.trans hFM
        subst hNM
        exact h.not_mem_ms hL hf hN hq hMms
    · have hFms : ¬ ∃ N ∈ ms, F ∈ E.functions N := by
        intro hN
        obtain ⟨N, hN, hFN⟩ := hN
        exact hMms (hFM ▸ (E.mod_of_mem_functions hFN) ▸ hN)
      rw [hFM, if_neg hMms, ← hFM]
      apply hS.direct (hno.mono fun N hN => List.mem_append_right _ hN)
      exact ((h.callees F G).mp
        ((mem_callees_runModules_of_not (h.onlyDefinitions hg) hFms).mp hG)).1

end Update

theorem Processed.reached {seen : List ModPtr} {maps : ModPtr → SortedMap ℕ FuncPtr}
    {S : CallGraphPass} (h : Processed E seen maps S) :
    Reached E (fun _ => True) (fun _ _ => True) seen S := by
  induction h with
  | init files hp hm => exact Reached.init files hp hm trivial
  | update files _ hp hm hfresh hstep ih => exact ih.update files hp hm hfresh trivial hstep

theorem Processed.callsRegistered {seen : List ModPtr} {maps : ModPtr → SortedMap ℕ FuncPtr}
    {S : CallGraphPass} (h : Processed E seen maps S) : CallsRegistered E seen maps S.ctx := by
  induction h with
  | init files hp hm =>
    rw [initializeModules_eq hp hm]
    exact callsRegistered_initial hp hm
  | update files hS hp hm hfresh hstep ih =>
    have hreached := hS.reached
    obtain ⟨hL, hseen⟩ := hreached.loaded
    obtain ⟨hf, hstart, hrun⟩ := hreached.start hp hm hfresh
    rw [hrun] at hstep
    obtain rfl := Option.some.inj hstep
    exact hstart.callsRegistered hL hf hseen hreached.onlyDefinitions ih

/-- In every state of a run a direct call that resolved to a definition is registered, and
the definition is live. Hence a program without indirect calls has live callees only. -/
theorem directCalls_registered {seen : List ModPtr} {maps : ModPtr → SortedMap ℕ FuncPtr}
    {S : CallGraphPass} (h : Processed E seen maps S) :
    (∀ M p, (M, p) ∈ S.ctx.modules → ∀ F ∈ definitionsOf E M, ∀ G,
      DirectlyCalls E (maps M) F G → RegisteredCaller E S.ctx p G) ∧
    (NoIndirectCalls E seen → ∀ F G, G ∈ S.ctx.callees.row F → LiveDefinition E S.ctx G) := by
  have hS := h.callsRegistered
  refine ⟨hS.registered, ?_⟩
  intro hno F G hG
  obtain ⟨M, p, hM, hF⟩ := hS.rowsLive F G hG
  have hcall := hS.direct hno F G hG
  rw [mod_of_mem_definitionsOf hF] at hcall
  obtain ⟨N, q, hN, hGN, _⟩ := hS.registered M p hM F hF G hcall
  exact ⟨N, q, hN, hGN⟩

/-- `a.bc` calls a function that it declares, and that `b.bc` defines; `b.bc` is updated. -/
def declaredCallee : Env :=
  Env.ofModules [
    { values := [{ kind := .function { name := "run", insts := [1] } },
        { kind := .instruction (.call 0), operands := [2] },
        { kind := .function { name := "f", guid := 1, isDeclaration := true } }]
      types := [{ kind := .function, printed := "void ()" }]
      functions := [0, 2]
      names_nodup := by decide
      functions_listed := by decide },
    Module.ofFunction { name := "f", guid := 1 },
    Module.ofFunction { name := "f", guid := 1 }]

theorem directCalls_registered_callee : ∃ S, updateModules declaredCallee
      (initializeModules declaredCallee (parsed [("a.bc", 0), ("b.bc", 1)]))
      (parsed [("b.bc", 2)]) = some S ∧
    RegisteredCaller declaredCallee S.ctx "a.bc" ⟨2, 0⟩ := by
  have hfirst := Processed.init (E := declaredCallee) [("a.bc", 0), ("b.bc", 1)] (by decide)
    (by decide)
  obtain ⟨S, hstep, _⟩ := hfirst.reached.exists_update [("b.bc", 2)] (by decide) (by decide)
    (by decide) trivial
  have hS := hfirst.update [("b.bc", 2)] (by decide) (by decide)
    (hfirst.reached.fresh_of_seen (by decide)) hstep
  have htables : (updateModules declaredCallee
      (initializeModules declaredCallee (parsed [("a.bc", 0), ("b.bc", 1)]))
      (parsed [("b.bc", 2)])).map (fun S => (S.ctx.modules, S.ctx.globalFuncMap[1]?)) =
        some ([(0, "a.bc"), (2, "b.bc")], some ⟨2, 0⟩) := by decide
  rw [hstep, Option.map_some, Option.some.injEq, Prod.mk.injEq] at htables
  refine ⟨S, hstep, (directCalls_registered hS).1 0 "a.bc" ?_ ⟨0, 0⟩ (by decide) _ ?_⟩
  · rw [htables.1]
    decide
  · rw [if_pos (by decide)]
    exact ⟨⟨0, 1⟩, by decide, by decide, by decide, ⟨0, 2⟩, by decide, htables.2⟩

end TypeDive

end Cisa

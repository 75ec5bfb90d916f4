import Cisa.CallGraph.ModuleTables
import Cisa.CallGraph.Phases

/-!
# What an update erases

The invalidation of an update, table by table: which entries are left when the pass
starts again. The modules whose old version is invalidated are those loaded from a
path of the extended list.
-/

namespace Cisa

open Std

namespace TypeDive

variable {E : Env}

open CallGraphPass

/-! ## The loaded modules -/

/-- The tables without the three that describe the loaded modules. -/
def forgetTables (ctx : GlobalContext) : GlobalContext :=
  { ctx with modules := [], moduleMaps := ∅, moduleRevMaps := ∅ }

/-- The states differ in the module tables only. -/
structure SameFacts (S T : CallGraphPass) : Prop where
  ctx : forgetTables S.ctx = forgetTables T.ctx
  mlta : S.mlta = T.mlta
  mIdx : S.mIdx = T.mIdx

theorem SameFacts.refl (S : CallGraphPass) : SameFacts S S := ⟨rfl, rfl, rfl⟩

theorem SameFacts.trans {S T U : CallGraphPass} (h1 : SameFacts S T) (h2 : SameFacts T U) :
    SameFacts S U :=
  ⟨h1.ctx.trans h2.ctx, h1.mlta.trans h2.mlta, h1.mIdx.trans h2.mIdx⟩

theorem forgetTables_invalidateDefinition (ctx : GlobalContext) (F : FuncPtr) :
    forgetTables (invalidateDefinition E ctx F) = invalidateDefinition E (forgetTables ctx) F := by
  unfold invalidateDefinition
  split_ifs <;> rfl

theorem forgetTables_invalidateDefinitions (Fs : List FuncPtr) (ctx : GlobalContext) :
    forgetTables (Fs.foldl (invalidateDefinition E) ctx) =
      Fs.foldl (invalidateDefinition E) (forgetTables ctx) := by
  induction Fs generalizing ctx with
  | nil => rfl
  | cons F Fs ih => rw [List.foldl_cons, List.foldl_cons, ih, forgetTables_invalidateDefinition]

theorem SameFacts.invalidateModule {S T : CallGraphPass} (h : SameFacts S T) (M : ModPtr) :
    SameFacts (invalidateModule E S M) (invalidateModule E T M) := by
  refine ⟨?_, ?_, h.mIdx⟩
  · simp only [TypeDive.invalidateModule, forgetTables_invalidateDefinitions, h.ctx]
  · simp only [TypeDive.invalidateModule, h.mlta]

theorem SameFacts.invalidateModules {S T : CallGraphPass} (h : SameFacts S T) (Ms : List ModPtr) :
    SameFacts (Ms.foldl (TypeDive.invalidateModule E) S)
      (Ms.foldl (TypeDive.invalidateModule E) T) := by
  induction Ms generalizing S T with
  | nil => exact h
  | cons M Ms ih => exact ih (h.invalidateModule M)

/-- The three tables that describe the loaded modules. -/
def moduleTables (ctx : GlobalContext) :
    List (ModPtr × String) × SortedMap ModPtr String × SortedMap String (Option ModPtr) :=
  (ctx.modules, ctx.moduleMaps, ctx.moduleRevMaps)

theorem moduleTables_invalidateModule (S : CallGraphPass) (M : ModPtr) :
    moduleTables (invalidateModule E S M).ctx = moduleTables S.ctx := by
  refine Fold.foldl_frame (f := invalidateDefinition E) (p := moduleTables) ?_ _ _
  intro ctx F
  unfold invalidateDefinition
  split_ifs <;> rfl

theorem Tables.congr {ctx ctx' : GlobalContext} (h : moduleTables ctx' = moduleTables ctx)
    (ht : Tables ctx) : Tables ctx' := by
  obtain ⟨h1, h2⟩ := Prod.mk.inj h
  obtain ⟨h2, h3⟩ := Prod.mk.inj h2
  exact ⟨h1 ▸ ht.paths_nodup, h1 ▸ ht.mods_nodup, h1 ▸ h2 ▸ ht.moduleMaps,
    h1 ▸ h3 ▸ ht.moduleRevMaps⟩

def updatedFiles (affSet : SortedSet String) (mlist : List (Option ModPtr × String)) :
    List ParsedFile :=
  (mlist.filter fun e => e.2 ∉ affSet).filterMap fun e => e.1.map fun M => (e.2, M)

/-- An entry of the extended list: an affected module is loaded, an updated one is new. -/
def EntryOk (affSet : SortedSet String) (ctx : GlobalContext) (e : Option ModPtr × String) : Prop :=
  ∃ M, e.1 = some M ∧ if e.2 ∈ affSet then (M, e.2) ∈ ctx.modules
    else M ∉ ctx.modules.map Prod.fst

theorem invalidatePre_affected {affSet : SortedSet String} {S : CallGraphPass}
    {e : Option ModPtr × String} (he : e.2 ∈ affSet) :
    invalidatePre E affSet S e =
      ((S.ctx.modules.filter fun p => p.2 = e.2).map Prod.fst).foldl (invalidateModule E) S := by
  simp [invalidatePre, he]

theorem invalidatePre_updated {affSet : SortedSet String} {S : CallGraphPass} (ht : Tables S.ctx)
    {M : ModPtr} {path : String} (he : path ∉ affSet) (hM : M ∉ S.ctx.modules.map Prod.fst) :
    Tables (invalidatePre E affSet S (some M, path)).ctx ∧
      (invalidatePre E affSet S (some M, path)).ctx.modules =
        S.ctx.modules.filter (fun m => m.2 ≠ path) ++ [(M, path)] ∧
      SameFacts (invalidatePre E affSet S (some M, path))
        (((S.ctx.modules.filter fun p => p.2 = path).map Prod.fst).foldl
          (invalidateModule E) S) := by
  simp only [invalidatePre, he, if_false]
  cases hfind : S.ctx.modules.find? fun p => p.2 = path with
  | none =>
    have hnone : ∀ m ∈ S.ctx.modules, m.2 ≠ path := by simpa using hfind
    have hfilter : S.ctx.modules.filter (fun m => m.2 = path) = [] := by simpa using hnone
    have hkeep : S.ctx.modules.filter (fun m => m.2 ≠ path) = S.ctx.modules :=
      List.filter_eq_self.mpr (by simpa using hnone)
    rw [hfilter, hkeep]
    refine ⟨ht.add hM ?_, rfl, ⟨rfl, rfl, rfl⟩⟩
    intro hp
    obtain ⟨m, hm, heq⟩ := List.mem_map.mp hp
    exact hnone m hm heq
  | some m =>
    obtain ⟨N, q⟩ := m
    have hm := List.mem_of_find?_eq_some hfind
    have hq : q = path := by simpa using List.find?_some hfind
    subst hq
    rw [ht.filter_path hm]
    have htN : Tables (invalidateModule E S N).ctx :=
      Tables.congr (moduleTables_invalidateModule S N) ht
    have hmods : (invalidateModule E S N).ctx.modules = S.ctx.modules :=
      congrArg Prod.fst (moduleTables_invalidateModule S N)
    have hremoved := htN.modules_removeModule q
    rw [hmods] at hremoved
    refine ⟨(htN.remove q).add ?_ ?_, ?_, ⟨rfl, rfl, rfl⟩⟩
    · rw [hremoved]
      intro hmem
      obtain ⟨m, hm, heq⟩ := List.mem_map.mp hmem
      exact hM (List.mem_map.mpr ⟨m, (List.mem_filter.mp hm).1, heq⟩)
    · rw [hremoved]
      intro hmem
      obtain ⟨m, hm, heq⟩ := List.mem_map.mp hmem
      simpa [heq] using (List.mem_filter.mp hm).2
    · simp only [addModule, hremoved]

/-- The modules that are invalidated for a list of paths. -/
def loadedFrom (modules : List (ModPtr × String)) (paths : List String) : List ModPtr :=
  paths.flatMap fun path => (modules.filter fun m => m.2 = path).map Prod.fst

theorem mem_loadedFrom {modules : List (ModPtr × String)} {paths : List String} {M : ModPtr} :
    M ∈ loadedFrom modules paths ↔ ∃ p ∈ paths, (M, p) ∈ modules := by
  simp only [loadedFrom, List.mem_flatMap, List.mem_map, List.mem_filter]
  constructor
  · rintro ⟨p, hp, ⟨N, q⟩, ⟨hN, hq⟩, rfl⟩
    obtain rfl := of_decide_eq_true hq
    exact ⟨q, hp, hN⟩
  · rintro ⟨p, hp, hM⟩
    exact ⟨p, hp, (M, p), ⟨hM, by simp⟩, rfl⟩

theorem filter_path_append {modules : List (ModPtr × String)} {M : ModPtr} {path q : String}
    (h : q ≠ path) : ((modules.filter fun m => m.2 ≠ path) ++ [(M, path)]).filter
      (fun m => m.2 = q) = modules.filter fun m => m.2 = q := by
  rw [List.filter_append, List.filter_filter]
  have hnew : [(M, path)].filter (fun m => m.2 = q) = [] := by simp [Ne.symm h]
  rw [hnew, List.append_nil]
  apply List.filter_congr
  intro m _
  by_cases hm : m.2 = q
  · simp [hm, h]
  · simp [hm]

theorem nextModules_cons {modules : List (ModPtr × String)} {f : ParsedFile}
    {files : List ParsedFile} (h : f.1 ∉ files.map Prod.fst) :
    nextModules ((modules.filter fun m => m.2 ≠ f.1) ++ [(f.2, f.1)]) files =
      nextModules modules (f :: files) := by
  have hnew : [(f.2, f.1)].filter (fun m => m.2 ∉ files.map Prod.fst) = [(f.2, f.1)] := by
    simpa using h
  simp only [nextModules, List.filter_append, hnew, List.filter_filter, List.map_cons,
    List.append_assoc, List.singleton_append]
  congr 1
  apply List.filter_congr
  intro m _
  by_cases hm : m.2 = f.1 <;> simp [hm]

theorem EntryOk.of_updated {affSet : SortedSet String} {L : List (Option ModPtr × String)}
    {ctx ctx' : GlobalContext} {M : ModPtr} {path : String} {e : Option ModPtr × String}
    (hok : EntryOk affSet ctx e)
    (hmods : ctx'.modules = ctx.modules.filter (fun m => m.2 ≠ path) ++ [(M, path)])
    (hpath : path ∉ L.map Prod.snd) (hM : M ∉ (updatedFiles affSet L).map Prod.snd) (he : e ∈ L) :
    EntryOk affSet ctx' e := by
  obtain ⟨N, hN, hcase⟩ := hok
  have hne : e.2 ≠ path := by
    rintro rfl
    exact hpath (List.mem_map.mpr ⟨e, he, rfl⟩)
  refine ⟨N, hN, ?_⟩
  rw [hmods]
  by_cases heaff : e.2 ∈ affSet
  · rw [if_pos heaff] at hcase ⊢
    exact List.mem_append_left _ (List.mem_filter.mpr ⟨hcase, by simpa using hne⟩)
  · rw [if_neg heaff] at hcase ⊢
    have hmem : (e.2, N) ∈ updatedFiles affSet L :=
      List.mem_filterMap.mpr ⟨e, List.mem_filter.mpr ⟨he, by simpa using heaff⟩, by simp [hN]⟩
    have hNM : N ≠ M := by
      rintro rfl
      exact hM (List.mem_map.mpr ⟨_, hmem, rfl⟩)
    simp only [List.map_append, List.mem_append, List.map_cons, List.map_nil,
      List.mem_singleton, not_or]
    refine ⟨?_, hNM⟩
    intro hmemN
    obtain ⟨m, hm, heq⟩ := List.mem_map.mp hmemN
    exact hcase (List.mem_map.mpr ⟨m, (List.mem_filter.mp hm).1, heq⟩)

theorem moduleTables_invalidateModules (S : CallGraphPass) (Ms : List ModPtr) :
    moduleTables (Ms.foldl (invalidateModule E) S).ctx = moduleTables S.ctx :=
  Fold.foldl_frame (p := fun S : CallGraphPass => moduleTables S.ctx)
    moduleTables_invalidateModule _ _

section Entries

variable {affSet : SortedSet String} {L : List (Option ModPtr × String)} {M : ModPtr}
  {path : String} {modules : List (ModPtr × String)}

theorem updatedFiles_cons_affected (haff : path ∈ affSet) :
    updatedFiles affSet ((some M, path) :: L) = updatedFiles affSet L := by
  simp [updatedFiles, haff]

theorem updatedFiles_cons_updated (haff : path ∉ affSet) :
    updatedFiles affSet ((some M, path) :: L) = (path, M) :: updatedFiles affSet L := by
  simp [updatedFiles, haff]

theorem path_mem_of_updatedFiles {f : ParsedFile} (hf : f ∈ updatedFiles affSet L) :
    f.1 ∈ L.map Prod.snd := by
  obtain ⟨e, he, hef⟩ := List.mem_filterMap.mp hf
  obtain ⟨N, _, rfl⟩ := Option.map_eq_some_iff.mp hef
  exact List.mem_map.mpr ⟨e, (List.mem_filter.mp he).1, rfl⟩

theorem loadedFrom_cons {paths : List String} : loadedFrom modules (path :: paths) =
    (modules.filter fun m => m.2 = path).map Prod.fst ++ loadedFrom modules paths := by
  simp [loadedFrom]

theorem loadedFrom_replace {paths : List String} (h : path ∉ paths) :
    loadedFrom (modules.filter (fun m => m.2 ≠ path) ++ [(M, path)]) paths =
      loadedFrom modules paths := by
  apply List.flatMap_congr
  intro q hq
  rw [filter_path_append]
  rintro rfl
  exact h hq

end Entries

theorem foldl_invalidatePre {affSet : SortedSet String} {L : List (Option ModPtr × String)}
    {S : CallGraphPass} (ht : Tables S.ctx) (hpaths : (L.map Prod.snd).Nodup)
    (hmods : ((updatedFiles affSet L).map Prod.snd).Nodup)
    (hok : ∀ e ∈ L, EntryOk affSet S.ctx e) :
    Tables (L.foldl (invalidatePre E affSet) S).ctx ∧
      (L.foldl (invalidatePre E affSet) S).ctx.modules =
        nextModules S.ctx.modules (updatedFiles affSet L) ∧
      SameFacts (L.foldl (invalidatePre E affSet) S)
        ((loadedFrom S.ctx.modules (L.map Prod.snd)).foldl (invalidateModule E) S) := by
  induction L generalizing S with
  | nil =>
    refine ⟨ht, ?_, SameFacts.refl S⟩
    simp [nextModules, updatedFiles]
  | cons e L ih =>
    obtain ⟨o, path⟩ := e
    obtain ⟨M, hM, hcase⟩ := hok _ List.mem_cons_self
    obtain rfl : o = some M := hM
    rw [List.map_cons, List.nodup_cons] at hpaths
    dsimp only at hcase hpaths
    rw [List.foldl_cons, List.map_cons, loadedFrom_cons, List.foldl_append]
    by_cases haff : path ∈ affSet
    · rw [invalidatePre_affected (E := E) (S := S) (e := (some M, path)) haff]
      set Ms := (S.ctx.modules.filter fun m => m.2 = path).map Prod.fst
      have htables := moduleTables_invalidateModules (E := E) S Ms
      have hmodules : (Ms.foldl (invalidateModule E) S).ctx.modules = S.ctx.modules :=
        congrArg Prod.fst htables
      rw [updatedFiles_cons_affected haff] at hmods ⊢
      have hrest : ∀ e ∈ L, EntryOk affSet (Ms.foldl (invalidateModule E) S).ctx e := by
        intro e he
        obtain ⟨N, hN, hcase⟩ := hok e (List.mem_cons_of_mem _ he)
        exact ⟨N, hN, by rwa [hmodules]⟩
      have hspec := ih (Tables.congr htables ht) hpaths.2 hmods hrest
      rw [hmodules] at hspec
      exact hspec
    · rw [if_neg haff] at hcase
      obtain ⟨ht', hmods', hsame⟩ := invalidatePre_updated (E := E) ht haff hcase
      have hpathnew : path ∉ (updatedFiles affSet L).map Prod.fst := by
        intro hmem
        obtain ⟨f, hf, rfl⟩ := List.mem_map.mp hmem
        exact hpaths.1 (path_mem_of_updatedFiles hf)
      rw [updatedFiles_cons_updated haff] at hmods ⊢
      rw [List.map_cons, List.nodup_cons] at hmods
      have hok' : ∀ e ∈ L, EntryOk affSet (invalidatePre E affSet S (some M, path)).ctx e :=
        fun e he => (hok e (List.mem_cons_of_mem _ he)).of_updated hmods' hpaths.1 hmods.1 he
      obtain ⟨h1, h2, h3⟩ := ih ht' hpaths.2 hmods.2 hok'
      rw [hmods'] at h2 h3
      rw [loadedFrom_replace hpaths.1] at h3
      exact ⟨h1, h2.trans (nextModules_cons (f := (path, M)) hpathnew),
        h3.trans (hsame.invalidateModules _)⟩

/-! ## Pre-analysis states -/

section Pre

variable {S : CallGraphPass} {Ms : List ModPtr}

theorem ctx_invalidateModules :
    (Ms.foldl (invalidateModule E) S).ctx =
      (Ms.flatMap E.functions).foldl (invalidateDefinition E) S.ctx := by
  induction Ms generalizing S with
  | nil => rfl
  | cons M Ms ih =>
    rw [List.foldl_cons, ih, List.flatMap_cons, List.foldl_append]
    rfl

theorem mlta_invalidateModules : (Ms.foldl (invalidateModule E) S).mlta =
    Ms.foldl (fun m M => m.invalidateStates E M) S.mlta := by
  induction Ms generalizing S with
  | nil => rfl
  | cons M Ms ih => exact ih (S := invalidateModule E S M)

theorem mIdx_invalidateModules : (Ms.foldl (invalidateModule E) S).mIdx = S.mIdx :=
  Fold.foldl_frame (f := invalidateModule E) (p := mIdx) (fun _ _ => rfl) _ _

theorem exists_definition_iff {p : FuncPtr → Prop} :
    (∃ F ∈ Ms.flatMap E.functions, (E.function F).isDeclaration = false ∧ p F) ↔
      ∃ F, Defines E Ms F ∧ p F := by
  simp only [Defines, List.mem_flatMap, mem_definitionsOf]
  constructor
  · rintro ⟨F, ⟨M, hM, hF⟩, hd, hp⟩
    exact ⟨F, ⟨M, hM, hF, hd⟩, hp⟩
  · rintro ⟨F, ⟨M, hM, hF, hd⟩, hp⟩
    exact ⟨F, ⟨M, hM, hF⟩, hd, hp⟩

theorem globalFuncMap_invalidateModules {k : ℕ} {F : FuncPtr} :
    (Ms.foldl (invalidateModule E) S).ctx.globalFuncMap[k]? = some F ↔
      S.ctx.globalFuncMap[k]? = some F ∧ ¬ ∃ G, Defines E Ms G ∧ (E.function G).guid = k := by
  rw [ctx_invalidateModules, Fold.foldl_and (f := invalidateDefinition E)
    (P := fun ctx => ctx.globalFuncMap[k]? = some F)
    (R := fun G => ¬ ((E.function G).isDeclaration = false ∧ (E.function G).guid = k))]
  · rw [← exists_definition_iff]
    simp
  · intro ctx G
    unfold invalidateDefinition
    split_ifs with hG
    · simp [hG]
    · dsimp only
      rw [ExtTreeMap.getElem?_erase_eq_ite]
      split_ifs with hk <;> simp [hG, hk]

theorem mem_addressTakenFuncs_invalidateModules {F : FuncPtr} :
    F ∈ (Ms.foldl (invalidateModule E) S).ctx.addressTakenFuncs ↔
      F ∈ S.ctx.addressTakenFuncs ∧ ¬ Defines E Ms F := by
  rw [ctx_invalidateModules, Fold.foldl_and (f := invalidateDefinition E)
    (P := fun ctx => F ∈ ctx.addressTakenFuncs)
    (R := fun G => ¬ ((E.function G).isDeclaration = false ∧ G = F))]
  · have hself : Defines E Ms F ↔ ∃ G, Defines E Ms G ∧ G = F := by simp
    rw [hself, ← exists_definition_iff]
    simp only [not_exists, not_and]
  · intro ctx G
    unfold invalidateDefinition
    split_ifs with hG
    · simp [hG]
    · simp [hG, and_comm]

theorem mem_row_sigFuncsMap_invalidateModules {h : SizeT} {F : FuncPtr} :
    F ∈ (Ms.foldl (invalidateModule E) S).ctx.sigFuncsMap.row h ↔
      F ∈ S.ctx.sigFuncsMap.row h ∧ ¬ ∃ G, Defines E Ms G ∧ E.funcHash G false = h := by
  rw [ctx_invalidateModules, Fold.foldl_and (f := invalidateDefinition E)
    (P := fun ctx => F ∈ ctx.sigFuncsMap.row h)
    (R := fun G => ¬ ((E.function G).isDeclaration = false ∧ E.funcHash G false = h))]
  · rw [← exists_definition_iff]
    simp
  · intro ctx G
    unfold invalidateDefinition
    split_ifs with hG
    · simp [hG]
    · simp [hG, and_comm]

end Pre

/-! ## Post-analysis results -/

def registered (ctx : GlobalContext) (path : String) : List FuncPtr :=
  (ctx.bcFuncs.getD path ∅).toList.map Prod.snd

theorem mem_registered {ctx : GlobalContext} {path : String} {F : FuncPtr} :
    F ∈ registered ctx path ↔ ∃ n : String, (ctx.bcFuncs.getD path ∅)[n]? = some F := by
  simp [registered]

theorem bcFuncs_eraseFunctions (Fs : List FuncPtr) (ctx : GlobalContext) :
    (Fs.foldl eraseFunction ctx).bcFuncs = ctx.bcFuncs :=
  Fold.foldl_frame (f := eraseFunction) (p := GlobalContext.bcFuncs) (fun _ _ => rfl) _ _

/-- Erasing commutes with changes of `BCFuncs`. -/
theorem eraseFunctions_with_bcFuncs (Fs : List FuncPtr) (ctx : GlobalContext)
    (b : SortedMap String (SortedMap String FuncPtr)) :
    Fs.foldl eraseFunction { ctx with bcFuncs := b } =
      { Fs.foldl eraseFunction ctx with bcFuncs := b } := by
  induction Fs generalizing ctx with
  | nil => rfl
  | cons F Fs ih => exact ih (eraseFunction ctx F)

/-- The paths are distinct, so every path is looked up in the table before the update. -/
theorem invalidatePosts_eq {paths : List String} (hnd : paths.Nodup) (ctx : GlobalContext) :
    paths.foldl invalidatePost ctx =
      { (paths.flatMap (registered ctx)).foldl eraseFunction ctx with
        bcFuncs := paths.foldl (fun b p => b.erase p) ctx.bcFuncs } := by
  induction paths generalizing ctx with
  | nil => rfl
  | cons path paths ih =>
    rw [List.nodup_cons] at hnd
    have hctx : invalidatePost ctx path =
        { (registered ctx path).foldl eraseFunction ctx with
          bcFuncs := ctx.bcFuncs.erase path } := by
      unfold invalidatePost registered
      dsimp only
      rw [bcFuncs_eraseFunctions]
    have hreg : paths.flatMap (registered (invalidatePost ctx path)) =
        paths.flatMap (registered ctx) := by
      apply List.flatMap_congr
      intro q hq
      have hne : path ≠ q := by
        rintro rfl
        exact hnd.1 hq
      rw [hctx]
      simp [registered, ExtTreeMap.getD_erase, hne]
    rw [List.foldl_cons, ih hnd.2, hreg, hctx, eraseFunctions_with_bcFuncs]
    simp [List.flatMap_cons, List.foldl_append]

theorem mem_callees_eraseFunctions {l : List FuncPtr} {ctx : GlobalContext} {F G : FuncPtr} :
    G ∈ (l.foldl eraseFunction ctx).callees.row F ↔ G ∈ ctx.callees.row F ∧ F ∉ l := by
  rw [Fold.foldl_and (f := eraseFunction) (P := fun ctx => G ∈ ctx.callees.row F)
    (R := fun A => A ≠ F), List.forall_mem_ne']
  intro ctx A
  simp [eraseFunction, and_comm]

theorem mem_callers_eraseFunction {ctx : GlobalContext} {A F G : FuncPtr} :
    F ∈ (eraseFunction ctx A).callers.row G ↔
      F ∈ ctx.callers.row G ∧ ¬ (A = F ∧ G ∈ ctx.callees.row F) := by
  unfold eraseFunction
  dsimp only
  rw [Fold.foldl_and (P := fun c : PlainFuncMap => F ∈ c.row G)
    (R := fun callee => ¬ (callee = G ∧ A = F))]
  · simp only [ExtTreeSet.mem_toList]
    constructor
    · rintro ⟨hF, hall⟩
      refine ⟨hF, ?_⟩
      rintro ⟨rfl, hG⟩
      exact hall G hG ⟨rfl, rfl⟩
    · rintro ⟨hF, hno⟩
      refine ⟨hF, ?_⟩
      rintro B hB ⟨rfl, rfl⟩
      exact hno ⟨rfl, hB⟩
  · intro c callee
    simp [and_comm]

theorem mem_callers_eraseFunctions {Fs : List FuncPtr} {ctx : GlobalContext} {F G : FuncPtr} :
    F ∈ (Fs.foldl eraseFunction ctx).callers.row G ↔
      F ∈ ctx.callers.row G ∧ ¬ (F ∈ Fs ∧ G ∈ ctx.callees.row F) := by
  induction Fs generalizing ctx with
  | nil => simp
  | cons A Fs ih =>
    have hcallees : G ∈ (eraseFunction ctx A).callees.row F ↔ G ∈ ctx.callees.row F ∧ F ≠ A := by
      simpa using mem_callees_eraseFunctions (l := [A]) (F := F) (G := G)
    rw [List.foldl_cons, ih, mem_callers_eraseFunction, hcallees, List.mem_cons]
    by_cases hFA : F = A
    · simp [hFA]
    · simp [hFA, Ne.symm hFA]

theorem mem_calleesKeys_eraseFunctions {Fs : List FuncPtr} {ctx : GlobalContext} {F : FuncPtr} :
    F ∈ (Fs.foldl eraseFunction ctx).callees ↔ F ∈ ctx.callees ∧ F ∉ Fs := by
  rw [Fold.foldl_and (f := eraseFunction) (P := fun ctx => F ∈ ctx.callees)
    (R := fun A => A ≠ F), List.forall_mem_ne']
  intro ctx A
  simp [eraseFunction, and_comm]

theorem mem_callersKeys_eraseFunction {ctx : GlobalContext} {A G : FuncPtr} :
    G ∈ (eraseFunction ctx A).callers ↔ G ∈ ctx.callers ∨ G ∈ ctx.callees.row A := by
  unfold eraseFunction
  dsimp only
  rw [Fold.foldl_or (P := fun c : PlainFuncMap => G ∈ c) (Q := fun callee => callee = G)]
  · simp
  · intro c callee
    simp [or_comm]

/-- Erasing a caller leaves a row for each of its callees. -/
theorem mem_callersKeys_eraseFunctions {Fs : List FuncPtr} {ctx : GlobalContext} {G : FuncPtr} :
    G ∈ (Fs.foldl eraseFunction ctx).callers ↔
      G ∈ ctx.callers ∨ ∃ A ∈ Fs, G ∈ ctx.callees.row A := by
  induction Fs generalizing ctx with
  | nil => simp
  | cons A Fs ih =>
    have hcallees : ∀ B, G ∈ (eraseFunction ctx A).callees.row B ↔
        G ∈ ctx.callees.row B ∧ B ≠ A := by
      intro B
      simpa using mem_callees_eraseFunctions (l := [A]) (F := B) (G := G)
    rw [List.foldl_cons, ih, mem_callersKeys_eraseFunction]
    constructor
    · intro h
      rcases h with (h | h) | ⟨B, hB, h⟩
      · exact Or.inl h
      · exact Or.inr ⟨A, List.mem_cons_self, h⟩
      · exact Or.inr ⟨B, List.mem_cons_of_mem _ hB, ((hcallees B).mp h).1⟩
    · intro h
      rcases h with h | ⟨B, hB, h⟩
      · exact Or.inl (Or.inl h)
      · by_cases hBA : B = A
        · exact Or.inl (Or.inr (hBA ▸ h))
        · exact Or.inr ⟨B, (List.mem_cons.mp hB).resolve_left hBA, (hcallees B).mpr ⟨h, hBA⟩⟩

theorem mem_ancCacheKeys_eraseFunctions {Fs : List FuncPtr} {ctx : GlobalContext} {F : FuncPtr} :
    F ∈ (Fs.foldl eraseFunction ctx).ancCache ↔ F ∈ ctx.ancCache ∧ F ∉ Fs := by
  rw [Fold.foldl_and (f := eraseFunction) (P := fun ctx => F ∈ ctx.ancCache)
    (R := fun A => A ≠ F), List.forall_mem_ne']
  intro ctx A
  simp [eraseFunction, and_comm]

theorem mem_negAncCacheKeys_eraseFunctions {Fs : List FuncPtr} {ctx : GlobalContext}
    {F : FuncPtr} :
    F ∈ (Fs.foldl eraseFunction ctx).negAncCache ↔ F ∈ ctx.negAncCache ∧ F ∉ Fs := by
  rw [Fold.foldl_and (f := eraseFunction) (P := fun ctx => F ∈ ctx.negAncCache)
    (R := fun A => A ≠ F), List.forall_mem_ne']
  intro ctx A
  simp [eraseFunction, and_comm]

theorem forall_ne_ne_iff {Fs : List FuncPtr} {a d : FuncPtr} :
    (∀ F ∈ Fs, F ≠ a ∧ F ≠ d) ↔ a ∉ Fs ∧ d ∉ Fs := by
  rw [← List.forall_mem_ne', ← List.forall_mem_ne', ← forall₂_and]

theorem mem_ancCache_eraseFunctions {Fs : List FuncPtr} {ctx : GlobalContext} {a d : FuncPtr} :
    a ∈ (Fs.foldl eraseFunction ctx).ancCache.row d ↔
      a ∈ ctx.ancCache.row d ∧ ∀ F ∈ Fs, F ≠ a ∧ F ≠ d := by
  rw [Fold.foldl_and (f := eraseFunction) (P := fun ctx => a ∈ ctx.ancCache.row d)
    (R := fun F => F ≠ a ∧ F ≠ d)]
  intro ctx F
  simp only [eraseFunction, ExtTreeMap.mem_row_eraseInRows, ExtTreeMap.mem_row_erase]
  tauto

theorem mem_negAncCache_eraseFunctions {Fs : List FuncPtr} {ctx : GlobalContext} {a d : FuncPtr} :
    a ∈ (Fs.foldl eraseFunction ctx).negAncCache.row d ↔
      a ∈ ctx.negAncCache.row d ∧ ∀ F ∈ Fs, F ≠ a ∧ F ≠ d := by
  rw [Fold.foldl_and (f := eraseFunction) (P := fun ctx => a ∈ ctx.negAncCache.row d)
    (R := fun F => F ≠ a ∧ F ≠ d)]
  intro ctx F
  simp only [eraseFunction, ExtTreeMap.mem_row_eraseInRows, ExtTreeMap.mem_row_erase]
  tauto

theorem bcFuncs_invalidatePosts {paths : List String} {ctx : GlobalContext} {p n : String}
    {F : FuncPtr} : ((paths.foldl (fun b p => b.erase p) ctx.bcFuncs).getD p ∅)[n]? = some F ↔
      (ctx.bcFuncs.getD p ∅)[n]? = some F ∧ p ∉ paths := by
  rw [Fold.foldl_and
    (P := fun b : SortedMap String (SortedMap String FuncPtr) => (b.getD p ∅)[n]? = some F)
    (R := fun q => q ≠ p), List.forall_mem_ne']
  intro b q
  by_cases hq : q = p
  · simp [hq]
  · simp [ExtTreeMap.getD_erase, hq]

/-! ## The state in which the pass starts -/

/-- The module at the path calls into an updated file, and is not updated itself. -/
def Affected (E : Env) (ctx : GlobalContext) (files : List ParsedFile) (p : String) : Prop :=
  (∃ f ∈ files, CallsInto E ctx p f) ∧ p ∉ files.map Prod.fst

/-- The path is updated or affected. -/
def Reprocessed (E : Env) (ctx : GlobalContext) (files : List ParsedFile) (p : String) : Prop :=
  p ∈ files.map Prod.fst ∨ Affected E ctx files p

def OldModule (E : Env) (ctx : GlobalContext) (files : List ParsedFile) (M : ModPtr) : Prop :=
  ∃ p, (M, p) ∈ ctx.modules ∧ Reprocessed E ctx files p

/-- The function is registered for such a path; its rows are erased. -/
def Erased (E : Env) (ctx : GlobalContext) (files : List ParsedFile) (F : FuncPtr) : Prop :=
  ∃ p, Reprocessed E ctx files p ∧ F ∈ registered ctx p

/-- The function is defined in such a module. -/
def OldDefinition (E : Env) (ctx : GlobalContext) (files : List ParsedFile) (F : FuncPtr) : Prop :=
  ∃ M, OldModule E ctx files M ∧ F ∈ definitionsOf E M

section Decidable

variable {E : Env} {ctx : GlobalContext} {files : List ParsedFile}

instance {p : String} {f : ParsedFile} : Decidable (CallsInto E ctx p f) :=
  inferInstanceAs (Decidable (_ ∨ _))

instance {p : String} : Decidable (Affected E ctx files p) := inferInstanceAs (Decidable (_ ∧ _))

instance {p : String} : Decidable (Reprocessed E ctx files p) := inferInstanceAs (Decidable (_ ∨ _))

instance {F : FuncPtr} : Decidable (OldDefinition E ctx files F) :=
  decidable_of_iff (∃ m ∈ ctx.modules, Reprocessed E ctx files m.2 ∧ F ∈ definitionsOf E m.1)
    ⟨fun ⟨m, hm, hp, hF⟩ => ⟨m.1, ⟨m.2, hm, hp⟩, hF⟩, fun ⟨M, ⟨p, hM, hp⟩, hF⟩ => ⟨(M, p), hM, hp, hF⟩⟩

end Decidable

/-- The files of an update: distinct paths, and modules that were not loaded before. -/
structure FilesOk (ctx : GlobalContext) (files : List ParsedFile) : Prop where
  paths_nodup : (files.map Prod.fst).Nodup
  mods_nodup : (files.map Prod.snd).Nodup
  fresh : ∀ f ∈ files, f.2 ∉ ctx.modules.map Prod.fst

/-- What the pass of an update starts from, and the modules it is run on. -/
structure Start (E : Env) (S : CallGraphPass) (files : List ParsedFile) (T : CallGraphPass)
    (ms : List ModPtr) : Prop where
  tables : Tables T.ctx
  modules : T.ctx.modules = nextModules S.ctx.modules files
  mem_ms : ∀ M, M ∈ ms ↔ (∃ p, (p, M) ∈ files) ∨
    ∃ p, Affected E S.ctx files p ∧ (M, p) ∈ S.ctx.modules
  ms_nodup : ms.Nodup
  mIdx : T.mIdx = S.mIdx
  globalFuncMap : ∀ (k : ℕ) (F : FuncPtr), T.ctx.globalFuncMap[k]? = some F ↔
    S.ctx.globalFuncMap[k]? = some F ∧
      ¬ ∃ G, OldDefinition E S.ctx files G ∧ (E.function G).guid = k
  addressTakenFuncs : ∀ F, F ∈ T.ctx.addressTakenFuncs ↔
    F ∈ S.ctx.addressTakenFuncs ∧ ¬ OldDefinition E S.ctx files F
  sigFuncsMap : ∀ h F, F ∈ T.ctx.sigFuncsMap.row h ↔ F ∈ S.ctx.sigFuncsMap.row h ∧
    ¬ ∃ G, OldDefinition E S.ctx files G ∧ E.funcHash G false = h
  mlta : ∃ Ms : List ModPtr, (∀ M, M ∈ Ms ↔ OldModule E S.ctx files M) ∧
    T.mlta = Ms.foldl (fun m M => m.invalidateStates E M) S.mlta.initTempStates
  callees : ∀ F G, G ∈ T.ctx.callees.row F ↔
    G ∈ S.ctx.callees.row F ∧ ¬ Erased E S.ctx files F
  callers : ∀ F G, F ∈ T.ctx.callers.row G ↔ F ∈ S.ctx.callers.row G ∧
    ¬ (Erased E S.ctx files F ∧ G ∈ S.ctx.callees.row F)
  calleesKeys : ∀ F, F ∈ T.ctx.callees ↔ F ∈ S.ctx.callees ∧ ¬ Erased E S.ctx files F
  callersKeys : ∀ G, G ∈ T.ctx.callers ↔ G ∈ S.ctx.callers ∨
    ∃ A, Erased E S.ctx files A ∧ G ∈ S.ctx.callees.row A
  ancCacheKeys : ∀ F, F ∈ T.ctx.ancCache ↔ F ∈ S.ctx.ancCache ∧ ¬ Erased E S.ctx files F
  negAncCacheKeys : ∀ F, F ∈ T.ctx.negAncCache ↔
    F ∈ S.ctx.negAncCache ∧ ¬ Erased E S.ctx files F
  ancCache : ∀ a d, a ∈ T.ctx.ancCache.row d ↔ a ∈ S.ctx.ancCache.row d ∧
    ¬ Erased E S.ctx files a ∧ ¬ Erased E S.ctx files d
  negAncCache : ∀ a d, a ∈ T.ctx.negAncCache.row d ↔ a ∈ S.ctx.negAncCache.row d ∧
    ¬ Erased E S.ctx files a ∧ ¬ Erased E S.ctx files d
  bcFuncs : ∀ (p n : String) (F : FuncPtr), (T.ctx.bcFuncs.getD p ∅)[n]? = some F ↔
    (S.ctx.bcFuncs.getD p ∅)[n]? = some F ∧ ¬ Reprocessed E S.ctx files p
  callerPaths : ∀ q p, p ∈ T.ctx.callerPaths.row q ↔ p ∈ S.ctx.callerPaths.row q ∧
    q ∉ files.map Prod.fst ∧ p ∉ files.map Prod.fst
  candCallerPaths : ∀ h p, p ∈ T.ctx.candCallerPaths.row h ↔ p ∈ S.ctx.candCallerPaths.row h ∧
    p ∉ files.map Prod.fst

def passStart (E : Env) (S : CallGraphPass) (files : List ParsedFile) : CallGraphPass :=
  invalidated E S (extended E S.ctx (parsed files))

def passModules (E : Env) (S : CallGraphPass) (files : List ParsedFile) : List ModPtr :=
  (extended E S.ctx (parsed files)).mlist.filterMap Prod.fst

/-- The tables without those that `invalidatePost` touches. -/
def forgetEdges (ctx : GlobalContext) : GlobalContext :=
  { ctx with callees := ∅, callers := ∅, ancCache := ∅, negAncCache := ∅, bcFuncs := ∅ }

theorem forgetEdges_invalidatePosts (paths : List String) (ctx : GlobalContext) :
    forgetEdges (paths.foldl invalidatePost ctx) = forgetEdges ctx := by
  refine Fold.foldl_frame (p := forgetEdges) ?_ _ _
  intro ctx path
  unfold invalidatePost
  exact Fold.foldl_frame (f := eraseFunction) (p := forgetEdges) (fun _ _ => rfl) _ _

theorem forgetPre_invalidateModules (Ms : List ModPtr) (S : CallGraphPass) :
    (Ms.foldl (invalidateModule E) S).ctx.forgetPre = S.ctx.forgetPre := by
  rw [ctx_invalidateModules]
  refine Fold.foldl_frame (f := invalidateDefinition E) (p := GlobalContext.forgetPre) ?_ _ _
  intro ctx F
  unfold invalidateDefinition
  split_ifs <;> rfl

/-- The contexts have the same edges, caches and registered functions. -/
structure SameEdges (ctx ctx' : GlobalContext) : Prop where
  callees : ctx.callees = ctx'.callees
  callers : ctx.callers = ctx'.callers
  ancCache : ctx.ancCache = ctx'.ancCache
  negAncCache : ctx.negAncCache = ctx'.negAncCache
  bcFuncs : ctx.bcFuncs = ctx'.bcFuncs

def edgeTables (ctx : GlobalContext) : PlainFuncMap × PlainFuncMap × PlainFuncMap × PlainFuncMap ×
    SortedMap String (SortedMap String FuncPtr) :=
  (ctx.callees, ctx.callers, ctx.ancCache, ctx.negAncCache, ctx.bcFuncs)

theorem SameEdges.of_edgeTables {ctx ctx' : GlobalContext} (h : edgeTables ctx = edgeTables ctx') :
    SameEdges ctx ctx' := by
  simp only [edgeTables, Prod.mk.injEq] at h
  obtain ⟨hcallees, hcallers, hanc, hneg, hbc⟩ := h
  exact ⟨hcallees, hcallers, hanc, hneg, hbc⟩

theorem SameEdges.of_forgetPaths {ctx ctx' : GlobalContext}
    (h : forgetPaths ctx = forgetPaths ctx') : SameEdges ctx ctx' := by
  have hedges := congrArg edgeTables h
  exact .of_edgeTables hedges

theorem SameEdges.of_forgetPre {ctx ctx' : GlobalContext}
    (h : (forgetTables ctx).forgetPre = forgetTables ctx'.forgetPre) : SameEdges ctx ctx' := by
  have hedges := congrArg edgeTables h
  exact .of_edgeTables hedges

def postInvalidated (S : CallGraphPass) (x : Extension) : CallGraphPass :=
  { S with
    mlta := S.mlta.initTempStates
    ctx := (x.mlist.map Prod.snd).foldl invalidatePost x.ctx }

theorem mapM_fst_eq_some {L : List (Option ModPtr × String)} (h : ∀ e ∈ L, ∃ M, e.1 = some M) :
    L.mapM Prod.fst = some (L.filterMap Prod.fst) := by
  induction L with
  | nil => rfl
  | cons e L ih =>
    obtain ⟨M, hM⟩ := h e List.mem_cons_self
    have hL := ih fun e he => h e (List.mem_cons_of_mem _ he)
    simp [List.mapM_cons, hM, hL]

section Start

variable {S : CallGraphPass} {files : List ParsedFile} {x : Extension}

theorem Extended.mem_paths (hx : Extended E S.ctx (files.map Prod.fst) files x) {p : String} :
    p ∈ x.mlist.map Prod.snd ↔ Reprocessed E S.ctx files p := by
  constructor
  · intro hp
    obtain ⟨e, he, rfl⟩ := List.mem_map.mp hp
    by_cases hlisted : e.2 ∈ files.map Prod.fst
    · exact Or.inl hlisted
    · exact Or.inr ((hx.mem_affSet _).mp (hx.affected e he hlisted).1)
  · rintro (hp | hp)
    · obtain ⟨f, hf, rfl⟩ := List.mem_map.mp hp
      have hmem : (some f.2, f.1) ∈ x.mlist.filter fun e => e.2 ∈ files.map Prod.fst := by
        rw [hx.listed]
        exact List.mem_map.mpr ⟨f, hf, rfl⟩
      exact List.mem_map.mpr ⟨_, (List.mem_filter.mp hmem).1, rfl⟩
    · exact (hx.affSet p ((hx.mem_affSet p).mpr hp)).2

theorem Extended.entry (hx : Extended E S.ctx (files.map Prod.fst) files x)
    {e : Option ModPtr × String} : e ∈ x.mlist ↔ ∃ M, e.1 = some M ∧ ((e.2, M) ∈ files ∨
      Affected E S.ctx files e.2 ∧ (M, e.2) ∈ S.ctx.modules ∧ e ∈ x.mlist) := by
  constructor
  · intro he
    by_cases hlisted : e.2 ∈ files.map Prod.fst
    · have hmem : e ∈ x.mlist.filter fun e => e.2 ∈ files.map Prod.fst :=
        List.mem_filter.mpr ⟨he, by simpa using hlisted⟩
      rw [hx.listed] at hmem
      obtain ⟨f, hf, rfl⟩ := List.mem_map.mp hmem
      exact ⟨f.2, rfl, Or.inl hf⟩
    · obtain ⟨haff, M, hM, hload⟩ := hx.affected e he hlisted
      exact ⟨M, hM, Or.inr ⟨(hx.mem_affSet _).mp haff, hload, he⟩⟩
  · rintro ⟨M, hM, hf | ⟨_, _, he⟩⟩
    · have hmem : (some M, e.2) ∈ x.mlist.filter fun e => e.2 ∈ files.map Prod.fst := by
        rw [hx.listed]
        exact List.mem_map.mpr ⟨_, hf, rfl⟩
      rw [← hM] at hmem
      exact (List.mem_filter.mp hmem).1
    · exact he

theorem Extended.updatedFiles_eq (hx : Extended E S.ctx (files.map Prod.fst) files x) :
    updatedFiles x.affSet x.mlist = files := by
  have hfilter : (x.mlist.filter fun e => e.2 ∉ x.affSet) =
      x.mlist.filter fun e => e.2 ∈ files.map Prod.fst := by
    apply List.filter_congr
    intro e he
    have hiff : e.2 ∉ x.affSet ↔ e.2 ∈ files.map Prod.fst := by
      constructor
      · intro haff
        by_contra hlisted
        exact haff (hx.affected e he hlisted).1
      · exact fun hlisted haff => (hx.affSet _ haff).1 hlisted
    simp only [hiff]
  rw [updatedFiles, hfilter, hx.listed]
  simp [List.filterMap_map]

theorem Extended.entryOk (hx : Extended E S.ctx (files.map Prod.fst) files x)
    (hf : FilesOk S.ctx files) {e : Option ModPtr × String} (he : e ∈ x.mlist) :
    EntryOk x.affSet S.ctx e := by
  obtain ⟨M, hM, hcase⟩ := hx.entry.mp he
  refine ⟨M, hM, ?_⟩
  rcases hcase with hfile | ⟨haff, hload, _⟩
  · have hlisted : e.2 ∈ files.map Prod.fst := List.mem_map.mpr ⟨_, hfile, rfl⟩
    rw [if_neg fun h => (hx.affSet _ h).1 hlisted]
    exact hf.fresh _ hfile
  · rw [if_pos ((hx.mem_affSet _).mpr haff)]
    exact hload

theorem Extended.nodup_mods (hx : Extended E S.ctx (files.map Prod.fst) files x)
    (ht : Tables S.ctx) (hf : FilesOk S.ctx files) : (x.mlist.filterMap Prod.fst).Nodup := by
  rw [List.Nodup, List.pairwise_filterMap]
  apply (List.pairwise_map.mp hx.nodup).imp_of_mem
  intro e e' he he' hne M hM M' hM' hMM
  subst hMM
  apply hne
  obtain ⟨N, hN, hcase⟩ := hx.entry.mp he
  obtain ⟨N', hN', hcase'⟩ := hx.entry.mp he'
  obtain rfl : N = M := Option.some.inj (hN.symm.trans hM)
  obtain rfl : N' = N := Option.some.inj (hN'.symm.trans hM')
  rcases hcase with hfile | ⟨_, hload, _⟩
  · rcases hcase' with hfile' | ⟨_, hload', _⟩
    · exact congrArg Prod.fst (List.inj_on_of_nodup_map hf.mods_nodup hfile hfile' rfl)
    · exact absurd (List.mem_map.mpr ⟨_, hload', rfl⟩) (hf.fresh _ hfile)
  · rcases hcase' with hfile' | ⟨_, hload', _⟩
    · exact absurd (List.mem_map.mpr ⟨_, hload, rfl⟩) (hf.fresh _ hfile')
    · exact ht.eq_of_mod hload hload'

theorem Extended.mem_mods (hx : Extended E S.ctx (files.map Prod.fst) files x)
    (ht : Tables S.ctx) {M : ModPtr} : M ∈ x.mlist.filterMap Prod.fst ↔
      (∃ p, (p, M) ∈ files) ∨ ∃ p, Affected E S.ctx files p ∧ (M, p) ∈ S.ctx.modules := by
  rw [List.mem_filterMap]
  constructor
  · rintro ⟨e, he, hM⟩
    obtain ⟨N, hN, hcase⟩ := hx.entry.mp he
    obtain rfl : N = M := Option.some.inj (hN.symm.trans hM)
    rcases hcase with hfile | ⟨haff, hload, _⟩
    · exact Or.inl ⟨e.2, hfile⟩
    · exact Or.inr ⟨e.2, haff, hload⟩
  · rintro (⟨p, hfile⟩ | ⟨p, haff, hload⟩)
    · exact ⟨(some M, p), hx.entry.mpr ⟨M, rfl, Or.inl hfile⟩, rfl⟩
    · obtain ⟨e, he, rfl⟩ := List.mem_map.mp (hx.mem_paths.mpr (Or.inr haff))
      obtain ⟨N, hN, hcase⟩ := hx.entry.mp he
      rcases hcase with hfile | ⟨_, hload', _⟩
      · exact absurd (List.mem_map.mpr ⟨_, hfile, rfl⟩) haff.2
      · exact ⟨e, he, by rw [hN, ht.eq_of_path hload hload']⟩

theorem Extended.run_eq (hx : Extended E S.ctx (files.map Prod.fst) files x) (T : CallGraphPass) :
    CallGraphPass.run E T x.mlist = some (runModules E T (x.mlist.filterMap Prod.fst)) := by
  have hsome : ∀ e ∈ x.mlist, ∃ M, e.1 = some M := by
    intro e he
    obtain ⟨M, hM, _⟩ := hx.entry.mp he
    exact ⟨M, hM⟩
  rw [CallGraphPass.run, mapM_fst_eq_some hsome]
  rfl

theorem moduleTables_postInvalidated (hx : Extended E S.ctx (files.map Prod.fst) files x) :
    moduleTables (postInvalidated S x).ctx = moduleTables S.ctx := by
  have h1 := congrArg moduleTables (forgetEdges_invalidatePosts (x.mlist.map Prod.snd) x.ctx)
  have h2 := congrArg moduleTables hx.frame
  exact Eq.trans h1 h2

theorem Extended.mem_loadedFrom (hx : Extended E S.ctx (files.map Prod.fst) files x)
    {M : ModPtr} : M ∈ loadedFrom S.ctx.modules (x.mlist.map Prod.snd) ↔
      OldModule E S.ctx files M := by
  rw [TypeDive.mem_loadedFrom]
  constructor
  · rintro ⟨p, hp, hM⟩
    exact ⟨p, hM, hx.mem_paths.mp hp⟩
  · rintro ⟨p, hM, hp⟩
    exact ⟨p, hx.mem_paths.mpr hp, hM⟩

/-- The old modules are invalidated, and the updated files take their places. -/
theorem Extended.invalidated_spec (hx : Extended E S.ctx (files.map Prod.fst) files x)
    (ht : Tables S.ctx) (hf : FilesOk S.ctx files) :
    Tables (invalidated E S x).ctx ∧
      (invalidated E S x).ctx.modules = nextModules S.ctx.modules files ∧
      SameFacts (invalidated E S x)
        ((loadedFrom S.ctx.modules (x.mlist.map Prod.snd)).foldl (invalidateModule E)
          (postInvalidated S x)) := by
  have htables := moduleTables_postInvalidated hx
  have hmods : (postInvalidated S x).ctx.modules = S.ctx.modules := congrArg Prod.fst htables
  have hok : ∀ e ∈ x.mlist, EntryOk x.affSet (postInvalidated S x).ctx e := by
    intro e he
    obtain ⟨M, hM, hcase⟩ := hx.entryOk hf he
    exact ⟨M, hM, by rwa [hmods]⟩
  have hupdated : ((updatedFiles x.affSet x.mlist).map Prod.snd).Nodup := by
    rw [hx.updatedFiles_eq]
    exact hf.mods_nodup
  have hspec := foldl_invalidatePre (E := E) (Tables.congr htables ht) hx.nodup hupdated hok
  rw [hx.updatedFiles_eq, hmods] at hspec
  exact hspec

theorem definitions_postInvalidated (hx : Extended E S.ctx (files.map Prod.fst) files x) :
    (postInvalidated S x).ctx.globalFuncMap = S.ctx.globalFuncMap ∧
      (postInvalidated S x).ctx.addressTakenFuncs = S.ctx.addressTakenFuncs ∧
      (postInvalidated S x).ctx.sigFuncsMap = S.ctx.sigFuncsMap := by
  let tables := fun ctx : GlobalContext =>
    (ctx.globalFuncMap, ctx.addressTakenFuncs, ctx.sigFuncsMap)
  have h1 := congrArg tables (forgetEdges_invalidatePosts (x.mlist.map Prod.snd) x.ctx)
  have h2 := congrArg tables hx.frame
  have htables : tables (postInvalidated S x).ctx = tables S.ctx := Eq.trans h1 h2
  simpa [tables] using htables

theorem Extended.defines_iff (hx : Extended E S.ctx (files.map Prod.fst) files x) {G : FuncPtr} :
    Defines E (loadedFrom S.ctx.modules (x.mlist.map Prod.snd)) G ↔
      OldDefinition E S.ctx files G := by
  simp only [Defines, OldDefinition, hx.mem_loadedFrom]

theorem Extended.forgetPre_invalidated (hx : Extended E S.ctx (files.map Prod.fst) files x)
    (ht : Tables S.ctx) (hf : FilesOk S.ctx files) :
    (forgetTables (invalidated E S x).ctx).forgetPre =
      forgetTables (postInvalidated S x).ctx.forgetPre := by
  have hsame := (hx.invalidated_spec ht hf).2.2
  have hpre := forgetPre_invalidateModules (E := E)
    (loadedFrom S.ctx.modules (x.mlist.map Prod.snd)) (postInvalidated S x)
  exact Eq.trans (congrArg GlobalContext.forgetPre hsame.ctx) (congrArg forgetTables hpre)

theorem Extended.invalidated_callerTables (hx : Extended E S.ctx (files.map Prod.fst) files x)
    (ht : Tables S.ctx) (hf : FilesOk S.ctx files) :
    ((invalidated E S x).ctx.callerPaths, (invalidated E S x).ctx.candCallerPaths) =
      (x.ctx.callerPaths, x.ctx.candCallerPaths) := by
  let tables := fun ctx : GlobalContext => (ctx.callerPaths, ctx.candCallerPaths)
  have h1 := congrArg tables (hx.forgetPre_invalidated ht hf)
  have h2 := congrArg tables (forgetEdges_invalidatePosts (x.mlist.map Prod.snd) x.ctx)
  exact Eq.trans h1 h2

/-- The invalidation erases the rows of the functions that are registered for the paths of the
list, and nothing else from the edges. -/
theorem Extended.invalidated_edges (hx : Extended E S.ctx (files.map Prod.fst) files x)
    (ht : Tables S.ctx) (hf : FilesOk S.ctx files) :
    SameEdges (invalidated E S x).ctx
      { ((x.mlist.map Prod.snd).flatMap (registered x.ctx)).foldl eraseFunction x.ctx with
        bcFuncs := (x.mlist.map Prod.snd).foldl (fun b p => b.erase p) x.ctx.bcFuncs } := by
  rw [← invalidatePosts_eq hx.nodup]
  exact SameEdges.of_forgetPre (hx.forgetPre_invalidated ht hf)

theorem Extended.mem_registered_iff (hx : Extended E S.ctx (files.map Prod.fst) files x)
    {F : FuncPtr} : F ∈ (x.mlist.map Prod.snd).flatMap (registered x.ctx) ↔
      Erased E S.ctx files F := by
  have hbc : x.ctx.bcFuncs = S.ctx.bcFuncs := (SameEdges.of_forgetPaths hx.frame).bcFuncs
  simp only [List.mem_flatMap, Erased, hx.mem_paths, registered, hbc]

/-- The tables after the invalidation, each compared with its contents before the update. -/
theorem Extended.start (hx : Extended E S.ctx (files.map Prod.fst) files x) (ht : Tables S.ctx)
    (hf : FilesOk S.ctx files) :
    Start E S files (invalidated E S x) (x.mlist.filterMap Prod.fst) := by
  obtain ⟨htables, hmods, hsame⟩ := hx.invalidated_spec ht hf
  obtain ⟨hglobal, haddress, hsig⟩ := definitions_postInvalidated hx
  have hold := hx.invalidated_edges ht hf
  have hx' := SameEdges.of_forgetPaths hx.frame
  have hpaths := Prod.mk.inj (hx.invalidated_callerTables ht hf)
  exact
    { tables := htables
      modules := hmods
      mem_ms := fun M => hx.mem_mods ht
      ms_nodup := hx.nodup_mods ht hf
      mIdx := hsame.mIdx.trans mIdx_invalidateModules
      globalFuncMap := by
        intro k F
        have hT := congrArg GlobalContext.globalFuncMap hsame.ctx
        simp only [forgetTables] at hT
        rw [hT, globalFuncMap_invalidateModules, hglobal]
        simp only [hx.defines_iff]
      addressTakenFuncs := by
        intro F
        have hT := congrArg GlobalContext.addressTakenFuncs hsame.ctx
        simp only [forgetTables] at hT
        rw [hT, mem_addressTakenFuncs_invalidateModules, haddress, hx.defines_iff]
      sigFuncsMap := by
        intro h F
        have hT := congrArg GlobalContext.sigFuncsMap hsame.ctx
        simp only [forgetTables] at hT
        rw [hT, mem_row_sigFuncsMap_invalidateModules, hsig]
        simp only [hx.defines_iff]
      mlta := ⟨_, fun M => hx.mem_loadedFrom, hsame.mlta.trans mlta_invalidateModules⟩
      callees := by
        intro F G
        rw [hold.callees, ← hx.mem_registered_iff, ← hx'.callees]
        exact mem_callees_eraseFunctions
      callers := by
        intro F G
        rw [hold.callers, ← hx.mem_registered_iff, ← hx'.callees, ← hx'.callers]
        exact mem_callers_eraseFunctions
      calleesKeys := by
        intro F
        rw [hold.callees, ← hx.mem_registered_iff, ← hx'.callees]
        exact mem_calleesKeys_eraseFunctions
      callersKeys := by
        intro G
        simp only [← hx.mem_registered_iff]
        rw [hold.callers, ← hx'.callees, ← hx'.callers]
        exact mem_callersKeys_eraseFunctions
      ancCacheKeys := by
        intro F
        rw [hold.ancCache, ← hx.mem_registered_iff, ← hx'.ancCache]
        exact mem_ancCacheKeys_eraseFunctions
      negAncCacheKeys := by
        intro F
        rw [hold.negAncCache, ← hx.mem_registered_iff, ← hx'.negAncCache]
        exact mem_negAncCacheKeys_eraseFunctions
      ancCache := by
        intro a d
        rw [hold.ancCache, ← hx.mem_registered_iff, ← hx.mem_registered_iff, ← hx'.ancCache]
        exact mem_ancCache_eraseFunctions.trans (and_congr_right fun _ => forall_ne_ne_iff)
      negAncCache := by
        intro a d
        rw [hold.negAncCache, ← hx.mem_registered_iff, ← hx.mem_registered_iff,
          ← hx'.negAncCache]
        exact mem_negAncCache_eraseFunctions.trans (and_congr_right fun _ => forall_ne_ne_iff)
      bcFuncs := by
        intro p n F
        rw [hold.bcFuncs, ← hx.mem_paths, ← hx'.bcFuncs]
        exact bcFuncs_invalidatePosts
      callerPaths := by
        intro q p
        rw [hpaths.1]
        exact hx.callerPaths q p
      candCallerPaths := by
        intro h p
        rw [hpaths.2]
        exact hx.candCallerPaths h p }

/-- Every update gets as far as the pass, and never meets a null module. -/
theorem updateModules_start (ht : Tables S.ctx) (hc : CallersLoaded S.ctx)
    (hf : FilesOk S.ctx files) :
    updateModules E S (parsed files) =
        some (runModules E (passStart E S files) (passModules E S files)) ∧
      Start E S files (passStart E S files) (passModules E S files) := by
  have hx := extended_spec (E := E) ht hc hf.paths_nodup
  exact ⟨hx.run_eq _, hx.start ht hf⟩

end Start

end TypeDive

end Cisa

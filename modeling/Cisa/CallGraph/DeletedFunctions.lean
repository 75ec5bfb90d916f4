import Cisa.CallGraph.Provenance

/-!
# Deleted functions

An update deletes the modules that it replaces. The tables are cleaned by different
rules: post-analysis rows of the definitions that are registered, entries of the
definitions of pre-analysis tables, buckets by signature, fields by what is recorded for
the function; no key of `Callers` is ever erased.
-/

namespace Cisa

open Std

namespace TypeDive

variable {E : Env}

open CallGraphPass Mlta Ancestors

def OnlyLiveFunctions (E : Env) (S : CallGraphPass) : Prop :=
  Within E (fun M => M ∈ S.ctx.modules.map Prod.fst) S

/-- The function belongs to a module that the update replaces. -/
def Replaced (E : Env) (ctx : GlobalContext) (files : List ParsedFile) (F : FuncPtr) : Prop :=
  ∃ m ∈ ctx.modules, m.2 ∈ files.map Prod.fst ∧ F ∈ E.functions m.1

/-- No function of a replaced module occurs where the clean-up does not look for it. -/
structure Cleanable (E : Env) (S : CallGraphPass) (files : List ParsedFile) : Prop where
  definitions : ∀ F, Replaced E S.ctx files F → (E.function F).isDeclaration = false
  callees : ∀ F, Replaced E S.ctx files F → ∀ A, F ∉ S.ctx.callees.row A
  callersKeys : ∀ F, Replaced E S.ctx files F → F ∉ S.ctx.callers
  callers : ∀ F, Replaced E S.ctx files F → ∀ G, F ∈ S.ctx.callers.row G →
    G ∈ S.ctx.callees.row F
  sigFuncsMap : ∀ F, Replaced E S.ctx files F → ∀ h, F ∈ S.ctx.sigFuncsMap.row h →
    ∃ G, OldDefinition E S.ctx files G ∧ E.funcHash G false = h
  typeIdxFuncsMap : ∀ F, Replaced E S.ctx files F → ∀ h i, F ∈ slot S.mlta.typeIdxFuncsMap h i →
    (⟨h, i⟩ : HashIdx) ∈ S.mlta.funcTypeIdxsMap.row F

/-- The definition is nowhere in the tables but in the rows of `Callers` that its own
callees have. -/
abbrev OnlyCalls (E : Env) (S : CallGraphPass) (F : FuncPtr) : Prop :=
  (E.function F).isDeclaration = false ∧ F ∉ PlainFuncMap.members S.ctx.callees ∧
    F ∉ S.ctx.callers ∧
    (∀ r ∈ S.ctx.callers.toList, F ∈ r.2 → r.1 ∈ S.ctx.callees.row F) ∧
    (∀ r ∈ S.ctx.sigFuncsMap.toList, F ∉ r.2) ∧
    ∀ r ∈ S.mlta.typeIdxFuncsMap.toList, ∀ f ∈ r.2.toList, F ∉ f.2

theorem cleanable_of_onlyCalls {S : CallGraphPass} {files : List ParsedFile}
    (h : ∀ m ∈ S.ctx.modules, m.2 ∈ files.map Prod.fst → ∀ F ∈ E.functions m.1,
      OnlyCalls E S F) : Cleanable E S files := by
  have hall : ∀ F, Replaced E S.ctx files F → OnlyCalls E S F := by
    intro F hF
    obtain ⟨m, hm, hp, hFm⟩ := hF
    exact h m hm hp F hFm
  constructor
  · exact fun F hF => (hall F hF).1
  · intro F hF A hA
    exact (hall F hF).2.1 (PlainFuncMap.mem_members _ ((PlainFuncMap.mem_next _).mpr hA))
  · exact fun F hF => (hall F hF).2.2.1
  · intro F hF G hG
    rcases PlainFuncMap.row_eq_empty_or_mem_toList S.ctx.callers G with hrow | hrow
    · simp [hrow] at hG
    · exact (hall F hF).2.2.2.1 _ hrow hG
  · intro F hF hash hmem
    exact absurd hmem (ExtTreeMap.not_mem_row_of_forall (hall F hF).2.2.2.2.1 hash)
  · intro F hF hash i hmem
    unfold slot at hmem
    rw [ExtTreeMap.getD_eq_getD_getElem?] at hmem
    cases hfields : S.mlta.typeIdxFuncsMap[hash]? with
    | none => simp [hfields] at hmem
    | some fields =>
      rw [hfields, Option.getD_some] at hmem
      have hentry : (hash, fields) ∈ S.mlta.typeIdxFuncsMap.toList :=
        ExtTreeMap.mem_toList_iff_getElem?_eq_some.mpr hfields
      exact absurd hmem (ExtTreeMap.not_mem_row_of_forall ((hall F hF).2.2.2.2.2 _ hentry) i)

/-- A query brings in no function but its own two. -/
theorem Within.afterQuery {X : ModPtr → Prop} {S : CallGraphPass} (h : Within E X S) {q : Query}
    (hanc : BelongsTo E X q.1) (hdes : BelongsTo E X q.2) : Within E X (afterQuery S q) := by
  unfold TypeDive.afterQuery GlobalContext.isAncestor
  split_ifs
  · exact h
  · exact h
  · exact h
  · exact { h with ancCache := h.ancCache.addTo hdes hanc }
  · exact { h with negAncCache := h.negAncCache.addTo hdes hanc }

def OwnGuids (E : Env) (g : SortedMap ℕ FuncPtr) : Prop :=
  ∀ (k : ℕ) (F : FuncPtr), g[k]? = some F → (E.function F).guid = k

theorem ownGuids_initialized {T : CallGraphPass} (h : OwnGuids E T.ctx.globalFuncMap)
    (ms : List ModPtr) : OwnGuids E (initialized E T ms).ctx.globalFuncMap := by
  intro k F hF
  rcases getElem?_initialized hF with hF | ⟨_, _, _, _, hk⟩
  · exact h k F hF
  · exact hk

theorem ownGuids_initialState {files : List ParsedFile} (hp : (files.map Prod.fst).Nodup)
    (hm : (files.map Prod.snd).Nodup) : OwnGuids E (initialState E files).ctx.globalFuncMap := by
  rw [globalFuncMap_initialState hp hm]
  intro k F hF
  simp at hF

section Initial

variable {files : List ParsedFile}

theorem within_initialState (hp : (files.map Prod.fst).Nodup) (hm : (files.map Prod.snd).Nodup)
    (X : ModPtr → Prop) : Within E X (initialState E files) := by
  have hempty := initialState_empty (E := E) hp hm
  have hcallees := congrArg GlobalContext.callees hempty
  have hcallers := congrArg GlobalContext.callers hempty
  have hsig := congrArg GlobalContext.sigFuncsMap hempty
  have haddr := congrArg GlobalContext.addressTakenFuncs hempty
  have hmap := congrArg GlobalContext.globalFuncMap hempty
  have hanc := congrArg GlobalContext.ancCache hempty
  have hneg := congrArg GlobalContext.negAncCache hempty
  simp only [forgetTables] at hcallees hcallers hsig haddr hmap hanc hneg
  exact
    { callees := hcallees ▸ MapWithin.empty
      callers := hcallers ▸ MapWithin.empty
      sigFuncsMap := by simp [hsig]
      addressTakenFuncs := by simp [haddr]
      globalFuncMap := by simp [hmap]
      typeIdxFuncsMap := by simp [initialState, slot]
      funcTypeIdxsMap := by simp [initialState]
      ancCache := hanc ▸ MapWithin.empty
      negAncCache := hneg ▸ MapWithin.empty }

theorem onlyLiveFunctions_initial (hp : (files.map Prod.fst).Nodup)
    (hm : (files.map Prod.snd).Nodup) :
    OnlyLiveFunctions E (runModules E (initialState E files) (files.map Prod.snd)) := by
  unfold OnlyLiveFunctions
  rw [modules_runModules, initialState_modules hp hm]
  apply (within_initialState hp hm _).runModules (onlyDefinitions_initialState hp hm)
  intro M hM
  simpa using hM

end Initial

section Update

variable {S T : CallGraphPass} {files : List ParsedFile} {ms : List ModPtr}

theorem Loaded.erased_of_replaced (hL : Loaded E S.ctx) {F : FuncPtr}
    (hdef : (E.function F).isDeclaration = false) (h : Replaced E S.ctx files F) :
    Erased E S.ctx files F := by
  obtain ⟨m, hm, hp, hF⟩ := h
  apply hL.erased_iff.mpr
  exact ⟨m.1, ⟨m.2, hm, Or.inl hp⟩, mem_definitionsOf.mpr ⟨hF, hdef⟩⟩

theorem belongsTo_next {F : FuncPtr}
    (hF : BelongsTo E (fun M => M ∈ S.ctx.modules.map Prod.fst) F)
    (hnot : ¬ Replaced E S.ctx files F) :
    BelongsTo E (fun M => M ∈ (nextModules S.ctx.modules files).map Prod.fst) F := by
  obtain ⟨⟨M, p⟩, hM, hFM⟩ := List.mem_map.mp hF.1
  obtain rfl : M = F.mod := hFM
  refine ⟨List.mem_map.mpr ⟨(F.mod, p), mem_nextModules.mpr (Or.inl ⟨hM, ?_⟩), rfl⟩, hF.2⟩
  exact fun hp => hnot ⟨_, hM, hp, hF.2⟩

theorem mapWithin_next {m m' : PlainFuncMap}
    (hm : MapWithin (BelongsTo E fun M => M ∈ S.ctx.modules.map Prod.fst) m)
    (hkeys : ∀ F, F ∈ m' → F ∈ m ∧ ¬ Replaced E S.ctx files F)
    (hrows : ∀ F G, G ∈ m'.row F → G ∈ m.row F ∧ ¬ Replaced E S.ctx files G) :
    MapWithin (BelongsTo E fun M => M ∈ (nextModules S.ctx.modules files).map Prod.fst) m' := by
  constructor
  · intro F hF
    obtain ⟨hF, hno⟩ := hkeys F hF
    exact belongsTo_next (hm.1 F hF) hno
  · intro F G hG
    obtain ⟨hG, hno⟩ := hrows F G hG
    exact belongsTo_next (hm.2 F G hG) hno

theorem Start.within_next (h : Start E S files T ms) (hL : Loaded E S.ctx)
    (hguid : OwnGuids E S.ctx.globalFuncMap) (hS : OnlyLiveFunctions E S)
    (hC : Cleanable E S files) :
    Within E (fun M => M ∈ (nextModules S.ctx.modules files).map Prod.fst) T := by
  have herased : ∀ {F}, Replaced E S.ctx files F → Erased E S.ctx files F := by
    intro F hR
    exact hL.erased_of_replaced (hC.definitions F hR) hR
  obtain ⟨Ms, hMs, hmlta⟩ := h.mlta
  rw [invalidateStates_eq] at hmlta
  have hlisted : ∀ {F}, Replaced E S.ctx files F → F ∈ Ms.flatMap E.functions := by
    intro F hR
    obtain ⟨m, hm, hp, hF⟩ := hR
    exact List.mem_flatMap.mpr ⟨m.1, (hMs m.1).mpr ⟨m.2, hm, Or.inl hp⟩, hF⟩
  exact
    { callees := by
        apply mapWithin_next hS.callees
        · intro F hF
          obtain ⟨hF, hno⟩ := (h.calleesKeys F).mp hF
          exact ⟨hF, fun hR => hno (herased hR)⟩
        · intro F G hG
          have hG := ((h.callees F G).mp hG).1
          exact ⟨hG, fun hR => hC.callees G hR F hG⟩
      callers := by
        constructor
        · intro G hG
          rcases (h.callersKeys G).mp hG with hG | ⟨A, _, hG⟩
          · exact belongsTo_next (hS.callers.1 G hG) fun hR => hC.callersKeys G hR hG
          · exact belongsTo_next (hS.callees.2 A G hG) fun hR => hC.callees G hR A hG
        · intro G F hF
          obtain ⟨hF, hno⟩ := (h.callers F G).mp hF
          have hFX := hS.callers.2 G F hF
          exact belongsTo_next hFX fun hR => hno ⟨herased hR, hC.callers F hR G hF⟩
      sigFuncsMap := by
        intro hash F hF
        obtain ⟨hF, hno⟩ := (h.sigFuncsMap hash F).mp hF
        exact belongsTo_next (hS.sigFuncsMap hash F hF) fun hR =>
          hno (hC.sigFuncsMap F hR hash hF)
      addressTakenFuncs := by
        intro F hF
        obtain ⟨hF, hno⟩ := (h.addressTakenFuncs F).mp hF
        have hFX := hS.addressTakenFuncs F hF
        exact belongsTo_next hFX fun hR => hno (hL.erased_iff.mp (herased hR))
      globalFuncMap := by
        intro k F hF
        obtain ⟨hF, hno⟩ := (h.globalFuncMap k F).mp hF
        have hFX := hS.globalFuncMap k F hF
        exact belongsTo_next hFX fun hR =>
          hno ⟨F, hL.erased_iff.mp (herased hR), hguid k F hF⟩
      typeIdxFuncsMap := by
        intro hash i F hF
        rw [hmlta, mem_slot_invalidateFunctions] at hF
        have hFX := hS.typeIdxFuncsMap hash i F hF.1
        exact belongsTo_next hFX fun hR =>
          hF.2 ⟨hlisted hR, hC.typeIdxFuncsMap F hR hash i hF.1⟩
      funcTypeIdxsMap := by
        intro F hF
        rw [hmlta, mem_funcTypeIdxsMap_invalidateFunctions] at hF
        have hFX := hS.funcTypeIdxsMap F hF.1
        exact belongsTo_next hFX fun hR => hF.2 (hlisted hR)
      ancCache := by
        apply mapWithin_next hS.ancCache
        · intro F hF
          obtain ⟨hF, hno⟩ := (h.ancCacheKeys F).mp hF
          exact ⟨hF, fun hR => hno (herased hR)⟩
        · intro d a ha
          obtain ⟨ha, hno, _⟩ := (h.ancCache a d).mp ha
          exact ⟨ha, fun hR => hno (herased hR)⟩
      negAncCache := by
        apply mapWithin_next hS.negAncCache
        · intro F hF
          obtain ⟨hF, hno⟩ := (h.negAncCacheKeys F).mp hF
          exact ⟨hF, fun hR => hno (herased hR)⟩
        · intro d a ha
          obtain ⟨ha, hno, _⟩ := (h.negAncCache a d).mp ha
          exact ⟨ha, fun hR => hno (herased hR)⟩ }

theorem Start.onlyLiveFunctions (h : Start E S files T ms) (hL : Loaded E S.ctx)
    (hg : OnlyDefinitions E S.ctx.globalFuncMap) (hguid : OwnGuids E S.ctx.globalFuncMap)
    (hS : OnlyLiveFunctions E S) (hC : Cleanable E S files) :
    OnlyLiveFunctions E (runModules E T ms) := by
  unfold OnlyLiveFunctions
  rw [modules_runModules, h.modules]
  exact (h.within_next hL hguid hS hC).runModules (h.onlyDefinitions hg) fun M hM => h.mem_next hM

end Update

/-! ## Runs -/

/-- The states of a run that is asked for ancestors in between, each time about two functions
of loaded modules. -/
inductive Queried (E : Env) (C : CallGraphPass → List ParsedFile → Prop) : CallGraphPass → Prop
  | init (files : List ParsedFile) (paths_nodup : (files.map Prod.fst).Nodup)
      (mods_nodup : (files.map Prod.snd).Nodup) : Queried E C (initializeModules E (parsed files))
  | update {S S' : CallGraphPass} (files : List ParsedFile) (queried : Queried E C S)
      (ok : FilesOk S.ctx files) (hC : C S files)
      (step : updateModules E S (parsed files) = some S') : Queried E C S'
  | query {S : CallGraphPass} (q : Query) (queried : Queried E C S)
      (anc : BelongsTo E (fun M => M ∈ S.ctx.modules.map Prod.fst) q.1)
      (des : BelongsTo E (fun M => M ∈ S.ctx.modules.map Prod.fst) q.2) :
      Queried E C (afterQuery S q)

/-- A run without queries. -/
theorem Reached.queried {I : List ParsedFile → Prop} {C : CallGraphPass → List ParsedFile → Prop}
    {seen : List ModPtr} {S : CallGraphPass} (h : Reached E I C seen S) : Queried E C S := by
  induction h with
  | init files hp hm _ => exact Queried.init files hp hm
  | update files _ hp hm hfresh hC hstep ih => exact ih.update files ⟨hp, hm, hfresh⟩ hC hstep

/-- What every state of a run needs so that the tables can be followed through an update. -/
structure LiveState (E : Env) (S : CallGraphPass) : Prop where
  loaded : Loaded E S.ctx
  definitions : OnlyDefinitions E S.ctx.globalFuncMap
  ownGuids : OwnGuids E S.ctx.globalFuncMap
  live : OnlyLiveFunctions E S

theorem liveState_initial {files : List ParsedFile} (hp : (files.map Prod.fst).Nodup)
    (hm : (files.map Prod.snd).Nodup) : LiveState E (initializeModules E (parsed files)) := by
  refine ⟨loaded_initializeModules hp hm, ?_, ?_, ?_⟩
  all_goals rw [initializeModules_eq hp hm]
  · rw [globalFuncMap_runModules]
    exact onlyDefinitions_initialized (onlyDefinitions_initialState hp hm) _
  · rw [globalFuncMap_runModules]
    exact ownGuids_initialized (ownGuids_initialState hp hm) _
  · exact onlyLiveFunctions_initial hp hm

theorem LiveState.update {S S' : CallGraphPass} {files : List ParsedFile} (h : LiveState E S)
    (hf : FilesOk S.ctx files) (hC : Cleanable E S files)
    (hstep : updateModules E S (parsed files) = some S') : LiveState E S' := by
  obtain ⟨hrun, hstart⟩ := updateModules_start h.loaded.toTables h.loaded.toCallersLoaded hf
  rw [hrun] at hstep
  obtain rfl := Option.some.inj hstep
  have hguid : OwnGuids E (passStart E S files).ctx.globalFuncMap :=
    fun k F hF => h.ownGuids k F ((hstart.globalFuncMap k F).mp hF).1
  refine ⟨hstart.loaded h.loaded hf, ?_, ?_, ?_⟩
  · rw [globalFuncMap_runModules]
    exact onlyDefinitions_initialized (hstart.onlyDefinitions h.definitions) _
  · rw [globalFuncMap_runModules]
    exact ownGuids_initialized hguid _
  · exact hstart.onlyLiveFunctions h.loaded h.definitions h.ownGuids h.live hC

theorem LiveState.afterQuery {S : CallGraphPass} (h : LiveState E S) {q : Query}
    (hanc : BelongsTo E (fun M => M ∈ S.ctx.modules.map Prod.fst) q.1)
    (hdes : BelongsTo E (fun M => M ∈ S.ctx.modules.map Prod.fst) q.2) :
    LiveState E (afterQuery S q) := by
  have hframe := forgetCaches_isAncestor S.ctx q
  have hmods := congrArg GlobalContext.modules hframe
  have hmap := congrArg GlobalContext.globalFuncMap hframe
  dsimp only at hmods hmap
  refine ⟨h.loaded.afterQuery q, onlyDefinitions_afterQuery h.definitions q, ?_, ?_⟩
  · unfold TypeDive.afterQuery
    rw [hmap]
    exact h.ownGuids
  · unfold OnlyLiveFunctions
    have hlive := Within.afterQuery h.live hanc hdes
    rwa [← hmods] at hlive

namespace Queried

variable {C : CallGraphPass → List ParsedFile → Prop} {S : CallGraphPass}

theorem loaded (h : Queried E C S) : Loaded E S.ctx := by
  induction h with
  | init files hp hm => exact loaded_initializeModules hp hm
  | update files _ hf _ hstep ih =>
    obtain ⟨S', hrun, hL, _⟩ := updateModules_loaded ih hf
    obtain rfl := Option.some.inj (hrun.symm.trans hstep)
    exact hL
  | query q _ _ _ ih => exact ih.afterQuery q

theorem exists_update (h : Queried E C S) (files : List ParsedFile) (hf : FilesOk S.ctx files)
    (hC : C S files) : ∃ S', updateModules E S (parsed files) = some S' ∧ Queried E C S' := by
  obtain ⟨S', hrun, _⟩ := updateModules_loaded h.loaded hf
  exact ⟨S', hrun, h.update files hf hC hrun⟩

theorem liveState (h : Queried E (Cleanable E) S) : LiveState E S := by
  induction h with
  | init files hp hm => exact liveState_initial hp hm
  | update files _ hf hC hstep ih => exact ih.update hf hC hstep
  | query q _ hanc hdes ih => exact ih.afterQuery hanc hdes

end Queried

/-- In a run whose updates only replace modules that can be cleaned up, no table ever
refers to a deleted function, whatever is asked between the updates. -/
theorem no_deleted_functions {S : CallGraphPass} (hS : Queried E (Cleanable E) S) :
    OnlyLiveFunctions E S :=
  hS.liveState.live

def indirectCaller : Module where
  values := [{ kind := .function { name := "run", functionType := 1, args := [1], insts := [2] } },
    { kind := .argument }, { kind := .instruction (.call 0), operands := [1] }]
  types := [{ kind := .function, printed := "i32 (i8)" }, { kind := .function, printed := "void ()" }]
  functions := [0]
  names_nodup := by decide
  functions_listed := by decide

/-- `a.bc` calls a pointer; the address of the function in `b.bc` is taken, in its new
version it is not. -/
def indirectTarget : Env :=
  Env.ofModules [
    indirectCaller,
    Module.ofFunction { name := "f", hasAddressTaken := true }
      [{ kind := .function, printed := "i32 (i8)" }],
    Module.ofFunctions [{ name := "f" }] (by decide) [{ kind := .function, printed := "i32 (i8)" }],
    indirectCaller]

theorem no_deleted_functions_caller : ∃ S, updateModules indirectTarget
      (afterQuery (initializeModules indirectTarget (parsed [("a.bc", 0), ("b.bc", 1)]))
        (⟨0, 0⟩, ⟨1, 0⟩)) (parsed [("a.bc", 3)]) = some S ∧ OnlyLiveFunctions indirectTarget S := by
  have hfirst : Queried indirectTarget (Cleanable indirectTarget)
      (initializeModules indirectTarget (parsed [("a.bc", 0), ("b.bc", 1)])) :=
    Queried.init [("a.bc", 0), ("b.bc", 1)] (by decide) (by decide)
  have hasked := hfirst.query (⟨0, 0⟩, ⟨1, 0⟩) (by unfold BelongsTo; decide)
    (by unfold BelongsTo; decide)
  obtain ⟨S, hstep, hS⟩ := hasked.exists_update [("a.bc", 3)]
    ⟨by decide, by decide, by decide⟩ (cleanable_of_onlyCalls (by decide))
  exact ⟨S, hstep, no_deleted_functions hS⟩

/-- Nobody looks for the callers of a function that its new version offers no more. -/
theorem no_deleted_functions_target : ¬ ∀ (seen : List ModPtr) (S : CallGraphPass),
    Reached indirectTarget (fun _ => True) (fun _ _ => True) seen S →
    OnlyLiveFunctions indirectTarget S := by
  intro hall
  have hfirst : Reached indirectTarget (fun _ => True) (fun _ _ => True) [0, 1]
      (initializeModules indirectTarget (parsed [("a.bc", 0), ("b.bc", 1)])) :=
    Reached.init [("a.bc", 0), ("b.bc", 1)] (by decide) (by decide) trivial
  obtain ⟨S, hstep, hS⟩ := hfirst.exists_update [("b.bc", 2)] (by decide) (by decide)
    (by decide) trivial
  have hkept : (updateModules indirectTarget
      (initializeModules indirectTarget (parsed [("a.bc", 0), ("b.bc", 1)]))
      (parsed [("b.bc", 2)])).map (fun S => (S.ctx.modules.map Prod.fst,
        (S.ctx.callees.row ⟨0, 0⟩).contains ⟨1, 0⟩)) = some ([0, 2], true) := by decide
  rw [hstep, Option.map_some, Option.some.injEq, Prod.mk.injEq] at hkept
  have hlive := (hall _ S hS).callees.2 ⟨0, 0⟩ ⟨1, 0⟩
    (ExtTreeSet.mem_iff_contains.mpr hkept.2)
  simp only [BelongsTo, hkept.1] at hlive
  simp at hlive

end TypeDive

end Cisa

import Cisa.CallGraph.SignatureTable
import Cisa.CallGraph.TypeFacts

/-!
# The resolution of declarations

Before the first module is passed, no set is to hold a declaration that has a
definition. The replacement happens when the counter of modules, which is carried over
from run to run, meets the number of loaded modules.
-/

namespace Cisa

open Std

namespace TypeDive

variable {E : Env}

open CallGraphPass Mlta

/-- When the first module of the run is passed, every declaration that has a definition
has been replaced by it, in the buckets of signatures and in the fields of types. -/
structure RunResolved (E : Env) (T : CallGraphPass) (ms : List ModPtr) : Prop where
  sigs : ∀ h, ∀ D ∈ (initialized E T ms).ctx.sigFuncsMap.row h,
    (E.function D).isDeclaration = true →
      (initialized E T ms).ctx.globalFuncMap[(E.function D).guid]? = none
  types : ∀ h i, ∀ D ∈ slot (initialized E T ms).mlta.typeIdxFuncsMap h i,
    (E.function D).isDeclaration = true →
      (initialized E T ms).ctx.globalFuncMap[(E.function D).guid]? = none
  sigs_replaced : ∀ pre M post, ms = pre ++ M :: post →
    ∀ h, ∀ D ∈ (collectModule E (initialized E T pre) M).ctx.sigFuncsMap.row h,
      (E.function D).isDeclaration = true → ∀ A,
        (initialized E T ms).ctx.globalFuncMap[(E.function D).guid]? = some A →
          A ∈ (initialized E T ms).ctx.sigFuncsMap.row h
  types_replaced : ∀ pre M post, ms = pre ++ M :: post →
    ∀ h i, ∀ D ∈ slot (collectModule E (initialized E T pre) M).mlta.typeIdxFuncsMap h i,
      (E.function D).isDeclaration = true → ∀ A,
        (initialized E T ms).ctx.globalFuncMap[(E.function D).guid]? = some A →
          A ∈ slot (initialized E T ms).mlta.typeIdxFuncsMap h i

theorem slot_resolveDeclarations (S : CallGraphPass) (h : SizeT) (i : ℤ) :
    slot (resolveDeclarations E S).mlta.typeIdxFuncsMap h i =
      resolveSet E S.ctx.globalFuncMap (slot S.mlta.typeIdxFuncsMap h i) := by
  have hempty := resolveSet_empty (E := E) S.ctx.globalFuncMap
  unfold slot resolveDeclarations
  dsimp only
  rw [ExtTreeMap.getD_eq_getD_getElem?, ExtTreeMap.getElem?_map,
    ExtTreeMap.getD_eq_getD_getElem?]
  cases S.mlta.typeIdxFuncsMap[h]? with
  | none => simp [hempty]
  | some fields =>
    simp only [Option.map_some, Option.getD_some]
    exact ExtTreeMap.row_map hempty

section Counter

variable {T : CallGraphPass} {ms : List ModPtr}

theorem collected_append (T : CallGraphPass) (pre post : List ModPtr) :
    collected E T (pre ++ post) = collected E (collected E T pre) post := by
  simp [collected]

theorem mem_slot_collected (T : CallGraphPass) (ms : List ModPtr) {h : SizeT} {i : ℤ}
    {F : FuncPtr} (hF : F ∈ slot T.mlta.typeIdxFuncsMap h i) :
    F ∈ slot (collected E T ms).mlta.typeIdxFuncsMap h i := by
  unfold collected
  exact Fold.foldl_invariant (I := fun S : CallGraphPass => F ∈ slot S.mlta.typeIdxFuncsMap h i)
    hF fun S M _ hS => (grows_collectModule S M).mem_slot hS

/-- Up to the last module, nothing has been resolved. -/
theorem collectModule_initialized (hc : T.mIdx + ms.length = T.ctx.modules.length)
    {pre post : List ModPtr} {M : ModPtr} (hms : ms = pre ++ M :: post) :
    collectModule E (initialized E T pre) M = collected E T (pre ++ [M]) := by
  have hlt : T.mIdx + pre.length < T.ctx.modules.length := by
    rw [hms, List.length_append, List.length_cons] at hc
    omega
  rw [initialized_eq_collected (Or.inl hlt), collected_append]
  rfl

theorem runResolved_of_counter (hg : OnlyDefinitions E T.ctx.globalFuncMap) (hne : ms ≠ [])
    (hc : T.mIdx + ms.length = T.ctx.modules.length) : RunResolved E T ms := by
  have heq := initialized_of_counter (E := E) hne hc
  have hmap : (initialized E T ms).ctx.globalFuncMap =
      (collected E T ms).ctx.globalFuncMap := by
    rw [heq]
    rfl
  have hgC : OnlyDefinitions E (collected E T ms).ctx.globalFuncMap :=
    hmap ▸ onlyDefinitions_initialized hg ms
  have hsigs : ∀ {h F}, F ∈ (initialized E T ms).ctx.sigFuncsMap.row h ↔
      ∃ D ∈ (collected E T ms).ctx.sigFuncsMap.row h,
        definitionOf E (collected E T ms).ctx.globalFuncMap D = some F := by
    intro h F
    rw [heq]
    exact mem_row_resolveDeclarations hgC
  have htypes : ∀ {h i F}, F ∈ slot (initialized E T ms).mlta.typeIdxFuncsMap h i ↔
      ∃ D ∈ slot (collected E T ms).mlta.typeIdxFuncsMap h i,
        definitionOf E (collected E T ms).ctx.globalFuncMap D = some F := by
    intro h i F
    rw [heq]
    show F ∈ slot (resolveDeclarations E (collected E T ms)).mlta.typeIdxFuncsMap h i ↔ _
    rw [slot_resolveDeclarations, mem_resolveSet hgC]
  have hdef : ∀ {D A}, (E.function D).isDeclaration = true →
      (initialized E T ms).ctx.globalFuncMap[(E.function D).guid]? = some A →
        definitionOf E (collected E T ms).ctx.globalFuncMap D = some A := by
    intro D A hD hA
    rw [definitionOf, if_pos hD, ← hmap, hA]
  refine ⟨?_, ?_, ?_, ?_⟩
  · intro h D hD hdecl
    obtain ⟨_, _, hDD⟩ := hsigs.mp hD
    simp [isDefinition_of_definitionOf hgC hDD] at hdecl
  · intro h i D hD hdecl
    obtain ⟨_, _, hDD⟩ := htypes.mp hD
    simp [isDefinition_of_definitionOf hgC hDD] at hdecl
  · intro pre M post hms h D hD hdecl A hA
    rw [collectModule_initialized hc hms, mem_row_collected] at hD
    refine hsigs.mpr ⟨D, ?_, hdef hdecl hA⟩
    rw [mem_row_collected]
    rcases hD with hD | hD
    · exact Or.inl hD
    · refine Or.inr (hD.mono ?_)
      intro N hN
      rw [hms]
      simp only [List.mem_append, List.mem_cons] at hN ⊢
      tauto
  · intro pre M post hms h i D hD hdecl A hA
    rw [collectModule_initialized hc hms] at hD
    refine htypes.mpr ⟨D, ?_, hdef hdecl hA⟩
    have hsplit : ms = (pre ++ [M]) ++ post := by simp [hms]
    rw [hsplit, collected_append]
    exact mem_slot_collected _ post hD

/-- The declarations of a bucket when the passes start, given what it held before: if the
counter meets the number of modules within the list, those collected after that. -/
def Unresolved (E : Env) (mIdx total : ℕ) (ms : List ModPtr) (h : SizeT) (old : Prop)
    (D : FuncPtr) : Prop :=
  if mIdx < total ∧ total ≤ mIdx + ms.length then AddressTakenIn E (ms.drop (total - mIdx)) h D
  else old ∨ AddressTakenIn E ms h D

theorem unresolved_iff (hg : OnlyDefinitions E T.ctx.globalFuncMap)
    (hlen : ms.length ≤ T.ctx.modules.length) {h : SizeT} {D : FuncPtr}
    (hdecl : (E.function D).isDeclaration = true) :
    D ∈ (initialized E T ms).ctx.sigFuncsMap.row h ↔
      Unresolved E T.mIdx T.ctx.modules.length ms h (D ∈ T.ctx.sigFuncsMap.row h) D := by
  unfold Unresolved
  split_ifs with hmeet
  · obtain ⟨hlt, hle⟩ := hmeet
    set k := T.ctx.modules.length - T.mIdx with hk
    have hpos : ms.take k ≠ [] := by
      intro hnil
      have hzero := congrArg List.length hnil
      rw [List.length_take, List.length_nil] at hzero
      omega
    have hcount : T.mIdx + (ms.take k).length = T.ctx.modules.length := by
      rw [List.length_take]
      omega
    have hfired := initialized_of_counter (E := E) hpos hcount
    have hmods : (initialized E T (ms.take k)).ctx.modules = T.ctx.modules :=
      modules_initialized T _
    have hidx : (initialized E T (ms.take k)).mIdx = 0 := by rw [hfired]
    have hrest : initialized E (initialized E T (ms.take k)) (ms.drop k) =
        collected E (initialized E T (ms.take k)) (ms.drop k) := by
      apply initialized_eq_collected
      rw [hmods, hidx, List.length_drop]
      omega
    have hnone : D ∉ (initialized E T (ms.take k)).ctx.sigFuncsMap.row h := by
      have hgC : OnlyDefinitions E (collected E T (ms.take k)).ctx.globalFuncMap := by
        have hgI := onlyDefinitions_initialized hg (ms.take k)
        rwa [hfired] at hgI
      rw [hfired]
      intro hD
      obtain ⟨_, _, hDD⟩ := (mem_row_resolveDeclarations hgC).mp hD
      simp [isDefinition_of_definitionOf hgC hDD] at hdecl
    rw [← List.take_append_drop k ms, initialized_append, hrest, mem_row_collected,
      List.take_append_drop]
    simp [hnone]
  · rw [initialized_eq_collected (by omega), mem_row_collected]

end Counter

/-- Collecting the module can record the function in a field. -/
def Records (E : Env) (M : ModPtr) (D : FuncPtr) : Prop :=
  ∃ (S : CallGraphPass) (h : SizeT) (i : ℤ),
    D ∈ slot (collectModule E S M).mlta.typeIdxFuncsMap h i ∧ D ∉ slot S.mlta.typeIdxFuncsMap h i

section Nothing

variable {T : CallGraphPass} {ms : List ModPtr}

theorem of_mem_slot_initialized (hg : OnlyDefinitions E T.ctx.globalFuncMap) {h : SizeT} {i : ℤ}
    {D : FuncPtr} (hdecl : (E.function D).isDeclaration = true)
    (hD : D ∈ slot (initialized E T ms).mlta.typeIdxFuncsMap h i) :
    D ∈ slot T.mlta.typeIdxFuncsMap h i ∨ ∃ M ∈ ms, Records E M D := by
  induction ms generalizing T with
  | nil => exact Or.inl hD
  | cons M ms ih =>
    have hgM := onlyDefinitions_doInitialization hg M
    rcases ih (T := doInitialization E T M) hgM hD with hD | ⟨N, hN, hrec⟩
    · have hcollected : OnlyDefinitions E (collectModule E T M).ctx.globalFuncMap := by
        rwa [← globalFuncMap_testCounter]
      have hcol : D ∈ slot (collectModule E T M).mlta.typeIdxFuncsMap h i := by
        unfold doInitialization testCounter at hD
        split_ifs at hD
        · rw [show slot ({ resolveDeclarations E (collectModule E T M) with mIdx := 0 } :
            CallGraphPass).mlta.typeIdxFuncsMap h i = _ from slot_resolveDeclarations _ h i,
            mem_resolveSet hcollected] at hD
          obtain ⟨_, _, hDD⟩ := hD
          simp [isDefinition_of_definitionOf hcollected hDD] at hdecl
        · exact hD
      by_cases hold : D ∈ slot T.mlta.typeIdxFuncsMap h i
      · exact Or.inl hold
      · exact Or.inr ⟨M, List.mem_cons_self, T, h, i, hcol, hold⟩
    · exact Or.inr ⟨N, List.mem_cons_of_mem _ hN, hrec⟩

theorem of_mem_row_initialized (hg : OnlyDefinitions E T.ctx.globalFuncMap) {h : SizeT}
    {D : FuncPtr} (hdecl : (E.function D).isDeclaration = true)
    (hD : D ∈ (initialized E T ms).ctx.sigFuncsMap.row h) :
    D ∈ T.ctx.sigFuncsMap.row h ∨ AddressTakenIn E ms h D := by
  obtain ⟨D', hD', hcase⟩ := exists_of_mem_row_initialized hg hD
  rcases hcase with rfl | ⟨_, hg' | hg'⟩
  · exact hD'
  · simp [hg _ _ hg'] at hdecl
  · simp [hg'.isDefinition] at hdecl

/-- No declaration that the run can meet in a set has a definition. -/
structure NothingToResolve (E : Env) (T : CallGraphPass) (ms : List ModPtr) : Prop where
  sigs : ∀ h D, (E.function D).isDeclaration = true →
    D ∈ T.ctx.sigFuncsMap.row h ∨ AddressTakenIn E ms h D →
      T.ctx.globalFuncMap[(E.function D).guid]? = none ∧
        ∀ F, ¬ DefinedIn E ms (E.function D).guid F
  types : ∀ D, (E.function D).isDeclaration = true →
    (∃ h i, D ∈ slot T.mlta.typeIdxFuncsMap h i) ∨ (∃ M ∈ ms, Records E M D) →
      T.ctx.globalFuncMap[(E.function D).guid]? = none ∧
        ∀ F, ¬ DefinedIn E ms (E.function D).guid F

theorem runResolved_of_nothing (hg : OnlyDefinitions E T.ctx.globalFuncMap)
    (hn : NothingToResolve E T ms) : RunResolved E T ms := by
  have hsplit : ∀ {pre M post}, ms = pre ++ M :: post →
      ∀ N ∈ pre ++ [M], N ∈ ms := by
    intro pre M post hms N hN
    rw [hms]
    simp only [List.mem_append, List.mem_cons] at hN ⊢
    tauto
  refine ⟨?_, ?_, ?_, ?_⟩
  · intro h D hD hdecl
    exact getElem?_initialized_eq_none.mpr
      (hn.sigs h D hdecl (of_mem_row_initialized hg hdecl hD))
  · intro h i D hD hdecl
    refine getElem?_initialized_eq_none.mpr (hn.types D hdecl ?_)
    rcases of_mem_slot_initialized hg hdecl hD with hD | hD
    · exact Or.inl ⟨h, i, hD⟩
    · exact Or.inr hD
  · intro pre M post hms h D hD hdecl A hA
    have horigin : D ∈ T.ctx.sigFuncsMap.row h ∨ AddressTakenIn E ms h D := by
      rcases mem_row_collectModule.mp hD with hD | hD
      · rcases of_mem_row_initialized hg hdecl hD with hD | hD
        · exact Or.inl hD
        · exact Or.inr (hD.mono fun N hN => hsplit hms N (List.mem_append_left _ hN))
      · exact Or.inr (hD.mono fun N hN => hsplit hms N (List.mem_append_right _ hN))
    rw [getElem?_initialized_eq_none.mpr (hn.sigs h D hdecl horigin)] at hA
    simp at hA
  · intro pre M post hms h i D hD hdecl A hA
    have horigin : (∃ h i, D ∈ slot T.mlta.typeIdxFuncsMap h i) ∨ ∃ M ∈ ms, Records E M D := by
      by_cases hpre : D ∈ slot (initialized E T pre).mlta.typeIdxFuncsMap h i
      · rcases of_mem_slot_initialized hg hdecl hpre with hD | ⟨N, hN, hrec⟩
        · exact Or.inl ⟨h, i, hD⟩
        · exact Or.inr ⟨N, hsplit hms N (List.mem_append_left _ hN), hrec⟩
      · exact Or.inr ⟨M, hsplit hms M (by simp), initialized E T pre, h, i, hD, hpre⟩
    rw [getElem?_initialized_eq_none.mpr (hn.types D hdecl horigin)] at hA
    simp at hA

end Nothing

/-- The counter meets the number of loaded modules at the last module of the list. -/
def CounterMeets (T : CallGraphPass) (ms : List ModPtr) : Prop :=
  T.mIdx + ms.length = T.ctx.modules.length

theorem counterMeets_initial {files : List ParsedFile} (hp : (files.map Prod.fst).Nodup)
    (hm : (files.map Prod.snd).Nodup) :
    CounterMeets (initialState E files) (files.map Prod.snd) := by
  rw [CounterMeets, initialState_modules hp hm]
  simp [initialState]

/-- The first run resolves all declarations. After any history, so does every later run
whose counter meets the number of modules at its end, and every one that has no
declaration to resolve. -/
theorem runs_resolve (E : Env) :
    (∀ files : List ParsedFile, (files.map Prod.fst).Nodup → (files.map Prod.snd).Nodup →
      files ≠ [] → RunResolved E (initialState E files) (files.map Prod.snd)) ∧
    ∀ (seen : List ModPtr) (S : CallGraphPass) (files : List ParsedFile),
      Reached E (fun _ => True) (fun _ _ => True) seen S → (files.map Prod.fst).Nodup →
      (files.map Prod.snd).Nodup → (∀ f ∈ files, f.2 ∉ S.ctx.modules.map Prod.fst) →
      passModules E S files ≠ [] →
      (CounterMeets (passStart E S files) (passModules E S files) ∨
        NothingToResolve E (passStart E S files) (passModules E S files)) →
      RunResolved E (passStart E S files) (passModules E S files) := by
  constructor
  · intro files hp hm hne
    apply runResolved_of_counter (onlyDefinitions_initialState hp hm)
    · simpa using hne
    · exact counterMeets_initial hp hm
  · intro seen S files hS hp hm hfresh hne hcond
    obtain ⟨_, hstart, _⟩ := hS.start hp hm hfresh
    have hg := hstart.onlyDefinitions hS.onlyDefinitions
    rcases hcond with hcond | hcond
    · exact runResolved_of_counter hg hne hcond
    · exact runResolved_of_nothing hg hcond

/-- `a.bc` takes the address of a function that `b.bc` defines; `a.bc` is updated. -/
def declaredElsewhere : Env :=
  Env.ofModules [
    Module.ofFunctions [{ name := "h", guid := 1, isDeclaration := true, hasAddressTaken := true }]
      (by decide),
    Module.ofFunctions [{ name := "h", guid := 1 }] (by decide),
    Module.ofFunctions [{ name := "h", guid := 1, isDeclaration := true, hasAddressTaken := true }]
      (by decide)]

theorem runs_resolve_new_file : RunResolved declaredElsewhere
    (passStart declaredElsewhere (initializeModules declaredElsewhere (parsed [("a.bc", 0)]))
      [("b.bc", 1)])
    (passModules declaredElsewhere (initializeModules declaredElsewhere (parsed [("a.bc", 0)]))
      [("b.bc", 1)]) := by
  have hfirst : Reached declaredElsewhere (fun _ => True) (fun _ _ => True) [0]
      (initializeModules declaredElsewhere (parsed [("a.bc", 0)])) :=
    Reached.init [("a.bc", 0)] (by decide) (by decide) trivial
  exact (runs_resolve declaredElsewhere).2 [0] _ [("b.bc", 1)] hfirst (by decide) (by decide)
    (hfirst.fresh_of_seen (by decide)) (by decide) (Or.inl (by unfold CounterMeets; decide))

/-- After both files have been loaded, the counter passes the number of modules. -/
theorem runs_resolve_missed : ¬ ∀ (seen : List ModPtr) (S : CallGraphPass)
    (files : List ParsedFile),
    Reached declaredElsewhere (fun _ => True) (fun _ _ => True) seen S →
    (files.map Prod.fst).Nodup → (files.map Prod.snd).Nodup →
    (∀ f ∈ files, f.2 ∉ S.ctx.modules.map Prod.fst) →
    passModules declaredElsewhere S files ≠ [] →
    RunResolved declaredElsewhere (passStart declaredElsewhere S files)
      (passModules declaredElsewhere S files) := by
  intro hall
  have hreached : Reached declaredElsewhere (fun _ => True) (fun _ _ => True) [0, 1]
      (initializeModules declaredElsewhere (parsed [("a.bc", 0), ("b.bc", 1)])) :=
    Reached.init [("a.bc", 0), ("b.bc", 1)] (by decide) (by decide) trivial
  have hrun := hall [0, 1] _ [("a.bc", 2)] hreached (by decide) (by decide)
    (hreached.fresh_of_seen (by decide)) (by decide)
  have hnone := hrun.sigs (declaredElsewhere.funcHash ⟨2, 0⟩ false) ⟨2, 0⟩
    (ExtTreeSet.mem_iff_contains.mpr (by decide)) (by decide)
  revert hnone
  decide

end TypeDive

end Cisa

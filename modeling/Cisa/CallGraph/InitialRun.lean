import Cisa.CallGraph.Runs
import Cisa.CallGraph.Resolution
import Cisa.CallGraph.Searches

/-!
# The run of `Initialize`

The first run starts from empty tables, so its counter meets the number of modules at the
last one. The searches of its passes, and any that follow, read the tables that
the initialisation leaves and write the cache only.
-/

namespace Cisa

open Std

namespace TypeDive

variable {E : Env}

open CallGraphPass Mlta

def loadedModules (files : List BCFile) : List ModPtr := files.filterMap Prod.snd

def startState (E : Env) (files : List BCFile) : CallGraphPass :=
  { ctx := files.foldl loadFile {}
    mlta := { elementsStructNameMap := E.loadElementsStructNameMap ∅ (loadedModules files) } }

def searchState (E : Env) (files : List BCFile) : CallGraphPass :=
  initialized E (startState E files) (loadedModules files)

theorem modules_loadFiles (files : List BCFile) (ctx : GlobalContext) :
    ((files.foldl loadFile ctx).modules).map Prod.fst =
      ctx.modules.map Prod.fst ++ loadedModules files := by
  induction files generalizing ctx with
  | nil => simp [loadedModules]
  | cons file files ih =>
    rw [List.foldl_cons, ih]
    cases hM : file.2 with
    | none => simp [loadFile, hM, loadedModules]
    | some M => simp [loadFile, hM, loadedModules, addModule]

theorem initializeModules_eq_start (files : List BCFile) :
    initializeModules E files = runModules E (startState E files) (loadedModules files) := by
  have hmodules : (files.foldl loadFile {}).modules.map Prod.fst = loadedModules files :=
    modules_loadFiles files {}
  unfold initializeModules startState
  simp only [hmodules]

theorem forgetTables_loadFiles (files : List BCFile) (ctx : GlobalContext) :
    forgetTables (files.foldl loadFile ctx) = forgetTables ctx := by
  apply Fold.foldl_frame
  intro ctx file
  cases hM : file.2 <;> simp [loadFile, hM, addModule, forgetTables]

theorem forgetTables_startState (files : List BCFile) :
    forgetTables (startState E files).ctx = {} :=
  forgetTables_loadFiles files {}

theorem globalFuncMap_startState (files : List BCFile) :
    (startState E files).ctx.globalFuncMap = ∅ :=
  congrArg GlobalContext.globalFuncMap (forgetTables_startState (E := E) files)

theorem sigFuncsMap_startState (files : List BCFile) :
    (startState E files).ctx.sigFuncsMap = ∅ :=
  congrArg GlobalContext.sigFuncsMap (forgetTables_startState (E := E) files)

theorem callees_startState (files : List BCFile) : (startState E files).ctx.callees = ∅ :=
  congrArg GlobalContext.callees (forgetTables_startState (E := E) files)

theorem onlyDefinitions_startState (files : List BCFile) :
    OnlyDefinitions E (startState E files).ctx.globalFuncMap := by
  intro k F hF
  simp [globalFuncMap_startState] at hF

theorem searchState_eq (files : List BCFile) (hne : loadedModules files ≠ []) :
    searchState E files = { resolveDeclarations E
      (collected E (startState E files) (loadedModules files)) with mIdx := 0 } := by
  apply initialized_of_counter hne
  have hmodules := congrArg List.length (modules_loadFiles files {})
  simp only [List.length_map, List.length_append] at hmodules
  simpa [startState] using hmodules.symm

theorem searchState_of_nil {files : List BCFile} (h : loadedModules files = []) :
    searchState E files = startState E files := by
  unfold searchState
  rw [h]
  rfl

theorem onlyDefinitions_collected_startState {files : List BCFile} (hne : loadedModules files ≠ []) :
    OnlyDefinitions E
      (collected E (startState E files) (loadedModules files)).ctx.globalFuncMap := by
  have hinit := onlyDefinitions_initialized (E := E) (onlyDefinitions_startState files)
    (loadedModules files)
  rw [show initialized E (startState E files) (loadedModules files) = searchState E files from rfl,
    searchState_eq files hne] at hinit
  exact hinit

/-- A signature's functions are the collected ones, with the declarations replaced. -/
theorem mem_row_searchState {files : List BCFile} (hne : loadedModules files ≠ []) {hash : SizeT}
    {F : FuncPtr} : F ∈ (searchState E files).ctx.sigFuncsMap.row hash ↔
      ∃ D ∈ (collected E (startState E files) (loadedModules files)).ctx.sigFuncsMap.row hash,
        definitionOf E (searchState E files).ctx.globalFuncMap D = some F := by
  rw [searchState_eq files hne]
  exact mem_row_resolveDeclarations (onlyDefinitions_collected_startState hne)

theorem mem_slot_searchState {files : List BCFile} (hne : loadedModules files ≠ []) {hash : SizeT}
    {i : ℤ} {F : FuncPtr} : F ∈ slot (searchState E files).mlta.typeIdxFuncsMap hash i ↔
      ∃ D ∈ slot (collected E (startState E files) (loadedModules files)).mlta.typeIdxFuncsMap
          hash i,
        definitionOf E (searchState E files).ctx.globalFuncMap D = some F := by
  rw [searchState_eq files hne]
  show F ∈ slot (resolveDeclarations E _).mlta.typeIdxFuncsMap hash i ↔ _
  rw [slot_resolveDeclarations, mem_resolveSet (onlyDefinitions_collected_startState hne)]
  exact Iff.rfl

/-- A search for the callees of `CI`, for the cache that it leaves. -/
def ask (E : Env) (sigFuncsMap : SortedMap SizeT FuncSet) (m : Mlta) (CI : ValPtr) : Mlta :=
  (findCalleesWithMLTA E m sigFuncsMap CI).2

def asked (E : Env) (S : CallGraphPass) (CIs : List ValPtr) : Mlta :=
  CIs.foldl (ask E S.ctx.sigFuncsMap) S.mlta

/-- The instructions for which the passes search. -/
def isSearched (E : Env) (CI : ValPtr) : Bool := isCall E CI && isIndirectCall E CI

/-- The indirect calls of the modules, in the order of the passes. -/
def indirectCalls (E : Env) (ms : List ModPtr) : List ValPtr :=
  ((ms.flatMap (definitionsOf E)).flatMap E.insts).filter (isSearched E)

theorem forgetMatched_asked (S : CallGraphPass) (CIs : List ValPtr) :
    (asked E S CIs).forgetMatched = S.mlta.forgetMatched :=
  Fold.foldl_frame (f := ask E S.ctx.sigFuncsMap) (p := Mlta.forgetMatched)
    (fun m CI => forgetMatched_findCallees m _ CI) _ _

theorem asked_append (S : CallGraphPass) (CIs CIs' : List ValPtr) :
    asked E S (CIs ++ CIs') = CIs'.foldl (ask E S.ctx.sigFuncsMap) (asked E S CIs) := by
  simp [asked]

theorem mlta_callInst {S T : CallGraphPass} (h : SameInputs S T) (F : FuncPtr) (CI : ValPtr) :
    (callInst E F T CI).mlta =
      if isSearched E CI then ask E S.ctx.sigFuncsMap T.mlta CI else T.mlta := by
  have hsig := congrArg GlobalContext.sigFuncsMap h.post
  simp only [GlobalContext.forgetPost] at hsig
  unfold callInst isSearched
  by_cases hcall : isCall E CI = true
  · by_cases hind : isIndirectCall E CI = true
    · simp [hcall, hind, indirectCall, ask, hsig]
    · cases calledFunction E CI <;> simp [hcall, hind]
  · simp [hcall]

theorem mlta_doMLTA {S T : CallGraphPass} (h : SameInputs S T) (F : FuncPtr) :
    (doMLTA E T F).mlta =
      ((E.insts F).filter (isSearched E)).foldl (ask E S.ctx.sigFuncsMap) T.mlta := by
  have hinsts : ∀ (Is : List ValPtr) (T : CallGraphPass), SameInputs S T →
      (Is.foldl (callInst E F) T).mlta =
        (Is.filter (isSearched E)).foldl (ask E S.ctx.sigFuncsMap) T.mlta := by
    intro Is
    induction Is with
    | nil => exact fun _ _ => rfl
    | cons CI Is ih =>
      intro T hT
      rw [List.foldl_cons, ih _ (hT.callInst F CI), mlta_callInst hT]
      by_cases hCI : isSearched E CI = true
      · rw [if_pos hCI, List.filter_cons_of_pos hCI, List.foldl_cons]
      · rw [if_neg hCI, List.filter_cons_of_neg hCI]
  exact hinsts _ _ (h.register F)

theorem mlta_passed (S : CallGraphPass) (ms : List ModPtr) :
    (passed E S ms).mlta = asked E S (indirectCalls E ms) := by
  have hfunctions : ∀ (Fs : List FuncPtr) (T : CallGraphPass), SameInputs S T →
      SameInputs S (Fs.foldl (doMLTA E) T) ∧ (Fs.foldl (doMLTA E) T).mlta =
        ((Fs.flatMap E.insts).filter (isSearched E)).foldl (ask E S.ctx.sigFuncsMap) T.mlta := by
    intro Fs
    induction Fs with
    | nil => exact fun T hT => ⟨hT, rfl⟩
    | cons F Fs ih =>
      intro T hT
      obtain ⟨hsame, hrest⟩ := ih _ (hT.doMLTA F)
      refine ⟨hsame, ?_⟩
      rw [List.foldl_cons, hrest, mlta_doMLTA hT, List.flatMap_cons, List.filter_append,
        List.foldl_append]
  have hmodules : ∀ (Ms : List ModPtr) (T : CallGraphPass), SameInputs S T →
      (Ms.foldl (doModulePass E) T).mlta =
        (indirectCalls E Ms).foldl (ask E S.ctx.sigFuncsMap) T.mlta := by
    intro Ms
    induction Ms with
    | nil => exact fun _ _ => rfl
    | cons M Ms ih =>
      intro T hT
      obtain ⟨hsame, hone⟩ := hfunctions (definitionsOf E M) { T with mIdx := T.mIdx + 1 }
        ⟨hT.post, hT.matched⟩
      have hcalls : indirectCalls E (M :: Ms) =
          ((definitionsOf E M).flatMap E.insts).filter (isSearched E) ++ indirectCalls E Ms := by
        simp [indirectCalls]
      rw [hcalls, List.foldl_append, ← hone]
      exact ih _ hsame
  exact hmodules ms S (SameInputs.refl S)

/-- What `Initialize` leaves: the tables after the searches for its indirect calls. -/
theorem mlta_initializeModules (files : List BCFile) :
    (initializeModules E files).mlta =
      asked E (searchState E files) (indirectCalls E (loadedModules files)) := by
  rw [initializeModules_eq_start]
  exact mlta_passed (searchState E files) (loadedModules files)

theorem sigFuncsMap_initializeModules (files : List BCFile) :
    (initializeModules E files).ctx.sigFuncsMap = (searchState E files).ctx.sigFuncsMap := by
  rw [initializeModules_eq_start]
  exact sigFuncsMap_runModules _ _

theorem globalFuncMap_initializeModules (files : List BCFile) :
    (initializeModules E files).ctx.globalFuncMap = (searchState E files).ctx.globalFuncMap := by
  rw [initializeModules_eq_start]
  exact globalFuncMap_runModules _ _

theorem eq_of_forgetMatched {m m' : Mlta} (h : m'.forgetMatched = m.forgetMatched) :
    m' = { m with matchedFuncsMap := m'.matchedFuncsMap } := by
  have h1 : m' = { m'.forgetMatched with matchedFuncsMap := m'.matchedFuncsMap } := rfl
  rw [h] at h1
  exact h1

def LoadedLayer (E : Env) (files : List BCFile) (TI : TypeIdx) : Prop :=
  ∃ M ∈ loadedModules files, LayerOf E (searchState E files).mlta (InModule M) TI

/-- Whatever calls have been searched for, the cache is complete. -/
theorem cacheComplete_asked {files : List BCFile} {CIs : List ValPtr}
    (hCIs : ∀ CI ∈ CIs, CI.mod ∈ loadedModules files)
    (hempty : (searchState E files).mlta.matchedFuncsMap = ∅) :
    CacheComplete E (asked E (searchState E files) CIs) (LoadedLayer E files)
      (asked E (searchState E files) CIs).matchedFuncsMap := by
  have h := Fold.foldl_invariant (f := ask E (searchState E files).ctx.sigFuncsMap) (l := CIs)
    (s := (searchState E files).mlta)
    (I := fun m => m.forgetMatched = (searchState E files).mlta.forgetMatched ∧
      CacheComplete E m (LoadedLayer E files) m.matchedFuncsMap) ?_ ?_
  · exact h.2
  · refine ⟨rfl, ?_⟩
    intro k FS1 hk
    simp [hempty] at hk
  · intro m CI hCI hm
    obtain ⟨hsame, hcomplete⟩ := hm
    have hsame' := forgetMatched_findCallees (E := E) m (searchState E files).ctx.sigFuncsMap CI
    refine ⟨hsame'.trans hsame, ?_⟩
    have hlayers : ∀ TI, LayerOf E m (InModule CI.mod) TI → LoadedLayer E files TI := by
      intro TI hTI
      rw [eq_of_forgetMatched hsame] at hTI
      exact ⟨CI.mod, hCIs CI hCI, hTI⟩
    have hnew := hcomplete.findCalleesWithMLTA hlayers (searchState E files).ctx.sigFuncsMap
    intro k FS1 hk
    obtain ⟨TI, hTI, hkey, hall⟩ := hnew k FS1 hk
    have hm := eq_of_forgetMatched hsame'
    refine ⟨TI, hTI, ?_, ?_⟩
    · show typeIdxHash E (ask E _ m CI) TI.1 TI.2 = k
      unfold ask
      rw [hm]
      exact hkey
    · intro F hF
      change LayerTarget E (ask E _ m CI) TI F at hF
      unfold ask at hF
      rw [hm] at hF
      exact hall F hF

end TypeDive

end Cisa

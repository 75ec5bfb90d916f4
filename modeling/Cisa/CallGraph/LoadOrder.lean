import Cisa.CallGraph.SameTypeFacts
import Cisa.CallGraph.StoredFunctions

/-!
# The order in which modules are loaded

The tables of `Initialize` are unions over the loaded modules, so their contents should not
depend on the order. Two places read tables that are not complete yet: the arguments of a
call are confined through the definition map while it is being filled, and a search reads
the cache that earlier searches have left.
-/

namespace Cisa

open Std

namespace Env

variable (E : Env)

/-- The named structs of a module, with the texts of their elements. -/
def namedStructs (M : ModPtr) : List (String × String) :=
  (E.module M).identifiedStructTypes.filterMap fun i =>
    match (E.type ⟨M, i⟩).kind with
    | .struct (some name) false elements => some (E.structTyStr M elements, name)
    | _ => none

theorem loadStructNames_eq (names : StructNames) (M : ModPtr) : E.loadStructNames names M =
    (E.namedStructs M).foldl (fun names e => names.addTo e.1 e.2) names := by
  unfold loadStructNames namedStructs
  rw [List.foldl_filterMap]
  congr 1
  funext names i
  cases (E.type ⟨M, i⟩).kind with
  | struct name isOpaque elements =>
    cases name with
    | none => rfl
    | some name => cases isOpaque <;> rfl
  | _ => rfl

theorem loadElementsStructNameMap_eq (names : StructNames) (ms : List ModPtr) :
    E.loadElementsStructNameMap names ms =
      (ms.flatMap E.namedStructs).foldl (fun names e => names.addTo e.1 e.2) names := by
  induction ms generalizing names with
  | nil => rfl
  | cons M ms ih =>
    rw [List.flatMap_cons, List.foldl_append, ← E.loadStructNames_eq]
    exact ih _

theorem loadElementsStructNameMap_perm {ms ms' : List ModPtr} (h : ms.Perm ms')
    (names : StructNames) :
    E.loadElementsStructNameMap names ms' = E.loadElementsStructNameMap names ms := by
  rw [E.loadElementsStructNameMap_eq, E.loadElementsStructNameMap_eq]
  apply (h.flatMap_right E.namedStructs).symm.foldl_eq'
  intro e _ e' _ names
  exact ExtTreeMap.addTo_comm names e.1 e'.1 e.2 e'.2

end Env

namespace CallGraphPass

open Mlta

variable {E : Env} {ms ms' : List ModPtr}

theorem AddressTakenIn.perm (h : ms.Perm ms') {hash : SizeT} {F : FuncPtr} :
    AddressTakenIn E ms' hash F ↔ AddressTakenIn E ms hash F := by
  simp only [AddressTakenIn, h.mem_iff]

theorem DefinedIn.perm (h : ms.Perm ms') {k : ℕ} {F : FuncPtr} :
    DefinedIn E ms' k F ↔ DefinedIn E ms k F := by
  simp only [DefinedIn, h.mem_iff]

theorem Defines.perm (h : ms.Perm ms') {F : FuncPtr} : Defines E ms' F ↔ Defines E ms F := by
  simp only [Defines, h.mem_iff]

/-- A call of a declaration passes a function to a parameter that an external definition of
the modules stores or casts. -/
structure StoresPassed (E : Env) (ms : List ModPtr) (CI O : ValPtr) (no : ℕ) (A D : FuncPtr) :
    Prop where
  call : isCall E CI = true ∧ isIndirectCall E CI = false
  operand : (O, no) ∈ (E.operands CI).zipIdx
  passed : E.dynFunction O = some A ∧ (E.function A).isIntrinsic = false
  callee : ∃ CF, calledFunction E CI = some CF ∧ (E.function CF).isDeclaration = true ∧
    DefinedIn E ms (E.function CF).guid D
  stores : ∃ Arg, E.getParamByArgNo D no = some Arg ∧
    ∃ U ∈ E.users Arg, (E.instOpcode U == some .store || isBitCast E U) = true

theorem passesDirectly_of_not (h : ∀ F, Defines E ms F → ∀ CI ∈ E.insts F, ∀ O no A D,
    ¬ StoresPassed E ms CI O no A D) : PassesDirectly E ms := by
  intro g hg F hF CI hCI hcall o ho A hA hintrinsic
  have hnone : ∀ CF, definitionOf E ∅ CF =
      if (E.function CF).isDeclaration then none else some CF := by
    intro CF
    simp [definitionOf]
  unfold argumentUses
  by_cases hind : isIndirectCall E CI = true
  · rw [if_pos hind, if_pos hind]
  · rw [if_neg hind, if_neg hind]
    cases hCF : calledFunction E CI with
    | none => rfl
    | some CF =>
      simp only [Option.bind_some, hnone]
      by_cases hdecl : (E.function CF).isDeclaration = true
      · simp only [definitionOf, if_pos hdecl]
        cases hD : g[(E.function CF).guid]? with
        | none => rfl
        | some D =>
          dsimp only
          cases hArg : E.getParamByArgNo D o.2 with
          | none => rfl
          | some Arg =>
            apply List.filter_eq_nil_iff.mpr
            intro U hU huse
            exact h F hF CI hCI o.1 o.2 A D ⟨⟨hcall, by simpa using hind⟩, ho, ⟨hA, hintrinsic⟩,
              ⟨CF, hCF, hdecl, hg _ D hD⟩, ⟨Arg, hArg, U, hU, huse⟩⟩
      · simp only [definitionOf, if_neg hdecl]

/-- When every state of the passes finds the same targets, these become the callees. -/
theorem mem_callees_passed_iff {J : CallGraphPass → Prop} {X : ValPtr → FuncPtr → Prop}
    {S : CallGraphPass} (h0 : J S) (hidx : ∀ T n, J T → J { T with mIdx := n })
    (hreg : ∀ T F, J T → J { T with ctx := registerFunction E T.ctx F })
    (hcall : ∀ T F CI, Defines E ms F → CI ∈ E.insts F → J T → J (callInst E F T CI))
    (htargets : ∀ T F CI, Defines E ms F → CI ∈ E.insts F → J T →
      ∀ D, D ∈ targetsOf E T CI ↔ X CI D) {F G : FuncPtr} :
    G ∈ (passed E S ms).ctx.callees.row F ↔
      G ∈ S.ctx.callees.row F ∨ Defines E ms F ∧ ∃ CI ∈ E.insts F, X CI G := by
  have hfunction : ∀ T A, Defines E ms A → J T → J (doMLTA E T A) ∧
      (G ∈ (doMLTA E T A).ctx.callees.row F ↔
        G ∈ T.ctx.callees.row F ∨ A = F ∧ ∃ CI ∈ E.insts F, X CI G) := by
    intro T A hA hT
    constructor
    · exact Fold.foldl_invariant (hreg T A hT) fun T CI hCI hT => hcall T A CI hA hCI hT
    · unfold doMLTA
      rw [Fold.foldl_or_of (I := J) (P := fun T : CallGraphPass => G ∈ T.ctx.callees.row F)
        (Q := fun CI => A = F ∧ X CI G) (hreg T A hT)]
      · apply or_congr Iff.rfl
        constructor
        · intro h
          obtain ⟨CI, hCI, rfl, hX⟩ := h
          exact ⟨rfl, CI, hCI, hX⟩
        · intro h
          obtain ⟨rfl, CI, hCI, hX⟩ := h
          exact ⟨CI, hCI, rfl, hX⟩
      · intro T CI hCI hT
        refine ⟨hcall T A CI hA hCI hT, ?_⟩
        rw [mem_callees_callInst, htargets T A CI hA hCI hT]
  have hmodule : ∀ T M, M ∈ ms → J T → J (doModulePass E T M) ∧
      (G ∈ (doModulePass E T M).ctx.callees.row F ↔
        G ∈ T.ctx.callees.row F ∨ F ∈ definitionsOf E M ∧ ∃ CI ∈ E.insts F, X CI G) := by
    intro T M hM hT
    constructor
    · apply Fold.foldl_invariant (hidx T _ hT)
      exact fun T A hA hT => (hfunction T A ⟨M, hM, hA⟩ hT).1
    · unfold doModulePass
      rw [Fold.foldl_or_of (I := J) (P := fun T : CallGraphPass => G ∈ T.ctx.callees.row F)
        (Q := fun A => A = F ∧ ∃ CI ∈ E.insts F, X CI G) (hidx T _ hT)]
      · simp
      · exact fun T A hA hT => hfunction T A ⟨M, hM, hA⟩ hT
  unfold passed
  rw [Fold.foldl_or_of (I := J) (P := fun T : CallGraphPass => G ∈ T.ctx.callees.row F)
    (Q := fun M => F ∈ definitionsOf E M ∧ ∃ CI ∈ E.insts F, X CI G) h0]
  · apply or_congr Iff.rfl
    constructor
    · intro h
      obtain ⟨M, hM, hF, hX⟩ := h
      exact ⟨⟨M, hM, hF⟩, hX⟩
    · intro h
      obtain ⟨⟨M, hM, hF⟩, hX⟩ := h
      exact ⟨M, hM, hF, hX⟩
  · exact fun T M hM hT => hmodule T M hM hT

end CallGraphPass

namespace TypeDive

open CallGraphPass Mlta

variable {E : Env} {files files' : List BCFile}

theorem getElem?_searchState (hunique : UniqueExternals E (loadedModules files)) {k : ℕ}
    {F : FuncPtr} : (searchState E files).ctx.globalFuncMap[k]? = some F ↔
      DefinedIn E (loadedModules files) k F := by
  have hold : ∀ G, (startState E files).ctx.globalFuncMap[k]? ≠ some G := by
    intro G
    simp [globalFuncMap_startState]
  constructor
  · intro h
    exact (getElem?_initialized h).resolve_left (hold F)
  · intro h
    cases hk : (searchState E files).ctx.globalFuncMap[k]? with
    | none => exact absurd h ((getElem?_initialized_eq_none.mp hk).2 F)
    | some G => rw [hunique k F G h ((getElem?_initialized hk).resolve_left (hold G))]

theorem globalFuncMap_perm (hms : (loadedModules files).Perm (loadedModules files'))
    (hunique : UniqueExternals E (loadedModules files)) :
    (searchState E files').ctx.globalFuncMap = (searchState E files).ctx.globalFuncMap := by
  have hunique' : UniqueExternals E (loadedModules files') := by
    intro k F G hF hG
    exact hunique k F G ((DefinedIn.perm hms).mp hF) ((DefinedIn.perm hms).mp hG)
  apply ExtTreeMap.ext_getElem?
  intro k
  apply Option.ext
  intro F
  rw [getElem?_searchState hunique, getElem?_searchState hunique', DefinedIn.perm hms]

theorem factsOf_startState (hnodup : (loadedModules files).Nodup)
    (hpass : PassesDirectly E (loadedModules files)) :
    FactsOf E (E.loadElementsStructNameMap ∅ (loadedModules files)) (· ∈ loadedModules files)
      (collected E (startState E files) (loadedModules files)).mlta := by
  have hstart : Partial E (loadedModules files) (startState E files).ctx.globalFuncMap := by
    intro k F hF
    simp [globalFuncMap_startState] at hF
  have hfacts := factsOf_collected (X := fun _ => False) (S := startState E files)
    (l := loadedModules files) FactsOf.empty hpass hstart (fun _ hM => hM) (fun _ _ => id) hnodup
  exact hfacts.congr fun M => or_iff_left id

theorem sameTypeFacts_searchState (hms : (loadedModules files).Perm (loadedModules files'))
    (hnodup : (loadedModules files).Nodup) (hunique : UniqueExternals E (loadedModules files))
    (hpass : PassesDirectly E (loadedModules files)) :
    SameTypeFacts E (searchState E files).mlta (searchState E files').mlta := by
  have hpass' : PassesDirectly E (loadedModules files') := by
    intro g hg F hF
    exact hpass g (fun k G hG => (DefinedIn.perm hms).mp (hg k G hG)) F ((Defines.perm hms).mp hF)
  have hnames := E.loadElementsStructNameMap_perm hms ∅
  have hfacts := factsOf_startState hnodup hpass
  have hfacts' := factsOf_startState (hms.nodup_iff.mp hnodup) hpass'
  rw [hnames] at hfacts'
  have hsame := hfacts.sameTypeFacts (hfacts'.congr fun M => hms.mem_iff.symm)
  cases hnil : loadedModules files with
  | nil =>
    have hnil' : loadedModules files' = [] := (hnil ▸ hms).nil_eq.symm
    unfold searchState
    rw [hnil] at hsame ⊢
    rw [hnil'] at hsame ⊢
    exact hsame
  | cons M ms =>
    have hne : loadedModules files ≠ [] := by simp [hnil]
    have hne' : loadedModules files' ≠ [] := by
      intro hnil'
      rw [hnil'] at hms
      exact hne hms.eq_nil
    have hmap := globalFuncMap_perm hms hunique
    rw [searchState_eq files hne, searchState_eq files' hne'] at hmap ⊢
    refine ⟨⟨hsame.agree.names, fun V _ => hsame.agree.recoverBaseType V trivial⟩, ?_,
      hsame.props, hsame.caps, hsame.escapes⟩
    intro hash i
    show slot (resolveDeclarations E _).mlta.typeIdxFuncsMap hash i =
      slot (resolveDeclarations E _).mlta.typeIdxFuncsMap hash i
    rw [slot_resolveDeclarations, slot_resolveDeclarations, hsame.targets]
    exact congrArg (fun g => resolveSet E g _) hmap

theorem sigFuncsMap_perm (hms : (loadedModules files).Perm (loadedModules files'))
    (hunique : UniqueExternals E (loadedModules files)) (hash : SizeT) :
    (searchState E files').ctx.sigFuncsMap.row hash =
      (searchState E files).ctx.sigFuncsMap.row hash := by
  have hmem : ∀ (fs : List BCFile) (F : FuncPtr), F ∈ (searchState E fs).ctx.sigFuncsMap.row hash ↔
      ∃ D, AddressTakenIn E (loadedModules fs) hash D ∧
        definitionOf E (searchState E fs).ctx.globalFuncMap D = some F := by
    intro fs F
    cases hnil : loadedModules fs with
    | nil =>
      rw [searchState_of_nil hnil, sigFuncsMap_startState]
      simp [AddressTakenIn]
    | cons M ms =>
      have hne : loadedModules fs ≠ [] := by simp [hnil]
      rw [← hnil, mem_row_searchState hne]
      simp only [mem_row_collected, sigFuncsMap_startState, ExtTreeMap.row_empty,
        ExtTreeSet.not_mem_empty, false_or]
  apply ExtTreeSet.ext_mem
  intro F
  rw [hmem, hmem, globalFuncMap_perm hms hunique]
  simp only [AddressTakenIn.perm hms]

/-- What a call finds when nothing that was searched before makes a difference. -/
def IsTarget (E : Env) (S : CallGraphPass) (CI : ValPtr) (D : FuncPtr) : Prop :=
  isCall E CI = true ∧
    if isIndirectCall E CI = true then
      D ∈ S.ctx.sigFuncsMap.row (E.callHash CI) ∧
        ∀ TI ∈ layersMet E S.mlta CI, LayerTarget E S.mlta TI D
    else ∃ CF, calledFunction E CI = some CF ∧
      (definitionOf E S.ctx.globalFuncMap CF).getD CF = D

/-- No search of the run finds functions in its working sets that are left over from the
layer before and are not targets of the layer. -/
def CleanSearches (E : Env) (files : List BCFile) : Prop :=
  ∀ CI ∈ indirectCalls E (loadedModules files),
    ((searchState E files).ctx.sigFuncsMap.row (E.callHash CI)).isEmpty = false →
      Clean E (searchState E files).mlta ((searchState E files).ctx.sigFuncsMap.row (E.callHash CI))
        (layersMet E (searchState E files).mlta CI)

theorem mem_indirectCalls {ms : List ModPtr} {F : FuncPtr} (hF : Defines E ms F) {CI : ValPtr}
    (hCI : CI ∈ E.insts F) (hsearched : isSearched E CI = true) : CI ∈ indirectCalls E ms := by
  obtain ⟨M, hM, hFM⟩ := hF
  apply List.mem_filter.mpr
  exact ⟨List.mem_flatMap.mpr ⟨F, List.mem_flatMap.mpr ⟨M, hM, hFM⟩, hCI⟩, hsearched⟩

section FirstRun

variable {A : FuncPtr} {CI : ValPtr} {T : CallGraphPass}

theorem loadedLayer_of_defines (hA : Defines E (loadedModules files) A) (hCI : CI ∈ E.insts A)
    {TI : TypeIdx} (hTI : LayerOf E (searchState E files).mlta (InModule CI.mod) TI) :
    LoadedLayer E files TI := by
  obtain ⟨M, hM, hAM⟩ := hA
  refine ⟨M, hM, ?_⟩
  rw [E.mod_of_mem_insts hCI, mod_of_mem_definitionsOf hAM] at hTI
  exact hTI

theorem findCallees_searchState
    (hapart : Apart E (searchState E files).mlta (LoadedLayer E files))
    (hclean : CleanSearches E files) (hA : Defines E (loadedModules files) A)
    (hCI : CI ∈ E.insts A) (hT : SameInputs (searchState E files) T)
    (hcache : CacheExact E (searchState E files).mlta (LoadedLayer E files) T.mlta.matchedFuncsMap)
    (hsearched : isSearched E CI = true) :
    (∀ D, D ∈ (findCalleesWithMLTA E T.mlta (searchState E files).ctx.sigFuncsMap CI).1 ↔
      D ∈ (searchState E files).ctx.sigFuncsMap.row (E.callHash CI) ∧
        ∀ TI ∈ layersMet E (searchState E files).mlta CI,
          LayerTarget E (searchState E files).mlta TI D) ∧
    CacheExact E (searchState E files).mlta (LoadedLayer E files)
      (findCalleesWithMLTA E T.mlta (searchState E files).ctx.sigFuncsMap CI).2.matchedFuncsMap := by
  rw [eq_of_forgetMatched hT.matched]
  exact findCallees_exact matched_searchState hapart hcache
    (fun TI hTI => loadedLayer_of_defines hA hCI hTI)
    (hclean CI (mem_indirectCalls hA hCI hsearched))

theorem mem_targetsOf_iff (hapart : Apart E (searchState E files).mlta (LoadedLayer E files))
    (hclean : CleanSearches E files) (hA : Defines E (loadedModules files) A)
    (hCI : CI ∈ E.insts A) (hT : SameInputs (searchState E files) T)
    (hcache : CacheExact E (searchState E files).mlta (LoadedLayer E files) T.mlta.matchedFuncsMap)
    (D : FuncPtr) : D ∈ targetsOf E T CI ↔ IsTarget E (searchState E files) CI D := by
  have hsig := congrArg GlobalContext.sigFuncsMap hT.post
  have hmap := congrArg GlobalContext.globalFuncMap hT.post
  simp only [GlobalContext.forgetPost] at hsig hmap
  unfold targetsOf IsTarget
  by_cases hcall : isCall E CI = true
  · rw [if_pos hcall]
    by_cases hind : isIndirectCall E CI = true
    · have hsearched : isSearched E CI = true := by simp [isSearched, hcall, hind]
      rw [if_pos hind, hsig,
        (findCallees_searchState hapart hclean hA hCI hT hcache hsearched).1]
      simp [hcall, hind]
    · rw [if_neg hind, hmap]
      cases hCF : calledFunction E CI with
      | none => simp [hind]
      | some CF => simp [hcall, hind, eq_comm]
  · simp [hcall]

theorem callees_searchState : (searchState E files).ctx.callees = ∅ :=
  (callees_initialized (E := E) (startState E files) (loadedModules files)).trans
    (callees_startState files)

theorem mem_callees_passed (hapart : Apart E (searchState E files).mlta (LoadedLayer E files))
    (hclean : CleanSearches E files) {F D : FuncPtr} :
    D ∈ (passed E (searchState E files) (loadedModules files)).ctx.callees.row F ↔
      Defines E (loadedModules files) F ∧
        ∃ CI ∈ E.insts F, IsTarget E (searchState E files) CI D := by
  rw [mem_callees_passed_iff (J := fun T => SameInputs (searchState E files) T ∧
      CacheExact E (searchState E files).mlta (LoadedLayer E files) T.mlta.matchedFuncsMap)
    (X := IsTarget E (searchState E files)), callees_searchState]
  · simp
  · refine ⟨SameInputs.refl _, ?_⟩
    intro k FS1 hk
    rw [matched_searchState] at hk
    simp at hk
  · exact fun T n hT => ⟨⟨hT.1.post, hT.1.matched⟩, hT.2⟩
  · exact fun T A hT => ⟨hT.1.register A, hT.2⟩
  · intro T A CI hA hCI hT
    refine ⟨hT.1.callInst A CI, ?_⟩
    rw [mlta_callInst hT.1]
    split_ifs with hsearched
    · exact (findCallees_searchState hapart hclean hA hCI hT.1 hT.2 hsearched).2
    · exact hT.2
  · exact fun T A CI hA hCI hT D => mem_targetsOf_iff hapart hclean hA hCI hT.1 hT.2 D

/-- The callees after `Initialize`, without reference to the order of the searches. -/
theorem mem_callees_initializeModules
    (hapart : Apart E (searchState E files).mlta (LoadedLayer E files))
    (hclean : CleanSearches E files) {F G : FuncPtr} :
    G ∈ (initializeModules E files).ctx.callees.row F ↔
      ∃ D, (Defines E (loadedModules files) F ∧
        ∃ CI ∈ E.insts F, IsTarget E (searchState E files) CI D) ∧
        definitionOf E (searchState E files).ctx.globalFuncMap D = some G := by
  rw [initializeModules_eq_start]
  by_cases hF : ∃ M ∈ loadedModules files, F ∈ E.functions M
  · rw [mem_callees_runModules (onlyDefinitions_startState files) hF]
    exact exists_congr fun D => and_congr (mem_callees_passed hapart hclean) Iff.rfl
  · rw [mem_callees_runModules_of_not (onlyDefinitions_startState files) hF]
    rw [callees_startState]
    constructor
    · intro h
      simp at h
    · intro h
      obtain ⟨D, ⟨hdef, _⟩, _⟩ := h
      exact absurd hdef.mem_functions hF

end FirstRun

theorem isTarget_congr {S S' : CallGraphPass} (h : SameTypeFacts E S.mlta S'.mlta)
    (hm : S.mlta.matchedFuncsMap = ∅) (hm' : S'.mlta.matchedFuncsMap = ∅)
    (hmap : S'.ctx.globalFuncMap = S.ctx.globalFuncMap)
    (hsig : ∀ hash, S'.ctx.sigFuncsMap.row hash = S.ctx.sigFuncsMap.row hash) {CI : ValPtr}
    {D : FuncPtr} : IsTarget E S' CI D ↔ IsTarget E S CI D := by
  simp only [IsTarget, hsig, hmap, h.layersMet hm hm', h.layerTarget]

theorem loadedModules_perm (h : files.Perm files') :
    (loadedModules files).Perm (loadedModules files') := h.filterMap Prod.snd

/-- The call graph of `Initialize` does not depend on the order of the files, when the hash
tells the layers apart, no function is passed to a declared callee whose definition stores
or casts the parameter, and no search leaves functions over from one layer to the next. -/
theorem callees_load_order (hperm : files.Perm files') (hnodup : (loadedModules files).Nodup)
    (hunique : UniqueExternals E (loadedModules files))
    (hapart : Apart E (searchState E files).mlta (LoadedLayer E files))
    (hpassed : ∀ F, Defines E (loadedModules files) F → ∀ CI ∈ E.insts F, ∀ O no A D,
      ¬ StoresPassed E (loadedModules files) CI O no A D)
    (hclean : CleanSearches E files) (F G : FuncPtr) :
    G ∈ (initializeModules E files').ctx.callees.row F ↔
      G ∈ (initializeModules E files).ctx.callees.row F := by
  have hms := loadedModules_perm hperm
  have hsame := sameTypeFacts_searchState hms hnodup hunique (passesDirectly_of_not hpassed)
  have hmap := globalFuncMap_perm hms hunique
  have hsig := sigFuncsMap_perm hms hunique
  have hlayersMet := hsame.layersMet matched_searchState matched_searchState
  have hapart' : Apart E (searchState E files').mlta (LoadedLayer E files') := by
    have hlayers : ∀ TI, LoadedLayer E files' TI → LoadedLayer E files TI := by
      intro TI hTI
      obtain ⟨M, hM, hTI⟩ := hTI
      exact ⟨M, hms.mem_iff.mpr hM, hsame.layerOf.mp hTI⟩
    rw [hsame.apart]
    exact fun TI TI' hTI hTI' => hapart TI TI' (hlayers TI hTI) (hlayers TI' hTI')
  have hclean' : CleanSearches E files' := by
    intro CI hCI hne
    have hCI' : CI ∈ indirectCalls E (loadedModules files) := by
      have hcalls : (indirectCalls E (loadedModules files)).Perm
          (indirectCalls E (loadedModules files')) :=
        ((hms.flatMap_right _).flatMap_right _).filter _
      exact hcalls.mem_iff.mpr hCI
    rw [hsig] at hne ⊢
    rw [hsame.clean, hlayersMet]
    exact hclean CI hCI' hne
  rw [mem_callees_initializeModules hapart hclean, mem_callees_initializeModules hapart' hclean',
    hmap]
  have htarget : ∀ CI D, IsTarget E (searchState E files') CI D ↔
      IsTarget E (searchState E files) CI D :=
    fun CI D => isTarget_congr hsame matched_searchState matched_searchState hmap hsig
  simp only [Defines.perm hms, htarget]

/-- `a.bc` stores a function to a field and calls the field; `b.bc` has another function
with the same signature. -/
def callbackHolder : Env :=
  { Env.ofModules [
      fieldCaller,
      Module.ofFunctions [{ name := "h", guid := 3, hasAddressTaken := true }] (by decide)
        structsWithCallback] with
    strHash := polynomialHash }

theorem callees_load_order_swap : ⟨0, 1⟩ ∈ (initializeModules callbackHolder
    [("b.bc", some 1), ("a.bc", some 0)]).ctx.callees.row ⟨0, 0⟩ := by
  have hperm : List.Perm [("a.bc", some 0), ("b.bc", some 1)]
      ([("b.bc", some 1), ("a.bc", some 0)] : List BCFile) := List.Perm.swap _ _ _
  have hunique : UniqueExternals callbackHolder
      (loadedModules [("a.bc", some 0), ("b.bc", some 1)]) :=
    uniqueExternals_of_nodup (by decide)
  have hapart : Apart callbackHolder
      (searchState callbackHolder [("a.bc", some 0), ("b.bc", some 1)]).mlta
      (LoadedLayer callbackHolder [("a.bc", some 0), ("b.bc", some 1)]) :=
    apart_of_moduleLayers (by decide)
  have hindirect : ∀ M ∈ loadedModules [("a.bc", some 0), ("b.bc", some 1)],
      ∀ F ∈ definitionsOf callbackHolder M, ∀ CI ∈ callbackHolder.insts F,
        isCall callbackHolder CI = true → isIndirectCall callbackHolder CI = true := by
    decide
  have hclean : CleanSearches callbackHolder [("a.bc", some 0), ("b.bc", some 1)] := by
    intro CI hCI _
    have hall : ∀ CI ∈ indirectCalls callbackHolder
        (loadedModules [("a.bc", some 0), ("b.bc", some 1)]),
        (layersMet callbackHolder
          (searchState callbackHolder [("a.bc", some 0), ("b.bc", some 1)]).mlta CI).tail = [] := by
      decide
    apply clean_of_tail
    rw [hall CI hCI]
    simp
  apply (callees_load_order hperm (by decide) hunique hapart ?_ hclean ⟨0, 0⟩ ⟨0, 1⟩).mpr
  · exact ExtTreeSet.mem_iff_contains.mpr (by decide +kernel)
  · intro F hF CI hCI O no A D hstores
    obtain ⟨M, hM, hFM⟩ := hF
    have hind := hindirect M hM F hFM CI hCI hstores.call.1
    rw [hstores.call.2] at hind
    simp at hind

/-- `a.bc` also passes the function to `set`, which `b.bc` defines: it stores its parameter. -/
def callbackSetter : Env :=
  { Env.ofModules [
      { values := [
          { kind := .function { name := "f", guid := 1, functionType := 9, args := [4],
                                insts := [5, 6, 7, 8, 9] } },
          { kind := .function { name := "set", guid := 2, functionType := 10,
                                isDeclaration := true }, users := [9] },
          { kind := .function { name := "g", guid := 3, hasAddressTaken := true }, ty := 1,
            users := [6, 9] },
          { kind := .function { name := "h", guid := 4, hasAddressTaken := true }, ty := 1 },
          { kind := .argument, ty := 8, users := [5] },
          { kind := .instruction (.gep 7), ty := 2, operands := [4, 10, 11], users := [6, 7] },
          { kind := .instruction .store, ty := 6, operands := [2, 5] },
          { kind := .instruction .load, ty := 1, operands := [5], users := [8] },
          { kind := .instruction (.call 0), ty := 6, operands := [7] },
          { kind := .instruction (.call 10), ty := 6, operands := [2, 12, 1] },
          { kind := .constantInt 0, ty := 5 },
          { kind := .constantInt 1, ty := 5 },
          { kind := .nullPointer, ty := 2 }]
        types := structsWithCallback ++
          [{ kind := .function [6, 1, 2], printed := "void (void ()*, void ()**)" }]
        functions := [0, 1, 2, 3]
        names_nodup := by decide
        functions_listed := by decide },
      { values := [
          { kind := .function { name := "set", guid := 2, functionType := 10, args := [1, 2],
                                insts := [3] } },
          { kind := .argument, ty := 1, users := [3] },
          { kind := .argument, ty := 2, users := [3] },
          { kind := .instruction .store, ty := 6, operands := [1, 2] }]
        types := structsWithCallback ++
          [{ kind := .function [6, 1, 2], printed := "void (void ()*, void ()**)" }]
        functions := [0]
        names_nodup := by decide
        functions_listed := by decide }] with
    strHash := polynomialHash }

/-- When `b.bc` is loaded first, the store of the parameter caps the signature of the
function, and the call of the field is not narrowed any more. -/
theorem callees_load_order_setter : ¬ ∀ (E : Env) (files files' : List BCFile),
    files.Perm files' → (files.map Prod.fst).Nodup → (loadedModules files).Nodup →
    UniqueExternals E (loadedModules files) →
    (∀ s ∈ hashedTexts E files, ∀ t ∈ hashedTexts E files, E.strHash s = E.strHash t → s = t) →
    Apart E (searchState E files).mlta (LoadedLayer E files) →
    ∀ F G : FuncPtr, G ∈ (initializeModules E files').ctx.callees.row F ↔
      G ∈ (initializeModules E files).ctx.callees.row F := by
  intro hall
  have hsame := hall callbackSetter [("a.bc", some 0), ("b.bc", some 1)]
    [("b.bc", some 1), ("a.bc", some 0)] (List.Perm.swap _ _ _) (by decide) (by decide)
    (uniqueExternals_of_nodup (by decide)) (by decide) (apart_of_moduleLayers (by decide))
    ⟨0, 0⟩ ⟨0, 3⟩
  have hleft : ⟨0, 3⟩ ∈ (initializeModules callbackSetter
      [("b.bc", some 1), ("a.bc", some 0)]).ctx.callees.row ⟨0, 0⟩ :=
    ExtTreeSet.mem_iff_contains.mpr (by decide)
  have hright : ((initializeModules callbackSetter
      [("a.bc", some 0), ("b.bc", some 1)]).ctx.callees.row ⟨0, 0⟩).contains ⟨0, 3⟩ = false := by
    decide +kernel
  have hmem := ExtTreeSet.mem_iff_contains.mp (hsame.mp hleft)
  rw [hright] at hmem
  simp at hmem

end TypeDive

end Cisa

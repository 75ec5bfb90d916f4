import Cisa.CallGraph.FirstWalk
import Cisa.CallGraph.InitialRun
import Cisa.CallGraph.Writes

/-!
# Functions stored through a pointer

A store records the function in every layer of the chain of its pointer. A call that loads
the pointer looks layers up, too; what the store has recorded is found in every layer that
both walks come to.
-/

namespace Cisa

open Std

/-- `isa<Instruction>(V)`. -/
def Value.isInstruction (V : Value) : Bool :=
  match V.kind with
  | .instruction _ => true
  | _ => false

/-- What the verifier checks of a module: an instruction of a function has that function as
its parent, an instruction is used by instructions of its function only, an intrinsic has no
body, and a phi has an incoming value. -/
structure Module.Verified (M : Module) : Prop where
  parents : ∀ f ∈ M.functions, ∀ i ∈ (functionAt M.values f).insts,
    (M.values.getD i default).parent = f
  uses : ∀ v ∈ M.values, ∀ i ∈ v.operands, (M.values.getD i default).isInstruction = true →
    v.isInstruction = true ∧ (M.values.getD i default).parent = v.parent
  intrinsics : ∀ f ∈ M.functions, (functionAt M.values f).isIntrinsic = true →
    (functionAt M.values f).isDeclaration = true
  phis : ∀ v ∈ M.values, v.kind = .instruction .phi → v.operands ≠ []

/-- A value of the module of a function that is not an instruction of another function. -/
def OwnedBy (E : Env) (F : FuncPtr) (V : ValPtr) : Prop :=
  V.mod = F.mod ∧ ((E.value V).isInstruction = true → E.parentOf V = F)

namespace Env

variable {E : Env} {F : FuncPtr}

theorem closed_ownedBy (h : (E.module F.mod).Verified) : E.Closed (OwnedBy E F) := by
  intro V hV O hO
  obtain ⟨i, hi, rfl⟩ := List.mem_map.mp hO
  refine ⟨hV.1, fun hinst => ?_⟩
  have hmem : E.value V ∈ (E.module F.mod).values := by
    rw [← hV.1]
    rw [value, List.getD_eq_getElem?_getD] at hi ⊢
    cases hv : (E.module V.mod).values[V.idx]? with
    | none => simp [hv, show (default : Value).operands = [] from rfl] at hi
    | some v => simpa using List.mem_of_getElem? hv
  have hO : E.value ⟨V.mod, i⟩ = (E.module F.mod).values.getD i default := by
    rw [← hV.1]
    rfl
  rw [hO] at hinst
  obtain ⟨hVinst, hparent⟩ := h.uses _ hmem i hi hinst
  rw [← hV.2 hVinst, parentOf, parentOf, hO, hparent]

theorem operands_phi {M : ModPtr} (h : (E.module M).Verified) {V : ValPtr} (hV : InModule M V)
    (hop : E.instOpcode V = some .phi) : E.operands V ≠ [] := by
  obtain rfl : V.mod = M := hV
  exact E.operands_of_phi h.phis hop

theorem ownedBy_inst (h : (E.module F.mod).Verified) (hF : F ∈ E.functions F.mod) {I : ValPtr}
    (hI : I ∈ E.insts F) : OwnedBy E F I := by
  obtain ⟨i, hi, rfl⟩ := List.mem_map.mp hI
  obtain ⟨f, hf, hfF⟩ := List.mem_map.mp hF
  have hidx : F.idx = f := by rw [← hfF]
  have hparent := h.parents f hf i (by rw [← hidx]; exact hi)
  refine ⟨rfl, fun _ => ?_⟩
  show (⟨F.mod, ((E.module F.mod).values.getD i default).parent⟩ : FuncPtr) = F
  rw [hparent, ← hidx]

end Env

namespace Mlta

variable {E : Env} {m m' : Mlta} {V : ValPtr} {F : FuncPtr}

def ChainRecorded (E : Env) (m : Mlta) (V : ValPtr) (F : FuncPtr) : Prop :=
  ∀ TI ∈ (baseTypeChain E m V).1, F ∈ slot m.typeIdxFuncsMap (typeHash E m TI.1) TI.2

theorem Adds.agree {C : ValPtr → Prop} {op : Mlta → Mlta} (h : Adds E C m op)
    (D : ValPtr → Prop) : Agree E D m (op m) := by
  obtain ⟨W, hW⟩ := h
  rw [hW m Agree.refl]
  exact Agree.refl.write W

theorem Adds.mem_slot {C : ValPtr → Prop} {op : Mlta → Mlta} (h : Adds E C m op) {hash : SizeT}
    {i : ℤ} (hF : F ∈ slot m.typeIdxFuncsMap hash i) :
    F ∈ slot (op m).typeIdxFuncsMap hash i := by
  obtain ⟨W, hW⟩ := h
  rw [hW m Agree.refl]
  exact mem_slot_write.mpr (Or.inl hF)

theorem Adds.matched {C : ValPtr → Prop} {op : Mlta → Mlta} (h : Adds E C m op) :
    (op m).matchedFuncsMap = m.matchedFuncsMap := by
  obtain ⟨W, hW⟩ := h
  rw [hW m Agree.refl]
  exact matched_write

theorem closed_all (E : Env) : E.Closed fun _ => True := fun _ _ _ _ => trivial

theorem ChainRecorded.keep {C : ValPtr → Prop} (h : ChainRecorded E m V F) (hC : E.Closed C)
    (hV : C V) (hagree : Agree E C m m') (hslot : ∀ hash i,
      F ∈ slot m.typeIdxFuncsMap hash i → F ∈ slot m'.typeIdxFuncsMap hash i) :
    ChainRecorded E m' V F := by
  intro TI hTI
  rw [hagree.baseTypeChain hC hV] at hTI
  rw [hagree.typeHash]
  exact hslot _ _ (h TI hTI)

theorem ChainRecorded.adds {C : ValPtr → Prop} {op : Mlta → Mlta} (h : ChainRecorded E m V F)
    (hop : Adds E C m op) : ChainRecorded E (op m) V F :=
  h.keep (closed_all E) trivial (hop.agree _) fun _ _ => hop.mem_slot

theorem chainRecorded_confineTargetFunction (hF : (E.function F).isIntrinsic = false) :
    ChainRecorded E (confineTargetFunction E m V F) V F := by
  intro TI hTI
  have hadds : Adds E (fun _ => True) m fun m' => confineTargetFunction E m' V F :=
    adds_confineTargetFunction (closed_all E) trivial F
  have hagree := hadds.agree fun _ => True
  rw [hagree.baseTypeChain (closed_all E) trivial] at hTI
  rw [hagree.typeHash]
  set n := (getBaseTypeChain E m V).2.2 with hn
  have hnames : n.elementsStructNameMap = m.elementsStructNameMap :=
    ((adds_getBaseTypeChain (closed_all E) (C := fun _ => True) (V := V) trivial).agree
      fun _ => True).names
  have hfold : F ∈ slot ((baseTypeChain E m V).1.foldl
      (fun m TI => m.confine (typeHash E m TI.1) TI.2 F) n).typeIdxFuncsMap
      (typeHash E m TI.1) TI.2 := by
    apply Fold.foldl_of_mem
      (I := fun m' : Mlta => m'.elementsStructNameMap = m.elementsStructNameMap)
      (P := fun m' : Mlta => F ∈ slot m'.typeIdxFuncsMap (typeHash E m TI.1) TI.2) hTI hnames
    · exact fun m' TI' _ hm' => hm'
    · intro m' TI' _ _ hmem
      exact mem_slot_addSlot.mpr (Or.inr hmem)
    · intro m' hm'
      have hhash : typeHash E m' TI.1 = typeHash E m TI.1 := by
        unfold typeHash
        rw [hm']
      rw [hhash]
      exact mem_slot_addSlot.mpr (Or.inl ⟨rfl, rfl, rfl⟩)
  have hchain : (getBaseTypeChain E m V).1 = (baseTypeChain E m V).1 :=
    (Agree.refl.getBaseTypeChain (closed_all E) (m := m) trivial).1
  unfold confineTargetFunction
  simp only [hF, Bool.false_eq_true, if_false, hchain]
  split_ifs
  · exact hfold
  · split
    · exact hfold
    · exact hfold

theorem agree_collectAliasStructPtr {G : FuncPtr} (hG : G ≠ F) (m : Mlta) :
    Agree E (OwnedBy E F) m (collectAliasStructPtr E m G) := by
  refine ⟨rfl, fun V hV => ?_⟩
  unfold recoverBaseType
  cases hop : E.instOpcode V with
  | none => rfl
  | some op =>
    have hinst : (E.value V).isInstruction = true := by
      unfold Value.isInstruction
      rw [E.kind_of_instOpcode hop]
    have hne : G ≠ E.parentOf V := by
      rw [hV.2 hinst]
      exact hG
    simp [collectAliasStructPtr, ExtTreeMap.getD_insert, hne]

end Mlta

namespace CallGraphPass

open Mlta

variable {E : Env} {Fn : FuncPtr} {V : ValPtr} {F : FuncPtr}

/-- A store of `F` to `PO` that the scan of `Fn` records. -/
structure Stores (E : Env) (Fn F : FuncPtr) (PO : ValPtr) : Prop where
  exists_store : ∃ SI ∈ E.insts Fn, E.instOpcode SI = some .store ∧ E.operand SI 1 = some PO ∧
    ∃ VO, E.operand SI 0 = some VO ∧
      getBaseFunction E (valueFuel E VO) (E.stripPointerCasts VO) = some F

theorem adds_typeConfineInFunction (m : Mlta) (g : SortedMap ℕ FuncPtr) (G : FuncPtr) :
    Adds E (fun _ => True) m fun m' => typeConfineInFunction E g m' G :=
  Adds.foldl fun _ _ => adds_confineInst (closed_all E) g G trivial fun _ _ _ _ _ => trivial

theorem adds_typePropInFunction (m : Mlta) (G : FuncPtr) :
    Adds E (fun _ => True) m fun m' => typePropInFunction E m' G :=
  Adds.foldl fun _ _ => adds_propInst (closed_all E) trivial

theorem not_isIntrinsic_of_getBaseFunction {n : ℕ} {V : ValPtr}
    (h : getBaseFunction E n V = some F) : (E.function F).isIntrinsic = false := by
  induction n generalizing V with
  | zero => simp [getBaseFunction] at h
  | succ n ih =>
    unfold getBaseFunction at h
    split at h
    · split_ifs at h with hintrinsic
      rw [← Option.some.inj h]
      simpa using hintrinsic
    · obtain ⟨O, _, hO⟩ := Option.bind_eq_some_iff.mp h
      exact ih hO
    · simp at h

theorem chainRecorded_collectTypes (hFn : (E.function Fn).isDeclaration = false)
    (hintrinsic : (E.function Fn).isIntrinsic = false) (h : Stores E Fn F V)
    (g : SortedMap ℕ FuncPtr) (m : Mlta) : ChainRecorded E (collectTypes E g m Fn) V F := by
  obtain ⟨SI, hSI, hstore, hPO, VO, hVO, hF⟩ := h.exists_store
  have hconfine : ChainRecorded E
      (typeConfineInFunction E g (collectAliasStructPtr E m Fn) Fn) V F := by
    unfold typeConfineInFunction
    apply Fold.foldl_of_mem (I := fun _ : Mlta => True)
      (P := fun m' : Mlta => ChainRecorded E m' V F) hSI trivial
    · exact fun _ _ _ _ => trivial
    · intro m' I _ _ hm'
      have hinst : Adds E (fun _ => True) m' fun n => confineInst E g Fn n I :=
        adds_confineInst (closed_all E) g Fn trivial fun _ _ _ _ _ => trivial
      have hkept := hm'.adds hinst
      exact hkept
    · intro m' _
      have hinst : confineInst E g Fn m' SI = confineTargetFunction E m' V F := by
        simp [confineInst, hstore, hVO, hPO, hF, hintrinsic]
      rw [hinst]
      exact chainRecorded_confineTargetFunction (not_isIntrinsic_of_getBaseFunction hF)
  unfold collectTypes
  rw [hFn]
  have hprop := adds_typePropInFunction (E := E)
    (typeConfineInFunction E g (collectAliasStructPtr E m Fn) Fn) Fn
  have hkept := hconfine.adds hprop
  exact hkept

theorem chainRecorded_collectTypes_of_ne {m : Mlta} (h : ChainRecorded E m V F)
    (hC : E.Closed (OwnedBy E Fn)) (hV : OwnedBy E Fn V) {G : FuncPtr} (hG : G ≠ Fn)
    (g : SortedMap ℕ FuncPtr) : ChainRecorded E (collectTypes E g m G) V F := by
  unfold CallGraphPass.collectTypes
  split_ifs
  · exact h
  · have halias : ChainRecorded E (collectAliasStructPtr E m G) V F :=
      h.keep hC hV (agree_collectAliasStructPtr hG m) fun _ _ hmem => hmem
    have hconfine := halias.adds (adds_typeConfineInFunction _ g G)
    have hprop := hconfine.adds (adds_typePropInFunction _ G)
    exact hprop

theorem chainRecorded_initGlobals {S : CallGraphPass} (h : ChainRecorded E S.mlta V F)
    (M : ModPtr) : ChainRecorded E (initGlobals E S M).mlta V F := by
  have hint8 : ChainRecorded E
      { S.mlta with int8PtrTy := S.mlta.int8PtrTy.insert M ⟨M, (E.module M).int8PtrTy⟩ } V F :=
    h.keep (closed_all E) trivial ⟨rfl, fun _ _ => rfl⟩ fun _ _ hmem => hmem
  have hglobal : ∀ m GV, ChainRecorded E m V F → ChainRecorded E (initGlobal E m GV) V F := by
    intro m GV hm
    have hinit : Adds E (fun _ => True) m fun n => initGlobal E n GV := adds_initGlobal GV
    have hkept := hm.adds hinit
    exact hkept
  exact Fold.foldl_invariant (I := fun m => ChainRecorded E m V F) hint8
    fun m GV _ hm => hglobal m GV hm

/-- Collecting all modules records, and keeps, the chain of a pointer that is stored to. -/
theorem chainRecorded_collected {ms : List ModPtr} (hFn : Defines E ms Fn)
    (hverified : (E.module Fn.mod).Verified) (h : Stores E Fn F V) (S : CallGraphPass) :
    ChainRecorded E (collected E S ms).mlta V F := by
  obtain ⟨M, hM, hdef⟩ := hFn
  obtain ⟨hmem, hdecl⟩ := mem_definitionsOf.mp hdef
  have hmod := E.mod_of_mem_functions hmem
  have hC := Env.closed_ownedBy hverified
  have hV : OwnedBy E Fn V := by
    obtain ⟨SI, hSI, _, hPO, _⟩ := h.exists_store
    exact hC.operand (Env.ownedBy_inst hverified (hmod ▸ hmem) hSI) hPO
  have hintrinsic : (E.function Fn).isIntrinsic = false := by
    obtain ⟨f, hf, hfF⟩ := List.mem_map.mp hmem
    have hfunction : E.function Fn = functionAt (E.module Fn.mod).values f := by
      rw [Env.function, ← hfF]
    by_contra hintrinsic
    rw [Bool.not_eq_false, hfunction] at hintrinsic
    rw [hfunction, hverified.intrinsics f (by rw [hmod]; exact hf) hintrinsic] at hdecl
    simp at hdecl
  have hfunction : ∀ T : CallGraphPass, ∀ G, ChainRecorded E T.mlta V F →
      ChainRecorded E (initFunction E T G).mlta V F := by
    intro T G hT
    by_cases hG : G = Fn
    · rw [hG]
      exact chainRecorded_collectTypes hdecl hintrinsic h _ _
    · exact chainRecorded_collectTypes_of_ne hT hC hV hG _
  apply Fold.foldl_of_mem (I := fun _ : CallGraphPass => True)
    (P := fun T : CallGraphPass => ChainRecorded E T.mlta V F) hM trivial
  · exact fun _ _ _ _ => trivial
  · intro T N _ _ hT
    exact Fold.foldl_invariant (I := fun T : CallGraphPass => ChainRecorded E T.mlta V F)
      (chainRecorded_initGlobals hT N) fun T G _ hT => hfunction T G hT
  · intro T _
    apply Fold.foldl_of_mem (I := fun _ : CallGraphPass => True)
      (P := fun T : CallGraphPass => ChainRecorded E T.mlta V F) hmem trivial
    · exact fun _ _ _ _ => trivial
    · exact fun T G _ _ hT => hfunction T G hT
    · exact fun T _ => chainRecorded_collectTypes hdecl hintrinsic h _ _

theorem matched_collectTypes (g : SortedMap ℕ FuncPtr) (m : Mlta) (G : FuncPtr) :
    (collectTypes E g m G).matchedFuncsMap = m.matchedFuncsMap := by
  unfold collectTypes
  split_ifs
  · rfl
  · have hconfine := adds_typeConfineInFunction (E := E) (collectAliasStructPtr E m G) g G
    have hprop := adds_typePropInFunction (E := E)
      (typeConfineInFunction E g (collectAliasStructPtr E m G) G) G
    exact hprop.matched.trans hconfine.matched

theorem matched_initGlobals (S : CallGraphPass) (M : ModPtr) :
    (initGlobals E S M).mlta.matchedFuncsMap = S.mlta.matchedFuncsMap := by
  apply Fold.foldl_frame (p := matchedFuncsMap) (f := initGlobal E)
  intro m GV
  have hinit : Adds E (fun _ => True) m fun n => initGlobal E n GV := adds_initGlobal GV
  exact hinit.matched

theorem matched_collected (S : CallGraphPass) (ms : List ModPtr) :
    (collected E S ms).mlta.matchedFuncsMap = S.mlta.matchedFuncsMap := by
  apply Fold.foldl_frame (p := fun T : CallGraphPass => T.mlta.matchedFuncsMap)
    (f := collectModule E)
  intro T M
  unfold collectModule
  rw [← matched_initGlobals T M]
  exact Fold.foldl_frame (p := fun T : CallGraphPass => T.mlta.matchedFuncsMap)
    (fun T G => matched_collectTypes _ _ G) _ _

end CallGraphPass

namespace TypeDive

open CallGraphPass Mlta

variable {E : Env} {files : List BCFile}

theorem matched_searchState : (searchState E files).mlta.matchedFuncsMap = ∅ := by
  cases hms : loadedModules files with
  | nil =>
    rw [searchState_of_nil hms]
    rfl
  | cons M ms =>
    rw [searchState_eq files (by simp [hms])]
    exact matched_collected (startState E files) (loadedModules files)

section Stored

variable {Fn F A : FuncPtr} {P : ValPtr}

/-- What stands for a stored function in the tables is recorded in the chain of the pointer,
whatever has been searched for. -/
theorem chainRecorded_asked (hFn : Defines E (loadedModules files) Fn)
    (hverified : (E.module Fn.mod).Verified) (hstore : Stores E Fn F P)
    (hA : definitionOf E (searchState E files).ctx.globalFuncMap F = some A)
    (CIs : List ValPtr) : ChainRecorded E (asked E (searchState E files) CIs) P A := by
  have hne : loadedModules files ≠ [] := by
    obtain ⟨M, hM, _⟩ := hFn
    exact List.ne_nil_of_mem hM
  have hcollected := chainRecorded_collected hFn hverified hstore (startState E files)
  have hagree : Agree E (fun _ => True)
      (collected E (startState E files) (loadedModules files)).mlta (searchState E files).mlta := by
    rw [searchState_eq files hne]
    exact ⟨rfl, fun _ _ => rfl⟩
  have hresolved : ChainRecorded E (searchState E files).mlta P A := by
    intro TI hTI
    rw [hagree.baseTypeChain (closed_all E) trivial] at hTI
    rw [hagree.typeHash]
    exact (mem_slot_searchState hne).mpr ⟨F, hcollected TI hTI, hA⟩
  rw [eq_of_forgetMatched (forgetMatched_asked (searchState E files) CIs)]
  exact hresolved.keep (closed_all E) trivial ⟨rfl, fun _ _ => rfl⟩ fun _ _ hmem => hmem

/-- An indirect call of `Fn` whose called operand is a load of `P`. -/
structure CallsThrough (E : Env) (Fn : FuncPtr) (P CI : ValPtr) : Prop where
  mem : CI ∈ E.insts Fn
  indirect : isCall E CI = true ∧ isIndirectCall E CI = true
  exists_load : ∃ L, (E.operands CI).getLast? = some L ∧ E.instOpcode L = some .load ∧
    E.operand L 0 = some P

theorem apart_asked (hapart : Apart E (searchState E files).mlta (LoadedLayer E files))
    (CIs : List ValPtr) : Apart E (asked E (searchState E files) CIs) (LoadedLayer E files) := by
  rw [eq_of_forgetMatched (forgetMatched_asked (searchState E files) CIs)]
  exact hapart

theorem loadedLayer_of_asked {CIs : List ValPtr} {M : ModPtr} (hM : M ∈ loadedModules files)
    {TI : TypeIdx} (h : LayerOf E (asked E (searchState E files) CIs) (InModule M) TI) :
    LoadedLayer E files TI := by
  rw [eq_of_forgetMatched (forgetMatched_asked (searchState E files) CIs)] at h
  exact ⟨M, hM, h⟩

theorem asked_initializeModules (later : List ValPtr) :
    asked E (initializeModules E files) later =
      asked E (searchState E files) (indirectCalls E (loadedModules files) ++ later) := by
  rw [asked_append, ← mlta_initializeModules, ← sigFuncsMap_initializeModules]
  rfl

theorem mod_of_mem_indirectCalls {ms : List ModPtr} {CI : ValPtr} (h : CI ∈ indirectCalls E ms) :
    CI.mod ∈ ms := by
  obtain ⟨hmem, _⟩ := List.mem_filter.mp h
  obtain ⟨G, hG, hCI⟩ := List.mem_flatMap.mp hmem
  obtain ⟨M, hM, hGM⟩ := List.mem_flatMap.mp hG
  rw [E.mod_of_mem_insts hCI, mod_of_mem_definitionsOf hGM]
  exact hM

/-- A declaration in no bucket stands for itself: it has been replaced, or dropped. -/
theorem definitionOf_of_mem_row {h : SizeT}
    (hsig : F ∈ (searchState E files).ctx.sigFuncsMap.row h) (g : SortedMap ℕ FuncPtr) :
    definitionOf E g F = some F := by
  cases hms : loadedModules files with
  | nil =>
    rw [searchState_of_nil hms, sigFuncsMap_startState] at hsig
    simp at hsig
  | cons M ms =>
    have hne : loadedModules files ≠ [] := by simp [hms]
    obtain ⟨D, _, hD⟩ := (mem_row_searchState hne).mp hsig
    have honly := onlyDefinitions_initialized (E := E) (onlyDefinitions_startState files)
      (loadedModules files)
    rw [definitionOf, isDefinition_of_definitionOf honly hD]
    rfl

/-- After `Initialize`, a call that loads `P` finds a function with its signature that was
stored through `P` exactly when every layer outside the chain of `P` that a later walk of
the search looks up delivers the function. The layers of the chain always do. -/
theorem finds_stored (hverified : ∀ M ∈ loadedModules files, (E.module M).Verified)
    (hapart : Apart E (searchState E files).mlta (LoadedLayer E files))
    (hFn : Defines E (loadedModules files) Fn) (hstore : Stores E Fn F P) {CI : ValPtr}
    (hcall : CallsThrough E Fn P CI) {later : List ValPtr}
    (hlater : ∀ CI' ∈ later, CI'.mod ∈ loadedModules files)
    (hA : A = F ∨ definitionOf E (initializeModules E files).ctx.globalFuncMap F = some A)
    (hsig : A ∈ (initializeModules E files).ctx.sigFuncsMap.row (E.callHash CI)) :
    A ∈ (findCalleesWithMLTA E (asked E (initializeModules E files) later)
        (initializeModules E files).ctx.sigFuncsMap CI).1 ↔
      ∀ TI ∈ restartedMet E (asked E (initializeModules E files) later) CI,
        TI ∉ (baseTypeChain E (asked E (initializeModules E files) later) P).1 →
          Delivers E (asked E (initializeModules E files) later) false TI A := by
  have hmod : Fn.mod ∈ loadedModules files := by
    obtain ⟨M, hM, hdef⟩ := hFn
    rw [mod_of_mem_definitionsOf hdef]
    exact hM
  have hCImod : CI.mod = Fn.mod := E.mod_of_mem_insts hcall.mem
  rw [asked_initializeModules]
  rw [sigFuncsMap_initializeModules] at hsig ⊢
  rw [globalFuncMap_initializeModules] at hA
  set CIs := indirectCalls E (loadedModules files) ++ later with hCIs
  have hin : ∀ CI' ∈ CIs, CI'.mod ∈ loadedModules files := by
    intro CI' hCI'
    rcases List.mem_append.mp hCI' with hCI' | hCI'
    · exact mod_of_mem_indirectCalls hCI'
    · exact hlater CI' hCI'
  have hdef : definitionOf E (searchState E files).ctx.globalFuncMap F = some A := by
    rcases hA with rfl | hA
    · exact definitionOf_of_mem_row hsig _
    · exact hA
  have hrecorded := chainRecorded_asked hFn (hverified _ hmod) hstore hdef CIs
  have hcache := cacheComplete_asked (E := E) hin matched_searchState
  have hlayers : ∀ TI, LayerOf E (asked E (searchState E files) CIs) (InModule CI.mod) TI →
      LoadedLayer E files TI := by
    intro TI hTI
    exact loadedLayer_of_asked (by rw [hCImod]; exact hmod) hTI
  have happart : Apart E (asked E (searchState E files) CIs)
      (LayerOf E (asked E (searchState E files) CIs) (InModule CI.mod)) := by
    intro TI TI' hTI hTI'
    exact apart_asked hapart CIs TI TI' (hlayers TI hTI) (hlayers TI' hTI')
  -- a layer of the chain delivers: `A` is recorded for it, and the cache loses nothing
  have hchain : ∀ TI ∈ layersMet E (asked E (searchState E files) CIs) CI,
      TI ∈ (baseTypeChain E (asked E (searchState E files) CIs) P).1 →
        ∀ first, Delivers E (asked E (searchState E files) CIs) first TI A := by
    intro TI hTI hmem first
    apply hcache.delivers (apart_asked hapart CIs) (hlayers TI (layerOf_layersMet hTI))
    exact Or.inl (Or.inl (hrecorded TI hmem))
  have hmet := layersMet_eq (E := E) (m := asked E (searchState E files) CIs) CI
  have hfirst : ∀ TI ∈ firstMet E (asked E (searchState E files) CIs) CI, ∀ first,
      Delivers E (asked E (searchState E files) CIs) first TI A := by
    intro TI hTI first
    obtain ⟨L, hL, hload, hPO⟩ := hcall.exists_load
    have hLmod : L.mod = Fn.mod :=
      (E.mod_of_mem_operands (List.mem_of_getLast? hL)).trans hCImod
    apply hchain TI (by rw [hmet]; exact List.mem_append_left _ hTI)
    apply mem_chain_of_first hload hPO _ (mem_firstMet hL hTI)
    intro V hV hop
    exact Env.operands_phi (hverified _ (by rw [hLmod]; exact hmod)) hV hop
  rw [mem_findCallees_iff_restarted happart hsig hfirst]
  constructor
  · exact fun h TI hTI _ => h TI hTI
  · intro h TI hTI
    by_cases hmem : TI ∈ (baseTypeChain E (asked E (searchState E files) CIs) P).1
    · exact hchain TI (by rw [hmet]; exact List.mem_append_right _ hTI) hmem false
    · exact h TI hTI hmem

end Stored

/-! ## Two functions that store and call -/

/-- The layers of the GEPs of a module. -/
def moduleLayers (E : Env) (m : Mlta) (M : ModPtr) : List TypeIdx :=
  (List.range (E.module M).values.length).flatMap fun i =>
    match E.opcode ⟨M, i⟩ with
    | some (.gep ty) => getGEPLayerTypes E m ⟨M, i⟩ ty
    | _ => []

theorem mem_moduleLayers {m : Mlta} {M : ModPtr} {TI : TypeIdx}
    (h : LayerOf E m (InModule M) TI) : TI ∈ moduleLayers E m M := by
  obtain ⟨V, ty, rfl, hop, hTI⟩ := h
  have hlt := E.idx_lt_of_opcode (V := V) (by simp [hop])
  apply List.mem_flatMap.mpr
  refine ⟨V.idx, List.mem_range.mpr hlt, ?_⟩
  simpa [hop] using hTI

theorem apart_of_moduleLayers
    (h : ∀ M ∈ loadedModules files, ∀ M' ∈ loadedModules files,
      ∀ TI ∈ moduleLayers E (searchState E files).mlta M,
      ∀ TI' ∈ moduleLayers E (searchState E files).mlta M',
        typeIdxHash E (searchState E files).mlta TI.1 TI.2 =
          typeIdxHash E (searchState E files).mlta TI'.1 TI'.2 →
        pairOf E (searchState E files).mlta TI = pairOf E (searchState E files).mlta TI') :
    Apart E (searchState E files).mlta (LoadedLayer E files) := by
  intro TI TI' hTI hTI'
  obtain ⟨M, hM, hTI⟩ := hTI
  obtain ⟨M', hM', hTI'⟩ := hTI'
  exact h M hM M' hM' TI (mem_moduleLayers hTI) TI' (mem_moduleLayers hTI')

/-- The texts that are hashed for a type. -/
def typeTexts (T : Ty) : List String :=
  [cleanString T.printed, removeBlanks T.printed, removeBlanks (T.printed ++ "[array]")] ++
    match T.kind with
    | .struct (some name) _ _ => [name]
    | _ => []

def hashedTexts (E : Env) (files : List BCFile) : List String :=
  "-1" :: (loadedModules files).flatMap fun M =>
    (E.module M).types.flatMap typeTexts ++
      (moduleLayers E (searchState E files).mlta M).map fun TI => toString TI.2

/-- Two structs whose second field points to a function. -/
def structsWithCallback : List Ty := [
  { kind := .function [6], printed := "void ()" },
  { kind := .pointer 0, printed := "void ()*" },
  { kind := .pointer 1, printed := "void ()**" },
  { kind := .struct (some "struct.node") false [5, 1], printed := "%struct.node" },
  { kind := .pointer 3, printed := "%struct.node*" },
  { kind := .other 13, printed := "i64" },
  { kind := .other 7, printed := "void" },
  { kind := .struct (some "struct.table") false [5, 1], printed := "%struct.table" },
  { kind := .pointer 7, printed := "%struct.table*" },
  { kind := .function [6, 8], printed := "void (%struct.table*)" }]

/-- A hash that reads all characters. -/
def polynomialHash (str : String) : SizeT :=
  Fin.ofNat (2 ^ 64) (str.toList.foldl (fun h c => 131 * h + c.toNat) 7)

/-- `u = phi [w, b]`, `w = phi [u, field]`: the function is stored to `u`, and `u` is loaded
and called. `field` is computed from `w`. -/
def storedToPhi : Env :=
  { Env.ofModules [
      { values := [
          { kind := .function { name := "f", functionType := 9, args := [2],
                                insts := [5, 3, 8, 9, 12, 4, 6, 7] } },
          { kind := .function { name := "g", hasAddressTaken := true }, ty := 1, users := [8] },
          { kind := .argument, ty := 8, users := [5] },
          { kind := .instruction .phi, ty := 2, operands := [4, 5], users := [4, 8, 9] },
          { kind := .instruction .phi, ty := 2, operands := [3, 7], users := [3, 6] },
          { kind := .instruction (.gep 7), ty := 2, operands := [2, 10, 11], users := [3] },
          { kind := .instruction .bitCast, ty := 4, operands := [4], users := [7] },
          { kind := .instruction (.gep 3), ty := 2, operands := [6, 10, 11], users := [4] },
          { kind := .instruction .store, ty := 6, operands := [1, 3] },
          { kind := .instruction .load, ty := 1, operands := [3], users := [12] },
          { kind := .constantInt 0, ty := 5 },
          { kind := .constantInt 1, ty := 5 },
          { kind := .instruction (.call 0), ty := 6, operands := [9] }]
        types := structsWithCallback
        functions := [0, 1]
        names_nodup := by decide
        functions_listed := by decide }] with strHash := polynomialHash }

/-- The function is stored to a field of an argument; the field is loaded and called. -/
def fieldCaller : Module where
  values := [
    { kind := .function { name := "f", guid := 1, functionType := 9, args := [2],
                          insts := [3, 4, 5, 8] } },
    { kind := .function { name := "g", guid := 2, hasAddressTaken := true }, ty := 1, users := [4] },
    { kind := .argument, ty := 8, users := [3] },
    { kind := .instruction (.gep 7), ty := 2, operands := [2, 6, 7], users := [4, 5] },
    { kind := .instruction .store, ty := 6, operands := [1, 3] },
    { kind := .instruction .load, ty := 1, operands := [3], users := [8] },
    { kind := .constantInt 0, ty := 5 },
    { kind := .constantInt 1, ty := 5 },
    { kind := .instruction (.call 0), ty := 6, operands := [5] }]
  types := structsWithCallback
  functions := [0, 1]
  names_nodup := by decide
  functions_listed := by decide

def storedToField : Env :=
  { Env.ofModules [fieldCaller] with strHash := polynomialHash }

theorem finds_stored_field : ⟨0, 1⟩ ∈ (findCalleesWithMLTA storedToField
    (asked storedToField (initializeModules storedToField [("a.bc", some 0)]) [])
    (initializeModules storedToField [("a.bc", some 0)]).ctx.sigFuncsMap ⟨0, 8⟩).1 := by
  have hverified : ∀ M ∈ loadedModules [("a.bc", some 0)], (storedToField.module M).Verified := by
    intro M hM
    obtain rfl : M = 0 := by simpa [loadedModules] using hM
    exact ⟨by decide, by decide, by decide, by decide⟩
  have hapart : Apart storedToField (searchState storedToField [("a.bc", some 0)]).mlta
      (LoadedLayer storedToField [("a.bc", some 0)]) := apart_of_moduleLayers (by decide)
  have hFn : Defines storedToField (loadedModules [("a.bc", some 0)]) ⟨0, 0⟩ :=
    ⟨0, by decide, by decide⟩
  have hstore : Stores storedToField ⟨0, 0⟩ ⟨0, 1⟩ ⟨0, 3⟩ :=
    ⟨⟨0, 4⟩, by decide, by decide, by decide, ⟨0, 1⟩, by decide, by decide⟩
  have hcall : CallsThrough storedToField ⟨0, 0⟩ ⟨0, 3⟩ ⟨0, 8⟩ :=
    ⟨by decide, by decide, ⟨0, 5⟩, by decide, by decide, by decide⟩
  have hmet : restartedMet storedToField
      (asked storedToField (initializeModules storedToField [("a.bc", some 0)]) []) ⟨0, 8⟩ = [] := by
    decide
  apply (finds_stored hverified hapart hFn hstore hcall (by simp) (Or.inl rfl)
    (ExtTreeSet.mem_iff_contains.mpr (by decide))).mpr
  rw [hmet]
  simp

/-- The chain of `u` ends at the cast, whose operand has been visited. The second walk of
the search goes on from there to `b`, in a field of which nothing is stored. -/
theorem finds_stored_lost : ¬ ∀ (E : Env) (files : List BCFile),
    (∀ M ∈ loadedModules files, (E.module M).Verified) →
    (∀ s ∈ hashedTexts E files, ∀ t ∈ hashedTexts E files, E.strHash s = E.strHash t → s = t) →
    Apart E (searchState E files).mlta (LoadedLayer E files) →
    ∀ (Fn F A : FuncPtr) (P CI : ValPtr), Defines E (loadedModules files) Fn → Stores E Fn F P →
      CallsThrough E Fn P CI →
      (A = F ∨ definitionOf E (initializeModules E files).ctx.globalFuncMap F = some A) →
      A ∈ (initializeModules E files).ctx.sigFuncsMap.row (E.callHash CI) →
      A ∈ (findCalleesWithMLTA E (initializeModules E files).mlta
        (initializeModules E files).ctx.sigFuncsMap CI).1 := by
  intro hall
  have hverified : ∀ M ∈ loadedModules [("a.bc", some 0)], (storedToPhi.module M).Verified := by
    intro M hM
    obtain rfl : M = 0 := by simpa [loadedModules] using hM
    exact ⟨by decide, by decide, by decide, by decide⟩
  have hfound := hall storedToPhi [("a.bc", some 0)] hverified (by decide)
    (apart_of_moduleLayers (by decide)) ⟨0, 0⟩ ⟨0, 1⟩ ⟨0, 1⟩ ⟨0, 3⟩ ⟨0, 12⟩
    ⟨0, by decide, by decide⟩
    ⟨⟨0, 8⟩, by decide, by decide, by decide, ⟨0, 1⟩, by decide, by decide⟩
    ⟨by decide, by decide, ⟨0, 9⟩, by decide, by decide, by decide⟩ (Or.inl rfl)
    (ExtTreeSet.mem_iff_contains.mpr (by decide))
  have hempty : (findCalleesWithMLTA storedToPhi
      (initializeModules storedToPhi [("a.bc", some 0)]).mlta
      (initializeModules storedToPhi [("a.bc", some 0)]).ctx.sigFuncsMap ⟨0, 12⟩).1.isEmpty =
      true := by
    decide
  rw [ExtTreeSet.isEmpty_iff] at hempty
  rw [hempty] at hfound
  simp at hfound

end TypeDive

end Cisa

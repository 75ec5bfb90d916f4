import Cisa.CallGraph.Initializers
import Cisa.CallGraph.LoadOrder

/-!
# The two hashes of a struct

Initialisers record functions under the hashes of `structTypeHash`, and searches look them up
under `typeHash`. A struct without a name borrows the names of the structs with the same kinds
of elements. If there is none, `structTypeHash` has no hash, where `typeHash` falls back to
the hash of the empty text.
-/

namespace Cisa

open Std

/-- `StructType *`. -/
structure StructTy (E : Env) where
  ty : TyPtr
  name : Option String
  isOpaque : Bool
  elements : List ℕ
  kind_eq : (E.type ty).kind = .struct name isOpaque elements

namespace StructTy

variable {E : Env}

/-- `structTyStr`. -/
def shape (S : StructTy E) : String := E.structTyStr S.ty.mod S.elements

/-- The struct is one of the identified structs of `M`, and has a name and elements. -/
def NamedIn (S : StructTy E) (M : ModPtr) : Prop :=
  S.ty.mod = M ∧ S.ty.idx ∈ (E.module M).identifiedStructTypes ∧ S.name.isSome = true ∧
    S.isOpaque = false

/-- The struct has a name, or one of the modules names a struct with the same kinds of
elements. -/
def HasName (S : StructTy E) (ms : List ModPtr) : Prop :=
  S.name.isSome = true ∨ ∃ M ∈ ms, ∃ T : StructTy E, T.NamedIn M ∧ T.shape = S.shape

end StructTy

namespace Env

variable {E : Env} {names : StructNames} {ms : List ModPtr} {shape name : String}

theorem mem_namedStructs {M : ModPtr} : (shape, name) ∈ E.namedStructs M ↔
    ∃ T : StructTy E, T.NamedIn M ∧ T.name = some name ∧ T.shape = shape := by
  unfold namedStructs
  rw [List.mem_filterMap]
  constructor
  · rintro ⟨i, hi, hT⟩
    split at hT
    · rename_i name' elements hkind
      obtain ⟨rfl, rfl⟩ := Prod.mk.inj (Option.some.inj hT)
      exact ⟨⟨⟨M, i⟩, some name', false, elements, hkind⟩, ⟨rfl, hi, rfl, rfl⟩, rfl, rfl⟩
    · cases hT
  · rintro ⟨⟨⟨N, i⟩, _, _, elements, hkind⟩, ⟨rfl, hi, _, rfl⟩, rfl, rfl⟩
    refine ⟨i, hi, ?_⟩
    dsimp only at hkind ⊢
    simp only [hkind]
    rfl

theorem mem_row_loadElementsStructNameMap :
    name ∈ (E.loadElementsStructNameMap ∅ ms).row shape ↔
      ∃ M ∈ ms, ∃ T : StructTy E, T.NamedIn M ∧ T.name = some name ∧ T.shape = shape := by
  rw [E.loadElementsStructNameMap_eq,
    Fold.foldl_or (P := fun names : StructNames => name ∈ names.row shape)
      (Q := fun e : String × String => e.1 = shape ∧ e.2 = name)
      (fun names e => ExtTreeMap.mem_row_addTo.trans or_comm)]
  simp only [ExtTreeMap.row_empty, ExtTreeSet.not_mem_empty, false_or, List.mem_flatMap]
  constructor
  · rintro ⟨⟨_, _⟩, ⟨M, hM, he⟩, rfl, rfl⟩
    exact ⟨M, hM, mem_namedStructs.mp he⟩
  · rintro ⟨M, hM, hT⟩
    exact ⟨(shape, name), ⟨M, hM, mem_namedStructs.mpr hT⟩, rfl, rfl⟩

theorem exists_mem_row_iff : (∃ name, name ∈ (E.loadElementsStructNameMap ∅ ms).row shape) ↔
    ∃ M ∈ ms, ∃ T : StructTy E, T.NamedIn M ∧ T.shape = shape := by
  simp only [mem_row_loadElementsStructNameMap]
  constructor
  · rintro ⟨name, M, hM, T, hT, _, hshape⟩
    exact ⟨M, hM, T, hT, hshape⟩
  · rintro ⟨M, hM, T, hT, hshape⟩
    obtain ⟨name, hname⟩ := Option.isSome_iff_exists.mp hT.2.2.1
    exact ⟨name, M, hM, T, hT, hname, hshape⟩

section Hashes

variable (S : StructTy E)

theorem structTypeHash_of_name (hname : S.name = some name) :
    E.structTypeHash names S.ty = ExtTreeSet.ofElems [E.strHash name] := by
  simp only [structTypeHash, S.kind_eq, hname]

theorem typeHash_of_name (hname : S.name = some name) :
    E.typeHash names S.ty = E.strHash name := by
  simp only [typeHash, S.kind_eq, hname]

theorem structTypeHash_of_nameless (hname : S.name = none) :
    E.structTypeHash names S.ty =
      ExtTreeSet.ofElems ((names.row S.shape).toList.map E.strHash) := by
  simp only [structTypeHash, S.kind_eq, hname, StructTy.shape]

theorem typeHash_of_nameless (hname : S.name = none) :
    E.typeHash names S.ty = E.strHash ((names.row S.shape).toList.headD "") := by
  simp only [typeHash, S.kind_eq, hname, StructTy.shape]

/-- The reader takes the first of the writers' hashes, if there is one. -/
theorem typeHash_mem_structTypeHash (h : S.name.isSome = true ∨ ∃ name, name ∈ names.row S.shape) :
    E.typeHash names S.ty ∈ E.structTypeHash names S.ty := by
  cases hname : S.name with
  | some name =>
    rw [typeHash_of_name S hname, structTypeHash_of_name S hname, ExtTreeSet.mem_ofElems]
    exact List.mem_singleton_self _
  | none =>
    obtain ⟨name, hrow⟩ : ∃ name, name ∈ names.row S.shape := by simpa [hname] using h
    rw [typeHash_of_nameless S hname, structTypeHash_of_nameless S hname, ExtTreeSet.mem_ofElems]
    apply List.mem_map_of_mem
    cases hl : (names.row S.shape).toList with
    | nil =>
      rw [← ExtTreeSet.mem_toList, hl] at hrow
      cases hrow
    | cons first _ => exact List.mem_cons_self

/-- The writers have a hash exactly when the struct has a name or borrows one. -/
theorem exists_mem_structTypeHash_iff : (∃ hash, hash ∈ E.structTypeHash names S.ty) ↔
    S.name.isSome = true ∨ ∃ name, name ∈ names.row S.shape := by
  constructor
  · rintro ⟨hash, hmem⟩
    cases hname : S.name with
    | some name => exact Or.inl rfl
    | none =>
      rw [structTypeHash_of_nameless S hname, ExtTreeSet.mem_ofElems, List.mem_map] at hmem
      obtain ⟨name, hrow, _⟩ := hmem
      exact Or.inr ⟨name, ExtTreeSet.mem_toList.mp hrow⟩
  · intro h
    exact ⟨_, typeHash_mem_structTypeHash S h⟩

end Hashes

theorem exists_mem_structTypeHash_loaded_iff (S : StructTy E) :
    (∃ hash, hash ∈ E.structTypeHash (E.loadElementsStructNameMap ∅ ms) S.ty) ↔ S.HasName ms := by
  rw [exists_mem_structTypeHash_iff, exists_mem_row_iff]
  exact Iff.rfl

theorem typeHash_mem_structTypeHash_iff (S : StructTy E) :
    E.typeHash (E.loadElementsStructNameMap ∅ ms) S.ty ∈
      E.structTypeHash (E.loadElementsStructNameMap ∅ ms) S.ty ↔ S.HasName ms := by
  rw [← exists_mem_structTypeHash_loaded_iff]
  constructor
  · intro hmem
    exact ⟨_, hmem⟩
  · intro h
    exact typeHash_mem_structTypeHash S ((exists_mem_structTypeHash_iff S).mp h)

theorem typeHash_of_not_hasName {S : StructTy E} (hS : ¬ S.HasName ms) :
    E.typeHash (E.loadElementsStructNameMap ∅ ms) S.ty = E.strHash "" := by
  have hname : S.name = none := by
    by_contra hname
    exact hS (Or.inl (Option.isSome_iff_ne_none.mpr hname))
  have hrow : ((E.loadElementsStructNameMap ∅ ms).row S.shape).toList = [] := by
    apply List.eq_nil_iff_forall_not_mem.mpr
    intro name hmem
    exact hS (Or.inr (exists_mem_row_iff.mp ⟨name, ExtTreeSet.mem_toList.mp hmem⟩))
  rw [typeHash_of_nameless S hname, hrow]
  rfl

end Env

namespace Mlta

variable {E : Env} {m m' : Mlta} {GV : ValPtr} {F : FuncPtr} {S : StructTy E} {i : ℕ}

/-- `typeConfineInInitializer` comes to field `i` of a constant of the struct from a slot of
the function, and adds the function to this container. -/
structure RecordsFor (E : Env) (GV : ValPtr) (F : FuncPtr) (S : StructTy E) (i : ℕ) : Prop where
  isIntrinsic : (E.function F).isIntrinsic = false
  exists_container : ∃ Ini C, E.operand GV 0 = some Ini ∧ (E.value Ini).kind = .aggregate ∧
    E.typeOf C = S.ty ∧ FoundBelow E Ini F C i

theorem containerHashes_of_struct {C : ValPtr} (hC : E.typeOf C = S.ty) :
    containerHashes E m C = E.structTypeHash m.elementsStructNameMap S.ty := by
  unfold containerHashes
  rw [hC, S.kind_eq]

theorem RecordsFor.mem_slot (h : RecordsFor E GV F S i) {hash : SizeT}
    (hhash : hash ∈ E.structTypeHash m.elementsStructNameMap S.ty) :
    F ∈ slot (typeConfineInInitializer E m GV).typeIdxFuncsMap hash i := by
  obtain ⟨Ini, C, hIni, hkind, hC, hfound⟩ := h.exists_container
  rw [mem_typeConfineInInitializer hIni hkind, slotRecords_iff]
  refine Or.inr ⟨h.isIntrinsic, C, i, hfound, rfl, ?_⟩
  rw [containerHashes_of_struct hC]
  exact hhash

theorem mem_getTargets_of_mem_slot {hash : SizeT} {idx : ℤ}
    (h : F ∈ slot m.typeIdxFuncsMap hash idx) (FS : FuncSet) :
    F ∈ getTargetsWithLayerType m hash idx FS :=
  mem_getTargetsWithLayerType (p := ⟨hash, idx⟩).mpr (Or.inl (Or.inl h))

/-- The reader's hash of the struct is one of the writers', and what an initialiser records
for a field of the struct is among the targets of this field, then and later. -/
structure HashesAgree (E : Env) (ms : List ModPtr) (S : StructTy E) : Prop where
  mem : E.typeHash (E.loadElementsStructNameMap ∅ ms) S.ty ∈
    E.structTypeHash (E.loadElementsStructNameMap ∅ ms) S.ty
  found : ∀ m : Mlta, m.elementsStructNameMap = E.loadElementsStructNameMap ∅ ms →
    ∀ GV F i, RecordsFor E GV F S i →
      ∀ m', Grows (fun _ => True) (typeConfineInInitializer E m GV) m' →
        ∀ FS, F ∈ getTargetsWithLayerType m' (typeHash E m' S.ty) i FS

theorem names_typeConfineInInitializer (m : Mlta) (GV : ValPtr) :
    (typeConfineInInitializer E m GV).elementsStructNameMap = m.elementsStructNameMap :=
  (grows_typeConfineInInitializer (E := E) m (rfl : GV.mod = GV.mod)).names

/-- The hashes of a struct agree exactly when it has a name or borrows one. -/
theorem hashesAgree_iff (ms : List ModPtr) (S : StructTy E) :
    HashesAgree E ms S ↔ S.HasName ms := by
  rw [← Env.typeHash_mem_structTypeHash_iff]
  constructor
  · exact HashesAgree.mem
  · intro hmem
    refine ⟨hmem, ?_⟩
    intro m hnames GV F i hrec m' hm' FS
    apply mem_getTargets_of_mem_slot
    have hhash : typeHash E m' S.ty = E.typeHash (E.loadElementsStructNameMap ∅ ms) S.ty := by
      rw [typeHash, hm'.names, names_typeConfineInInitializer, hnames]
    rw [hhash]
    rw [← hnames] at hmem ⊢
    exact hm'.mem_slot (hrec.mem_slot hmem)

/-- For a struct that has no name and borrows none, an initialiser adds nothing where a search
looks, unless a container is hashed like the empty text. -/
theorem slot_typeConfineInInitializer_of_not_hasName {ms : List ModPtr} (hS : ¬ S.HasName ms)
    (hnames : m.elementsStructNameMap = E.loadElementsStructNameMap ∅ ms)
    (happart : ∀ C, E.strHash "" ∉ containerHashes E m C) (GV : ValPtr) (idx : ℤ) :
    F ∈ slot (typeConfineInInitializer E m GV).typeIdxFuncsMap (typeHash E m S.ty) idx ↔
      F ∈ slot m.typeIdxFuncsMap (typeHash E m S.ty) idx := by
  have hhash : typeHash E m S.ty = E.strHash "" := by
    rw [typeHash, hnames, Env.typeHash_of_not_hasName hS]
  cases hIni : E.operand GV 0 with
  | none => rw [typeConfineInInitializer, hIni]
  | some Ini =>
    by_cases hkind : (E.value Ini).kind = .aggregate
    · rw [mem_typeConfineInInitializer hIni hkind, slotRecords_iff, hhash]
      constructor
      · intro hmem
        rcases hmem with hmem | ⟨_, C, _, _, _, hC⟩
        · exact hmem
        · exact absurd hC (happart C)
      · exact Or.inl
    · rw [typeConfineInInitializer, hIni]
      simp only [if_neg hkind]

/-- `{ void ()* } table = { f }`, where no struct is named. -/
def literalTable : Env := Env.ofModules [{
  values := [
    { kind := .function { name := "f" } },
    { kind := .aggregate, ty := 2, operands := [0] },
    { kind := .globalVariable, ty := 3, operands := [1] }]
  types := [
    { kind := .pointer 1, printed := "void ()*" },
    { kind := .function, printed := "void ()" },
    { kind := .struct none false [0], printed := "{ void ()* }" },
    { kind := .pointer 2, printed := "{ void ()* }*" }]
  functions := [0]
  globals := [2]
  names_nodup := by decide
  functions_listed := by decide }]

def literalStruct : StructTy literalTable := ⟨⟨0, 2⟩, none, false, [0], rfl⟩

theorem recordsFor_literalTable : RecordsFor literalTable ⟨0, 2⟩ ⟨0, 0⟩ literalStruct 0 := by
  refine ⟨rfl, ⟨0, 1⟩, ⟨0, 1⟩, rfl, rfl, rfl, [], ⟨⟨0, 0⟩, ⟨0, 1⟩, 0⟩, [], rfl, rfl, ?_⟩
  exact ⟨⟨0, 0⟩, Relation.ReflTransGen.refl, by decide⟩

/-- The function of the table is not among the targets of its field. -/
theorem hashes_disagree :
    ¬ ∀ (E : Env) (ms : List ModPtr) (S : StructTy E), HashesAgree E ms S := by
  intro hall
  have hfound := (hall literalTable [0] literalStruct).found {} (by decide) ⟨0, 2⟩ ⟨0, 0⟩ 0
    recordsFor_literalTable _ Grows.refl ∅
  rw [ExtTreeSet.mem_iff_contains] at hfound
  revert hfound
  decide

end Mlta

namespace CallGraphPass

open Mlta

variable {E : Env} {GV : ValPtr} {F : FuncPtr} {S : StructTy E} {i : ℕ} {M : ModPtr}
  {hash : SizeT}

/-- A global of the module with an initialiser of a composite type. -/
structure InitializedIn (E : Env) (M : ModPtr) (GV : ValPtr) : Prop where
  mem : GV ∈ E.globals M
  exists_initializer : ∃ Ini, E.operand GV 0 = some Ini ∧
    (E.type (E.typeOf Ini)).kind.isComposite = true

theorem initGlobal_of_initializedIn (hGV : InitializedIn E M GV) (m : Mlta) :
    initGlobal E m GV = typeConfineInInitializer E m GV := by
  obtain ⟨Ini, hIni, hcomp⟩ := hGV.exists_initializer
  unfold initGlobal
  rw [hIni]
  exact if_pos (Or.inr hcomp)

theorem mem_slot_initGlobals (hGV : InitializedIn E M GV) (hrec : RecordsFor E GV F S i)
    (T : CallGraphPass) (hhash : hash ∈ E.structTypeHash T.mlta.elementsStructNameMap S.ty) :
    F ∈ slot (initGlobals E T M).mlta.typeIdxFuncsMap hash i := by
  apply Fold.foldl_of_mem (f := initGlobal E)
    (I := fun m : Mlta => m.elementsStructNameMap = T.mlta.elementsStructNameMap)
    (P := fun m : Mlta => F ∈ slot m.typeIdxFuncsMap hash i) hGV.mem
  · exact rfl
  · intro m GV' _ hm
    exact (grows_initGlobal m GV').names.trans hm
  · intro m GV' _ _ hmem
    exact (grows_initGlobal m GV').mem_slot hmem
  · intro m hm
    rw [initGlobal_of_initializedIn hGV]
    exact hrec.mem_slot (hm ▸ hhash)

/-- Collecting all modules records, and keeps, the functions in their initialisers. -/
theorem mem_slot_collected_of_recordsFor {ms : List ModPtr} (hM : M ∈ ms)
    (hGV : InitializedIn E M GV) (hrec : RecordsFor E GV F S i) (T : CallGraphPass)
    (hhash : hash ∈ E.structTypeHash T.mlta.elementsStructNameMap S.ty) :
    F ∈ slot (collected E T ms).mlta.typeIdxFuncsMap hash i := by
  apply Fold.foldl_of_mem
    (I := fun T' : CallGraphPass =>
      T'.mlta.elementsStructNameMap = T.mlta.elementsStructNameMap)
    (P := fun T' : CallGraphPass => F ∈ slot T'.mlta.typeIdxFuncsMap hash i) hM rfl
  · intro T' N _ hT'
    exact (grows_collectModule T' N).names.trans hT'
  · intro T' N _ _ hmem
    exact (grows_collectModule T' N).mem_slot hmem
  · intro T' hT'
    exact (grows_initFunctions T' M).mem_slot (mem_slot_initGlobals hGV hrec T' (hT' ▸ hhash))

end CallGraphPass

namespace TypeDive

open CallGraphPass Mlta

variable {E : Env} {files : List BCFile} {GV : ValPtr} {F A : FuncPtr} {S : StructTy E} {i : ℕ}
  {M : ModPtr}

theorem names_searchState :
    (searchState E files).mlta.elementsStructNameMap =
      E.loadElementsStructNameMap ∅ (loadedModules files) := by
  by_cases hne : loadedModules files = []
  · rw [searchState_of_nil hne]
    rfl
  · rw [searchState_eq files hne]
    exact Fold.foldl_frame (p := fun T : CallGraphPass => T.mlta.elementsStructNameMap)
      (fun T N => (grows_collectModule T N).names) _ _

/-- After `Initialize`, whatever has been searched for, what stands for a function of an
initialiser is a target of its field, if the struct has a name or borrows one. -/
theorem mem_getTargets_asked (hM : M ∈ loadedModules files) (hGV : InitializedIn E M GV)
    (hrec : RecordsFor E GV F S i) (hS : S.HasName (loadedModules files))
    (hA : definitionOf E (searchState E files).ctx.globalFuncMap F = some A)
    (CIs : List ValPtr) (FS : FuncSet) :
    A ∈ getTargetsWithLayerType (asked E (searchState E files) CIs)
      (typeHash E (asked E (searchState E files) CIs) S.ty) i FS := by
  have hne : loadedModules files ≠ [] := List.ne_nil_of_mem hM
  rw [eq_of_forgetMatched (forgetMatched_asked (searchState E files) CIs)]
  apply mem_getTargets_of_mem_slot
  show A ∈ slot (searchState E files).mlta.typeIdxFuncsMap
    (E.typeHash (searchState E files).mlta.elementsStructNameMap S.ty) i
  rw [names_searchState, mem_slot_searchState hne]
  refine ⟨F, mem_slot_collected_of_recordsFor hM hGV hrec _ ?_, hA⟩
  exact (Env.typeHash_mem_structTypeHash_iff S).mpr hS

end TypeDive

end Cisa

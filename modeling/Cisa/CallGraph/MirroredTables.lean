import Cisa.CallGraph.TypeFacts

/-!
# The two tables of recorded functions

`typeIdxFuncsMap` holds the functions of every field, `funcTypeIdxsMap` the fields of every
function. Confinement writes to both, and `invalidateStates` walks the second to clean up the
first. Over any run of the two they mirror each other and the first holds nothing empty.
-/

set_option linter.unusedSectionVars false

namespace Cisa

open Std

section Nonempty

variable {ν : Type} [Ord ν] [TransOrd ν] [LawfulEqOrd ν]

/-- No row and no set of the table is empty. -/
def NothingEmpty (m : SortedMap SizeT (SortedMap ℤ (SortedSet ν))) : Prop :=
  ∀ (h : SizeT) (fields : SortedMap ℤ (SortedSet ν)), m[h]? = some fields →
    fields ≠ ∅ ∧ ∀ (i : ℤ) (s : SortedSet ν), fields[i]? = some s → s ≠ ∅

variable {m : SortedMap SizeT (SortedMap ℤ (SortedSet ν))}

theorem nothingEmpty_empty :
    NothingEmpty (∅ : SortedMap SizeT (SortedMap ℤ (SortedSet ν))) := by
  intro h fields hrow
  simp at hrow

theorem NothingEmpty.insert (hm : NothingEmpty m) (h : SizeT)
    {fields : SortedMap ℤ (SortedSet ν)} (hne : fields ≠ ∅)
    (hsets : ∀ (i : ℤ) (s : SortedSet ν), fields[i]? = some s → s ≠ ∅) :
    NothingEmpty (m.insert h fields) := by
  intro h' fields' hrow
  rw [ExtTreeMap.getElem?_insert_eq_ite] at hrow
  split_ifs at hrow
  · obtain rfl := Option.some.inj hrow
    exact ⟨hne, hsets⟩
  · exact hm h' fields' hrow

theorem NothingEmpty.erase (hm : NothingEmpty m) (h : SizeT) : NothingEmpty (m.erase h) := by
  intro h' fields' hrow
  rw [ExtTreeMap.getElem?_erase_eq_ite] at hrow
  split_ifs at hrow
  exact hm h' fields' hrow

theorem NothingEmpty.sets (hm : NothingEmpty m) {h : SizeT} {i : ℤ} {s : SortedSet ν}
    (hs : (m.getD h ∅)[i]? = some s) : s ≠ ∅ := by
  rw [ExtTreeMap.getD_eq_getD_getElem?] at hs
  cases hrow : m[h]? with
  | none => simp [hrow] at hs
  | some fields =>
    rw [hrow, Option.getD_some] at hs
    exact (hm h fields hrow).2 i s hs

theorem NothingEmpty.addSlot (hm : NothingEmpty m) (h : SizeT) (i : ℤ) (a : ν) :
    NothingEmpty (addSlot m h i a) := by
  apply hm.insert h
  · exact ExtTreeMap.insert_ne_empty
  · intro j s hs
    rw [ExtTreeMap.addTo, ExtTreeMap.getElem?_insert_eq_ite] at hs
    split_ifs at hs
    · rw [← Option.some.inj hs]
      exact ExtTreeSet.insert_ne_empty
    · exact hm.sets hs

end Nonempty

namespace Mlta

theorem nothingEmpty_eraseSlot {m : SortedMap SizeT (SortedMap ℤ FuncSet)} (hm : NothingEmpty m)
    (F : FuncPtr) (p : HashIdx) : NothingEmpty (eraseSlot m F p) := by
  have hothers : ∀ (i : ℤ) (s : FuncSet),
      ((m.getD p.hash ∅).eraseFrom p.idx F)[i]? = some s → p.idx ≠ i → s ≠ ∅ := by
    intro i s hs hi
    rw [ExtTreeMap.eraseFrom, ExtTreeMap.getElem?_insert_eq_ite, if_neg hi] at hs
    exact hm.sets hs
  unfold eraseSlot
  dsimp only
  split_ifs with hset hrow
  · exact hm.erase _
  · refine hm.insert _ hrow fun i s hs => ?_
    rw [ExtTreeMap.getElem?_erase_eq_ite] at hs
    split_ifs at hs with hi
    exact hothers i s hs hi
  · refine hm.insert _ (fun hempty => hset ?_) fun i s hs => ?_
    · rw [hempty, ExtTreeMap.row_empty]
    · by_cases hi : p.idx = i
      · subst hi
        rwa [ExtTreeMap.row, ExtTreeMap.getD_eq_getD_getElem?, hs, Option.getD_some] at hset
      · exact hothers i s hs hi

/-- The fields of every function are the fields that hold it, and the table of the fields has
no empty set or row. -/
structure Mirrored (m : Mlta) : Prop where
  mirror : ∀ F h i,
    F ∈ slot m.typeIdxFuncsMap h i ↔ (⟨h, i⟩ : HashIdx) ∈ m.funcTypeIdxsMap.row F
  nothingEmpty : NothingEmpty m.typeIdxFuncsMap

theorem Mirrored.congr {m m' : Mlta} (hm : Mirrored m)
    (hslots : m'.typeIdxFuncsMap = m.typeIdxFuncsMap)
    (hrows : m'.funcTypeIdxsMap = m.funcTypeIdxsMap) : Mirrored m' := by
  obtain ⟨hmirror, hempty⟩ := hm
  exact ⟨hslots ▸ hrows ▸ hmirror, hslots ▸ hempty⟩

theorem Mirrored.confine {m : Mlta} (hm : Mirrored m) (h : SizeT) (i : ℤ) (F : FuncPtr) :
    Mirrored (m.confine h i F) := by
  refine ⟨fun G h' i' => ?_, hm.nothingEmpty.addSlot h i F⟩
  simp only [Mlta.confine, mem_slot_addSlot, ExtTreeMap.mem_row_addTo, hm.mirror G h' i',
    HashIdx.mk.injEq]
  tauto

/-- Whatever collecting writes, it writes to both tables. -/
theorem Mirrored.grows {P : FuncPtr → Prop} {m m' : Mlta} (hm : Mirrored m)
    (hgrows : Grows P m m') : Mirrored m' := by
  induction hgrows with
  | refl => exact hm
  | confine h i _ _ ih => exact ih.confine h i _
  | escape hash _ ih => exact ih.congr rfl rfl
  | cap hash _ ih => exact ih.congr rfl rfl
  | propagate h i p _ ih => exact ih.congr rfl rfl
  | aliases a _ ih => exact ih.congr rfl rfl
  | int8 a _ ih => exact ih.congr rfl rfl

theorem Mirrored.invalidateFunction {m : Mlta} (hm : Mirrored m) (F : FuncPtr) :
    Mirrored (m.invalidateFunction F) := by
  constructor
  · intro G h i
    rw [mem_slot_invalidateFunction, mem_row_invalidateFunction, hm.mirror]
    tauto
  · unfold Mlta.invalidateFunction
    cases m.funcTypeIdxsMap[F]? with
    | none => exact hm.nothingEmpty
    | some typeIdxs =>
      exact Fold.foldl_invariant hm.nothingEmpty
        fun t p _ ht => nothingEmpty_eraseSlot ht F p

/-- The calls that write to the two tables; `others` is any change of the other tables. Every
call may see the modules of its own time. -/
inductive TableCall
  | confineTargetFunction (E : Env) (V : ValPtr) (F : FuncPtr)
  | typeConfineInInitializer (E : Env) (GV : ValPtr)
  | invalidateStates (E : Env) (M : ModPtr)
  | others (m : Mlta)

def TableCall.apply (m : Mlta) : TableCall → Mlta
  | .confineTargetFunction E V F => Mlta.confineTargetFunction E m V F
  | .typeConfineInInitializer E GV => Mlta.typeConfineInInitializer E m GV
  | .invalidateStates E M => Mlta.invalidateStates E m M
  | .others m' =>
    { m' with typeIdxFuncsMap := m.typeIdxFuncsMap, funcTypeIdxsMap := m.funcTypeIdxsMap }

/-- A sequence of calls, from two empty tables. -/
def runCalls (m : Mlta) (calls : List TableCall) : Mlta :=
  calls.foldl TableCall.apply { m with typeIdxFuncsMap := ∅, funcTypeIdxsMap := ∅ }

theorem Mirrored.apply {m : Mlta} (hm : Mirrored m) (c : TableCall) : Mirrored (c.apply m) := by
  cases c with
  | confineTargetFunction E V F =>
    exact hm.grows (grows_confineTargetFunction (E := E) (P := fun _ => True) m V trivial)
  | typeConfineInInitializer E GV =>
    exact hm.grows (grows_typeConfineInInitializer (E := E) m rfl)
  | invalidateStates E M =>
    exact Fold.foldl_invariant hm fun m F _ hm => hm.invalidateFunction F
  | others m' => exact hm.congr rfl rfl

theorem mirrored_runCalls (m : Mlta) (calls : List TableCall) : Mirrored (runCalls m calls) := by
  apply Fold.foldl_invariant
  · refine ⟨fun F h i => ?_, nothingEmpty_empty⟩
    simp [slot]
  · exact fun m c _ hm => hm.apply c

/-- Between mirrored tables, invalidating a module removes its functions from every field and
leaves the others in theirs. -/
theorem Mirrored.mem_slot_invalidateStates {m : Mlta} (hm : Mirrored m) (E : Env) (M : ModPtr)
    {F : FuncPtr} {h : SizeT} {i : ℤ} :
    F ∈ slot (invalidateStates E m M).typeIdxFuncsMap h i ↔
      F ∈ slot m.typeIdxFuncsMap h i ∧ F ∉ E.functions M := by
  rw [invalidateStates, mem_slot_invalidateFunctions, hm.mirror]
  tauto

theorem getElem?_invalidateFunction (m : Mlta) (F G : FuncPtr) :
    (m.invalidateFunction F).funcTypeIdxsMap[G]? =
      if F = G then none else m.funcTypeIdxsMap[G]? := by
  unfold Mlta.invalidateFunction
  cases hF : m.funcTypeIdxsMap[F]? with
  | none =>
    split_ifs with hFG
    · rw [← hFG, hF]
    · rfl
  | some typeIdxs => exact ExtTreeMap.getElem?_erase_eq_ite

theorem getElem?_invalidateFunctions (Fs : List FuncPtr) (m : Mlta) (F : FuncPtr) :
    (Fs.foldl Mlta.invalidateFunction m).funcTypeIdxsMap[F]? =
      if F ∈ Fs then none else m.funcTypeIdxsMap[F]? := by
  induction Fs generalizing m with
  | nil => simp
  | cons G Fs ih =>
    rw [List.foldl_cons, ih, getElem?_invalidateFunction]
    by_cases hFG : F = G
    · simp [hFG]
    · simp [hFG, Ne.symm hFG]

/-- Over every sequence of confinements and invalidations the two tables mirror each other and
nothing is empty; invalidating a module then removes its functions from both, and leaves the
functions of other modules where they were. -/
theorem invalidateStates_undoes_confinement (m : Mlta) (calls : List TableCall) :
    (∀ F h i, F ∈ slot (runCalls m calls).typeIdxFuncsMap h i ↔
      (⟨h, i⟩ : HashIdx) ∈ (runCalls m calls).funcTypeIdxsMap.row F) ∧
    NothingEmpty (runCalls m calls).typeIdxFuncsMap ∧
    ∀ E M, (∀ F ∈ E.functions M,
        (∀ h i, F ∉ slot (runCalls m (calls ++ [.invalidateStates E M])).typeIdxFuncsMap h i) ∧
        F ∉ (runCalls m (calls ++ [.invalidateStates E M])).funcTypeIdxsMap) ∧
      ∀ F, F ∉ E.functions M →
        (∀ h i, F ∈ slot (runCalls m (calls ++ [.invalidateStates E M])).typeIdxFuncsMap h i ↔
          F ∈ slot (runCalls m calls).typeIdxFuncsMap h i) ∧
        (runCalls m (calls ++ [.invalidateStates E M])).funcTypeIdxsMap[F]? =
          (runCalls m calls).funcTypeIdxsMap[F]? := by
  have hm := mirrored_runCalls m calls
  refine ⟨hm.mirror, hm.nothingEmpty, fun E M => ?_⟩
  have hlast : runCalls m (calls ++ [.invalidateStates E M]) =
      invalidateStates E (runCalls m calls) M := by
    rw [runCalls, List.foldl_append]
    rfl
  rw [hlast]
  constructor
  · intro F hF
    constructor
    · exact fun h i hslot => ((hm.mem_slot_invalidateStates E M).mp hslot).2 hF
    · intro hkey
      rw [ExtTreeMap.mem_iff_isSome_getElem?, invalidateStates, getElem?_invalidateFunctions,
        if_pos hF] at hkey
      simp at hkey
  · intro F hF
    constructor
    · intro h i
      rw [hm.mem_slot_invalidateStates E M]
      exact and_iff_left hF
    · rw [invalidateStates, getElem?_invalidateFunctions, if_neg hF]

end Mlta

end Cisa

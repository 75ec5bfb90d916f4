import Cisa.CallGraph.Propagation

/-!
# The queue of `getDependentTypes`

The loop reads the propagation table through `operator[]`, which leaves an empty set where
there was none, and it adds to the `PropSet` of the caller. `dependBody` looks at a table
that stays as it is; the loop here writes to its table, and the two go side by side.
-/

namespace Cisa

open Std

/-- The table after `m[h][i]` has been read. -/
def openSlot {ν : Type} [Ord ν] [TransOrd ν] (m : SortedMap SizeT (SortedMap ℤ (SortedSet ν)))
    (h : SizeT) (i : ℤ) : SortedMap SizeT (SortedMap ℤ (SortedSet ν)) :=
  m.insert h ((m.getD h ∅).insert i (slot m h i))

section Entries

variable {ν : Type} [Ord ν] [TransOrd ν]
  {m m' : SortedMap SizeT (SortedMap ℤ (SortedSet ν))} {h h' : SizeT} {i i' : ℤ}

theorem entry_openSlot : entry (openSlot m h i) h' i' =
    if h = h' ∧ i = i' then some (slot m h i) else entry m h' i' := by
  unfold entry openSlot
  by_cases hh : h = h'
  · subst hh
    by_cases hi : i = i'
    · simp [hi]
    · cases hrow : m[h]? with
      | none => simp [hi, hrow, ExtTreeMap.getD_eq_getD_getElem?]
      | some fields =>
        simp [hi, hrow, ExtTreeMap.getD_eq_getD_getElem?, ExtTreeMap.getElem?_insert]
  · simp [hh, ExtTreeMap.getElem?_insert]

/-- Two tables that differ in empty sets only, which the second holds and the first lacks. -/
def EmptyEntriesAdded (m m' : SortedMap SizeT (SortedMap ℤ (SortedSet ν))) : Prop :=
  ∀ h i, entry m' h i = entry m h i ∨ (entry m h i = none ∧ entry m' h i = some ∅)

theorem EmptyEntriesAdded.slot_eq (hm : EmptyEntriesAdded m m') (h : SizeT) (i : ℤ) :
    slot m' h i = slot m h i := by
  rw [slot_eq_getD_entry, slot_eq_getD_entry]
  rcases hm h i with heq | ⟨hnone, hsome⟩
  · rw [heq]
  · simp [hnone, hsome]

theorem EmptyEntriesAdded.openSlot (hm : EmptyEntriesAdded m m') (h : SizeT) (i : ℤ) :
    EmptyEntriesAdded m (openSlot m' h i) := by
  intro h' i'
  rw [entry_openSlot]
  by_cases hat : h = h' ∧ i = i'
  · obtain ⟨rfl, rfl⟩ := hat
    rw [if_pos ⟨rfl, rfl⟩, hm.slot_eq, slot_eq_getD_entry]
    cases entry m h i with
    | none => exact Or.inr ⟨rfl, rfl⟩
    | some s => exact Or.inl rfl
  · rw [if_neg hat]
    exact hm h' i'

end Entries

namespace Mlta

variable (E : Env) (m : Mlta)

/-- The variables of the loop of `getDependentTypes`, with the table it reads. -/
structure DependState where
  typeIdxPropMap : SortedMap SizeT (SortedMap ℤ (SortedSet HashIdx))
  Visited : SortedSet HashIdx := ∅
  PropSet : SortedSet HashIdx

/-- `for (auto Prop : typeIdxPropMap[h][i])`: the set read is added to `PropSet` and queued. -/
def readProps (h : SizeT) (i : ℤ) (r : DependState × List HashIdx) :
    DependState × List HashIdx :=
  let props := (slot r.1.typeIdxPropMap h i).toList
  ({ r.1 with typeIdxPropMap := openSlot r.1.typeIdxPropMap h i
              PropSet := props.foldl (fun s p => s.insert p) r.1.PropSet }, r.2 ++ props)

/-- One iteration of `while (!LT.empty())`. -/
def dependLoopBody (st : DependState) (TI : HashIdx) : DependState × List HashIdx :=
  if TI ∈ st.Visited then (st, [])
  else readProps TI.hash (-1)
    (readProps TI.hash TI.idx ({ st with Visited := st.Visited.insert TI }, []))

/-- The loop of `getDependentTypes` on the table `typeIdxPropMap` and the `PropSet` of the
caller; the budget of `dependBody` suffices. -/
def dependLoop (T : TyPtr) (idx : ℤ) (PropSet : SortedSet HashIdx) : Option DependState :=
  Worklist.run dependLoopBody (dependFuel m ⟨typeHash E m T, idx⟩)
    { typeIdxPropMap := m.typeIdxPropMap, PropSet := PropSet } [⟨typeHash E m T, idx⟩]

/-- What the two loops share: the visited pairs, what is collected, and the slots. -/
def SameProps (st : DependState) (st' : SortedSet HashIdx × SortedSet HashIdx) : Prop :=
  st.Visited = st'.1 ∧ st.PropSet = st'.2 ∧ EmptyEntriesAdded m.typeIdxPropMap st.typeIdxPropMap

variable {m}

theorem dependLoopBody_simulates {st : DependState} {st' : SortedSet HashIdx × SortedSet HashIdx}
    (TI : HashIdx) (h : SameProps m st st') :
    (dependLoopBody st TI).2 = (dependBody m st' TI).2 ∧
      SameProps m (dependLoopBody st TI).1 (dependBody m st' TI).1 := by
  obtain ⟨hvis, hprop, htable⟩ := h
  have hopen := htable.openSlot TI.hash TI.idx
  by_cases hold : TI ∈ st.Visited
  · rw [dependLoopBody, dependBody, if_pos hold, if_pos (hvis ▸ hold)]
    exact ⟨rfl, hvis, hprop, htable⟩
  · rw [dependLoopBody, dependBody, if_neg hold, if_neg (hvis ▸ hold)]
    simp only [readProps, hvis, hprop, htable.slot_eq, hopen.slot_eq, List.nil_append,
      List.foldl_append]
    exact ⟨trivial, rfl, rfl, hopen.openSlot _ _⟩

/-- Every run of the loop goes side by side with the run of `dependBody`. -/
theorem dependLoop_simulates (T : TyPtr) (idx : ℤ) (PropSet : SortedSet HashIdx) :
    ∃ st st', dependLoop E m T idx PropSet = some st ∧ SameProps m st st' ∧
      Worklist.run (dependBody m) (dependFuel m ⟨typeHash E m T, idx⟩) (∅, PropSet)
        [⟨typeHash E m T, idx⟩] = some st' := by
  obtain ⟨st', hrun⟩ := Option.isSome_iff_exists.mp
    (dependRun_isSome_from m ⟨typeHash E m T, idx⟩ PropSet)
  have hstart : SameProps m { typeIdxPropMap := m.typeIdxPropMap, PropSet := PropSet }
      (∅, PropSet) := ⟨rfl, rfl, fun h i => Or.inl rfl⟩
  obtain ⟨st, hloop, hsame⟩ := Worklist.run_simulates dependLoopBody
    (fun st st' TI h => dependLoopBody_simulates TI h) hstart hrun
  exact ⟨st, st', hloop, hsame, hrun⟩

theorem dependLoop_empty (T : TyPtr) (idx : ℤ) :
    (dependLoop E m T idx ∅).map DependState.PropSet = some (getDependentTypes E m T idx) := by
  obtain ⟨st, st', hloop, ⟨_, hprop, _⟩, hrun⟩ := dependLoop_simulates E (m := m) T idx ∅
  rw [hloop, Option.map_some, hprop, getDependentTypes]
  simp only [hrun, Option.get_some]

/-- The queue is emptied on every table, cyclic propagation included; `PropSet` gains what
the pair reaches in one step or more, and the table gains empty sets only. -/
theorem dependLoop_computes_closure (T : TyPtr) (idx : ℤ) (PropSet : SortedSet HashIdx) :
    ∃ st, dependLoop E m T idx PropSet = some st ∧
      (∀ p, p ∈ st.PropSet ↔
        p ∈ PropSet ∨ Relation.TransGen (Propagates m) ⟨typeHash E m T, idx⟩ p) ∧
      EmptyEntriesAdded m.typeIdxPropMap st.typeIdxPropMap := by
  obtain ⟨st, st', hloop, ⟨_, hprop, htable⟩, hrun⟩ := dependLoop_simulates E (m := m) T idx PropSet
  refine ⟨st, hloop, fun p => ?_, htable⟩
  rw [hprop]
  exact mem_dependRun hrun

end Mlta

end Cisa

import Cisa.CallGraph.Searches

/-!
# What propagates to a layer

`getDependentTypes` collects the pairs from which a layer is reached along the propagation
table. A pair with a field index is propagated to by what is recorded for the field and by
what is recorded for all fields; a pair with index `-1` only by the latter, although it
stands for every field.
-/

namespace Cisa

open Std

namespace Mlta

variable (E : Env) (m : Mlta)

def Propagates (p q : HashIdx) : Prop :=
  q ∈ slot m.typeIdxPropMap p.hash p.idx ∨ q ∈ slot m.typeIdxPropMap p.hash (-1)

/-- The functions that `getTargetsWithLayerType` collects for a pair, into an empty set. -/
def direct (p : HashIdx) : Set FuncPtr := {F | F ∈ getTargetsWithLayerType m p.hash p.idx ∅}

/-- The target set of a layer: what is collected for it, and for every pair that
`getDependentTypes` returns. -/
def targetSet (TI : TypeIdx) : Set FuncPtr :=
  direct m (pairOf E m TI) ∪ ⋃ p ∈ {p | p ∈ getDependentTypes E m TI.1 TI.2}, direct m p

variable {E m} {T : TyPtr} {idx : ℤ} {F : FuncPtr}

theorem mem_direct {p : HashIdx} : F ∈ direct m p ↔ Recorded m p F := by
  simp [direct, mem_getTargetsWithLayerType]

/-- Index `-1` unites the sets of all fields; any other index has its own set and that of
`-1`. -/
theorem mem_direct_iff {p : HashIdx} : F ∈ direct m p ↔
    if p.idx = -1 then ∃ i, F ∈ slot m.typeIdxFuncsMap p.hash i
    else F ∈ slot m.typeIdxFuncsMap p.hash p.idx ∨ F ∈ slot m.typeIdxFuncsMap p.hash (-1) := by
  rw [mem_direct, Recorded]
  split_ifs with hidx
  · rw [hidx]
    constructor
    · intro h
      rcases h with h | h | h
      · exact ⟨_, h⟩
      · exact ⟨_, h⟩
      · exact h.2
    · exact fun h => Or.inr (Or.inr ⟨rfl, h⟩)
  · simp [hidx]

theorem mem_targetSet {TI : TypeIdx} : F ∈ targetSet E m TI ↔ LayerTarget E m TI F := by
  simp [targetSet, LayerTarget, mem_direct]

/-- The queue adds to `PropSet` what it reaches in one step or more. -/
theorem mem_dependRun {n : ℕ} {start p : HashIdx} {PropSet : SortedSet HashIdx}
    {st : SortedSet HashIdx × SortedSet HashIdx}
    (hrun : Worklist.run (dependBody m) n (∅, PropSet) [start] = some st) :
    p ∈ st.2 ↔ p ∈ PropSet ∨ Relation.TransGen (Propagates m) start p := by
  have hcollect : Worklist.run (Worklist.collectBody fun TI =>
      (slot m.typeIdxPropMap TI.hash TI.idx).toList ++ (slot m.typeIdxPropMap TI.hash (-1)).toList)
      n (∅, PropSet) [start] = some st := hrun
  have hstep : (fun x y : HashIdx => y ∈ (slot m.typeIdxPropMap x.hash x.idx).toList ++
      (slot m.typeIdxPropMap x.hash (-1)).toList) = Propagates m := by
    funext x y
    simp [Propagates]
  rw [Worklist.mem_run_collect _ hcollect, hstep]

theorem mem_getDependentTypes {p : HashIdx} : p ∈ getDependentTypes E m T idx ↔
    Relation.TransGen (Propagates m) ⟨typeHash E m T, idx⟩ p := by
  have hrun := (Option.some_get (dependRun_isSome m ⟨typeHash E m T, idx⟩)).symm
  rw [getDependentTypes, mem_dependRun hrun]
  simp

/-- A function recorded for a pair, or for one that propagates to it. -/
def CarriedTo (m : Mlta) (p : HashIdx) (F : FuncPtr) : Prop :=
  ∃ q, Relation.ReflTransGen (Propagates m) p q ∧ Recorded m q F

theorem mem_targetSet_iff_carried : F ∈ targetSet E m (T, idx) ↔
    CarriedTo m ⟨typeHash E m T, idx⟩ F := by
  rw [mem_targetSet]
  simp only [LayerTarget, mem_getDependentTypes]
  constructor
  · intro h
    rcases h with h | ⟨p, hp, h⟩
    · exact ⟨_, Relation.ReflTransGen.refl, h⟩
    · exact ⟨p, hp.to_reflTransGen, h⟩
  · intro h
    obtain ⟨q, hq, h⟩ := h
    rcases Relation.reflTransGen_iff_eq_or_transGen.mp hq with rfl | hq
    · exact Or.inl h
    · exact Or.inr ⟨q, hq, h⟩

theorem carriedTo_iff {p : HashIdx} : CarriedTo m p F ↔
    Recorded m p F ∨ ∃ q, Propagates m p q ∧ CarriedTo m q F := by
  constructor
  · intro h
    obtain ⟨r, hr, hF⟩ := h
    rcases Relation.ReflTransGen.cases_head hr with rfl | ⟨q, hpq, hqr⟩
    · exact Or.inl hF
    · exact Or.inr ⟨q, hpq, r, hqr, hF⟩
  · intro h
    rcases h with hF | ⟨q, hpq, r, hqr, hF⟩
    · exact ⟨p, Relation.ReflTransGen.refl, hF⟩
    · exact ⟨r, Relation.ReflTransGen.head hpq hqr, hF⟩

theorem Recorded.wildcard {hash : SizeT} {k : ℤ} (h : Recorded m ⟨hash, k⟩ F) :
    Recorded m ⟨hash, -1⟩ F := by
  refine Or.inr (Or.inr ⟨rfl, ?_⟩)
  rcases h with h | h | h
  · exact ⟨_, h⟩
  · exact ⟨_, h⟩
  · exact h.2

/-- The target set of `(T, -1)` contains that of `(T, k)` exactly when it contains what comes
through the pairs that propagate to the field `k` alone: the fields of a type are united for
the functions recorded, not for the pairs that propagate. -/
theorem targetSet_wildcard_iff (T : TyPtr) (k : ℤ) :
    targetSet E m (T, k) ⊆ targetSet E m (T, -1) ↔
      ∀ p ∈ slot m.typeIdxPropMap (typeHash E m T) k, ∀ q,
        Relation.ReflTransGen (Propagates m) p q → ∀ F, Recorded m q F →
          (∃ i, F ∈ slot m.typeIdxFuncsMap (typeHash E m T) i) ∨
          ∃ p' ∈ slot m.typeIdxPropMap (typeHash E m T) (-1), ∃ q',
            Relation.ReflTransGen (Propagates m) p' q' ∧ Recorded m q' F := by
  have hwild : ∀ F, F ∈ targetSet E m (T, -1) ↔
      (∃ i, F ∈ slot m.typeIdxFuncsMap (typeHash E m T) i) ∨
      ∃ p' ∈ slot m.typeIdxPropMap (typeHash E m T) (-1), CarriedTo m p' F := by
    intro F
    rw [mem_targetSet_iff_carried, carriedTo_iff, ← mem_direct, mem_direct_iff, if_pos rfl]
    simp [Propagates]
  constructor
  · intro h p hp q hpq F hF
    apply (hwild F).mp
    apply h
    rw [mem_targetSet_iff_carried, carriedTo_iff]
    exact Or.inr ⟨p, Or.inl hp, q, hpq, hF⟩
  · intro h F hF
    rw [mem_targetSet_iff_carried, carriedTo_iff] at hF
    rcases hF with hF | ⟨p, hp | hp, hF⟩
    · rw [mem_targetSet_iff_carried, carriedTo_iff]
      exact Or.inl hF.wildcard
    · obtain ⟨q, hpq, hF⟩ := hF
      exact (hwild F).mpr (h p hp q hpq F hF)
    · exact (hwild F).mpr (Or.inr ⟨p, hp, hF⟩)

theorem not_mem_targetSet {TI : TypeIdx} (hprop : (getDependentTypes E m TI.1 TI.2).toList = [])
    (hown : (getTargetsWithLayerType m (typeHash E m TI.1) TI.2 ∅).contains F = false) :
    F ∉ targetSet E m TI := by
  intro hF
  rcases hF with hF | hF
  · have hmem := ExtTreeSet.mem_iff_contains.mp hF
    simp [pairOf, hown] at hmem
  · obtain ⟨p, hp, _⟩ := Set.mem_iUnion₂.mp hF
    have hmem := ExtTreeSet.mem_toList.mpr hp
    simp [hprop] at hmem

/-- A field of one type is copied to field 0 of another, which holds nothing itself. -/
def copiedField : Mlta where
  typeIdxFuncsMap := addSlot ∅ 1 0 ⟨0, 0⟩
  typeIdxPropMap := addSlot ∅ (typeHash (Env.ofModules []) {} ⟨0, 0⟩) 0 ⟨1, 0⟩

theorem targetSet_wildcard_misses :
    ¬ targetSet (Env.ofModules []) copiedField (⟨0, 0⟩, 0) ⊆
      targetSet (Env.ofModules []) copiedField (⟨0, 0⟩, -1) := by
  intro h
  have hfield : (⟨0, 0⟩ : FuncPtr) ∈ targetSet (Env.ofModules []) copiedField (⟨0, 0⟩, 0) := by
    apply mem_targetSet.mpr
    refine Or.inr ⟨⟨1, 0⟩, ExtTreeSet.mem_iff_contains.mpr (by decide), Or.inl ?_⟩
    exact ExtTreeSet.mem_iff_contains.mpr (by decide)
  exact not_mem_targetSet (by decide) (by decide) (h hfield)

end Mlta

end Cisa

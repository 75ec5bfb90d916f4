import Cisa.Ancestors

/-!
# Tags of functions

What every analyzer inherits: a map from functions to sets of tags for each of its
kinds of tags.
-/

namespace Cisa

open Std

abbrev RelSet := SortedSet String

abbrev AnalyzerReturn := SortedMap String RelSet

/-- `Analyzer<T, N>`. -/
structure Analyzer (T : Type) [Ord T] (N : ℕ) where
  tags : Fin N → SortedMap FuncPtr (SortedSet T) := fun _ => ∅

namespace Analyzer

variable {T : Type} [Ord T] [TransOrd T] [LawfulEqOrd T] {N : ℕ} (A : Analyzer T N)

def getTags (F : FuncPtr) (idx : ℕ) : SortedSet T :=
  if h : idx < N then (A.tags ⟨idx, h⟩).row F else ∅

def addTag (tag : T) (F : FuncPtr) (idx : ℕ) : Analyzer T N :=
  if h : idx < N then
    { tags := Function.update A.tags ⟨idx, h⟩ ((A.tags ⟨idx, h⟩).addTo F tag) }
  else A

/-- Move the tags of `PreF` to `PostF`. -/
def move (PreF PostF : FuncPtr) : Analyzer T N where
  tags i := ((A.tags i).insert PostF ((A.tags i).row PreF)).erase PreF

/-- Remove the tags attached to `F`. -/
def remove (F : FuncPtr) : Analyzer T N where
  tags i := (A.tags i).erase F

theorem mem_getTags_addTag {tag t : T} {F G : FuncPtr} {idx k : ℕ} :
    t ∈ (A.addTag tag F idx).getTags G k ↔
      (idx = k ∧ k < N ∧ F = G ∧ tag = t) ∨ t ∈ A.getTags G k := by
  unfold addTag
  by_cases hidx : idx < N
  · rw [dif_pos hidx]
    unfold getTags
    by_cases hk : k < N
    · by_cases heq : idx = k
      · subst heq
        simp [hk]
      · have hne : (⟨k, hk⟩ : Fin N) ≠ ⟨idx, hidx⟩ := by
          simpa using fun h => heq h.symm
        simp [hk, heq, Function.update_of_ne hne]
    · simp [hk]
  · rw [dif_neg hidx]
    have hno : ¬ (idx = k ∧ k < N ∧ F = G ∧ tag = t) := by omega
    simp [hno]

theorem getTags_move {P Q F : FuncPtr} {k : ℕ} :
    (A.move P Q).getTags F k =
      if P = F then ∅ else if Q = F then A.getTags P k else A.getTags F k := by
  unfold getTags move
  by_cases hk : k < N
  · simp only [hk, dif_pos]
    rw [ExtTreeMap.row_erase, ExtTreeMap.row_insert]
  · simp [hk]

theorem getTags_remove {F G : FuncPtr} {k : ℕ} :
    (A.remove F).getTags G k = if F = G then ∅ else A.getTags G k := by
  unfold getTags remove
  by_cases hk : k < N
  · simp only [hk, dif_pos]
    exact ExtTreeMap.row_erase
  · simp [hk]

end Analyzer

end Cisa

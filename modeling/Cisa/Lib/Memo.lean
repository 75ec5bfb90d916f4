import Mathlib.Tactic

/-!
# Memo tables of sets

A table memoises the rows of a relation that changes over time: a row that is empty is
computed when it is asked for, any other row is taken as it is. `Right` says that the
rows that are there are the rows of the relation; the rules say when a step that clears
some rows, or fills some, keeps it.
-/

namespace Memo

variable {κ α : Type*}

/-- Every row that is not empty is the row of the relation. -/
def Right (row spec : κ → α → Prop) : Prop := ∀ k a, row k a → ∀ b, row k b ↔ spec k b

variable {row row' spec spec' : κ → α → Prop}

theorem right_empty (h : ∀ k a, ¬ row k a) : Right row spec := fun k a ha => absurd ha (h k a)

/-- A row that is taken as it is, or else computed, is the row of the relation. -/
theorem Right.lookup (h : Right row spec) {k : κ} {p : α → Prop}
    (hp : ((∃ a, row k a) ∧ ∀ b, p b ↔ row k b) ∨ ∀ b, p b ↔ spec k b) (b : α) :
    p b ↔ spec k b := by
  rcases hp with ⟨⟨a, ha⟩, hrow⟩ | hspec
  · rw [hrow, h k a ha]
  · exact hspec b

/-- A step that clears some rows keeps the table right exactly when the relation keeps the
other rows that are there. -/
theorem Right.step_iff (h : Right row spec) {cleared : κ → Prop}
    (hrow : ∀ k a, row' k a ↔ ¬ cleared k ∧ row k a) :
    Right row' spec' ↔ ∀ k a, row k a → ¬ cleared k → ∀ b, spec' k b ↔ spec k b := by
  constructor
  · intro h' k a ha hk b
    rw [← h k a ha b, ← h' k a ((hrow k a).mpr ⟨hk, ha⟩) b, hrow]
    simp [hk]
  · intro hspec k a ha b
    obtain ⟨hk, ha⟩ := (hrow k a).mp ha
    rw [hspec k a ha hk b, ← h k a ha b, hrow]
    simp [hk]

/-- A step that computes some rows keeps the table right. -/
theorem Right.fill (h : Right row spec)
    (hrow : ∀ k, (∀ a, row' k a ↔ row k a) ∨ ∀ a, row' k a ↔ spec k a) : Right row' spec := by
  intro k a ha b
  rcases hrow k with hk | hk
  · rw [hk, h k a ((hk a).mp ha)]
  · exact hk b

end Memo

import Mathlib.Tactic

/-!
# Loops over a list that update a state

`for (x : xs) s = f(s, x)`. `foldl_invariant` is the induction over the iterations and
`foldl_frame` carries what none of them changes; `foldl_of_mem` and `foldl_once` say what one
iteration achieves; `foldl_or` and `foldl_and` compute a fact about the final state when an
iteration can only establish it, or only destroy it. `I` is what the iterations may rely on.
-/

namespace Fold

variable {σ α β : Type*} {f : σ → α → σ}

theorem foldl_invariant {I : σ → Prop} {l : List α} {s : σ} (h0 : I s)
    (h : ∀ s, ∀ x ∈ l, I s → I (f s x)) : I (l.foldl f s) :=
  List.foldlRecOn l f h0 fun t ht x hx => h t x hx ht

theorem foldl_frame {p : σ → β} (h : ∀ s x, p (f s x) = p s) (xs : List α) (s : σ) :
    p (xs.foldl f s) = p s :=
  foldl_invariant (I := fun t => p t = p s) rfl fun t x _ ht => (h t x).trans ht

theorem foldlM_invariant {g : σ → α → Option σ} {I : σ → Prop} {l : List α} {s s' : σ} (h0 : I s)
    (h : ∀ s s', ∀ x ∈ l, I s → g s x = some s' → I s') (hrun : l.foldlM g s = some s') : I s' := by
  induction l generalizing s with
  | nil =>
    obtain rfl := Option.some.inj hrun
    exact h0
  | cons x xs ih =>
    rw [List.foldlM_cons] at hrun
    obtain ⟨t, ht, hrest⟩ := Option.bind_eq_some_iff.mp hrun
    apply ih
    · exact h s t x List.mem_cons_self h0 ht
    · exact fun u u' y hy => h u u' y (List.mem_cons_of_mem _ hy)
    · exact hrest

theorem foldlM_isSome {g : σ → α → Option σ} {l : List α} (h : ∀ x ∈ l, ∀ s, (g s x).isSome)
    (s : σ) : (l.foldlM g s).isSome := by
  induction l generalizing s with
  | nil => rfl
  | cons x xs ih =>
    obtain ⟨t, ht⟩ := Option.isSome_iff_exists.mp (h x List.mem_cons_self s)
    rw [List.foldlM_cons, ht]
    exact ih (fun y hy => h y (List.mem_cons_of_mem _ hy)) t

theorem exists_of_foldlM {g : σ → α → Option σ} {l : List α} {s s' : σ}
    (hrun : l.foldlM g s = some s') : ∀ x ∈ l, ∃ t t', g t x = some t' := by
  induction l generalizing s with
  | nil => simp
  | cons x xs ih =>
    rw [List.foldlM_cons] at hrun
    obtain ⟨t, ht, hrest⟩ := Option.bind_eq_some_iff.mp hrun
    exact List.forall_mem_cons.mpr ⟨⟨s, t, ht⟩, ih hrest⟩

/-- What the iteration for `x` establishes and no iteration destroys. -/
theorem foldl_of_mem {I P : σ → Prop} {xs : List α} {s : σ} {x : α} (hx : x ∈ xs) (h0 : I s)
    (hI : ∀ s, ∀ y ∈ xs, I s → I (f s y)) (hP : ∀ s, ∀ y ∈ xs, I s → P s → P (f s y))
    (hit : ∀ s, I s → P (f s x)) : P (xs.foldl f s) := by
  induction xs generalizing s with
  | nil => simp at hx
  | cons y ys ih =>
    have hIy := hI s y List.mem_cons_self h0
    have hI' : ∀ s, ∀ z ∈ ys, I s → I (f s z) := fun s z hz => hI s z (List.mem_cons_of_mem _ hz)
    have hP' : ∀ s, ∀ z ∈ ys, I s → P s → P (f s z) :=
      fun s z hz => hP s z (List.mem_cons_of_mem _ hz)
    rw [List.foldl_cons]
    rcases List.mem_cons.mp hx with rfl | hx
    · have h := foldl_invariant (I := fun s => I s ∧ P s) (l := ys) ⟨hIy, hit s h0⟩
        fun s z hz h => ⟨hI' s z hz h.1, hP' s z hz h.1 h.2⟩
      exact h.2
    · exact ih hx hIy hI' hP'

/-- What the one iteration for `x` establishes and the other elements leave alone. -/
theorem foldl_once {I P : σ → Prop} {xs : List α} {s : σ} {x : α} (hnodup : xs.Nodup)
    (hx : x ∈ xs) (h0 : I s) (hI : ∀ s, ∀ y ∈ xs, y ≠ x → I s → I (f s y))
    (hP : ∀ s, ∀ y ∈ xs, y ≠ x → P s → P (f s y)) (hit : ∀ s, I s → P (f s x)) :
    P (xs.foldl f s) := by
  induction xs generalizing s with
  | nil => simp at hx
  | cons y ys ih =>
    obtain ⟨hy, hys⟩ := List.nodup_cons.mp hnodup
    rw [List.foldl_cons]
    by_cases heq : y = x
    · subst heq
      apply foldl_invariant (hit s h0)
      intro t z hz
      exact hP t z (List.mem_cons_of_mem _ hz) fun h => hy (h ▸ hz)
    · have hx' : x ∈ ys := (List.mem_cons.mp hx).resolve_left (Ne.symm heq)
      apply ih hys hx'
      · exact hI s y List.mem_cons_self heq h0
      · exact fun t z hz => hI t z (List.mem_cons_of_mem _ hz)
      · exact fun t z hz => hP t z (List.mem_cons_of_mem _ hz)

theorem foldl_or_of {I P : σ → Prop} {Q : α → Prop} {xs : List α} {s : σ} (h0 : I s)
    (h : ∀ s, ∀ x ∈ xs, I s → I (f s x) ∧ (P (f s x) ↔ P s ∨ Q x)) :
    P (xs.foldl f s) ↔ P s ∨ ∃ x ∈ xs, Q x := by
  induction xs generalizing s with
  | nil => simp
  | cons x xs ih =>
    obtain ⟨hI, hP⟩ := h s x List.mem_cons_self h0
    rw [List.foldl_cons, ih hI fun t y hy => h t y (List.mem_cons_of_mem _ hy), hP]
    simp only [List.mem_cons, exists_eq_or_imp]
    tauto

theorem foldl_and_of {I P : σ → Prop} {R : α → Prop} {xs : List α} {s : σ} (h0 : I s)
    (h : ∀ s, ∀ x ∈ xs, I s → I (f s x) ∧ (P (f s x) ↔ P s ∧ R x)) :
    P (xs.foldl f s) ↔ P s ∧ ∀ x ∈ xs, R x := by
  induction xs generalizing s with
  | nil => simp
  | cons x xs ih =>
    obtain ⟨hI, hP⟩ := h s x List.mem_cons_self h0
    rw [List.foldl_cons, ih hI fun t y hy => h t y (List.mem_cons_of_mem _ hy), hP]
    simp only [List.mem_cons, forall_eq_or_imp]
    tauto

theorem foldl_or {P : σ → Prop} {Q : α → Prop} (h : ∀ s x, P (f s x) ↔ P s ∨ Q x) (xs : List α)
    (s : σ) : P (xs.foldl f s) ↔ P s ∨ ∃ x ∈ xs, Q x :=
  foldl_or_of (I := fun _ => True) trivial fun s x _ _ => ⟨trivial, h s x⟩

theorem foldl_and {P : σ → Prop} {R : α → Prop} (h : ∀ s x, P (f s x) ↔ P s ∧ R x) (xs : List α)
    (s : σ) : P (xs.foldl f s) ↔ P s ∧ ∀ x ∈ xs, R x :=
  foldl_and_of (I := fun _ => True) trivial fun s x _ _ => ⟨trivial, h s x⟩

end Fold

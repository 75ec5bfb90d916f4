import Mathlib.Tactic

/-!
# Lists with marked entries

Entries are numbered from a start on. `marked` lists the marked entries with their numbers,
`unmarked` the others, and `without` takes the entries with given numbers out of a list.
-/

namespace Marked

variable {α : Type*}

def marked : ℕ → List (α × Bool) → List (α × ℕ)
  | _, [] => []
  | s, (a, true) :: xs => (a, s) :: marked (s + 1) xs
  | s, (_, false) :: xs => marked (s + 1) xs

def unmarked (xs : List (α × Bool)) : List α := (xs.filter fun x => !x.2).map Prod.fst

/-- The entries of a list, numbered from `s` on, whose numbers are not listed. -/
def without (numbers : List ℕ) (s : ℕ) (as : List α) : List α :=
  ((as.zipIdx s).filter fun x => x.2 ∉ numbers).map Prod.fst

variable {s n : ℕ} {a : α} {xs ys : List (α × Bool)}

theorem marked_append (s : ℕ) (xs ys : List (α × Bool)) :
    marked s (xs ++ ys) = marked s xs ++ marked (s + xs.length) ys := by
  induction xs generalizing s with
  | nil => rfl
  | cons x xs ih =>
    obtain ⟨a, b⟩ := x
    have hlength : s + 1 + xs.length = s + (xs.length + 1) := by omega
    cases b with
    | false => rw [List.cons_append, marked, marked, ih, hlength, List.length_cons]
    | true =>
      rw [List.cons_append, marked, marked, ih, hlength, List.length_cons, List.cons_append]

theorem unmarked_append (xs ys : List (α × Bool)) :
    unmarked (xs ++ ys) = unmarked xs ++ unmarked ys := by
  unfold unmarked
  rw [List.filter_append, List.map_append]

@[simp] theorem marked_map_false (s : ℕ) (as : List α) :
    marked s (as.map fun a => (a, false)) = [] := by
  induction as generalizing s with
  | nil => rfl
  | cons a as ih => exact ih (s + 1)

@[simp] theorem map_fst_map_false (as : List α) :
    (as.map fun a => (a, false)).map Prod.fst = as := by
  rw [List.map_map]
  exact List.map_id as

@[simp] theorem unmarked_map_false (as : List α) :
    unmarked (as.map fun a => (a, false)) = as := by
  induction as with
  | nil => rfl
  | cons a as ih => exact congrArg (a :: ·) ih

theorem getElem?_of_mem_marked (h : (a, n) ∈ marked s xs) :
    s ≤ n ∧ (xs.map Prod.fst)[n - s]? = some a := by
  induction xs generalizing s with
  | nil => cases h
  | cons x xs ih =>
    obtain ⟨a', b⟩ := x
    have htail : (a, n) ∈ marked (s + 1) xs →
        s ≤ n ∧ (((a', b) :: xs).map Prod.fst)[n - s]? = some a := by
      intro h
      obtain ⟨hle, hget⟩ := ih h
      have hn : n - s = n - (s + 1) + 1 := by omega
      refine ⟨by omega, ?_⟩
      rw [hn, List.map_cons, List.getElem?_cons_succ]
      exact hget
    cases b with
    | false => exact htail h
    | true =>
      rcases List.mem_cons.mp h with h | h
      · obtain ⟨rfl, rfl⟩ := Prod.mk.inj h
        simp
      · exact htail h

theorem marked_pairwise (s : ℕ) (xs : List (α × Bool)) :
    ((marked s xs).map Prod.snd).Pairwise (· < ·) := by
  induction xs generalizing s with
  | nil => exact List.Pairwise.nil
  | cons x xs ih =>
    obtain ⟨a, b⟩ := x
    cases b with
    | false => exact ih (s + 1)
    | true =>
      rw [marked, List.map_cons]
      refine List.Pairwise.cons (fun n hn => ?_) (ih (s + 1))
      obtain ⟨x, hx, rfl⟩ := List.mem_map.mp hn
      have hle := (getElem?_of_mem_marked (a := x.1) (n := x.2) hx).1
      omega

theorem without_cons (numbers : List ℕ) (s : ℕ) (a : α) (as : List α) :
    without numbers s (a :: as) =
      if s ∈ numbers then without numbers (s + 1) as else a :: without numbers (s + 1) as := by
  unfold without
  rw [List.zipIdx_cons, List.filter_cons]
  by_cases h : s ∈ numbers <;> simp [h]

theorem without_lower (numbers : List ℕ) (h : n < s) (as : List α) :
    without (n :: numbers) s as = without numbers s as := by
  unfold without
  congr 1
  apply List.filter_congr
  intro x hx
  have hle := (List.mem_zipIdx hx).1
  have hne : x.2 ≠ n := by omega
  simp [hne]

/-- Without the marked entries, the unmarked ones are left. -/
theorem without_marked (s : ℕ) (xs : List (α × Bool)) :
    without ((marked s xs).map Prod.snd) s (xs.map Prod.fst) = unmarked xs := by
  induction xs generalizing s with
  | nil => rfl
  | cons x xs ih =>
    obtain ⟨a, b⟩ := x
    rw [List.map_cons, without_cons]
    cases b with
    | false =>
      have hlower : s ∉ (marked (s + 1) xs).map Prod.snd := by
        intro hs
        obtain ⟨x, hx, hxs⟩ := List.mem_map.mp hs
        have hle := (getElem?_of_mem_marked (a := x.1) (n := x.2) hx).1
        omega
      rw [marked, if_neg hlower, ih]
      rfl
    | true =>
      rw [marked, List.map_cons, if_pos List.mem_cons_self, without_lower _ (by omega), ih]
      rfl

end Marked

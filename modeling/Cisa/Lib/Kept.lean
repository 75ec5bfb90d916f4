import Mathlib.Tactic

/-!
# Numbers outside a list

`kept D a b` counts the integers in `(a, b]` that are not in `D`. Seen from a fixed
start, the count numbers the integers outside `D` in ascending order.
-/

namespace Kept

/-- How many integers in `(a, b]` are not in `D`. -/
noncomputable def kept (D : List ℤ) (a b : ℤ) : ℤ := ((Finset.Ioc a b).filter (· ∉ D)).card

variable {D : List ℤ} {a b c : ℤ}

theorem kept_nonneg : 0 ≤ kept D a b := Int.natCast_nonneg _

theorem kept_add (hab : a ≤ b) (hbc : b ≤ c) : kept D a c = kept D a b + kept D b c := by
  have hunion : (Finset.Ioc a c).filter (· ∉ D) =
      (Finset.Ioc a b).filter (· ∉ D) ∪ (Finset.Ioc b c).filter (· ∉ D) := by
    rw [← Finset.filter_union, Finset.Ioc_union_Ioc_eq_Ioc hab hbc]
  have hdisj : Disjoint ((Finset.Ioc a b).filter (· ∉ D)) ((Finset.Ioc b c).filter (· ∉ D)) := by
    apply Finset.disjoint_filter_filter
    rw [Finset.disjoint_left]
    intro x hx hx'
    have := (Finset.mem_Ioc.mp hx).2
    have := (Finset.mem_Ioc.mp hx').1
    omega
  rw [kept, hunion, Finset.card_union_of_disjoint hdisj]
  push_cast
  rfl

theorem kept_eq_sub (hab : a ≤ b) (h : ∀ x ∈ D, ¬ (a < x ∧ x ≤ b)) : kept D a b = b - a := by
  have hall : (Finset.Ioc a b).filter (· ∉ D) = Finset.Ioc a b := by
    apply Finset.filter_true_of_mem
    intro x hx hD
    exact h x hD (Finset.mem_Ioc.mp hx)
  rw [kept, hall, Int.card_Ioc, Int.toNat_of_nonneg (by omega)]

theorem kept_succ (hab : a < b) : kept D a b = kept D a (b - 1) + if b ∈ D then 0 else 1 := by
  rw [kept_add (b := b - 1) (by omega) (by omega)]
  congr 1
  have hsingle : Finset.Ioc (b - 1) b = {b} := by
    ext x
    rw [Finset.mem_Ioc, Finset.mem_singleton]
    omega
  rw [kept, hsingle, Finset.filter_singleton]
  by_cases hb : b ∈ D
  · simp [hb]
  · simp [hb]

theorem kept_congr {D' : List ℤ} (h : ∀ x, a < x → x ≤ b → (x ∈ D ↔ x ∈ D')) :
    kept D a b = kept D' a b := by
  have hfilter : (Finset.Ioc a b).filter (· ∉ D) = (Finset.Ioc a b).filter (· ∉ D') := by
    apply Finset.filter_congr
    intro x hx
    rw [h x (Finset.mem_Ioc.mp hx).1 (Finset.mem_Ioc.mp hx).2]
  rw [kept, hfilter, kept]

theorem kept_cons {d : ℤ} (hd : ∀ x ∈ D, d < x) (had : a < d) (hdb : d ≤ b) :
    kept (d :: D) a b = d - 1 - a + kept D d b := by
  have hbefore : kept (d :: D) a (d - 1) = d - 1 - a := by
    apply kept_eq_sub (by omega)
    intro x hx hbetween
    rcases List.mem_cons.mp hx with rfl | hx
    · omega
    · have := hd x hx
      omega
  have hafter : kept (d :: D) d b = kept D d b := by
    apply kept_congr
    intro x hx _
    rw [List.mem_cons]
    constructor
    · intro h
      rcases h with rfl | h
      · omega
      · exact h
    · exact Or.inr
  rw [kept_add had.le hdb, kept_succ had, if_pos List.mem_cons_self, hbefore, hafter, add_zero]

theorem kept_lt_kept (hab : a ≤ b) (hbc : b < c) (hc : c ∉ D) : kept D a b < kept D a c := by
  have hstep := kept_succ (D := D) (a := b) hbc
  rw [if_neg hc] at hstep
  have hnonneg := kept_nonneg (D := D) (a := b) (b := c - 1)
  rw [kept_add hab hbc.le]
  omega

theorem strictMonoOn_kept : StrictMonoOn (kept D a) {x | a < x ∧ x ∉ D} := by
  intro x hx y hy hxy
  exact kept_lt_kept hx.1.le hxy hy.2

theorem kept_pos (hab : a < b) (hb : b ∉ D) : 0 < kept D a b := by
  have h := kept_lt_kept (D := D) le_rfl hab hb
  have hnonneg := kept_nonneg (D := D) (a := a) (b := a)
  omega

/-- Numbers outside `D` are determined by their count. -/
theorem eq_of_kept_eq (hb : a < b) (hc : a < c) (hbD : b ∉ D) (hcD : c ∉ D)
    (h : kept D a b = kept D a c) : b = c :=
  strictMonoOn_kept.injOn ⟨hb, hbD⟩ ⟨hc, hcD⟩ h

/-- In an ascending list of numbers above `a`, the elements up to `b` are what is not
counted. -/
theorem kept_eq_sub_length (hD : D.Pairwise (· < ·)) (hpos : ∀ x ∈ D, a < x) (hab : a ≤ b) :
    kept D a b = b - a - (D.filter (· ≤ b)).length := by
  induction D generalizing a with
  | nil => simpa using kept_eq_sub (D := []) hab (by simp)
  | cons d D ih =>
    obtain ⟨hd, hD⟩ := List.pairwise_cons.mp hD
    have had := hpos d List.mem_cons_self
    by_cases hdb : d ≤ b
    · rw [kept_cons hd had hdb, ih hD hd hdb, List.filter_cons_of_pos (by simpa using hdb),
        List.length_cons]
      push_cast
      ring
    · have hnone : (d :: D).filter (· ≤ b) = [] := by
        apply List.filter_eq_nil_iff.mpr
        intro x hx
        rcases List.mem_cons.mp hx with rfl | hx
        · simpa using hdb
        · have := hd x hx
          simp only [decide_eq_true_eq]
          omega
      rw [hnone, kept_eq_sub hab]
      · simp
      · intro x hx hlt
        rcases List.mem_cons.mp hx with rfl | hx
        · omega
        · have := hd x hx
          omega

end Kept

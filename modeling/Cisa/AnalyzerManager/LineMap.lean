import Cisa.AnalyzerManager.Manager
import Cisa.Lib.Kept

/-!
# The line map

The first loop counts the unchanged lines up to a line of the new version, the second
finds the line of the old version with the same count.
-/

namespace Cisa

namespace AnalyzerManager

open Kept

variable {D : List ℤ} {a n postLine : ℤ}

/-- In an ascending list, the loop over `add_lines` counts the lines up to `post_line`. -/
theorem countUnchanged_eq (hD : D.Pairwise (· < ·)) :
    countUnchanged postLine D n = n - (D.filter (· ≤ postLine)).length := by
  induction D generalizing n with
  | nil => simp [countUnchanged]
  | cons d D ih =>
    obtain ⟨hd, hD⟩ := List.pairwise_cons.mp hD
    unfold countUnchanged
    split_ifs with hlt
    · have hnone : (d :: D).filter (· ≤ postLine) = [] := by
        apply List.filter_eq_nil_iff.mpr
        intro x hx
        rcases List.mem_cons.mp hx with rfl | hx
        · simpa using hlt
        · have := hd x hx
          simp only [decide_eq_true_eq]
          omega
      simp [hnone]
    · rw [ih hD, List.filter_cons_of_pos (by simpa using hlt), List.length_cons]
      push_cast
      ring

/-- The loop over `del_lines` from a position before all of them: it arrives at the line
that is the `n`-th one after the position that is not deleted. -/
theorem skipDeleted_spec (hD : D.Pairwise (· < ·)) (hpos : ∀ d ∈ D, a < d) (hn : 0 < n) :
    a < skipDeleted D a n ∧ skipDeleted D a n ∉ D ∧ kept D a (skipDeleted D a n) = n := by
  induction D generalizing a n with
  | nil =>
    unfold skipDeleted
    refine ⟨by omega, by simp, ?_⟩
    rw [kept_eq_sub (by omega) (by simp)]
    omega
  | cons d D ih =>
    obtain ⟨hd, hD⟩ := List.pairwise_cons.mp hD
    have had := hpos d List.mem_cons_self
    unfold skipDeleted
    dsimp only
    split_ifs with hle
    · -- the target lies before `d`
      have hbelow : ∀ x ∈ d :: D, a + n < x := by
        intro x hx
        rcases List.mem_cons.mp hx with rfl | hx
        · omega
        · have := hd x hx
          omega
      refine ⟨by omega, fun h => absurd (hbelow _ h) (by omega), ?_⟩
      rw [kept_eq_sub (by omega)]
      · omega
      · intro x hx hlt
        have := hbelow x hx
        omega
    · obtain ⟨hlt, hmem, hkept⟩ := ih (a := d) (n := n - (d - a - 1)) hD hd (by omega)
      set r := skipDeleted D d (n - (d - a - 1))
      refine ⟨by omega, ?_, ?_⟩
      · intro h
        rcases List.mem_cons.mp h with h | h
        · omega
        · exact hmem h
      · rw [kept_cons hd had hlt.le, hkept]
        omega

theorem skipDeleted_zero (hpos : ∀ d ∈ D, 0 < d) : skipDeleted D 0 0 = 0 := by
  cases D with
  | nil => rfl
  | cons d D =>
    have hd := hpos d List.mem_cons_self
    unfold skipDeleted
    dsimp only
    rw [if_pos (by omega)]
    rfl

/-- The lists are strictly ascending lists of line numbers. -/
structure ChangeInfo.Ordered (ci : ChangeInfo) : Prop where
  del_sorted : ci.delLines.Pairwise (· < ·)
  del_pos : ∀ l ∈ ci.delLines, 0 < l
  add_sorted : ci.addLines.Pairwise (· < ·)
  add_pos : ∀ l ∈ ci.addLines, 0 < l

/-- The lines of a version that are not changed. -/
def keptLines (changed : List ℤ) : Set ℤ := {l | 0 < l ∧ l ∉ changed}

/-- The line of the old version that is the `n`-th one not deleted. -/
def IsNthKept (changed : List ℤ) (n l : ℤ) : Prop := l ∈ keptLines changed ∧ kept changed 0 l = n

/-- `post_line` minus the number of added lines up to it. -/
def unchangedUpTo (ci : ChangeInfo) (postLine : ℤ) : ℤ :=
  postLine - (ci.addLines.filter (· ≤ postLine)).length

/-- The line map is the alignment of the two versions. -/
structure LineMapExact (cur : Context) (path : String) : Prop where
  zero : ∀ postLine, 0 ≤ postLine → unchangedUpTo (cur.cis.getD path {}) postLine = 0 →
    mapPostToPreLine cur path postLine = 0
  nth : ∀ postLine, 0 ≤ postLine → unchangedUpTo (cur.cis.getD path {}) postLine ≠ 0 →
    ∀ l, IsNthKept (cur.cis.getD path {}).delLines
        (unchangedUpTo (cur.cis.getD path {}) postLine) l ↔ l = mapPostToPreLine cur path postLine
  strictMono : StrictMonoOn (mapPostToPreLine cur path)
    (keptLines (cur.cis.getD path {}).addLines)
  bijective : Set.BijOn (mapPostToPreLine cur path) (keptLines (cur.cis.getD path {}).addLines)
    (keptLines (cur.cis.getD path {}).delLines)

section Alignment

variable {ci : ChangeInfo} (h : ci.Ordered)

include h

theorem kept_addLines (hpost : 0 ≤ postLine) :
    kept ci.addLines 0 postLine = unchangedUpTo ci postLine := by
  rw [kept_eq_sub_length h.add_sorted h.add_pos hpost, unchangedUpTo, sub_zero]

theorem isNthKept_skipDeleted (hn : 0 < n) :
    IsNthKept ci.delLines n (skipDeleted ci.delLines 0 n) := by
  obtain ⟨hpos, hmem, hkept⟩ := skipDeleted_spec h.del_sorted h.del_pos hn
  exact ⟨⟨hpos, hmem⟩, hkept⟩

omit h in
theorem IsNthKept.unique {l l' : ℤ} (hl : IsNthKept D n l) (hl' : IsNthKept D n l') : l = l' :=
  eq_of_kept_eq hl.1.1 hl'.1.1 hl.1.2 hl'.1.2 (hl.2.trans hl'.2.symm)

theorem isNthKept_of_mem (hpost : postLine ∈ keptLines ci.addLines) :
    IsNthKept ci.delLines (kept ci.addLines 0 postLine)
      (skipDeleted ci.delLines 0 (countUnchanged postLine ci.addLines postLine)) := by
  have hcount : countUnchanged postLine ci.addLines postLine = kept ci.addLines 0 postLine := by
    rw [kept_addLines h hpost.1.le]
    exact countUnchanged_eq h.add_sorted
  rw [hcount]
  exact isNthKept_skipDeleted h (kept_pos hpost.1 hpost.2)

end Alignment

/-- The line map is the exact alignment of the two versions. -/
theorem mapPostToPreLine_exact {cur : Context} {path : String}
    (h : (cur.cis.getD path {}).Ordered) : LineMapExact cur path := by
  have hmap : ∀ postLine, mapPostToPreLine cur path postLine =
      skipDeleted (cur.cis.getD path {}).delLines 0
        (unchangedUpTo (cur.cis.getD path {}) postLine) := by
    intro postLine
    rw [unchangedUpTo, ← countUnchanged_eq h.add_sorted]
    rfl
  have hnth : ∀ l ∈ keptLines (cur.cis.getD path {}).addLines,
      IsNthKept (cur.cis.getD path {}).delLines (kept (cur.cis.getD path {}).addLines 0 l)
        (mapPostToPreLine cur path l) := fun l hl => isNthKept_of_mem h hl
  have hmono : StrictMonoOn (mapPostToPreLine cur path)
      (keptLines (cur.cis.getD path {}).addLines) := by
    intro x hx y hy hxy
    by_contra hge
    have hlt := kept_lt_kept (D := (cur.cis.getD path {}).addLines) hx.1.le hxy hy.2
    rw [← (hnth x hx).2, ← (hnth y hy).2] at hlt
    rcases lt_or_eq_of_le (not_lt.mp hge) with hgt | heq
    · have := kept_lt_kept (D := (cur.cis.getD path {}).delLines) (hnth y hy).1.1.le hgt
        (hnth x hx).1.2
      omega
    · rw [heq] at hlt
      omega
  constructor
  · intro postLine hpost hzero
    rw [hmap, hzero]
    exact skipDeleted_zero h.del_pos
  · intro postLine hpost hne l
    have hnonneg := kept_nonneg (D := (cur.cis.getD path {}).addLines) (a := 0) (b := postLine)
    rw [kept_addLines h hpost] at hnonneg
    have hline := isNthKept_skipDeleted h (n := unchangedUpTo (cur.cis.getD path {}) postLine)
      (by omega)
    rw [hmap]
    constructor
    · intro hl
      exact hl.unique hline
    · intro hl
      rw [hl]
      exact hline
  · exact hmono
  · refine ⟨fun l hl => (hnth l hl).1, hmono.injOn, ?_⟩
    intro r hr
    -- the same search over `add_lines` finds the line that `r` comes from
    have hpos := kept_pos (D := (cur.cis.getD path {}).delLines) hr.1 hr.2
    obtain ⟨hlt, hmem, hkept⟩ := skipDeleted_spec h.add_sorted h.add_pos hpos
    have hl : skipDeleted (cur.cis.getD path {}).addLines 0
        (kept (cur.cis.getD path {}).delLines 0 r) ∈ keptLines (cur.cis.getD path {}).addLines :=
      ⟨hlt, hmem⟩
    have himage := hnth _ hl
    rw [hkept] at himage
    exact ⟨_, hl, himage.unique ⟨hr, rfl⟩⟩

/-- Line 1 is added and lines 2 and 3 are deleted. -/
def replacedLines : Context where
  cis := (∅ : SortedMap String ChangeInfo).insert "a.bc" { delLines := [2, 3], addLines := [1] }

theorem mapPostToPreLine_exact_replaced : LineMapExact replacedLines "a.bc" :=
  mapPostToPreLine_exact ⟨by decide, by decide, by decide, by decide⟩

end AnalyzerManager

end Cisa

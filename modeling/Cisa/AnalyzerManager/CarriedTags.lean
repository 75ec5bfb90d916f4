import Cisa.AnalyzerManager.Manager
import Cisa.Lib.Fold

/-!
# Tags of unchanged functions

A new function takes the tags of the old function it is matched with, and leaves none
behind: of several new functions matched with one old function, the first gets its tags.
-/

namespace Cisa

open Std

namespace AnalyzerManager

section Matching

variable {line : ℤ} {delFlps : List FunctionLinePair}

/-- The first of the old functions whose lines are nearest. -/
def nearestDelF (line : ℤ) (delFlps : List FunctionLinePair) : Option FunctionLinePair :=
  delFlps.find? fun p => ∀ q ∈ delFlps, |p.2 - line| ≤ |q.2 - line|

theorem findWithin_cases {r : ℤ} (hall : ∀ p ∈ delFlps, r ≤ |p.2 - line|) :
    (∃ x, nearestDelF line delFlps = some x ∧ |x.2 - line| = r ∧
        findWithin r line delFlps = some x) ∨
      (findWithin r line delFlps = none ∧ ∀ p ∈ delFlps, r + 1 ≤ |p.2 - line|) := by
  have hwithin : ∀ p : FunctionLinePair,
      (decide (-r ≤ p.2 - line) && decide (p.2 - line ≤ r)) = true ↔ |p.2 - line| ≤ r := by
    intro p
    rw [Bool.and_eq_true, decide_eq_true_iff, decide_eq_true_iff, abs_le]
  by_cases hex : ∃ p ∈ delFlps, |p.2 - line| ≤ r
  · left
    obtain ⟨p, hp, hpr⟩ := hex
    have hnearest : ∀ q ∈ delFlps, |q.2 - line| ≤ r ↔
        ∀ q' ∈ delFlps, |q.2 - line| ≤ |q'.2 - line| := by
      intro q hq
      constructor
      · intro hqr q' hq'
        exact hqr.trans (hall q' hq')
      · intro h
        exact (h p hp).trans hpr
    have hfind : findWithin r line delFlps = nearestDelF line delFlps := by
      apply List.find?_congr
      intro q hq
      rw [Bool.eq_iff_iff, hwithin, hnearest q hq, decide_eq_true_iff]
    cases hx : findWithin r line delFlps with
    | none => exact absurd ((hwithin p).mpr hpr) (List.find?_eq_none.mp hx p hp)
    | some x =>
      have hprop := List.find?_some (p := fun q : FunctionLinePair =>
        decide (-r ≤ q.2 - line) && decide (q.2 - line ≤ r)) hx
      have hle := (hwithin x).mp hprop
      have hge := hall x (List.mem_of_find?_eq_some hx)
      exact ⟨x, hfind ▸ hx, by omega, rfl⟩
  · right
    constructor
    · apply List.find?_eq_none.mpr
      intro p hp h
      exact hex ⟨p, hp, (hwithin p).mp h⟩
    · intro p hp
      by_contra hlt
      exact hex ⟨p, hp, by omega⟩

theorem search_iff {n : ℕ} {r : ℤ} {x : FunctionLinePair}
    (hall : ∀ p ∈ delFlps, r ≤ |p.2 - line|) :
    ((List.range n).findSome? fun i : ℕ => findWithin (r + i) line delFlps) = some x ↔
      nearestDelF line delFlps = some x ∧ |x.2 - line| < r + n := by
  induction n generalizing r with
  | zero =>
    simp only [List.range_zero, List.findSome?_nil, reduceCtorEq, false_iff, not_and]
    intro hx hlt
    have hge := hall x (List.mem_of_find?_eq_some hx)
    omega
  | succ n ih =>
    rw [List.range_succ_eq_map, List.findSome?_cons, List.findSome?_map]
    rcases findWithin_cases hall with ⟨y, hy, hyr, hf⟩ | ⟨hf, hnext⟩
    · simp only [Nat.cast_zero, add_zero, hf, hy, Option.some.injEq]
      constructor
      · intro h
        subst h
        constructor
        · rfl
        · push_cast
          omega
      · intro h
        exact h.1
    · simp only [Nat.cast_zero, add_zero, hf]
      have hshift : ((fun i : ℕ => findWithin (r + i) line delFlps) ∘ Nat.succ) =
          fun i : ℕ => findWithin (r + 1 + i) line delFlps := by
        funext i
        rw [Function.comp_apply, Nat.cast_succ, add_comm (i : ℤ) 1, ← add_assoc]
      rw [hshift, ih hnext]
      push_cast
      rw [add_assoc, add_comm (n : ℤ) 1]

/-- A new function is matched with the first of the nearest old functions, if it is
within three lines. -/
theorem matchingDelF_iff {x : FunctionLinePair} :
    matchingDelF line delFlps = some x ↔
      nearestDelF line delFlps = some x ∧ |x.2 - line| ≤ 3 := by
  have hall : ∀ p ∈ delFlps, (0 : ℤ) ≤ |p.2 - line| := fun p _ => abs_nonneg _
  have hsearch := search_iff (n := 4) (x := x) hall
  simp only [zero_add] at hsearch
  rw [matchingDelF, hsearch]
  constructor
  · intro h
    exact ⟨h.1, by omega⟩
  · intro h
    exact ⟨h.1, by omega⟩

theorem matchingDelF_of_unique {F : FuncPtr} (h : (F, line) ∈ delFlps)
    (huniq : ∀ p ∈ delFlps, p.2 = line → p = (F, line)) :
    matchingDelF line delFlps = some (F, line) := by
  apply matchingDelF_iff.mpr
  constructor
  · cases hx : nearestDelF line delFlps with
    | none =>
      have hno := List.find?_eq_none.mp hx _ h
      simp at hno
    | some x =>
      have hmin := List.find?_some (p := fun p : FunctionLinePair =>
        decide (∀ q ∈ delFlps, |p.2 - line| ≤ |q.2 - line|)) hx
      rw [decide_eq_true_iff] at hmin
      have hline : x.2 = line := by
        have hle := hmin _ h
        have habs := abs_nonneg (x.2 - line)
        have hzero : |x.2 - line| = 0 := by
          simp only [sub_self, abs_zero] at hle
          omega
        have := abs_eq_zero.mp hzero
        omega
      rw [huniq x (List.mem_of_find?_eq_some hx) hline]
  · simp

theorem matchingDelF_of_line {F : FuncPtr} (hlines : (delFlps.map Prod.snd).Nodup)
    (h : (F, line) ∈ delFlps) : matchingDelF line delFlps = some (F, line) :=
  matchingDelF_of_unique h fun _ hp hline => List.inj_on_of_nodup_map hlines hp h hline

end Matching

/-- The tags of one kind of the analyzer at a position. -/
def State.tags (S : State) (i : ℕ) (F : FuncPtr) (idx : ℕ) : SortedSet String :=
  ((S.analyzers[i]?).map (IAnalyzer.tags F idx)).getD ∅

/-- `newF` has the tags of `delF`, in every kind of every analyzer. -/
def KeepsTags (S S' : State) (delF newF : FuncPtr) : Prop :=
  ∀ i idx, S'.tags i newF idx = S.tags i delF idx

/-- The new function is matched with `delF`. -/
def MatchedWith (cur : Context) (path : String) (delFlps : List FunctionLinePair)
    (newFL : FunctionLinePair) (delF : FuncPtr) : Prop :=
  ∃ line, nearestDelF (mapPostToPreLine cur path newFL.2) delFlps = some (delF, line) ∧
    |line - mapPostToPreLine cur path newFL.2| ≤ 3

variable {S : State} {path : String} {delFlps l : List FunctionLinePair}
  {newFL : FunctionLinePair} {F : FuncPtr} {i idx : ℕ}

theorem tags_map_move {anals : List IAnalyzer} {P Q : FuncPtr} :
    (((anals.map (IAnalyzer.move P Q))[i]?).map (IAnalyzer.tags F idx)).getD ∅ =
      if P = F then ∅
      else if Q = F then ((anals[i]?).map (IAnalyzer.tags P idx)).getD ∅
      else ((anals[i]?).map (IAnalyzer.tags F idx)).getD ∅ := by
  rw [List.getElem?_map]
  cases anals[i]? with
  | none => simp
  | some A => simp [IAnalyzer.tags_move]

theorem tags_removeFunction {p : FunctionLinePair} :
    (removeFunction S p).tags i F idx = if p.1 = F then ∅ else S.tags i F idx := by
  unfold State.tags removeFunction
  dsimp only
  rw [List.getElem?_map]
  cases S.analyzers[i]? with
  | none => simp
  | some A => simp [IAnalyzer.tags_remove]

@[simp] theorem cis_correctChange : (correctChange path delFlps S newFL).cur.cis = S.cur.cis := by
  unfold correctChange
  split <;> rfl

theorem tags_correctChange : (correctChange path delFlps S newFL).tags i F idx =
    match matchingDelF (mapPostToPreLine S.cur path newFL.2) delFlps with
    | some delFL =>
      if delFL.1 = F then ∅
      else if newFL.1 = F then S.tags i delFL.1 idx
      else S.tags i F idx
    | none => S.tags i F idx := by
  unfold correctChange
  cases matchingDelF (mapPostToPreLine S.cur path newFL.2) delFlps with
  | none => rfl
  | some delFL => exact tags_map_move

theorem mapPostToPreLine_congr {c c' : Context} (h : c.cis = c'.cis) (line : ℤ) :
    mapPostToPreLine c path line = mapPostToPreLine c' path line := by
  unfold mapPostToPreLine
  rw [h]

theorem cis_foldl_correctChange :
    (l.foldl (correctChange path delFlps) S).cur.cis = S.cur.cis :=
  Fold.foldl_frame (p := fun S : State => S.cur.cis) (fun _ _ => cis_correctChange) l S

theorem tags_foldl_correctChange (hne : ∀ p ∈ l, p.1 ≠ F)
    (hno : ∀ p ∈ l, ¬ MatchedWith S.cur path delFlps p F) :
    (l.foldl (correctChange path delFlps) S).tags i F idx = S.tags i F idx := by
  induction l generalizing S with
  | nil => rfl
  | cons p l ih =>
    rw [List.foldl_cons, ih]
    · rw [tags_correctChange]
      split
      · rename_i delFL hm
        obtain ⟨hnear, hle⟩ := matchingDelF_iff.mp hm
        have hdel : delFL.1 ≠ F := by
          intro h
          subst h
          exact hno p List.mem_cons_self ⟨delFL.2, hnear, hle⟩
        rw [if_neg hdel, if_neg (hne p List.mem_cons_self)]
      · rfl
    · intro q hq
      exact hne q (List.mem_cons_of_mem _ hq)
    · intro q hq
      unfold MatchedWith
      rw [mapPostToPreLine_congr cis_correctChange]
      exact hno q (List.mem_cons_of_mem _ hq)

/-- A function that is not new has no tags left once a new function was matched with it. -/
theorem tags_foldl_of_matched (hne : ∀ p ∈ l, p.1 ≠ F)
    (hex : ∃ p ∈ l, MatchedWith S.cur path delFlps p F) :
    (l.foldl (correctChange path delFlps) S).tags i F idx = ∅ := by
  obtain ⟨p, hp, hm⟩ := hex
  apply Fold.foldl_of_mem (I := fun T : State => T.cur.cis = S.cur.cis)
    (P := fun T : State => T.tags i F idx = ∅) hp
  · rfl
  · intro T q hq hT
    exact cis_correctChange.trans hT
  · intro T q hq hT hempty
    rw [tags_correctChange]
    split
    · split_ifs with h1 h2
      · rfl
      · exact absurd h2 (hne q hq)
      · exact hempty
    · exact hempty
  · intro T hT
    obtain ⟨line, hnear, hle⟩ := hm
    rw [← mapPostToPreLine_congr hT] at hnear hle
    rw [tags_correctChange, matchingDelF_iff.mpr ⟨hnear, hle⟩]
    simp

theorem tags_foldl_removeFunction (hne : ∀ p ∈ l, p.1 ≠ F) :
    (l.foldl removeFunction S).tags i F idx = S.tags i F idx := by
  apply Fold.foldl_invariant (I := fun T : State => T.tags i F idx = S.tags i F idx) rfl
  intro T p hp hT
  rw [tags_removeFunction, if_neg (hne p hp), hT]

/-- The tags of a function that keeps its prototype: all of the old function's, unless a
new function before it was matched with the old function. -/
theorem tags_correctChanges {pre post : List FunctionLinePair} {newF delF : FuncPtr} {line : ℤ}
    (hlines : (delFlps.map Prod.snd).Nodup)
    (hnew : ((pre ++ (newF, line) :: post).map Prod.fst).Nodup)
    (hdisj : ∀ p ∈ pre ++ (newF, line) :: post, ∀ q ∈ delFlps, p.1 ≠ q.1)
    (hmem : (delF, mapPostToPreLine S.cur path line) ∈ delFlps) :
    (correctChanges S path delFlps (pre ++ (newF, line) :: post)).tags i newF idx =
      (pre.foldl (correctChange path delFlps) S).tags i delF idx := by
  have hself : (newF, line) ∈ pre ++ (newF, line) :: post := by simp
  have hpost : ∀ p ∈ post, p.1 ≠ newF := by
    intro p hp h
    simp only [List.map_append, List.map_cons] at hnew
    have hno := (List.nodup_cons.mp (List.Nodup.of_append_right hnew)).1
    exact hno (List.mem_map.mpr ⟨p, hp, h⟩)
  have hdel : ∀ q ∈ delFlps, q.1 ≠ newF := fun q hq h => hdisj _ hself q hq h.symm
  have hunmatched : ∀ (c : Context) p, ¬ MatchedWith c path delFlps p newF := by
    rintro c p ⟨line', hnear, _⟩
    exact hdel _ (List.mem_of_find?_eq_some hnear) rfl
  have hmatch : matchingDelF
      (mapPostToPreLine (pre.foldl (correctChange path delFlps) S).cur path line) delFlps =
      some (delF, mapPostToPreLine S.cur path line) := by
    rw [mapPostToPreLine_congr cis_foldl_correctChange]
    exact matchingDelF_of_line hlines hmem
  rw [correctChanges, tags_foldl_removeFunction hdel, List.foldl_append, List.foldl_cons,
    tags_foldl_correctChange hpost fun p _ => hunmatched _ p, tags_correctChange, hmatch]
  dsimp only
  rw [if_neg (hdel _ hmem), if_pos rfl]

/-- An unchanged function keeps its tags exactly when no new function before it is
matched with its old version, or there was nothing to keep. -/
theorem carried_tags_iff {pre post : List FunctionLinePair} {newF delF : FuncPtr} {line : ℤ}
    (hlines : (delFlps.map Prod.snd).Nodup)
    (hnew : ((pre ++ (newF, line) :: post).map Prod.fst).Nodup)
    (hdisj : ∀ p ∈ pre ++ (newF, line) :: post, ∀ q ∈ delFlps, p.1 ≠ q.1)
    (hmem : (delF, mapPostToPreLine S.cur path line) ∈ delFlps) :
    KeepsTags S (correctChanges S path delFlps (pre ++ (newF, line) :: post)) delF newF ↔
      (∀ p ∈ pre, ¬ MatchedWith S.cur path delFlps p delF) ∨ ∀ i idx, S.tags i delF idx = ∅ := by
  have hpre : ∀ p ∈ pre, p.1 ≠ delF := fun p hp =>
    hdisj p (List.mem_append_left _ hp) _ hmem
  by_cases hex : ∃ p ∈ pre, MatchedWith S.cur path delFlps p delF
  · have hno : ¬ ∀ p ∈ pre, ¬ MatchedWith S.cur path delFlps p delF := by
      obtain ⟨p, hp, hm⟩ := hex
      exact fun h => h p hp hm
    simp only [KeepsTags, tags_correctChanges hlines hnew hdisj hmem,
      tags_foldl_of_matched hpre hex, hno, false_or]
    constructor
    · intro h i idx
      exact (h i idx).symm
    · intro h i idx
      exact (h i idx).symm
  · have hno : ∀ p ∈ pre, ¬ MatchedWith S.cur path delFlps p delF := fun p hp hm =>
      hex ⟨p, hp, hm⟩
    constructor
    · intro _
      exact Or.inl hno
    · intro _ i idx
      rw [tags_correctChanges hlines hnew hdisj hmem, tags_foldl_correctChange hpre hno]

/-- A state in which the first function of module 0 is tagged `wav`. -/
def taggedState (ci : ChangeInfo) : State where
  analyzers := [.sub { toAnalyzer := ({} : Analyzer SubTag 1).addTag "wav" ⟨0, 0⟩ 0 }]
  cur := { cis := (∅ : SortedMap String ChangeInfo).insert "a.bc" ci }

/-- A function is added far below the unchanged one, and listed before it. -/
theorem carried_tags_iff_apart :
    KeepsTags (taggedState { addLines := [10] })
      (correctChanges (taggedState { addLines := [10] }) "a.bc" [(⟨0, 0⟩, 5)]
        ([(⟨1, 0⟩, 10)] ++ [(⟨1, 1⟩, 5)])) ⟨0, 0⟩ ⟨1, 1⟩ := by
  apply (carried_tags_iff (by decide) (by decide) (by decide) (by decide)).mpr
  left
  intro p hp hm
  obtain rfl := List.mem_singleton.mp hp
  obtain ⟨line, hnear, hle⟩ := hm
  have hfirst : nearestDelF (mapPostToPreLine (taggedState { addLines := [10] }).cur "a.bc" 10)
      [(⟨0, 0⟩, 5)] = some (⟨0, 0⟩, 5) := by decide
  have hline : 5 = line := congrArg Prod.snd (Option.some.inj (hfirst.symm.trans hnear))
  subst hline
  revert hle
  decide

/-- A function added three lines above takes the tags. -/
theorem carried_tags_taken : ¬ ∀ (S : State) (path : String)
    (delFlps newFlps : List FunctionLinePair),
    (delFlps.map Prod.snd).Nodup → (newFlps.map Prod.snd).Nodup →
    (newFlps.map Prod.fst).Nodup → (∀ p ∈ newFlps, ∀ q ∈ delFlps, p.1 ≠ q.1) →
    (S.cur.cis.getD path {}).delLines.Pairwise (· < ·) →
    (S.cur.cis.getD path {}).addLines.Pairwise (· < ·) →
    ∀ newF delF line, (newF, line) ∈ newFlps → line ∉ (S.cur.cis.getD path {}).addLines →
      (delF, mapPostToPreLine S.cur path line) ∈ delFlps →
      KeepsTags S (correctChanges S path delFlps newFlps) delF newF := by
  intro hall
  have h := hall (taggedState { addLines := [3] }) "a.bc" [(⟨0, 0⟩, 5)]
    [(⟨1, 0⟩, 3), (⟨1, 1⟩, 6)] (by decide) (by decide) (by decide) (by decide) (by decide)
    (by decide) ⟨1, 1⟩ ⟨0, 0⟩ 6 (by decide) (by decide) (by decide) 0 0
  revert h
  decide

end AnalyzerManager

end Cisa

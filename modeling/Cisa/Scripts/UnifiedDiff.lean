import Cisa.Scripts.GitShow
import Cisa.Lib.Marked

/-!
# The hunks of two files

The hunks of a file are a diff of its old and its new lines. The numbers that the reader
returns for them are those of the lines that are shown as deleted and as added; without
these lines both files are the same.
-/

namespace Cisa

namespace GitShow

open Comanal Marked

/-- The line of the old file that a line of a hunk shows, marked when it is deleted. -/
def DiffLine.preEntry : DiffLine → Option (Text × Bool)
  | context text => some (text, false)
  | deleted text => some (text, true)
  | added _ => none
  | noNewline => none

/-- The line of the new file that a line of a hunk shows, marked when it is added. -/
def DiffLine.postEntry : DiffLine → Option (Text × Bool)
  | context text => some (text, false)
  | deleted _ => none
  | added text => some (text, true)
  | noNewline => none

namespace Hunk

variable (h : Hunk)

def preEntries : List (Text × Bool) := h.lines.filterMap DiffLine.preEntry

def postEntries : List (Text × Bool) := h.lines.filterMap DiffLine.postEntry

def preLines : List Text := h.preEntries.map Prod.fst

def postLines : List Text := h.postEntries.map Prod.fst

/-- The lines shown with `-`, with their numbers in the old file. -/
def deletions : List (Text × ℕ) := marked h.pre h.preEntries

/-- The lines shown with `+`, with their numbers in the new file. -/
def additions : List (Text × ℕ) := marked h.post h.postEntries

end Hunk

/-- What is printed for `n` lines that follow the first `before` lines of a file. Empty ranges
may start anywhere. -/
structure IsRange (start : ℕ) (count : Option ℕ) (before n : ℕ) : Prop where
  count : count.getD 1 = n
  start : n ≠ 0 → start = before + 1

/-- The hunks are a diff of what follows the first `p` lines of the old and the first `q`
lines of the new file. -/
inductive IsDiff : ℕ → ℕ → List Text → List Text → List Hunk → Prop
  | same (p q : ℕ) (lines : List Text) : IsDiff p q lines lines []
  | hunk {p q : ℕ} {pre post : List Text} (common : List Text) {h : Hunk} {hs : List Hunk}
      (hpre : IsRange h.pre h.preCount (p + common.length) h.preLines.length)
      (hpost : IsRange h.post h.postCount (q + common.length) h.postLines.length)
      (hrest : IsDiff (p + common.length + h.preLines.length)
        (q + common.length + h.postLines.length) pre post hs) :
      IsDiff p q (common ++ h.preLines ++ pre) (common ++ h.postLines ++ post) (h :: hs)

/-- The two counters of the reader run through the lines of both files. -/
theorem lineNumbers_eq (pre post : ℕ) (ls : List DiffLine) :
    lineNumbers (pre, post) ls =
      ((marked pre (ls.filterMap DiffLine.preEntry)).map fun x => (x.2 : ℤ),
        (marked post (ls.filterMap DiffLine.postEntry)).map fun x => (x.2 : ℤ)) := by
  induction ls generalizing pre post with
  | nil => rfl
  | cons l ls ih =>
    cases l with
    | context text =>
      have hrest := ih (pre + 1) (post + 1)
      push_cast at hrest
      rw [lineNumbers, hrest]
      rfl
    | deleted text =>
      have hrest := ih (pre + 1) post
      push_cast at hrest
      rw [lineNumbers, hrest]
      rfl
    | added text =>
      have hrest := ih pre (post + 1)
      push_cast at hrest
      rw [lineNumbers, hrest]
      rfl
    | noNewline =>
      rw [lineNumbers, ih]
      rfl

theorem unmarked_entries (ls : List DiffLine) :
    unmarked (ls.filterMap DiffLine.preEntry) = unmarked (ls.filterMap DiffLine.postEntry) := by
  induction ls with
  | nil => rfl
  | cons l ls ih =>
    cases l with
    | context text => exact congrArg (text :: ·) ih
    | deleted text => exact ih
    | added text => exact ih
    | noNewline => exact ih

theorem IsRange.marked {start before : ℕ} {count : Option ℕ} {xs : List (Text × Bool)}
    (h : IsRange start count before (xs.map Prod.fst).length) :
    marked (before + 1) xs = marked start xs := by
  cases xs with
  | nil => rfl
  | cons x xs => rw [h.start (by simp)]

/-- Both files with the lines marked that the diff shows as deleted and as added. -/
theorem IsDiff.entries {p q : ℕ} {pre post : List Text} {hs : List Hunk}
    (h : IsDiff p q pre post hs) :
    ∃ xs ys : List (Text × Bool), xs.map Prod.fst = pre ∧ ys.map Prod.fst = post ∧
      unmarked xs = unmarked ys ∧ marked (p + 1) xs = hs.flatMap Hunk.deletions ∧
      marked (q + 1) ys = hs.flatMap Hunk.additions := by
  induction h with
  | same p q lines =>
    have hmap := map_fst_map_false lines
    exact ⟨_, _, hmap, hmap, rfl, marked_map_false _ _, marked_map_false _ _⟩
  | @hunk p q pre post common h hs hpre hpost _ ih =>
    obtain ⟨xs, ys, rfl, rfl, hsame, hdel, hadd⟩ := ih
    have hlines : unmarked h.preEntries = unmarked h.postEntries := unmarked_entries h.lines
    have hmarked : ∀ {before start : ℕ} {count : Option ℕ} {es rest : List (Text × Bool)}
        {shown : List (Text × ℕ)}, IsRange start count (before + common.length)
          (es.map Prod.fst).length →
        marked (before + common.length + (es.map Prod.fst).length + 1) rest = shown →
        marked (before + 1) ((common.map fun l => (l, false)) ++ es ++ rest) =
          marked start es ++ shown := by
      intro before start count es rest shown hrange hrest
      rw [marked_append, marked_append, marked_map_false, List.nil_append, ← hrange.marked, ← hrest]
      simp only [List.length_append, List.length_map]
      congr 2 <;> omega
    refine ⟨(common.map fun l => (l, false)) ++ h.preEntries ++ xs,
      (common.map fun l => (l, false)) ++ h.postEntries ++ ys, ?_, ?_, ?_, ?_, ?_⟩
    · rw [List.map_append, List.map_append, map_fst_map_false]
      rfl
    · rw [List.map_append, List.map_append, map_fst_map_false]
      rfl
    · simp only [unmarked_append, hlines, hsame]
    · exact hmarked hpre hdel
    · exact hmarked hpost hadd

/-- The reader stops at the next section. It returns the numbers of the lines shown with `-`
and with `+`, which ascend, and without which both files are the same. -/
theorem getChangedLinesPair_diff {pre post : List Text} {hs : List Hunk} {rest : List Text}
    (hdiff : IsDiff 0 0 pre post hs) (hrest : EndsHunks rest) :
    ∃ del add : List ℕ,
      getChangedLinesPair none ([], []) (hs.flatMap Hunk.print ++ rest) =
        some ((del.map fun n : ℕ => (n : ℤ), add.map fun n : ℕ => (n : ℤ)), rest) ∧
      del = (hs.flatMap Hunk.deletions).map Prod.snd ∧
      add = (hs.flatMap Hunk.additions).map Prod.snd ∧
      (∀ l ∈ hs.flatMap Hunk.deletions, 0 < l.2 ∧ pre[l.2 - 1]? = some l.1) ∧
      (∀ l ∈ hs.flatMap Hunk.additions, 0 < l.2 ∧ post[l.2 - 1]? = some l.1) ∧
      del.Pairwise (· < ·) ∧ add.Pairwise (· < ·) ∧
      without del 1 pre = without add 1 post := by
  obtain ⟨xs, ys, rfl, rfl, hsame, hdel, hadd⟩ := hdiff.entries
  have hread := getChangedLinesPair_hunks hs none ([], []) hrest
  refine ⟨_, _, hread.trans ?_, rfl, rfl, ?_, ?_, ?_, ?_, ?_⟩
  · simp only [lineNumbers_eq, List.nil_append, List.map_map, List.map_flatMap]
    rfl
  · rw [← hdel]
    exact fun l hl => getElem?_of_mem_marked hl
  · rw [← hadd]
    exact fun l hl => getElem?_of_mem_marked hl
  · rw [← hdel]
    exact marked_pairwise 1 xs
  · rw [← hadd]
    exact marked_pairwise 1 ys
  · rw [← hdel, ← hadd, without_marked, without_marked, hsame]

/-- The second line of three is replaced, without context. -/
def replacedLine : Hunk where
  pre := 2
  post := 2
  lines := [.deleted ['b'], .added ['x']]

/-- A line is added after the third one, without context. -/
def addedLine : Hunk where
  pre := 3
  preCount := some 0
  post := 4
  lines := [.added ['d']]

theorem getChangedLinesPair_diff_replaced :
    ∃ del add : List ℕ,
      getChangedLinesPair none ([], [])
          ([replacedLine, addedLine].flatMap Hunk.print ++ ["diff --git a/g.c b/g.c".toList]) =
        some ((del.map fun n : ℕ => (n : ℤ), add.map fun n : ℕ => (n : ℤ)),
          ["diff --git a/g.c b/g.c".toList]) ∧
      del = ([replacedLine, addedLine].flatMap Hunk.deletions).map Prod.snd ∧
      add = ([replacedLine, addedLine].flatMap Hunk.additions).map Prod.snd ∧
      (∀ l ∈ [replacedLine, addedLine].flatMap Hunk.deletions,
        0 < l.2 ∧ [['a'], ['b'], ['c']][l.2 - 1]? = some l.1) ∧
      (∀ l ∈ [replacedLine, addedLine].flatMap Hunk.additions,
        0 < l.2 ∧ [['a'], ['x'], ['c'], ['d']][l.2 - 1]? = some l.1) ∧
      del.Pairwise (· < ·) ∧ add.Pairwise (· < ·) ∧
      without del 1 [['a'], ['b'], ['c']] = without add 1 [['a'], ['x'], ['c'], ['d']] :=
  getChangedLinesPair_diff
    (@IsDiff.hunk 0 0 [['c']] [['c'], ['d']] [['a']] replacedLine [addedLine]
      ⟨rfl, fun _ => rfl⟩ ⟨rfl, fun _ => rfl⟩
      (@IsDiff.hunk 2 2 [] [] [['c']] addedLine [] ⟨rfl, fun h => absurd rfl h⟩
        ⟨rfl, fun _ => rfl⟩ (.same _ _ [])))
    (by unfold EndsHunks; decide)

end GitShow

end Cisa

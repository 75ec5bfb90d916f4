import Cisa.Lib.Fold
import Cisa.Lib.FileTree
import Cisa.Scripts.Comanal

/-!
# The work tree

The main script keeps a checked out commit and takes it to the next one by what the diff reader
reports: first the deleted files are removed, with the directories that become empty, then the
added and the modified ones are written. What else is in the tree, such as the files of a build,
stays.
-/

namespace Cisa

open Std FileTree

namespace Entry

open Comanal

abbrev Path := List Text

instance : TransOrd Path := inferInstanceAs (TransOrd (List Text))

abbrev WorkTree := FileTree Text Text

def pathOf (path : Text) : Path := (Words.words (· = '/') path).reverse

/-- `_RemoveFileRec`; what lies above a path is its directory. -/
def removeFileRec : Path → Bool → WorkTree → Option WorkTree
  | [], _, _ => none
  | name :: dir, isFile, T =>
    (if isFile then T.remove (name :: dir) else T.removeTree (name :: dir)).bind fun T =>
      if dir = [] then some T
      else (T.listdir dir).bind fun names =>
        if names = [] then removeFileRec dir false T else some T

/-- The loop over the deleted files. -/
def removeDeleted (changes : List ChangeInfo) (T : WorkTree) : Option WorkTree :=
  (changes.filter fun c => c.state = .deleted).foldlM
    (fun T c => removeFileRec (pathOf c.srcPath) true T) T

/-- What the scripts get of what git prints: a newline at the end is dropped. -/
def gitOutput (printed : Text) : Text :=
  if printed.getLast? = some '\n' then printed.dropLast else printed

/-- The file of a change is written; `blob` is what `git show` prints for a path of the commit. -/
def writeChange (blob : Text → Option Text) (T : WorkTree) (c : ChangeInfo) : Option WorkTree := do
  let T ← if c.state = .added then makedirs (pathOf c.srcPath).tail T else some T
  let src ← blob c.srcPath
  T.write (pathOf c.srcPath) (gitOutput src)

/-- The loop over the other files. -/
def writeOthers (blob : Text → Option Text) (changes : List ChangeInfo) (T : WorkTree) :
    Option WorkTree :=
  (changes.filter fun c => c.state ≠ .deleted).foldlM (writeChange blob) T

def updateRepo (blob : Text → Option Text) (changes : List ChangeInfo) (T : WorkTree) :
    Option WorkTree := do
  writeOthers blob changes (← removeDeleted changes T)

variable {T T' : WorkTree} {p q : Path} {changes : List ChangeInfo} {blob : Text → Option Text}

/-! ## Deleted files -/

theorem removeFileRec_spec (isFile : Bool) (hp : p ≠ [])
    (hkind : if isFile then ∃ c, T.nodes[p]? = some (.file c)
      else T.nodes[p]? = some .dir ∧ ∀ n, n :: p ∉ T.nodes) :
    ∃ T', removeFileRec p isFile T = some T' ∧ T.Restricts T' (T.Kept [p]) := by
  induction p generalizing isFile T with
  | nil => exact absurd rfl hp
  | cons name dir ih =>
    have hleaf : ∀ s ∈ T.nodes, name :: dir <:+ s → s = name :: dir := by
      intro s hs hsuf
      cases isFile with
      | true =>
        obtain ⟨c, hc⟩ := hkind
        exact eq_of_suffix_of_file hc hs hsuf
      | false => exact eq_of_suffix_of_childless hkind.2 hs hsuf
    have hmem : name :: dir ∈ T.nodes := by
      cases isFile with
      | true =>
        obtain ⟨c, hc⟩ := hkind
        exact mem_of_getElem? hc
      | false => exact mem_of_getElem? hkind.1
    -- the path itself is removed first
    obtain ⟨T₁, hT₁, hrest⟩ : ∃ T₁, (if isFile then T.remove (name :: dir)
        else T.removeTree (name :: dir)) = some T₁ ∧ T.Restricts T₁ (· ≠ name :: dir) := by
      cases isFile with
      | true =>
        obtain ⟨c, hc⟩ := hkind
        exact remove_eq_some hc
      | false =>
        obtain ⟨T₁, hT₁, hrest⟩ := removeTree_eq_some hp hkind.1
        refine ⟨T₁, hT₁, ?_⟩
        intro q x
        rw [hrest]
        apply and_congr_right
        intro hx
        constructor
        · rintro hno rfl
          exact hno List.suffix_rfl
        · exact fun hne hsuf => hne (hleaf q (mem_of_getElem? hx) hsuf)
    have hkept : ∀ {q}, T.Kept [name :: dir] q → q ≠ name :: dir := by
      rintro q hq rfl
      exact not_kept_of_leaf hleaf hq
    rw [removeFileRec, hT₁]
    by_cases hroot : dir = []
    · subst hroot
      refine ⟨T₁, by simp, ?_⟩
      intro q x
      rw [hrest]
      apply and_congr_right
      intro hx
      refine ⟨fun hne => ⟨q, mem_of_getElem? hx, List.suffix_rfl, ?_⟩, hkept⟩
      rintro r hr hsuf
      obtain rfl := List.mem_singleton.mp hr
      rcases List.suffix_cons_iff.mp hsuf with heq | hnil
      · exact hne heq
      · exact T.root_not_mem (List.suffix_nil.mp hnil ▸ mem_of_getElem? hx)
    · have hne : dir ≠ name :: dir := by simp
      have hdir₁ : T₁.nodes[dir]? = some .dir :=
        (hrest _ _).mpr ⟨T.dir_of_mem name dir hmem hroot, hne⟩
      obtain ⟨names, hnames, hempty⟩ := listdir_eq_some (isDir_iff.mpr (Or.inr hdir₁))
      simp only [Option.bind_some, if_neg hroot, hnames]
      by_cases hnil : names = []
      · rw [if_pos hnil]
        obtain ⟨T', hT', hrest'⟩ := ih false hroot ⟨hdir₁, hempty.mp hnil⟩
        refine ⟨T', hT', ?_⟩
        intro q x
        rw [hrest', hrest, and_assoc]
        apply and_congr_right
        intro hx
        constructor
        · rintro ⟨-, s, hs, hqs, hno⟩
          obtain ⟨hsT, hsne⟩ := hrest.mem_iff.mp hs
          refine ⟨s, hsT, hqs, ?_⟩
          simp only [List.mem_singleton, forall_eq, List.suffix_cons_iff, not_or] at hno ⊢
          exact ⟨hsne, hno⟩
        · intro hq
          refine ⟨hkept hq, ?_⟩
          obtain ⟨s, hs, hqs, hno⟩ := hq
          simp only [List.mem_singleton, forall_eq, List.suffix_cons_iff, not_or] at hno
          exact ⟨s, hrest.mem_iff.mpr ⟨hs, hno.1⟩, hqs, by simpa using hno.2⟩
      · rw [if_neg hnil]
        refine ⟨T₁, rfl, ?_⟩
        have hchild : ∃ n, n :: dir ∈ T₁.nodes := by
          by_contra hno
          exact hnil (hempty.mpr fun n hn => hno ⟨n, hn⟩)
        obtain ⟨n, hn⟩ := hchild
        obtain ⟨hnT, hnne⟩ := hrest.mem_iff.mp hn
        intro q x
        rw [hrest]
        apply and_congr_right
        intro hx
        refine ⟨fun hq => ?_, hkept⟩
        by_cases hsuf : q <:+ name :: dir
        · have hqdir := (List.suffix_cons_iff.mp hsuf).resolve_left hq
          refine ⟨n :: dir, hnT, hqdir.trans (List.suffix_cons n dir), ?_⟩
          simp only [List.mem_singleton, forall_eq]
          exact fun h => hnne (h.eq_of_length (by simp))
        · exact ⟨q, mem_of_getElem? hx, List.suffix_rfl, by simpa using hsuf⟩

theorem removeFiles_spec {dels : List Path} (hnodup : dels.Nodup)
    (hfile : ∀ p ∈ dels, ∃ c, T.nodes[p]? = some (.file c)) :
    ∃ T', dels.foldlM (fun T p => removeFileRec p true T) T = some T' ∧
      T.Restricts T' (T.Kept dels) := by
  induction dels generalizing T with
  | nil =>
    refine ⟨T, rfl, ?_⟩
    exact fun q x => (and_iff_left_of_imp fun hx => kept_nil (mem_of_getElem? hx)).symm
  | cons p dels ih =>
    rw [List.nodup_cons] at hnodup
    rw [List.forall_mem_cons] at hfile
    obtain ⟨c, hc⟩ := hfile.1
    have hp : p ≠ [] := by
      rintro rfl
      exact T.root_not_mem (mem_of_getElem? hc)
    obtain ⟨T₁, hT₁, hrest⟩ := removeFileRec_spec true hp ⟨c, hc⟩
    have hfile₁ : ∀ r ∈ dels, ∃ c, T₁.nodes[r]? = some (.file c) := by
      intro r hr
      obtain ⟨d, hd⟩ := hfile.2 r hr
      refine ⟨d, (hrest _ _).mpr ⟨hd, r, mem_of_getElem? hd, List.suffix_rfl, ?_⟩⟩
      simp only [List.mem_singleton, forall_eq]
      intro hsuf
      exact hnodup.1 (eq_of_suffix_of_file hd (mem_of_getElem? hc) hsuf ▸ hr)
    obtain ⟨T', hT', hrest'⟩ := ih hnodup.2 hfile₁
    refine ⟨T', ?_, hrest.kept_cons hrest'⟩
    rw [List.foldlM_cons, hT₁]
    exact hT'

/-! ## Written files -/

/-- A file can be written with the directories above it: no file is in the way above it, and no
directory at it. -/
def Open (T : WorkTree) (p : Path) : Prop :=
  p ≠ [] ∧ T.NoFile p.tail ∧ T.nodes[p]? ≠ some .dir

/-- The nodes after a file has been written at `p`, with the directories above it. -/
def Written (T T' : WorkTree) (p : Path) (content : Text) : Prop :=
  ∀ q, T'.nodes[q]? = if q = p then some (.file content)
    else if q <:+ p ∧ q ≠ [] then some .dir else T.nodes[q]?

theorem open_of_file {content : Text} (h : T.nodes[p]? = some (.file content)) : Open T p := by
  cases p with
  | nil => exact absurd (mem_of_getElem? h) T.root_not_mem
  | cons name dir =>
    refine ⟨by simp, noFile_of_isDir (p := dir) ?_, by simp [h]⟩
    exact isDir_of_suffix (mem_of_getElem? h) (List.suffix_cons name dir) (by simp)

theorem writeChange_spec {c : ChangeInfo} {content : Text}
    (hstate : c.state = .added ∨ ∃ old, T.nodes[pathOf c.srcPath]? = some (.file old))
    (hblob : blob c.srcPath = some content) :
    (Open T (pathOf c.srcPath) ∧ ∃ T', writeChange blob T c = some T' ∧
      Written T T' (pathOf c.srcPath) (gitOutput content)) ∨
    (¬ Open T (pathOf c.srcPath) ∧ writeChange blob T c = none) := by
  generalize hp : pathOf c.srcPath = p at *
  unfold writeChange
  simp only [hp, hblob, Option.bind_eq_bind, Option.bind_some]
  cases p with
  | nil =>
    right
    refine ⟨fun h => h.1 rfl, ?_⟩
    split_ifs <;> simp [makedirs, FileTree.write]
  | cons name dir =>
    have hcons : ∀ q, q <:+ name :: dir ∧ q ≠ [] ↔ q = name :: dir ∨ q <:+ dir ∧ q ≠ [] := by
      intro q
      rw [List.suffix_cons_iff]
      constructor
      · rintro ⟨rfl | hq, hne⟩
        · exact Or.inl rfl
        · exact Or.inr ⟨hq, hne⟩
      · rintro (rfl | ⟨hq, hne⟩)
        · exact ⟨Or.inl rfl, by simp⟩
        · exact ⟨Or.inr hq, hne⟩
    -- writing once the directories are there
    have hwrite : ∀ T₁ : WorkTree, T₁.isDir dir = true → T₁.nodes[name :: dir]? ≠ some .dir →
        (∀ q, T₁.nodes[q]? = if q <:+ dir ∧ q ≠ [] then some .dir else T.nodes[q]?) →
        ∃ T', T₁.write (name :: dir) (gitOutput content) = some T' ∧
          Written T T' (name :: dir) (gitOutput content) := by
      intro T₁ hdir hno hnodes
      obtain ⟨T', hT'⟩ := write_eq_some_iff.mpr ⟨by simp, hdir, Bool.eq_false_iff.mpr fun h =>
        hno ((isDir_iff.mp h).resolve_left (by simp))⟩
      refine ⟨T', hT', ?_⟩
      intro q
      rw [getElem?_write hT', hnodes]
      by_cases hq : q = name :: dir
      · simp [hq]
      · rw [if_neg (Ne.symm hq), if_neg hq]
        simp only [hcons, hq, false_or]
    by_cases hadded : c.state = .added
    · rw [if_pos hadded, List.tail_cons]
      rcases makedirs_spec (T := T) dir with ⟨hno, T₁, hT₁, hnodes⟩ | ⟨hfile, hT₁⟩
      · rw [hT₁, Option.bind_some]
        have hdir : T₁.isDir dir = true := by
          rw [isDir_iff, hnodes]
          by_cases hroot : dir = []
          · exact Or.inl hroot
          · exact Or.inr (if_pos ⟨List.suffix_rfl, hroot⟩)
        have hself : T₁.nodes[name :: dir]? = T.nodes[name :: dir]? := by
          rw [hnodes, if_neg]
          exact fun h => by simpa using h.1.length_le
        by_cases hisdir : T.nodes[name :: dir]? = some .dir
        · right
          refine ⟨fun h => h.2.2 hisdir, ?_⟩
          rw [Option.eq_none_iff_forall_ne_some]
          intro T' hT'
          have hfree := (write_eq_some_iff.mp ⟨T', hT'⟩).2.2
          rw [Bool.eq_false_iff] at hfree
          exact hfree (isDir_iff.mpr (Or.inr (hself.trans hisdir)))
        · left
          exact ⟨⟨by simp, hno, hisdir⟩, hwrite T₁ hdir (hself ▸ hisdir) hnodes⟩
      · right
        refine ⟨fun h => hfile h.2.1, ?_⟩
        rw [hT₁]
        rfl
    · left
      obtain ⟨old, hold⟩ := hstate.resolve_left hadded
      rw [if_neg hadded]
      have hdir : T.isDir dir = true :=
        isDir_of_suffix (mem_of_getElem? hold) (List.suffix_cons name dir) (by simp)
      refine ⟨open_of_file hold, hwrite T hdir (by simp [hold]) ?_⟩
      intro q
      split_ifs with hq
      · exact getElem?_of_suffix hdir hq.1 hq.2
      · rfl

theorem suffix_tail_of_ne (h : q <:+ p) (hne : q ≠ p) : q <:+ p.tail := by
  cases p with
  | nil => exact h
  | cons name dir => exact (List.suffix_cons_iff.mp h).resolve_left hne

/-- Writing at a path leaves the other paths open or not, if neither is above the other. -/
theorem open_written_iff {content : Text} (hp : Open T p) (h : Written T T' p content)
    (hpq : p <:+ q → p = q) (hqp : q <:+ p → q = p) : Open T' q ↔ Open T q := by
  by_cases heq : q = p
  · subst heq
    have hcontent : T'.nodes[q]? = some (.file content) := by rw [h, if_pos rfl]
    exact iff_of_true (open_of_file hcontent) hp
  have hself : T'.nodes[q]? = T.nodes[q]? := by
    rw [h, if_neg heq, if_neg fun hq => heq (hqp hq.1)]
  have hfile : ∀ r, r <:+ q.tail → ∀ c,
      T'.nodes[r]? = some (.file c) ↔ T.nodes[r]? = some (.file c) := by
    intro r hr c
    have hrp : r ≠ p := by
      rintro rfl
      exact heq (hpq (hr.trans (List.tail_suffix q))).symm
    rw [h, if_neg hrp]
    split_ifs with hsuf
    · have hno := hp.2.1 r (suffix_tail_of_ne hsuf.1 hrp) c
      simp [hno]
    · rfl
  unfold Open NoFile
  rw [hself]
  apply and_congr_right
  intro _
  apply and_congr_left
  intro _
  apply forall₂_congr
  intro r hr
  apply forall_congr'
  intro c
  exact not_congr (hfile r hr c)

def pathsOf (changes : List ChangeInfo) : List Path := changes.map fun c => pathOf c.srcPath

/-- Changes of files of a commit, neither of which lies above another, are written in turn, unless
one of them is not open at the start. -/
theorem writeChanges_spec {B : Path → Option Text}
    (hapart : ∀ p ∈ pathsOf changes, ∀ q ∈ pathsOf changes, p <:+ q → p = q)
    (hstate : ∀ c ∈ changes, c.state = .added ∨
      ∃ old, T.nodes[pathOf c.srcPath]? = some (.file old))
    (hblob : ∀ c ∈ changes, ∃ content, blob c.srcPath = some content ∧
      B (pathOf c.srcPath) = some content) :
    ((∀ p ∈ pathsOf changes, Open T p) ∧ ∃ T', changes.foldlM (writeChange blob) T = some T' ∧
      ∀ q, T'.nodes[q]? =
        if q ∈ pathsOf changes then (B q).map fun content => .file (gitOutput content)
        else if (∃ p ∈ pathsOf changes, q <:+ p) ∧ q ≠ [] then some .dir else T.nodes[q]?) ∨
    (¬ (∀ p ∈ pathsOf changes, Open T p) ∧ changes.foldlM (writeChange blob) T = none) := by
  induction changes generalizing T with
  | nil =>
    left
    exact ⟨by simp [pathsOf], T, rfl, by simp [pathsOf]⟩
  | cons c changes ih =>
    have hpaths : pathsOf (c :: changes) = pathOf c.srcPath :: pathsOf changes := rfl
    rw [hpaths] at hapart ⊢
    simp only [List.forall_mem_cons] at hapart hstate hblob ⊢
    obtain ⟨content, hcontent, hB⟩ := hblob.1
    have hpq : ∀ q ∈ pathsOf changes, pathOf c.srcPath <:+ q → pathOf c.srcPath = q := hapart.1.2
    have hqp : ∀ q ∈ pathsOf changes, q <:+ pathOf c.srcPath → q = pathOf c.srcPath :=
      fun q hq => (hapart.2 q hq).1
    rw [List.foldlM_cons]
    rcases writeChange_spec hstate.1 hcontent with ⟨hopen, T₁, hT₁, hwritten⟩ | ⟨hblocked, hT₁⟩
    · rw [hT₁, Option.bind_eq_bind, Option.bind_some]
      have hiff : (∀ q ∈ pathsOf changes, Open T₁ q) ↔ ∀ q ∈ pathsOf changes, Open T q :=
        forall₂_congr fun q hq => open_written_iff hopen hwritten (hpq q hq) (hqp q hq)
      have hstate₁ : ∀ c' ∈ changes,
          c'.state = .added ∨ ∃ old, T₁.nodes[pathOf c'.srcPath]? = some (.file old) := by
        intro c' hc'
        have hmem : pathOf c'.srcPath ∈ pathsOf changes := List.mem_map_of_mem hc'
        apply (hstate.2 c' hc').imp_right
        rintro ⟨old, hold⟩
        rw [hwritten]
        split_ifs with heq hsuf
        · exact ⟨gitOutput content, rfl⟩
        · exact absurd (hqp _ hmem hsuf.1) heq
        · exact ⟨old, hold⟩
      rcases ih (fun p hp q hq => (hapart.2 p hp).2 q hq) hstate₁ hblob.2 with
        ⟨hall, T', hT', hnodes⟩ | ⟨hnot, hT'⟩
      · left
        refine ⟨⟨hopen, hiff.mp hall⟩, T', hT', ?_⟩
        intro q
        rw [hnodes, hwritten]
        simp only [List.mem_cons, exists_eq_or_imp]
        by_cases hq : q ∈ pathsOf changes
        · rw [if_pos hq, if_pos (Or.inr hq)]
        rw [if_neg hq]
        by_cases heq : q = pathOf c.srcPath
        · have hno : ¬ ((∃ p ∈ pathsOf changes, q <:+ p) ∧ q ≠ []) := by
            rintro ⟨⟨p, hp, hsuf⟩, _⟩
            subst heq
            exact hq (hpq p hp hsuf ▸ hp)
          rw [if_neg hno, if_pos heq, if_pos (Or.inl heq), heq, hB]
          rfl
        · have hnot : ¬ (q = pathOf c.srcPath ∨ q ∈ pathsOf changes) := not_or.mpr ⟨heq, hq⟩
          rw [if_neg hnot, if_neg heq]
          by_cases hroot : q = []
          · simp [hroot]
          · by_cases hrest : ∃ p ∈ pathsOf changes, q <:+ p
            · rw [if_pos ⟨hrest, hroot⟩, if_pos ⟨Or.inr hrest, hroot⟩]
            · simp only [hrest, or_false, false_and, if_false]
      · right
        exact ⟨fun h => hnot (hiff.mpr h.2), hT'⟩
    · right
      refine ⟨fun h => hblocked h.1, ?_⟩
      rw [hT₁]
      rfl

/-! ## Commits -/

/-- The files of a commit. -/
abbrev Snapshot := Path → Option Text

/-- No file of the commit lies above another one. -/
structure IsTree (B : Snapshot) : Prop where
  root : B [] = none
  apart : ∀ p q, (B p).isSome → (B q).isSome → p <:+ q → p = q

/-- The file is there, perhaps without the newline at its end. -/
def HasContent (T : WorkTree) (p : Path) (content : Text) : Prop :=
  T.nodes[p]? = some (.file content) ∨ T.nodes[p]? = some (.file (gitOutput content))

def ChecksOut (T : WorkTree) (A : Snapshot) : Prop :=
  ∀ p c, A p = some c → HasContent T p c

def pathsWith (state : ChangeState) (changes : List ChangeInfo) : List Path :=
  pathsOf (changes.filter fun c => c.state = state)

/-- The paths of the files that are written. -/
def writtenPaths (changes : List ChangeInfo) : List Path :=
  pathsOf (changes.filter fun c => c.state ≠ .deleted)

/-- The changes are those from one commit to the next one. -/
structure Describes (A B : Snapshot) (changes : List ChangeInfo) : Prop where
  deleted : ∀ p, p ∈ pathsWith .deleted changes ↔ (A p).isSome ∧ B p = none
  added : ∀ p, p ∈ pathsWith .added changes ↔ A p = none ∧ (B p).isSome
  modified : ∀ p ∈ pathsWith .modified changes, (A p).isSome ∧ (B p).isSome
  unchanged : ∀ p, (A p).isSome → (B p).isSome → p ∉ pathsWith .modified changes → A p = B p
  deleted_nodup : (pathsWith .deleted changes).Nodup

/-- An added file cannot be written: a file that stays lies above it, or a directory stays at it. -/
def Blocked (T : WorkTree) (changes : List ChangeInfo) (p : Path) : Prop :=
  (∃ q c, q <:+ p ∧ q ≠ p ∧ q ∉ pathsWith .deleted changes ∧ T.nodes[q]? = some (.file c)) ∨
    (T.nodes[p]? = some .dir ∧ T.Kept (pathsWith .deleted changes) p)

/-- The work tree after a commit: the added and the modified files as git returns them, the files
without a change as they were, and no deleted file; the directories of the added files, and those
that have not become empty. -/
structure Follows (T T' : WorkTree) (B : Snapshot) (changes : List ChangeInfo) : Prop where
  file : ∀ q c, T'.nodes[q]? = some (.file c) ↔
    (q ∈ writtenPaths changes ∧ (B q).map gitOutput = some c) ∨
      (q ∉ pathsOf changes ∧ T.nodes[q]? = some (.file c))
  dir : ∀ q, T'.nodes[q]? = some .dir ↔
    (∃ p ∈ pathsWith .added changes, q <:+ p ∧ q ≠ p ∧ q ≠ []) ∨
      (T.nodes[q]? = some .dir ∧ T.Kept (pathsWith .deleted changes) q)

theorem mem_pathsWith {state : ChangeState} :
    p ∈ pathsWith state changes ↔ ∃ c ∈ changes, c.state = state ∧ pathOf c.srcPath = p := by
  simp [pathsWith, pathsOf, and_assoc]

theorem mem_writtenPaths : p ∈ writtenPaths changes ↔
    p ∈ pathsWith .added changes ∨ p ∈ pathsWith .modified changes := by
  have hstate : ∀ st : ChangeState, st ≠ .deleted ↔ st = .added ∨ st = .modified := by
    intro st
    cases st <;> simp
  simp only [mem_pathsWith, writtenPaths, pathsOf, List.mem_map, List.mem_filter,
    decide_eq_true_eq, hstate]
  constructor
  · rintro ⟨c, ⟨hc, hst | hst⟩, hp⟩
    · exact Or.inl ⟨c, hc, hst, hp⟩
    · exact Or.inr ⟨c, hc, hst, hp⟩
  · rintro (⟨c, hc, hst, hp⟩ | ⟨c, hc, hst, hp⟩)
    · exact ⟨c, ⟨hc, Or.inl hst⟩, hp⟩
    · exact ⟨c, ⟨hc, Or.inr hst⟩, hp⟩

theorem mem_pathsOf :
    p ∈ pathsOf changes ↔ p ∈ pathsWith .deleted changes ∨ p ∈ writtenPaths changes := by
  unfold pathsOf
  rw [List.mem_map, mem_writtenPaths]
  simp only [mem_pathsWith]
  constructor
  · rintro ⟨c, hc, hp⟩
    cases hst : c.state with
    | added => exact Or.inr (Or.inl ⟨c, hc, hst, hp⟩)
    | deleted => exact Or.inl ⟨c, hc, hst, hp⟩
    | modified => exact Or.inr (Or.inr ⟨c, hc, hst, hp⟩)
  · rintro (⟨c, hc, _, hp⟩ | ⟨c, hc, _, hp⟩ | ⟨c, hc, _, hp⟩) <;> exact ⟨c, hc, hp⟩

theorem HasContent.exists_file {content : Text} (h : HasContent T p content) :
    ∃ c, T.nodes[p]? = some (.file c) := by
  rcases h with h | h <;> exact ⟨_, h⟩

theorem kept_file_iff {dels : List Path} {content : Text}
    (hdels : ∀ r ∈ dels, ∃ c, T.nodes[r]? = some (.file c))
    (hq : T.nodes[q]? = some (.file content)) : T.Kept dels q ↔ q ∉ dels := by
  constructor
  · rintro ⟨s, hs, hqs, hno⟩ hmem
    obtain rfl := eq_of_suffix_of_file hq hs hqs
    exact hno s hmem List.suffix_rfl
  · intro hno
    refine ⟨q, mem_of_getElem? hq, List.suffix_rfl, ?_⟩
    intro r hr hsuf
    obtain ⟨c, hc⟩ := hdels r hr
    exact hno (eq_of_suffix_of_file hq (mem_of_getElem? hc) hsuf ▸ hr)

section Commit

variable {A B : Snapshot} (hT : ChecksOut T A) (hB : IsTree B) (hd : Describes A B changes)

include hT hd in
theorem deleted_files : ∀ r ∈ pathsWith .deleted changes, ∃ c, T.nodes[r]? = some (.file c) := by
  intro r hr
  obtain ⟨c, hc⟩ := Option.isSome_iff_exists.mp ((hd.deleted r).mp hr).1
  exact (hT r c hc).exists_file

include hd in
theorem isSome_of_mem_writtenPaths (hp : p ∈ writtenPaths changes) : (B p).isSome := by
  rcases mem_writtenPaths.mp hp with hp | hp
  · exact ((hd.added p).mp hp).2
  · exact (hd.modified p hp).2

variable {T₁ : WorkTree} (hrest : T.Restricts T₁ (T.Kept (pathsWith .deleted changes)))

include hT hd hrest

theorem modified_stays (hp : p ∈ pathsWith .modified changes) :
    ∃ c, T₁.nodes[p]? = some (.file c) := by
  obtain ⟨hA, hBp⟩ := hd.modified p hp
  obtain ⟨a, ha⟩ := Option.isSome_iff_exists.mp hA
  obtain ⟨c, hc⟩ := (hT p a ha).exists_file
  refine ⟨c, (hrest _ _).mpr ⟨hc, ?_⟩⟩
  rw [kept_file_iff (deleted_files hT hd) hc, hd.deleted]
  simp [Option.isSome_iff_ne_none.mp hBp]

include hB

/-- Once the deleted files are removed, a file can be written exactly if it is not blocked. -/
theorem open_iff (hp : p ∈ pathsWith .added changes) : Open T₁ p ↔ ¬ Blocked T changes p := by
  have hne : p ≠ [] := by
    rintro rfl
    simpa [hB.root] using ((hd.added []).mp hp).2
  unfold Open Blocked
  rw [not_or, and_iff_right hne]
  apply and_congr
  · constructor
    · rintro h ⟨q, c, hq, hqp, hdel, hfile⟩
      exact h q (suffix_tail_of_ne hq hqp) c ((hrest _ _).mpr
        ⟨hfile, (kept_file_iff (deleted_files hT hd) hfile).mpr hdel⟩)
    · intro h q hq c hfile
      obtain ⟨hfileT, hkept⟩ := (hrest _ _).mp hfile
      refine h ⟨q, c, hq.trans (List.tail_suffix p), ?_,
        (kept_file_iff (deleted_files hT hd) hfileT).mp hkept, hfileT⟩
      rintro rfl
      have hlen := hq.length_le
      cases q with
      | nil => exact hne rfl
      | cons name dir => simp at hlen
  · rw [ne_eq, hrest]

theorem follows_of_nodes (hopen : ∀ p ∈ writtenPaths changes, Open T₁ p)
    (hnodes : ∀ q, T'.nodes[q]? =
      if q ∈ writtenPaths changes then (B q).map fun content => .file (gitOutput content)
      else if (∃ p ∈ writtenPaths changes, q <:+ p) ∧ q ≠ [] then some .dir
      else T₁.nodes[q]?) : Follows T T' B changes := by
  have hothers : ∀ p ∈ writtenPaths changes, (B p).isSome :=
    fun p hp => isSome_of_mem_writtenPaths hd hp
  -- files that are not written were there
  have hstays : ∀ q c, q ∉ writtenPaths changes → (T₁.nodes[q]? = some (.file c) ↔
      q ∉ pathsOf changes ∧ T.nodes[q]? = some (.file c)) := by
    intro q c hq
    rw [hrest, mem_pathsOf, not_or, and_iff_left hq, and_comm]
    exact and_congr_left fun hfile => kept_file_iff (deleted_files hT hd) hfile
  constructor
  · intro q c
    rw [hnodes]
    split_ifs with hq habove
    · obtain ⟨b, hb⟩ := Option.isSome_iff_exists.mp (hothers q hq)
      simp [hb, hq, mem_pathsOf]
    · obtain ⟨⟨p, hp, hqp⟩, hne⟩ := habove
      have hpq : q ≠ p := fun heq => hq (heq ▸ hp)
      have hno := (hopen p hp).2.1 q (suffix_tail_of_ne hqp hpq) c
      rw [ne_eq, hstays q c hq] at hno
      simp [hno, hq]
    · rw [hstays q c hq]
      simp [hq]
  · intro q
    rw [hnodes, ← hrest]
    split_ifs with hq habove
    · refine iff_of_false ?_ ?_
      · obtain ⟨b, hb⟩ := Option.isSome_iff_exists.mp (hothers q hq)
        simp [hb]
      · rintro (⟨p, hp, hqp, hne, _⟩ | hdir)
        · exact hne (hB.apart q p (hothers q hq) ((hd.added p).mp hp).2 hqp)
        · exact (hopen q hq).2.2 hdir
    · obtain ⟨⟨p, hp, hqp⟩, hne⟩ := habove
      have hpq : q ≠ p := fun heq => hq (heq ▸ hp)
      refine iff_of_true rfl ?_
      rcases mem_writtenPaths.mp hp with hadd | hmod
      · exact Or.inl ⟨p, hadd, hqp, hpq, hne⟩
      · obtain ⟨c, hc⟩ := modified_stays hT hd hrest hmod
        exact Or.inr ((isDir_iff.mp
          (isDir_of_suffix (mem_of_getElem? hc) hqp hpq)).resolve_left hne)
    · refine (or_iff_right ?_).symm
      rintro ⟨p, hp, hqp, _, hne⟩
      exact habove ⟨⟨p, mem_writtenPaths.mpr (Or.inl hp), hqp⟩, hne⟩

omit hrest

/-- The update takes the work tree from one commit to the next, unless an added file is blocked. -/
theorem updateRepo_spec (hblob : ∀ c ∈ changes, c.state ≠ .deleted →
      blob c.srcPath = B (pathOf c.srcPath)) :
    ((∀ p ∈ pathsWith .added changes, ¬ Blocked T changes p) ∧
      ∃ T', updateRepo blob changes T = some T' ∧ Follows T T' B changes) ∨
    (¬ (∀ p ∈ pathsWith .added changes, ¬ Blocked T changes p) ∧
      updateRepo blob changes T = none) := by
  obtain ⟨T₁, hT₁, hrest⟩ := removeFiles_spec hd.deleted_nodup (deleted_files hT hd)
  have hremoved : removeDeleted changes T = some T₁ := by
    rw [← hT₁]
    unfold removeDeleted pathsWith pathsOf
    rw [List.foldlM_map]
  have hothers : ∀ p ∈ writtenPaths changes, (B p).isSome :=
    fun p hp => isSome_of_mem_writtenPaths hd hp
  -- the files to be written are files of a commit
  have hstate : ∀ c ∈ changes.filter fun c => c.state ≠ .deleted, c.state = .added ∨
      ∃ old, T₁.nodes[pathOf c.srcPath]? = some (.file old) := by
    intro c hc
    rw [List.mem_filter, decide_eq_true_eq] at hc
    cases hst : c.state with
    | added => exact Or.inl rfl
    | deleted => exact absurd hst hc.2
    | modified =>
      exact Or.inr (modified_stays hT hd hrest (mem_pathsWith.mpr ⟨c, hc.1, hst, rfl⟩))
  have hcontents : ∀ c ∈ changes.filter fun c => c.state ≠ .deleted,
      ∃ content, blob c.srcPath = some content ∧ B (pathOf c.srcPath) = some content := by
    intro c hc
    have hB := hothers _ (List.mem_map_of_mem hc)
    rw [List.mem_filter, decide_eq_true_eq] at hc
    obtain ⟨content, hcontent⟩ := Option.isSome_iff_exists.mp hB
    exact ⟨content, (hblob c hc.1 hc.2).trans hcontent, hcontent⟩
  have hwritten := writeChanges_spec
    (fun p hp q hq => hB.apart p q (hothers p hp) (hothers q hq)) hstate hcontents
  have hopen : (∀ p ∈ writtenPaths changes, Open T₁ p) ↔
      ∀ p ∈ pathsWith .added changes, ¬ Blocked T changes p := by
    constructor
    · exact fun h p hp => (open_iff hT hB hd hrest hp).mp (h p (mem_writtenPaths.mpr (Or.inl hp)))
    · intro h p hp
      rcases mem_writtenPaths.mp hp with hp | hp
      · exact (open_iff hT hB hd hrest hp).mpr (h p hp)
      · obtain ⟨c, hc⟩ := modified_stays hT hd hrest hp
        exact open_of_file hc
  rw [← writtenPaths, hopen] at hwritten
  unfold updateRepo
  rw [hremoved, Option.bind_eq_bind, Option.bind_some]
  unfold writeOthers
  rcases hwritten with ⟨hfree, T', hT', hnodes⟩ | hblocked
  · left
    exact ⟨hfree, T', hT', follows_of_nodes hT hB hd hrest (hopen.mpr hfree) hnodes⟩
  · exact Or.inr hblocked

end Commit

theorem Follows.checksOut {A B : Snapshot} (h : Follows T T' B changes) (hT : ChecksOut T A)
    (hd : Describes A B changes) : ChecksOut T' B := by
  intro p b hb
  by_cases hp : p ∈ writtenPaths changes
  · exact Or.inr ((h.file p _).mpr (Or.inl ⟨hp, by simp [hb]⟩))
  have hsame := hp
  rw [mem_writtenPaths, not_or, hd.added] at hsame
  have hA : (A p).isSome := by simpa [hb, Option.isSome_iff_ne_none] using hsame.1
  have hno : p ∉ pathsOf changes := by
    rw [mem_pathsOf, not_or, hd.deleted]
    exact ⟨by simp [hb], hp⟩
  have heq := hd.unchanged p hA (by simp [hb]) hsame.2
  apply (hT p b (heq.trans hb)).imp
  · exact fun hfile => (h.file p _).mpr (Or.inr ⟨hno, hfile⟩)
  · exact fun hfile => (h.file p _).mpr (Or.inr ⟨hno, hfile⟩)

/-- The work trees of a run, with the commits they are at. A build may do anything to the files
that are not those of the commit. -/
inductive WorkRun : WorkTree → Snapshot → Prop
  | checkout (T : WorkTree) (A : Snapshot) (checks_out : ChecksOut T A) : WorkRun T A
  | build {T : WorkTree} {A : Snapshot} (T' : WorkTree) (run : WorkRun T A)
      (checks_out : ChecksOut T' A) : WorkRun T' A
  | commit {T T' : WorkTree} {A : Snapshot} (B : Snapshot) (blob : Text → Option Text)
      (changes : List ChangeInfo) (run : WorkRun T A) (tree : IsTree B)
      (describes : Describes A B changes)
      (blobs : ∀ c ∈ changes, c.state ≠ .deleted → blob c.srcPath = B (pathOf c.srcPath))
      (step : updateRepo blob changes T = some T') : WorkRun T' B

theorem WorkRun.checksOut {A : Snapshot} (h : WorkRun T A) : ChecksOut T A := by
  induction h with
  | checkout T A hT => exact hT
  | build T' _ hT' _ => exact hT'
  | commit B blob changes _ hB hd hblob hstep ih =>
    rcases updateRepo_spec ih hB hd hblob with ⟨_, T', hT', hfollows⟩ | ⟨_, hnone⟩
    · obtain rfl := Option.some.inj (hstep.symm.trans hT')
      exact hfollows.checksOut ih hd
    · simp [hstep] at hnone

/-- In a run the work tree has the files of the commit it is at, up to newlines at the end. It
follows to the next commit, and leaves what has no change alone, exactly if no added file is
blocked by what is there besides. -/
theorem worktree_follows {A : Snapshot} (h : WorkRun T A) : ChecksOut T A ∧
    ∀ B blob changes, IsTree B → Describes A B changes →
      (∀ c ∈ changes, c.state ≠ .deleted → blob c.srcPath = B (pathOf c.srcPath)) →
      ((∃ T', updateRepo blob changes T = some T') ↔
        ∀ p ∈ pathsWith .added changes, ¬ Blocked T changes p) ∧
      ∀ T', updateRepo blob changes T = some T' → Follows T T' B changes := by
  refine ⟨h.checksOut, ?_⟩
  intro B blob changes hB hd hblob
  rcases updateRepo_spec h.checksOut hB hd hblob with ⟨hfree, T', hT', hfollows⟩ | ⟨hno, hnone⟩
  · refine ⟨iff_of_true ⟨T', hT'⟩ hfree, ?_⟩
    intro T'' hT''
    obtain rfl := Option.some.inj (hT'.symm.trans hT'')
    exact hfollows
  · refine ⟨iff_of_false ?_ hno, ?_⟩
    · rintro ⟨T', hT'⟩
      simp [hnone] at hT'
    · intro T' hT'
      simp [hnone] at hT'

def oneFile (p : Path) (content : Text) : Snapshot := fun q => if q = p then some content else none

theorem isTree_oneFile (hp : p ≠ []) (content : Text) : IsTree (oneFile p content) where
  root := if_neg hp.symm
  apart := by
    intro q r hq hr _
    simp only [oneFile, Option.isSome_ite] at hq hr
    exact hq.trans hr.symm

/-- A commit that moves a file into a directory of its own. -/
def movedChanges : List ChangeInfo :=
  [{ state := .deleted, srcPath := "a.c".toList }, { state := .added, srcPath := "b/a.c".toList }]

theorem describes_movedChanges : Describes (oneFile ["a.c".toList] "x".toList)
    (oneFile ["a.c".toList, "b".toList] "y".toList) movedChanges := by
  have hdel : pathsWith .deleted movedChanges = [["a.c".toList]] := by decide
  have hadd : pathsWith .added movedChanges = [["a.c".toList, "b".toList]] := by decide
  have hmod : pathsWith .modified movedChanges = [] := by decide
  have hne : ["a.c".toList] ≠ ["a.c".toList, "b".toList] := by decide
  constructor
  · intro p
    rw [hdel, List.mem_singleton]
    constructor
    · rintro rfl
      simp [oneFile]
    · intro h
      simpa [oneFile] using h.1
  · intro p
    rw [hadd, List.mem_singleton]
    constructor
    · rintro rfl
      simp [oneFile]
    · intro h
      simpa [oneFile] using h.2
  · simp [hmod]
  · intro p hA hB _
    simp only [oneFile, Option.isSome_ite] at hA hB
    exact absurd (hA.symm.trans hB) hne
  · rw [hdel]
    exact List.nodup_singleton _

theorem worktree_follows_moved : ∃ T T',
    updateRepo (fun _ => some "y".toList) movedChanges T = some T' ∧
      Follows T T' (oneFile ["a.c".toList, "b".toList] "y".toList) movedChanges := by
  obtain ⟨T, hT⟩ := write_eq_some_iff.mpr
    (⟨by simp, rfl, rfl⟩ : ["a.c".toList] ≠ [] ∧ ({} : WorkTree).isDir _ = true ∧ _ = false)
  have hnodes := getElem?_write (c := "x".toList) hT
  have hempty : ∀ q : Path, ({} : WorkTree).nodes[q]? = none := fun _ => ExtTreeMap.getElem?_empty
  have hrun : WorkRun T (oneFile ["a.c".toList] "x".toList) := by
    apply WorkRun.checkout
    intro p c hp
    obtain ⟨rfl, rfl⟩ : p = ["a.c".toList] ∧ "x".toList = c := by simpa [oneFile] using hp
    exact Or.inl (by rw [hnodes, if_pos rfl])
  have hblobs : ∀ c ∈ movedChanges, c.state ≠ .deleted → some "y".toList =
      oneFile ["a.c".toList, "b".toList] "y".toList (pathOf c.srcPath) := by decide
  obtain ⟨hiff, hfollows⟩ := (worktree_follows hrun).2 _ (fun _ => some "y".toList) movedChanges
    (isTree_oneFile (by simp) _) describes_movedChanges hblobs
  have hfree : ∀ p ∈ pathsWith .added movedChanges, ¬ Blocked T movedChanges p := by
    have hadd : pathsWith .added movedChanges = [["a.c".toList, "b".toList]] := by decide
    rw [hadd, List.forall_mem_singleton]
    rintro (⟨q, c, hq, hqp, hdel, hfile⟩ | ⟨hdir, _⟩)
    · rw [hnodes, hempty] at hfile
      split_ifs at hfile with heq
      subst heq
      exact absurd hq (by decide)
    · rw [hnodes, hempty] at hdir
      simp at hdir
  obtain ⟨T', hT'⟩ := hiff.mpr hfree
  exact ⟨T, T', hT', hfollows T' hT'⟩

end Entry

end Cisa

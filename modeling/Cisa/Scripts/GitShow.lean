import Cisa.Scripts.Comanal

/-!
# What `git show` prints

A commit is printed as a preamble with the message, then one section for every file: the
line that names it, header lines, and the hunks. `getChangeInfos_text` says what the diff
reader makes of it.
-/

namespace Cisa

namespace GitShow

open Comanal

/-- A line of a hunk. -/
inductive DiffLine
  | context (text : Text)
  | deleted (text : Text)
  | added (text : Text)
  | noNewline
deriving DecidableEq, Repr

def DiffLine.print : DiffLine → Text
  | context text => ' ' :: text
  | deleted text => '-' :: text
  | added text => '+' :: text
  | noNewline => "\\ No newline at end of file".toList

/-- A hunk: where it starts in the old and in the new file, and how many lines of them it
covers where the counts are printed. -/
structure Hunk where
  pre : ℕ
  preCount : Option ℕ := none
  post : ℕ
  postCount : Option ℕ := none
  heading : Text := []
  lines : List DiffLine
deriving DecidableEq, Repr

def printRange (start : ℕ) (count : Option ℕ) : Text :=
  Nat.toDigits 10 start ++ (count.map fun n => ',' :: Nat.toDigits 10 n).getD []

def Hunk.header (h : Hunk) : Text :=
  "@@ -".toList ++ (printRange h.pre h.preCount ++ (" +".toList ++
    (printRange h.post h.postCount ++ (" @@".toList ++ h.heading))))

def Hunk.print (h : Hunk) : List Text := h.header :: h.lines.map DiffLine.print

inductive HeaderKind
  | oldMode | newMode | deletedFile | newFile | copyFrom | copyTo | renameFrom | renameTo
  | similarity | dissimilarity | index | preName | postName | binary
deriving DecidableEq, Repr

/-- The first word of a header line, and the rest of what identifies it. -/
def HeaderKind.key : HeaderKind → Text × Text
  | oldMode => ("old".toList, "mode ".toList)
  | newMode => ("new".toList, "mode ".toList)
  | deletedFile => ("deleted".toList, "file mode ".toList)
  | newFile => ("new".toList, "file mode ".toList)
  | copyFrom => ("copy".toList, "from ".toList)
  | copyTo => ("copy".toList, "to ".toList)
  | renameFrom => ("rename".toList, "from ".toList)
  | renameTo => ("rename".toList, "to ".toList)
  | similarity => ("similarity".toList, "index ".toList)
  | dissimilarity => ("dissimilarity".toList, "index ".toList)
  | index => ("index".toList, [])
  | preName => ("---".toList, [])
  | postName => ("+++".toList, [])
  | binary => ("Binary".toList, "files ".toList)

structure HeaderLine where
  kind : HeaderKind
  value : Text
deriving DecidableEq, Repr

def HeaderLine.print (l : HeaderLine) : Text := l.kind.key.1 ++ ' ' :: (l.kind.key.2 ++ l.value)

/-- The section of a file. -/
structure FileDiff where
  pre : Text
  post : Text
  headerLines : List HeaderLine
  hunks : List Hunk
deriving DecidableEq, Repr

namespace FileDiff

variable (f : FileDiff)

def name : Text :=
  "diff".toList ++ ' ' :: ("--git".toList ++ ' ' :: ("a/".toList ++ f.pre ++ ' ' ::
    ("b/".toList ++ f.post)))

def print : List Text :=
  f.name :: (f.headerLines.map HeaderLine.print ++ f.hunks.flatMap Hunk.print)

def has (kind : HeaderKind) : Bool := f.headerLines.any fun l => l.kind = kind

end FileDiff

/-- A commit as it is printed. -/
structure Commit where
  preamble : List Text
  files : List FileDiff

def Commit.print (D : Commit) : List Text := D.preamble ++ D.files.flatMap FileDiff.print

/-- The numbers of the lines shown with `-` and with `+`, from the given positions on. -/
def lineNumbers : ℤ × ℤ → List DiffLine → List ℤ × List ℤ
  | _, [] => ([], [])
  | (pre, post), .context _ :: lines => lineNumbers (pre + 1, post + 1) lines
  | (pre, post), .deleted _ :: lines =>
    let rest := lineNumbers (pre + 1, post) lines
    (pre :: rest.1, rest.2)
  | (pre, post), .added _ :: lines =>
    let rest := lineNumbers (pre, post + 1) lines
    (rest.1, post :: rest.2)
  | start, .noNewline :: lines => lineNumbers start lines

namespace FileDiff

variable (f : FileDiff)

def lineNumbers : List ℤ × List ℤ :=
  (f.hunks.flatMap fun h => (GitShow.lineNumbers (h.pre, h.post) h.lines).1,
    f.hunks.flatMap fun h => (GitShow.lineNumbers (h.pre, h.post) h.lines).2)

/-- The pair of paths that is read: a new mode reads like a new file. -/
def paths : Option Text × Option Text :=
  (some (if f.has .newFile || f.has .newMode then [] else f.pre),
    some (if f.has .deletedFile then [] else f.post))

end FileDiff

/-- The entries of the files: a section without hunks is skipped unless it is the last. -/
def changesOfFiles : List FileDiff → List ChangeInfo
  | [] => []
  | [f] => changesOf f.paths f.lineNumbers
  | f :: g :: fs =>
    if f.hunks = [] then changesOfFiles (g :: fs)
    else changesOf f.paths f.lineNumbers ++ changesOfFiles (g :: fs)

/-- The path is printed as it is, and as one word. -/
structure Plain (path : Text) : Prop where
  ne_nil : path ≠ []
  no_space : path.any isSpace = false

/-- The lines of the preamble: the header, and the indented message. -/
def PreambleLine (line : Text) : Prop :=
  line.head? = some ' ' ∨ ∀ tok ∈ (split line).head?,
    tok ∉ ["diff".toList, "deleted".toList, "new".toList, "@@".toList]

section Reader

variable {rest : List Text} {paths : Option Text × Option Text}

theorem split_append {tok cs : Text} (htok : tok.any isSpace = false) (hne : tok ≠ []) :
    split (tok ++ ' ' :: cs) = tok :: split cs := by
  apply Words.words_append _ hne (by decide)
  simpa using htok

theorem Plain.any_append {pre path : Text} (h : Plain path) (hpre : pre.any isSpace = false) :
    (pre ++ path).any isSpace = false := by
  rw [List.any_append, hpre, h.no_space]
  rfl

theorem getPathPair_name {f : FileDiff} (hpre : Plain f.pre) (hpost : Plain f.post) :
    getPathPair paths (f.name :: rest) = getPathPair (some f.pre, some f.post) rest := by
  have hsplit : split f.name = ["diff".toList, "--git".toList, "a/".toList ++ f.pre,
      "b/".toList ++ f.post] := by
    unfold FileDiff.name
    rw [split_append (by decide) (by decide), split_append (by decide) (by decide),
      split_append (hpre.any_append (by decide)) (by simp)]
    have hlast : split ("b/".toList ++ f.post) = ["b/".toList ++ f.post] := by
      have hb : "b/".toList.any isSpace = false := by decide
      apply Words.words_self _ (by simp)
      simpa using hpost.any_append hb
    rw [hlast]
  rw [getPathPair, hsplit]
  rfl

theorem split_headerLine (l : HeaderLine) :
    ∃ toks, split l.print = l.kind.key.1 :: toks := by
  refine ⟨_, split_append ?_ ?_⟩
  · cases l.kind <;> rfl
  · cases l.kind <;> decide

/-- What a header line does to the pair. -/
def HeaderLine.apply (l : HeaderLine) (paths : Option Text × Option Text) :
    Option Text × Option Text :=
  match l.kind with
  | .newFile | .newMode => (some [], paths.2)
  | .deletedFile => (paths.1, some [])
  | _ => paths

theorem getPathPair_headerLine (l : HeaderLine) :
    getPathPair paths (l.print :: rest) = getPathPair (l.apply paths) rest := by
  obtain ⟨toks, hsplit⟩ := split_headerLine l
  rw [getPathPair, hsplit]
  unfold HeaderLine.apply
  cases l.kind <;> rfl

theorem foldl_apply (ls : List HeaderLine) (pre post : Text) :
    ls.foldl (fun paths l => HeaderLine.apply l paths) (some pre, some post) =
      (some (if ls.any (fun l => l.kind = .newFile) || ls.any (fun l => l.kind = .newMode)
          then [] else pre),
        some (if ls.any (fun l => l.kind = .deletedFile) then [] else post)) := by
  induction ls generalizing pre post with
  | nil => rfl
  | cons l ls ih =>
    have happly : l.apply (some pre, some post) =
        (some (if l.kind = .newFile ∨ l.kind = .newMode then [] else pre),
          some (if l.kind = .deletedFile then [] else post)) := by
      unfold HeaderLine.apply
      cases l.kind <;> rfl
    rw [List.foldl_cons, happly, ih, List.any_cons, List.any_cons, List.any_cons]
    cases l.kind <;> simp

theorem getPathPair_headerLines {f : FileDiff} (hpre : Plain f.pre) (hpost : Plain f.post) :
    getPathPair paths (f.name :: (f.headerLines.map HeaderLine.print ++ rest)) =
      getPathPair f.paths rest := by
  have hlines : ∀ (ls : List HeaderLine) paths,
      getPathPair paths (ls.map HeaderLine.print ++ rest) =
        getPathPair (ls.foldl (fun paths l => l.apply paths) paths) rest := by
    intro ls
    induction ls with
    | nil => exact fun _ => rfl
    | cons l ls ih =>
      intro paths
      rw [List.map_cons, List.cons_append, getPathPair_headerLine, ih]
      rfl
  rw [getPathPair_name hpre hpost, hlines, foldl_apply]
  rfl

theorem split_header (h : Hunk) : ∃ toks, split h.header = "@@".toList :: toks := by
  have hsep : "@@".toList.any isSpace = false := by decide
  exact ⟨_, split_append hsep (by decide)⟩

theorem getPathPair_hunk (h : Hunk) :
    getPathPair paths (h.print ++ rest) = some (paths, h.print ++ rest) := by
  obtain ⟨toks, hsplit⟩ := split_header h
  unfold Hunk.print
  rw [List.cons_append, getPathPair, hsplit]
  rfl

end Reader

section Hunks

variable {rest : List Text}

theorem skipCount_printRange (start : ℕ) (count : Option ℕ) (cs : Text) :
    ∃ cs', Words.readNat (printRange start count ++ ' ' :: cs) = some (start, cs') ∧
      skipCount cs' = ' ' :: cs := by
  unfold printRange
  cases count with
  | none =>
    refine ⟨' ' :: cs, ?_, rfl⟩
    rw [Option.map_none, Option.getD_none, List.append_nil]
    exact Words.readNat_append (by decide)
  | some n =>
    refine ⟨',' :: (Nat.toDigits 10 n ++ ' ' :: cs), ?_, ?_⟩
    · rw [Option.map_some, Option.getD_some, List.append_assoc, List.cons_append]
      exact Words.readNat_append (by decide)
    · have hread : Words.readNat (Nat.toDigits 10 n ++ ' ' :: cs) = some (n, ' ' :: cs) :=
        Words.readNat_append (by decide)
      simp only [skipCount, hread, Option.map_some, Option.getD_some]

theorem dropPrefix?_append (p cs : Text) : (p ++ cs).dropPrefix? p = some cs :=
  List.dropPrefix?_append_of_beq cs (beq_self_eq_true p)

theorem searchHeader_header (h : Hunk) : searchHeader h.header = some (h.pre, h.post) := by
  obtain ⟨cs, hread, hskip⟩ := skipCount_printRange h.pre h.preCount
    ('+' :: (printRange h.post h.postCount ++ (" @@".toList ++ h.heading)))
  obtain ⟨cs', hread', hskip'⟩ := skipCount_printRange h.post h.postCount
    ("@@".toList ++ h.heading)
  have hmatch : matchHeader h.header = some (h.pre, h.post) := by
    have hplus : (skipCount cs).dropPrefix? " +".toList =
        some (printRange h.post h.postCount ++ (" @@".toList ++ h.heading)) := by
      rw [hskip]
      exact dropPrefix?_append " +".toList _
    have hend : (skipCount cs').dropPrefix? " @@".toList = some h.heading := by
      rw [hskip']
      exact dropPrefix?_append " @@".toList _
    unfold matchHeader Hunk.header
    rw [dropPrefix?_append]
    simp only [Option.bind_eq_bind, Option.bind_some, Option.pure_def]
    have hread1 : Words.readNat (printRange h.pre h.preCount ++ (" +".toList ++
        (printRange h.post h.postCount ++ (" @@".toList ++ h.heading)))) = some (h.pre, cs) := hread
    have hread2 : Words.readNat (printRange h.post h.postCount ++ (" @@".toList ++ h.heading)) =
        some (h.post, cs') := hread'
    rw [hread1, Option.bind_some]
    dsimp only
    rw [hplus, Option.bind_some, hread2, Option.bind_some]
    dsimp only
    rw [hend, Option.bind_some]
  have hcons : ∀ {cs : Text} {r}, matchHeader cs = some r → searchHeader cs = some r := by
    intro cs r hr
    cases cs with
    | nil => exact hr
    | cons c cs => rw [searchHeader, hr, Option.orElse_some]
  exact hcons hmatch

variable {ch : List ℤ × List ℤ}

theorem getChangedLinesPair_lines (ls : List DiffLine) (start : ℤ × ℤ) (ch : List ℤ × List ℤ)
    (rest : List Text) :
    ∃ stop, getChangedLinesPair (some start) ch (ls.map DiffLine.print ++ rest) =
      getChangedLinesPair (some stop)
        (ch.1 ++ (lineNumbers start ls).1, ch.2 ++ (lineNumbers start ls).2) rest := by
  induction ls generalizing start ch with
  | nil => exact ⟨start, by simp [lineNumbers]⟩
  | cons l ls ih =>
    obtain ⟨pre, post⟩ := start
    cases l with
    | context text =>
      obtain ⟨stop, hstop⟩ := ih (pre + 1, post + 1) ch
      exact ⟨stop, hstop⟩
    | deleted text =>
      obtain ⟨stop, hstop⟩ := ih (pre + 1, post) (ch.1 ++ [pre], ch.2)
      refine ⟨stop, hstop.trans ?_⟩
      simp [lineNumbers]
    | added text =>
      obtain ⟨stop, hstop⟩ := ih (pre, post + 1) (ch.1, ch.2 ++ [post])
      refine ⟨stop, hstop.trans ?_⟩
      simp [lineNumbers]
    | noNewline =>
      obtain ⟨stop, hstop⟩ := ih (pre, post) ch
      exact ⟨stop, hstop⟩

/-- The lines that end the hunks of a file. -/
def EndsHunks (rest : List Text) : Prop := ∀ line ∈ rest.head?, line.take 4 = "diff".toList

theorem getChangedLinesPair_end {cur : Option (ℤ × ℤ)} (h : EndsHunks rest) :
    getChangedLinesPair cur ch rest = some (ch, rest) := by
  cases rest with
  | nil => rfl
  | cons line rest =>
    have hline := h line rfl
    cases line with
    | nil => simp at hline
    | cons c cs =>
      have hc : c = 'd' := by
        rw [List.take_succ_cons] at hline
        exact (List.cons.inj hline).1
      subst hc
      unfold getChangedLinesPair
      dsimp only
      rw [if_neg (by decide), if_neg (by decide), if_neg (by decide), if_neg (by decide),
        if_pos hline]

theorem getChangedLinesPair_hunks (hs : List Hunk) (cur : Option (ℤ × ℤ)) (ch : List ℤ × List ℤ)
    (hrest : EndsHunks rest) :
    getChangedLinesPair cur ch (hs.flatMap Hunk.print ++ rest) =
      some ((ch.1 ++ hs.flatMap fun h => (lineNumbers (h.pre, h.post) h.lines).1,
        ch.2 ++ hs.flatMap fun h => (lineNumbers (h.pre, h.post) h.lines).2), rest) := by
  induction hs generalizing cur ch with
  | nil => simp [getChangedLinesPair_end hrest]
  | cons h hs ih =>
    have hheader : ∀ lines, getChangedLinesPair cur ch (h.header :: lines) =
        getChangedLinesPair (some (h.pre, h.post)) ch lines := by
      intro lines
      have hcons : h.header = '@' :: h.header.tail := rfl
      have hsearch := searchHeader_header h
      rw [hcons] at hsearch ⊢
      rw [getChangedLinesPair.eq_def]
      simp only [if_true, hsearch]
    have hprint : h.print ++ hs.flatMap Hunk.print ++ rest =
        h.header :: (h.lines.map DiffLine.print ++ (hs.flatMap Hunk.print ++ rest)) := by
      simp [Hunk.print]
    rw [List.flatMap_cons, hprint, hheader]
    obtain ⟨stop, hstop⟩ := getChangedLinesPair_lines h.lines (h.pre, h.post) ch
      (hs.flatMap Hunk.print ++ rest)
    rw [hstop, ih]
    simp [List.append_assoc]

end Hunks

section Text

variable {files : List FileDiff} {f : FileDiff} {paths : Option Text × Option Text} {n : ℕ}

/-- The sections are printed as git prints them. -/
structure FileDiff.WellFormed (f : FileDiff) : Prop where
  pre : Plain f.pre
  post : Plain f.post
  not_both : f.has .deletedFile = false ∨ (f.has .newFile = false ∧ f.has .newMode = false)

def printFiles (files : List FileDiff) : List Text := files.flatMap FileDiff.print

theorem endsHunks_printFiles (files : List FileDiff) : EndsHunks (printFiles files) := by
  intro line hline
  cases files with
  | nil => simp [printFiles] at hline
  | cons f fs =>
    obtain rfl := Option.some.inj hline
    rfl

theorem getPathPair_file (hf : f.WellFormed) (files : List FileDiff) :
    getPathPair paths (printFiles (f :: files)) =
      getPathPair f.paths (f.hunks.flatMap Hunk.print ++ printFiles files) := by
  have hprint : printFiles (f :: files) = f.name :: (f.headerLines.map HeaderLine.print ++
      (f.hunks.flatMap Hunk.print ++ printFiles files)) := by
    simp [printFiles, FileDiff.print]
  rw [hprint, getPathPair_headerLines hf.pre hf.post]

/-- A section that is last or has hunks is read up to them. -/
theorem getPathPair_shown (hf : f.WellFormed) (h : f.hunks ≠ [] ∨ files = []) :
    getPathPair paths (printFiles (f :: files)) =
      some (f.paths, f.hunks.flatMap Hunk.print ++ printFiles files) := by
  rw [getPathPair_file hf]
  cases hhunks : f.hunks with
  | nil =>
    rcases h with h | rfl
    · exact absurd hhunks h
    · rfl
  | cons hunk hunks =>
    rw [List.flatMap_cons, List.append_assoc]
    exact getPathPair_hunk hunk

/-- Any other section is skipped: the next one overwrites the pair. -/
theorem getPathPair_skipped {g : FileDiff} (hf : f.WellFormed) (hg : g.WellFormed)
    (h : f.hunks = []) :
    getPathPair paths (printFiles (f :: g :: files)) =
      getPathPair paths (printFiles (g :: files)) := by
  rw [getPathPair_file hf, h, List.flatMap_nil, List.nil_append, getPathPair_file hg,
    getPathPair_file hg]

theorem isFalsy_paths (hf : f.WellFormed) : (isFalsy f.paths.1 && isFalsy f.paths.2) = false := by
  have hne : ∀ {p : Text}, Plain p → isFalsy (some p) = false := by
    intro p hp
    simp [isFalsy, hp.ne_nil]
  unfold FileDiff.paths
  rcases hf.not_both with h | ⟨h1, h2⟩
  · simp [h, hne hf.post]
  · simp [h1, h2, hne hf.pre]

theorem changeInfosFrom_printFiles (hfiles : ∀ f ∈ files, f.WellFormed) (hn : files.length < n) :
    changeInfosFrom n (printFiles files) = some (changesOfFiles files) := by
  induction files generalizing n with
  | nil =>
    obtain ⟨n, rfl⟩ := Nat.exists_eq_add_of_lt hn
    rfl
  | cons f fs ih =>
    obtain ⟨hf, hfs⟩ := List.forall_mem_cons.mp hfiles
    rw [List.length_cons] at hn
    obtain ⟨m, rfl⟩ : ∃ m, n = m + 1 := ⟨n - 1, by omega⟩
    have hshown : f.hunks ≠ [] ∨ fs = [] →
        changeInfosFrom (m + 1) (printFiles (f :: fs)) =
          some (changesOf f.paths f.lineNumbers ++ changesOfFiles fs) := by
      intro h
      rw [changeInfosFrom, getPathPair_shown hf h]
      simp only [Option.bind_eq_bind, Option.bind_some, isFalsy_paths hf, Bool.false_eq_true,
        if_false, getChangedLinesPair_hunks f.hunks none ([], []) (endsHunks_printFiles fs),
        List.nil_append, ih hfs (show fs.length < m by omega), Option.pure_def]
      rfl
    cases fs with
    | nil =>
      rw [hshown (Or.inr rfl)]
      simp [changesOfFiles]
    | cons g fs =>
      rw [changesOfFiles]
      split_ifs with h
      · have hskip := ih hfs (n := m + 1) (by rw [List.length_cons] at hn ⊢; omega)
        rw [changeInfosFrom] at hskip ⊢
        rw [getPathPair_skipped hf (hfs g List.mem_cons_self) h]
        exact hskip
      · exact hshown (Or.inl h)

/-- The preamble is passed over, unless a line of the message reads like a hunk or breaks
the reader. -/
theorem getPathPair_preamble {pre : List Text} (hpre : ∀ line ∈ pre, PreambleLine line)
    (rest : List Text) (paths : Option Text × Option Text) :
    (∃ paths', getPathPair paths (pre ++ rest) = getPathPair paths' rest) ∨
      getPathPair paths (pre ++ rest) = none ∨
      ∃ paths' line lines, getPathPair paths (pre ++ rest) = some (paths', line :: lines) ∧
        line.head? = some ' ' := by
  induction pre generalizing paths with
  | nil => exact Or.inl ⟨paths, rfl⟩
  | cons line pre ih =>
    obtain ⟨hline, hpre⟩ := List.forall_mem_cons.mp hpre
    rw [List.cons_append, getPathPair]
    cases hsplit : split line with
    | nil => exact ih hpre paths
    | cons tok toks =>
      dsimp only
      split_ifs with h1 h2 h3 h4
      · split
        · exact ih hpre _
        · exact Or.inr (Or.inl rfl)
      · exact ih hpre _
      · exact ih hpre _
      · refine Or.inr (Or.inr ⟨paths, line, pre ++ rest, rfl, ?_⟩)
        rcases hline with hline | hline
        · exact hline
        · rw [hsplit] at hline
          exact absurd (by simp [h4]) (hline tok rfl)
      · exact ih hpre _

end Text

theorem Commit.length_files_lt (D : Commit) : D.files.length < D.print.length + 1 := by
  have hle : D.files.length ≤ (printFiles D.files).length := by
    unfold printFiles
    rw [List.length_flatMap]
    have hsum := List.length_le_sum_of_one_le (D.files.map fun f => f.print.length) (by
      intro k hk
      obtain ⟨f, _, rfl⟩ := List.mem_map.mp hk
      rw [FileDiff.print, List.length_cons]
      omega)
    rwa [List.length_map] at hsum
  have happ : D.print.length = D.preamble.length + (printFiles D.files).length :=
    List.length_append
  omega

/-- The sections of the files are read as they are printed; a message that reads like a
hunk ends the reading before them. -/
theorem getChangeInfos_print {D : Commit} (hpre : ∀ line ∈ D.preamble, PreambleLine line)
    (hfiles : ∀ f ∈ D.files, f.WellFormed) (hne : D.files ≠ []) {changes : List ChangeInfo}
    (h : getChangeInfos D.print = some changes) :
    changes = [] ∨ changes = changesOfFiles D.files := by
  have hlength := D.length_files_lt
  unfold getChangeInfos at h
  have hprint : D.print = D.preamble ++ printFiles D.files := rfl
  rcases getPathPair_preamble hpre (printFiles D.files) (none, none) with
    ⟨paths, hpass⟩ | hnone | ⟨paths, line, lines, hsome, hhead⟩
  · right
    have hread := changeInfosFrom_printFiles hfiles hlength
    cases hD : D.files with
    | nil => exact absurd hD hne
    | cons f fs =>
      have hf := hfiles f (by simp [hD])
      rw [hD] at hpass hread
      have hfree : getPathPair paths (printFiles (f :: fs)) =
          getPathPair (none, none) (printFiles (f :: fs)) := by
        rw [getPathPair_file hf, getPathPair_file hf]
      rw [hfree] at hpass
      rw [changeInfosFrom, hprint, hD, hpass] at h
      rw [changeInfosFrom, hprint, hD] at hread
      exact Option.some.inj (h.symm.trans hread)
  · rw [changeInfosFrom, hprint, hnone] at h
    cases h
  · left
    rw [changeInfosFrom, hprint, hsome] at h
    simp only [Option.bind_eq_bind, Option.bind_some] at h
    split_ifs at h with hfalsy
    · exact (Option.some.inj h).symm
    · cases line with
      | nil => cases hhead
      | cons c cs =>
        obtain rfl := Option.some.inj hhead
        have hcrash : getChangedLinesPair none ([], []) ((' ' :: cs) :: lines) = none := by
          rw [getChangedLinesPair.eq_def]
          rfl
        rw [hcrash] at h
        cases h

end GitShow

end Cisa

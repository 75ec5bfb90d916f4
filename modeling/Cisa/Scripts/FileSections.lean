import Cisa.Scripts.GitShow

/-!
# The sections of a commit

Every section reports a file as modified, added or deleted, and a renamed file as both. The
reader reports the sections that are last or have hunks, and it takes a new mode for a new
file.
-/

namespace Cisa

namespace GitShow

open Comanal

/-- A line of the header or the message whose first word is none of the reader's keywords. -/
def Unremarkable (line : Text) : Prop :=
  ∀ tok ∈ (split line).head?, tok ∉ ["diff".toList, "new".toList, "deleted".toList, "@@".toList]

namespace FileDiff

/-- A section as git writes it when it detects renames: at most one of the lines that name a
new file, a deleted file or a new mode, and no copies. -/
structure AsWritten (f : FileDiff) : Prop extends f.WellFormed where
  no_mode_of_new : f.has .newFile = true → f.has .newMode = false
  no_copy : f.has .copyFrom = false ∧ f.has .copyTo = false

variable (f : FileDiff)

def reported : List (ChangeState × Text) :=
  if f.has .newFile then [(.added, f.post)]
  else if f.has .deletedFile then [(.deleted, f.pre)]
  else if f.pre = f.post then [(.modified, f.post)]
  else [(.deleted, f.pre), (.added, f.post)]

def entries : List ChangeInfo := changesOf f.paths f.lineNumbers

end FileDiff

/-- What an entry says about its file. -/
def fileChange (c : ChangeInfo) : ChangeState × Text := (c.state, c.srcPath)

variable {f : FileDiff} {files : List FileDiff}

theorem isFalsy_of_plain {path : Text} (h : Plain path) : isFalsy (some path) = false := by
  simp [isFalsy, h.ne_nil]

theorem FileDiff.AsWritten.entries_eq (hf : f.AsWritten) (hmode : f.has .newMode = false) :
    f.entries.map fileChange = f.reported := by
  have hpre := isFalsy_of_plain hf.pre
  have hpost := isFalsy_of_plain hf.post
  have hempty : isFalsy (some []) = true := rfl
  unfold FileDiff.entries FileDiff.reported FileDiff.paths changesOf
  rw [hmode, Bool.or_false]
  by_cases hnew : f.has .newFile = true
  · have hdel : f.has .deletedFile = false := by
      rcases hf.not_both with hdel | ⟨hnot, _⟩
      · exact hdel
      · rw [hnot] at hnew
        cases hnew
    have hne : (some [] : Option Text) ≠ some f.post := fun h =>
      hf.post.ne_nil (Option.some.inj h).symm
    simp [hnew, hdel, hne, hempty, fileChange]
  · by_cases hdel : f.has .deletedFile = true
    · have hne : (some f.pre : Option Text) ≠ some [] := fun h =>
        hf.pre.ne_nil (Option.some.inj h)
      simp [hnew, hdel, hpre, hempty, fileChange, hf.pre.ne_nil]
    · by_cases heq : f.pre = f.post
      · simp [hnew, hdel, heq, fileChange]
      · simp [hnew, hdel, heq, hpre, hpost, fileChange]

/-- With a new mode, a section is read as an added file. -/
theorem FileDiff.AsWritten.entries_of_newMode (hf : f.AsWritten) (hmode : f.has .newMode = true) :
    f.entries.map fileChange = [(.added, f.post)] := by
  have hdel : f.has .deletedFile = false := by
    rcases hf.not_both with hdel | ⟨_, hnot⟩
    · exact hdel
    · rw [hnot] at hmode
      cases hmode
  have hne : (some [] : Option Text) ≠ some f.post := fun h =>
    hf.post.ne_nil (Option.some.inj h).symm
  have hempty : isFalsy (some []) = true := rfl
  unfold FileDiff.entries FileDiff.paths changesOf
  simp [hmode, hdel, hne, hempty, fileChange]

theorem FileDiff.AsWritten.entries_eq_iff (hf : f.AsWritten) :
    f.entries.map fileChange = f.reported ↔ f.has .newMode = false := by
  refine ⟨fun h => ?_, hf.entries_eq⟩
  by_contra hmode
  rw [Bool.not_eq_false] at hmode
  have hnew : f.has .newFile = false := by
    by_contra hnew
    rw [hf.no_mode_of_new (by simpa using hnew)] at hmode
    cases hmode
  have hdel : f.has .deletedFile = false := by
    rcases hf.not_both with hdel | ⟨_, hnot⟩
    · exact hdel
    · rw [hnot] at hmode
      cases hmode
  rw [hf.entries_of_newMode hmode] at h
  unfold FileDiff.reported at h
  rw [hnew, hdel] at h
  by_cases heq : f.pre = f.post
  · simp [heq] at h
  · simp [heq] at h

theorem FileDiff.reported_ne_nil (f : FileDiff) : 0 < f.reported.length := by
  unfold FileDiff.reported
  split_ifs <;> simp

theorem FileDiff.AsWritten.length_entries_le (hf : f.AsWritten) :
    (f.entries.map fileChange).length ≤ f.reported.length := by
  by_cases hmode : f.has .newMode = true
  · rw [hf.entries_of_newMode hmode]
    exact f.reported_ne_nil
  · rw [hf.entries_eq (by simpa using hmode)]

theorem length_changesOfFiles_le (hfiles : ∀ f ∈ files, f.AsWritten) :
    ((changesOfFiles files).map fileChange).length ≤ (files.flatMap FileDiff.reported).length := by
  fun_induction changesOfFiles files with
  | case1 => exact Nat.le_refl 0
  | case2 f =>
    rw [List.flatMap_cons, List.flatMap_nil, List.append_nil]
    exact (hfiles f List.mem_cons_self).length_entries_le
  | case3 f g fs h ih =>
    have hrest := ih fun f hf => hfiles f (List.mem_cons_of_mem _ hf)
    rw [List.flatMap_cons, List.length_append]
    omega
  | case4 f g fs h ih =>
    have hfirst := (hfiles f List.mem_cons_self).length_entries_le
    have hrest := ih fun f hf => hfiles f (List.mem_cons_of_mem _ hf)
    rw [List.flatMap_cons, List.map_append, List.length_append, List.length_append]
    exact Nat.add_le_add hfirst hrest

/-- All sections are reported when only the last one may be without hunks, and none has a new
mode. -/
theorem changesOfFiles_eq_iff (hfiles : ∀ f ∈ files, f.AsWritten) :
    (changesOfFiles files).map fileChange = files.flatMap FileDiff.reported ↔
      (∀ f ∈ files.dropLast, f.hunks ≠ []) ∧ ∀ f ∈ files, f.has .newMode = false := by
  fun_induction changesOfFiles files with
  | case1 => simp
  | case2 f =>
    have hfirst := (hfiles f List.mem_cons_self).entries_eq_iff
    unfold FileDiff.entries at hfirst
    simpa using hfirst
  | case3 f g fs h ih =>
    -- a skipped section leaves too few entries
    have hrest := length_changesOfFiles_le fun f hf => hfiles f (List.mem_cons_of_mem _ hf)
    constructor
    · intro heq
      have hlength := congrArg List.length heq
      have hpos := f.reported_ne_nil
      rw [List.flatMap_cons, List.length_append] at hlength
      omega
    · intro hall
      exact absurd h (hall.1 f (by simp))
  | case4 f g fs h ih =>
    have hf := hfiles f List.mem_cons_self
    have hfs : ∀ f ∈ g :: fs, f.AsWritten := fun f hf => hfiles f (List.mem_cons_of_mem _ hf)
    have hsplit : (f.entries ++ changesOfFiles (g :: fs)).map fileChange =
        (f :: g :: fs).flatMap FileDiff.reported ↔
        f.entries.map fileChange = f.reported ∧
          (changesOfFiles (g :: fs)).map fileChange = (g :: fs).flatMap FileDiff.reported := by
      rw [List.map_append, List.flatMap_cons]
      constructor
      · intro heq
        have hlength := congrArg List.length heq
        have hfirst := hf.length_entries_le
        have hrest := length_changesOfFiles_le hfs
        rw [List.length_append, List.length_append] at hlength
        exact List.append_inj heq (by omega)
      · rintro ⟨hfirst, hrest⟩
        rw [hfirst, hrest]
    refine hsplit.trans ?_
    rw [hf.entries_eq_iff, ih hfs, List.dropLast_cons_cons]
    constructor
    · rintro ⟨hmode, hhunks, hmodes⟩
      exact ⟨List.forall_mem_cons.mpr ⟨h, hhunks⟩, List.forall_mem_cons.mpr ⟨hmode, hmodes⟩⟩
    · rintro ⟨hhunks, hmodes⟩
      exact ⟨(List.forall_mem_cons.mp hmodes).1, (List.forall_mem_cons.mp hhunks).2,
        (List.forall_mem_cons.mp hmodes).2⟩

theorem getPathPair_unremarkable {pre : List Text} (hpre : ∀ line ∈ pre, Unremarkable line)
    (rest : List Text) (paths : Option Text × Option Text) :
    getPathPair paths (pre ++ rest) = getPathPair paths rest := by
  induction pre with
  | nil => rfl
  | cons line pre ih =>
    obtain ⟨hline, hpre⟩ := List.forall_mem_cons.mp hpre
    rw [List.cons_append, getPathPair]
    cases hsplit : split line with
    | nil => exact ih hpre
    | cons tok toks =>
      have htok := hline tok (by rw [hsplit]; rfl)
      simp only [List.mem_cons, List.not_mem_nil, or_false, not_or] at htok
      dsimp only
      rw [if_neg htok.1, if_neg htok.2.2.1, if_neg htok.2.1, if_neg htok.2.2.2]
      exact ih hpre

theorem getChangeInfos_eq {D : Commit} (hpre : ∀ line ∈ D.preamble, Unremarkable line)
    (hfiles : ∀ f ∈ D.files, f.WellFormed) :
    getChangeInfos D.print = some (changesOfFiles D.files) := by
  have hread := changeInfosFrom_printFiles hfiles D.length_files_lt
  unfold getChangeInfos
  rw [changeInfosFrom] at hread ⊢
  have hpass : getPathPair (none, none) D.print = getPathPair (none, none) (printFiles D.files) :=
    getPathPair_unremarkable hpre _ _
  rw [hpass]
  exact hread

/-- The changes of all files of a commit are read when every section but the last has hunks,
and no section has a new mode. -/
theorem getChangeInfos_reported_iff {D : Commit} (hpre : ∀ line ∈ D.preamble, Unremarkable line)
    (hfiles : ∀ f ∈ D.files, f.AsWritten) :
    (∃ changes, getChangeInfos D.print = some changes ∧
      changes.map fileChange = D.files.flatMap FileDiff.reported) ↔
    (∀ f ∈ D.files.dropLast, f.hunks ≠ []) ∧ ∀ f ∈ D.files, f.has .newMode = false := by
  rw [← changesOfFiles_eq_iff hfiles, getChangeInfos_eq hpre fun f hf => (hfiles f hf).toWellFormed]
  constructor
  · rintro ⟨changes, hchanges, heq⟩
    obtain rfl := Option.some.inj hchanges
    exact heq
  · intro heq
    exact ⟨_, rfl, heq⟩

/-- A file is renamed as it is, and another one is changed. -/
def renameAndChange : Commit where
  preamble := ["commit 1".toList, [], "    Rename.".toList, []]
  files := [
    { pre := "a.c".toList, post := "b.c".toList, hunks := []
      headerLines := [⟨.similarity, "100%".toList⟩, ⟨.renameFrom, "a.c".toList⟩,
        ⟨.renameTo, "b.c".toList⟩] },
    { pre := "f.c".toList, post := "f.c".toList
      headerLines := [⟨.index, "1..2 100644".toList⟩, ⟨.preName, "a/f.c".toList⟩,
        ⟨.postName, "b/f.c".toList⟩]
      hunks := [{ pre := 1, post := 1, lines := [.deleted ['x'], .added ['y']] }] }]

theorem renameAndChange_unremarkable : ∀ line ∈ renameAndChange.preamble, Unremarkable line := by
  unfold Unremarkable
  decide

theorem renameAndChange_asWritten : ∀ f ∈ renameAndChange.files, f.AsWritten := by
  simp only [renameAndChange, List.forall_mem_cons, List.not_mem_nil, false_implies,
    implies_true, and_true]
  exact ⟨⟨⟨⟨by decide, by decide⟩, ⟨by decide, by decide⟩, by decide⟩, by decide, by decide⟩,
    ⟨⟨⟨by decide, by decide⟩, ⟨by decide, by decide⟩, by decide⟩, by decide, by decide⟩⟩

theorem getChangeInfos_reported_renameAndChange :
    (∃ changes, getChangeInfos renameAndChange.print = some changes ∧
      changes.map fileChange = renameAndChange.files.flatMap FileDiff.reported) ↔
    (∀ f ∈ renameAndChange.files.dropLast, f.hunks ≠ []) ∧
      ∀ f ∈ renameAndChange.files, f.has .newMode = false :=
  getChangeInfos_reported_iff renameAndChange_unremarkable renameAndChange_asWritten

/-- The renamed file is not reported. -/
theorem getChangeInfos_misses :
    ¬ ∀ D : Commit, (∀ line ∈ D.preamble, Unremarkable line) → (∀ f ∈ D.files, f.AsWritten) →
      ∃ changes, getChangeInfos D.print = some changes ∧
        changes.map fileChange = D.files.flatMap FileDiff.reported := by
  intro hall
  have hfiles := renameAndChange_asWritten
  have hpre := renameAndChange_unremarkable
  obtain ⟨changes, hread, hreported⟩ := hall renameAndChange hpre hfiles
  rw [getChangeInfos_eq hpre fun f hf => (hfiles f hf).toWellFormed] at hread
  obtain rfl := Option.some.inj hread
  revert hreported
  decide

end GitShow

end Cisa

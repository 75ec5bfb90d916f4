import Cisa.AnalyzerManager.TopLevelNames
import Cisa.Scripts.GitShow

/-!
# Functions of new files

The changed lines of a file are the ones that the diff shows. A file that is renamed is a
new file for the call graph, but only the functions with added lines in their range are
updated: the others have no old version at its path that their tags could come from.
-/

namespace Cisa

open Std

namespace GitShow

open Comanal

namespace FileDiff

variable (f : FileDiff)

/-- The paths that the section is about. -/
def srcPaths : List Text := if f.pre = f.post then [f.pre] else [f.pre, f.post]

/-- The file is new: all its lines are added. -/
def Added : Prop :=
  f.pre = f.post ∧ f.has .newFile = true ∧ (f.hunks = [] ∨
    ∃ h, f.hunks = [h] ∧ h.post = 1 ∧ ∀ l ∈ h.lines, l = .noNewline ∨ ∃ text, l = .added text)

/-- The file is renamed, and changed. -/
def RenamedWithEdits : Prop :=
  f.pre ≠ f.post ∧ f.has .renameTo = true ∧ f.has .newFile = false ∧ f.has .deletedFile = false ∧
    f.hunks ≠ []

/-- The diff adds a line in the range. All lines of a new file are added. -/
def AddsWithin (head tail : ℤ) : Prop :=
  if f.has .newFile then head ≤ f.lineNumbers.2.length
  else ∃ l ∈ f.lineNumbers.2, head ≤ l ∧ l ≤ tail

end FileDiff

/-- The output of git: a path is in one section only, and is relative. -/
structure Commit.WellFormed (D : Commit) : Prop where
  preamble : ∀ line ∈ D.preamble, PreambleLine line
  files : ∀ f ∈ D.files, f.WellFormed
  paths_nodup : (D.files.flatMap FileDiff.srcPaths).Nodup
  relative : ∀ f ∈ D.files, ∀ p ∈ f.srcPaths, p.head? ≠ some '/'

theorem Commit.WellFormed.eq_of_mem_srcPaths {D : Commit} (hD : D.WellFormed) {f g : FileDiff}
    (hf : f ∈ D.files) (hg : g ∈ D.files) {p : Text} (hpf : p ∈ f.srcPaths)
    (hpg : p ∈ g.srcPaths) : f = g := by
  have hdisj := (List.nodup_flatMap.mp hD.paths_nodup).2
  have hsymm : Std.Symm (Function.onFun List.Disjoint FileDiff.srcPaths) :=
    ⟨fun _ _ hab => List.Disjoint.symm hab⟩
  by_contra hne
  have hfg := hdisj.forall hf hg hne
  exact hfg hpf hpg

variable {f : FileDiff}

theorem lineNumbers_added {ls : List DiffLine}
    (h : ∀ l ∈ ls, l = .noNewline ∨ ∃ text, l = .added text) (pre post : ℤ) (k : ℤ) :
    k ∈ (lineNumbers (pre, post) ls).2 ↔
      post ≤ k ∧ k < post + (lineNumbers (pre, post) ls).2.length := by
  induction ls generalizing post with
  | nil =>
    simp only [lineNumbers, List.not_mem_nil, List.length_nil, false_iff]
    omega
  | cons l ls ih =>
    obtain ⟨hl, hls⟩ := List.forall_mem_cons.mp h
    rcases hl with rfl | ⟨text, rfl⟩
    · exact ih hls post
    · simp only [lineNumbers, List.mem_cons, ih hls (post + 1), List.length_cons]
      push_cast
      omega

theorem FileDiff.Added.mem_lineNumbers (h : f.Added) (k : ℤ) :
    k ∈ f.lineNumbers.2 ↔ 1 ≤ k ∧ k ≤ f.lineNumbers.2.length := by
  obtain ⟨_, _, hhunks | ⟨hunk, hhunks, hpost, hlines⟩⟩ := h
  · simp only [FileDiff.lineNumbers, hhunks, List.flatMap_nil, List.not_mem_nil, List.length_nil,
      false_iff]
    omega
  · simp only [FileDiff.lineNumbers, hhunks, List.flatMap_cons, List.flatMap_nil, List.append_nil,
      hpost]
    rw [lineNumbers_added hlines]
    push_cast
    omega

theorem FileDiff.addsWithin_iff (h : f.Added ∨ f.RenamedWithEdits) {head tail : ℤ}
    (hhead : 1 ≤ head) (htail : head ≤ tail) :
    f.AddsWithin head tail ↔ ∃ l ∈ f.lineNumbers.2, head ≤ l ∧ l ≤ tail := by
  unfold FileDiff.AddsWithin
  rcases h with h | ⟨_, _, hnew, _⟩
  · rw [if_pos h.2.1]
    simp only [h.mem_lineNumbers]
    constructor
    · intro hle
      exact ⟨head, ⟨hhead, hle⟩, le_rfl, htail⟩
    · intro hex
      obtain ⟨l, ⟨_, hl⟩, hhl, _⟩ := hex
      omega
  · rw [if_neg (by simp [hnew])]

theorem changesOf_paths (hf : f.WellFormed) (lines : List ℤ × List ℤ) :
    changesOf f.paths lines =
      if f.has .deletedFile then [⟨.deleted, f.pre, [], [], []⟩]
      else if f.has .newFile || f.has .newMode then [⟨.added, f.post, [], lines.2, []⟩]
      else if f.pre = f.post then [⟨.modified, f.post, lines.1, lines.2, []⟩]
      else [⟨.deleted, f.pre, [], [], []⟩, ⟨.added, f.post, lines.1, lines.2, []⟩] := by
  have hpre := hf.pre.ne_nil
  have hpost := hf.post.ne_nil
  unfold changesOf FileDiff.paths isFalsy
  cases hdel : f.has .deletedFile with
  | true =>
    have hnew : f.has .newFile = false ∧ f.has .newMode = false :=
      hf.not_both.resolve_left (by simp [hdel])
    simp [hnew.1, hnew.2, hpre]
  | false =>
    cases hnew : f.has .newFile || f.has .newMode with
    | true => simp [hpost.symm]
    | false => simp [hpre, hpost]

theorem changesOf_sublist (hf : f.WellFormed) (lines : List ℤ × List ℤ) :
    ((changesOf f.paths lines).map ChangeInfo.srcPath).Sublist f.srcPaths := by
  rw [changesOf_paths hf]
  unfold FileDiff.srcPaths
  split_ifs with hdel heq hnew heq heq
  · simp
  · simp
  · simp [heq]
  · simp
  · simp [heq]
  · simp

theorem addLines_changesOf (hf : f.WellFormed) (h : f.Added ∨ f.RenamedWithEdits) {c : ChangeInfo}
    (hc : c ∈ changesOf f.paths f.lineNumbers) (hpath : c.srcPath = f.post) :
    c.addLines = f.lineNumbers.2 := by
  have hdel : f.has .deletedFile = false := by
    rcases h with h | h
    · apply hf.not_both.resolve_right
      simp [h.2.1]
    · exact h.2.2.2.1
  rw [changesOf_paths hf, if_neg (by simp [hdel])] at hc
  split_ifs at hc with hnew heq
  · obtain rfl := List.mem_singleton.mp hc
    rfl
  · obtain rfl := List.mem_singleton.mp hc
    rfl
  · rcases List.mem_cons.mp hc with rfl | hc
    · exact absurd hpath heq
    · obtain rfl := List.mem_singleton.mp hc
      rfl

theorem mem_changesOfFiles {files : List FileDiff} {c : ChangeInfo}
    (h : c ∈ changesOfFiles files) : ∃ f ∈ files, c ∈ changesOf f.paths f.lineNumbers := by
  induction files using changesOfFiles.induct with
  | case1 => simp [changesOfFiles] at h
  | case2 f => exact ⟨f, List.mem_singleton_self f, h⟩
  | case3 f g fs hhunks ih =>
    rw [changesOfFiles, if_pos hhunks] at h
    obtain ⟨f', hf', hc⟩ := ih h
    exact ⟨f', List.mem_cons_of_mem _ hf', hc⟩
  | case4 f g fs hhunks ih =>
    rw [changesOfFiles, if_neg hhunks] at h
    rcases List.mem_append.mp h with h | h
    · exact ⟨f, List.mem_cons_self, h⟩
    · obtain ⟨f', hf', hc⟩ := ih h
      exact ⟨f', List.mem_cons_of_mem _ hf', hc⟩

theorem changesOfFiles_sublist {files : List FileDiff} (hfiles : ∀ f ∈ files, f.WellFormed) :
    ((changesOfFiles files).map ChangeInfo.srcPath).Sublist (files.flatMap FileDiff.srcPaths) := by
  induction files using changesOfFiles.induct with
  | case1 => exact List.Sublist.slnil
  | case2 f =>
    rw [changesOfFiles, List.flatMap_cons, List.flatMap_nil, List.append_nil]
    exact changesOf_sublist (hfiles f List.mem_cons_self) _
  | case3 f g fs hhunks ih =>
    rw [changesOfFiles, if_pos hhunks, List.flatMap_cons]
    exact (ih fun f' hf' => hfiles f' (List.mem_cons_of_mem _ hf')).trans
      (List.sublist_append_right _ _)
  | case4 f g fs hhunks ih =>
    rw [changesOfFiles, if_neg hhunks, List.flatMap_cons, List.map_append]
    exact (changesOf_sublist (hfiles f List.mem_cons_self) _).append
      (ih fun f' hf' => hfiles f' (List.mem_cons_of_mem _ hf'))

end GitShow

namespace Comanal

variable {repo : Repo} {src src' : Text}

/-- What the path of a bitcode file says about that of its source. -/
theorem getBCPath_append (hrel : src.head? ≠ some '/') (h : getBCPath repo src ≠ []) :
    ∃ stem, repo.path ++ '/' :: src = stem ++ ".c".toList ∧
      getBCPath repo src = stem ++ ".bc".toList := by
  unfold getBCPath at h ⊢
  rw [if_neg hrel] at h ⊢
  dsimp only at h ⊢
  split_ifs at h ⊢ with hc hfile
  · refine ⟨_, ?_, rfl⟩
    unfold isCSource at hc
    have hdrop := of_decide_eq_true hc
    rw [← hdrop, List.take_append_drop]
  · exact absurd rfl h
  · exact absurd rfl h

theorem getBCPath_inj (hrel : src.head? ≠ some '/') (hrel' : src'.head? ≠ some '/')
    (h : getBCPath repo src ≠ []) (heq : getBCPath repo src = getBCPath repo src') :
    src = src' := by
  obtain ⟨stem, habs, hbc⟩ := getBCPath_append hrel h
  rw [heq] at h
  obtain ⟨stem', habs', hbc'⟩ := getBCPath_append hrel' h
  have hstem : stem = stem' := by
    rw [hbc, hbc'] at heq
    exact List.append_cancel_right heq
  have hsrc : repo.path ++ '/' :: src = repo.path ++ '/' :: src' := by
    rw [habs, habs', hstem]
  exact (List.cons.inj (List.append_cancel_left hsrc)).2

theorem mem_changedSrcs {changes : List ChangeInfo} {c : ChangeInfo}
    (h : c ∈ changedSrcs repo changes) :
    c.bcPath = getBCPath repo c.srcPath ∧ getBCPath repo c.srcPath ≠ [] ∧
      ∃ c0 ∈ changes, c0.srcPath = c.srcPath ∧ c0.delLines = c.delLines ∧
        c0.addLines = c.addLines := by
  obtain ⟨hmem, hne⟩ := List.mem_filter.mp h
  obtain ⟨c0, hc0, rfl⟩ := List.mem_map.mp hmem
  refine ⟨rfl, by simpa using hne, c0, (List.mem_filter.mp hc0).1, rfl, rfl, rfl⟩

theorem nodup_bcPaths {changes : List ChangeInfo} (hnodup : (changes.map ChangeInfo.srcPath).Nodup)
    (hrel : ∀ c ∈ changes, c.srcPath.head? ≠ some '/') :
    ((changedSrcs repo changes).map ChangeInfo.bcPath).Nodup := by
  have hpaths : (changedSrcs repo changes).map ChangeInfo.bcPath =
      ((changedSrcs repo changes).map ChangeInfo.srcPath).map (getBCPath repo) := by
    rw [List.map_map]
    exact List.map_congr_left fun c hc => (mem_changedSrcs hc).1
  have hsub : ((changedSrcs repo changes).map ChangeInfo.srcPath).Sublist
      (changes.map ChangeInfo.srcPath) := by
    have hfilter := (List.filter_sublist (p := fun c : ChangeInfo => isCSource c.srcPath)
      (l := changes)).map ChangeInfo.srcPath
    refine List.Sublist.trans ((List.filter_sublist).map ChangeInfo.srcPath) ?_
    rw [List.map_map]
    exact hfilter
  rw [hpaths]
  apply (hnodup.sublist hsub).map_on
  intro src hsrc src' hsrc' heq
  obtain ⟨c, hc, rfl⟩ := List.mem_map.mp hsrc
  obtain ⟨c', hc', rfl⟩ := List.mem_map.mp hsrc'
  obtain ⟨_, hne, c0, hc0, hpath, _⟩ := mem_changedSrcs hc
  obtain ⟨_, _, c0', hc0', hpath', _⟩ := mem_changedSrcs hc'
  exact getBCPath_inj (hpath ▸ hrel c0 hc0) (hpath' ▸ hrel c0' hc0') hne heq

end Comanal

namespace AnalyzerManager

open CallGraphPass (definitionsOf)

variable {E : Env} {P : Program} {F : FuncPtr} {head tail : ℤ}

/-- The commit that the main script hands over; `mods` are the modules in the files. -/
def Commit.ofChanges (hexsha : String) (srcs : List Comanal.ChangeInfo) (mods : String → ModPtr)
    (doAgg : Bool) : Commit where
  hexsha := hexsha
  files := srcs.map fun c => (String.ofList c.bcPath, mods (String.ofList c.bcPath))
  cis := srcs.map Comanal.ChangeInfo.toAnalyzerManager
  doAgg := doAgg

/-- The instructions of the function carry lines of its source range, the last one that of
its last line. -/
structure LinesWithin (E : Env) (F : FuncPtr) (head tail : ℤ) : Prop where
  head_pos : 1 ≤ head
  subprogram : ∃ l : ℕ, (E.function F).subprogramLine = some l ∧ head = l
  insts : ∀ I ∈ E.insts F, ∃ l : ℕ, (E.value I).debugLine = some l ∧ head ≤ l ∧ l ≤ tail
  last : ∃ I ∈ (E.insts F).getLast?, ∃ l : ℕ, (E.value I).debugLine = some l ∧ tail = l

/-- The function is among those that are passed to `_Update`. -/
def PassedToUpdate (E : Env) (P : Program) (c : Commit) (F : FuncPtr) : Prop :=
  ∃ td, TypeDive.updateModules E P.td (TypeDive.parsed c.files) = some td ∧ F ∈ c.postFuncs E P td

theorem LinesWithin.head_le_tail (h : LinesWithin E F head tail) : head ≤ tail := by
  obtain ⟨I, hI, _⟩ := h.last
  obtain ⟨l, _, hhead, htail⟩ := h.insts I (List.mem_of_getLast? hI)
  omega

theorem LinesWithin.range_eq (h : LinesWithin E F head tail) :
    getPrototypeLine E F = head ∧ tailLine E F = tail := by
  obtain ⟨l, hl, rfl⟩ := h.subprogram
  obtain ⟨I, hI, k, hk, rfl⟩ := h.last
  constructor
  · rw [getPrototypeLine, hl]
    rfl
  · have hlast : (E.insts F).getLast? = some I := hI
    rw [tailLine, hlast, Option.bind_some, hk]
    rfl

theorem Context.addLines_start {hexsha : String} {cis : List ChangeInfo} {q : String}
    {lines : List ℤ} (hmem : ∃ ci ∈ cis, ci.bcPath = q)
    (hlines : ∀ ci ∈ cis, ci.bcPath = q → ci.addLines = lines) :
    ((Context.start hexsha cis).cis.getD q {}).addLines = lines := by
  obtain ⟨ci, hci, hq⟩ := hmem
  have h : ∃ ci', (Context.start hexsha cis).cis[q]? = some ci' ∧ ci'.addLines = lines := by
    unfold Context.start
    apply Fold.foldl_of_mem (I := fun _ => True)
      (P := fun m : SortedMap String ChangeInfo => ∃ ci', m[q]? = some ci' ∧ ci'.addLines = lines)
      hci trivial
    · exact fun _ _ _ _ => trivial
    · intro m ci' hci' _ hm
      rw [ExtTreeMap.getElem?_insert]
      split_ifs with heq
      · exact ⟨ci', rfl, hlines ci' hci' (by simpa using heq)⟩
      · exact hm
    · intro m _
      refine ⟨ci, ?_, hlines ci hci hq⟩
      rw [ExtTreeMap.getElem?_insert, if_pos (by simp [hq])]
  obtain ⟨ci', hget, hci'⟩ := h
  rw [ExtTreeMap.getD_eq_getD_getElem?, hget]
  exact hci'

/-- A definition of a file of the commit is passed to `_Update` iff one of its lines is
among the added ones of the file. -/
theorem passedToUpdate_iff {C : Program → Commit → Prop} {seen : List ModPtr}
    (h : Managed E C seen P) {c : Commit} (hp : c.upPaths.Nodup)
    (hm : (c.files.map Prod.snd).Nodup)
    (hfresh : ∀ f ∈ c.files, f.2 ∉ P.td.ctx.modules.map Prod.fst)
    {q : String}
    {M : ModPtr} (hq : (q, M) ∈ c.files) (hF : F ∈ definitionsOf E M) :
    PassedToUpdate E P c F ↔
      ∃ l ∈ ((Context.start c.hexsha c.cis).cis.getD q {}).addLines,
        getPrototypeLine E F ≤ l ∧ l ≤ tailLine E F := by
  obtain ⟨td, htd, hL, hmods⟩ := TypeDive.updateModules_loaded h.loaded.1 ⟨hp, hm, hfresh⟩
  have hpassed : PassedToUpdate E P c F ↔ F ∈ c.changedNew E := by
    unfold PassedToUpdate
    rw [htd]
    simp only [Option.some.injEq, exists_eq_left']
    rw [postFuncs_eq hL hmods]
  rw [hpassed]
  unfold Commit.changedNew getChangedFuncs
  simp only [List.mem_flatMap, List.mem_filter, ExtTreeSet.mem_toList, ExtTreeSet.mem_ofElems,
    List.any_eq_true, Bool.and_eq_true, decide_eq_true_eq]
  constructor
  · intro hex
    obtain ⟨file, hfile, hFile, l, hl, hrange⟩ := hex
    have hmod : file.2 = M := by
      rw [← TypeDive.mod_of_mem_definitionsOf hFile, TypeDive.mod_of_mem_definitionsOf hF]
    have heq : file = (q, M) := List.inj_on_of_nodup_map hm hfile hq hmod
    rw [heq] at hl
    exact ⟨l, hl, hrange⟩
  · intro hex
    obtain ⟨l, hl, hrange⟩ := hex
    exact ⟨(q, M), hq, hF, l, hl, hrange⟩

theorem srcPaths_sublist {D : GitShow.Commit} (hD : D.WellFormed)
    {changes : List Comanal.ChangeInfo}
    (hchanges : changes = [] ∨ changes = GitShow.changesOfFiles D.files) :
    (changes.map Comanal.ChangeInfo.srcPath).Sublist
      (D.files.flatMap GitShow.FileDiff.srcPaths) := by
  rcases hchanges with rfl | rfl
  · exact List.nil_sublist _
  · exact GitShow.changesOfFiles_sublist hD.files

theorem head?_srcPath_ne {D : GitShow.Commit} (hD : D.WellFormed)
    {changes : List Comanal.ChangeInfo}
    (hchanges : changes = [] ∨ changes = GitShow.changesOfFiles D.files) :
    ∀ c ∈ changes, c.srcPath.head? ≠ some '/' := by
  intro ci hci
  have hmem := (srcPaths_sublist hD hchanges).subset (List.mem_map.mpr ⟨ci, hci, rfl⟩)
  obtain ⟨g, hg, hp⟩ := List.mem_flatMap.mp hmem
  exact hD.relative g hg _ hp

theorem post_mem_srcPaths (f : GitShow.FileDiff) : f.post ∈ f.srcPaths := by
  unfold GitShow.FileDiff.srcPaths
  split_ifs with heq
  · rw [heq]
    exact List.mem_singleton_self _
  · simp

theorem addLines_changedSrcs {D : GitShow.Commit} (hD : D.WellFormed)
    {changes : List Comanal.ChangeInfo}
    (hchanges : changes = [] ∨ changes = GitShow.changesOfFiles D.files) {repo : Comanal.Repo}
    {f : GitShow.FileDiff} (hf : f ∈ D.files) (hkind : f.Added ∨ f.RenamedWithEdits)
    {ci : Comanal.ChangeInfo} (hci : ci ∈ Comanal.changedSrcs repo changes)
    (heq : ci.bcPath = Comanal.getBCPath repo f.post) : ci.addLines = f.lineNumbers.2 := by
  have hrel := head?_srcPath_ne hD hchanges
  have hpost := post_mem_srcPaths f
  obtain ⟨hbc, hnil, c0, hc0, hsrc, _, hadd⟩ := Comanal.mem_changedSrcs hci
  have hsame := Comanal.getBCPath_inj (hsrc ▸ hrel c0 hc0) (hD.relative f hf _ hpost) hnil
    (hbc.symm.trans heq)
  rcases hchanges with rfl | rfl
  · simp at hc0
  · obtain ⟨g, hg, hcg⟩ := GitShow.mem_changesOfFiles hc0
    have hin : c0.srcPath ∈ g.srcPaths :=
      (GitShow.changesOf_sublist (hD.files g hg) _).subset (List.mem_map.mpr ⟨c0, hcg, rfl⟩)
    rw [hsrc, hsame] at hin
    obtain rfl := hD.eq_of_mem_srcPaths hg hf hin hpost
    rw [← hadd]
    exact GitShow.addLines_changesOf (hD.files g hg) hkind hcg (hsrc.trans hsame)

theorem upPaths_ofChanges (hexsha : String) (srcs : List Comanal.ChangeInfo)
    (mods : String → ModPtr) (doAgg : Bool) :
    (Commit.ofChanges hexsha srcs mods doAgg).upPaths =
      srcs.map fun ci => String.ofList ci.bcPath := by
  simp [Commit.upPaths, Commit.ofChanges, Function.comp_def]

theorem nodup_upPaths_ofChanges {D : GitShow.Commit} (hD : D.WellFormed)
    {changes : List Comanal.ChangeInfo}
    (hchanges : changes = [] ∨ changes = GitShow.changesOfFiles D.files) (repo : Comanal.Repo)
    (hexsha : String) (mods : String → ModPtr) (doAgg : Bool) :
    (Commit.ofChanges hexsha (Comanal.changedSrcs repo changes) mods doAgg).upPaths.Nodup := by
  rw [upPaths_ofChanges]
  have hnodup : ((Comanal.changedSrcs repo changes).map Comanal.ChangeInfo.bcPath).Nodup :=
    Comanal.nodup_bcPaths (hD.paths_nodup.sublist (srcPaths_sublist hD hchanges))
      (head?_srcPath_ne hD hchanges)
  have hmap := hnodup.map fun _ _ heq => String.ofList_injective heq
  rwa [List.map_map] at hmap

/-- In a commit that the scripts make of what git prints, a function of a new or renamed
file is passed to `_Update` if and only if the diff adds a line in its range. -/
theorem newFile_updated_iff {seen : List ModPtr} (h : Managed E (fun _ _ => True) seen P)
    {D : GitShow.Commit} (hD : D.WellFormed) {changes : List Comanal.ChangeInfo}
    (hread : Comanal.getChangeInfos D.print = some changes) (repo : Comanal.Repo)
    (mods : String → ModPtr) (hexsha : String) (doAgg : Bool) {c : Commit}
    (hc : c = Commit.ofChanges hexsha (Comanal.changedSrcs repo changes) mods doAgg)
    (hm : (c.files.map Prod.snd).Nodup)
    (hfresh : ∀ f ∈ c.files, f.2 ∉ P.td.ctx.modules.map Prod.fst)
    {f : GitShow.FileDiff} (hf : f ∈ D.files) (hkind : f.Added ∨ f.RenamedWithEdits) {q : String}
    (hpath : q = String.ofList (Comanal.getBCPath repo f.post)) (hq : q ∈ c.upPaths)
    (hF : F ∈ definitionsOf E (mods q)) (hlines : LinesWithin E F head tail) :
    PassedToUpdate E P c F ↔ f.AddsWithin head tail := by
  have hchanges : changes = [] ∨ changes = GitShow.changesOfFiles D.files :=
    GitShow.getChangeInfos_print hD.preamble hD.files (List.ne_nil_of_mem hf) hread
  subst hc
  have hp := nodup_upPaths_ofChanges hD hchanges repo hexsha mods doAgg
  rw [upPaths_ofChanges] at hq
  obtain ⟨ci, hci, hciq⟩ := List.mem_map.mp hq
  have hlinesq : ((Context.start hexsha ((Comanal.changedSrcs repo changes).map
      Comanal.ChangeInfo.toAnalyzerManager)).cis.getD q {}).addLines = f.lineNumbers.2 := by
    apply Context.addLines_start
    · exact ⟨ci.toAnalyzerManager, List.mem_map.mpr ⟨ci, hci, rfl⟩, hciq⟩
    · intro ci' hci' heq
      obtain ⟨src, hsrc, rfl⟩ := List.mem_map.mp hci'
      exact addLines_changedSrcs hD hchanges hf hkind hsrc
        (String.ofList_injective (heq.trans hpath))
  have hfile : (q, mods q) ∈
      (Commit.ofChanges hexsha (Comanal.changedSrcs repo changes) mods doAgg).files := by
    refine List.mem_map.mpr ⟨ci, hci, ?_⟩
    rw [hciq]
  obtain ⟨hhead, htail⟩ := hlines.range_eq
  rw [passedToUpdate_iff h hp hm hfresh hfile hF]
  show (∃ l ∈ ((Context.start hexsha ((Comanal.changedSrcs repo changes).map
    Comanal.ChangeInfo.toAnalyzerManager)).cis.getD q {}).addLines, _) ↔ _
  rw [hlinesq, hhead, htail,
    GitShow.FileDiff.addsWithin_iff hkind hlines.head_pos hlines.head_le_tail]

/-- Two functions, on the lines 1 to 3 and 5 to 7. -/
def twoFunctions : Module where
  values := [{ kind := .function { name := "f", insts := [2], subprogramLine := some 1 } },
    { kind := .function { name := "g", insts := [3], subprogramLine := some 5 } },
    { kind := .instruction .other, debugLine := some 3 },
    { kind := .instruction .other, debugLine := some 7 }]
  types := []
  functions := [0, 1]
  names_nodup := by decide
  functions_listed := by decide

def renamedFiles : Env := Env.ofModules [twoFunctions, twoFunctions]

/-- `a.c` becomes `b.c`, and a line of the first function is changed. -/
def renamedDiff : GitShow.FileDiff where
  pre := "a.c".toList
  post := "b.c".toList
  headerLines := [⟨.similarity, "90%".toList⟩, ⟨.renameFrom, "a.c".toList⟩,
    ⟨.renameTo, "b.c".toList⟩, ⟨.preName, "a/a.c".toList⟩, ⟨.postName, "b/b.c".toList⟩]
  hunks := [{ pre := 1, preCount := some 3, post := 1, postCount := some 3, lines :=
    [.context "int f(int x)".toList, .deleted "  x = 0;".toList, .added "  x = 1;".toList,
      .context "  return x;".toList] }]

def renamedShow : GitShow.Commit where
  preamble := ["commit c1".toList, [], "    Rename a.c".toList]
  files := [renamedDiff]

def renamedRepo : Comanal.Repo where
  path := "/r".toList
  hasFile p := p = "/r/b.bc".toList

def renamedChanges : List Comanal.ChangeInfo :=
  [⟨.deleted, "a.c".toList, [], [], []⟩, ⟨.added, "b.c".toList, [2], [2], []⟩]

def renamedCommit : Commit :=
  Commit.ofChanges "c1" (Comanal.changedSrcs renamedRepo renamedChanges) (fun _ => 1) true

theorem renamedShow_wellFormed : renamedShow.WellFormed := by
  have hpre : GitShow.Plain renamedDiff.pre := ⟨by decide, by decide⟩
  have hpost : GitShow.Plain renamedDiff.post := ⟨by decide, by decide⟩
  constructor
  · intro line hline
    simp only [renamedShow, List.mem_cons, List.not_mem_nil, or_false] at hline
    rcases hline with rfl | rfl | rfl
    · right
      decide
    · right
      decide
    · exact Or.inl rfl
  · intro f hf
    obtain rfl := List.mem_singleton.mp hf
    exact ⟨hpre, hpost, by decide⟩
  · decide
  · decide

theorem linesWithin_twoFunctions :
    LinesWithin renamedFiles ⟨1, 0⟩ 1 3 ∧ LinesWithin renamedFiles ⟨1, 1⟩ 5 7 := by
  have hinsts : ∀ {F : FuncPtr} {I : ValPtr} {l : ℕ} {head tail : ℤ},
      renamedFiles.insts F = [I] → (renamedFiles.value I).debugLine = some l →
      (l : ℤ) = tail → head ≤ tail → 1 ≤ head → (∃ k : ℕ,
        (renamedFiles.function F).subprogramLine = some k ∧ head = k) →
      LinesWithin renamedFiles F head tail := by
    intro F I l head tail hF hI hl hle hpos hsub
    refine ⟨hpos, hsub, ?_, ?_⟩
    · intro J hJ
      rw [hF] at hJ
      obtain rfl := List.mem_singleton.mp hJ
      exact ⟨l, hI, by omega, by omega⟩
    · rw [hF]
      exact ⟨I, rfl, l, hI, hl.symm⟩
  constructor
  · exact hinsts (I := ⟨1, 2⟩) rfl rfl rfl (by decide) (by decide) ⟨1, rfl, rfl⟩
  · exact hinsts (I := ⟨1, 3⟩) rfl rfl rfl (by decide) (by decide) ⟨5, rfl, rfl⟩

theorem exists_renamed : ∃ P, Managed renamedFiles (fun _ _ => True) [0] P ∧
    P.td.ctx.modules = [(0, "/r/a.bc")] := by
  have hinit : (initializeProgram renamedFiles 2 registeredAnalyzers
      (TypeDive.parsed [("/r/a.bc", 0)]) "out").map (fun P => P.td.ctx.modules) =
        some [(0, "/r/a.bc")] := by
    decide
  obtain ⟨P, hP, hmods⟩ := Option.map_eq_some_iff.mp hinit
  exact ⟨P, Managed.init 2 registeredAnalyzers [("/r/a.bc", 0)] "out" (List.Perm.refl _)
    (by decide) (by decide) hP, hmods⟩

theorem newFile_updated_iff_renamed : ∃ P,
    PassedToUpdate renamedFiles P renamedCommit ⟨1, 0⟩ ↔ renamedDiff.AddsWithin 1 3 := by
  obtain ⟨P, hP, _⟩ := exists_renamed
  have hread : Comanal.getChangeInfos renamedShow.print = some renamedChanges := by decide
  have hcommit : renamedCommit =
      Commit.ofChanges "c1" (Comanal.changedSrcs renamedRepo renamedChanges) (fun _ => 1) true :=
    rfl
  have hf : renamedDiff ∈ renamedShow.files := List.mem_singleton_self _
  have hkind : renamedDiff.RenamedWithEdits := by
    exact ⟨by decide, by decide, by decide, by decide, by decide⟩
  have hq : "/r/b.bc" ∈ renamedCommit.upPaths := by decide
  exact ⟨P, newFile_updated_iff hP renamedShow_wellFormed hread renamedRepo (fun _ => 1) "c1" true
    hcommit (by decide) (hP.fresh_of_seen (by decide)) hf (Or.inr hkind) (by decide) hq (by decide)
    linesWithin_twoFunctions.1⟩

/-- The function `g` of the renamed file is not touched by the diff. -/
theorem newFile_updated_untouched : ¬ ∀ (E : Env) (seen : List ModPtr) (P : Program),
    Managed E (fun _ _ => True) seen P → ∀ D : GitShow.Commit, D.WellFormed → ∀ changes,
      Comanal.getChangeInfos D.print = some changes → ∀ (repo : Comanal.Repo)
        (mods : String → ModPtr) (hexsha : String) (doAgg : Bool) (c : Commit),
        c = Commit.ofChanges hexsha (Comanal.changedSrcs repo changes) mods doAgg →
        (c.files.map Prod.snd).Nodup → (∀ f ∈ c.files, f.2 ∉ P.td.ctx.modules.map Prod.fst) →
        ∀ f ∈ D.files,
          (f.Added ∨ f.RenamedWithEdits) → ∀ q,
            q = String.ofList (Comanal.getBCPath repo f.post) → q ∈ c.upPaths →
            q ∉ P.td.ctx.modules.map Prod.snd → ∀ F head tail, F ∈ definitionsOf E (mods q) →
              LinesWithin E F head tail → PassedToUpdate E P c F := by
  intro hall
  obtain ⟨P, hP, hmods⟩ := exists_renamed
  have hpassed := hall renamedFiles [0] P hP renamedShow renamedShow_wellFormed renamedChanges
    (by decide) renamedRepo (fun _ => 1) "c1" true renamedCommit rfl (by decide)
    (hP.fresh_of_seen (by decide))
    renamedDiff (List.mem_singleton_self _)
    (Or.inr ⟨by decide, by decide, by decide, by decide, by decide⟩) "/r/b.bc" (by decide)
    (by decide) (by rw [hmods]; decide) ⟨1, 1⟩ 5 7 (by decide) linesWithin_twoFunctions.2
  have hfile : ("/r/b.bc", 1) ∈ renamedCommit.files := by decide
  rw [passedToUpdate_iff hP (by decide) (by decide) (hP.fresh_of_seen (by decide)) hfile
    (by decide)] at hpassed
  revert hpassed
  decide

end AnalyzerManager

end Cisa

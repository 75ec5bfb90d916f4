import Cisa.AnalyzerManager.NewFiles
import Cisa.Scripts.Worktree

/-!
# The main loop

For every commit the main script takes the work tree along, builds what has changed, and hands
the bitcode of the changed sources over. What the program has loaded stays what the bitcode
files of the work tree hold as long as builds change no other bitcode.
-/

namespace Cisa

open Std FileTree

namespace Entry

open Comanal

/-- A path, as it is written after the path of the root. -/
def textOf (p : Path) : Text := p.reverse.flatMap ('/' :: ·)

/-- The names are names of files. -/
def IsNamed (p : Path) : Prop := ∀ name ∈ p, name ≠ [] ∧ '/' ∉ name

theorem pathOf_textOf {p : Path} (h : IsNamed p) : pathOf (textOf p) = p := by
  unfold pathOf textOf
  rw [Words.words_flatMap_cons (by simp), List.reverse_reverse]
  intro name hname
  obtain ⟨hne, hslash⟩ := h name (List.mem_reverse.mp hname)
  refine ⟨hne, ?_⟩
  rintro c hc
  rw [decide_eq_false_iff_not]
  rintro rfl
  exact hslash hc

theorem textOf_inj {p q : Path} (hp : IsNamed p) (hq : IsNamed q) (h : textOf p = textOf q) :
    p = q := by
  rw [← pathOf_textOf hp, h, pathOf_textOf hq]

/-- The path of a bitcode file that git would print has no empty names. -/
def Normal (src : Text) : Prop := ∃ p, p ≠ [] ∧ IsNamed p ∧ '/' :: src = textOf p

def dirname (path : Text) : Text :=
  let head := (path.reverse.dropWhile (· ≠ '/')).reverse
  if head.all (· = '/') then head else (head.reverse.dropWhile (· = '/')).reverse

/-- What the scripts see of the work tree below `root`. -/
def repoAt (root : Text) (T : WorkTree) : Repo where
  path := root
  hasFile abs := (abs.dropPrefix? (root ++ ['/'])).any fun path =>
    (pathOf path).isEmpty || T.nodes.contains (pathOf path)

/-- `f[-3:] == ".bc"`. -/
def isBC : Path → Bool
  | [] => false
  | name :: _ => name.drop (name.length - 3) = ".bc".toList

/-- `GetAllBCPaths`, up to the order. -/
def getAllBCPaths (root : Text) (T : WorkTree) : List Text :=
  T.nodes.toList.filterMap fun r =>
    match r.2 with
    | .file _ => if isBC r.1 then some (root ++ textOf r.1) else none
    | .dir => none

section Build

variable (make : List Text → WorkTree → WorkTree)

/-- `Build`, where `make` is what the build of some targets leaves. -/
def build (srcPaths : List Text) (T : WorkTree) : Option WorkTree :=
  if srcPaths = [] then some T
  else if srcPaths.all isCSource then
    some (make (srcPaths.map fun path => path.take (path.length - 2) ++ ".o".toList) T)
  else none

def buildDir (srcDirs : List Text) (T : WorkTree) : WorkTree :=
  if srcDirs = [] then T else make srcDirs T

/-- `_src_dirs_a`. -/
def addedDirs (srcs : List ChangeInfo) : List Text :=
  ((srcs.filter fun c => c.state = .added).map fun c => dirname c.srcPath).dedup

/-- `_src_paths_m`. -/
def modifiedPaths (repo : Repo) (srcs : List ChangeInfo) : List Text :=
  (srcs.filter fun c => c.state = .modified && !(getBCPath repo c.srcPath).isEmpty).map
    ChangeInfo.srcPath

/-- The work tree is taken to a commit and built; what is handed over are the changed sources
with their bitcode. -/
def processCommit (root : Text) (blob : Text → Option Text) (difflines : List Text)
    (T : WorkTree) : Option (WorkTree × List ChangeInfo) := do
  let changes ← getChangeInfos difflines
  let T ← updateRepo blob changes T
  let srcs := changes.filter fun c => isCSource c.srcPath
  let T ← build make (modifiedPaths (repoAt root T) srcs) T
  let T := buildDir make (addedDirs srcs) T
  return (T, changedSrcs (repoAt root T) changes)

end Build

variable {root : Text} {T T' : WorkTree} {src : Text}

theorem textOf_cons (name : Text) (dir : Path) :
    textOf (name :: dir) = textOf dir ++ '/' :: name := by
  simp [textOf]

theorem Normal.head?_ne (h : Normal src) : src.head? ≠ some '/' := by
  obtain ⟨p, hp, hnamed, htext⟩ := h
  obtain ⟨first, rest, hrev⟩ := List.exists_cons_of_ne_nil (List.reverse_ne_nil_iff.mpr hp)
  obtain ⟨hne, hslash⟩ := hnamed first (List.mem_reverse.mp (hrev ▸ List.mem_cons_self))
  obtain ⟨c, cs, rfl⟩ := List.exists_cons_of_ne_nil hne
  rw [textOf, hrev, List.flatMap_cons, List.cons_append] at htext
  rw [(List.cons.inj htext).2]
  simpa using fun hc : c = '/' => hslash (hc ▸ List.mem_cons_self)

theorem exists_getBCPath (hsrc : Normal src) {repo : Repo} (h : getBCPath repo src ≠ []) :
    ∃ p, IsNamed p ∧ isBC p = true ∧ getBCPath repo src = repo.path ++ textOf p := by
  obtain ⟨stem, habs, hbc⟩ := getBCPath_append hsrc.head?_ne h
  obtain ⟨p, hp, hnamed, htext⟩ := hsrc
  cases p with
  | nil => exact absurd rfl hp
  | cons name dir =>
    rw [htext, textOf_cons, ← List.append_assoc] at habs
    -- the extension lies within the last name
    have hext : ".c".toList <:+ (repo.path ++ textOf dir) ++ '/' :: name := ⟨stem, habs.symm⟩
    have hname : '/' :: name <:+ (repo.path ++ textOf dir) ++ '/' :: name := List.suffix_append _ _
    obtain ⟨hne, hslash⟩ := hnamed name List.mem_cons_self
    obtain ⟨c, cs, rfl⟩ := List.exists_cons_of_ne_nil hne
    have hsuf := List.suffix_of_suffix_length_le hext hname (by simp)
    rcases List.suffix_cons_iff.mp hsuf with heq | ⟨t, ht⟩
    · exact absurd (List.cons.inj heq).1 (by decide)
    rw [← ht] at habs hslash
    have hstem : repo.path ++ textOf dir ++ '/' :: t = stem := by
      rw [← List.append_cancel_right_eq _ ".c".toList, ← habs]
      simp
    refine ⟨(t ++ ".bc".toList) :: dir, ?_, ?_, ?_⟩
    · intro n hn
      rcases List.mem_cons.mp hn with rfl | hn
      · refine ⟨by simp, ?_⟩
        rw [List.mem_append, not_or] at hslash ⊢
        exact ⟨hslash.1, by decide⟩
      · exact hnamed n (List.mem_cons_of_mem _ hn)
    · simp [isBC]
    · rw [hbc, ← hstem, textOf_cons]
      simp

/-- The path of a file of the work tree, as it is handed over. -/
def bcPathAt (root : Text) (p : Path) : String := String.ofList (root ++ textOf p)

theorem bcPathAt_inj {p q : Path} (hp : IsNamed p) (hq : IsNamed q)
    (h : bcPathAt root p = bcPathAt root q) : p = q :=
  textOf_inj hp hq (List.append_cancel_left (String.ofList_injective h))

theorem mem_getAllBCPaths {abs : Text} : abs ∈ getAllBCPaths root T ↔
    ∃ p c, isBC p = true ∧ T.nodes[p]? = some (.file c) ∧ abs = root ++ textOf p := by
  unfold getAllBCPaths
  rw [List.mem_filterMap]
  constructor
  · rintro ⟨⟨p, x⟩, hr, habs⟩
    cases x with
    | dir => simp at habs
    | file c =>
      dsimp only at habs
      split_ifs at habs with hbc
      exact ⟨p, c, hbc, ExtTreeMap.mem_toList_iff_getElem?_eq_some.mp hr,
        (Option.some.inj habs).symm⟩
  · rintro ⟨p, c, hbc, hnode, rfl⟩
    refine ⟨(p, .file c), ExtTreeMap.mem_toList_iff_getElem?_eq_some.mpr hnode, ?_⟩
    exact if_pos hbc

/-! ## What is loaded -/

open AnalyzerManager (Program Managed Commit Committed initializeProgram registeredAnalyzers)

/-- The names in the tree are names of files. -/
def Named (T : WorkTree) : Prop := ∀ p ∈ T.nodes, IsNamed p

/-- The module has been read from the bitcode file at the path; `bitcode` is what the modules
have been read from. -/
def ReadFrom (bitcode : ModPtr → Text) (root : Text) (T : WorkTree) (M : ModPtr) (path : String) :
    Prop :=
  ∃ p, isBC p = true ∧ path = bcPathAt root p ∧ T.nodes[p]? = some (.file (bitcode M))

/-- The module is what the file at its path holds. -/
def Reads (bitcode : ModPtr → Text) (root : Text) (T : WorkTree) (f : ParsedFile) : Prop :=
  ∀ p, IsNamed p → f.1 = bcPathAt root p → T.nodes[p]? = some (.file (bitcode f.2))

/-- The program has loaded what the bitcode files of the work tree hold, and nothing else. -/
structure InSync (bitcode : ModPtr → Text) (root : Text) (T : WorkTree) (P : Program) : Prop where
  loaded : ∀ x ∈ P.td.ctx.modules, ReadFrom bitcode root T x.1 x.2
  all : ∀ p c, isBC p = true → T.nodes[p]? = some (.file c) →
    bcPathAt root p ∈ P.td.ctx.modules.map Prod.snd

/-- No bitcode file but those at the paths differs. -/
def OnlyAt (root : Text) (T T' : WorkTree) (paths : List String) : Prop :=
  ∀ p, isBC p = true → bcPathAt root p ∉ paths →
    ∀ c, T'.nodes[p]? = some (.file c) ↔ T.nodes[p]? = some (.file c)

section Sync

variable {E : Env} {bitcode : ModPtr → Text} {P P' : Program} {n : ℕ}

theorem inSync_next_iff {files : List ParsedFile} (hsync : InSync bitcode root T P)
    (hT : Named T) (hT' : Named T')
    (hmods : P'.td.ctx.modules = TypeDive.nextModules P.td.ctx.modules files)
    (hfiles : ∀ f ∈ files, ReadFrom bitcode root T' f.2 f.1) :
    InSync bitcode root T' P' ↔ OnlyAt root T T' (files.map Prod.fst) := by
  have hmem : ∀ M path, (M, path) ∈ P'.td.ctx.modules ↔
      ((M, path) ∈ P.td.ctx.modules ∧ path ∉ files.map Prod.fst) ∨ (path, M) ∈ files := by
    intro M path
    rw [hmods]
    exact TypeDive.mem_nextModules
  constructor
  · intro hsync' p hbc hp c
    -- the module at the path is an old one, read from both trees
    have hread : ∀ M, (M, bcPathAt root p) ∈ P.td.ctx.modules → IsNamed p →
        T'.nodes[p]? = some (.file (bitcode M)) ∧ T.nodes[p]? = some (.file (bitcode M)) := by
      intro M hM hnamed
      obtain ⟨q, _, hq, hnode⟩ := hsync.loaded _ hM
      obtain ⟨q', _, hq', hnode'⟩ := hsync'.loaded _ ((hmem _ _).mpr (Or.inl ⟨hM, hp⟩))
      obtain rfl := bcPathAt_inj hnamed (hT q (mem_of_getElem? hnode)) hq
      obtain rfl := bcPathAt_inj hnamed (hT' q' (mem_of_getElem? hnode')) hq'
      exact ⟨hnode', hnode⟩
    constructor
    · intro hnode
      obtain ⟨⟨M, path⟩, hM, rfl⟩ := List.mem_map.mp (hsync'.all p c hbc hnode)
      have hold := ((hmem _ _).mp hM).resolve_right fun hfile =>
        hp (List.mem_map.mpr ⟨_, hfile, rfl⟩)
      obtain ⟨hnode', hnode''⟩ := hread M hold.1 (hT' p (mem_of_getElem? hnode))
      exact hnode''.trans (hnode'.symm.trans hnode)
    · intro hnode
      obtain ⟨⟨M, path⟩, hM, rfl⟩ := List.mem_map.mp (hsync.all p c hbc hnode)
      obtain ⟨hnode', hnode''⟩ := hread M hM (hT p (mem_of_getElem? hnode))
      exact hnode'.trans (hnode''.symm.trans hnode)
  · intro honly
    constructor
    · rintro ⟨M, path⟩ hM
      rcases (hmem M path).mp hM with ⟨hold, hp⟩ | hfile
      · obtain ⟨p, hbc, rfl, hnode⟩ := hsync.loaded _ hold
        exact ⟨p, hbc, rfl, (honly p hbc hp _).mpr hnode⟩
      · exact hfiles _ hfile
    · intro p c hbc hnode
      by_cases hp : bcPathAt root p ∈ files.map Prod.fst
      · obtain ⟨⟨path, M⟩, hfile, rfl⟩ := List.mem_map.mp hp
        exact List.mem_map.mpr ⟨(M, _), (hmem _ _).mpr (Or.inr hfile), rfl⟩
      · obtain ⟨⟨M, path⟩, hM, rfl⟩ :=
          List.mem_map.mp (hsync.all p c hbc ((honly p hbc hp c).mp hnode))
        exact List.mem_map.mpr ⟨(M, _), (hmem _ _).mpr (Or.inl ⟨hM, hp⟩), rfl⟩

end Sync

/-! ## Runs -/

/-- A commit is processed and handed over. Git reports a file once, and every file that is handed
over can be read. -/
structure MainStep (E : Env) (bitcode : ModPtr → Text) (root : Text) (T : WorkTree) (P : Program)
    (T' : WorkTree) (P' : Program) where
  /-- The budget of the loops of an update. -/
  n : ℕ
  make : List Text → WorkTree → WorkTree
  blob : Text → Option Text
  difflines : List Text
  changes : List ChangeInfo
  srcs : List ChangeInfo
  hexsha : String
  mods : String → ModPtr
  doAgg : Bool
  read_diff : getChangeInfos difflines = some changes
  once : (changes.map ChangeInfo.srcPath).Nodup
  normal : ∀ ci ∈ changes, Normal ci.srcPath
  process : processCommit make root blob difflines T = some (T', srcs)
  named : Named T'
  mods_nodup : ((Commit.ofChanges hexsha srcs mods doAgg).files.map Prod.snd).Nodup
  fresh : ∀ f ∈ (Commit.ofChanges hexsha srcs mods doAgg).files,
    f.2 ∉ P.td.ctx.modules.map Prod.fst
  read : ∀ f ∈ (Commit.ofChanges hexsha srcs mods doAgg).files, Reads bitcode root T' f
  step : (Commit.ofChanges hexsha srcs mods doAgg).run E n P = some P'

def MainStep.commit {E : Env} {bitcode : ModPtr → Text} {root : Text} {T T' : WorkTree}
    {P P' : Program} (s : MainStep E bitcode root T P T' P') : Commit :=
  Commit.ofChanges s.hexsha s.srcs s.mods s.doAgg

/-- The states of the script: what is loaded at the start is what is listed, then the commits
follow. `C` is assumed of the work trees before and after a commit and of what is handed over. -/
inductive MainRun (E : Env) (bitcode : ModPtr → Text) (root : Text)
    (C : WorkTree → WorkTree → List String → Prop) : List ModPtr → WorkTree → Program → Prop
  | init (n : ℕ) (analyzers : List IAnalyzer) (files : List ParsedFile) (outPath : String)
      {T : WorkTree} {P : Program} (analyzers_perm : analyzers.Perm registeredAnalyzers)
      (named : Named T)
      (listed : (files.map Prod.fst).Perm ((getAllBCPaths root T).map String.ofList))
      (mods_nodup : (files.map Prod.snd).Nodup) (read : ∀ f ∈ files, Reads bitcode root T f)
      (step : initializeProgram E n analyzers (TypeDive.parsed files) outPath = some P) :
      MainRun E bitcode root C (files.map Prod.snd) T P
  | commit {seen : List ModPtr} {T T' : WorkTree} {P P' : Program}
      (run : MainRun E bitcode root C seen T P) (step : MainStep E bitcode root T P T' P')
      (hC : C T T' step.commit.upPaths) :
      MainRun E bitcode root C (step.commit.files.map Prod.snd ++ seen) T' P'

section Run

variable {E : Env} {bitcode : ModPtr → Text} {C : WorkTree → WorkTree → List String → Prop}
  {seen : List ModPtr} {P P' : Program} {files : List ParsedFile} {changes srcs : List ChangeInfo}
  {make : List Text → WorkTree → WorkTree} {blob : Text → Option Text} {difflines : List Text}

theorem nodup_getAllBCPaths (hT : Named T) : ((getAllBCPaths root T).map String.ofList).Nodup := by
  refine List.Nodup.map (fun _ _ heq => String.ofList_injective heq) ?_
  unfold getAllBCPaths
  apply List.pairwise_filterMap.mpr
  apply ExtTreeMap.distinct_keys_toList.imp_of_mem
  rintro ⟨p, x⟩ ⟨q, y⟩ hp hq hne abs habs abs' habs' rfl
  rw [ExtTreeMap.mem_toList_iff_getElem?_eq_some] at hp hq
  cases x with
  | dir => simp at habs
  | file c =>
    cases y with
    | dir => simp at habs'
    | file d =>
      dsimp only at habs habs'
      split_ifs at habs habs'
      have htext := (Option.some.inj habs).trans (Option.some.inj habs').symm
      refine hne (compare_eq_iff_eq.mpr ?_)
      exact textOf_inj (hT p (mem_of_getElem? hp)) (hT q (mem_of_getElem? hq))
        (List.append_cancel_left htext)

theorem readFrom_of_listed (hT : Named T)
    (hlisted : (files.map Prod.fst).Perm ((getAllBCPaths root T).map String.ofList))
    (hread : ∀ f ∈ files, Reads bitcode root T f) :
    ∀ f ∈ files, ReadFrom bitcode root T f.2 f.1 := by
  intro f hf
  obtain ⟨abs, habs, hpath⟩ := List.mem_map.mp (hlisted.mem_iff.mp (List.mem_map_of_mem hf))
  obtain ⟨p, c, hbc, hnode, rfl⟩ := mem_getAllBCPaths.mp habs
  exact ⟨p, hbc, hpath.symm, hread f hf p (hT p (mem_of_getElem? hnode)) hpath.symm⟩

theorem inSync_of_listed (hT : Named T)
    (hlisted : (files.map Prod.fst).Perm ((getAllBCPaths root T).map String.ofList))
    (hread : ∀ f ∈ files, Reads bitcode root T f) (hmods : P.td.ctx.modules = files.map Prod.swap) :
    InSync bitcode root T P := by
  constructor
  · intro x hx
    rw [hmods] at hx
    obtain ⟨f, hf, rfl⟩ := List.mem_map.mp hx
    exact readFrom_of_listed hT hlisted hread f hf
  · intro p c hbc hnode
    have hmem : bcPathAt root p ∈ files.map Prod.fst := by
      rw [hlisted.mem_iff]
      exact List.mem_map.mpr ⟨_, mem_getAllBCPaths.mpr ⟨p, c, hbc, hnode, rfl⟩, rfl⟩
    rw [hmods, List.map_map]
    exact hmem

theorem srcs_of_processCommit (hread : getChangeInfos difflines = some changes)
    (h : processCommit make root blob difflines T = some (T', srcs)) :
    srcs = changedSrcs (repoAt root T') changes := by
  unfold processCommit at h
  simp only [hread, Option.bind_eq_bind, Option.bind_some, Option.pure_def] at h
  obtain ⟨T₁, _, h⟩ := Option.bind_eq_some_iff.mp h
  obtain ⟨T₂, _, h⟩ := Option.bind_eq_some_iff.mp h
  obtain ⟨rfl, rfl⟩ := Prod.mk.inj (Option.some.inj h)
  rfl

theorem nodup_upPaths_of_once (hexsha : String) (mods : String → ModPtr) (doAgg : Bool)
    (honce : (changes.map ChangeInfo.srcPath).Nodup) (hnormal : ∀ ci ∈ changes, Normal ci.srcPath)
    {repo : Repo} :
    (Commit.ofChanges hexsha (changedSrcs repo changes) mods doAgg).upPaths.Nodup := by
  have hnodup : ((changedSrcs repo changes).map ChangeInfo.bcPath).Nodup :=
    nodup_bcPaths honce fun ci hci => (hnormal ci hci).head?_ne
  have hmap := hnodup.map fun _ _ heq => String.ofList_injective heq
  rw [AnalyzerManager.upPaths_ofChanges]
  rwa [List.map_map] at hmap

namespace MainStep

variable (s : MainStep E bitcode root T P T' P')

theorem srcs_eq : s.srcs = changedSrcs (repoAt root T') s.changes :=
  srcs_of_processCommit s.read_diff s.process

theorem upPaths_nodup : s.commit.upPaths.Nodup := by
  rw [commit, srcs_eq]
  exact nodup_upPaths_of_once _ _ _ s.once s.normal

theorem readFrom : ∀ f ∈ s.commit.files, ReadFrom bitcode root T' f.2 f.1 := by
  intro f hf
  have hread := s.read f hf
  obtain ⟨ci, hci, rfl⟩ := List.mem_map.mp hf
  rw [srcs_eq] at hci
  obtain ⟨hbc, hne, c0, hc0, hsrc, _⟩ := mem_changedSrcs hci
  obtain ⟨p, hnamed, hisBC, hpath⟩ := exists_getBCPath (hsrc ▸ s.normal c0 hc0) hne
  have habs : String.ofList ci.bcPath = bcPathAt root p := by
    rw [hbc, hpath]
    rfl
  exact ⟨p, hisBC, habs, hread p hnamed habs⟩

end MainStep

/-- A run of the script is a run of the analyzer manager. -/
theorem MainRun.managed (h : MainRun E bitcode root C seen T P) :
    Managed E (fun _ _ => True) seen P := by
  induction h with
  | init n analyzers files outPath hanals hnamed hlisted hm hread hstep =>
    exact .init n analyzers files outPath hanals
      (hlisted.nodup_iff.mpr (nodup_getAllBCPaths hnamed)) hm hstep
  | commit _ s _ ih => exact ih.commit s.n _ s.upPaths_nodup s.mods_nodup s.fresh trivial s.step

theorem MainRun.named (h : MainRun E bitcode root C seen T P) : Named T := by
  cases h with
  | init n analyzers files outPath _ hnamed => exact hnamed
  | commit _ s _ => exact s.named

theorem MainRun.inSync_next_iff (h : MainRun E bitcode root C seen T P)
    (hsync : InSync bitcode root T P) (s : MainStep E bitcode root T P T' P') :
    InSync bitcode root T' P' ↔ OnlyAt root T T' s.commit.upPaths := by
  obtain ⟨hc⟩ := s.commit.committed s.step
  have hmods := hc.modules_eq h.managed.loaded.1 ⟨s.upPaths_nodup, s.mods_nodup, s.fresh⟩
  exact Entry.inSync_next_iff hsync h.named s.named hmods s.readFrom

theorem MainRun.inSync (h : MainRun E bitcode root (OnlyAt root) seen T P) :
    InSync bitcode root T P := by
  induction h with
  | init n analyzers files outPath _ hnamed hlisted hm hread hstep =>
    exact inSync_of_listed hnamed hlisted hread (AnalyzerManager.modules_initializeProgram
      (hlisted.nodup_iff.mpr (nodup_getAllBCPaths hnamed)) hm hstep)
  | commit hrun s honly ih => exact (hrun.inSync_next_iff ih s).mpr honly

/-- A run of the script gives the analyzer manager what it relies on. As long as no other bitcode
than what is handed over differs after a commit, the program has loaded exactly what the bitcode
files hold; after the first commit where other bitcode differs it has not. -/
theorem loaded_in_sync (h : MainRun E bitcode root (OnlyAt root) seen T P) :
    Managed E (fun _ _ => True) seen P ∧ InSync bitcode root T P ∧
      ∀ T' P' (s : MainStep E bitcode root T P T' P'),
        InSync bitcode root T' P' ↔ OnlyAt root T T' s.commit.upPaths :=
  ⟨h.managed, h.inSync, fun _ _ s => h.inSync_next_iff h.inSync s⟩

end Run

def readerTree : WorkTree :=
  ((({} : WorkTree).write ["a.c".toList] "x".toList).bind fun T =>
    T.write ["a.bc".toList] "bc".toList).getD {}

/-- A line of the source is replaced. -/
def readerDiff : List Text :=
  ["diff --git a/a.c b/a.c", "@@ -4 +4 @@", "-x", "+y"].map String.toList

def readerStep : Option (WorkTree × List ChangeInfo) :=
  processCommit (fun _ T => T) "/r".toList (fun _ => some "y".toList) readerDiff readerTree

def readerSrcs : List ChangeInfo :=
  [{ state := .modified, srcPath := "a.c".toList, delLines := [4], addLines := [4],
     bcPath := "/r/a.bc".toList }]

theorem reads_reader {T : WorkTree} {M : ModPtr}
    (h : T.nodes[["a.bc".toList]]? = some (.file "bc".toList)) :
    Reads (fun _ => "bc".toList) "/r".toList T ("/r/a.bc", M) := by
  intro p hp heq
  have hnamed : IsNamed ["a.bc".toList] := by
    intro name hname
    obtain rfl := List.mem_singleton.mp hname
    decide
  have hpath : "/r/a.bc" = bcPathAt "/r".toList ["a.bc".toList] := by decide
  obtain rfl : p = ["a.bc".toList] := bcPathAt_inj hp hnamed (heq.symm.trans hpath)
  exact h

theorem named_reader {T : WorkTree}
    (h : T.nodes.keys = [["a.bc".toList], ["a.c".toList]]) : Named T := by
  have hall : ∀ p ∈ [["a.bc".toList], ["a.c".toList]], ∀ name ∈ p, name ≠ [] ∧ '/' ∉ name := by
    decide
  intro p hp
  rw [← ExtTreeMap.mem_keys, h] at hp
  exact hall p hp

theorem loaded_in_sync_replaced : ∃ T P T' P',
    ∃ s : MainStep AnalyzerManager.readerFiles (fun _ => "bc".toList) "/r".toList T P T' P',
      InSync (fun _ => "bc".toList) "/r".toList T P ∧
        (InSync (fun _ => "bc".toList) "/r".toList T' P' ↔
          OnlyAt "/r".toList T T' s.commit.upPaths) := by
  have hproc : readerStep.map (fun r => (r.1.nodes.keys, r.1.nodes[["a.bc".toList]]?, r.2)) =
      some ([["a.bc".toList], ["a.c".toList]], some (.file "bc".toList), readerSrcs) := by decide
  have hrun : ((initializeProgram AnalyzerManager.readerFiles 2 registeredAnalyzers
      (TypeDive.parsed [("/r/a.bc", 0)]) "out").bind
        ((Commit.ofChanges "c1" readerSrcs (fun _ => 1) true).run
          AnalyzerManager.readerFiles 2)).isSome = true := by decide
  obtain ⟨⟨T', srcs⟩, hstep, heq⟩ := Option.map_eq_some_iff.mp hproc
  obtain ⟨hkeys, heq⟩ := Prod.mk.inj heq
  obtain ⟨hnode, rfl⟩ := Prod.mk.inj heq
  obtain ⟨P', hP'⟩ := Option.isSome_iff_exists.mp hrun
  obtain ⟨P, hP, hcommit⟩ := Option.bind_eq_some_iff.mp hP'
  have hfirst : MainRun AnalyzerManager.readerFiles (fun _ => "bc".toList) "/r".toList
      (OnlyAt "/r".toList) [0] readerTree P :=
    .init 2 registeredAnalyzers [("/r/a.bc", 0)] "out" (List.Perm.refl _)
      (named_reader (by decide)) (List.Perm.of_eq (by decide)) (by decide)
      (by
        intro f hf
        obtain rfl := List.mem_singleton.mp hf
        exact reads_reader (by decide)) hP
  obtain ⟨_, hsync, hnext⟩ := loaded_in_sync hfirst
  let s : MainStep AnalyzerManager.readerFiles (fun _ => "bc".toList) "/r".toList readerTree P T'
      P' :=
    { n := 2, make := fun _ T => T, blob := fun _ => some "y".toList, difflines := readerDiff
      changes := [{ state := .modified, srcPath := "a.c".toList, delLines := [4], addLines := [4] }]
      srcs := readerSrcs, hexsha := "c1", mods := fun _ => 1, doAgg := true
      read_diff := by decide
      once := by decide
      normal := by
        intro ci hci
        obtain rfl := List.mem_singleton.mp hci
        refine ⟨["a.c".toList], by simp, ?_, by decide⟩
        intro name hname
        obtain rfl := List.mem_singleton.mp hname
        decide
      process := hstep
      named := named_reader hkeys
      mods_nodup := by decide
      fresh := hfirst.managed.fresh_of_seen (by decide)
      read := by
        intro f hf
        obtain rfl := List.mem_singleton.mp hf
        exact reads_reader hnode
      step := hcommit }
  exact ⟨readerTree, P, T', P', s, hsync, hnext T' P' s⟩

end Entry

end Cisa

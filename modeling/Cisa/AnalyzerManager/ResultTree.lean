import Cisa.AnalyzerManager.FilesOfCommit
import Cisa.AnalyzerManager.ResultStore
import Cisa.Lib.FileTree

/-!
# The directories of the results

`_Commit` creates a directory for the commit and one below it for every function with results,
and asserts that they could be created. In every run that starts below an `out_path` that has
been emptied, the assertions hold, and the tree has the same files as the flat map of paths.
-/

namespace Cisa

open Std FileTree

namespace AnalyzerManager

/-- What lies below `out_path`. -/
abbrev OutTree := FileTree String String

section Tree

variable (E : Env) (cur : Context)

/-- A directory that is not there is created; the assertion is about the creation. -/
def needDirectory (p : List String) (T : OutTree) : Option OutTree :=
  if T.isDir p = true then some T else T.mkdir p

/-- `PrintOneAnalRes`; a stream that cannot be opened writes nothing. -/
def printOneAnalRes (F : FuncPtr) (T : OutTree) (p : String × AnalyzerReturn) : Option OutTree :=
  if p.2.isEmpty then some T
  else (needDirectory [(E.function F).name, cur.hexsha] T).map fun T =>
    (T.write [p.1, (E.function F).name, cur.hexsha] (printJson p.2)).getD T

/-- `PrintOneFunction`. The directory of the commit is created within an assertion, which a debug
build evaluates. -/
def printOneFunction (T : OutTree) (r : FuncPtr × SortedMap String AnalyzerReturn) :
    Option OutTree :=
  (needDirectory [cur.hexsha] T).bind fun T => r.2.toList.foldlM (printOneAnalRes E cur r.1) T

/-- `_Commit`, on the tree. -/
def commitTree (T : OutTree) : Option OutTree :=
  cur.res.toList.foldlM (printOneFunction E cur) T

end Tree

/-- Below the log, files are in directories of functions, which are in directories of commits. -/
def Layered (T : OutTree) : Prop :=
  ∀ (p : List String) (x : Node String), T.nodes[p]? = some x →
    p = ["log"] ∨ (p.length ≤ 2 ∧ x = .dir) ∨ ∃ text, p.length = 3 ∧ x = .file text

/-- What a path has between two slashes, if it names a new file or directory. -/
def FileName (name : String) : Prop := name ∉ ["", ".", ".."] ∧ '/' ∉ name.toList

instance (name : String) : Decidable (FileName name) := inferInstanceAs (Decidable (_ ∧ _))

def filePath (outPath hexsha funcName analName : String) : String :=
  outPath ++ "/" ++ hexsha ++ "/" ++ funcName ++ "/" ++ analName

/-- The files of the tree are those of the map. -/
def Shows (outPath : String) (T : OutTree) (m : SortedMap String String) : Prop :=
  ∀ hexsha funcName analName, FileName hexsha → FileName funcName → FileName analName →
    T.content [analName, funcName, hexsha] = m[filePath outPath hexsha funcName analName]?

/-- All names of the results of a commit are names of files. -/
structure NamesOk (E : Env) (cur : Context) : Prop where
  hexsha : FileName cur.hexsha
  not_log : cur.hexsha ≠ "log"
  function : ∀ F ∈ cur.res, FileName (E.function F).name

variable {E : Env} {cur : Context} {T T' : OutTree} {F : FuncPtr} {outPath : String}
  {m : SortedMap String String}

theorem filePath_eq_iff {h h' f f' a a' : String} (hf : FileName f) (hf' : FileName f')
    (ha : FileName a) (ha' : FileName a') :
    filePath outPath h f a = filePath outPath h' f' a' ↔ [a, f, h] = [a', f', h'] := by
  constructor
  · intro heq
    have hlist := congrArg String.toList heq
    simp only [filePath, String.toList_append, List.append_assoc] at hlist
    have hpath := List.append_cancel_left (List.append_cancel_left hlist)
    have hrest : (h.toList ++ '/' :: f.toList) ++ '/' :: a.toList =
        (h'.toList ++ '/' :: f'.toList) ++ '/' :: a'.toList := by
      simpa using hpath
    obtain ⟨hfront, hanal⟩ := append_slash_inj ha.2 ha'.2 hrest
    obtain ⟨hhex, hname⟩ := append_slash_inj hf.2 hf'.2 hfront
    rw [String.toList_inj.mp hhex, String.toList_inj.mp hname, String.toList_inj.mp hanal]
  · intro heq
    obtain ⟨rfl, rfl, rfl⟩ : a = a' ∧ f = f' ∧ h = h' := by simpa using heq
    rfl

/-- A directory that nothing is in the way of is there afterwards, and no file changes. -/
theorem needDirectory_spec {n : String} {p : List String} (hl : Layered T)
    (hp : T.isDir p = true) (hlen : p.length ≤ 1) (hlog : n :: p ≠ ["log"]) :
    ∃ T', needDirectory (n :: p) T = some T' ∧ Layered T' ∧ T'.isDir (n :: p) = true ∧
      (∀ q, T.isDir q = true → T'.isDir q = true) ∧ ∀ q, T'.content q = T.content q := by
  have hexists : p = [] ∨ p ∈ T.nodes := (isDir_iff.mp hp).imp_right mem_of_getElem?
  have hfree : ∀ text, T.nodes[n :: p]? ≠ some (.file text) := by
    intro text hfile
    rcases hl _ _ hfile with h | ⟨_, h⟩ | ⟨_, h, _⟩
    · exact hlog h
    · cases h
    · simp at h
      omega
  rcases mkdir_spec (n := n) hexists with ⟨_, T', hT', hnodes⟩ | ⟨hcontra, _⟩
  · have hnodes' : ∀ q, T'.nodes[q]? = if q = n :: p then some .dir else T.nodes[q]? := by
      intro q
      rw [hnodes]
      by_cases hq : q = n :: p
      · rw [if_pos ⟨hq ▸ List.suffix_rfl, by simp [hq]⟩, if_pos hq]
      · rw [if_neg hq]
        split_ifs with hsuf
        · exact (getElem?_of_suffix hp ((List.suffix_cons_iff.mp hsuf.1).resolve_left hq)
            hsuf.2).symm
        · rfl
    refine ⟨T', hT', ?_, ?_, ?_, ?_⟩
    · intro q x hx
      rw [hnodes'] at hx
      split_ifs at hx with hq
      · subst hq
        exact Or.inr (Or.inl ⟨by simpa using hlen, (Option.some.inj hx).symm⟩)
      · exact hl q x hx
    · rw [isDir_iff, hnodes', if_pos rfl]
      exact Or.inr rfl
    · intro q hq
      rw [isDir_iff, hnodes']
      refine (isDir_iff.mp hq).imp_right fun h => ?_
      rw [h, ite_self]
    · intro q
      rw [Option.ext_iff]
      intro text
      rw [content_eq_some, content_eq_some, hnodes']
      split_ifs with hq
      · subst hq
        simp [hfree text]
      · rfl
  · exact absurd (noFile_cons.mpr ⟨noFile_of_isDir hp, hfree⟩) hcontra

theorem printOneAnalRes_spec (hl : Layered T) (hdir : T.isDir [cur.hexsha] = true)
    (p : String × AnalyzerReturn) : ∃ T', printOneAnalRes E cur F T p = some T' ∧ Layered T' ∧
      T'.isDir [cur.hexsha] = true ∧
      ∀ q, T'.content q = if p.2.isEmpty = false ∧ q = [p.1, (E.function F).name, cur.hexsha]
        then some (printJson p.2) else T.content q := by
  unfold printOneAnalRes
  cases hempty : p.2.isEmpty with
  | true => exact ⟨T, by simp, hl, hdir, by simp⟩
  | false =>
    obtain ⟨T₁, hT₁, hl₁, hfunc, hdirs, hcontent⟩ :=
      needDirectory_spec (n := (E.function F).name) hl hdir (by simp) (by simp)
    have hnot : T₁.isDir [p.1, (E.function F).name, cur.hexsha] = false := by
      rw [Bool.eq_false_iff, ne_eq, isDir_iff]
      rintro (h | h)
      · simp at h
      · rcases hl₁ _ _ h with h | ⟨h, _⟩ | ⟨_, _, h⟩
        · simp at h
        · simp at h
        · cases h
    obtain ⟨T', hT'⟩ := write_eq_some_iff (c := printJson p.2).mpr ⟨by simp, hfunc, hnot⟩
    refine ⟨T', by simp [hT₁, hT'], ?_, ?_, ?_⟩
    · intro q x hx
      rw [getElem?_write hT'] at hx
      split_ifs at hx with hq
      · subst hq
        exact Or.inr (Or.inr ⟨_, rfl, (Option.some.inj hx).symm⟩)
      · exact hl₁ q x hx
    · rw [isDir_iff, getElem?_write hT', if_neg (by simp)]
      exact isDir_iff.mp (hdirs _ hdir)
    · intro q
      rw [content_write hT', hcontent]
      simp [eq_comm]

theorem Shows.printOneAnalRes {p : String × AnalyzerReturn} (hs : Shows outPath T m)
    (hnames : NamesOk E cur) (hF : F ∈ cur.res) (hp : FileName p.1)
    (hT' : ∀ q, T'.content q =
      if p.2.isEmpty = false ∧ q = [p.1, (E.function F).name, cur.hexsha]
      then some (printJson p.2) else T.content q) :
    Shows outPath T' (if p.2.isEmpty then m
      else m.insert (filePath outPath cur.hexsha (E.function F).name p.1) (printJson p.2)) := by
  intro h f a hh hf ha
  rw [hT', hs h f a hh hf ha]
  cases hempty : p.2.isEmpty with
  | true => simp
  | false =>
    rw [if_neg Bool.false_ne_true, ExtTreeMap.getElem?_insert_eq_ite]
    simp only [true_and, filePath_eq_iff (hnames.function F hF) hf hp ha,
      eq_comm (b := [p.1, (E.function F).name, cur.hexsha])]

theorem foldlM_printOneAnalRes (hnames : NamesOk E cur) (hF : F ∈ cur.res)
    (rets : List (String × AnalyzerReturn)) (hrets : ∀ p ∈ rets, FileName p.1)
    (hl : Layered T) (hdir : T.isDir [cur.hexsha] = true) (hs : Shows outPath T m) :
    ∃ T', rets.foldlM (printOneAnalRes E cur F) T = some T' ∧ Layered T' ∧
      Shows outPath T' (m.insertMany (rets.filterMap fun p => if p.2.isEmpty then none
        else some (filePath outPath cur.hexsha (E.function F).name p.1, printJson p.2))) := by
  induction rets generalizing T m with
  | nil => exact ⟨T, rfl, hl, by simpa using hs⟩
  | cons p rets ih =>
    rw [List.forall_mem_cons] at hrets
    obtain ⟨T₁, hT₁, hl₁, hdir₁, hcontent⟩ := printOneAnalRes_spec (F := F) hl hdir p
    have hs₁ := hs.printOneAnalRes hnames hF hrets.1 hcontent
    obtain ⟨T', hT', hl', hs'⟩ := ih hrets.2 hl₁ hdir₁ hs₁
    refine ⟨T', by simp [List.foldlM_cons, hT₁, hT'], hl', ?_⟩
    rw [List.filterMap_cons]
    cases hempty : p.2.isEmpty with
    | true =>
      rw [hempty] at hs'
      exact hs'
    | false =>
      rw [hempty] at hs'
      rw [if_neg Bool.false_ne_true, ExtTreeMap.insertMany_cons]
      exact hs'

theorem foldlM_printOneFunction (hnames : NamesOk E cur)
    (res : List (FuncPtr × SortedMap String AnalyzerReturn))
    (hres : ∀ r ∈ res, r.1 ∈ cur.res ∧ ∀ p ∈ r.2.toList, FileName p.1)
    (hl : Layered T) (hs : Shows outPath T m) :
    ∃ T', res.foldlM (printOneFunction E cur) T = some T' ∧ Layered T' ∧
      Shows outPath T' (m.insertMany (res.flatMap fun r => r.2.toList.filterMap fun p =>
        if p.2.isEmpty then none
        else some (filePath outPath cur.hexsha (E.function r.1).name p.1, printJson p.2))) := by
  induction res generalizing T m with
  | nil => exact ⟨T, rfl, hl, by simpa using hs⟩
  | cons r res ih =>
    rw [List.forall_mem_cons] at hres
    obtain ⟨⟨hF, hanals⟩, hres⟩ := hres
    obtain ⟨T₁, hT₁, hl₁, hdir₁, _, hcontent⟩ :=
      needDirectory_spec (n := cur.hexsha) hl (isDir_iff.mpr (Or.inl rfl)) (by simp)
        (by simpa using hnames.not_log)
    have hs₁ : Shows outPath T₁ m := fun h f a hh hf ha => by rw [hcontent, hs h f a hh hf ha]
    obtain ⟨T₂, hT₂, hl₂, hs₂⟩ := foldlM_printOneAnalRes hnames hF r.2.toList hanals hl₁ hdir₁ hs₁
    obtain ⟨T', hT', hl', hs'⟩ := ih hres hl₂ hs₂
    refine ⟨T', ?_, hl', ?_⟩
    · simp [List.foldlM_cons, printOneFunction, hT₁, hT₂, hT']
    · rw [List.flatMap_cons, ExtTreeMap.insertMany_append]
      exact hs'

theorem fileName_name (A : IAnalyzer) : FileName A.name := by
  cases A with
  | oper A => exact (by decide : FileName "oper")
  | sub A => exact (by decide : FileName "sub")

variable {n : ℕ} {P P' : Program} {c : Commit}

/-- The results of a commit go into the tree as they go into the map. -/
theorem Committed.commitTree_spec (h : Committed E n P c P') (hnames : NamesOk E P'.cur)
    (hl : Layered T) (hs : Shows outPath T m) :
    ∃ T', commitTree E P'.cur T = some T' ∧ Layered T' ∧
      Shows outPath T' (m.insertMany (AnalyzerManager.commit E outPath P'.cur)) := by
  apply foldlM_printOneFunction hnames _ _ hl hs
  rintro ⟨F, rets⟩ hr
  have hF : P'.cur.res[F]? = some rets := ExtTreeMap.mem_toList_iff_getElem?_eq_some.mp hr
  refine ⟨ExtTreeMap.mem_iff_isSome_getElem?.mpr (by simp [hF]), ?_⟩
  rintro ⟨name, aret⟩ hp
  have hget : (P'.cur.res.getD F ∅)[name]? = some aret := by
    rw [ExtTreeMap.getD_eq_getD_getElem?, hF]
    exact ExtTreeMap.mem_toList_iff_getElem?_eq_some.mp hp
  obtain ⟨A, _, rfl⟩ := List.mem_map.mp (h.allOrNone.ok F name aret hget).1
  exact fileName_name A

/-- A run, with what lies below `out_path`. At first there is the log at most. -/
inductive Stored (E : Env) : Program → OutTree → Prop
  | init (n : ℕ) (analyzers : List IAnalyzer) (files : List BCFile) (outPath : String)
      {P : Program} {T : OutTree} (cleared : ∀ p ∈ T.nodes, p = ["log"])
      (step : initializeProgram E n analyzers files outPath = some P) : Stored E P T
  | skip (n : ℕ) (c : Commit) {P P' : Program} {T : OutTree} (stored : Stored E P T)
      (doAgg : c.doAgg = false) (step : c.run E n P = some P') : Stored E P' T
  | write (n : ℕ) (c : Commit) {P P' : Program} {T T' : OutTree} (stored : Stored E P T)
      (doAgg : c.doAgg = true) (step : c.run E n P = some P') (names : NamesOk E P'.cur)
      (tree : commitTree E P'.cur T = some T') : Stored E P' T'

theorem Stored.shows (h : Stored E P T) : Layered T ∧ Shows P.outPath T P.written := by
  induction h with
  | @init n analyzers files outPath P T hcleared hstep =>
    obtain ⟨S, _, hP⟩ := Option.bind_eq_some_iff.mp hstep
    obtain rfl := Option.some.inj hP
    refine ⟨fun p x hx => Or.inl (hcleared p (mem_of_getElem? hx)), ?_⟩
    intro h f a _ _ _
    have hnone : T.content [a, f, h] = none := by
      rw [Option.eq_none_iff_forall_ne_some]
      intro text htext
      simpa using hcleared _ (mem_of_getElem? (content_eq_some.mp htext))
    rw [hnone]
    simp [Program.setState]
  | skip n c _ hagg hstep ih =>
    obtain ⟨hout, hwritten⟩ := Commit.written_eq hstep
    rw [hout, hwritten, hagg]
    exact ih
  | write n c _ hagg hstep hnames htree ih =>
    obtain ⟨hout, hwritten⟩ := Commit.written_eq hstep
    obtain ⟨hc⟩ := c.committed hstep
    obtain ⟨T', hT', hl', hs'⟩ := hc.commitTree_spec hnames ih.1 ih.2
    obtain rfl := Option.some.inj (hT'.symm.trans htree)
    rw [hout, hwritten, hagg, if_pos rfl]
    exact ⟨hl', hs'⟩

/-- After every run the tree has the files of the map and nothing else but the log, and the
assertions about the directories of the next commit hold. -/
theorem tree_shows_written (h : Stored E P T) : Layered T ∧ Shows P.outPath T P.written ∧
    ∀ (n : ℕ) (c : Commit) (P' : Program), c.run E n P = some P' → c.doAgg = true →
      NamesOk E P'.cur →
      ∃ T', commitTree E P'.cur T = some T' ∧ Shows P'.outPath T' P'.written := by
  obtain ⟨hl, hs⟩ := h.shows
  refine ⟨hl, hs, ?_⟩
  intro n c P' hstep hagg hnames
  obtain ⟨hc⟩ := c.committed hstep
  obtain ⟨T', hT', _⟩ := hc.commitTree_spec hnames hl hs
  exact ⟨T', hT', (Stored.write n c h hagg hstep hnames hT').shows.2⟩

/-- A first commit, in a directory with nothing in it. -/
theorem tree_shows_written_changed : ∃ (P' : Program) (T' : OutTree),
    commitTree readerFiles P'.cur {} = some T' ∧
    Shows P'.outPath T' P'.written ∧
    P'.written["out/c1/wav_read/sub"]? = some (printJson (subResult ["wav"])) := by
  have hrun : (((initializeProgram readerFiles 2 registeredAnalyzers
      (TypeDive.parsed [("a.bc", 0)]) "out").bind (readerCommit.run readerFiles 2)).bind
      fun P' => if P'.cur.hexsha = "c1" ∧ P'.cur.res.keys = [⟨1, 0⟩] then
        P'.written["out/c1/wav_read/sub"]? else none) = some (printJson (subResult ["wav"])) := by
    decide +kernel
  obtain ⟨P', hP', hfile⟩ := Option.bind_eq_some_iff.mp hrun
  obtain ⟨P, hP, hstep⟩ := Option.bind_eq_some_iff.mp hP'
  split_ifs at hfile with hres
  obtain ⟨hhex, hkeys⟩ := hres
  have hnames : NamesOk readerFiles P'.cur := by
    constructor
    · rw [hhex]
      decide
    · rw [hhex]
      decide
    · intro F hF
      rw [← ExtTreeMap.mem_keys, hkeys, List.mem_singleton] at hF
      rw [hF]
      decide
  have hstored : Stored readerFiles P {} := Stored.init 2 registeredAnalyzers _ "out" (by simp) hP
  obtain ⟨_, _, hnext⟩ := tree_shows_written hstored
  obtain ⟨T', hT', hs'⟩ := hnext 2 readerCommit P' hstep rfl hnames
  exact ⟨P', T', hT', hs', hfile⟩

end AnalyzerManager

end Cisa

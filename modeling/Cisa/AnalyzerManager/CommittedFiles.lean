import Cisa.AnalyzerManager.Commits

/-!
# The files of a commit

The results are held by function; their files are named after the function, and a file that
is opened again is truncated. Functions of different modules may have one name.
-/

namespace Cisa

open Std

namespace AnalyzerManager

variable (E : Env) (outPath : String) (cur : Context)

/-- The result of the analyzer for the function is printed: it is not empty. -/
def Printed (F : FuncPtr) (analName : String) (aret : AnalyzerReturn) : Prop :=
  (∃ rets, cur.res[F]? = some rets ∧ rets[analName]? = some aret) ∧ aret.isEmpty = false

/-- `res_path`. -/
def resultPath (F : FuncPtr) (analName : String) : String :=
  outPath ++ "/" ++ cur.hexsha ++ "/" ++ (E.function F).name ++ "/" ++ analName

/-- The directory of the commit, empty at first, after `_Commit`. -/
def committed : SortedMap String String :=
  (∅ : SortedMap String String).insertMany (commit E outPath cur)

/-- The file of every result has the text of the result. -/
def LosesNothing : Prop :=
  ∀ F analName aret, Printed cur F analName aret →
    (committed E outPath cur)[resultPath E outPath cur F analName]? = some (printJson aret)

variable {E outPath cur}

theorem mem_commit {path text : String} : (path, text) ∈ commit E outPath cur ↔
    ∃ F analName aret, Printed cur F analName aret ∧
      path = resultPath E outPath cur F analName ∧ text = printJson aret := by
  unfold commit
  simp only [List.mem_flatMap, List.mem_filterMap]
  constructor
  · rintro ⟨⟨F, rets⟩, hF, ⟨analName, aret⟩, hanal, hwrite⟩
    split_ifs at hwrite with hempty
    obtain ⟨rfl, rfl⟩ := Prod.mk.inj (Option.some.inj hwrite)
    refine ⟨F, analName, aret, ⟨⟨rets, ?_, ?_⟩, by simpa using hempty⟩, rfl, rfl⟩
    · exact ExtTreeMap.mem_toList_iff_getElem?_eq_some.mp hF
    · exact ExtTreeMap.mem_toList_iff_getElem?_eq_some.mp hanal
  · rintro ⟨F, analName, aret, ⟨⟨rets, hF, hanal⟩, hne⟩, rfl, rfl⟩
    refine ⟨(F, rets), ExtTreeMap.mem_toList_iff_getElem?_eq_some.mpr hF, (analName, aret),
      ExtTreeMap.mem_toList_iff_getElem?_eq_some.mpr hanal, ?_⟩
    simp [hne, resultPath]

theorem LosesNothing.text_eq (h : LosesNothing E outPath cur) {F G : FuncPtr}
    {analName analName' : String} {aret aret' : AnalyzerReturn}
    (hF : Printed cur F analName aret) (hG : Printed cur G analName' aret')
    (hpath : resultPath E outPath cur F analName = resultPath E outPath cur G analName') :
    printJson aret = printJson aret' := by
  have hfile := h F analName aret hF
  rw [hpath, h G analName' aret' hG] at hfile
  exact (Option.some.inj hfile).symm

/-- Nothing is lost iff any two results whose files have the same path print alike; the order
of the functions makes no difference. -/
theorem losesNothing_iff : LosesNothing E outPath cur ↔
    ∀ F analName aret, Printed cur F analName aret →
      ∀ G analName' aret', Printed cur G analName' aret' →
        resultPath E outPath cur F analName = resultPath E outPath cur G analName' →
        printJson aret = printJson aret' := by
  constructor
  · exact fun h F analName aret hF G analName' aret' hG hpath => h.text_eq hF hG hpath
  · intro h F analName aret hF
    have hwritten : (resultPath E outPath cur F analName, printJson aret) ∈
        commit E outPath cur := mem_commit.mpr ⟨F, analName, aret, hF, rfl, rfl⟩
    obtain ⟨text, htext, hfile⟩ := ExtTreeMap.exists_getElem?_insertMany
      (m := (∅ : SortedMap String String)) hwritten
    obtain ⟨G, analName', aret', hG, hpath, rfl⟩ := mem_commit.mp htext
    rw [committed, hfile, h F analName aret hF G analName' aret' hG hpath]

/-- The last slash tells where the name of the file begins. -/
theorem append_slash_inj {xs xs' ys ys' : List Char} (hys : '/' ∉ ys) (hys' : '/' ∉ ys')
    (h : xs ++ '/' :: ys = xs' ++ '/' :: ys') : xs = xs' ∧ ys = ys' := by
  rcases List.append_eq_append_iff.mp h with ⟨zs, hxs', hzs⟩ | ⟨zs, hxs, hzs⟩
  · cases zs with
    | nil => simpa [hxs'] using hzs
    | cons z zs =>
      obtain ⟨_, hmem⟩ := List.cons.inj hzs
      exact absurd (by simp [hmem]) hys
  · cases zs with
    | nil => simpa [hxs, eq_comm] using hzs
    | cons z zs =>
      obtain ⟨_, hmem⟩ := List.cons.inj hzs
      exact absurd (by simp [hmem]) hys'

/-- If the names of the analyzers have no slash, then two results share a file iff their
functions have one name and the analyzer is the same. -/
theorem resultPath_eq_iff {F G : FuncPtr} {analName analName' : String}
    (hslash : '/' ∉ analName.toList) (hslash' : '/' ∉ analName'.toList) :
    resultPath E outPath cur F analName = resultPath E outPath cur G analName' ↔
      (E.function F).name = (E.function G).name ∧ analName = analName' := by
  constructor
  · intro hpath
    have hchars : (E.function F).name.toList ++ '/' :: analName.toList =
        (E.function G).name.toList ++ '/' :: analName'.toList := by
      have hlist := congrArg String.toList hpath
      simpa [resultPath, String.toList_append] using hlist
    obtain ⟨hname, hanal⟩ := append_slash_inj hslash hslash' hchars
    exact ⟨String.toList_inj.mp hname, String.toList_inj.mp hanal⟩
  · rintro ⟨hname, rfl⟩
    rw [resultPath, resultPath, hname]

/-- Two static functions of one name, in two modules. -/
def sameNames : Env :=
  let M := Module.ofFunctions [{ name := "f", linkage := .internal }] (by decide)
  Env.ofModules [M, M]

def subResult (subsys : List String) : AnalyzerReturn :=
  (∅ : AnalyzerReturn).insert "subsys" (ExtTreeSet.ofElems subsys)

def twoResults (F G : FuncPtr) (aret aret' : AnalyzerReturn) : Context where
  res := (∅ : Results)
    |>.insert F ((∅ : SortedMap String AnalyzerReturn).insert "sub" aret)
    |>.insert G ((∅ : SortedMap String AnalyzerReturn).insert "sub" aret')

theorem printed_twoResults {F G : FuncPtr} (hFG : G ≠ F) {aret aret' : AnalyzerReturn}
    (h : aret.isEmpty = false) (h' : aret'.isEmpty = false) :
    Printed (twoResults F G aret aret') F "sub" aret ∧
      Printed (twoResults F G aret aret') G "sub" aret' := by
  refine ⟨⟨⟨(∅ : SortedMap String AnalyzerReturn).insert "sub" aret, ?_, ?_⟩, h⟩,
    ⟨⟨(∅ : SortedMap String AnalyzerReturn).insert "sub" aret', ?_, ?_⟩, h'⟩⟩
  · rw [twoResults, ExtTreeMap.getElem?_insert_eq_ite, if_neg hFG,
      ExtTreeMap.getElem?_insert_self]
  · exact ExtTreeMap.getElem?_insert_self
  · rw [twoResults, ExtTreeMap.getElem?_insert_self]
  · exact ExtTreeMap.getElem?_insert_self

/-- The functions are in different subsystems; one of the results is overwritten. -/
theorem sameNames_lost : ¬ LosesNothing sameNames "out"
    (twoResults ⟨0, 0⟩ ⟨1, 0⟩ (subResult ["wav"]) (subResult ["flac"])) := by
  intro h
  obtain ⟨hfirst, hsecond⟩ := printed_twoResults (F := ⟨0, 0⟩) (G := ⟨1, 0⟩) (by decide)
    (show (subResult ["wav"]).isEmpty = false from by simp [subResult])
    (show (subResult ["flac"]).isEmpty = false from by simp [subResult])
  have htext := h.text_eq hfirst hsecond rfl
  exact absurd htext (by decide)

end AnalyzerManager

end Cisa

import Cisa.AnalyzerManager.Commits
import Cisa.Lib.Json

/-!
# The printed results

A result is printed as an object of arrays of strings. A comma follows every element, so that
only results without elements are JSON, and nothing is escaped.
-/

namespace Cisa

open Std

namespace AnalyzerManager

/-- The members of an object are the names of the result, each with the array of the elements
of its set. -/
def Represents (aret : AnalyzerReturn) (fields : List (String × Json.Value)) : Prop :=
  (fields.map Prod.fst).Perm (aret.toList.map Prod.fst) ∧
    ∀ p ∈ fields, ∃ relset, aret[p.1]? = some relset ∧
      ∃ scs : List String, p.2 = .array (scs.map .string) ∧ scs.Perm relset.toList

/-- The text of the result is JSON, and its value represents the result. -/
def DecodesBack (aret : AnalyzerReturn) : Prop :=
  ∃ fields, Json.Decodes (printJson aret).toList (.object fields) ∧ Represents aret fields

/-- Every set is empty, and no name has a quotation mark, a backslash or a control character. -/
def Plain (aret : AnalyzerReturn) : Prop :=
  ∀ p ∈ aret.toList, p.2.isEmpty = true ∧ ∀ c ∈ p.1.toList, Json.mustEscape c = false

variable {aret : AnalyzerReturn} {last : Bool} {name : String} {relset : RelSet}

def nameLine (name : String) : List Char :=
  [' ', ' '] ++ '"' :: (name.toList ++ '"' :: [':', ' ', '['])

def elementLine (sc : String) : List Char :=
  [' ', ' ', ' ', ' '] ++ '"' :: (sc.toList ++ '"' :: [','])

def closingLine (last : Bool) : List Char := [' ', ' ', ']'] ++ if last then [] else [',']

def relSetLines (last : Bool) (name : String) (relset : RelSet) : List (List Char) :=
  nameLine name :: relset.toList.map elementLine ++ [closingLine last]

def entryLines (aret : AnalyzerReturn) : List (List (List Char)) :=
  aret.toList.mapIdx fun idx p => relSetLines (aret.size ≤ idx + 1) p.1 p.2

def jsonLines (aret : AnalyzerReturn) : List (List Char) :=
  ['\x7b'] :: (entryLines aret).flatten ++ [['\x7d']]

theorem toList_printRelSet :
    (printRelSet last name relset).toList = Words.unlines (relSetLines last name relset) := by
  unfold printRelSet relSetLines
  simp [String.toList_join, nameLine, elementLine, closingLine, Words.unlines, List.flatMap_map]
  cases last <;> simp

theorem toList_printJson : (printJson aret).toList = Words.unlines (jsonLines aret) := by
  unfold printJson jsonLines
  have hentries : (String.join (aret.toList.mapIdx fun idx p =>
      printRelSet (aret.size ≤ idx + 1) p.1 p.2)).toList =
      Words.unlines (entryLines aret).flatten := by
    unfold entryLines
    rw [String.toList_join, Words.unlines_flatten, List.flatMap_def]
    simp only [List.mapIdx_eq_zipIdx_map, List.map_map, Function.comp_def, toList_printRelSet]
  rw [String.toList_append, String.toList_append, hentries, Words.unlines_append]
  simp

/-- The last element leaves its comma before the closing bracket. -/
theorem unlines_relSetLines_of_element (h : relset.isEmpty = false) :
    ∃ a b, Words.unlines (relSetLines last name relset) =
      a ++ ',' :: '\n' :: ' ' :: ' ' :: ']' :: b := by
  rcases List.eq_nil_or_concat relset.toList with hnil | ⟨scs, sc, hscs⟩
  · rw [ExtTreeSet.isEmpty_iff.mpr (ExtTreeSet.toList_eq_nil_iff.mp hnil)] at h
    cases h
  · unfold relSetLines
    rw [hscs]
    refine ⟨Words.unlines (nameLine name :: scs.map elementLine) ++
      ([' ', ' ', ' ', ' '] ++ '"' :: (sc.toList ++ ['"'])),
      (if last then [] else [',']) ++ ['\n'], ?_⟩
    simp [Words.unlines_append, elementLine, closingLine]

theorem unlines_relSetLines_infix {p : String × RelSet} (hp : p ∈ aret.toList) :
    ∃ last, Words.unlines (relSetLines last p.1 p.2) <:+: (printJson aret).toList := by
  obtain ⟨idx, hidx, rfl⟩ := List.mem_iff_getElem.mp hp
  refine ⟨aret.size ≤ idx + 1, ?_⟩
  have hmem : relSetLines (aret.size ≤ idx + 1) aret.toList[idx].1 aret.toList[idx].2 ∈
      entryLines aret := List.mem_mapIdx.mpr ⟨idx, hidx, rfl⟩
  rw [toList_printJson]
  apply Words.unlines_infix
  unfold jsonLines
  exact (List.infix_of_mem_flatten hmem).trans ⟨[['\x7b']], [['\x7d']], rfl⟩

theorem not_decodes_of_element {p : String × RelSet} (hp : p ∈ aret.toList)
    (hne : p.2.isEmpty = false) (v : Json.Value) : ¬Json.Decodes (printJson aret).toList v := by
  obtain ⟨last, before, after, htext⟩ := unlines_relSetLines_infix hp
  obtain ⟨a, b, hlines⟩ := @unlines_relSetLines_of_element last p.1 _ hne
  rw [← htext, hlines]
  have hshape : before ++ (a ++ ',' :: '\n' :: ' ' :: ' ' :: ']' :: b) ++ after =
    (before ++ a) ++ ',' :: '\n' :: ' ' :: ' ' :: ']' :: (b ++ after) := by simp
  rw [hshape]
  exact Json.not_decodes_of_trailing

/-- The subsystems of a function are never empty, so that their text is not JSON. -/
theorem not_decodes_subsystems (A : SubsystemLevelAnalyzer) (ctx : GlobalContext) (F : FuncPtr)
    (v : Json.Value) : ¬Json.Decodes (printJson (A.aggregate ctx F)).toList v := by
  have hall : SubsystemLevelAnalyzer.subsyses.isEmpty = false := by decide +kernel
  unfold SubsystemLevelAnalyzer.aggregate
  refine not_decodes_of_element
    (ExtTreeMap.mem_toList_iff_getElem?_eq_some.mpr ExtTreeMap.getElem?_insert_self) ?_ v
  dsimp only
  split_ifs with hempty
  · exact hall
  · simpa using hempty

theorem mem_jsonLines {l : List Char} (hl : l ∈ jsonLines aret) (hquote : '"' ∈ l) :
    ∃ p ∈ aret.toList, l = nameLine p.1 ∨ ∃ sc ∈ p.2.toList, l = elementLine sc := by
  unfold jsonLines entryLines at hl
  simp only [List.cons_append, List.mem_cons, List.mem_append, List.mem_flatten, List.mem_mapIdx,
    List.not_mem_nil, or_false] at hl
  rcases hl with rfl | ⟨_, ⟨idx, hidx, rfl⟩, hl⟩ | rfl
  · simp at hquote
  · refine ⟨aret.toList[idx], List.getElem_mem hidx, ?_⟩
    unfold relSetLines at hl
    simp only [List.cons_append, List.mem_cons, List.mem_append, List.mem_map, List.not_mem_nil,
      or_false] at hl
    rcases hl with rfl | ⟨sc, hsc, rfl⟩ | rfl
    · exact .inl rfl
    · exact .inr ⟨sc, hsc, rfl⟩
    · unfold closingLine at hquote
      split_ifs at hquote <;> simp at hquote
  · simp at hquote

/-- A name that must be escaped can only be read from a longer one of the same kind. -/
theorem exists_longer (h : DecodesBack aret) {k : String} (hk : k ∈ aret.toList.map Prod.fst)
    (hspecial : ∃ c ∈ k.toList, Json.mustEscape c = true) :
    ∃ k' ∈ aret.toList.map Prod.fst, (∃ c ∈ k'.toList, Json.mustEscape c = true) ∧
      k.length < k'.length := by
  obtain ⟨fields, hdecodes, hkeys, -⟩ := h
  obtain ⟨raw, hraw, hin⟩ := hdecodes.quoted (hkeys.mem_iff.mpr hk)
  obtain ⟨hback, hlt⟩ := Json.longer_of_chars hraw hspecial
  rw [toList_printJson] at hin
  have hline : '\n' ∉ '"' :: raw ++ ['"'] := by simp [Json.newline_not_mem_of_chars hraw]
  obtain ⟨l, hl, hin⟩ := Words.exists_infix_of_infix_unlines hline (by simp) hin
  obtain ⟨p, hp, rfl | ⟨sc, hsc, -⟩⟩ := mem_jsonLines hl (hin.subset (by simp))
  · have hname : raw <:+: p.1.toList :=
      Words.infix_of_quoted (by decide) (by decide) hin
    refine ⟨p.1, List.mem_map_of_mem hp, ⟨'\\', hname.subset hback, rfl⟩, ?_⟩
    have hle := hname.length_le
    rw [String.length_toList] at hle hlt
    omega
  · have hempty : p.2.isEmpty = true := by
      by_contra hne
      exact not_decodes_of_element hp (by simpa using hne) _ hdecodes
    rw [ExtTreeSet.isEmpty_iff.mp hempty] at hsc
    simp at hsc

theorem DecodesBack.plain (h : DecodesBack aret) : Plain aret := by
  intro p hp
  constructor
  · obtain ⟨fields, hdecodes, -⟩ := h
    by_contra hne
    exact not_decodes_of_element hp (by simpa using hne) _ hdecodes
  · by_contra! hspecial
    let special := (aret.toList.map Prod.fst).toFinset.filter fun k =>
      ∃ c ∈ k.toList, Json.mustEscape c = true
    have hmem {k : String} : k ∈ special ↔
        k ∈ aret.toList.map Prod.fst ∧ ∃ c ∈ k.toList, Json.mustEscape c = true := by
      rw [Finset.mem_filter, List.mem_toFinset]
    have hp' : p.1 ∈ special := hmem.mpr ⟨List.mem_map_of_mem hp, by simpa using hspecial⟩
    obtain ⟨k, hk, hmax⟩ := special.exists_max_image String.length ⟨p.1, hp'⟩
    obtain ⟨k', hk', hspecial', hlt⟩ := exists_longer h (hmem.mp hk).1 (hmem.mp hk).2
    have hle := hmax k' (hmem.mpr ⟨hk', hspecial'⟩)
    omega

def nameTokens (name : String) : List Json.Token :=
  [.string name, .colon, .leftBracket, .rightBracket]

def closingTokens (last : Bool) : List Json.Token := if last then [] else [.comma]

theorem lexes_nameLine (h : ∀ c ∈ name.toList, Json.mustEscape c = false) :
    Json.Lexes (nameLine name) [.string name, .colon, .leftBracket] := by
  have hblank : Json.Lexes [' ', ' '] [] := .blank rfl (.blank rfl .nil)
  have hname := (Json.Spells.string (Json.Chars.of_plain h)).lexes
  have hbracket : Json.Lexes [' ', '['] [.leftBracket] := .blank rfl Json.Spells.leftBracket.lexes
  have hline := hblank.append (hname.append (Json.Spells.colon.lexes.append hbracket))
  simpa [nameLine] using hline

theorem lexes_closingLine :
    Json.Lexes (closingLine last) (.rightBracket :: closingTokens last) := by
  have hblank : Json.Lexes [' ', ' '] [] := .blank rfl (.blank rfl .nil)
  have hcomma : Json.Lexes (if last then [] else [',']) (closingTokens last) := by
    unfold closingTokens
    split_ifs
    · exact .nil
    · exact Json.Spells.comma.lexes
  have hline := hblank.append (Json.Spells.rightBracket.lexes.append hcomma)
  simpa [closingLine] using hline

theorem lexes_relSetLines (hempty : relset.isEmpty = true)
    (h : ∀ c ∈ name.toList, Json.mustEscape c = false) :
    Json.Lexes (Words.unlines (relSetLines last name relset))
      (nameTokens name ++ closingTokens last) := by
  have hnewline : Json.Lexes ['\n'] [] := .blank rfl .nil
  have hlines := (lexes_nameLine h).append
    (hnewline.append ((@lexes_closingLine last).append hnewline))
  have hnil : relset.toList = [] := by simp [ExtTreeSet.isEmpty_iff.mp hempty]
  unfold relSetLines
  rw [hnil]
  simpa [nameTokens] using hlines

/-- The names with empty arrays, in the order of the map. -/
def emptyArrays (aret : AnalyzerReturn) : List (String × Json.Value) :=
  aret.toList.map fun p => (p.1, .array [])

theorem Plain.decodes (h : Plain aret) :
    Json.Decodes (printJson aret).toList (.object (emptyArrays aret)) := by
  refine ⟨.leftBrace :: [Json.Token.comma].intercalate
    (aret.toList.map fun p => nameTokens p.1) ++ [.rightBrace], ?_, ?_⟩
  · have hnewline : Json.Lexes ['\n'] [] := .blank rfl .nil
    have hentries : Json.Lexes (Words.unlines (entryLines aret).flatten)
        ([Json.Token.comma].intercalate (aret.toList.map fun p => nameTokens p.1)) := by
      have hmap : (entryLines aret).map Words.unlines = aret.toList.mapIdx fun idx p =>
          Words.unlines (relSetLines (aret.size ≤ idx + 1) p.1 p.2) := by
        unfold entryLines
        simp only [List.mapIdx_eq_zipIdx_map, List.map_map, Function.comp_def]
      rw [← Words.flatten_mapIdx_separated, Words.unlines_flatten, hmap]
      apply Json.Lexes.flatten_mapIdx
      intro idx p hp
      obtain ⟨hempty, hname⟩ := h p hp
      have hentry := @lexes_relSetLines (aret.size ≤ idx + 1) p.1 p.2 hempty hname
      simpa [closingTokens] using hentry
    have htext := Json.Spells.leftBrace.lexes.append (hnewline.append
      (hentries.append (Json.Spells.rightBrace.lexes.append hnewline)))
    rw [toList_printJson]
    unfold jsonLines
    rw [Words.unlines_append]
    simpa using htext
  · have hobject := Json.IsValue.object
      (aret.toList.map fun p => (p.1, [.leftBracket, .rightBracket], .array [])) (by
        intro m hm
        obtain ⟨p, hp, rfl⟩ := List.mem_map.mp hm
        exact Json.IsValue.array [] (by simp))
    simpa [emptyArrays, nameTokens, Function.comp_def] using hobject

theorem Plain.represents (h : Plain aret) : Represents aret (emptyArrays aret) := by
  unfold emptyArrays
  constructor
  · rw [List.map_map]
    rfl
  · intro m hm
    obtain ⟨p, hp, rfl⟩ := List.mem_map.mp hm
    refine ⟨p.2, ExtTreeMap.mem_toList_iff_getElem?_eq_some.mp hp, [], rfl, ?_⟩
    rw [ExtTreeSet.isEmpty_iff.mp (h p hp).1]
    simp

theorem decodesBack_iff : DecodesBack aret ↔ Plain aret :=
  ⟨DecodesBack.plain, fun h => ⟨emptyArrays aret, h.decodes, h.represents⟩⟩

def oneSubsystem : AnalyzerReturn :=
  (∅ : AnalyzerReturn).insert "subsys" (ExtTreeSet.ofElems ["wav"])

/-- The comma after the only element comes before the bracket. -/
theorem oneSubsystem_not_json : printJson oneSubsystem =
    "\x7b\n  \"subsys\": [\n    \"wav\",\n  ]\n\x7d\n" ∧ ¬DecodesBack oneSubsystem := by
  refine ⟨by decide +kernel, ?_⟩
  rintro ⟨fields, hdecodes, -⟩
  have hmem : ("subsys", ExtTreeSet.ofElems ["wav"]) ∈ oneSubsystem.toList :=
    ExtTreeMap.mem_toList_iff_getElem?_eq_some.mpr ExtTreeMap.getElem?_insert_self
  exact not_decodes_of_element hmem (by decide +kernel) _ hdecodes

end AnalyzerManager

end Cisa

import Cisa.Analyzer.Oper

/-!
# The table of field names

Every debug type of the module that is a composite type, or is derived from one, appends the
names of the elements to a row. The row is that of the name at hand: of the typedef or the
member, if it has one, else of the composite type. What the row of a struct says about a field
is what has been written to it first.
-/

namespace Cisa

open Std

namespace Env

variable (E : Env) (M : ModPtr)

def elementNames (elements : List (Option ℕ)) : List String :=
  elements.map fun elem => (elem.map fun e => (E.diType M e).name).getD ""

/-- What a debug type appends to the row `k`. -/
def writtenNames (k : String) (i : ℕ) : List String :=
  let (DT, dname) := E.aliased M (E.diType M i)
  match DT.kind with
  | .composite elements =>
    if (if dname = "" then DT.name else dname) = k then E.elementNames M elements else []
  | _ => []

/-- A composite type is in the list of debug types. -/
def DefinesComposite (i : ℕ) (elements : List (Option ℕ)) : Prop :=
  i ∈ (E.module M).debugTypes ∧ (E.diType M i).kind = .composite elements

/-- The row of every composite type begins with the names of its elements. -/
def TableRight : Prop :=
  ∀ i elements, E.DefinesComposite M i elements → ∀ j (hj : j < elements.length),
    ((E.fieldNames M).getD (E.diType M i).name [])[j]? =
      some ((elements[j].map fun e => (E.diType M e).name).getD "")

/-- Of every composite type: what is written to its row before, followed by the names of its
elements, begins with the names of its elements. -/
def OwnRowFirst : Prop :=
  ∀ pre i post elements, (E.module M).debugTypes = pre ++ i :: post →
    (E.diType M i).kind = .composite elements →
    E.elementNames M elements <+:
      pre.flatMap (E.writtenNames M (E.diType M i).name) ++ E.elementNames M elements

variable {E M}

theorem getD_addFieldNames (fnames : FieldNames) (i : ℕ) (k : String) :
    (E.addFieldNames M fnames i).getD k [] = fnames.getD k [] ++ E.writtenNames M k i := by
  unfold addFieldNames writtenNames
  rcases E.aliased M (E.diType M i) with ⟨DT, dname⟩
  cases hkind : DT.kind with
  | composite elements =>
    simp only [hkind]
    by_cases hk : (if dname = "" then DT.name else dname) = k
    · simp [hk, elementNames]
    · simp [hk, ExtTreeMap.getD_insert]
  | derived base => simp [hkind]
  | other => simp [hkind]

theorem getD_fieldNames (k : String) :
    (E.fieldNames M).getD k [] = (E.module M).debugTypes.flatMap (E.writtenNames M k) := by
  have hfold : ∀ (is : List ℕ) (fnames : FieldNames),
      (is.foldl (E.addFieldNames M) fnames).getD k [] =
        fnames.getD k [] ++ is.flatMap (E.writtenNames M k) := by
    intro is
    induction is with
    | nil => simp
    | cons i is ih =>
      intro fnames
      rw [List.foldl_cons, ih, getD_addFieldNames, List.flatMap_cons, List.append_assoc]
  rw [fieldNames, hfold]
  simp

theorem writtenNames_self {i : ℕ} {elements : List (Option ℕ)}
    (h : (E.diType M i).kind = .composite elements) :
    E.writtenNames M (E.diType M i).name i = E.elementNames M elements := by
  simp [writtenNames, aliased, h]

theorem getD_fieldNames_of_split {pre post : List ℕ} {i : ℕ} {elements : List (Option ℕ)}
    (hsplit : (E.module M).debugTypes = pre ++ i :: post)
    (h : (E.diType M i).kind = .composite elements) :
    (E.fieldNames M).getD (E.diType M i).name [] =
      pre.flatMap (E.writtenNames M (E.diType M i).name) ++ E.elementNames M elements ++
        post.flatMap (E.writtenNames M (E.diType M i).name) := by
  rw [getD_fieldNames, hsplit, List.flatMap_append, List.flatMap_cons, writtenNames_self h,
    List.append_assoc]

theorem tableRight_iff_splits : E.TableRight M ↔
    ∀ i elements, E.DefinesComposite M i elements →
      E.elementNames M elements <+: (E.fieldNames M).getD (E.diType M i).name [] := by
  have hnames : ∀ (elements : List (Option ℕ)) (row : List String),
      (∀ j (hj : j < elements.length),
        row[j]? = some ((elements[j].map fun e => (E.diType M e).name).getD "")) ↔
      E.elementNames M elements <+: row := by
    intro elements row
    rw [List.prefix_iff_getElem?]
    simp [elementNames]
  simp only [TableRight, hnames]

/-- The rows of the composite types are right iff each begins with the names of its own
elements, whatever the entries before it write to it. -/
theorem tableRight_iff : E.TableRight M ↔ E.OwnRowFirst M := by
  rw [tableRight_iff_splits]
  constructor
  · intro h pre i post elements hsplit hkind
    have hrow := h i elements ⟨by simp [hsplit], hkind⟩
    rw [getD_fieldNames_of_split hsplit hkind] at hrow
    exact List.prefix_of_prefix_length_le hrow (List.prefix_append _ _) (by simp)
  · intro h i elements hS
    obtain ⟨hi, hkind⟩ := hS
    obtain ⟨pre, post, hsplit⟩ := List.append_of_mem hi
    rw [getD_fieldNames_of_split hsplit hkind]
    exact (h pre i post elements hsplit hkind).trans (List.prefix_append _ _)

end Env

namespace OperationLevelAnalyzer

theorem findText_dot {p cs : List Char} (hp : '.' ∉ p) :
    findText ['.'] (p ++ '.' :: cs) = some p.length := by
  induction p with
  | nil => simp [findText]
  | cons c p ih =>
    rw [List.mem_cons, not_or] at hp
    simp [findText, ih hp.2, hp.1]

theorem structFieldTag_eq {p name field : String} {j : ℕ} {fnames : FieldNames}
    (hp : '.' ∉ p.toList) (hfield : (fnames.getD name [])[j]? = some field) :
    structFieldTag (p ++ "." ++ name) j fnames = p ++ "." ++ name ++ "::" ++ field := by
  have hchars : (p ++ "." ++ name).toList = p.toList ++ '.' :: name.toList := by
    simp [String.toList_append]
  have hdrop : (p.toList ++ '.' :: name.toList).drop (p.toList.length + 1) = name.toList := by
    simp
  unfold structFieldTag
  simp only [hchars, findText_dot hp, hdrop, String.ofList_toList]
  simp [hfield]

variable {E : Env} {M : ModPtr}

/-- The table is right exactly if every composite type comes first in its row; then every
field has the tag of its name, in every module. -/
theorem fieldNames_right_iff :
    (E.TableRight M ↔ E.OwnRowFirst M) ∧
    (E.OwnRowFirst M → ∀ i elements, E.DefinesComposite M i elements →
      ∀ p : String, '.' ∉ p.toList → ∀ j (hj : j < elements.length),
        structFieldTag (p ++ "." ++ (E.diType M i).name) j (E.fieldNames M) =
          p ++ "." ++ (E.diType M i).name ++ "::" ++
            (elements[j].map fun e => (E.diType M e).name).getD "") := by
  refine ⟨Env.tableRight_iff, fun h i elements hS p hp j hj => ?_⟩
  exact structFieldTag_eq hp (Env.tableRight_iff.mpr h i elements hS j hj)

/-- `struct node { a; b; }`, a member of that type whose name is `list`, and
`struct list { x; y; }`. -/
def memberNamedList : Env :=
  let M : Module :=
    { values := []
      types := []
      functions := []
      diTypes := [
        { name := "node", kind := .composite [some 3, some 4] },
        { name := "list", kind := .derived (some 0) },
        { name := "list", kind := .composite [some 5, some 6] },
        { name := "a", kind := .derived none }, { name := "b", kind := .derived none },
        { name := "x", kind := .derived none }, { name := "y", kind := .derived none }]
      debugTypes := [0, 3, 4, 1, 2, 5, 6]
      names_nodup := by decide
      functions_listed := by decide }
  Env.ofModules [M]

/-- The first field of `struct list` is called by the name of the first field of `node`. -/
theorem memberNamedList_wrong : ¬ memberNamedList.TableRight 0 := by
  intro h
  have hfield := h 2 [some 5, some 6] ⟨by decide, by decide⟩ 0 (by decide)
  revert hfield
  decide

end OperationLevelAnalyzer

end Cisa

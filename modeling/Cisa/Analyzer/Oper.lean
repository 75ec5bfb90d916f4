import Cisa.Analyzer.Analyzer
import Cisa.CallGraph.Common

/-!
# The operation-level analyzer

A function is tagged with the struct fields that its instructions store to and load
from. `toplvTags` memoises, for every kind of tag and every top-level function that has
been updated, the tags of the functions reachable from it.
-/

namespace Cisa

open Std

abbrev OLATag := String

inductive OLATagIdx
  | mod | ref
deriving DecidableEq, Repr

def OLATagIdx.idx : OLATagIdx → ℕ
  | .mod => 0
  | .ref => 1

structure OperationLevelAnalyzer extends Analyzer OLATag 2 where
  toplvTags : OLATagIdx → SortedMap String (SortedSet OLATag) := fun _ => ∅

/-- `fnames`: the names of the elements of composite types. -/
abbrev FieldNames := SortedMap String (List String)

/-- `str.find(pat) != npos`. -/
def hasText (pat str : String) : Bool := (findText pat.toList str.toList).isSome

namespace Env

variable (E : Env)

def diType (M : ModPtr) (i : ℕ) : DIType := (E.module M).diTypes.getD i default

/-- The type that is looked at for `DT`, and the name of the alias it is reached by. -/
def aliased (M : ModPtr) (DT : DIType) : DIType × String :=
  match DT.kind with
  | .derived (some base) => (E.diType M base, DT.name)
  | _ => (DT, "")

/-- One iteration over `Finder.types()`. -/
def addFieldNames (M : ModPtr) (fnames : FieldNames) (i : ℕ) : FieldNames :=
  let (DT, dname) := E.aliased M (E.diType M i)
  match DT.kind with
  | .composite elements =>
    let dname := if dname = "" then DT.name else dname
    fnames.insert dname (fnames.getD dname [] ++
      elements.map fun elem => (elem.map fun e => (E.diType M e).name).getD "")
  | _ => fnames

def fieldNames (M : ModPtr) : FieldNames :=
  (E.module M).debugTypes.foldl (E.addFieldNames M) ∅

/-- `STy->getName()`, if `T` is a struct type. -/
def structName (T : TyPtr) : Option String :=
  match (E.type T).kind with
  | .struct name _ _ => some (name.getD "")
  | _ => none

/-- `T->getContainedType(i)`. -/
def containedType (T : TyPtr) (i : ℤ) : Option TyPtr :=
  if 0 ≤ i then ((E.type T).kind.contained[i.toNat]?).map fun t => ⟨T.mod, t⟩ else none

end Env

namespace OperationLevelAnalyzer

/-- `GetStructFieldTag` for a struct of the given name. -/
def structFieldTag (structName : String) (no : ℤ) (fnames : FieldNames) : OLATag :=
  let name := structName.toList
  match findText ['.'] name with
  | none => "TAG_ERROR"
  | some dotpos =>
    let names := fnames.getD (String.ofList (name.drop (dotpos + 1))) []
    match if 0 ≤ no then names[no.toNat]? else none with
    | some field => structName ++ "::" ++ field
    | none => structName ++ "::_" ++ toString no

def isTopLV (E : Env) (F : FuncPtr) : Bool := (E.function F).name.toList.take 3 = "sf_".toList

/-- The names of structs whose fields are tagged. -/
def isTrackedStruct (name : String) : Bool :=
  ("struct.".toList.isPrefixOf name.toList || "union.".toList.isPrefixOf name.toList) &&
  !hasText "anon" name && !hasText "_IO_FILE" name && !hasText "sigaction" name &&
  !hasText "buffer" name && !hasText "ebug" name && !hasText "_va_list" name

def isKeptTag (tag : OLATag) : Bool :=
  !hasText "err" tag && !hasText "log" tag && !hasText "Error" tag

variable (E : Env)

/-- `FIdx->getValue().getLimitedValue()`, as the `int` it is stored in. -/
def constantIndex (O : ValPtr) : Option ℤ :=
  match (E.value O).kind with
  | .constantInt v => some (toInt32 v)
  | _ => none

/-- The struct and the field number of an index, if the struct is tracked. -/
def fieldOf (NextTy : TyPtr) (O : ValPtr) : Option (String × ℤ) := do
  let name ← E.structName NextTy
  if isTrackedStruct name then return (name, ← constantIndex E O) else none

/-- The structs and fields that the loop over the indices of a GEP tags. The type is
followed through field 0 wherever no field number was read. -/
def walkIndices : TyPtr → List ValPtr → List (String × ℤ)
  | _, [] => []
  | NextTy, O :: rest =>
    let field := fieldOf E NextTy O
    let next := E.containedType NextTy ((field.map Prod.snd).getD 0)
    field.toList ++ (match next with
      | some T => walkIndices T rest
      | none => [])

/-- `SI->getPointerOperand() == GEPOp` for a store among the users. -/
def isModed (V : ValPtr) : Bool :=
  (E.users V).any fun U => E.instOpcode U = some .store && E.operand U 1 = some V

def isRefed (V : ValPtr) : Bool := (E.users V).any fun U => E.instOpcode U = some .load

/-- The calls of `AddTag` for one user of the queue. -/
def userTags (fnames : FieldNames) (V : ValPtr) : List (OLATag × OLATagIdx) :=
  match E.opcode V with
  | some (.gep _) =>
    let PTy := (E.operand V 0).bind fun P => E.pointee (E.typeOf P)
    let fields := (PTy.map fun T => walkIndices E T ((E.operands V).drop 2)).getD []
    let tags := (fields.map fun p => structFieldTag p.1 p.2 fnames).filter isKeptTag
    tags.flatMap fun tag =>
      (if isModed E V then [(tag, OLATagIdx.mod)] else []) ++
      (if isRefed E V then [(tag, OLATagIdx.ref)] else [])
  | _ => []

/-- One iteration of the loop that searches for struct field dereferences; the state is
the list of the calls of `AddTag` so far. -/
def visitUser (fnames : FieldNames) (calls : List (OLATag × OLATagIdx)) (V : ValPtr) :
    List (OLATag × OLATagIdx) × List ValPtr :=
  (calls ++ userTags E fnames V,
    (E.operands V).filter fun O => (E.instOpcode O).isNone && E.isUser O)

/-- The calls of `AddTag` that an update of `F` makes; `n` is the budget of each of the
loops, one for every instruction. -/
def calledTags (n : ℕ) (F : FuncPtr) : Option (List (OLATag × OLATagIdx)) :=
  (E.insts F).foldlM
    (fun calls I => Worklist.run (visitUser E (E.fieldNames F.mod)) n calls [I]) []

/-- The loop over `toplv_tags[0]`: the names whose tags are cleared. The assertion that
a name is the name of a function may fail. -/
def clearedNames (F : FuncPtr) :
    GlobalContext → List (String × SortedSet OLATag) → Option (List String × GlobalContext)
  | ctx, [] => some ([], ctx)
  | ctx, (scName, scTags) :: rest =>
    if scTags.isEmpty then clearedNames F ctx rest
    else
      match ctx.getFunction scName "" with
      | none => none
      | some TopLVF =>
        let (isAnc, ctx) := ctx.isAncestor TopLVF F
        (clearedNames F ctx rest).map fun r => (if isAnc then scName :: r.1 else r.1, r.2)

variable (A : OperationLevelAnalyzer)

def move (PreF PostF : FuncPtr) : OperationLevelAnalyzer :=
  { A with toAnalyzer := A.toAnalyzer.move PreF PostF }

def remove (F : FuncPtr) : OperationLevelAnalyzer :=
  { A with toAnalyzer := A.toAnalyzer.remove F }

/-- The analyzer with `toplv_tags[idx][sc_name]` set. -/
def setTopLV (scName : String) (idx : OLATagIdx) (scTags : SortedSet OLATag) :
    OperationLevelAnalyzer :=
  { A with toplvTags := Function.update A.toplvTags idx ((A.toplvTags idx).insert scName scTags) }

/-- `toplv_tags[idx][sc_name].clear()`. -/
def clearTopLV (scName : String) (idx : OLATagIdx) : OperationLevelAnalyzer :=
  A.setTopLV scName idx ∅

/-- The part of `Update` that manages `toplv_tags`. -/
def manageTopLVs (ctx : GlobalContext) (F : FuncPtr) :
    Option (OperationLevelAnalyzer × GlobalContext) :=
  if isTopLV E F then
    let name := (E.function F).name
    some ((A.clearTopLV name .mod).clearTopLV name .ref, ctx)
  else
    (clearedNames F ctx (A.toplvTags .mod).toList).map fun r =>
      (r.1.foldl (fun A scName => A.clearTopLV scName .mod) A, r.2)

def addTags (F : FuncPtr) (calls : List (OLATag × OLATagIdx)) : OperationLevelAnalyzer :=
  { A with toAnalyzer := calls.foldl (fun B c => B.addTag c.1 F c.2.idx) A.toAnalyzer }

def update (n : ℕ) (ctx : GlobalContext) (F : FuncPtr) :
    Option (OperationLevelAnalyzer × GlobalContext) := do
  let (A, ctx) ← manageTopLVs E A ctx F
  let calls ← calledTags E n F
  return (A.addTags F calls, ctx)

theorem exists_of_update {E : Env} {A : OperationLevelAnalyzer} {n : ℕ} {ctx : GlobalContext}
    {F : FuncPtr} {r : OperationLevelAnalyzer × GlobalContext}
    (h : A.update E n ctx F = some r) : ∃ s calls, manageTopLVs E A ctx F = some s ∧
      calledTags E n F = some calls ∧ r = (s.1.addTags F calls, s.2) := by
  unfold update at h
  simp only [Option.bind_eq_bind, Option.pure_def] at h
  obtain ⟨s, hs, h⟩ := Option.bind_eq_some_iff.mp h
  obtain ⟨calls, hcalls, h⟩ := Option.bind_eq_some_iff.mp h
  exact ⟨s, calls, hs, hcalls, (Option.some.inj h).symm⟩

/-- The tags of all descendants. -/
def descendantTags (ctx : GlobalContext) (F : FuncPtr) (idx : OLATagIdx) : SortedSet OLATag :=
  ctx.visitSubtreeBFS F .down (fun tags CurF => (.next, tags ∪ A.getTags CurF idx.idx)) ∅

/-- `GetOrFindTopLVTags`; a null pointer has no tags and no callees. -/
def getOrFindTopLVTags (ctx : GlobalContext) (scName : String) (idx : OLATagIdx) :
    SortedSet OLATag × OperationLevelAnalyzer :=
  let memo := (A.toplvTags idx).row scName
  let tags :=
    if memo.isEmpty then
      ((ctx.getFunction scName "").map fun F => A.descendantTags ctx F idx).getD ∅
    else memo
  (tags, A.setTopLV scName idx tags)

/-- The name is inserted if its tags meet the accumulated ones. -/
def addIfRelevant (ctx : GlobalContext) (idx : OLATagIdx) (accumTags : SortedSet OLATag)
    (s : OperationLevelAnalyzer × RelSet) (scName : String) : OperationLevelAnalyzer × RelSet :=
  let (scTags, A) := s.1.getOrFindTopLVTags ctx scName idx
  let res := scTags.toList.filter (· ∈ accumTags)
  (A, if res.isEmpty then s.2 else s.2.insert scName)

/-- The loop over `toplv_tags[0]` for one pair of kinds. -/
def relevantTopLVs (ctx : GlobalContext) (F : FuncPtr) (s : OperationLevelAnalyzer × RelSet)
    (p : OLATagIdx × OLATagIdx) : OperationLevelAnalyzer × RelSet :=
  (s.1.toplvTags .mod).keys.foldl
    (addIfRelevant ctx p.2 (s.1.descendantTags ctx F p.1)) s

def aggregate (ctx : GlobalContext) (F : FuncPtr) : AnalyzerReturn × OperationLevelAnalyzer :=
  let (A, toplvs) := [(OLATagIdx.mod, OLATagIdx.ref), (.ref, .mod)].foldl
    (relevantTopLVs ctx F) (A, ∅)
  let toplvs := if toplvs.isEmpty then ExtTreeSet.ofElems (A.toplvTags .mod).keys else toplvs
  ((∅ : AnalyzerReturn).insert "toplvs" toplvs, A)

end OperationLevelAnalyzer

end Cisa

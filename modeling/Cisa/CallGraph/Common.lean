import Cisa.Ir

/-!
# Hashes of types and signatures

Types and signatures are identified across modules by the hash of a text: the printed
type without blanks, or the name of a struct. A struct without a name borrows the
names of the named structs with the same kinds of elements.
-/

namespace Cisa

open Std

abbrev StructNames := SortedMap String (SortedSet String)

/-- `remove(str.begin(), str.end(), ' ')`. -/
def removeBlanks (str : String) : String := String.ofList (str.toList.filter (· ≠ ' '))

/-- `str.find(pat)`. -/
def findText (pat : List Char) : List Char → Option ℕ
  | [] => if pat = [] then some 0 else none
  | c :: cs => if pat.isPrefixOf (c :: cs) then some 0 else (findText pat cs).map (· + 1)

/-- The length of the match of `^[_A-Za-z0-9]+\*,?`. -/
def classMatch (cs : List Char) : Option ℕ :=
  let word := cs.takeWhile fun c => c = '_' ∨ c.isAlphanum
  match word, cs.drop word.length with
  | _ :: _, '*' :: ',' :: _ => some (word.length + 2)
  | _ :: _, '*' :: _ => some (word.length + 1)
  | _, _ => none

/-- `cleanString`: drop the first parameter if it points to a class, then all blanks. -/
def cleanString (str : String) : String :=
  let cs := str.toList
  match findText "(%class.".toList cs with
  | none => removeBlanks str
  | some pos =>
    match classMatch (cs.drop (pos + 8)) with
    | none => removeBlanks str
    | some len =>
      removeBlanks (String.ofList (cs.take (pos + 1) ++ cs.drop (pos + 1 + (7 + len))))

/-- The conversion of an index to `int`. -/
def toInt32 (v : ℤ) : ℤ := (v + 2 ^ 31) % 2 ^ 32 - 2 ^ 31

/-- `Type::getTypeID`. -/
def TyKind.typeID : TyKind → ℕ
  | .function _ => 14
  | .pointer _ => 15
  | .struct _ _ _ => 16
  | .array _ => 17
  | .vector _ => 18
  | .other id => id

def TyKind.isFunctionTy : TyKind → Bool
  | .function _ => true
  | _ => false

def TyKind.isComposite : TyKind → Bool
  | .struct _ _ _ | .array _ | .vector _ => true
  | _ => false

namespace Env

variable (E : Env)

def funcHash (F : FuncPtr) (withName : Bool) : SizeT :=
  let output := (E.type ⟨F.mod, (E.function F).functionType⟩).printed
  E.strHash (cleanString (if withName then output ++ (E.function F).name else output))

/-- `CB->getFunctionType()`. -/
def callFunctionType (CI : ValPtr) : TyPtr :=
  match E.instOpcode CI with
  | some (.call ty) => ⟨CI.mod, ty⟩
  | _ => ⟨CI.mod, 0⟩

def callHash (CI : ValPtr) : SizeT :=
  E.strHash (cleanString (E.type (E.callFunctionType CI)).printed)

def structTyStr (M : ModPtr) (elements : List ℕ) : String :=
  elements.foldl (fun str i => str ++ toString (E.type ⟨M, i⟩).kind.typeID) ""

/-- `LoadElementsStructNameMap` for one module. -/
def loadStructNames (names : StructNames) (M : ModPtr) : StructNames :=
  (E.module M).identifiedStructTypes.foldl (fun names i =>
    match (E.type ⟨M, i⟩).kind with
    | .struct (some name) false elements => names.addTo (E.structTyStr M elements) name
    | _ => names) names

def loadElementsStructNameMap (names : StructNames) (modules : List ModPtr) : StructNames :=
  modules.foldl E.loadStructNames names

/-- `structTypeHash`: the hashes under which a struct is recorded. -/
def structTypeHash (names : StructNames) (T : TyPtr) : SortedSet SizeT :=
  match (E.type T).kind with
  | .struct (some name) _ _ => ExtTreeSet.ofElems [E.strHash name]
  | .struct none _ elements =>
    ExtTreeSet.ofElems ((names.row (E.structTyStr T.mod elements)).toList.map E.strHash)
  | _ => ∅

def typeHash (names : StructNames) (T : TyPtr) : SizeT :=
  match (E.type T).kind with
  | .struct (some name) _ _ => E.strHash name
  | .struct none _ elements =>
    E.strHash ((names.row (E.structTyStr T.mod elements)).toList.headD "")
  | .array _ => E.strHash (removeBlanks ((E.type T).printed ++ "[array]"))
  | _ => E.strHash (removeBlanks (E.type T).printed)

def hashIdxHash (hash : SizeT) (idx : ℤ) : SizeT := hash + E.strHash (toString idx)

def typeIdxHash (names : StructNames) (T : TyPtr) (idx : ℤ) : SizeT :=
  E.hashIdxHash (E.typeHash names T) idx

/-- The conversion of an operand number to `int8_t`. -/
def toInt8 (n : ℕ) : ℤ := ((n : ℤ) + 128) % 256 - 128

/-- `getParamByArgNo`: a negative number is at least `arg_size()` when compared as a
`size_t`. -/
def getParamByArgNo (F : FuncPtr) (operandNo : ℕ) : Option ValPtr :=
  let argNo := toInt8 operandNo
  if argNo < 0 then none
  else ((E.function F).args[argNo.toNat]?).map fun i => ⟨F.mod, i⟩

end Env

end Cisa

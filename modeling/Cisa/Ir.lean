import Cisa.Lib.Rows

/-!
# The LLVM objects the analysis looks at

A pointer is the identity of an object: the module object it lives in and its
position in that module. Identities are never reused, so an object of a deleted
module is never equal to an object loaded later. A module is what parsing a bitcode
file delivers. What LLVM computes about an object (its operands and users, the
printed form of a type, the GUID of a function, whether its address is taken) is part
of the object; what LLVM computes from several objects is a parameter of `Env`.
-/

namespace Cisa

open Std

abbrev SizeT := Fin (2 ^ 64)

namespace SizeT

instance : NeZero (2 ^ 64) := ⟨by decide⟩

instance : TransOrd SizeT := inferInstanceAs (TransOrd (Fin (2 ^ 64)))

end SizeT

/-- `Module *`. -/
abbrev ModPtr := ℕ

/-- `Value *`. -/
structure ValPtr where
  mod : ModPtr
  idx : ℕ
deriving DecidableEq, Repr

/-- `Function *`; `F.mod` is `F->getParent()`. -/
abbrev FuncPtr := ValPtr

/-- `Type *`. -/
structure TyPtr where
  mod : ModPtr
  idx : ℕ
deriving DecidableEq, Repr

namespace ValPtr

/-- Pointers are ordered by address; a module's objects lie together. -/
instance : Ord ValPtr := ⟨compareLex (compareOn ValPtr.mod) (compareOn ValPtr.idx)⟩

instance : TransOrd ValPtr :=
  inferInstanceAs (TransCmp (compareLex (compareOn ValPtr.mod) (compareOn ValPtr.idx)))

instance : LawfulEqOrd ValPtr where
  eq_of_compare {a b} h := by
    obtain ⟨h1, h2⟩ := Ordering.then_eq_eq.mp (show (compare a.mod b.mod).then
      (compare a.idx b.idx) = .eq from h)
    cases a
    cases b
    simp_all

end ValPtr

/-- `GlobalValue::LinkageTypes`. -/
inductive Linkage
  | external | availableExternally | linkOnceAny | linkOnceODR | weakAny | weakODR
  | appending | internal | private_ | externalWeak | common
deriving DecidableEq, Repr

/-- `GlobalValue::isLocalLinkage`. -/
def Linkage.isLocal : Linkage → Bool
  | .internal | .private_ => true
  | _ => false

/-- What the analysis asks a `Function`. -/
structure Function where
  name : String
  isDeclaration : Bool := false
  linkage : Linkage := .external
  guid : ℕ := 0
  hasAddressTaken : Bool := false
  isIntrinsic : Bool := false
  functionType : ℕ := 0
  args : List ℕ := []
  /-- The instructions in the order of `inst_iterator`. -/
  insts : List ℕ := []
  /-- The line of `getSubprogram()`. -/
  subprogramLine : Option ℕ := none
deriving DecidableEq, Repr

instance : Inhabited Function := ⟨{ name := "", isDeclaration := true }⟩

/-- Instructions and constant expressions; types are positions in the module's types. -/
inductive Opcode
  | load | store | call (functionType : ℕ) | phi | select | gep (sourceElementType : ℕ)
  | bitCast | ptrToInt | otherCast | unary | other
deriving DecidableEq, Repr

/-- The classes of `Value` that the analysis tells apart with `dyn_cast`. -/
inductive ValueKind
  | function (f : Function)
  | globalVariable
  | argument
  | inlineAsm
  | aggregate
  | nullPointer
  | constantInt (sext : ℤ)
  | otherConstantData
  | otherConstant
  | constantExpr (op : Opcode)
  | instruction (op : Opcode)
  /-- Basic blocks and metadata. -/
  | otherValue
deriving DecidableEq, Repr

/-- A value with its operands and users, as positions in the module's values. -/
structure Value where
  kind : ValueKind
  ty : ℕ := 0
  operands : List ℕ := []
  users : List ℕ := []
  /-- The function an instruction belongs to. -/
  parent : ℕ := 0
  /-- What `stripPointerCasts` returns, when that is not the value itself. -/
  stripped : Option ℕ := none
  /-- The line of `getDebugLoc()`. -/
  debugLine : Option ℕ := none
deriving DecidableEq, Repr

instance : Inhabited Value := ⟨{ kind := .otherConstant }⟩

/-- `isa<Function>(V)`. -/
def Value.isFunction (V : Value) : Bool :=
  match V.kind with
  | .function _ => true
  | _ => false

/-- The classes of `Type`; `other` carries the `TypeID` of the remaining ones. A function
type contains its return type and its parameters. -/
inductive TyKind
  | struct (name : Option String) (isOpaque : Bool) (elements : List ℕ)
  | array (element : ℕ)
  | vector (element : ℕ)
  | pointer (element : ℕ)
  | function (contained : List ℕ := [])
  | other (typeID : ℕ)
deriving DecidableEq, Repr

/-- What `Type::getContainedType` indexes. -/
def TyKind.contained : TyKind → List ℕ
  | .struct _ _ elements => elements
  | .array element | .vector element | .pointer element => [element]
  | .function contained => contained
  | .other _ => []

/-- A type with the text `Type::print` writes for it. -/
structure Ty where
  kind : TyKind
  printed : String
deriving DecidableEq, Repr

instance : Inhabited Ty := ⟨{ kind := .other 7, printed := "void" }⟩

/-- The classes of debug types; other types are positions in the module's debug types, and
an element that is not a type is `none`. -/
inductive DIKind
  | derived (baseType : Option ℕ)
  | composite (elements : List (Option ℕ))
  | other
deriving DecidableEq, Repr

structure DIType where
  name : String
  kind : DIKind
deriving DecidableEq, Repr

instance : Inhabited DIType := ⟨{ name := "", kind := .other }⟩

/-- The function stored at a position of a list of values. -/
def functionAt (values : List Value) (i : ℕ) : Function :=
  match (values.getD i default).kind with
  | .function f => f
  | _ => default

/-- What `parseIRFile` delivers. The functions of a module are all listed, and have
distinct names. -/
structure Module where
  values : List Value
  types : List Ty
  functions : List ℕ
  globals : List ℕ := []
  /-- `getIdentifiedStructTypes()`. -/
  identifiedStructTypes : List ℕ := []
  /-- `Type::getInt8PtrTy` in the module's context. -/
  int8PtrTy : ℕ := 0
  diTypes : List DIType := []
  /-- `DebugInfoFinder::types()`. -/
  debugTypes : List ℕ := []
  names_nodup : (functions.map fun i => (functionAt values i).name).Nodup
  functions_listed : ∀ i < values.length, (values.getD i default).isFunction = true → i ∈ functions

instance : Inhabited Module :=
  ⟨{ values := [], types := [], functions := [], names_nodup := List.nodup_nil,
     functions_listed := by simp }⟩

/-- A module whose functions have no instructions. -/
def Module.ofFunctions (functions : List Function) (h : (functions.map Function.name).Nodup)
    (types : List Ty := []) : Module where
  values := functions.map fun f => { kind := .function f }
  types := types
  functions := List.range functions.length
  names_nodup := by
    have hmap : (List.range functions.length).map (fun i =>
        (functionAt (functions.map fun f => ({ kind := .function f } : Value)) i).name) =
        functions.map Function.name := by
      apply List.ext_getElem (by simp)
      intro i h1 h2
      have hi : i < functions.length := by simpa using h1
      simp [functionAt, hi]
    rw [hmap]
    exact h
  functions_listed := by simp +contextual

/-- A module of one function. -/
def Module.ofFunction (f : Function) (types : List Ty := []) : Module :=
  Module.ofFunctions [f] (List.nodup_singleton _) types

/-- Everything that is given from outside: the content of every module object, the
hash of strings, and `DataLayout::getGEPIndicesForOffset`. -/
structure Env where
  module : ModPtr → Module
  strHash : String → SizeT
  gepIndicesForOffset : TyPtr → ValPtr → List ℤ

namespace Env

/-- A program of finitely many modules without offset arithmetic; strings are hashed by
their length. -/
def ofModules (modules : List Module) : Env where
  module M := modules.getD M default
  strHash str := Fin.ofNat (2 ^ 64) str.length
  gepIndicesForOffset _ _ := []

variable (E : Env)

def value (V : ValPtr) : Value := (E.module V.mod).values.getD V.idx default

/-- The function behind a pointer. -/
def function (F : FuncPtr) : Function := functionAt (E.module F.mod).values F.idx

/-- `dyn_cast<Function>(V)`. -/
def dynFunction (V : ValPtr) : Option FuncPtr :=
  match (E.value V).kind with
  | .function _ => some V
  | _ => none

def type (T : TyPtr) : Ty := (E.module T.mod).types.getD T.idx default

/-- `V->getType()`. -/
def typeOf (V : ValPtr) : TyPtr := ⟨V.mod, (E.value V).ty⟩

/-- `T->getPointerElementType()`, if `T` is a pointer type. -/
def pointee (T : TyPtr) : Option TyPtr :=
  match (E.type T).kind with
  | .pointer element => some ⟨T.mod, element⟩
  | _ => none

def operands (V : ValPtr) : List ValPtr := (E.value V).operands.map fun i => ⟨V.mod, i⟩

/-- `V->getOperand(n)`. -/
def operand (V : ValPtr) (n : ℕ) : Option ValPtr := (E.operands V)[n]?

def users (V : ValPtr) : List ValPtr := (E.value V).users.map fun i => ⟨V.mod, i⟩

/-- `I->getFunction()`. -/
def parentOf (V : ValPtr) : FuncPtr := ⟨V.mod, (E.value V).parent⟩

/-- `V->stripPointerCasts()`. -/
def stripPointerCasts (V : ValPtr) : ValPtr := ⟨V.mod, (E.value V).stripped.getD V.idx⟩

/-- `M->functions()`. -/
def functions (M : ModPtr) : List FuncPtr := (E.module M).functions.map fun i => ⟨M, i⟩

/-- `M->globals()`. -/
def globals (M : ModPtr) : List ValPtr := (E.module M).globals.map fun i => ⟨M, i⟩

/-- The instructions of a function, in the order of `inst_iterator`. -/
def insts (F : FuncPtr) : List ValPtr := (E.function F).insts.map fun i => ⟨F.mod, i⟩

/-- The opcode of an instruction (`dyn_cast<LoadInst>` and the like). -/
def instOpcode (V : ValPtr) : Option Opcode :=
  match (E.value V).kind with
  | .instruction op => some op
  | _ => none

/-- The opcode of an instruction or a constant expression (`dyn_cast<GEPOperator>` and
the like). -/
def opcode (V : ValPtr) : Option Opcode :=
  match (E.value V).kind with
  | .instruction op => some op
  | .constantExpr op => some op
  | _ => none

/-- `isa<Argument>(V)`. -/
def isArgument (V : ValPtr) : Bool := (E.value V).kind == .argument

/-- `isa<Constant>(V)`; functions and global variables are constants. -/
def isConstant (V : ValPtr) : Bool :=
  match (E.value V).kind with
  | .argument | .inlineAsm | .instruction _ | .otherValue => false
  | _ => true

/-- `isa<User>(V)`. -/
def isUser (V : ValPtr) : Bool :=
  match (E.value V).kind with
  | .argument | .inlineAsm | .otherValue => false
  | _ => true

theorem mod_of_mem_functions {M : ModPtr} {F : FuncPtr} (h : F ∈ E.functions M) : F.mod = M := by
  obtain ⟨i, _, rfl⟩ := List.mem_map.mp h
  rfl

theorem mem_functions_of_dynFunction {V : ValPtr} {F : FuncPtr} (h : E.dynFunction V = some F) :
    F = V ∧ F ∈ E.functions V.mod := by
  unfold dynFunction at h
  split at h
  · rename_i f hf
    obtain rfl := Option.some.inj h
    refine ⟨rfl, List.mem_map.mpr ⟨V.idx, ?_, rfl⟩⟩
    have hlen : V.idx < (E.module V.mod).values.length := by
      by_contra hge
      have hnone : (E.module V.mod).values[V.idx]? = none := by simpa using hge
      rw [value, List.getD_eq_getElem?_getD, hnone] at hf
      cases hf
    apply (E.module V.mod).functions_listed V.idx hlen
    have hval : (E.module V.mod).values.getD V.idx default = E.value V := rfl
    rw [hval, Value.isFunction, hf]
  · simp at h

theorem functions_ofModules {modules : List Module} {M : ModPtr} (h : modules.length ≤ M) :
    (ofModules modules).functions M = [] := by
  have hM : (ofModules modules).module M = default := by simp [ofModules, h]
  rw [functions, hM]
  rfl

theorem mod_of_mem_operands {V O : ValPtr} (h : O ∈ E.operands V) : O.mod = V.mod := by
  obtain ⟨i, _, rfl⟩ := List.mem_map.mp h
  rfl

theorem mod_of_operand {V O : ValPtr} {n : ℕ} (h : E.operand V n = some O) : O.mod = V.mod :=
  E.mod_of_mem_operands (List.mem_of_getElem? h)

@[simp] theorem mod_stripPointerCasts (V : ValPtr) : (E.stripPointerCasts V).mod = V.mod := rfl

theorem mod_of_mem_insts {F : FuncPtr} {I : ValPtr} (h : I ∈ E.insts F) : I.mod = F.mod := by
  obtain ⟨i, _, rfl⟩ := List.mem_map.mp h
  rfl

theorem eq_of_name_eq {M : ModPtr} {F G : FuncPtr} (hF : F ∈ E.functions M)
    (hG : G ∈ E.functions M) (h : (E.function F).name = (E.function G).name) : F = G := by
  obtain ⟨i, hi, rfl⟩ := List.mem_map.mp hF
  obtain ⟨j, hj, rfl⟩ := List.mem_map.mp hG
  rw [List.inj_on_of_nodup_map (E.module M).names_nodup hi hj h]

end Env

end Cisa

import Cisa.CallGraph.Common
import Cisa.GlobalContext

/-!
# The tables of the multi-layer type analysis and its walks over values

A pointer is described by the chain of composite types it was computed through: each
layer is a type with the index of the field. The recursions follow the operands with a
set of visited values; the budget of each is the number of values of the module, which
the visited set makes enough.
-/

namespace Cisa

open Std

structure HashIdx where
  hash : SizeT
  idx : ℤ
deriving DecidableEq, Repr

namespace HashIdx

instance : Ord HashIdx := ⟨compareLex (compareOn HashIdx.hash) (compareOn HashIdx.idx)⟩

instance : TransOrd HashIdx :=
  inferInstanceAs (TransCmp (compareLex (compareOn HashIdx.hash) (compareOn HashIdx.idx)))

instance : LawfulEqOrd HashIdx where
  eq_of_compare {a b} h := by
    obtain ⟨h1, h2⟩ := Ordering.then_eq_eq.mp (show (compare a.hash b.hash).then
      (compare a.idx b.idx) = .eq from h)
    cases a
    cases b
    simp_all

end HashIdx

abbrev TypeIdx := TyPtr × ℤ

/-- The tables of `MLTA`, with the table of struct names that the hashes read. -/
structure Mlta where
  elementsStructNameMap : StructNames := ∅
  typeIdxFuncsMap : SortedMap SizeT (SortedMap ℤ FuncSet) := ∅
  typeIdxPropMap : SortedMap SizeT (SortedMap ℤ (SortedSet HashIdx)) := ∅
  typeEscapeSet : SortedSet SizeT := ∅
  typeCapSet : SortedSet SizeT := ∅
  funcTypeIdxsMap : SortedMap FuncPtr (SortedSet HashIdx) := ∅
  matchedFuncsMap : SortedMap SizeT FuncSet := ∅
  aliasStructPtrMap : SortedMap FuncPtr (SortedMap ValPtr ValPtr) := ∅
  int8PtrTy : SortedMap ModPtr TyPtr := ∅

namespace Mlta

variable (E : Env) (m : Mlta)

def typeHash (T : TyPtr) : SizeT := E.typeHash m.elementsStructNameMap T

def typeIdxHash (T : TyPtr) (idx : ℤ) : SizeT := E.typeIdxHash m.elementsStructNameMap T idx

def recoverBaseType (V : ValPtr) : Option ValPtr :=
  match E.instOpcode V with
  | some _ => (m.aliasStructPtrMap.getD (E.parentOf V) ∅)[V]?
  | none => none

/-- The number of values of the module of `V`, and one more. -/
def valueFuel (V : ValPtr) : ℕ := (E.module V.mod).values.length + 1

/-- The type `getBaseType` finds at `V` itself. -/
def ownBaseType (V : ValPtr) : Option TyPtr :=
  if (E.type (E.typeOf V)).kind.isComposite then some (E.typeOf V)
  else match E.pointee (E.typeOf V) with
    | none => none
    | some ETy =>
      if (E.type ETy).kind.isComposite then some ETy
      else (recoverBaseType E m V).bind fun BV => E.pointee (E.typeOf BV)

/-- `_getPhiBaseType`: the first incoming value with a base type decides. -/
def getPhiBaseType (rec : ValPtr → SortedSet ValPtr → Option TyPtr × SortedSet ValPtr) :
    List ValPtr → SortedSet ValPtr → Option TyPtr × SortedSet ValPtr
  | [], visited => (none, visited)
  | IV :: rest, visited =>
    match rec IV visited with
    | (some BTy, visited) => (some BTy, visited)
    | (none, visited) => getPhiBaseType rec rest visited

/-- `getBaseType`, with the visited set it leaves. -/
def getBaseType : ℕ → ValPtr → SortedSet ValPtr → Option TyPtr × SortedSet ValPtr
  | 0, _, visited => (none, visited)
  | n + 1, V, visited =>
    if V ∈ visited then (none, visited)
    else
      let visited := visited.insert V
      let follow := fun (O : Option ValPtr) =>
        match O with
        | some O => getBaseType n O visited
        | none => (none, visited)
      match ownBaseType E m V, E.opcode V, E.instOpcode V with
      | some BTy, _, _ => (some BTy, visited)
      | none, some .bitCast, _ => follow (E.operand V 0)
      | none, _, some .select => follow (E.operand V 1)
      | none, _, some .phi => getPhiBaseType (getBaseType n) (E.operands V) visited
      | none, _, some .load => follow (E.operand V 0)
      | none, _, _ => (none, visited)

/-- The type a GEP index selects. -/
def subType (T : TyPtr) (idx : ℤ) : Option TyPtr :=
  match (E.type T).kind with
  | .struct _ _ elements => (elements[idx.toNat]?).map fun i => ⟨T.mod, i⟩
  | .array element | .vector element => some ⟨T.mod, element⟩
  | _ => none

/-- The layers along the indices of a GEP, innermost first, with the innermost type. -/
def indexLayers : TyPtr → List ℤ → List TypeIdx → TyPtr × List TypeIdx
  | ETy, [], layers => (ETy, layers)
  | ETy, idx :: rest, layers =>
    match subType E ETy idx with
    | some SubTy => indexLayers SubTy rest ((ETy, idx) :: layers)
    | none => (ETy, (ETy, idx) :: layers)

/-- `ConstantInt::getSExtValue`. -/
def sextValue (V : ValPtr) : Option ℤ :=
  match (E.value V).kind with
  | .constantInt v => some v
  | _ => none

def isBitCast (U : ValPtr) : Bool := E.opcode U == some .bitCast

/-- The indices of a GEP as far as they are constant; `-1` stands for all fields. -/
def gepIndices (GEP : ValPtr) : List ℤ :=
  (E.operands GEP).tail.map fun idx => ((sextValue E idx).map toInt32).getD (-1)

/-- The first field of a struct, when a user of the GEP casts to a pointer to it. -/
def firstFieldLayers (GEP : ValPtr) (ETy : TyPtr) (layers : List TypeIdx) : List TypeIdx :=
  match (E.type ETy).kind with
  | .struct _ _ (element0 :: _) =>
    (E.users GEP).foldl (fun layers U =>
      if isBitCast E U ∧ E.pointee (E.typeOf U) = some ⟨ETy.mod, element0⟩ then
        (ETy, 0) :: layers
      else layers) layers
  | _ => layers

/-- `getGEPLayerTypes`: the layers it appends; it returns false when there are none. -/
def getGEPLayerTypes (GEP : ValPtr) (sourceElementType : ℕ) : List TypeIdx :=
  let ETy : TyPtr := ⟨GEP.mod, sourceElementType⟩
  let layersOf := fun (ETy : TyPtr) (indices : List ℤ) =>
    let r := indexLayers E ETy (if indices = [] then gepIndices E GEP else indices).tail []
    firstFieldLayers E GEP r.1 r.2
  match E.operand GEP 0, E.operand GEP 1 with
  | some PO, some idx0 =>
    match (sextValue E idx0).getD 0, recoverBaseType E m PO with
    | 0, _ => layersOf ETy []
    | _, some BV =>
      match E.pointee (E.typeOf BV) with
      | some BTy => layersOf BTy (E.gepIndicesForOffset BTy idx0)
      | none => layersOf ETy []
    | _, none =>
      match (E.type ETy).kind with
      | .struct _ _ _ => if (E.users GEP).any (isBitCast E) then [] else layersOf ETy []
      | _ => layersOf ETy []
  | _, _ => layersOf ETy []

/-- The arguments that `nextLayerBaseType` takes by reference. -/
structure LayerState where
  tyList : List TypeIdx := []
  nextV : Option ValPtr := none
  visited : SortedSet ValPtr := ∅

/-- The loop over the incoming values: each starts from the state at the phi; the first
that appends a layer ends the loop. -/
def phiLayers (rec : ValPtr → LayerState → Bool × LayerState) (st : LayerState) :
    List ValPtr → Bool × LayerState → Bool × LayerState
  | [], acc => acc
  | IV :: rest, _ =>
    let r := rec IV { st with nextV := some IV }
    if st.tyList.length < r.2.tyList.length then r else phiLayers rec st rest r

def nextLayerBaseType : ℕ → ValPtr → LayerState → Bool × LayerState
  | 0, V, st => (false, { st with nextV := some V })
  | n + 1, V, st =>
    if E.isArgument V ∨ V ∈ st.visited then (false, { st with nextV := some V })
    else
      let st := { st with visited := st.visited.insert V }
      let follow := fun (O : Option ValPtr) =>
        match O with
        | some O => nextLayerBaseType n O { st with nextV := some O }
        | none => (false, { st with nextV := none })
      match E.opcode V, E.instOpcode V with
      | some (.gep sourceElementType), _ =>
        match getGEPLayerTypes E m V sourceElementType with
        | [] => (false, { st with nextV := none })
        | layers => (true, { st with tyList := st.tyList ++ layers, nextV := E.operand V 0 })
      | some .bitCast, _ => follow (E.operand V 0)
      | _, some .load => follow (E.operand V 0)
      | _, some .phi =>
        phiLayers (nextLayerBaseType n) st (E.operands V)
          (false, { tyList := [], nextV := st.nextV, visited := ∅ })
      | _, some .select => follow (E.operand V 1)
      | _, some .unary => follow (E.operand V 0)
      | _, _ => (false, { st with nextV := none })

/-- `while (nextLayerBaseType(CV, TyList, NextV, Visited)) CV = NextV;` -/
def layerLoop (fuel : ℕ) : ℕ → ValPtr → LayerState → LayerState
  | 0, _, st => st
  | n + 1, CV, st =>
    match nextLayerBaseType E m fuel CV st with
    | (true, st) =>
      match st.nextV with
      | some NextV => layerLoop fuel n NextV st
      | none => st
    | (false, st) => st

/-- Whether the end of a chain is complete, that is, does not propagate further. -/
def completeAt (nextV : Option ValPtr) : Bool :=
  match nextV with
  | none => false
  | some V =>
    if E.isArgument V ∧ (E.pointee (E.typeOf V)).isSome then false
    else !(E.users V).any fun U => E.instOpcode U == some .store ∧ E.operand U 1 = some V

/-- The chain and the completeness that `getBaseTypeChain` returns. -/
def baseTypeChain (V : ValPtr) : List TypeIdx × Bool :=
  let fuel := valueFuel E V
  let base := match (getBaseType E m fuel V ∅).1 with
    | some BTy => [(BTy, (0 : ℤ))]
    | none => []
  let st := layerLoop E m fuel fuel V {}
  (base ++ st.tyList, completeAt E st.nextV)

/-- `typeCapSet.insert(hash)`. -/
def cap (m : Mlta) (hash : SizeT) : Mlta := { m with typeCapSet := m.typeCapSet.insert hash }

/-- `getBaseTypeChain`: an incomplete chain caps its last type. -/
def getBaseTypeChain (V : ValPtr) : List TypeIdx × Bool × Mlta :=
  let r := baseTypeChain E m V
  match r.1.getLast?, r.2 with
  | some last, false => (r.1, r.2, m.cap (typeHash E m last.1))
  | _, _ => (r.1, r.2, m)

def getBaseFunction : ℕ → ValPtr → Option FuncPtr
  | 0, _ => none
  | n + 1, V =>
    match E.dynFunction V, E.opcode V with
    | some F, _ => if (E.function F).isIntrinsic then none else some F
    | none, some .bitCast => (E.operand V 0).bind (getBaseFunction n)
    | none, _ => none

def getFuncPtrType (V : ValPtr) : Option TyPtr :=
  (E.pointee (E.typeOf V)).filter fun ETy => (E.type ETy).kind.isFunctionTy

end Mlta

end Cisa

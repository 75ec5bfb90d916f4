import Cisa.CallGraph.Layers

/-!
# Type confinement, propagation and escapes

The pass over a module records which functions are stored into which field of which
type (`typeIdxFuncsMap`, mirrored by `funcTypeIdxsMap`), between which fields values
are copied (`typeIdxPropMap`), and which types the recording cannot be trusted for
(`typeCapSet`, `typeEscapeSet`).
-/

namespace Cisa

open Std

/-- `typeIdxFuncsMap[h][i]`. -/
def slot {ν : Type} [Ord ν] (m : SortedMap SizeT (SortedMap ℤ (SortedSet ν))) (h : SizeT) (i : ℤ) : SortedSet ν :=
  (m.getD h ∅).row i

/-- `m[h][i].insert(a)`. -/
def addSlot {ν : Type} [Ord ν] [TransOrd ν] (m : SortedMap SizeT (SortedMap ℤ (SortedSet ν))) (h : SizeT) (i : ℤ)
    (a : ν) : SortedMap SizeT (SortedMap ℤ (SortedSet ν)) :=
  m.insert h ((m.getD h ∅).addTo i a)

@[simp] theorem mem_slot_addSlot {ν : Type} [Ord ν] [TransOrd ν] [LawfulEqOrd ν]
    {m : SortedMap SizeT (SortedMap ℤ (SortedSet ν))} {h h' : SizeT} {i i' : ℤ} {a b : ν} :
    b ∈ slot (addSlot m h i a) h' i' ↔ (h = h' ∧ i = i' ∧ a = b) ∨ b ∈ slot m h' i' := by
  unfold slot addSlot
  by_cases hh : h = h'
  · subst hh; simp
  · simp [ExtTreeMap.getD_insert, hh]

/-- The set that stands under `m[h][i]`, when there is one. -/
def entry {ν : Type} [Ord ν] (m : SortedMap SizeT (SortedMap ℤ (SortedSet ν))) (h : SizeT)
    (i : ℤ) : Option (SortedSet ν) :=
  m[h]?.bind fun fields => fields[i]?

theorem slot_eq_getD_entry {ν : Type} [Ord ν] [TransOrd ν]
    {m : SortedMap SizeT (SortedMap ℤ (SortedSet ν))} {h : SizeT} {i : ℤ} :
    slot m h i = (entry m h i).getD ∅ := by
  unfold slot entry ExtTreeMap.row
  rw [ExtTreeMap.getD_eq_getD_getElem?, ExtTreeMap.getD_eq_getD_getElem?]
  cases m[h]? with
  | none => simp
  | some fields => simp

namespace Mlta

variable (E : Env)

/-- A function stored into a field: the two mirrored insertions. -/
def confine (m : Mlta) (h : SizeT) (i : ℤ) (F : FuncPtr) : Mlta :=
  { m with
    typeIdxFuncsMap := addSlot m.typeIdxFuncsMap h i F
    funcTypeIdxsMap := m.funcTypeIdxsMap.addTo F ⟨h, i⟩ }

/-- `typeEscapeSet.insert(hash)`. -/
def escape (m : Mlta) (hash : SizeT) : Mlta :=
  { m with typeEscapeSet := m.typeEscapeSet.insert hash }

/-- `typeIdxPropMap[h][i].insert(p)`. -/
def propagate (m : Mlta) (h : SizeT) (i : ℤ) (p : HashIdx) : Mlta :=
  { m with typeIdxPropMap := addSlot m.typeIdxPropMap h i p }

/-- The state of the queue of `typeConfineInInitializer`. -/
structure InitState where
  mlta : Mlta
  containers : SortedMap ValPtr (ValPtr × ℕ) := ∅
  visited : SortedSet ValPtr := ∅

/-- The hashes under which the type of a container is recorded. -/
def containerHashes (m : Mlta) (C : ValPtr) : SortedSet SizeT :=
  match (E.type (E.typeOf C)).kind with
  | .struct _ _ _ => E.structTypeHash m.elementsStructNameMap (E.typeOf C)
  | _ => ExtTreeSet.ofElems [typeHash E m (E.typeOf C)]

/-- Add `F` to all containers of `CV`. -/
def recordContainers (containers : SortedMap ValPtr (ValPtr × ℕ)) (F : FuncPtr) :
    ℕ → ValPtr → SortedSet ValPtr → Mlta → Mlta
  | 0, _, _, m => m
  | n + 1, CV, visited, m =>
    match containers[CV]? with
    | none => m
    | some (C, no) =>
      let m := (containerHashes E m C).toList.foldl (fun m h => m.confine h no F) m
      let visited := visited.insert CV
      if C ∈ visited then m else recordContainers containers F n C visited m

/-- A function found at operand `O` is recorded unless it is intrinsic. -/
def recordFunction (st : InitState) (O : ValPtr) (F : FuncPtr) : InitState :=
  if (E.function F).isIntrinsic then st
  else { st with mlta :=
    recordContainers E st.containers F (st.containers.size + 1) O ∅ st.mlta }

/-- A cast operand: the function behind it, or the casted value to be visited. -/
def initCast (st : InitState) (O : ValPtr) : InitState × List ValPtr :=
  match E.operand O 0 with
  | none => (st, [])
  | some P =>
    match E.dynFunction P with
    | some F => (recordFunction E st O F, [])
    | none => (st, [P])

/-- One operand `O`, number `no`, of the container `U`. -/
def initOperand (U : ValPtr) (st : InitState) (O : ValPtr) (no : ℕ) : InitState × List ValPtr :=
  let st := { st with containers := st.containers.insert O (U, no) }
  match E.dynFunction O with
  | some F => (recordFunction E st O F, [])
  | none =>
    if (E.type (E.typeOf O)).kind.isComposite then (st, [O])
    else match E.opcode O with
      | some .ptrToInt => initCast E st O
      | some .bitCast => initCast E st O
      | _ =>
        match E.pointee (E.typeOf O), (E.value O).kind with
        | none, _ => (st, [])
        | some _, .nullPointer => (st, [])
        | some ETy, .globalVariable =>
          match (E.type ETy).kind with
          | .struct _ _ _ => ({ st with mlta := st.mlta.cap (typeHash E st.mlta ETy) }, [O])
          | _ => (st, [O])
        | some _, _ => (st, [O])

/-- The operands of `U` in order, with what they push. -/
def initOperands (U : ValPtr) : List (ValPtr × ℕ) → InitState → List ValPtr →
    InitState × List ValPtr
  | [], st, pushed => (st, pushed)
  | (O, no) :: rest, st, pushed =>
    let r := initOperand E U st O no
    initOperands U rest r.1 (pushed ++ r.2)

/-- One iteration of the queue. -/
def initBody (st : InitState) (U : ValPtr) : InitState × List ValPtr :=
  if U ∈ st.visited then (st, [])
  else initOperands E U (E.operands U).zipIdx { st with visited := st.visited.insert U } []

/-- Every operand of a value of the module. -/
def moduleOperands (M : ModPtr) : List ValPtr :=
  (E.module M).values.flatMap fun v => v.operands.map fun i => ⟨M, i⟩

/-- A budget under which the queue of an initialiser of the module is emptied. -/
def initFuel (Ini : ValPtr) : ℕ :=
  1 + Worklist.pending (fun U => (E.operands U).length) ∅ (Ini :: moduleOperands E Ini.mod)

theorem mem_moduleOperands {V O : ValPtr} (h : O ∈ E.operands V) : O ∈ moduleOperands E V.mod := by
  obtain ⟨i, hi, rfl⟩ := List.mem_map.mp h
  have hV : E.value V ∈ (E.module V.mod).values := by
    rw [Env.value, List.getD_eq_getElem?_getD] at hi ⊢
    cases hv : (E.module V.mod).values[V.idx]? with
    | none =>
      rw [hv] at hi
      exact absurd hi (List.not_mem_nil)
    | some v => simpa using List.mem_of_getElem? hv
  exact List.mem_flatMap.mpr ⟨_, hV, List.mem_map.mpr ⟨i, hi, rfl⟩⟩

@[simp] theorem visited_recordFunction (st : InitState) (O : ValPtr) (F : FuncPtr) :
    (recordFunction E st O F).visited = st.visited := by
  unfold recordFunction
  split_ifs <;> rfl

theorem initCast_spec (st : InitState) (O : ValPtr) :
    (initCast E st O).1.visited = st.visited ∧ (initCast E st O).2.length ≤ 1 ∧
      ∀ P ∈ (initCast E st O).2, P ∈ E.operands O := by
  unfold initCast
  split
  · simp
  · rename_i P hP
    split
    · simp
    · simpa using List.mem_of_getElem? hP

theorem initOperand_spec (U : ValPtr) (st : InitState) (O : ValPtr) (no : ℕ) :
    (initOperand E U st O no).1.visited = st.visited ∧ (initOperand E U st O no).2.length ≤ 1 ∧
      ∀ P ∈ (initOperand E U st O no).2, P = O ∨ P ∈ E.operands O := by
  unfold initOperand
  dsimp only
  split
  · simp
  · split_ifs
    · simp
    · split
      · obtain ⟨h1, h2, h3⟩ :=
          initCast_spec E { st with containers := st.containers.insert O (U, no) } O
        exact ⟨h1, h2, fun P hP => Or.inr (h3 P hP)⟩
      · obtain ⟨h1, h2, h3⟩ :=
          initCast_spec E { st with containers := st.containers.insert O (U, no) } O
        exact ⟨h1, h2, fun P hP => Or.inr (h3 P hP)⟩
      · split
        · simp
        · simp
        · split <;> simp
        · simp

theorem initOperands_spec (U : ValPtr) (ops : List (ValPtr × ℕ)) (st : InitState)
    (pushed : List ValPtr) :
    (initOperands E U ops st pushed).1.visited = st.visited ∧
      (initOperands E U ops st pushed).2.length ≤ pushed.length + ops.length ∧
      ∀ P ∈ (initOperands E U ops st pushed).2,
        P ∈ pushed ∨ ∃ o ∈ ops, P = o.1 ∨ P ∈ E.operands o.1 := by
  induction ops generalizing st pushed with
  | nil => simp [initOperands]
  | cons o ops ih =>
    obtain ⟨h1, h2, h3⟩ := initOperand_spec E U st o.1 o.2
    obtain ⟨g1, g2, g3⟩ :=
      ih (initOperand E U st o.1 o.2).1 (pushed ++ (initOperand E U st o.1 o.2).2)
    refine ⟨g1.trans h1, ?_, ?_⟩
    · simp only [List.length_append, List.length_cons] at g2 ⊢
      exact g2.trans (by omega)
    · intro P hP
      rcases g3 P hP with hP | ⟨o', ho', hP⟩
      · rcases List.mem_append.mp hP with hP | hP
        · exact Or.inl hP
        · exact Or.inr ⟨o, List.mem_cons_self, h3 P hP⟩
      · exact Or.inr ⟨o', List.mem_cons_of_mem _ ho', hP⟩

/-- The queue of an initialiser is emptied, whatever graph its constants form. -/
theorem initRun_isSome (m : Mlta) (Ini : ValPtr) :
    (Worklist.run (initBody E) (initFuel E Ini) { mlta := m } [Ini]).isSome := by
  have hmod : ∀ U ∈ Ini :: moduleOperands E Ini.mod, U.mod = Ini.mod := by
    intro U hU
    rcases List.mem_cons.mp hU with rfl | hU
    · rfl
    · obtain ⟨v, _, hv⟩ := List.mem_flatMap.mp hU
      obtain ⟨i, _, rfl⟩ := List.mem_map.mp hv
      rfl
  have hops : ∀ U ∈ Ini :: moduleOperands E Ini.mod, ∀ O ∈ E.operands U,
      O ∈ Ini :: moduleOperands E Ini.mod := by
    intro U hU O hO
    rw [← hmod U hU]
    exact List.mem_cons_of_mem _ (mem_moduleOperands E hO)
  apply Worklist.run_isSome_of_seen InitState.visited (fun U => (E.operands U).length)
    (U := Ini :: moduleOperands E Ini.mod)
  · intro st U hU
    simp [initBody, hU]
  · intro st U hU hnew
    obtain ⟨h1, h2, h3⟩ := initOperands_spec E U (E.operands U).zipIdx
      { st with visited := st.visited.insert U } []
    simp only [initBody, hnew, if_false]
    refine ⟨h1, by simpa using h2, ?_⟩
    intro P hP
    rcases h3 P hP with hP | ⟨o, ho, hP⟩
    · simp at hP
    · have hO := hops U hU o.1 (List.fst_mem_of_mem_zipIdx ho)
      rcases hP with rfl | hP
      · exact hO
      · exact hops o.1 hO P hP
  · simp
  · simp [initFuel]

/-- `typeConfineInInitializer`, which looks at initialisers that are aggregates. -/
def typeConfineInInitializer (m : Mlta) (GV : ValPtr) : Mlta :=
  match E.operand GV 0 with
  | none => m
  | some Ini =>
    if (E.value Ini).kind = .aggregate then
      ((Worklist.run (initBody E) (initFuel E Ini) { mlta := m } [Ini]).get
        (initRun_isSome E m Ini)).mlta
    else m

def confineTargetFunction (m : Mlta) (V : ValPtr) (F : FuncPtr) : Mlta :=
  if (E.function F).isIntrinsic then m
  else
    let (chain, complete, m) := getBaseTypeChain E m V
    let m := chain.foldl (fun m TI => m.confine (typeHash E m TI.1) TI.2 F) m
    if complete then m
    else match chain.getLast? with
      | some last => m.cap (typeHash E m last.1)
      | none => m.cap (E.funcHash F false)

def escapeType (m : Mlta) (V : ValPtr) : Mlta :=
  let (chain, _, m) := getBaseTypeChain E m V
  chain.foldl (fun m TI => m.escape (typeIdxHash E m TI.1 TI.2)) m

def propagateType (m : Mlta) (ToV : ValPtr) (FromTy : TyPtr) (idx : ℤ) : Mlta :=
  let (chain, _, m) := getBaseTypeChain E m ToV
  chain.foldl (fun m TI =>
    if typeHash E m TI.1 = typeHash E m FromTy ∧ TI.2 = idx then m
    else m.propagate (typeHash E m TI.1) TI.2 ⟨typeHash E m FromTy, idx⟩) m

/-- `CI->isIndirectCall()`: the called operand is neither a constant nor inline assembly. -/
def isIndirectCall (CI : ValPtr) : Bool :=
  match (E.operands CI).getLast? with
  | some CV => !E.isConstant CV && (E.value CV).kind != .inlineAsm
  | none => false

/-- The called operand when it is a function. -/
def calledFunction (CI : ValPtr) : Option FuncPtr :=
  (E.operands CI).getLast?.bind E.dynFunction

def isCall (I : ValPtr) : Bool :=
  match E.instOpcode I with
  | some (.call _) => true
  | _ => false

/-- The definition `GlobalFuncMap` has for a declaration; a definition is its own. -/
def definitionOf (globalFuncMap : SortedMap ℕ FuncPtr) (F : FuncPtr) : Option FuncPtr :=
  if (E.function F).isDeclaration then globalFuncMap[(E.function F).guid]? else some F

/-- A function `F` passed as operand number `no` of the call `CI`: it is confined to what
the callee stores its parameter into, or casts it to. -/
def confineArgument (globalFuncMap : SortedMap ℕ FuncPtr) (CI : ValPtr) (m : Mlta) (O : ValPtr)
    (no : ℕ) : Mlta :=
  match E.dynFunction O with
  | none => m
  | some F =>
    if (E.function F).isIntrinsic then m
    else if isIndirectCall E CI then confineTargetFunction E m O F
    else match (calledFunction E CI).bind (definitionOf E globalFuncMap) with
      | none => m
      | some CF =>
        match E.getParamByArgNo CF no with
        | none => m
        | some Arg =>
          (E.users Arg).foldl (fun m U =>
            if E.instOpcode U == some .store || isBitCast E U then confineTargetFunction E m U F
            else m) m

/-- One instruction of `typeConfineInFunction`. -/
def confineInst (globalFuncMap : SortedMap ℕ FuncPtr) (F : FuncPtr) (m : Mlta) (I : ValPtr) : Mlta :=
  match E.instOpcode I with
  | some .store =>
    match E.operand I 0, E.operand I 1 with
    | some VO, some PO =>
      match getBaseFunction E (valueFuel E VO) (E.stripPointerCasts VO) with
      | none => m
      | some CF => if (E.function F).isIntrinsic then m else confineTargetFunction E m PO CF
    | _, _ => m
  | some (.call _) =>
    (E.operands I).zipIdx.foldl (fun m o => confineArgument E globalFuncMap I m o.1 o.2) m
  | _ => m

def typeConfineInFunction (globalFuncMap : SortedMap ℕ FuncPtr) (m : Mlta) (F : FuncPtr) : Mlta :=
  (E.insts F).foldl (confineInst E globalFuncMap F) m

/-- The pointer and the value operand of a store, or of a struct assignment that became a
call to `memcpy`. -/
def copyOperands (I : ValPtr) : Option (ValPtr × ValPtr) :=
  match E.instOpcode I with
  | some .store => do return (← E.operand I 1, ← E.operand I 0)
  | some (.call _) => do
    let CF ← calledFunction E I
    if (E.function CF).name = "llvm.memcpy.p0i8.p0i8.i64" then
      return (← E.operand I 0, ← E.operand I 1)
    else none
  | _ => none

/-- `isa<ConstantAggregate>(V) || isa<ConstantData>(V)`. -/
def isPlainConstant (V : ValPtr) : Bool :=
  match (E.value V).kind with
  | .aggregate | .nullPointer | .constantInt _ | .otherConstantData => true
  | _ => false

/-- One instruction of `typePropInFunction`; the casts it collects are not used. -/
def propInst (m : Mlta) (I : ValPtr) : Mlta :=
  match copyOperands E I with
  | none => m
  | some (PO, VO) =>
    if isPlainConstant E VO then m
    else
      match (nextLayerBaseType E m (valueFuel E VO) VO {}).2.tyList with
      | TyIdx :: rest =>
        (TyIdx :: rest).foldl (fun m TyIdx => propagateType E m PO TyIdx.1 TyIdx.2) m
      | [] =>
        match (getBaseType E m (valueFuel E VO) VO ∅).1,
          getFuncPtrType E (E.stripPointerCasts VO) with
        | some BTy, _ => propagateType E m PO BTy (-1)
        | none, some FTy =>
          match getBaseFunction E (valueFuel E VO) VO with
          | none => propagateType E m PO FTy (-1)
          | some _ => m
        | none, none =>
          if (E.pointee (E.typeOf VO)).isSome then escapeType E m PO else m

def typePropInFunction (m : Mlta) (F : FuncPtr) : Mlta := (E.insts F).foldl (propInst E) m

/-- One instruction of `collectAliasStructPtr`: the alias map and the values to erase. -/
def aliasInst (int8PtrTy : Option TyPtr) (acc : SortedMap ValPtr ValPtr × List ValPtr) (CI : ValPtr) :
    SortedMap ValPtr ValPtr × List ValPtr :=
  match E.instOpcode CI, E.operand CI 0, E.pointee (E.typeOf CI) with
  | some op, some FromV, some ETy =>
    if (op = .bitCast ∨ op = .ptrToInt ∨ op = .otherCast) ∧ isCall E FromV = true ∧
        int8PtrTy = some (E.typeOf FromV) ∧ (E.type ETy).kind.isComposite = true then
      if FromV ∈ acc.1 then (acc.1, FromV :: acc.2) else (acc.1.insert FromV CI, acc.2)
    else acc
  | _, _, _ => acc

/-- `collectAliasStructPtr`: a value that is cast to two composite types has no alias. -/
def collectAliasStructPtr (m : Mlta) (F : FuncPtr) : Mlta :=
  let acc := (E.insts F).foldl (aliasInst E m.int8PtrTy[F.mod]?)
    (m.aliasStructPtrMap.getD F ∅, [])
  { m with aliasStructPtrMap :=
    m.aliasStructPtrMap.insert F (acc.2.foldl (fun a V => a.erase V) acc.1) }

def initTempStates (m : Mlta) : Mlta :=
  { m with matchedFuncsMap := ∅, aliasStructPtrMap := ∅, int8PtrTy := ∅ }

/-- Erase `F` from one slot, and the set and the row when they become empty. -/
def eraseSlot (m : SortedMap SizeT (SortedMap ℤ FuncSet)) (F : FuncPtr) (h : HashIdx) :
    SortedMap SizeT (SortedMap ℤ FuncSet) :=
  let fields := (m.getD h.hash ∅).eraseFrom h.idx F
  if fields.row h.idx = ∅ then
    let fields := fields.erase h.idx
    if fields = ∅ then m.erase h.hash else m.insert h.hash fields
  else m.insert h.hash fields

/-- `invalidateStates` for one function. -/
def invalidateFunction (m : Mlta) (F : FuncPtr) : Mlta :=
  match m.funcTypeIdxsMap[F]? with
  | none => m
  | some typeIdxs =>
    { m with
      typeIdxFuncsMap := typeIdxs.toList.foldl (fun t h => eraseSlot t F h) m.typeIdxFuncsMap
      funcTypeIdxsMap := m.funcTypeIdxsMap.erase F }

def invalidateStates (m : Mlta) (M : ModPtr) : Mlta := (E.functions M).foldl invalidateFunction m

end Mlta

end Cisa

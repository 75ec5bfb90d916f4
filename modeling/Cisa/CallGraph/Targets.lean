import Cisa.CallGraph.Confine

/-!
# Targets of an indirect call

`findCalleesWithMLTA` starts from the functions with the signature of the call and
intersects them with the targets of every type layer of the called operand. The
working sets `FS1` and `FS2` live across the layers, and the targets of a layer are
cached under the hash of the layer.
-/

namespace Cisa

open Std

def maxTypeLayer : ℕ := 10

namespace Mlta

variable (E : Env) (m : Mlta)

def intersectFuncSets (FS1 FS2 : FuncSet) : FuncSet := FS1.filter fun F => FS2.contains F

/-- `getTargetsWithLayerType`: index `-1` adds to `FS`, every other index replaces it. -/
def getTargetsWithLayerType (hash : SizeT) (idx : ℤ) (FS : FuncSet) : FuncSet :=
  if idx = -1 then (m.typeIdxFuncsMap.getD hash ∅).toList.foldl (fun FS FSet => FS ∪ FSet.2) FS
  else slot m.typeIdxFuncsMap hash idx ∪ slot m.typeIdxFuncsMap hash (-1)

/-- One iteration of the queue of `getDependentTypes`: the visited pairs and `PropSet`. -/
def dependBody (st : SortedSet HashIdx × SortedSet HashIdx) (TI : HashIdx) :
    (SortedSet HashIdx × SortedSet HashIdx) × List HashIdx :=
  if TI ∈ st.1 then (st, [])
  else
    let props := (slot m.typeIdxPropMap TI.hash TI.idx).toList ++
      (slot m.typeIdxPropMap TI.hash (-1)).toList
    ((st.1.insert TI, props.foldl (fun s p => s.insert p) st.2), props)

/-- Every pair that occurs in the propagation table. -/
def propMembers : List HashIdx :=
  m.typeIdxPropMap.toList.flatMap fun r => r.2.toList.flatMap fun f => f.2.toList

/-- A budget under which the queue of `getDependentTypes` is emptied. -/
def dependFuel (TI : HashIdx) : ℕ :=
  1 + Worklist.pending (fun TI => (slot m.typeIdxPropMap TI.hash TI.idx).toList.length +
    (slot m.typeIdxPropMap TI.hash (-1)).toList.length) ∅ (TI :: propMembers m)

theorem mem_propMembers {h : SizeT} {i : ℤ} {p : HashIdx} (hp : p ∈ slot m.typeIdxPropMap h i) :
    p ∈ propMembers m := by
  unfold slot ExtTreeMap.row at hp
  rw [ExtTreeMap.getD_eq_getD_getElem?, ExtTreeMap.getD_eq_getD_getElem?] at hp
  cases hr : m.typeIdxPropMap[h]? with
  | none => simp [hr] at hp
  | some fields =>
    rw [hr, Option.getD_some] at hp
    cases hf : fields[i]? with
    | none => simp [hf] at hp
    | some props =>
      rw [hf, Option.getD_some] at hp
      refine List.mem_flatMap.mpr ⟨(h, fields), by simpa using hr, ?_⟩
      exact List.mem_flatMap.mpr ⟨(i, props), by simpa using hf, by simpa using hp⟩

/-- The queue is emptied on every propagation table, cyclic ones included; the budget does
not depend on what `PropSet` holds. -/
theorem dependRun_isSome_from (TI : HashIdx) (PropSet : SortedSet HashIdx) :
    (Worklist.run (dependBody m) (dependFuel m TI) (∅, PropSet) [TI]).isSome := by
  apply Worklist.run_isSome_of_seen Prod.fst
    (fun TI => (slot m.typeIdxPropMap TI.hash TI.idx).toList.length +
      (slot m.typeIdxPropMap TI.hash (-1)).toList.length) (U := TI :: propMembers m)
  · intro st TI hTI
    simp [dependBody, hTI]
  · intro st TI _ hnew
    simp only [dependBody, hnew, if_false]
    refine ⟨trivial, by simp, ?_⟩
    intro p hp
    rcases List.mem_append.mp hp with hp | hp
    · exact List.mem_cons_of_mem _ (mem_propMembers m (ExtTreeSet.mem_toList.mp hp))
    · exact List.mem_cons_of_mem _ (mem_propMembers m (ExtTreeSet.mem_toList.mp hp))
  · simp
  · simp [dependFuel]

theorem dependRun_isSome (TI : HashIdx) :
    (Worklist.run (dependBody m) (dependFuel m TI) (∅, ∅) [TI]).isSome :=
  dependRun_isSome_from m TI ∅

def getDependentTypes (T : TyPtr) (idx : ℤ) : SortedSet HashIdx :=
  ((Worklist.run (dependBody m) (dependFuel m ⟨typeHash E m T, idx⟩) (∅, ∅)
    [⟨typeHash E m T, idx⟩]).get (dependRun_isSome m _)).2

/-- The variables of `findCalleesWithMLTA`. -/
structure SearchState where
  FS : FuncSet
  FS1 : FuncSet := ∅
  FS2 : FuncSet := ∅
  prevLayerTy : TyPtr
  CV : ValPtr
  nextV : Option ValPtr := none
  layerNo : ℕ := 1
  continueNextLayer : Bool := true
  matched : SortedMap SizeT FuncSet

/-- The targets of a layer that is not cached; they are cached. -/
def computeLayer (TI : TypeIdx) (st : SearchState) : SearchState :=
  let FS1 := getTargetsWithLayerType m (typeHash E m TI.1) TI.2 st.FS1
  let r := (getDependentTypes E m TI.1 TI.2).toList.foldl (fun r p =>
    let FS2 := getTargetsWithLayerType m p.hash p.idx r.2
    (r.1 ∪ FS2, FS2)) (FS1, st.FS2)
  { st with FS1 := r.1, FS2 := r.2,
            matched := st.matched.insert (typeIdxHash E m TI.1 TI.2) r.1 }

/-- The targets of a layer, from the cache or computed; none when the layer has escaped. -/
def lookupLayer (TI : TypeIdx) (st : SearchState) : Option SearchState :=
  let hash := typeIdxHash E m TI.1 TI.2
  match st.matched[hash]? with
  | some FS1 => some { st with FS1 := FS1 }
  | none =>
    if hash ∈ m.typeEscapeSet ∨ typeIdxHash E m TI.1 (-1) ∈ m.typeEscapeSet then none
    else some (computeLayer E m TI st)

/-- The loop over the layers of one list. -/
def layersLoop : List TypeIdx → SearchState → SearchState
  | [], st => st
  | TI :: rest, st =>
    if maxTypeLayer ≤ st.layerNo then st
    else match lookupLayer E m TI { st with layerNo := st.layerNo + 1 } with
      | none => { st with layerNo := st.layerNo + 1 }
      | some st =>
        let FS := intersectFuncSets st.FS1 st.FS
        let st := { st with FS := FS, FS2 := FS, CV := st.nextV.getD st.CV }
        if typeHash E m TI.1 ∈ m.typeCapSet then { st with continueNextLayer := false }
        else layersLoop rest { st with prevLayerTy := TI.1 }

/-- `while (ContinueNextLayer)`; every iteration counts at least one layer. -/
def searchLoop : ℕ → SearchState → SearchState
  | 0, st => st
  | n + 1, st =>
    if st.continueNextLayer = false ∨ maxTypeLayer ≤ st.layerNo ∨
        typeHash E m st.prevLayerTy ∈ m.typeCapSet then st
    else
      let r := (nextLayerBaseType E m (valueFuel E st.CV) st.CV { nextV := st.nextV }).2
      if r.tyList = [] then { st with nextV := r.nextV }
      else searchLoop n (layersLoop E m r.tyList { st with nextV := r.nextV })

/-- `findCalleesWithMLTA`: the targets, and the cache it leaves. -/
def findCalleesWithMLTA (sigFuncsMap : SortedMap SizeT FuncSet) (CI : ValPtr) : FuncSet × Mlta :=
  let FS := sigFuncsMap.row (E.callHash CI)
  match FS.isEmpty, (E.operands CI).getLast? with
  | false, some CV =>
    let st := searchLoop E m maxTypeLayer
      { FS := FS, prevLayerTy := E.callFunctionType CI, CV := CV, matched := m.matchedFuncsMap }
    (st.FS, { m with matchedFuncsMap := st.matched })
  | _, _ => (FS, m)

@[simp] theorem mem_intersectFuncSets {FS1 FS2 : FuncSet} {F : FuncPtr} :
    F ∈ intersectFuncSets FS1 FS2 ↔ F ∈ FS1 ∧ F ∈ FS2 := by
  simp [intersectFuncSets]

theorem FS_lookupLayer {TI : TypeIdx} {st st' : SearchState}
    (h : lookupLayer E m TI st = some st') : st'.FS = st.FS := by
  unfold lookupLayer at h
  dsimp only at h
  split at h
  · rw [← Option.some.inj h]
  · split_ifs at h
    rw [← Option.some.inj h]
    rfl

theorem layersLoop_subset (tys : List TypeIdx) (st : SearchState) {F : FuncPtr}
    (h : F ∈ (layersLoop E m tys st).FS) : F ∈ st.FS := by
  induction tys generalizing st with
  | nil => exact h
  | cons TI rest ih =>
    unfold layersLoop at h
    split at h
    · exact h
    · split at h
      · exact h
      · rename_i layer hlayer
        have hFS := FS_lookupLayer E m hlayer
        dsimp only at hFS
        rw [← hFS]
        dsimp only at h
        split at h
        · exact (mem_intersectFuncSets.mp h).2
        · exact (mem_intersectFuncSets.mp (ih _ h)).2

theorem searchLoop_subset (n : ℕ) (st : SearchState) {F : FuncPtr}
    (h : F ∈ (searchLoop E m n st).FS) : F ∈ st.FS := by
  induction n generalizing st with
  | zero => exact h
  | succ n ih =>
    unfold searchLoop at h
    dsimp only at h
    split_ifs at h
    · exact h
    · exact h
    · have hstart := layersLoop_subset E m _ _ (ih _ h)
      exact hstart

theorem findCalleesWithMLTA_subset {sigFuncsMap : SortedMap SizeT FuncSet} {CI : ValPtr}
    {F : FuncPtr} (h : F ∈ (findCalleesWithMLTA E m sigFuncsMap CI).1) :
    F ∈ sigFuncsMap.row (E.callHash CI) := by
  unfold findCalleesWithMLTA at h
  dsimp only at h
  split at h
  · exact searchLoop_subset E m _ _ h
  · exact h

end Mlta

end Cisa

import Cisa.CallGraph.FirstWalk

/-!
# A search ends

The recursion over the operands of a value visits every value of the module at most once,
and every round of the loop over the layers counts at least one.
-/

namespace Cisa

open Std

namespace Mlta

variable {E : Env} {m : Mlta}

/-- A call of the recursion, with the values visited so far, and a call that it makes. -/
def FollowStep (E : Env) (b a : ValPtr × SortedSet ValPtr) : Prop :=
  a.1 ∉ a.2 ∧ E.opcode a.1 ≠ none ∧ b.1 ∈ E.operands a.1 ∧ b.2 = a.2.insert a.1

theorem followStep_wf (E : Env) : WellFounded (FollowStep E) := by
  apply Subrelation.wf (r := InvImage (· < ·) fun a => unvisited E a.1.mod a.2)
  · intro b a h
    obtain ⟨hnew, hop, hb, hvisited⟩ := h
    show unvisited E b.1.mod b.2 < unvisited E a.1.mod a.2
    rw [E.mod_of_mem_operands hb, hvisited]
    exact unvisited_insert hop hnew
  · exact InvImage.wf _ Nat.lt_wfRel.wf

theorem nextLayerBaseType_budget {n n' : ℕ} {V : ValPtr} {st : LayerState}
    (hn : unvisited E V.mod st.visited < n) (hn' : unvisited E V.mod st.visited < n') :
    nextLayerBaseType E m n V st = nextLayerBaseType E m n' V st := by
  induction n generalizing n' V st with
  | zero => omega
  | succ n ih =>
    cases n' with
    | zero => omega
    | succ n' =>
      by_cases hstop : E.isArgument V ∨ V ∈ st.visited
      · rw [nextLayerBaseType_of_stop hstop, nextLayerBaseType_of_stop hstop]
      · have hnew : V ∉ st.visited := fun hV => hstop (Or.inr hV)
        rw [nextLayerBaseType_succ hstop, nextLayerBaseType_succ hstop]
        refine (layerStep_of V).run_congr fun hop O hO => ?_
        have hlt := unvisited_insert hop hnew
        have hmod := E.mod_of_mem_operands hO
        apply ih
        · rw [hmod]
          show unvisited E V.mod (st.visited.insert V) < n
          omega
        · rw [hmod]
          show unvisited E V.mod (st.visited.insert V) < n'
          omega

variable (E m)

/-- The loop over the layers is left in this state. -/
def LeavesLoop (st : SearchState) : Prop :=
  st.continueNextLayer = false ∨ maxTypeLayer ≤ st.layerNo ∨
    typeHash E m st.prevLayerTy ∈ m.typeCapSet ∨
    (nextLayerBaseType E m (valueFuel E st.CV) st.CV { nextV := st.nextV }).2.tyList = []

variable {E m}

theorem layerNo_lookupLayer {TI : TypeIdx} {st st' : SearchState}
    (h : lookupLayer E m TI st = some st') : st'.layerNo = st.layerNo := by
  unfold lookupLayer at h
  dsimp only at h
  split at h
  · rw [← Option.some.inj h]
  · split_ifs at h
    rw [← Option.some.inj h]
    rfl

theorem layerNo_le_layersLoop (tys : List TypeIdx) (st : SearchState) :
    st.layerNo ≤ (layersLoop E m tys st).layerNo := by
  induction tys generalizing st with
  | nil => exact le_rfl
  | cons TI rest ih =>
    unfold layersLoop
    split
    · exact le_rfl
    · cases hst : lookupLayer E m TI { st with layerNo := st.layerNo + 1 } with
      | none => exact Nat.le_succ _
      | some st' =>
        have hlayerNo : st'.layerNo = st.layerNo + 1 := layerNo_lookupLayer hst
        dsimp only
        split
        · dsimp only
          omega
        · have hrest := ih { st' with
            FS := intersectFuncSets st'.FS1 st'.FS
            FS2 := intersectFuncSets st'.FS1 st'.FS
            CV := st'.nextV.getD st'.CV
            prevLayerTy := TI.1 }
          dsimp only at hrest
          omega

theorem layerNo_lt_layersLoop {tys : List TypeIdx} (hne : tys ≠ []) {st : SearchState}
    (hmax : ¬ maxTypeLayer ≤ st.layerNo) : st.layerNo < (layersLoop E m tys st).layerNo := by
  cases tys with
  | nil => exact absurd rfl hne
  | cons TI rest =>
    unfold layersLoop
    rw [if_neg hmax]
    cases hst : lookupLayer E m TI { st with layerNo := st.layerNo + 1 } with
    | none => exact Nat.lt_succ_self _
    | some st' =>
      have hlayerNo : st'.layerNo = st.layerNo + 1 := layerNo_lookupLayer hst
      dsimp only
      split
      · dsimp only
        omega
      · have hrest := layerNo_le_layersLoop (E := E) (m := m) rest { st' with
          FS := intersectFuncSets st'.FS1 st'.FS
          FS2 := intersectFuncSets st'.FS1 st'.FS
          CV := st'.nextV.getD st'.CV
          prevLayerTy := TI.1 }
        dsimp only at hrest
        omega

theorem leavesLoop_searchLoop {n : ℕ} {st : SearchState} (hn : maxTypeLayer ≤ st.layerNo + n) :
    LeavesLoop E m (searchLoop E m n st) := by
  induction n generalizing st with
  | zero => exact Or.inr (Or.inl hn)
  | succ n ih =>
    unfold searchLoop
    split_ifs with hstop
    · rcases hstop with h | h | h
      · exact Or.inl h
      · exact Or.inr (Or.inl h)
      · exact Or.inr (Or.inr (Or.inl h))
    · obtain ⟨_, hmax, _⟩ : _ ∧ ¬ maxTypeLayer ≤ st.layerNo ∧ _ := by simpa only [not_or] using hstop
      dsimp only
      split_ifs with hempty
      · refine Or.inr (Or.inr (Or.inr ?_))
        dsimp only
        rw [tyList_nextLayerBaseType, ← tyList_nextLayerBaseType _ st.nextV]
        exact hempty
      · apply ih
        set next : SearchState := { st with nextV := (nextLayerBaseType E m (valueFuel E st.CV) st.CV
          { nextV := st.nextV }).2.nextV } with hnext
        have hmax' : ¬ maxTypeLayer ≤ next.layerNo := hmax
        have hlt := layerNo_lt_layersLoop (E := E) (m := m) hempty hmax'
        have hsame : next.layerNo = st.layerNo := rfl
        omega

variable (E m) in
/-- The search of a call ends: its recursion goes down a well-founded relation and has the
budget it needs, and its loop is left by one of its exits. -/
structure SearchEnds (sigFuncsMap : SortedMap SizeT FuncSet) (CI : ValPtr) : Prop where
  recursion : WellFounded (FollowStep E)
  budget : ∀ V O n, valueFuel E V ≤ n → nextLayerBaseType E m n V { nextV := O } =
    nextLayerBaseType E m (valueFuel E V) V { nextV := O }
  loop : ∀ CV, (E.operands CI).getLast? = some CV → LeavesLoop E m (searchLoop E m maxTypeLayer
    { FS := sigFuncsMap.row (E.callHash CI), prevLayerTy := E.callFunctionType CI, CV := CV,
      matched := m.matchedFuncsMap })

theorem searchEnds (sigFuncsMap : SortedMap SizeT FuncSet) (CI : ValPtr) :
    SearchEnds E m sigFuncsMap CI where
  recursion := followStep_wf E
  budget V O n hn := by
    have hempty := unvisited_empty_lt (E := E) V
    exact nextLayerBaseType_budget (Nat.lt_of_lt_of_le hempty hn) hempty
  loop CV _ := leavesLoop_searchLoop (Nat.le_add_left _ _)

end Mlta

end Cisa

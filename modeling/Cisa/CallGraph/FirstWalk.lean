import Cisa.CallGraph.Searches

/-!
# The first walk of a search

The chain of a pointer is collected with one set of visited values. A call that loads the
pointer walks from the load, so the load is in its set. That makes no difference to the
layers: a walk that comes back to the load goes on to the pointer, which has been visited.
-/

namespace Cisa

open Std

theorem Env.idx_lt_of_opcode (E : Env) {V : ValPtr} (h : E.opcode V ≠ none) :
    V.idx < (E.module V.mod).values.length := by
  by_contra hge
  have hnone : (E.module V.mod).values[V.idx]? = none := by simpa using hge
  apply h
  simp [opcode, value, List.getD_eq_getElem?_getD, hnone,
    show (default : Value).kind = .otherConstant from rfl]

theorem Env.value_mem_of_opcode (E : Env) {V : ValPtr} (h : E.opcode V ≠ none) :
    E.value V ∈ (E.module V.mod).values := by
  have hlt := E.idx_lt_of_opcode h
  rw [value, List.getD_eq_getElem?_getD, List.getElem?_eq_getElem hlt]
  exact List.getElem_mem hlt

theorem Env.operands_of_phi (E : Env) {V : ValPtr}
    (hphis : ∀ v ∈ (E.module V.mod).values, v.kind = .instruction .phi → v.operands ≠ [])
    (hop : E.instOpcode V = some .phi) : E.operands V ≠ [] := by
  have hmem := E.value_mem_of_opcode (V := V) (by simp [E.opcode_of_instOpcode hop])
  simpa [operands] using hphis _ hmem (E.kind_of_instOpcode hop)

namespace Mlta

variable {E : Env} {m : Mlta}

/-- The number of values of the module that a walk has not visited. -/
def unvisited (E : Env) (M : ModPtr) (visited : SortedSet ValPtr) : ℕ :=
  Worklist.pending (fun _ => 1) visited
    ((List.range (E.module M).values.length).map fun i => ⟨M, i⟩)

theorem unvisited_insert {V : ValPtr} {visited : SortedSet ValPtr} (hop : E.opcode V ≠ none)
    (hnew : V ∉ visited) :
    unvisited E V.mod (visited.insert V) < unvisited E V.mod visited := by
  have hlt := E.idx_lt_of_opcode hop
  have hmem : V ∈ (List.range (E.module V.mod).values.length).map fun i => (⟨V.mod, i⟩ : ValPtr) :=
    List.mem_map.mpr ⟨V.idx, List.mem_range.mpr hlt, rfl⟩
  have hpending := Worklist.pending_insert (fun _ => 1) hmem hnew
  unfold unvisited
  omega

theorem unvisited_le {M : ModPtr} {visited visited' : SortedSet ValPtr}
    (h : ∀ V ∈ visited, V ∈ visited') : unvisited E M visited' ≤ unvisited E M visited :=
  Worklist.pending_le_of_subset _ h _

theorem unvisited_empty_lt (V : ValPtr) : unvisited E V.mod ∅ < valueFuel E V := by
  simp [unvisited, Worklist.pending, valueFuel, Function.comp_def]

/-- The walks end alike and with the same layers. -/
def SameLayers (r r' : Bool × LayerState) : Prop := r'.1 = r.1 ∧ r'.2.tyList = r.2.tyList

/-- The second walk is where the first is, and has visited the values of `D` besides. Each of
them leads to `P`, which the first walk has come to. -/
structure Beside (D : ValPtr → Prop) (P V : ValPtr) (st st' : LayerState) : Prop where
  tyList : st'.tyList = st.tyList
  visited : ∀ W, W ∈ st'.visited ↔ W ∈ st.visited ∨ D W
  come : P ∈ st.visited ∨ V = P

theorem sameLayers_phiLayers {rec rec' : ValPtr → LayerState → Bool × LayerState}
    {st st' : LayerState} {IVs : List ValPtr} (hty : st'.tyList = st.tyList)
    (hrec : ∀ V ∈ IVs,
      SameLayers (rec V { st with nextV := some V }) (rec' V { st' with nextV := some V }))
    {acc acc' : Bool × LayerState} (hacc : SameLayers acc acc') :
    SameLayers (phiLayers rec st IVs acc) (phiLayers rec' st' IVs acc') := by
  induction IVs generalizing acc acc' with
  | nil => exact hacc
  | cons IV rest ih =>
    have hone := hrec IV List.mem_cons_self
    have hrest := ih (fun V hV => hrec V (List.mem_cons_of_mem _ hV)) hone
    unfold phiLayers
    dsimp only
    rw [hone.2, show st'.tyList.length = st.tyList.length from congrArg List.length hty]
    split_ifs
    · exact hone
    · exact hrest

theorem sameLayers_run {step : LayerStep} {V : ValPtr} {st st' : LayerState}
    {rec rec' : ValPtr → LayerState → Bool × LayerState} (hstep : step.Of E m V)
    (hty : st'.tyList = st.tyList)
    (hrec : E.opcode V ≠ none → ∀ O ∈ E.operands V,
      SameLayers (rec O { st with nextV := some O }) (rec' O { st' with nextV := some O })) :
    SameLayers (step.run E rec V st) (step.run E rec' V st') := by
  cases hstep with
  | append _ _ => exact ⟨rfl, congrArg (· ++ _) hty⟩
  | follow hop hO => exact hrec hop _ hO
  | phis hop =>
    have hsome : E.opcode V ≠ none := by simp [E.opcode_of_instOpcode hop]
    exact sameLayers_phiLayers hty (hrec hsome) ⟨rfl, rfl⟩
  | stop => exact ⟨rfl, hty⟩

/-- Values that lead to where the walk has been make no difference, and neither does more
budget than there are values. -/
theorem sameLayers_nextLayerBaseType {D : ValPtr → Prop} {P : ValPtr}
    (hD : ∀ W, D W → E.instOpcode W = some .load ∧ E.operand W 0 = some P) {n n' : ℕ} {V : ValPtr}
    {st st' : LayerState} (h : Beside D P V st st') (hn : unvisited E V.mod st.visited < n)
    (hn' : unvisited E V.mod st'.visited < n') :
    SameLayers (nextLayerBaseType E m n V st) (nextLayerBaseType E m n' V st') := by
  induction n generalizing n' V st st' with
  | zero => omega
  | succ n ih =>
    cases n' with
    | zero => omega
    | succ n' =>
      by_cases hstop : E.isArgument V ∨ V ∈ st.visited
      · have hstop' : E.isArgument V ∨ V ∈ st'.visited :=
          hstop.imp_right fun hV => (h.visited V).mpr (Or.inl hV)
        rw [nextLayerBaseType_of_stop hstop, nextLayerBaseType_of_stop hstop']
        exact ⟨rfl, h.tyList⟩
      · obtain ⟨harg, hnew⟩ := not_or.mp hstop
        have hcome : P ∈ st.visited.insert V := by
          rw [ExtTreeSet.mem_insert]
          rcases h.come with hP | hP
          · exact Or.inr hP
          · exact Or.inl (by rw [hP]; exact compare_self)
        by_cases hDV : D V
        · -- the second walk stops at the load; the first stops at its pointer
          obtain ⟨hload, hPO⟩ := hD V hDV
          rw [nextLayerBaseType_of_stop (Or.inr ((h.visited V).mpr (Or.inr hDV))),
            nextLayerBaseType_succ hstop, layerStep_of_load hload, hPO]
          show SameLayers (nextLayerBaseType E m n P _) _
          rw [nextLayerBaseType_of_stop (Or.inr hcome)]
          exact ⟨rfl, h.tyList⟩
        · have hnew' : V ∉ st'.visited := by
            rw [h.visited]
            exact fun hV => hV.elim hnew hDV
          have hvisited : ∀ W, W ∈ st'.visited.insert V ↔ W ∈ st.visited.insert V ∨ D W := by
            intro W
            rw [ExtTreeSet.mem_insert, ExtTreeSet.mem_insert, h.visited, or_assoc]
          rw [nextLayerBaseType_succ hstop, nextLayerBaseType_succ (not_or.mpr ⟨harg, hnew'⟩)]
          refine sameLayers_run (layerStep_of V) h.tyList fun hop O hO => ?_
          have hmod := E.mod_of_mem_operands hO
          have hlt := unvisited_insert hop hnew
          have hlt' := unvisited_insert hop hnew'
          have hbeside : Beside D P O
              { st with visited := st.visited.insert V, nextV := some O }
              { st' with visited := st'.visited.insert V, nextV := some O } :=
            ⟨h.tyList, hvisited, Or.inl hcome⟩
          apply ih hbeside
          · rw [hmod]
            show unvisited E V.mod (st.visited.insert V) < n
            omega
          · rw [hmod]
            show unvisited E V.mod (st'.visited.insert V) < n'
            omega

section Kept

variable {M : ModPtr} {TI : TypeIdx}

theorem mem_phiLayers {rec : ValPtr → LayerState → Bool × LayerState} {st : LayerState}
    {IVs : List ValPtr} (hrec : ∀ V ∈ IVs, TI ∈ (rec V { st with nextV := some V }).2.tyList)
    {acc : Bool × LayerState} (h : IVs ≠ [] ∨ TI ∈ acc.2.tyList) :
    TI ∈ (phiLayers rec st IVs acc).2.tyList := by
  induction IVs generalizing acc with
  | nil => exact h.resolve_left fun hne => hne rfl
  | cons IV rest ih =>
    have hone := hrec IV List.mem_cons_self
    unfold phiLayers
    dsimp only
    split_ifs
    · exact hone
    · exact ih (fun V hV => hrec V (List.mem_cons_of_mem _ hV)) (Or.inr hone)

theorem mem_nextLayerBaseType
    (hphis : ∀ V, InModule M V → E.instOpcode V = some .phi → E.operands V ≠ []) (n : ℕ)
    {V : ValPtr} (hV : InModule M V) {st : LayerState} (h : TI ∈ st.tyList) :
    TI ∈ (nextLayerBaseType E m n V st).2.tyList := by
  induction n generalizing V st with
  | zero => exact h
  | succ n ih =>
    by_cases hstop : E.isArgument V ∨ V ∈ st.visited
    · rw [nextLayerBaseType_of_stop hstop]
      exact h
    · rw [nextLayerBaseType_succ hstop]
      have hstep := layerStep_of (E := E) (m := m) V
      generalize layerStep E m V = step at hstep ⊢
      cases hstep with
      | append _ _ => exact List.mem_append_left _ h
      | follow _ hO => exact ih (E.closed_inModule M V hV _ hO) h
      | phis hop =>
        apply mem_phiLayers
        · intro O hO
          exact ih (E.closed_inModule M V hV O hO) h
        · exact Or.inl (hphis V hV hop)
      | stop => exact h

theorem mem_layerLoop
    (hphis : ∀ V, InModule M V → E.instOpcode V = some .phi → E.operands V ≠ []) (fuel n : ℕ)
    {V : ValPtr} (hV : InModule M V) {st : LayerState}
    (hst : LocalLayers E m (InModule M) st) (h : TI ∈ st.tyList) :
    TI ∈ (layerLoop E m fuel n V st).tyList := by
  induction n generalizing V st with
  | zero => exact h
  | succ n ih =>
    have hnext := hst.nextLayerBaseType (E.closed_inModule M) fuel hV
    have hkept := mem_nextLayerBaseType (m := m) hphis fuel hV h
    unfold layerLoop
    cases hr : nextLayerBaseType E m fuel V st with
    | mk ret st' =>
      rw [hr] at hnext hkept
      cases ret with
      | false => exact hkept
      | true =>
        cases hO : st'.nextV with
        | none => simpa [hO] using hkept
        | some O => simpa [hO] using ih (hnext.nextV O hO) hnext hkept

end Kept

/-- The layers that the first walk from a load appends are in the chain of the pointer. -/
theorem mem_chain_of_first {L P : ValPtr} (hload : E.instOpcode L = some .load)
    (hPO : E.operand L 0 = some P)
    (hphis : ∀ V, InModule L.mod V → E.instOpcode V = some .phi → E.operands V ≠ []) {TI : TypeIdx}
    (h : TI ∈ (nextLayerBaseType E m (valueFuel E L) L {}).2.tyList) :
    TI ∈ (baseTypeChain E m P).1 := by
  have hmod : P.mod = L.mod := E.mod_of_operand hPO
  have hop := E.opcode_of_instOpcode hload
  have hstart : unvisited E L.mod (∅ : SortedSet ValPtr) < valueFuel E L := unvisited_empty_lt L
  have hload' : nextLayerBaseType E m (valueFuel E L) L {} =
      if E.isArgument L then (false, { nextV := some L })
      else nextLayerBaseType E m (valueFuel E L - 1) P
        { nextV := some P, visited := (∅ : SortedSet ValPtr).insert L } := by
    split_ifs with harg
    · exact nextLayerBaseType_of_stop (Or.inl harg) _
    · have hstop : ¬(E.isArgument L ∨ L ∈ ({} : LayerState).visited) := by simp [harg]
      unfold valueFuel
      rw [Nat.add_sub_cancel, nextLayerBaseType_succ hstop, layerStep_of_load hload, hPO]
      rfl
  rw [hload'] at h
  split_ifs at h with harg
  · simp at h
  · have hnew : L ∉ (∅ : SortedSet ValPtr) := by simp
    have hlt := unvisited_insert (E := E) (by simp [hop]) hnew
    have hsame : SameLayers (nextLayerBaseType E m (valueFuel E P) P {})
        (nextLayerBaseType E m (valueFuel E L - 1) P
          { nextV := some P, visited := (∅ : SortedSet ValPtr).insert L }) := by
      apply sameLayers_nextLayerBaseType (D := fun W => W = L) (P := P)
      · intro W hW
        rw [hW]
        exact ⟨hload, hPO⟩
      · refine ⟨rfl, fun W => ?_, Or.inr rfl⟩
        rw [ExtTreeSet.mem_insert, LawfulEqCmp.compare_eq_iff_eq, or_comm, eq_comm]
      · exact unvisited_empty_lt P
      · rw [hmod]
        show unvisited E L.mod ((∅ : SortedSet ValPtr).insert L) < valueFuel E L - 1
        omega
    rw [hsame.2] at h
    have hlocal : LocalLayers E m (InModule L.mod)
        (nextLayerBaseType E m (valueFuel E P) P {}).2 :=
      LocalLayers.nextLayerBaseType (E.closed_inModule L.mod) _ hmod ⟨by simp, by simp⟩
    unfold baseTypeChain
    dsimp only
    apply List.mem_append_right
    unfold valueFuel at h hlocal ⊢
    rw [layerLoop]
    cases hr : nextLayerBaseType E m ((E.module P.mod).values.length + 1) P {} with
    | mk ret st =>
      rw [hr] at h hlocal
      cases ret with
      | false => exact h
      | true =>
        cases hO : st.nextV with
        | none => simpa [hO] using h
        | some O =>
          simpa [hO] using mem_layerLoop hphis _ _ (hlocal.nextV O hO) hlocal h

def firstMet (E : Env) (m : Mlta) (CI : ValPtr) : List TypeIdx :=
  match (E.operands CI).getLast? with
  | some CV => walkSearch E m 1 { prevLayerTy := E.callFunctionType CI, CV := CV }
  | none => []

def restartedMet (E : Env) (m : Mlta) (CI : ValPtr) : List TypeIdx :=
  (layersMet E m CI).drop (firstMet E m CI).length

theorem walkSearch_prefix (n : ℕ) (w : WalkState) :
    ∃ rest, walkSearch E m (n + 1) w = walkSearch E m 1 w ++ rest := by
  unfold walkSearch
  dsimp only
  split_ifs
  · exact ⟨[], rfl⟩
  · exact ⟨[], rfl⟩
  · exact ⟨_, by rw [List.append_assoc]; rfl⟩

theorem layersMet_eq (CI : ValPtr) :
    layersMet E m CI = firstMet E m CI ++ restartedMet E m CI := by
  have hprefix : ∃ rest, layersMet E m CI = firstMet E m CI ++ rest := by
    unfold layersMet firstMet
    cases (E.operands CI).getLast? with
    | none => exact ⟨[], rfl⟩
    | some CV => exact walkSearch_prefix 9 _
  obtain ⟨rest, hrest⟩ := hprefix
  rw [restartedMet, hrest, List.drop_left]

theorem tyList_nextLayerBaseType (V : ValPtr) (O : Option ValPtr) :
    (nextLayerBaseType E m (valueFuel E V) V { nextV := O }).2.tyList =
      (nextLayerBaseType E m (valueFuel E V) V {}).2.tyList := by
  have hsame : SameLayers (nextLayerBaseType E m (valueFuel E V) V {})
      (nextLayerBaseType E m (valueFuel E V) V { nextV := O }) := by
    apply sameLayers_nextLayerBaseType (D := fun _ => False) (P := V)
    · exact fun _ hW => hW.elim
    · exact ⟨rfl, by simp, Or.inr rfl⟩
    · exact unvisited_empty_lt V
    · exact unvisited_empty_lt V
  exact hsame.2

/-- When the first walk looks up no layer, no layer is looked up at all: the next one starts
at the same value. -/
theorem walkSearch_eq_nil (n : ℕ) {w : WalkState} (h : walkSearch E m 1 w = []) :
    walkSearch E m n w = [] := by
  induction n generalizing w with
  | zero => rfl
  | succ n ih =>
    have h1 := h
    unfold walkSearch at h1 ⊢
    dsimp only at h1 ⊢
    split_ifs at h1 ⊢ with hstop hempty
    · rfl
    · rfl
    · rw [show ∀ w, walkSearch E m 0 w = [] from fun _ => rfl, List.append_nil] at h1
      rw [h1, List.nil_append]
      cases htys : (nextLayerBaseType E m (valueFuel E w.CV) w.CV { nextV := w.nextV }).2.tyList with
      | nil => exact absurd htys hempty
      | cons TI tys =>
        rw [htys] at h1
        have hmax : ¬ maxTypeLayer ≤ w.layerNo := fun hle => hstop (Or.inr (Or.inl hle))
        have hclosed : ¬ IsOpen E m TI := by
          intro hopen
          unfold walkLayers at h1
          rw [if_neg hmax, if_pos hopen] at h1
          dsimp only at h1
          split_ifs at h1
        apply ih
        unfold walkLayers
        rw [if_neg hmax, if_neg hclosed]
        unfold walkSearch
        dsimp only
        rw [tyList_nextLayerBaseType, ← tyList_nextLayerBaseType _ w.nextV, htys]
        unfold walkLayers
        split_ifs <;> simp [walkSearch]

theorem restartedMet_eq_nil {CI : ValPtr} (h : firstMet E m CI = []) :
    restartedMet E m CI = [] := by
  have hmet : layersMet E m CI = [] := by
    unfold firstMet at h
    unfold layersMet
    cases hCV : (E.operands CI).getLast? with
    | none => rfl
    | some CV =>
      rw [hCV] at h
      exact walkSearch_eq_nil _ h
  rw [restartedMet, hmet, List.drop_nil]

theorem mem_walkSearch_one {w : WalkState} {TI : TypeIdx} (h : TI ∈ walkSearch E m 1 w) :
    TI ∈ (nextLayerBaseType E m (valueFuel E w.CV) w.CV { nextV := w.nextV }).2.tyList := by
  unfold walkSearch at h
  dsimp only at h
  split_ifs at h
  · simp at h
  · simp at h
  · rw [show ∀ w, walkSearch E m 0 w = [] from fun _ => rfl, List.append_nil] at h
    exact mem_walkLayers h

theorem mem_firstMet {CI L : ValPtr} (hL : (E.operands CI).getLast? = some L) {TI : TypeIdx}
    (h : TI ∈ firstMet E m CI) :
    TI ∈ (nextLayerBaseType E m (valueFuel E L) L {}).2.tyList := by
  unfold firstMet at h
  rw [hL] at h
  exact mem_walkSearch_one h

/-- If all layers of the first walk deliver the function, whatever comes before them, the
search finds it exactly when the layers of the later walks do. -/
theorem mem_findCallees_iff_restarted {CI : ValPtr}
    (hapart : Apart E m (LayerOf E m (InModule CI.mod))) {sigFuncsMap : SortedMap SizeT FuncSet}
    {F : FuncPtr} (hF : F ∈ sigFuncsMap.row (E.callHash CI))
    (hfirst : ∀ TI ∈ firstMet E m CI, ∀ first, Delivers E m first TI F) :
    F ∈ (findCalleesWithMLTA E m sigFuncsMap CI).1 ↔
      ∀ TI ∈ restartedMet E m CI, Delivers E m false TI F := by
  rw [mem_findCalleesWithMLTA hapart hF, layersMet_eq, allDeliver_append]
  have hone : AllDeliver E m true (firstMet E m CI) F :=
    fun i TI hTI => hfirst TI (List.mem_of_getElem? hTI) _
  rw [and_iff_right hone]
  cases hmet : firstMet E m CI with
  | nil => simp [restartedMet_eq_nil hmet, allDeliver_nil]
  | cons TI tys =>
    constructor
    · intro h TI hTI
      obtain ⟨i, hi⟩ := List.getElem?_of_mem hTI
      exact h i TI hi
    · exact fun h i TI hTI => h TI (List.mem_of_getElem? hTI)

end Mlta

end Cisa

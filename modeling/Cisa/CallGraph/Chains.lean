import Cisa.CallGraph.TypeFacts
import Cisa.CallGraph.LayerSteps

/-!
# What the walks over values read

A walk stays within every set of values that is closed under operands, and of the tables
it reads only the names of the structs and the aliases of the values it comes to. So two
states of the tables that agree on such a set give the same layers and chains.
-/

namespace Cisa

open Std

/-- A set of values that contains the operands of its members. -/
def Env.Closed (E : Env) (C : ValPtr → Prop) : Prop := ∀ V, C V → ∀ O ∈ E.operands V, C O

def InModule (M : ModPtr) (V : ValPtr) : Prop := V.mod = M

theorem Env.closed_inModule (E : Env) (M : ModPtr) : E.Closed (InModule M) :=
  fun _ hV _ hO => (E.mod_of_mem_operands hO).trans hV

theorem Env.Closed.operand {E : Env} {C : ValPtr → Prop} (hC : E.Closed C) {V O : ValPtr} {n : ℕ}
    (hV : C V) (h : E.operand V n = some O) : C O :=
  hC V hV O (List.mem_of_getElem? h)

namespace Mlta

variable {E : Env} {C : ValPtr → Prop} {m m' : Mlta}

/-- A layer of a GEP of the set. -/
def LayerOf (E : Env) (m : Mlta) (C : ValPtr → Prop) (TI : TypeIdx) : Prop :=
  ∃ (V : ValPtr) (ty : ℕ), C V ∧ E.opcode V = some (.gep ty) ∧ TI ∈ getGEPLayerTypes E m V ty

/-- The layers that a walk has appended and the value it has come to are of the set. -/
structure LocalLayers (E : Env) (m : Mlta) (C : ValPtr → Prop) (st : LayerState) : Prop where
  tyList : ∀ TI ∈ st.tyList, LayerOf E m C TI
  nextV : ∀ O, st.nextV = some O → C O

namespace LocalLayers

variable {st : LayerState}

theorem at_value (h : LocalLayers E m C st) {V : ValPtr} (hV : C V) (visited : SortedSet ValPtr) :
    LocalLayers E m C { st with nextV := some V, visited := visited } :=
  ⟨h.tyList, fun O hO => by rw [← Option.some.inj hO]; exact hV⟩

theorem nowhere (h : LocalLayers E m C st) (visited : SortedSet ValPtr) :
    LocalLayers E m C { st with nextV := none, visited := visited } :=
  ⟨h.tyList, by simp⟩

theorem phiLayers {rec : ValPtr → LayerState → Bool × LayerState} (hst : LocalLayers E m C st)
    (hrec : ∀ V st, C V → LocalLayers E m C st → LocalLayers E m C (rec V st).2)
    {IVs : List ValPtr} (hIVs : ∀ V ∈ IVs, C V) {acc : Bool × LayerState}
    (hacc : LocalLayers E m C acc.2) : LocalLayers E m C (phiLayers rec st IVs acc).2 := by
  induction IVs generalizing acc with
  | nil => exact hacc
  | cons IV rest ih =>
    have hIV := hIVs IV List.mem_cons_self
    have hone := hrec IV _ hIV (hst.at_value hIV st.visited)
    unfold Mlta.phiLayers
    dsimp only
    split_ifs
    · exact hone
    · exact ih (fun V hV => hIVs V (List.mem_cons_of_mem _ hV)) hone

theorem nextLayerBaseType (hC : E.Closed C) (n : ℕ) {V : ValPtr} (hV : C V)
    (h : LocalLayers E m C st) : LocalLayers E m C (nextLayerBaseType E m n V st).2 := by
  induction n generalizing V st with
  | zero => exact h.at_value hV _
  | succ n ih =>
    by_cases hstop : E.isArgument V ∨ V ∈ st.visited
    · rw [nextLayerBaseType_of_stop hstop]
      exact h.at_value hV _
    · rw [nextLayerBaseType_succ hstop]
      have hstep := layerStep_of (E := E) (m := m) V
      generalize layerStep E m V = step at hstep ⊢
      cases hstep with
      | @append T hop _ =>
        refine ⟨?_, fun O hO => hC.operand hV hO⟩
        intro TI hTI
        rcases List.mem_append.mp hTI with hTI | hTI
        · exact h.tyList TI hTI
        · exact ⟨V, T, hV, hop, hTI⟩
      | follow _ hO =>
        have hP := hC V hV _ hO
        exact ih hP (h.at_value hP _)
      | phis _ =>
        have hphi : LocalLayers E m C { st with visited := st.visited.insert V } :=
          ⟨h.tyList, h.nextV⟩
        exact hphi.phiLayers (fun O st hO hst => ih hO hst) (hC V hV) ⟨by simp, h.nextV⟩
      | stop => exact h.nowhere _

end LocalLayers

/-- The tables have the same struct names, and the same aliases for the values of the set. -/
structure Agree (E : Env) (C : ValPtr → Prop) (m m' : Mlta) : Prop where
  names : m'.elementsStructNameMap = m.elementsStructNameMap
  recoverBaseType : ∀ V, C V → recoverBaseType E m' V = recoverBaseType E m V

namespace Agree

theorem typeHash (h : Agree E C m m') (T : TyPtr) : typeHash E m' T = typeHash E m T := by
  unfold Mlta.typeHash
  rw [h.names]

theorem ownBaseType (h : Agree E C m m') {V : ValPtr} (hV : C V) :
    ownBaseType E m' V = ownBaseType E m V := by
  unfold Mlta.ownBaseType
  rw [h.recoverBaseType V hV]

theorem getPhiBaseType {rec rec' : ValPtr → SortedSet ValPtr → Option TyPtr × SortedSet ValPtr}
    {IVs : List ValPtr} (hrec : ∀ V ∈ IVs, ∀ visited, rec' V visited = rec V visited)
    (visited : SortedSet ValPtr) :
    getPhiBaseType rec' IVs visited = getPhiBaseType rec IVs visited := by
  induction IVs generalizing visited with
  | nil => rfl
  | cons IV rest ih =>
    unfold Mlta.getPhiBaseType
    rw [hrec IV List.mem_cons_self]
    split
    · rfl
    · exact ih (fun V hV => hrec V (List.mem_cons_of_mem _ hV)) _

theorem getBaseType (h : Agree E C m m') (hC : E.Closed C) (n : ℕ) {V : ValPtr} (hV : C V)
    (visited : SortedSet ValPtr) : getBaseType E m' n V visited = getBaseType E m n V visited := by
  induction n generalizing V visited with
  | zero => rfl
  | succ n ih =>
    have hphi : Mlta.getPhiBaseType (Mlta.getBaseType E m' n) (E.operands V) =
        Mlta.getPhiBaseType (Mlta.getBaseType E m n) (E.operands V) := by
      funext visited
      exact getPhiBaseType (fun O hO visited => ih (hC V hV O hO) visited) visited
    unfold Mlta.getBaseType
    rw [h.ownBaseType hV, hphi]
    split_ifs
    · rfl
    · dsimp only
      split
      · rfl
      · cases hO : E.operand V 0 with
        | none => rfl
        | some O => exact ih (hC.operand hV hO) _
      · cases hO : E.operand V 1 with
        | none => rfl
        | some O => exact ih (hC.operand hV hO) _
      · rfl
      · cases hO : E.operand V 0 with
        | none => rfl
        | some O => exact ih (hC.operand hV hO) _
      · rfl

theorem getGEPLayerTypes (h : Agree E C m m') (hC : E.Closed C) {V : ValPtr} (hV : C V) (ty : ℕ) :
    getGEPLayerTypes E m' V ty = getGEPLayerTypes E m V ty := by
  unfold Mlta.getGEPLayerTypes
  cases hPO : E.operand V 0 with
  | none => rfl
  | some PO =>
    cases E.operand V 1 with
    | none => rfl
    | some idx0 => simp only [h.recoverBaseType PO (hC.operand hV hPO)]

theorem layerStep (h : Agree E C m m') (hC : E.Closed C) {V : ValPtr} (hV : C V) :
    layerStep E m' V = layerStep E m V := by
  unfold Mlta.layerStep
  simp only [h.getGEPLayerTypes hC hV]

theorem nextLayerBaseType (h : Agree E C m m') (hC : E.Closed C) (n : ℕ) {V : ValPtr} (hV : C V)
    (st : LayerState) : nextLayerBaseType E m' n V st = nextLayerBaseType E m n V st := by
  induction n generalizing V st with
  | zero => rfl
  | succ n ih =>
    by_cases hstop : E.isArgument V ∨ V ∈ st.visited
    · rw [nextLayerBaseType_of_stop hstop, nextLayerBaseType_of_stop hstop]
    · rw [nextLayerBaseType_succ hstop, nextLayerBaseType_succ hstop, h.layerStep hC hV]
      exact (layerStep_of V).run_congr fun _ O hO => ih (hC V hV O hO) _

theorem layerLoop (h : Agree E C m m') (hC : E.Closed C) (fuel n : ℕ) {V : ValPtr} (hV : C V)
    {st : LayerState} (hst : LocalLayers E m C st) :
    layerLoop E m' fuel n V st = layerLoop E m fuel n V st := by
  induction n generalizing V st with
  | zero => rfl
  | succ n ih =>
    have hnext := hst.nextLayerBaseType hC fuel hV
    unfold Mlta.layerLoop
    rw [h.nextLayerBaseType hC fuel hV]
    cases hr : Mlta.nextLayerBaseType E m fuel V st with
    | mk ret st' =>
      rw [hr] at hnext
      cases ret with
      | false => rfl
      | true =>
        cases hO : st'.nextV with
        | none => simp [hO]
        | some O => simpa [hO] using ih (hnext.nextV O hO) hnext

theorem baseTypeChain (h : Agree E C m m') (hC : E.Closed C) {V : ValPtr} (hV : C V) :
    baseTypeChain E m' V = baseTypeChain E m V := by
  unfold Mlta.baseTypeChain
  dsimp only
  rw [h.getBaseType hC _ hV, h.layerLoop hC _ _ hV ⟨by simp, by simp⟩]

end Agree

end Mlta

end Cisa

import Cisa.CallGraph.Layers

/-!
# One step of the enumeration of layers

At a value that it visits, `nextLayerBaseType` appends the layers of a GEP, goes on at an
operand, tries the incoming values of a phi, or stops. Which of these it does depends on the
value only.
-/

namespace Cisa

open Std

theorem Env.kind_of_instOpcode (E : Env) {V : ValPtr} {op : Opcode}
    (h : E.instOpcode V = some op) : (E.value V).kind = .instruction op := by
  unfold instOpcode at h
  split at h
  · rename_i op' hkind
    rw [hkind, Option.some.inj h]
  · simp at h

theorem Env.opcode_of_instOpcode (E : Env) {V : ValPtr} {op : Opcode}
    (h : E.instOpcode V = some op) : E.opcode V = some op := by
  unfold opcode
  rw [E.kind_of_instOpcode h]

namespace Mlta

/-- What `nextLayerBaseType` does at a value that it visits. -/
inductive LayerStep
  | append (layers : List TypeIdx)
  | follow (O : ValPtr)
  | phis
  | stop

def LayerStep.ofOperand (O : Option ValPtr) : LayerStep := (O.map LayerStep.follow).getD .stop

variable (E : Env) (m : Mlta)

/-- The opcode of the value decides. -/
def layerStep (V : ValPtr) : LayerStep :=
  match E.opcode V, E.instOpcode V with
  | some (.gep sourceElementType), _ =>
    match getGEPLayerTypes E m V sourceElementType with
    | [] => .stop
    | layers => .append layers
  | some .bitCast, _ => .ofOperand (E.operand V 0)
  | _, some .load => .ofOperand (E.operand V 0)
  | _, some .phi => .phis
  | _, some .select => .ofOperand (E.operand V 1)
  | _, some .unary => .ofOperand (E.operand V 0)
  | _, _ => .stop

/-- The step from `st`, with the walk from an operand in `rec`. -/
def LayerStep.run (rec : ValPtr → LayerState → Bool × LayerState) (V : ValPtr) (st : LayerState) :
    LayerStep → Bool × LayerState
  | .append layers => (true, { st with tyList := st.tyList ++ layers, nextV := E.operand V 0 })
  | .follow O => rec O { st with nextV := some O }
  | .phis =>
    phiLayers rec st (E.operands V) (false, { tyList := [], nextV := st.nextV, visited := ∅ })
  | .stop => (false, { st with nextV := none })

variable {E m} {V O : ValPtr} {st : LayerState} {layers : List TypeIdx}

theorem nextLayerBaseType_of_stop (h : E.isArgument V ∨ V ∈ st.visited) (n : ℕ) :
    nextLayerBaseType E m n V st = (false, { st with nextV := some V }) := by
  cases n with
  | zero => rfl
  | succ n =>
    unfold nextLayerBaseType
    rw [if_pos h]

theorem nextLayerBaseType_succ (h : ¬(E.isArgument V ∨ V ∈ st.visited)) (n : ℕ) :
    nextLayerBaseType E m (n + 1) V st = (layerStep E m V).run E (nextLayerBaseType E m n) V
      { st with visited := st.visited.insert V } := by
  unfold nextLayerBaseType layerStep
  rw [if_neg h]
  dsimp only
  cases hinst : E.instOpcode V with
  | some op =>
    rw [E.opcode_of_instOpcode hinst]
    cases op with
    | gep T => cases hlayers : getGEPLayerTypes E m V T <;> simp only [hlayers] <;> rfl
    | bitCast => cases E.operand V 0 <;> rfl
    | load => cases E.operand V 0 <;> rfl
    | select => cases E.operand V 1 <;> rfl
    | unary => cases E.operand V 0 <;> rfl
    | _ => rfl
  | none =>
    cases E.opcode V with
    | none => rfl
    | some op =>
      cases op with
      | gep T => cases hlayers : getGEPLayerTypes E m V T <;> simp only [hlayers] <;> rfl
      | bitCast => cases E.operand V 0 <;> rfl
      | _ => rfl

/-- The steps that a value can take. -/
inductive LayerStep.Of (E : Env) (m : Mlta) (V : ValPtr) : LayerStep → Prop
  | append {T : ℕ} (hop : E.opcode V = some (.gep T)) (hne : getGEPLayerTypes E m V T ≠ []) :
      Of E m V (.append (getGEPLayerTypes E m V T))
  | follow {O : ValPtr} (hop : E.opcode V ≠ none) (hO : O ∈ E.operands V) : Of E m V (.follow O)
  | phis (hop : E.instOpcode V = some .phi) : Of E m V .phis
  | stop : Of E m V .stop

theorem LayerStep.of_ofOperand (hop : E.opcode V ≠ none) (i : ℕ) :
    LayerStep.Of E m V (.ofOperand (E.operand V i)) := by
  cases hO : E.operand V i with
  | none => exact .stop
  | some O => exact .follow hop (List.mem_of_getElem? hO)

theorem layerStep_of (V : ValPtr) : (layerStep E m V).Of E m V := by
  have hinst {op : Opcode} (h : E.instOpcode V = some op) : E.opcode V ≠ none := by
    simp [E.opcode_of_instOpcode h]
  unfold layerStep
  split
  · rename_i hop
    split
    · exact .stop
    · rename_i hne
      exact .append hop hne
  · rename_i hop
    exact LayerStep.of_ofOperand (by simp [hop]) 0
  · rename_i hop _ _
    exact LayerStep.of_ofOperand (hinst hop) 0
  · rename_i hop _ _
    exact .phis hop
  · rename_i hop _ _
    exact LayerStep.of_ofOperand (hinst hop) 1
  · rename_i hop _ _
    exact LayerStep.of_ofOperand (hinst hop) 0
  · exact .stop

theorem phiLayers_congr {rec rec' : ValPtr → LayerState → Bool × LayerState} {st : LayerState}
    {IVs : List ValPtr}
    (hrec : ∀ V ∈ IVs, rec V { st with nextV := some V } = rec' V { st with nextV := some V })
    (acc : Bool × LayerState) : phiLayers rec st IVs acc = phiLayers rec' st IVs acc := by
  induction IVs generalizing acc with
  | nil => rfl
  | cons IV rest ih =>
    unfold phiLayers
    rw [hrec IV List.mem_cons_self]
    dsimp only
    rw [ih (fun V hV => hrec V (List.mem_cons_of_mem _ hV))]

/-- A step depends on the walks from the operands. -/
theorem LayerStep.Of.run_congr {step : LayerStep} (h : step.Of E m V)
    {rec rec' : ValPtr → LayerState → Bool × LayerState}
    (hrec : E.opcode V ≠ none → ∀ O ∈ E.operands V,
      rec O { st with nextV := some O } = rec' O { st with nextV := some O }) :
    step.run E rec V st = step.run E rec' V st := by
  cases h with
  | append _ _ => rfl
  | follow hop hO => exact hrec hop _ hO
  | phis hop =>
    have hsome : E.opcode V ≠ none := by simp [E.opcode_of_instOpcode hop]
    exact phiLayers_congr (hrec hsome) _
  | stop => rfl

theorem layerStep_of_load (h : E.instOpcode V = some .load) :
    layerStep E m V = .ofOperand (E.operand V 0) := by
  unfold layerStep
  rw [E.opcode_of_instOpcode h, h]

end Mlta

end Cisa

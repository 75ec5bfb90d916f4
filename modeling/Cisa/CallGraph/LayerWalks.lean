import Cisa.CallGraph.FirstWalk

/-!
# The enumeration of layers ends, and only appends

`nextLayerBaseType` and the loop of `getBaseTypeChain` are run here with a budget whose
exhaustion shows in the result. The visited set makes the number of values of the module a
budget that suffices, whatever has been visited before. Every round of the loop that appends
something appends the layers of a GEP that has not been visited.
-/

namespace Cisa

open Std

namespace Mlta

variable (E : Env) (m : Mlta)

def phiLayers? (rec : ValPtr → LayerState → Option (Bool × LayerState)) (st : LayerState) :
    List ValPtr → Bool × LayerState → Option (Bool × LayerState)
  | [], acc => some acc
  | IV :: rest, _ =>
    match rec IV { st with nextV := some IV } with
    | none => none
    | some r => if st.tyList.length < r.2.tyList.length then some r else phiLayers? rec st rest r

def nextLayerBaseType? : ℕ → ValPtr → LayerState → Option (Bool × LayerState)
  | 0, _, _ => none
  | n + 1, V, st =>
    if E.isArgument V ∨ V ∈ st.visited then some (false, { st with nextV := some V })
    else
      let st := { st with visited := st.visited.insert V }
      let follow := fun (O : Option ValPtr) =>
        match O with
        | some O => nextLayerBaseType? n O { st with nextV := some O }
        | none => some (false, { st with nextV := none })
      match E.opcode V, E.instOpcode V with
      | some (.gep sourceElementType), _ =>
        match getGEPLayerTypes E m V sourceElementType with
        | [] => some (false, { st with nextV := none })
        | layers => some (true, { st with tyList := st.tyList ++ layers, nextV := E.operand V 0 })
      | some .bitCast, _ => follow (E.operand V 0)
      | _, some .load => follow (E.operand V 0)
      | _, some .phi =>
        phiLayers? (nextLayerBaseType? n) st (E.operands V)
          (false, { tyList := [], nextV := st.nextV, visited := ∅ })
      | _, some .select => follow (E.operand V 1)
      | _, some .unary => follow (E.operand V 0)
      | _, _ => some (false, { st with nextV := none })

/-- `layerLoop`; `none` is an exhausted budget, of the loop or of a walk. -/
def layerLoop? (fuel : ℕ) : ℕ → ValPtr → LayerState → Option LayerState
  | 0, _, _ => none
  | n + 1, CV, st =>
    match nextLayerBaseType? E m fuel CV st with
    | none => none
    | some (true, st) =>
      match st.nextV with
      | some NextV => layerLoop? fuel n NextV st
      | none => some st
    | some (false, st) => some st

/-- The step from `st`, with the walks from the operands in `rec`. -/
def LayerStep.run? (rec : ValPtr → LayerState → Option (Bool × LayerState)) (V : ValPtr)
    (st : LayerState) : LayerStep → Option (Bool × LayerState)
  | .append layers => some (true, { st with tyList := st.tyList ++ layers, nextV := E.operand V 0 })
  | .follow O => rec O { st with nextV := some O }
  | .phis =>
    phiLayers? rec st (E.operands V) (false, { tyList := [], nextV := st.nextV, visited := ∅ })
  | .stop => some (false, { st with nextV := none })

variable {E m}

theorem nextLayerBaseType?_succ {V : ValPtr} {st : LayerState}
    (h : ¬(E.isArgument V ∨ V ∈ st.visited)) (n : ℕ) :
    nextLayerBaseType? E m (n + 1) V st = (layerStep E m V).run? E (nextLayerBaseType? E m n) V
      { st with visited := st.visited.insert V } := by
  unfold nextLayerBaseType? layerStep
  rw [if_neg h]
  dsimp only
  cases hinst : E.instOpcode V with
  | some op =>
    rw [E.opcode_of_instOpcode hinst]
    cases op with
    | gep T => cases hlayers : getGEPLayerTypes E m V T <;> simp only [hlayers] <;> rfl
    | bitCast => cases E.operand V 0 <;> rfl
    | load => cases E.operand V 0 <;> rfl
    | select => cases E.operand V 1 <;> rfl
    | unary => cases E.operand V 0 <;> rfl
    | _ => rfl
  | none =>
    cases E.opcode V with
    | none => rfl
    | some op =>
      cases op with
      | gep T => cases hlayers : getGEPLayerTypes E m V T <;> simp only [hlayers] <;> rfl
      | bitCast => cases E.operand V 0 <;> rfl
      | _ => rfl

theorem phiLayers?_eq {rec? : ValPtr → LayerState → Option (Bool × LayerState)}
    {rec : ValPtr → LayerState → Bool × LayerState} {st : LayerState} {IVs : List ValPtr}
    (hrec : ∀ V ∈ IVs,
      rec? V { st with nextV := some V } = some (rec V { st with nextV := some V }))
    (acc : Bool × LayerState) : phiLayers? rec? st IVs acc = some (phiLayers rec st IVs acc) := by
  induction IVs generalizing acc with
  | nil => rfl
  | cons IV rest ih =>
    unfold phiLayers? phiLayers
    rw [hrec IV List.mem_cons_self]
    dsimp only
    rw [ih fun V hV => hrec V (List.mem_cons_of_mem _ hV)]
    split_ifs <;> rfl

theorem LayerStep.Of.run?_eq {step : LayerStep} {V : ValPtr} (h : step.Of E m V)
    {rec? : ValPtr → LayerState → Option (Bool × LayerState)}
    {rec : ValPtr → LayerState → Bool × LayerState} {st : LayerState}
    (hrec : E.opcode V ≠ none → ∀ O ∈ E.operands V,
      rec? O { st with nextV := some O } = some (rec O { st with nextV := some O })) :
    step.run? E rec? V st = some (step.run E rec V st) := by
  cases h with
  | append _ _ => rfl
  | follow hop hO => exact hrec hop _ hO
  | phis hop =>
    have hsome : E.opcode V ≠ none := by simp [E.opcode_of_instOpcode hop]
    exact phiLayers?_eq (hrec hsome) _
  | stop => rfl

/-- A budget above the number of values that are still to be visited suffices. -/
theorem nextLayerBaseType?_eq {n : ℕ} {V : ValPtr} {st : LayerState}
    (hn : unvisited E V.mod st.visited < n) :
    nextLayerBaseType? E m n V st = some (nextLayerBaseType E m n V st) := by
  induction n generalizing V st with
  | zero => omega
  | succ n ih =>
    by_cases hstop : E.isArgument V ∨ V ∈ st.visited
    · unfold nextLayerBaseType? nextLayerBaseType
      rw [if_pos hstop, if_pos hstop]
    · have hnew : V ∉ st.visited := fun hV => hstop (Or.inr hV)
      rw [nextLayerBaseType?_succ hstop, nextLayerBaseType_succ hstop]
      refine (layerStep_of V).run?_eq fun hop O hO => ?_
      have hlt := unvisited_insert hop hnew
      apply ih
      rw [E.mod_of_mem_operands hO]
      show unvisited E V.mod (st.visited.insert V) < n
      omega

variable (E m) in
/-- The layers that a value contributes to a chain: those of a GEP. -/
def gepLayers (V : ValPtr) : List TypeIdx :=
  match E.opcode V with
  | some (.gep sourceElementType) => getGEPLayerTypes E m V sourceElementType
  | _ => []

variable (E m) in
/-- The walk from `st` has come to the GEP `V`, appended its layers and goes on at its
pointer operand. -/
structure AppendedAt (st st' : LayerState) (V : ValPtr) : Prop where
  gep : ∃ T, E.opcode V = some (.gep T)
  new : V ∉ st.visited
  old : V ∈ st'.visited
  layers : gepLayers E m V ≠ []
  tyList : st'.tyList = st.tyList ++ gepLayers E m V
  nextV : st'.nextV = E.operand V 0

variable (E m) in
/-- What a walk in a module can do: append nothing and return false, or append the layers of
one GEP and return true. -/
structure Walked (M : ModPtr) (st : LayerState) (r : Bool × LayerState) : Prop where
  visited : ∀ V ∈ st.visited, V ∈ r.2.visited
  appended : (r.1 = false ∧ r.2.tyList = st.tyList) ∨
    (r.1 = true ∧ ∃ V, V.mod = M ∧ AppendedAt E m st r.2 V)

variable {M : ModPtr} {st st' : LayerState} {r : Bool × LayerState}

theorem Walked.stay (hvisited : ∀ V ∈ st.visited, V ∈ st'.visited)
    (hty : st'.tyList = st.tyList) : Walked E m M st (false, st') :=
  ⟨hvisited, Or.inl ⟨rfl, hty⟩⟩

theorem Walked.from (h : Walked E m M st' r) (hvisited : ∀ V ∈ st.visited, V ∈ st'.visited)
    (hty : st'.tyList = st.tyList) : Walked E m M st r := by
  refine ⟨fun V hV => h.visited V (hvisited V hV), ?_⟩
  rcases h.appended with ⟨hfalse, hsame⟩ | ⟨htrue, V, hV, happ⟩
  · exact Or.inl ⟨hfalse, hsame.trans hty⟩
  · refine Or.inr ⟨htrue, V, hV, happ.gep, fun hold => happ.new (hvisited V hold), happ.old,
      happ.layers, ?_, happ.nextV⟩
    rw [happ.tyList, hty]

theorem walked_phiLayers {rec : ValPtr → LayerState → Bool × LayerState} {IVs : List ValPtr}
    (hrec : ∀ V ∈ IVs, Walked E m M st (rec V { st' with nextV := some V }))
    {acc : Bool × LayerState} (hacc : IVs = [] → Walked E m M st acc) :
    Walked E m M st (phiLayers rec st' IVs acc) := by
  induction IVs generalizing acc with
  | nil => exact hacc rfl
  | cons IV rest ih =>
    have hone := hrec IV List.mem_cons_self
    unfold phiLayers
    dsimp only
    split_ifs
    · exact hone
    · exact ih (fun V hV => hrec V (List.mem_cons_of_mem _ hV)) fun _ => hone

theorem walked_nextLayerBaseType
    (hphis : ∀ v ∈ (E.module M).values, v.kind = .instruction .phi → v.operands ≠ []) (n : ℕ)
    {V : ValPtr} (hV : V.mod = M) (st : LayerState) :
    Walked E m M st (nextLayerBaseType E m n V st) := by
  induction n generalizing V st with
  | zero => exact Walked.stay (fun W hW => hW) rfl
  | succ n ih =>
    by_cases hstop : E.isArgument V ∨ V ∈ st.visited
    · rw [nextLayerBaseType_of_stop hstop]
      exact Walked.stay (fun W hW => hW) rfl
    · have hnew : V ∉ st.visited := fun hV => hstop (Or.inr hV)
      have hgrows : ∀ W ∈ st.visited, W ∈ st.visited.insert V := fun W hW => by simp [hW]
      have hrec : ∀ O ∈ E.operands V, Walked E m M st (nextLayerBaseType E m n O
          { st with visited := st.visited.insert V, nextV := some O }) := by
        intro O hO
        have hmod : O.mod = M := (E.mod_of_mem_operands hO).trans hV
        exact (ih hmod _).from hgrows rfl
      rw [nextLayerBaseType_succ hstop]
      have hstep := layerStep_of (E := E) (m := m) V
      generalize layerStep E m V = step at hstep ⊢
      cases hstep with
      | @append T hop hne =>
        have hlayers : gepLayers E m V = getGEPLayerTypes E m V T := by
          rw [gepLayers, hop]
        refine ⟨hgrows, Or.inr ⟨rfl, V, hV, ⟨T, hop⟩, hnew, by simp [LayerStep.run], ?_, ?_, rfl⟩⟩
        · rw [hlayers]
          exact hne
        · rw [hlayers]
          rfl
      | follow _ hO => exact hrec _ hO
      | phis hop =>
        subst hV
        exact walked_phiLayers hrec fun hnil => absurd hnil (E.operands_of_phi hphis hop)
      | stop => exact Walked.stay hgrows rfl

variable (E m) in
/-- What the loop of `getBaseTypeChain` does in a module: it appends the layers of GEPs that
had not been visited, each once. -/
structure Looped (st st' : LayerState) (GEPs : List ValPtr) : Prop where
  nodup : GEPs.Nodup
  gep : ∀ V ∈ GEPs, ∃ T, E.opcode V = some (.gep T)
  new : ∀ V ∈ GEPs, V ∉ st.visited
  tyList : st'.tyList = st.tyList ++ GEPs.flatMap (gepLayers E m)

theorem Looped.stay (hty : st'.tyList = st.tyList) : Looped E m st st' [] :=
  ⟨List.nodup_nil, by simp, by simp, by simp [hty]⟩

theorem Looped.step {V : ValPtr} {st'' : LayerState} {GEPs : List ValPtr}
    (hwalk : AppendedAt E m st st' V) (hvisited : ∀ W ∈ st.visited, W ∈ st'.visited)
    (h : Looped E m st' st'' GEPs) : Looped E m st st'' (V :: GEPs) where
  nodup := List.nodup_cons.mpr ⟨fun hV => h.new V hV hwalk.old, h.nodup⟩
  gep := List.forall_mem_cons.mpr ⟨hwalk.gep, h.gep⟩
  new := List.forall_mem_cons.mpr ⟨hwalk.new, fun W hW hold => h.new W hW (hvisited W hold)⟩
  tyList := by rw [h.tyList, hwalk.tyList, List.flatMap_cons, List.append_assoc]

theorem AppendedAt.unvisited_lt {V : ValPtr} (h : AppendedAt E m st st' V)
    (hvisited : ∀ W ∈ st.visited, W ∈ st'.visited) :
    unvisited E V.mod st'.visited < unvisited E V.mod st.visited := by
  obtain ⟨T, hop⟩ := h.gep
  have hlt := unvisited_insert (E := E) (by simp [hop]) h.new
  have hle : unvisited E V.mod st'.visited ≤ unvisited E V.mod (st.visited.insert V) := by
    apply unvisited_le
    intro W hW
    rw [ExtTreeSet.mem_insert, LawfulEqCmp.compare_eq_iff_eq] at hW
    rcases hW with rfl | hW
    · exact h.old
    · exact hvisited W hW
  exact Nat.lt_of_le_of_lt hle hlt

/-- Whatever has been visited, a walk from a value ends within the budget of its module. -/
theorem nextLayerBaseType?_valueFuel (V : ValPtr) (st : LayerState) :
    nextLayerBaseType? E m (valueFuel E V) V st =
      some (nextLayerBaseType E m (valueFuel E V) V st) := by
  have hempty := unvisited_empty_lt (E := E) V
  have hle : unvisited E V.mod st.visited ≤ unvisited E V.mod ∅ :=
    unvisited_le fun W hW => absurd hW ExtTreeSet.not_mem_empty
  exact nextLayerBaseType?_eq (Nat.lt_of_le_of_lt hle hempty)

theorem layerLoop?_spec
    (hphis : ∀ v ∈ (E.module M).values, v.kind = .instruction .phi → v.operands ≠ []) (n : ℕ)
    {V : ValPtr} (hV : V.mod = M) {st : LayerState} (hn : unvisited E M st.visited < n) :
    layerLoop? E m (valueFuel E V) n V st = some (layerLoop E m (valueFuel E V) n V st) ∧
      ∃ GEPs, Looped E m st (layerLoop E m (valueFuel E V) n V st) GEPs := by
  induction n generalizing V st with
  | zero => omega
  | succ n ih =>
    have hwalked := walked_nextLayerBaseType (m := m) hphis (valueFuel E V) hV st
    unfold layerLoop? layerLoop
    rw [nextLayerBaseType?_valueFuel]
    rcases hr : nextLayerBaseType E m (valueFuel E V) V st with ⟨ret, st'⟩
    rw [hr] at hwalked
    obtain ⟨hvisited, ⟨rfl, hty⟩ | ⟨rfl, W, hW, hwalk⟩⟩ := hwalked
    · exact ⟨rfl, [], Looped.stay hty⟩
    · cases hO : st'.nextV with
      | none => exact ⟨by simp [hO], [W], by simpa [hO] using (Looped.stay rfl).step hwalk hvisited⟩
      | some O =>
        have hmod : O.mod = M := (E.mod_of_operand (hwalk.nextV.symm.trans hO)).trans hW
        have hlt : unvisited E M st'.visited < n := by
          have hless := hwalk.unvisited_lt hvisited
          rw [hW] at hless
          exact Nat.lt_of_lt_of_le hless (Nat.le_of_lt_succ hn)
        obtain ⟨hrest, GEPs, hloop⟩ := ih hmod hlt
        have hfuel : valueFuel E O = valueFuel E V := by rw [valueFuel, valueFuel, hmod, hV]
        rw [hfuel] at hrest hloop
        simp only [hO]
        exact ⟨hrest, W :: GEPs, hloop.step hwalk hvisited⟩

/-- The walk to the next layers ends for every graph of values and every visited set; it leaves
the list it was given, followed by the layers of one GEP if it returns true, and then it goes
on at the pointer operand of the GEP. So the loop of `getBaseTypeChain` ends, and every GEP
contributes its layers to a chain at most once. -/
theorem layers_appended_once (V : ValPtr)
    (hphis : ∀ v ∈ (E.module V.mod).values, v.kind = .instruction .phi → v.operands ≠ []) :
    (∀ st, ∃ r, nextLayerBaseType? E m (valueFuel E V) V st = some r ∧
      ∃ layers, r.2.tyList = st.tyList ++ layers ∧ (r.1 = true ↔ layers ≠ []) ∧
        (layers ≠ [] → ∃ GEP T, E.opcode GEP = some (.gep T) ∧
          layers = getGEPLayerTypes E m GEP T ∧ r.2.nextV = E.operand GEP 0)) ∧
    ∃ st, layerLoop? E m (valueFuel E V) (valueFuel E V) V {} = some st ∧
      ∃ GEPs : List ValPtr, GEPs.Nodup ∧ (∀ GEP ∈ GEPs, ∃ T, E.opcode GEP = some (.gep T)) ∧
        st.tyList = GEPs.flatMap (gepLayers E m) ∧
        (baseTypeChain E m V).1 =
          ((getBaseType E m (valueFuel E V) V ∅).1.map fun BTy => (BTy, (0 : ℤ))).toList ++
            GEPs.flatMap (gepLayers E m) := by
  constructor
  · intro st
    refine ⟨_, nextLayerBaseType?_valueFuel V st, ?_⟩
    rcases (walked_nextLayerBaseType (m := m) hphis (valueFuel E V) rfl st).appended with
      ⟨hfalse, hty⟩ | ⟨htrue, GEP, _, hwalk⟩
    · exact ⟨[], by simp [hty], by simp [hfalse], by simp⟩
    · obtain ⟨T, hop⟩ := hwalk.gep
      refine ⟨gepLayers E m GEP, hwalk.tyList, by simp [htrue, hwalk.layers], fun _ => ?_⟩
      exact ⟨GEP, T, hop, by rw [gepLayers, hop], hwalk.nextV⟩
  · have hstart : unvisited E V.mod ({} : LayerState).visited < valueFuel E V :=
      unvisited_empty_lt V
    obtain ⟨hends, GEPs, hloop⟩ := layerLoop?_spec (m := m) hphis (valueFuel E V) rfl hstart
    have hty := hloop.tyList
    rw [List.nil_append] at hty
    refine ⟨_, hends, GEPs, hloop.nodup, hloop.gep, hty, ?_⟩
    rw [baseTypeChain]
    cases (getBaseType E m (valueFuel E V) V ∅).1 <;> simp [hty]

/-- Two phis that feed each other, one of them through a GEP. -/
def cyclicPhis : Env := Env.ofModules [
  { values := [
      { kind := .instruction .phi, operands := [1, 2] },
      { kind := .instruction .phi, operands := [0, 3] },
      { kind := .instruction (.gep 0), operands := [1, 4, 4] },
      { kind := .instruction .load, operands := [0] },
      { kind := .constantInt 0 }]
    types := [{ kind := .struct none false [1], printed := "%struct.s" },
              { kind := .other 12, printed := "i64" }]
    functions := []
    names_nodup := by decide
    functions_listed := by decide }]

theorem layers_appended_once_cyclicPhis :
    ∃ st, layerLoop? cyclicPhis {} 6 6 ⟨0, 0⟩ {} = some st ∧
      ∃ GEPs : List ValPtr, GEPs.Nodup ∧ st.tyList = GEPs.flatMap (gepLayers cyclicPhis {}) := by
  have hphis : ∀ v ∈ (cyclicPhis.module 0).values,
      v.kind = .instruction .phi → v.operands ≠ [] := by decide
  obtain ⟨_, st, hends, GEPs, hnodup, _, hty, _⟩ :=
    layers_appended_once (E := cyclicPhis) (m := {}) ⟨0, 0⟩ hphis
  exact ⟨st, hends, GEPs, hnodup, hty⟩

end Mlta

end Cisa

import Cisa.CallGraph.Chains

/-!
# The type facts as a list of writes

What the analysis of a body or of an initialiser adds to the type facts does not depend on
the facts that are there: on all tables that agree on the names and the aliases it makes
the same writes. `Adds` says so of one operation; it is kept by composition.
-/

namespace Cisa

open Std

namespace Mlta

/-- One insertion into the tables of type facts. -/
inductive Write
  | confine (h : SizeT) (i : ℤ) (F : FuncPtr)
  | escape (hash : SizeT)
  | cap (hash : SizeT)
  | propagate (h : SizeT) (i : ℤ) (p : HashIdx)

def Write.apply (m : Mlta) : Write → Mlta
  | .confine h i F => m.confine h i F
  | .escape hash => m.escape hash
  | .cap hash => m.cap hash
  | .propagate h i p => m.propagate h i p

def write (m : Mlta) (W : List Write) : Mlta := W.foldl Write.apply m

section Write

variable {m : Mlta} {W : List Write}

@[simp] theorem write_nil : write m [] = m := rfl

theorem write_append (V : List Write) : write m (W ++ V) = write (write m W) V := by
  simp [write]

@[simp] theorem names_write : (write m W).elementsStructNameMap = m.elementsStructNameMap := by
  apply Fold.foldl_frame (p := elementsStructNameMap)
  intro m w
  cases w <;> rfl

@[simp] theorem aliases_write : (write m W).aliasStructPtrMap = m.aliasStructPtrMap := by
  apply Fold.foldl_frame (p := aliasStructPtrMap)
  intro m w
  cases w <;> rfl

@[simp] theorem int8_write : (write m W).int8PtrTy = m.int8PtrTy := by
  apply Fold.foldl_frame (p := int8PtrTy)
  intro m w
  cases w <;> rfl

@[simp] theorem matched_write : (write m W).matchedFuncsMap = m.matchedFuncsMap := by
  apply Fold.foldl_frame (p := matchedFuncsMap)
  intro m w
  cases w <;> rfl

theorem mem_slot_write {h : SizeT} {i : ℤ} {F : FuncPtr} :
    F ∈ slot (write m W).typeIdxFuncsMap h i ↔
      F ∈ slot m.typeIdxFuncsMap h i ∨ Write.confine h i F ∈ W := by
  unfold write
  rw [Fold.foldl_or (P := fun m : Mlta => F ∈ slot m.typeIdxFuncsMap h i)
    (Q := fun w => w = Write.confine h i F)]
  · simp
  · intro m w
    cases w <;> simp [Write.apply, Mlta.confine, escape, cap, propagate, or_comm]

theorem mem_typeCapSet_write {hash : SizeT} :
    hash ∈ (write m W).typeCapSet ↔ hash ∈ m.typeCapSet ∨ Write.cap hash ∈ W := by
  unfold write
  rw [Fold.foldl_or (P := fun m : Mlta => hash ∈ m.typeCapSet) (Q := fun w => w = Write.cap hash)]
  · simp
  · intro m w
    cases w <;> simp [Write.apply, confine, escape, Mlta.cap, propagate, or_comm]

theorem mem_typeEscapeSet_write {hash : SizeT} :
    hash ∈ (write m W).typeEscapeSet ↔ hash ∈ m.typeEscapeSet ∨ Write.escape hash ∈ W := by
  unfold write
  rw [Fold.foldl_or (P := fun m : Mlta => hash ∈ m.typeEscapeSet)
    (Q := fun w => w = Write.escape hash)]
  · simp
  · intro m w
    cases w <;> simp [Write.apply, confine, Mlta.escape, cap, propagate, or_comm]

theorem mem_propSlot_write {h : SizeT} {i : ℤ} {p : HashIdx} :
    p ∈ slot (write m W).typeIdxPropMap h i ↔
      p ∈ slot m.typeIdxPropMap h i ∨ Write.propagate h i p ∈ W := by
  unfold write
  rw [Fold.foldl_or (P := fun m : Mlta => p ∈ slot m.typeIdxPropMap h i)
    (Q := fun w => w = Write.propagate h i p)]
  · simp
  · intro m w
    cases w <;> simp [Write.apply, confine, escape, cap, Mlta.propagate, or_comm]

end Write

section Adds

variable {E : Env} {C : ValPtr → Prop} {m : Mlta}

theorem Agree.refl : Agree E C m m := ⟨rfl, fun _ _ => rfl⟩

theorem Agree.write {m' : Mlta} (h : Agree E C m m') (W : List Write) :
    Agree E C m (write m' W) := by
  constructor
  · rw [names_write, h.names]
  · intro V hV
    rw [← h.recoverBaseType V hV]
    unfold Mlta.recoverBaseType
    rw [aliases_write]

/-- On all tables that agree with `m`, the operation makes the same writes. -/
def Adds (E : Env) (C : ValPtr → Prop) (m : Mlta) (op : Mlta → Mlta) : Prop :=
  ∃ W : List Write, ∀ m', Agree E C m m' → op m' = write m' W

theorem Adds.id : Adds E C m fun m' => m' := ⟨[], fun _ _ => rfl⟩

theorem Adds.one (w : Write) : Adds E C m fun m' => w.apply m' := ⟨[w], fun _ _ => rfl⟩

theorem Adds.congr {op op' : Mlta → Mlta} (h : Adds E C m op)
    (heq : ∀ m', Agree E C m m' → op' m' = op m') : Adds E C m op' := by
  obtain ⟨W, hW⟩ := h
  exact ⟨W, fun m' hm' => (heq m' hm').trans (hW m' hm')⟩

theorem Adds.comp {op op' : Mlta → Mlta} (h : Adds E C m op) (h' : Adds E C m op') :
    Adds E C m fun m' => op' (op m') := by
  obtain ⟨W, hW⟩ := h
  obtain ⟨W', hW'⟩ := h'
  refine ⟨W ++ W', fun m' hm' => ?_⟩
  show op' (op m') = _
  rw [hW m' hm', hW' _ (hm'.write W), write_append]

theorem Adds.foldl {α : Type} {f : Mlta → α → Mlta} {l : List α}
    (h : ∀ x ∈ l, Adds E C m fun m' => f m' x) : Adds E C m fun m' => l.foldl f m' := by
  induction l with
  | nil => exact Adds.id
  | cons x l ih =>
    exact (h x List.mem_cons_self).comp (ih fun y hy => h y (List.mem_cons_of_mem _ hy))

theorem Agree.getBaseTypeChain {m' : Mlta} (h : Agree E C m m') (hC : E.Closed C) {V : ValPtr}
    (hV : C V) : (Mlta.getBaseTypeChain E m' V).1 = (Mlta.baseTypeChain E m V).1 ∧
      (Mlta.getBaseTypeChain E m' V).2.1 = (Mlta.baseTypeChain E m V).2 := by
  unfold Mlta.getBaseTypeChain
  dsimp only
  rw [h.baseTypeChain hC hV]
  split <;> simp

theorem adds_getBaseTypeChain (hC : E.Closed C) {V : ValPtr} (hV : C V) :
    Adds E C m fun m' => (getBaseTypeChain E m' V).2.2 := by
  cases hlast : (baseTypeChain E m V).1.getLast? with
  | none =>
    apply Adds.id.congr
    intro m' hm'
    unfold getBaseTypeChain
    simp [hm'.baseTypeChain hC hV, hlast]
  | some last =>
    cases hcomplete : (baseTypeChain E m V).2 with
    | true =>
      apply Adds.id.congr
      intro m' hm'
      unfold getBaseTypeChain
      simp [hm'.baseTypeChain hC hV, hlast, hcomplete]
    | false =>
      apply (Adds.one (Write.cap (typeHash E m last.1))).congr
      intro m' hm'
      unfold getBaseTypeChain
      simp [hm'.baseTypeChain hC hV, hlast, hcomplete, hm'.typeHash, Write.apply]

theorem adds_confineTargetFunction (hC : E.Closed C) {V : ValPtr} (hV : C V) (F : FuncPtr) :
    Adds E C m fun m' => confineTargetFunction E m' V F := by
  by_cases hF : (E.function F).isIntrinsic = true
  · exact Adds.id.congr fun m' _ => by simp [confineTargetFunction, hF]
  · have hchain : Adds E C m fun m' => (baseTypeChain E m V).1.foldl
        (fun m' TI => m'.confine (typeHash E m' TI.1) TI.2 F) m' := by
      apply Adds.foldl
      intro TI _
      exact (Adds.one (Write.confine (typeHash E m TI.1) TI.2 F)).congr fun m' hm' => by
        rw [hm'.typeHash, Write.apply]
    have hlast : Adds E C m fun m' =>
        if (baseTypeChain E m V).2 then m'
        else (baseTypeChain E m V).1.getLast?.elim (m'.cap (E.funcHash F false)) fun last =>
          m'.cap (typeHash E m' last.1) := by
      split_ifs
      · exact Adds.id
      · cases (baseTypeChain E m V).1.getLast? with
        | none => exact Adds.one (Write.cap _)
        | some last =>
          exact (Adds.one (Write.cap (typeHash E m last.1))).congr fun m' hm' => by
            rw [Option.elim_some, hm'.typeHash, Write.apply]
    apply (((adds_getBaseTypeChain hC hV).comp hchain).comp hlast).congr
    intro m' hm'
    obtain ⟨h1, h2⟩ := hm'.getBaseTypeChain hC hV
    cases hend : (baseTypeChain E m V).1.getLast? with
    | none => simp [confineTargetFunction, hF, h1, h2, hend]
    | some last => simp [confineTargetFunction, hF, h1, h2, hend]

theorem adds_escapeType (hC : E.Closed C) {V : ValPtr} (hV : C V) :
    Adds E C m fun m' => escapeType E m' V := by
  have hchain : Adds E C m fun m' => (baseTypeChain E m V).1.foldl
      (fun m' TI => m'.escape (typeIdxHash E m' TI.1 TI.2)) m' := by
    apply Adds.foldl
    intro TI _
    exact (Adds.one (Write.escape (typeIdxHash E m TI.1 TI.2))).congr fun m' hm' => by
      rw [Write.apply, typeIdxHash, typeIdxHash, hm'.names]
  apply ((adds_getBaseTypeChain hC hV).comp hchain).congr
  intro m' hm'
  rw [← (hm'.getBaseTypeChain hC hV).1]
  rfl

theorem adds_propagateType (hC : E.Closed C) {V : ValPtr} (hV : C V) (FromTy : TyPtr) (idx : ℤ) :
    Adds E C m fun m' => propagateType E m' V FromTy idx := by
  have hchain : Adds E C m fun m' => (baseTypeChain E m V).1.foldl
      (fun m' TI =>
        if typeHash E m' TI.1 = typeHash E m' FromTy ∧ TI.2 = idx then m'
        else m'.propagate (typeHash E m' TI.1) TI.2 ⟨typeHash E m' FromTy, idx⟩) m' := by
    apply Adds.foldl
    intro TI _
    by_cases hsame : typeHash E m TI.1 = typeHash E m FromTy ∧ TI.2 = idx
    · exact Adds.id.congr fun m' hm' => by rw [hm'.typeHash, hm'.typeHash, if_pos hsame]
    · exact (Adds.one (Write.propagate (typeHash E m TI.1) TI.2 ⟨typeHash E m FromTy, idx⟩)).congr
        fun m' hm' => by rw [hm'.typeHash, hm'.typeHash, if_neg hsame, Write.apply]
  apply ((adds_getBaseTypeChain hC hV).comp hchain).congr
  intro m' hm'
  rw [← (hm'.getBaseTypeChain hC hV).1]
  rfl

theorem adds_recordContainers (containers : SortedMap ValPtr (ValPtr × ℕ)) (F : FuncPtr) (n : ℕ)
    (CV : ValPtr) (visited : SortedSet ValPtr) :
    Adds E C m fun m' => recordContainers E containers F n CV visited m' := by
  induction n generalizing CV visited with
  | zero => exact Adds.id
  | succ n ih =>
    cases hCV : containers[CV]? with
    | none => exact Adds.id.congr fun m' _ => by simp [recordContainers, hCV]
    | some p =>
      obtain ⟨B, no⟩ := p
      have hrecord : Adds E C m fun m' => (containerHashes E m' B).toList.foldl
          (fun m' h => m'.confine h no F) m' := by
        have hfold : Adds E C m fun m' => (containerHashes E m B).toList.foldl
            (fun m' h => m'.confine h no F) m' :=
          Adds.foldl fun h _ => Adds.one (Write.confine h no F)
        apply hfold.congr
        intro m' hm'
        have hhashes : containerHashes E m' B = containerHashes E m B := by
          unfold containerHashes
          rw [hm'.names, hm'.typeHash]
        rw [hhashes]
      by_cases hB : B ∈ visited.insert CV
      · exact hrecord.congr fun m' _ => by simp only [recordContainers, hCV, hB, if_true]
      · exact (hrecord.comp (ih B (visited.insert CV))).congr fun m' _ => by
          simp only [recordContainers, hCV, hB, if_false]

/-- States of the queue of an initialiser that differ in the tables only, by the tables that
the queue started from. -/
def SameQueue (E : Env) (C : ValPtr → Prop) (m : Mlta)
    (s : {m' : Mlta // Agree E C m m'} → InitState) : Prop :=
  ∃ (W : List Write) (containers : SortedMap ValPtr (ValPtr × ℕ)) (visited : SortedSet ValPtr),
    ∀ m', s m' = ⟨write m'.1 W, containers, visited⟩

section Queue

variable {s : {m' : Mlta // Agree E C m m'} → InitState}

theorem SameQueue.recordFunction (h : SameQueue E C m s) (O : ValPtr) (F : FuncPtr) :
    SameQueue E C m fun m' => recordFunction E (s m') O F := by
  obtain ⟨W, containers, visited, hs⟩ := h
  by_cases hF : (E.function F).isIntrinsic = true
  · exact ⟨W, containers, visited, fun m' => by simp [Mlta.recordFunction, hF, hs]⟩
  · obtain ⟨V, hV⟩ := adds_recordContainers (E := E) (C := C) (m := m) containers F
      (containers.size + 1) O ∅
    refine ⟨W ++ V, containers, visited, fun m' => ?_⟩
    have hrecord := hV _ (m'.2.write W)
    dsimp only at hrecord
    simp only [Mlta.recordFunction, hF, hs, Bool.false_eq_true, if_false, hrecord, write_append]

theorem SameQueue.initCast (h : SameQueue E C m s) (O : ValPtr) :
    ∃ t out, SameQueue E C m t ∧ ∀ m', initCast E (s m') O = (t m', out) := by
  cases hP : E.operand O 0 with
  | none => exact ⟨s, [], h, fun m' => by simp [Mlta.initCast, hP]⟩
  | some P =>
    cases hF : E.dynFunction P with
    | some F => exact ⟨_, [], h.recordFunction O F, fun m' => by simp [Mlta.initCast, hP, hF]⟩
    | none => exact ⟨s, [P], h, fun m' => by simp [Mlta.initCast, hP, hF]⟩

theorem SameQueue.contain (h : SameQueue E C m s) (O U : ValPtr) (no : ℕ) :
    SameQueue E C m fun m' =>
      { s m' with containers := (s m').containers.insert O (U, no) } := by
  obtain ⟨W, containers, visited, hs⟩ := h
  exact ⟨W, containers.insert O (U, no), visited, fun m' => by simp [hs]⟩

theorem SameQueue.cap (h : SameQueue E C m s) (T : TyPtr) :
    SameQueue E C m fun m' => { s m' with mlta := (s m').mlta.cap (typeHash E (s m').mlta T) } := by
  obtain ⟨W, containers, visited, hs⟩ := h
  refine ⟨W ++ [Write.cap (typeHash E m T)], containers, visited, fun m' => ?_⟩
  simp only [hs, write_append, (m'.2.write W).typeHash]
  rfl

theorem SameQueue.initOperand (h : SameQueue E C m s) (U O : ValPtr) (no : ℕ) :
    ∃ t out, SameQueue E C m t ∧ ∀ m', initOperand E U (s m') O no = (t m', out) := by
  have hc := h.contain O U no
  unfold Mlta.initOperand
  dsimp only
  cases E.dynFunction O with
  | some F => exact ⟨_, [], hc.recordFunction O F, fun m' => rfl⟩
  | none =>
    dsimp only
    split_ifs
    · exact ⟨_, [O], hc, fun m' => rfl⟩
    · split
      · exact hc.initCast O
      · exact hc.initCast O
      · split
        · exact ⟨_, [], hc, fun m' => rfl⟩
        · exact ⟨_, [], hc, fun m' => rfl⟩
        · split
          · exact ⟨_, [O], hc.cap _, fun m' => rfl⟩
          · exact ⟨_, [O], hc, fun m' => rfl⟩
        · exact ⟨_, [O], hc, fun m' => rfl⟩

theorem SameQueue.initOperands (h : SameQueue E C m s) (U : ValPtr) (ops : List (ValPtr × ℕ))
    (pushed : List ValPtr) :
    ∃ t out, SameQueue E C m t ∧ ∀ m', initOperands E U ops (s m') pushed = (t m', out) := by
  induction ops generalizing s pushed with
  | nil => exact ⟨s, pushed, h, fun m' => rfl⟩
  | cons o ops ih =>
    obtain ⟨t, out, ht, hone⟩ := h.initOperand U o.1 o.2
    obtain ⟨t', out', ht', hrest⟩ := ih ht (pushed ++ out)
    refine ⟨t', out', ht', fun m' => ?_⟩
    rw [Mlta.initOperands, hone]
    exact hrest m'

theorem SameQueue.initBody (h : SameQueue E C m s) (U : ValPtr) :
    ∃ t out, SameQueue E C m t ∧ ∀ m', initBody E (s m') U = (t m', out) := by
  obtain ⟨W, containers, visited, hs⟩ := h
  by_cases hU : U ∈ visited
  · exact ⟨s, [], ⟨W, containers, visited, hs⟩, fun m' => by simp [Mlta.initBody, hs, hU]⟩
  · have hvisited : SameQueue E C m fun m' =>
        (⟨write m'.1 W, containers, visited.insert U⟩ : InitState) :=
      ⟨W, containers, visited.insert U, fun m' => rfl⟩
    obtain ⟨t, out, ht, hops⟩ := hvisited.initOperands U (E.operands U).zipIdx []
    refine ⟨t, out, ht, fun m' => ?_⟩
    rw [← hops m']
    simp only [Mlta.initBody, hs, hU, if_false]

end Queue

theorem adds_typeConfineInInitializer (GV : ValPtr) :
    Adds E C m fun m' => typeConfineInInitializer E m' GV := by
  cases hIni : E.operand GV 0 with
  | none => exact Adds.id.congr fun m' _ => by simp [typeConfineInInitializer, hIni]
  | some Ini =>
    by_cases hagg : (E.value Ini).kind = .aggregate
    · have hstart : SameQueue E C m fun m' => ({ mlta := m'.1 } : InitState) :=
        ⟨[], ∅, ∅, fun m' => rfl⟩
      rcases Worklist.run_family (initBody E) (K := SameQueue E C m)
        (fun s U hs => hs.initBody U) (initFuel E Ini) [Ini] hstart with hnone | ⟨t, ht, hrun⟩
      · have hsome := initRun_isSome E m Ini
        rw [hnone ⟨m, Agree.refl⟩] at hsome
        simp at hsome
      · obtain ⟨W, containers, visited, hW⟩ := ht
        refine ⟨W, fun m' hm' => ?_⟩
        have hget := hrun ⟨m', hm'⟩
        rw [hW] at hget
        simp only [typeConfineInInitializer, hIni, hagg, if_true, hget, Option.get_some]
    · exact Adds.id.congr fun m' _ => by simp [typeConfineInInitializer, hIni, hagg]

/-- What a call stores into, when it passes a function: the operand itself, or the stores and
casts of the parameter of the callee. -/
def argumentUses (E : Env) (globalFuncMap : SortedMap ℕ FuncPtr) (CI O : ValPtr) (no : ℕ) :
    List ValPtr :=
  if isIndirectCall E CI then [O]
  else match (calledFunction E CI).bind (definitionOf E globalFuncMap) with
    | none => []
    | some CF =>
      match E.getParamByArgNo CF no with
      | none => []
      | some Arg => (E.users Arg).filter fun U => E.instOpcode U == some .store || isBitCast E U

theorem foldl_confine_intrinsic {F : FuncPtr} (hF : (E.function F).isIntrinsic = true)
    (Us : List ValPtr) (m : Mlta) :
    Us.foldl (fun m U => confineTargetFunction E m U F) m = m := by
  induction Us with
  | nil => rfl
  | cons U Us ih =>
    rw [List.foldl_cons, confineTargetFunction, if_pos hF]
    exact ih

theorem confineArgument_eq (g : SortedMap ℕ FuncPtr) (CI : ValPtr) (m : Mlta) (O : ValPtr) (no : ℕ) :
    confineArgument E g CI m O no = match E.dynFunction O with
      | none => m
      | some F => (argumentUses E g CI O no).foldl (fun m U => confineTargetFunction E m U F) m := by
  unfold confineArgument argumentUses
  cases hF : E.dynFunction O with
  | none => rfl
  | some F =>
    dsimp only
    by_cases hintrinsic : (E.function F).isIntrinsic = true
    · rw [if_pos hintrinsic, foldl_confine_intrinsic hintrinsic]
    · rw [if_neg hintrinsic]
      split_ifs
      · rfl
      · cases (calledFunction E CI).bind (definitionOf E g) with
        | none => rfl
        | some CF =>
          cases hArg : E.getParamByArgNo CF no with
          | none => simp [hArg]
          | some Arg => simp [hArg, List.foldl_filter]

/-- The operation for an instruction adds writes, as long as what its calls pass functions to
is in the set. -/
theorem adds_confineArgument (hC : E.Closed C) (g : SortedMap ℕ FuncPtr) (CI O : ValPtr) (no : ℕ)
    (huses : E.dynFunction O ≠ none → ∀ U ∈ argumentUses E g CI O no, C U) :
    Adds E C m fun m' => confineArgument E g CI m' O no := by
  cases hF : E.dynFunction O with
  | none => exact Adds.id.congr fun m' _ => by rw [confineArgument_eq, hF]
  | some F =>
    have hfold : Adds E C m fun m' => (argumentUses E g CI O no).foldl
        (fun m U => confineTargetFunction E m U F) m' :=
      Adds.foldl fun U hU => adds_confineTargetFunction hC (huses (by simp [hF]) U hU) F
    exact hfold.congr fun m' _ => by rw [confineArgument_eq, hF]

theorem adds_confineInst (hC : E.Closed C) (g : SortedMap ℕ FuncPtr) (F : FuncPtr) {I : ValPtr}
    (hI : C I) (huses : ∀ o ∈ (E.operands I).zipIdx, E.dynFunction o.1 ≠ none →
      ∀ U ∈ argumentUses E g I o.1 o.2, C U) :
    Adds E C m fun m' => confineInst E g F m' I := by
  unfold confineInst
  split
  · split
    · rename_i VO PO _ hPO
      split
      · exact Adds.id
      · split_ifs
        · exact Adds.id
        · exact adds_confineTargetFunction hC (hC.operand hI hPO) _
    · exact Adds.id
  · exact Adds.foldl fun o ho => adds_confineArgument hC g I o.1 o.2 (huses o ho)
  · exact Adds.id

theorem copyOperands_within (hC : E.Closed C) {I PO VO : ValPtr} (hI : C I)
    (h : copyOperands E I = some (PO, VO)) : C PO ∧ C VO := by
  unfold copyOperands at h
  split at h
  · obtain ⟨V, hV, h⟩ := Option.bind_eq_some_iff.mp h
    obtain ⟨U, hU, h⟩ := Option.bind_eq_some_iff.mp h
    obtain ⟨rfl, rfl⟩ := Prod.mk.inj (Option.some.inj h)
    exact ⟨hC.operand hI hV, hC.operand hI hU⟩
  · obtain ⟨CF, _, h⟩ := Option.bind_eq_some_iff.mp h
    split_ifs at h
    obtain ⟨V, hV, h⟩ := Option.bind_eq_some_iff.mp h
    obtain ⟨U, hU, h⟩ := Option.bind_eq_some_iff.mp h
    obtain ⟨rfl, rfl⟩ := Prod.mk.inj (Option.some.inj h)
    exact ⟨hC.operand hI hV, hC.operand hI hU⟩
  · simp at h

theorem adds_propInst (hC : E.Closed C) {I : ValPtr} (hI : C I) :
    Adds E C m fun m' => propInst E m' I := by
  cases hcopy : copyOperands E I with
  | none => exact Adds.id.congr fun m' _ => by simp [propInst, hcopy]
  | some p =>
    obtain ⟨PO, VO⟩ := p
    obtain ⟨hPO, hVO⟩ := copyOperands_within hC hI hcopy
    have hread : ∀ m', Agree E C m m' →
        (nextLayerBaseType E m' (valueFuel E VO) VO {}).2.tyList =
          (nextLayerBaseType E m (valueFuel E VO) VO {}).2.tyList ∧
        (getBaseType E m' (valueFuel E VO) VO ∅).1 = (getBaseType E m (valueFuel E VO) VO ∅).1 := by
      intro m' hm'
      rw [hm'.nextLayerBaseType hC _ hVO, hm'.getBaseType hC _ hVO]
      exact ⟨rfl, rfl⟩
    have hprop : ∀ (T : TyPtr) (idx : ℤ), Adds E C m fun m' => propagateType E m' PO T idx :=
      adds_propagateType hC hPO
    by_cases hplain : isPlainConstant E VO = true
    · exact Adds.id.congr fun m' _ => by simp [propInst, hcopy, hplain]
    · cases htys : (nextLayerBaseType E m (valueFuel E VO) VO {}).2.tyList with
      | cons TyIdx rest =>
        have hfold : Adds E C m fun m' => (TyIdx :: rest).foldl
            (fun m' TyIdx => propagateType E m' PO TyIdx.1 TyIdx.2) m' :=
          Adds.foldl fun TI _ => hprop TI.1 TI.2
        exact hfold.congr fun m' hm' => by
          simp [propInst, hcopy, hplain, (hread m' hm').1, htys]
      | nil =>
        cases hBTy : (getBaseType E m (valueFuel E VO) VO ∅).1 with
        | some BTy =>
          exact (hprop BTy (-1)).congr fun m' hm' => by
            simp [propInst, hcopy, hplain, (hread m' hm').1, (hread m' hm').2, htys, hBTy]
        | none =>
          cases hFTy : getFuncPtrType E (E.stripPointerCasts VO) with
          | some FTy =>
            cases hbase : getBaseFunction E (valueFuel E VO) VO with
            | none =>
              exact (hprop FTy (-1)).congr fun m' hm' => by
                simp [propInst, hcopy, hplain, (hread m' hm').1, (hread m' hm').2, htys, hBTy, hFTy,
                  hbase]
            | some F =>
              exact Adds.id.congr fun m' hm' => by
                simp [propInst, hcopy, hplain, (hread m' hm').1, (hread m' hm').2, htys, hBTy, hFTy,
                  hbase]
          | none =>
            by_cases hptr : (E.pointee (E.typeOf VO)).isSome
            · exact (adds_escapeType hC hPO).congr fun m' hm' => by
                simp [propInst, hcopy, hplain, (hread m' hm').1, (hread m' hm').2, htys, hBTy, hFTy,
                  hptr]
            · exact Adds.id.congr fun m' hm' => by
                simp [propInst, hcopy, hplain, (hread m' hm').1, (hread m' hm').2, htys, hBTy, hFTy,
                  hptr]

end Adds

end Mlta

namespace CallGraphPass

open Mlta

theorem adds_initGlobal {E : Env} {C : ValPtr → Prop} {m : Mlta} (GV : ValPtr) :
    Adds E C m fun m' => initGlobal E m' GV := by
  cases hIni : E.operand GV 0 with
  | none => exact Adds.id.congr fun m' _ => by simp [initGlobal, hIni]
  | some Ini =>
    by_cases htype : (E.pointee (E.typeOf Ini)).isSome ∨
        (E.type (E.typeOf Ini)).kind.isComposite = true
    · exact (adds_typeConfineInInitializer GV).congr fun m' _ => by
        simp only [initGlobal, hIni, if_pos htype]
    · exact Adds.id.congr fun m' _ => by simp only [initGlobal, hIni, if_neg htype]

end CallGraphPass

end Cisa

import Cisa.CallGraph.Phases

/-!
# How the type facts grow

Collecting a module only adds to the type facts: functions of the module are recorded
in fields, and caps, escapes and propagations are added. `Grows` lists these writes,
so that a consequence of collecting is proved once, by induction on the writes.
-/

namespace Cisa

open Std

namespace Mlta

/-- The facts have been extended; the recorded functions satisfy `P`. -/
inductive Grows (P : FuncPtr → Prop) (m : Mlta) : Mlta → Prop
  | refl : Grows P m m
  | confine {m' : Mlta} (h : SizeT) (i : ℤ) {F : FuncPtr} (hF : P F) (hm : Grows P m m') :
      Grows P m (m'.confine h i F)
  | escape {m' : Mlta} (hash : SizeT) (hm : Grows P m m') : Grows P m (m'.escape hash)
  | cap {m' : Mlta} (hash : SizeT) (hm : Grows P m m') : Grows P m (m'.cap hash)
  | propagate {m' : Mlta} (h : SizeT) (i : ℤ) (p : HashIdx) (hm : Grows P m m') :
      Grows P m (m'.propagate h i p)
  | aliases {m' : Mlta} (a : SortedMap FuncPtr (SortedMap ValPtr ValPtr)) (hm : Grows P m m') :
      Grows P m { m' with aliasStructPtrMap := a }
  | int8 {m' : Mlta} (a : SortedMap ModPtr TyPtr) (hm : Grows P m m') :
      Grows P m { m' with int8PtrTy := a }

namespace Grows

variable {P : FuncPtr → Prop} {m m' m'' : Mlta}

theorem trans (h1 : Grows P m m') (h2 : Grows P m' m'') : Grows P m m'' := by
  induction h2 with
  | refl => exact h1
  | confine h i hF _ ih => exact ih.confine h i hF
  | escape hash _ ih => exact ih.escape hash
  | cap hash _ ih => exact ih.cap hash
  | propagate h i p _ ih => exact ih.propagate h i p
  | aliases a _ ih => exact ih.aliases a
  | int8 a _ ih => exact ih.int8 a

theorem foldl {α : Type} {f : Mlta → α → Mlta} {l : List α}
    (h : ∀ m, ∀ x ∈ l, Grows P m (f m x)) (m : Mlta) : Grows P m (l.foldl f m) :=
  Fold.foldl_invariant (I := Grows P m) refl fun m' x hx hm => hm.trans (h m' x hx)

theorem mono {Q : FuncPtr → Prop} (hm : Grows P m m') (hPQ : ∀ F, P F → Q F) : Grows Q m m' := by
  induction hm with
  | refl => exact refl
  | confine h i hF _ ih => exact ih.confine h i (hPQ _ hF)
  | escape hash _ ih => exact ih.escape hash
  | cap hash _ ih => exact ih.cap hash
  | propagate h i p _ ih => exact ih.propagate h i p
  | aliases a _ ih => exact ih.aliases a
  | int8 a _ ih => exact ih.int8 a

theorem names (hm : Grows P m m') : m'.elementsStructNameMap = m.elementsStructNameMap := by
  induction hm with
  | refl => rfl
  | _ => assumption

theorem typeCapSet (hm : Grows P m m') {h : SizeT} (hh : h ∈ m.typeCapSet) :
    h ∈ m'.typeCapSet := by
  induction hm with
  | refl => exact hh
  | cap hash _ ih =>
    simp only [Mlta.cap, ExtTreeSet.mem_insert]
    exact Or.inr ih
  | _ => assumption

theorem mem_slot (hm : Grows P m m') {h : SizeT} {i : ℤ} {F : FuncPtr}
    (hF : F ∈ slot m.typeIdxFuncsMap h i) : F ∈ slot m'.typeIdxFuncsMap h i := by
  induction hm with
  | refl => exact hF
  | confine h' i' _ _ ih =>
    simp only [Mlta.confine, mem_slot_addSlot]
    exact Or.inr ih
  | _ => assumption

theorem of_mem_slot (hm : Grows P m m') {h : SizeT} {i : ℤ} {F : FuncPtr}
    (hF : F ∈ slot m'.typeIdxFuncsMap h i) : F ∈ slot m.typeIdxFuncsMap h i ∨
      P F ∧ (⟨h, i⟩ : HashIdx) ∈ m'.funcTypeIdxsMap.row F := by
  induction hm with
  | refl => exact Or.inl hF
  | confine h' i' hG _ ih =>
    simp only [Mlta.confine, mem_slot_addSlot, ExtTreeMap.mem_row_addTo] at hF ⊢
    rcases hF with ⟨rfl, rfl, rfl⟩ | hF
    · exact Or.inr ⟨hG, Or.inl ⟨rfl, rfl⟩⟩
    · rcases ih hF with hF | ⟨hP, hF⟩
      · exact Or.inl hF
      · exact Or.inr ⟨hP, Or.inr hF⟩
  | escape _ _ ih => exact ih hF
  | cap _ _ ih => exact ih hF
  | propagate _ _ _ _ ih => exact ih hF
  | aliases _ _ ih => exact ih hF
  | int8 _ _ ih => exact ih hF

theorem of_mem_funcTypeIdxsMap (hm : Grows P m m') {F : FuncPtr}
    (hF : F ∈ m'.funcTypeIdxsMap) : F ∈ m.funcTypeIdxsMap ∨ P F := by
  induction hm with
  | refl => exact Or.inl hF
  | confine h' i' hG _ ih =>
    simp only [Mlta.confine, ExtTreeMap.mem_addTo] at hF
    rcases hF with rfl | hF
    · exact Or.inr hG
    · exact ih hF
  | escape _ _ ih => exact ih hF
  | cap _ _ ih => exact ih hF
  | propagate _ _ _ _ ih => exact ih hF
  | aliases _ _ ih => exact ih hF
  | int8 _ _ ih => exact ih hF

end Grows

section Collect

variable {E : Env} {M : ModPtr}

theorem mem_functions_of_getBaseFunction {n : ℕ} {V : ValPtr} {F : FuncPtr}
    (h : getBaseFunction E n V = some F) : F ∈ E.functions V.mod := by
  induction n generalizing V with
  | zero => simp [getBaseFunction] at h
  | succ n ih =>
    unfold getBaseFunction at h
    split at h
    · rename_i hG
      split_ifs at h
      rw [← Option.some.inj h]
      exact (E.mem_functions_of_dynFunction hG).2
    · obtain ⟨O, hO, hF⟩ := Option.bind_eq_some_iff.mp h
      rw [← E.mod_of_operand hO]
      exact ih hF
    · simp at h

theorem grows_getBaseTypeChain {P : FuncPtr → Prop} (m : Mlta) (V : ValPtr) :
    Grows P m (getBaseTypeChain E m V).2.2 := by
  unfold getBaseTypeChain
  dsimp only
  split
  · exact Grows.refl.cap _
  · exact Grows.refl

theorem grows_confineTargetFunction {P : FuncPtr → Prop} (m : Mlta) (V : ValPtr) {F : FuncPtr}
    (hF : P F) : Grows P m (confineTargetFunction E m V F) := by
  unfold confineTargetFunction
  split_ifs
  · exact Grows.refl
  · dsimp only
    have hchain := (grows_getBaseTypeChain (E := E) m V).trans
      (Grows.foldl (P := P) (l := (getBaseTypeChain E m V).1)
        (fun m' TI _ => Grows.refl.confine (typeHash E m' TI.1) TI.2 hF) _)
    split
    · exact hchain
    · split
      · exact hchain.cap _
      · exact hchain.cap _

theorem grows_escapeType {P : FuncPtr → Prop} (m : Mlta) (V : ValPtr) :
    Grows P m (escapeType E m V) :=
  (grows_getBaseTypeChain m V).trans (Grows.foldl (fun _ _ _ => Grows.refl.escape _) _)

theorem grows_propagateType {P : FuncPtr → Prop} (m : Mlta) (V : ValPtr) (T : TyPtr) (idx : ℤ) :
    Grows P m (propagateType E m V T idx) := by
  refine (grows_getBaseTypeChain m V).trans (Grows.foldl ?_ _)
  intro m' TI _
  split_ifs
  · exact Grows.refl
  · exact Grows.refl.propagate _ _ _

theorem grows_recordContainers {P : FuncPtr → Prop} (containers : SortedMap ValPtr (ValPtr × ℕ))
    {F : FuncPtr} (hF : P F) (n : ℕ) (CV : ValPtr) (visited : SortedSet ValPtr) (m : Mlta) :
    Grows P m (recordContainers E containers F n CV visited m) := by
  induction n generalizing CV visited m with
  | zero => exact Grows.refl
  | succ n ih =>
    unfold recordContainers
    split
    · exact Grows.refl
    · rename_i C no _
      dsimp only
      have hstep := Grows.foldl (P := P) (f := fun m h => m.confine h no F)
        (l := (containerHashes E m C).toList) (fun _ _ _ => Grows.refl.confine _ _ hF) m
      split_ifs
      · exact hstep
      · exact hstep.trans (ih _ _ _)

theorem grows_recordFunction {P : FuncPtr → Prop} (st : InitState) (O : ValPtr) {F : FuncPtr}
    (hF : P F) : Grows P st.mlta (recordFunction E st O F).mlta := by
  unfold recordFunction
  split_ifs
  · exact Grows.refl
  · exact grows_recordContainers _ hF _ _ _ _

theorem grows_initCast (st : InitState) {O : ValPtr} (hO : O.mod = M) :
    Grows (fun F => F ∈ E.functions M) st.mlta (initCast E st O).1.mlta := by
  unfold initCast
  split
  · exact Grows.refl
  · rename_i P hP
    split
    · rename_i F hF
      apply grows_recordFunction
      rw [← hO, ← E.mod_of_operand hP]
      exact (E.mem_functions_of_dynFunction hF).2
    · exact Grows.refl

theorem grows_initOperand (U : ValPtr) (st : InitState) {O : ValPtr} (no : ℕ) (hO : O.mod = M) :
    Grows (fun F => F ∈ E.functions M) st.mlta (initOperand E U st O no).1.mlta := by
  have hcast := grows_initCast (E := E) { st with containers := st.containers.insert O (U, no) } hO
  unfold initOperand
  dsimp only
  split
  · rename_i F hF
    have hFM : F ∈ E.functions M := hO ▸ (E.mem_functions_of_dynFunction hF).2
    exact grows_recordFunction (P := fun F => F ∈ E.functions M)
      { st with containers := st.containers.insert O (U, no) } O hFM
  · split_ifs
    · exact Grows.refl
    · split
      · exact hcast
      · exact hcast
      · split
        · exact Grows.refl
        · exact Grows.refl
        · split
          · exact Grows.refl.cap _
          · exact Grows.refl
        · exact Grows.refl

theorem grows_initOperands (U : ValPtr) (ops : List (ValPtr × ℕ)) (st : InitState)
    (pushed : List ValPtr) (hops : ∀ o ∈ ops, o.1.mod = M) :
    Grows (fun F => F ∈ E.functions M) st.mlta (initOperands E U ops st pushed).1.mlta := by
  induction ops generalizing st pushed with
  | nil => exact Grows.refl
  | cons o ops ih =>
    have hstep := grows_initOperand (E := E) U st o.2 (hops o List.mem_cons_self)
    exact hstep.trans (ih _ _ fun o' ho' => hops o' (List.mem_cons_of_mem _ ho'))

theorem grows_typeConfineInInitializer (m : Mlta) {GV : ValPtr} (hGV : GV.mod = M) :
    Grows (fun F => F ∈ E.functions M) m (typeConfineInInitializer E m GV) := by
  unfold typeConfineInInitializer
  split
  · exact Grows.refl
  · rename_i Ini hIni
    split_ifs
    · have hrun := Worklist.run_invariant (initBody E)
        (I := fun st q => Grows (fun F => F ∈ E.functions M) m st.mlta ∧ ∀ U ∈ q, U.mod = M) ?_
        (s := { mlta := m }) (q := [Ini]) ?_ (Option.some_get (initRun_isSome E m Ini)).symm
      · exact hrun.1
      · rintro st U q ⟨hm, hq⟩
        have hU := hq U List.mem_cons_self
        have hops : ∀ o ∈ (E.operands U).zipIdx, o.1.mod = M := fun o ho =>
          (E.mod_of_mem_operands (List.fst_mem_of_mem_zipIdx ho)).trans hU
        unfold initBody
        split_ifs
        · refine ⟨hm, fun V hV => hq V (List.mem_cons_of_mem _ ?_)⟩
          simpa using hV
        · obtain ⟨_, _, hpush⟩ := initOperands_spec E U (E.operands U).zipIdx
            { st with visited := st.visited.insert U } []
          have hgrow := grows_initOperands (E := E) U (E.operands U).zipIdx
            { st with visited := st.visited.insert U } [] hops
          refine ⟨hm.trans hgrow, ?_⟩
          intro V hV
          rcases List.mem_append.mp hV with hV | hV
          · exact hq V (List.mem_cons_of_mem _ hV)
          · rcases hpush V hV with hV | ⟨o, ho, rfl | hV⟩
            · simp at hV
            · exact hops o ho
            · exact (E.mod_of_mem_operands hV).trans (hops o ho)
      · refine ⟨Grows.refl, fun U hU => ?_⟩
        rw [List.mem_singleton.mp hU, E.mod_of_operand hIni, hGV]
    · exact Grows.refl

theorem grows_confineArgument (g : SortedMap ℕ FuncPtr) (CI : ValPtr) (m : Mlta) {O : ValPtr}
    (no : ℕ) (hO : O.mod = M) :
    Grows (fun F => F ∈ E.functions M) m (confineArgument E g CI m O no) := by
  unfold confineArgument
  split
  · exact Grows.refl
  · rename_i F hF
    have hFM : F ∈ E.functions M := hO ▸ (E.mem_functions_of_dynFunction hF).2
    split_ifs
    · exact Grows.refl
    · exact grows_confineTargetFunction m O hFM
    · split
      · exact Grows.refl
      · split
        · exact Grows.refl
        · refine Grows.foldl ?_ m
          intro m' U _
          split_ifs
          · exact grows_confineTargetFunction m' U hFM
          · exact Grows.refl

theorem grows_confineInst (g : SortedMap ℕ FuncPtr) (F : FuncPtr) (m : Mlta) {I : ValPtr}
    (hI : I.mod = M) : Grows (fun F => F ∈ E.functions M) m (confineInst E g F m I) := by
  unfold confineInst
  split
  · split
    · rename_i VO PO hVO _
      split
      · exact Grows.refl
      · rename_i CF hCF
        split_ifs
        · exact Grows.refl
        · apply grows_confineTargetFunction
          rw [← hI, ← E.mod_of_operand hVO, ← E.mod_stripPointerCasts]
          exact mem_functions_of_getBaseFunction hCF
    · exact Grows.refl
  · refine Grows.foldl ?_ m
    intro m' o ho
    apply grows_confineArgument
    rw [E.mod_of_mem_operands (List.fst_mem_of_mem_zipIdx ho), hI]
  · exact Grows.refl

theorem grows_propInst {P : FuncPtr → Prop} (m : Mlta) (I : ValPtr) :
    Grows P m (propInst E m I) := by
  unfold propInst
  split
  · exact Grows.refl
  · split
    · exact Grows.refl
    · split
      · exact Grows.foldl (fun m' TI _ => grows_propagateType m' _ _ _) m
      · split
        · exact grows_propagateType m _ _ _
        · split
          · exact grows_propagateType m _ _ _
          · exact Grows.refl
        · split_ifs
          · exact grows_escapeType m _
          · exact Grows.refl

end Collect

section Invalidate

variable {E : Env}

theorem slot_insert {ν : Type} [Ord ν] {m : SortedMap SizeT (SortedMap ℤ (SortedSet ν))}
    {h h' : SizeT} {i : ℤ} {fields : SortedMap ℤ (SortedSet ν)} :
    slot (m.insert h fields) h' i = if h = h' then fields.row i else slot m h' i := by
  unfold slot
  by_cases hh : h = h'
  · simp [hh]
  · simp [ExtTreeMap.getD_insert, hh]

theorem slot_erase {ν : Type} [Ord ν] [TransOrd ν] [LawfulEqOrd ν]
    {m : SortedMap SizeT (SortedMap ℤ (SortedSet ν))} {h h' : SizeT} {i : ℤ} :
    slot (m.erase h) h' i = if h = h' then ∅ else slot m h' i := by
  unfold slot
  by_cases hh : h = h'
  · subst hh
    simp
  · simp [ExtTreeMap.getD_erase, hh]

/-- The clean-up of empty sets and rows does not show in the fields. -/
theorem mem_slot_eraseSlot {m : SortedMap SizeT (SortedMap ℤ FuncSet)} {F G : FuncPtr} {p : HashIdx}
    {h : SizeT} {i : ℤ} : G ∈ slot (eraseSlot m F p) h i ↔
      G ∈ slot m h i ∧ ¬ (p = ⟨h, i⟩ ∧ F = G) := by
  obtain ⟨h', i'⟩ := p
  set fields := (m.getD h' ∅).eraseFrom i' F with hfields
  have hrow : ∀ j, G ∈ fields.row j ↔ ¬ (i' = j ∧ F = G) ∧ G ∈ slot m h' j := fun j =>
    ExtTreeMap.mem_row_eraseFrom
  have hslot : G ∈ slot (eraseSlot m F ⟨h', i'⟩) h i ↔
      if h' = h then G ∈ fields.row i else G ∈ slot m h i := by
    unfold eraseSlot
    dsimp only
    rw [← hfields]
    by_cases hh : h' = h
    · rw [if_pos hh]
      split_ifs with hempty hall
      · rw [slot_erase, if_pos hh]
        have hnone : fields.row i = ∅ := by
          by_cases hi : i' = i
          · rw [← hi, hempty]
          · have herase : (fields.erase i').row i = ∅ := by rw [hall, ExtTreeMap.row_empty]
            rw [← herase]
            simp [ExtTreeMap.row, ExtTreeMap.getD_erase, hi]
        rw [hnone]
      · rw [slot_insert, if_pos hh, ExtTreeMap.mem_row_erase]
        constructor
        · exact And.right
        · intro hG
          refine ⟨?_, hG⟩
          rintro rfl
          rw [hempty] at hG
          exact ExtTreeSet.not_mem_empty hG
      · rw [slot_insert, if_pos hh]
    · rw [if_neg hh]
      split_ifs
      · rw [slot_erase, if_neg hh]
      · rw [slot_insert, if_neg hh]
      · rw [slot_insert, if_neg hh]
  rw [hslot]
  split_ifs with hh
  · subst hh
    rw [hrow]
    simp only [HashIdx.mk.injEq, true_and]
    tauto
  · simp [hh]

theorem mem_slot_invalidateFunction {m : Mlta} {F G : FuncPtr} {h : SizeT} {i : ℤ} :
    G ∈ slot (invalidateFunction m F).typeIdxFuncsMap h i ↔ G ∈ slot m.typeIdxFuncsMap h i ∧
      ¬ (F = G ∧ (⟨h, i⟩ : HashIdx) ∈ m.funcTypeIdxsMap.row G) := by
  unfold invalidateFunction
  cases hF : m.funcTypeIdxsMap[F]? with
  | none =>
    have hrow : m.funcTypeIdxsMap.row F = ∅ := ExtTreeMap.row_of_getElem?_none hF
    constructor
    · intro hG
      refine ⟨hG, ?_⟩
      rintro ⟨rfl, hmem⟩
      rw [hrow] at hmem
      exact ExtTreeSet.not_mem_empty hmem
    · exact And.left
  | some typeIdxs =>
    have hrow : m.funcTypeIdxsMap.row F = typeIdxs := ExtTreeMap.row_of_getElem? hF
    dsimp only
    rw [Fold.foldl_and (P := fun t : SortedMap SizeT (SortedMap ℤ FuncSet) => G ∈ slot t h i)
      (R := fun p => ¬ (p = ⟨h, i⟩ ∧ F = G)) fun t p => mem_slot_eraseSlot]
    simp only [ExtTreeSet.mem_toList]
    constructor
    · rintro ⟨hG, hall⟩
      refine ⟨hG, ?_⟩
      rintro ⟨rfl, hmem⟩
      exact hall _ (hrow ▸ hmem) ⟨rfl, rfl⟩
    · rintro ⟨hG, hno⟩
      refine ⟨hG, ?_⟩
      rintro p hp ⟨rfl, rfl⟩
      exact hno ⟨rfl, hrow ▸ hp⟩

theorem mem_funcTypeIdxsMap_invalidateFunction {m : Mlta} {F G : FuncPtr} :
    G ∈ (invalidateFunction m F).funcTypeIdxsMap ↔ G ∈ m.funcTypeIdxsMap ∧ F ≠ G := by
  unfold invalidateFunction
  cases hF : m.funcTypeIdxsMap[F]? with
  | none =>
    constructor
    · intro hG
      refine ⟨hG, ?_⟩
      rintro rfl
      simp [ExtTreeMap.mem_iff_isSome_getElem?, hF] at hG
    · exact And.left
  | some typeIdxs => simp [and_comm]

theorem mem_row_invalidateFunction {m : Mlta} {F G : FuncPtr} {p : HashIdx} :
    p ∈ (invalidateFunction m F).funcTypeIdxsMap.row G ↔ p ∈ m.funcTypeIdxsMap.row G ∧ F ≠ G := by
  unfold invalidateFunction
  cases hF : m.funcTypeIdxsMap[F]? with
  | none =>
    have hrow : m.funcTypeIdxsMap.row F = ∅ := ExtTreeMap.row_of_getElem?_none hF
    constructor
    · intro hp
      refine ⟨hp, ?_⟩
      rintro rfl
      rw [hrow] at hp
      exact ExtTreeSet.not_mem_empty hp
    · exact And.left
  | some typeIdxs => simp [and_comm]

theorem mem_funcTypeIdxsMap_invalidateFunctions {Fs : List FuncPtr} {m : Mlta} {G : FuncPtr} :
    G ∈ (Fs.foldl invalidateFunction m).funcTypeIdxsMap ↔ G ∈ m.funcTypeIdxsMap ∧ G ∉ Fs := by
  rw [Fold.foldl_and (f := invalidateFunction) (P := fun m => G ∈ m.funcTypeIdxsMap)
    (R := fun F => F ≠ G) fun m F => mem_funcTypeIdxsMap_invalidateFunction, List.forall_mem_ne']

theorem mem_slot_invalidateFunctions {Fs : List FuncPtr} {m : Mlta} {G : FuncPtr} {h : SizeT}
    {i : ℤ} : G ∈ slot (Fs.foldl invalidateFunction m).typeIdxFuncsMap h i ↔
      G ∈ slot m.typeIdxFuncsMap h i ∧
        ¬ (G ∈ Fs ∧ (⟨h, i⟩ : HashIdx) ∈ m.funcTypeIdxsMap.row G) := by
  induction Fs generalizing m with
  | nil => simp
  | cons F Fs ih =>
    rw [List.foldl_cons, ih, mem_slot_invalidateFunction, mem_row_invalidateFunction,
      List.mem_cons]
    by_cases hFG : F = G
    · simp [hFG]
    · simp [hFG, Ne.symm hFG]

theorem invalidateStates_eq (Ms : List ModPtr) (m : Mlta) :
    Ms.foldl (fun m M => m.invalidateStates E M) m =
      (Ms.flatMap E.functions).foldl invalidateFunction m := by
  induction Ms generalizing m with
  | nil => rfl
  | cons M Ms ih =>
    rw [List.foldl_cons, ih, List.flatMap_cons, List.foldl_append]
    rfl

end Invalidate

end Mlta

namespace CallGraphPass

open Mlta

variable {E : Env}

theorem grows_collectTypes (g : SortedMap ℕ FuncPtr) (m : Mlta) (F : FuncPtr) :
    Grows (fun G => G ∈ E.functions F.mod) m (collectTypes E g m F) := by
  unfold collectTypes
  split_ifs
  · exact Grows.refl
  · have halias : Grows (fun G => G ∈ E.functions F.mod) m (collectAliasStructPtr E m F) :=
      Grows.refl.aliases _
    have hconfine := Grows.foldl (P := fun G => G ∈ E.functions F.mod) (f := confineInst E g F)
      (l := E.insts F) (fun m' I hI => grows_confineInst g F m' (E.mod_of_mem_insts hI))
    have hprop := Grows.foldl (P := fun G => G ∈ E.functions F.mod) (f := propInst E)
      (l := E.insts F) (fun m' I _ => grows_propInst m' I)
    exact (halias.trans (hconfine _)).trans (hprop _)

theorem grows_initGlobal (m : Mlta) (GV : ValPtr) :
    Grows (fun F => F ∈ E.functions GV.mod) m (initGlobal E m GV) := by
  unfold initGlobal
  split
  · exact Grows.refl
  · split_ifs
    · exact grows_typeConfineInInitializer m rfl
    · exact Grows.refl

theorem grows_initGlobals (S : CallGraphPass) (M : ModPtr) :
    Grows (fun F => F ∈ E.functions M) S.mlta (initGlobals E S M).mlta := by
  refine (Grows.refl.int8 _).trans (Grows.foldl ?_ _)
  intro m GV hGV
  obtain ⟨i, _, rfl⟩ := List.mem_map.mp hGV
  exact grows_initGlobal m ⟨M, i⟩

/-- After its globals, a module adds what the bodies of its functions record. -/
theorem grows_initFunctions (S : CallGraphPass) (M : ModPtr) :
    Grows (fun F => F ∈ E.functions M) (initGlobals E S M).mlta (collectModule E S M).mlta := by
  unfold collectModule
  apply Fold.foldl_invariant (I := fun T : CallGraphPass =>
    Grows (fun F => F ∈ E.functions M) (initGlobals E S M).mlta T.mlta) Grows.refl
  intro T F hF hT
  have hFM := E.mod_of_mem_functions hF
  exact hT.trans (hFM ▸ grows_collectTypes _ T.mlta F)

theorem grows_collectModule (S : CallGraphPass) (M : ModPtr) :
    Grows (fun F => F ∈ E.functions M) S.mlta (collectModule E S M).mlta :=
  (grows_initGlobals S M).trans (grows_initFunctions S M)

end CallGraphPass

end Cisa

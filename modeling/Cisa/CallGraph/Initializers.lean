import Cisa.CallGraph.Confine

/-!
# What an initialiser records

Every value has one recorded container, the slot it was last seen in, and is expanded once.
When a function is found in a slot, it is recorded for this slot and for the slots along the
recorded containers. Which slots come in which order depends on the constants alone.
-/

namespace Cisa

open Std

namespace Mlta

variable (E : Env)

/-- An operand of a container, with its number. -/
structure Slot where
  operand : ValPtr
  container : ValPtr
  no : ℕ

/-- The function that is found in a slot. -/
def leafFunction (O : ValPtr) : Option FuncPtr :=
  match E.dynFunction O with
  | some F => some F
  | none =>
    if (E.type (E.typeOf O)).kind.isComposite then none
    else match E.opcode O with
      | some .ptrToInt | some .bitCast => (E.operand O 0).bind E.dynFunction
      | _ => none

/-- What is queued for an operand. -/
def initPushes (O : ValPtr) : List ValPtr :=
  match E.dynFunction O with
  | some _ => []
  | none =>
    if (E.type (E.typeOf O)).kind.isComposite then [O]
    else match E.opcode O with
      | some .ptrToInt | some .bitCast =>
        match E.operand O 0 with
        | none => []
        | some P => if (E.dynFunction P).isSome then [] else [P]
      | _ =>
        match E.pointee (E.typeOf O), (E.value O).kind with
        | none, _ => []
        | some _, .nullPointer => []
        | some _, _ => [O]

def slotsOf (U : ValPtr) : List Slot := (E.operands U).zipIdx.map fun o => ⟨o.1, U, o.2⟩

/-- One iteration of the queue, as far as the order of the values is concerned. -/
def initWalk (visited : SortedSet ValPtr) (U : ValPtr) : SortedSet ValPtr × List ValPtr :=
  if U ∈ visited then (visited, []) else (visited.insert U, (E.operands U).flatMap (initPushes E))

/-- The slots that are filled by the iterations of a run. -/
def filledSlots (n : ℕ) (visited : SortedSet ValPtr) (q : List ValPtr) : List Slot :=
  (Worklist.trace (initWalk E) n visited q).flatMap fun it =>
    if it.2.1 ∈ it.1 then [] else slotsOf E it.2.1

/-- All slots that an initialiser fills, in order. -/
def initSlots (Ini : ValPtr) : List Slot := filledSlots E (initFuel E Ini) ∅ [Ini]

/-- The recorded containers after the slots have been filled. -/
def containersAfter (containers : SortedMap ValPtr (ValPtr × ℕ)) (slots : List Slot) :
    SortedMap ValPtr (ValPtr × ℕ) :=
  slots.foldl (fun containers s => containers.insert s.operand (s.container, s.no)) containers

/-- Operand `no` of `C` is met when the recorded containers are followed from `O`. -/
def Encloses (containers : SortedMap ValPtr (ValPtr × ℕ)) (O C : ValPtr) (no : ℕ) : Prop :=
  ∃ X, Relation.ReflTransGen (fun X Y => ∃ k, containers[X]? = some (Y, k)) O X ∧
    containers[X]? = some (C, no)

/-- Some slot holds `F` when it is filled, and its recorded containers have a slot number `i`
of a type with the hash `h`. -/
def SlotRecords (m : Mlta) (F : FuncPtr) (h : SizeT) (i : ℤ) :
    SortedMap ValPtr (ValPtr × ℕ) → List Slot → Prop
  | _, [] => False
  | containers, s :: rest =>
    (leafFunction E s.operand = some F ∧ (E.function F).isIntrinsic = false ∧
      ∃ C no, Encloses (containers.insert s.operand (s.container, s.no)) s.operand C no ∧
        i = no ∧ h ∈ containerHashes E m C) ∨
    SlotRecords m F h i (containers.insert s.operand (s.container, s.no)) rest

variable {E} {m : Mlta} {F G : FuncPtr} {h : SizeT} {i : ℤ}

theorem mem_foldl_confine (hashes : List SizeT) (no : ℤ) (m : Mlta) :
    G ∈ slot (hashes.foldl (fun m h => m.confine h no F) m).typeIdxFuncsMap h i ↔
      G ∈ slot m.typeIdxFuncsMap h i ∨ (G = F ∧ i = no ∧ h ∈ hashes) := by
  induction hashes generalizing m with
  | nil => simp
  | cons h' hashes ih =>
    rw [List.foldl_cons, ih, confine, mem_slot_addSlot, List.mem_cons]
    constructor
    · intro hG
      rcases hG with (⟨rfl, rfl, rfl⟩ | hG) | hG
      · exact Or.inr ⟨rfl, rfl, Or.inl rfl⟩
      · exact Or.inl hG
      · exact Or.inr ⟨hG.1, hG.2.1, Or.inr hG.2.2⟩
    · intro hG
      rcases hG with hG | ⟨rfl, rfl, rfl | hG⟩
      · exact Or.inl (Or.inr hG)
      · exact Or.inl (Or.inl ⟨rfl, rfl, rfl⟩)
      · exact Or.inr ⟨rfl, rfl, hG⟩

theorem names_foldl_confine (hashes : List SizeT) (no : ℤ) (m : Mlta) :
    (hashes.foldl (fun m h => m.confine h no F) m).elementsStructNameMap =
      m.elementsStructNameMap := by
  induction hashes generalizing m with
  | nil => rfl
  | cons h' hashes ih => rw [List.foldl_cons, ih, confine]

theorem containerHashes_congr {m' : Mlta}
    (hnames : m'.elementsStructNameMap = m.elementsStructNameMap) (C : ValPtr) :
    containerHashes E m' C = containerHashes E m C := by
  unfold containerHashes typeHash
  rw [hnames]

section Containers

variable {containers : SortedMap ValPtr (ValPtr × ℕ)} {CV C X : ValPtr} {no : ℕ}
  {visited : SortedSet ValPtr}

theorem reaches_cases (hC : containers[CV]? = some (C, no))
    (hX : Relation.ReflTransGen (fun X Y => ∃ k, containers[X]? = some (Y, k)) CV X) :
    X = CV ∨ Relation.ReflTransGen (fun X Y => ∃ k, containers[X]? = some (Y, k)) C X := by
  rcases Relation.ReflTransGen.cases_head hX with rfl | ⟨Y, ⟨k, hY⟩, hX⟩
  · exact Or.inl rfl
  · rw [hC] at hY
    obtain rfl : C = Y := congrArg Prod.fst (Option.some.inj hY)
    exact Or.inr hX

/-- The containers of visited values are visited, but for the one that is next. -/
theorem closed_insert (hC : containers[CV]? = some (C, no))
    (hclosed : ∀ X ∈ visited, ∀ Y k, containers[X]? = some (Y, k) → Y ∈ visited ∨ Y = CV) :
    ∀ X ∈ visited.insert CV, ∀ Y k, containers[X]? = some (Y, k) →
      Y ∈ visited.insert CV ∨ Y = C := by
  intro X hX Y k hY
  rw [ExtTreeSet.mem_insert, LawfulEqCmp.compare_eq_iff_eq] at hX ⊢
  rcases hX with rfl | hX
  · rw [hC] at hY
    exact Or.inr (congrArg Prod.fst (Option.some.inj hY)).symm
  · rcases hclosed X hX Y k hY with hY | hY
    · exact Or.inl (Or.inr hY)
    · exact Or.inl (Or.inl hY.symm)

theorem mem_of_reaches (hC : C ∈ visited)
    (hclosed : ∀ X ∈ visited, ∀ Y k, containers[X]? = some (Y, k) → Y ∈ visited ∨ Y = C)
    (hX : Relation.ReflTransGen (fun X Y => ∃ k, containers[X]? = some (Y, k)) C X) :
    X ∈ visited := by
  induction hX with
  | refl => exact hC
  | tail _ hstep ih =>
    obtain ⟨k, hk⟩ := hstep
    rcases hclosed _ ih _ k hk with hY | rfl
    · exact hY
    · exact hC

/-- The walk ends at a container that has been met: only its last step is new. -/
theorem exists_reaches_of_mem {P : ValPtr → ℕ → Prop} (hC : containers[CV]? = some (C, no))
    (hCV : CV ∉ visited)
    (hclosed : ∀ X ∈ visited, ∀ Y k, containers[X]? = some (Y, k) → Y ∈ visited ∨ Y = CV)
    (hloop : C ∈ visited.insert CV) :
    (∃ X C' no', Relation.ReflTransGen (fun X Y => ∃ k, containers[X]? = some (Y, k)) CV X ∧
      X ∉ visited ∧ containers[X]? = some (C', no') ∧ P C' no') ↔ P C no := by
  constructor
  · intro h
    obtain ⟨X, C', no', hreach, hX, hC', hP⟩ := h
    have hXCV : X = CV := by
      rcases reaches_cases hC hreach with rfl | hreach
      · rfl
      · have hin := mem_of_reaches hloop (closed_insert hC hclosed) hreach
        rw [ExtTreeSet.mem_insert, LawfulEqCmp.compare_eq_iff_eq] at hin
        exact (hin.resolve_right hX).symm
    rw [hXCV, hC] at hC'
    obtain ⟨rfl, rfl⟩ := Prod.mk.inj (Option.some.inj hC')
    exact hP
  · exact fun hP => ⟨CV, C, no, Relation.ReflTransGen.refl, hCV, hC, hP⟩

theorem exists_reaches_insert {P : ValPtr → ℕ → Prop} (hC : containers[CV]? = some (C, no))
    (hCV : CV ∉ visited) :
    (∃ X C' no', Relation.ReflTransGen (fun X Y => ∃ k, containers[X]? = some (Y, k)) CV X ∧
      X ∉ visited ∧ containers[X]? = some (C', no') ∧ P C' no') ↔
    P C no ∨ ∃ X C' no', Relation.ReflTransGen (fun X Y => ∃ k, containers[X]? = some (Y, k)) C X ∧
      X ∉ visited.insert CV ∧ containers[X]? = some (C', no') ∧ P C' no' := by
  have hinsert : ∀ {X}, X ∉ visited.insert CV ↔ CV ≠ X ∧ X ∉ visited := by
    intro X
    rw [ExtTreeSet.mem_insert, LawfulEqCmp.compare_eq_iff_eq, not_or]
  constructor
  · intro h
    obtain ⟨X, C', no', hreach, hX, hC', hP⟩ := h
    by_cases hXCV : X = CV
    · rw [hXCV, hC] at hC'
      obtain ⟨rfl, rfl⟩ := Prod.mk.inj (Option.some.inj hC')
      exact Or.inl hP
    · have hrest := (reaches_cases hC hreach).resolve_left hXCV
      exact Or.inr ⟨X, C', no', hrest, hinsert.mpr ⟨Ne.symm hXCV, hX⟩, hC', hP⟩
  · intro h
    rcases h with hP | ⟨X, C', no', hreach, hX, hC', hP⟩
    · exact ⟨CV, C, no, Relation.ReflTransGen.refl, hCV, hC, hP⟩
    · exact ⟨X, C', no', hreach.head ⟨no, hC⟩, (hinsert.mp hX).2, hC', hP⟩

end Containers

/-- The walk along the containers records the function for every slot that it meets; a
container that has been met ends it. -/
theorem mem_recordContainers {containers : SortedMap ValPtr (ValPtr × ℕ)} {n : ℕ} {CV : ValPtr}
    {visited : SortedSet ValPtr} (hCV : CV ∉ visited)
    (hclosed : ∀ X ∈ visited, ∀ Y k, containers[X]? = some (Y, k) → Y ∈ visited ∨ Y = CV)
    (hn : Worklist.pending (fun _ => 1) visited (containers.toList.map Prod.fst) < n) (m : Mlta) :
    (G ∈ slot (recordContainers E containers F n CV visited m).typeIdxFuncsMap h i ↔
      G ∈ slot m.typeIdxFuncsMap h i ∨ (G = F ∧ ∃ X C no,
        Relation.ReflTransGen (fun X Y => ∃ k, containers[X]? = some (Y, k)) CV X ∧ X ∉ visited ∧
          containers[X]? = some (C, no) ∧ i = no ∧ h ∈ containerHashes E m C)) ∧
    (recordContainers E containers F n CV visited m).elementsStructNameMap =
      m.elementsStructNameMap := by
  induction n generalizing CV visited m with
  | zero => omega
  | succ n ih =>
    unfold recordContainers
    cases hC : containers[CV]? with
    | none =>
      dsimp only
      refine ⟨⟨Or.inl, fun hG => ?_⟩, rfl⟩
      rcases hG with hG | ⟨_, X, C, no, hreach, _, hX, _⟩
      · exact hG
      · rcases Relation.ReflTransGen.cases_head hreach with rfl | ⟨Y, ⟨k, hY⟩, _⟩
        · simp [hC] at hX
        · simp [hC] at hY
    | some Cno =>
      obtain ⟨C, no⟩ := Cno
      dsimp only
      have hkey : CV ∈ containers.toList.map Prod.fst :=
        List.mem_map.mpr ⟨(CV, (C, no)), ExtTreeMap.mem_toList_iff_getElem?_eq_some.mpr hC, rfl⟩
      have hpending := Worklist.pending_insert (fun _ => 1) hkey hCV
      set m' := (containerHashes E m C).toList.foldl (fun m h => m.confine h no F) m with hm'
      have hnames : m'.elementsStructNameMap = m.elementsStructNameMap := names_foldl_confine _ _ _
      have hown : G ∈ slot m'.typeIdxFuncsMap h i ↔ G ∈ slot m.typeIdxFuncsMap h i ∨
          (G = F ∧ i = no ∧ h ∈ containerHashes E m C) := by
        rw [hm', mem_foldl_confine, ExtTreeSet.mem_toList]
      by_cases hloop : C ∈ visited.insert CV
      · rw [if_pos hloop, hown]
        refine ⟨or_congr_right (and_congr_right fun _ => ?_), hnames⟩
        exact (exists_reaches_of_mem (P := fun C no => i = no ∧ h ∈ containerHashes E m C) hC hCV
          hclosed hloop).symm
      · rw [if_neg hloop]
        obtain ⟨hrest, hrestNames⟩ := ih hloop (closed_insert hC hclosed) (by omega) m'
        refine ⟨?_, hrestNames.trans hnames⟩
        rw [hrest, hown, or_assoc, ← and_or_left]
        simp only [containerHashes_congr hnames]
        refine or_congr_right (and_congr_right fun _ => ?_)
        exact (exists_reaches_insert (P := fun C no => i = no ∧ h ∈ containerHashes E m C) hC
          hCV).symm

/-- What `m'` holds is what `m` holds and what the slots record. -/
def RecordsSlots (E : Env) (m m' : Mlta) (containers : SortedMap ValPtr (ValPtr × ℕ))
    (slots : List Slot) : Prop :=
  m'.elementsStructNameMap = m.elementsStructNameMap ∧
    ∀ F h i, F ∈ slot m'.typeIdxFuncsMap h i ↔
      F ∈ slot m.typeIdxFuncsMap h i ∨ SlotRecords E m F h i containers slots

theorem slotRecords_congr {m' : Mlta} (hnames : m'.elementsStructNameMap = m.elementsStructNameMap)
    (containers : SortedMap ValPtr (ValPtr × ℕ)) (slots : List Slot) :
    SlotRecords E m' F h i containers slots ↔ SlotRecords E m F h i containers slots := by
  induction slots generalizing containers with
  | nil => exact Iff.rfl
  | cons s slots ih => simp only [SlotRecords, containerHashes_congr hnames, ih]

theorem slotRecords_append (containers : SortedMap ValPtr (ValPtr × ℕ)) (slots slots' : List Slot) :
    SlotRecords E m F h i containers (slots ++ slots') ↔ SlotRecords E m F h i containers slots ∨
      SlotRecords E m F h i (containersAfter containers slots) slots' := by
  induction slots generalizing containers with
  | nil => simp [SlotRecords, containersAfter]
  | cons s slots ih => simp only [List.cons_append, SlotRecords, ih, containersAfter,
      List.foldl_cons, or_assoc]

theorem RecordsSlots.append {m' m'' : Mlta} {containers : SortedMap ValPtr (ValPtr × ℕ)}
    {slots slots' : List Slot} (h : RecordsSlots E m m' containers slots)
    (h' : RecordsSlots E m' m'' (containersAfter containers slots) slots') :
    RecordsSlots E m m'' containers (slots ++ slots') := by
  refine ⟨h'.1.trans h.1, fun F hash i => ?_⟩
  rw [h'.2, h.2, slotRecords_congr h.1, slotRecords_append, or_assoc]

theorem pending_containers (containers : SortedMap ValPtr (ValPtr × ℕ)) :
    Worklist.pending (fun _ => 1) ∅ (containers.toList.map Prod.fst) = containers.size := by
  simp [Worklist.pending]

theorem mem_recordContainers_slot (containers : SortedMap ValPtr (ValPtr × ℕ)) (CV : ValPtr)
    (m : Mlta) :
    (G ∈ slot (recordContainers E containers F (containers.size + 1) CV ∅ m).typeIdxFuncsMap h i ↔
      G ∈ slot m.typeIdxFuncsMap h i ∨ (G = F ∧ ∃ C no, Encloses containers CV C no ∧
        i = no ∧ h ∈ containerHashes E m C)) ∧
    (recordContainers E containers F (containers.size + 1) CV ∅ m).elementsStructNameMap =
      m.elementsStructNameMap := by
  have hfuel : Worklist.pending (fun _ => 1) ∅ (containers.toList.map Prod.fst) <
      containers.size + 1 := by
    rw [pending_containers]
    exact Nat.lt_succ_self _
  have hnew : CV ∉ (∅ : SortedSet ValPtr) := by simp
  have hclosed : ∀ X ∈ (∅ : SortedSet ValPtr), ∀ Y k, containers[X]? = some (Y, k) →
      Y ∈ (∅ : SortedSet ValPtr) ∨ Y = CV := by simp
  obtain ⟨hmem, hnames⟩ :=
    mem_recordContainers (E := E) (F := F) (G := G) (h := h) (i := i) hnew hclosed hfuel m
  refine ⟨hmem.trans (or_congr_right (and_congr_right fun _ => ?_)), hnames⟩
  constructor
  · rintro ⟨X, C, no, hreach, _, hX, hi, hh⟩
    exact ⟨C, no, ⟨X, hreach, hX⟩, hi, hh⟩
  · rintro ⟨C, no, ⟨X, hreach, hX⟩, hi, hh⟩
    exact ⟨X, C, no, hreach, by simp, hX, hi, hh⟩

theorem recordsSlots_recordFunction (st : InitState) (s : Slot)
    (hF : leafFunction E s.operand = some F) {containers : SortedMap ValPtr (ValPtr × ℕ)}
    (hst : st.containers = containers.insert s.operand (s.container, s.no)) :
    RecordsSlots E st.mlta (recordFunction E st s.operand F).mlta containers [s] ∧
      (recordFunction E st s.operand F).containers = st.containers := by
  unfold recordFunction
  by_cases hintr : (E.function F).isIntrinsic = true
  · rw [if_pos hintr]
    refine ⟨⟨rfl, fun G h i => ?_⟩, rfl⟩
    have hnone : ¬SlotRecords E st.mlta G h i containers [s] := by
      intro hG
      rcases hG with ⟨hG, hplain, _⟩ | hG
      · rw [hF] at hG
        rw [← Option.some.inj hG, hintr] at hplain
        cases hplain
      · exact hG
    simp only [hnone, or_false]
  · rw [if_neg hintr]
    refine ⟨⟨(mem_recordContainers_slot (G := F) (h := 0) (i := 0) _ _ _).2, fun G h i =>
      (mem_recordContainers_slot _ _ _).1.trans (or_congr_right ?_)⟩, rfl⟩
    simp only [SlotRecords, or_false, ← hst]
    constructor
    · rintro ⟨rfl, hG⟩
      exact ⟨hF, by simpa using hintr, hG⟩
    · rintro ⟨hG, _, hrest⟩
      rw [hF] at hG
      exact ⟨(Option.some.inj hG).symm, hrest⟩

theorem recordsSlots_of_no_leaf {m' : Mlta} {s : Slot} (hF : leafFunction E s.operand = none)
    (hnames : m'.elementsStructNameMap = m.elementsStructNameMap)
    (hfuncs : m'.typeIdxFuncsMap = m.typeIdxFuncsMap)
    (containers : SortedMap ValPtr (ValPtr × ℕ)) : RecordsSlots E m m' containers [s] := by
  refine ⟨hnames, fun F h i => ?_⟩
  simp [SlotRecords, hF, hfuncs]

theorem initCast_records (U : ValPtr) {st : InitState} {O : ValPtr} {no : ℕ}
    {containers : SortedMap ValPtr (ValPtr × ℕ)}
    (hleaf : leafFunction E O = (E.operand O 0).bind E.dynFunction)
    (hpush : initPushes E O = match E.operand O 0 with
      | none => []
      | some P => if (E.dynFunction P).isSome then [] else [P])
    (hst : st.containers = containers.insert O (U, no)) :
    RecordsSlots E st.mlta (initCast E st O).1.mlta containers [⟨O, U, no⟩] ∧
      (initCast E st O).1.containers = st.containers ∧ (initCast E st O).2 = initPushes E O := by
  rw [hpush]
  unfold initCast
  cases hP : E.operand O 0 with
  | none =>
    rw [hP] at hleaf
    exact ⟨recordsSlots_of_no_leaf hleaf rfl rfl _, rfl, rfl⟩
  | some P =>
    rw [hP] at hleaf
    dsimp only
    cases hF : E.dynFunction P with
    | none => exact ⟨recordsSlots_of_no_leaf (hleaf.trans hF) rfl rfl _, rfl, rfl⟩
    | some F =>
      obtain ⟨h1, h2⟩ := recordsSlots_recordFunction st ⟨O, U, no⟩ (hleaf.trans hF) hst
      exact ⟨h1, h2, rfl⟩

section Operand

variable (U : ValPtr) (st : InitState) {O : ValPtr} (no : ℕ)

theorem initOperand_cast_records (hfun : E.dynFunction O = none)
    (hcomp : ¬ (E.type (E.typeOf O)).kind.isComposite = true)
    (hop : E.opcode O = some .ptrToInt ∨ E.opcode O = some .bitCast) :
    RecordsSlots E st.mlta (initOperand E U st O no).1.mlta st.containers [⟨O, U, no⟩] ∧
      (initOperand E U st O no).1.containers = st.containers.insert O (U, no) ∧
      (initOperand E U st O no).2 = initPushes E O := by
  have hleaf : leafFunction E O = (E.operand O 0).bind E.dynFunction := by
    rcases hop with hop | hop <;> simp only [leafFunction, hfun, if_neg hcomp, hop]
  have hpush : initPushes E O = match E.operand O 0 with
      | none => []
      | some P => if (E.dynFunction P).isSome then [] else [P] := by
    rcases hop with hop | hop <;> simp only [initPushes, hfun, if_neg hcomp, hop]
  have hcast : initOperand E U st O no =
      initCast E { st with containers := st.containers.insert O (U, no) } O := by
    rcases hop with hop | hop <;> simp only [initOperand, hfun, if_neg hcomp, hop]
  rw [hcast]
  exact initCast_records U hleaf hpush rfl

/-- A pointer to a struct is capped, which changes neither the functions nor the names. -/
theorem initOperand_pointer_records (hfun : E.dynFunction O = none)
    (hcomp : ¬ (E.type (E.typeOf O)).kind.isComposite = true)
    (hptr : E.opcode O ≠ some .ptrToInt) (hbit : E.opcode O ≠ some .bitCast) :
    RecordsSlots E st.mlta (initOperand E U st O no).1.mlta st.containers [⟨O, U, no⟩] ∧
      (initOperand E U st O no).1.containers = st.containers.insert O (U, no) ∧
      (initOperand E U st O no).2 = initPushes E O := by
  have hnone : leafFunction E O = none := by
    simp only [leafFunction, hfun, if_neg hcomp]
  have hpush : initPushes E O = match E.pointee (E.typeOf O), (E.value O).kind with
      | none, _ => []
      | some _, .nullPointer => []
      | some _, _ => [O] := by
    simp only [initPushes, hfun, if_neg hcomp]
  -- the opcode is not that of a cast, so the operand is looked at as a pointer
  simp only [initOperand, hfun, if_neg hcomp, hpush]
  cases E.pointee (E.typeOf O) with
  | none => exact ⟨recordsSlots_of_no_leaf hnone rfl rfl _, rfl, rfl⟩
  | some ETy =>
    cases (E.value O).kind
    case globalVariable =>
      dsimp only
      split
      · exact ⟨recordsSlots_of_no_leaf hnone rfl rfl _, rfl, rfl⟩
      · exact ⟨recordsSlots_of_no_leaf hnone rfl rfl _, rfl, rfl⟩
    all_goals exact ⟨recordsSlots_of_no_leaf hnone rfl rfl _, rfl, rfl⟩

theorem initOperand_records (O : ValPtr) :
    RecordsSlots E st.mlta (initOperand E U st O no).1.mlta st.containers [⟨O, U, no⟩] ∧
      (initOperand E U st O no).1.containers = st.containers.insert O (U, no) ∧
      (initOperand E U st O no).2 = initPushes E O := by
  cases hfun : E.dynFunction O with
  | some F =>
    have hleaf : leafFunction E O = some F := by simp only [leafFunction, hfun]
    obtain ⟨h1, h2⟩ := recordsSlots_recordFunction
      { st with containers := st.containers.insert O (U, no) } ⟨O, U, no⟩ hleaf rfl
    simp only [initOperand, initPushes, hfun]
    exact ⟨h1, h2, trivial⟩
  | none =>
    by_cases hcomp : (E.type (E.typeOf O)).kind.isComposite = true
    · have hleaf : leafFunction E O = none := by simp only [leafFunction, hfun, if_pos hcomp]
      simp only [initOperand, initPushes, hfun, if_pos hcomp]
      exact ⟨recordsSlots_of_no_leaf hleaf rfl rfl _, trivial, trivial⟩
    · by_cases hptr : E.opcode O = some .ptrToInt
      · exact initOperand_cast_records U st no hfun hcomp (Or.inl hptr)
      · by_cases hbit : E.opcode O = some .bitCast
        · exact initOperand_cast_records U st no hfun hcomp (Or.inr hbit)
        · exact initOperand_pointer_records U st no hfun hcomp hptr hbit

end Operand

theorem initOperands_records (U : ValPtr) (ops : List (ValPtr × ℕ)) (st : InitState)
    (pushed : List ValPtr) :
    RecordsSlots E st.mlta (initOperands E U ops st pushed).1.mlta st.containers
        (ops.map fun o => ⟨o.1, U, o.2⟩) ∧
      (initOperands E U ops st pushed).1.containers =
        containersAfter st.containers (ops.map fun o => ⟨o.1, U, o.2⟩) ∧
      (initOperands E U ops st pushed).2 = pushed ++ ops.flatMap fun o => initPushes E o.1 := by
  induction ops generalizing st pushed with
  | nil => exact ⟨⟨rfl, fun F h i => by simp [initOperands, SlotRecords]⟩, rfl,
      by simp [initOperands]⟩
  | cons o ops ih =>
    obtain ⟨O, no⟩ := o
    obtain ⟨hrec, hcont, hpush⟩ := initOperand_records (E := E) U st no O
    obtain ⟨hrecs, hconts, hpushes⟩ := ih (initOperand E U st O no).1
      (pushed ++ (initOperand E U st O no).2)
    rw [hcont] at hrecs hconts
    refine ⟨hrec.append hrecs, hconts, hpushes.trans ?_⟩
    rw [hpush, List.append_assoc, List.flatMap_cons]

theorem initBody_records (st : InitState) (U : ValPtr) :
    RecordsSlots E st.mlta (initBody E st U).1.mlta st.containers
        (if U ∈ st.visited then [] else slotsOf E U) ∧
      (initBody E st U).1.containers =
        containersAfter st.containers (if U ∈ st.visited then [] else slotsOf E U) ∧
      ((initBody E st U).1.visited, (initBody E st U).2) = initWalk E st.visited U := by
  unfold initBody initWalk
  by_cases hU : U ∈ st.visited
  · simp only [if_pos hU]
    exact ⟨⟨rfl, fun F h i => by simp [SlotRecords]⟩, rfl, trivial⟩
  · simp only [if_neg hU]
    obtain ⟨hrec, hcont, hpush⟩ := initOperands_records (E := E) U (E.operands U).zipIdx
      { st with visited := st.visited.insert U } []
    refine ⟨hrec, hcont, Prod.ext (initOperands_spec E U _ _ _).1 (hpush.trans ?_)⟩
    rw [List.nil_append]
    have hops : ((E.operands U).zipIdx.map Prod.fst).flatMap (initPushes E) =
        (E.operands U).flatMap (initPushes E) := by
      rw [List.zipIdx_map_fst]
    rw [← hops, List.flatMap_map]

theorem filledSlots_cons (n : ℕ) (visited : SortedSet ValPtr) (U : ValPtr) (q : List ValPtr) :
    filledSlots E (n + 1) visited (U :: q) = (if U ∈ visited then [] else slotsOf E U) ++
      filledSlots E n (initWalk E visited U).1 (q ++ (initWalk E visited U).2) := rfl

theorem initRun_records {n : ℕ} {st r : InitState} {q : List ValPtr}
    (hrun : Worklist.run (initBody E) n st q = some r) :
    RecordsSlots E st.mlta r.mlta st.containers (filledSlots E n st.visited q) := by
  induction n generalizing st q with
  | zero =>
    cases q with
    | nil =>
      obtain rfl := Option.some.inj hrun
      exact ⟨rfl, fun F h i => by simp [filledSlots, SlotRecords]⟩
    | cons U q => simp [Worklist.run] at hrun
  | succ n ih =>
    cases q with
    | nil =>
      obtain rfl := Option.some.inj hrun
      exact ⟨rfl, fun F h i => by simp [filledSlots, SlotRecords]⟩
    | cons U q =>
      obtain ⟨hrec, hcont, hwalk⟩ := initBody_records (E := E) st U
      have hrest : RecordsSlots E (initBody E st U).1.mlta r.mlta (initBody E st U).1.containers
          (filledSlots E n (initBody E st U).1.visited (q ++ (initBody E st U).2)) := ih hrun
      rw [filledSlots_cons, ← hwalk]
      rw [hcont] at hrest
      exact hrec.append hrest

/-- What an initialiser records, apart from what has been recorded before. -/
theorem mem_typeConfineInInitializer {GV Ini : ValPtr} (hIni : E.operand GV 0 = some Ini)
    (hkind : (E.value Ini).kind = .aggregate) :
    F ∈ slot (typeConfineInInitializer E m GV).typeIdxFuncsMap h i ↔
      F ∈ slot m.typeIdxFuncsMap h i ∨ SlotRecords E m F h i ∅ (initSlots E Ini) := by
  have hmlta : typeConfineInInitializer E m GV =
      ((Worklist.run (initBody E) (initFuel E Ini) { mlta := m } [Ini]).get
        (initRun_isSome E m Ini)).mlta := by
    rw [typeConfineInInitializer, hIni]
    exact if_pos hkind
  rw [hmlta]
  exact (initRun_records (Option.some_get (initRun_isSome E m Ini)).symm).2 F h i

/-! ## Paths to a function -/

variable (E)

def IsLeaf (F O : ValPtr) : Prop :=
  E.dynFunction O = some F ∨
    E.opcode O ∈ [some .bitCast, some .ptrToInt, some .otherCast] ∧
      (E.operand O 0).bind E.dynFunction = some F

/-- A path through nested aggregates to a function: the aggregates from the outermost on,
each with the number of the operand that is taken. -/
inductive PathTo (F : FuncPtr) : ValPtr → List (ValPtr × ℕ) → Prop
  | leaf {U O : ValPtr} {i : ℕ} (hU : (E.value U).kind = .aggregate) (hO : E.operand U i = some O)
      (hF : IsLeaf E F O) : PathTo F U [(U, i)]
  | nested {U O : ValPtr} {i : ℕ} {path : List (ValPtr × ℕ)} (hU : (E.value U).kind = .aggregate)
      (hO : E.operand U i = some O) (hpath : PathTo F O path) : PathTo F U ((U, i) :: path)

/-- `F` is found in a slot from where the slots last filled lead to slot `no` of `C`: every
constant is in the slot that it was last put in, up to then. -/
def FoundBelow (Ini : ValPtr) (F : FuncPtr) (C : ValPtr) (no : ℕ) : Prop :=
  ∃ pre s post, initSlots E Ini = pre ++ s :: post ∧ leafFunction E s.operand = some F ∧
    Encloses (containersAfter ∅ (pre ++ [s])) s.operand C no

variable {E}

theorem PathTo.isAggregate {U : ValPtr} {path : List (ValPtr × ℕ)} (h : PathTo E F U path) :
    (E.value U).kind = .aggregate := by
  cases h with
  | leaf hU => exact hU
  | nested hU => exact hU

theorem slotRecords_iff (containers : SortedMap ValPtr (ValPtr × ℕ)) (slots : List Slot) :
    SlotRecords E m F h i containers slots ↔ (E.function F).isIntrinsic = false ∧
      ∃ C no, (∃ pre s post, slots = pre ++ s :: post ∧ leafFunction E s.operand = some F ∧
        Encloses (containersAfter containers (pre ++ [s])) s.operand C no) ∧
          i = no ∧ h ∈ containerHashes E m C := by
  induction slots generalizing containers with
  | nil => simp [SlotRecords]
  | cons s slots ih =>
    rw [SlotRecords, ih]
    constructor
    · intro hrec
      rcases hrec with ⟨hs, hF, C, no, hC, hi, hh⟩ |
        ⟨hF, C, no, ⟨pre, s', post, rfl, hs', hC⟩, hi, hh⟩
      · exact ⟨hF, C, no, ⟨[], s, slots, rfl, hs, hC⟩, hi, hh⟩
      · exact ⟨hF, C, no, ⟨s :: pre, s', post, rfl, hs', hC⟩, hi, hh⟩
    · rintro ⟨hF, C, no, ⟨pre, s', post, hslots, hs', hC⟩, hi, hh⟩
      cases pre with
      | nil =>
        obtain ⟨rfl, rfl⟩ := List.cons.inj hslots
        exact Or.inl ⟨hs', hF, C, no, hC, hi, hh⟩
      | cons s'' pre =>
        obtain ⟨rfl, rfl⟩ := List.cons.inj hslots
        exact Or.inr ⟨hF, C, no, ⟨pre, s', post, rfl, hs', hC⟩, hi, hh⟩

/-- An initialiser is fully confined when every slot on a path to a function is met on the
way from a slot of the function, or one of the same number and type is. -/
theorem initializer_confined_iff {GV Ini : ValPtr} (hIni : E.operand GV 0 = some Ini) :
    (∀ F path, (E.function F).isIntrinsic = false → PathTo E F Ini path →
      ∀ U i, (U, i) ∈ path → ∀ h ∈ containerHashes E m U,
        F ∈ slot (typeConfineInInitializer E m GV).typeIdxFuncsMap h i) ↔
    (∀ F path, (E.function F).isIntrinsic = false → PathTo E F Ini path →
      ∀ U i, (U, i) ∈ path → ∀ h ∈ containerHashes E m U,
        F ∈ slot m.typeIdxFuncsMap h i ∨
          ∃ C, FoundBelow E Ini F C i ∧ h ∈ containerHashes E m C) := by
  refine forall₂_congr fun F path => forall₂_congr fun hF hpath =>
    forall₂_congr fun U i => forall₂_congr fun _ h => forall_congr' fun _ => ?_
  rw [mem_typeConfineInInitializer hIni hpath.isAggregate, slotRecords_iff]
  simp only [hF, true_and, Nat.cast_inj]
  constructor
  · intro hmem
    rcases hmem with hmem | ⟨C, no, hfound, rfl, hh⟩
    · exact Or.inl hmem
    · exact Or.inr ⟨C, hfound, hh⟩
  · intro hmem
    rcases hmem with hmem | ⟨C, hfound, hh⟩
    · exact Or.inl hmem
    · exact Or.inr ⟨C, i, hfound, rfl, hh⟩

/-- `struct S table[2] = {{f}, {f}}`: both elements are the same constant. -/
def sharedElements : Env := Env.ofModules [{
  values := [
    { kind := .function { name := "f" } },
    { kind := .aggregate, ty := 2, operands := [0] },
    { kind := .aggregate, ty := 3, operands := [1, 1] },
    { kind := .globalVariable, ty := 4, operands := [2] }]
  types := [
    { kind := .pointer 1, printed := "void ()*" },
    { kind := .function, printed := "void ()" },
    { kind := .struct (some "S") false [0], printed := "%S = type" },
    { kind := .array 2, printed := "[2 x %S]" },
    { kind := .pointer 3, printed := "[2 x %S]*" }]
  functions := [0]
  globals := [3]
  names_nodup := by decide
  functions_listed := by decide }]

theorem initializer_confined_sharedElements :
    (∀ F path, (sharedElements.function F).isIntrinsic = false →
      PathTo sharedElements F ⟨0, 2⟩ path →
      ∀ U i, (U, i) ∈ path → ∀ h ∈ containerHashes sharedElements {} U,
        F ∈ slot (typeConfineInInitializer sharedElements {} ⟨0, 3⟩).typeIdxFuncsMap h i) ↔
    (∀ F path, (sharedElements.function F).isIntrinsic = false →
      PathTo sharedElements F ⟨0, 2⟩ path →
      ∀ U i, (U, i) ∈ path → ∀ h ∈ containerHashes sharedElements {} U,
        F ∈ slot ({} : Mlta).typeIdxFuncsMap h i ∨
          ∃ C, FoundBelow sharedElements ⟨0, 2⟩ F C i ∧ h ∈ containerHashes sharedElements {} C) :=
  initializer_confined_iff rfl

/-- The function of the shared element is not recorded for the first element of the table. -/
theorem initializer_not_confined :
    ¬ ∀ (E : Env) (m : Mlta) (GV Ini : ValPtr), E.operand GV 0 = some Ini →
      ∀ F path, (E.function F).isIntrinsic = false → PathTo E F Ini path →
        ∀ U i, (U, i) ∈ path → ∀ h ∈ containerHashes E m U,
          F ∈ slot (typeConfineInInitializer E m GV).typeIdxFuncsMap h i := by
  intro hall
  have hpath : PathTo sharedElements ⟨0, 0⟩ ⟨0, 2⟩ [(⟨0, 2⟩, 0), (⟨0, 1⟩, 0)] :=
    .nested rfl rfl (.leaf rfl rfl (Or.inl rfl))
  have hmem := hall sharedElements {} ⟨0, 3⟩ ⟨0, 2⟩ rfl ⟨0, 0⟩ _ rfl hpath ⟨0, 2⟩ 0
    List.mem_cons_self (typeHash sharedElements {} ⟨0, 3⟩)
    (by rw [ExtTreeSet.mem_iff_contains]; decide)
  rw [ExtTreeSet.mem_iff_contains] at hmem
  revert hmem
  decide

end Mlta

end Cisa

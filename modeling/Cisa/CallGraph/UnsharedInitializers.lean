import Cisa.CallGraph.Initializers

/-!
# Initialisers without shared constants

Where no constant that leads to a function is in two slots, every slot is filled before the
slots of its operand are, and stays the recorded one; so the initialiser is fully confined.
-/

namespace Cisa

open Std

namespace Mlta

variable (E : Env)

/-- What the verifier of LLVM guarantees of constants: aggregates are of composite types, and
casts are not and have no aggregate operands. -/
structure PlainConstants : Prop where
  aggregate : ∀ V, (E.value V).kind = .aggregate → (E.type (E.typeOf V)).kind.isComposite = true
  cast_type : ∀ V, E.opcode V ∈ [some .bitCast, some .ptrToInt, some .otherCast] →
    (E.type (E.typeOf V)).kind.isComposite = false
  cast_operand : ∀ V P, E.opcode V ∈ [some .bitCast, some .ptrToInt] → E.operand V 0 = some P →
    (E.value P).kind ≠ .aggregate

/-- The loop over the queue with the slots that it has filled. -/
def slotsBody (st : SortedSet ValPtr × List Slot) (U : ValPtr) :
    (SortedSet ValPtr × List Slot) × List ValPtr :=
  (((initWalk E st.1 U).1, st.2 ++ if U ∈ st.1 then [] else slotsOf E U), (initWalk E st.1 U).2)

/-- What holds when the slots `done` are filled: a slot is filled after one that queues its
container, and everything that is queued is expanded. -/
structure SlotOrder (Ini : ValPtr) (st : SortedSet ValPtr × List Slot) (q : List ValPtr) :
    Prop where
  start : Ini ∈ st.1 ∨ Ini ∈ q
  filled : ∀ U ∈ st.1, ∀ s ∈ slotsOf E U, s ∈ st.2
  queued : ∀ s ∈ st.2, ∀ P ∈ initPushes E s.operand, P ∈ st.1 ∨ P ∈ q
  origin : ∀ U ∈ q, U = Ini ∨ ∃ t ∈ st.2, U ∈ initPushes E t.operand
  before : ∀ pre s post, st.2 = pre ++ s :: post →
    s.container = Ini ∨ ∃ t ∈ pre, s.container ∈ initPushes E t.operand

variable {E} {m : Mlta} {F : FuncPtr} {Ini : ValPtr}

theorem mem_slotsOf {U : ValPtr} {s : Slot} :
    s ∈ slotsOf E U ↔ s.container = U ∧ E.operand U s.no = some s.operand := by
  unfold slotsOf
  rw [List.mem_map]
  constructor
  · rintro ⟨⟨O, i⟩, ho, rfl⟩
    exact ⟨rfl, List.mem_zipIdx_iff_getElem?.mp ho⟩
  · rintro ⟨rfl, hO⟩
    exact ⟨(s.operand, s.no), List.mem_zipIdx_iff_getElem?.mpr hO, rfl⟩

theorem mem_pushes_iff {U P : ValPtr} :
    P ∈ (E.operands U).flatMap (initPushes E) ↔ ∃ s ∈ slotsOf E U, P ∈ initPushes E s.operand := by
  rw [List.mem_flatMap]
  constructor
  · rintro ⟨O, hO, hP⟩
    obtain ⟨i, hi⟩ := List.mem_iff_getElem?.mp hO
    exact ⟨⟨O, U, i⟩, mem_slotsOf.mpr ⟨rfl, hi⟩, hP⟩
  · rintro ⟨s, hs, hP⟩
    exact ⟨s.operand, List.mem_of_getElem? (mem_slotsOf.mp hs).2, hP⟩

theorem SlotOrder.step {st : SortedSet ValPtr × List Slot} {U : ValPtr} {q : List ValPtr}
    (h : SlotOrder E Ini st (U :: q)) :
    SlotOrder E Ini (slotsBody E st U).1 (q ++ (slotsBody E st U).2) := by
  obtain ⟨visited, done⟩ := st
  unfold slotsBody initWalk
  dsimp only
  by_cases hU : U ∈ visited
  · simp only [if_pos hU, List.append_nil]
    exact ⟨Worklist.seen_or_queued hU h.start, h.filled,
      fun s hs P hP => Worklist.seen_or_queued hU (h.queued s hs P hP),
      fun V hV => h.origin V (List.mem_cons_of_mem _ hV), h.before⟩
  · simp only [if_neg hU]
    refine ⟨Worklist.marked_or_queued _ h.start, ?_, ?_, ?_, ?_⟩
    · intro V hV s hs
      rw [ExtTreeSet.mem_insert, LawfulEqCmp.compare_eq_iff_eq] at hV
      rcases hV with rfl | hV
      · exact List.mem_append_right _ hs
      · exact List.mem_append_left _ (h.filled V hV s hs)
    · intro s hs P hP
      rcases List.mem_append.mp hs with hs | hs
      · exact Worklist.marked_or_queued _ (h.queued s hs P hP)
      · exact Or.inr (List.mem_append_right _ (mem_pushes_iff.mpr ⟨s, hs, hP⟩))
    · intro V hV
      rcases List.mem_append.mp hV with hV | hV
      · exact (h.origin V (List.mem_cons_of_mem _ hV)).imp_right fun ⟨t, ht, hVt⟩ =>
          ⟨t, List.mem_append_left _ ht, hVt⟩
      · obtain ⟨s, hs, hV⟩ := mem_pushes_iff.mp hV
        exact Or.inr ⟨s, List.mem_append_right _ hs, hV⟩
    · intro pre s post hsplit
      rcases List.append_eq_append_iff.mp hsplit with ⟨mid, rfl, hmid⟩ | ⟨mid, rfl, hmid⟩
      · -- a slot of `U`
        have hs : s ∈ slotsOf E U := by
          rw [hmid]
          exact List.mem_append_right _ List.mem_cons_self
        rw [(mem_slotsOf.mp hs).1]
        exact (h.origin U List.mem_cons_self).imp_right fun ⟨t, ht, hUt⟩ =>
          ⟨t, List.mem_append_left _ ht, hUt⟩
      · cases mid with
        | nil =>
          have hs : s ∈ slotsOf E U := by
            rw [List.nil_append] at hmid
            rw [← hmid]
            exact List.mem_cons_self
          rw [(mem_slotsOf.mp hs).1]
          simpa using h.origin U List.mem_cons_self
        | cons s' mid =>
          obtain ⟨rfl, rfl⟩ := List.cons.inj hmid
          exact h.before pre s mid rfl

theorem run_slotsBody {n : ℕ} {st r : InitState} {q : List ValPtr} {done : List Slot}
    (hrun : Worklist.run (initBody E) n st q = some r) :
    Worklist.run (slotsBody E) n (st.visited, done) q =
      some (r.visited, done ++ filledSlots E n st.visited q) := by
  induction n generalizing st q done with
  | zero =>
    cases q with
    | nil =>
      obtain rfl := Option.some.inj hrun
      simp [filledSlots]
    | cons U q => simp [Worklist.run] at hrun
  | succ n ih =>
    cases q with
    | nil =>
      obtain rfl := Option.some.inj hrun
      simp [filledSlots]
    | cons U q =>
      obtain ⟨_, _, hwalk⟩ := initBody_records (E := E) st U
      have hrest : Worklist.run (slotsBody E) n ((initBody E st U).1.visited,
          done ++ if U ∈ st.visited then [] else slotsOf E U) (q ++ (initBody E st U).2) = _ :=
        ih hrun
      rw [Worklist.run, slotsBody, filledSlots_cons, ← hwalk, hrest, List.append_assoc]

theorem slotOrder_initSlots (Ini : ValPtr) :
    ∃ visited, SlotOrder E Ini (visited, initSlots E Ini) [] := by
  have hrun : Worklist.run (slotsBody E) (initFuel E Ini) (∅, []) [Ini] = _ :=
    run_slotsBody (Option.some_get (initRun_isSome E {} Ini)).symm
  refine ⟨_, Worklist.run_invariant (slotsBody E) (fun st U q => SlotOrder.step) ?_ hrun⟩
  refine ⟨Or.inr (List.mem_singleton_self Ini), ?_, ?_, ?_, ?_⟩
  · simp
  · simp
  · simp
  · simp

variable (E)

/-- No two slots hold a constant that leads to a function. -/
def Unshared (Ini : ValPtr) : Prop :=
  (initSlots E Ini).Pairwise fun s t =>
    s.operand = t.operand → ∀ F path, ¬ PathTo E F s.operand path

/-- The initialiser is not an element of an aggregate. -/
def Outermost (Ini : ValPtr) : Prop :=
  ∀ s ∈ initSlots E Ini, s.operand = Ini → (E.value s.container).kind ≠ .aggregate

variable {E}

theorem getElem?_containersAfter {containers : SortedMap ValPtr (ValPtr × ℕ)} {slots : List Slot}
    {t : Slot} (ht : t ∈ slots) (honly : ∀ s ∈ slots, s.operand = t.operand → s = t) :
    (containersAfter containers slots)[t.operand]? = some (t.container, t.no) := by
  induction slots using List.reverseRecOn with
  | nil => cases ht
  | append_singleton slots s ih =>
    rw [containersAfter, List.foldl_concat, ExtTreeMap.getElem?_insert]
    by_cases hs : s.operand = t.operand
    · rw [honly s (List.mem_append_right _ (List.mem_singleton_self s)) hs]
      simp
    · rw [if_neg (by simpa using hs)]
      rcases List.mem_append.mp ht with ht | ht
      · exact ih ht fun s hs => honly s (List.mem_append_left _ hs)
      · rw [List.mem_singleton.mp ht] at hs
        exact absurd rfl hs

theorem dynFunction_of_aggregate {V : ValPtr} (h : (E.value V).kind = .aggregate) :
    E.dynFunction V = none := by
  unfold Env.dynFunction
  rw [h]

theorem PlainConstants.mem_initPushes_iff (hE : PlainConstants E) {O V : ValPtr}
    (hV : (E.value V).kind = .aggregate) : V ∈ initPushes E O ↔ V = O := by
  constructor
  · intro h
    have hcast : ∀ op P, E.opcode O = some op → op ∈ [.bitCast, .ptrToInt] →
        E.operand O 0 = some P → V ∈ (if (E.dynFunction P).isSome then [] else [P]) → V = O := by
      intro op P hop hmem hP h
      split_ifs at h
      · cases h
      · rw [List.mem_singleton.mp h] at hV
        refine absurd hV (hE.cast_operand O P ?_ hP)
        rw [hop]
        simpa using hmem
    unfold initPushes at h
    split at h
    · cases h
    · split_ifs at h
      · exact List.mem_singleton.mp h
      · split at h
        · rename_i hop
          split at h
          · cases h
          · rename_i hP
            exact hcast _ _ hop (by decide) hP h
        · rename_i hop
          split at h
          · cases h
          · rename_i hP
            exact hcast _ _ hop (by decide) hP h
        · split at h
          · cases h
          · cases h
          · exact List.mem_singleton.mp h
  · rintro rfl
    unfold initPushes
    rw [dynFunction_of_aggregate hV]
    dsimp only
    rw [if_pos (hE.aggregate V hV)]
    exact List.mem_singleton_self V

theorem dynFunction_of_opcode {V : ValPtr} {op : Opcode} (h : E.opcode V = some op) :
    E.dynFunction V = none := by
  unfold Env.opcode at h
  unfold Env.dynFunction
  cases hkind : (E.value V).kind with
  | function f =>
    rw [hkind] at h
    cases h
  | _ => rfl

theorem PlainConstants.leafFunction_eq (hE : PlainConstants E) {O : ValPtr} (hO : IsLeaf E F O)
    (hcast : E.opcode O ≠ some .otherCast) : leafFunction E O = some F := by
  unfold leafFunction
  rcases hO with hO | ⟨hop, hO⟩
  · rw [hO]
  · have htype := hE.cast_type O hop
    simp only [List.mem_cons, List.not_mem_nil, or_false, hcast] at hop
    rcases hop with hop | hop
    · rw [dynFunction_of_opcode hop, htype, hop]
      exact hO
    · rw [dynFunction_of_opcode hop, htype, hop]
      exact hO

theorem Unshared.eq_of_operand (h : Unshared E Ini) {s t : Slot} (hs : s ∈ initSlots E Ini)
    (ht : t ∈ initSlots E Ini) {path : List (ValPtr × ℕ)} (hpath : PathTo E F t.operand path)
    (heq : s.operand = t.operand) : s = t := by
  have hsymm : Std.Symm fun s t : Slot =>
      s.operand = t.operand → ∀ F path, ¬ PathTo E F s.operand path := by
    refine ⟨fun s t h heq F path hp => ?_⟩
    rw [heq] at hp
    exact h heq.symm F path hp
  by_contra hne
  have hnot := List.Pairwise.forall h hs ht hne heq F path
  rw [heq] at hnot
  exact hnot hpath

/-- When a slot is filled that comes after the queueing of `O`, the slot of `O` on the path
has been filled, and it is the recorded one. -/
theorem Unshared.slot_recorded (h : Unshared E Ini) (hE : PlainConstants E)
    (hout : Outermost E Ini) {U O : ValPtr} {i : ℕ} {path : List (ValPtr × ℕ)}
    (hkind : (E.value U).kind = .aggregate) (hpath : PathTo E F O path)
    (ht : (⟨O, U, i⟩ : Slot) ∈ initSlots E Ini) {pre post : List Slot} {s : Slot}
    (hsplit : initSlots E Ini = pre ++ s :: post)
    (horigin : O = Ini ∨ ∃ t ∈ pre, O ∈ initPushes E t.operand) :
    (⟨O, U, i⟩ : Slot) ∈ pre ∧ (containersAfter ∅ (pre ++ [s]))[O]? = some (U, i) := by
  have hpre : (⟨O, U, i⟩ : Slot) ∈ pre := by
    rcases horigin with rfl | ⟨t, htpre, hpush⟩
    · exact absurd hkind (hout _ ht rfl)
    · have heq := (hE.mem_initPushes_iff hpath.isAggregate).mp hpush
      have ht' : t ∈ initSlots E Ini := by
        rw [hsplit]
        exact List.mem_append_left _ htpre
      rwa [h.eq_of_operand ht' ht hpath heq.symm] at htpre
  refine ⟨hpre, ?_⟩
  refine getElem?_containersAfter (t := ⟨O, U, i⟩) (List.mem_append_left _ hpre) ?_
  intro t ht' heq
  refine h.eq_of_operand ?_ ht hpath heq
  rw [hsplit]
  rcases List.mem_append.mp ht' with ht' | ht'
  · exact List.mem_append_left _ ht'
  · rw [List.mem_singleton.mp ht']
    exact List.mem_append_right _ List.mem_cons_self

/-- From a slot of the function the recorded containers lead along the whole path. -/
theorem SlotOrder.exists_leaf {visited : SortedSet ValPtr}
    (hL : SlotOrder E Ini (visited, initSlots E Ini) []) (hE : PlainConstants E)
    (hunshared : Unshared E Ini) (hout : Outermost E Ini)
    (hcast : ∀ V, E.opcode V = some .otherCast → (E.operand V 0).bind E.dynFunction = none)
    {U : ValPtr} {path : List (ValPtr × ℕ)} (hpath : PathTo E F U path) (hU : U ∈ visited) :
    ∃ pre s post, initSlots E Ini = pre ++ s :: post ∧ leafFunction E s.operand = some F ∧
      (∀ C no, (C, no) ∈ path → Encloses (containersAfter ∅ (pre ++ [s])) s.operand C no) ∧
      Relation.ReflTransGen (fun X Y => ∃ k, (containersAfter ∅ (pre ++ [s]))[X]? = some (Y, k))
        s.operand U ∧
      (U = Ini ∨ ∃ t ∈ pre, U ∈ initPushes E t.operand) := by
  induction hpath with
  | @leaf U O i hkind hO hF =>
    have hs : (⟨O, U, i⟩ : Slot) ∈ slotsOf E U := mem_slotsOf.mpr ⟨rfl, hO⟩
    obtain ⟨pre, post, hsplit⟩ := List.append_of_mem (hL.filled U hU _ hs)
    have hleaf : leafFunction E O = some F := by
      refine hE.leafFunction_eq hF fun hop => ?_
      rcases hF with hF | ⟨_, hF⟩
      · rw [dynFunction_of_opcode hop] at hF
        cases hF
      · rw [hcast O hop] at hF
        cases hF
    have hlast : (containersAfter ∅ (pre ++ [⟨O, U, i⟩]))[O]? = some (U, i) := by
      rw [containersAfter, List.foldl_concat, ExtTreeMap.getElem?_insert_self]
    refine ⟨pre, ⟨O, U, i⟩, post, hsplit, hleaf, ?_, Relation.ReflTransGen.single ⟨i, hlast⟩,
      hL.before pre _ post hsplit⟩
    intro C no hC
    obtain ⟨rfl, rfl⟩ := Prod.mk.inj (List.mem_singleton.mp hC)
    exact ⟨O, Relation.ReflTransGen.refl, hlast⟩
  | @nested U O i path hkind hO hpath ih =>
    have ht : (⟨O, U, i⟩ : Slot) ∈ initSlots E Ini :=
      hL.filled U hU _ (mem_slotsOf.mpr ⟨rfl, hO⟩)
    have hvisited : O ∈ visited := by
      simpa using hL.queued _ ht O ((hE.mem_initPushes_iff hpath.isAggregate).mpr rfl)
    obtain ⟨pre, s, post, hsplit, hleaf, henc, hreach, horigin⟩ := ih hvisited
    obtain ⟨hpre, hrecorded⟩ :=
      hunshared.slot_recorded hE hout hkind hpath ht hsplit horigin
    refine ⟨pre, s, post, hsplit, hleaf, ?_, hreach.tail ⟨i, hrecorded⟩, ?_⟩
    · intro C no hC
      rcases List.mem_cons.mp hC with hC | hC
      · obtain ⟨rfl, rfl⟩ := Prod.mk.inj hC
        exact ⟨O, hreach, hrecorded⟩
      · exact henc C no hC
    · obtain ⟨pre₁, pre₂, rfl⟩ := List.append_of_mem hpre
      have hbefore := hL.before pre₁ ⟨O, U, i⟩ (pre₂ ++ s :: post) (by rw [hsplit]; simp)
      rcases hbefore with hfirst | hbefore
      · exact Or.inl hfirst
      · obtain ⟨t', ht', hUt⟩ := hbefore
        exact Or.inr ⟨t', List.mem_append_left _ ht', hUt⟩

/-- An initialiser whose constants on the way to functions are not shared is fully confined. -/
theorem confined_of_unshared (hE : PlainConstants E) {GV : ValPtr}
    (hIni : E.operand GV 0 = some Ini) (hunshared : Unshared E Ini) (hout : Outermost E Ini)
    (hcast : ∀ V, E.opcode V = some .otherCast → (E.operand V 0).bind E.dynFunction = none)
    (hF : (E.function F).isIntrinsic = false) {path : List (ValPtr × ℕ)}
    (hpath : PathTo E F Ini path) {U : ValPtr} {i : ℕ} (hU : (U, i) ∈ path) {h : SizeT}
    (hh : h ∈ containerHashes E m U) :
    F ∈ slot (typeConfineInInitializer E m GV).typeIdxFuncsMap h i := by
  obtain ⟨visited, hL⟩ := slotOrder_initSlots (E := E) Ini
  have hvisited : Ini ∈ visited := by simpa using hL.start
  obtain ⟨pre, s, post, hsplit, hleaf, henc, _⟩ :=
    hL.exists_leaf hE hunshared hout hcast hpath hvisited
  rw [mem_typeConfineInInitializer hIni hpath.isAggregate, slotRecords_iff]
  exact Or.inr ⟨hF, U, i, ⟨pre, s, post, hsplit, hleaf, henc U i hU⟩, rfl, hh⟩

end Mlta

end Cisa

import Cisa.GlobalContext
import Mathlib.Data.Set.Card

/-!
# The calls of the actor of a walk

`VisitSubtreeBFS` answers through its actor only, so what it does is the sequence of calls
it makes. An actor that keeps a log of its calls shows that sequence; the iterations of the
loop, each with the state before it, explain it.
-/

namespace Cisa

open Std

variable {τ : Type}

/-- An actor that also keeps a log of its calls and its answers. -/
def logged (action : CGWalkerActor τ) : CGWalkerActor (τ × List (FuncPtr × CGWalkerReturn)) :=
  fun t F => ((action t.1 F).1, (action t.1 F).2, t.2 ++ [(F, (action t.1 F).1)])

/-- An iteration of the loop: `VisitedFs` and the state of the actor before it, the function
it takes from the queue, and what is left in the queue. -/
structure WalkIteration (τ : Type) where
  visitedFs : FuncSet
  state : τ
  curF : FuncPtr
  fq : List FuncPtr

/-- The iterations of a run of the loop over one of the two maps. -/
def walkIterations (m : PlainFuncMap) (action : CGWalkerActor τ) (F : FuncPtr) (t : τ) :
    List (WalkIteration τ) :=
  (Worklist.trace (Walk.body (PlainFuncMap.next m) (walkStep action)) (walkFuel m) (∅, t) [F]).map
    fun it => ⟨it.1.1, it.1.2, it.2.1, it.2.2⟩

/-- A run with the log beside it: the run is the same, and the log is its iterations. -/
theorem run_logged (m : PlainFuncMap) (action : CGWalkerActor τ) (n : ℕ) (V : FuncSet) (t : τ)
    (log : List (FuncPtr × CGWalkerReturn)) (q : List FuncPtr) :
    Worklist.run (Walk.body (PlainFuncMap.next m) (walkStep (logged action))) n (V, t, log) q =
      (Worklist.run (Walk.body (PlainFuncMap.next m) (walkStep action)) n (V, t) q).map fun r =>
        (r.1, r.2, log ++
          (Worklist.trace (Walk.body (PlainFuncMap.next m) (walkStep action)) n (V, t) q).map
            fun it => (it.2.1, (action it.1.2 it.2.1).1)) := by
  induction n generalizing V t log q with
  | zero =>
    cases q with
    | nil => simp
    | cons x q => rfl
  | succ n ih =>
    cases q with
    | nil => simp
    | cons x q =>
      have hpush : (Walk.body (PlainFuncMap.next m) (walkStep (logged action)) (V, t, log) x).2 =
          (Walk.body (PlainFuncMap.next m) (walkStep action) (V, t) x).2 := rfl
      have hrest := ih (V.insert x) (action t x).2 (log ++ [(x, (action t x).1)])
        (q ++ (Walk.body (PlainFuncMap.next m) (walkStep action) (V, t) x).2)
      simp only [Worklist.run, Worklist.trace, hpush, List.map_cons]
      refine hrest.trans ?_
      simp only [List.append_assoc, List.singleton_append]
      rfl

theorem walk_logged (m : PlainFuncMap) (action : CGWalkerActor τ) (F : FuncPtr) (t : τ) :
    walk m (logged action) F (t, []) =
      ((walk m action F t).1, (walk m action F t).2,
        (walkIterations m action F t).map fun it => (it.curF, (action it.state it.curF).1)) := by
  have h := run_eq_walk m (logged action) F (t, [])
  rw [run_logged, run_eq_walk, Option.map_some] at h
  refine (Option.some.inj h).symm.trans ?_
  simp [walkIterations, Function.comp_def]

theorem pairwise_not_iff {α : Type*} (p : α → Prop) (xs : List α) :
    xs.Pairwise (fun x _ => ¬ p x) ↔ ∀ pre x post, xs = pre ++ x :: post → p x → post = [] := by
  induction xs with
  | nil => simp
  | cons a xs ih =>
    rw [List.pairwise_cons, ih]
    constructor
    · intro h pre x post heq hp
      cases pre with
      | nil =>
        obtain ⟨rfl, rfl⟩ := List.cons.inj heq
        exact List.eq_nil_iff_forall_not_mem.mpr fun b hb => h.1 b hb hp
      | cons c pre => exact h.2 pre x post (List.cons.inj heq).2 hp
    · intro h
      constructor
      · intro b hb hp
        simp [h [] a xs rfl hp] at hb
      · intro pre x post heq
        exact h (a :: pre) x post (by rw [heq, List.cons_append])

namespace GlobalContext

variable (ctx : GlobalContext) (F : FuncPtr) (dir : CGWalkerDir) (action : CGWalkerActor τ) (t : τ)

/-- The calls that `VisitSubtreeBFS` makes to its actor, in order, with the answers. -/
def actorCalls : List (FuncPtr × CGWalkerReturn) :=
  (ctx.visitSubtreeBFS F dir (logged action) (t, [])).2

def iterations : List (WalkIteration τ) := walkIterations (ctx.nextmap dir) action F t

theorem visitSubtreeBFS_logged :
    (ctx.visitSubtreeBFS F dir (logged action) (t, [])).1 = ctx.visitSubtreeBFS F dir action t := by
  simp [visitSubtreeBFS, walk_logged]

theorem actorCalls_eq : ctx.actorCalls F dir action t =
    (ctx.iterations F dir action t).map fun it => (it.curF, (action it.state it.curF).1) := by
  simp [actorCalls, iterations, visitSubtreeBFS, walk_logged]

theorem map_fst_actorCalls : (ctx.actorCalls F dir action t).map Prod.fst =
    (Worklist.trace (Walk.body (PlainFuncMap.next (ctx.nextmap dir)) (walkStep action))
      (walkFuel (ctx.nextmap dir)) (∅, t) [F]).map fun it => it.2.1 := by
  simp [actorCalls_eq, iterations, walkIterations, Function.comp_def]

/-- The functions reached from `F` in the direction of the walk. -/
def Reached (G : FuncPtr) : Prop :=
  Relation.ReflTransGen (fun A B => B ∈ (ctx.nextmap dir).row A) F G

theorem finite_reached : {G | ctx.Reached F dir G}.Finite := by
  apply (List.finite_toSet (F :: PlainFuncMap.members (ctx.nextmap dir))).subset
  intro G hG
  rcases Relation.ReflTransGen.cases_tail hG with rfl | ⟨A, _, hA⟩
  · exact List.mem_cons_self
  · exact List.mem_cons_of_mem _
      (PlainFuncMap.mem_members _ ((PlainFuncMap.mem_next _).mpr hA))

theorem reached_of_mem_actorCalls {G : FuncPtr}
    (hG : G ∈ (ctx.actorCalls F dir action t).map Prod.fst) : ctx.Reached F dir G := by
  rw [map_fst_actorCalls] at hG
  obtain ⟨x, hx, hreach⟩ := Walk.reached_of_taken _ _ (run_eq_walk _ action F t) hG
  rw [List.mem_singleton.mp hx] at hreach
  simpa [Reached, PlainFuncMap.mem_next] using hreach

/-- The walk over the graph ends for every actor, and an actor with fixed answers is called
exactly on the least set that holds the start and the successors of every member on which it
answers `NEXT`. -/
theorem visitSubtreeBFS_covers :
    (∀ (τ : Type) (action : CGWalkerActor τ) (t : τ), ∃ n V,
      Worklist.run (Walk.body (PlainFuncMap.next (ctx.nextmap dir)) (walkStep action)) n (∅, t) [F] =
        some (V, ctx.visitSubtreeBFS F dir action t)) ∧
    ∀ (τ : Type) (action : CGWalkerActor τ) (t : τ) (answer : FuncPtr → CGWalkerReturn),
      (∀ t G, (action t G).1 = answer G) → (∀ G, answer G ≠ .stop) →
        IsLeast {S : Set FuncPtr | F ∈ S ∧ ∀ A ∈ S, answer A = .next →
            ∀ B ∈ (ctx.nextmap dir).row A, B ∈ S}
          {G | G ∈ (ctx.actorCalls F dir action t).map Prod.fst} := by
  constructor
  · intro τ action t
    exact ⟨walkFuel (ctx.nextmap dir), _, run_eq_walk _ action F t⟩
  · intro τ action t answer hfix hstop
    have hgo : ∀ (t : τ × List (FuncPtr × CGWalkerReturn)) G,
        pushesNext (logged action t G).1 = decide (answer G = .next) := by
      intro t G
      have hG := hstop G
      simp only [logged, hfix]
      cases h : answer G
      · rfl
      · rfl
      · exact absurd h hG
    -- the actor's log lists the functions marked so far
    have hmem := walk_spec (m := ctx.nextmap dir) hgo
      (J := fun V t => ∀ G, G ∈ V ↔ G ∈ t.2.map Prod.fst)
      (by
        intro V t A h G
        have hA := h G
        simp only [logged, ExtTreeSet.mem_insert, LawfulEqCmp.compare_eq_iff_eq, List.map_append,
          List.mem_append, List.map_cons, List.map_nil, List.mem_singleton, hA]
        rw [or_comm, eq_comm])
      F (t := (t, [])) (by simp)
    obtain ⟨hlog, hreach⟩ := hmem
    have hcalls : ∀ G, G ∈ (ctx.actorCalls F dir action t).map Prod.fst ↔
        Relation.ReflTransGen (WalkEdge (ctx.nextmap dir) fun A => decide (answer A = .next)) F G :=
      fun G => (hlog G).symm.trans (hreach G)
    constructor
    · constructor
      · exact (hcalls F).mpr Relation.ReflTransGen.refl
      · intro A hA hnext B hB
        exact (hcalls B).mpr (((hcalls A).mp hA).tail ⟨by simpa using hnext, hB⟩)
    · intro S hS G hG
      have hG' := (hcalls G).mp hG
      induction hG' with
      | refl => exact hS.1
      | tail hA hstep ih =>
        exact hS.2 _ (ih ((hcalls _).mpr hA)) (by simpa using hstep.1) _ hstep.2

/-- A function that calls two others, the first of which calls the second. -/
def triangle : GlobalContext where
  callees := ((∅ : PlainFuncMap).addTo ⟨0, 0⟩ ⟨0, 1⟩).addTo ⟨0, 0⟩ ⟨0, 2⟩ |>.addTo ⟨0, 1⟩ ⟨0, 2⟩

theorem visitSubtreeBFS_covers_triangle :
    IsLeast {S : Set FuncPtr | ⟨0, 1⟩ ∈ S ∧ ∀ A ∈ S,
        (if A = ⟨0, 2⟩ then CGWalkerReturn.skip else .next) = .next →
          ∀ B ∈ (triangle.nextmap .down).row A, B ∈ S}
      {G | G ∈ (triangle.actorCalls ⟨0, 1⟩ .down
        (fun (_ : Unit) A => (if A = ⟨0, 2⟩ then .skip else .next, ())) ()).map Prod.fst} :=
  (visitSubtreeBFS_covers triangle ⟨0, 1⟩ .down).2 Unit _ ()
    (fun A => if A = ⟨0, 2⟩ then .skip else .next) (fun _ _ => rfl) (by intro G; split <;> simp)

/-- Once the actor has answered `STOP` it is called no more, exactly when every `STOP` comes
while no other function waits and all successors have been visited: `STOP` itself ends
nothing. -/
theorem stop_ends_walk_iff :
    (ctx.actorCalls F dir action t).Pairwise (fun call _ => call.2 ≠ .stop) ↔
      ∀ it ∈ ctx.iterations F dir action t, (action it.state it.curF).1 = .stop →
        it.fq = [] ∧ ∀ G ∈ (ctx.nextmap dir).row it.curF, G ∈ it.visitedFs ∨ G = it.curF := by
  have hrun := run_eq_walk (ctx.nextmap dir) action F t
  -- what an iteration leaves in the queue
  have hleft : ∀ (V : FuncSet) (s : τ) (A : FuncPtr) (q : List FuncPtr), (action s A).1 = .stop →
      (q ++ (Walk.body (PlainFuncMap.next (ctx.nextmap dir)) (walkStep action) (V, s) A).2 = [] ↔
        q = [] ∧ ∀ G ∈ (ctx.nextmap dir).row A, G ∈ V ∨ G = A) := by
    intro V s A q hstop
    rw [List.append_eq_nil_iff, List.eq_nil_iff_forall_not_mem (l := Prod.snd _)]
    apply and_congr_right
    intro _
    apply forall_congr'
    intro G
    rw [Walk.mem_body_snd]
    simp only [walkStep, hstop, pushesNext, PlainFuncMap.mem_next, ExtTreeSet.mem_insert,
      LawfulEqCmp.compare_eq_iff_eq]
    rw [true_and, not_and, not_not, or_comm, eq_comm (a := A)]
  have hpair : (ctx.actorCalls F dir action t).Pairwise (fun call _ => call.2 ≠ .stop) ↔
      ∀ pre it post, Worklist.trace (Walk.body (PlainFuncMap.next (ctx.nextmap dir))
        (walkStep action)) (walkFuel (ctx.nextmap dir)) (∅, t) [F] = pre ++ it :: post →
          (action it.1.2 it.2.1).1 = .stop → post = [] := by
    rw [actorCalls_eq, iterations, walkIterations, List.map_map, List.pairwise_map]
    exact pairwise_not_iff _ _
  rw [hpair]
  constructor
  · intro h it hit hstop
    obtain ⟨⟨⟨V, s⟩, A, q⟩, hmem, rfl⟩ := List.mem_map.mp hit
    obtain ⟨pre, post, htr⟩ := List.append_of_mem hmem
    obtain ⟨n, hn, hpost⟩ := Worklist.trace_split hrun htr
    rw [h pre _ post htr hstop, eq_comm, Worklist.trace_eq_nil hn] at hpost
    exact (hleft V s A q hstop).mp hpost
  · intro h pre it post htr hstop
    obtain ⟨⟨V, s⟩, A, q⟩ := it
    obtain ⟨n, hn, rfl⟩ := Worklist.trace_split hrun htr
    rw [Worklist.trace_eq_nil hn]
    apply (hleft V s A q hstop).mpr
    exact h ⟨V, s, A, q⟩ (List.mem_map.mpr ⟨((V, s), A, q), by simp [htr], rfl⟩) hstop

/-- `STOP` on the start of the walk: the two callees are visited nevertheless. -/
theorem stop_goes_on : ¬ (triangle.actorCalls ⟨0, 0⟩ .down
    (fun (_ : Unit) A => (if A = ⟨0, 0⟩ then .stop else .next, ())) ()).Pairwise
      (fun call _ => call.2 ≠ .stop) := by
  decide

/-- The actor is called at most once on each function, and so not more often than there are
functions to reach, exactly when no iteration queues a function that is waiting already. -/
theorem actorCalls_nodup_iff :
    (((ctx.actorCalls F dir action t).map Prod.fst).Nodup ∧
      (ctx.actorCalls F dir action t).length ≤ {G | ctx.Reached F dir G}.ncard) ↔
      ∀ it ∈ ctx.iterations F dir action t, (action it.state it.curF).1 ≠ .skip →
        ∀ G ∈ (ctx.nextmap dir).row it.curF, G ∈ it.fq → G ∈ it.visitedFs ∨ G = it.curF := by
  have hrun := run_eq_walk (ctx.nextmap dir) action F t
  have hnodup := Walk.nodup_taken_iff _ _ (fun x => PlainFuncMap.nodup_next _ x) hrun
  rw [← map_fst_actorCalls] at hnodup
  have hbound : ((ctx.actorCalls F dir action t).map Prod.fst).Nodup →
      (ctx.actorCalls F dir action t).length ≤ {G | ctx.Reached F dir G}.ncard := by
    intro hnd
    rw [← List.length_map (f := Prod.fst), ← List.toFinset_card_of_nodup hnd,
      ← Set.ncard_coe_finset]
    apply Set.ncard_le_ncard _ (ctx.finite_reached F dir)
    intro G hG
    exact ctx.reached_of_mem_actorCalls F dir action t (by simpa using hG)
  rw [and_iff_left_of_imp hbound, hnodup, iterations, walkIterations, List.forall_mem_map]
  apply forall₂_congr
  intro it _
  have hpush : pushesNext (action it.1.2 it.2.1).1 = true ↔ (action it.1.2 it.2.1).1 ≠ .skip := by
    cases (action it.1.2 it.2.1).1 <;> simp [pushesNext]
  simp only [Walk.mem_body_snd, walkStep, hpush, PlainFuncMap.mem_next, ExtTreeSet.mem_insert,
    LawfulEqCmp.compare_eq_iff_eq]
  constructor
  · intro h hskip G hG hwait
    by_contra hnew
    exact h G ⟨hskip, hG, fun hseen => hnew (hseen.symm.imp_right Eq.symm)⟩ hwait
  · intro h G hG hwait
    have hseen := h hG.1 G hG.2.1 hwait
    exact hG.2.2 (hseen.symm.imp_left Eq.symm)

theorem visited_twice : ¬ ((triangle.actorCalls ⟨0, 0⟩ .down
    (fun (_ : Unit) _ => (.next, ())) ()).map Prod.fst).Nodup := by
  decide

end GlobalContext

end Cisa

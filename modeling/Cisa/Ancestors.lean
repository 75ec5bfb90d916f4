import Cisa.GlobalContext

/-!
# Ancestor queries and their two caches

`isAncestor` stores a positive pair `(anc, des)` in the row of `des`, but the walk
looks the pair up in the row of the function it visits: what it finds there are
earlier queries with the two roles exchanged. The condition below says which earlier
queries make a difference, in terms of the graph alone.
-/

namespace Cisa

open Std Relation

/-- `G` is reached from `F` along one or more `Callees` edges. -/
def Reaches (callees : PlainFuncMap) : FuncPtr → FuncPtr → Prop :=
  TransGen fun F G => G ∈ callees.row F

namespace Ancestors

/-- An ancestor query `IsAncestor(AncF, DesF)`. -/
abbrev Query := FuncPtr × FuncPtr

/-- The answers to a sequence of queries, with no change of the graph in between. -/
def answers : GlobalContext → List Query → List Bool
  | _, [] => []
  | ctx, q :: qs => (ctx.isAncestor q.1 q.2).1 :: answers (ctx.isAncestor q.1 q.2).2 qs

/-- The answer to a query about two different functions says whether there is a path. -/
def Exact (callees : PlainFuncMap) (q : Query) (ans : Bool) : Prop :=
  q.1 ≠ q.2 → (ans = true ↔ Reaches callees q.1 q.2)

/-- Every answer is exact when the queries start with empty caches. -/
def AllExact (callees : PlainFuncMap) (qs : List Query) : Prop :=
  List.Forall₂ (Exact callees) qs (answers { callees := callees } qs)

variable (callees : PlainFuncMap)

/-- An edge out of `F`, unless the exchanged query `(des, F)` was asked before although
`des` does not reach `F`. -/
def OpenEdge (asked : List Query) (des F G : FuncPtr) : Prop :=
  G ∈ callees.row F ∧ ¬ (F ≠ des ∧ (des, F) ∈ asked ∧ ¬ Reaches callees des F)

/-- The functions that end the search for `des`: `des` itself, and those for which the
exchanged query was asked before and `des` reaches them. -/
def Ends (asked : List Query) (des F : FuncPtr) : Prop :=
  F = des ∨ ((des, F) ∈ asked ∧ Reaches callees des F)

/-- The queries asked before `q` do not disturb it: some open path from its ancestor
arrives at a function that ends the search exactly when there is a path to its
descendant. -/
def Undisturbed (asked : List Query) (q : Query) : Prop :=
  q.1 ≠ q.2 → q ∉ asked →
    ((∃ F, ReflTransGen (OpenEdge callees asked q.2) q.1 F ∧ Ends callees asked q.2 F) ↔
      Reaches callees q.1 q.2)

/-- The caches hold the queries asked so far, each with its true answer. -/
structure Cached (ctx : GlobalContext) (asked : List Query) : Prop where
  callees_eq : ctx.callees = callees
  anc : ∀ a d, a ∈ ctx.ancCache.row d ↔ (a, d) ∈ asked ∧ a ≠ d ∧ Reaches callees a d
  neg : ∀ a d, a ∈ ctx.negAncCache.row d ↔ (a, d) ∈ asked ∧ a ≠ d ∧ ¬ Reaches callees a d

theorem cached_start : Cached callees { callees := callees } [] :=
  ⟨rfl, by simp, by simp⟩

variable {callees} {ctx : GlobalContext} {asked : List Query}

theorem forgetCaches_isAncestor (ctx : GlobalContext) (q : Query) :
    { (ctx.isAncestor q.1 q.2).2 with ancCache := ∅, negAncCache := ∅ } =
      { ctx with ancCache := ∅, negAncCache := ∅ } := by
  unfold GlobalContext.isAncestor
  split_ifs <;> rfl

/-- What the walk of `IsAncestor` finds, whatever the caches hold. -/
theorem visit_isAncestorActor (anc des : FuncPtr) :
    ctx.visitSubtreeBFS anc .down (ctx.isAncestorActor des) false = true ↔
      ∃ F, ReflTransGen (fun F G => G ∈ ctx.callees.row F ∧
          ¬ (F ≠ des ∧ des ∉ ctx.ancCache.row F ∧ des ∈ ctx.negAncCache.row F)) anc F ∧
        (F = des ∨ des ∈ ctx.ancCache.row F) := by
  let go : FuncPtr → Bool := fun F =>
    !decide (F ≠ des ∧ des ∉ ctx.ancCache.row F ∧ des ∈ ctx.negAncCache.row F)
  have hgo : ∀ b F, pushesNext (ctx.isAncestorActor des b F).1 = go F := by
    intro b F
    unfold GlobalContext.isAncestorActor
    by_cases hend : F = des ∨ des ∈ ctx.ancCache.row F
    · have : go F = true := by
        simp only [go, Bool.not_eq_true', decide_eq_false_iff_not]
        tauto
      simp [hend, this, pushesNext]
    · obtain ⟨h1, h2⟩ := not_or.mp hend
      by_cases hneg : des ∈ ctx.negAncCache.row F
      · simp [h1, h2, hneg, go, pushesNext]
      · simp [h1, h2, hneg, go, pushesNext]
  have h := walk_spec (m := ctx.callees) hgo
    (J := fun V b => b = true ↔ ∃ F, F ∈ V ∧ (F = des ∨ des ∈ ctx.ancCache.row F))
    ?_ anc (t := false) (by simp)
  · have he : WalkEdge ctx.callees go = fun F G => G ∈ ctx.callees.row F ∧
        ¬ (F ≠ des ∧ des ∉ ctx.ancCache.row F ∧ des ∈ ctx.negAncCache.row F) := by
      funext F G
      simp only [WalkEdge, go, Bool.not_eq_true', decide_eq_false_iff_not, and_comm]
    rw [he] at h
    rw [GlobalContext.visitSubtreeBFS, GlobalContext.nextmap, h.1]
    simp only [h.2]
  · intro V b F hV
    unfold GlobalContext.isAncestorActor
    by_cases hend : F = des ∨ des ∈ ctx.ancCache.row F
    · simp only [hend, if_true, true_iff]
      exact ⟨F, by simp, hend⟩
    · have hstep : (∃ G, G ∈ V.insert F ∧ (G = des ∨ des ∈ ctx.ancCache.row G)) ↔
          ∃ G, G ∈ V ∧ (G = des ∨ des ∈ ctx.ancCache.row G) := by
        constructor
        · rintro ⟨G, hG, hGe⟩
          rcases (show F = G ∨ G ∈ V by simpa using hG) with rfl | hG
          · exact absurd hGe hend
          · exact ⟨G, hG, hGe⟩
        · rintro ⟨G, hG, hGe⟩
          exact ⟨G, by simp [hG], hGe⟩
      rw [hstep, ← hV]
      simp only [hend, if_false]
      split_ifs <;> rfl

/-- With truthful caches, a new query follows the open paths of the queries asked. -/
theorem Cached.visit (h : Cached callees ctx asked) (anc des : FuncPtr) :
    ctx.visitSubtreeBFS anc .down (ctx.isAncestorActor des) false = true ↔
      ∃ F, ReflTransGen (OpenEdge callees asked des) anc F ∧ Ends callees asked des F := by
  rw [visit_isAncestorActor]
  have he : (fun F G => G ∈ ctx.callees.row F ∧
      ¬ (F ≠ des ∧ des ∉ ctx.ancCache.row F ∧ des ∈ ctx.negAncCache.row F)) =
      OpenEdge callees asked des := by
    funext F G
    simp only [OpenEdge, h.callees_eq, h.anc, h.neg, ne_eq, eq_comm (a := des)]
    apply propext
    tauto
  rw [he]
  refine exists_congr fun F => and_congr_right fun _ => ?_
  rw [Ends, h.anc]
  by_cases hF : F = des
  · simp [hF]
  · simp [hF, Ne.symm hF]

theorem Cached.callees_isAncestor (h : Cached callees ctx asked) (q : Query) :
    (ctx.isAncestor q.1 q.2).2.callees = callees := by
  unfold GlobalContext.isAncestor
  split_ifs <;> exact h.callees_eq

theorem Cached.same (h : Cached callees ctx asked) {q : Query} (hq : q.1 = q.2) :
    Cached callees (ctx.isAncestor q.1 q.2).2 (asked ++ [q]) := by
  have hctx : (ctx.isAncestor q.1 q.2).2 = ctx := by simp [GlobalContext.isAncestor, hq]
  have hne : ∀ a d : FuncPtr, (a, d) ∈ asked ++ [q] ∧ a ≠ d ↔ (a, d) ∈ asked ∧ a ≠ d := by
    intro a d
    refine and_congr_left fun had => ?_
    rw [List.mem_append, List.mem_singleton, or_iff_left]
    rintro rfl
    exact had hq
  rw [hctx]
  refine ⟨h.callees_eq, fun a d => ?_, fun a d => ?_⟩
  · rw [h.anc, ← and_assoc, ← and_assoc, hne]
  · rw [h.neg, ← and_assoc, ← and_assoc, hne]

theorem Cached.repeated (h : Cached callees ctx asked) {q : Query} (hne : q.1 ≠ q.2)
    (hq : q ∈ asked) :
    ctx.isAncestor q.1 q.2 = (ctx.isAncestor q.1 q.2 |>.1, ctx) ∧
      ((ctx.isAncestor q.1 q.2).1 = true ↔ Reaches callees q.1 q.2) := by
  have ha := h.anc q.1 q.2
  have hn := h.neg q.1 q.2
  by_cases hr : Reaches callees q.1 q.2
  · have : q.1 ∈ ctx.ancCache.row q.2 := ha.mpr ⟨hq, hne, hr⟩
    simp [GlobalContext.isAncestor, hne, this, hr]
  · have h1 : q.1 ∉ ctx.ancCache.row q.2 := fun hmem => hr (ha.mp hmem).2.2
    have h2 : q.1 ∈ ctx.negAncCache.row q.2 := hn.mpr ⟨hq, hne, hr⟩
    simp [GlobalContext.isAncestor, hne, h1, h2, hr]

theorem Cached.fresh (h : Cached callees ctx asked) {q : Query} (hne : q.1 ≠ q.2)
    (hq : q ∉ asked) :
    ctx.isAncestor q.1 q.2 =
      if ctx.visitSubtreeBFS q.1 .down (ctx.isAncestorActor q.2) false then
        (true, { ctx with ancCache := ctx.ancCache.addTo q.2 q.1 })
      else (false, { ctx with negAncCache := ctx.negAncCache.addTo q.2 q.1 }) := by
  have h1 : q.1 ∉ ctx.ancCache.row q.2 := fun hmem => hq ((h.anc _ _).mp hmem).1
  have h2 : q.1 ∉ ctx.negAncCache.row q.2 := fun hmem => hq ((h.neg _ _).mp hmem).1
  simp only [GlobalContext.isAncestor, hne, h1, h2, if_false]

/-- One step: the answer is exact if and only if the query is undisturbed. -/
theorem Cached.exact_iff (h : Cached callees ctx asked) (q : Query) :
    Exact callees q (ctx.isAncestor q.1 q.2).1 ↔ Undisturbed callees asked q := by
  by_cases hne : q.1 = q.2
  · simp [Exact, Undisturbed, hne]
  by_cases hq : q ∈ asked
  · simp [Exact, Undisturbed, hq, (h.repeated hne hq).2]
  · have hv := h.visit q.1 q.2
    rw [Exact, Undisturbed, ← hv, h.fresh hne hq]
    split_ifs with hvis <;> simp [hne, hq, hvis]

theorem Cached.step (h : Cached callees ctx asked) {q : Query}
    (hex : Exact callees q (ctx.isAncestor q.1 q.2).1) :
    Cached callees (ctx.isAncestor q.1 q.2).2 (asked ++ [q]) := by
  by_cases hne : q.1 = q.2
  · exact h.same hne
  by_cases hq : q ∈ asked
  · have hctx : (ctx.isAncestor q.1 q.2).2 = ctx := by rw [(h.repeated hne hq).1]
    have hmem : ∀ p : Query, p ∈ asked ++ [q] ↔ p ∈ asked := by
      intro p
      rw [List.mem_append, List.mem_singleton, or_iff_left_of_imp]
      rintro rfl
      exact hq
    rw [hctx]
    exact ⟨h.callees_eq, fun a d => by rw [h.anc, hmem], fun a d => by rw [h.neg, hmem]⟩
  · have hans := hex hne
    refine ⟨h.callees_isAncestor q, fun a d => ?_, fun a d => ?_⟩
    all_goals
      rw [h.fresh hne hq] at hans ⊢
      obtain ⟨qa, qd⟩ := q
      split_ifs at hans ⊢ with hvis
      · simp only [true_iff] at hans
        simp only [ExtTreeMap.mem_row_addTo, h.anc, h.neg, List.mem_append, List.mem_singleton,
          Prod.mk.injEq]
        constructor
        · grind
        · grind
      · simp only [false_iff] at hans
        simp only [ExtTreeMap.mem_row_addTo, h.anc, h.neg, List.mem_append, List.mem_singleton,
          Prod.mk.injEq]
        constructor
        · grind
        · grind

/-- The run: all answers are exact if and only if no query is disturbed by the ones
before it. -/
theorem Cached.allExact_iff (h : Cached callees ctx asked) (qs : List Query) :
    List.Forall₂ (Exact callees) qs (answers ctx qs) ↔
      ∀ pre q post, qs = pre ++ q :: post → Undisturbed callees (asked ++ pre) q := by
  induction qs generalizing ctx asked with
  | nil => simp [answers]
  | cons q qs ih =>
    rw [answers, List.forall₂_cons]
    constructor
    · rintro ⟨hq, hqs⟩ pre p post heq
      cases pre with
      | nil =>
        obtain ⟨rfl, rfl⟩ := List.cons.inj heq
        simpa using h.exact_iff q |>.mp hq
      | cons q' pre =>
        obtain ⟨rfl, hrest⟩ := List.cons.inj heq
        simpa using (ih (h.step hq)).mp hqs pre p post hrest
    · intro hall
      have hq := (h.exact_iff q).mpr (by simpa using hall [] q qs rfl)
      refine ⟨hq, (ih (h.step hq)).mpr ?_⟩
      rintro pre p post rfl
      simpa using hall (q :: pre) p post rfl

/-- From empty caches, every answer of a sequence of queries is exact if and only if no
query is disturbed by the exchanged queries asked before it. -/
theorem isAncestor_exact_iff (callees : PlainFuncMap) (qs : List Query) :
    AllExact callees qs ↔
      ∀ pre q post, qs = pre ++ q :: post → Undisturbed callees pre q :=
  (cached_start callees).allExact_iff qs

def oneCall : PlainFuncMap := (∅ : PlainFuncMap).addTo ⟨0, 0⟩ ⟨0, 1⟩

/-- Asking for the caller first makes the callee its ancestor afterwards. -/
theorem isAncestor_exchanged :
    ¬ AllExact oneCall [(⟨0, 0⟩, ⟨0, 1⟩), (⟨0, 1⟩, ⟨0, 0⟩)] := by
  intro h
  have hans : answers { callees := oneCall } [(⟨0, 0⟩, ⟨0, 1⟩), (⟨0, 1⟩, ⟨0, 0⟩)] =
      [true, true] := by decide
  rw [AllExact, hans, List.forall₂_cons, List.forall₂_cons] at h
  have hr : Reaches oneCall ⟨0, 1⟩ ⟨0, 0⟩ := (h.2.1 (by decide)).mp rfl
  obtain ⟨G, hG, _⟩ := TransGen.head'_iff.mp hr
  simp [oneCall] at hG

end Ancestors

end Cisa

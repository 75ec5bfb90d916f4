import Cisa.Lib.Rows

/-!
# Loops that empty a queue

`while (!q.empty()) { x = q.front(); q.pop(); ... q.push(y); ... }` with a loop
state `σ`: the body returns the new state and what it pushes. The loop is run with
a budget of iterations; `run_isSome` is the termination rule (a measure that may
look at annotated entries), `run_invariant` the invariant rule, and `run_add` says
that a budget that suffices may be raised. `run_isSome_of_seen` is the termination rule
for loops that expand every element once, and `mem_run_collect` says what such a loop
collects. `trace` lists the iterations of a run.
-/

open Std

namespace Worklist

variable {σ α β : Type*} (body : σ → α → σ × List α)

/-- The loop with a budget; `none` is a budget that ran out. -/
def run : ℕ → σ → List α → Option σ
  | _, s, [] => some s
  | 0, _, _ :: _ => none
  | n + 1, s, x :: q => run n (body s x).1 (q ++ (body s x).2)

@[simp] theorem run_nil (n : ℕ) (s : σ) : run body n s [] = some s := by
  cases n <;> rfl

theorem run_add {n : ℕ} {s t : σ} {q : List α} (h : run body n s q = some t) (k : ℕ) :
    run body (n + k) s q = some t := by
  induction n generalizing s q with
  | zero =>
    cases q with
    | nil => simpa using h
    | cons x q => simp [run] at h
  | succ n ih =>
    cases q with
    | nil => simpa using h
    | cons x q =>
      rw [Nat.add_right_comm]
      exact ih h

/-- Two budgets that both suffice give the same result. -/
theorem run_unique {m n : ℕ} {s t u : σ} {q : List α} (hm : run body m s q = some t)
    (hn : run body n s q = some u) : t = u := by
  have h1 := run_add body hm n
  have h2 := run_add body hn m
  rw [Nat.add_comm] at h2
  exact Option.some.inj (h1.symm.trans h2)

/-- An invariant of one iteration holds at the end, with the queue empty. -/
theorem run_invariant {I : σ → List α → Prop}
    (step : ∀ s x q, I s (x :: q) → I (body s x).1 (q ++ (body s x).2))
    {n : ℕ} {s t : σ} {q : List α} (h : I s q) (hrun : run body n s q = some t) : I t [] := by
  induction n generalizing s q with
  | zero =>
    cases q with
    | nil => simpa [run] using (Option.some.inj hrun) ▸ h
    | cons x q => simp [run] at hrun
  | succ n ih =>
    cases q with
    | nil => simpa [run] using (Option.some.inj hrun) ▸ h
    | cons x q => exact ih (step s x q h) hrun

/-- A family of runs that push the same entries. `K` is kept by one iteration of all runs of
the family together; so all of them end together, and `K` holds of the results. -/
theorem run_family {ι : Type*} {K : (ι → σ) → Prop}
    (step : ∀ s x, K s → ∃ t out, K t ∧ ∀ i, body (s i) x = (t i, out))
    (n : ℕ) {s : ι → σ} (q : List α) (h : K s) :
    (∀ i, run body n (s i) q = none) ∨ ∃ t, K t ∧ ∀ i, run body n (s i) q = some (t i) := by
  induction n generalizing s q with
  | zero =>
    cases q with
    | nil => exact Or.inr ⟨s, h, fun i => rfl⟩
    | cons x q => exact Or.inl fun i => rfl
  | succ n ih =>
    cases q with
    | nil => exact Or.inr ⟨s, h, fun i => rfl⟩
    | cons x q =>
      obtain ⟨t, out, ht, hstep⟩ := step s x h
      have hrun : ∀ i, run body (n + 1) (s i) (x :: q) = run body n (t i) (q ++ out) := by
        intro i
        rw [run, hstep]
      simp only [hrun]
      exact ih (q ++ out) ht

/-- Two loops whose states are related and which push the same entries end together, in
related states. -/
theorem run_simulates {τ : Type*} {body' : τ → α → τ × List α} {R : σ → τ → Prop}
    (step : ∀ s t x, R s t → (body s x).2 = (body' t x).2 ∧ R (body s x).1 (body' t x).1)
    {n : ℕ} {s : σ} {t t' : τ} {q : List α} (h : R s t) (hrun : run body' n t q = some t') :
    ∃ s', run body n s q = some s' ∧ R s' t' := by
  induction n generalizing s t q with
  | zero =>
    cases q with
    | nil => exact ⟨s, rfl, (Option.some.inj hrun) ▸ h⟩
    | cons x q => simp [run] at hrun
  | succ n ih =>
    cases q with
    | nil => exact ⟨s, rfl, (Option.some.inj hrun) ▸ h⟩
    | cons x q =>
      obtain ⟨hout, hnext⟩ := step s t x h
      rw [run, hout]
      exact ih hnext hrun

/-- Termination. Entries may be annotated (`proj` forgets the annotation); the
measure of the annotated queue goes down with every iteration. -/
theorem run_isSome (proj : β → α) {I : σ → List β → Prop} {μ : σ → List β → ℕ}
    (step : ∀ s b q, I s (b :: q) → ∃ bs, bs.map proj = (body s (proj b)).2 ∧
      I (body s (proj b)).1 (q ++ bs) ∧ μ (body s (proj b)).1 (q ++ bs) < μ s (b :: q))
    {n : ℕ} {s : σ} {q : List β} (h : I s q) (hn : μ s q ≤ n) :
    (run body n s (q.map proj)).isSome := by
  induction n generalizing s q with
  | zero =>
    cases q with
    | nil => simp
    | cons b q =>
      obtain ⟨bs, _, _, hlt⟩ := step s b q h
      omega
  | succ n ih =>
    cases q with
    | nil => simp
    | cons b q =>
      obtain ⟨bs, hbs, hI, hlt⟩ := step s b q h
      have hrun := ih hI (by omega)
      rwa [List.map_append, hbs] at hrun

section Seen

variable [Ord α] [TransOrd α] [LawfulEqOrd α] {body}

omit [LawfulEqOrd α] in
theorem seen_or_queued {seen : SortedSet α} {x y : α} {q : List α} (hx : x ∈ seen)
    (hy : y ∈ seen ∨ y ∈ x :: q) : y ∈ seen ∨ y ∈ q := by
  rcases hy with hy | hy
  · exact Or.inl hy
  · rcases List.mem_cons.mp hy with rfl | hy
    · exact Or.inl hx
    · exact Or.inr hy

theorem marked_or_queued {seen : SortedSet α} {x y : α} {q : List α} (out : List α)
    (hy : y ∈ seen ∨ y ∈ x :: q) : y ∈ seen.insert x ∨ y ∈ q ++ out := by
  have hdrop : y ∈ seen.insert x ∨ y ∈ q :=
    seen_or_queued ExtTreeSet.mem_insert_self (hy.imp_left fun hy => by simp [hy])
  exact hdrop.imp_right (List.mem_append_left out)

/-- The cost of the elements that are still to be expanded. -/
def pending (cost : α → ℕ) (seen : SortedSet α) (U : List α) : ℕ :=
  (U.map fun x => if x ∈ seen then 0 else cost x).sum

omit [LawfulEqOrd α] in
theorem pending_le_of_subset (cost : α → ℕ) {seen seen' : SortedSet α}
    (h : ∀ x ∈ seen, x ∈ seen') (U : List α) : pending cost seen' U ≤ pending cost seen U := by
  induction U with
  | nil => simp [pending]
  | cons u U ih =>
    simp only [pending, List.map_cons, List.sum_cons] at ih ⊢
    have hu : (if u ∈ seen' then 0 else cost u) ≤ if u ∈ seen then 0 else cost u := by
      by_cases hs : u ∈ seen
      · simp [hs, h u hs]
      · simp only [hs, if_false]
        split_ifs <;> simp
    omega

theorem pending_insert (cost : α → ℕ) {seen : SortedSet α} {x : α} {U : List α} (hx : x ∈ U)
    (hnew : x ∉ seen) : pending cost (seen.insert x) U + cost x ≤ pending cost seen U := by
  induction U with
  | nil => simp at hx
  | cons u U ih =>
    have hgrows : ∀ y ∈ seen, y ∈ seen.insert x := fun y hy => by simp [hy]
    have htail := pending_le_of_subset cost hgrows U
    simp only [pending, List.map_cons, List.sum_cons] at ih htail ⊢
    rcases List.mem_cons.mp hx with rfl | hx
    · simp only [ExtTreeSet.mem_insert_self, if_true, hnew, if_false]
      omega
    · have hrec := ih hx
      have hu : (if u ∈ seen.insert x then 0 else cost u) ≤ if u ∈ seen then 0 else cost u := by
        by_cases h : u ∈ seen
        · simp [h]
        · simp only [h, if_false]
          split_ifs <;> simp
      omega

/-- Termination of a loop that skips the elements it has seen and expands every other
element once, at the stated cost; `U` holds everything that is ever queued. -/
theorem run_isSome_of_seen (seen : σ → SortedSet α) (cost : α → ℕ) {U : List α}
    (hold : ∀ s x, x ∈ seen s → (body s x).2 = [] ∧ seen (body s x).1 = seen s)
    (hnew : ∀ s x, x ∈ U → x ∉ seen s → seen (body s x).1 = (seen s).insert x ∧
      (body s x).2.length ≤ cost x ∧ ∀ y ∈ (body s x).2, y ∈ U)
    {n : ℕ} {s : σ} {q : List α} (hq : ∀ x ∈ q, x ∈ U)
    (hn : q.length + pending cost (seen s) U ≤ n) : (run body n s q).isSome := by
  have h := run_isSome body (id : α → α) (I := fun _ q => ∀ x ∈ q, x ∈ U)
    (μ := fun s q => q.length + pending cost (seen s) U) (n := n) (s := s) (q := q) ?_ hq hn
  · simpa using h
  · intro s x q hq
    refine ⟨(body s x).2, by simp, ?_, ?_⟩
    · intro y hy
      rcases List.mem_append.mp hy with hy | hy
      · exact hq y (List.mem_cons_of_mem _ hy)
      · by_cases hs : x ∈ seen s
        · simp [(hold s x hs).1] at hy
        · exact (hnew s x (hq x List.mem_cons_self) hs).2.2 y hy
    · by_cases hs : x ∈ seen s
      · simp [(hold s x hs).1, (hold s x hs).2]
      · obtain ⟨hseen, hlen, _⟩ := hnew s x (hq x List.mem_cons_self) hs
        have hpend := pending_insert cost (hq x List.mem_cons_self) hs
        simp only [id, hseen, List.length_append, List.length_cons]
        omega

end Seen

section Collect

variable [Ord α] [TransOrd α] [LawfulEqOrd α] (succ : α → List α)

/-- A loop that expands every element once and collects the successors: the elements
expanded, and the elements collected. -/
def collectBody (st : SortedSet α × SortedSet α) (x : α) : (SortedSet α × SortedSet α) × List α :=
  if x ∈ st.1 then (st, [])
  else ((st.1.insert x, (succ x).foldl (fun s y => s.insert y) st.2), succ x)

/-- What is added to the collection is what is reached from the start in one step or more. -/
theorem mem_run_collect {a : α} {n : ℕ} {old : SortedSet α} {r : SortedSet α × SortedSet α}
    (hrun : run (collectBody succ) n (∅, old) [a] = some r) {y : α} :
    y ∈ r.2 ↔ y ∈ old ∨ Relation.TransGen (fun x y => y ∈ succ x) a y := by
  have h := run_invariant (collectBody succ)
    (I := fun st q => (a ∈ st.1 ∨ a ∈ q) ∧
      (∀ x, x ∈ st.1 ∨ x ∈ q → Relation.ReflTransGen (fun x y => y ∈ succ x) a x) ∧
      (∀ y ∈ old, y ∈ st.2) ∧
      (∀ y ∈ st.2, y ∈ old ∨ Relation.TransGen (fun x y => y ∈ succ x) a y) ∧
      ∀ x ∈ st.1, ∀ y ∈ succ x, y ∈ st.2 ∧ (y ∈ st.1 ∨ y ∈ q)) ?_ (q := [a]) ?_ hrun
  · obtain ⟨hstart, _, hold, hsound, hclosed⟩ := h
    have ha : a ∈ r.1 := by simpa using hstart
    have hboth : Relation.TransGen (fun x y => y ∈ succ x) a y → y ∈ r.2 ∧ y ∈ r.1 := by
      intro hy
      induction hy with
      | single hstep => exact (hclosed a ha _ hstep).imp_right fun hy => by simpa using hy
      | tail _ hstep ih => exact (hclosed _ ih.2 _ hstep).imp_right fun hy => by simpa using hy
    exact ⟨hsound y, fun hy => hy.elim (hold y) fun hy => (hboth hy).1⟩
  · intro st x q hst
    obtain ⟨hstart, hreach, hkept, hsound, hclosed⟩ := hst
    have hx := hreach x (Or.inr List.mem_cons_self)
    by_cases hold : x ∈ st.1
    · simp only [collectBody, if_pos hold, List.append_nil]
      refine ⟨seen_or_queued hold hstart, fun y hy => hreach y ?_, hkept, hsound,
        fun z hz y hy => ?_⟩
      · exact hy.imp_right (List.mem_cons_of_mem _)
      · exact (hclosed z hz y hy).imp_right (seen_or_queued hold)
    · simp only [collectBody, if_neg hold]
      refine ⟨marked_or_queued _ hstart, ?_, ?_, ?_, ?_⟩
      · intro y hy
        rw [ExtTreeSet.mem_insert, LawfulEqCmp.compare_eq_iff_eq, List.mem_append] at hy
        rcases hy with (rfl | hy) | hy | hy
        · exact hx
        · exact hreach y (Or.inl hy)
        · exact hreach y (Or.inr (List.mem_cons_of_mem _ hy))
        · exact hx.tail hy
      · exact fun y hy => ExtTreeSet.mem_foldl_insert.mpr (Or.inr (hkept y hy))
      · intro y hy
        rcases (ExtTreeSet.mem_foldl_insert).mp hy with hy | hy
        · exact Or.inr (Relation.TransGen.tail' hx hy)
        · exact hsound y hy
      · intro z hz y hy
        rw [ExtTreeSet.mem_insert, LawfulEqCmp.compare_eq_iff_eq] at hz
        rcases hz with rfl | hz
        · exact ⟨ExtTreeSet.mem_foldl_insert.mpr (Or.inl hy),
            Or.inr (List.mem_append_right _ hy)⟩
        · obtain ⟨hcoll, hseen⟩ := hclosed z hz y hy
          exact ⟨ExtTreeSet.mem_foldl_insert.mpr (Or.inr hcoll), marked_or_queued _ hseen⟩
  · refine ⟨Or.inr (List.mem_singleton_self a), ?_, fun y hy => hy, fun y hy => Or.inl hy,
      by simp⟩
    intro x hx
    rcases hx with hx | hx
    · simp at hx
    · rw [List.mem_singleton.mp hx]

end Collect

section Trace

/-- The iterations of a run: the loop state before each, the entry taken and the rest of
the queue. -/
def trace : ℕ → σ → List α → List (σ × α × List α)
  | _, _, [] => []
  | 0, _, _ :: _ => []
  | n + 1, s, x :: q => (s, x, q) :: trace n (body s x).1 (q ++ (body s x).2)

@[simp] theorem trace_nil (n : ℕ) (s : σ) : trace body n s [] = [] := by
  cases n <;> rfl

variable {body}

theorem trace_split {n : ℕ} {s t s₁ : σ} {q q₁ : List α} {x : α} {pre post : List (σ × α × List α)}
    (hrun : run body n s q = some t) (htr : trace body n s q = pre ++ (s₁, x, q₁) :: post) :
    ∃ m, run body m (body s₁ x).1 (q₁ ++ (body s₁ x).2) = some t ∧
      post = trace body m (body s₁ x).1 (q₁ ++ (body s₁ x).2) := by
  induction n generalizing s q pre with
  | zero =>
    cases q with
    | nil => simp [trace] at htr
    | cons y q => simp [run] at hrun
  | succ n ih =>
    cases q with
    | nil => simp [trace] at htr
    | cons y q =>
      cases pre with
      | nil =>
        simp only [trace, List.nil_append, List.cons.injEq, Prod.mk.injEq] at htr
        obtain ⟨⟨rfl, rfl, rfl⟩, rfl⟩ := htr
        exact ⟨n, hrun, rfl⟩
      | cons it pre =>
        simp only [trace, List.cons_append, List.cons.injEq] at htr
        exact ih hrun htr.2

theorem trace_eq_nil {n : ℕ} {s t : σ} {q : List α} (hrun : run body n s q = some t) :
    trace body n s q = [] ↔ q = [] := by
  cases q with
  | nil => simp
  | cons x q =>
    cases n with
    | zero => simp [run] at hrun
    | succ n => simp [trace]

/-- The entries are taken in the order in which they are queued: first those queued at the
start, then what the iterations push, one after the other. -/
theorem map_trace {n : ℕ} {s t : σ} {q : List α} (hrun : run body n s q = some t) :
    (trace body n s q).map (fun it => it.2.1) =
      q ++ (trace body n s q).flatMap fun it => (body it.1 it.2.1).2 := by
  induction n generalizing s q with
  | zero =>
    cases q with
    | nil => simp
    | cons x q => simp [run] at hrun
  | succ n ih =>
    cases q with
    | nil => simp
    | cons x q =>
      have hrest := ih hrun
      simp [trace, hrest]

/-- A second queue entry is taken after the first: the rest of the queue and what the
iteration pushes follow the entry it takes. -/
theorem map_trace_of_mem {n : ℕ} {s t : σ} {q : List α} (hrun : run body n s q = some t)
    {it : σ × α × List α} (hit : it ∈ trace body n s q) :
    ∃ pre post, (trace body n s q).map (fun it => it.2.1) =
      pre ++ it.2.1 :: (it.2.2 ++ (body it.1 it.2.1).2) ++ post := by
  obtain ⟨s₁, x, q₁⟩ := it
  obtain ⟨pre, post, htr⟩ := List.append_of_mem hit
  obtain ⟨m, hm, rfl⟩ := trace_split hrun htr
  refine ⟨pre.map fun it => it.2.1, (trace body m (body s₁ x).1
    (q₁ ++ (body s₁ x).2)).flatMap fun it => (body it.1 it.2.1).2, ?_⟩
  rw [htr, List.map_append, List.map_cons, map_trace hm]
  simp only [List.cons_append, List.append_assoc]

end Trace

end Worklist

import Cisa.Lib.Rows
import Cisa.Lib.Worklist

/-!
# Graph walks that mark a node when it leaves the queue

The walk marks the node it takes from the queue, asks an actor whether to go on
from it, and then queues the successors that are not marked yet. As a node may be
queued several times before it is marked, the number of iterations is not bounded by
the number of nodes; every entry of the queue stands for a simple path from the
start, which is what bounds it.
-/

set_option linter.unusedSectionVars false

open Std

namespace Walk

variable {α τ : Type*} [Ord α] [TransOrd α] [LawfulEqOrd α]
variable (next : α → List α) (act : τ → α → Bool × τ)

/-- One iteration: mark, act, and queue the unmarked successors when asked to go on. -/
def body (s : SortedSet α × τ) (x : α) : (SortedSet α × τ) × List α :=
  let seen := s.1.insert x
  let r := act s.2 x
  ((seen, r.2), if r.1 then (next x).filter (fun y => y ∉ seen) else [])

/-- A queue entry with the marked nodes of a path that led to it. -/
def Simple (U : List α) (seen : SortedSet α) (e : α × List α) : Prop :=
  (e.1 :: e.2).Nodup ∧ (∀ y ∈ e.2, y ∈ seen) ∧ ∀ y ∈ e.1 :: e.2, y ∈ U

/-- What an entry may still cost: its path can be extended at most to the length of `U`. -/
def weight (U : List α) (B : ℕ) (e : α × List α) : ℕ := (B + 1) ^ (U.length - e.2.length)

theorem Simple.length_lt {U : List α} {seen : SortedSet α} {e : α × List α} (h : Simple U seen e) :
    e.2.length < U.length := by
  have hle := (h.1.subperm h.2.2).length_le
  simpa using hle

theorem Simple.insert {U : List α} {seen : SortedSet α} {e : α × List α} (h : Simple U seen e)
    (x : α) : Simple U (seen.insert x) e :=
  ⟨h.1, fun y hy => by simp [h.2.1 y hy], h.2.2⟩

theorem mem_body_snd {s : SortedSet α × τ} {x y : α} :
    y ∈ (body next act s x).2 ↔ (act s.2 x).1 = true ∧ y ∈ next x ∧ y ∉ s.1.insert x := by
  unfold body
  dsimp only
  split_ifs with h
  · simp [h]
  · simp [h]

theorem length_body_snd {s : SortedSet α × τ} {x : α} :
    (body next act s x).2.length ≤ (next x).length := by
  unfold body
  dsimp only
  split_ifs with h
  · exact List.length_filter_le _ _
  · simp

def pushed (s : SortedSet α × τ) (e : α × List α) : List (α × List α) :=
  (body next act s e.1).2.map fun y => (y, e.1 :: e.2)

theorem simple_pushed {U : List α} (hU : ∀ x, ∀ y ∈ next x, y ∈ U) {s : SortedSet α × τ}
    {e : α × List α} (he : Simple U s.1 e) :
    ∀ e' ∈ pushed next act s e, Simple U (s.1.insert e.1) e' := by
  intro e' he'
  obtain ⟨y, hy, rfl⟩ := List.mem_map.mp he'
  obtain ⟨_, hnext, hnew⟩ := (mem_body_snd next act).mp hy
  have hpath : ∀ z ∈ e.1 :: e.2, z ∈ s.1.insert e.1 := by
    intro z hz
    rcases List.mem_cons.mp hz with rfl | hz
    · simp
    · simp [he.2.1 z hz]
  refine ⟨List.nodup_cons.mpr ⟨fun h => hnew (hpath y h), he.1⟩, hpath, ?_⟩
  intro z hz
  rcases List.mem_cons.mp hz with rfl | hz
  · exact hU e.1 z hnext
  · exact he.2.2 z hz

theorem weight_pushed {U : List α} {B : ℕ} (hB : ∀ x, (next x).length ≤ B) {s : SortedSet α × τ}
    {e : α × List α} (he : Simple U s.1 e) :
    ((pushed next act s e).map (weight U B)).sum < weight U B e := by
  obtain ⟨k, hk⟩ : ∃ k, U.length - e.2.length = k + 1 :=
    ⟨U.length - e.2.length - 1, by have := he.length_lt; omega⟩
  have hchild : ∀ w ∈ (pushed next act s e).map (weight U B), w ≤ (B + 1) ^ k := by
    intro w hw
    simp only [pushed, List.map_map, List.mem_map, Function.comp_def, weight,
      List.length_cons] at hw
    obtain ⟨y, _, rfl⟩ := hw
    rw [show U.length - (e.2.length + 1) = k by omega]
  have hlen : ((pushed next act s e).map (weight U B)).length ≤ B := by
    simp only [pushed, List.length_map]
    exact (length_body_snd next act).trans (hB e.1)
  calc
    _ ≤ ((pushed next act s e).map (weight U B)).length • (B + 1) ^ k :=
      List.sum_le_card_nsmul _ _ hchild
    _ ≤ B * (B + 1) ^ k := by
      rw [smul_eq_mul]
      exact Nat.mul_le_mul_right _ hlen
    _ < (B + 1) * (B + 1) ^ k := Nat.mul_lt_mul_of_pos_right (Nat.lt_succ_self B) (by positivity)
    _ = weight U B e := by rw [weight, hk, pow_succ, Nat.mul_comm]

/-- The walk ends on every finite graph, cycles included, and for every actor. -/
theorem run_isSome {U : List α} {B : ℕ} (hU : ∀ x, ∀ y ∈ next x, y ∈ U)
    (hB : ∀ x, (next x).length ≤ B) {a : α} (ha : a ∈ U) (t : τ) {n : ℕ}
    (hn : (B + 1) ^ U.length ≤ n) :
    (Worklist.run (body next act) n (∅, t) [a]).isSome := by
  have h := Worklist.run_isSome (body next act) (Prod.fst : α × List α → α)
    (I := fun s q => ∀ e ∈ q, Simple U s.1 e)
    (μ := fun _ q => (q.map (weight U B)).sum) (n := n) (s := (∅, t)) (q := [(a, [])])
  refine h ?_ ?_ (by simpa [weight] using hn)
  · intro s e q hq
    have he := hq e (List.mem_cons_self)
    refine ⟨pushed next act s e, by simp [pushed, Function.comp_def], ?_, ?_⟩
    · intro e' he'
      rcases List.mem_append.mp he' with hold | hnew
      · exact (hq e' (List.mem_cons_of_mem _ hold)).insert e.1
      · exact simple_pushed next act hU he e' hnew
    · have hw := weight_pushed next act hB he
      simp only [List.map_append, List.sum_append, List.map_cons, List.sum_cons]
      omega
  · intro e he
    obtain rfl := List.mem_singleton.mp he
    refine ⟨by simp, by simp, ?_⟩
    intro y hy
    simpa [List.mem_singleton.mp hy] using ha

/-- `y` is a successor of a node from which the walk goes on. -/
def Steps (go : α → Bool) (x y : α) : Prop := go x = true ∧ y ∈ next x

/-- When the actor's answer depends on the node alone, the marked nodes are exactly
those reached through nodes from which the walk goes on; `J` is what the actor
accumulates over the marked nodes. -/
theorem run_spec {go : α → Bool} (hgo : ∀ t x, (act t x).1 = go x) {J : SortedSet α → τ → Prop}
    (hJ : ∀ V t x, J V t → J (V.insert x) (act t x).2) {a : α} {t : τ} (h0 : J ∅ t)
    {n : ℕ} {r : SortedSet α × τ} (hrun : Worklist.run (body next act) n (∅, t) [a] = some r) :
    J r.1 r.2 ∧ ∀ x, x ∈ r.1 ↔ Relation.ReflTransGen (Steps next go) a x := by
  have h := Worklist.run_invariant (body next act)
    (I := fun s q => J s.1 s.2 ∧ (a ∈ s.1 ∨ a ∈ q) ∧
      (∀ x, x ∈ s.1 ∨ x ∈ q → Relation.ReflTransGen (Steps next go) a x) ∧
      ∀ x ∈ s.1, ∀ y, Steps next go x y → y ∈ s.1 ∨ y ∈ q) ?_ (q := [a]) ?_ hrun
  · obtain ⟨hJr, hstart, hsound, hclosed⟩ := h
    refine ⟨hJr, fun x => ⟨fun hx => hsound x (Or.inl hx), fun hx => ?_⟩⟩
    induction hx with
    | refl => simpa using hstart
    | tail _ hstep ih => simpa using hclosed _ ih _ hstep
  · rintro ⟨V, t⟩ x q ⟨hJs, hstart, hsound, hclosed⟩
    have hx : Relation.ReflTransGen (Steps next go) a x := hsound x (Or.inr List.mem_cons_self)
    refine ⟨hJ V t x hJs, Worklist.marked_or_queued _ hstart, ?_, ?_⟩
    · intro y hy
      rcases hy with hy | hy
      · rcases (show x = y ∨ y ∈ V by simpa [body] using hy) with rfl | hy
        · exact hx
        · exact hsound y (Or.inl hy)
      · rcases List.mem_append.mp hy with hy | hy
        · exact hsound y (Or.inr (List.mem_cons_of_mem _ hy))
        · obtain ⟨hact, hnext, _⟩ := (mem_body_snd next act).mp hy
          exact hx.tail ⟨by rw [← hgo t x]; exact hact, hnext⟩
    · intro y hy z hz
      rcases (show x = y ∨ y ∈ V by simpa [body] using hy) with rfl | hy
      · by_cases hnew : z ∈ V.insert x
        · exact Or.inl hnew
        · refine Or.inr (List.mem_append_right _ ((mem_body_snd next act).mpr ⟨?_, hz.2, hnew⟩))
          rw [hgo]
          exact hz.1
      · exact Worklist.marked_or_queued _ (hclosed y hy z hz)
  · refine ⟨h0, Or.inr (List.mem_singleton_self a), ?_, by simp⟩
    intro x hx
    rcases hx with hx | hx
    · simp at hx
    · rw [List.mem_singleton.mp hx]

theorem reached_of_taken {n : ℕ} {s r : SortedSet α × τ} {q : List α}
    (hrun : Worklist.run (body next act) n s q = some r) {y : α}
    (hy : y ∈ (Worklist.trace (body next act) n s q).map fun it => it.2.1) :
    ∃ x ∈ q, Relation.ReflTransGen (fun a b => b ∈ next a) x y := by
  induction n generalizing s q with
  | zero =>
    cases q with
    | nil => simp at hy
    | cons x q => simp [Worklist.run] at hrun
  | succ n ih =>
    cases q with
    | nil => simp at hy
    | cons x q =>
      simp only [Worklist.trace, List.map_cons, List.mem_cons] at hy
      rcases hy with rfl | hy
      · exact ⟨y, List.mem_cons_self, Relation.ReflTransGen.refl⟩
      · obtain ⟨z, hz, hzy⟩ := ih hrun hy
        rcases List.mem_append.mp hz with hz | hz
        · exact ⟨z, List.mem_cons_of_mem _ hz, hzy⟩
        · exact ⟨x, List.mem_cons_self, hzy.head ((mem_body_snd next act).mp hz).2.1⟩

/-- As long as no iteration queues a node that is waiting already, no node is taken twice,
and none that was marked at the start. -/
theorem nodup_taken (hnext : ∀ x, (next x).Nodup) {n : ℕ} {s r : SortedSet α × τ} {q : List α}
    (hrun : Worklist.run (body next act) n s q = some r) (hq : q.Nodup) (hnew : ∀ x ∈ q, x ∉ s.1)
    (hwait : ∀ it ∈ Worklist.trace (body next act) n s q,
      ∀ y ∈ (body next act it.1 it.2.1).2, y ∉ it.2.2) :
    ((Worklist.trace (body next act) n s q).map fun it => it.2.1).Nodup ∧
      ∀ y ∈ (Worklist.trace (body next act) n s q).map (fun it => it.2.1), y ∉ s.1 := by
  induction n generalizing s q with
  | zero =>
    cases q with
    | nil => simp
    | cons x q => simp [Worklist.run] at hrun
  | succ n ih =>
    cases q with
    | nil => simp
    | cons x q =>
      have hx := List.nodup_cons.mp hq
      have hpush : ∀ y ∈ (body next act s x).2, y ∉ s.1.insert x :=
        fun y hy => ((mem_body_snd next act).mp hy).2.2
      have hpushNodup : (body next act s x).2.Nodup := by
        unfold body
        dsimp only
        split_ifs
        · exact (hnext x).filter _
        · exact List.nodup_nil
      have hhead := hwait (s, x, q) (by simp [Worklist.trace])
      obtain ⟨hnodup, hout⟩ := ih hrun
        (List.nodup_append.mpr ⟨hx.2, hpushNodup, fun a ha b hb hab => hhead b hb (hab ▸ ha)⟩)
        (fun y hy => by
          rcases List.mem_append.mp hy with hy | hy
          · intro hmem
            rcases (show x = y ∨ y ∈ s.1 by simpa [body] using hmem) with rfl | hmem
            · exact hx.1 hy
            · exact hnew y (List.mem_cons_of_mem _ hy) hmem
          · exact hpush y hy)
        (fun it hit => hwait it (by simp [Worklist.trace, hit]))
      have hout' : ∀ y ∈ (Worklist.trace (body next act) n (body next act s x).1
          (q ++ (body next act s x).2)).map (fun it => it.2.1), y ∉ s.1.insert x := hout
      simp only [Worklist.trace, List.map_cons, List.nodup_cons, List.mem_cons]
      refine ⟨⟨fun hmem => hout' x hmem (by simp), hnodup⟩, ?_⟩
      intro y hy
      rcases hy with rfl | hy
      · exact hnew y List.mem_cons_self
      · intro hmem
        exact hout' y hy (by simp [hmem])

theorem nodup_taken_iff (hnext : ∀ x, (next x).Nodup) {n : ℕ} {t : τ} {r : SortedSet α × τ} {a : α}
    (hrun : Worklist.run (body next act) n (∅, t) [a] = some r) :
    ((Worklist.trace (body next act) n (∅, t) [a]).map fun it => it.2.1).Nodup ↔
      ∀ it ∈ Worklist.trace (body next act) n (∅, t) [a],
        ∀ y ∈ (body next act it.1 it.2.1).2, y ∉ it.2.2 := by
  constructor
  · intro hnodup it hit y hy hwait
    obtain ⟨pre, post, heq⟩ := Worklist.map_trace_of_mem hrun hit
    rw [heq, List.append_assoc, List.nodup_append] at hnodup
    have hrest := (List.nodup_cons.mp (List.nodup_append.mp hnodup.2.1).1).2
    exact (List.nodup_append.mp hrest).2.2 y hwait y hy rfl
  · intro hwait
    exact (nodup_taken next act hnext hrun (List.nodup_singleton a) (by simp) hwait).1

/-- Where `s` inverts `r` on `L`, and edges of `r` leave elements of `L` only, the walks
against the edges are the walks along them. -/
theorem reflTransGen_inverse {α : Type*} {r s : α → α → Prop} {L : α → Prop}
    (hout : ∀ {a b}, r a b → L a) (hinv : ∀ {a b}, L b → (r a b ↔ s b a)) {a c : α} (hc : L c) :
    Relation.ReflTransGen s c a ↔ Relation.ReflTransGen r a c := by
  constructor
  · intro h
    have hpath : L a ∧ Relation.ReflTransGen r a c := by
      induction h with
      | refl => exact ⟨hc, Relation.ReflTransGen.refl⟩
      | tail _ hstep ih =>
        have hr := (hinv ih.1).mpr hstep
        exact ⟨hout hr, ih.2.head hr⟩
    exact hpath.2
  · intro h
    have hpath : L a ∧ Relation.ReflTransGen s c a := by
      induction h using Relation.ReflTransGen.head_induction_on with
      | refl => exact ⟨hc, Relation.ReflTransGen.refl⟩
      | head hstep _ ih => exact ⟨hout hstep, ih.2.tail ((hinv ih.1).mp hstep)⟩
    exact hpath.2

end Walk

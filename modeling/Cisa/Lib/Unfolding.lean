import Cisa.Lib.Worklist

/-!
# Queues without a visited set

A loop that pushes the successors of every entry it takes, whether it has seen them or not,
walks the unfolding of the graph. It ends exactly when the successor relation is well founded
below every queued entry; on a finite graph, when nothing that is reached lies on a cycle.
-/

namespace Worklist

variable {σ α : Type*} {body : σ → α → σ × List α} {succ : α → List α}

/-- `y` is a successor of `x`. -/
def Succ (succ : α → List α) (x y : α) : Prop := y ∈ succ x

/-- The number of entries that unfolding the graph below `x` takes off the queue. -/
inductive Unfolds (succ : α → List α) : α → ℕ → Prop
  | node (x : α) (children : List (α × ℕ)) (hsucc : children.map Prod.fst = succ x)
      (hchildren : ∀ c ∈ children, Unfolds succ c.1 c.2) :
      Unfolds succ x (1 + (children.map Prod.snd).sum)

theorem exists_sizes {P : α → ℕ → Prop} (xs : List α) (h : ∀ x ∈ xs, ∃ k, P x k) :
    ∃ children : List (α × ℕ), children.map Prod.fst = xs ∧ ∀ c ∈ children, P c.1 c.2 := by
  induction xs with
  | nil => exact ⟨[], rfl, by simp⟩
  | cons x xs ih =>
    obtain ⟨k, hk⟩ := h x List.mem_cons_self
    obtain ⟨children, hxs, hchildren⟩ := ih fun y hy => h y (List.mem_cons_of_mem _ hy)
    exact ⟨(x, k) :: children, by rw [List.map_cons, hxs], List.forall_mem_cons.mpr ⟨hk, hchildren⟩⟩

theorem exists_unfolds {x : α} (h : Acc (fun y x => Succ succ x y) x) : ∃ k, Unfolds succ x k := by
  induction h with
  | intro x _ ih =>
    obtain ⟨children, hsucc, hchildren⟩ := exists_sizes (succ x) ih
    exact ⟨_, Unfolds.node x children hsucc hchildren⟩

/-- If the graph is well founded below the queue, one budget suffices for every state. -/
theorem run_isSome_of_acc (hbody : ∀ s x, (body s x).2 = succ x) {q : List α}
    (h : ∀ x ∈ q, Acc (fun y x => Succ succ x y) x) : ∃ n, ∀ s, (run body n s q).isSome := by
  obtain ⟨entries, hq, hentries⟩ := exists_sizes q fun x hx => exists_unfolds (h x hx)
  refine ⟨(entries.map Prod.snd).sum, fun s => ?_⟩
  have hrun := run_isSome body (Prod.fst : α × ℕ → α)
    (I := fun _ entries => ∀ c ∈ entries, Unfolds succ c.1 c.2)
    (μ := fun _ entries => (entries.map Prod.snd).sum) (s := s) ?_ hentries le_rfl
  · rwa [hq] at hrun
  · intro s c rest hI
    obtain ⟨x, k⟩ := c
    cases hI (x, k) List.mem_cons_self with
    | node _ children hsucc hchildren =>
      refine ⟨children, hsucc.trans (hbody s x).symm, ?_, ?_⟩
      · intro c hc
        rcases List.mem_append.mp hc with hc | hc
        · exact hI c (List.mem_cons_of_mem _ hc)
        · exact hchildren c hc
      · simp only [List.map_append, List.sum_append, List.map_cons, List.sum_cons]
        have hsize : Nat.add 1 (children.map Prod.snd).sum = 1 + (children.map Prod.snd).sum := rfl
        omega

theorem acc_of_run (hbody : ∀ s x, (body s x).2 = succ x) {n : ℕ} {s t : σ} {q : List α}
    (hrun : run body n s q = some t) : ∀ x ∈ q, Acc (fun y x => Succ succ x y) x := by
  induction n generalizing s q with
  | zero =>
    cases q with
    | nil => simp
    | cons x q => simp [run] at hrun
  | succ n ih =>
    cases q with
    | nil => simp
    | cons x q =>
      have hrest := ih hrun
      rw [hbody] at hrest
      refine List.forall_mem_cons.mpr ⟨Acc.intro x fun y hy => ?_, fun y hy => ?_⟩
      · exact hrest y (List.mem_append_right _ hy)
      · exact hrest y (List.mem_append_left _ hy)

theorem not_cycle_of_acc {r : α → α → Prop} {x : α} (h : Acc r x) : ¬ Relation.TransGen r x x := by
  have htrans := h.transGen
  induction htrans with
  | intro x _ ih => exact fun hcycle => ih x hcycle (h.inv_of_transGen hcycle) hcycle

/-- In a finite graph, well-foundedness below `x` says that nothing reached from `x` lies on a
cycle. -/
theorem acc_iff_acyclic {x : α} (hfin : {y | Relation.ReflTransGen (Succ succ) x y}.Finite) :
    Acc (fun y x => Succ succ x y) x ↔
      ∀ y, Relation.ReflTransGen (Succ succ) x y → ¬ Relation.TransGen (Succ succ) y y := by
  constructor
  · intro h y hy hcycle
    have hacc : Acc (fun y x => Succ succ x y) y := by
      rcases Relation.reflTransGen_iff_eq_or_transGen.mp hy with rfl | hy
      · exact h
      · exact h.inv_of_transGen (Relation.transGen_swap.mpr hy)
    exact not_cycle_of_acc hacc (Relation.transGen_swap.mpr hcycle)
  · intro h
    let Reached := {y // Relation.ReflTransGen (Succ succ) x y}
    let below : Reached → Reached → Prop := fun b a => Relation.TransGen (Succ succ) a.1 b.1
    have hfinite : Finite Reached := hfin
    have htrans : IsTrans Reached below := ⟨fun a b c hab hbc => hbc.trans hab⟩
    have hirrefl : Std.Irrefl below := ⟨fun a => h a.1 a.2⟩
    have hwf : WellFounded below := Finite.wellFounded_of_trans_of_irrefl below
    have hacc : ∀ a : Reached, Acc (fun y x => Succ succ x y) a.1 := by
      intro a
      induction a using hwf.induction with
      | _ a ih =>
        refine Acc.intro a.1 fun y hy => ?_
        exact ih ⟨y, a.2.tail hy⟩ (Relation.TransGen.single hy)
    exact hacc ⟨x, Relation.ReflTransGen.refl⟩

/-- A loop that collects something at every entry has collected it at everything that is
reached. -/
theorem mem_run_unfold {β : Type*} {out : α → List β} {body : List β → α → List β × List α}
    (hbody : ∀ s x, body s x = (s ++ out x, succ x)) {n : ℕ} {s t : List β} {q : List α}
    (hrun : run body n s q = some t) {b : β} :
    b ∈ t ↔ b ∈ s ∨ ∃ x ∈ q, ∃ y, Relation.ReflTransGen (Succ succ) x y ∧ b ∈ out y := by
  induction n generalizing s q with
  | zero =>
    cases q with
    | nil =>
      obtain rfl := Option.some.inj hrun
      simp
    | cons x q => simp [run] at hrun
  | succ n ih =>
    cases q with
    | nil =>
      obtain rfl := Option.some.inj hrun
      simp
    | cons x q =>
      rw [run, hbody] at hrun
      have hhead : (∃ y, Relation.ReflTransGen (Succ succ) x y ∧ b ∈ out y) ↔
          b ∈ out x ∨ ∃ z ∈ succ x, ∃ y, Relation.ReflTransGen (Succ succ) z y ∧ b ∈ out y := by
        constructor
        · rintro ⟨y, hy, hb⟩
          rcases Relation.ReflTransGen.cases_head hy with rfl | ⟨z, hz, hy⟩
          · exact Or.inl hb
          · exact Or.inr ⟨z, hz, y, hy, hb⟩
        · rintro (hb | ⟨z, hz, y, hy, hb⟩)
          · exact ⟨x, Relation.ReflTransGen.refl, hb⟩
          · exact ⟨y, Relation.ReflTransGen.head hz hy, hb⟩
      rw [ih hrun, List.mem_append, or_assoc]
      simp only [List.mem_append, or_and_right, exists_or, List.mem_cons, exists_eq_left, hhead,
        or_comm, or_left_comm]

end Worklist

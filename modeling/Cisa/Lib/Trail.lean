import Mathlib.Data.Set.Insert

/-!
# Trails of blocks

A trail goes from a start along edges and has passed a set of nodes. An edge is a shortcut if
every trail to its source can be continued to its target with nothing new but the target. A graph
whose edges are shortcuts of another has no trails that the other does not have, and a graph that
only lacks edges back to what dominates their source has trails to the same nodes.
-/

namespace Graph

variable {α : Type*}

/-- From `a` one gets to `b` along edges that pass exactly the nodes of the set. -/
inductive Trail (R : α → α → Prop) (a : α) : α → Set α → Prop
  | start : Trail R a a {a}
  | step {b c : α} {S : Set α} (trail : Trail R a b S) (edge : R b c) : Trail R a c (insert c S)

variable {R R' : α → α → Prop} {a b c d : α} {S : Set α}

theorem Trail.end_mem (h : Trail R a b S) : b ∈ S := by
  cases h with
  | start => exact Set.mem_singleton _
  | step => exact Set.mem_insert _ _

/-- All trails to a node have passed the other. -/
def Dominates (R : α → α → Prop) (a d b : α) : Prop := ∀ S, Trail R a b S → d ∈ S

/-- Whoever has got to one node gets to the other without passing a third one for the first
time. -/
def Shortcut (R : α → α → Prop) (a b c : α) : Prop := ∀ S, Trail R a b S → Trail R a c (insert c S)

theorem Shortcut.of_edge (h : R b c) : Shortcut R a b c := fun _ hS => hS.step h

theorem Shortcut.trans (h : Shortcut R a b d) (hd : Dominates R a d b) (h' : Shortcut R a d c) :
    Shortcut R a b c := by
  intro S hS
  have hthere := h S hS
  rw [Set.insert_eq_of_mem (hd S hS)] at hthere
  exact h' S hthere

theorem Trail.of_shortcuts (hR : ∀ b c, R' b c → Shortcut R a b c) (h : Trail R' a b S) :
    Trail R a b S := by
  induction h with
  | start => exact Trail.start
  | step _ hedge ih => exact hR _ _ hedge _ ih

/-- Without edges back to what has been passed anyway, one still gets to all nodes. -/
theorem Trail.exists_trail (hR : ∀ b c, R b c → R' b c ∨ Dominates R a c b) (h : Trail R a b S) :
    ∀ c ∈ S, ∃ S', Trail R' a c S' := by
  induction h with
  | start =>
    rintro c rfl
    exact ⟨_, Trail.start⟩
  | @step b d S htrail hedge ih =>
    intro c hc
    rcases Set.mem_insert_iff.mp hc with rfl | hc
    · rcases hR b c hedge with hedge | hdom
      · obtain ⟨S', hS'⟩ := ih b htrail.end_mem
        exact ⟨_, hS'.step hedge⟩
      · exact ih c (hdom S htrail)
    · exact ih c hc

end Graph

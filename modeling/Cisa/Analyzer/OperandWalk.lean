import Cisa.Analyzer.Oper
import Cisa.CallGraph.Confine
import Cisa.Lib.Fold
import Cisa.Lib.Unfolding

/-!
# The walk over operands

`Update` follows the operands of every instruction that are no instructions themselves, and
has no set of visited values. It ends exactly when the constants that the function uses are
acyclic. The initialiser of a global may refer to the global.
-/

namespace Cisa

open Std

namespace OperationLevelAnalyzer

variable {E : Env} {fnames : FieldNames}

/-- The operands that are pushed for a user. -/
def pushedOperands (E : Env) (V : ValPtr) : List ValPtr :=
  (E.operands V).filter fun O => (E.instOpcode O).isNone && E.isUser O

/-- `O` is a constant operand of `V`, and followed. -/
def Follows (E : Env) (V O : ValPtr) : Prop := O ∈ pushedOperands E V

instance (V O : ValPtr) : Decidable (Follows E V O) :=
  inferInstanceAs (Decidable (O ∈ pushedOperands E V))

/-- A value refers to itself, through operands of constants. -/
def RefersToItself (E : Env) (V : ValPtr) : Prop := Relation.TransGen (Follows E) V V

theorem pushed_visitUser (calls : List (OLATag × OLATagIdx)) (V : ValPtr) :
    (visitUser E fnames calls V).2 = pushedOperands E V := rfl

/-- The walk from a value stays within the operands of its module. -/
theorem finite_reached (E : Env) (V : ValPtr) :
    {O | Relation.ReflTransGen (Worklist.Succ (pushedOperands E)) V O}.Finite := by
  apply (V :: Mlta.moduleOperands E V.mod).toFinset.finite_toSet.subset
  intro O hO
  have hmem : O.mod = V.mod ∧ O ∈ V :: Mlta.moduleOperands E V.mod := by
    induction hO with
    | refl => exact ⟨rfl, List.mem_cons_self⟩
    | tail _ hstep ih =>
      have hop := List.mem_of_mem_filter hstep
      have hlisted := Mlta.mem_moduleOperands E hop
      rw [ih.1] at hlisted
      exact ⟨(E.mod_of_mem_operands hop).trans ih.1, List.mem_cons_of_mem _ hlisted⟩
  simpa using hmem.2

/-- Nothing that the walk from `I` reaches refers to itself. -/
def Acyclic (E : Env) (I : ValPtr) : Prop :=
  ∀ V, Relation.ReflTransGen (Follows E) I V → ¬ RefersToItself E V

theorem acyclic_iff_acc (I : ValPtr) :
    Acyclic E I ↔ Acc (fun O V => Worklist.Succ (pushedOperands E) V O) I :=
  (Worklist.acc_iff_acyclic (finite_reached E I)).symm

/-- If the constants below an instruction are acyclic, one budget suffices for its walk,
whatever tags have been collected before. -/
theorem run_isSome_of_acyclic (fnames : FieldNames) {I : ValPtr} (h : Acyclic E I) :
    ∃ n, ∀ calls, (Worklist.run (visitUser E fnames) n calls [I]).isSome := by
  apply Worklist.run_isSome_of_acc pushed_visitUser
  intro V hV
  rw [List.mem_singleton.mp hV]
  exact (acyclic_iff_acc I).mp h

theorem acyclic_of_run {n : ℕ} {I : ValPtr} {calls calls' : List (OLATag × OLATagIdx)}
    (h : Worklist.run (visitUser E fnames) n calls [I] = some calls') : Acyclic E I :=
  (acyclic_iff_acc I).mpr
    (Worklist.acc_of_run pushed_visitUser h I (List.mem_singleton_self I))

theorem run_isSome_of_forall_acyclic (fnames : FieldNames) {Is : List ValPtr}
    (h : ∀ I ∈ Is, Acyclic E I) :
    ∃ n, ∀ I ∈ Is, ∀ calls, (Worklist.run (visitUser E fnames) n calls [I]).isSome := by
  induction Is with
  | nil => exact ⟨0, by simp⟩
  | cons I Is ih =>
    obtain ⟨n, hn⟩ := run_isSome_of_acyclic fnames (h I List.mem_cons_self)
    obtain ⟨k, hk⟩ := ih fun J hJ => h J (List.mem_cons_of_mem _ hJ)
    refine ⟨n + k, List.forall_mem_cons.mpr ⟨fun calls => ?_, fun J hJ calls => ?_⟩⟩
    · obtain ⟨t, ht⟩ := Option.isSome_iff_exists.mp (hn calls)
      rw [Worklist.run_add _ ht k]
      rfl
    · obtain ⟨t, ht⟩ := Option.isSome_iff_exists.mp (hk J hJ calls)
      rw [Nat.add_comm, Worklist.run_add _ ht n]
      rfl

theorem calledTags_isSome_of_acyclic {F : FuncPtr} (h : ∀ I ∈ E.insts F, Acyclic E I) :
    ∃ n calls, calledTags E n F = some calls := by
  obtain ⟨n, hn⟩ := run_isSome_of_forall_acyclic (E.fieldNames F.mod) h
  exact ⟨n, Option.isSome_iff_exists.mp (Fold.foldlM_isSome hn [])⟩

theorem mem_calledTags {n : ℕ} {F : FuncPtr} {calls : List (OLATag × OLATagIdx)}
    (h : calledTags E n F = some calls) {c : OLATag × OLATagIdx} :
    c ∈ calls ↔ ∃ I ∈ E.insts F, ∃ V, Relation.ReflTransGen (Follows E) I V ∧
      c ∈ userTags E (E.fieldNames F.mod) V := by
  have hloop : ∀ (Is : List ValPtr) (calls₀ : List (OLATag × OLATagIdx)),
      Is.foldlM (fun calls I => Worklist.run (visitUser E (E.fieldNames F.mod)) n calls [I])
        calls₀ = some calls →
      (c ∈ calls ↔ c ∈ calls₀ ∨ ∃ I ∈ Is, ∃ V, Relation.ReflTransGen (Follows E) I V ∧
        c ∈ userTags E (E.fieldNames F.mod) V) := by
    intro Is
    induction Is with
    | nil =>
      intro calls₀ hrun
      obtain rfl := Option.some.inj hrun
      simp
    | cons I Is ih =>
      intro calls₀ hrun
      rw [List.foldlM_cons] at hrun
      obtain ⟨calls₁, hone, hrest⟩ := Option.bind_eq_some_iff.mp hrun
      have hI : c ∈ calls₁ ↔ c ∈ calls₀ ∨ ∃ x ∈ [I], ∃ V,
          Relation.ReflTransGen (Worklist.Succ (pushedOperands E)) x V ∧
            c ∈ userTags E (E.fieldNames F.mod) V :=
        Worklist.mem_run_unfold (fun _ _ => rfl) hone
      rw [ih calls₁ hrest, hI, or_assoc]
      simp only [List.mem_cons, List.not_mem_nil, or_false, exists_eq_left, exists_eq_or_imp]
      rfl
  rw [hloop (E.insts F) [] h]
  simp

/-- The loops of an update end for every instruction of the function exactly when no constant
that the function uses, directly or through other constants, refers to itself. -/
theorem calledTags_ends_iff (F : FuncPtr) :
    ((∀ I ∈ E.insts F, ∀ calls, ∃ n calls',
        Worklist.run (visitUser E (E.fieldNames F.mod)) n calls [I] = some calls') ↔
      ∀ I ∈ E.insts F, Acyclic E I) ∧
    ((∃ n calls, calledTags E n F = some calls) ↔ ∀ I ∈ E.insts F, Acyclic E I) := by
  refine ⟨⟨fun h I hI => ?_, fun h I hI calls => ?_⟩, ⟨fun h I hI => ?_, fun h => ?_⟩⟩
  · obtain ⟨n, calls', hrun⟩ := h I hI []
    exact acyclic_of_run hrun
  · obtain ⟨n, hn⟩ := run_isSome_of_acyclic (E.fieldNames F.mod) (h I hI)
    exact ⟨n, Option.isSome_iff_exists.mp (hn calls)⟩
  · obtain ⟨n, calls, hrun⟩ := h
    obtain ⟨t, t', ht⟩ := Fold.exists_of_foldlM hrun I hI
    exact acyclic_of_run ht
  · exact calledTags_isSome_of_acyclic h

/-- `struct node { struct node *next; } head = { &head };`, and a function that loads from
`head`. -/
def circularHead : Env := Env.ofModules [
  { values := [
      { kind := .function { name := "f", insts := [1] } },
      { kind := .instruction .load, operands := [2] },
      { kind := .globalVariable, operands := [3], users := [1, 3] },
      { kind := .aggregate, operands := [2], users := [2] }]
    types := []
    functions := [0]
    globals := [2]
    names_nodup := by decide
    functions_listed := by decide }]

/-- Whatever the budget, the walk from the load does not end. -/
theorem circularHead_loops : ¬ ∀ I ∈ circularHead.insts ⟨0, 0⟩, ∃ n calls',
    Worklist.run (visitUser circularHead (circularHead.fieldNames 0)) n [] [I] =
      some calls' := by
  intro h
  obtain ⟨n, calls', hrun⟩ := h ⟨0, 1⟩ (by decide)
  have hhead : Follows circularHead ⟨0, 1⟩ ⟨0, 2⟩ := by decide
  have hini : Follows circularHead ⟨0, 2⟩ ⟨0, 3⟩ := by decide
  have hback : Follows circularHead ⟨0, 3⟩ ⟨0, 2⟩ := by decide
  exact acyclic_of_run hrun ⟨0, 2⟩ (Relation.ReflTransGen.single hhead)
    ((Relation.TransGen.single hini).tail hback)

end OperationLevelAnalyzer

end Cisa

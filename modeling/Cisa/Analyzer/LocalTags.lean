import Cisa.Analyzer.OperandWalk
import Cisa.Analyzer.TopLevelTags

/-!
# What an update of a function looks at

A GEP is tagged as stored to, or loaded from, when one of its users stores to it or loads. The
users of an instruction are in its function; a constant expression is shared by the functions
of its module. So the tags of a function may be decided by the accesses of others.
-/

namespace Cisa

open Std

namespace OperationLevelAnalyzer

variable (E : Env)

/-- The tags of the fields that a GEP accesses. -/
def gepTags (fnames : FieldNames) (V : ValPtr) : List OLATag :=
  match E.opcode V with
  | some (.gep _) =>
    let PTy := (E.operand V 0).bind fun P => E.pointee (E.typeOf P)
    let fields := (PTy.map fun T => walkIndices E T ((E.operands V).drop 2)).getD []
    (fields.map fun p => structFieldTag p.1 p.2 fnames).filter isKeptTag
  | _ => []

/-- `I` stores to the address `P`, or loads from it. -/
def AccessAt : OLATagIdx → ValPtr → ValPtr → Prop
  | .mod, I, P => E.instOpcode I = some .store ∧ E.operand I 1 = some P
  | .ref, I, P => E.instOpcode I = some .load ∧ E.operand I 0 = some P

/-- The user `U` of `V` lets an update tag `V`. -/
def CountsAt : OLATagIdx → ValPtr → ValPtr → Prop
  | .mod, U, V => E.instOpcode U = some .store ∧ E.operand U 1 = some V
  | .ref, U, _ => E.instOpcode U = some .load

/-- An instruction of `F` itself stores to (loads from) an address whose GEP accesses the
field. -/
def Accesses (F : FuncPtr) (k : OLATagIdx) (t : OLATag) : Prop :=
  ∃ I ∈ E.insts F, ∃ P, AccessAt E k I P ∧ t ∈ gepTags E (E.fieldNames F.mod) P

/-- The tags that an update of `F` leaves, on an analyzer that has none for `F`. -/
def Tagged (F : FuncPtr) (tags : OLATagIdx → SortedSet OLATag) : Prop :=
  ∃ (A : OperationLevelAnalyzer) (ctx : GlobalContext) (n : ℕ) (A' : OperationLevelAnalyzer)
    (ctx' : GlobalContext), (∀ k t, t ∉ A.getTags F (OLATagIdx.idx k)) ∧
      update E A n ctx F = some (A', ctx') ∧ ∀ k, A'.getTags F (OLATagIdx.idx k) = tags k

/-- An update of `F` looks only inside `F`. -/
def LooksInside (F : FuncPtr) : Prop :=
  ∀ tags, Tagged E F tags → ∀ k t, t ∈ tags k → Accesses E F k t

/-- Of every GEP that the walks of `F` reach: a store or load by another function adds no tag
of a field that `F` does not store to, or load from, itself. -/
def SharesNoAccess (F : FuncPtr) : Prop :=
  ∀ I ∈ E.insts F, ∀ V, Relation.ReflTransGen (Follows E) I V → ∀ k, ∀ U ∈ E.users V,
    CountsAt E k U V → ¬ (U ∈ E.insts F ∧ AccessAt E k U V) →
      ∀ t ∈ gepTags E (E.fieldNames F.mod) V, Accesses E F k t

variable {E} {F : FuncPtr} {k : OLATagIdx} {t : OLATag}

theorem userTags_eq_flatMap (fnames : FieldNames) (V : ValPtr) :
    userTags E fnames V = (gepTags E fnames V).flatMap fun tag =>
      (if isModed E V then [(tag, OLATagIdx.mod)] else []) ++
      (if isRefed E V then [(tag, OLATagIdx.ref)] else []) := by
  unfold userTags gepTags
  cases E.opcode V with
  | none => rfl
  | some op =>
    cases op with
    | gep T => rfl
    | _ => rfl

theorem mem_userTags {fnames : FieldNames} {V : ValPtr} : (t, k) ∈ userTags E fnames V ↔
    t ∈ gepTags E fnames V ∧ ∃ U ∈ E.users V, CountsAt E k U V := by
  have hmod : isModed E V = true ↔ ∃ U ∈ E.users V, CountsAt E .mod U V := by
    simp [isModed, CountsAt]
  have href : isRefed E V = true ↔ ∃ U ∈ E.users V, CountsAt E .ref U V := by
    simp [isRefed, CountsAt]
  rw [userTags_eq_flatMap, List.mem_flatMap]
  cases k with
  | mod =>
    rw [← hmod]
    by_cases hV : isModed E V = true <;> simp [hV]
  | ref =>
    rw [← href]
    by_cases hV : isRefed E V = true <;> simp [hV]

theorem mem_tags_iff {tags : OLATagIdx → SortedSet OLATag} (h : Tagged E F tags) :
    t ∈ tags k ↔ ∃ I ∈ E.insts F, ∃ V, Relation.ReflTransGen (Follows E) I V ∧
      t ∈ gepTags E (E.fieldNames F.mod) V ∧ ∃ U ∈ E.users V, CountsAt E k U V := by
  obtain ⟨A, ctx, n, A', ctx', hnone, hupdate, htags⟩ := h
  obtain ⟨⟨B, gctx⟩, calls, hmanage, hcalls, hr⟩ := exists_of_update hupdate
  obtain ⟨rfl, rfl⟩ := Prod.mk.inj hr
  have hkept := (manageTopLVs_spec hmanage).1
  dsimp only at hkept
  have hnew : t ∉ B.getTags F k.idx := by
    rw [hkept]
    exact hnone k t
  rw [← htags, mem_getTags_addTags, or_iff_right hnew]
  simp only [and_true, exists_eq_right, mem_calledTags hcalls, mem_userTags]

theorem exists_tagged (h : ∀ I ∈ E.insts F, Acyclic E I) : ∃ tags, Tagged E F tags := by
  obtain ⟨n, calls, hcalls⟩ := calledTags_isSome_of_acyclic h
  have hmanage : ∃ r, manageTopLVs E {} {} F = some r := by
    unfold manageTopLVs
    split_ifs
    · exact ⟨_, rfl⟩
    · exact ⟨_, rfl⟩
  obtain ⟨⟨B, gctx⟩, hB⟩ := hmanage
  refine ⟨_, {}, {}, n, B.addTags F calls, gctx, ?_, ?_, fun k => rfl⟩
  · intro k t
    cases k <;> simp [Analyzer.getTags, OLATagIdx.idx]
  · simp [update, hB, hcalls]

theorem AccessAt.countsAt {I P : ValPtr} (h : AccessAt E k I P) : CountsAt E k I P := by
  cases k with
  | mod => exact h
  | ref => exact h.1

/-- An update looks only inside its function iff the accesses of others add nothing, as far
as the walks end. -/
theorem looksInside_iff : LooksInside E F ↔
    ((∀ I ∈ E.insts F, Acyclic E I) → SharesNoAccess E F) := by
  constructor
  · intro h hacyclic I hI V hV k U hU hcounts _ t ht
    obtain ⟨tags, htags⟩ := exists_tagged hacyclic
    exact h tags htags k t ((mem_tags_iff htags).mpr ⟨I, hI, V, hV, ht, U, hU, hcounts⟩)
  · intro h tags htags k t ht
    obtain ⟨I, hI, V, hV, htV, U, hU, hcounts⟩ := (mem_tags_iff htags).mp ht
    by_cases hown : U ∈ E.insts F ∧ AccessAt E k U V
    · exact ⟨U, hown.1, V, hown.2, htV⟩
    · have hacyclic : ∀ I ∈ E.insts F, Acyclic E I := by
        obtain ⟨A, ctx, n, A', ctx', _, hupdate, _⟩ := htags
        obtain ⟨_, calls, _, hcalls, _⟩ := exists_of_update hupdate
        intro I hI
        obtain ⟨t, t', hrun⟩ := Fold.exists_of_foldlM hcalls I hI
        exact acyclic_of_run hrun
      exact h hacyclic I hI V hV k U hU hcounts hown t htV

variable (E F) in
/-- What the verifier checks of the operands of a function: the instructions among them are in
the function; and every operand lists its user. -/
structure UsesListed : Prop where
  own : ∀ I ∈ E.insts F, ∀ P ∈ E.operands I, E.instOpcode P ≠ none → P ∈ E.insts F
  users : ∀ I ∈ E.insts F, ∀ P ∈ E.operands I, I ∈ E.users P

theorem mem_tags_of_accesses (hF : UsesListed E F) {tags : OLATagIdx → SortedSet OLATag}
    (htags : Tagged E F tags) (h : Accesses E F k t) : t ∈ tags k := by
  obtain ⟨I, hI, P, haccess, ht⟩ := h
  have hP : P ∈ E.operands I := by
    cases k with
    | mod => exact List.mem_of_getElem? haccess.2
    | ref => exact List.mem_of_getElem? haccess.2
  have huser := hF.users I hI P hP
  by_cases hinst : E.instOpcode P = none
  · have hgep : E.isUser P = true := by
      unfold gepTags at ht
      split at ht
      · rename_i T hop
        unfold Env.opcode at hop
        unfold Env.isUser
        cases hkind : (E.value P).kind <;> simp_all
      · simp at ht
    have hstep : Follows E I P := List.mem_filter.mpr ⟨hP, by simp [hinst, hgep]⟩
    exact (mem_tags_iff htags).mpr ⟨I, hI, P, Relation.ReflTransGen.single hstep, ht, I, huser,
      haccess.countsAt⟩
  · exact (mem_tags_iff htags).mpr ⟨P, hF.own I hI P hP hinst, P, Relation.ReflTransGen.refl, ht,
      I, huser, haccess.countsAt⟩

/-- Whether the update of a function looks only inside it; and two functions with the same
accesses, in two modules, then get the same tags. -/
theorem update_looks_inside_iff (E : Env) (F : FuncPtr) :
    (LooksInside E F ↔ ((∀ I ∈ E.insts F, Acyclic E I) → SharesNoAccess E F)) ∧
    (∀ E' F', UsesListed E F → UsesListed E' F' → LooksInside E F → LooksInside E' F' →
      (∀ k t, Accesses E F k t ↔ Accesses E' F' k t) →
        ∀ tags tags', Tagged E F tags → Tagged E' F' tags' → ∀ k, tags k = tags' k) := by
  refine ⟨looksInside_iff, ?_⟩
  intro E' F' hF hF' hin hin' hsame tags tags' htags htags' k
  apply ExtTreeSet.ext_mem
  intro t
  constructor
  · exact fun ht => mem_tags_of_accesses hF' htags' ((hsame k t).mp (hin tags htags k t ht))
  · exact fun ht => mem_tags_of_accesses hF htags ((hsame k t).mpr (hin' tags' htags' k t ht))

/-- `f` loads from the second field of `table`, and `g` stores to it. -/
def sharedTable : Env :=
  let M : Module :=
    { values := [
        { kind := .function { name := "f", insts := [1] } },
        { kind := .instruction .load, operands := [4] },
        { kind := .function { name := "g", insts := [3] } },
        { kind := .instruction .store, operands := [7, 4], parent := 2 },
        { kind := .constantExpr (.gep 1), ty := 2, operands := [5, 6, 7], users := [1, 3] },
        { kind := .globalVariable, ty := 2, users := [4] },
        { kind := .constantInt 0, users := [4] },
        { kind := .constantInt 1, users := [3, 4] }]
      types := [
        { kind := .other 13, printed := "i32" },
        { kind := .struct (some "struct.table") false [0, 0], printed := "%struct.table" },
        { kind := .pointer 1, printed := "%struct.table*" }]
      functions := [0, 2]
      globals := [5]
      names_nodup := by decide
      functions_listed := by decide }
  Env.ofModules [M]

/-- `f` is tagged as storing to the field, though it has no store. -/
theorem sharedTable_outside : ¬ LooksInside sharedTable ⟨0, 0⟩ := by
  intro h
  have hrun : Worklist.run (visitUser sharedTable ∅) 5 [] [⟨0, 1⟩] =
      some [("struct.table::_1", .mod), ("struct.table::_1", .ref)] := by decide
  have hacyclic : ∀ I ∈ sharedTable.insts ⟨0, 0⟩, Acyclic sharedTable I := by
    intro I hI
    rw [List.mem_singleton.mp (show I ∈ [(⟨0, 1⟩ : ValPtr)] from hI)]
    exact acyclic_of_run hrun
  have hstep : Follows sharedTable ⟨0, 1⟩ ⟨0, 4⟩ := by decide
  obtain ⟨I, hI, P, haccess, _⟩ := looksInside_iff.mp h hacyclic ⟨0, 1⟩ (by decide) ⟨0, 4⟩
    (Relation.ReflTransGen.single hstep) .mod ⟨0, 3⟩ (by decide) ⟨by decide, by decide⟩
    (fun hown => absurd hown.1 (by decide)) "struct.table::_1" (by decide)
  have hnone : ∀ I ∈ sharedTable.insts ⟨0, 0⟩, sharedTable.instOpcode I ≠ some .store := by
    decide
  exact hnone I hI haccess.1

end OperationLevelAnalyzer

end Cisa

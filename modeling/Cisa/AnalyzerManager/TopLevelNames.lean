import Cisa.AnalyzerManager.LiveKeys

/-!
# The names of the memo of top-level tags

An update of a function that is not top-level looks up the functions of all names whose
row of `toplv_tags[0]` is filled, and asserts that they are there. Rows are filled by
aggregations and cleared by updates; that the function of a row has been deleted is not
noticed before the next update.
-/

namespace Cisa

open Std

namespace OperationLevelAnalyzer

variable {E : Env} {A : OperationLevelAnalyzer} {ctx : GlobalContext} {F : FuncPtr} {name : String}

/-- The name has tags in `toplv_tags[0]`. -/
def RowFilled (A : OperationLevelAnalyzer) (name : String) : Prop :=
  ∃ t, Memoised A (.mod, name) t

/-- The name is registered, and a function below the one of that name modifies a field. -/
def Fillable (A : OperationLevelAnalyzer) (ctx : GlobalContext) (name : String) : Prop :=
  name ∈ A.toplvTags .mod ∧ ∃ t, TopLVTag A.toAnalyzer ctx (.mod, name) t

theorem clearedNames_isSome {l : List (String × SortedSet OLATag)} :
    (clearedNames F ctx l).isSome ↔
      ∀ p ∈ l, p.2.isEmpty = false → (ctx.getFunction p.1 "").isSome := by
  induction l generalizing ctx with
  | nil => simp [clearedNames]
  | cons p l ih =>
    rw [List.forall_mem_cons]
    unfold clearedNames
    cases hempty : p.2.isEmpty with
    | true => simp [ih]
    | false =>
      cases hF : ctx.getFunction p.1 "" with
      | none => simp
      | some TopLVF =>
        have hgraph : SameGraph (ctx.isAncestor TopLVF F).2 ctx :=
          Ancestors.forgetCaches_isAncestor ctx (TopLVF, F)
        simp [ih, hgraph.getFunction_eq]

theorem manageTopLVs_isSome : (manageTopLVs E A ctx F).isSome ↔
    (isTopLV E F = false → ∀ name, A.RowFilled name → (ctx.getFunction name "").isSome) := by
  unfold manageTopLVs
  cases htop : isTopLV E F with
  | true => simp
  | false =>
    simp only [Bool.false_eq_true, if_false, Option.isSome_map, forall_true_left,
      clearedNames_isSome]
    constructor
    · intro h name hname
      obtain ⟨t, ht⟩ := hname
      obtain ⟨r, hr, hrow, htr⟩ := ExtTreeMap.mem_row_iff_exists.mp ht
      dsimp only at hrow
      rw [← hrow]
      exact h r hr (ExtTreeSet.isEmpty_eq_false_iff_exists.mpr ⟨t, htr⟩)
    · intro h p hp hfilled
      obtain ⟨t, ht⟩ := ExtTreeSet.isEmpty_eq_false_iff_exists.mp hfilled
      exact h p.1 ⟨t, ExtTreeMap.mem_row_iff_exists.mpr ⟨p, hp, rfl, ht⟩⟩

/-- An update fills no row; an update of a top-level function clears the one of its name
only. -/
theorem rowFilled_update {n : ℕ} {r : OperationLevelAnalyzer × GlobalContext}
    (h : A.update E n ctx F = some r) :
    (r.1.RowFilled name → A.RowFilled name) ∧
      (isTopLV E F = true → A.RowFilled name →
        name = (E.function F).name ∨ r.1.RowFilled name) := by
  obtain ⟨s, calls, hs, _, rfl⟩ := exists_of_update h
  have hrow := (manageTopLVs_spec hs).2.2 (.mod, name)
  constructor
  · intro hname
    obtain ⟨t, ht⟩ := hname
    exact ⟨t, ((hrow t).mp ht).2⟩
  · intro htop hname
    obtain ⟨t, ht⟩ := hname
    by_cases heq : name = (E.function F).name
    · exact Or.inl heq
    · have hclear : ¬ Clears E ⟨A, ctx⟩ F (.mod, name) := by
        rw [Clears, if_pos htop]
        exact heq
      exact Or.inr ⟨t, (hrow t).mpr ⟨hclear, ht⟩⟩

theorem rowFilled_getOrFindTopLVTags {sc : String} {k : OLATagIdx} (hsc : sc ∈ A.toplvTags .mod) :
    (A.getOrFindTopLVTags ctx sc k).2.RowFilled name ↔
      A.RowFilled name ∨ (k = .mod ∧ sc = name ∧ A.Fillable ctx name) := by
  have hset : ∀ t, Memoised (A.getOrFindTopLVTags ctx sc k).2 (.mod, name) t ↔
      if (k, sc) = (OLATagIdx.mod, name) then t ∈ (A.getOrFindTopLVTags ctx sc k).1
      else Memoised A (.mod, name) t := fun t => memoised_setTopLV
  unfold RowFilled
  simp only [hset]
  by_cases hk : (k, sc) = (OLATagIdx.mod, name)
  · obtain ⟨rfl, rfl⟩ := Prod.mk.inj hk
    simp only [if_true, Fillable, hsc, true_and]
    unfold getOrFindTopLVTags Memoised TopLVTag
    dsimp only
    cases hempty : ((A.toplvTags .mod).row sc).isEmpty with
    | false =>
      have hrow := ExtTreeSet.isEmpty_eq_false_iff_exists.mp hempty
      simp [hrow]
    | true =>
      rw [ExtTreeSet.isEmpty_iff.mp hempty]
      cases hF : ctx.getFunction sc "" with
      | none => simp
      | some G => simp [mem_descendantTags]
  · rw [Prod.mk.injEq] at hk
    simp only [Prod.mk.injEq, if_neg hk]
    tauto

/-- The analyzers differ in their rows only. -/
structure SameNames (A B : OperationLevelAnalyzer) : Prop where
  tags : B.toAnalyzer = A.toAnalyzer
  names : ∀ sc, sc ∈ B.toplvTags .mod ↔ sc ∈ A.toplvTags .mod

variable {B : OperationLevelAnalyzer}

theorem SameNames.refl : SameNames A A := ⟨rfl, fun _ => Iff.rfl⟩

theorem SameNames.setTopLV (h : SameNames A B) {sc : String} {k : OLATagIdx}
    {tags : SortedSet OLATag} (hsc : sc ∈ A.toplvTags .mod) :
    SameNames A (B.setTopLV sc k tags) := by
  constructor
  · exact h.tags
  · intro sc'
    rw [mem_toplvTags_setTopLV, h.names]
    constructor
    · intro hmem
      rcases hmem with ⟨_, rfl⟩ | hmem
      · exact hsc
      · exact hmem
    · exact Or.inr

theorem SameNames.fillable (h : SameNames A B) : B.Fillable ctx name ↔ A.Fillable ctx name := by
  unfold Fillable
  rw [h.tags, h.names]

theorem rowFilled_relevantTopLVs {s : OperationLevelAnalyzer × RelSet} (h : SameNames A s.1)
    (p : OLATagIdx × OLATagIdx) :
    SameNames A (relevantTopLVs ctx F s p).1 ∧
      ∀ name, (relevantTopLVs ctx F s p).1.RowFilled name ↔
        s.1.RowFilled name ∨ (p.2 = .mod ∧ A.Fillable ctx name) := by
  have hstep : ∀ (u : OperationLevelAnalyzer × RelSet), ∀ sc ∈ (s.1.toplvTags .mod).keys,
      SameNames A u.1 →
      SameNames A (addIfRelevant ctx p.2 (s.1.descendantTags ctx F p.1) u sc).1 := by
    intro u sc hsc hu
    exact hu.setTopLV ((h.names sc).mp (ExtTreeMap.mem_keys.mp hsc))
  constructor
  · exact Fold.foldl_invariant (I := fun u : OperationLevelAnalyzer × RelSet => SameNames A u.1)
      h hstep
  · intro name
    unfold relevantTopLVs
    rw [Fold.foldl_or_of (I := fun u : OperationLevelAnalyzer × RelSet => SameNames A u.1)
      (P := fun u => u.1.RowFilled name)
      (Q := fun sc => p.2 = .mod ∧ sc = name ∧ A.Fillable ctx name) h]
    · apply or_congr Iff.rfl
      constructor
      · intro hex
        obtain ⟨_, _, hp, _, hfill⟩ := hex
        exact ⟨hp, hfill⟩
      · intro hex
        obtain ⟨hp, hfill⟩ := hex
        exact ⟨name, ExtTreeMap.mem_keys.mpr ((h.names name).mpr hfill.1), hp, rfl, hfill⟩
    · intro u sc hsc hu
      refine ⟨hstep u sc hsc hu, ?_⟩
      have hreg : sc ∈ u.1.toplvTags .mod :=
        (hu.names sc).mpr ((h.names sc).mp (ExtTreeMap.mem_keys.mp hsc))
      rw [← hu.fillable]
      exact rowFilled_getOrFindTopLVTags hreg

theorem aggregate_rows (A : OperationLevelAnalyzer) (ctx : GlobalContext) (F : FuncPtr) :
    SameNames A (A.aggregate ctx F).2 ∧
      ∀ name, (A.aggregate ctx F).2.RowFilled name ↔ A.RowFilled name ∨ A.Fillable ctx name := by
  obtain ⟨hnames, hfirst⟩ := rowFilled_relevantTopLVs (s := (A, ∅)) (F := F) SameNames.refl
    (.mod, .ref)
  obtain ⟨hnames', hsecond⟩ := rowFilled_relevantTopLVs (F := F) hnames (.ref, .mod)
  refine ⟨hnames', ?_⟩
  intro name
  refine (hsecond name).trans ?_
  rw [hfirst]
  simp

end OperationLevelAnalyzer

namespace AnalyzerManager

open OperationLevelAnalyzer (SameGraph isTopLV calledTags manageTopLVs)

variable {E : Env} {n : ℕ} {S S' : State} {F G : FuncPtr} {name : String}

def State.Filled (S : State) (name : String) : Prop := ∃ A, .oper A ∈ S.analyzers ∧ A.RowFilled name

def State.Fillable (S : State) (name : String) : Prop :=
  ∃ A, .oper A ∈ S.analyzers ∧ A.Fillable S.gctx name

/-- `GetFunction` finds a function of this name. -/
def Found (ctx : GlobalContext) (name : String) : Prop := (ctx.getFunction name "").isSome

theorem oper_updateFunction (h : updateFunction E n S F = some S') :
    (∀ B, .oper B ∈ S'.analyzers → ∃ A ctx gctx, .oper A ∈ S.analyzers ∧
      (A.remove F).update E n ctx F = some (B, gctx)) ∧
    (∀ A, .oper A ∈ S.analyzers → ∃ B ctx gctx, .oper B ∈ S'.analyzers ∧
      (A.remove F).update E n ctx F = some (B, gctx)) := by
  obtain ⟨hall, _⟩ := updateFunction_spec
    (R := fun A A' => ∃ ctx gctx, (A.remove F).update E n ctx F = some (A', gctx))
    (fun _ ctx r _ _ hr => ⟨ctx, r.2, hr⟩) h
  constructor
  · intro B hB
    obtain ⟨A', hA', ctx, gctx, hrun⟩ := exists_left_of_forall₂ hall hB
    cases A' with
    | oper A =>
      obtain ⟨r, hr, heq⟩ := Option.map_eq_some_iff.mp hrun
      obtain ⟨hB, rfl⟩ := Prod.mk.inj heq
      obtain rfl := IAnalyzer.oper.inj hB
      exact ⟨A, ctx, r.2, hA', hr⟩
    | sub A => cases Option.some.inj hrun
  · intro A hA
    obtain ⟨B', hB', ctx, gctx, hrun⟩ := exists_left_of_forall₂ hall.flip hA
    obtain ⟨r, hr, heq⟩ := Option.map_eq_some_iff.mp hrun
    obtain ⟨rfl, rfl⟩ := Prod.mk.inj heq
    exact ⟨r.1, ctx, r.2, hB', hr⟩

theorem calledTags_isSome_of_update {A : OperationLevelAnalyzer} {ctx : GlobalContext}
    (h : (A.update E n ctx F).isSome) : (calledTags E n F).isSome := by
  obtain ⟨r, hr⟩ := Option.isSome_iff_exists.mp h
  unfold OperationLevelAnalyzer.update at hr
  simp only [Option.bind_eq_bind, Option.pure_def] at hr
  obtain ⟨_, _, hr⟩ := Option.bind_eq_some_iff.mp hr
  obtain ⟨calls, hcalls, _⟩ := Option.bind_eq_some_iff.mp hr
  rw [hcalls]
  rfl

theorem filled_updateFunction (h : updateFunction E n S F = some S') :
    (S'.Filled name → S.Filled name ∧ (calledTags E n F).isSome) ∧
      (isTopLV E F = true → S.Filled name → name = (E.function F).name ∨ S'.Filled name) := by
  obtain ⟨hback, hforth⟩ := oper_updateFunction h
  constructor
  · intro hname
    obtain ⟨B, hB, hrow⟩ := hname
    obtain ⟨A, ctx, gctx, hA, hrun⟩ := hback B hB
    have hrowA := (OperationLevelAnalyzer.rowFilled_update hrun).1 hrow
    exact ⟨⟨A, hA, hrowA⟩, calledTags_isSome_of_update (Option.isSome_iff_exists.mpr ⟨_, hrun⟩)⟩
  · intro htop hname
    obtain ⟨A, hA, hrow⟩ := hname
    obtain ⟨B, ctx, gctx, hB, hrun⟩ := hforth A hA
    have hrowA : (A.remove F).RowFilled name := hrow
    rcases (OperationLevelAnalyzer.rowFilled_update hrun).2 htop hrowA with heq | hrowB
    · exact Or.inl heq
    · exact Or.inr ⟨B, hB, hrowB⟩

theorem filled_updateFunctions {Fs : List FuncPtr}
    (h : Fs.foldlM (updateFunction E n) S = some S') (hname : S'.Filled name) : S.Filled name := by
  revert hname
  exact Fold.foldlM_invariant (I := fun T : State => T.Filled name → S.Filled name) id
    (fun _ _ _ _ hT hstep hname => hT ((filled_updateFunction hstep).1 hname).1) h

theorem filled_aggregateFunction :
    ((aggregateFunction S F).Filled name ↔ S.Filled name ∨ S.Fillable name) ∧
      ((aggregateFunction S F).Fillable name ↔ S.Fillable name) := by
  have hmem : ∀ B, IAnalyzer.oper B ∈ (aggregateFunction S F).analyzers ↔
      ∃ A, .oper A ∈ S.analyzers ∧ (A.aggregate S.gctx F).2 = B := by
    intro B
    rw [aggregateFunction_eq]
    dsimp only
    rw [List.mem_map]
    constructor
    · intro h
      obtain ⟨A', hA', heq⟩ := h
      cases A' with
      | oper A => exact ⟨A, hA', IAnalyzer.oper.inj heq⟩
      | sub A => cases heq
    · intro h
      obtain ⟨A, hA, rfl⟩ := h
      exact ⟨.oper A, hA, rfl⟩
  have hgctx : (aggregateFunction S F).gctx = S.gctx := by rw [aggregateFunction_eq]
  unfold State.Filled State.Fillable
  rw [hgctx]
  simp only [hmem]
  constructor
  · constructor
    · intro h
      obtain ⟨_, ⟨A, hA, rfl⟩, hrow⟩ := h
      rcases ((A.aggregate_rows S.gctx F).2 name).mp hrow with hrow | hfill
      · exact Or.inl ⟨A, hA, hrow⟩
      · exact Or.inr ⟨A, hA, hfill⟩
    · intro h
      rcases h with ⟨A, hA, hrow⟩ | ⟨A, hA, hfill⟩
      · exact ⟨_, ⟨A, hA, rfl⟩, ((A.aggregate_rows S.gctx F).2 name).mpr (Or.inl hrow)⟩
      · exact ⟨_, ⟨A, hA, rfl⟩, ((A.aggregate_rows S.gctx F).2 name).mpr (Or.inr hfill)⟩
  · constructor
    · intro h
      obtain ⟨_, ⟨A, hA, rfl⟩, hfill⟩ := h
      exact ⟨A, hA, (A.aggregate_rows S.gctx F).1.fillable.mp hfill⟩
    · intro h
      obtain ⟨A, hA, hfill⟩ := h
      exact ⟨_, ⟨A, hA, rfl⟩, (A.aggregate_rows S.gctx F).1.fillable.mpr hfill⟩

theorem filled_aggregateFunctions {doAgg : Bool} {Fs : List FuncPtr} :
    (aggregateFunctions doAgg S Fs).Filled name ↔
      S.Filled name ∨ (doAgg = true ∧ Fs ≠ [] ∧ S.Fillable name) := by
  unfold aggregateFunctions
  cases doAgg with
  | false => simp
  | true =>
    simp only [if_true, true_and]
    induction Fs generalizing S with
    | nil => simp
    | cons F Fs ih =>
      rw [List.foldl_cons, ih, filled_aggregateFunction.1, filled_aggregateFunction.2]
      simp only [ne_eq, List.cons_ne_nil, not_false_eq_true, true_and]
      tauto

theorem filled_mapAnalyzers {f : IAnalyzer → IAnalyzer}
    {g : OperationLevelAnalyzer → OperationLevelAnalyzer} {cur : Context}
    (hoper : ∀ A, f (.oper A) = .oper (g A)) (hsub : ∀ A, ∃ B, f (.sub A) = .sub B)
    (htags : ∀ A, (g A).toplvTags = A.toplvTags) :
    ({ S with analyzers := S.analyzers.map f, cur } : State).Filled name ↔ S.Filled name := by
  have hrow : ∀ A, (g A).RowFilled name ↔ A.RowFilled name := by
    intro A
    unfold OperationLevelAnalyzer.RowFilled OperationLevelAnalyzer.Memoised
    rw [htags]
  unfold State.Filled
  simp only [List.mem_map]
  constructor
  · intro h
    obtain ⟨B, ⟨A', hA', heq⟩, hB⟩ := h
    cases A' with
    | oper A =>
      rw [hoper] at heq
      obtain rfl := IAnalyzer.oper.inj heq
      exact ⟨A, hA', (hrow A).mp hB⟩
    | sub A =>
      obtain ⟨C, hC⟩ := hsub A
      rw [hC] at heq
      cases heq
  · intro h
    obtain ⟨A, hA, hrowA⟩ := h
    exact ⟨g A, ⟨.oper A, hA, hoper A⟩, (hrow A).mpr hrowA⟩

theorem filled_correctChange {path : String} {delFlps : List FunctionLinePair}
    {newFL : FunctionLinePair} :
    (correctChange path delFlps S newFL).Filled name ↔ S.Filled name := by
  unfold correctChange
  split
  · exact filled_mapAnalyzers (f := fun A => A.move _ _) (fun _ => rfl) (fun _ => ⟨_, rfl⟩)
      fun _ => rfl
  · exact Iff.rfl

theorem filled_removeFunction {delFL : FunctionLinePair} :
    (removeFunction S delFL).Filled name ↔ S.Filled name :=
  filled_mapAnalyzers (f := fun A => A.remove delFL.1) (fun _ => rfl) (fun _ => ⟨_, rfl⟩)
    fun _ => rfl

theorem filled_correctPaths {delInfos : String → List FunctionLinePair} {upPaths : List String} :
    (correctPaths E delInfos S upPaths).Filled name ↔ S.Filled name := by
  apply Fold.foldl_invariant (I := fun T : State => T.Filled name ↔ S.Filled name) Iff.rfl
  intro T path _ hT
  refine Iff.trans ?_ hT
  unfold correctChanges
  apply Fold.foldl_invariant (I := fun U : State => U.Filled name ↔ T.Filled name)
  · apply Fold.foldl_invariant (I := fun U : State => U.Filled name ↔ T.Filled name) Iff.rfl
    exact fun U newFL _ hU => filled_correctChange.trans hU
  · exact fun U delFL _ hU => filled_removeFunction.trans hU

/-! ## The assertion -/

/-- The functions of all names with tags are found when `F` is updated. -/
def UpdateSafe (E : Env) (S : State) (F : FuncPtr) : Prop :=
  isTopLV E F = false → ∀ name, S.Filled name → Found S.gctx name

/-- No assertion fails while the functions are updated in turn. -/
def AssertionHolds (E : Env) (n : ℕ) : State → List FuncPtr → Prop
  | _, [] => True
  | S, F :: Fs => UpdateSafe E S F ∧
      ∀ S', updateFunction E n S F = some S' → AssertionHolds E n S' Fs

theorem updateSafe_iff : UpdateSafe E S F ↔
    ∀ A, .oper A ∈ S.analyzers → (manageTopLVs E A S.gctx F).isSome := by
  simp only [OperationLevelAnalyzer.manageTopLVs_isSome]
  constructor
  · intro h A hA htop name hrow
    exact h htop name ⟨A, hA, hrow⟩
  · intro h htop name hname
    obtain ⟨A, hA, hrow⟩ := hname
    exact h A hA htop name hrow

/-- A function that is not top-level is updated, after functions that are. -/
def ReachesOther (E : Env) (Fs : List FuncPtr) : Prop :=
  ∃ n pre F post, Fs = pre ++ F :: post ∧ isTopLV E F = false ∧
    ∀ G ∈ pre, isTopLV E G = true ∧ (calledTags E n G).isSome

theorem calledTags_mono {m : ℕ} {calls : List (OLATag × OLATagIdx)} (hnm : n ≤ m)
    (h : calledTags E n F = some calls) : calledTags E m F = some calls := by
  obtain ⟨k, rfl⟩ := Nat.exists_eq_add_of_le hnm
  have hgen : ∀ (insts : List ValPtr) (c : List (OLATag × OLATagIdx)),
      insts.foldlM (fun calls I => Worklist.run (OperationLevelAnalyzer.visitUser E
        (E.fieldNames F.mod)) n calls [I]) c = some calls →
      insts.foldlM (fun calls I => Worklist.run (OperationLevelAnalyzer.visitUser E
        (E.fieldNames F.mod)) (n + k) calls [I]) c = some calls := by
    intro insts
    induction insts with
    | nil => exact fun _ hc => hc
    | cons I insts ih =>
      intro c hc
      rw [List.foldlM_cons] at hc ⊢
      obtain ⟨c', hc', hrest⟩ := Option.bind_eq_some_iff.mp hc
      rw [Worklist.run_add _ hc' k]
      exact ih c' hrest
  exact hgen _ _ h

theorem ReachesOther.cons {Fs : List FuncPtr} (h : ReachesOther E Fs) (htop : isTopLV E G = true)
    (hcalls : (calledTags E n G).isSome) : ReachesOther E (G :: Fs) := by
  obtain ⟨m, pre, F, post, rfl, hF, hpre⟩ := h
  have hmax : ∀ {k H}, k ≤ max n m → (calledTags E k H).isSome →
      (calledTags E (max n m) H).isSome := by
    intro k H hk hH
    obtain ⟨calls, hcalls⟩ := Option.isSome_iff_exists.mp hH
    rw [calledTags_mono hk hcalls]
    rfl
  refine ⟨max n m, G :: pre, F, post, rfl, hF, ?_⟩
  intro H hH
  rcases List.mem_cons.mp hH with rfl | hH
  · exact ⟨htop, hmax (Nat.le_max_left n m) hcalls⟩
  · exact ⟨(hpre H hH).1, hmax (Nat.le_max_right n m) (hpre H hH).2⟩

theorem found_of_sameGraph {ctx ctx' : GlobalContext} (h : SameGraph ctx' ctx) :
    Found ctx' name ↔ Found ctx name := by
  unfold Found
  rw [h.getFunction_eq]

theorem assertionHolds_of_found {Fs : List FuncPtr}
    (h : ∀ name, S.Filled name → Found S.gctx name) : AssertionHolds E n S Fs := by
  induction Fs generalizing S with
  | nil => exact trivial
  | cons F Fs ih =>
    constructor
    · exact fun _ => h
    · intro S' hS'
      apply ih
      intro name hname
      have hgraph := (sameGraph_updateFunction hS').1
      rw [found_of_sameGraph hgraph]
      exact h name ((filled_updateFunction hS').1 hname).1

theorem updateFunction_isSome (htop : isTopLV E F = true) (hcalls : (calledTags E n F).isSome) :
    (updateFunction E n S F).isSome := by
  obtain ⟨calls, hcalls⟩ := Option.isSome_iff_exists.mp hcalls
  have hupdate : ∀ (A : IAnalyzer) ctx, (A.update E n ctx F).isSome := by
    intro A ctx
    cases A with
    | oper A =>
      simp only [IAnalyzer.update, OperationLevelAnalyzer.update, manageTopLVs, if_pos htop, hcalls,
        Option.bind_eq_bind, Option.bind_some, Option.pure_def, Option.map_some, Option.isSome_some]
    | sub A => rfl
  have hrun : ∀ (anals : List IAnalyzer) (s : List IAnalyzer × GlobalContext),
      (anals.foldlM (fun s (A : IAnalyzer) => (A.update E n s.2 F).bind fun r =>
        some (s.1 ++ [r.1], r.2)) s).isSome := by
    intro anals
    induction anals with
    | nil => exact fun _ => rfl
    | cons A anals ih =>
      intro s
      obtain ⟨r, hr⟩ := Option.isSome_iff_exists.mp (hupdate A s.2)
      rw [List.foldlM_cons, hr]
      exact ih _
  obtain ⟨s, hs⟩ := Option.isSome_iff_exists.mp
    (hrun (S.analyzers.map (IAnalyzer.remove F)) ([], S.gctx))
  unfold updateFunction
  simp only [Option.bind_eq_bind, Option.pure_def, hs, Option.bind_some, Option.isSome_some]

/-- No assertion fails if and only if no function that is not top-level is reached, or the
functions of all names with tags are there. -/
theorem assertionHolds_iff {Fs : List FuncPtr}
    (hnames : ∀ G ∈ Fs, Found S.gctx (E.function G).name) :
    (∀ n, AssertionHolds E n S Fs) ↔
      (ReachesOther E Fs → ∀ name, S.Filled name → Found S.gctx name) := by
  constructor
  · intro hall hreach name hname
    obtain ⟨n, pre, F, post, rfl, htop, hpre⟩ := hreach
    have hsafe := hall n
    clear hall
    induction pre generalizing S with
    | nil => exact hsafe.1 htop name hname
    | cons G pre ih =>
      obtain ⟨htopG, hcalls⟩ := hpre G List.mem_cons_self
      obtain ⟨S', hS'⟩ := Option.isSome_iff_exists.mp (updateFunction_isSome (S := S) htopG hcalls)
      have hgraph := (sameGraph_updateFunction hS').1
      rcases (filled_updateFunction hS').2 htopG hname with rfl | hname'
      · exact hnames G (by simp)
      · rw [← found_of_sameGraph hgraph]
        apply ih hname' _ (fun H hH => hpre H (List.mem_cons_of_mem _ hH)) (hsafe.2 S' hS')
        intro H hH
        rw [found_of_sameGraph hgraph]
        exact hnames H (List.mem_cons_of_mem _ hH)
  · intro h n
    induction Fs generalizing S with
    | nil => exact trivial
    | cons F Fs ih =>
      cases htop : isTopLV E F with
      | false =>
        apply assertionHolds_of_found
        exact h ⟨n, [], F, Fs, rfl, htop, by simp⟩
      | true =>
        constructor
        · intro hno
          rw [htop] at hno
          cases hno
        · intro S' hS'
          have hgraph := (sameGraph_updateFunction hS').1
          apply ih
          · intro H hH
            rw [found_of_sameGraph hgraph]
            exact hnames H (List.mem_cons_of_mem _ hH)
          · intro hreach name hname
            obtain ⟨hold, hcalls⟩ := (filled_updateFunction hS').1 hname
            rw [found_of_sameGraph hgraph]
            apply h _ name hold
            exact hreach.cons htop hcalls

/-! ## Commits -/

/-- One of the modules defines a function of this name. -/
def DefinedIn (E : Env) (modules : List (ModPtr × String)) (name : String) : Prop :=
  ∃ e ∈ modules, ∃ F ∈ CallGraphPass.definitionsOf E e.1, (E.function F).name = name

theorem found_iff {ctx : GlobalContext} (hL : TypeDive.Loaded E ctx) :
    Found ctx name ↔ DefinedIn E ctx.modules name := by
  unfold Found GlobalContext.getFunction DefinedIn
  rw [if_neg (by simp), List.findSome?_isSome_iff]
  constructor
  · intro h
    obtain ⟨e, he, hsome⟩ := h
    obtain ⟨F, hF⟩ := Option.isSome_iff_exists.mp hsome
    have hrow : (ctx.bcFuncs.getD e.1 ∅)[name]? = some F := by
      rw [ExtTreeMap.getD_eq_getD_getElem?, ExtTreeMap.mem_toList_iff_getElem?_eq_some.mp he]
      exact hF
    obtain ⟨M, hM, hFM, hname⟩ := (hL.bcFuncs e.1 name F).mp hrow
    exact ⟨(M, e.1), hM, F, hFM, hname⟩
  · intro h
    obtain ⟨e, he, F, hF, hname⟩ := h
    have hrow := (hL.bcFuncs e.2 name F).mpr ⟨e.1, he, hF, hname⟩
    rw [ExtTreeMap.getD_eq_getD_getElem?] at hrow
    cases hpath : ctx.bcFuncs[e.2]? with
    | none => simp [hpath] at hrow
    | some m =>
      rw [hpath, Option.getD_some] at hrow
      refine ⟨(e.2, m), ExtTreeMap.mem_toList_iff_getElem?_eq_some.mpr hpath, ?_⟩
      rw [hrow]
      rfl

/-- The old functions that the commit changes. -/
def Commit.changedOld (E : Env) (P : Program) (c : Commit) : List FuncPtr :=
  changedFuncs E { P.state with cur := Context.start c.hexsha c.cis } c.upPaths ChangeInfo.delLines

/-- The definitions of the files of the commit that it changes. -/
def Commit.changedNew (E : Env) (c : Commit) : List FuncPtr :=
  c.files.flatMap fun f => getChangedFuncs E (ExtTreeSet.ofElems (CallGraphPass.definitionsOf E f.2))
    ((Context.start c.hexsha c.cis).cis.getD f.1 {}).addLines

/-- The row of the name is filled when the modules are updated: it was before the commit,
or the aggregation of the old functions fills it. -/
def Commit.FilledBefore (E : Env) (P : Program) (c : Commit) (name : String) : Prop :=
  P.state.Filled name ∨ (c.doAgg = true ∧ c.changedOld E P ≠ [] ∧ P.state.Fillable name)

/-- The commit does not delete the last function of a name with tags. -/
def KeepsNames (E : Env) (P : Program) (c : Commit) : Prop :=
  ∀ name, c.FilledBefore E P name → DefinedIn E P.td.ctx.modules name →
    DefinedIn E (TypeDive.nextModules P.td.ctx.modules c.files) name

/-- No assertion fails in the updates of the commit. -/
def CommitSafe (E : Env) (n : ℕ) (P : Program) (c : Commit) : Prop :=
  ∀ td, TypeDive.updateModules E P.td (TypeDive.parsed c.files) = some td →
    AssertionHolds E n (correctPaths E (redefInfos E P.td.ctx) (c.between E P td) c.upPaths)
      (c.postFuncs E P td)

/-- No assertion fails in the updates of the initialisation. -/
def InitializeSafe (E : Env) (n : ℕ) (analyzers : List IAnalyzer) (files : List ParsedFile) :
    Prop :=
  let td := TypeDive.initializeModules E (TypeDive.parsed files)
  AssertionHolds E n { gctx := td.ctx, analyzers } (td.ctx.getAllFunctions.map Prod.fst)

variable {P P' : Program} {c : Commit}

theorem filled_between {td : CallGraphPass} :
    (c.between E P td).Filled name ↔ c.FilledBefore E P name := by
  have hbefore : (c.between E P td).Filled name ↔ (c.before E P).Filled name := Iff.rfl
  rw [hbefore]
  exact filled_aggregateFunctions

theorem getAllModuleFunctions_of_mem {ctx : GlobalContext} (hL : TypeDive.Loaded E ctx)
    {M : ModPtr} {p : String} (hM : (M, p) ∈ ctx.modules) :
    ctx.getAllModuleFunctions p = ExtTreeSet.ofElems (CallGraphPass.definitionsOf E M) := by
  apply ExtTreeSet.ext_mem
  intro F
  rw [mem_getAllModuleFunctions, ExtTreeSet.mem_ofElems]
  constructor
  · intro h
    obtain ⟨m, hm⟩ := h
    obtain ⟨M', hM', hF, _⟩ := (hL.bcFuncs p m F).mp hm
    rwa [hL.eq_of_path hM hM']
  · intro h
    exact ⟨_, (hL.bcFuncs p _ F).mpr ⟨M, hM, h, rfl⟩⟩

theorem postFuncs_eq {td : CallGraphPass} (hL : TypeDive.Loaded E td.ctx)
    (hmods : td.ctx.modules = TypeDive.nextModules P.td.ctx.modules c.files) :
    c.postFuncs E P td = c.changedNew E := by
  unfold Commit.postFuncs changedFuncs Commit.changedNew Commit.upPaths
  rw [List.flatMap_map]
  apply List.flatMap_congr
  intro f hf
  have hmod : (f.2, f.1) ∈ td.ctx.modules := by
    rw [hmods]
    exact TypeDive.mem_nextModules.mpr (Or.inr hf)
  have hfuncs : (c.between E P td).gctx.getAllModuleFunctions f.1 =
      ExtTreeSet.ofElems (CallGraphPass.definitionsOf E f.2) :=
    getAllModuleFunctions_of_mem hL hmod
  rw [Commit.cis_between, hfuncs]

theorem commitSafe_iff {C : Program → Commit → Prop} {seen : List ModPtr} (h : Managed E C seen P)
    (hp : c.upPaths.Nodup) (hm : (c.files.map Prod.snd).Nodup)
    (hfresh : ∀ f ∈ c.files, f.2 ∉ P.td.ctx.modules.map Prod.fst) :
    (∀ n, CommitSafe E n P c) ↔ (ReachesOther E (c.changedNew E) → ∀ name,
      c.FilledBefore E P name →
        DefinedIn E (TypeDive.nextModules P.td.ctx.modules c.files) name) := by
  have hL := h.loaded.1
  obtain ⟨td, htd, hLtd, hmods⟩ := TypeDive.updateModules_loaded hL ⟨hp, hm, hfresh⟩
  set T : State := correctPaths E (redefInfos E P.td.ctx) (c.between E P td) c.upPaths
  have hgctx : T.gctx = td.ctx := gctx_correctPaths _ _ _
  have hfound : ∀ name, Found T.gctx name ↔
      DefinedIn E (TypeDive.nextModules P.td.ctx.modules c.files) name := by
    intro name
    rw [hgctx, found_iff hLtd, hmods]
  have hfilled : ∀ name, T.Filled name ↔ c.FilledBefore E P name := fun name =>
    filled_correctPaths.trans filled_between
  have hsafe : ∀ n, CommitSafe E n P c ↔ AssertionHolds E n T (c.changedNew E) := by
    intro n
    unfold CommitSafe
    rw [htd]
    simp only [Option.some.injEq, forall_eq']
    rw [postFuncs_eq hLtd hmods]
  simp only [hsafe]
  rw [assertionHolds_iff]
  · simp only [hfound, hfilled]
  · intro G hG
    obtain ⟨f, hf, hGf⟩ := List.mem_flatMap.mp hG
    rw [hfound]
    exact ⟨(f.2, f.1), TypeDive.mem_nextModules.mpr (Or.inr hf), G,
      ExtTreeSet.mem_ofElems.mp (ExtTreeSet.mem_toList.mp (List.mem_filter.mp hGf).1), rfl⟩

/-! ## Runs -/

/-- The functions of all names with tags are there. -/
def FilledLive (P : Program) : Prop := ∀ name, P.state.Filled name → Found P.td.ctx name

theorem FilledLive.before (h : FilledLive P) (hname : c.FilledBefore E P name) :
    Found P.td.ctx name := by
  rcases hname with hname | ⟨_, _, A, _, _, t, sc, hsc, _⟩
  · exact h name hname
  · have hfound : P.td.ctx.getFunction name "" = some sc := hsc
    unfold Found
    rw [hfound]
    rfl

/-- The step: rows are filled for functions that are found, and these are kept. -/
theorem Committed.filledLive (h : Committed E n P c P') (hL : TypeDive.Loaded E P.td.ctx)
    (hf : TypeDive.FilesOk P.td.ctx c.files) (hP : FilledLive P) (hkeeps : KeepsNames E P c) :
    FilledLive P' := by
  obtain ⟨hLtd, hmods, hgraph⟩ := h.loaded hL hf
  intro name hname
  rw [found_of_sameGraph hgraph]
  rw [h.state_eq, filled_aggregateFunctions] at hname
  rcases hname with hname | ⟨_, _, A, _, _, t, sc, hsc, _⟩
  · have hcorrect := filled_updateFunctions h.post_eq hname
    rw [filled_correctPaths] at hcorrect
    have hbefore : c.FilledBefore E P name := filled_between.mp hcorrect
    rw [found_iff hLtd, hmods]
    exact hkeeps name hbefore ((found_iff hL).mp (hP.before hbefore))
  · have hpost := sameGraph_updateFunctions h.post_eq
    rw [gctx_correctPaths] at hpost
    have hfound : Found h.post.gctx name := by
      unfold Found
      rw [hsc]
      rfl
    exact (found_of_sameGraph hpost).mp hfound

theorem not_filled_registered {gctx : GlobalContext} {analyzers : List IAnalyzer}
    (h : analyzers.Perm registeredAnalyzers) :
    ¬ State.Filled { gctx, analyzers } name := by
  intro hname
  obtain ⟨A, hA, t, ht⟩ := hname
  have hreg := h.mem_iff.mp hA
  simp only [registeredAnalyzers, List.mem_cons, IAnalyzer.oper.injEq, reduceCtorEq,
    List.not_mem_nil, or_false] at hreg
  subst hreg
  simp [OperationLevelAnalyzer.Memoised] at ht

theorem Managed.filledLive {seen : List ModPtr} (h : Managed E (KeepsNames E) seen P) :
    FilledLive P := by
  induction h with
  | init n analyzers files outPath hanals hp hm hstep =>
    obtain ⟨S, hS, hP⟩ := Option.bind_eq_some_iff.mp hstep
    obtain rfl := Option.some.inj hP
    intro name hname
    exact absurd (filled_updateFunctions hS hname) (not_filled_registered hanals)
  | commit n c hP hp hm hfresh hkeeps hstep ih =>
    obtain ⟨hc⟩ := c.committed hstep
    exact hc.filledLive hP.loaded.1 ⟨hp, hm, hfresh⟩ ih hkeeps

/-- The assertion never fails in the initialisation. In a run whose commits delete no last
function of a name with tags, it does not fail in the next commit if and only if that one
deletes none either or updates no function that is not top-level. -/
theorem assertion_holds_iff (E : Env) :
    (∀ n analyzers files, analyzers.Perm registeredAnalyzers →
      InitializeSafe E n analyzers files) ∧
    ∀ seen P, Managed E (KeepsNames E) seen P → ∀ c : Commit, c.upPaths.Nodup →
      (c.files.map Prod.snd).Nodup → (∀ f ∈ c.files, f.2 ∉ P.td.ctx.modules.map Prod.fst) →
        ((∀ n, CommitSafe E n P c) ↔ (ReachesOther E (c.changedNew E) → KeepsNames E P c)) := by
  constructor
  · intro n analyzers files hanals
    apply assertionHolds_of_found
    intro name hname
    exact absurd hname (not_filled_registered hanals)
  · intro seen P h c hp hm hfresh
    rw [commitSafe_iff h hp hm hfresh]
    have hlive := h.filledLive
    constructor
    · exact fun hall hreach name hname _ => hall hreach name hname
    · intro hkeeps hreach name hname
      exact hkeeps hreach name hname ((found_iff h.loaded.1).mp (hlive.before hname))

/-- A top-level function that stores to a field, and a function that spans two lines. -/
def opener : Module where
  values := [{ kind := .function { name := "sf_open", insts := [4, 5] } },
    { kind := .function { name := "wav_read", insts := [6], subprogramLine := some 3 } },
    { kind := .argument, ty := 2 }, { kind := .constantInt 0 },
    { kind := .instruction (.gep 0), operands := [2, 3, 3], users := [5] },
    { kind := .instruction .store, operands := [3, 4] },
    { kind := .instruction .other, debugLine := some 4 }]
  types := [⟨.struct (some "struct.s") false [1], ""⟩, ⟨.other 13, ""⟩, ⟨.pointer 0, ""⟩]
  functions := [0, 1]
  names_nodup := by decide
  functions_listed := by decide

/-- The file, the file again, and the file without its top-level function. -/
def openerFiles : Env := Env.ofModules [opener, opener, reader]

/-- The function that is not top-level is changed. -/
def openerCommit (M : ModPtr) : Commit where
  hexsha := "c1"
  files := [("a.bc", M)]
  cis := [{ bcPath := "a.bc", delLines := [4], addLines := [4] }]
  doAgg := true

theorem exists_opener : ∃ P, Managed openerFiles (KeepsNames openerFiles) [0] P := by
  have hinit : (initializeProgram openerFiles 9 registeredAnalyzers
      (TypeDive.parsed [("a.bc", 0)]) "out").isSome = true := by
    decide
  obtain ⟨P, hP⟩ := Option.isSome_iff_exists.mp hinit
  exact ⟨P, Managed.init 9 registeredAnalyzers [("a.bc", 0)] "out" (List.Perm.refl _) (by decide)
    (by decide) hP⟩

theorem assertion_holds_iff_kept : InitializeSafe openerFiles 9 registeredAnalyzers
      [("a.bc", 0)] ∧
    ∃ P, ((∀ n, CommitSafe openerFiles n P (openerCommit 1)) ↔
      (ReachesOther openerFiles ((openerCommit 1).changedNew openerFiles) →
        KeepsNames openerFiles P (openerCommit 1))) := by
  obtain ⟨P, hP⟩ := exists_opener
  obtain ⟨hinit, hrun⟩ := assertion_holds_iff openerFiles
  exact ⟨hinit 9 registeredAnalyzers [("a.bc", 0)] (List.Perm.refl _),
    P, hrun [0] P hP (openerCommit 1) (by decide) (by decide) (hP.fresh_of_seen (by decide))⟩

/-- The operation-level analyzer cannot be updated for `F`. -/
def updateFails (E : Env) (ctx : GlobalContext) (F : FuncPtr) : IAnalyzer → Bool
  | .oper A => (manageTopLVs E A ctx F).isNone
  | .sub _ => false

/-- The new version has no `sf_open`, whose row the aggregation has filled. -/
theorem assertion_holds_deleted : ¬ ∀ (E : Env) (seen : List ModPtr) (P : Program),
    Managed E (fun _ _ => True) seen P → ∀ c : Commit, c.upPaths.Nodup →
      (c.files.map Prod.snd).Nodup → (∀ f ∈ c.files, f.2 ∉ P.td.ctx.modules.map Prod.fst) →
      ∀ n, CommitSafe E n P c := by
  intro hall
  -- the analyzer that fails, after the initialisation and the update of the modules
  have hfails : ((initializeProgram openerFiles 9 registeredAnalyzers
      (TypeDive.parsed [("a.bc", 0)]) "out").bind fun P =>
        (TypeDive.updateModules openerFiles P.td (TypeDive.parsed [("a.bc", 2)])).bind fun td =>
          ((openerCommit 2).postFuncs openerFiles P td).head?.bind fun F =>
            (correctPaths openerFiles (redefInfos openerFiles P.td.ctx)
              ((openerCommit 2).between openerFiles P td) ["a.bc"]).analyzers.find?
                (updateFails openerFiles td.ctx F)).isSome = true := by
    decide
  obtain ⟨A, hfails⟩ := Option.isSome_iff_exists.mp hfails
  obtain ⟨P, hP, hfails⟩ := Option.bind_eq_some_iff.mp hfails
  obtain ⟨td, htd, hfails⟩ := Option.bind_eq_some_iff.mp hfails
  obtain ⟨F, hF, hfails⟩ := Option.bind_eq_some_iff.mp hfails
  have hA := List.mem_of_find?_eq_some hfails
  have hnone := List.find?_some hfails
  have hmanaged : Managed openerFiles (fun _ _ => True) [0] P :=
    Managed.init 9 registeredAnalyzers [("a.bc", 0)] "out" (List.Perm.refl _) (by decide)
      (by decide) hP
  have hsafe := hall openerFiles [0] P hmanaged (openerCommit 2) (by decide) (by decide)
    (hmanaged.fresh_of_seen (by decide)) 9 td htd
  obtain ⟨Fs, hFs⟩ := List.head?_eq_some_iff.mp hF
  rw [hFs] at hsafe
  cases A with
  | oper A =>
    have hsome := updateSafe_iff.mp hsafe.1 A hA
    rw [gctx_correctPaths] at hsome
    have hsome' : (manageTopLVs openerFiles A td.ctx F).isSome := hsome
    cases hrun : manageTopLVs openerFiles A td.ctx F with
    | none => simp [hrun] at hsome'
    | some r => simp [updateFails, hrun] at hnone
  | sub A => simp [updateFails] at hnone

end AnalyzerManager

end Cisa

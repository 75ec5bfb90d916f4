import Cisa.AnalyzerManager.SubsystemResults
import Cisa.AnalyzerManager.TopLevelNames

/-!
# The operations a commit is relevant to

A change of a function is relevant to a top-level function if one of them touches what the other
does. Which fields are touched below a top-level function is memoised from commit to commit, and
some rows outlive what they were computed from. As long as commits are faithful and keep the
fields touched below the names whose rows stay, the results of a commit hold the operations that
are relevant to it.
-/

namespace Cisa

open Std Relation

namespace OperationLevelAnalyzer

variable {E : Env} {A B : OperationLevelAnalyzer} {gctx : GlobalContext} {F : FuncPtr}
  {k : OLATagIdx × String} {sc : String}

/-- What `Aggregate` should return, by the tags that there are. -/
def Returned (A : OperationLevelAnalyzer) (gctx : GlobalContext) (F : FuncPtr) (sc : String) :
    Prop :=
  sc ∈ A.toplvTags .mod ∧ (Relevant ⟨A, gctx⟩ F sc ∨
    ∀ name ∈ A.toplvTags .mod, ¬ Relevant ⟨A, gctx⟩ F name)

theorem SameNames.returned_iff (h : SameNames A B) :
    Returned B gctx F sc ↔ Returned A gctx F sc := by
  unfold Returned Relevant
  simp only [h.tags, h.names]

/-- The row has tags. -/
def HasRow (A : OperationLevelAnalyzer) (k : OLATagIdx × String) : Prop := ∃ t, Memoised A k t

/-- The rows of the second analyzer are rows of the first; the others have been cleared. -/
def KeepsRows (A B : OperationLevelAnalyzer) : Prop :=
  ∀ k, B.HasRow k → ∀ t, Memoised B k t ↔ Memoised A k t

theorem keepsRows_of_eq (h : B.toplvTags = A.toplvTags) : KeepsRows A B := by
  intro k _ t
  unfold Memoised
  rw [h]

theorem KeepsRows.trans {C : OperationLevelAnalyzer} (h : KeepsRows A B) (h' : KeepsRows B C) :
    KeepsRows A C := by
  intro k hk t
  obtain ⟨t', ht'⟩ := hk
  have hrow := h' k ⟨t', ht'⟩
  rw [hrow, h k ⟨t', (hrow t').mp ht'⟩]

theorem keepsRows_update {n : ℕ} {r : OperationLevelAnalyzer × GlobalContext}
    (h : A.update E n gctx F = some r) : KeepsRows A r.1 := by
  obtain ⟨s, calls, hs, _, rfl⟩ := exists_of_update h
  have hrows := (manageTopLVs_spec hs).2.2
  intro k hk t
  obtain ⟨t', ht'⟩ := hk
  have hkept := ((hrows k t').mp ht').1
  exact (hrows k t).trans (and_iff_right hkept)

theorem memoised_getOrFindTopLVTags {idx : OLATagIdx} (hk : A.HasRow k) (t : OLATag) :
    Memoised (A.getOrFindTopLVTags gctx sc idx).2 k t ↔ Memoised A k t := by
  have hset : Memoised (A.getOrFindTopLVTags gctx sc idx).2 k t ↔
      if (idx, sc) = k then t ∈ (A.getOrFindTopLVTags gctx sc idx).1 else Memoised A k t :=
    memoised_setTopLV
  rw [hset]
  split_ifs with heq
  · subst heq
    have hfilled : ((A.toplvTags idx).row sc).isEmpty = false :=
      ExtTreeSet.isEmpty_eq_false_iff_exists.mpr hk
    simp only [getOrFindTopLVTags, hfilled]
    rfl
  · rfl

theorem memoised_aggregate (hk : A.HasRow k) (F : FuncPtr) (t : OLATag) :
    Memoised (A.aggregate gctx F).2 k t ↔ Memoised A k t := by
  have hloop : ∀ (s : OperationLevelAnalyzer × RelSet) (p : OLATagIdx × OLATagIdx),
      (∀ t, Memoised s.1 k t ↔ Memoised A k t) →
        ∀ t, Memoised (relevantTopLVs gctx F s p).1 k t ↔ Memoised A k t := by
    intro s p hs
    apply Fold.foldl_invariant (I := fun u : OperationLevelAnalyzer × RelSet =>
      ∀ t, Memoised u.1 k t ↔ Memoised A k t) hs
    intro u sc _ hu t
    obtain ⟨t', ht'⟩ := hk
    exact (memoised_getOrFindTopLVTags ⟨t', (hu t').mpr ht'⟩ t).trans (hu t)
  exact hloop _ (.ref, .mod) (hloop (A, ∅) (.mod, .ref) fun _ => Iff.rfl) t

/-- From a right memo, some rows of which stay: the new memo is right if and only if the tags
below the names of these rows are the same. -/
theorem KeepsRows.memoRight_iff {gctx' : GlobalContext} (h : KeepsRows A B)
    (hm : MemoRight ⟨A, gctx⟩) : MemoRight ⟨B, gctx'⟩ ↔ ∀ k, B.HasRow k → ∀ t,
      TopLVTag B.toAnalyzer gctx' k t ↔ TopLVTag A.toAnalyzer gctx k t := by
  have hrow : ∀ k t, Memoised B k t ↔ ¬ ¬ B.HasRow k ∧ Memoised A k t := by
    intro k t
    rw [not_not]
    constructor
    · exact fun ht => ⟨⟨t, ht⟩, (h k ⟨t, ht⟩ t).mp ht⟩
    · rintro ⟨hk, ht⟩
      exact (h k hk t).mpr ht
  refine (Memo.Right.step_iff hm hrow).trans ?_
  constructor
  · intro hall k hk
    obtain ⟨t, ht⟩ := hk
    exact hall k t ((h k ⟨t, ht⟩ t).mp ht) (not_not.mpr ⟨t, ht⟩)
  · exact fun hall k _ _ hk => hall k (not_not.mp hk)

theorem memoRight_aggregate_iff (F : FuncPtr) :
    MemoRight ⟨(A.aggregate gctx F).2, gctx⟩ ↔ MemoRight ⟨A, gctx⟩ := by
  constructor
  · intro h k t ht
    have hkept : ∀ t', Memoised (A.aggregate gctx F).2 k t' ↔ Memoised A k t' :=
      memoised_aggregate ⟨t, ht⟩ F
    have htags : TopLVTag (A.aggregate gctx F).2.toAnalyzer gctx = TopLVTag A.toAnalyzer gctx := by
      rw [(A.aggregate_rows gctx F).1.tags]
    intro t'
    have hright := h k t ((hkept t).mpr ht) t'
    rw [hkept] at hright
    exact hright.trans (by rw [htags])
  · exact fun h => (aggregate_spec h F).1.memo

theorem mem_toplvTags_foldl_clearTopLV {names : List String}
    (h : ∀ name ∈ names, name ∈ A.toplvTags .mod) :
    sc ∈ (names.foldl (fun A name => A.clearTopLV name .mod) A).toplvTags .mod ↔
      sc ∈ A.toplvTags .mod := by
  rw [Fold.foldl_or (P := fun B : OperationLevelAnalyzer => sc ∈ B.toplvTags .mod)
    (Q := fun name => name = sc) (fun B name => by
      rw [clearTopLV, mem_toplvTags_setTopLV, or_comm]; simp)]
  refine or_iff_left_of_imp ?_
  rintro ⟨_, hname, rfl⟩
  exact h _ hname

theorem mem_of_mem_clearedNames {l : List (String × SortedSet OLATag)}
    {r : List String × GlobalContext} (h : clearedNames F gctx l = some r) :
    ∀ name ∈ r.1, name ∈ l.map Prod.fst := by
  induction l generalizing gctx r with
  | nil =>
    obtain rfl := Option.some.inj h
    simp
  | cons p l ih =>
    have hcons : ∀ names : List String, (∀ name ∈ names, name ∈ l.map Prod.fst) →
        ∀ name ∈ names, name ∈ (p :: l).map Prod.fst :=
      fun names hnames name hname => List.mem_cons_of_mem _ (hnames name hname)
    unfold clearedNames at h
    split_ifs at h with hempty
    · exact hcons _ (ih h)
    · cases hF : gctx.getFunction p.1 "" with
      | none => simp [hF] at h
      | some TopLVF =>
        simp only [hF, Option.map_eq_some_iff] at h
        obtain ⟨r', hr', rfl⟩ := h
        dsimp only
        split_ifs
        · rw [List.forall_mem_cons]
          exact ⟨List.mem_cons_self, hcons _ (ih hr')⟩
        · exact hcons _ (ih hr')

theorem mem_toplvTags_update {n : ℕ} {r : OperationLevelAnalyzer × GlobalContext}
    (h : A.update E n gctx F = some r) : sc ∈ r.1.toplvTags .mod ↔
      sc ∈ A.toplvTags .mod ∨ (isTopLV E F = true ∧ (E.function F).name = sc) := by
  obtain ⟨s, calls, hs, _, rfl⟩ := exists_of_update h
  show sc ∈ s.1.toplvTags .mod ↔ _
  unfold manageTopLVs at hs
  split_ifs at hs with htop
  · obtain rfl := Option.some.inj hs
    rw [clearTopLV, mem_toplvTags_setTopLV, clearTopLV, mem_toplvTags_setTopLV]
    simp [htop, or_comm]
  · obtain ⟨r, hr, rfl⟩ := Option.map_eq_some_iff.mp hs
    have hnames : ∀ name ∈ r.1, name ∈ A.toplvTags .mod := by
      intro name hname
      obtain ⟨p, hp, rfl⟩ := List.mem_map.mp (mem_of_mem_clearedNames hr name hname)
      exact ExtTreeMap.mem_iff_isSome_getElem?.mpr
        (by simp [ExtTreeMap.mem_toList_iff_getElem?_eq_some.mp hp])
    dsimp only
    rw [mem_toplvTags_foldl_clearTopLV hnames]
    simp [htop]

/-- The code of the function has the field as one of the kind. -/
def Touches (E : Env) (G : FuncPtr) (k : OLATagIdx) (t : OLATag) : Prop :=
  ∃ I ∈ E.insts G, ∃ V, ReflTransGen (Follows E) I V ∧ (t, k) ∈ userTags E (E.fieldNames G.mod) V

end OperationLevelAnalyzer

def TouchesBelow (E : Env) (ctx : GlobalContext) (F : FuncPtr) (k : OLATagIdx) (t : OLATag) :
    Prop :=
  ∃ G, ReflTransGen (fun A B => B ∈ ctx.callees.row A) F G ∧ AnalyzerManager.InBCFuncs ctx G ∧
    OperationLevelAnalyzer.Touches E G k t

def NameTouches (E : Env) (ctx : GlobalContext) (k : OLATagIdx × String) (t : OLATag) : Prop :=
  ∃ F, ctx.getFunction k.2 "" = some F ∧ TouchesBelow E ctx F k.1 t

/-- What is modified below one of the functions is referred to below the other. -/
def SharesField (E : Env) (ctx : GlobalContext) (F : FuncPtr) (name : String) : Prop :=
  ∃ t, (TouchesBelow E ctx F .mod t ∧ NameTouches E ctx (.ref, name) t) ∨
    (TouchesBelow E ctx F .ref t ∧ NameTouches E ctx (.mod, name) t)

/-- A change of `F` is relevant to the operation: they share a field, or `F` shares none with any
of the names. -/
def RelevantTopLV (E : Env) (ctx : GlobalContext) (names : String → Prop) (F : FuncPtr)
    (name : String) : Prop :=
  names name ∧ (SharesField E ctx F name ∨ ∀ name', names name' → ¬ SharesField E ctx F name')

namespace AnalyzerManager

open OperationLevelAnalyzer

variable {E : Env} {n : ℕ} {S S' : State} {A : OperationLevelAnalyzer} {F G : FuncPtr}
  {name x : String}

/-- The analyzer is the operation-level analyzer of the state, at the position. -/
def State.IsOper (S : State) (i : ℕ) (A : OperationLevelAnalyzer) : Prop :=
  ∀ j B, S.analyzers[j]? = some (.oper B) ↔ j = i ∧ B = A

def State.Registered (S : State) (name : String) : Prop :=
  ∃ A, .oper A ∈ S.analyzers ∧ name ∈ A.toplvTags .mod

def State.MemoRight (S : State) : Prop :=
  ∀ A, .oper A ∈ S.analyzers → OperationLevelAnalyzer.MemoRight ⟨A, S.gctx⟩

def State.HasRow (S : State) (k : OLATagIdx × String) : Prop :=
  ∃ A, .oper A ∈ S.analyzers ∧ A.HasRow k

variable {i : ℕ}

theorem State.IsOper.getElem? (h : S.IsOper i A) : S.analyzers[i]? = some (.oper A) :=
  (h i A).mpr ⟨rfl, rfl⟩

theorem State.IsOper.mem_iff (h : S.IsOper i A) {B : OperationLevelAnalyzer} :
    .oper B ∈ S.analyzers ↔ B = A := by
  rw [List.mem_iff_getElem?]
  simp only [h _ _, exists_eq_left]

theorem State.IsOper.registered_iff (h : S.IsOper i A) :
    S.Registered name ↔ name ∈ A.toplvTags .mod := by
  unfold State.Registered
  simp only [h.mem_iff, exists_eq_left]

theorem State.IsOper.memoRight_iff (h : S.IsOper i A) :
    S.MemoRight ↔ OperationLevelAnalyzer.MemoRight ⟨A, S.gctx⟩ := by
  unfold State.MemoRight
  simp only [h.mem_iff, forall_eq]

theorem State.IsOper.hasRow_iff (h : S.IsOper i A) {k : OLATagIdx × String} :
    S.HasRow k ↔ A.HasRow k := by
  unfold State.HasRow
  simp only [h.mem_iff, exists_eq_left]

theorem State.IsOper.of_forall₂ (h : S.IsOper i A) {R : IAnalyzer → IAnalyzer → Prop}
    (hR : ∀ A A', R A A' → A'.name = A.name)
    (hall : List.Forall₂ R S.analyzers S'.analyzers) :
    ∃ B, S'.IsOper i B ∧ R (.oper A) (.oper B) := by
  have hat := getElem?_forall₂ hall
  have hname : ∀ A' (B : OperationLevelAnalyzer), IAnalyzer.name A' = IAnalyzer.name (.oper B) →
      ∃ C, A' = .oper C := by
    intro A' B h
    cases A' with
    | oper C => exact ⟨C, rfl⟩
    | sub C => simp [IAnalyzer.name] at h
  rcases hat i with ⟨hnone, _⟩ | ⟨A', B', hA', hB', hrel⟩
  · simp [h.getElem?] at hnone
  obtain rfl := Option.some.inj (h.getElem?.symm.trans hA')
  obtain ⟨B, rfl⟩ := hname B' A (hR _ _ hrel)
  refine ⟨B, ?_, hrel⟩
  intro j C
  constructor
  · intro hC
    rcases hat j with ⟨_, hnone⟩ | ⟨A', C', hA', hC', hrel'⟩
    · simp [hC] at hnone
    obtain rfl := Option.some.inj (hC.symm.trans hC')
    obtain ⟨D, rfl⟩ := hname A' C (hR _ _ hrel').symm
    obtain ⟨rfl, rfl⟩ := (h j D).mp hA'
    exact ⟨rfl, IAnalyzer.oper.inj (Option.some.inj (hC.symm.trans hB'))⟩
  · rintro ⟨rfl, rfl⟩
    exact hB'

theorem State.IsOper.map (h : S.IsOper i A) {f : IAnalyzer → IAnalyzer}
    (hf : ∀ A, (f A).name = A.name) (hS : S'.analyzers = S.analyzers.map f) :
    ∃ B, S'.IsOper i B ∧ f (.oper A) = .oper B := by
  have hall : List.Forall₂ (fun A A' => f A = A') S.analyzers S'.analyzers := by
    rw [hS, List.forall₂_map_right_iff, List.forall₂_same]
    exact fun _ _ => rfl
  apply h.of_forall₂ _ hall
  rintro A _ rfl
  exact hf A

theorem name_aggregate (A : IAnalyzer) (ctx : GlobalContext) (F : FuncPtr) :
    (A.aggregate ctx F).2.name = A.name := by
  cases A <;> rfl

theorem State.IsOper.aggregateFunction (h : S.IsOper i A) (F : FuncPtr) :
    (aggregateFunction S F).IsOper i (A.aggregate S.gctx F).2 := by
  have hanals : (AnalyzerManager.aggregateFunction S F).analyzers =
      S.analyzers.map fun A => (A.aggregate S.gctx F).2 := by
    rw [aggregateFunction_eq]
  obtain ⟨B, hB, heq⟩ := h.map (fun A => name_aggregate A S.gctx F) hanals
  obtain rfl := IAnalyzer.oper.inj heq
  exact hB

theorem State.IsOper.updateFunction (h : S.IsOper i A) (hstep : updateFunction E n S F = some S') :
    ∃ B, S'.IsOper i B ∧ KeepsRows A B ∧ ∀ name, name ∈ B.toplvTags .mod ↔
      name ∈ A.toplvTags .mod ∨ (isTopLV E F = true ∧ (E.function F).name = name) := by
  obtain ⟨hall, _⟩ := updateFunction_spec
    (R := fun A A' => ∃ ctx gctx, (A.remove F).update E n ctx F = some (A', gctx))
    (fun _ ctx r _ _ hr => ⟨ctx, r.2, hr⟩) hstep
  obtain ⟨B, hB, ctx, gctx, hrun⟩ := h.of_forall₂ (by
    rintro A A' ⟨ctx, gctx, hr⟩
    rw [IAnalyzer.name_update hr, IAnalyzer.name_remove]) hall
  obtain ⟨r, hr, heq⟩ := Option.map_eq_some_iff.mp hrun
  obtain ⟨hoper, _⟩ := Prod.mk.inj heq
  obtain rfl := IAnalyzer.oper.inj hoper
  have hremove : KeepsRows A (A.remove F) := keepsRows_of_eq rfl
  have hnames : ∀ name, name ∈ r.1.toplvTags .mod ↔ name ∈ (A.remove F).toplvTags .mod ∨ _ :=
    fun name => mem_toplvTags_update hr
  exact ⟨r.1, hB, hremove.trans (keepsRows_update hr), hnames⟩

theorem State.IsOper.updateFunctions {Fs : List FuncPtr} (h : S.IsOper i A)
    (hstep : Fs.foldlM (AnalyzerManager.updateFunction E n) S = some S') :
    ∃ B, S'.IsOper i B ∧ KeepsRows A B ∧ ∀ name, name ∈ B.toplvTags .mod ↔
      name ∈ A.toplvTags .mod ∨ ∃ F ∈ Fs, isTopLV E F = true ∧ (E.function F).name = name := by
  induction Fs generalizing S A with
  | nil =>
    obtain rfl := Option.some.inj hstep
    exact ⟨A, h, keepsRows_of_eq rfl, by simp⟩
  | cons F Fs ih =>
    rw [List.foldlM_cons] at hstep
    obtain ⟨T, hT, hrest⟩ := Option.bind_eq_some_iff.mp hstep
    obtain ⟨B, hB, hrows, hnames⟩ := h.updateFunction hT
    obtain ⟨C, hC, hrows', hnames'⟩ := ih hB hrest
    refine ⟨C, hC, hrows.trans hrows', ?_⟩
    intro name
    rw [hnames', hnames, List.exists_mem_cons_iff, or_assoc]

theorem State.IsOper.correctPaths (h : S.IsOper i A) (E : Env)
    (delInfos : String → List FunctionLinePair) (upPaths : List String) :
    ∃ B, (correctPaths E delInfos S upPaths).IsOper i B ∧ B.toplvTags = A.toplvTags := by
  have hmap : ∀ (T T' : State) (f : IAnalyzer → IAnalyzer), (∀ A, (f A).name = A.name) →
      (∀ A B, f (.oper A) = .oper B → B.toplvTags = A.toplvTags) →
      T'.analyzers = T.analyzers.map f →
      (∃ B, T.IsOper i B ∧ B.toplvTags = A.toplvTags) →
        ∃ B, T'.IsOper i B ∧ B.toplvTags = A.toplvTags := by
    rintro T T' f hf htags hT' ⟨B, hB, heq⟩
    obtain ⟨C, hC, hBC⟩ := hB.map hf hT'
    exact ⟨C, hC, (htags B C hBC).trans heq⟩
  have hmove : ∀ (T : State) q dels p, (∃ B, T.IsOper i B ∧ B.toplvTags = A.toplvTags) →
      ∃ B, (correctChange q dels T p).IsOper i B ∧ B.toplvTags = A.toplvTags := by
    intro T q dels p hT
    unfold correctChange
    split
    · rename_i delFL _
      exact hmap T _ (IAnalyzer.move delFL.1 p.1) (fun A => A.name_move _ _)
        (fun A B hB => IAnalyzer.oper.inj hB ▸ rfl) rfl hT
    · exact hT
  have hremove : ∀ (T : State) p, (∃ B, T.IsOper i B ∧ B.toplvTags = A.toplvTags) →
      ∃ B, (removeFunction T p).IsOper i B ∧ B.toplvTags = A.toplvTags := fun T p hT =>
    hmap T _ (IAnalyzer.remove p.1) (fun A => A.name_remove _)
      (fun A B hB => IAnalyzer.oper.inj hB ▸ rfl) rfl hT
  apply Fold.foldl_invariant
    (I := fun T : State => ∃ B, T.IsOper i B ∧ B.toplvTags = A.toplvTags) ⟨A, h, rfl⟩
  intro T q _ hT
  apply Fold.foldl_invariant
    (I := fun T : State => ∃ B, T.IsOper i B ∧ B.toplvTags = A.toplvTags)
  · exact Fold.foldl_invariant
      (I := fun T : State => ∃ B, T.IsOper i B ∧ B.toplvTags = A.toplvTags) hT
      fun U p _ hU => hmove U q _ p hU
  · exact fun U p _ hU => hremove U p hU

/-- Aggregating keeps the names and the tags, and neither rights nor spoils the memo. -/
theorem State.IsOper.aggregateFunctions (h : S.IsOper i A) (doAgg : Bool) (Fs : List FuncPtr) :
    ∃ B, (aggregateFunctions doAgg S Fs).IsOper i B ∧ A.SameNames B ∧
      (OperationLevelAnalyzer.MemoRight ⟨B, S.gctx⟩ ↔
        OperationLevelAnalyzer.MemoRight ⟨A, S.gctx⟩) := by
  unfold AnalyzerManager.aggregateFunctions
  split_ifs
  · induction Fs generalizing S A with
    | nil => exact ⟨A, h, .refl, Iff.rfl⟩
    | cons F Fs ih =>
      have hgctx : (AnalyzerManager.aggregateFunction S F).gctx = S.gctx := by
        rw [aggregateFunction_eq]
      obtain ⟨B, hB, hnames, hmemo⟩ := ih (h.aggregateFunction F)
      rw [hgctx] at hmemo
      obtain ⟨hnames', _⟩ := A.aggregate_rows S.gctx F
      refine ⟨B, hB, ⟨hnames.tags.trans hnames'.tags, fun sc => ?_⟩,
        hmemo.trans (memoRight_aggregate_iff F)⟩
      rw [hnames.names, hnames'.names]
  · exact ⟨A, h, .refl, Iff.rfl⟩

theorem returns_oper_iff {Fs : List FuncPtr} (h : S.IsOper i A)
    (hm : OperationLevelAnalyzer.MemoRight ⟨A, S.gctx⟩) :
    Returns (returned S Fs) F ("oper", "toplvs") x ↔ F ∈ Fs ∧ A.Returned S.gctx F x := by
  induction Fs generalizing S A with
  | nil => simp [Returns, returned]
  | cons G Fs ih =>
    have hgctx : (aggregateFunction S G).gctx = S.gctx := by rw [aggregateFunction_eq]
    obtain ⟨hfilled, hmem⟩ := aggregate_spec hm G
    have hfirst : (∃ B ∈ S.analyzers, G = F ∧ B.name = "oper" ∧
        x ∈ (B.aggregate S.gctx G).1.row "toplvs") ↔ F = G ∧ A.Returned S.gctx F x := by
      constructor
      · rintro ⟨B, hB, rfl, hname, hx⟩
        cases B with
        | oper B =>
          obtain rfl := h.mem_iff.mp hB
          exact ⟨rfl, (hmem x).mp hx⟩
        | sub B => simp [IAnalyzer.name] at hname
      · rintro ⟨rfl, hx⟩
        exact ⟨.oper A, h.mem_iff.mpr rfl, rfl, rfl, (hmem x).mpr hx⟩
    have hrest := ih (h.aggregateFunction G) (by rw [hgctx]; exact hfilled.memo)
    rw [returns_cons, hfirst, hrest, hgctx, (A.aggregate_rows S.gctx G).1.returned_iff,
      List.mem_cons, or_and_right]

section Own

variable (h : S.IsOper i A) (hown : ∀ G, InBCFuncs S.gctx G → S.HasOwnTags E G)
  (hlive : ∀ i G idx t, t ∈ S.tags i G idx → InBCFuncs S.gctx G)

include h hown hlive

theorem mem_getTags_iff_touches {k : OLATagIdx} {t : OLATag} :
    t ∈ A.getTags G k.idx ↔ InBCFuncs S.gctx G ∧ Touches E G k t := by
  have htags : t ∈ A.getTags G k.idx ↔ t ∈ S.tags i G k.idx := by
    rw [State.mem_tags_iff, h.getElem?]
    simp [IAnalyzer.tags]
  have hinj : ∀ j : OLATagIdx, j.idx = k.idx ↔ j = k := by
    intro j
    cases j <;> cases k <;> simp [OLATagIdx.idx]
  have hown' : S.OwnTag E i G k.idx t ↔ Touches E G k t := by
    unfold State.OwnTag
    rw [h.getElem?]
    simp only [Option.some.injEq, exists_eq_left', IAnalyzer.OwnTag, hinj, exists_eq_left]
    rfl
  rw [htags]
  constructor
  · intro ht
    have hG := hlive i G k.idx t ht
    exact ⟨hG, hown'.mp ((hown G hG i k.idx t).mp ht)⟩
  · rintro ⟨hG, ht⟩
    exact (hown G hG i k.idx t).mpr (hown'.mpr ht)

theorem tagBelow_iff {k : OLATagIdx} {t : OLATag} :
    TagBelow A.toAnalyzer S.gctx F k t ↔ TouchesBelow E S.gctx F k t := by
  unfold TagBelow TouchesBelow
  simp only [mem_getTags_iff_touches h hown hlive]

theorem topLVTag_iff {k : OLATagIdx × String} {t : OLATag} :
    TopLVTag A.toAnalyzer S.gctx k t ↔ NameTouches E S.gctx k t := by
  unfold TopLVTag NameTouches
  simp only [tagBelow_iff h hown hlive]

theorem returned_iff : A.Returned S.gctx F x ↔ RelevantTopLV E S.gctx S.Registered F x := by
  have hshares : ∀ sc, Relevant ⟨A, S.gctx⟩ F sc ↔ SharesField E S.gctx F sc := by
    intro sc
    unfold Relevant SharesField
    simp only [tagBelow_iff h hown hlive, topLVTag_iff h hown hlive]
  unfold OperationLevelAnalyzer.Returned RelevantTopLV
  simp only [hshares, h.registered_iff]

end Own

/-! ## Commits -/

section Commit

variable {P P' : Program} {c : Commit} {seen : List ModPtr}

theorem exists_isOper (hperm : (S.analyzers.map IAnalyzer.name).Perm ["oper", "sub"]) :
    ∃ i A, S.IsOper i A := by
  unfold State.IsOper
  match S.analyzers, hperm with
  | [.oper A, .sub B], _ =>
    refine ⟨0, A, ?_⟩
    intro j C
    match j with
    | 0 => simp [eq_comm]
    | 1 => simp
    | j + 2 => simp
  | [.sub B, .oper A], _ =>
    refine ⟨1, A, ?_⟩
    intro j C
    match j with
    | 0 => simp
    | 1 => simp [eq_comm]
    | j + 2 => simp
  | [.oper _, .oper _], hperm =>
    exact absurd hperm (by decide : ¬ ["oper", "oper"].Perm ["oper", "sub"])
  | [.sub _, .sub _], hperm =>
    exact absurd hperm (by decide : ¬ ["sub", "sub"].Perm ["oper", "sub"])
  | [], hperm => simpa using hperm.length_eq
  | [_], hperm => simpa using hperm.length_eq
  | _ :: _ :: _ :: _, hperm => simpa using hperm.length_eq

theorem Managed.exists_isOper {C : Program → Commit → Prop} (h : Managed E C seen P) :
    ∃ i A, P.state.IsOper i A :=
  AnalyzerManager.exists_isOper h.names_perm

/-- Where rows stay, the same fields are touched below the name as before the commit. -/
def Committed.KeepsTouched (h : Committed E n P c P') : Prop :=
  ∀ k, h.post.HasRow k → ∀ t, NameTouches E P'.td.ctx k t ↔ NameTouches E P.td.ctx k t

/-- The analyzer through a commit: it is aggregated, carried over and updated. -/
theorem Committed.isOper_post (h : Committed E n P c P') (hA : P.state.IsOper i A) :
    ∃ A₁ B, (c.before E P).IsOper i A₁ ∧ A.SameNames A₁ ∧
      (OperationLevelAnalyzer.MemoRight ⟨A₁, P.td.ctx⟩ ↔
        OperationLevelAnalyzer.MemoRight ⟨A, P.td.ctx⟩) ∧ h.post.IsOper i B ∧ KeepsRows A₁ B ∧
      ∀ name, name ∈ B.toplvTags .mod ↔ name ∈ A.toplvTags .mod ∨
        ∃ F ∈ c.postFuncs E P h.td, isTopLV E F = true ∧ (E.function F).name = name := by
  have hstart : State.IsOper { P.state with cur := Context.start c.hexsha c.cis } i A := hA
  obtain ⟨A₁, hA₁, hnames₁, hmemo₁⟩ := hstart.aggregateFunctions c.doAgg (changedFuncs E
    { P.state with cur := Context.start c.hexsha c.cis } c.upPaths ChangeInfo.delLines)
  have hbetween : (c.between E P h.td).IsOper i A₁ := hA₁
  obtain ⟨A₂, hA₂, heq⟩ := hbetween.correctPaths E (redefInfos E P.td.ctx) c.upPaths
  obtain ⟨B, hB, hrows, hnames⟩ := hA₂.updateFunctions h.post_eq
  refine ⟨A₁, B, hA₁, hnames₁, hmemo₁, hB, (keepsRows_of_eq heq).trans hrows, ?_⟩
  intro name
  rw [hnames, heq, hnames₁.names]

theorem Committed.isOper_next {B : OperationLevelAnalyzer} (h : Committed E n P c P')
    (hB : h.post.IsOper i B) : ∃ B', P'.state.IsOper i B' ∧ B.SameNames B' ∧
      (OperationLevelAnalyzer.MemoRight ⟨B', h.post.gctx⟩ ↔
        OperationLevelAnalyzer.MemoRight ⟨B, h.post.gctx⟩) := by
  rw [h.state_eq]
  exact hB.aggregateFunctions c.doAgg (c.postFuncs E P h.td)

/-- The condition on the commits of a run: the rows that stay are right. -/
def KeepsTouched (E : Env) (P : Program) (c : Commit) : Prop :=
  ∀ (n : ℕ) (P' : Program) (h : Committed E n P c P'), h.KeepsTouched

theorem Committed.memoRight_iff (hP : Managed E (Faithful E) seen P)
    (hP' : Managed E (Faithful E) (c.files.map Prod.snd ++ seen) P') (h : Committed E n P c P')
    (hm : P.state.MemoRight) :
    (h.post.MemoRight ↔ h.KeepsTouched) ∧ (P'.state.MemoRight ↔ h.KeepsTouched) := by
  obtain ⟨i, A, hA⟩ := hP.exists_isOper
  obtain ⟨A₁, B, _, hnames, hmemo, hB, hrows, _⟩ := h.isOper_post hA
  obtain ⟨B', hB', _, hmemo'⟩ := h.isOper_next hB
  obtain ⟨hgctx, hown, hlive⟩ := h.ownTags_post hP'
  have hkeys := keys_live (hP.imp fun _ _ _ => trivial)
  have hright : OperationLevelAnalyzer.MemoRight ⟨B, h.post.gctx⟩ ↔ h.KeepsTouched := by
    rw [hrows.memoRight_iff (hmemo.mpr (hA.memoRight_iff.mp hm))]
    unfold Committed.KeepsTouched
    simp only [hB.hasRow_iff, topLVTag_iff hB hown hlive, hnames.tags, hgctx,
      show ∀ k t, TopLVTag A.toAnalyzer P.td.ctx k t ↔ NameTouches E P.td.ctx k t from
        fun k t => topLVTag_iff hA hP.tagsOwn fun i G idx t ht => hkeys.of_mem_tags ht]
  refine ⟨hB.memoRight_iff.trans hright, hB'.memoRight_iff.trans ?_⟩
  rw [show P'.state.gctx = h.post.gctx from hgctx, hmemo']
  exact hright

theorem returnedBefore_oper_iff (hP : Managed E (Faithful E) seen P) (hm : P.state.MemoRight) :
    Returns (c.returnedBefore E P) F ("oper", "toplvs") x ↔
      F ∈ c.preFuncs E P ∧ RelevantTopLV E P.td.ctx P.state.Registered F x := by
  obtain ⟨i, A, hA⟩ := hP.exists_isOper
  have hkeys := keys_live (hP.imp fun _ _ _ => trivial)
  have hstart : State.IsOper { P.state with cur := Context.start c.hexsha c.cis } i A := hA
  refine (returns_oper_iff hstart (hA.memoRight_iff.mp hm)).trans (and_congr_right fun _ => ?_)
  exact returned_iff hA hP.tagsOwn fun i G idx t ht => hkeys.of_mem_tags ht

theorem Committed.returnedAfter_oper_iff (hP : Managed E (Faithful E) seen P)
    (hP' : Managed E (Faithful E) (c.files.map Prod.snd ++ seen) P') (h : Committed E n P c P')
    (hm : P.state.MemoRight) (hkeeps : h.KeepsTouched) :
    Returns h.returnedAfter F ("oper", "toplvs") x ↔
      F ∈ c.postFuncs E P h.td ∧ RelevantTopLV E P'.td.ctx P'.state.Registered F x := by
  obtain ⟨i, A, hA⟩ := hP.exists_isOper
  obtain ⟨_, B, _, _, _, hB, _, _⟩ := h.isOper_post hA
  obtain ⟨B', hB', hnames, _⟩ := h.isOper_next hB
  obtain ⟨hgctx, hown, hlive⟩ := h.ownTags_post hP'
  have hpost := hB.memoRight_iff.mp ((h.memoRight_iff hP hP' hm).1.mpr hkeeps)
  refine (returns_oper_iff hB hpost).trans (and_congr_right fun _ => ?_)
  have hreg : P'.state.Registered = h.post.Registered := by
    funext name
    rw [hB'.registered_iff, hB.registered_iff, hnames.names]
  rw [returned_iff hB hown hlive, hgctx, hreg]

theorem not_hasRow_initialized {analyzers : List IAnalyzer} {files : List BCFile}
    {outPath : String} (hanals : analyzers.Perm registeredAnalyzers)
    (hstep : initializeProgram E n analyzers files outPath = some P) {k : OLATagIdx × String} :
    ¬ P.state.HasRow k := by
  obtain ⟨S, hS, hP⟩ := Option.bind_eq_some_iff.mp hstep
  obtain rfl := Option.some.inj hP
  obtain ⟨i, A, hA⟩ := exists_isOper (S := State.mk _ analyzers {}) (hanals.map IAnalyzer.name)
  obtain ⟨B, hB, hrows, _⟩ := hA.updateFunctions hS
  have hnone : ¬ A.HasRow k := by
    have hreg := hanals.mem_iff.mp (hA.mem_iff.mpr rfl)
    simp only [registeredAnalyzers, List.mem_cons, IAnalyzer.oper.injEq, reduceCtorEq,
      List.not_mem_nil, or_false] at hreg
    subst hreg
    simp [HasRow, Memoised]
  have hB' : S.HasRow k ↔ B.HasRow k := hB.hasRow_iff
  intro hrow
  obtain ⟨t, ht⟩ := hB'.mp hrow
  exact hnone ⟨t, (hrows k ⟨t, ht⟩ t).mp ht⟩

/-- The rows that are there when the functions have been updated were there before. -/
theorem Committed.hasRow_before {C : Program → Commit → Prop} (hP : Managed E C seen P)
    (h : Committed E n P c P') {k : OLATagIdx × String} (hk : h.post.HasRow k) :
    (c.before E P).HasRow k := by
  obtain ⟨i, A, hA⟩ := hP.exists_isOper
  obtain ⟨A₁, B, hA₁, _, _, hB, hrows, _⟩ := h.isOper_post hA
  obtain ⟨t, ht⟩ := hB.hasRow_iff.mp hk
  exact hA₁.hasRow_iff.mpr ⟨t, (hrows k ⟨t, ht⟩ t).mp ht⟩

theorem Managed.memoRight (h : Managed E (fun P c => Faithful E P c ∧ KeepsTouched E P c) seen P) :
    P.state.MemoRight := by
  induction h with
  | init n analyzers files outPath hanals hp hm hstep =>
    intro A hA
    apply Memo.right_empty
    intro k t ht
    exact not_hasRow_initialized hanals hstep ⟨A, hA, t, ht⟩
  | commit n c hP hp hm hfresh hC hstep ih =>
    obtain ⟨hc⟩ := c.committed hstep
    have hfaith := hP.imp fun _ _ h => h.1
    exact (hc.memoRight_iff hfaith (hfaith.commit n c hp hm hfresh hC.1 hstep) ih).2.mpr
      (hC.2 n _ hc)

/-- In a run of faithful commits that keep what is touched below the names of the rows that
stay, the operation-level analyzer knows the top-level functions that have been updated. The next
faithful commit leaves a right memo if and only if it keeps what is touched as well, and then its
results are the operations that the changed functions are relevant to. -/
theorem toplv_results_iff
    (h : Managed E (fun P c => Faithful E P c ∧ KeepsTouched E P c) seen P) (hp : c.upPaths.Nodup)
    (hm : (c.files.map Prod.snd).Nodup)
    (hfresh : ∀ f ∈ c.files, f.2 ∉ P.td.ctx.modules.map Prod.fst)
    (hfaith : Faithful E P c) (hstep : c.run E n P = some P') :
    ∃ hc : Committed E n P c P',
      (∀ name, P'.state.Registered name ↔ P.state.Registered name ∨
        ∃ F ∈ c.postFuncs E P hc.td, isTopLV E F = true ∧ (E.function F).name = name) ∧
      (P'.state.MemoRight ↔ hc.KeepsTouched) ∧
      (c.doAgg = true → hc.KeepsTouched → ∀ F x,
        HasResult P'.cur.res F ("oper", "toplvs") x ↔
          (∃ delF ∈ c.preFuncs E P, CarriedFrom E P c hc.td F delF ∧
            RelevantTopLV E P.td.ctx P.state.Registered delF x) ∨
          (F ∈ c.postFuncs E P hc.td ∧
            RelevantTopLV E P'.td.ctx P'.state.Registered F x)) := by
  obtain ⟨hc⟩ := c.committed hstep
  have hP : Managed E (Faithful E) seen P := h.imp fun _ _ h => h.1
  have hP' := hP.commit n c hp hm hfresh hfaith hstep
  have hmemo := h.memoRight
  refine ⟨hc, ?_, (hc.memoRight_iff hP hP' hmemo).2, ?_⟩
  · obtain ⟨i, A, hA⟩ := hP.exists_isOper
    obtain ⟨_, B, _, _, _, hB, _, hnames⟩ := hc.isOper_post hA
    obtain ⟨B', hB', hsame, _⟩ := hc.isOper_next hB
    intro name
    rw [hB'.registered_iff, hA.registered_iff, hsame.names, hnames]
  · intro hagg hkeeps F x
    rw [hc.hasResult_iff hagg,
      hc.hasResult_correctPaths_iff hP.loaded.1 ⟨hp, hm, hfresh⟩ hagg,
      hc.returnedAfter_oper_iff hP hP' hmemo hkeeps]
    simp only [returnedBefore_oper_iff hP hmemo]
    apply or_congr _ Iff.rfl
    apply exists_congr
    intro delF
    exact and_left_comm

end Commit

/-! ## Two operations -/

/-- A function that stores to a field, one that does nothing, and one that loads the field. -/
def sharedField : Module where
  values := [{ kind := .function { name := "sf_open", insts := [5, 6], subprogramLine := some 1 } },
    { kind := .function { name := "sf_close", insts := [7], subprogramLine := some 3 } },
    { kind := .function { name := "wav_read", insts := [8, 9], subprogramLine := some 5 } },
    { kind := .argument, ty := 2 }, { kind := .constantInt 0 },
    { kind := .instruction (.gep 0), operands := [3, 4, 4], users := [6] },
    { kind := .instruction .store, operands := [4, 5], debugLine := some 2 },
    { kind := .instruction .other, debugLine := some 4 },
    { kind := .instruction (.gep 0), operands := [3, 4, 4], users := [9] },
    { kind := .instruction .load, operands := [8], debugLine := some 6 }]
  types := [⟨.struct (some "struct.s") false [1], ""⟩, ⟨.other 13, ""⟩, ⟨.pointer 0, ""⟩]
  functions := [0, 1, 2]
  names_nodup := by decide
  functions_listed := by decide

def sharedFieldFiles : Env := Env.ofModules [sharedField, sharedField]

/-- Lines are added to all functions. -/
def sharedFieldCommit : Commit where
  hexsha := "c1"
  files := [("a.bc", 1)]
  cis := [{ bcPath := "a.bc", delLines := [], addLines := [2, 4, 6] }]
  doAgg := true

theorem toplv_results_iff_shared : ∃ P P',
    sharedFieldCommit.run sharedFieldFiles 9 P = some P' ∧
    P'.written["out/c1/wav_read/oper"]? =
      some (printJson ((∅ : AnalyzerReturn).insert "toplvs" (ExtTreeSet.ofElems ["sf_open"]))) ∧
    ∃ hc : Committed sharedFieldFiles 9 P sharedFieldCommit P', ∀ F x,
      HasResult P'.cur.res F ("oper", "toplvs") x ↔
        (∃ delF ∈ sharedFieldCommit.preFuncs sharedFieldFiles P,
          CarriedFrom sharedFieldFiles P sharedFieldCommit hc.td F delF ∧
            RelevantTopLV sharedFieldFiles P.td.ctx P.state.Registered delF x) ∨
        (F ∈ sharedFieldCommit.postFuncs sharedFieldFiles P hc.td ∧
          RelevantTopLV sharedFieldFiles P'.td.ctx P'.state.Registered F x) := by
  have hrun : ((initializeProgram sharedFieldFiles 9 registeredAnalyzers
      (TypeDive.parsed [("a.bc", 0)]) "out").bind fun P =>
        if sharedFieldCommit.preFuncs sharedFieldFiles P = [] then
          (sharedFieldCommit.run sharedFieldFiles 9 P).bind fun P' =>
            P'.written["out/c1/wav_read/oper"]?
        else none) = some (printJson ((∅ : AnalyzerReturn).insert "toplvs"
          (ExtTreeSet.ofElems ["sf_open"]))) := by
    decide +kernel
  obtain ⟨P, hP, hrest⟩ := Option.bind_eq_some_iff.mp hrun
  split_ifs at hrest with hpre
  obtain ⟨P', hstep, hfile⟩ := Option.bind_eq_some_iff.mp hrest
  have hmanaged : ∀ C, Managed sharedFieldFiles C [0] P := fun C =>
    .init 9 registeredAnalyzers [("a.bc", 0)] "out" (List.Perm.refl _) (by decide) (by decide) hP
  have hnew := (hmanaged fun _ _ => True).fresh_of_seen
    (show ∀ f ∈ sharedFieldCommit.files, f.2 ∉ [0] by decide)
  have hfaith : Faithful sharedFieldFiles P sharedFieldCommit :=
    (hmanaged _).faithful_of_changed (by decide) (by decide) hnew (by decide)
  obtain ⟨hc, _, _, hresults⟩ := toplv_results_iff (hmanaged _) (by decide) (by decide) hnew
    hfaith hstep
  refine ⟨P, P', hstep, hfile, hc, hresults rfl ?_⟩
  -- nothing has been looked up when the new functions have been updated
  intro k hk
  have hbefore := hc.hasRow_before (hmanaged fun _ _ => True) hk
  have hanals : (sharedFieldCommit.before sharedFieldFiles P).analyzers = P.analyzers := by
    show ((sharedFieldCommit.preFuncs sharedFieldFiles P).foldl aggregateFunction _).analyzers = _
    rw [hpre]
    rfl
  unfold State.HasRow at hbefore
  rw [hanals] at hbefore
  exact absurd hbefore (not_hasRow_initialized (List.Perm.refl _) hP)

end AnalyzerManager

end Cisa

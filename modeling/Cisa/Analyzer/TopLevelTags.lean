import Cisa.Analyzer.Oper
import Cisa.Lib.Fold
import Cisa.Lib.Memo

/-!
# The memo of top-level tags

The tags below a top-level function change with the tags of every function it reaches and
with the graph. The memo is right after a step exactly when the step clears, or leaves
alone, the rows whose tags it changes.
-/

namespace Cisa

open Std Relation

namespace OperationLevelAnalyzer

/-- The analyzer with the context it works in. -/
structure RunState where
  oper : OperationLevelAnalyzer := {}
  gctx : GlobalContext := {}

/-- What is done to the analyzer and to the call graph. -/
inductive Op
  | remove (F : FuncPtr)
  | update (budget : ℕ) (F : FuncPtr)
  | move (PreF PostF : FuncPtr)
  | aggregate (F : FuncPtr)
  | replaceGraph (gctx : GlobalContext)

/-- One step; an update may fail an assertion or run out of its budget. -/
def perform (E : Env) (s : RunState) : Op → Option RunState
  | .remove F => some { s with oper := s.oper.remove F }
  | .update n F => (s.oper.update E n s.gctx F).map fun r => ⟨r.1, r.2⟩
  | .move P Q => some { s with oper := s.oper.move P Q }
  | .aggregate F => some { s with oper := (s.oper.aggregate s.gctx F).2 }
  | .replaceGraph gctx => some { s with gctx := gctx }

/-- `t` is a tag of a function reachable from `F`. -/
def TagBelow (A : Analyzer OLATag 2) (gctx : GlobalContext) (F : FuncPtr) (k : OLATagIdx)
    (t : OLATag) : Prop :=
  ∃ G, ReflTransGen (fun B C => C ∈ gctx.callees.row B) F G ∧ t ∈ A.getTags G k.idx

/-- `t` is a tag of a function reachable from the function of this name. -/
def TopLVTag (A : Analyzer OLATag 2) (gctx : GlobalContext) (k : OLATagIdx × String)
    (t : OLATag) : Prop :=
  ∃ F, gctx.getFunction k.2 "" = some F ∧ TagBelow A gctx F k.1 t

def Memoised (A : OperationLevelAnalyzer) (k : OLATagIdx × String) (t : OLATag) : Prop :=
  t ∈ (A.toplvTags k.1).row k.2

def MemoRight (s : RunState) : Prop :=
  Memo.Right (Memoised s.oper) (TopLVTag s.oper.toAnalyzer s.gctx)

/-- The functions below `F` modify what those below the name refer to, or the converse. -/
def Relevant (s : RunState) (F : FuncPtr) (scName : String) : Prop :=
  ∃ t, (TagBelow s.oper.toAnalyzer s.gctx F .mod t ∧
      TopLVTag s.oper.toAnalyzer s.gctx (.ref, scName) t) ∨
    (TagBelow s.oper.toAnalyzer s.gctx F .ref t ∧
      TopLVTag s.oper.toAnalyzer s.gctx (.mod, scName) t)

/-- The result of `Aggregate`: the relevant registered names, or all of them if there is
none. -/
def AggregateExact (s : RunState) : Prop :=
  ∀ F scName, scName ∈ (s.oper.aggregate s.gctx F).1.row "toplvs" ↔
    scName ∈ s.oper.toplvTags .mod ∧
      (Relevant s F scName ∨ ∀ name ∈ s.oper.toplvTags .mod, ¬ Relevant s F name)

/-- The rows an update of `F` clears. -/
def Clears (E : Env) (s : RunState) (F : FuncPtr) (k : OLATagIdx × String) : Prop :=
  if isTopLV E F then k.2 = (E.function F).name
  else k.1 = .mod ∧
    ∃ r ∈ clearedNames F s.gctx (s.oper.toplvTags .mod).toList, k.2 ∈ r.1

/-- The step changes the tags below no name whose row is there and is not cleared. -/
def KeepsMemo (E : Env) (s : RunState) : Op → Prop
  | .remove F => ∀ k t, Memoised s.oper k t → ∀ t',
      TopLVTag (s.oper.toAnalyzer.remove F) s.gctx k t' ↔ TopLVTag s.oper.toAnalyzer s.gctx k t'
  | .move P Q => ∀ k t, Memoised s.oper k t → ∀ t',
      TopLVTag (s.oper.toAnalyzer.move P Q) s.gctx k t' ↔ TopLVTag s.oper.toAnalyzer s.gctx k t'
  | .update n F => ∀ k t, Memoised s.oper k t → ¬ Clears E s F k →
      ∀ calls ∈ calledTags E n F, ∀ t', (t', k.1) ∈ calls →
        (∃ sc, s.gctx.getFunction k.2 "" = some sc ∧
          ReflTransGen (fun B C => C ∈ s.gctx.callees.row B) sc F) →
        TopLVTag s.oper.toAnalyzer s.gctx k t'
  | .aggregate _ => True
  | .replaceGraph gctx => ∀ k t, Memoised s.oper k t → ∀ t',
      TopLVTag s.oper.toAnalyzer gctx k t' ↔ TopLVTag s.oper.toAnalyzer s.gctx k t'

/-- The states reached from an analyzer without tags by steps that meet `C`. -/
inductive Run (E : Env) (C : RunState → Op → Prop) : RunState → Prop
  | start (gctx : GlobalContext) : Run E C { gctx := gctx }
  | step {s s' : RunState} {op : Op} : Run E C s → C s op → perform E s op = some s' → Run E C s'

section Aggregate

variable {A B : OperationLevelAnalyzer} {gctx : GlobalContext} {F : FuncPtr} {k : OLATagIdx}
  {t : OLATag}

theorem mem_descendantTags : t ∈ A.descendantTags gctx F k ↔ TagBelow A.toAnalyzer gctx F k t := by
  have hJ : ∀ (V : FuncSet) (tags : SortedSet OLATag) G,
      (∀ t, t ∈ tags ↔ ∃ G, G ∈ V ∧ t ∈ A.getTags G k.idx) →
      ∀ t, t ∈ tags ∪ A.getTags G k.idx ↔ ∃ G', G' ∈ V.insert G ∧ t ∈ A.getTags G' k.idx := by
    intro V tags G hV t
    rw [ExtTreeSet.mem_union_iff, hV]
    simp only [ExtTreeSet.mem_insert, Std.compare_eq_iff_eq]
    constructor
    · rintro (⟨G', hG', ht⟩ | ht)
      · exact ⟨G', Or.inr hG', ht⟩
      · exact ⟨G, Or.inl rfl, ht⟩
    · rintro ⟨G', rfl | hG', ht⟩
      · exact Or.inr ht
      · exact Or.inl ⟨G', hG', ht⟩
  obtain ⟨V, hV, hmem⟩ := gctx.visit_next_spec hJ F .down (t := ∅) (by simp)
  rw [descendantTags, hV]
  simp only [hmem]
  rfl

theorem memoised_setTopLV {scName : String} {tags : SortedSet OLATag} {k' : OLATagIdx × String} :
    Memoised (A.setTopLV scName k tags) k' t ↔
      if (k, scName) = k' then t ∈ tags else Memoised A k' t := by
  obtain ⟨k', sc'⟩ := k'
  unfold Memoised setTopLV
  by_cases hk : k = k'
  · subst hk
    by_cases hsc : scName = sc'
    · simp [hsc]
    · simp [hsc]
  · simp [hk, Function.update_of_ne (Ne.symm hk)]

theorem mem_toplvTags_setTopLV {scName sc : String} {tags : SortedSet OLATag} {k' : OLATagIdx} :
    sc ∈ (A.setTopLV scName k tags).toplvTags k' ↔
      (k = k' ∧ scName = sc) ∨ sc ∈ A.toplvTags k' := by
  unfold setTopLV
  by_cases hk : k = k'
  · subst hk
    simp
  · simp [hk, Function.update_of_ne (Ne.symm hk)]

theorem mem_getOrFindTopLVTags (hm : MemoRight ⟨A, gctx⟩) (scName : String) :
    t ∈ (A.getOrFindTopLVTags gctx scName k).1 ↔ TopLVTag A.toAnalyzer gctx (k, scName) t := by
  apply Memo.Right.lookup hm (k := (k, scName))
    (p := fun t => t ∈ (A.getOrFindTopLVTags gctx scName k).1)
  unfold getOrFindTopLVTags Memoised
  cases hempty : ((A.toplvTags k).row scName).isEmpty with
  | false =>
    left
    constructor
    · exact ExtTreeSet.isEmpty_eq_false_iff_exists.mp hempty
    · simp [hempty]
  | true =>
    right
    intro t
    unfold TopLVTag
    cases hF : gctx.getFunction scName "" with
    | none => simp [hempty]
    | some F => simp [hempty, mem_descendantTags]

/-- What looking tags up may do to the analyzer: fill rows of registered names. -/
structure Filled (gctx : GlobalContext) (A B : OperationLevelAnalyzer) : Prop where
  tags : B.toAnalyzer = A.toAnalyzer
  names : ∀ sc, sc ∈ B.toplvTags .mod ↔ sc ∈ A.toplvTags .mod
  memo : MemoRight ⟨B, gctx⟩

theorem Filled.getOrFindTopLVTags (h : Filled gctx A B) {scName : String}
    (hsc : scName ∈ A.toplvTags .mod) :
    Filled gctx A (B.getOrFindTopLVTags gctx scName k).2 := by
  constructor
  · exact h.tags
  · intro sc
    have hset : (B.getOrFindTopLVTags gctx scName k).2 =
        B.setTopLV scName k (B.getOrFindTopLVTags gctx scName k).1 := rfl
    rw [hset, mem_toplvTags_setTopLV, h.names]
    constructor
    · intro hmem
      rcases hmem with ⟨_, rfl⟩ | hmem
      · exact hsc
      · exact hmem
    · intro hmem
      exact Or.inr hmem
  · apply Memo.Right.fill h.memo
    intro k'
    have hset : ∀ t, Memoised (B.getOrFindTopLVTags gctx scName k).2 k' t ↔
        if (k, scName) = k' then t ∈ (B.getOrFindTopLVTags gctx scName k).1
        else Memoised B k' t := fun t => memoised_setTopLV
    by_cases hk : (k, scName) = k'
    · right
      intro t
      subst hk
      rw [hset, if_pos rfl]
      exact mem_getOrFindTopLVTags h.memo scName
    · left
      intro t
      rw [hset, if_neg hk]

theorem mem_addIfRelevant {s : OperationLevelAnalyzer × RelSet} {accum : SortedSet OLATag}
    (hm : MemoRight ⟨s.1, gctx⟩) {name sc : String} :
    sc ∈ (addIfRelevant gctx k accum s name).2 ↔
      sc ∈ s.2 ∨ (name = sc ∧ ∃ t ∈ accum, TopLVTag s.1.toAnalyzer gctx (k, sc) t) := by
  have hmeets : ((s.1.getOrFindTopLVTags gctx name k).1.toList.filter
      (· ∈ accum)).isEmpty = false ↔ ∃ t ∈ accum, TopLVTag s.1.toAnalyzer gctx (k, name) t := by
    simp only [List.isEmpty_eq_false_iff_exists_mem, List.mem_filter, ExtTreeSet.mem_toList,
      mem_getOrFindTopLVTags hm, decide_eq_true_iff, and_comm]
  unfold addIfRelevant
  dsimp only
  cases hempty : ((s.1.getOrFindTopLVTags gctx name k).1.toList.filter (· ∈ accum)).isEmpty with
  | false =>
    have hex := hmeets.mp hempty
    simp only [Bool.false_eq_true, if_false, ExtTreeSet.mem_insert, Std.compare_eq_iff_eq]
    constructor
    · intro h
      rcases h with rfl | h
      · exact Or.inr ⟨rfl, hex⟩
      · exact Or.inl h
    · intro h
      rcases h with h | ⟨h, _⟩
      · exact Or.inr h
      · exact Or.inl h
  | true =>
    have hno : ¬ ∃ t ∈ accum, TopLVTag s.1.toAnalyzer gctx (k, name) t := by
      rw [← hmeets, hempty]
      simp
    simp only [if_true]
    constructor
    · exact Or.inl
    · intro h
      rcases h with h | ⟨rfl, h⟩
      · exact h
      · exact absurd h hno

theorem relevantTopLVs_spec {s : OperationLevelAnalyzer × RelSet} (h : Filled gctx A s.1)
    (p : OLATagIdx × OLATagIdx) :
    Filled gctx A (relevantTopLVs gctx F s p).1 ∧
      ∀ sc, sc ∈ (relevantTopLVs gctx F s p).2 ↔ sc ∈ s.2 ∨ (sc ∈ A.toplvTags .mod ∧
        ∃ t, TagBelow A.toAnalyzer gctx F p.1 t ∧ TopLVTag A.toAnalyzer gctx (p.2, sc) t) := by
  have hnames : ∀ sc, sc ∈ (s.1.toplvTags .mod).keys ↔ sc ∈ A.toplvTags .mod := by
    intro sc
    rw [ExtTreeMap.mem_keys, h.names]
  constructor
  · apply Fold.foldl_invariant (I := fun s : OperationLevelAnalyzer × RelSet => Filled gctx A s.1) h
    intro s sc hsc hs
    exact hs.getOrFindTopLVTags ((hnames sc).mp hsc)
  · intro sc
    have haccum : ∀ t, t ∈ s.1.descendantTags gctx F p.1 ↔ TagBelow A.toAnalyzer gctx F p.1 t := by
      intro t
      rw [mem_descendantTags, h.tags]
    unfold relevantTopLVs
    rw [Fold.foldl_or_of (I := fun s : OperationLevelAnalyzer × RelSet => Filled gctx A s.1)
      (P := fun s => sc ∈ s.2) (Q := fun name => name = sc ∧
        ∃ t ∈ s.1.descendantTags gctx F p.1, TopLVTag A.toAnalyzer gctx (p.2, sc) t) h]
    · simp only [haccum, ← hnames]
      constructor
      · intro hor
        rcases hor with hs | ⟨name, hname, rfl, ht⟩
        · exact Or.inl hs
        · exact Or.inr ⟨hname, ht⟩
      · intro hor
        rcases hor with hs | ⟨hsc, ht⟩
        · exact Or.inl hs
        · exact Or.inr ⟨sc, hsc, rfl, ht⟩
    · intro s' name hname hs
      constructor
      · exact hs.getOrFindTopLVTags ((hnames name).mp hname)
      · rw [mem_addIfRelevant hs.memo, hs.tags]

theorem aggregate_spec (hm : MemoRight ⟨A, gctx⟩) (F : FuncPtr) :
    Filled gctx A (A.aggregate gctx F).2 ∧ ∀ sc,
      sc ∈ (A.aggregate gctx F).1.row "toplvs" ↔ sc ∈ A.toplvTags .mod ∧
        (Relevant ⟨A, gctx⟩ F sc ∨ ∀ name ∈ A.toplvTags .mod, ¬ Relevant ⟨A, gctx⟩ F name) := by
  have h0 : Filled gctx A A := ⟨rfl, fun _ => Iff.rfl, hm⟩
  obtain ⟨h1, hmem1⟩ := relevantTopLVs_spec (s := (A, ∅)) (F := F) h0 (.mod, .ref)
  obtain ⟨h2, hmem2⟩ := relevantTopLVs_spec (F := F) h1 (.ref, .mod)
  set r := relevantTopLVs gctx F (relevantTopLVs gctx F (A, ∅) (.mod, .ref)) (.ref, .mod) with hr
  have hmem : ∀ sc, sc ∈ r.2 ↔ sc ∈ A.toplvTags .mod ∧ Relevant ⟨A, gctx⟩ F sc := by
    intro sc
    rw [hmem2, hmem1]
    simp only [ExtTreeSet.not_mem_empty, false_or, ← and_or_left, ← exists_or]
    rfl
  have hresult : (A.aggregate gctx F).1.row "toplvs" =
      if r.2.isEmpty then ExtTreeSet.ofElems (r.1.toplvTags .mod).keys else r.2 := by
    rw [hr]
    simp [aggregate, ExtTreeMap.row]
  constructor
  · exact h2
  · intro sc
    rw [hresult]
    cases hempty : r.2.isEmpty with
    | false =>
      obtain ⟨name, hname⟩ := ExtTreeSet.isEmpty_eq_false_iff_exists.mp hempty
      have hex : ¬ ∀ name ∈ A.toplvTags .mod, ¬ Relevant ⟨A, gctx⟩ F name := fun hall =>
        hall name ((hmem name).mp hname).1 ((hmem name).mp hname).2
      simp only [Bool.false_eq_true, if_false, hmem, hex, or_false]
    | true =>
      have hall : ∀ name ∈ A.toplvTags .mod, ¬ Relevant ⟨A, gctx⟩ F name := by
        intro name hname hrel
        have hin := (hmem name).mpr ⟨hname, hrel⟩
        rw [ExtTreeSet.isEmpty_iff.mp hempty] at hin
        exact ExtTreeSet.not_mem_empty hin
      simp only [if_true, ExtTreeSet.mem_ofElems, ExtTreeMap.mem_keys, h2.names]
      constructor
      · intro hsc
        exact ⟨hsc, Or.inr hall⟩
      · intro hsc
        exact hsc.1

end Aggregate

section Update

variable {E : Env} {A : OperationLevelAnalyzer} {gctx gctx' : GlobalContext} {F : FuncPtr}
  {k : OLATagIdx × String} {t : OLATag}

/-- The contexts differ in their caches only. -/
def SameGraph (gctx gctx' : GlobalContext) : Prop :=
  { gctx with ancCache := ∅, negAncCache := ∅ } = { gctx' with ancCache := ∅, negAncCache := ∅ }

theorem SameGraph.callees_eq (h : SameGraph gctx gctx') : gctx.callees = gctx'.callees := by
  have hcallees := congrArg GlobalContext.callees h
  exact hcallees

theorem SameGraph.getFunction_eq (h : SameGraph gctx gctx') (name : String) :
    gctx.getFunction name "" = gctx'.getFunction name "" := by
  have hfuncs := congrArg GlobalContext.bcFuncs h
  dsimp only at hfuncs
  unfold GlobalContext.getFunction
  rw [hfuncs]

theorem SameGraph.topLVTag_iff (h : SameGraph gctx gctx') {B : Analyzer OLATag 2} :
    TopLVTag B gctx k t ↔ TopLVTag B gctx' k t := by
  unfold TopLVTag TagBelow
  rw [h.callees_eq, h.getFunction_eq]

theorem clearedNames_sameGraph {l : List (String × SortedSet OLATag)}
    {r : List String × GlobalContext} (h : clearedNames F gctx l = some r) :
    SameGraph r.2 gctx := by
  induction l generalizing gctx r with
  | nil =>
    obtain rfl := Option.some.inj h
    rfl
  | cons p l ih =>
    unfold clearedNames at h
    split_ifs at h with hempty
    · exact ih h
    · cases hF : gctx.getFunction p.1 "" with
      | none => simp [hF] at h
      | some TopLVF =>
        simp only [hF, Option.map_eq_some_iff] at h
        obtain ⟨r', hr', rfl⟩ := h
        exact (ih hr').trans (Ancestors.forgetCaches_isAncestor gctx (TopLVF, F))

theorem memoised_clearTopLV {scName : String} {idx : OLATagIdx} :
    Memoised (A.clearTopLV scName idx) k t ↔ k ≠ (idx, scName) ∧ Memoised A k t := by
  unfold clearTopLV
  rw [memoised_setTopLV]
  split_ifs with hk
  · simp [hk]
  · simp [Ne.symm hk]

theorem memoised_foldl_clearTopLV {names : List String} :
    Memoised (names.foldl (fun A scName => A.clearTopLV scName .mod) A) k t ↔
      Memoised A k t ∧ ∀ name ∈ names, k ≠ (.mod, name) := by
  apply Fold.foldl_and (P := fun A => Memoised A k t)
  intro A name
  rw [memoised_clearTopLV, and_comm]

theorem manageTopLVs_spec {r : OperationLevelAnalyzer × GlobalContext}
    (h : manageTopLVs E A gctx F = some r) :
    r.1.toAnalyzer = A.toAnalyzer ∧ SameGraph r.2 gctx ∧
      ∀ k t, Memoised r.1 k t ↔ ¬ Clears E ⟨A, gctx⟩ F k ∧ Memoised A k t := by
  unfold manageTopLVs at h
  split_ifs at h with htop
  · obtain rfl := Option.some.inj h
    refine ⟨rfl, rfl, ?_⟩
    intro k t
    obtain ⟨k, sc⟩ := k
    rw [memoised_clearTopLV, memoised_clearTopLV, Clears, if_pos htop]
    cases k with
    | mod => simp
    | ref => simp
  · obtain ⟨names, hnames, rfl⟩ := Option.map_eq_some_iff.mp h
    refine ⟨?_, clearedNames_sameGraph hnames, ?_⟩
    · exact Fold.foldl_frame (f := fun (A : OperationLevelAnalyzer) sc => A.clearTopLV sc .mod)
        (p := toAnalyzer) (fun _ _ => rfl) names.1 A
    · intro k t
      obtain ⟨k, sc⟩ := k
      rw [memoised_foldl_clearTopLV, Clears, if_neg htop, and_comm]
      have hclear : (∀ name ∈ names.1, (k, sc) ≠ (OLATagIdx.mod, name)) ↔
          ¬ (k = .mod ∧ ∃ r ∈ clearedNames F gctx (A.toplvTags .mod).toList, sc ∈ r.1) := by
        simp only [hnames, Option.mem_def, Option.some.injEq, exists_eq_left', ne_eq,
          Prod.mk.injEq, not_and]
        constructor
        · intro hall hk hsc
          exact hall sc hsc hk rfl
        · intro hno name hname hk heq
          subst heq
          exact hno hk hname
      rw [hclear]

theorem mem_getTags_addTags {calls : List (OLATag × OLATagIdx)} {G : FuncPtr} {idx : OLATagIdx} :
    t ∈ (A.addTags F calls).getTags G idx.idx ↔
      t ∈ A.getTags G idx.idx ∨ ∃ c ∈ calls, c = (t, idx) ∧ F = G := by
  apply Fold.foldl_or (P := fun B : Analyzer OLATag 2 => t ∈ B.getTags G idx.idx)
    (f := fun B (c : OLATag × OLATagIdx) => B.addTag c.1 F c.2.idx)
  intro B c
  rw [Analyzer.mem_getTags_addTag]
  obtain ⟨tag, j⟩ := c
  have hidx : j.idx = idx.idx ∧ idx.idx < 2 ↔ j = idx := by
    cases j <;> cases idx <;> simp [OLATagIdx.idx]
  rw [Prod.mk.injEq, ← hidx]
  tauto

theorem topLVTag_addTags {calls : List (OLATag × OLATagIdx)} :
    TopLVTag (A.addTags F calls).toAnalyzer gctx k t ↔ TopLVTag A.toAnalyzer gctx k t ∨
      ((t, k.1) ∈ calls ∧ ∃ sc, gctx.getFunction k.2 "" = some sc ∧
        ReflTransGen (fun B C => C ∈ gctx.callees.row B) sc F) := by
  unfold TopLVTag TagBelow
  simp only [mem_getTags_addTags]
  constructor
  · rintro ⟨sc, hsc, G, hG, ht | ⟨c, hc, rfl, rfl⟩⟩
    · exact Or.inl ⟨sc, hsc, G, hG, ht⟩
    · exact Or.inr ⟨hc, sc, hsc, hG⟩
  · intro h
    rcases h with ⟨sc, hsc, G, hG, ht⟩ | ⟨hc, sc, hsc, hF⟩
    · exact ⟨sc, hsc, G, hG, Or.inl ht⟩
    · exact ⟨sc, hsc, F, hF, Or.inr ⟨_, hc, rfl, rfl⟩⟩

/-- From a right memo, an update keeps it right exactly when the tags it adds are below no
name whose row stays. -/
theorem memoRight_update_iff {s s' : RunState} {n : ℕ} (hm : MemoRight s)
    (hrun : perform E s (.update n F) = some s') :
    MemoRight s' ↔ KeepsMemo E s (.update n F) := by
  obtain ⟨r, hr, rfl⟩ := Option.map_eq_some_iff.mp hrun
  obtain ⟨⟨B, gctx⟩, calls, hmanage, hcalls, rfl⟩ := exists_of_update hr
  obtain ⟨htags, hgraph, hrows⟩ := manageTopLVs_spec hmanage
  dsimp only at htags hgraph hrows
  have hright : MemoRight ⟨B.addTags F calls, gctx⟩ ↔ ∀ k t, Memoised s.oper k t →
      ¬ Clears E s F k → ∀ t', TopLVTag (B.addTags F calls).toAnalyzer gctx k t' ↔
        TopLVTag s.oper.toAnalyzer s.gctx k t' :=
    Memo.Right.step_iff hm hrows
  have hbelow : ∀ k t', TopLVTag (B.addTags F calls).toAnalyzer gctx k t' ↔
      TopLVTag s.oper.toAnalyzer s.gctx k t' ∨ ((t', k.1) ∈ calls ∧
        ∃ sc, s.gctx.getFunction k.2 "" = some sc ∧
          ReflTransGen (fun B C => C ∈ s.gctx.callees.row B) sc F) := by
    intro k t'
    rw [hgraph.topLVTag_iff, topLVTag_addTags, htags]
  dsimp only
  rw [hright]
  simp only [hbelow, KeepsMemo, hcalls, Option.mem_def, Option.some.injEq, forall_eq',
    or_iff_left_iff_imp, and_imp]

end Update

variable {E : Env} {s s' : RunState} {op : Op}

/-- From a right memo, a step keeps it right exactly when it changes the tags below no name
whose row stays. -/
theorem memoRight_step_iff (hm : MemoRight s) (hrun : perform E s op = some s') :
    MemoRight s' ↔ KeepsMemo E s op := by
  have hkept : ∀ (A : OperationLevelAnalyzer) (gctx : GlobalContext),
      A.toplvTags = s.oper.toplvTags → (MemoRight ⟨A, gctx⟩ ↔
        ∀ k t, Memoised s.oper k t → ∀ t', TopLVTag A.toAnalyzer gctx k t' ↔
          TopLVTag s.oper.toAnalyzer s.gctx k t') := by
    intro A gctx hA
    have hrow : ∀ k t, Memoised A k t ↔ ¬ False ∧ Memoised s.oper k t := by
      intro k t
      unfold Memoised
      rw [hA]
      simp
    have hstep : MemoRight ⟨A, gctx⟩ ↔ ∀ k t, Memoised s.oper k t → ¬ False →
        ∀ t', TopLVTag A.toAnalyzer gctx k t' ↔ TopLVTag s.oper.toAnalyzer s.gctx k t' :=
      Memo.Right.step_iff hm hrow
    rw [hstep]
    simp only [not_false_eq_true, forall_true_left]
  cases op with
  | remove F =>
    obtain rfl := Option.some.inj hrun
    exact hkept _ _ rfl
  | update n F => exact memoRight_update_iff hm hrun
  | move P Q =>
    obtain rfl := Option.some.inj hrun
    exact hkept _ _ rfl
  | aggregate F =>
    obtain rfl := Option.some.inj hrun
    exact iff_of_true (aggregate_spec hm F).1.memo trivial
  | replaceGraph gctx =>
    obtain rfl := Option.some.inj hrun
    exact hkept _ _ rfl

theorem Run.memoRight (h : Run E (KeepsMemo E) s) : MemoRight s := by
  induction h with
  | start gctx =>
    apply Memo.right_empty
    intro k t
    simp [Memoised]
  | step _ hkeeps hrun ih => exact (memoRight_step_iff ih hrun).mpr hkeeps

/-- In every run whose steps change the tags below no name whose row stays, the memo never
changes a result. -/
theorem aggregate_exact (h : Run E (KeepsMemo E) s) : AggregateExact s := fun F =>
  (aggregate_spec h.memoRight F).2

theorem Run.next {C : RunState → Op → Prop} (h : Run E C s) (op : Op) (hC : C s op)
    (hs : (perform E s op).isSome) : Run E C ((perform E s op).get hs) :=
  h.step hC (Option.some_get hs).symm

theorem keepsMemo_of_empty (h : ∀ idx ∈ [OLATagIdx.mod, .ref],
    ∀ r ∈ (s.oper.toplvTags idx).toList, r.2.isEmpty) (op : Op) : KeepsMemo E s op := by
  have hno : ∀ k t, ¬ Memoised s.oper k t := by
    intro k t ht
    have hk : k.1 ∈ [OLATagIdx.mod, .ref] := by cases k.1 <;> simp
    apply ExtTreeMap.not_mem_row_of_forall (a := t) ?_ k.2 ht
    intro r hr hin
    rw [ExtTreeSet.isEmpty_iff.mp (h k.1 hk r hr)] at hin
    exact ExtTreeSet.not_mem_empty hin
  cases op with
  | remove F => exact fun k t ht => absurd ht (hno k t)
  | update n F => exact fun k t ht => absurd ht (hno k t)
  | move P Q => exact fun k t ht => absurd ht (hno k t)
  | aggregate F => exact trivial
  | replaceGraph gctx => exact fun k t ht => absurd ht (hno k t)

theorem not_relevant_of_unmodified (h : ∀ r ∈ (s.oper.tags 0).toList, r.2.isEmpty) {F : FuncPtr}
    {scName : String} : ¬ Relevant s F scName := by
  have hno : ∀ G t, t ∉ s.oper.getTags G OLATagIdx.mod.idx := by
    intro G t
    apply ExtTreeMap.not_mem_row_of_forall
    intro r hr hin
    rw [ExtTreeSet.isEmpty_iff.mp (h r hr)] at hin
    exact ExtTreeSet.not_mem_empty hin
  intro hrel
  obtain ⟨t, ⟨⟨G, _, ht⟩, _⟩ | ⟨_, _, _, G, _, ht⟩⟩ := hrel
  · exact hno G t ht
  · exact hno G t ht

/-- All registered names are names of live functions. -/
def NamesLive (s : RunState) : Prop :=
  ∀ name ∈ (s.oper.toplvTags .mod).keys, (s.gctx.getFunction name "").isSome

instance : Decidable (NamesLive s) := inferInstanceAs (Decidable (∀ _ ∈ _, _))

/-- Two top-level functions, a function that stores to a field, and one that loads it. -/
def fieldUsers : Env :=
  Env.ofModules [
    { values := [{ kind := .function { name := "sf_a" } }, { kind := .function { name := "sf_b" } },
        { kind := .function { name := "g", insts := [6, 7] } },
        { kind := .function { name := "h", insts := [8, 9] } },
        { kind := .argument, ty := 2 }, { kind := .constantInt 0 },
        { kind := .instruction (.gep 0), operands := [4, 5, 5], users := [7] },
        { kind := .instruction .store, operands := [5, 6] },
        { kind := .instruction (.gep 0), operands := [4, 5, 5], users := [9] },
        { kind := .instruction .load, operands := [8] }]
      types := [⟨.struct (some "struct.s") false [1], ""⟩, ⟨.other 13, ""⟩, ⟨.pointer 0, ""⟩]
      functions := [0, 1, 2, 3]
      names_nodup := by decide
      functions_listed := by decide }]

/-- The first top-level function calls the one that stores. -/
def fieldGraph : GlobalContext where
  callees := (∅ : PlainFuncMap).addTo ⟨0, 0⟩ ⟨0, 2⟩
  bcFuncs := (∅ : SortedMap String (SortedMap String FuncPtr)).insert "a.bc"
    ((((∅ : SortedMap String FuncPtr).insert "sf_a" ⟨0, 0⟩).insert "sf_b" ⟨0, 1⟩).insert "g"
      ⟨0, 2⟩ |>.insert "h" ⟨0, 3⟩)

/-- All four functions are updated, and the memo is filled. -/
theorem aggregate_exact_memoised : ∃ s, Run fieldUsers (KeepsMemo fieldUsers) s ∧
    Memoised s.oper (.mod, "sf_a") "struct.s::_0" ∧ AggregateExact s := by
  have h0 : Run fieldUsers (KeepsMemo fieldUsers) { gctx := fieldGraph } := Run.start fieldGraph
  have h1 := h0.next (.update 9 ⟨0, 0⟩) (keepsMemo_of_empty (by decide) _) (by decide)
  have h2 := h1.next (.update 9 ⟨0, 1⟩) (keepsMemo_of_empty (by decide) _) (by decide)
  have h3 := h2.next (.update 9 ⟨0, 2⟩) (keepsMemo_of_empty (by decide) _) (by decide)
  have h4 := h3.next (.update 9 ⟨0, 3⟩) (keepsMemo_of_empty (by decide) _) (by decide)
  have h5 := h4.next (.aggregate ⟨0, 3⟩) trivial (by decide)
  exact ⟨_, h5, ExtTreeSet.mem_iff_contains.mpr (by decide), aggregate_exact h5⟩

/-- The tags of a function are removed, and the memo keeps them. -/
theorem aggregate_exact_removed : ¬ ∀ s, Run fieldUsers (fun s _ => NamesLive s) s →
    NamesLive s → AggregateExact s := by
  intro hall
  have h0 : Run fieldUsers (fun s _ => NamesLive s) { gctx := fieldGraph } := Run.start fieldGraph
  have h1 := h0.next (.update 9 ⟨0, 0⟩) (by decide) (by decide)
  have h2 := h1.next (.update 9 ⟨0, 1⟩) (by decide) (by decide)
  have h3 := h2.next (.update 9 ⟨0, 2⟩) (by decide) (by decide)
  have h4 := h3.next (.update 9 ⟨0, 3⟩) (by decide) (by decide)
  have h5 := h4.next (.aggregate ⟨0, 3⟩) (by decide) (by decide)
  have h6 := h5.next (.remove ⟨0, 2⟩) (by decide) (by decide)
  have hresult := (hall _ h6 (by decide) ⟨0, 3⟩ "sf_b").mpr
    ⟨ExtTreeMap.mem_iff_contains.mpr (by decide), Or.inr fun _ _ =>
      not_relevant_of_unmodified (by decide)⟩
  rw [ExtTreeSet.mem_iff_contains] at hresult
  revert hresult
  decide

end OperationLevelAnalyzer

end Cisa

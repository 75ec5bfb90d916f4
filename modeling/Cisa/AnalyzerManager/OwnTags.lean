import Cisa.AnalyzerManager.LiveKeys
import Cisa.Analyzer.OperandWalk

/-!
# The own tags of a function

An update leaves the tags that the code and the name of the function give it, whatever was
there before. Matching moves tags from one function to another, and everything else leaves
them alone.
-/

namespace Cisa

open Std

theorem Analyzer.getTags_of_notMem {T : Type} [Ord T] [TransOrd T] [LawfulEqOrd T] {N : ℕ}
    {A : Analyzer T N} {F : FuncPtr} {idx : ℕ} (h : ∀ i, F ∉ A.tags i) : A.getTags F idx = ∅ := by
  unfold getTags
  split_ifs
  · exact ExtTreeMap.getD_eq_fallback (h _)
  · rfl

namespace IAnalyzer

open OperationLevelAnalyzer (Follows userTags)

variable {E : Env}

/-- The tag is one that the function has of its own: of what the walks from its instructions
reach, or by its name. -/
def OwnTag (E : Env) (F : FuncPtr) (idx : ℕ) (t : String) : IAnalyzer → Prop
  | oper _ => ∃ k : OLATagIdx, k.idx = idx ∧ ∃ I ∈ E.insts F, ∃ V,
      Relation.ReflTransGen (Follows E) I V ∧ (t, k) ∈ userTags E (E.fieldNames F.mod) V
  | sub _ => idx = 0 ∧ t = SubsystemLevelAnalyzer.namePrefix (E.function F).name ∧
      t ∈ SubsystemLevelAnalyzer.subsyses

theorem ownTag_congr {A B : IAnalyzer} (h : A.name = B.name) {F : FuncPtr} {idx : ℕ} {t : String} :
    A.OwnTag E F idx t ↔ B.OwnTag E F idx t := by
  cases A <;> cases B <;> first | exact Iff.rfl | simp [name] at h

theorem tags_of_not_hasKey {A : IAnalyzer} {F : FuncPtr} {idx : ℕ} (h : ¬ A.HasKey F) :
    A.tags F idx = ∅ := by
  cases A with
  | oper A => exact Analyzer.getTags_of_notMem fun i hi => h ⟨i, hi⟩
  | sub A => exact Analyzer.getTags_of_notMem fun i hi => h ⟨i, hi⟩

@[simp] theorem name_move (A : IAnalyzer) (P Q : FuncPtr) : (A.move P Q).name = A.name := by
  cases A <;> rfl

@[simp] theorem name_remove (A : IAnalyzer) (F : FuncPtr) : (A.remove F).name = A.name := by
  cases A <;> rfl

theorem name_update {A : IAnalyzer} {n : ℕ} {ctx : GlobalContext} {F : FuncPtr}
    {r : IAnalyzer × GlobalContext} (h : A.update E n ctx F = some r) : r.1.name = A.name := by
  cases A with
  | oper A =>
    obtain ⟨s, _, rfl⟩ := Option.map_eq_some_iff.mp h
    rfl
  | sub A =>
    obtain rfl := Option.some.inj h
    rfl

theorem tags_aggregate (A : IAnalyzer) (ctx : GlobalContext) (F G : FuncPtr) (idx : ℕ) :
    (A.aggregate ctx F).2.tags G idx = A.tags G idx := by
  cases A with
  | oper A =>
    exact congrArg (fun B : Analyzer OLATag 2 => B.getTags G idx)
      (OperationLevelAnalyzer.tags_aggregate ctx F)
  | sub A => rfl

end IAnalyzer

namespace OperationLevelAnalyzer

variable {E : Env} {A : OperationLevelAnalyzer} {F : FuncPtr} {idx : ℕ} {t : OLATag}

theorem mem_getTags_addTags_nat {calls : List (OLATag × OLATagIdx)} {G : FuncPtr} :
    t ∈ (A.addTags F calls).getTags G idx ↔
      t ∈ A.getTags G idx ∨ F = G ∧ ∃ k : OLATagIdx, k.idx = idx ∧ (t, k) ∈ calls := by
  by_cases hk : ∃ k : OLATagIdx, k.idx = idx
  · obtain ⟨k, rfl⟩ := hk
    have hinj : ∀ j : OLATagIdx, j.idx = k.idx ↔ j = k := by
      intro j
      cases j <;> cases k <;> simp [OLATagIdx.idx]
    rw [mem_getTags_addTags]
    apply or_congr Iff.rfl
    simp only [hinj, exists_eq_left]
    constructor
    · rintro ⟨c, hc, rfl, hF⟩
      exact ⟨hF, hc⟩
    · exact fun h => ⟨_, h.2, rfl, h.1⟩
  · have hidx : ¬ idx < 2 := by
      intro hlt
      interval_cases idx
      · exact hk ⟨.mod, rfl⟩
      · exact hk ⟨.ref, rfl⟩
    have hno : ¬ ∃ k : OLATagIdx, k.idx = idx ∧ (t, k) ∈ calls := by
      rintro ⟨k, h, _⟩
      exact hk ⟨k, h⟩
    simp [Analyzer.getTags, hidx, hno]

end OperationLevelAnalyzer

namespace IAnalyzer

variable {E : Env} {A : IAnalyzer} {n : ℕ} {ctx : GlobalContext} {F G : FuncPtr}
  {r : IAnalyzer × GlobalContext}

theorem mem_tags_update (h : A.update E n ctx F = some r) {idx : ℕ} {t : String} :
    t ∈ r.1.tags G idx ↔ t ∈ A.tags G idx ∨ F = G ∧ A.OwnTag E F idx t := by
  cases A with
  | oper A =>
    obtain ⟨s, hs, rfl⟩ := Option.map_eq_some_iff.mp h
    obtain ⟨⟨B, gctx⟩, calls, hmanage, hcalls, rfl⟩ := OperationLevelAnalyzer.exists_of_update hs
    have hkept := (OperationLevelAnalyzer.manageTopLVs_spec hmanage).1
    dsimp only at hkept
    show t ∈ (B.addTags F calls).getTags G idx ↔ _
    rw [OperationLevelAnalyzer.mem_getTags_addTags_nat, hkept]
    simp only [OperationLevelAnalyzer.mem_calledTags hcalls]
    rfl
  | sub A =>
    obtain rfl := Option.some.inj h
    show t ∈ (A.update E F).getTags G idx ↔ t ∈ A.getTags G idx ∨ F = G ∧ idx = 0 ∧ _ ∧ _
    unfold SubsystemLevelAnalyzer.update
    dsimp only
    split_ifs with hpre
    · rw [Analyzer.mem_getTags_addTag]
      constructor
      · rintro (⟨rfl, _, hF, rfl⟩ | ht)
        · exact Or.inr ⟨hF, rfl, rfl, hpre⟩
        · exact Or.inl ht
      · rintro (ht | ⟨hF, rfl, rfl, _⟩)
        · exact Or.inr ht
        · exact Or.inl ⟨rfl, by decide, hF, rfl⟩
    · refine (or_iff_left ?_).symm
      rintro ⟨_, _, rfl, ht⟩
      exact hpre ht

theorem mem_tags_update_remove (h : (A.remove F).update E n ctx F = some r) {idx : ℕ}
    {t : String} : t ∈ r.1.tags G idx ↔ if F = G then A.OwnTag E F idx t else t ∈ A.tags G idx := by
  rw [mem_tags_update h, tags_remove, ownTag_congr (A.name_remove F)]
  split_ifs with hF
  · simp [hF]
  · simp [hF]

end IAnalyzer

namespace AnalyzerManager

variable {E : Env} {n : ℕ} {S S' : State} {F G : FuncPtr} {i idx : ℕ} {t : String}

/-- The analyzers at the same positions have the same names. -/
def State.SameNames (S S' : State) : Prop :=
  S'.analyzers.map IAnalyzer.name = S.analyzers.map IAnalyzer.name

/-- The tag is an own tag of the function for the analyzer at the position. -/
def State.OwnTag (E : Env) (S : State) (i : ℕ) (F : FuncPtr) (idx : ℕ) (t : String) : Prop :=
  ∃ A, S.analyzers[i]? = some A ∧ A.OwnTag E F idx t

/-- All analyzers have the own tags of the function, and no others, for it. -/
def State.HasOwnTags (E : Env) (S : State) (F : FuncPtr) : Prop :=
  ∀ i idx t, t ∈ S.tags i F idx ↔ S.OwnTag E i F idx t

theorem State.SameNames.ownTag_iff (h : S.SameNames S') :
    S'.OwnTag E i F idx t ↔ S.OwnTag E i F idx t := by
  have hget := congrArg (fun l : List String => l[i]?) h
  simp only [List.getElem?_map] at hget
  unfold State.OwnTag
  cases hS : S.analyzers[i]? with
  | none =>
    rw [hS, Option.map_none, Option.map_eq_none_iff] at hget
    simp [hget]
  | some A =>
    rw [hS, Option.map_some] at hget
    obtain ⟨B, hB, hname⟩ := Option.map_eq_some_iff.mp hget
    simp [hB, IAnalyzer.ownTag_congr hname]

theorem State.mem_tags_iff :
    t ∈ S.tags i F idx ↔ ∃ A, S.analyzers[i]? = some A ∧ t ∈ A.tags F idx := by
  unfold State.tags
  cases S.analyzers[i]? with
  | none => simp
  | some A => simp

theorem State.tags_of_not_hasKey (h : ¬ S.HasKey F) : S.tags i F idx = ∅ := by
  unfold State.tags
  cases hA : S.analyzers[i]? with
  | none => rfl
  | some A =>
    exact IAnalyzer.tags_of_not_hasKey fun hF => h ⟨A, List.mem_of_getElem? hA, hF⟩

theorem getElem?_forall₂ {R : IAnalyzer → IAnalyzer → Prop} {l l' : List IAnalyzer}
    (h : List.Forall₂ R l l') (i : ℕ) :
    (l[i]? = none ∧ l'[i]? = none) ∨ ∃ A A', l[i]? = some A ∧ l'[i]? = some A' ∧ R A A' := by
  induction h generalizing i with
  | nil => simp
  | @cons A A' l l' hA _ ih =>
    cases i with
    | zero => simpa using hA
    | succ i => simpa using ih i

theorem tags_updateFunction (h : updateFunction E n S F = some S') : S.SameNames S' ∧
    ∀ i G idx t, t ∈ S'.tags i G idx ↔
      if F = G then S.OwnTag E i F idx t else t ∈ S.tags i G idx := by
  obtain ⟨hall, _⟩ := updateFunction_spec (R := fun A A' => A.name = A'.name ∧ ∀ G idx t,
      t ∈ A'.tags G idx ↔ if F = G then A.OwnTag E F idx t else t ∈ A.tags G idx) (by
    intro A ctx r _ _ hr
    refine ⟨?_, fun G idx t => IAnalyzer.mem_tags_update_remove hr⟩
    rw [IAnalyzer.name_update hr, IAnalyzer.name_remove]) h
  constructor
  · apply List.ext_getElem?
    intro i
    rw [List.getElem?_map, List.getElem?_map]
    rcases getElem?_forall₂ hall i with ⟨hl, hl'⟩ | ⟨A, A', hl, hl', hname, _⟩
    · simp [hl, hl']
    · simp [hl, hl', hname]
  · intro i G idx t
    unfold State.OwnTag
    rw [State.mem_tags_iff, State.mem_tags_iff]
    rcases getElem?_forall₂ hall i with ⟨hl, hl'⟩ | ⟨A, A', hl, hl', _, htags⟩
    · simp [hl, hl']
    · simp only [hl, hl', Option.some.injEq, exists_eq_left']
      exact htags G idx t

theorem State.SameNames.trans {S'' : State} (h : S.SameNames S') (h' : S'.SameNames S'') :
    S.SameNames S'' :=
  Eq.trans h' h

/-- Functions that are updated have their own tags afterwards, whatever happens to the others. -/
theorem tags_updateFunctions {Fs : List FuncPtr} (h : Fs.foldlM (updateFunction E n) S = some S') :
    S.SameNames S' ∧ (∀ G ∈ Fs, S'.HasOwnTags E G) ∧
      ∀ G ∉ Fs, ∀ i idx, S'.tags i G idx = S.tags i G idx := by
  induction Fs generalizing S with
  | nil =>
    obtain rfl := Option.some.inj h
    exact ⟨rfl, by simp, fun _ _ _ _ => rfl⟩
  | cons F Fs ih =>
    rw [List.foldlM_cons] at h
    obtain ⟨T, hT, hrest⟩ := Option.bind_eq_some_iff.mp h
    obtain ⟨hnames, htags⟩ := tags_updateFunction hT
    obtain ⟨hnames', hown, hkeep⟩ := ih hrest
    refine ⟨hnames.trans hnames', ?_, ?_⟩
    · intro G hG
      by_cases hGFs : G ∈ Fs
      · exact hown G hGFs
      · obtain rfl := (List.mem_cons.mp hG).resolve_right hGFs
        intro i idx t
        rw [hkeep G hGFs, htags, if_pos rfl, (hnames.trans hnames').ownTag_iff]
    · intro G hG i idx
      rw [List.mem_cons, not_or] at hG
      rw [hkeep G hG.2]
      apply ExtTreeSet.ext_mem
      intro t
      rw [htags, if_neg fun hFG => hG.1 hFG.symm]

theorem tags_aggregateFunctions (doAgg : Bool) (Fs : List FuncPtr) :
    S.SameNames (aggregateFunctions doAgg S Fs) ∧
      ∀ i G idx, (aggregateFunctions doAgg S Fs).tags i G idx = S.tags i G idx := by
  have hstep : ∀ (T : State) F, T.SameNames (aggregateFunction T F) ∧
      ∀ i G idx, (aggregateFunction T F).tags i G idx = T.tags i G idx := by
    intro T F
    rw [aggregateFunction_eq]
    constructor
    · simp [State.SameNames, Function.comp_def]
    · intro i G idx
      unfold State.tags
      rw [List.getElem?_map]
      cases T.analyzers[i]? with
      | none => rfl
      | some A => simp [IAnalyzer.tags_aggregate]
  unfold aggregateFunctions
  split_ifs
  · apply Fold.foldl_invariant (I := fun T : State => S.SameNames T ∧
      ∀ i G idx, T.tags i G idx = S.tags i G idx) ⟨rfl, fun _ _ _ => rfl⟩
    intro T F _ hT
    obtain ⟨hnames, htags⟩ := hstep T F
    exact ⟨hT.1.trans hnames, fun i G idx => (htags i G idx).trans (hT.2 i G idx)⟩
  · exact ⟨rfl, fun _ _ _ => rfl⟩

end AnalyzerManager

end Cisa

import Cisa.AnalyzerManager.FreshTags

/-!
# The subsystems a commit is relevant to

A change of a function is relevant to the subsystems from which it is called. In a run whose
commits are faithful, the results of a commit hold for every function the subsystems of its
own callers, if it was updated, and those of the callers of the old function that it is matched
with, if that was changed.
-/

namespace Cisa

open Std

/-- `x` is the subsystem of a function that calls `F`, directly or through others. -/
def NamesCaller (E : Env) (ctx : GlobalContext) (F : FuncPtr) (x : String) : Prop :=
  ∃ G, Relation.ReflTransGen (fun A B => B ∈ ctx.callers.row A) F G ∧
    AnalyzerManager.InBCFuncs ctx G ∧ SubsystemLevelAnalyzer.namePrefix (E.function G).name = x

/-- A change of `F` is relevant to the subsystem: one of its callers, or any if these have none. -/
def RelevantSubsys (E : Env) (ctx : GlobalContext) (F : FuncPtr) (x : String) : Prop :=
  x ∈ SubsystemLevelAnalyzer.subsyses ∧
    (NamesCaller E ctx F x ∨ ∀ y ∈ SubsystemLevelAnalyzer.subsyses, ¬ NamesCaller E ctx F y)

namespace SubsystemLevelAnalyzer

variable {E : Env} {A : SubsystemLevelAnalyzer} {ctx : GlobalContext} {F : FuncPtr} {x : String}

theorem mem_callerTags : x ∈ ctx.visitSubtreeBFS F .up
      (fun subsys CurF => (.next, subsys ∪ A.getTags CurF 0)) ∅ ↔
    ∃ G, Relation.ReflTransGen (fun A B => B ∈ ctx.callers.row A) F G ∧ x ∈ A.getTags G 0 := by
  have hJ : ∀ (V : FuncSet) (subsys : RelSet) G,
      (∀ x, x ∈ subsys ↔ ∃ G, G ∈ V ∧ x ∈ A.getTags G 0) →
      ∀ x, x ∈ subsys ∪ A.getTags G 0 ↔ ∃ G', G' ∈ V.insert G ∧ x ∈ A.getTags G' 0 := by
    intro V subsys G hV x
    rw [ExtTreeSet.mem_union_iff, hV]
    simp only [ExtTreeSet.mem_insert, Std.compare_eq_iff_eq]
    constructor
    · rintro (⟨G', hG', hx⟩ | hx)
      · exact ⟨G', Or.inr hG', hx⟩
      · exact ⟨G, Or.inl rfl, hx⟩
    · rintro ⟨G', rfl | hG', hx⟩
      · exact Or.inr hx
      · exact Or.inl ⟨G', hG', hx⟩
  obtain ⟨V, hV, hmem⟩ := ctx.visit_next_spec hJ F .up (t := ∅) (by simp)
  rw [hV]
  simp only [hmem]
  rfl

theorem mem_aggregate (htags : ∀ G y, y ∈ A.getTags G 0 ↔
      AnalyzerManager.InBCFuncs ctx G ∧ y = namePrefix (E.function G).name ∧ y ∈ subsyses) :
    x ∈ (A.aggregate ctx F).row "subsys" ↔ RelevantSubsys E ctx F x := by
  have hwalk : ∀ y, y ∈ ctx.visitSubtreeBFS F .up
      (fun subsys CurF => (.next, subsys ∪ A.getTags CurF 0)) ∅ ↔
        y ∈ subsyses ∧ NamesCaller E ctx F y := by
    intro y
    simp only [mem_callerTags, htags, NamesCaller]
    constructor
    · rintro ⟨G, hG, hlive, rfl, hy⟩
      exact ⟨hy, G, hG, hlive, rfl⟩
    · rintro ⟨hy, G, hG, hlive, rfl⟩
      exact ⟨G, hG, hlive, rfl, hy⟩
  unfold aggregate
  dsimp only
  generalize ctx.visitSubtreeBFS F .up
    (fun subsys CurF => (.next, subsys ∪ A.getTags CurF 0)) ∅ = subsys at hwalk
  rw [ExtTreeMap.mem_row_insert]
  simp only [true_and, ne_eq, not_true_eq_false, false_and, or_false]
  unfold RelevantSubsys
  cases hempty : subsys.isEmpty with
  | true =>
    obtain rfl : subsys = ∅ := ExtTreeSet.isEmpty_iff.mp hempty
    have hno : ∀ y ∈ subsyses, ¬ NamesCaller E ctx F y := fun y hy hname =>
      ExtTreeSet.not_mem_empty ((hwalk y).mpr ⟨hy, hname⟩)
    rw [if_pos rfl]
    exact (and_iff_left (Or.inr hno)).symm
  | false =>
    rw [if_neg (by simp), hwalk]
    apply and_congr_right
    intro _
    obtain ⟨y, hy⟩ := ExtTreeSet.isEmpty_eq_false_iff_exists.mp hempty
    refine (or_iff_left ?_).symm
    exact fun hno => hno y ((hwalk y).mp hy).1 ((hwalk y).mp hy).2

end SubsystemLevelAnalyzer

namespace AnalyzerManager

variable {E : Env} {n : ℕ} {S S' : State} {F G : FuncPtr} {path : String}
  {delFlps newFlps : List FunctionLinePair} {k : String × String} {x : String}

theorem sub_mem_aggregateFunction {A : SubsystemLevelAnalyzer} :
    IAnalyzer.sub A ∈ (aggregateFunction S F).analyzers ↔ IAnalyzer.sub A ∈ S.analyzers := by
  rw [aggregateFunction_eq]
  simp only [List.mem_map]
  constructor
  · rintro ⟨B, hB, heq⟩
    cases B with
    | oper B => simp [IAnalyzer.aggregate] at heq
    | sub B =>
      obtain rfl := IAnalyzer.sub.inj heq
      exact hB
  · exact fun hA => ⟨_, hA, rfl⟩

theorem returns_cons {Fs : List FuncPtr} : Returns (returned S (G :: Fs)) F k x ↔
    (∃ B ∈ S.analyzers, G = F ∧ B.name = k.1 ∧ x ∈ (B.aggregate S.gctx G).1.row k.2) ∨
      Returns (returned (aggregateFunction S G) Fs) F k x := by
  unfold Returns
  rw [returned]
  simp only [List.mem_append, List.mem_map, Prod.mk.injEq]
  constructor
  · rintro ⟨ret, ⟨B, hB, rfl, hname, rfl⟩ | hret, hx⟩
    · exact Or.inl ⟨B, hB, rfl, hname, hx⟩
    · exact Or.inr ⟨ret, hret, hx⟩
  · rintro (⟨B, hB, rfl, hname, hx⟩ | ⟨ret, hret, hx⟩)
    · exact ⟨_, Or.inl ⟨B, hB, rfl, hname, rfl⟩, hx⟩
    · exact ⟨ret, Or.inr hret, hx⟩

theorem returns_sub_iff {Fs : List FuncPtr} :
    Returns (returned S Fs) F ("sub", "subsys") x ↔ F ∈ Fs ∧
      ∃ A, IAnalyzer.sub A ∈ S.analyzers ∧ x ∈ (A.aggregate S.gctx F).row "subsys" := by
  induction Fs generalizing S with
  | nil => simp [Returns, returned]
  | cons G Fs ih =>
    have hgctx : (aggregateFunction S G).gctx = S.gctx := by rw [aggregateFunction_eq]
    have hfirst : (∃ B ∈ S.analyzers, G = F ∧ B.name = "sub" ∧
        x ∈ (B.aggregate S.gctx G).1.row "subsys") ↔ F = G ∧
          ∃ A, IAnalyzer.sub A ∈ S.analyzers ∧ x ∈ (A.aggregate S.gctx F).row "subsys" := by
      constructor
      · rintro ⟨B, hB, rfl, hname, hx⟩
        cases B with
        | oper B => simp [IAnalyzer.name] at hname
        | sub B => exact ⟨rfl, B, hB, hx⟩
      · rintro ⟨rfl, A, hA, hx⟩
        exact ⟨_, hA, rfl, rfl, hx⟩
    rw [returns_cons, hfirst, ih]
    simp only [sub_mem_aggregateFunction, hgctx]
    rw [List.mem_cons, or_and_right]

/-- What the subsystem-level analyzer returns where the live functions have their own tags, and
no others have tags. -/
theorem exists_aggregate_sub_iff (hsub : "sub" ∈ S.analyzers.map IAnalyzer.name)
    (hown : ∀ G, InBCFuncs S.gctx G → S.HasOwnTags E G)
    (hlive : ∀ i G idx t, t ∈ S.tags i G idx → InBCFuncs S.gctx G) :
    (∃ A, IAnalyzer.sub A ∈ S.analyzers ∧ x ∈ (A.aggregate S.gctx F).row "subsys") ↔
      RelevantSubsys E S.gctx F x := by
  have hagg : ∀ A, IAnalyzer.sub A ∈ S.analyzers →
      (x ∈ (A.aggregate S.gctx F).row "subsys" ↔ RelevantSubsys E S.gctx F x) := by
    intro A hA
    obtain ⟨i, hi⟩ := List.mem_iff_getElem?.mp hA
    have htags : ∀ G t, t ∈ A.getTags G 0 ↔ t ∈ S.tags i G 0 := by
      intro G t
      rw [State.mem_tags_iff, hi]
      simp [IAnalyzer.tags]
    apply SubsystemLevelAnalyzer.mem_aggregate
    intro G t
    rw [htags]
    constructor
    · intro ht
      have hG := hlive i G 0 t ht
      obtain ⟨B, hB, ho⟩ := (hown G hG i 0 t).mp ht
      obtain rfl := Option.some.inj (hi.symm.trans hB)
      exact ⟨hG, ho.2⟩
    · rintro ⟨hG, ht⟩
      exact (hown G hG i 0 t).mpr ⟨_, hi, rfl, ht⟩
  obtain ⟨B, hB, hname⟩ := List.mem_map.mp hsub
  cases B with
  | oper B => simp [IAnalyzer.name] at hname
  | sub B =>
    constructor
    · rintro ⟨A, hA, hx⟩
      exact (hagg A hA).mp hx
    · exact fun hx => ⟨B, hB, (hagg B hB).mpr hx⟩

theorem hasResult_correctChanges_unmatched (hdel : ∀ p ∈ delFlps, p.1 ≠ F)
    (hno : ∀ p ∈ newFlps, p.1 = F →
      matchingDelF (mapPostToPreLine S.cur path p.2) delFlps = none) :
    HasResult (correctChanges S path delFlps newFlps).cur.res F k x ↔
      HasResult S.cur.res F k x := by
  rw [correctChanges, hasResult_removeFunctions hdel]
  refine (Fold.foldl_invariant (I := fun T : State => T.cur.cis = S.cur.cis ∧
    (HasResult T.cur.res F k x ↔ HasResult S.cur.res F k x)) ⟨rfl, Iff.rfl⟩ ?_).2
  intro T p hp hT
  obtain ⟨hcis, hres⟩ := hT
  refine ⟨cis_correctChange.trans hcis, ?_⟩
  rw [hasResult_correctChange, hres, mapPostToPreLine_congr hcis]
  refine or_iff_left ?_
  rintro ⟨hF, delFL, hm, _⟩
  simp [hno p hp hF] at hm

section Commit

variable {P P' : Program} {c : Commit}

/-- The changed old functions. -/
def Commit.preFuncs (E : Env) (P : Program) (c : Commit) : List FuncPtr :=
  changedFuncs E { P.state with cur := Context.start c.hexsha c.cis } c.upPaths ChangeInfo.delLines

/-- The new function of a path is matched with the old one. -/
def CarriedFrom (E : Env) (P : Program) (c : Commit) (td : CallGraphPass) (F delF : FuncPtr) :
    Prop :=
  ∃ path ∈ c.upPaths, F ∈ td.ctx.getAllModuleFunctions path ∧
    MatchedWith (Context.start c.hexsha c.cis) path (redefInfos E P.td.ctx path)
      (F, getPrototypeLine E F) delF

theorem mem_of_hasResult {res : Results} (h : HasResult res F k x) : F ∈ res := by
  by_contra hF
  simp [HasResult, resultOf, ExtTreeMap.getD_eq_fallback hF] at h

theorem mem_of_returns {Fs : List FuncPtr} (h : Returns (returned S Fs) F k x) : F ∈ Fs := by
  induction Fs generalizing S with
  | nil => simp [Returns, returned] at h
  | cons G Fs ih =>
    rcases returns_cons.mp h with ⟨_, _, rfl, _⟩ | h
    · exact List.mem_cons_self
    · exact List.mem_cons_of_mem _ (ih h)

section Carried

variable (hL : TypeDive.Loaded E P.td.ctx) (hf : TypeDive.FilesOk P.td.ctx c.files)
  (h : Committed E n P c P') (hagg : c.doAgg = true)

include hL hf hagg

theorem Committed.not_hasResult_of_unmatched
    (hno : ∀ delF, ¬ CarriedFrom E P c h.td F delF) :
    ¬ HasResult (correctPaths E (redefInfos E P.td.ctx) (c.between E P h.td) c.upPaths).cur.res
      F k x := by
  intro hres
  -- the results of the old functions are dropped
  have hdel : ∀ q ∈ c.upPaths, ∀ b ∈ redefInfos E P.td.ctx q, b.1 ≠ F := by
    rintro q hq b hb rfl
    rcases recorded_correctPaths (Or.inr (mem_of_hasResult hres)) with ⟨p, hp, hF⟩ | ⟨_, hgone⟩
    · obtain ⟨hLtd, hmods, _⟩ := h.loaded hL hf
      exact hf.fresh _ (mem_files_of_new hLtd hmods hp hF)
        (List.mem_map.mpr ⟨_, mod_of_mem_getAllModuleFunctions hL (mem_redefInfos hb), rfl⟩)
    · exact hgone q hq (List.mem_map_of_mem hb)
  have hkeep : HasResult (correctPaths E (redefInfos E P.td.ctx) (c.between E P h.td)
      c.upPaths).cur.res F k x ↔ HasResult (c.between E P h.td).cur.res F k x := by
    refine (Fold.foldl_invariant (I := fun T : State =>
      T.cur.cis = (c.between E P h.td).cur.cis ∧ (HasResult T.cur.res F k x ↔
        HasResult (c.between E P h.td).cur.res F k x)) ⟨rfl, Iff.rfl⟩ ?_).2
    intro T q hq hT
    obtain ⟨hcis, hT⟩ := hT
    have hq' : q ∈ c.upPaths := ExtTreeSet.mem_ofElems.mp (ExtTreeSet.mem_toList.mp hq)
    refine ⟨cis_correctChanges.trans hcis, ?_⟩
    rw [hasResult_correctChanges_unmatched (hdel q hq'), hT]
    rintro p hp rfl
    obtain ⟨G, hG, rfl⟩ := List.mem_map.mp hp
    rw [mapPostToPreLine_congr (hcis.trans (c.cis_between E P h.td))]
    by_contra hm
    obtain ⟨delFL, hdelFL⟩ := Option.ne_none_iff_exists'.mp hm
    refine hno delFL.1 ⟨q, hq', ExtTreeSet.mem_toList.mp hG, ?_⟩
    rw [matchedWith_iff, hdelFL]
    rfl
  obtain ⟨q, hq, hF⟩ := mem_of_mem_changedFuncs
    (mem_of_returns ((hasResult_before hagg).mp (hkeep.mp hres)))
  exact hdel q hq (F, getPrototypeLine E F)
    (List.mem_map.mpr ⟨F, ExtTreeSet.mem_toList.mpr hF, rfl⟩) rfl

theorem Committed.hasResult_correctPaths_iff :
    HasResult (correctPaths E (redefInfos E P.td.ctx) (c.between E P h.td) c.upPaths).cur.res
        F k x ↔
      ∃ delF, CarriedFrom E P c h.td F delF ∧ Returns (c.returnedBefore E P) delF k x := by
  by_cases hmatched : ∃ delF, CarriedFrom E P c h.td F delF
  · obtain ⟨hLtd, hmods, _⟩ := h.loaded hL hf
    obtain ⟨delF, path, hpath, hF, line, hm⟩ := hmatched
    have hm := matchingDelF_iff.mpr hm
    have hmem : (F, getPrototypeLine E F) ∈ redefInfos E h.td.ctx path :=
      List.mem_map.mpr ⟨F, ExtTreeSet.mem_toList.mpr hF, rfl⟩
    have huniq : ∀ G, CarriedFrom E P c h.td F G ↔ delF = G := by
      intro G
      constructor
      · rintro ⟨q, _, hq, hG⟩
        obtain rfl := hLtd.eq_of_mod (mod_of_mem_getAllModuleFunctions hLtd hq)
          (mod_of_mem_getAllModuleFunctions hLtd hF)
        rw [matchedWith_iff, hm] at hG
        exact Option.some.inj hG
      · rintro rfl
        exact ⟨path, hpath, hF, line, matchingDelF_iff.mp hm⟩
    -- nothing was returned for the new function before it was loaded
    have hnone : ¬ Returns (c.returnedBefore E P) F k x := fun hret =>
      hf.fresh _ (mem_files_of_new hLtd hmods hpath hF) (mod_of_returnedBefore hL hret)
    rw [← mapPostToPreLine_congr (c.cis_between E P h.td)] at hm
    rw [hasResult_carried hL hLtd hmods hf hpath hmem hm, hasResult_before hagg,
      hasResult_before hagg, or_iff_right hnone]
    simp only [huniq, exists_eq_left']
  · have hno : ∀ delF, ¬ CarriedFrom E P c h.td F delF := fun delF hdelF => hmatched ⟨delF, hdelF⟩
    simp only [hno, false_and, exists_false, iff_false]
    exact h.not_hasResult_of_unmatched hL hf hagg hno

end Carried

theorem Managed.names_perm {C : Program → Commit → Prop} {seen : List ModPtr} {P : Program}
    (h : Managed E C seen P) : (P.analyzers.map IAnalyzer.name).Perm ["oper", "sub"] := by
  induction h with
  | init n analyzers files outPath hanals _ _ hstep =>
    rw [(tagsOwn_initializeProgram hstep).2]
    exact hanals.map IAnalyzer.name
  | commit n c _ _ _ _ _ hstep ih =>
    obtain ⟨hc⟩ := c.committed hstep
    have hnames : _ = _ := hc.sameNames
    exact hnames ▸ ih

theorem Managed.sub_registered {C : Program → Commit → Prop} {seen : List ModPtr} {P : Program}
    (h : Managed E C seen P) : "sub" ∈ P.analyzers.map IAnalyzer.name :=
  h.names_perm.mem_iff.mpr (by simp)

theorem KeysLive.of_mem_tags (h : KeysLive P) {i idx : ℕ} {t : String}
    (ht : t ∈ P.state.tags i F idx) : InBCFuncs P.td.ctx F := by
  by_contra hF
  rw [State.tags_of_not_hasKey fun hkey => hF (h.tags F hkey)] at ht
  exact ExtTreeSet.not_mem_empty ht

theorem returnedBefore_sub_iff {seen : List ModPtr} (h : Managed E (Faithful E) seen P) :
    Returns (c.returnedBefore E P) F ("sub", "subsys") x ↔
      F ∈ c.preFuncs E P ∧ RelevantSubsys E P.td.ctx F x := by
  have hkeys := keys_live (h.imp fun _ _ _ => trivial)
  have hown := h.tagsOwn
  refine returns_sub_iff.trans (and_congr_right fun _ => ?_)
  exact exists_aggregate_sub_iff h.sub_registered hown fun i G idx t ht => hkeys.of_mem_tags ht

theorem Committed.ownTags_post {seen : List ModPtr} (hP' : Managed E (Faithful E) seen P')
    (h : Committed E n P c P') : P'.td.ctx = h.post.gctx ∧
      (∀ G, InBCFuncs h.post.gctx G → h.post.HasOwnTags E G) ∧
      ∀ i G idx t, t ∈ h.post.tags i G idx → InBCFuncs h.post.gctx G := by
  have hkeys := keys_live (hP'.imp fun _ _ _ => trivial)
  obtain ⟨hnames, htags⟩ := tags_aggregateFunctions (S := h.post) c.doAgg (c.postFuncs E P h.td)
  rw [← h.state_eq] at hnames htags
  have hgctx : P'.td.ctx = h.post.gctx := by
    have hstate := congrArg State.gctx h.state_eq
    rwa [gctx_aggregateFunctions] at hstate
  refine ⟨hgctx, ?_, ?_⟩
  · intro G hG i idx t
    rw [← hgctx] at hG
    rw [← htags, hP'.tagsOwn G hG, hnames.ownTag_iff]
  · intro i G idx t ht
    rw [← htags] at ht
    rw [← hgctx]
    exact hkeys.of_mem_tags ht

theorem Committed.returnedAfter_sub_iff {seen : List ModPtr} (hP' : Managed E (Faithful E) seen P')
    (h : Committed E n P c P') :
    Returns h.returnedAfter F ("sub", "subsys") x ↔
      F ∈ c.postFuncs E P h.td ∧ RelevantSubsys E P'.td.ctx F x := by
  obtain ⟨hgctx, hown, hlive⟩ := h.ownTags_post hP'
  refine returns_sub_iff.trans (and_congr_right fun _ => ?_)
  rw [hgctx]
  apply exists_aggregate_sub_iff _ hown hlive
  have hnames := (tags_aggregateFunctions (S := h.post) c.doAgg (c.postFuncs E P h.td)).1
  rw [← h.state_eq] at hnames
  have hsame : P'.analyzers.map IAnalyzer.name = h.post.analyzers.map IAnalyzer.name := hnames
  have hsub := hP'.sub_registered
  rwa [hsame] at hsub

/-- In a run of faithful commits, the results that a commit has for the subsystem-level
analyzer, for every function there is. -/
theorem subsys_results_iff {seen : List ModPtr} (h : Managed E (Faithful E) seen P)
    (hp : c.upPaths.Nodup) (hm : (c.files.map Prod.snd).Nodup)
    (hfresh : ∀ f ∈ c.files, f.2 ∉ P.td.ctx.modules.map Prod.fst)
    (hfaith : Faithful E P c) (hagg : c.doAgg = true) (hstep : c.run E n P = some P') :
    ∃ hc : Committed E n P c P', ∀ F x, HasResult P'.cur.res F ("sub", "subsys") x ↔
      (∃ delF ∈ c.preFuncs E P, CarriedFrom E P c hc.td F delF ∧
        RelevantSubsys E P.td.ctx delF x) ∨
      (F ∈ c.postFuncs E P hc.td ∧ RelevantSubsys E P'.td.ctx F x) := by
  obtain ⟨hc⟩ := c.committed hstep
  refine ⟨hc, ?_⟩
  intro F x
  rw [hc.hasResult_iff hagg,
    hc.hasResult_correctPaths_iff h.loaded.1 ⟨hp, hm, hfresh⟩ hagg,
    hc.returnedAfter_sub_iff (h.commit n c hp hm hfresh hfaith hstep)]
  simp only [returnedBefore_sub_iff h]
  apply or_congr _ Iff.rfl
  apply exists_congr
  intro delF
  exact and_left_comm

end Commit

theorem subsys_results_iff_changed : ∃ P P', readerCommit.run readerFiles 2 P = some P' ∧
    ∃ hc : Committed readerFiles 2 P readerCommit P', ∀ F x,
      HasResult P'.cur.res F ("sub", "subsys") x ↔
        (∃ delF ∈ readerCommit.preFuncs readerFiles P,
          CarriedFrom readerFiles P readerCommit hc.td F delF ∧
            RelevantSubsys readerFiles P.td.ctx delF x) ∨
        (F ∈ readerCommit.postFuncs readerFiles P hc.td ∧
          RelevantSubsys readerFiles P'.td.ctx F x) := by
  have hrun : ((initializeProgram readerFiles 2 registeredAnalyzers
      (TypeDive.parsed [("a.bc", 0)]) "out").bind
      (readerCommit.run readerFiles 2)).isSome = true := by
    decide
  obtain ⟨P', hP'⟩ := Option.isSome_iff_exists.mp hrun
  obtain ⟨P, hP, hstep⟩ := Option.bind_eq_some_iff.mp hP'
  have hmanaged : ∀ C, Managed readerFiles C [0] P := fun C =>
    .init 2 registeredAnalyzers [("a.bc", 0)] "out" (List.Perm.refl _) (by decide) (by decide) hP
  have hnew := (hmanaged fun _ _ => True).fresh_of_seen
    (show ∀ f ∈ readerCommit.files, f.2 ∉ [0] by decide)
  exact ⟨P, P', hstep, subsys_results_iff (hmanaged _) (by decide) (by decide) hnew
    (faithful_readerCommit (hmanaged _) (by decide)) rfl hstep⟩

end AnalyzerManager

end Cisa

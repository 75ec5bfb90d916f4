import Cisa.AnalyzerManager.CommittedFiles
import Cisa.AnalyzerManager.SubsystemResults

/-!
# The functions that have files

Whatever has been recorded for a function has been recorded by all analyzers, and no result is
empty, since a change that no subsystem is relevant to is taken to be relevant to all. So a
commit writes the files of all analyzers for the changed functions, under their new names, and
no others.
-/

namespace Cisa

open Std

namespace AnalyzerManager

variable {E : Env} {n : ℕ} {S S' : State} {F G : FuncPtr} {name : String} {names : List String}
  {res : Results}

/-- There is a result of the analyzer for the function. -/
def Records (res : Results) (F : FuncPtr) (name : String) : Prop := name ∈ res.getD F ∅

/-- The result is printed, and names a subsystem if it is that of the subsystem-level analyzer. -/
def ReturnOk (name : String) (aret : AnalyzerReturn) : Prop :=
  (∃ kind, kind ∈ aret) ∧ (name = "sub" → ∃ x, x ∈ aret.row "subsys")

/-- All analyzers have recorded a result for a function, or none has. -/
structure AllOrNone (names : List String) (res : Results) : Prop where
  ok : ∀ F name aret, (res.getD F ∅)[name]? = some aret → name ∈ names ∧ ReturnOk name aret
  all : ∀ F name, Records res F name → ∀ name' ∈ names, Records res F name'

theorem getElem?_addResult {nm : String} {aret : AnalyzerReturn} :
    ((addResult res G nm aret).getD F ∅)[name]? =
      if G = F ∧ nm = name then some (mergeReturn (resultOf res G nm) aret)
      else (res.getD F ∅)[name]? := by
  unfold addResult
  by_cases hG : G = F
  · subst hG
    rw [ExtTreeMap.getD_insert_self, ExtTreeMap.getElem?_insert_eq_ite]
    simp
  · rw [ExtTreeMap.getD_insert, if_neg (by simpa using hG), if_neg fun h => hG h.1]

theorem records_iff : Records res F name ↔ ∃ aret, (res.getD F ∅)[name]? = some aret := by
  rw [Records, ExtTreeMap.mem_iff_isSome_getElem?, Option.isSome_iff_exists]

theorem records_addResult {nm : String} {aret : AnalyzerReturn} :
    Records (addResult res G nm aret) F name ↔ Records res F name ∨ (G = F ∧ nm = name) := by
  rw [records_iff, records_iff, getElem?_addResult]
  split_ifs with h
  · simp [h]
  · simp [h]

theorem ReturnOk.mergeReturn {old new : AnalyzerReturn} (h : ReturnOk name new) :
    ReturnOk name (mergeReturn old new) := by
  constructor
  · obtain ⟨kind, hkind⟩ := h.1
    obtain ⟨relset, hrelset⟩ := Option.isSome_iff_exists.mp
      (ExtTreeMap.mem_iff_isSome_getElem?.mp hkind)
    refine ⟨kind, (Fold.foldl_or (P := fun m : AnalyzerReturn => kind ∈ m)
      (Q := fun p : String × RelSet => p.1 = kind) ?_ _ _).mpr (Or.inr ?_)⟩
    · intro m p
      rw [ExtTreeMap.mem_addAll, or_comm]
    · exact ⟨(kind, relset), ExtTreeMap.mem_toList_iff_getElem?_eq_some.mpr hrelset, rfl⟩
  · intro hname
    obtain ⟨x, hx⟩ := h.2 hname
    exact ⟨x, mem_mergeReturn.mpr (Or.inr hx)⟩

theorem ok_addResult {nm : String} {aret : AnalyzerReturn}
    (h : ∀ F name aret, (res.getD F ∅)[name]? = some aret → name ∈ names ∧ ReturnOk name aret)
    (hnm : nm ∈ names) (haret : ReturnOk nm aret) (F : FuncPtr) (name : String)
    (aret' : AnalyzerReturn) (hget : ((addResult res G nm aret).getD F ∅)[name]? = some aret') :
    name ∈ names ∧ ReturnOk name aret' := by
  rw [getElem?_addResult] at hget
  split_ifs at hget with heq
  · obtain rfl := Option.some.inj hget
    obtain ⟨_, rfl⟩ := heq
    exact ⟨hnm, haret.mergeReturn⟩
  · exact h F name aret' hget

/-- A subsystem is always returned: if there is none among the callers, all are. -/
theorem exists_mem_aggregate_sub (A : SubsystemLevelAnalyzer) (ctx : GlobalContext)
    (F : FuncPtr) : ∃ x, x ∈ (A.aggregate ctx F).row "subsys" := by
  unfold SubsystemLevelAnalyzer.aggregate
  dsimp only
  generalize ctx.visitSubtreeBFS F .up
    (fun subsys CurF => (.next, subsys ∪ A.getTags CurF 0)) ∅ = subsys
  simp only [ExtTreeMap.mem_row_insert, true_and, ne_eq, not_true_eq_false, false_and, or_false]
  cases hempty : subsys.isEmpty with
  | true =>
    rw [if_pos rfl]
    exact ⟨"wav", by decide⟩
  | false => exact ExtTreeSet.isEmpty_eq_false_iff_exists.mp hempty

theorem returnOk_aggregate (A : IAnalyzer) (ctx : GlobalContext) (F : FuncPtr) :
    ReturnOk A.name (A.aggregate ctx F).1 := by
  cases A with
  | oper A =>
    refine ⟨⟨"toplvs", ?_⟩, by simp [IAnalyzer.name]⟩
    simp [IAnalyzer.aggregate, OperationLevelAnalyzer.aggregate]
  | sub A =>
    refine ⟨⟨"subsys", ?_⟩, fun _ => exists_mem_aggregate_sub A ctx F⟩
    simp [IAnalyzer.aggregate, SubsystemLevelAnalyzer.aggregate]

theorem allOrNone_empty : AllOrNone names ∅ := by
  constructor <;> simp [Records]

theorem records_enterResults {gctx : GlobalContext} {anals : List IAnalyzer} :
    Records (enterResults gctx G anals res) F name ↔
      Records res F name ∨ ∃ A ∈ anals, G = F ∧ A.name = name := by
  apply Fold.foldl_or (P := fun r : Results => Records r F name)
  intro r A
  exact records_addResult

theorem AllOrNone.enterResults {gctx : GlobalContext} {anals : List IAnalyzer}
    (h : AllOrNone (anals.map IAnalyzer.name) res) :
    AllOrNone (anals.map IAnalyzer.name) (enterResults gctx G anals res) := by
  constructor
  · apply Fold.foldl_invariant (I := fun r : Results => ∀ F name aret,
      (r.getD F ∅)[name]? = some aret →
        name ∈ anals.map IAnalyzer.name ∧ ReturnOk name aret) h.ok
    intro r A hA hr
    exact ok_addResult hr (List.mem_map_of_mem hA) (returnOk_aggregate A gctx G)
  · intro F name hrec name' hname'
    rcases records_enterResults.mp hrec with hold | ⟨A, _, hG, _⟩
    · exact records_enterResults.mpr (Or.inl (h.all F name hold name' hname'))
    · obtain ⟨B, hB, hB'⟩ := List.mem_map.mp hname'
      exact records_enterResults.mpr (Or.inr ⟨B, hB, hG, hB'⟩)

theorem AllOrNone.copyResults {delF newF : FuncPtr} (h : AllOrNone names res) :
    AllOrNone names (copyResults res delF newF) := by
  have hstart : ∀ A, (res.insert delF (res.getD delF ∅)).getD A ∅ = res.getD A ∅ := by
    intro A
    by_cases hA : delF = A
    · simp [hA]
    · simp [ExtTreeMap.getD_insert, hA]
  have hrecords : ∀ F name, Records (AnalyzerManager.copyResults res delF newF) F name ↔
      Records res F name ∨ (newF = F ∧ Records res delF name) := by
    intro F name
    unfold AnalyzerManager.copyResults
    rw [Fold.foldl_or (P := fun r : Results => Records r F name)
      (Q := fun p : String × AnalyzerReturn => newF = F ∧ p.1 = name)
      fun r p => records_addResult, Records, hstart, records_iff (F := delF)]
    apply or_congr Iff.rfl
    constructor
    · rintro ⟨p, hp, hF, rfl⟩
      exact ⟨hF, p.2, ExtTreeMap.mem_toList_iff_getElem?_eq_some.mp hp⟩
    · rintro ⟨hF, aret, haret⟩
      exact ⟨(name, aret), ExtTreeMap.mem_toList_iff_getElem?_eq_some.mpr haret, hF, rfl⟩
  constructor
  · apply Fold.foldl_invariant (I := fun r : Results => ∀ F name aret,
      (r.getD F ∅)[name]? = some aret → name ∈ names ∧ ReturnOk name aret)
    · intro F name aret haret
      rw [hstart] at haret
      exact h.ok F name aret haret
    · intro r p hp hr
      obtain ⟨hname, hok⟩ :=
        h.ok delF p.1 p.2 (ExtTreeMap.mem_toList_iff_getElem?_eq_some.mp hp)
      exact ok_addResult hr hname hok
  · intro F name hrec name' hname'
    rcases (hrecords F name).mp hrec with hold | ⟨hF, hold⟩
    · exact (hrecords F name').mpr (Or.inl (h.all F name hold name' hname'))
    · exact (hrecords F name').mpr (Or.inr ⟨hF, h.all delF name hold name' hname'⟩)

theorem AllOrNone.erase (h : AllOrNone names res) : AllOrNone names (res.erase G) := by
  have hget : ∀ F, (res.erase G).getD F ∅ = if G = F then ∅ else res.getD F ∅ := by
    intro F
    rw [ExtTreeMap.getD_erase]
    simp
  constructor
  · intro F name aret haret
    rw [hget] at haret
    split_ifs at haret
    · simp at haret
    · exact h.ok F name aret haret
  · intro F name hrec name' hname'
    unfold Records at hrec ⊢
    rw [hget] at hrec ⊢
    split_ifs at hrec ⊢
    · simp at hrec
    · exact h.all F name hrec name' hname'

theorem allOrNone_aggregateFunctions {doAgg : Bool} {Fs : List FuncPtr}
    (hnames : S.analyzers.map IAnalyzer.name = names) (h : AllOrNone names S.cur.res) :
    AllOrNone names (aggregateFunctions doAgg S Fs).cur.res := by
  unfold aggregateFunctions
  split_ifs
  · refine (Fold.foldl_invariant (I := fun T : State =>
      T.analyzers.map IAnalyzer.name = names ∧ AllOrNone names T.cur.res) ⟨hnames, h⟩ ?_).2
    intro T F _ hT
    rw [aggregateFunction_eq]
    constructor
    · simpa [Function.comp_def] using hT.1
    · obtain ⟨rfl, hres⟩ := hT
      exact hres.enterResults
  · exact h

theorem allOrNone_correctPaths {delInfos : String → List FunctionLinePair}
    {upPaths : List String} (h : AllOrNone names S.cur.res) :
    AllOrNone names (correctPaths E delInfos S upPaths).cur.res := by
  have hchange : ∀ (T : State) q dels p, AllOrNone names T.cur.res →
      AllOrNone names (correctChange q dels T p).cur.res := by
    intro T q dels p hT
    unfold correctChange
    split
    · exact hT.copyResults
    · exact hT
  apply Fold.foldl_invariant (I := fun T : State => AllOrNone names T.cur.res) h
  intro T q _ hT
  apply Fold.foldl_invariant (I := fun T : State => AllOrNone names T.cur.res)
  · exact Fold.foldl_invariant (I := fun T : State => AllOrNone names T.cur.res) hT
      fun U p _ hU => hchange U q _ p hU
  · exact fun U p _ hU => hU.erase

section Commit

variable {P P' : Program} {c : Commit}

theorem Committed.allOrNone (h : Committed E n P c P') :
    AllOrNone (P.analyzers.map IAnalyzer.name) P'.cur.res := by
  have hbefore : AllOrNone (P.analyzers.map IAnalyzer.name) (c.before E P).cur.res :=
    allOrNone_aggregateFunctions rfl allOrNone_empty
  have hcorrect : AllOrNone (P.analyzers.map IAnalyzer.name)
      (correctPaths E (redefInfos E P.td.ctx) (c.between E P h.td) c.upPaths).cur.res :=
    allOrNone_correctPaths hbefore
  have hstate : P'.cur.res =
      (aggregateFunctions c.doAgg h.post (c.postFuncs E P h.td)).cur.res :=
    congrArg (fun U : State => U.cur.res) h.state_eq
  rw [hstate]
  apply allOrNone_aggregateFunctions
  · exact h.sameNames_post
  · rw [cur_updateFunctions h.post_eq]
    exact hcorrect

/-- Where all analyzers record or none does, it is enough to look at one of them. -/
theorem AllOrNone.printed_iff {cur : Context} (h : AllOrNone names cur.res)
    (hsub : "sub" ∈ names) : (∃ aret, Printed cur F name aret) ↔
      name ∈ names ∧ ∃ x, HasResult cur.res F ("sub", "subsys") x := by
  constructor
  · rintro ⟨aret, ⟨rets, hF, haret⟩, _⟩
    have hrets : cur.res.getD F ∅ = rets := by
      rw [ExtTreeMap.getD_eq_getD_getElem?, hF, Option.getD_some]
    rw [← hrets] at haret
    refine ⟨(h.ok F name aret haret).1, ?_⟩
    obtain ⟨ret, hret⟩ := records_iff.mp (h.all F name (records_iff.mpr ⟨aret, haret⟩) "sub" hsub)
    obtain ⟨x, hx⟩ := (h.ok F "sub" ret hret).2.2 rfl
    refine ⟨x, ?_⟩
    unfold HasResult resultOf
    rwa [ExtTreeMap.getD_eq_getD_getElem?, hret, Option.getD_some]
  · rintro ⟨hname, x, hx⟩
    have hrec : Records cur.res F "sub" := by
      by_contra hno
      simp [HasResult, resultOf, ExtTreeMap.getD_eq_fallback hno] at hx
    obtain ⟨aret, haret⟩ := records_iff.mp (h.all F "sub" hrec name hname)
    refine ⟨aret, ⟨cur.res.getD F ∅, ?_, haret⟩, ?_⟩
    · obtain ⟨rets, hrets⟩ := Option.isSome_iff_exists.mp
        (ExtTreeMap.mem_iff_isSome_getElem?.mp (mem_of_hasResult hx))
      rw [ExtTreeMap.getD_eq_getD_getElem?, hrets, Option.getD_some]
    · obtain ⟨kind, hkind⟩ := (h.ok F name aret haret).2.1
      rw [ExtTreeMap.isEmpty_eq_false_iff]
      rintro rfl
      exact ExtTreeMap.not_mem_empty hkind

theorem exists_returns_iff (hsub : "sub" ∈ S.analyzers.map IAnalyzer.name) {Fs : List FuncPtr} :
    (∃ x, Returns (returned S Fs) F ("sub", "subsys") x) ↔ F ∈ Fs := by
  simp only [returns_sub_iff]
  constructor
  · rintro ⟨_, hF, _⟩
    exact hF
  · intro hF
    obtain ⟨A, hA, hname⟩ := List.mem_map.mp hsub
    cases A with
    | oper A => simp [IAnalyzer.name] at hname
    | sub A =>
      obtain ⟨x, hx⟩ := exists_mem_aggregate_sub A S.gctx F
      exact ⟨x, hF, A, hA, hx⟩

theorem getElem?_committed_iff {outPath path : String} {cur : Context} :
    (∃ text, (committed E outPath cur)[path]? = some text) ↔
      ∃ F name, (∃ aret, Printed cur F name aret) ∧ path = resultPath E outPath cur F name := by
  constructor
  · rintro ⟨text, htext⟩
    obtain ⟨F, name, aret, haret, hpath, _⟩ :=
      mem_commit.mp (ExtTreeMap.mem_of_getElem?_insertMany htext)
    exact ⟨F, name, ⟨aret, haret⟩, hpath⟩
  · rintro ⟨F, name, ⟨aret, haret⟩, hpath⟩
    obtain ⟨text, _, htext⟩ := ExtTreeMap.exists_getElem?_insertMany
      (m := (∅ : SortedMap String String)) (mem_commit.mpr ⟨F, name, aret, haret, hpath, rfl⟩)
    exact ⟨text, htext⟩

theorem Committed.exists_hasResult_iff (h : Committed E n P c P')
    (hL : TypeDive.Loaded E P.td.ctx) (hf : TypeDive.FilesOk P.td.ctx c.files)
    (hagg : c.doAgg = true) (hsub : "sub" ∈ P.analyzers.map IAnalyzer.name) :
    (∃ x, HasResult P'.cur.res F ("sub", "subsys") x) ↔
      (∃ delF ∈ c.preFuncs E P, CarriedFrom E P c h.td F delF) ∨ F ∈ c.postFuncs E P h.td := by
  have hnames : h.post.analyzers.map IAnalyzer.name = P.analyzers.map IAnalyzer.name :=
    h.sameNames_post
  have hpost : "sub" ∈ h.post.analyzers.map IAnalyzer.name := by
    rwa [hnames]
  simp only [h.hasResult_iff hagg, h.hasResult_correctPaths_iff hL hf hagg, exists_or]
  apply or_congr
  · have hreturns : ∀ delF, (∃ x, Returns (c.returnedBefore E P) delF ("sub", "subsys") x) ↔
        delF ∈ c.preFuncs E P := fun delF => exists_returns_iff hsub
    rw [exists_comm]
    apply exists_congr
    intro delF
    rw [exists_and_left, hreturns, and_comm]
  · exact exists_returns_iff hpost

/-- In every run, a commit whose results are aggregated writes the files of both analyzers for
the changed new functions and for those that are matched with a changed old one, and no others. -/
theorem files_of_commit_iff {C : Program → Commit → Prop} {seen : List ModPtr}
    (h : Managed E C seen P) (hp : c.upPaths.Nodup) (hm : (c.files.map Prod.snd).Nodup)
    (hfresh : ∀ f ∈ c.files, f.2 ∉ P.td.ctx.modules.map Prod.fst) (hagg : c.doAgg = true)
    (hstep : c.run E n P = some P') :
    ∃ hc : Committed E n P c P', ∀ path,
      (∃ text, (committed E P'.outPath P'.cur)[path]? = some text) ↔
        ∃ F, ((∃ delF ∈ c.preFuncs E P, CarriedFrom E P c hc.td F delF) ∨
            F ∈ c.postFuncs E P hc.td) ∧
          ∃ name ∈ ["oper", "sub"], path = resultPath E P'.outPath P'.cur F name := by
  obtain ⟨hc⟩ := c.committed hstep
  refine ⟨hc, ?_⟩
  have hsub := h.sub_registered
  intro path
  rw [getElem?_committed_iff]
  apply exists_congr
  intro F
  simp only [hc.allOrNone.printed_iff hsub,
    hc.exists_hasResult_iff h.loaded.1 ⟨hp, hm, hfresh⟩ hagg hsub, h.names_perm.mem_iff]
  constructor
  · rintro ⟨name, ⟨hname, hF⟩, hpath⟩
    exact ⟨hF, name, hname, hpath⟩
  · rintro ⟨hF, name, hname, hpath⟩
    exact ⟨name, ⟨hname, hF⟩, hpath⟩

theorem files_of_commit_iff_changed : ∃ P P', readerCommit.run readerFiles 2 P = some P' ∧
    ∃ hc : Committed readerFiles 2 P readerCommit P', ∀ path,
      (∃ text, (committed readerFiles P'.outPath P'.cur)[path]? = some text) ↔
        ∃ F, ((∃ delF ∈ readerCommit.preFuncs readerFiles P,
            CarriedFrom readerFiles P readerCommit hc.td F delF) ∨
            F ∈ readerCommit.postFuncs readerFiles P hc.td) ∧
          ∃ name ∈ ["oper", "sub"], path = resultPath readerFiles P'.outPath P'.cur F name := by
  obtain ⟨P, P', hP, hstep⟩ := exists_readerCommit
  exact ⟨P, P', hstep, files_of_commit_iff hP (by decide) (by decide)
    (hP.fresh_of_seen (by decide)) rfl hstep⟩

end Commit

end AnalyzerManager

end Cisa

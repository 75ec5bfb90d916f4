import Cisa.AnalyzerManager.LiveKeys

/-!
# Results of functions that keep their prototype

The results of an old function are copied to every new function matched with it, and
dropped once all new functions of its path have been looked at. The second aggregation
adds to what was copied.
-/

namespace Cisa

open Std

namespace AnalyzerManager

variable {E : Env} {n : ℕ} {S S' : State} {F G : FuncPtr} {path : String}
  {delFlps newFlps : List FunctionLinePair}

/-- What `Aggregate` returns when the functions are aggregated in turn: the function, the
name of the analyzer and the result. -/
def returned : State → List FuncPtr → List (FuncPtr × String × AnalyzerReturn)
  | _, [] => []
  | S, F :: Fs =>
    S.analyzers.map (fun A => (F, A.name, (A.aggregate S.gctx F).1)) ++
      returned (aggregateFunction S F) Fs

/-- The results of `F` hold `x`, for the analyzer and the result of these names. -/
def HasResult (res : Results) (F : FuncPtr) (k : String × String) (x : String) : Prop :=
  x ∈ (resultOf res F k.1).row k.2

def Returns (trace : List (FuncPtr × String × AnalyzerReturn)) (F : FuncPtr)
    (k : String × String) (x : String) : Prop :=
  ∃ ret, (F, k.1, ret) ∈ trace ∧ x ∈ ret.row k.2

section Results

variable {res : Results} {k : String × String} {x : String}

theorem mem_mergeReturn {old new : AnalyzerReturn} {name : String} :
    x ∈ (mergeReturn old new).row name ↔ x ∈ old.row name ∨ x ∈ new.row name := by
  unfold mergeReturn
  rw [Fold.foldl_or (P := fun m : AnalyzerReturn => x ∈ m.row name)
    (Q := fun p : String × RelSet => p.1 = name ∧ x ∈ p.2)]
  · rw [ExtTreeMap.mem_row_iff_exists (m := new)]
  · intro m p
    rw [ExtTreeMap.mem_row_addAll, or_comm]

theorem hasResult_addResult {name : String} {aret : AnalyzerReturn} :
    HasResult (addResult res G name aret) F k x ↔
      HasResult res F k x ∨ (G = F ∧ name = k.1 ∧ x ∈ aret.row k.2) := by
  unfold HasResult resultOf addResult
  by_cases hG : G = F
  · subst hG
    by_cases hname : name = k.1
    · subst hname
      simp [mem_mergeReturn, resultOf]
    · simp [ExtTreeMap.getD_insert, hname]
  · simp [ExtTreeMap.getD_insert, hG]

theorem hasResult_enterResults {gctx : GlobalContext} {anals : List IAnalyzer} :
    HasResult (enterResults gctx G anals res) F k x ↔ HasResult res F k x ∨
      ∃ A ∈ anals, G = F ∧ A.name = k.1 ∧ x ∈ (A.aggregate gctx G).1.row k.2 := by
  apply Fold.foldl_or (P := fun r : Results => HasResult r F k x)
  intro r A
  exact hasResult_addResult

theorem hasResult_copyResults {delF newF : FuncPtr} :
    HasResult (copyResults res delF newF) F k x ↔
      HasResult res F k x ∨ (newF = F ∧ HasResult res delF k x) := by
  have hstart : ∀ A, (res.insert delF (res.getD delF ∅)).getD A ∅ = res.getD A ∅ := by
    intro A
    by_cases hA : delF = A
    · simp [hA]
    · simp [ExtTreeMap.getD_insert, hA]
  unfold copyResults
  rw [Fold.foldl_or (P := fun r : Results => HasResult r F k x)
    (Q := fun p : String × AnalyzerReturn => newF = F ∧ p.1 = k.1 ∧ x ∈ p.2.row k.2)]
  · have hold : HasResult (res.insert delF (res.getD delF ∅)) F k x ↔ HasResult res F k x := by
      unfold HasResult resultOf
      rw [hstart]
    rw [hold]
    constructor
    · intro h
      rcases h with h | ⟨p, hp, hF, hname, hx⟩
      · exact Or.inl h
      · right
        refine ⟨hF, ?_⟩
        unfold HasResult resultOf
        rw [ExtTreeMap.getD_eq_getD_getElem?, ← hname,
          ExtTreeMap.mem_toList_iff_getElem?_eq_some.mp hp]
        exact hx
    · intro h
      rcases h with h | ⟨hF, h⟩
      · exact Or.inl h
      · right
        unfold HasResult resultOf at h
        rw [ExtTreeMap.getD_eq_getD_getElem?] at h
        cases haret : (res.getD delF ∅)[k.1]? with
        | none => simp [haret] at h
        | some aret =>
          rw [haret, Option.getD_some] at h
          exact ⟨(k.1, aret), ExtTreeMap.mem_toList_iff_getElem?_eq_some.mpr haret, hF, rfl, h⟩
  · intro r p
    exact hasResult_addResult

end Results

theorem hasResult_aggregateFunctions {Fs : List FuncPtr} {k : String × String} {x : String} :
    HasResult (Fs.foldl aggregateFunction S).cur.res F k x ↔
      HasResult S.cur.res F k x ∨ Returns (returned S Fs) F k x := by
  induction Fs generalizing S with
  | nil => simp [returned, Returns]
  | cons G Fs ih =>
    have hstep : HasResult (aggregateFunction S G).cur.res F k x ↔ HasResult S.cur.res F k x ∨
        ∃ A ∈ S.analyzers, G = F ∧ A.name = k.1 ∧ x ∈ (A.aggregate S.gctx G).1.row k.2 := by
      rw [aggregateFunction_eq]
      exact hasResult_enterResults
    rw [List.foldl_cons, ih, hstep, or_assoc]
    apply or_congr Iff.rfl
    unfold Returns
    rw [returned]
    simp only [List.mem_append, List.mem_map, Prod.mk.injEq]
    constructor
    · intro h
      rcases h with ⟨A, hA, rfl, hname, hx⟩ | ⟨ret, hret, hx⟩
      · exact ⟨_, Or.inl ⟨A, hA, rfl, hname, rfl⟩, hx⟩
      · exact ⟨ret, Or.inr hret, hx⟩
    · intro h
      obtain ⟨ret, ⟨A, hA, rfl, hname, rfl⟩ | hret, hx⟩ := h
      · exact Or.inl ⟨A, hA, rfl, hname, hx⟩
      · exact Or.inr ⟨ret, hret, hx⟩

section Correct

variable {k : String × String} {x : String}

theorem hasResult_correctChange {newFL : FunctionLinePair} :
    HasResult (correctChange path delFlps S newFL).cur.res F k x ↔ HasResult S.cur.res F k x ∨
      (newFL.1 = F ∧ ∃ delFL,
        matchingDelF (mapPostToPreLine S.cur path newFL.2) delFlps = some delFL ∧
          HasResult S.cur.res delFL.1 k x) := by
  unfold correctChange
  cases matchingDelF (mapPostToPreLine S.cur path newFL.2) delFlps with
  | none => simp
  | some delFL =>
    rw [hasResult_copyResults]
    simp

theorem hasResult_removeFunctions (hne : ∀ p ∈ delFlps, p.1 ≠ F) :
    HasResult (delFlps.foldl removeFunction S).cur.res F k x ↔ HasResult S.cur.res F k x := by
  apply Fold.foldl_invariant (I := fun T : State =>
    HasResult T.cur.res F k x ↔ HasResult S.cur.res F k x) Iff.rfl
  intro T p hp hT
  rw [← hT]
  unfold HasResult resultOf removeFunction
  rw [ExtTreeMap.getD_erase]
  simp [hne p hp]

theorem hasResult_correctChanges_of_ne (hnew : ∀ p ∈ newFlps, p.1 ≠ F)
    (hdel : ∀ p ∈ delFlps, p.1 ≠ F) :
    HasResult (correctChanges S path delFlps newFlps).cur.res F k x ↔
      HasResult S.cur.res F k x := by
  rw [correctChanges, hasResult_removeFunctions hdel]
  apply Fold.foldl_invariant (I := fun T : State =>
    HasResult T.cur.res F k x ↔ HasResult S.cur.res F k x) Iff.rfl
  intro T p hp hT
  rw [hasResult_correctChange, hT]
  constructor
  · intro h
    rcases h with h | ⟨hF, _⟩
    · exact h
    · exact absurd hF (hnew p hp)
  · exact Or.inl

/-- What the match of a new function adds to its results; the results of the old function
are still there, whichever new functions have been matched with it before. -/
theorem hasResult_correctChanges {newF delF : FuncPtr} {line l : ℤ}
    (hnew : (newFlps.map Prod.fst).Nodup)
    (hdisj : ∀ p ∈ newFlps, ∀ q ∈ delFlps, p.1 ≠ q.1) (hmem : (newF, line) ∈ newFlps)
    (hmatch : matchingDelF (mapPostToPreLine S.cur path line) delFlps = some (delF, l)) :
    HasResult (correctChanges S path delFlps newFlps).cur.res newF k x ↔
      HasResult S.cur.res newF k x ∨ HasResult S.cur.res delF k x := by
  have hdel : ∀ p ∈ delFlps, p.1 ≠ newF := fun p hp h => hdisj _ hmem p hp h.symm
  rw [correctChanges, hasResult_removeFunctions hdel]
  rw [Fold.foldl_or_of (f := correctChange path delFlps)
    (P := fun T : State => HasResult T.cur.res newF k x)
    (I := fun T : State => T.cur.cis = S.cur.cis ∧ ∀ q ∈ delFlps,
      (HasResult T.cur.res q.1 k x ↔ HasResult S.cur.res q.1 k x))
    (Q := fun p => p.1 = newF ∧ ∃ delFL,
      matchingDelF (mapPostToPreLine S.cur path p.2) delFlps = some delFL ∧
        HasResult S.cur.res delFL.1 k x) ⟨rfl, fun _ _ => Iff.rfl⟩]
  · apply or_congr Iff.rfl
    constructor
    · intro h
      obtain ⟨p, hp, hF, delFL, hm, hx⟩ := h
      obtain rfl := List.inj_on_of_nodup_map hnew hp hmem hF
      obtain rfl := Option.some.inj (hm.symm.trans hmatch)
      exact hx
    · exact fun h => ⟨(newF, line), hmem, rfl, (delF, l), hmatch, h⟩
  · intro T p hp hT
    obtain ⟨hcis, hold⟩ := hT
    refine ⟨⟨cis_correctChange.trans hcis, ?_⟩, ?_⟩
    · intro q hq
      rw [hasResult_correctChange, hold q hq]
      constructor
      · intro h
        rcases h with h | ⟨hF, _⟩
        · exact h
        · exact absurd hF (hdisj p hp q hq)
      · exact Or.inl
    · rw [hasResult_correctChange, mapPostToPreLine_congr hcis]
      apply or_congr Iff.rfl
      apply and_congr Iff.rfl
      apply exists_congr
      intro delFL
      apply and_congr_right
      intro hm
      exact hold delFL (List.mem_of_find?_eq_some (matchingDelF_iff.mp hm).1)

theorem cis_correctChanges : (correctChanges S path delFlps newFlps).cur.cis = S.cur.cis :=
  (Fold.foldl_frame (f := removeFunction) (p := fun T : State => T.cur.cis)
    (fun _ _ => rfl) _ _).trans cis_foldl_correctChange

theorem hasResult_correctPaths {delInfos : String → List FunctionLinePair} {upPaths : List String}
    {newF delF : FuncPtr} {line l : ℤ} (hp : path ∈ upPaths)
    (hmem : (newF, line) ∈ redefInfos E S.gctx path)
    (hmatch : matchingDelF (mapPostToPreLine S.cur path line) (delInfos path) = some (delF, l))
    (hdisj : ∀ p ∈ upPaths, ∀ q ∈ upPaths, ∀ a ∈ redefInfos E S.gctx p, ∀ b ∈ delInfos q, a.1 ≠ b.1)
    (hnew : ∀ q ∈ upPaths, q ≠ path → ∀ a ∈ redefInfos E S.gctx q, a.1 ≠ newF)
    (hdel : ∀ q ∈ upPaths, q ≠ path → ∀ b ∈ delInfos q, b.1 ≠ delF) :
    HasResult (correctPaths E delInfos S upPaths).cur.res newF k x ↔
      HasResult S.cur.res newF k x ∨ HasResult S.cur.res delF k x := by
  have hmatched : (delF, l) ∈ delInfos path :=
    List.mem_of_find?_eq_some (matchingDelF_iff.mp hmatch).1
  have hnodup : ((redefInfos E S.gctx path).map Prod.fst).Nodup := by
    rw [map_fst_redefInfos]
    exact ExtTreeSet.nodup_toList
  have hup : ∀ {q}, q ∈ (ExtTreeSet.ofElems upPaths).toList ↔ q ∈ upPaths := by simp
  have hkeepNew : ∀ (T : State), ∀ q ∈ upPaths, q ≠ path →
      (HasResult (correctChanges T q (delInfos q) (redefInfos E S.gctx q)).cur.res newF k x ↔
        HasResult T.cur.res newF k x) := fun T q hq hne =>
    hasResult_correctChanges_of_ne (hnew q hq hne)
      fun b hb h => hdisj path hp q hq _ hmem b hb h.symm
  have hkeepDel : ∀ (T : State), ∀ q ∈ upPaths, q ≠ path →
      (HasResult (correctChanges T q (delInfos q) (redefInfos E S.gctx q)).cur.res delF k x ↔
        HasResult T.cur.res delF k x) := fun T q hq hne =>
    hasResult_correctChanges_of_ne
      (fun a ha h => hdisj q hq path hp a ha _ hmatched h) (hdel q hq hne)
  unfold correctPaths
  apply Fold.foldl_once (x := path) (P := fun T : State => HasResult T.cur.res newF k x ↔
      HasResult S.cur.res newF k x ∨ HasResult S.cur.res delF k x)
    (I := fun T : State => T.cur.cis = S.cur.cis ∧
      (HasResult T.cur.res newF k x ↔ HasResult S.cur.res newF k x) ∧
      (HasResult T.cur.res delF k x ↔ HasResult S.cur.res delF k x))
    ExtTreeSet.nodup_toList (hup.mpr hp) ⟨rfl, Iff.rfl, Iff.rfl⟩
  · intro T q hq hne hT
    exact ⟨cis_correctChanges.trans hT.1, (hkeepNew T q (hup.mp hq) hne).trans hT.2.1,
      (hkeepDel T q (hup.mp hq) hne).trans hT.2.2⟩
  · exact fun T q hq hne hT => (hkeepNew T q (hup.mp hq) hne).trans hT
  · -- the iteration for the path itself
    intro T hT
    rw [← mapPostToPreLine_congr hT.1] at hmatch
    rw [hasResult_correctChanges hnodup (hdisj path hp path hp) hmem hmatch, hT.2.1, hT.2.2]

end Correct

section Commit

variable {P P' : Program} {c : Commit}

/-- What `Aggregate` returns for the changed old functions, if `do_agg` is set. -/
def Commit.returnedBefore (E : Env) (P : Program) (c : Commit) :
    List (FuncPtr × String × AnalyzerReturn) :=
  let S : State := { P.state with cur := Context.start c.hexsha c.cis }
  returned S (changedFuncs E S c.upPaths ChangeInfo.delLines)

/-- What `Aggregate` returns for the changed new functions, if `do_agg` is set. -/
def Committed.returnedAfter (h : Committed E n P c P') :
    List (FuncPtr × String × AnalyzerReturn) :=
  returned h.post (c.postFuncs E P h.td)

/-- Where the prototype of a new function is mapped to that of exactly one old function, the
new function has the results of both and no others. -/
def CarriesResults (h : Committed E n P c P') : Prop :=
  ∀ path ∈ c.upPaths, ∀ newF ∈ h.td.ctx.getAllModuleFunctions path, ∀ delF,
    (delF, mapPostToPreLine (Context.start c.hexsha c.cis) path (getPrototypeLine E newF)) ∈
      redefInfos E P.td.ctx path →
    (∀ p ∈ redefInfos E P.td.ctx path,
      p.2 = mapPostToPreLine (Context.start c.hexsha c.cis) path (getPrototypeLine E newF) →
        p.1 = delF) →
    ∀ k x, HasResult P'.cur.res newF k x ↔
      Returns (c.returnedBefore E P) delF k x ∨ Returns h.returnedAfter newF k x

theorem mem_redefInfos {ctx : GlobalContext} {p : FunctionLinePair}
    (h : p ∈ redefInfos E ctx path) : p.1 ∈ ctx.getAllModuleFunctions path := by
  obtain ⟨F, hF, rfl⟩ := List.mem_map.mp h
  exact ExtTreeSet.mem_toList.mp hF

theorem mod_of_mem_getAllModuleFunctions {ctx : GlobalContext} (hL : TypeDive.Loaded E ctx)
    (h : F ∈ ctx.getAllModuleFunctions path) : (F.mod, path) ∈ ctx.modules := by
  obtain ⟨m, hm⟩ := mem_getAllModuleFunctions.mp h
  obtain ⟨M, hM, hF, _⟩ := (hL.bcFuncs path m F).mp hm
  rwa [TypeDive.mod_of_mem_definitionsOf hF]

theorem hasResult_before (hagg : c.doAgg = true) {k : String × String} {x : String} :
    HasResult (c.before E P).cur.res F k x ↔ Returns (c.returnedBefore E P) F k x := by
  have hempty : ¬ HasResult (Context.start c.hexsha c.cis).res F k x := by
    simp [HasResult, resultOf, Context.start]
  unfold Commit.before beforeUpdate aggregateFunctions Commit.returnedBefore
  rw [if_pos hagg, hasResult_aggregateFunctions]
  exact or_iff_right hempty

theorem mod_of_returnedBefore {k : String × String} {x : String}
    (hL : TypeDive.Loaded E P.td.ctx) (h : Returns (c.returnedBefore E P) F k x) :
    F.mod ∈ P.td.ctx.modules.map Prod.fst := by
  have hmem : ∀ (Fs : List FuncPtr) (T : State) r, r ∈ returned T Fs → r.1 ∈ Fs := by
    intro Fs
    induction Fs with
    | nil => simp [returned]
    | cons G Fs ih =>
      intro T r hr
      rw [returned, List.mem_append] at hr
      rcases hr with hr | hr
      · obtain ⟨A, _, rfl⟩ := List.mem_map.mp hr
        exact List.mem_cons_self
      · exact List.mem_cons_of_mem _ (ih _ r hr)
  obtain ⟨ret, hret, _⟩ := h
  obtain ⟨p, _, hp⟩ := mem_of_mem_changedFuncs (hmem _ _ _ hret)
  exact List.mem_map.mpr ⟨_, mod_of_mem_getAllModuleFunctions hL hp, rfl⟩

theorem mem_files_of_new {ctx : GlobalContext} {modules : List (ModPtr × String)}
    (hL : TypeDive.Loaded E ctx) (hmods : ctx.modules = TypeDive.nextModules modules c.files)
    (hp : path ∈ c.upPaths) (hF : F ∈ ctx.getAllModuleFunctions path) :
    (path, F.mod) ∈ c.files := by
  have hmod := mod_of_mem_getAllModuleFunctions hL hF
  rw [hmods] at hmod
  rcases TypeDive.mem_nextModules.mp hmod with ⟨_, hno⟩ | hfile
  · exact absurd hp hno
  · exact hfile

theorem hasResult_carried {td : CallGraphPass} {k : String × String} {x : String}
    {newF delF : FuncPtr} {line l : ℤ} (hL : TypeDive.Loaded E P.td.ctx)
    (hLtd : TypeDive.Loaded E td.ctx)
    (hmods : td.ctx.modules = TypeDive.nextModules P.td.ctx.modules c.files)
    (hf : TypeDive.FilesOk P.td.ctx c.files) (hpath : path ∈ c.upPaths)
    (hmem : (newF, line) ∈ redefInfos E td.ctx path)
    (hmatch : matchingDelF (mapPostToPreLine (c.between E P td).cur path line)
      (redefInfos E P.td.ctx path) = some (delF, l)) :
    HasResult (correctPaths E (redefInfos E P.td.ctx) (c.between E P td) c.upPaths).cur.res
        newF k x ↔
      HasResult (c.before E P).cur.res newF k x ∨ HasResult (c.before E P).cur.res delF k x := by
  have hnew : ∀ {p a}, p ∈ c.upPaths → a ∈ redefInfos E td.ctx p → (p, a.1.mod) ∈ c.files :=
    fun hp ha => mem_files_of_new hLtd hmods hp (mem_redefInfos ha)
  have hold : ∀ {p b}, b ∈ redefInfos E P.td.ctx p → (b.1.mod, p) ∈ P.td.ctx.modules :=
    fun hb => mod_of_mem_getAllModuleFunctions hL (mem_redefInfos hb)
  have hdel : (delF, l) ∈ redefInfos E P.td.ctx path :=
    List.mem_of_find?_eq_some (matchingDelF_iff.mp hmatch).1
  refine hasResult_correctPaths (S := c.between E P td) hpath hmem hmatch ?_ ?_ ?_
  · intro p hp q _ a ha b hb hab
    have hamod := hnew hp ha
    rw [hab] at hamod
    exact hf.fresh _ hamod (List.mem_map.mpr ⟨_, hold hb, rfl⟩)
  · intro q hq hne a ha heq
    have hamod := hnew hq ha
    rw [heq] at hamod
    have hfile := List.inj_on_of_nodup_map hf.mods_nodup hamod (hnew hpath hmem) rfl
    exact hne (congrArg Prod.fst hfile)
  · intro q _ hne b hb heq
    have hbmod := hold hb
    rw [heq] at hbmod
    exact hne (hL.eq_of_mod hbmod (hold hdel))

theorem Committed.hasResult_iff (h : Committed E n P c P') (hagg : c.doAgg = true)
    {k : String × String} {x : String} :
    HasResult P'.cur.res F k x ↔
      HasResult (correctPaths E (redefInfos E P.td.ctx) (c.between E P h.td)
        c.upPaths).cur.res F k x ∨ Returns h.returnedAfter F k x := by
  have hres : P'.cur.res = ((c.postFuncs E P h.td).foldl aggregateFunction h.post).cur.res := by
    have hstate := congrArg (fun U : State => U.cur.res) h.state_eq
    unfold aggregateFunctions at hstate
    rw [if_pos hagg] at hstate
    exact hstate
  rw [hres, hasResult_aggregateFunctions, cur_updateFunctions h.post_eq]
  rfl

/-- A commit of a run carries the results over: what was returned for the old function, and
what is returned for the new one, whatever else is matched with the old function. -/
theorem carried_results {seen : List ModPtr} (h : Managed E (fun _ _ => True) seen P)
    (hp : c.upPaths.Nodup) (hm : (c.files.map Prod.snd).Nodup)
    (hfresh : ∀ f ∈ c.files, f.2 ∉ P.td.ctx.modules.map Prod.fst) (hagg : c.doAgg = true)
    (hstep : c.run E n P = some P') : ∃ hc : Committed E n P c P', CarriesResults hc := by
  obtain ⟨hc⟩ := c.committed hstep
  refine ⟨hc, ?_⟩
  have hL := h.loaded.1
  have hf : TypeDive.FilesOk P.td.ctx c.files := ⟨hp, hm, hfresh⟩
  obtain ⟨hLtd, hmods, _⟩ := hc.loaded hL hf
  intro path hpath newF hnewF delF hdelF huniq k x
  have hmatch : matchingDelF
      (mapPostToPreLine (c.between E P hc.td).cur path (getPrototypeLine E newF))
      (redefInfos E P.td.ctx path) =
        some (delF, mapPostToPreLine (Context.start c.hexsha c.cis) path
          (getPrototypeLine E newF)) := by
    rw [mapPostToPreLine_congr (c.cis_between E P hc.td)]
    apply matchingDelF_of_unique hdelF
    intro p hp hline
    exact Prod.ext (huniq p hp hline) hline
  have hmem : (newF, getPrototypeLine E newF) ∈ redefInfos E hc.td.ctx path :=
    List.mem_map.mpr ⟨newF, ExtTreeSet.mem_toList.mpr hnewF, rfl⟩
  -- nothing was returned for the new function before it was loaded
  have hnone : ¬ Returns (c.returnedBefore E P) newF k x := fun hret =>
    hf.fresh _ (mem_files_of_new hLtd hmods hpath hnewF) (mod_of_returnedBefore hL hret)
  rw [hc.hasResult_iff hagg, hasResult_carried hL hLtd hmods hf hpath hmem hmatch,
    hasResult_before hagg, hasResult_before hagg, or_iff_right hnone]

end Commit

theorem carried_results_changed : ∃ P P', readerCommit.run readerFiles 2 P = some P' ∧
    ∃ hc : Committed readerFiles 2 P readerCommit P', CarriesResults hc := by
  obtain ⟨P, P', hP, hstep⟩ := exists_readerCommit
  exact ⟨P, P', hstep, carried_results hP (by decide) (by decide)
    (hP.fresh_of_seen (by decide)) rfl hstep⟩

end AnalyzerManager

end Cisa

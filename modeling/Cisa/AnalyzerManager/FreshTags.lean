import Cisa.AnalyzerManager.CarriedResults
import Cisa.AnalyzerManager.OwnTags
import Cisa.AnalyzerManager.TopLevelNames

/-!
# Tags of a run and tags of a first load

A commit updates the changed functions only, so an unchanged function of a new file lives on
the tags that it takes from the old file. They are its own exactly if the old functions whose
tags it takes have the own tags that it has.
-/

namespace Cisa

open Std

namespace AnalyzerManager

open OperationLevelAnalyzer (SameGraph)

variable {E : Env} {n : ℕ} {S S' : State} {F G : FuncPtr} {path : String}
  {delFlps newFlps l : List FunctionLinePair} {i idx : ℕ} {t : String}

/-- The new function that takes the tags of an old function: the first that is matched with it. -/
def taker (cur : Context) (path : String) (delFlps newFlps : List FunctionLinePair)
    (delF : FuncPtr) : Option FuncPtr :=
  (newFlps.find? fun p =>
    (matchingDelF (mapPostToPreLine cur path p.2) delFlps).map Prod.fst = some delF).map Prod.fst

theorem taker_congr {c c' : Context} (h : c.cis = c'.cis) :
    taker c path delFlps newFlps F = taker c' path delFlps newFlps F := by
  unfold taker
  simp only [mapPostToPreLine_congr h]

theorem mem_of_taker {cur : Context} {delF : FuncPtr}
    (h : taker cur path delFlps newFlps delF = some F) : delF ∈ delFlps.map Prod.fst := by
  obtain ⟨p, hfind, _⟩ := Option.map_eq_some_iff.mp h
  have hm := List.find?_some (p := fun p : FunctionLinePair => decide
    ((matchingDelF (mapPostToPreLine cur path p.2) delFlps).map Prod.fst = some delF)) hfind
  obtain ⟨b, hb, rfl⟩ := Option.map_eq_some_iff.mp (of_decide_eq_true hm)
  exact List.mem_map.mpr ⟨b, List.mem_of_find?_eq_some (matchingDelF_iff.mp hb).1, rfl⟩

theorem matchedWith_iff {cur : Context} {p : FunctionLinePair} :
    MatchedWith cur path delFlps p F ↔
      (matchingDelF (mapPostToPreLine cur path p.2) delFlps).map Prod.fst = some F := by
  rw [Option.map_eq_some_iff]
  constructor
  · rintro ⟨line, hnear, hle⟩
    exact ⟨(F, line), matchingDelF_iff.mpr ⟨hnear, hle⟩, rfl⟩
  · rintro ⟨⟨G, line⟩, hm, rfl⟩
    exact ⟨line, matchingDelF_iff.mp hm⟩

/-- The search for a property ends at an element that has it and none before it has. -/
theorem map_find?_eq_some_iff {α β : Type} {f : α → β} {q : α → Bool} {pre post : List α} {x : α}
    (hpre : ∀ y ∈ pre, f y ≠ f x) (hpost : ∀ y ∈ post, f y ≠ f x) :
    ((pre ++ x :: post).find? q).map f = some (f x) ↔ q x = true ∧ ∀ y ∈ pre, ¬ q y = true := by
  rw [List.find?_append, List.find?_cons]
  cases hfind : pre.find? q with
  | some y =>
    have hy := List.mem_of_find?_eq_some hfind
    simp only [Option.some_or, Option.map_some, Option.some.injEq]
    constructor
    · exact fun h => absurd h (hpre y hy)
    · exact fun h => absurd (List.find?_some hfind) (h.2 y hy)
  | none =>
    have hno := List.find?_eq_none.mp hfind
    rw [Option.none_or]
    cases hx : q x with
    | true => simpa using hno
    | false =>
      simp only [Bool.false_eq_true, false_and, iff_false]
      intro h
      obtain ⟨y, hy, hyx⟩ := Option.map_eq_some_iff.mp h
      exact hpost y (List.mem_of_find?_eq_some hy) hyx

theorem tags_correctChanges_of_ne (hnew : ∀ p ∈ newFlps, p.1 ≠ F) (hdel : ∀ p ∈ delFlps, p.1 ≠ F) :
    (correctChanges S path delFlps newFlps).tags i F idx = S.tags i F idx := by
  rw [correctChanges, tags_foldl_removeFunction hdel, tags_foldl_correctChange hnew]
  rintro p _ ⟨line, hnear, _⟩
  exact hdel _ (List.mem_of_find?_eq_some hnear) rfl

/-- A new function without tags has those of the old functions that it takes them from. -/
theorem mem_tags_correctChanges {newF : FuncPtr} (hnew : (newFlps.map Prod.fst).Nodup)
    (hdisj : ∀ p ∈ newFlps, ∀ q ∈ delFlps, p.1 ≠ q.1) (hmem : newF ∈ newFlps.map Prod.fst)
    (hempty : S.tags i newF idx = ∅) :
    t ∈ (correctChanges S path delFlps newFlps).tags i newF idx ↔
      ∃ delF, taker S.cur path delFlps newFlps delF = some newF ∧ t ∈ S.tags i delF idx := by
  obtain ⟨⟨_, line⟩, hself, rfl⟩ := List.mem_map.mp hmem
  dsimp only at hempty ⊢
  obtain ⟨pre, post, rfl⟩ := List.append_of_mem hself
  rename_i newF
  have hdel : ∀ q ∈ delFlps, q.1 ≠ newF := fun q hq h => hdisj _ hself q hq h.symm
  have hunmatched : ∀ (c : Context) p, ¬ MatchedWith c path delFlps p newF := by
    rintro c p ⟨line', hnear, _⟩
    exact hdel _ (List.mem_of_find?_eq_some hnear) rfl
  obtain ⟨hpre, hpost⟩ : (∀ p ∈ pre, p.1 ≠ newF) ∧ ∀ p ∈ post, p.1 ≠ newF := by
    rw [List.map_append, List.map_cons, List.nodup_append, List.nodup_cons] at hnew
    constructor
    · intro p hp
      exact hnew.2.2 p.1 (List.mem_map_of_mem hp) newF List.mem_cons_self
    · intro p hp h
      exact hnew.2.1.1 (List.mem_map.mpr ⟨p, hp, h⟩)
  -- only the own entry of the new function changes its tags
  have htags : (correctChanges S path delFlps (pre ++ (newF, line) :: post)).tags i newF idx =
      (correctChange path delFlps (pre.foldl (correctChange path delFlps) S) (newF, line)).tags
        i newF idx := by
    rw [correctChanges, tags_foldl_removeFunction hdel, List.foldl_append, List.foldl_cons,
      tags_foldl_correctChange hpost fun p _ => hunmatched _ p]
  -- it takes the tags of the function it is matched with, if no one before it is
  have htaker : ∀ delF, taker S.cur path delFlps (pre ++ (newF, line) :: post) delF = some newF ↔
      MatchedWith S.cur path delFlps (newF, line) delF ∧
        ∀ p ∈ pre, ¬ MatchedWith S.cur path delFlps p delF := by
    intro delF
    simp only [matchedWith_iff]
    exact (map_find?_eq_some_iff (x := (newF, line)) hpre hpost).trans (by simp)
  simp only [htags, htaker, tags_correctChange, mapPostToPreLine_congr cis_foldl_correctChange]
  cases hm : matchingDelF (mapPostToPreLine S.cur path line) delFlps with
  | none =>
    have hno : ∀ delF, ¬ MatchedWith S.cur path delFlps (newF, line) delF := by
      intro delF
      rw [matchedWith_iff, hm]
      simp
    rw [tags_foldl_correctChange hpre fun p _ => hunmatched _ p, hempty]
    simp [hno]
  | some delFL =>
    have hmatched : ∀ delF, MatchedWith S.cur path delFlps (newF, line) delF ↔ delFL.1 = delF := by
      intro delF
      rw [matchedWith_iff, hm]
      simp
    have hdelFL : delFL ∈ delFlps := List.mem_of_find?_eq_some (matchingDelF_iff.mp hm).1
    have hpre' : ∀ p ∈ pre, p.1 ≠ delFL.1 := fun p hp =>
      hdisj p (List.mem_append_left _ hp) delFL hdelFL
    simp only [hmatched, and_assoc, exists_eq_left', if_neg (hdel delFL hdelFL), if_true]
    by_cases hex : ∃ p ∈ pre, MatchedWith S.cur path delFlps p delFL.1
    · rw [tags_foldl_of_matched hpre' hex]
      obtain ⟨p, hp, hpm⟩ := hex
      simp only [ExtTreeSet.not_mem_empty, false_iff]
      exact fun h => h.1 p hp hpm
    · have hno : ∀ p ∈ pre, ¬ MatchedWith S.cur path delFlps p delFL.1 := fun p hp hpm =>
        hex ⟨p, hp, hpm⟩
      rw [tags_foldl_correctChange hpre' hno]
      exact (and_iff_right hno).symm

section Paths

variable {delInfos : String → List FunctionLinePair} {upPaths : List String}

theorem tags_correctPaths_of_ne (hnew : ∀ p ∈ upPaths, ∀ a ∈ redefInfos E S.gctx p, a.1 ≠ F)
    (hdel : ∀ p ∈ upPaths, ∀ b ∈ delInfos p, b.1 ≠ F) :
    (correctPaths E delInfos S upPaths).tags i F idx = S.tags i F idx := by
  apply Fold.foldl_invariant (I := fun T : State => T.tags i F idx = S.tags i F idx) rfl
  intro T p hp hT
  rw [ExtTreeSet.mem_toList, ExtTreeSet.mem_ofElems] at hp
  rw [tags_correctChanges_of_ne (hnew p hp) (hdel p hp), hT]

theorem mem_tags_correctPaths {newF : FuncPtr} (hp : path ∈ upPaths)
    (hmem : newF ∈ (redefInfos E S.gctx path).map Prod.fst)
    (hdisj : ∀ p ∈ upPaths, ∀ q ∈ upPaths, ∀ a ∈ redefInfos E S.gctx p, ∀ b ∈ delInfos q, a.1 ≠ b.1)
    (hnew : ∀ q ∈ upPaths, q ≠ path → ∀ a ∈ redefInfos E S.gctx q, a.1 ≠ newF)
    (hdel : ∀ q ∈ upPaths, q ≠ path → ∀ a ∈ delInfos q, ∀ b ∈ delInfos path, a.1 ≠ b.1)
    (hempty : S.tags i newF idx = ∅) :
    t ∈ (correctPaths E delInfos S upPaths).tags i newF idx ↔
      ∃ delF, taker S.cur path (delInfos path) (redefInfos E S.gctx path) delF = some newF ∧
        t ∈ S.tags i delF idx := by
  have hnodup : ((redefInfos E S.gctx path).map Prod.fst).Nodup := by
    rw [map_fst_redefInfos]
    exact ExtTreeSet.nodup_toList
  have hup : ∀ {q}, q ∈ (ExtTreeSet.ofElems upPaths).toList ↔ q ∈ upPaths := by simp
  have hself : ∀ q ∈ upPaths, ∀ b ∈ delInfos q, b.1 ≠ newF := by
    obtain ⟨a, ha, rfl⟩ := List.mem_map.mp hmem
    exact fun q hq b hb h => hdisj path hp q hq a ha b hb h.symm
  have hother : ∀ (T : State), ∀ q ∈ upPaths, q ≠ path →
      (correctChanges T q (delInfos q) (redefInfos E S.gctx q)).tags i newF idx =
        T.tags i newF idx := fun T q hq hne =>
    tags_correctChanges_of_ne (hnew q hq hne) (hself q hq)
  unfold correctPaths
  apply Fold.foldl_once (x := path) (P := fun T : State => t ∈ T.tags i newF idx ↔ ∃ delF,
      taker S.cur path (delInfos path) (redefInfos E S.gctx path) delF = some newF ∧
        t ∈ S.tags i delF idx)
    (I := fun T : State => T.cur.cis = S.cur.cis ∧ T.tags i newF idx = ∅ ∧
      ∀ b ∈ delInfos path, T.tags i b.1 idx = S.tags i b.1 idx)
    ExtTreeSet.nodup_toList (hup.mpr hp) ⟨rfl, hempty, fun _ _ => rfl⟩
  · intro T q hq hne hT
    obtain ⟨hcis, hno, hold⟩ := hT
    refine ⟨cis_correctChanges.trans hcis, (hother T q (hup.mp hq) hne).trans hno, ?_⟩
    intro b hb
    rw [tags_correctChanges_of_ne _ fun a ha => hdel q (hup.mp hq) hne a ha b hb, hold b hb]
    exact fun a ha => hdisj q (hup.mp hq) path hp a ha b hb
  · intro T q hq hne hT
    rw [hother T q (hup.mp hq) hne]
    exact hT
  · -- the iteration for the path itself
    intro T hT
    obtain ⟨hcis, hno, hold⟩ := hT
    rw [mem_tags_correctChanges hnodup (hdisj path hp path hp) hmem hno]
    simp only [taker_congr hcis]
    apply exists_congr
    intro delF
    apply and_congr_right
    intro htaken
    obtain ⟨b, hb, rfl⟩ := List.mem_map.mp (mem_of_taker htaken)
    rw [hold b hb]

end Paths

theorem sameNames_correctPaths {delInfos : String → List FunctionLinePair}
    {upPaths : List String} : S.SameNames (correctPaths E delInfos S upPaths) := by
  have hchange : ∀ (T : State) q dels p,
      (correctChange q dels T p).analyzers.map IAnalyzer.name = T.analyzers.map IAnalyzer.name := by
    intro T q dels p
    unfold correctChange
    split
    · simp [Function.comp_def]
    · rfl
  have hremove : ∀ (T : State) p,
      (removeFunction T p).analyzers.map IAnalyzer.name = T.analyzers.map IAnalyzer.name := by
    intro T p
    simp [removeFunction, Function.comp_def]
  apply Fold.foldl_frame (p := fun T : State => T.analyzers.map IAnalyzer.name)
  intro T q
  exact (Fold.foldl_frame (p := fun T : State => T.analyzers.map IAnalyzer.name) hremove _ _).trans
    (Fold.foldl_frame (p := fun T : State => T.analyzers.map IAnalyzer.name) (hchange · q _ ·) _ _)

section Commit

variable {P P' : Program} {c : Commit}

/-- The functions of the program have their own tags, in all analyzers. -/
def TagsOwn (E : Env) (P : Program) : Prop :=
  ∀ F, InBCFuncs P.td.ctx F → P.state.HasOwnTags E F

/-- An unchanged new function takes its tags from old functions with the own tags that it has. -/
def Faithful (E : Env) (P : Program) (c : Commit) : Prop :=
  ∀ td, TypeDive.updateModules E P.td (TypeDive.parsed c.files) = some td →
    ∀ path ∈ c.upPaths, ∀ F ∈ td.ctx.getAllModuleFunctions path, F ∉ c.postFuncs E P td →
      ∀ i idx t, P.state.OwnTag E i F idx t ↔ ∃ delF,
        taker (Context.start c.hexsha c.cis) path (redefInfos E P.td.ctx path)
          (redefInfos E td.ctx path) delF = some F ∧ P.state.OwnTag E i delF idx t

theorem Committed.sameNames_post (h : Committed E n P c P') : P.state.SameNames h.post := by
  have hbefore : P.state.SameNames (c.before E P) :=
    (tags_aggregateFunctions (S := { P.state with cur := Context.start c.hexsha c.cis })
      c.doAgg _).1
  have hcorrect : (c.between E P h.td).SameNames
      (correctPaths E (redefInfos E P.td.ctx) (c.between E P h.td) c.upPaths) :=
    sameNames_correctPaths
  exact (hbefore.trans hcorrect).trans (tags_updateFunctions h.post_eq).1

theorem Committed.sameNames (h : Committed E n P c P') : P.state.SameNames P'.state := by
  rw [h.state_eq]
  exact h.sameNames_post.trans (tags_aggregateFunctions c.doAgg _).1

theorem Commit.tags_between (td : CallGraphPass) :
    (c.between E P td).tags i F idx = P.state.tags i F idx :=
  (tags_aggregateFunctions (S := { P.state with cur := Context.start c.hexsha c.cis })
    c.doAgg _).2 i F idx

theorem Committed.tags_of_unchanged (h : Committed E n P c P') (hF : F ∉ c.postFuncs E P h.td) :
    P'.state.tags i F idx =
      (correctPaths E (redefInfos E P.td.ctx) (c.between E P h.td) c.upPaths).tags i F idx := by
  rw [h.state_eq, (tags_aggregateFunctions c.doAgg _).2,
    (tags_updateFunctions h.post_eq).2.2 F hF]

theorem Committed.hasOwnTags_of_changed (h : Committed E n P c P')
    (hF : F ∈ c.postFuncs E P h.td) : P'.state.HasOwnTags E F := by
  intro i idx t
  rw [h.state_eq, (tags_aggregateFunctions c.doAgg _).2,
    (tags_updateFunctions h.post_eq).2.1 F hF,
    (tags_aggregateFunctions c.doAgg (S := h.post) _).1.ownTag_iff]

theorem mem_of_mem_nextModules {mods : List (ModPtr × String)} {files : List ParsedFile}
    {M : ModPtr} (hM : (M, path) ∈ TypeDive.nextModules mods files)
    (hpath : path ∉ files.map Prod.fst) : (M, path) ∈ mods := by
  rcases TypeDive.mem_nextModules.mp hM with ⟨hold, _⟩ | hfile
  · exact hold
  · exact absurd (List.mem_map.mpr ⟨_, hfile, rfl⟩) hpath

section Step

variable (hL : TypeDive.Loaded E P.td.ctx) (hf : TypeDive.FilesOk P.td.ctx c.files)
  (h : Committed E n P c P')

include hL hf h

theorem Committed.tags_of_kept (hF : F ∈ h.td.ctx.getAllModuleFunctions path)
    (hpath : path ∉ c.upPaths) : P'.state.tags i F idx = P.state.tags i F idx := by
  obtain ⟨hLtd, hmods, _⟩ := h.loaded hL hf
  have hmod := mod_of_mem_getAllModuleFunctions hLtd hF
  have hold : (F.mod, path) ∈ P.td.ctx.modules := mem_of_mem_nextModules (hmods ▸ hmod) hpath
  have hnot : ∀ p ∈ c.upPaths, F ∉ h.td.ctx.getAllModuleFunctions p := by
    intro p hp hFp
    obtain rfl := hLtd.eq_of_mod (mod_of_mem_getAllModuleFunctions hLtd hFp) hmod
    exact hpath hp
  have hunchanged : F ∉ c.postFuncs E P h.td := by
    intro hpost
    obtain ⟨p, hp, hFp⟩ := mem_of_mem_changedFuncs hpost
    exact hnot p hp hFp
  rw [h.tags_of_unchanged hunchanged, tags_correctPaths_of_ne, Commit.tags_between]
  · rintro p hp a ha rfl
    exact hnot p hp (mem_redefInfos ha)
  · rintro p hp b hb rfl
    obtain rfl := hL.eq_of_mod (mod_of_mem_getAllModuleFunctions hL (mem_redefInfos hb)) hold
    exact hpath hp

/-- An unchanged new function has the tags that it takes from the old functions of its path. -/
theorem Committed.mem_tags_of_new (hkeys : KeysLive P)
    (hF : F ∈ h.td.ctx.getAllModuleFunctions path) (hpath : path ∈ c.upPaths)
    (hunchanged : F ∉ c.postFuncs E P h.td) :
    t ∈ P'.state.tags i F idx ↔ ∃ delF,
      taker (Context.start c.hexsha c.cis) path (redefInfos E P.td.ctx path)
        (redefInfos E h.td.ctx path) delF = some F ∧ t ∈ P.state.tags i delF idx := by
  obtain ⟨hLtd, hmods, _⟩ := h.loaded hL hf
  have hnew : ∀ {p a}, p ∈ c.upPaths → a ∈ redefInfos E h.td.ctx p → (p, a.1.mod) ∈ c.files :=
    fun hp ha => mem_files_of_new hLtd hmods hp (mem_redefInfos ha)
  have hold : ∀ {p b}, b ∈ redefInfos E P.td.ctx p → (b.1.mod, p) ∈ P.td.ctx.modules :=
    fun hb => mod_of_mem_getAllModuleFunctions hL (mem_redefInfos hb)
  have hfile : (path, F.mod) ∈ c.files := mem_files_of_new hLtd hmods hpath hF
  have hempty : P.state.tags i F idx = ∅ := by
    apply State.tags_of_not_hasKey
    intro hkey
    obtain ⟨p, m, hm⟩ := hkeys.tags F hkey
    have hmod := mod_of_mem_getAllModuleFunctions hL (mem_getAllModuleFunctions.mpr ⟨m, hm⟩)
    exact hf.fresh _ hfile (List.mem_map.mpr ⟨_, hmod, rfl⟩)
  have hmem : F ∈ (redefInfos E h.td.ctx path).map Prod.fst := by
    rw [map_fst_redefInfos]
    exact ExtTreeSet.mem_toList.mpr hF
  rw [h.tags_of_unchanged hunchanged,
    mem_tags_correctPaths (S := c.between E P h.td) hpath hmem]
  · simp only [Commit.tags_between, taker_congr (c.cis_between E P h.td)]
    rfl
  · intro p hp q _ a ha b hb hab
    have hamod := hnew hp ha
    rw [hab] at hamod
    exact hf.fresh _ hamod (List.mem_map.mpr ⟨_, hold hb, rfl⟩)
  · intro q hq hne a ha heq
    have hamod := hnew hq ha
    rw [heq] at hamod
    exact hne (congrArg Prod.fst (List.inj_on_of_nodup_map hf.mods_nodup hamod hfile rfl))
  · intro q _ hne a ha b hb hab
    have hamod := hold ha
    rw [hab] at hamod
    exact hne (hL.eq_of_mod hamod (hold hb))
  · rw [Commit.tags_between]
    exact hempty

theorem Committed.tagsOwn_iff (hkeys : KeysLive P) (hP : TagsOwn E P) :
    TagsOwn E P' ↔ Faithful E P c := by
  obtain ⟨hLtd, hmods, hgraph⟩ := h.loaded hL hf
  -- the own tags of the old functions are those that the new ones take
  have htakes : ∀ {path F}, path ∈ c.upPaths → F ∈ h.td.ctx.getAllModuleFunctions path →
      F ∉ c.postFuncs E P h.td → ∀ i idx t, t ∈ P'.state.tags i F idx ↔ ∃ delF,
        taker (Context.start c.hexsha c.cis) path (redefInfos E P.td.ctx path)
          (redefInfos E h.td.ctx path) delF = some F ∧ P.state.OwnTag E i delF idx t := by
    intro path F hpath hF hunchanged i idx t
    rw [h.mem_tags_of_new hL hf hkeys hF hpath hunchanged]
    apply exists_congr
    intro delF
    apply and_congr_right
    intro htaken
    obtain ⟨b, hb, rfl⟩ := List.mem_map.mp (mem_of_taker htaken)
    exact hP b.1 (InBCFuncs.of_mem (mem_redefInfos hb)) i idx t
  constructor
  · intro hP' td htd path hpath F hF hunchanged i idx t
    obtain rfl := Option.some.inj (h.td_eq.symm.trans htd)
    have hlive : InBCFuncs P'.td.ctx F := (InBCFuncs.of_mem hF).of_sameGraph hgraph
    rw [← htakes hpath hF hunchanged, hP' F hlive, h.sameNames.ownTag_iff]
  · intro hfaith F hlive i idx t
    obtain ⟨path, m, hm⟩ := hlive.of_sameGraph hgraph.symm
    have hF := mem_getAllModuleFunctions.mpr ⟨m, hm⟩
    by_cases hchanged : F ∈ c.postFuncs E P h.td
    · exact h.hasOwnTags_of_changed hchanged i idx t
    rw [h.sameNames.ownTag_iff]
    by_cases hpath : path ∈ c.upPaths
    · rw [htakes hpath hF hchanged, hfaith h.td h.td_eq path hpath F hF hchanged]
    · rw [h.tags_of_kept hL hf hF hpath]
      obtain ⟨M, hM, hFM, hname⟩ := (hLtd.bcFuncs path m F).mp hm
      have hkept : (M, path) ∈ P.td.ctx.modules := mem_of_mem_nextModules (hmods ▸ hM) hpath
      exact hP F ⟨path, m, (hL.bcFuncs path m F).mpr ⟨M, hkept, hFM, hname⟩⟩ i idx t

end Step

end Commit

theorem Managed.imp {C C' : Program → Commit → Prop} (hC : ∀ P c, C P c → C' P c)
    {seen : List ModPtr} {P : Program} (h : Managed E C seen P) : Managed E C' seen P := by
  induction h with
  | init n analyzers files outPath hanals hp hm hstep =>
    exact .init n analyzers files outPath hanals hp hm hstep
  | commit n c _ hp hm hfresh hc hstep ih => exact ih.commit n c hp hm hfresh (hC _ _ hc) hstep

theorem mem_getAllFunctions_of_inBCFuncs {ctx : GlobalContext} (h : InBCFuncs ctx F) :
    F ∈ ctx.getAllFunctions.map Prod.fst := by
  obtain ⟨q, m, hm⟩ := h
  have hrow : q ∈ (ctx.bcFuncs.toList.foldl (fun funcs p =>
      p.2.toList.foldl (fun funcs p2 => funcs.addTo p2.2 p.1) funcs)
        (∅ : SortedMap FuncPtr (SortedSet String))).row F := by
    rw [Fold.foldl_or (P := fun m : SortedMap FuncPtr (SortedSet String) => q ∈ m.row F)
      (Q := fun e : String × SortedMap String FuncPtr => ∃ p2 ∈ e.2.toList, p2.2 = F ∧ e.1 = q)]
    · right
      rw [ExtTreeMap.getD_eq_getD_getElem?] at hm
      cases hrow : ctx.bcFuncs[q]? with
      | none => simp [hrow] at hm
      | some row =>
        rw [hrow, Option.getD_some] at hm
        exact ⟨(q, row), ExtTreeMap.mem_toList_iff_getElem?_eq_some.mpr hrow, (m, F),
          ExtTreeMap.mem_toList_iff_getElem?_eq_some.mpr hm, rfl, rfl⟩
    · intro m e
      rw [Fold.foldl_or (P := fun m : SortedMap FuncPtr (SortedSet String) => q ∈ m.row F)
        (Q := fun p2 : String × FuncPtr => p2.2 = F ∧ e.1 = q)]
      intro m p2
      rw [ExtTreeMap.mem_row_addTo, or_comm]
  obtain ⟨r, hr, hrF, hq⟩ := ExtTreeMap.mem_row_iff_exists.mp hrow
  refine List.mem_map.mpr ⟨(F, q), List.mem_flatMap.mpr ⟨r, hr, ?_⟩, rfl⟩
  exact List.mem_map.mpr ⟨q, ExtTreeSet.mem_toList.mpr hq, by rw [hrF]⟩

theorem tagsOwn_initializeProgram {analyzers : List IAnalyzer} {files : List BCFile}
    {outPath : String} {P : Program} (h : initializeProgram E n analyzers files outPath = some P) :
    TagsOwn E P ∧ P.analyzers.map IAnalyzer.name = analyzers.map IAnalyzer.name := by
  obtain ⟨S, hS, hP⟩ := Option.bind_eq_some_iff.mp h
  obtain rfl := Option.some.inj hP
  obtain ⟨hnames, hown, _⟩ := tags_updateFunctions hS
  refine ⟨?_, hnames⟩
  intro F hF
  have hgraph := (sameGraph_updateFunctions hS).symm
  exact hown F (mem_getAllFunctions_of_inBCFuncs (hF.of_sameGraph hgraph))

/-- `P₀` is what a first run leaves that is given the modules and the analyzers of `P`. -/
structure FirstRun (E : Env) (P P₀ : Program) : Prop where
  run : ∃ n analyzers files outPath, analyzers.Perm registeredAnalyzers ∧
    (files.map Prod.fst).Nodup ∧ (files.map Prod.snd).Nodup ∧
    initializeProgram E n analyzers (TypeDive.parsed files) outPath = some P₀ ∧
    ∀ f, f ∈ P.td.ctx.modules ↔ f ∈ files.map Prod.swap
  names : P₀.analyzers.map IAnalyzer.name = P.analyzers.map IAnalyzer.name

def SameTags (P P₀ : Program) : Prop :=
  ∀ F i idx, P.state.tags i F idx = P₀.state.tags i F idx

/-- The functions of a program and those of a first run are the same, and have the same own
tags. -/
theorem FirstRun.sameTags_iff {P P₀ : Program} (h : FirstRun E P P₀)
    (hL : TypeDive.Loaded E P.td.ctx) (hkeys : KeysLive P) : SameTags P P₀ ↔ TagsOwn E P := by
  obtain ⟨⟨n₀, analyzers, files, outPath, hanals, hp, hm, hrun, hmods⟩, hnames⟩ := h
  have hP₀ : Managed E (fun _ _ => True) (files.map Prod.snd) P₀ :=
    .init n₀ analyzers files outPath hanals hp hm hrun
  have hmods₀ := modules_initializeProgram hp hm hrun
  have hlive : ∀ F, InBCFuncs P.td.ctx F ↔ InBCFuncs P₀.td.ctx F := by
    intro F
    unfold InBCFuncs
    simp only [hL.bcFuncs, hP₀.loaded.1.bcFuncs, hmods₀, hmods]
  have hsame : P.state.SameNames P₀.state := hnames
  have hown := (tagsOwn_initializeProgram hrun).1
  constructor
  · intro h F hF i idx t
    rw [h F i idx, hown F ((hlive F).mp hF), hsame.ownTag_iff]
  · intro h F i idx
    by_cases hF : InBCFuncs P.td.ctx F
    · apply ExtTreeSet.ext_mem
      intro t
      rw [h F hF, hown F ((hlive F).mp hF), hsame.ownTag_iff]
    · rw [State.tags_of_not_hasKey fun hkey => hF (hkeys.tags F hkey),
        State.tags_of_not_hasKey fun hkey => hF ((hlive F).mpr ((keys_live hP₀).tags F hkey))]

/-- After a run of faithful commits all functions have their own tags. -/
theorem Managed.tagsOwn {seen : List ModPtr} {P : Program} (h : Managed E (Faithful E) seen P) :
    TagsOwn E P := by
  induction h with
  | init n analyzers files outPath _ hp hm hstep => exact (tagsOwn_initializeProgram hstep).1
  | commit n c hP hp hm hfresh hfaith hstep ih =>
    obtain ⟨hc⟩ := c.committed hstep
    have hkeys := keys_live (hP.imp fun _ _ _ => trivial)
    exact (hc.tagsOwn_iff hP.loaded.1 ⟨hp, hm, hfresh⟩ hkeys ih).mpr hfaith

/-- As long as commits are faithful, a run has the tags of a first run on its modules, for all
functions there are. The first commit that is not gives other tags. -/
theorem tags_fresh_iff {seen : List ModPtr} {P : Program} (h : Managed E (Faithful E) seen P) :
    (∀ P₀, FirstRun E P P₀ → SameTags P P₀) ∧
      ∀ n c P' P₀, c.upPaths.Nodup → (c.files.map Prod.snd).Nodup →
        (∀ f ∈ c.files, f.2 ∉ P.td.ctx.modules.map Prod.fst) →
        c.run E n P = some P' → FirstRun E P' P₀ → (SameTags P' P₀ ↔ Faithful E P c) := by
  have hrun : Managed E (fun _ _ => True) seen P := h.imp fun _ _ _ => trivial
  have hkeys := keys_live hrun
  constructor
  · intro P₀ hP₀
    exact (hP₀.sameTags_iff h.loaded.1 hkeys).mpr h.tagsOwn
  · intro n c P' P₀ hp hm hfresh hstep hP₀
    have hnext : Managed E (fun _ _ => True) _ P' := hrun.commit n c hp hm hfresh trivial hstep
    obtain ⟨hc⟩ := c.committed hstep
    rw [hP₀.sameTags_iff hnext.loaded.1 (keys_live hnext)]
    exact hc.tagsOwn_iff h.loaded.1 ⟨hp, hm, hfresh⟩ hkeys h.tagsOwn

theorem Managed.faithful_of_changed {seen : List ModPtr} {P : Program} {c : Commit}
    (h : Managed E (fun _ _ => True) seen P) (hp : c.upPaths.Nodup)
    (hm : (c.files.map Prod.snd).Nodup)
    (hfresh : ∀ f ∈ c.files, f.2 ∉ P.td.ctx.modules.map Prod.fst)
    (hall : ∀ f ∈ c.files, ∀ G ∈ CallGraphPass.definitionsOf E f.2, G ∈ c.changedNew E) :
    Faithful E P c := by
  intro td htd path hpath F hF hunchanged
  obtain ⟨td', htd', hLtd, hmods⟩ :=
    TypeDive.updateModules_loaded h.loaded.1 ⟨hp, hm, hfresh⟩
  obtain rfl := Option.some.inj (htd.symm.trans htd')
  have hfile := mem_files_of_new hLtd hmods hpath hF
  obtain ⟨m, hm⟩ := mem_getAllModuleFunctions.mp hF
  obtain ⟨M, _, hdef, _⟩ := (hLtd.bcFuncs path m F).mp hm
  have hmod := TypeDive.mod_of_mem_definitionsOf hdef
  rw [postFuncs_eq hLtd hmods] at hunchanged
  exact absurd (hall _ hfile F (hmod ▸ hdef)) hunchanged

theorem faithful_readerCommit {seen : List ModPtr} {P : Program}
    (h : Managed readerFiles (fun _ _ => True) seen P)
    (hnew : ∀ f ∈ readerCommit.files, f.2 ∉ seen) : Faithful readerFiles P readerCommit :=
  h.faithful_of_changed (by decide) (by decide) (h.fresh_of_seen hnew) (by decide)

theorem tags_fresh_iff_changed : ∃ P P' P₀, readerCommit.run readerFiles 2 P = some P' ∧
    FirstRun readerFiles P' P₀ ∧ SameTags P' P₀ := by
  have hrun : (((initializeProgram readerFiles 2 registeredAnalyzers
      (TypeDive.parsed [("a.bc", 0)]) "out").bind (readerCommit.run readerFiles 2)).map
        fun P' => (P'.td.ctx.modules, P'.analyzers.map IAnalyzer.name)) =
      some ([(1, "a.bc")], ["oper", "sub"]) := by decide
  have hfirst : ((initializeProgram readerFiles 2 registeredAnalyzers
      (TypeDive.parsed [("a.bc", 1)]) "out").map fun P₀ => P₀.analyzers.map IAnalyzer.name) =
      some ["oper", "sub"] := by decide
  obtain ⟨P', hP', heq⟩ := Option.map_eq_some_iff.mp hrun
  obtain ⟨hmods, hnames⟩ := Prod.mk.inj heq
  obtain ⟨P, hP, hstep⟩ := Option.bind_eq_some_iff.mp hP'
  obtain ⟨P₀, hP₀, hnames₀⟩ := Option.map_eq_some_iff.mp hfirst
  have hmanaged : ∀ C, Managed readerFiles C [0] P := fun C =>
    .init 2 registeredAnalyzers [("a.bc", 0)] "out" (List.Perm.refl _) (by decide) (by decide) hP
  have hfresh : FirstRun readerFiles P' P₀ :=
    ⟨⟨2, registeredAnalyzers, [("a.bc", 1)], "out", List.Perm.refl _, by decide, by decide, hP₀,
      by simp [hmods]⟩, hnames₀.trans hnames.symm⟩
  have hnew := (hmanaged fun _ _ => True).fresh_of_seen
    (show ∀ f ∈ readerCommit.files, f.2 ∉ [0] by decide)
  exact ⟨P, P', P₀, hstep, hfresh, ((tags_fresh_iff (hmanaged _)).2 2 readerCommit P' P₀ (by decide)
    (by decide) hnew hstep hfresh).mpr (faithful_readerCommit (hmanaged _) (by decide))⟩

end AnalyzerManager

end Cisa

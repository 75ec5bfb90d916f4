import Cisa.AnalyzerManager.CarriedTags
import Cisa.AnalyzerManager.CommitRuns

/-!
# Tags and results of live functions

The functions of an old file are known before the modules are updated. Whatever was
recorded for them is dropped once the new functions have been matched with them, so the
maps of the analyzers and the results of the commit have live functions as keys only.
-/

namespace Cisa

open Std

namespace IAnalyzer

/-- The function is a key of one of the tag maps. -/
def HasKey (F : FuncPtr) : IAnalyzer → Prop
  | oper A => ∃ i, F ∈ A.tags i
  | sub A => ∃ i, F ∈ A.tags i

end IAnalyzer

namespace Analyzer

variable {T : Type} [Ord T] {N : ℕ} {A : Analyzer T N} {i : Fin N} {F G : FuncPtr}

theorem mem_tags_move {P Q : FuncPtr} (h : F ∈ (A.move P Q).tags i) :
    F ≠ P ∧ (F = Q ∨ F ∈ A.tags i) := by
  simp only [move, ExtTreeMap.mem_erase, ExtTreeMap.mem_insert,
    LawfulEqCmp.compare_eq_iff_eq, ne_eq] at h
  obtain ⟨hP, hQ⟩ := h
  refine ⟨fun heq => hP heq.symm, ?_⟩
  rcases hQ with hQ | hQ
  · exact Or.inl hQ.symm
  · exact Or.inr hQ

theorem mem_tags_remove : F ∈ (A.remove G).tags i ↔ F ≠ G ∧ F ∈ A.tags i := by
  simp only [remove, ExtTreeMap.mem_erase, LawfulEqCmp.compare_eq_iff_eq, ne_eq]
  rw [@eq_comm _ G F]

variable [TransOrd T] [LawfulEqOrd T]

theorem mem_tags_addTag {tag : T} {idx : ℕ} (h : F ∈ (A.addTag tag G idx).tags i) :
    F = G ∨ F ∈ A.tags i := by
  unfold addTag at h
  split_ifs at h with hidx
  · by_cases hi : i = ⟨idx, hidx⟩
    · subst hi
      simp only [Function.update_self, ExtTreeMap.mem_addTo] at h
      rcases h with h | h
      · exact Or.inl h.symm
      · exact Or.inr h
    · simp only [Function.update_of_ne hi] at h
      exact Or.inr h
  · exact Or.inr h

end Analyzer

namespace IAnalyzer

variable {E : Env} {A : IAnalyzer} {F G : FuncPtr}

theorem HasKey.of_move {P Q : FuncPtr} (h : (A.move P Q).HasKey F) :
    F ≠ P ∧ (F = Q ∨ A.HasKey F) := by
  cases A with
  | oper A =>
    obtain ⟨i, hi⟩ := h
    obtain ⟨hP, hQ⟩ := Analyzer.mem_tags_move hi
    exact ⟨hP, hQ.imp_right fun hA => ⟨i, hA⟩⟩
  | sub A =>
    obtain ⟨i, hi⟩ := h
    obtain ⟨hP, hQ⟩ := Analyzer.mem_tags_move hi
    exact ⟨hP, hQ.imp_right fun hA => ⟨i, hA⟩⟩

theorem HasKey.of_remove (h : (A.remove G).HasKey F) : F ≠ G ∧ A.HasKey F := by
  cases A with
  | oper A =>
    obtain ⟨i, hi⟩ := h
    obtain ⟨hG, hA⟩ := Analyzer.mem_tags_remove.mp hi
    exact ⟨hG, i, hA⟩
  | sub A =>
    obtain ⟨i, hi⟩ := h
    obtain ⟨hG, hA⟩ := Analyzer.mem_tags_remove.mp hi
    exact ⟨hG, i, hA⟩

end IAnalyzer

namespace OperationLevelAnalyzer

variable {E : Env} {A : OperationLevelAnalyzer} {F G : FuncPtr} {i : Fin 2}

theorem mem_tags_addTags {calls : List (OLATag × OLATagIdx)} (h : F ∈ (A.addTags G calls).tags i) :
    F = G ∨ F ∈ A.tags i := by
  revert h
  apply Fold.foldl_invariant (I := fun B : Analyzer OLATag 2 => F ∈ B.tags i → F = G ∨ F ∈ A.tags i)
    Or.inr
  intro B c _ hB h
  rcases Analyzer.mem_tags_addTag h with h | h
  · exact Or.inl h
  · exact hB h

theorem mem_tags_update {n : ℕ} {ctx : GlobalContext} {r : OperationLevelAnalyzer × GlobalContext}
    (h : A.update E n ctx G = some r) (hF : F ∈ r.1.tags i) : F = G ∨ F ∈ A.tags i := by
  obtain ⟨s, calls, hs, _, rfl⟩ := exists_of_update h
  rw [← (manageTopLVs_spec hs).1]
  exact mem_tags_addTags hF

theorem tags_aggregate (ctx : GlobalContext) (F : FuncPtr) :
    (A.aggregate ctx F).2.toAnalyzer = A.toAnalyzer := by
  have hrel : ∀ (s : OperationLevelAnalyzer × RelSet) p,
      (relevantTopLVs ctx F s p).1.toAnalyzer = s.1.toAnalyzer := by
    intro s p
    exact Fold.foldl_frame (f := addIfRelevant ctx p.2 (s.1.descendantTags ctx F p.1))
      (p := fun s : OperationLevelAnalyzer × RelSet => s.1.toAnalyzer) (fun _ _ => rfl) _ _
  exact Fold.foldl_frame (f := relevantTopLVs ctx F)
    (p := fun s : OperationLevelAnalyzer × RelSet => s.1.toAnalyzer) hrel
    [(OLATagIdx.mod, OLATagIdx.ref), (.ref, .mod)] (A, ∅)

end OperationLevelAnalyzer

theorem SubsystemLevelAnalyzer.hasKey_update {E : Env} {A : SubsystemLevelAnalyzer} {F G : FuncPtr}
    (h : IAnalyzer.HasKey F (.sub (A.update E G))) : F = G ∨ IAnalyzer.HasKey F (.sub A) := by
  obtain ⟨i, hi⟩ := h
  unfold SubsystemLevelAnalyzer.update at hi
  dsimp only at hi
  by_cases hpre : namePrefix (E.function G).name ∈ subsyses
  · rw [if_pos hpre] at hi
    have htag : F ∈ (A.toAnalyzer.addTag (namePrefix (E.function G).name) G 0).tags i := hi
    exact (Analyzer.mem_tags_addTag htag).imp_right fun hA => ⟨i, hA⟩
  · rw [if_neg hpre] at hi
    exact Or.inr ⟨i, hi⟩

namespace IAnalyzer

variable {E : Env} {A : IAnalyzer} {F G : FuncPtr}

theorem HasKey.of_update {n : ℕ} {ctx : GlobalContext} {r : IAnalyzer × GlobalContext}
    (h : A.update E n ctx G = some r) (hF : r.1.HasKey F) : F = G ∨ A.HasKey F := by
  cases A with
  | oper A =>
    obtain ⟨s, hs, rfl⟩ := Option.map_eq_some_iff.mp h
    obtain ⟨i, hi⟩ := hF
    exact (OperationLevelAnalyzer.mem_tags_update hs hi).imp_right fun hA => ⟨i, hA⟩
  | sub A =>
    obtain rfl := Option.some.inj h
    exact SubsystemLevelAnalyzer.hasKey_update hF

theorem HasKey.of_aggregate {ctx : GlobalContext} (h : (A.aggregate ctx G).2.HasKey F) :
    A.HasKey F := by
  cases A with
  | oper A =>
    obtain ⟨i, hi⟩ := h
    refine ⟨i, ?_⟩
    rwa [← OperationLevelAnalyzer.tags_aggregate ctx G]
  | sub A => exact h

end IAnalyzer

namespace AnalyzerManager

variable {E : Env} {n : ℕ} {S S' : State} {F G : FuncPtr} {path : String}
  {delFlps newFlps : List FunctionLinePair}

def State.HasKey (S : State) (F : FuncPtr) : Prop := ∃ A ∈ S.analyzers, A.HasKey F

theorem hasKey_updateFunction (h : updateFunction E n S G = some S') (hF : S'.HasKey F) :
    F = G ∨ S.HasKey F := by
  obtain ⟨hall, _⟩ := updateFunction_spec
    (R := fun A A' => ∀ F, A'.HasKey F → F = G ∨ A.HasKey F) (by
      intro A ctx r _ _ hr F hF
      exact (IAnalyzer.HasKey.of_update hr hF).imp_right fun hA => hA.of_remove.2) h
  obtain ⟨A', hA', hkey⟩ := hF
  obtain ⟨A, hA, hrel⟩ := exists_left_of_forall₂ hall hA'
  exact (hrel F hkey).imp_right fun hAF => ⟨A, hA, hAF⟩

theorem hasKey_updateFunctions {Fs : List FuncPtr}
    (h : Fs.foldlM (updateFunction E n) S = some S') (hF : S'.HasKey F) :
    F ∈ Fs ∨ S.HasKey F := by
  apply Fold.foldlM_invariant (I := fun T : State => T.HasKey F → F ∈ Fs ∨ S.HasKey F) Or.inr _ h hF
  intro T T' G hG hT hstep hF
  rcases hasKey_updateFunction hstep hF with rfl | hF
  · exact Or.inl hG
  · exact hT hF

theorem hasKey_aggregateFunctions {doAgg : Bool} {Fs : List FuncPtr}
    (hF : (aggregateFunctions doAgg S Fs).HasKey F) : S.HasKey F := by
  unfold aggregateFunctions at hF
  split at hF
  · revert hF
    apply Fold.foldl_invariant (I := fun T : State => T.HasKey F → S.HasKey F) id
    intro T G _ hT hF
    apply hT
    rw [aggregateFunction_eq] at hF
    obtain ⟨A', hA', hkey⟩ := hF
    obtain ⟨A, hA, rfl⟩ := List.mem_map.mp hA'
    exact ⟨A, hA, hkey.of_aggregate⟩
  · exact hF

theorem hasKey_correctChange {newFL : FunctionLinePair}
    (hF : (correctChange path delFlps S newFL).HasKey F) : F = newFL.1 ∨ S.HasKey F := by
  unfold correctChange at hF
  split at hF
  · obtain ⟨A', hA', hkey⟩ := hF
    obtain ⟨A, hA, rfl⟩ := List.mem_map.mp hA'
    exact hkey.of_move.2.imp_right fun hAF => ⟨A, hA, hAF⟩
  · exact Or.inr hF

theorem hasKey_removeFunction {delFL : FunctionLinePair} (hF : (removeFunction S delFL).HasKey F) :
    F ≠ delFL.1 ∧ S.HasKey F := by
  obtain ⟨A', hA', hkey⟩ := hF
  obtain ⟨A, hA, rfl⟩ := List.mem_map.mp hA'
  exact ⟨hkey.of_remove.1, A, hA, hkey.of_remove.2⟩

theorem mem_addResult {res : Results} {name : String} {aret : AnalyzerReturn}
    (h : F ∈ addResult res G name aret) : F = G ∨ F ∈ res := by
  simp only [addResult, ExtTreeMap.mem_insert, LawfulEqCmp.compare_eq_iff_eq] at h
  exact h.imp_left Eq.symm

theorem mem_enterResults {gctx : GlobalContext} {anals : List IAnalyzer} {res : Results}
    (h : F ∈ enterResults gctx G anals res) : F = G ∨ F ∈ res := by
  revert h
  apply Fold.foldl_invariant (I := fun r : Results => F ∈ r → F = G ∨ F ∈ res) Or.inr
  intro r A _ hr h
  rcases mem_addResult h with h | h
  · exact Or.inl h
  · exact hr h

theorem mem_copyResults {res : Results} {delF newF : FuncPtr} (h : F ∈ copyResults res delF newF) :
    F = newF ∨ F = delF ∨ F ∈ res := by
  revert h
  apply Fold.foldl_invariant (I := fun r : Results => F ∈ r → F = newF ∨ F = delF ∨ F ∈ res)
  · intro h
    simp only [ExtTreeMap.mem_insert, LawfulEqCmp.compare_eq_iff_eq] at h
    exact Or.inr (h.imp_left Eq.symm)
  · intro r p _ hr h
    rcases mem_addResult h with h | h
    · exact Or.inl h
    · exact hr h

theorem mem_res_aggregateFunctions {doAgg : Bool} {Fs : List FuncPtr}
    (hF : F ∈ (aggregateFunctions doAgg S Fs).cur.res) : F ∈ Fs ∨ F ∈ S.cur.res := by
  unfold aggregateFunctions at hF
  split at hF
  · revert hF
    apply Fold.foldl_invariant (I := fun T : State => F ∈ T.cur.res → F ∈ Fs ∨ F ∈ S.cur.res) Or.inr
    intro T G hG hT hF
    rw [aggregateFunction_eq] at hF
    rcases mem_enterResults hF with rfl | hF
    · exact Or.inl hG
    · exact hT hF
  · exact Or.inr hF

theorem mem_res_correctChange {newFL : FunctionLinePair}
    (hF : F ∈ (correctChange path delFlps S newFL).cur.res) :
    F = newFL.1 ∨ F ∈ delFlps.map Prod.fst ∨ F ∈ S.cur.res := by
  unfold correctChange at hF
  split at hF
  · rename_i delFL hm
    have hdel : delFL ∈ delFlps :=
      List.mem_of_find?_eq_some (matchingDelF_iff.mp hm).1
    rcases mem_copyResults hF with h | rfl | h
    · exact Or.inl h
    · exact Or.inr (Or.inl (List.mem_map.mpr ⟨delFL, hdel, rfl⟩))
    · exact Or.inr (Or.inr h)
  · exact Or.inr (Or.inr hF)

theorem mem_res_removeFunction {delFL : FunctionLinePair}
    (hF : F ∈ (removeFunction S delFL).cur.res) : F ≠ delFL.1 ∧ F ∈ S.cur.res := by
  simp only [removeFunction, ExtTreeMap.mem_erase, LawfulEqCmp.compare_eq_iff_eq, ne_eq] at hF
  exact ⟨fun h => hF.1 h.symm, hF.2⟩

/-- Something is recorded for the function, by an analyzer or among the results. -/
def State.Recorded (S : State) (F : FuncPtr) : Prop := S.HasKey F ∨ F ∈ S.cur.res

/-- After the clean-up of a path nothing is recorded for its old functions, and nothing new
for functions that are not new. -/
theorem recorded_correctChanges (hF : (correctChanges S path delFlps newFlps).Recorded F) :
    F ∉ delFlps.map Prod.fst ∧ (F ∈ newFlps.map Prod.fst ∨ S.Recorded F) := by
  have hremoved : (newFlps.foldl (correctChange path delFlps) S).Recorded F ∧
      ∀ p ∈ delFlps, F ≠ p.1 := by
    have hstep : ∀ (T : State) p, (removeFunction T p).Recorded F → F ≠ p.1 ∧ T.Recorded F := by
      intro T p h
      rcases h with h | h
      · exact ⟨(hasKey_removeFunction h).1, Or.inl (hasKey_removeFunction h).2⟩
      · exact ⟨(mem_res_removeFunction h).1, Or.inr (mem_res_removeFunction h).2⟩
    have hgen : ∀ (ps : List FunctionLinePair) (T : State),
        (ps.foldl removeFunction T).Recorded F → T.Recorded F ∧ ∀ p ∈ ps, F ≠ p.1 := by
      intro ps
      induction ps with
      | nil => exact fun T h => ⟨h, by simp⟩
      | cons p ps ih =>
        intro T h
        obtain ⟨hT, hps⟩ := ih _ h
        obtain ⟨hp, hT⟩ := hstep T p hT
        exact ⟨hT, List.forall_mem_cons.mpr ⟨hp, hps⟩⟩
    exact hgen delFlps _ hF
  obtain ⟨hrec, hne⟩ := hremoved
  have hdel : F ∉ delFlps.map Prod.fst := by
    intro hmem
    obtain ⟨p, hp, rfl⟩ := List.mem_map.mp hmem
    exact hne p hp rfl
  refine ⟨hdel, ?_⟩
  revert hrec
  apply Fold.foldl_invariant (I := fun T : State => T.Recorded F →
    F ∈ newFlps.map Prod.fst ∨ S.Recorded F) Or.inr
  intro T p hp hT h
  rcases h with h | h
  · rcases hasKey_correctChange h with rfl | h
    · exact Or.inl (List.mem_map.mpr ⟨p, hp, rfl⟩)
    · exact hT (Or.inl h)
  · rcases mem_res_correctChange h with rfl | h | h
    · exact Or.inl (List.mem_map.mpr ⟨p, hp, rfl⟩)
    · exact absurd h hdel
    · exact hT (Or.inr h)

/-- After the clean-up of all paths, what is recorded for a function that is not new was
recorded before, and the function is not an old one. -/
theorem recorded_correctPaths {delInfos : String → List FunctionLinePair} {upPaths : List String}
    (hF : (correctPaths E delInfos S upPaths).Recorded F) :
    (∃ p ∈ upPaths, F ∈ S.gctx.getAllModuleFunctions p) ∨
      (S.Recorded F ∧ ∀ p ∈ upPaths, F ∉ (delInfos p).map Prod.fst) := by
  have hgen : ∀ (ps : List String) (T : State),
      (ps.foldl (fun T p => correctChanges T p (delInfos p) (redefInfos E S.gctx p)) T).Recorded F →
      (∃ p ∈ ps, F ∈ S.gctx.getAllModuleFunctions p) ∨
        (T.Recorded F ∧ ∀ p ∈ ps, F ∉ (delInfos p).map Prod.fst) := by
    intro ps
    induction ps with
    | nil => exact fun T h => Or.inr ⟨h, by simp⟩
    | cons p ps ih =>
      intro T h
      rcases ih _ h with ⟨q, hq, hFq⟩ | ⟨hT, hps⟩
      · exact Or.inl ⟨q, List.mem_cons_of_mem _ hq, hFq⟩
      · obtain ⟨hdel, hFp | hT⟩ := recorded_correctChanges hT
        · rw [map_fst_redefInfos] at hFp
          exact Or.inl ⟨p, List.mem_cons_self, ExtTreeSet.mem_toList.mp hFp⟩
        · exact Or.inr ⟨hT, List.forall_mem_cons.mpr ⟨hdel, hps⟩⟩
  have h := hgen _ S hF
  simpa only [ExtTreeSet.mem_toList, ExtTreeSet.mem_ofElems] using h

/-! ## Runs -/

def InBCFuncs (ctx : GlobalContext) (F : FuncPtr) : Prop :=
  ∃ p n : String, (ctx.bcFuncs.getD p ∅)[n]? = some F

theorem mem_getAllModuleFunctions {ctx : GlobalContext} {p : String} :
    F ∈ ctx.getAllModuleFunctions p ↔ ∃ n : String, (ctx.bcFuncs.getD p ∅)[n]? = some F := by
  unfold GlobalContext.getAllModuleFunctions
  rw [ExtTreeSet.mem_ofElems]
  exact TypeDive.mem_registered

theorem InBCFuncs.of_mem {ctx : GlobalContext} {p : String}
    (h : F ∈ ctx.getAllModuleFunctions p) : InBCFuncs ctx F := by
  obtain ⟨n, hn⟩ := mem_getAllModuleFunctions.mp h
  exact ⟨p, n, hn⟩

open OperationLevelAnalyzer (SameGraph)

theorem InBCFuncs.of_sameGraph {ctx ctx' : GlobalContext} (h : InBCFuncs ctx F)
    (hg : SameGraph ctx' ctx) : InBCFuncs ctx' F := by
  have hbcs := congrArg GlobalContext.bcFuncs hg
  dsimp only at hbcs
  unfold InBCFuncs
  rw [hbcs]
  exact h

theorem mem_of_mem_changedFuncs {upPaths : List String} {lines : ChangeInfo → List ℤ}
    (h : F ∈ changedFuncs E S upPaths lines) :
    ∃ p ∈ upPaths, F ∈ S.gctx.getAllModuleFunctions p := by
  obtain ⟨p, hp, hF⟩ := List.mem_flatMap.mp h
  exact ⟨p, hp, ExtTreeSet.mem_toList.mp (List.mem_filter.mp hF).1⟩

theorem inBCFuncs_next {ctx ctx' : GlobalContext} {files : List ParsedFile}
    (hL : TypeDive.Loaded E ctx) (hL' : TypeDive.Loaded E ctx')
    (hmods : ctx'.modules = TypeDive.nextModules ctx.modules files) (hF : InBCFuncs ctx F)
    (hno : ∀ p ∈ files.map Prod.fst, F ∉ ctx.getAllModuleFunctions p) : InBCFuncs ctx' F := by
  obtain ⟨p, n, hn⟩ := hF
  have hp : p ∉ files.map Prod.fst := fun hp => hno p hp (mem_getAllModuleFunctions.mpr ⟨n, hn⟩)
  obtain ⟨M, hM, hFM, hname⟩ := (hL.bcFuncs p n F).mp hn
  refine ⟨p, n, (hL'.bcFuncs p n F).mpr ⟨M, ?_, hFM, hname⟩⟩
  rw [hmods]
  exact TypeDive.mem_nextModules.mpr (Or.inl ⟨hM, hp⟩)

structure KeysLive (P : Program) : Prop where
  tags : ∀ F, P.state.HasKey F → InBCFuncs P.td.ctx F
  results : ∀ F ∈ P.cur.res, InBCFuncs P.td.ctx F

theorem Committed.keysLive {P P' : Program} {c : Commit} (hL : TypeDive.Loaded E P.td.ctx)
    (hf : TypeDive.FilesOk P.td.ctx c.files) (hP : KeysLive P) (h : Committed E n P c P') :
    KeysLive P' := by
  obtain ⟨hLtd, hmods, hgraph⟩ := h.loaded hL hf
  have hstate := h.state_eq
  have hpost := h.post_eq
  -- what is recorded when the modules have been updated
  have hold : ∀ F, (c.before E P).Recorded F → InBCFuncs P.td.ctx F := by
    intro F hF
    rcases hF with hF | hF
    · have hkey : ({ P.state with cur := Context.start c.hexsha c.cis } : State).HasKey F :=
        hasKey_aggregateFunctions hF
      exact hP.tags F hkey
    · rcases mem_res_aggregateFunctions hF with hF | hF
      · obtain ⟨p, _, hFp⟩ := mem_of_mem_changedFuncs hF
        exact InBCFuncs.of_mem hFp
      · simp [Context.start] at hF
  have hcorrect : ∀ F, (correctPaths E (redefInfos E P.td.ctx) (c.between E P h.td)
      c.upPaths).Recorded F → InBCFuncs h.td.ctx F := by
    intro F hF
    rcases recorded_correctPaths hF with ⟨p, _, hFp⟩ | ⟨hrec, hno⟩
    · exact InBCFuncs.of_mem hFp
    · apply inBCFuncs_next hL hLtd hmods (hold F hrec)
      intro p hp hFp
      apply hno p hp
      rw [map_fst_redefInfos]
      exact ExtTreeSet.mem_toList.mpr hFp
  have hchanged : ∀ F ∈ c.postFuncs E P h.td, InBCFuncs h.td.ctx F := by
    intro F hF
    obtain ⟨p, _, hFp⟩ := mem_of_mem_changedFuncs hF
    exact InBCFuncs.of_mem hFp
  constructor
  · intro F hF
    rw [hstate] at hF
    apply InBCFuncs.of_sameGraph _ hgraph
    rcases hasKey_updateFunctions hpost (hasKey_aggregateFunctions hF) with hF | hF
    · exact hchanged F hF
    · exact hcorrect F (Or.inl hF)
  · intro F hF
    have hres : F ∈ P'.state.cur.res := hF
    rw [hstate] at hres
    apply InBCFuncs.of_sameGraph _ hgraph
    rcases mem_res_aggregateFunctions hres with hF | hF
    · exact hchanged F hF
    · rw [cur_updateFunctions hpost] at hF
      exact hcorrect F (Or.inr hF)

theorem mem_getAllFunctions {ctx : GlobalContext}
    (h : F ∈ ctx.getAllFunctions.map Prod.fst) : InBCFuncs ctx F := by
  obtain ⟨⟨G, p⟩, hG, rfl⟩ := List.mem_map.mp h
  unfold GlobalContext.getAllFunctions at hG
  obtain ⟨r, hr, hGr⟩ := List.mem_flatMap.mp hG
  obtain ⟨q, hq, hGq⟩ := List.mem_map.mp hGr
  obtain ⟨rfl, rfl⟩ := Prod.mk.inj hGq
  have hrow := ExtTreeMap.mem_row_iff_exists.mpr ⟨r, hr, rfl, ExtTreeSet.mem_toList.mp hq⟩
  rw [Fold.foldl_or (P := fun m : SortedMap FuncPtr (SortedSet String) => q ∈ m.row r.1)
    (Q := fun e : String × SortedMap String FuncPtr =>
      ∃ p2 ∈ e.2.toList, p2.2 = r.1 ∧ e.1 = q)] at hrow
  · rcases hrow with hrow | ⟨e, he, p2, hp2, hF, hpath⟩
    · simp at hrow
    · refine ⟨e.1, p2.1, ?_⟩
      rw [ExtTreeMap.getD_eq_getD_getElem?, ExtTreeMap.mem_toList_iff_getElem?_eq_some.mp he,
        Option.getD_some, ExtTreeMap.mem_toList_iff_getElem?_eq_some.mp hp2, hF]
  · intro m e
    rw [Fold.foldl_or (P := fun m : SortedMap FuncPtr (SortedSet String) => q ∈ m.row r.1)
      (Q := fun p2 : String × FuncPtr => p2.2 = r.1 ∧ e.1 = q)]
    intro m p2
    rw [ExtTreeMap.mem_row_addTo, or_comm]

/-- In every state of a run, tags and results are recorded for functions in `BCFuncs` only. -/
theorem keys_live {seen : List ModPtr} {P : Program} (h : Managed E (fun _ _ => True) seen P) :
    KeysLive P := by
  induction h with
  | init n analyzers files outPath hanals hp hm hstep =>
    obtain ⟨S, hS, hP⟩ := Option.bind_eq_some_iff.mp hstep
    obtain rfl := Option.some.inj hP
    have hgraph := sameGraph_updateFunctions hS
    constructor
    · intro F hF
      apply InBCFuncs.of_sameGraph _ hgraph
      rcases hasKey_updateFunctions hS hF with hF | hF
      · exact mem_getAllFunctions hF
      · obtain ⟨A, hA, hkey⟩ := hF
        have hreg := hanals.mem_iff.mp hA
        simp only [registeredAnalyzers, List.mem_cons, List.not_mem_nil, or_false] at hreg
        rcases hreg with rfl | rfl <;> obtain ⟨i, hi⟩ := hkey <;> simp at hi
    · have hcur : S.cur = {} := cur_updateFunctions hS
      show ∀ F ∈ S.cur.res, _
      rw [hcur]
      simp
  | commit n c hP hp hm hfresh _ hstep ih =>
    obtain ⟨hc⟩ := c.committed hstep
    exact hc.keysLive hP.loaded.1 ⟨hp, hm, hfresh⟩ ih

/-- Two versions of a file with a function that spans two lines. -/
def reader : Module where
  values := [{ kind := .function { name := "wav_read", insts := [1], subprogramLine := some 3 } },
    { kind := .instruction .other, debugLine := some 4 }]
  types := []
  functions := [0]
  names_nodup := by decide
  functions_listed := by decide

def readerFiles : Env := Env.ofModules [reader, reader]

/-- The function is changed. -/
def readerCommit : Commit where
  hexsha := "c1"
  files := [("a.bc", 1)]
  cis := [{ bcPath := "a.bc", delLines := [4], addLines := [4] }]
  doAgg := true

theorem exists_readerCommit : ∃ P P', Managed readerFiles (fun _ _ => True) [0] P ∧
    readerCommit.run readerFiles 2 P = some P' := by
  have hrun : ((initializeProgram readerFiles 2 registeredAnalyzers
      (TypeDive.parsed [("a.bc", 0)]) "out").bind (readerCommit.run readerFiles 2)).isSome = true := by
    decide
  obtain ⟨P', hP'⟩ := Option.isSome_iff_exists.mp hrun
  obtain ⟨P, hP, hstep⟩ := Option.bind_eq_some_iff.mp hP'
  exact ⟨P, P', Managed.init 2 registeredAnalyzers [("a.bc", 0)] "out" (List.Perm.refl _)
    (by decide) (by decide) hP, hstep⟩

theorem keys_live_changed : ∃ P P', readerCommit.run readerFiles 2 P = some P' ∧ KeysLive P' := by
  obtain ⟨P, P', hP, hstep⟩ := exists_readerCommit
  exact ⟨P, P', hstep, keys_live (hP.commit 2 readerCommit (by decide) (by decide)
    (hP.fresh_of_seen (by decide)) trivial hstep)⟩

end AnalyzerManager

end Cisa

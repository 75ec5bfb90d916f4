import Cisa.AnalyzerManager.Commits
import Cisa.Analyzer.TopLevelTags
import Cisa.CallGraph.Runs

/-!
# Runs of the analyzer manager

A run loads files and then processes commits. The analyzers only look at the call graph
and write its caches, so every state has the module tables of a loaded program.
-/

namespace Cisa

open Std

open OperationLevelAnalyzer (SameGraph)

theorem OperationLevelAnalyzer.sameGraph_update {E : Env} {A : OperationLevelAnalyzer} {n : ℕ}
    {ctx : GlobalContext} {F : FuncPtr} {r : OperationLevelAnalyzer × GlobalContext}
    (h : A.update E n ctx F = some r) : SameGraph r.2 ctx := by
  obtain ⟨s, _, hs, _, rfl⟩ := exists_of_update h
  exact (manageTopLVs_spec hs).2.1

theorem IAnalyzer.sameGraph_update {E : Env} {A : IAnalyzer} {n : ℕ} {ctx : GlobalContext}
    {F : FuncPtr} {r : IAnalyzer × GlobalContext} (h : A.update E n ctx F = some r) :
    SameGraph r.2 ctx := by
  cases A with
  | oper A =>
    obtain ⟨s, hs, rfl⟩ := Option.map_eq_some_iff.mp h
    exact OperationLevelAnalyzer.sameGraph_update hs
  | sub A =>
    obtain rfl := Option.some.inj h
    rfl

@[simp] theorem IAnalyzer.name_aggregate (A : IAnalyzer) (ctx : GlobalContext) (F : FuncPtr) :
    (A.aggregate ctx F).2.name = A.name := by
  cases A <;> rfl

namespace AnalyzerManager

variable {E : Env} {n : ℕ} {S S' : State} {F : FuncPtr}

theorem updateFunction_spec {R : IAnalyzer → IAnalyzer → Prop}
    (hR : ∀ A ctx r, A ∈ S.analyzers → SameGraph ctx S.gctx →
      (A.remove F).update E n ctx F = some r → R A r.1)
    (h : updateFunction E n S F = some S') :
    List.Forall₂ R S.analyzers S'.analyzers ∧ SameGraph S'.gctx S.gctx ∧ S'.cur = S.cur := by
  unfold updateFunction at h
  simp only [Option.bind_eq_bind, Option.pure_def] at h
  obtain ⟨⟨anals, gctx⟩, hrun, hS⟩ := Option.bind_eq_some_iff.mp h
  obtain rfl := Option.some.inj hS
  have hgen : ∀ (pre post done : List IAnalyzer) (ctx : GlobalContext)
      (s : List IAnalyzer × GlobalContext), S.analyzers = pre ++ post →
      List.Forall₂ R pre done → SameGraph ctx S.gctx →
      ((post.map (IAnalyzer.remove F)).foldlM (fun s A => (A.update E n s.2 F).bind fun r =>
        some (s.1 ++ [r.1], r.2)) (done, ctx)) = some s →
      List.Forall₂ R S.analyzers s.1 ∧ SameGraph s.2 S.gctx := by
    intro pre post
    induction post generalizing pre with
    | nil =>
      intro done ctx s hpre hdone hctx hs
      obtain rfl := Option.some.inj hs
      rw [List.append_nil] at hpre
      exact ⟨hpre ▸ hdone, hctx⟩
    | cons A post ih =>
      intro done ctx s hpre hdone hctx hs
      rw [List.map_cons, List.foldlM_cons] at hs
      obtain ⟨t, ht, hs⟩ := Option.bind_eq_some_iff.mp hs
      obtain ⟨r, hr, ht⟩ := Option.bind_eq_some_iff.mp ht
      obtain rfl := Option.some.inj ht
      have hA : A ∈ S.analyzers := by simp [hpre]
      apply ih (pre ++ [A]) (done ++ [r.1]) r.2 s (by simp [hpre]) _ _ hs
      · exact List.rel_append hdone (List.Forall₂.cons (hR A ctx r hA hctx hr) List.Forall₂.nil)
      · exact (IAnalyzer.sameGraph_update hr).trans hctx
  obtain ⟨hall, hgraph⟩ := hgen [] S.analyzers [] S.gctx (anals, gctx) rfl List.Forall₂.nil rfl hrun
  exact ⟨hall, hgraph, rfl⟩

theorem sameGraph_updateFunction (h : updateFunction E n S F = some S') :
    SameGraph S'.gctx S.gctx ∧ S'.cur = S.cur :=
  (updateFunction_spec (R := fun _ _ => True) (fun _ _ _ _ _ _ => trivial) h).2

theorem exists_left_of_forall₂ {α β : Type} {R : α → β → Prop} {l : List α} {l' : List β}
    (h : List.Forall₂ R l l') {b : β} (hb : b ∈ l') : ∃ a ∈ l, R a b := by
  induction h with
  | nil => simp at hb
  | cons hR _ ih =>
    rcases List.mem_cons.mp hb with rfl | hb
    · exact ⟨_, List.mem_cons_self, hR⟩
    · obtain ⟨a, ha, hab⟩ := ih hb
      exact ⟨a, List.mem_cons_of_mem _ ha, hab⟩

def enterResults (gctx : GlobalContext) (F : FuncPtr) (anals : List IAnalyzer) (res : Results) :
    Results :=
  anals.foldl (fun res A => addResult res F A.name (A.aggregate gctx F).1) res

theorem aggregateFunction_eq (S : State) (F : FuncPtr) :
    aggregateFunction S F =
      { S with
        analyzers := S.analyzers.map fun A => (A.aggregate S.gctx F).2
        cur := { S.cur with res := enterResults S.gctx F S.analyzers S.cur.res } } := by
  have hgen : ∀ (anals done : List IAnalyzer) (res : Results),
      anals.foldl (fun s A => (s.1 ++ [(A.aggregate S.gctx F).2],
        addResult s.2 F (A.aggregate S.gctx F).2.name (A.aggregate S.gctx F).1)) (done, res) =
      (done ++ anals.map (fun A => (A.aggregate S.gctx F).2), enterResults S.gctx F anals res) := by
    intro anals
    induction anals with
    | nil =>
      intro done res
      rw [List.map_nil, List.append_nil]
      rfl
    | cons A anals ih =>
      intro done res
      rw [List.foldl_cons, ih, List.map_cons, List.append_assoc, IAnalyzer.name_aggregate]
      rfl
  exact congrArg (fun s : List IAnalyzer × Results =>
    ({ S with analyzers := s.1, cur := { S.cur with res := s.2 } } : State))
    (hgen S.analyzers [] S.cur.res)

theorem gctx_correctChanges (S : State) (path : String) (delFlps newFlps : List FunctionLinePair) :
    (correctChanges S path delFlps newFlps).gctx = S.gctx := by
  have hchange : ∀ (T : State) p, (correctChange path delFlps T p).gctx = T.gctx := by
    intro T p
    unfold correctChange
    split <;> rfl
  exact (Fold.foldl_frame (f := removeFunction) (p := State.gctx) (fun _ _ => rfl) _ _).trans
    (Fold.foldl_frame (p := State.gctx) hchange _ _)

theorem gctx_correctPaths (delInfos : String → List FunctionLinePair) (S : State)
    (upPaths : List String) : (correctPaths E delInfos S upPaths).gctx = S.gctx :=
  Fold.foldl_frame (p := State.gctx) (fun T _ => gctx_correctChanges T _ _ _) _ _

theorem gctx_aggregateFunctions (doAgg : Bool) (S : State) (Fs : List FuncPtr) :
    (aggregateFunctions doAgg S Fs).gctx = S.gctx := by
  unfold aggregateFunctions
  split
  · exact Fold.foldl_frame (p := State.gctx) (fun T F => by rw [aggregateFunction_eq]) _ _
  · rfl

theorem sameGraph_updateFunctions {Fs : List FuncPtr}
    (h : Fs.foldlM (updateFunction E n) S = some S') : SameGraph S'.gctx S.gctx :=
  Fold.foldlM_invariant (I := fun T : State => SameGraph T.gctx S.gctx) rfl
    (fun _ _ _ _ hT hstep => (sameGraph_updateFunction hstep).1.trans hT) h

theorem cur_updateFunctions {Fs : List FuncPtr}
    (h : Fs.foldlM (updateFunction E n) S = some S') : S'.cur = S.cur :=
  Fold.foldlM_invariant (I := fun T : State => T.cur = S.cur) rfl
    (fun _ _ _ _ hT hstep => (sameGraph_updateFunction hstep).2.trans hT) h

theorem paths_parsed (files : List ParsedFile) :
    (TypeDive.parsed files).map Prod.fst = files.map Prod.fst := by
  simp [TypeDive.parsed, Function.comp_def]

/-- What `UpdateModules` is given, for files that parse. -/
structure Commit where
  hexsha : String
  files : List ParsedFile
  cis : List ChangeInfo
  doAgg : Bool

def Commit.upPaths (c : Commit) : List String := c.files.map Prod.fst

/-- The commit is processed; `n` is the budget of the loops of an update. -/
def Commit.run (E : Env) (n : ℕ) (P : Program) (c : Commit) : Option Program :=
  updateModules E n P c.hexsha (TypeDive.parsed c.files) c.cis c.doAgg

/-- The state when the modules are updated. -/
def Commit.before (E : Env) (P : Program) (c : Commit) : State :=
  beforeUpdate E P c.hexsha c.cis c.upPaths c.doAgg

/-- The state after the update of the modules, which left `td`. -/
def Commit.between (E : Env) (P : Program) (c : Commit) (td : CallGraphPass) : State :=
  { c.before E P with gctx := td.ctx }

theorem Commit.cis_between (E : Env) (P : Program) (c : Commit) (td : CallGraphPass) :
    (c.between E P td).cur.cis = (Context.start c.hexsha c.cis).cis := by
  unfold Commit.between Commit.before beforeUpdate aggregateFunctions
  split
  · exact Fold.foldl_frame (p := fun U : State => U.cur.cis)
      (fun U F => by rw [aggregateFunction_eq]) _ _
  · rfl

/-- The changed new functions. -/
def Commit.postFuncs (E : Env) (P : Program) (c : Commit) (td : CallGraphPass) : List FuncPtr :=
  changedFuncs E (c.between E P td) c.upPaths ChangeInfo.addLines

/-- The parts of a commit that got through. -/
structure Committed (E : Env) (n : ℕ) (P : Program) (c : Commit) (P' : Program) where
  /-- The call graph generator after its update. -/
  td : CallGraphPass
  /-- The state after the changed new functions have been updated. -/
  post : State
  td_eq : TypeDive.updateModules E P.td (TypeDive.parsed c.files) = some td
  post_eq : (c.postFuncs E P td).foldlM (updateFunction E n)
    (correctPaths E (redefInfos E P.td.ctx) (c.between E P td) c.upPaths) = some post
  state_eq : P'.state = aggregateFunctions c.doAgg post (c.postFuncs E P td)

@[simp] theorem Commit.gctx_before {P : Program} (c : Commit) : (c.before E P).gctx = P.td.ctx :=
  gctx_aggregateFunctions _ _ _

theorem Commit.committed {P P' : Program} {c : Commit} (h : c.run E n P = some P') :
    Nonempty (Committed E n P c P') := by
  unfold Commit.run updateModules at h
  simp only [Option.bind_eq_bind, Option.pure_def, paths_parsed] at h
  obtain ⟨td, htd, h⟩ := Option.bind_eq_some_iff.mp h
  obtain ⟨post, hpost, h⟩ := Option.bind_eq_some_iff.mp h
  have hP := Option.some.inj h
  have hgctx : (beforeUpdate E P c.hexsha c.cis (c.files.map Prod.fst) c.doAgg).gctx = P.td.ctx :=
    c.gctx_before
  rw [hgctx] at htd
  refine ⟨td, post, htd, hpost, ?_⟩
  rw [← hP]
  split <;> rfl

/-- One object of every class; the order of registration is that of the linker. -/
def registeredAnalyzers : List IAnalyzer := [.oper {}, .sub {}]

/-- The states of a run; `seen` are the modules loaded so far, and `C` is assumed of every
commit and the state before it. -/
inductive Managed (E : Env) (C : Program → Commit → Prop) : List ModPtr → Program → Prop
  | init (n : ℕ) (analyzers : List IAnalyzer) (files : List ParsedFile) (outPath : String)
      {P : Program} (analyzers_perm : analyzers.Perm registeredAnalyzers)
      (paths_nodup : (files.map Prod.fst).Nodup) (mods_nodup : (files.map Prod.snd).Nodup)
      (step : initializeProgram E n analyzers (TypeDive.parsed files) outPath = some P) :
      Managed E C (files.map Prod.snd) P
  | commit (n : ℕ) (c : Commit) {seen : List ModPtr} {P P' : Program} (managed : Managed E C seen P)
      (paths_nodup : c.upPaths.Nodup) (mods_nodup : (c.files.map Prod.snd).Nodup)
      (fresh : ∀ f ∈ c.files, f.2 ∉ P.td.ctx.modules.map Prod.fst) (hC : C P c)
      (step : c.run E n P = some P') :
      Managed E C (c.files.map Prod.snd ++ seen) P'

open TypeDive

theorem Loaded.of_sameGraph {ctx ctx' : GlobalContext} (h : Loaded E ctx)
    (hg : SameGraph ctx' ctx) : Loaded E ctx' := by
  have hmods := congrArg GlobalContext.modules hg
  have hmaps := congrArg GlobalContext.moduleMaps hg
  have hrev := congrArg GlobalContext.moduleRevMaps hg
  have hcallers := congrArg GlobalContext.callerPaths hg
  have hcands := congrArg GlobalContext.candCallerPaths hg
  have hbcs := congrArg GlobalContext.bcFuncs hg
  dsimp only at hmods hmaps hrev hcallers hcands hbcs
  refine ⟨Tables.congr ?_ h.toTables, h.toCallersLoaded.congr hmods hcallers hcands, ?_⟩
  · simp only [moduleTables, hmods, hmaps, hrev]
  · rw [hmods, hbcs]
    exact h.bcFuncs

theorem Committed.loaded {P P' : Program} {c : Commit} (hL : Loaded E P.td.ctx)
    (hf : FilesOk P.td.ctx c.files) (h : Committed E n P c P') :
    Loaded E h.td.ctx ∧ h.td.ctx.modules = nextModules P.td.ctx.modules c.files ∧
      SameGraph P'.td.ctx h.td.ctx := by
  obtain ⟨td, hrun, hloaded, hmodules⟩ := updateModules_loaded hL hf
  have heq := Option.some.inj (hrun.symm.trans h.td_eq)
  subst heq
  refine ⟨hloaded, hmodules, ?_⟩
  have hpost := sameGraph_updateFunctions h.post_eq
  rw [gctx_correctPaths] at hpost
  have hP : P'.td.ctx = h.post.gctx := by
    have hgctx := congrArg State.gctx h.state_eq
    rw [gctx_aggregateFunctions] at hgctx
    exact hgctx
  rw [hP]
  exact hpost

theorem Managed.loaded {C : Program → Commit → Prop} {seen : List ModPtr} {P : Program}
    (h : Managed E C seen P) :
    Loaded E P.td.ctx ∧ ∀ M ∈ P.td.ctx.modules.map Prod.fst, M ∈ seen := by
  induction h with
  | init n analyzers files outPath _ hp hm hstep =>
    obtain ⟨S, hS, hP⟩ := Option.bind_eq_some_iff.mp hstep
    obtain rfl := Option.some.inj hP
    have hgraph := sameGraph_updateFunctions hS
    have hfirst : Reached E (fun _ => True) (fun _ _ => True) (files.map Prod.snd)
        (initializeModules E (parsed files)) := Reached.init files hp hm trivial
    refine ⟨Loaded.of_sameGraph hfirst.loaded.1 hgraph, ?_⟩
    have hmods := congrArg GlobalContext.modules hgraph
    dsimp only at hmods
    show ∀ M ∈ S.gctx.modules.map Prod.fst, _
    rw [hmods]
    exact hfirst.loaded.2
  | commit n c _ hp hm hfresh _ hstep ih =>
    obtain ⟨hL, hseen⟩ := ih
    have hf : FilesOk _ c.files := ⟨hp, hm, hfresh⟩
    obtain ⟨hc⟩ := c.committed hstep
    obtain ⟨hLtd, hmods, hgraph⟩ := hc.loaded hL hf
    refine ⟨Loaded.of_sameGraph hLtd hgraph, ?_⟩
    have hmods' := congrArg GlobalContext.modules hgraph
    dsimp only at hmods'
    rw [hmods', hmods]
    exact seen_of_nextModules hseen

theorem Managed.fresh_of_seen {C : Program → Commit → Prop} {seen : List ModPtr} {P : Program}
    (h : Managed E C seen P) {files : List ParsedFile} (hnew : ∀ f ∈ files, f.2 ∉ seen) :
    ∀ f ∈ files, f.2 ∉ P.td.ctx.modules.map Prod.fst :=
  fun f hf hmem => hnew f hf (h.loaded.2 _ hmem)

theorem modules_initializeProgram {analyzers : List IAnalyzer} {files : List ParsedFile}
    {outPath : String} {P : Program} (hp : (files.map Prod.fst).Nodup)
    (hm : (files.map Prod.snd).Nodup)
    (h : initializeProgram E n analyzers (parsed files) outPath = some P) :
    P.td.ctx.modules = files.map Prod.swap := by
  obtain ⟨S, hS, hP⟩ := Option.bind_eq_some_iff.mp h
  obtain rfl := Option.some.inj hP
  have hgraph := congrArg GlobalContext.modules (sameGraph_updateFunctions hS)
  dsimp only at hgraph
  refine hgraph.trans ?_
  show (initializeModules E (parsed files)).ctx.modules = _
  rw [initializeModules_eq hp hm, modules_runModules, initialState_modules hp hm]

theorem Committed.modules_eq {P P' : Program} {c : Commit} (hL : Loaded E P.td.ctx)
    (hf : FilesOk P.td.ctx c.files) (h : Committed E n P c P') :
    P'.td.ctx.modules = nextModules P.td.ctx.modules c.files := by
  obtain ⟨_, hmods, hgraph⟩ := h.loaded hL hf
  have hmods' := congrArg GlobalContext.modules hgraph
  dsimp only at hmods'
  exact hmods'.trans hmods

end AnalyzerManager

end Cisa

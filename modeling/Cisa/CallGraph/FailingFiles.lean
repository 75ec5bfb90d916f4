import Cisa.CallGraph.Runs

/-!
# Files that fail to parse

`Initialize` skips a file that cannot be loaded. `UpdateModules` keeps its null module in
the extended list, up to the pass, which takes every module of the list for a loaded one.
-/

namespace Cisa

open Std

namespace TypeDive

variable {E : Env}

open CallGraphPass

def parsing (files : List BCFile) : List ParsedFile :=
  files.filterMap fun f => f.2.map fun M => (f.1, M)

def failing (files : List BCFile) : List String :=
  (files.filter fun f => f.2.isNone).map Prod.fst

/-- The states of a run whose lists may have files that fail to parse; `seen` are the
modules loaded so far. -/
inductive Survived (E : Env) : List ModPtr → CallGraphPass → Prop
  | init (files : List BCFile) (paths_nodup : (files.map Prod.fst).Nodup)
      (mods_nodup : ((parsing files).map Prod.snd).Nodup) :
      Survived E ((parsing files).map Prod.snd) (initializeModules E files)
  | update {seen : List ModPtr} {S S' : CallGraphPass} (files : List BCFile)
      (survived : Survived E seen S) (paths_nodup : (files.map Prod.fst).Nodup)
      (mods_nodup : ((parsing files).map Prod.snd).Nodup)
      (fresh : ∀ f ∈ parsing files, f.2 ∉ S.ctx.modules.map Prod.fst)
      (step : updateModules E S files = some S') :
      Survived E ((parsing files).map Prod.snd ++ seen) S'

/-- The program without the file of a path: its functions, its module and its recorded
callers are dropped as `updateModules` drops them for a replaced module. -/
def removeFile (E : Env) (S : CallGraphPass) (path : String) : CallGraphPass :=
  let S := invalidatePre E ∅ { S with ctx := invalidatePost S.ctx path } (none, path)
  let x := eraseCallerPath (eraseCandCallerPath { ctx := S.ctx } path) path
  { S with ctx := x.ctx }

/-- Nothing of the module that was loaded from the path is left. -/
structure Forgotten (E : Env) (S S' : CallGraphPass) (path : String) : Prop where
  modules : path ∉ S'.ctx.modules.map Prod.snd
  moduleRevMaps : path ∉ S'.ctx.moduleRevMaps
  bcFuncs : path ∉ S'.ctx.bcFuncs
  edges : ∀ M, (M, path) ∈ S.ctx.modules → ∀ F ∈ E.functions M, ∀ G,
    F ∉ S'.ctx.callees.row G ∧ F ∉ S'.ctx.callers.row G

/-- The update uses no null module, forgets the paths that failed to parse, and updates
the other ones as if the program did not have them. -/
def HandlesFailing (E : Env) (S : CallGraphPass) (files : List BCFile) : Prop :=
  ∃ S', updateModules E S files = some S' ∧ (∀ path ∈ failing files, Forgotten E S S' path) ∧
    updateModules E ((failing files).foldl (removeFile E) S) (parsed (parsing files)) = some S'

theorem mem_mlist_addAff {paths : List String} {x : Extension} {path : String}
    {e : Option ModPtr × String} (h : e ∈ x.mlist) : e ∈ (addAff paths x path).mlist := by
  unfold addAff
  split_ifs
  · exact h
  · exact h
  · exact List.mem_append_left _ h

theorem mem_mlist_extend {paths : List String} {x : Extension} {file : BCFile}
    {e : Option ModPtr × String} (h : e ∈ x.mlist ∨ e = (file.2, file.1)) :
    e ∈ (extend E paths x file).mlist := by
  have hmem : e ∈ x.mlist ++ [(file.2, file.1)] := by simpa using h
  obtain ⟨path, M⟩ := file
  unfold extend
  cases M with
  | none => exact hmem
  | some M =>
    have hadd : ∀ (ps : List String) (y : Extension), e ∈ y.mlist →
        e ∈ (ps.foldl (addAff paths) y).mlist := fun ps y hy =>
      Fold.foldl_invariant (I := fun y : Extension => e ∈ y.mlist) hy
        fun _ _ _ hz => mem_mlist_addAff hz
    apply hadd
    apply Fold.foldl_invariant (I := fun y : Extension => e ∈ y.mlist) hmem
    intro y F _ hy
    unfold addCandCallers
    split_ifs
    · exact hadd _ _ hy
    · exact hy

theorem mem_mlist_extended {ctx : GlobalContext} {files : List BCFile} {file : BCFile}
    (h : file ∈ files) : (file.2, file.1) ∈ (extended E ctx files).mlist := by
  apply Fold.foldl_of_mem (I := fun _ => True)
    (P := fun x : Extension => (file.2, file.1) ∈ x.mlist) h trivial
  · exact fun _ _ _ _ => trivial
  · exact fun _ _ _ _ hx => mem_mlist_extend (Or.inl hx)
  · exact fun _ _ => mem_mlist_extend (Or.inr rfl)

theorem run_eq_none {S : CallGraphPass} {mlist : List (Option ModPtr × String)} {path : String}
    (h : (none, path) ∈ mlist) : CallGraphPass.run E S mlist = none := by
  have hnull : mlist.mapM Prod.fst = none := by
    induction mlist with
    | nil => simp at h
    | cons e mlist ih =>
      rw [List.mapM_cons]
      rcases List.mem_cons.mp h with rfl | h
      · rfl
      · rw [ih h]
        cases e.1 <;> rfl
  rw [CallGraphPass.run, hnull, Option.map_none]

theorem updateModules_eq_none {S : CallGraphPass} {files : List BCFile} {f : BCFile}
    (h : f ∈ files) (hnone : f.2 = none) : updateModules E S files = none := by
  have hmem : (f.2, f.1) ∈ (extended E S.ctx files).mlist := mem_mlist_extended h
  rw [hnone] at hmem
  exact run_eq_none hmem

theorem parsed_parsing {files : List BCFile} (h : ∀ f ∈ files, f.2 ≠ none) :
    parsed (parsing files) = files := by
  induction files with
  | nil => rfl
  | cons f files ih =>
    have hrest := ih fun g hg => h g (List.mem_cons_of_mem _ hg)
    obtain ⟨path, M⟩ := f
    cases M with
    | none => exact absurd rfl (h _ List.mem_cons_self)
    | some M =>
      simp only [parsing, parsed, List.filterMap_cons, Option.map_some, List.map_cons] at hrest ⊢
      rw [hrest]

theorem initializeModules_parsing (files : List BCFile) :
    initializeModules E files = initializeModules E (parsed (parsing files)) := by
  have hload : ∀ ctx, files.foldl loadFile ctx = (parsed (parsing files)).foldl loadFile ctx := by
    induction files with
    | nil => exact fun _ => rfl
    | cons f files ih =>
      intro ctx
      obtain ⟨path, M⟩ := f
      cases M with
      | none => exact ih ctx
      | some M => exact ih (addModule ctx M path)
  unfold initializeModules
  rw [hload]

theorem nodup_paths_parsing {files : List BCFile} (h : (files.map Prod.fst).Nodup) :
    ((parsing files).map Prod.fst).Nodup := by
  have hsub : ((parsing files).map Prod.fst).Sublist (files.map Prod.fst) := by
    unfold parsing
    induction files with
    | nil => simp
    | cons f files ih =>
      rw [List.map_cons, List.nodup_cons] at h
      obtain ⟨path, M⟩ := f
      cases M with
      | none => exact (ih h.2).cons _
      | some M => exact (ih h.2).cons_cons _
  exact h.sublist hsub

/-- The updates that got through had no file that failed to parse. -/
theorem Survived.reached {seen : List ModPtr} {S : CallGraphPass} (h : Survived E seen S) :
    Reached E (fun _ => True) (fun _ _ => True) seen S := by
  induction h with
  | init files hp hm =>
    rw [initializeModules_parsing]
    exact Reached.init (parsing files) (nodup_paths_parsing hp) hm trivial
  | update files _ hp hm hfresh hstep ih =>
    have hall : ∀ f ∈ files, f.2 ≠ none := by
      intro f hf hnone
      rw [updateModules_eq_none hf hnone] at hstep
      cases hstep
    apply ih.update (parsing files) (nodup_paths_parsing hp) hm hfresh trivial
    rw [parsed_parsing hall]
    exact hstep

/-- In every state of a run, an update handles the files that fail to parse if and only if
there are none. -/
theorem handlesFailing_iff {seen : List ModPtr} {S : CallGraphPass} (h : Survived E seen S)
    {files : List BCFile} (hp : (files.map Prod.fst).Nodup)
    (hm : ((parsing files).map Prod.snd).Nodup)
    (hfresh : ∀ f ∈ parsing files, f.2 ∉ S.ctx.modules.map Prod.fst) :
    HandlesFailing E S files ↔ ∀ f ∈ files, f.2 ≠ none := by
  constructor
  · intro hhandles f hf hnone
    obtain ⟨S', hstep, _⟩ := hhandles
    rw [updateModules_eq_none hf hnone] at hstep
    cases hstep
  · intro hall
    have hfailing : failing files = [] := by
      simp only [failing, List.map_eq_nil_iff, List.filter_eq_nil_iff, Option.isNone_iff_eq_none]
      exact hall
    obtain ⟨_, _, hrun⟩ := h.reached.start (nodup_paths_parsing hp) hm hfresh
    have hstep := hrun
    rw [parsed_parsing hall] at hstep
    refine ⟨_, hstep, ?_, ?_⟩
    · simp [hfailing]
    · rw [hfailing]
      exact hrun

def emptyFiles : Env :=
  Env.ofModules [Module.ofFunctions [] (by decide), Module.ofFunctions [] (by decide)]

theorem handlesFailing_replaced :
    HandlesFailing emptyFiles (initializeModules emptyFiles [("a.bc", some 0), ("b.bc", none)])
      [("b.bc", some 1)] :=
  (handlesFailing_iff (Survived.init [("a.bc", some 0), ("b.bc", none)] (by decide) (by decide))
    (by decide) (by decide) (by decide)).mpr (by decide)

/-- A file is deleted: the pass gets its null module. -/
theorem handlesFailing_deleted : ¬ ∀ (seen : List ModPtr) (S : CallGraphPass),
    Survived emptyFiles seen S → ∀ files : List BCFile, (files.map Prod.fst).Nodup →
      ((parsing files).map Prod.snd).Nodup →
      (∀ f ∈ parsing files, f.2 ∉ S.ctx.modules.map Prod.fst) →
      HandlesFailing emptyFiles S files := by
  intro hall
  have hfirst : Survived emptyFiles [0] (initializeModules emptyFiles [("a.bc", some 0)]) :=
    Survived.init [("a.bc", some 0)] (by decide) (by decide)
  obtain ⟨S', hstep, _⟩ := hall _ _ hfirst [("a.bc", none)] (by decide) (by decide) (by decide)
  have hnone : (updateModules emptyFiles (initializeModules emptyFiles [("a.bc", some 0)])
      [("a.bc", none)]).isNone = true := by decide
  rw [hstep] at hnone
  cases hnone

end TypeDive

end Cisa

import Cisa.CallGraph.Runs

/-!
# What is loaded

`Contents` says which module every path holds: loading a list of files overwrites the
paths of the list. The module tables and `BCFuncs` of a run describe the contents that
its lists of files leave behind.
-/

namespace Cisa

open Std

namespace TypeDive

variable {E : Env}

open CallGraphPass

/-- The module that every path holds, if a file has been loaded from it. -/
abbrev Contents := String → Option ModPtr

def Contents.load (c : Contents) (files : List ParsedFile) : Contents := fun p =>
  match files.find? fun f => f.1 = p with
  | some f => some f.2
  | none => c p

def contents (files : List ParsedFile) (updates : List (List ParsedFile)) : Contents :=
  updates.foldl Contents.load (Contents.load (fun _ => none) files)

/-- The modules of every list are different and not loaded at any path. -/
def FreshModules : Contents → List (List ParsedFile) → Prop
  | _, [] => True
  | c, files :: updates => (files.map Prod.snd).Nodup ∧ (∀ f ∈ files, ∀ p, c p ≠ some f.2) ∧
      FreshModules (c.load files) updates

def runFiles (E : Env) (files : List ParsedFile) (updates : List (List ParsedFile)) :
    Option CallGraphPass :=
  updates.foldlM (fun S files => updateModules E S (parsed files))
    (initializeModules E (parsed files))

/-- The module tables and `BCFuncs` describe the contents. -/
structure TablesAgree (E : Env) (c : Contents) (ctx : GlobalContext) : Prop where
  one_entry : ∀ p, (ctx.modules.map Prod.snd).count p = if (c p).isSome then 1 else 0
  modules : ∀ M p, (M, p) ∈ ctx.modules ↔ c p = some M
  moduleMaps : ∀ M p, ctx.moduleMaps[M]? = some p ↔ (M, p) ∈ ctx.modules
  moduleRevMaps : ∀ (p : String) (x : Option ModPtr), ctx.moduleRevMaps[p]? = some x ↔
    ∃ M, x = some M ∧ ctx.moduleMaps[M]? = some p
  bcFuncs : ∀ (p n : String) (F : FuncPtr), (ctx.bcFuncs.getD p ∅)[n]? = some F ↔
    ∃ M, c p = some M ∧ F ∈ definitionsOf E M ∧ (E.function F).name = n

theorem Contents.load_eq_some {c : Contents} {files : List ParsedFile}
    (hp : (files.map Prod.fst).Nodup) {p : String} {M : ModPtr} :
    c.load files p = some M ↔ c p = some M ∧ p ∉ files.map Prod.fst ∨ (p, M) ∈ files := by
  unfold Contents.load
  cases hfind : files.find? fun f => f.1 = p with
  | none =>
    have hnot : p ∉ files.map Prod.fst := by
      intro hmem
      obtain ⟨f, hf, hfp⟩ := List.mem_map.mp hmem
      have hno := List.find?_eq_none.mp hfind f hf
      simp [hfp] at hno
    have hM : (p, M) ∉ files := fun hmem => hnot (List.mem_map.mpr ⟨_, hmem, rfl⟩)
    simp [hnot, hM]
  | some f =>
    have hf := List.mem_of_find?_eq_some hfind
    have hfp : f.1 = p := by simpa using List.find?_some hfind
    have hmem : p ∈ files.map Prod.fst := List.mem_map.mpr ⟨f, hf, hfp⟩
    simp only [hmem, not_true_eq_false, and_false, false_or, Option.some.injEq]
    constructor
    · intro hM
      rw [← hfp, ← hM]
      exact hf
    · intro hM
      have heq := List.inj_on_of_nodup_map hp hf hM hfp
      rw [heq]

/-- What the loaded modules say of the contents, the other tables say too. -/
theorem Loaded.tablesAgree {ctx : GlobalContext} (h : Loaded E ctx) {c : Contents}
    (hc : ∀ M p, (M, p) ∈ ctx.modules ↔ c p = some M) : TablesAgree E c ctx := by
  have hmem : ∀ p, p ∈ ctx.modules.map Prod.snd ↔ (c p).isSome = true := by
    intro p
    rw [Option.isSome_iff_exists, List.mem_map]
    constructor
    · intro hp
      obtain ⟨⟨M, q⟩, hM, rfl⟩ := hp
      exact ⟨M, (hc M q).mp hM⟩
    · intro hp
      obtain ⟨M, hM⟩ := hp
      exact ⟨(M, p), (hc M p).mpr hM, rfl⟩
  constructor
  · intro p
    split_ifs with hp
    · exact List.count_eq_one_of_mem h.paths_nodup ((hmem p).mpr hp)
    · exact List.count_eq_zero.mpr fun hin => hp ((hmem p).mp hin)
  · exact hc
  · exact h.moduleMaps
  · intro p x
    rw [h.moduleRevMaps]
    simp only [h.moduleMaps]
  · intro p n F
    rw [h.bcFuncs]
    simp only [hc]

theorem Start.mem_modules {S T : CallGraphPass} {files : List ParsedFile} {ms : List ModPtr}
    (h : Start E S files T ms) (hp : (files.map Prod.fst).Nodup) {c : Contents}
    (hc : ∀ M p, (M, p) ∈ S.ctx.modules ↔ c p = some M) (M : ModPtr) (p : String) :
    (M, p) ∈ (runModules E T ms).ctx.modules ↔ c.load files p = some M := by
  rw [modules_runModules, h.modules, mem_nextModules, Contents.load_eq_some hp, hc]

theorem Reached.updates_agree {I : List ParsedFile → Prop} {seen : List ModPtr}
    {S : CallGraphPass} {c : Contents} (hS : Reached E I (fun _ _ => True) seen S)
    (hc : ∀ M p, (M, p) ∈ S.ctx.modules ↔ c p = some M) {updates : List (List ParsedFile)}
    (hp : ∀ files ∈ updates, (files.map Prod.fst).Nodup) (hm : FreshModules c updates) :
    ∃ S', updates.foldlM (fun S files => updateModules E S (parsed files)) S = some S' ∧
      TablesAgree E (updates.foldl Contents.load c) S'.ctx := by
  induction updates generalizing seen S c with
  | nil => exact ⟨S, rfl, hS.loaded.1.tablesAgree hc⟩
  | cons files updates ih =>
    obtain ⟨hmf, hff, hmu⟩ := hm
    have hpf := hp files List.mem_cons_self
    have hfresh : ∀ f ∈ files, f.2 ∉ S.ctx.modules.map Prod.fst := by
      intro f hf hmem
      obtain ⟨⟨M, p⟩, hM, hMf⟩ := List.mem_map.mp hmem
      apply hff f hf p
      rw [← hMf]
      exact (hc M p).mp hM
    obtain ⟨_, hstart, hrun⟩ := hS.start hpf hmf hfresh
    have hnext := hS.update files hpf hmf hfresh trivial hrun
    obtain ⟨S', hS', hagree⟩ := ih hnext (hstart.mem_modules hpf hc)
      (fun fs hfs => hp fs (List.mem_cons_of_mem _ hfs)) hmu
    refine ⟨S', ?_, hagree⟩
    rw [List.foldlM_cons, hrun]
    exact hS'

/-- After every run the tables agree with each other and with what has been loaded. -/
theorem runFiles_tablesAgree (E : Env) (files : List ParsedFile)
    (updates : List (List ParsedFile))
    (hp : ∀ fs ∈ files :: updates, (fs.map Prod.fst).Nodup)
    (hm : FreshModules (fun _ => none) (files :: updates)) :
    ∃ S, runFiles E files updates = some S ∧ TablesAgree E (contents files updates) S.ctx := by
  obtain ⟨hmf, _, hmu⟩ := hm
  have hpf := hp files List.mem_cons_self
  have hfirst : Reached E (fun _ => True) (fun _ _ => True) (files.map Prod.snd)
      (initializeModules E (parsed files)) := Reached.init files hpf hmf trivial
  apply hfirst.updates_agree
  · intro M p
    rw [initializeModules_eq hpf hmf, modules_runModules, initialState_modules hpf hmf,
      Contents.load_eq_some hpf]
    simp
  · exact fun fs hfs => hp fs (List.mem_cons_of_mem _ hfs)
  · exact hmu

def fiveFiles : Env :=
  Env.ofModules (List.replicate 5 (Module.ofFunction { name := "f", guid := 1 }))

/-- `b.bc` is replaced, then `c.bc` is new, at the address of the first `b.bc`, and `a.bc` is
replaced. -/
theorem runFiles_tablesAgree_three :
    ∃ S, runFiles fiveFiles [("a.bc", 0), ("b.bc", 1)]
        [[("b.bc", 2)], [("c.bc", 1), ("a.bc", 4)]] = some S ∧
      TablesAgree fiveFiles (contents [("a.bc", 0), ("b.bc", 1)]
        [[("b.bc", 2)], [("c.bc", 1), ("a.bc", 4)]]) S.ctx := by
  apply runFiles_tablesAgree fiveFiles _ _ (by decide)
  refine ⟨by decide, by simp, by decide, ?_, by decide, ?_, trivial⟩
  · intro f hf p
    rw [Ne, Contents.load_eq_some (by decide)]
    obtain rfl := List.mem_singleton.mp hf
    simp
  · intro f hf p
    rw [Ne, Contents.load_eq_some (by decide), Contents.load_eq_some (by decide)]
    rcases List.mem_pair.mp hf with rfl | rfl
    · simp +contextual
    · simp

end TypeDive

end Cisa

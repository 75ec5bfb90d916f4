import Cisa.CallGraph.Runs

/-!
# The definition map

`GlobalFuncMap` is to hold, under every GUID, the definition with external linkage that
the loaded modules have for it. Definitions enter it by linkage, but are erased from it
by GUID alone, whatever the linkage of the function that is analysed again.
-/

namespace Cisa

open Std

namespace TypeDive

variable {E : Env}

open CallGraphPass

/-- At most one function with external linkage is defined per GUID. -/
def UniqueExternals (E : Env) (ms : List ModPtr) : Prop :=
  ∀ (k : ℕ) (F G : FuncPtr), DefinedIn E ms k F → DefinedIn E ms k G → F = G

/-- `GlobalFuncMap` holds the live definitions with external linkage, under their GUIDs. -/
def DefinitionMapExact (E : Env) (ctx : GlobalContext) : Prop :=
  ∀ (k : ℕ) (F : FuncPtr), ctx.globalFuncMap[k]? = some F ↔
    DefinedIn E (ctx.modules.map Prod.fst) k F

/-- No definition that is analysed again has the GUID of an external definition in a
module that is not. -/
def KeepsDefinitions (E : Env) (ctx : GlobalContext) (files : List ParsedFile) : Prop :=
  ∀ M p, (M, p) ∈ ctx.modules → ¬ Reprocessed E ctx files p →
    ∀ F ∈ E.functions M, isGlobalDefinition E F = true →
      ¬ ∃ G, OldDefinition E ctx files G ∧ (E.function G).guid = (E.function F).guid

theorem uniqueExternals_of_nodup {ms : List ModPtr}
    (h : (((ms.flatMap E.functions).filter (isGlobalDefinition E)).map
      fun F => (E.function F).guid).Nodup) : UniqueExternals E ms := by
  rintro k F G ⟨M, hM, hF, hdefF, rfl⟩ ⟨N, hN, hG, hdefG, hk⟩
  apply List.inj_on_of_nodup_map h
  · exact List.mem_filter.mpr ⟨List.mem_flatMap.mpr ⟨M, hM, hF⟩, hdefF⟩
  · exact List.mem_filter.mpr ⟨List.mem_flatMap.mpr ⟨N, hN, hG⟩, hdefG⟩
  · exact hk.symm

theorem keepsDefinitions_of_nodup {ctx : GlobalContext} (ht : Tables ctx)
    {files : List ParsedFile} (h : (((ctx.modules.map Prod.fst).flatMap (definitionsOf E)).map
      fun F => (E.function F).guid).Nodup) : KeepsDefinitions E ctx files := by
  rintro M p hM hp F hF hdef ⟨G, ⟨N, ⟨q, hN, hq⟩, hG⟩, hguid⟩
  have hmem : ∀ {K r A}, (K, r) ∈ ctx.modules → A ∈ definitionsOf E K →
      A ∈ (ctx.modules.map Prod.fst).flatMap (definitionsOf E) := by
    intro K r A hK hA
    exact List.mem_flatMap.mpr ⟨K, List.mem_map.mpr ⟨_, hK, rfl⟩, hA⟩
  have hFdef := mem_definitionsOf.mpr ⟨hF, isDeclaration_of_isGlobalDefinition hdef⟩
  obtain rfl := List.inj_on_of_nodup_map h (hmem hN hG) (hmem hM hFdef) hguid
  have hNM : N = M := (mod_of_mem_definitionsOf hG).symm.trans (mod_of_mem_definitionsOf hFdef)
  subst hNM
  exact hp (ht.eq_of_mod hM hN ▸ hq)

theorem definitionMapExact_initial {files : List ParsedFile} (hp : (files.map Prod.fst).Nodup)
    (hm : (files.map Prod.snd).Nodup) (hu : UniqueExternals E (files.map Prod.snd)) :
    DefinitionMapExact E (runModules E (initialState E files) (files.map Prod.snd)).ctx := by
  have hempty := congrArg GlobalContext.globalFuncMap (initialState_empty (E := E) hp hm)
  simp only [forgetTables] at hempty
  have hmods : ((files.map Prod.swap).map Prod.fst) = files.map Prod.snd := by
    simp [Function.comp_def]
  intro k F
  rw [modules_runModules, initialState_modules hp hm, hmods, globalFuncMap_runModules]
  have hsound : ∀ G, (initialized E (initialState E files) (files.map
      Prod.snd)).ctx.globalFuncMap[k]? = some G → DefinedIn E (files.map Prod.snd) k G := by
    intro G hG
    rcases getElem?_initialized hG with hG | hG
    · simp [hempty] at hG
    · exact hG
  constructor
  · exact hsound F
  · intro hF
    cases hk : (initialized E (initialState E files) (files.map
        Prod.snd)).ctx.globalFuncMap[k]? with
    | none => exact absurd hF ((getElem?_initialized_eq_none.mp hk).2 F)
    | some G => rw [hu k F G hF (hsound G hk)]

section Update

variable {S T : CallGraphPass} {files : List ParsedFile} {ms : List ModPtr}

/-- The step: from an exact map, an update leads to an exact map if and only if it erases
no definition of a module that it does not analyse. -/
theorem Start.definitionMapExact_iff (h : Start E S files T ms) (hL : Loaded E S.ctx)
    (hf : FilesOk S.ctx files)
    (hu : UniqueExternals E ((nextModules S.ctx.modules files).map Prod.fst))
    (hS : DefinitionMapExact E S.ctx) :
    DefinitionMapExact E (runModules E T ms).ctx ↔ KeepsDefinitions E S.ctx files := by
  have hT : ∀ {k F}, T.ctx.globalFuncMap[k]? = some F →
      DefinedIn E ((nextModules S.ctx.modules files).map Prod.fst) k F := by
    intro k F hF
    obtain ⟨hSF, hno⟩ := (h.globalFuncMap k F).mp hF
    obtain ⟨M, hM, hFM, hdef, hk⟩ := (hS k F).mp hSF
    obtain ⟨⟨M, p⟩, hMp, rfl⟩ := List.mem_map.mp hM
    refine ⟨M, List.mem_map.mpr ⟨(M, p), mem_nextModules.mpr (Or.inl ⟨hMp, ?_⟩), rfl⟩,
      hFM, hdef, hk⟩
    intro hp
    exact hno ⟨F, ⟨M, ⟨p, hMp, Or.inl hp⟩, mem_definitionsOf.mpr
      ⟨hFM, isDeclaration_of_isGlobalDefinition hdef⟩⟩, hk⟩
  have hsound : ∀ {k F}, (runModules E T ms).ctx.globalFuncMap[k]? = some F →
      DefinedIn E ((nextModules S.ctx.modules files).map Prod.fst) k F := by
    intro k F hF
    rw [globalFuncMap_runModules] at hF
    rcases getElem?_initialized hF with hF | hF
    · exact hT hF
    · exact hF.mono fun M hM => h.mem_next hM
  constructor
  · intro hnew M p hM hp F hF hdef ⟨G, hG, hguid⟩
    have hlive : DefinedIn E ((nextModules S.ctx.modules files).map Prod.fst)
        (E.function F).guid F := by
      have hnext : (M, p) ∈ nextModules S.ctx.modules files :=
        mem_nextModules.mpr (Or.inl ⟨hM, fun hpf => hp (Or.inl hpf)⟩)
      exact ⟨M, List.mem_map.mpr ⟨_, hnext, rfl⟩, hF, hdef, rfl⟩
    have hget : (runModules E T ms).ctx.globalFuncMap[(E.function F).guid]? = some F := by
      rw [hnew, modules_runModules, h.modules]
      exact hlive
    rw [globalFuncMap_runModules] at hget
    rcases getElem?_initialized hget with hget | ⟨N, hN, hFN, _⟩
    · exact ((h.globalFuncMap _ F).mp hget).2 ⟨G, hG, hguid⟩
    · have hNM : N = M := (E.mod_of_mem_functions hFN).symm.trans (E.mod_of_mem_functions hF)
      exact h.not_mem_ms hL hf hM hp (hNM ▸ hN)
  · intro hkeep k F
    rw [modules_runModules, h.modules]
    refine ⟨hsound, fun hF => ?_⟩
    cases hk : (runModules E T ms).ctx.globalFuncMap[k]? with
    | some G => rw [hu k F G hF (hsound hk)]
    | none =>
      rw [globalFuncMap_runModules] at hk
      obtain ⟨hTk, hno⟩ := getElem?_initialized_eq_none.mp hk
      obtain ⟨M, hM, hFM, hdef, rfl⟩ := hF
      obtain ⟨⟨M, p⟩, hMp, rfl⟩ := List.mem_map.mp hM
      rcases h.next_cases hMp with hms | ⟨hold, hp⟩
      · exact absurd ⟨M, hms, hFM, hdef, rfl⟩ (hno F)
      · have hSF := (hS _ F).mpr ⟨M, List.mem_map.mpr ⟨_, hold, rfl⟩, hFM, hdef, rfl⟩
        have hTF := (h.globalFuncMap _ F).mpr ⟨hSF, hkeep M p hold hp F hFM hdef⟩
        simp [hTF] at hTk

end Update

/-- From a run whose updates erase no definition of a module they do not analyse, the map
is exact; and the next update keeps it exact if and only if it does not do so either. -/
theorem definitionMap_exact_iff {seen : List ModPtr} {S : CallGraphPass}
    (hS : Reached E (fun files => UniqueExternals E (files.map Prod.snd))
      (fun S files => UniqueExternals E ((nextModules S.ctx.modules files).map Prod.fst) ∧
        KeepsDefinitions E S.ctx files) seen S) :
    DefinitionMapExact E S.ctx ∧
      ∀ (files : List ParsedFile) (S' : CallGraphPass), (files.map Prod.fst).Nodup →
        (files.map Prod.snd).Nodup → (∀ f ∈ files, f.2 ∉ S.ctx.modules.map Prod.fst) →
        UniqueExternals E ((nextModules S.ctx.modules files).map Prod.fst) →
        updateModules E S (parsed files) = some S' →
        (DefinitionMapExact E S'.ctx ↔ KeepsDefinitions E S.ctx files) := by
  have hexact : DefinitionMapExact E S.ctx := by
    apply hS.invariant (J := fun _ S => DefinitionMapExact E S.ctx)
    · exact fun files hp hm hu => definitionMapExact_initial hp hm hu
    · exact fun hL _ hf hJ hC hstart =>
        (hstart.definitionMapExact_iff hL hf hC.1 hJ).mpr hC.2
  refine ⟨hexact, ?_⟩
  intro files S' hp hm hfresh hu hstep
  obtain ⟨hf, hstart, hrun⟩ := hS.start hp hm hfresh
  obtain rfl := Option.some.inj (hrun.symm.trans hstep)
  exact hstart.definitionMapExact_iff hS.loaded.1 hf hu hexact

/-- `a.bc` defines `f`, and `b.bc` defines `g`; `b.bc` is updated. -/
def twoFiles : Env :=
  Env.ofModules [
    Module.ofFunctions [{ name := "f", guid := 1 }] (by decide),
    Module.ofFunctions [{ name := "g", guid := 2 }] (by decide),
    Module.ofFunctions [{ name := "g", guid := 2 }] (by decide)]

theorem definitionMap_two_files : ∃ S, updateModules twoFiles
      (initializeModules twoFiles (parsed [("a.bc", 0), ("b.bc", 1)])) (parsed [("b.bc", 2)]) =
        some S ∧ DefinitionMapExact twoFiles S.ctx := by
  have hfirst : Reached twoFiles (fun files => UniqueExternals twoFiles (files.map Prod.snd))
      (fun S files =>
        UniqueExternals twoFiles ((nextModules S.ctx.modules files).map Prod.fst) ∧
          KeepsDefinitions twoFiles S.ctx files) [0, 1]
      (initializeModules twoFiles (parsed [("a.bc", 0), ("b.bc", 1)])) :=
    Reached.init [("a.bc", 0), ("b.bc", 1)] (by decide) (by decide)
      (uniqueExternals_of_nodup (by decide))
  obtain ⟨S, hstep, hS⟩ := hfirst.exists_update [("b.bc", 2)] (by decide) (by decide)
    (by decide) ⟨uniqueExternals_of_nodup (by decide),
      keepsDefinitions_of_nodup hfirst.loaded.1.toTables (by decide)⟩
  exact ⟨S, hstep, (definitionMap_exact_iff hS).1⟩

/-- The GUID of a function that is not local is computed from its name. -/
def GuidsByName (E : Env) : Prop :=
  ∃ guidOf : String → ℕ, ∀ M, ∀ F ∈ E.functions M, (E.function F).linkage.isLocal = false →
    (E.function F).guid = guidOf (E.function F).name

/-- `a.bc` defines `f`, and `b.bc` holds a weak copy of it; `b.bc` is updated. -/
def weakCopies : Env :=
  Env.ofModules [
    Module.ofFunctions [{ name := "f", guid := 1 }] (by decide),
    Module.ofFunctions [{ name := "f", guid := 1, linkage := .weakAny }] (by decide),
    Module.ofFunctions [{ name := "f", guid := 1, linkage := .weakAny }] (by decide)]

/-- Updating the module of the weak copy erases the definition. -/
theorem definitionMap_weak_copy : GuidsByName weakCopies ∧
    ¬ ∀ (seen : List ModPtr) (S : CallGraphPass),
      Reached weakCopies (fun files => UniqueExternals weakCopies (files.map Prod.snd))
        (fun S files =>
          UniqueExternals weakCopies ((nextModules S.ctx.modules files).map Prod.fst)) seen S →
      DefinitionMapExact weakCopies S.ctx := by
  constructor
  · refine ⟨fun _ => 1, fun M F hF _ => ?_⟩
    by_cases hM : M < 3
    · have hall : ∀ M < 3, ∀ F ∈ weakCopies.functions M, (weakCopies.function F).guid = 1 := by
        decide
      exact hall M hM F hF
    · rw [weakCopies, Env.functions_ofModules (by simpa using hM)] at hF
      simp at hF
  · intro hall
    have hfirst : Reached weakCopies
        (fun files => UniqueExternals weakCopies (files.map Prod.snd))
        (fun S files =>
          UniqueExternals weakCopies ((nextModules S.ctx.modules files).map Prod.fst)) [0, 1]
        (initializeModules weakCopies (parsed [("a.bc", 0), ("b.bc", 1)])) :=
      Reached.init [("a.bc", 0), ("b.bc", 1)] (by decide) (by decide)
        (uniqueExternals_of_nodup (by decide))
    obtain ⟨S, hstep, hS⟩ := hfirst.exists_update [("b.bc", 2)] (by decide) (by decide)
      (by decide) (uniqueExternals_of_nodup (by decide))
    have hlost : (updateModules weakCopies
        (initializeModules weakCopies (parsed [("a.bc", 0), ("b.bc", 1)]))
        (parsed [("b.bc", 2)])).map (fun S => (S.ctx.modules, S.ctx.globalFuncMap[1]?)) =
          some ([(0, "a.bc"), (2, "b.bc")], none) := by decide
    rw [hstep, Option.map_some, Option.some.injEq, Prod.mk.injEq] at hlost
    have hlive : DefinedIn weakCopies (S.ctx.modules.map Prod.fst) 1 ⟨0, 0⟩ := by
      rw [hlost.1]
      exact ⟨0, by decide, by decide, by decide, by decide⟩
    have hget := (hall _ S hS 1 ⟨0, 0⟩).mpr hlive
    simp [hlost.2] at hget

end TypeDive

end Cisa

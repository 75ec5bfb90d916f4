import Cisa.CallGraph.DefinitionMap
import Cisa.CallGraph.DirectCalls

/-!
# Updates against a fresh start

After some updates the direct edges should be those that `Initialize` finds on the modules
that are loaded now. A module that is not analysed again keeps the edges that it had when
its calls were resolved. They stay right as long as its callees are not replaced, and
`CallerPaths` sees to that; what nobody sees to are the calls that found no definition, and
have one now.
-/

namespace Cisa

open Std

namespace TypeDive

variable {E : Env}

open CallGraphPass Mlta

/-- `Initialize` on the files of the loaded modules. -/
def freshRun (E : Env) (ctx : GlobalContext) : CallGraphPass :=
  initializeModules E (parsed (ctx.modules.map Prod.swap))

/-- Every direct edge that `Initialize` would find is there. -/
def MissesNoDirectEdge (E : Env) (ctx : GlobalContext) : Prop :=
  ∀ F, LiveDefinition E ctx F → ∀ G,
    DirectlyCalls E (freshRun E ctx).ctx.globalFuncMap F G → G ∈ ctx.callees.row F

/-- A direct call of `F` names a function with the GUID `k`, and finds no definition. -/
def FindsNone (E : Env) (g : SortedMap ℕ FuncPtr) (F : FuncPtr) (k : ℕ) : Prop :=
  ∃ CI ∈ E.insts F, isCall E CI = true ∧ isIndirectCall E CI = false ∧
    ∃ CF, calledFunction E CI = some CF ∧ (E.function CF).isDeclaration = true ∧
      (E.function CF).guid = k ∧ g[k]? = none

/-- No file of the update defines what a module that the update leaves alone calls without
having found a definition. -/
def BringsNoCallee (E : Env) (S : CallGraphPass) (files : List ParsedFile) : Prop :=
  ∀ M p, (M, p) ∈ S.ctx.modules → ¬ Reprocessed E S.ctx files p → ∀ F ∈ definitionsOf E M,
    ∀ k, FindsNone E S.ctx.globalFuncMap F k → ∀ G, ¬ DefinedIn E (files.map Prod.snd) k G

/-- What every state satisfies: the direct calls are in the rows and are registered, as the
definition map resolves them now. -/
structure DirectEdges (E : Env) (seen : List ModPtr) (ctx : GlobalContext) : Prop where
  rowsLive : RowsLive E ctx
  registered : ∀ M p, (M, p) ∈ ctx.modules → ∀ F ∈ definitionsOf E M, ∀ G,
    DirectlyCalls E ctx.globalFuncMap F G → RegisteredCaller E ctx p G
  edges : ∀ F, LiveDefinition E ctx F → ∀ G, DirectlyCalls E ctx.globalFuncMap F G →
    G ∈ ctx.callees.row F
  direct : NoIndirectCalls E seen → ∀ F G, G ∈ ctx.callees.row F →
    DirectlyCalls E ctx.globalFuncMap F G

theorem bringsNoCallee_of_defined {S : CallGraphPass} {files : List ParsedFile}
    (h : ∀ f ∈ files, ∀ G ∈ E.functions f.2, isGlobalDefinition E G = true →
      (S.ctx.globalFuncMap[(E.function G).guid]?).isSome = true) : BringsNoCallee E S files := by
  intro M p _ _ F _ k hnone G hG
  obtain ⟨_, _, _, _, _, _, _, _, hk⟩ := hnone
  obtain ⟨N, hN, hGN, hdef, rfl⟩ := hG
  obtain ⟨f, hf, rfl⟩ := List.mem_map.mp hN
  have hsome := h f hf G hGN hdef
  rw [hk] at hsome
  cases hsome

theorem DirectEdges.mem_callees_iff {seen : List ModPtr} {ctx : GlobalContext}
    (h : DirectEdges E seen ctx) (hno : NoIndirectCalls E seen) {F G : FuncPtr} :
    G ∈ ctx.callees.row F ↔ LiveDefinition E ctx F ∧ DirectlyCalls E ctx.globalFuncMap F G := by
  constructor
  · exact fun hG => ⟨h.rowsLive F G hG, h.direct hno F G hG⟩
  · exact fun hG => h.edges F hG.1 G hG.2

theorem DirectlyCalls.congr {g g' : SortedMap ℕ FuncPtr} {F G : FuncPtr}
    (hsame : ∀ CI ∈ E.insts F, isCall E CI = true → isIndirectCall E CI = false →
      ∀ CF, calledFunction E CI = some CF → (E.function CF).isDeclaration = true →
        g[(E.function CF).guid]? = some G → g'[(E.function CF).guid]? = some G)
    (h : DirectlyCalls E g F G) : DirectlyCalls E g' F G := by
  obtain ⟨CI, hCI, hcall, hind, CF, hCF, hG⟩ := h
  refine ⟨CI, hCI, hcall, hind, CF, hCF, ?_⟩
  unfold definitionOf at hG ⊢
  split_ifs at hG ⊢ with hdecl
  · exact hsame CI hCI hcall hind CF hCF hdecl hG
  · exact hG

theorem directlyCalls_of_getElem? {g : SortedMap ℕ FuncPtr} {F G CF : FuncPtr} {CI : ValPtr}
    (hCI : CI ∈ E.insts F) (hcall : isCall E CI = true) (hind : isIndirectCall E CI = false)
    (hCF : calledFunction E CI = some CF) (hdecl : (E.function CF).isDeclaration = true)
    (hG : g[(E.function CF).guid]? = some G) : DirectlyCalls E g F G := by
  refine ⟨CI, hCI, hcall, hind, CF, hCF, ?_⟩
  rw [definitionOf, if_pos hdecl]
  exact hG

section Initial

variable {files : List ParsedFile}

theorem directEdges_initial (hp : (files.map Prod.fst).Nodup) (hm : (files.map Prod.snd).Nodup) :
    DirectEdges E (files.map Prod.snd)
      (runModules E (initialState E files) (files.map Prod.snd)).ctx := by
  have hcalls := callsRegistered_initial (E := E) hp hm
  refine ⟨hcalls.rowsLive, hcalls.registered, ?_, hcalls.direct⟩
  intro F hF G hG
  obtain ⟨M, p, hM, hFM⟩ := hF
  obtain ⟨CI, hCI, hcall, hind, CF, hCF, hdef⟩ := hG
  rw [modules_runModules, initialState_modules hp hm] at hM
  obtain ⟨f, hf, hfM⟩ := List.mem_map.mp hM
  obtain ⟨rfl, rfl⟩ := Prod.mk.inj hfM
  rw [globalFuncMap_runModules] at hdef
  exact mem_callees_runModules_direct (onlyDefinitions_initialState hp hm)
    ⟨f.2, List.mem_map.mpr ⟨f, hf, rfl⟩, hFM⟩ hCI hcall hind hCF hdef

end Initial

section Update

variable {S T : CallGraphPass} {files : List ParsedFile} {ms : List ModPtr}

theorem Start.mem_modules_of_kept (h : Start E S files T ms) {M : ModPtr} {p : String}
    (hM : (M, p) ∈ S.ctx.modules) (hp : p ∉ files.map Prod.fst) :
    (M, p) ∈ (runModules E T ms).ctx.modules := by
  rw [modules_runModules, h.modules]
  exact mem_nextModules.mpr (Or.inl ⟨hM, hp⟩)

theorem Start.mem_callees_iff (h : Start E S files T ms) (hL : Loaded E S.ctx)
    (hf : FilesOk S.ctx files) (hg : OnlyDefinitions E S.ctx.globalFuncMap) {M : ModPtr}
    {p : String} (hM : (M, p) ∈ S.ctx.modules) (hp : ¬ Reprocessed E S.ctx files p)
    {F G : FuncPtr} (hF : F ∈ definitionsOf E M) :
    G ∈ (runModules E T ms).ctx.callees.row F ↔ G ∈ S.ctx.callees.row F := by
  have hFms : ¬ ∃ N ∈ ms, F ∈ E.functions N := by
    intro hN
    obtain ⟨N, hN, hFN⟩ := hN
    have hNM : N = M := (E.mod_of_mem_functions hFN).symm.trans (mod_of_mem_definitionsOf hF)
    exact h.not_mem_ms hL hf hM hp (hNM ▸ hN)
  have hkept : ¬ Erased E S.ctx files F := by
    rw [hL.erased_iff]
    intro hold
    obtain ⟨N, ⟨q, hN, hq⟩, hFN⟩ := hold
    have hNM : N = M := (mod_of_mem_definitionsOf hFN).symm.trans (mod_of_mem_definitionsOf hF)
    subst hNM
    exact hp (hL.eq_of_mod hM hN ▸ hq)
  rw [mem_callees_runModules_of_not (h.onlyDefinitions hg) hFms, h.callees]
  exact and_iff_left hkept

/-- The definition that a module left alone has called is loaded after the update. -/
theorem DirectEdges.kept_callee {seen : List ModPtr} (hS : DirectEdges E seen S.ctx)
    (hexact : DefinitionMapExact E S.ctx) {M : ModPtr} {p : String}
    (hM : (M, p) ∈ S.ctx.modules) (hp : ¬ Reprocessed E S.ctx files p) {F G CF : FuncPtr}
    {CI : ValPtr} (hF : F ∈ definitionsOf E M) (hCI : CI ∈ E.insts F)
    (hcall : isCall E CI = true) (hind : isIndirectCall E CI = false)
    (hCF : calledFunction E CI = some CF) (hdecl : (E.function CF).isDeclaration = true)
    (hG : S.ctx.globalFuncMap[(E.function CF).guid]? = some G) :
    DefinedIn E ((nextModules S.ctx.modules files).map Prod.fst) (E.function CF).guid G := by
  have hcalls := directlyCalls_of_getElem? hCI hcall hind hCF hdecl hG
  obtain ⟨N, q, hN, hGN, hrow⟩ := hS.registered M p hM F hF G hcalls
  obtain ⟨K, _, hGK, hglobal, hguid⟩ := (hexact _ G).mp hG
  have hnext : (N, q) ∈ nextModules S.ctx.modules files :=
    mem_nextModules.mpr (Or.inl ⟨hN, not_updated_of_row hp hrow⟩)
  exact ⟨N, List.mem_map.mpr ⟨_, hnext, rfl⟩, (mem_definitionsOf.mp hGN).1, hglobal, hguid⟩

theorem DirectEdges.getElem?_iff {seen : List ModPtr} (hS : DirectEdges E seen S.ctx)
    (hexact : DefinitionMapExact E S.ctx) (hbrings : BringsNoCallee E S files)
    (hu : UniqueExternals E ((nextModules S.ctx.modules files).map Prod.fst))
    {g : SortedMap ℕ FuncPtr} (hg : ∀ (k : ℕ) (F : FuncPtr), g[k]? = some F ↔
      DefinedIn E ((nextModules S.ctx.modules files).map Prod.fst) k F)
    {M : ModPtr} {p : String} (hM : (M, p) ∈ S.ctx.modules)
    (hp : ¬ Reprocessed E S.ctx files p) {F G CF : FuncPtr} {CI : ValPtr}
    (hF : F ∈ definitionsOf E M) (hCI : CI ∈ E.insts F) (hcall : isCall E CI = true)
    (hind : isIndirectCall E CI = false) (hCF : calledFunction E CI = some CF)
    (hdecl : (E.function CF).isDeclaration = true) :
    g[(E.function CF).guid]? = some G ↔ S.ctx.globalFuncMap[(E.function CF).guid]? = some G := by
  rw [hg]
  constructor
  · intro hG
    cases hk : S.ctx.globalFuncMap[(E.function CF).guid]? with
    | some A =>
      have hA := hS.kept_callee hexact hM hp hF hCI hcall hind hCF hdecl hk
      rw [hu _ A G hA hG]
    | none =>
      obtain ⟨N, hN, hGN, hglobal, hguid⟩ := hG
      obtain ⟨⟨N, q⟩, hNq, rfl⟩ := List.mem_map.mp hN
      rcases mem_nextModules.mp hNq with ⟨hold, _⟩ | hfile
      · have hget := (hexact _ G).mpr ⟨N, List.mem_map.mpr ⟨_, hold, rfl⟩, hGN, hglobal, hguid⟩
        rw [hk] at hget
        cases hget
      · exact absurd ⟨N, List.mem_map.mpr ⟨_, hfile, rfl⟩, hGN, hglobal, hguid⟩
          (hbrings M p hM hp F hF _ ⟨CI, hCI, hcall, hind, CF, hCF, hdecl, rfl, hk⟩ G)
  · exact fun hG => hS.kept_callee hexact hM hp hF hCI hcall hind hCF hdecl hG

theorem DirectEdges.directlyCalls_iff {seen : List ModPtr} (hS : DirectEdges E seen S.ctx)
    (hexact : DefinitionMapExact E S.ctx) (hbrings : BringsNoCallee E S files)
    (hu : UniqueExternals E ((nextModules S.ctx.modules files).map Prod.fst))
    {g : SortedMap ℕ FuncPtr} (hg : ∀ (k : ℕ) (F : FuncPtr), g[k]? = some F ↔
      DefinedIn E ((nextModules S.ctx.modules files).map Prod.fst) k F)
    {M : ModPtr} {p : String} (hM : (M, p) ∈ S.ctx.modules)
    (hp : ¬ Reprocessed E S.ctx files p) {F G : FuncPtr} (hF : F ∈ definitionsOf E M) :
    DirectlyCalls E g F G ↔ DirectlyCalls E S.ctx.globalFuncMap F G := by
  have hiff := fun {CI CF} (hCI : CI ∈ E.insts F) hcall hind
      (hCF : calledFunction E CI = some CF) hdecl =>
    hS.getElem?_iff hexact hbrings hu hg hM hp hF (G := G) hCI hcall hind hCF hdecl
  constructor
  · apply DirectlyCalls.congr
    exact fun CI hCI hcall hind CF hCF hdecl hG => (hiff hCI hcall hind hCF hdecl).mp hG
  · apply DirectlyCalls.congr
    exact fun CI hCI hcall hind CF hCF hdecl hG => (hiff hCI hcall hind hCF hdecl).mpr hG

theorem Start.directEdges {seen : List ModPtr} (h : Start E S files T ms) (hL : Loaded E S.ctx)
    (hf : FilesOk S.ctx files) (hseen : ∀ M ∈ S.ctx.modules.map Prod.fst, M ∈ seen)
    (hg : OnlyDefinitions E S.ctx.globalFuncMap) (hS : DirectEdges E seen S.ctx)
    (hexact : DefinitionMapExact E S.ctx)
    (hexact' : DefinitionMapExact E (runModules E T ms).ctx)
    (hu : UniqueExternals E ((nextModules S.ctx.modules files).map Prod.fst))
    (hbrings : BringsNoCallee E S files) :
    DirectEdges E (files.map Prod.snd ++ seen) (runModules E T ms).ctx := by
  have hrows := h.rowsLive hL hg hS.rowsLive
  unfold DefinitionMapExact at hexact'
  rw [modules_runModules, h.modules] at hexact'
  have hlive : ∀ (k : ℕ) (A : FuncPtr), (runModules E T ms).ctx.globalFuncMap[k]? = some A →
      LiveDefinition E T.ctx A := by
    intro k A hA
    obtain ⟨M, hM, hAM, hdef, _⟩ := (hexact' k A).mp hA
    obtain ⟨⟨M, p⟩, hMp, rfl⟩ := List.mem_map.mp hM
    exact ⟨M, p, h.modules ▸ hMp,
      mem_definitionsOf.mpr ⟨hAM, isDeclaration_of_isGlobalDefinition hdef⟩⟩
  have hsame : ∀ {M p F G}, (M, p) ∈ S.ctx.modules → ¬ Reprocessed E S.ctx files p →
      F ∈ definitionsOf E M → (DirectlyCalls E (runModules E T ms).ctx.globalFuncMap F G ↔
        DirectlyCalls E S.ctx.globalFuncMap F G) :=
    fun hM hp hF => hS.directlyCalls_iff hexact hbrings hu hexact' hM hp hF
  constructor
  · exact hrows
  · intro M p hM F hF G hcall
    rw [modules_runModules] at hM
    by_cases hMms : M ∈ ms
    · exact registeredCaller_runModules h.tables hM hMms hF hcall hlive
    · rw [h.modules] at hM
      obtain ⟨hold, hp⟩ := (h.next_cases hM).resolve_left hMms
      exact h.registeredCaller hp (hS.registered M p hold F hF G ((hsame hold hp hF).mp hcall))
  · intro F hF G hcall
    obtain ⟨M, p, hM, hFM⟩ := hF
    rw [modules_runModules, h.modules] at hM
    rcases h.next_cases hM with hMms | ⟨hold, hp⟩
    · obtain ⟨CI, hCI, hcall, hind, CF, hCF, hdef⟩ := hcall
      rw [globalFuncMap_runModules] at hdef
      exact mem_callees_runModules_direct (h.onlyDefinitions hg) ⟨M, hMms, hFM⟩ hCI hcall hind
        hCF hdef
    · rw [h.mem_callees_iff hL hf hg hold hp hFM]
      exact hS.edges F ⟨M, p, hold, hFM⟩ G ((hsame hold hp hFM).mp hcall)
  · intro hno F G hG
    obtain ⟨M, p, hM, hF⟩ := hrows F G hG
    rw [modules_runModules, h.modules] at hM
    rcases h.next_cases hM with hMms | ⟨hold, hp⟩
    · apply directlyCalls_of_mem_callees (h.onlyDefinitions hg) _
        ⟨M, hMms, (mem_definitionsOf.mp hF).1⟩ _ hG
      · apply hno.mono
        intro N hN
        rcases (h.mem_ms N).mp hN with ⟨q, hq⟩ | ⟨q, _, hq⟩
        · exact List.mem_append_left _ (List.mem_map.mpr ⟨_, hq, rfl⟩)
        · exact List.mem_append_right _ (hseen N (List.mem_map.mpr ⟨_, hq, rfl⟩))
      · intro A hA
        obtain ⟨N, q, hN, hq, hFN⟩ := h.kept_row hL hS.rowsLive hA
        have hNM : N = M := (mod_of_mem_definitionsOf hFN).symm.trans (mod_of_mem_definitionsOf hF)
        subst hNM
        exact h.not_mem_ms hL hf hN hq hMms
    · rw [hsame hold hp hF]
      apply hS.direct (hno.mono fun N hN => List.mem_append_right _ hN)
      exact (h.mem_callees_iff hL hf hg hold hp hF).mp hG

end Update

section Fresh

variable {ctx : GlobalContext}

theorem map_snd_swap (modules : List (ModPtr × String)) :
    (modules.map Prod.swap).map Prod.snd = modules.map Prod.fst := by
  simp [Function.comp_def]

theorem Tables.nodup_files (ht : Tables ctx) :
    ((ctx.modules.map Prod.swap).map Prod.fst).Nodup ∧
      ((ctx.modules.map Prod.swap).map Prod.snd).Nodup := by
  constructor
  · simpa [Function.comp_def] using ht.paths_nodup
  · rw [map_snd_swap]
    exact ht.mods_nodup

theorem freshRun_eq (ht : Tables ctx) : freshRun E ctx =
    runModules E (initialState E (ctx.modules.map Prod.swap)) (ctx.modules.map Prod.fst) := by
  obtain ⟨hp, hm⟩ := ht.nodup_files
  rw [freshRun, initializeModules_eq hp hm, map_snd_swap]

theorem modules_freshRun (ht : Tables ctx) : (freshRun E ctx).ctx.modules = ctx.modules := by
  obtain ⟨hp, hm⟩ := ht.nodup_files
  rw [freshRun_eq ht, modules_runModules, initialState_modules hp hm]
  simp [Function.comp_def]

theorem DefinitionMapExact.globalFuncMap_eq (h : DefinitionMapExact E ctx) (ht : Tables ctx)
    (hu : UniqueExternals E (ctx.modules.map Prod.fst)) :
    (freshRun E ctx).ctx.globalFuncMap = ctx.globalFuncMap := by
  obtain ⟨hp, hm⟩ := ht.nodup_files
  have hfresh := definitionMapExact_initial (E := E) hp hm (by rwa [map_snd_swap])
  rw [map_snd_swap, ← freshRun_eq ht] at hfresh
  apply ExtTreeMap.ext_getElem?
  intro k
  apply Option.ext
  intro F
  rw [hfresh, h, modules_freshRun ht]

theorem directEdges_freshRun (ht : Tables ctx) :
    DirectEdges E (ctx.modules.map Prod.fst) (freshRun E ctx).ctx := by
  obtain ⟨hp, hm⟩ := ht.nodup_files
  have hfresh := directEdges_initial (E := E) hp hm
  rwa [map_snd_swap, ← freshRun_eq ht] at hfresh

end Fresh

/-- The run keeps the definition map exact, and brings no callee that a kept call waits
for. -/
abbrev LinkedRun (E : Env) : List ModPtr → CallGraphPass → Prop :=
  Reached E (fun files => UniqueExternals E (files.map Prod.snd)) fun S files =>
    (UniqueExternals E ((nextModules S.ctx.modules files).map Prod.fst) ∧
      KeepsDefinitions E S.ctx files) ∧ BringsNoCallee E S files

theorem LinkedRun.directEdges {seen : List ModPtr} {S : CallGraphPass} (h : LinkedRun E seen S) :
    UniqueExternals E (S.ctx.modules.map Prod.fst) ∧ DefinitionMapExact E S.ctx ∧
      DirectEdges E seen S.ctx := by
  have hJ := h.invariant (J := fun seen S => OnlyDefinitions E S.ctx.globalFuncMap ∧
    UniqueExternals E (S.ctx.modules.map Prod.fst) ∧ DefinitionMapExact E S.ctx ∧
      DirectEdges E seen S.ctx) ?_ ?_
  · exact hJ.2
  · intro files hp hm hu
    refine ⟨?_, ?_, definitionMapExact_initial hp hm hu, directEdges_initial hp hm⟩
    · rw [globalFuncMap_runModules]
      exact onlyDefinitions_initialized (onlyDefinitions_initialState hp hm) _
    · rw [modules_runModules, initialState_modules hp hm]
      simpa [Function.comp_def] using hu
  · intro seen S files hL hseen hf hJ hC hstart
    obtain ⟨hg, _, hexact, hedges⟩ := hJ
    obtain ⟨⟨hu, hkeep⟩, hbrings⟩ := hC
    have hexact' := (hstart.definitionMapExact_iff hL hf hu hexact).mpr hkeep
    refine ⟨?_, ?_, hexact', ?_⟩
    · rw [globalFuncMap_runModules]
      exact onlyDefinitions_initialized (hstart.onlyDefinitions hg) _
    · rw [modules_runModules, hstart.modules]
      exact hu
    · exact hstart.directEdges hL hf hseen hg hedges hexact hexact' hu hbrings

theorem DirectEdges.missesNoDirectEdge {seen : List ModPtr} {ctx : GlobalContext}
    (h : DirectEdges E seen ctx)
    (hmap : (freshRun E ctx).ctx.globalFuncMap = ctx.globalFuncMap) :
    MissesNoDirectEdge E ctx := by
  unfold MissesNoDirectEdge
  rw [hmap]
  exact h.edges

/-- The step from a state with all direct edges: they are all there afterwards if and only
if the update brings no callee that a kept call waits for. -/
theorem Start.missesNoDirectEdge_iff {S T : CallGraphPass} {files : List ParsedFile}
    {ms seen : List ModPtr} (h : Start E S files T ms) (hL : Loaded E S.ctx)
    (hf : FilesOk S.ctx files) (hseen : ∀ M ∈ S.ctx.modules.map Prod.fst, M ∈ seen)
    (hnew : ∀ f ∈ files, f.2 ∉ seen) (hg : OnlyDefinitions E S.ctx.globalFuncMap)
    (hW : Within E (fun M => M ∈ seen) S) (hS : DirectEdges E seen S.ctx)
    (hexact : DefinitionMapExact E S.ctx) (hkeep : KeepsDefinitions E S.ctx files)
    (hu : UniqueExternals E ((nextModules S.ctx.modules files).map Prod.fst)) :
    MissesNoDirectEdge E (runModules E T ms).ctx ↔ BringsNoCallee E S files := by
  have hexact' := (h.definitionMapExact_iff hL hf hu hexact).mpr hkeep
  have hmods : (runModules E T ms).ctx.modules = nextModules S.ctx.modules files := by
    rw [modules_runModules, h.modules]
  have hmap := hexact'.globalFuncMap_eq (h.loaded hL hf).toTables (by rwa [hmods])
  constructor
  · intro hall M p hM hp F hF k hnone G hG
    obtain ⟨CI, hCI, hcall, hind, CF, hCF, hdecl, rfl, hk⟩ := hnone
    have hget : (runModules E T ms).ctx.globalFuncMap[(E.function CF).guid]? = some G := by
      rw [hexact', hmods]
      apply hG.mono
      intro N hN
      obtain ⟨f, hf, rfl⟩ := List.mem_map.mp hN
      exact List.mem_map.mpr ⟨(f.2, f.1), mem_nextModules.mpr (Or.inr hf), rfl⟩
    have hnext : (M, p) ∈ nextModules S.ctx.modules files :=
      mem_nextModules.mpr (Or.inl ⟨hM, fun hpf => hp (Or.inl hpf)⟩)
    have hrow := hall F ⟨M, p, hmods ▸ hnext, hF⟩ G
      (hmap ▸ directlyCalls_of_getElem? hCI hcall hind hCF hdecl hget)
    rw [h.mem_callees_iff hL hf hg hM hp hF] at hrow
    -- the row is older than the module of the new definition
    obtain ⟨N, hN, hGN, _⟩ := hG
    obtain ⟨f, hfile, rfl⟩ := List.mem_map.mp hN
    apply hnew f hfile
    rw [← E.mod_of_mem_functions hGN]
    exact (hW.callees.2 F G hrow).1
  · intro hbrings
    exact (h.directEdges hL hf hseen hg hS hexact hexact' hu hbrings).missesNoDirectEdge hmap

/-- As long as no update brings a callee that a kept call waits for, the direct edges are those
of a fresh start, and without indirect calls the whole call graph is; the next update keeps them
all if and only if it brings no such callee either. -/
theorem direct_edges_fresh_iff {seen : List ModPtr} {S : CallGraphPass} (hS : LinkedRun E seen S) :
    MissesNoDirectEdge E S.ctx ∧
      (NoIndirectCalls E seen → ∀ F,
        S.ctx.callees.row F = (freshRun E S.ctx).ctx.callees.row F) ∧
      ∀ (files : List ParsedFile) (S' : CallGraphPass), (files.map Prod.fst).Nodup →
        (files.map Prod.snd).Nodup → (∀ f ∈ files, f.2 ∉ seen) →
        UniqueExternals E ((nextModules S.ctx.modules files).map Prod.fst) →
        KeepsDefinitions E S.ctx files → updateModules E S (parsed files) = some S' →
        (MissesNoDirectEdge E S'.ctx ↔ BringsNoCallee E S files) := by
  obtain ⟨hL, hseen⟩ := hS.loaded
  obtain ⟨hu, hexact, hedges⟩ := hS.directEdges
  have hmap := hexact.globalFuncMap_eq hL.toTables hu
  refine ⟨hedges.missesNoDirectEdge hmap, ?_, ?_⟩
  · intro hno F
    have hfresh := directEdges_freshRun (E := E) hL.toTables
    apply ExtTreeSet.ext_mem
    intro G
    rw [hedges.mem_callees_iff hno, hfresh.mem_callees_iff (hno.mono hseen), hmap]
    unfold LiveDefinition
    rw [modules_freshRun hL.toTables]
  · intro files S' hp hm hnew hu' hkeep hstep
    obtain ⟨hf, hstart, hrun⟩ := hS.start hp hm (hS.fresh_of_seen hnew)
    obtain rfl := Option.some.inj (hrun.symm.trans hstep)
    exact hstart.missesNoDirectEdge_iff hL hf hseen hnew hS.onlyDefinitions hS.within hedges
      hexact hkeep hu'

/-- The module that defines `f` is updated, and the edge of its caller is found again; when it
is loaded after the caller for the first time, the edge is missed. -/
theorem direct_edges_fresh_callee :
    (∃ S, updateModules declaredCallee
        (initializeModules declaredCallee (parsed [("a.bc", 0), ("b.bc", 1)]))
        (parsed [("b.bc", 2)]) = some S ∧ MissesNoDirectEdge declaredCallee S.ctx) ∧
      ∃ S, updateModules declaredCallee (initializeModules declaredCallee (parsed [("a.bc", 0)]))
        (parsed [("b.bc", 1)]) = some S ∧ ¬ MissesNoDirectEdge declaredCallee S.ctx := by
  constructor
  · have hfirst : LinkedRun declaredCallee [0, 1]
        (initializeModules declaredCallee (parsed [("a.bc", 0), ("b.bc", 1)])) :=
      Reached.init [("a.bc", 0), ("b.bc", 1)] (by decide) (by decide)
        (uniqueExternals_of_nodup (by decide))
    obtain ⟨S, hstep, hS⟩ := hfirst.exists_update [("b.bc", 2)] (by decide) (by decide)
      (by decide) ⟨⟨uniqueExternals_of_nodup (by decide),
        keepsDefinitions_of_nodup hfirst.loaded.1.toTables (by decide)⟩,
        bringsNoCallee_of_defined (by decide)⟩
    exact ⟨S, hstep, (direct_edges_fresh_iff hS).1⟩
  · have hfirst : LinkedRun declaredCallee [0]
        (initializeModules declaredCallee (parsed [("a.bc", 0)])) :=
      Reached.init [("a.bc", 0)] (by decide) (by decide) (uniqueExternals_of_nodup (by decide))
    obtain ⟨_, _, hrun⟩ := hfirst.start
      (show (([("b.bc", 1)] : List ParsedFile).map Prod.fst).Nodup by decide)
      (by decide) (hfirst.fresh_of_seen (by decide))
    refine ⟨_, hrun, ?_⟩
    rw [(direct_edges_fresh_iff hfirst).2.2 [("b.bc", 1)] _ (by decide) (by decide) (by decide)
      (uniqueExternals_of_nodup (by decide))
      (keepsDefinitions_of_nodup hfirst.loaded.1.toTables (by decide)) hrun]
    intro hbrings
    exact hbrings 0 "a.bc" (by decide) (by decide) ⟨0, 0⟩ (by decide) 1
      ⟨⟨0, 1⟩, by decide, by decide, by decide, ⟨0, 2⟩, by decide, by decide, by decide, by decide⟩
      ⟨1, 0⟩ ⟨1, by decide, by decide, by decide, by decide⟩

end TypeDive

end Cisa

import Cisa.CallGraph.LayerlessCalls

/-!
# Updates that arrive at the fresh call graph

Where nothing is narrowed, a function calls what its direct calls name and every function in the
buckets of its indirect calls. A module that an update leaves alone keeps the targets that have
been replaced, and one that is analysed again misses the targets of an emptied bucket. Without
either, and without a callee that a kept call waits for, the update arrives at the callees of a
fresh start.
-/

namespace Cisa

open Std

namespace TypeDive

variable {E : Env}

open CallGraphPass Mlta

def CallsIndirectly (E : Env) (F : FuncPtr) (hash : SizeT) : Prop :=
  ∃ CI ∈ E.insts F, isCall E CI = true ∧ isIndirectCall E CI = true ∧ E.callHash CI = hash

def TypeTarget (E : Env) (ctx : GlobalContext) (F G : FuncPtr) : Prop :=
  LiveDefinition E ctx G ∧ (E.function G).hasAddressTaken = true ∧
    CallsIndirectly E F (E.funcHash G false)

/-- The callees are those that a function has where nothing is narrowed. -/
def CalleesExact (E : Env) (ctx : GlobalContext) : Prop :=
  ∀ F G, G ∈ ctx.callees.row F ↔ LiveDefinition E ctx F ∧
    (DirectlyCalls E ctx.globalFuncMap F G ∨ TypeTarget E ctx F G)

/-- A direct call of `F` names `D`, or a function that `D` defines. -/
def NamesDirectly (E : Env) (F D : FuncPtr) : Prop :=
  ∃ CI ∈ E.insts F, isCall E CI = true ∧ isIndirectCall E CI = false ∧
    ∃ CF, calledFunction E CI = some CF ∧ (CF = D ∨ (E.function CF).isDeclaration = true ∧
      isGlobalDefinition E D = true ∧ (E.function D).guid = (E.function CF).guid)

/-- No function of a replaced module is a target of a call that the update leaves alone. -/
def DropsNoTarget (E : Env) (ctx : GlobalContext) (files : List ParsedFile) : Prop :=
  ∀ M p, (M, p) ∈ ctx.modules → ¬ Reprocessed E ctx files p → ∀ F ∈ definitionsOf E M,
    ∀ N q, (N, q) ∈ ctx.modules → q ∈ files.map Prod.fst → ∀ D ∈ definitionsOf E N,
      (E.function D).hasAddressTaken = true → ¬ CallsIndirectly E F (E.funcHash D false)

/-- A call that is analysed again has its targets in the modules that the update leaves alone:
the bucket is not emptied, or the target is called directly besides. -/
def LosesNoTarget (E : Env) (ctx : GlobalContext) (files : List ParsedFile) : Prop :=
  ∀ M p, (M, p) ∈ nextModules ctx.modules files → Reprocessed E ctx files p →
    ∀ F ∈ definitionsOf E M, ∀ N q, (N, q) ∈ ctx.modules → ¬ Reprocessed E ctx files q →
      ∀ D ∈ definitionsOf E N, (E.function D).hasAddressTaken = true →
        CallsIndirectly E F (E.funcHash D false) →
          (∃ R, OldDefinition E ctx files R ∧ E.funcHash R false = E.funcHash D false) →
            NamesDirectly E F D

/-- The buckets hold live functions whose address is taken, under their own hashes. -/
def BucketsLive (E : Env) (ctx : GlobalContext) : Prop :=
  ∀ hash D, D ∈ ctx.sigFuncsMap.row hash → LiveDefinition E ctx D ∧
    (E.function D).hasAddressTaken = true ∧ E.funcHash D false = hash

theorem KeepsSignatures.losesNoTarget {ctx : GlobalContext} {files : List ParsedFile}
    (h : KeepsSignatures E ctx files) : LosesNoTarget E ctx files := by
  intro _ _ _ _ _ _ N q hN hq D hD htaken _ hold
  exact absurd hold (h N q hN hq D hD htaken)

theorem directlyCalls_iff_namesDirectly {ms : List ModPtr} {g : SortedMap ℕ FuncPtr}
    (hg : ∀ (k : ℕ) (F : FuncPtr), g[k]? = some F ↔ DefinedIn E ms k F) {F D : FuncPtr}
    (hD : Defines E ms D) : DirectlyCalls E g F D ↔ NamesDirectly E F D := by
  obtain ⟨N, hN, hDN⟩ := hD
  obtain ⟨hmem, hdef⟩ := mem_definitionsOf.mp hDN
  constructor
  · intro h
    obtain ⟨CI, hCI, hcall, hind, CF, hCF, hG⟩ := h
    refine ⟨CI, hCI, hcall, hind, CF, hCF, ?_⟩
    unfold definitionOf at hG
    split_ifs at hG with hdecl
    · obtain ⟨_, _, _, hglobal, hguid⟩ := (hg _ D).mp hG
      exact Or.inr ⟨hdecl, hglobal, hguid⟩
    · exact Or.inl (Option.some.inj hG)
  · intro h
    obtain ⟨CI, hCI, hcall, hind, CF, hCF, rfl | ⟨hdecl, hglobal, hguid⟩⟩ := h
    · exact ⟨CI, hCI, hcall, hind, CF, hCF, definitionOf_of_isDefinition hdef⟩
    · exact directlyCalls_of_getElem? hCI hcall hind hCF hdecl
        ((hg _ D).mpr ⟨N, hN, hmem, hglobal, hguid⟩)

theorem BucketsLive.typeTarget_iff {ctx : GlobalContext} (hlive : BucketsLive E ctx)
    (hcomplete : SignatureTableComplete E ctx) {F G : FuncPtr} : TypeTarget E ctx F G ↔
      ∃ hash, CallsIndirectly E F hash ∧ G ∈ ctx.sigFuncsMap.row hash := by
  constructor
  · intro h
    obtain ⟨hG, htaken, hcalls⟩ := h
    exact ⟨_, hcalls, hcomplete G hG htaken⟩
  · intro h
    obtain ⟨hash, hcalls, hrow⟩ := h
    obtain ⟨hG, htaken, rfl⟩ := hlive hash G hrow
    exact ⟨hG, htaken, hcalls⟩

section Run

variable {T : CallGraphPass} {ms : List ModPtr}

theorem of_mem_row_initialized_definitions (hg : OnlyDefinitions E T.ctx.globalFuncMap)
    {hash : SizeT}
    (hold : ∀ D ∈ T.ctx.sigFuncsMap.row hash, (E.function D).isDeclaration = false)
    (hdefs : ∀ M ∈ ms, ∀ D ∈ E.functions M, (E.function D).hasAddressTaken = true →
      (E.function D).isDeclaration = false) {D : FuncPtr}
    (hD : D ∈ (initialized E T ms).ctx.sigFuncsMap.row hash) :
    (D ∈ T.ctx.sigFuncsMap.row hash ∨ AddressTakenIn E ms hash D) ∧
      (E.function D).isDeclaration = false := by
  obtain ⟨A, hA, hDA⟩ := exists_of_mem_row_initialized hg hD
  have hdef : (E.function A).isDeclaration = false := by
    rcases hA with hA | ⟨M, hM, hAM, htaken, _⟩
    · exact hold A hA
    · exact hdefs M hM A hAM htaken
  rcases hDA with rfl | ⟨hdecl, _⟩
  · exact ⟨hA, hdef⟩
  · rw [hdef] at hdecl
    cases hdecl

/-- A function that the run passes over has no callees before it; afterwards it has those it
calls directly and the buckets of its indirect calls. -/
theorem mem_callees_runModules_iff (hg : OnlyDefinitions E T.ctx.globalFuncMap)
    (honly : OnlyBuckets E ms)
    (hold : ∀ hash, ∀ D ∈ T.ctx.sigFuncsMap.row hash, (E.function D).isDeclaration = false)
    {F G : FuncPtr} (hF : Defines E ms F) (hnew : ∀ A, A ∉ T.ctx.callees.row F) :
    G ∈ (runModules E T ms).ctx.callees.row F ↔
      DirectlyCalls E (runModules E T ms).ctx.globalFuncMap F G ∨
        ∃ hash, CallsIndirectly E F hash ∧
          G ∈ (runModules E T ms).ctx.sigFuncsMap.row hash := by
  have hdef : ∀ hash, ∀ D ∈ (initialized E T ms).ctx.sigFuncsMap.row hash,
      (E.function D).isDeclaration = false := fun hash D hD =>
    (of_mem_row_initialized_definitions hg (hold hash) honly.definitions hD).2
  rw [sigFuncsMap_runModules]
  constructor
  · intro hG
    rcases cases_of_mem_callees_runModules hg hF.mem_functions hnew hG with
      hdirect | ⟨CI, hCI, hcall, hind, D, hD, hDG⟩
    · exact Or.inl hdirect
    · rw [definitionOf_of_isDefinition (hdef _ D hD)] at hDG
      obtain rfl := Option.some.inj hDG
      exact Or.inr ⟨_, ⟨CI, hCI, hcall, hind, rfl⟩, hD⟩
  · rintro (hdirect | ⟨_, ⟨CI, hCI, hcall, hind, rfl⟩, hD⟩)
    · obtain ⟨CI, hCI, hcall, hind, CF, hCF, hG⟩ := hdirect
      rw [globalFuncMap_runModules] at hG
      exact mem_callees_runModules_direct hg hF hCI hcall hind hCF hG
    · exact mem_callees_runModules_layerless hg hF
        ⟨hCI, hcall, hind, honly.layerless F hF CI hCI hcall hind⟩ (hdef _ G hD) hD

end Run

section Initial

variable {files : List ParsedFile}

theorem bucketsLive_initial (hp : (files.map Prod.fst).Nodup) (hm : (files.map Prod.snd).Nodup)
    (honly : OnlyBuckets E (files.map Prod.snd)) :
    BucketsLive E (runModules E (initialState E files) (files.map Prod.snd)).ctx := by
  have hsig := congrArg GlobalContext.sigFuncsMap (initialState_empty (E := E) hp hm)
  simp only [forgetTables] at hsig
  intro hash D hD
  rw [sigFuncsMap_runModules] at hD
  obtain ⟨hD, hdef⟩ := of_mem_row_initialized_definitions (onlyDefinitions_initialState hp hm)
    (by simp [hsig]) honly.definitions hD
  simp only [hsig, ExtTreeMap.row_empty, ExtTreeSet.not_mem_empty, false_or] at hD
  obtain ⟨M, hM, hDM, htaken, hhash⟩ := hD
  obtain ⟨f, hf, rfl⟩ := List.mem_map.mp hM
  refine ⟨⟨f.2, f.1, ?_, mem_definitionsOf.mpr ⟨hDM, hdef⟩⟩, htaken, hhash⟩
  rw [modules_runModules, initialState_modules hp hm]
  exact List.mem_map.mpr ⟨f, hf, rfl⟩

theorem calleesExact_initial (hp : (files.map Prod.fst).Nodup) (hm : (files.map Prod.snd).Nodup)
    (honly : OnlyBuckets E (files.map Prod.snd)) :
    CalleesExact E (runModules E (initialState E files) (files.map Prod.snd)).ctx := by
  have hempty := initialState_empty (E := E) hp hm
  have hcallees := congrArg GlobalContext.callees hempty
  have hsig := congrArg GlobalContext.sigFuncsMap hempty
  simp only [forgetTables] at hcallees hsig
  have hg := onlyDefinitions_initialState (E := E) hp hm
  have hdefines : ∀ F, LiveDefinition E
      (runModules E (initialState E files) (files.map Prod.snd)).ctx F →
        Defines E (files.map Prod.snd) F := by
    intro F hF
    obtain ⟨M, p, hM, hFM⟩ := hF
    rw [modules_runModules, initialState_modules hp hm] at hM
    obtain ⟨f, hf, hfM⟩ := List.mem_map.mp hM
    exact ⟨M, List.mem_map.mpr ⟨f, hf, congrArg Prod.fst hfM⟩, hFM⟩
  intro F G
  rw [(bucketsLive_initial hp hm honly).typeTarget_iff (signatureTableComplete_initial hp hm)]
  constructor
  · intro hG
    have hF := (directEdges_initial (E := E) hp hm).rowsLive F G hG
    exact ⟨hF, (mem_callees_runModules_iff hg honly (by simp [hsig]) (hdefines F hF)
      (by simp [hcallees])).mp hG⟩
  · exact fun h => (mem_callees_runModules_iff hg honly (by simp [hsig]) (hdefines F h.1)
      (by simp [hcallees])).mpr h.2

end Initial

section Fresh

variable {ctx : GlobalContext}

theorem calleesExact_freshRun (ht : Tables ctx)
    (honly : OnlyBuckets E (ctx.modules.map Prod.fst)) :
    CalleesExact E (freshRun E ctx).ctx := by
  obtain ⟨hp, hm⟩ := ht.nodup_files
  have hfresh := calleesExact_initial hp hm (by rwa [map_snd_swap])
  rwa [map_snd_swap, ← freshRun_eq ht] at hfresh

theorem calleesExact_iff (ht : Tables ctx) (honly : OnlyBuckets E (ctx.modules.map Prod.fst))
    (hmap : (freshRun E ctx).ctx.globalFuncMap = ctx.globalFuncMap) :
    CalleesExact E ctx ↔ ∀ F, ctx.callees.row F = (freshRun E ctx).ctx.callees.row F := by
  have hfresh := calleesExact_freshRun ht honly
  unfold CalleesExact TypeTarget LiveDefinition at hfresh
  simp only [modules_freshRun ht, hmap] at hfresh
  constructor
  · intro h F
    apply ExtTreeSet.ext_mem
    intro G
    rw [h, hfresh]
    rfl
  · intro h F G
    rw [h, hfresh]
    rfl

end Fresh

section Update

variable {S T : CallGraphPass} {files : List ParsedFile} {ms seen : List ModPtr}

/-- What every state satisfies, as long as the updates keep it. -/
structure FreshState (E : Env) (seen : List ModPtr) (S : CallGraphPass) : Prop where
  onlyDefinitions : OnlyDefinitions E S.ctx.globalFuncMap
  within : Within E (fun M => M ∈ seen) S
  unique : UniqueExternals E (S.ctx.modules.map Prod.fst)
  definitionMap : DefinitionMapExact E S.ctx
  edges : DirectEdges E seen S.ctx
  candidates : CandidatesExact E S.ctx
  signatures : SignatureTableComplete E S.ctx
  buckets : BucketsLive E S.ctx
  callees : CalleesExact E S.ctx

theorem Start.mem_ms_iff (h : Start E S files T ms) {M : ModPtr} : M ∈ ms ↔
    ∃ p, (M, p) ∈ nextModules S.ctx.modules files ∧ Reprocessed E S.ctx files p := by
  rw [h.mem_ms]
  constructor
  · rintro (⟨p, hfile⟩ | ⟨p, haff, hM⟩)
    · exact ⟨p, mem_nextModules.mpr (Or.inr hfile), Or.inl (List.mem_map.mpr ⟨_, hfile, rfl⟩)⟩
    · exact ⟨p, mem_nextModules.mpr (Or.inl ⟨hM, haff.2⟩), Or.inr haff⟩
  · rintro ⟨p, hM, hp⟩
    rcases mem_nextModules.mp hM with ⟨hold, hpf⟩ | hfile
    · exact Or.inr ⟨p, hp.resolve_left hpf, hold⟩
    · exact Or.inl ⟨p, hfile⟩

theorem BucketsLive.definitions_of_start (hS : BucketsLive E S.ctx) (h : Start E S files T ms)
    (hash : SizeT) : ∀ D ∈ T.ctx.sigFuncsMap.row hash, (E.function D).isDeclaration = false := by
  intro D hD
  obtain ⟨⟨M, _, _, hDM⟩, _⟩ := hS hash D ((h.sigFuncsMap hash D).mp hD).1
  exact (mem_definitionsOf.mp hDM).2

theorem Start.bucketsLive (h : Start E S files T ms) (hg : OnlyDefinitions E S.ctx.globalFuncMap)
    (honly : OnlyBuckets E ms) (hS : BucketsLive E S.ctx) :
    BucketsLive E (runModules E T ms).ctx := by
  intro hash D hD
  rw [sigFuncsMap_runModules] at hD
  obtain ⟨hD, hdef⟩ := of_mem_row_initialized_definitions (h.onlyDefinitions hg)
    (hS.definitions_of_start h hash) honly.definitions hD
  rcases hD with hD | ⟨M, hM, hDM, htaken, hhash⟩
  · obtain ⟨hD, hno⟩ := (h.sigFuncsMap hash D).mp hD
    obtain ⟨⟨M, p, hM, hDM⟩, htaken, hhash⟩ := hS hash D hD
    have hp : ¬ Reprocessed E S.ctx files p :=
      fun hp => hno ⟨D, ⟨M, ⟨p, hM, hp⟩, hDM⟩, hhash⟩
    exact ⟨⟨M, p, h.mem_modules_of_kept hM fun hpf => hp (Or.inl hpf), hDM⟩, htaken, hhash⟩
  · obtain ⟨p, hMp, _⟩ := h.mem_ms_iff.mp hM
    refine ⟨⟨M, p, ?_, mem_definitionsOf.mpr ⟨hDM, hdef⟩⟩, htaken, hhash⟩
    rwa [modules_runModules, h.modules]

theorem Start.not_mem_row (h : Start E S files T ms) (hL : Loaded E S.ctx)
    (hf : FilesOk S.ctx files) (hrows : RowsLive E S.ctx) {M : ModPtr} (hM : M ∈ ms)
    {F : FuncPtr} (hF : F ∈ definitionsOf E M) (A : FuncPtr) : A ∉ T.ctx.callees.row F := by
  intro hA
  obtain ⟨N, q, hN, hq, hFN⟩ := h.kept_row hL hrows hA
  have hNM : N = M := (mod_of_mem_definitionsOf hFN).symm.trans (mod_of_mem_definitionsOf hF)
  subst hNM
  exact h.not_mem_ms hL hf hN hq hM

theorem Start.old_of_typeTarget (h : Start E S files T ms) (hcands : CandidatesExact E S.ctx)
    {M : ModPtr} {p : String} (hM : (M, p) ∈ S.ctx.modules)
    (hp : ¬ Reprocessed E S.ctx files p) {F G : FuncPtr} (hF : F ∈ definitionsOf E M)
    (hG : TypeTarget E (runModules E T ms).ctx F G) : TypeTarget E S.ctx F G := by
  obtain ⟨⟨N, q, hN, hGN⟩, htaken, hcalls⟩ := hG
  rw [modules_runModules, h.modules] at hN
  rcases mem_nextModules.mp hN with ⟨hold, _⟩ | hfile
  · exact ⟨⟨N, q, hold, hGN⟩, htaken, hcalls⟩
  · -- the module of `F` is a candidate caller of `G`
    exfalso
    obtain ⟨CI, hCI, hcall, hind, hhash⟩ := hcalls
    have hcand := (hcands _ p).mpr ⟨M, hM, F, hF, CI, hCI, hcall, hind, hhash⟩
    exact hp (Or.inr ⟨⟨(q, N), hfile, Or.inr ⟨G, (mem_definitionsOf.mp hGN).1, htaken, hcand⟩⟩,
      fun hpf => hp (Or.inl hpf)⟩)

/-- A function of a module that is left alone stays in its bucket exactly if this one is not
emptied. -/
theorem FreshState.mem_bucket_iff (hS : FreshState E seen S) (h : Start E S files T ms)
    (hL : Loaded E S.ctx) (hf : FilesOk S.ctx files) (honly : OnlyBuckets E ms) {N : ModPtr}
    {q : String} (hN : (N, q) ∈ S.ctx.modules) (hq : ¬ Reprocessed E S.ctx files q)
    {D : FuncPtr} (hD : D ∈ definitionsOf E N) (htaken : (E.function D).hasAddressTaken = true) :
    D ∈ (runModules E T ms).ctx.sigFuncsMap.row (E.funcHash D false) ↔
      ¬ ∃ R, OldDefinition E S.ctx files R ∧ E.funcHash R false = E.funcHash D false := by
  rw [sigFuncsMap_runModules]
  have hg := h.onlyDefinitions hS.onlyDefinitions
  constructor
  · intro hrow
    rcases (of_mem_row_initialized_definitions hg (hS.buckets.definitions_of_start h _)
      honly.definitions hrow).1 with hrow | ⟨M, hM, hDM, _⟩
    · exact ((h.sigFuncsMap _ D).mp hrow).2
    · have hMN : M = N := (E.mod_of_mem_functions hDM).symm.trans (mod_of_mem_definitionsOf hD)
      exact absurd (hMN ▸ hM) (h.not_mem_ms hL hf hN hq)
  · intro hno
    apply mem_row_initialized_of_isDefinition hg (mem_definitionsOf.mp hD).2
    exact Or.inl ((h.sigFuncsMap _ D).mpr ⟨hS.signatures D ⟨N, q, hN, hD⟩ htaken, hno⟩)

theorem FreshState.analysed_iff (hS : FreshState E seen S) (h : Start E S files T ms)
    (hL : Loaded E S.ctx) (hf : FilesOk S.ctx files) (honly : OnlyBuckets E ms)
    (hexact : DefinitionMapExact E (runModules E T ms).ctx)
    (hloses : LosesNoTarget E S.ctx files) {M : ModPtr} (hM : M ∈ ms) {F G : FuncPtr}
    (hF : F ∈ definitionsOf E M) : G ∈ (runModules E T ms).ctx.callees.row F ↔
      DirectlyCalls E (runModules E T ms).ctx.globalFuncMap F G ∨
        TypeTarget E (runModules E T ms).ctx F G := by
  rw [mem_callees_runModules_iff (h.onlyDefinitions hS.onlyDefinitions) honly
    (hS.buckets.definitions_of_start h) ⟨M, hM, hF⟩ (h.not_mem_row hL hf hS.edges.rowsLive hM hF)]
  constructor
  · rintro (hdirect | ⟨hash, hcalls, hrow⟩)
    · exact Or.inl hdirect
    · obtain ⟨hlive, htaken, rfl⟩ := h.bucketsLive hS.onlyDefinitions honly hS.buckets hash G hrow
      exact Or.inr ⟨hlive, htaken, hcalls⟩
  · rintro (hdirect | ⟨⟨N, q, hN, hGN⟩, htaken, hcalls⟩)
    · exact Or.inl hdirect
    · have hGdefs : Defines E ((runModules E T ms).ctx.modules.map Prod.fst) G :=
        ⟨N, List.mem_map.mpr ⟨_, hN, rfl⟩, hGN⟩
      rw [modules_runModules, h.modules] at hN
      rcases h.next_cases hN with hNms | ⟨hold, hq⟩
      · refine Or.inr ⟨_, hcalls, ?_⟩
        rw [sigFuncsMap_runModules]
        obtain ⟨hmem, hdef⟩ := mem_definitionsOf.mp hGN
        exact mem_row_initialized_of_isDefinition (h.onlyDefinitions hS.onlyDefinitions) hdef
          (Or.inr ⟨N, hNms, hmem, htaken, rfl⟩)
      · by_cases hempty : ∃ R, OldDefinition E S.ctx files R ∧
            E.funcHash R false = E.funcHash G false
        · obtain ⟨p, hMp, hp⟩ := h.mem_ms_iff.mp hM
          have hnames := hloses M p hMp hp F hF N q hold hq G hGN htaken hcalls hempty
          exact Or.inl ((directlyCalls_iff_namesDirectly hexact hGdefs).mpr hnames)
        · exact Or.inr ⟨_, hcalls,
            (hS.mem_bucket_iff h hL hf honly hold hq hGN htaken).mpr hempty⟩

theorem FreshState.kept_iff (hS : FreshState E seen S) (h : Start E S files T ms)
    (hL : Loaded E S.ctx) (hf : FilesOk S.ctx files)
    (hu : UniqueExternals E ((nextModules S.ctx.modules files).map Prod.fst))
    (hexact : DefinitionMapExact E (runModules E T ms).ctx)
    (hbrings : BringsNoCallee E S files) (hdrops : DropsNoTarget E S.ctx files) {M : ModPtr}
    {p : String} (hM : (M, p) ∈ S.ctx.modules) (hp : ¬ Reprocessed E S.ctx files p)
    {F G : FuncPtr} (hF : F ∈ definitionsOf E M) : G ∈ (runModules E T ms).ctx.callees.row F ↔
      DirectlyCalls E (runModules E T ms).ctx.globalFuncMap F G ∨
        TypeTarget E (runModules E T ms).ctx F G := by
  unfold DefinitionMapExact at hexact
  rw [modules_runModules, h.modules] at hexact
  rw [h.mem_callees_iff hL hf hS.onlyDefinitions hM hp hF, hS.callees,
    hS.edges.directlyCalls_iff hS.definitionMap hbrings hu hexact hM hp hF]
  constructor
  · rintro ⟨_, hdirect | ⟨⟨N, q, hN, hGN⟩, htaken, hcalls⟩⟩
    · exact Or.inl hdirect
    · refine Or.inr ⟨⟨N, q, h.mem_modules_of_kept hN fun hq => ?_, hGN⟩, htaken, hcalls⟩
      exact hdrops M p hM hp F hF N q hN hq G hGN htaken hcalls
  · intro hG
    refine ⟨⟨M, p, hM, hF⟩, ?_⟩
    exact hG.imp_right (h.old_of_typeTarget hS.candidates hM hp hF)

theorem FreshState.calleesExact (hS : FreshState E seen S) (h : Start E S files T ms)
    (hL : Loaded E S.ctx) (hf : FilesOk S.ctx files) (honly : OnlyBuckets E ms)
    (hu : UniqueExternals E ((nextModules S.ctx.modules files).map Prod.fst))
    (hexact : DefinitionMapExact E (runModules E T ms).ctx)
    (hbrings : BringsNoCallee E S files) (hdrops : DropsNoTarget E S.ctx files)
    (hloses : LosesNoTarget E S.ctx files) : CalleesExact E (runModules E T ms).ctx := by
  have hiff : ∀ {F G}, LiveDefinition E (runModules E T ms).ctx F →
      (G ∈ (runModules E T ms).ctx.callees.row F ↔
        DirectlyCalls E (runModules E T ms).ctx.globalFuncMap F G ∨
          TypeTarget E (runModules E T ms).ctx F G) := by
    intro F G hF
    obtain ⟨M, p, hM, hFM⟩ := hF
    rw [modules_runModules, h.modules] at hM
    rcases h.next_cases hM with hMms | ⟨hold, hp⟩
    · exact hS.analysed_iff h hL hf honly hexact hloses hMms hFM
    · exact hS.kept_iff h hL hf hu hexact hbrings hdrops hold hp hFM
  intro F G
  constructor
  · intro hG
    have hF := h.rowsLive hL hS.onlyDefinitions hS.edges.rowsLive F G hG
    exact ⟨hF, (hiff hF).mp hG⟩
  · exact fun hG => (hiff hG.1).mpr hG.2

theorem Start.not_live_of_replaced (h : Start E S files T ms) (hL : Loaded E S.ctx)
    (hf : FilesOk S.ctx files) {N : ModPtr} {q : String} (hN : (N, q) ∈ S.ctx.modules)
    (hq : q ∈ files.map Prod.fst) {D : FuncPtr} (hD : D ∈ definitionsOf E N) :
    ¬ LiveDefinition E (runModules E T ms).ctx D := by
  intro hlive
  obtain ⟨K, r, hK, hDK⟩ := hlive
  have hKN : K = N := (mod_of_mem_definitionsOf hDK).symm.trans (mod_of_mem_definitionsOf hD)
  subst hKN
  rw [modules_runModules, h.modules] at hK
  rcases mem_nextModules.mp hK with ⟨hold, hr⟩ | hfile
  · exact hr (hL.eq_of_mod hN hold ▸ hq)
  · exact hf.fresh _ hfile (List.mem_map.mpr ⟨_, hN, rfl⟩)

theorem DefinitionMapExact.live {ctx : GlobalContext} (h : DefinitionMapExact E ctx) (k : ℕ)
    (A : FuncPtr) (hA : ctx.globalFuncMap[k]? = some A) : LiveDefinition E ctx A := by
  obtain ⟨M, hM, hAM, hdef, _⟩ := (h k A).mp hA
  obtain ⟨⟨M, p⟩, hMp, rfl⟩ := List.mem_map.mp hM
  exact ⟨M, p, hMp, mem_definitionsOf.mpr ⟨hAM, isDeclaration_of_isGlobalDefinition hdef⟩⟩

/-- A kept target that is replaced stays in the row, though it is not loaded any more. -/
theorem FreshState.dropsNoTarget (hS : FreshState E seen S) (h : Start E S files T ms)
    (hL : Loaded E S.ctx) (hf : FilesOk S.ctx files)
    (hexact : DefinitionMapExact E (runModules E T ms).ctx)
    (hcallees : CalleesExact E (runModules E T ms).ctx) : DropsNoTarget E S.ctx files := by
  intro M p hM hp F hF N q hN hq D hD htaken hcalls
  have hrow := (hS.callees F D).mpr ⟨⟨M, p, hM, hF⟩, Or.inr ⟨⟨N, q, hN, hD⟩, htaken, hcalls⟩⟩
  rw [← h.mem_callees_iff hL hf hS.onlyDefinitions hM hp hF, hcallees] at hrow
  apply h.not_live_of_replaced hL hf hN hq hD
  rcases hrow.2 with hdirect | htarget
  · have hM' := h.mem_modules_of_kept hM fun hpf => hp (Or.inl hpf)
    exact hdirect.liveDefinition hM' hF hexact.live
  · exact htarget.1

/-- A target that only an emptied bucket holds is missed. -/
theorem FreshState.losesNoTarget (hS : FreshState E seen S) (h : Start E S files T ms)
    (hL : Loaded E S.ctx) (hf : FilesOk S.ctx files) (honly : OnlyBuckets E ms)
    (hexact : DefinitionMapExact E (runModules E T ms).ctx)
    (hcallees : CalleesExact E (runModules E T ms).ctx) : LosesNoTarget E S.ctx files := by
  intro M p hM hp F hF N q hN hq D hD htaken hcalls hempty
  have hMms := h.mem_ms_iff.mpr ⟨p, hM, hp⟩
  have hN' := h.mem_modules_of_kept hN fun hqf => hq (Or.inl hqf)
  have hMmods : (M, p) ∈ (runModules E T ms).ctx.modules := by
    rwa [modules_runModules, h.modules]
  have hrow := (hcallees F D).mpr
    ⟨⟨M, p, hMmods, hF⟩, Or.inr ⟨⟨N, q, hN', hD⟩, htaken, hcalls⟩⟩
  rw [mem_callees_runModules_iff (h.onlyDefinitions hS.onlyDefinitions) honly
    (hS.buckets.definitions_of_start h) ⟨M, hMms, hF⟩
    (h.not_mem_row hL hf hS.edges.rowsLive hMms hF)] at hrow
  rcases hrow with hdirect | ⟨hash, _, hrow⟩
  · exact (directlyCalls_iff_namesDirectly hexact
      ⟨N, List.mem_map.mpr ⟨_, hN', rfl⟩, hD⟩).mp hdirect
  · obtain ⟨_, _, rfl⟩ := h.bucketsLive hS.onlyDefinitions honly hS.buckets hash D hrow
    exact absurd hempty ((hS.mem_bucket_iff h hL hf honly hN hq hD htaken).mp hrow)

end Update

/-! ## Runs -/

/-- The run brings no callee and drops no target of a call that is left alone, and keeps the
definitions and the signatures of the modules that are. -/
abbrev ExactRun (E : Env) : List ModPtr → CallGraphPass → Prop :=
  Reached E (fun files => UniqueExternals E (files.map Prod.snd)) fun S files =>
    (((UniqueExternals E ((nextModules S.ctx.modules files).map Prod.fst) ∧
      KeepsDefinitions E S.ctx files) ∧ BringsNoCallee E S files) ∧
        KeepsSignatures E S.ctx files) ∧ DropsNoTarget E S.ctx files

theorem freshState_initial {files : List ParsedFile} (hp : (files.map Prod.fst).Nodup)
    (hm : (files.map Prod.snd).Nodup) (hu : UniqueExternals E (files.map Prod.snd))
    (honly : OnlyBuckets E (files.map Prod.snd)) : FreshState E (files.map Prod.snd)
      (runModules E (initialState E files) (files.map Prod.snd)) := by
  have hg := onlyDefinitions_initialState (E := E) hp hm
  exact {
    onlyDefinitions := by
      rw [globalFuncMap_runModules]
      exact onlyDefinitions_initialized hg _
    within := (within_initialState hp hm _).runModules hg fun M hM => hM
    unique := by
      rw [modules_runModules, initialState_modules hp hm]
      simpa [Function.comp_def] using hu
    definitionMap := definitionMapExact_initial hp hm hu
    edges := directEdges_initial hp hm
    candidates := candidatesExact_initial hp hm
    signatures := signatureTableComplete_initial hp hm
    buckets := bucketsLive_initial hp hm honly
    callees := calleesExact_initial hp hm honly }

theorem FreshState.runModules {S T : CallGraphPass} {files : List ParsedFile}
    {ms seen : List ModPtr} (hS : FreshState E seen S) (h : Start E S files T ms)
    (hL : Loaded E S.ctx) (hf : FilesOk S.ctx files)
    (hseen : ∀ M ∈ S.ctx.modules.map Prod.fst, M ∈ seen)
    (honly : OnlyBuckets E (files.map Prod.snd ++ seen))
    (hu : UniqueExternals E ((nextModules S.ctx.modules files).map Prod.fst))
    (hkeep : KeepsDefinitions E S.ctx files) (hbrings : BringsNoCallee E S files)
    (hsig : KeepsSignatures E S.ctx files) (hdrops : DropsNoTarget E S.ctx files) :
    FreshState E (files.map Prod.snd ++ seen) (CallGraphPass.runModules E T ms) := by
  have hg := h.onlyDefinitions hS.onlyDefinitions
  have hexact := (h.definitionMapExact_iff hL hf hu hS.definitionMap).mpr hkeep
  have hms : ∀ M ∈ ms, M ∈ files.map Prod.snd ++ seen :=
    fun M hM => seen_of_nextModules hseen M (h.mem_next hM)
  exact {
    onlyDefinitions := by
      rw [globalFuncMap_runModules]
      exact onlyDefinitions_initialized hg _
    within := ((h.within hS.within).mono fun M hM => List.mem_append_right _ hM).runModules hg hms
    unique := by
      rw [modules_runModules, h.modules]
      exact hu
    definitionMap := hexact
    edges := h.directEdges hL hf hseen hS.onlyDefinitions hS.edges hS.definitionMap hexact hu
      hbrings
    candidates := h.candidatesExact hS.candidates
    signatures := h.signatureTableComplete hS.onlyDefinitions hS.signatures hsig
    buckets := h.bucketsLive hS.onlyDefinitions (honly.mono hms) hS.buckets
    callees := hS.calleesExact h hL hf (honly.mono hms) hu hexact hbrings hdrops
      hsig.losesNoTarget }

theorem ExactRun.freshState {seen : List ModPtr} {S : CallGraphPass} (h : ExactRun E seen S)
    (honly : OnlyBuckets E seen) : FreshState E seen S := by
  apply h.invariant (J := fun seen S => OnlyBuckets E seen → FreshState E seen S) _ _ honly
  · exact fun files hp hm hu honly => freshState_initial hp hm hu honly
  · intro seen S files hL hseen hf hJ hC hstart honly
    obtain ⟨⟨⟨⟨hu, hkeep⟩, hbrings⟩, hsig⟩, hdrops⟩ := hC
    exact (hJ (honly.mono fun M hM => List.mem_append_right _ hM)).runModules hstart hL hf hseen
      honly hu hkeep hbrings hsig hdrops

/-- Where nothing is narrowed, the callees of a run are those of a fresh start. The next update
arrives at them again if and only if it brings no callee and drops no target of a call that it
leaves alone, and loses no target of one that it analyses again. -/
theorem callees_fresh_iff {seen : List ModPtr} {S : CallGraphPass} (hS : ExactRun E seen S)
    (honly : OnlyBuckets E seen) :
    (∀ F, S.ctx.callees.row F = (freshRun E S.ctx).ctx.callees.row F) ∧
      ∀ (files : List ParsedFile) (S' : CallGraphPass), (files.map Prod.fst).Nodup →
        (files.map Prod.snd).Nodup → (∀ f ∈ files, f.2 ∉ seen) →
        OnlyBuckets E (files.map Prod.snd) →
        UniqueExternals E ((nextModules S.ctx.modules files).map Prod.fst) →
        KeepsDefinitions E S.ctx files → updateModules E S (parsed files) = some S' →
        ((∀ F, S'.ctx.callees.row F = (freshRun E S'.ctx).ctx.callees.row F) ↔
          BringsNoCallee E S files ∧ DropsNoTarget E S.ctx files ∧
            LosesNoTarget E S.ctx files) := by
  obtain ⟨hL, hseen⟩ := hS.loaded
  have hfresh := hS.freshState honly
  have hmap := hfresh.definitionMap.globalFuncMap_eq hL.toTables hfresh.unique
  refine ⟨(calleesExact_iff hL.toTables (honly.mono hseen) hmap).mp hfresh.callees, ?_⟩
  intro files S' hp hm hnew hfiles hu hkeep hstep
  obtain ⟨hf, hstart, hrun⟩ := hS.start hp hm (hS.fresh_of_seen hnew)
  obtain rfl := Option.some.inj (hrun.symm.trans hstep)
  have hall : OnlyBuckets E ((nextModules S.ctx.modules files).map Prod.fst) :=
    (hfiles.append honly).mono (seen_of_nextModules hseen)
  have hms : OnlyBuckets E (passModules E S files) := hall.mono fun M hM => hstart.mem_next hM
  have hmods : (runModules E (passStart E S files) (passModules E S files)).ctx.modules =
      nextModules S.ctx.modules files := by
    rw [modules_runModules, hstart.modules]
  have hexact := (hstart.definitionMapExact_iff hL hf hu hfresh.definitionMap).mpr hkeep
  have hL' := hstart.loaded hL hf
  have hmap' := hexact.globalFuncMap_eq hL'.toTables (by rwa [hmods])
  rw [← calleesExact_iff hL'.toTables (by rwa [hmods]) hmap']
  constructor
  · intro hcallees
    refine ⟨?_, hfresh.dropsNoTarget hstart hL hf hexact hcallees,
      hfresh.losesNoTarget hstart hL hf hms hexact hcallees⟩
    rw [← hstart.missesNoDirectEdge_iff hL hf hseen hnew hfresh.onlyDefinitions hfresh.within
      hfresh.edges hfresh.definitionMap hkeep hu]
    intro F hF G hdirect
    exact (hcallees F G).mpr ⟨hF, Or.inl (hmap' ▸ hdirect)⟩
  · intro hneeds
    obtain ⟨hbrings, hdrops, hloses⟩ := hneeds
    exact hfresh.calleesExact hstart hL hf hms hu hexact hbrings hdrops hloses

/-- The target is added, and the call is analysed again; then it is replaced, and the call keeps
it. -/
theorem callees_fresh_iff_target :
    (∃ S, updateModules addedTarget (initializeModules addedTarget (parsed [("a.bc", 0)]))
        (parsed [("b.bc", 1)]) = some S ∧
      ∀ F, S.ctx.callees.row F = (freshRun addedTarget S.ctx).ctx.callees.row F) ∧
    ∃ S, updateModules addedTarget
        (initializeModules addedTarget (parsed [("a.bc", 0), ("b.bc", 1)]))
        (parsed [("b.bc", 2)]) = some S ∧
      ¬ ∀ F, S.ctx.callees.row F = (freshRun addedTarget S.ctx).ctx.callees.row F := by
  constructor
  · have hfirst : ExactRun addedTarget [0]
        (initializeModules addedTarget (parsed [("a.bc", 0)])) :=
      Reached.init [("a.bc", 0)] (by decide) (by decide) (uniqueExternals_of_nodup (by decide))
    have hall : ∀ m ∈ (initializeModules addedTarget (parsed [("a.bc", 0)])).ctx.modules,
        Reprocessed addedTarget
          (initializeModules addedTarget (parsed [("a.bc", 0)])).ctx [("b.bc", 1)] m.2 := by
      decide
    obtain ⟨S, hstep, hS⟩ := hfirst.exists_update [("b.bc", 1)] (by decide) (by decide) (by decide)
      ⟨⟨⟨⟨uniqueExternals_of_nodup (by decide),
        keepsDefinitions_of_nodup hfirst.loaded.1.toTables (by decide)⟩,
        fun M p hM hp => absurd (hall (M, p) hM) hp⟩,
        keepsSignatures_of_ne hfirst.loaded.1.toTables (by decide)⟩,
        fun M p hM hp => absurd (hall (M, p) hM) hp⟩
    exact ⟨S, hstep, (callees_fresh_iff hS (onlyBuckets_of_arguments (by decide) (by decide))).1⟩
  · have hfirst : ExactRun addedTarget [0, 1]
        (initializeModules addedTarget (parsed [("a.bc", 0), ("b.bc", 1)])) :=
      Reached.init [("a.bc", 0), ("b.bc", 1)] (by decide) (by decide)
        (uniqueExternals_of_nodup (by decide))
    obtain ⟨_, _, hrun⟩ := hfirst.start
      (show (([("b.bc", 2)] : List ParsedFile).map Prod.fst).Nodup by decide)
      (by decide) (hfirst.fresh_of_seen (by decide))
    refine ⟨_, hrun, ?_⟩
    rw [(callees_fresh_iff hfirst (onlyBuckets_of_arguments (by decide) (by decide))).2
      [("b.bc", 2)] _ (by decide) (by decide) (by decide)
      (onlyBuckets_of_arguments (by decide) (by decide)) (uniqueExternals_of_nodup (by decide))
      (keepsDefinitions_of_nodup hfirst.loaded.1.toTables (by decide)) hrun]
    rintro ⟨_, hdrops, _⟩
    exact hdrops 0 "a.bc" (by decide) (by decide) ⟨0, 0⟩ (by decide) 1 "b.bc" (by decide)
      (by decide) ⟨1, 0⟩ (by decide) (by decide)
      ⟨⟨0, 2⟩, by decide, by decide, by decide, by decide⟩

end TypeDive

end Cisa

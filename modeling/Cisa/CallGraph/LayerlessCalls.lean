import Cisa.CallGraph.CandidateCallers
import Cisa.CallGraph.FreshDirectCalls
import Cisa.CallGraph.LayerSteps
import Cisa.CallGraph.SignatureTable

/-!
# Calls that nothing narrows

A pointer that is computed without a GEP has no layers, and a call through it has its whole
bucket as targets. What such a call misses after an update is what its bucket misses, or what
has been added without the call being analysed again.
-/

namespace Cisa

open Std

namespace Mlta

variable {E : Env}

/-- The walk from the value meets arguments and ends only: no layer is appended, whatever the
tables are. -/
def Layerless (E : Env) (V : ValPtr) : Prop :=
  ∃ C : ValPtr → Prop, C V ∧ ∀ W, C W → E.isArgument W = false → ∀ m,
    match layerStep E m W with
    | .append _ => False
    | .follow O => C O
    | .phis => ∀ O ∈ E.operands W, C O
    | .stop => True

theorem layerless_of_isArgument {V : ValPtr} (h : E.isArgument V = true) : Layerless E V :=
  ⟨fun W => W = V, rfl, fun W hW hno => by simp [hW, h] at hno⟩

theorem tyList_phiLayers {rec : ValPtr → LayerState → Bool × LayerState} {st : LayerState}
    {IVs : List ValPtr} (hrec : ∀ IV ∈ IVs, (rec IV { st with nextV := some IV }).2.tyList = [])
    {acc : Bool × LayerState} (hacc : acc.2.tyList = []) :
    (phiLayers rec st IVs acc).2.tyList = [] := by
  induction IVs generalizing acc with
  | nil => exact hacc
  | cons IV rest ih =>
    have hIV := hrec IV List.mem_cons_self
    unfold phiLayers
    dsimp only
    split_ifs
    · exact hIV
    · exact ih (fun V hV => hrec V (List.mem_cons_of_mem _ hV)) hIV

theorem tyList_nextLayerBaseType_layerless {V : ValPtr} (h : Layerless E V) (m : Mlta) (n : ℕ)
    {st : LayerState} (hst : st.tyList = []) :
    (nextLayerBaseType E m n V st).2.tyList = [] := by
  obtain ⟨C, hV, hC⟩ := h
  induction n generalizing V st with
  | zero => exact hst
  | succ n ih =>
    by_cases hstop : E.isArgument V ∨ V ∈ st.visited
    · rw [nextLayerBaseType_of_stop hstop]
      exact hst
    · have hstep := hC V hV (by simpa using fun h => hstop (Or.inl h)) m
      rw [nextLayerBaseType_succ hstop]
      cases hkind : layerStep E m V with
      | append layers =>
        rw [hkind] at hstep
        exact hstep.elim
      | follow O =>
        rw [hkind] at hstep
        exact ih hst hstep
      | phis =>
        rw [hkind] at hstep
        apply tyList_phiLayers _ rfl
        exact fun O hO => ih hst (hstep O hO)
      | stop => exact hst

def LayerlessCall (E : Env) (CI : ValPtr) : Prop := ∀ CV ∈ (E.operands CI).getLast?, Layerless E CV

theorem FS_searchLoop_layerless {m : Mlta} {st : SearchState} (h : Layerless E st.CV) (n : ℕ) :
    (searchLoop E m n st).FS = st.FS := by
  cases n with
  | zero => rfl
  | succ n =>
    have hnone : (nextLayerBaseType E m (valueFuel E st.CV) st.CV
        { nextV := st.nextV }).2.tyList = [] := tyList_nextLayerBaseType_layerless h m _ rfl
    unfold searchLoop
    dsimp only
    rw [if_pos hnone]
    split_ifs <;> rfl

theorem findCallees_layerless {CI : ValPtr} (h : LayerlessCall E CI) (m : Mlta)
    (sigFuncsMap : SortedMap SizeT FuncSet) :
    (findCalleesWithMLTA E m sigFuncsMap CI).1 = sigFuncsMap.row (E.callHash CI) := by
  unfold findCalleesWithMLTA
  dsimp only
  split
  · rename_i CV _ hCV
    exact FS_searchLoop_layerless (h CV hCV) _
  · rfl

end Mlta

namespace TypeDive

variable {E : Env}

open CallGraphPass Mlta

def CallsLayerless (E : Env) (F : FuncPtr) (CI : ValPtr) : Prop :=
  CI ∈ E.insts F ∧ isCall E CI = true ∧ isIndirectCall E CI = true ∧ LayerlessCall E CI

/-- A layerless call has all live address-taken definitions of its signature as callees. -/
def FindsTargets (E : Env) (ctx : GlobalContext) : Prop :=
  ∀ F, LiveDefinition E ctx F → ∀ CI, CallsLayerless E F CI → ∀ D, LiveDefinition E ctx D →
    (E.function D).hasAddressTaken = true → E.funcHash D false = E.callHash CI →
      D ∈ ctx.callees.row F

section Run

variable {T : CallGraphPass} {ms : List ModPtr}

theorem mem_targetsOf_layerless {S U : CallGraphPass} (hU : SameInputs S U) {F : FuncPtr}
    {CI : ValPtr} (hCI : CallsLayerless E F CI) {D : FuncPtr} :
    D ∈ targetsOf E U CI ↔ D ∈ S.ctx.sigFuncsMap.row (E.callHash CI) := by
  obtain ⟨_, hcall, hind, hlayerless⟩ := hCI
  have hsig := congrArg GlobalContext.sigFuncsMap hU.post
  simp only [GlobalContext.forgetPost] at hsig
  simp [targetsOf, hcall, hind, findCallees_layerless hlayerless, hsig]

/-- The pass over a definition takes the whole buckets of its layerless calls. -/
theorem mem_callees_runModules_layerless (hg : OnlyDefinitions E T.ctx.globalFuncMap)
    {F D : FuncPtr} {CI : ValPtr} (hF : Defines E ms F) (hCI : CallsLayerless E F CI)
    (hdef : (E.function D).isDeclaration = false)
    (hD : D ∈ (initialized E T ms).ctx.sigFuncsMap.row (E.callHash CI)) :
    D ∈ (runModules E T ms).ctx.callees.row F := by
  rw [mem_callees_runModules hg hF.mem_functions]
  refine ⟨D, ?_, definitionOf_of_isDefinition hdef⟩
  exact mem_callees_passed_of hF hCI.1 fun U hU => (mem_targetsOf_layerless hU hCI).mpr hD

theorem cases_of_mem_callees_runModules (hg : OnlyDefinitions E T.ctx.globalFuncMap)
    {F G : FuncPtr} (hF : ∃ M ∈ ms, F ∈ E.functions M) (hnew : ∀ A, A ∉ T.ctx.callees.row F)
    (hG : G ∈ (runModules E T ms).ctx.callees.row F) :
    DirectlyCalls E (runModules E T ms).ctx.globalFuncMap F G ∨
      ∃ CI ∈ E.insts F, isCall E CI = true ∧ isIndirectCall E CI = true ∧
        ∃ D ∈ (initialized E T ms).ctx.sigFuncsMap.row (E.callHash CI),
          definitionOf E (runModules E T ms).ctx.globalFuncMap D = some G := by
  rw [globalFuncMap_runModules]
  obtain ⟨D, hD, hDG⟩ := (mem_callees_runModules hg hF).mp hG
  rcases of_mem_callees_passed hD with hold | ⟨_, CI, hCI, U, hU, htarget⟩
  · rw [callees_initialized] at hold
    exact absurd hold (hnew D)
  · obtain ⟨hcall, ⟨hind, hbucket⟩ | ⟨hind, CF, hCF, hDeq⟩⟩ := of_mem_targetsOf hU htarget
    · exact Or.inr ⟨CI, hCI, hcall, hind, D, hbucket, hDG⟩
    · refine Or.inl ⟨CI, hCI, hcall, hind, CF, hCF, ?_⟩
      cases hCFdef : definitionOf E (initialized E T ms).ctx.globalFuncMap CF with
      | none =>
        rw [hCFdef, Option.getD_none] at hDeq
        rw [hDeq, hDG] at hCFdef
        cases hCFdef
      | some A =>
        rw [hCFdef, Option.getD_some] at hDeq
        have hA := isDefinition_of_definitionOf (onlyDefinitions_initialized hg ms) hCFdef
        rw [← hDG, ← hDeq, definitionOf_of_isDefinition hA]

theorem findsTargets_initial {files : List ParsedFile} (hp : (files.map Prod.fst).Nodup)
    (hm : (files.map Prod.snd).Nodup) :
    FindsTargets E (runModules E (initialState E files) (files.map Prod.snd)).ctx := by
  have hcomplete := signatureTableComplete_initial (E := E) hp hm
  intro F hF CI hCI D hD htaken hhash
  have hrow := hcomplete D hD htaken
  rw [sigFuncsMap_runModules, hhash] at hrow
  obtain ⟨M, p, hM, hFM⟩ := hF
  obtain ⟨N, q, _, hDN⟩ := hD
  rw [modules_runModules, initialState_modules hp hm] at hM
  obtain ⟨f, hf, hfM⟩ := List.mem_map.mp hM
  obtain ⟨rfl, rfl⟩ := Prod.mk.inj hfM
  exact mem_callees_runModules_layerless (onlyDefinitions_initialState hp hm)
    ⟨f.2, List.mem_map.mpr ⟨f, hf, rfl⟩, hFM⟩ hCI (mem_definitionsOf.mp hDN).2 hrow

end Run

/-- The step: a module that is left alone has no call with the signature of a new function. -/
theorem Start.findsTargets {S T : CallGraphPass} {files : List ParsedFile} {ms : List ModPtr}
    (h : Start E S files T ms) (hL : Loaded E S.ctx) (hf : FilesOk S.ctx files)
    (hg : OnlyDefinitions E S.ctx.globalFuncMap) (hcands : CandidatesExact E S.ctx)
    (hcomplete : SignatureTableComplete E (runModules E T ms).ctx)
    (hS : FindsTargets E S.ctx) : FindsTargets E (runModules E T ms).ctx := by
  intro F hF CI hCI D hD htaken hhash
  have hrow := hcomplete D hD htaken
  rw [sigFuncsMap_runModules, hhash] at hrow
  obtain ⟨M, p, hM, hFM⟩ := hF
  obtain ⟨N, q, hN, hDN⟩ := hD
  rw [modules_runModules, h.modules] at hM hN
  rcases h.next_cases hM with hMms | ⟨hold, hp⟩
  · exact mem_callees_runModules_layerless (h.onlyDefinitions hg) ⟨M, hMms, hFM⟩ hCI
      (mem_definitionsOf.mp hDN).2 hrow
  · rw [h.mem_callees_iff hL hf hg hold hp hFM]
    rcases mem_nextModules.mp hN with ⟨hNold, _⟩ | hfile
    · exact hS F ⟨M, p, hold, hFM⟩ CI hCI D ⟨N, q, hNold, hDN⟩ htaken hhash
    · -- the module of `F` is a candidate caller of `D`
      exfalso
      have hcalls : CallsSignature E M (E.funcHash D false) :=
        ⟨F, hFM, CI, hCI.1, hCI.2.1, hCI.2.2.1, hhash.symm⟩
      have hcand := (hcands _ p).mpr ⟨M, hold, hcalls⟩
      exact hp (Or.inr ⟨⟨(q, N), hfile, Or.inr ⟨D, (mem_definitionsOf.mp hDN).1, htaken, hcand⟩⟩,
        fun hpf => hp (Or.inl hpf)⟩)

theorem Reached.findsTargets {I : List ParsedFile → Prop}
    {C : CallGraphPass → List ParsedFile → Prop} {seen : List ModPtr} {S : CallGraphPass}
    (hC : ∀ S files, C S files → KeepsSignatures E S.ctx files) (h : Reached E I C seen S) :
    FindsTargets E S.ctx := by
  have hJ := h.invariant (J := fun _ S => OnlyDefinitions E S.ctx.globalFuncMap ∧
    SignatureTableComplete E S.ctx ∧ CandidatesExact E S.ctx ∧ FindsTargets E S.ctx) ?_ ?_
  · exact hJ.2.2.2
  · intro files hp hm _
    refine ⟨?_, signatureTableComplete_initial hp hm, candidatesExact_initial hp hm,
      findsTargets_initial hp hm⟩
    rw [globalFuncMap_runModules]
    exact onlyDefinitions_initialized (onlyDefinitions_initialState hp hm) _
  · intro _ _ _ hL _ hf hJ hstep hstart
    obtain ⟨hg, hsig, hcands, hfinds⟩ := hJ
    have hsig' := hstart.signatureTableComplete hg hsig (hC _ _ hstep)
    refine ⟨?_, hsig', hstart.candidatesExact hcands,
      hstart.findsTargets hL hf hg hcands hsig' hfinds⟩
    rw [globalFuncMap_runModules]
    exact onlyDefinitions_initialized (hstart.onlyDefinitions hg) _

/-- In a run whose updates keep the signatures of the modules they do not analyse, no layerless
call ever misses a live target. -/
theorem layerless_calls_complete {seen : List ModPtr} {S : CallGraphPass}
    (hS : Reached E (fun _ => True) (fun S files => KeepsSignatures E S.ctx files) seen S) :
    FindsTargets E S.ctx :=
  hS.findsTargets fun _ _ hstep => hstep

/-- `a.bc` calls its argument; the file with a function of this type is added. -/
theorem layerless_calls_new_file : ∃ S, updateModules indirectTarget
    (initializeModules indirectTarget (parsed [("a.bc", 0)])) (parsed [("b.bc", 1)]) = some S ∧
      FindsTargets indirectTarget S.ctx ∧ CallsLayerless indirectTarget ⟨0, 0⟩ ⟨0, 2⟩ := by
  have hfirst : Reached indirectTarget (fun _ => True)
      (fun S files => KeepsSignatures indirectTarget S.ctx files) [0]
      (initializeModules indirectTarget (parsed [("a.bc", 0)])) :=
    Reached.init [("a.bc", 0)] (by decide) (by decide) trivial
  obtain ⟨S, hstep, hS⟩ := hfirst.exists_update [("b.bc", 1)] (by decide) (by decide)
    (by decide) (keepsSignatures_of_ne hfirst.loaded.1.toTables (by decide))
  refine ⟨S, hstep, layerless_calls_complete hS, by decide, by decide, by decide, ?_⟩
  intro CV hCV
  have harg : ∀ CV ∈ (indirectTarget.operands ⟨0, 2⟩).getLast?,
      indirectTarget.isArgument CV = true := by decide
  exact layerless_of_isArgument (harg CV hCV)

/-- Nothing is narrowed: indirect calls are layerless, and only definitions have their address
taken. -/
structure OnlyBuckets (E : Env) (ms : List ModPtr) : Prop where
  layerless : ∀ F, Defines E ms F → ∀ CI ∈ E.insts F, isCall E CI = true →
    isIndirectCall E CI = true → LayerlessCall E CI
  definitions : ∀ M ∈ ms, ∀ D ∈ E.functions M, (E.function D).hasAddressTaken = true →
    (E.function D).isDeclaration = false

theorem OnlyBuckets.mono {ms ms' : List ModPtr} (h : OnlyBuckets E ms) (hms : ∀ M ∈ ms', M ∈ ms) :
    OnlyBuckets E ms' := by
  constructor
  · intro F hF
    obtain ⟨M, hM, hFM⟩ := hF
    exact h.layerless F ⟨M, hms M hM, hFM⟩
  · exact fun M hM => h.definitions M (hms M hM)

theorem OnlyBuckets.append {ms ms' : List ModPtr} (h : OnlyBuckets E ms)
    (h' : OnlyBuckets E ms') : OnlyBuckets E (ms ++ ms') := by
  constructor
  · intro F hF
    obtain ⟨M, hM, hFM⟩ := hF
    rcases List.mem_append.mp hM with hM | hM
    · exact h.layerless F ⟨M, hM, hFM⟩
    · exact h'.layerless F ⟨M, hM, hFM⟩
  · intro M hM
    rcases List.mem_append.mp hM with hM | hM
    · exact h.definitions M hM
    · exact h'.definitions M hM

theorem onlyBuckets_of_arguments {ms : List ModPtr}
    (h : ∀ M ∈ ms, ∀ F ∈ definitionsOf E M, ∀ CI ∈ E.insts F,
      isIndirectCall E CI = true → ∀ CV ∈ (E.operands CI).getLast?, E.isArgument CV = true)
    (hdef : ∀ M ∈ ms, ∀ D ∈ E.functions M, (E.function D).hasAddressTaken = true →
      (E.function D).isDeclaration = false) : OnlyBuckets E ms := by
  refine ⟨?_, hdef⟩
  intro F hF CI hCI _ hind CV hCV
  obtain ⟨M, hM, hFM⟩ := hF
  exact layerless_of_isArgument (h M hM F hFM CI hCI hind CV hCV)

theorem of_mem_callees_freshRun {ctx : GlobalContext} (ht : Tables ctx)
    (honly : OnlyBuckets E (ctx.modules.map Prod.fst)) {F G : FuncPtr}
    (h : G ∈ (freshRun E ctx).ctx.callees.row F) : LiveDefinition E ctx F ∧
      (DirectlyCalls E (freshRun E ctx).ctx.globalFuncMap F G ∨
        ∃ CI, CallsLayerless E F CI ∧ LiveDefinition E ctx G ∧
          (E.function G).hasAddressTaken = true ∧ E.funcHash G false = E.callHash CI) := by
  obtain ⟨hp, hm⟩ := ht.nodup_files
  have hlive : LiveDefinition E ctx F := by
    have hrow := (directEdges_freshRun (E := E) ht).rowsLive F G h
    unfold LiveDefinition at hrow ⊢
    rwa [modules_freshRun ht] at hrow
  refine ⟨hlive, ?_⟩
  obtain ⟨M, p, hM, hF⟩ := hlive
  have hMmods : M ∈ ctx.modules.map Prod.fst := List.mem_map.mpr ⟨_, hM, rfl⟩
  have hempty := initialState_empty (E := E) hp hm
  have hcallees := congrArg GlobalContext.callees hempty
  have hsig := congrArg GlobalContext.sigFuncsMap hempty
  simp only [forgetTables] at hcallees hsig
  have hg := onlyDefinitions_initialState (E := E) hp hm
  rw [freshRun_eq ht] at h ⊢
  rcases cases_of_mem_callees_runModules hg ⟨M, hMmods, (mem_definitionsOf.mp hF).1⟩
    (by simp [hcallees]) h with hdirect | ⟨CI, hCI, hcall, hind, D, hbucket, hDG⟩
  · exact Or.inl hdirect
  · obtain ⟨D', hD', hDD'⟩ := exists_of_mem_row_initialized hg hbucket
    simp only [hsig, ExtTreeMap.row_empty, ExtTreeSet.not_mem_empty, false_or] at hD'
    obtain ⟨N, hN, hDN, htaken, hhash⟩ := hD'
    have hdef := honly.definitions N hN D' hDN htaken
    have hDeq : D = D' := by
      rcases hDD' with hDD' | ⟨hdecl, _⟩
      · exact hDD'
      · rw [hdef] at hdecl
        cases hdecl
    subst hDeq
    rw [definitionOf_of_isDefinition hdef] at hDG
    obtain rfl := Option.some.inj hDG
    obtain ⟨⟨K, q⟩, hK, rfl⟩ := List.mem_map.mp hN
    exact Or.inr ⟨CI, ⟨hCI, hcall, hind, honly.layerless F ⟨M, hMmods, hF⟩ CI hCI hcall hind⟩,
      ⟨K, q, hK, mem_definitionsOf.mpr ⟨hDN, hdef⟩⟩, htaken, hhash⟩

theorem Reached.imp {I : List ParsedFile → Prop} {C C' : CallGraphPass → List ParsedFile → Prop}
    (hC : ∀ S files, C S files → C' S files) {seen : List ModPtr} {S : CallGraphPass}
    (h : Reached E I C seen S) : Reached E I C' seen S := by
  induction h with
  | init files hp hm hI => exact .init files hp hm hI
  | update files _ hp hm hfresh hstep hrun ih =>
    exact ih.update files hp hm hfresh (hC _ _ hstep) hrun

/-- Where nothing is narrowed, updates miss no edge that a fresh start would find, as long as
they keep the definitions and the signatures of the modules they do not analyse, and bring no
callee that a kept call waits for. -/
theorem misses_no_edge {seen : List ModPtr} {S : CallGraphPass}
    (hS : Reached E (fun files => UniqueExternals E (files.map Prod.snd)) (fun S files =>
      ((UniqueExternals E ((nextModules S.ctx.modules files).map Prod.fst) ∧
        KeepsDefinitions E S.ctx files) ∧ BringsNoCallee E S files) ∧
          KeepsSignatures E S.ctx files) seen S)
    (honly : OnlyBuckets E seen) {F G : FuncPtr}
    (hG : G ∈ (freshRun E S.ctx).ctx.callees.row F) : G ∈ S.ctx.callees.row F := by
  have hlinked : LinkedRun E seen S := hS.imp fun _ _ h => h.1
  obtain ⟨hL, hseen⟩ := hS.loaded
  obtain ⟨hu, hexact, hedges⟩ := hlinked.directEdges
  obtain ⟨hF, hdirect | ⟨CI, hCI, hlive, htaken, hhash⟩⟩ :=
    of_mem_callees_freshRun hL.toTables (honly.mono hseen) hG
  · rw [hexact.globalFuncMap_eq hL.toTables hu] at hdirect
    exact hedges.edges F hF G hdirect
  · exact (hS.findsTargets fun _ _ h => h.2) F hF CI hCI G hlive htaken hhash

/-- `a.bc` calls its argument; the address of the function of `b.bc` is taken, in one of its
versions. -/
def addedTarget : Env :=
  Env.ofModules [
    indirectCaller,
    Module.ofFunction { name := "f", guid := 1, hasAddressTaken := true }
      [{ kind := .function, printed := "i32 (i8)" }],
    Module.ofFunction { name := "f", guid := 1 } [{ kind := .function, printed := "i32 (i8)" }]]

theorem misses_no_edge_new_file : ∃ S, updateModules addedTarget
    (initializeModules addedTarget (parsed [("a.bc", 0)])) (parsed [("b.bc", 1)]) = some S ∧
      ∀ F G, G ∈ (freshRun addedTarget S.ctx).ctx.callees.row F → G ∈ S.ctx.callees.row F := by
  have hfirst : Reached addedTarget
      (fun files => UniqueExternals addedTarget (files.map Prod.snd)) (fun S files =>
        ((UniqueExternals addedTarget ((nextModules S.ctx.modules files).map Prod.fst) ∧
          KeepsDefinitions addedTarget S.ctx files) ∧ BringsNoCallee addedTarget S files) ∧
            KeepsSignatures addedTarget S.ctx files) [0]
      (initializeModules addedTarget (parsed [("a.bc", 0)])) :=
    Reached.init [("a.bc", 0)] (by decide) (by decide) (uniqueExternals_of_nodup (by decide))
  have hall : ∀ m ∈ (initializeModules addedTarget (parsed [("a.bc", 0)])).ctx.modules,
      Reprocessed addedTarget
        (initializeModules addedTarget (parsed [("a.bc", 0)])).ctx [("b.bc", 1)] m.2 := by decide
  obtain ⟨S, hstep, hS⟩ := hfirst.exists_update [("b.bc", 1)] (by decide) (by decide) (by decide)
    ⟨⟨⟨uniqueExternals_of_nodup (by decide),
      keepsDefinitions_of_nodup hfirst.loaded.1.toTables (by decide)⟩,
      fun M p hM hp => absurd (hall (M, p) hM) hp⟩,
      keepsSignatures_of_ne hfirst.loaded.1.toTables (by decide)⟩
  exact ⟨S, hstep, fun F G hG =>
    misses_no_edge hS (onlyBuckets_of_arguments (by decide) (by decide)) hG⟩

end TypeDive

end Cisa

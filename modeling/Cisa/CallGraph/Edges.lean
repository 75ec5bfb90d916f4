import Cisa.CallGraph.DeletedFunctions

/-!
# Edges and their inverses

The passes write `Callees` and `Callers` together, but the finalisation maps the
declarations among the callees alone. The two maps agree for as long as no declaration
with a definition is left among the targets of an indirect call.
-/

namespace Cisa

open Std

namespace TypeDive

variable {E : Env}

open CallGraphPass Mlta

/-- The functions that a walk from `F` visits. -/
def visited (ctx : GlobalContext) (dir : CGWalkerDir) (F : FuncPtr) : FuncSet :=
  ctx.visitSubtreeBFS F dir (fun V G => (.next, V.insert G)) ∅

theorem mem_visited {ctx : GlobalContext} {dir : CGWalkerDir} {F G : FuncPtr} :
    G ∈ visited ctx dir F ↔
      Relation.ReflTransGen (fun A B => B ∈ (ctx.nextmap dir).row A) F G := by
  have hJ : ∀ (V t : FuncSet) A, (∀ B, B ∈ t ↔ B ∈ V) → ∀ B, B ∈ t.insert A ↔ B ∈ V.insert A := by
    intro V t A hV B
    simp [hV B]
  obtain ⟨V, hV, hmem⟩ := ctx.visit_next_spec hJ F dir (t := ∅) (by simp)
  rw [← hmem]
  exact hV G

/-- `Callees` and `Callers` are inverse to each other on the live definitions; `Dump`
marks no defined callee, and walking up is the inverse of walking down. -/
structure EdgesInverse (E : Env) (ctx : GlobalContext) : Prop where
  inverse : ∀ F G, LiveDefinition E ctx F → LiveDefinition E ctx G →
    (G ∈ ctx.callees.row F ↔ F ∈ ctx.callers.row G)
  dump : ∀ entry ∈ dump E ctx, ∀ line ∈ entry.2, LiveDefinition E ctx line.1 → line.2 = false
  walks : ∀ F G, LiveDefinition E ctx G →
    (F ∈ visited ctx .up G ↔ G ∈ visited ctx .down F)

def RowsLive (E : Env) (ctx : GlobalContext) : Prop :=
  ∀ F G, G ∈ ctx.callees.row F → LiveDefinition E ctx F

/-- What every state satisfies: the rows belong to live definitions, every callee has its
caller, and only the rows of `Callers` for live definitions say who calls them. -/
structure EdgesSynced (E : Env) (ctx : GlobalContext) : Prop where
  rows : ∀ F G, G ∈ ctx.callees.row F → LiveDefinition E ctx F
  callers : ∀ F G, G ∈ ctx.callees.row F → F ∈ ctx.callers.row G
  callees : ∀ F G, LiveDefinition E ctx G → F ∈ ctx.callers.row G → G ∈ ctx.callees.row F

theorem EdgesSynced.synced {ctx : GlobalContext} (h : EdgesSynced E ctx) {F G : FuncPtr}
    (hG : LiveDefinition E ctx G) : G ∈ ctx.callees.row F ↔ F ∈ ctx.callers.row G :=
  ⟨h.callers F G, h.callees F G hG⟩

theorem EdgesSynced.edgesInverse {ctx : GlobalContext} (h : EdgesSynced E ctx) :
    EdgesInverse E ctx := by
  refine ⟨fun F G _ hG => h.synced hG, ?_, ?_⟩
  · intro entry hentry line hline hlive
    obtain ⟨F, _, rfl⟩ := List.mem_map.mp hentry
    obtain ⟨G, hG, rfl⟩ := List.mem_map.mp hline
    have hrow : G ∈ ctx.callees.row F := ExtTreeSet.mem_toList.mp (List.mem_filter.mp hG).1
    have hinv := ExtTreeSet.mem_iff_contains.mp ((h.synced hlive).mp hrow)
    simp only [hinv, Bool.not_true]
  · intro F G hG
    rw [mem_visited, mem_visited]
    exact Walk.reflTransGen_inverse (r := fun A B => B ∈ ctx.callees.row A)
      (L := LiveDefinition E ctx) (fun hrow => h.rows _ _ hrow)
      (fun hB => h.synced hB) hG

/-- The declarations that an indirect call of the modules can find have no definition. -/
def CallsResolved (E : Env) (T : CallGraphPass) (ms : List ModPtr) : Prop :=
  ∀ F, Defines E ms F → ∀ CI ∈ E.insts F, isCall E CI = true → isIndirectCall E CI = true →
    ∀ D ∈ (initialized E T ms).ctx.sigFuncsMap.row (E.callHash CI),
      (E.function D).isDeclaration = true →
        (initialized E T ms).ctx.globalFuncMap[(E.function D).guid]? = none

section Run

variable {T : CallGraphPass} {ms : List ModPtr}

/-- What a function calls after the passes is a definition, or a declaration without one. -/
theorem eq_of_mem_callees_passed (hg : OnlyDefinitions E T.ctx.globalFuncMap)
    (hC : CallsResolved E T ms) {F D G : FuncPtr} (hnew : ∀ A, A ∉ T.ctx.callees.row F)
    (hD : D ∈ (passed E (initialized E T ms) ms).ctx.callees.row F)
    (hDG : definitionOf E (initialized E T ms).ctx.globalFuncMap D = some G) : D = G := by
  by_cases hdecl : (E.function D).isDeclaration = true
  · exfalso
    have hk : (initialized E T ms).ctx.globalFuncMap[(E.function D).guid]? = some G := by
      rwa [definitionOf, if_pos hdecl] at hDG
    rcases of_mem_callees_passed hD with hold | ⟨hF, CI, hCI, U, hU, htarget⟩
    · rw [callees_initialized] at hold
      exact hnew D hold
    · obtain ⟨hcall, ⟨hind, hbucket⟩ | ⟨_, CF, hCF, hDeq⟩⟩ := of_mem_targetsOf hU htarget
      · rw [hC F hF CI hCI hcall hind D hbucket hdecl] at hk
        cases hk
      · cases hdef : definitionOf E (initialized E T ms).ctx.globalFuncMap CF with
        | none =>
          rw [hdef, Option.getD_none] at hDeq
          subst hDeq
          rw [hDG] at hdef
          cases hdef
        | some A =>
          rw [hdef, Option.getD_some] at hDeq
          subst hDeq
          have hA := isDefinition_of_definitionOf (onlyDefinitions_initialized hg ms) hdef
          rw [hdecl] at hA
          cases hA
  · rw [definitionOf_of_isDefinition (by simpa using hdecl)] at hDG
    exact Option.some.inj hDG

theorem callers_runModules (T : CallGraphPass) (ms : List ModPtr) :
    (runModules E T ms).ctx.callers = (passed E (initialized E T ms) ms).ctx.callers := by
  have h := congrArg GlobalContext.callers
    (forgetCallees_doFinalization (E := E) (passed E (initialized E T ms) ms) ms)
  exact h

/-- A run keeps the callers of its callees: the functions of its modules have no rows when it
starts, and what they call is mapped to itself. -/
theorem mem_callers_runModules (hg : OnlyDefinitions E T.ctx.globalFuncMap)
    (hC : CallsResolved E T ms) {F G : FuncPtr}
    (hnew : (∃ M ∈ ms, F ∈ E.functions M) → ∀ A, A ∉ T.ctx.callees.row F)
    (h : G ∈ T.ctx.callees.row F → F ∈ T.ctx.callers.row G)
    (hG : G ∈ (runModules E T ms).ctx.callees.row F) :
    F ∈ (runModules E T ms).ctx.callers.row G := by
  rw [callers_runModules]
  apply mem_callers_passed_of_callees
  · rwa [callees_initialized, callers_initialized]
  · by_cases hF : ∃ M ∈ ms, F ∈ E.functions M
    · obtain ⟨D, hD, hDG⟩ := (mem_callees_runModules hg hF).mp hG
      rwa [← eq_of_mem_callees_passed hg hC (hnew hF) hD hDG]
    · apply mem_callees_passed_of_mem
      rw [callees_initialized]
      exact (mem_callees_runModules_of_not hg hF).mp hG

theorem mem_callees_runModules_of_callers (hg : OnlyDefinitions E T.ctx.globalFuncMap)
    {F G : FuncPtr} (hdef : (E.function G).isDeclaration = false)
    (h : F ∈ T.ctx.callers.row G → G ∈ T.ctx.callees.row F)
    (hF : F ∈ (runModules E T ms).ctx.callers.row G) :
    G ∈ (runModules E T ms).ctx.callees.row F := by
  rw [callers_runModules] at hF
  have hG : G ∈ (passed E (initialized E T ms) ms).ctx.callees.row F := by
    apply mem_callees_passed_of_callers _ hF
    rwa [callees_initialized, callers_initialized]
  by_cases hms : ∃ M ∈ ms, F ∈ E.functions M
  · exact (mem_callees_runModules hg hms).mpr ⟨G, hG, definitionOf_of_isDefinition hdef⟩
  · rw [mem_callees_runModules_of_not hg hms]
    rcases of_mem_callees_passed hG with hG | ⟨hdefines, _⟩
    · rwa [callees_initialized] at hG
    · exact absurd hdefines.mem_functions hms

theorem exists_of_mem_callees_runModules (hg : OnlyDefinitions E T.ctx.globalFuncMap)
    {F G : FuncPtr} (h : G ∈ (runModules E T ms).ctx.callees.row F) :
    (∃ A, A ∈ T.ctx.callees.row F) ∨ Defines E ms F := by
  by_cases hF : ∃ M ∈ ms, F ∈ E.functions M
  · obtain ⟨D, hD, _⟩ := (mem_callees_runModules hg hF).mp h
    rcases of_mem_callees_passed hD with hold | hnew
    · rw [callees_initialized] at hold
      exact Or.inl ⟨D, hold⟩
    · exact Or.inr hnew.1
  · exact Or.inl ⟨G, (mem_callees_runModules_of_not hg hF).mp h⟩

end Run

/-- A definition of the GUID is kept by the update, or is in a module that it analyses. -/
def Definable (E : Env) (S : CallGraphPass) (files : List ParsedFile) (k : ℕ) : Prop :=
  (∃ F, S.ctx.globalFuncMap[k]? = some F ∧
    ¬ ∃ G, OldDefinition E S.ctx files G ∧ (E.function G).guid = k) ∨
  ∃ F, DefinedIn E (passModules E S files) k F

/-- No declaration that has a definition is left in the bucket of an indirect call that
the update analyses. -/
def ResolvesCalls (E : Env) (S : CallGraphPass) (files : List ParsedFile) : Prop :=
  ∀ F, Defines E (passModules E S files) F → ∀ CI ∈ E.insts F, isCall E CI = true →
    isIndirectCall E CI = true → ∀ D, (E.function D).isDeclaration = true →
      Unresolved E S.mIdx (nextModules S.ctx.modules files).length (passModules E S files)
        (E.callHash CI) (D ∈ S.ctx.sigFuncsMap.row (E.callHash CI) ∧
          ¬ ∃ G, OldDefinition E S.ctx files G ∧ E.funcHash G false = E.callHash CI) D →
      ¬ Definable E S files (E.function D).guid

/-- No definition that the update loads finds a row in `Callers`. Rows of declarations stay
when their module is deleted, and a function at the address of such a key would get the callers
of the declaration. -/
def InheritsNoCallers (E : Env) (S : CallGraphPass) (files : List ParsedFile) : Prop :=
  ∀ f ∈ files, ∀ G ∈ definitionsOf E f.2, ∀ F, F ∉ S.ctx.callers.row G

theorem resolvesCalls_of_definitions {S : CallGraphPass} {files : List ParsedFile}
    (hold : ∀ r ∈ S.ctx.sigFuncsMap.toList, ∀ D ∈ r.2.toList,
      (E.function D).isDeclaration = false)
    (hnew : ∀ M ∈ passModules E S files, ∀ D ∈ E.functions M,
      (E.function D).hasAddressTaken = true → (E.function D).isDeclaration = false) :
    ResolvesCalls E S files := by
  intro F _ CI _ _ _ D hdecl hD
  have hms : ∀ {ms h}, (∀ M ∈ ms, M ∈ passModules E S files) → ¬ AddressTakenIn E ms h D := by
    intro ms h hsub hat
    obtain ⟨M, hM, hDM, htaken, _⟩ := hat
    simp [hnew M (hsub M hM) D hDM htaken] at hdecl
  unfold Unresolved at hD
  split_ifs at hD
  · exact absurd hD (hms fun M hM => List.mem_of_mem_drop hM)
  · rcases hD with hD | hD
    · refine absurd hD.1 (ExtTreeMap.not_mem_row_of_forall (fun r hr hDr => ?_) _)
      simp [hold r hr D (ExtTreeSet.mem_toList.mpr hDr)] at hdecl
    · exact absurd hD (hms fun M hM => hM)

section Initial

variable {files : List ParsedFile}

theorem rowsLive_initial (hp : (files.map Prod.fst).Nodup) (hm : (files.map Prod.snd).Nodup) :
    RowsLive E (runModules E (initialState E files) (files.map Prod.snd)).ctx := by
  have hcallees := congrArg GlobalContext.callees (initialState_empty (E := E) hp hm)
  simp only [forgetTables] at hcallees
  intro F G hG
  rcases exists_of_mem_callees_runModules (onlyDefinitions_initialState hp hm) hG with
    ⟨A, hA⟩ | ⟨M, hM, hF⟩
  · simp [hcallees] at hA
  · obtain ⟨f, hf, rfl⟩ := List.mem_map.mp hM
    refine ⟨f.2, f.1, ?_, hF⟩
    rw [modules_runModules, initialState_modules hp hm]
    exact List.mem_map.mpr ⟨f, hf, rfl⟩

theorem edgesSynced_initial (hp : (files.map Prod.fst).Nodup) (hm : (files.map Prod.snd).Nodup) :
    EdgesSynced E (runModules E (initialState E files) (files.map Prod.snd)).ctx := by
  have hg := onlyDefinitions_initialState (E := E) hp hm
  have hempty := initialState_empty (E := E) hp hm
  have hcallees := congrArg GlobalContext.callees hempty
  have hcallers := congrArg GlobalContext.callers hempty
  simp only [forgetTables] at hcallees hcallers
  have hC : CallsResolved E (initialState E files) (files.map Prod.snd) := by
    intro F hF CI _ _ _ D hD hdecl
    have hne : files.map Prod.snd ≠ [] := by
      intro hnil
      obtain ⟨M, hM, _⟩ := hF
      rw [hnil] at hM
      simp at hM
    exact (runResolved_of_counter hg hne (counterMeets_initial hp hm)).sigs _ D hD hdecl
  constructor
  · exact rowsLive_initial hp hm
  · intro F G
    apply mem_callers_runModules hg hC
    · simp [hcallees]
    · simp [hcallees]
  · intro F G hG
    obtain ⟨M, p, _, hG⟩ := hG
    apply mem_callees_runModules_of_callers hg (mem_definitionsOf.mp hG).2
    simp [hcallers]

end Initial

section Update

variable {S : CallGraphPass} {files : List ParsedFile}

theorem Start.callsResolved
    (h : Start E S files (passStart E S files) (passModules E S files))
    (hg : OnlyDefinitions E S.ctx.globalFuncMap) (hC : ResolvesCalls E S files) :
    CallsResolved E (passStart E S files) (passModules E S files) := by
  intro F hF CI hCI hcall hind D hD hdecl
  have hlen : (passModules E S files).length ≤ (passStart E S files).ctx.modules.length := by
    have hsub := h.ms_nodup.subperm fun M hM => h.mem_next hM
    rw [h.modules]
    simpa using hsub.length_le
  rw [unresolved_iff (h.onlyDefinitions hg) hlen hdecl, h.mIdx, h.modules, h.sigFuncsMap] at hD
  have hno := hC F hF CI hCI hcall hind D hdecl hD
  unfold Definable at hno
  rw [not_or] at hno
  apply getElem?_initialized_eq_none.mpr
  refine ⟨?_, fun A hA => hno.2 ⟨A, hA⟩⟩
  cases hk : (passStart E S files).ctx.globalFuncMap[(E.function D).guid]? with
  | none => rfl
  | some A => exact absurd ⟨A, (h.globalFuncMap _ A).mp hk⟩ hno.1

theorem Start.kept_row {T : CallGraphPass} {ms : List ModPtr} (h : Start E S files T ms)
    (hL : Loaded E S.ctx) (hS : RowsLive E S.ctx) {F A : FuncPtr} (hA : A ∈ T.ctx.callees.row F) :
    ∃ M p, (M, p) ∈ S.ctx.modules ∧ ¬ Reprocessed E S.ctx files p ∧ F ∈ definitionsOf E M := by
  obtain ⟨hA, hno⟩ := (h.callees F A).mp hA
  obtain ⟨M, p, hM, hF⟩ := hS F A hA
  refine ⟨M, p, hM, ?_, hF⟩
  exact fun hp => hno (hL.erased_iff.mpr ⟨M, ⟨p, hM, hp⟩, hF⟩)

theorem Start.rowsLive {T : CallGraphPass} {ms : List ModPtr} (h : Start E S files T ms)
    (hL : Loaded E S.ctx) (hg : OnlyDefinitions E S.ctx.globalFuncMap) (hS : RowsLive E S.ctx) :
    RowsLive E (runModules E T ms).ctx := by
  intro F G hG
  rcases exists_of_mem_callees_runModules (h.onlyDefinitions hg) hG with ⟨A, hA⟩ | ⟨M, hM, hF⟩
  · obtain ⟨M, p, hM, hp, hF⟩ := h.kept_row hL hS hA
    refine ⟨M, p, ?_, hF⟩
    rw [modules_runModules, h.modules]
    exact mem_nextModules.mpr (Or.inl ⟨hM, fun hpf => hp (Or.inl hpf)⟩)
  · obtain ⟨⟨N, p⟩, hN, rfl⟩ := List.mem_map.mp (h.mem_next hM)
    refine ⟨N, p, ?_, hF⟩
    rw [modules_runModules, h.modules]
    exact hN

/-- An update that resolves the calls it analyses, and whose new functions inherit no callers,
keeps the maps inverse. -/
theorem Start.edgesSynced
    (h : Start E S files (passStart E S files) (passModules E S files)) (hL : Loaded E S.ctx)
    (hf : FilesOk S.ctx files) (hg : OnlyDefinitions E S.ctx.globalFuncMap)
    (hS : EdgesSynced E S.ctx) (hC : ResolvesCalls E S files)
    (hno : InheritsNoCallers E S files) :
    EdgesSynced E (runModules E (passStart E S files) (passModules E S files)).ctx := by
  have hgT := h.onlyDefinitions hg
  constructor
  · exact h.rowsLive hL hg hS.rows
  · intro F G
    apply mem_callers_runModules hgT (h.callsResolved hg hC)
    · intro hF A hA
      obtain ⟨N, hN, hFN⟩ := hF
      obtain ⟨K, q, hK, hq, hFK⟩ := h.kept_row hL hS.rows hA
      have hKN : K = N :=
        (mod_of_mem_definitionsOf hFK).symm.trans (E.mod_of_mem_functions hFN)
      subst hKN
      exact h.not_mem_ms hL hf hK hq hN
    · rw [h.callees, h.callers]
      exact fun hrow => ⟨hS.callers F G hrow.1, fun herased => hrow.2 herased.1⟩
  · intro F G hG
    obtain ⟨M, p, hM, hG⟩ := hG
    rw [modules_runModules, h.modules] at hM
    apply mem_callees_runModules_of_callers hgT (mem_definitionsOf.mp hG).2
    rw [h.callees, h.callers]
    rintro ⟨hF, hkept⟩
    rcases mem_nextModules.mp hM with ⟨hold, _⟩ | hfile
    · have hrow := hS.callees F G ⟨M, p, hold, hG⟩ hF
      exact ⟨hrow, fun herased => hkept ⟨herased, hrow⟩⟩
    · exact absurd hF (hno _ hfile G hG F)

end Update

theorem Reached.within {I : List ParsedFile → Prop} {C : CallGraphPass → List ParsedFile → Prop}
    {seen : List ModPtr} {S : CallGraphPass} (h : Reached E I C seen S) :
    Within E (fun M => M ∈ seen) S := by
  have hJ := h.invariant (J := fun seen S => OnlyDefinitions E S.ctx.globalFuncMap ∧
    Within E (fun M => M ∈ seen) S) ?_ ?_
  · exact hJ.2
  · intro files hp hm _
    have hg := onlyDefinitions_initialState (E := E) hp hm
    rw [globalFuncMap_runModules]
    exact ⟨onlyDefinitions_initialized hg _,
      (within_initialState hp hm _).runModules hg fun M hM => hM⟩
  · intro seen S files hL hseen _ hJ _ hstart
    have hgT := hstart.onlyDefinitions hJ.1
    rw [globalFuncMap_runModules]
    refine ⟨onlyDefinitions_initialized hgT _, ?_⟩
    apply ((hstart.within hJ.2).mono fun M hM => List.mem_append_right _ hM).runModules hgT
    intro M hM
    exact seen_of_nextModules hseen M (hstart.mem_next hM)

theorem Reached.inheritsNoCallers {I : List ParsedFile → Prop}
    {C : CallGraphPass → List ParsedFile → Prop} {seen : List ModPtr} {S : CallGraphPass}
    (h : Reached E I C seen S) {files : List ParsedFile} (hnew : ∀ f ∈ files, f.2 ∉ seen) :
    InheritsNoCallers E S files := by
  intro f hf G hG F hF
  apply hnew f hf
  rw [← mod_of_mem_definitionsOf hG]
  exact (h.within.callers.1 G (ExtTreeMap.mem_of_mem_row hF)).1

/-- In a run whose updates resolve the calls that they analyse, and load no function at the
address of a key that `Callers` has kept, `Callees` and `Callers` stay inverse to each other. -/
theorem edges_inverse {seen : List ModPtr} {S : CallGraphPass}
    (hS : Reached E (fun _ => True)
      (fun S files => ResolvesCalls E S files ∧ InheritsNoCallers E S files) seen S) :
    EdgesInverse E S.ctx := by
  have h := hS.invariant (J := fun _ S => OnlyDefinitions E S.ctx.globalFuncMap ∧
    EdgesSynced E S.ctx) ?_ ?_
  · exact h.2.edgesInverse
  · intro files hp hm _
    refine ⟨?_, edgesSynced_initial hp hm⟩
    rw [globalFuncMap_runModules]
    exact onlyDefinitions_initialized (onlyDefinitions_initialState hp hm) _
  · intro _ S files hL _ hf hJ hC hstart
    refine ⟨?_, hstart.edgesSynced hL hf hJ.1 hJ.2 hC.1 hC.2⟩
    rw [globalFuncMap_runModules]
    exact onlyDefinitions_initialized (hstart.onlyDefinitions hJ.1) _

theorem edges_inverse_caller : ∃ S, updateModules indirectTarget
      (initializeModules indirectTarget (parsed [("a.bc", 0), ("b.bc", 1)]))
      (parsed [("a.bc", 3)]) = some S ∧ EdgesInverse indirectTarget S.ctx := by
  have hfirst : Reached indirectTarget (fun _ => True) (fun S files =>
      ResolvesCalls indirectTarget S files ∧ InheritsNoCallers indirectTarget S files) [0, 1]
      (initializeModules indirectTarget (parsed [("a.bc", 0), ("b.bc", 1)])) :=
    Reached.init [("a.bc", 0), ("b.bc", 1)] (by decide) (by decide) trivial
  obtain ⟨S, hstep, hS⟩ := hfirst.exists_update [("a.bc", 3)] (by decide) (by decide)
    (by decide) ⟨resolvesCalls_of_definitions (by decide) (by decide),
      hfirst.inheritsNoCallers (by decide)⟩
  exact ⟨S, hstep, edges_inverse hS⟩

/-- A module that calls a pointer, and takes the address of a function it declares. -/
def declaringCaller : Module where
  values := [{ kind := .function { name := "run", args := [1], insts := [2] } },
    { kind := .argument }, { kind := .instruction (.call 0), operands := [1] },
    { kind := .function { name := "h", guid := 1, isDeclaration := true, hasAddressTaken := true } }]
  types := [{ kind := .function, printed := "i32 (i8)" }]
  functions := [0, 3]
  names_nodup := by decide
  functions_listed := by decide

/-- `a.bc` calls a function that `b.bc` defines, through a pointer; `a.bc` is updated. -/
def declaredTarget : Env :=
  Env.ofModules [
    declaringCaller,
    Module.ofFunction { name := "h", guid := 1 } [{ kind := .function, printed := "i32 (i8)" }],
    declaringCaller]

/-- The declaration found by the call is mapped in `Callees` only. -/
theorem edges_inverse_declared : ¬ ∀ (seen : List ModPtr) (S : CallGraphPass),
    Reached declaredTarget (fun _ => True) (fun _ _ => True) seen S →
    EdgesInverse declaredTarget S.ctx := by
  intro hall
  have hfirst : Reached declaredTarget (fun _ => True) (fun _ _ => True) [0, 1]
      (initializeModules declaredTarget (parsed [("a.bc", 0), ("b.bc", 1)])) :=
    Reached.init [("a.bc", 0), ("b.bc", 1)] (by decide) (by decide) trivial
  obtain ⟨S, hstep, hS⟩ := hfirst.exists_update [("a.bc", 2)] (by decide) (by decide)
    (by decide) trivial
  have hrows : (updateModules declaredTarget
      (initializeModules declaredTarget (parsed [("a.bc", 0), ("b.bc", 1)]))
      (parsed [("a.bc", 2)])).map (fun S => (S.ctx.modules,
        (S.ctx.callees.row ⟨2, 0⟩).contains ⟨1, 0⟩, (S.ctx.callers.row ⟨1, 0⟩).contains ⟨2, 0⟩)) =
      some ([(1, "b.bc"), (2, "a.bc")], true, false) := by decide
  rw [hstep, Option.map_some, Option.some.injEq, Prod.mk.injEq, Prod.mk.injEq] at hrows
  have hinv := (hall _ S hS).inverse ⟨2, 0⟩ ⟨1, 0⟩ ⟨2, "a.bc", by rw [hrows.1]; decide, by decide⟩
    ⟨1, "b.bc", by rw [hrows.1]; decide, by decide⟩
  rw [ExtTreeSet.mem_iff_contains, ExtTreeSet.mem_iff_contains, hrows.2.1, hrows.2.2] at hinv
  simp at hinv

end TypeDive

end Cisa

import Cisa.CallGraph.Resolution

/-!
# Which modules the tables refer to

`Within X` says that every function in the tables of the analysis belongs to a module
in `X`. A run of the pass brings in functions of its own modules only.
-/

namespace Cisa

open Std

namespace TypeDive

variable {E : Env}

open CallGraphPass Mlta

def BelongsTo (E : Env) (X : ModPtr → Prop) (F : FuncPtr) : Prop :=
  X F.mod ∧ F ∈ E.functions F.mod

theorem BelongsTo.of_mem {X : ModPtr → Prop} {M : ModPtr} {F : FuncPtr} (hM : X M)
    (hF : F ∈ E.functions M) : BelongsTo E X F := by
  obtain rfl := E.mod_of_mem_functions hF
  exact ⟨hM, hF⟩

theorem BelongsTo.mono {X Y : ModPtr → Prop} {F : FuncPtr} (h : BelongsTo E X F)
    (hXY : ∀ M, X M → Y M) : BelongsTo E Y F :=
  ⟨hXY _ h.1, h.2⟩

/-- Every function that occurs in a map of sets, as a key or in a row, satisfies `P`. -/
def MapWithin (P : FuncPtr → Prop) (m : PlainFuncMap) : Prop :=
  (∀ F ∈ m, P F) ∧ ∀ F, ∀ G ∈ m.row F, P G

/-- The functions in the tables belong to the modules in `X`. -/
structure Within (E : Env) (X : ModPtr → Prop) (S : CallGraphPass) : Prop where
  callees : MapWithin (BelongsTo E X) S.ctx.callees
  callers : MapWithin (BelongsTo E X) S.ctx.callers
  sigFuncsMap : ∀ h, ∀ F ∈ S.ctx.sigFuncsMap.row h, BelongsTo E X F
  addressTakenFuncs : ∀ F ∈ S.ctx.addressTakenFuncs, BelongsTo E X F
  globalFuncMap : ∀ (k : ℕ) (F : FuncPtr), S.ctx.globalFuncMap[k]? = some F → BelongsTo E X F
  typeIdxFuncsMap : ∀ h i, ∀ F ∈ slot S.mlta.typeIdxFuncsMap h i, BelongsTo E X F
  funcTypeIdxsMap : ∀ F ∈ S.mlta.funcTypeIdxsMap, BelongsTo E X F
  ancCache : MapWithin (BelongsTo E X) S.ctx.ancCache
  negAncCache : MapWithin (BelongsTo E X) S.ctx.negAncCache

namespace MapWithin

variable {P : FuncPtr → Prop} {m : PlainFuncMap}

theorem empty : MapWithin P ∅ := by
  constructor
  · intro F hF
    simp at hF
  · intro F G hG
    simp at hG

theorem addTo (h : MapWithin P m) {F G : FuncPtr} (hF : P F) (hG : P G) :
    MapWithin P (m.addTo F G) := by
  constructor
  · intro A hA
    rcases ExtTreeMap.mem_addTo.mp hA with rfl | hA
    · exact hF
    · exact h.1 A hA
  · intro A B hB
    rcases ExtTreeMap.mem_row_addTo.mp hB with ⟨_, rfl⟩ | hB
    · exact hG
    · exact h.2 A B hB

theorem addAll (h : MapWithin P m) {F : FuncPtr} {FS : FuncSet} (hF : P F) (hFS : ∀ G ∈ FS, P G) :
    MapWithin P (m.addAll F FS) := by
  constructor
  · intro A hA
    rcases ExtTreeMap.mem_addAll.mp hA with rfl | hA
    · exact hF
    · exact h.1 A hA
  · intro A B hB
    rcases ExtTreeMap.mem_row_addAll.mp hB with ⟨_, hB⟩ | hB
    · exact hFS B hB
    · exact h.2 A B hB

theorem insert (h : MapWithin P m) {F : FuncPtr} {FS : FuncSet} (hF : P F) (hFS : ∀ G ∈ FS, P G) :
    MapWithin P (m.insert F FS) := by
  constructor
  · intro A hA
    rcases (by simpa using hA : F = A ∨ A ∈ m) with rfl | hA
    · exact hF
    · exact h.1 A hA
  · intro A B hB
    rcases ExtTreeMap.mem_row_insert.mp hB with ⟨_, hB⟩ | ⟨_, hB⟩
    · exact hFS B hB
    · exact h.2 A B hB

theorem mono {Q : FuncPtr → Prop} (h : MapWithin P m) (hPQ : ∀ F, P F → Q F) :
    MapWithin Q m :=
  ⟨fun F hF => hPQ F (h.1 F hF), fun F G hG => hPQ G (h.2 F G hG)⟩

theorem of_subset {m' : PlainFuncMap} (h : MapWithin P m) (hkeys : ∀ F ∈ m', F ∈ m)
    (hrows : ∀ F, ∀ G ∈ m'.row F, G ∈ m.row F) : MapWithin P m' :=
  ⟨fun F hF => h.1 F (hkeys F hF), fun F G hG => h.2 F G (hrows F G hG)⟩

end MapWithin

namespace Within

variable {X : ModPtr → Prop} {S T : CallGraphPass} {ms : List ModPtr}

theorem of_mem_resolveSet {g : SortedMap ℕ FuncPtr} {FS : FuncSet} {F : FuncPtr}
    (h : F ∈ resolveSet E g FS) : F ∈ FS ∨ ∃ k : ℕ, g[k]? = some F := by
  revert h
  unfold resolveSet
  apply Fold.foldl_invariant (I := fun s : FuncSet => F ∈ s → F ∈ FS ∨ ∃ k : ℕ, g[k]? = some F)
  · exact Or.inl
  · intro s D _ hs
    split_ifs
    · split
      · rename_i AF hAF
        intro hF
        rcases (by simpa using hF : AF = F ∨ ¬ D = F ∧ F ∈ s) with rfl | hF
        · exact Or.inr ⟨_, hAF⟩
        · exact hs hF.2
      · intro hF
        exact hs (by simpa using hF : ¬ D = F ∧ F ∈ s).2
    · exact hs

theorem of_definedIn {k : ℕ} {F : FuncPtr} (hms : ∀ M ∈ ms, X M) (h : DefinedIn E ms k F) :
    BelongsTo E X F := by
  obtain ⟨M, hM, hF, _⟩ := h
  exact BelongsTo.of_mem (hms M hM) hF

theorem of_addressTakenIn {h : SizeT} {F : FuncPtr} (hms : ∀ M ∈ ms, X M)
    (hF : AddressTakenIn E ms h F) : BelongsTo E X F := by
  obtain ⟨M, hM, hF, _⟩ := hF
  exact BelongsTo.of_mem (hms M hM) hF

theorem sigFuncsMap_initialized (h : Within E X T) (hg : OnlyDefinitions E T.ctx.globalFuncMap)
    (hms : ∀ M ∈ ms, X M) {hash : SizeT} {F : FuncPtr}
    (hF : F ∈ (initialized E T ms).ctx.sigFuncsMap.row hash) : BelongsTo E X F := by
  obtain ⟨D, hD, hcase⟩ := exists_of_mem_row_initialized hg hF
  rcases hcase with rfl | ⟨_, hdef | hdef⟩
  · rcases hD with hD | hD
    · exact h.sigFuncsMap hash F hD
    · exact of_addressTakenIn hms hD
  · exact h.globalFuncMap _ F hdef
  · exact of_definedIn hms hdef

structure TypesWithin (E : Env) (X : ModPtr → Prop) (S : CallGraphPass) : Prop where
  globalFuncMap : ∀ (k : ℕ) (F : FuncPtr), S.ctx.globalFuncMap[k]? = some F → BelongsTo E X F
  typeIdxFuncsMap : ∀ h i, ∀ F ∈ slot S.mlta.typeIdxFuncsMap h i, BelongsTo E X F
  funcTypeIdxsMap : ∀ F ∈ S.mlta.funcTypeIdxsMap, BelongsTo E X F

theorem typesWithin_doInitialization (h : TypesWithin E X S) {M : ModPtr} (hM : X M) :
    TypesWithin E X (doInitialization E S M) := by
  have hgrow := grows_collectModule (E := E) S M
  have hmap : ∀ (k : ℕ) (F : FuncPtr),
      (collectModule E S M).ctx.globalFuncMap[k]? = some F → BelongsTo E X F := by
    intro k F hF
    rw [← globalFuncMap_testCounter] at hF
    rcases getElem?_initialized (l := [M]) hF with hF | hF
    · exact h.globalFuncMap k F hF
    · exact of_definedIn (by simpa using hM) hF
  have hslot : ∀ hash i, ∀ F ∈ slot (collectModule E S M).mlta.typeIdxFuncsMap hash i,
      BelongsTo E X F := by
    intro hash i F hF
    rcases hgrow.of_mem_slot hF with hF | hF
    · exact h.typeIdxFuncsMap hash i F hF
    · exact BelongsTo.of_mem hM hF.1
  have hfuncs : ∀ F ∈ (collectModule E S M).mlta.funcTypeIdxsMap, BelongsTo E X F := by
    intro F hF
    rcases hgrow.of_mem_funcTypeIdxsMap hF with hF | hF
    · exact h.funcTypeIdxsMap F hF
    · exact BelongsTo.of_mem hM hF
  unfold doInitialization testCounter
  split_ifs
  · refine ⟨hmap, ?_, hfuncs⟩
    intro hash i F hF
    change F ∈ slot (resolveDeclarations E (collectModule E S M)).mlta.typeIdxFuncsMap hash i at hF
    rw [slot_resolveDeclarations] at hF
    rcases of_mem_resolveSet hF with hF | ⟨k, hF⟩
    · exact hslot hash i F hF
    · exact hmap k F hF
  · exact ⟨hmap, hslot, hfuncs⟩

theorem initialized (h : Within E X T) (hg : OnlyDefinitions E T.ctx.globalFuncMap)
    (hms : ∀ M ∈ ms, X M) : Within E X (initialized E T ms) := by
  have hpre := forgetPre_initialized (E := E) T ms
  have hcallees := congrArg GlobalContext.callees hpre
  have hcallers := congrArg GlobalContext.callers hpre
  have hanc := congrArg GlobalContext.ancCache hpre
  have hneg := congrArg GlobalContext.negAncCache hpre
  simp only [GlobalContext.forgetPre] at hcallees hcallers hanc hneg
  have htypes : TypesWithin E X (CallGraphPass.initialized E T ms) := by
    unfold CallGraphPass.initialized
    exact Fold.foldl_invariant (I := TypesWithin E X)
      ⟨h.globalFuncMap, h.typeIdxFuncsMap, h.funcTypeIdxsMap⟩
      fun S M hM hS => typesWithin_doInitialization hS (hms M hM)
  exact
    { callees := hcallees ▸ h.callees
      callers := hcallers ▸ h.callers
      sigFuncsMap := fun hash F hF => h.sigFuncsMap_initialized hg hms hF
      addressTakenFuncs := by
        intro F hF
        rcases mem_addressTakenFuncs_initialized.mp hF with hF | hF
        · exact h.addressTakenFuncs F hF
        · exact of_addressTakenIn hms hF
      globalFuncMap := htypes.globalFuncMap
      typeIdxFuncsMap := htypes.typeIdxFuncsMap
      funcTypeIdxsMap := htypes.funcTypeIdxsMap
      ancCache := hanc ▸ h.ancCache
      negAncCache := hneg ▸ h.negAncCache }

theorem definitionOf {D F : FuncPtr} (h : Within E X S) (hD : BelongsTo E X D)
    (hF : definitionOf E S.ctx.globalFuncMap D = some F) : BelongsTo E X F := by
  unfold Mlta.definitionOf at hF
  split_ifs at hF
  · exact h.globalFuncMap _ _ hF
  · rw [← Option.some.inj hF]
    exact hD

theorem of_calledFunction {CI : ValPtr} {CF : FuncPtr} (hCI : X CI.mod)
    (h : calledFunction E CI = some CF) : BelongsTo E X CF := by
  obtain ⟨CV, hCV, hCF⟩ := Option.bind_eq_some_iff.mp h
  have hmod : CV.mod = CI.mod := E.mod_of_mem_operands (List.mem_of_getLast? hCV)
  exact BelongsTo.of_mem (hmod ▸ hCI) (E.mem_functions_of_dynFunction hCF).2

theorem targets (h : Within E X S) {CI : ValPtr} (hCI : X CI.mod) :
    ∀ G ∈ targetsOf E S CI, BelongsTo E X G := by
  intro G hG
  unfold targetsOf at hG
  split_ifs at hG
  · exact h.sigFuncsMap _ G (findCalleesWithMLTA_subset E S.mlta hG)
  · cases hCF : calledFunction E CI with
    | none => simp [hCF] at hG
    | some CF =>
      have hCFX := of_calledFunction hCI hCF
      have hGeq : (Mlta.definitionOf E S.ctx.globalFuncMap CF).getD CF = G := by
        simpa [hCF, eq_comm] using hG
      rw [← hGeq]
      cases hdef : Mlta.definitionOf E S.ctx.globalFuncMap CF with
      | none => exact hCFX
      | some F => exact h.definitionOf hCFX hdef
  · simp at hG

theorem of_defines {F : FuncPtr} (hms : ∀ M ∈ ms, X M) (hF : Defines E ms F) :
    BelongsTo E X F := by
  obtain ⟨M, hM, hF⟩ := hF
  exact BelongsTo.of_mem (hms M hM) (mem_definitionsOf.mp hF).1

theorem callInst (h : Within E X S) {F : FuncPtr} {CI : ValPtr} (hF : BelongsTo E X F)
    (hCI : X CI.mod) : MapWithin (BelongsTo E X) (callInst E F S CI).ctx.callees ∧
      MapWithin (BelongsTo E X) (callInst E F S CI).ctx.callers := by
  have hrow : MapWithin (BelongsTo E X) (S.ctx.callees.addAll F ∅) :=
    h.callees.addAll hF (by simp)
  have htargets := h.targets hCI
  unfold targetsOf at htargets
  unfold CallGraphPass.callInst
  split_ifs with hcall hind
  · rw [if_pos hcall, if_pos hind] at htargets
    have hcallees := hrow.addAll hF htargets
    refine ⟨hcallees, ?_⟩
    apply Fold.foldl_invariant (I := MapWithin (BelongsTo E X)) h.callers
    intro c G hG hc
    exact hc.addTo (hcallees.2 F G (ExtTreeSet.mem_toList.mp hG)) hF
  · rw [if_pos hcall, if_neg hind] at htargets
    cases hCF : calledFunction E CI with
    | none => exact ⟨hrow, h.callers⟩
    | some CF =>
      rw [hCF] at htargets
      have hG := htargets _ (ExtTreeSet.mem_ofElems.mpr (List.mem_singleton_self _))
      exact ⟨hrow.addTo hF hG, h.callers.addTo hG hF⟩
  · exact ⟨h.callees, h.callers⟩

theorem of_sameInputs (h : Within E X S) (hST : SameInputs S T)
    (hcallees : MapWithin (BelongsTo E X) T.ctx.callees)
    (hcallers : MapWithin (BelongsTo E X) T.ctx.callers) : Within E X T := by
  have hsig := congrArg GlobalContext.sigFuncsMap hST.post
  have haddr := congrArg GlobalContext.addressTakenFuncs hST.post
  have hmap := congrArg GlobalContext.globalFuncMap hST.post
  have hanc := congrArg GlobalContext.ancCache hST.post
  have hneg := congrArg GlobalContext.negAncCache hST.post
  have hslot := congrArg Mlta.typeIdxFuncsMap hST.matched
  have hfuncs := congrArg Mlta.funcTypeIdxsMap hST.matched
  simp only [GlobalContext.forgetPost] at hsig haddr hmap hanc hneg
  simp only [Mlta.forgetMatched] at hslot hfuncs
  exact
    { callees := hcallees
      callers := hcallers
      sigFuncsMap := hsig ▸ h.sigFuncsMap
      addressTakenFuncs := haddr ▸ h.addressTakenFuncs
      globalFuncMap := hmap ▸ h.globalFuncMap
      typeIdxFuncsMap := hslot ▸ h.typeIdxFuncsMap
      funcTypeIdxsMap := hfuncs ▸ h.funcTypeIdxsMap
      ancCache := hanc ▸ h.ancCache
      negAncCache := hneg ▸ h.negAncCache }

theorem passed (h : Within E X S) (hms : ∀ M ∈ ms, X M) : Within E X (passed E S ms) := by
  have hpass := passed_invariant (E := E) (S := S) (l := ms)
    (I := fun T => SameInputs S T ∧ MapWithin (BelongsTo E X) T.ctx.callees ∧
      MapWithin (BelongsTo E X) T.ctx.callers)
    ⟨SameInputs.refl S, h.callees, h.callers⟩ ?_ ?_ ?_
  · exact h.of_sameInputs hpass.1 hpass.2.1 hpass.2.2
  · exact fun T n hT => ⟨⟨hT.1.post, hT.1.matched⟩, hT.2⟩
  · exact fun T F _ hT => ⟨hT.1.register F, hT.2⟩
  · intro T F CI hF hCI hT
    have hT' := h.of_sameInputs hT.1 hT.2.1 hT.2.2
    have hFX := of_defines hms hF
    refine ⟨hT.1.callInst F CI, hT'.callInst hFX ?_⟩
    rw [E.mod_of_mem_insts hCI]
    exact hFX.1

theorem doFinalization (h : Within E X S) (hms : ∀ M ∈ ms, X M) :
    Within E X (doFinalization E S ms) := by
  have hrest := forgetCallees_doFinalization (E := E) S ms
  have hcallers := congrArg GlobalContext.callers hrest
  have hsig := congrArg GlobalContext.sigFuncsMap hrest
  have haddr := congrArg GlobalContext.addressTakenFuncs hrest
  have hmap := congrArg GlobalContext.globalFuncMap hrest
  have hanc := congrArg GlobalContext.ancCache hrest
  have hneg := congrArg GlobalContext.negAncCache hrest
  simp only [forgetCallees] at hcallers hsig haddr hmap hanc hneg
  have hcallees : forgetCallees (CallGraphPass.doFinalization E S ms).ctx = forgetCallees S.ctx ∧
      MapWithin (BelongsTo E X) (CallGraphPass.doFinalization E S ms).ctx.callees := by
    unfold CallGraphPass.doFinalization
    apply Fold.foldl_invariant (I := fun ctx => forgetCallees ctx = forgetCallees S.ctx ∧
      MapWithin (BelongsTo E X) ctx.callees) ⟨rfl, h.callees⟩
    intro ctx F hF hctx
    obtain ⟨M, hM, hFM⟩ := List.mem_flatMap.mp hF
    refine ⟨hctx.1, hctx.2.insert (BelongsTo.of_mem (hms M hM) hFM) ?_⟩
    intro G hG
    have hmap' := congrArg GlobalContext.globalFuncMap hctx.1
    simp only [forgetCallees] at hmap'
    obtain ⟨D, hD, hDG⟩ := mem_finalRow.mp hG
    rw [hmap'] at hDG
    exact h.definitionOf (hctx.2.2 F D hD) hDG
  exact
    { callees := hcallees.2
      callers := hcallers ▸ h.callers
      sigFuncsMap := hsig ▸ h.sigFuncsMap
      addressTakenFuncs := haddr ▸ h.addressTakenFuncs
      globalFuncMap := hmap ▸ h.globalFuncMap
      typeIdxFuncsMap := h.typeIdxFuncsMap
      funcTypeIdxsMap := h.funcTypeIdxsMap
      ancCache := hanc ▸ h.ancCache
      negAncCache := hneg ▸ h.negAncCache }

theorem runModules (h : Within E X T) (hg : OnlyDefinitions E T.ctx.globalFuncMap)
    (hms : ∀ M ∈ ms, X M) : Within E X (runModules E T ms) :=
  ((h.initialized hg hms).passed hms).doFinalization hms

theorem mono {Y : ModPtr → Prop} (h : Within E X S) (hXY : ∀ M, X M → Y M) : Within E Y S where
  callees := h.callees.mono fun _ hF => hF.mono hXY
  callers := h.callers.mono fun _ hF => hF.mono hXY
  sigFuncsMap hash F hF := (h.sigFuncsMap hash F hF).mono hXY
  addressTakenFuncs F hF := (h.addressTakenFuncs F hF).mono hXY
  globalFuncMap k F hF := (h.globalFuncMap k F hF).mono hXY
  typeIdxFuncsMap hash i F hF := (h.typeIdxFuncsMap hash i F hF).mono hXY
  funcTypeIdxsMap F hF := (h.funcTypeIdxsMap F hF).mono hXY
  ancCache := h.ancCache.mono fun _ hF => hF.mono hXY
  negAncCache := h.negAncCache.mono fun _ hF => hF.mono hXY

end Within

/-- The invalidation brings no function in. -/
theorem Start.within {X : ModPtr → Prop} {S T : CallGraphPass} {files : List ParsedFile}
    {ms : List ModPtr} (h : Start E S files T ms) (hS : Within E X S) : Within E X T := by
  obtain ⟨Ms, _, hmlta⟩ := h.mlta
  rw [invalidateStates_eq] at hmlta
  constructor
  · exact hS.callees.of_subset (fun F hF => ((h.calleesKeys F).mp hF).1)
      fun F G hG => ((h.callees F G).mp hG).1
  · constructor
    · intro G hG
      rcases (h.callersKeys G).mp hG with hG | ⟨A, _, hG⟩
      · exact hS.callers.1 G hG
      · exact hS.callees.2 A G hG
    · exact fun G F hF => hS.callers.2 G F ((h.callers F G).mp hF).1
  · exact fun hash F hF => hS.sigFuncsMap hash F ((h.sigFuncsMap hash F).mp hF).1
  · exact fun F hF => hS.addressTakenFuncs F ((h.addressTakenFuncs F).mp hF).1
  · exact fun k F hF => hS.globalFuncMap k F ((h.globalFuncMap k F).mp hF).1
  · intro hash i F hF
    rw [hmlta, mem_slot_invalidateFunctions] at hF
    exact hS.typeIdxFuncsMap hash i F hF.1
  · intro F hF
    rw [hmlta, mem_funcTypeIdxsMap_invalidateFunctions] at hF
    exact hS.funcTypeIdxsMap F hF.1
  · exact hS.ancCache.of_subset (fun F hF => ((h.ancCacheKeys F).mp hF).1)
      fun d a ha => ((h.ancCache a d).mp ha).1
  · exact hS.negAncCache.of_subset (fun F hF => ((h.negAncCacheKeys F).mp hF).1)
      fun d a ha => ((h.negAncCache a d).mp ha).1

end TypeDive

end Cisa

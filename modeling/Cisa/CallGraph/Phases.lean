import Cisa.CallGraph.Pass
import Cisa.Lib.Fold

/-!
# What each phase of a run leaves alone, and what it adds

The initialisation writes the pre-analysis tables, the module passes write the
post-analysis tables, and the finalisation writes `Callees` only.
-/

namespace Cisa

open Std

/-- The tables without those that `doInitialization` fills. -/
def GlobalContext.forgetPre (ctx : GlobalContext) : GlobalContext :=
  { ctx with globalFuncMap := ∅, addressTakenFuncs := ∅, sigFuncsMap := ∅ }

/-- The tables without those that `doModulePass` fills. -/
def GlobalContext.forgetPost (ctx : GlobalContext) : GlobalContext :=
  { ctx with callees := ∅, callers := ∅, callerPaths := ∅, candCallerPaths := ∅, bcFuncs := ∅ }

/-- The type facts without the cache of the searches. -/
def Mlta.forgetMatched (m : Mlta) : Mlta := { m with matchedFuncsMap := ∅ }

namespace CallGraphPass

variable (E : Env)

open Mlta

/-! ## Initialisation -/

section Initialization

variable {E}

theorem forgetPre_collectAddressTaken (ctx : GlobalContext) (F : FuncPtr) :
    (collectAddressTaken E ctx F).forgetPre = ctx.forgetPre := by
  unfold collectAddressTaken
  split_ifs <;> rfl

theorem forgetPre_collectDefinition (ctx : GlobalContext) (F : FuncPtr) :
    (collectDefinition E ctx F).forgetPre = ctx.forgetPre := by
  unfold collectDefinition
  split_ifs <;> rfl

theorem forgetPre_initFunction (S : CallGraphPass) (F : FuncPtr) :
    (initFunction E S F).ctx.forgetPre = S.ctx.forgetPre := by
  rw [initFunction, forgetPre_collectDefinition, forgetPre_collectAddressTaken]

@[simp] theorem ctx_initGlobals (S : CallGraphPass) (M : ModPtr) :
    (initGlobals E S M).ctx = S.ctx := rfl

theorem forgetPre_collectModule (S : CallGraphPass) (M : ModPtr) :
    (collectModule E S M).ctx.forgetPre = S.ctx.forgetPre := by
  unfold collectModule
  exact Fold.foldl_frame (p := fun S : CallGraphPass => S.ctx.forgetPre) forgetPre_initFunction _ _

theorem forgetPre_testCounter (S : CallGraphPass) :
    (testCounter E S).ctx.forgetPre = S.ctx.forgetPre := by
  unfold testCounter
  split_ifs <;> rfl

theorem forgetPre_doInitialization (S : CallGraphPass) (M : ModPtr) :
    (doInitialization E S M).ctx.forgetPre = S.ctx.forgetPre := by
  rw [doInitialization, forgetPre_testCounter, forgetPre_collectModule]

theorem forgetPre_initialized (S : CallGraphPass) (ms : List ModPtr) :
    (initialized E S ms).ctx.forgetPre = S.ctx.forgetPre :=
  Fold.foldl_frame (p := fun S : CallGraphPass => S.ctx.forgetPre) forgetPre_doInitialization _ _

@[simp] theorem modules_initialized (S : CallGraphPass) (ms : List ModPtr) :
    (initialized E S ms).ctx.modules = S.ctx.modules :=
  congrArg (fun ctx => ctx.modules) (forgetPre_initialized (E := E) S ms)

@[simp] theorem modules_collectModule (S : CallGraphPass) (M : ModPtr) :
    (collectModule E S M).ctx.modules = S.ctx.modules :=
  congrArg (fun ctx => ctx.modules) (forgetPre_collectModule (E := E) S M)

/-- The function is address-taken in one of the modules, with the given signature. -/
def AddressTakenIn (E : Env) (ms : List ModPtr) (h : SizeT) (F : FuncPtr) : Prop :=
  ∃ M ∈ ms, F ∈ E.functions M ∧ (E.function F).hasAddressTaken = true ∧ E.funcHash F false = h

/-- The function is a definition with external linkage in one of the modules. -/
def DefinedIn (E : Env) (ms : List ModPtr) (k : ℕ) (F : FuncPtr) : Prop :=
  ∃ M ∈ ms, F ∈ E.functions M ∧ isGlobalDefinition E F = true ∧ (E.function F).guid = k

/-- `GlobalFuncMap` holds definitions only. -/
def OnlyDefinitions (E : Env) (g : SortedMap ℕ FuncPtr) : Prop :=
  ∀ (k : ℕ) (F : FuncPtr), g[k]? = some F → (E.function F).isDeclaration = false

theorem isDeclaration_of_isGlobalDefinition {F : FuncPtr} (h : isGlobalDefinition E F = true) :
    (E.function F).isDeclaration = false := by
  unfold isGlobalDefinition at h
  simp_all

theorem DefinedIn.isDefinition {ms : List ModPtr} {k : ℕ} {F : FuncPtr}
    (h : DefinedIn E ms k F) : (E.function F).isDeclaration = false := by
  obtain ⟨_, _, _, hF, _⟩ := h
  exact isDeclaration_of_isGlobalDefinition hF

@[simp] theorem globalFuncMap_collectAddressTaken (ctx : GlobalContext) (F : FuncPtr) :
    (collectAddressTaken E ctx F).globalFuncMap = ctx.globalFuncMap := by
  unfold collectAddressTaken
  split_ifs <;> rfl

theorem globalFuncMap_initFunction (S : CallGraphPass) (F : FuncPtr) :
    (initFunction E S F).ctx.globalFuncMap =
      if isGlobalDefinition E F then S.ctx.globalFuncMap.insert (E.function F).guid F
      else S.ctx.globalFuncMap := by
  unfold initFunction collectDefinition
  split_ifs <;> simp

@[simp] theorem globalFuncMap_testCounter (S : CallGraphPass) :
    (testCounter E S).ctx.globalFuncMap = S.ctx.globalFuncMap := by
  unfold testCounter
  split_ifs <;> rfl

theorem getElem?_initialized {S : CallGraphPass} {l : List ModPtr} {k : ℕ} {F : FuncPtr}
    (h : (initialized E S l).ctx.globalFuncMap[k]? = some F) :
    S.ctx.globalFuncMap[k]? = some F ∨ DefinedIn E l k F := by
  apply Fold.foldl_invariant (I := fun T : CallGraphPass => T.ctx.globalFuncMap[k]? = some F →
    S.ctx.globalFuncMap[k]? = some F ∨ DefinedIn E l k F) Or.inl ?_ h
  intro T M hM hT
  rw [doInitialization, globalFuncMap_testCounter, collectModule]
  apply Fold.foldl_invariant (I := fun T : CallGraphPass => T.ctx.globalFuncMap[k]? = some F →
    S.ctx.globalFuncMap[k]? = some F ∨ DefinedIn E l k F)
  · exact hT
  clear hT T
  intro T G hG hT
  rw [globalFuncMap_initFunction]
  split_ifs with hdef
  · rw [ExtTreeMap.getElem?_insert]
    split_ifs with hk
    · intro h
      obtain rfl := Option.some.inj h
      exact Or.inr ⟨M, hM, hG, hdef, by simpa using hk⟩
    · exact hT
  · exact hT

theorem getElem?_initialized_eq_none {S : CallGraphPass} {ms : List ModPtr} {k : ℕ} :
    (initialized E S ms).ctx.globalFuncMap[k]? = none ↔
      S.ctx.globalFuncMap[k]? = none ∧ ∀ F, ¬ DefinedIn E ms k F := by
  have hmodule : ∀ (T : CallGraphPass) (M : ModPtr),
      (doInitialization E T M).ctx.globalFuncMap[k]? = none ↔ T.ctx.globalFuncMap[k]? = none ∧
        ∀ F ∈ E.functions M, ¬ (isGlobalDefinition E F = true ∧ (E.function F).guid = k) := by
    intro T M
    rw [doInitialization, globalFuncMap_testCounter, collectModule]
    refine Fold.foldl_and (P := fun T : CallGraphPass => T.ctx.globalFuncMap[k]? = none) ?_ _ _
    intro T F
    rw [globalFuncMap_initFunction]
    split_ifs with hdef
    · rw [ExtTreeMap.getElem?_insert]
      by_cases hk : (E.function F).guid = k <;> simp [hk, hdef]
    · simp [hdef]
  rw [initialized, Fold.foldl_and (P := fun T : CallGraphPass => T.ctx.globalFuncMap[k]? = none)
    hmodule]
  simp only [DefinedIn, not_exists, not_and, and_congr_right_iff]
  intro _
  exact ⟨fun h F M hM hF => h M hM F hF, fun h M hM F hF => h F M hM hF⟩

theorem onlyDefinitions_initialized {S : CallGraphPass} (h : OnlyDefinitions E S.ctx.globalFuncMap)
    (ms : List ModPtr) : OnlyDefinitions E (initialized E S ms).ctx.globalFuncMap := by
  intro k F hF
  rcases getElem?_initialized hF with hF | hF
  · exact h k F hF
  · exact hF.isDefinition

theorem definitionOf_of_isDefinition {g : SortedMap ℕ FuncPtr} {F : FuncPtr}
    (h : (E.function F).isDeclaration = false) : definitionOf E g F = some F := by
  simp [definitionOf, h]

theorem isDefinition_of_definitionOf {g : SortedMap ℕ FuncPtr} (hg : OnlyDefinitions E g)
    {F G : FuncPtr} (h : definitionOf E g F = some G) : (E.function G).isDeclaration = false := by
  unfold definitionOf at h
  split_ifs at h with hF
  · exact hg _ _ h
  · rw [← Option.some.inj h]
    simpa using hF

theorem mem_resolveSet {g : SortedMap ℕ FuncPtr} (hg : OnlyDefinitions E g) {FS : FuncSet}
    {G : FuncPtr} : G ∈ resolveSet E g FS ↔ ∃ F ∈ FS, definitionOf E g F = some G := by
  unfold resolveSet
  cases hG : (E.function G).isDeclaration with
  | false =>
    rw [Fold.foldl_or (P := fun s : FuncSet => G ∈ s)
      (Q := fun F => (E.function F).isDeclaration = true ∧ definitionOf E g F = some G)]
    · simp only [ExtTreeSet.mem_toList]
      constructor
      · rintro (h | ⟨F, hF, _, h⟩)
        · exact ⟨G, h, definitionOf_of_isDefinition hG⟩
        · exact ⟨F, hF, h⟩
      · rintro ⟨F, hF, h⟩
        by_cases hdecl : (E.function F).isDeclaration = true
        · exact Or.inr ⟨F, hF, hdecl, h⟩
        · rw [definitionOf_of_isDefinition (by simpa using hdecl)] at h
          exact Or.inl (Option.some.inj h ▸ hF)
    · intro s F
      unfold definitionOf
      by_cases hF : (E.function F).isDeclaration = true
      · have hne : F ≠ G := by
          rintro rfl
          simp [hF] at hG
        cases g[(E.function F).guid]? <;> simp [hF, hne, or_comm]
      · simp [hF]
  | true =>
    rw [Fold.foldl_and (P := fun s : FuncSet => G ∈ s) (R := fun F => F ≠ G)]
    · simp only [ExtTreeSet.mem_toList]
      constructor
      · rintro ⟨h, hne⟩
        exact absurd rfl (hne G h)
      · rintro ⟨F, _, h⟩
        simp [isDefinition_of_definitionOf hg h] at hG
    · intro s F
      by_cases hF : (E.function F).isDeclaration = true
      · cases hk : g[(E.function F).guid]? with
        | none => simp [hF, and_comm]
        | some AF =>
          have hne : AF ≠ G := by
            rintro rfl
            simp [hg _ _ hk] at hG
          simp [hF, hne, and_comm]
      · have hne : F ≠ G := by
          rintro rfl
          simp [hF] at hG
        simp [hF, hne]

theorem resolveSet_empty (g : SortedMap ℕ FuncPtr) : resolveSet E g ∅ = ∅ := by
  rw [resolveSet, ExtTreeSet.toList_eq_nil_iff.mpr rfl, List.foldl_nil]

/-- Several modules are collected without looking at the counter. -/
def collected (E : Env) (S : CallGraphPass) (ms : List ModPtr) : CallGraphPass :=
  ms.foldl (collectModule E) S

@[simp] theorem mIdx_collectModule (S : CallGraphPass) (M : ModPtr) :
    (collectModule E S M).mIdx = S.mIdx + 1 := by
  unfold collectModule
  exact Fold.foldl_frame (f := initFunction E) (p := mIdx) (fun _ _ => rfl) _ _

theorem initialized_append (S : CallGraphPass) (pre post : List ModPtr) :
    initialized E S (pre ++ post) = initialized E (initialized E S pre) post := by
  simp [initialized]

/-- A counter that does not meet the number of loaded modules does nothing. -/
theorem initialized_eq_collected {S : CallGraphPass} {ms : List ModPtr}
    (h : S.mIdx + ms.length < S.ctx.modules.length ∨ S.ctx.modules.length ≤ S.mIdx) :
    initialized E S ms = collected E S ms := by
  induction ms generalizing S with
  | nil => rfl
  | cons M ms ih =>
    rw [List.length_cons] at h
    have hstep : doInitialization E S M = collectModule E S M := by
      unfold doInitialization testCounter
      rw [if_neg]
      simp only [modules_collectModule, mIdx_collectModule]
      omega
    have hrest := ih (S := collectModule E S M) (by simp; omega)
    simpa [initialized, collected, hstep] using hrest

/-- When the counter meets the number of loaded modules, the declarations are resolved
after the last module. -/
theorem initialized_of_counter {S : CallGraphPass} {ms : List ModPtr} (hne : ms ≠ [])
    (h : S.mIdx + ms.length = S.ctx.modules.length) :
    initialized E S ms = { resolveDeclarations E (collected E S ms) with mIdx := 0 } := by
  obtain ⟨pre, M, rfl⟩ := List.eq_nil_or_concat ms |>.resolve_left hne
  rw [List.concat_eq_append] at h ⊢
  rw [List.length_append, List.length_singleton] at h
  have hpre : initialized E S pre = collected E S pre :=
    initialized_eq_collected (Or.inl (by omega))
  have hmods : (collected E S pre).ctx.modules = S.ctx.modules := by
    rw [← hpre, modules_initialized]
  have hidx : (collected E S pre).mIdx = S.mIdx + pre.length := by
    clear h hpre hmods hne
    induction pre generalizing S with
    | nil => rfl
    | cons N pre ih =>
      have hN := ih (S := collectModule E S N)
      simp only [collected, List.foldl_cons, List.length_cons, mIdx_collectModule] at hN ⊢
      omega
  rw [initialized_append, hpre]
  simp only [initialized, collected, List.foldl_append, List.foldl_cons, List.foldl_nil,
    doInitialization, testCounter]
  rw [if_pos]
  rw [modules_collectModule, mIdx_collectModule]
  unfold collected at hmods hidx
  rw [hmods, hidx]
  omega

@[simp] theorem AddressTakenIn.cons {M : ModPtr} {ms : List ModPtr} {h : SizeT} {F : FuncPtr} :
    AddressTakenIn E (M :: ms) h F ↔ AddressTakenIn E [M] h F ∨ AddressTakenIn E ms h F := by
  simp [AddressTakenIn]

theorem AddressTakenIn.mono {ms ms' : List ModPtr} {h : SizeT} {F : FuncPtr}
    (hF : AddressTakenIn E ms h F) (hms : ∀ M ∈ ms, M ∈ ms') : AddressTakenIn E ms' h F := by
  obtain ⟨M, hM, hF⟩ := hF
  exact ⟨M, hms M hM, hF⟩

theorem DefinedIn.mono {ms ms' : List ModPtr} {k : ℕ} {F : FuncPtr}
    (hF : DefinedIn E ms k F) (hms : ∀ M ∈ ms, M ∈ ms') : DefinedIn E ms' k F := by
  obtain ⟨M, hM, hF⟩ := hF
  exact ⟨M, hms M hM, hF⟩

theorem mem_row_collectModule {S : CallGraphPass} {M : ModPtr} {h : SizeT} {F : FuncPtr} :
    F ∈ (collectModule E S M).ctx.sigFuncsMap.row h ↔
      F ∈ S.ctx.sigFuncsMap.row h ∨ AddressTakenIn E [M] h F := by
  unfold collectModule
  rw [Fold.foldl_or (P := fun S : CallGraphPass => F ∈ S.ctx.sigFuncsMap.row h)
    (Q := fun G => G = F ∧ (E.function F).hasAddressTaken = true ∧ E.funcHash F false = h)]
  · simp [AddressTakenIn]
  · intro S G
    unfold initFunction collectDefinition collectAddressTaken
    by_cases hG : (E.function G).hasAddressTaken = true
    · by_cases hFG : G = F
      · subst hFG
        split_ifs <;> simp [hG, or_comm]
      · split_ifs <;> simp [hFG]
    · have hne : ¬ (G = F ∧ (E.function F).hasAddressTaken = true ∧ E.funcHash F false = h) := by
        rintro ⟨rfl, hF, _⟩
        exact hG hF
      split_ifs <;> simp [hne]

theorem mem_row_collected {S : CallGraphPass} {ms : List ModPtr} {h : SizeT} {F : FuncPtr} :
    F ∈ (collected E S ms).ctx.sigFuncsMap.row h ↔
      F ∈ S.ctx.sigFuncsMap.row h ∨ AddressTakenIn E ms h F := by
  unfold collected
  rw [Fold.foldl_or (f := collectModule E) (P := fun S => F ∈ S.ctx.sigFuncsMap.row h)
    fun S M => mem_row_collectModule]
  simp [AddressTakenIn]

theorem mem_row_resolveDeclarations {S : CallGraphPass}
    (hg : OnlyDefinitions E S.ctx.globalFuncMap) {h : SizeT} {F : FuncPtr} :
    F ∈ (resolveDeclarations E S).ctx.sigFuncsMap.row h ↔
      ∃ D ∈ S.ctx.sigFuncsMap.row h, definitionOf E S.ctx.globalFuncMap D = some F := by
  simp only [resolveDeclarations]
  rw [ExtTreeMap.row_map (resolveSet_empty _), mem_resolveSet hg]

theorem onlyDefinitions_doInitialization {S : CallGraphPass}
    (h : OnlyDefinitions E S.ctx.globalFuncMap) (M : ModPtr) :
    OnlyDefinitions E (doInitialization E S M).ctx.globalFuncMap :=
  onlyDefinitions_initialized h [M]

theorem mem_row_testCounter {S : CallGraphPass} (hg : OnlyDefinitions E S.ctx.globalFuncMap)
    {h : SizeT} {F : FuncPtr} (hF : F ∈ (testCounter E S).ctx.sigFuncsMap.row h) :
    F ∈ S.ctx.sigFuncsMap.row h ∨ ∃ D ∈ S.ctx.sigFuncsMap.row h,
      (E.function D).isDeclaration = true ∧ S.ctx.globalFuncMap[(E.function D).guid]? = some F := by
  unfold testCounter at hF
  split_ifs at hF
  · obtain ⟨D, hD, hDF⟩ := (mem_row_resolveDeclarations hg).mp hF
    unfold definitionOf at hDF
    split_ifs at hDF with hdecl
    · exact Or.inr ⟨D, hD, hdecl, hDF⟩
    · exact Or.inl (Option.some.inj hDF ▸ hD)
  · exact Or.inl hF

theorem mem_row_initialized_of_isDefinition {S : CallGraphPass}
    (hg : OnlyDefinitions E S.ctx.globalFuncMap) {ms : List ModPtr} {h : SizeT} {F : FuncPtr}
    (hdef : (E.function F).isDeclaration = false)
    (hF : F ∈ S.ctx.sigFuncsMap.row h ∨ AddressTakenIn E ms h F) :
    F ∈ (initialized E S ms).ctx.sigFuncsMap.row h := by
  induction ms generalizing S with
  | nil => simpa [initialized, AddressTakenIn] using hF
  | cons M ms ih =>
    apply ih (S := doInitialization E S M) (onlyDefinitions_doInitialization hg M)
    rw [AddressTakenIn.cons, ← or_assoc] at hF
    rcases hF with hF | hF
    · left
      rw [← mem_row_collectModule] at hF
      unfold doInitialization testCounter
      split_ifs
      · have hgM : OnlyDefinitions E (collectModule E S M).ctx.globalFuncMap := by
          rw [← globalFuncMap_testCounter]
          exact onlyDefinitions_doInitialization hg M
        exact (mem_row_resolveDeclarations hgM).mpr ⟨F, hF, definitionOf_of_isDefinition hdef⟩
      · exact hF
    · exact Or.inr hF

/-- What a bucket holds was there, is address-taken, or is the definition of such a
declaration. -/
theorem exists_of_mem_row_initialized {S : CallGraphPass}
    (hg : OnlyDefinitions E S.ctx.globalFuncMap) {ms : List ModPtr} {h : SizeT} {F : FuncPtr}
    (hF : F ∈ (initialized E S ms).ctx.sigFuncsMap.row h) :
    ∃ D, (D ∈ S.ctx.sigFuncsMap.row h ∨ AddressTakenIn E ms h D) ∧
      (F = D ∨ (E.function D).isDeclaration = true ∧
        (S.ctx.globalFuncMap[(E.function D).guid]? = some F ∨
          DefinedIn E ms (E.function D).guid F)) := by
  induction ms generalizing S with
  | nil => exact ⟨F, Or.inl hF, Or.inl rfl⟩
  | cons M ms ih =>
    have hgM := onlyDefinitions_doInitialization hg M
    have hdefined : ∀ {k G}, (doInitialization E S M).ctx.globalFuncMap[k]? = some G →
        S.ctx.globalFuncMap[k]? = some G ∨ DefinedIn E (M :: ms) k G := by
      intro k G hG
      rcases getElem?_initialized (l := [M]) hG with hG | hG
      · exact Or.inl hG
      · exact Or.inr (hG.mono (by simp))
    obtain ⟨D, hD, hFD⟩ := ih hgM hF
    have hFD' : F = D ∨ (E.function D).isDeclaration = true ∧
        (S.ctx.globalFuncMap[(E.function D).guid]? = some F ∨
          DefinedIn E (M :: ms) (E.function D).guid F) := by
      rcases hFD with hFD | ⟨hdecl, hFD | hFD⟩
      · exact Or.inl hFD
      · exact Or.inr ⟨hdecl, hdefined hFD⟩
      · exact Or.inr ⟨hdecl, Or.inr (hFD.mono (by simp +contextual))⟩
    rcases hD with hD | hD
    · have hcollected : OnlyDefinitions E (collectModule E S M).ctx.globalFuncMap := by
        rwa [← globalFuncMap_testCounter]
      rcases mem_row_testCounter hcollected hD with hD | ⟨D', hD', hdecl, hDD'⟩
      · refine ⟨D, ?_, hFD'⟩
        rw [AddressTakenIn.cons, ← or_assoc]
        exact Or.inl (mem_row_collectModule.mp hD)
      · have hDdef := hcollected _ _ hDD'
        have hFeq : F = D := by
          rcases hFD' with hFD' | ⟨hdeclD, _⟩
          · exact hFD'
          · simp [hDdef] at hdeclD
        refine ⟨D', ?_, Or.inr ⟨hdecl, ?_⟩⟩
        · rw [AddressTakenIn.cons, ← or_assoc]
          exact Or.inl (mem_row_collectModule.mp hD')
        · rw [hFeq]
          exact hdefined (by rwa [doInitialization, globalFuncMap_testCounter])
    · refine ⟨D, Or.inr ?_, hFD'⟩
      rw [AddressTakenIn.cons]
      exact Or.inr hD

theorem mem_addressTakenFuncs_initialized {S : CallGraphPass} {ms : List ModPtr} {F : FuncPtr} :
    F ∈ (initialized E S ms).ctx.addressTakenFuncs ↔
      F ∈ S.ctx.addressTakenFuncs ∨ AddressTakenIn E ms (E.funcHash F false) F := by
  have hfunction : ∀ (T : CallGraphPass) (G : FuncPtr),
      F ∈ (initFunction E T G).ctx.addressTakenFuncs ↔
        F ∈ T.ctx.addressTakenFuncs ∨ (G = F ∧ (E.function F).hasAddressTaken = true) := by
    intro T G
    unfold initFunction collectDefinition collectAddressTaken
    by_cases hG : (E.function G).hasAddressTaken = true
    · by_cases hFG : G = F
      · subst hFG
        split_ifs <;> simp [hG]
      · split_ifs <;> simp [hFG]
    · have hne : ¬ (G = F ∧ (E.function F).hasAddressTaken = true) := by
        rintro ⟨rfl, hF⟩
        exact hG hF
      split_ifs <;> simp [hne]
  have hmodule : ∀ (T : CallGraphPass) (M : ModPtr),
      F ∈ (doInitialization E T M).ctx.addressTakenFuncs ↔
        F ∈ T.ctx.addressTakenFuncs ∨ AddressTakenIn E [M] (E.funcHash F false) F := by
    intro T M
    have hcounter : (doInitialization E T M).ctx.addressTakenFuncs =
        (collectModule E T M).ctx.addressTakenFuncs := by
      unfold doInitialization testCounter
      split_ifs <;> rfl
    rw [hcounter, collectModule,
      Fold.foldl_or (f := initFunction E) (P := fun T => F ∈ T.ctx.addressTakenFuncs) hfunction]
    simp [AddressTakenIn]
  rw [initialized,
    Fold.foldl_or (f := doInitialization E) (P := fun T => F ∈ T.ctx.addressTakenFuncs) hmodule]
  simp [AddressTakenIn]

end Initialization

/-! ## Module passes -/

section Passes

variable {E}

theorem forgetPost_callInst (F : FuncPtr) (S : CallGraphPass) (CI : ValPtr) :
    (callInst E F S CI).ctx.forgetPost = S.ctx.forgetPost := by
  unfold callInst
  split
  · split
    · rfl
    · split <;> rfl
  · rfl

theorem forgetMatched_findCallees (m : Mlta) (sigFuncsMap : SortedMap SizeT FuncSet) (CI : ValPtr) :
    (findCalleesWithMLTA E m sigFuncsMap CI).2.forgetMatched = m.forgetMatched := by
  unfold findCalleesWithMLTA
  dsimp only
  split <;> rfl

theorem forgetMatched_callInst (F : FuncPtr) (S : CallGraphPass) (CI : ValPtr) :
    (callInst E F S CI).mlta.forgetMatched = S.mlta.forgetMatched := by
  unfold callInst
  split
  · split
    · exact forgetMatched_findCallees _ _ _
    · split <;> rfl
  · rfl

/-- The functions that one call adds to the callees. -/
def targetsOf (E : Env) (S : CallGraphPass) (CI : ValPtr) : FuncSet :=
  if isCall E CI then
    if isIndirectCall E CI then (findCalleesWithMLTA E S.mlta S.ctx.sigFuncsMap CI).1
    else match calledFunction E CI with
      | some CF => ExtTreeSet.ofElems [(definitionOf E S.ctx.globalFuncMap CF).getD CF]
      | none => ∅
  else ∅

theorem mem_callees_callInst {F : FuncPtr} {S : CallGraphPass} {CI : ValPtr} {A G : FuncPtr} :
    G ∈ (callInst E F S CI).ctx.callees.row A ↔
      G ∈ S.ctx.callees.row A ∨ F = A ∧ G ∈ targetsOf E S CI := by
  unfold callInst targetsOf
  split_ifs with hcall hind
  · simp only [indirectCall, ExtTreeMap.mem_row_addAll]
    simp only [ExtTreeSet.not_mem_empty, and_false, false_or]
    exact or_comm
  · cases calledFunction E CI with
    | none => simp
    | some CF => simp [directCall, or_comm, eq_comm]
  · simp

theorem mem_callers_callInst {F : FuncPtr} {S : CallGraphPass} {CI : ValPtr} {A G : FuncPtr} :
    A ∈ (callInst E F S CI).ctx.callers.row G ↔ A ∈ S.ctx.callers.row G ∨
      F = A ∧ (G ∈ targetsOf E S CI ∨
        isCall E CI = true ∧ isIndirectCall E CI = true ∧ G ∈ S.ctx.callees.row F) := by
  unfold callInst targetsOf
  split_ifs with hcall hind
  · simp only [indirectCall]
    rw [Fold.foldl_or (P := fun c : PlainFuncMap => A ∈ c.row G) (Q := fun B => B = G ∧ F = A)]
    · simp only [ExtTreeSet.mem_toList, ExtTreeMap.mem_row_addAll, ExtTreeSet.not_mem_empty,
        and_false, false_or, true_and, hcall, hind]
      constructor
      · rintro (h | ⟨B, hB, rfl, rfl⟩)
        · exact Or.inl h
        · exact Or.inr ⟨rfl, hB⟩
      · rintro (h | ⟨rfl, hB⟩)
        · exact Or.inl h
        · exact Or.inr ⟨G, hB, rfl, rfl⟩
    · intro c B
      simp [or_comm, eq_comm]
  · cases calledFunction E CI with
    | none => simp [hind]
    | some CF =>
      simp only [directCall, ExtTreeMap.mem_row_addTo, ExtTreeSet.mem_ofElems,
        List.mem_singleton, hind]
      tauto
  · simp [hcall]

/-- The tables that the passes only read are the same in both states. -/
structure SameInputs (S T : CallGraphPass) : Prop where
  post : T.ctx.forgetPost = S.ctx.forgetPost
  matched : T.mlta.forgetMatched = S.mlta.forgetMatched

theorem SameInputs.refl (S : CallGraphPass) : SameInputs S S := ⟨rfl, rfl⟩

theorem SameInputs.callInst {S T : CallGraphPass} (h : SameInputs S T) (F : FuncPtr)
    (CI : ValPtr) : SameInputs S (callInst E F T CI) :=
  ⟨(forgetPost_callInst F T CI).trans h.post, (forgetMatched_callInst F T CI).trans h.matched⟩

theorem SameInputs.register {S T : CallGraphPass} (h : SameInputs S T) (F : FuncPtr) :
    SameInputs S { T with ctx := registerFunction E T.ctx F } :=
  ⟨h.post, h.matched⟩

theorem SameInputs.doMLTA {S T : CallGraphPass} (h : SameInputs S T) (F : FuncPtr) :
    SameInputs S (doMLTA E T F) := by
  unfold CallGraphPass.doMLTA
  exact Fold.foldl_invariant (h.register F) fun T CI _ hT => hT.callInst F CI

def Defines (E : Env) (ms : List ModPtr) (F : FuncPtr) : Prop :=
  ∃ M ∈ ms, F ∈ definitionsOf E M

theorem mem_definitionsOf {M : ModPtr} {F : FuncPtr} : F ∈ definitionsOf E M ↔
    F ∈ E.functions M ∧ (E.function F).isDeclaration = false := by
  simp [definitionsOf]

/-- What the target of a call is: a function with its signature, or the definition of the
function it names. -/
theorem of_mem_targetsOf {S T : CallGraphPass} (hT : SameInputs S T) {CI : ValPtr} {D : FuncPtr}
    (h : D ∈ targetsOf E T CI) : isCall E CI = true ∧
      (isIndirectCall E CI = true ∧ D ∈ S.ctx.sigFuncsMap.row (E.callHash CI) ∨
        isIndirectCall E CI = false ∧ ∃ CF, calledFunction E CI = some CF ∧
          (definitionOf E S.ctx.globalFuncMap CF).getD CF = D) := by
  have hmap := congrArg GlobalContext.globalFuncMap hT.post
  have hsig := congrArg GlobalContext.sigFuncsMap hT.post
  simp only [GlobalContext.forgetPost] at hmap hsig
  unfold targetsOf at h
  split_ifs at h with hcall hind
  · refine ⟨hcall, Or.inl ⟨hind, ?_⟩⟩
    rw [← hsig]
    exact findCalleesWithMLTA_subset E T.mlta h
  · refine ⟨hcall, Or.inr ⟨by simpa using hind, ?_⟩⟩
    cases hCF : calledFunction E CI with
    | none => simp [hCF] at h
    | some CF =>
      rw [hmap] at h
      exact ⟨CF, rfl, by simpa [hCF, eq_comm] using h⟩
  · simp at h

theorem mem_targetsOf_direct {S T : CallGraphPass} (hT : SameInputs S T) {CI : ValPtr}
    {CF : FuncPtr} (hcall : isCall E CI = true) (hind : isIndirectCall E CI = false)
    (hCF : calledFunction E CI = some CF) :
    (definitionOf E S.ctx.globalFuncMap CF).getD CF ∈ targetsOf E T CI := by
  have hmap := congrArg GlobalContext.globalFuncMap hT.post
  simp only [GlobalContext.forgetPost] at hmap
  simp [targetsOf, hcall, hind, hCF, hmap]

/-- The rule for a property that holds through all passes. -/
theorem passed_invariant {I : CallGraphPass → Prop} {S : CallGraphPass} {l : List ModPtr}
    (h0 : I S) (hidx : ∀ T n, I T → I { T with mIdx := n })
    (hreg : ∀ T F, Defines E l F → I T → I { T with ctx := registerFunction E T.ctx F })
    (hcall : ∀ T F CI, Defines E l F → CI ∈ E.insts F → I T → I (callInst E F T CI)) :
    I (passed E S l) := by
  apply Fold.foldl_invariant h0
  intro T M hM hT
  apply Fold.foldl_invariant (hidx T _ hT)
  intro T F hF hT
  exact Fold.foldl_invariant (hreg T F ⟨M, hM, hF⟩ hT) fun T CI hCI hT =>
    hcall T F CI ⟨M, hM, hF⟩ hCI hT

theorem SameInputs.passed (S : CallGraphPass) (ms : List ModPtr) :
    SameInputs S (passed E S ms) := by
  apply passed_invariant (SameInputs.refl S)
  · exact fun T n hT => ⟨hT.post, hT.matched⟩
  · exact fun T F _ hT => hT.register F
  · exact fun T F CI _ _ hT => hT.callInst F CI

/-- The rule for what the pass over one definition establishes. -/
theorem passed_of_defines {P : CallGraphPass → Prop} {S : CallGraphPass} {ms : List ModPtr}
    {F : FuncPtr} (hF : Defines E ms F) (hidx : ∀ T n, P T → P { T with mIdx := n })
    (hkeep : ∀ T G, SameInputs S T → Defines E ms G → P T → P (doMLTA E T G))
    (hit : ∀ T, SameInputs S T → P (doMLTA E T F)) : P (passed E S ms) := by
  obtain ⟨M, hM, hF⟩ := hF
  apply Fold.foldl_of_mem (I := SameInputs S) hM (SameInputs.refl S)
  · intro T N _ hT
    exact Fold.foldl_invariant (I := SameInputs S) ⟨hT.post, hT.matched⟩ fun T G _ hT => hT.doMLTA G
  · intro T N hN hT hPT
    have h := Fold.foldl_invariant (f := doMLTA E) (I := fun T => SameInputs S T ∧ P T)
      (l := definitionsOf E N) (s := { T with mIdx := T.mIdx + 1 })
      ⟨⟨hT.post, hT.matched⟩, hidx T _ hPT⟩
      fun T G hG h => ⟨h.1.doMLTA G, hkeep T G h.1 ⟨N, hN, hG⟩ h.2⟩
    exact h.2
  · intro T hT
    apply Fold.foldl_of_mem (f := doMLTA E) (I := SameInputs S) (P := P)
      (s := { T with mIdx := T.mIdx + 1 }) hF ⟨hT.post, hT.matched⟩
    · exact fun T G _ hT => hT.doMLTA G
    · exact fun T G hG hT hP => hkeep T G hT ⟨M, hM, hG⟩ hP
    · exact hit

theorem mem_callees_passed_of_mem {S : CallGraphPass} {ms : List ModPtr} {F G : FuncPtr}
    (h : G ∈ S.ctx.callees.row F) : G ∈ (passed E S ms).ctx.callees.row F :=
  passed_invariant (I := fun T => G ∈ T.ctx.callees.row F) h (fun _ _ hT => hT)
    (fun _ _ _ hT => hT) fun _ _ _ _ _ hT => mem_callees_callInst.mpr (Or.inl hT)

theorem mem_callees_passed_of {S : CallGraphPass} {ms : List ModPtr} {F G : FuncPtr} {CI : ValPtr}
    (hF : Defines E ms F) (hCI : CI ∈ E.insts F)
    (hG : ∀ T, SameInputs S T → G ∈ targetsOf E T CI) :
    G ∈ (passed E S ms).ctx.callees.row F := by
  apply passed_of_defines (P := fun T => G ∈ T.ctx.callees.row F) hF
  · exact fun T n hT => hT
  · intro T A _ _ hT
    exact Fold.foldl_invariant (I := fun T : CallGraphPass => G ∈ T.ctx.callees.row F) hT
      fun T CI _ hT => mem_callees_callInst.mpr (Or.inl hT)
  · intro T hT
    apply Fold.foldl_of_mem (I := SameInputs S)
      (P := fun T : CallGraphPass => G ∈ T.ctx.callees.row F) hCI (hT.register F)
    · exact fun T CI _ hT => hT.callInst F CI
    · exact fun T CI _ _ hT => mem_callees_callInst.mpr (Or.inl hT)
    · exact fun T hT => mem_callees_callInst.mpr (Or.inr ⟨rfl, hG T hT⟩)

theorem of_mem_callees_passed {S : CallGraphPass} {ms : List ModPtr} {F G : FuncPtr}
    (h : G ∈ (passed E S ms).ctx.callees.row F) : G ∈ S.ctx.callees.row F ∨
      Defines E ms F ∧ ∃ CI ∈ E.insts F, ∃ T, SameInputs S T ∧ G ∈ targetsOf E T CI := by
  have hI : SameInputs S (passed E S ms) ∧ (G ∈ (passed E S ms).ctx.callees.row F →
      G ∈ S.ctx.callees.row F ∨
        Defines E ms F ∧ ∃ CI ∈ E.insts F, ∃ T, SameInputs S T ∧ G ∈ targetsOf E T CI) := by
    apply passed_invariant (I := fun T => SameInputs S T ∧ (G ∈ T.ctx.callees.row F →
      G ∈ S.ctx.callees.row F ∨
        Defines E ms F ∧ ∃ CI ∈ E.insts F, ∃ T, SameInputs S T ∧ G ∈ targetsOf E T CI))
      ⟨SameInputs.refl S, Or.inl⟩
    · exact fun T n hT => ⟨⟨hT.1.post, hT.1.matched⟩, hT.2⟩
    · exact fun T A _ hT => ⟨hT.1.register A, hT.2⟩
    · intro T A CI hA hCI hT
      refine ⟨hT.1.callInst A CI, fun h => ?_⟩
      rcases mem_callees_callInst.mp h with hold | ⟨rfl, hnew⟩
      · exact hT.2 hold
      · exact Or.inr ⟨hA, CI, hCI, T, hT.1, hnew⟩
  exact hI.2 h

/-- The passes write both maps: what is a callee has its caller. -/
theorem mem_callers_passed_of_callees {S : CallGraphPass} {ms : List ModPtr} {F G : FuncPtr}
    (h : G ∈ S.ctx.callees.row F → F ∈ S.ctx.callers.row G) :
    G ∈ (passed E S ms).ctx.callees.row F → F ∈ (passed E S ms).ctx.callers.row G := by
  apply passed_invariant (I := fun T =>
    G ∈ T.ctx.callees.row F → F ∈ T.ctx.callers.row G) h
  · exact fun T n hT => hT
  · exact fun T A _ hT => hT
  · intro T A CI _ _ hT
    rw [mem_callees_callInst, mem_callers_callInst]
    tauto

theorem mem_callees_passed_of_callers {S : CallGraphPass} {ms : List ModPtr} {F G : FuncPtr}
    (h : F ∈ S.ctx.callers.row G → G ∈ S.ctx.callees.row F) :
    F ∈ (passed E S ms).ctx.callers.row G → G ∈ (passed E S ms).ctx.callees.row F := by
  apply passed_invariant (I := fun T =>
    F ∈ T.ctx.callers.row G → G ∈ T.ctx.callees.row F) h
  · exact fun T n hT => hT
  · exact fun T A _ hT => hT
  · intro T A CI _ _ hT
    rw [mem_callees_callInst, mem_callers_callInst]
    rintro (h | ⟨rfl, h | ⟨_, _, h⟩⟩)
    · exact Or.inl (hT h)
    · exact Or.inr ⟨rfl, h⟩
    · exact Or.inl h

end Passes

/-! ## Finalisation -/

section Finalization

variable {E}

def finalRow (E : Env) (g : SortedMap ℕ FuncPtr) (FS : FuncSet) : FuncSet :=
  ExtTreeSet.ofElems (FS.toList.filterMap (definitionOf E g))

@[simp] theorem mem_finalRow {g : SortedMap ℕ FuncPtr} {FS : FuncSet} {G : FuncPtr} :
    G ∈ finalRow E g FS ↔ ∃ D ∈ FS, definitionOf E g D = some G := by
  simp [finalRow]

theorem finalRow_finalRow {g : SortedMap ℕ FuncPtr} (hg : OnlyDefinitions E g) (FS : FuncSet) :
    finalRow E g (finalRow E g FS) = finalRow E g FS := by
  apply ExtTreeSet.ext_mem
  intro G
  simp only [mem_finalRow]
  constructor
  · rintro ⟨D, ⟨D', hD', hDD'⟩, hDG⟩
    rw [definitionOf_of_isDefinition (isDefinition_of_definitionOf hg hDD')] at hDG
    exact ⟨D', hD', Option.some.inj hDG ▸ hDD'⟩
  · rintro ⟨D, hD, hDG⟩
    exact ⟨G, ⟨D, hD, hDG⟩, definitionOf_of_isDefinition (isDefinition_of_definitionOf hg hDG)⟩

theorem row_callees_finalizeFunctions {ctx : GlobalContext}
    (hg : OnlyDefinitions E ctx.globalFuncMap) (Fs : List FuncPtr) (F : FuncPtr) :
    (Fs.foldl (finalizeFunction E) ctx).callees.row F =
      if F ∈ Fs then finalRow E ctx.globalFuncMap (ctx.callees.row F) else ctx.callees.row F := by
  induction Fs generalizing ctx with
  | nil => simp
  | cons G Fs ih =>
    have hrow : (finalizeFunction E ctx G).callees.row F =
        if G = F then finalRow E ctx.globalFuncMap (ctx.callees.row F) else ctx.callees.row F := by
      unfold finalizeFunction finalRow
      rw [ExtTreeMap.row_insert]
      split_ifs with hGF
      · rw [hGF]
      · rfl
    rw [List.foldl_cons, @ih (finalizeFunction E ctx G) hg, hrow]
    have hmap : (finalizeFunction E ctx G).globalFuncMap = ctx.globalFuncMap := rfl
    rw [hmap]
    by_cases hGF : G = F
    · subst hGF
      simp [finalRow_finalRow hg]
    · have hFG : F ≠ G := fun h => hGF h.symm
      simp [hGF, hFG]

theorem mem_callees_doFinalization {S : CallGraphPass} (hg : OnlyDefinitions E S.ctx.globalFuncMap)
    {ms : List ModPtr} {F G : FuncPtr} : G ∈ (doFinalization E S ms).ctx.callees.row F ↔
      if ∃ M ∈ ms, F ∈ E.functions M then
        ∃ D ∈ S.ctx.callees.row F, definitionOf E S.ctx.globalFuncMap D = some G
      else G ∈ S.ctx.callees.row F := by
  unfold doFinalization
  dsimp only
  rw [row_callees_finalizeFunctions hg]
  simp only [List.mem_flatMap]
  split_ifs <;> simp

/-! ## The rows after a run -/

section Rows

variable {T : CallGraphPass} {ms : List ModPtr} {F G : FuncPtr}

theorem callees_initialized (T : CallGraphPass) (ms : List ModPtr) :
    (initialized E T ms).ctx.callees = T.ctx.callees := by
  have h := congrArg GlobalContext.callees (forgetPre_initialized (E := E) T ms)
  exact h

theorem callers_initialized (T : CallGraphPass) (ms : List ModPtr) :
    (initialized E T ms).ctx.callers = T.ctx.callers := by
  have h := congrArg GlobalContext.callers (forgetPre_initialized (E := E) T ms)
  exact h

theorem globalFuncMap_passed (S : CallGraphPass) (ms : List ModPtr) :
    (passed E S ms).ctx.globalFuncMap = S.ctx.globalFuncMap := by
  have h := congrArg GlobalContext.globalFuncMap (SameInputs.passed (E := E) S ms).post
  exact h

theorem onlyDefinitions_passed (hg : OnlyDefinitions E T.ctx.globalFuncMap) (ms : List ModPtr) :
    OnlyDefinitions E (passed E (initialized E T ms) ms).ctx.globalFuncMap := by
  rw [globalFuncMap_passed]
  exact onlyDefinitions_initialized hg ms

/-- The row of a function of the modules: its calls and what it held before, mapped to
actual functions. -/
theorem mem_callees_runModules (hg : OnlyDefinitions E T.ctx.globalFuncMap)
    (hF : ∃ M ∈ ms, F ∈ E.functions M) : G ∈ (runModules E T ms).ctx.callees.row F ↔
      ∃ D ∈ (passed E (initialized E T ms) ms).ctx.callees.row F,
        definitionOf E (initialized E T ms).ctx.globalFuncMap D = some G := by
  rw [runModules, mem_callees_doFinalization (onlyDefinitions_passed hg ms), if_pos hF,
    globalFuncMap_passed]

theorem mem_callees_runModules_of_not (hg : OnlyDefinitions E T.ctx.globalFuncMap)
    (hF : ¬ ∃ M ∈ ms, F ∈ E.functions M) :
    G ∈ (runModules E T ms).ctx.callees.row F ↔ G ∈ T.ctx.callees.row F := by
  rw [runModules, mem_callees_doFinalization (onlyDefinitions_passed hg ms), if_neg hF]
  constructor
  · intro h
    rcases of_mem_callees_passed h with h | ⟨⟨M, hM, hFM⟩, _⟩
    · rwa [callees_initialized] at h
    · exact absurd ⟨M, hM, (mem_definitionsOf.mp hFM).1⟩ hF
  · intro h
    apply mem_callees_passed_of_mem
    rwa [callees_initialized]

theorem Defines.mem_functions (h : Defines E ms F) : ∃ M ∈ ms, F ∈ E.functions M := by
  obtain ⟨M, hM, hF⟩ := h
  exact ⟨M, hM, (mem_definitionsOf.mp hF).1⟩

theorem mem_callees_runModules_direct (hg : OnlyDefinitions E T.ctx.globalFuncMap)
    (hF : Defines E ms F) {CI : ValPtr} (hCI : CI ∈ E.insts F) (hcall : isCall E CI = true)
    (hind : isIndirectCall E CI = false) {CF : FuncPtr} (hCF : calledFunction E CI = some CF)
    (hG : definitionOf E (initialized E T ms).ctx.globalFuncMap CF = some G) :
    G ∈ (runModules E T ms).ctx.callees.row F := by
  have hgI := onlyDefinitions_initialized hg ms
  refine (mem_callees_runModules hg hF.mem_functions).mpr ⟨G, ?_, ?_⟩
  · apply mem_callees_passed_of hF hCI
    intro U hU
    have htarget := mem_targetsOf_direct hU hcall hind hCF
    rwa [hG, Option.getD_some] at htarget
  · exact definitionOf_of_isDefinition (isDefinition_of_definitionOf hgI hG)

end Rows

def forgetCallees (ctx : GlobalContext) : GlobalContext := { ctx with callees := ∅ }

theorem forgetCallees_doFinalization (S : CallGraphPass) (ms : List ModPtr) :
    forgetCallees (doFinalization E S ms).ctx = forgetCallees S.ctx :=
  Fold.foldl_frame (f := finalizeFunction E) (p := forgetCallees) (fun _ _ => rfl) _ _

end Finalization

end CallGraphPass

end Cisa

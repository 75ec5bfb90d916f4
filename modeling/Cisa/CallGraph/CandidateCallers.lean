import Cisa.CallGraph.DirectCalls

/-!
# Who calls a signature

`CandCallerPaths` holds, under the hash of a signature, the paths of the modules with an
indirect call of that signature. An update that brings an address-taken function has to
analyse these modules again.
-/

namespace Cisa

open Std

namespace TypeDive

variable {E : Env}

open CallGraphPass Mlta

/-- A definition of the module has an indirect call of the signature. -/
def CallsSignature (E : Env) (M : ModPtr) (hash : SizeT) : Prop :=
  ∃ F ∈ definitionsOf E M, ∃ CI ∈ E.insts F, isCall E CI = true ∧ isIndirectCall E CI = true ∧
    E.callHash CI = hash

/-- The rows hold the paths of the loaded modules that call the signature, and no others. -/
def CandidatesExact (E : Env) (ctx : GlobalContext) : Prop :=
  ∀ hash p, p ∈ ctx.candCallerPaths.row hash ↔ ∃ M, (M, p) ∈ ctx.modules ∧ CallsSignature E M hash

section Run

variable {T : CallGraphPass} {ms : List ModPtr}

theorem mem_candCallerPaths_callInst {F : FuncPtr} {S : CallGraphPass} {CI : ValPtr} {p : String}
    {hash : SizeT} : p ∈ (callInst E F S CI).ctx.candCallerPaths.row hash ↔
      p ∈ S.ctx.candCallerPaths.row hash ∨
        (isCall E CI = true ∧ isIndirectCall E CI = true ∧ E.callHash CI = hash) ∧
          S.ctx.moduleMaps.getD F.mod "" = p := by
  unfold callInst
  by_cases hcall : isCall E CI = true
  · by_cases hind : isIndirectCall E CI = true
    · simp only [hcall, hind, if_true, indirectCall, ExtTreeMap.mem_row_addTo, true_and]
      tauto
    · rw [if_pos hcall, if_neg hind]
      cases calledFunction E CI <;> simp [hind, directCall]
  · simp [hcall]

theorem moduleMaps_of_sameInputs {S S' : CallGraphPass} (h : SameInputs S S') :
    S'.ctx.moduleMaps = S.ctx.moduleMaps := by
  have hmaps := congrArg GlobalContext.moduleMaps h.post
  exact hmaps

theorem mem_candCallerPaths_passed {p : String} {hash : SizeT} :
    p ∈ (passed E T ms).ctx.candCallerPaths.row hash ↔ p ∈ T.ctx.candCallerPaths.row hash ∨
      ∃ M ∈ ms, CallsSignature E M hash ∧ T.ctx.moduleMaps.getD M "" = p := by
  have hfunction : ∀ S A, SameInputs T S →
      (p ∈ (doMLTA E S A).ctx.candCallerPaths.row hash ↔
        p ∈ S.ctx.candCallerPaths.row hash ∨ ∃ CI ∈ E.insts A,
          (isCall E CI = true ∧ isIndirectCall E CI = true ∧ E.callHash CI = hash) ∧
            T.ctx.moduleMaps.getD A.mod "" = p) := by
    intro S A hS
    unfold doMLTA
    rw [Fold.foldl_or_of (I := SameInputs T)
      (P := fun S : CallGraphPass => p ∈ S.ctx.candCallerPaths.row hash)
      (Q := fun CI => (isCall E CI = true ∧ isIndirectCall E CI = true ∧ E.callHash CI = hash) ∧
        T.ctx.moduleMaps.getD A.mod "" = p) (hS.register A)]
    · rfl
    · intro S CI _ hS
      rw [mem_candCallerPaths_callInst, moduleMaps_of_sameInputs hS]
      exact ⟨hS.callInst A CI, Iff.rfl⟩
  unfold passed
  rw [Fold.foldl_or_of (I := SameInputs T)
    (P := fun S : CallGraphPass => p ∈ S.ctx.candCallerPaths.row hash)
    (Q := fun M => CallsSignature E M hash ∧ T.ctx.moduleMaps.getD M "" = p) (SameInputs.refl T)]
  intro S M _ hS
  have hstart : SameInputs T { S with mIdx := S.mIdx + 1 } := ⟨hS.post, hS.matched⟩
  refine ⟨Fold.foldl_invariant hstart fun S A _ hS => hS.doMLTA A, ?_⟩
  unfold doModulePass
  rw [Fold.foldl_or_of (I := SameInputs T)
    (P := fun S : CallGraphPass => p ∈ S.ctx.candCallerPaths.row hash)
    (Q := fun A => ∃ CI ∈ E.insts A,
      (isCall E CI = true ∧ isIndirectCall E CI = true ∧ E.callHash CI = hash) ∧
        T.ctx.moduleMaps.getD A.mod "" = p) hstart fun S A _ hS => ⟨hS.doMLTA A, hfunction S A hS⟩]
  apply or_congr Iff.rfl
  constructor
  · intro h
    obtain ⟨A, hA, CI, hCI, hcall, hp⟩ := h
    rw [mod_of_mem_definitionsOf hA] at hp
    exact ⟨⟨A, hA, CI, hCI, hcall⟩, hp⟩
  · intro h
    obtain ⟨⟨A, hA, CI, hCI, hcall⟩, hp⟩ := h
    refine ⟨A, hA, CI, hCI, hcall, ?_⟩
    rwa [mod_of_mem_definitionsOf hA]

theorem mem_candCallerPaths_runModules (ht : Tables T.ctx)
    (hms : ∀ M ∈ ms, M ∈ T.ctx.modules.map Prod.fst) {p : String} {hash : SizeT} :
    p ∈ (runModules E T ms).ctx.candCallerPaths.row hash ↔ p ∈ T.ctx.candCallerPaths.row hash ∨
      ∃ M ∈ ms, (M, p) ∈ T.ctx.modules ∧ CallsSignature E M hash := by
  have hfinal := congrArg GlobalContext.candCallerPaths
    (forgetCallees_doFinalization (E := E) (passed E (initialized E T ms) ms) ms)
  have hinit := congrArg GlobalContext.candCallerPaths (forgetPre_initialized (E := E) T ms)
  have htables := moduleTables_initialized (E := E) T ms
  have ht1 := Tables.congr htables ht
  have hmods : (initialized E T ms).ctx.modules = T.ctx.modules := congrArg Prod.fst htables
  have hpath : ∀ {M}, M ∈ ms → (((initialized E T ms).ctx.moduleMaps.getD M "" = p) ↔
      (M, p) ∈ T.ctx.modules) := by
    intro M hM
    obtain ⟨⟨N, q⟩, hN, rfl⟩ := List.mem_map.mp (hms M hM)
    rw [ht1.getD_moduleMaps (by rw [hmods]; exact hN)]
    constructor
    · rintro rfl
      exact hN
    · exact fun hp => ht.eq_of_mod hN hp
  have hrun : (runModules E T ms).ctx.candCallerPaths =
      (passed E (initialized E T ms) ms).ctx.candCallerPaths := hfinal
  have hstart : (initialized E T ms).ctx.candCallerPaths = T.ctx.candCallerPaths := hinit
  rw [hrun, mem_candCallerPaths_passed, hstart]
  apply or_congr Iff.rfl
  constructor
  · intro h
    obtain ⟨M, hM, hcalls, hp⟩ := h
    exact ⟨M, hM, (hpath hM).mp hp, hcalls⟩
  · intro h
    obtain ⟨M, hM, hp, hcalls⟩ := h
    exact ⟨M, hM, hcalls, (hpath hM).mpr hp⟩

end Run

theorem candidatesExact_initial {files : List ParsedFile} (hp : (files.map Prod.fst).Nodup)
    (hm : (files.map Prod.snd).Nodup) :
    CandidatesExact E (runModules E (initialState E files) (files.map Prod.snd)).ctx := by
  have hempty := congrArg GlobalContext.candCallerPaths (initialState_empty (E := E) hp hm)
  simp only [forgetTables] at hempty
  have hmods := initialState_modules (E := E) hp hm
  have hmem : ∀ {M p}, (M, p) ∈ (initialState E files).ctx.modules → M ∈ files.map Prod.snd := by
    intro M p hM
    rw [hmods] at hM
    obtain ⟨f, hf, hfM⟩ := List.mem_map.mp hM
    exact List.mem_map.mpr ⟨f, hf, congrArg Prod.fst hfM⟩
  intro hash p
  rw [mem_candCallerPaths_runModules (initialState_tables hp hm), modules_runModules]
  · simp only [hempty, ExtTreeMap.row_empty, ExtTreeSet.not_mem_empty, false_or]
    constructor
    · rintro ⟨M, _, hM, hcalls⟩
      exact ⟨M, hM, hcalls⟩
    · rintro ⟨M, hM, hcalls⟩
      exact ⟨M, hmem hM, hM, hcalls⟩
  · intro M hM
    obtain ⟨f, hf, rfl⟩ := List.mem_map.mp hM
    rw [hmods]
    exact List.mem_map.mpr ⟨(f.2, f.1), List.mem_map.mpr ⟨f, hf, rfl⟩, rfl⟩

section Update

variable {S T : CallGraphPass} {files : List ParsedFile} {ms : List ModPtr}

/-- The step: an affected module keeps its entries, and gets the same ones again. -/
theorem Start.candidatesExact (h : Start E S files T ms)
    (hS : CandidatesExact E S.ctx) : CandidatesExact E (runModules E T ms).ctx := by
  have hms : ∀ M ∈ ms, M ∈ T.ctx.modules.map Prod.fst := by
    intro M hM
    rw [h.modules]
    exact h.mem_next hM
  intro hash p
  rw [mem_candCallerPaths_runModules h.tables hms, modules_runModules, h.modules,
    h.candCallerPaths, hS]
  constructor
  · rintro (⟨⟨M, hM, hcalls⟩, hp⟩ | ⟨M, _, hM, hcalls⟩)
    · exact ⟨M, mem_nextModules.mpr (Or.inl ⟨hM, hp⟩), hcalls⟩
    · exact ⟨M, hM, hcalls⟩
  · intro hnext
    obtain ⟨M, hM, hcalls⟩ := hnext
    rcases h.next_cases hM with hMms | ⟨hold, hp⟩
    · exact Or.inr ⟨M, hMms, hM, hcalls⟩
    · exact Or.inl ⟨⟨M, hold, hcalls⟩, fun hpf => hp (Or.inl hpf)⟩

end Update

theorem Reached.candidatesExact {I : List ParsedFile → Prop}
    {C : CallGraphPass → List ParsedFile → Prop} {seen : List ModPtr} {S : CallGraphPass}
    (h : Reached E I C seen S) : CandidatesExact E S.ctx := by
  apply h.invariant (J := fun _ S => CandidatesExact E S.ctx)
  · exact fun files hp hm _ => candidatesExact_initial hp hm
  · exact fun _ _ _ hJ _ hstart => hstart.candidatesExact hJ

/-- In every state of a run the candidate callers are exact. Hence a loaded module that is not
updated is analysed by an update if and only if it is registered as a direct caller of an
updated path, or has an indirect call with the signature of an address-taken function of a
new module. -/
theorem candidateCallers_exact {seen : List ModPtr} {S : CallGraphPass}
    (hS : Reached E (fun _ => True) (fun _ _ => True) seen S) :
    CandidatesExact E S.ctx ∧
      ∀ files : List ParsedFile, (files.map Prod.fst).Nodup → (files.map Prod.snd).Nodup →
        (∀ f ∈ files, f.2 ∉ S.ctx.modules.map Prod.fst) →
        ∀ M p, (M, p) ∈ S.ctx.modules → p ∉ files.map Prod.fst →
        (M ∈ passModules E S files ↔ ∃ f ∈ files, p ∈ S.ctx.callerPaths.row f.1 ∨
          ∃ D ∈ E.functions f.2, (E.function D).hasAddressTaken = true ∧
            CallsSignature E M (E.funcHash D false)) := by
  have hexact := hS.candidatesExact
  refine ⟨hexact, ?_⟩
  intro files hp hm hfresh M p hM hpf
  obtain ⟨hf, hstart, _⟩ := hS.start hp hm hfresh
  have hL := hS.loaded.1
  have hrow : ∀ hash, p ∈ S.ctx.candCallerPaths.row hash ↔ CallsSignature E M hash := by
    intro hash
    rw [hexact]
    constructor
    · intro h
      obtain ⟨N, hN, hcalls⟩ := h
      rwa [hL.eq_of_path hM hN]
    · exact fun hcalls => ⟨M, hM, hcalls⟩
  rw [hstart.mem_ms]
  constructor
  · rintro (⟨q, hq⟩ | ⟨q, haff, hq⟩)
    · exact absurd (List.mem_map.mpr ⟨_, hM, rfl⟩) (hf.fresh _ hq)
    · obtain rfl := hL.eq_of_mod hM hq
      obtain ⟨⟨f, hfile, hcalls⟩, _⟩ := haff
      simp only [CallsInto, hrow] at hcalls
      exact ⟨f, hfile, hcalls⟩
  · intro h
    obtain ⟨f, hfile, hcalls⟩ := h
    refine Or.inr ⟨p, ⟨⟨f, hfile, ?_⟩, hpf⟩, hM⟩
    simpa only [CallsInto, hrow] using hcalls

/-- The address of `f` is taken in the file that is added; `a.bc` has a call of its type. -/
theorem candidateCallers_exact_new_file : 0 ∈ passModules indirectTarget
    (initializeModules indirectTarget (parsed [("a.bc", 0)])) [("b.bc", 1)] := by
  have hfirst : Reached indirectTarget (fun _ => True) (fun _ _ => True) [0]
      (initializeModules indirectTarget (parsed [("a.bc", 0)])) :=
    Reached.init [("a.bc", 0)] (by decide) (by decide) trivial
  rw [(candidateCallers_exact hfirst).2 [("b.bc", 1)] (by decide) (by decide)
    (hfirst.fresh_of_seen (by decide)) 0 "a.bc" (by decide) (by decide)]
  exact ⟨("b.bc", 1), by decide, Or.inr ⟨⟨1, 0⟩, by decide, by decide, ⟨0, 0⟩, by decide, ⟨0, 2⟩,
    by decide, by decide, by decide, by decide⟩⟩

end TypeDive

end Cisa

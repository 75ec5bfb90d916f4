import Cisa.CallGraph.Runs

/-!
# The signature table

`sigFuncsMap` is to hold every address-taken definition under the hash of its
signature. An update erases the whole bucket of every definition that is analysed
again, and fills it from the modules it analyses only.
-/

namespace Cisa

open Std

namespace TypeDive

variable {E : Env}

open CallGraphPass

theorem sigFuncsMap_runModules (T : CallGraphPass) (ms : List ModPtr) :
    (runModules E T ms).ctx.sigFuncsMap = (initialized E T ms).ctx.sigFuncsMap := by
  have h1 := congrArg GlobalContext.sigFuncsMap
    (forgetCallees_doFinalization (E := E) (passed E (initialized E T ms) ms) ms)
  have h2 := congrArg GlobalContext.sigFuncsMap
    (SameInputs.passed (E := E) (initialized E T ms) ms).post
  exact Eq.trans h1 h2

/-- Every live address-taken definition is in the bucket of its signature. -/
def SignatureTableComplete (E : Env) (ctx : GlobalContext) : Prop :=
  ∀ F, LiveDefinition E ctx F → (E.function F).hasAddressTaken = true →
    F ∈ ctx.sigFuncsMap.row (E.funcHash F false)

/-- No definition that is analysed again has the signature of an address-taken definition
in a module that is not. -/
def KeepsSignatures (E : Env) (ctx : GlobalContext) (files : List ParsedFile) : Prop :=
  ∀ M p, (M, p) ∈ ctx.modules → ¬ Reprocessed E ctx files p →
    ∀ F ∈ definitionsOf E M, (E.function F).hasAddressTaken = true →
      ¬ ∃ G, OldDefinition E ctx files G ∧ E.funcHash G false = E.funcHash F false

theorem keepsSignatures_of_ne {ctx : GlobalContext} (ht : Tables ctx) {files : List ParsedFile}
    (h : ∀ M ∈ ctx.modules.map Prod.fst, ∀ N ∈ ctx.modules.map Prod.fst, M ≠ N →
      ∀ F ∈ definitionsOf E M, (E.function F).hasAddressTaken = true →
        ∀ G ∈ definitionsOf E N, E.funcHash G false ≠ E.funcHash F false) :
    KeepsSignatures E ctx files := by
  rintro M p hM hp F hF hat ⟨G, ⟨N, ⟨q, hN, hq⟩, hG⟩, hhash⟩
  refine h M (List.mem_map.mpr ⟨_, hM, rfl⟩) N (List.mem_map.mpr ⟨_, hN, rfl⟩) ?_ F hF hat G hG
    hhash
  rintro rfl
  exact hp (ht.eq_of_mod hM hN ▸ hq)

theorem signatureTableComplete_initial {files : List ParsedFile}
    (hp : (files.map Prod.fst).Nodup) (hm : (files.map Prod.snd).Nodup) :
    SignatureTableComplete E (runModules E (initialState E files) (files.map Prod.snd)).ctx := by
  rintro F ⟨M, p, hM, hF⟩ hat
  rw [modules_runModules, initialState_modules hp hm] at hM
  rw [sigFuncsMap_runModules]
  obtain ⟨hFM, hdef⟩ := mem_definitionsOf.mp hF
  apply mem_row_initialized_of_isDefinition (onlyDefinitions_initialState hp hm) hdef
  obtain ⟨f, hf, heq⟩ := List.mem_map.mp hM
  obtain ⟨rfl, rfl⟩ := Prod.mk.inj heq
  exact Or.inr ⟨f.2, List.mem_map.mpr ⟨f, hf, rfl⟩, hFM, hat, rfl⟩

theorem Start.signatureTableComplete {S T : CallGraphPass} {files : List ParsedFile}
    {ms : List ModPtr} (h : Start E S files T ms) (hg : OnlyDefinitions E S.ctx.globalFuncMap)
    (hS : SignatureTableComplete E S.ctx) (hkeep : KeepsSignatures E S.ctx files) :
    SignatureTableComplete E (runModules E T ms).ctx := by
  rintro F ⟨M, p, hM, hF⟩ hat
  rw [modules_runModules, h.modules] at hM
  rw [sigFuncsMap_runModules]
  obtain ⟨hFM, hdef⟩ := mem_definitionsOf.mp hF
  apply mem_row_initialized_of_isDefinition (h.onlyDefinitions hg) hdef
  rcases h.next_cases hM with hms | ⟨hold, hp⟩
  · exact Or.inr ⟨M, hms, hFM, hat, rfl⟩
  · left
    rw [h.sigFuncsMap]
    exact ⟨hS F ⟨M, p, hold, hF⟩ hat, hkeep M p hold hp F hF hat⟩

/-- In a run whose updates keep the signatures of the modules they do not analyse, every
state has all live targets in the table. -/
theorem signatureTable_complete {seen : List ModPtr} {S : CallGraphPass}
    (hS : Reached E (fun _ => True) (fun S files => KeepsSignatures E S.ctx files) seen S) :
    SignatureTableComplete E S.ctx := by
  have h := hS.invariant (J := fun _ S =>
    OnlyDefinitions E S.ctx.globalFuncMap ∧ SignatureTableComplete E S.ctx) ?_ ?_
  · exact h.2
  · intro files hp hm _
    refine ⟨?_, signatureTableComplete_initial hp hm⟩
    rw [globalFuncMap_runModules]
    exact onlyDefinitions_initialized (onlyDefinitions_initialState hp hm) _
  · intro _ _ _ _ _ _ hJ hC hstart
    refine ⟨?_, hstart.signatureTableComplete hJ.1 hJ.2 hC⟩
    rw [globalFuncMap_runModules]
    exact onlyDefinitions_initialized (hstart.onlyDefinitions hJ.1) _

/-- `a.bc` and `b.bc` define functions of different types; `b.bc` is updated. -/
def twoSignatures : Env :=
  Env.ofModules [
    Module.ofFunctions [{ name := "f", hasAddressTaken := true }] (by decide),
    Module.ofFunctions [{ name := "g" }] (by decide) [{ kind := .function, printed := "i32 (i8)" }],
    Module.ofFunctions [{ name := "g" }] (by decide) [{ kind := .function, printed := "i32 (i8)" }]]

theorem signatureTable_two_signatures : ∃ S, updateModules twoSignatures
      (initializeModules twoSignatures (parsed [("a.bc", 0), ("b.bc", 1)]))
      (parsed [("b.bc", 2)]) = some S ∧ SignatureTableComplete twoSignatures S.ctx := by
  have hfirst : Reached twoSignatures (fun _ => True)
      (fun S files => KeepsSignatures twoSignatures S.ctx files) [0, 1]
      (initializeModules twoSignatures (parsed [("a.bc", 0), ("b.bc", 1)])) :=
    Reached.init [("a.bc", 0), ("b.bc", 1)] (by decide) (by decide) trivial
  obtain ⟨S, hstep, hS⟩ := hfirst.exists_update [("b.bc", 2)] (by decide) (by decide)
    (by decide) (keepsSignatures_of_ne hfirst.loaded.1.toTables (by decide))
  exact ⟨S, hstep, signatureTable_complete hS⟩

/-- `a.bc` and `b.bc` each define a function; `b.bc` is updated. -/
def sameSignature : Env :=
  Env.ofModules [
    Module.ofFunctions [{ name := "f", hasAddressTaken := true }] (by decide),
    Module.ofFunctions [{ name := "g" }] (by decide),
    Module.ofFunctions [{ name := "g" }] (by decide)]

/-- Updating the one module empties the bucket that the other one needs. -/
theorem signatureTable_bucket : ¬ ∀ (seen : List ModPtr) (S : CallGraphPass),
    Reached sameSignature (fun _ => True) (fun _ _ => True) seen S →
    SignatureTableComplete sameSignature S.ctx := by
  intro hall
  have hfirst : Reached sameSignature (fun _ => True) (fun _ _ => True) [0, 1]
      (initializeModules sameSignature (parsed [("a.bc", 0), ("b.bc", 1)])) :=
    Reached.init [("a.bc", 0), ("b.bc", 1)] (by decide) (by decide) trivial
  obtain ⟨S, hstep, hS⟩ := hfirst.exists_update [("b.bc", 2)] (by decide) (by decide)
    (by decide) trivial
  have hlost : (updateModules sameSignature
      (initializeModules sameSignature (parsed [("a.bc", 0), ("b.bc", 1)]))
      (parsed [("b.bc", 2)])).map (fun S => (S.ctx.modules,
        (S.ctx.sigFuncsMap.row (sameSignature.funcHash ⟨0, 0⟩ false)).contains ⟨0, 0⟩)) =
      some ([(0, "a.bc"), (2, "b.bc")], false) := by decide
  rw [hstep, Option.map_some, Option.some.injEq, Prod.mk.injEq] at hlost
  have hmem := hall _ S hS ⟨0, 0⟩ ⟨0, "a.bc", by rw [hlost.1]; decide, by decide⟩ (by decide)
  rw [ExtTreeSet.mem_iff_contains, hlost.2] at hmem
  simp at hmem

end TypeDive

end Cisa

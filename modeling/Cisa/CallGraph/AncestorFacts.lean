import Cisa.CallGraph.Runs

/-!
# What an update leaves in the ancestor caches

An update erases the cached pairs of the functions that it erases, and keeps all
others. Whether a kept pair is still true depends on the calls between the two
functions after the update. `Calls` are the calls that are certain from the inputs of
the update, `MayCall` adds the functions that the bucket of an indirect call can offer.
-/

namespace Cisa

open Std Relation

namespace TypeDive

variable {E : Env}

open CallGraphPass Mlta

section Calls

variable (E : Env) (S : CallGraphPass) (files : List ParsedFile)

/-- The pairs that the clean-up keeps: the ancestors are connected by the calls `pos`, the
non-ancestors are not connected by the calls `neg`. -/
structure KeptFacts (pos neg : FuncPtr → FuncPtr → Prop) : Prop where
  anc : ∀ a d, a ∈ S.ctx.ancCache.row d → ¬ Erased E S.ctx files a →
    ¬ Erased E S.ctx files d → TransGen pos a d
  neg : ∀ a d, a ∈ S.ctx.negAncCache.row d → ¬ Erased E S.ctx files a →
    ¬ Erased E S.ctx files d → ¬ TransGen neg a d

end Calls

section Update

variable {S : CallGraphPass} {files : List ParsedFile}

theorem caches_runModules (T : CallGraphPass) (ms : List ModPtr) :
    (runModules E T ms).ctx.ancCache = T.ctx.ancCache ∧
      (runModules E T ms).ctx.negAncCache = T.ctx.negAncCache := by
  have h1 := congrArg (fun ctx : GlobalContext => (ctx.ancCache, ctx.negAncCache))
    (forgetCallees_doFinalization (E := E) (passed E (initialized E T ms) ms) ms)
  have h2 := congrArg (fun ctx : GlobalContext => (ctx.ancCache, ctx.negAncCache))
    (SameInputs.passed (E := E) (initialized E T ms) ms).post
  have h3 := congrArg (fun ctx : GlobalContext => (ctx.ancCache, ctx.negAncCache))
    (forgetPre_initialized (E := E) T ms)
  exact Prod.mk.inj (Eq.trans h1 (Eq.trans h2 h3))

theorem KeptFacts.mono {pos neg pos' neg' : FuncPtr → FuncPtr → Prop}
    (h : KeptFacts E S files pos neg) (hpos : ∀ F G, pos F G → pos' F G)
    (hneg : ∀ F G, neg' F G → neg F G) : KeptFacts E S files pos' neg' where
  anc a d ha hea hed := TransGen.mono hpos a d (h.anc a d ha hea hed)
  neg a d ha hea hed hpath := h.neg a d ha hea hed (TransGen.mono hneg a d hpath)

end Update

open Ancestors

theorem Reached.cached {I : List ParsedFile → Prop} {C : CallGraphPass → List ParsedFile → Prop}
    {seen : List ModPtr} {S : CallGraphPass} (h : Reached E I C seen S) :
    Cached S.ctx.callees S.ctx [] := by
  have hempty := h.invariant (J := fun _ S => ∀ a d,
    a ∉ S.ctx.ancCache.row d ∧ a ∉ S.ctx.negAncCache.row d) ?_ ?_
  · exact ⟨rfl, fun a d => by simp [(hempty a d).1], fun a d => by simp [(hempty a d).2]⟩
  · intro files hp hm _ a d
    have hctx := initialState_empty (E := E) hp hm
    have hanc := congrArg GlobalContext.ancCache hctx
    have hneg := congrArg GlobalContext.negAncCache hctx
    simp only [forgetTables] at hanc hneg
    obtain ⟨h1, h2⟩ := caches_runModules (E := E) (initialState E files) (files.map Prod.snd)
    rw [h1, h2, hanc, hneg]
    simp
  · intro _ S files _ _ _ hJ _ hstart a d
    obtain ⟨h1, h2⟩ := caches_runModules (E := E) (passStart E S files) (passModules E S files)
    rw [h1, h2, hstart.ancCache, hstart.negAncCache]
    exact ⟨fun ha => (hJ a d).1 ha.1, fun ha => (hJ a d).2 ha.1⟩

end TypeDive

end Cisa

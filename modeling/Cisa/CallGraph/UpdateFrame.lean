import Cisa.CallGraph.AncestorFacts
import Cisa.CallGraph.FreshDirectCalls

/-!
# What an update leaves alone

The definitions of the modules that an update does not analyse keep their edges, their
registration and the cached answers between them. Hence a walk that stays among such
definitions visits the same functions before and after the update.
-/

namespace Cisa

open Std

namespace TypeDive

variable {E : Env}

open CallGraphPass Mlta

def KeptFunction (E : Env) (ctx : GlobalContext) (files : List ParsedFile) (F : FuncPtr) : Prop :=
  ∃ M p, (M, p) ∈ ctx.modules ∧ ¬ Reprocessed E ctx files p ∧ F ∈ definitionsOf E M

/-- Everything that is held for the kept definitions is the same in both contexts. -/
structure SameForKept (E : Env) (files : List ParsedFile) (ctx ctx' : GlobalContext) : Prop where
  live : ∀ F, KeptFunction E ctx files F → LiveDefinition E ctx' F
  callees : ∀ F, KeptFunction E ctx files F → ctx'.callees.row F = ctx.callees.row F
  callers : ∀ F, KeptFunction E ctx files F → ∀ G,
    (F ∈ ctx'.callers.row G ↔ F ∈ ctx.callers.row G)
  ancCache : ∀ F G, KeptFunction E ctx files F → KeptFunction E ctx files G →
    ((F ∈ ctx'.ancCache.row G ↔ F ∈ ctx.ancCache.row G) ∧
      (F ∈ ctx'.negAncCache.row G ↔ F ∈ ctx.negAncCache.row G))
  bcFuncs : ∀ (p n : String), p ∈ ctx.modules.map Prod.snd → ¬ Reprocessed E ctx files p →
    (ctx'.bcFuncs.getD p ∅)[n]? = (ctx.bcFuncs.getD p ∅)[n]?

section Run

variable {T : CallGraphPass} {ms : List ModPtr}

theorem mem_callers_passed_of_not {F G : FuncPtr} (hF : ¬ Defines E ms F) :
    F ∈ (passed E T ms).ctx.callers.row G ↔ F ∈ T.ctx.callers.row G := by
  apply passed_invariant (I := fun S : CallGraphPass =>
    F ∈ S.ctx.callers.row G ↔ F ∈ T.ctx.callers.row G) Iff.rfl
  · exact fun _ _ hS => hS
  · exact fun _ _ _ hS => hS
  · intro S A CI hA _ hS
    rw [mem_callers_callInst, hS]
    apply or_iff_left
    rintro ⟨rfl, _⟩
    exact hF hA

end Run

section Update

variable {S T : CallGraphPass} {files : List ParsedFile} {ms : List ModPtr}

theorem Start.not_defines (h : Start E S files T ms) (hL : Loaded E S.ctx)
    (hf : FilesOk S.ctx files) {F : FuncPtr} (hF : KeptFunction E S.ctx files F) :
    ¬ Defines E ms F := by
  intro hdef
  obtain ⟨M, p, hM, hp, hFM⟩ := hF
  obtain ⟨N, hN, hFN⟩ := hdef
  have hNM : N = M := (mod_of_mem_definitionsOf hFN).symm.trans (mod_of_mem_definitionsOf hFM)
  exact h.not_mem_ms hL hf hM hp (hNM ▸ hN)

theorem Loaded.not_erased {ctx : GlobalContext} (hL : Loaded E ctx) {F : FuncPtr}
    (hF : KeptFunction E ctx files F) : ¬ Erased E ctx files F := by
  rw [hL.erased_iff]
  intro hold
  obtain ⟨M, p, hM, hp, hFM⟩ := hF
  obtain ⟨N, ⟨q, hN, hq⟩, hFN⟩ := hold
  have hNM : N = M := (mod_of_mem_definitionsOf hFN).symm.trans (mod_of_mem_definitionsOf hFM)
  subst hNM
  exact hp (hL.eq_of_mod hM hN ▸ hq)

theorem Start.sameForKept (h : Start E S files T ms) (hL : Loaded E S.ctx)
    (hf : FilesOk S.ctx files) (hg : OnlyDefinitions E S.ctx.globalFuncMap) :
    SameForKept E files S.ctx (runModules E T ms).ctx := by
  obtain ⟨hanc, hneg⟩ := caches_runModules (E := E) T ms
  constructor
  · intro F hF
    obtain ⟨M, p, hM, hp, hFM⟩ := hF
    exact ⟨M, p, h.mem_modules_of_kept hM fun hpf => hp (Or.inl hpf), hFM⟩
  · intro F hF
    obtain ⟨M, p, hM, hp, hFM⟩ := hF
    apply ExtTreeSet.ext_mem
    exact fun G => h.mem_callees_iff hL hf hg hM hp hFM
  · intro F hF G
    rw [callers_runModules, mem_callers_passed_of_not (h.not_defines hL hf hF),
      callers_initialized, h.callers]
    exact and_iff_left fun herased => hL.not_erased hF herased.1
  · intro F G hF hG
    rw [hanc, hneg, h.ancCache, h.negAncCache]
    exact ⟨and_iff_left ⟨hL.not_erased hF, hL.not_erased hG⟩,
      and_iff_left ⟨hL.not_erased hF, hL.not_erased hG⟩⟩
  · intro p n hpmods hp
    have hL' := h.loaded hL hf
    obtain ⟨⟨M, q⟩, hM, rfl⟩ := List.mem_map.mp hpmods
    have hM' := h.mem_modules_of_kept hM fun hpf => hp (Or.inl hpf)
    apply Option.ext
    intro F
    rw [hL'.bcFuncs, hL.bcFuncs]
    constructor
    · intro hex
      obtain ⟨N, hN, hF⟩ := hex
      exact ⟨M, hM, hL'.eq_of_path hM' hN ▸ hF⟩
    · intro hex
      obtain ⟨N, hN, hF⟩ := hex
      exact ⟨M, hM', hL.eq_of_path hM hN ▸ hF⟩

end Update

theorem reaches_iff_of_rows {ctx ctx' : GlobalContext} {K : FuncPtr → Prop} {F G : FuncPtr}
    (hrows : ∀ A, K A → ctx'.callees.row A = ctx.callees.row A)
    (hK : ∀ A, Relation.ReflTransGen (fun A B => B ∈ ctx.callees.row A) F A → K A) :
    Relation.ReflTransGen (fun A B => B ∈ ctx'.callees.row A) F G ↔
      Relation.ReflTransGen (fun A B => B ∈ ctx.callees.row A) F G := by
  constructor
  · intro h
    induction h with
    | refl => exact .refl
    | tail _ hstep ih => exact ih.tail (hrows _ (hK _ ih) ▸ hstep)
  · intro h
    induction h with
    | refl => exact .refl
    | tail hpath hstep ih => exact ih.tail (hrows _ (hK _ hpath) ▸ hstep)

/-- Every update of a run leaves the edges, the registration and the cached answers of the
definitions alone whose modules it does not analyse; a walk down that meets no other
function visits the same functions afterwards. -/
theorem update_frame {seen : List ModPtr} {S S' : CallGraphPass}
    (hS : Reached E (fun _ => True) (fun _ _ => True) seen S) {files : List ParsedFile}
    (hp : (files.map Prod.fst).Nodup) (hm : (files.map Prod.snd).Nodup)
    (hfresh : ∀ f ∈ files, f.2 ∉ S.ctx.modules.map Prod.fst)
    (hstep : updateModules E S (parsed files) = some S') :
    SameForKept E files S.ctx S'.ctx ∧
      ∀ F, (∀ G ∈ visited S.ctx .down F, KeptFunction E S.ctx files G) →
        visited S'.ctx .down F = visited S.ctx .down F := by
  obtain ⟨hf, hstart, hrun⟩ := hS.start hp hm hfresh
  obtain rfl := Option.some.inj (hrun.symm.trans hstep)
  have hsame := hstart.sameForKept hS.loaded.1 hf hS.onlyDefinitions
  refine ⟨hsame, ?_⟩
  intro F hF
  apply ExtTreeSet.ext_mem
  intro G
  rw [mem_visited, mem_visited]
  exact reaches_iff_of_rows hsame.callees fun A hA => hF A (mem_visited.mpr hA)

/-- `a.bc` is left alone when `b.bc` is updated. -/
theorem update_frame_two_files : ∃ S', updateModules twoFiles
      (initializeModules twoFiles (parsed [("a.bc", 0), ("b.bc", 1)])) (parsed [("b.bc", 2)]) =
        some S' ∧
    SameForKept twoFiles [("b.bc", 2)]
      (initializeModules twoFiles (parsed [("a.bc", 0), ("b.bc", 1)])).ctx S'.ctx ∧
    KeptFunction twoFiles
      (initializeModules twoFiles (parsed [("a.bc", 0), ("b.bc", 1)])).ctx [("b.bc", 2)]
      ⟨0, 0⟩ := by
  have hfirst : Reached twoFiles (fun _ => True) (fun _ _ => True) [0, 1]
      (initializeModules twoFiles (parsed [("a.bc", 0), ("b.bc", 1)])) :=
    Reached.init [("a.bc", 0), ("b.bc", 1)] (by decide) (by decide) trivial
  obtain ⟨_, _, hrun⟩ := hfirst.start
    (show (([("b.bc", 2)] : List ParsedFile).map Prod.fst).Nodup by decide)
    (by decide) (hfirst.fresh_of_seen (by decide))
  exact ⟨_, hrun, (update_frame hfirst (by decide) (by decide)
    (hfirst.fresh_of_seen (by decide)) hrun).1,
    0, "a.bc", by decide, by decide, by decide⟩

end TypeDive

end Cisa

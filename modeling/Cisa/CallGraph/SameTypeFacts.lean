import Cisa.CallGraph.ExactSearches
import Cisa.CallGraph.ModuleFacts

/-!
# Tables with the same type facts

The tables of two runs may have been filled in different orders. As long as they hold the
same facts, every search meets the same layers, and these have the same targets.
-/

namespace Cisa

open Std

namespace Mlta

structure SameTypeFacts (E : Env) (m m' : Mlta) : Prop where
  agree : Agree E (fun _ => True) m m'
  targets : ∀ h i, slot m'.typeIdxFuncsMap h i = slot m.typeIdxFuncsMap h i
  props : ∀ h i, slot m'.typeIdxPropMap h i = slot m.typeIdxPropMap h i
  caps : ∀ hash, hash ∈ m'.typeCapSet ↔ hash ∈ m.typeCapSet
  escapes : ∀ hash, hash ∈ m'.typeEscapeSet ↔ hash ∈ m.typeEscapeSet

namespace SameTypeFacts

variable {E : Env} {m m' : Mlta} {TI : TypeIdx} {F : FuncPtr}

theorem typeIdxHash (h : SameTypeFacts E m m') (T : TyPtr) (i : ℤ) :
    typeIdxHash E m' T i = typeIdxHash E m T i := by
  unfold Mlta.typeIdxHash
  rw [h.agree.names]

theorem pairOf (h : SameTypeFacts E m m') : pairOf E m' TI = pairOf E m TI := by
  unfold Mlta.pairOf
  rw [h.agree.typeHash]

/-- The queues of both tables run alike; the two budgets both suffice. -/
theorem getDependentTypes (h : SameTypeFacts E m m') (T : TyPtr) (i : ℤ) :
    getDependentTypes E m' T i = getDependentTypes E m T i := by
  have hbody : dependBody m' = dependBody m := by
    funext st TI
    unfold dependBody
    rw [h.props, h.props]
  unfold Mlta.getDependentTypes
  have hrun := Option.some_get (dependRun_isSome m ⟨typeHash E m T, i⟩)
  have hrun' := Option.some_get (dependRun_isSome m' ⟨typeHash E m' T, i⟩)
  rw [eq_comm] at hrun hrun'
  have hstart : Worklist.run (dependBody m) (dependFuel m' ⟨typeHash E m' T, i⟩) (∅, ∅)
      [⟨typeHash E m T, i⟩] = some ((Worklist.run (dependBody m')
        (dependFuel m' ⟨typeHash E m' T, i⟩) (∅, ∅) [⟨typeHash E m' T, i⟩]).get
        (dependRun_isSome m' _)) := by
    rw [← hrun', hbody, h.agree.typeHash]
  exact congrArg Prod.snd (Worklist.run_unique (dependBody m) hstart hrun)

theorem recorded (h : SameTypeFacts E m m') (p : HashIdx) : Recorded m' p F ↔ Recorded m p F := by
  simp only [Recorded, h.targets]

theorem layerTarget (h : SameTypeFacts E m m') : LayerTarget E m' TI F ↔ LayerTarget E m TI F := by
  simp only [LayerTarget, h.recorded, h.pairOf, h.getDependentTypes]

theorem clean (h : SameTypeFacts E m m') {row : FuncSet} {tys : List TypeIdx} :
    Clean E m' row tys ↔ Clean E m row tys := by
  simp only [Clean, LeftOver, h.layerTarget, h.getDependentTypes]

theorem layerOf (h : SameTypeFacts E m m') {C : ValPtr → Prop} :
    LayerOf E m' C TI ↔ LayerOf E m C TI := by
  have hlayers : ∀ V ty, getGEPLayerTypes E m' V ty = getGEPLayerTypes E m V ty :=
    fun V ty => h.agree.getGEPLayerTypes (fun _ _ _ _ => trivial) trivial ty
  simp only [LayerOf, hlayers]

theorem apart (h : SameTypeFacts E m m') {L : TypeIdx → Prop} : Apart E m' L ↔ Apart E m L := by
  simp only [Apart, h.typeIdxHash, h.pairOf]

section Walks

variable (hm : m.matchedFuncsMap = ∅) (hm' : m'.matchedFuncsMap = ∅)

include hm hm'

theorem isOpen (h : SameTypeFacts E m m') : IsOpen E m' TI ↔ IsOpen E m TI := by
  rw [isOpen_iff hm, isOpen_iff hm']
  simp only [Escaped, h.typeIdxHash, h.escapes]

theorem walkLayers (h : SameTypeFacts E m m') (tys : List TypeIdx) (w : WalkState) :
    walkLayers E m' tys w = walkLayers E m tys w := by
  induction tys generalizing w with
  | nil => rfl
  | cons TI tys ih =>
    unfold Mlta.walkLayers
    simp only [h.isOpen hm hm', h.agree.typeHash, h.caps, ih]

theorem walkSearch (h : SameTypeFacts E m m') (n : ℕ) (w : WalkState) :
    walkSearch E m' n w = walkSearch E m n w := by
  induction n generalizing w with
  | zero => rfl
  | succ n ih =>
    have hnext : ∀ k V st, nextLayerBaseType E m' k V st = nextLayerBaseType E m k V st :=
      fun k V st => h.agree.nextLayerBaseType (fun _ _ _ _ => trivial) k trivial st
    unfold Mlta.walkSearch
    simp only [h.agree.typeHash, h.caps, hnext, h.walkLayers hm hm', ih]

theorem layersMet (h : SameTypeFacts E m m') (CI : ValPtr) :
    layersMet E m' CI = layersMet E m CI := by
  unfold Mlta.layersMet
  simp only [h.walkSearch hm hm']

end Walks

end SameTypeFacts

end Mlta

namespace CallGraphPass

open Mlta

theorem FactsOf.sameTypeFacts {E : Env} {names : StructNames} {X : ModPtr → Prop} {m m' : Mlta}
    (h : FactsOf E names X m) (h' : FactsOf E names X m') : SameTypeFacts E m m' := by
  refine ⟨⟨?_, fun V _ => ?_⟩, fun hash i => ?_, fun hash i => ?_, fun hash => ?_, fun hash => ?_⟩
  · rw [h.elementsStructNameMap, h'.elementsStructNameMap]
  · have hrow : m'.aliasStructPtrMap.getD (E.parentOf V) ∅ =
        m.aliasStructPtrMap.getD (E.parentOf V) ∅ := by
      by_cases hX : X (E.parentOf V).mod
      · rw [h.aliases _ hX, h'.aliases _ hX]
      · rw [h.no_aliases _ hX, h'.no_aliases _ hX]
    unfold recoverBaseType
    simp only [hrow]
  · apply ExtTreeSet.ext_mem
    intro F
    rw [h.targets, h'.targets]
  · apply ExtTreeSet.ext_mem
    intro p
    rw [h.props, h'.props]
  · rw [h.caps, h'.caps]
  · rw [h.escapes, h'.escapes]

end CallGraphPass

end Cisa

import Cisa.CallGraph.SetDefinition

/-!
# What an escaped layer ends

An escaped layer ends the loop over the list that it is in, not the loop over the lists. The
next list is yielded from the value that the search has come to: from the same value when the
escaped layer is the first of its list, and from the next value along the access chain when
a layer before it in the list has been looked up.
-/

namespace Cisa

open Std

namespace Mlta

variable {E : Env} {m : Mlta} {CI : ValPtr} {sigFuncsMap : SortedMap SizeT FuncSet}
  {done : List TypeIdx} {w : WalkState} {TI : TypeIdx}

/-- When the first layer of a list has escaped the list is yielded again and again, and no
layer is looked up any more. -/
theorem lookedUpLayers_of_escaped_first (n : ℕ) (hescaped : ¬ IsOpenAfter E m done TI)
    {tys : List TypeIdx} (htys : (nextLayerBaseType E m (valueFuel E w.CV) w.CV {}).2.tyList =
      TI :: tys) : lookedUpLayers (visitSearch E m n done w) = [] := by
  induction n generalizing w with
  | zero => rfl
  | succ n ih =>
    unfold visitSearch
    by_cases hstop : w.continueNextLayer = false ∨ maxTypeLayer ≤ w.layerNo ∨
        typeHash E m w.prevLayerTy ∈ m.typeCapSet
    · rw [if_pos hstop, lookedUpLayers_nil]
    · have hmax : ¬ maxTypeLayer ≤ w.layerNo := fun hle => hstop (Or.inr (Or.inl hle))
      rw [if_neg hstop]
      dsimp only
      rw [tyList_nextLayerBaseType, htys, if_neg (List.cons_ne_nil _ _)]
      unfold visitLayers
      rw [if_neg hmax, if_neg hescaped]
      dsimp only
      rw [List.singleton_append, lookedUpLayers_cons_false, lookedUpLayers_cons_false,
        lookedUpLayers_nil, List.append_nil]
      exact ih htys

/-- The result is the set as narrowed by the layers before an escaped layer, exactly when
every candidate that these layers keep is kept by the layers that are looked up after it as
well. -/
theorem escaped_ends_narrowing_iff :
    (∀ before TI after, layerVisits E m CI = before ++ ⟨TI, false⟩ :: after →
      (findCalleesWithMLTA E m sigFuncsMap CI).1 =
        (narrowed E m (sigFuncsMap.row (E.callHash CI)) (lookedUpLayers before)).FS) ↔
    ∀ before TI after, layerVisits E m CI = before ++ ⟨TI, false⟩ :: after →
      ∀ F ∈ sigFuncsMap.row (E.callHash CI), AllDeliverAfter E m [] (lookedUpLayers before) F →
        AllDeliverAfter E m (lookedUpLayers before) (lookedUpLayers after) F := by
  have hsplit : ∀ {before TI after}, layerVisits E m CI = before ++ ⟨TI, false⟩ :: after →
      ∀ F, F ∈ (findCalleesWithMLTA E m sigFuncsMap CI).1 ↔
        F ∈ (narrowed E m (sigFuncsMap.row (E.callHash CI)) (lookedUpLayers before)).FS ∧
          AllDeliverAfter E m (lookedUpLayers before) (lookedUpLayers after) F := by
    intro before TI after hvisits F
    rw [mem_findCallees_iff, hvisits, lookedUpLayers_append, lookedUpLayers_cons_false]
    have hall : F ∈ (narrowed E m (sigFuncsMap.row (E.callHash CI))
        ([] ++ (lookedUpLayers before ++ lookedUpLayers after))).FS ↔ _ := mem_narrowed _
    rw [← mem_narrowed, ← List.nil_append (lookedUpLayers before ++ _)]
    exact hall.symm
  have hbefore : ∀ (before : List LayerVisit) (F : FuncPtr),
      F ∈ (narrowed E m (sigFuncsMap.row (E.callHash CI)) (lookedUpLayers before)).FS ↔
        F ∈ sigFuncsMap.row (E.callHash CI) ∧ AllDeliverAfter E m [] (lookedUpLayers before) F := by
    intro before F
    have hall : F ∈ (narrowed E m (sigFuncsMap.row (E.callHash CI))
        ([] ++ lookedUpLayers before)).FS ↔ _ := mem_narrowed _
    exact hall
  constructor
  · intro h before TI after hvisits F hF hkept
    have hmem := (hbefore before F).mpr ⟨hF, hkept⟩
    rw [← h before TI after hvisits] at hmem
    exact ((hsplit hvisits F).mp hmem).2
  · intro h before TI after hvisits
    apply ExtTreeSet.ext_mem
    intro F
    rw [hsplit hvisits]
    apply and_iff_left_of_imp
    intro hmem
    obtain ⟨hF, hkept⟩ := (hbefore before F).mp hmem
    exact h before TI after hvisits F hF hkept

def escapedTable : Mlta :=
  { tableFacts [⟨0, 1⟩, ⟨0, 2⟩] [] [⟨0, 1⟩] with
    typeEscapeSet := (∅ : SortedSet SizeT).insert (typeIdxHash tableCalls {} ⟨0, 4⟩ (-1)) }

/-- The field that the table was loaded from is looked up after the escaped type. -/
theorem escaped_narrows_on :
    ¬ ∀ before TI after, layerVisits tableCalls escapedTable ⟨0, 9⟩ = before ++ ⟨TI, false⟩ :: after →
      (findCalleesWithMLTA tableCalls escapedTable tableSigs ⟨0, 9⟩).1 =
        (narrowed tableCalls escapedTable (tableSigs.row (tableCalls.callHash ⟨0, 9⟩))
          (lookedUpLayers before)).FS := by
  intro h
  have hsame := h [⟨(⟨0, 3⟩, 0), true⟩] (⟨0, 4⟩, -1) [⟨(⟨0, 8⟩, 1), true⟩] (by decide)
  have hbefore : ⟨0, 2⟩ ∈ (narrowed tableCalls escapedTable
      (tableSigs.row (tableCalls.callHash ⟨0, 9⟩)) [(⟨0, 3⟩, 0)]).FS :=
    ExtTreeSet.mem_iff_contains.mpr (by decide +kernel)
  have hafter : (findCalleesWithMLTA tableCalls escapedTable tableSigs ⟨0, 9⟩).1.contains ⟨0, 2⟩ =
      false := by
    decide +kernel
  have hmem := ExtTreeSet.mem_iff_contains.mp (hsame ▸ hbefore)
  simp [hafter] at hmem

end Mlta

end Cisa

import Cisa.CallGraph.Searches

/-!
# Searches that do not depend on what was searched before

The working sets of a search live across its layers, and a lookup with index `-1` adds to
them. What is left over from the layer before is then cached for the layer. Where nothing
is left over, the cache holds exactly the targets of every layer, and a search finds what it
would find with an empty cache.
-/

namespace Cisa

open Std

namespace Mlta

variable (E : Env) (m : Mlta)

/-- The layer, or all fields of its type, has escaped. -/
def Escaped (TI : TypeIdx) : Prop :=
  typeIdxHash E m TI.1 TI.2 ∈ m.typeEscapeSet ∨ typeIdxHash E m TI.1 (-1) ∈ m.typeEscapeSet

/-- Every cached set holds the targets of a layer that has its hash, and nothing else. -/
def CacheExact (L : TypeIdx → Prop) (matched : SortedMap SizeT FuncSet) : Prop :=
  ∀ (k : SizeT) (FS1 : FuncSet), matched[k]? = some FS1 →
    ∃ TI, L TI ∧ typeIdxHash E m TI.1 TI.2 = k ∧ ¬ Escaped E m TI ∧
      ∀ F, F ∈ FS1 ↔ LayerTarget E m TI F

/-- The function is in the working set that a lookup of `TI` adds to, when the layers `done`
have been looked up for a call with the candidates `row`. -/
def LeftOver (row : FuncSet) (done : List TypeIdx) (TI : TypeIdx) (F : FuncPtr) : Prop :=
  (TI.2 = -1 ∧ ∃ TI', done.getLast? = some TI' ∧ LayerTarget E m TI' F) ∨
    (((getDependentTypes E m TI.1 TI.2).toList.head?.any fun p => p.idx == -1) = true ∧
      done ≠ [] ∧ F ∈ row ∧ ∀ TI' ∈ done, LayerTarget E m TI' F)

/-- What is left over when a layer of the list is looked up is a target of the layer. -/
def Clean (row : FuncSet) (tys : List TypeIdx) : Prop :=
  ∀ done TI rest, tys = done ++ TI :: rest → ∀ F, LeftOver E m row done TI F → LayerTarget E m TI F

/-- The search has come to the same point as the walk over the layers `done`; its sets are
those that the targets of these layers determine. -/
structure Exact (L : TypeIdx → Prop) (row : FuncSet) (done : List TypeIdx) (st : SearchState)
    (w : WalkState) : Prop where
  prevLayerTy : st.prevLayerTy = w.prevLayerTy
  CV : st.CV = w.CV
  nextV : st.nextV = w.nextV
  layerNo : st.layerNo = w.layerNo
  continueNextLayer : st.continueNextLayer = w.continueNextLayer
  found : ∀ F, F ∈ st.FS ↔ F ∈ row ∧ ∀ TI ∈ done, LayerTarget E m TI F
  current : ∀ F, F ∈ st.FS1 ↔ ∃ TI, done.getLast? = some TI ∧ LayerTarget E m TI F
  leftover : ∀ F, F ∈ st.FS2 ↔ done ≠ [] ∧ F ∈ st.FS
  matched : CacheExact E m L st.matched

variable {E m} {L : TypeIdx → Prop} {row : FuncSet} {done : List TypeIdx} {st : SearchState}
  {w : WalkState} {TI : TypeIdx}

theorem escaped_congr {TI' : TypeIdx} (h : pairOf E m TI = pairOf E m TI') :
    Escaped E m TI ↔ Escaped E m TI' := by
  have hidx : TI.2 = TI'.2 := congrArg HashIdx.idx h
  unfold Escaped
  rw [typeIdxHash_congr h, typeIdxHash_congr h, hidx]

theorem isOpen_iff (hm : m.matchedFuncsMap = ∅) : IsOpen E m TI ↔ ¬ Escaped E m TI := by
  simp [IsOpen, Escaped, hm]

theorem Clean.of_append {tys tys' : List TypeIdx} (h : Clean E m row (tys ++ tys')) :
    Clean E m row tys := by
  intro done TI rest hsplit F hF
  apply h done TI (rest ++ tys') _ F hF
  rw [hsplit, List.append_assoc, List.cons_append]

theorem clean_of_tail {tys : List TypeIdx} (h : ∀ TI ∈ tys.tail, keepsEarlier E m TI = false) :
    Clean E m row tys := by
  intro done TI rest hsplit F hF
  have hne : done ≠ [] := by
    intro hnil
    rw [hnil] at hF
    rcases hF with ⟨_, TI', hTI', _⟩ | ⟨_, hne, _⟩
    · simp at hTI'
    · exact hne rfl
  have hTI : TI ∈ tys.tail := by
    rw [hsplit, List.tail_append_of_ne_nil hne]
    simp
  have hkeeps := h TI hTI
  simp only [keepsEarlier, Bool.or_eq_false_iff, beq_eq_false_iff_ne] at hkeeps
  rcases hF with ⟨hidx, _⟩ | ⟨hhead, _⟩
  · exact absurd hidx hkeeps.1
  · rw [hkeeps.2] at hhead
    simp at hhead

namespace Exact

/-- What the lookup of an open layer leaves. -/
structure LooksUp (E : Env) (m : Mlta) (L : TypeIdx → Prop) (TI : TypeIdx) (st st' : SearchState) :
    Prop where
  frame : { st' with FS1 := st.FS1, FS2 := st.FS2, matched := st.matched } = st
  current : ∀ F, F ∈ st'.FS1 ↔ LayerTarget E m TI F
  matched : CacheExact E m L st'.matched

theorem lookup (h : Exact E m L row done st w) (hm : m.matchedFuncsMap = ∅) (hapart : Apart E m L)
    (hTI : L TI) (hclean : ∀ F, LeftOver E m row done TI F → LayerTarget E m TI F)
    (hopen : IsOpen E m TI) :
    ∃ st', lookupLayer E m TI st = some st' ∧ LooksUp E m L TI st st' := by
  have hescape := (isOpen_iff hm).mp hopen
  set k := typeIdxHash E m TI.1 TI.2 with hk
  cases hst : st.matched[k]? with
  | some FS1 =>
    obtain ⟨TI', hTI', hkey, _, hFS1⟩ := h.matched k FS1 hst
    have hpair := hapart TI' TI hTI' hTI hkey
    refine ⟨{ st with FS1 := FS1 }, by simp [lookupLayer, ← hk, hst], rfl, fun F => ?_, h.matched⟩
    exact (hFS1 F).trans (LayerTarget.congr hpair)
  | none =>
    have htargets : ∀ F, F ∈ (computeLayer E m TI st).FS1 ↔ LayerTarget E m TI F := by
      intro F
      rw [mem_computeLayer, h.current, h.leftover, h.found]
      constructor
      · intro hF
        rcases hF with hF | ⟨hidx, hF⟩ | ⟨hhead, hne, hrow, hall⟩
        · exact hF
        · exact hclean F (Or.inl ⟨hidx, hF⟩)
        · exact hclean F (Or.inr ⟨hhead, hne, hrow, hall⟩)
      · exact Or.inl
    refine ⟨computeLayer E m TI st, ?_, rfl, htargets, ?_⟩
    · have hnot : ¬ (k ∈ m.typeEscapeSet ∨ typeIdxHash E m TI.1 (-1) ∈ m.typeEscapeSet) := hescape
      simp [lookupLayer, ← hk, hst, hnot]
    · intro k' FS1 hk'
      change (st.matched.insert k (computeLayer E m TI st).FS1)[k']? = some FS1 at hk'
      rw [ExtTreeMap.getElem?_insert_eq_ite] at hk'
      split_ifs at hk' with heq
      · rw [← Option.some.inj hk']
        exact ⟨TI, hTI, heq, hescape, htargets⟩
      · exact h.matched k' FS1 hk'

theorem lookup_none (h : Exact E m L row done st w) (hm : m.matchedFuncsMap = ∅)
    (hapart : Apart E m L) (hTI : L TI) (hopen : ¬ IsOpen E m TI) :
    lookupLayer E m TI st = none := by
  rw [isOpen_iff hm, not_not] at hopen
  have hst : st.matched[typeIdxHash E m TI.1 TI.2]? = none := by
    cases hst : st.matched[typeIdxHash E m TI.1 TI.2]? with
    | none => rfl
    | some FS1 =>
      obtain ⟨TI', hTI', hkey, hescape, _⟩ := h.matched _ FS1 hst
      have hpair := hapart TI' TI hTI' hTI hkey
      exact absurd ((escaped_congr hpair).mpr hopen) hescape
  unfold Escaped at hopen
  simp [lookupLayer, hst, hopen]

theorem count (h : Exact E m L row done st w) :
    Exact E m L row done { st with layerNo := st.layerNo + 1 }
      { w with layerNo := w.layerNo + 1 } :=
  { h with layerNo := by rw [h.layerNo] }

theorem narrow (h : Exact E m L row done st w) {st' : SearchState}
    (hl : LooksUp E m L TI st st') {cont cont' : Bool} (hcont : cont = cont') {prev prev' : TyPtr}
    (hprev : prev = prev') :
    Exact E m L row (done ++ [TI])
      { st' with
        FS := intersectFuncSets st'.FS1 st'.FS
        FS2 := intersectFuncSets st'.FS1 st'.FS
        CV := st'.nextV.getD st'.CV
        continueNextLayer := cont
        prevLayerTy := prev }
      { w with CV := w.nextV.getD w.CV, continueNextLayer := cont', prevLayerTy := prev' } := by
  have hsame := SameWalk.of_frame hl.frame
  have hfound : ∀ F, F ∈ intersectFuncSets st'.FS1 st'.FS ↔
      F ∈ row ∧ ∀ TI' ∈ done ++ [TI], LayerTarget E m TI' F := by
    intro F
    rw [mem_intersectFuncSets, hl.current, hsame.FS, h.found]
    simp only [List.mem_append, List.mem_singleton]
    constructor
    · intro hF
      refine ⟨hF.2.1, fun TI' hTI' => ?_⟩
      rcases hTI' with hTI' | rfl
      · exact hF.2.2 TI' hTI'
      · exact hF.1
    · intro hF
      exact ⟨hF.2 TI (Or.inr rfl), hF.1, fun TI' hTI' => hF.2 TI' (Or.inl hTI')⟩
  refine ⟨hprev, ?_, ?_, ?_, hcont, hfound, ?_, ?_, hl.matched⟩
  · show st'.nextV.getD st'.CV = w.nextV.getD w.CV
    rw [hsame.nextV, hsame.CV, h.nextV, h.CV]
  · exact hsame.nextV.trans h.nextV
  · exact hsame.layerNo.trans h.layerNo
  · intro F
    show F ∈ st'.FS1 ↔ _
    rw [hl.current]
    simp
  · intro F
    show F ∈ intersectFuncSets st'.FS1 st'.FS ↔ _
    simp

theorem layersLoop (h : Exact E m L row done st w) (hm : m.matchedFuncsMap = ∅)
    (hapart : Apart E m L) {tys : List TypeIdx} (htys : ∀ TI ∈ tys, L TI)
    (hclean : Clean E m row (done ++ (walkLayers E m tys w).1)) :
    Exact E m L row (done ++ (walkLayers E m tys w).1) (layersLoop E m tys st)
      (walkLayers E m tys w).2 := by
  induction tys generalizing done st w with
  | nil =>
    simp only [Mlta.layersLoop, walkLayers, List.append_nil]
    exact h
  | cons TI tys ih =>
    unfold Mlta.layersLoop
    unfold walkLayers at hclean ⊢
    rw [h.layerNo]
    by_cases hmax : maxTypeLayer ≤ w.layerNo
    · simp only [if_pos hmax, List.append_nil]
      exact h
    · simp only [if_neg hmax] at hclean ⊢
      have hcount := h.count
      rw [h.layerNo] at hcount
      have hTI := htys TI List.mem_cons_self
      by_cases hopen : IsOpen E m TI
      · simp only [if_pos hopen] at hclean ⊢
        have hleft : ∀ F, LeftOver E m row done TI F → LayerTarget E m TI F := by
          split_ifs at hclean
          · exact hclean done TI [] rfl
          · exact hclean done TI _ rfl
        obtain ⟨st', hst', hl⟩ := hcount.lookup hm hapart hTI hleft hopen
        have hsame := SameWalk.of_frame hl.frame
        have hprev : st'.prevLayerTy = w.prevLayerTy := hsame.prevLayerTy.trans h.prevLayerTy
        have hcont : st'.continueNextLayer = w.continueNextLayer :=
          hsame.continueNextLayer.trans h.continueNextLayer
        rw [hst']
        dsimp only
        by_cases hcap : typeHash E m TI.1 ∈ m.typeCapSet
        · simp only [if_pos hcap]
          exact hcount.narrow hl rfl hprev
        · simp only [if_neg hcap] at hclean ⊢
          have hnext := hcount.narrow hl hcont (rfl : TI.1 = TI.1)
          rw [List.append_cons] at hclean ⊢
          exact ih hnext (fun TI' hTI' => htys TI' (List.mem_cons_of_mem _ hTI')) hclean
      · rw [hcount.lookup_none hm hapart hTI hopen]
        simp only [if_neg hopen, List.append_nil]
        exact hcount

theorem searchLoop (h : Exact E m L row done st w) (hm : m.matchedFuncsMap = ∅)
    (hapart : Apart E m L) {C : ValPtr → Prop} (hC : E.Closed C)
    (hL : ∀ TI, LayerOf E m C TI → L TI) (hCV : C w.CV) (hnextV : ∀ O, w.nextV = some O → C O)
    (n : ℕ) (hclean : Clean E m row (done ++ walkSearch E m n w)) :
    (∀ F, F ∈ (searchLoop E m n st).FS ↔
      F ∈ row ∧ ∀ TI ∈ done ++ walkSearch E m n w, LayerTarget E m TI F) ∧
    CacheExact E m L (searchLoop E m n st).matched := by
  induction n generalizing done st w with
  | zero =>
    unfold Mlta.searchLoop walkSearch
    rw [List.append_nil]
    exact ⟨h.found, h.matched⟩
  | succ n ih =>
    unfold Mlta.searchLoop
    unfold walkSearch at hclean ⊢
    rw [h.continueNextLayer, h.layerNo, h.prevLayerTy, h.CV, h.nextV]
    dsimp only at hclean ⊢
    split_ifs at hclean ⊢ with hstop hempty
    · rw [List.append_nil]
      exact ⟨h.found, h.matched⟩
    · rw [List.append_nil]
      exact ⟨h.found, h.matched⟩
    · set r := (nextLayerBaseType E m (valueFuel E w.CV) w.CV { nextV := w.nextV }).2 with hr
      have hlocal : LocalLayers E m C r :=
        LocalLayers.nextLayerBaseType hC _ hCV ⟨by simp, hnextV⟩
      have hnext : Exact E m L row done
          { st with
            prevLayerTy := w.prevLayerTy
            CV := w.CV
            nextV := r.nextV
            layerNo := w.layerNo
            continueNextLayer := w.continueNextLayer }
          { w with nextV := r.nextV } :=
        { h with prevLayerTy := rfl, CV := rfl, nextV := rfl, layerNo := rfl,
                 continueNextLayer := rfl }
      rw [← List.append_assoc] at hclean ⊢
      have hlayers := hnext.layersLoop hm hapart (fun TI hTI => hL TI (hlocal.tyList TI hTI))
        hclean.of_append
      obtain ⟨hCV', hnextV'⟩ := walkLayers_within (E := E) (m := m) r.tyList
        (w := { w with nextV := r.nextV }) hCV hlocal.nextV
      exact ih hlayers hCV' hnextV' hclean

end Exact

/-- The search reads the cache through its own state only. -/
theorem searchLoop_matched (matched : SortedMap SizeT FuncSet) (n : ℕ) (st : SearchState) :
    searchLoop E { m with matchedFuncsMap := matched } n st = searchLoop E m n st := by
  have hlayers : ∀ (tys : List TypeIdx) (st : SearchState),
      layersLoop E { m with matchedFuncsMap := matched } tys st = layersLoop E m tys st := by
    intro tys
    induction tys with
    | nil => exact fun _ => rfl
    | cons TI tys ih =>
      intro st
      unfold layersLoop
      have hlookup : ∀ st, lookupLayer E { m with matchedFuncsMap := matched } TI st =
          lookupLayer E m TI st := fun _ => rfl
      simp only [hlookup, ih]
      rfl
  have hagree : Agree E (fun _ => True) m { m with matchedFuncsMap := matched } :=
    ⟨rfl, fun _ _ => rfl⟩
  have hclosed : E.Closed fun _ => True := fun _ _ _ _ => trivial
  induction n generalizing st with
  | zero => rfl
  | succ n ih =>
    unfold searchLoop
    simp only [hagree.nextLayerBaseType hclosed _ trivial, hlayers, ih]
    rfl

/-- With an exact cache a search finds the candidates that every layer it meets has as
targets, and leaves an exact cache. -/
theorem findCallees_exact (hm : m.matchedFuncsMap = ∅) (hapart : Apart E m L)
    {matched : SortedMap SizeT FuncSet} (hmatched : CacheExact E m L matched) {CI : ValPtr}
    (hL : ∀ TI, LayerOf E m (InModule CI.mod) TI → L TI) {sigFuncsMap : SortedMap SizeT FuncSet}
    (hclean : (sigFuncsMap.row (E.callHash CI)).isEmpty = false →
      Clean E m (sigFuncsMap.row (E.callHash CI)) (layersMet E m CI)) :
    (∀ F, F ∈ (findCalleesWithMLTA E { m with matchedFuncsMap := matched } sigFuncsMap CI).1 ↔
      F ∈ sigFuncsMap.row (E.callHash CI) ∧ ∀ TI ∈ layersMet E m CI, LayerTarget E m TI F) ∧
    CacheExact E m L
      (findCalleesWithMLTA E { m with matchedFuncsMap := matched } sigFuncsMap CI).2.matchedFuncsMap := by
  set row := sigFuncsMap.row (E.callHash CI) with hrow
  unfold findCalleesWithMLTA
  simp only [searchLoop_matched]
  rw [← hrow]
  cases hempty : row.isEmpty with
  | true =>
    refine ⟨fun F => ?_, hmatched⟩
    have hnot : F ∉ row := by
      rw [ExtTreeSet.isEmpty_iff.mp hempty]
      simp
    simp [hnot]
  | false =>
    have hclean' := hclean hempty
    unfold layersMet at hclean' ⊢
    cases hCV : (E.operands CI).getLast? with
    | none => exact ⟨fun F => by simp, hmatched⟩
    | some CV =>
      rw [hCV] at hclean'
      have hmod : CV.mod = CI.mod := E.mod_of_mem_operands (List.mem_of_getLast? hCV)
      have hstart : Exact E m L row []
          { FS := row
            prevLayerTy := E.callFunctionType CI
            CV := CV
            matched := matched }
          { prevLayerTy := E.callFunctionType CI, CV := CV } := by
        refine ⟨rfl, rfl, rfl, rfl, rfl, ?_, ?_, ?_, hmatched⟩
        · simp
        · simp
        · simp
      exact hstart.searchLoop hm hapart (E.closed_inModule CI.mod) hL hmod (by simp) maxTypeLayer
        hclean'

end Mlta

end Cisa

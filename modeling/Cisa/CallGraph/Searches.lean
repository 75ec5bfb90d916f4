import Cisa.CallGraph.Chains

/-!
# What a search finds

A search for the targets of an indirect call meets a list of layers. Which layers these
are depends on the values, the caps, the escapes and on what is cached, but not on the
functions found so far: `layersMet` walks over them alone. A function with the signature
of the call is found exactly when every layer that is met delivers it.
-/

namespace Cisa

open Std

namespace Mlta

variable (E : Env) (m : Mlta)

def pairOf (TI : TypeIdx) : HashIdx := ⟨typeHash E m TI.1, TI.2⟩

/-- The function is recorded for the pair; index `-1` stands for all fields. -/
def Recorded (p : HashIdx) (F : FuncPtr) : Prop :=
  F ∈ slot m.typeIdxFuncsMap p.hash p.idx ∨ F ∈ slot m.typeIdxFuncsMap p.hash (-1) ∨
    (p.idx = -1 ∧ ∃ i, F ∈ slot m.typeIdxFuncsMap p.hash i)

/-- The function is recorded for the layer, or for a pair that propagates to it. -/
def LayerTarget (TI : TypeIdx) (F : FuncPtr) : Prop :=
  Recorded m (pairOf E m TI) F ∨ ∃ p ∈ getDependentTypes E m TI.1 TI.2, Recorded m p F

/-- Index `-1` adds to the working set instead of replacing it. A layer has it, or the
first pair that propagates to the layer. -/
def keepsEarlier (TI : TypeIdx) : Bool :=
  TI.2 == -1 || (getDependentTypes E m TI.1 TI.2).toList.head?.any fun p => p.idx == -1

/-- Looking the layer up delivers the function, when the layers before it did; `first` says
that there are none. -/
def Delivers (first : Bool) (TI : TypeIdx) (F : FuncPtr) : Prop :=
  match m.matchedFuncsMap[typeIdxHash E m TI.1 TI.2]? with
  | some FS1 => F ∈ FS1
  | none => LayerTarget E m TI F ∨ (first = false ∧ keepsEarlier E m TI = true)

variable {E m}

theorem mem_slot_iff_getElem? {hash : SizeT} {i : ℤ} {F : FuncPtr} :
    F ∈ slot m.typeIdxFuncsMap hash i ↔
      ∃ FS, (m.typeIdxFuncsMap.getD hash ∅)[i]? = some FS ∧ F ∈ FS := by
  unfold slot ExtTreeMap.row
  rw [ExtTreeMap.getD_eq_getD_getElem? (a := i)]
  cases (m.typeIdxFuncsMap.getD hash ∅)[i]? <;> simp

theorem mem_getTargetsWithLayerType {p : HashIdx} {FS : FuncSet} {F : FuncPtr} :
    F ∈ getTargetsWithLayerType m p.hash p.idx FS ↔
      Recorded m p F ∨ (p.idx = -1 ∧ F ∈ FS) := by
  obtain ⟨hash, i⟩ := p
  unfold getTargetsWithLayerType Recorded
  dsimp only
  by_cases hi : i = -1
  · rw [if_pos hi, Fold.foldl_or (P := fun s : FuncSet => F ∈ s)
      (Q := fun r : ℤ × FuncSet => F ∈ r.2) (fun s r => ExtTreeSet.mem_union_iff)]
    have hfields : (∃ r ∈ (m.typeIdxFuncsMap.getD hash ∅).toList, F ∈ r.2) ↔
        ∃ i, F ∈ slot m.typeIdxFuncsMap hash i := by
      simp only [mem_slot_iff_getElem?]
      constructor
      · intro h
        obtain ⟨r, hr, hF⟩ := h
        exact ⟨r.1, r.2, ExtTreeMap.mem_toList_iff_getElem?_eq_some.mp hr, hF⟩
      · intro h
        obtain ⟨i', FS', hr, hF⟩ := h
        exact ⟨(i', FS'), ExtTreeMap.mem_toList_iff_getElem?_eq_some.mpr hr, hF⟩
    rw [hfields]
    simp only [hi, true_and]
    constructor
    · intro h
      rcases h with h | h
      · exact Or.inr h
      · exact Or.inl (Or.inr (Or.inr h))
    · intro h
      rcases h with (h | h | h) | h
      · exact Or.inr ⟨_, h⟩
      · exact Or.inr ⟨_, h⟩
      · exact Or.inr h
      · exact Or.inl h
  · simp [hi, ExtTreeSet.mem_union_iff]

theorem mem_foldl_getTargets {F : FuncPtr} (props : List HashIdx) (r : FuncSet × FuncSet) :
    F ∈ (props.foldl (fun r p =>
      let FS2 := getTargetsWithLayerType m p.hash p.idx r.2
      (r.1 ∪ FS2, FS2)) r).1 ↔
      F ∈ r.1 ∨ (∃ p ∈ props, Recorded m p F) ∨
        ((props.head?.any fun p => p.idx == -1) = true ∧ F ∈ r.2) := by
  induction props generalizing r with
  | nil => simp
  | cons p props ih =>
    rw [List.foldl_cons, ih]
    simp only [ExtTreeSet.mem_union_iff, mem_getTargetsWithLayerType, List.head?_cons,
      Option.any_some, beq_iff_eq, List.mem_cons, exists_eq_or_imp]
    constructor
    · intro h
      rcases h with (h | h | h) | h | h
      · exact Or.inl h
      · exact Or.inr (Or.inl (Or.inl h))
      · exact Or.inr (Or.inr h)
      · exact Or.inr (Or.inl (Or.inr h))
      · rcases h.2 with h | h
        · exact Or.inr (Or.inl (Or.inl h))
        · exact Or.inr (Or.inr h)
    · intro h
      rcases h with h | (h | h) | h
      · exact Or.inl (Or.inl h)
      · exact Or.inl (Or.inr (Or.inl h))
      · exact Or.inr (Or.inl h)
      · exact Or.inl (Or.inr (Or.inr h))

theorem mem_computeLayer {TI : TypeIdx} {st : SearchState} {F : FuncPtr} :
    F ∈ (computeLayer E m TI st).FS1 ↔ LayerTarget E m TI F ∨ (TI.2 = -1 ∧ F ∈ st.FS1) ∨
      (((getDependentTypes E m TI.1 TI.2).toList.head?.any fun p => p.idx == -1) = true ∧
        F ∈ st.FS2) := by
  have htargets : F ∈ getTargetsWithLayerType m (typeHash E m TI.1) TI.2 st.FS1 ↔
      Recorded m (pairOf E m TI) F ∨ (TI.2 = -1 ∧ F ∈ st.FS1) :=
    mem_getTargetsWithLayerType (p := pairOf E m TI)
  unfold computeLayer LayerTarget
  dsimp only
  rw [mem_foldl_getTargets]
  simp only [ExtTreeSet.mem_toList, htargets]
  exact or_or_or_comm

/-! ## The walk of a search -/

variable (E m)

/-- The variables of a search that do not hold functions. -/
structure WalkState where
  prevLayerTy : TyPtr
  CV : ValPtr
  nextV : Option ValPtr := none
  layerNo : ℕ := 1
  continueNextLayer : Bool := true

/-- A layer that is not cached is looked up unless it has escaped. -/
def IsOpen (TI : TypeIdx) : Prop :=
  typeIdxHash E m TI.1 TI.2 ∈ m.matchedFuncsMap ∨ ¬ (typeIdxHash E m TI.1 TI.2 ∈ m.typeEscapeSet ∨
    typeIdxHash E m TI.1 (-1) ∈ m.typeEscapeSet)

instance (TI : TypeIdx) : Decidable (IsOpen E m TI) :=
  inferInstanceAs (Decidable (_ ∨ ¬ (_ ∨ _)))

/-- The layers of one list that the loop over it looks up. -/
def walkLayers : List TypeIdx → WalkState → List TypeIdx × WalkState
  | [], st => ([], st)
  | TI :: rest, st =>
    if maxTypeLayer ≤ st.layerNo then ([], st)
    else if IsOpen E m TI then
      let st := { st with layerNo := st.layerNo + 1, CV := st.nextV.getD st.CV }
      if typeHash E m TI.1 ∈ m.typeCapSet then ([TI], { st with continueNextLayer := false })
      else
        let r := walkLayers rest { st with prevLayerTy := TI.1 }
        (TI :: r.1, r.2)
    else ([], { st with layerNo := st.layerNo + 1 })

/-- The layers that a search looks up, each walk starting with an empty visited set. -/
def walkSearch : ℕ → WalkState → List TypeIdx
  | 0, _ => []
  | n + 1, st =>
    if st.continueNextLayer = false ∨ maxTypeLayer ≤ st.layerNo ∨
        typeHash E m st.prevLayerTy ∈ m.typeCapSet then []
    else
      let r := (nextLayerBaseType E m (valueFuel E st.CV) st.CV { nextV := st.nextV }).2
      if r.tyList = [] then []
      else
        let w := walkLayers E m r.tyList { st with nextV := r.nextV }
        w.1 ++ walkSearch n w.2

/-- The layers that the search for the targets of a call looks up, in order. -/
def layersMet (CI : ValPtr) : List TypeIdx :=
  match (E.operands CI).getLast? with
  | some CV => walkSearch E m maxTypeLayer { prevLayerTy := E.callFunctionType CI, CV := CV }
  | none => []

/-- All layers of a list deliver the function; `first` says that none comes before them. -/
def AllDeliver (first : Bool) (tys : List TypeIdx) (F : FuncPtr) : Prop :=
  ∀ i TI, tys[i]? = some TI → Delivers E m (first && i == 0) TI F

/-- The hash of a layer determines the pair under which it is recorded. -/
def Apart (L : TypeIdx → Prop) : Prop :=
  ∀ TI TI', L TI → L TI' → typeIdxHash E m TI.1 TI.2 = typeIdxHash E m TI'.1 TI'.2 →
    pairOf E m TI = pairOf E m TI'

/-- The search for `F` has come to the same point as the walk, and has not lost `F`; `done`
are the layers that were looked up. -/
structure Follows (F : FuncPtr) (done : List TypeIdx) (st : SearchState) (w : WalkState) :
    Prop where
  prevLayerTy : st.prevLayerTy = w.prevLayerTy
  CV : st.CV = w.CV
  nextV : st.nextV = w.nextV
  layerNo : st.layerNo = w.layerNo
  continueNextLayer : st.continueNextLayer = w.continueNextLayer
  cached : ∀ (k : SizeT) (FS1 : FuncSet), m.matchedFuncsMap[k]? = some FS1 → st.matched[k]? = some FS1
  computed : ∀ (k : SizeT) (FS1 : FuncSet), st.matched[k]? = some FS1 → m.matchedFuncsMap[k]? = none →
    F ∈ FS1 ∧ ∃ TI ∈ done, typeIdxHash E m TI.1 TI.2 = k ∧ IsOpen E m TI ∧
      Delivers E m false TI F
  fresh : done = [] → F ∉ st.FS1 ∧ F ∉ st.FS2
  kept : done ≠ [] → F ∈ st.FS1 ∧ F ∈ st.FS2
  found : F ∈ st.FS

variable {E m}

section Pairs

variable {TI TI' : TypeIdx} {F : FuncPtr}

theorem getDependentTypes_congr (h : pairOf E m TI = pairOf E m TI') :
    getDependentTypes E m TI.1 TI.2 = getDependentTypes E m TI'.1 TI'.2 := by
  have hpair : (⟨typeHash E m TI.1, TI.2⟩ : HashIdx) = ⟨typeHash E m TI'.1, TI'.2⟩ := h
  unfold getDependentTypes
  simp only [hpair]

theorem typeIdxHash_congr (h : pairOf E m TI = pairOf E m TI') (i : ℤ) :
    typeIdxHash E m TI.1 i = typeIdxHash E m TI'.1 i := by
  have hhash : typeHash E m TI.1 = typeHash E m TI'.1 := congrArg HashIdx.hash h
  exact congrArg (fun hash => E.hashIdxHash hash i) hhash

theorem isOpen_congr (h : pairOf E m TI = pairOf E m TI') : IsOpen E m TI ↔ IsOpen E m TI' := by
  have hidx : TI.2 = TI'.2 := congrArg HashIdx.idx h
  unfold IsOpen
  rw [typeIdxHash_congr h, typeIdxHash_congr h, hidx]

theorem LayerTarget.congr (h : pairOf E m TI = pairOf E m TI') :
    LayerTarget E m TI F ↔ LayerTarget E m TI' F := by
  unfold LayerTarget
  rw [h, getDependentTypes_congr h]

theorem delivers_congr {first : Bool} (h : pairOf E m TI = pairOf E m TI') :
    Delivers E m first TI F ↔ Delivers E m first TI' F := by
  have hhash : typeIdxHash E m TI.1 TI.2 = typeIdxHash E m TI'.1 TI'.2 :=
    congrArg (fun p : HashIdx => E.hashIdxHash p.hash p.idx) h
  have hkeeps : keepsEarlier E m TI = keepsEarlier E m TI' := by
    have hidx : TI.2 = TI'.2 := congrArg HashIdx.idx h
    unfold keepsEarlier
    rw [getDependentTypes_congr h, hidx]
  unfold Delivers
  rw [hhash, LayerTarget.congr h, hkeeps]

theorem Delivers.later {first : Bool} (h : Delivers E m first TI F) : Delivers E m false TI F := by
  unfold Delivers at h ⊢
  split
  · rename_i FS1 hFS1
    simpa [hFS1] using h
  · rename_i hnone
    simp only [hnone] at h
    rcases h with h | h
    · exact Or.inl h
    · exact Or.inr ⟨rfl, h.2⟩

theorem allDeliver_nil {first : Bool} : AllDeliver E m first [] F := by
  intro i TI h
  simp at h

theorem allDeliver_cons {first : Bool} {tys : List TypeIdx} :
    AllDeliver E m first (TI :: tys) F ↔ Delivers E m first TI F ∧ AllDeliver E m false tys F := by
  constructor
  · intro h
    constructor
    · simpa using h 0 TI rfl
    · intro i TI' hTI'
      simpa using h (i + 1) TI' hTI'
  · intro h i TI' hTI'
    cases i with
    | zero =>
      obtain rfl : TI = TI' := by simpa using hTI'
      simpa using h.1
    | succ i => simpa using h.2 i TI' (by simpa using hTI')

theorem allDeliver_append {first : Bool} {tys tys' : List TypeIdx} :
    AllDeliver E m first (tys ++ tys') F ↔
      AllDeliver E m first tys F ∧ AllDeliver E m (first && tys.isEmpty) tys' F := by
  induction tys generalizing first with
  | nil => simp [allDeliver_nil]
  | cons TI tys ih => simp [allDeliver_cons, ih, and_assoc]

end Pairs

section Follow

variable {F : FuncPtr} {done : List TypeIdx} {st : SearchState} {w : WalkState} {TI : TypeIdx}

/-- A lookup leaves the walk and the set of functions as they were. -/
structure SameWalk (st st' : SearchState) : Prop where
  FS : st'.FS = st.FS
  CV : st'.CV = st.CV
  nextV : st'.nextV = st.nextV
  layerNo : st'.layerNo = st.layerNo
  prevLayerTy : st'.prevLayerTy = st.prevLayerTy
  continueNextLayer : st'.continueNextLayer = st.continueNextLayer

theorem SameWalk.of_frame {st st' : SearchState}
    (h : { st' with FS1 := st.FS1, FS2 := st.FS2, matched := st.matched } = st) :
    SameWalk st st' := by
  have hFS := congrArg SearchState.FS h
  have hCV := congrArg SearchState.CV h
  have hnextV := congrArg SearchState.nextV h
  have hlayerNo := congrArg SearchState.layerNo h
  have hprev := congrArg SearchState.prevLayerTy h
  have hcont := congrArg SearchState.continueNextLayer h
  exact ⟨hFS, hCV, hnextV, hlayerNo, hprev, hcont⟩

/-- What the lookup of an open layer leaves: the walk and the set of functions are as they
were, and the working set holds `F` exactly when the layer delivers it. -/
structure LooksUp (E : Env) (m : Mlta) (F : FuncPtr) (first : Bool) (TI : TypeIdx)
    (st st' : SearchState) : Prop where
  frame : { st' with FS1 := st.FS1, FS2 := st.FS2, matched := st.matched } = st
  delivers : F ∈ st'.FS1 ↔ Delivers E m first TI F
  matched : st'.matched = st.matched ∨
    (st.matched[typeIdxHash E m TI.1 TI.2]? = none ∧
      st'.matched = st.matched.insert (typeIdxHash E m TI.1 TI.2) st'.FS1)

theorem Follows.lookup (h : Follows E m F done st w) {L : TypeIdx → Prop} (hapart : Apart E m L)
    (hdone : ∀ TI ∈ done, L TI) (hTI : L TI) (hopen : IsOpen E m TI) :
    ∃ st', lookupLayer E m TI st = some st' ∧ LooksUp E m F done.isEmpty TI st st' := by
  set k := typeIdxHash E m TI.1 TI.2 with hk
  cases hst : st.matched[k]? with
  | some FS1 =>
    refine ⟨{ st with FS1 := FS1 }, by simp [lookupLayer, ← hk, hst], rfl, ?_, Or.inl rfl⟩
    cases hm : m.matchedFuncsMap[k]? with
    | some FS1' =>
      rw [h.cached k FS1' hm] at hst
      obtain rfl := Option.some.inj hst
      simp [Delivers, ← hk, hm]
    | none =>
      obtain ⟨hF, TI', hTI', hkey, _, hdel⟩ := h.computed k FS1 hst hm
      have hpair := hapart TI' TI (hdone TI' hTI') hTI hkey
      have hne : done.isEmpty = false := by
        cases done with
        | nil => simp at hTI'
        | cons _ _ => rfl
      rw [hne]
      simp [hF, (delivers_congr hpair).mp hdel]
  | none =>
    have hm : m.matchedFuncsMap[k]? = none := by
      cases hm : m.matchedFuncsMap[k]? with
      | none => rfl
      | some FS1 => rw [h.cached k FS1 hm] at hst; simp at hst
    have hescape : ¬ (k ∈ m.typeEscapeSet ∨ typeIdxHash E m TI.1 (-1) ∈ m.typeEscapeSet) := by
      rcases hopen with hmem | hescape
      · rw [ExtTreeMap.mem_iff_isSome_getElem?, hm] at hmem
        simp at hmem
      · exact hescape
    refine ⟨computeLayer E m TI st, by simp [lookupLayer, ← hk, hst, hescape], rfl, ?_,
      Or.inr ⟨hst, rfl⟩⟩
    rw [mem_computeLayer]
    simp only [Delivers, ← hk, hm, keepsEarlier, Bool.or_eq_true, beq_iff_eq]
    cases done with
    | nil =>
      obtain ⟨hFS1, hFS2⟩ := h.fresh rfl
      simp [hFS1, hFS2]
    | cons TI' done =>
      obtain ⟨hFS1, hFS2⟩ := h.kept (by simp)
      simp [hFS1, hFS2]

theorem Follows.lookup_none (h : Follows E m F done st w) {L : TypeIdx → Prop}
    (hapart : Apart E m L) (hdone : ∀ TI ∈ done, L TI) (hTI : L TI) (hopen : ¬ IsOpen E m TI) :
    lookupLayer E m TI st = none := by
  simp only [IsOpen, not_or] at hopen
  obtain ⟨hmem, hescape⟩ := hopen
  have hst : st.matched[typeIdxHash E m TI.1 TI.2]? = none := by
    cases hst : st.matched[typeIdxHash E m TI.1 TI.2]? with
    | none => rfl
    | some FS1 =>
      have hm : m.matchedFuncsMap[typeIdxHash E m TI.1 TI.2]? = none := by
        simpa using hmem
      obtain ⟨_, TI', hTI', hkey, hopen', _⟩ := h.computed _ FS1 hst hm
      have hpair := hapart TI' TI (hdone TI' hTI') hTI hkey
      exact absurd ((isOpen_congr hpair).mp hopen') (by simp [IsOpen, hmem, hescape])
  simp [lookupLayer, hst, hescape]

theorem Follows.count (h : Follows E m F done st w) :
    Follows E m F done { st with layerNo := st.layerNo + 1 }
      { w with layerNo := w.layerNo + 1 } :=
  { h with layerNo := by rw [h.layerNo] }

theorem Follows.narrow (h : Follows E m F done st w) {st' : SearchState}
    (hl : LooksUp E m F done.isEmpty TI st st') (hopen : IsOpen E m TI)
    (hdel : Delivers E m done.isEmpty TI F) {cont cont' : Bool} (hcont : cont = cont')
    {prev prev' : TyPtr} (hprev : prev = prev') :
    Follows E m F (done ++ [TI])
      { st' with
        FS := intersectFuncSets st'.FS1 st'.FS
        FS2 := intersectFuncSets st'.FS1 st'.FS
        CV := st'.nextV.getD st'.CV
        continueNextLayer := cont
        prevLayerTy := prev }
      { w with CV := w.nextV.getD w.CV, continueNextLayer := cont', prevLayerTy := prev' } := by
  have hFS1 : F ∈ st'.FS1 := hl.delivers.mpr hdel
  have hsame := SameWalk.of_frame hl.frame
  have hmem : F ∈ intersectFuncSets st'.FS1 st'.FS := by
    rw [mem_intersectFuncSets, hsame.FS]
    exact ⟨hFS1, h.found⟩
  refine ⟨hprev, ?_, ?_, ?_, hcont, ?_, ?_, ?_, ?_, hmem⟩
  · show st'.nextV.getD st'.CV = w.nextV.getD w.CV
    rw [hsame.nextV, hsame.CV, h.nextV, h.CV]
  · exact hsame.nextV.trans h.nextV
  · exact hsame.layerNo.trans h.layerNo
  · intro k FS1 hk
    have hst := h.cached k FS1 hk
    show st'.matched[k]? = some FS1
    rcases hl.matched with hm | ⟨hnone, hm⟩
    · rw [hm, hst]
    · have hne : typeIdxHash E m TI.1 TI.2 ≠ k := by
        intro heq
        rw [← heq, hnone] at hst
        simp at hst
      rw [hm, ExtTreeMap.getElem?_insert_eq_ite, if_neg hne, hst]
  · intro k FS1 hk hnone
    have hold : st.matched[k]? = some FS1 → F ∈ FS1 ∧ ∃ TI' ∈ done ++ [TI],
        typeIdxHash E m TI'.1 TI'.2 = k ∧ IsOpen E m TI' ∧ Delivers E m false TI' F := by
      intro hst
      obtain ⟨hF, TI', hTI', hrest⟩ := h.computed k FS1 hst hnone
      exact ⟨hF, TI', List.mem_append_left _ hTI', hrest⟩
    change st'.matched[k]? = some FS1 at hk
    rcases hl.matched with hm | ⟨_, hm⟩
    · exact hold (hm ▸ hk)
    · rw [hm, ExtTreeMap.getElem?_insert_eq_ite] at hk
      split_ifs at hk with heq
      · rw [← Option.some.inj hk]
        exact ⟨hFS1, TI, by simp, heq, hopen, hdel.later⟩
      · exact hold hk
  · intro hnil
    simp at hnil
  · intro _
    exact ⟨hFS1, hmem⟩

/-- The loop over the layers of one list: `F` stays exactly when every layer that the walk
meets delivers it. -/
theorem Follows.layersLoop (h : Follows E m F done st w) {L : TypeIdx → Prop}
    (hapart : Apart E m L) (hdone : ∀ TI ∈ done, L TI) {tys : List TypeIdx}
    (htys : ∀ TI ∈ tys, L TI) :
    (F ∈ (layersLoop E m tys st).FS ↔ AllDeliver E m done.isEmpty (walkLayers E m tys w).1 F) ∧
      (F ∈ (layersLoop E m tys st).FS → Follows E m F (done ++ (walkLayers E m tys w).1)
        (layersLoop E m tys st) (walkLayers E m tys w).2) := by
  induction tys generalizing done st w with
  | nil =>
    simp only [Mlta.layersLoop, walkLayers, List.append_nil]
    exact ⟨⟨fun _ => allDeliver_nil, fun _ => h.found⟩, fun _ => h⟩
  | cons TI tys ih =>
    unfold Mlta.layersLoop walkLayers
    rw [h.layerNo]
    by_cases hmax : maxTypeLayer ≤ w.layerNo
    · simp only [if_pos hmax, List.append_nil]
      exact ⟨⟨fun _ => allDeliver_nil, fun _ => h.found⟩, fun _ => h⟩
    · simp only [if_neg hmax]
      have hcount := h.count
      rw [h.layerNo] at hcount
      have hTI := htys TI List.mem_cons_self
      by_cases hopen : IsOpen E m TI
      · obtain ⟨st', hst', hl⟩ := hcount.lookup hapart hdone hTI hopen
        have hsame := SameWalk.of_frame hl.frame
        have hprev : st'.prevLayerTy = w.prevLayerTy := hsame.prevLayerTy.trans h.prevLayerTy
        have hcont : st'.continueNextLayer = w.continueNextLayer :=
          hsame.continueNextLayer.trans h.continueNextLayer
        rw [hst', if_pos hopen]
        dsimp only
        by_cases hcap : typeHash E m TI.1 ∈ m.typeCapSet
        · simp only [if_pos hcap, allDeliver_cons, allDeliver_nil, and_true]
          rw [mem_intersectFuncSets, hl.delivers]
          constructor
          · rw [show st'.FS = st.FS from hsame.FS]
            exact ⟨fun hF => hF.1, fun hdel => ⟨hdel, h.found⟩⟩
          · intro hF
            exact hcount.narrow hl hopen hF.1 rfl hprev
        · simp only [if_neg hcap, allDeliver_cons]
          by_cases hdel : Delivers E m done.isEmpty TI F
          · have hnext := hcount.narrow hl hopen hdel hcont (rfl : TI.1 = TI.1)
            have hdone' : ∀ TI' ∈ done ++ [TI], L TI' :=
              List.forall_mem_append.mpr ⟨hdone, List.forall_mem_singleton.mpr hTI⟩
            obtain ⟨hiff, hfollows⟩ := ih hnext hdone'
              fun TI' hTI' => htys TI' (List.mem_cons_of_mem _ hTI')
            have hlater : (done ++ [TI]).isEmpty = false := by simp
            rw [hlater] at hiff
            constructor
            · rw [and_iff_right hdel]
              exact hiff
            · intro hF
              have hdone' := hfollows hF
              rwa [List.append_assoc] at hdone'
          · have hlost : F ∉ (Mlta.layersLoop E m tys
                { st' with
                  FS := intersectFuncSets st'.FS1 st'.FS
                  FS2 := intersectFuncSets st'.FS1 st'.FS
                  CV := st'.nextV.getD st'.CV
                  prevLayerTy := TI.1 }).FS := by
              intro hF
              have hFS1 := (mem_intersectFuncSets.mp (layersLoop_subset E m _ _ hF)).1
              exact hdel (hl.delivers.mp hFS1)
            exact ⟨iff_of_false hlost fun hall => hdel hall.1, fun hF => absurd hF hlost⟩
      · rw [hcount.lookup_none hapart hdone hTI hopen, if_neg hopen]
        simp only [List.append_nil]
        exact ⟨⟨fun _ => allDeliver_nil, fun _ => hcount.found⟩, fun _ => hcount⟩

theorem mem_walkLayers {tys : List TypeIdx} {w : WalkState} (h : TI ∈ (walkLayers E m tys w).1) :
    TI ∈ tys := by
  induction tys generalizing w with
  | nil => exact h
  | cons TI' tys ih =>
    unfold walkLayers at h
    split_ifs at h
    · simp at h
    · rw [List.mem_singleton.mp h]
      exact List.mem_cons_self
    · rcases List.mem_cons.mp h with rfl | h
      · exact List.mem_cons_self
      · exact List.mem_cons_of_mem _ (ih h)
    · simp at h

theorem walkLayers_within {C : ValPtr → Prop} (tys : List TypeIdx) {w : WalkState} (hCV : C w.CV)
    (hnextV : ∀ O, w.nextV = some O → C O) :
    C (walkLayers E m tys w).2.CV ∧ ∀ O, (walkLayers E m tys w).2.nextV = some O → C O := by
  induction tys generalizing w with
  | nil => exact ⟨hCV, hnextV⟩
  | cons TI tys ih =>
    have hget : C (w.nextV.getD w.CV) := by
      cases hV : w.nextV with
      | none => exact hCV
      | some O => exact hnextV O hV
    unfold walkLayers
    split_ifs
    · exact ⟨hCV, hnextV⟩
    · exact ⟨hget, hnextV⟩
    · exact ih hget hnextV
    · exact ⟨hCV, hnextV⟩

theorem Follows.searchLoop (h : Follows E m F done st w) {C : ValPtr → Prop}
    (hC : E.Closed C) (hapart : Apart E m (LayerOf E m C)) (hdone : ∀ TI ∈ done, LayerOf E m C TI)
    (hCV : C w.CV) (hnextV : ∀ O, w.nextV = some O → C O) (n : ℕ) :
    F ∈ (searchLoop E m n st).FS ↔ AllDeliver E m done.isEmpty (walkSearch E m n w) F := by
  induction n generalizing done st w with
  | zero => exact iff_of_true h.found allDeliver_nil
  | succ n ih =>
    have hfound : ∀ {first}, F ∈ st.FS ↔ AllDeliver E m first [] F :=
      iff_of_true h.found allDeliver_nil
    unfold Mlta.searchLoop walkSearch
    rw [h.continueNextLayer, h.layerNo, h.prevLayerTy, h.CV, h.nextV]
    split_ifs with hstop
    · exact hfound
    · dsimp only
      set r := (nextLayerBaseType E m (valueFuel E w.CV) w.CV { nextV := w.nextV }).2 with hr
      have hlocal : LocalLayers E m C r :=
        LocalLayers.nextLayerBaseType hC _ hCV ⟨by simp, hnextV⟩
      split_ifs with hempty
      · exact hfound
      · have hnext : Follows E m F done
            { st with
              prevLayerTy := w.prevLayerTy
              CV := w.CV
              nextV := r.nextV
              layerNo := w.layerNo
              continueNextLayer := w.continueNextLayer }
            { w with nextV := r.nextV } :=
          { h with prevLayerTy := rfl, CV := rfl, nextV := rfl, layerNo := rfl,
                   continueNextLayer := rfl }
        obtain ⟨hiff, hfollows⟩ := hnext.layersLoop hapart hdone hlocal.tyList
        rw [allDeliver_append, ← hiff]
        by_cases hF : F ∈ (Mlta.layersLoop E m r.tyList
            { st with
              prevLayerTy := w.prevLayerTy
              CV := w.CV
              nextV := r.nextV
              layerNo := w.layerNo
              continueNextLayer := w.continueNextLayer }).FS
        · have hnew := hfollows hF
          obtain ⟨hCV', hnextV'⟩ := walkLayers_within (E := E) (m := m) r.tyList
            (w := { w with nextV := r.nextV }) hCV hlocal.nextV
          have hdone' : ∀ TI ∈ done ++ (walkLayers E m r.tyList { w with nextV := r.nextV }).1,
              LayerOf E m C TI := by
            intro TI hTI
            rcases List.mem_append.mp hTI with hTI | hTI
            · exact hdone TI hTI
            · exact hlocal.tyList TI (mem_walkLayers hTI)
          have hnil : ∀ tys : List TypeIdx,
              (done ++ tys).isEmpty = (done.isEmpty && tys.isEmpty) := by
            intro tys
            cases done <;> simp
          rw [ih hnew hdone' hCV' hnextV', hnil, and_iff_right hF]
        · refine iff_of_false (fun hlast => hF (searchLoop_subset E m n _ hlast)) ?_
          exact fun hall => hF hall.1

end Follow

/-- A search finds a function with the signature of the call exactly when every layer that
it meets delivers the function. -/
theorem mem_findCalleesWithMLTA {CI : ValPtr} (hapart : Apart E m (LayerOf E m (InModule CI.mod)))
    {sigFuncsMap : SortedMap SizeT FuncSet} {F : FuncPtr}
    (hF : F ∈ sigFuncsMap.row (E.callHash CI)) :
    F ∈ (findCalleesWithMLTA E m sigFuncsMap CI).1 ↔ AllDeliver E m true (layersMet E m CI) F := by
  have hne : (sigFuncsMap.row (E.callHash CI)).isEmpty = false :=
    ExtTreeSet.isEmpty_eq_false_iff_exists.mpr ⟨F, hF⟩
  unfold findCalleesWithMLTA layersMet
  dsimp only
  rw [hne]
  cases hCV : (E.operands CI).getLast? with
  | none => exact iff_of_true hF allDeliver_nil
  | some CV =>
    have hmod : CV.mod = CI.mod := E.mod_of_mem_operands (List.mem_of_getLast? hCV)
    have hfollows : Follows E m F []
        { FS := sigFuncsMap.row (E.callHash CI)
          prevLayerTy := E.callFunctionType CI
          CV := CV
          matched := m.matchedFuncsMap }
        { prevLayerTy := E.callFunctionType CI, CV := CV } := by
      refine ⟨rfl, rfl, rfl, rfl, rfl, fun k FS1 hk => hk, ?_, ?_, ?_, hF⟩
      · intro k FS1 hk hnone
        simp [hnone] at hk
      · simp
      · simp
    exact hfollows.searchLoop (E.closed_inModule CI.mod) hapart (by simp) hmod (by simp) maxTypeLayer

theorem layerOf_walkSearch {C : ValPtr → Prop} (hC : E.Closed C) (n : ℕ) {w : WalkState}
    (hCV : C w.CV) (hnextV : ∀ O, w.nextV = some O → C O) :
    ∀ TI ∈ walkSearch E m n w, LayerOf E m C TI := by
  induction n generalizing w with
  | zero => simp [walkSearch]
  | succ n ih =>
    have hstart : LocalLayers E m C { nextV := w.nextV } := ⟨by simp, hnextV⟩
    have hlocal := hstart.nextLayerBaseType hC (valueFuel E w.CV) hCV
    unfold walkSearch
    dsimp only
    split_ifs
    · simp
    · simp
    · intro TI hTI
      rcases List.mem_append.mp hTI with hTI | hTI
      · exact hlocal.tyList TI (mem_walkLayers hTI)
      · have hnext := walkLayers_within (E := E) (m := m)
          (nextLayerBaseType E m (valueFuel E w.CV) w.CV { nextV := w.nextV }).2.tyList
          (w := { w with
            nextV := (nextLayerBaseType E m (valueFuel E w.CV) w.CV { nextV := w.nextV }).2.nextV })
          hCV hlocal.nextV
        exact ih hnext.1 hnext.2 TI hTI

theorem layerOf_layersMet {CI : ValPtr} {TI : TypeIdx} (h : TI ∈ layersMet E m CI) :
    LayerOf E m (InModule CI.mod) TI := by
  unfold layersMet at h
  split at h
  · rename_i CV hCV
    have hmod : CV.mod = CI.mod := E.mod_of_mem_operands (List.mem_of_getLast? hCV)
    exact layerOf_walkSearch (E.closed_inModule CI.mod) maxTypeLayer
      (w := { prevLayerTy := E.callFunctionType CI, CV := CV }) hmod (by simp) TI h
  · simp at h

/-! ## The cache -/

section Cache

variable {L : TypeIdx → Prop}

/-- Every cached set holds all targets of a layer that has its hash. -/
def CacheComplete (E : Env) (m : Mlta) (L : TypeIdx → Prop) (matched : SortedMap SizeT FuncSet) :
    Prop :=
  ∀ (k : SizeT) (FS1 : FuncSet), matched[k]? = some FS1 →
    ∃ TI, L TI ∧ typeIdxHash E m TI.1 TI.2 = k ∧ ∀ F, LayerTarget E m TI F → F ∈ FS1

theorem CacheComplete.lookupLayer {st st' : SearchState} (h : CacheComplete E m L st.matched)
    {TI : TypeIdx} (hTI : L TI) (hst : lookupLayer E m TI st = some st') :
    CacheComplete E m L st'.matched ∧ st'.CV = st.CV ∧ st'.nextV = st.nextV := by
  unfold Mlta.lookupLayer at hst
  dsimp only at hst
  split at hst
  · rw [← Option.some.inj hst]
    exact ⟨h, rfl, rfl⟩
  · split_ifs at hst
    rw [← Option.some.inj hst]
    refine ⟨?_, rfl, rfl⟩
    intro k FS1 hk
    change (st.matched.insert _ (computeLayer E m TI st).FS1)[k]? = some FS1 at hk
    rw [ExtTreeMap.getElem?_insert_eq_ite] at hk
    split_ifs at hk with heq
    · refine ⟨TI, hTI, heq, fun F hF => ?_⟩
      rw [← Option.some.inj hk, mem_computeLayer]
      exact Or.inl hF
    · exact h k FS1 hk

/-- The values a search has come to are of the set, and its cache is complete. -/
structure LocalSearch (E : Env) (m : Mlta) (C : ValPtr → Prop) (L : TypeIdx → Prop)
    (st : SearchState) : Prop where
  CV : C st.CV
  nextV : ∀ O, st.nextV = some O → C O
  matched : CacheComplete E m L st.matched

variable {C : ValPtr → Prop}

theorem LocalSearch.layersLoop {st : SearchState} (h : LocalSearch E m C L st) {tys : List TypeIdx}
    (htys : ∀ TI ∈ tys, L TI) : LocalSearch E m C L (layersLoop E m tys st) := by
  induction tys generalizing st with
  | nil => exact h
  | cons TI tys ih =>
    unfold Mlta.layersLoop
    split
    · exact h
    · split
      · exact ⟨h.CV, h.nextV, h.matched⟩
      · rename_i st' hst'
        have hcounted : CacheComplete E m L
            ({ st with layerNo := st.layerNo + 1 } : SearchState).matched := h.matched
        obtain ⟨hmatched, hCV, hnextV⟩ := hcounted.lookupLayer (htys TI List.mem_cons_self) hst'
        have hget : C (st'.nextV.getD st'.CV) := by
          rw [hCV, hnextV]
          cases hV : st.nextV with
          | none => exact h.CV
          | some O => exact h.nextV O hV
        have hnext : ∀ O, st'.nextV = some O → C O := by
          rw [hnextV]
          exact h.nextV
        dsimp only
        split_ifs
        · exact ⟨hget, hnext, hmatched⟩
        · exact ih ⟨hget, hnext, hmatched⟩ fun TI' hTI' => htys TI' (List.mem_cons_of_mem _ hTI')

theorem LocalSearch.searchLoop {st : SearchState} (h : LocalSearch E m C L st) (hC : E.Closed C)
    (hL : ∀ TI, LayerOf E m C TI → L TI) (n : ℕ) :
    LocalSearch E m C L (searchLoop E m n st) := by
  induction n generalizing st with
  | zero => exact h
  | succ n ih =>
    have hstart : LocalLayers E m C { nextV := st.nextV } := ⟨by simp, h.nextV⟩
    have hlocal := hstart.nextLayerBaseType hC (valueFuel E st.CV) h.CV
    unfold Mlta.searchLoop
    dsimp only
    split_ifs
    · exact h
    · exact ⟨h.CV, hlocal.nextV, h.matched⟩
    · apply ih
      apply LocalSearch.layersLoop
      · exact ⟨h.CV, hlocal.nextV, h.matched⟩
      · exact fun TI hTI => hL TI (hlocal.tyList TI hTI)

theorem CacheComplete.findCalleesWithMLTA (h : CacheComplete E m L m.matchedFuncsMap)
    {CI : ValPtr} (hL : ∀ TI, LayerOf E m (InModule CI.mod) TI → L TI)
    (sigFuncsMap : SortedMap SizeT FuncSet) :
    CacheComplete E m L (findCalleesWithMLTA E m sigFuncsMap CI).2.matchedFuncsMap := by
  unfold Mlta.findCalleesWithMLTA
  dsimp only
  split
  · rename_i CV hne hCV
    have hmod : CV.mod = CI.mod := E.mod_of_mem_operands (List.mem_of_getLast? hCV)
    exact (LocalSearch.searchLoop ⟨hmod, by simp, h⟩ (E.closed_inModule CI.mod) hL _).matched
  · exact h

/-- What a layer holds in a complete cache is delivered, whatever was searched before. -/
theorem CacheComplete.delivers (h : CacheComplete E m L m.matchedFuncsMap) (hapart : Apart E m L)
    {TI : TypeIdx} (hTI : L TI) {F : FuncPtr} (hF : LayerTarget E m TI F) (first : Bool) :
    Delivers E m first TI F := by
  unfold Delivers
  split
  · rename_i FS1 hFS1
    obtain ⟨TI', hTI', hkey, hall⟩ := h _ FS1 hFS1
    exact hall F ((LayerTarget.congr (hapart TI' TI hTI' hTI hkey)).mpr hF)
  · exact Or.inl hF

end Cache

end Mlta

end Cisa

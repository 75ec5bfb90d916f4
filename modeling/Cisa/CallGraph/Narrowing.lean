import Cisa.CallGraph.FirstWalk

/-!
# A search as a walk and a narrowing

Which layers a search looks up is decided by the values, the caps and the escapes, and by
which layers have been cached; what they hold decides only which functions are left. So a
search is a walk, which lists the layers it comes to, and a fold over those that are looked
up. Nothing is assumed of the hashes here: two layers with one hash share their cache entry.
-/

namespace Cisa

open Std

namespace Mlta

variable (E : Env) (m : Mlta)

/-- The sets of a search: what is left, the two working sets and the cache. -/
structure LayerSets where
  FS : FuncSet
  FS1 : FuncSet := ∅
  FS2 : FuncSet := ∅
  matched : SortedMap SizeT FuncSet

def SearchState.sets (st : SearchState) : LayerSets := ⟨st.FS, st.FS1, st.FS2, st.matched⟩

/-- The working sets after the targets of a layer have been collected. -/
def collected (s : LayerSets) (TI : TypeIdx) : FuncSet × FuncSet :=
  (getDependentTypes E m TI.1 TI.2).toList.foldl (fun r p =>
    let FS2 := getTargetsWithLayerType m p.hash p.idx r.2
    (r.1 ∪ FS2, FS2)) (getTargetsWithLayerType m (typeHash E m TI.1) TI.2 s.FS1, s.FS2)

def layerHash (TI : TypeIdx) : SizeT := typeIdxHash E m TI.1 TI.2

/-- A layer is looked up and what is left is intersected with it. -/
def narrow (s : LayerSets) (TI : TypeIdx) : LayerSets :=
  match s.matched[layerHash E m TI]? with
  | some FS1 => ⟨intersectFuncSets FS1 s.FS, FS1, intersectFuncSets FS1 s.FS, s.matched⟩
  | none =>
    let FS1 := (collected E m s TI).1
    ⟨intersectFuncSets FS1 s.FS, FS1, intersectFuncSets FS1 s.FS,
      s.matched.insert (layerHash E m TI) FS1⟩

/-- The sets of a search that starts with the functions `row`. -/
def startSets (row : FuncSet) : LayerSets := { FS := row, matched := m.matchedFuncsMap }

/-- What a search has after it has looked up the layers `done`. -/
def narrowed (row : FuncSet) (done : List TypeIdx) : LayerSets :=
  done.foldl (narrow E m) (startSets m row)

/-- The lookup of a layer after the layers `done` keeps a function that they have kept. -/
def DeliversAfter (done : List TypeIdx) (TI : TypeIdx) (F : FuncPtr) : Prop :=
  match m.matchedFuncsMap[layerHash E m TI]? with
  | some FS1 => F ∈ FS1
  | none => layerHash E m TI ∈ done.map (layerHash E m) ∨ LayerTarget E m TI F ∨
      (done ≠ [] ∧ keepsEarlier E m TI = true)

/-- Every layer of the list keeps the function, the layers `done` being looked up first. -/
def AllDeliverAfter (done : List TypeIdx) (tys : List TypeIdx) (F : FuncPtr) : Prop :=
  ∀ pre TI post, tys = pre ++ TI :: post → DeliversAfter E m (done ++ pre) TI F

variable {E m} {row : FuncSet} {done : List TypeIdx} {TI : TypeIdx} {F : FuncPtr}

@[simp] theorem narrowed_nil : narrowed E m row [] = startSets m row := rfl

theorem narrowed_concat :
    narrowed E m row (done ++ [TI]) = narrow E m (narrowed E m row done) TI := by
  simp [narrowed]

theorem mem_FS_narrow {s : LayerSets} :
    F ∈ (narrow E m s TI).FS ↔ F ∈ (narrow E m s TI).FS1 ∧ F ∈ s.FS := by
  unfold narrow
  split <;> simp

theorem FS2_narrow (s : LayerSets) : (narrow E m s TI).FS2 = (narrow E m s TI).FS := by
  unfold narrow
  split <;> rfl

theorem mem_collected {s : LayerSets} : F ∈ (collected E m s TI).1 ↔
    LayerTarget E m TI F ∨ (TI.2 = -1 ∧ F ∈ s.FS1) ∨
      (((getDependentTypes E m TI.1 TI.2).toList.head?.any fun p => p.idx == -1) = true ∧
        F ∈ s.FS2) := by
  have htargets : F ∈ getTargetsWithLayerType m (typeHash E m TI.1) TI.2 s.FS1 ↔
      Recorded m (pairOf E m TI) F ∨ (TI.2 = -1 ∧ F ∈ s.FS1) :=
    mem_getTargetsWithLayerType (p := pairOf E m TI)
  unfold collected LayerTarget
  rw [mem_foldl_getTargets]
  simp only [ExtTreeSet.mem_toList, htargets]
  exact or_or_or_comm

/-- The cache after the layers `done`: what was cached before, and an entry for each of
them. -/
theorem mem_matched_narrowed (k : SizeT) :
    k ∈ (narrowed E m row done).matched ↔
      k ∈ m.matchedFuncsMap ∨ k ∈ done.map (layerHash E m) := by
  induction done using List.reverseRecOn with
  | nil => simp [startSets]
  | append_singleton done TI ih =>
    rw [narrowed_concat, List.map_append, List.mem_append, ← or_assoc, ← ih]
    unfold narrow
    split
    · rename_i FS1 hFS1
      have hkey : layerHash E m TI ∈ (narrowed E m row done).matched := by
        rw [ExtTreeMap.mem_iff_isSome_getElem?, hFS1]
        rfl
      simp only [List.map_cons, List.map_nil, List.mem_singleton]
      constructor
      · exact Or.inl
      · intro h
        rcases h with h | rfl
        · exact h
        · exact hkey
    · simp only [ExtTreeMap.mem_insert, LawfulEqCmp.compare_eq_iff_eq, List.map_cons, List.map_nil,
        List.mem_singleton]
      rw [or_comm, eq_comm]

theorem matched_narrowed {k : SizeT} {FS1 : FuncSet} (h : m.matchedFuncsMap[k]? = some FS1) :
    (narrowed E m row done).matched[k]? = some FS1 := by
  induction done using List.reverseRecOn with
  | nil => exact h
  | append_singleton done TI ih =>
    rw [narrowed_concat]
    unfold narrow
    split
    · exact ih
    · rename_i hnone
      have hne : layerHash E m TI ≠ k := by
        intro heq
        rw [heq, ih] at hnone
        simp at hnone
      rw [ExtTreeMap.getElem?_insert_eq_ite, if_neg hne]
      exact ih

/-- A function that is left is in the working sets and in the entries made on the way. -/
structure Holds (E : Env) (m : Mlta) (done : List TypeIdx) (s : LayerSets) (F : FuncPtr) :
    Prop where
  fresh : done = [] → F ∉ s.FS1 ∧ F ∉ s.FS2
  kept : done ≠ [] → F ∈ s.FS1 ∧ F ∈ s.FS2
  entries : ∀ (k : SizeT) (FS1 : FuncSet), s.matched[k]? = some FS1 → m.matchedFuncsMap[k]? = none →
    F ∈ FS1

theorem mem_narrow_FS1 (h : Holds E m done (narrowed E m row done) F) :
    F ∈ (narrow E m (narrowed E m row done) TI).FS1 ↔ DeliversAfter E m done TI F := by
  have hkey : layerHash E m TI ∈ (narrowed E m row done).matched ↔
      layerHash E m TI ∈ m.matchedFuncsMap ∨ layerHash E m TI ∈ done.map (layerHash E m) :=
    mem_matched_narrowed _
  unfold DeliversAfter narrow
  cases hcached : m.matchedFuncsMap[layerHash E m TI]? with
  | some FS1 => simp [matched_narrowed hcached]
  | none =>
    have hnot : layerHash E m TI ∉ m.matchedFuncsMap := by simpa using hcached
    rw [or_iff_right hnot] at hkey
    cases hst : (narrowed E m row done).matched[layerHash E m TI]? with
    | some FS1 =>
      have hmem : layerHash E m TI ∈ done.map (layerHash E m) := by
        rw [← hkey, ExtTreeMap.mem_iff_isSome_getElem?, hst]
        rfl
      exact iff_of_true (h.entries _ _ hst hcached) (Or.inl hmem)
    | none =>
      have hnew : layerHash E m TI ∉ done.map (layerHash E m) := by
        rw [← hkey]
        simpa using hst
      dsimp only
      rw [mem_collected, or_iff_right hnew, keepsEarlier, Bool.or_eq_true, beq_iff_eq]
      rcases eq_or_ne done [] with hnil | hne
      · obtain ⟨hFS1, hFS2⟩ := h.fresh hnil
        have hlater : ¬ (done ≠ [] ∧ (TI.2 = -1 ∨
            ((getDependentTypes E m TI.1 TI.2).toList.head?.any fun p => p.idx == -1) = true)) :=
          fun hlater => hlater.1 hnil
        simp only [hFS1, hFS2, and_false, or_false, hlater]
      · obtain ⟨hFS1, hFS2⟩ := h.kept hne
        simp [hFS1, hFS2, hne]

theorem holds_narrowed (h : F ∈ (narrowed E m row done).FS) :
    Holds E m done (narrowed E m row done) F := by
  induction done using List.reverseRecOn with
  | nil =>
    refine ⟨fun _ => by simp [startSets], fun hne => absurd rfl hne, ?_⟩
    intro k FS1 hk hnone
    rw [show (narrowed E m row []).matched = m.matchedFuncsMap from rfl, hnone] at hk
    simp at hk
  | append_singleton done TI ih =>
    rw [narrowed_concat] at h ⊢
    obtain ⟨hFS1, hFS⟩ := mem_FS_narrow.mp h
    refine ⟨by simp, fun _ => ⟨hFS1, by rwa [FS2_narrow]⟩, ?_⟩
    intro k FS1 hk hnone
    have hold := (ih hFS).entries k FS1
    unfold narrow at hk hFS1
    split at hk
    · exact hold hk hnone
    · rename_i hnew
      rw [hnew] at hFS1
      rw [ExtTreeMap.getElem?_insert_eq_ite] at hk
      split_ifs at hk
      · rw [← Option.some.inj hk]
        exact hFS1
      · exact hold hk hnone

theorem allDeliverAfter_concat {tys : List TypeIdx} :
    AllDeliverAfter E m done (tys ++ [TI]) F ↔
      AllDeliverAfter E m done tys F ∧ DeliversAfter E m (done ++ tys) TI F := by
  constructor
  · intro h
    constructor
    · intro pre TI' post heq
      exact h pre TI' (post ++ [TI]) (by rw [heq, List.append_assoc, List.cons_append])
    · exact h tys TI [] rfl
  · intro h pre TI' post heq
    rcases List.eq_nil_or_concat post with rfl | ⟨post, last, rfl⟩
    · obtain ⟨rfl, hlast⟩ := List.append_inj' heq rfl
      obtain rfl := (List.cons.inj hlast).1
      exact h.2
    · rw [List.concat_eq_append, ← List.cons_append, ← List.append_assoc] at heq
      obtain ⟨rfl, _⟩ := List.append_inj' heq rfl
      exact h.1 pre TI' post rfl

theorem mem_narrowed (tys : List TypeIdx) : F ∈ (narrowed E m row (done ++ tys)).FS ↔
    F ∈ (narrowed E m row done).FS ∧ AllDeliverAfter E m done tys F := by
  induction tys using List.reverseRecOn with
  | nil => simp [AllDeliverAfter]
  | append_singleton tys TI ih =>
    rw [← List.append_assoc, narrowed_concat, mem_FS_narrow, allDeliverAfter_concat, ← and_assoc,
      ← ih, and_comm]
    apply and_congr_right
    intro hF
    exact mem_narrow_FS1 (holds_narrowed hF)

variable (E m)

structure LayerVisit where
  layer : TypeIdx
  lookedUp : Bool
deriving DecidableEq, Repr

def lookedUpLayers (visits : List LayerVisit) : List TypeIdx :=
  (visits.filter fun v => v.lookedUp).map fun v => v.layer

/-- A layer is looked up if it is cached, before the search or by it, or has not escaped. -/
def IsOpenAfter (done : List TypeIdx) (TI : TypeIdx) : Prop :=
  layerHash E m TI ∈ m.matchedFuncsMap ∨ layerHash E m TI ∈ done.map (layerHash E m) ∨
    ¬ (typeIdxHash E m TI.1 TI.2 ∈ m.typeEscapeSet ∨ typeIdxHash E m TI.1 (-1) ∈ m.typeEscapeSet)

instance (done : List TypeIdx) (TI : TypeIdx) : Decidable (IsOpenAfter E m done TI) :=
  inferInstanceAs (Decidable (_ ∨ _ ∨ ¬ (_ ∨ _)))

/-- The layers of one list that the loop over it comes to, after the layers `done`. -/
def visitLayers : List TypeIdx → List TypeIdx → WalkState → List LayerVisit × WalkState
  | _, [], w => ([], w)
  | done, TI :: rest, w =>
    if maxTypeLayer ≤ w.layerNo then ([], w)
    else if IsOpenAfter E m done TI then
      let w := { w with layerNo := w.layerNo + 1, CV := w.nextV.getD w.CV }
      if typeHash E m TI.1 ∈ m.typeCapSet then ([⟨TI, true⟩], { w with continueNextLayer := false })
      else
        let r := visitLayers (done ++ [TI]) rest { w with prevLayerTy := TI.1 }
        (⟨TI, true⟩ :: r.1, r.2)
    else ([⟨TI, false⟩], { w with layerNo := w.layerNo + 1 })

/-- The layers that a search comes to, after the layers `done`. -/
def visitSearch : ℕ → List TypeIdx → WalkState → List LayerVisit
  | 0, _, _ => []
  | n + 1, done, w =>
    if w.continueNextLayer = false ∨ maxTypeLayer ≤ w.layerNo ∨
        typeHash E m w.prevLayerTy ∈ m.typeCapSet then []
    else
      let r := (nextLayerBaseType E m (valueFuel E w.CV) w.CV { nextV := w.nextV }).2
      if r.tyList = [] then []
      else
        let v := visitLayers E m done r.tyList { w with nextV := r.nextV }
        v.1 ++ visitSearch n (done ++ lookedUpLayers v.1) v.2

/-- The layers that the search for the targets of a call comes to, in order. -/
def layerVisits (CI : ValPtr) : List LayerVisit :=
  match (E.operands CI).getLast? with
  | some CV => visitSearch E m maxTypeLayer [] { prevLayerTy := E.callFunctionType CI, CV := CV }
  | none => []

/-- The search has come to the same point as the walk, with the layers `done` looked up. -/
structure At (row : FuncSet) (done : List TypeIdx) (st : SearchState) (w : WalkState) : Prop where
  prevLayerTy : st.prevLayerTy = w.prevLayerTy
  CV : st.CV = w.CV
  nextV : st.nextV = w.nextV
  layerNo : st.layerNo = w.layerNo
  continueNextLayer : st.continueNextLayer = w.continueNextLayer
  sets : st.sets = narrowed E m row done

variable {E m} {st : SearchState} {w : WalkState}

@[simp] theorem lookedUpLayers_nil : lookedUpLayers [] = [] := rfl

@[simp] theorem lookedUpLayers_cons_true (visits : List LayerVisit) :
    lookedUpLayers (⟨TI, true⟩ :: visits) = TI :: lookedUpLayers visits := rfl

@[simp] theorem lookedUpLayers_cons_false (visits : List LayerVisit) :
    lookedUpLayers (⟨TI, false⟩ :: visits) = lookedUpLayers visits := rfl

@[simp] theorem lookedUpLayers_append (visits visits' : List LayerVisit) :
    lookedUpLayers (visits ++ visits') = lookedUpLayers visits ++ lookedUpLayers visits' := by
  simp [lookedUpLayers]

namespace At

theorem lookup (h : At E m row done st w) (hopen : IsOpenAfter E m done TI) :
    ∃ st', lookupLayer E m TI st = some st' ∧ st'.prevLayerTy = st.prevLayerTy ∧ st'.CV = st.CV ∧
      st'.nextV = st.nextV ∧ st'.layerNo = st.layerNo ∧
      st'.continueNextLayer = st.continueNextLayer ∧
      (⟨intersectFuncSets st'.FS1 st'.FS, st'.FS1, intersectFuncSets st'.FS1 st'.FS, st'.matched⟩ :
        LayerSets) = narrowed E m row (done ++ [TI]) := by
  have hkey : layerHash E m TI ∈ (narrowed E m row done).matched ↔
      layerHash E m TI ∈ m.matchedFuncsMap ∨ layerHash E m TI ∈ done.map (layerHash E m) :=
    mem_matched_narrowed _
  rw [← h.sets] at hkey
  rw [narrowed_concat, ← h.sets]
  unfold narrow
  cases hst : st.matched[layerHash E m TI]? with
  | some FS1 =>
    refine ⟨{ st with FS1 := FS1 }, ?_, rfl, rfl, rfl, rfl, rfl, ?_⟩
    · unfold layerHash at hst
      simp [lookupLayer, hst]
    · rw [show st.sets.matched = st.matched from rfl, hst]
      rfl
  | none =>
    have hnot : layerHash E m TI ∉ st.sets.matched := by
      change layerHash E m TI ∉ st.matched
      simpa using hst
    rw [hkey, not_or] at hnot
    have hescape := (hopen.resolve_left hnot.1).resolve_left hnot.2
    refine ⟨computeLayer E m TI st, ?_, rfl, rfl, rfl, rfl, rfl, ?_⟩
    · unfold layerHash at hst
      simp [lookupLayer, hst, hescape]
    · rw [show st.sets.matched = st.matched from rfl, hst]
      rfl

theorem lookup_none (h : At E m row done st w) (hopen : ¬ IsOpenAfter E m done TI) :
    lookupLayer E m TI st = none := by
  have hkey : layerHash E m TI ∈ (narrowed E m row done).matched ↔
      layerHash E m TI ∈ m.matchedFuncsMap ∨ layerHash E m TI ∈ done.map (layerHash E m) :=
    mem_matched_narrowed _
  rw [← h.sets] at hkey
  unfold IsOpenAfter at hopen
  rw [← or_assoc, not_or, not_not, ← hkey] at hopen
  have hst : st.matched[typeIdxHash E m TI.1 TI.2]? = none := by
    simpa [layerHash, SearchState.sets] using hopen.1
  simp [lookupLayer, hst, hopen.2]

theorem layersLoop (h : At E m row done st w) (tys : List TypeIdx) :
    At E m row (done ++ lookedUpLayers (visitLayers E m done tys w).1) (layersLoop E m tys st)
      (visitLayers E m done tys w).2 := by
  induction tys generalizing done st w with
  | nil =>
    simp only [Mlta.layersLoop, visitLayers, lookedUpLayers_nil, List.append_nil]
    exact h
  | cons TI tys ih =>
    have hcount : At E m row done { st with layerNo := st.layerNo + 1 }
        { w with layerNo := w.layerNo + 1 } := { h with layerNo := by rw [h.layerNo] }
    unfold Mlta.layersLoop visitLayers
    rw [h.layerNo] at hcount ⊢
    by_cases hmax : maxTypeLayer ≤ w.layerNo
    · simp only [if_pos hmax, lookedUpLayers_nil, List.append_nil]
      exact h
    · simp only [if_neg hmax]
      by_cases hopen : IsOpenAfter E m done TI
      · obtain ⟨st', hst', hprev, hCV, hnextV, hlayerNo, hcont, hsets⟩ := hcount.lookup hopen
        rw [hst']
        simp only [if_pos hopen]
        have hget : st'.nextV.getD st'.CV = w.nextV.getD w.CV := by
          rw [hnextV, hCV]
          exact congrArg₂ Option.getD h.nextV h.CV
        by_cases hcap : typeHash E m TI.1 ∈ m.typeCapSet
        · simp only [if_pos hcap, lookedUpLayers_cons_true, lookedUpLayers_nil]
          exact ⟨hprev.trans h.prevLayerTy, hget, hnextV.trans h.nextV, hlayerNo, rfl, hsets⟩
        · simp only [if_neg hcap, lookedUpLayers_cons_true]
          rw [List.append_cons]
          apply ih
          exact ⟨rfl, hget, hnextV.trans h.nextV, hlayerNo, hcont.trans h.continueNextLayer, hsets⟩
      · rw [hcount.lookup_none hopen]
        simp only [if_neg hopen, lookedUpLayers_cons_false, lookedUpLayers_nil, List.append_nil]
        exact hcount

theorem searchLoop (h : At E m row done st w) (n : ℕ) :
    (searchLoop E m n st).sets =
      narrowed E m row (done ++ lookedUpLayers (visitSearch E m n done w)) := by
  induction n generalizing done st w with
  | zero =>
    simp only [Mlta.searchLoop, visitSearch, lookedUpLayers_nil, List.append_nil]
    exact h.sets
  | succ n ih =>
    unfold Mlta.searchLoop visitSearch
    rw [h.continueNextLayer, h.layerNo, h.prevLayerTy, h.CV, h.nextV]
    split_ifs with hstop
    · rw [lookedUpLayers_nil, List.append_nil]
      exact h.sets
    · dsimp only
      set r := (nextLayerBaseType E m (valueFuel E w.CV) w.CV { nextV := w.nextV }).2 with hr
      split_ifs with hempty
      · rw [lookedUpLayers_nil, List.append_nil]
        exact h.sets
      · have hnext : At E m row done
            { st with
              prevLayerTy := w.prevLayerTy
              CV := w.CV
              nextV := r.nextV
              layerNo := w.layerNo
              continueNextLayer := w.continueNextLayer }
            { w with nextV := r.nextV } := ⟨rfl, rfl, rfl, rfl, rfl, h.sets⟩
        rw [lookedUpLayers_append, ← List.append_assoc]
        exact ih (hnext.layersLoop r.tyList)

end At

/-- A search leaves what the layers that it looks up leave of the functions with the signature
of the call. -/
theorem findCalleesWithMLTA_eq {CI : ValPtr} {sigFuncsMap : SortedMap SizeT FuncSet}
    (hrow : (sigFuncsMap.row (E.callHash CI)).isEmpty = false) :
    findCalleesWithMLTA E m sigFuncsMap CI =
      ((narrowed E m (sigFuncsMap.row (E.callHash CI)) (lookedUpLayers (layerVisits E m CI))).FS,
        { m with matchedFuncsMap := (narrowed E m (sigFuncsMap.row (E.callHash CI))
          (lookedUpLayers (layerVisits E m CI))).matched }) := by
  unfold findCalleesWithMLTA layerVisits
  dsimp only
  rw [hrow]
  cases (E.operands CI).getLast? with
  | none => rfl
  | some CV =>
    have hstart : At E m (sigFuncsMap.row (E.callHash CI)) []
        { FS := sigFuncsMap.row (E.callHash CI)
          prevLayerTy := E.callFunctionType CI
          CV := CV
          matched := m.matchedFuncsMap }
        { prevLayerTy := E.callFunctionType CI, CV := CV } := ⟨rfl, rfl, rfl, rfl, rfl, rfl⟩
    have hsets := hstart.searchLoop maxTypeLayer
    rw [List.nil_append] at hsets
    dsimp only
    rw [← hsets]
    rfl

/-- A search finds a function with the signature of the call exactly when every layer that it
looks up keeps the function. -/
theorem mem_findCallees_iff {CI : ValPtr} {sigFuncsMap : SortedMap SizeT FuncSet} :
    F ∈ (findCalleesWithMLTA E m sigFuncsMap CI).1 ↔ F ∈ sigFuncsMap.row (E.callHash CI) ∧
      AllDeliverAfter E m [] (lookedUpLayers (layerVisits E m CI)) F := by
  cases hrow : (sigFuncsMap.row (E.callHash CI)).isEmpty with
  | true =>
    have hnot : F ∉ sigFuncsMap.row (E.callHash CI) := by
      rw [ExtTreeSet.isEmpty_iff.mp hrow]
      simp
    exact iff_of_false (fun h => hnot (findCalleesWithMLTA_subset E m h)) fun h => hnot h.1
  | false =>
    have hmem : F ∈ (narrowed E m (sigFuncsMap.row (E.callHash CI))
        ([] ++ lookedUpLayers (layerVisits E m CI))).FS ↔
        F ∈ (narrowed E m (sigFuncsMap.row (E.callHash CI)) []).FS ∧
          AllDeliverAfter E m [] (lookedUpLayers (layerVisits E m CI)) F := mem_narrowed _
    rw [findCalleesWithMLTA_eq hrow]
    exact hmem

end Mlta

end Cisa

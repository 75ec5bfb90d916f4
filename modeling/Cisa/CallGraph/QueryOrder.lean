import Cisa.CallGraph.ExactSearches
import Cisa.CallGraph.SetDefinition

/-!
# Sequences of queries

The cache keeps the working set of the search that has looked a layer up first. As long as
no search caches for a layer what its layers before have left over, every entry holds the
targets of its layer, and it makes no difference which queries were answered before.
-/

namespace Cisa

open Std

namespace Mlta

variable (E : Env) (m : Mlta) (sigFuncsMap : SortedMap SizeT FuncSet)

def afterQueries (calls : List ValPtr) : Mlta :=
  calls.foldl (fun m CI => (findCalleesWithMLTA E m sigFuncsMap CI).2) m

/-- The layer is one that the search for one of the calls comes to. -/
def Occurs (calls : List ValPtr) (TI : TypeIdx) : Prop :=
  ∃ CI ∈ calls, ∃ v ∈ layerVisits E m CI, v.layer = TI

/-- What is left over when a layer is looked up and not cached yet is a target of the layer. -/
def CleanQuery (CI : ValPtr) : Prop :=
  (sigFuncsMap.row (E.callHash CI)).isEmpty = false →
    ∀ pre TI post, lookedUpLayers (layerVisits E m CI) = pre ++ TI :: post →
      layerHash E m TI ∉ m.matchedFuncsMap → layerHash E m TI ∉ pre.map (layerHash E m) →
        ∀ F, LeftOver E m (sigFuncsMap.row (E.callHash CI)) pre TI F → LayerTarget E m TI F

/-- The tables with another cache. -/
abbrev withCache (cache : SortedMap SizeT FuncSet) : Mlta := { m with matchedFuncsMap := cache }

variable {E m sigFuncsMap} {L : TypeIdx → Prop} {cache : SortedMap SizeT FuncSet}
  {row : FuncSet} {done tys : List TypeIdx} {w : WalkState} {TI : TypeIdx}

theorem isOpenAfter_exact (hapart : Apart E m L) (hcache : CacheExact E m L cache)
    (hdone : ∀ TI ∈ done, L TI ∧ ¬ Escaped E m TI) (hTI : L TI) :
    IsOpenAfter E (withCache m cache) done TI ↔ ¬ Escaped E m TI := by
  constructor
  · intro h
    rcases h with h | h | h
    · obtain ⟨FS1, hFS1⟩ := Option.isSome_iff_exists.mp (ExtTreeMap.mem_iff_isSome_getElem?.mp h)
      obtain ⟨TI', hTI', hkey, hescape, _⟩ := hcache _ FS1 hFS1
      rwa [← escaped_congr (hapart TI' TI hTI' hTI hkey)]
    · obtain ⟨TI', hTI', hkey⟩ := List.mem_map.mp h
      obtain ⟨hL, hescape⟩ := hdone TI' hTI'
      rwa [← escaped_congr (hapart TI' TI hL hTI hkey)]
    · exact h
  · exact fun h => Or.inr (Or.inr h)

theorem cacheExact_empty : CacheExact E m L ∅ := by
  intro k FS1 hk
  simp at hk

theorem withCache_eq (h : m.matchedFuncsMap = cache) : withCache m cache = m := by
  subst h
  rfl

/-- An exact cache does not change which layers of a list are looked up. -/
theorem visitLayers_exact (hapart : Apart E m L) (hm : m.matchedFuncsMap = ∅)
    (hcache : CacheExact E m L cache) (hdone : ∀ TI ∈ done, L TI ∧ ¬ Escaped E m TI)
    (hL : ∀ v ∈ (visitLayers E m done tys w).1, L v.layer) :
    visitLayers E (withCache m cache) done tys w = visitLayers E m done tys w ∧
      ∀ TI ∈ lookedUpLayers (visitLayers E m done tys w).1, L TI ∧ ¬ Escaped E m TI := by
  induction tys generalizing done w with
  | nil => exact ⟨rfl, by simp [visitLayers]⟩
  | cons TI tys ih =>
    unfold visitLayers at hL ⊢
    by_cases hmax : maxTypeLayer ≤ w.layerNo
    · simp [if_pos hmax]
    · simp only [if_neg hmax] at hL ⊢
      have hTI : L TI := by
        split_ifs at hL
        · exact hL ⟨TI, true⟩ (by simp)
        · exact hL ⟨TI, true⟩ (by simp)
        · exact hL ⟨TI, false⟩ (by simp)
      have hopen := isOpenAfter_exact hapart hcache hdone hTI
      have hopen' : IsOpenAfter E m done TI ↔ ¬ Escaped E m TI := by
        have h := isOpenAfter_exact hapart cacheExact_empty hdone hTI
        rwa [withCache_eq hm] at h
      by_cases hescape : Escaped E m TI
      · rw [if_neg (by rw [hopen, not_not]; exact hescape),
          if_neg (by rw [hopen', not_not]; exact hescape)]
        simp
      · rw [if_pos (hopen'.mpr hescape)] at hL
        rw [if_pos (hopen.mpr hescape), if_pos (hopen'.mpr hescape)]
        by_cases hcap : typeHash E m TI.1 ∈ m.typeCapSet
        · refine ⟨(if_pos hcap).trans (if_pos hcap).symm, ?_⟩
          intro TI' hTI'
          obtain rfl : TI' = TI := by simpa [hcap] using hTI'
          exact ⟨hTI, hescape⟩
        · simp only [if_neg hcap] at hL
          have hdone' : ∀ TI' ∈ done ++ [TI], L TI' ∧ ¬ Escaped E m TI' := by
            intro TI' hTI'
            rcases List.mem_append.mp hTI' with hTI' | hTI'
            · exact hdone TI' hTI'
            · rw [List.mem_singleton.mp hTI']
              exact ⟨hTI, hescape⟩
          obtain ⟨hsame, hrest⟩ := ih hdone' fun v hv => hL v (List.mem_cons_of_mem _ hv)
          constructor
          · refine (if_neg hcap).trans (Eq.trans ?_ (if_neg hcap).symm)
            rw [hsame]
          · intro TI' hTI'
            simp only [if_neg hcap, lookedUpLayers_cons_true] at hTI'
            rcases List.mem_cons.mp hTI' with rfl | hTI'
            · exact ⟨hTI, hescape⟩
            · exact hrest TI' hTI'

theorem visitSearch_exact (hapart : Apart E m L) (hm : m.matchedFuncsMap = ∅)
    (hcache : CacheExact E m L cache) (n : ℕ) (hdone : ∀ TI ∈ done, L TI ∧ ¬ Escaped E m TI)
    (hL : ∀ v ∈ visitSearch E m n done w, L v.layer) :
    visitSearch E (withCache m cache) n done w = visitSearch E m n done w ∧
      ∀ TI ∈ lookedUpLayers (visitSearch E m n done w), L TI ∧ ¬ Escaped E m TI := by
  have hagree : Agree E (fun _ => True) m (withCache m cache) := ⟨rfl, fun _ _ => rfl⟩
  have hclosed : E.Closed fun _ => True := fun _ _ _ _ => trivial
  induction n generalizing done w with
  | zero => exact ⟨rfl, by simp [visitSearch]⟩
  | succ n ih =>
    unfold visitSearch at hL ⊢
    rw [hagree.nextLayerBaseType hclosed _ trivial]
    by_cases hstop : w.continueNextLayer = false ∨ maxTypeLayer ≤ w.layerNo ∨
        typeHash E m w.prevLayerTy ∈ m.typeCapSet
    · refine ⟨(if_pos hstop).trans (if_pos hstop).symm, ?_⟩
      simp [if_pos hstop]
    · by_cases hempty :
          (nextLayerBaseType E m (valueFuel E w.CV) w.CV { nextV := w.nextV }).2.tyList = []
      · refine ⟨(if_neg hstop).trans ((if_pos hempty).trans ?_), ?_⟩
        · simp [hempty]
        · simp [hempty]
      · simp only [if_neg hstop, if_neg hempty] at hL
        obtain ⟨hsame, hlayers⟩ := visitLayers_exact hapart hm hcache hdone
          fun v hv => hL v (List.mem_append_left _ hv)
        have hdone' : ∀ TI ∈ done ++ lookedUpLayers (visitLayers E m done
            (nextLayerBaseType E m (valueFuel E w.CV) w.CV { nextV := w.nextV }).2.tyList
            { w with nextV := (nextLayerBaseType E m (valueFuel E w.CV) w.CV
              { nextV := w.nextV }).2.nextV }).1, L TI ∧ ¬ Escaped E m TI := by
          intro TI hTI
          rcases List.mem_append.mp hTI with hTI | hTI
          · exact hdone TI hTI
          · exact hlayers TI hTI
        obtain ⟨hsame', hlayers'⟩ := ih hdone' fun v hv => hL v (List.mem_append_right _ hv)
        simp only [if_neg hstop, if_neg hempty]
        constructor
        · refine (if_neg hstop).trans ?_
          rw [hsame, hsame']
        · intro TI hTI
          rw [lookedUpLayers_append] at hTI
          rcases List.mem_append.mp hTI with hTI | hTI
          · exact hlayers TI hTI
          · exact hlayers' TI hTI

theorem layerVisits_exact (hapart : Apart E m L) (hm : m.matchedFuncsMap = ∅)
    (hcache : CacheExact E m L cache) {CI : ValPtr} (hL : ∀ v ∈ layerVisits E m CI, L v.layer) :
    layerVisits E (withCache m cache) CI = layerVisits E m CI ∧
      ∀ TI ∈ lookedUpLayers (layerVisits E m CI), L TI ∧ ¬ Escaped E m TI := by
  unfold layerVisits at hL ⊢
  cases hCV : (E.operands CI).getLast? with
  | none => exact ⟨rfl, by simp⟩
  | some CV =>
    rw [hCV] at hL
    exact visitSearch_exact hapart hm hcache maxTypeLayer (by simp) hL

/-- With an exact cache, and nothing left over that is not a target, the sets are those that
the targets determine, and the cache stays exact. -/
structure ExactSets (E : Env) (m : Mlta) (L : TypeIdx → Prop) (row : FuncSet) (done : List TypeIdx)
    (s : LayerSets) : Prop where
  found : ∀ F, F ∈ s.FS ↔ F ∈ row ∧ ∀ TI ∈ done, LayerTarget E m TI F
  current : ∀ F, F ∈ s.FS1 ↔ ∃ TI, done.getLast? = some TI ∧ LayerTarget E m TI F
  leftover : ∀ F, F ∈ s.FS2 ↔ done ≠ [] ∧ F ∈ s.FS
  matched : CacheExact E m L s.matched

theorem ExactSets.narrow {s : LayerSets} (h : ExactSets E m L row done s) (hapart : Apart E m L)
    (hTI : L TI) (hescape : ¬ Escaped E m TI)
    (hclean : layerHash E m TI ∉ s.matched → ∀ F, LeftOver E m row done TI F → LayerTarget E m TI F) :
    ExactSets E m L row (done ++ [TI]) (narrow E m s TI) := by
  have htargets : ∀ F, F ∈ (Mlta.narrow E m s TI).FS1 ↔ LayerTarget E m TI F := by
    intro F
    unfold Mlta.narrow
    cases hst : s.matched[layerHash E m TI]? with
    | some FS1 =>
      obtain ⟨TI', hTI', hkey, _, hFS1⟩ := h.matched _ FS1 hst
      exact (hFS1 F).trans (LayerTarget.congr (hapart TI' TI hTI' hTI hkey))
    | none =>
      have hleft := hclean (by simpa using hst) F
      dsimp only
      rw [mem_collected, h.current, h.leftover, h.found]
      constructor
      · intro hF
        rcases hF with hF | ⟨hidx, hF⟩ | ⟨hhead, hne, hrow, hall⟩
        · exact hF
        · exact hleft (Or.inl ⟨hidx, hF⟩)
        · exact hleft (Or.inr ⟨hhead, hne, hrow, hall⟩)
      · exact Or.inl
  constructor
  · intro F
    rw [mem_FS_narrow, htargets, h.found]
    simp only [List.mem_append, List.mem_singleton]
    constructor
    · intro hF
      refine ⟨hF.2.1, fun TI' hTI' => ?_⟩
      rcases hTI' with hTI' | rfl
      · exact hF.2.2 TI' hTI'
      · exact hF.1
    · intro hF
      exact ⟨hF.2 TI (Or.inr rfl), hF.1, fun TI' hTI' => hF.2 TI' (Or.inl hTI')⟩
  · intro F
    rw [htargets]
    simp
  · intro F
    rw [FS2_narrow]
    simp
  · intro k FS1 hk
    have hcached := htargets
    unfold Mlta.narrow at hk hcached
    cases hst : s.matched[layerHash E m TI]? with
    | some FS =>
      rw [hst] at hk
      exact h.matched k FS1 hk
    | none =>
      rw [hst] at hk hcached
      dsimp only at hk hcached
      rw [ExtTreeMap.getElem?_insert_eq_ite] at hk
      split_ifs at hk with heq
      · rw [← Option.some.inj hk]
        exact ⟨TI, hTI, heq, hescape, hcached⟩
      · exact h.matched k FS1 hk

theorem exactSets_narrowed (hapart : Apart E m L) (hcache : CacheExact E m L cache)
    (hdone : ∀ TI ∈ done, L TI ∧ ¬ Escaped E m TI)
    (hclean : ∀ pre TI post, done = pre ++ TI :: post → layerHash E m TI ∉ cache →
      layerHash E m TI ∉ pre.map (layerHash E m) →
        ∀ F, LeftOver E m row pre TI F → LayerTarget E m TI F) :
    ExactSets E m L row done (narrowed E (withCache m cache) row done) := by
  induction done using List.reverseRecOn with
  | nil =>
    refine ⟨fun F => ?_, fun F => ?_, fun F => ?_, hcache⟩
    · simp [startSets]
    · simp [startSets]
    · simp [startSets]
  | append_singleton done TI ih =>
    have hprev := ih (fun TI' hTI' => hdone TI' (List.mem_append_left _ hTI'))
      (fun pre TI' post heq => hclean pre TI' (post ++ [TI])
        (by rw [heq, List.append_assoc, List.cons_append]))
    obtain ⟨hTI, hescape⟩ := hdone TI (by simp)
    rw [narrowed_concat]
    apply hprev.narrow hapart hTI hescape
    intro hnew
    have hkeys : layerHash E m TI ∈ (narrowed E (withCache m cache) row done).matched ↔
        layerHash E m TI ∈ cache ∨ layerHash E m TI ∈ done.map (layerHash E m) :=
      mem_matched_narrowed _
    rw [hkeys, not_or] at hnew
    exact hclean done TI [] rfl hnew.1 hnew.2

/-- A clean query with an exact cache finds the candidates that are targets of every layer
looked up, and leaves an exact cache. -/
theorem query_exact (hapart : Apart E m L) (hm : m.matchedFuncsMap = ∅)
    (hcache : CacheExact E m L cache) {CI : ValPtr} (hL : ∀ v ∈ layerVisits E m CI, L v.layer)
    (hclean : CleanQuery E (withCache m cache) sigFuncsMap CI) :
    (∀ F, F ∈ (findCalleesWithMLTA E (withCache m cache) sigFuncsMap CI).1 ↔
      F ∈ sigFuncsMap.row (E.callHash CI) ∧
        ∀ TI ∈ lookedUpLayers (layerVisits E m CI), LayerTarget E m TI F) ∧
    ∃ cache', CacheExact E m L cache' ∧
      (findCalleesWithMLTA E (withCache m cache) sigFuncsMap CI).2 = withCache m cache' := by
  obtain ⟨hvisits, hdone⟩ := layerVisits_exact hapart hm hcache hL
  cases hrow : (sigFuncsMap.row (E.callHash CI)).isEmpty with
  | true =>
    have hnone : findCalleesWithMLTA E (withCache m cache) sigFuncsMap CI =
        (sigFuncsMap.row (E.callHash CI), withCache m cache) := by
      unfold findCalleesWithMLTA
      dsimp only
      rw [hrow]
    rw [hnone]
    refine ⟨fun F => ?_, cache, hcache, rfl⟩
    have hnot : F ∉ sigFuncsMap.row (E.callHash CI) := by
      rw [ExtTreeSet.isEmpty_iff.mp hrow]
      simp
    simp [hnot]
  | false =>
    have hclean' := hclean hrow
    rw [hvisits] at hclean'
    have hsets := exactSets_narrowed hapart hcache hdone hclean'
    rw [findCalleesWithMLTA_eq hrow, hvisits]
    exact ⟨hsets.found, _, hsets.matched, rfl⟩

theorem afterQueries_exact (hapart : Apart E m L) (hm : m.matchedFuncsMap = ∅) {calls : List ValPtr}
    (hL : ∀ CI ∈ calls, ∀ v ∈ layerVisits E m CI, L v.layer)
    (hclean : ∀ pre CI post, calls = pre ++ CI :: post →
      CleanQuery E (afterQueries E m sigFuncsMap pre) sigFuncsMap CI) :
    ∃ cache, CacheExact E m L cache ∧ afterQueries E m sigFuncsMap calls = withCache m cache := by
  induction calls using List.reverseRecOn with
  | nil => exact ⟨∅, cacheExact_empty, (withCache_eq hm).symm⟩
  | append_singleton calls CI ih =>
    obtain ⟨cache, hcache, hstate⟩ := ih (fun CI' hCI' => hL CI' (List.mem_append_left _ hCI'))
      (fun pre CI' post heq => hclean pre CI' (post ++ [CI])
        (by rw [heq, List.append_assoc, List.cons_append]))
    have hquery := hclean calls CI [] rfl
    rw [hstate] at hquery
    obtain ⟨_, hnext⟩ := query_exact hapart hm hcache (hL CI (by simp)) hquery
    have hlast : afterQueries E m sigFuncsMap (calls ++ [CI]) =
        (findCalleesWithMLTA E (afterQueries E m sigFuncsMap calls) sigFuncsMap CI).2 := by
      simp [afterQueries]
    rw [hlast, hstate]
    exact hnext

/-- In two sequences of queries that start with an empty cache and end with the same call, the
last query returns the same set, when every query of both caches for a layer only what the
layers before have left over of the targets of the layer itself. -/
theorem findCallees_query_order (hm : m.matchedFuncsMap = ∅) {qs qs' : List ValPtr} {CI : ValPtr}
    (hapart : Apart E m (Occurs E m (qs ++ qs' ++ [CI])))
    (hclean : ∀ pre q post, qs ++ [CI] = pre ++ q :: post →
      CleanQuery E (afterQueries E m sigFuncsMap pre) sigFuncsMap q)
    (hclean' : ∀ pre q post, qs' ++ [CI] = pre ++ q :: post →
      CleanQuery E (afterQueries E m sigFuncsMap pre) sigFuncsMap q) :
    (findCalleesWithMLTA E (afterQueries E m sigFuncsMap qs) sigFuncsMap CI).1 =
      (findCalleesWithMLTA E (afterQueries E m sigFuncsMap qs') sigFuncsMap CI).1 := by
  have hone : ∀ calls : List ValPtr, (∀ q ∈ calls, q ∈ qs ++ qs' ++ [CI]) →
      (∀ pre q post, calls ++ [CI] = pre ++ q :: post →
        CleanQuery E (afterQueries E m sigFuncsMap pre) sigFuncsMap q) →
      ∀ F, F ∈ (findCalleesWithMLTA E (afterQueries E m sigFuncsMap calls) sigFuncsMap CI).1 ↔
        F ∈ sigFuncsMap.row (E.callHash CI) ∧
          ∀ TI ∈ lookedUpLayers (layerVisits E m CI), LayerTarget E m TI F := by
    intro calls hcalls hcleanAll
    obtain ⟨cache, hcache, hstate⟩ := afterQueries_exact hapart hm
      (fun q hq v hv => ⟨q, hcalls q hq, v, hv, rfl⟩)
      (fun pre q post heq => hcleanAll pre q (post ++ [CI])
        (by rw [heq, List.append_assoc, List.cons_append]))
    have hlast := hcleanAll calls CI [] rfl
    rw [hstate] at hlast ⊢
    exact (query_exact hapart hm hcache (fun v hv => ⟨CI, by simp, v, hv, rfl⟩) hlast).1
  apply ExtTreeSet.ext_mem
  intro F
  rw [hone qs (fun q hq => by simp [hq]) hclean, hone qs' (fun q hq => by simp [hq]) hclean']

theorem apart_occurs {calls : List ValPtr}
    (h : ∀ v ∈ calls.flatMap (layerVisits E m), ∀ v' ∈ calls.flatMap (layerVisits E m),
      layerHash E m v.layer = layerHash E m v'.layer → pairOf E m v.layer = pairOf E m v'.layer) :
    Apart E m (Occurs E m calls) := by
  intro TI TI' hTI hTI' heq
  obtain ⟨CI, hCI, v, hv, rfl⟩ := hTI
  obtain ⟨CI', hCI', v', hv', rfl⟩ := hTI'
  exact h v (List.mem_flatMap.mpr ⟨CI, hCI, hv⟩) v' (List.mem_flatMap.mpr ⟨CI', hCI', hv'⟩) heq

theorem cleanQuery_of_tail {CI : ValPtr}
    (h : ∀ TI ∈ (lookedUpLayers (layerVisits E m CI)).tail, keepsEarlier E m TI = false) :
    CleanQuery E m sigFuncsMap CI :=
  fun _ pre TI post heq _ _ => clean_of_tail h pre TI post heq

theorem findCallees_query_order_table :
    (findCalleesWithMLTA tableCalls (afterQueries tableCalls
      (tableFacts [⟨0, 1⟩, ⟨0, 2⟩] [⟨0, 1⟩] [⟨0, 1⟩, ⟨0, 2⟩]) tableSigs [⟨0, 14⟩])
        tableSigs ⟨0, 14⟩).1 =
    (findCalleesWithMLTA tableCalls (afterQueries tableCalls
      (tableFacts [⟨0, 1⟩, ⟨0, 2⟩] [⟨0, 1⟩] [⟨0, 1⟩, ⟨0, 2⟩]) tableSigs []) tableSigs ⟨0, 14⟩).1 := by
  apply findCallees_query_order rfl (apart_occurs (by decide))
  · intro pre q post heq
    rcases pre with _ | ⟨a, _ | ⟨b, pre⟩⟩
    · obtain rfl := (List.cons.inj heq).1
      exact cleanQuery_of_tail (by decide)
    · obtain ⟨rfl, hrest⟩ := List.cons.inj heq
      obtain rfl := (List.cons.inj hrest).1
      exact cleanQuery_of_tail (by decide +kernel)
    · simp at heq
  · intro pre q post heq
    rcases pre with _ | ⟨a, pre⟩
    · obtain rfl := (List.cons.inj heq).1
      exact cleanQuery_of_tail (by decide)
    · simp at heq

/-- The call through the cast looks all elements of the table up as its first layer. After
it, the other call is narrowed to their targets; without it, the targets of the field of the
element are left over. -/
theorem findCallees_query_order_leftover :
    ¬ ∀ (E : Env) (m : Mlta) (sigFuncsMap : SortedMap SizeT FuncSet) (qs qs' : List ValPtr)
      (CI : ValPtr), m.matchedFuncsMap = ∅ → Apart E m (Occurs E m (qs ++ qs' ++ [CI])) →
      (findCalleesWithMLTA E (afterQueries E m sigFuncsMap qs) sigFuncsMap CI).1 =
        (findCalleesWithMLTA E (afterQueries E m sigFuncsMap qs') sigFuncsMap CI).1 := by
  intro hall
  have hsame := hall tableCalls (tableFacts [⟨0, 1⟩, ⟨0, 2⟩] [⟨0, 1⟩] [⟨0, 1⟩, ⟨0, 2⟩]) tableSigs
    [] [⟨0, 14⟩] ⟨0, 9⟩ rfl (apart_occurs (by decide))
  have hfresh : ⟨0, 2⟩ ∈ (findCalleesWithMLTA tableCalls (afterQueries tableCalls
      (tableFacts [⟨0, 1⟩, ⟨0, 2⟩] [⟨0, 1⟩] [⟨0, 1⟩, ⟨0, 2⟩]) tableSigs []) tableSigs ⟨0, 9⟩).1 :=
    ExtTreeSet.mem_iff_contains.mpr (by decide +kernel)
  have hcached : (findCalleesWithMLTA tableCalls (afterQueries tableCalls
      (tableFacts [⟨0, 1⟩, ⟨0, 2⟩] [⟨0, 1⟩] [⟨0, 1⟩, ⟨0, 2⟩]) tableSigs [⟨0, 14⟩]) tableSigs
        ⟨0, 9⟩).1.contains ⟨0, 2⟩ = false := by
    decide +kernel
  have hmem := ExtTreeSet.mem_iff_contains.mp (hsame ▸ hfresh)
  simp [hcached] at hmem

end Mlta

end Cisa

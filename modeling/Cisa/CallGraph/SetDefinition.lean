import Cisa.CallGraph.Narrowing
import Cisa.CallGraph.Propagation
import Cisa.CallGraph.SearchEnds

/-!
# The set definition of multi-layer matching

The layers of a call are what `nextLayerBaseType` yields, list after list. Without cached
and escaped layers a search looks up these layers, up to the first capped type and to the
bound on their number, and each of them should narrow the functions with the signature of
the call to its target set.
-/

namespace Cisa

open Std

namespace Mlta

variable (E : Env) (m : Mlta)

/-- What `nextLayerBaseType` yields from a value on, in at most `n` lists. -/
def chainLayers : ℕ → ValPtr → Option ValPtr → List TypeIdx
  | 0, _, _ => []
  | n + 1, CV, nextV =>
    let r := (nextLayerBaseType E m (valueFuel E CV) CV { nextV := nextV }).2
    r.tyList ++ if r.tyList = [] then [] else chainLayers n (r.nextV.getD CV) r.nextV

/-- The layers up to the first one whose type is capped. -/
def upToCap : List TypeIdx → List TypeIdx
  | [] => []
  | TI :: rest => TI :: if typeHash E m TI.1 ∈ m.typeCapSet then [] else upToCap rest

/-- The layers that the search for the targets of a call processes, when none is cached and
none has escaped. Every list has a layer, so the bound on the layers bounds the lists too. -/
def callLayers (CI : ValPtr) : List TypeIdx :=
  match (E.operands CI).getLast? with
  | some CV =>
    if typeHash E m (E.callFunctionType CI) ∈ m.typeCapSet then []
    else (upToCap E m (chainLayers E m maxTypeLayer CV none)).take (maxTypeLayer - 1)
  | none => []

variable {E m}

section Open

variable {done tys rest : List TypeIdx} {w : WalkState}

theorem upToCap_append_of_cap (h : ∃ TI ∈ tys, typeHash E m TI.1 ∈ m.typeCapSet) :
    upToCap E m (tys ++ rest) = upToCap E m tys := by
  induction tys with
  | nil => simp at h
  | cons TI tys ih =>
    unfold upToCap
    by_cases hcap : typeHash E m TI.1 ∈ m.typeCapSet
    · simp [hcap]
    · obtain ⟨TI', hTI', hcap'⟩ := h
      rcases List.mem_cons.mp hTI' with rfl | hTI'
      · exact absurd hcap' hcap
      · simp [hcap, ih ⟨TI', hTI', hcap'⟩]

/-- How the loop over one list ends, when all layers are open: after a capped type, at the
bound, or at the end of the list. -/
inductive ListEnd (E : Env) (m : Mlta) (tys : List TypeIdx) (w w' : WalkState) : Prop
  | stopped (h : w'.continueNextLayer = false ∨ maxTypeLayer ≤ w'.layerNo)
      (hcut : ∀ rest, (upToCap E m (tys ++ rest)).take (maxTypeLayer - w.layerNo) =
        (upToCap E m tys).take (maxTypeLayer - w.layerNo))
  | through (hcut : ∀ rest, (upToCap E m (tys ++ rest)).take (maxTypeLayer - w.layerNo) =
        (upToCap E m tys).take (maxTypeLayer - w.layerNo) ++
          (upToCap E m rest).take (maxTypeLayer - w'.layerNo))
      (hnextV : w'.nextV = w.nextV)
      (hCV : w'.CV = if tys = [] then w.CV else w.nextV.getD w.CV)
      (hprev : typeHash E m w'.prevLayerTy ∉ m.typeCapSet)
      (hcont : w'.continueNextLayer = w.continueNextLayer)

theorem visitLayers_open (hopen : ∀ done TI, IsOpenAfter E m done TI) (done tys : List TypeIdx)
    {w : WalkState} (hprev : typeHash E m w.prevLayerTy ∉ m.typeCapSet) :
    (visitLayers E m done tys w).1 =
      ((upToCap E m tys).take (maxTypeLayer - w.layerNo)).map (⟨·, true⟩) ∧
    ListEnd E m tys w (visitLayers E m done tys w).2 := by
  induction tys generalizing done w with
  | nil =>
    refine ⟨by simp [visitLayers, upToCap], ListEnd.through ?_ rfl rfl hprev rfl⟩
    simp [visitLayers, upToCap]
  | cons TI tys ih =>
    unfold visitLayers
    by_cases hmax : maxTypeLayer ≤ w.layerNo
    · simp only [if_pos hmax]
      have hzero : maxTypeLayer - w.layerNo = 0 := Nat.sub_eq_zero_of_le hmax
      refine ⟨by simp [hzero], ListEnd.stopped (Or.inr hmax) fun rest => by simp [hzero]⟩
    · simp only [if_neg hmax, if_pos (hopen done TI)]
      obtain ⟨k, hk⟩ : ∃ k, maxTypeLayer - w.layerNo = k + 1 :=
        ⟨maxTypeLayer - w.layerNo - 1, by omega⟩
      by_cases hcap : typeHash E m TI.1 ∈ m.typeCapSet
      · simp only [if_pos hcap]
        refine ⟨by simp [upToCap, hcap, hk], ListEnd.stopped (Or.inl rfl) fun rest => ?_⟩
        rw [upToCap_append_of_cap ⟨TI, List.mem_cons_self, hcap⟩]
      · simp only [if_neg hcap]
        have hk' : maxTypeLayer - (w.layerNo + 1) = k := by omega
        have hcut : ∀ rest, upToCap E m (TI :: tys ++ rest) = TI :: upToCap E m (tys ++ rest) := by
          intro rest
          rw [List.cons_append, upToCap, if_neg hcap]
        have hnil : upToCap E m (TI :: tys) = TI :: upToCap E m tys := by rw [upToCap, if_neg hcap]
        obtain ⟨hvisits, hend⟩ := ih (done ++ [TI]) (w := { w with
          layerNo := w.layerNo + 1
          CV := w.nextV.getD w.CV
          prevLayerTy := TI.1 }) hcap
        dsimp only at hvisits hend
        rw [hk'] at hvisits
        refine ⟨by rw [hvisits, hnil, hk, List.take_succ_cons, List.map_cons], ?_⟩
        cases hend with
        | stopped h hrest =>
          refine ListEnd.stopped h fun rest => ?_
          dsimp only at hrest
          rw [hk'] at hrest
          rw [hcut, hnil, hk, List.take_succ_cons, List.take_succ_cons, hrest]
        | through hrest hnextV hCV hprev' hcont =>
          refine ListEnd.through (fun rest => ?_) hnextV ?_ hprev' hcont
          · dsimp only at hrest
            rw [hk'] at hrest
            rw [hcut, hnil, hk, List.take_succ_cons, List.take_succ_cons, hrest, List.cons_append]
          · rw [hCV]
            cases w.nextV <;> simp

theorem visitSearch_of_stop (n : ℕ) (h : w.continueNextLayer = false ∨
      maxTypeLayer ≤ w.layerNo ∨ typeHash E m w.prevLayerTy ∈ m.typeCapSet) :
    visitSearch E m n done w = [] := by
  cases n with
  | zero => rfl
  | succ n =>
    unfold visitSearch
    rw [if_pos h]

theorem visitSearch_open (hopen : ∀ done TI, IsOpenAfter E m done TI) (n : ℕ)
    (hcont : w.continueNextLayer = true) (hprev : typeHash E m w.prevLayerTy ∉ m.typeCapSet) :
    visitSearch E m n done w =
      ((upToCap E m (chainLayers E m n w.CV w.nextV)).take (maxTypeLayer - w.layerNo)).map
        (⟨·, true⟩) := by
  induction n generalizing done w with
  | zero => simp [visitSearch, chainLayers, upToCap]
  | succ n ih =>
    unfold visitSearch chainLayers
    by_cases hmax : maxTypeLayer ≤ w.layerNo
    · rw [if_pos (Or.inr (Or.inl hmax)), Nat.sub_eq_zero_of_le hmax]
      simp
    · rw [if_neg (by simp [hcont, hmax, hprev])]
      dsimp only
      set r := (nextLayerBaseType E m (valueFuel E w.CV) w.CV { nextV := w.nextV }).2 with hr
      by_cases hempty : r.tyList = []
      · simp [hempty, upToCap]
      · simp only [if_neg hempty]
        obtain ⟨hvisits, hend⟩ := visitLayers_open hopen done r.tyList
          (w := { w with nextV := r.nextV }) hprev
        rw [hvisits]
        cases hend with
        | stopped h hrest =>
          rw [visitSearch_of_stop n (h.imp_right Or.inl), List.append_nil, hrest]
        | through hrest hnextV hCV hprev' hcont' =>
          rw [ih (hcont'.trans hcont) hprev', hrest, List.map_append, hnextV, hCV, if_neg hempty]

theorem lookedUpLayers_map_open (tys : List TypeIdx) :
    lookedUpLayers (tys.map (⟨·, true⟩)) = tys := by
  induction tys with
  | nil => rfl
  | cons TI tys ih => rw [List.map_cons, lookedUpLayers_cons_true, ih]

theorem lookedUpLayers_layerVisits (hopen : ∀ done TI, IsOpenAfter E m done TI) (CI : ValPtr) :
    lookedUpLayers (layerVisits E m CI) = callLayers E m CI := by
  unfold layerVisits callLayers
  cases (E.operands CI).getLast? with
  | none => rfl
  | some CV =>
    dsimp only
    by_cases hprev : typeHash E m (E.callFunctionType CI) ∈ m.typeCapSet
    · have hstop : visitSearch E m maxTypeLayer []
          { prevLayerTy := E.callFunctionType CI, CV := CV } = [] :=
        visitSearch_of_stop maxTypeLayer (Or.inr (Or.inr hprev))
      rw [if_pos hprev, hstop, lookedUpLayers_nil]
    · have hsearch : visitSearch E m maxTypeLayer []
          { prevLayerTy := E.callFunctionType CI, CV := CV } =
            ((upToCap E m (chainLayers E m maxTypeLayer CV none)).take (maxTypeLayer - 1)).map
              (⟨·, true⟩) :=
        visitSearch_open hopen maxTypeLayer rfl hprev
      rw [if_neg hprev, hsearch, lookedUpLayers_map_open]

end Open

variable {CI : ValPtr} {F : FuncPtr}

/-- Without cached and escaped layers, and with different hashes, a layer that is not the
first keeps every function if its lookup keeps the working sets. -/
theorem deliversAfter_iff {done : List TypeIdx} {TI : TypeIdx} (hm : m.matchedFuncsMap = ∅)
    (hnew : layerHash E m TI ∉ done.map (layerHash E m)) :
    DeliversAfter E m done TI F ↔
      F ∈ targetSet E m TI ∨ (done ≠ [] ∧ keepsEarlier E m TI = true) := by
  simp [DeliversAfter, hm, hnew, mem_targetSet]

/-- With different hashes, what the layers keep is decided by the first of them and by those
whose lookup replaces the working sets. -/
theorem allDeliverAfter_iff {tys : List TypeIdx} (hm : m.matchedFuncsMap = ∅)
    (hnodup : (tys.map (layerHash E m)).Nodup) :
    AllDeliverAfter E m [] tys F ↔ ∀ i TI, tys[i]? = some TI →
      i = 0 ∨ keepsEarlier E m TI = false → F ∈ targetSet E m TI := by
  have hnew : ∀ pre TI post, tys = pre ++ TI :: post →
      layerHash E m TI ∉ pre.map (layerHash E m) := by
    intro pre TI post heq hmem
    rw [heq, List.map_append, List.map_cons, List.nodup_append] at hnodup
    exact hnodup.2.2 _ hmem _ List.mem_cons_self rfl
  constructor
  · intro h i TI hi hfirst
    obtain ⟨hlt, hTI⟩ := List.getElem?_eq_some_iff.mp hi
    have hsplit : tys = tys.take i ++ TI :: tys.drop (i + 1) := by
      rw [← hTI, List.getElem_cons_drop, List.take_append_drop]
    have hdel := h _ _ _ hsplit
    rw [List.nil_append, deliversAfter_iff hm (hnew _ _ _ hsplit)] at hdel
    rcases hdel with hdel | ⟨hne, hkeeps⟩
    · exact hdel
    · rcases hfirst with rfl | hfirst
      · exact absurd rfl hne
      · rw [hfirst] at hkeeps
        simp at hkeeps
  · intro h pre TI post heq
    rw [List.nil_append, deliversAfter_iff hm (hnew _ _ _ heq)]
    have hTI := h pre.length TI (by simp [heq])
    by_cases hfirst : pre.length = 0 ∨ keepsEarlier E m TI = false
    · exact Or.inl (hTI hfirst)
    · rw [not_or, Bool.not_eq_false] at hfirst
      exact Or.inr ⟨fun hnil => hfirst.1 (by simp [hnil]), hfirst.2⟩

/-- The search of a call ends, and it finds the functions with the signature of the call that
are in the target set of every layer, exactly when a function in the target sets of the first
layer and of those whose lookup replaces the working sets is in the target sets of the other
layers too. -/
theorem findCallees_setDefinition_iff {sigFuncsMap : SortedMap SizeT FuncSet}
    (hmatched : m.matchedFuncsMap = ∅) (hescape : m.typeEscapeSet = ∅)
    (hinj : ∀ TI ∈ callLayers E m CI, ∀ TI' ∈ callLayers E m CI,
      layerHash E m TI = layerHash E m TI' → pairOf E m TI = pairOf E m TI')
    (honce : ((callLayers E m CI).map (pairOf E m)).Nodup) :
    (SearchEnds E m sigFuncsMap CI ∧ ∀ F, F ∈ (findCalleesWithMLTA E m sigFuncsMap CI).1 ↔
      F ∈ sigFuncsMap.row (E.callHash CI) ∧ ∀ TI ∈ callLayers E m CI, F ∈ targetSet E m TI) ↔
    ∀ F ∈ sigFuncsMap.row (E.callHash CI),
      (∀ i TI, (callLayers E m CI)[i]? = some TI → i = 0 ∨ keepsEarlier E m TI = false →
        F ∈ targetSet E m TI) →
      ∀ TI ∈ callLayers E m CI, F ∈ targetSet E m TI := by
  have hopen : ∀ done TI, IsOpenAfter E m done TI := by
    intro done TI
    simp [IsOpenAfter, hescape]
  have hnodup : ((callLayers E m CI).map (layerHash E m)).Nodup := by
    apply List.Nodup.map_on _ (List.Nodup.of_map _ honce)
    intro TI hTI TI' hTI' heq
    exact List.inj_on_of_nodup_map honce hTI hTI' (hinj TI hTI TI' hTI' heq)
  have hfound : ∀ F, F ∈ (findCalleesWithMLTA E m sigFuncsMap CI).1 ↔
      F ∈ sigFuncsMap.row (E.callHash CI) ∧ ∀ i TI, (callLayers E m CI)[i]? = some TI →
        i = 0 ∨ keepsEarlier E m TI = false → F ∈ targetSet E m TI := by
    intro F
    rw [mem_findCallees_iff, lookedUpLayers_layerVisits hopen, allDeliverAfter_iff hmatched hnodup]
  rw [and_iff_right (searchEnds sigFuncsMap CI)]
  constructor
  · intro h F hF hall
    exact ((h F).mp ((hfound F).mpr ⟨hF, hall⟩)).2
  · intro h F
    rw [hfound]
    apply and_congr_right
    intro hF
    constructor
    · exact h F hF
    · exact fun hall i TI hi _ => hall TI (List.mem_of_getElem? hi)

/-- A function calls field 0 of an element of a table, which it has loaded from field 1 of its
first parameter; and it calls the start of such an element through a cast. -/
def tableCaller : Module where
  values := [
    { kind := .function { name := "f", guid := 1, functionType := 12, args := [3, 4],
                          insts := [5, 6, 7, 8, 9, 10, 11, 12, 13, 14] } },
    { kind := .function { name := "g", guid := 2, hasAddressTaken := true }, ty := 1 },
    { kind := .function { name := "h", guid := 3, hasAddressTaken := true }, ty := 1 },
    { kind := .argument, ty := 9, users := [5] },
    { kind := .argument, ty := 6, users := [7, 10] },
    { kind := .instruction (.gep 8), ty := 13, operands := [3, 15, 16], users := [6] },
    { kind := .instruction .load, ty := 5, operands := [5], users := [7, 10] },
    { kind := .instruction (.gep 4), ty := 2, operands := [6, 15, 4, 15], users := [8] },
    { kind := .instruction .load, ty := 1, operands := [7], users := [9] },
    { kind := .instruction (.call 0), ty := 7, operands := [8] },
    { kind := .instruction (.gep 4), ty := 11, operands := [6, 15, 4], users := [11] },
    { kind := .instruction .bitCast, ty := 10, operands := [10], users := [12] },
    { kind := .instruction .bitCast, ty := 2, operands := [11], users := [13] },
    { kind := .instruction .load, ty := 1, operands := [12], users := [14] },
    { kind := .instruction (.call 0), ty := 7, operands := [13] },
    { kind := .constantInt 0, ty := 6 },
    { kind := .constantInt 1, ty := 6 }]
  types := [
    { kind := .function [7], printed := "void ()" },
    { kind := .pointer 0, printed := "void ()*" },
    { kind := .pointer 1, printed := "void ()**" },
    { kind := .struct (some "struct.element") false [1], printed := "%struct.element" },
    { kind := .array 3, printed := "[4 x %struct.element]" },
    { kind := .pointer 4, printed := "[4 x %struct.element]*" },
    { kind := .other 13, printed := "i64" },
    { kind := .other 7, printed := "void" },
    { kind := .struct (some "struct.table") false [6, 5], printed := "%struct.table" },
    { kind := .pointer 8, printed := "%struct.table*" },
    { kind := .pointer 6, printed := "i64*" },
    { kind := .pointer 3, printed := "%struct.element*" },
    { kind := .function [7, 9, 6], printed := "void (%struct.table*, i64)" },
    { kind := .pointer 5, printed := "[4 x %struct.element]**" }]
  functions := [0, 1, 2]
  names_nodup := by decide
  functions_listed := by decide

def tableCalls : Env := Env.ofModules [tableCaller]

/-- The functions recorded for the field of an element, for all elements of the table, and
for the field the table is loaded from. -/
def tableFacts (field elements outer : List FuncPtr) : Mlta where
  typeIdxFuncsMap :=
    [((⟨0, 3⟩, 0), field), ((⟨0, 4⟩, -1), elements), ((⟨0, 8⟩, 1), outer)].foldl
      (fun facts (e : TypeIdx × List FuncPtr) => e.2.foldl (fun facts F =>
        addSlot facts (typeHash tableCalls {} e.1.1) e.1.2 F) facts) ∅

def tableSigs : SortedMap SizeT FuncSet :=
  (∅ : SortedMap SizeT FuncSet).insert (tableCalls.callHash ⟨0, 9⟩)
    (ExtTreeSet.ofElems [⟨0, 1⟩, ⟨0, 2⟩])

theorem findCallees_setDefinition_table :
    (SearchEnds tableCalls (tableFacts [⟨0, 1⟩] [⟨0, 1⟩] [⟨0, 1⟩]) tableSigs ⟨0, 9⟩ ∧
      ∀ F, F ∈ (findCalleesWithMLTA tableCalls (tableFacts [⟨0, 1⟩] [⟨0, 1⟩] [⟨0, 1⟩]) tableSigs
          ⟨0, 9⟩).1 ↔
        F ∈ tableSigs.row (tableCalls.callHash ⟨0, 9⟩) ∧
          ∀ TI ∈ callLayers tableCalls (tableFacts [⟨0, 1⟩] [⟨0, 1⟩] [⟨0, 1⟩]) ⟨0, 9⟩,
            F ∈ targetSet tableCalls (tableFacts [⟨0, 1⟩] [⟨0, 1⟩] [⟨0, 1⟩]) TI) ↔
    ∀ F ∈ tableSigs.row (tableCalls.callHash ⟨0, 9⟩),
      (∀ i TI, (callLayers tableCalls (tableFacts [⟨0, 1⟩] [⟨0, 1⟩] [⟨0, 1⟩]) ⟨0, 9⟩)[i]? = some TI →
        i = 0 ∨ keepsEarlier tableCalls (tableFacts [⟨0, 1⟩] [⟨0, 1⟩] [⟨0, 1⟩]) TI = false →
        F ∈ targetSet tableCalls (tableFacts [⟨0, 1⟩] [⟨0, 1⟩] [⟨0, 1⟩]) TI) →
      ∀ TI ∈ callLayers tableCalls (tableFacts [⟨0, 1⟩] [⟨0, 1⟩] [⟨0, 1⟩]) ⟨0, 9⟩,
        F ∈ targetSet tableCalls (tableFacts [⟨0, 1⟩] [⟨0, 1⟩] [⟨0, 1⟩]) TI :=
  findCallees_setDefinition_iff rfl rfl (by decide) (by decide)

/-- The targets of the first layer are left over when all elements of the table are looked
up, so the layer keeps a function that is not among its targets. -/
theorem findCallees_setDefinition_leftover :
    ¬ ∀ (E : Env) (m : Mlta) (sigFuncsMap : SortedMap SizeT FuncSet) (CI : ValPtr),
      m.matchedFuncsMap = ∅ → m.typeEscapeSet = ∅ →
      (∀ TI ∈ callLayers E m CI, ∀ TI' ∈ callLayers E m CI,
        layerHash E m TI = layerHash E m TI' → pairOf E m TI = pairOf E m TI') →
      ((callLayers E m CI).map (pairOf E m)).Nodup →
      ∀ F, F ∈ (findCalleesWithMLTA E m sigFuncsMap CI).1 ↔
        F ∈ sigFuncsMap.row (E.callHash CI) ∧
          ∀ TI ∈ callLayers E m CI, F ∈ targetSet E m TI := by
  intro hall
  have h := hall tableCalls (tableFacts [⟨0, 1⟩, ⟨0, 2⟩] [⟨0, 1⟩] [⟨0, 1⟩, ⟨0, 2⟩]) tableSigs ⟨0, 9⟩
    rfl rfl (by decide) (by decide) ⟨0, 2⟩
  have hfound := h.mp (ExtTreeSet.mem_iff_contains.mpr (by decide +kernel))
  exact not_mem_targetSet (by decide) (by decide) (hfound.2 (⟨0, 4⟩, -1) (by decide))

end Mlta

end Cisa

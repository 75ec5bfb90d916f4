import Cisa.CallGraph.DefinitionMap
import Cisa.CallGraph.Writes

/-!
# What one module adds to the type facts

Two runs over one module that start with the same names and the same aliases stay in step:
they make the same writes. So collecting a module adds to the tables what it adds to empty
ones, unless it reads the definition map, which the modules before it have filled.
-/

namespace Cisa

open Std

namespace Mlta

/-- The type facts without the tables that are indexed by modules and functions. -/
def forgetAliases (m : Mlta) : Mlta := { m with aliasStructPtrMap := ∅, int8PtrTy := ∅ }

theorem forgetAliases_write (m : Mlta) (W : List Write) :
    (write m W).forgetAliases = write m.forgetAliases W := by
  induction W generalizing m with
  | nil => rfl
  | cons w W ih =>
    have hone : (w.apply m).forgetAliases = w.apply m.forgetAliases := by
      cases w <;> rfl
    show (write (w.apply m) W).forgetAliases = write (w.apply m.forgetAliases) W
    rw [ih, hone]

/-- `m` has come from `a` and `n` from `b`, by the same writes and with the same aliases in
the module `M`. -/
structure InStep (M : ModPtr) (a b m n : Mlta) : Prop where
  writes : ∃ W, m.forgetAliases = write a.forgetAliases W ∧
    n.forgetAliases = write b.forgetAliases W
  names : n.elementsStructNameMap = m.elementsStructNameMap
  rows : ∀ F : FuncPtr, F.mod = M →
    n.aliasStructPtrMap.getD F ∅ = m.aliasStructPtrMap.getD F ∅
  others : ∀ F : FuncPtr, F.mod ≠ M →
    m.aliasStructPtrMap.getD F ∅ = a.aliasStructPtrMap.getD F ∅
  int8 : n.int8PtrTy[M]? = m.int8PtrTy[M]?

namespace InStep

variable {E : Env} {M : ModPtr} {a b m n : Mlta}

theorem agree (h : InStep M a b m n) : Agree E (InModule M) m n := by
  refine ⟨h.names, fun V hV => ?_⟩
  unfold recoverBaseType
  cases E.instOpcode V with
  | none => rfl
  | some op => simp only [h.rows (E.parentOf V) hV]

theorem adds (h : InStep M a b m n) {op : Mlta → Mlta} (hop : Adds E (InModule M) m op) :
    InStep M a b (op m) (op n) := by
  obtain ⟨W, hm, hn⟩ := h.writes
  obtain ⟨W', hW'⟩ := hop
  rw [hW' m Agree.refl, hW' n h.agree]
  refine ⟨⟨W ++ W', ?_, ?_⟩, ?_, ?_, ?_, ?_⟩
  · rw [forgetAliases_write, hm, write_append]
  · rw [forgetAliases_write, hn, write_append]
  · rw [names_write, names_write, h.names]
  · rw [aliases_write, aliases_write]
    exact h.rows
  · rw [aliases_write]
    exact h.others
  · rw [int8_write, int8_write, h.int8]

theorem collectAliasStructPtr (h : InStep M a b m n) {F : FuncPtr} (hF : F.mod = M) :
    InStep M a b (collectAliasStructPtr E m F) (collectAliasStructPtr E n F) := by
  refine ⟨h.writes, h.names, fun G hG => ?_, fun G hG => ?_, h.int8⟩
  · unfold Mlta.collectAliasStructPtr
    dsimp only
    rw [ExtTreeMap.getD_insert, ExtTreeMap.getD_insert, h.rows F hF, h.rows G hG, hF, h.int8]
  · have hne : F ≠ G := by
      intro heq
      rw [← heq] at hG
      exact hG hF
    unfold Mlta.collectAliasStructPtr
    dsimp only
    rw [ExtTreeMap.getD_insert, if_neg (by simpa using hne)]
    exact h.others G hG

end InStep

section Arguments

variable {E : Env}

/-- For the functions that the calls of `F` pass, the map makes no difference. -/
def Unread (E : Env) (g : SortedMap ℕ FuncPtr) (F : FuncPtr) : Prop :=
  ∀ CI ∈ E.insts F, isCall E CI = true → ∀ o ∈ (E.operands CI).zipIdx, ∀ A,
    E.dynFunction o.1 = some A → (E.function A).isIntrinsic = false →
      argumentUses E g CI o.1 o.2 = argumentUses E ∅ CI o.1 o.2

theorem confineArgument_unread {g : SortedMap ℕ FuncPtr} {F : FuncPtr} (hg : Unread E g F)
    {CI : ValPtr} (hCI : CI ∈ E.insts F) (hcall : isCall E CI = true) {o : ValPtr × ℕ}
    (ho : o ∈ (E.operands CI).zipIdx) (m : Mlta) :
    confineArgument E g CI m o.1 o.2 = confineArgument E ∅ CI m o.1 o.2 := by
  rw [confineArgument_eq, confineArgument_eq]
  cases hA : E.dynFunction o.1 with
  | none => rfl
  | some A =>
    dsimp only
    by_cases hintrinsic : (E.function A).isIntrinsic = true
    · rw [foldl_confine_intrinsic hintrinsic, foldl_confine_intrinsic hintrinsic]
    · rw [hg CI hCI hcall o ho A hA (by simpa using hintrinsic)]

theorem typeConfineInFunction_unread {g : SortedMap ℕ FuncPtr} {F : FuncPtr} (hg : Unread E g F)
    (m : Mlta) : typeConfineInFunction E g m F = typeConfineInFunction E ∅ m F := by
  unfold typeConfineInFunction
  apply List.foldl_ext
  intro m I hI
  unfold confineInst
  split
  · rfl
  · rename_i ty hop
    apply List.foldl_ext
    intro m o ho
    exact confineArgument_unread hg hI (by simp [isCall, hop]) ho m
  · rfl

theorem mod_of_mem_argumentUses {CI O : ValPtr} {no : ℕ} (hO : O ∈ E.operands CI) {U : ValPtr}
    (h : U ∈ argumentUses E ∅ CI O no) : U.mod = CI.mod := by
  unfold argumentUses at h
  split_ifs at h
  · rw [List.mem_singleton.mp h]
    exact E.mod_of_mem_operands hO
  · split at h
    · simp at h
    · rename_i CF hCF
      split at h
      · simp at h
      · rename_i Arg hArg
        obtain ⟨D, hD, hDF⟩ := Option.bind_eq_some_iff.mp hCF
        have hself : D = CF := by
          unfold definitionOf at hDF
          split_ifs at hDF
          · simp at hDF
          · exact Option.some.inj hDF
        obtain ⟨CV, hCV, hDV⟩ := Option.bind_eq_some_iff.mp hD
        have hmod : CF.mod = CI.mod := by
          rw [← hself, (E.mem_functions_of_dynFunction hDV).1]
          exact E.mod_of_mem_operands (List.mem_of_getLast? hCV)
        obtain ⟨i, _, hU⟩ := List.mem_map.mp (List.mem_filter.mp h).1
        unfold Env.getParamByArgNo at hArg
        dsimp only at hArg
        split_ifs at hArg
        obtain ⟨j, _, hj⟩ := Option.map_eq_some_iff.mp hArg
        rw [← hU, ← hj]
        exact hmod

theorem adds_confineInst_module {M : ModPtr} {m : Mlta} (F : FuncPtr) {I : ValPtr}
    (hI : InModule M I) : Adds E (InModule M) m fun m' => confineInst E ∅ F m' I := by
  apply adds_confineInst (E.closed_inModule M) ∅ F hI
  intro o ho _ U hU
  have hO := List.fst_mem_of_mem_zipIdx ho
  exact (mod_of_mem_argumentUses hO hU).trans hI

theorem adds_typeConfineInFunction_module {M : ModPtr} {m : Mlta} {F : FuncPtr} (hF : F.mod = M) :
    Adds E (InModule M) m fun m' => typeConfineInFunction E ∅ m' F :=
  Adds.foldl fun _ hI => adds_confineInst_module F ((E.mod_of_mem_insts hI).trans hF)

theorem adds_typePropInFunction_module {M : ModPtr} {m : Mlta} {F : FuncPtr} (hF : F.mod = M) :
    Adds E (InModule M) m fun m' => typePropInFunction E m' F :=
  Adds.foldl fun _ hI =>
    adds_propInst (E.closed_inModule M) ((E.mod_of_mem_insts hI).trans hF)

end Arguments

end Mlta

namespace CallGraphPass

open Mlta

variable {E : Env} {M : ModPtr} {a b : Mlta} {ms : List ModPtr}

/-- The map holds external definitions of the modules, not necessarily all. -/
def Partial (E : Env) (ms : List ModPtr) (g : SortedMap ℕ FuncPtr) : Prop :=
  ∀ (k : ℕ) (F : FuncPtr), g[k]? = some F → DefinedIn E ms k F

/-- No call of the modules passes a function on through a map of their definitions. -/
def PassesDirectly (E : Env) (ms : List ModPtr) : Prop :=
  ∀ g, Partial E ms g → ∀ F, Defines E ms F → Unread E g F

theorem Partial.initFunction {S : CallGraphPass} (h : Partial E ms S.ctx.globalFuncMap)
    (hM : M ∈ ms) {F : FuncPtr} (hF : F ∈ E.functions M) :
    Partial E ms (initFunction E S F).ctx.globalFuncMap := by
  rw [globalFuncMap_initFunction]
  split_ifs with hdef
  · intro k G hG
    rw [ExtTreeMap.getElem?_insert_eq_ite] at hG
    split_ifs at hG with hk
    · rw [← Option.some.inj hG]
      exact ⟨M, hM, hF, hdef, hk⟩
    · exact h k G hG
  · exact h

theorem inStep_collectTypes {m n : Mlta} (h : InStep M a b m n) {F : FuncPtr} (hF : F.mod = M)
    {g g' : SortedMap ℕ FuncPtr}
    (hg : (E.function F).isDeclaration = false → Unread E g F ∧ Unread E g' F) :
    InStep M a b (collectTypes E g m F) (collectTypes E g' n F) := by
  unfold collectTypes
  split_ifs with hdecl
  · exact h
  · obtain ⟨hm, hn⟩ := hg (by simpa using hdecl)
    have halias := h.collectAliasStructPtr (E := E) hF
    rw [typeConfineInFunction_unread hm, typeConfineInFunction_unread hn]
    have hconfine : Adds E (InModule M) (collectAliasStructPtr E m F)
        fun m' => typeConfineInFunction E ∅ m' F := adds_typeConfineInFunction_module hF
    have hconfined := halias.adds hconfine
    have hprop : Adds E (InModule M)
        (typeConfineInFunction E ∅ (collectAliasStructPtr E m F) F)
        fun m' => typePropInFunction E m' F := adds_typePropInFunction_module hF
    have hpropagated := hconfined.adds hprop
    exact hpropagated

theorem inStep_initGlobals {S T : CallGraphPass}
    (hnames : T.mlta.elementsStructNameMap = S.mlta.elementsStructNameMap)
    (hrows : ∀ F : FuncPtr, F.mod = M →
      T.mlta.aliasStructPtrMap.getD F ∅ = S.mlta.aliasStructPtrMap.getD F ∅) :
    InStep M S.mlta T.mlta (initGlobals E S M).mlta (initGlobals E T M).mlta := by
  unfold initGlobals
  apply List.foldl_rel
  · exact ⟨⟨[], rfl, rfl⟩, hnames, hrows, fun _ _ => rfl, by simp⟩
  · intro GV _ m n h
    exact h.adds (adds_initGlobal GV)

theorem inStep_collectModule {S T : CallGraphPass} (hM : M ∈ ms) (hpass : PassesDirectly E ms)
    (hS : Partial E ms S.ctx.globalFuncMap) (hT : Partial E ms T.ctx.globalFuncMap)
    (hnames : T.mlta.elementsStructNameMap = S.mlta.elementsStructNameMap)
    (hrows : ∀ F : FuncPtr, F.mod = M →
      T.mlta.aliasStructPtrMap.getD F ∅ = S.mlta.aliasStructPtrMap.getD F ∅) :
    InStep M S.mlta T.mlta (collectModule E S M).mlta (collectModule E T M).mlta := by
  have hrun : InStep M S.mlta T.mlta (collectModule E S M).mlta (collectModule E T M).mlta ∧
      Partial E ms (collectModule E S M).ctx.globalFuncMap ∧
      Partial E ms (collectModule E T M).ctx.globalFuncMap := by
    unfold collectModule
    apply List.foldl_rel (r := fun U V : CallGraphPass => InStep M S.mlta T.mlta U.mlta V.mlta ∧
      Partial E ms U.ctx.globalFuncMap ∧ Partial E ms V.ctx.globalFuncMap)
    · exact ⟨inStep_initGlobals hnames hrows, hS, hT⟩
    · intro F hF U V h
      obtain ⟨hstep, hU, hV⟩ := h
      refine ⟨?_, hU.initFunction hM hF, hV.initFunction hM hF⟩
      apply inStep_collectTypes hstep (E.mod_of_mem_functions hF)
      intro hdecl
      have hdef : Defines E ms F := ⟨M, hM, mem_definitionsOf.mpr ⟨hF, hdecl⟩⟩
      constructor
      · exact hpass _ (by rwa [globalFuncMap_collectAddressTaken]) F hdef
      · exact hpass _ (by rwa [globalFuncMap_collectAddressTaken]) F hdef
  exact hrun.1

/-- What collecting a module adds to empty tables. -/
def moduleFacts (E : Env) (names : StructNames) (M : ModPtr) : Mlta :=
  (collectModule E { mlta := { elementsStructNameMap := names } } M).mlta

/-- The tables hold what the modules of `X` add, and nothing else. -/
structure FactsOf (E : Env) (names : StructNames) (X : ModPtr → Prop) (m : Mlta) : Prop where
  elementsStructNameMap : m.elementsStructNameMap = names
  aliases : ∀ F : FuncPtr, X F.mod →
    m.aliasStructPtrMap.getD F ∅ = (moduleFacts E names F.mod).aliasStructPtrMap.getD F ∅
  no_aliases : ∀ F : FuncPtr, ¬ X F.mod → m.aliasStructPtrMap.getD F ∅ = ∅
  targets : ∀ h i F, F ∈ slot m.typeIdxFuncsMap h i ↔
    ∃ M, X M ∧ F ∈ slot (moduleFacts E names M).typeIdxFuncsMap h i
  props : ∀ h i p, p ∈ slot m.typeIdxPropMap h i ↔
    ∃ M, X M ∧ p ∈ slot (moduleFacts E names M).typeIdxPropMap h i
  caps : ∀ hash, hash ∈ m.typeCapSet ↔ ∃ M, X M ∧ hash ∈ (moduleFacts E names M).typeCapSet
  escapes : ∀ hash, hash ∈ m.typeEscapeSet ↔
    ∃ M, X M ∧ hash ∈ (moduleFacts E names M).typeEscapeSet

namespace FactsOf

variable {names : StructNames} {X Y : ModPtr → Prop}

theorem congr {m : Mlta} (h : FactsOf E names X m) (hXY : ∀ M, X M ↔ Y M) :
    FactsOf E names Y m := by
  obtain rfl : X = Y := funext fun M => propext (hXY M)
  exact h

theorem empty : FactsOf E names (fun _ => False) { elementsStructNameMap := names } := by
  refine ⟨rfl, fun F hF => hF.elim, fun F _ => ?_, fun h i F => ?_, fun h i p => ?_, ?_, ?_⟩
  · simp
  · simp [slot]
  · simp [slot]
  · simp
  · simp

theorem collectModule {S : CallGraphPass} (h : FactsOf E names X S.mlta) (hX : ¬ X M)
    (hM : M ∈ ms) (hpass : PassesDirectly E ms) (hS : Partial E ms S.ctx.globalFuncMap) :
    FactsOf E names (fun N => N = M ∨ X N) (collectModule E S M).mlta := by
  have hempty : Partial E ms ({ mlta := { elementsStructNameMap := names } } :
      CallGraphPass).ctx.globalFuncMap := by
    intro k F hF
    simp at hF
  have hstep : InStep M S.mlta { elementsStructNameMap := names }
      (CallGraphPass.collectModule E S M).mlta (moduleFacts E names M) := by
    apply inStep_collectModule hM hpass hS hempty
    · exact h.elementsStructNameMap.symm
    · intro F hF
      rw [h.no_aliases F (by rw [hF]; exact hX)]
      simp
  obtain ⟨W, hm, hn⟩ := hstep.writes
  -- a table of the new state is the old one with the writes, one of `moduleFacts` the writes
  have hunion : ∀ (T : Mlta → Prop) {w : Write}, (∀ m W, T (write m W) ↔ T m ∨ w ∈ W) →
      (∀ m : Mlta, T m.forgetAliases ↔ T m) → ¬ T { elementsStructNameMap := names } →
        (T (CallGraphPass.collectModule E S M).mlta ↔ T S.mlta ∨ T (moduleFacts E names M)) := by
    intro T w hwrite hforget hnot
    rw [← hforget, hm, hwrite, hforget, ← hforget (moduleFacts E names M), hn, hwrite, hforget,
      or_iff_right hnot]
  have hor : ∀ {P : ModPtr → Prop}, (∃ N, (N = M ∨ X N) ∧ P N) ↔ (∃ N, X N ∧ P N) ∨ P M := by
    intro P
    constructor
    · intro hex
      obtain ⟨N, hN, hP⟩ := hex
      rcases hN with rfl | hN
      · exact Or.inr hP
      · exact Or.inl ⟨N, hN, hP⟩
    · intro hex
      rcases hex with ⟨N, hN, hP⟩ | hP
      · exact ⟨N, Or.inr hN, hP⟩
      · exact ⟨M, Or.inl rfl, hP⟩
  refine ⟨?_, ?_, ?_, ?_, ?_, ?_, ?_⟩
  · rw [← hstep.names]
    have hnames := congrArg Mlta.elementsStructNameMap hn
    rw [names_write] at hnames
    exact hnames
  · intro F hF
    by_cases hFM : F.mod = M
    · rw [← hstep.rows F hFM, hFM]
    · rw [hstep.others F hFM]
      exact h.aliases F (hF.resolve_left hFM)
  · intro F hF
    rw [hstep.others F fun hFM => hF (Or.inl hFM)]
    exact h.no_aliases F fun hFX => hF (Or.inr hFX)
  · intro hash i F
    rw [hor, ← h.targets]
    apply hunion (fun m => F ∈ slot m.typeIdxFuncsMap hash i) (fun m W => mem_slot_write)
    · exact fun m => Iff.rfl
    · simp [slot]
  · intro hash i p
    rw [hor, ← h.props]
    apply hunion (fun m => p ∈ slot m.typeIdxPropMap hash i) (fun m W => mem_propSlot_write)
    · exact fun m => Iff.rfl
    · simp [slot]
  · intro hash
    rw [hor, ← h.caps]
    apply hunion (fun m => hash ∈ m.typeCapSet) (fun m W => mem_typeCapSet_write)
    · exact fun m => Iff.rfl
    · simp
  · intro hash
    rw [hor, ← h.escapes]
    apply hunion (fun m => hash ∈ m.typeEscapeSet) (fun m W => mem_typeEscapeSet_write)
    · exact fun m => Iff.rfl
    · simp

end FactsOf

theorem factsOf_collected {names : StructNames} {X : ModPtr → Prop} {S : CallGraphPass}
    {l : List ModPtr} (h : FactsOf E names X S.mlta) (hpass : PassesDirectly E ms)
    (hS : Partial E ms S.ctx.globalFuncMap) (hl : ∀ M ∈ l, M ∈ ms) (hX : ∀ M ∈ l, ¬ X M)
    (hnodup : l.Nodup) : FactsOf E names (fun M => M ∈ l ∨ X M) (collected E S l).mlta := by
  induction l generalizing S X with
  | nil => exact h.congr fun M => by simp
  | cons M l ih =>
    obtain ⟨hnew, hrest⟩ := List.nodup_cons.mp hnodup
    have hM := hl M List.mem_cons_self
    have hone := h.collectModule (hX M List.mem_cons_self) hM hpass hS
    have hmap : Partial E ms (collectModule E S M).ctx.globalFuncMap := by
      unfold collectModule
      apply Fold.foldl_invariant (I := fun T : CallGraphPass => Partial E ms T.ctx.globalFuncMap)
      · exact hS
      · exact fun T F hF hT => hT.initFunction hM hF
    have hlast := ih hone hmap (fun N hN => hl N (List.mem_cons_of_mem _ hN)) (by
      intro N hN hNX
      rcases hNX with rfl | hNX
      · exact hnew hN
      · exact hX N (List.mem_cons_of_mem _ hN) hNX) hrest
    show FactsOf E names _ (collected E (collectModule E S M) l).mlta
    apply hlast.congr
    intro N
    rw [List.mem_cons]
    tauto

end CallGraphPass

end Cisa

import Cisa.Lib.Fold
import Cisa.Lib.Trail
import Cisa.Lib.Worklist

/-!
# Loops that are unrolled once

Before a function is searched, the ends of its loops are redirected to where the loops are left.
The loops and what dominates what are as they were found at first, while the successors change
with every loop. Nothing is executed in the result that is not executed in the function as well.
-/

namespace Cisa

open Std Graph

namespace Mlta

abbrev BlockPtr := ℕ

abbrev LoopPtr := ℕ

/-- The successors in the terminators of the blocks, in the order of the operands. -/
abbrev Cfg := SortedMap BlockPtr (List BlockPtr)

def Cfg.succs (cfg : Cfg) (B : BlockPtr) : List BlockPtr := cfg.getD B []

/-- `setSuccessor(0, SuccB)` of the terminator of the block. -/
def Cfg.setSuccessor (cfg : Cfg) (B SuccB : BlockPtr) : Cfg :=
  cfg.insert B ((cfg.succs B).set 0 SuccB)

def Cfg.Edge (cfg : Cfg) (B C : BlockPtr) : Prop := C ∈ cfg.succs B

inductive Loop
  | mk (ptr : LoopPtr) (header : BlockPtr) (blocks : List BlockPtr) (subLoops : List Loop)

namespace Loop

def ptr : Loop → LoopPtr
  | .mk ptr _ _ _ => ptr

def header : Loop → BlockPtr
  | .mk _ header _ _ => header

def blocks : Loop → List BlockPtr
  | .mk _ _ blocks _ => blocks

def subLoops : Loop → List Loop
  | .mk _ _ _ subLoops => subLoops

mutual

/-- How many loops there are in a loop. -/
def size : Loop → ℕ
  | .mk _ _ _ subLoops => sizes subLoops + 1

def sizes : List Loop → ℕ
  | [] => 0
  | LP :: LPs => LP.size + sizes LPs

end

theorem size_eq (LP : Loop) : LP.size = sizes LP.subLoops + 1 := by
  cases LP
  rw [size, subLoops]

theorem sizes_append (LPs LPs' : List Loop) : sizes (LPs ++ LPs') = sizes LPs + sizes LPs' := by
  induction LPs with
  | nil => simp [sizes]
  | cons LP LPs ih =>
    rw [List.cons_append, sizes, sizes, ih]
    omega

end Loop

/-- What LLVM tells about the loops and the blocks of a function. The predecessors of a block are
in the order of its uses. -/
structure LoopInfo where
  loops : List Loop
  predecessors : Cfg → BlockPtr → List BlockPtr
  /-- Whether the edge between the first blocks dominates the last. -/
  dominates : Cfg → BlockPtr → BlockPtr → BlockPtr → Bool

/-- One iteration of the loop that empties `LPL`. -/
def pushSubLoops (LPSet : SortedMap LoopPtr Loop) (LP : Loop) :
    SortedMap LoopPtr Loop × List Loop :=
  (LP.subLoops.foldl (fun LPSet SubLP => LPSet.insert SubLP.ptr SubLP) LPSet, LP.subLoops)

theorem pushSubLoops_isSome (LPSet : SortedMap LoopPtr Loop) (LP : Loop) :
    (Worklist.run pushSubLoops LP.size LPSet [LP]).isSome := by
  have h := Worklist.run_isSome pushSubLoops (id : Loop → Loop) (I := fun _ _ => True)
    (μ := fun _ LPL => Loop.sizes LPL) (n := LP.size) (s := LPSet) (q := [LP]) ?_ trivial ?_
  · simpa using h
  · intro LPSet LP LPL _
    refine ⟨LP.subLoops, by simp [pushSubLoops], trivial, ?_⟩
    rw [Loop.sizes_append, Loop.sizes, Loop.size_eq]
    omega
  · simp [Loop.sizes]

/-- `LPSet`, in the order of the pointers. -/
def collectLoops (LI : List Loop) : List Loop :=
  (LI.foldl (fun LPSet LP =>
    (Worklist.run pushSubLoops LP.size (LPSet.insert LP.ptr LP) [LP]).get
      (pushSubLoops_isSome _ LP)) (∅ : SortedMap LoopPtr Loop)).toList.map Prod.snd

section Unroll

variable (LI : LoopInfo)

/-- What is done for one latch. The terminator that is changed is not the one whose successors
are listed, or the successor that is replaced has been listed before. -/
def unrollLatch (HeaderB : BlockPtr) (cfg : Cfg) (LatchB : BlockPtr) : Cfg :=
  if (cfg.succs LatchB).length = 1 then
    (cfg.succs HeaderB).foldl (fun cfg SuccB =>
      if LI.dominates cfg HeaderB SuccB LatchB then cfg else cfg.setSuccessor LatchB SuccB) cfg
  else
    (cfg.succs LatchB).foldl (fun cfg SuccB =>
      if SuccB = HeaderB then cfg else cfg.setSuccessor LatchB SuccB) cfg

def latches (cfg : Cfg) (LP : Loop) : List BlockPtr :=
  (LI.predecessors cfg LP.header).filter fun B => B ∈ LP.blocks

def unrollLoop (cfg : Cfg) (LP : Loop) : Cfg :=
  (latches LI cfg LP).foldl (unrollLatch LI LP.header) cfg

def unrollLoops (isDeclaration : Bool) (cfg : Cfg) : Cfg :=
  if isDeclaration then cfg else (collectLoops LI.loops).foldl (unrollLoop LI) cfg

end Unroll

inductive Listed (LI : List Loop) : Loop → Prop
  | top {LP : Loop} (mem : LP ∈ LI) : Listed LI LP
  | sub {LP SubLP : Loop} (listed : Listed LI LP) (mem : SubLP ∈ LP.subLoops) : Listed LI SubLP

/-- What LLVM promises: the header of a loop dominates its blocks, and predecessors have an
edge. -/
structure LoopInfo.Ok (LI : LoopInfo) (entry : BlockPtr) (cfg : Cfg) : Prop where
  edge : ∀ (cfg : Cfg) (B P : BlockPtr), P ∈ LI.predecessors cfg B → cfg.Edge P B
  header : ∀ LP, Listed LI.loops LP → ∀ B ∈ LP.blocks, Dominates cfg.Edge entry LP.header B

variable {LI : LoopInfo} {entry : BlockPtr} {cfg cfg₀ : Cfg}

/-- All loops of the set have the property. -/
def AllLoops (P : Loop → Prop) (LPSet : SortedMap LoopPtr Loop) : Prop :=
  ∀ (ptr : LoopPtr) (LP : Loop), LPSet[ptr]? = some LP → P LP

theorem AllLoops.insert {P : Loop → Prop} {LPSet : SortedMap LoopPtr Loop}
    (h : AllLoops P LPSet) {LP : Loop} (hLP : P LP) : AllLoops P (LPSet.insert LP.ptr LP) := by
  intro ptr LP' hget
  rw [ExtTreeMap.getElem?_insert_eq_ite] at hget
  split_ifs at hget
  · exact Option.some.inj hget ▸ hLP
  · exact h ptr LP' hget

theorem listed_of_mem_collectLoops {LPs : List Loop} {LP : Loop} (h : LP ∈ collectLoops LPs) :
    Listed LPs LP := by
  obtain ⟨⟨ptr, _⟩, hmem, rfl⟩ := List.mem_map.mp h
  refine Fold.foldl_invariant (I := AllLoops (Listed LPs)) (by simp [AllLoops]) ?_ ptr _
    (ExtTreeMap.mem_toList_iff_getElem?_eq_some.mp hmem)
  intro LPSet LP hLP hset
  have htop : Listed LPs LP := Listed.top hLP
  refine (Worklist.run_invariant pushSubLoops (I := fun LPSet LPL =>
    AllLoops (Listed LPs) LPSet ∧ ∀ LP ∈ LPL, Listed LPs LP) ?_
    (q := [LP]) ⟨hset.insert htop, by simpa using htop⟩ (Option.some_get _).symm).1
  rintro LPSet LP LPL ⟨hset, hqueue⟩
  rw [List.forall_mem_cons] at hqueue
  have hsub : ∀ SubLP ∈ LP.subLoops, Listed LPs SubLP := fun SubLP hmem => hqueue.1.sub hmem
  constructor
  · exact Fold.foldl_invariant (I := AllLoops (Listed LPs)) hset
      fun LPSet SubLP hmem hset => hset.insert (hsub SubLP hmem)
  · exact List.forall_mem_append.mpr ⟨hqueue.2, hsub⟩

/-- The function as it is after some loops, as compared to the function as it was at first. -/
structure Unrolls (entry : BlockPtr) (cfg₀ cfg : Cfg) (inLoop : BlockPtr → Prop) : Prop where
  shortcut : ∀ B C, cfg.Edge B C → Shortcut cfg₀.Edge entry B C
  length : ∀ B, (cfg.succs B).length = (cfg₀.succs B).length
  tail : ∀ B, (cfg.succs B).tail = (cfg₀.succs B).tail
  outside : ∀ B, ¬ inLoop B → cfg.succs B = cfg₀.succs B

variable {inLoop : BlockPtr → Prop}

theorem unrolls_refl : Unrolls entry cfg cfg inLoop :=
  ⟨fun _ _ h => Shortcut.of_edge h, fun _ => rfl, fun _ => rfl, fun _ _ => rfl⟩

theorem succs_setSuccessor (cfg : Cfg) (B SuccB C : BlockPtr) :
    (cfg.setSuccessor B SuccB).succs C =
      if B = C then (cfg.succs B).set 0 SuccB else cfg.succs C := by
  rw [Cfg.setSuccessor, Cfg.succs, ExtTreeMap.getD_insert]
  simp only [LawfulEqCmp.compare_eq_iff_eq]
  rfl

theorem tail_set_zero (Bs : List BlockPtr) (B : BlockPtr) : (Bs.set 0 B).tail = Bs.tail := by
  cases Bs <;> rfl

theorem Unrolls.setSuccessor (h : Unrolls entry cfg₀ cfg inLoop) {B SuccB : BlockPtr}
    (hB : inLoop B) (hSucc : Shortcut cfg₀.Edge entry B SuccB) :
    Unrolls entry cfg₀ (cfg.setSuccessor B SuccB) inLoop := by
  constructor
  · intro C D hedge
    rw [Cfg.Edge, succs_setSuccessor] at hedge
    split_ifs at hedge with hC
    · subst hC
      rcases List.mem_or_eq_of_mem_set hedge with hold | rfl
      · exact h.shortcut B D hold
      · exact hSucc
    · exact h.shortcut C D hedge
  · intro C
    rw [succs_setSuccessor]
    split_ifs with hC
    · rw [List.length_set, ← hC, h.length]
    · exact h.length C
  · intro C
    rw [succs_setSuccessor]
    split_ifs with hC
    · rw [tail_set_zero, ← hC, h.tail]
    · exact h.tail C
  · intro C hC
    rw [succs_setSuccessor, if_neg, h.outside C hC]
    rintro rfl
    exact hC hB

/-- A latch goes to the header, and the header goes to where the loop is left. -/
theorem Unrolls.unrollLatch (h : Unrolls entry cfg₀ cfg inLoop) {HeaderB LatchB : BlockPtr}
    (hin : inLoop LatchB) (hback : Shortcut cfg₀.Edge entry LatchB HeaderB)
    (hdom : Dominates cfg₀.Edge entry HeaderB LatchB) :
    Unrolls entry cfg₀ (unrollLatch LI HeaderB cfg LatchB) inLoop := by
  unfold Mlta.unrollLatch
  split_ifs
  · apply Fold.foldl_invariant (I := fun cfg' => Unrolls entry cfg₀ cfg' inLoop) h
    intro cfg' SuccB hSucc h'
    split_ifs
    · exact h'
    · exact h'.setSuccessor hin (hback.trans hdom (h.shortcut HeaderB SuccB hSucc))
  · apply Fold.foldl_invariant (I := fun cfg' => Unrolls entry cfg₀ cfg' inLoop) h
    intro cfg' SuccB hSucc h'
    split_ifs
    · exact h'
    · exact h'.setSuccessor hin (h.shortcut LatchB SuccB hSucc)

/-- The latches of a loop are found before any of them is redirected. -/
theorem Unrolls.unrollLoop (h : Unrolls entry cfg₀ cfg inLoop) (hok : LI.Ok entry cfg₀)
    {LP : Loop} (hLP : Listed LI.loops LP) (hin : ∀ B ∈ LP.blocks, inLoop B) :
    Unrolls entry cfg₀ (unrollLoop LI cfg LP) inLoop := by
  apply Fold.foldl_invariant (I := fun cfg' => Unrolls entry cfg₀ cfg' inLoop) h
  intro cfg' LatchB hLatch h'
  obtain ⟨hpred, hblock⟩ := List.mem_filter.mp hLatch
  have hblock : LatchB ∈ LP.blocks := by simpa using hblock
  exact h'.unrollLatch (hin LatchB hblock)
    (h.shortcut LatchB LP.header (hok.edge cfg LP.header LatchB hpred))
    (hok.header LP hLP LatchB hblock)

def InLoop (LI : LoopInfo) (B : BlockPtr) : Prop := ∃ LP, Listed LI.loops LP ∧ B ∈ LP.blocks

theorem unrolls_unrollLoops (hok : LI.Ok entry cfg) (isDeclaration : Bool) :
    Unrolls entry cfg (unrollLoops LI isDeclaration cfg) (InLoop LI) := by
  unfold unrollLoops
  split_ifs
  · exact unrolls_refl
  · apply Fold.foldl_invariant (I := fun cfg' => Unrolls entry cfg cfg' (InLoop LI)) unrolls_refl
    intro cfg' LP hLP h'
    have hlisted := listed_of_mem_collectLoops hLP
    exact h'.unrollLoop hok hlisted fun B hB => ⟨LP, hlisted, hB⟩

/-- The first successor of a block has been kept, or led back to what dominates the block. -/
def FirstKept (entry : BlockPtr) (cfg₀ cfg : Cfg) (B : BlockPtr) : Prop :=
  cfg.succs B = cfg₀.succs B ∨
    ∀ C, (cfg₀.succs B).head? = some C → Dominates cfg₀.Edge entry C B

theorem succs_unrollLatch {HeaderB LatchB B : BlockPtr} (hB : LatchB ≠ B) :
    (unrollLatch LI HeaderB cfg LatchB).succs B = cfg.succs B := by
  have hstep : ∀ (cfg' : Cfg) (SuccB : BlockPtr),
      (cfg'.setSuccessor LatchB SuccB).succs B = cfg'.succs B := by
    intro cfg' SuccB
    rw [succs_setSuccessor, if_neg hB]
  unfold unrollLatch
  split_ifs
  · apply Fold.foldl_frame (p := fun cfg' : Cfg => cfg'.succs B)
    intro cfg' SuccB
    split_ifs
    · rfl
    · exact hstep cfg' SuccB
  · apply Fold.foldl_frame (p := fun cfg' : Cfg => cfg'.succs B)
    intro cfg' SuccB
    split_ifs
    · rfl
    · exact hstep cfg' SuccB

/-- A latch whose other successor is the first one stays as it is. -/
theorem succs_unrollLatch_second {HeaderB LatchB B : BlockPtr} (hB : B ≠ HeaderB)
    (hsuccs : cfg.succs LatchB = [B, HeaderB]) :
    (unrollLatch LI HeaderB cfg LatchB).succs LatchB = [B, HeaderB] := by
  unfold unrollLatch
  rw [hsuccs, if_neg (by simp)]
  simp only [List.foldl_cons, List.foldl_nil, if_neg hB, if_true]
  rw [succs_setSuccessor, if_pos rfl, hsuccs]
  rfl

/-- Two ways to go on from a latch: one of them is the header. -/
theorem firstKept_unrollLatch (h : ∀ B, FirstKept entry cfg₀ cfg B) {HeaderB LatchB : BlockPtr}
    (hlatch : HeaderB ∈ cfg₀.succs LatchB ∨
      ∀ C, (cfg₀.succs LatchB).head? = some C → Dominates cfg₀.Edge entry C LatchB)
    (hdom : Dominates cfg₀.Edge entry HeaderB LatchB) (hlen : (cfg₀.succs LatchB).length ≤ 2)
    (B : BlockPtr) : FirstKept entry cfg₀ (unrollLatch LI HeaderB cfg LatchB) B := by
  by_cases hB : LatchB = B
  · subst hB
    rcases hlatch with hheader | hfirst
    · rcases h LatchB with hsame | hfirst
      · match hsuccs : cfg₀.succs LatchB, hlen, hheader with
        | [C], _, hheader =>
          right
          rw [hsuccs]
          rintro _ ⟨⟩
          exact List.mem_singleton.mp hheader ▸ hdom
        | [C, D], _, hheader =>
          by_cases hC : C = HeaderB
          · right
            rw [hsuccs]
            rintro _ ⟨⟩
            exact hC ▸ hdom
          · left
            obtain rfl : HeaderB = D := by simpa [Ne.symm hC] using hheader
            rw [hsuccs]
            exact succs_unrollLatch_second hC (hsame.trans hsuccs)
      · exact Or.inr hfirst
    · exact Or.inr hfirst
  · rw [FirstKept, succs_unrollLatch hB]
    exact h B

theorem firstKept_unrollLoop (h : ∀ B, FirstKept entry cfg₀ cfg B) (hok : LI.Ok entry cfg₀)
    {LP : Loop} (hLP : Listed LI.loops LP) (hlen : ∀ B ∈ LP.blocks, (cfg₀.succs B).length ≤ 2) :
    ∀ B, FirstKept entry cfg₀ (unrollLoop LI cfg LP) B := by
  apply Fold.foldl_invariant (I := fun cfg' => ∀ B, FirstKept entry cfg₀ cfg' B) h
  intro cfg' LatchB hLatch h'
  obtain ⟨hpred, hblock⟩ := List.mem_filter.mp hLatch
  have hblock : LatchB ∈ LP.blocks := by simpa using hblock
  apply firstKept_unrollLatch h' _ (hok.header LP hLP LatchB hblock) (hlen LatchB hblock)
  -- the edge to the header is there when the latches are listed
  have hedge : LP.header ∈ cfg.succs LatchB := hok.edge cfg LP.header LatchB hpred
  rcases h LatchB with hsame | hfirst
  · exact Or.inl (hsame ▸ hedge)
  · exact Or.inr hfirst

theorem exists_trail_unrollLoops_iff (hok : LI.Ok entry cfg)
    (hlen : ∀ B, InLoop LI B → (cfg.succs B).length ≤ 2) (isDeclaration : Bool) (B : BlockPtr) :
    (∃ S, Trail (unrollLoops LI isDeclaration cfg).Edge entry B S) ↔
      ∃ S, Trail cfg.Edge entry B S := by
  have h := unrolls_unrollLoops hok isDeclaration
  have hfirst : ∀ B, FirstKept entry cfg (unrollLoops LI isDeclaration cfg) B := by
    unfold unrollLoops
    split_ifs
    · exact fun _ => Or.inl rfl
    · apply Fold.foldl_invariant (I := fun cfg' => ∀ B, FirstKept entry cfg cfg' B)
        fun _ => Or.inl rfl
      intro cfg' LP hLP h'
      have hlisted := listed_of_mem_collectLoops hLP
      exact firstKept_unrollLoop h' hok hlisted fun B hB => hlen B ⟨LP, hlisted, hB⟩
  constructor
  · rintro ⟨S, hS⟩
    exact ⟨S, hS.of_shortcuts h.shortcut⟩
  · rintro ⟨S, hS⟩
    refine hS.exists_trail ?_ B hS.end_mem
    intro C D hedge
    rcases hfirst C with hsame | hdom
    · left
      rw [Cfg.Edge, hsame]
      exact hedge
    · match hsuccs : cfg.succs C, hedge with
      | [], hedge => simp [Cfg.Edge, hsuccs] at hedge
      | C' :: Cs, hedge =>
        rw [Cfg.Edge, hsuccs] at hedge
        rcases List.mem_cons.mp hedge with rfl | hedge
        · exact Or.inr (hdom D (by rw [hsuccs]; rfl))
        · left
          rw [Cfg.Edge]
          apply List.mem_of_mem_tail
          rw [h.tail, hsuccs]
          exact hedge

/-- A function is unrolled whenever its module is analysed; what LLVM tells is about the function
as it is then, and `C` is assumed of it. -/
inductive Unrolling (entry : BlockPtr) (C : LoopInfo → Cfg → Prop) (cfg : Cfg) : Cfg → Prop
  | start : Unrolling entry C cfg cfg
  | pass {cfg' : Cfg} (LI : LoopInfo) (isDeclaration : Bool)
      (unrolling : Unrolling entry C cfg cfg') (ok : LI.Ok entry cfg') (hC : C LI cfg') :
      Unrolling entry C cfg (unrollLoops LI isDeclaration cfg')

variable {cfg' : Cfg}

/-- Whatever the unrolled function executes from its entry to a block, the function executes as
well, the same blocks and no others. Only first successors in loops are replaced; so a function
is left where it has been left, and a back edge that is a later successor stays. -/
theorem unrolled_trails {C : LoopInfo → Cfg → Prop} (h : Unrolling entry C cfg cfg') :
    (∀ B S, Trail cfg'.Edge entry B S → Trail cfg.Edge entry B S) ∧
    (∀ B, (cfg'.succs B).length = (cfg.succs B).length ∧
      (cfg'.succs B).tail = (cfg.succs B).tail) ∧
    ∀ B, (∀ LI cfg, C LI cfg → ¬ InLoop LI B) → cfg'.succs B = cfg.succs B := by
  induction h with
  | start => exact ⟨fun _ _ h => h, fun _ => ⟨rfl, rfl⟩, fun _ _ => rfl⟩
  | pass LI isDeclaration _ hok hC ih =>
    obtain ⟨htrails, hrest, houtside⟩ := ih
    have hstep := unrolls_unrollLoops hok isDeclaration
    refine ⟨?_, ?_, ?_⟩
    · exact fun B S hS => htrails B S (hS.of_shortcuts hstep.shortcut)
    · exact fun B => ⟨(hstep.length B).trans (hrest B).1, (hstep.tail B).trans (hrest B).2⟩
    · exact fun B hB => (hstep.outside B (hB LI _ hC)).trans (houtside B hB)

/-- As long as no block of a loop has more than two successors, the unrolled function gets to the
same blocks as the function. (A switch at the end of a loop can lose its first successor.) -/
theorem unrolled_reaches_iff (h : Unrolling entry
      (fun LI cfg => ∀ B, InLoop LI B → (cfg.succs B).length ≤ 2) cfg cfg') (B : BlockPtr) :
    (∃ S, Trail cfg'.Edge entry B S) ↔ ∃ S, Trail cfg.Edge entry B S := by
  induction h with
  | start => exact Iff.rfl
  | pass LI isDeclaration _ hok hlen ih =>
    exact (exists_trail_unrollLoops_iff hok hlen isDeclaration B).trans ih

/-- `0: goto 1; 1: if (..) goto 2 else goto 3; 2: goto 1; 3: return`. -/
def whileCfg : Cfg := ExtTreeMap.ofList [(0, [1]), (1, [2, 3]), (2, [1]), (3, [])]

def whileInfo : LoopInfo where
  loops := [.mk 0 1 [1, 2] []]
  predecessors := fun cfg B => cfg.keys.filter fun P => B ∈ cfg.succs P
  dominates := fun _ _ SuccB LatchB => SuccB = LatchB

theorem eq_of_listed_while {LP : Loop} (hLP : Listed whileInfo.loops LP) :
    LP = .mk 0 1 [1, 2] [] := by
  induction hLP with
  | top hmem => exact List.mem_singleton.mp hmem
  | sub _ hmem ih =>
    subst ih
    simp [Loop.subLoops] at hmem

theorem whileInfo_ok : whileInfo.Ok 0 whileCfg where
  edge := by
    intro cfg B P hP
    simpa [Cfg.Edge] using (List.mem_filter.mp hP).2
  header := by
    intro LP hLP B hB S hS
    obtain rfl := eq_of_listed_while hLP
    have hne : B ≠ 0 := by
      rintro rfl
      simp [Loop.blocks] at hB
    clear hB
    induction hS with
    | start => exact absurd rfl hne
    | @step b c S hS hedge ih =>
      by_cases hb : b = 0
      · subst hb
        have hsuccs : whileCfg.succs 0 = [1] := by decide
        rw [Cfg.Edge, hsuccs, List.mem_singleton] at hedge
        subst hedge
        exact Set.mem_insert _ _
      · exact Set.mem_insert_of_mem _ (ih hb)

/-- The latch goes to the exit. -/
theorem unrolled_trails_while :
    (unrollLoops whileInfo false whileCfg).toList = [(0, [1]), (1, [2, 3]), (2, [3]), (3, [])] ∧
    ∀ B S, Trail (unrollLoops whileInfo false whileCfg).Edge 0 B S → Trail whileCfg.Edge 0 B S := by
  refine ⟨by decide, ?_⟩
  have hunrolling : Unrolling 0 (fun _ _ => True) whileCfg (unrollLoops whileInfo false whileCfg) :=
    Unrolling.start.pass whileInfo false whileInfo_ok trivial
  exact (unrolled_trails hunrolling).1

/-- The exit is still reached. -/
theorem unrolled_reaches_iff_while :
    (∃ S, Trail (unrollLoops whileInfo false whileCfg).Edge 0 3 S) ↔
      ∃ S, Trail whileCfg.Edge 0 3 S := by
  have hlen : ∀ B, InLoop whileInfo B → (whileCfg.succs B).length ≤ 2 := by
    rintro B ⟨LP, hLP, hB⟩
    obtain rfl := eq_of_listed_while hLP
    rcases (by simpa [Loop.blocks] using hB : B = 1 ∨ B = 2) with rfl | rfl
    · decide
    · decide
  exact unrolled_reaches_iff (Unrolling.start.pass whileInfo false whileInfo_ok hlen) 3

end Mlta

end Cisa

import Cisa.Ir
import Cisa.Lib.Walk

/-!
# The tables of the global context and the walk over the call graph

Maps from pointers read through `operator[]` are read with the default of a missing
entry; a null pointer stored by such a read is a missing entry here, except in
`moduleRevMaps`, where the entries themselves are of interest.
-/

namespace Cisa

open Std

abbrev FuncSet := SortedSet FuncPtr

abbrev PlainFuncMap := SortedMap FuncPtr FuncSet

/-- `GlobalContext`, without its statistics and the write-only table `Globals`. -/
structure GlobalContext where
  globalFuncMap : SortedMap ℕ FuncPtr := ∅
  addressTakenFuncs : FuncSet := ∅
  callees : PlainFuncMap := ∅
  callers : PlainFuncMap := ∅
  sigFuncsMap : SortedMap SizeT FuncSet := ∅
  modules : List (ModPtr × String) := []
  moduleMaps : SortedMap ModPtr String := ∅
  moduleRevMaps : SortedMap String (Option ModPtr) := ∅
  callerPaths : SortedMap String (SortedSet String) := ∅
  candCallerPaths : SortedMap SizeT (SortedSet String) := ∅
  bcFuncs : SortedMap String (SortedMap String FuncPtr) := ∅
  ancCache : PlainFuncMap := ∅
  negAncCache : PlainFuncMap := ∅

inductive CGWalkerReturn
  | next | skip | stop
deriving DecidableEq, Repr

inductive CGWalkerDir
  | down | up
deriving DecidableEq, Repr

namespace PlainFuncMap

variable (m : PlainFuncMap)

/-- The entries of the row of `F`, in the order of iteration. -/
def next (F : FuncPtr) : List FuncPtr := (m.row F).toList

/-- All entries of all rows. -/
def members : List FuncPtr := m.toList.flatMap fun p => p.2.toList

@[simp] theorem mem_next {F G : FuncPtr} : G ∈ next m F ↔ G ∈ m.row F := by
  simp [next]

theorem nodup_next (F : FuncPtr) : (next m F).Nodup := ExtTreeSet.nodup_toList

theorem row_eq_empty_or_mem_toList (F : FuncPtr) : m.row F = ∅ ∨ (F, m.row F) ∈ m.toList := by
  rw [ExtTreeMap.mem_toList_iff_getElem?_eq_some, ExtTreeMap.row,
    ExtTreeMap.getD_eq_getD_getElem?]
  cases m[F]? <;> simp

theorem mem_members {F G : FuncPtr} (h : G ∈ next m F) : G ∈ members m := by
  rcases row_eq_empty_or_mem_toList m F with h0 | hF
  · simp [h0] at h
  · exact List.mem_flatMap.mpr ⟨_, hF, h⟩

theorem length_next_le (F : FuncPtr) : (next m F).length ≤ (members m).length := by
  rcases row_eq_empty_or_mem_toList m F with h0 | hF
  · simp [next, h0]
  · have h := List.single_le_sum (l := m.toList.map fun p => p.2.toList.length) (by simp)
      (m.row F).toList.length (List.mem_map.mpr ⟨_, hF, rfl⟩)
    simpa [members, next, List.length_flatMap] using h

end PlainFuncMap

/-- `break` in the `STOP` case leaves the `switch`, not the loop: only `SKIP` keeps the
walk from pushing the successors. -/
def pushesNext : CGWalkerReturn → Bool
  | .skip => false
  | .stop => true
  | .next => true

/-- The actor of a walk, with the state it captures by reference. -/
abbrev CGWalkerActor (τ : Type) := τ → FuncPtr → CGWalkerReturn × τ

/-- What the actor means for the loop around it. -/
def walkStep {τ : Type} (action : CGWalkerActor τ) (t : τ) (F : FuncPtr) : Bool × τ :=
  let ret := action t F
  (pushesNext ret.1, ret.2)

/-- A budget under which every walk over `m` ends. -/
def walkFuel (m : PlainFuncMap) : ℕ :=
  ((PlainFuncMap.members m).length + 1) ^ ((PlainFuncMap.members m).length + 1)

theorem walk_isSome {τ : Type} (m : PlainFuncMap) (action : CGWalkerActor τ) (F : FuncPtr) (t : τ) :
    (Worklist.run (Walk.body (PlainFuncMap.next m) (walkStep action)) (walkFuel m)
      (∅, t) [F]).isSome := by
  apply Walk.run_isSome (U := F :: PlainFuncMap.members m) (B := (PlainFuncMap.members m).length)
  · intro x y hy
    exact List.mem_cons_of_mem _ (PlainFuncMap.mem_members m hy)
  · exact PlainFuncMap.length_next_le m
  · exact List.mem_cons_self
  · exact le_rfl

/-- The walk over one of the two maps: the functions visited and the actor's state. -/
def walk {τ : Type} (m : PlainFuncMap) (action : CGWalkerActor τ) (F : FuncPtr) (t : τ) :
    FuncSet × τ :=
  (Worklist.run (Walk.body (PlainFuncMap.next m) (walkStep action)) (walkFuel m) (∅, t) [F]).get
    (walk_isSome m action F t)

theorem run_eq_walk {τ : Type} (m : PlainFuncMap) (action : CGWalkerActor τ) (F : FuncPtr) (t : τ) :
    Worklist.run (Walk.body (PlainFuncMap.next m) (walkStep action)) (walkFuel m) (∅, t) [F] =
      some (walk m action F t) := by
  simp [walk]

/-- An edge out of a function from which the walk goes on. -/
def WalkEdge (m : PlainFuncMap) (go : FuncPtr → Bool) (F G : FuncPtr) : Prop :=
  go F = true ∧ G ∈ m.row F

/-- The walk covers exactly what is reached through the functions it goes on from; `J`
is what the actor has accumulated over the functions visited. -/
theorem walk_spec {τ : Type} {m : PlainFuncMap} {action : CGWalkerActor τ} {go : FuncPtr → Bool}
    (hgo : ∀ t F, pushesNext (action t F).1 = go F) {J : FuncSet → τ → Prop}
    (hJ : ∀ V t F, J V t → J (V.insert F) (action t F).2) (F : FuncPtr) {t : τ} (h0 : J ∅ t) :
    J (walk m action F t).1 (walk m action F t).2 ∧
      ∀ G, G ∈ (walk m action F t).1 ↔ Relation.ReflTransGen (WalkEdge m go) F G := by
  have hgo' : ∀ t F, (walkStep action t F).1 = go F := hgo
  have h := Walk.run_spec (PlainFuncMap.next m) (walkStep action) hgo' (J := J) hJ h0
    (run_eq_walk m action F t)
  have he : Walk.Steps (PlainFuncMap.next m) go = WalkEdge m go := by
    funext x y
    simp [Walk.Steps, WalkEdge]
  rwa [he] at h

namespace GlobalContext

variable (ctx : GlobalContext)

def nextmap : CGWalkerDir → PlainFuncMap
  | .down => ctx.callees
  | .up => ctx.callers

/-- `VisitSubtreeBFS`; the result is the state the actor has captured. -/
def visitSubtreeBFS {τ : Type} (F : FuncPtr) (dir : CGWalkerDir) (action : CGWalkerActor τ)
    (t : τ) : τ :=
  (walk (ctx.nextmap dir) action F t).2

/-- A walk whose actor always answers `NEXT`: `J` is what the actor has accumulated over
the functions visited. -/
theorem visit_next_spec {τ : Type} {step : τ → FuncPtr → τ} {J : FuncSet → τ → Prop}
    (hJ : ∀ V t F, J V t → J (V.insert F) (step t F)) (F : FuncPtr) (dir : CGWalkerDir) {t : τ}
    (h0 : J ∅ t) :
    ∃ V, J V (ctx.visitSubtreeBFS F dir (fun t G => (.next, step t G)) t) ∧
      ∀ G, G ∈ V ↔ Relation.ReflTransGen (fun A B => B ∈ (ctx.nextmap dir).row A) F G := by
  have hgo : ∀ (t : τ) G, pushesNext (CGWalkerReturn.next, step t G).1 = true := fun _ _ => rfl
  obtain ⟨hacc, hmem⟩ := walk_spec (m := ctx.nextmap dir) hgo hJ F h0
  have hstep : WalkEdge (ctx.nextmap dir) (fun _ => true) =
      fun A B => B ∈ (ctx.nextmap dir).row A := by
    funext A B
    simp [WalkEdge]
  rw [hstep] at hmem
  exact ⟨_, hacc, hmem⟩

/-- The actor of `IsAncestor`. `IsCachedAnc(CurF, DesF)` and `IsCachedNegAnc(CurF, DesF)`
look `DesF` up in the rows of `CurF`. -/
def isAncestorActor (des : FuncPtr) : CGWalkerActor Bool := fun is_anc cur =>
  if cur = des ∨ des ∈ ctx.ancCache.row cur then (.stop, true)
  else if des ∈ ctx.negAncCache.row cur then (.skip, is_anc)
  else (.next, is_anc)

/-- Check if `anc` is the ancestor of `des`. -/
def isAncestor (anc des : FuncPtr) : Bool × GlobalContext :=
  if anc = des then (false, ctx)
  else if anc ∈ ctx.ancCache.row des then (true, ctx)
  else if anc ∈ ctx.negAncCache.row des then (false, ctx)
  else if ctx.visitSubtreeBFS anc .down (ctx.isAncestorActor des) false then
    (true, { ctx with ancCache := ctx.ancCache.addTo des anc })
  else (false, { ctx with negAncCache := ctx.negAncCache.addTo des anc })

/-- `GetFunction`; an empty path searches all modules in the order of their paths. -/
def getFunction (func path : String) : Option FuncPtr :=
  if path ≠ "" then (ctx.bcFuncs.getD path ∅)[func]?
  else ctx.bcFuncs.toList.findSome? fun p => p.2[func]?

/-- `GetAllFunctions`: the functions with their paths, in the order of the set it fills. -/
def getAllFunctions : List (FuncPtr × String) :=
  (ctx.bcFuncs.toList.foldl (fun funcs p =>
    p.2.toList.foldl (fun funcs p2 => funcs.addTo p2.2 p.1) funcs)
      (∅ : SortedMap FuncPtr (SortedSet String))).toList.flatMap
    fun r => r.2.toList.map fun path => (r.1, path)

/-- `GetAllModuleFunctions`, as the set it fills. -/
def getAllModuleFunctions (path : String) : FuncSet :=
  ExtTreeSet.ofElems ((ctx.bcFuncs.getD path ∅).toList.map Prod.snd)

end GlobalContext

end Cisa

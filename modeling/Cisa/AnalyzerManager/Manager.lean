import Cisa.Analyzer.Oper
import Cisa.Analyzer.Sub

/-!
# The analyzer manager

The registered analyzers, the results of the current commit, and what carries both from
the functions of an old file to those of its new version.
-/

namespace Cisa

open Std

/-- `IAnalyzer`: the classes that implement it. -/
inductive IAnalyzer
  | oper (A : OperationLevelAnalyzer)
  | sub (A : SubsystemLevelAnalyzer)

namespace IAnalyzer

def name : IAnalyzer → String
  | oper _ => "oper"
  | sub _ => "sub"

/-- The tags of one kind; a kind that the analyzer does not have has no tags. -/
def tags (F : FuncPtr) (idx : ℕ) : IAnalyzer → SortedSet String
  | oper A => A.getTags F idx
  | sub A => A.getTags F idx

def move (PreF PostF : FuncPtr) : IAnalyzer → IAnalyzer
  | oper A => oper (A.move PreF PostF)
  | sub A => sub (A.move PreF PostF)

def remove (F : FuncPtr) : IAnalyzer → IAnalyzer
  | oper A => oper (A.remove F)
  | sub A => sub (A.remove F)

def update (E : Env) (n : ℕ) (ctx : GlobalContext) (F : FuncPtr) :
    IAnalyzer → Option (IAnalyzer × GlobalContext)
  | oper A => (A.update E n ctx F).map fun r => (oper r.1, r.2)
  | sub A => some (sub (A.update E F), ctx)

def aggregate (ctx : GlobalContext) (F : FuncPtr) : IAnalyzer → AnalyzerReturn × IAnalyzer
  | oper A => ((A.aggregate ctx F).1, oper (A.aggregate ctx F).2)
  | sub A => (A.aggregate ctx F, sub A)

theorem tags_move {A : IAnalyzer} {P Q F : FuncPtr} {idx : ℕ} :
    (A.move P Q).tags F idx =
      if P = F then ∅ else if Q = F then A.tags P idx else A.tags F idx := by
  cases A with
  | oper A => exact A.getTags_move
  | sub A => exact A.getTags_move

theorem tags_remove {A : IAnalyzer} {F G : FuncPtr} {idx : ℕ} :
    (A.remove F).tags G idx = if F = G then ∅ else A.tags G idx := by
  cases A with
  | oper A => exact A.getTags_remove
  | sub A => exact A.getTags_remove

end IAnalyzer

namespace AnalyzerManager

/-- The changed lines of a file. -/
structure ChangeInfo where
  bcPath : String := ""
  delLines : List ℤ := []
  addLines : List ℤ := []
deriving DecidableEq, Repr

abbrev FunctionLinePair := FuncPtr × ℤ

abbrev Results := SortedMap FuncPtr (SortedMap String AnalyzerReturn)

/-- What the current commit has changed, and its results. -/
structure Context where
  hexsha : String := ""
  cis : SortedMap String ChangeInfo := ∅
  res : Results := ∅

/-- `Context::Initialize`. -/
def Context.start (hexsha : String) (cis : List ChangeInfo) : Context where
  hexsha := hexsha
  cis := cis.foldl (fun m ci => m.insert ci.bcPath ci) ∅

structure State where
  gctx : GlobalContext := {}
  analyzers : List IAnalyzer := []
  cur : Context := {}

/-- `_Update`. -/
def updateFunction (E : Env) (n : ℕ) (S : State) (F : FuncPtr) : Option State := do
  let anals := S.analyzers.map (IAnalyzer.remove F)
  let (anals, gctx) ← anals.foldlM (fun s A => do
    let (A, gctx) ← A.update E n s.2 F
    return (s.1 ++ [A], gctx)) ([], S.gctx)
  return { S with analyzers := anals, gctx := gctx }

/-- `aret_res[name].insert(relset)` for every entry. -/
def mergeReturn (old new : AnalyzerReturn) : AnalyzerReturn :=
  new.toList.foldl (fun m p => m.addAll p.1 p.2) old

/-- `cur.res[F][name]`. -/
def resultOf (res : Results) (F : FuncPtr) (name : String) : AnalyzerReturn :=
  (res.getD F ∅).getD name ∅

/-- Insert `aret` into `cur.res[F][name]`. -/
def addResult (res : Results) (F : FuncPtr) (name : String) (aret : AnalyzerReturn) : Results :=
  res.insert F ((res.getD F ∅).insert name (mergeReturn (resultOf res F name) aret))

/-- `_Aggregate`. -/
def aggregateFunction (S : State) (F : FuncPtr) : State :=
  let s := S.analyzers.foldl (fun s A =>
    let (ret, A) := A.aggregate S.gctx F
    (s.1 ++ [A], addResult s.2 F A.name ret)) (([] : List IAnalyzer), S.cur.res)
  { S with analyzers := s.1, cur := { S.cur with res := s.2 } }

/-- The loop over `add_lines`. -/
def countUnchanged (postLine : ℤ) : List ℤ → ℤ → ℤ
  | [], n => n
  | addL :: rest, n => if addL > postLine then n else countUnchanged postLine rest (n - 1)

/-- The loop over `del_lines`. -/
def skipDeleted : List ℤ → ℤ → ℤ → ℤ
  | [], preLine, n => preLine + n
  | delL :: rest, preLine, n =>
    let newNn := n - (delL - preLine - 1)
    if newNn ≤ 0 then preLine + n else skipDeleted rest delL newNn

def mapPostToPreLine (cur : Context) (path : String) (postLine : ℤ) : ℤ :=
  let ci := cur.cis.getD path {}
  skipDeleted ci.delLines 0 (countUnchanged postLine ci.addLines postLine)

/-- The loop over `del_flps` for one range around the mapped line. -/
def findWithin (r preNewLine : ℤ) (delFlps : List FunctionLinePair) : Option FunctionLinePair :=
  delFlps.find? fun delFL => -r ≤ delFL.2 - preNewLine && delFL.2 - preNewLine ≤ r

/-- The old function that a new function at the mapped line is matched with. -/
def matchingDelF (preNewLine : ℤ) (delFlps : List FunctionLinePair) : Option FunctionLinePair :=
  (List.range 4).findSome? fun r : ℕ => findWithin r preNewLine delFlps

/-- The results of `matching_delF` are copied to `newF`. -/
def copyResults (res : Results) (delF newF : FuncPtr) : Results :=
  (res.getD delF ∅).toList.foldl (fun res p => addResult res newF p.1 p.2)
    (res.insert delF (res.getD delF ∅))

/-- One new function of `_CorrectChanges`. -/
def correctChange (path : String) (delFlps : List FunctionLinePair) (S : State)
    (newFL : FunctionLinePair) : State :=
  match matchingDelF (mapPostToPreLine S.cur path newFL.2) delFlps with
  | some delFL =>
    { S with
      analyzers := S.analyzers.map (IAnalyzer.move delFL.1 newFL.1)
      cur := { S.cur with res := copyResults S.cur.res delFL.1 newFL.1 } }
  | none => S

/-- The state data of an old function are removed. -/
def removeFunction (S : State) (delFL : FunctionLinePair) : State :=
  { S with
    analyzers := S.analyzers.map (IAnalyzer.remove delFL.1)
    cur := { S.cur with res := S.cur.res.erase delFL.1 } }

def correctChanges (S : State) (path : String) (delFlps newFlps : List FunctionLinePair) : State :=
  delFlps.foldl removeFunction (newFlps.foldl (correctChange path delFlps) S)

end AnalyzerManager

end Cisa

import Cisa.AnalyzerManager.Manager
import Cisa.CallGraph.TypeDive

/-!
# Commits

`initializeProgram` loads the files and tags their functions. `updateModules` processes a
commit: it aggregates the changed old functions, updates the modules, carries the
analysis data over, tags the changed new functions and aggregates them.
-/

namespace Cisa

open Std

namespace AnalyzerManager

variable (E : Env)

def getPrototypeLine (F : FuncPtr) : ℤ := ((E.function F).subprogramLine.getD 0 : ℕ)

/-- The line of the last instruction. -/
def tailLine (F : FuncPtr) : ℤ :=
  (((E.insts F).getLast?.bind fun I => (E.value I).debugLine).getD 0 : ℕ)

def getChangedFuncs (funcs : FuncSet) (chLines : List ℤ) : List FuncPtr :=
  funcs.toList.filter fun F => chLines.any fun chLine =>
    getPrototypeLine E F ≤ chLine && chLine ≤ tailLine E F

def getRedefFuncs (funcs : FuncSet) : List FunctionLinePair :=
  funcs.toList.map fun F => (F, getPrototypeLine E F)

/-- The changed functions of the paths, where `lines` are the changed lines. -/
def changedFuncs (S : State) (upPaths : List String) (lines : ChangeInfo → List ℤ) :
    List FuncPtr :=
  upPaths.flatMap fun p =>
    getChangedFuncs E (S.gctx.getAllModuleFunctions p) (lines (S.cur.cis.getD p {}))

/-- `del_infos[path]` and `add_infos[path]`. -/
def redefInfos (gctx : GlobalContext) (path : String) : List FunctionLinePair :=
  getRedefFuncs E (gctx.getAllModuleFunctions path)

theorem map_fst_redefInfos (gctx : GlobalContext) (path : String) :
    (redefInfos E gctx path).map Prod.fst = (gctx.getAllModuleFunctions path).toList := by
  simp [redefInfos, getRedefFuncs, Function.comp_def]

def printRelSet (last : Bool) (name : String) (relset : RelSet) : String :=
  "  \"" ++ name ++ "\": [\n" ++
    String.join (relset.toList.map fun sc => "    \"" ++ sc ++ "\",\n") ++
    (if last then "  ]\n" else "  ],\n")

def printJson (aret : AnalyzerReturn) : String :=
  "\x7b\n" ++ String.join (aret.toList.mapIdx fun idx p =>
    printRelSet (aret.size ≤ idx + 1) p.1 p.2) ++ "\x7d\n"

/-- `_Commit`: the paths of the files that are written, with their texts. -/
def commit (outPath : String) (cur : Context) : List (String × String) :=
  cur.res.toList.flatMap fun r => r.2.toList.filterMap fun p =>
    if p.2.isEmpty then none
    else some (outPath ++ "/" ++ cur.hexsha ++ "/" ++ (E.function r.1).name ++ "/" ++ p.1,
      printJson p.2)

/-- The call graph generator with the analyzers, the current commit and the files that
have been written. -/
structure Program where
  td : CallGraphPass := {}
  analyzers : List IAnalyzer := []
  cur : Context := {}
  outPath : String := ""
  written : SortedMap String String := ∅

def Program.state (P : Program) : State where
  gctx := P.td.ctx
  analyzers := P.analyzers
  cur := P.cur

def Program.setState (P : Program) (S : State) : Program :=
  { P with td := { P.td with ctx := S.gctx }, analyzers := S.analyzers, cur := S.cur }

/-- The registered analyzers; `n` is the budget of the loops of an update. -/
def initializeProgram (n : ℕ) (analyzers : List IAnalyzer) (files : List BCFile) (outPath : String) :
    Option Program := do
  let P : Program := { td := TypeDive.initializeModules E files, analyzers, outPath }
  let S ← (P.td.ctx.getAllFunctions.map Prod.fst).foldlM (updateFunction E n) P.state
  return P.setState S

/-- Aggregate the functions in turn, if `do_agg` is set. -/
def aggregateFunctions (doAgg : Bool) (S : State) (Fs : List FuncPtr) : State :=
  if doAgg then Fs.foldl aggregateFunction S else S

/-- The state when `td->UpdateModules` is called. -/
def beforeUpdate (P : Program) (hexsha : String) (cis : List ChangeInfo) (upPaths : List String)
    (doAgg : Bool) : State :=
  let S : State := { P.state with cur := Context.start hexsha cis }
  aggregateFunctions doAgg S (changedFuncs E S upPaths ChangeInfo.delLines)

/-- Map old per-function analysis data to new functions, path by path. -/
def correctPaths (delInfos : String → List FunctionLinePair) (S : State) (upPaths : List String) :
    State :=
  (ExtTreeSet.ofElems upPaths).toList.foldl (fun T path =>
    correctChanges T path (delInfos path) (redefInfos E S.gctx path)) S

/-- What `UpdateModules` does once the modules are updated, up to the second aggregation. -/
def afterUpdate (n : ℕ) (delInfos : String → List FunctionLinePair) (upPaths : List String)
    (S : State) : Option State :=
  (changedFuncs E S upPaths ChangeInfo.addLines).foldlM (updateFunction E n)
    (correctPaths E delInfos S upPaths)

def updateModules (n : ℕ) (P : Program) (hexsha : String) (files : List BCFile)
    (cis : List ChangeInfo) (doAgg : Bool) : Option Program := do
  let upPaths := files.map Prod.fst
  let S := beforeUpdate E P hexsha cis upPaths doAgg
  let td ← TypeDive.updateModules E { P.td with ctx := S.gctx } files
  let S := { S with gctx := td.ctx }
  let postFuncs := changedFuncs E S upPaths ChangeInfo.addLines
  let S ← afterUpdate E n (redefInfos E P.td.ctx) upPaths S
  let S := aggregateFunctions doAgg S postFuncs
  let P := { P with td := td }.setState S
  return if doAgg then
    { P with written := P.written.insertMany (commit E P.outPath P.cur) } else P

end AnalyzerManager

end Cisa

import Cisa.CallGraph.Pass

/-!
# Loading and updating modules

A file is given by its path and by what parsing it delivers: a module, or nothing.
`updateModules` extends the list of updated files by the modules that may call into
them, invalidates what was computed from the old modules, and runs the pass on the
extended list.
-/

namespace Cisa

open Std

/-- A path, with the module its file parses to. -/
abbrev BCFile := String × Option ModPtr

namespace TypeDive

variable (E : Env)

/-- Enter a loaded module into the three module tables. -/
def addModule (ctx : GlobalContext) (M : ModPtr) (path : String) : GlobalContext :=
  { ctx with
    modules := ctx.modules ++ [(M, path)]
    moduleMaps := ctx.moduleMaps.insert M path
    moduleRevMaps := ctx.moduleRevMaps.insert path (some M) }

def loadFile (ctx : GlobalContext) (file : BCFile) : GlobalContext :=
  match file.2 with
  | none => ctx
  | some M => addModule ctx M file.1

/-- `Initialize`; files that cannot be loaded are skipped. -/
def initializeModules (files : List BCFile) : CallGraphPass :=
  let ctx := files.foldl loadFile {}
  let modules := ctx.modules.map Prod.fst
  CallGraphPass.runModules E
    { ctx := ctx, mlta := { elementsStructNameMap := E.loadElementsStructNameMap ∅ modules } }
    modules

/-- The variables of the first loop of `updateModules`. -/
structure Extension where
  ctx : GlobalContext
  mlist : List (Option ModPtr × String) := []
  affSet : SortedSet String := ∅

/-- `AddAff`; reading `ModuleRevMaps` leaves a null entry for an unknown path. -/
def addAff (paths : List String) (x : Extension) (path : String) : Extension :=
  if path ∈ paths then x
  else if path ∈ x.affSet then x
  else
    let M := x.ctx.moduleRevMaps.getD path none
    { ctx := { x.ctx with moduleRevMaps := x.ctx.moduleRevMaps.insert path M }
      mlist := x.mlist ++ [(M, path)]
      affSet := x.affSet.insert path }

/-- The callers recorded for the address-taken functions of a new module. -/
def addCandCallers (paths : List String) (x : Extension) (F : FuncPtr) : Extension :=
  if (E.function F).hasAddressTaken then
    (x.ctx.candCallerPaths.row (E.funcHash F false)).toList.foldl (addAff paths) x
  else x

def eraseCandCallerPath (x : Extension) (path : String) : Extension :=
  { x with ctx := { x.ctx with candCallerPaths := x.ctx.candCallerPaths.eraseInRows path } }

def eraseCallerPath (x : Extension) (path : String) : Extension :=
  { x with ctx := { x.ctx with
      callerPaths := (x.ctx.callerPaths.erase path).eraseInRows path } }

/-- One iteration of the loop that loads the files. -/
def extend (paths : List String) (x : Extension) (file : BCFile) : Extension :=
  let x := { x with mlist := x.mlist ++ [(file.2, file.1)] }
  match file.2 with
  | none => x
  | some M =>
    let x := (E.functions M).foldl (addCandCallers E paths) (eraseCandCallerPath x file.1)
    let x := (x.ctx.callerPaths.row file.1).toList.foldl (addAff paths) x
    eraseCallerPath x file.1

def extended (ctx : GlobalContext) (files : List BCFile) : Extension :=
  files.foldl (extend E (files.map Prod.fst)) { ctx := ctx }

/-- Erase the row of a function, its entries as a caller, and what the caches know of it. -/
def eraseFunction (ctx : GlobalContext) (func : FuncPtr) : GlobalContext :=
  { ctx with
    callers := (ctx.callees.row func).toList.foldl (fun c callee => c.eraseFrom callee func)
      ctx.callers
    callees := ctx.callees.erase func
    ancCache := (ctx.ancCache.erase func).eraseInRows func
    negAncCache := (ctx.negAncCache.erase func).eraseInRows func }

/-- Invalidate post-analysis results of one path. -/
def invalidatePost (ctx : GlobalContext) (path : String) : GlobalContext :=
  let ctx := ((ctx.bcFuncs.getD path ∅).toList.map Prod.snd).foldl eraseFunction ctx
  { ctx with bcFuncs := ctx.bcFuncs.erase path }

/-- What is erased for one function of a module that is analysed again. -/
def invalidateDefinition (ctx : GlobalContext) (F : FuncPtr) : GlobalContext :=
  if (E.function F).isDeclaration then ctx
  else
    { ctx with
      globalFuncMap := ctx.globalFuncMap.erase (E.function F).guid
      addressTakenFuncs := ctx.addressTakenFuncs.erase F
      sigFuncsMap := ctx.sigFuncsMap.erase (E.funcHash F false) }

def invalidateModule (S : CallGraphPass) (M : ModPtr) : CallGraphPass :=
  { S with
    mlta := S.mlta.invalidateStates E M
    ctx := (E.functions M).foldl (invalidateDefinition E) S.ctx }

/-- Erase the first module loaded from `path` from the three module tables. -/
def removeModule (ctx : GlobalContext) (path : String) : GlobalContext :=
  { ctx with
    modules := ctx.modules.eraseP fun p => p.2 = path
    moduleMaps := match ctx.moduleMaps.toList.find? fun p => p.2 = path with
      | some p => ctx.moduleMaps.erase p.1
      | none => ctx.moduleMaps
    moduleRevMaps := ctx.moduleRevMaps.erase path }

/-- Invalidate pre-analysis states of one entry of the extended list; an updated module
is replaced, an affected one stays. -/
def invalidatePre (affSet : SortedSet String) (S : CallGraphPass) (entry : Option ModPtr × String) :
    CallGraphPass :=
  let path := entry.2
  if path ∈ affSet then
    ((S.ctx.modules.filter fun p => p.2 = path).map Prod.fst).foldl (invalidateModule E) S
  else
    let S := match S.ctx.modules.find? fun p => p.2 = path with
      | some p =>
        let S := invalidateModule E S p.1
        { S with ctx := removeModule S.ctx path }
      | none => S
    match entry.1 with
    | some M => { S with ctx := addModule S.ctx M path }
    | none => S

/-- Everything `updateModules` does before it runs the pass on the extended list. -/
def invalidated (S : CallGraphPass) (x : Extension) : CallGraphPass :=
  x.mlist.foldl (invalidatePre E x.affSet)
    { S with
      mlta := S.mlta.initTempStates
      ctx := (x.mlist.map Prod.snd).foldl invalidatePost x.ctx }

def updateModules (S : CallGraphPass) (files : List BCFile) : Option CallGraphPass :=
  let x := extended E S.ctx files
  CallGraphPass.run E (invalidated E S x) x.mlist

/-- The lines of `Dump` for one caller: the callees that are not intrinsic, and whether
`[!]` is printed behind them. -/
def dumpRow (ctx : GlobalContext) (F : FuncPtr) : List (FuncPtr × Bool) :=
  ((ctx.callees.row F).toList.filter fun G => !(E.function G).isIntrinsic).map fun G =>
    (G, !(ctx.callers.row G).contains F)

def dump (ctx : GlobalContext) : List (FuncPtr × List (FuncPtr × Bool)) :=
  ctx.callees.keys.map fun F => (F, dumpRow E ctx F)

end TypeDive

end Cisa

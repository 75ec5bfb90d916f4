import Cisa.CallGraph.Targets

/-!
# The call graph pass

A run initialises every module of its list (address-taken functions, type facts,
definitions), resolves declarations when the module counter meets the number of
loaded modules, collects the edges of every module and maps the declarations among
the callees to definitions.
-/

namespace Cisa

open Std

/-- `CallGraphPass`, with the context it works on. -/
structure CallGraphPass where
  ctx : GlobalContext := {}
  mlta : Mlta := {}
  mIdx : ℕ := 0

namespace CallGraphPass

variable (E : Env)

open Mlta

/-! ## `doInitialization` -/

def initGlobal (m : Mlta) (GV : ValPtr) : Mlta :=
  match E.operand GV 0 with
  | none => m
  | some Ini =>
    if (E.pointee (E.typeOf Ini)).isSome ∨ (E.type (E.typeOf Ini)).kind.isComposite = true then
      typeConfineInInitializer E m GV
    else m

/-- Collect an address-taken function; it may be a declaration. -/
def collectAddressTaken (ctx : GlobalContext) (F : FuncPtr) : GlobalContext :=
  if (E.function F).hasAddressTaken then
    { ctx with
      addressTakenFuncs := ctx.addressTakenFuncs.insert F
      sigFuncsMap := ctx.sigFuncsMap.addTo (E.funcHash F false) F }
  else ctx

/-- A definition that `GlobalFuncMap` collects. -/
def isGlobalDefinition (F : FuncPtr) : Bool :=
  !(E.function F).isDeclaration && (E.function F).linkage == .external

def collectDefinition (ctx : GlobalContext) (F : FuncPtr) : GlobalContext :=
  if isGlobalDefinition E F then
    { ctx with globalFuncMap := ctx.globalFuncMap.insert (E.function F).guid F }
  else ctx

/-- The type facts of the body of a definition. -/
def collectTypes (globalFuncMap : SortedMap ℕ FuncPtr) (m : Mlta) (F : FuncPtr) : Mlta :=
  if (E.function F).isDeclaration then m
  else typePropInFunction E
    (typeConfineInFunction E globalFuncMap (collectAliasStructPtr E m F) F) F

def initFunction (S : CallGraphPass) (F : FuncPtr) : CallGraphPass :=
  let ctx := collectAddressTaken E S.ctx F
  { S with
    ctx := collectDefinition E ctx F
    mlta := collectTypes E ctx.globalFuncMap S.mlta F }

/-- Count a module and process its globals. -/
def initGlobals (S : CallGraphPass) (M : ModPtr) : CallGraphPass :=
  let m := { S.mlta with int8PtrTy := S.mlta.int8PtrTy.insert M ⟨M, (E.module M).int8PtrTy⟩ }
  { S with mIdx := S.mIdx + 1, mlta := (E.globals M).foldl (initGlobal E) m }

/-- `doInitialization` up to the test of the counter. -/
def collectModule (S : CallGraphPass) (M : ModPtr) : CallGraphPass :=
  (E.functions M).foldl (initFunction E) (initGlobals E S M)

/-- Replace the declarations of a set by their definitions, or drop them. -/
def resolveSet (globalFuncMap : SortedMap ℕ FuncPtr) (FS : FuncSet) : FuncSet :=
  FS.toList.foldl (fun s F =>
    if (E.function F).isDeclaration then
      match globalFuncMap[(E.function F).guid]? with
      | some AF => (s.erase F).insert AF
      | none => s.erase F
    else s) FS

/-- Map the declaration functions to actual ones. -/
def resolveDeclarations (S : CallGraphPass) : CallGraphPass :=
  let resolve := resolveSet E S.ctx.globalFuncMap
  { S with
    ctx := { S.ctx with sigFuncsMap := S.ctx.sigFuncsMap.map fun _ FS => resolve FS }
    mlta := { S.mlta with typeIdxFuncsMap :=
      S.mlta.typeIdxFuncsMap.map fun _ fields => fields.map fun _ FS => resolve FS } }

/-- Do something at the end of last module. -/
def testCounter (S : CallGraphPass) : CallGraphPass :=
  if S.ctx.modules.length = S.mIdx then { resolveDeclarations E S with mIdx := 0 } else S

def doInitialization (S : CallGraphPass) (M : ModPtr) : CallGraphPass :=
  testCounter E (collectModule E S M)

/-! ## `doModulePass` -/

/-- An indirect call of `F`; all callees of `F` so far get `F` as a caller. -/
def indirectCall (F : FuncPtr) (S : CallGraphPass) (CI : ValPtr) : CallGraphPass :=
  let (targets, mlta) := findCalleesWithMLTA E S.mlta S.ctx.sigFuncsMap CI
  let callees := S.ctx.callees.addAll F targets
  { S with
    mlta := mlta
    ctx := { S.ctx with
      callees := callees
      candCallerPaths := S.ctx.candCallerPaths.addTo (E.callHash CI)
        (S.ctx.moduleMaps.getD F.mod "")
      callers := (callees.row F).toList.foldl (fun c G => c.addTo G F) S.ctx.callers } }

/-- A direct call of `CF` in `F`. -/
def directCall (F CF : FuncPtr) (ctx : GlobalContext) : GlobalContext :=
  let CF := (definitionOf E ctx.globalFuncMap CF).getD CF
  { ctx with
    callees := ctx.callees.addTo F CF
    callers := ctx.callers.addTo CF F
    callerPaths := ctx.callerPaths.addTo (ctx.moduleMaps.getD CF.mod "")
      (ctx.moduleMaps.getD F.mod "") }

def callInst (F : FuncPtr) (S : CallGraphPass) (CI : ValPtr) : CallGraphPass :=
  if isCall E CI then
    let S := { S with ctx := { S.ctx with callees := S.ctx.callees.addAll F ∅ } }
    if isIndirectCall E CI then indirectCall E F S CI
    else match calledFunction E CI with
      | some CF => { S with ctx := directCall E F CF S.ctx }
      | none => S
  else S

/-- `BCFuncs[strBCPath][F->getName()] = F`. -/
def registerFunction (ctx : GlobalContext) (F : FuncPtr) : GlobalContext :=
  let path := ctx.moduleMaps.getD F.mod ""
  { ctx with bcFuncs :=
    ctx.bcFuncs.insert path ((ctx.bcFuncs.getD path ∅).insert (E.function F).name F) }

def doMLTA (S : CallGraphPass) (F : FuncPtr) : CallGraphPass :=
  (E.insts F).foldl (callInst E F) { S with ctx := registerFunction E S.ctx F }

def definitionsOf (M : ModPtr) : List FuncPtr :=
  (E.functions M).filter fun F => !(E.function F).isDeclaration

def doModulePass (S : CallGraphPass) (M : ModPtr) : CallGraphPass :=
  (definitionsOf E M).foldl (doMLTA E) { S with mIdx := S.mIdx + 1 }

/-! ## `doFinalization` and `run` -/

/-- The row of one function with its declarations mapped to actual functions. -/
def finalizeFunction (ctx : GlobalContext) (CF : FuncPtr) : GlobalContext :=
  let FS := ExtTreeSet.ofElems
    ((ctx.callees.row CF).toList.filterMap (definitionOf E ctx.globalFuncMap))
  { ctx with callees := ctx.callees.insert CF FS }

def doFinalization (S : CallGraphPass) (modules : List ModPtr) : CallGraphPass :=
  { S with ctx := (modules.flatMap E.functions).foldl (finalizeFunction E) S.ctx }

/-- The first loop of `run`. -/
def initialized (S : CallGraphPass) (modules : List ModPtr) : CallGraphPass :=
  modules.foldl (doInitialization E) S

/-- The second loop of `run`. -/
def passed (S : CallGraphPass) (modules : List ModPtr) : CallGraphPass :=
  modules.foldl (doModulePass E) S

def runModules (S : CallGraphPass) (modules : List ModPtr) : CallGraphPass :=
  doFinalization E (passed E (initialized E S modules) modules) modules

/-- `run`; a null module in the list is dereferenced. -/
def run (S : CallGraphPass) (modules : List (Option ModPtr × String)) : Option CallGraphPass :=
  (modules.mapM Prod.fst).map (runModules E S)

end CallGraphPass

end Cisa

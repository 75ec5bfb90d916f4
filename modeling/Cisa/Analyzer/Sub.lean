import Cisa.Analyzer.Analyzer

/-!
# The subsystem-level analyzer

A function whose name starts with the name of a subsystem is tagged with it.
-/

namespace Cisa

open Std

abbrev SubTag := String

structure SubsystemLevelAnalyzer extends Analyzer SubTag 1

namespace SubsystemLevelAnalyzer

def subsyses : SortedSet String :=
  ExtTreeSet.ofElems ["wav", "aiff", "au", "raw", "paf", "svx", "nist", "voc", "ircam", "w64",
    "mat4", "mat5", "pvf", "xi", "htk", "sds", "avr", "wavex", "sd2", "flac", "caf", "wve", "ogg",
    "mpc2k", "rf64", "mpeg"]

/-- The name up to its first underscore. -/
def namePrefix (name : String) : String :=
  if '_' ∈ name.toList then String.ofList (name.toList.takeWhile (· ≠ '_')) else ""

variable (E : Env) (A : SubsystemLevelAnalyzer)

def move (PreF PostF : FuncPtr) : SubsystemLevelAnalyzer :=
  { A with toAnalyzer := A.toAnalyzer.move PreF PostF }

def remove (F : FuncPtr) : SubsystemLevelAnalyzer :=
  { A with toAnalyzer := A.toAnalyzer.remove F }

def update (F : FuncPtr) : SubsystemLevelAnalyzer :=
  let pre := namePrefix (E.function F).name
  if pre ∈ subsyses then { A with toAnalyzer := A.toAnalyzer.addTag pre F 0 } else A

def aggregate (ctx : GlobalContext) (F : FuncPtr) : AnalyzerReturn :=
  let subsys : RelSet := ctx.visitSubtreeBFS F .up
    (fun subsys CurF => (.next, subsys ∪ A.getTags CurF 0)) ∅
  (∅ : AnalyzerReturn).insert "subsys" (if subsys.isEmpty then subsyses else subsys)

end SubsystemLevelAnalyzer

end Cisa

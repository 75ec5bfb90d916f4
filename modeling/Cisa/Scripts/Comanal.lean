import Cisa.AnalyzerManager.Commits
import Cisa.Lib.Words

/-!
# The diff reader

`getChangeInfos` reads the lines that `git show` prints for a commit, `changedSrcs` is what
the main script makes of the result. Strings are lists of characters; an exception is
`none`.
-/

namespace Cisa

/-- A string of the scripts. -/
abbrev Text := List Char

namespace Comanal

inductive ChangeState
  | modified | added | deleted
deriving DecidableEq, Repr

structure ChangeInfo where
  state : ChangeState
  srcPath : Text
  delLines : List ℤ := []
  addLines : List ℤ := []
  bcPath : Text := []
deriving DecidableEq, Repr

/-- The characters at which `split` splits. -/
def isSpace (c : Char) : Bool :=
  (9 ≤ c.toNat && c.toNat ≤ 13) || (28 ≤ c.toNat && c.toNat ≤ 32) ||
  (8192 ≤ c.toNat && c.toNat ≤ 8202) ||
  [0x85, 0xa0, 0x1680, 0x2028, 0x2029, 0x202f, 0x205f, 0x3000].contains c.toNat

def split (line : Text) : List Text := Words.words isSpace line

/-- `_GetPathPair`: the pair and the remaining lines. -/
def getPathPair : Option Text × Option Text → List Text →
    Option ((Option Text × Option Text) × List Text)
  | paths, [] => some (paths, [])
  | paths, line :: difflines =>
    match split line with
    | [] => getPathPair paths difflines
    | tok :: toks =>
      if tok = "diff".toList then
        match toks[1]?, toks[2]? with
        | some pre, some post => getPathPair (some (pre.drop 2), some (post.drop 2)) difflines
        | _, _ => none
      else if tok = "deleted".toList then getPathPair (paths.1, some []) difflines
      else if tok = "new".toList then getPathPair (some [], paths.2) difflines
      else if tok = "@@".toList then some (paths, line :: difflines)
      else getPathPair paths difflines

/-- `(,[0-9]+)?`. -/
def skipCount (cs : Text) : Text :=
  match cs with
  | ',' :: rest => ((Words.readNat rest).map Prod.snd).getD cs
  | _ => cs

/-- The pattern of the headers, matched at the start of the text. -/
def matchHeader (cs : Text) : Option (ℕ × ℕ) := do
  let cs ← cs.dropPrefix? "@@ -".toList
  let (pre, cs) ← Words.readNat cs
  let cs ← (skipCount cs).dropPrefix? " +".toList
  let (post, cs) ← Words.readNat cs
  let _ ← (skipCount cs).dropPrefix? " @@".toList
  return (pre, post)

/-- `re.search` for the pattern of the headers. -/
def searchHeader : Text → Option (ℕ × ℕ)
  | [] => matchHeader []
  | c :: cs => (matchHeader (c :: cs)).orElse fun _ => searchHeader cs

/-- `_GetChangedLinesPair`: the pair and the remaining lines. -/
def getChangedLinesPair : Option (ℤ × ℤ) → List ℤ × List ℤ → List Text →
    Option ((List ℤ × List ℤ) × List Text)
  | _, chLines, [] => some (chLines, [])
  | curLineno, chLines, line :: difflines =>
    match line with
    | [] => getChangedLinesPair curLineno chLines difflines
    | c :: _ =>
      if c = '@' then
        match searchHeader line with
        | some header => getChangedLinesPair (some (header.1, header.2)) chLines difflines
        | none => none
      else if c = '-' then
        match curLineno with
        | some (pre, post) =>
          getChangedLinesPair (some (pre + 1, post)) (chLines.1 ++ [pre], chLines.2) difflines
        | none => none
      else if c = '+' then
        match curLineno with
        | some (pre, post) =>
          getChangedLinesPair (some (pre, post + 1)) (chLines.1, chLines.2 ++ [post]) difflines
        | none => none
      else if c = ' ' then
        match curLineno with
        | some (pre, post) => getChangedLinesPair (some (pre + 1, post + 1)) chLines difflines
        | none => none
      else if line.take 4 = "diff".toList then some (chLines, line :: difflines)
      else getChangedLinesPair curLineno chLines difflines

def isFalsy (path : Option Text) : Bool := path = none || path = some []

/-- The entries for one pair of paths. -/
def changesOf (paths : Option Text × Option Text) (lines : List ℤ × List ℤ) : List ChangeInfo :=
  let pre := paths.1.getD []
  let post := paths.2.getD []
  if paths.1 = paths.2 then [⟨.modified, post, lines.1, lines.2, []⟩]
  else if isFalsy paths.1 then [⟨.added, post, [], lines.2, []⟩]
  else if isFalsy paths.2 then [⟨.deleted, pre, [], [], []⟩]
  else [⟨.deleted, pre, [], [], []⟩, ⟨.added, post, lines.1, lines.2, []⟩]

/-- The loop of `GetChangeInfos`, with a budget. -/
def changeInfosFrom : ℕ → List Text → Option (List ChangeInfo)
  | 0, _ => none
  | n + 1, difflines => do
    let (paths, difflines) ← getPathPair (none, none) difflines
    if isFalsy paths.1 && isFalsy paths.2 then return []
    let (lines, difflines) ← getChangedLinesPair none ([], []) difflines
    let rest ← changeInfosFrom n difflines
    return changesOf paths lines ++ rest

def getChangeInfos (difflines : List Text) : Option (List ChangeInfo) :=
  changeInfosFrom (difflines.length + 1) difflines

/-- What the scripts see of the file system. -/
structure Repo where
  path : Text
  hasFile : Text → Bool

/-- `src_path[-2:] == ".c"`. -/
def isCSource (srcPath : Text) : Bool := srcPath.drop (srcPath.length - 2) = ".c".toList

def getBCPath (repo : Repo) (srcPath : Text) : Text :=
  let absPath := if srcPath.head? = some '/' then srcPath else repo.path ++ '/' :: srcPath
  if isCSource absPath then
    let bcPath := absPath.take (absPath.length - 2) ++ ".bc".toList
    if repo.hasFile bcPath then bcPath else []
  else []

/-- `change_srcs`, once the changed files have been built. -/
def changedSrcs (repo : Repo) (changes : List ChangeInfo) : List ChangeInfo :=
  ((changes.filter fun c => isCSource c.srcPath).map fun c =>
    { c with bcPath := getBCPath repo c.srcPath }).filter fun c => !c.bcPath.isEmpty

/-- The arguments of `UpdateModules` that come from one entry. -/
def ChangeInfo.toAnalyzerManager (c : ChangeInfo) : AnalyzerManager.ChangeInfo where
  bcPath := String.ofList c.bcPath
  delLines := c.delLines
  addLines := c.addLines

end Comanal

end Cisa

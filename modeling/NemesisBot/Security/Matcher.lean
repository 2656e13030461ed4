import NemesisBot.Lib.Glob
import NemesisBot.Security.Command

/-! Pattern matching of security rules: paths, domains, and commands with their segments
and the code that they hand to interpreters. -/
namespace NemesisBot.Matcher
open NemesisBot.Strings NemesisBot.Glob NemesisBot.Command

/-- What the matchers take from outside: the compatibility folding of Unicode, the lower
casing of text, and whether the host is Windows. -/
structure Platform where
  nfkc : Text → Text
  toLowercase : Text → Text
  windows : Bool

def normalizePath (path : Text) : Text := path.map fun c => if c = '\\' then '/' else c

/-- The regular expression of `wildcard_to_regex`; `skip` drops the second star of `**`. -/
def wildcardPieces : Bool → Text → List Piece
  | _, [] => []
  | true, _ :: rest => wildcardPieces false rest
  | false, c :: rest =>
    if c = '*' then
      if rest.head? = some '*' then .many '\n' :: wildcardPieces true rest
      else .many '/' :: wildcardPieces false rest
    else .lit c :: wildcardPieces false rest

def doMatch (pattern target : Text) : Bool := globMatch (wildcardPieces false pattern) target

def matchPattern (pattern target : Text) : Bool :=
  let pattern := normalizePath pattern
  let target := normalizePath target
  if !pattern.contains '*' then pattern == target
  else if !pattern.contains '/' then doMatch ('*' :: '*' :: pattern) target
  else doMatch pattern target

def matchPathRule (p : Platform) (pattern target : Text) : Bool :=
  if p.windows then matchPattern (p.toLowercase pattern) (p.toLowercase target)
  else matchPattern pattern target

def wildcardPlaceholder : Text := '\x00' :: "WILDCARD".toList ++ ['\x00']
def dotPlaceholder : Text := '\x00' :: "LITERALDOT".toList ++ ['\x00']

/-- The stars go through the escaping as placeholders; the rest of the pattern is literal. -/
def commandPieces (pattern : Text) : List Piece :=
  let escaped := pattern.flatMap fun c => if c = '*' then wildcardPlaceholder else [c]
  replaceAll (wildcardPlaceholder.map .lit) [.many '\n'] (escaped.map .lit)

def matchCommandPattern (pattern command : Text) : Bool :=
  globMatch (commandPieces pattern) command

def domainPieces (pattern : Text) : List Piece :=
  let wild := pattern.flatMap fun c => if c = '*' then wildcardPlaceholder else [c]
  let dotted := wild.flatMap fun c => if c = '.' then dotPlaceholder else [c]
  replaceAll (dotPlaceholder.map .lit) [.lit '.']
    (replaceAll (wildcardPlaceholder.map .lit) [.many '.'] (dotted.map .lit))

def matchDomainPattern (p : Platform) (pattern domain : Text) : Bool :=
  let domain := p.toLowercase domain
  let pattern := p.toLowercase pattern
  if !pattern.contains '*' then domain == pattern
  else globMatch (domainPieces pattern) domain

def isQuote (c : Char) : Bool := c == '"' || c == '\'' || c == '`'

def normalizeExecCommand (p : Platform) (command : Text) : Text :=
  let collapsed := join space (splitWhitespace (p.nfkc command))
  p.toLowercase (collapsed.filter fun c => !isQuote c)

/-- The last path component, without a trailing `.exe`. -/
def binKey (token : Text) : Text :=
  let base := (token.reverse.takeWhile fun c => c != '/' && c != '\\').reverse
  (stripSuffix ".exe".toList base).getD base

/-- Interpreters with the flags that introduce code. -/
def wrappers : List (Text × List Text) :=
  [("powershell", ["-c", "-command", "-e", "-enc"]), ("pwsh", ["-c", "-command", "-e", "-enc"]),
   ("cmd", ["/c", "/k"]), ("sh", ["-c"]), ("bash", ["-c"]), ("zsh", ["-c"]), ("ksh", ["-c"]),
   ("fish", ["-c"]), ("python", ["-c"]), ("python3", ["-c"]), ("python2", ["-c"]),
   ("node", ["-e", "--eval"]), ("perl", ["-e"]), ("ruby", ["-e"])].map
    fun (bin, flags) => (bin.toList, flags.map String.toList)

def splitSpaces (s : Text) : List Text := (s.splitOn ' ').filter (· ≠ [])

/-- Each token with the byte offset it has when single spaces separate the tokens. -/
def withOffsets : Nat → List Text → List (Text × Nat)
  | _, [] => []
  | offset, t :: ts => (t, offset) :: withOffsets (offset + (byteLen t + 1)) ts

/-- The text after the first flag, if it is not blank. -/
def payloadAfter (normalized : Text) (flags : List Text) (later : List (Text × Nat)) :
    Option Text :=
  match later.find? fun (t, _) => flags.contains t with
  | none => none
  | some (flag, offset) => match sliceFrom (offset + byteLen flag) normalized with
    | none => none
    | some payload => if trim payload = [] then none else some (trim payload)

/-- The token loop of `extract_interpreter_payloads`. -/
def payloadsFrom (normalized : Text) : List (Text × Nat) → List Text
  | [] => []
  | (token, _) :: later => match wrappers.find? fun (bin, _) => bin == binKey token with
    | none => payloadsFrom normalized later
    | some (_, flags) => match payloadAfter normalized flags later with
      | none => payloadsFrom normalized later
      | some payload => payload :: payloadsFrom normalized later

def extractInterpreterPayloads (normalized : Text) : List Text :=
  payloadsFrom normalized (withOffsets 0 (splitSpaces normalized))

def globContains (pattern text : Text) : Bool :=
  containsAll ((pattern.splitOn '*').filter (· ≠ [])) text

def execRuleSegments (p : Platform) (target : Text) : List Text :=
  (commandSegments target).map fun seg => stripEnvAssignments (normalizeExecCommand p seg)

inductive Bucket where
  | deny
  | ask
  | allow
  deriving DecidableEq, Repr

/-- Allow rules must match every segment; the others match on any segment or on the whole
command, with and without its environment prefix. -/
def execRuleBucketMatch (p : Platform) (bucket : Bucket) (pattern targetNormalized : Text)
    (segs : List Text) : Bool :=
  let hit := matchCommandPattern (normalizeExecCommand p pattern)
  match bucket with
  | .allow => !segs.isEmpty && segs.all hit
  | _ => segs.any hit || hit (stripEnvAssignments targetNormalized) || hit targetNormalized

/-- The destructive flag that one segment carries. -/
def dangerousFlag (seg : Text) : Option Text :=
  match splitSpaces seg with
  | [] => none
  | rawHead :: rest =>
    let head := String.ofList (binKey rawHead)
    let has := fun f : String => rest.contains f.toList
    let starts := fun f : String => rest.any fun t => decide (f.toList <+: t)
    if head = "git" then
      if has "push" && (has "--force" || has "-f" || starts "--force-with-lease") then
        some "--force".toList
      else if has "reset" && has "--hard" then some "--hard".toList
      else if has "clean" && rest.any (fun t => t.head? == some '-' && t.contains 'f') then
        some "-f".toList
      else if (has "checkout" || has "restore") && has "--force" then some "--force".toList
      else none
    else if head = "rm" then
      let combo := rest.any fun t => byteLen t > 1 && t.head? == some '-' &&
        !decide ("--".toList <+: t) && t.contains 'r' && t.contains 'f'
      let split := (has "-r" && has "-f") || (has "--recursive" && has "--force")
      if combo || split then some "-rf".toList else none
    else if head = "taskkill" && (has "/f" || has "//f") then some "/f".toList
    else if head = "docker" then
      let destructive := rest.any (fun t => t = "rm".toList || t = "rmi".toList) ||
        (rest.zip rest.tail).any fun (v, w) =>
          (v = "system".toList && w = "prune".toList) || (v = "volume".toList && w = "rm".toList)
      if destructive && (has "--force" || has "-f") then some "--force".toList else none
    else none

/-- The flags of all segments in order and without repetition. -/
def scanDangerousFlags (segs : List Text) : List Text :=
  dedup ((segs.filterMap dangerousFlag).mergeSort fun a b => decide (a ≤ b))

end NemesisBot.Matcher

import NemesisBot.Lib.Lines
import NemesisBot.Lib.Offsets

/-! The cascade of fuzzy replacements of `edit_file`. `none` is an index or a slice that is out of
bounds. -/
namespace NemesisBot.EditReplacers
open Strings Lines Offsets

inductive Level where
  | lineTrimmed | blockAnchor | whitespaceNormalized | indentationFlexible | trimmedBoundary
  deriving DecidableEq

def Level.name : Level → Text
  | lineTrimmed => "line-trimmed".toList
  | blockAnchor => "block-anchor".toList
  | whitespaceNormalized => "whitespace-normalized".toList
  | indentationFlexible => "indentation-flexible".toList
  | trimmedBoundary => "trimmed-boundary".toList

structure FuzzyMatch where
  content : Text
  level : Level
  deriving DecidableEq

inductive CascadeError where
  | ambiguous (msg : Text)
  | noMatch (spanNote : Option Text)
  deriving DecidableEq

inductive LevelOutcome where
  | found (content : Text)
  | noCandidate
  | disproportionate (spanBytes limit : Nat)

abbrev LevelResult := Option (Except Text LevelOutcome)

def decimal (n : Nat) : Text := Nat.toDigits 10 n

def spanLimit (oldText : Text) : Nat := byteLen oldText * 4 + 1024

/-- A line of the file; `termEnd` is behind its terminator. -/
structure FileLine where
  start : Nat
  termEnd : Nat
  term : Text
  text : Text

/-- The lines from `start` on, of which `passed` has been gone over. -/
def lineInfosFrom (start : Nat) (passed : Text) : Text → List FileLine
  | [] => if passed = [] then [] else [⟨start, start + byteLen passed, [], passed⟩]
  | c :: s =>
    if c = '\n' then
      let termEnd := start + byteLen passed + 1
      (match stripSuffix ['\r'] passed with
        | some text => ⟨start, termEnd, ['\r', '\n'], text⟩
        | none => ⟨start, termEnd, ['\n'], passed⟩) :: lineInfosFrom termEnd [] s
    else lineInfosFrom start (passed ++ [c]) s

def lineInfos (content : Text) : List FileLine := lineInfosFrom 0 [] content

def leadingWs (s : Text) : Text := s.takeWhile isWhitespace

def isBlank (s : Text) : Bool := trim s = []

def ambiguous (level : Level) (startLines : List Nat) : Text :=
  "old_text matched ".toList ++ decimal startLines.length ++ " times via ".toList ++ level.name ++
    " matching (at lines [".toList ++ join ", ".toList (startLines.map decimal) ++
    "]); add surrounding context to make it unambiguous".toList

def spliceSpan (content : Text) (lines : List FileLine) (first last : Nat) (newLines : List Text) :
    Option Text := do
  let f ← lines[first]?
  let l ← lines[last]?
  let text := join f.term newLines
  let text := if newLines ≠ [] ∧ l.term ≠ [] then text ++ l.term else text
  let (before, _) ← cutAt Char.utf8Size f.start content
  let (_, after) ← cutAt Char.utf8Size l.termEnd content
  some (before ++ text ++ after)

def acceptUniqueSpans (level : Level) (cands : List (Nat × Nat)) (oldText : Text)
    (build : Nat → LevelResult) : LevelResult :=
  let limit := spanLimit oldText
  let rejected := cands.foldl (fun rejected c =>
    if limit < c.2 then some ((rejected.map (max · c.2)).getD c.2) else rejected) none
  match cands.zipIdx.filterMap fun c => if limit < c.1.2 then none else some c.2 with
  | [] => some (.ok (match rejected with
    | some b => .disproportionate b limit
    | none => .noCandidate))
  | [pos] => build pos
  | within => do
    let starts ← within.mapM fun p => (cands[p]?).map fun c => c.1 + 1
    some (.error (ambiguous level starts))

/-- Goes over the list and puts together what is found. -/
def gather {α β : Type} (f : α → Option (List β)) : List α → Option (List β)
  | [] => some []
  | a :: as => do
    let found ← f a
    let more ← gather f as
    some (found ++ more)

/-- The bytes of a span, its terminators included. -/
def spanBytes (lines : List FileLine) (first last : Nat) : Option Nat := do
  let l ← lines[last]?
  let f ← lines[first]?
  some (l.termEnd - f.start)

def sameCountCandidates (lines : List FileLine) (blockLen : Nat)
    (pred : FileLine → Nat → Option Bool) : Option (List (Nat × Nat)) :=
  if blockLen = 0 ∨ lines.length < blockLen then some []
  else gather (fun i => do
    let all ← (List.range blockLen).allM fun k => do
      let fl ← lines[i + k]?
      pred fl k
    if all then do
      let bytes ← spanBytes lines i (i + blockLen - 1)
      some [(i, bytes)]
    else some []) (List.range (lines.length - blockLen + 1))

/-- Replaces the span of the candidate at `pos`. -/
def buildSpan (content : Text) (lines : List FileLine) (spans : List (Nat × Nat))
    (rebuild : Nat → Option (List Text)) (pos : Nat) : LevelResult := do
  let (i, j) ← spans[pos]?
  let newLines ← rebuild i
  let content ← spliceSpan content lines i j newLines
  some (.ok (.found content))

/-- The candidates of a level whose spans have `blockLen` lines. -/
def acceptBlocks (level : Level) (content oldText : Text) (lines : List FileLine) (blockLen : Nat)
    (cands : List (Nat × Nat)) (rebuild : Nat → Option (List Text)) : LevelResult :=
  acceptUniqueSpans level cands oldText
    (buildSpan content lines (cands.map fun c => (c.1, c.1 + blockLen - 1)) rebuild)

def lineTrimmed (content oldText newText : Text) : LevelResult :=
  let oldLines := lines oldText
  if (lines newText).length ≠ oldLines.length then some (.ok .noCandidate)
  else do
    let fileLines := lineInfos content
    let oldTrim := oldLines.map trim
    let cands ← sameCountCandidates fileLines oldLines.length fun fl k =>
      (oldTrim[k]?).map fun t => trim fl.text = t
    acceptBlocks .lineTrimmed content oldText fileLines oldLines.length cands fun i =>
      (lines newText).zipIdx.mapM fun l =>
        (fileLines[i + l.2]?).map fun f => leadingWs f.text ++ trimStart l.1

/-- The similarity as a fraction: twice the common characters that are not blank, over all. -/
def charSimilarity (a b : Text) : Nat × Nat :=
  if a = [] ∧ b = [] then (1, 1)
  else if a = [] ∨ b = [] then (0, 1)
  else
    let a := a.filter fun c => !isWhitespace c
    let b := b.filter fun c => !isWhitespace c
    if a.length + b.length = 0 then (1, 1)
    else (2 * (b.bagInter a).length, a.length + b.length)

/-- At least 0.65. -/
def similarEnough (a b : Text) : Bool :=
  65 * (charSimilarity a b).2 ≤ 100 * (charSimilarity a b).1

/-- A slice of a list. -/
def slice {α : Type} (s : List α) (first last : Nat) : Option (List α) :=
  if first ≤ last ∧ last ≤ s.length then some ((s.take last).drop first) else none

def anchoredPairs (lines : List FileLine) (firstAnchor lastAnchor oldMid : Text) :
    Option (List (Nat × Nat)) :=
  gather (fun i => do
    let f ← lines[i]?
    if trim f.text ≠ firstAnchor then some []
    else gather (fun j => do
      let l ← lines[j]?
      if trim l.text = lastAnchor then do
        let mid ← slice lines (i + 1) j
        if similarEnough (join ['\n'] (mid.map FileLine.text)) oldMid then some [(i, j)] else some []
      else some []) (List.range' (i + 1) (lines.length - (i + 1)))) (List.range lines.length)

def blockAnchor (content oldText newText : Text) : LevelResult :=
  let oldLines := lines oldText
  if oldLines.length < 2 then some (.ok .noCandidate)
  else do
    let firstAnchor ← (oldLines[0]?).map trim
    let lastAnchor ← (oldLines[oldLines.length - 1]?).map trim
    if firstAnchor = [] ∨ lastAnchor = [] then some (.ok .noCandidate)
    else do
      let oldMid ← slice oldLines 1 (oldLines.length - 1)
      let fileLines := lineInfos content
      let cands ← anchoredPairs fileLines firstAnchor lastAnchor (join ['\n'] oldMid)
      let spanned ← cands.mapM fun c => (spanBytes fileLines c.1 c.2).map fun bytes => (c.1, bytes)
      acceptUniqueSpans .blockAnchor spanned oldText
        (buildSpan content fileLines cands fun _ => some (lines newText))

def normalizeFrom (inWs : Bool) : Text → Text
  | [] => []
  | c :: s =>
    if isWhitespace c then if inWs then normalizeFrom true s else ' ' :: normalizeFrom true s
    else c :: normalizeFrom false s

def normalizeWs (s : Text) : Text := trim (normalizeFrom false s)

def whitespaceNormalized (content oldText newText : Text) : LevelResult := do
  let oldLines := lines oldText
  let oldNorm := oldLines.map normalizeWs
  let fileLines := lineInfos content
  let cands ← sameCountCandidates fileLines oldLines.length fun fl k =>
    (oldNorm[k]?).map fun t => normalizeWs fl.text = t
  acceptBlocks .whitespaceNormalized content oldText fileLines oldLines.length cands
    fun _ => some (lines newText)

inductive IndentDelta where
  | add (extra : Text)
  | strip (miss : Text)

def deltaOfPair (fWs oWs : Text) : Option IndentDelta :=
  if byteLen oWs ≤ byteLen fWs ∧ oWs <+: fWs then (sliceFrom (byteLen oWs) fWs).map .add
  else (sliceFrom (byteLen fWs) oWs).map .strip

def IndentDelta.fits (fWs oWs : Text) : IndentDelta → Bool
  | .add extra => byteLen fWs = byteLen oWs + byteLen extra ∧ oWs <+: fWs
  | .strip miss => byteLen oWs = byteLen fWs + byteLen miss ∧ fWs <+: oWs

/-- The line of the file is the old line with its indentation shifted. -/
def shifted (delta : IndentDelta) (text oldLine : Text) : Option Bool :=
  match isBlank oldLine, isBlank text with
  | true, true => some true
  | true, false | false, true => some false
  | false, false =>
    let fWs := leadingWs text
    let oWs := leadingWs oldLine
    if delta.fits fWs oWs then do
      let rest ← sliceFrom (byteLen fWs) text
      let oldRest ← sliceFrom (byteLen oWs) oldLine
      some (rest = oldRest)
    else some false

def shiftLine (delta : IndentDelta) (l : Text) : Option Text :=
  if isBlank l then some l
  else match delta with
    | .add extra => some (extra ++ l)
    | .strip miss =>
      if byteLen miss ≤ byteLen (leadingWs l) ∧ miss <+: leadingWs l then sliceFrom (byteLen miss) l
      else some l

/-- The indentation of the first old line that is not blank, and of the line it stands for. -/
def deltaAt (lines : List FileLine) (oldLines : List Text) (k0 i : Nat) : Option (Text × Text) := do
  let f ← lines[i + k0]?
  let o ← oldLines[k0]?
  some (leadingWs f.text, leadingWs o)

def shiftedCandidates (lines : List FileLine) (oldLines : List Text) (k0 : Nat) :
    Option (List (Nat × Nat)) :=
  if lines.length < oldLines.length then some []
  else gather (fun i => do
    let (fWs, oWs) ← deltaAt lines oldLines k0 i
    if oWs <+: fWs ∨ fWs <+: oWs then do
      let delta ← deltaOfPair fWs oWs
      let ok ← oldLines.zipIdx.allM fun ol => do
        let f ← lines[i + ol.2]?
        shifted delta f.text ol.1
      if ok then do
        let bytes ← spanBytes lines i (i + oldLines.length - 1)
        some [(i, bytes)]
      else some []
    else some []) (List.range (lines.length - oldLines.length + 1))

def indentationFlexible (content oldText newText : Text) : LevelResult :=
  let oldLines := lines oldText
  let fileLines := lineInfos content
  match oldLines.findIdx? fun l => !isBlank l with
  | none => some (.ok .noCandidate)
  | some k0 => do
    let cands ← shiftedCandidates fileLines oldLines k0
    acceptBlocks .indentationFlexible content oldText fileLines oldLines.length cands fun i => do
      let (fWs, oWs) ← deltaAt fileLines oldLines k0 i
      let delta ← deltaOfPair fWs oWs
      (lines newText).mapM (shiftLine delta)

def rposition {α : Type} (p : α → Bool) (s : List α) : Option Nat :=
  (s.reverse.findIdx? p).map fun i => s.length - 1 - i

def trimmedBoundary (content oldText newText : Text) : LevelResult :=
  let oldLines := lines oldText
  match oldLines.findIdx? fun l => !isBlank l, rposition (fun l => !isBlank l) oldLines with
  | some cs, some ce => do
    let core ← slice oldLines cs (ce + 1)
    let fileLines := lineInfos content
    let cands ← sameCountCandidates fileLines core.length fun fl k =>
      (core[k]?).map fun t => fl.text = t
    acceptBlocks .trimmedBoundary content oldText fileLines core.length cands
      fun _ => some (lines newText)
  | _, _ => some (.ok .noCandidate)

def Level.run : Level → Text → Text → Text → LevelResult
  | .lineTrimmed => EditReplacers.lineTrimmed
  | .blockAnchor => EditReplacers.blockAnchor
  | .whitespaceNormalized => EditReplacers.whitespaceNormalized
  | .indentationFlexible => EditReplacers.indentationFlexible
  | .trimmedBoundary => EditReplacers.trimmedBoundary

def spanNote (spanBytes limit : Nat) : Text :=
  "Note: a fuzzy candidate was rejected as disproportionate (matched span ".toList ++
    decimal spanBytes ++ " bytes > limit ".toList ++ decimal limit ++ " bytes).\n".toList

def runLevels (content oldText newText : Text) :
    List Level → Option (Nat × Nat) → Option (Except CascadeError FuzzyMatch)
  | [], disproportion => some (.error (.noMatch (disproportion.map fun d => spanNote d.1 d.2)))
  | level :: rest, disproportion => do
    match ← level.run content oldText newText with
    | .error msg => some (.error (.ambiguous msg))
    | .ok (.found content) => some (.ok ⟨content, level⟩)
    | .ok .noCandidate => runLevels content oldText newText rest disproportion
    | .ok (.disproportionate spanBytes limit) =>
      runLevels content oldText newText rest (some (spanBytes, limit))

def cascadeReplace (content oldText newText : Text) : Option (Except CascadeError FuzzyMatch) :=
  if trim oldText = [] then some (.error (.noMatch none))
  else runLevels content oldText newText
    [.lineTrimmed, .blockAnchor, .whitespaceNormalized, .indentationFlexible, .trimmedBoundary] none

end NemesisBot.EditReplacers

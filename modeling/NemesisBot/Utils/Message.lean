import NemesisBot.Lib.Offsets
import NemesisBot.Lib.Strings

/-! A long message in chunks: where each round cuts, and what it carries over. -/
namespace NemesisBot.Message
open Strings Offsets

/-! Offsets are in bytes. A byte of a longer character is never ASCII, so that going over the
characters finds what going over the bytes finds. -/

def usableCut (s : Text) (limit : Nat) : Nat :=
  let i := floorAt Char.utf8Size limit s
  if 0 < i then i else match s with
    | c :: _ :: _ => c.utf8Size
    | s => byteLen s

def findLastNewline (s : Text) (searchWindow : Nat) : Nat :=
  (lastAt Char.utf8Size (· = '\n') (byteLen s - searchWindow) 0 s).getD 0

def findLastSpace (s : Text) (searchWindow : Nat) : Nat :=
  (lastAt Char.utf8Size (fun c => c = ' ' || c = '\t') (byteLen s - searchWindow) 0 s).getD 0

/-- Where the block that is open at the end began; `block` is the one open before. -/
def openBlock : Nat → Option Nat → Text → Option Nat
  | off, block, '`' :: '`' :: '`' :: s =>
    openBlock (off + 3) (match block with
      | none => some off
      | some _ => none) s
  | off, block, c :: s => openBlock (off + c.utf8Size) block s
  | _, block, [] => block

def findLastUnclosedCodeBlock (text : Text) : Nat := (openBlock 0 none text).getD 0

/-- Whether a block is open once `start` is reached or passed. -/
def inCodeBlock (start : Nat) : Nat → Bool → Text → Bool
  | off, block, s =>
    if start ≤ off then block else match s with
      | '`' :: '`' :: '`' :: s => inCodeBlock start (off + 3) (!block) s
      | c :: s => inCodeBlock start (off + c.utf8Size) block s
      | [] => block

/-- The offset behind the first fence that closes, or 0. -/
def closingFrom : Nat → Bool → Text → Nat
  | off, block, '`' :: '`' :: '`' :: s => if block then off + 3 else closingFrom (off + 3) true s
  | off, block, c :: s => closingFrom (off + c.utf8Size) block s
  | _, _, [] => 0

/-- The first offset that is not below `start`, and the text from there on. -/
def tailFrom (start : Nat) : Nat → Text → Nat × Text
  | off, [] => (off, [])
  | off, c :: s => if start ≤ off then (off, c :: s) else tailFrom start (off + c.utf8Size) s

def findNextClosingCodeBlock (text : Text) (startIdx : Nat) : Nat :=
  let start := min startIdx (byteLen text)
  closingFrom (tailFrom start 0 text).1 (inCodeBlock start 0 false text) (tailFrom start 0 text).2

def codeBlockBuffer (maxLen : Nat) : Nat :=
  let buffer := if maxLen / 10 < 50 then 50 else maxLen / 10
  if maxLen / 2 < buffer then maxLen / 2 else buffer

def effectiveLimit (maxLen : Nat) (s : Text) : Nat :=
  let limit := maxLen - codeBlockBuffer maxLen
  usableCut s (if limit < maxLen / 2 then maxLen / 2 else limit)

/-- The natural place to cut: a line end, a blank, or the limit. `none` is a cut inside a
character, here and below. -/
def naturalEnd (maxLen : Nat) (s : Text) : Option Nat := do
  let (head, _) ← cutAt Char.utf8Size (effectiveLimit maxLen s) s
  let msgEnd := findLastNewline head 200
  let msgEnd := if msgEnd = 0 then findLastSpace head 100 else msgEnd
  some (if msgEnd = 0 then effectiveLimit maxLen s else msgEnd)

/-- The place to cut before the block that begins at `unclosedIdx`, if there is one. -/
def beforeBlock (s : Text) (unclosedIdx : Nat) : Option (Option Nat) := do
  let (head, _) ← cutAt Char.utf8Size unclosedIdx s
  let newEnd := findLastNewline head 200
  let newEnd2 := findLastSpace head 100
  some (if 0 < newEnd then some newEnd
    else if 0 < newEnd2 then some newEnd2
    else if 20 < unclosedIdx then some unclosedIdx
    else none)

/-- The end of the first line of the block that begins at `unclosedIdx`. -/
def headerEnd (unclosedIdx : Nat) (block : Text) : Nat :=
  match block.idxOf? '\n' with
  | some i => unclosedIdx + byteLen (block.take i)
  | none => unclosedIdx + 3

/-- What a round does: it cuts at an offset, or it cuts inside a block, closes the block there
and opens it again with the header between two offsets. -/
inductive Cut where
  | natural (stop : Nat)
  | extended (stop : Nat)
  | before (stop : Nat)
  | inside (stop unclosedIdx headerEnd : Nat)

def chooseCut (maxLen : Nat) (s : Text) : Option Cut := do
  let msgEnd ← naturalEnd maxLen s
  let (candidate, _) ← cutAt Char.utf8Size msgEnd s
  let unclosedIdx := findLastUnclosedCodeBlock candidate
  if 0 < unclosedIdx ∧ msgEnd < byteLen s then
    let closingIdx := findNextClosingCodeBlock s msgEnd
    if 0 < closingIdx ∧ closingIdx ≤ maxLen then some (.extended closingIdx)
    else
      let (_, block) ← cutAt Char.utf8Size unclosedIdx s
      let headerEnd := headerEnd unclosedIdx block
      let innerLimit := usableCut s (maxLen - 5)
      if headerEnd + 20 < msgEnd then
        let (head, _) ← cutAt Char.utf8Size innerLimit s
        let betterEnd := findLastNewline head 200
        some (.inside (if headerEnd < betterEnd then betterEnd else innerLimit) unclosedIdx headerEnd)
      else match ← beforeBlock s unclosedIdx with
        | some newEnd => some (.before newEnd)
        | none => some (.inside innerLimit unclosedIdx headerEnd)
  else some (.natural msgEnd)

/-- A character and whether the splitter has put it there. -/
structure Token where
  char : Char
  inserted : Bool
  deriving DecidableEq

def Token.size (t : Token) : Nat := t.char.utf8Size

def textOf (r : List Token) : Text := r.map Token.char

def original (s : Text) : List Token := s.map fun c => ⟨c, false⟩

def inserted (s : Text) : List Token := s.map fun c => ⟨c, true⟩

def trimTokens (r : List Token) : List Token :=
  ((r.dropWhile fun t => isWhitespace t.char).reverse.dropWhile fun t => isWhitespace t.char).reverse

def trimEndBlanks (r : List Token) : List Token :=
  (r.reverse.dropWhile fun t => t.char ∈ [' ', '\t', '\n', '\r']).reverse

/-- One round: the chunk and the content that is left. -/
def splitRound (maxLen : Nat) (content : List Token) : Option (List Token × List Token) :=
  if len Token.size content ≤ maxLen then some (content, [])
  else do
    match ← chooseCut maxLen (textOf content) with
    | .natural msgEnd | .extended msgEnd | .before msgEnd =>
      let msgEnd := if msgEnd = 0 then effectiveLimit maxLen (textOf content) else msgEnd
      let (chunk, rest) ← cutAt Token.size msgEnd content
      some (chunk, trimTokens rest)
    | .inside msgEnd unclosedIdx headerEnd =>
      let (upTo, _) ← cutAt Token.size headerEnd content
      let (_, header) ← cutAt Token.size unclosedIdx upTo
      let (chunk, rest) ← cutAt Token.size msgEnd content
      some (trimEndBlanks chunk ++ inserted "\n```".toList,
        inserted (textOf (trimTokens header)) ++ inserted ['\n'] ++ trimTokens rest)

/-- The rounds of `split_message`, each with the content before it; `none` is a panic or the end
of the fuel. -/
def splitRounds (maxLen : Nat) : Nat → List Token → Option (List (List Token × List Token))
  | _, [] => some []
  | 0, _ :: _ => none
  | fuel + 1, t :: content => do
    let (chunk, rest) ← splitRound maxLen (t :: content)
    let more ← splitRounds maxLen fuel rest
    some ((t :: content, chunk) :: more)

end NemesisBot.Message

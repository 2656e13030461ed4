import NemesisBot.Lib.Strings

/-! Inline thinking in the content of a reply: taken out at once, or chunk by chunk. -/
namespace NemesisBot.Providers
open Strings

def openTag : Text := "<think>".toList

def closeTag : Text := "</think>".toList

/-- In the content or in a block of thinking. -/
inductive StripState where
  | plain
  | inThink
  deriving DecidableEq

/-- A block of thinking behind the earlier ones. -/
def addSegment (thinking seg : Text) : Text :=
  if trim seg = [] then thinking
  else if thinking = [] then trim seg
  else thinking ++ "\n\n".toList ++ trim seg

/-- The blocks of the rest. What has been read is `out`, and `thinking` the blocks so far. -/
def stripLoop : Nat → Text → Text → Text → Text × Text
  | 0, _, out, thinking => (out, thinking)
  | fuel + 1, rest, out, thinking => match splitOnce openTag rest with
    | none => (out ++ rest, thinking)
    | some (before, after) => match splitOnce closeTag after with
      | some (seg, next) => stripLoop fuel next (out ++ before) (addSegment thinking seg)
      | none => stripLoop fuel [] (out ++ before) (addSegment thinking after)

def stripInlineThinking (content : Text) : Text × Option Text :=
  if ¬ openTag <:+: content then (content, none)
  else
    let (out, thinking) := stripLoop (content.length + 1) content [] []
    if thinking = [] then (out, none) else (trim out, some thinking)

/-- The length of the longest rest of the text that a tag may begin with. -/
def pendingTagLen (buf tag : Text) : Nat :=
  let longest := min (tag.length - 1) buf.length
  ((List.range longest).reverse.find? fun k =>
    buf.drop (buf.length - (k + 1)) = tag.take (k + 1)).elim 0 (· + 1)

structure ThinkStripper where
  state : StripState
  buf : Text
  thinking : Text
  blockClosed : Bool
  deriving DecidableEq

def ThinkStripper.new : ThinkStripper := ⟨.plain, [], [], false⟩

def feedLoop : Nat → ThinkStripper → Text → ThinkStripper × Text
  | 0, s, out => (s, out)
  | fuel + 1, s, out => match s.state with
    | .plain => match splitOnce openTag s.buf with
      | some (before, after) =>
        feedLoop fuel { s with buf := after, state := .inThink } (out ++ before)
      | none =>
        let emit := s.buf.length - pendingTagLen s.buf openTag
        ({ s with buf := s.buf.drop emit }, out ++ s.buf.take emit)
    | .inThink => match splitOnce closeTag s.buf with
      | some (before, after) =>
        feedLoop fuel { s with
          thinking := s.thinking ++ before, buf := after, state := .plain, blockClosed := true } out
      | none =>
        let emit := s.buf.length - pendingTagLen s.buf closeTag
        ({ s with thinking := s.thinking ++ s.buf.take emit, buf := s.buf.drop emit }, out)

/-- What may be sent on of a chunk. Every turn of the loop takes a tag off. -/
def ThinkStripper.feed (s : ThinkStripper) (chunk : Text) : ThinkStripper × Text :=
  feedLoop ((s.buf ++ chunk).length + 1) { s with buf := s.buf ++ chunk } []

def ThinkStripper.drainThinking (s : ThinkStripper) : ThinkStripper × Option Text :=
  if s.thinking = [] then (s, none)
  else ({ s with thinking := [] },
    if trim s.thinking = [] then none else some (trim s.thinking))

/-- Thinking is handed out once a block has been closed. -/
def ThinkStripper.takeThinking (s : ThinkStripper) : ThinkStripper × Option Text :=
  if s.blockClosed then { s with blockClosed := false }.drainThinking else (s, none)

/-- What was held back, as content or as thinking. -/
def ThinkStripper.flush (s : ThinkStripper) : ThinkStripper × Text :=
  match s.state with
  | .plain => ({ s with buf := [] }, s.buf)
  | .inThink => ({ s with buf := [], thinking := s.thinking ++ s.buf }, [])

/-- Reasoning with more of it behind. -/
def pushReasoning (reasoning : Text) : Option Text → Text
  | none => reasoning
  | some th => if reasoning = [] then th else reasoning ++ "\n\n".toList ++ th

/-- What is left at the end of the reply, and the reasoning with it. -/
def ThinkStripper.finish (s : ThinkStripper) (reasoning : Text) : ThinkStripper × Text × Text :=
  let flushed := s.flush
  let drained := flushed.1.drainThinking
  (drained.1, flushed.2, pushReasoning reasoning drained.2)

end NemesisBot.Providers

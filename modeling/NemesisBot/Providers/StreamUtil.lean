import NemesisBot.Lib.Utf8
import NemesisBot.Lib.Separators
import NemesisBot.Lib.Offsets

/-! The bytes of a stream of events, taken in as the network delivers them: decoding that waits for
the rest of a character, and the cuts at blank lines. -/
namespace NemesisBot.Providers
open Strings Utf8

theorem decoding_advances {s : Bytes} {e : Utf8Error} {n : Nat} (h : fromUtf8 s = .error e)
    (hn : e.errorLen = some n) : 0 < n ∧ e.validUpTo + n ≤ s.length := by
  obtain ⟨ps, qs, hparts, -, hlen, hpos⟩ := fromUtf8_bad h hn
  refine ⟨hpos, ?_⟩
  rw [← hlen, ← take_concat hparts, List.length_take]
  exact Nat.min_le_right _ _

/-- The loop of `push_chunk_incremental` from `pos` on: the buffer and where the scan stopped. -/
def scanChunk (chunk : Bytes) (buffer : Text) (pos : Nat) : Text × Nat :=
  match _h : fromUtf8 (chunk.drop pos) with
  | .ok s => (buffer ++ s, chunk.length)
  | .error e =>
    let v := pos + e.validUpTo
    match _hn : e.errorLen with
    | some n =>
      let buffer := buffer ++ fromUtf8Lossy (Bytes.range chunk pos (v + n))
      if v + n = chunk.length then (buffer, v + n) else scanChunk chunk buffer (v + n)
    | none => (buffer ++ fromUtf8Lossy (Bytes.range chunk pos v), v)
termination_by chunk.length - pos
decreasing_by
  have hlen := decoding_advances _h _hn
  rw [List.length_drop] at hlen
  omega

def pushChunkIncremental (buffer : Text) (pending bytes : Bytes) : Text × Bytes :=
  let chunk := pending ++ bytes
  let (buffer, pos) := scanChunk chunk buffer 0
  (buffer, chunk.drop pos)

/-- `str::find`, in bytes. -/
def find (sub s : Text) : Option Nat := (splitOnce sub s).map fun parts => byteLen parts.1

/-- Where the first event ends, and the length of the blank line behind it. -/
def nextEventBoundary (buffer : Text) : Option (Nat × Nat) :=
  match find "\n\n".toList buffer, find "\r\n\r\n".toList buffer with
  | some a, some b => if a ≤ b then some (a, 2) else some (b, 4)
  | some a, none => some (a, 2)
  | none, some b => some (b, 4)
  | none, none => none

/-- `buffer[..pos]` and `buffer[pos + sep..]`. Nothing off a character boundary. -/
def splitEvent (buffer : Text) (pos sep : Nat) : Option (Text × Text) := do
  let (block, _) ← Offsets.cutAt Char.utf8Size pos buffer
  let rest ← sliceFrom (pos + sep) buffer
  return (block, rest)

theorem nextEventBoundary_pos {buffer : Text} {pos sep : Nat}
    (h : nextEventBoundary buffer = some (pos, sep)) : 0 < sep := by
  unfold nextEventBoundary at h
  split at h
  · split at h
    · cases h; decide
    · cases h; decide
  · cases h; decide
  · cases h; decide
  · cases h

theorem splitEvent_length {buffer block rest : Text} {pos sep : Nat} (hsep : 0 < sep)
    (h : splitEvent buffer pos sep = some (block, rest)) : rest.length < buffer.length := by
  simp only [splitEvent, Option.bind_eq_bind, Option.bind_eq_some_iff] at h
  obtain ⟨c, -, rest', hrest, he⟩ := h
  obtain rfl : rest' = rest := congrArg Prod.snd (Option.some.inj he)
  obtain ⟨u, rfl, hu⟩ := sliceFrom_eq_some_iff.mp hrest
  cases u with
  | nil => exact absurd hu (by simp [byteLen]; omega)
  | cons c u =>
    rw [List.length_append, List.length_cons]
    omega

/-- The lanes' loop over the buffer: the events cut off and what stays. Nothing where a cut is off
a character boundary. -/
def cutEvents (buffer : Text) : Option (List Text × Text) :=
  match _h : nextEventBoundary buffer with
  | none => some ([], buffer)
  | some (pos, sep) => match _hs : splitEvent buffer pos sep with
    | none => none
    | some (block, rest) => (cutEvents rest).map fun r => (block :: r.1, r.2)
termination_by buffer.length
decreasing_by exact splitEvent_length (nextEventBoundary_pos _h) _hs

/-- What a lane keeps between two chunks, with the events it has read so far. -/
structure EventStream where
  buffer : Text
  pending : Bytes
  events : List Text

def EventStream.start : EventStream := ⟨[], [], []⟩

/-- A chunk that only goes into the buffer. -/
def EventStream.push (s : EventStream) (bytes : Bytes) : EventStream :=
  let (buffer, pending) := pushChunkIncremental s.buffer s.pending bytes
  { s with buffer, pending }

/-- A chunk, after which the events are cut off. -/
def EventStream.receive (s : EventStream) (bytes : Bytes) : Option EventStream := do
  let s := s.push bytes
  let (events, buffer) ← cutEvents s.buffer
  return { s with buffer, events := s.events ++ events }

end NemesisBot.Providers

import NemesisBot.Providers.StreamUtil

/-! However the bytes of a stream are cut into chunks, the text and the events are those of the
whole byte string. -/
namespace NemesisBot.Providers
open Strings Utf8
variable {chunk : Bytes} {pos : Nat} {ps qs : List Part}

/-- Parts taken in from a place on. -/
theorem parts_taken (h : parts (chunk.drop pos) = ps ++ qs) (hps : ∀ p ∈ ps, p.isCut = false) :
    fromUtf8Lossy (Bytes.range chunk pos (pos + (Part.concat ps).length)) = ps.map Part.text ∧
      settled (chunk.drop pos) =
        ps ++ settled (chunk.drop (pos + (Part.concat ps).length)) ∧
      unfinished (chunk.drop pos) = unfinished (chunk.drop (pos + (Part.concat ps).length)) := by
  rw [← List.drop_drop, Bytes.range, List.drop_take, Nat.add_sub_cancel_left, take_concat h]
  exact ⟨lossy_concat h, settled_drop h hps⟩

/-- The scan takes in all that is settled and stops where the rest begins. -/
theorem scanChunk_spec (chunk : Bytes) (buffer : Text) (pos : Nat) :
    (scanChunk chunk buffer pos).1 = buffer ++ (settled (chunk.drop pos)).map Part.text ∧
      chunk.drop (scanChunk chunk buffer pos).2 = unfinished (chunk.drop pos) := by
  induction h : chunk.length - pos using Nat.strong_induction_on generalizing buffer pos with
  | _ k ih =>
    rw [scanChunk]
    split
    · rename_i s hs
      obtain ⟨rfl, hrest⟩ := fromUtf8_eq_ok hs
      rw [hrest]
      exact ⟨rfl, List.drop_length⟩
    · rename_i e he
      split
      · rename_i n hn
        obtain ⟨ps, qs, hparts, hps, hlen, hpos⟩ := fromUtf8_bad he hn
        have hadv := (decoding_advances he hn).2
        obtain ⟨hread, hsettled, hrest⟩ := parts_taken hparts hps
        rw [List.length_drop] at hadv
        rw [hlen, ← Nat.add_assoc] at hread hsettled hrest
        rw [hsettled, hrest, List.map_append, ← List.append_assoc, ← hread]
        simp only
        split
        · rename_i hend
          rw [hend, List.drop_length]
          exact ⟨(List.append_nil _).symm, rfl⟩
        · exact ih _ (by omega) _ _ rfl
      · rename_i hn
        obtain ⟨ps, w, hparts, hps, hlen⟩ := fromUtf8_cut he hn
        obtain ⟨hread, hsettled, hrest⟩ := parts_taken hparts hps
        have hcut := parts_drop hparts
        rw [List.drop_drop, hlen] at hcut
        rw [hlen] at hread hsettled hrest
        obtain ⟨hnone, hall⟩ := settled_of_parts_cut hcut
        rw [hsettled, hrest, hnone, hall, List.append_nil, ← hread]
        exact ⟨rfl, rfl⟩

theorem pushChunkIncremental_eq (buffer : Text) (pending bytes : Bytes) :
    pushChunkIncremental buffer pending bytes =
      (buffer ++ (settled (pending ++ bytes)).map Part.text, unfinished (pending ++ bytes)) := by
  obtain ⟨hbuffer, hrest⟩ := scanChunk_spec (pending ++ bytes) buffer 0
  exact Prod.ext hbuffer hrest

/-- The buffer and the bytes that wait, after chunks that make up a byte string. -/
def EventStream.taken (bytes : Bytes) : EventStream where
  buffer := (settled bytes).map Part.text
  pending := unfinished bytes
  events := []

theorem push_taken (bytes more : Bytes) :
    (EventStream.taken bytes).push more = .taken (bytes ++ more) := by
  rw [EventStream.push, EventStream.taken, pushChunkIncremental_eq, ← unfinished_append]
  simp only [EventStream.taken, settled_append bytes, List.map_append]

theorem pushed_eq (chunks : List Bytes) :
    chunks.foldl EventStream.push .start = .taken chunks.flatten := by
  induction chunks using List.reverseRecOn with
  | nil => rfl
  | append_singleton chunks c ih =>
    rw [List.foldl_concat, ih, push_taken, List.flatten_concat]

/-- Text that arrives in its bytes is never replaced, wherever its characters are cut. -/
theorem pushed_encode {chunks : List Bytes} {text : Text} (h : chunks.flatten = encode text) :
    chunks.foldl EventStream.push .start = ⟨text, [], []⟩ := by
  obtain ⟨htext, hcut⟩ := parts_encode text
  obtain ⟨hsettled, hrest⟩ := settled_drop (List.append_nil _).symm hcut
  rw [concat_parts, List.drop_length] at hsettled hrest
  rw [pushed_eq, h, EventStream.taken, hsettled, hrest, List.map_append, htext]
  exact congrArg (fun b => EventStream.mk b [] []) (List.append_nil text)

def blankLines : Separators Char where
  seps := ["\n\n".toList, "\r\n\r\n".toList]
  ne_nil := by decide
  apart := by decide

theorem find_of_starts {sub s : Text} (hsub : sub ≠ []) (h : sub <+: s) : find sub s = some 0 := by
  cases s with
  | nil => exact absurd (List.prefix_nil.mp h) hsub
  | cons c s =>
    rw [find, splitOnce, if_pos h]
    rfl

theorem find_cons {sub s : Text} {c : Char} (h : ¬ sub <+: c :: s) :
    find sub (c :: s) = (find sub s).map (c.utf8Size + ·) := by
  rw [find, splitOnce, if_neg h, find, Option.map_map, Option.map_map]
  rfl

theorem nextEventBoundary_cons {c : Char} {s : Text} (hlf : ¬ "\n\n".toList <+: c :: s)
    (hcrlf : ¬ "\r\n\r\n".toList <+: c :: s) :
    nextEventBoundary (c :: s) = (nextEventBoundary s).map fun b => (c.utf8Size + b.1, b.2) := by
  rw [nextEventBoundary, nextEventBoundary, find_cons hlf, find_cons hcrlf]
  cases find "\n\n".toList s with
  | none => cases find "\r\n\r\n".toList s with
    | none => rfl
    | some b => rfl
  | some a => cases find "\r\n\r\n".toList s with
    | none => rfl
    | some b =>
      simp only [Option.map_some, Nat.add_le_add_iff_left]
      split
      · rfl
      · rfl

/-- The boundary is at the earliest blank line, counted in bytes. -/
theorem nextEventBoundary_eq (s : Text) : nextEventBoundary s =
    (blankLines.cutFirst s).map fun c => (byteLen c.1, byteLen c.2.1) := by
  induction s with
  | nil => rfl
  | cons c s ih =>
    have hc := c.utf8Size_pos
    by_cases hlf : "\n\n".toList <+: c :: s
    · have hcut : blankLines.cutFirst (c :: s) = some ([], "\n\n".toList, (c :: s).drop 2) := by
        rw [Separators.cutFirst, blankLines, List.find?_cons_of_pos (by simpa using hlf)]
        rfl
      rw [hcut, nextEventBoundary, find_of_starts (by decide) hlf]
      cases find "\r\n\r\n".toList (c :: s) with
      | none => rfl
      | some b => exact if_pos (Nat.zero_le b)
    · by_cases hcrlf : "\r\n\r\n".toList <+: c :: s
      · have hcut : blankLines.cutFirst (c :: s) =
            some ([], "\r\n\r\n".toList, (c :: s).drop 4) := by
          rw [Separators.cutFirst, blankLines, List.find?_cons_of_neg (by simpa using hlf),
            List.find?_cons_of_pos (by simpa using hcrlf)]
          rfl
        rw [hcut, nextEventBoundary, find_cons hlf, find_of_starts (by decide) hcrlf]
        cases find "\n\n".toList s with
        | none => rfl
        | some a => exact if_neg (Nat.not_le.mpr (Nat.add_pos_left hc a))
      · have hno : ∀ sep ∈ blankLines.seps, ¬ sep <+: c :: s := by
          simp only [blankLines, List.forall_mem_cons]
          exact ⟨hlf, hcrlf, List.forall_mem_nil _⟩
        rw [Separators.cutFirst_cons hno, nextEventBoundary_cons hlf hcrlf, ih, Option.map_map,
          Option.map_map]
        rfl

theorem splitEvent_eq (u sep v : Text) :
    splitEvent (u ++ (sep ++ v)) (byteLen u) (byteLen sep) = some (u, v) := by
  have hblock : Offsets.cutAt Char.utf8Size (byteLen u) (u ++ (sep ++ v)) = some (u, sep ++ v) :=
    (Offsets.cutAt_eq_some_iff Char.utf8Size_pos).mpr ⟨rfl, rfl⟩
  have hrest : sliceFrom (byteLen u + byteLen sep) (u ++ (sep ++ v)) = some v :=
    sliceFrom_eq_some_iff.mpr ⟨u ++ sep, (List.append_assoc u sep v).symm, byteLen_append u sep⟩
  simp only [splitEvent, hblock, hrest, Option.bind_eq_bind, Option.bind_some]
  rfl

/-- The lanes' loop ends, and cuts on character boundaries only. -/
theorem cutEvents_eq (s : Text) : cutEvents s = some (blankLines.cutAll s) := by
  induction s using blankLines.cutAll_induction with
  | hnone s h =>
    rw [cutEvents, Separators.cutAll_of_none h]
    split
    · rfl
    · rename_i hb
      rw [nextEventBoundary_eq, h] at hb
      cases hb
  | hsome s u sep v h ih =>
    have hfirst := Separators.first_of_cutFirst h
    have hb : nextEventBoundary s = some (byteLen u, byteLen sep) := by
      rw [nextEventBoundary_eq, h]
      rfl
    have hsplit : splitEvent s (byteLen u) (byteLen sep) = some (u, v) := by
      rw [hfirst.eq, splitEvent_eq]
    rw [cutEvents, Separators.cutAll_of_some h]
    split
    · rename_i hb'
      rw [hb] at hb'
      cases hb'
    · rename_i hb'
      rw [hb] at hb'
      obtain ⟨rfl, rfl⟩ := Prod.mk.inj (Option.some.inj hb')
      split
      · rename_i hs
        rw [hsplit] at hs
        cases hs
      · rename_i hs
        rw [hsplit] at hs
        obtain ⟨rfl, rfl⟩ := Prod.mk.inj (Option.some.inj hs)
        rw [ih]
        rfl

/-- The same with the events cut off after every chunk. -/
def EventStream.read (bytes : Bytes) : EventStream where
  buffer := (blankLines.cutAll ((settled bytes).map Part.text)).2
  pending := unfinished bytes
  events := (blankLines.cutAll ((settled bytes).map Part.text)).1

theorem receive_read (bytes more : Bytes) :
    (EventStream.read bytes).receive more = some (.read (bytes ++ more)) := by
  rw [EventStream.receive, EventStream.push, EventStream.read, pushChunkIncremental_eq,
    ← unfinished_append]
  simp only [EventStream.read, settled_append bytes, List.map_append, cutEvents_eq,
    Option.bind_eq_bind, Option.bind_some]
  rw [Separators.cutAll_append ((settled bytes).map Part.text)]
  rfl

theorem received_eq (chunks : List Bytes) :
    chunks.foldlM EventStream.receive .start = some (.read chunks.flatten) := by
  have hstart : EventStream.start = .read [] := by
    rw [EventStream.read, show (settled []).map Part.text = [] from rfl,
      Separators.cutAll_of_none rfl]
    rfl
  induction chunks using List.reverseRecOn with
  | nil => exact congrArg some hstart
  | append_singleton chunks c ih =>
    rw [List.foldlM_append, ih, List.flatten_concat, Option.bind_eq_bind, Option.bind_some,
      List.foldlM_cons, receive_read]
    rfl

/-- What stands for a sequence that is cut off makes no blank line. -/
theorem cutAll_lossy (bytes : Bytes) : blankLines.cutAll (fromUtf8Lossy bytes) =
    ((EventStream.read bytes).events,
      (EventStream.read bytes).buffer ++ fromUtf8Lossy (EventStream.read bytes).pending) := by
  have hrest := Separators.cutFirst_rest (S := blankLines) ((settled bytes).map Part.text)
  have hclear : blankLines.cutFirst ((blankLines.cutAll ((settled bytes).map Part.text)).2 ++
      fromUtf8Lossy (unfinished bytes)) = none := by
    obtain h | h := lossy_unfinished bytes
    · rwa [h, List.append_nil]
    · rw [h]
      exact Separators.cutFirst_concat (by decide) hrest
  rw [lossy_eq, Separators.cutAll_append, Separators.cutAll_of_none hclear, List.append_nil]
  rfl

/-- However a byte string comes in chunks, the buffer and the bytes that wait decode to the same
text, the bytes that wait are a proper beginning of a character, and the events are those that the
whole text is cut into, each at its earliest blank line. -/
theorem chunk_boundaries_vanish (chunks : List Bytes) :
    let pushed := chunks.foldl EventStream.push .start
    let text := fromUtf8Lossy chunks.flatten
    pushed.buffer ++ fromUtf8Lossy pushed.pending = text ∧
    pushed.pending.length ≤ 3 ∧
    (∃ c t, t ≠ [] ∧ pushed.pending ++ t = String.utf8EncodeChar c) ∧
    ∃ received events rest,
      chunks.foldlM EventStream.receive .start = some received ∧
      cutEvents text = some (events, rest) ∧
      received.events = events ∧ received.pending = pushed.pending ∧
      received.buffer ++ fromUtf8Lossy received.pending = rest ∧
      blankLines.Cuts text events rest := by
  intro pushed text
  have hpushed : pushed = .taken chunks.flatten := pushed_eq chunks
  rw [hpushed]
  refine ⟨(lossy_eq _).symm, length_unfinished _, unfinished_incomplete _,
    .read chunks.flatten, _, _, received_eq chunks, cutEvents_eq text, ?_, rfl, ?_,
    Separators.cuts_cutAll text⟩
  · rw [cutAll_lossy]
  · rw [cutAll_lossy]

end NemesisBot.Providers

import NemesisBot.Providers.ThinkScan
import NemesisBot.Providers.ChatStream

/-! When a reply that is streamed in frames is the reply that is read at once. -/
namespace NemesisBot.Providers
open Strings Gaps

/-! The frames of a reply. -/

/-- A frame on the way. -/
structure DeltaFrame extends Frame where
  noReasoning : reasoningContent = none
  unfinished : finishReason = none

/-- A frame that finishes the reply. -/
structure FinishFrame extends Frame where
  noReasoning : reasoningContent = none
  finished : finishReason.isSome

/-- The last frame with content or a later one finishes the reply, and frames may follow. Without
one it ends with the mark, behind which nothing is read, or at the end of the stream. -/
inductive Ending where
  | finish (last : FinishFrame) (after : List Frame) (marked : Bool)
  | done (after : List Event)
  | eof

structure StreamedReply where
  frames : List DeltaFrame
  ending : Ending

def Ending.events : Ending → List Event
  | .finish last after marked =>
    .frame last.toFrame :: after.map .frame ++ if marked then [.done] else []
  | .done after => .done :: after
  | .eof => []

def Ending.texts : Ending → List Text
  | .finish last _ _ => [last.text]
  | .done _ => []
  | .eof => []

def StreamedReply.events (reply : StreamedReply) : List Event :=
  reply.frames.map (fun f => .frame f.toFrame) ++ reply.ending.events

/-- How the content is cut. -/
def StreamedReply.cuts (reply : StreamedReply) : List Text :=
  reply.frames.map (fun f => f.text) ++ reply.ending.texts

def StreamedReply.content (reply : StreamedReply) : Text := reply.cuts.flatten

def finals (chunks : List StreamChunk) : List StreamChunk :=
  chunks.filter fun chunk => chunk.finishReason.isSome

/-- The chunk neither finishes the reply nor has thinking. -/
def StreamChunk.Silent (chunk : StreamChunk) : Prop :=
  chunk.finishReason = none ∧ chunk.reasoningContent = none

/-- The deltas are the content without the thinking, up to white space at both ends, and the one
final chunk has the thinking. -/
def StreamedReply.Agrees (reply : StreamedReply) : Prop :=
  ∃ chunks : List StreamChunk, chatStream reply.events = chunks.map .ok ∧
    trim (chunks.flatMap StreamChunk.delta) = trim (stripInlineThinking reply.content).1 ∧
    (finals chunks).map StreamChunk.reasoningContent = [(stripInlineThinking reply.content).2]

theorem finals_append (a b : List StreamChunk) : finals (a ++ b) = finals a ++ finals b :=
  List.filter_append _ _

theorem finals_cons {chunk : StreamChunk} (h : chunk.finishReason.isSome)
    (chunks : List StreamChunk) : finals (chunk :: chunks) = chunk :: finals chunks :=
  List.filter_cons_of_pos h

theorem finals_eq_nil {chunks : List StreamChunk} (h : ∀ c ∈ chunks, c.Silent) :
    finals chunks = [] := by
  refine List.filter_eq_nil_iff.mpr fun c hc => ?_
  rw [(h c hc).1]
  decide

/-! The pass, frame by frame. -/

/-- The pass so far, and the thinking in it, cut behind each frame in which a block ends. -/
structure Pass where
  scan : Scan
  marks : Marked Char

def Pass.start : Pass := ⟨⟨[], .plain, []⟩, [none]⟩

/-- What is decided with one frame more. -/
def Pass.next (p : Pass) (text : Text) : List Token :=
  (Providers.scan p.scan.state (p.scan.held ++ text)).tokens

def frameMarks (tokens : List Token) : Marked Char :=
  (thoughtText tokens).map some ++ if closes tokens then [none] else []

def Pass.frame (p : Pass) (text : Text) : Pass :=
  ⟨p.scan.resume text, p.marks ++ frameMarks (p.next text)⟩

def passOf (cuts : List Text) : Pass := cuts.foldl Pass.frame Pass.start

/-- What was held back, as it stands. -/
def Pass.rest (p : Pass) : List Token := p.scan.held.map (.char p.scan.state)

/-- The thinking of the reply, cut behind each frame in which a block ends. -/
def streamMarks (cuts : List Text) : Marked Char :=
  (passOf cuts).marks ++ (thoughtText (passOf cuts).rest).map some

theorem scan_nil (st : StripState) : scan st [] = ⟨[], st, []⟩ :=
  scan_held (fun h => st.tag_ne_nil (List.prefix_nil.mp h)) List.nil_prefix

theorem passOf_append (cuts : List Text) (text : Text) :
    passOf (cuts ++ [text]) = (passOf cuts).frame text := by
  rw [passOf, List.foldl_append]
  rfl

/-- Frame by frame or at once, the pass is the same. -/
theorem passOf_scan (cuts : List Text) : (passOf cuts).scan = scan .plain cuts.flatten := by
  induction cuts using List.reverseRecOn with
  | nil => exact (scan_nil .plain).symm
  | append_singleton cuts text ih =>
    rw [passOf_append, List.flatten_append, List.flatten_singleton, scan_append, ← ih]
    rfl

theorem passOf_marks (cuts : List Text) :
    (passOf cuts).marks.reduceOption = thoughtText (passOf cuts).scan.tokens := by
  induction cuts using List.reverseRecOn with
  | nil => rfl
  | append_singleton cuts text ih =>
    have hclose (b : Bool) : (if b then [none] else [] : Marked Char).reduceOption = [] := by
      cases b <;> rfl
    rw [passOf_append, Pass.frame, frameMarks, List.reduceOption_append,
      List.reduceOption_append, reduceOption_map_some, hclose, ih, List.append_nil, Scan.resume]
    exact (thoughtText_append _ _).symm

theorem streamMarks_text (cuts : List Text) : (streamMarks cuts).reduceOption =
    (blockMarks (scan .plain cuts.flatten).all).reduceOption := by
  rw [reduceOption_blockMarks, streamMarks, List.reduceOption_append, passOf_marks,
    reduceOption_map_some, ← thoughtText_append, ← passOf_scan]
  rfl

/-! The lane follows the pass. -/

theorem pushReasoning_drain (reasoning : Text) (s : ThinkStripper) :
    pushReasoning reasoning s.drainThinking.2 = addSegment reasoning s.thinking := by
  rw [ThinkStripper.drainThinking, addSegment]
  by_cases hnil : s.thinking = []
  · rw [if_pos hnil, hnil, if_pos (by rfl)]
    rfl
  · rw [if_neg hnil]
    by_cases htrim : trim s.thinking = []
    · rw [if_pos htrim, if_pos htrim]
      rfl
    · rw [if_neg htrim, if_neg htrim]
      rfl

theorem drainThinking_thinking (s : ThinkStripper) :
    s.drainThinking.1 = { s with thinking := [] } := by
  obtain ⟨state, buf, thinking, closed⟩ := s
  rw [ThinkStripper.drainThinking]
  split
  · rename_i hnil
    obtain rfl : thinking = [] := hnil
    rfl
  · rfl

/-- The stripper and the reasoning that a pass has led to. -/
structure Reads (p : Pass) (s : ThinkStripper) (reasoning : Text) : Prop where
  state : s.state = p.scan.state
  buf : s.buf = p.scan.held
  unclosed : s.blockClosed = false
  marks : ∃ m, p.marks = m ++ none :: s.thinking.map some ∧ reasoning = reasoningOf m

theorem Reads.start : Reads Pass.start .new [] := ⟨rfl, rfl, rfl, [], rfl, rfl⟩

/-- Feeding a frame and taking the thinking of its blocks is one step of the pass. -/
theorem Reads.frame {p : Pass} {s : ThinkStripper} {reasoning : Text} (h : Reads p s reasoning)
    (text : Text) : (s.feed text).2 = plainText (p.next text) ∧
      Reads (p.frame text) (s.feed text).1.takeThinking.1
        (pushReasoning reasoning (s.feed text).1.takeThinking.2) := by
  obtain ⟨m, hm, hr⟩ := h.marks
  rw [feed_eq, h.state, h.buf]
  refine ⟨rfl, ?_⟩
  set r := scan p.scan.state (p.scan.held ++ text) with hscan
  have hnext : p.next text = r.tokens := rfl
  rw [ThinkStripper.takeThinking]
  cases hc : closes r.tokens with
  | false =>
    have hopen : (s.after r).blockClosed = false := by
      rw [ThinkStripper.after, h.unclosed, hc]
      rfl
    rw [if_neg (by simp [hopen])]
    refine ⟨rfl, rfl, hopen, m, ?_, hr⟩
    rw [Pass.frame, hm, frameMarks, hnext, hc]
    simp [ThinkStripper.after]
  | true =>
    have hclosed : (s.after r).blockClosed = true := by
      rw [ThinkStripper.after, hc, Bool.or_true]
    rw [if_pos hclosed, drainThinking_thinking, pushReasoning_drain, hr, addSegment_eq]
    refine ⟨rfl, rfl, rfl, _, ?_, rfl⟩
    rw [Pass.frame, hm, frameMarks, hnext, hc]
    simp [ThinkStripper.after]

/-- At the end the rest counts as it stands. -/
theorem Reads.finish {p : Pass} {s : ThinkStripper} {reasoning : Text} (h : Reads p s reasoning) :
    (s.finish reasoning).2 =
      (plainText p.rest, reasoningOf (p.marks ++ (thoughtText p.rest).map some)) := by
  obtain ⟨m, hm, hr⟩ := h.marks
  rw [ThinkStripper.finish, pushReasoning_drain, hr, addSegment_eq, hm, Pass.rest,
    ThinkStripper.flush, ← h.state, ← h.buf]
  cases s.state with
  | plain => simp
  | inThink => simp

/-- A lane that has sent no final chunk. -/
structure Follows (p : Pass) (l : Lane) : Prop where
  unfinished : l.finishEmitted = false
  reads : Reads p l.stripper l.accumulatedReasoning

theorem usageChunk_spec {f : Frame} {chunk : StreamChunk} (h : chunk ∈ usageChunk f) :
    chunk.delta = [] ∧ chunk.Silent := by
  rw [usageChunk] at h
  split at h
  · obtain ⟨usage, -, rfl⟩ := Option.map_eq_some_iff.mp h
    exact ⟨rfl, rfl, rfl⟩
  · cases h

/-- A frame on the way sends what the pass decides. -/
theorem Follows.frame {p : Pass} {l : Lane} (h : Follows p l) (f : DeltaFrame) :
    Follows (p.frame f.text) (l.onFrame f.toFrame).1 ∧
    ((l.onFrame f.toFrame).2.toList.flatMap StreamChunk.delta) = plainText (p.next f.text) ∧
    ∀ chunk ∈ (l.onFrame f.toFrame).2, chunk.Silent := by
  obtain ⟨hdelta, hreads⟩ := h.reads.frame f.text
  simp only [Lane.onFrame, h.unfinished, f.unfinished, f.noReasoning, Option.getD_none,
    List.append_nil, Option.isSome_none, Bool.false_eq_true, if_false, hdelta, List.nil_append,
    and_true]
  split
  · rename_i hempty
    refine ⟨⟨rfl, hreads⟩, ?_, fun chunk hc => (usageChunk_spec hc).2⟩
    rw [hempty]
    refine List.flatMap_eq_nil_iff.mpr fun chunk hc => (usageChunk_spec (f := f.toFrame) ?_).1
    simpa using hc
  · exact ⟨⟨rfl, hreads⟩, by simp, by simp [StreamChunk.Silent]⟩

/-- The final frame sends the rest in front of its own text, and all of the thinking. -/
theorem Follows.finish {p : Pass} {l : Lane} (h : Follows p l) (f : FinishFrame) :
    (l.onFrame f.toFrame).1.finishEmitted = true ∧ ∃ chunk,
      (l.onFrame f.toFrame).2 = some chunk ∧ chunk.finishReason.isSome ∧
      chunk.delta = plainText (p.frame f.text).rest ++ plainText (p.next f.text) ∧
      chunk.reasoningContent = reasoningField (reasoningOf ((p.frame f.text).marks ++
        (thoughtText (p.frame f.text).rest).map some)) := by
  obtain ⟨hdelta, hreads⟩ := h.reads.frame f.text
  have hflush := congrArg Prod.fst hreads.finish
  have hreasoning := congrArg Prod.snd hreads.finish
  have hne : f.finishReason ≠ none := Option.isSome_iff_ne_none.mp f.finished
  simp only [Lane.onFrame, h.unfinished, f.finished, f.noReasoning, Option.getD_none,
    List.append_nil, Bool.false_eq_true, if_false, if_true, hdelta, hne, false_and,
    and_false]
  exact ⟨trivial, _, rfl, f.finished, congrArg (· ++ plainText (p.next f.text)) hflush,
    congrArg reasoningField hreasoning⟩

/-- The chunk that is made up sends the rest, and all of the thinking. -/
theorem Follows.closing {p : Pass} {l : Lane} (h : Follows p l) :
    l.closing.finishReason.isSome ∧ l.closing.delta = plainText p.rest ∧
      l.closing.reasoningContent =
        reasoningField (reasoningOf (p.marks ++ (thoughtText p.rest).map some)) := by
  have hflush := congrArg Prod.fst h.reads.finish
  have hreasoning := congrArg Prod.snd h.reads.finish
  exact ⟨rfl, hflush, congrArg reasoningField hreasoning⟩

/-- Behind the final chunk nothing is sent but the usage. -/
theorem run_finished {l : Lane} (h : l.finishEmitted = true) (after : List Frame) (marked : Bool) :
    ∃ chunks : List StreamChunk,
      l.run (after.map .frame ++ if marked then [.done] else []) = chunks.map .ok ∧
      chunks.flatMap StreamChunk.delta = [] ∧ ∀ c ∈ chunks, c.Silent := by
  induction after with
  | nil =>
    refine ⟨[], ?_, rfl, by simp⟩
    cases marked <;> simp [Lane.run, h]
  | cons f after ih =>
    obtain ⟨chunks, hrun, hdelta, hsilent⟩ := ih
    have hframe : l.onFrame f = (l, usageChunk f) := by rw [Lane.onFrame, if_pos h]
    refine ⟨(usageChunk f).toList ++ chunks, ?_, ?_, ?_⟩
    · rw [List.map_cons, List.cons_append, Lane.run, hframe, hrun, List.map_append]
    · rw [List.flatMap_append, hdelta, List.append_nil, List.flatMap_eq_nil_iff]
      exact fun chunk hc => (usageChunk_spec (by simpa using hc)).1
    · refine List.forall_mem_append.mpr ⟨fun chunk hc => ?_, hsilent⟩
      exact (usageChunk_spec (by simpa using hc)).2

/-- The frames on the way send what the pass decides of them, and no final chunk. -/
theorem Follows.run {cuts : List Text} {l : Lane} (h : Follows (passOf cuts) l)
    (frames : List DeltaFrame) (events : List Event) : ∃ (l' : Lane) (chunks : List StreamChunk),
      Follows (passOf (cuts ++ frames.map fun f => f.text)) l' ∧
      l.run (frames.map (fun f => .frame f.toFrame) ++ events) =
        chunks.map .ok ++ l'.run events ∧
      plainText (passOf cuts).scan.tokens ++ chunks.flatMap StreamChunk.delta =
        plainText (passOf (cuts ++ frames.map fun f => f.text)).scan.tokens ∧
      ∀ c ∈ chunks, c.Silent := by
  induction frames generalizing cuts l with
  | nil => exact ⟨l, [], by simpa using h, rfl, by simp, by simp⟩
  | cons f frames ih =>
    obtain ⟨hnext, hdelta, hnone⟩ := h.frame f
    rw [← passOf_append] at hnext
    obtain ⟨l', chunks, hfollows, hrun, htext, hsilent⟩ := ih hnext
    rw [List.append_assoc, List.singleton_append] at hfollows htext
    refine ⟨l', (l.onFrame f.toFrame).2.toList ++ chunks, hfollows, ?_, ?_, ?_⟩
    · rw [List.map_cons, List.cons_append, Lane.run, hrun, List.map_append, List.append_assoc]
    · rw [List.map_cons, ← htext, List.flatMap_append, hdelta, ← List.append_assoc,
        ← plainText_append, passOf_append]
      rfl
    · exact List.forall_mem_append.mpr ⟨fun chunk hc => hnone chunk (by simpa using hc), hsilent⟩

/-! The streamed reply and the plain one. -/

/-- The text that an ending sends behind what the pass has decided before it. -/
def Ending.tail (p : Pass) : Ending → Text
  | .finish last _ _ => plainText (p.frame last.text).rest ++ plainText (p.next last.text)
  | .done _ => plainText p.rest
  | .eof => plainText p.rest

/-- The pass over the frames on the way. -/
def StreamedReply.before (reply : StreamedReply) : Pass :=
  passOf (reply.frames.map fun f => f.text)

/-- One chunk finishes the reply, with this thinking, and no other one has any. -/
def FinishedBy (chunks : List StreamChunk) (reasoning : Option Text) : Prop :=
  ∃ before final after, chunks = before ++ final :: after ∧ (∀ c ∈ before, c.Silent) ∧
    (∀ c ∈ after, c.Silent) ∧ final.finishReason.isSome ∧ final.reasoningContent = reasoning

theorem FinishedBy.finals {chunks : List StreamChunk} {reasoning : Option Text}
    (h : FinishedBy chunks reasoning) :
    (finals chunks).map StreamChunk.reasoningContent = [reasoning] := by
  obtain ⟨before, final, after, rfl, hbefore, hafter, hfinal, rfl⟩ := h
  rw [finals_append, finals_eq_nil hbefore, finals_cons hfinal, finals_eq_nil hafter]
  rfl

/-- What the lane sends: the text in the order of its chunks, and the thinking that is cut behind
the frames in which a block ends. -/
theorem chatStream_eq (reply : StreamedReply) : ∃ chunks : List StreamChunk,
    chatStream reply.events = chunks.map .ok ∧
    chunks.flatMap StreamChunk.delta =
      plainText reply.before.scan.tokens ++ reply.ending.tail reply.before ∧
    FinishedBy chunks (reasoningField (reasoningOf (streamMarks reply.cuts))) := by
  have hnew : Follows (passOf []) Lane.new := ⟨rfl, Reads.start⟩
  obtain ⟨l, chunks, hfollows, hrun, htext, hsilent⟩ := hnew.run reply.frames reply.ending.events
  rw [List.nil_append] at hfollows htext
  have hsent : chunks.flatMap StreamChunk.delta = plainText reply.before.scan.tokens := htext
  obtain ⟨hfinal, hdelta, hreasoning⟩ := hfollows.closing
  obtain ⟨frames, ending⟩ := reply
  rw [StreamedReply.events, chatStream, hrun]
  cases ending with
  | finish last after marked =>
    obtain ⟨hemitted, chunk, hchunk, hfinal, hdelta, hreasoning⟩ := hfollows.finish last
    obtain ⟨more, hmore, hnothing, hsilent'⟩ := run_finished hemitted after marked
    refine ⟨chunks ++ chunk :: more, ?_, ?_, chunks, chunk, more, rfl, hsilent, hsilent', hfinal, ?_⟩
    · rw [Ending.events, List.cons_append, Lane.run, hchunk, hmore, List.map_append]
      rfl
    · rw [List.flatMap_append, List.flatMap_cons, hnothing, List.append_nil, hsent, hdelta]
      rfl
    · rw [hreasoning, StreamedReply.cuts, Ending.texts, streamMarks, passOf_append]
  | done after =>
    refine ⟨chunks ++ [l.closing], ?_, ?_, chunks, l.closing, [], rfl, hsilent, by simp, hfinal, ?_⟩
    · rw [Ending.events, Lane.run, hfollows.unfinished, List.map_append]
      rfl
    · rw [List.flatMap_append, List.flatMap_singleton, hsent, hdelta]
      rfl
    · rw [hreasoning, StreamedReply.cuts, Ending.texts, List.append_nil, streamMarks]
  | eof =>
    refine ⟨chunks ++ [l.closing], ?_, ?_, chunks, l.closing, [], rfl, hsilent, by simp, hfinal, ?_⟩
    · rw [Ending.events, Lane.run, hfollows.unfinished, List.map_append]
      rfl
    · rw [List.flatMap_append, List.flatMap_singleton, hsent, hdelta]
      rfl
    · rw [hreasoning, StreamedReply.cuts, Ending.texts, List.append_nil, streamMarks]

/-! Collecting the chunks. -/

theorem collectLoop_map (provider model : Text) (a : Collected) (chunks : List StreamChunk) :
    collectLoop provider model a (chunks.map .ok) =
      collectLoop provider model (chunks.foldl Collected.add a) [] := by
  induction chunks generalizing a with
  | nil => rfl
  | cons chunk chunks ih => exact ih (a.add chunk)

theorem foldl_add_content (chunks : List StreamChunk) (a : Collected) :
    (chunks.foldl Collected.add a).content = a.content ++ chunks.flatMap StreamChunk.delta := by
  induction chunks generalizing a with
  | nil => simp
  | cons chunk chunks ih => simp [ih, Collected.add]

theorem foldl_add_silent {chunks : List StreamChunk} (h : ∀ c ∈ chunks, c.Silent)
    (a : Collected) : (chunks.foldl Collected.add a).finishReason = a.finishReason ∧
      (chunks.foldl Collected.add a).reasoningContent = a.reasoningContent := by
  induction chunks generalizing a with
  | nil => exact ⟨rfl, rfl⟩
  | cons chunk chunks ih =>
    obtain ⟨⟨hfinish, hreasoning⟩, hrest⟩ := List.forall_mem_cons.mp h
    obtain ⟨hf, hr⟩ := ih hrest (a.add chunk)
    rw [List.foldl_cons, hf, hr, Collected.add, hfinish, hreasoning]
    exact ⟨rfl, rfl⟩

/-- The collected reply has all of the deltas, and the thinking of the final chunk. -/
theorem collect_of_finishedBy {chunks : List StreamChunk} {reasoning : Option Text}
    (h : FinishedBy chunks reasoning) (provider model : Text) : ∃ response,
    collectStreamResponse provider model (chunks.map .ok) = .ok response ∧
      response.content = chunks.flatMap StreamChunk.delta ∧
      response.reasoningContent = reasoning := by
  set a := chunks.foldl Collected.add ⟨[], [], none, none, none⟩ with ha
  have hcontent : a.content = chunks.flatMap StreamChunk.delta := by
    rw [ha, foldl_add_content, List.nil_append]
  obtain ⟨before, final, after, hchunks, hbefore, hafter, hfinal, hreasoning⟩ := h
  obtain ⟨hfinish, hthinking⟩ :
      a.finishReason = final.finishReason ∧ a.reasoningContent = reasoning := by
    obtain ⟨hf, hr⟩ := foldl_add_silent hafter
      ((before.foldl Collected.add ⟨[], [], none, none, none⟩).add final)
    obtain ⟨hf', hr'⟩ := foldl_add_silent hbefore ⟨[], [], none, none, none⟩
    rw [ha, hchunks, List.foldl_append, List.foldl_cons, hf, hr, Collected.add, hf', hr',
      Option.or_none, Option.or_none, hreasoning]
    exact ⟨rfl, rfl⟩
  obtain ⟨finishReason, hsome⟩ := Option.isSome_iff_exists.mp hfinal
  rw [hsome] at hfinish
  refine ⟨⟨a.content, a.toolCalls, finishReason, a.usage, a.reasoningContent⟩, ?_, hcontent,
    hthinking⟩
  rw [collectStreamResponse, collectLoop_map, ← ha, collectLoop, hfinish]

/-- No blank line is missing or too many: between two visible characters of the thinking a block
begins exactly if a frame has ended in which a block ended, or the text has just a blank line. -/
def BlankLinesFit (cuts : List Text) : Prop :=
  List.Forall₂ (Alike "\n\n".toList)
    (gaps isWhitespace (blockMarks (scan .plain cuts.flatten).all)).tail
    (gaps isWhitespace (streamMarks cuts)).tail

/-- The rest that is held back at the end may come in front of the text of the final frame. -/
def StreamedReply.RestFits (reply : StreamedReply) : Prop := match reply.ending with
  | .finish last _ _ =>
    let sent := plainText reply.before.scan.tokens
    let own := plainText (reply.before.next last.text)
    let rest := plainText (reply.before.frame last.text).rest
    trim (sent ++ (rest ++ own)) = trim (sent ++ (own ++ rest))
  | _ => True

/-- What is sent is the content of the pass, unless the rest is in the wrong place. -/
theorem sent_iff (reply : StreamedReply) :
    trim (plainText reply.before.scan.tokens ++ reply.ending.tail reply.before) =
      trim (plainText (scan .plain reply.content).all) ↔ reply.RestFits := by
  have hcontent : scan .plain reply.content = (passOf reply.cuts).scan :=
    (passOf_scan reply.cuts).symm
  obtain ⟨frames, ending⟩ := reply
  rw [hcontent]
  cases ending with
  | finish last after marked =>
    rw [StreamedReply.cuts, Ending.texts, passOf_append, StreamedReply.RestFits]
    have hall : ((passOf (frames.map fun f => f.text)).frame last.text).scan.all =
        (passOf (frames.map fun f => f.text)).scan.tokens ++
          ((passOf (frames.map fun f => f.text)).next last.text ++
            ((passOf (frames.map fun f => f.text)).frame last.text).rest) :=
      List.append_assoc _ _ _
    rw [hall, plainText_append, plainText_append]
    rfl
  | done after =>
    rw [StreamedReply.cuts, Ending.texts, List.append_nil, Scan.all, plainText_append]
    exact iff_of_true rfl trivial
  | eof =>
    rw [StreamedReply.cuts, Ending.texts, List.append_nil, Scan.all, plainText_append]
    exact iff_of_true rfl trivial

theorem reasoningField_inj {a b : Text} : reasoningField a = reasoningField b ↔ a = b := by
  rw [reasoningField, reasoningField]
  by_cases ha : a = []
  · by_cases hb : b = []
    · simp [ha, hb]
    · simp [ha, hb, eq_comm]
  · by_cases hb : b = []
    · simp [ha, hb]
    · simp [ha, hb]

/-- The chunks decide whether the reply agrees. -/
theorem agrees_iff {reply : StreamedReply} {chunks : List StreamChunk}
    (h : chatStream reply.events = chunks.map .ok) : reply.Agrees ↔
      trim (chunks.flatMap StreamChunk.delta) = trim (stripInlineThinking reply.content).1 ∧
      (finals chunks).map StreamChunk.reasoningContent =
        [(stripInlineThinking reply.content).2] := by
  refine ⟨?_, fun hagrees => ⟨chunks, h, hagrees⟩⟩
  rintro ⟨chunks', h', hagrees⟩
  have hsame : chunks = chunks' := by
    rw [h] at h'
    exact List.map_injective_iff.mpr (fun _ _ he => Except.ok.inj he) h'
  rw [hsame]
  exact hagrees

/-- A streamed reply agrees with the plain one exactly when the rest held back at the end fits in
front of the final frame, and the frames cut the thinking where its blocks do. -/
theorem streamed_agrees_iff (reply : StreamedReply) :
    reply.Agrees ↔ reply.RestFits ∧ BlankLinesFit reply.cuts := by
  obtain ⟨chunks, hchunks, hdelta, hfinal⟩ := chatStream_eq reply
  obtain ⟨hplain, hthinking⟩ := stripInlineThinking_eq reply.content
  have hreasoning : [reasoningField (reasoningOf (streamMarks reply.cuts))] =
      [(stripInlineThinking reply.content).2] ↔ BlankLinesFit reply.cuts := by
    rw [hthinking, ← reasoningField, List.cons.injEq, reasoningField_inj, eq_comm]
    have hws := List.all_eq_true.mp (by decide : "\n\n".toList.all isWhitespace = true)
    exact (and_iff_left rfl).trans (shown_eq_iff hws (streamMarks_text reply.cuts).symm)
  rw [agrees_iff hchunks, hfinal.finals, hreasoning, hdelta, hplain]
  exact and_congr_left fun _ => sent_iff reply

/-- So it is with the reply that is collected from the chunks. -/
theorem collect_chatStream (reply : StreamedReply) (provider model : Text) : ∃ response,
    collectStreamResponse provider model (chatStream reply.events) = .ok response ∧
    (reply.Agrees ↔ trim response.content = trim (stripInlineThinking reply.content).1 ∧
      response.reasoningContent = (stripInlineThinking reply.content).2) := by
  obtain ⟨chunks, hchunks, -, hfinal⟩ := chatStream_eq reply
  obtain ⟨response, hresponse, hcontent, hreasoning⟩ :=
    collect_of_finishedBy hfinal provider model
  rw [hchunks]
  refine ⟨response, hresponse, ?_⟩
  rw [agrees_iff hchunks, hfinal.finals, hcontent, hreasoning, List.cons.injEq]
  exact and_congr_right fun _ => and_iff_left rfl

/-- A frame with some content, and one that ends the reply with some. -/
def contentFrame (text : Text) : DeltaFrame := ⟨⟨some text, none, none, [], false, none⟩, rfl, rfl⟩

def stopFrame (text : Text) : FinishFrame :=
  ⟨⟨some text, none, some "stop".toList, [], false, none⟩, rfl, rfl⟩

/-- The character held back is sent in front of the frame that it ends, and two blocks of one frame
run into each other. -/
theorem streamed_disagrees :
    ¬ (StreamedReply.mk [] (.finish (stopFrame "5 <".toList) [] true)).Agrees ∧
    ¬ (StreamedReply.mk [contentFrame "<think>a</think><think>b</think>".toList]
      (.finish (stopFrame []) [] true)).Agrees := by
  constructor
  · have hsent : chatStream (StreamedReply.mk [] (.finish (stopFrame "5 <".toList) [] true)).events =
        [StreamChunk.mk "<5 ".toList [] (some "stop".toList) none none].map .ok := rfl
    rw [agrees_iff hsent]
    decide
  · have hsent : chatStream (StreamedReply.mk
        [contentFrame "<think>a</think><think>b</think>".toList]
        (.finish (stopFrame []) [] true)).events =
        [StreamChunk.mk [] [] (some "stop".toList) none (some "ab".toList)].map .ok := rfl
    rw [agrees_iff hsent]
    decide

end NemesisBot.Providers

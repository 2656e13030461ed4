import NemesisBot.Cluster.SinkEnds

/-! Delivered means landed: what a push is told is what the inbox has held while it lasted, along
every run in which no crash and no sweep falls where it does harm. -/
namespace NemesisBot.Transfer
open Strings FileTree ExecWorkspace Runs

namespace TransferReply

def began : TransferReply → Bool
  | .begin r => r.status = .ok
  | .chunk _ | .finish _ => false

/-- The answers that end a push as delivered. -/
def arrived : TransferReply → Bool
  | .begin r => r.status = .dedup
  | .finish (.ok _) => true
  | .finish (.error _) | .chunk _ => false

def later : TransferReply → Bool
  | .begin _ => false
  | .chunk _ | .finish _ => true

end TransferReply

def Push.begun (p : Push) : Bool := p.answers.any fun a => a.2.began

def State.contents (s : State) : List TransferBegin := s.pushes.map Push.request

/-- A push under way relies on the staging directory: its content has not been seen yet. -/
def State.Waits (s : State) (name : Text) : Prop :=
  ∃ p ∈ s.pushes, p.isOpen = true ∧ p.begun = true ∧ p.seen = false ∧ stagedName p.request = name

/-- An old receipt would answer for the staging directory if it went. -/
def State.Needs (s : State) (name : Text) : Prop := s.sink.finished name ≠ none ∧ s.Waits name

instance (s : State) (name : Text) : Decidable (s.Waits name) :=
  inferInstanceAs (Decidable (∃ p ∈ s.pushes, _))

instance (s : State) (name : Text) : Decidable (s.Needs name) :=
  inferInstanceAs (Decidable (_ ∧ _))

instance (a b : TransferBegin) : Decidable (Apart a b) :=
  decidable_of_iff ((Sink.landedName a = Sink.landedName b → a.taskId = b.taskId) ∧
    (sanitizeTransferId a.transferId = sanitizeTransferId b.transferId →
      a.taskId = b.taskId ∧ a.contentHash = b.contentHash))
    ⟨fun h => ⟨h.1, h.2⟩, fun h => ⟨h.task, h.content⟩⟩

/-- A `begin` may be cut short between the removal of a staging directory and its renewal, and an
`end` beside an older entry of the task. -/
def CleanCrash (s : State) (torn : Torn) (writes : Nat) (request : TransferBegin) :
    TransferCall → Prop
  | .begin => writes = 2 → ((s.sink.manifest request.transferId).any fun m =>
      m.contentHash = request.contentHash) = true ∨ ¬ s.Needs (stagedName request)
  | .chunk _ => True
  | .finish => ∀ m ∈ s.sink.manifest request.transferId, CleanLanding torn m s.sink writes

instance CleanCrash.decidable (s : State) (torn : Torn) (writes : Nat) (request : TransferBegin) :
    (call : TransferCall) → Decidable (CleanCrash s torn writes request call)
  | .begin => inferInstanceAs (Decidable (_ → _ ∨ _))
  | .chunk _ => .isTrue trivial
  | .finish => inferInstanceAs (Decidable (∀ m ∈ s.sink.manifest _, _))

variable (cfg : SinkConfig)

/-- The content of a push that gets as far as its first call. -/
def pushed (input : PushInput) : Option TransferBegin :=
  match startPush cfg input with
  | some (.inl request) => some request
  | _ => none

/-- Two tasks do not share a directory, no path loses blanks on the way, and crashes and sweeps
leave alone what a receipt or an entry still speaks for. -/
def Clean (s : State) : Label → Prop
  | .start input => ∀ m ∈ pushed cfg input,
      (∀ f ∈ m.files, trim f.path = f.path) ∧ ∀ m' ∈ s.contents, Apart m' m
  | .crash i call torn writes => ∀ p ∈ s.pushes[i]?, CleanCrash s torn writes p.request call
  | .sweep names | .crashSweep names _ _ => ∀ name ∈ names, ¬ s.Needs name
  | .crashSweepLanded _ torn name => torn.jsonLost = true ∨ torn.lost = [] ∨
      ∀ m ∈ s.contents, Sink.landedName m = name → s.sink.saved m.taskId = none
  | .deliver _ _ | .receive _ _ _ | .fail _ _ | .sweepLanded _ | .sweepDone _ | .restart => True

instance Clean.decidable (s : State) : (i : Label) → Decidable (Clean cfg s i)
  | .start input => inferInstanceAs (Decidable (∀ m ∈ pushed cfg input, _))
  | .crash i _ _ _ => inferInstanceAs (Decidable (∀ p ∈ s.pushes[i]?, _))
  | .sweep names | .crashSweep names _ _ => inferInstanceAs (Decidable (∀ name ∈ names, _))
  | .crashSweepLanded _ _ _ => inferInstanceAs (Decidable (_ ∨ _ ∨ _))
  | .deliver _ _ | .receive _ _ _ | .fail _ _ | .sweepLanded _ | .sweepDone _ | .restart =>
    .isTrue trivial

/-- What a push may rely on: before it is answered its staging directory stands for itself, and
the answers that end it as delivered come after its content was seen. -/
structure Fair (sink : Sink) (seen : Prop) (p : Push) : Prop where
  sent : ∀ call ∈ p.sent, call ≠ .begin → p.begun = true
  later : ∀ a ∈ p.answers, a.2.later = true → p.begun = true
  rests : p.isOpen = true → p.begun = true → seen ∨ Grounded sink (stagedName p.request)
  arrived : ∀ a ∈ p.answers, a.2.arrived = true → seen
  delivered : p.phase = .over (.ok .delivered) → seen

/-- Seen before, or now. -/
def Seen (sink : Sink) (p : Push) : Prop :=
  p.seen = true ∨ p.isOpen = true ∧ Holds cfg sink.fs p.request

structure Inv (s : State) : Prop where
  started : Started cfg s.contents
  good : Good cfg s.contents s.sink
  fair : ∀ p ∈ s.pushes, Fair s.sink (p.seen = true) p
  receipts : ∀ name r, s.sink.finished name = some r →
    ∃ m ∈ s.contents, stagedName m = name ∧ m ∈ s.landed

/-- As `Inv`, before the pushes have looked. -/
structure Acted (s : State) : Prop where
  started : Started cfg s.contents
  good : Good cfg s.contents s.sink
  fair : ∀ p ∈ s.pushes, Fair s.sink (Seen cfg s.sink p) p
  receipts : ∀ name r, s.sink.finished name = some r →
    ∃ m ∈ s.contents, stagedName m = name ∧ (m ∈ s.landed ∨ Holds cfg s.sink.fs m)

/-- What the protocol promises. -/
structure Promised (s : State) : Prop where
  delivered : ∀ p ∈ s.pushes, p.phase = .over (.ok .delivered) → p.seen = true
  dedup : ∀ m ∈ s.contents, ∀ torn c, s.sink.begin cfg torn m = some c →
    c.reply.status = .dedup → Holds cfg s.sink.fs m
  replayed : ∀ m ∈ s.contents, ∀ torn c r, s.sink.endTransfer cfg torn m.transferId = some c →
    s.sink.staging (stagedName m) = none → c.reply = .ok r →
    ∃ m' ∈ s.landed, m'.taskId = m.taskId ∧ m'.contentHash = m.contentHash

variable {cfg} {s s' : State} {sink sink' : Sink} {seen seen' : Prop} {p p' : Push} {i : Nat}
  {torn : Torn} {m : TransferBegin} {contents contents' : List TransferBegin}

theorem Fair.mono (h : Fair sink seen p) (hseen : seen → seen') : Fair sink seen' p :=
  ⟨h.sent, h.later, fun ho hb => (h.rests ho hb).imp_left hseen, fun a ha h' => hseen (h.arrived a ha h'),
    fun hd => hseen (h.delivered hd)⟩

theorem Fair.answer {call : TransferCall} {reply : TransferReply} (h : Fair sink seen p)
    (hsent : call ∈ p.sent) (hlater : reply.later = true → call ≠ .begin)
    (hbegan : reply.began = true → Grounded sink (stagedName p.request))
    (harrived : reply.arrived = true → seen) :
    Fair sink seen { p with answers := (call, reply) :: p.answers } := by
  have hbegun : Push.begun { p with answers := (call, reply) :: p.answers } =
      (reply.began || p.begun) := rfl
  refine ⟨fun c hc hne => ?_, ?_, fun ho hb => ?_, ?_, h.delivered⟩
  · rw [hbegun, h.sent c hc hne, Bool.or_true]
  · intro a ha hl
    rw [hbegun]
    obtain rfl | ha := List.mem_cons.mp ha
    · rw [h.sent call hsent (hlater hl), Bool.or_true]
    · rw [h.later a ha hl, Bool.or_true]
  · rw [hbegun, Bool.or_eq_true] at hb
    exact hb.elim (fun hb => .inr (hbegan hb)) (h.rests ho)
  · intro a ha harr
    obtain rfl | ha := List.mem_cons.mp ha
    · exact harrived harr
    · exact h.arrived a ha harr

theorem Inv.acted (h : Inv cfg s) : Acted cfg s where
  started := h.started
  good := h.good
  fair p hp := (h.fair p hp).mono .inl
  receipts name r hr := by
    obtain ⟨m, hm, hname, hlanded⟩ := h.receipts name r hr
    exact ⟨m, hm, hname, .inl hlanded⟩

theorem Acted.observe (h : Acted cfg s) : Inv cfg (s.observe cfg) := by
  have hcontents : (s.observe cfg).contents = s.contents := by
    simp only [State.observe, State.contents, List.map_map]
    exact List.map_congr_left fun _ _ => rfl
  refine ⟨hcontents.symm ▸ h.started, hcontents.symm ▸ h.good, fun p hp => ?_, fun name r hr => ?_⟩
  · obtain ⟨p, hold, rfl⟩ := List.mem_map.mp hp
    obtain ⟨h1, h2, h3, h4, h5⟩ := h.fair p hold
    have hseen : Seen cfg s.sink p →
        (p.seen || (p.isOpen && decide (Holds cfg s.sink.fs p.request))) = true := by
      intro hseen
      rw [Bool.or_eq_true, Bool.and_eq_true, decide_eq_true_iff]
      exact hseen
    exact ⟨h1, h2, fun ho hb => (h3 ho hb).imp_left hseen, fun a ha harr => hseen (h4 a ha harr),
      fun hd => hseen (h5 hd)⟩
  · obtain ⟨m, hm, hname, hlanded⟩ := h.receipts name r hr
    refine ⟨m, hcontents.symm ▸ hm, hname, List.mem_append.mpr ?_⟩
    obtain hlanded | hholds := hlanded
    · exact .inr hlanded
    · exact .inl (List.mem_filter.mpr ⟨hm, decide_eq_true hholds⟩)

/-- The sink moves and the pushes stay as they are. -/
theorem Inv.moved (h : Inv cfg s) (hg : Good cfg s.contents sink')
    (hm : Moves cfg s.contents s.Waits s.sink sink') : Acted cfg { s with sink := sink' } where
  started := h.started
  good := hg
  fair p hp := by
    obtain ⟨h1, h2, h3, h4, h5⟩ := h.fair p hp
    refine ⟨h1, h2, fun ho hb => ?_, fun a ha harr => .inl (h4 a ha harr), fun hd => .inl (h5 hd)⟩
    cases hseen : p.seen with
    | true => exact .inl (.inl hseen)
    | false =>
      have hground := (h3 ho hb).resolve_left (by rw [hseen]; exact Bool.false_ne_true)
      obtain hg | hholds := hm.grounded p.request (List.mem_map_of_mem hp)
        ⟨p, hp, ho, hb, hseen, rfl⟩ hground
      · exact .inr hg
      · exact .inl (.inr ⟨ho, hholds⟩)
  receipts name r hr := by
    obtain hold | ⟨m, hcontent, hname, hholds⟩ := hm.finished name r hr
    · obtain ⟨m, hcontent, hname, hlanded⟩ := h.receipts name r hold
      exact ⟨m, hcontent, hname, .inl hlanded⟩
    · exact ⟨m, hcontent, hname, .inr hholds⟩

theorem Moves.mono {needed needed' : Text → Prop} (h : Moves cfg contents needed sink sink')
    (hneeded : ∀ name, needed' name → needed name) : Moves cfg contents needed' sink sink' :=
  ⟨h.durable, fun m hm hn => h.grounded m hm (hneeded _ hn), h.finished⟩

theorem contents_modify (hp : s.pushes[i]? = some p) (hreq : p'.request = p.request) :
    (s.modify i p').contents = s.contents := by
  obtain ⟨hi, rfl⟩ := List.getElem?_eq_some_iff.mp hp
  rw [State.contents, State.modify, List.map_set, hreq, ← List.map_set, List.set_getElem_self hi]
  rfl

/-- One push goes on. -/
theorem Acted.modify (h : Acted cfg s) (hp : s.pushes[i]? = some p)
    (hreq : p'.request = p.request) (hfair : Fair s.sink (Seen cfg s.sink p') p') :
    Acted cfg (s.modify i p') := by
  have hcontents := contents_modify hp hreq
  refine ⟨hcontents.symm ▸ h.started, hcontents.symm ▸ h.good, fun q hq => ?_,
    fun name r hr => hcontents.symm ▸ h.receipts name r hr⟩
  obtain hq | rfl := List.mem_or_eq_of_mem_set hq
  · exact h.fair q hq
  · exact hfair

theorem Good.mono (h : Good cfg contents sink) (hsub : ∀ m ∈ contents, m ∈ contents') :
    Good cfg contents' sink := by
  have htold {index : Text → Option Text} (h : Told cfg contents sink index) :
      Told cfg contents' sink index :=
    ⟨fun t hash ht => (h.known t hash ht).imp fun m hm => ⟨hsub m hm.1, hm.2⟩,
      fun t hash ht hr => (h.sound t hash ht hr).imp fun m hm => ⟨hsub m hm.1, hm.2⟩⟩
  exact ⟨⟨fun name m hm => (h.staged name m hm).imp_right (hsub m), htold h.saved⟩, htold h.index⟩

/-! The calls. -/

theorem called_last {call : TransferCall} {c : Called TransferReply}
    (hg : Good cfg contents sink) (hs : Started cfg contents) (hm : m ∈ contents)
    (h : called cfg torn m call sink = some c) :
    Good cfg contents (c.last sink) ∧ Moves cfg contents (fun _ => True) sink (c.last sink) ∧
      (c.reply.later = true → call ≠ .begin) ∧
      (c.reply.began = true → Grounded (c.last sink) (stagedName m)) ∧
      (c.reply.arrived = true → Holds cfg (c.last sink).fs m ∨
        call ≠ .begin ∧ ¬ Grounded sink (stagedName m)) := by
  cases call with
  | begin =>
    obtain ⟨c, hc, rfl⟩ := Option.map_eq_some_iff.mp h
    obtain ⟨hgood, hmoves, hok, hdedup⟩ := begin_last hg hs hm hc
    exact ⟨hgood, hmoves, fun hl => absurd hl Bool.false_ne_true,
      fun hb => .inl (hok (of_decide_eq_true hb)), fun ha => .inl (hdedup (of_decide_eq_true ha))⟩
  | chunk req =>
    obtain rfl := Option.some.inj h
    obtain ⟨hgood, hmoves⟩ := chunk_moves req hg hs ((sink.chunk cfg req).states_last sink)
    exact ⟨hgood, hmoves, fun _ => by simp, fun hb => absurd hb Bool.false_ne_true,
      fun ha => absurd ha Bool.false_ne_true⟩
  | finish =>
    obtain ⟨c, hc, rfl⟩ := Option.map_eq_some_iff.mp h
    obtain ⟨hgood, hmoves, hreply⟩ := end_last hg hs hc
    refine ⟨hgood, hmoves, fun _ => by simp, fun hb => absurd hb Bool.false_ne_true, fun ha => ?_⟩
    cases hr : c.reply with
    | error e =>
      simp only [hr] at ha
      exact absurd ha Bool.false_ne_true
    | ok r =>
      obtain ⟨-, hnone, hfinished⟩ | ⟨m', hm', hname, hholds⟩ := hreply r hr
      · refine .inr ⟨by simp, fun hground => hground.elim (fun hne => hne hnone) fun hf => ?_⟩
        exact Option.some_ne_none r (hfinished.symm.trans hf)
      · obtain ⟨htask, hhash⟩ := (hs.apart m' hm' m hm).content hname
        exact .inl (hs.holds_iff hm' hm htask hhash hholds)

theorem called_crash {call : TransferCall} {c : Called TransferReply} {k : Nat}
    (hi : Inv cfg s) (hm : m ∈ s.contents) (h : called cfg torn m call s.sink = some c)
    (hk : (c.states s.sink)[k]? = some sink') (hclean : CleanCrash s torn k m call) :
    Moves cfg s.contents s.Waits s.sink sink' := by
  cases call with
  | begin =>
    obtain ⟨c, hc, rfl⟩ := Option.map_eq_some_iff.mp h
    exact begin_crash hi.good hi.started hm hc hk hclean
  | chunk req =>
    obtain rfl := Option.some.inj h
    exact (chunk_moves req hi.good hi.started hk).2
  | finish =>
    obtain ⟨c, hc, rfl⟩ := Option.map_eq_some_iff.mp h
    exact end_crash hi.good hi.started hc hk hclean

/-! The pushes. -/

theorem beginRequest_eq {input : PushInput} {files : List TransferFileEntry}
    (h : beginRequest cfg input files = some m) :
    m.files = files ∧ m.contentHash = contentHash cfg.env files := by
  obtain ⟨count, -, rfl⟩ := Option.map_eq_some_iff.mp h
  exact ⟨rfl, rfl⟩

theorem pushed_collected {input : PushInput} (h : pushed cfg input = some m) :
    ∃ tree, collectDirFiles cfg.env tree = .ok m.files ∧
      m.contentHash = contentHash cfg.env m.files := by
  simp only [pushed, startPush] at h
  split at h
  · rename_i request hstart
    obtain rfl := Option.some.inj h
    split at hstart
    · cases hstart
    rename_i files hfiles
    split at hstart
    · cases hstart
    split at hstart
    · cases hstart
    obtain ⟨request, hrequest, hsum⟩ := Option.map_eq_some_iff.mp hstart
    obtain rfl := Sum.inl.inj hsum
    obtain ⟨hf, hhash⟩ := beginRequest_eq hrequest
    exact ⟨input.tree, by rw [hf, hfiles], by rw [hhash, hf]⟩
  · cases h

theorem Inv.start (h : Inv cfg s) {input : PushInput} (hm : pushed cfg input = some m)
    (hclean : (∀ f ∈ m.files, trim f.path = f.path) ∧ ∀ m' ∈ s.contents, Apart m' m) :
    Acted cfg { s with pushes := s.pushes ++ [⟨m, .waiting .begin [], [.begin], [], false⟩] } := by
  have hcontents : State.contents
      { s with pushes := s.pushes ++ [⟨m, .waiting .begin [], [.begin], [], false⟩] } =
        s.contents ++ [m] := List.map_append
  have hacted := h.acted
  refine ⟨hcontents.symm ▸ ⟨?_, ?_, ?_⟩, hcontents.symm ▸ h.good.mono fun _ =>
    List.mem_append_left _, ?_, ?_⟩
  · exact List.forall_mem_append.mpr ⟨h.started.collected,
      List.forall_mem_singleton.mpr (pushed_collected hm)⟩
  · exact List.forall_mem_append.mpr ⟨h.started.untrimmed,
      List.forall_mem_singleton.mpr hclean.1⟩
  · intro a ha b hb
    obtain ha | ha := List.mem_append.mp ha
    · obtain hb | hb := List.mem_append.mp hb
      · exact h.started.apart a ha b hb
      · exact List.mem_singleton.mp hb ▸ hclean.2 a ha
    · obtain rfl := List.mem_singleton.mp ha
      obtain hb | hb := List.mem_append.mp hb
      · exact (hclean.2 b hb).symm
      · exact List.mem_singleton.mp hb ▸ Apart.refl a
  · refine List.forall_mem_append.mpr ⟨hacted.fair, List.forall_mem_singleton.mpr ?_⟩
    refine ⟨fun call hc hne => ?_, fun a ha => absurd ha List.not_mem_nil,
      fun _ hb => absurd hb Bool.false_ne_true, fun a ha => absurd ha List.not_mem_nil,
      fun hd => by cases hd⟩
    exact absurd (List.mem_singleton.mp hc) hne
  · intro name r hr
    obtain ⟨m', hm', hrest⟩ := hacted.receipts name r hr
    exact ⟨m', hcontents.symm ▸ List.mem_append_left _ hm', hrest⟩

theorem Inv.deliver (h : Inv cfg s) {call : TransferCall} {c : Called TransferReply}
    (hp : s.pushes[i]? = some p) (hsent : call ∈ p.sent)
    (hc : called cfg ⟨[], false⟩ p.request call s.sink = some c) :
    Acted cfg { s with sink := c.last s.sink } ∧ (p.isOpen = true →
      Acted cfg ({ s with sink := c.last s.sink }.modify i
        { p with answers := (call, c.reply) :: p.answers })) := by
  have hmem := List.mem_of_getElem? hp
  obtain ⟨hgood, hmoves, hlater, hbegan, harrived⟩ :=
    called_last h.good h.started (List.mem_map_of_mem hmem) hc
  have hacted := h.moved hgood (hmoves.mono fun _ _ => trivial)
  refine ⟨hacted, fun hopen => hacted.modify hp rfl ?_⟩
  refine (hacted.fair p hmem).answer hsent hlater hbegan fun harr => ?_
  obtain hholds | ⟨hne, hground⟩ := harrived harr
  · exact .inr ⟨hopen, hholds⟩
  · have hfair := h.fair p hmem
    exact .inl ((hfair.rests hopen (hfair.sent call hsent hne)).resolve_right hground)

theorem Fair.over (h : Fair sink seen p) {result : Except Text PushDirOutcome}
    (hdelivered : result = .ok .delivered → seen) : Fair sink seen (p.over result) where
  sent := h.sent
  later := h.later
  rests ho := absurd ho Bool.false_ne_true
  arrived := h.arrived
  delivered hd := by
    injection hd with hd
    exact hdelivered hd

theorem Fair.send (h : Fair sink seen p) (hopen : p.isOpen = true) (hbegun : p.begun = true)
    (call : TransferCall) (todo : List Nat) :
    Fair sink seen { p with phase := .waiting call todo, sent := call :: p.sent } where
  sent _ _ _ := hbegun
  later := h.later
  rests _ hb := h.rests hopen hb
  arrived := h.arrived
  delivered hd := by cases hd

theorem nextCall_fair {plan : List Chunk} {read : Option ByteArray} {todo : List Nat}
    (h : Fair sink seen p) (hopen : p.isOpen = true) (hbegun : p.begun = true)
    (hn : nextCall cfg plan read p todo = some p') :
    p'.request = p.request ∧ p'.seen = p.seen ∧ Fair sink seen p' := by
  simp only [nextCall] at hn
  split at hn
  · obtain rfl := Option.some.inj hn
    exact ⟨rfl, rfl, h.send hopen hbegun _ _⟩
  · split at hn
    · obtain rfl := Option.some.inj hn
      exact ⟨rfl, rfl, h.over fun he => by cases he⟩
    · split at hn
      · obtain rfl := Option.some.inj hn
        exact ⟨rfl, rfl, h.send hopen hbegun _ _⟩
      · cases hn
    · cases hn

theorem receive_fair {call : TransferCall} {reply : TransferReply} {todo : List Nat}
    {read : Option ByteArray} (h : Fair sink seen p) (hphase : p.phase = .waiting call todo)
    (hreply : (call, reply) ∈ p.answers) (hr : p.receive cfg todo reply read = some p') :
    p'.request = p.request ∧ p'.seen = p.seen ∧ Fair sink seen p' := by
  have hopen : p.isOpen = true := by rw [Push.isOpen, hphase]
  have hother {result : Except Text PushDirOutcome} (hne : result ≠ .ok .delivered)
      (he : some (p.over result) = some p') :
      p'.request = p.request ∧ p'.seen = p.seen ∧ Fair sink seen p' := by
    obtain rfl := Option.some.inj he
    exact ⟨rfl, rfl, h.over fun hd => absurd hd hne⟩
  have hdone (harr : reply.arrived = true) (he : some (p.over (.ok .delivered)) = some p') :
      p'.request = p.request ∧ p'.seen = p.seen ∧ Fair sink seen p' := by
    obtain rfl := Option.some.inj he
    exact ⟨rfl, rfl, h.over fun _ => h.arrived _ hreply harr⟩
  cases reply with
  | begin r =>
    simp only [Push.receive] at hr
    split at hr
    · rename_i hstatus
      exact hdone (decide_eq_true hstatus) hr
    · exact hother (by simp) hr
    · rename_i hstatus
      obtain ⟨plan, -, hn⟩ := Option.bind_eq_some_iff.mp hr
      exact nextCall_fair h hopen
        (List.any_eq_true.mpr ⟨_, hreply, decide_eq_true hstatus⟩) hn
    · exact hother (by simp) hr
  | chunk r => cases r with
    | error e => exact hother (by simp) hr
    | ok _ =>
      obtain ⟨plan, -, hn⟩ := Option.bind_eq_some_iff.mp hr
      exact nextCall_fair h hopen (h.later _ hreply rfl) hn
  | finish r => cases r with
    | error e => exact hother (by simp) hr
    | ok _ => exact hdone rfl hr

theorem Inv.modify (h : Inv cfg s) (hp : s.pushes[i]? = some p)
    (hfair : Fair s.sink (p.seen = true) p →
      p'.request = p.request ∧ p'.seen = p.seen ∧ Fair s.sink (p.seen = true) p') :
    Acted cfg (s.modify i p') := by
  obtain ⟨hreq, hseen, hfair⟩ := hfair (h.fair p (List.mem_of_getElem? hp))
  exact h.acted.modify hp hreq (hfair.mono fun hs => .inl (hseen.trans hs))

theorem Inv.restarted (h : Inv cfg s) (hm : Moves cfg s.contents s.Waits s.sink sink) :
    Acted cfg { s with sink := sink.restart } :=
  h.moved hm.durable.restart hm.restart

/-! Runs. -/

theorem acted_act (h : Inv cfg s) {label : Label} (hclean : Clean cfg s label)
    (ha : act cfg s label = some s') : Acted cfg s' := by
  cases label with
  | start input =>
    obtain ⟨started, hstart, rfl⟩ := Option.map_eq_some_iff.mp ha
    cases started with
    | inl request =>
      have hpushed : pushed cfg input = some request := by rw [pushed, hstart]
      exact h.start hpushed (hclean request hpushed)
    | inr result => exact h.acted
  | deliver i call =>
    obtain ⟨p, hp, ha⟩ := Option.bind_eq_some_iff.mp ha
    split at ha
    · rename_i hsent
      obtain ⟨c, hc, rfl⟩ := Option.map_eq_some_iff.mp ha
      obtain ⟨hsink, hanswer⟩ := h.deliver hp hsent hc
      dsimp only
      split
      · rename_i hopen
        exact hanswer hopen
      · exact hsink
    · cases ha
  | crash i call torn writes =>
    obtain ⟨p, hp, ha⟩ := Option.bind_eq_some_iff.mp ha
    split at ha
    · obtain ⟨c, hc, ha⟩ := Option.bind_eq_some_iff.mp ha
      obtain ⟨sink, hsink, rfl⟩ := Option.map_eq_some_iff.mp ha
      have hm : p.request ∈ s.contents := List.mem_map_of_mem (List.mem_of_getElem? hp)
      exact h.restarted (called_crash h hm hc hsink (hclean p hp))
    · cases ha
  | receive i reply read =>
    obtain ⟨p, hp, ha⟩ := Option.bind_eq_some_iff.mp ha
    split at ha
    · cases ha
    · rename_i call todo hphase
      split at ha
      · rename_i hreply
        obtain ⟨p', hr, rfl⟩ := Option.map_eq_some_iff.mp ha
        exact h.modify hp fun hfair => receive_fair hfair hphase hreply hr
      · cases ha
  | fail i error =>
    obtain ⟨p, hp, ha⟩ := Option.bind_eq_some_iff.mp ha
    split at ha
    · obtain rfl := Option.some.inj ha
      exact h.modify hp fun hfair => ⟨rfl, rfl, hfair.over fun he => by cases he⟩
    · cases ha
  | sweep names =>
    obtain rfl := Option.some.inj ha
    obtain ⟨hgood, hmoves⟩ := sweepStaging_moves h.good h.started hclean
    exact h.moved hgood hmoves
  | crashSweep names torn name =>
    obtain rfl := Option.some.inj ha
    exact h.restarted (crashSweep_moves name h.good h.started hclean)
  | sweepLanded names =>
    obtain rfl := Option.some.inj ha
    obtain ⟨hgood, hmoves⟩ := sweepLanded_moves names h.good h.started
    exact h.moved hgood hmoves
  | crashSweepLanded names torn name =>
    simp only [act] at ha
    split at ha
    · obtain rfl := Option.some.inj ha
      refine h.restarted (crashSweepLanded_moves h.good h.started ?_)
      refine hclean.imp_right fun hclean => hclean.imp_right fun hnone t hname => ?_
      by_contra ht
      obtain ⟨hash, hhash⟩ := Option.ne_none_iff_exists'.mp ht
      obtain ⟨m, hm, rfl, -⟩ := h.good.saved.known t hash hhash
      exact ht (hnone m hm hname)
    · cases ha
  | sweepDone names =>
    obtain rfl := Option.some.inj ha
    obtain ⟨hgood, hmoves⟩ := @sweepDone_moves cfg s.contents s.Waits s.sink names h.good
    exact h.moved hgood hmoves
  | restart =>
    obtain rfl := Option.some.inj ha
    exact h.restarted (.of_same h.good.toDurable rfl rfl)

theorem inv_step (h : Inv cfg s) {label : Label} (hclean : Clean cfg s label)
    (hstep : step cfg s label = some s') : Inv cfg s' := by
  obtain ⟨mid, ha, rfl⟩ := Option.map_eq_some_iff.mp hstep
  exact (acted_act h hclean ha).observe

theorem inv_empty : Inv cfg State.empty := by
  have htold : Told cfg [] Sink.empty fun _ => none :=
    ⟨fun _ _ ht => absurd ht.symm (Option.some_ne_none _),
      fun _ _ ht => absurd ht.symm (Option.some_ne_none _)⟩
  refine ⟨⟨List.forall_mem_nil _, List.forall_mem_nil _, fun _ hm => absurd hm List.not_mem_nil⟩,
    ⟨⟨fun _ _ hm => ?_, htold⟩, htold⟩, List.forall_mem_nil _, fun _ _ hr => ?_⟩
  · cases hm
  · cases hr

theorem Inv.promised (h : Inv cfg s) : Promised cfg s where
  delivered p hp hd := (h.fair p hp).delivered hd
  dedup m hm torn c hc hdedup := by
    obtain ⟨-, -, -, hholds⟩ := begin_last h.good h.started hm hc
    obtain ⟨hw, -⟩ | ⟨hok, -⟩ | ⟨hok, -⟩ := begin_cases hc
    · have hlast : c.last s.sink = s.sink := by rw [Called.last, hw]; rfl
      exact hlast ▸ hholds hdedup
    · rw [hok] at hdedup
      cases hdedup
    · rw [hok] at hdedup
      cases hdedup
  replayed m hm torn c r hc hnone hr := by
    obtain ⟨-, hreply⟩ | ⟨held, -, hheld, -⟩ := end_cases hc
    · obtain ⟨m', hm', hname, hlanded⟩ := h.receipts _ r (hreply r hr).2
      obtain ⟨htask, hhash⟩ := (h.started.apart m' hm' m hm).content hname
      exact ⟨m', hlanded, htask, hhash⟩
    · exact absurd (hnone.symm.trans hheld) (Option.some_ne_none _).symm

def lettersSink : SinkConfig := ⟨lettersHost, ["inbox".toList], 0⟩

def emptyFile (name : Text) (h : name ≠ [] ∧ '/' ∉ name) : PushInput :=
  ⟨"t".toList, oneFile name h ByteArray.empty, 0, 1⟩

/-- A push from its start to the answer of its `end`. -/
def pushedOnce (input : PushInput) (i : Nat) : List Label :=
  [.start input, .deliver i .begin, .receive i (.begin ⟨.ok, [], none⟩) none, .deliver i .finish,
    .receive i (.finish (.ok ⟨1, 0⟩)) none]

def pushedAgain (input : PushInput) (i : Nat) : List Label :=
  [.start input, .deliver i .begin, .receive i (.begin ⟨.dedup, [], none⟩) none]

/-- A crash between the receipt of the second content and the entry for it: the first content is
pushed again and taken for delivered. -/
example : ((run (step lettersSink) State.empty (pushedOnce (emptyFile ['a'] (by decide)) 0 ++
    ((pushedOnce (emptyFile ['b'] (by decide)) 1).take 3 ++ .crash 1 .finish ⟨[], true⟩ 5 ::
      pushedAgain (emptyFile ['a'] (by decide)) 2))).map fun s =>
        s.pushes.map Push.seen) = some [true, true, false] := by
  decide +kernel

end NemesisBot.Transfer

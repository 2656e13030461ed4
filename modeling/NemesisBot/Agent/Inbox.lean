import NemesisBot.Lib.Runs
import NemesisBot.Lib.Strings

/-! The inbox of one session: messages that start the next turn and messages that are put into
the running one. -/
namespace NemesisBot.Inbox
open Strings Runs

inductive MessagePriority where
  | normal
  | high
  deriving DecidableEq

/-- `rest` is whatever else the message carries. -/
structure QueuedMessage (ρ : Type) where
  content : Text
  rest : ρ
  priority : MessagePriority
  deriving DecidableEq

structure SessionQueues (ρ : Type) where
  nextTurn : List (QueuedMessage ρ)
  nextStep : List (QueuedMessage ρ)

inductive EnqueueOutcome where
  | queuedForNextTurn
  | queuedForNextStep
  | rejected
  | rejectedSoft
  deriving DecidableEq

def isMarker (c : Char) : Bool := c = '!' || c = '！'

def isSteerMessage (content : Text) : Bool := (trimStart content).head?.any isMarker

def stripSteerMarker (content : Text) : Text :=
  match trimStart content with
  | c :: rest => if isMarker c then trimStart rest else content
  | [] => content

section
variable {ρ : Type}

def QueuedMessage.isHigh (m : QueuedMessage ρ) : Bool := m.priority = .high

def QueuedMessage.strip (m : QueuedMessage ρ) : QueuedMessage ρ :=
  { m with content := stripSteerMarker m.content }

def SessionQueues.total (q : SessionQueues ρ) : Nat := q.nextTurn.length + q.nextStep.length

/-- Nine tenths of the capacity, in 64-bit words. -/
def softLimit (capacity : Nat) : Nat := max (capacity * 9 % 2 ^ 64 / 10) 1

def enqueueForMode (capacity : Nat) (q : SessionQueues ρ) (msg : QueuedMessage ρ)
    (steerEnabled : Bool) : EnqueueOutcome × SessionQueues ρ :=
  let steer := steerEnabled && isSteerMessage msg.content
  if capacity ≤ q.total then (.rejected, q)
  else if softLimit capacity ≤ q.total ∧ msg.priority ≠ .high ∧ steer = false then
    (.rejectedSoft, q)
  else if steer then (.queuedForNextStep, { q with nextStep := q.nextStep ++ [msg] })
  else if msg.isHigh then
    let ahead := q.nextTurn.takeWhile QueuedMessage.isHigh
    let behind := q.nextTurn.dropWhile QueuedMessage.isHigh
    (.queuedForNextTurn, { q with nextTurn := ahead ++ msg :: behind })
  else (.queuedForNextTurn, { q with nextTurn := q.nextTurn ++ [msg] })

def claimNextStep (q : SessionQueues ρ) : List (QueuedMessage ρ) × SessionQueues ρ :=
  (q.nextStep, { q with nextStep := [] })

def claimNextTurnHead (q : SessionQueues ρ) : Option (QueuedMessage ρ) × SessionQueues ρ :=
  (q.nextTurn.head?, { q with nextTurn := q.nextTurn.tail })

def transferNextStepToNextTurn (q : SessionQueues ρ) : SessionQueues ρ :=
  ⟨q.nextTurn ++ q.nextStep.map QueuedMessage.strip, []⟩

/-- The queues with what has been accepted, what has entered the queue of the next turn, and what
the two claims have handed out, each in order. -/
structure State (ρ : Type) where
  queues : SessionQueues ρ
  accepted : List (QueuedMessage ρ)
  entered : List (QueuedMessage ρ)
  steps : List (QueuedMessage ρ)
  heads : List (QueuedMessage ρ)

def start : State ρ := ⟨⟨[], []⟩, [], [], [], []⟩

inductive Op (ρ : Type) where
  | enqueue (msg : QueuedMessage ρ) (steerEnabled : Bool)
  | claimStep
  | claimHead
  | transfer

def step (capacity : Nat) (s : State ρ) : Op ρ → Option (State ρ)
  | .enqueue msg steerEnabled =>
    match enqueueForMode capacity s.queues msg steerEnabled with
    | (.queuedForNextTurn, q) => some
        { s with queues := q, accepted := s.accepted ++ [msg], entered := s.entered ++ [msg] }
    | (.queuedForNextStep, q) => some { s with queues := q, accepted := s.accepted ++ [msg] }
    | (_, q) => some { s with queues := q }
  | .claimStep =>
    let (claimed, q) := claimNextStep s.queues
    some { s with queues := q, steps := s.steps ++ claimed }
  | .claimHead =>
    let (head, q) := claimNextTurnHead s.queues
    some { s with queues := q, heads := s.heads ++ head.toList }
  | .transfer => some
      { s with
        queues := transferNextStepToNextTurn s.queues
        entered := s.entered ++ s.queues.nextStep.map QueuedMessage.strip }

/-- The same message, perhaps without its marker. -/
def Same (m n : QueuedMessage ρ) : Prop := n = m ∨ n = m.strip

/-- Of two messages in the queue the first one is high if the second one is. -/
def HighFirst (queue : List (QueuedMessage ρ)) : Prop :=
  queue.Pairwise fun a b => b.isHigh = true → a.isHigh = true

def ofPriority (p : MessagePriority) (queue : List (QueuedMessage ρ)) : List (QueuedMessage ρ) :=
  queue.filter fun m => m.priority = p

/-- What the inbox promises after any run. `head` speaks of the message that the next claim
would return. -/
structure Kept (capacity : Nat) (s : State ρ) : Prop where
  conserved : Multiset.Rel Same (s.accepted : Multiset (QueuedMessage ρ))
    ((s.steps ++ s.heads ++ s.queues.nextTurn ++ s.queues.nextStep : List (QueuedMessage ρ)) :
      Multiset (QueuedMessage ρ))
  bounded : s.queues.total ≤ capacity
  head : ∀ m, (claimNextTurnHead s.queues).1 = some m →
    (∃ h ∈ s.queues.nextTurn, h.isHigh = true) → m.isHigh = true
  fifo : ∀ p, ofPriority p s.entered = ofPriority p s.heads ++ ofPriority p s.queues.nextTurn

/-- A transfer puts no high message behind a normal one. -/
def Ordered (s : State ρ) : Op ρ → Prop
  | .transfer => HighFirst (s.queues.nextTurn ++ s.queues.nextStep)
  | _ => True

structure Inv (capacity : Nat) (s : State ρ) : Prop where
  early : ∃ early : Multiset (QueuedMessage ρ),
    (s.accepted : Multiset (QueuedMessage ρ)) = early + s.steps + s.queues.nextStep ∧
      Multiset.Rel Same early (s.heads + s.queues.nextTurn)
  bounded : s.queues.total ≤ capacity
  ordered : HighFirst s.queues.nextTurn
  fifo : ∀ p, ofPriority p s.entered = ofPriority p s.heads ++ ofPriority p s.queues.nextTurn

variable {capacity : Nat} {s t : State ρ}

theorem ofPriority_append (p : MessagePriority) (a b : List (QueuedMessage ρ)) :
    ofPriority p (a ++ b) = ofPriority p a ++ ofPriority p b := List.filter_append ..

theorem isHigh_iff {m : QueuedMessage ρ} : m.isHigh = true ↔ m.priority = .high :=
  decide_eq_true_iff

/-- Behind the front run of an ordered queue nothing is high. -/
theorem dropWhile_normal {queue : List (QueuedMessage ρ)} (h : HighFirst queue) :
    ∀ m ∈ queue.dropWhile QueuedMessage.isHigh, m.isHigh = false := by
  induction queue with
  | nil => exact fun m hm => (List.not_mem_nil hm).elim
  | cons a rest ih =>
    obtain ⟨hfirst, hrest⟩ := List.pairwise_cons.mp h
    intro m hm
    cases ha : a.isHigh with
    | true =>
      rw [List.dropWhile_cons_of_pos ha] at hm
      exact ih hrest m hm
    | false =>
      rw [List.dropWhile_cons_of_neg (by simp [ha])] at hm
      cases List.mem_cons.mp hm with
      | inl he => rw [he, ha]
      | inr hmem =>
        by_contra hhigh
        have := hfirst m hmem (by simpa using hhigh)
        simp [ha] at this

theorem takeWhile_high {queue : List (QueuedMessage ρ)} :
    ∀ m ∈ queue.takeWhile QueuedMessage.isHigh, m.isHigh = true :=
  List.all_eq_true.mp List.all_takeWhile

/-- Where an urgent message goes: the queue stays ordered, and it is the last of its kind. -/
theorem insert_ordered {queue : List (QueuedMessage ρ)} (h : HighFirst queue)
    {m : QueuedMessage ρ} (hm : m.isHigh = true) :
    HighFirst (queue.takeWhile QueuedMessage.isHigh ++ m ::
      queue.dropWhile QueuedMessage.isHigh) := by
  have hdrop := dropWhile_normal h
  refine List.pairwise_append.mpr ⟨?_, List.pairwise_cons.mpr ⟨fun b _ _ => hm, ?_⟩, ?_⟩
  · exact List.Pairwise.sublist (List.takeWhile_sublist _) h
  · exact List.Pairwise.sublist (List.dropWhile_sublist _) h
  · exact fun a ha b _ _ => takeWhile_high a ha

theorem ofPriority_insert {queue : List (QueuedMessage ρ)} (h : HighFirst queue)
    {m : QueuedMessage ρ} (hm : m.isHigh = true) (p : MessagePriority) :
    ofPriority p (queue.takeWhile QueuedMessage.isHigh ++ m ::
      queue.dropWhile QueuedMessage.isHigh) = ofPriority p (queue ++ [m]) := by
  have hsplit : ofPriority p queue = ofPriority p (queue.takeWhile QueuedMessage.isHigh) ++
      ofPriority p (queue.dropWhile QueuedMessage.isHigh) := by
    rw [← ofPriority_append, List.takeWhile_append_dropWhile]
  rw [ofPriority_append, ofPriority_append, hsplit, List.append_assoc]
  congr 1
  cases p with
  | high =>
    have hnone : ofPriority .high (queue.dropWhile QueuedMessage.isHigh) = [] := by
      refine List.filter_eq_nil_iff.mpr fun b hb hp => ?_
      have := dropWhile_normal h b hb
      rw [QueuedMessage.isHigh, hp] at this
      cases this
    change ofPriority .high ([m] ++ _) = _
    rw [ofPriority_append, hnone, List.nil_append, List.append_nil]
  | normal =>
    have hnone : ofPriority .normal [m] = [] := by
      have hp : m.priority = .high := isHigh_iff.mp hm
      simp [ofPriority, hp]
    change ofPriority .normal ([m] ++ _) = _
    rw [ofPriority_append, hnone, List.nil_append, List.append_nil]

/-- What parking a message can do. -/
theorem enqueue_cases {q q' : SessionQueues ρ} {msg : QueuedMessage ρ} {steerEnabled : Bool}
    {outcome : EnqueueOutcome} (h : enqueueForMode capacity q msg steerEnabled = (outcome, q')) :
    (outcome = .rejected ∨ outcome = .rejectedSoft) ∧ q' = q ∨
    q.total < capacity ∧ (outcome = .queuedForNextStep ∧ q' = ⟨q.nextTurn, q.nextStep ++ [msg]⟩ ∨
      outcome = .queuedForNextTurn ∧ q'.nextStep = q.nextStep ∧
        (msg.isHigh = true ∧ q'.nextTurn = q.nextTurn.takeWhile QueuedMessage.isHigh ++
            msg :: q.nextTurn.dropWhile QueuedMessage.isHigh ∨
          msg.isHigh = false ∧ q'.nextTurn = q.nextTurn ++ [msg])) := by
  simp only [enqueueForMode] at h
  split at h
  · obtain ⟨rfl, rfl⟩ := Prod.mk.inj h
    exact Or.inl ⟨Or.inl rfl, rfl⟩
  rename_i hroom
  have hlt : q.total < capacity := Nat.lt_of_not_le hroom
  split at h
  · obtain ⟨rfl, rfl⟩ := Prod.mk.inj h
    exact Or.inl ⟨Or.inr rfl, rfl⟩
  split at h
  · obtain ⟨rfl, rfl⟩ := Prod.mk.inj h
    exact Or.inr ⟨hlt, Or.inl ⟨rfl, rfl⟩⟩
  split at h
  · rename_i hhigh
    obtain ⟨rfl, rfl⟩ := Prod.mk.inj h
    exact Or.inr ⟨hlt, Or.inr ⟨rfl, rfl, Or.inl ⟨hhigh, rfl⟩⟩⟩
  · rename_i hhigh
    obtain ⟨rfl, rfl⟩ := Prod.mk.inj h
    exact Or.inr ⟨hlt, Or.inr ⟨rfl, rfl, Or.inr ⟨by simpa using hhigh, rfl⟩⟩⟩

/-- A message enters the queue of the next turn, last of its kind. -/
theorem inv_entered (inv : Inv capacity s) (hlt : s.queues.total < capacity)
    {msg : QueuedMessage ρ} {queue : List (QueuedMessage ρ)} (hordered : HighFirst queue)
    (hperm : queue.Perm (s.queues.nextTurn ++ [msg]))
    (hfifo : ∀ p, ofPriority p queue = ofPriority p (s.queues.nextTurn ++ [msg])) :
    Inv capacity { s with
      queues := ⟨queue, s.queues.nextStep⟩
      accepted := s.accepted ++ [msg]
      entered := s.entered ++ [msg] } where
  early := by
    obtain ⟨early, hacc, hrel⟩ := inv.early
    refine ⟨early + ([msg] : List (QueuedMessage ρ)), ?_, ?_⟩
    · rw [← Multiset.coe_add, hacc]
      abel
    · rw [Multiset.coe_eq_coe.mpr hperm, ← Multiset.coe_add, ← add_assoc]
      exact hrel.add (Multiset.rel_refl_of_refl_on fun m _ => Or.inl rfl)
  bounded := by
    have hlen := hperm.length_eq
    rw [List.length_append, List.length_singleton] at hlen
    simp only [SessionQueues.total] at hlt ⊢
    omega
  ordered := hordered
  fifo p := by rw [hfifo, ofPriority_append, ofPriority_append, inv.fifo, List.append_assoc]

theorem inv_enqueue (inv : Inv capacity s) {msg : QueuedMessage ρ} {steerEnabled : Bool}
    (h : step capacity s (.enqueue msg steerEnabled) = some t) : Inv capacity t := by
  cases hq : enqueueForMode capacity s.queues msg steerEnabled with
  | mk outcome q =>
    rw [step, hq] at h
    obtain ⟨hno, rfl⟩ | ⟨hlt, ⟨rfl, rfl⟩ | ⟨rfl, hstep, hturn⟩⟩ := enqueue_cases hq
    · have ht : t = s := by
        cases hno with
        | inl he => rw [he] at h; exact (Option.some.inj h).symm
        | inr he => rw [he] at h; exact (Option.some.inj h).symm
      rwa [ht]
    · obtain rfl := Option.some.inj h
      obtain ⟨early, hacc, hrel⟩ := inv.early
      refine ⟨⟨early, ?_, hrel⟩, ?_, inv.ordered, inv.fifo⟩
      · rw [← Multiset.coe_add, hacc, ← Multiset.coe_add]
        abel
      · simp only [SessionQueues.total, List.length_append, List.length_singleton] at hlt ⊢
        omega
    · obtain rfl := Option.some.inj h
      obtain ⟨queue, waiting⟩ := q
      obtain rfl : waiting = s.queues.nextStep := hstep
      obtain ⟨hhigh, rfl⟩ | ⟨hlow, rfl⟩ := hturn
      · refine inv_entered inv hlt (insert_ordered inv.ordered hhigh) ?_
          (ofPriority_insert inv.ordered hhigh)
        refine List.perm_middle.trans ?_
        rw [List.takeWhile_append_dropWhile]
        exact (List.perm_append_singleton msg s.queues.nextTurn).symm
      · refine inv_entered inv hlt ?_ (List.Perm.refl _) fun _ => rfl
        refine List.pairwise_append.mpr ⟨inv.ordered, List.pairwise_singleton _ _, ?_⟩
        intro a _ b hb hhigh
        rw [List.mem_singleton.mp hb, hlow] at hhigh
        cases hhigh

theorem inv_claimStep (inv : Inv capacity s) (h : step capacity s .claimStep = some t) :
    Inv capacity t := by
  obtain rfl := Option.some.inj h
  obtain ⟨early, hacc, hrel⟩ := inv.early
  refine ⟨⟨early, ?_, hrel⟩, ?_, inv.ordered, inv.fifo⟩
  · rw [hacc, ← Multiset.coe_add, Multiset.coe_nil]
    abel
  · have hb := inv.bounded
    simp only [SessionQueues.total, List.length_nil] at hb ⊢
    omega

theorem head_tail (queue : List (QueuedMessage ρ)) : queue.head?.toList ++ queue.tail = queue := by
  cases queue <;> rfl

theorem inv_claimHead (inv : Inv capacity s) (h : step capacity s .claimHead = some t) :
    Inv capacity t := by
  obtain rfl := Option.some.inj h
  have hsplit := head_tail s.queues.nextTurn
  obtain ⟨early, hacc, hrel⟩ := inv.early
  refine ⟨⟨early, hacc, ?_⟩, ?_, ?_, fun p => ?_⟩
  · rw [← Multiset.coe_add, add_assoc, Multiset.coe_add _ s.queues.nextTurn.tail,
      hsplit]
    exact hrel
  · have hb := inv.bounded
    simp only [SessionQueues.total, List.length_tail] at hb ⊢
    omega
  · exact List.Pairwise.sublist (List.tail_sublist _) inv.ordered
  · rw [inv.fifo, ofPriority_append, List.append_assoc, ← ofPriority_append p _ s.queues.nextTurn.tail,
      hsplit]

theorem inv_transfer (inv : Inv capacity s) (hc : Ordered s .transfer)
    (h : step capacity s .transfer = some t) : Inv capacity t := by
  obtain rfl := Option.some.inj h
  obtain ⟨early, hacc, hrel⟩ := inv.early
  refine ⟨⟨early + s.queues.nextStep, ?_, ?_⟩, ?_, ?_, fun p => ?_⟩
  · rw [hacc, transferNextStepToNextTurn, Multiset.coe_nil]
    abel
  · rw [transferNextStepToNextTurn, ← Multiset.coe_add, ← add_assoc]
    refine hrel.add ?_
    rw [← Multiset.map_coe, Multiset.rel_map_right]
    exact Multiset.rel_refl_of_refl_on fun m _ => Or.inr rfl
  · have hb := inv.bounded
    simp only [transferNextStepToNextTurn, SessionQueues.total, List.length_append, List.length_map,
      List.length_nil] at hb ⊢
    omega
  · obtain ⟨hturn, hstep, hcross⟩ := List.pairwise_append.mp hc
    refine List.pairwise_append.mpr ⟨hturn, List.pairwise_map.mpr hstep, fun a ha b hb => ?_⟩
    obtain ⟨c, hmem, rfl⟩ := List.mem_map.mp hb
    exact hcross a ha c hmem
  · simp only [transferNextStepToNextTurn, ofPriority_append, inv.fifo, List.append_assoc]

theorem kept_of_inv (inv : Inv capacity s) : Kept capacity s where
  conserved := by
    obtain ⟨early, hacc, hrel⟩ := inv.early
    have hqueued : ((s.steps ++ s.heads ++ s.queues.nextTurn ++ s.queues.nextStep :
        List (QueuedMessage ρ)) : Multiset (QueuedMessage ρ)) =
        s.heads + s.queues.nextTurn + s.steps + s.queues.nextStep := by
      simp only [← Multiset.coe_add]
      abel
    rw [hacc, hqueued]
    exact (hrel.add (Multiset.rel_refl_of_refl_on fun m _ => Or.inl rfl)).add
      (Multiset.rel_refl_of_refl_on fun m _ => Or.inl rfl)
  bounded := inv.bounded
  head m hm := by
    rintro ⟨h, hmem, hhigh⟩
    obtain ⟨rest, hqueue⟩ := List.head?_eq_some_iff.mp hm
    have hordered := inv.ordered
    rw [hqueue] at hmem hordered
    cases List.mem_cons.mp hmem with
    | inl he => exact he ▸ hhigh
    | inr hrest => exact (List.pairwise_cons.mp hordered).1 h hrest hhigh
  fifo := inv.fifo

/-- Any calls on one session, in any order. -/
theorem inbox_kept {ops : List (Op ρ)} (hok : Along (step capacity) Ordered start ops)
    (hr : run (step capacity) start ops = some s) : Kept capacity s := by
  have hstart : Inv capacity (start : State ρ) :=
    ⟨⟨0, rfl, Multiset.Rel.zero⟩, Nat.zero_le _, List.Pairwise.nil, fun _ => rfl⟩
  refine kept_of_inv (run_invariant (fun s op t inv hc hs => ?_) hstart hok hr)
  cases op with
  | enqueue msg steerEnabled => exact inv_enqueue inv hs
  | claimStep => exact inv_claimStep inv hs
  | claimHead => exact inv_claimHead inv hs
  | transfer => exact inv_transfer inv hc hs

end

def plain (content : Text) : QueuedMessage Unit := ⟨content, (), .normal⟩
def urgent (content : Text) : QueuedMessage Unit := ⟨content, (), .high⟩

/-- A late interjection behind another, and then an urgent message. -/
theorem inbox_kept_urgent :
    ∃ s, run (step 8) start [.enqueue (plain "!a".toList) true, .enqueue (plain "!b".toList) true,
        .transfer, .enqueue (urgent "c".toList) true, .claimHead] = some s ∧ Kept 8 s := by
  have hok : Along (step 8) Ordered start [.enqueue (plain "!a".toList) true,
      .enqueue (plain "!b".toList) true, .transfer, .enqueue (urgent "c".toList) true,
      .claimHead] := by
    refine along_cons trivial rfl (along_cons trivial rfl (along_cons ?_ rfl
      (along_cons trivial rfl (along_cons trivial rfl trivial))))
    exact List.pairwise_pair.mpr fun h => h
  exact ⟨_, rfl, inbox_kept hok rfl⟩

/-- An urgent interjection that comes late is put behind what waits. -/
theorem transfer_disorders :
    ∃ s, run (step 8) start [.enqueue (plain "a".toList) true, .enqueue (urgent "!b".toList) true,
        .transfer] = some s ∧ ¬ Kept 8 s := by
  refine ⟨_, rfl, fun h => ?_⟩
  have hhigh := h.head (plain "a".toList) rfl ⟨urgent "b".toList, by decide, rfl⟩
  cases hhigh

end NemesisBot.Inbox

import NemesisBot.Lib.Runs

/-! One task's changeset on its way into the outbox: `finish_task_exec` on several threads
against pulls, startup sweeps, the push loop and crashes. The content of the working copy and
its diff against the baseline are parameters. -/
namespace NemesisBot.Delivery
open Runs

variable {Content Changeset : Type}

inductive EntryState where
  | pending
  | pushing
  | overLimit
  | dead
  deriving DecidableEq, Repr

/-- `entry.json`, with the changeset of its payload. -/
structure OutboxEntry (Changeset : Type) where
  changeset : Option Changeset
  state : EntryState
  deriving DecidableEq, Repr

/-- Where one `finish_task_exec` stands; a diff is `none` when it is empty. -/
inductive Finish (Changeset : Type) where
  | idle
  | started
  | marked
  | scanned (diff : Option Changeset)
  | written (changeset : Changeset)
  | enqueued (diff : Option Changeset)
  | removing (diff : Option Changeset) (before : List (Option Changeset))
  deriving DecidableEq, Repr

/-- The order of startup: residual sweep, outbox sweep, then the loops. -/
inductive Phase where
  | residualSweep
  | outboxSweep
  | running
  deriving DecidableEq, Repr

/-- `enqueued` lists the payloads enqueued so far, `results` each `Ok(true)` with its diff and
the payloads enqueued before the removal of the working copy began. -/
structure State (Content Changeset : Type) where
  phase : Phase
  copy : Option Content
  eroded : Bool
  marker : Bool
  entry : Option (OutboxEntry Changeset)
  finishes : Nat → Finish Changeset
  pulls : Nat
  enqueued : List (Option Changeset)
  results : List (Option Changeset × List (Option Changeset))

inductive Label (Content : Type) where
  | begin (i : Nat)
  | mark (i : Nat) (written : Bool)
  | scan (i : Nat)
  | write (i : Nat)
  | enqueue (i : Nat)
  | fail (i : Nat)
  | startRemoval (i : Nat)
  | erode (i : Nat) (left : Content)
  | finish (i : Nat) (gone : Bool)
  | pullCheck
  | pullEnqueue
  | pullMiss
  | residualDone
  | sweepRearm
  | sweepEnqueue
  | sweepDone
  | push
  | delivered
  | pushFails
  | tooLarge
  | deadLetter
  | replay
  | crash

def State.setFinish (s : State Content Changeset) (i : Nat) (f : Finish Changeset) :
    State Content Changeset :=
  { s with finishes := Function.update s.finishes i f }

/-- `enqueue_with_changeset`: nothing happens when `entry.json` exists. -/
def State.enqueue (s : State Content Changeset) (payload : Option Changeset) :
    State Content Changeset :=
  match s.entry with
  | some _ => s
  | none => { s with entry := some ⟨payload, .pending⟩, enqueued := s.enqueued ++ [payload] }

def State.setEntryState (s : State Content Changeset) (state : EntryState) :
    State Content Changeset :=
  { s with entry := s.entry.map fun e => { e with state := state } }

def State.entryIs (s : State Content Changeset) (state : EntryState) : Bool :=
  s.entry.any fun e => e.state = state

def State.parked (s : State Content Changeset) : Bool := s.entryIs .dead || s.entryIs .overLimit

/-- The guard of `AssemblingMarker`, and the early return with it. -/
def State.leave (s : State Content Changeset) (i : Nat) : State Content Changeset :=
  { s.setFinish i .idle with marker := false }

variable (diff : Content → Option Changeset)

def step (s : State Content Changeset) : Label Content → Option (State Content Changeset)
  | .begin i =>
    -- at startup only the sweeping thread finishes tasks
    if (s.phase = .running ∨ s.phase = .residualSweep ∧ i = 0) ∧ s.copy.isSome then
      match s.finishes i with
      | .idle => some (s.setFinish i .started)
      | _ => none
    else none
  | .mark i written => match s.finishes i with
    | .started => some { s.setFinish i .marked with marker := s.marker || written }
    | _ => none
  | .scan i => match s.finishes i, s.copy with
    | .marked, some content => some (s.setFinish i (.scanned (diff content)))
    | _, _ => none
  | .write i => match s.finishes i with
    | .scanned (some c) => some (s.setFinish i (.written c))
    | _ => none
  | .enqueue i => match s.finishes i with
    | .scanned none => some ((s.enqueue none).setFinish i (.enqueued none))
    | .written c => some ((s.enqueue (some c)).setFinish i (.enqueued (some c)))
    | _ => none
  | .fail i => match s.finishes i with
    | .marked | .scanned _ | .written _ => some (s.leave i)
    | _ => none
  | .startRemoval i => match s.finishes i with
    | .enqueued d => some (s.setFinish i (.removing d s.enqueued))
    | _ => none
  | .erode i left => match s.finishes i, s.copy with
    | .removing _ _, some _ => some { s with copy := some left, eroded := true }
    | _, _ => none
  | .finish i gone => match s.finishes i with
    | .removing d before => some { s.leave i with
        copy := if gone then none else s.copy
        results := s.results ++ [(d, before)] }
    | _ => none
  | .pullCheck =>
    if s.parked then some s
    else if s.copy.isSome && s.marker then some s
    else some { s with pulls := s.pulls + 1 }
  | .pullEnqueue =>
    if 0 < s.pulls then some { s.enqueue none with pulls := s.pulls - 1 } else none
  | .pullMiss => if 0 < s.pulls then some { s with pulls := s.pulls - 1 } else none
  | .residualDone =>
    if s.phase = .residualSweep ∧ s.finishes 0 matches .idle then
      some { s with phase := .outboxSweep }
    else none
  | .sweepRearm =>
    if s.phase = .outboxSweep ∧ (s.entryIs .pushing ∨ s.entryIs .overLimit) then
      some (s.setEntryState .pending)
    else none
  | .sweepEnqueue => if s.phase = .outboxSweep then some (s.enqueue none) else none
  | .sweepDone => if s.phase = .outboxSweep then some { s with phase := .running } else none
  | .push =>
    if s.phase = .running ∧ s.entryIs .pending then some (s.setEntryState .pushing) else none
  | .delivered =>
    if s.phase = .running ∧ s.entryIs .pushing then some { s with entry := none } else none
  | .pushFails =>
    if s.phase = .running ∧ s.entryIs .pushing then some (s.setEntryState .pending) else none
  | .tooLarge =>
    if s.phase = .running ∧ s.entryIs .pushing then some (s.setEntryState .overLimit) else none
  | .deadLetter =>
    if s.phase = .running ∧ s.entryIs .pending then some (s.setEntryState .dead) else none
  | .replay => if s.parked then some (s.setEntryState .pending) else none
  | .crash => some { s with phase := .residualSweep, finishes := fun _ => .idle, pulls := 0 }

/-- The task has ended; nothing was enqueued for it yet. -/
def start (content : Content) : State Content Changeset where
  phase := .running
  copy := some content
  eroded := false
  marker := false
  entry := none
  finishes := fun _ => .idle
  pulls := 0
  enqueued := []
  results := []

/-- Every `Ok(true)` with a changeset was preceded by a payload with that changeset. -/
def NothingSwallowed (s : State Content Changeset) : Prop :=
  ∀ r ∈ s.results, ∀ c, r.1 = some c → some c ∈ r.2

def State.recordsOnly (s : State Content Changeset) : Bool :=
  s.entry.any fun e => e.changeset.isNone

/-- When a finish enqueues its changeset, no entry of records alone is in the outbox; and no
finish scans a working copy that another one is removing. -/
def undisturbed (s : State Content Changeset) : Label Content → Bool
  | .enqueue i => match s.finishes i with
    | .written _ => !s.recordsOnly
    | _ => true
  | .scan _ => !s.eroded
  | _ => true

/-! What holds while no step is disturbed. -/

def FinishOk (content : Content) (enqueued : List (Option Changeset)) :
    Finish Changeset → Prop
  | .scanned d => ∀ c, d = some c → diff content = some c
  | .written c => diff content = some c
  | .enqueued d => ∀ c, d = some c → some c ∈ enqueued
  | .removing d before => ∀ c, d = some c → some c ∈ before
  | _ => True

structure Inv (content : Content) (s : State Content Changeset) : Prop where
  copy : ∀ x, s.copy = some x → s.eroded = false → x = content
  finishes : ∀ i, FinishOk diff content s.enqueued (s.finishes i)
  entry : ∀ e c, s.entry = some e → e.changeset = some c →
    diff content = some c ∧ some c ∈ s.enqueued
  results : NothingSwallowed s

variable {diff} {content : Content} {s t : State Content Changeset}

theorem FinishOk.mono {enqueued enqueued' : List (Option Changeset)} {f : Finish Changeset}
    (h : FinishOk diff content enqueued f) (hs : enqueued ⊆ enqueued') :
    FinishOk diff content enqueued' f := by
  cases f with
  | enqueued d => exact fun c hc => hs (h c hc)
  | idle | started | marked | scanned | written | removing => exact h

theorem Inv.setFinish (h : Inv diff content s) (i : Nat) {f : Finish Changeset}
    (hf : FinishOk diff content s.enqueued f) : Inv diff content (s.setFinish i f) := by
  refine ⟨h.copy, ?_, h.entry, h.results⟩
  intro j
  by_cases hj : j = i
  · subst hj
    simpa [State.setFinish] using hf
  · simpa [State.setFinish, hj] using h.finishes j

theorem Inv.enqueue (h : Inv diff content s) (payload : Option Changeset)
    (hp : ∀ c, payload = some c → diff content = some c) : Inv diff content (s.enqueue payload) := by
  unfold State.enqueue
  split
  · exact h
  · refine ⟨h.copy, fun i => (h.finishes i).mono (List.subset_append_left _ _), ?_, h.results⟩
    intro e c he hc
    obtain rfl : (⟨payload, .pending⟩ : OutboxEntry Changeset) = e := Option.some.inj he
    refine ⟨hp c hc, ?_⟩
    have hpay : payload = some c := hc
    simp [hpay]

theorem Inv.setEntryState (h : Inv diff content s) (state : EntryState) :
    Inv diff content (s.setEntryState state) := by
  refine ⟨h.copy, h.finishes, ?_, h.results⟩
  intro e c he hc
  obtain ⟨e', he', rfl⟩ := Option.map_eq_some_iff.mp he
  exact h.entry e' c he' hc

/-- After an undisturbed enqueue the changeset has been enqueued. -/
theorem mem_enqueued (h : Inv diff content s) {c : Changeset} (hc : diff content = some c)
    (hu : s.recordsOnly = false) : some c ∈ (s.enqueue (some c)).enqueued := by
  unfold State.enqueue
  cases he : s.entry with
  | none => simp
  | some e =>
    have hsome : e.changeset.isSome := by simpa [State.recordsOnly, he] using hu
    obtain ⟨c', hc'⟩ := Option.isSome_iff_exists.mp hsome
    obtain ⟨hd, hmem⟩ := h.entry e c' he hc'
    obtain rfl : c' = c := Option.some.inj (hd.symm.trans hc)
    exact hmem

theorem inv_start (content : Content) : Inv diff content (start content) := by
  refine ⟨?_, fun _ => trivial, by simp [start], by simp [start, NothingSwallowed]⟩
  intro x hx _
  exact (Option.some.inj hx).symm

theorem inv_step (l : Label Content) (h : Inv diff content s) (hu : undisturbed s l = true)
    (hs : step diff s l = some t) : Inv diff content t := by
  cases l with
  | begin i =>
    simp only [step] at hs
    split at hs
    · split at hs
      · obtain rfl := Option.some.inj hs
        exact h.setFinish i trivial
      · cases hs
    · cases hs
  | mark i written =>
    simp only [step] at hs
    split at hs
    · obtain rfl := Option.some.inj hs
      exact { h.setFinish i (f := .marked) trivial with }
    · cases hs
  | scan i =>
    simp only [step] at hs
    split at hs
    · rename_i x _ hx
      obtain rfl := Option.some.inj hs
      apply h.setFinish i
      intro c hc
      rw [← h.copy x hx (by simpa [undisturbed] using hu), hc]
    · cases hs
  | write i =>
    simp only [step] at hs
    split at hs
    · rename_i c hf
      obtain rfl := Option.some.inj hs
      have hi := h.finishes i
      rw [hf] at hi
      exact h.setFinish i (hi c rfl)
    · cases hs
  | enqueue i =>
    simp only [step] at hs
    split at hs
    · obtain rfl := Option.some.inj hs
      exact (h.enqueue none (by simp)).setFinish i (by simp [FinishOk])
    · rename_i c hf
      obtain rfl := Option.some.inj hs
      have hi := h.finishes i
      rw [hf] at hi
      have hrec : s.recordsOnly = false := by simpa [undisturbed, hf] using hu
      have hq : ∀ c', some c = some c' → diff content = some c' := by
        rintro c' ⟨⟩
        exact hi
      apply (h.enqueue (some c) hq).setFinish i
      rintro c' ⟨⟩
      exact mem_enqueued h hi hrec
    · cases hs
  | fail i =>
    have hleave : Inv diff content (s.leave i) := { h.setFinish i (f := .idle) trivial with }
    simp only [step] at hs
    split at hs
    · rwa [← Option.some.inj hs]
    · rwa [← Option.some.inj hs]
    · rwa [← Option.some.inj hs]
    · cases hs
  | startRemoval i =>
    simp only [step] at hs
    split at hs
    · rename_i d hf
      obtain rfl := Option.some.inj hs
      have hi := h.finishes i
      rw [hf] at hi
      exact h.setFinish i hi
    · cases hs
  | erode i left =>
    simp only [step] at hs
    split at hs
    · obtain rfl := Option.some.inj hs
      exact ⟨by simp, h.finishes, h.entry, h.results⟩
    · cases hs
  | finish i gone =>
    simp only [step] at hs
    split at hs
    · rename_i d before hf
      obtain rfl := Option.some.inj hs
      have hi := h.finishes i
      rw [hf] at hi
      have hidle := h.setFinish i (f := .idle) trivial
      refine ⟨?_, hidle.finishes, h.entry, ?_⟩
      · intro x hx he
        cases gone with
        | true => simp at hx
        | false => exact h.copy x hx he
      · intro r hr c hc
        rcases List.mem_append.mp hr with hr | hr
        · exact h.results r hr c hc
        · obtain rfl := List.mem_singleton.mp hr
          exact hi c hc
    · cases hs
  | pullCheck =>
    simp only [step] at hs
    split at hs
    · rwa [← Option.some.inj hs]
    · split at hs
      · rwa [← Option.some.inj hs]
      · obtain rfl := Option.some.inj hs
        exact { h with }
  | pullEnqueue =>
    simp only [step, Option.ite_none_right_eq_some, Option.some.injEq] at hs
    obtain ⟨-, rfl⟩ := hs
    exact { h.enqueue none (by simp) with }
  | sweepEnqueue =>
    simp only [step, Option.ite_none_right_eq_some, Option.some.injEq] at hs
    obtain ⟨-, rfl⟩ := hs
    exact h.enqueue none (by simp)
  | pullMiss | residualDone | sweepDone =>
    simp only [step, Option.ite_none_right_eq_some, Option.some.injEq] at hs
    obtain ⟨-, rfl⟩ := hs
    exact { h with }
  | sweepRearm | push | pushFails | tooLarge | deadLetter | replay =>
    simp only [step, Option.ite_none_right_eq_some, Option.some.injEq] at hs
    obtain ⟨-, rfl⟩ := hs
    exact h.setEntryState _
  | delivered =>
    simp only [step, Option.ite_none_right_eq_some, Option.some.injEq] at hs
    obtain ⟨-, rfl⟩ := hs
    exact ⟨h.copy, h.finishes, by simp, h.results⟩
  | crash =>
    obtain rfl := Option.some.inj hs
    exact ⟨h.copy, fun _ => trivial, h.entry, h.results⟩

/-- A task whose changeset is delivered, with a pull that finds the marker. -/
def quietRun : List (Label Nat) :=
  [.begin 0, .mark 0 true, .pullCheck, .scan 0, .write 0, .enqueue 0, .startRemoval 0,
    .finish 0 true, .push, .delivered]

/-- A pull that comes before the marker is written. -/
def earlyPull : List (Label Nat) :=
  [.pullCheck, .pullEnqueue, .begin 0, .mark 0 true, .scan 0, .write 0, .enqueue 0,
    .startRemoval 0, .finish 0 true]

end NemesisBot.Delivery

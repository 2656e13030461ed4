import NemesisBot.Lib.Runs
import NemesisBot.Workflow.Types

/-! Running, resuming and cancelling one execution. Each label is one critical section under
the lock of the executions map, one access to the map of cancellation tokens, or the return
of a call that holds neither. -/
namespace NemesisBot.Engine.Cancel

inductive Kind where
  | runAsync
  | resume
  deriving DecidableEq

/-- What an operation still does after it gives its token back. -/
inductive Ending where
  /-- an early error return -/
  | leave
  /-- `restore_waiting_after_failed_resume` -/
  | restore
  /-- writes the execution back in this state -/
  | record (state : ExecutionState)
  deriving DecidableEq

inductive Pc where
  /-- about to look up the workflow -/
  | lookup
  /-- in `resume_subworkflow_node`, before the child's outcome is known -/
  | child
  /-- in the scheduler -/
  | schedule
  /-- about to remove the token entry -/
  | release (ending : Ending)
  /-- about to take the lock for the last time -/
  | finish (ending : Ending)
  | done
  deriving DecidableEq

/-- An operation in flight, with the token it armed. -/
structure Op where
  kind : Kind
  token : Nat
  pc : Pc
  deriving DecidableEq

structure State where
  /-- the state recorded in `executions` -/
  recorded : ExecutionState
  /-- the entry of `cancel_tokens` -/
  token : Option Nat
  fired : List Nat
  fresh : Nat
  ops : List Op
  /-- a `cancel_execution` has been accepted -/
  accepted : Bool
  deriving DecidableEq

def start (recorded : ExecutionState) : State := ⟨recorded, none, [], 0, [], false⟩

/-- How the scheduler returns: completed, with a node left waiting or not; cancelled, by the
watchdog or not; or with an error. -/
inductive Outcome where
  | completed (waiting : Bool)
  | cancelled (timedOut : Bool)
  | error
  deriving DecidableEq

def Outcome.final : Outcome → ExecutionState
  | .completed waiting => if waiting then .waiting else .completed
  | .cancelled timedOut => if timedOut then .failed else .cancelled
  | .error => .failed

inductive Act where
  | runAsync
  | resume
  | cancel
  /-- the workflow is found; `sub` when the waiting node is a sub_workflow node -/
  | found (i : Nat) (sub : Bool)
  /-- the workflow is gone, or the call stack refuses the run -/
  | missing (i : Nat)
  /-- the child has no id, is gone, or its resume returned an error -/
  | childError (i : Nat)
  | childOutcome (i : Nat) (child : ExecutionState)
  | scheduled (i : Nat) (outcome : Outcome)
  | release (i : Nat)
  | finish (i : Nat)
  deriving DecidableEq

/-- The child's state decides, unless the operation's own token has fired. -/
def afterChild (fired : Bool) (child : ExecutionState) : Pc :=
  if fired then .release (.record .cancelled)
  else match child with
    | .waiting => .release (.record .waiting)
    | .completed => .schedule
    | .failed | .cancelled => .release (.record .failed)
    | .pending | .running => .release .restore

/-- Moves the operation on, if `next` allows it. -/
def State.advance (s : State) (i : Nat) (next : Op → Option Pc) : Option State :=
  (s.ops[i]?).bind fun op => (next op).map fun pc => { s with ops := s.ops.set i { op with pc } }

def State.arm (s : State) (kind : Kind) (recorded : ExecutionState) : State :=
  { s with recorded, token := some s.fresh, fresh := s.fresh + 1,
           ops := s.ops ++ [⟨kind, s.fresh, .lookup⟩] }

/-- Whether `cancel_execution` accepts. -/
def State.cancellable (s : State) : Bool := s.recorded == .running || s.recorded == .waiting

def State.close (s : State) : Ending → State
  | .leave => s
  | .restore => { s with recorded := .waiting }
  | .record state => { s with recorded := state }

def step (s : State) : Act → Option State
  | .runAsync =>
    if s.recorded = .running ∧ s.token = none then some (s.arm .runAsync .running) else none
  | .resume => if s.recorded = .waiting then some (s.arm .resume .running) else none
  | .cancel =>
    if s.cancellable then
      some { s with recorded := .cancelled, fired := s.token.toList ++ s.fired, accepted := true }
    else none
  | .found i sub => s.advance i fun op =>
      if op.pc = .lookup ∧ (sub → op.kind = .resume) then
        some (if sub then .child else .schedule)
      else none
  | .missing i => s.advance i fun op =>
      if op.pc = .lookup then
        some (.release (if op.kind = .resume then .restore else .leave))
      else none
  | .childError i => s.advance i fun op =>
      if op.pc = .child then some (.release .restore) else none
  | .childOutcome i child => s.advance i fun op =>
      if op.pc = .child then some (afterChild (s.fired.contains op.token) child) else none
  | .scheduled i outcome => s.advance i fun op =>
      if op.pc = .schedule then some (.release (.record outcome.final)) else none
  | .release i =>
    (s.advance i fun op => match op.pc with
      | .release ending => some (.finish ending)
      | _ => none).map fun t => { t with token := none }
  | .finish i => (s.ops[i]?).bind fun op => match op.pc with
      | .finish ending => (s.advance i fun _ => some .done).map fun t => t.close ending
      | _ => none

/-- Terminal, and neither Completed, Running nor Waiting. -/
def Final (state : ExecutionState) : Prop := state = .failed ∨ state = .cancelled

def Ending.reverts : Ending → Bool
  | .leave => false
  | .restore => true
  | .record state => state != .failed && state != .cancelled

/-- The operation has settled on a write that undoes a cancel. -/
def Op.reverts (op : Op) : Bool :=
  match op.pc with
  | .release ending | .finish ending => ending.reverts
  | _ => false

/-- The branch that goes wrong is not taken. A cancel is not accepted while an operation has
settled on such a write, and after an accepted cancel none settles on one. -/
def Undisturbed (s : State) : Act → Prop
  | .cancel => s.cancellable = true → ∀ op ∈ s.ops, op.reverts = false
  | .missing i => s.accepted = true → ∀ op ∈ s.ops[i]?, op.kind = .runAsync
  | .childError _ => s.accepted = false
  | .childOutcome i child => s.accepted = true → ∀ op ∈ s.ops[i]?,
      s.fired.contains op.token = true ∨ child = .completed ∨ child = .failed ∨ child = .cancelled
  | .scheduled _ outcome => s.accepted = true → ∀ waiting, outcome ≠ .completed waiting
  | _ => True

instance (s : State) (act : Act) : Decidable (Undisturbed s act) :=
  match act with
  | .cancel | .missing _ | .childOutcome _ _ | .scheduled _ _ => inferInstanceAs (Decidable (_ → _))
  | .childError _ => inferInstanceAs (Decidable (_ = _))
  | .runAsync | .resume | .found _ _ | .release _ | .finish _ => .isTrue trivial

/-- What holds once a cancel is accepted. -/
def Inv (s : State) : Prop :=
  s.accepted = true → Final s.recorded ∧ ∀ op ∈ s.ops, op.reverts = false

theorem final_not_running {state : ExecutionState} (h : Final state) :
    state ≠ .running ∧ state ≠ .waiting := by
  obtain rfl | rfl := h <;> decide

theorem advance_eq_some {s t : State} {i : Nat} {next : Op → Option Pc}
    (h : s.advance i next = some t) :
    ∃ op pc, s.ops[i]? = some op ∧ next op = some pc ∧
      t = { s with ops := s.ops.set i { op with pc } } := by
  obtain ⟨op, hop, h⟩ := Option.bind_eq_some_iff.mp h
  obtain ⟨pc, hpc, rfl⟩ := Option.map_eq_some_iff.mp h
  exact ⟨op, pc, hop, hpc, rfl⟩

/-- Moving one operation to a harmless place keeps the invariant. -/
theorem inv_advance {s t : State} (inv : Inv s) {i : Nat} {next : Op → Option Pc}
    (hs : s.advance i next = some t)
    (hpc : ∀ op pc, s.ops[i]? = some op → next op = some pc → s.accepted = true →
      ({ op with pc } : Op).reverts = false) : Inv t := by
  obtain ⟨op, pc, hop, hnext, rfl⟩ := advance_eq_some hs
  intro ha
  obtain ⟨hf, hops⟩ := inv ha
  refine ⟨hf, fun o ho => ?_⟩
  obtain ho | rfl := List.mem_or_eq_of_mem_set ho
  · exact hops o ho
  · exact hpc op pc hop hnext ha

/-- What an operation is about to write does not undo an accepted cancel. -/
theorem settled_reverts {s : State} (inv : Inv s) {i : Nat} {op : Op} {ending : Ending}
    (hop : s.ops[i]? = some op) (hpc : op.pc = .release ending ∨ op.pc = .finish ending)
    (ha : s.accepted = true) : ending.reverts = false := by
  have hold := (inv ha).2 op (List.mem_of_getElem? hop)
  cases hpc with
  | inl he => simpa [Op.reverts, he] using hold
  | inr he => simpa [Op.reverts, he] using hold

/-- The last write keeps the invariant when it undoes nothing. -/
theorem inv_close {s : State} (inv : Inv s) {ending : Ending}
    (h : s.accepted = true → ending.reverts = false) : Inv (s.close ending) := by
  cases ending with
  | leave => exact inv
  | restore => exact fun ha => by simpa [Ending.reverts] using h ha
  | record state =>
    intro ha
    have hfinal : Final state := by
      have hr := h ha
      simp only [Ending.reverts, Bool.and_eq_false_iff, bne_eq_false_iff_eq] at hr
      exact hr
    exact ⟨hfinal, (inv ha).2⟩

theorem record_final_reverts {outcome : Outcome}
    (h : ∀ waiting, outcome ≠ .completed waiting) :
    (Ending.record outcome.final).reverts = false := by
  cases outcome with
  | completed waiting => exact absurd rfl (h waiting)
  | cancelled timedOut => cases timedOut <;> decide
  | error => decide

theorem afterChild_reverts {op : Op} {fired : Bool} {child : ExecutionState}
    (h : fired = true ∨ child = .completed ∨ child = .failed ∨ child = .cancelled) :
    ({ op with pc := afterChild fired child } : Op).reverts = false := by
  cases fired with
  | true => rfl
  | false =>
    obtain hf | rfl | rfl | rfl := h
    · cases hf
    all_goals rfl

theorem inv_step {s t : State} {act : Act} (inv : Inv s) (hok : Undisturbed s act)
    (hs : step s act = some t) : Inv t := by
  cases act with
  | runAsync =>
    simp only [step] at hs
    split at hs
    · rename_i hrun
      obtain rfl := Option.some.inj hs
      exact fun ha => absurd hrun.1 (final_not_running (inv ha).1).1
    · cases hs
  | resume =>
    simp only [step] at hs
    split at hs
    · rename_i hwait
      obtain rfl := Option.some.inj hs
      exact fun ha => absurd hwait (final_not_running (inv ha).1).2
    · cases hs
  | cancel =>
    simp only [step] at hs
    split at hs
    · rename_i hc
      obtain rfl := Option.some.inj hs
      exact fun _ => ⟨Or.inr rfl, hok hc⟩
    · cases hs
  | found i sub =>
    apply inv_advance inv hs
    intro op pc _ hpc _
    split at hpc
    · obtain rfl := Option.some.inj hpc
      cases sub <;> rfl
    · cases hpc
  | missing i =>
    apply inv_advance inv hs
    intro op pc hop hpc ha
    split at hpc
    · obtain rfl := Option.some.inj hpc
      have hkind := hok ha op hop
      simp [hkind, Op.reverts, Ending.reverts]
    · cases hpc
  | childError i =>
    apply inv_advance inv hs
    intro op pc _ _ ha
    rw [Undisturbed, ha] at hok
    cases hok
  | childOutcome i child =>
    apply inv_advance inv hs
    intro op pc hop hpc ha
    split at hpc
    · obtain rfl := Option.some.inj hpc
      exact afterChild_reverts (hok ha op hop)
    · cases hpc
  | scheduled i outcome =>
    apply inv_advance inv hs
    intro op pc _ hpc ha
    split at hpc
    · obtain rfl := Option.some.inj hpc
      exact record_final_reverts (hok ha)
    · cases hpc
  | release i =>
    obtain ⟨u, hu, rfl⟩ := Option.map_eq_some_iff.mp hs
    have hmoved : Inv u := by
      apply inv_advance inv hu
      intro op pc hop hpc ha
      split at hpc
      · rename_i ending he
        obtain rfl := Option.some.inj hpc
        exact settled_reverts inv hop (Or.inl he) ha
      · cases hpc
    exact hmoved
  | finish i =>
    obtain ⟨op, hop, hs⟩ := Option.bind_eq_some_iff.mp hs
    split at hs
    · rename_i ending he
      obtain ⟨u, hu, rfl⟩ := Option.map_eq_some_iff.mp hs
      have hmoved : Inv u := by
        apply inv_advance inv hu
        intro op' pc _ hpc _
        obtain rfl := Option.some.inj hpc
        rfl
      have haccepted : u.accepted = s.accepted := by
        obtain ⟨op', pc, -, -, rfl⟩ := advance_eq_some hu
        rfl
      exact inv_close hmoved fun ha => settled_reverts inv hop (Or.inr he) (haccepted ▸ ha)
    · cases hs

/-- After an accepted cancel the recorded state stays Failed or Cancelled, in every run in
which no operation settles on a write that undoes it. -/
theorem cancel_is_final {recorded : ExecutionState} {acts : List Act} {s : State}
    (hok : Runs.Along step Undisturbed (start recorded) acts)
    (hr : Runs.run step (start recorded) acts = some s) (ha : s.accepted = true) :
    Final s.recorded := by
  have hstart : Inv (start recorded) := fun h => by cases h
  have inv : Inv s := Runs.run_invariant (fun _ _ _ hi ho hs => inv_step hi ho hs) hstart hok hr
  exact (inv ha).1

/-- A run is paused, resumed into its child and cancelled while the child runs. -/
theorem cancel_is_final_resume :
    let acts : List Act := [.runAsync, .found 0 false, .scheduled 0 (.completed true), .release 0,
      .finish 0, .resume, .found 1 true, .cancel, .childOutcome 1 .waiting, .release 1, .finish 1]
    ∃ s, Runs.run step (start .running) acts = some s ∧ Final s.recorded :=
  ⟨⟨.cancelled, none, [1], 2, [⟨.runAsync, 0, .done⟩, ⟨.resume, 1, .done⟩], true⟩, by decide,
    have hok : Runs.Along step Undisturbed (start .running) [.runAsync, .found 0 false,
      .scheduled 0 (.completed true), .release 0, .finish 0, .resume, .found 1 true, .cancel,
      .childOutcome 1 .waiting, .release 1, .finish 1] := by decide
    cancel_is_final hok (by decide) rfl⟩

/-- A cancel accepted between the removal of the token and the last write is overwritten. -/
theorem late_cancel_overwritten :
    ¬ ∀ (recorded : ExecutionState) (acts : List Act) (s : State),
      Runs.run step (start recorded) acts = some s → s.accepted = true → Final s.recorded := by
  intro h
  have hf := h .running [.runAsync, .found 0 false, .scheduled 0 (.completed false), .release 0,
    .cancel, .finish 0] ⟨.completed, none, [], 1, [⟨.runAsync, 0, .done⟩], true⟩
    (by decide) rfl
  obtain hf | hf := hf <;> cases hf

end NemesisBot.Engine.Cancel

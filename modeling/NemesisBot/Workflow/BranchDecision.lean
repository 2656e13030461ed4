import NemesisBot.Workflow.Resume

/-! What pauses and resumes keep of the decisions on nodes. -/
namespace NemesisBot.Engine.Resume
open Strings Runs

def Event.completes : Event → Option Text
  | .completed node => some node
  | _ => none

def Event.drops : Event → Option Text
  | .dropped node => some node
  | _ => none

/-- A node is not executed after an event that decides on it. -/
def Once (decides : Event → Option Text) (log : List Event) : Prop :=
  log.Pairwise fun earlier later => ∀ id, decides earlier = some id → later.ran ≠ some id

def opens : Except Text Bool → Bool
  | .ok true => true
  | _ => false

variable (host : Host) (setup : Setup)

/-- The conditions of a node of the next level are all true, and the node was dropped before. -/
def State.reopens (s : State) (choices : Choices) : Bool :=
  match s.pass with
  | some pass => (pass.levels.headD []).any fun id =>
      s.log.any (fun e => e.drops == some id) &&
        opens (evalEdgeConditions host setup.workflow.edges (choices.conditionOrder id) id pass.ctx)
  | none => false

/-- No dropped node reopens. -/
def Steady (s : State) : Act → Prop
  | .level choices => s.reopens host setup choices = false
  | _ => True

instance (s : State) (act : Act) : Decidable (Steady host setup s act) :=
  match act with
  | .level _ => inferInstanceAs (Decidable (_ = _))
  | .run _ | .review _ _ _ | .reviewChild _ _ _ => .isTrue trivial

variable {host setup}

/-! The log of a level. -/

theorem once_append {decides : Event → Option Text} {log new : List Event} :
    Once decides (log ++ new) ↔ Once decides log ∧ Once decides new ∧
      ∀ a ∈ log, ∀ b ∈ new, ∀ id, decides a = some id → b.ran ≠ some id :=
  List.pairwise_append

theorem once_of_forall {decides : Event → Option Text} {new : List Event}
    (h : ∀ a ∈ new, ∀ b ∈ new, ∀ id, decides a = some id → b.ran ≠ some id) :
    Once decides new :=
  List.Pairwise.imp_of_mem (fun ha hb _ => h _ ha _ hb) (List.pairwise_of_forall fun _ _ => trivial)

theorem once_of_not_ran {decides : Event → Option Text} {new : List Event}
    (h : ∀ b ∈ new, b.ran = none) : Once decides new := by
  refine once_of_forall fun a _ b hb id _ hr => ?_
  rw [h b hb] at hr
  cases hr

theorem once_append_of_not_ran {decides : Event → Option Text} {log new : List Event}
    (hlog : Once decides log) (h : ∀ b ∈ new, b.ran = none) : Once decides (log ++ new) := by
  refine once_append.mpr ⟨hlog, once_of_not_ran h, fun _ _ b hb id _ hr => ?_⟩
  rw [h b hb] at hr
  cases hr

theorem mem_levelEvents {trace : LevelTrace} {e : Event} (h : e ∈ levelEvents trace) :
    (∃ id ∈ trace.dropped, e = .dropped id) ∨
    (∃ x ∈ trace.executed, e = .executed x.1 trace.context trace.ctx.identity) ∨
    ∃ m ∈ trace.merged, m.2 = .completed ∧ e = .completed m.1 := by
  simp only [levelEvents, List.mem_append, List.mem_map, List.mem_filter, decide_eq_true_eq] at h
  obtain (⟨id, hid, rfl⟩ | ⟨x, hx, rfl⟩) | ⟨m, ⟨hm, hs⟩, rfl⟩ := h
  · exact Or.inl ⟨id, hid, rfl⟩
  · exact Or.inr (Or.inl ⟨x, hx, rfl⟩)
  · exact Or.inr (Or.inr ⟨m, hm, hs, rfl⟩)

theorem ran_levelEvents {trace : LevelTrace} {e : Event} {id : Text}
    (h : e ∈ levelEvents trace) (hr : e.ran = some id) : ∃ x ∈ trace.executed, x.1 = id := by
  obtain ⟨_, _, rfl⟩ | ⟨x, hx, rfl⟩ | ⟨_, _, _, rfl⟩ := mem_levelEvents h
  · cases hr
  · exact ⟨x, hx, Option.some.inj hr⟩
  · cases hr

theorem completed_levelEvents {trace : LevelTrace} {id : Text}
    (h : .completed id ∈ levelEvents trace) : (id, ExecutionState.completed) ∈ trace.merged := by
  obtain ⟨_, _, he⟩ | ⟨_, _, he⟩ | ⟨m, hm, hs, he⟩ := mem_levelEvents h
  · cases he
  · cases he
  · obtain ⟨n, state⟩ := m
    cases he
    cases hs
    exact hm

theorem once_completes_levelEvents (trace : LevelTrace) :
    Once Event.completes (levelEvents trace) := by
  rw [levelEvents, once_append]
  have hfirst : ∀ a ∈ trace.dropped.map Event.dropped ++ trace.executed.map
      (fun e => .executed e.1 trace.context trace.ctx.identity), a.completes = none := by
    intro a ha
    simp only [List.mem_append, List.mem_map] at ha
    obtain ⟨_, _, rfl⟩ | ⟨_, _, rfl⟩ := ha <;> rfl
  have hnot : ∀ a ∈ trace.dropped.map Event.dropped ++ trace.executed.map
      (fun e => .executed e.1 trace.context trace.ctx.identity), ∀ b : Event, ∀ id,
      a.completes = some id → b.ran ≠ some id := by
    intro a ha b id hd
    rw [hfirst a ha] at hd
    cases hd
  refine ⟨once_of_forall fun a ha b _ id => hnot a ha b id, once_of_not_ran fun b hb => ?_,
    fun a ha b _ id => hnot a ha b id⟩
  obtain ⟨_, _, rfl⟩ := List.mem_map.mp hb
  rfl

/-! Going on with a schedule keeps the log. -/

/-- The state of a node's result, in the context of the schedule while one is under way. -/
def State.stateOf (s : State) (id : Text) : Option ExecutionState :=
  match s.pass with
  | some pass => pass.ctx.stateOf id
  | none => stateIn s.nodeResults id

/-- The state after a call went on with these levels, or returned. -/
structure Continues (log : List Event) (pass : Pass) (t : State) : Prop where
  log_eq : t.log = log
  stateOf : ∀ id, t.stateOf id = pass.ctx.stateOf id
  running : t.recorded = .running ↔ t.pass.isSome
  pass_eq : ∀ p, t.pass = some p → p = pass

theorem settle_continues (s : State) (pass : Pass) (result : Except Text ScheduleOutcome) :
    Continues s.log pass (s.settle pass.ctx result) := by
  refine ⟨rfl, fun _ => rfl, ?_, fun p hp => by cases hp⟩
  cases result with
  | error e => simp [State.settle]
  | ok outcome =>
    cases outcome with
    | cancelled => simp [State.settle]
    | completed => cases h : anyWaiting pass.ctx.nodeResults <;> simp [State.settle, h]

theorem proceed_continues (s : State) (pass : Pass) : Continues s.log pass (s.proceed pass) := by
  rw [State.proceed]
  split
  · exact settle_continues s pass _
  · exact ⟨rfl, fun _ => rfl, by simp, fun p hp => (Option.some.inj hp).symm⟩

theorem beginPass_continues (setup : Setup) (s : State) (order : Arrangement) (skip : List Text)
    (ctx : WorkflowContext) : ∃ levels : List (List Text), levels.flatten.Nodup ∧
      Continues s.log ⟨skip, levels, ctx⟩ (s.beginPass setup order skip ctx) := by
  rw [State.beginPass]
  split
  · exact ⟨[], List.nodup_nil, settle_continues s ⟨skip, [], ctx⟩ _⟩
  · rename_i levels hl
    exact ⟨levels, topologicalSort_nodup hl, proceed_continues s _⟩

theorem resumeWith_continues (setup : Setup) (s : State) (order : Arrangement) (id : Text)
    (result : NodeResult) (events : List Event) :
    let results := insertField id result s.nodeResults
    ∃ levels : List (List Text), levels.flatten.Nodup ∧
      Continues (s.log ++ events) ⟨idsIn .completed results, levels,
        resumeContext setup { s with nodeResults := results }⟩
        (s.resumeWith setup order id result events) :=
  beginPass_continues setup
    { s with nodeResults := insertField id result s.nodeResults, log := s.log ++ events } order _ _

theorem runLevel_continues (host : Host) (setup : Setup) (s : State) (pass : Pass)
    (choices : Choices) (level : List Text) (rest : List (List Text)) :
    let r := Engine.runLevel host (pass.schedule setup) choices pass.ctx level
    Continues (s.log ++ levelEvents r.trace) ⟨pass.skip, rest, r.ctx⟩
      (s.runLevel host setup pass choices level rest) := by
  simp only [State.runLevel]
  generalize Engine.runLevel host (pass.schedule setup) choices pass.ctx level = r
  split
  · exact proceed_continues { s with log := s.log ++ levelEvents r.trace } ⟨pass.skip, rest, r.ctx⟩
  · exact settle_continues { s with log := s.log ++ levelEvents r.trace }
      ⟨pass.skip, rest, r.ctx⟩ _

/-! Completed nodes. -/

structure Inv (s : State) : Prop where
  done : ∀ id, .completed id ∈ s.log → s.stateOf id = some .completed
  running : s.pass.isSome → s.recorded = .running
  fresh : s.recorded = .running → s.pass.isNone → s.log = []
  nodup : ∀ p, s.pass = some p → p.levels.flatten.Nodup
  ahead : ∀ p, s.pass = some p → ∀ id, .completed id ∈ s.log →
    id ∈ p.skip ∨ id ∉ p.levels.flatten
  once : Once Event.completes s.log

theorem inv_start : Inv start where
  done _ h := (List.not_mem_nil h).elim
  running h := by cases h
  fresh _ _ := rfl
  nodup _ h := by cases h
  ahead _ h := by cases h
  once := List.Pairwise.nil

theorem inv_of_continues {log : List Event} {pass : Pass} {t : State}
    (h : Continues log pass t) (hnodup : pass.levels.flatten.Nodup)
    (hdone : ∀ id, .completed id ∈ log → pass.ctx.stateOf id = some .completed)
    (hahead : ∀ id, .completed id ∈ log → id ∈ pass.skip ∨ id ∉ pass.levels.flatten)
    (honce : Once Event.completes log) : Inv t where
  done id hid := by
    rw [h.stateOf]
    exact hdone id (h.log_eq ▸ hid)
  running := h.running.mpr
  fresh hr hn := by
    have hs := h.running.mp hr
    rw [Option.isNone_iff_eq_none] at hn
    rw [hn] at hs
    cases hs
  nodup p hp := h.pass_eq p hp ▸ hnodup
  ahead p hp id hid := h.pass_eq p hp ▸ hahead id (h.log_eq ▸ hid)
  once := h.log_eq ▸ honce

theorem Inv.idle {s : State} (h : Inv s) (hw : s.recorded = .waiting) : s.pass = none := by
  cases hp : s.pass with
  | none => rfl
  | some p =>
    have hr := h.running (by simp [hp])
    rw [hw] at hr
    cases hr

theorem Inv.done_idle {s : State} (h : Inv s) (hw : s.recorded = .waiting) {id : Text}
    (hid : .completed id ∈ s.log) : stateIn s.nodeResults id = some .completed := by
  have hd := h.done id hid
  rwa [State.stateOf, h.idle hw] at hd

/-- The next level has no node twice, so what it does is known. -/
theorem Inv.levelSpec {s : State} (h : Inv s) (host : Host) (setup : Setup) {pass : Pass}
    (hp : s.pass = some pass) (choices : Choices) {level : List Text} {rest : List (List Text)}
    (hl : pass.levels = level :: rest) :
    LevelSpec host (pass.schedule setup) choices pass.ctx level
      (Engine.runLevel host (pass.schedule setup) choices pass.ctx level) := by
  have hn := h.nodup pass hp
  rw [hl, List.flatten_cons] at hn
  exact runLevel_levelSpec (pass.schedule setup) (List.nodup_append.mp hn).1

theorem inv_level {s : State} (h : Inv s) {pass : Pass} (hp : s.pass = some pass)
    (choices : Choices) {level : List Text} {rest : List (List Text)}
    (hl : pass.levels = level :: rest) :
    Inv (s.runLevel host setup pass choices level rest) := by
  have hn := h.nodup pass hp
  rw [hl, List.flatten_cons] at hn
  obtain ⟨-, hrest, hdisjoint⟩ := List.nodup_append.mp hn
  have hspec := h.levelSpec host setup hp choices hl
  have hahead (id : Text) (hid : .completed id ∈ s.log) :
      id ∈ pass.skip ∨ (id ∉ level ∧ id ∉ rest.flatten) := by
    have := h.ahead pass hp id hid
    rwa [hl, List.flatten_cons, List.mem_append, not_or] at this
  refine inv_of_continues (runLevel_continues host setup s pass choices level rest) hrest
    (fun id hid => ?_) (fun id hid => ?_) ?_
  · cases List.mem_append.mp hid with
    | inl hid =>
      have hd := h.done id hid
      rw [State.stateOf, hp] at hd
      refine (hspec.frame id ?_).trans hd
      cases hahead id hid with
      | inl hskip => exact Or.inr hskip
      | inr hnot => exact Or.inl hnot.1
    | inr hid => exact (hspec.merged _ (completed_levelEvents hid)).2
  · cases List.mem_append.mp hid with
    | inl hid => exact (hahead id hid).imp_right And.right
    | inr hid =>
      have hmem := (hspec.merged _ (completed_levelEvents hid)).1
      exact Or.inr fun hr => hdisjoint _ hmem _ hr rfl
  · refine once_append.mpr ⟨h.once, once_completes_levelEvents _, fun a ha b hb id hd hr => ?_⟩
    obtain ⟨x, hx, rfl⟩ := ran_levelEvents hb hr
    obtain ⟨hin, hskip, -⟩ := hspec.executed x hx
    cases a with
    | completed node =>
      obtain rfl := Option.some.inj hd
      cases hahead _ ha with
      | inl hs => exact hskip hs
      | inr hnot => exact hnot.1 hin
    | dropped node => cases hd
    | executed node context identity => cases hd
    | resumed node review => cases hd

/-- Settling the waiting node and scheduling again. -/
theorem inv_resumeWith {s : State} (h : Inv s) (hw : s.recorded = .waiting) (order : Arrangement)
    {id : Text} {result : NodeResult} (hr : result.state = .completed) {events : List Event}
    (he : ∀ e ∈ events, e.ran = none) (hid : ∀ node, .completed node ∈ events → node = id) :
    Inv (s.resumeWith setup order id result events) := by
  have hdone (node : Text) (hn : .completed node ∈ s.log ++ events) :
      stateIn (insertField id result s.nodeResults) node = some .completed := by
    rw [stateIn_insertField]
    split
    · rw [hr]
    · rename_i hne
      cases List.mem_append.mp hn with
      | inl hn => exact h.done_idle hw hn
      | inr hn => exact absurd (hid node hn) hne
  obtain ⟨levels, hnodup, hcont⟩ := resumeWith_continues setup s order id result events
  exact inv_of_continues hcont hnodup hdone (fun node hn => Or.inl (mem_idsIn.mpr (hdone node hn)))
    (once_append_of_not_ran h.once he)

/-- A result of an idle execution changes, and completed ones stay. -/
theorem inv_insert {s : State} (h : Inv s) (hw : s.recorded = .waiting) {id : Text}
    (hid : stateIn s.nodeResults id = some .waiting) (result : NodeResult)
    {recorded : ExecutionState} (hr : recorded ≠ .running) :
    Inv { s with recorded, nodeResults := insertField id result s.nodeResults } := by
  have hpass := h.idle hw
  refine ⟨fun node hn => ?_, fun hs => ?_, fun hrun => absurd hrun hr, h.nodup, h.ahead, h.once⟩
  · have hd := h.done_idle hw hn
    have hne : node ≠ id := by
      rintro rfl
      rw [hid] at hd
      cases hd
    rw [State.stateOf, hpass, stateIn_insertField, if_neg hne]
    exact hd
  · rw [hpass] at hs
    cases hs

theorem inv_step {s t : State} {act : Act} (h : Inv s) (hs : step host setup s act = some t) :
    Inv t := by
  cases step_moved hs with
  | run hrun hp =>
    have hlog := h.fresh hrun hp
    obtain ⟨levels, hnodup, hcont⟩ := beginPass_continues setup s _ [] (runContext setup)
    rw [hlog] at hcont
    exact inv_of_continues hcont hnodup (fun _ hm => (List.not_mem_nil hm).elim)
      (fun _ hm => (List.not_mem_nil hm).elim) List.Pairwise.nil
  | level hp hl => exact inv_level h hp _ hl
  | resumed hw hr he hid _ => exact inv_resumeWith h hw _ hr he hid
  | stored hw hid hr => exact inv_insert h hw hid _ hr
  | same => exact h

/-! Dropped nodes. -/

theorem reopens_of_opens {s : State} {choices : Choices} {pass : Pass} {level : List Text}
    {rest : List (List Text)} (hp : s.pass = some pass) (hl : pass.levels = level :: rest)
    {id : Text} (hid : id ∈ level) {e : Event} (he : e ∈ s.log) (hd : e.drops = some id)
    (ho : evalEdgeConditions host setup.workflow.edges (choices.conditionOrder id) id pass.ctx =
      .ok true) : s.reopens host setup choices = true := by
  simp only [State.reopens, hp, hl, List.headD_cons, List.any_eq_true, Bool.and_eq_true]
  exact ⟨id, hid, ⟨e, he, by simp [hd]⟩, by rw [ho]; rfl⟩

theorem dropped_step {s t : State} {act : Act} (hi : Inv s) (h : Once Event.drops s.log)
    (hok : Steady host setup s act) (hs : step host setup s act = some t) :
    Once Event.drops t.log := by
  cases step_moved hs with
  | run hrun hp =>
    obtain ⟨levels, -, hcont⟩ := beginPass_continues setup s _ [] (runContext setup)
    exact hcont.log_eq ▸ h
  | @level choices pass level rest hp hl =>
    have hspec := hi.levelSpec host setup hp choices hl
    rw [(runLevel_continues host setup s pass choices level rest).log_eq]
    refine once_append.mpr ⟨h, once_of_forall fun a ha b hb id hd hr => ?_,
      fun a ha b hb id hd hr => ?_⟩
    · obtain ⟨x, hx, rfl⟩ := ran_levelEvents hb hr
      obtain ⟨node, hnode, rfl⟩ | ⟨_, _, rfl⟩ | ⟨_, _, _, rfl⟩ := mem_levelEvents ha
      · obtain rfl := Option.some.inj hd
        have hclosed := (hspec.dropped _ hnode).2
        rw [(hspec.executed x hx).2.2] at hclosed
        cases hclosed
      · cases hd
      · cases hd
    · obtain ⟨x, hx, rfl⟩ := ran_levelEvents hb hr
      obtain ⟨hin, -, hopen⟩ := hspec.executed x hx
      have hno : s.reopens host setup choices = false := hok
      rw [reopens_of_opens hp hl hin ha hd hopen] at hno
      cases hno
  | @resumed _ order id result events hw hr he hid _ =>
    obtain ⟨levels, -, hcont⟩ := resumeWith_continues setup s order id result events
    rw [hcont.log_eq]
    exact once_append_of_not_ran h he
  | stored hw hid hr => exact h
  | same => exact h

/-- A completed node is never executed again. Neither is a dropped node, in every run in
which no dropped node finds its conditions true when its level comes again. -/
theorem decided_once {acts : List Act} {t : State}
    (hr : run (step host setup) start acts = some t) :
    Once Event.completes t.log ∧
      (Along (step host setup) (Steady host setup) start acts → Once Event.drops t.log) := by
  have hinv : Inv t := run_invariant_always (fun _ _ _ h hs => inv_step h hs) inv_start hr
  refine ⟨hinv.once, fun hok => ?_⟩
  have hstart : Inv start ∧ Once Event.drops start.log := ⟨inv_start, List.Pairwise.nil⟩
  have hstep (s : State) (act : Act) (t : State) (h : Inv s ∧ Once Event.drops s.log)
      (ho : Steady host setup s act) (hs : step host setup s act = some t) :
      Inv t ∧ Once Event.drops t.log := ⟨inv_step h.1 hs, dropped_step h.1 h.2 ho hs⟩
  exact (run_invariant hstep hstart hok hr).2

/-- A step that waits for a refusal stays dropped after an approval. -/
theorem decided_once_refused :
    ∃ t, run (step plainHost (reviewSetup "\x7b\x7bh.approved\x7d\x7d == false")) start approvedRun =
      some t ∧ Once Event.completes t.log ∧ Once Event.drops t.log := by
  have hsome : (run (step plainHost (reviewSetup "\x7b\x7bh.approved\x7d\x7d == false")) start
      approvedRun).isSome := by decide
  obtain ⟨t, ht⟩ := Option.isSome_iff_exists.mp hsome
  have h := decided_once ht
  exact ⟨t, ht, h.1, h.2 (by decide)⟩

/-- A step that waits for an approval is dropped before the review and executed after it. -/
theorem dropped_step_reopens :
    ¬ ∀ (host : Host) (setup : Setup) (acts : List Act) (t : State),
      run (step host setup) start acts = some t → Once Event.drops t.log := by
  intro h
  have hsome : (run (step plainHost (reviewSetup "\x7b\x7bh.approved\x7d\x7d == true")) start
      approvedRun).isSome := by decide
  obtain ⟨t, ht⟩ := Option.isSome_iff_exists.mp hsome
  have heval : (run (step plainHost (reviewSetup "\x7b\x7bh.approved\x7d\x7d == true")) start
      approvedRun).map (fun s => s.log.map fun e => (e.drops, e.ran)) =
      some [(none, some "a".toList), (none, none), (some "d".toList, none), (none, some "h".toList),
        (none, none), (none, none), (none, some "d".toList), (none, none)] := by decide
  have hlog := Option.some.inj ((congrArg (Option.map _) ht).symm.trans heval)
  have hpair : (t.log.map fun e => (e.drops, e.ran)).Pairwise
      fun a b => a.1 = some "d".toList → b.2 ≠ some "d".toList :=
    List.pairwise_map.mpr ((h _ _ _ _ ht).imp fun hab => hab _)
  rw [hlog] at hpair
  exact absurd hpair (by decide)

end NemesisBot.Engine.Resume

import NemesisBot.Workflow.BranchDecision

/-! What the nodes of a resumed execution are given. -/
namespace NemesisBot.Engine.Resume
open Strings Runs

/-- The keys that the workflow declares as a variable or that come with the input. -/
def declaredKeys (setup : Setup) : List Text :=
  setup.workflow.vars.map Prod.fst ++ setup.input.flatMap fun e =>
    e.1 :: (e.2.asObject.getD []).map fun field => fieldKey e.1 field.1

/-- The fields of node `n` are those of its review. -/
def FieldsFresh (setup : Setup) (n : Text) (review context : Fields) : Prop :=
  (∀ f v, review.lookup f = some v → context.lookup (fieldKey n f) = some v) ∧
    ∀ f, review.lookup f = none → fieldKey n f ∉ declaredKeys setup →
      context.lookup (fieldKey n f) = none

/-- The node runs under the identity of the first run. -/
def Attributed (setup : Setup) (identity : WorkflowIdentity) : Prop :=
  identity = runIdentity setup.executionId setup.workflow.name setup.trigger

/-- A resume with a review of `n`, and a node that is executed after it. -/
def ExecutedAfter (log : List Event) (n : Text) (review : Fields) (node : Text)
    (context : Fields) (identity : WorkflowIdentity) : Prop :=
  ∃ before after, log = before ++ .resumed n (some review) :: after ∧
    .executed node context identity ∈ after

/-- Only executions without an identity follow a resume. -/
def Anonymous (log : List Event) : Prop :=
  log.Pairwise fun earlier later => earlier.resumes = true →
    ∀ node context identity, later = .executed node context identity → identity = .empty

variable {host : Host} {setup : Setup}

theorem Anonymous.append {log new : List Event} (h : Anonymous log)
    (hnew : ∀ e ∈ new, ∀ node context identity, e = .executed node context identity →
      (∃ r ∈ log ++ new, r.resumes = true) → identity = .empty) : Anonymous (log ++ new) := by
  refine List.pairwise_append.mpr ⟨h, ?_, fun a ha b hb hr node context identity he => ?_⟩
  · refine List.Pairwise.imp_of_mem (fun ha hb _ hr node context identity he => ?_)
      (List.pairwise_of_forall fun _ _ => trivial)
    exact hnew _ hb node context identity he ⟨_, List.mem_append_right _ ha, hr⟩
  · exact hnew b hb node context identity he ⟨a, List.mem_append_left _ ha, hr⟩

/-- After a resume the schedule under way has no identity, and neither have its executions. -/
structure NoIdentity (s : State) : Prop where
  inv : Inv s
  pass : ∀ p, s.pass = some p → (∃ r ∈ s.log, r.resumes = true) → p.ctx.identity = .empty
  log : Anonymous s.log

theorem noIdentity_of_continues {log : List Event} {pass : Pass} {t : State} (hi : Inv t)
    (h : Continues log pass t)
    (hpass : (∃ r ∈ log, r.resumes = true) → pass.ctx.identity = .empty)
    (hlog : Anonymous log) : NoIdentity t where
  inv := hi
  pass p hp hr := h.pass_eq p hp ▸ hpass (h.log_eq ▸ hr)
  log := h.log_eq ▸ hlog

theorem resumes_levelEvents {trace : LevelTrace} {e : Event} (h : e ∈ levelEvents trace) :
    e.resumes = false := by
  obtain ⟨_, _, rfl⟩ | ⟨_, _, rfl⟩ | ⟨_, _, _, rfl⟩ := mem_levelEvents h <;> rfl

theorem noIdentity_step {s t : State} {act : Act} (h : NoIdentity s)
    (hs : step host setup s act = some t) : NoIdentity t := by
  have hi : Inv t := inv_step h.inv hs
  cases step_moved hs with
  | run hrun hp =>
    obtain ⟨levels, -, hcont⟩ := beginPass_continues setup s _ [] (runContext setup)
    refine noIdentity_of_continues hi hcont (fun hr => ?_) h.log
    obtain ⟨r, hr, -⟩ := hr
    rw [h.inv.fresh hrun hp] at hr
    cases hr
  | @level choices pass level rest hp hl =>
    have hspec := h.inv.levelSpec host setup hp choices hl
    have hold {new : LevelTrace} (hr : ∃ r ∈ s.log ++ levelEvents new, r.resumes = true) :
        pass.ctx.identity = .empty := by
      obtain ⟨r, hr, hres⟩ := hr
      cases List.mem_append.mp hr with
      | inl hr => exact h.pass pass hp ⟨r, hr, hres⟩
      | inr hr =>
        rw [resumes_levelEvents hr] at hres
        cases hres
    refine noIdentity_of_continues hi (runLevel_continues host setup s pass choices level rest)
      (fun hr => hspec.identity.trans (hold hr)) (h.log.append ?_)
    rintro e he node context identity rfl hr
    obtain ⟨_, _, hc⟩ | ⟨x, _, hc⟩ | ⟨_, _, _, hc⟩ := mem_levelEvents he
    · cases hc
    · cases hc
      rw [hspec.given]
      exact hold hr
    · cases hc
  | @resumed _ order id result events hw hr he hid _ =>
    obtain ⟨levels, -, hcont⟩ := resumeWith_continues setup s order id result events
    refine noIdentity_of_continues hi hcont (fun _ => rfl) (h.log.append ?_)
    rintro e hmem node context identity rfl -
    cases he _ hmem
  | stored hw hid hr => exact ⟨hi, h.pass, h.log⟩
  | same => exact h

/-- Every node that is executed after a resume has the empty identity. -/
theorem executed_anonymous {acts : List Act} {t : State}
    (hr : run (step host setup) start acts = some t) {n : Text} {review : Fields} {node : Text}
    {context : Fields} {identity : WorkflowIdentity}
    (h : ExecutedAfter t.log n review node context identity) : identity = .empty := by
  have hstart : NoIdentity start :=
    ⟨inv_start, (fun _ hp => by cases hp), List.Pairwise.nil⟩
  have hno : NoIdentity t := run_invariant_always (fun _ _ _ h hs => noIdentity_step h hs) hstart hr
  obtain ⟨before, after, hlog, hmem⟩ := h
  have hpair := hno.log
  rw [Anonymous, hlog] at hpair
  have hafter := (List.pairwise_cons.mp (List.pairwise_append.mp hpair).2.1).1 _ hmem
  exact hafter rfl _ _ _ rfl

/-- No node that is executed after a resume runs in a fresh and attributed context. -/
theorem resumed_not_attributed {acts : List Act} {t : State}
    (hr : run (step host setup) start acts = some t) {n : Text} {review : Fields} {node : Text}
    {context : Fields} {identity : WorkflowIdentity}
    (h : ExecutedAfter t.log n review node context identity) :
    ¬ (FieldsFresh setup n review context ∧ Attributed setup identity) := by
  intro hall
  have he := executed_anonymous hr h
  exact runIdentity_ne_empty _ _ _ (hall.2.symm.trans he)

/-! The run of `approvedRun`: `h` is reviewed, then `d` is executed. -/

/-- What the run shows of an event. A review: its node, and that it has no `status`. An
execution: its node, and that it sees `h.status`. -/
def glance : Event → Option Text × Option Text × Bool
  | .resumed n (some review) => (some n, none, (review.lookup "status".toList).isNone)
  | .executed node context _ =>
    (none, some node, (context.lookup (fieldKey "h".toList "status".toList)).isSome)
  | _ => (none, none, false)

theorem approved_executedAfter : ∃ t review context identity,
    run (step plainHost (reviewSetup "\x7b\x7bh.approved\x7d\x7d == true")) start approvedRun =
        some t ∧
      ExecutedAfter t.log "h".toList review "d".toList context identity ∧
      review.lookup "status".toList = none ∧
      (context.lookup (fieldKey "h".toList "status".toList)).isSome := by
  have hsome : (run (step plainHost (reviewSetup "\x7b\x7bh.approved\x7d\x7d == true")) start
      approvedRun).isSome := by decide
  obtain ⟨t, ht⟩ := Option.isSome_iff_exists.mp hsome
  have heval : (run (step plainHost (reviewSetup "\x7b\x7bh.approved\x7d\x7d == true")) start
      approvedRun).map (fun s => s.log.map glance) =
      some ([(none, some "a".toList, false), (none, none, false), (none, none, false),
        (none, some "h".toList, false)] ++ (some "h".toList, none, true) ::
        [(none, none, false), (none, some "d".toList, true), (none, none, false)]) := by decide
  have hlog := Option.some.inj ((congrArg (Option.map _) ht).symm.trans heval)
  obtain ⟨before, rest, hsplit, -, hrest⟩ := List.map_eq_append_iff.mp hlog
  obtain ⟨e, after, rfl, he, hafter⟩ := List.map_eq_cons_iff.mp hrest
  have hd : (none, some "d".toList, true) ∈ after.map glance := by
    rw [hafter]
    decide
  obtain ⟨e', hmem, he'⟩ := List.mem_map.mp hd
  obtain ⟨review, rfl, hnone⟩ : ∃ review, e = .resumed "h".toList (some review) ∧
      review.lookup "status".toList = none := by
    cases e with
    | resumed node review =>
      cases review with
      | none => cases he
      | some review =>
        have hn : some node = some "h".toList := congrArg Prod.fst he
        have hs : (review.lookup "status".toList).isNone = true := congrArg (fun g => g.2.2) he
        exact ⟨review, by rw [Option.some.inj hn], Option.isNone_iff_eq_none.mp hs⟩
    | dropped node => cases he
    | executed node context identity => cases he
    | completed node => cases he
  obtain ⟨context, identity, rfl, hseen⟩ : ∃ context identity,
      e' = .executed "d".toList context identity ∧
      (context.lookup (fieldKey "h".toList "status".toList)).isSome := by
    cases e' with
    | executed node context identity =>
      have hn : some node = some "d".toList := congrArg (fun g => g.2.1) he'
      have hs : (context.lookup (fieldKey "h".toList "status".toList)).isSome = true :=
        congrArg (fun g => g.2.2) he'
      exact ⟨context, identity, by rw [Option.some.inj hn], hs⟩
    | resumed node review => cases review <;> cases he'
    | dropped node => cases he'
    | completed node => cases he'
  exact ⟨t, review, context, identity, ht, ⟨before, after, hsplit, hmem⟩, hnone, hseen⟩

/-- The step after the approval is executed under no identity. -/
theorem resumed_not_attributed_approved : ∃ t review context identity,
    run (step plainHost (reviewSetup "\x7b\x7bh.approved\x7d\x7d == true")) start approvedRun =
        some t ∧
      ¬ (FieldsFresh (reviewSetup "\x7b\x7bh.approved\x7d\x7d == true") "h".toList review context ∧
        Attributed (reviewSetup "\x7b\x7bh.approved\x7d\x7d == true") identity) := by
  obtain ⟨t, review, context, identity, ht, h, -, -⟩ := approved_executedAfter
  exact ⟨t, review, context, identity, ht, resumed_not_attributed ht h⟩

/-- After the approval the step still sees `h.status`, which the review does not have, and
has lost the identity of the run. -/
theorem stale_field_lost_identity :
    (¬ ∀ (host : Host) (setup : Setup) (acts : List Act) (t : State) (n : Text) (review : Fields)
      (node : Text) (context : Fields) (identity : WorkflowIdentity),
      run (step host setup) start acts = some t →
      ExecutedAfter t.log n review node context identity → FieldsFresh setup n review context) ∧
    ¬ ∀ (host : Host) (setup : Setup) (acts : List Act) (t : State) (n : Text) (review : Fields)
      (node : Text) (context : Fields) (identity : WorkflowIdentity),
      run (step host setup) start acts = some t →
      ExecutedAfter t.log n review node context identity → Attributed setup identity := by
  obtain ⟨t, review, context, identity, ht, h, hnone, hseen⟩ := approved_executedAfter
  constructor
  · intro hall
    have hfresh := (hall _ _ _ _ _ _ _ _ _ ht h).2 "status".toList hnone (by decide)
    rw [hfresh] at hseen
    cases hseen
  · intro hall
    have hid := hall _ _ _ _ _ _ _ _ _ ht h
    exact runIdentity_ne_empty _ _ _ (hid.symm.trans (executed_anonymous ht h))

end NemesisBot.Engine.Resume

import NemesisBot.Lib.Glob
import NemesisBot.Workflow.References
import NemesisBot.Workflow.Registry

/-! Event triggers. A finished execution publishes an event that carries its trigger chain,
and the workflows that match it are started, except those on the chain. -/
namespace NemesisBot.Engine
open Strings Glob Cycles

structure TriggerEvent where
  eventType : Text
  data : Fields

/-- The text that trigger data is compared as. -/
def triggerText : Json → Text
  | .str s => s
  | other => other.render

def isEventTrigger (trigger : TriggerConfig) : Bool := trigger.triggerType == "event".toList

/-- `match_glob` accepts exactly the fillings of its pattern. -/
theorem matchGlob_iff_fills (pattern s : Text) :
    matchGlob pattern s = true ↔ Fills pattern s := by
  rw [fills_iff_spaced]
  cases hsplit : pattern.splitOn '*' with
  | nil => exact absurd hsplit (List.splitOn_ne_nil '*' pattern)
  | cons first rest =>
    by_cases hrest : rest = []
    · subst hrest
      rw [matchGlob, hsplit]
      simp only [Spaced, beq_iff_eq]
      exact eq_comm
    · rw [matchGlob_cons hsplit hrest, spaced_iff_inOrder hrest]
      simp only [containsAll_iff_inOrder]

/-- Every key but `event_type` is in the data and matches, as a glob if it has a star. -/
def matchEventData (trigger : TriggerConfig) (data : Fields) : Bool :=
  trigger.config.all fun (key, expected) =>
    key == "event_type".toList || match data.lookup key with
      | none => false
      | some actual =>
        if (triggerText expected).contains '*' then
          matchGlob (triggerText expected) (triggerText actual)
        else triggerText expected == triggerText actual

def matchesTrigger (event : TriggerEvent) (trigger : TriggerConfig) : Bool :=
  isEventTrigger trigger &&
    match (trigger.config.lookup "event_type".toList).bind Json.asStr with
    | none => false
    | some pattern => matchGlob pattern event.eventType && matchEventData trigger event.data

def matchTriggerEvent (workflows : List (Text × Workflow)) (event : TriggerEvent) : List Text :=
  workflows.filterMap fun (name, wf) =>
    if wf.triggers.any (matchesTrigger event) then some name else none

def triggerChainKey : Text := "__wf_trigger_chain".toList

def triggerChainFromValue (value : Option Json) : List Text :=
  ((value.bind Json.asArray).getD []).filterMap Json.asStr

def workflowsMatchingEvent (workflows : List (Text × Workflow)) (event : TriggerEvent) :
    List Text :=
  let chain := triggerChainFromValue (event.data.lookup triggerChainKey)
  let matched := matchTriggerEvent workflows event
  if chain.isEmpty then matched else matched.filter fun name => !chain.contains name

def eventTriggerChainOf : Option TriggerSource → List Text
  | some (.event _ data) => triggerChainFromValue (data.get triggerChainKey)
  | _ => []

/-- What a started execution is known by here. -/
structure Started where
  workflowName : Text
  triggerSource : Option TriggerSource

/-- The chain that a finished execution publishes. -/
def publishedChain (e : Started) : List Text :=
  eventTriggerChainOf e.triggerSource ++ [e.workflowName]

/-- The terminal event of `run_async`. -/
def terminalEvent (e : Started) (state : ExecutionState) : Option TriggerEvent :=
  let event := fun eventType status : String => some (TriggerEvent.mk eventType.toList
    [("workflow_name".toList, .str e.workflowName),
      (triggerChainKey, .arr ((publishedChain e).map .str)),
      ("status".toList, .str status.toList)])
  match state with
  | .completed => event "workflow.completed" "completed"
  | .failed => event "workflow.failed" "failed"
  | .cancelled => event "workflow.cancelled" "cancelled"
  | _ => none

/-- One execution causes another: through a sub_workflow node, without a trigger, or through
its terminal event, which the subscriber passes on as the trigger. -/
inductive Causes (workflows : List (Text × Workflow)) : Started → Started → Prop
  | sub {e : Started} {name : Text} (hc : Registry.References workflows e.workflowName name)
      (hr : name ∈ workflows.map Prod.fst) : Causes workflows e ⟨name, none⟩
  | event {e : Started} {state : ExecutionState} {ev : TriggerEvent} {name : Text}
      (hp : terminalEvent e state = some ev) (hm : name ∈ workflowsMatchingEvent workflows ev) :
      Causes workflows e ⟨name, some (.event ev.eventType (.obj ev.data))⟩

def Started.byEvent (e : Started) : Bool :=
  match e.triggerSource with
  | some (.event _ _) => true
  | _ => false

/-- A causal chain, newest execution first, from a root that no event started. -/
inductive Cascade (workflows : List (Text × Workflow)) : List Started → Prop
  | root {e : Started} (hr : e.workflowName ∈ workflows.map Prod.fst)
      (he : e.byEvent = false) : Cascade workflows [e]
  | next {e e' : Started} {earlier : List Started} (h : Cascade workflows (e :: earlier))
      (hc : Causes workflows e e') : Cascade workflows (e' :: e :: earlier)

/-- The workflows that the chain started by event. -/
def eventNames (chain : List Started) : List Text :=
  (chain.filter Started.byEvent).map Started.workflowName

/-- No sub_workflow call lies between the newest execution and one that an event started. -/
def Unbroken (chain : List Started) : Prop :=
  ∀ e ∈ chain.dropWhile Started.byEvent, e.byEvent = false

instance (chain : List Started) : Decidable (Unbroken chain) :=
  inferInstanceAs (Decidable (∀ e ∈ _, _))

/-- Every start by event comes from an unbroken chain. -/
def StartsUnbroken : List Started → Prop
  | [] => True
  | e :: earlier => StartsUnbroken earlier ∧ (e.byEvent = true → Unbroken earlier)

instance StartsUnbroken.decidable : (chain : List Started) → Decidable (StartsUnbroken chain)
  | [] => .isTrue trivial
  | _ :: earlier =>
    have := StartsUnbroken.decidable earlier
    inferInstanceAs (Decidable (_ ∧ _))

theorem publishedChain_read (e : Started) :
    triggerChainFromValue (some (.arr ((publishedChain e).map .str))) = publishedChain e := by
  have h : ∀ l : List Text, (l.map Json.str).filterMap Json.asStr = l := by
    intro l
    induction l with
    | nil => rfl
    | cons t l ih => simp [Json.asStr, ih]
  simp only [triggerChainFromValue, Option.bind_some, Json.asArray, Option.getD_some]
  exact h _

theorem terminalEvent_chain {e : Started} {state : ExecutionState} {ev : TriggerEvent}
    (h : terminalEvent e state = some ev) :
    ev.data.lookup triggerChainKey = some (.arr ((publishedChain e).map .str)) := by
  cases state <;> simp only [terminalEvent, Option.some.injEq, reduceCtorEq] at h
  all_goals
    subst h
    rfl

theorem publishedChain_event {e : Started} {state : ExecutionState} {ev : TriggerEvent}
    (h : terminalEvent e state = some ev) (name : Text) :
    publishedChain ⟨name, some (.event ev.eventType (.obj ev.data))⟩ =
      publishedChain e ++ [name] := by
  rw [publishedChain, eventTriggerChainOf, Json.get, Json.asObject, Option.bind_some,
    terminalEvent_chain h, publishedChain_read]

/-- The guard: a workflow on the published chain is not started again. -/
theorem not_mem_publishedChain {workflows : List (Text × Workflow)} {e : Started}
    {state : ExecutionState} {ev : TriggerEvent} {name : Text}
    (hp : terminalEvent e state = some ev) (hm : name ∈ workflowsMatchingEvent workflows ev) :
    name ∉ publishedChain e := by
  have hne : (publishedChain e).isEmpty = false := by simp [publishedChain]
  rw [workflowsMatchingEvent, terminalEvent_chain hp, publishedChain_read, hne] at hm
  simpa using (List.mem_filter.mp hm).2

theorem matching_registered {workflows : List (Text × Workflow)} {ev : TriggerEvent} {name : Text}
    (h : name ∈ workflowsMatchingEvent workflows ev) : name ∈ workflows.map Prod.fst := by
  have hm : name ∈ matchTriggerEvent workflows ev := by
    rw [workflowsMatchingEvent] at h
    split at h
    · exact h
    · exact (List.mem_filter.mp h).1
  obtain ⟨⟨k, wf⟩, hmem, hk⟩ := List.mem_filterMap.mp hm
  dsimp only at hk
  split at hk
  · obtain rfl := Option.some.inj hk
    exact List.mem_map_of_mem hmem
  · cases hk

theorem cascade_registered {workflows : List (Text × Workflow)} {chain : List Started}
    (h : Cascade workflows chain) : ∀ e ∈ chain, e.workflowName ∈ workflows.map Prod.fst := by
  induction h with
  | root hr _ => simpa using hr
  | next _ hc ih =>
    intro d hd
    obtain rfl | hd := List.mem_cons.mp hd
    · cases hc with
      | sub _ hr => exact hr
      | event _ hm => exact matching_registered hm
    · exact ih d hd

/-- Along starts by event the published chain keeps every name. -/
theorem cascade_carried {workflows : List (Text × Workflow)} {e : Started}
    {earlier : List Started} (h : Cascade workflows (e :: earlier)) :
    ∀ d ∈ (e :: earlier).takeWhile Started.byEvent, d.workflowName ∈ publishedChain e := by
  generalize hch : e :: earlier = chain at h
  induction h generalizing e earlier with
  | root _ he => simp [he]
  | @next e₁ e' earlier' _ hc ih =>
    obtain ⟨rfl, rfl⟩ := List.cons.inj hch
    cases hc with
    | sub _ _ => simp [Started.byEvent]
    | event hp _ =>
      intro d hd
      rw [List.takeWhile_cons_of_pos rfl] at hd
      rw [publishedChain_event hp]
      obtain rfl | hd := List.mem_cons.mp hd
      · simp
      · exact List.mem_append_left _ (ih rfl d hd)

theorem filter_of_unbroken {chain : List Started} (h : Unbroken chain) :
    chain.filter Started.byEvent = chain.takeWhile Started.byEvent := by
  have hsplit := List.takeWhile_append_dropWhile (p := Started.byEvent) (l := chain)
  conv => lhs; rw [← hsplit]
  have hnone : (chain.dropWhile Started.byEvent).filter Started.byEvent = [] := by
    simpa [List.filter_eq_nil_iff, Unbroken] using h
  have hall : (chain.takeWhile Started.byEvent).filter Started.byEvent =
      chain.takeWhile Started.byEvent :=
    List.filter_eq_self.mpr (List.all_eq_true.mp List.all_takeWhile)
  rw [List.filter_append, hnone, hall, List.append_nil]

theorem eventNames_nodup {workflows : List (Text × Workflow)} {chain : List Started}
    (h : Cascade workflows chain) (hu : StartsUnbroken chain) : (eventNames chain).Nodup := by
  induction h with
  | root _ he => simp [eventNames, he]
  | next hprev hc ih =>
    have hi := ih hu.1
    cases hc with
    | sub _ _ => simpa [eventNames, Started.byEvent] using hi
    | event hp hm =>
      have hun := filter_of_unbroken (hu.2 rfl)
      rw [eventNames, List.filter_cons_of_pos rfl, List.map_cons, List.nodup_cons]
      refine ⟨fun hmem => ?_, hi⟩
      rw [hun] at hmem
      obtain ⟨d, hd, hname⟩ := List.mem_map.mp hmem
      have hon := cascade_carried hprev d hd
      rw [hname] at hon
      exact not_mem_publishedChain hp hm hon

/-! How long a chain can be. -/

/-- The newest executions back to the last one that no sub_workflow call started. -/
def segment : List Started → List Text
  | [] => []
  | e :: earlier => if e.byEvent then [e.workflowName] else e.workflowName :: segment earlier

theorem segment_path {workflows : List (Text × Workflow)} {chain : List Started}
    (h : Cascade workflows chain) :
    (segment chain).IsChain fun b a => Registry.References workflows a b := by
  induction h with
  | root _ he => simp [segment, he]
  | @next e e' earlier _ hc ih =>
    cases hc with
    | event _ _ => simp [segment, Started.byEvent]
    | sub hr _ =>
      have hs : ∀ name, segment (⟨name, none⟩ :: e :: earlier) = name :: segment (e :: earlier) :=
        fun _ => rfl
      rw [hs]
      by_cases he : e.byEvent
      · rw [segment, if_pos he]
        exact List.isChain_pair.mpr hr
      · rw [segment, if_neg he] at ih ⊢
        exact List.isChain_cons_cons.mpr ⟨hr, ih⟩

theorem segment_subset {chain : List Started} :
    segment chain ⊆ chain.map Started.workflowName := by
  induction chain with
  | nil => simp [segment]
  | cons e earlier ih =>
    rw [segment]
    split
    · simp
    · rw [List.map_cons]
      exact List.cons_subset_cons _ ih

theorem length_le_of_nodup {workflows : List (Text × Workflow)} {names : List Text}
    (hn : names.Nodup) (hs : names ⊆ workflows.map Prod.fst) :
    names.length ≤ workflows.length := by
  have := (hn.subperm hs).length_le
  rwa [List.length_map] at this

theorem segment_length {workflows : List (Text × Workflow)} {chain : List Started}
    (ha : Acyclic (Registry.References workflows)) (h : Cascade workflows chain) :
    (segment chain).length ≤ workflows.length := by
  refine length_le_of_nodup (ha.nodup (segment_path h)) fun name hm => ?_
  obtain ⟨e, he, rfl⟩ := List.mem_map.mp (segment_subset hm)
  exact cascade_registered h e he

theorem cascade_length {workflows : List (Text × Workflow)} {chain : List Started}
    (ha : Acyclic (Registry.References workflows)) (h : Cascade workflows chain) :
    chain.length ≤ workflows.length * (eventNames chain).length + (segment chain).length := by
  induction h with
  | root _ he => simp [segment, he]
  | next hprev hc ih =>
    have hseg := segment_length ha hprev
    cases hc with
    | event _ _ =>
      have he : ∀ name t d rest, (eventNames (⟨name, some (.event t d)⟩ :: rest)).length =
          (eventNames rest).length + 1 := fun _ _ _ _ => rfl
      rw [he, List.length_cons, Nat.mul_add]
      simp only [segment, Started.byEvent, if_true, List.length_singleton]
      omega
    | sub _ _ =>
      have he : ∀ name rest, eventNames (⟨name, none⟩ :: rest) = eventNames rest :=
        fun _ _ => rfl
      have hs : ∀ name rest, (segment (⟨name, none⟩ :: rest)).length =
          (segment rest).length + 1 := fun _ _ => rfl
      rw [he, hs, List.length_cons]
      omega

/-- While every start by event comes from an unbroken chain, no workflow is started by event
twice, and the chain has a bounded length. -/
theorem cascade_bounded {workflows : List (Text × Workflow)} {chain : List Started}
    (ha : Acyclic (Registry.References workflows)) (h : Cascade workflows chain)
    (hu : StartsUnbroken chain) :
    (eventNames chain).Nodup ∧
      chain.length ≤ workflows.length * workflows.length + workflows.length := by
  have hn := eventNames_nodup h hu
  have hle : (eventNames chain).length ≤ workflows.length := by
    refine length_le_of_nodup hn fun name hm => ?_
    obtain ⟨e, he, rfl⟩ := List.mem_map.mp hm
    exact cascade_registered h e (List.mem_filter.mp he).1
  have hmul := Nat.mul_le_mul_left workflows.length hle
  have hlen := cascade_length ha h
  have hseg := segment_length ha h
  exact ⟨hn, by omega⟩

/-- A workflow that listens to the completion of `listens`, and calls `callee` if given. -/
def listener (name listens : String) (callee : Option String) : Workflow where
  name := name.toList
  triggers := [⟨"event".toList, [("event_type".toList, .str "workflow.completed".toList),
    ("workflow_name".toList, .str listens.toList)]⟩]
  nodes := match callee with
    | some c => [⟨"s".toList, subWorkflow, [("workflow".toList, .str c.toList)], [], 0⟩]
    | none => [⟨"t".toList, "transform".toList, [], [], 0⟩]
  edges := []
  vars := []

def registered (wfs : List Workflow) : List (Text × Workflow) := wfs.map fun wf => (wf.name, wf)

def startedBy (e : Started) (name : String) : Started :=
  ⟨name.toList, (terminalEvent e .completed).map fun ev => .event ev.eventType (.obj ev.data)⟩

theorem causes_startedBy {wfs : List Workflow} {e : Started} {name : String}
    (h : (terminalEvent e .completed).any fun ev =>
      (workflowsMatchingEvent (registered wfs) ev).contains name.toList) :
    Causes (registered wfs) e (startedBy e name) := by
  cases hp : terminalEvent e .completed with
  | none => simp [hp] at h
  | some ev =>
    rw [startedBy, hp]
    exact .event hp (by simpa [hp] using h)

theorem references_registered {wfs : List Workflow} {a b : Text}
    (h : Registry.References (registered wfs) a b) :
    ∃ wf ∈ wfs, wf.name = a ∧ b ∈ workflowSubworkflowTargets wf := by
  obtain ⟨wf, hl, hm⟩ := Registry.collected_of_references h
  obtain ⟨before, after, he, -⟩ := List.lookup_eq_some_iff.mp hl
  have hmem : (a, wf) ∈ registered wfs := by simp [he]
  obtain ⟨wf', hw, heq⟩ := List.mem_map.mp hmem
  obtain ⟨rfl, rfl⟩ := Prod.mk.inj heq
  exact ⟨wf', hw, rfl, hm⟩

/-- `a` completes and starts `b`, which completes and starts `c`. -/
theorem cascade_bounded_three :
    let a : Started := ⟨"a".toList, some .cli⟩
    let b := startedBy a "b"
    (eventNames [startedBy b "c", b, a]).Nodup ∧ 3 ≤ 3 * 3 + 3 := by
  have hacyclic : Acyclic (Registry.References (registered
      [listener "a" "x" none, listener "b" "a" none, listener "c" "b" none])) := by
    refine acyclic_of_rank (fun _ => 0) fun a b h => ?_
    obtain ⟨wf, hw, -, hm⟩ := references_registered h
    simp only [List.mem_cons, List.not_mem_nil, or_false] at hw
    obtain rfl | rfl | rfl := hw <;> exact absurd hm List.not_mem_nil
  exact cascade_bounded hacyclic (.next (.next (.root (by decide) rfl)
    (causes_startedBy (by decide))) (causes_startedBy (by decide))) (by decide)

/-- A sub_workflow call drops the chain: `p` listens to `c` and calls it, so `c`, started
once, starts `p` again and again. -/
theorem sub_workflow_call_reopens_loop :
    ¬ ∀ (workflows : List (Text × Workflow)) (chain : List Started),
      Acyclic (Registry.References workflows) → Cascade workflows chain →
      (eventNames chain).Nodup := by
  intro h
  let c : Started := ⟨"c".toList, some .cli⟩
  let c' : Started := ⟨"c".toList, none⟩
  have hroot : Cascade (registered [listener "p" "c" (some "c"), listener "c" "x" none]) [c] :=
    .root (by decide) rfl
  have hp : Cascade _ [startedBy c "p", c] := hroot.next (causes_startedBy (by decide))
  have hsub : Cascade _ [c', startedBy c "p", c] := hp.next (.sub
    ⟨listener "p" "c" (some "c"), rfl, _, List.mem_singleton.mpr rfl,
      .sub rfl (by decide)⟩ (by decide))
  have hp' : Cascade _ [startedBy c' "p", c', startedBy c "p", c] :=
    hsub.next (causes_startedBy (by decide))
  refine absurd (h _ _ ?_ hp') (by decide)
  refine acyclic_of_rank (fun name => if name = "p".toList then 1 else 0) fun a b hr => ?_
  obtain ⟨wf, hw, rfl, hm⟩ := references_registered hr
  simp only [List.mem_cons, List.not_mem_nil, or_false] at hw
  obtain rfl | rfl := hw
  · obtain rfl : b = "c".toList := by simpa using (show b ∈ ["c".toList] from hm)
    decide
  · exact absurd hm List.not_mem_nil

end NemesisBot.Engine

import NemesisBot.Workflow.Conditions
import NemesisBot.Workflow.TopologicalSort

/-! Level by level execution of a workflow, without a cancellation from outside. -/
namespace NemesisBot.Engine
open Strings

/-- How a call of a node executor ends. -/
inductive Outcome where
  | ok (result : NodeResult)
  | err (message : Text)
  | panic (message : Text)

/-- A node executor. The last argument numbers its calls, so that each may end differently. -/
abbrev Executor := NodeDef → Fields → WorkflowContext → Nat → Outcome

abbrev NodeExecutorRegistry := Text → Option Executor

/-- What the code leaves open in one level. -/
structure Choices where
  /-- the maps behind the edge conditions of a node -/
  conditionOrder : Text → Arrangement
  /-- the maps behind the context of the executors -/
  contextOrder : Arrangement
  /-- the order in which the tasks finish -/
  finishing : Arrangement
  /-- the printed timeout, for an attempt that exceeds it -/
  timedOut : Text → Nat → Option Text
  /-- the attempts after which a task sees that its level has failed -/
  stoppedAfter : Text → Option Nat

inductive ScheduleOutcome where
  | completed
  | cancelled
  deriving DecidableEq

/-- An attempt after which the retry loop goes on. -/
def Outcome.retried : Outcome → Bool
  | .ok result => result.state == .failed
  | .err _ => true
  | .panic _ => false

/-- The attempts that end, from number `i` on, when at most `count` are made. -/
def attemptsFrom (run : Nat → Outcome) : Nat → Nat → List Outcome
  | _, 0 => []
  | i, count + 1 =>
    if (run i).retried then run i :: attemptsFrom run (i + 1) count else [run i]

/-- `last_result` and `last_error` of the retry loop. -/
structure Last where
  result : Option NodeResult
  error : Option Text

def Last.after (last : Last) : Outcome → Last
  | .ok result => ⟨some result, if result.state = .failed then result.error else none⟩
  | .err message => { last with error := some message }
  | .panic _ => last

/-- What the scheduler gets when a task is joined. -/
inductive Joined where
  | returned (result : Option NodeResult) (error : Option Text)
  | panicked (message : Text)

def joinTask (ended : List Outcome) : Joined :=
  match ended.getLast? with
  | some (.panic message) => .panicked message
  | _ =>
    let last := ended.foldl Last.after ⟨none, none⟩
    .returned last.result last.error

/-- A collected task, with its attempts. -/
abbrev Executed := Text × List Outcome

structure Collection where
  ctx : WorkflowContext
  firstErr : Option Text
  merged : List (Text × ExecutionState)
  collected : List Executed

/-- Only the first error of a level counts. -/
def Collection.fail (c : Collection) (message : Text) : Collection :=
  { c with firstErr := c.firstErr.or (some message) }

variable (host : Host)

def Collection.add (c : Collection) (nodeId : Text) : Joined → Collection
  | .returned (some result) none =>
    { c with ctx := c.ctx.merge nodeId result, merged := c.merged ++ [(nodeId, result.state)] }
  | .returned _ (some err) =>
    c.fail ("node ".toList ++ host.debug nodeId ++ " execution failed: ".toList ++ err)
  | .returned none none => c.fail ("node ".toList ++ host.debug nodeId ++
      " produced no result".toList)
  | .panicked message => c.fail ("node task panicked: ".toList ++ message)

def Collection.collect (c : Collection) (nodeId : Text) (ended : List Outcome) : Collection :=
  { c.add host nodeId (joinTask ended) with collected := c.collected ++ [(nodeId, ended)] }

/-! Selection of the nodes of a level. -/

/-- Every condition on an edge into the node holds. A reference that stays unresolved is an
error when it names a completed node, and makes the condition false otherwise. -/
def evalConditions (order : Arrangement) (nodeId : Text) (ctx : WorkflowContext)
    (context : Fields) : List Text → Except Text Bool
  | [] => .ok true
  | cond :: rest =>
    if h : opening <:+: resolvePromptTemplate order cond context then
      if (placeholderRefs cond).any fun ref => ctx.stateOf ref.1 == some .completed then
        .error ("节点 ".toList ++ host.debug nodeId ++
          " 的条件边引用了已完成节点输出中不存在的字段（模板解析后仍残留 \x7b\x7b…\x7d\x7d）：".toList ++
          host.debug cond ++
          "。请核对上游节点 id 与其输出字段名（condition 节点 的输出字段是 condition_result）".toList)
      else .ok false
    else if (evaluateCondition host order context
        ((resolvePromptTemplate order cond context).length + 1) cond).get
          (evaluateCondition_returns host h) then
      evalConditions order nodeId ctx context rest
    else .ok false

/-- The conditions of the edges into a node. -/
def edgeConditions (edges : List Edge) (nodeId : Text) : List Text :=
  (edges.filter fun e => e.toNode = nodeId).filterMap Edge.condition

def evalEdgeConditions (edges : List Edge) (order : Arrangement) (nodeId : Text)
    (ctx : WorkflowContext) : Except Text Bool :=
  evalConditions host order nodeId ctx (buildExecutorContext order ctx)
    (edgeConditions edges nodeId)

/-- The nodes of a level that run and those that its conditions drop. `paused` when a node
of it is still waiting. -/
structure Selection where
  runnable : List Text
  dropped : List Text
  paused : Bool

def select (edges : List Edge) (choices : Choices) (skip : List Text) (ctx : WorkflowContext) :
    List Text → Except Text Selection
  | [] => .ok ⟨[], [], false⟩
  | id :: rest =>
    if skip.contains id then select edges choices skip ctx rest
    else if ctx.stateOf id = some .waiting then
      (select edges choices skip ctx rest).map fun s => { s with paused := true }
    else match evalEdgeConditions host edges (choices.conditionOrder id) id ctx with
      | .error e => .error e
      | .ok true =>
        (select edges choices skip ctx rest).map fun s => { s with runnable := id :: s.runnable }
      | .ok false =>
        (select edges choices skip ctx rest).map fun s => { s with dropped := id :: s.dropped }

/-! Running a level. -/

abbrev Task := Text × NodeDef × Executor

/-- The tasks that are spawned, up to the first node that has no definition or executor. -/
def spawnTasks (nodes : List NodeDef) (executors : NodeExecutorRegistry) :
    List Text → List Task × Option Text
  | [] => ([], none)
  | id :: rest => match nodes.reverse.find? fun n => n.id = id with
    | none => ([], some ("node ".toList ++ host.debug id ++ " not found in definition".toList))
    | some node => match executors node.nodeType with
      | none => ([], some ("no executor for node type ".toList ++ host.debug node.nodeType ++
          " (node ".toList ++ id ++ ")".toList))
      | some executor =>
        let spawned := spawnTasks nodes executors rest
        ((id, node, executor) :: spawned.1, spawned.2)

/-- The attempts of a task. `stoppable` once its level has failed. -/
def taskAttempts (choices : Choices) (context : Fields) (ctx : WorkflowContext)
    (stoppable : Bool) (task : Task) : List Outcome :=
  let node := task.2.1
  let run i := match choices.timedOut node.id i with
    | some after =>
      .err ("node ".toList ++ host.debug node.id ++ " timed out after ".toList ++ after)
    | none => task.2.2 node context ctx i
  let stop := if stoppable then choices.stoppedAfter node.id else none
  attemptsFrom run 0 (min (node.retryCount + 1) (stop.getD (node.retryCount + 1)))

def collectTasks (choices : Choices) (context : Fields) (ctx : WorkflowContext) :
    List Task → Collection → Collection
  | [], c => c
  | task :: rest, c => collectTasks choices context ctx rest
      (c.collect host task.1 (taskAttempts host choices context ctx c.firstErr.isSome task))

/-- What happened in a level. The executors were given `context` and `ctx`. -/
structure LevelTrace where
  dropped : List Text
  context : Fields
  ctx : WorkflowContext
  /-- spawned, and dropped again with their set of tasks -/
  aborted : List Executed
  collected : List Executed
  merged : List (Text × ExecutionState)

def LevelTrace.executed (level : LevelTrace) : List Executed := level.aborted ++ level.collected

inductive LevelEnd where
  | next
  | stop (result : Except Text ScheduleOutcome)

structure LevelRun where
  trace : LevelTrace
  ctx : WorkflowContext
  ending : LevelEnd

structure Schedule where
  nodes : List NodeDef
  edges : List Edge
  executors : NodeExecutorRegistry
  skip : List Text

def runLevel (sched : Schedule) (choices : Choices) (ctx : WorkflowContext)
    (level : List Text) : LevelRun :=
  match select host sched.edges choices sched.skip ctx level with
  | .error e => ⟨⟨[], [], ctx, [], [], []⟩, ctx, .stop (.error e)⟩
  | .ok s =>
    if s.runnable = [] then
      ⟨⟨s.dropped, [], ctx, [], [], []⟩, ctx, if s.paused then .stop (.ok .completed) else .next⟩
    else
      let context := buildExecutorContext choices.contextOrder ctx
      match spawnTasks host sched.nodes sched.executors s.runnable with
      | (tasks, some e) =>
        let aborted := tasks.map fun t => (t.1, taskAttempts host choices context ctx true t)
        ⟨⟨s.dropped, context, ctx, aborted, [], []⟩, ctx, .stop (.error e)⟩
      | (tasks, none) =>
        let c := collectTasks host choices context ctx (choices.finishing.arrange tasks)
          ⟨ctx, none, [], []⟩
        ⟨⟨s.dropped, context, ctx, [], c.collected, c.merged⟩, c.ctx,
          match c.firstErr with
          | some e => .stop (.error e)
          | none => if anyWaiting c.ctx.nodeResults then .stop (.ok .completed) else .next⟩

structure ScheduleRun where
  trace : List LevelTrace
  ctx : WorkflowContext
  result : Except Text ScheduleOutcome

/-- The levels one after the other; `k` numbers the first of them. -/
def runLevels (sched : Schedule) (choices : Nat → Choices) :
    Nat → WorkflowContext → List (List Text) → ScheduleRun
  | _, ctx, [] => ⟨[], ctx, .ok .completed⟩
  | k, ctx, level :: rest =>
    let r := runLevel host sched (choices k) ctx level
    match r.ending with
    | .stop result => ⟨[r.trace], r.ctx, result⟩
    | .next =>
      let later := runLevels sched choices (k + 1) r.ctx rest
      ⟨r.trace :: later.trace, later.ctx, later.result⟩

/-- `schedule` without nodes to skip, and `schedule_resume` with them. -/
def scheduleInner (sched : Schedule) (order : Arrangement) (choices : Nat → Choices)
    (ctx : WorkflowContext) : ScheduleRun :=
  match topologicalSort order sched.nodes sched.edges with
  | .error e => ⟨[], ctx, .error e⟩
  | .ok levels => runLevels host sched choices 0 ctx levels

/-! What a level can do. -/

section Level
variable {host} {edges : List Edge} {choices : Choices} {skip : List Text}
  {ctx : WorkflowContext} {context : Fields}

structure SelectSpec (host : Host) (edges : List Edge) (choices : Choices) (skip : List Text)
    (ctx : WorkflowContext) (level : List Text) (s : Selection) : Prop where
  runnable : ∀ id ∈ s.runnable, id ∉ skip ∧
    evalEdgeConditions host edges (choices.conditionOrder id) id ctx = .ok true
  dropped : ∀ id ∈ s.dropped, id ∈ level ∧
    evalEdgeConditions host edges (choices.conditionOrder id) id ctx = .ok false
  sublist : s.runnable.Sublist level

theorem select_spec {level : List Text} {s : Selection}
    (h : select host edges choices skip ctx level = .ok s) :
    SelectSpec host edges choices skip ctx level s := by
  induction level generalizing s with
  | nil =>
    obtain rfl := Except.ok.inj h
    exact ⟨fun _ hid => (List.not_mem_nil hid).elim, fun _ hid => (List.not_mem_nil hid).elim,
      List.nil_sublist _⟩
  | cons id rest ih =>
    have hskip {t : Selection} (ht : SelectSpec host edges choices skip ctx rest t) :
        SelectSpec host edges choices skip ctx (id :: rest) t :=
      ⟨ht.runnable, fun i hi => ⟨List.mem_cons_of_mem _ (ht.dropped i hi).1, (ht.dropped i hi).2⟩,
        ht.sublist.cons id⟩
    have hmap {f : Selection → Selection}
        (h : (select host edges choices skip ctx rest).map f = .ok s) :
        ∃ t, SelectSpec host edges choices skip ctx rest t ∧ f t = s := by
      cases hsel : select host edges choices skip ctx rest with
      | error e => simp [hsel, Except.map] at h
      | ok t =>
        rw [hsel] at h
        exact ⟨t, ih hsel, Except.ok.inj h⟩
    rw [select] at h
    split at h
    · exact hskip (ih h)
    · rename_i hnot
      have hnot' : id ∉ skip := by simpa using hnot
      split at h
      · obtain ⟨t, ht, rfl⟩ := hmap h
        have hs := hskip ht
        exact ⟨hs.runnable, hs.dropped, hs.sublist⟩
      · split at h
        · cases h
        · rename_i he
          obtain ⟨t, ht, rfl⟩ := hmap h
          refine ⟨fun i hi => ?_, (hskip ht).dropped, ht.sublist.cons_cons id⟩
          cases List.mem_cons.mp hi with
          | inl hi => exact hi ▸ ⟨hnot', he⟩
          | inr hi => exact ht.runnable i hi
        · rename_i he
          obtain ⟨t, ht, rfl⟩ := hmap h
          refine ⟨ht.runnable, fun i hi => ?_, ht.sublist.cons id⟩
          cases List.mem_cons.mp hi with
          | inl hi =>
            subst hi
            exact ⟨List.mem_cons_self, he⟩
          | inr hi => exact (hskip ht).dropped i hi

theorem spawnTasks_sublist (host : Host) (nodes : List NodeDef) (executors : NodeExecutorRegistry)
    (ids : List Text) :
    ((spawnTasks host nodes executors ids).1.map Prod.fst).Sublist ids := by
  induction ids with
  | nil => exact List.Sublist.refl _
  | cons id rest ih =>
    rw [spawnTasks]
    split
    · exact List.nil_sublist _
    · split
      · exact List.nil_sublist _
      · exact ih.cons_cons id

/-- Collecting a task merges its result, or leaves the context. -/
theorem collect_cases (host : Host) (c : Collection) (nodeId : Text) (ended : List Outcome) :
    ((c.collect host nodeId ended).ctx = c.ctx ∧
      (c.collect host nodeId ended).merged = c.merged) ∨
    ∃ result : NodeResult, (c.collect host nodeId ended).ctx = c.ctx.merge nodeId result ∧
      (c.collect host nodeId ended).merged = c.merged ++ [(nodeId, result.state)] := by
  simp only [Collection.collect]
  cases joinTask ended with
  | panicked message => exact Or.inl ⟨rfl, rfl⟩
  | returned result error =>
    cases error with
    | some e => cases result <;> exact Or.inl ⟨rfl, rfl⟩
    | none =>
      cases result with
      | none => exact Or.inl ⟨rfl, rfl⟩
      | some result => exact Or.inr ⟨result, rfl, rfl⟩

/-- What a level's tasks do to the context. -/
structure CollectSpec (ctx : WorkflowContext) (ids : List Text) (c : Collection) : Prop where
  collected : ∀ e ∈ c.collected, e.1 ∈ ids
  frame : ∀ id, id ∉ ids → c.ctx.stateOf id = ctx.stateOf id
  merged : ∀ m ∈ c.merged, m.1 ∈ ids ∧ c.ctx.stateOf m.1 = some m.2
  identity : c.ctx.identity = ctx.identity

theorem collectSpec_collect {base : WorkflowContext} {ids : List Text} {c : Collection}
    (h : CollectSpec base ids c) {nodeId : Text} (hid : nodeId ∉ ids) (ended : List Outcome) :
    CollectSpec base (ids ++ [nodeId]) (c.collect host nodeId ended) := by
  have hcollected : ∀ e ∈ (c.collect host nodeId ended).collected, e.1 ∈ ids ++ [nodeId] := by
    intro e he
    cases List.mem_append.mp he with
    | inl he => exact List.mem_append_left _ (h.collected e he)
    | inr he => exact List.mem_append_right _ (by simp [List.mem_singleton.mp he])
  have hframe (id : Text) (hn : id ∉ ids ++ [nodeId]) : id ∉ ids ∧ id ≠ nodeId := by
    simpa using hn
  cases collect_cases host c nodeId ended with
  | inl hc =>
    obtain ⟨hctx, hmerged⟩ := hc
    refine ⟨hcollected, fun id hn => ?_, fun m hm => ?_, ?_⟩
    · rw [hctx]
      exact h.frame id (hframe id hn).1
    · rw [hmerged] at hm
      rw [hctx]
      exact ⟨List.mem_append_left _ (h.merged m hm).1, (h.merged m hm).2⟩
    · rw [hctx]
      exact h.identity
  | inr hc =>
    obtain ⟨result, hctx, hmerged⟩ := hc
    refine ⟨hcollected, fun id hn => ?_, fun m hm => ?_, ?_⟩
    · rw [hctx, stateOf_merge, if_neg (hframe id hn).2]
      exact h.frame id (hframe id hn).1
    · rw [hmerged] at hm
      rw [hctx, stateOf_merge]
      cases List.mem_append.mp hm with
      | inl hm =>
        have hne : m.1 ≠ nodeId := fun he => hid (he ▸ (h.merged m hm).1)
        rw [if_neg hne]
        exact ⟨List.mem_append_left _ (h.merged m hm).1, (h.merged m hm).2⟩
      | inr hm => simp [List.mem_singleton.mp hm]
    · rw [hctx, merge_identity]
      exact h.identity

theorem collectSpec_collectTasks {base : WorkflowContext} {tasks : List Task} {ids : List Text}
    {c : Collection} (h : CollectSpec base ids c) (hn : (ids ++ tasks.map Prod.fst).Nodup) :
    CollectSpec base (ids ++ tasks.map Prod.fst)
      (collectTasks host choices context ctx tasks c) := by
  induction tasks generalizing ids c with
  | nil => simpa [collectTasks] using h
  | cons task tasks ih =>
    have hassoc : ids ++ (task :: tasks).map Prod.fst =
        ids ++ [task.1] ++ tasks.map Prod.fst := by simp
    rw [hassoc] at hn ⊢
    have hid : task.1 ∉ ids := fun hmem =>
      (List.nodup_append.mp (List.nodup_append.mp hn).1).2.2 _ hmem _ (by simp) rfl
    exact ih (collectSpec_collect h hid _) hn

/-- Everything that a level does. -/
structure LevelSpec (host : Host) (sched : Schedule) (choices : Choices) (ctx : WorkflowContext)
    (level : List Text) (r : LevelRun) : Prop where
  executed : ∀ e ∈ r.trace.executed, e.1 ∈ level ∧ e.1 ∉ sched.skip ∧
    evalEdgeConditions host sched.edges (choices.conditionOrder e.1) e.1 ctx = .ok true
  dropped : ∀ id ∈ r.trace.dropped, id ∈ level ∧
    evalEdgeConditions host sched.edges (choices.conditionOrder id) id ctx = .ok false
  frame : ∀ id, id ∉ level ∨ id ∈ sched.skip → r.ctx.stateOf id = ctx.stateOf id
  merged : ∀ m ∈ r.trace.merged, m.1 ∈ level ∧ r.ctx.stateOf m.1 = some m.2
  given : r.trace.ctx = ctx
  identity : r.ctx.identity = ctx.identity

theorem runLevel_levelSpec (sched : Schedule) {level : List Text} (hn : level.Nodup) :
    LevelSpec host sched choices ctx level (runLevel host sched choices ctx level) := by
  simp only [runLevel]
  split
  · exact ⟨by simp [LevelTrace.executed], by simp, fun _ _ => rfl, by simp, rfl, rfl⟩
  · rename_i s hsel
    have hs := select_spec hsel
    split
    · exact ⟨by simp [LevelTrace.executed], hs.dropped, fun _ _ => rfl, by simp, rfl, rfl⟩
    · have hsub := spawnTasks_sublist host sched.nodes sched.executors s.runnable
      split
      · rename_i tasks e htasks
        rw [htasks] at hsub
        refine ⟨fun t ht => ?_, hs.dropped, fun _ _ => rfl, by simp, rfl, rfl⟩
        have hmem : t.1 ∈ tasks.map Prod.fst := by
          simp only [LevelTrace.executed, List.append_nil] at ht
          obtain ⟨task, hin, rfl⟩ := List.mem_map.mp ht
          exact List.mem_map_of_mem hin
        have hrun := hsub.subset hmem
        exact ⟨hs.sublist.subset hrun, hs.runnable _ hrun⟩
      · rename_i tasks htasks
        rw [htasks] at hsub
        have hperm := (choices.finishing.perm tasks).map Prod.fst
        have hnodup : ([] ++ (choices.finishing.arrange tasks).map Prod.fst).Nodup :=
          hperm.nodup_iff.mpr (hn.sublist (hsub.trans hs.sublist))
        have hstart : CollectSpec ctx [] ⟨ctx, none, [], []⟩ :=
          ⟨by simp, fun _ _ => rfl, by simp, rfl⟩
        have hc : CollectSpec ctx ([] ++ (choices.finishing.arrange tasks).map Prod.fst)
            (collectTasks host choices (buildExecutorContext choices.contextOrder ctx) ctx
              (choices.finishing.arrange tasks) ⟨ctx, none, [], []⟩) :=
          collectSpec_collectTasks hstart hnodup
        have hrun {id : Text} (hid : id ∈ [] ++ (choices.finishing.arrange tasks).map Prod.fst) :
            id ∈ s.runnable := hsub.subset (hperm.mem_iff.mp hid)
        refine ⟨fun e he => ?_, hs.dropped, fun id hid => hc.frame id fun hmem => ?_,
          fun m hm => ⟨hs.sublist.subset (hrun (hc.merged m hm).1), (hc.merged m hm).2⟩,
          rfl, hc.identity⟩
        · have hmem := hrun (hc.collected e (by simpa [LevelTrace.executed] using he))
          exact ⟨hs.sublist.subset hmem, hs.runnable _ hmem⟩
        · cases hid with
          | inl hnot => exact hnot (hs.sublist.subset (hrun hmem))
          | inr hskip => exact (hs.runnable id (hrun hmem)).1 hskip

end Level

/-! Small inputs. -/

/-- Without numbers, and with plain names only. -/
def plainHost : Host where
  F := Unit
  zero := ()
  cmp _ _ := .eq
  parse _ := none
  asF64 _ := none
  print _ := []
  debug s := '"' :: s ++ ['"']
  resolveItemsList _ _ := .ok []

/-- Maps keep their order, and nothing is late. -/
def plainChoices : Choices := ⟨fun _ => .stored, .stored, .stored, fun _ _ => none, fun _ => none⟩

end NemesisBot.Engine

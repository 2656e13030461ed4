import NemesisBot.Workflow.Scheduler

/-! The order of a schedule: no node runs twice, none runs before the nodes that precede it, and a
schedule that completes with no node waiting has left none out. -/
namespace NemesisBot.Engine
open Strings Cycles

/-- The level is through with the node: its conditions drop it, or its result is merged. -/
def LevelTrace.Settled (level : LevelTrace) (id : Text) : Prop :=
  id ∈ level.dropped ∨ id ∈ level.merged.map Prod.fst

/-- A node runs at its level: the conditions on its edges hold in the context that it is given,
and the nodes before it are skipped or settled. -/
structure Ready (host : Host) (sched : Schedule) (choices : Choices) (before : List LevelTrace)
    (level : LevelTrace) (id : Text) : Prop where
  kept : id ∉ sched.skip
  conditions :
    evalEdgeConditions host sched.edges (choices.conditionOrder id) id level.ctx = .ok true
  preceded : ∀ a, Precedes sched.nodes sched.edges a id →
    a ∈ sched.skip ∨ ∃ b ∈ before, b.Settled a

structure InOrder (host : Host) (sched : Schedule) (choices : Nat → Choices) (run : ScheduleRun) :
    Prop where
  once : ((run.trace.flatMap LevelTrace.executed).map Prod.fst).Nodup
  ready : ∀ before level after, run.trace = before ++ level :: after → ∀ e ∈ level.executed,
    Ready host sched (choices before.length) before level e.1
  seen : ∀ before level after, run.trace = before ++ level :: after → ∀ b ∈ before,
    ∀ m ∈ b.merged, m.2 ≠ .waiting ∧ level.ctx.stateOf m.1 = some m.2
  complete : run.result = .ok .completed → anyWaiting run.ctx.nodeResults = false →
    ∀ n ∈ sched.nodes, n.id ∈ sched.skip ∨ ∃ b ∈ run.trace, b.Settled n.id

/-! What a level does with each of its nodes. -/

theorem anyWaiting_of_stateOf {ctx : WorkflowContext} {id : Text}
    (h : ctx.stateOf id = some .waiting) : anyWaiting ctx.nodeResults = true := by
  obtain ⟨result, hresult, hstate⟩ := Option.map_eq_some_iff.mp h
  obtain ⟨front, back, hsplit, _⟩ := List.lookup_eq_some_iff.mp hresult
  refine List.any_eq_true.mpr ⟨(id, result), ?_, by simp [hstate]⟩
  rw [hsplit]
  simp

section Level
variable {host : Host} {sched : Schedule} {edges : List Edge} {choices : Choices}
  {skip : List Text} {context : Fields} {ctx : WorkflowContext} {level : List Text}

structure SelectCovers (skip : List Text) (ctx : WorkflowContext) (level : List Text)
    (s : Selection) : Prop where
  each : ∀ id ∈ level, id ∈ skip ∨ ctx.stateOf id = some .waiting ∨ id ∈ s.runnable ∨
    id ∈ s.dropped
  paused : s.paused = true → ∃ id ∈ level, ctx.stateOf id = some .waiting
  unpaused : s.paused = false → ∀ id ∈ level, id ∉ skip → ctx.stateOf id ≠ some .waiting

theorem SelectCovers.cons {s t : Selection} {id : Text} (h : SelectCovers skip ctx level t)
    (hrun : ∀ i ∈ t.runnable, i ∈ s.runnable) (hdrop : ∀ i ∈ t.dropped, i ∈ s.dropped)
    (hpaused : s.paused = t.paused) (hw : id ∈ skip ∨ ctx.stateOf id ≠ some .waiting)
    (hid : id ∈ skip ∨ id ∈ s.runnable ∨ id ∈ s.dropped) :
    SelectCovers skip ctx (id :: level) s := by
  refine ⟨fun i hi => ?_, fun hp => ?_, fun hp i hi hskip => ?_⟩
  · cases List.mem_cons.mp hi with
    | inl hi => exact hi ▸ hid.imp_right Or.inr
    | inr hi => exact (h.each i hi).imp_right (Or.imp_right (Or.imp (hrun i) (hdrop i)))
  · obtain ⟨i, hi, hstate⟩ := h.paused (hpaused ▸ hp)
    exact ⟨i, List.mem_cons_of_mem _ hi, hstate⟩
  · cases List.mem_cons.mp hi with
    | inl hi => exact hi ▸ hw.resolve_left (hi ▸ hskip)
    | inr hi => exact h.unpaused (hpaused ▸ hp) i hi hskip

theorem select_covers {s : Selection}
    (h : select host edges choices skip ctx level = .ok s) : SelectCovers skip ctx level s := by
  induction level generalizing s with
  | nil =>
    obtain rfl := Except.ok.inj h
    exact ⟨by simp, by simp, by simp⟩
  | cons id rest ih =>
    have hmap {f : Selection → Selection}
        (h : (select host edges choices skip ctx rest).map f = .ok s) :
        ∃ t, SelectCovers skip ctx rest t ∧ f t = s := by
      cases hsel : select host edges choices skip ctx rest with
      | error e => simp [hsel, Except.map] at h
      | ok t =>
        rw [hsel] at h
        exact ⟨t, ih hsel, Except.ok.inj h⟩
    rw [select] at h
    split at h
    · rename_i hskip
      have hin : id ∈ skip := by simpa using hskip
      exact (ih h).cons (fun _ hi => hi) (fun _ hi => hi) rfl (.inl hin) (.inl hin)
    · rename_i hnot
      have hout : id ∉ skip := by simpa using hnot
      split at h
      · rename_i hwaiting
        obtain ⟨t, ht, rfl⟩ := hmap h
        refine ⟨fun i hi => ?_, fun _ => ⟨id, List.mem_cons_self, hwaiting⟩, fun hp => by cases hp⟩
        cases List.mem_cons.mp hi with
        | inl hi => exact hi ▸ Or.inr (Or.inl hwaiting)
        | inr hi => exact ht.each i hi
      · rename_i hwaiting
        split at h
        · cases h
        · obtain ⟨t, ht, rfl⟩ := hmap h
          exact ht.cons (fun _ hi => List.mem_cons_of_mem _ hi) (fun _ hi => hi) rfl
            (.inr hwaiting) (.inr (.inl List.mem_cons_self))
        · obtain ⟨t, ht, rfl⟩ := hmap h
          exact ht.cons (fun _ hi => hi) (fun _ hi => List.mem_cons_of_mem _ hi) rfl
            (.inr hwaiting) (.inr (.inr List.mem_cons_self))

theorem spawnTasks_all {nodes : List NodeDef} {executors : NodeExecutorRegistry}
    {ids : List Text} (h : (spawnTasks host nodes executors ids).2 = none) :
    (spawnTasks host nodes executors ids).1.map Prod.fst = ids := by
  induction ids with
  | nil => rfl
  | cons id rest ih =>
    rw [spawnTasks] at h ⊢
    split at h
    · cases h
    · split at h
      · cases h
      · rw [List.map_cons, ih h]

theorem collectTasks_collected (tasks : List Task) (c : Collection) :
    (collectTasks host choices context ctx tasks c).collected.map Prod.fst =
      c.collected.map Prod.fst ++ tasks.map Prod.fst := by
  induction tasks generalizing c with
  | nil => simp [collectTasks]
  | cons task tasks ih => simp [collectTasks, ih, Collection.collect]

/-- Without an error every collected task has its result merged. -/
def Collection.AllMerged (c : Collection) : Prop :=
  c.firstErr = none → c.merged.map Prod.fst = c.collected.map Prod.fst

theorem allMerged_collect {c : Collection} (h : c.AllMerged) (nodeId : Text)
    (ended : List Outcome) : (c.collect host nodeId ended).AllMerged := by
  have hfail (message : Text) : (c.fail message).firstErr ≠ none := by
    cases hc : c.firstErr <;> simp [Collection.fail, hc]
  simp only [Collection.AllMerged, Collection.collect]
  intro hnone
  cases hj : joinTask ended with
  | panicked message =>
    rw [hj] at hnone
    exact absurd hnone (hfail _)
  | returned result error =>
    rw [hj] at hnone
    cases error with
    | some e => cases result <;> exact absurd hnone (hfail _)
    | none =>
      cases result with
      | none => exact absurd hnone (hfail _)
      | some result => simp [Collection.add, h hnone]

theorem allMerged_collectTasks (tasks : List Task) {c : Collection} (h : c.AllMerged) :
    (collectTasks host choices context ctx tasks c).AllMerged := by
  induction tasks generalizing c with
  | nil => exact h
  | cons task tasks ih => exact ih (allMerged_collect h _ _)

theorem collectTasks_spec {tasks : List Task} (hn : (tasks.map Prod.fst).Nodup) :
    CollectSpec ctx (tasks.map Prod.fst)
      (collectTasks host choices context ctx tasks ⟨ctx, none, [], []⟩) := by
  have hstart : CollectSpec ctx [] ⟨ctx, none, [], []⟩ :=
    ⟨by simp, fun _ _ => rfl, by simp, rfl⟩
  simpa using collectSpec_collectTasks hstart (by simpa using hn)

theorem runLevel_once (hn : level.Nodup) :
    ((runLevel host sched choices ctx level).trace.executed.map Prod.fst).Nodup := by
  simp only [runLevel]
  split
  · simp [LevelTrace.executed]
  · rename_i s hsel
    have hs := select_spec hsel
    split
    · simp [LevelTrace.executed]
    · have hsub := spawnTasks_sublist host sched.nodes sched.executors s.runnable
      split
      · rename_i tasks e htasks
        rw [htasks] at hsub
        have hnodup := hn.sublist (hsub.trans hs.sublist)
        simpa [LevelTrace.executed, Function.comp_def] using hnodup
      · rename_i tasks htasks
        rw [htasks] at hsub
        have hperm := (choices.finishing.perm tasks).map Prod.fst
        rw [LevelTrace.executed, List.nil_append, collectTasks_collected]
        exact hperm.nodup_iff.mpr (hn.sublist (hsub.trans hs.sublist))

/-- A level after which the schedule goes on is through with all of its nodes. -/
theorem runLevel_next (hn : level.Nodup)
    (h : (runLevel host sched choices ctx level).ending = .next) :
    (∀ id ∈ level, id ∈ sched.skip ∨ (runLevel host sched choices ctx level).trace.Settled id) ∧
    ∀ m ∈ (runLevel host sched choices ctx level).trace.merged, m.2 ≠ .waiting := by
  have hspec : LevelSpec host sched choices ctx level (runLevel host sched choices ctx level) :=
    runLevel_levelSpec sched hn
  simp only [runLevel] at h hspec ⊢
  split at h
  · cases h
  · rename_i s hsel
    have hs := select_covers hsel
    split at h
    · rename_i hnone
      cases hp : s.paused with
      | true => simp [hp] at h
      | false =>
        refine ⟨fun id hid => ?_, by simp [hnone]⟩
        rw [if_pos hnone]
        by_cases hskip : id ∈ sched.skip
        · exact .inl hskip
        · have hdrop := ((hs.each id hid).resolve_left hskip).resolve_left
            (hs.unpaused hp id hid hskip)
          rw [hnone] at hdrop
          exact .inr (.inl (hdrop.resolve_left List.not_mem_nil))
    · rename_i hsome
      rw [if_neg hsome]
      split at h
      · cases h
      · rename_i tasks htasks
        simp only [hsel, if_neg hsome, htasks] at h hspec ⊢
        have hall := spawnTasks_all (congrArg Prod.snd htasks)
        rw [htasks] at hall
        have hmem (id : Text) : id ∈ (choices.finishing.arrange tasks).map Prod.fst ↔
            id ∈ s.runnable := by
          rw [((choices.finishing.perm tasks).map Prod.fst).mem_iff, hall]
        have hnodup : ((choices.finishing.arrange tasks).map Prod.fst).Nodup := by
          rw [((choices.finishing.perm tasks).map Prod.fst).nodup_iff, hall]
          exact hn.sublist (select_spec hsel).sublist
        have hc : CollectSpec ctx ((choices.finishing.arrange tasks).map Prod.fst)
            (collectTasks host choices (buildExecutorContext choices.contextOrder ctx) ctx
              (choices.finishing.arrange tasks) ⟨ctx, none, [], []⟩) := collectTasks_spec hnodup
        generalize hcol : collectTasks host choices (buildExecutorContext choices.contextOrder ctx)
          ctx (choices.finishing.arrange tasks) ⟨ctx, none, [], []⟩ = c at h hspec hc ⊢
        cases herr : c.firstErr with
        | some e => simp [herr] at h
        | none =>
          cases hw : anyWaiting c.ctx.nodeResults with
          | true => simp [herr, hw] at h
          | false =>
            have hawake (id : Text) : c.ctx.stateOf id ≠ some .waiting := fun hstate => by
              rw [anyWaiting_of_stateOf hstate] at hw
              cases hw
            have hmerged : c.merged.map Prod.fst =
                (choices.finishing.arrange tasks).map Prod.fst := by
              have hall : c.AllMerged := hcol ▸ allMerged_collectTasks _ fun _ => rfl
              rw [hall herr, ← hcol, collectTasks_collected, List.map_nil, List.nil_append]
            refine ⟨fun id hid => ?_, fun m hm hstate => ?_⟩
            · refine (hs.each id hid).imp_right fun hrest => ?_
              by_cases hrun : id ∈ s.runnable
              · exact .inr (hmerged ▸ (hmem id).mpr hrun)
              · cases hrest with
                | inl hwaiting =>
                  have hkept := hc.frame id fun hin => hrun ((hmem id).mp hin)
                  exact absurd (hkept.trans hwaiting) (hawake id)
                | inr hrest => exact .inl (hrest.resolve_left hrun)
            · exact hawake m.1 (hstate ▸ (hspec.merged m hm).2)

theorem runLevel_completed {result : ScheduleOutcome}
    (h : (runLevel host sched choices ctx level).ending = .stop (.ok result)) :
    anyWaiting (runLevel host sched choices ctx level).ctx.nodeResults = true := by
  simp only [runLevel] at h ⊢
  split at h
  · cases h
  · rename_i s hsel
    split at h
    · rename_i hnone
      cases hp : s.paused with
      | false => simp [hp] at h
      | true =>
        obtain ⟨id, _, hstate⟩ := (select_covers hsel).paused hp
        rw [if_pos hnone]
        exact anyWaiting_of_stateOf hstate
    · rename_i hsome
      rw [if_neg hsome]
      split at h
      · cases h
      · rename_i tasks htasks
        dsimp only at h ⊢
        split at h
        · cases h
        · split at h
          · assumption
          · cases h

end Level

/-! The levels one after the other. -/

section Levels
variable {host : Host} {sched : Schedule} {choices : Nat → Choices} {k : Nat}
  {ctx : WorkflowContext} {levels : List (List Text)}

theorem runLevels_executed (hn : levels.flatten.Nodup) :
    (((runLevels host sched choices k ctx levels).trace.flatMap LevelTrace.executed).map
      Prod.fst).Nodup ∧
    ∀ e ∈ (runLevels host sched choices k ctx levels).trace.flatMap LevelTrace.executed,
      e.1 ∈ levels.flatten := by
  induction levels generalizing k ctx with
  | nil => simp [runLevels]
  | cons level rest ih =>
    rw [List.flatten_cons] at hn ⊢
    obtain ⟨hlevel, hrest, hapart⟩ := List.nodup_append.mp hn
    have honce : ((runLevel host sched (choices k) ctx level).trace.executed.map
        Prod.fst).Nodup := runLevel_once hlevel
    have hin : LevelSpec host sched (choices k) ctx level
        (runLevel host sched (choices k) ctx level) := runLevel_levelSpec sched hlevel
    rw [runLevels]
    split
    · simp only [List.flatMap_cons, List.flatMap_nil, List.append_nil]
      exact ⟨honce, fun e he => List.mem_append_left _ (hin.executed e he).1⟩
    · obtain ⟨hlater, hwhere⟩ := @ih (k + 1) (runLevel host sched (choices k) ctx level).ctx hrest
      simp only [List.flatMap_cons, List.map_append]
      refine ⟨List.nodup_append.mpr ⟨honce, hlater, fun a ha b hb => ?_⟩, fun e he => ?_⟩
      · obtain ⟨e, he, rfl⟩ := List.mem_map.mp ha
        obtain ⟨e', he', rfl⟩ := List.mem_map.mp hb
        exact hapart _ (hin.executed e he).1 _ (hwhere e' he')
      · cases List.mem_append.mp he with
        | inl he => exact List.mem_append_left _ (hin.executed e he).1
        | inr he => exact List.mem_append_right _ (hwhere e he)

/-- Where a level of the trace stands among the levels, and what the levels before it left. -/
structure Placed (host : Host) (sched : Schedule) (choices : Choices) (ctx : WorkflowContext)
    (before : List LevelTrace) (level : LevelTrace) (front : List (List Text))
    (here : List Text) : Prop where
  trace : level = (runLevel host sched choices level.ctx here).trace
  settled : ∀ id ∈ front.flatten, id ∈ sched.skip ∨ ∃ b ∈ before, b.Settled id
  frame : ∀ id ∉ front.flatten, level.ctx.stateOf id = ctx.stateOf id
  seen : ∀ b ∈ before, ∀ m ∈ b.merged, m.1 ∈ front.flatten ∧ m.2 ≠ .waiting ∧
    level.ctx.stateOf m.1 = some m.2

theorem runLevels_placed (hn : levels.flatten.Nodup) {before after : List LevelTrace}
    {level : LevelTrace}
    (h : (runLevels host sched choices k ctx levels).trace = before ++ level :: after) :
    ∃ front here back, levels = front ++ here :: back ∧
      Placed host sched (choices (k + before.length)) ctx before level front here := by
  induction levels generalizing k ctx before with
  | nil => simp [runLevels] at h
  | cons first rest ih =>
    rw [List.flatten_cons] at hn
    obtain ⟨hfirst, hrest, hapart⟩ := List.nodup_append.mp hn
    have hspec : LevelSpec host sched (choices k) ctx first
        (runLevel host sched (choices k) ctx first) := runLevel_levelSpec sched hfirst
    have hhead (hl : level = (runLevel host sched (choices k) ctx first).trace) :
        Placed host sched (choices k) ctx [] level [] first := by
      have hgiven : level.ctx = ctx := hl ▸ hspec.given
      exact ⟨by rw [hgiven, hl], by simp, fun _ _ => by rw [hgiven], by simp⟩
    rw [runLevels] at h
    split at h
    · cases before with
      | nil => exact ⟨[], first, rest, rfl, hhead (List.cons.inj h).1.symm⟩
      | cons b before => simp at h
    · rename_i hnext
      cases before with
      | nil => exact ⟨[], first, rest, rfl, hhead (List.cons.inj h).1.symm⟩
      | cons b before =>
        obtain ⟨rfl, hlater⟩ := List.cons.inj h
        obtain ⟨front, here, back, rfl, hp⟩ := ih hrest hlater
        obtain ⟨hdone, hawake⟩ := runLevel_next hfirst hnext
        have hk : k + 1 + before.length = k + (before.length + 1) := by omega
        have hout {id : Text} (hid : id ∈ first) : id ∉ front.flatten := fun hf =>
          hapart id hid id (by simp [hf]) rfl
        rw [hk] at hp
        refine ⟨first :: front, here, back, rfl, hp.trace, fun id hid => ?_, fun id hid => ?_,
          fun b hb m hm => ?_⟩
        · rw [List.flatten_cons] at hid
          cases List.mem_append.mp hid with
          | inl hid => exact (hdone id hid).imp_right fun h => ⟨_, List.mem_cons_self, h⟩
          | inr hid =>
            refine (hp.settled id hid).imp_right fun hb => ?_
            obtain ⟨b, hb, hs⟩ := hb
            exact ⟨b, List.mem_cons_of_mem _ hb, hs⟩
        · rw [List.flatten_cons, List.mem_append, not_or] at hid
          rw [hp.frame id hid.2, hspec.frame id (.inl hid.1)]
        · cases List.mem_cons.mp hb with
          | inl hb =>
            subst hb
            obtain ⟨hin, hstate⟩ := hspec.merged m hm
            exact ⟨by simp [hin], hawake m hm, (hp.frame m.1 (hout hin)).trans hstate⟩
          | inr hb =>
            obtain ⟨hin, hm⟩ := hp.seen b hb m hm
            exact ⟨by simp [hin], hm⟩

theorem runLevels_complete (hn : levels.flatten.Nodup)
    (hdone : (runLevels host sched choices k ctx levels).result = .ok .completed)
    (hawake : anyWaiting (runLevels host sched choices k ctx levels).ctx.nodeResults = false) :
    ∀ id ∈ levels.flatten, id ∈ sched.skip ∨
      ∃ b ∈ (runLevels host sched choices k ctx levels).trace, b.Settled id := by
  induction levels generalizing k ctx with
  | nil => simp
  | cons first rest ih =>
    rw [List.flatten_cons] at hn
    obtain ⟨hfirst, hrest, _⟩ := List.nodup_append.mp hn
    rw [runLevels] at hdone hawake ⊢
    split at hdone
    · rename_i result hend
      obtain rfl : result = .ok .completed := hdone
      have hpaused := runLevel_completed hend
      rw [hend] at hawake
      exact absurd hpaused (by simp [hawake])
    · rename_i hnext
      rw [hnext] at hawake
      intro id hid
      rw [List.flatten_cons] at hid
      cases List.mem_append.mp hid with
      | inl hid =>
        exact ((runLevel_next hfirst hnext).1 id hid).imp_right fun h =>
          ⟨_, List.mem_cons_self, h⟩
      | inr hid =>
        refine (ih hrest hdone hawake id hid).imp_right fun hb => ?_
        obtain ⟨b, hb, hs⟩ := hb
        exact ⟨b, List.mem_cons_of_mem _ hb, hs⟩

end Levels

/-! The levels of a declared workflow. -/

theorem Declared.sorted {nodes : List NodeDef} {edges : List Edge} (h : Declared nodes edges)
    {order : Arrangement} {levels : List (List Text)}
    (hsort : topologicalSort order nodes edges = .ok levels) :
    levels.flatten.Perm (nodes.map NodeDef.id) ∧
      ∀ a b, Precedes nodes edges a b → Before levels a b := by
  obtain ⟨⟨stuck, hstuck, _⟩, hordered⟩ := h.drained order
  simp only [topologicalSort] at hsort
  split at hsort
  · cases hsort
  · rename_i hlen
    obtain rfl := Except.ok.inj hsort
    rw [not_not, h.nodup.dedup, hstuck.length_eq, List.length_append] at hlen
    obtain rfl : stuck = [] := List.length_eq_zero_iff.mp (by omega)
    rw [List.append_nil] at hstuck
    refine ⟨hstuck.symm, fun a b hab => ?_⟩
    obtain ⟨ha, hb⟩ := h.arcs (a, b) (mem_arcs.mpr hab)
    exact hordered a ha b (mem_neighbors.mpr hab) (hstuck.mem_iff.mp hb)

/-- Whatever the executors, the timeouts and the orders of the maps and of the tasks are, a declared
workflow runs in order. -/
theorem schedule_in_order (host : Host) {sched : Schedule}
    (h : Declared sched.nodes sched.edges) (order : Arrangement) (choices : Nat → Choices)
    (ctx : WorkflowContext) :
    InOrder host sched choices (scheduleInner host sched order choices ctx) := by
  rw [scheduleInner]
  split
  · exact ⟨by simp, by simp, by simp, by simp⟩
  · rename_i levels hsort
    obtain ⟨hperm, hbefore⟩ := h.sorted hsort
    have hn : levels.flatten.Nodup := hperm.nodup_iff.mpr h.nodup
    refine ⟨(runLevels_executed hn).1, fun before level after hsplit e he => ?_,
      fun before level after hsplit b hb m hm => ?_, fun hdone hawake n hnode => ?_⟩
    · obtain ⟨front, here, back, rfl, hp⟩ := runLevels_placed hn hsplit
      have hhere : here.Nodup := by
        rw [List.flatten_append, List.flatten_cons] at hn
        exact (List.nodup_append.mp (List.nodup_append.mp hn).2.1).1
      rw [Nat.zero_add] at hp
      have hspec : LevelSpec host sched (choices before.length) level.ctx here _ :=
        runLevel_levelSpec sched hhere
      obtain ⟨hin, hskip, hcond⟩ := hspec.executed e (hp.trace ▸ he)
      exact ⟨hskip, hcond, fun a ha => hp.settled a ((hbefore a e.1 ha).mem_front hn hin)⟩
    · obtain ⟨front, here, back, rfl, hp⟩ := runLevels_placed hn hsplit
      exact (hp.seen b hb m hm).2
    · exact runLevels_complete hn hdone hawake n.id
        (hperm.mem_iff.mpr (List.mem_map_of_mem hnode))

/-- `b` after `a`, and `c` behind a condition that does not hold. -/
def forked : Schedule where
  nodes := [⟨"b".toList, "step".toList, [], ["a".toList], 0⟩,
    ⟨"a".toList, "step".toList, [], [], 0⟩, ⟨"c".toList, "step".toList, [], [], 0⟩]
  edges := [⟨"a".toList, "c".toList, some "false".toList⟩]
  executors _ := some fun node _ _ _ => .ok (nodeResult node .null none .completed)
  skip := []

theorem schedule_in_order_forked :
    let run := scheduleInner plainHost forked .stored (fun _ => plainChoices) (.new [])
    (run.trace.map fun level => (level.executed.map Prod.fst, level.dropped)) =
      [(["a".toList], []), (["b".toList], ["c".toList])] ∧
    InOrder plainHost forked (fun _ => plainChoices) run :=
  ⟨by decide +kernel, schedule_in_order plainHost ⟨by decide, by decide, by decide⟩ .stored
    (fun _ => plainChoices) (.new [])⟩

end NemesisBot.Engine

import NemesisBot.Taskstore.RunLedger
import NemesisBot.Taskstore.TasksRefine

/-! What the run ledger keeps, however the accesses of its funnels interleave and fail. -/
namespace NemesisBot.Taskstore.Ledger
open Strings Runs

/-- An attempt runs, or has come to its end. -/
def AttemptRow.Sound (a : AttemptRow) : Prop :=
  (a.status = running ∧ a.finishedAt = none) ∨
    (isTerminalStr a.status = true ∧ a.finishedAt.isSome = true)

structure Db.Sound (db : Db) : Prop where
  rows : ∀ r ∈ db.runs.rows, foreign r = true →
    r.status ∈ runStatuses ∧ (r.completedAt.isSome = true ↔ isTerminalStr r.status = true)
  ids : db.attempts.map AttemptRow.id = List.range' 1 db.lastRowid
  seqs : ∀ runId, ((db.attempts.filter fun a => a.runId = runId).map AttemptRow.seq) =
    List.range' 1 (db.attempts.filter fun a => a.runId = runId).length
  attempts : ∀ a ∈ db.attempts, a.Sound

/-- A run of another ledger stays, and once it is final keeps its status and its time. -/
structure RowLater (r r' : RunRow) : Prop where
  id : r'.id = r.id
  kind : r'.kind = r.kind
  created : r'.createdAt = r.createdAt
  final : isTerminalStr r.status = true → r'.status = r.status ∧ r'.completedAt = r.completedAt

/-- An attempt stays with its number, and does not change once it is over. -/
structure AttemptLater (a a' : AttemptRow) : Prop where
  id : a'.id = a.id
  runId : a'.runId = a.runId
  seq : a'.seq = a.seq
  done : a.status ≠ running → a' = a

structure Later (db db' : Db) : Prop where
  rows : ∀ r ∈ db.runs.rows, foreign r = true → ∃ r' ∈ db'.runs.rows, RowLater r r'
  attempts : ∀ (i : Nat) a, db.attempts[i]? = some a →
    ∃ a', db'.attempts[i]? = some a' ∧ AttemptLater a a'

theorem RowLater.refl (r : RunRow) : RowLater r r := ⟨rfl, rfl, rfl, fun _ => ⟨rfl, rfl⟩⟩

theorem AttemptLater.refl (a : AttemptRow) : AttemptLater a a := ⟨rfl, rfl, rfl, fun _ => rfl⟩

theorem Later.refl (db : Db) : Later db db :=
  ⟨fun r hr _ => ⟨r, hr, .refl r⟩, fun _ a ha => ⟨a, ha, .refl a⟩⟩

theorem foreign_of_kind {r r' : RunRow} (h : r'.kind = r.kind) : foreign r' = foreign r := by
  rw [foreign, foreign, h]

theorem Later.trans {a b c : Db} (hab : Later a b) (hbc : Later b c) : Later a c := by
  refine ⟨fun r hr hf => ?_, fun i x hx => ?_⟩
  · obtain ⟨r', hr', h⟩ := hab.rows r hr hf
    obtain ⟨r'', hr'', h'⟩ := hbc.rows r' hr' ((foreign_of_kind h.kind).trans hf)
    refine ⟨r'', hr'', h'.id.trans h.id, h'.kind.trans h.kind, h'.created.trans h.created,
      fun hfinal => ?_⟩
    obtain ⟨hstatus, hcompleted⟩ := h.final hfinal
    obtain ⟨hstatus', hcompleted'⟩ := h'.final (hstatus ▸ hfinal)
    exact ⟨hstatus'.trans hstatus, hcompleted'.trans hcompleted⟩
  · obtain ⟨x', hx', h⟩ := hab.attempts i x hx
    obtain ⟨x'', hx'', h'⟩ := hbc.attempts i x' hx'
    refine ⟨x'', hx'', h'.id.trans h.id, h'.runId.trans h.runId, h'.seq.trans h.seq, fun hdone => ?_⟩
    have hsame := h.done hdone
    exact (h'.done (hsame ▸ hdone)).trans hsame

/-- One access keeps the ledger sound and only moves it on. -/
def Moves (db db' : Db) : Prop := db.Sound → db'.Sound ∧ Later db db'

theorem Moves.refl (db : Db) : Moves db db := fun h => ⟨h, .refl db⟩

/-! The four writes. -/

variable {V : Type} {json : JsonText V} {db : Db}

/-- The runs change, and no row of another ledger goes back. -/
theorem Moves.ofRuns {runs : RunTable}
    (hrows : ∀ r ∈ runs.rows, foreign r = true → r ∈ db.runs.rows ∨
      r.status ∈ runStatuses ∧ (r.completedAt.isSome = true ↔ isTerminalStr r.status = true))
    (hlater : ∀ r ∈ db.runs.rows, foreign r = true → ∃ r' ∈ runs.rows, RowLater r r') :
    Moves db { db with runs } := by
  intro h
  refine ⟨⟨fun r hr hf => ?_, h.ids, h.seqs, h.attempts⟩, hlater,
    fun _ a ha => ⟨a, ha, .refl a⟩⟩
  cases hrows r hr hf with
  | inl hr => exact h.rows r hr hf
  | inr hr => exact hr

theorem moves_createRun (runId : Text) (run : NewRun V) (now : Text) :
    Moves db { db with runs := createRunWithId json db.runs runId run now } := by
  obtain ⟨row, hrow, hid, hstatus, hcompleted⟩ : ∃ row, createRunWithId json db.runs runId run now =
      db.runs.insert row ∧ row.id = runId ∧ row.status = pending ∧ row.completedAt = none :=
    ⟨_, rfl, rfl, rfl, rfl⟩
  rw [hrow]
  cases hfind : db.runs.find row.id with
  | some r =>
    rw [Table.insert_of_some hfind]
    exact .refl db
  | none =>
    have hrows := Table.insert_of_none hfind
    refine .ofRuns (fun r hr _ => ?_) fun r hr _ => ⟨r, ?_, .refl r⟩
    · rw [hrows] at hr
      cases List.mem_append.mp hr with
      | inl hr => exact .inl hr
      | inr hr =>
        obtain rfl := List.mem_singleton.mp hr
        rw [hstatus, hcompleted]
        exact .inr ⟨by decide, by decide⟩
    · rw [hrows]
      exact List.mem_append_left _ hr

/-- The statement that sets a status. -/
def Db.setting (db : Db) (runId status now : Text) : Db :=
  let hit := fun r : RunRow => r.id = runId && mayBecome status r
  { db with runs := db.runs.update hit (setStatus status now) }

theorem setRunStatus_cases (db : Db) (runId status now : Text) :
    (setRunStatus db runId status now).2 = db ∨ status ∈ runStatuses ∧
      (setRunStatus db runId status now).2 = db.setting runId status now := by
  rw [setRunStatus]
  split
  · exact .inl rfl
  · rename_i hstatus
    dsimp only
    split
    · exact .inr ⟨not_not.mp hstatus, rfl⟩
    · split
      · exact .inl rfl
      · split <;> exact .inl rfl

/-- A row that may take a status keeps its time when it is final, and gets one when it becomes
so. -/
theorem completed_setStatus {r : RunRow} {status : Text} (now : Text)
    (hmay : mayBecome status r = true)
    (hr : r.completedAt.isSome = true ↔ isTerminalStr r.status = true) :
    ((setStatus status now).set r).completedAt.isSome = true ↔ isTerminalStr status = true := by
  simp only [setStatus]
  by_cases hsame : r.status = status
  · rw [if_neg fun h => h.2 hsame, hr, hsame]
  · simp only [mayBecome, hsame, decide_false, Bool.false_or, Bool.not_eq_true'] at hmay
    by_cases hfinal : isTerminalStr status = true
    · simp [hfinal, hsame]
    · rw [if_neg fun h => hfinal h.1, hr, hmay]
      simp [hfinal]

theorem rowLater_setStatus {r : RunRow} {status : Text} (now : Text)
    (hmay : mayBecome status r = true) : RowLater r ((setStatus status now).set r) := by
  refine ⟨rfl, rfl, rfl, fun hfinal => ?_⟩
  have hsame : r.status = status := by simpa [mayBecome, hfinal] using hmay
  exact ⟨hsame.symm, if_neg fun h => h.2 hsame⟩

theorem moves_setting (hsound : db.Sound) {runId status now : Text}
    (hstatus : status ∈ runStatuses) : Moves db (db.setting runId status now) := by
  have hmay {r : RunRow} (hhit : (r.id = runId && mayBecome status r) = true) :
      mayBecome status r = true := (Bool.and_eq_true_iff.mp hhit).2
  refine .ofRuns (fun r' hr' hf => ?_) fun r hr _ => ⟨_, Table.mem_update.mpr ⟨r, hr, rfl⟩, ?_⟩
  · obtain ⟨r, hr, rfl⟩ := Table.mem_update.mp hr'
    split
    · rename_i hhit
      rw [if_pos hhit] at hf
      exact .inr ⟨hstatus, completed_setStatus now (hmay hhit) (hsound.rows r hr hf).2⟩
    · exact .inl hr
  · split
    · rename_i hhit
      exact rowLater_setStatus now (hmay hhit)
    · exact .refl r

theorem moves_setRunStatus (runId status now : Text) :
    Moves db (setRunStatus db runId status now).2 := by
  intro h
  cases setRunStatus_cases db runId status now with
  | inl hsame =>
    rw [hsame]
    exact Moves.refl db h
  | inr hset =>
    obtain ⟨hstatus, hset⟩ := hset
    rw [hset]
    exact moves_setting h hstatus h

theorem max_range' (n : Nat) : (List.range' 1 n).max?.getD 0 = n := by
  cases n with
  | zero => rfl
  | succ n =>
    have hmax : (List.range' 1 (n + 1)).max? = some (n + 1) := by
      refine List.max?_eq_some_iff.mpr ⟨?_, fun k hk => ?_⟩
      · simp [List.mem_range'_1]
      · have := List.mem_range'_1.mp hk
        omega
    rw [hmax]
    rfl

theorem nextSeq_eq (h : db.Sound) (runId : Text) :
    nextSeq db runId = (db.attempts.filter fun a => a.runId = runId).length + 1 := by
  rw [nextSeq, h.seqs, max_range']

theorem range'_succ (n : Nat) : List.range' 1 (n + 1) = List.range' 1 n ++ [n + 1] := by
  rw [List.range'_concat]
  simp [Nat.add_comm]

/-- A new attempt comes after all others. -/
def Db.opening (db : Db) (runId worker now : Text) : Db :=
  { db with
    attempts := db.attempts ++
      [⟨db.lastRowid + 1, runId, nextSeq db runId, worker, running, now, none, none, none⟩]
    lastRowid := db.lastRowid + 1 }

theorem beginAttempt_cases (db : Db) (runId worker now : Text) :
    (beginAttempt db runId worker now).2 = db ∨ (∃ r, db.runs.find runId = some r ∧
      isTerminalStr r.status = false) ∧
      (beginAttempt db runId worker now).2 = db.opening runId worker now := by
  rw [beginAttempt]
  split
  · exact .inl rfl
  · rename_i r hr
    split
    · exact .inl rfl
    · rename_i hfinal
      exact .inr ⟨⟨r, hr, by simpa using hfinal⟩, rfl⟩

theorem moves_opening (runId worker now : Text) : Moves db (db.opening runId worker now) := by
  intro h
  refine ⟨⟨h.rows, ?_, fun id => ?_, fun a ha => ?_⟩, fun r hr _ => ⟨r, hr, .refl r⟩,
    fun i a ha => ⟨a, ?_, .refl a⟩⟩
  · rw [Db.opening, List.map_append, h.ids, range'_succ]
    rfl
  · simp only [Db.opening, List.filter_append, List.map_append, List.length_append, h.seqs]
    by_cases hid : runId = id
    · subst hid
      simp [nextSeq_eq h, range'_succ]
    · simp [hid]
  · cases List.mem_append.mp ha with
    | inl ha => exact h.attempts a ha
    | inr ha =>
      obtain rfl := List.mem_singleton.mp ha
      exact .inl ⟨rfl, rfl⟩
  · rw [Db.opening, List.getElem?_append_left (List.getElem?_eq_some_iff.mp ha).1]
    exact ha

theorem moves_beginAttempt (runId worker now : Text) :
    Moves db (beginAttempt db runId worker now).2 := by
  cases beginAttempt_cases db runId worker now with
  | inl h =>
    rw [h]
    exact .refl db
  | inr h =>
    rw [h.2]
    exact moves_opening runId worker now

/-- The statement that closes an attempt. -/
def closing (id : Nat) (status now : Text) (error usage : Option Text) (a : AttemptRow) :
    AttemptRow :=
  if a.id = id && a.status = running then
    { a with status := status, finishedAt := some now, error := error, usageJson := usage }
  else a

theorem finishAttempt_cases (db : Db) (id : Nat) (status now : Text) (error usage : Option Text) :
    (isTerminalStr status = false ∧ (finishAttempt db id status now error usage).2 = db) ∨
    isTerminalStr status = true ∧ (finishAttempt db id status now error usage).2 =
      { db with attempts := db.attempts.map (closing id status now error usage) } := by
  rw [finishAttempt]
  split
  · rename_i hfinal
    exact .inl ⟨by simpa using hfinal, rfl⟩
  · rename_i hfinal
    refine .inr ⟨by simpa using hfinal, ?_⟩
    dsimp only
    split
    · rfl
    · rename_i hnone
      have hsame : db.attempts.map (closing id status now error usage) = db.attempts := by
        refine (List.map_congr_left fun a ha => ?_).trans (List.map_id _)
        exact if_neg fun hhit => hnone (List.any_eq_true.mpr ⟨a, ha, hhit⟩)
      rw [hsame]

theorem closing_later (id : Nat) (status now : Text) (error usage : Option Text)
    (a : AttemptRow) : AttemptLater a (closing id status now error usage a) := by
  rw [closing]
  split
  · rename_i hhit
    refine ⟨rfl, rfl, rfl, fun hno => absurd ?_ hno⟩
    simpa using (Bool.and_eq_true_iff.mp hhit).2
  · exact .refl a

theorem moves_finishAttempt (id : Nat) (status now : Text) (error usage : Option Text) :
    Moves db (finishAttempt db id status now error usage).2 := by
  obtain ⟨_, hsame⟩ | ⟨hfinal, hclosed⟩ := finishAttempt_cases db id status now error usage
  · rw [hsame]
    exact .refl db
  · rw [hclosed]
    intro h
    have hlater := closing_later id status now error usage
    refine ⟨⟨h.rows, ?_, fun runId => ?_, fun a ha => ?_⟩, fun r hr _ => ⟨r, hr, .refl r⟩,
      fun i a ha => ⟨_, ?_, hlater a⟩⟩
    · rw [List.map_map, ← h.ids]
      exact List.map_congr_left fun a _ => (hlater a).id
    · have hfilter : ((db.attempts.map (closing id status now error usage)).filter
          fun a => a.runId = runId) = (db.attempts.filter fun a => a.runId = runId).map
            (closing id status now error usage) := by
        rw [List.filter_map]
        congr 1
        exact List.filter_congr fun a _ => by simp [(hlater a).runId]
      simp only [hfilter, List.map_map, List.length_map]
      rw [← h.seqs]
      exact List.map_congr_left fun a _ => (hlater a).seq
    · obtain ⟨b, hb, rfl⟩ := List.mem_map.mp ha
      rw [closing]
      split
      · exact .inr ⟨hfinal, rfl⟩
      · exact h.attempts b hb
    · rw [List.getElem?_map, ha]
      rfl

/-! The accesses and the runs. -/

theorem moves_exec (todo : Todo V) (ok : Bool) (now : Text) :
    Moves db (todo.exec json db ok now).1 := by
  cases todo with
  | create runId run worker =>
    cases ok with
    | true => exact moves_createRun runId run now
    | false => exact .refl db
  | markRunning runId worker =>
    cases ok with
    | false => exact .refl db
    | true =>
      have hmoves : Moves db _ := moves_setRunStatus runId running now
      simp only [Todo.exec, if_true]
      split
      · rename_i h
        rw [h] at hmoves
        exact hmoves
      · rename_i h
        rw [h] at hmoves
        exact hmoves
  | lookOpen runId worker =>
    rw [Todo.exec]
    split <;> exact .refl db
  | attempt runId worker =>
    cases ok with
    | true => exact moves_beginAttempt runId worker now
    | false => exact .refl db
  | scan runId status error settles => cases ok <;> exact .refl db
  | finish id ids runId status error settles =>
    cases ok with
    | true => exact moves_finishAttempt id status now error none
    | false => exact .refl db
  | settle runId status =>
    cases ok with
    | true => exact moves_setRunStatus runId status now
    | false => exact .refl db
  | listOpen => cases ok <;> exact .refl db

/-- A call of the store names no run of another ledger. -/
def OwnCall (db : RunTable) : Call V → Prop
  | .create task => OwnId db task.id
  | .updateResult id _ _ | .updateResultIfStatus id _ _ _ | .delete id => OwnId db id
  | .get _ | .listByStatus _ | .listAll => True

theorem foreignRows_call {runs : RunTable} {call : Call V} (h : OwnCall runs call)
    (now updated : Text) : foreignRows (sqliteCall json runs now updated call).1 = foreignRows runs := by
  cases call with
  | create task =>
    simp only [sqliteCall, SqliteTaskStore.create]
    split
    · rfl
    · rename_i hnone
      rw [foreignRows, Table.select, Table.insert_of_none hnone, List.filter_append]
      exact List.append_nil _
  | updateResult id status result =>
    simp only [sqliteCall, SqliteTaskStore.updateResult, execute, selects_new, apply_new]
    cases (runs.select (Table.hasKey RunRow.id id)).length with
    | zero => rfl
    | succ n => exact foreignRows_setRow h status result now updated
  | updateResultIfStatus id expected status result =>
    have hbind : (expected.map statusToStr).foldl UpdateBind.pushExtra
        { UpdateBind.new json id status result now updated with
          sql := (UpdateBind.new json id status result now updated).sql.andStatusIn
            expected.length } = bindIf json id expected status result now updated := rfl
    have hset : foreignRows (Table.update runs
        (fun r => decide (r.id = id ∧ r.status ∈ expected.map statusToStr))
        (setRow json status result now updated)) = foreignRows runs :=
      foreignRows_update (fun _ => rfl) fun r hr hin => h r hr (of_decide_eq_true hin).1
    simp only [sqliteCall, SqliteTaskStore.updateResultIfStatus, hbind, execute, selects_bindIf,
      apply_bindIf]
    cases (runs.select fun r => decide (r.id = id ∧ r.status ∈ expected.map statusToStr)).length with
    | zero => cases runs.find id <;> exact hset
    | succ n => exact hset
  | delete id =>
    simp only [sqliteCall, SqliteTaskStore.delete]
    split
    · rfl
    · exact foreignRows_delete h
  | get | listByStatus | listAll => rfl

theorem mem_store {runs : RunTable} (h : foreignRows runs = foreignRows db.runs) {r : RunRow}
    (hf : foreign r = true) : r ∈ runs.rows ↔ r ∈ db.runs.rows := by
  have hmem : r ∈ foreignRows runs ↔ r ∈ foreignRows db.runs := by rw [h]
  rw [foreignRows, foreignRows, Table.mem_select, Table.mem_select] at hmem
  simpa [hf] using hmem

theorem moves_store {runs : RunTable} (h : foreignRows runs = foreignRows db.runs) :
    Moves db { db with runs } :=
  .ofRuns (fun _ hr hf => .inl ((mem_store h hf).mp hr))
    fun r hr hf => ⟨r, (mem_store h hf).mpr hr, .refl r⟩

/-- The store of the cluster tasks keeps to its own rows. -/
def Own (s : State V) : Label V → Prop
  | .store call _ _ => OwnCall s.db.runs call
  | .call _ | .access .. | .restart => True

instance (runs : RunTable) : (call : Call V) → Decidable (OwnCall runs call)
  | .create task => inferInstanceAs (Decidable (OwnId runs task.id))
  | .updateResult id _ _ | .updateResultIfStatus id _ _ _ | .delete id =>
    inferInstanceAs (Decidable (OwnId runs id))
  | .get _ | .listByStatus _ | .listAll => .isTrue trivial

instance (s : State V) : (label : Label V) → Decidable (Own s label)
  | .store call _ _ => inferInstanceAs (Decidable (OwnCall s.db.runs call))
  | .call _ | .access .. | .restart => .isTrue trivial

theorem moves_step {s t : State V} {label : Label V} (hown : Own s label)
    (hs : step json s label = some t) : Moves s.db t.db := by
  cases label with
  | call funnel =>
    obtain rfl := Option.some.inj hs
    exact .refl s.db
  | access i ok now =>
    simp only [step] at hs
    split at hs
    · obtain rfl := Option.some.inj hs
      exact moves_exec _ ok now
    · cases hs
  | store call now updated =>
    obtain rfl := Option.some.inj hs
    exact moves_store (foreignRows_call hown now updated)
  | restart =>
    obtain rfl := Option.some.inj hs
    exact .refl s.db

theorem moves_run {s t : State V} {labels : List (Label V)} (ha : Along (step json) Own s labels)
    (hr : run (step json) s labels = some t) (h : s.db.Sound) : t.db.Sound ∧ Later s.db t.db := by
  have hstep : ∀ a i b, (a : State V).db.Sound ∧ Later s.db a.db → Own a i →
      step json a i = some b → b.db.Sound ∧ Later s.db b.db := fun a i b ha hown hb => by
    obtain ⟨hsound, hlater⟩ := moves_step hown hb ha.1
    exact ⟨hsound, ha.2.trans hlater⟩
  exact run_invariant hstep ⟨h, .refl s.db⟩ ha hr

theorem sound_empty : Db.empty.Sound :=
  ⟨by simp [Db.empty, Table.empty], rfl, fun _ => rfl, by simp [Db.empty]⟩

/-- However the funnels interleave, fail and die, while the store of the cluster tasks keeps to its
own rows: the ledger is sound, and from any state to any later one its final runs and finished
attempts stay as they are. -/
theorem ledger_history {json : JsonText V} {before after : List (Label V)} {s t : State V}
    (hb : Along (step json) Own State.init before) (ha : Along (step json) Own s after)
    (hs : run (step json) State.init before = some s) (ht : run (step json) s after = some t) :
    s.db.Sound ∧ t.db.Sound ∧ Later s.db t.db := by
  obtain ⟨hsound, _⟩ := moves_run hb hs sound_empty
  obtain ⟨hsound', hlater⟩ := moves_run ha ht hsound
  exact ⟨hsound, hsound', hlater⟩

def morning : Text := "2026-11-06T08:00:00+00:00".toList

def evening : Text := "2026-11-06T20:00:00+00:00".toList

def jobRun : Text := "cron_job:1".toList

def accesses (i n : Nat) (now : Text) : List (Label V) := List.replicate n (.access i true now)

/-- A job of the scheduler is fired. -/
def firing : List (Label Bool) :=
  .call (.beginRun jobRun "cron_job".toList "report".toList "scheduler".toList true) ::
    accesses 0 4 morning

/-- A task of the cluster comes in, the gateway dies and sweeps what it has left. -/
def sweeping : List (Label Bool) :=
  [.store (.create plainTask) morning morning, .restart, .call .sweepRestartOrphans] ++
    accesses 0 4 evening

def firedState : State Bool :=
  (run (step boolText) State.init firing).get (by decide +kernel)

def sweptState : State Bool :=
  (run (step boolText) firedState sweeping).get (by decide +kernel)

theorem ledger_history_swept :
    firedState.db.Sound ∧ sweptState.db.Sound ∧ Later firedState.db sweptState.db :=
  have hfired : Along (step boolText) Own State.init firing := by decide +kernel
  have hswept : Along (step boolText) Own firedState sweeping := by decide +kernel
  ledger_history hfired hswept (Option.some_get _).symm (Option.some_get _).symm

/-! Settled runs are idle. -/

def AttemptRow.runsFor (runId : Text) (a : AttemptRow) : Bool := a.runId = runId && a.status = running

/-- What a funnel that is about to settle a run has found of its attempts. -/
def Todo.Found (db : Db) : Todo V → Prop
  | .finish id ids runId status _ true => isTerminalStr status = true →
      ∀ a ∈ db.attempts, a.runsFor runId = true → a.id = id ∨ a.id ∈ ids
  | .settle runId status => isTerminalStr status = true →
      ∀ a ∈ db.attempts, a.runsFor runId = false
  | _ => True

/-- A funnel has looked at the attempts of a run that it is about to settle. -/
def Todo.settling (runId : Text) : Todo V → Bool
  | .finish _ _ r status _ true => r = runId && isTerminalStr status
  | .settle r status => r = runId && isTerminalStr status
  | _ => false

/-- No attempt begins while a funnel settles its run, and the database answers the funnels that
settle. -/
def CleanAccess (s : State V) (ok : Bool) : Todo V → Prop
  | .attempt runId _ => ∀ thread ∈ s.threads, ∀ todo ∈ thread, todo.settling runId = false
  | .scan _ _ _ true | .finish _ _ _ _ _ true => ok = true
  | _ => True

def Clean (s : State V) : Label V → Prop
  | .access i ok _ => match s.threads[i]? with
    | some (todo :: _) => CleanAccess s ok todo
    | _ => True
  | .store call _ _ => OwnCall s.db.runs call
  | .call _ | .restart => True

/-- No final run has a running attempt. -/
def Db.Settled (db : Db) : Prop := ∀ r ∈ db.runs.rows, foreign r = true →
  isTerminalStr r.status = true → ∀ a ∈ db.attempts, a.runsFor r.id = false

instance (db : Db) : Decidable db.Settled :=
  inferInstanceAs (Decidable (∀ r ∈ db.runs.rows, foreign r = true →
    isTerminalStr r.status = true → ∀ a ∈ db.attempts, a.runsFor r.id = false))

instance (s : State V) (ok : Bool) : (todo : Todo V) → Decidable (CleanAccess s ok todo)
  | .attempt runId _ => inferInstanceAs
    (Decidable (∀ thread ∈ s.threads, ∀ todo ∈ thread, todo.settling runId = false))
  | .scan _ _ _ true | .finish _ _ _ _ _ true => inferInstanceAs (Decidable (ok = true))
  | .scan _ _ _ false | .finish _ _ _ _ _ false | .create .. | .markRunning .. | .lookOpen ..
  | .settle .. | .listOpen => .isTrue trivial

instance (s : State V) (label : Label V) : Decidable (Clean s label) :=
  match label with
  | .access i ok _ => match h : s.threads[i]? with
    | some (todo :: _) => decidable_of_iff (CleanAccess s ok todo) (by simp only [Clean, h])
    | some [] | none => .isTrue (by simp only [Clean, h])
  | .store call _ _ => inferInstanceAs (Decidable (OwnCall s.db.runs call))
  | .call _ | .restart => .isTrue trivial

structure Idle (s : State V) : Prop where
  settled : s.db.Settled
  found : ∀ thread ∈ s.threads, ∀ todo ∈ thread, todo.Found s.db

/-- The running attempts were there before. -/
def Fewer (db db' : Db) : Prop :=
  ∀ a ∈ db'.attempts, ∀ runId, a.runsFor runId = true → a ∈ db.attempts

theorem Todo.Found.mono {db' : Db} {todo : Todo V} (h : todo.Found db) (hfewer : Fewer db db') :
    todo.Found db' := by
  cases todo with
  | finish id ids runId status error settles =>
    cases settles with
    | false => trivial
    | true => exact fun hfinal a ha hruns => h hfinal a (hfewer a ha runId hruns) hruns
  | settle runId status =>
    intro hfinal a ha
    cases hruns : a.runsFor runId with
    | false => rfl
    | true => exact hruns.symm.trans (h hfinal a (hfewer a ha runId hruns))
  | create | markRunning | lookOpen | attempt | scan | listOpen => trivial

theorem Db.Settled.mono {db' : Db} (h : db.Settled) (hfewer : Fewer db db')
    (hrows : ∀ r' ∈ db'.runs.rows, foreign r' = true → isTerminalStr r'.status = true →
      (∃ r ∈ db.runs.rows, r.id = r'.id ∧ foreign r = true ∧ isTerminalStr r.status = true) ∨
      ∀ a ∈ db'.attempts, a.runsFor r'.id = false) : db'.Settled := by
  intro r' hr' hf hfinal a ha
  cases hrows r' hr' hf hfinal with
  | inr hnone => exact hnone a ha
  | inl hold =>
    obtain ⟨r, hr, hid, hforeign, hstatus⟩ := hold
    cases hruns : a.runsFor r'.id with
    | false => rfl
    | true =>
      have hnone := h r hr hforeign hstatus a (hfewer a ha r'.id hruns)
      rw [hid, hruns] at hnone
      cases hnone

theorem fewer_runs {runs : RunTable} : Fewer db { db with runs } := fun _ ha _ _ => ha

theorem settled_createRun (h : db.Settled) (runId : Text) (run : NewRun V) (now : Text) :
    Db.Settled { db with runs := createRunWithId json db.runs runId run now } := by
  obtain ⟨row, hrow, hstatus⟩ : ∃ row, createRunWithId json db.runs runId run now =
      db.runs.insert row ∧ row.status = pending := ⟨_, rfl, rfl⟩
  refine h.mono fewer_runs fun r hr hf hfinal => .inl ?_
  rw [hrow] at hr
  cases hfind : db.runs.find row.id with
  | some r' =>
    rw [Table.insert_of_some hfind] at hr
    exact ⟨r, hr, rfl, hf, hfinal⟩
  | none =>
    rw [Table.insert_of_none hfind] at hr
    cases List.mem_append.mp hr with
    | inl hr => exact ⟨r, hr, rfl, hf, hfinal⟩
    | inr hr =>
      rw [List.mem_singleton.mp hr, hstatus] at hfinal
      exact absurd hfinal (by decide)

/-- A run becomes final only when none of its attempts runs. -/
theorem settled_setRunStatus (h : db.Settled) {runId status : Text} (now : Text)
    (hfound : isTerminalStr status = true → ∀ a ∈ db.attempts, a.runsFor runId = false) :
    (setRunStatus db runId status now).2.Settled := by
  cases setRunStatus_cases db runId status now with
  | inl hsame =>
    rw [hsame]
    exact h
  | inr hset =>
    rw [hset.2]
    refine h.mono fewer_runs fun r' hr' hf hfinal => ?_
    obtain ⟨r, hr, rfl⟩ := Table.mem_update.mp hr'
    by_cases hhit : (decide (r.id = runId) && mayBecome status r) = true
    · rw [if_pos hhit] at hfinal ⊢
      refine .inr fun a ha => ?_
      have hid : r.id = runId := of_decide_eq_true (Bool.and_eq_true_iff.mp hhit).1
      exact (congrArg (a.runsFor ·) hid).trans (hfound hfinal a ha)
    · rw [if_neg hhit] at hf hfinal ⊢
      exact .inl ⟨r, hr, rfl, hf, hfinal⟩

theorem settled_opening (h : db.Settled) {runId : Text} {r : RunRow}
    (hr : db.runs.find runId = some r) (hopen : isTerminalStr r.status = false)
    (worker now : Text) : (db.opening runId worker now).Settled := by
  intro r' hr' hf hfinal a ha
  cases List.mem_append.mp ha with
  | inl ha => exact h r' hr' hf hfinal a ha
  | inr ha =>
    rw [List.mem_singleton.mp ha]
    have hne : runId ≠ r'.id := by
      intro hid
      have hsame : r = r' := Table.row_unique (Table.mem_of_find hr) hr'
        ((Table.key_of_find hr).trans hid)
      rw [← hsame, hopen] at hfinal
      cases hfinal
    simp [AttemptRow.runsFor, hne]

theorem found_opening {todo : Todo V} (h : todo.Found db) {runId : Text}
    (hno : todo.settling runId = false) (worker now : Text) :
    todo.Found (db.opening runId worker now) := by
  have hother {r status : Text} (hfinal : isTerminalStr status = true)
      (hno : (decide (r = runId) && isTerminalStr status) = false) {a : AttemptRow}
      (ha : a ∈ (db.opening runId worker now).attempts) (hruns : a.runsFor r = true) :
      a ∈ db.attempts := by
    cases List.mem_append.mp ha with
    | inl ha => exact ha
    | inr ha =>
      rw [List.mem_singleton.mp ha] at hruns
      simp only [AttemptRow.runsFor, Bool.and_eq_true, decide_eq_true_eq] at hruns
      simp [hfinal, hruns.1.symm] at hno
  cases todo with
  | finish id ids r status error settles =>
    cases settles with
    | false => trivial
    | true => exact fun hfinal a ha hruns => h hfinal a (hother hfinal hno ha hruns) hruns
  | settle r status =>
    intro hfinal a ha
    cases hruns : a.runsFor r with
    | false => rfl
    | true => exact hruns.symm.trans (h hfinal a (hother hfinal hno ha hruns))
  | create | markRunning | lookOpen | attempt | scan | listOpen => trivial

theorem closed_of_final {status : Text} (h : isTerminalStr status = true) : status ≠ running := by
  rintro rfl
  exact absurd h (by decide)

theorem fewer_finishAttempt (db : Db) (id : Nat) (status now : Text)
    (error usage : Option Text) : Fewer db (finishAttempt db id status now error usage).2 ∧
      (finishAttempt db id status now error usage).2.runs = db.runs ∧
      (isTerminalStr status = true → ∀ a ∈ (finishAttempt db id status now error usage).2.attempts,
        a.id = id → a.status ≠ running) := by
  obtain ⟨hopen, hsame⟩ | ⟨hfinal, hclosed⟩ := finishAttempt_cases db id status now error usage
  · rw [hsame]
    refine ⟨fun _ ha _ _ => ha, rfl, fun hfinal => ?_⟩
    rw [hopen] at hfinal
    cases hfinal
  · rw [hclosed]
    refine ⟨fun a ha runId hruns => ?_, rfl, fun _ a ha hid => ?_⟩
    · obtain ⟨b, hb, rfl⟩ := List.mem_map.mp ha
      rw [closing] at hruns ⊢
      split at hruns
      · rename_i hhit
        simp [AttemptRow.runsFor, closed_of_final hfinal] at hruns
      · rename_i hhit
        rw [if_neg hhit]
        exact hb
    · obtain ⟨b, _, rfl⟩ := List.mem_map.mp ha
      rw [closing] at hid ⊢
      split
      · exact closed_of_final hfinal
      · rename_i hhit
        rw [if_neg hhit] at hid
        intro hrunning
        exact hhit (by simp [hid, hrunning])

theorem mem_attemptsOf {runId : Text} {a : AttemptRow} :
    a ∈ attemptsOf db runId ↔ a ∈ db.attempts ∧ a.runId = runId := by
  rw [attemptsOf, List.mem_mergeSort, List.mem_filter, decide_eq_true_eq]

theorem found_finishOpenAttempts {runId status : Text} {error : Option Text} {settles : Bool}
    {ids : List Nat} (h : settles = true → isTerminalStr status = true →
      ∀ a ∈ db.attempts, a.runsFor runId = true → a.id ∈ ids) :
    ∀ todo ∈ (finishOpenAttempts runId status error settles ids : List (Todo V)),
      todo.Found db := by
  cases settles with
  | false =>
    cases ids with
    | nil => simp [finishOpenAttempts, afterAttempts]
    | cons id ids =>
      intro todo htodo
      obtain rfl := List.mem_singleton.mp htodo
      trivial
  | true =>
    intro todo htodo
    cases ids with
    | nil =>
      obtain rfl := List.mem_singleton.mp htodo
      intro hfinal a ha
      cases hruns : a.runsFor runId with
      | false => rfl
      | true => exact (List.not_mem_nil (h rfl hfinal a ha hruns)).elim
    | cons id ids =>
      obtain rfl := List.mem_singleton.mp htodo
      exact fun hfinal a ha hruns => List.mem_cons.mp (h rfl hfinal a ha hruns)

theorem fewer_setRunStatus (db : Db) (runId status now : Text) :
    Fewer db (setRunStatus db runId status now).2 := by
  cases setRunStatus_cases db runId status now with
  | inl hsame =>
    rw [hsame]
    exact fun _ ha _ _ => ha
  | inr hset =>
    rw [hset.2]
    exact fewer_runs

/-- An access that begins no attempt leaves the ledger settled, and its funnel knows what runs. -/
theorem exec_idle {s : State V} {todo : Todo V} {ok : Bool} {now : Text} (h : db.Settled)
    (hfound : todo.Found db) (hclean : CleanAccess s ok todo)
    (hno : ∀ runId worker, todo ≠ .attempt runId worker) :
    (todo.exec json db ok now).1.Settled ∧ Fewer db (todo.exec json db ok now).1 ∧
      ∀ next ∈ (todo.exec json db ok now).2, next.Found (todo.exec json db ok now).1 := by
  have hsame : Fewer db db := fun _ ha _ _ => ha
  cases todo with
  | attempt runId worker => exact absurd rfl (hno runId worker)
  | create runId run worker =>
    cases ok with
    | true => exact ⟨settled_createRun h runId run now, fewer_runs, by simp [Todo.exec, Todo.Found]⟩
    | false => exact ⟨h, hsame, by simp [Todo.exec]⟩
  | markRunning runId worker =>
    cases ok with
    | false => exact ⟨h, hsame, by simp [Todo.exec]⟩
    | true =>
      have hsettled : (setRunStatus db runId running now).2.Settled :=
        settled_setRunStatus h now fun hfinal => absurd hfinal (by decide)
      have hfewer := fewer_setRunStatus db runId running now
      simp only [Todo.exec, if_true]
      split
      · rename_i hset
        rw [hset] at hsettled hfewer
        exact ⟨hsettled, hfewer, by simp [Todo.Found]⟩
      · rename_i hset
        rw [hset] at hsettled hfewer
        exact ⟨hsettled, hfewer, by simp⟩
  | lookOpen runId worker =>
    rw [Todo.exec]
    split
    · exact ⟨h, hsame, by simp⟩
    · exact ⟨h, hsame, by simp [Todo.Found]⟩
  | scan runId status error settles =>
    cases ok with
    | true =>
      refine ⟨h, hsame, found_finishOpenAttempts fun _ _ a ha hruns => ?_⟩
      simp only [AttemptRow.runsFor, Bool.and_eq_true, decide_eq_true_eq] at hruns
      exact List.mem_map_of_mem (List.mem_filter.mpr
        ⟨mem_attemptsOf.mpr ⟨ha, hruns.1⟩, by simp [hruns.2]⟩)
    | false =>
      cases settles with
      | false => exact ⟨h, hsame, by simp [Todo.exec, afterAttempts]⟩
      | true => cases hclean
  | finish id ids runId status error settles =>
    cases ok with
    | false =>
      cases settles with
      | false => exact ⟨h, hsame, found_finishOpenAttempts fun hno => by cases hno⟩
      | true => cases hclean
    | true =>
      obtain ⟨hfewer, hruns, hclosed⟩ := fewer_finishAttempt db id status now error none
      have hsettled : (finishAttempt db id status now error none).2.Settled :=
        h.mono hfewer fun r hr hf hfinal => .inl ⟨r, hruns ▸ hr, rfl, hf, hfinal⟩
      refine ⟨hsettled, hfewer, found_finishOpenAttempts fun hset hfinal a ha hrunning => ?_⟩
      subst hset
      refine (hfound hfinal a (hfewer a ha runId hrunning) hrunning).resolve_left fun hid => ?_
      simp only [AttemptRow.runsFor, Bool.and_eq_true, decide_eq_true_eq] at hrunning
      exact hclosed hfinal a ha hid hrunning.2
  | settle runId status =>
    cases ok with
    | true =>
      exact ⟨settled_setRunStatus h now hfound, fewer_setRunStatus db runId status now,
        by simp [Todo.exec]⟩
    | false => exact ⟨h, hsame, by simp [Todo.exec]⟩
  | listOpen =>
    cases ok with
    | true =>
      refine ⟨h, hsame, fun next hnext => ?_⟩
      obtain ⟨r, _, rfl⟩ := List.mem_map.mp hnext
      trivial
    | false => exact ⟨h, hsame, by simp [Todo.exec]⟩

theorem mem_set_thread {s : State V} {i : Nat} {todo : Todo V} {rest next : List (Todo V)}
    (hi : s.threads[i]? = some (todo :: rest)) {thread : List (Todo V)}
    (ht : thread ∈ s.threads.set i (next ++ rest)) {t : Todo V} (hin : t ∈ thread) :
    t ∈ next ∨ ∃ old ∈ s.threads, t ∈ old := by
  cases List.mem_or_eq_of_mem_set ht with
  | inl ht => exact .inr ⟨thread, ht, hin⟩
  | inr ht =>
    rw [ht] at hin
    cases List.mem_append.mp hin with
    | inl hin => exact .inl hin
    | inr hin => exact .inr ⟨_, List.mem_of_getElem? hi, List.mem_cons_of_mem _ hin⟩

theorem idle_attempt {s : State V} (h : Idle s) {i : Nat} {runId worker : Text}
    {rest : List (Todo V)} (hi : s.threads[i]? = some (.attempt runId worker :: rest)) (ok : Bool)
    (hclean : CleanAccess s ok (.attempt runId worker)) (now : Text) :
    Idle ⟨if ok then (beginAttempt s.db runId worker now).2 else s.db, s.threads.set i rest⟩ := by
  have hold {thread : List (Todo V)} (ht : thread ∈ s.threads.set i rest) {todo : Todo V}
      (hin : todo ∈ thread) : ∃ old ∈ s.threads, todo ∈ old :=
    (@mem_set_thread _ s i _ rest [] hi thread ht todo hin).resolve_left List.not_mem_nil
  have hsame : Idle ⟨s.db, s.threads.set i rest⟩ := by
    refine ⟨h.settled, fun thread ht todo hin => ?_⟩
    obtain ⟨old, hold, hin⟩ := hold ht hin
    exact h.found old hold todo hin
  cases ok with
  | false => exact hsame
  | true =>
    rw [if_pos rfl]
    cases beginAttempt_cases s.db runId worker now with
    | inl hrefused =>
      rw [hrefused]
      exact hsame
    | inr hbegun =>
      obtain ⟨⟨r, hr, hopen⟩, hbegun⟩ := hbegun
      rw [hbegun]
      refine ⟨settled_opening h.settled hr hopen worker now, fun thread ht todo hin => ?_⟩
      obtain ⟨old, hold, hin⟩ := hold ht hin
      exact found_opening (h.found old hold todo hin) (hclean old hold todo hin) worker now

theorem idle_step {s t : State V} {label : Label V} (h : Idle s) (hclean : Clean s label)
    (hs : step json s label = some t) : Idle t := by
  cases label with
  | call funnel =>
    obtain rfl := Option.some.inj hs
    refine ⟨h.settled, fun thread ht todo hin => ?_⟩
    cases List.mem_append.mp ht with
    | inl ht => exact h.found thread ht todo hin
    | inr ht =>
      rw [List.mem_singleton.mp ht] at hin
      cases funnel <;> (obtain rfl := List.mem_singleton.mp hin; trivial)
  | access i ok now =>
    simp only [step] at hs
    split at hs
    · rename_i todo rest hi
      obtain rfl := Option.some.inj hs
      simp only [Clean, hi] at hclean
      by_cases hbegins : ∃ runId worker, todo = .attempt runId worker
      · obtain ⟨runId, worker, rfl⟩ := hbegins
        exact idle_attempt h hi ok hclean now
      · have hfound := h.found _ (List.mem_of_getElem? hi) todo List.mem_cons_self
        have hno (runId worker : Text) : todo ≠ .attempt runId worker := fun he =>
          hbegins ⟨runId, worker, he⟩
        obtain ⟨hsettled, hfewer, hnext⟩ :
            (todo.exec json s.db ok now).1.Settled ∧ Fewer s.db (todo.exec json s.db ok now).1 ∧ _ :=
          exec_idle h.settled hfound hclean hno
        refine ⟨hsettled, fun thread ht next hin => ?_⟩
        cases mem_set_thread hi ht hin with
        | inl hin => exact hnext next hin
        | inr hold =>
          obtain ⟨old, hold, hin⟩ := hold
          exact (h.found old hold next hin).mono hfewer
    · cases hs
  | store call now updated =>
    obtain rfl := Option.some.inj hs
    refine ⟨h.settled.mono fewer_runs fun r hr hf hfinal => .inl ?_, fun thread ht todo hin =>
      (h.found thread ht todo hin).mono fewer_runs⟩
    exact ⟨r, (mem_store (foreignRows_call hclean now updated) hf).mp hr, rfl, hf, hfinal⟩
  | restart =>
    obtain rfl := Option.some.inj hs
    exact ⟨h.settled, by simp⟩

/-- In every run in which no attempt begins while its run is being settled, and the database answers
the funnels that settle, a run of another ledger that has come to its end has no attempt left
that runs. -/
theorem settled_runs_idle {json : JsonText V} {labels : List (Label V)} {s : State V}
    (ha : Along (step json) Clean State.init labels)
    (hs : run (step json) State.init labels = some s) : s.db.Settled := by
  have hinit : Idle (State.init : State V) :=
    ⟨by simp [State.init, Db.Settled, Db.empty, Table.empty], by simp [State.init]⟩
  exact (run_invariant (fun _ _ _ => idle_step) hinit ha hs).settled

theorem settled_runs_idle_swept : ∃ s : State Bool,
    run (step boolText) State.init (firing ++ sweeping) = some s ∧ s.db.Settled :=
  have hclean : Along (step boolText) Clean State.init (firing ++ sweeping) := by decide +kernel
  ⟨(run (step boolText) State.init (firing ++ sweeping)).get (by decide +kernel),
    (Option.some_get _).symm, settled_runs_idle hclean (Option.some_get _).symm⟩

/-- A job that is fired again while its run is being settled. -/
def refiring : List (Label Bool) :=
  firing ++ .call (.settleRun jobRun succeeded none) :: accesses 1 2 evening ++
    .call (.beginRun jobRun "cron_job".toList "report".toList "scheduler".toList true) ::
    accesses 2 4 evening ++ accesses 1 1 evening

example : ((run (step boolText) State.init refiring).any fun s => ¬ s.db.Settled) = true := by
  decide +kernel

end NemesisBot.Taskstore.Ledger

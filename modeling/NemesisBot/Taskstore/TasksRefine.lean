import NemesisBot.Taskstore.Tasks

/-! The table of runs answers the task manager like the store in memory, as long as no call
meets a run of another ledger. -/
namespace NemesisBot.Taskstore
open Strings
open TaskManager hiding Task
variable {V : Type} {json : JsonText V}

/-- The columns that a status change sets. -/
def RunRow.withResult (json : JsonText V) (status : TaskStatus) (result : Option V)
    (now updated : Text) (r : RunRow) : RunRow :=
  { r with
    status := statusToStr status
    result := result.map json.toText
    completedAt := if isTerminalStatus status then some now else r.completedAt
    updatedAt := updated }

def setRow (json : JsonText V) (status : TaskStatus) (result : Option V) (now updated : Text) :
    Table.Setter RunRow.id where
  set := RunRow.withResult json status result now updated
  key_set _ := rfl

theorem selects_new (id : Text) (status : TaskStatus) (result : Option V) (now updated : Text) :
    (UpdateBind.new json id status result now updated).selects =
      fun r => decide (r.id = id) := by
  funext r
  cases h : isTerminalStatus status <;>
    simp [UpdateBind.new, UpdateBind.selects, UpdateBind.bound, h, eq_comm]

theorem apply_new (id : Text) (status : TaskStatus) (result : Option V) (now updated : Text) :
    (UpdateBind.new json id status result now updated).apply =
      setRow json status result now updated := by
  apply Table.Setter.ext
  funext r
  cases h : isTerminalStatus status <;>
    simp [UpdateBind.new, UpdateBind.apply, UpdateBind.bound, h, setRow, RunRow.withResult]

theorem foldl_pushExtra (b : UpdateBind) (xs : List Text) :
    xs.foldl UpdateBind.pushExtra b = { b with params := b.params ++ xs.map some } := by
  induction xs generalizing b with
  | nil => simp
  | cons x xs ih => simp [ih, UpdateBind.pushExtra]

theorem any_bound (p : List (Option Text)) (xs : List Text) (v : Text) :
    ((List.range' (p.length + 1) xs.length).any fun n =>
      ((p ++ xs.map some)[n - 1]?.join = some v : Bool)) = decide (v ∈ xs) := by
  rw [Bool.eq_iff_iff]
  simp only [List.any_eq_true, List.mem_range'_1, decide_eq_true_eq]
  constructor
  · rintro ⟨n, ⟨hlo, hhi⟩, h⟩
    rw [List.getElem?_append_right (by omega), List.getElem?_map] at h
    cases hx : xs[n - 1 - p.length]? with
    | none => simp [hx] at h
    | some x =>
      obtain rfl : x = v := by simpa [hx] using h
      exact List.mem_of_getElem? hx
  · intro h
    obtain ⟨i, hi, rfl⟩ := List.mem_iff_getElem.mp h
    refine ⟨p.length + 1 + i, ⟨by omega, by omega⟩, ?_⟩
    rw [List.getElem?_append_right (by omega)]
    simp [hi]

/-- The statement of a conditional update, as `update_result_if_status` binds it. -/
def bindIf (json : JsonText V) (id : Text) (expected : List TaskStatus) (status : TaskStatus)
    (result : Option V) (now updated : Text) : UpdateBind :=
  let bind := UpdateBind.new json id status result now updated
  let bind := { bind with sql := bind.sql.andStatusIn expected.length }
  (expected.map statusToStr).foldl UpdateBind.pushExtra bind

theorem largest_new (id : Text) (status : TaskStatus) (result : Option V) (now updated : Text) :
    (UpdateBind.new json id status result now updated).sql.largest =
      (UpdateBind.new json id status result now updated).params.length := by
  cases h : isTerminalStatus status <;> simp [UpdateBind.new, UpdateSql.largest, h]

theorem selects_bindIf (id : Text) (expected : List TaskStatus) (status : TaskStatus)
    (result : Option V) (now updated : Text) :
    (bindIf json id expected status result now updated).selects =
      fun r => decide (r.id = id ∧ r.status ∈ expected.map statusToStr) := by
  funext r
  have hin := any_bound (UpdateBind.new json id status result now updated).params
    (expected.map statusToStr) r.status
  have hid := congrFun (@selects_new V json id status result now updated) r
  simp only [UpdateBind.selects, UpdateBind.new, Bool.and_true] at hid
  rw [List.length_map, ← largest_new] at hin
  simp only [bindIf, foldl_pushExtra, UpdateBind.selects, UpdateSql.andStatusIn, Bool.decide_and]
  refine congrArg₂ and (Eq.trans ?_ hid) hin
  simp [UpdateBind.new, UpdateBind.bound]

theorem apply_bindIf (id : Text) (expected : List TaskStatus) (status : TaskStatus)
    (result : Option V) (now updated : Text) :
    (bindIf json id expected status result now updated).apply =
      setRow json status result now updated := by
  rw [← apply_new id]
  apply Table.Setter.ext
  funext r
  simp only [bindIf, foldl_pushExtra, UpdateBind.apply, UpdateSql.andStatusIn]
  cases h : isTerminalStatus status <;> simp [UpdateBind.new, UpdateBind.bound, h]

/-- A row that decodes has the columns of the task. -/
theorem rowTaskStrict_ok {r : RunRow} {t : TaskManager.Task V} (h : rowTaskStrict json r = .ok t) :
    statusFromStr r.status = .ok t.status ∧ json.fromStr r.payload = .ok t.payload ∧
      t = ⟨r.id, t.status, r.action, r.peerId, t.payload, t.result, r.originalChannel,
        r.originalChatId, r.createdAt, r.completedAt⟩ := by
  unfold rowTaskStrict at h
  cases hs : statusFromStr r.status with
  | error e => simp [hs, bind, Except.bind] at h
  | ok st =>
    cases hp : json.fromStr r.payload with
    | error e => simp [hs, hp, bind, Except.bind, Except.mapError] at h
    | ok p =>
      cases hr : r.result with
      | none =>
        simp only [hs, hp, hr, bind, Except.bind, Except.mapError, pure, Except.pure] at h
        cases h
        exact ⟨rfl, rfl, rfl⟩
      | some s =>
        cases hv : json.fromStr s with
        | error e => simp [hs, hp, hr, hv, bind, Except.bind, Except.mapError] at h
        | ok v =>
          simp only [hs, hp, hr, hv, bind, Except.bind, Except.mapError, pure, Except.pure] at h
          cases h
          exact ⟨rfl, rfl, rfl⟩

theorem id_of_decoded {r : RunRow} {t : TaskManager.Task V} (h : rowTaskStrict json r = .ok t) :
    t.id = r.id := by
  rw [(rowTaskStrict_ok h).2.2]

theorem status_of_decoded {r : RunRow} {t : TaskManager.Task V}
    (h : rowTaskStrict json r = .ok t) : r.status = statusToStr t.status :=
  statusToStr_fromStr (rowTaskStrict_ok h).1

/-- A row that was written from a status and JSON values decodes to them. -/
theorem rowTaskStrict_written {r : RunRow} {status : TaskStatus} {payload : V}
    {result : Option V} (hs : r.status = statusToStr status)
    (hp : json.fromStr r.payload = .ok payload) (hr : r.result = result.map json.toText) :
    rowTaskStrict json r = .ok ⟨r.id, status, r.action, r.peerId, payload, result,
      r.originalChannel, r.originalChatId, r.createdAt, r.completedAt⟩ := by
  cases result with
  | none =>
    simp [rowTaskStrict, hs, hp, hr, statusFromStr_toStr, bind, Except.bind, Except.mapError,
      pure, Except.pure]
  | some v =>
    simp [rowTaskStrict, hs, hp, hr, statusFromStr_toStr, json.fromStr_toText, bind, Except.bind,
      Except.mapError, pure, Except.pure]

theorem decoded_withResult {r : RunRow} {t : TaskManager.Task V}
    (h : rowTaskStrict json r = .ok t) (status : TaskStatus) (result : Option V)
    (now updated : Text) :
    rowTaskStrict json (r.withResult json status result now updated) =
      .ok (t.withResult status result now) := by
  obtain ⟨-, hp, ht⟩ := rowTaskStrict_ok h
  have hw := rowTaskStrict_written (r := r.withResult json status result now updated) rfl hp rfl
  rw [hw, ht]
  rfl

/-- The rows of the cluster tasks, in order, are the tasks that the other store holds. -/
def Mirrors (json : JsonText V) (db : RunTable) (s : InMemoryTaskStore V) : Prop :=
  List.Forall₂ (fun r t => rowTaskStrict json r = .ok t) (db.select fun r => !foreign r) s.rows

theorem exists_right {α β : Type*} {R : α → β → Prop} {l : List α} {m : List β}
    (h : List.Forall₂ R l m) {a : α} (ha : a ∈ l) : ∃ b ∈ m, R a b := by
  induction h with
  | nil => cases ha
  | cons hr _ ih =>
    rcases List.mem_cons.mp ha with rfl | ha
    · exact ⟨_, List.mem_cons_self, hr⟩
    · obtain ⟨b, hb, hab⟩ := ih ha
      exact ⟨b, List.mem_cons_of_mem _ hb, hab⟩

theorem exists_left {α β : Type*} {R : α → β → Prop} {l : List α} {m : List β}
    (h : List.Forall₂ R l m) {b : β} (hb : b ∈ m) : ∃ a ∈ l, R a b := exists_right h.flip hb

/-- No other ledger has a row with this id. -/
def OwnId (db : RunTable) (id : Text) : Prop := ∀ r ∈ db.rows, r.id = id → foreign r = false

/-- Under an id that no other ledger uses, both stores find the same task. -/
theorem Mirrors.find {db : RunTable} {s : InMemoryTaskStore V} (h : Mirrors json db s) {id : Text}
    (hid : OwnId db id) :
    (db.find id = none ∧ s.find id = none) ∨
      ∃ r t, db.find id = some r ∧ s.find id = some t ∧ rowTaskStrict json r = .ok t := by
  cases hr : db.find id with
  | none =>
    left
    refine ⟨rfl, Table.find_eq_none_iff.mpr fun t ht hti => ?_⟩
    obtain ⟨r, hmem, hdec⟩ := exists_left h ht
    have hri : r.id = id := (id_of_decoded hdec).symm.trans hti
    exact Table.find_eq_none_iff.mp hr r (Table.mem_select.mp hmem).1 hri
  | some r =>
    right
    have hmem := Table.mem_of_find hr
    have hri := Table.key_of_find hr
    obtain ⟨t, ht, hdec⟩ := exists_right h (Table.mem_select.mpr ⟨hmem, by simp [hid r hmem hri]⟩)
    have hti : t.id = id := (id_of_decoded hdec).trans hri
    exact ⟨r, t, rfl, Table.find_eq_some_iff.mpr ⟨ht, hti⟩, hdec⟩

/-- Updates of the same tasks to the same values. -/
theorem Mirrors.update {db : RunTable} {s : InMemoryTaskStore V} (h : Mirrors json db s)
    {p : RunRow → Bool} {q : TaskManager.Task V → Bool} {f : Table.Setter RunRow.id}
    {g : Table.Setter (TaskManager.Task.id (V := V))} (hf : ∀ r, foreign (f.set r) = foreign r)
    (hpq : ∀ r t, rowTaskStrict json r = .ok t → p r = q t)
    (hfg : ∀ r t, rowTaskStrict json r = .ok t → rowTaskStrict json (f.set r) = .ok (g.set t)) :
    Mirrors json (Table.update db p f) (Table.update s q g) := by
  have hforeign (r : RunRow) : foreign (if p r then f.set r else r) = foreign r := by
    split
    · exact hf r
    · rfl
  have hrows : (Table.update db p f).select (fun r => !foreign r) =
      (db.select fun r => !foreign r).map fun r => if p r then f.set r else r := by
    simp only [Table.select, Table.update, List.filter_map]
    congr 2
    funext r
    exact congrArg not (hforeign r)
  unfold Mirrors
  rw [hrows, Table.update, List.forall₂_map_left_iff, List.forall₂_map_right_iff]
  refine h.imp fun r t hdec => ?_
  rw [hpq r t hdec]
  split
  · exact hfg r t hdec
  · exact hdec

theorem Mirrors.delete {db : RunTable} {s : InMemoryTaskStore V} (h : Mirrors json db s)
    (id : Text) :
    Mirrors json (Table.delete db (Table.hasKey RunRow.id id))
      (Table.delete s (Table.hasKey TaskManager.Task.id id)) := by
  have hrows : (Table.delete db (Table.hasKey RunRow.id id)).select (fun r => !foreign r) =
      (db.select fun r => !foreign r).filter fun r => !(Table.hasKey RunRow.id id r) := by
    simp only [Table.select, Table.delete, List.filter_filter]
    congr 1
    funext r
    exact Bool.and_comm _ _
  unfold Mirrors
  rw [hrows, Table.delete]
  refine List.rel_filter (fun r t hdec => ?_) h
  simp [id_of_decoded hdec]

/-- The rows of the other ledgers. -/
def foreignRows (db : RunTable) : List RunRow := db.select foreign

theorem foreignRows_update {db : RunTable} {p : RunRow → Bool} {f : Table.Setter RunRow.id}
    (hf : ∀ r, foreign (f.set r) = foreign r) (hp : ∀ r ∈ db.rows, p r = true → foreign r = false) :
    foreignRows (Table.update db p f) = foreignRows db := by
  have hforeign (r : RunRow) : foreign (if p r then f.set r else r) = foreign r := by
    split
    · exact hf r
    · rfl
  calc foreignRows (Table.update db p f)
      = (db.select foreign).map fun r => if p r then f.set r else r := by
        simp only [foreignRows, Table.select, Table.update, List.filter_map]
        congr 2
        funext r
        exact hforeign r
    _ = (db.select foreign).map id := List.map_congr_left fun r hr => by
        obtain ⟨hr, hfor⟩ := Table.mem_select.mp hr
        have hno : ¬ p r = true := fun h => by simp [hp r hr h] at hfor
        rw [if_neg hno, id_eq]
    _ = foreignRows db := List.map_id _

theorem foreignRows_delete {db : RunTable} {id : Text} (hid : OwnId db id) :
    foreignRows (Table.delete db (Table.hasKey RunRow.id id)) = foreignRows db := by
  simp only [foreignRows, Table.select, Table.delete, List.filter_filter]
  refine List.filter_congr fun r hr => ?_
  by_cases h : r.id = id
  · simp [hid r hr h]
  · simp [h]

/-- Two states of the stores after a call, and its answers. -/
structure Agree (json : JsonText V) (db : RunTable) (sql : RunTable × Answer V)
    (mem : InMemoryTaskStore V × Answer V) : Prop where
  mirrors : Mirrors json sql.1 mem.1
  same : Answer.Same mem.2 sql.2
  others : foreignRows sql.1 = foreignRows db

variable {db : RunTable} {s : InMemoryTaskStore V}

theorem agree_create (h : Mirrors json db s) {task : TaskManager.Task V}
    (hid : OwnId db task.id) (now updated : Text) :
    Agree json db (sqliteCall json db now updated (.create task))
      (inMemoryCall s now (.create task)) := by
  rcases h.find hid with ⟨hdb, hs⟩ | ⟨r, t, hdb, hs, -⟩
  · simp only [sqliteCall, inMemoryCall, SqliteTaskStore.create, InMemoryTaskStore.create, hdb, hs]
    refine ⟨?_, rfl, ?_⟩
    · have hdec := @rowTaskStrict_written V json ⟨task.id, clusterTask, [],
        statusToStr task.status, task.action, task.peerId, json.toText task.payload,
        task.result.map json.toText, task.originalChannel, task.originalChatId, task.createdAt,
        task.completedAt, updated⟩ _ _ _ rfl (json.fromStr_toText task.payload) rfl
      unfold Mirrors
      rw [Table.select, Table.insert_of_none hdb, Table.insert_of_none hs, List.filter_append]
      exact List.rel_append h (.cons hdec .nil)
    · rw [foreignRows, Table.select, Table.insert_of_none hdb, List.filter_append]
      exact List.append_nil _
  · simp only [sqliteCall, inMemoryCall, SqliteTaskStore.create, InMemoryTaskStore.create, hdb, hs]
    exact ⟨h, rfl, rfl⟩

theorem agree_get (h : Mirrors json db s) {id : Text} (hid : OwnId db id) (now updated : Text) :
    Agree json db (sqliteCall json db now updated (.get id)) (inMemoryCall s now (.get id)) := by
  refine ⟨h, ?_, rfl⟩
  rcases h.find hid with ⟨hdb, hs⟩ | ⟨r, t, hdb, hs, hdec⟩
  · simp [sqliteCall, inMemoryCall, SqliteTaskStore.get, InMemoryTaskStore.get, hdb, hs,
      Answer.Same]
  · simp [sqliteCall, inMemoryCall, SqliteTaskStore.get, InMemoryTaskStore.get, hdb, hs, hdec,
      Answer.Same]

theorem select_hasKey_none {α : Type*} {key : α → Text} {t : Table key} {id : Text}
    (h : t.find id = none) : t.select (Table.hasKey key id) = [] :=
  Table.select_eq_nil.mpr fun a ha => by simpa using Table.find_eq_none_iff.mp h a ha

theorem length_select {α : Type*} {key : α → Text} {t : Table key} {p : α → Bool} {a : α}
    (ha : a ∈ t.rows) (hp : p a = true) : ∃ n, (t.select p).length = n + 1 := by
  have hpos := List.length_pos_of_mem (Table.mem_select.mpr ⟨ha, hp⟩)
  exact ⟨_, (Nat.succ_pred_eq_of_pos hpos).symm⟩

theorem mirrors_setRow (h : Mirrors json db s) (id : Text) (status : TaskStatus)
    (result : Option V) (now updated : Text) :
    Mirrors json
      (Table.update db (Table.hasKey RunRow.id id) (setRow json status result now updated))
      (Table.update s (Table.hasKey TaskManager.Task.id id) (setResult status result now)) :=
  h.update (fun _ => rfl) (fun r t hdec => by simp [id_of_decoded hdec])
    fun r t hdec => decoded_withResult hdec status result now updated

theorem foreignRows_setRow {id : Text} (hid : OwnId db id) (status : TaskStatus)
    (result : Option V) (now updated : Text) :
    foreignRows (Table.update db (Table.hasKey RunRow.id id)
      (setRow json status result now updated)) = foreignRows db :=
  foreignRows_update (fun _ => rfl) fun r hr h => hid r hr (by simpa using h)

theorem agree_updateResult (h : Mirrors json db s) {id : Text} (hid : OwnId db id)
    (status : TaskStatus) (result : Option V) (now updated : Text) :
    Agree json db (sqliteCall json db now updated (.updateResult id status result))
      (inMemoryCall s now (.updateResult id status result)) := by
  simp only [sqliteCall, inMemoryCall, SqliteTaskStore.updateResult,
    InMemoryTaskStore.updateResult, execute, selects_new, apply_new]
  rcases h.find hid with ⟨hdb, hs⟩ | ⟨r, t, hdb, hs, hdec⟩
  · rw [select_hasKey_none hdb, hs]
    exact ⟨h, rfl, rfl⟩
  · obtain ⟨n, hn⟩ := length_select (p := Table.hasKey RunRow.id id) (Table.mem_of_find hdb)
      (by simpa using Table.key_of_find hdb)
    rw [hn, hs]
    exact ⟨mirrors_setRow h id status result now updated, rfl,
      foreignRows_setRow hid status result now updated⟩

theorem agree_updateResultIfStatus (h : Mirrors json db s) {id : Text} (hid : OwnId db id)
    (expected : List TaskStatus) (status : TaskStatus) (result : Option V) (now updated : Text) :
    Agree json db (sqliteCall json db now updated (.updateResultIfStatus id expected status result))
      (inMemoryCall s now (.updateResultIfStatus id expected status result)) := by
  have hbind : (expected.map statusToStr).foldl UpdateBind.pushExtra
      { UpdateBind.new json id status result now updated with
        sql := (UpdateBind.new json id status result now updated).sql.andStatusIn
          expected.length } = bindIf json id expected status result now updated := rfl
  simp only [sqliteCall, inMemoryCall, SqliteTaskStore.updateResultIfStatus,
    InMemoryTaskStore.updateResultIfStatus, hbind, execute, selects_bindIf, apply_bindIf]
  rcases h.find hid with ⟨hdb, hs⟩ | ⟨r, t, hdb, hs, hdec⟩
  · have hno (q : RunRow) (hq : q ∈ db.rows) :
        decide (q.id = id ∧ q.status ∈ expected.map statusToStr) = false := by
      simp [Table.find_eq_none_iff.mp hdb q hq]
    rw [Table.select_eq_nil.mpr hno, Table.update_eq_self _ hno, hdb, hs]
    exact ⟨h, rfl, rfl⟩
  · have hri := Table.key_of_find hdb
    have hmem := Table.mem_of_find hdb
    have honly (q : RunRow) (hq : q ∈ db.rows) (hqi : q.id = id) : q = r :=
      Table.row_unique hq hmem (hqi.trans hri.symm)
    have hin : r.status ∈ expected.map statusToStr ↔ t.status ∈ expected := by
      rw [status_of_decoded hdec, List.mem_map_of_injective statusToStr_injective]
    rw [hs]
    by_cases hst : t.status ∈ expected
    · have hcond (q : RunRow) (hq : q ∈ db.rows) :
          decide (q.id = id ∧ q.status ∈ expected.map statusToStr) =
            Table.hasKey RunRow.id id q := by
        by_cases hqi : q.id = id
        · have hrs := hin.mpr hst
          simp only [Table.hasKey, honly q hq hqi, hri, hrs, and_self]
        · simp [hqi]
      have hkey : Table.hasKey RunRow.id id r = true := by simpa using hri
      obtain ⟨n, hn⟩ := length_select
        (p := fun q : RunRow => decide (q.id = id ∧ q.status ∈ expected.map statusToStr)) hmem
        ((hcond r hmem).trans hkey)
      rw [hn, Table.update_congr _ hcond]
      simp only [if_pos hst]
      exact ⟨mirrors_setRow h id status result now updated, rfl,
        foreignRows_setRow hid status result now updated⟩
    · have hno (q : RunRow) (hq : q ∈ db.rows) :
          decide (q.id = id ∧ q.status ∈ expected.map statusToStr) = false := by
        by_cases hqi : q.id = id
        · rw [honly q hq hqi]
          simp only [decide_eq_false_iff_not, not_and]
          exact fun _ => fun hr => hst (hin.mp hr)
        · simp [hqi]
      rw [Table.select_eq_nil.mpr hno, Table.update_eq_self _ hno, hdb]
      simp only [if_neg hst]
      exact ⟨h, rfl, rfl⟩

theorem agree_delete (h : Mirrors json db s) {id : Text} (hid : OwnId db id)
    (now updated : Text) :
    Agree json db (sqliteCall json db now updated (.delete id))
      (inMemoryCall s now (.delete id)) := by
  simp only [sqliteCall, inMemoryCall, SqliteTaskStore.delete, InMemoryTaskStore.delete]
  rcases h.find hid with ⟨hdb, hs⟩ | ⟨r, t, hdb, hs, hdec⟩
  · rw [select_hasKey_none hdb, hs]
    exact ⟨h, rfl, rfl⟩
  · obtain ⟨n, hn⟩ := length_select (p := Table.hasKey RunRow.id id) (Table.mem_of_find hdb)
      (by simpa using Table.key_of_find hdb)
    rw [hn, hs]
    exact ⟨h.delete id, rfl, foreignRows_delete hid⟩

/-- A row that a listing would show. -/
def decodes (json : JsonText V) (r : RunRow) : Bool := (rowTaskStrict json r).toOption.isSome

theorem toOption_of_decodes {r : RunRow} (h : decodes json r = false) :
    (rowTaskStrict json r).toOption = none := by
  simpa [decodes] using h

theorem listRows_perm (rows : List RunRow) :
    (listRows json rows).Perm (rows.filterMap fun r => (rowTaskStrict json r).toOption) :=
  (List.mergeSort_perm rows createdBefore).filterMap _

/-- Rows that a listing leaves out do not matter to it. -/
theorem filterMap_own {rows : List RunRow}
    (h : ∀ r ∈ rows, foreign r = true → decodes json r = false) :
    rows.filterMap (fun r => (rowTaskStrict json r).toOption) =
      (rows.filter fun r => !foreign r).filterMap fun r => (rowTaskStrict json r).toOption := by
  rw [List.filterMap_filter]
  refine List.filterMap_congr fun r hr => ?_
  cases hf : foreign r with
  | false => simp
  | true => simp [toOption_of_decodes (h r hr hf)]

theorem filterMap_decoded {rows : List RunRow} {tasks : List (TaskManager.Task V)}
    (h : List.Forall₂ (fun r t => rowTaskStrict json r = .ok t) rows tasks) :
    rows.filterMap (fun r => (rowTaskStrict json r).toOption) = tasks := by
  induction h with
  | nil => rfl
  | cons hr _ ih => simpa [hr, Except.toOption] using ih

theorem agree_listAll (h : Mirrors json db s)
    (hown : ∀ r ∈ db.rows, foreign r = true → decodes json r = false) (now updated : Text) :
    Agree json db (sqliteCall json db now updated .listAll) (inMemoryCall s now .listAll) := by
  refine ⟨h, ?_, rfl⟩
  have hlist : (SqliteTaskStore.listAll json db).Perm s.rows := by
    refine (listRows_perm db.rows).trans ?_
    rw [filterMap_own hown]
    exact .of_eq (filterMap_decoded h)
  exact hlist.symm

theorem agree_listByStatus (h : Mirrors json db s) (status : TaskStatus)
    (hown : ∀ r ∈ db.rows, foreign r = true → r.status = statusToStr status →
      decodes json r = false) (now updated : Text) :
    Agree json db (sqliteCall json db now updated (.listByStatus status))
      (inMemoryCall s now (.listByStatus status)) := by
  refine ⟨h, ?_, rfl⟩
  have hrows : List.Forall₂ (fun r t => rowTaskStrict json r = .ok t)
      ((db.select (·.status = statusToStr status)).filter fun r => !foreign r)
      (s.select (·.status = status)) := by
    have hcomm : (db.select (·.status = statusToStr status)).filter (fun r => !foreign r) =
        (db.select fun r => !foreign r).filter (·.status = statusToStr status) := by
      simp only [Table.select, List.filter_filter, Bool.and_comm]
    rw [hcomm]
    refine List.rel_filter (fun r t hdec => ?_) h
    simp [status_of_decoded hdec, statusToStr_injective.eq_iff]
  have hlist : (SqliteTaskStore.listByStatus json db status).Perm
      (s.select (·.status = status)) := by
    refine (listRows_perm _).trans ?_
    rw [filterMap_own fun r hr hf => hown r (Table.mem_select.mp hr).1 hf
      (by simpa using (Table.mem_select.mp hr).2)]
    exact .of_eq (filterMap_decoded hrows)
  exact hlist.symm

/-- Both stores side by side, with the answers they gave, the last first. -/
structure Pair (V : Type) where
  mem : InMemoryTaskStore V
  db : RunTable
  answers : List (Answer V × Answer V)

/-- A call and the time stamps it writes. -/
structure Timed (V : Type) where
  call : Call V
  now : Text
  updated : Text

def step (json : JsonText V) (s : Pair V) (c : Timed V) : Option (Pair V) :=
  let mem := inMemoryCall s.mem c.now c.call
  let db := sqliteCall json s.db c.now c.updated c.call
  some ⟨mem.1, db.1, (mem.2, db.2) :: s.answers⟩

def start (db : RunTable) : Pair V := ⟨Table.empty, db, []⟩

/-- The call meets no run of another ledger: none has the id it names, none shows in its list. -/
def Unshared (json : JsonText V) (s : Pair V) (c : Timed V) : Prop :=
  match c.call with
  | .create task => OwnId s.db task.id
  | .get id => OwnId s.db id
  | .updateResult id _ _ => OwnId s.db id
  | .updateResultIfStatus id _ _ _ => OwnId s.db id
  | .delete id => OwnId s.db id
  | .listByStatus status => ∀ r ∈ s.db.rows, foreign r = true → r.status = statusToStr status →
      decodes json r = false
  | .listAll => ∀ r ∈ s.db.rows, foreign r = true → decodes json r = false

instance (db : RunTable) (id : Text) : Decidable (OwnId db id) :=
  inferInstanceAs (Decidable (∀ r ∈ db.rows, r.id = id → foreign r = false))

instance (json : JsonText V) (s : Pair V) (c : Timed V) : Decidable (Unshared json s c) := by
  unfold Unshared
  split <;> infer_instance

/-- The answers so far agree and the other ledgers have the rows of the start. -/
structure Refines (json : JsonText V) (db : RunTable) (s : Pair V) : Prop where
  mirrors : Mirrors json s.db s.mem
  same : ∀ a ∈ s.answers, Answer.Same a.1 a.2
  others : foreignRows s.db = foreignRows db

theorem agree_call (h : Mirrors json db s) {c : Timed V} {answers : List (Answer V × Answer V)}
    (hc : Unshared json ⟨s, db, answers⟩ c) :
    Agree json db (sqliteCall json db c.now c.updated c.call) (inMemoryCall s c.now c.call) := by
  obtain ⟨call, now, updated⟩ := c
  cases call with
  | create task => exact agree_create h hc now updated
  | get id => exact agree_get h hc now updated
  | updateResult id status result => exact agree_updateResult h hc status result now updated
  | updateResultIfStatus id expected status result =>
    exact agree_updateResultIfStatus h hc expected status result now updated
  | delete id => exact agree_delete h hc now updated
  | listByStatus status => exact agree_listByStatus h status hc now updated
  | listAll => exact agree_listAll h hc now updated

theorem refines_step (s : Pair V) (c : Timed V) (t : Pair V) (h : Refines json db s)
    (hc : Unshared json s c) (hstep : step json s c = some t) : Refines json db t := by
  obtain rfl := Option.some.inj hstep
  have ha := agree_call h.mirrors hc
  refine ⟨ha.mirrors, fun a hmem => ?_, ha.others.trans h.others⟩
  rcases List.mem_cons.mp hmem with rfl | hmem
  · exact ha.same
  · exact h.same a hmem

theorem mirrors_start (h : ∀ r ∈ db.rows, foreign r = true) :
    Mirrors json db (Table.empty : InMemoryTaskStore V) := by
  have hnil : db.select (fun r => !foreign r) = [] :=
    Table.select_eq_nil.mpr fun r hr => by simp [h r hr]
  rw [Mirrors, hnil]
  exact .nil

/-- While no call meets a run of another ledger, the table answers like the store in memory
and keeps the other runs. -/
theorem sqlite_refines_in_memory (json : JsonText V) {db : RunTable}
    (hdb : ∀ r ∈ db.rows, foreign r = true) {calls : List (Timed V)} {s : Pair V}
    (hun : Runs.Along (step json) (Unshared json) (start db) calls)
    (hrun : Runs.run (step json) (start db) calls = some s) :
    (∀ a ∈ s.answers, Answer.Same a.1 a.2) ∧ foreignRows s.db = foreignRows db := by
  have hstart : Refines json db (start db) :=
    ⟨mirrors_start hdb, fun a ha => (List.not_mem_nil ha).elim, rfl⟩
  have h := Runs.run_invariant refines_step hstart hun hrun
  exact ⟨h.same, h.others⟩

/-- JSON texts of the values `true` and `false`. -/
def boolText : JsonText Bool where
  toText b := if b then "true".toList else "false".toList
  fromStr s :=
    if s = "true".toList then .ok true
    else if s = "false".toList then .ok false
    else .error "expected value at line 1 column 1".toList
  fromStr_toText b := by cases b <;> rfl

def dispatchId : Text := "board_dispatch:t1".toList

/-- The table after the board has written down a dispatch. -/
def dispatchDb : RunTable :=
  createRunWithId boolText Table.empty dispatchId
    ⟨"board_dispatch".toList, "t1".toList, [], [], true⟩ "2026-11-05T08:00:00+00:00".toList

def plainTask : TaskManager.Task Bool :=
  ⟨"t2".toList, .pending, "peer_chat".toList, [], true, none, [], [],
    "2026-11-05T09:00:00+00:00".toList, none⟩

def stamped (call : Call Bool) : Timed Bool :=
  ⟨call, "2026-11-06T08:00:00+00:00".toList, "2026-11-06T08:00:00+00:00".toList⟩

/-- The life of a task next to the dispatch. -/
def plainCalls : List (Timed Bool) :=
  [.create plainTask, .updateResultIfStatus "t2".toList [.pending] .running none,
    .listByStatus .running,
    .updateResultIfStatus "t2".toList [.pending, .running] .completed (some false),
    .get "t2".toList, .delete "t2".toList].map stamped

def plainEnd : Pair Bool :=
  (Runs.run (step boolText) (start dispatchDb) plainCalls).get (by decide)

theorem sqlite_refines_plain :
    (∀ a ∈ plainEnd.answers, Answer.Same a.1 a.2) ∧
      foreignRows plainEnd.db = foreignRows dispatchDb :=
  have hun : Runs.Along (step boolText) (Unshared boolText) (start dispatchDb) plainCalls := by
    decide
  sqlite_refines_in_memory boolText (by decide) hun (Option.some_get _).symm

/-- The cleanup times the dispatch of the board out, as a task that only the table has. -/
theorem dispatch_timed_out :
    ¬ ∀ (calls : List (Timed Bool)) (s : Pair Bool),
      Runs.run (step boolText) (start dispatchDb) calls = some s →
        (∀ a ∈ s.answers, Answer.Same a.1 a.2) ∧ foreignRows s.db = foreignRows dispatchDb := by
  intro h
  have hchanged := (h [stamped (.updateResultIfStatus dispatchId [.pending] .failed none)] _ rfl).2
  revert hchanged
  decide

end NemesisBot.Taskstore

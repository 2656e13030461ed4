import NemesisBot.Cluster.TaskStore
import NemesisBot.Lib.Json
import NemesisBot.Lib.Runs

/-! The delivery ledger of `tasks.db` and the retry box for its notifications. -/
namespace NemesisBot.Deliveries
open Strings Runs
open TaskManager (Clock)

structure DeliveryRow where
  id : Text
  runId : Option Text
  kind : Text
  idempotencyKey : Text
  status : Text
  payload : Text
  createdAt : Text
  deliveredAt : Option Text
  confirmedAt : Option Text
  rejectedAt : Option Text
  rejectReason : Option Text
  notifyState : Text
  notifyAttempts : Int
  notifyLastError : Option Text
  notifyNextRetryAt : Option Text
  deriving DecidableEq

structure NotifyOutboxRow where
  id : Text
  deliveryKey : Text
  message : Text
  createdAt : Text
  attempts : Int
  lastError : Option Text
  nextRetryAt : Text
  deriving DecidableEq

def recorded : Text := "recorded".toList

def delivered : Text := "delivered".toList

def confirmed : Text := "confirmed".toList

def rejected : Text := "rejected".toList

def published : Text := "published".toList

def pending : Text := "pending".toList

def dead : Text := "dead".toList

/-- What the ledger needs of its surroundings: time stamps, and JSON texts read back. -/
structure Env where
  clock : Clock
  fromStr : Text → Option Json

/-- Both tables; each has one row for a key of a delivery. -/
structure TaskDb where
  deliveries : Table DeliveryRow.idempotencyKey
  outbox : Table NotifyOutboxRow.deliveryKey

def notifyBackoffSecs (attempts : Int) : Nat :=
  let shift := (max 0 (min 6 (attempts - 1))).toNat
  min (15 * 2 ^ shift) 600

/-- `UPDATE deliveries SET .. WHERE idempotency_key = ?1 AND ..`, and whether a row changed. -/
def updateDelivery (db : TaskDb) (key : Text) (p : DeliveryRow → Bool)
    (f : Table.Setter DeliveryRow.idempotencyKey) : TaskDb × Bool :=
  let hit := fun r : DeliveryRow => r.idempotencyKey = key && p r
  ({ db with deliveries := db.deliveries.update hit f }, db.deliveries.rows.any hit)

def clearOutbox (db : TaskDb) (key : Text) : TaskDb :=
  { db with outbox := db.outbox.delete (Table.hasKey NotifyOutboxRow.deliveryKey key) }

structure Record where
  kind : Text
  runId : Option Text
  key : Text
  payload : Json
  notifyExpected : Bool

/-- A key that is in the ledger stays with the row it has. -/
def recordDelivery (env : Env) (db : TaskDb) (r : Record) (id : Text) (now : Int) :
    TaskDb × Bool :=
  ({ db with
      deliveries := db.deliveries.insert
        { id := id
          runId := r.runId
          kind := r.kind
          idempotencyKey := r.key
          status := recorded
          payload := r.payload.render
          createdAt := env.clock.toRfc3339 now
          deliveredAt := none
          confirmedAt := none
          rejectedAt := none
          rejectReason := none
          notifyState := if r.notifyExpected then pending else "none".toList
          notifyAttempts := 0
          notifyLastError := none
          notifyNextRetryAt :=
            if r.notifyExpected then some (env.clock.toRfc3339 now) else none } },
    (db.deliveries.find r.key).isNone)

def markDeliveryChannelAccepted (env : Env) (db : TaskDb) (key : Text) (now : Int) :
    TaskDb × Bool :=
  updateDelivery db key (fun r => r.status = recorded)
    { set := fun r =>
        { r with
          status := delivered
          deliveredAt := r.deliveredAt.or (some (env.clock.toRfc3339 now))
          notifyState := "channel_accepted".toList
          notifyNextRetryAt := none }
      key_set := fun _ => rfl }

/-- The retry row stays in its box. -/
def markDeliveryNotifyDead (db : TaskDb) (key : Text) : TaskDb × Bool :=
  updateDelivery db key (fun r => r.notifyState = pending)
    { set := fun r => { r with notifyState := dead, notifyNextRetryAt := none }
      key_set := fun _ => rfl }

def confirmDelivery (env : Env) (db : TaskDb) (key : Text) (now : Int) : TaskDb × Bool :=
  let done := updateDelivery db key (fun r => r.status = recorded || r.status = delivered)
    { set := fun r =>
        { r with
          status := confirmed
          confirmedAt := some (env.clock.toRfc3339 now)
          notifyState := confirmed
          notifyNextRetryAt := none }
      key_set := fun _ => rfl }
  (if done.2 then clearOutbox done.1 key else done.1, done.2)

def rejectDelivery (env : Env) (db : TaskDb) (key reason : Text) (now : Int) : TaskDb × Bool :=
  let done := updateDelivery db key (fun r => r.status ≠ rejected)
    { set := fun r =>
        { r with
          status := rejected
          rejectedAt := some (env.clock.toRfc3339 now)
          rejectReason := some reason
          notifyNextRetryAt := none }
      key_set := fun _ => rfl }
  (if done.2 then clearOutbox done.1 key else done.1, done.2)

/-- The statuses that a delivery is published from. -/
def publishable (r : DeliveryRow) : Bool :=
  r.status = recorded || r.status = delivered || r.status = confirmed

def markDeliveryPublished (env : Env) (db : TaskDb) (key : Text) (now : Int) : TaskDb × Bool :=
  updateDelivery db key publishable
    { set := fun r =>
        { r with
          status := published
          confirmedAt := r.confirmedAt.or (some (env.clock.toRfc3339 now)) }
      key_set := fun _ => rfl }

/-- The stored payload with the top level keys of the patch. -/
def mergedPayload (env : Env) (r : DeliveryRow) (patch : Json) : Json :=
  match (env.fromStr r.payload).getD .null, patch with
  | .obj fields, .obj entries =>
    .obj (entries.foldl (fun kept e => insertSorted e.1 e.2 kept) fields)
  | payload, _ => payload

def deliveryNotFound (key : Text) : Text := "delivery ".toList ++ key ++ " not found".toList

def mergeDeliveryPayload (env : Env) (db : TaskDb) (key : Text) (patch : Json) :
    TaskDb × Except Text Json :=
  match db.deliveries.find key with
  | none => (db, .error (deliveryNotFound key))
  | some row =>
    let payload := mergedPayload env row patch
    ((updateDelivery db key (fun _ => true)
      { set := fun r => { r with payload := payload.render }
        key_set := fun _ => rfl }).1, .ok payload)

/-- The number of rows that the update changed is not looked at. -/
def markDeliveryPublishedWithPayload (env : Env) (db : TaskDb) (key : Text) (patch : Json)
    (now : Int) : TaskDb × Except Text Json :=
  match db.deliveries.find key with
  | none => (db, .error (deliveryNotFound key))
  | some row =>
    let payload := mergedPayload env row patch
    ((updateDelivery db key publishable
      { set := fun r =>
          { r with
            payload := payload.render
            status := published
            confirmedAt := r.confirmedAt.or (some (env.clock.toRfc3339 now)) }
        key_set := fun _ => rfl }).1, .ok payload)

/-- One retry row for the key; the state of the delivery is not looked at. -/
def notifyEnqueueFailure (env : Env) (db : TaskDb) (key message lastError id : Text)
    (now : Int) : TaskDb :=
  let attempts := ((db.outbox.find key).map (·.attempts)).getD 0 + 1
  let nextRetry := env.clock.toRfc3339 (now + 1000000000 * notifyBackoffSecs attempts)
  let outbox := match db.outbox.find key with
    | none => db.outbox.insert
        { id := id
          deliveryKey := key
          message := message
          createdAt := env.clock.toRfc3339 now
          attempts := 1
          lastError := some lastError
          nextRetryAt := nextRetry }
    | some _ => db.outbox.update (Table.hasKey NotifyOutboxRow.deliveryKey key)
        { set := fun r =>
            { r with
              message := message
              attempts := attempts
              lastError := some lastError
              nextRetryAt := nextRetry }
          key_set := fun _ => rfl }
  (updateDelivery { db with outbox := outbox } key (fun _ => true)
    { set := fun r =>
        { r with
          notifyAttempts := attempts
          notifyLastError := some lastError
          notifyNextRetryAt := some nextRetry }
      key_set := fun _ => rfl }).1

def dueBefore (a b : NotifyOutboxRow) : Prop :=
  a.nextRetryAt < b.nextRetryAt ∨ (a.nextRetryAt = b.nextRetryAt ∧ a.id ≤ b.id)

instance : DecidableRel dueBefore := fun a b => by
  unfold dueBefore
  infer_instance

def notifyDue (db : TaskDb) (now : Text) (limit : Nat) : List NotifyOutboxRow :=
  ((db.outbox.select (·.nextRetryAt ≤ now)).insertionSort dueBefore).take limit

def notifyRemove (db : TaskDb) (outboxId : Text) : TaskDb :=
  { db with outbox := db.outbox.delete (·.id = outboxId) }

def notifyRemoveByDelivery (db : TaskDb) (key : Text) : TaskDb := clearOutbox db key

/-- The tables and what the callers have seen of them. -/
structure State where
  db : TaskDb
  /-- keys that a read showed with `notify_state` pending -/
  seenPending : List Text
  /-- keys that a rejection, a confirmation or a dead letter succeeded for -/
  stopped : List Text
  /-- payloads that a publication answered with, and the row then -/
  acknowledged : List (Json × Option DeliveryRow)

def start (db : TaskDb) : State := ⟨db, [], [], []⟩

def State.after (s : State) (db : TaskDb) : State := { s with db := db }

/-- A call that stops the notifications of the key when it succeeds. -/
def State.stop (s : State) (key : Text) (r : TaskDb × Bool) : State :=
  { s with db := r.1, stopped := if r.2 then key :: s.stopped else s.stopped }

def State.acknowledge (s : State) (key : Text) (r : TaskDb × Except Text Json) : State :=
  match r.2 with
  | .ok payload =>
    { s with
      db := r.1
      acknowledged := (payload, r.1.deliveries.find key) :: s.acknowledged }
  | .error _ => s.after r.1

inductive Act where
  | recordDelivery (r : Record) (id : Text) (now : Int)
  | markDeliveryChannelAccepted (key : Text) (now : Int)
  | markDeliveryNotifyDead (key : Text)
  | confirmDelivery (key : Text) (now : Int)
  | rejectDelivery (key reason : Text) (now : Int)
  | markDeliveryPublished (key : Text) (now : Int)
  | markDeliveryPublishedWithPayload (key : Text) (patch : Json) (now : Int)
  | mergeDeliveryPayload (key : Text) (patch : Json)
  | deliveryByKey (key : Text)
  | notifyEnqueueFailure (key message lastError id : Text) (now : Int)
  | notifyRemove (outboxId : Text)
  | notifyRemoveByDelivery (key : Text)

/-- A failure is only put in the box after a read of the delivery showed it pending. -/
def step (env : Env) (s : State) : Act → Option State
  | .recordDelivery r id now => some (s.after (recordDelivery env s.db r id now).1)
  | .markDeliveryChannelAccepted key now =>
    some (s.after (markDeliveryChannelAccepted env s.db key now).1)
  | .markDeliveryNotifyDead key => some (s.stop key (markDeliveryNotifyDead s.db key))
  | .confirmDelivery key now => some (s.stop key (confirmDelivery env s.db key now))
  | .rejectDelivery key reason now => some (s.stop key (rejectDelivery env s.db key reason now))
  | .markDeliveryPublished key now => some (s.after (markDeliveryPublished env s.db key now).1)
  | .markDeliveryPublishedWithPayload key patch now =>
    some (s.acknowledge key (markDeliveryPublishedWithPayload env s.db key patch now))
  | .mergeDeliveryPayload key patch => some (s.after (mergeDeliveryPayload env s.db key patch).1)
  | .deliveryByKey key =>
    if (s.db.deliveries.find key).any (·.notifyState = pending) then
      some { s with seenPending := key :: s.seenPending }
    else some s
  | .notifyEnqueueFailure key message lastError id now =>
    if key ∈ s.seenPending then
      some (s.after (notifyEnqueueFailure env s.db key message lastError id now))
    else none
  | .notifyRemove outboxId => some (s.after (notifyRemove s.db outboxId))
  | .notifyRemoveByDelivery key => some (s.after (notifyRemoveByDelivery s.db key))

/-- How a decision about a delivery may change. -/
structure Allowed (a b : Text) : Prop where
  rejected : a = rejected → b = rejected
  published : a = published → b = published ∨ b = Deliveries.rejected
  confirmed : a = confirmed → b = confirmed ∨ b = Deliveries.published ∨ b = Deliveries.rejected

theorem Allowed.refl (a : Text) : Allowed a a := ⟨id, .inl, .inl⟩

theorem Allowed.trans {a b c : Text} (h : Allowed a b) (k : Allowed b c) : Allowed a c where
  rejected ha := k.rejected (h.rejected ha)
  published ha := by
    rcases h.published ha with hb | hb
    · exact k.published hb
    · exact .inr (k.rejected hb)
  confirmed ha := by
    rcases h.confirmed ha with hb | hb | hb
    · exact k.confirmed hb
    · exact .inr (k.published hb)
    · exact .inr (.inr (k.rejected hb))

/-- No delivery goes away, and its decision changes as it may. -/
def Keeps (d e : TaskDb) : Prop :=
  ∀ key r, d.deliveries.find key = some r →
    ∃ q, e.deliveries.find key = some q ∧ Allowed r.status q.status

theorem Keeps.of_eq {d e : TaskDb} (h : e.deliveries = d.deliveries) : Keeps d e :=
  fun _ r hr => ⟨r, h ▸ hr, .refl _⟩

theorem Keeps.trans {d e f : TaskDb} (h : Keeps d e) (k : Keeps e f) : Keeps d f := by
  intro key r hr
  obtain ⟨q, hq, hrq⟩ := h key r hr
  obtain ⟨p, hp, hqp⟩ := k key q hq
  exact ⟨p, hp, hrq.trans hqp⟩

theorem keeps_updateDelivery (db : TaskDb) (key : Text) {p : DeliveryRow → Bool}
    {f : Table.Setter DeliveryRow.idempotencyKey}
    (h : ∀ r, p r = true → Allowed r.status (f.set r).status) :
    Keeps db (updateDelivery db key p f).1 := by
  intro k r hr
  simp only [updateDelivery, Table.find_update, hr, Option.map_some, Option.some.injEq,
    exists_eq_left']
  split
  · rename_i hp
    exact h r (by simp_all)
  · exact .refl _

theorem keeps_insert (db : TaskDb) (row : DeliveryRow) :
    Keeps db { db with deliveries := db.deliveries.insert row } := by
  intro k r hr
  refine ⟨r, ?_, .refl _⟩
  rw [Table.find_insert]
  split
  · simp [hr]
  · exact hr

theorem allowed_of_publishable {r : DeliveryRow} (h : publishable r = true) :
    Allowed r.status published := by
  have hr : r.status ≠ rejected := by
    intro hst
    rw [publishable, hst] at h
    exact absurd h (by decide)
  exact ⟨fun hst => absurd hst hr, fun _ => .inl rfl, fun _ => .inr (.inl rfl)⟩

theorem allowed_of_recorded {a : Text} (b : Text) (h : a = recorded ∨ a = delivered) :
    Allowed a b := by
  rcases h with rfl | rfl
  · exact ⟨fun h => absurd h (by decide), fun h => absurd h (by decide),
      fun h => absurd h (by decide)⟩
  · exact ⟨fun h => absurd h (by decide), fun h => absurd h (by decide),
      fun h => absurd h (by decide)⟩

theorem keeps_clear {d e : TaskDb} (h : Keeps d e) (key : Text) (c : Bool) :
    Keeps d (if c then clearOutbox e key else e) := by
  split
  · exact h
  · exact h

/-- Whatever call is made, decisions change as they may. -/
theorem step_keeps {env : Env} {s t : State} {act : Act} (h : step env s act = some t) :
    Keeps s.db t.db := by
  cases act with
  | recordDelivery r id now =>
    obtain rfl := Option.some.inj h
    exact keeps_insert _ _
  | markDeliveryChannelAccepted key now =>
    obtain rfl := Option.some.inj h
    exact keeps_updateDelivery _ _ fun r hr => allowed_of_recorded _ (.inl (by simpa using hr))
  | markDeliveryNotifyDead key =>
    obtain rfl := Option.some.inj h
    exact keeps_updateDelivery _ _ fun r _ => .refl _
  | confirmDelivery key now =>
    obtain rfl := Option.some.inj h
    refine keeps_clear (keeps_updateDelivery _ _ fun r hr => ?_) _ _
    exact allowed_of_recorded _ (by simpa using hr)
  | rejectDelivery key reason now =>
    obtain rfl := Option.some.inj h
    refine keeps_clear (keeps_updateDelivery _ _ fun r _ => ?_) _ _
    exact ⟨fun _ => rfl, fun _ => .inr rfl, fun _ => .inr (.inr rfl)⟩
  | markDeliveryPublished key now =>
    obtain rfl := Option.some.inj h
    exact keeps_updateDelivery _ _ fun r hr => allowed_of_publishable hr
  | markDeliveryPublishedWithPayload key patch now =>
    obtain rfl := Option.some.inj h
    simp only [State.acknowledge, markDeliveryPublishedWithPayload]
    cases s.db.deliveries.find key with
    | none => exact .of_eq rfl
    | some row => exact keeps_updateDelivery _ _ fun r hr => allowed_of_publishable hr
  | mergeDeliveryPayload key patch =>
    obtain rfl := Option.some.inj h
    simp only [State.after, mergeDeliveryPayload]
    cases s.db.deliveries.find key with
    | none => exact .of_eq rfl
    | some row => exact keeps_updateDelivery _ _ fun r _ => .refl _
  | deliveryByKey key =>
    simp only [step] at h
    split at h
    · obtain rfl := Option.some.inj h
      exact .of_eq rfl
    · obtain rfl := Option.some.inj h
      exact .of_eq rfl
  | notifyEnqueueFailure key message lastError id now =>
    simp only [step] at h
    split at h
    · obtain rfl := Option.some.inj h
      exact keeps_updateDelivery { s.db with outbox := _ } _ fun r _ => .refl _
    · cases h
  | notifyRemove outboxId =>
    obtain rfl := Option.some.inj h
    exact .of_eq rfl
  | notifyRemoveByDelivery key =>
    obtain rfl := Option.some.inj h
    exact .of_eq rfl

/-- The steps that keep the tables in step: a failure is put in the box only for a key that was
not stopped, a dead letter leaves no retry row, and what is published with a payload either can
be published or has that payload already. -/
def InStep (env : Env) (s : State) : Act → Prop
  | .notifyEnqueueFailure key _ _ _ _ => key ∉ s.stopped
  | .markDeliveryNotifyDead key => (s.db.deliveries.find key).any (·.notifyState = pending) →
      s.db.outbox.find key = none
  | .markDeliveryPublishedWithPayload key patch _ =>
    ∀ r ∈ s.db.deliveries.find key, publishable r ∨
      (r.status = published ∧ r.payload = (mergedPayload env r patch).render)
  | _ => True

instance (env : Env) (s : State) (act : Act) : Decidable (InStep env s act) := by
  unfold InStep
  split <;> infer_instance

/-- No retry row of a stopped delivery, and every answer of a publication is stored. -/
structure Stopped (s : State) : Prop where
  empty : ∀ key ∈ s.stopped, s.db.outbox.find key = none
  stored : ∀ a ∈ s.acknowledged, ∃ r, a.2 = some r ∧ r.status = published ∧
    r.payload = a.1.render

theorem Stopped.of_subset {s t : State} (h : Stopped s) (hstop : t.stopped = s.stopped)
    (hack : t.acknowledged = s.acknowledged)
    (hout : ∀ key, s.db.outbox.find key = none → t.db.outbox.find key = none) : Stopped t where
  empty key hk := hout key (h.empty key (hstop ▸ hk))
  stored a ha := h.stored a (hack ▸ ha)

theorem find_clearOutbox (db : TaskDb) (key k : Text) :
    (clearOutbox db key).outbox.find k = if k = key then none else db.outbox.find k := by
  rw [clearOutbox, Table.find_delete]
  cases hf : db.outbox.find k with
  | none => simp
  | some r =>
    have hr := Table.key_of_find hf
    by_cases hk : k = key <;> simp [hr, hk]

/-- A decision that clears the box when it succeeds. -/
theorem stopped_stop {s : State} (h : Stopped s) (key : Text) (d : TaskDb) (ok : Bool)
    (hd : d.outbox = s.db.outbox) :
    Stopped (s.stop key (if ok then clearOutbox d key else d, ok)) := by
  cases ok with
  | false => exact h.of_subset rfl rfl fun k hk => by simpa [State.stop, hd] using hk
  | true =>
    refine ⟨fun k hk => ?_, h.stored⟩
    simp only [State.stop, if_pos, find_clearOutbox, hd]
    split
    · rfl
    · rename_i hne
      rcases List.mem_cons.mp hk with rfl | hk
      · exact absurd rfl hne
      · exact h.empty k hk

theorem stopped_step {env : Env} (s : State) (act : Act) (t : State) (hs : Stopped s)
    (hok : InStep env s act) (h : step env s act = some t) : Stopped t := by
  cases act with
  | recordDelivery r id now =>
    obtain rfl := Option.some.inj h
    exact hs.of_subset rfl rfl fun _ hk => hk
  | markDeliveryChannelAccepted key now =>
    obtain rfl := Option.some.inj h
    exact hs.of_subset rfl rfl fun _ hk => hk
  | markDeliveryNotifyDead key =>
    obtain rfl := Option.some.inj h
    refine ⟨fun k hk => ?_, hs.stored⟩
    change s.db.outbox.find k = none
    by_cases hany : (markDeliveryNotifyDead s.db key).2 = true
    · rw [State.stop, if_pos hany] at hk
      rcases List.mem_cons.mp hk with rfl | hk
      · obtain ⟨r, hr, hp⟩ := List.any_eq_true.mp hany
        simp only [Bool.and_eq_true, decide_eq_true_eq] at hp
        refine hok ?_
        rw [Table.find_eq_some_iff.mpr ⟨hr, hp.1⟩]
        simp [hp.2]
      · exact hs.empty k hk
    · rw [State.stop, if_neg hany] at hk
      exact hs.empty k hk
  | confirmDelivery key now =>
    obtain rfl := Option.some.inj h
    exact stopped_stop hs key _ _ rfl
  | rejectDelivery key reason now =>
    obtain rfl := Option.some.inj h
    exact stopped_stop hs key _ _ rfl
  | markDeliveryPublished key now =>
    obtain rfl := Option.some.inj h
    exact hs.of_subset rfl rfl fun _ hk => hk
  | markDeliveryPublishedWithPayload key patch now =>
    obtain rfl := Option.some.inj h
    cases hf : s.db.deliveries.find key with
    | none =>
      simp only [State.acknowledge, markDeliveryPublishedWithPayload, hf]
      exact hs.of_subset rfl rfl fun _ hk => hk
    | some row =>
      simp only [State.acknowledge, markDeliveryPublishedWithPayload, hf]
      refine ⟨hs.empty, fun a ha => ?_⟩
      rcases List.mem_cons.mp ha with rfl | ha
      · have hkey := Table.key_of_find hf
        simp only [updateDelivery, Table.find_update, hf, Option.map_some, Option.some.injEq,
          exists_eq_left', hkey, decide_true, Bool.true_and]
        rcases hok row hf with hpub | ⟨hst, hpay⟩
        · simp [hpub]
        · split
          · exact ⟨rfl, rfl⟩
          · exact ⟨hst, hpay⟩
      · exact hs.stored a ha
  | mergeDeliveryPayload key patch =>
    obtain rfl := Option.some.inj h
    simp only [State.after, mergeDeliveryPayload]
    cases s.db.deliveries.find key with
    | none => exact hs.of_subset rfl rfl fun _ hk => hk
    | some row => exact hs.of_subset rfl rfl fun _ hk => hk
  | deliveryByKey key =>
    simp only [step] at h
    split at h
    · obtain rfl := Option.some.inj h
      exact hs.of_subset rfl rfl fun _ hk => hk
    · obtain rfl := Option.some.inj h
      exact hs
  | notifyEnqueueFailure key message lastError id now =>
    simp only [step] at h
    split at h
    · obtain rfl := Option.some.inj h
      refine ⟨fun k hk => ?_, hs.stored⟩
      have hne : k ≠ key := fun he => hok (he ▸ hk)
      have hnone := hs.empty k hk
      simp only [State.after, notifyEnqueueFailure, updateDelivery]
      split
      · rw [Table.find_insert, if_neg hne]
        exact hnone
      · rw [Table.find_update, hnone]
        rfl
    · cases h
  | notifyRemove outboxId =>
    obtain rfl := Option.some.inj h
    exact hs.of_subset rfl rfl fun k hk => by
      simp [State.after, notifyRemove, hk]
  | notifyRemoveByDelivery key =>
    obtain rfl := Option.some.inj h
    exact hs.of_subset rfl rfl fun k hk => by
      simp [State.after, notifyRemoveByDelivery, find_clearOutbox, hk]

theorem stopped_start (db : TaskDb) : Stopped (start db) :=
  ⟨fun _ h => (List.not_mem_nil h).elim, fun _ h => (List.not_mem_nil h).elim⟩

theorem mem_notifyDue {db : TaskDb} {now : Text} {limit : Nat} {r : NotifyOutboxRow}
    (h : r ∈ notifyDue db now limit) : r ∈ db.outbox.rows := by
  have hmem := List.mem_of_mem_take h
  rw [List.mem_insertionSort] at hmem
  exact (Table.mem_select.mp hmem).1

/-- Decisions are final, and while the calls stay in step they stop the notifications. -/
theorem decisions_final (env : Env) {db : TaskDb} {acts : List Act} {s : State}
    (hok : Along (step env) (InStep env) (start db) acts)
    (hrun : run (step env) (start db) acts = some s) :
    (∀ later t, run (step env) s later = some t → Keeps s.db t.db) ∧
      (∀ now limit, ∀ r ∈ notifyDue s.db now limit, r.deliveryKey ∉ s.stopped) ∧
      (s.db.outbox.rows.map NotifyOutboxRow.deliveryKey).Nodup ∧
      ∀ a ∈ s.acknowledged, ∃ r, a.2 = some r ∧ r.status = published ∧
        r.payload = a.1.render := by
  have h := run_invariant stopped_step (stopped_start db) hok hrun
  refine ⟨fun later t ht => ?_, fun now limit r hr hstop => ?_, s.db.outbox.nodup, h.stored⟩
  · have hstep (m : State) (act : Act) (n : State) (hm : Keeps s.db m.db)
        (hn : step env m act = some n) : Keeps s.db n.db := hm.trans (step_keeps hn)
    exact run_invariant_always hstep (.of_eq rfl) ht
  · exact Table.find_eq_none_iff.mp (h.empty _ hstop) r (mem_notifyDue hr) rfl

def noon : Text := "2026-11-06T12:00:00+00:00".toList

def noonEnv : Env where
  clock := ⟨fun _ => noon, fun _ => some 0⟩
  fromStr s := if s = "\x7b\x7d".toList then some (.obj []) else none

def emptyDb : TaskDb := ⟨Table.empty, Table.empty⟩

def branchRecord : Record := ⟨"result".toList, none, "k".toList, .obj [], true⟩

/-- A notification fails, and the delivery is then confirmed and published. -/
def publishActs : List Act :=
  [.recordDelivery branchRecord "d1".toList 0, .deliveryByKey "k".toList,
    .notifyEnqueueFailure "k".toList "m".toList "offline".toList "n1".toList 0,
    .confirmDelivery "k".toList 0,
    .markDeliveryPublishedWithPayload "k".toList (.obj [("pr_number".toList, .num ['7'])]) 0]

def publishEnd : State :=
  (run (step noonEnv) (start emptyDb) publishActs).get (by decide)

theorem decisions_final_published :
    publishEnd.stopped = ["k".toList] ∧
      (∀ now limit, ∀ r ∈ notifyDue publishEnd.db now limit, r.deliveryKey ∉ publishEnd.stopped) ∧
      ∀ a ∈ publishEnd.acknowledged, ∃ r, a.2 = some r ∧ r.status = published ∧
        r.payload = a.1.render := by
  have hok : Along (step noonEnv) (InStep noonEnv) (start emptyDb) publishActs := by decide
  have hrun : run (step noonEnv) (start emptyDb) publishActs = some publishEnd :=
    (Option.some_get _).symm
  have h := decisions_final noonEnv hok hrun
  exact ⟨by decide, h.2.1, h.2.2.2⟩

/-- A dead letter leaves its row in the box, so the sweep goes on with it. -/
theorem dead_letter_still_due :
    ¬ ∀ (acts : List Act) (s : State), run (step noonEnv) (start emptyDb) acts = some s →
      ∀ now limit, ∀ r ∈ notifyDue s.db now limit, r.deliveryKey ∉ s.stopped := by
  intro h
  have hdue := h [.recordDelivery branchRecord "d1".toList 0, .deliveryByKey "k".toList,
    .notifyEnqueueFailure "k".toList "m".toList "offline".toList "n1".toList 0,
    .markDeliveryNotifyDead "k".toList] _ rfl noon 1
  revert hdue
  decide

end NemesisBot.Deliveries

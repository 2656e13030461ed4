import NemesisBot.Lib.Strings
import NemesisBot.Lib.Table

/-! Tasks of the cluster and the store that keeps them in memory. -/
namespace NemesisBot.TaskManager
open Strings

/-- Time stamps, as `chrono` writes and reads them; instants are nanoseconds. -/
structure Clock where
  toRfc3339 : Int → Text
  parseFromRfc3339 : Text → Option Int

inductive TaskStatus where
  | pending
  | running
  | completed
  | failed
  | cancelled
  deriving DecidableEq, Repr

structure Task (V : Type*) where
  id : Text
  status : TaskStatus
  action : Text
  peerId : Text
  payload : V
  result : Option V
  originalChannel : Text
  originalChatId : Text
  createdAt : Text
  completedAt : Option Text

def isTerminalStatus : TaskStatus → Bool
  | .completed => true
  | .failed => true
  | .cancelled => true
  | _ => false

variable {V : Type*}

def taskNotFound (id : Text) : Text := "task not found: ".toList ++ id

def taskExists (id : Text) : Text := "task already exists: ".toList ++ id

/-- The fields a settled or assigned task gets; only a terminal status stamps the time. -/
def Task.withResult (status : TaskStatus) (result : Option V) (now : Text) (t : Task V) : Task V :=
  { t with
    status := status
    result := result
    completedAt := if isTerminalStatus status then some now else t.completedAt }

@[simp]
theorem Task.withResult_status (status : TaskStatus) (result : Option V) (now : Text)
    (t : Task V) : (t.withResult status result now).status = status := rfl

/-- The store is a map by id, and the id of a task never changes. -/
abbrev InMemoryTaskStore (V : Type*) := Table (Task.id (V := V))

def setResult (status : TaskStatus) (result : Option V) (now : Text) :
    Table.Setter (Task.id (V := V)) where
  set := Task.withResult status result now
  key_set _ := rfl

namespace InMemoryTaskStore

def create (s : InMemoryTaskStore V) (task : Task V) : InMemoryTaskStore V × Except Text Unit :=
  match s.find task.id with
  | some _ => (s, .error (taskExists task.id))
  | none => (s.insert task, .ok ())

def get (s : InMemoryTaskStore V) (id : Text) : Except Text (Task V) :=
  match s.find id with
  | some t => .ok t
  | none => .error (taskNotFound id)

def updateResult (s : InMemoryTaskStore V) (id : Text) (status : TaskStatus) (result : Option V)
    (now : Text) : InMemoryTaskStore V × Except Text Unit :=
  match s.find id with
  | none => (s, .error (taskNotFound id))
  | some _ => (s.update (Table.hasKey Task.id id) (setResult status result now), .ok ())

def updateResultIfStatus (s : InMemoryTaskStore V) (id : Text) (expected : List TaskStatus)
    (status : TaskStatus) (result : Option V) (now : Text) :
    InMemoryTaskStore V × Except Text Bool :=
  match s.find id with
  | none => (s, .error (taskNotFound id))
  | some t =>
    if t.status ∈ expected then
      (s.update (Table.hasKey Task.id id) (setResult status result now), .ok true)
    else (s, .ok false)

def delete (s : InMemoryTaskStore V) (id : Text) : InMemoryTaskStore V × Except Text Unit :=
  match s.find id with
  | none => (s, .error (taskNotFound id))
  | some _ => (Table.delete s (Table.hasKey Task.id id), .ok ())

def listByStatus (s : InMemoryTaskStore V) (status : TaskStatus) : List (Task V) :=
  s.select (·.status = status)

def listAll (s : InMemoryTaskStore V) : List (Task V) := s.rows

/-- An update of one task shows under its id only. -/
theorem find_setResult {s : InMemoryTaskStore V} {id : Text} {t : Task V} (h : s.find id = some t)
    (status : TaskStatus) (result : Option V) (now k : Text) :
    (s.update (Table.hasKey Task.id id) (setResult status result now)).find k =
      if k = id then some (t.withResult status result now) else s.find k := by
  rw [Table.find_update]
  by_cases hk : k = id
  · subst hk
    simp [h, Table.key_of_find h, setResult]
  · rw [if_neg hk]
    cases hf : s.find k with
    | none => rfl
    | some u =>
      have hne : ¬ u.id = id := fun hu => hk ((Table.key_of_find hf).symm.trans hu)
      simp [hne]

/-- The conditional update went through. -/
theorem updateResultIfStatus_ok {s store : InMemoryTaskStore V} {id : Text}
    {expected : List TaskStatus} {status : TaskStatus} {result : Option V} {now : Text}
    (h : s.updateResultIfStatus id expected status result now = (store, .ok true)) :
    ∃ t, s.find id = some t ∧ t.status ∈ expected ∧ ∀ k, store.find k =
      if k = id then some (t.withResult status result now) else s.find k := by
  simp only [updateResultIfStatus] at h
  split at h
  · cases h
  · rename_i t ht
    split at h
    · rename_i hst
      cases h
      exact ⟨t, ht, hst, find_setResult ht status result now⟩
    · cases h

theorem find_delete_fst (s : InMemoryTaskStore V) (id k : Text) :
    (s.delete id).1.find k = if k = id then none else s.find k := by
  simp only [delete]
  split
  · rename_i h
    split
    · rename_i hk
      rw [hk, h]
    · rfl
  · rw [Table.find_delete]
    cases hf : s.find k with
    | none => simp
    | some u =>
      have hu := Table.key_of_find hf
      by_cases hk : k = id <;> simp [hu, hk]

end InMemoryTaskStore

end NemesisBot.TaskManager

import NemesisBot.Agent.SessionStore

/-! `fork_session_opts`: three artifacts written one after another. The mapping of keys to file
names (`sanitize_path_segment`) is a parameter; every write can fail. -/
namespace NemesisBot.SessionFork
open Strings Agent

structure SessionMeta where
  parent : Option Text
  forkedAtTurn : Option Nat
  lineageDetached : Bool
  projectId : Option Text
  projectPath : Option Text
  deriving DecidableEq

def SessionMeta.default : SessionMeta := ⟨none, none, false, none, none⟩

/-- Files by their sanitized name, the store's sessions in memory by their key. A store file
that does not parse is `some none`. -/
structure World where
  logs : Text → Option (List Line)
  metas : Text → Option SessionMeta
  boundaries : Text → List (Text × Text)
  storage : Bool
  files : Text → Option (Option StoredSession)
  memory : Text → Option StoredSession

/-- Which writes fail. A failed write of the copied rows leaves `n` lines behind. -/
structure Faults where
  copyOpen : Bool
  copyWrite : Option Nat
  rebuildSave : Bool
  projectMeta : Bool
  save : Bool
  boundaryOut : Bool
  boundaryIn : Bool
  parentMeta : Bool

inductive ForkError where
  | emptyLog
  | noTurns
  | zeroTurn
  | blankKey
  | occupied
  | copyIo
  | copyPartial (written : Nat)
  | saveFailed
  deriving DecidableEq, Repr

structure ForkInfo where
  sourceKey : Text
  newKey : Text
  atTurn : Nat
  keptMessages : Nat
  droppedMessages : Nat
  droppedUserTurns : Nat
  droppedRows : List Json
  summaryKept : Bool
  chatLogLines : Nat

variable (sanitize : Text → Text)

def taken (w : World) (k : Text) : Bool :=
  (w.memory k).isSome || (w.storage && (w.files (sanitize k)).isSome) ||
    ((w.logs (sanitize k)).isSome || (w.metas (sanitize k)).isSome)

/-- The first free `base_n`, as far as the counter (an `i32`) goes. -/
def firstFree (w : World) (base : Text) (n : Nat) : Option Text :=
  if n < 2 ^ 31 then
    let cand := base ++ "_".toList ++ (toString n).toList
    if taken sanitize w cand then firstFree w base (n + 1) else some cand
  else none
termination_by 2 ^ 31 - n

def uniqueKey (w : World) (sourceKey : Text) (requested : Option Text) : Option Text :=
  let base := requested.getD (sourceKey ++ "__fork".toList)
  if taken sanitize w base then firstFree sanitize w base 2 else some base

inductive ChatLogCreateError where
  | alreadyExists
  | io

def writeLog (w : World) (key : Text) (lines : List Line) : World :=
  { w with logs := Function.update w.logs (sanitize key) (some lines) }

def createChatLogExclusive (w : World) (newKey : Text) (rows : List Json) (faults : Faults) :
    World × Except ChatLogCreateError Nat :=
  if rows = [] then (w, .ok 0)
  else if (w.logs (sanitize newKey)).isSome then (w, .error .alreadyExists)
  else if faults.copyOpen then (w, .error .io)
  else
    let lines := rows.map Line.row
    match faults.copyWrite with
    | some n => (writeLog sanitize w newKey (lines.take n), .ok 0)
    | none => (writeLog sanitize w newKey lines, .ok rows.length)

def deleteChatLog (w : World) (key : Text) : World :=
  { w with
    logs := Function.update w.logs (sanitize key) none
    metas := Function.update w.metas (sanitize key) none
    boundaries := Function.update w.boundaries (sanitize key) [] }

def save (w : World) (key : Text) (fails : Bool) : World × Bool :=
  if w.storage then match w.memory key with
    | some s => if fails then (w, false)
      else ({ w with files := Function.update w.files (sanitize key) (some (some s)) }, true)
    | none => (w, true)
  else (w, true)

def insertSession (w : World) (key : Text) (s : StoredSession) : World :=
  { w with memory := Function.update w.memory key (some s) }

def rebuildFromChatLog (w : World) (key : Text) : Option StoredSession :=
  let rows := (readChatLog ((w.logs (sanitize key)).getD []) (some maxStoredMessages)).1
  let messages := projectedMessagesFromRows rows
  if messages = [] then none
  else
    let m := w.metas (sanitize key)
    some ⟨messages, "", none, m.bind SessionMeta.projectId, m.bind SessionMeta.projectPath⟩

def getOrCreate (w : World) (key : Text) (saveFails : Bool) : World :=
  match w.memory key with
  | some _ => w
  | none =>
    match if w.storage then (w.files (sanitize key)).bind id else none with
    | some s => insertSession w key s
    | none =>
      match if w.storage then rebuildFromChatLog sanitize w key else none with
      | some s => (save sanitize (insertSession w key s) key saveFails).1
      | none => insertSession w key .empty

def modifySession (w : World) (key : Text) (f : StoredSession → StoredSession) : World :=
  match w.memory key with
  | some s => insertSession w key (f s)
  | none => w

def upsertMeta (w : World) (key : Text) (fails : Bool) (f : SessionMeta → SessionMeta) : World :=
  if fails then w
  else
    let m := f ((w.metas (sanitize key)).getD .default)
    { w with metas := Function.update w.metas (sanitize key) (some m) }

def writeSessionProject (w : World) (key projectId projectPath : Text) (fails : Bool) : World :=
  upsertMeta sanitize w key fails fun m =>
    { m with projectId := some projectId, projectPath := some projectPath }

def writeSessionParent (w : World) (key parent : Text) (forkedAtTurn : Nat) (fails : Bool) :
    World :=
  upsertMeta sanitize w key fails fun m =>
    { m with parent := some parent, forkedAtTurn := some forkedAtTurn, lineageDetached := false }

def appendBoundaryEvent (w : World) (key : Text) (event : Text × Text) (fails : Bool) : World :=
  if fails then w
  else
    let events := w.boundaries (sanitize key) ++ [event]
    { w with boundaries := Function.update w.boundaries (sanitize key) events }

/-- The project of the source goes to the new session's meta file and store entry. -/
def inheritProject (w : World) (sourceKey newKey : Text) (faults : Faults) : World :=
  match w.metas (sanitize sourceKey) with
  | some ⟨_, _, _, some pid, some ppath⟩ =>
    modifySession (writeSessionProject sanitize w newKey pid ppath faults.projectMeta) newKey
      fun s => { s with projectId := some pid, projectPath := some ppath }
  | _ => w

/-- The store side up to the save. -/
def forkStore (w : World) (sourceKey newKey : Text) (kept : List Json) (faults : Faults) : World :=
  let messages := projectedMessagesFromRows kept
  let w := getOrCreate sanitize w newKey faults.rebuildSave
  let w := modifySession w newKey fun s => s.setHistory messages
  let w := modifySession w newKey fun s => { s with summary := "" }
  let w := modifySession w newKey fun s => { s with summaryCoversUpTo := none }
  inheritProject sanitize w sourceKey newKey faults

structure ForkPlan where
  rows : List Json
  total : Nat
  atTurn : Nat
  cut : Nat

/-- The checks before the first write. -/
def forkPlan (w : World) (sourceKey : Text) (requested : Option Text) (atTurn : Option Nat) :
    Except ForkError ForkPlan :=
  let log := readChatLog ((w.logs (sanitize sourceKey)).getD []) none
  let rows := log.1
  if rows = [] then .error .emptyLog
  else
    let turns := rowUserTurnCount rows
    if turns = 0 then .error .noTurns
    else if atTurn = some 0 then .error .zeroTurn
    else
      let n := min (atTurn.getD turns) turns
      if requested.any fun k => trim k = [] then .error .blankKey
      else .ok ⟨rows, log.2, n, rowTurnCut rows n⟩

def forkEvents (w : World) (sourceKey newKey : Text) (plan : ForkPlan) (faults : Faults) : World :=
  let w := appendBoundaryEvent sanitize w sourceKey ("session_fork_out".toList,
    "forked to ".toList ++ newKey ++ " at turn ".toList ++ (toString plan.atTurn).toList ++
      " (kept ".toList ++ (toString plan.cut).toList ++ " / dropped ".toList ++
      (toString (plan.total - plan.cut)).toList ++ " log rows)".toList) faults.boundaryOut
  appendBoundaryEvent sanitize w newKey ("session_fork_in".toList,
    "forked from ".toList ++ sourceKey ++ " at turn ".toList ++ (toString plan.atTurn).toList ++
      " (kept ".toList ++ (toString plan.cut).toList ++
      " log rows, summary_kept=false)".toList) faults.boundaryIn

/-- What follows the save; none of it can fail the fork. -/
def forkFinish (w : World) (sourceKey newKey : Text) (plan : ForkPlan) (independent : Bool)
    (faults : Faults) : World :=
  let w := forkEvents sanitize w sourceKey newKey plan faults
  if independent then w
  else writeSessionParent sanitize w newKey sourceKey plan.atTurn faults.parentMeta

/-- The writes under the new key. -/
def forkInto (w : World) (sourceKey newKey : Text) (plan : ForkPlan) (independent : Bool)
    (faults : Faults) : World × Except ForkError ForkInfo :=
  let kept := plan.rows.take plan.cut
  match createChatLogExclusive sanitize w newKey kept faults with
  | (w, .error .alreadyExists) => (w, .error .occupied)
  | (w, .error .io) => (deleteChatLog sanitize w newKey, .error .copyIo)
  | (w, .ok written) =>
    if written ≠ kept.length then (deleteChatLog sanitize w newKey, .error (.copyPartial written))
    else
      let w := forkStore sanitize w sourceKey newKey kept faults
      match save sanitize w newKey faults.save with
      | (w, false) => (w, .error .saveFailed)
      | (w, true) =>
        (forkFinish sanitize w sourceKey newKey plan independent faults, .ok {
          sourceKey := sourceKey
          newKey := newKey
          atTurn := plan.atTurn
          keptMessages := plan.cut
          droppedMessages := plan.total - plan.cut
          droppedUserTurns := rowUserTurnCount (plan.rows.drop plan.cut)
          droppedRows := plan.rows.drop plan.cut
          summaryKept := false
          chatLogLines := written })

/-- `none` when the counter of `unique_key` runs out. -/
def forkSessionOpts (w : World) (sourceKey : Text) (requested : Option Text)
    (atTurn : Option Nat) (independent : Bool) (faults : Faults) :
    Option (World × Except ForkError ForkInfo) :=
  match forkPlan sanitize w sourceKey requested atTurn with
  | .error e => some (w, .error e)
  | .ok plan => (uniqueKey sanitize w sourceKey requested).map fun newKey =>
    forkInto sanitize w sourceKey newKey plan independent faults

/-! What a fork must leave behind. -/

/-- No chat log, metadata or store entry under the key. -/
structure NothingUnder (w : World) (k : Text) : Prop where
  log : w.logs (sanitize k) = none
  meta_file : w.metas (sanitize k) = none
  memory : w.memory k = none
  file : w.storage = true → w.files (sanitize k) = none

structure SourceUnchanged (w w' : World) (sourceKey : Text) : Prop where
  log : w'.logs (sanitize sourceKey) = w.logs (sanitize sourceKey)
  meta_file : w'.metas (sanitize sourceKey) = w.metas (sanitize sourceKey)
  boundaries : w'.boundaries (sanitize sourceKey) = w.boundaries (sanitize sourceKey)
  file : w'.files (sanitize sourceKey) = w.files (sanitize sourceKey)

def sourceRows (w : World) (sourceKey : Text) : List Json :=
  (readChatLog ((w.logs (sanitize sourceKey)).getD []) none).1

/-- The new log holds the kept rows, and the store the messages of those rows. -/
structure Forked (w' : World) (newKey : Text) (kept : List Json) : Prop where
  log : w'.logs (sanitize newKey) = some (kept.map Line.row)
  history : ∃ s, w'.memory newKey = some s ∧ s.messages = projectedMessagesFromRows kept ∧
    (w'.storage = true → w'.files (sanitize newKey) = some (some s))

def AllOrNothing (w : World) (sourceKey : Text) (requested : Option Text) (atTurn : Option Nat)
    (independent : Bool) (faults : Faults) : Prop :=
  ∀ w' r, forkSessionOpts sanitize w sourceKey requested atTurn independent faults = some (w', r) →
    match r with
    | .error _ =>
      (∀ k, uniqueKey sanitize w sourceKey requested = some k → NothingUnder sanitize w' k) ∧
        SourceUnchanged sanitize w w' sourceKey
    | .ok info => ∃ kept,
        IsFirstTurns (atTurn.getD (rowUserTurnCount (sourceRows sanitize w sourceKey)))
          (sourceRows sanitize w sourceKey) kept ∧
        Forked sanitize w' info.newKey kept

/-- The request is accepted, the chat log is copied, and the save of the store entry fails. -/
structure SaveFails (w : World) (sourceKey : Text) (requested : Option Text)
    (atTurn : Option Nat) (faults : Faults) : Prop where
  accepted : ∃ plan, forkPlan sanitize w sourceKey requested atTurn = .ok plan
  key : ∃ k, uniqueKey sanitize w sourceKey requested = some k
  opened : faults.copyOpen = false
  written : faults.copyWrite = none
  save : w.storage = true ∧ faults.save = true

theorem firstFree_free (w : World) (base k : Text) (n : Nat)
    (h : firstFree sanitize w base n = some k) : taken sanitize w k = false := by
  induction n using firstFree.induct sanitize w base with
  | case1 n hn cand ht ih =>
    rw [firstFree, if_pos hn] at h
    simp only [] at h
    rw [if_pos ht] at h
    exact ih h
  | case2 n hn cand ht =>
    rw [firstFree, if_pos hn] at h
    simp only [] at h
    rw [if_neg ht] at h
    rw [← Option.some.inj h]
    exact Bool.eq_false_iff.mpr ht
  | case3 n hn =>
    rw [firstFree, if_neg hn] at h
    simp at h

/-- Nothing lies under the key that `unique_key` chooses. -/
theorem uniqueKey_free {w : World} {sourceKey k : Text} {requested : Option Text}
    (h : uniqueKey sanitize w sourceKey requested = some k) : NothingUnder sanitize w k := by
  have hfree : taken sanitize w k = false := by
    simp only [uniqueKey] at h
    split at h
    · exact firstFree_free sanitize w _ k 2 h
    · obtain rfl := Option.some.inj h
      exact Bool.eq_false_iff.mpr ‹_›
  simp only [taken, Bool.or_eq_false_iff, Bool.and_eq_false_iff, Option.isSome_eq_false_iff,
    Option.isNone_iff_eq_none] at hfree
  obtain ⟨⟨hm, hf⟩, hl, hme⟩ := hfree
  refine ⟨hl, hme, hm, fun hs => ?_⟩
  cases hf with
  | inl hf => simp [hs] at hf
  | inr hf => exact hf

/-! The store side touches the new key's store entry, store file and metadata only. -/

theorem save_frame (w : World) (key : Text) (fails : Bool) :
    (save sanitize w key fails).1.logs = w.logs ∧
      (save sanitize w key fails).1.storage = w.storage ∧
      (save sanitize w key fails).1.memory = w.memory := by
  unfold save
  split
  · split
    · split <;> exact ⟨rfl, rfl, rfl⟩
    · exact ⟨rfl, rfl, rfl⟩
  · exact ⟨rfl, rfl, rfl⟩

@[simp] theorem insertSession_memory (w : World) (key : Text) (s : StoredSession) :
    (insertSession w key s).memory key = some s := by
  simp [insertSession]

theorem getOrCreate_frame {w : World} {key : Text} (hmem : w.memory key = none)
    (hfiles : w.storage = true → w.files (sanitize key) = none) (fails : Bool) :
    (getOrCreate sanitize w key fails).logs = w.logs ∧
      (getOrCreate sanitize w key fails).storage = w.storage ∧
      ∃ s, (getOrCreate sanitize w key fails).memory key = some s ∧ s.summaryCoversUpTo = none := by
  have hfile : (if w.storage = true then (w.files (sanitize key)).bind id else none) = none := by
    split
    · simp [hfiles ‹_›]
    · rfl
  unfold getOrCreate
  rw [hmem, hfile]
  cases hr : if w.storage = true then rebuildFromChatLog sanitize w key else none with
  | none => exact ⟨rfl, rfl, .empty, insertSession_memory w key .empty, rfl⟩
  | some s =>
    have hs : s.summaryCoversUpTo = none := by
      split at hr
      · simp only [rebuildFromChatLog] at hr
        split at hr
        · simp at hr
        · rw [← Option.some.inj hr]
      · simp at hr
    obtain ⟨hl, hst, hm⟩ := save_frame sanitize (insertSession w key s) key fails
    exact ⟨hl, hst, s, by simp only [hm, insertSession_memory], hs⟩

theorem modifySession_eq {w : World} {key : Text} {s : StoredSession}
    (h : w.memory key = some s) (f : StoredSession → StoredSession) :
    modifySession w key f = insertSession w key (f s) := by
  simp [modifySession, h]

theorem modifySession_insert (w : World) (key : Text) (s : StoredSession)
    (f : StoredSession → StoredSession) :
    modifySession (insertSession w key s) key f = insertSession (insertSession w key s) key (f s) :=
  modifySession_eq (insertSession_memory w key s) f

theorem upsertMeta_frame (w : World) (key : Text) (fails : Bool) (f : SessionMeta → SessionMeta) :
    (upsertMeta sanitize w key fails f).logs = w.logs ∧
      (upsertMeta sanitize w key fails f).storage = w.storage ∧
      (upsertMeta sanitize w key fails f).memory = w.memory ∧
      (upsertMeta sanitize w key fails f).files = w.files := by
  unfold upsertMeta
  split <;> exact ⟨rfl, rfl, rfl, rfl⟩

theorem appendBoundaryEvent_frame (w : World) (key : Text) (event : Text × Text) (fails : Bool) :
    (appendBoundaryEvent sanitize w key event fails).logs = w.logs ∧
      (appendBoundaryEvent sanitize w key event fails).storage = w.storage ∧
      (appendBoundaryEvent sanitize w key event fails).memory = w.memory ∧
      (appendBoundaryEvent sanitize w key event fails).files = w.files := by
  unfold appendBoundaryEvent
  split <;> exact ⟨rfl, rfl, rfl, rfl⟩

theorem inheritProject_frame (w : World) (sourceKey newKey : Text) (faults : Faults)
    {s : StoredSession} (h : w.memory newKey = some s) :
    (inheritProject sanitize w sourceKey newKey faults).logs = w.logs ∧
      (inheritProject sanitize w sourceKey newKey faults).storage = w.storage ∧
      ∃ s', (inheritProject sanitize w sourceKey newKey faults).memory newKey = some s' ∧
        s'.messages = s.messages := by
  unfold inheritProject
  split
  · rename_i pid ppath _
    obtain ⟨hl, hst, hm, -⟩ := upsertMeta_frame sanitize w newKey faults.projectMeta fun m =>
      { m with projectId := some pid, projectPath := some ppath }
    have hmem : (writeSessionProject sanitize w newKey pid ppath faults.projectMeta).memory newKey =
        some s := by
      rw [writeSessionProject, hm, h]
    rw [modifySession_eq hmem]
    exact ⟨hl, hst, _, insertSession_memory _ newKey _, rfl⟩
  · exact ⟨rfl, rfl, s, h, rfl⟩

theorem forkStore_frame {w : World} {newKey : Text} (hmem : w.memory newKey = none)
    (hfiles : w.storage = true → w.files (sanitize newKey) = none) (sourceKey : Text)
    (kept : List Json) (faults : Faults) :
    (forkStore sanitize w sourceKey newKey kept faults).logs = w.logs ∧
      (forkStore sanitize w sourceKey newKey kept faults).storage = w.storage ∧
      ∃ s, (forkStore sanitize w sourceKey newKey kept faults).memory newKey = some s ∧
        s.messages = projectedMessagesFromRows kept := by
  obtain ⟨hl, hst, s, hs, hc⟩ := getOrCreate_frame sanitize hmem hfiles faults.rebuildSave
  have h₁ := modifySession_eq hs fun s => s.setHistory (projectedMessagesFromRows kept)
  rw [setHistory_of_not_covered hc] at h₁
  simp only [forkStore, h₁, modifySession_insert]
  obtain ⟨hl', hst', s', hs', hm'⟩ := inheritProject_frame sanitize _ sourceKey newKey faults
    (insertSession_memory _ newKey _)
  exact ⟨hl'.trans hl, hst'.trans hst, s', hs', hm'⟩

theorem forkPlan_ok {w : World} {sourceKey : Text} {requested : Option Text}
    {atTurn : Option Nat} {plan : ForkPlan}
    (h : forkPlan sanitize w sourceKey requested atTurn = .ok plan) :
    plan.rows = sourceRows sanitize w sourceKey ∧ 0 < rowUserTurnCount plan.rows ∧
      atTurn ≠ some 0 ∧
      plan.atTurn = min (atTurn.getD (rowUserTurnCount plan.rows)) (rowUserTurnCount plan.rows) ∧
      plan.cut = rowTurnCut plan.rows plan.atTurn := by
  simp only [forkPlan] at h
  split at h
  · simp at h
  · split at h
    · simp at h
    · rename_i hturns
      split at h
      · simp at h
      · rename_i hzero
        split at h
        · simp at h
        · obtain rfl := Except.ok.inj h
          simp only [sourceRows, and_true, true_and]
          exact ⟨Nat.pos_of_ne_zero hturns, hzero⟩

/-- The rows that a fork copies: the first turns, and never none. -/
theorem plan_kept {w : World} {sourceKey : Text} {requested : Option Text}
    {atTurn : Option Nat} {plan : ForkPlan}
    (h : forkPlan sanitize w sourceKey requested atTurn = .ok plan) :
    IsFirstTurns (atTurn.getD (rowUserTurnCount (sourceRows sanitize w sourceKey)))
        (sourceRows sanitize w sourceKey) (plan.rows.take plan.cut) ∧
      plan.rows.take plan.cut ≠ [] := by
  obtain ⟨hr, hpos, hz, hn, hcut⟩ := forkPlan_ok sanitize h
  have hfirst := isFirstTurns_rowTurnCut plan.rows plan.atTurn
  rw [← hcut] at hfirst
  rw [← hr]
  constructor
  · exact ⟨by rw [hfirst.turns, hn]; omega, hfirst.front⟩
  · intro hnil
    have ht := hfirst.turns
    rw [hnil, hn] at ht
    have hzero : rowUserTurnCount [] = 0 := rfl
    cases ha : atTurn with
    | none =>
      simp only [ha, Option.getD_none, hzero] at ht
      omega
    | some n =>
      have hn0 : n ≠ 0 := fun hn0 => hz (by rw [ha, hn0])
      simp only [ha, Option.getD_some, hzero] at ht
      omega

/-- The source has a log, so it is none of the files under a free key. -/
theorem source_ne {w : World} {sourceKey newKey : Text}
    (hsrc : sourceRows sanitize w sourceKey ≠ []) (hfree : NothingUnder sanitize w newKey) :
    sanitize sourceKey ≠ sanitize newKey := by
  intro h
  apply hsrc
  simp [sourceRows, h, hfree.log, readChatLog]

/-- Taking back a copied log leaves the world without the new key. -/
theorem deleteChatLog_clean {w w₁ : World} {sourceKey newKey : Text}
    (hfree : NothingUnder sanitize w newKey) (hne : sanitize sourceKey ≠ sanitize newKey)
    (h : w₁ = w ∨ ∃ lines, w₁ = writeLog sanitize w newKey lines) :
    NothingUnder sanitize (deleteChatLog sanitize w₁ newKey) newKey ∧
      SourceUnchanged sanitize w (deleteChatLog sanitize w₁ newKey) sourceKey := by
  rcases h with rfl | ⟨lines, rfl⟩
  · exact ⟨⟨by simp [deleteChatLog], by simp [deleteChatLog], hfree.memory, hfree.file⟩,
      by simp [deleteChatLog, hne], by simp [deleteChatLog, hne], by simp [deleteChatLog, hne], rfl⟩
  · exact ⟨⟨by simp [deleteChatLog], by simp [deleteChatLog], hfree.memory, hfree.file⟩,
      by simp [deleteChatLog, writeLog, hne], by simp [deleteChatLog, writeLog, hne],
      by simp [deleteChatLog, writeLog, hne], rfl⟩

theorem createChatLogExclusive_eq {w : World} {newKey : Text} {rows : List Json}
    (faults : Faults) (hrows : rows ≠ []) (hfree : NothingUnder sanitize w newKey) :
    createChatLogExclusive sanitize w newKey rows faults =
      if faults.copyOpen then (w, .error .io)
      else match faults.copyWrite with
        | some n => (writeLog sanitize w newKey ((rows.map Line.row).take n), .ok 0)
        | none => (writeLog sanitize w newKey (rows.map Line.row), .ok rows.length) := by
  simp [createChatLogExclusive, hrows, hfree.log]

/-- The world before the save of the store entry. -/
def beforeSave (w : World) (sourceKey newKey : Text) (plan : ForkPlan) (faults : Faults) : World :=
  let kept := plan.rows.take plan.cut
  forkStore sanitize (writeLog sanitize w newKey (kept.map Line.row)) sourceKey newKey kept faults

theorem beforeSave_frame {w : World} {newKey : Text} (hfree : NothingUnder sanitize w newKey)
    (sourceKey : Text) (plan : ForkPlan) (faults : Faults) :
    (beforeSave sanitize w sourceKey newKey plan faults).logs (sanitize newKey) =
        some ((plan.rows.take plan.cut).map Line.row) ∧
      (beforeSave sanitize w sourceKey newKey plan faults).storage = w.storage ∧
      ∃ s, (beforeSave sanitize w sourceKey newKey plan faults).memory newKey = some s ∧
        s.messages = projectedMessagesFromRows (plan.rows.take plan.cut) := by
  obtain ⟨hl, hst, hs⟩ := forkStore_frame sanitize
    (w := writeLog sanitize w newKey ((plan.rows.take plan.cut).map Line.row)) hfree.memory
    hfree.file sourceKey (plan.rows.take plan.cut) faults
  refine ⟨?_, hst, hs⟩
  rw [beforeSave, hl]
  simp [writeLog]

/-- Once the log is copied, the save decides. -/
theorem forkInto_copied {w : World} {newKey : Text} {plan : ForkPlan} {faults : Faults}
    (hkept : plan.rows.take plan.cut ≠ []) (hfree : NothingUnder sanitize w newKey)
    (hopen : faults.copyOpen = false) (hwrite : faults.copyWrite = none) (sourceKey : Text)
    (independent : Bool) :
    if w.storage = true ∧ faults.save = true then
      forkInto sanitize w sourceKey newKey plan independent faults =
        (beforeSave sanitize w sourceKey newKey plan faults, .error .saveFailed)
    else
      (∃ info, (forkInto sanitize w sourceKey newKey plan independent faults).2 = .ok info ∧
        info.newKey = newKey) ∧
      (forkInto sanitize w sourceKey newKey plan independent faults).1 =
        forkFinish sanitize
          (save sanitize (beforeSave sanitize w sourceKey newKey plan faults) newKey false).1
          sourceKey newKey plan independent faults := by
  obtain ⟨-, hst, s, hs, -⟩ := beforeSave_frame sanitize hfree sourceKey plan faults
  have hcopy := createChatLogExclusive_eq sanitize faults hkept hfree
  rw [hopen, hwrite] at hcopy
  simp only [Bool.false_eq_true, if_false] at hcopy
  simp only [forkInto, hcopy, ne_eq, not_true_eq_false, if_false]
  rw [← beforeSave]
  by_cases hfail : w.storage = true ∧ faults.save = true
  · rw [if_pos hfail]
    have hsave : save sanitize (beforeSave sanitize w sourceKey newKey plan faults) newKey
        faults.save = (beforeSave sanitize w sourceKey newKey plan faults, false) := by
      simp [save, hst, hfail, hs]
    rw [hsave]
  · rw [if_neg hfail]
    have hsave : save sanitize (beforeSave sanitize w sourceKey newKey plan faults) newKey
        faults.save =
          ((save sanitize (beforeSave sanitize w sourceKey newKey plan faults) newKey false).1,
            true) := by
      by_cases hstore : w.storage = true
      · have hf : faults.save = false := by simpa [hstore] using hfail
        simp [save, hst, hstore, hs, hf]
      · simp [save, hst, hstore]
    rw [hsave]
    exact ⟨⟨_, rfl, rfl⟩, rfl⟩

theorem forkFinish_frame (w : World) (sourceKey newKey : Text) (plan : ForkPlan)
    (independent : Bool) (faults : Faults) :
    (forkFinish sanitize w sourceKey newKey plan independent faults).logs = w.logs ∧
      (forkFinish sanitize w sourceKey newKey plan independent faults).storage = w.storage ∧
      (forkFinish sanitize w sourceKey newKey plan independent faults).memory = w.memory ∧
      (forkFinish sanitize w sourceKey newKey plan independent faults).files = w.files := by
  have hevents : (forkEvents sanitize w sourceKey newKey plan faults).logs = w.logs ∧
      (forkEvents sanitize w sourceKey newKey plan faults).storage = w.storage ∧
      (forkEvents sanitize w sourceKey newKey plan faults).memory = w.memory ∧
      (forkEvents sanitize w sourceKey newKey plan faults).files = w.files := by
    unfold forkEvents
    simp only [appendBoundaryEvent_frame, and_self]
  unfold forkFinish
  cases independent with
  | true => simpa using hevents
  | false => simpa [writeSessionParent, upsertMeta_frame] using hevents

/-- A fork whose save succeeds is the one that was asked for. -/
theorem forked_of_saved {w : World} {newKey : Text} (hfree : NothingUnder sanitize w newKey)
    (sourceKey : Text) (plan : ForkPlan) (independent : Bool) (faults : Faults) :
    Forked sanitize (forkFinish sanitize
      (save sanitize (beforeSave sanitize w sourceKey newKey plan faults) newKey false).1
      sourceKey newKey plan independent faults) newKey (plan.rows.take plan.cut) := by
  obtain ⟨hl, hst, s, hs, hm⟩ := beforeSave_frame sanitize hfree sourceKey plan faults
  have hsave := save_frame sanitize (beforeSave sanitize w sourceKey newKey plan faults) newKey false
  have hfin := forkFinish_frame sanitize
    (save sanitize (beforeSave sanitize w sourceKey newKey plan faults) newKey false).1 sourceKey
    newKey plan independent faults
  constructor
  · rw [hfin.1, hsave.1, hl]
  · refine ⟨s, ?_, hm, ?_⟩
    · rw [hfin.2.2.1, hsave.2.2, hs]
    · intro hstore
      rw [hfin.2.1, hsave.2.1] at hstore
      rw [hfin.2.2.2]
      simp [save, hs, hstore]

theorem forkSessionOpts_accepted {w : World} {sourceKey k : Text} {requested : Option Text}
    {atTurn : Option Nat} {plan : ForkPlan}
    (hplan : forkPlan sanitize w sourceKey requested atTurn = .ok plan)
    (hk : uniqueKey sanitize w sourceKey requested = some k) (independent : Bool)
    (faults : Faults) :
    forkSessionOpts sanitize w sourceKey requested atTurn independent faults =
      some (forkInto sanitize w sourceKey k plan independent faults) := by
  simp only [forkSessionOpts, hplan, hk, Option.map_some]

/-- A failed copy is taken back. -/
theorem forkInto_not_copied {w : World} {newKey : Text} {plan : ForkPlan} {faults : Faults}
    (hkept : plan.rows.take plan.cut ≠ []) (hfree : NothingUnder sanitize w newKey)
    (h : faults.copyOpen = true ∨ faults.copyWrite ≠ none) (sourceKey : Text)
    (independent : Bool) :
    ∃ w₁ e, (w₁ = w ∨ ∃ lines, w₁ = writeLog sanitize w newKey lines) ∧
      forkInto sanitize w sourceKey newKey plan independent faults =
        (deleteChatLog sanitize w₁ newKey, .error e) := by
  have hcopy := createChatLogExclusive_eq sanitize faults hkept hfree
  have hpos : 0 ≠ (plan.rows.take plan.cut).length := by
    intro hz
    exact hkept (List.eq_nil_of_length_eq_zero hz.symm)
  cases hopen : faults.copyOpen with
  | true =>
    rw [hopen, if_pos rfl] at hcopy
    exact ⟨w, .copyIo, .inl rfl, by simp only [forkInto, hcopy]⟩
  | false =>
    cases hwrite : faults.copyWrite with
    | none => simp [hopen, hwrite] at h
    | some n =>
      rw [hopen, hwrite] at hcopy
      simp only [Bool.false_eq_true, if_false] at hcopy
      refine ⟨writeLog sanitize w newKey (((plan.rows.take plan.cut).map Line.row).take n),
        .copyPartial 0, .inr ⟨_, rfl⟩, ?_⟩
      simp only [forkInto, hcopy, if_pos hpos]

/-- A failed save leaves the store entry in memory and the chat log on disk. -/
theorem saveFails_leaves {w : World} {sourceKey : Text} {requested : Option Text}
    {atTurn : Option Nat} {faults : Faults}
    (hf : SaveFails sanitize w sourceKey requested atTurn faults) (independent : Bool) :
    ¬ AllOrNothing sanitize w sourceKey requested atTurn independent faults := by
  intro h
  obtain ⟨plan, hplan⟩ := hf.accepted
  obtain ⟨k, hk⟩ := hf.key
  have hfree := uniqueKey_free sanitize hk
  have hcopied := forkInto_copied sanitize (plan_kept sanitize hplan).2 hfree hf.opened hf.written
    sourceKey independent
  rw [if_pos hf.save] at hcopied
  have hfork := forkSessionOpts_accepted sanitize hplan hk independent faults
  rw [hcopied] at hfork
  obtain ⟨-, -, s, hs, -⟩ := beforeSave_frame sanitize hfree sourceKey plan faults
  have hnone := ((h _ _ hfork).1 k hk).memory
  rw [hs] at hnone
  simp at hnone

theorem all_or_nothing_iff (w : World) (sourceKey : Text) (requested : Option Text)
    (atTurn : Option Nat) (independent : Bool) (faults : Faults) :
    AllOrNothing sanitize w sourceKey requested atTurn independent faults ↔
      ¬ SaveFails sanitize w sourceKey requested atTurn faults := by
  constructor
  · exact fun h hf => saveFails_leaves sanitize hf independent h
  · intro h w' r hfork
    cases hplan : forkPlan sanitize w sourceKey requested atTurn with
    | error e =>
      simp only [forkSessionOpts, hplan, Option.some.injEq, Prod.mk.injEq] at hfork
      obtain ⟨rfl, rfl⟩ := hfork
      exact ⟨fun k hk => uniqueKey_free sanitize hk, rfl, rfl, rfl, rfl⟩
    | ok plan =>
      cases hk : uniqueKey sanitize w sourceKey requested with
      | none => simp [forkSessionOpts, hplan, hk] at hfork
      | some k =>
        rw [forkSessionOpts_accepted sanitize hplan hk, Option.some.injEq] at hfork
        have hfree := uniqueKey_free sanitize hk
        obtain ⟨hfirst, hkept⟩ := plan_kept sanitize hplan
        by_cases hcopied : faults.copyOpen = true ∨ faults.copyWrite ≠ none
        · have hne : sanitize sourceKey ≠ sanitize k := by
            apply source_ne sanitize _ hfree
            intro hnil
            apply hkept
            rw [(forkPlan_ok sanitize hplan).1, hnil, List.take_nil]
          obtain ⟨w₁, e, hw, hinto⟩ :=
            forkInto_not_copied sanitize hkept hfree hcopied sourceKey independent
          rw [hinto, Prod.mk.injEq] at hfork
          obtain ⟨rfl, rfl⟩ := hfork
          have hclean := deleteChatLog_clean sanitize hfree hne hw
          refine ⟨fun k' hk' => ?_, hclean.2⟩
          rw [← Option.some.inj hk']
          exact hclean.1
        · simp only [not_or, Bool.not_eq_true, not_not] at hcopied
          have hsaved : ¬ (w.storage = true ∧ faults.save = true) := fun hs =>
            h ⟨⟨plan, hplan⟩, ⟨k, hk⟩, hcopied.1, hcopied.2, hs⟩
          have hinto := forkInto_copied sanitize hkept hfree hcopied.1 hcopied.2 sourceKey
            independent
          rw [if_neg hsaved] at hinto
          obtain ⟨⟨info, hr, hkey⟩, hw⟩ := hinto
          rw [← Prod.eta (forkInto sanitize w sourceKey k plan independent faults), hr, hw,
            Prod.mk.injEq] at hfork
          obtain ⟨rfl, rfl⟩ := hfork
          refine ⟨_, hfirst, ?_⟩
          rw [hkey]
          exact forked_of_saved sanitize hfree sourceKey plan independent faults

def oneTurnWorld : World where
  logs := fun k => if k = "s".toList then
      some [.row (.obj [("role".toList, .str "user".toList), ("content".toList, .str "hi".toList)])]
    else none
  metas := fun _ => none
  boundaries := fun _ => []
  storage := true
  files := fun _ => none
  memory := fun _ => none

/-- The disk is full when the store entry is saved: the fork fails but its parts remain. -/
theorem failed_save_leaves_fork :
    ¬ AllOrNothing id oneTurnWorld "s".toList none none false
      ⟨false, none, true, false, true, false, false, false⟩ := by
  apply saveFails_leaves
  refine ⟨⟨_, rfl⟩, ⟨"s__fork".toList, ?_⟩, rfl, rfl, rfl, rfl⟩
  decide

end NemesisBot.SessionFork

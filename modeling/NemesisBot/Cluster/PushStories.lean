import NemesisBot.Cluster.PushLoop

/-! The outbox holds what its history tells, and the push loop acts on that. -/
namespace NemesisBot.Outbox.Loop
open Strings Transfer Runs
open TaskManager (Clock)

variable {C : Type}

/-- An entry as its history tells it: what was packed, where it stands, since when it counts, and
when its pushes have failed since then, the latest first. -/
structure Story (C : Type) where
  packed : OutboxEntry C
  place : EntryState
  since : Int
  failures : List Int

def Event.dir : Event C → Text
  | .entered packed _ => sanitizeTransferId packed.taskId
  | .replayed dir _ | .rearmed dir _ | .visited dir .. | .answered dir .. => dir

def Story.after (st : Option (Story C)) : Event C → Option (Story C)
  | .entered packed now => some ⟨packed, .pending, now, []⟩
  | .replayed _ now =>
    st.map fun st => { st with place := .pending, since := now, failures := [] }
  | .rearmed .. => st.map fun st => { st with place := .pending }
  | .visited _ _ _ _ .dies true => st.map fun st => { st with place := .dead }
  | .visited _ _ _ _ .pushes true => st.map fun st => { st with place := .pushing }
  | .visited .. => st
  | .answered _ (.ok .delivered) _ true | .answered _ (.ok .nothingToSend) _ true => none
  | .answered _ (.ok (.overlimit ..)) _ true => st.map fun st => { st with place := .overLimit }
  | .answered _ (.error _) now true =>
    st.map fun st => { st with place := .pending, failures := now :: st.failures }
  | .answered _ _ _ false => st

def story (dir : Text) : List (Event C) → Option (Story C)
  | [] => none
  | event :: past =>
    if event.dir = dir then Story.after (story dir past) event else story dir past

/-- The first instant at which a push may be tried again. -/
def retryAt (failures : List Int) : Option Int :=
  failures.head?.map (· + nanos * (pushBackoffSecs failures.length : Int))

/-- What the file of the entry holds, its last error apart. -/
def Story.entry (clock : Clock) (st : Story C) : Entry C :=
  { st.packed with
    state := st.place
    createdAt := clock.toRfc3339 st.since
    attempts := st.failures.length
    lastError := none
    nextRetryAt := if st.place = .dead then none else (retryAt st.failures).map clock.toRfc3339 }

def Entry.bare (e : Entry C) : Entry C := { e with lastError := none }

/-- What is to be made of an entry that is pending. -/
def Story.judge (st : Story C) (aged now : Int) (online : Bool) : Verdict :=
  if deadLetterMaxAttempts ≤ st.failures.length ∨ deadLetterAgeSecs ≤ numSeconds (aged - st.since)
  then .dies
  else if (retryAt st.failures).any (now < ·) then .waits
  else if online then .pushes
  else .offline

/-- The event follows from what has come to pass before. -/
def Event.Explained (past : List (Event C)) : Event C → Prop
  | .entered packed _ => story (sanitizeTransferId packed.taskId) past = none
  | .replayed dir _ => ∃ st, story dir past = some st ∧ st.place = .dead
  | .rearmed dir limit => ∃ st, story dir past = some st ∧ (st.place = .pushing ∨
      st.place = .overLimit ∧ (limit = 0 ∨ st.packed.totalBytes ≤ limit))
  | .visited dir aged now online verdict _ => ∃ st, story dir past = some st ∧
      st.place = .pending ∧ verdict = st.judge aged now online
  | .answered dir .. => ∃ st, story dir past = some st ∧ st.place = .pushing

def Explained : List (Event C) → Prop
  | [] => True
  | event :: past => event.Explained past ∧ Explained past

/-- No more than a thousand pushes fail. -/
def Story.Few (st : Story C) : Prop :=
  st.failures.length ≤ deadLetterMaxAttempts ∧
    (st.place = .pushing → st.failures.length < deadLetterMaxAttempts)

/-- The entries that are still to come are on the disk as they were read, those that the loop will
turn to. -/
structure Held (p : EntryState → Bool) (entries : Entries C) (rest : List (Entry C)) : Prop where
  nodup : (rest.map Entry.dir).Nodup
  same : ∀ e ∈ rest, p e.state = true → entries.find e.dir = some e

def toRearm : EntryState → Bool
  | .pushing | .overLimit => true
  | .pending | .dead => false

def toPush : EntryState → Bool
  | .pending => true
  | .pushing | .overLimit | .dead => false

def Phase.Fresh (entries : Entries C) : Phase C → Prop
  | .down => True
  | .sweeping rest => Held toRearm entries rest
  | .round rest => Held toPush entries rest
  | .pushing e rest => e.state = .pushing ∧ entries.find e.dir = some e ∧
      e.dir ∉ rest.map Entry.dir ∧ Held toPush entries rest

structure Inv (clock : Clock) (s : State C) : Prop where
  told : ∀ dir, (s.entries.find dir).map Entry.bare = (story dir s.log).map (Story.entry clock)
  explained : Explained s.log
  few : ∀ dir st, story dir s.log = some st → st.Few
  fresh : s.phase.Fresh s.entries

/-! What is read stays on the disk. -/

section
variable {p : EntryState → Bool} {entries entries' : Entries C} {rest : List (Entry C)}

theorem Held.mono (h : Held p entries rest)
    (hkeep : ∀ e ∈ rest, p e.state = true → entries.find e.dir = some e →
      entries'.find e.dir = some e) : Held p entries' rest :=
  ⟨h.nodup, fun e he hp => hkeep e he hp (h.same e he hp)⟩

theorem Held.tail {e : Entry C} (h : Held p entries (e :: rest)) : Held p entries rest :=
  ⟨(List.nodup_cons.mp h.nodup).2, fun e' he' hp => h.same e' (List.mem_cons_of_mem _ he') hp⟩

theorem Held.head_notin {e : Entry C} (h : Held p entries (e :: rest)) :
    e.dir ∉ rest.map Entry.dir := (List.nodup_cons.mp h.nodup).1

theorem Held.others (h : Held p entries rest) {dir : Text} (hdir : dir ∉ rest.map Entry.dir)
    (hsame : ∀ k, k ≠ dir → entries'.find k = entries.find k) : Held p entries' rest := by
  refine h.mono fun e he _ hfind => ?_
  have hne : e.dir ≠ dir := fun heq => hdir (heq ▸ List.mem_map_of_mem he)
  rw [hsame _ hne, hfind]

theorem held_listEntries (p : EntryState → Bool) (entries : Entries C) :
    Held p entries (listEntries entries) := by
  have hperm := List.mergeSort_perm entries.rows fun a b => decide (a.createdAt ≤ b.createdAt)
  exact ⟨(hperm.map Entry.dir).nodup_iff.mpr entries.nodup,
    fun e he _ => Table.find_of_mem (hperm.mem_iff.mp he)⟩

theorem find_put_other (entries : Entries C) (e : Entry C) {k : Text} (h : k ≠ e.dir) :
    (entries.put e).find k = entries.find k := by
  rw [Table.find_put, if_neg h]

theorem find_put_same (entries : Entries C) (e : Entry C) :
    (entries.put e).find e.dir = some e := by
  rw [Table.find_put, if_pos rfl]

end

/-- A change of an entry that is neither read nor at work. -/
theorem Phase.Fresh.aside {entries entries' : Entries C} {phase : Phase C}
    (h : phase.Fresh entries) {dir : Text} (hsame : ∀ k, k ≠ dir → entries'.find k = entries.find k)
    (hfind : ∀ e, entries.find dir = some e → e.state = .dead) : phase.Fresh entries' := by
  have hheld {p : EntryState → Bool} {rest : List (Entry C)} (hdead : p .dead = false)
      (h : Held p entries rest) : Held p entries' rest := by
    refine h.mono fun e he hp hin => ?_
    have hne : e.dir ≠ dir := by
      intro heq
      rw [hfind e (heq ▸ hin), hdead] at hp
      cases hp
    rw [hsame _ hne, hin]
  cases phase with
  | down => trivial
  | sweeping rest => exact hheld rfl h
  | round rest => exact hheld rfl h
  | pushing e rest =>
    obtain ⟨hstate, hin, hnotin, hrest⟩ := h
    have hne : e.dir ≠ dir := by
      intro heq
      have hdead := hfind e (heq ▸ hin)
      rw [hstate] at hdead
      cases hdead
    exact ⟨hstate, (hsame _ hne).trans hin, hnotin, hheld rfl hrest⟩

/-! An entry and its story. -/

section
variable {clock : Clock} {s : State C}

theorem Inv.story_of_find (h : Inv clock s) {dir : Text} {e : Entry C}
    (he : s.entries.find dir = some e) :
    ∃ st, story dir s.log = some st ∧ e = { st.entry clock with lastError := e.lastError } := by
  have htold := h.told dir
  rw [he, Option.map_some] at htold
  obtain ⟨st, hst, hentry⟩ := Option.map_eq_some_iff.mp htold.symm
  refine ⟨st, hst, ?_⟩
  rw [hentry]
  rfl

theorem Inv.find_of_none (h : Inv clock s) {dir : Text} (he : s.entries.find dir = none) :
    story dir s.log = none := by
  have htold := h.told dir
  rw [he, Option.map_none] at htold
  exact Option.map_eq_none_iff.mp htold.symm

theorem story_other {event : Event C} {dir : Text} (hdir : dir ≠ event.dir)
    (past : List (Event C)) : story dir (event :: past) = story dir past := if_neg hdir.symm

theorem story_same (event : Event C) (past : List (Event C)) :
    story event.dir (event :: past) = Story.after (story event.dir past) event := if_pos rfl

/-- An event of one entry, and what it makes of its file. -/
theorem Inv.next (h : Inv clock s) {entries : Entries C} {phase : Phase C} {event : Event C}
    (hothers : ∀ dir, dir ≠ event.dir → entries.find dir = s.entries.find dir)
    (hat : (entries.find event.dir).map Entry.bare =
      (Story.after (story event.dir s.log) event).map (Story.entry clock))
    (hexplained : event.Explained s.log)
    (hfew : ∀ st, Story.after (story event.dir s.log) event = some st → st.Few)
    (hfresh : phase.Fresh entries) :
    Inv clock { s with entries, phase, log := event :: s.log } := by
  refine ⟨fun dir => ?_, ⟨hexplained, h.explained⟩, fun dir st hst => ?_, hfresh⟩
  · by_cases hdir : dir = event.dir
    · subst hdir
      rw [story_same]
      exact hat
    · rw [story_other hdir, hothers dir hdir]
      exact h.told dir
  · by_cases hdir : dir = event.dir
    · subst hdir
      rw [story_same] at hst
      exact hfew st hst
    · rw [story_other hdir] at hst
      exact h.few dir st hst

theorem Inv.phase (h : Inv clock s) {phase : Phase C} (hfresh : phase.Fresh s.entries) :
    Inv clock { s with phase } := ⟨h.told, h.explained, h.few, hfresh⟩

/-- The loop judges an entry as its story asks. -/
theorem judge_entry (hclock : ∀ t, clock.parseFromRfc3339 (clock.toRfc3339 t) = some t)
    (st : Story C) (hplace : st.place = .pending) (error : Option Text) (aged now : Int)
    (online : Bool) :
    judge clock { st.entry clock with lastError := error } aged now online =
      st.judge aged now online := by
  simp only [judge, Story.judge, Story.entry, hplace, deadLetterAgeDue, entryAgeSecs, hclock,
    Option.map_some, Option.any_some, ne_eq, not_true_eq_false, if_false, reduceCtorEq,
    Bool.or_eq_true, decide_eq_true_eq, Option.bind_map, Function.comp_def, Option.bind_fun_some]

end

/-! The steps. -/

section
variable {clock : Clock} {measure : C → Option (Changes C) → Except Text Nat} {s t : State C}

theorem box_none {dir : Text} (h : s.entries.find dir = none) : s.box.entries dir = none := by
  simp [State.box, h]

theorem enqueue_packs {taskId sourceNode : Text} {changes : Option (Changes C)}
    {packed : OutboxEntry C} (hnone : s.entries.find (sanitizeTransferId taskId) = none)
    (h : (enqueueWithChangeset measure s.box taskId sourceNode changes).2.entries
      (sanitizeTransferId taskId) = some packed) :
    packed.taskId = taskId ∧ packed.state = .pending := by
  have hbox := box_none hnone
  obtain ⟨e, he⟩ | ⟨e, hentry, -⟩ | ⟨src, total, -, -, -, he⟩ :=
    enqueue_cases measure s.box taskId sourceNode changes
  · rw [he, hbox] at h
    cases h
  · rw [hbox] at hentry
    cases hentry
  · rw [he, store_same] at h
    obtain rfl := Option.some.inj h
    exact ⟨rfl, rfl⟩

theorem requestPull_box (box : Outbox.State C) (taskId : Text) (assembling : Bool) :
    (requestPull measure box taskId assembling).2 = box ∨ ∃ sourceNode,
      (requestPull measure box taskId assembling).2 =
        (enqueueWithChangeset measure box taskId sourceNode none).2 := by
  rw [requestPull]
  split
  · exact .inl rfl
  split
  · exact .inl rfl
  split
  · exact .inl rfl
  split
  · exact .inl rfl
  · rename_i dev _
    refine .inr ⟨dev.name, ?_⟩
    split
    · rename_i he
      rw [he]
    · rename_i he
      rw [he]

theorem pull_packs {taskId : Text} {assembling : Bool} {packed : OutboxEntry C}
    (hnone : s.entries.find (sanitizeTransferId taskId) = none)
    (h : (requestPull measure s.box taskId assembling).2.entries (sanitizeTransferId taskId) =
      some packed) : packed.taskId = taskId ∧ packed.state = .pending := by
  obtain hsame | ⟨sourceNode, henqueue⟩ := @requestPull_box C measure s.box taskId assembling
  · rw [hsame, box_none hnone] at h
    cases h
  · rw [henqueue] at h
    exact enqueue_packs hnone h

theorem inv_enter (h : Inv clock s) {taskId : Text} {box : Outbox.State C}
    (hpacks : s.entries.find (sanitizeTransferId taskId) = none → ∀ packed,
      box.entries (sanitizeTransferId taskId) = some packed →
        packed.taskId = taskId ∧ packed.state = .pending) (now : Int) :
    Inv clock (s.enter clock taskId box now) := by
  rw [State.enter]
  split
  · rename_i packed hnone hpacked
    obtain ⟨rfl, hstate⟩ := hpacks hnone packed hpacked
    have hothers (dir : Text) (hdir : dir ≠ sanitizeTransferId packed.taskId)
        (e : Entry C) (he : e.dir = sanitizeTransferId packed.taskId) :
        (s.entries.insert e).find dir = s.entries.find dir := by
      rw [Table.find_insert, if_neg (he ▸ hdir)]
    refine h.next (fun dir hdir => hothers dir hdir _ rfl) ?_ (h.find_of_none hnone) ?_
      (h.fresh.aside (fun k hk => hothers k hk _ rfl) fun e he => ?_)
    · have hfind : (s.entries.insert ⟨packed, clock.toRfc3339 now, 0, none, none⟩).find
          (sanitizeTransferId packed.taskId) =
            some ⟨packed, clock.toRfc3339 now, 0, none, none⟩ := by
        rw [Table.find_insert, hnone]
        exact if_pos rfl
      simp only [Event.dir, Story.after]
      rw [hfind]
      simp [Entry.bare, Story.entry, retryAt, ← hstate]
    · intro st hst
      obtain rfl := Option.some.inj hst
      exact ⟨Nat.zero_le _, fun hplace => by cases hplace⟩
    · rw [hnone] at he
      cases he
  · exact h

theorem replay_cases (entries : Entries C) (taskId : Text) (now : Int) (ok : Bool) (io : Text) :
    (∃ error, replayDeadLetterEntry clock entries taskId now ok io = (.error error, entries)) ∨
    ∃ e, entries.find (sanitizeTransferId taskId) = some e ∧ e.state = .dead ∧
      replayDeadLetterEntry clock entries taskId now ok io =
        (.ok (e.replayed clock now), entries.put (e.replayed clock now)) := by
  rw [replayDeadLetterEntry]
  split
  · exact .inl ⟨_, rfl⟩
  · rename_i e he
    split
    · exact .inl ⟨_, rfl⟩
    · rename_i hdead
      split
      · exact .inr ⟨e, he, not_not.mp hdead, rfl⟩
      · exact .inl ⟨_, rfl⟩

theorem inv_replay (h : Inv clock s) {e : Entry C} (he : s.entries.find e.dir = some e)
    (hdead : e.state = .dead) (now : Int) :
    Inv clock { s with
      entries := s.entries.put (e.replayed clock now)
      log := .replayed e.dir now :: s.log } := by
  obtain ⟨st, hst, hentry⟩ := h.story_of_find he
  have hplace : st.place = .dead := by
    rw [hentry] at hdead
    exact hdead
  have hothers (dir : Text) (hdir : dir ≠ e.dir) :
      (s.entries.put (e.replayed clock now)).find dir = s.entries.find dir :=
    find_put_other s.entries _ hdir
  refine h.next hothers ?_ ⟨st, hst, hplace⟩ (fun st' hst' => ?_)
    (h.fresh.aside hothers fun e' he' => ?_)
  · have hfind : (s.entries.put (e.replayed clock now)).find e.dir =
        some (e.replayed clock now) := find_put_same s.entries _
    simp only [Event.dir, hfind, hst, Story.after, Option.map_some]
    rw [hentry]
    rfl
  · simp only [Event.dir, hst, Story.after, Option.map_some, Option.some.injEq] at hst'
    subst hst'
    exact ⟨Nat.zero_le _, fun hplace => by cases hplace⟩
  · obtain rfl := Option.some.inj (he.symm.trans he')
    exact hdead

theorem rearm_cases {e armed : Entry C} {limit : Nat} (h : e.rearm limit = some armed) :
    (e.state = .pushing ∨ e.state = .overLimit ∧ (limit = 0 ∨ e.totalBytes ≤ limit)) ∧
      armed.bare = { e.bare with state := .pending } ∧ armed.dir = e.dir := by
  rw [Entry.rearm] at h
  split at h
  · rename_i hstate
    obtain rfl := Option.some.inj h
    exact ⟨.inl hstate, rfl, rfl⟩
  · rename_i hstate
    split at h
    · rename_i hlimit
      obtain rfl := Option.some.inj h
      exact ⟨.inr ⟨hstate, hlimit⟩, rfl, rfl⟩
    · cases h
  · cases h

theorem inv_rearm (h : Inv clock s) {e armed : Entry C} {rest : List (Entry C)} {limit : Nat}
    (hphase : s.phase = .sweeping (e :: rest)) (hrearm : e.rearm limit = some armed) :
    Inv clock { s with
      entries := s.entries.put armed
      phase := .sweeping rest
      log := .rearmed e.dir limit :: s.log } := by
  obtain ⟨hstate, hbare, hdir⟩ := rearm_cases hrearm
  have hheld : Held toRearm s.entries (e :: rest) := by
    have hfresh := h.fresh
    rw [hphase] at hfresh
    exact hfresh
  have he : s.entries.find e.dir = some e := by
    refine hheld.same e List.mem_cons_self ?_
    obtain hstate | ⟨hstate, -⟩ := hstate <;> rw [hstate] <;> rfl
  obtain ⟨st, hst, hentry⟩ := h.story_of_find he
  have hplace : st.place = e.state ∧ st.packed.totalBytes = e.totalBytes := by
    rw [hentry]
    exact ⟨rfl, rfl⟩
  have hothers (k : Text) (hk : k ≠ e.dir) :
      (s.entries.put armed).find k = s.entries.find k :=
    find_put_other s.entries armed (hdir ▸ hk)
  refine h.next hothers ?_ ⟨st, hst, ?_⟩ (fun st' hst' => ?_)
    (hheld.tail.others hheld.head_notin hothers)
  · have hfind : (s.entries.put armed).find e.dir = some armed := hdir ▸ find_put_same s.entries _
    have hlive : st.place ≠ .dead := by
      rw [hplace.1]
      obtain hstate | ⟨hstate, -⟩ := hstate <;> rw [hstate] <;> decide
    simp only [Event.dir, hfind, hst, Story.after, Option.map_some, hbare]
    rw [hentry]
    simp [Entry.bare, Story.entry, hlive]
  · rw [hplace.1, hplace.2]
    exact hstate
  · simp only [Event.dir, hst, Story.after, Option.map_some, Option.some.injEq] at hst'
    subst hst'
    exact ⟨(h.few e.dir st hst).1, fun hplace => by cases hplace⟩

theorem Story.judge_ne_skips (st : Story C) (aged now : Int) (online : Bool) :
    st.judge aged now online ≠ .skips := by
  rw [Story.judge]
  split
  · decide
  split
  · decide
  split <;> decide

theorem Story.few_of_pushes {st : Story C} {aged now : Int} {online : Bool}
    (h : st.judge aged now online = .pushes) : st.failures.length < deadLetterMaxAttempts := by
  rw [Story.judge] at h
  split at h
  · cases h
  · rename_i hgates
    omega

/-- An event that leaves the file as it is. -/
theorem Inv.quiet (h : Inv clock s) {phase : Phase C} {event : Event C}
    (hafter : Story.after (story event.dir s.log) event = story event.dir s.log)
    (hexplained : event.Explained s.log) (hfresh : phase.Fresh s.entries) :
    Inv clock { s with phase, log := event :: s.log } := by
  refine h.next (fun _ _ => rfl) ?_ hexplained (fun st hst => ?_) hfresh
  · rw [hafter]
    exact h.told event.dir
  · rw [hafter] at hst
    exact h.few event.dir st hst

theorem inv_visit (hclock : ∀ t, clock.parseFromRfc3339 (clock.toRfc3339 t) = some t)
    (h : Inv clock s) {e : Entry C} {rest : List (Entry C)} (hphase : s.phase = .round (e :: rest))
    (aged now : Int) (online ok : Bool) :
    Inv clock (s.visit clock e rest aged now online ok) := by
  have hheld : Held toPush s.entries (e :: rest) := by
    have hfresh := h.fresh
    rw [hphase] at hfresh
    exact hfresh
  by_cases hstate : e.state = .pending
  swap
  · have hskips : judge clock e aged now online = .skips := if_pos hstate
    have hvisit : s.visit clock e rest aged now online ok = { s with phase := .round rest } := by
      simp only [State.visit, hskips]
    rw [hvisit]
    exact h.phase hheld.tail
  have he : s.entries.find e.dir = some e := by
    refine hheld.same e List.mem_cons_self ?_
    rw [hstate]
    rfl
  obtain ⟨st, hst, hentry⟩ := h.story_of_find he
  have hplace : st.place = .pending := by
    rw [hentry] at hstate
    exact hstate
  have hjudge : judge clock e aged now online = st.judge aged now online := by
    rw [hentry]
    exact judge_entry hclock st hplace e.lastError aged now online
  have hround (entries : Entries C) (hothers : ∀ k, k ≠ e.dir → entries.find k = s.entries.find k) :
      Held toPush entries rest := hheld.tail.others hheld.head_notin hothers
  unfold State.visit
  cases hverdict : judge clock e aged now online with
  | skips => exact absurd (hjudge.symm.trans hverdict) (st.judge_ne_skips aged now online)
  | waits =>
    exact h.quiet rfl ⟨st, hst, hplace, hverdict.symm.trans hjudge⟩ (hround _ fun _ _ => rfl)
  | offline =>
    exact h.quiet rfl ⟨st, hst, hplace, hverdict.symm.trans hjudge⟩ (hround _ fun _ _ => rfl)
  | dies =>
    cases ok with
    | false =>
      exact h.quiet rfl ⟨st, hst, hplace, hverdict.symm.trans hjudge⟩ (hround _ fun _ _ => rfl)
    | true =>
      have hothers (k : Text) (hk : k ≠ e.dir) : (s.entries.put e.dead).find k = s.entries.find k :=
        find_put_other s.entries e.dead hk
      refine h.next hothers ?_ ⟨st, hst, hplace, hverdict.symm.trans hjudge⟩ (fun st' hst' => ?_)
        (hround _ hothers)
      · have hfind : (s.entries.put e.dead).find e.dir = some e.dead := find_put_same s.entries _
        simp only [Event.dir, hfind, hst, Story.after, Option.map_some]
        rw [hentry]
        rfl
      · simp only [Event.dir, hst, Story.after, Option.map_some, Option.some.injEq] at hst'
        subst hst'
        exact ⟨(h.few e.dir st hst).1, fun hplace => by cases hplace⟩
  | pushes =>
    cases ok with
    | false =>
      exact h.quiet rfl ⟨st, hst, hplace, hverdict.symm.trans hjudge⟩ (hround _ fun _ _ => rfl)
    | true =>
      have hothers (k : Text) (hk : k ≠ e.dir) :
          (s.entries.put e.pushing).find k = s.entries.find k :=
        find_put_other s.entries e.pushing hk
      have hfind : (s.entries.put e.pushing).find e.dir = some e.pushing :=
        find_put_same s.entries _
      refine h.next hothers ?_ ⟨st, hst, hplace, hverdict.symm.trans hjudge⟩ (fun st' hst' => ?_)
        ⟨rfl, hfind, hheld.head_notin, hround _ hothers⟩
      · simp only [Event.dir, hfind, hst, Story.after, Option.map_some]
        rw [hentry]
        simp [Entry.bare, Entry.pushing, Story.entry, hplace]
      · simp only [Event.dir, hst, Story.after, Option.map_some, Option.some.injEq] at hst'
        subst hst'
        exact ⟨(h.few e.dir st hst).1, fun _ => Story.few_of_pushes (hjudge.symm.trans hverdict)⟩

theorem inv_answer (h : Inv clock s) {e : Entry C} {rest : List (Entry C)}
    (hphase : s.phase = .pushing e rest) (outcome : Except Text PushOutcome) (now : Int)
    (ok : Bool) : Inv clock (s.answer clock e rest outcome now ok) := by
  obtain ⟨hstate, he, hnotin, hheld⟩ : (Phase.pushing e rest).Fresh s.entries := by
    have hfresh := h.fresh
    rwa [hphase] at hfresh
  obtain ⟨st, hst, hentry⟩ := h.story_of_find he
  have hplace : st.place = .pushing := by
    rw [hentry] at hstate
    exact hstate
  have hfew := h.few e.dir st hst
  cases ok with
  | false =>
    refine h.quiet ?_ ⟨st, hst, hplace⟩ hheld
    cases outcome with
    | error error => rfl
    | ok outcome => cases outcome <;> rfl
  | true =>
    cases outcome with
    | error error =>
      have hothers (k : Text) (hk : k ≠ e.dir) :
          (s.entries.put (e.failed clock error now)).find k = s.entries.find k :=
        find_put_other s.entries _ hk
      refine h.next hothers ?_ ⟨st, hst, hplace⟩ (fun st' hst' => ?_)
        (hheld.others hnotin hothers)
      · have hfind : (s.entries.put (e.failed clock error now)).find e.dir =
            some (e.failed clock error now) := find_put_same s.entries _
        have hmore : moreAttempts st.failures.length = st.failures.length + 1 := by
          have hlt := hfew.2 hplace
          rw [moreAttempts, deadLetterMaxAttempts] at *
          omega
        refine (congrArg (Option.map Entry.bare) hfind).trans ?_
        simp only [Event.dir, hst, Story.after, Option.map_some]
        rw [hentry]
        simp [Entry.bare, Entry.failed, Story.entry, retryAt, hmore]
      · simp only [Event.dir, hst, Story.after, Option.map_some, Option.some.injEq] at hst'
        subst hst'
        exact ⟨hfew.2 hplace, fun hplace => by cases hplace⟩
    | ok outcome =>
      have hgone : Inv clock { s with
          entries := s.entries.delete (Table.hasKey Entry.dir e.dir)
          phase := .round rest
          log := .answered e.dir (.ok .delivered) now true :: s.log } ∧ Inv clock { s with
          entries := s.entries.delete (Table.hasKey Entry.dir e.dir)
          phase := .round rest
          log := .answered e.dir (.ok .nothingToSend) now true :: s.log } := by
        have hothers (k : Text) (hk : k ≠ e.dir) :
            (s.entries.delete (Table.hasKey Entry.dir e.dir)).find k = s.entries.find k := by
          rw [Table.find_delete_key, if_neg hk]
        have hfind : (s.entries.delete (Table.hasKey Entry.dir e.dir)).find e.dir = none :=
          Table.find_delete_self s.entries e.dir
        constructor <;>
        · refine h.next hothers ?_ ⟨st, hst, hplace⟩ (fun st' hst' => ?_)
            (hheld.others hnotin hothers)
          · simp only [Event.dir, hfind]
            rfl
          · cases hst'
      cases outcome with
      | delivered => exact hgone.1
      | nothingToSend => exact hgone.2
      | overlimit total limit =>
        have hothers (k : Text) (hk : k ≠ e.dir) :
            (s.entries.put (e.overLimit total limit)).find k = s.entries.find k :=
          find_put_other s.entries _ hk
        refine h.next hothers ?_ ⟨st, hst, hplace⟩ (fun st' hst' => ?_)
          (hheld.others hnotin hothers)
        · have hfind : (s.entries.put (e.overLimit total limit)).find e.dir =
              some (e.overLimit total limit) := find_put_same s.entries _
          refine (congrArg (Option.map Entry.bare) hfind).trans ?_
          simp only [Event.dir, hst, Story.after, Option.map_some]
          rw [hentry]
          simp [Entry.bare, Entry.overLimit, Story.entry, hplace]
        · simp only [Event.dir, hst, Story.after, Option.map_some, Option.some.injEq] at hst'
          subst hst'
          exact ⟨hfew.1, fun hplace => by cases hplace⟩

theorem inv_step (hclock : ∀ t, clock.parseFromRfc3339 (clock.toRfc3339 t) = some t)
    {label : Label C} (h : Inv clock s) (hs : step clock measure s label = some t) :
    Inv clock t := by
  cases label with
  | enqueue taskId sourceNode changes now =>
    obtain rfl := Option.some.inj hs
    exact inv_enter h (fun hnone _ => enqueue_packs hnone) now
  | pull taskId assembling now =>
    obtain rfl := Option.some.inj hs
    exact inv_enter h (fun hnone _ => pull_packs hnone) now
  | relog logs =>
    obtain rfl := Option.some.inj hs
    exact ⟨h.told, h.explained, h.few, h.fresh⟩
  | replay taskId now ok io =>
    obtain ⟨error, hreplay⟩ | ⟨e, he, hdead, hreplay⟩ :=
      @replay_cases C clock s.entries taskId now ok io
    · simp only [step, hreplay] at hs
      obtain rfl := Option.some.inj hs
      exact h
    · simp only [step, hreplay] at hs
      obtain rfl := Option.some.inj hs
      exact inv_replay h ((Table.key_of_find he).symm ▸ he) hdead now
  | boot =>
    simp only [step] at hs
    split at hs
    · obtain rfl := Option.some.inj hs
      exact h.phase (held_listEntries toRearm s.entries)
    · cases hs
  | rearm limit ok =>
    simp only [step] at hs
    split at hs
    · rename_i e rest hphase
      split at hs
      · rename_i armed _ harmed
        obtain rfl := Option.some.inj hs
        exact inv_rearm h hphase harmed
      · obtain rfl := Option.some.inj hs
        have hheld : Held toRearm s.entries (e :: rest) := by
          have hfresh := h.fresh
          rw [hphase] at hfresh
          exact hfresh
        exact h.phase hheld.tail
    · cases hs
  | tick =>
    simp only [step] at hs
    split at hs
    · obtain rfl := Option.some.inj hs
      exact h.phase (held_listEntries toPush s.entries)
    · obtain rfl := Option.some.inj hs
      exact h.phase (held_listEntries toPush s.entries)
    · cases hs
  | visit aged now online ok =>
    simp only [step] at hs
    split at hs
    · rename_i e rest hphase
      obtain rfl := Option.some.inj hs
      exact inv_visit hclock h hphase aged now online ok
    · cases hs
  | answer outcome now ok =>
    simp only [step] at hs
    split at hs
    · rename_i e rest hphase
      obtain rfl := Option.some.inj hs
      exact inv_answer h hphase outcome now ok
    · cases hs
  | restart =>
    obtain rfl := Option.some.inj hs
    exact h.phase trivial

end

theorem explained_at {event : Event C} {past : List (Event C)} :
    ∀ future : List (Event C), Explained (future ++ event :: past) → event.Explained past
  | [], h => h.1
  | _ :: future, h => explained_at future h.2

/-- Instants in decimal. -/
def decimalClock : Clock where
  toRfc3339
    | .ofNat n => Nat.toDigits 10 n
    | .negSucc n => '-' :: Nat.toDigits 10 n
  parseFromRfc3339
    | '-' :: digits => some (.negSucc (Nat.ofDigitChars 10 digits 0))
    | digits => some (.ofNat (Nat.ofDigitChars 10 digits 0))

theorem decimalClock_read (t : Int) :
    decimalClock.parseFromRfc3339 (decimalClock.toRfc3339 t) = some t := by
  cases t with
  | negSucc n => simp [decimalClock, Nat.ofDigitChars_ten_toDigits]
  | ofNat n =>
    have hdigits : ∀ rest, Nat.toDigits 10 n ≠ '-' :: rest := by
      intro rest h
      have hdigit := Nat.isDigit_of_mem_toDigits (by decide) (by decide)
        (h ▸ List.mem_cons_self : '-' ∈ Nat.toDigits 10 n)
      exact absurd hdigit (by decide)
    simp only [decimalClock]
    rw [Nat.ofDigitChars_ten_toDigits]

def recordDir : TaskDir Unit := ⟨"2026-11-06_12-00-00-123_t1".toList, true, ()⟩

def outboxLogs : List (Device Unit) := [⟨"node".toList, true, [recordDir], by decide⟩]

/-- A push that fails, one that is cut off, and one that arrives. -/
def pushLabels : List (Label Unit) :=
  [.boot, .tick, .enqueue "t1".toList "node".toList none 0, .tick, .visit 1 1 true true,
    .answer (.error "timeout".toList) 2 true, .tick, .visit 3 3 true true, .tick,
    .visit 15000000002 15000000002 true true, .restart, .boot, .rearm 0 true, .tick,
    .visit 15000000003 15000000003 false true, .tick, .visit 15000000004 15000000004 true true,
    .answer (.ok .delivered) 15000000005 true]

def pushedState : State Unit :=
  (run (step decimalClock fun _ _ => .ok 7) (State.init outboxLogs) pushLabels).get
    (by decide +kernel)

end NemesisBot.Outbox.Loop

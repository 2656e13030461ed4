import NemesisBot.Lib.Runs
import NemesisBot.Agent.CheckpointGc

/-! Message rewinds of one session and their redo: chat log, checkpoint index, workspace files and
undo stack. -/
namespace NemesisBot.Rewind
open Strings Runs

/-- The declared paths with their sealed fingerprints. -/
structure Checkpoint (Tree : Type) where
  turn : Nat
  tree : Option Tree
  session : Option Text
  declared : List Text
  after : List (Text × Option Text)
  sealed : Bool

structure Index (Tree : Type) where
  done : List (Checkpoint Tree)
  cur : List (Checkpoint Tree)

/-- What lies under the rewind: the files that a tree covers, written and checked out by git. -/
structure Env (Row Files Tree : Type) where
  checkpointTurn : Row → Option Nat
  keptRowsFingerprint : List Row → Text
  hashOnDisk : Files → Text → Option Text
  gitMode : Bool
  writeTree : Files → Tree
  checkout : Tree → Files
  drift : Tree → Files → List Text
  restoreJson : Index Tree → Nat → Files → Files
  checkout_writeTree : ∀ files, checkout (writeTree files) = files
  drift_writeTree : ∀ files, drift (writeTree files) files = []

structure RewindUndoEntry (Row Tree : Type) where
  removedRows : List Row
  keptCount : Nat
  restoreTurn : Option Nat
  forwardTree : Option Tree
  postTree : Option Tree
  keptRowsHash : Text
  undoDiskTree : Option Tree
  redoPartialWritten : List Text

/-- One session with the store it may be attached to; the newest undo entry comes first. -/
structure State (Row Files Tree : Type) where
  rows : List Row
  index : Option (Index Tree)
  files : Files
  stack : List (RewindUndoEntry Row Tree)

inductive Outcome where
  | done
  | nothing
  | stale
  | conflict
  | restoreFailed
  | commitFailed
  deriving DecidableEq

/-- How a restore ends: in full, with these files, or with a repository that does not open. -/
inductive Restored (Files : Type) where
  | complete
  | incomplete (files : Files)
  | unavailable

structure RewindIo (Files : Type) where
  treeBefore : Bool
  restored : Restored Files
  committed : Bool
  treeAfter : Bool

structure RedoIo (Files : Type) where
  scanned : Bool
  restored : Restored Files
  written : List Text
  committed : Bool

def REWIND_UNDO_STACK_CAP : Nat := 8

section
variable {Row Files Tree : Type}

/-! The checkpoint index. -/

def Index.sorted (idx : Index Tree) : List (Checkpoint Tree) :=
  (idx.done ++ idx.cur).insertionSort (·.turn ≤ ·.turn)

def treeHexAtOrBefore (idx : Index Tree) (bound : Nat) : Option Tree :=
  ((idx.sorted.filter (·.turn ≤ bound)).filterMap (·.tree)).getLast?

def latestTreeHex (idx : Index Tree) : Option Tree := (idx.sorted.filterMap (·.tree)).getLast?

def truncateFromScoped (idx : Index Tree) (fromTurn : Nat) (session : Text) : Index Tree :=
  let keep (c : Checkpoint Tree) : Bool :=
    c.turn < fromTurn || CheckpointGc.isOtherSession c.session (some session)
  ⟨idx.done.filter keep, idx.cur.filter keep⟩

structure ConflictReport where
  conflicts : List Text
  otherSessionPaths : List Text

def ConflictReport.refuses (r : ConflictReport) : Bool :=
  !r.conflicts.isEmpty || !r.otherSessionPaths.isEmpty

def fingerprintOf (c : Checkpoint Tree) (path : Text) : Option Text :=
  (c.after.find? (·.1 = path)).bind (·.2)

/-- Each path is compared with the seal of the last turn that declared it. -/
def conflictScanScoped (env : Env Row Files Tree) (idx : Index Tree) (files : Files)
    (fromTurn : Nat) (session : Text) : ConflictReport :=
  let range := idx.sorted.filter (fromTurn ≤ ·.turn)
  let own := range.filter fun c => !CheckpointGc.isOtherSession c.session (some session)
  let other := range.filter fun c => CheckpointGc.isOtherSession c.session (some session)
  { conflicts := (dedup (own.flatMap (·.declared))).filter fun p =>
      (own.reverse.find? (p ∈ ·.declared)).any fun c =>
        c.sealed && (fingerprintOf c p).any fun h => env.hashOnDisk files p ≠ some h
    otherSessionPaths := dedup (other.flatMap (·.declared)) }

/-- The files after a full `restore_code`; without a turn to undo nothing happens. -/
def restoreCode (env : Env Row Files Tree) (idx : Index Tree) (fromTurn : Nat) (files : Files) :
    Files :=
  if idx.sorted.all (·.turn < fromTurn) then files
  else if env.gitMode then match treeHexAtOrBefore idx fromTurn with
    | some tree => env.checkout tree
    | none => files
  else env.restoreJson idx fromTurn files

def currentTreeHex (env : Env Row Files Tree) (s : State Row Files Tree) (written : Bool) :
    Option Tree :=
  if s.index.isSome && env.gitMode && written then some (env.writeTree s.files) else none

/-! The rewind. -/

def restoreTurn (env : Env Row Files Tree) (s : State Row Files Tree) (cut : Nat) : Option Nat :=
  (s.rows.drop cut).findSome? env.checkpointTurn

def refusesRewind (env : Env Row Files Tree) (session : Text) (s : State Row Files Tree)
    (cut : Nat) : Bool :=
  match restoreTurn env s cut, s.index with
  | some t, some idx => (conflictScanScoped env idx s.files t session).refuses
  | _, _ => false

/-- The tree that a redo goes back to: the files of now where some are restored. -/
def forwardTree (env : Env Row Files Tree) (s : State Row Files Tree) (cut : Nat)
    (written : Bool) : Option Tree :=
  if (restoreTurn env s cut).isSome then
    (currentTreeHex env s written).or (s.index.bind latestTreeHex)
  else s.index.bind latestTreeHex

def restoreFiles (env : Env Row Files Tree) (s : State Row Files Tree) (cut : Nat)
    (restored : Restored Files) : Files × Bool :=
  match restoreTurn env s cut, s.index with
  | some t, some idx => match restored with
    | .complete => (restoreCode env idx t s.files, true)
    | .incomplete files => (files, false)
    | .unavailable => (s.files, true)
  | _, _ => (s.files, true)

def retire (env : Env Row Files Tree) (session : Text) (s : State Row Files Tree) (cut : Nat) :
    Option (Index Tree) :=
  match restoreTurn env s cut with
  | some t => s.index.map fun idx => truncateFromScoped idx t session
  | none => s.index

def undoEntry (env : Env Row Files Tree) (session : Text) (s : State Row Files Tree) (cut : Nat)
    (files : Files) (io : RewindIo Files) : RewindUndoEntry Row Tree :=
  { removedRows := s.rows.drop cut
    keptCount := cut
    restoreTurn := restoreTurn env s cut
    forwardTree := forwardTree env s cut io.treeBefore
    postTree := (retire env session s cut).bind latestTreeHex
    keptRowsHash := env.keptRowsFingerprint (s.rows.take cut)
    undoDiskTree := currentTreeHex env { s with files := files } io.treeAfter
    redoPartialWritten := [] }

/-- A rewind that removes no row leaves nothing to redo. -/
def pushEntry (s : State Row Files Tree) (e : RewindUndoEntry Row Tree) :
    List (RewindUndoEntry Row Tree) :=
  if e.removedRows.isEmpty then s.stack else (e :: s.stack).take REWIND_UNDO_STACK_CAP

def rewindFromCut (env : Env Row Files Tree) (session : Text) (s : State Row Files Tree)
    (cut : Nat) (force : Bool) (io : RewindIo Files) : State Row Files Tree × Outcome :=
  if refusesRewind env session s cut && !force then (s, .conflict)
  else
    let r := restoreFiles env s cut io.restored
    if !r.2 then ({ s with files := r.1 }, .restoreFailed)
    else if !io.committed then ({ s with files := r.1 }, .commitFailed)
    else
      ({ rows := s.rows.take cut
         index := retire env session s cut
         files := r.1
         stack := pushEntry s (undoEntry env session s cut r.1 io) }, .done)

/-! The redo. -/

def driftedPaths (env : Env Row Files Tree) (s : State Row Files Tree)
    (e : RewindUndoEntry Row Tree) (scanned : Bool) : List Text :=
  match e.undoDiskTree, s.index with
  | some tree, some _ =>
    if env.gitMode && scanned then
      (env.drift tree s.files).filter fun p => p ∉ e.redoPartialWritten
    else []
  | _, _ => []

def forwardFiles (env : Env Row Files Tree) (s : State Row Files Tree)
    (e : RewindUndoEntry Row Tree) (restored : Restored Files) : Files × Bool :=
  match e.forwardTree, s.index with
  | some tree, some _ =>
    if env.gitMode then match restored with
      | .complete => (env.checkout tree, true)
      | .incomplete files => (files, false)
      | .unavailable => (s.files, true)
    else (s.files, true)
  | _, _ => (s.files, true)

/-- The entry goes back on the stack, with what the redo itself has written. -/
def RewindUndoEntry.retried (e : RewindUndoEntry Row Tree) (written : List Text) :
    RewindUndoEntry Row Tree :=
  { e with redoPartialWritten := e.redoPartialWritten ++ written }

def redoRewind [DecidableEq Tree] (env : Env Row Files Tree) (s : State Row Files Tree)
    (force : Bool) (io : RedoIo Files) : State Row Files Tree × Outcome :=
  match s.stack with
  | [] => (s, .nothing)
  | e :: rest =>
    if s.rows.length ≠ e.keptCount then ({ s with stack := rest }, .stale)
    else if env.keptRowsFingerprint s.rows ≠ e.keptRowsHash then ({ s with stack := rest }, .stale)
    else if s.index.bind latestTreeHex ≠ e.postTree then ({ s with stack := rest }, .stale)
    else if !(driftedPaths env s e io.scanned).isEmpty && !force then (s, .conflict)
    else
      let r := forwardFiles env s e io.restored
      if !r.2 then ({ s with files := r.1, stack := e.retried io.written :: rest }, .restoreFailed)
      else if !io.committed then
        ({ s with files := r.1, stack := e.retried io.written :: rest }, .commitFailed)
      else
        ({ rows := s.rows ++ e.removedRows
           index := s.index
           files := r.1
           stack := rest }, .done)

/-! Rewinds and redos in a row, all of whose writes succeed. -/

def carriedOut (r : State Row Files Tree × Outcome) : Option (State Row Files Tree) :=
  if r.2 = .done then some r.1 else none

def rewound (env : Env Row Files Tree) (session : Text) (s : State Row Files Tree)
    (a : Nat × Bool) : Option (State Row Files Tree) :=
  carriedOut (rewindFromCut env session s a.1 a.2 ⟨true, .complete, true, true⟩)

def redone [DecidableEq Tree] (env : Env Row Files Tree) (s : State Row Files Tree)
    (force : Bool) : Option (State Row Files Tree) :=
  carriedOut (redoRewind env s force ⟨true, .complete, [], true⟩)

/-- Rows go, and `tree` is the newest one that the index still has. -/
def RemovesUpTo (env : Env Row Files Tree) (session : Text) (tree : Option Tree)
    (s : State Row Files Tree) (a : Nat × Bool) : Prop :=
  a.1 < s.rows.length ∧ (retire env session s a.1).bind latestTreeHex = tree

/-- The tree that the rewind notes down for its redo is the one of the files as they are. -/
def RecordsFiles (env : Env Row Files Tree) (s : State Row Files Tree) (a : Nat × Bool) : Prop :=
  restoreTurn env s a.1 = none →
    ∀ tree, s.index.bind latestTreeHex = some tree → env.checkout tree = s.files

/-- The state after a rewind that is carried out. -/
def afterRewind (env : Env Row Files Tree) (session : Text) (s : State Row Files Tree)
    (cut : Nat) : State Row Files Tree :=
  let files := (restoreFiles env s cut .complete).1
  { rows := s.rows.take cut
    index := retire env session s cut
    files := files
    stack := pushEntry s (undoEntry env session s cut files ⟨true, .complete, true, true⟩) }

theorem restoreFiles_complete (env : Env Row Files Tree) (s : State Row Files Tree) (cut : Nat) :
    (restoreFiles env s cut .complete).2 = true := by
  unfold restoreFiles
  split <;> rfl

theorem rewound_eq_some {env : Env Row Files Tree} {session : Text} {s t : State Row Files Tree}
    {a : Nat × Bool} (h : rewound env session s a = some t) : t = afterRewind env session s a.1 := by
  unfold rewound carriedOut rewindFromCut at h
  by_cases hr : (refusesRewind env session s a.1 && !a.2) = true
  · simp [hr] at h
  · simp only [hr, restoreFiles_complete] at h
    simpa [afterRewind] using h.symm

theorem pushEntry_take {s : State Row Files Tree} {e : RewindUndoEntry Row Tree} {n : Nat}
    (he : e.removedRows ≠ []) (hn : n < REWIND_UNDO_STACK_CAP) :
    (pushEntry s e).take (n + 1) = e :: s.stack.take n := by
  have hmin : min (n + 1) REWIND_UNDO_STACK_CAP = n + 1 := by omega
  simp [pushEntry, he, List.take_take, hmin]

theorem retire_isSome (env : Env Row Files Tree) (session : Text) (s : State Row Files Tree)
    (cut : Nat) : (retire env session s cut).isSome = s.index.isSome := by
  unfold retire
  split <;> simp

theorem run_index_isSome {env : Env Row Files Tree} {session : Text} {s t : State Row Files Tree}
    {cuts : List (Nat × Bool)} (hrun : run (rewound env session) s cuts = some t) :
    t.index.isSome = s.index.isSome := by
  have hstep (m : State Row Files Tree) (a : Nat × Bool) (n : State Row Files Tree)
      (hm : m.index.isSome = s.index.isSome) (h : rewound env session m a = some n) :
      n.index.isSome = s.index.isSome := by
    rw [rewound_eq_some h, ← hm]
    exact retire_isSome env session m a.1
  exact run_invariant_always hstep rfl hrun

/-- What `n` redos from `t` bring back of `s`, the files only if they were noted down. -/
structure Undone (env : Env Row Files Tree) (n : Nat) (noted : Prop)
    (s t u : State Row Files Tree) : Prop where
  rows : u.rows = s.rows
  index : u.index = t.index
  stack : u.stack.take (REWIND_UNDO_STACK_CAP - n) = s.stack.take (REWIND_UNDO_STACK_CAP - n)
  files : env.gitMode = true → noted → u.files = s.files

/-- Nothing has moved since the rewind, so its redo sees no drift. -/
theorem driftedPaths_eq_nil {env : Env Row Files Tree} {session : Text}
    {s u : State Row Files Tree} {a : Nat × Bool}
    (hfiles : env.gitMode = true → u.files = (afterRewind env session s a.1).files) :
    driftedPaths env u (undoEntry env session s a.1 (afterRewind env session s a.1).files
      ⟨true, .complete, true, true⟩) true = [] := by
  unfold driftedPaths
  split
  · rename_i tree _ htree _
    by_cases hgit : env.gitMode = true
    · rw [hfiles hgit]
      have hwrite : s.index.isSome = true ∧
          env.writeTree (afterRewind env session s a.1).files = tree := by
        simpa [undoEntry, currentTreeHex, hgit] using htree
      simp [← hwrite.2, env.drift_writeTree]
    · simp [hgit]
  · rfl

theorem forwardFiles_complete (env : Env Row Files Tree) (s : State Row Files Tree)
    (e : RewindUndoEntry Row Tree) : (forwardFiles env s e .complete).2 = true := by
  unfold forwardFiles
  split
  · split <;> rfl
  · rfl

/-- The forward tree brings back the files from before the rewind. -/
theorem forwardFiles_eq {env : Env Row Files Tree} {session : Text}
    {s u : State Row Files Tree} {a : Nat × Bool} (hgit : env.gitMode = true)
    (hnoted : RecordsFiles env s a) (hsome : u.index.isSome = s.index.isSome)
    (hfiles : u.files = (afterRewind env session s a.1).files) :
    (forwardFiles env u (undoEntry env session s a.1 (afterRewind env session s a.1).files
      ⟨true, .complete, true, true⟩) .complete).1 = s.files := by
  cases hs : s.index with
  | none =>
    have hu : u.index = none := by simpa [hs] using hsome
    simp [forwardFiles, hu, hfiles, afterRewind, restoreFiles, hs]
  | some idx =>
    obtain ⟨uidx, hu⟩ := Option.isSome_iff_exists.mp (hsome.trans (by simp [hs]))
    cases ht : restoreTurn env s a.1 with
    | some turn =>
      simp [forwardFiles, undoEntry, forwardTree, currentTreeHex, ht, hs, hu, hgit,
        env.checkout_writeTree]
    | none =>
      cases hl : latestTreeHex idx with
      | none =>
        simp [forwardFiles, undoEntry, forwardTree, ht, hs, hl, hfiles, afterRewind, restoreFiles]
      | some tree =>
        have := hnoted ht tree (by simp [hs, hl])
        simpa [forwardFiles, undoEntry, forwardTree, ht, hs, hl, hu, hgit] using this

variable [DecidableEq Tree]

/-- One more redo takes the next entry from the stack and goes back over its rewind. -/
theorem Undone.redone {env : Env Row Files Tree} {session : Text}
    {s m t u : State Row Files Tree} {a : Nat × Bool} {n : Nat} (h : Undone env n True m t u)
    (hn : n < REWIND_UNDO_STACK_CAP) (hstep : rewound env session s a = some m)
    (hremoves : RemovesUpTo env session (t.index.bind latestTreeHex) s a)
    (hsome : t.index.isSome = s.index.isSome) :
    ∃ v, redone env u false = some v ∧ Undone env (n + 1) (RecordsFiles env s a) s t v := by
  obtain rfl := rewound_eq_some hstep
  let e := undoEntry env session s a.1 (afterRewind env session s a.1).files
    ⟨true, .complete, true, true⟩
  have hrest : REWIND_UNDO_STACK_CAP - n = REWIND_UNDO_STACK_CAP - (n + 1) + 1 := by omega
  have htop : u.stack.take (REWIND_UNDO_STACK_CAP - n) =
      e :: s.stack.take (REWIND_UNDO_STACK_CAP - (n + 1)) := by
    rw [h.stack, hrest]
    apply pushEntry_take
    · simpa [undoEntry] using hremoves.1
    · omega
  cases hstack : u.stack with
  | nil => simp [hstack] at htop
  | cons e' rest =>
    rw [hstack, hrest, List.take_succ_cons] at htop
    obtain ⟨rfl, htake⟩ := List.cons.inj htop
    have hlen : u.rows.length = a.1 := by
      rw [h.rows]
      exact List.length_take_of_le hremoves.1.le
    have hrows : u.rows = s.rows.take a.1 := h.rows
    have htree : u.index.bind latestTreeHex = e.postTree := by
      rw [h.index]
      exact hremoves.2.symm
    have hfiles : env.gitMode = true → u.files = (afterRewind env session s a.1).files :=
      fun hgit => h.files hgit trivial
    let v : State Row Files Tree :=
      ⟨u.rows ++ e.removedRows, u.index, (forwardFiles env u e .complete).1, rest⟩
    refine ⟨v, ?_, ?_, h.index, htake, ?_⟩
    · have hdrift : driftedPaths env u e true = [] := driftedPaths_eq_nil hfiles
      have hkept : e.keptCount = a.1 := rfl
      have hhash : env.keptRowsFingerprint u.rows = e.keptRowsHash := by rw [hrows]; rfl
      simp [Rewind.redone, carriedOut, redoRewind, hstack, hlen, hkept, hhash, htree, hdrift,
        forwardFiles_complete, v]
    · show u.rows ++ s.rows.drop a.1 = s.rows
      rw [hrows, List.take_append_drop]
    · intro hgit hnoted
      exact forwardFiles_eq hgit hnoted (h.index ▸ hsome) (hfiles hgit)

/-- The rewinds are taken back one by one, the last one first. -/
theorem redo_run {env : Env Row Files Tree} {session : Text} {s t : State Row Files Tree}
    {cuts : List (Nat × Bool)} (hn : cuts.length ≤ REWIND_UNDO_STACK_CAP)
    (hrun : run (rewound env session) s cuts = some t)
    (hok : Along (rewound env session) (fun m a =>
      RemovesUpTo env session (t.index.bind latestTreeHex) m a ∧
        (env.gitMode = true → RecordsFiles env m a)) s cuts) :
    ∃ u, run (redone env) t (List.replicate cuts.length false) = some u ∧
      Undone env cuts.length True s t u := by
  induction cuts generalizing s with
  | nil =>
    obtain rfl : s = t := by simpa [run] using hrun
    exact ⟨s, rfl, rfl, rfl, rfl, fun _ _ => rfl⟩
  | cons a cuts ih =>
    obtain ⟨m, hm, hrest⟩ := (run_cons_iff s t a cuts).mp hrun
    simp only [List.length_cons] at hn
    obtain ⟨u, hu, hundone⟩ := ih (by omega) hrest (hok.2 m hm)
    obtain ⟨v, hv, hundone'⟩ := hundone.redone (by omega) hm hok.1.1 (run_index_isSome hrun)
    refine ⟨v, ?_, hundone'.rows, hundone'.index, hundone'.stack, ?_⟩
    · rw [List.length_cons, List.replicate_succ', run_append, hu]
      simp [run, hv]
    · intro hgit _
      exact hundone'.files hgit (hok.1.2 hgit)

omit [DecidableEq Tree] in
theorem rewindFromCut_keeps {env : Env Row Files Tree} {session : Text}
    {s : State Row Files Tree} {cut : Nat} {force : Bool} {io : RewindIo Files}
    (h : (rewindFromCut env session s cut force io).2 ≠ .done) :
    (rewindFromCut env session s cut force io).1.rows = s.rows ∧
      (rewindFromCut env session s cut force io).1.index = s.index ∧
      (rewindFromCut env session s cut force io).1.stack = s.stack := by
  simp only [rewindFromCut] at h ⊢
  split_ifs at h ⊢
  · exact ⟨rfl, rfl, rfl⟩
  · exact ⟨rfl, rfl, rfl⟩
  · exact ⟨rfl, rfl, rfl⟩
  · exact absurd rfl h

/-- An entry without the record of the paths that failed redos have written. -/
def RewindUndoEntry.untried (e : RewindUndoEntry Row Tree) : RewindUndoEntry Row Tree :=
  { e with redoPartialWritten := [] }

/-- What a redo that is not carried out leaves: only a stale entry is used up. -/
structure Keeps (s : State Row Files Tree) (r : State Row Files Tree × Outcome) : Prop where
  rows : r.1.rows = s.rows
  index : r.1.index = s.index
  stale : r.2 = .stale → r.1.stack = s.stack.tail
  retry : r.2 ≠ .stale → r.1.stack.map (·.untried) = s.stack.map (·.untried)

theorem redoRewind_keeps {env : Env Row Files Tree} {s : State Row Files Tree} {force : Bool}
    {io : RedoIo Files} (h : (redoRewind env s force io).2 ≠ .done) :
    Keeps s (redoRewind env s force io) := by
  cases hstack : s.stack with
  | nil => simp only [redoRewind, hstack]; exact ⟨rfl, rfl, nofun, fun _ => rfl⟩
  | cons e rest =>
    simp only [redoRewind, hstack] at h ⊢
    split_ifs at h ⊢
    · exact ⟨rfl, rfl, fun _ => by simp [hstack], fun hs => absurd rfl hs⟩
    · exact ⟨rfl, rfl, fun _ => by simp [hstack], fun hs => absurd rfl hs⟩
    · exact ⟨rfl, rfl, fun _ => by simp [hstack], fun hs => absurd rfl hs⟩
    · exact ⟨rfl, rfl, nofun, fun _ => rfl⟩
    · exact ⟨rfl, rfl, nofun, fun _ => by simp [hstack, RewindUndoEntry.untried,
        RewindUndoEntry.retried]⟩
    · exact ⟨rfl, rfl, nofun, fun _ => by simp [hstack, RewindUndoEntry.untried,
        RewindUndoEntry.retried]⟩
    · exact absurd rfl h

end

/-- Numbered rows, of which `n + 1` opens turn `n`, and numbered files that are their own tree. -/
def numbered : Env Nat Nat Nat where
  checkpointTurn row := if row = 0 then none else some (row - 1)
  keptRowsFingerprint rows := rows.map Char.ofNat
  hashOnDisk files _ := some [Char.ofNat files]
  gitMode := true
  writeTree := id
  checkout := id
  drift tree files := if tree = files then [] else [['w']]
  restoreJson _ _ files := files
  checkout_writeTree _ := rfl
  drift_writeTree _ := if_pos rfl

/-- Two turns that begin with the trees `a` and `b`. -/
def twoTurns (a b files : Nat) : State Nat Nat Nat :=
  ⟨[1, 0, 0, 2, 0], some ⟨[⟨0, some a, some ['s'], [], [], true⟩,
    ⟨1, some b, some ['s'], [], [], true⟩], []⟩, files, []⟩

end NemesisBot.Rewind

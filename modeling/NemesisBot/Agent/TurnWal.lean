import NemesisBot.Lib.Strings

/-! The write-ahead log of tool calls and its recovery after a crash. Rotation is left out,
and the clock readings of the lines that recovery writes are a parameter. -/
namespace NemesisBot.TurnWal
open Strings

inductive WalState where
  | admitted
  | started
  | finished
  | interrupted
  | unknown
  deriving DecidableEq, Repr

def WalState.terminal : WalState → Bool
  | .finished | .interrupted | .unknown => true
  | .admitted | .started => false

def argsPreviewMaxChars : Nat := 200

def isIrreversibleCall (tool argsPreview : Text) : Bool :=
  if tool = "cluster_rpc".toList ∨ tool = "message".toList ∨ tool = "connector_invoke".toList ∨
      tool = "mcp_call".toList then true
  else if tool = "git".toList then decide ("push".toList <:+: argsPreview)
  else false

structure WalCall where
  sessionKey : Text
  channel : Text
  chatId : Text
  user : Text
  callId : Text
  tool : Text
  deriving DecidableEq, Repr

structure WalRecord extends WalCall where
  tsMs : Nat
  argsPreview : Text
  state : WalState
  ok : Option Bool
  deriving DecidableEq, Repr

/-- One call of `log`, with the arguments as they were given. -/
structure Entry extends WalCall where
  tsMs : Nat
  args : Text
  state : WalState
  ok : Option Bool
  deriving DecidableEq, Repr

def truncateChars (s : Text) (max : Nat) : Text :=
  if s.length ≤ max then s else s.take max ++ "…".toList

def Entry.record (e : Entry) : WalRecord where
  toWalCall := e.toWalCall
  tsMs := e.tsMs
  argsPreview := truncateChars e.args argsPreviewMaxChars
  state := e.state
  ok := e.ok

abbrev Key := Text × Text

def WalCall.key (c : WalCall) : Key := (c.sessionKey, c.callId)

@[simp] theorem Entry.record_key (e : Entry) : e.record.key = e.key := rfl

@[simp] theorem Entry.record_tool (e : Entry) : e.record.tool = e.tool := rfl

@[simp] theorem Entry.record_tsMs (e : Entry) : e.record.tsMs = e.tsMs := rfl

@[simp] theorem Entry.record_state (e : Entry) : e.record.state = e.state := rfl

def isOpen (r : WalRecord) : Bool := !r.state.terminal

/-- `open_calls` of the scan: the last admitted or started record of each key. -/
def insertOpen (m : List (Key × WalRecord)) (r : WalRecord) : List (Key × WalRecord) :=
  if isOpen r then (r.key, r) :: m.filter (·.1 ≠ r.key) else m

def openCalls (records : List WalRecord) : List (Key × WalRecord) :=
  records.foldl insertOpen []

def finishedKeys (records : List WalRecord) : List Key :=
  (records.filter (·.state.terminal)).map (·.key)

def startedKeys (records : List WalRecord) : List Key :=
  (records.filter (·.state = .started)).map (·.key)

/-- By time, then by key. -/
def before (a b : Key × WalRecord) : Bool :=
  a.2.tsMs < b.2.tsMs ∨ a.2.tsMs = b.2.tsMs ∧
    (a.1.1 < b.1.1 ∨ a.1.1 = b.1.1 ∧ a.1.2 ≤ b.1.2)

structure Recovery where
  candidates : List WalRecord
  appended : List WalRecord

variable (doneMs : WalRecord → Nat)

def finalizeCall (records : List WalRecord) (ttlCutoff : Nat) (acc : Recovery)
    (p : Key × WalRecord) : Recovery :=
  if p.1 ∈ finishedKeys records then acc
  else if p.2.tsMs < ttlCutoff then acc
  else if p.1 ∈ startedKeys records ∧ isIrreversibleCall p.2.tool p.2.argsPreview then
    { acc with appended := acc.appended ++
        [{ p.2 with tsMs := doneMs p.2, state := .unknown, ok := none }] }
  else
    { candidates := acc.candidates ++ [p.2]
      appended := acc.appended ++
        [{ p.2 with tsMs := doneMs p.2, state := .interrupted, ok := some false }] }

def ttlCutoff (ttlSecs now : Nat) : Nat := now - min (ttlSecs * 1000) (2 ^ 64 - 1)

/-- The candidates to resume, and the log file that recovery leaves behind. -/
def recoverAndFinalize (ttlSecs now : Nat) (records : List WalRecord) :
    List WalRecord × List WalRecord :=
  let openList := (openCalls records).mergeSort before
  let r := openList.foldl (finalizeCall doneMs records (ttlCutoff ttlSecs now)) ⟨[], []⟩
  (r.candidates,
    records.filter (fun r => r.state = .interrupted ∨ r.state = .unknown) ++ r.appended)

/-! The scan. -/

theorem mem_openCalls (records : List WalRecord) (k : Key) (r : WalRecord) :
    (k, r) ∈ openCalls records ↔
      (records.filter fun r => r.key = k ∧ isOpen r).getLast? = some r := by
  induction records using List.reverseRecOn with
  | nil => simp [openCalls]
  | append_singleton records x ih =>
    have hstep : openCalls (records ++ [x]) = insertOpen (openCalls records) x := by
      simp [openCalls]
    rw [hstep, insertOpen, List.filter_append]
    by_cases ho : isOpen x
    · by_cases hk : x.key = k
      · subst hk
        simp [ho, Eq.comm (a := r)]
      · have hk' : k ≠ x.key := fun h => hk h.symm
        simpa [ho, hk, hk'] using ih
    · simpa [ho] using ih

/-- The scan keeps one record for each key. -/
theorem openCalls_keys_nodup (records : List WalRecord) :
    ((openCalls records).map Prod.fst).Nodup := by
  induction records using List.reverseRecOn with
  | nil => simp [openCalls]
  | append_singleton records x ih =>
    have hstep : openCalls (records ++ [x]) = insertOpen (openCalls records) x := by
      simp [openCalls]
    rw [hstep, insertOpen]
    split
    · rw [List.map_cons, List.nodup_cons]
      constructor
      · simp
      · exact ih.sublist (List.filter_sublist.map Prod.fst)
    · exact ih

/-- What decides whether an open call is resumed. -/
def resumed (records : List WalRecord) (cutoff : Nat) (p : Key × WalRecord) : Bool :=
  p.1 ∉ finishedKeys records ∧ cutoff ≤ p.2.tsMs ∧
    ¬ (p.1 ∈ startedKeys records ∧ isIrreversibleCall p.2.tool p.2.argsPreview = true)

theorem foldl_finalizeCall (records : List WalRecord) (cutoff : Nat) (acc : Recovery)
    (ps : List (Key × WalRecord)) :
    (ps.foldl (finalizeCall doneMs records cutoff) acc).candidates =
      acc.candidates ++ (ps.filter (resumed records cutoff)).map Prod.snd := by
  induction ps generalizing acc with
  | nil => simp
  | cons p ps ih =>
    rw [List.foldl_cons, ih, List.filter_cons]
    unfold finalizeCall
    by_cases hf : p.1 ∈ finishedKeys records
    · have hr : resumed records cutoff p = false := by simp [resumed, hf]
      simp [hf, hr]
    · by_cases ht : p.2.tsMs < cutoff
      · have hr : resumed records cutoff p = false := by
          simp only [resumed, decide_eq_false_iff_not]
          omega
        simp [hf, ht, hr]
      · rw [if_neg hf, if_neg ht]
        by_cases hs : p.1 ∈ startedKeys records ∧
            isIrreversibleCall p.2.tool p.2.argsPreview = true
        · have hr : resumed records cutoff p = false := by
            simp only [resumed, decide_eq_false_iff_not]
            tauto
          rw [if_pos hs, hr]
          simp
        · have hr : resumed records cutoff p = true := by
            simp only [resumed, decide_eq_true_eq]
            exact ⟨hf, by omega, hs⟩
          rw [if_neg hs, hr]
          simp

theorem mem_candidates (ttlSecs now : Nat) (records : List WalRecord) (r : WalRecord) :
    r ∈ (recoverAndFinalize doneMs ttlSecs now records).1 ↔
      (records.filter fun x => x.key = r.key ∧ isOpen x).getLast? = some r ∧
        resumed records (ttlCutoff ttlSecs now) (r.key, r) = true := by
  simp only [recoverAndFinalize, foldl_finalizeCall, List.nil_append, List.mem_map,
    List.mem_filter, List.mem_mergeSort]
  constructor
  · rintro ⟨⟨k, x⟩, ⟨hx, hr⟩, rfl⟩
    have hlast := (mem_openCalls records k x).mp hx
    obtain rfl : x.key = k := by
      have hmem := List.mem_of_getLast? hlast
      simp only [List.mem_filter, decide_eq_true_eq] at hmem
      exact hmem.2.1
    exact ⟨hlast, hr⟩
  · rintro ⟨hlast, hr⟩
    exact ⟨(r.key, r), ⟨(mem_openCalls records r.key r).mpr hlast, hr⟩, rfl⟩

theorem candidates_keys_nodup (ttlSecs now : Nat) (records : List WalRecord) :
    ((recoverAndFinalize doneMs ttlSecs now records).1.map (·.key)).Nodup := by
  simp only [recoverAndFinalize, foldl_finalizeCall, List.nil_append, List.map_map]
  have hkey : ∀ p ∈ (openCalls records).mergeSort before, p.2.key = p.1 := by
    intro p hp
    have hlast := (mem_openCalls records p.1 p.2).mp (List.mem_mergeSort.mp hp)
    have hmem := List.mem_of_getLast? hlast
    simp only [List.mem_filter, decide_eq_true_eq] at hmem
    exact hmem.2.1
  have hmap : (((openCalls records).mergeSort before).filter
      (resumed records (ttlCutoff ttlSecs now))).map ((fun r => r.key) ∘ Prod.snd) =
      (((openCalls records).mergeSort before).filter
        (resumed records (ttlCutoff ttlSecs now))).map Prod.fst := by
    apply List.map_congr_left
    intro p hp
    exact hkey p (List.mem_filter.mp hp).1
  rw [hmap]
  have hnodup : (((openCalls records).mergeSort before).map Prod.fst).Nodup :=
    ((List.mergeSort_perm _ _).map Prod.fst).nodup_iff.mpr (openCalls_keys_nodup records)
  exact hnodup.sublist (List.filter_sublist.map Prod.fst)

theorem appended_terminal (records : List WalRecord) (cutoff : Nat) (acc : Recovery)
    (ps : List (Key × WalRecord)) (h : ∀ r ∈ acc.appended, r.state.terminal = true) :
    ∀ r ∈ (ps.foldl (finalizeCall doneMs records cutoff) acc).appended,
      r.state.terminal = true := by
  induction ps generalizing acc with
  | nil => exact h
  | cons p ps ih =>
    apply ih
    intro r hr
    unfold finalizeCall at hr
    split at hr
    · exact h r hr
    · split at hr
      · exact h r hr
      · split at hr
        · rcases List.mem_append.mp hr with hr | hr
          · exact h r hr
          · rw [List.mem_singleton.mp hr]
            rfl
        · rcases List.mem_append.mp hr with hr | hr
          · exact h r hr
          · rw [List.mem_singleton.mp hr]
            rfl

/-- Nothing is open after a recovery. -/
theorem second_recovery_empty (ttlSecs now now' : Nat) (records : List WalRecord)
    (doneMs' : WalRecord → Nat) :
    (recoverAndFinalize doneMs' ttlSecs now'
      (recoverAndFinalize doneMs ttlSecs now records).2).1 = [] := by
  have hterm : ∀ r ∈ (recoverAndFinalize doneMs ttlSecs now records).2,
      r.state.terminal = true := by
    intro r hr
    rcases List.mem_append.mp hr with hr | hr
    · have hstate := (List.mem_filter.mp hr).2
      cases hs : r.state <;> simp [hs] at hstate ⊢ <;> rfl
    · exact appended_terminal doneMs records _ ⟨[], []⟩ _ (by simp) r hr
  apply List.eq_nil_iff_forall_not_mem.mpr
  intro r hr
  have hmem := List.mem_of_getLast? ((mem_candidates doneMs' ttlSecs now' _ r).mp hr).1
  simp only [List.mem_filter, decide_eq_true_eq, isOpen] at hmem
  simp [hterm r hmem.1] at hmem

/-! What recovery should return, read off the entries with their full arguments. -/

/-- The entries of the call under way with this key: those since its last finish. -/
def current (k : Key) (log : List Entry) : List Entry :=
  (log.filter (·.key = k)).rtakeWhile fun e => !e.state.terminal

def startedNow (k : Key) (log : List Entry) : Bool :=
  (current k log).any (·.state = .started)

/-- Decided on the arguments given at admission. -/
def irreversibleNow (k : Key) (log : List Entry) : Bool :=
  match (current k log).find? (·.state = .admitted) <|> (current k log).head? with
  | some e => isIrreversibleCall e.tool e.args
  | none => false

def finishedBefore (k : Key) (log : List Entry) : Bool :=
  log.any fun e => e.key = k ∧ e.state.terminal = true

/-- `e` is the latest record of its call, and the call is open and within the time limit. -/
def OpenInTime (cutoff : Nat) (log : List Entry) (e : Entry) : Prop :=
  (log.filter (·.key = e.key)).getLast? = some e ∧ e.state.terminal = false ∧ cutoff ≤ e.tsMs

def ToResume (cutoff : Nat) (log : List Entry) (e : Entry) : Prop :=
  OpenInTime cutoff log e ∧ ¬ (startedNow e.key log = true ∧ irreversibleNow e.key log = true)

/-- Exactly the calls to resume are returned, each once, and a second recovery has none. -/
def RecoveryExact (ttlSecs now : Nat) (log : List Entry) : Prop :=
  (∀ r, r ∈ (recoverAndFinalize doneMs ttlSecs now (log.map Entry.record)).1 ↔
    ∃ e, ToResume (ttlCutoff ttlSecs now) log e ∧ e.record = r) ∧
  ((recoverAndFinalize doneMs ttlSecs now (log.map Entry.record)).1.map (·.key)).Nodup ∧
  ∀ now' doneMs', (recoverAndFinalize doneMs' ttlSecs now'
    (recoverAndFinalize doneMs ttlSecs now (log.map Entry.record)).2).1 = []

/-- An open call whose key was finished before is one that must not be resumed, and the
preview of a started call with a fresh key decides as its full arguments do. -/
def KeysFreshAndPreviewsDecide (cutoff : Nat) (log : List Entry) : Prop :=
  ∀ e, OpenInTime cutoff log e →
    if finishedBefore e.key log then
      startedNow e.key log = true ∧ irreversibleNow e.key log = true
    else startedNow e.key log = true →
      isIrreversibleCall e.tool e.record.argsPreview = irreversibleNow e.key log

theorem mem_finishedKeys (k : Key) (log : List Entry) :
    k ∈ finishedKeys (log.map Entry.record) ↔ finishedBefore k log = true := by
  simp only [finishedKeys, finishedBefore, List.mem_map, List.mem_filter, List.any_eq_true,
    decide_eq_true_eq]
  constructor
  · rintro ⟨_, ⟨⟨e, he, rfl⟩, ht⟩, hk⟩
    exact ⟨e, he, hk, ht⟩
  · rintro ⟨e, he, hk, ht⟩
    exact ⟨e.record, ⟨⟨e, he, rfl⟩, ht⟩, hk⟩

theorem not_terminal_of_fresh {log : List Entry} {e : Entry} (he : e ∈ log)
    (h : finishedBefore e.key log = false) : e.state.terminal = false := by
  simp only [finishedBefore, List.any_eq_false, decide_eq_true_eq, not_and] at h
  simpa using h e he rfl

theorem current_of_fresh {k : Key} {log : List Entry} (h : finishedBefore k log = false) :
    current k log = log.filter (·.key = k) := by
  apply List.rtakeWhile_eq_self_iff.mpr
  intro e he
  obtain ⟨hlog, hk⟩ := List.mem_filter.mp he
  rw [not_terminal_of_fresh hlog (by rwa [of_decide_eq_true hk])]
  rfl

theorem mem_startedKeys {k : Key} {log : List Entry} (h : finishedBefore k log = false) :
    k ∈ startedKeys (log.map Entry.record) ↔ startedNow k log = true := by
  simp only [startedKeys, startedNow, current_of_fresh h, List.mem_map, List.mem_filter,
    List.any_eq_true, decide_eq_true_eq]
  constructor
  · rintro ⟨_, ⟨⟨e, he, rfl⟩, hs⟩, hk⟩
    exact ⟨e, ⟨he, hk⟩, hs⟩
  · rintro ⟨e, ⟨he, hk⟩, hs⟩
    exact ⟨e.record, ⟨⟨e, he, rfl⟩, hs⟩, hk⟩

theorem filter_open_of_fresh {k : Key} {log : List Entry} (h : finishedBefore k log = false) :
    ((log.map Entry.record).filter fun r => r.key = k ∧ isOpen r) =
      (log.filter (·.key = k)).map Entry.record := by
  rw [List.filter_map]
  congr 1
  apply List.filter_congr
  intro e he
  by_cases hk : e.key = k
  · subst hk
    simp [isOpen, not_terminal_of_fresh he h]
  · simp [hk]

/-- What recovery returns: the latest records of open calls whose key was never finished. -/
theorem mem_candidates_log (ttlSecs now : Nat) (log : List Entry) (r : WalRecord) :
    r ∈ (recoverAndFinalize doneMs ttlSecs now (log.map Entry.record)).1 ↔
      ∃ e, OpenInTime (ttlCutoff ttlSecs now) log e ∧ e.record = r ∧
        finishedBefore e.key log = false ∧
        ¬ (startedNow e.key log = true ∧
          isIrreversibleCall e.tool e.record.argsPreview = true) := by
  rw [mem_candidates, resumed, decide_eq_true_eq, mem_finishedKeys, Bool.not_eq_true]
  constructor
  · rintro ⟨hlast, hf, ht, hs⟩
    rw [filter_open_of_fresh hf, List.getLast?_map] at hlast
    obtain ⟨e, he, rfl⟩ := Option.map_eq_some_iff.mp hlast
    rw [mem_startedKeys hf] at hs
    have hlog := (List.mem_filter.mp (List.mem_of_getLast? he)).1
    exact ⟨e, ⟨he, not_terminal_of_fresh hlog hf, ht⟩, rfl, hf, hs⟩
  · rintro ⟨e, ⟨hlast, -, ht⟩, rfl, hf, hs⟩
    refine ⟨?_, hf, ht, ?_⟩
    · rw [Entry.record_key, filter_open_of_fresh hf, List.getLast?_map, hlast]
      rfl
    · rw [Entry.record_key, mem_startedKeys hf]
      exact hs

/-- Two records of one key cannot both be its latest. -/
theorem OpenInTime.unique {cutoff : Nat} {log : List Entry} {e f : Entry}
    (he : OpenInTime cutoff log e) (hf : OpenInTime cutoff log f) (h : e.record = f.record) :
    e = f := by
  have hk : e.key = f.key := congrArg (·.key) h
  have hlast := he.1
  rw [hk, hf.1] at hlast
  exact (Option.some.inj hlast).symm

theorem recovery_exact_iff (ttlSecs now : Nat) (log : List Entry) :
    RecoveryExact doneMs ttlSecs now log ↔
      KeysFreshAndPreviewsDecide (ttlCutoff ttlSecs now) log := by
  constructor
  · rintro ⟨hexact, -, -⟩ e he
    have hret := hexact e.record
    rw [mem_candidates_log] at hret
    split
    · rename_i hf
      by_contra hs
      obtain ⟨f, hfo, hfe, hff, -⟩ := hret.mpr ⟨e, ⟨he, hs⟩, rfl⟩
      rw [hfo.unique he hfe, hf] at hff
      simp at hff
    · rename_i hf
      intro hstart
      have hfresh : finishedBefore e.key log = false := by simpa using hf
      apply Bool.eq_iff_iff.mpr
      constructor
      · intro hp
        by_contra hfull
        obtain ⟨f, hfo, hfe, -, hfs⟩ := hret.mpr ⟨e, ⟨he, fun h => hfull h.2⟩, rfl⟩
        rw [hfo.unique he hfe] at hfs
        exact hfs ⟨hstart, hp⟩
      · intro hfull
        by_contra hp
        obtain ⟨f, hfo, hfe⟩ := hret.mp ⟨e, he, rfl, hfresh, fun h => hp h.2⟩
        rw [hfo.1.unique he hfe] at hfo
        exact hfo.2 ⟨hstart, hfull⟩
  · intro h
    refine ⟨?_, candidates_keys_nodup doneMs ttlSecs now _, fun now' doneMs' =>
      second_recovery_empty doneMs ttlSecs now now' _ doneMs'⟩
    intro r
    rw [mem_candidates_log]
    constructor
    · rintro ⟨e, he, hr, hf, hs⟩
      have hcond := h e he
      rw [if_neg (by simp [hf])] at hcond
      refine ⟨e, ⟨he, ?_⟩, hr⟩
      rintro ⟨hstart, hirr⟩
      exact hs ⟨hstart, (hcond hstart).trans hirr⟩
    · rintro ⟨e, ⟨he, hs⟩, hr⟩
      have hcond := h e he
      split at hcond
      · exact absurd hcond hs
      · rename_i hf
        refine ⟨e, he, hr, by simpa using hf, ?_⟩
        rintro ⟨hstart, hp⟩
        exact hs ⟨hstart, (hcond hstart).symm.trans hp⟩

/-- A key used again: the second call is swallowed by the first one's finish. -/
def reusedKey : List Entry :=
  let call : WalCall :=
    ⟨"s".toList, "web".toList, "1".toList, "u".toList, "1".toList, "exec".toList⟩
  [⟨call, 1, [], .admitted, none⟩, ⟨call, 2, [], .finished, some true⟩,
    ⟨call, 3, [], .admitted, none⟩]

theorem reused_key_swallowed : ¬ RecoveryExact (fun _ => 4) 60 4 reusedKey := by
  intro h
  have hopen : ToResume (ttlCutoff 60 4) reusedKey (reusedKey.getLast (by decide)) := by
    refine ⟨⟨by decide, by decide, by decide⟩, by decide⟩
  obtain ⟨e, he, hr, hf, -⟩ := (mem_candidates_log _ _ _ _ _).mp ((h.1 _).mpr ⟨_, hopen, rfl⟩)
  rw [he.unique hopen.1 hr] at hf
  revert hf
  decide

theorem infix_truncateChars {w s : Text} {max : Nat} (hw : w ≠ []) (h : '…' ∉ w) :
    w <:+: truncateChars s max ↔ w <:+: s.take max := by
  unfold truncateChars
  split
  · rw [List.take_of_length_le ‹_›]
  · have hcut : s.take max ++ "…".toList = s.take max ++ ['…'] := rfl
    rw [hcut, List.infix_concat_iff]
    constructor
    · rintro (hs | hs)
      · rcases List.suffix_concat_iff.mp hs with hs | ⟨t, rfl, -⟩
        · exact absurd hs hw
        · simp at h
      · exact hs
    · exact .inr

/-- The preview of a started call decides wrongly only for a `git push` written late. -/
theorem preview_decides_iff (tool args : Text) :
    isIrreversibleCall tool (truncateChars args argsPreviewMaxChars) =
        isIrreversibleCall tool args ↔
      ¬ (tool = "git".toList ∧ "push".toList <:+: args ∧
        ¬ "push".toList <:+: args.take argsPreviewMaxChars) := by
  have hcut : "push".toList <:+: truncateChars args argsPreviewMaxChars ↔
      "push".toList <:+: args.take argsPreviewMaxChars :=
    infix_truncateChars (by decide) (by decide)
  have htake : "push".toList <:+: args.take argsPreviewMaxChars → "push".toList <:+: args :=
    fun h => h.trans (List.take_prefix _ _).isInfix
  unfold isIrreversibleCall
  split
  · rename_i h
    simp only [true_iff]
    rintro ⟨rfl, -⟩
    revert h
    decide
  · by_cases hg : tool = "git".toList
    · simp only [hg, if_true, hcut, decide_eq_decide]
      tauto
    · simp only [hg, if_false, false_and, not_false_eq_true]

end NemesisBot.TurnWal

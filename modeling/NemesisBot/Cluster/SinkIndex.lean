import NemesisBot.Cluster.SinkLandings

/-! The dedup index tells the truth: where a task is in it and its inbox directory has a receipt,
the directory holds the content of the entry. -/
namespace NemesisBot.Transfer
open Strings FileTree ExecWorkspace

/-- Two contents share an inbox directory only if they are of one task, and a staging directory
only if they are the same. -/
structure Apart (a b : TransferBegin) : Prop where
  task : Sink.landedName a = Sink.landedName b → a.taskId = b.taskId
  content : sanitizeTransferId a.transferId = sanitizeTransferId b.transferId →
    a.taskId = b.taskId ∧ a.contentHash = b.contentHash

variable (cfg : SinkConfig) (contents : List TransferBegin)

/-- What holds of the contents that are pushed. -/
structure Started : Prop where
  collected : ∀ m ∈ contents, ∃ tree, collectDirFiles cfg.env tree = .ok m.files ∧
    m.contentHash = contentHash cfg.env m.files
  untrimmed : ∀ m ∈ contents, ∀ f ∈ m.files, trim f.path = f.path
  apart : ∀ m ∈ contents, ∀ m' ∈ contents, Apart m m'

/-- The manifests in the staging directories are those of pushes. -/
def Staged (s : Sink) : Prop :=
  ∀ name m, s.staging name = some (some m) → sanitizeTransferId m.transferId = name ∧ m ∈ contents

structure Told (s : Sink) (index : Text → Option Text) : Prop where
  known : ∀ t h, index t = some h → ∃ m ∈ contents, m.taskId = t ∧ m.contentHash = h
  sound : ∀ t h, index t = some h → s.receipts (safeTaskFileName t) = true →
    ∃ m ∈ contents, m.taskId = t ∧ m.contentHash = h ∧ Holds cfg s.fs m

/-- What a restart finds on disk. -/
structure Durable (s : Sink) : Prop where
  staged : Staged contents s
  saved : Told cfg contents s s.saved

structure Good (s : Sink) : Prop extends Durable cfg contents s where
  index : Told cfg contents s s.index

variable {cfg contents} {s s' : Sink} {index : Text → Option Text} {name : Text} {torn : Torn}
  {m m' : TransferBegin}

theorem Apart.symm (h : Apart m m') : Apart m' m :=
  ⟨fun hname => (h.task hname.symm).symm,
    fun hname => (h.content hname.symm).imp Eq.symm Eq.symm⟩

theorem Apart.refl (m : TransferBegin) : Apart m m := ⟨fun _ => rfl, fun _ => ⟨rfl, rfl⟩⟩

theorem Started.whole (h : Started cfg contents) (hm : m ∈ contents) : Whole m := by
  obtain ⟨tree, htree, -⟩ := h.collected m hm
  exact fun f hf => ⟨h.untrimmed m hm f hf, collected_safe htree f hf⟩

theorem Started.files_eq (h : Started cfg contents) (hm : m ∈ contents) (hm' : m' ∈ contents)
    (hhash : m.contentHash = m'.contentHash) : m.files = m'.files := by
  obtain ⟨tree, htree, hfirst⟩ := h.collected m hm
  obtain ⟨tree', htree', hsecond⟩ := h.collected m' hm'
  exact contentHash_inj htree htree' (hfirst.symm.trans (hhash.trans hsecond))

theorem Started.holds_iff (h : Started cfg contents) (hm : m ∈ contents) (hm' : m' ∈ contents)
    (htask : m.taskId = m'.taskId) (hhash : m.contentHash = m'.contentHash) {fs : Files}
    (hholds : Holds cfg fs m) : Holds cfg fs m' :=
  hholds.congr htask.symm (h.files_eq hm hm' hhash).symm

theorem Durable.restart (h : Durable cfg contents s) : Good cfg contents s.restart where
  staged := h.staged
  saved := ⟨h.saved.known, h.saved.sound⟩
  index := ⟨h.saved.known, h.saved.sound⟩

/-- An entry stands as long as the inbox directory of its task does. -/
theorem Told.keep (h : Told cfg contents s index) (hs : Started cfg contents)
    (hsame : ∀ t, index t ≠ none → s'.receipts (safeTaskFileName t) = true →
      s.receipts (safeTaskFileName t) = true ∧ Same cfg.inboxRoot t s.fs s'.fs) :
    Told cfg contents s' index := by
  refine ⟨h.known, fun t hash ht hreceipt => ?_⟩
  obtain ⟨hbefore, hfs⟩ := hsame t (by rw [ht]; exact Option.some_ne_none hash) hreceipt
  obtain ⟨m, hm, rfl, hhash, hholds⟩ := h.sound t hash ht hbefore
  exact ⟨m, hm, rfl, hhash, hholds.of_same (hs.whole hm) hfs⟩

theorem Told.keep_all (h : Told cfg contents s index) (hs : Started cfg contents)
    (hreceipts : s'.receipts = s.receipts) (hsame : ∀ t, Same cfg.inboxRoot t s.fs s'.fs) :
    Told cfg contents s' index :=
  h.keep hs fun t _ hreceipt => ⟨hreceipts ▸ hreceipt, hsame t⟩

/-- Only the task of a content goes by its inbox directory. -/
theorem Told.task_eq (h : Told cfg contents s index) (hs : Started cfg contents)
    (hm : m ∈ contents) {t : Text} (ht : index t ≠ none)
    (hname : safeTaskFileName t = Sink.landedName m) : t = m.taskId := by
  obtain ⟨hash, hhash⟩ := Option.ne_none_iff_exists'.mp ht
  obtain ⟨m', hm', rfl, -⟩ := h.known t hash hhash
  exact (hs.apart m' hm' m hm).task hname

theorem Told.tear (h : Told cfg contents s index) (hs : Started cfg contents)
    (hclean : torn.jsonLost = true ∨ torn.lost = [] ∨
      ∀ t, safeTaskFileName t = name → index t = none) :
    Told cfg contents (s.tearLanded cfg torn name) index := by
  refine h.keep hs fun t ht hreceipt => ?_
  by_cases hname : safeTaskFileName t = name
  · simp only [Sink.tearLanded, hname, Function.update_self, Bool.and_eq_true] at hreceipt
    obtain ⟨hold, hjson⟩ := hreceipt
    refine ⟨hname ▸ hold, ?_⟩
    rcases hclean with hclean | hclean | hclean
    · rw [hclean] at hjson
      cases hjson
    · rw [Sink.tearLanded, hclean]
      exact Same.refl
    · exact absurd (hclean t hname) ht
  · simp only [Sink.tearLanded, Function.update_of_ne hname] at hreceipt
    exact ⟨hreceipt, same_without (Ne.symm hname) torn.lost⟩

theorem Told.tearLanded (h : Told cfg contents s index) (hs : Started cfg contents)
    (hm : m ∈ contents)
    (hclean : torn.jsonLost = true ∨ torn.lost = [] ∨ index m.taskId = none) :
    Told cfg contents (s.tearLanded cfg torn (Sink.landedName m)) index := by
  refine h.tear hs (hclean.imp_right fun hclean => hclean.imp_right fun hnone t hname => ?_)
  by_contra ht
  exact ht (h.task_eq hs hm ht hname ▸ hnone)

theorem Told.clearLanded (h : Told cfg contents s index) (hs : Started cfg contents)
    (name : Text) : Told cfg contents (s.clearLanded cfg name) index := by
  refine h.keep hs fun t _ hreceipt => ?_
  by_cases hname : safeTaskFileName t = name
  · simp only [Sink.clearLanded, hname, Function.update_self] at hreceipt
    cases hreceipt
  · simp only [Sink.clearLanded, Function.update_of_ne hname] at hreceipt
    exact ⟨hreceipt, same_prune (Ne.symm hname)⟩

/-- The content has been moved to an inbox directory without a receipt. -/
theorem Told.renamed {fs : Files} {transferId : Text}
    (h : Told cfg contents s index) (hs : Started cfg contents)
    (hnone : s.receipts (Sink.landedName m) = false)
    (hmove : s.fs.move (joined (stagingDir cfg.inboxRoot transferId) "out".toList)
      (inboxDir cfg.inboxRoot m.taskId) = some fs) :
    Told cfg contents { s with fs } index := by
  refine h.keep hs fun t _ hreceipt => ?_
  by_cases hname : safeTaskFileName t = Sink.landedName m
  · rw [hname, hnone] at hreceipt
    cases hreceipt
  · exact ⟨hreceipt, same_move (Ne.symm hname) hmove⟩

/-- A receipt is right where the index knows nothing else of the task. -/
theorem Told.writeReceipt (h : Told cfg contents s index) (hs : Started cfg contents)
    (hm : m ∈ contents) (hholds : Holds cfg s.fs m)
    (hclean : index m.taskId = none ∨ index m.taskId = some m.contentHash) :
    Told cfg contents (s.writeReceipt (Sink.landedName m)) index := by
  refine ⟨h.known, fun t hash ht hreceipt => ?_⟩
  by_cases hname : safeTaskFileName t = Sink.landedName m
  · obtain rfl := h.task_eq hs hm (by rw [ht]; exact Option.some_ne_none hash) hname
    rw [ht] at hclean
    rcases hclean with hclean | hclean
    · cases hclean
    · exact ⟨m, hm, rfl, (Option.some.inj hclean).symm, hholds⟩
  · simp only [Sink.writeReceipt, Function.update_of_ne hname] at hreceipt
    exact h.sound t hash ht hreceipt

/-- The entry of the content that has landed. -/
theorem Told.update (h : Told cfg contents s index) (hs : Started cfg contents)
    (hm : m ∈ contents) (hholds : Holds cfg s.fs m) :
    Told cfg contents (s.writeReceipt (Sink.landedName m))
      (Function.update index m.taskId (some m.contentHash)) := by
  refine ⟨fun t hash ht => ?_, fun t hash ht hreceipt => ?_⟩
  · by_cases htask : t = m.taskId
    · subst htask
      rw [Function.update_self] at ht
      exact ⟨m, hm, rfl, Option.some.inj ht⟩
    · rw [Function.update_of_ne htask] at ht
      exact h.known t hash ht
  · by_cases htask : t = m.taskId
    · subst htask
      rw [Function.update_self] at ht
      exact ⟨m, hm, rfl, Option.some.inj ht, hholds⟩
    · rw [Function.update_of_ne htask] at ht
      have hname : safeTaskFileName t ≠ Sink.landedName m := fun hname =>
        htask (h.task_eq hs hm (by rw [ht]; exact Option.some_ne_none hash) hname)
      simp only [Sink.writeReceipt, Function.update_of_ne hname] at hreceipt
      exact h.sound t hash ht hreceipt

/-- The entries that a sweep leaves. -/
theorem Told.forget (h : Told cfg contents s index) (gone : Text → Prop) [DecidablePred gone] :
    Told cfg contents s fun t => if gone t then none else index t := by
  refine ⟨fun t hash ht => ?_, fun t hash ht hreceipt => ?_⟩
  · split at ht
    · cases ht
    · exact h.known t hash ht
  · split at ht
    · cases ht
    · exact h.sound t hash ht hreceipt

/-! What a call does. -/

theorem begin_cases {req : TransferBegin} {c : Called TransferBeginReply}
    (h : s.begin cfg torn req = some c) :
    (c.writes = [] ∧ c.reply.status ≠ .ok ∧ (c.reply.status = .dedup →
      s.index req.taskId = some req.contentHash ∧ s.receipts (Sink.landedName req) = true)) ∨
    (c.reply.status = .ok ∧ ((s.manifest req.transferId).any fun m =>
        m.contentHash = req.contentHash) = true ∧
      c.writes = [s.stage req.transferId none, s.stage req.transferId (some req)]) ∨
    (c.reply.status = .ok ∧ ((s.manifest req.transferId).any fun m =>
        m.contentHash = req.contentHash) = false ∧
      c.writes = [s.tearStaging cfg torn (sanitizeTransferId req.transferId),
        s.clearStaging cfg (sanitizeTransferId req.transferId),
        (s.clearStaging cfg (sanitizeTransferId req.transferId)).stage req.transferId none,
        (s.clearStaging cfg (sanitizeTransferId req.transferId)).stage req.transferId
          (some req)]) := by
  simp only [Sink.begin] at h
  split at h
  · obtain rfl := Option.some.inj h
    exact .inl ⟨rfl, by simp, fun hd => by cases hd⟩
  obtain ⟨valid, -, h⟩ := Option.bind_eq_some_iff.mp h
  cases valid with
  | error e =>
    obtain rfl := Option.some.inj h
    exact .inl ⟨rfl, by simp, fun hd => by cases hd⟩
  | ok _ =>
    dsimp only at h
    split at h
    · rename_i hdedup
      obtain rfl := Option.some.inj h
      exact .inl ⟨rfl, by simp, fun _ => hdedup⟩
    split at h
    · rename_i hresume
      obtain ⟨received, -, rfl⟩ := Option.map_eq_some_iff.mp h
      exact .inr (.inl ⟨rfl, hresume, rfl⟩)
    · rename_i hresume
      obtain rfl := Option.some.inj h
      exact .inr (.inr ⟨rfl, Bool.eq_false_iff.mpr hresume, rfl⟩)

theorem chunk_cases (req : TransferChunk) : (s.chunk cfg req).writes = [] ∨ ∃ fs,
    putFile s.fs (stagingDir cfg.inboxRoot req.transferId) (chunkName req.seq)
      (fun _ => req.data) = some fs ∧ (s.chunk cfg req).writes = [{ s with fs }] := by
  simp only [Sink.chunk]
  split
  · exact .inl rfl
  split
  · exact .inl rfl
  split
  · exact .inl rfl
  split
  · exact .inl rfl
  split
  · exact .inl rfl
  split
  · rename_i fs hfs
    exact .inr ⟨fs, hfs, rfl⟩
  · exact .inl rfl

/-- The sinks of a landing that succeeds, from the assembly on. -/
def landings (cfg : SinkConfig) (torn : Torn) (transferId : Text) (m : TransferBegin)
    (reply : TransferEndReply) (s : Sink) (fs : Files) : List Sink :=
  let staged := sanitizeTransferId transferId
  let cleared := s.clearLanded cfg (Sink.landedName m)
  let receipted := { cleared with fs }.writeReceipt (Sink.landedName m)
  let done := (receipted.saveIndex m).writeDone staged reply
  [s, s.tearLanded cfg torn (Sink.landedName m), cleared, { cleared with fs }, receipted,
    receipted.saveIndex m, done, done.tearStaging cfg torn staged, done.clearStaging cfg staged]

theorem end_cases {transferId : Text} {c : Called (Except Text TransferEndReply)}
    (h : s.endTransfer cfg torn transferId = some c) :
    (c.writes = [] ∧ ∀ r, c.reply = .ok r → s.staging (sanitizeTransferId transferId) = none ∧
      s.finished (sanitizeTransferId transferId) = some r) ∨
    ∃ m mid, s.staging (sanitizeTransferId transferId) = some (some m) ∧
      Sink.assembleOut cfg transferId m s.fs = some (.ok mid) ∧
      ((c.writes = [{ s with fs := mid }] ∧ ∀ r, c.reply ≠ .ok r) ∨
      (c.writes = [{ s with fs := mid },
        { s with fs := mid }.tearLanded cfg torn (Sink.landedName m),
        { s with fs := mid }.clearLanded cfg (Sink.landedName m)] ∧ ∀ r, c.reply ≠ .ok r) ∨
      ∃ fs reply, inboxDir cfg.inboxRoot m.taskId ∉ mid.paths ∧
        (mid.prune (inboxDir cfg.inboxRoot m.taskId)).move
          (joined (stagingDir cfg.inboxRoot transferId) "out".toList)
          (inboxDir cfg.inboxRoot m.taskId) = some fs ∧
        c.writes = landings cfg torn transferId m reply { s with fs := mid } fs) := by
  simp only [Sink.endTransfer] at h
  split at h
  · rename_i hnone
    split at h
    · rename_i r hr
      obtain rfl := Option.some.inj h
      exact .inl ⟨rfl, fun r' hr' => ⟨hnone, Except.ok.inj hr' ▸ hr⟩⟩
    · obtain rfl := Option.some.inj h
      exact .inl ⟨rfl, fun r hr => by cases hr⟩
  split at h
  · obtain rfl := Option.some.inj h
    exact .inl ⟨rfl, fun r hr => by cases hr⟩
  · rename_i m hm
    obtain ⟨assembled, hassembled, hc⟩ := Option.map_eq_some_iff.mp h
    cases assembled with
    | error e =>
      subst hc
      exact .inl ⟨rfl, fun r hr => by cases hr⟩
    | ok mid =>
      have hstaging : s.staging (sanitizeTransferId transferId) = some (some m) := by
        rw [Sink.manifest] at hm
        exact Option.join_eq_some_iff.mp hm
      refine .inr ⟨m, mid, hstaging, hassembled, ?_⟩
      simp only [Sink.land] at hc
      split at hc
      · subst hc
        exact .inl ⟨rfl, fun r hr => by cases hr⟩
      rename_i hfound
      have hfree : inboxDir cfg.inboxRoot m.taskId ∉ mid.paths := fun hin =>
        hfound (Option.isSome_iff_exists.mpr (mem_paths_iff.mp hin))
      split at hc
      · subst hc
        exact .inr (.inl ⟨rfl, fun r hr => by cases hr⟩)
      · rename_i fs hmove
        subst hc
        simp only [Sink.clearLanded, Sink.landedName, ← inboxDir_eq] at hmove
        exact .inr (.inr ⟨fs, _, hfree, hmove, rfl⟩)

end NemesisBot.Transfer

import NemesisBot.Cluster.TransferPush

/-! Which of the sink's writes touch the inbox directory of a task, and what a landing leaves
there. -/
namespace NemesisBot.Transfer
open Strings FileTree ExecWorkspace
variable {cfg : SinkConfig} {fs fs' : Files} {root p : List Text} {t name : Text}

theorem stagingDir_name (root : List Text) (transferId : Text) : stagingDir root transferId =
    root ++ [".staging".toList, sanitizeTransferId transferId] := by
  rw [stagingDir, joined_name root (by decide) (by decide), sanitizeTransferId]
  split
  · rw [joined_name _ (by decide) (by decide), List.append_assoc]
    rfl
  · rw [joined_name _ segment_name.1 segment_name.2.1, List.append_assoc]
    rfl

theorem same_first {x y : Text} {u v : List Text} (hx : root ++ x :: u <+: p)
    (hy : root ++ y :: v <+: p) : x = y := by
  obtain ⟨w, rfl⟩ := hx
  rw [List.append_assoc, List.prefix_append_right_inj] at hy
  exact (List.cons_prefix_cons.mp hy).1.symm

/-- The two trees have the same files below the inbox directory of the task. -/
def Same (root : List Text) (t : Text) (fs fs' : Files) : Prop :=
  ∀ p, inboxDir root t <+: p → fs'.find p = fs.find p

theorem Same.refl : Same root t fs fs := fun _ _ => rfl

theorem Same.trans {mid : Files} (h : Same root t fs mid) (h' : Same root t mid fs') :
    Same root t fs fs' := fun p hp => (h' p hp).trans (h p hp)

/-- Changes below another directory of the inbox root. -/
theorem same_of_first {x : Text} {u : List Text} (hx : x ≠ safeTaskFileName t)
    (h : ∀ p, ¬ root ++ x :: u <+: p → fs'.find p = fs.find p) : Same root t fs fs' := by
  intro p hp
  rw [inboxDir_eq] at hp
  exact h p fun hpre => hx (same_first hpre hp)

theorem staging_ne (t : Text) : ".staging".toList ≠ safeTaskFileName t :=
  segment_name.2.2.symm

theorem find_without {dir : List Text} (lost : List (List Text)) (hp : ¬ dir <+: p) :
    (Sink.without fs dir lost).find p = fs.find p := by
  induction lost generalizing fs with
  | nil => rfl
  | cons path lost ih =>
    have hstep : Sink.without fs dir (path :: lost) =
        Sink.without (if dir <+: path then fs.prune path else fs) dir lost := rfl
    rw [hstep, ih]
    split
    · rename_i hpath
      rw [find_prune, if_neg fun hpre => hp (hpath.trans hpre)]
    · rfl

theorem same_prune {x : Text} {u : List Text} (hx : x ≠ safeTaskFileName t) :
    Same root t fs (fs.prune (root ++ x :: u)) :=
  same_of_first hx fun p hp => by rw [find_prune, if_neg hp]

theorem same_without {x : Text} {u : List Text} (hx : x ≠ safeTaskFileName t)
    (lost : List (List Text)) : Same root t fs (Sink.without fs (root ++ x :: u) lost) :=
  same_of_first hx fun _ hp => find_without lost hp

theorem same_put {transferId rel : Text} {change : ByteArray → ByteArray}
    (hrel : '/' ∉ rel ∧ rel ∉ [[], ['.'], ['.', '.']])
    (h : putFile fs (stagingDir root transferId) rel change = some fs') : Same root t fs fs' := by
  rw [putFile] at h
  split at h
  · refine same_of_first (staging_ne t) (u := [sanitizeTransferId transferId]) fun p hp => ?_
    rw [find_put h, if_neg]
    rintro rfl
    rw [joined_name _ hrel.1 hrel.2, stagingDir_name] at hp
    exact hp (List.prefix_append _ _)
  · cases h

theorem chunkName_clear (seq : Nat) : '/' ∉ chunkName seq := by
  have hdigits : '/' ∉ Nat.toDigits 10 seq := fun h =>
    Bool.false_ne_true (@Nat.isDigit_of_mem_toDigits 10 seq '/' (by decide) (by decide) h)
  have hzeros : '/' ∉ List.replicate (6 - (Nat.toDigits 10 seq).length) '0' := by
    intro h
    exact absurd (List.eq_of_mem_replicate h) (by decide)
  unfold chunkName decimal
  dsimp only
  rw [List.mem_append, List.mem_append, List.mem_append, not_or, not_or, not_or]
  exact ⟨⟨⟨by decide, hzeros⟩, hdigits⟩, by decide⟩

theorem chunkName_plain (seq : Nat) :
    '/' ∉ chunkName seq ∧ chunkName seq ∉ [[], ['.'], ['.', '.']] := by
  have hhead : "chunk_".toList = 'c' :: "hunk_".toList := rfl
  refine ⟨chunkName_clear seq, ?_⟩
  unfold chunkName
  dsimp only
  rw [hhead]
  simp only [List.cons_append, List.mem_cons, List.not_mem_nil, or_false, reduceCtorEq,
    List.cons.injEq, false_or, not_or, not_and]
  exact ⟨fun h => absurd h (by decide), fun h => absurd h (by decide)⟩

/-- The assembly happens in the staging directory. -/
theorem assembleOut_ok {transferId : Text} {begin : TransferBegin}
    (h : Sink.assembleOut cfg transferId begin fs = some (.ok fs')) :
    Assembled (joined (joined (stagingDir cfg.inboxRoot transferId) "out".toList) "files".toList)
        begin.files (fs.prune (joined (stagingDir cfg.inboxRoot transferId) "out".toList)) fs' ∧
      ∀ after, inboxDir cfg.inboxRoot begin.taskId ∉ fs'.paths →
        (fs'.prune (inboxDir cfg.inboxRoot begin.taskId)).move
          (joined (stagingDir cfg.inboxRoot transferId) "out".toList)
          (inboxDir cfg.inboxRoot begin.taskId) = some after →
        endTransfer cfg.env cfg.inboxRoot transferId (some begin) fs = some (.ok after) := by
  simp only [Sink.assembleOut] at h
  split at h
  · cases h
  rename_i hdir
  obtain ⟨plan, hplan, h⟩ := Option.bind_eq_some_iff.mp h
  split at h
  · cases h
  rename_i created hcreated
  obtain ⟨written, hwritten, hdone⟩ := Option.map_eq_some_iff.mp h
  obtain ⟨mid, hmid, hdone⟩ := Bytes.bind_eq_ok.mp hdone
  obtain ⟨_, hverified, hdone⟩ := Bytes.bind_eq_ok.mp hdone
  obtain rfl := Except.ok.inj hdone
  subst hmid
  have hfirst := createEmpty_assembled (fun f hf => hf) hcreated
  refine ⟨hfirst.trans (writeChunks_assembled hwritten), fun after hfree hmoved => ?_⟩
  simp only [endTransfer]
  rw [if_neg hdir, hplan, Option.bind_some, hcreated]
  simp only [hwritten, Option.map_some]
  refine congrArg some ?_
  change (verifyFiles _ _ _ _ >>= _) = _
  rw [hverified]
  change (if _ then _ else _) = _
  rw [if_neg hfree, hmoved]

/-! What the writes leave in the inbox. -/

theorem Same.assembled {transferId : Text} {files : List TransferFileEntry}
    (h : Assembled (joined (joined (stagingDir root transferId) "out".toList) "files".toList) files
      (fs.prune (joined (stagingDir root transferId) "out".toList)) fs') : Same root t fs fs' := by
  have hout : joined (stagingDir root transferId) "out".toList =
      root ++ ".staging".toList :: [sanitizeTransferId transferId, "out".toList] := by
    rw [joined_out, stagingDir_name, List.append_assoc]
    rfl
  rw [hout] at h
  refine (same_prune (staging_ne t)).trans (same_of_first (staging_ne t)
    (u := [sanitizeTransferId transferId, "out".toList]) fun p hp => h.outside p fun hpre => hp ?_)
  rw [joined_files] at hpre
  exact (List.prefix_append _ _).trans hpre

theorem same_move {transferId taskId : Text} (hne : safeTaskFileName taskId ≠ safeTaskFileName t)
    (h : fs.move (joined (stagingDir root transferId) "out".toList) (inboxDir root taskId) =
      some fs') : Same root t fs fs' := by
  intro p hp
  rw [inboxDir_eq] at h hp
  have hdst : ¬ root ++ [safeTaskFileName taskId] <+: p := fun hpre => hne (same_first hpre hp)
  have hsrc : ¬ joined (stagingDir root transferId) "out".toList <+: p := by
    rw [joined_out, stagingDir_name, List.append_assoc]
    exact fun hpre => staging_ne t (same_first hpre hp)
  rw [find_move h, if_neg hdst, if_neg hsrc]

/-- A content whose files all have safe paths that are not trimmed. -/
def Whole (content : TransferBegin) : Prop :=
  ∀ f ∈ content.files, trim f.path = f.path ∧ ∃ rel, safeRelativePath f.path = .ok rel

theorem Holds.of_same {content : TransferBegin} (hwhole : Whole content)
    (hsame : Same cfg.inboxRoot content.taskId fs fs') (h : Holds cfg fs content) :
    Holds cfg fs' content := by
  obtain ⟨hfound, honly⟩ := h
  rw [joined_files] at hfound honly
  refine ⟨fun f hf => ?_, fun path hpath hpre => ?_⟩
  · obtain ⟨data, hdata, hrest⟩ := hfound f hf
    obtain ⟨-, rel, hrel⟩ := hwhole f hf
    refine ⟨data, ?_, hrest⟩
    rw [joined_files]
    have hdata : findFile fs _ f.path = some data := hdata
    rw [findFile] at hdata ⊢
    split at hdata
    · rename_i hfile
      rw [if_pos hfile, hsame, hdata]
      · rfl
      · rw [joined_declared _ hrel, List.append_assoc]
        exact List.prefix_append _ _
    · cases hdata
  · rw [joined_files] at hpre ⊢
    refine honly path ?_ hpre
    rw [mem_paths_iff] at hpath ⊢
    rwa [hsame path ((List.prefix_append _ _).trans hpre)] at hpath

theorem Holds.congr {content other : TransferBegin} (htask : other.taskId = content.taskId)
    (hfiles : other.files = content.files) (h : Holds cfg fs content) : Holds cfg fs other := by
  rw [Holds, htask, hfiles]
  exact h

/-- What `end` has moved into the inbox. -/
theorem holds_of_endTransfer {transferId : Text} {content : TransferBegin} (hwhole : Whole content)
    (h : endTransfer cfg.env cfg.inboxRoot transferId (some content) fs = some (.ok fs')) :
    Holds cfg fs' content := by
  obtain ⟨-, hfound, honly, -⟩ := (arrived_iff h).mpr fun f hf => (hwhole f hf).1
  refine ⟨fun f hf => ?_, honly⟩
  obtain ⟨data, hdata, hrest⟩ := hfound f hf
  exact ⟨data, hdata, hrest⟩

end NemesisBot.Transfer

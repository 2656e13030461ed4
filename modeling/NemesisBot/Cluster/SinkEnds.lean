import NemesisBot.Cluster.SinkMoves

/-! What an `end` leaves behind, the landing write by write, and what the sweeps take. -/
namespace NemesisBot.Transfer
open Strings FileTree ExecWorkspace
variable {cfg : SinkConfig} {contents : List TransferBegin} {needed : Text → Prop}
  {s s' : Sink} {torn : Torn} {m : TransferBegin} {transferId : Text} {k : Nat} {fs : Files}
  {reply : TransferEndReply}

theorem Moves.of_same (hd : Durable cfg contents s') (hstaging : s'.staging = s.staging)
    (hfinished : s'.finished = s.finished) : Moves cfg contents needed s s' where
  durable := hd
  grounded _ _ _ hground := .inl (hground.imp (hstaging ▸ id) (hfinished ▸ id))
  finished _ _ hr := .inl (hfinished ▸ hr)

/-- The content is in the inbox when its receipt is there. -/
theorem Moves.of_landed (hd : Durable cfg contents s') (hs : Started cfg contents)
    (hm : m ∈ contents) (hholds : Holds cfg s'.fs m)
    (hstaging : ∀ name, name ≠ stagedName m → s'.staging name = s.staging name)
    (hfinished : ∀ name, name ≠ stagedName m → s'.finished name = s.finished name) :
    Moves cfg contents needed s s' where
  durable := hd
  grounded m' hm' _ hground := by
    by_cases hname : stagedName m' = stagedName m
    · obtain ⟨htask, hhash⟩ := (hs.apart m' hm' m hm).content hname
      exact .inr (hs.holds_iff hm hm' htask.symm hhash.symm hholds)
    · refine .inl (hground.imp ?_ ?_)
      · rw [hstaging _ hname]
        exact id
      · rw [hfinished _ hname]
        exact id
  finished name r hr := by
    by_cases hname : name = stagedName m
    · exact .inr ⟨m, hm, hname.symm, hholds⟩
    · exact .inl (hfinished _ hname ▸ hr)

theorem Good.assembled (hg : Good cfg contents s) (hs : Started cfg contents)
    (h : Sink.assembleOut cfg transferId m s.fs = some (.ok fs)) :
    Good cfg contents { s with fs } :=
  have haside : Aside cfg s { s with fs } :=
    ⟨rfl, rfl, rfl, rfl, fun _ => Same.assembled (assembleOut_ok h).1⟩
  haside.good hs hg hg.staged

theorem Good.cleared (hg : Good cfg contents s) (hs : Started cfg contents) (name : Text) :
    Good cfg contents (s.clearLanded cfg name) where
  staged := hg.staged
  saved := hg.saved.clearLanded hs name
  index := hg.index.clearLanded hs name

theorem Good.renamed (hg : Good cfg contents s) (hs : Started cfg contents)
    (hmove : (s.clearLanded cfg (Sink.landedName m)).fs.move
      (joined (stagingDir cfg.inboxRoot transferId) "out".toList)
      (inboxDir cfg.inboxRoot m.taskId) = some fs) :
    Good cfg contents { s.clearLanded cfg (Sink.landedName m) with fs } :=
  have hnone : (s.clearLanded cfg (Sink.landedName m)).receipts (Sink.landedName m) = false :=
    Function.update_self _ _ _
  have hgood := hg.cleared hs (Sink.landedName m)
  { staged := hgood.staged
    saved := hgood.saved.renamed hs hnone hmove
    index := hgood.index.renamed hs hnone hmove }

/-- From the entry in the index on, the sink is as good as before. -/
theorem Good.indexed (hg : Good cfg contents s) (hs : Started cfg contents) (hm : m ∈ contents)
    (hholds : Holds cfg s.fs m) :
    Good cfg contents ((s.writeReceipt (Sink.landedName m)).saveIndex m) :=
  have htold := hg.index.update hs hm hholds
  { staged := hg.staged
    saved := ⟨htold.known, htold.sound⟩
    index := ⟨htold.known, htold.sound⟩ }

theorem Good.done (hg : Good cfg contents s) (name : Text) (reply : TransferEndReply) :
    Good cfg contents (s.writeDone name reply) :=
  ⟨⟨hg.staged, hg.saved.known, hg.saved.sound⟩, hg.index.known, hg.index.sound⟩

/-- What a crash in a landing must not meet: an older entry of the task beside what is left of
its directory, or beside the receipt of the new content. -/
def CleanLanding (torn : Torn) (m : TransferBegin) (s : Sink) (k : Nat) : Prop :=
  (k = 2 → torn.jsonLost = true ∨ torn.lost = [] ∨ s.saved m.taskId = none) ∧
  (k = 5 → s.saved m.taskId = none ∨ s.saved m.taskId = some m.contentHash)

instance (torn : Torn) (m : TransferBegin) (s : Sink) (k : Nat) :
    Decidable (CleanLanding torn m s k) := inferInstanceAs (Decidable (_ ∧ _))

/-- The sink with the content landed and its receipts written. -/
def Sink.landed (cfg : SinkConfig) (m : TransferBegin) (name : Text) (reply : TransferEndReply)
    (fs : Files) (s : Sink) : Sink :=
  ((({ s.clearLanded cfg (landedName m) with fs }).writeReceipt (landedName m)).saveIndex
    m).writeDone name reply

section
variable (hg : Good cfg contents s) (hs : Started cfg contents) (hm : m ∈ contents)
  (hholds : Holds cfg fs m)
  (hmove : (s.clearLanded cfg (Sink.landedName m)).fs.move
    (joined (stagingDir cfg.inboxRoot transferId) "out".toList)
    (inboxDir cfg.inboxRoot m.taskId) = some fs)
include hg hs hm hholds hmove

theorem landed_good (name : Text) (reply : TransferEndReply) :
    Good cfg contents (s.landed cfg m name reply fs) :=
  ((hg.renamed hs hmove).indexed hs hm hholds).done name reply

theorem landings_moves (hname : stagedName m = sanitizeTransferId transferId)
    (hk : (landings cfg torn transferId m reply s fs)[k]? = some s')
    (hclean : CleanLanding torn m s (k + 1)) : Moves cfg contents needed s s' := by
  have hrenamed := hg.renamed hs hmove
  have hdone := landed_good hg hs hm hholds hmove (sanitizeTransferId transferId) reply
  have hother {name : Text} (hne : name ≠ stagedName m) :
      name ≠ sanitizeTransferId transferId := hname ▸ hne
  obtain _ | _ | _ | _ | _ | _ | _ | _ | _ | k := k
  · obtain rfl := Option.some.inj hk
    exact .of_same hg.toDurable rfl rfl
  · obtain rfl := Option.some.inj hk
    exact .of_same ⟨hg.staged, hg.saved.tearLanded hs hm (hclean.1 rfl)⟩ rfl rfl
  · obtain rfl := Option.some.inj hk
    exact .of_same (hg.cleared hs _).toDurable rfl rfl
  · obtain rfl := Option.some.inj hk
    exact .of_same hrenamed.toDurable rfl rfl
  · obtain rfl := Option.some.inj hk
    exact .of_same ⟨hrenamed.staged, hrenamed.saved.writeReceipt hs hm hholds (hclean.2 rfl)⟩
      rfl rfl
  · obtain rfl := Option.some.inj hk
    exact .of_same (hrenamed.indexed hs hm hholds).toDurable rfl rfl
  · obtain rfl := Option.some.inj hk
    exact .of_landed hdone.toDurable hs hm hholds (fun _ _ => rfl)
      fun name hne => Function.update_of_ne (hother hne) _ _
  · obtain rfl := Option.some.inj hk
    have haside := @Aside.tearStaging cfg
      (s.landed cfg m (sanitizeTransferId transferId) reply fs) torn (sanitizeTransferId transferId)
    exact .of_landed (haside.durable hs hdone.toDurable (hdone.staged.tear torn _)) hs hm
      (hholds.of_same (hs.whole hm) (haside.same _))
      (fun name hne => Function.update_of_ne (hother hne) _ _)
      fun name hne => Function.update_of_ne (hother hne) _ _
  · obtain rfl := Option.some.inj hk
    have haside := @Aside.clearStaging cfg
      (s.landed cfg m (sanitizeTransferId transferId) reply fs) (sanitizeTransferId transferId)
    exact .of_landed (haside.durable hs hdone.toDurable (hdone.staged.clear _)) hs hm
      (hholds.of_same (hs.whole hm) (haside.same _))
      (fun name hne => Function.update_of_ne (hother hne) _ _)
      fun name hne => Function.update_of_ne (hother hne) _ _
  · cases hk

end

theorem clearLanded_fs (s : Sink) (m : TransferBegin) :
    (s.clearLanded cfg (Sink.landedName m)).fs = s.fs.prune (inboxDir cfg.inboxRoot m.taskId) := by
  rw [inboxDir_eq]
  rfl

/-- The manifest that an `end` works on. -/
theorem staged_content (hst : Staged contents s)
    (h : s.staging (sanitizeTransferId transferId) = some (some m)) :
    m ∈ contents ∧ stagedName m = sanitizeTransferId transferId :=
  ⟨(hst _ m h).2, (hst _ m h).1⟩

theorem end_last {c : Called (Except Text TransferEndReply)} (hg : Good cfg contents s)
    (hs : Started cfg contents) (h : s.endTransfer cfg torn transferId = some c) :
    Good cfg contents (c.last s) ∧ Moves cfg contents needed s (c.last s) ∧
      ∀ r, c.reply = .ok r →
        (c.last s = s ∧ s.staging (sanitizeTransferId transferId) = none ∧
          s.finished (sanitizeTransferId transferId) = some r) ∨
        ∃ m ∈ contents, stagedName m = sanitizeTransferId transferId ∧
          Holds cfg (c.last s).fs m := by
  obtain ⟨hw, hr⟩ | ⟨m, mid, hstaged, hassembled, hrest⟩ := end_cases h
  · rw [Called.last, hw]
    exact ⟨hg, .of_same hg.toDurable rfl rfl, fun r hok => .inl ⟨rfl, hr r hok⟩⟩
  obtain ⟨hm, hname⟩ := staged_content hg.staged hstaged
  have hmid := hg.assembled hs hassembled
  obtain ⟨hw, hr⟩ | ⟨hw, hr⟩ | ⟨fs, reply, hfree, hmove, hw⟩ := hrest
  · rw [Called.last, hw]
    exact ⟨hmid, .of_same hmid.toDurable rfl rfl, fun r hok => absurd hok (hr r)⟩
  · have hcleared := hmid.cleared hs (Sink.landedName m)
    rw [Called.last, hw]
    exact ⟨hcleared, .of_same hcleared.toDurable rfl rfl, fun r hok => absurd hok (hr r)⟩
  · have hholds := holds_of_endTransfer (hs.whole hm) ((assembleOut_ok hassembled).2 fs hfree hmove)
    rw [← clearLanded_fs { s with fs := mid }] at hmove
    have hlanded := landed_good hmid hs hm hholds hmove (sanitizeTransferId transferId) reply
    have haside := @Aside.clearStaging cfg
      ({ s with fs := mid }.landed cfg m (sanitizeTransferId transferId) reply fs)
      (sanitizeTransferId transferId)
    have hlast : (landings cfg torn transferId m reply { s with fs := mid } fs)[8]? =
        some (c.last s) := by
      rw [Called.last, hw]
      rfl
    have hmoves : Moves cfg contents needed { s with fs := mid } (c.last s) :=
      landings_moves hmid hs hm hholds hmove hname hlast
        ⟨fun h => absurd h (by decide), fun h => absurd h (by decide)⟩
    rw [Called.last, hw] at hmoves ⊢
    exact ⟨haside.good hs hlanded (hlanded.staged.clear _),
      ⟨hmoves.durable, hmoves.grounded, hmoves.finished⟩,
      fun _ _ => .inr ⟨m, hm, hname, hholds.of_same (hs.whole hm) (haside.same _)⟩⟩

theorem end_crash {c : Called (Except Text TransferEndReply)} (hg : Good cfg contents s)
    (hs : Started cfg contents) (h : s.endTransfer cfg torn transferId = some c)
    (hk : (c.states s)[k]? = some s')
    (hclean : ∀ m, s.manifest transferId = some m → CleanLanding torn m s k) :
    Moves cfg contents needed s s' := by
  rw [Called.states] at hk
  obtain ⟨hw, -⟩ | ⟨m, mid, hstaged, hassembled, hrest⟩ := end_cases h
  · rw [hw] at hk
    obtain _ | k := k
    · obtain rfl := Option.some.inj hk
      exact .of_same hg.toDurable rfl rfl
    · cases hk
  obtain ⟨hm, hname⟩ := staged_content hg.staged hstaged
  have hmid := hg.assembled hs hassembled
  have hclean := hclean m (by rw [Sink.manifest, hstaged]; rfl)
  obtain _ | k := k
  · obtain rfl := Option.some.inj hk
    exact .of_same hg.toDurable rfl rfl
  obtain ⟨hw, -⟩ | ⟨hw, -⟩ | ⟨fs, reply, hfree, hmove, hw⟩ := hrest
  · rw [hw] at hk
    obtain _ | k := k
    · obtain rfl := Option.some.inj hk
      exact .of_same hmid.toDurable rfl rfl
    · cases hk
  · rw [hw] at hk
    obtain _ | _ | _ | k := k
    · obtain rfl := Option.some.inj hk
      exact .of_same hmid.toDurable rfl rfl
    · obtain rfl := Option.some.inj hk
      exact .of_same ⟨hmid.staged, hmid.saved.tearLanded hs hm (hclean.1 rfl)⟩ rfl rfl
    · obtain rfl := Option.some.inj hk
      exact .of_same (hmid.cleared hs _).toDurable rfl rfl
    · cases hk
  · have hholds := holds_of_endTransfer (hs.whole hm) ((assembleOut_ok hassembled).2 fs hfree hmove)
    rw [← clearLanded_fs { s with fs := mid }] at hmove
    rw [hw] at hk
    have hmoves : Moves cfg contents needed { s with fs := mid } s' :=
      landings_moves hmid hs hm hholds hmove hname hk ⟨hclean.1, hclean.2⟩
    exact ⟨hmoves.durable, hmoves.grounded, hmoves.finished⟩

/-! The sweeps. -/

theorem sweepStaging_aside (names : List Text) (hst : Staged contents s) :
    Aside cfg s (s.sweepStaging cfg names) ∧ Staged contents (s.sweepStaging cfg names) ∧
      ∀ name, name ∉ names → s.staging name ≠ none →
        (s.sweepStaging cfg names).staging name ≠ none := by
  induction names generalizing s with
  | nil => exact ⟨.refl s, hst, fun _ _ h => h⟩
  | cons first names ih =>
    obtain ⟨haside, hrest, hkept⟩ := @ih (s.clearStaging cfg first) (hst.clear first)
    refine ⟨(Aside.clearStaging s first).trans haside, hrest, fun name hname h => ?_⟩
    obtain ⟨hne, hname⟩ := List.ne_and_not_mem_of_not_mem_cons hname
    exact hkept name hname (clearStaging_ne_none hne h)

theorem sweepStaging_moves {names : List Text} (hg : Good cfg contents s)
    (hs : Started cfg contents)
    (hclean : ∀ name ∈ names, ¬ (s.finished name ≠ none ∧ needed name)) :
    Good cfg contents (s.sweepStaging cfg names) ∧
      Moves cfg contents needed s (s.sweepStaging cfg names) := by
  obtain ⟨haside, hst, hkept⟩ := @sweepStaging_aside cfg contents s names hg.staged
  exact ⟨haside.good hs hg hst, haside.moves hs hg.toDurable hst fun m _ hneeded hf h =>
    hkept _ (fun hname => hclean _ hname ⟨hf, hneeded⟩) h⟩

theorem crashSweep_moves {names : List Text} (name : Text) (hg : Good cfg contents s)
    (hs : Started cfg contents)
    (hclean : ∀ name ∈ names, ¬ (s.finished name ≠ none ∧ needed name)) :
    Moves cfg contents needed s ((s.sweepStaging cfg names).tearStaging cfg torn name) := by
  obtain ⟨haside, hst, hkept⟩ := @sweepStaging_aside cfg contents s names hg.staged
  exact (haside.trans (.tearStaging _ torn name)).moves hs hg.toDurable (hst.tear torn name)
    fun m _ hneeded hf h => tearStaging_ne_none (hkept _ (fun hname => hclean _ hname ⟨hf, hneeded⟩) h)

/-- Whole directories of the inbox go. -/
theorem clearAll_good (names : List Text) (hg : Good cfg contents s) (hs : Started cfg contents) :
    let cleared := names.foldl (fun s name => s.clearLanded cfg name) s
    Good cfg contents cleared ∧ cleared.staging = s.staging ∧ cleared.finished = s.finished ∧
      cleared.index = s.index ∧ cleared.saved = s.saved := by
  induction names generalizing s with
  | nil => exact ⟨hg, rfl, rfl, rfl, rfl⟩
  | cons first names ih => exact ih (hg.cleared hs first)

theorem sweepLanded_moves (names : List Text) (hg : Good cfg contents s)
    (hs : Started cfg contents) : Good cfg contents (s.sweepLanded cfg names) ∧
      Moves cfg contents needed s (s.sweepLanded cfg names) := by
  simp only [Sink.sweepLanded]
  generalize names.filter _ = swept
  obtain ⟨hgood, hstaging, hfinished, hindex, -⟩ := clearAll_good swept hg hs
  split
  · exact ⟨hgood, .of_same hgood.toDurable hstaging hfinished⟩
  · have hkept := (hindex ▸ hgood.index).forget fun t => safeTaskFileName t ∈ swept
    exact ⟨⟨⟨hgood.staged, hkept.known, hkept.sound⟩, hkept.known, hkept.sound⟩,
      .of_same ⟨hgood.staged, hkept.known, hkept.sound⟩ hstaging hfinished⟩

theorem crashSweepLanded_moves {names : List Text} {name : Text} (hg : Good cfg contents s)
    (hs : Started cfg contents) (hclean : torn.jsonLost = true ∨ torn.lost = [] ∨
      ∀ t, safeTaskFileName t = name → s.saved t = none) :
    Moves cfg contents needed s
      ((names.foldl (fun s n => s.clearLanded cfg n) s).tearLanded cfg torn name) := by
  obtain ⟨hgood, hstaging, hfinished, -, hsaved⟩ := clearAll_good names hg hs
  exact .of_same ⟨hgood.staged, hgood.saved.tear hs (hsaved.symm ▸ hclean)⟩ hstaging hfinished

theorem sweepDone_moves (names : List Text) (hg : Good cfg contents s) :
    Good cfg contents (s.sweepDone names) ∧ Moves cfg contents needed s (s.sweepDone names) := by
  have hgood : Good cfg contents (s.sweepDone names) :=
    ⟨⟨hg.staged, hg.saved.known, hg.saved.sound⟩, hg.index.known, hg.index.sound⟩
  refine ⟨hgood, hgood.toDurable, fun m _ _ hground => .inl (hground.imp id fun hnone => ?_),
    fun name r hr => .inl ?_⟩
  · simp only [Sink.sweepDone]
    split
    · rfl
    · exact hnone
  · simp only [Sink.sweepDone] at hr
    split at hr
    · cases hr
    · exact hr

end NemesisBot.Transfer

import NemesisBot.Cluster.ChangesetDiff

/-! A changeset must tell the truth: it deletes what is gone, reports what cannot be read and
delivers the rest. -/
namespace NemesisBot.ExecWorkspace
open Strings Transfer

section
variable (sha256Hex : ByteArray → Text)

/-- A tree of files with its manifest. -/
structure Baseline where
  files : List TransferFileEntry
  content : Text → Option ByteArray
  listed : ∀ p, (content p).isSome → ∃ f ∈ files, f.path = p
  accurate : ∀ f ∈ files, ∃ b, content f.path = some b ∧ f = fingerprint sha256Hex f.path b

def Item.failed (i : Item) : Bool := i.fault.any (·.kind.fails)

def Item.excluded (i : Item) : Bool := i.fault.any fun f => !f.kind.fails

/-- Found by the scan, and no longer what the baseline has. -/
def Item.changed (baseline : List TransferFileEntry) (i : Item) : Bool :=
  (i.scanned sha256Hex).any fun f => f.path ≠ BASELINE_SIDECAR_NAME && !isBuildArtifact f.path &&
    !isDebugArtifact f.path && !unchanged baseline f

/-- Where the failure to read a file or directory must be reported. -/
def Item.unreadable (baseline : List TransferFileEntry) (i : Item) : Option Text :=
  if i.failed then i.fault.map (·.path)
  else if i.changed sha256Hex baseline && i.body.any (!·.2) then some i.path
  else none

/-- The scan cannot know what is at the path. -/
def WorkingCopy.Hidden (w : WorkingCopy) (p : Text) : Prop :=
  (∃ i ∈ w.items, i.path = p ∧ i.body.isSome ∧ i.failed) ∨
  w.content p = none ∧ (w.lists = false ∨
    ∃ d ∈ w.items, d.body = none ∧ d.failed ∧ d.path ++ ['/'] <+: p)

def WorkingCopy.Unreadable (w : WorkingCopy) (baseline : List TransferFileEntry) (p : Text) :
    Prop :=
  w.Hidden p ∨ ∃ i ∈ w.items, i.path = p ∧ i.changed sha256Hex baseline ∧ i.body.any (!·.2)

/-- The documented exclusions. -/
def WorkingCopy.Excluded (w : WorkingCopy) (p : Text) : Prop :=
  isDebugArtifact p ∨ isBuildArtifact p ∨ p = BASELINE_SIDECAR_NAME ∨
    ∃ i ∈ w.items, i.path = p ∧ i.excluded

structure Truthful (w : WorkingCopy) (base : Baseline sha256Hex) (cs : Changeset) : Prop where
  deletes : ∀ p ∈ cs.deletions, (∃ b ∈ base.files, b.path = p) ∧ isDebugArtifact p = false ∧
    isBuildArtifact p = false ∧ w.content p = none
  reports : ∀ i ∈ w.items, ∀ a, i.unreadable sha256Hex base.files = some a →
    .listing a ∈ cs.skipped ∨ .reading a ∈ cs.skipped
  delivers : ∀ p, ¬ w.Unreadable sha256Hex base.files p → ¬ w.Excluded p →
    applied base.content cs p = w.content p
  keeps : ∀ p, w.Unreadable sha256Hex base.files p →
    applied base.content cs p = base.content p

/-- The trees and baselines that the scan gets right. -/
structure Scannable (w : WorkingCopy) (base : Baseline sha256Hex) : Prop where
  surveyed : ∀ b ∈ base.files, isDebugArtifact b.path = false → isBuildArtifact b.path = false →
    ¬ w.Hidden b.path
  admitted : ∀ b ∈ base.files, isDebugArtifact b.path = false → isBuildArtifact b.path = false →
    w.content b.path ≠ none → ¬ w.Excluded b.path
  seen : ∀ i ∈ w.items, ∀ f, i.fault = some f → f.kind ≠ .entry ∧ f.kind ≠ .stat
  spelled : ∀ i ∈ w.items, i.changed sha256Hex base.files → w.read (trim i.path) = w.read i.path

variable {sha256Hex}

theorem changed_scanned {w : WorkingCopy} {baseline : List TransferFileEntry} {i : Item}
    (hi : i ∈ w.items) (h : i.changed sha256Hex baseline) :
    i.fault = none ∧ ∃ b, i.body = some b ∧
      fingerprint sha256Hex i.path b.1 ∈ current sha256Hex w ∧
      unchanged baseline (fingerprint sha256Hex i.path b.1) = false := by
  unfold Item.changed at h
  cases hs : i.scanned sha256Hex with
  | none => simp [hs] at h
  | some f =>
    obtain ⟨hpath, hfault, b, hb, rfl⟩ := scanned_path sha256Hex hs
    simp only [hs, Option.any_some, Bool.and_eq_true, decide_eq_true_eq, Bool.not_eq_true'] at h
    obtain ⟨⟨⟨hside, hbuild⟩, -⟩, hchanged⟩ := h
    exact ⟨hfault, b, hb, (mem_current sha256Hex).mpr ⟨⟨i, hi, hs⟩, hside, hbuild⟩, hchanged⟩

theorem contentOf_path {w : WorkingCopy} {baseline : List TransferFileEntry}
    {f : TransferFileEntry} {c : ChangesetContent} (h : contentOf w baseline f = some c) :
    c.path = f.path := by
  unfold contentOf at h
  split at h
  · cases h
  · obtain ⟨data, -, rfl⟩ := Option.map_eq_some_iff.mp h
    rfl

theorem current_unique {w : WorkingCopy} {f g : TransferFileEntry}
    (hf : f ∈ current sha256Hex w) (hg : g ∈ current sha256Hex w) (h : f.path = g.path) :
    f = g := by
  obtain ⟨⟨i, hi, hfi⟩, -⟩ := (mem_current sha256Hex).mp hf
  obtain ⟨⟨j, hj, hgj⟩, -⟩ := (mem_current sha256Hex).mp hg
  have hij : i = j := WorkingCopy.item_unique hi hj
    ((scanned_path sha256Hex hfi).1.symm.trans (h.trans (scanned_path sha256Hex hgj).1))
  subst hij
  exact Option.some.inj (hfi.symm.trans hgj)

/-- A path that the scan has not found is not in the changeset. -/
theorem applied_missing {w : WorkingCopy} {baseline : List TransferFileEntry} {p : Text}
    (base : Text → Option ByteArray) (h : ∀ f ∈ current sha256Hex w, f.path ≠ p) :
    applied base (changeset sha256Hex w baseline) p =
      if p ∈ deletedPaths sha256Hex w baseline then none else base p := by
  have hnone : (changeset sha256Hex w baseline).contents.find? (·.path = p) = none := by
    apply List.find?_eq_none.mpr
    intro c hc hp
    obtain ⟨f, hf, hcf⟩ := List.mem_filterMap.mp hc
    exact h f hf ((contentOf_path hcf).symm.trans (of_decide_eq_true hp))
  rw [applied, hnone]
  rfl

/-- A path that the scan has found is never deleted. -/
theorem applied_current {w : WorkingCopy} {baseline : List TransferFileEntry}
    {f : TransferFileEntry} (base : Text → Option ByteArray) (hf : f ∈ current sha256Hex w) :
    applied base (changeset sha256Hex w baseline) f.path =
      if unchanged baseline f then base f.path else (w.read (trim f.path)).or (base f.path) := by
  have hfind : (changeset sha256Hex w baseline).contents.find? (·.path = f.path) =
      contentOf w baseline f := by
    cases hc : (changeset sha256Hex w baseline).contents.find? (·.path = f.path) with
    | some c =>
      obtain ⟨g, hg, hcg⟩ := List.mem_filterMap.mp (List.mem_of_find?_eq_some hc)
      have hpath := List.find?_some hc
      have hgf : g = f := current_unique hg hf
        ((contentOf_path hcg).symm.trans (of_decide_eq_true hpath))
      rw [← hgf, hcg]
    | none =>
      cases hcf : contentOf w baseline f with
      | none => rfl
      | some c =>
        have hno := List.find?_eq_none.mp hc c (List.mem_filterMap.mpr ⟨f, hf, hcf⟩)
        exact absurd (decide_eq_true (contentOf_path hcf)) hno
  have hkept : f.path ∉ (changeset sha256Hex w baseline).deletions := by
    intro h
    exact ((mem_deletedPaths sha256Hex).mp h).2.2.2 f hf rfl
  rw [applied, hfind, contentOf]
  by_cases hsame : unchanged baseline f = true
  · simp [hsame, hkept]
  · cases w.read (trim f.path) <;> simp [hsame, hkept]

theorem applied_found {w : WorkingCopy} {baseline : List TransferFileEntry} {p : Text}
    {c : ByteArray} (base : Text → Option ByteArray)
    (hf : fingerprint sha256Hex p c ∈ current sha256Hex w) :
    applied base (changeset sha256Hex w baseline) p =
      if unchanged baseline (fingerprint sha256Hex p c) then base p
      else (w.read (trim p)).or (base p) :=
  applied_current base hf

/-! What the scan knows about a path. -/

theorem current_content {w : WorkingCopy} {f : TransferFileEntry}
    (hf : f ∈ current sha256Hex w) :
    ∃ i ∈ w.items, i.path = f.path ∧ i.fault = none ∧ ∃ b, i.body = some b ∧
      w.content f.path = some b.1 ∧ f = fingerprint sha256Hex f.path b.1 := by
  obtain ⟨⟨i, hi, hscan⟩, -⟩ := (mem_current sha256Hex).mp hf
  obtain ⟨hpath, hfault, b, hb, hfp⟩ := scanned_path sha256Hex hscan
  refine ⟨i, hi, hpath.symm, hfault, b, hb, ?_, hpath ▸ hfp⟩
  rw [WorkingCopy.content, hpath, WorkingCopy.at_item hi, hb]
  rfl

theorem hidden_not_current {w : WorkingCopy} {p : Text} (h : w.Hidden p) :
    ∀ f ∈ current sha256Hex w, f.path ≠ p := by
  rintro f hf rfl
  obtain ⟨i, hi, hpath, hfault, b, -, hcontent, -⟩ := current_content hf
  rcases h with ⟨j, hj, hjp, -, hfail⟩ | ⟨hnone, -⟩
  · rw [WorkingCopy.item_unique hj hi (hjp.trans hpath.symm)] at hfail
    simp [Item.failed, hfault] at hfail
  · rw [hcontent] at hnone
    cases hnone

theorem excluded_not_current {w : WorkingCopy} {p : Text} (h : w.Excluded p)
    (hdebug : isDebugArtifact p = false) : ∀ f ∈ current sha256Hex w, f.path ≠ p := by
  rintro f hf rfl
  obtain ⟨-, hside, hbuild⟩ := (mem_current sha256Hex).mp hf
  rcases h with h | h | h | ⟨j, hj, hjp, hex⟩
  · simp [hdebug] at h
  · simp [hbuild] at h
  · exact hside h
  · obtain ⟨i, hi, hpath, hfault, -⟩ := current_content hf
    rw [WorkingCopy.item_unique hj hi (hjp.trans hpath.symm)] at hex
    simp [Item.excluded, hfault] at hex

/-- A file that is neither hidden nor excluded is found. -/
theorem found_of_visible {w : WorkingCopy} {p : Text} {c : ByteArray}
    (hc : w.content p = some c) (hh : ¬ w.Hidden p) (hx : ¬ w.Excluded p) :
    fingerprint sha256Hex p c ∈ current sha256Hex w := by
  obtain ⟨b, hb, rfl⟩ := Option.map_eq_some_iff.mp hc
  obtain ⟨i, hi, rfl, hbody⟩ := WorkingCopy.item_of_at hb
  have hfault : i.fault = none := by
    cases hf : i.fault with
    | none => rfl
    | some f =>
      exfalso
      cases hk : f.kind.fails with
      | true => exact hh (.inl ⟨i, hi, rfl, by simp [hbody], by simp [Item.failed, hf, hk]⟩)
      | false =>
        exact hx (.inr (.inr (.inr ⟨i, hi, rfl, by simp [Item.excluded, hf, hk]⟩)))
  have hside : i.path ≠ BASELINE_SIDECAR_NAME := fun h => hx (.inr (.inr (.inl h)))
  have hbuild : isBuildArtifact i.path = false := by
    cases h : isBuildArtifact i.path with
    | false => rfl
    | true => exact absurd (.inr (.inl h)) hx
  refine (mem_current sha256Hex).mpr ⟨⟨i, hi, ?_⟩, hside, hbuild⟩
  simp [Item.scanned, hfault, hbody]

theorem baselineGet_exact {base : Baseline sha256Hex} {p : Text} {b : TransferFileEntry}
    (h : baselineGet base.files p = some b) :
    ∃ a, base.content p = some a ∧ b = fingerprint sha256Hex p a := by
  unfold baselineGet at h
  have hp : b.path = p := by simpa using List.find?_some h
  have hb := List.mem_of_find?_eq_some h
  rw [List.mem_reverse, List.mem_filter] at hb
  exact hp ▸ base.accurate b hb.1

theorem base_of_unchanged {base : Baseline sha256Hex} {p : Text} {c : ByteArray}
    (h : unchanged base.files (fingerprint sha256Hex p c) = true) :
    ∃ a, base.content p = some a ∧ sha256Hex a = sha256Hex c ∧ a.size = c.size := by
  obtain ⟨b, hget, hsame⟩ := (Option.any_eq_true _ _).mp h
  obtain ⟨a, ha, rfl⟩ := baselineGet_exact hget
  rw [Bool.and_eq_true, decide_eq_true_eq, decide_eq_true_eq] at hsame
  exact ⟨a, ha, hsame⟩

theorem unchanged_of_base {base : Baseline sha256Hex} {p : Text} {c : ByteArray}
    (h : base.content p = some c) (hdebug : isDebugArtifact p = false)
    (hbuild : isBuildArtifact p = false) :
    unchanged base.files (fingerprint sha256Hex p c) = true := by
  obtain ⟨f, hf, rfl⟩ := base.listed p (by simp [h])
  have hsome : (baselineGet base.files f.path).isSome := by
    rw [baselineGet, List.find?_isSome]
    refine ⟨f, List.mem_reverse.mpr (List.mem_filter.mpr ⟨hf, ?_⟩), decide_eq_true rfl⟩
    simp [hdebug, hbuild]
  obtain ⟨b, hb⟩ := Option.isSome_iff_exists.mp hsome
  obtain ⟨a, ha, rfl⟩ := baselineGet_exact hb
  obtain rfl := Option.some.inj (ha.symm.trans h)
  have hget : baselineGet base.files (fingerprint sha256Hex f.path a).path =
      some (fingerprint sha256Hex f.path a) := hb
  simp [unchanged, hget]

/-! A scannable tree gives a truthful changeset. -/

theorem Scannable.deletes {w : WorkingCopy} {base : Baseline sha256Hex}
    (h : Scannable sha256Hex w base) {p : Text}
    (hp : p ∈ deletedPaths sha256Hex w base.files) :
    (∃ b ∈ base.files, b.path = p) ∧ isDebugArtifact p = false ∧ isBuildArtifact p = false ∧
      w.content p = none := by
  obtain ⟨⟨b, hb, rfl⟩, hdebug, hbuild, hgone⟩ := (mem_deletedPaths sha256Hex).mp hp
  refine ⟨⟨b, hb, rfl⟩, hdebug, hbuild, ?_⟩
  cases hc : w.content b.path with
  | none => rfl
  | some c =>
    have hfound : fingerprint sha256Hex b.path c ∈ current sha256Hex w :=
      found_of_visible hc (h.surveyed b hb hdebug hbuild)
        (h.admitted b hb hdebug hbuild (by simp [hc]))
    have hsame : (fingerprint sha256Hex b.path c).path = b.path := rfl
    exact absurd hsame (hgone _ hfound)

theorem Scannable.reports {w : WorkingCopy} {base : Baseline sha256Hex}
    (h : Scannable sha256Hex w base) {i : Item} {a : Text} (hi : i ∈ w.items)
    (ha : i.unreadable sha256Hex base.files = some a) :
    .listing a ∈ (changeset sha256Hex w base.files).skipped ∨
      .reading a ∈ (changeset sha256Hex w base.files).skipped := by
  unfold Item.unreadable at ha
  split at ha
  case isTrue hfail =>
    obtain ⟨f, hf, rfl⟩ := Option.map_eq_some_iff.mp ha
    have hkind := h.seen i hi f hf
    have hfails : f.kind.fails = true := by simpa [Item.failed, hf] using hfail
    have hreport : f.report = some (.listing f.path) ∨ f.report = some (.reading f.path) := by
      cases hk : f.kind with
      | entry => exact absurd hk hkind.1
      | stat => exact absurd hk hkind.2
      | listing => simp [Fault.report, hk]
      | opening => simp [Fault.report, hk]
      | fence => simp [hk, FaultKind.fails] at hfails
      | pruned => simp [hk, FaultKind.fails] at hfails
    refine hreport.imp ?_ ?_
    · exact fun hs => List.mem_append_left _ (scan_reports sha256Hex hi hf hs)
    · exact fun hs => List.mem_append_left _ (scan_reports sha256Hex hi hf hs)
  case isFalse =>
    split at ha
    case isTrue hch =>
      obtain rfl := Option.some.inj ha
      rw [Bool.and_eq_true] at hch
      obtain ⟨hfault, b, hb, hcur, hchanged⟩ := changed_scanned hi hch.1
      right
      apply List.mem_append_right
      apply List.mem_filterMap.mpr
      refine ⟨_, hcur, ?_⟩
      have hread : w.read (trim i.path) = none := by
        rw [h.spelled i hi hch.1, WorkingCopy.read, WorkingCopy.at_item hi, hb]
        simpa [hb] using hch.2
      rw [skipOf, hchanged]
      simp [fingerprint, hread]
    case isFalse => cases ha

theorem Scannable.keeps {w : WorkingCopy} {base : Baseline sha256Hex}
    (h : Scannable sha256Hex w base) {p : Text} (hp : w.Unreadable sha256Hex base.files p) :
    applied base.content (changeset sha256Hex w base.files) p = base.content p := by
  rcases hp with hp | ⟨i, hi, rfl, hch, hreads⟩
  · rw [applied_missing base.content (hidden_not_current hp), if_neg]
    intro hdel
    obtain ⟨⟨b, hb, rfl⟩, hdebug, hbuild, -⟩ := (mem_deletedPaths sha256Hex).mp hdel
    exact h.surveyed b hb hdebug hbuild hp
  · obtain ⟨-, b, hb, hcur, hchanged⟩ := changed_scanned hi hch
    have hread : w.read i.path = none := by
      rw [WorkingCopy.read, WorkingCopy.at_item hi, hb]
      simpa [hb] using hreads
    rw [applied_found base.content hcur, hchanged, h.spelled i hi hch, hread]
    rfl

theorem changed_of_found {w : WorkingCopy} {baseline : List TransferFileEntry} {i : Item}
    {b : ByteArray × Bool} (hb : i.body = some b)
    (hcur : fingerprint sha256Hex i.path b.1 ∈ current sha256Hex w) (hfault : i.fault = none)
    (hdebug : isDebugArtifact i.path = false)
    (hchanged : unchanged baseline (fingerprint sha256Hex i.path b.1) = false) :
    i.changed sha256Hex baseline = true := by
  obtain ⟨-, hside, hbuild⟩ := (mem_current sha256Hex).mp hcur
  have hside : i.path ≠ BASELINE_SIDECAR_NAME := hside
  have hbuild : isBuildArtifact i.path = false := hbuild
  have hpath : (fingerprint sha256Hex i.path b.1).path = i.path := rfl
  simp [Item.changed, Item.scanned, hfault, hb, hpath, hside, hbuild, hdebug, hchanged]

theorem Scannable.delivers {w : WorkingCopy} {base : Baseline sha256Hex}
    (h : Scannable sha256Hex w base)
    (hcol : ∀ p a b, base.content p = some a → w.content p = some b →
      sha256Hex a = sha256Hex b → a.size = b.size → a = b)
    {p : Text} (hp : ¬ w.Unreadable sha256Hex base.files p) (hx : ¬ w.Excluded p) :
    applied base.content (changeset sha256Hex w base.files) p = w.content p := by
  have hdebug : isDebugArtifact p = false := by
    cases hd : isDebugArtifact p with
    | false => rfl
    | true => exact absurd (.inl hd) hx
  have hbuild : isBuildArtifact p = false := by
    cases hd : isBuildArtifact p with
    | false => rfl
    | true => exact absurd (.inr (.inl hd)) hx
  cases hc : w.content p with
  | none =>
    have hgone : ∀ f ∈ current sha256Hex w, f.path ≠ p := by
      rintro f hf rfl
      obtain ⟨i, -, -, -, b, -, hcontent, -⟩ := current_content hf
      rw [hc] at hcontent
      cases hcontent
    rw [applied_missing base.content hgone]
    split
    case isTrue => rfl
    case isFalse hdel =>
      cases hb : base.content p with
      | none => rfl
      | some a =>
        have hlisted := base.listed p (by simp [hb])
        exact absurd ((mem_deletedPaths sha256Hex).mpr ⟨hlisted, hdebug, hbuild, hgone⟩) hdel
  | some c =>
    have hcur : fingerprint sha256Hex p c ∈ current sha256Hex w :=
      found_of_visible hc (fun hh => hp (.inl hh)) hx
    rw [applied_found base.content hcur]
    cases hsame : unchanged base.files (fingerprint sha256Hex p c) with
    | true =>
      obtain ⟨a, ha, hsha, hsize⟩ := base_of_unchanged hsame
      rw [if_pos rfl, ha, hcol p a c ha hc hsha hsize]
    | false =>
      obtain ⟨i, hi, hpath, hfault, b, hb, hcontent, -⟩ := current_content hcur
      obtain rfl : i.path = p := hpath
      obtain rfl : b.1 = c := Option.some.inj (hcontent.symm.trans hc)
      have hch := changed_of_found hb hcur hfault hdebug hsame
      have hreads : b.2 = true := by
        cases hr : b.2 with
        | true => rfl
        | false => exact absurd (.inr ⟨i, hi, rfl, hch, by simp [hb, hr]⟩) hp
      rw [if_neg Bool.false_ne_true, h.spelled i hi hch, WorkingCopy.read, WorkingCopy.at_item hi,
        hb, Option.bind_some, if_pos hreads, Option.some_or]

/-! A truthful changeset needs a scannable tree. -/

theorem applied_gone {w : WorkingCopy} {base : Baseline sha256Hex} {b : TransferFileEntry}
    (hb : b ∈ base.files) (hdebug : isDebugArtifact b.path = false)
    (hbuild : isBuildArtifact b.path = false)
    (hgone : ∀ f ∈ current sha256Hex w, f.path ≠ b.path) :
    b.path ∈ deletedPaths sha256Hex w base.files ∧
      applied base.content (changeset sha256Hex w base.files) b.path ≠ base.content b.path := by
  have hdel := (mem_deletedPaths sha256Hex).mpr ⟨⟨b, hb, rfl⟩, hdebug, hbuild, hgone⟩
  refine ⟨hdel, ?_⟩
  obtain ⟨a, ha, -⟩ := base.accurate b hb
  rw [applied_missing base.content hgone, if_pos hdel, ha]
  simp

theorem Truthful.surveyed {w : WorkingCopy} {base : Baseline sha256Hex}
    (h : Truthful sha256Hex w base (changeset sha256Hex w base.files)) {b : TransferFileEntry}
    (hb : b ∈ base.files) (hdebug : isDebugArtifact b.path = false)
    (hbuild : isBuildArtifact b.path = false) : ¬ w.Hidden b.path := by
  intro hh
  exact (applied_gone hb hdebug hbuild (hidden_not_current hh)).2 (h.keeps _ (.inl hh))

theorem Truthful.admitted {w : WorkingCopy} {base : Baseline sha256Hex}
    (h : Truthful sha256Hex w base (changeset sha256Hex w base.files)) {b : TransferFileEntry}
    (hb : b ∈ base.files) (hdebug : isDebugArtifact b.path = false)
    (hbuild : isBuildArtifact b.path = false) (hthere : w.content b.path ≠ none) :
    ¬ w.Excluded b.path := by
  intro hx
  have hdel := (applied_gone hb hdebug hbuild (excluded_not_current hx hdebug)).1
  exact hthere (h.deletes b.path hdel).2.2.2

/-- What is reported at an entry is its own fault or its failed second read. -/
theorem reported_at {w : WorkingCopy} {baseline : List TransferFileEntry} {j : Item}
    (hl : w.lists = true) (hj : j ∈ w.items)
    (h : .listing j.path ∈ (changeset sha256Hex w baseline).skipped ∨
      .reading j.path ∈ (changeset sha256Hex w baseline).skipped) :
    (∃ f, j.fault = some f ∧ f.report ≠ none) ∨
      (j.fault = none ∧ w.read (trim j.path) = none) := by
  have hs : ∃ s ∈ (changeset sha256Hex w baseline).skipped,
      s = .listing j.path ∨ s = .reading j.path := by
    rcases h with h | h
    · exact ⟨_, h, .inl rfl⟩
    · exact ⟨_, h, .inr rfl⟩
  obtain ⟨s, hs, hpath⟩ := hs
  rcases List.mem_append.mp hs with hs | hs
  · left
    rcases scan_skipped sha256Hex hl hs with ⟨p, rfl⟩ | ⟨k, hk, f, hf, hfp, hrep⟩
    · rcases hpath with hpath | hpath <;> cases hpath
    · have hfj : f.path = j.path := by
        unfold Fault.report at hrep
        split at hrep <;> cases hrep <;> simpa using hpath
      rw [WorkingCopy.item_unique hk hj (hfp.symm.trans hfj)] at hf
      exact ⟨f, hf, by simp [hrep]⟩
  · right
    obtain ⟨g, hg, hskip⟩ := List.mem_filterMap.mp hs
    obtain ⟨k, hk, hkp, hkf, -⟩ := current_content hg
    unfold skipOf at hskip
    split at hskip
    · cases hskip
    split at hskip
    case isTrue hread =>
      obtain rfl := Option.some.inj hskip
      have hgj : g.path = j.path := by simpa using hpath
      rw [WorkingCopy.item_unique hk hj (hkp.trans hgj)] at hkf
      exact ⟨hkf, hgj ▸ hread⟩
    case isFalse => cases hskip

theorem Truthful.seen {w : WorkingCopy} {base : Baseline sha256Hex}
    (h : Truthful sha256Hex w base (changeset sha256Hex w base.files)) {i : Item} {f : Fault}
    (hi : i ∈ w.items) (hf : i.fault = some f) : f.kind ≠ .entry ∧ f.kind ≠ .stat := by
  by_contra hkind
  have hsilent : f.kind ≠ .listing ∧ f.report = none ∧ f.kind.fails = true := by
    unfold Fault.report
    cases hk : f.kind <;> simp [hk, FaultKind.fails] at hkind ⊢
  obtain ⟨hnl, hnone, hfails⟩ := hsilent
  obtain ⟨hl, j, hj, hjp, hjf⟩ := fault_source hi hf hnl
  have hunread : i.unreadable sha256Hex base.files = some j.path := by
    simp [Item.unreadable, Item.failed, hf, hfails, hjp]
  rcases reported_at hl hj (h.reports i hi j.path hunread) with ⟨g, hg, hrep⟩ | ⟨hg, -⟩
  · obtain rfl := Option.some.inj (hjf.symm.trans hg)
    exact hrep hnone
  · rw [hjf] at hg
    cases hg

theorem lists_of_found {w : WorkingCopy} {i : Item} (hi : i ∈ w.items) (hf : i.fault = none) :
    w.lists = true := by
  cases hl : w.lists with
  | true => rfl
  | false =>
    rw [WorkingCopy.items, hl] at hi
    rw [census_above hi] at hf
    cases hf

theorem visible_of_changed {w : WorkingCopy} {baseline : List TransferFileEntry} {i : Item}
    {b : ByteArray × Bool} (hi : i ∈ w.items) (hb : i.body = some b)
    (hch : i.changed sha256Hex baseline = true) (hreads : b.2 = true) :
    ¬ w.Unreadable sha256Hex baseline i.path ∧ ¬ w.Excluded i.path := by
  obtain ⟨hfault, -⟩ := changed_scanned hi hch
  have hcontent : w.content i.path = some b.1 := by
    rw [WorkingCopy.content, WorkingCopy.at_item hi, hb]
    rfl
  constructor
  · rintro ((⟨j, hj, hjp, -, hfail⟩ | ⟨hnone, -⟩) | ⟨j, hj, hjp, -, hno⟩)
    · rw [WorkingCopy.item_unique hj hi hjp] at hfail
      simp [Item.failed, hfault] at hfail
    · rw [hcontent] at hnone
      cases hnone
    · rw [WorkingCopy.item_unique hj hi hjp, hb] at hno
      simp [hreads] at hno
  · unfold Item.changed at hch
    cases hs : i.scanned sha256Hex with
    | none => simp [hs] at hch
    | some f =>
      rw [hs, Option.any_some, (scanned_path sha256Hex hs).1] at hch
      rintro (h | h | h | ⟨j, hj, hjp, hex⟩)
      · simp [h] at hch
      · simp [h] at hch
      · simp [h] at hch
      · rw [WorkingCopy.item_unique hj hi hjp] at hex
        simp [Item.excluded, hfault] at hex

theorem Truthful.spelled {w : WorkingCopy} {base : Baseline sha256Hex}
    (h : Truthful sha256Hex w base (changeset sha256Hex w base.files)) {i : Item}
    (hi : i ∈ w.items) (hch : i.changed sha256Hex base.files = true) :
    w.read (trim i.path) = w.read i.path := by
  obtain ⟨hfault, b, hb, hcur, hchanged⟩ := changed_scanned hi hch
  have happ : applied base.content (changeset sha256Hex w base.files) i.path = _ :=
    applied_found base.content hcur
  rw [hchanged, if_neg Bool.false_ne_true] at happ
  have hcontent : w.content i.path = some b.1 := by
    rw [WorkingCopy.content, WorkingCopy.at_item hi, hb]
    rfl
  rw [WorkingCopy.read.eq_def w i.path, WorkingCopy.at_item hi, hb, Option.bind_some]
  cases hreads : b.2 with
  | true =>
    rw [if_pos rfl]
    obtain ⟨hread, hx⟩ := visible_of_changed hi hb hch hreads
    rw [h.delivers i.path hread hx, hcontent] at happ
    cases htrim : w.read (trim i.path) with
    | some d => simpa [htrim] using happ.symm
    | none =>
      rw [htrim, Option.none_or] at happ
      obtain ⟨-, hdebug, hbuild⟩ : i.path ≠ BASELINE_SIDECAR_NAME ∧
          isDebugArtifact i.path = false ∧ isBuildArtifact i.path = false := by
        refine ⟨fun hs => hx (.inr (.inr (.inl hs))), ?_, ?_⟩
        · exact Bool.eq_false_iff.mpr fun hd => hx (.inl hd)
        · exact Bool.eq_false_iff.mpr fun hd => hx (.inr (.inl hd))
      rw [unchanged_of_base happ.symm hdebug hbuild] at hchanged
      cases hchanged
  | false =>
    rw [if_neg Bool.false_ne_true]
    have hunread : i.unreadable sha256Hex base.files = some i.path := by
      simp [Item.unreadable, Item.failed, hfault, hch, hb, hreads]
    rcases reported_at (lists_of_found hi hfault) hi (h.reports i hi i.path hunread) with
      ⟨f, hf, -⟩ | ⟨-, hnone⟩
    · rw [hfault] at hf
      cases hf
    · exact hnone

/-- Exactly the scannable trees give a truthful changeset. -/
theorem changeset_truthful_iff (w : WorkingCopy) (base : Baseline sha256Hex)
    (hcol : ∀ p a b, base.content p = some a → w.content p = some b →
      sha256Hex a = sha256Hex b → a.size = b.size → a = b) :
    (∃ cs, diffTree sha256Hex w base.files = .ok cs ∧ Truthful sha256Hex w base cs) ↔
      Scannable sha256Hex w base := by
  constructor
  · rintro ⟨cs, hcs, h⟩
    rw [diffTree_ok] at hcs
    obtain rfl := Except.ok.inj hcs
    exact ⟨fun b hb hd hu => h.surveyed hb hd hu, fun b hb hd hu => h.admitted hb hd hu,
      fun i hi f hf => h.seen hi hf, fun i hi hch => h.spelled hi hch⟩
  · intro h
    refine ⟨_, diffTree_ok sha256Hex w base.files, ?_⟩
    exact ⟨fun p hp => h.deletes hp, fun i hi a ha => h.reports hi ha,
      fun p hp hx => h.delivers hcol hp hx, fun p hp => h.keeps hp⟩

end

/-- Stands for the hash on small inputs: different bytes give different texts. -/
def byteText (b : ByteArray) : Text := b.data.toList.map fun c => Char.ofNat c.toNat

def entryOf (name : Text) : DirEntry := ⟨name, true, true, true⟩

/-- A directory that cannot be listed, and a changed file beside it. -/
def lockedDir : WorkingCopy where
  lists := true
  entries := .dir (entryOf ['d']) false
    (.file (entryOf ['x']) ⟨#[7]⟩ true true .nil)
    (.file (entryOf ['a']) ⟨#[2]⟩ true true .nil)
  unique := by decide

def oneFile : Baseline byteText where
  files := [fingerprint byteText ['a'] ⟨#[1]⟩]
  content p := if p = ['a'] then some ⟨#[1]⟩ else none
  listed p h := by
    by_cases hp : p = ['a']
    · exact ⟨_, List.mem_singleton_self _, hp.symm⟩
    · simp [hp] at h
  accurate f hf := by
    rw [List.mem_singleton.mp hf]
    exact ⟨⟨#[1]⟩, rfl, rfl⟩

theorem locked_dir_scannable : Scannable byteText lockedDir oneFile where
  surveyed b hb _ _ := by
    rw [List.mem_singleton.mp hb]
    unfold WorkingCopy.Hidden
    decide
  admitted b hb _ _ _ := by
    rw [List.mem_singleton.mp hb]
    unfold WorkingCopy.Excluded
    decide
  seen := by
    have h : ∀ i ∈ lockedDir.items, ∀ f ∈ i.fault, f.kind ≠ .entry ∧ f.kind ≠ .stat := by decide
    exact fun i hi f hf => h i hi f hf
  spelled := by decide

theorem locked_dir_truthful :
    ∃ cs, diffTree byteText lockedDir oneFile.files = .ok cs ∧
      Truthful byteText lockedDir oneFile cs := by
  apply (changeset_truthful_iff lockedDir oneFile ?_).mpr locked_dir_scannable
  intro p a b ha hb hsha _
  by_cases hp : p = ['a']
  · subst hp
    obtain rfl := Option.some.inj ha
    have hnow : lockedDir.content ['a'] = some ⟨#[2]⟩ := by decide
    obtain rfl := Option.some.inj (hnow.symm.trans hb)
    exact absurd hsha (by decide)
  · have hno : oneFile.content p = none := if_neg hp
    rw [hno] at ha
    cases ha

/-- The file of the baseline is still there, held open by another process. -/
def lockedFile : WorkingCopy where
  lists := true
  entries := .file (entryOf ['a']) ⟨#[1]⟩ false false .nil
  unique := by decide

/-- The changeset deletes it. -/
theorem locked_file_deleted :
    ∃ cs, diffTree byteText lockedFile oneFile.files = .ok cs ∧ ['a'] ∈ cs.deletions ∧
      lockedFile.content ['a'] = some ⟨#[1]⟩ ∧ ¬ Truthful byteText lockedFile oneFile cs := by
  have hhidden : lockedFile.Hidden ['a'] := by
    unfold WorkingCopy.Hidden
    decide
  have hthere : lockedFile.content ['a'] = some ⟨#[1]⟩ := by decide
  have hdel : ['a'] ∈ (changeset byteText lockedFile oneFile.files).deletions := by
    apply (mem_deletedPaths byteText).mpr
    exact ⟨⟨_, List.mem_singleton_self _, rfl⟩, by decide, by decide, hidden_not_current hhidden⟩
  refine ⟨_, diffTree_ok byteText lockedFile oneFile.files, hdel, hthere, ?_⟩
  intro h
  have hgone := (h.deletes ['a'] hdel).2.2.2
  rw [hthere] at hgone
  cases hgone

end NemesisBot.ExecWorkspace

import NemesisBot.Cluster.ExecWorkspace

/-! What the scan finds of a working copy, and when the changeset tells the truth about it. -/
namespace NemesisBot.ExecWorkspace
open Strings Transfer

/-! The walk against the census. -/
section
variable (sha256Hex : ByteArray → Text)

def Item.scanned (i : Item) : Option TransferFileEntry :=
  if i.fault = none then i.body.map fun b => fingerprint sha256Hex i.path b.1 else none

def Fault.report (f : Fault) : Option Skipped :=
  match f.kind with
  | .listing => some (.listing f.path)
  | .opening => some (.reading f.path)
  | _ => none

theorem census_above {dir : Text} {f : Fault} {es : Entries} {i : Item}
    (h : i ∈ census dir (some f) es) : i.fault = some f := by
  induction es generalizing dir with
  | nil => cases h
  | file e content opens reads rest ih =>
    rcases List.mem_append.mp h with h | h
    · split at h
      · rw [List.mem_singleton.mp h, Option.some_or]
      · cases h
    · exact ih h
  | dir e lists children rest ihc ih =>
    rcases List.mem_append.mp h with h | h
    · split at h
      · rw [Option.some_or] at h
        rcases List.mem_cons.mp h with rfl | h
        · rfl
        · exact ihc h
      · cases h
    · exact ih h
  | other e rest ih => exact ih h

theorem filterMap_scanned_faulty {l : List Item} {f : Fault} (h : ∀ i ∈ l, i.fault = some f) :
    l.filterMap (Item.scanned sha256Hex) = [] := by
  apply List.filterMap_eq_nil_iff.mpr
  intro i hi
  simp [Item.scanned, h i hi]

theorem visit_clear {e : DirEntry} {path : Text} {pruned readable : Bool} {kind : FaultKind}
    (found failed : Found) (hu : e.utf8 = true)
    (h : ownFault e path pruned readable kind = none) :
    visit e path (if pruned then .nothing else if readable then found else failed) = found := by
  unfold ownFault at h
  cases hl : e.listed <;> cases hf : fenced path <;> cases hs : e.stat <;> cases pruned <;>
    cases readable <;> simp_all [visit]

theorem visit_fault {e : DirEntry} {path : Text} {pruned readable : Bool} {kind : FaultKind}
    {f : Fault} {s : Skipped} (found : Found) (hu : e.utf8 = true)
    (hs : Fault.report ⟨path, kind⟩ = some s)
    (h : ownFault e path pruned readable kind = some f) :
    f.path = path ∧ visit e path (if pruned then .nothing else if readable then found
      else ⟨[], [s]⟩) = ⟨[], f.report.toList⟩ := by
  unfold ownFault at h
  split at h
  · obtain rfl := Option.some.inj h
    simp_all [visit, Found.nothing, Fault.report]
  split at h
  · obtain rfl := Option.some.inj h
    simp_all [visit, Found.nothing, Fault.report]
  split at h
  · obtain rfl := Option.some.inj h
    simp_all [visit, Found.nothing, Fault.report]
  split at h
  · obtain rfl := Option.some.inj h
    simp_all [visit, Found.nothing, Fault.report]
  split at h
  · obtain rfl := Option.some.inj h
    simp_all [visit]
  · cases h

/-- An entry that is not UTF-8 is at most reported as such. -/
theorem visit_encoding {e : DirEntry} (path : Text) (found : Found) (hu : e.utf8 = false) :
    (visit e path found).files = [] ∧
      ∀ s ∈ (visit e path found).skipped, s = .encoding path := by
  unfold visit
  rw [hu]
  cases e.listed <;> simp [Found.nothing]

theorem walk_files (dir : Text) (es : Entries) :
    (diffWalk sha256Hex dir es).files =
      (census dir none es).filterMap (Item.scanned sha256Hex) := by
  induction es generalizing dir with
  | nil => rfl
  | file e content opens reads rest ih =>
    rw [diffWalk, census, Found.append, List.filterMap_append, ih, Option.none_or]
    cases hu : e.utf8 with
    | false => simp [(visit_encoding _ _ hu).1]
    | true =>
      cases hf : ownFault e (normalized dir e.name) (isNoiseFile (normalized dir e.name)) opens
        .opening with
      | none => simp [visit_clear _ _ hu hf, Item.scanned]
      | some f => simp [(visit_fault _ hu rfl hf).2, Item.scanned]
  | dir e lists children rest ihc ih =>
    rw [diffWalk, census, Found.append, List.filterMap_append, ih, Option.none_or]
    cases hu : e.utf8 with
    | false => simp [(visit_encoding _ _ hu).1]
    | true =>
      cases hf : ownFault e (normalized dir e.name) (prunedDir (normalized dir e.name)) lists
        .listing with
      | none => simp [visit_clear _ _ hu hf, Item.scanned, ihc]
      | some f =>
        have hbelow : (census (normalized dir e.name) (some f) children).filterMap
            (Item.scanned sha256Hex) = [] :=
          filterMap_scanned_faulty sha256Hex fun i hi => census_above hi
        simp [(visit_fault _ hu rfl hf).2, Item.scanned, hbelow]
  | other e rest ih =>
    rw [diffWalk, census, Found.append, ih]
    unfold visit
    cases e.listed <;> cases e.utf8 <;> cases fenced (normalized dir e.name) <;> cases e.stat <;>
      rfl

/-- Every failed listing and every failed read is reported. -/
theorem walk_reports {dir : Text} {es : Entries} {i : Item} {f : Fault} {s : Skipped}
    (hi : i ∈ census dir none es) (hf : i.fault = some f) (hs : f.report = some s) :
    s ∈ (diffWalk sha256Hex dir es).skipped := by
  induction es generalizing dir with
  | nil => cases hi
  | file e content opens reads rest ih =>
    rw [diffWalk, Found.append]
    rcases List.mem_append.mp hi with hi | hi
    · apply List.mem_append_left
      split at hi
      case isTrue hu =>
        rw [List.mem_singleton.mp hi, Option.none_or] at hf
        rw [(visit_fault _ hu rfl hf).2, hs]
        exact List.mem_singleton_self s
      case isFalse => cases hi
    · exact List.mem_append_right _ (ih hi)
  | dir e lists children rest ihc ih =>
    rw [diffWalk, Found.append]
    rcases List.mem_append.mp hi with hi | hi
    · apply List.mem_append_left
      split at hi
      case isTrue hu =>
        rw [Option.none_or] at hi
        cases hown : ownFault e (normalized dir e.name) (prunedDir (normalized dir e.name)) lists
          .listing with
        | none =>
          rw [hown] at hi
          rw [visit_clear _ _ hu hown]
          rcases List.mem_cons.mp hi with rfl | hi
          · cases hf
          · exact ihc hi
        | some g =>
          rw [hown] at hi
          have hg : i.fault = some g := by
            rcases List.mem_cons.mp hi with rfl | hi
            · rfl
            · exact census_above hi
          obtain rfl := Option.some.inj (hf.symm.trans hg)
          rw [(visit_fault _ hu rfl hown).2, hs]
          exact List.mem_singleton_self s
      case isFalse => cases hi
    · exact List.mem_append_right _ (ih hi)
  | other e rest ih =>
    rw [diffWalk, Found.append]
    exact List.mem_append_right _ (ih hi)

/-- Nothing else is reported but names that are not UTF-8. -/
theorem walk_skipped {dir : Text} {es : Entries} {s : Skipped}
    (hs : s ∈ (diffWalk sha256Hex dir es).skipped) :
    (∃ p, s = .encoding p) ∨ ∃ i ∈ census dir none es, ∃ f,
      i.fault = some f ∧ f.path = i.path ∧ f.report = some s := by
  induction es generalizing dir with
  | nil => cases hs
  | file e content opens reads rest ih =>
    rw [diffWalk, Found.append] at hs
    rw [census]
    rcases List.mem_append.mp hs with hs | hs
    · cases hu : e.utf8 with
      | false => exact .inl ⟨_, (visit_encoding _ _ hu).2 s hs⟩
      | true =>
        cases hown : ownFault e (normalized dir e.name) (isNoiseFile (normalized dir e.name)) opens
          .opening with
        | none =>
          rw [visit_clear _ _ hu hown] at hs
          cases hs
        | some f =>
          obtain ⟨hpath, hvisit⟩ := visit_fault ⟨[fingerprint sha256Hex _ content], []⟩ hu rfl hown
          rw [hvisit] at hs
          right
          refine ⟨_, List.mem_append_left _ List.mem_cons_self, f, rfl, hpath, ?_⟩
          simpa using hs
    · refine (ih hs).imp id ?_
      rintro ⟨i, hi, hrest⟩
      exact ⟨i, List.mem_append_right _ hi, hrest⟩
  | dir e lists children rest ihc ih =>
    rw [diffWalk, Found.append] at hs
    rw [census]
    rcases List.mem_append.mp hs with hs | hs
    · cases hu : e.utf8 with
      | false => exact .inl ⟨_, (visit_encoding _ _ hu).2 s hs⟩
      | true =>
        cases hown : ownFault e (normalized dir e.name) (prunedDir (normalized dir e.name)) lists
          .listing with
        | none =>
          rw [visit_clear _ _ hu hown] at hs
          refine (ihc hs).imp id ?_
          rintro ⟨i, hi, hrest⟩
          exact ⟨i, List.mem_append_left _ (List.mem_cons_of_mem _ hi), hrest⟩
        | some f =>
          obtain ⟨hpath, hvisit⟩ := visit_fault (diffWalk sha256Hex _ children) hu rfl hown
          rw [hvisit] at hs
          right
          refine ⟨_, List.mem_append_left _ List.mem_cons_self, f, rfl, hpath, ?_⟩
          simpa using hs
    · refine (ih hs).imp id ?_
      rintro ⟨i, hi, hrest⟩
      exact ⟨i, List.mem_append_right _ hi, hrest⟩
  | other e rest ih =>
    rw [diffWalk, Found.append] at hs
    rcases List.mem_append.mp hs with hs | hs
    · left
      unfold visit at hs
      split at hs
      · cases hs
      split at hs
      · exact ⟨_, List.mem_singleton.mp hs⟩
      split at hs
      · cases hs
      split at hs <;> cases hs
    · exact ih hs

end

theorem ownFault_path {e : DirEntry} {path : Text} {pruned readable : Bool} {kind : FaultKind}
    {f : Fault} (h : ownFault e path pruned readable kind = some f) : f.path = path := by
  unfold ownFault at h
  repeat' split at h
  all_goals cases h
  all_goals rfl

/-- A fault that did not come from above was met at one of the entries. -/
theorem census_source {dir : Text} {above : Option Fault} {es : Entries} {i : Item} {f : Fault}
    (hi : i ∈ census dir above es) (hf : i.fault = some f) :
    above = some f ∨ ∃ j ∈ census dir above es, j.path = f.path ∧ j.fault = some f := by
  induction es generalizing dir above with
  | nil => cases hi
  | file e content opens reads rest ih =>
    rw [census] at hi ⊢
    rcases List.mem_append.mp hi with hi | hi
    · split at hi
      case isTrue hu =>
        rw [if_pos hu]
        rw [List.mem_singleton.mp hi] at hf
        refine (Option.or_eq_some_iff.mp hf).imp id ?_
        rintro ⟨-, hown⟩
        exact ⟨_, List.mem_append_left _ List.mem_cons_self, (ownFault_path hown).symm, hf⟩
      case isFalse => cases hi
    · refine (ih hi).imp id ?_
      rintro ⟨j, hj, hrest⟩
      exact ⟨j, List.mem_append_right _ hj, hrest⟩
  | dir e lists children rest ihc ih =>
    rw [census] at hi ⊢
    rcases List.mem_append.mp hi with hi | hi
    · split at hi
      case isTrue hu =>
        rw [if_pos hu]
        have hhere : above.or (ownFault e (normalized dir e.name)
            (prunedDir (normalized dir e.name)) lists .listing) = some f ∨
            ∃ j ∈ census (normalized dir e.name) (above.or (ownFault e (normalized dir e.name)
              (prunedDir (normalized dir e.name)) lists .listing)) children,
              j.path = f.path ∧ j.fault = some f := by
          rcases List.mem_cons.mp hi with rfl | hi
          · exact .inl hf
          · exact ihc hi
        rcases hhere with hhere | ⟨j, hj, hrest⟩
        · refine (Option.or_eq_some_iff.mp hhere).imp id ?_
          rintro ⟨-, hown⟩
          exact ⟨_, List.mem_append_left _ List.mem_cons_self, (ownFault_path hown).symm, hhere⟩
        · exact .inr ⟨j, List.mem_append_left _ (List.mem_cons_of_mem _ hj), hrest⟩
      case isFalse => cases hi
    · refine (ih hi).imp id ?_
      rintro ⟨j, hj, hrest⟩
      exact ⟨j, List.mem_append_right _ hj, hrest⟩
  | other e rest ih => exact ih hi

theorem ownFault_fenced {e : DirEntry} {path : Text} {pruned readable : Bool} {kind : FaultKind}
    (h : ownFault e path pruned readable kind = none) : fenced path = false := by
  unfold ownFault at h
  cases hf : fenced path with
  | false => rfl
  | true =>
    rw [hf] at h
    cases hl : e.listed <;> simp [hl] at h

/-- What the scan reaches has passed the fence. -/
theorem census_fenced {dir : Text} {above : Option Fault} {es : Entries} {i : Item}
    (hi : i ∈ census dir above es) (hf : i.fault = none) : fenced i.path = false := by
  induction es generalizing dir above with
  | nil => cases hi
  | file e content opens reads rest ih =>
    rcases List.mem_append.mp hi with hi | hi
    · split at hi
      · rw [List.mem_singleton.mp hi] at hf ⊢
        exact ownFault_fenced (Option.or_eq_none_iff.mp hf).2
      · cases hi
    · exact ih hi
  | dir e lists children rest ihc ih =>
    rcases List.mem_append.mp hi with hi | hi
    · split at hi
      · rcases List.mem_cons.mp hi with rfl | hi
        · exact ownFault_fenced (Option.or_eq_none_iff.mp hf).2
        · exact ihc hi
      · cases hi
    · exact ih hi
  | other e rest ih => exact ih hi

/-! The parts of the changeset, file by file. -/
section
variable (sha256Hex : ByteArray → Text)

def upsertOf (w : WorkingCopy) (baseline : List TransferFileEntry) (f : TransferFileEntry) :
    Option ChangesetUpsert :=
  if unchanged baseline f then none
  else (w.read (trim f.path)).map fun _ => ⟨f.path, f.sha256, f.size, false⟩

def contentOf (w : WorkingCopy) (baseline : List TransferFileEntry) (f : TransferFileEntry) :
    Option ChangesetContent :=
  if unchanged baseline f then none
  else (w.read (trim f.path)).map fun data => ⟨f.path, data, false⟩

def skipOf (w : WorkingCopy) (baseline : List TransferFileEntry) (f : TransferFileEntry) :
    Option Skipped :=
  if unchanged baseline f then none
  else if w.read (trim f.path) = none then some (.reading f.path) else none

theorem diffFiles_eq (w : WorkingCopy) (baseline files : List TransferFileEntry)
    (h : ∀ f ∈ files, fenced f.path = false) :
    diffFiles w baseline files = .ok (files.filterMap (upsertOf w baseline),
      files.filterMap (contentOf w baseline), files.filterMap (skipOf w baseline)) := by
  induction files with
  | nil => rfl
  | cons f rest ih =>
    have hrest := ih fun g hg => h g (List.mem_cons_of_mem f hg)
    rw [diffFiles]
    by_cases hsame : unchanged baseline f = true
    · simp [hsame, hrest, upsertOf, contentOf, skipOf]
    · have hf := h f List.mem_cons_self
      unfold fenced at hf
      cases hpath : safeRelativePath f.path with
      | error e => simp [hpath] at hf
      | ok t =>
        obtain rfl := safeRelativePath_ok hpath
        cases hread : w.read (trim f.path) <;>
          simp [hsame, hrest, hread, upsertOf, contentOf, skipOf]

theorem WorkingCopy.item_unique {w : WorkingCopy} {i j : Item} (hi : i ∈ w.items)
    (hj : j ∈ w.items) (h : i.path = j.path) : i = j :=
  List.inj_on_of_nodup_map w.unique hi hj h

theorem WorkingCopy.at_item {w : WorkingCopy} {i : Item} (hi : i ∈ w.items) :
    w.at i.path = i.body := by
  unfold WorkingCopy.at
  have hsome : (w.items.find? (·.path = i.path)).isSome := by
    rw [List.find?_isSome]
    exact ⟨i, hi, decide_eq_true rfl⟩
  obtain ⟨j, hj⟩ := Option.isSome_iff_exists.mp hsome
  have hpath := List.find?_some hj
  rw [hj, WorkingCopy.item_unique (List.mem_of_find?_eq_some hj) hi (of_decide_eq_true hpath)]
  rfl

theorem WorkingCopy.item_of_at {w : WorkingCopy} {p : Text} {b : ByteArray × Bool}
    (h : w.at p = some b) : ∃ i ∈ w.items, i.path = p ∧ i.body = some b := by
  obtain ⟨i, hi, hb⟩ := Option.bind_eq_some_iff.mp h
  have hpath := List.find?_some hi
  exact ⟨i, List.mem_of_find?_eq_some hi, of_decide_eq_true hpath, hb⟩

theorem scan_files (w : WorkingCopy) :
    (scan sha256Hex w).files = w.items.filterMap (Item.scanned sha256Hex) := by
  unfold scan WorkingCopy.items rootFault
  cases w.lists with
  | true => exact walk_files sha256Hex [] w.entries
  | false => exact (filterMap_scanned_faulty sha256Hex fun i hi => census_above hi).symm

theorem scan_reports {w : WorkingCopy} {i : Item} {f : Fault} {s : Skipped} (hi : i ∈ w.items)
    (hf : i.fault = some f) (hs : f.report = some s) : s ∈ (scan sha256Hex w).skipped := by
  unfold WorkingCopy.items rootFault at hi
  unfold scan
  cases hl : w.lists with
  | true =>
    rw [hl] at hi
    exact walk_reports sha256Hex hi hf hs
  | false =>
    rw [hl] at hi
    obtain rfl := Option.some.inj ((census_above hi).symm.trans hf)
    exact List.mem_singleton.mpr (Option.some.inj hs).symm

theorem scan_skipped {w : WorkingCopy} {s : Skipped} (hl : w.lists = true)
    (hs : s ∈ (scan sha256Hex w).skipped) :
    (∃ p, s = .encoding p) ∨ ∃ i ∈ w.items, ∃ f,
      i.fault = some f ∧ f.path = i.path ∧ f.report = some s := by
  rw [scan, hl] at hs
  unfold WorkingCopy.items rootFault
  rw [hl]
  exact walk_skipped sha256Hex hs

/-- A fault that is no failed listing or read was met at one of the entries. -/
theorem fault_source {w : WorkingCopy} {i : Item} {f : Fault} (hi : i ∈ w.items)
    (hf : i.fault = some f) (hk : f.kind ≠ .listing) :
    w.lists = true ∧ ∃ j ∈ w.items, j.path = f.path ∧ j.fault = some f := by
  unfold WorkingCopy.items at hi ⊢
  cases hl : w.lists with
  | true =>
    rw [hl] at hi
    exact ⟨rfl, (census_source hi hf).resolve_left fun h => by cases h⟩
  | false =>
    rw [hl] at hi
    obtain rfl := Option.some.inj ((census_above hi).symm.trans hf)
    exact absurd rfl hk

theorem mem_current {w : WorkingCopy} {f : TransferFileEntry} :
    f ∈ current sha256Hex w ↔ (∃ i ∈ w.items, i.scanned sha256Hex = some f) ∧
      f.path ≠ BASELINE_SIDECAR_NAME ∧ isBuildArtifact f.path = false := by
  rw [current, List.mem_mergeSort, List.mem_filter, scan_files, List.mem_filterMap]
  simp

theorem scanned_path {i : Item} {f : TransferFileEntry} (h : i.scanned sha256Hex = some f) :
    f.path = i.path ∧ i.fault = none ∧ ∃ b, i.body = some b ∧
      f = fingerprint sha256Hex i.path b.1 := by
  unfold Item.scanned at h
  split at h
  case isTrue hf =>
    obtain ⟨b, hb, rfl⟩ := Option.map_eq_some_iff.mp h
    exact ⟨rfl, hf, b, hb, rfl⟩
  case isFalse => cases h

theorem current_fenced {w : WorkingCopy} {f : TransferFileEntry}
    (h : f ∈ current sha256Hex w) : fenced f.path = false := by
  obtain ⟨⟨i, hi, hscan⟩, -⟩ := (mem_current sha256Hex).mp h
  obtain ⟨hpath, hfault, -⟩ := scanned_path sha256Hex hscan
  rw [hpath]
  exact census_fenced hi hfault

/-- The paths of the baseline that the scan did not find. -/
def deletedPaths (w : WorkingCopy) (baseline : List TransferFileEntry) : List Text :=
  ((baseline.filter fun b => !isDebugArtifact b.path && !isBuildArtifact b.path).filter fun b =>
    !(current sha256Hex w).any (·.path = b.path)).map (·.path)

def changeset (w : WorkingCopy) (baseline : List TransferFileEntry) : Changeset :=
  { upserts := (current sha256Hex w).filterMap (upsertOf w baseline)
    contents := (current sha256Hex w).filterMap (contentOf w baseline)
    deletions := deletedPaths sha256Hex w baseline
    skipped := (scan sha256Hex w).skipped ++ (current sha256Hex w).filterMap (skipOf w baseline) }

/-- The scan never fails: what it finds has passed the fence. -/
theorem diffTree_ok (w : WorkingCopy) (baseline : List TransferFileEntry) :
    diffTree sha256Hex w baseline = .ok (changeset sha256Hex w baseline) := by
  rw [diffTree, diffFiles_eq w baseline _ fun f hf => current_fenced sha256Hex hf]
  rfl

theorem mem_deletedPaths {w : WorkingCopy} {baseline : List TransferFileEntry} {p : Text} :
    p ∈ deletedPaths sha256Hex w baseline ↔ (∃ b ∈ baseline, b.path = p) ∧
      isDebugArtifact p = false ∧ isBuildArtifact p = false ∧
      ∀ f ∈ current sha256Hex w, f.path ≠ p := by
  simp only [deletedPaths, List.mem_map, List.mem_filter, Bool.and_eq_true, Bool.not_eq_true',
    List.any_eq_false, decide_eq_true_eq]
  constructor
  · rintro ⟨b, ⟨⟨hb, hdebug, hbuild⟩, hgone⟩, rfl⟩
    exact ⟨⟨b, hb, rfl⟩, hdebug, hbuild, hgone⟩
  · rintro ⟨⟨b, hb, rfl⟩, hdebug, hbuild, hgone⟩
    exact ⟨b, ⟨⟨hb, hdebug, hbuild⟩, hgone⟩, rfl⟩

end

end NemesisBot.ExecWorkspace

import NemesisBot.Cluster.ContinuationStore

/-! What is consumed stays gone and what is saved stays there, as long as the file and the map
of one id are not pulled apart. -/
namespace NemesisBot.ContinuationStore
open Strings Runs

/-- The operation an event belongs to. -/
def Event.op : Event → Option Nat
  | .called i _ | .saved i _ | .loaded i _ _ | .removed i _ _ | .taking i _ | .took i _
  | .cleaned i _ | .recovered i _ | .listed i _ => some i
  | .restarted => none

/-! Events of other operations. -/
section Log
variable {t : Text} {i j : Nat} {e : Event} {log : List Event} {v : Standing}

theorem savesOpen_later (h : i ∈ savesOpen t log) (he : e.op = some j) (hj : j ≠ i) :
    i ∈ savesOpen t (e :: log) := by
  cases e with
  | called k operation =>
    cases operation with
    | save x =>
      rw [savesOpen]
      split
      · exact List.mem_cons_of_mem k h
      · exact h
    | _ => exact h
  | saved k x =>
    obtain rfl := Option.some.inj he
    exact List.mem_filter.mpr ⟨h, by simpa using hj.symm⟩
  | restarted => cases he
  | _ => exact h

theorem takesOpen_later (h : i ∈ takesOpen t log) (he : e.op = some j) (hj : j ≠ i) :
    i ∈ takesOpen t (e :: log) := by
  cases e with
  | called k operation =>
    cases operation with
    | remove id =>
      rw [takesOpen]
      split
      · exact List.mem_cons_of_mem k h
      · exact h
    | _ => exact h
  | taking k stem =>
    rw [takesOpen]
    split
    · exact List.mem_cons_of_mem k h
    · exact h
  | removed k id result =>
    obtain rfl := Option.some.inj he
    exact List.mem_filter.mpr ⟨h, by simpa using hj.symm⟩
  | took k stem =>
    obtain rfl := Option.some.inj he
    exact List.mem_filter.mpr ⟨h, by simpa using hj.symm⟩
  | restarted => cases he
  | _ => exact h

theorem Stood.now (h : Stood t v i log) : standing t log = some v := by
  cases log with
  | nil => exact h.elim
  | cons e log => exact h.1

theorem Stood.before (h : Stood t v i (e :: log)) (he : ∀ operation, e ≠ .called i operation) :
    Stood t v i log := by
  cases h.2 with
  | inl hcall =>
    obtain ⟨operation, hcall⟩ := hcall
    exact (he operation hcall).elim
  | inr hlater => exact hlater

theorem Stood.earlier (h : Stood t v i (e :: log)) (he : e.op = some j) (hj : j ≠ i) :
    Stood t v i log := by
  refine h.before fun operation hcall => ?_
  rw [hcall] at he
  exact hj (Option.some.inj he).symm

theorem stillGone_eq_some {o : Option Standing} (h : standing.stillGone o = some v) :
    o = some .gone ∧ v = .gone := by
  cases o with
  | none => cases h
  | some w => cases w with
    | holds x => cases h
    | gone => exact ⟨rfl, (Option.some.inj h).symm⟩

/-- A standing is given while no save is under way, and `holds` while nothing is being taken. -/
theorem standing_quiet (h : standing t log = some v) :
    savesOpen t log = [] ∧ ∀ x, v = .holds x → takesOpen t log = [] := by
  induction log generalizing v with
  | nil => cases h
  | cons e log ih =>
    cases e with
    | called k operation =>
      cases operation with
      | save x =>
        rw [standing] at h
        rw [savesOpen]
        split at h
        · cases h
        · rename_i hne
          rw [if_neg hne]
          exact ih h
      | remove id =>
        rw [standing] at h
        rw [takesOpen]
        split at h
        · obtain ⟨hgone, rfl⟩ := stillGone_eq_some h
          exact ⟨(ih hgone).1, fun x hx => by cases hx⟩
        · rename_i hne
          rw [if_neg hne]
          exact ih h
      | _ => exact ih h
    | saved k x =>
      rw [standing] at h
      split at h
      · split at h
        · rename_i hquiet
          exact ⟨hquiet.1, fun _ _ => hquiet.2⟩
        · cases h
      · rw [savesOpen, (ih h).1]
        exact ⟨rfl, (ih h).2⟩
    | removed k id result =>
      rw [standing] at h
      split at h
      · split at h
        · rename_i hquiet
          obtain rfl := Option.some.inj h
          exact ⟨hquiet, fun x hx => by cases hx⟩
        · cases h
      · refine ⟨(ih h).1, fun x hx => ?_⟩
        rw [takesOpen, (ih h).2 x hx]
        rfl
    | taking k stem =>
      rw [standing] at h
      rw [takesOpen]
      split at h
      · obtain ⟨hgone, rfl⟩ := stillGone_eq_some h
        exact ⟨(ih hgone).1, fun x hx => by cases hx⟩
      · rename_i hne
        rw [if_neg hne]
        exact ih h
    | took k stem =>
      rw [standing] at h
      split at h
      · split at h
        · rename_i hquiet
          obtain rfl := Option.some.inj h
          exact ⟨hquiet, fun x hx => by cases hx⟩
        · cases h
      · refine ⟨(ih h).1, fun x hx => ?_⟩
        rw [takesOpen, (ih h).2 x hx]
        rfl
    | restarted => exact ⟨rfl, fun _ _ => rfl⟩
    | _ => exact ih h

theorem standing_of_saving (h : i ∈ savesOpen t log) : standing t log = none := by
  cases hs : standing t log with
  | none => rfl
  | some v =>
    rw [(standing_quiet hs).1] at h
    exact (List.not_mem_nil h).elim

/-- What is being taken is gone, if it has a standing at all. -/
theorem gone_of_taking (h : i ∈ takesOpen t log) (hs : standing t log = some v) : v = .gone := by
  cases v with
  | holds x =>
    rw [(standing_quiet hs).2 x rfl] at h
    exact (List.not_mem_nil h).elim
  | gone => rfl

/-- The end of a removal. -/
theorem standing_removed {taskId : Text} {removed : Bool}
    (h : standing t (.removed i taskId removed :: log) = some v) :
    taskId = t ∧ v = .gone ∨ taskId ≠ t ∧ standing t log = some v := by
  rw [standing] at h
  split at h
  · rename_i hid
    split at h
    · exact .inl ⟨hid, (Option.some.inj h).symm⟩
    · cases h
  · rename_i hid
    exact .inr ⟨hid, h⟩

theorem standing_taking {stem : Text} (h : standing t (.taking i stem :: log) = some v) :
    standing t log = some v := by
  rw [standing] at h
  split at h
  · obtain ⟨hgone, rfl⟩ := stillGone_eq_some h
    exact hgone
  · exact h

theorem standing_took {stem : Text} (hstem : fileStem t = stem)
    (h : standing t (.took i stem :: log) = some v) : v = .gone := by
  rw [standing, if_pos hstem] at h
  split at h
  · exact (Option.some.inj h).symm
  · cases h

end Log

/-! The store. -/

@[simp]
theorem onDisk_put {s t : State} {f : File} (h : t.files = s.files.put f) (stem : Text) :
    t.onDisk stem = if stem = f.stem then some f.snapshot else s.onDisk stem := by
  rw [State.onDisk, h, Table.find_put]
  split
  · rfl
  · rfl

theorem onDisk_delete {s t : State} {gone : Text}
    (h : t.files = s.files.delete (Table.hasKey File.stem gone)) (stem : Text) :
    t.onDisk stem = if stem = gone then none else s.onDisk stem := by
  rw [State.onDisk, h, Table.find_delete_key]
  split
  · rfl
  · rfl

theorem onDisk_eq_some {s : State} {stem : Text} {x : ContinuationSnapshot}
    (h : s.onDisk stem = some x) : ∃ f ∈ s.files.rows, f.stem = stem ∧ f.snapshot = x := by
  obtain ⟨f, hf, hx⟩ := Option.map_eq_some_iff.mp h
  exact ⟨f, Table.mem_of_find hf, Table.key_of_find hf, hx⟩

theorem onDisk_isSome {s : State} {f : File} (h : f ∈ s.files.rows) :
    s.onDisk f.stem ≠ none := by
  rw [State.onDisk, Table.find_of_mem h]
  exact Option.some_ne_none _

theorem inMemory_eq_some {s : State} {key : Text} {x : ContinuationSnapshot}
    (h : s.inMemory key = some x) : ∃ e ∈ s.snapshots.rows, e.key = key ∧ e.snapshot = x := by
  obtain ⟨e, he, hx⟩ := Option.map_eq_some_iff.mp h
  exact ⟨e, Table.mem_of_find he, Table.key_of_find he, hx⟩

def Point.ofLoad : Point → Bool
  | .lookup _ | .probe _ | .recheck _ _ | .seek _ _ | .read _ | .keep _ _ => true
  | _ => false

/-- What a point has to know to go on. -/
def PointOk (names : Set Text) (log : List Event) (i : Nat) : Point → Prop
  | .persist x | .rename x _ | .insert x => x.taskId ∈ names ∧ i ∈ savesOpen x.taskId log
  | .lookup id | .probe id | .recheck id _ | .seek id _ => id ∈ names
  | .read id => id ∈ names ∧ ¬ Stood id .gone i log
  | .keep id x => id ∈ names ∧ x.taskId = id ∧ ∀ v, Stood id v i log → v = .holds x
  | .forget id | .locate id _ | .delete id _ => id ∈ names ∧ i ∈ takesOpen id log
  | .unlink stem _ _ => ∀ t, fileStem t = stem → i ∈ takesOpen t log
  | .adopt stem x _ => x.taskId ∈ names ∧ stem = fileStem x.taskId
  | .listing found taskIds => ∀ t ∈ names, Stood t .gone i log →
      ∀ k ∈ found ++ taskIds, k ≠ t ∧ k ≠ fileStem t
  | _ => True

theorem pointOk_later {names : Set Text} {log : List Event} {i j : Nat} {e : Event} {p : Point}
    (h : PointOk names log i p) (he : e.op = some j) (hj : j ≠ i) :
    PointOk names (e :: log) i p := by
  cases p with
  | persist x => exact ⟨h.1, savesOpen_later h.2 he hj⟩
  | rename x modified => exact ⟨h.1, savesOpen_later h.2 he hj⟩
  | insert x => exact ⟨h.1, savesOpen_later h.2 he hj⟩
  | read id => exact ⟨h.1, fun hs => h.2 (hs.earlier he hj)⟩
  | keep id x => exact ⟨h.1, h.2.1, fun v hs => h.2.2 v (hs.earlier he hj)⟩
  | forget id => exact ⟨h.1, takesOpen_later h.2 he hj⟩
  | locate id removed => exact ⟨h.1, takesOpen_later h.2 he hj⟩
  | delete id removed => exact ⟨h.1, takesOpen_later h.2 he hj⟩
  | unlink stem cutoff walk => exact fun t ht => takesOpen_later (h t ht) he hj
  | listing found taskIds => exact fun t ht hs => h t ht (hs.earlier he hj)
  | _ => exact h

structure Inv (names : Set Text) (s : State) : Prop where
  entries : ∀ e ∈ s.snapshots.rows, e.snapshot.taskId ∈ names ∧
    (e.key = e.snapshot.taskId ∨ e.key = fileStem e.snapshot.taskId)
  files : ∀ f ∈ s.files.rows, f.snapshot.taskId ∈ names ∧ f.stem = fileStem f.snapshot.taskId
  /-- between saves a snapshot in memory has its file, and is what the file holds -/
  agree : ∀ e ∈ s.snapshots.rows, (∀ y, ¬ s.Saving (fileStem e.snapshot.taskId) y) →
    ∃ x, s.onDisk (fileStem e.snapshot.taskId) = some x ∧
      (e.key = e.snapshot.taskId → x = e.snapshot)
  points : ∀ i p, s.ops[i]? = some p → PointOk names s.log i p
  stands : ∀ t ∈ names, ∀ v, standing t s.log = some v → s.onDisk (fileStem t) = v.file
  kept : Kept names s.log

section Facts
variable {names : Set Text} (ha : Apart names) {s : State}
include ha

theorem saving_open (hp : ∀ i p, s.ops[i]? = some p → PointOk names s.log i p) {t : Text}
    {y : ContinuationSnapshot} (ht : t ∈ names) (h : s.Saving (fileStem t) y) :
    ∃ i, i ∈ savesOpen t s.log := by
  obtain ⟨i, hi⟩ := List.mem_iff_getElem?.mp h.1
  have hok := hp i _ hi
  have hy : y.taskId = t := ha.injective hok.1 ht h.2
  exact ⟨i, hy ▸ hok.2⟩

variable (inv : Inv names s)
include inv

theorem no_saving {t : Text} {v : Standing} (ht : t ∈ names) (h : standing t s.log = some v)
    (y : ContinuationSnapshot) : ¬ s.Saving (fileStem t) y := by
  intro hy
  obtain ⟨i, hi⟩ := saving_open ha inv.points ht hy
  rw [standing_of_saving hi] at h
  cases h

/-- An entry under an id is of that id. -/
theorem entry_id {t : Text} (ht : t ∈ names) {e : Entry} (he : e ∈ s.snapshots.rows)
    (hk : e.key = t) : e.snapshot.taskId = t := by
  obtain ⟨hn, hkey⟩ := inv.entries e he
  cases hkey with
  | inl hraw => exact hraw.symm.trans hk
  | inr hstem => exact ha.plain t ht e.snapshot.taskId hn (hstem.symm.trans hk)

theorem memory_stands {t : Text} {v : Standing} {x : ContinuationSnapshot} (ht : t ∈ names)
    (h : standing t s.log = some v) (hx : s.inMemory t = some x) : v = .holds x := by
  obtain ⟨e, he, hk, rfl⟩ := inMemory_eq_some hx
  have hid := entry_id ha inv ht he hk
  obtain ⟨y, hy, hsame⟩ := inv.agree e he (hid ▸ no_saving ha inv ht h)
  rw [hid, inv.stands t ht v h] at hy
  cases v with
  | holds z =>
    have hz : z = y := Option.some.inj hy
    rw [hz, hsame (hk.trans hid.symm)]
  | gone => cases hy

/-- Of what is gone there is no entry. -/
theorem gone_entries {t : Text} (ht : t ∈ names) (h : standing t s.log = some .gone) {e : Entry}
    (he : e ∈ s.snapshots.rows) : e.key ≠ t ∧ e.key ≠ fileStem t := by
  have hne : fileStem e.snapshot.taskId ≠ fileStem t := by
    intro heq
    obtain ⟨x, hx, _⟩ := inv.agree e he (heq ▸ no_saving ha inv ht h)
    rw [heq, inv.stands t ht _ h] at hx
    cases hx
  refine ⟨fun hk => hne (congrArg fileStem (entry_id ha inv ht he hk)), fun hk => ?_⟩
  obtain ⟨hn, hkey⟩ := inv.entries e he
  cases hkey with
  | inl hraw =>
    have hplain := ha.plain e.snapshot.taskId hn t ht (hk.symm.trans hraw)
    exact hne (congrArg fileStem hplain.symm)
  | inr hstem => exact hne (hstem.symm.trans hk)

theorem gone_files {t : Text} (ht : t ∈ names) (h : standing t s.log = some .gone) {f : File}
    (hf : f ∈ s.files.rows) : f.stem ≠ t ∧ f.stem ≠ fileStem t := by
  have hne : f.stem ≠ fileStem t := fun heq =>
    onDisk_isSome hf (heq ▸ inv.stands t ht _ h)
  obtain ⟨hn, hstem⟩ := inv.files f hf
  refine ⟨fun hk => hne ?_, hne⟩
  have hplain := ha.plain t ht f.snapshot.taskId hn (hstem.symm.trans hk)
  rw [hstem, hplain]

end Facts

/-! One step. -/
section Steps
variable {names : Set Text} {s t : State} {i : Nat} {p q : Point}

theorem points_advance (hp : ∀ j p, s.ops[j]? = some p → PointOk names s.log j p)
    (hops : t.ops = s.ops.set i q)
    (hlog : t.log = s.log ∨ ∃ e, e.op = some i ∧ t.log = e :: s.log)
    (hq : PointOk names t.log i q) : ∀ j p, t.ops[j]? = some p → PointOk names t.log j p := by
  intro j p hj
  rw [hops, List.getElem?_set] at hj
  split at hj
  · rename_i hij
    split at hj
    · obtain rfl := Option.some.inj hj
      exact hij ▸ hq
    · cases hj
  · rename_i hij
    obtain hsame | ⟨e, he, hlog⟩ := hlog
    · rw [hsame]
      exact hp j p hj
    · rw [hlog]
      exact pointOk_later (hp j p hj) he hij

theorem saving_advance {stem : Text} {y : ContinuationSnapshot} (hops : t.ops = s.ops.set i q)
    (hi : s.ops[i]? = some p) (hp : p ≠ .insert y) (h : s.Saving stem y) : t.Saving stem y := by
  obtain ⟨j, hj⟩ := List.mem_iff_getElem?.mp h.1
  have hij : i ≠ j := by
    rintro rfl
    exact hp (Option.some.inj (hi.symm.trans hj))
  refine ⟨List.mem_iff_getElem?.mpr ⟨j, ?_⟩, h.2⟩
  rw [hops, List.getElem?_set_ne hij, hj]

/-- Operation `i` goes on to `q`, and says at most what it has found. -/
structure Goes (names : Set Text) (s t : State) (i : Nat) (q : Point) : Prop where
  ops : t.ops = s.ops.set i q
  log : t.log = s.log ∨ ∃ e, e.op = some i ∧ t.log = e :: s.log ∧
    (∀ u, standing u (e :: s.log) = standing u s.log) ∧ Answers names s.log e
  point : PointOk names t.log i q

theorem Goes.points (h : Goes names s t i q) (inv : Inv names s) :
    ∀ j p, t.ops[j]? = some p → PointOk names t.log j p :=
  points_advance inv.points h.ops
    (h.log.imp_right fun ⟨e, he, hlog, _⟩ => ⟨e, he, hlog⟩) h.point

theorem Goes.standing (h : Goes names s t i q) (u : Text) :
    standing u t.log = standing u s.log := by
  obtain hsame | ⟨e, _, hlog, hst, _⟩ := h.log
  · rw [hsame]
  · rw [hlog, hst]

theorem Goes.kept (h : Goes names s t i q) (inv : Inv names s) : Kept names t.log := by
  obtain hsame | ⟨e, _, hlog, _, hans⟩ := h.log
  · rw [hsame]
    exact inv.kept
  · rw [hlog]
    exact ⟨inv.kept, hans⟩

theorem goes_advance (hq : PointOk names s.log i q) (h : t.ops = s.ops.set i q)
    (hlog : t.log = s.log) : Goes names s t i q := ⟨h, .inl hlog, hlog ▸ hq⟩

theorem goes_finish {e : Event} (he : e.op = some i)
    (hst : ∀ u, standing u (e :: s.log) = standing u s.log) (hans : Answers names s.log e) :
    Goes names s (s.finish i e) i .done := ⟨rfl, .inr ⟨e, he, rfl, hst, hans⟩, trivial⟩

/-- A step that leaves the map and the directory alone. -/
theorem inv_same (inv : Inv names s) (hi : s.ops[i]? = some p) (hp : ∀ y, p ≠ .insert y)
    (h : Goes names s t i q) (hm : t.snapshots = s.snapshots) (hf : t.files = s.files) :
    Inv names t where
  entries := hm ▸ inv.entries
  files := hf ▸ inv.files
  agree e he hno := by
    rw [State.onDisk, hf]
    exact inv.agree e (hm ▸ he) fun y hy => hno y (saving_advance h.ops hi (hp y) hy)
  points := h.points inv
  stands u hu v hv := by
    rw [State.onDisk, hf]
    exact inv.stands u hu v (h.standing u ▸ hv)
  kept := h.kept inv

/-- Something fresh goes into the map. -/
theorem inv_put (inv : Inv names s) (hi : s.ops[i]? = some p) (hp : ∀ y, p ≠ .insert y)
    (h : Goes names s t i q) {key : Text} {x : ContinuationSnapshot} (hx : x.taskId ∈ names)
    (hkey : key = x.taskId ∨ key = fileStem x.taskId) (hfresh : s.Fresh (fileStem x.taskId) x)
    (hm : t.snapshots = s.snapshots.put ⟨key, x⟩) (hf : t.files = s.files) : Inv names t where
  entries e he := by
    rw [hm] at he
    cases Table.mem_put.mp he with
    | inl hnew =>
      subst hnew
      exact ⟨hx, hkey⟩
    | inr hold => exact inv.entries e hold.1
  files := hf ▸ inv.files
  agree e he hno := by
    have hbefore (y : ContinuationSnapshot) : ¬ s.Saving (fileStem e.snapshot.taskId) y :=
      fun hy => hno y (saving_advance h.ops hi (hp y) hy)
    rw [State.onDisk, hf]
    rw [hm] at he
    cases Table.mem_put.mp he with
    | inl hnew =>
      subst hnew
      cases hfresh with
      | inl hsave =>
        obtain ⟨y, hy⟩ := hsave
        exact (hbefore y hy).elim
      | inr hdisk => exact ⟨x, hdisk, fun _ => rfl⟩
    | inr hold => exact inv.agree e hold.1 hbefore
  points := h.points inv
  stands u hu v hv := by
    rw [State.onDisk, hf]
    exact inv.stands u hu v (h.standing u ▸ hv)
  kept := h.kept inv

/-- Entries leave the map. -/
theorem inv_drop (inv : Inv names s) (hsave : ∀ stem y, s.Saving stem y → t.Saving stem y)
    (hm : ∀ e ∈ t.snapshots.rows, e ∈ s.snapshots.rows) (hf : t.files = s.files)
    (hpoints : ∀ j p, t.ops[j]? = some p → PointOk names t.log j p)
    (hstands : ∀ u v, standing u t.log = some v → standing u s.log = some v)
    (hkept : Kept names t.log) : Inv names t where
  entries e he := inv.entries e (hm e he)
  files := hf ▸ inv.files
  agree e he hno := by
    rw [State.onDisk, hf]
    exact inv.agree e (hm e he) fun y hy => hno y (hsave _ y hy)
  points := hpoints
  stands u hu v hv := by
    rw [State.onDisk, hf]
    exact inv.stands u hu v (hstands u v hv)
  kept := hkept

/-- The file of an id that is being taken leaves the directory. -/
theorem inv_delete (inv : Inv names s) {stem : Text} (hclear : s.Cleared stem)
    (hsave : ∀ stem y, s.Saving stem y → t.Saving stem y) (hm : t.snapshots = s.snapshots)
    (hf : t.files = s.files.delete (Table.hasKey File.stem stem))
    (hpoints : ∀ j p, t.ops[j]? = some p → PointOk names t.log j p)
    (hgone : ∀ u ∈ names, fileStem u = stem → ∀ v, standing u t.log = some v → v = .gone)
    (hstands : ∀ u, fileStem u ≠ stem → standing u t.log = standing u s.log)
    (hkept : Kept names t.log) : Inv names t where
  entries := hm ▸ inv.entries
  files f hmem := inv.files f (Table.mem_delete.mp (hf ▸ hmem)).1
  agree e he hno := by
    rw [hm] at he
    rw [onDisk_delete hf, if_neg (hclear.2 e he)]
    exact inv.agree e he fun y hy => hno y (hsave _ y hy)
  points := hpoints
  stands u hu v hv := by
    rw [onDisk_delete hf]
    split
    · rename_i hstem
      rw [hgone u hu hstem v hv]
      rfl
    · rename_i hstem
      exact inv.stands u hu v (hstands u hstem ▸ hv)
  kept := hkept

variable (ha : Apart names)
include ha

theorem inv_rename (inv : Inv names s) {x : ContinuationSnapshot} {modified : Int}
    (hi : s.ops[i]? = some (.rename x modified)) (hops : t.ops = s.ops.set i (.insert x))
    (hlog : t.log = s.log) (hm : t.snapshots = s.snapshots)
    (hf : t.files = s.files.put ⟨fileStem x.taskId, x, modified⟩) : Inv names t where
  entries := hm ▸ inv.entries
  files f hmem := by
    cases Table.mem_put.mp (hf ▸ hmem) with
    | inl hnew =>
      subst hnew
      exact ⟨(inv.points i _ hi).1, rfl⟩
    | inr hold => exact inv.files f hold.1
  agree e he hno := by
    rw [onDisk_put hf]
    split
    · rename_i hstem
      refine (hno x ⟨?_, hstem.symm⟩).elim
      rw [hops]
      exact List.mem_set (List.getElem?_eq_some_iff.mp hi).1 _
    · exact inv.agree e (hm ▸ he) fun y hy =>
        hno y (saving_advance hops hi (by simp) hy)
  points := by
    have hq : PointOk names s.log i (.insert x) := inv.points i (.rename x modified) hi
    exact (goes_advance hq hops hlog).points inv
  stands u hu v hv := by
    rw [hlog] at hv
    rw [onDisk_put hf]
    split
    · rename_i hstem
      obtain ⟨hx, hopen⟩ := inv.points i _ hi
      rw [ha.injective hu hx hstem, standing_of_saving hopen] at hv
      cases hv
    · exact inv.stands u hu v hv
  kept := hlog ▸ inv.kept

/-- A save ends: among the saves under way one has written the file last. -/
theorem inv_insert (inv : Inv names s) {x : ContinuationSnapshot}
    (hi : s.ops[i]? = some (.insert x)) (hc : (Point.insert x).Careful s) :
    Inv names ((s.put x.taskId x).finish i (.saved i x)) := by
  obtain ⟨hx, hopen⟩ := inv.points i _ hi
  obtain ⟨y, hy, hdisk⟩ := hc
  set t := (s.put x.taskId x).finish i (.saved i x)
  have hpoints := points_advance (t := t) (q := .done) inv.points rfl (.inr ⟨_, rfl, rfl⟩) trivial
  have hkeep {stem : Text} {z : ContinuationSnapshot} (hz : z ≠ x) (h : s.Saving stem z) :
      t.Saving stem z :=
    saving_advance rfl hi (fun he => hz (Point.insert.inj he).symm) h
  have hlast (hno : ∀ z, ¬ t.Saving (fileStem x.taskId) z) : y = x := by
    by_contra hne
    exact hno y (hkeep hne hy)
  have hdisk' (stem : Text) : t.onDisk stem = s.onDisk stem := rfl
  refine ⟨fun e he => ?_, inv.files, fun e he hno => ?_, hpoints, fun u hu v hv => ?_,
    inv.kept, trivial⟩
  · cases Table.mem_put.mp he with
    | inl hnew =>
      subst hnew
      exact ⟨hx, .inl rfl⟩
    | inr hold => exact inv.entries e hold.1
  · rw [hdisk']
    cases Table.mem_put.mp he with
    | inl hnew =>
      subst hnew
      exact ⟨x, hlast hno ▸ hdisk, fun _ => rfl⟩
    | inr hold =>
      by_cases hstem : fileStem e.snapshot.taskId = fileStem x.taskId
      · have hid := ha.injective (inv.entries e hold.1).1 hx hstem
        exact ⟨y, hstem ▸ hdisk, fun hraw => (hold.2 (hraw.trans hid)).elim⟩
      · refine inv.agree e hold.1 fun z hz => ?_
        by_cases hzx : z = x
        · exact hstem (hzx ▸ hz.2).symm
        · exact hno z (hkeep hzx hz)
  · rw [hdisk']
    by_cases hid : x.taskId = u
    · subst hid
      have hno (z : ContinuationSnapshot) (hz : t.Saving (fileStem x.taskId) z) : False := by
        obtain ⟨j, hj⟩ := saving_open ha hpoints hx hz
        rw [standing_of_saving hj] at hv
        cases hv
      have hv' : standing x.taskId (.saved i x :: s.log) = some v := hv
      rw [standing, if_pos rfl] at hv'
      split at hv'
      · obtain rfl := Option.some.inj hv'
        rw [hdisk, hlast hno]
        rfl
      · cases hv'
    · have hv' : standing u (.saved i x :: s.log) = some v := hv
      rw [standing, if_neg hid] at hv'
      exact inv.stands u hu v hv'

/-- A load that has found its id in the map. -/
theorem answers_memory (inv : Inv names s) {taskId : Text} {x : ContinuationSnapshot}
    (ht : taskId ∈ names) (hx : s.inMemory taskId = some x) :
    Answers names s.log (.loaded i taskId (.ok x)) := by
  refine ⟨fun y hy => ?_, fun hgone => ?_⟩
  · rw [Standing.holds.inj (memory_stands ha inv ht hy.now hx)]
  · cases memory_stands ha inv ht hgone.now hx

theorem inv_load (inv : Inv names s) (hi : s.ops[i]? = some p) (hc : p.Careful s)
    (hp : p.ofLoad = true) (hs : s.go i p = some t) : Inv names t := by
  have hok := inv.points i p hi
  cases p with
  | lookup id =>
    simp only [State.go] at hs
    split at hs
    · rename_i x hx
      obtain rfl := Option.some.inj hs
      exact inv_same inv hi (by simp) (goes_finish rfl (fun _ => rfl)
        (answers_memory ha inv hok hx)) rfl rfl
    · obtain rfl := Option.some.inj hs
      exact inv_same (q := .probe id) inv hi (by simp) (goes_advance hok rfl rfl) rfl rfl
  | probe id =>
    obtain rfl := Option.some.inj hs
    refine inv_same inv hi (by simp) (goes_advance ?_ rfl rfl) rfl rfl
    split
    · exact hok
    · exact hok
  | recheck id left =>
    simp only [State.go] at hs
    split at hs
    · rename_i x hx
      obtain rfl := Option.some.inj hs
      exact inv_same inv hi (by simp) (goes_finish rfl (fun _ => rfl)
        (answers_memory ha inv hok hx)) rfl rfl
    · obtain rfl := Option.some.inj hs
      exact inv_same (q := .seek id left) inv hi (by simp) (goes_advance hok rfl rfl) rfl rfl
  | seek id left =>
    simp only [State.go] at hs
    split at hs
    · rename_i hfile
      obtain rfl := Option.some.inj hs
      refine inv_same (q := .read id) inv hi (by simp) (goes_advance ⟨hok, fun hgone => ?_⟩
        rfl rfl) rfl rfl
      rw [inv.stands id hok _ hgone.now] at hfile
      cases hfile
    · rename_i hfile
      cases left with
      | zero =>
        obtain rfl := Option.some.inj hs
        refine inv_same inv hi (by simp) (goes_finish rfl (fun _ => rfl)
          ⟨fun x hx => ?_, fun _ => rfl⟩) rfl rfl
        rw [inv.stands id hok _ hx.now] at hfile
        exact (hfile rfl).elim
      | succ left =>
        obtain rfl := Option.some.inj hs
        exact inv_same (q := .recheck id left) inv hi (by simp) (goes_advance hok rfl rfl) rfl rfl
  | read id =>
    simp only [State.go] at hs
    split at hs
    · rename_i x hx
      obtain rfl := Option.some.inj hs
      refine inv_same (q := .keep id x) inv hi (by simp) (goes_advance
        ⟨hok.1, ?_, fun v hv => ?_⟩ rfl rfl) rfl rfl
      · obtain ⟨f, hf, hstem, rfl⟩ := onDisk_eq_some hx
        obtain ⟨hn, hown⟩ := inv.files f hf
        exact ha.injective hn hok.1 (hown.symm.trans hstem)
      · rw [inv.stands id hok.1 v hv.now] at hx
        cases v with
        | holds y => rw [Option.some.inj hx]
        | gone => cases hx
    · rename_i hx
      obtain rfl := Option.some.inj hs
      refine inv_same inv hi (by simp) (goes_finish rfl (fun _ => rfl)
        ⟨fun x hst => ?_, fun hst => (hok.2 hst).elim⟩) rfl rfl
      rw [inv.stands id hok.1 _ hst.now] at hx
      cases hx
  | keep id x =>
    obtain ⟨hid, rfl, hst⟩ := hok
    obtain rfl := Option.some.inj hs
    refine inv_put (q := .done) inv hi (by simp) ?_ hid (.inl rfl) hc rfl rfl
    refine ⟨rfl, .inr ⟨_, rfl, rfl, fun _ => rfl, fun y hy => ?_, fun hgone => ?_⟩, trivial⟩
    · rw [Standing.holds.inj (hst _ hy)]
    · cases hst _ hgone
  | _ => cases hp

theorem inv_remove (inv : Inv names s) {taskId : Text} {removed : Bool}
    (hi : s.ops[i]? = some (.locate taskId removed) ∨ s.ops[i]? = some (.delete taskId removed))
    (hops : t.ops = s.ops.set i .done) (hlog : t.log = .removed i taskId removed :: s.log)
    (hm : t.snapshots = s.snapshots)
    (hf : s.onDisk (fileStem taskId) = none ∧ t.files = s.files ∨
      s.Cleared (fileStem taskId) ∧
        t.files = s.files.delete (Table.hasKey File.stem (fileStem taskId))) :
    Inv names t := by
  have hid : taskId ∈ names := hi.elim (fun h => (inv.points i _ h).1) fun h =>
    (inv.points i _ h).1
  have hpoints : ∀ j p, t.ops[j]? = some p → PointOk names t.log j p :=
    points_advance inv.points hops (.inr ⟨_, rfl, hlog⟩) trivial
  have hsave (stem : Text) (y : ContinuationSnapshot) (hy : s.Saving stem y) :
      t.Saving stem y := by
    cases hi with
    | inl hi => exact saving_advance hops hi (by simp) hy
    | inr hi => exact saving_advance hops hi (by simp) hy
  have hkept : Kept names t.log := hlog ▸ ⟨inv.kept, trivial⟩
  obtain ⟨hnone, hf⟩ | ⟨hclear, hf⟩ := hf
  · refine ⟨hm ▸ inv.entries, hf ▸ inv.files, fun e he hno => ?_, hpoints, fun u hu v hv => ?_,
      hkept⟩
    · rw [State.onDisk, hf]
      exact inv.agree e (hm ▸ he) fun y hy => hno y (hsave _ y hy)
    · rw [State.onDisk, hf]
      rw [hlog] at hv
      obtain ⟨rfl, rfl⟩ | ⟨_, hv⟩ := standing_removed hv
      · exact hnone
      · exact inv.stands u hu v hv
  · refine inv_delete inv hclear hsave hm hf hpoints (fun u hu hstem v hv => ?_)
      (fun u hne => ?_) hkept
    · rw [hlog] at hv
      obtain ⟨_, hgone⟩ | ⟨hne, _⟩ := standing_removed hv
      · exact hgone
      · exact (hne (ha.injective hid hu hstem.symm)).elim
    · rw [hlog, standing, if_neg fun h => hne (congrArg fileStem h.symm)]

theorem inv_go (inv : Inv names s) (hi : s.ops[i]? = some p) (hc : p.Careful s)
    (hs : s.go i p = some t) : Inv names t := by
  have hok := inv.points i p hi
  cases p with
  | persist x =>
    obtain rfl := Option.some.inj hs
    exact inv_same (q := .rename x s.now) inv hi (by simp) (goes_advance hok rfl rfl) rfl rfl
  | rename x modified =>
    obtain rfl := Option.some.inj hs
    exact inv_rename ha inv hi rfl rfl rfl rfl
  | insert x =>
    obtain rfl := Option.some.inj hs
    exact inv_insert ha inv hi hc
  | forget id =>
    obtain rfl := Option.some.inj hs
    have hgoes := goes_advance (t := (s.dropKeys (· = id)).advance i
      (.locate id (s.inMemory id).isSome)) (q := .locate id (s.inMemory id).isSome) hok rfl rfl
    exact inv_drop inv (fun _ y hy => saving_advance rfl hi (by simp) hy)
      (fun e he => (Table.mem_delete.mp he).1) rfl (hgoes.points inv) (fun u v hv => hv) inv.kept
  | locate id removed =>
    simp only [State.go] at hs
    split at hs
    · obtain rfl := Option.some.inj hs
      exact inv_same (q := .delete id removed) inv hi (by simp) (goes_advance hok rfl rfl) rfl rfl
    · rename_i hfile
      obtain rfl := Option.some.inj hs
      exact inv_remove ha inv (.inl hi) rfl rfl rfl (.inl ⟨by simpa using hfile, rfl⟩)
  | delete id removed =>
    obtain rfl := Option.some.inj hs
    exact inv_remove ha inv (.inr hi) rfl rfl rfl (.inr ⟨hc, rfl⟩)
  | weigh stem cutoff walk =>
    simp only [State.go] at hs
    split at hs
    · obtain rfl := Option.some.inj hs
      exact inv_same (q := .doom stem cutoff walk) inv hi (by simp)
        (goes_advance trivial rfl rfl) rfl rfl
    · obtain rfl := Option.some.inj hs
      exact inv_same (q := .sweep cutoff walk) inv hi (by simp)
        (goes_advance trivial rfl rfl) rfl rfl
  | doom stem cutoff walk =>
    obtain rfl := Option.some.inj hs
    refine inv_drop inv (fun _ y hy => saving_advance rfl hi (by simp) hy)
      (fun e he => (Table.mem_delete.mp he).1) rfl
      (points_advance (q := .unlink stem cutoff walk) inv.points rfl (.inr ⟨_, rfl, rfl⟩) ?_)
      (fun u v hv => standing_taking hv) ⟨inv.kept, trivial⟩
    intro u hu
    rw [State.record, takesOpen, if_pos hu]
    exact List.mem_cons_self
  | unlink stem cutoff walk =>
    obtain rfl := Option.some.inj hs
    refine inv_delete inv hc (fun _ y hy => saving_advance rfl hi (by simp) hy) rfl rfl
      (points_advance (q := .sweep cutoff walk.counted) inv.points rfl (.inr ⟨_, rfl, rfl⟩)
        trivial) (fun u _ hstem v hv => standing_took hstem hv) (fun u hne => ?_)
      ⟨inv.kept, trivial⟩
    rw [State.record, standing, if_neg hne]
    rfl
  | present stem walk =>
    obtain rfl := Option.some.inj hs
    refine inv_same inv hi (by simp) (goes_advance ?_ rfl rfl) rfl rfl
    split
    · trivial
    · trivial
  | fetch stem walk =>
    simp only [State.go] at hs
    split at hs
    · rename_i x hx
      obtain rfl := Option.some.inj hs
      obtain ⟨f, hf, hstem, rfl⟩ := onDisk_eq_some hx
      obtain ⟨hn, hown⟩ := inv.files f hf
      exact inv_same (q := .adopt stem f.snapshot walk) inv hi (by simp)
        (goes_advance ⟨hn, hstem.symm.trans hown⟩ rfl rfl) rfl rfl
    · obtain rfl := Option.some.inj hs
      exact inv_same (q := .recover walk) inv hi (by simp) (goes_advance trivial rfl rfl) rfl rfl
  | adopt stem x walk =>
    obtain ⟨hn, rfl⟩ := hok
    obtain rfl := Option.some.inj hs
    exact inv_put (q := .recover walk.counted) inv hi (by simp)
      (goes_advance trivial rfl rfl) hn (.inr rfl) hc rfl rfl
  | list =>
    obtain rfl := Option.some.inj hs
    refine inv_same inv hi (by simp) (goes_advance (fun u hu hgone k hk => ?_) rfl rfl) rfl rfl
    obtain ⟨e, he, rfl⟩ := List.mem_map.mp hk
    exact gone_entries ha inv hu hgone.now he
  | lookup id => exact inv_load ha inv hi hc rfl hs
  | probe id => exact inv_load ha inv hi hc rfl hs
  | recheck id left => exact inv_load ha inv hi hc rfl hs
  | seek id left => exact inv_load ha inv hi hc rfl hs
  | read id => exact inv_load ha inv hi hc rfl hs
  | keep id x => exact inv_load ha inv hi hc rfl hs
  | _ => cases hs

theorem inv_refill (inv : Inv names s) (hi : s.ops[i]? = some p) (hs : s.refill i p = some t) :
    Inv names t := by
  cases p with
  | sweep cutoff walk =>
    obtain rfl := Option.some.inj hs
    exact inv_same (q := .sweep cutoff _) inv hi (by simp) (goes_advance trivial rfl rfl) rfl rfl
  | recover walk =>
    obtain rfl := Option.some.inj hs
    exact inv_same (q := .recover _) inv hi (by simp) (goes_advance trivial rfl rfl) rfl rfl
  | listing found taskIds =>
    obtain rfl := Option.some.inj hs
    refine inv_same inv hi (by simp) (goes_advance (fun u hu hgone k hk => ?_) rfl rfl) rfl rfl
    rw [List.append_assoc] at hk
    cases List.mem_append.mp hk with
    | inl hnew =>
      obtain ⟨f, hf, rfl⟩ := List.mem_map.mp hnew
      exact gone_files ha inv hu hgone.now hf
    | inr hold => exact inv.points i _ hi u hu hgone k hold
  | _ => cases hs

omit ha in
theorem inv_entry (inv : Inv names s) {stem : Text} (hi : s.ops[i]? = some p)
    (hs : s.entry i stem p = some t) : Inv names t := by
  cases p with
  | sweep cutoff walk =>
    obtain ⟨_, hs⟩ := Option.ite_none_right_eq_some.mp hs
    obtain rfl := Option.some.inj hs
    exact inv_same (q := .weigh stem cutoff walk) inv hi (by simp)
      (goes_advance trivial rfl rfl) rfl rfl
  | recover walk =>
    obtain ⟨_, hs⟩ := Option.ite_none_right_eq_some.mp hs
    obtain rfl := Option.some.inj hs
    exact inv_same (q := .present stem walk) inv hi (by simp)
      (goes_advance trivial rfl rfl) rfl rfl
  | listing found taskIds =>
    obtain ⟨hmem, hs⟩ := Option.ite_none_right_eq_some.mp hs
    obtain rfl := Option.some.inj hs
    refine inv_same inv hi (by simp) (goes_advance (fun u hu hgone k hk => ?_) rfl rfl) rfl rfl
    refine inv.points i _ hi u hu hgone k ?_
    split at hk
    · exact hk
    · rw [← List.append_assoc, List.mem_append, List.mem_singleton] at hk
      cases hk with
      | inl hold => exact hold
      | inr hnew => exact hnew ▸ List.mem_append_left taskIds hmem
  | _ => cases hs

omit ha in
theorem inv_close (inv : Inv names s) (hi : s.ops[i]? = some p) (hs : s.close i p = some t) :
    Inv names t := by
  cases p with
  | sweep cutoff walk =>
    obtain rfl := Option.some.inj hs
    exact inv_same inv hi (by simp) (goes_finish rfl (fun _ => rfl) trivial) rfl rfl
  | recover walk =>
    obtain rfl := Option.some.inj hs
    exact inv_same inv hi (by simp) (goes_finish rfl (fun _ => rfl) trivial) rfl rfl
  | listing found taskIds =>
    obtain rfl := Option.some.inj hs
    refine inv_same inv hi (by simp) (goes_finish rfl (fun _ => rfl) fun u hu hgone => ?_) rfl rfl
    have hout := inv.points i _ hi u hu hgone
    exact ⟨fun hk => (hout u (List.mem_append_right found hk)).1 rfl,
      fun hk => (hout _ (List.mem_append_right found hk)).2 rfl⟩
  | _ => cases hs

omit ha in
theorem inv_call (inv : Inv names s) {operation : Operation}
    (hn : (Act.call operation).Names names) (hs : step s (.call operation) = some t) :
    Inv names t := by
  obtain rfl := Option.some.inj hs
  refine ⟨inv.entries, inv.files, fun e he hno => ?_, fun j p hj => ?_, fun u hu v hv => ?_,
    inv.kept, trivial⟩
  · exact inv.agree e he fun y hy => hno y ⟨List.mem_append_left _ hy.1, hy.2⟩
  · rw [List.getElem?_append] at hj
    split at hj
    · rename_i hlt
      exact pointOk_later (inv.points j p hj) rfl (Nat.ne_of_gt hlt)
    · rename_i hge
      rw [List.getElem?_singleton] at hj
      obtain ⟨hzero, hfirst⟩ := Option.ite_none_right_eq_some.mp hj
      obtain rfl : j = s.ops.length := by omega
      obtain rfl := Option.some.inj hfirst
      cases operation with
      | save x =>
        refine ⟨hn, ?_⟩
        rw [savesOpen, if_pos rfl]
        exact List.mem_cons_self
      | load id => exact hn
      | remove id =>
        refine ⟨hn, ?_⟩
        rw [takesOpen, if_pos rfl]
        exact List.mem_cons_self
      | _ => trivial
  · refine inv.stands u hu v ?_
    cases operation with
    | save x =>
      rw [standing] at hv
      split at hv
      · cases hv
      · exact hv
    | remove id =>
      rw [standing] at hv
      split at hv
      · obtain ⟨hgone, rfl⟩ := stillGone_eq_some hv
        exact hgone
      · exact hv
    | _ => exact hv

theorem inv_step {act : Act} (inv : Inv names s) (hok : act.Names names ∧ Careful s act)
    (hs : step s act = some t) : Inv names t := by
  cases act with
  | call operation => exact inv_call inv hok.1 hs
  | go i =>
    obtain ⟨p, hi, hs⟩ := Option.bind_eq_some_iff.mp hs
    exact inv_go ha inv hi (hok.2 p hi) hs
  | refill i =>
    obtain ⟨p, hi, hs⟩ := Option.bind_eq_some_iff.mp hs
    exact inv_refill ha inv hi hs
  | entry i stem =>
    obtain ⟨p, hi, hs⟩ := Option.bind_eq_some_iff.mp hs
    exact inv_entry inv hi hs
  | orphan i modified =>
    obtain ⟨p, hi, hs⟩ := Option.bind_eq_some_iff.mp hs
    cases p with
    | sweep cutoff walk =>
      obtain ⟨_, hs⟩ := Option.ite_none_right_eq_some.mp hs
      obtain rfl := Option.some.inj hs
      exact inv_same (q := .sweep cutoff walk.counted) inv hi (by simp)
        (goes_advance trivial rfl rfl) rfl rfl
    | _ => cases hs
  | close i =>
    obtain ⟨p, hi, hs⟩ := Option.bind_eq_some_iff.mp hs
    exact inv_close inv hi hs
  | clock now =>
    obtain rfl := Option.some.inj hs
    exact ⟨inv.entries, inv.files, inv.agree, inv.points, inv.stands, inv.kept⟩
  | restart =>
    obtain rfl := Option.some.inj hs
    refine ⟨fun e he => (List.not_mem_nil he).elim, inv.files,
      fun e he => (List.not_mem_nil he).elim, fun j p hj => ?_, inv.stands, inv.kept, trivial⟩
    rw [List.getElem?_map, Option.map_eq_some_iff] at hj
    obtain ⟨_, _, rfl⟩ := hj
    trivial

omit ha in
theorem inv_start : Inv names start where
  entries e he := (List.not_mem_nil he).elim
  files f hf := (List.not_mem_nil hf).elim
  agree e he := (List.not_mem_nil he).elim
  points i p hi := by cases hi
  stands t ht v hv := by cases hv
  kept := trivial

end Steps

/-- Bounds the accesses that a load has before it. -/
def Point.rank : Point → Nat
  | .lookup _ => 4 * maxRetries + 7
  | .probe _ => 4 * maxRetries + 6
  | .recheck _ left => 4 * left + 5
  | .seek _ left => 4 * left + 4
  | .read _ => 3
  | .keep _ _ => 2
  | _ => 0

theorem load_goes_on {s : State} {i : Nat} {p : Point} (hi : s.ops[i]? = some p)
    (hp : p.ofLoad = true) :
    ∃ t q, step s (.go i) = some t ∧ t.ops[i]? = some q ∧ q.rank < p.rank := by
  have hlt : i < s.ops.length := (List.getElem?_eq_some_iff.mp hi).1
  have hset (q : Point) : (s.ops.set i q)[i]? = some q := List.getElem?_set_self hlt
  have hgo : step s (.go i) = s.go i p := by rw [step, hi, Option.bind_some]
  rw [hgo]
  cases p with
  | lookup id =>
    rw [State.go]
    split
    · exact ⟨_, .done, rfl, hset _, Nat.succ_pos _⟩
    · exact ⟨_, .probe id, rfl, hset _, Nat.lt_succ_self _⟩
  | probe id =>
    refine ⟨_, _, rfl, hset _, ?_⟩
    split
    · exact (by decide : 4 < 4 * maxRetries + 6)
    · exact Nat.lt_succ_self _
  | recheck id left =>
    rw [State.go]
    split
    · exact ⟨_, .done, rfl, hset _, Nat.succ_pos _⟩
    · exact ⟨_, .seek id left, rfl, hset _, Nat.lt_succ_self _⟩
  | seek id left =>
    simp only [State.go]
    split
    · exact ⟨_, .read id, rfl, hset _, by simp only [Point.rank]; omega⟩
    · cases left with
      | zero => exact ⟨_, .done, rfl, hset _, Nat.succ_pos _⟩
      | succ left => exact ⟨_, .recheck id left, rfl, hset _, by simp only [Point.rank]; omega⟩
  | read id =>
    rw [State.go]
    split
    · exact ⟨_, .keep id _, rfl, hset _, Nat.lt_succ_self 2⟩
    · exact ⟨_, .done, rfl, hset _, Nat.succ_pos 2⟩
  | keep id x => exact ⟨_, .done, rfl, hset _, Nat.succ_pos 1⟩
  | _ => cases hp

/-- Whatever the operations interleave, and over restarts, a load finds what was saved last and
nothing of what was taken, and it comes to its answer. -/
theorem consumed_stays_gone {names : Set Text} (ha : Apart names) {acts : List Act} {s : State}
    (hok : Along step (fun s act => act.Names names ∧ Careful s act) start acts)
    (hr : run step start acts = some s) :
    Kept names s.log ∧ ∀ i p, s.ops[i]? = some p → p.ofLoad = true →
      ∃ t q, step s (.go i) = some t ∧ t.ops[i]? = some q ∧ q.rank < p.rank := by
  have inv : Inv names s := run_invariant (fun _ _ _ hi hc hs => inv_step ha hi hc hs)
    inv_start hok hr
  exact ⟨inv.kept, fun i p => load_goes_on⟩

def reminder : ContinuationSnapshot :=
  ⟨"a:b".toList, .arr [], "call".toList, "web".toList, "1".toList, true, "noon".toList⟩

/-- Saved, loaded from the file after a restart, and removed. -/
def consumedActs : List Act :=
  [.call (.save reminder), .go 0, .go 0, .go 0, .restart,
    .call (.load "a:b".toList), .go 1, .go 1, .go 1, .go 1, .go 1,
    .call (.remove "a:b".toList), .go 2, .go 2, .go 2, .call .listPending, .go 3, .refill 3,
    .close 3]

theorem apart_singleton (t : Text) : Apart {t} where
  injective := Set.injOn_singleton _ _
  plain _ ha _ hb _ := hb.trans ha.symm

theorem careful_go {s : State} {i : Nat} {p : Point} (hi : s.ops[i]? = some p)
    (hp : p.Careful s) : Careful s (.go i) := by
  intro q hq
  rw [Option.mem_def, hi] at hq
  exact Option.some.inj hq ▸ hp

def Point.isInsert : Point → Bool
  | .insert _ => true
  | _ => false

theorem cleared_of_empty {s : State} {stem : Text} (hm : s.snapshots.rows = [])
    (hops : s.ops.any Point.isInsert = false) : s.Cleared stem := by
  refine ⟨fun y hy => ?_, fun e he => ?_⟩
  · exact List.any_eq_false.mp hops _ hy.1 rfl
  · rw [hm] at he
    exact (List.not_mem_nil he).elim

theorem consumed_stays_gone_loaded :
    ∃ s, run step start consumedActs = some s ∧ s.log.head? = some (.listed 3 []) ∧
      Kept {"a:b".toList} s.log := by
  have hquiet {s t : State} {i : Nat} {p : Point} {is : List Act} (hi : s.ops[i]? = some p)
      (hp : p.Careful s) (hs : step s (.go i) = some t)
      (ht : Along step (fun s act => act.Names {"a:b".toList} ∧ Careful s act) t is) :
      Along step (fun s act => act.Names {"a:b".toList} ∧ Careful s act) s (.go i :: is) :=
    along_cons ⟨trivial, careful_go hi hp⟩ hs ht
  have hok : Along step (fun s act => act.Names {"a:b".toList} ∧ Careful s act) start
      consumedActs := by
    refine along_cons ⟨rfl, trivial⟩ rfl ?_
    refine hquiet rfl trivial rfl (hquiet rfl trivial rfl ?_)
    refine hquiet rfl ⟨reminder, ⟨List.mem_singleton.mpr rfl, rfl⟩, rfl⟩ rfl ?_
    refine along_cons ⟨trivial, trivial⟩ rfl (along_cons ⟨rfl, trivial⟩ rfl ?_)
    refine hquiet rfl trivial rfl (hquiet rfl trivial rfl (hquiet rfl trivial rfl ?_))
    refine hquiet rfl trivial rfl (hquiet rfl (.inr rfl) rfl ?_)
    refine along_cons ⟨rfl, trivial⟩ rfl (hquiet rfl trivial rfl (hquiet rfl trivial rfl ?_))
    refine hquiet rfl (cleared_of_empty rfl rfl) rfl (along_cons ⟨trivial, trivial⟩ rfl ?_)
    refine hquiet rfl trivial rfl (along_cons ⟨trivial, trivial⟩ rfl ?_)
    exact along_cons ⟨trivial, trivial⟩ rfl trivial
  have hr : ∃ s, run step start consumedActs = some s ∧ s.log.head? = some (.listed 3 []) :=
    ⟨_, rfl, rfl⟩
  obtain ⟨s, hr, hlist⟩ := hr
  exact ⟨s, hr, hlist, (consumed_stays_gone (apart_singleton "a:b".toList) hok hr).1⟩

/-- Recovered under the name of its file, a snapshot outlives its removal. -/
def outlivedActs : List Act :=
  [.call (.save reminder), .go 0, .go 0, .go 0, .restart,
    .call .recoverFromDisk, .refill 1, .entry 1 "a_b".toList, .go 1, .go 1, .go 1, .close 1,
    .call (.remove "a:b".toList), .go 2, .go 2, .go 2, .call .listPending, .go 3, .close 3]

theorem recovered_stays :
    ¬ ∀ (names : Set Text) (acts : List Act) (s : State), Set.InjOn fileStem names →
      (∀ act ∈ acts, act.Names names) → run step start acts = some s → Kept names s.log := by
  intro h
  have hnames : ∀ act ∈ outlivedActs, act.Names {"a:b".toList} := by
    simp [outlivedActs, Act.Names, reminder]
  have hkept := h {"a:b".toList} outlivedActs _ (Set.injOn_singleton _ _) hnames rfl
  have hlist := hkept.2 "a:b".toList rfl ⟨rfl, .inl ⟨_, rfl⟩⟩
  exact hlist.2 (by decide : fileStem "a:b".toList ∈ ["a_b".toList])

end NemesisBot.ContinuationStore

import NemesisBot.Cluster.TaskStore
import NemesisBot.Lib.Runs
import NemesisBot.Utils.Sanitize

/-! The results of finished tasks, in memory and in files of one directory, until they
are delivered. -/
namespace NemesisBot.TaskResultStore
open Strings Runs
open TaskManager (Clock)

structure TaskResult where
  taskId : Text
  action : Text
  result : Json
  success : Bool
  storedAt : Text

structure File where
  name : Text
  data : Text

/-- Time stamps, and the JSON text of a result written and read back. -/
structure Env where
  clock : Clock
  toStringPretty : TaskResult → Text
  fromStr : Text → Option TaskResult

structure Store where
  results : Table TaskResult.taskId
  files : Table File.name

def fileName (taskId : Text) : Text := Sanitize.sanitizePathSegment taskId ++ ".json".toList

/-- The extension of the name is `json`. -/
def hasJsonExtension (name : Text) : Bool :=
  (stripSuffix ".json".toList name).any (· ≠ [])

/-- A placeholder for a task that is still at work. -/
def isRunning (r : TaskResult) : Bool :=
  (r.result.get "status".toList).bind Json.asStr = some "running".toList

def Env.storedTime (env : Env) (r : TaskResult) : Option Int :=
  env.clock.parseFromRfc3339 r.storedAt

def fileOf (env : Env) (r : TaskResult) : File := ⟨fileName r.taskId, env.toStringPretty r⟩

namespace Store

def get (s : Store) (taskId : Text) : Option TaskResult := s.results.find taskId

def len (s : Store) : Nat := s.results.rows.length

def deleteFromDisk (s : Store) (taskId : Text) : Store :=
  { s with files := s.files.delete (Table.hasKey File.name (fileName taskId)) }

def writeToDisk (env : Env) (s : Store) (r : TaskResult) : Store :=
  { s with files := s.files.put (fileOf env r) }

def remove (s : Store) (taskId : Text) : Store × Bool :=
  match s.results.find taskId with
  | none => (s, false)
  | some _ =>
    ({ s with results := s.results.delete (Table.hasKey TaskResult.taskId taskId) }
      |>.deleteFromDisk taskId, true)

end Store

/-- What is the oldest after one more key; a time that is not read is passed over. -/
def olderOf (time : Text → Option Int) (oldest : Option (Text × Int)) (k : Text) :
    Option (Text × Int) :=
  match time k with
  | none => oldest
  | some t => if oldest.all (fun o => t < o.2) then some (k, t) else oldest

/-- The time stamp of the result with this key. -/
def timeOf (env : Env) (results : Table TaskResult.taskId) (k : Text) : Option Int :=
  (results.find k).bind env.storedTime

/-- The keys come in the order in which the map is walked. -/
def oldestStoredKey (env : Env) (results : Table TaskResult.taskId) (keys : List Text) :
    Option Text :=
  match keys.foldl (olderOf (timeOf env results)) none with
  | some o => some o.1
  | none => keys.head?

def evictOldest (env : Env) (maxSize : Nat) (s : Store) (keys : List Text) : Store :=
  if maxSize ≤ s.len then
    match oldestStoredKey env s.results keys with
    | some key => match s.results.find key with
      | some evicted =>
        { s with results := s.results.delete (Table.hasKey TaskResult.taskId key) }
          |>.deleteFromDisk evicted.taskId
      | none => s
    | none => s
  else s

/-- Whether the id is in the store already is not looked at. -/
def store (env : Env) (maxSize : Nat) (s : Store) (r : TaskResult) (keys : List Text) : Store :=
  let s := evictOldest env maxSize s keys
  { s with results := s.results.put r }.writeToDisk env r

/-- Files in the order of their names; a placeholder is dropped with its file. -/
def loadFiles (env : Env) (maxSize : Nat) : List File → Store → Store × Nat
  | [], s => (s, 0)
  | f :: rest, s => match env.fromStr f.data with
    | none => loadFiles env maxSize rest s
    | some r =>
      if isRunning r then
        loadFiles env maxSize rest
          { s with files := s.files.delete (Table.hasKey File.name f.name) }
      else if maxSize ≤ s.len then (s, 0)
      else
        let done := loadFiles env maxSize rest { s with results := s.results.put r }
        (done.1, done.2 + 1)

def loadFromDisk (env : Env) (maxSize : Nat) (s : Store) : Store × Nat :=
  let paths := (s.files.select fun f => hasJsonExtension f.name).insertionSort
    fun a b => a.name ≤ b.name
  loadFiles env maxSize paths s

/-- A file stays unless its time is known and too old; the map is pruned by the same times. -/
def sweepOlderThan (env : Env) (s : Store) (maxAge now : Int) : Store × Nat :=
  let cutoff := now - maxAge
  let keep := fun f : File =>
    ((env.fromStr f.data).bind env.storedTime).all fun stored => cutoff ≤ stored
  let old := fun f : File => hasJsonExtension f.name && !keep f
  let stale := fun r : TaskResult => (env.storedTime r).any fun stored => stored < cutoff
  (⟨s.results.delete stale, s.files.delete old⟩, (s.files.select old).length)

inductive Call where
  | storeSuccess (taskId action : Text) (result : Json) (now : Int) (keys : List Text)
  | storeFailure (taskId action error : Text) (now : Int) (keys : List Text)
  | remove (taskId : Text)
  | sweepOlderThan (maxAge now : Int)
  | restart

def successResult (env : Env) (taskId action : Text) (result : Json) (now : Int) : TaskResult :=
  ⟨taskId, action, result, true, env.clock.toRfc3339 now⟩

def failureResult (env : Env) (taskId action error : Text) (now : Int) : TaskResult :=
  ⟨taskId, action, .obj [("error".toList, .str error)], false, env.clock.toRfc3339 now⟩

/-- What a call stores, and the order of the map at that moment. -/
def Call.stored (env : Env) : Call → Option (TaskResult × List Text)
  | .storeSuccess taskId action result now keys =>
    some (successResult env taskId action result now, keys)
  | .storeFailure taskId action error now keys =>
    some (failureResult env taskId action error now, keys)
  | _ => none

/-- A new process has the directory and an empty map. -/
def restarted (env : Env) (maxSize : Nat) (s : Store) : Store :=
  (loadFromDisk env maxSize { s with results := Table.empty }).1

def storeStep (env : Env) (maxSize : Nat) (s : Store) (r : TaskResult) (keys : List Text) :
    Option Store :=
  if keys.Perm (s.results.rows.map TaskResult.taskId) then some (store env maxSize s r keys)
  else none

def step (env : Env) (maxSize : Nat) (s : Store) : Call → Option Store
  | .storeSuccess taskId action result now keys =>
    storeStep env maxSize s (successResult env taskId action result now) keys
  | .storeFailure taskId action error now keys =>
    storeStep env maxSize s (failureResult env taskId action error now) keys
  | .remove taskId => some (s.remove taskId).1
  | .sweepOlderThan maxAge now => some (sweepOlderThan env s maxAge now).1
  | .restart => some (restarted env maxSize s)

def emptyStore : Store := ⟨Table.empty, Table.empty⟩

/-! The files of the directory are those of the results in memory. -/

def eraseResult (s : Store) (taskId : Text) : Store :=
  { s with results := s.results.delete (Table.hasKey TaskResult.taskId taskId) }
    |>.deleteFromDisk taskId

def putResult (env : Env) (s : Store) (r : TaskResult) : Store :=
  { s with results := s.results.put r }.writeToDisk env r

def DiskMirrors (env : Env) (s : Store) : Prop :=
  ∀ f, f ∈ s.files.rows ↔ ∃ r ∈ s.results.rows, fileOf env r = f

/-- Different ids among the results have different sanitized names. -/
def DistinctNames (rs : List TaskResult) : Prop :=
  ∀ r ∈ rs, ∀ r' ∈ rs, Sanitize.sanitizePathSegment r.taskId =
    Sanitize.sanitizePathSegment r'.taskId → r.taskId = r'.taskId

/-- The text of the result and its time stamp are read back as they were written. -/
structure Env.Reads (env : Env) (r : TaskResult) : Prop where
  text : env.fromStr (env.toStringPretty r) = some r
  time : (env.storedTime r).isSome

instance (rs : List TaskResult) : Decidable (DistinctNames rs) :=
  inferInstanceAs (Decidable (∀ r ∈ rs, ∀ r' ∈ rs, Sanitize.sanitizePathSegment r.taskId =
    Sanitize.sanitizePathSegment r'.taskId → r.taskId = r'.taskId))

theorem fileName_inj {id id' : Text} : fileName id = fileName id' ↔
    Sanitize.sanitizePathSegment id = Sanitize.sanitizePathSegment id' := List.append_left_inj _

@[simp]
theorem hasJsonExtension_fileName (id : Text) : hasJsonExtension (fileName id) = true := by
  rw [hasJsonExtension, fileName, stripSuffix_append]
  simpa using Sanitize.sanitizePathSegment_ne_nil id

theorem DistinctNames.fileName_eq {rs : List TaskResult} (h : DistinctNames rs) {r r' : TaskResult}
    (hr : r ∈ rs) (hr' : r' ∈ rs) : fileName r.taskId = fileName r'.taskId ↔
      r.taskId = r'.taskId :=
  ⟨fun he => h r hr r' hr' (fileName_inj.mp he), fun he => by rw [he]⟩

theorem DistinctNames.mono {rs rs' : List TaskResult} (h : DistinctNames rs) (hs : rs' ⊆ rs) :
    DistinctNames rs' := fun r hr r' hr' => h r (hs hr) r' (hs hr')

section Mirror
variable {env : Env} {s : Store} {rs : List TaskResult} {r : TaskResult}

theorem diskMirrors_erase (h : DiskMirrors env s) (hn : DistinctNames rs)
    (hrows : s.results.rows ⊆ rs) (hr : r ∈ rs) : DiskMirrors env (eraseResult s r.taskId) := by
  intro f
  simp only [eraseResult, Store.deleteFromDisk, Table.mem_delete, Table.hasKey, h f,
    decide_eq_false_iff_not]
  constructor
  · rintro ⟨⟨r', hr', rfl⟩, hne⟩
    exact ⟨r', ⟨hr', fun he => hne ((hn.fileName_eq (hrows hr') hr).mpr he)⟩, rfl⟩
  · rintro ⟨r', ⟨hr', hne⟩, rfl⟩
    exact ⟨⟨r', hr', rfl⟩, fun he => hne ((hn.fileName_eq (hrows hr') hr).mp he)⟩

theorem diskMirrors_put (h : DiskMirrors env s) (hn : DistinctNames rs)
    (hrows : s.results.rows ⊆ rs) (hr : r ∈ rs) : DiskMirrors env (putResult env s r) := by
  intro f
  simp only [putResult, Store.writeToDisk, Table.mem_put, h f]
  constructor
  · rintro (rfl | ⟨⟨r', hr', rfl⟩, hne⟩)
    · exact ⟨r, .inl rfl, rfl⟩
    · exact ⟨r', .inr ⟨hr', fun he => hne ((hn.fileName_eq (hrows hr') hr).mpr he)⟩, rfl⟩
  · rintro ⟨r', rfl | ⟨hr', hne⟩, rfl⟩
    · exact .inl rfl
    · exact .inr ⟨⟨r', hr', rfl⟩, fun he => hne ((hn.fileName_eq (hrows hr') hr).mp he)⟩

theorem diskMirrors_sweep (h : DiskMirrors env s) (hread : ∀ r ∈ s.results.rows, env.Reads r)
    (maxAge now : Int) : DiskMirrors env (sweepOlderThan env s maxAge now).1 := by
  intro f
  simp only [sweepOlderThan, Table.mem_delete, h f]
  have hold (r : TaskResult) (hr : r ∈ s.results.rows) :
      (hasJsonExtension (fileOf env r).name && !((env.fromStr (fileOf env r).data).bind
        env.storedTime).all fun stored => now - maxAge ≤ stored) =
      (env.storedTime r).any fun stored => stored < now - maxAge := by
    obtain ⟨t, ht⟩ := Option.isSome_iff_exists.mp (hread r hr).time
    rw [Bool.eq_iff_iff]
    simp [fileOf, (hread r hr).text, ht]
    omega
  constructor
  · rintro ⟨⟨r, hr, rfl⟩, hf⟩
    exact ⟨r, ⟨hr, (hold r hr).symm.trans hf⟩, rfl⟩
  · rintro ⟨r, ⟨hr, hf⟩, rfl⟩
    exact ⟨⟨r, hr, rfl⟩, (hold r hr).trans hf⟩

end Mirror

/-! Loading. -/

theorem loadFiles_mem (env : Env) (maxSize : Nat) {rs : List TaskResult} {s : Store}
    (hread : ∀ r ∈ rs, env.Reads r) (hids : (rs.map TaskResult.taskId).Nodup)
    (hnew : ∀ r ∈ rs, s.results.find r.taskId = none) (hlen : s.len + rs.length ≤ maxSize) :
    let t := (loadFiles env maxSize (rs.map (fileOf env)) s).1
    (∀ r, r ∈ t.results.rows ↔ r ∈ s.results.rows ∨ r ∈ rs ∧ isRunning r = false) ∧
      ∀ f, f ∈ t.files.rows ↔
        f ∈ s.files.rows ∧ ∀ r ∈ rs, isRunning r = true → f.name ≠ fileName r.taskId := by
  induction rs generalizing s with
  | nil => simp [loadFiles]
  | cons r rs ih =>
    obtain ⟨hfresh, hids⟩ := List.nodup_cons.mp hids
    rw [List.length_cons] at hlen
    have hreads := (List.forall_mem_cons.mp hread).2
    have hnews := (List.forall_mem_cons.mp hnew).2
    have htext : env.fromStr (fileOf env r).data = some r := (hread r (by simp)).text
    simp only [List.map_cons, loadFiles, htext]
    cases hrun : isRunning r with
    | true =>
      simp only [if_true]
      have hspace : s.len + rs.length ≤ maxSize := by omega
      have h := ih (s := ⟨s.results, s.files.delete (Table.hasKey File.name (fileOf env r).name)⟩)
        hreads hids hnews hspace
      refine ⟨fun r' => (h.1 r').trans ?_, fun f => (h.2 f).trans ?_⟩
      · have hr' : r' = r ∧ isRunning r' = false ↔ False := by
          simp only [iff_false, not_and]
          rintro rfl
          simp [hrun]
        simp only [List.mem_cons, or_and_right, hr', false_or]
      · simp [Table.mem_delete, Table.hasKey, fileOf, hrun, and_assoc]
    | false =>
      have hspace : ¬ maxSize ≤ s.len := by omega
      simp only [Bool.false_eq_true, if_false, if_neg hspace]
      have hnone : s.results.find r.taskId = none := hnew r (by simp)
      have hnews' (r' : TaskResult) (hr' : r' ∈ rs) :
          (s.results.put r).find r'.taskId = none := by
        have hne : r'.taskId ≠ r.taskId := fun he => hfresh (he ▸ List.mem_map_of_mem hr')
        rw [Table.find_put, if_neg hne]
        exact hnews r' hr'
      have hlen' : (s.results.put r).rows.length + rs.length ≤ maxSize := by
        rw [Table.length_put_of_none hnone]
        simp only [Store.len] at hlen
        omega
      have h := ih (s := ⟨s.results.put r, s.files⟩) hreads hids hnews' hlen'
      refine ⟨fun r' => (h.1 r').trans ?_, fun f => (h.2 f).trans ?_⟩
      · have hother (hr' : r' ∈ s.results.rows) : r'.taskId ≠ r.taskId :=
          Table.find_eq_none_iff.mp hnone r' hr'
        rw [Table.mem_put, List.mem_cons]
        constructor
        · rintro ((rfl | ⟨hr', -⟩) | hr')
          · exact .inr ⟨.inl rfl, hrun⟩
          · exact .inl hr'
          · exact .inr ⟨.inr hr'.1, hr'.2⟩
        · rintro (hr' | ⟨rfl | hr', hnr⟩)
          · exact .inl (.inr ⟨hr', hother hr'⟩)
          · exact .inl (.inl rfl)
          · exact .inr ⟨hr', hnr⟩
      · simp [hrun]

section Restart
variable {env : Env} {maxSize : Nat} {s : Store}

/-- The files are found to be those of the results, in some order. -/
theorem results_of_files (h : DiskMirrors env s) (hread : ∀ r ∈ s.results.rows, env.Reads r)
    {fs : List File} (hfs : fs.Perm (s.files.select fun f => hasJsonExtension f.name)) :
    ∃ rs : List TaskResult, rs.map (fileOf env) = fs ∧ (rs.map TaskResult.taskId).Nodup ∧
      (∀ r, r ∈ rs ↔ r ∈ s.results.rows) := by
  have hmem (f : File) : f ∈ fs ↔ ∃ r ∈ s.results.rows, fileOf env r = f := by
    rw [hfs.mem_iff, Table.mem_select, h f]
    refine ⟨And.left, fun hr => ⟨hr, ?_⟩⟩
    obtain ⟨r, -, rfl⟩ := hr
    exact hasJsonExtension_fileName r.taskId
  have hrange : fs ∈ Set.range (List.map fun r : { r // r ∈ s.results.rows } =>
      fileOf env r.1) := by
    rw [Set.range_list_map]
    intro f hf
    obtain ⟨r, hr, rfl⟩ := (hmem f).mp hf
    exact ⟨⟨r, hr⟩, rfl⟩
  obtain ⟨sub, rfl⟩ := hrange
  refine ⟨sub.map Subtype.val, by rw [List.map_map]; rfl, ?_, fun r => ⟨fun hr => ?_, fun hr => ?_⟩⟩
  · have hnames := (hfs.map File.name).nodup_iff.mpr
      (s.files.nodup.sublist (List.filter_sublist.map File.name))
    rw [List.map_map] at hnames
    have hsame : sub.map (File.name ∘ fun r => fileOf env r.1) =
        ((sub.map Subtype.val).map TaskResult.taskId).map fileName := by
      simp only [List.map_map]
      rfl
    exact (hsame ▸ hnames).of_map
  · obtain ⟨r, -, rfl⟩ := List.mem_map.mp hr
    exact r.2
  · obtain ⟨r', hr', he⟩ := List.mem_map.mp ((hmem (fileOf env r)).mpr ⟨r, hr, rfl⟩)
    have htext := (hread r hr).text
    have htext' := (hread r'.1 r'.2).text
    have hdata : env.toStringPretty r'.1 = env.toStringPretty r := congrArg File.data he
    rw [hdata, htext] at htext'
    exact List.mem_map.mpr ⟨r', hr', (Option.some.inj htext').symm⟩

theorem restarted_spec (h : DiskMirrors env s) (hread : ∀ r ∈ s.results.rows, env.Reads r)
    (hn : DistinctNames s.results.rows) (hlen : s.len ≤ maxSize) :
    (∀ r, r ∈ (restarted env maxSize s).results.rows ↔
      r ∈ s.results.rows ∧ isRunning r = false) ∧
    DiskMirrors env (restarted env maxSize s) ∧ (restarted env maxSize s).len ≤ maxSize := by
  obtain ⟨rs, hfs, hids, hrs⟩ := results_of_files h hread (List.perm_insertionSort
    (fun a b : File => a.name ≤ b.name) (s.files.select fun f => hasJsonExtension f.name))
  have hfew : rs.length ≤ s.len := (hids.of_map.subperm fun r hr => (hrs r).mp hr).length_le
  have hspace : (⟨Table.empty, s.files⟩ : Store).len + rs.length ≤ maxSize := by
    simp only [Store.len, Table.empty, List.length_nil]
    omega
  have hload := loadFiles_mem env maxSize (fun r hr => hread r ((hrs r).mp hr)) hids
    (fun _ _ => rfl) hspace
  have hdef : restarted env maxSize s =
      (loadFiles env maxSize (rs.map (fileOf env)) ⟨Table.empty, s.files⟩).1 := by
    rw [hfs]
    rfl
  rw [← hdef] at hload
  have hrows (r : TaskResult) : r ∈ (restarted env maxSize s).results.rows ↔
      r ∈ s.results.rows ∧ isRunning r = false := by
    rw [hload.1 r, hrs r]
    simp [Table.empty]
  refine ⟨hrows, fun f => ?_, ?_⟩
  · rw [hload.2 f, h f]
    constructor
    · rintro ⟨⟨r, hr, rfl⟩, hkeep⟩
      refine ⟨r, (hrows r).mpr ⟨hr, ?_⟩, rfl⟩
      by_contra hrun
      exact hkeep r ((hrs r).mpr hr) (by simpa using hrun) rfl
    · rintro ⟨r, hr, rfl⟩
      obtain ⟨hr, hrun⟩ := (hrows r).mp hr
      refine ⟨⟨r, hr, rfl⟩, fun r' hr' hrun' he => ?_⟩
      have hr' := (hrs r').mp hr'
      have hsame : r = r' := Table.row_unique hr hr' ((hn.fileName_eq hr hr').mp he)
      rw [← hsame, hrun] at hrun'
      cases hrun'
  · have hnodup : (restarted env maxSize s).results.rows.Nodup :=
      (restarted env maxSize s).results.nodup.of_map
    exact ((hnodup.subperm fun r hr => ((hrows r).mp hr).1).length_le).trans hlen

end Restart

/-! The result that a full store gives up. -/

section Evict
variable {env : Env} {maxSize : Nat} {s : Store} {keys : List Text}

/-- The result was stored no later than any other. -/
def Oldest (env : Env) (s : Store) (r : TaskResult) : Prop :=
  ∃ t, env.storedTime r = some t ∧
    ∀ r' ∈ s.results.rows, ∃ t', env.storedTime r' = some t' ∧ t ≤ t'

/-- The oldest of the keys, if one of them has a time. -/
def LeastOf (time : Text → Option Int) (keys : List Text) : Option (Text × Int) → Prop
  | none => ∀ k ∈ keys, time k = none
  | some o => o.1 ∈ keys ∧ time o.1 = some o.2 ∧ ∀ k ∈ keys, ∀ t, time k = some t → o.2 ≤ t

theorem LeastOf.concat {time : Text → Option Int} {keys : List Text} {o : Option (Text × Int)}
    (h : LeastOf time keys o) (k : Text) : LeastOf time (keys ++ [k]) (olderOf time o k) := by
  cases ht : time k with
  | none =>
    have hstay : olderOf time o k = o := by simp only [olderOf, ht]
    rw [hstay]
    cases o with
    | none => simpa [LeastOf, or_imp, forall_and, ht] using h
    | some o => simpa [LeastOf, or_imp, forall_and, ht] using ⟨.inl h.1, h.2.1, h.2.2⟩
  | some t =>
    have hlast {u : Int} (hu : u ≤ t) {k' : Text} (hk' : k' ∈ [k]) {t' : Int}
        (ht' : time k' = some t') : u ≤ t' := by
      rw [List.mem_singleton.mp hk', ht] at ht'
      exact Option.some.inj ht' ▸ hu
    cases o with
    | none =>
      have hstep : olderOf time none k = some (k, t) := by simp [olderOf, ht]
      rw [hstep]
      refine ⟨by simp, ht, fun k' hk' t' ht' => ?_⟩
      cases List.mem_append.mp hk' with
      | inl hk' => exact absurd (h k' hk') (by simp [ht'])
      | inr hk' => exact hlast le_rfl hk' ht'
    | some o =>
      by_cases hlt : t < o.2
      · have hstep : olderOf time (some o) k = some (k, t) := by simp [olderOf, ht, hlt]
        rw [hstep]
        refine ⟨by simp, ht, fun k' hk' t' ht' => ?_⟩
        cases List.mem_append.mp hk' with
        | inl hk' => exact hlt.le.trans (h.2.2 k' hk' t' ht')
        | inr hk' => exact hlast le_rfl hk' ht'
      · have hstep : olderOf time (some o) k = some o := by simp [olderOf, ht, hlt]
        rw [hstep]
        refine ⟨List.mem_append_left _ h.1, h.2.1, fun k' hk' t' ht' => ?_⟩
        cases List.mem_append.mp hk' with
        | inl hk' => exact h.2.2 k' hk' t' ht'
        | inr hk' => exact hlast (not_lt.mp hlt) hk' ht'

theorem leastOf_fold (time : Text → Option Int) (keys : List Text) :
    LeastOf time keys (keys.foldl (olderOf time) none) := by
  induction keys using List.reverseRecOn with
  | nil => simp [LeastOf]
  | append_singleton keys k ih =>
    rw [List.foldl_append, List.foldl_cons, List.foldl_nil]
    exact ih.concat k

theorem timeOf_taskId {r : TaskResult} (hr : r ∈ s.results.rows) :
    timeOf env s.results r.taskId = env.storedTime r := by
  rw [timeOf, Table.find_of_mem hr, Option.bind_some]

theorem oldestStoredKey_spec (hread : ∀ r ∈ s.results.rows, env.Reads r)
    (hkeys : keys.Perm (s.results.rows.map TaskResult.taskId)) {key : Text}
    (hold : oldestStoredKey env s.results keys = some key) :
    ∃ r, s.results.find key = some r ∧ Oldest env s r := by
  have hleast := leastOf_fold (timeOf env s.results) keys
  rw [oldestStoredKey] at hold
  generalize keys.foldl (olderOf (timeOf env s.results)) none = oldest at hleast hold
  cases oldest with
  | none =>
    have hkey : key ∈ keys := List.mem_of_head? hold
    obtain ⟨r, hr, rfl⟩ := List.mem_map.mp (hkeys.mem_iff.mp hkey)
    have hnone := (timeOf_taskId hr).symm.trans (hleast _ hkey)
    exact absurd (hread r hr).time (by simp [hnone])
  | some o =>
    obtain rfl := Option.some.inj hold
    obtain ⟨-, ht, hle⟩ := hleast
    obtain ⟨r, hr, ht⟩ := Option.bind_eq_some_iff.mp ht
    refine ⟨r, hr, o.2, ht, fun r' hr' => ?_⟩
    obtain ⟨t', ht'⟩ := Option.isSome_iff_exists.mp (hread r' hr').time
    exact ⟨t', ht', hle r'.taskId (hkeys.mem_iff.mpr (List.mem_map_of_mem hr')) t'
      ((timeOf_taskId hr').trans ht')⟩

theorem oldestStoredKey_isSome (env : Env)
    (hkeys : keys.Perm (s.results.rows.map TaskResult.taskId)) (hne : 0 < s.len) :
    ∃ key, oldestStoredKey env s.results keys = some key := by
  rw [oldestStoredKey]
  cases keys.foldl (olderOf (timeOf env s.results)) none with
  | some o => exact ⟨o.1, rfl⟩
  | none =>
    cases keys with
    | nil =>
      have hlen := hkeys.length_eq
      simp only [List.length_nil, List.length_map] at hlen
      simp only [Store.len] at hne
      omega
    | cons k keys => exact ⟨k, rfl⟩

/-- A store that is not full gives up nothing, a full one an oldest result. -/
theorem evictOldest_cases (maxSize : Nat) (hread : ∀ r ∈ s.results.rows, env.Reads r)
    (hkeys : keys.Perm (s.results.rows.map TaskResult.taskId)) :
    (s.len < maxSize ∨ s.len = 0) ∧ evictOldest env maxSize s keys = s ∨
      ∃ r ∈ s.results.rows, maxSize ≤ s.len ∧
        oldestStoredKey env s.results keys = some r.taskId ∧ Oldest env s r ∧
        evictOldest env maxSize s keys = eraseResult s r.taskId := by
  by_cases hfull : maxSize ≤ s.len
  · by_cases hne : 0 < s.len
    · obtain ⟨key, hkey⟩ := oldestStoredKey_isSome env hkeys hne
      obtain ⟨r, hr, hold⟩ := oldestStoredKey_spec hread hkeys hkey
      obtain ⟨hmem, rfl⟩ := Table.find_eq_some_iff.mp hr
      refine .inr ⟨r, hmem, hfull, hkey, hold, ?_⟩
      simp only [evictOldest, if_pos hfull, hkey, hr]
      rfl
    · have hrows : s.results.rows = [] := List.length_eq_zero_iff.mp (Nat.eq_zero_of_not_pos hne)
      have hkeys : keys = [] := by
        rw [hrows] at hkeys
        exact hkeys.eq_nil
      refine .inl ⟨.inr (Nat.eq_zero_of_not_pos hne), ?_⟩
      simp only [evictOldest, if_pos hfull, hkeys]
      rfl
  · exact .inl ⟨.inl (Nat.lt_of_not_le hfull), by rw [evictOldest, if_neg hfull]⟩

end Evict

/-! Whole runs. -/

/-- The results that the calls store, in their order. -/
def storedResults (env : Env) (calls : List Call) : List TaskResult :=
  calls.filterMap fun c => (c.stored env).map Prod.fst

def lastStored (env : Env) (calls : List Call) (taskId : Text) : Option TaskResult :=
  (storedResults env calls).reverse.find? fun r => r.taskId = taskId

/-- What is stored is new, or there is room, or the result that goes is the one replaced. -/
def hasRoom (env : Env) (maxSize : Nat) (s : Store) (c : Call) : Bool :=
  (c.stored env).all fun p => 0 < maxSize &&
    ((s.get p.1.taskId).isNone || s.len < maxSize ||
      oldestStoredKey env s.results p.2 = some p.1.taskId)

/-- A call keeps what is not delivered. -/
structure Keeps (env : Env) (maxSize : Nat) (calls : List Call) (c : Call) (s t : Store) :
    Prop where
  size : t.len ≤ maxSize
  last : ∀ id r, t.get id = some r → lastStored env (calls ++ [c]) id = some r
  present : ∀ r keys, c.stored env = some (r, keys) → (s.get r.taskId).isSome →
    ∀ id, id ≠ r.taskId → t.get id = s.get id
  evicted : ∀ r keys, c.stored env = some (r, keys) → ∀ id, id ≠ r.taskId →
    ∀ old, s.get id = some old → t.get id = some old ∨ maxSize ≤ s.len ∧ Oldest env s old
  restart : c = .restart → ∀ id, t.get id = (s.get id).filter fun r => !isRunning r

structure Mirrored (env : Env) (maxSize : Nat) (calls : List Call) (s : Store) : Prop where
  size : s.len ≤ maxSize
  last : ∀ r ∈ s.results.rows, lastStored env calls r.taskId = some r
  disk : DiskMirrors env s

section Steps
variable {env : Env} {maxSize : Nat} {calls : List Call} {c : Call} {s t : Store}

theorem step_cases (h : step env maxSize s c = some t) :
    (∃ r keys, c.stored env = some (r, keys) ∧
      keys.Perm (s.results.rows.map TaskResult.taskId) ∧
      t = putResult env (evictOldest env maxSize s keys) r) ∨
    c.stored env = none ∧
      ((∃ id, c = .remove id ∧ t = (s.remove id).1) ∨
        (∃ maxAge now, c = .sweepOlderThan maxAge now ∧
          t = (sweepOlderThan env s maxAge now).1) ∨
        c = .restart ∧ t = restarted env maxSize s) := by
  have hstore {r : TaskResult} {keys : List Text} (h : storeStep env maxSize s r keys = some t) :
      keys.Perm (s.results.rows.map TaskResult.taskId) ∧
        t = putResult env (evictOldest env maxSize s keys) r := by
    rw [storeStep] at h
    split at h
    · rename_i hkeys
      exact ⟨hkeys, (Option.some.inj h).symm⟩
    · cases h
  cases c with
  | storeSuccess taskId action result now keys => exact .inl ⟨_, _, rfl, hstore h⟩
  | storeFailure taskId action error now keys => exact .inl ⟨_, _, rfl, hstore h⟩
  | remove taskId => exact .inr ⟨rfl, .inl ⟨taskId, rfl, (Option.some.inj h).symm⟩⟩
  | sweepOlderThan maxAge now =>
    exact .inr ⟨rfl, .inr (.inl ⟨maxAge, now, rfl, (Option.some.inj h).symm⟩)⟩
  | restart => exact .inr ⟨rfl, .inr (.inr ⟨rfl, (Option.some.inj h).symm⟩)⟩

theorem remove_cases (s : Store) (id : Text) : (s.remove id).1 = s ∨
    ∃ r ∈ s.results.rows, (s.remove id).1 = eraseResult s r.taskId := by
  rw [Store.remove]
  cases hf : s.results.find id with
  | none => exact .inl rfl
  | some r =>
    obtain ⟨hr, rfl⟩ := Table.find_eq_some_iff.mp hf
    exact .inr ⟨r, hr, rfl⟩

theorem storedResults_concat (h : c.stored env = none) :
    storedResults env (calls ++ [c]) = storedResults env calls := by
  simp [storedResults, List.filterMap_append, h]

theorem lastStored_of_none (h : c.stored env = none) (id : Text) :
    lastStored env (calls ++ [c]) id = lastStored env calls id := by
  rw [lastStored, storedResults_concat h, lastStored]

theorem storedResults_store {r : TaskResult} {keys : List Text}
    (h : c.stored env = some (r, keys)) :
    storedResults env (calls ++ [c]) = storedResults env calls ++ [r] := by
  simp [storedResults, List.filterMap_append, h]

theorem lastStored_of_some {r : TaskResult} {keys : List Text}
    (h : c.stored env = some (r, keys)) (id : Text) :
    lastStored env (calls ++ [c]) id =
      if id = r.taskId then some r else lastStored env calls id := by
  rw [lastStored, storedResults_store h, List.reverse_append]
  by_cases hid : id = r.taskId
  · simp [hid]
  · have hne : ¬ r.taskId = id := fun he => hid he.symm
    simp [hid, hne, lastStored]

theorem Mirrored.stored (h : Mirrored env maxSize calls s) :
    s.results.rows ⊆ storedResults env calls := fun r hr =>
  List.mem_reverse.mp (List.mem_of_find?_eq_some (h.last r hr))

/-- What is left when a store made room, before it puts its result. -/
theorem evictOldest_spec (h : Mirrored env maxSize calls s)
    (hn : DistinctNames s.results.rows) (hread : ∀ r ∈ s.results.rows, env.Reads r)
    {keys : List Text} (hkeys : keys.Perm (s.results.rows.map TaskResult.taskId))
    (hmax : 0 < maxSize) :
    let m := evictOldest env maxSize s keys
    m.results.rows ⊆ s.results.rows ∧ m.len < maxSize ∧ DiskMirrors env m := by
  have hsize := h.size
  obtain ⟨hlen, he⟩ | ⟨r, hr, -, -, -, he⟩ :=
    evictOldest_cases maxSize hread hkeys
  · rw [he]
    exact ⟨fun r hr => hr, by omega, h.disk⟩
  · rw [he]
    refine ⟨fun r' hr' => (Table.mem_delete.mp hr').1, ?_,
      diskMirrors_erase h.disk hn (fun r' hr' => hr') hr⟩
    have hdel := Table.length_delete_key hr
    change s.results.rows.length ≤ maxSize at hsize
    change (s.results.delete (Table.hasKey TaskResult.taskId r.taskId)).rows.length < maxSize
    omega

theorem Mirrored.store (h : Mirrored env maxSize calls s) {r : TaskResult} {keys : List Text}
    (hc : c.stored env = some (r, keys)) (hn : DistinctNames (storedResults env (calls ++ [c])))
    (hread : ∀ r ∈ s.results.rows, env.Reads r)
    (hkeys : keys.Perm (s.results.rows.map TaskResult.taskId)) (hmax : 0 < maxSize) :
    Mirrored env maxSize (calls ++ [c]) (putResult env (evictOldest env maxSize s keys) r) := by
  rw [storedResults_store hc] at hn
  have hin : s.results.rows ⊆ storedResults env calls ++ [r] := fun r' hr' =>
    List.mem_append_left _ (h.stored hr')
  obtain ⟨hsub, hlen, hdisk⟩ := evictOldest_spec h (hn.mono hin) hread hkeys hmax
  refine ⟨?_, fun r' hr' => ?_, diskMirrors_put hdisk hn (List.Subset.trans hsub hin) (by simp)⟩
  · have hput := Table.length_put_le (evictOldest env maxSize s keys).results r
    exact hput.trans hlen
  · rw [lastStored_of_some hc]
    obtain rfl | ⟨hr', hne⟩ := Table.mem_put.mp hr'
    · rw [if_pos rfl]
    · rw [if_neg hne]
      exact h.last r' (hsub hr')

/-- A call that stores nothing leaves some of the results. -/
theorem Mirrored.fewer (h : Mirrored env maxSize calls s) (hc : c.stored env = none)
    (hsub : t.results.rows ⊆ s.results.rows) (hdisk : DiskMirrors env t) :
    Mirrored env maxSize (calls ++ [c]) t :=
  ⟨((t.results.nodup.of_map.subperm hsub).length_le).trans h.size,
    fun r hr => (lastStored_of_none hc r.taskId).trans (h.last r (hsub hr)), hdisk⟩

theorem mirrored_step (h : Mirrored env maxSize calls s)
    (hn : DistinctNames (storedResults env (calls ++ [c])))
    (hread : ∀ r ∈ storedResults env (calls ++ [c]), env.Reads r)
    (hroom : hasRoom env maxSize s c = true) (ht : step env maxSize s c = some t) :
    Mirrored env maxSize (calls ++ [c]) t := by
  have hin : s.results.rows ⊆ storedResults env (calls ++ [c]) := fun r hr => by
    rw [storedResults, List.filterMap_append]
    exact List.mem_append_left _ (h.stored hr)
  have hreads (r : TaskResult) (hr : r ∈ s.results.rows) : env.Reads r := hread r (hin hr)
  obtain ⟨r, keys, hc, hkeys, rfl⟩ | ⟨hc, hquiet⟩ := step_cases ht
  · simp only [hasRoom, hc, Option.all_some, Bool.and_eq_true, decide_eq_true_eq] at hroom
    exact h.store hc hn hreads hkeys hroom.1
  · obtain ⟨id, -, rfl⟩ | ⟨maxAge, now, -, rfl⟩ | ⟨-, rfl⟩ := hquiet
    · obtain he | ⟨r, hr, he⟩ := remove_cases s id
      · rw [he]
        exact h.fewer hc (fun r hr => hr) h.disk
      · rw [he]
        exact h.fewer hc (fun r' hr' => (Table.mem_delete.mp hr').1)
          (diskMirrors_erase h.disk hn hin (hin hr))
    · exact h.fewer hc (fun r hr => (Table.mem_delete.mp hr).1)
        (diskMirrors_sweep h.disk hreads maxAge now)
    · obtain ⟨hrows, hdisk, -⟩ := restarted_spec h.disk hreads (hn.mono hin) h.size
      exact h.fewer hc (fun r hr => ((hrows r).mp hr).1) hdisk

end Steps

theorem mirrored_run {env : Env} {maxSize : Nat} {calls : List Call} {s : Store}
    (hn : DistinctNames (storedResults env calls))
    (hread : ∀ r ∈ storedResults env calls, env.Reads r)
    (hok : Along (step env maxSize) (fun s c => hasRoom env maxSize s c = true) emptyStore calls)
    (hrun : run (step env maxSize) emptyStore calls = some s) :
    Mirrored env maxSize calls s := by
  have hstep (past : List Call) (s : Store) (c : Call) (t : Store)
      (h : DistinctNames (storedResults env past) →
        (∀ r ∈ storedResults env past, env.Reads r) → Mirrored env maxSize past s)
      (hroom : hasRoom env maxSize s c = true) (ht : step env maxSize s c = some t)
      (hn : DistinctNames (storedResults env (past ++ [c])))
      (hread : ∀ r ∈ storedResults env (past ++ [c]), env.Reads r) :
      Mirrored env maxSize (past ++ [c]) t := by
    have hsub : storedResults env past ⊆ storedResults env (past ++ [c]) := fun r hr => by
      rw [storedResults, List.filterMap_append]
      exact List.mem_append_left _ hr
    exact mirrored_step (h (hn.mono hsub) fun r hr => hread r (hsub hr)) hn hread hroom ht
  have hstart : Mirrored env maxSize [] emptyStore :=
    ⟨Nat.zero_le _, fun r hr => absurd hr List.not_mem_nil,
      fun f => by simp [emptyStore, Table.empty]⟩
  have hend := run_history hstep (fun _ _ => hstart) hok hrun
  exact hend hn hread

section Law
variable {env : Env} {maxSize : Nat} {calls : List Call} {c : Call} {s t : Store}

theorem get_put (m : Store) (r : TaskResult) (id : Text) :
    (putResult env m r).get id = if id = r.taskId then some r else m.get id :=
  Table.find_put m.results r id

theorem get_erase (s : Store) (k id : Text) :
    (eraseResult s k).get id = if id = k then none else s.get id :=
  Table.find_delete_key s.results k id

theorem get_of_rows {p : TaskResult → Bool}
    (h : ∀ r, r ∈ t.results.rows ↔ r ∈ s.results.rows ∧ p r = true) (id : Text) :
    t.get id = (s.get id).filter p := by
  have hdel : t.results.find id = (s.results.delete fun r => !p r).find id := by
    cases hf : (s.results.delete fun r => !p r).find id with
    | none =>
      rw [Table.find_eq_none_iff] at hf ⊢
      exact fun r hr => hf r (Table.mem_delete.mpr (by simpa using (h r).mp hr))
    | some r =>
      obtain ⟨hr, hid⟩ := Table.find_eq_some_iff.mp hf
      exact Table.find_eq_some_iff.mpr ⟨(h r).mpr (by simpa using Table.mem_delete.mp hr), hid⟩
  rw [Store.get, hdel, Table.find_delete]
  simp only [Bool.not_not]
  rfl

/-- What a store with room does to the other results. -/
theorem store_others (hread : ∀ r ∈ s.results.rows, env.Reads r) {r : TaskResult}
    {keys : List Text} (hkeys : keys.Perm (s.results.rows.map TaskResult.taskId))
    {id : Text} (hid : id ≠ r.taskId) :
    (putResult env (evictOldest env maxSize s keys) r).get id = s.get id ∨
      oldestStoredKey env s.results keys = some id ∧ maxSize ≤ s.len ∧
        ∃ old, s.get id = some old ∧ Oldest env s old ∧
          (putResult env (evictOldest env maxSize s keys) r).get id = none := by
  rw [get_put, if_neg hid]
  obtain ⟨-, he⟩ | ⟨old, hold, hfull, hkey, holdest, he⟩ :=
    evictOldest_cases maxSize hread hkeys
  · exact .inl (by rw [he])
  · rw [he, get_erase]
    by_cases hk : id = old.taskId
    · subst hk
      exact .inr ⟨hkey, hfull, old, Table.find_of_mem hold, holdest, if_pos rfl⟩
    · exact .inl (if_neg hk)

theorem keeps_of_room (h : Mirrored env maxSize calls s)
    (hn : DistinctNames (storedResults env (calls ++ [c])))
    (hread : ∀ r ∈ storedResults env (calls ++ [c]), env.Reads r)
    (hroom : hasRoom env maxSize s c = true) (ht : step env maxSize s c = some t) :
    Keeps env maxSize calls c s t := by
  have hnext := mirrored_step h hn hread hroom ht
  have hin : s.results.rows ⊆ storedResults env (calls ++ [c]) := fun r hr => by
    rw [storedResults, List.filterMap_append]
    exact List.mem_append_left _ (h.stored hr)
  have hreads (r : TaskResult) (hr : r ∈ s.results.rows) : env.Reads r := hread r (hin hr)
  have hlast (id : Text) (r : TaskResult) (hr : t.get id = some r) :
      lastStored env (calls ++ [c]) id = some r := by
    obtain ⟨hmem, rfl⟩ := Table.find_eq_some_iff.mp hr
    exact hnext.last r hmem
  obtain ⟨r, keys, hc, hkeys, rfl⟩ | ⟨hc, hquiet⟩ := step_cases ht
  · simp only [hasRoom, hc, Option.all_some, Bool.and_eq_true, Bool.or_eq_true,
      decide_eq_true_eq, Option.isNone_iff_eq_none] at hroom
    refine ⟨hnext.size, hlast, fun r' keys' hc' hpresent id hid => ?_,
      fun r' keys' hc' id hid old hold => ?_, fun he => ?_⟩
    · obtain ⟨rfl, rfl⟩ := Prod.mk.inj (Option.some.inj (hc.symm.trans hc'))
      obtain hkept | ⟨hkey, hfull, -⟩ := store_others hreads hkeys hid
      · exact hkept
      · obtain (hnone | hspace) | hown := hroom.2
        · rw [hnone] at hpresent
          cases hpresent
        · omega
        · exact absurd (Option.some.inj (hkey.symm.trans hown)) hid
    · obtain ⟨rfl, rfl⟩ := Prod.mk.inj (Option.some.inj (hc.symm.trans hc'))
      obtain hkept | ⟨-, hfull, old', hold', holdest, -⟩ := store_others hreads hkeys hid
      · exact .inl (hkept.trans hold)
      · obtain rfl : old = old' := Option.some.inj (hold.symm.trans hold')
        exact .inr ⟨hfull, holdest⟩
    · rw [he] at hc
      cases hc
  · refine ⟨hnext.size, hlast, fun r keys hc' => ?_, fun r keys hc' => ?_, fun he => ?_⟩
    · rw [hc] at hc'
      cases hc'
    · rw [hc] at hc'
      cases hc'
    · obtain ⟨id, hne, -⟩ | ⟨maxAge, now, hne, -⟩ | ⟨-, rfl⟩ := hquiet
      · rw [he] at hne
        cases hne
      · rw [he] at hne
        cases hne
      · have hrows := (restarted_spec h.disk hreads (hn.mono hin) h.size).1
        exact get_of_rows fun r => by simpa using hrows r

theorem room_of_keeps (hread : ∀ r ∈ s.results.rows, env.Reads r)
    (ht : step env maxSize s c = some t) (hk : Keeps env maxSize calls c s t) :
    hasRoom env maxSize s c = true := by
  obtain ⟨r, keys, hc, hkeys, rfl⟩ | ⟨hc, -⟩ := step_cases ht
  · simp only [hasRoom, hc, Option.all_some, Bool.and_eq_true, Bool.or_eq_true,
      decide_eq_true_eq, Option.isNone_iff_eq_none]
    have hmem : r ∈ (putResult env (evictOldest env maxSize s keys) r).results.rows :=
      Table.mem_put.mpr (.inl rfl)
    have hpos := (List.length_pos_of_mem hmem).trans_le hk.size
    refine ⟨hpos, ?_⟩
    by_contra hno
    simp only [not_or] at hno
    obtain ⟨⟨hpresent, hfull⟩, hother⟩ := hno
    obtain ⟨hlen, -⟩ | ⟨old, hold, -, hkey, -, he⟩ :=
      evictOldest_cases maxSize hread hkeys
    · omega
    · have hid : old.taskId ≠ r.taskId := fun h => hother (h ▸ hkey)
      have hsame := hk.present r keys hc (Option.isSome_iff_ne_none.mpr hpresent) _ hid
      rw [get_put, if_neg hid, he, get_erase, if_pos rfl] at hsame
      have hfind : s.get old.taskId = some old := Table.find_of_mem hold
      rw [hfind] at hsame
      cases hsame
  · rw [hasRoom, hc]
    rfl

end Law

/-- After calls that had room, a call keeps what is not delivered just if it has room. -/
theorem keeps_undelivered (env : Env) {maxSize : Nat} {calls : List Call} {c : Call}
    {s t : Store} (hn : DistinctNames (storedResults env (calls ++ [c])))
    (hread : ∀ r ∈ storedResults env (calls ++ [c]), env.Reads r)
    (hok : Along (step env maxSize) (fun s c => hasRoom env maxSize s c = true) emptyStore calls)
    (hrun : run (step env maxSize) emptyStore calls = some s)
    (ht : step env maxSize s c = some t) :
    Keeps env maxSize calls c s t ↔ hasRoom env maxSize s c = true := by
  have hsub : storedResults env calls ⊆ storedResults env (calls ++ [c]) := fun r hr => by
    rw [storedResults, List.filterMap_append]
    exact List.mem_append_left _ hr
  have h := mirrored_run (hn.mono hsub) (fun r hr => hread r (hsub hr)) hok hrun
  exact ⟨room_of_keeps (fun r hr => hread r (hsub (h.stored hr))) ht,
    fun hroom => keeps_of_room h hn hread hroom ht⟩

def timeText (n : Int) : Text :=
  "2026-11-06T12:00:0".toList ++ Nat.toDigits 10 (n / 1000000000).toNat ++ "+00:00".toList

/-- The pretty text of a result that is a number. -/
def prettyText (r : TaskResult) : Text :=
  "\x7b\n  \"task_id\": ".toList ++ quoted r.taskId ++ ",\n  \"action\": ".toList ++
    quoted r.action ++ ",\n  \"result\": ".toList ++ r.result.render ++
    ",\n  \"success\": ".toList ++ (Json.bool r.success).render ++
    ",\n  \"stored_at\": ".toList ++ quoted r.storedAt ++ "\n\x7d".toList

def chatCall (id : Text) (n : Nat) (keys : List Text) : Call :=
  .storeSuccess id "peer_chat".toList (.num (Nat.toDigits 10 n)) (n * 1000000000) keys

def chatResult (id : Text) (n : Nat) : TaskResult :=
  ⟨id, "peer_chat".toList, .num (Nat.toDigits 10 n), true, timeText (n * 1000000000)⟩

def chatEnv : Env where
  clock :=
    { toRfc3339 := timeText
      parseFromRfc3339 := fun text =>
        ((List.range 10).map fun k => (k * 1000000000 : Int)).find? fun n => timeText n = text }
  toStringPretty := prettyText
  fromStr := fun text =>
    [chatResult ['a'] 1, chatResult ['b'] 2, chatResult ['b'] 3, chatResult ['a'] 3,
      chatResult ['c'] 4].find? fun r => prettyText r = text

theorem chatEnv_reads :
    ∀ r ∈ [chatResult ['a'] 1, chatResult ['b'] 2, chatResult ['b'] 3, chatResult ['a'] 3,
      chatResult ['c'] 4], chatEnv.Reads r := by
  simp only [List.forall_mem_cons, List.not_mem_nil, false_implies, implies_true, and_true]
  exact ⟨⟨rfl, rfl⟩, ⟨rfl, rfl⟩, ⟨rfl, rfl⟩, ⟨rfl, rfl⟩, ⟨rfl, rfl⟩⟩

/-- The older of two results is stored again, so that the other is the older one then. -/
def chatCalls : List Call :=
  [chatCall ['a'] 1 [], chatCall ['b'] 2 [['a']], chatCall ['a'] 3 [['b'], ['a']]]

def chatStore : Store := (run (step chatEnv 2) emptyStore chatCalls).get (by decide)

def chatEnd : Store :=
  (step chatEnv 2 chatStore (chatCall ['c'] 4 [['a'], ['b']])).get (by decide)

theorem keeps_undelivered_chat :
    (chatEnd.get ['a']).isSome ∧ chatEnd.get ['b'] = none ∧ (chatEnd.get ['c']).isSome ∧
      Keeps chatEnv 2 chatCalls (chatCall ['c'] 4 [['a'], ['b']]) chatStore chatEnd := by
  have hread : ∀ r ∈ storedResults chatEnv (chatCalls ++ [chatCall ['c'] 4 [['a'], ['b']]]),
      chatEnv.Reads r := by
    have hlist : storedResults chatEnv (chatCalls ++ [chatCall ['c'] 4 [['a'], ['b']]]) =
        [chatResult ['a'] 1, chatResult ['b'] 2, chatResult ['a'] 3, chatResult ['c'] 4] := rfl
    rw [hlist]
    exact fun r hr => chatEnv_reads r (by simp only [List.mem_cons] at hr ⊢; tauto)
  have hrun : run (step chatEnv 2) emptyStore chatCalls = some chatStore :=
    (Option.some_get _).symm
  have hstep : step chatEnv 2 chatStore (chatCall ['c'] 4 [['a'], ['b']]) = some chatEnd :=
    (Option.some_get _).symm
  exact ⟨by decide, by decide, by decide,
    (keeps_undelivered chatEnv (by decide) hread (by decide) hrun hstep).mpr (by decide)⟩

/-- The newer result comes again, and the other one has to go. -/
theorem stored_again_evicts :
    ¬ ∀ (calls : List Call) (c : Call) (s t : Store),
      DistinctNames (storedResults chatEnv (calls ++ [c])) →
      (∀ r ∈ storedResults chatEnv (calls ++ [c]), chatEnv.Reads r) →
      run (step chatEnv 2) emptyStore calls = some s → step chatEnv 2 s c = some t →
      Keeps chatEnv 2 calls c s t := by
  intro h
  have hkeeps := h [chatCall ['a'] 1 [], chatCall ['b'] 2 [['a']]]
    (chatCall ['b'] 3 [['a'], ['b']]) _ _ (by decide)
    (fun r hr => chatEnv_reads r (List.mem_append_left [chatResult ['a'] 3, chatResult ['c'] 4] hr))
    rfl rfl
  have hgone := congrArg Option.isSome (hkeeps.present _ _ rfl rfl ['a'] (by decide))
  revert hgone
  decide

end NemesisBot.TaskResultStore

import NemesisBot.Cluster.Assembly
import NemesisBot.Lib.Runs

/-! The outbox: which directory of the task logs is packed for a task, and under which key. -/
namespace NemesisBot.Outbox
open Strings Transfer Runs

/-- A task's record among the logs; `records` is what the directory holds. -/
structure TaskDir (C : Type) where
  name : Text
  isDir : Bool
  records : C

structure Device (C : Type) where
  name : Text
  isDir : Bool
  dirs : List (TaskDir C)
  unique : (dirs.map TaskDir.name).Nodup

/-- A changeset directory on its way into the payload. -/
structure Changes (C : Type) where
  shown : Text
  manifest : Bool
  records : C

inductive EntryState where
  | pending
  | pushing
  | overLimit
  | dead
  deriving DecidableEq

/-- An entry and its payload, a copy of `source` with the changes beside it. -/
structure OutboxEntry (C : Type) where
  taskId : Text
  sourceNode : Text
  state : EntryState
  totalBytes : Nat
  source : TaskDir C
  changes : Option (Changes C)

/-- The logs by device, in the order the system lists them, and the entries by directory name. -/
structure State (C : Type) where
  logs : List (Device C)
  entries : Text → Option (OutboxEntry C)

inductive PullStatus where
  | queued
  | noArchive
  | assembling
  | dead
  | overLimit
  deriving DecidableEq

def taskDirTsPrefix : Nat := 24

def taskDirMatches (dirName taskId : Text) : Bool :=
  ('_' :: taskId).isSuffixOf dirName || ('_' :: sanitizeTransferId taskId).isSuffixOf dirName

def utf8 (s : Text) : List UInt8 := s.flatMap String.utf8EncodeChar

/-- `none` is an index out of bounds or a cut inside a character. -/
def deriveTaskIdFromDir (dirName : Text) : Option (Option Text) :=
  if taskDirTsPrefix < byteLen dirName then
    match (utf8 dirName)[taskDirTsPrefix - 1]? with
    | none => none
    | some b =>
      if b = 0x5f then (sliceFrom taskDirTsPrefix dirName).map some else some none
  else some none

section
variable {C : Type}

/-- The loop of `find_task_dir`, with the best name so far. -/
def findTaskDir (dirs : List (TaskDir C)) (taskId : Text) : Option (TaskDir C) :=
  dirs.foldl (fun best d =>
    if d.isDir && taskDirMatches d.name taskId then match best with
      | some b => if b.name < d.name then some d else best
      | none => some d
    else best) none

def State.device (s : State C) (source : Text) : List (TaskDir C) :=
  match s.logs.find? fun dev => dev.isDir && dev.name = sanitizeTransferId source with
  | some dev => dev.dirs
  | none => []

def State.store (s : State C) (key : Text) (e : Option (OutboxEntry C)) : State C :=
  { s with entries := fun k => if k = key then e else s.entries k }

/-- `measure` is the size of the payload, or what is wrong with its files. -/
def enqueueWithChangeset (measure : C → Option (Changes C) → Except Text Nat) (s : State C)
    (taskId sourceNode : Text) (changes : Option (Changes C)) : Except Text Unit × State C :=
  if taskId = [] ∨ sourceNode = [] then (.error "task_id/source_node 为空，无法入队".toList, s)
  else match changes.filter fun cs => !cs.manifest with
  | some cs => (.error ("变更集清单缺失（".toList ++ cs.shown ++ "）——半套变更集不入队".toList), s)
  | none => match s.entries (sanitizeTransferId taskId) with
    | some _ => (.ok (), s)
    | none => match findTaskDir (s.device sourceNode) taskId with
      | none => (.error ("cluster_logs 无该任务执行记录（".toList ++ sourceNode ++ "/…_".toList ++
          taskId ++ "）".toList), s)
      | some src => match measure src.records changes with
        | .error e => (.error e, s)
        | .ok total => (.ok (), s.store (sanitizeTransferId taskId)
            (some ⟨taskId, sourceNode, .pending, total, src, changes⟩))

def parkedState (s : State C) (taskId : Text) : Option PullStatus :=
  (s.entries (sanitizeTransferId taskId)).bind fun e => match e.state with
    | .dead => some .dead
    | .overLimit => some .overLimit
    | _ => none

/-- The device that a pull turns to. -/
def pullDevice (s : State C) (taskId : Text) : Option (Device C) :=
  s.logs.find? fun dev => dev.isDir && dev.dirs.any fun d =>
    d.isDir && taskDirMatches d.name taskId

/-- `assembling`: the baseline and the marker of an unfinished record are both there. -/
def requestPull (measure : C → Option (Changes C) → Except Text Nat) (s : State C)
    (taskId : Text) (assembling : Bool) : PullStatus × State C :=
  if taskId = [] then (.noArchive, s)
  else match parkedState s taskId with
  | some status => (status, s)
  | none =>
    if assembling then (.assembling, s)
    else match pullDevice s taskId with
    | none => (.noArchive, s)
    | some dev => match enqueueWithChangeset measure s taskId dev.name none with
      | (.ok _, s) => (.queued, s)
      | (.error _, s) => (.noArchive, s)

end

/-! Runs of an outbox. -/

/-- What happens: a task is enqueued or pulled, the push loop settles an entry (delivered and
gone, or in another state), the logs change. -/
inductive Act (C : Type) where
  | enqueue (taskId sourceNode : Text) (changes : Option (Changes C))
  | pull (taskId : Text) (assembling : Bool)
  | settle (key : Text) (result : Option EntryState)
  | relog (logs : List (Device C))

/-- The directory belongs to the task: a prefix of 23 bytes, `_` and the id. -/
def IsOf (taskId dirName : Text) : Prop :=
  ∃ ts, byteLen ts = taskDirTsPrefix - 1 ∧ dirName = ts ++ '_' :: taskId

section
variable {C : Type} (measure : C → Option (Changes C) → Except Text Nat)

def step (s : State C) : Act C → Option (State C)
  | .enqueue taskId sourceNode changes =>
    some (enqueueWithChangeset measure s taskId sourceNode changes).2
  | .pull taskId assembling => some (requestPull measure s taskId assembling).2
  | .settle key result => some (s.store key (match s.entries key, result with
    | some e, some state => some { e with state }
    | _, _ => none))
  | .relog logs => some { s with logs }

/-- The entry stored for the task is a copy of a directory of its own, and no other task's
entry stands in the same place. -/
structure Shipped (s : State C) (taskId : Text) : Prop where
  own : ∃ e, s.entries (sanitizeTransferId taskId) = some e ∧ IsOf taskId e.source.name
  apart : ∀ other e, s.entries (sanitizeTransferId other) = some e → IsOf other e.source.name →
    other ≠ taskId → sanitizeTransferId other ≠ sanitizeTransferId taskId

/-- Where the answer is ok, the task's own records are on their way. -/
def Ships (s : State C) : Act C → Prop
  | .enqueue taskId sourceNode changes =>
    (enqueueWithChangeset measure s taskId sourceNode changes).1 = .ok () →
      Shipped (enqueueWithChangeset measure s taskId sourceNode changes).2 taskId
  | .pull taskId assembling => (requestPull measure s taskId assembling).1 = .queued →
      Shipped (requestPull measure s taskId assembling).2 taskId
  | _ => True

/-- The entry that stands under the key is the task's; where none stands, every directory of
another task that the lookup takes for the task's, and that can be packed, is older than some
directory it takes. -/
structure Clear (s : State C) (taskId sourceNode : Text) (changes : Option (Changes C)) :
    Prop where
  held : ∀ e, s.entries (sanitizeTransferId taskId) = some e → e.taskId = taskId
  newest : s.entries (sanitizeTransferId taskId) = none → ∀ d ∈ s.device sourceNode, d.isDir →
    taskDirMatches d.name taskId → (∃ total, measure d.records changes = .ok total) →
    ¬ IsOf taskId d.name →
    ∃ d' ∈ s.device sourceNode, d'.isDir ∧ taskDirMatches d'.name taskId ∧ d.name < d'.name

/-- A request that is refused for its arguments asks for nothing. -/
def Meets (s : State C) : Act C → Prop
  | .enqueue taskId sourceNode changes => taskId ≠ [] → sourceNode ≠ [] →
      (∀ cs, changes = some cs → cs.manifest = true) → Clear measure s taskId sourceNode changes
  | .pull taskId assembling => taskId ≠ [] → parkedState s taskId = none → assembling = false →
      ∀ dev, pullDevice s taskId = some dev → dev.name ≠ [] → Clear measure s taskId dev.name none
  | _ => True

end

/-! Names. -/

theorem slice_of_isOf {taskId dirName : Text} (h : IsOf taskId dirName) :
    sliceFrom taskDirTsPrefix dirName = some taskId := by
  obtain ⟨ts, hlen, rfl⟩ := h
  refine sliceFrom_eq_some_iff.mpr ⟨ts ++ ['_'], by rw [List.append_assoc]; rfl, ?_⟩
  rw [byteLen_append, hlen]
  rfl

/-- A directory belongs to one task. -/
theorem isOf_unique {t u dirName : Text} (ht : IsOf t dirName) (hu : IsOf u dirName) : t = u :=
  Option.some.inj ((slice_of_isOf ht).symm.trans (slice_of_isOf hu))

theorem matches_of_isOf {taskId dirName : Text} (h : IsOf taskId dirName) :
    taskDirMatches dirName taskId = true := by
  obtain ⟨ts, -, rfl⟩ := h
  have hsuffix : ('_' :: taskId).isSuffixOf (ts ++ '_' :: taskId) = true :=
    List.isSuffixOf_iff_suffix.mpr (List.suffix_append ts _)
  rw [taskDirMatches, hsuffix, Bool.true_or]

/-- The mark of a longer encoding keeps a byte from being an underscore. -/
theorem or_ne_underscore (b mark : UInt8) (hmark : 0x80 ≤ mark.toNat) : b ||| mark ≠ 0x5f := by
  intro h
  have hval : b.toNat ||| mark.toNat = 0x5f := by
    rw [← UInt8.toNat_or, h]
    rfl
  have hle : mark.toNat ≤ b.toNat ||| mark.toNat := Nat.right_le_or
  omega

/-- An underscore among the bytes of a character is the whole character. -/
theorem underscore_alone {c : Char} {k : Nat} (h : (String.utf8EncodeChar c)[k]? = some 0x5f) :
    c = '_' ∧ k = 0 := by
  have hmem := List.mem_of_getElem? h
  obtain hsize | hsize | hsize | hsize := c.utf8Size_eq
  · rw [String.utf8EncodeChar_eq_singleton hsize] at h
    cases k with
    | succ k => cases h
    | zero =>
      refine ⟨?_, rfl⟩
      have hval := congrArg UInt8.toNat (Option.some.inj h)
      have hlow := Char.utf8Size_eq_one_iff.mp hsize
      rw [UInt32.toNat_toUInt8] at hval
      refine Char.ext (UInt32.toNat_inj.mp ?_)
      have hle : c.val.toNat ≤ 127 := hlow
      have hconst : (0x5f : UInt8).toNat = 95 := rfl
      have hchar : '_'.val.toNat = 95 := rfl
      omega
  · rw [String.utf8EncodeChar_eq_cons_cons hsize] at hmem
    simp only [List.mem_cons, List.not_mem_nil, or_false] at hmem
    obtain he | he := hmem <;> exact absurd he.symm (or_ne_underscore _ _ (by decide))
  · rw [String.utf8EncodeChar_eq_cons_cons_cons hsize] at hmem
    simp only [List.mem_cons, List.not_mem_nil, or_false] at hmem
    obtain he | he | he := hmem <;> exact absurd he.symm (or_ne_underscore _ _ (by decide))
  · rw [String.utf8EncodeChar_eq_cons_cons_cons_cons hsize] at hmem
    simp only [List.mem_cons, List.not_mem_nil, or_false] at hmem
    obtain he | he | he | he := hmem <;> exact absurd he.symm (or_ne_underscore _ _ (by decide))

theorem length_utf8 (s : Text) : (utf8 s).length = byteLen s := by
  rw [utf8, byteLen, List.length_flatMap]
  congr 1
  exact List.map_congr_left fun c _ => String.length_utf8EncodeChar c

/-- Before and after the byte of an underscore the text can be cut. -/
theorem cut_at_underscore {s : Text} {k : Nat} (h : (utf8 s)[k]? = some 0x5f) :
    ∃ u v, s = u ++ '_' :: v ∧ byteLen u = k := by
  induction s generalizing k with
  | nil => cases h
  | cons c s ih =>
    rw [utf8, List.flatMap_cons, ← utf8] at h
    by_cases hk : k < c.utf8Size
    · rw [List.getElem?_append_left (by rw [String.length_utf8EncodeChar]; exact hk)] at h
      obtain ⟨rfl, rfl⟩ := underscore_alone h
      exact ⟨[], s, rfl, rfl⟩
    · rw [List.getElem?_append_right (by rw [String.length_utf8EncodeChar]; omega),
        String.length_utf8EncodeChar] at h
      obtain ⟨u, v, rfl, hu⟩ := ih h
      refine ⟨c :: u, v, rfl, ?_⟩
      rw [byteLen, List.map_cons, List.sum_cons, ← byteLen]
      omega

/-- No name makes the derivation panic. -/
theorem derive_total (dirName : Text) : ∃ r, deriveTaskIdFromDir dirName = some r := by
  rw [deriveTaskIdFromDir]
  split
  · rename_i hlen
    have hin : taskDirTsPrefix - 1 < (utf8 dirName).length := by
      rw [length_utf8]
      omega
    rw [List.getElem?_eq_getElem hin]
    simp only
    split
    · rename_i hb
      obtain ⟨u, v, hsplit, hu⟩ := cut_at_underscore (hb ▸ List.getElem?_eq_getElem hin)
      exact ⟨some v, by rw [slice_of_isOf ⟨u, hu, hsplit⟩]; rfl⟩
    · exact ⟨none, rfl⟩
  · exact ⟨none, rfl⟩

/-- A directory of a task gives its id back. -/
theorem derive_of_isOf {taskId dirName : Text} (hne : taskId ≠ []) (h : IsOf taskId dirName) :
    deriveTaskIdFromDir dirName = some (some taskId) := by
  have hslice := slice_of_isOf h
  obtain ⟨ts, hlen, rfl⟩ := h
  have hpos : 0 < byteLen taskId := by
    cases taskId with
    | nil => exact absurd rfl hne
    | cons c rest =>
      have hc := c.utf8Size_pos
      rw [byteLen, List.map_cons, List.sum_cons]
      omega
  have hlong : taskDirTsPrefix < byteLen (ts ++ '_' :: taskId) := by
    have hone : '_'.utf8Size = 1 := rfl
    rw [byteLen_append, hlen, byteLen, List.map_cons, List.sum_cons, ← byteLen, hone,
      taskDirTsPrefix]
    omega
  have hbyte : (utf8 (ts ++ '_' :: taskId))[taskDirTsPrefix - 1]? = some 0x5f := by
    rw [utf8, List.flatMap_append, ← utf8, List.getElem?_append_right (by rw [length_utf8, hlen]),
      length_utf8, hlen, Nat.sub_self]
    rfl
  rw [deriveTaskIdFromDir, if_pos hlong, hbyte]
  simp only [if_pos, hslice, Option.map_some]

/-! The lookup. -/

section
variable {C : Type} {dirs : List (TaskDir C)} {taskId : Text}

/-- A directory that the lookup takes for the task's. -/
def Accepted (taskId : Text) (d : TaskDir C) : Prop :=
  d.isDir = true ∧ taskDirMatches d.name taskId = true

/-- The lookup ends with the greatest of the names it takes. -/
theorem findTaskDir_spec (dirs : List (TaskDir C)) (taskId : Text) :
    (findTaskDir dirs taskId = none → ∀ d ∈ dirs, ¬ Accepted taskId d) ∧
    ∀ b, findTaskDir dirs taskId = some b → b ∈ dirs ∧ Accepted taskId b ∧
      ∀ d ∈ dirs, Accepted taskId d → ¬ b.name < d.name := by
  induction dirs using List.reverseRecOn with
  | nil => exact ⟨fun _ d hd => (List.not_mem_nil hd).elim, fun b hb => by cases hb⟩
  | append_singleton dirs d ih =>
    obtain ⟨hnone, hsome⟩ := ih
    rw [findTaskDir, List.foldl_append, ← findTaskDir, List.foldl_cons, List.foldl_nil]
    have hall {P : TaskDir C → Prop} (hold : ∀ d' ∈ dirs, P d') (hlast : P d) :
        ∀ d' ∈ dirs ++ [d], P d' := by
      intro d' hd'
      cases List.mem_append.mp hd' with
      | inl h => exact hold d' h
      | inr h => exact List.mem_singleton.mp h ▸ hlast
    split
    · rename_i hacc
      rw [Bool.and_eq_true] at hacc
      cases hbest : findTaskDir dirs taskId with
      | none =>
        refine ⟨nofun, fun b hb => ?_⟩
        obtain rfl := Option.some.inj hb
        exact ⟨List.mem_append_right _ (List.mem_singleton_self d), hacc,
          hall (fun d' hd' ha => absurd ha (hnone hbest d' hd')) fun _ => lt_irrefl _⟩
      | some best =>
        obtain ⟨hmem, haccepted, hmax⟩ := hsome best hbest
        simp only
        split
        · rename_i hlt
          refine ⟨nofun, fun b hb => ?_⟩
          obtain rfl := Option.some.inj hb
          refine ⟨List.mem_append_right _ (List.mem_singleton_self d), hacc,
            hall (fun d' hd' ha hd => ?_) fun _ => lt_irrefl _⟩
          exact hmax d' hd' ha (lt_trans hlt hd)
        · rename_i hlt
          refine ⟨nofun, fun b hb => ?_⟩
          obtain rfl := Option.some.inj hb
          exact ⟨List.mem_append_left _ hmem, haccepted, hall hmax fun _ => hlt⟩
    · rename_i hacc
      have hlast : ¬ Accepted taskId d := fun ha => hacc (Bool.and_eq_true_iff.mpr ha)
      refine ⟨fun hb => hall (hnone hb) hlast, fun b hb => ?_⟩
      obtain ⟨hmem, haccepted, hmax⟩ := hsome b hb
      exact ⟨List.mem_append_left _ hmem, haccepted, hall hmax fun ha => absurd ha hlast⟩

end

/-! One request. -/

section
variable {C : Type} {measure : C → Option (Changes C) → Except Text Nat} {s : State C}
  {taskId sourceNode : Text} {changes : Option (Changes C)}

/-- Every entry stands under its task's key and holds a directory of that task. -/
def Own (s : State C) : Prop := ∀ key e, s.entries key = some e →
  key = sanitizeTransferId e.taskId ∧ IsOf e.taskId e.source.name

theorem device_unique (s : State C) (source : Text) :
    ((s.device source).map TaskDir.name).Nodup := by
  rw [State.device]
  split
  · rename_i dev _
    exact dev.unique
  · exact List.nodup_nil

/-- Another task's entry in the same place would hold one directory of both. -/
theorem shipped_of_own
    (h : ∃ e, s.entries (sanitizeTransferId taskId) = some e ∧ IsOf taskId e.source.name) :
    Shipped s taskId := by
  refine ⟨h, fun other e he hof hne hkey => hne ?_⟩
  obtain ⟨e', he', hof'⟩ := h
  rw [hkey, he'] at he
  obtain rfl := Option.some.inj he
  exact isOf_unique hof hof'

/-- A request is refused, finds its entry, or packs what the lookup has found. -/
theorem enqueue_cases (measure : C → Option (Changes C) → Except Text Nat) (s : State C)
    (taskId sourceNode : Text) (changes : Option (Changes C)) :
    (∃ e, enqueueWithChangeset measure s taskId sourceNode changes = (.error e, s)) ∨
    (∃ e, s.entries (sanitizeTransferId taskId) = some e ∧
      enqueueWithChangeset measure s taskId sourceNode changes = (.ok (), s)) ∨
    ∃ src total, s.entries (sanitizeTransferId taskId) = none ∧
      findTaskDir (s.device sourceNode) taskId = some src ∧
      measure src.records changes = .ok total ∧
      enqueueWithChangeset measure s taskId sourceNode changes =
        (.ok (), s.store (sanitizeTransferId taskId)
          (some ⟨taskId, sourceNode, .pending, total, src, changes⟩)) := by
  simp only [enqueueWithChangeset]
  split
  · exact Or.inl ⟨_, rfl⟩
  split
  · exact Or.inl ⟨_, rfl⟩
  split
  · rename_i e he
    exact Or.inr (Or.inl ⟨e, he, rfl⟩)
  rename_i hnone
  split
  · exact Or.inl ⟨_, rfl⟩
  rename_i src hsrc
  split
  · exact Or.inl ⟨_, rfl⟩
  rename_i total htotal
  exact Or.inr (Or.inr ⟨src, total, hnone, hsrc, htotal, rfl⟩)

theorem store_same (s : State C) (key : Text) (e : Option (OutboxEntry C)) :
    (s.store key e).entries key = e := if_pos rfl

/-- What is asked of a request: its answer is ok only where the task's own records are there. -/
def Kept (measure : C → Option (Changes C) → Except Text Nat) (s : State C)
    (taskId sourceNode : Text) (changes : Option (Changes C)) : Prop :=
  (enqueueWithChangeset measure s taskId sourceNode changes).1 = .ok () →
    Shipped (enqueueWithChangeset measure s taskId sourceNode changes).2 taskId

theorem kept_of_clear (hown : Own s) (h : Clear measure s taskId sourceNode changes) :
    Kept measure s taskId sourceNode changes := by
  intro hok
  obtain ⟨e, he⟩ | ⟨e, hentry, he⟩ | ⟨src, total, hnone, hsrc, htotal, he⟩ :=
    enqueue_cases measure s taskId sourceNode changes
  · rw [he] at hok
    cases hok
  · rw [he]
    have htask := h.held e hentry
    exact shipped_of_own ⟨e, hentry, htask ▸ (hown _ e hentry).2⟩
  · obtain ⟨hmem, ⟨hdir, hmatch⟩, hmax⟩ := (findTaskDir_spec _ taskId).2 src hsrc
    have hof : IsOf taskId src.name := by
      by_contra hnot
      obtain ⟨d', hd', hdir', hmatch', hlt⟩ :=
        h.newest hnone src hmem hdir hmatch ⟨total, htotal⟩ hnot
      exact hmax d' hd' ⟨hdir', hmatch'⟩ hlt
    rw [he]
    exact shipped_of_own ⟨_, store_same s _ _, hof⟩

theorem clear_of_kept (hown : Own s) (htask : taskId ≠ []) (hsource : sourceNode ≠ [])
    (hchanges : ∀ cs, changes = some cs → cs.manifest = true)
    (h : Kept measure s taskId sourceNode changes) : Clear measure s taskId sourceNode changes := by
  have hfilter : (changes.filter fun cs => !cs.manifest) = none := by
    rw [Option.filter_eq_none_iff]
    intro cs hcs
    rw [hchanges cs hcs]
    decide
  rw [Kept, enqueueWithChangeset, if_neg (not_or.mpr ⟨htask, hsource⟩), hfilter] at h
  constructor
  · intro e he
    simp only [he] at h
    obtain ⟨e', he', hof⟩ := (h trivial).own
    obtain rfl := Option.some.inj (he.symm.trans he')
    exact isOf_unique (hown _ e he).2 hof
  · intro hnone d hd hdir hmatch hpacks hforeign
    by_contra hno
    push Not at hno
    simp only [hnone] at h
    cases hsrc : findTaskDir (s.device sourceNode) taskId with
    | none => exact (findTaskDir_spec _ taskId).1 hsrc d hd ⟨hdir, hmatch⟩
    | some src =>
      obtain ⟨hmem, ⟨hdir', hmatch'⟩, hmax⟩ := (findTaskDir_spec _ taskId).2 src hsrc
      have hname : d.name = src.name :=
        le_antisymm (not_lt.mp (hmax d hd ⟨hdir, hmatch⟩)) (hno src hmem hdir' hmatch')
      obtain rfl := List.inj_on_of_nodup_map (device_unique s sourceNode) hd hmem hname
      obtain ⟨total, htotal⟩ := hpacks
      simp only [hsrc, htotal] at h
      obtain ⟨e, he, hof⟩ := (h trivial).own
      rw [store_same] at he
      obtain rfl := Option.some.inj he
      exact hforeign hof

/-- What a request leaves in the outbox is in order if its answer was. -/
theorem enqueue_own (hown : Own s) (h : Kept measure s taskId sourceNode changes) :
    Own (enqueueWithChangeset measure s taskId sourceNode changes).2 := by
  obtain ⟨e, he⟩ | ⟨e, -, he⟩ | ⟨src, total, -, -, -, he⟩ :=
    enqueue_cases measure s taskId sourceNode changes
  · rwa [he]
  · rwa [he]
  · rw [Kept, he] at h
    obtain ⟨e, hentry, hof⟩ := (h rfl).own
    rw [store_same] at hentry
    obtain rfl := Option.some.inj hentry
    rw [he]
    intro key f hf
    by_cases hkey : key = sanitizeTransferId taskId
    · rw [hkey, store_same] at hf
      obtain rfl := Option.some.inj hf
      exact ⟨hkey, hof⟩
    · rw [State.store] at hf
      simp only [if_neg hkey] at hf
      exact hown key f hf

end

/-! One step, and a run of them. -/

section
variable {C : Type} {measure : C → Option (Changes C) → Except Text Nat} {s t : State C} {a : Act C}

/-- A pull that does not stop before is a request with the device it has found. -/
theorem requestPull_eq {taskId : Text} {dev : Device C} (htask : taskId ≠ [])
    (hparked : parkedState s taskId = none) (hdev : pullDevice s taskId = some dev) :
    requestPull measure s taskId false =
      (if (enqueueWithChangeset measure s taskId dev.name none).1 = .ok () then .queued
        else .noArchive, (enqueueWithChangeset measure s taskId dev.name none).2) := by
  rw [requestPull, if_neg htask, hparked]
  simp only [hdev]
  rw [if_neg Bool.false_ne_true]
  cases he : enqueueWithChangeset measure s taskId dev.name none with
  | mk result after =>
    cases result with
    | ok u => rfl
    | error e => rfl

theorem parkedState_ne_queued {taskId : Text} {status : PullStatus}
    (h : parkedState s taskId = some status) : status ≠ .queued := by
  obtain ⟨e, -, h⟩ := Option.bind_eq_some_iff.mp h
  cases hs : e.state <;> rw [hs] at h <;> cases h <;> exact nofun

theorem ships_pull_iff {taskId : Text} {assembling : Bool} (hown : Own s) :
    Ships measure s (.pull taskId assembling) ↔ Meets measure s (.pull taskId assembling) := by
  by_cases htask : taskId = []
  · refine iff_of_true (fun h => ?_) fun h => absurd htask h
    rw [requestPull, if_pos htask] at h
    cases h
  cases hparked : parkedState s taskId with
  | some status =>
    refine iff_of_true (fun h => ?_) fun _ h => by rw [hparked] at h; cases h
    rw [requestPull, if_neg htask, hparked] at h
    exact absurd h (parkedState_ne_queued hparked)
  | none =>
    cases assembling with
    | true =>
      refine iff_of_true (fun h => ?_) fun _ _ h => nomatch h
      rw [requestPull, if_neg htask, hparked] at h
      cases h
    | false =>
      cases hdev : pullDevice s taskId with
      | none =>
        refine iff_of_true (fun h => ?_) fun _ _ _ dev h => by rw [hdev] at h; cases h
        rw [requestPull, if_neg htask, hparked] at h
        simp only [hdev] at h
        cases h
      | some dev =>
        have hpull : Ships measure s (.pull taskId false) ↔
            Kept measure s taskId dev.name none := by
          rw [Ships, requestPull_eq htask hparked hdev, Kept]
          refine imp_congr_left ?_
          split
          · rename_i hok
            exact iff_of_true rfl hok
          · rename_i hok
            exact iff_of_false nofun hok
        rw [hpull]
        constructor
        · intro h _ _ _ other hother hname
          obtain rfl := Option.some.inj (hdev.symm.trans hother)
          exact clear_of_kept hown htask hname nofun h
        · intro h
          by_cases hname : dev.name = []
          · intro hok
            rw [enqueueWithChangeset, if_pos (Or.inr hname)] at hok
            cases hok
          · exact kept_of_clear hown (h htask hparked rfl dev hdev hname)

/-- A step ships its task's own records exactly where the condition holds before it. -/
theorem ships_iff_meets (hown : Own s) : Ships measure s a ↔ Meets measure s a := by
  cases a with
  | enqueue taskId sourceNode changes =>
    change Kept measure s taskId sourceNode changes ↔ _
    constructor
    · exact fun h htask hsource hchanges => clear_of_kept hown htask hsource hchanges h
    · intro h hok
      have hargs : taskId ≠ [] ∧ sourceNode ≠ [] ∧
          ∀ cs, changes = some cs → cs.manifest = true := by
        simp only [enqueueWithChangeset] at hok
        split at hok
        · cases hok
        rename_i hne
        split at hok
        · cases hok
        rename_i hfilter
        rw [Option.filter_eq_none_iff] at hfilter
        exact ⟨fun he => hne (Or.inl he), fun he => hne (Or.inr he),
          fun cs hcs => by simpa using hfilter cs hcs⟩
      exact kept_of_clear hown (h hargs.1 hargs.2.1 hargs.2.2) hok
  | pull taskId assembling => exact ships_pull_iff hown
  | settle key result => exact Iff.rfl
  | relog logs => exact Iff.rfl

theorem own_step (hown : Own s) (h : Ships measure s a) (hs : step measure s a = some t) :
    Own t := by
  cases a with
  | enqueue taskId sourceNode changes =>
    obtain rfl := Option.some.inj hs
    exact enqueue_own hown h
  | pull taskId assembling =>
    obtain rfl := Option.some.inj hs
    by_cases htask : taskId = []
    · rwa [requestPull, if_pos htask]
    cases hparked : parkedState s taskId with
    | some status => rwa [requestPull, if_neg htask, hparked]
    | none =>
      cases assembling with
      | true => rwa [requestPull, if_neg htask, hparked]
      | false =>
        cases hdev : pullDevice s taskId with
        | none =>
          rw [requestPull, if_neg htask, hparked]
          simp only [hdev]
          rwa [if_neg Bool.false_ne_true]
        | some dev =>
          rw [Ships, requestPull_eq htask hparked hdev] at h
          rw [requestPull_eq htask hparked hdev]
          refine enqueue_own hown fun hok => h ?_
          exact if_pos hok
  | settle key result =>
    obtain rfl := Option.some.inj hs
    intro k e he
    by_cases hk : k = key
    · rw [State.store] at he
      simp only [if_pos hk] at he
      cases hf : s.entries key with
      | none =>
        rw [hf] at he
        cases he
      | some f =>
        cases result with
        | none =>
          rw [hf] at he
          cases he
        | some state =>
          rw [hf] at he
          obtain rfl := Option.some.inj he
          exact hk ▸ hown key f hf
    · rw [State.store] at he
      simp only [if_neg hk] at he
      exact hown k e he
  | relog logs =>
    obtain rfl := Option.some.inj hs
    exact hown

/-- An outbox with nothing in it yet. -/
def State.init (logs : List (Device C)) : State C := ⟨logs, fun _ => none⟩

/-- Any logs, any requests and any time at which entries go. -/
theorem ships_own_iff (measure : C → Option (Changes C) → Except Text Nat)
    (logs : List (Device C)) (acts : List (Act C)) :
    (Along (step measure) (Ships measure) (State.init logs) acts ↔
      Along (step measure) (Meets measure) (State.init logs) acts) ∧
    (∀ dirName, ∃ r, deriveTaskIdFromDir dirName = some r) ∧
    ∀ taskId dirName, taskId ≠ [] → IsOf taskId dirName →
      deriveTaskIdFromDir dirName = some (some taskId) := by
  refine ⟨?_, derive_total, fun taskId dirName => derive_of_isOf⟩
  have hrun : ∀ s : State C, Own s → (Along (step measure) (Ships measure) s acts ↔
      Along (step measure) (Meets measure) s acts) := by
    induction acts with
    | nil => exact fun s _ => Iff.rfl
    | cons a acts ih =>
      intro s hown
      have hfirst := @ships_iff_meets C measure s a hown
      constructor
      · rintro ⟨hs, hrest⟩
        exact ⟨hfirst.mp hs, fun t ht => (ih t (own_step hown hs ht)).mp (hrest t ht)⟩
      · rintro ⟨hm, hrest⟩
        have hs := hfirst.mpr hm
        exact ⟨hs, fun t ht => (ih t (own_step hown hs ht)).mpr (hrest t ht)⟩
  exact hrun _ fun key e he => nomatch he

end

/-- A record of the task `a_b`. -/
def twoPartDir : TaskDir Unit := ⟨"2026-11-06_12-00-00-123_a_b".toList, true, ()⟩

/-- The task `b` is answered with the records of `a_b`. -/
theorem ships_not : ¬ Along (step fun _ _ => .ok 0) (Ships fun _ _ => .ok 0)
    (State.init [⟨"node".toList, true, [twoPartDir], by decide⟩])
    [.enqueue "b".toList "node".toList none] := by
  rintro ⟨hs, -⟩
  obtain ⟨e, he, hof⟩ := (hs (by decide +kernel)).own
  have hsource : e.source = twoPartDir := by
    have hentry : ((enqueueWithChangeset (fun _ _ => .ok 0) (State.init
        [⟨"node".toList, true, [twoPartDir], by decide⟩]) "b".toList "node".toList none).2.entries
        (sanitizeTransferId "b".toList)).map OutboxEntry.source = some twoPartDir := rfl
    rw [he] at hentry
    exact Option.some.inj hentry
  have hslice := slice_of_isOf hof
  rw [hsource] at hslice
  exact absurd hslice (by decide)

end NemesisBot.Outbox

import NemesisBot.Lib.Runs
import NemesisBot.Lib.Strings

/-! Checkpoints in JSON mode: turns of several sessions declare the files they change, and a
rewind restores the first snapshot of each file. -/
namespace NemesisBot.CodeRewind
open Strings Runs

abbrev Files := Text → Option ByteArray

/-- The session key of a turn; turns without one share a bucket. -/
abbrev Bucket := Option Text

inductive FileChangeKind where
  | create
  | modify
  | delete
  deriving DecidableEq, Repr

structure FileSnap where
  path : Text
  content : Option String
  deriving DecidableEq

structure Checkpoint where
  turn : Nat
  files : List FileSnap
  paths : List Text
  session : Bucket
  deriving DecidableEq

/-- The index, and the files with what they were when each turn began. -/
structure State where
  files : Files
  done : List Checkpoint
  cur : List (Bucket × Checkpoint)
  seen : Bucket → List Text
  begun : List (Nat × Files)

inductive Label where
  | begin (turn : Nat) (session : Bucket)
  | snapshot (session : Bucket) (path : Text) (kind : FileChangeKind) (readable : Bool)
  | write (session : Bucket) (path : Text) (content : Option ByteArray)

def safePath (p : Text) : Option Text := if "..".toList <:+: p then none else some p

/-- `read_to_string(..).ok()`: nothing for bytes that are no text. -/
def readToString (files : Files) (p : Text) (readable : Bool) : Option String :=
  if readable then (files p).bind String.fromUTF8? else none

def State.all (s : State) : List Checkpoint := s.done ++ s.cur.map Prod.snd

def beginForSession (s : State) (turn : Nat) (session : Bucket) : State :=
  { s with
    done := s.done ++ (s.cur.filter (·.1 = session)).map Prod.snd
    cur := s.cur.filter (·.1 ≠ session) ++ [(session, ⟨turn, [], [], session⟩)]
    seen := Function.update s.seen session []
    begun := s.begun ++ [(turn, s.files)] }

def snapshotContent (s : State) (path : Text) (kind : FileChangeKind) (readable : Bool) :
    Option String :=
  if kind = .create then none
  else (safePath path).bind fun p => readToString s.files p readable

def Checkpoint.declare (cp : Checkpoint) (snap : FileSnap) : Checkpoint :=
  { cp with files := cp.files ++ [snap], paths := cp.paths ++ [snap.path] }

def declareIn (session : Bucket) (snap : FileSnap) (q : Bucket × Checkpoint) :
    Bucket × Checkpoint :=
  if q.1 = session then (q.1, q.2.declare snap) else q

def snapshotForSession (s : State) (session : Bucket) (path : Text) (kind : FileChangeKind)
    (readable : Bool) : State :=
  if path = [] then s
  else match s.cur.lookup session with
  | none => s
  | some _ =>
    if path ∈ s.seen session then s
    else
      { s with
        cur := s.cur.map (declareIn session ⟨path, snapshotContent s path kind readable⟩)
        seen := Function.update s.seen session (path :: s.seen session) }

/-- The paths that the session's running turn has declared. -/
def State.declared (s : State) (session : Bucket) : List Text :=
  match s.cur.lookup session with
  | some cp => cp.paths
  | none => []

/-- A snapshot names the kind that fits the file, and only declared files are changed. -/
def step (s : State) : Label → Option State
  | .begin turn session => some (beginForSession s turn session)
  | .snapshot session path kind readable =>
    if kind = .create ↔ s.files path = none then
      some (snapshotForSession s session path kind readable)
    else none
  | .write session path content =>
    if path ∈ s.declared session then
      some { s with files := Function.update s.files path content }
    else none

/-- `hybrid` of `restore_code`: the first snapshot of each path. -/
def firstsFrom (acc : List FileSnap) : List FileSnap → List FileSnap
  | [] => acc
  | f :: rest => firstsFrom (if acc.any (·.path = f.path) then acc else acc ++ [f]) rest

def hybrid (s : State) (fromTurn : Nat) : List FileSnap :=
  firstsFrom [] (((s.all.mergeSort (·.turn ≤ ·.turn)).filter (fromTurn ≤ ·.turn)).flatMap (·.files))

def hybridRestore (files : Files) (snaps : List FileSnap) : Files :=
  snaps.foldl (fun files f => match safePath f.path with
    | none => files
    | some p => Function.update files p (f.content.map String.toUTF8)) files

def restoreCode (s : State) (fromTurn : Nat) : Files :=
  hybridRestore s.files (hybrid s fromTurn)

/-- Every turn can be rewound: each path declared since has its contents of then. -/
def Restores (s : State) : Prop :=
  ∀ b ∈ s.begun, ∀ c ∈ s.all, b.1 ≤ c.turn → ∀ p ∈ c.paths, restoreCode s b.1 p = b.2 p

/-! Which snapshot a rewind uses. -/

theorem find_firsts (acc snaps : List FileSnap) (p : Text) :
    (firstsFrom acc snaps).find? (·.path = p) =
      (acc.find? (·.path = p)).or (snaps.find? (·.path = p)) := by
  induction snaps generalizing acc with
  | nil => simp [firstsFrom]
  | cons f snaps ih =>
    rw [firstsFrom, ih]
    by_cases hf : acc.any (·.path = f.path) = true
    · rw [if_pos hf]
      by_cases hp : f.path = p
      · subst hp
        have hsome : (acc.find? (·.path = f.path)).isSome := by simpa using hf
        obtain ⟨g, hg⟩ := Option.isSome_iff_exists.mp hsome
        simp [hg]
      · simp [hp]
    · rw [if_neg hf, List.find?_append, Option.or_assoc]
      by_cases hp : f.path = p <;> simp [hp]

theorem firsts_nodup (acc snaps : List FileSnap) (h : (acc.map (·.path)).Nodup) :
    ((firstsFrom acc snaps).map (·.path)).Nodup := by
  induction snaps generalizing acc with
  | nil => exact h
  | cons f snaps ih =>
    apply ih
    by_cases hf : acc.any (·.path = f.path) = true
    · rwa [if_pos hf]
    · rw [if_neg hf, List.map_append, List.map_singleton]
      apply List.nodup_append_comm.mp
      simpa [h] using hf

/-- Each path gets the contents of its only snapshot in the list. -/
theorem hybridRestore_apply (files : Files) (snaps : List FileSnap) (p : Text)
    (hn : (snaps.map (·.path)).Nodup) (hp : safePath p = some p) :
    hybridRestore files snaps p = match snaps.find? (·.path = p) with
      | none => files p
      | some f => f.content.map String.toUTF8 := by
  induction snaps generalizing files with
  | nil => rfl
  | cons f snaps ih =>
    rw [List.map_cons, List.nodup_cons] at hn
    have hstep : hybridRestore files (f :: snaps) = hybridRestore (match safePath f.path with
        | none => files
        | some p => Function.update files p (f.content.map String.toUTF8)) snaps := rfl
    rw [hstep, ih _ hn.2]
    by_cases hf : f.path = p
    · subst hf
      have hnone : snaps.find? (·.path = f.path) = none := by
        apply List.find?_eq_none.mpr
        intro g hg hgp
        exact hn.1 (List.mem_map.mpr ⟨g, hg, of_decide_eq_true hgp⟩)
      simp [hnone, hp]
    · have hother : (match safePath f.path with
          | none => files
          | some p => Function.update files p (f.content.map String.toUTF8)) p = files p := by
        cases hs : safePath f.path with
        | none => rfl
        | some q =>
          have hq : q = f.path := by
            unfold safePath at hs
            split at hs
            · cases hs
            · exact (Option.some.inj hs).symm
          have hne : p ≠ q := fun h => hf (hq.symm.trans h.symm)
          simp [Function.update_of_ne hne]
      simp [hf, hother]

/-- The snapshot used for a path is that of the lowest turn which declared it. -/
theorem find_of_sorted {cps : List Checkpoint} {p : Text}
    (hs : cps.Pairwise fun a b => a.turn ≤ b.turn)
    (hp : ∃ c ∈ cps, ∃ f ∈ c.files, f.path = p) :
    ∃ f c, (cps.flatMap (·.files)).find? (·.path = p) = some f ∧ f.path = p ∧ c ∈ cps ∧
      f ∈ c.files ∧ ∀ c' ∈ cps, c'.turn < c.turn → ∀ g ∈ c'.files, g.path ≠ p := by
  induction cps with
  | nil => simp at hp
  | cons d cps ih =>
    rw [List.pairwise_cons] at hs
    rw [List.flatMap_cons, List.find?_append]
    cases hd : d.files.find? (·.path = p) with
    | some f =>
      have hf := List.find?_some hd
      refine ⟨f, d, rfl, of_decide_eq_true hf, List.mem_cons_self, List.mem_of_find?_eq_some hd, ?_⟩
      intro c' hc' hlt
      rcases List.mem_cons.mp hc' with rfl | hc'
      · omega
      · have := hs.1 c' hc'
        omega
    | none =>
      have hno : ∀ g ∈ d.files, g.path ≠ p := by
        intro g hg hgp
        exact List.find?_eq_none.mp hd g hg (by simpa using hgp)
      have hrest : ∃ c ∈ cps, ∃ f ∈ c.files, f.path = p := by
        obtain ⟨c, hc, f, hf, hfp⟩ := hp
        rcases List.mem_cons.mp hc with rfl | hc
        · exact absurd hfp (hno f hf)
        · exact ⟨c, hc, f, hf, hfp⟩
      obtain ⟨f, c, hfind, hfp, hc, hfc, hlow⟩ := ih hs.2 hrest
      refine ⟨f, c, by simpa using hfind, hfp, List.mem_cons_of_mem d hc, hfc, ?_⟩
      intro c' hc' hlt
      rcases List.mem_cons.mp hc' with rfl | hc'
      · exact hno
      · exact hlow c' hc' hlt

/-! What the sessions must respect, and what then holds of every snapshot. -/

/-- The path has no two dots in a row, the file can be read as text if it is there, and it is
still what it was when the turn began and when each earlier turn began whose rewind falls back
on this snapshot. -/
def firstTouchOk (s : State) (cp : Checkpoint) (path : Text) (readable : Bool) : Bool :=
  (safePath path).isSome &&
    ((s.files path).isNone || (readToString s.files path readable).isSome) &&
    s.begun.all fun b => decide (b.1 ≤ cp.turn →
      (∀ c ∈ s.all, b.1 ≤ c.turn → c.turn < cp.turn → path ∉ c.paths) → b.2 path = s.files path)

/-- No file differs from the snapshot that a rewind to the new turn would use now. -/
def freshTurn (s : State) (turn : Nat) : Bool :=
  s.all.all fun c => decide (turn ≤ c.turn → ∀ f ∈ c.files,
    (∀ c' ∈ s.all, turn ≤ c'.turn → c'.turn < c.turn → f.path ∉ c'.paths) →
      s.files f.path = f.content.map String.toUTF8)

/-- A turn begins with a number above the earlier ones, or with their files as they were, and
every first touch of a file meets the condition above. -/
def faithful (s : State) : Label → Bool
  | .begin turn _ => freshTurn s turn
  | .snapshot session path _ readable =>
    path = [] || path ∈ s.seen session ||
      (s.cur.lookup session).all fun cp => firstTouchOk s cp path readable
  | .write _ _ _ => true

structure Inv (s : State) : Prop where
  keys : (s.cur.map Prod.fst).Nodup
  paths : ∀ c ∈ s.all, c.paths = c.files.map (·.path)
  snaps : ∀ c ∈ s.all, ∀ f ∈ c.files, safePath f.path = some f.path ∧
    ∀ b ∈ s.begun, b.1 ≤ c.turn →
      (∀ c' ∈ s.all, b.1 ≤ c'.turn → c'.turn < c.turn → f.path ∉ c'.paths) →
      b.2 f.path = f.content.map String.toUTF8

theorem Inv.restores {s : State} (h : Inv s) : Restores s := by
  intro b hb c hc hbc p hp
  have hsorted : ((s.all.mergeSort (·.turn ≤ ·.turn)).filter (b.1 ≤ ·.turn)).Pairwise
      fun a b => a.turn ≤ b.turn := by
    apply List.Pairwise.filter
    have hsort : (s.all.mergeSort (·.turn ≤ ·.turn)).Pairwise
        fun a b => decide (a.turn ≤ b.turn) = true :=
      List.pairwise_mergeSort (fun a b c => by simp; omega) (fun a b => by simp; omega) s.all
    simpa using hsort
  have hmem : ∀ d, d ∈ (s.all.mergeSort (·.turn ≤ ·.turn)).filter (b.1 ≤ ·.turn) ↔
      d ∈ s.all ∧ b.1 ≤ d.turn := by
    intro d
    simp [List.mem_mergeSort]
  rw [h.paths c hc] at hp
  obtain ⟨f, hf, rfl⟩ := List.mem_map.mp hp
  obtain ⟨g, d, hfind, hgp, hd, hgd, hlow⟩ :=
    find_of_sorted hsorted ⟨c, (hmem c).mpr ⟨hc, hbc⟩, f, hf, rfl⟩
  obtain ⟨hdall, hbd⟩ := (hmem d).mp hd
  obtain ⟨hsafe, hval⟩ := h.snaps d hdall g hgd
  rw [← hgp] at hfind ⊢
  rw [restoreCode, hybrid, hybridRestore_apply _ _ _ (firsts_nodup [] _ (by simp)) hsafe,
    find_firsts, hfind]
  apply (hval b hb hbd ?_).symm
  intro c' hc' hbc' hlt hmem'
  rw [h.paths c' hc'] at hmem'
  obtain ⟨x, hx, hxp⟩ := List.mem_map.mp hmem'
  exact hlow c' ((hmem c').mpr ⟨hc', hbc'⟩) hlt x hx (hxp.trans hgp)

theorem snapshotContent_toUTF8 {s : State} {path : Text} {kind : FileChangeKind}
    {readable : Bool} (hkind : kind = .create ↔ s.files path = none)
    (hsafe : safePath path = some path)
    (htext : s.files path = none ∨ (readToString s.files path readable).isSome) :
    (snapshotContent s path kind readable).map String.toUTF8 = s.files path := by
  unfold snapshotContent
  by_cases hk : kind = .create
  · simp [hk, hkind.mp hk]
  · have hthere : s.files path ≠ none := fun h => hk (hkind.mpr h)
    obtain ⟨body, hbody⟩ := Option.isSome_iff_exists.mp (htext.resolve_left hthere)
    rw [if_neg hk, hsafe, Option.bind_some, hbody]
    unfold readToString at hbody
    split at hbody
    · obtain ⟨bytes, hbytes, hutf⟩ := Option.bind_eq_some_iff.mp hbody
      rw [hbytes, Option.map_some]
      unfold String.fromUTF8? at hutf
      split at hutf
      · rw [← Option.some.inj hutf]
        rfl
      · cases hutf
    · cases hbody

theorem safePath_eq {p : Text} (h : (safePath p).isSome) : safePath p = some p := by
  unfold safePath at h ⊢
  split at h
  · cases h
  · rw [if_neg ‹_›]

theorem inv_begin {s : State} (h : Inv s) (turn : Nat) (session : Bucket)
    (hturn : freshTurn s turn = true) : Inv (beginForSession s turn session) := by
  simp only [freshTurn, List.all_eq_true, decide_eq_true_eq] at hturn
  have hall : ∀ c, c ∈ (beginForSession s turn session).all ↔
      c ∈ s.all ∨ c = ⟨turn, [], [], session⟩ := by
    intro c
    simp only [State.all, beginForSession, List.map_append, List.mem_append, List.mem_map,
      List.mem_filter, decide_eq_true_eq, List.map_cons, List.map_nil, List.mem_singleton]
    constructor
    · rintro ((hc | ⟨q, hq, rfl⟩) | ⟨q, hq, rfl⟩ | hc)
      · exact .inl (.inl hc)
      · exact .inl (.inr ⟨q, hq.1, rfl⟩)
      · exact .inl (.inr ⟨q, hq.1, rfl⟩)
      · exact .inr hc
    · rintro ((hc | ⟨q, hq, rfl⟩) | hc)
      · exact .inl (.inl hc)
      · by_cases hk : q.1 = session
        · exact .inl (.inr ⟨q, ⟨hq, hk⟩, rfl⟩)
        · exact .inr (.inl ⟨q, ⟨hq, hk⟩, rfl⟩)
      · exact .inr (.inr hc)
  refine ⟨?_, ?_, ?_⟩
  · rw [beginForSession, List.map_append, List.map_singleton]
    apply List.nodup_append_comm.mp
    rw [List.singleton_append, List.nodup_cons]
    constructor
    · simp
    · exact h.keys.sublist (List.filter_sublist.map Prod.fst)
  · intro c hc
    rcases (hall c).mp hc with hc | rfl
    · exact h.paths c hc
    · rfl
  · intro c hc f hf
    rcases (hall c).mp hc with hc | rfl
    · obtain ⟨hsafe, hval⟩ := h.snaps c hc f hf
      refine ⟨hsafe, ?_⟩
      intro b hb hbc hlow
      rcases List.mem_append.mp hb with hb | hb
      · exact hval b hb hbc fun c' hc' => hlow c' ((hall c').mpr (.inl hc'))
      · obtain rfl := List.mem_singleton.mp hb
        exact hturn c hc hbc f hf fun c' hc' => hlow c' ((hall c').mpr (.inl hc'))
    · simp at hf

theorem lookup_unique {cur : List (Bucket × Checkpoint)} {q : Bucket × Checkpoint}
    {cp : Checkpoint} (hk : (cur.map Prod.fst).Nodup) (hq : q ∈ cur)
    (hcp : cur.lookup q.1 = some cp) : q.2 = cp := by
  induction cur with
  | nil => cases hq
  | cons r cur ih =>
    rw [List.map_cons, List.nodup_cons] at hk
    rw [List.lookup_cons] at hcp
    rcases List.mem_cons.mp hq with rfl | hq
    · simpa using hcp
    · have hne : q.1 ≠ r.1 := fun h => hk.1 (h ▸ List.mem_map_of_mem hq)
      have hb : (q.1 == r.1) = false := by simpa using hne
      rw [hb] at hcp
      exact ih hk.2 hq hcp

/-- A declaration changes one checkpoint. -/
theorem mem_all_declare {s : State} {session : Bucket} {snap : FileSnap} {cp c : Checkpoint}
    (hk : (s.cur.map Prod.fst).Nodup) (hcp : s.cur.lookup session = some cp)
    (hc : c ∈ s.done ++ (s.cur.map (declareIn session snap)).map Prod.snd) :
    c ∈ s.all ∨ c = cp.declare snap := by
  rcases List.mem_append.mp hc with hc | hc
  · exact .inl (List.mem_append_left _ hc)
  · obtain ⟨q, hq, rfl⟩ := List.mem_map.mp hc
    obtain ⟨r, hr, rfl⟩ := List.mem_map.mp hq
    unfold declareIn
    by_cases hs : r.1 = session
    · right
      subst hs
      rw [if_pos rfl, lookup_unique hk hr hcp]
    · left
      rw [if_neg hs]
      exact List.mem_append_right _ (List.mem_map_of_mem hr)

/-- A declaration only adds to what the turns have declared. -/
theorem declare_grows {s : State} {c : Checkpoint} (session : Bucket) (snap : FileSnap)
    (hc : c ∈ s.all) :
    ∃ d ∈ s.done ++ (s.cur.map (declareIn session snap)).map Prod.snd,
      d.turn = c.turn ∧ c.paths ⊆ d.paths := by
  rcases List.mem_append.mp hc with hc | hc
  · exact ⟨c, List.mem_append_left _ hc, rfl, fun _ h => h⟩
  · obtain ⟨q, hq, rfl⟩ := List.mem_map.mp hc
    refine ⟨(declareIn session snap q).2,
      List.mem_append_right _ (List.mem_map_of_mem (List.mem_map_of_mem hq)), ?_⟩
    unfold declareIn
    split
    · exact ⟨rfl, fun _ h => List.mem_append_left _ h⟩
    · exact ⟨rfl, fun _ h => h⟩

theorem mem_of_lookup {cur : List (Bucket × Checkpoint)} {session : Bucket} {cp : Checkpoint}
    (h : cur.lookup session = some cp) : cp ∈ cur.map Prod.snd := by
  obtain ⟨l, r, rfl, -⟩ := List.lookup_eq_some_iff.mp h
  simp

theorem inv_snapshot {s : State} (h : Inv s) {session : Bucket} {path : Text}
    {kind : FileChangeKind} {readable : Bool} (hkind : kind = .create ↔ s.files path = none)
    (hok : faithful s (.snapshot session path kind readable) = true) :
    Inv (snapshotForSession s session path kind readable) := by
  simp only [faithful, Bool.or_eq_true, decide_eq_true_eq, or_assoc] at hok
  unfold snapshotForSession
  by_cases hempty : path = []
  · rwa [if_pos hempty]
  rw [if_neg hempty]
  cases hcp : s.cur.lookup session with
  | none => exact h
  | some cp =>
    by_cases hseen : path ∈ s.seen session
    · simpa [hseen] using h
    have hfirst : firstTouchOk s cp path readable = true := by
      simpa [hempty, hseen, hcp] using hok
    simp only [firstTouchOk, Bool.and_eq_true, Bool.or_eq_true, List.all_eq_true,
      decide_eq_true_eq, Option.isNone_iff_eq_none] at hfirst
    obtain ⟨⟨hsafe, htext⟩, hsame⟩ := hfirst
    have hcpmem : cp ∈ s.all := List.mem_append_right _ (mem_of_lookup hcp)
    simp only [hseen, if_false]
    refine ⟨?_, ?_, ?_⟩
    · have hmap : (s.cur.map (declareIn session ⟨path, snapshotContent s path kind readable⟩)).map
          Prod.fst = s.cur.map Prod.fst := by
        rw [List.map_map]
        apply List.map_congr_left
        intro q _
        simp only [Function.comp_apply, declareIn]
        split <;> rfl
      simpa [hmap] using h.keys
    · intro c hc
      rcases mem_all_declare h.keys hcp hc with hc | rfl
      · exact h.paths c hc
      · simp [Checkpoint.declare, h.paths cp hcpmem]
    · intro c hc f hf
      have hlower : ∀ b : Nat × Files, ∀ turn, ∀ p : Text,
          (∀ c' ∈ s.done ++ (s.cur.map
            (declareIn session ⟨path, snapshotContent s path kind readable⟩)).map Prod.snd,
            b.1 ≤ c'.turn → c'.turn < turn → p ∉ c'.paths) →
          ∀ c' ∈ s.all, b.1 ≤ c'.turn → c'.turn < turn → p ∉ c'.paths := by
        intro b turn p hl c' hc' hb hlt hp
        obtain ⟨d, hd, hturn, hsub⟩ :=
          declare_grows session ⟨path, snapshotContent s path kind readable⟩ hc'
        exact hl d hd (hturn ▸ hb) (hturn ▸ hlt) (hsub hp)
      rcases mem_all_declare h.keys hcp hc with hc | rfl
      · obtain ⟨hs, hval⟩ := h.snaps c hc f hf
        exact ⟨hs, fun b hb hbc hl => hval b hb hbc (hlower b _ _ hl)⟩
      · rcases List.mem_append.mp hf with hf | hf
        · obtain ⟨hs, hval⟩ := h.snaps cp hcpmem f hf
          exact ⟨hs, fun b hb hbc hl => hval b hb hbc (hlower b _ _ hl)⟩
        · -- the snapshot just taken
          rw [List.mem_singleton.mp hf]
          refine ⟨safePath_eq hsafe, ?_⟩
          intro b hb hbc hl
          rw [snapshotContent_toUTF8 hkind (safePath_eq hsafe) htext]
          exact hsame b hb hbc (hlower b _ _ hl)

theorem inv_step {s t : State} {l : Label} (h : Inv s) (hok : faithful s l = true)
    (hs : step s l = some t) : Inv t := by
  cases l with
  | begin turn session =>
    obtain rfl := Option.some.inj hs
    exact inv_begin h turn session hok
  | snapshot session path kind readable =>
    simp only [step] at hs
    split at hs
    case isTrue hkind =>
      obtain rfl := Option.some.inj hs
      exact inv_snapshot h hkind hok
    case isFalse => cases hs
  | write session path content =>
    simp only [step] at hs
    split at hs
    · obtain rfl := Option.some.inj hs
      exact ⟨h.keys, h.paths, h.snaps⟩
    · cases hs

/-- A workspace before its first turn. -/
def start (files : Files) : State := ⟨files, [], [], fun _ => [], []⟩

theorem inv_start (files : Files) : Inv (start files) :=
  ⟨by simp [start], by simp [start, State.all], by simp [start, State.all]⟩

/-- Turns that meet the condition can all be rewound. -/
theorem rewind_restores_turn_start (files : Files) (ls : List Label) {t : State}
    (hok : Along step (fun s l => faithful s l = true) (start files) ls)
    (hrun : run step (start files) ls = some t) : Restores t := by
  have hinv : Inv t := run_invariant (fun _ _ _ h hok hs => inv_step h hok hs) (inv_start files) hok
    hrun
  exact hinv.restores

def notes : Files := Function.update (fun _ => none) "a.txt".toList (some "old".toUTF8)

/-- Two sessions work side by side, one on a file of the other's earlier turn. -/
def sharedFile : List Label :=
  [.begin 0 (some ['s']), .snapshot (some ['s']) "a.txt".toList .modify true,
    .write (some ['s']) "a.txt".toList (some "new".toUTF8), .begin 1 (some ['t']),
    .snapshot (some ['t']) "a.txt".toList .delete true,
    .write (some ['t']) "a.txt".toList none,
    .snapshot (some ['s']) "b.txt".toList .create true,
    .write (some ['s']) "b.txt".toList (some "b".toUTF8)]

theorem rewind_restores_shared_file :
    Restores ((run step (start notes) sharedFile).get (by decide)) :=
  rewind_restores_turn_start notes sharedFile (by decide) (Option.some_get _).symm

/-- A file that is no text, changed in the first turn. -/
def binaryFile : Files := Function.update (fun _ => none) ['p'] (some ⟨#[0xff]⟩)

def editBinary : List Label :=
  [.begin 0 none, .snapshot none ['p'] .modify true, .write none ['p'] (some ⟨#[0xfe]⟩)]

/-- Its rewind deletes the file. -/
theorem rewind_deletes_binary_file :
    ∃ t, run step (start binaryFile) editBinary = some t ∧ ¬ Restores t ∧
      restoreCode t 0 ['p'] = none := by
  let after := (run step (start binaryFile) editBinary).get (by decide)
  have hall : after.all = [⟨0, [⟨['p'], none⟩], [['p']], none⟩] := by decide
  have hgone : restoreCode after 0 ['p'] = none := by
    rw [restoreCode, hybrid, hall, List.mergeSort_singleton]
    decide
  refine ⟨after, (Option.some_get _).symm, ?_, hgone⟩
  intro h
  have hkept := h (0, binaryFile) List.mem_cons_self _ (hall ▸ List.mem_singleton_self _) le_rfl
    ['p'] (by decide)
  rw [hgone] at hkept
  cases hkept

end NemesisBot.CodeRewind

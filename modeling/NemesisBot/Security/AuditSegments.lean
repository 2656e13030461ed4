import NemesisBot.Security.AuditChain

/-! Rotation and restart. `load_segments` rebuilds the last hash and the total but not
the segment counter, so a restarted chain writes its first file again; the reader sorts
rotated files as text. The invariant below describes the runs on which neither shows. -/
namespace NemesisBot.AuditChain
open NemesisBot.Runs

theorem splitExt_append (name : List Char) : (splitExt name).1 ++ (splitExt name).2 = name := by
  simp only [splitExt]
  split
  · simp
  · rename_i h
    have hsplit := List.takeWhile_append_dropWhile (p := (· ≠ '.')) (l := name.reverse)
    cases hd : name.reverse.dropWhile (· ≠ '.') with
    | nil =>
      rw [hd, List.append_nil] at hsplit
      exact absurd (Or.inl (by rw [hsplit, List.length_reverse])) h
    | cons c cs =>
      have hc : c = '.' := by
        have hh := List.head?_dropWhile_not (· ≠ '.') name.reverse
        rw [hd] at hh
        simpa using hh
      subst hc
      rw [hd] at hsplit
      have hr := congrArg List.reverse hsplit
      simpa using hr

theorem fileName_eq (cfg : AuditChainConfig) : cfg.stem ++ cfg.ext = cfg.fileName :=
  splitExt_append cfg.fileName

/-! Segment numbers as text: four digits below 10000, in the order of the numbers. -/

theorem pad4_eq {n : Nat} (h : n < 10000) :
    pad4 n = [(n / 1000).digitChar, (n / 100 % 10).digitChar, (n / 10 % 10).digitChar,
      (n % 10).digitChar] := by
  have hb : (1 : Nat) < 10 := by omega
  have hz : ('0' : Char) = Nat.digitChar 0 := rfl
  by_cases h1 : n < 10
  · have e1 : n / 1000 = 0 := by omega
    have e2 : n / 100 % 10 = 0 := by omega
    have e3 : n / 10 % 10 = 0 := by omega
    have e4 : n % 10 = n := by omega
    rw [pad4, Nat.toDigits_of_lt_base h1, e1, e2, e3, e4]
    rfl
  · by_cases h2 : n < 100
    · have e1 : n / 1000 = 0 := by omega
      have e2 : n / 100 % 10 = 0 := by omega
      have e3 : n / 10 % 10 = n / 10 := by omega
      rw [pad4, Nat.toDigits_of_base_le hb (by omega), Nat.toDigits_of_lt_base (by omega),
        e1, e2, e3]
      rfl
    · by_cases h3 : n < 1000
      · have e1 : n / 1000 = 0 := by omega
        have e2 : n / 100 % 10 = n / 10 / 10 := by omega
        rw [pad4, Nat.toDigits_of_base_le hb (by omega), Nat.toDigits_of_base_le hb (by omega),
          Nat.toDigits_of_lt_base (by omega), e1, e2]
        rfl
      · have e1 : n / 1000 = n / 10 / 10 / 10 := by omega
        have e2 : n / 100 % 10 = n / 10 / 10 % 10 := by omega
        rw [pad4, Nat.toDigits_of_base_le hb (by omega), Nat.toDigits_of_base_le hb (by omega),
          Nat.toDigits_of_base_le hb (by omega), Nat.toDigits_of_lt_base (by omega), e1, e2]
        rfl

theorem digitChar_lt {a b : Nat} (hb : b < 10) (h : a < b) : a.digitChar < b.digitChar := by
  have ht : ∀ x < 10, ∀ y < x, y.digitChar < x.digitChar := by decide
  exact ht b hb a h

theorem nameLe_append (p a b : List Char) : nameLe (p ++ a) (p ++ b) = nameLe a b := by
  induction p with
  | nil => rfl
  | cons c cs ih => simp [nameLe, ih]

theorem nameLe_cons_digit {a b : Nat} (hb : b < 10) (as bs : List Char)
    (h : a < b ∨ (a = b ∧ nameLe as bs = true)) :
    nameLe (a.digitChar :: as) (b.digitChar :: bs) = true := by
  obtain hlt | ⟨rfl, hle⟩ := h
  · simp [nameLe, digitChar_lt hb hlt]
  · simp [nameLe, hle]

theorem nameLe_pad4 {m n : Nat} (hn : n < 10000) (h : m < n) (t : List Char) :
    nameLe (pad4 m ++ t) (pad4 n ++ t) = true := by
  rw [pad4_eq (by omega), pad4_eq hn]
  refine nameLe_cons_digit (by omega) _ _ ?_
  by_cases h1 : m / 1000 < n / 1000
  · exact Or.inl h1
  refine Or.inr ⟨by omega, nameLe_cons_digit (by omega) _ _ ?_⟩
  by_cases h2 : m / 100 % 10 < n / 100 % 10
  · exact Or.inl h2
  refine Or.inr ⟨by omega, nameLe_cons_digit (by omega) _ _ ?_⟩
  by_cases h3 : m / 10 % 10 < n / 10 % 10
  · exact Or.inl h3
  exact Or.inr ⟨by omega, nameLe_cons_digit (by omega) _ _ (Or.inl (by omega))⟩

theorem segmentPath_of_ne_one (cfg : AuditChainConfig) {k : Nat} (h : k ≠ 1) :
    segmentPath cfg k = cfg.stem ++ segTag ++ pad4 k ++ cfg.ext := by
  simp [segmentPath, h]

theorem nameLe_segmentPath (cfg : AuditChainConfig) {m n : Nat} (hm : 2 ≤ m) (h : m < n)
    (hn : n < 10000) : nameLe (segmentPath cfg m) (segmentPath cfg n) = true := by
  rw [segmentPath_of_ne_one cfg (by omega), segmentPath_of_ne_one cfg (by omega)]
  simp only [List.append_assoc, nameLe_append]
  exact nameLe_pad4 hn h cfg.ext

theorem pad4_injective {m n : Nat} (hm : m < 10000) (hn : n < 10000) (h : pad4 m = pad4 n) :
    m = n := by
  have hd : ∀ x < 10, ∀ y < 10, Nat.digitChar x = Nat.digitChar y → x = y := by decide
  rw [pad4_eq hm, pad4_eq hn] at h
  simp only [List.cons.injEq, and_true] at h
  have h1 := hd _ (by omega) _ (by omega) h.1
  have h2 := hd _ (by omega) _ (by omega) h.2.1
  have h3 := hd _ (by omega) _ (by omega) h.2.2.1
  have h4 := hd _ (by omega) _ (by omega) h.2.2.2
  omega

theorem segmentPath_injective (cfg : AuditChainConfig) {m n : Nat} (hm : m < 10000)
    (hn : n < 10000) (h : segmentPath cfg m = segmentPath cfg n) : m = n := by
  have hlen (k : Nat) : (cfg.stem ++ segTag ++ pad4 k ++ cfg.ext).length ≠ cfg.fileName.length := by
    rw [← fileName_eq cfg]
    simp [segTag]
    omega
  by_cases h1 : m = 1 <;> by_cases h2 : n = 1
  · omega
  · subst h1
    rw [segmentPath_of_ne_one cfg h2] at h
    exact absurd (congrArg List.length h).symm (hlen n)
  · subst h2
    rw [segmentPath_of_ne_one cfg h1] at h
    exact absurd (congrArg List.length h) (hlen m)
  · rw [segmentPath_of_ne_one cfg h1, segmentPath_of_ne_one cfg h2] at h
    simp only [List.append_assoc, List.append_cancel_left_eq, List.append_cancel_right_eq] at h
    exact pad4_injective hm hn (by simpa using h)

theorem isSegmentName_segmentPath (cfg : AuditChainConfig) {k : Nat} (h : k ≠ 1) :
    isSegmentName cfg (segmentPath cfg k) = true := by
  rw [segmentPath_of_ne_one cfg h, isSegmentName]
  simp only [List.append_assoc, Bool.and_eq_true, decide_eq_true_eq]
  exact ⟨⟨_, rfl⟩, ⟨cfg.stem, pad4 k ++ cfg.ext, by simp⟩⟩

/-! The directory of an undisturbed chain: segment `k`, `k + 1`, … with their events. -/

variable {Line : Type} (fmt : LineFormat Line) (cfg : AuditChainConfig)

def layout : Nat → List (List AuditEvent) → Files Line
  | _, [] => []
  | k, es :: rest => (segmentPath cfg k, es.map fmt.toJson) :: layout (k + 1) rest

def pathsFrom (k n : Nat) : List (List Char) := (List.range' k n).map (segmentPath cfg)

theorem mem_pathsFrom {k n : Nat} {name : List Char} :
    name ∈ pathsFrom cfg k n ↔ ∃ j, k ≤ j ∧ j < k + n ∧ segmentPath cfg j = name := by
  simp [pathsFrom, List.mem_range'_1, and_assoc]

theorem names_layout (k : Nat) (segs : List (List AuditEvent)) :
    (layout fmt cfg k segs).map Prod.fst = pathsFrom cfg k segs.length := by
  induction segs generalizing k with
  | nil => rfl
  | cons es rest ih => simp [layout, ih, pathsFrom, List.range'_succ]

theorem appendLine_new_segment (k : Nat) (segs : List (List AuditEvent)) (e : AuditEvent)
    (h : k + segs.length < 10000) :
    appendLine (segmentPath cfg (k + segs.length)) (fmt.toJson e) (layout fmt cfg k segs) =
      layout fmt cfg k (segs ++ [[e]]) := by
  induction segs generalizing k with
  | nil => simp [layout, appendLine]
  | cons es rest ih =>
    have hk : segmentPath cfg k ≠ segmentPath cfg (k + (rest.length + 1)) := by
      intro he
      have := segmentPath_injective cfg (by simp at h; omega) (by simpa using h) he
      omega
    have hi := ih (k + 1) (by simp at h; omega)
    rw [show k + 1 + rest.length = k + (rest.length + 1) by omega] at hi
    simp [layout, appendLine, hk, hi]

theorem appendLine_last_segment (k : Nat) (segs : List (List AuditEvent)) (es : List AuditEvent)
    (e : AuditEvent) (h : k + segs.length < 10000) :
    appendLine (segmentPath cfg (k + segs.length)) (fmt.toJson e)
        (layout fmt cfg k (segs ++ [es])) =
      layout fmt cfg k (segs ++ [es ++ [e]]) := by
  induction segs generalizing k with
  | nil => simp [layout, appendLine]
  | cons fs rest ih =>
    have hk : segmentPath cfg k ≠ segmentPath cfg (k + (rest.length + 1)) := by
      intro he
      have := segmentPath_injective cfg (by simp at h; omega) (by simpa using h) he
      omega
    have hi := ih (k + 1) (by simp at h; omega)
    rw [show k + 1 + rest.length = k + (rest.length + 1) by omega] at hi
    simp [layout, appendLine, hk, hi]

theorem read_layout (k : Nat) (segs : List (List AuditEvent)) (h : k + segs.length ≤ 10000) :
    ((pathsFrom cfg k segs.length).flatMap fun name =>
      (fileLines name (layout fmt cfg k segs)).filterMap fmt.fromJson) = segs.flatten := by
  induction segs generalizing k with
  | nil => rfl
  | cons es rest ih =>
    simp only [List.length_cons] at h
    have hes : (es.map fmt.toJson).filterMap fmt.fromJson = es := by
      rw [List.filterMap_map]
      exact (List.filterMap_congr fun e _ => fmt.fromJson_toJson e).trans List.filterMap_some
    have htail : ((pathsFrom cfg (k + 1) rest.length).flatMap fun name =>
        (fileLines name (layout fmt cfg k (es :: rest))).filterMap fmt.fromJson) =
        rest.flatten := by
      rw [← ih (k + 1) (by omega)]
      refine List.flatMap_congr fun name hname => ?_
      obtain ⟨j, hj, hjn, rfl⟩ := (mem_pathsFrom cfg).mp hname
      have hne : segmentPath cfg k ≠ segmentPath cfg j := by
        intro he
        have := segmentPath_injective cfg (by omega) (by omega) he
        omega
      simp [layout, fileLines, hne]
    have hcons : pathsFrom cfg k (rest.length + 1) =
        segmentPath cfg k :: pathsFrom cfg (k + 1) rest.length := by
      simp [pathsFrom, List.range'_succ]
    rw [List.length_cons, hcons, List.flatMap_cons, htail]
    simp [layout, fileLines, hes]

/-- The reader lists an undisturbed directory in segment order. -/
theorem collectSegmentFiles_layout (segs : List (List AuditEvent))
    (hmax : segs.length ≤ 9999) (hdir : cfg.parent = [] → segs.length ≤ 1)
    (htag : segs ≠ [] → cfg.parent ≠ [] → ¬ segTag <:+: cfg.fileName) :
    collectSegmentFiles cfg (layout fmt cfg 1 segs) = pathsFrom cfg 1 segs.length := by
  cases segs with
  | nil => simp [collectSegmentFiles, readDir, layout, pathsFrom]
  | cons es rest =>
    have hmain : cfg.fileName = segmentPath cfg 1 := by simp [segmentPath]
    have hnames : pathsFrom cfg 1 (rest.length + 1) =
        cfg.fileName :: pathsFrom cfg 2 rest.length := by
      rw [hmain]
      simp [pathsFrom, List.range'_succ]
    rw [collectSegmentFiles, readDir, names_layout, List.length_cons, hnames,
      if_pos List.mem_cons_self]
    by_cases hp : cfg.parent = []
    · obtain rfl : rest = [] := by simpa using hdir hp
      simp [hp, pathsFrom]
    · have hnot : isSegmentName cfg cfg.fileName = false := by
        simp [isSegmentName, htag (by simp) hp]
      have hall : ∀ name ∈ pathsFrom cfg 2 rest.length, isSegmentName cfg name = true := by
        intro name hname
        obtain ⟨j, hj, -, rfl⟩ := (mem_pathsFrom cfg).mp hname
        exact isSegmentName_segmentPath cfg (by omega)
      have hsorted : (pathsFrom cfg 2 rest.length).Pairwise (fun a b => nameLe a b = true) := by
        refine List.pairwise_map.mpr (List.Pairwise.imp_of_mem ?_ List.pairwise_lt_range')
        intro a b ha hb hab
        simp only [List.mem_range'_1, List.length_cons] at ha hb hmax
        exact nameLe_segmentPath cfg (by omega) hab (by omega)
      rw [if_neg hp, List.filter_cons_of_neg (by simp [hnot]), List.filter_eq_self.mpr hall,
        List.mergeSort_of_pairwise hsorted]
      rfl

/-- What the reader of the files should find: the appended events, in order, verifying,
and as many as the counter says. -/
def Intact (sha256 : ByteArray → String) (t : Trace Line) : Prop :=
  readEvents fmt cfg t.state.files = t.returned ∧ verifyChain sha256 t.returned = true ∧
  t.state.totalEvents = t.returned.length

/-- An append in reading order: no later segment has been written, its number still fits
four digits, the directory can be listed, and the first file is not taken for a rotated
one. A restart is always in order. -/
def InOrder (t : Trace Line) : Act → Prop
  | .restart => True
  | .append _ =>
    (∀ k, t.state.segmentCount < k → segmentPath cfg k ∉ t.state.files.map Prod.fst) ∧
    t.state.segmentCount ≤ 9999 ∧
    (cfg.parent = [] → t.state.segmentCount = 1) ∧
    (cfg.parent ≠ [] → ¬ segTag <:+: cfg.fileName)

def lastHashOf (es : List AuditEvent) : String := (es.getLast?.map AuditEvent.hash).getD zeroHash

/-- The events lie in `segs`, one list per file, and the counter names the last file or
the one after it, unless a restart has set it back to the first. -/
structure Undisturbed (sha256 : ByteArray → String) (t : Trace Line)
    (segs : List (List AuditEvent)) : Prop where
  files : t.state.files = layout fmt cfg 1 segs
  events : segs.flatten = t.returned
  few : segs.length ≤ 9999
  listed : cfg.parent = [] → segs.length ≤ 1
  untagged : segs ≠ [] → cfg.parent ≠ [] → ¬ segTag <:+: cfg.fileName
  pos : 1 ≤ t.state.segmentCount
  next : t.state.segmentCount ≤ segs.length + 1
  total : t.state.totalEvents = t.returned.length
  last : t.state.lastHash = lastHashOf t.returned
  verifies : verifyChain sha256 t.returned = true

variable {fmt cfg} {sha256 : ByteArray → String}

theorem Undisturbed.readEvents {t : Trace Line} {segs : List (List AuditEvent)}
    (h : Undisturbed fmt cfg sha256 t segs) : readEvents fmt cfg t.state.files = t.returned := by
  rw [AuditChain.readEvents, h.files,
    collectSegmentFiles_layout fmt cfg segs h.few h.listed h.untagged,
    read_layout fmt cfg 1 segs (by have := h.few; omega), h.events]

theorem Undisturbed.intact {t : Trace Line} {segs : List (List AuditEvent)}
    (h : Undisturbed fmt cfg sha256 t segs) : Intact fmt cfg sha256 t :=
  ⟨h.readEvents, h.verifies, h.total⟩

theorem undisturbed_start : Undisturbed fmt cfg sha256 start [] where
  files := rfl
  events := rfl
  few := by simp
  listed := by simp
  untagged := by simp
  pos := by simp [start, fresh]
  next := by simp [start, fresh]
  total := rfl
  last := rfl
  verifies := rfl

/-- With no later segment on disk the counter names the last file or the next one. -/
theorem Undisturbed.counter {t : Trace Line} {segs : List (List AuditEvent)}
    (h : Undisturbed fmt cfg sha256 t segs)
    (hlate : ∀ k, t.state.segmentCount < k → segmentPath cfg k ∉ t.state.files.map Prod.fst) :
    t.state.segmentCount = segs.length ∨ t.state.segmentCount = segs.length + 1 := by
  have hle : segs.length ≤ t.state.segmentCount := by
    by_contra hlt
    refine hlate segs.length (by omega) ?_
    rw [h.files, names_layout]
    exact (mem_pathsFrom cfg).mpr ⟨segs.length, by omega, by omega, rfl⟩
  have := h.next
  omega

theorem verifyChain_append (p : Trace Line) (x : Entry)
    (hv : verifyChain sha256 p.returned = true)
    (hl : p.state.lastHash = lastHashOf p.returned) :
    verifyChain sha256 (p.returned ++ [newEvent sha256 p.state.lastHash x]) = true := by
  rw [verifyChain, verifyAfter_append]
  refine ⟨hv, ?_, by simp [newEvent], computeEventHash_newEvent sha256 _ x⟩
  intro q hq
  simp only [Option.or_none] at hq
  simp [newEvent, hl, lastHashOf, hq]

/-- Where the files end up after an append in order. -/
theorem Undisturbed.append_files {t : Trace Line} {segs : List (List AuditEvent)}
    (h : Undisturbed fmt cfg sha256 t segs) (e : AuditEvent)
    (hlate : ∀ k, t.state.segmentCount < k → segmentPath cfg k ∉ t.state.files.map Prod.fst)
    (hmax : t.state.segmentCount ≤ 9999) :
    ∃ segs', appendLine (segmentPath cfg t.state.segmentCount) (fmt.toJson e) t.state.files =
        layout fmt cfg 1 segs' ∧ segs'.flatten = segs.flatten ++ [e] ∧
      segs'.length = t.state.segmentCount := by
  have hpos := h.pos
  rw [h.files]
  obtain hc | hc := h.counter hlate
  · obtain ⟨init, es, rfl⟩ : ∃ init es, segs = init ++ [es] := by
      refine ⟨segs.dropLast, segs.getLast ?_, (List.dropLast_concat_getLast _).symm⟩
      rintro rfl
      simp at hc
      omega
    refine ⟨init ++ [es ++ [e]], ?_, by simp, by simp [hc]⟩
    simp only [List.length_append, List.length_singleton] at hc
    rw [hc, Nat.add_comm]
    exact appendLine_last_segment fmt cfg 1 init es e (by omega)
  · refine ⟨segs ++ [[e]], ?_, by simp, by simp [hc]⟩
    rw [hc, Nat.add_comm]
    exact appendLine_new_segment fmt cfg 1 segs e (by omega)

theorem undisturbed_append {t : Trace Line} {segs : List (List AuditEvent)} (x : Entry)
    (h : Undisturbed fmt cfg sha256 t segs) (ho : InOrder cfg t (.append x)) :
    ∃ segs', Undisturbed fmt cfg sha256
      ⟨(appendWithSign sha256 fmt cfg t.state x).1,
        t.returned ++ [newEvent sha256 t.state.lastHash x]⟩ segs' := by
  obtain ⟨hlate, hmax, hdir, htag⟩ := ho
  obtain ⟨segs', hf, hfl, hlen⟩ :=
    h.append_files (newEvent sha256 t.state.lastHash x) hlate hmax
  have hpos := h.pos
  refine ⟨segs', ?_⟩
  constructor
  case files =>
    simp only [appendWithSign]
    split <;> exact hf
  case events => rw [hfl, h.events]
  case few => omega
  case listed => exact fun hp => by rw [hlen, hdir hp]
  case untagged => exact fun _ => htag
  case pos =>
    simp only [appendWithSign]
    split
    · simp [rotateSegment]
    · exact hpos
  case next =>
    simp only [appendWithSign]
    split <;> simp [rotateSegment, hlen]
  case total =>
    simp only [appendWithSign]
    split <;> simp [rotateSegment, h.total]
  case last =>
    simp only [appendWithSign]
    split <;> simp [rotateSegment, lastHashOf]
  case verifies => exact verifyChain_append t x h.verifies h.last

theorem undisturbed_restart {t : Trace Line} {segs : List (List AuditEvent)}
    (h : Undisturbed fmt cfg sha256 t segs) :
    Undisturbed fmt cfg sha256 ⟨loadSegments fmt cfg (fresh t.state.files), t.returned⟩ segs := by
  have hr : AuditChain.readEvents fmt cfg (fresh t.state.files).files = t.returned := h.readEvents
  have hload : loadSegments fmt cfg (fresh t.state.files) =
      ⟨lastHashOf t.returned, 0, 1, t.returned.length, t.state.files⟩ := by
    rw [loadSegments, hr]
    cases hl : t.returned.getLast? with
    | none =>
      obtain hn : t.returned = [] := by simpa using hl
      simp [fresh, hn, lastHashOf]
    | some e => simp [fresh, lastHashOf, hl]
  rw [hload]
  exact
    { files := h.files, events := h.events, few := h.few, listed := h.listed
      untagged := h.untagged, pos := by simp, next := by simp, total := rfl, last := rfl
      verifies := h.verifies }

theorem undisturbed_step {t t' : Trace Line} (a : Act)
    (h : ∃ segs, Undisturbed fmt cfg sha256 t segs) (ho : InOrder cfg t a)
    (hs : step sha256 fmt cfg t a = some t') : ∃ segs, Undisturbed fmt cfg sha256 t' segs := by
  obtain ⟨segs, h⟩ := h
  cases a with
  | append x =>
    obtain rfl := Option.some.inj hs
    exact undisturbed_append x h ho
  | restart =>
    obtain rfl := Option.some.inj hs
    exact ⟨segs, undisturbed_restart h⟩

/-- Appends and restarts in reading order keep the stored chain intact. -/
theorem run_intact {acts : List Act} {t : Trace Line}
    (ho : Along (step sha256 fmt cfg) (InOrder cfg) start acts)
    (hr : run (step sha256 fmt cfg) start acts = some t) : Intact fmt cfg sha256 t := by
  have hstart : ∃ segs, Undisturbed fmt cfg sha256 start segs := ⟨[], undisturbed_start⟩
  obtain ⟨segs, h⟩ : ∃ segs, Undisturbed fmt cfg sha256 t segs :=
    run_invariant (fun _ a _ h ho hs => undisturbed_step a h ho hs) hstart ho hr
  exact h.intact

/-! A chain in `logs/audit.jsonl` with one event to a segment. -/

/-- Lines that carry the parsed event. -/
def parsedLines : LineFormat AuditEvent := ⟨id, some, fun _ => rfl⟩

def smallConfig : AuditChainConfig := ⟨"logs".toList, "audit.jsonl".toList, 1⟩

def entryNamed (id : String) : Entry :=
  ⟨id, "t", "file_read", "tool", "user", "source", "target", "allowed", "reason", none⟩

def twoSegments : List Act := [.append (entryNamed "a"), .append (entryNamed "b")]

theorem smallConfig_untagged : ¬ segTag <:+: smallConfig.fileName := by decide

theorem smallConfig_main_ne {k : Nat} (h : k ≠ 1) :
    segmentPath smallConfig k ≠ segmentPath smallConfig 1 := by
  intro he
  have hl := congrArg List.length he
  rw [segmentPath_of_ne_one smallConfig h, segmentPath, if_pos rfl, ← fileName_eq] at hl
  simp [segTag] at hl
  omega

theorem run_intact_two_segments :
    ∃ t, run (step byteText parsedLines smallConfig) start twoSegments = some t ∧
      t.state.segmentCount = 3 ∧ Intact parsedLines smallConfig byteText t := by
  have ho : Along (step byteText parsedLines smallConfig) (InOrder smallConfig) start
      twoSegments := by
    refine ⟨⟨by simp [start, fresh], by decide, by decide, fun _ => smallConfig_untagged⟩, ?_⟩
    rintro t ht
    obtain rfl := Option.some.inj ht
    refine ⟨⟨?_, by decide, by decide, fun _ => smallConfig_untagged⟩, fun _ _ => trivial⟩
    intro k hk hmem
    have hk' : 2 < k := hk
    exact smallConfig_main_ne (by omega) (List.mem_singleton.mp hmem)
  exact ⟨_, rfl, rfl, run_intact ho rfl⟩

/-- An append after rotation and restart goes to the first file, before the second. -/
theorem restart_breaks_order :
    ¬ ∀ (sha256 : ByteArray → String) (cfg : AuditChainConfig) (acts : List Act)
      (t : Trace AuditEvent), 1 ≤ cfg.maxEventsPerSegment →
      run (step sha256 parsedLines cfg) start acts = some t →
      Intact parsedLines cfg sha256 t := by
  intro h
  have hi := (h byteText smallConfig (twoSegments ++ [.restart, .append (entryNamed "c")]) _
    (by decide) rfl).1
  have hread (a b c : AuditEvent) : readEvents parsedLines smallConfig
      (layout parsedLines smallConfig 1 [[a, c], [b]]) = [a, c, b] := by
    rw [readEvents, collectSegmentFiles_layout parsedLines smallConfig _ (by simp)
      (fun hp => absurd hp (by decide)) (fun _ _ => smallConfig_untagged),
      read_layout parsedLines smallConfig 1 _ (by simp)]
    rfl
  have hids := congrArg (List.map AuditEvent.id) ((hread _ _ _).symm.trans hi)
  exact absurd hids (by decide)

end NemesisBot.AuditChain

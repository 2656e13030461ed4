import NemesisBot.Security.AuditChain

/-! What an unchanged final hash says about the events behind it. The hasher is fed the
fields one after the other without lengths or separators, so the bytes alone do not say
where a field ends. -/
namespace NemesisBot.AuditChain

/-- Two event lists as an auditor compares them: same length, both verify, same first
`prev_hash`, only version 1 events, same final hash. -/
structure SameSeal (sha256 : ByteArray → String) (as bs : List AuditEvent) : Prop where
  length : as.length = bs.length
  verifies : verifyChain sha256 as = true
  verifies' : verifyChain sha256 bs = true
  start : as.head?.map AuditEvent.prevHash = bs.head?.map AuditEvent.prevHash
  version : ∀ e ∈ as, e.hashVersion = 1
  version' : ∀ e ∈ bs, e.hashVersion = 1
  final : as.getLast?.map AuditEvent.hash = bs.getLast?.map AuditEvent.hash

def SameRecord (a b : AuditEvent) : Prop :=
  a.timestamp = b.timestamp ∧ a.operation = b.operation ∧ a.toolName = b.toolName ∧
  a.user = b.user ∧ a.target = b.target ∧ a.decision = b.decision ∧ a.source = b.source ∧
  a.reason = b.reason

/-- The fields of the record in the order in which they are hashed after `prev_hash`. -/
def recordFields (e : AuditEvent) : List String :=
  [e.timestamp, e.operation, e.toolName, e.user, e.target, e.decision, e.source, e.reason]

/-- Byte lengths agree field by field. -/
def SameSizes (a b : AuditEvent) : Prop :=
  (recordFields a).map String.utf8ByteSize = (recordFields b).map String.utf8ByteSize

theorem sameRecord_iff (a b : AuditEvent) :
    SameRecord a b ↔ recordFields a = recordFields b := by
  simp [SameRecord, recordFields]

theorem hashFields_version_one {e : AuditEvent} (h : e.hashVersion = 1) :
    hashFields e = e.prevHash :: recordFields e := by
  simp [hashFields, recordFields, h]

theorem size_updates (xs : List String) :
    (updates xs).size = (xs.map String.utf8ByteSize).sum := by
  induction xs with
  | nil => rfl
  | cons s ss ih => simp [updates, ih, ByteArray.size_append]

theorem append_inj_of_size {a b c d : ByteArray} (h : a ++ b = c ++ d) (hs : b.size = d.size) :
    a = c ∧ b = d := by
  have hsize := congrArg ByteArray.size h
  simp only [ByteArray.size_append] at hsize
  obtain rfl : a = c := ByteArray.append_inj_left h (by omega)
  exact ⟨rfl, (ByteArray.append_right_inj a).mp h⟩

theorem updates_append (xs ys : List String) :
    updates (xs ++ ys) = updates xs ++ updates ys := by
  induction xs with
  | nil => simp [updates]
  | cons s ss ih => simp [updates, ih, ByteArray.append_assoc]

/-- Two neighbouring fields hash like their concatenation next to an empty field. -/
theorem updates_move_boundary (pre post : List String) (s t : String) :
    updates (pre ++ s :: t :: post) = updates (pre ++ (s ++ t) :: "" :: post) := by
  simp [updates_append, updates, ByteArray.append_assoc]

/-- Equal field lengths make the byte encoding of a field list injective. -/
theorem updates_inj {xs ys : List String}
    (hs : xs.map String.utf8ByteSize = ys.map String.utf8ByteSize)
    (h : updates xs = updates ys) : xs = ys := by
  induction xs generalizing ys with
  | nil =>
    cases ys with
    | nil => rfl
    | cons y ys => simp at hs
  | cons x xs ih =>
    cases ys with
    | nil => simp at hs
    | cons y ys =>
      simp only [List.map_cons, List.cons.injEq] at hs
      have hsize : (updates xs).size = (updates ys).size := by
        rw [size_updates, size_updates, hs.2]
      obtain ⟨hxy, ht⟩ := append_inj_of_size h hsize
      rw [ih hs.2 ht, String.toByteArray_inj.mp hxy]

/-- One event: its hash and its field lengths determine the record and `prev_hash`. -/
theorem event_of_hash {sha256 : ByteArray → String} (hinj : Function.Injective sha256)
    {a b : AuditEvent} (ha : computeEventHash sha256 a = a.hash)
    (hb : computeEventHash sha256 b = b.hash)
    (hva : a.hashVersion = 1) (hvb : b.hashVersion = 1)
    (hh : a.hash = b.hash) (hs : SameSizes a b) :
    SameRecord a b ∧ a.prevHash = b.prevHash := by
  have hu : updates (hashFields a) = updates (hashFields b) := by
    apply hinj
    change computeEventHash sha256 a = computeEventHash sha256 b
    rw [ha, hb, hh]
  rw [hashFields_version_one hva, hashFields_version_one hvb] at hu
  have hsize : (updates (recordFields a)).size = (updates (recordFields b)).size := by
    rw [size_updates, size_updates, hs]
  obtain ⟨hp, hr⟩ := append_inj_of_size hu hsize
  exact ⟨(sameRecord_iff a b).mpr (updates_inj hs hr), String.toByteArray_inj.mp hp⟩

/-- Backwards along the chain: each event fixes the hash of the one before it. -/
theorem records_of_sizes {sha256 : ByteArray → String} (hinj : Function.Injective sha256)
    (as bs : List AuditEvent)
    (ha : verifyChain sha256 as = true) (hb : verifyChain sha256 bs = true)
    (hva : ∀ e ∈ as, e.hashVersion = 1) (hvb : ∀ e ∈ bs, e.hashVersion = 1)
    (hf : as.getLast?.map AuditEvent.hash = bs.getLast?.map AuditEvent.hash)
    (hs : List.Forall₂ SameSizes as bs) : List.Forall₂ SameRecord as bs := by
  induction as using List.reverseRecOn generalizing bs with
  | nil =>
    obtain rfl : bs = [] := by simpa using hs
    exact List.Forall₂.nil
  | append_singleton as a ih =>
    obtain ⟨bs, b, hss, hab, rfl⟩ : ∃ cs c, List.Forall₂ SameSizes as cs ∧ SameSizes a c ∧
        bs = cs ++ [c] := by
      have hr := List.rel_reverse hs
      rw [List.reverse_append, List.reverse_singleton, List.singleton_append] at hr
      obtain ⟨c, cs, hc, hcs, he⟩ := List.forall₂_cons_left_iff.mp hr
      refine ⟨cs.reverse, c, by simpa using List.rel_reverse hcs, hc, ?_⟩
      rw [← List.reverse_cons, ← he, List.reverse_reverse]
    obtain ⟨ha, hpa, -, hca⟩ := (verifyAfter_append sha256 none as a).mp ha
    obtain ⟨hb, hpb, -, hcb⟩ := (verifyAfter_append sha256 none bs b).mp hb
    have hh : a.hash = b.hash := by simpa using hf
    obtain ⟨hrec, hprev⟩ := event_of_hash hinj hca hcb (hva a (by simp)) (hvb b (by simp)) hh hab
    have hlen := hss.length_eq
    have hlast : as.getLast?.map AuditEvent.hash = bs.getLast?.map AuditEvent.hash := by
      cases hA : as.getLast? with
      | none =>
        obtain rfl : as = [] := by simpa using hA
        obtain rfl : bs = [] := by simpa using hlen.symm
        rfl
      | some p =>
        cases hB : bs.getLast? with
        | none =>
          obtain rfl : bs = [] := by simpa using hB
          obtain rfl : as = [] := by simpa using hlen
          simp at hA
        | some q =>
          have h1 := hpa p (by simp [hA])
          have h2 := hpb q (by simp [hB])
          simp [← h1, ← h2, hprev]
    have ht := ih bs ha hb (fun e he => hva e (by simp [he])) (fun e he => hvb e (by simp [he]))
      hlast hss
    exact List.rel_append ht (List.Forall₂.cons hrec List.Forall₂.nil)

/-- The final hash seals the records exactly when their field boundaries are given. -/
theorem sealed_records_iff_sizes {sha256 : ByteArray → String}
    (hinj : Function.Injective sha256) {as bs : List AuditEvent}
    (h : SameSeal sha256 as bs) :
    List.Forall₂ SameRecord as bs ↔ List.Forall₂ SameSizes as bs := by
  constructor
  · intro hr
    refine hr.imp fun a b hab => ?_
    rw [SameSizes, (sameRecord_iff a b).mp hab]
  · exact records_of_sizes hinj as bs h.verifies h.verifies' h.version h.version' h.final

theorem charOfByte_injective : Function.Injective fun x : UInt8 => Char.ofNat x.toNat := by
  intro x y hxy
  have hval (z : UInt8) : (Char.ofNat z.toNat).toNat = z.toNat := by
    have hz : z.toNat < 256 := z.toNat_lt
    have hv : z.toNat.isValidChar := Or.inl (by omega)
    simp only [Char.ofNat, hv, dite_true]
    rfl
  have h := congrArg Char.toNat hxy
  simp only [hval] at h
  exact UInt8.toNat_inj.mp h

theorem byteText_injective : Function.Injective byteText := by
  intro a b h
  have hl := String.ofList_injective h
  exact ByteArray.ext (Array.toList_inj.mp (List.map_injective_iff.mpr charOfByte_injective hl))

theorem verifyChain_newEvent (sha256 : ByteArray → String) (p : String) (x : Entry) :
    verifyChain sha256 [newEvent sha256 p x] = true := by
  rw [verifyChain, verifyAfter_cons]
  exact ⟨by simp, by simp [newEvent], computeEventHash_newEvent sha256 p x, rfl⟩

/-- Two single-event chains seal each other when their hashed bytes are the same. -/
theorem sameSeal_newEvent (sha256 : ByteArray → String) (p : String) (x y : Entry)
    (h : (newEvent sha256 p x).hash = (newEvent sha256 p y).hash) :
    SameSeal sha256 [newEvent sha256 p x] [newEvent sha256 p y] where
  length := rfl
  verifies := verifyChain_newEvent sha256 p x
  verifies' := verifyChain_newEvent sha256 p y
  start := rfl
  version := by simp [newEvent]
  version' := by simp [newEvent]
  final := by simp [h]

/-- A denied shell command. -/
def deniedEntry : Entry where
  id := "1"
  timestamp := "2026-11-07T00:00:00Z"
  operation := "process_exec"
  toolName := "shell"
  user := "agent"
  source := "web"
  target := "rm /tmp/x"
  decision := "denied"
  reason := "rule"

theorem sealed_records_iff_sizes_copied :
    List.Forall₂ SameRecord [newEvent byteText zeroHash deniedEntry]
        [newEvent byteText zeroHash { deniedEntry with id := "2" }] ↔
      List.Forall₂ SameSizes [newEvent byteText zeroHash deniedEntry]
        [newEvent byteText zeroHash { deniedEntry with id := "2" }] :=
  sealed_records_iff_sizes byteText_injective
    (sameSeal_newEvent byteText zeroHash deniedEntry { deniedEntry with id := "2" } rfl)

/-- The decision moved into the target: another record under the same seal. -/
theorem moved_boundary_keeps_seal :
    ¬ ∀ (sha256 : ByteArray → String), Function.Injective sha256 →
      ∀ as bs, SameSeal sha256 as bs → List.Forall₂ SameRecord as bs := by
  intro h
  have hs := sameSeal_newEvent byteText zeroHash deniedEntry
    { deniedEntry with target := "rm /tmp/x" ++ "denied", decision := "" }
    (congrArg byteText (updates_move_boundary
      [zeroHash, "2026-11-07T00:00:00Z", "process_exec", "shell", "agent"] ["web", "rule"]
      "rm /tmp/x" "denied"))
  have hr := (List.forall₂_cons.mp (h byteText byteText_injective _ _ hs)).1
  have hd : "denied" = "" := hr.2.2.2.2.2.1
  exact absurd hd (by decide)

end NemesisBot.AuditChain

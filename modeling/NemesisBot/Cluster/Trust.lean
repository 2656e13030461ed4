import NemesisBot.Lib.Runs
import NemesisBot.Lib.Strings
import NemesisBot.Lib.Table

/-! The trust book: which nodes are trusted, which are revoked, and which keys sign mandates. -/
namespace NemesisBot.Trust
open Strings Runs

/-- `trust.toml` as it is on disk. -/
structure TrustBookData where
  trusted : List Text
  revoked : List Text
  mandateKeys : Table (Prod.fst : Text × Text → Text)
  mandateRevoked : List Text

structure TrustBook where
  data : TrustBookData
  trusted : List Text
  revoked : List Text

/-- The file of the book; a text that cannot be read or parsed has its error. -/
inductive Disk where
  | absent
  | unreadable (error : Text)
  | book (data : TrustBookData)

def irohPrefix : Text := "iroh:".toList

section Book
variable (toLowercase : Text → Text)

/-- The prefix goes before the text is lower-cased. -/
def normalizeId (s : Text) : Text := toLowercase (trimStartMatches irohPrefix (trim s))

def emptyData : TrustBookData := ⟨[], [], Table.empty, []⟩

def fromData (data : TrustBookData) : TrustBook :=
  ⟨data, data.trusted.map (normalizeId toLowercase), data.revoked.map (normalizeId toLowercase)⟩

def load : Disk → Except Text (Option TrustBook)
  | .absent => .ok none
  | .unreadable error => .error error
  | .book data => .ok (some (fromData toLowercase data))

/-- The write succeeds or fails as a whole. -/
def save (disk : Disk) (book : TrustBook) (written : Except Text Unit) :
    Disk × Except Text Unit :=
  match written with
  | .ok _ => (.book book.data, .ok ())
  | .error e => (disk, .error e)

/-- An entry of the list has this form. -/
def listed (norm : Text → Text) (entries : List Text) (id : Text) : Bool :=
  entries.any fun s => norm s = id

namespace TrustBook

def isTrusted (book : TrustBook) (nodeIdHex : Text) : Bool :=
  let id := toLowercase (trimStartMatches irohPrefix (trim nodeIdHex))
  if id ∈ book.revoked then false else id ∈ book.trusted

def trust (book : TrustBook) (nodeIdHex : Text) : TrustBook :=
  let id := normalizeId toLowercase nodeIdHex
  let data :=
    if listed (normalizeId toLowercase) book.data.trusted id then book.data
    else { book.data with trusted := book.data.trusted ++ [id] }
  { book with data := data, trusted := id :: book.trusted }

def revoke (book : TrustBook) (nodeIdHex : Text) : TrustBook :=
  let id := normalizeId toLowercase nodeIdHex
  let trusted := book.data.trusted.filter fun s => normalizeId toLowercase s ≠ id
  let revoked :=
    if listed (normalizeId toLowercase) book.data.revoked id then book.data.revoked
    else book.data.revoked ++ [id]
  ⟨{ book.data with trusted := trusted, revoked := revoked },
    book.trusted.filter (· ≠ id), id :: book.revoked⟩

def unrevoke (book : TrustBook) (nodeIdHex : Text) : TrustBook :=
  let id := normalizeId toLowercase nodeIdHex
  let revoked := book.data.revoked.filter fun s => normalizeId toLowercase s ≠ id
  { book with
    data := { book.data with revoked := revoked }
    revoked := book.revoked.filter (· ≠ id) }

end TrustBook

/-- A change of the book by hand; the first one makes the file. -/
def mutate (op : TrustBook → TrustBook) (disk : Disk) (written : Except Text Unit) :
    Disk × Except Text Unit :=
  match load toLowercase disk with
  | .error e => (disk, .error e)
  | .ok found =>
    save disk (op (found.getD (fromData toLowercase emptyData))) written

/-! The keys that sign mandates. -/

def mandateId (nodeId : Text) : Text := toLowercase (trim nodeId)

def isAsciiHexdigit (c : Char) : Bool :=
  (48 ≤ c.toNat && c.toNat ≤ 57) || (65 ≤ c.toNat && c.toNat ≤ 70) ||
    (97 ≤ c.toNat && c.toNat ≤ 102)

def normalizeMandatePubkey (s : Text) : Option Text :=
  let v := toLowercase (trim s)
  let shape :=
    if byteLen v = 66 then "02".toList.isPrefixOf v || "03".toList.isPrefixOf v
    else if byteLen v = 130 then "04".toList.isPrefixOf v
    else false
  if shape && v.all isAsciiHexdigit then some v else none

inductive MandateKeyVerdict where
  | pinned (key : Text)
  | revoked
  | absent
  | bookUnreadable
  deriving DecidableEq

inductive MandatePinOutcome where
  | pinned
  | unchanged
  | conflict (existing : Text)
  | distrusted
  | bookAbsent
  deriving DecidableEq

def badPubkey (pubkey : Text) : Text :=
  "mandate 公钥形态非法（期待 66/130 hex）：".toList ++ pubkey

def mandatePinLocked (disk : Disk) (book : TrustBook) (nodeId key : Text) (forced : Bool)
    (written : Except Text Unit) : Disk × Except Text MandatePinOutcome :=
  let id := mandateId toLowercase nodeId
  if listed (mandateId toLowercase) book.data.mandateRevoked id then (disk, .ok .distrusted)
  else
    let pin :=
      let keys := book.data.mandateKeys.put (id, key)
      let saved := save disk { book with data := { book.data with mandateKeys := keys } } written
      (saved.1, saved.2.map fun _ => MandatePinOutcome.pinned)
    match book.data.mandateKeys.find id with
    | some existing =>
      if normalizeMandatePubkey toLowercase existing.2 = some key then (disk, .ok .unchanged)
      else if forced then pin
      else (disk, .ok (.conflict existing.2))
    | none => pin

def mandateTofuPin (disk : Disk) (nodeId pubkey : Text) (written : Except Text Unit) :
    Disk × Except Text MandatePinOutcome :=
  match normalizeMandatePubkey toLowercase pubkey with
  | none => (disk, .error (badPubkey pubkey))
  | some key => match load toLowercase disk with
    | .error e => (disk, .error e)
    | .ok none => (disk, .ok .bookAbsent)
    | .ok (some book) => mandatePinLocked toLowercase disk book nodeId key false written

/-- By hand: another key is replaced, and a missing book is made. -/
def mandatePinForced (disk : Disk) (nodeId pubkey : Text) (written : Except Text Unit) :
    Disk × Except Text MandatePinOutcome :=
  match normalizeMandatePubkey toLowercase pubkey with
  | none => (disk, .error (badPubkey pubkey))
  | some key => match load toLowercase disk with
    | .error e => (disk, .error e)
    | .ok found =>
      mandatePinLocked toLowercase disk (found.getD (fromData toLowercase emptyData)) nodeId key
        true written

def mandateStateLocked (book : TrustBook) (nodeId : Text) : MandateKeyVerdict :=
  let id := mandateId toLowercase nodeId
  if listed (mandateId toLowercase) book.data.mandateRevoked id then .revoked
  else match book.data.mandateKeys.find id with
    | some k => .pinned k.2
    | none => .absent

def mandateKeyState (disk : Disk) (nodeId : Text) : MandateKeyVerdict :=
  match load toLowercase disk with
  | .ok (some book) => mandateStateLocked toLowercase book nodeId
  | .ok none => .absent
  | .error _ => .bookUnreadable

def mandateRevoke (disk : Disk) (nodeId : Text) (written : Except Text Unit) :
    Disk × Except Text Unit :=
  match load toLowercase disk with
  | .error e => (disk, .error e)
  | .ok none =>
    (disk, .error "trust.toml 不存在（mandate 互信未启用）——吊销无对象，先 mandate-pin".toList)
  | .ok (some book) =>
    let id := mandateId toLowercase nodeId
    let kept := book.data.mandateRevoked.filter fun s => mandateId toLowercase s ≠ id
    save disk { book with data := { book.data with mandateRevoked := kept ++ [id] } } written

def mandateUnrevoke (disk : Disk) (nodeId : Text) (written : Except Text Unit) :
    Disk × Except Text Unit :=
  match load toLowercase disk with
  | .error e => (disk, .error e)
  | .ok none =>
    (disk, .error "trust.toml 不存在（mandate 互信未启用）——解除吊销无对象".toList)
  | .ok (some book) =>
    let id := mandateId toLowercase nodeId
    let kept := book.data.mandateRevoked.filter fun s => mandateId toLowercase s ≠ id
    save disk { book with data := { book.data with mandateRevoked := kept } } written

/-! The gates. -/

inductive AnnounceVerdict where
  | adopt
  | veto (reason : Text)
  deriving DecidableEq

def readFailed : Text := "trust_book_read_failed".toList

def revokedReason : Text := "revoked".toList

/-- A node that is not known is trusted from now on; the book is read again before that. -/
def announceGate (disk fresh : Disk) (irohHex : Text) (written : Except Text Unit) :
    Disk × AnnounceVerdict :=
  match load toLowercase disk with
  | .error _ => (fresh, .veto readFailed)
  | .ok none => (fresh, .adopt)
  | .ok (some book) =>
    let id := normalizeId toLowercase irohHex
    if listed (normalizeId toLowercase) book.data.revoked id then (fresh, .veto revokedReason)
    else if listed (normalizeId toLowercase) book.data.trusted id then (fresh, .adopt)
    else match load toLowercase fresh with
      | .error _ => (fresh, .veto readFailed)
      | .ok none => (fresh, .adopt)
      | .ok (some again) =>
        if listed (normalizeId toLowercase) again.data.revoked id then
          (fresh, .veto revokedReason)
        else ((save fresh (again.trust toLowercase id) written).1, .adopt)

def dialVetoed (disk : Disk) (irohHex : Text) : Bool :=
  match load toLowercase disk with
  | .ok (some book) =>
    listed (normalizeId toLowercase) book.data.revoked (normalizeId toLowercase irohHex)
  | _ => false

end Book

/-! Equivalent spellings. -/

section Spelling
variable (toLowercase : Text → Text)

def isIrohPrefix (s : Text) : Bool := (s.take 5).map Char.toLower = irohPrefix

/-- The id itself, with no prefix in any letter case. -/
def canonicalId (s : Text) : Text :=
  toLowercase (dropFronts isIrohPrefix 5 (trim s).length (trim s))

/-- A second normalisation leaves the id as it is. -/
def Stable (s : Text) : Prop :=
  normalizeId toLowercase (normalizeId toLowercase s) = normalizeId toLowercase s

instance (s : Text) : Decidable (Stable toLowercase s) := inferInstanceAs (Decidable (_ = _))

/-- What Unicode says of lower-cased text. -/
structure LowercaseLaws : Prop where
  fixed : ∀ s t, s <:+: toLowercase t → toLowercase s = s
  trimmed : ∀ s, trim (toLowercase (trim s)) = toLowercase (trim s)
  prefixed : ∀ s, irohPrefix <+: toLowercase s ↔ isIrohPrefix s = true

end Spelling

section Laws
variable {toLowercase : Text → Text}

theorem isIrohPrefix_of_isPrefixOf {s : Text} (h : irohPrefix.isPrefixOf s = true) :
    isIrohPrefix s = true := by
  obtain ⟨rest, rfl⟩ := List.isPrefixOf_iff_prefix.mp h
  rfl

theorem not_irohPrefix_of_fixed (hl : LowercaseLaws toLowercase) {t : Text}
    (h : normalizeId toLowercase (toLowercase t) = toLowercase t) :
    ¬ irohPrefix <+: toLowercase t := by
  have hinfix : trimStartMatches irohPrefix (trim (toLowercase t)) <:+: toLowercase t :=
    (dropFronts_isSuffix _ _ _ _).isInfix.trans (trim_isInfix _)
  rw [normalizeId, hl.fixed _ _ hinfix] at h
  have hmiss := @dropFronts_miss (fun s => irohPrefix.isPrefixOf s) irohPrefix.length
    (by decide) (by decide) _ (trim (toLowercase t)) le_rfl
  rw [← trimStartMatches, h] at hmiss
  exact fun hp => by simp [List.isPrefixOf_iff_prefix.mpr hp] at hmiss

/-- The prefix of a stable id is not in capitals. -/
theorem Stable.canonical (hl : LowercaseLaws toLowercase) {s : Text}
    (h : Stable toLowercase s) : normalizeId toLowercase s = canonicalId toLowercase s := by
  have hmiss : isIrohPrefix (trimStartMatches irohPrefix (trim s)) = false :=
    Bool.eq_false_iff.mpr fun hp => not_irohPrefix_of_fixed hl h ((hl.prefixed _).mpr hp)
  have hsame := @dropFronts_widen (fun s => irohPrefix.isPrefixOf s) isIrohPrefix 5
    (fun s hs => isIrohPrefix_of_isPrefixOf hs) _ (trim s) hmiss
  rw [normalizeId, canonicalId, hsame]
  rfl

theorem mandateId_mandateId (hl : LowercaseLaws toLowercase) (n : Text) :
    mandateId toLowercase (mandateId toLowercase n) = mandateId toLowercase n := by
  rw [mandateId, mandateId, hl.trimmed, hl.fixed _ _ (List.infix_refl _)]

theorem listed_iff {norm : Text → Text} {entries : List Text} {id : Text} :
    listed norm entries id = true ↔ ∃ s ∈ entries, norm s = id := by
  simp [listed]

end Laws

/-! Sequences of calls. -/

/-- The calls that can change the book, with the outcome of the write. -/
inductive Call where
  | trust (id : Text) (written : Except Text Unit)
  | revoke (id : Text) (written : Except Text Unit)
  | unrevoke (id : Text) (written : Except Text Unit)
  | announceGate (id : Text) (written : Except Text Unit)
  | dialVetoed (id : Text)
  | mandateTofuPin (nodeId pubkey : Text) (written : Except Text Unit)
  | mandatePinForced (nodeId pubkey : Text) (written : Except Text Unit)
  | mandateRevoke (nodeId : Text) (written : Except Text Unit)
  | mandateUnrevoke (nodeId : Text) (written : Except Text Unit)

/-- The disk, with the ids that are revoked at the moment. -/
structure State where
  disk : Disk
  revoked : List Text
  mandateRevoked : List Text

section Runs
variable (toLowercase : Text → Text)

/-- The notes change with the calls that report success. -/
def noted (done : Disk × Except Text Unit) (s : State) (revoked mandateRevoked : List Text) :
    State :=
  match done.2 with
  | .ok _ => ⟨done.1, revoked, mandateRevoked⟩
  | .error _ => { s with disk := done.1 }

def step (s : State) : Call → Option State
  | .trust id written =>
    some { s with disk := (mutate toLowercase (·.trust toLowercase id) s.disk written).1 }
  | .revoke id written =>
    some (noted (mutate toLowercase (·.revoke toLowercase id) s.disk written) s
      (canonicalId toLowercase id :: s.revoked) s.mandateRevoked)
  | .unrevoke id written =>
    some (noted (mutate toLowercase (·.unrevoke toLowercase id) s.disk written) s
      (s.revoked.filter (· ≠ canonicalId toLowercase id)) s.mandateRevoked)
  | .announceGate id written =>
    some { s with disk := (announceGate toLowercase s.disk s.disk id written).1 }
  | .dialVetoed _ => some s
  | .mandateTofuPin nodeId pubkey written =>
    some { s with disk := (mandateTofuPin toLowercase s.disk nodeId pubkey written).1 }
  | .mandatePinForced nodeId pubkey written =>
    some { s with disk := (mandatePinForced toLowercase s.disk nodeId pubkey written).1 }
  | .mandateRevoke nodeId written =>
    some (noted (mandateRevoke toLowercase s.disk nodeId written) s s.revoked
      (mandateId toLowercase nodeId :: s.mandateRevoked))
  | .mandateUnrevoke nodeId written =>
    some (noted (mandateUnrevoke toLowercase s.disk nodeId written) s s.revoked
      (s.mandateRevoked.filter (· ≠ mandateId toLowercase nodeId)))

def start (disk : Disk) : State := ⟨disk, [], []⟩

/-- An id that is revoked is stable. -/
def StableCall : Call → Prop
  | .revoke id _ => Stable toLowercase id
  | _ => True

instance : (c : Call) → Decidable (StableCall toLowercase c)
  | .revoke id _ => inferInstanceAs (Decidable (Stable toLowercase id))
  | .trust _ _ | .unrevoke _ _ | .announceGate _ _ | .dialVetoed _ | .mandateTofuPin _ _ _
  | .mandatePinForced _ _ _ | .mandateRevoke _ _ | .mandateUnrevoke _ _ => .isTrue trivial

end Runs

/-! What is in the book. -/

section Keeps
variable (toLowercase : Text → Text)

def Disk.Revokes : Disk → Text → Prop
  | .book data, x => listed (normalizeId toLowercase) data.revoked x = true
  | _, _ => False

def Disk.MandateRevokes : Disk → Text → Prop
  | .book data, m => listed (mandateId toLowercase) data.mandateRevoked m = true
  | _, _ => False

/-- The key in the book under this lower-cased id. -/
def Disk.pinned : Disk → Text → Option Text
  | .book data, id => (data.mandateKeys.find id).map Prod.snd
  | _, _ => none

/-- What the second book still has of the first. -/
structure Extends (R M K : Text → Prop) (d d' : Disk) : Prop where
  revokes : ∀ x, R x → d.Revokes toLowercase x → d'.Revokes toLowercase x
  mandate : ∀ m, M m → d.MandateRevokes toLowercase m → d'.MandateRevokes toLowercase m
  key : ∀ id k, K id → d.pinned id = some k → d'.pinned id = some k

/-- The data that a change by hand starts from. -/
def Found (disk : Disk) (data : TrustBookData) : Prop :=
  disk = .book data ∨ disk = .absent ∧ data = emptyData

end Keeps

section Change
variable {toLowercase : Text → Text} {R M K : Text → Prop} {disk : Disk}
  {data data' : TrustBookData} {written : Except Text Unit}

theorem Extends.refl (d : Disk) : Extends toLowercase R M K d d :=
  ⟨fun _ _ h => h, fun _ _ h => h, fun _ _ _ h => h⟩

theorem Extends.of_found (hf : Found disk data)
    (hr : ∀ x, R x → listed (normalizeId toLowercase) data.revoked x = true →
      listed (normalizeId toLowercase) data'.revoked x = true)
    (hm : ∀ m, M m → listed (mandateId toLowercase) data.mandateRevoked m = true →
      listed (mandateId toLowercase) data'.mandateRevoked m = true)
    (hk : ∀ id p, K id → data.mandateKeys.find id = some p →
      data'.mandateKeys.find id = some p) :
    Extends toLowercase R M K disk (.book data') := by
  obtain rfl | ⟨rfl, -⟩ := hf
  · refine ⟨hr, hm, fun id k hid h => ?_⟩
    obtain ⟨p, hp, rfl⟩ := Option.map_eq_some_iff.mp h
    exact Option.map_eq_some_iff.mpr ⟨p, hk id p hid hp, rfl⟩
  · exact ⟨fun _ _ h => h.elim, fun _ _ h => h.elim, fun _ _ _ h => nomatch h⟩

theorem listed_filter {norm : Text → Text} {entries : List Text} {z x : Text} (hx : z ≠ x)
    (h : listed norm entries x = true) :
    listed norm (entries.filter fun s => norm s ≠ z) x = true := by
  obtain ⟨e, he, rfl⟩ := listed_iff.mp h
  exact listed_iff.mpr ⟨e, List.mem_filter.mpr ⟨he, by simpa using hx.symm⟩, rfl⟩

theorem listed_append {norm : Text → Text} {entries more : List Text} {x : Text}
    (h : listed norm entries x = true) : listed norm (entries ++ more) x = true := by
  obtain ⟨e, he, rfl⟩ := listed_iff.mp h
  exact listed_iff.mpr ⟨e, List.mem_append_left more he, rfl⟩

theorem save_cases (disk : Disk) (book : TrustBook) (written : Except Text Unit) :
    save disk book written = (.book book.data, .ok ()) ∨
      ∃ e, save disk book written = (disk, .error e) := by
  cases written with
  | ok _ => exact .inl rfl
  | error e => exact .inr ⟨e, rfl⟩

variable (toLowercase) in
theorem mutate_cases (op : TrustBook → TrustBook) (disk : Disk) (written : Except Text Unit) :
    (∃ data, Found disk data ∧
      mutate toLowercase op disk written = (.book (op (fromData toLowercase data)).data, .ok ())) ∨
      ∃ e, mutate toLowercase op disk written = (disk, .error e) := by
  cases disk with
  | unreadable e => exact .inr ⟨e, rfl⟩
  | absent =>
    obtain h | ⟨e, h⟩ := save_cases .absent (op (fromData toLowercase emptyData)) written
    · exact .inl ⟨emptyData, .inr ⟨rfl, rfl⟩, h⟩
    · exact .inr ⟨e, h⟩
  | book data =>
    obtain h | ⟨e, h⟩ := save_cases (.book data) (op (fromData toLowercase data)) written
    · exact .inl ⟨data, .inl rfl, h⟩
    · exact .inr ⟨e, h⟩

variable (toLowercase) in
theorem announceGate_cases (disk : Disk) (id : Text) (written : Except Text Unit) :
    (announceGate toLowercase disk disk id written).1 = disk ∨
      ∃ data, disk = .book data ∧ (announceGate toLowercase disk disk id written).1 =
        .book ((fromData toLowercase data).trust toLowercase
          (normalizeId toLowercase id)).data := by
  cases disk with
  | absent => exact .inl rfl
  | unreadable e => exact .inl rfl
  | book data =>
    simp only [announceGate, load]
    split
    · exact .inl rfl
    · split
      · exact .inl rfl
      · obtain h | ⟨e, h⟩ := save_cases (.book data) ((fromData toLowercase data).trust
          toLowercase (normalizeId toLowercase id)) written
        · exact .inr ⟨data, rfl, by rw [h]⟩
        · exact .inl (by rw [h])

variable (toLowercase) in
theorem mandatePinLocked_cases (disk : Disk) (book : TrustBook) (n key : Text) (forced : Bool)
    (written : Except Text Unit) :
    (mandatePinLocked toLowercase disk book n key forced written).1 = disk ∨
      (forced = true ∨ book.data.mandateKeys.find (mandateId toLowercase n) = none) ∧
        (mandatePinLocked toLowercase disk book n key forced written).1 =
          .book { book.data with
            mandateKeys := book.data.mandateKeys.put (mandateId toLowercase n, key) } := by
  simp only [mandatePinLocked]
  split
  · exact .inl rfl
  · have hpin := save_cases disk { book with data := { book.data with
      mandateKeys := book.data.mandateKeys.put (mandateId toLowercase n, key) } } written
    cases hf : book.data.mandateKeys.find (mandateId toLowercase n) with
    | none =>
      obtain h | ⟨e, h⟩ := hpin
      · exact .inr ⟨.inr rfl, by simp only [h]⟩
      · exact .inl (by simp only [h])
    | some existing =>
      simp only
      split
      · exact .inl rfl
      · split
        · rename_i hforced
          obtain h | ⟨e, h⟩ := hpin
          · exact .inr ⟨.inl hforced, by simp only [h]⟩
          · exact .inl (by simp only [h])
        · exact .inl rfl

variable (toLowercase) in
theorem mandateTofuPin_cases (disk : Disk) (n pubkey : Text) (written : Except Text Unit) :
    (mandateTofuPin toLowercase disk n pubkey written).1 = disk ∨
      ∃ data key, disk = .book data ∧ data.mandateKeys.find (mandateId toLowercase n) = none ∧
        (mandateTofuPin toLowercase disk n pubkey written).1 =
          .book { data with
            mandateKeys := data.mandateKeys.put (mandateId toLowercase n, key) } := by
  rw [mandateTofuPin]
  split
  · exact .inl rfl
  · rename_i key _
    cases disk with
    | absent => exact .inl rfl
    | unreadable e => exact .inl rfl
    | book data =>
      obtain h | ⟨hfree, h⟩ := mandatePinLocked_cases toLowercase (.book data)
        (fromData toLowercase data) n key false written
      · exact .inl h
      · exact .inr ⟨data, key, rfl, hfree.resolve_left (by simp), h⟩

variable (toLowercase) in
theorem mandatePinForced_cases (disk : Disk) (n pubkey : Text) (written : Except Text Unit) :
    (mandatePinForced toLowercase disk n pubkey written).1 = disk ∨
      ∃ data key, Found disk data ∧ (mandatePinForced toLowercase disk n pubkey written).1 =
        .book { data with
          mandateKeys := data.mandateKeys.put (mandateId toLowercase n, key) } := by
  rw [mandatePinForced]
  split
  · exact .inl rfl
  · rename_i key _
    cases disk with
    | unreadable e => exact .inl rfl
    | absent =>
      obtain h | ⟨-, h⟩ := mandatePinLocked_cases toLowercase .absent
        (fromData toLowercase emptyData) n key true written
      · exact .inl h
      · exact .inr ⟨emptyData, key, .inr ⟨rfl, rfl⟩, h⟩
    | book data =>
      obtain h | ⟨-, h⟩ := mandatePinLocked_cases toLowercase (.book data)
        (fromData toLowercase data) n key true written
      · exact .inl h
      · exact .inr ⟨data, key, .inl rfl, h⟩

variable (toLowercase) in
theorem mandateRevoke_cases (disk : Disk) (n : Text) (written : Except Text Unit) :
    (∃ data, disk = .book data ∧ mandateRevoke toLowercase disk n written =
      (.book { data with mandateRevoked := (data.mandateRevoked.filter fun s =>
        mandateId toLowercase s ≠ mandateId toLowercase n) ++ [mandateId toLowercase n] },
          .ok ())) ∨
      ∃ e, mandateRevoke toLowercase disk n written = (disk, .error e) := by
  cases disk with
  | absent => exact .inr ⟨_, rfl⟩
  | unreadable e => exact .inr ⟨e, rfl⟩
  | book data =>
    obtain h | ⟨e, h⟩ := save_cases (.book data) _ written
    · exact .inl ⟨data, rfl, h⟩
    · exact .inr ⟨e, h⟩

variable (toLowercase) in
theorem mandateUnrevoke_cases (disk : Disk) (n : Text) (written : Except Text Unit) :
    (∃ data, disk = .book data ∧ mandateUnrevoke toLowercase disk n written =
      (.book { data with mandateRevoked := (data.mandateRevoked.filter fun s =>
        mandateId toLowercase s ≠ mandateId toLowercase n) }, .ok ())) ∨
      ∃ e, mandateUnrevoke toLowercase disk n written = (disk, .error e) := by
  cases disk with
  | absent => exact .inr ⟨_, rfl⟩
  | unreadable e => exact .inr ⟨e, rfl⟩
  | book data =>
    obtain h | ⟨e, h⟩ := save_cases (.book data) _ written
    · exact .inl ⟨data, rfl, h⟩
    · exact .inr ⟨e, h⟩

/-! The three changes by hand, and the pin. -/

theorem trust_extends (hf : Found disk data) (id : Text) : Extends toLowercase R M K disk
    (.book ((fromData toLowercase data).trust toLowercase id).data) := by
  have hdata : ((fromData toLowercase data).trust toLowercase id).data.revoked = data.revoked ∧
      ((fromData toLowercase data).trust toLowercase id).data.mandateRevoked =
        data.mandateRevoked ∧
      ((fromData toLowercase data).trust toLowercase id).data.mandateKeys = data.mandateKeys := by
    simp only [TrustBook.trust]
    split
    · exact ⟨rfl, rfl, rfl⟩
    · exact ⟨rfl, rfl, rfl⟩
  obtain ⟨hr, hm, hk⟩ := hdata
  exact .of_found hf (fun x _ h => by rwa [hr]) (fun m _ h => by rwa [hm])
    fun id p _ h => by rwa [hk]

theorem revoke_extends (hf : Found disk data) (id : Text) : Extends toLowercase R M K disk
    (.book ((fromData toLowercase data).revoke toLowercase id).data) := by
  refine .of_found hf (fun x _ h => ?_) (fun m _ h => h) fun id p _ h => h
  simp only [TrustBook.revoke]
  split
  · exact h
  · exact listed_append h

theorem revoke_revokes (data : TrustBookData) {id : Text} (h : Stable toLowercase id) :
    Disk.Revokes toLowercase (.book ((fromData toLowercase data).revoke toLowercase id).data)
      (normalizeId toLowercase id) := by
  simp only [TrustBook.revoke, Disk.Revokes]
  split
  · rename_i hlisted
    exact hlisted
  · exact listed_iff.mpr ⟨normalizeId toLowercase id, by simp, h⟩

theorem unrevoke_extends (hf : Found disk data) {id : Text}
    (hR : ∀ x, R x → normalizeId toLowercase id ≠ x) : Extends toLowercase R M K disk
    (.book ((fromData toLowercase data).unrevoke toLowercase id).data) :=
  .of_found hf (fun x hx h => listed_filter (hR x hx) h) (fun _ _ h => h) fun _ _ _ h => h

theorem put_extends (hf : Found disk data) {id : Text} (key : Text)
    (hK : data.mandateKeys.find id = none ∨ ∀ k, K k → k ≠ id) : Extends toLowercase R M K disk
    (.book { data with mandateKeys := data.mandateKeys.put (id, key) }) := by
  refine .of_found hf (fun _ _ h => h) (fun _ _ h => h) fun k p hk hp => ?_
  have hne : k ≠ id := by
    obtain hnone | hK := hK
    · rintro rfl
      rw [hnone] at hp
      cases hp
    · exact hK k hk
  simpa [hne] using hp

end Change

/-! Whole runs. -/

section Steps
variable {toLowercase : Text → Text} {R M K : Text → Prop} {s t : State} {c : Call}

theorem mandateRevoke_lists (hl : LowercaseLaws toLowercase) {entries : List Text} (n : Text)
    {m : Text} (h : m = mandateId toLowercase n ∨
      listed (mandateId toLowercase) entries m = true) :
    listed (mandateId toLowercase) ((entries.filter fun s =>
      mandateId toLowercase s ≠ mandateId toLowercase n) ++ [mandateId toLowercase n]) m =
        true := by
  by_cases hm : mandateId toLowercase n = m
  · exact listed_iff.mpr ⟨mandateId toLowercase n, by simp, by rw [mandateId_mandateId hl, hm]⟩
  · exact listed_append (listed_filter hm (h.resolve_left fun he => hm he.symm))

theorem noted_disk (done : Disk × Except Text Unit) (s : State) (revoked mandate : List Text) :
    (noted done s revoked mandate).disk = done.1 := by
  rw [noted]
  split <;> rfl

/-- Only the call for it takes something out of the book. -/
theorem step_extends (hl : LowercaseLaws toLowercase) (ht : step toLowercase s c = some t) :
    Extends toLowercase (fun x => ∀ z w, c = .unrevoke z w → normalizeId toLowercase z ≠ x)
      (fun m => ∀ n w, c = .mandateUnrevoke n w → mandateId toLowercase n ≠ m)
      (fun id => ∀ n p w, c = .mandatePinForced n p w → id ≠ mandateId toLowercase n)
      s.disk t.disk := by
  cases c with
  | trust id written =>
    obtain rfl := Option.some.inj ht
    obtain ⟨data, hf, he⟩ | ⟨e, he⟩ := mutate_cases toLowercase (·.trust toLowercase id) s.disk
      written
    · simp only [he]
      exact trust_extends hf id
    · simp only [he]
      exact .refl s.disk
  | revoke id written =>
    obtain rfl := Option.some.inj ht
    rw [noted_disk]
    obtain ⟨data, hf, he⟩ | ⟨e, he⟩ := mutate_cases toLowercase (·.revoke toLowercase id) s.disk
      written
    · rw [he]
      exact revoke_extends hf id
    · rw [he]
      exact .refl s.disk
  | unrevoke id written =>
    obtain rfl := Option.some.inj ht
    rw [noted_disk]
    obtain ⟨data, hf, he⟩ | ⟨e, he⟩ := mutate_cases toLowercase (·.unrevoke toLowercase id) s.disk
      written
    · rw [he]
      exact unrevoke_extends hf fun x hx => hx id written rfl
    · rw [he]
      exact .refl s.disk
  | announceGate id written =>
    obtain rfl := Option.some.inj ht
    obtain he | ⟨data, hd, he⟩ := announceGate_cases toLowercase s.disk id written
    · simp only [he]
      exact .refl s.disk
    · simp only [he]
      exact trust_extends (.inl hd) _
  | dialVetoed id =>
    obtain rfl := Option.some.inj ht
    exact .refl s.disk
  | mandateTofuPin n pubkey written =>
    obtain rfl := Option.some.inj ht
    obtain he | ⟨data, key, hd, hfree, he⟩ := mandateTofuPin_cases toLowercase
      s.disk n pubkey written
    · simp only [he]
      exact .refl s.disk
    · simp only [he]
      exact put_extends (.inl hd) key (.inl hfree)
  | mandatePinForced n pubkey written =>
    obtain rfl := Option.some.inj ht
    obtain he | ⟨data, key, hf, he⟩ := mandatePinForced_cases toLowercase
      s.disk n pubkey written
    · simp only [he]
      exact .refl s.disk
    · simp only [he]
      exact put_extends hf key (.inr fun k hk => hk n pubkey written rfl)
  | mandateRevoke n written =>
    obtain rfl := Option.some.inj ht
    rw [noted_disk]
    obtain ⟨data, hd, he⟩ | ⟨e, he⟩ := mandateRevoke_cases toLowercase
      s.disk n written
    · rw [he]
      exact .of_found (.inl hd) (fun _ _ h => h)
        (fun m _ h => mandateRevoke_lists hl n (.inr h)) fun _ _ _ h => h
    · rw [he]
      exact .refl s.disk
  | mandateUnrevoke n written =>
    obtain rfl := Option.some.inj ht
    rw [noted_disk]
    obtain ⟨data, hd, he⟩ | ⟨e, he⟩ := mandateUnrevoke_cases toLowercase
      s.disk n written
    · rw [he]
      exact .of_found (.inl hd) (fun _ _ h => h)
        (fun m hm h => listed_filter (hm n written rfl) h) fun _ _ _ h => h
    · rw [he]
      exact .refl s.disk

/-- The entries behind the notes are in the book. -/
structure Kept (toLowercase : Text → Text) (s : State) : Prop where
  stable : ∀ x ∈ s.revoked, normalizeId toLowercase x = x
  revokes : ∀ x ∈ s.revoked, s.disk.Revokes toLowercase x
  mandate : ∀ m ∈ s.mandateRevoked, s.disk.MandateRevokes toLowercase m

theorem Kept.of_extends (h : Kept toLowercase s) (hext : Extends toLowercase R M K s.disk t.disk)
    (hr : ∀ x ∈ t.revoked, x ∈ s.revoked ∧ R x)
    (hm : ∀ m ∈ t.mandateRevoked, m ∈ s.mandateRevoked ∧ M m) : Kept toLowercase t :=
  ⟨fun x hx => h.stable x (hr x hx).1,
    fun x hx => hext.revokes x (hr x hx).2 (h.revokes x (hr x hx).1),
    fun m hx => hext.mandate m (hm m hx).2 (h.mandate m (hm m hx).1)⟩

theorem kept_step (hl : LowercaseLaws toLowercase) (h : Kept toLowercase s)
    (hc : StableCall toLowercase c) (ht : step toLowercase s c = some t) :
    Kept toLowercase t := by
  have hext := step_extends hl ht
  cases c with
  | trust | announceGate | dialVetoed | mandateTofuPin | mandatePinForced =>
    obtain rfl := Option.some.inj ht
    exact h.of_extends hext (fun x hx => ⟨hx, nofun⟩) fun m hm => ⟨hm, nofun⟩
  | revoke id written =>
    obtain rfl := Option.some.inj ht
    obtain ⟨data, hf, he⟩ | ⟨e, he⟩ := mutate_cases toLowercase (·.revoke toLowercase id) s.disk
      written
    · have hid : normalizeId toLowercase id = canonicalId toLowercase id :=
        Stable.canonical hl hc
      rw [he] at hext ⊢
      refine ⟨fun x hx => ?_, fun x hx => ?_, fun m hm => hext.mandate m nofun (h.mandate m hm)⟩
      · obtain rfl | hx := List.mem_cons.mp hx
        · rw [← hid]
          exact hc
        · exact h.stable x hx
      · obtain rfl | hx := List.mem_cons.mp hx
        · rw [← hid]
          exact revoke_revokes data hc
        · exact hext.revokes x nofun (h.revokes x hx)
    · rw [he]
      exact h
  | unrevoke id written =>
    obtain rfl := Option.some.inj ht
    obtain ⟨data, hf, he⟩ | ⟨e, he⟩ := mutate_cases toLowercase (·.unrevoke toLowercase id) s.disk
      written
    · rw [he] at hext ⊢
      refine h.of_extends hext (fun x hx => ?_) fun m hm => ⟨hm, nofun⟩
      obtain ⟨hx, hne⟩ := List.mem_filter.mp hx
      refine ⟨hx, fun z w hz => ?_⟩
      obtain ⟨rfl, -⟩ := Call.unrevoke.inj hz
      -- an id that would be taken out under this name was stable, so the names agree
      rintro rfl
      simp [Stable.canonical hl (h.stable _ hx)] at hne
    · rw [he]
      exact h
  | mandateRevoke n written =>
    obtain rfl := Option.some.inj ht
    obtain ⟨data, hd, he⟩ | ⟨e, he⟩ := mandateRevoke_cases toLowercase
      s.disk n written
    · rw [he] at hext ⊢
      refine ⟨h.stable, fun x hx => hext.revokes x nofun (h.revokes x hx), fun m hm => ?_⟩
      obtain rfl | hm := List.mem_cons.mp hm
      · exact mandateRevoke_lists hl n (.inl rfl)
      · exact hext.mandate m nofun (h.mandate m hm)
    · rw [he]
      exact h
  | mandateUnrevoke n written =>
    obtain rfl := Option.some.inj ht
    obtain ⟨data, hd, he⟩ | ⟨e, he⟩ := mandateUnrevoke_cases toLowercase
      s.disk n written
    · rw [he] at hext ⊢
      refine h.of_extends hext (fun x hx => ⟨hx, nofun⟩) fun m hm => ?_
      obtain ⟨hm, hne⟩ := List.mem_filter.mp hm
      refine ⟨hm, fun z w hz => ?_⟩
      obtain ⟨rfl, -⟩ := Call.mandateUnrevoke.inj hz
      rintro rfl
      simp at hne
    · rw [he]
      exact h

theorem kept_run (hl : LowercaseLaws toLowercase) {disk : Disk} {calls : List Call}
    (hok : Along (step toLowercase) (fun _ c => StableCall toLowercase c) (start disk) calls)
    (hrun : run (step toLowercase) (start disk) calls = some s) : Kept toLowercase s :=
  run_invariant (fun _ _ _ h hc ht => kept_step hl h hc ht)
    ⟨by simp [start], by simp [start], by simp [start]⟩ hok hrun

/-- Without a pin by force the key of a node stays in the book. -/
theorem pinned_run (hl : LowercaseLaws toLowercase) {id k : Text} {calls : List Call}
    (hno : ∀ n p w, .mandatePinForced n p w ∈ calls → id ≠ mandateId toLowercase n)
    (hk : s.disk.pinned id = some k) (hrun : run (step toLowercase) s calls = some t) :
    t.disk.pinned id = some k := by
  induction calls generalizing s with
  | nil =>
    obtain rfl : s = t := by simpa [run] using hrun
    exact hk
  | cons c calls ih =>
    obtain ⟨m, hm, hrun⟩ := (run_cons_iff s t c calls).mp hrun
    refine ih (fun n p w h => hno n p w (List.mem_cons_of_mem c h)) ?_ hrun
    exact (step_extends hl hm).key id k
      (fun n p w hc => hno n p w (hc ▸ List.mem_cons_self)) hk

end Steps

section Answers
variable {toLowercase : Text → Text} {disk : Disk}

/-- What a revoked id meets. -/
theorem revokes_answers {y : Text} (h : disk.Revokes toLowercase (normalizeId toLowercase y)) :
    (∃ book, load toLowercase disk = .ok (some book) ∧ book.isTrusted toLowercase y = false) ∧
      dialVetoed toLowercase disk y = true ∧
      ∀ written, announceGate toLowercase disk disk y written = (disk, .veto revokedReason) := by
  cases disk with
  | absent => exact h.elim
  | unreadable e => exact h.elim
  | book data =>
    refine ⟨⟨_, rfl, ?_⟩, h, fun written => ?_⟩
    · obtain ⟨e, he, hn⟩ := listed_iff.mp h
      have hmem : normalizeId toLowercase y ∈ data.revoked.map (normalizeId toLowercase) :=
        List.mem_map.mpr ⟨e, he, hn⟩
      simp only [TrustBook.isTrusted, fromData]
      exact if_pos hmem
    · have hlisted : listed (normalizeId toLowercase) data.revoked (normalizeId toLowercase y) =
          true := h
      simp only [announceGate, load, fromData, if_pos hlisted]

theorem mandateRevokes_answers {n : Text}
    (h : disk.MandateRevokes toLowercase (mandateId toLowercase n)) :
    mandateKeyState toLowercase disk n = .revoked ∧
      ∀ n' key written, mandateId toLowercase n' = mandateId toLowercase n →
        (mandateTofuPin toLowercase disk n' key written).1 = disk ∧
        (mandatePinForced toLowercase disk n' key written).1 = disk := by
  cases disk with
  | absent => exact h.elim
  | unreadable e => exact h.elim
  | book data =>
    have hlisted : listed (mandateId toLowercase) data.mandateRevoked (mandateId toLowercase n) =
        true := h
    refine ⟨by simp only [mandateKeyState, load, fromData, mandateStateLocked, if_pos hlisted],
      fun n' key written hn => ⟨?_, ?_⟩⟩
    · rw [mandateTofuPin]
      split
      · rfl
      · simp only [load, fromData, mandatePinLocked, hn, if_pos hlisted]
    · rw [mandatePinForced]
      split
      · rfl
      · simp only [load, fromData, Option.getD_some, mandatePinLocked, hn, if_pos hlisted]

theorem pinned_answers {n k : Text} (h : disk.pinned (mandateId toLowercase n) = some k) :
    mandateKeyState toLowercase disk n = .pinned k ∨
      mandateKeyState toLowercase disk n = .revoked := by
  cases disk with
  | absent => cases h
  | unreadable e => cases h
  | book data =>
    obtain ⟨p, hp, rfl⟩ := Option.map_eq_some_iff.mp h
    simp only [mandateKeyState, load, fromData, mandateStateLocked, hp]
    split
    · exact .inr rfl
    · exact .inl rfl

end Answers

/-- Revocation is absolute for ids that the normalisation leaves as they are. -/
theorem revocation_absolute {toLowercase : Text → Text} (hl : LowercaseLaws toLowercase)
    {disk : Disk} {calls : List Call} {s : State}
    (hok : Along (step toLowercase) (fun _ c => StableCall toLowercase c) (start disk) calls)
    (hrun : run (step toLowercase) (start disk) calls = some s) :
    (∀ y, canonicalId toLowercase y ∈ s.revoked → Stable toLowercase y →
      (∃ book, load toLowercase s.disk = .ok (some book) ∧
        book.isTrusted toLowercase y = false) ∧
      dialVetoed toLowercase s.disk y = true ∧
      ∀ written, announceGate toLowercase s.disk s.disk y written =
        (s.disk, .veto revokedReason)) ∧
    (∀ n, mandateId toLowercase n ∈ s.mandateRevoked →
      mandateKeyState toLowercase s.disk n = .revoked ∧
      ∀ n' key written, mandateId toLowercase n' = mandateId toLowercase n →
        (mandateTofuPin toLowercase s.disk n' key written).1 = s.disk ∧
        (mandatePinForced toLowercase s.disk n' key written).1 = s.disk) ∧
    ∀ n k, s.disk.pinned (mandateId toLowercase n) = some k → ∀ later t,
      (∀ n' p w, .mandatePinForced n' p w ∈ later →
        mandateId toLowercase n ≠ mandateId toLowercase n') →
      run (step toLowercase) s later = some t →
      t.disk.pinned (mandateId toLowercase n) = some k ∧
        (mandateKeyState toLowercase t.disk n = .pinned k ∨
          mandateKeyState toLowercase t.disk n = .revoked) := by
  have h := kept_run hl hok hrun
  refine ⟨fun y hy hstable => ?_, fun n hn => mandateRevokes_answers (h.mandate _ hn),
    fun n k hk later t hno hlater => ?_⟩
  · apply revokes_answers
    rw [hstable.canonical hl]
    exact h.revokes _ hy
  · have hkept := pinned_run hl hno hk hlater
    exact ⟨hkept, pinned_answers hkept⟩

/-- Where no entry was written by hand in another form, only stable ids are vetoed. -/
theorem dialVetoed_iff_stable {toLowercase : Text → Text} (hl : LowercaseLaws toLowercase)
    {data : TrustBookData} (hdata : ∀ e ∈ data.revoked, Stable toLowercase e) {y : Text}
    (hy : listed (normalizeId toLowercase) data.revoked (canonicalId toLowercase y) = true) :
    dialVetoed toLowercase (.book data) y = true ↔ Stable toLowercase y := by
  constructor
  · intro h
    obtain ⟨e, he, hn⟩ := listed_iff.mp h
    have hstable := hdata e he
    rwa [Stable, hn] at hstable
  · intro h
    rw [← h.canonical hl] at hy
    exact hy

/-! Ids of ASCII characters. -/

def asciiLower (s : Text) : Text := s.map Char.toLower

theorem isWhitespace_toLower (c : Char) : isWhitespace c.toLower = isWhitespace c := by
  by_cases h : c.isUpper
  · have hn : 65 ≤ c.toNat ∧ c.toNat ≤ 90 := by
      simpa [Char.isUpper, UInt32.le_iff_toNat_le] using h
    have hlow : c.toLower.toNat = c.toNat + 32 := by
      rw [Char.toLower_eq_of_isUpper h, Char.toNat_ofNat, if_pos (Or.inl (by omega))]
    simp only [isWhitespace, hlow]
    rw [Bool.eq_iff_iff]
    simp
    omega
  · rw [Char.toLower_eq_of_not_isUpper h]

theorem asciiLower_laws : LowercaseLaws asciiLower where
  fixed s t h := by
    have hmem (c : Char) (hc : c ∈ s) : c.toLower = c := by
      obtain ⟨d, -, rfl⟩ := List.mem_map.mp (h.subset hc)
      exact Char.toLower_toLower_eq_toLower d
    exact (List.map_congr_left hmem).trans (List.map_id s)
  trimmed s := by
    rw [asciiLower, trim_map isWhitespace_toLower, trim_trim]
  prefixed s := by
    rw [isIrohPrefix, asciiLower, List.prefix_iff_eq_take, ← List.map_take, decide_eq_true_eq,
      eq_comm]
    rfl

def pubkey : Text := "02".toList ++ List.replicate 64 'a'

/-- One entry is written by hand. -/
def handBook : TrustBookData := ⟨["IROH:AB".toList], [], Table.empty, []⟩

def revokeCalls : List Call :=
  [.revoke " iroh:AB".toList (.ok ()), .trust "ab".toList (.ok ()),
    .mandateTofuPin "Node".toList pubkey (.ok ()), .mandateRevoke "node ".toList (.ok ())]

def revokeEnd : State :=
  (run (step asciiLower) (start (.book handBook)) revokeCalls).get (by decide)

theorem revocation_absolute_ab :
    dialVetoed asciiLower revokeEnd.disk "AB".toList = true ∧
      mandateKeyState asciiLower revokeEnd.disk "NODE".toList = .revoked := by
  have hok : Along (step asciiLower) (fun _ c => StableCall asciiLower c)
      (start (.book handBook)) revokeCalls := by decide
  have hrun : run (step asciiLower) (start (.book handBook)) revokeCalls = some revokeEnd :=
    (Option.some_get _).symm
  have h := revocation_absolute asciiLower_laws hok hrun
  exact ⟨(h.1 "AB".toList (by decide) (by decide)).2.1, (h.2.1 "NODE".toList (by decide)).1⟩

/-- A prefix in capitals is not taken off, so the revoked node is dialled. -/
theorem capital_prefix_dialled :
    ¬ ∀ (calls : List Call) (s : State),
      run (step asciiLower) (start (.book emptyData)) calls = some s →
      ∀ y, canonicalId asciiLower y ∈ s.revoked →
        dialVetoed asciiLower s.disk y = true := by
  intro h
  have hveto := h [.revoke "ab".toList (.ok ())] _ rfl "IROH:ab".toList (by decide)
  revert hveto
  decide

end NemesisBot.Trust

import NemesisBot.Lib.Bytes
import NemesisBot.Lib.Strings

/-! What the executable formats share: their errors and their bounded reads. -/
namespace NemesisBot.Verify
open Strings Bytes

inductive CodecError where
  | notAnExecutable
  | truncated
  | fieldOutOfBounds (name : Text)
  | unknownOptionalHeaderMagic (magic : Nat)
  | unsupportedElfClass (cls : UInt8)
  | unsupportedElfData (data : UInt8)
  | malformed (reason : Text)
  deriving DecidableEq, Repr

def decimal (n : Nat) : Text := Nat.toDigits 10 n

/-- A field of `n` bytes, lowest byte first when `lowFirst` holds. -/
def field (lowFirst : Bool) (n : Nat) (b : Bytes) (off : Nat) (name : Text) :
    Except CodecError Nat :=
  match slice b off n with
  | some s => .ok (if lowFirst then le s else be s)
  | none => .error (.fieldOutOfBounds name)

theorem field_congr {p : Nat → Prop} {b d : Bytes} (h : Agree p b d) {lowFirst : Bool}
    {n off : Nat} (name : Text) (hn : 0 < n) (hp : ∀ i, off ≤ i → i < off + n → p i) :
    field lowFirst n b off name = field lowFirst n d off name := by
  rw [field, field, slice_congr h hp hn]

theorem field_of_agree {p : Nat → Prop} {b d : Bytes} (h : Agree p b d) {lowFirst : Bool}
    {n off v : Nat} {name : Text} (hn : 0 < n) (hp : ∀ i, off ≤ i → i < off + n → p i)
    (hv : field lowFirst n b off name = .ok v) : field lowFirst n d off name = .ok v := by
  rw [← hv, field_congr h name hn hp]

theorem field_fits {lowFirst : Bool} {n : Nat} {b : Bytes} {off v : Nat} {name : Text}
    (h : field lowFirst n b off name = .ok v) : off + n ≤ b.length := by
  unfold field at h
  cases hs : slice b off n with
  | none => rw [hs] at h; exact nomatch h
  | some s => exact (slice_eq_some.mp hs).1

/-- A field of a string is read the same from every longer one. -/
theorem field_append {lowFirst : Bool} {n : Nat} {b : Bytes} {off v : Nat} {name : Text}
    (hn : 0 < n) (h : field lowFirst n b off name = .ok v) (t : Bytes) :
    field lowFirst n (b ++ t) off name = .ok v := by
  have hfits := field_fits h
  exact field_of_agree (agree_append b t) hn (fun i _ hi => by omega) h

/-- The hash of the first `l` bytes, with no field left out. -/
def prefixHash {D : Type} (sha256 : Bytes → D) (content : Bytes) (l : Nat) :
    Except CodecError D :=
  if l > content.length then
    .error (.malformed ("content_len ".toList ++ decimal l ++ " > bytes len ".toList ++
      decimal content.length))
  else .ok (sha256 (content.take l))

theorem prefixHash_eq_ok {D : Type} {sha256 : Bytes → D} {content : Bytes} {l : Nat} {d : D} :
    prefixHash sha256 content l = .ok d ↔ l ≤ content.length ∧ sha256 (content.take l) = d := by
  rw [prefixHash, ite_error_eq_ok, Except.ok.injEq, not_lt]

theorem prefixHash_inj {D : Type} {sha256 : Bytes → D} (hsha : Function.Injective sha256)
    {f g : Bytes} {lf lg : Nat} (hf : lf ≤ f.length) (hg : lg ≤ g.length)
    (h : prefixHash sha256 f lf = prefixHash sha256 g lg) : lf = lg ∧ f.take lf = g.take lg := by
  have hok : prefixHash sha256 g lg = .ok (sha256 (g.take lg)) := prefixHash_eq_ok.mpr ⟨hg, rfl⟩
  have htake := hsha (prefixHash_eq_ok.mp (h.trans hok)).2
  have hlen := congrArg List.length htake
  rw [List.length_take_of_le hf, List.length_take_of_le hg] at hlen
  exact ⟨hlen, htake⟩

def rawContentHash {D : Type} (sha256 : Bytes → D) (content : Bytes) (l : Nat) :
    Except CodecError D := prefixHash sha256 content l

def formatTagPe : Nat := 1
def formatTagElf : Nat := 2
def formatTagRaw : Nat := 3

def mz : Bytes := [0x4D, 0x5A]

def elfMagic : Bytes := [0x7F, 0x45, 0x4C, 0x46]

def detectFormat (b : Bytes) : Nat :=
  if mz <+: b then formatTagPe else if elfMagic <+: b then formatTagElf else formatTagRaw

end NemesisBot.Verify

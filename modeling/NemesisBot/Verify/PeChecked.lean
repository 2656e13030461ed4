import NemesisBot.Lib.Panics
import NemesisBot.Verify.PeTable

/-! The PE functions with every addition and every slice that could panic. They end without a
panic and agree with the functions that have no panic to end in. -/
namespace NemesisBot.Verify
open Strings Bytes Panics

theorem field_lt {lowFirst : Bool} {n : Nat} {b : Bytes} {off v : Nat} {name : Text}
    (h : field lowFirst n b off name = .ok v) : v < 256 ^ n := by
  unfold field at h
  cases hs : slice b off n with
  | none => rw [hs] at h; exact nomatch h
  | some s =>
    rw [hs] at h
    obtain rfl := Except.ok.inj h
    have hlen := length_slice hs
    split
    · exact hlen ▸ le_lt s
    · exact hlen ▸ @List.length_reverse UInt8 s ▸ le_lt s.reverse

namespace Checked

def parseHeader (b : Bytes) : Panicking CodecError PeHeader :=
  if b.length < 0x40 then throw .truncated
  else do
    let magic ← sliceOf b 0 2
    if magic ≠ mz then throw .notAnExecutable
    else do
      let p ← returns (u32le b 0x3C "e_lfanew".toList)
      let _ ← word (p + 4)
      if slice b p 4 ≠ some [0x50, 0x45, 0, 0] then throw .notAnExecutable
      else do
        let numSections ← returns (u16le b (← word (p + 6)) "NumberOfSections".toList)
        let sizeOfOpt ← returns (u16le b (← word (p + 20)) "SizeOfOptionalHeader".toList)
        let magic ← returns (u16le b (← word (p + 24)) "Magic".toList)
        let isPlus ← returns (magicIsPlus magic)
        let _ ← word (p + 88)
        let _ ← word (p + 92)
        let nrvaOff ← word (nrvaOff p isPlus)
        let _ ← word (if isPlus then p + 136 else p + 120)
        let nrva ← returns (u32le b nrvaOff "NumberOfRvaAndSizes".toList)
        pure ⟨p, numSections, sizeOfOpt, isPlus, nrva⟩

theorem parseHeader_eq (b : Bytes) : parseHeader b = returns (Verify.parseHeader b) := by
  rw [parseHeader, Verify.parseHeader]
  refine ite_returns (fun _ => rfl) fun hlen => ?_
  have hrange : range b 0 2 = b.take 2 := by rw [range, List.drop_zero]
  rw [sliceOf_bind (by omega) (by omega), hrange]
  refine ite_returns (fun _ => rfl) fun _ => returns_bind fun p hp => ?_
  have hpw := field_lt hp
  rw [word_bind (by omega)]
  refine ite_returns (fun _ => rfl) fun _ => ?_
  rw [word_bind (by omega)]
  refine returns_bind fun numSections _ => ?_
  rw [word_bind (by omega)]
  refine returns_bind fun sizeOfOpt _ => ?_
  rw [word_bind (by omega)]
  refine returns_bind fun magic _ => returns_bind fun isPlus _ => ?_
  have hnrva : nrvaOff p isPlus ≤ p + 132 := by
    unfold nrvaOff
    split <;> omega
  rw [word_bind (by omega), word_bind (by omega), word_bind (by omega),
    word_bind (by split <;> omega)]
  exact returns_bind fun _ _ => rfl

theorem header_lt {b : Bytes} {h : PeHeader} (hh : Verify.parseHeader b = .ok h) :
    h.p < 2 ^ 32 ∧ h.numSections < 2 ^ 16 ∧ h.sizeOfOpt < 2 ^ 16 := by
  obtain ⟨-, -, hp, -, hn, ho, -, -⟩ := parseHeader_eq_ok.mp hh
  exact ⟨field_lt hp, field_lt hn, field_lt ho⟩

def securityDirRange (h : PeHeader) : Panicking CodecError (Option (Nat × Nat)) :=
  if h.nrva ≥ 5 then do
    let off ← word (h.datadirStart + 32)
    let se ← word (off + 8)
    pure (some (off, se))
  else pure none

theorem securityDirRange_eq {h : PeHeader} (hp : h.p < 2 ^ 32) :
    securityDirRange h = returns (.ok h.securityDirRange) := by
  have hstart : h.datadirStart ≤ h.p + 136 := by
    unfold PeHeader.datadirStart
    split <;> omega
  rw [securityDirRange, PeHeader.securityDirRange]
  split
  · rw [word_bind (by omega), word_bind (by omega)]
    rfl
  · rfl

def parseAuthRegion (b : Bytes) :
    Option (Nat × Nat) → Panicking CodecError (Option (Nat × Nat))
  | none => pure none
  | some (off, _) => do
    let va ← returns (u32le b off "Security.VA".toList)
    let size ← returns (u32le b (← word (off + 4)) "Security.Size".toList)
    if size > 0 then do
      let vend ← word (va + size)
      pure (some (va, vend))
    else pure none

theorem parseAuthRegion_eq (b : Bytes) {r : Option (Nat × Nat)}
    (hr : ∀ off se, r = some (off, se) → off < 2 ^ 33) :
    parseAuthRegion b r = returns (Verify.parseAuthRegion b r) := by
  cases r with
  | none => rfl
  | some r =>
    obtain ⟨off, se⟩ := r
    have hoff := hr off se rfl
    rw [parseAuthRegion, Verify.parseAuthRegion]
    refine returns_bind fun va hva => ?_
    rw [word_bind (by omega)]
    refine returns_bind fun size hsize => ?_
    have hvaw := field_lt hva
    have hsizew := field_lt hsize
    split
    · rw [word_bind (by omega)]
      rfl
    · rfl

/-- The sections' loop, with the offsets of a section's two fields. -/
def sectionsEnd (b : Bytes) (secTbl : Nat) : Nat → Panicking CodecError Nat
  | 0 => pure 0
  | i + 1 => do
    let l ← sectionsEnd b secTbl i
    let s ← word (secTbl + (← word (i * 40)))
    let sizeRaw ← returns (u32le b (← word (s + 16)) "SizeOfRawData".toList)
    let ptrRaw ← returns (u32le b (← word (s + 20)) "PointerToRawData".toList)
    if sizeRaw > 0 then do
      let ends ← word (ptrRaw + sizeRaw)
      pure (max l ends)
    else pure l

theorem sectionsEnd_eq (b : Bytes) {secTbl n : Nat} (ht : secTbl < 2 ^ 33) (hn : n < 2 ^ 16) :
    sectionsEnd b secTbl n = returns (Verify.sectionsEnd b secTbl n) := by
  induction n with
  | zero => rfl
  | succ i ih =>
    rw [sectionsEnd, Verify.sectionsEnd, ih (by omega)]
    refine returns_bind fun l _ => ?_
    rw [word_bind (by omega), word_bind (by omega), word_bind (by omega)]
    refine returns_bind fun sizeRaw hsize => ?_
    rw [word_bind (by omega)]
    refine returns_bind fun ptrRaw hptr => ?_
    have hsizew := field_lt hsize
    have hptrw := field_lt hptr
    split
    · rw [word_bind (by omega)]
      rfl
    · rfl

def parsePe (b : Bytes) : Panicking CodecError PeLayout := do
  let h ← parseHeader b
  let securityDirRange ← securityDirRange h
  let authRegion ← parseAuthRegion b securityDirRange
  let opt ← word (h.p + 24)
  let secTbl ← word (opt + h.sizeOfOpt)
  let ends ← sectionsEnd b secTbl h.numSections
  let _ ← word (secTbl + (← word (h.numSections * 40)))
  let l := min (headersEnd h ends) b.length
  returns (checkAuthRegion l b.length authRegion)
  pure ⟨l, h.checksumRange, securityDirRange, authRegion⟩

theorem parsePe_eq (b : Bytes) : parsePe b = returns (Verify.parsePe b) := by
  rw [parsePe, Verify.parsePe, parseHeader_eq]
  refine returns_bind fun h hh => ?_
  obtain ⟨hp, hn, ho⟩ := header_lt hh
  have hoff : ∀ off se, h.securityDirRange = some (off, se) → off < 2 ^ 33 := by
    intro off se hs
    have hspec := (PeHeader.security_spec hs).2
    have hnrva : nrvaOff h.p h.isPlus ≤ h.p + 132 := by
      unfold nrvaOff
      split <;> omega
    omega
  rw [securityDirRange_eq hp, returns_ok_bind, parseAuthRegion_eq b hoff]
  refine returns_bind fun auth _ => ?_
  rw [word_bind (by omega), word_bind (by omega)]
  have hsec := @sectionsEnd_eq b (h.p + 24 + h.sizeOfOpt) _ (by omega) hn
  rw [hsec]
  refine returns_bind fun ends _ => ?_
  rw [word_bind (by omega), word_bind (by omega)]
  exact returns_bind fun _ _ => rfl

/-- A slice that is hashed only when it holds a byte. -/
def sliceAhead (b : Bytes) (i j : Nat) : Panicking CodecError Bytes :=
  if i < j then sliceOf b i j else pure []

theorem sliceAhead_bind {β : Type} {b : Bytes} {i j : Nat} (hj : j ≤ b.length)
    (f : Bytes → Panicking CodecError β) : (sliceAhead b i j >>= f) = f (range b i j) := by
  rw [sliceAhead]
  split
  · rw [sliceOf_bind (by omega) hj]
  · rw [pure_bind_panicking, range, List.drop_eq_nil_of_le (by rw [List.length_take]; omega)]

theorem range_to_end (b : Bytes) (i : Nat) : range b i b.length = b.drop i := by
  rw [range, List.take_length]

/-- The slices that are hashed, one after another. -/
def digestInput (b : Bytes) (layout : PeLayout) : Panicking CodecError Bytes := do
  let (cs, ce) := layout.checksumRange
  let head ← sliceOf b 0 cs
  match layout.securityDirRange with
  | some (ss, se) =>
    if ss < ce then
      throw (.malformed ("Security Directory 项 @".toList ++ decimal ss ++
        " 与 CheckSum 区间 [".toList ++ decimal cs ++ ",".toList ++ decimal ce ++ ") 重叠".toList))
    else do
      let middle ← sliceAhead b ce ss
      match layout.authRegion with
      | some (va, vend) => do
        let overlay ← sliceOf b se va
        let tail ← sliceAhead b vend b.length
        pure (head ++ middle ++ overlay ++ tail)
      | none => do
        let tail ← sliceAhead b se b.length
        pure (head ++ middle ++ tail)
  | none => do
    let tail ← sliceAhead b ce b.length
    pure (head ++ tail)

theorem digestInput_eq {b : Bytes} {h : PeHeader} {layout : PeLayout} (P : Parsed b h layout) :
    digestInput b layout = returns (Verify.digestInput b layout) := by
  have hnrva := P.nrva_fits
  have hoff := h.le_nrvaOff
  have hcs : layout.checksumRange = (h.p + 88, h.p + 92) := P.checksum
  rw [digestInput, Verify.digestInput, hcs]
  simp only
  rw [sliceOf_bind (by omega) (by omega)]
  have hhead : range b 0 (h.p + 88) = b.take (h.p + 88) := by rw [range, List.drop_zero]
  rw [hhead, P.security]
  cases hs : h.securityDirRange with
  | none =>
    simp only
    rw [sliceAhead_bind le_rfl, range_to_end]
    rfl
  | some r =>
    obtain ⟨ss, se⟩ := r
    have hspec := PeHeader.security_spec hs
    have hfits := P.security_fits hs
    simp only
    refine ite_returns (fun _ => rfl) fun hle => ?_
    rw [sliceAhead_bind (by omega)]
    cases ha : layout.authRegion with
    | none =>
      simp only
      rw [sliceAhead_bind le_rfl, range_to_end]
      rfl
    | some a =>
      obtain ⟨va, vend⟩ := a
      have hse := P.security_le_auth hs ha
      have hauth := P.auth_fits ha
      have hne := P.auth_nonempty ha
      simp only
      rw [sliceOf_bind hse (by omega), sliceAhead_bind le_rfl, range_to_end]
      rfl

def authenticodeDigest {D : Type} (sha256 : Bytes → D) (b : Bytes) : Panicking CodecError D := do
  let layout ← parsePe b
  let input ← digestInput b layout
  pure (sha256 input)

theorem authenticodeDigest_eq {D : Type} (sha256 : Bytes → D) (b : Bytes) :
    authenticodeDigest sha256 b = returns (Verify.authenticodeDigest sha256 b) := by
  rw [authenticodeDigest, Verify.authenticodeDigest, parsePe_eq]
  refine returns_bind fun layout hl => ?_
  obtain ⟨h, P⟩ := parsePe_eq_ok.mp hl
  rw [digestInput_eq P]
  exact returns_bind fun _ _ => rfl

end Checked
end NemesisBot.Verify

import NemesisBot.Verify.Codec

/-! The layout of a PE file and its Authenticode digest. -/
namespace NemesisBot.Verify
open Strings Bytes

structure PeLayout where
  l : Nat
  checksumRange : Nat × Nat
  securityDirRange : Option (Nat × Nat)
  authRegion : Option (Nat × Nat)
  deriving DecidableEq, Repr

def u16le : Bytes → Nat → Text → Except CodecError Nat := field true 2
def u32le : Bytes → Nat → Text → Except CodecError Nat := field true 4

/-- The header fields that `parse_pe` reads ahead of the Security entry. -/
structure PeHeader where
  p : Nat
  numSections : Nat
  sizeOfOpt : Nat
  isPlus : Bool
  nrva : Nat
  deriving DecidableEq, Repr

namespace PeHeader
variable (h : PeHeader)

def checksumRange : Nat × Nat := (h.p + 88, h.p + 92)
def datadirStart : Nat := if h.isPlus then h.p + 136 else h.p + 120
def securityDirRange : Option (Nat × Nat) :=
  if h.nrva ≥ 5 then some (h.datadirStart + 32, h.datadirStart + 40) else none
def secTbl : Nat := h.p + 24 + h.sizeOfOpt
def secTblEnd : Nat := h.secTbl + h.numSections * 40

end PeHeader

def nrvaOff (p : Nat) (isPlus : Bool) : Nat := if isPlus then p + 132 else p + 116

def magicIsPlus (magic : Nat) : Except CodecError Bool :=
  if magic = 0x10b then .ok false
  else if magic = 0x20b then .ok true
  else .error (.unknownOptionalHeaderMagic magic)

def parseHeader (b : Bytes) : Except CodecError PeHeader :=
  if b.length < 0x40 then .error .truncated
  else if b.take 2 ≠ mz then .error .notAnExecutable
  else do
    let p ← u32le b 0x3C "e_lfanew".toList
    if slice b p 4 ≠ some [0x50, 0x45, 0, 0] then .error .notAnExecutable
    else do
      let numSections ← u16le b (p + 6) "NumberOfSections".toList
      let sizeOfOpt ← u16le b (p + 20) "SizeOfOptionalHeader".toList
      let magic ← u16le b (p + 24) "Magic".toList
      let isPlus ← magicIsPlus magic
      let nrva ← u32le b (nrvaOff p isPlus) "NumberOfRvaAndSizes".toList
      pure ⟨p, numSections, sizeOfOpt, isPlus, nrva⟩

/-- The certificate table that the Security entry points to. -/
def parseAuthRegion (b : Bytes) : Option (Nat × Nat) → Except CodecError (Option (Nat × Nat))
  | none => .ok none
  | some (off, _) => do
    let va ← u32le b off "Security.VA".toList
    let size ← u32le b (off + 4) "Security.Size".toList
    pure (if size > 0 then some (va, va + size) else none)

/-- The greatest raw end of the first `n` sections. -/
def sectionsEnd (b : Bytes) (secTbl : Nat) : Nat → Except CodecError Nat
  | 0 => .ok 0
  | i + 1 => do
    let l ← sectionsEnd b secTbl i
    let sizeRaw ← u32le b (secTbl + i * 40 + 16) "SizeOfRawData".toList
    let ptrRaw ← u32le b (secTbl + i * 40 + 20) "PointerToRawData".toList
    pure (if sizeRaw > 0 then max l (ptrRaw + sizeRaw) else l)

/-- The overlay start before it is bounded by the file's length. -/
def headersEnd (h : PeHeader) (l : Nat) : Nat :=
  max (max l h.secTblEnd) (match h.securityDirRange with | some (_, se) => se | none => 0)

/-- The cross check of the certificate table with the overlay. -/
def checkAuthRegion (l len : Nat) : Option (Nat × Nat) → Except CodecError Unit
  | none => .ok ()
  | some (va, vend) =>
    if va < l then
      .error (.malformed ("Authenticode VA ".toList ++ decimal va ++ " < overlay start L ".toList ++
        decimal l))
    else if vend > len then
      .error (.malformed ("Authenticode end ".toList ++ decimal vend ++ " > file len ".toList ++
        decimal len))
    else .ok ()

def parsePe (b : Bytes) : Except CodecError PeLayout := do
  let h ← parseHeader b
  let authRegion ← parseAuthRegion b h.securityDirRange
  let ends ← sectionsEnd b h.secTbl h.numSections
  let l := min (headersEnd h ends) b.length
  checkAuthRegion l b.length authRegion
  pure ⟨l, h.checksumRange, h.securityDirRange, authRegion⟩

theorem parseHeader_eq_ok {b : Bytes} {h : PeHeader} :
    parseHeader b = .ok h ↔ 0x40 ≤ b.length ∧ b.take 2 = mz ∧
      u32le b 0x3C "e_lfanew".toList = .ok h.p ∧ slice b h.p 4 = some [0x50, 0x45, 0, 0] ∧
      u16le b (h.p + 6) "NumberOfSections".toList = .ok h.numSections ∧
      u16le b (h.p + 20) "SizeOfOptionalHeader".toList = .ok h.sizeOfOpt ∧
      (u16le b (h.p + 24) "Magic".toList >>= magicIsPlus) = .ok h.isPlus ∧
      u32le b (nrvaOff h.p h.isPlus) "NumberOfRvaAndSizes".toList = .ok h.nrva := by
  constructor
  · intro hok
    obtain ⟨hlen, hok⟩ := ite_error_eq_ok.mp hok
    obtain ⟨hmz, hok⟩ := ite_error_eq_ok.mp hok
    obtain ⟨p, hp, hok⟩ := bind_eq_ok.mp hok
    obtain ⟨hpe, hok⟩ := ite_error_eq_ok.mp hok
    obtain ⟨n, hn, hok⟩ := bind_eq_ok.mp hok
    obtain ⟨o, ho, hok⟩ := bind_eq_ok.mp hok
    obtain ⟨m, hm, hok⟩ := bind_eq_ok.mp hok
    obtain ⟨plus, hplus, hok⟩ := bind_eq_ok.mp hok
    obtain ⟨nrva, hnrva, hok⟩ := bind_eq_ok.mp hok
    cases hok
    exact ⟨not_lt.mp hlen, not_not.mp hmz, hp, not_not.mp hpe, hn, ho,
      bind_eq_ok.mpr ⟨m, hm, hplus⟩, hnrva⟩
  · intro ⟨hlen, hmz, hp, hpe, hn, ho, hplus, hnrva⟩
    obtain ⟨m, hm, hplus⟩ := bind_eq_ok.mp hplus
    refine ite_error_eq_ok.mpr ⟨not_lt.mpr hlen, ite_error_eq_ok.mpr ⟨not_not.mpr hmz, ?_⟩⟩
    refine bind_eq_ok.mpr ⟨h.p, hp, ite_error_eq_ok.mpr ⟨not_not.mpr hpe, ?_⟩⟩
    refine bind_eq_ok.mpr ⟨_, hn, bind_eq_ok.mpr ⟨_, ho, bind_eq_ok.mpr ⟨m, hm, ?_⟩⟩⟩
    exact bind_eq_ok.mpr ⟨_, hplus, bind_eq_ok.mpr ⟨_, hnrva, rfl⟩⟩

/-- What `parse_pe` has read when it answers with a layout. -/
structure Parsed (b : Bytes) (h : PeHeader) (layout : PeLayout) : Prop where
  header : parseHeader b = .ok h
  auth : parseAuthRegion b h.securityDirRange = .ok layout.authRegion
  ends : ∃ ends, sectionsEnd b h.secTbl h.numSections = .ok ends ∧
    layout.l = min (headersEnd h ends) b.length
  check : checkAuthRegion layout.l b.length layout.authRegion = .ok ()
  checksum : layout.checksumRange = h.checksumRange
  security : layout.securityDirRange = h.securityDirRange

theorem parsePe_eq_ok {b : Bytes} {layout : PeLayout} :
    parsePe b = .ok layout ↔ ∃ h, Parsed b h layout := by
  constructor
  · intro hok
    obtain ⟨h, hh, hok⟩ := bind_eq_ok.mp hok
    obtain ⟨auth, ha, hok⟩ := bind_eq_ok.mp hok
    obtain ⟨ends, he, hok⟩ := bind_eq_ok.mp hok
    obtain ⟨u, hu, hok⟩ := bind_eq_ok.mp hok
    cases hok
    exact ⟨h, hh, ha, ⟨ends, he, rfl⟩, hu, rfl, rfl⟩
  · intro ⟨h, hh, ha, ⟨ends, he, hl⟩, hu, hc, hs⟩
    obtain ⟨l, c, s, auth⟩ := layout
    simp only at ha hl hu hc hs
    subst hl hc hs
    exact bind_eq_ok.mpr ⟨h, hh, bind_eq_ok.mpr ⟨auth, ha, bind_eq_ok.mpr ⟨ends, he,
      bind_eq_ok.mpr ⟨(), hu, rfl⟩⟩⟩⟩

theorem checkAuthRegion_eq_ok {l len : Nat} {auth : Option (Nat × Nat)} :
    checkAuthRegion l len auth = .ok () ↔
      ∀ va vend, auth = some (va, vend) → l ≤ va ∧ vend ≤ len := by
  cases auth with
  | none => simp [checkAuthRegion]
  | some r =>
    obtain ⟨va, vend⟩ := r
    rw [checkAuthRegion, ite_error_eq_ok, ite_error_eq_ok]
    constructor
    · intro ⟨hva, hvend, _⟩ a e hae
      cases hae
      omega
    · intro hall
      obtain ⟨hva, hvend⟩ := hall va vend rfl
      exact ⟨by omega, by omega, rfl⟩

namespace PeHeader

/-- The Security entry starts behind the CheckSum field and the number of directories. -/
theorem security_spec {h : PeHeader} {ss se : Nat} (hs : h.securityDirRange = some (ss, se)) :
    se = ss + 8 ∧ ss = nrvaOff h.p h.isPlus + 36 := by
  unfold securityDirRange at hs
  split at hs
  · simp only [Option.some.injEq, Prod.mk.injEq] at hs
    obtain ⟨rfl, rfl⟩ := hs
    refine ⟨rfl, ?_⟩
    unfold datadirStart nrvaOff
    split <;> omega
  · exact nomatch hs

theorem le_nrvaOff (h : PeHeader) : h.p + 116 ≤ nrvaOff h.p h.isPlus := by
  unfold nrvaOff
  split <;> omega

end PeHeader

theorem headersEnd_ge {h : PeHeader} {ends : Nat} :
    ends ≤ headersEnd h ends ∧ h.secTblEnd ≤ headersEnd h ends ∧
      ∀ ss se, h.securityDirRange = some (ss, se) → se ≤ headersEnd h ends := by
  refine ⟨by unfold headersEnd; omega, by unfold headersEnd; omega, fun ss se hs => ?_⟩
  rw [headersEnd, hs]
  exact le_max_right _ _

namespace Parsed
variable {b : Bytes} {h : PeHeader} {layout : PeLayout}

theorem nrva_fits (P : Parsed b h layout) : nrvaOff h.p h.isPlus + 4 ≤ b.length :=
  field_fits (parseHeader_eq_ok.mp P.header).2.2.2.2.2.2.2

theorem security_fits (P : Parsed b h layout) {ss se : Nat}
    (hs : h.securityDirRange = some (ss, se)) : se ≤ b.length := by
  have hauth := P.auth
  rw [hs] at hauth
  obtain ⟨va, -, hauth⟩ := bind_eq_ok.mp hauth
  obtain ⟨size, hsize, -⟩ := bind_eq_ok.mp hauth
  have hfits := field_fits hsize
  have hspec := PeHeader.security_spec hs
  omega

theorem auth_nonempty (P : Parsed b h layout) {va vend : Nat}
    (ha : layout.authRegion = some (va, vend)) : va < vend := by
  have hauth := P.auth
  rw [ha] at hauth
  cases hs : h.securityDirRange with
  | none => rw [hs] at hauth; exact nomatch hauth
  | some r =>
    rw [hs] at hauth
    obtain ⟨va', -, hauth⟩ := bind_eq_ok.mp hauth
    obtain ⟨size, -, hauth⟩ := bind_eq_ok.mp hauth
    have hsome := Except.ok.inj hauth
    split at hsome
    · cases hsome
      omega
    · exact nomatch hsome

theorem auth_security (P : Parsed b h layout) {va vend : Nat}
    (ha : layout.authRegion = some (va, vend)) : ∃ ss se, h.securityDirRange = some (ss, se) := by
  have hauth := P.auth
  rw [ha] at hauth
  cases hs : h.securityDirRange with
  | none => rw [hs] at hauth; exact nomatch hauth
  | some r => exact ⟨r.1, r.2, rfl⟩

theorem auth_fits (P : Parsed b h layout) {va vend : Nat}
    (ha : layout.authRegion = some (va, vend)) : layout.l ≤ va ∧ vend ≤ b.length :=
  checkAuthRegion_eq_ok.mp P.check va vend ha

/-- With a certificate table the overlay start is the end of the headers and sections. -/
theorem l_of_auth (P : Parsed b h layout) {va vend ends : Nat}
    (ha : layout.authRegion = some (va, vend))
    (he : sectionsEnd b h.secTbl h.numSections = .ok ends) :
    layout.l = headersEnd h ends ∧ headersEnd h ends ≤ va := by
  obtain ⟨ends', he', hl⟩ := P.ends
  have heq : ends' = ends := Except.ok.inj (he'.symm.trans he)
  have hne := P.auth_nonempty ha
  have hfits := P.auth_fits ha
  rw [heq] at hl
  omega

end Parsed
/-- The bytes that `authenticode_digest` feeds to SHA-256. -/
def digestInput (b : Bytes) (layout : PeLayout) : Except CodecError Bytes :=
  let (cs, ce) := layout.checksumRange
  match layout.securityDirRange with
  | some (ss, se) =>
    if ss < ce then
      .error (.malformed ("Security Directory 项 @".toList ++ decimal ss ++
        " 与 CheckSum 区间 [".toList ++ decimal cs ++ ",".toList ++ decimal ce ++ ") 重叠".toList))
    else
      match layout.authRegion with
      | some (va, vend) => .ok (b.take cs ++ range b ce ss ++ range b se va ++ b.drop vend)
      | none => .ok (b.take cs ++ range b ce ss ++ b.drop se)
  | none => .ok (b.take cs ++ b.drop ce)

def authenticodeDigest {D : Type} (sha256 : Bytes → D) (b : Bytes) : Except CodecError D := do
  let layout ← parsePe b
  let input ← digestInput b layout
  pure (sha256 input)

/-- The file without its certificate table. -/
def withoutTable (b : Bytes) (layout : PeLayout) : Bytes := cutOpt b layout.authRegion

/-- The file without its certificate table and its Security entry. -/
def withoutEntry (b : Bytes) (h : PeHeader) (layout : PeLayout) : Bytes :=
  cutOpt (withoutTable b layout) h.securityDirRange

namespace Parsed
variable {b : Bytes} {h : PeHeader} {layout : PeLayout}

theorem security_le_auth (P : Parsed b h layout) {ss se va vend : Nat}
    (hs : h.securityDirRange = some (ss, se)) (ha : layout.authRegion = some (va, vend)) :
    se ≤ va := by
  obtain ⟨ends, he, -⟩ := P.ends
  have hle := (P.l_of_auth ha he).2
  have hse : se ≤ headersEnd h ends := headersEnd_ge.2.2 ss se hs
  omega

theorem agree_withoutTable (P : Parsed b h layout) {k : Nat}
    (hk : ∀ va vend, layout.authRegion = some (va, vend) → k ≤ va) :
    Agree (· < k) (withoutTable b layout) b := by
  refine agree_cutOpt hk fun va vend ha => ?_
  have hne := P.auth_nonempty ha
  have hfits := P.auth_fits ha
  omega

theorem security_fits_withoutTable (P : Parsed b h layout) {ss se : Nat}
    (hs : h.securityDirRange = some (ss, se)) : se ≤ (withoutTable b layout).length := by
  have hfits := P.security_fits hs
  cases ha : layout.authRegion with
  | none => rwa [withoutTable, ha, cutOpt]
  | some r =>
    have hle := P.security_le_auth hs ha
    have hne := P.auth_nonempty ha
    have hauth := P.auth_fits ha
    rw [withoutTable, ha, cutOpt, length_cut (by omega) (by omega)]
    omega

/-- The digest is taken over that file with the CheckSum field cut out as well. -/
theorem digestInput_eq (P : Parsed b h layout) :
    digestInput b layout =
      .ok (cut (withoutEntry b h layout) h.checksumRange) := by
  unfold digestInput withoutEntry
  rw [P.checksum, P.security]
  cases hs : h.securityDirRange with
  | none =>
    cases ha : layout.authRegion with
    | none => rw [withoutTable, ha]; rfl
    | some r =>
      obtain ⟨ss, se, hsome⟩ := P.auth_security ha
      rw [hs] at hsome
      exact nomatch hsome
  | some r =>
    obtain ⟨ss, se⟩ := r
    have hspec := PeHeader.security_spec hs
    have hoff := h.le_nrvaOff
    have hag := P.security_fits_withoutTable hs
    have hnot : ¬ss < h.checksumRange.2 := by simp only [PeHeader.checksumRange]; omega
    have hcut : cut (cut (withoutTable b layout) (ss, se)) h.checksumRange =
        (withoutTable b layout).take h.checksumRange.1 ++ range (withoutTable b layout) h.checksumRange.2 ss ++
          (withoutTable b layout).drop se := by
      rw [cut, take_cut (by simp only [PeHeader.checksumRange]; omega) (by simp only; omega),
        drop_cut (by simp only; omega) (by simp only; omega), List.append_assoc]
    simp only [hnot, if_false, cutOpt]
    rw [hcut]
    cases ha : layout.authRegion with
    | none => rw [withoutTable, ha]; rfl
    | some a =>
      obtain ⟨va, vend⟩ := a
      have hle := P.security_le_auth hs ha
      have hne := P.auth_nonempty ha
      have hfits := P.auth_fits ha
      simp only [withoutTable, ha, cutOpt]
      rw [take_cut (by simp only [PeHeader.checksumRange]; omega) (by simp only; omega),
        range_cut (by simp only; omega) (by simp only; omega),
        drop_cut (by simp only; omega) (by simp only; omega)]
      simp only [List.append_assoc]

end Parsed

theorem authenticodeDigest_of_parsed {D : Type} (sha256 : Bytes → D) {b : Bytes} {h : PeHeader}
    {layout : PeLayout} (P : Parsed b h layout) :
    authenticodeDigest sha256 b =
      .ok (sha256 (cut (withoutEntry b h layout) h.checksumRange)) :=
  bind_eq_ok.mpr ⟨layout, parsePe_eq_ok.mpr ⟨h, P⟩, bind_eq_ok.mpr ⟨_, P.digestInput_eq, rfl⟩⟩

end NemesisBot.Verify

import NemesisBot.Verify.Elf
import NemesisBot.Verify.PeTable

/-! Signatures behind ELF and raw files: the footer, its search and the extraction. -/
namespace NemesisBot.Verify
open Strings Bytes

def quoted (t : Text) : Text := "\"".toList ++ t ++ "\"".toList

/-- The display of an error. No text in it holds a character that the quoting escapes. -/
def CodecError.display : CodecError → Text
  | .notAnExecutable => "NotAnExecutable".toList
  | .truncated => "Truncated".toList
  | .fieldOutOfBounds name => "FieldOutOfBounds(".toList ++ quoted name ++ ")".toList
  | .unknownOptionalHeaderMagic magic =>
    "UnknownOptionalHeaderMagic(".toList ++ decimal magic ++ ")".toList
  | .unsupportedElfClass cls => "UnsupportedElfClass(".toList ++ decimal cls.toNat ++ ")".toList
  | .unsupportedElfData data => "UnsupportedElfData(".toList ++ decimal data.toNat ++ ")".toList
  | .malformed reason => "Malformed(".toList ++ quoted reason ++ ")".toList

def displayed {α : Type} (x : Except CodecError α) : Except Text α := x.mapError CodecError.display

theorem displayed_eq_ok {α : Type} {x : Except CodecError α} {a : α} :
    displayed x = .ok a ↔ x = .ok a := by
  cases x with
  | error e => exact ⟨(fun h => nomatch h), fun h => nomatch h⟩
  | ok b => exact ⟨(fun h => congrArg _ (Except.ok.inj h)), fun h => congrArg _ (Except.ok.inj h)⟩

/-- The bytes of `[0, l)` outside the ranges, which are sorted by their starts. -/
def hashedOutside (content : Bytes) (l : Nat) (excludes : List (Nat × Nat)) : Bytes :=
  let (hashed, cursor) := excludes.foldl (fun (acc : Bytes × Nat) r =>
    (if min r.1 l > acc.2 then acc.1 ++ range content acc.2 (min r.1 l) else acc.1,
      max acc.2 (min r.2 l))) ([], 0)
  if cursor < l then hashed ++ range content cursor l else hashed

def peContentHash {D : Type} (sha256 : Bytes → D) (content : Bytes) (l : Nat) :
    Except CodecError D :=
  if l > content.length then
    .error (.malformed ("content_len ".toList ++ decimal l ++ " > bytes len ".toList ++
      decimal content.length))
  else do
    let layout ← parsePe content
    let excludes := layout.checksumRange :: layout.securityDirRange.toList
    pure (sha256 (hashedOutside content l (excludes.insertionSort fun r t => r.1 ≤ t.1)))

/-- An executable format, with what it decides about a file. -/
inductive ExecutableCodec where
  | pe
  | elf
  | raw
  deriving DecidableEq, Repr

namespace ExecutableCodec

def computeL : ExecutableCodec → Bytes → Except CodecError (Option Nat)
  | pe, b => (parsePe b).map fun layout => some layout.l
  | elf, b => (computeElfL b).map some
  | raw, _ => .ok none

def contentHash {D : Type} (sha256 : Bytes → D) :
    ExecutableCodec → Bytes → Nat → Except CodecError D
  | pe => peContentHash sha256
  | elf => elfContentHash sha256
  | raw => rawContentHash sha256

def overlayExcludes : ExecutableCodec → Bytes → List (Nat × Nat)
  | pe, b => match parsePe b with
    | .ok layout => layout.authRegion.toList
    | .error _ => []
  | _, _ => []

end ExecutableCodec

def detectCodec (b : Bytes) : ExecutableCodec :=
  if mz <+: b then .pe else if elfMagic <+: b then .elf else .raw

def crcShift (crc : UInt32) : UInt32 :=
  if crc &&& 1 ≠ 0 then (crc >>> 1) ^^^ 0xEDB88320 else crc >>> 1

def crc32 (data : Bytes) : Nat :=
  (~~~(data.foldl (fun crc b => crcShift^[8] (crc ^^^ b.toUInt32)) 0xFFFFFFFF)).toNat

theorem crc32_lt (data : Bytes) : crc32 data < 256 ^ 4 := by
  have hlt := (~~~(data.foldl (fun crc b => crcShift^[8] (crc ^^^ b.toUInt32)) 0xFFFFFFFF)).toNat_lt
  unfold crc32
  omega

def footerLen : Nat := 64
def trailerMagicV4 : Bytes := [0x4E, 0x4D, 0x42, 0x53, 0x49, 0x47, 0x04, 0x00]
def isizeMax : Nat := 2 ^ 63 - 1

/-- The part of a footer that its checksum covers. -/
def footerHead (formatTag : UInt8) (contentLen cmsOff cmsLen : Nat) : Bytes :=
  trailerMagicV4 ++ ([4, 2, formatTag, 0, 0, 0, 0, 0] ++ (toLe 8 contentLen ++
    (toLe 8 cmsOff ++ toLe 4 cmsLen)))

/-- The program aborts for a CMS value over four gigabytes. -/
def buildFooterV4 (formatTag : UInt8) (contentLen cmsOff cmsLen : Nat) : Except Text Bytes :=
  if cmsLen > u32Max then .error "cms_len 超出 u32（CMS DER > 4GB，不可能形态）".toList
  else
    let head := footerHead formatTag contentLen cmsOff cmsLen
    .ok (head ++ (toLe 4 (crc32 head) ++ List.replicate 24 0))

structure ParsedFooterV4 where
  contentLen : Nat
  cmsOff : Nat
  cmsLen : Nat
  deriving DecidableEq, Repr

def rd (n : Nat) (b : Bytes) (off : Nat) : Nat := le (range b off (off + n))

def parseFooterV4 (b : Bytes) : Except Text ParsedFooterV4 :=
  if range b 0 8 ≠ trailerMagicV4 then .error "footer magic mismatch（非 v4 footer）".toList
  else if rd 4 b 36 ≠ crc32 (b.take 36) then .error "footer crc32 mismatch".toList
  else .ok ⟨rd 8 b 16, rd 8 b 24, rd 4 b 32⟩

def footerAt (b : Bytes) (excludes : List (Nat × Nat)) (pos : Nat) : Bool :=
  excludes.all (fun r => !(r.1 ≤ pos && pos < r.2)) && slice b pos 8 == some trailerMagicV4

def findFooterFrom (b : Bytes) (overlayStart : Nat) (excludes : List (Nat × Nat)) :
    Nat → Option Nat
  | 0 => if 0 < overlayStart then none
    else if footerAt b excludes 0 then some 0 else none
  | pos + 1 => if pos + 1 < overlayStart then none
    else if footerAt b excludes (pos + 1) then some (pos + 1)
    else findFooterFrom b overlayStart excludes pos

def findFooterV4 (b : Bytes) (overlayStart : Nat) (excludes : List (Nat × Nat)) : Option Nat :=
  if b.length < overlayStart + footerLen then none
  else findFooterFrom b overlayStart excludes (b.length - footerLen)

/-- No vector holds more than `isizeMax` bytes. -/
def attachV4 (b cms : Bytes) (formatTag : UInt8) (contentLen : Nat) : Except Text Bytes := do
  let footer ← buildFooterV4 formatTag contentLen b.length cms.length
  if b.length + cms.length + footerLen > isizeMax then .error "capacity overflow".toList
  else pure (b ++ cms ++ footer)

def signCarrierV4 (b cms : Bytes) : Except Text Bytes :=
  if detectFormat b = formatTagPe then
    .error "PE 载体签名走 Certificate Table（S3-2/S3-3），不接受 v4 footer 形态".toList
  else do
    let l ← displayed ((detectCodec b).computeL b)
    attachV4 b cms (UInt8.ofNat (detectFormat b)) (l.getD b.length)

def extractV4 (b : Bytes) (footerOffset : Nat) : Except Text (Nat × Bytes) :=
  if footerOffset + footerLen ≥ 2 ^ 64 then .error "crafted footer：footer 偏移溢出".toList
  else if footerOffset + footerLen > b.length then
    .error ("crafted footer：footer 偏移 ".toList ++ decimal footerOffset ++ " 越界（文件 ".toList ++
      decimal b.length ++ "）".toList)
  else do
    let p ← parseFooterV4 (range b footerOffset (footerOffset + footerLen))
    if p.cmsLen = 0 then .error "crafted footer：cms_len = 0".toList
    else if p.cmsOff + p.cmsLen ≥ 2 ^ 64 then .error "crafted footer：cms 区间溢出".toList
    else if p.cmsOff + p.cmsLen > footerOffset then
      .error ("crafted footer：CMS 区间 [".toList ++ decimal p.cmsOff ++ ", ".toList ++
        decimal (p.cmsOff + p.cmsLen) ++ ") 越过 footer @".toList ++ decimal footerOffset)
    else if p.contentLen > p.cmsOff then
      .error ("crafted footer：content_len ".toList ++ decimal p.contentLen ++ " > cms_off ".toList ++
        decimal p.cmsOff ++ "（内容压到 CMS 区）".toList)
    else pure (p.contentLen, range b p.cmsOff (p.cmsOff + p.cmsLen))

structure V4Carrier (D : Type) where
  contentLen : Nat
  cmsDer : Bytes
  contentDigest : D

def noFooter : Text := "无 v4 footer（未签名或载体损坏）".toList

def extractCarrierV4 {D : Type} (sha256 : Bytes → D) (b : Bytes) : Except Text (V4Carrier D) := do
  let codec := detectCodec b
  let l ← displayed (codec.computeL b)
  match findFooterV4 b (l.getD 0) (codec.overlayExcludes b) with
  | none => .error noFooter
  | some footerOffset => do
    let (contentLen, cms) ← extractV4 b footerOffset
    if l.any fun lActual => contentLen ≠ lActual then
      .error ("footer content_len ".toList ++ decimal contentLen ++ " ≠ ELF 结构区 L ".toList ++
        decimal (l.getD 0) ++ "（载体契约违约）".toList)
    else do
      let contentDigest ← displayed (codec.contentHash sha256 b contentLen)
      pure ⟨contentLen, cms, contentDigest⟩

theorem findFooterFrom_hit {b : Bytes} {overlayStart pos : Nat} {excludes : List (Nat × Nat)}
    (hstart : overlayStart ≤ pos) (hat : footerAt b excludes pos = true) :
    findFooterFrom b overlayStart excludes pos = some pos := by
  cases pos with
  | zero => rw [findFooterFrom, if_neg (by omega), if_pos hat]
  | succ pos => rw [findFooterFrom, if_neg (by omega), if_pos hat]

/-- A string whose continuation starts outside the alphabet of a magic keeps its format. -/
theorem prefix_append_iff {m b r : Bytes} {x : UInt8} (hx : x ∉ m) :
    m <+: b ++ x :: r ↔ m <+: b := by
  constructor
  · intro h
    rcases Nat.lt_or_ge b.length m.length with hlt | hle
    · exfalso
      apply hx
      have hget := h.getElem hlt
      rw [List.getElem_append_right le_rfl] at hget
      simp only [Nat.sub_self, List.getElem_cons_zero] at hget
      rw [← hget]
      exact List.getElem_mem hlt
    · exact List.prefix_of_prefix_length_le h (List.prefix_append b _) hle
  · intro h
    exact h.trans (List.prefix_append b _)

theorem detectFormat_append {b r : Bytes} : detectFormat (b ++ 0x30 :: r) = detectFormat b := by
  unfold detectFormat
  simp only [prefix_append_iff (m := mz) (x := 0x30) (by decide),
    prefix_append_iff (m := elfMagic) (x := 0x30) (by decide)]

theorem detectCodec_append {b r : Bytes} : detectCodec (b ++ 0x30 :: r) = detectCodec b := by
  unfold detectCodec
  simp only [prefix_append_iff (m := mz) (x := 0x30) (by decide),
    prefix_append_iff (m := elfMagic) (x := 0x30) (by decide)]

theorem detectCodec_eq_pe {b : Bytes} : detectCodec b = .pe ↔ detectFormat b = formatTagPe := by
  unfold detectCodec detectFormat
  split
  · exact ⟨fun _ => rfl, fun _ => rfl⟩
  · split
    · exact ⟨(fun h => nomatch h), fun h => by revert h; decide⟩
    · exact ⟨(fun h => nomatch h), fun h => by revert h; decide⟩

theorem rd_toLe (x t : Bytes) {w n : Nat} (hn : n < 256 ^ w) :
    rd w (x ++ (toLe w n ++ t)) x.length = n := by
  rw [rd, range_append_right, List.take_left' (length_toLe w n), le_toLe hn]

section Footer
variable {formatTag : UInt8} {contentLen cmsOff cmsLen : Nat} {footer : Bytes}

theorem length_footerHead : (footerHead formatTag contentLen cmsOff cmsLen).length = 36 := by
  simp only [footerHead, List.length_append, length_toLe]
  rfl

theorem buildFooterV4_eq_ok (h : buildFooterV4 formatTag contentLen cmsOff cmsLen = .ok footer) :
    cmsLen ≤ u32Max ∧ footer.length = footerLen ∧ footerHead formatTag contentLen cmsOff cmsLen ++
      (toLe 4 (crc32 (footerHead formatTag contentLen cmsOff cmsLen)) ++ List.replicate 24 0) =
        footer := by
  obtain ⟨hle, h⟩ := ite_error_eq_ok.mp h
  have heq := Except.ok.inj h
  refine ⟨not_lt.mp hle, ?_, heq⟩
  rw [← heq, List.length_append, List.length_append, length_footerHead, length_toLe,
    List.length_replicate]
  rfl

/-- A footer is read back as it was built. -/
theorem parseFooterV4_build (h : buildFooterV4 formatTag contentLen cmsOff cmsLen = .ok footer)
    (hcontent : contentLen < 256 ^ 8) (hoff : cmsOff < 256 ^ 8) :
    parseFooterV4 footer = .ok ⟨contentLen, cmsOff, cmsLen⟩ := by
  obtain ⟨hcms, -, rfl⟩ := buildFooterV4_eq_ok h
  have hlen : cmsLen < 256 ^ 4 := by unfold u32Max at hcms; omega
  have hmagic : range (footerHead formatTag contentLen cmsOff cmsLen ++
      (toLe 4 (crc32 (footerHead formatTag contentLen cmsOff cmsLen)) ++
        List.replicate 24 0)) 0 8 = trailerMagicV4 := by
    rw [range, List.drop_zero, footerHead, List.append_assoc]
    exact List.take_left' rfl
  have htake : (footerHead formatTag contentLen cmsOff cmsLen ++
      (toLe 4 (crc32 (footerHead formatTag contentLen cmsOff cmsLen)) ++
        List.replicate 24 0)).take 36 = footerHead formatTag contentLen cmsOff cmsLen :=
    List.take_left' length_footerHead
  have hcrc := rd_toLe (footerHead formatTag contentLen cmsOff cmsLen) (List.replicate 24 0)
    (crc32_lt (footerHead formatTag contentLen cmsOff cmsLen))
  rw [length_footerHead] at hcrc
  have hread : ∀ t, rd 8 (footerHead formatTag contentLen cmsOff cmsLen ++ t) 16 = contentLen ∧
      rd 8 (footerHead formatTag contentLen cmsOff cmsLen ++ t) 24 = cmsOff ∧
      rd 4 (footerHead formatTag contentLen cmsOff cmsLen ++ t) 32 = cmsLen := by
    intro t
    have hx : (trailerMagicV4 ++ [4, 2, formatTag, 0, 0, 0, 0, 0]).length = 16 := rfl
    have h1 := rd_toLe (trailerMagicV4 ++ [4, 2, formatTag, 0, 0, 0, 0, 0])
      (toLe 8 cmsOff ++ toLe 4 cmsLen ++ t) hcontent
    have h2 := rd_toLe (trailerMagicV4 ++ [4, 2, formatTag, 0, 0, 0, 0, 0] ++ toLe 8 contentLen)
      (toLe 4 cmsLen ++ t) hoff
    have h3 := rd_toLe (trailerMagicV4 ++ [4, 2, formatTag, 0, 0, 0, 0, 0] ++ toLe 8 contentLen ++
      toLe 8 cmsOff) t hlen
    simp only [List.length_append, length_toLe, hx] at h1 h2 h3
    simp only [footerHead, List.append_assoc] at h1 h2 h3 ⊢
    exact ⟨h1, h2, h3⟩
  obtain ⟨h1, h2, h3⟩ := hread
    (toLe 4 (crc32 (footerHead formatTag contentLen cmsOff cmsLen)) ++ List.replicate 24 0)
  rw [parseFooterV4, if_neg (not_not.mpr hmagic), htake, if_neg (not_not.mpr hcrc), h1, h2, h3]

end Footer

namespace ExecutableCodec
variable {codec : ExecutableCodec} {b : Bytes}

theorem computeL_elf {l : Option Nat} :
    computeL elf b = .ok l ↔ ∃ a, computeElfL b = .ok a ∧ some a = l := by
  have heq : computeL elf b = (computeElfL b).map some := rfl
  rw [heq]
  cases computeElfL b with
  | error e => exact ⟨(fun h => nomatch h), fun ⟨_, h, _⟩ => nomatch h⟩
  | ok a => simp [Except.map]

theorem computeL_append (hpe : codec ≠ pe) {l : Option Nat} (h : codec.computeL b = .ok l)
    (t : Bytes) : codec.computeL (b ++ t) = .ok l := by
  cases codec with
  | pe => exact absurd rfl hpe
  | raw => exact h
  | elf =>
    obtain ⟨a, ha, hl⟩ := computeL_elf.mp h
    exact computeL_elf.mpr ⟨a, computeElfL_append t ha, hl⟩

theorem computeL_le (hpe : codec ≠ pe) {l : Option Nat} (h : codec.computeL b = .ok l) :
    l.getD 0 ≤ b.length ∧ l.getD b.length ≤ b.length := by
  cases codec with
  | pe => exact absurd rfl hpe
  | raw =>
    cases h
    exact ⟨Nat.zero_le _, le_rfl⟩
  | elf =>
    obtain ⟨a, ha, rfl⟩ := computeL_elf.mp h
    exact ⟨computeElfL_le ha, computeElfL_le ha⟩

theorem contentHash_append {D : Type} {sha256 : Bytes → D} (hpe : codec ≠ pe) {l : Nat} {d : D}
    (h : codec.contentHash sha256 b l = .ok d) (t : Bytes) :
    codec.contentHash sha256 (b ++ t) l = .ok d := by
  have hprefix : prefixHash sha256 b l = .ok d → prefixHash sha256 (b ++ t) l = .ok d := by
    intro hok
    obtain ⟨hle, hd⟩ := prefixHash_eq_ok.mp hok
    refine prefixHash_eq_ok.mpr ⟨by rw [List.length_append]; omega, ?_⟩
    rwa [List.take_append_of_le_length hle]
  cases codec with
  | pe => exact absurd rfl hpe
  | elf => exact hprefix h
  | raw => exact hprefix h

end ExecutableCodec

theorem signedFormat {content cms s : Bytes} (hsign : signCarrierV4 content cms = .ok s)
    (hcms : cms.head? = some 0x30) : detectFormat s = detectFormat content := by
  obtain ⟨-, hsign⟩ := ite_error_eq_ok.mp hsign
  obtain ⟨l, -, hsign⟩ := bind_eq_ok.mp hsign
  obtain ⟨footer, -, hsign⟩ := bind_eq_ok.mp hsign
  obtain ⟨-, hsign⟩ := ite_error_eq_ok.mp hsign
  cases cms with
  | nil => exact nomatch hcms
  | cons x r =>
    rw [← Except.ok.inj hsign, Option.some.inj hcms, List.append_assoc, List.cons_append]
    exact detectFormat_append

/-- What is attached is found again, with the digest of the protected part. -/
theorem extractCarrierV4_signed {D : Type} {sha256 : Bytes → D} {content cms s : Bytes}
    {l : Option Nat} {d : D} (hsign : signCarrierV4 content cms = .ok s)
    (hcms : cms.head? = some 0x30) (hl : (detectCodec content).computeL content = .ok l)
    (hd : (detectCodec content).contentHash sha256 content (l.getD content.length) = .ok d) :
    extractCarrierV4 sha256 s = .ok ⟨l.getD content.length, cms, d⟩ := by
  obtain ⟨hfmt, hsign⟩ := ite_error_eq_ok.mp hsign
  obtain ⟨l', hl', hsign⟩ := bind_eq_ok.mp hsign
  have hll : l' = l := Except.ok.inj ((displayed_eq_ok.mp hl').symm.trans hl)
  subst hll
  obtain ⟨footer, hfooter, hsign⟩ := bind_eq_ok.mp hsign
  obtain ⟨hcap, hsign⟩ := ite_error_eq_ok.mp hsign
  have hs : content ++ (cms ++ footer) = s := by
    rw [← List.append_assoc]
    exact Except.ok.inj hsign
  have hpe : detectCodec content ≠ .pe := fun h => hfmt (detectCodec_eq_pe.mp h)
  obtain ⟨hle0, hle⟩ := ExecutableCodec.computeL_le hpe hl
  obtain ⟨hu32, hflen, -⟩ := buildFooterV4_eq_ok hfooter
  have hcap' : content.length + cms.length + footerLen ≤ isizeMax := not_lt.mp hcap
  unfold isizeMax at hcap'
  obtain ⟨r, rfl⟩ : ∃ r, cms = 0x30 :: r := by
    cases cms with
    | nil => exact nomatch hcms
    | cons x r => exact ⟨r, by rw [Option.some.inj hcms]⟩
  have hcodec : detectCodec s = detectCodec content := by
    rw [← hs, List.cons_append]
    exact detectCodec_append
  have hparse := parseFooterV4_build hfooter (by omega) (by omega)
  have hx : (content ++ 0x30 :: r).length = content.length + (0x30 :: r).length :=
    List.length_append
  have hslen : s.length = content.length + (0x30 :: r).length + footerLen := by
    rw [← hs, ← List.append_assoc, List.length_append, hx, hflen]
  have hrange : range s (content.length + (0x30 :: r).length)
      (content.length + (0x30 :: r).length + footerLen) = footer := by
    rw [← hs, ← List.append_assoc, ← hx, range_append_right]
    exact List.take_of_length_le hflen.le
  have hat : footerAt s [] (content.length + (0x30 :: r).length) = true := by
    have hslice := slice_append_right (content ++ 0x30 :: r) footer 0 8
    rw [Nat.add_zero, hx, List.append_assoc, hs] at hslice
    obtain ⟨-, -, hfoot⟩ := buildFooterV4_eq_ok hfooter
    have hmagic : slice footer 0 8 = some trailerMagicV4 := by
      rw [← hfoot, footerHead, List.append_assoc]
      exact slice_append_left trailerMagicV4 _
    rw [footerAt, hslice, hmagic]
    rfl
  have hfind : findFooterV4 s (l'.getD 0) [] =
      some (content.length + (0x30 :: r).length) := by
    rw [findFooterV4, if_neg (by omega), hslen, Nat.add_sub_cancel]
    exact findFooterFrom_hit (by omega) hat
  have hextract : extractV4 s (content.length + (0x30 :: r).length) =
      .ok (l'.getD content.length, 0x30 :: r) := by
    rw [extractV4, if_neg (by omega), if_neg (by omega), hrange]
    refine bind_eq_ok.mpr ⟨_, hparse, ?_⟩
    rw [if_neg (by simp), if_neg (by simp only; omega), if_neg (by simp only; omega),
      if_neg (by simp only; omega)]
    have hcmsrange := range_append_right content (0x30 :: r ++ footer) (0x30 :: r).length
    rw [hs, List.take_left' rfl] at hcmsrange
    rw [hcmsrange]
    rfl
  have hexcl : (detectCodec content).overlayExcludes s = [] := by
    cases hc : detectCodec content with
    | pe => exact absurd hc hpe
    | elf => rfl
    | raw => rfl
  have hlen : (l'.any fun lActual => l'.getD content.length ≠ lActual) = false := by
    cases l' with
    | none => rfl
    | some a => simp
  rw [extractCarrierV4, hcodec]
  refine bind_eq_ok.mpr ⟨l', displayed_eq_ok.mpr ?_, ?_⟩
  · rw [← hs]
    exact ExecutableCodec.computeL_append hpe hl _
  · rw [hexcl, hfind]
    refine bind_eq_ok.mpr ⟨_, hextract, ?_⟩
    simp only [hlen]
    refine bind_eq_ok.mpr ⟨d, displayed_eq_ok.mpr ?_, rfl⟩
    rw [← hs]
    exact ExecutableCodec.contentHash_append hpe hd _

end NemesisBot.Verify

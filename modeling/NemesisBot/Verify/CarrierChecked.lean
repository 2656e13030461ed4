import NemesisBot.Verify.PeTableChecked
import NemesisBot.Verify.Carrier

/-! ELF extents, footers and carriers with every addition and slice that could panic. -/
namespace NemesisBot.Verify.Checked
open Strings Bytes Panics

/-- A field behind `base`, of the width and at the offset of the file's class. -/
def wideField (lowFirst is64 : Bool) (b : Bytes) (base off64 off32 : Nat) (name : Text) :
    Panicking CodecError Nat :=
  if is64 then do
    let off ← word (base + off64)
    returns (field lowFirst 8 b off name)
  else do
    let off ← word (base + off32)
    returns (field lowFirst 4 b off name)

theorem wideField_eq {lowFirst is64 : Bool} {b : Bytes} {base off64 off32 : Nat} {name : Text}
    (h64 : base + off64 < 2 ^ 64) (h32 : base + off32 < 2 ^ 64) :
    wideField lowFirst is64 b base off64 off32 name =
      returns (Verify.wideField lowFirst is64 b (base + off64) (base + off32) name) := by
  cases is64 with
  | true =>
    rw [wideField, if_pos rfl, word_bind h64]
    rfl
  | false =>
    rw [wideField, if_neg (by simp), word_bind h32]
    rfl

def loadEnds (lowFirst is64 : Bool) (b : Bytes) (phoff phentsize : Nat) :
    Nat → Panicking CodecError Nat
  | 0 => pure 0
  | i + 1 => do
    let l ← loadEnds lowFirst is64 b phoff phentsize i
    let ph ← returns (checkedAdd phoff (i * phentsize) (.malformed ("program header ".toList ++
      decimal i ++ " 落点溢出：e_phoff ".toList ++ hexText phoff ++ " + ".toList ++ decimal i ++
      "*".toList ++ decimal phentsize)))
    let pType ← returns (field lowFirst 4 b ph "p_type".toList)
    if pType ≠ 1 then pure l
    else do
      let pOffset ← wideField lowFirst is64 b ph 8 4 "p_offset".toList
      let pFilesz ← wideField lowFirst is64 b ph 32 16 "p_filesz".toList
      let loadEnd ← returns (checkedAdd pOffset pFilesz (.malformed
        ("PT_LOAD 段末溢出：p_offset ".toList ++ hexText pOffset ++ " + p_filesz ".toList ++
          hexText pFilesz)))
      pure (max l loadEnd)

/-- A program header whose type was read lies in the file, so its other offsets are words. -/
theorem loadEnds_eq (lowFirst is64 : Bool) {b : Bytes} (hb : b.length < 2 ^ 63)
    (phoff phentsize n : Nat) : loadEnds lowFirst is64 b phoff phentsize n =
      returns (Verify.loadEnds lowFirst is64 b phoff phentsize n) := by
  induction n with
  | zero => rfl
  | succ i ih =>
    rw [loadEnds, Verify.loadEnds, ih]
    refine returns_bind fun l _ => returns_bind fun ph _ => returns_bind fun pType hty => ?_
    have hfits := field_fits hty
    refine ite_returns (fun _ => rfl) fun _ => ?_
    rw [wideField_eq (by omega) (by omega)]
    refine returns_bind fun pOffset _ => ?_
    rw [wideField_eq (by omega) (by omega)]
    exact returns_bind fun pFilesz _ => returns_bind fun _ _ => rfl

def elfEnds (b : Bytes) (lowFirst is64 : Bool) : Panicking CodecError Nat := do
  let phoff ← returns (Verify.wideField lowFirst is64 b 32 28 "e_phoff".toList)
  let phentsize ← returns (field lowFirst 2 b (if is64 then 54 else 42) "e_phentsize".toList)
  let phnum ← returns (field lowFirst 2 b (if is64 then 56 else 44) "e_phnum".toList)
  let l ← loadEnds lowFirst is64 b phoff phentsize phnum
  let shoff ← returns (Verify.wideField lowFirst is64 b 40 32 "e_shoff".toList)
  let shentsize ← returns (field lowFirst 2 b (if is64 then 58 else 46) "e_shentsize".toList)
  let shnum ← returns (field lowFirst 2 b (if is64 then 60 else 48) "e_shnum".toList)
  returns (sectionTableEnd shoff shentsize shnum l)

def computeElfL (b : Bytes) : Panicking CodecError Nat :=
  if b.length < 0x40 then throw .truncated
  else do
    let magic ← sliceOf b 0 4
    if magic ≠ elfMagic then throw .notAnExecutable
    else do
      let cls ← byteAt b 4
      let data ← byteAt b 5
      let lowFirst ← returns (elfLowFirst data)
      let is64 ← returns (elfIs64 cls)
      let l ← elfEnds b lowFirst is64
      if l > b.length then
        throw (.malformed ("ELF L ".toList ++ decimal l ++ " > file len ".toList ++
          decimal b.length))
      else pure l

theorem computeElfL_eq {b : Bytes} (hb : b.length < 2 ^ 63) :
    computeElfL b = returns (Verify.computeElfL b) := by
  rw [computeElfL, Verify.computeElfL]
  refine ite_returns (fun _ => rfl) fun hlen => ?_
  have hrange : range b 0 4 = b.take 4 := by rw [range, List.drop_zero]
  rw [sliceOf_bind (by omega) (by omega), hrange]
  refine ite_returns (fun _ => rfl) fun _ => ?_
  rw [byteAt_bind (by omega), byteAt_bind (by omega)]
  refine returns_bind fun lowFirst _ => returns_bind fun is64 _ => ?_
  have hends : elfEnds b lowFirst is64 = returns (Verify.elfEnds b lowFirst is64) := by
    rw [elfEnds, Verify.elfEnds]
    refine returns_bind fun phoff _ => returns_bind fun phentsize _ =>
      returns_bind fun phnum _ => ?_
    rw [loadEnds_eq lowFirst is64 hb]
    exact returns_bind fun l _ => returns_bind fun shoff _ => returns_bind fun shentsize _ =>
      returns_bind fun shnum _ => rfl
  rw [hends]
  exact returns_bind fun l _ => ite_returns (fun _ => rfl) fun _ => rfl

/-- The bytes that the segments between the excluded ranges feed to the hash. -/
def hashedOutside (content : Bytes) (l : Nat) (excludes : List (Nat × Nat)) :
    Panicking CodecError Bytes := do
  let (hashed, cursor) ← excludes.foldlM (fun (acc : Bytes × Nat) r => do
    let segment ← sliceAhead content acc.2 (min r.1 l)
    pure (acc.1 ++ segment, max acc.2 (min r.2 l))) ([], 0)
  let tail ← sliceAhead content cursor l
  pure (hashed ++ tail)

theorem range_of_le {b : Bytes} {i j : Nat} (h : j ≤ i) : range b i j = [] := by
  rw [range, List.drop_eq_nil_of_le (by rw [List.length_take]; omega)]

theorem hashedOutside_eq {content : Bytes} {l : Nat} (hl : l ≤ content.length)
    (excludes : List (Nat × Nat)) :
    hashedOutside content l excludes = returns (.ok (Verify.hashedOutside content l excludes)) := by
  have hfold : ∀ acc : Bytes × Nat, excludes.foldlM (fun (acc : Bytes × Nat) r => do
      let segment ← sliceAhead content acc.2 (min r.1 l)
      pure (acc.1 ++ segment, max acc.2 (min r.2 l))) acc =
      (returns (.ok (excludes.foldl (fun (acc : Bytes × Nat) r =>
        (if min r.1 l > acc.2 then acc.1 ++ range content acc.2 (min r.1 l) else acc.1,
          max acc.2 (min r.2 l))) acc)) : Panicking CodecError (Bytes × Nat)) := by
    induction excludes with
    | nil => exact fun _ => rfl
    | cons r rest ih =>
      intro acc
      rw [List.foldlM_cons, List.foldl_cons, bind_assoc, sliceAhead_bind (by omega),
        pure_bind_panicking, ih]
      by_cases hahead : min r.1 l > acc.2
      · rw [if_pos hahead]
      · rw [if_neg hahead, range_of_le (by omega), List.append_nil]
  rw [hashedOutside, Verify.hashedOutside, hfold, returns_ok_bind]
  generalize excludes.foldl _ _ = acc
  obtain ⟨hashed, cursor⟩ := acc
  simp only
  rw [sliceAhead_bind hl]
  split
  · rfl
  · rw [range_of_le (by omega), List.append_nil]
    rfl

def prefixHash {D : Type} (sha256 : Bytes → D) (content : Bytes) (l : Nat) :
    Panicking CodecError D :=
  if l > content.length then
    throw (.malformed ("content_len ".toList ++ decimal l ++ " > bytes len ".toList ++
      decimal content.length))
  else do
    let hashed ← sliceOf content 0 l
    pure (sha256 hashed)

theorem prefixHash_eq {D : Type} (sha256 : Bytes → D) (content : Bytes) (l : Nat) :
    prefixHash sha256 content l = returns (Verify.prefixHash sha256 content l) := by
  rw [prefixHash, Verify.prefixHash]
  refine ite_returns (fun _ => rfl) fun hle => ?_
  rw [sliceOf_bind (by omega) (by omega), range, List.drop_zero]
  rfl

def peContentHash {D : Type} (sha256 : Bytes → D) (content : Bytes) (l : Nat) :
    Panicking CodecError D :=
  if l > content.length then
    throw (.malformed ("content_len ".toList ++ decimal l ++ " > bytes len ".toList ++
      decimal content.length))
  else do
    let layout ← parsePe content
    let excludes := layout.checksumRange :: layout.securityDirRange.toList
    let hashed ← hashedOutside content l (excludes.insertionSort fun r t => r.1 ≤ t.1)
    pure (sha256 hashed)

theorem peContentHash_eq {D : Type} (sha256 : Bytes → D) (content : Bytes) (l : Nat) :
    peContentHash sha256 content l = returns (Verify.peContentHash sha256 content l) := by
  rw [peContentHash, Verify.peContentHash]
  refine ite_returns (fun _ => rfl) fun hle => ?_
  rw [parsePe_eq]
  refine returns_bind fun layout _ => ?_
  simp only
  rw [hashedOutside_eq (by omega)]
  rfl

def computeL : ExecutableCodec → Bytes → Panicking CodecError (Option Nat)
  | .pe, b => do
    let layout ← parsePe b
    pure (some layout.l)
  | .elf, b => do
    let l ← computeElfL b
    pure (some l)
  | .raw, _ => pure none

theorem computeL_eq (codec : ExecutableCodec) {b : Bytes} (hb : b.length < 2 ^ 63) :
    computeL codec b = returns (codec.computeL b) := by
  cases codec with
  | pe =>
    rw [computeL, ExecutableCodec.computeL, parsePe_eq]
    cases Verify.parsePe b <;> rfl
  | elf =>
    rw [computeL, ExecutableCodec.computeL, computeElfL_eq hb]
    cases Verify.computeElfL b <;> rfl
  | raw => rfl

def contentHash {D : Type} (sha256 : Bytes → D) :
    ExecutableCodec → Bytes → Nat → Panicking CodecError D
  | .pe => peContentHash sha256
  | .elf => prefixHash sha256
  | .raw => prefixHash sha256

theorem contentHash_eq {D : Type} (sha256 : Bytes → D) (codec : ExecutableCodec) (b : Bytes)
    (l : Nat) : contentHash sha256 codec b l = returns (codec.contentHash sha256 b l) := by
  cases codec with
  | pe => exact peContentHash_eq sha256 b l
  | elf => exact prefixHash_eq sha256 b l
  | raw => exact prefixHash_eq sha256 b l

/-- An error of the parser is swallowed, a panic would not be. -/
def overlayExcludes {ε : Type} : ExecutableCodec → Bytes → Panicking ε (List (Nat × Nat))
  | .pe, b => ExceptT.mk ((parsePe b).run.map fun r => match r with
    | .ok layout => .ok layout.authRegion.toList
    | .error _ => .ok [])
  | _, _ => pure []

theorem overlayExcludes_eq {ε : Type} (codec : ExecutableCodec) (b : Bytes) :
    overlayExcludes (ε := ε) codec b = returns (.ok (codec.overlayExcludes b)) := by
  cases codec with
  | pe =>
    rw [overlayExcludes, parsePe_eq, ExecutableCodec.overlayExcludes]
    cases Verify.parsePe b <;> rfl
  | elf => rfl
  | raw => rfl

def footerAt {ε : Type} (b : Bytes) (excludes : List (Nat × Nat)) (pos : Nat) :
    Panicking ε Bool := do
  let _ ← word (pos + 8)
  pure (Verify.footerAt b excludes pos)

def findFooterFrom {ε : Type} (b : Bytes) (overlayStart : Nat) (excludes : List (Nat × Nat)) :
    Nat → Panicking ε (Option Nat)
  | 0 =>
    if 0 < overlayStart then pure none
    else do
      let hit ← footerAt b excludes 0
      if hit then pure (some 0) else pure none
  | pos + 1 =>
    if pos + 1 < overlayStart then pure none
    else do
      let hit ← footerAt b excludes (pos + 1)
      if hit then pure (some (pos + 1))
      else do
        let _ ← minus (pos + 1) 1
        findFooterFrom b overlayStart excludes pos

theorem footerAt_bind {ε β : Type} (b : Bytes) (excludes : List (Nat × Nat)) {pos : Nat}
    (h : pos + 8 < 2 ^ 64) (f : Bool → Panicking ε β) :
    (footerAt b excludes pos >>= f) = f (Verify.footerAt b excludes pos) := by
  rw [footerAt, word_bind h]
  rfl

theorem findFooterFrom_eq {ε : Type} (b : Bytes) (overlayStart : Nat)
    (excludes : List (Nat × Nat)) {pos : Nat} (h : pos + 8 < 2 ^ 64) :
    findFooterFrom (ε := ε) b overlayStart excludes pos =
      returns (.ok (Verify.findFooterFrom b overlayStart excludes pos)) := by
  induction pos with
  | zero =>
    rw [findFooterFrom, Verify.findFooterFrom, footerAt_bind b excludes h]
    split
    · rfl
    · split <;> rfl
  | succ pos ih =>
    rw [findFooterFrom, Verify.findFooterFrom, footerAt_bind b excludes h,
      minus_bind (by omega), ih (by omega)]
    split
    · rfl
    · split <;> rfl

def findFooterV4 {ε : Type} (b : Bytes) (overlayStart : Nat) (excludes : List (Nat × Nat)) :
    Panicking ε (Option Nat) := do
  let least ← word (overlayStart + footerLen)
  if b.length < least then pure none
  else do
    let last ← minus b.length footerLen
    findFooterFrom b overlayStart excludes last

theorem findFooterV4_eq {ε : Type} {b : Bytes} {overlayStart : Nat} (excludes : List (Nat × Nat))
    (hb : b.length < 2 ^ 63) (hstart : overlayStart ≤ b.length) :
    findFooterV4 (ε := ε) b overlayStart excludes =
      returns (.ok (Verify.findFooterV4 b overlayStart excludes)) := by
  have hlen : footerLen = 64 := rfl
  rw [findFooterV4, Verify.findFooterV4, word_bind (by omega)]
  split
  · rfl
  · rw [minus_bind (by omega), findFooterFrom_eq b overlayStart excludes (by omega)]

/-- The bytes of a number, indexed one by one. -/
def rd (n : Nat) (b : Bytes) (off : Nat) : Panicking Text Nat := do
  let bytes ← sliceOf b off (off + n)
  pure (le bytes)

def parseFooterV4 (b : Bytes) : Panicking Text ParsedFooterV4 := do
  let magic ← sliceOf b 0 8
  if magic ≠ trailerMagicV4 then throw "footer magic mismatch（非 v4 footer）".toList
  else do
    let stored ← rd 4 b 36
    let covered ← sliceOf b 0 36
    if stored ≠ crc32 covered then throw "footer crc32 mismatch".toList
    else do
      let contentLen ← rd 8 b 16
      let cmsOff ← rd 8 b 24
      let cmsLen ← rd 4 b 32
      pure ⟨contentLen, cmsOff, cmsLen⟩

theorem rd_bind {β : Type} {n : Nat} {b : Bytes} {off : Nat} (h : off + n ≤ b.length)
    (f : Nat → Panicking Text β) : (rd n b off >>= f) = f (Verify.rd n b off) := by
  rw [rd, bind_assoc, sliceOf_bind (by omega) h]
  rfl

theorem parseFooterV4_eq {b : Bytes} (hb : b.length = footerLen) :
    parseFooterV4 b = returns (Verify.parseFooterV4 b) := by
  have hlen : footerLen = 64 := rfl
  have hcovered : range b 0 36 = b.take 36 := by rw [range, List.drop_zero]
  rw [parseFooterV4, Verify.parseFooterV4, sliceOf_bind (by omega) (by omega)]
  refine ite_returns (fun _ => rfl) fun _ => ?_
  rw [rd_bind (by omega), sliceOf_bind (by omega) (by omega), hcovered]
  refine ite_returns (fun _ => rfl) fun _ => ?_
  rw [rd_bind (by omega), rd_bind (by omega), rd_bind (by omega)]
  rfl

def extractV4 (b : Bytes) (footerOffset : Nat) : Panicking Text (Nat × Bytes) :=
  if footerOffset + footerLen ≥ 2 ^ 64 then throw "crafted footer：footer 偏移溢出".toList
  else if footerOffset + footerLen > b.length then
    throw ("crafted footer：footer 偏移 ".toList ++ decimal footerOffset ++ " 越界（文件 ".toList ++
      decimal b.length ++ "）".toList)
  else do
    let footer ← sliceOf b footerOffset (footerOffset + footerLen)
    let fb ← writeAt (List.replicate footerLen 0) 0 footerLen footer
    let p ← parseFooterV4 fb
    if p.cmsLen = 0 then throw "crafted footer：cms_len = 0".toList
    else if p.cmsOff + p.cmsLen ≥ 2 ^ 64 then throw "crafted footer：cms 区间溢出".toList
    else if p.cmsOff + p.cmsLen > footerOffset then
      throw ("crafted footer：CMS 区间 [".toList ++ decimal p.cmsOff ++ ", ".toList ++
        decimal (p.cmsOff + p.cmsLen) ++ ") 越过 footer @".toList ++ decimal footerOffset)
    else if p.contentLen > p.cmsOff then
      throw ("crafted footer：content_len ".toList ++ decimal p.contentLen ++
        " > cms_off ".toList ++ decimal p.cmsOff ++ "（内容压到 CMS 区）".toList)
    else do
      let cms ← sliceOf b p.cmsOff (p.cmsOff + p.cmsLen)
      pure (p.contentLen, cms)

theorem length_range {b : Bytes} {i j : Nat} (hij : i ≤ j) (hj : j ≤ b.length) :
    (range b i j).length = j - i := by
  rw [range, List.length_drop, List.length_take]
  omega

theorem extractV4_eq (b : Bytes) (footerOffset : Nat) :
    extractV4 b footerOffset = returns (Verify.extractV4 b footerOffset) := by
  rw [extractV4, Verify.extractV4]
  refine ite_returns (fun _ => rfl) fun _ => ite_returns (fun _ => rfl) fun hfits => ?_
  have hlen := length_range (b := b) (i := footerOffset) (j := footerOffset + footerLen)
    (by omega) (by omega)
  have hcopy : overwrite (List.replicate footerLen 0) 0
      (range b footerOffset (footerOffset + footerLen)) =
      range b footerOffset (footerOffset + footerLen) := by
    rw [overwrite, List.take_zero, List.nil_append, hlen, List.drop_eq_nil_of_le (by simp),
      List.append_nil]
  rw [sliceOf_bind (by omega) (by omega),
    writeAt_bind (by omega) (by simp) (by omega), hcopy, parseFooterV4_eq (by omega)]
  refine returns_bind fun p _ => ?_
  refine ite_returns (fun _ => rfl) fun _ => ite_returns (fun _ => rfl) fun _ => ?_
  refine ite_returns (fun _ => rfl) fun hcms => ite_returns (fun _ => rfl) fun _ => ?_
  rw [sliceOf_bind (by omega) (by omega)]
  rfl

structure V4CarrierVerbatim (D : Type) where
  footerOffset : Nat
  contentLen : Nat
  cmsDer : Bytes
  contentDigest : D
  cmsDigestMatches : Bool

/-- `parseSignedData` is the content digest that a CMS value carries, or an error. -/
def extractCarrierV4 {D : Type} [DecidableEq D] (sha256 : Bytes → D)
    (parseSignedData : Bytes → Except Text D) (b : Bytes) :
    Panicking Text (V4CarrierVerbatim D) := do
  let codec := detectCodec b
  let l ← mapError CodecError.display (computeL codec b)
  let excludes ← overlayExcludes codec b
  match ← findFooterV4 b (l.getD 0) excludes with
  | none => throw noFooter
  | some footerOffset => do
    let (contentLen, cms) ← extractV4 b footerOffset
    if l.any fun lActual => contentLen ≠ lActual then
      throw ("footer content_len ".toList ++ decimal contentLen ++ " ≠ ELF 结构区 L ".toList ++
        decimal (l.getD 0) ++ "（载体契约违约）".toList)
    else do
      let contentDigest ← mapError CodecError.display (contentHash sha256 codec b contentLen)
      pure ⟨footerOffset, contentLen, cms, contentDigest,
        match parseSignedData cms with
        | .ok digest => decide (digest = contentDigest)
        | .error _ => false⟩

end NemesisBot.Verify.Checked

import NemesisBot.Verify.Pe

/-! The certificate table of a PE file: appending, replacing and reading it. -/
namespace NemesisBot.Verify
open Strings Bytes

/-- The total length of the outer DER value, by its header. -/
def derTlvLen (b : Bytes) : Option Nat :=
  if b.length < 2 then none
  else
    let l0 := (b.getD 1 0).toNat
    if l0 < 0x80 then some (2 + l0)
    else
      let n := l0 % 0x80
      if n = 0 ∨ n > 4 ∨ b.length < 2 + n then none
      else some (2 + n + be (range b 2 (2 + n)))

def winCertHeaderLen : Nat := 8
def winCertRevision2 : Nat := 0x0200
def winCertTypePkcsSignedData : Nat := 0x0002
def u32Max : Nat := 2 ^ 32 - 1

def round8 (x : Nat) : Nat := (x + 7) / 8 * 8

def entryLen (cms : Bytes) : Nat := winCertHeaderLen + round8 cms.length

def winCertEntryBytes (cms : Bytes) : Except CodecError Bytes :=
  if entryLen cms > u32Max then
    .error (.malformed ("CMS DER ".toList ++ decimal cms.length ++
      " 条目化后超 u32：dwLength 无法表达".toList))
  else .ok (toLe 4 (entryLen cms) ++ toLe 2 winCertRevision2 ++ toLe 2 winCertTypePkcsSignedData ++
    cms ++ List.replicate (round8 cms.length - cms.length) 0)

/-- Sets the Security entry at `off`. -/
def writeEntry (b : Bytes) (off va size : Nat) : Bytes :=
  overwrite (overwrite b off (toLe 4 va)) (off + 4) (toLe 4 size)

def appendCertificateTable (b cms : Bytes) : Except CodecError Bytes := do
  let layout ← parsePe b
  match layout.securityDirRange, layout.authRegion with
  | none, _ => .error (.malformed
      "NumberOfRvaAndSizes < 5：无 Security 表项可写，无法承载证书表".toList)
  | some _, some (_, vend) => .error (.malformed ("已存在证书表（截至 ".toList ++ decimal vend ++
      "）：本函数只接受未签名 PE，替换/共存策略归上层".toList))
  | some (entryOff, _), none =>
    if cms = [] then .error (.malformed "CMS DER 为空".toList)
    else if round8 b.length > u32Max then
      .error (.malformed ("文件长度 ".toList ++ decimal b.length ++
        " 8 对齐后超 u32：证书表 VA 无法表达".toList))
    else do
      let entry ← winCertEntryBytes cms
      pure (writeEntry (b ++ List.replicate (round8 b.length - b.length) 0 ++ entry) entryOff
        (round8 b.length) entry.length)

/-- The file up to its table at `va`, with the Security entry at `off` zeroed. -/
def stripTable (b : Bytes) (va off : Nat) : Bytes :=
  overwrite (b.take va) off (List.replicate 8 0)

def replaceCertificateTable (b cms : Bytes) : Except CodecError Bytes := do
  let layout ← parsePe b
  match layout.authRegion, layout.securityDirRange with
  | some (va, vend), some (entryOff, _) =>
    if vend ≠ b.length then
      .error (.malformed ("证书表后存在 ".toList ++ decimal (b.length - vend) ++
        " 字节数据：替换需 truncate 表区间，会吞数据，拒绝".toList))
    else if cms = [] then .error (.malformed "CMS DER 为空".toList)
    else appendCertificateTable (stripTable b va entryOff) cms
  | _, _ => .error (.malformed
      "未签名 PE（无证书表）：无旧签名可替换，首次签名走 append_certificate_table".toList)

structure WinCertEntry where
  offset : Nat
  entryLen : Nat
  revision : Nat
  certType : Nat
  certificate : Bytes
  deriving DecidableEq, Repr

/-- The certificate of an entry: a CMS value loses the padding behind it. -/
def trimCertificate (certType : Nat) (blob : Bytes) : Except CodecError Bytes :=
  if certType = winCertTypePkcsSignedData then
    match derTlvLen blob with
    | none => .error (.malformed "bCertificate 外层 DER 长度头损坏".toList)
    | some tlv =>
      if tlv > blob.length then
        .error (.malformed ("bCertificate DER 声称 ".toList ++ decimal tlv ++ " 超出条目 ".toList ++
          decimal blob.length))
      else .ok (blob.take tlv)
  else .ok blob

/-- The entries from `pos` on; what does not fit in front of `vend` is trailing padding. -/
def readEntriesFrom (b : Bytes) (vend pos : Nat) : Except CodecError (List WinCertEntry) :=
  if pos + winCertHeaderLen ≤ vend then do
    let dwlen ← u32le b pos "WIN_CERTIFICATE.dwLength".toList
    if _hstop : dwlen < winCertHeaderLen ∨ pos + dwlen > vend then pure []
    else do
      let revision ← u16le b (pos + 4) "wRevision".toList
      let certType ← u16le b (pos + 6) "wCertificateType".toList
      let certificate ← trimCertificate certType (range b (pos + winCertHeaderLen) (pos + dwlen))
      let rest ← readEntriesFrom b vend (round8 (pos + dwlen))
      pure (⟨pos, dwlen, revision, certType, certificate⟩ :: rest)
  else pure []
termination_by vend - pos
decreasing_by
  simp only [winCertHeaderLen, round8] at *
  omega

def readCertificateEntries (b : Bytes) : Except CodecError (List WinCertEntry) := do
  let layout ← parsePe b
  match layout.authRegion with
  | none => pure []
  | some (va, vend) => readEntriesFrom b vend va

/-- The end of the headers and of every section's data, as the file declares it once its
Security entry is set. -/
def declaredEnd (b : Bytes) (va size : Nat) : Except CodecError Nat := do
  let h ← parseHeader b
  match h.securityDirRange with
  | none => .error .notAnExecutable
  | some (ss, _) => do
    let ends ← sectionsEnd (writeEntry b ss va size) h.secTbl h.numSections
    pure (headersEnd h ends)

/-- No header and no section claims bytes behind the padded end of the file. -/
def tableFits (b cms : Bytes) : Bool :=
  match declaredEnd b (round8 b.length) (entryLen cms) with
  | .ok e => e ≤ round8 b.length
  | .error _ => false

theorem parseHeader_of_agree {b d : Bytes} {h : PeHeader} (hb : parseHeader b = .ok h)
    (hag : Agree (· < nrvaOff h.p h.isPlus + 4) b d) : parseHeader d = .ok h := by
  obtain ⟨hlen, hmz, hp, hpe, hn, ho, hplus, hnrva⟩ := parseHeader_eq_ok.mp hb
  have hoff := h.le_nrvaOff
  have hfits := field_fits hnrva
  have hlast := hag.lt_length (i := nrvaOff h.p h.isPlus + 3) (by omega) (by omega)
  have htake : d.take 2 = mz := by
    have h2 : slice b 0 2 = some mz := slice_eq_some.mpr ⟨by omega, by rwa [List.drop_zero]⟩
    have h2' := slice_of_agree hag (fun i _ hi => by omega) (by omega) h2
    rw [← (slice_eq_some.mp h2').2, List.drop_zero]
  obtain ⟨m, hm, hmp⟩ := bind_eq_ok.mp hplus
  refine parseHeader_eq_ok.mpr ⟨by omega, htake, ?_, ?_, ?_, ?_, bind_eq_ok.mpr ⟨m, ?_, hmp⟩, ?_⟩
  · exact field_of_agree hag (by omega) (fun i _ hi => by omega) hp
  · exact slice_of_agree hag (fun i _ hi => by omega) (by omega) hpe
  · exact field_of_agree hag (by omega) (fun i _ hi => by omega) hn
  · exact field_of_agree hag (by omega) (fun i _ hi => by omega) ho
  · exact field_of_agree hag (by omega) (fun i _ hi => by omega) hm
  · exact field_of_agree hag (by omega) (fun i _ hi => by omega) hnrva

theorem sectionsEnd_append {b : Bytes} {secTbl n e : Nat} (h : sectionsEnd b secTbl n = .ok e)
    (t : Bytes) : sectionsEnd (b ++ t) secTbl n = .ok e := by
  induction n generalizing e with
  | zero => exact h
  | succ n ih =>
    obtain ⟨l, hl, h⟩ := bind_eq_ok.mp h
    obtain ⟨size, hsize, h⟩ := bind_eq_ok.mp h
    obtain ⟨ptr, hptr, h⟩ := bind_eq_ok.mp h
    refine bind_eq_ok.mpr ⟨l, ih hl, bind_eq_ok.mpr ⟨size, ?_, bind_eq_ok.mpr ⟨ptr, ?_, h⟩⟩⟩
    · exact field_append (by omega) hsize t
    · exact field_append (by omega) hptr t

theorem field_of_fits {lowFirst : Bool} {n : Nat} {b : Bytes} {off : Nat} (name : Text)
    (h : off + n ≤ b.length) : ∃ v, field lowFirst n b off name = .ok v := by
  rw [field, slice, if_pos h]
  exact ⟨_, rfl⟩

/-- Whether the section headers can be read depends on the file's length alone. -/
theorem sectionsEnd_of_length {b d : Bytes} (hlen : d.length = b.length) {secTbl n e : Nat}
    (h : sectionsEnd b secTbl n = .ok e) : ∃ e', sectionsEnd d secTbl n = .ok e' := by
  induction n generalizing e with
  | zero => exact ⟨0, rfl⟩
  | succ n ih =>
    obtain ⟨l, hl, h⟩ := bind_eq_ok.mp h
    obtain ⟨size, hsize, h⟩ := bind_eq_ok.mp h
    obtain ⟨ptr, hptr, h⟩ := bind_eq_ok.mp h
    obtain ⟨l', hl'⟩ := ih hl
    obtain ⟨size', hsize'⟩ : ∃ v, u32le d (secTbl + n * 40 + 16) "SizeOfRawData".toList = .ok v :=
      field_of_fits _ (hlen ▸ field_fits hsize)
    obtain ⟨ptr', hptr'⟩ : ∃ v, u32le d (secTbl + n * 40 + 20) "PointerToRawData".toList = .ok v :=
      field_of_fits _ (hlen ▸ field_fits hptr)
    exact ⟨_, bind_eq_ok.mpr ⟨l', hl', bind_eq_ok.mpr ⟨size', hsize',
      bind_eq_ok.mpr ⟨ptr', hptr', rfl⟩⟩⟩⟩

section WriteEntry
variable {b : Bytes} {o v n : Nat}

theorem writeEntry_eq (h : o + 8 ≤ b.length) :
    writeEntry b o v n = overwrite b o (toLe 4 v ++ toLe 4 n) := by
  have hover := overwrite_overwrite (b := b) (o := o) (s := toLe 4 v) (toLe 4 n)
    (by rw [length_toLe, length_toLe]; omega)
  rwa [length_toLe] at hover

theorem length_entry : (toLe 4 v ++ toLe 4 n).length = 8 := by
  rw [List.length_append, length_toLe, length_toLe]

theorem length_writeEntry (h : o + 8 ≤ b.length) :
    (writeEntry b o v n).length = b.length := by
  rw [writeEntry_eq h, length_overwrite (by rw [length_entry]; exact h)]

theorem agree_writeEntry (h : o + 8 ≤ b.length) :
    Agree (fun i => i < o ∨ o + 8 ≤ i) (writeEntry b o v n) b := by
  have hag := agree_overwrite (b := b) (o := o) (s := toLe 4 v ++ toLe 4 n)
    (by rw [length_entry]; exact h)
  rwa [length_entry, ← writeEntry_eq h] at hag

theorem writeEntry_append (h : o + 8 ≤ b.length) (t : Bytes) :
    writeEntry (b ++ t) o v n = writeEntry b o v n ++ t := by
  rw [writeEntry_eq h, writeEntry_eq (by rw [List.length_append]; omega),
    overwrite_append (by rw [length_entry]; exact h)]

theorem u32le_writeEntry_va (h : o + 8 ≤ b.length) (hva : v < 256 ^ 4) (name : Text) :
    u32le (writeEntry b o v n) o name = .ok v := by
  have hs := slice_overwrite (b := b) (o := o) (s := toLe 4 v ++ toLe 4 n)
    (by rw [length_entry]; exact h) (k := 0) (n := 4) (by rw [length_entry]; omega)
  have hval : slice (toLe 4 v ++ toLe 4 n) 0 4 = some (toLe 4 v) :=
    slice_eq_some.mpr ⟨by rw [length_entry]; omega,
      by rw [List.drop_zero]; exact List.take_left' (length_toLe 4 v)⟩
  rw [Nat.add_zero, ← writeEntry_eq h, hval] at hs
  rw [u32le, field, hs]
  simp only [if_true, le_toLe hva]

theorem u32le_writeEntry_size (h : o + 8 ≤ b.length) (hsize : n < 256 ^ 4) (name : Text) :
    u32le (writeEntry b o v n) (o + 4) name = .ok n := by
  have hs := slice_overwrite (b := b) (o := o) (s := toLe 4 v ++ toLe 4 n)
    (by rw [length_entry]; exact h) (k := 4) (n := 4) (by rw [length_entry])
  have hval : slice (toLe 4 v ++ toLe 4 n) 4 4 = some (toLe 4 n) :=
    slice_eq_some.mpr ⟨by rw [length_entry],
      by rw [List.drop_left' (length_toLe 4 v), List.take_of_length_le (length_toLe 4 n).le]⟩
  rw [← writeEntry_eq h, hval] at hs
  rw [u32le, field, hs]
  simp only [if_true, le_toLe hsize]

theorem cut_writeEntry (h : o + 8 ≤ b.length) :
    cut (writeEntry b o v n) (o, o + 8) = cut b (o, o + 8) := by
  have hcut := cut_overwrite (b := b) (o := o) (s := toLe 4 v ++ toLe 4 n)
    (by rw [length_entry]; exact h)
  rwa [length_entry, ← writeEntry_eq h] at hcut

end WriteEntry

theorem round8_ge (x : Nat) : x ≤ round8 x := by unfold round8; omega

theorem round8_eq_self {x : Nat} : round8 x = x ↔ x % 8 = 0 := by unfold round8; omega

/-- The bytes of the one entry of a table. -/
def entryBytes (cms : Bytes) : Bytes :=
  toLe 4 (entryLen cms) ++ (toLe 2 winCertRevision2 ++ (toLe 2 winCertTypePkcsSignedData ++
    (cms ++ List.replicate (round8 cms.length - cms.length) 0)))

theorem length_entryBytes (cms : Bytes) : (entryBytes cms).length = entryLen cms := by
  have hge := round8_ge cms.length
  simp only [entryBytes, entryLen, winCertHeaderLen, List.length_append, length_toLe,
    List.length_replicate]
  omega

theorem winCertEntryBytes_eq_ok {cms entry : Bytes} :
    winCertEntryBytes cms = .ok entry ↔ entryLen cms ≤ u32Max ∧ entry = entryBytes cms := by
  rw [winCertEntryBytes, ite_error_eq_ok, not_lt, Except.ok.injEq]
  simp only [entryBytes, List.append_assoc, eq_comm]

/-- The zeros that round a file up. -/
def padding (b : Bytes) : Bytes := List.replicate (round8 b.length - b.length) 0

theorem length_padded (b : Bytes) : b.length + (padding b).length = round8 b.length := by
  have hge := round8_ge b.length
  rw [padding, List.length_replicate]
  omega

theorem derTlvLen_append {c z : Bytes} : derTlvLen (c ++ z) = some c.length ↔
    derTlvLen c = some c.length := by
  by_cases h2 : c.length < 2
  · have hc : derTlvLen c = none := by rw [derTlvLen, if_pos h2]
    rw [hc]
    refine ⟨fun h => ?_, fun h => nomatch h⟩
    unfold derTlvLen at h
    simp only at h
    split at h
    · exact nomatch h
    · split at h
      · have hlen := Option.some.inj h
        omega
      · split at h
        · exact nomatch h
        · have hlen := Option.some.inj h
          omega
  · have hget : (c ++ z).getD 1 0 = c.getD 1 0 := by
      rw [List.getD_eq_getElem?_getD, List.getD_eq_getElem?_getD,
        List.getElem?_append_left (by omega)]
    unfold derTlvLen
    rw [hget, if_neg h2, if_neg (by rw [List.length_append]; omega)]
    simp only
    split
    · rfl
    · by_cases hn : c.length < 2 + (c.getD 1 0).toNat % 0x80
      · -- the length bytes reach over the end of the value
        rw [if_pos (c := _ ∨ _ ∨ c.length < _) (Or.inr (Or.inr hn))]
        refine ⟨fun h => ?_, fun h => nomatch h⟩
        split at h
        · exact nomatch h
        · have hlen := Option.some.inj h
          omega
      · have hrange : range (c ++ z) 2 (2 + (c.getD 1 0).toNat % 0x80) =
            range c 2 (2 + (c.getD 1 0).toNat % 0x80) := by
          rw [range, range, List.take_append_of_le_length (by omega)]
        have hcond : (c ++ z).length < 2 + (c.getD 1 0).toNat % 0x80 ↔
            c.length < 2 + (c.getD 1 0).toNat % 0x80 := by
          rw [List.length_append]
          omega
        rw [hrange]
        simp only [hcond]

/-- A certificate comes out of its padded entry as it went in when its own header says so. -/
theorem trimCertificate_padded (c z : Bytes) :
    trimCertificate winCertTypePkcsSignedData (c ++ z) = .ok c ↔
      derTlvLen c = some c.length := by
  rw [← derTlvLen_append (z := z), trimCertificate, if_pos rfl]
  cases hd : derTlvLen (c ++ z) with
  | none => exact ⟨(fun h => nomatch h), fun h => nomatch h⟩
  | some tlv =>
    simp only [ite_error_eq_ok, Except.ok.injEq, Option.some.injEq]
    constructor
    · intro ⟨hle, htake⟩
      have hlen := congrArg List.length htake
      rw [List.length_take] at hlen
      omega
    · intro htlv
      rw [htlv]
      exact ⟨by rw [List.length_append]; omega, List.take_left' rfl⟩

theorem field_toLe (x t : Bytes) {w n : Nat} (hn : n < 256 ^ w) (name : Text) :
    field true w (x ++ (toLe w n ++ t)) x.length name = .ok n := by
  have hs := slice_append_right x (toLe w n ++ t) 0 w
  have hleft := slice_append_left (toLe w n) t
  rw [length_toLe] at hleft
  rw [hleft, Nat.add_zero] at hs
  rw [field, hs]
  simp only [if_true, le_toLe hn]

/-- What `append_certificate_table` has read and written when it answers with a file. -/
structure Appended (b cms s : Bytes) (h : PeHeader) (layout : PeLayout) (ss : Nat) : Prop where
  parsed : Parsed b h layout
  security : h.securityDirRange = some (ss, ss + 8)
  unsigned : layout.authRegion = none
  cms_ne : cms ≠ []
  va_le : round8 b.length ≤ u32Max
  entry_le : entryLen cms ≤ u32Max
  file : s = writeEntry b ss (round8 b.length) (entryLen cms) ++ padding b ++ entryBytes cms

theorem appended_of_ok {b cms s : Bytes} (hok : appendCertificateTable b cms = .ok s) :
    ∃ h layout ss, Appended b cms s h layout ss := by
  obtain ⟨layout, hl, hok⟩ := bind_eq_ok.mp hok
  obtain ⟨h, P⟩ := parsePe_eq_ok.mp hl
  cases hs : layout.securityDirRange with
  | none => rw [hs] at hok; exact nomatch hok
  | some r =>
    obtain ⟨ss, se⟩ := r
    cases ha : layout.authRegion with
    | some a => rw [hs, ha] at hok; exact nomatch hok
    | none =>
      rw [hs, ha] at hok
      obtain ⟨hne, hok⟩ := ite_error_eq_ok.mp hok
      obtain ⟨hva, hok⟩ := ite_error_eq_ok.mp hok
      obtain ⟨entry, he, hok⟩ := bind_eq_ok.mp hok
      obtain ⟨hle, rfl⟩ := winCertEntryBytes_eq_ok.mp he
      cases hok
      have hsec := P.security.symm.trans hs
      have hspec := PeHeader.security_spec hsec
      obtain ⟨rfl, -⟩ := hspec
      have hfits := P.security_fits hsec
      refine ⟨h, layout, ss, P, hsec, ha, hne, not_lt.mp hva, hle, ?_⟩
      rw [List.append_assoc, writeEntry_append hfits, length_entryBytes, List.append_assoc, padding]

namespace Appended
variable {b cms s : Bytes} {h : PeHeader} {layout : PeLayout} {ss : Nat}

theorem fits (A : Appended b cms s h layout ss) : ss + 8 ≤ b.length :=
  A.parsed.security_fits A.security

theorem length_front (A : Appended b cms s h layout ss) :
    (writeEntry b ss (round8 b.length) (entryLen cms) ++ padding b).length = round8 b.length := by
  rw [List.length_append, length_writeEntry A.fits, length_padded]

theorem length_file (A : Appended b cms s h layout ss) :
    s.length = round8 b.length + entryLen cms := by
  rw [A.file, List.length_append, A.length_front, length_entryBytes]

theorem header (A : Appended b cms s h layout ss) : parseHeader s = .ok h := by
  have hspec := PeHeader.security_spec A.security
  have hfits := A.fits
  refine parseHeader_of_agree A.parsed.header ?_
  have hentry := (agree_writeEntry (v := round8 b.length) (n := entryLen cms) A.fits).mono
    (q := (· < nrvaOff h.p h.isPlus + 4)) fun i hi => by omega
  have happ : Agree (· < nrvaOff h.p h.isPlus + 4)
      (writeEntry b ss (round8 b.length) (entryLen cms)) s := by
    rw [A.file, List.append_assoc]
    refine (agree_append _ _).mono fun i hi => ?_
    rw [length_writeEntry A.fits]
    omega
  exact hentry.symm.trans happ

theorem auth (A : Appended b cms s h layout ss) :
    parseAuthRegion s h.securityDirRange =
      .ok (some (round8 b.length, round8 b.length + entryLen cms)) := by
  have hva := A.va_le
  have hsize := A.entry_le
  rw [A.security, A.file, List.append_assoc]
  have hread := u32le_writeEntry_va (b := b) (n := entryLen cms) A.fits
    (v := round8 b.length) (by unfold u32Max at hva; omega) "Security.VA".toList
  have hread' := u32le_writeEntry_size (b := b) (v := round8 b.length) A.fits
    (n := entryLen cms) (by unfold u32Max at hsize; omega) "Security.Size".toList
  refine bind_eq_ok.mpr ⟨_, field_append (by omega) hread _, bind_eq_ok.mpr
    ⟨_, field_append (by omega) hread' _, ?_⟩⟩
  rw [if_pos (by unfold entryLen winCertHeaderLen; omega)]
  rfl

/-- The layout of the signed file, when the cross check lets it through. -/
def signedLayout (b cms s : Bytes) (h : PeHeader) (ends : Nat) : PeLayout :=
  ⟨min (headersEnd h ends) s.length, h.checksumRange, h.securityDirRange,
    some (round8 b.length, round8 b.length + entryLen cms)⟩

theorem ends (A : Appended b cms s h layout ss) : ∃ ends,
    sectionsEnd s h.secTbl h.numSections = .ok ends ∧
      (tableFits b cms = true ↔ headersEnd h ends ≤ round8 b.length) := by
  obtain ⟨e, he, -⟩ := A.parsed.ends
  obtain ⟨ends, hends⟩ := sectionsEnd_of_length
    (length_writeEntry (v := round8 b.length) (n := entryLen cms) A.fits) he
  refine ⟨ends, ?_, ?_⟩
  · rw [A.file, List.append_assoc]
    exact sectionsEnd_append hends _
  · have hdecl : declaredEnd b (round8 b.length) (entryLen cms) = .ok (headersEnd h ends) := by
      refine bind_eq_ok.mpr ⟨h, A.parsed.header, ?_⟩
      rw [A.security]
      exact bind_eq_ok.mpr ⟨ends, hends, rfl⟩
    rw [tableFits, hdecl, decide_eq_true_iff]

theorem parsed_iff (A : Appended b cms s h layout ss) {ends : Nat}
    (he : sectionsEnd s h.secTbl h.numSections = .ok ends) (layout' : PeLayout) :
    parsePe s = .ok layout' ↔
      headersEnd h ends ≤ round8 b.length ∧ layout' = signedLayout b cms s h ends := by
  have hlen := A.length_file
  have hpos : 0 < entryLen cms := by unfold entryLen winCertHeaderLen; omega
  have hcheck : checkAuthRegion (signedLayout b cms s h ends).l s.length
      (some (round8 b.length, round8 b.length + entryLen cms)) = .ok () ↔
      headersEnd h ends ≤ round8 b.length := by
    rw [checkAuthRegion_eq_ok]
    simp only [signedLayout, Option.some.injEq, Prod.mk.injEq]
    constructor
    · intro hall
      have hl := (hall _ _ ⟨rfl, rfl⟩).1
      omega
    · intro hle va vend hva
      omega
  constructor
  · intro hok
    obtain ⟨h', P⟩ := parsePe_eq_ok.mp hok
    have hh : h' = h := Except.ok.inj (P.header.symm.trans A.header)
    subst hh
    obtain ⟨ends', he', hl⟩ := P.ends
    have hends : ends' = ends := Except.ok.inj (he'.symm.trans he)
    subst hends
    have hauth := Except.ok.inj (P.auth.symm.trans A.auth)
    have hlayout : layout' = signedLayout b cms s h' ends' := by
      obtain ⟨l, cr, sr, ar⟩ := layout'
      have hc := P.checksum
      have hs := P.security
      simp only at hl hc hs hauth
      rw [signedLayout, hl, hc, hs, hauth]
    refine ⟨hcheck.mp ?_, hlayout⟩
    have hc := P.check
    rwa [hauth, hlayout] at hc
  · intro ⟨hle, hlayout⟩
    rw [hlayout]
    exact parsePe_eq_ok.mpr ⟨h, A.header, A.auth, ⟨ends, he, rfl⟩, hcheck.mpr hle, rfl, rfl⟩

/-- The bytes that the digest of the unsigned file is taken over. -/
def hashed (b : Bytes) (h : PeHeader) (ss : Nat) : Bytes := cut (cut b (ss, ss + 8)) h.checksumRange

theorem digest_before {D : Type} (sha256 : Bytes → D) (A : Appended b cms s h layout ss) :
    authenticodeDigest sha256 b = .ok (sha256 (hashed b h ss)) := by
  rw [authenticodeDigest_of_parsed sha256 A.parsed, withoutEntry, withoutTable, A.unsigned,
    A.security]
  rfl

/-- Behind the signature the padding is hashed too. -/
theorem digest_after {D : Type} (sha256 : Bytes → D) (A : Appended b cms s h layout ss)
    (hfit : tableFits b cms = true) :
    authenticodeDigest sha256 s = .ok (sha256 (hashed b h ss ++ padding b)) := by
  obtain ⟨ends, he, hiff⟩ := A.ends
  obtain ⟨h', P⟩ := parsePe_eq_ok.mp ((A.parsed_iff he _).mpr ⟨hiff.mp hfit, rfl⟩)
  have hh : h' = h := Except.ok.inj (P.header.symm.trans A.header)
  subst hh
  have hfits := A.fits
  have hspec := PeHeader.security_spec A.security
  have hoff := h'.le_nrvaOff
  have htable : withoutTable s (signedLayout b cms s h' ends) =
      writeEntry b ss (round8 b.length) (entryLen cms) ++ padding b := by
    simp only [withoutTable, signedLayout, cutOpt, cut]
    rw [List.drop_eq_nil_of_le A.length_file.le, List.append_nil, A.file]
    exact List.take_left' A.length_front
  have hlen : (cut b (ss, ss + 8)).length = b.length - 8 := by
    rw [length_cut (by simp only; omega) (by simp only; omega)]
    simp only [Nat.add_sub_cancel_left]
  rw [authenticodeDigest_of_parsed sha256 P, withoutEntry, htable, A.security]
  simp only [cutOpt]
  rw [cut_append (by rw [length_writeEntry hfits]; omega) (by rw [length_writeEntry hfits]; omega),
    cut_writeEntry hfits, cut_append (by rw [hlen]; simp only [PeHeader.checksumRange]; omega)
      (by rw [hlen]; simp only [PeHeader.checksumRange]; omega), hashed]

theorem digest_iff {D : Type} {sha256 : Bytes → D} (hsha : Function.Injective sha256)
    (A : Appended b cms s h layout ss) :
    authenticodeDigest sha256 s = authenticodeDigest sha256 b ↔
      b.length % 8 = 0 ∧ tableFits b cms = true := by
  obtain ⟨ends, he, hiff⟩ := A.ends
  constructor
  · intro heq
    have hfit : tableFits b cms = true := by
      rw [A.digest_before] at heq
      obtain ⟨layout', hl, -⟩ := bind_eq_ok.mp heq
      exact hiff.mpr ((A.parsed_iff he layout').mp hl).1
    rw [A.digest_before, A.digest_after sha256 hfit] at heq
    have hlen := congrArg List.length (hsha (Except.ok.inj heq))
    rw [List.length_append] at hlen
    have hpad := length_padded b
    exact ⟨round8_eq_self.mp (by omega), hfit⟩
  · intro ⟨hmod, hfit⟩
    have hpad : padding b = [] := by
      rw [padding, round8_eq_self.mpr hmod, Nat.sub_self, List.replicate_zero]
    rw [A.digest_before, A.digest_after sha256 hfit, hpad, List.append_nil]

theorem readEntriesFrom_file (A : Appended b cms s h layout ss) :
    readEntriesFrom s (round8 b.length + entryLen cms) (round8 b.length) =
      trimCertificate winCertTypePkcsSignedData
        (cms ++ List.replicate (round8 cms.length - cms.length) 0) >>= fun certificate =>
      pure [⟨round8 b.length, entryLen cms, winCertRevision2, winCertTypePkcsSignedData,
        certificate⟩] := by
  have hsize : entryLen cms < 256 ^ 4 := by
    have hle := A.entry_le
    unfold u32Max at hle
    omega
  have hlen := A.length_front
  have hdw : u32le s (round8 b.length) "WIN_CERTIFICATE.dwLength".toList =
      .ok (entryLen cms) := by
    have hat := field_toLe (writeEntry b ss (round8 b.length) (entryLen cms) ++ padding b)
      (toLe 2 winCertRevision2 ++ (toLe 2 winCertTypePkcsSignedData ++
        (cms ++ List.replicate (round8 cms.length - cms.length) 0))) hsize
      "WIN_CERTIFICATE.dwLength".toList
    rw [hlen] at hat
    rw [A.file]
    exact hat
  have hrev : u16le s (round8 b.length + 4) "wRevision".toList = .ok winCertRevision2 := by
    have hat := field_toLe (writeEntry b ss (round8 b.length) (entryLen cms) ++ padding b ++
      toLe 4 (entryLen cms)) (toLe 2 winCertTypePkcsSignedData ++
        (cms ++ List.replicate (round8 cms.length - cms.length) 0))
      (w := 2) (n := winCertRevision2) (by decide) "wRevision".toList
    rw [List.length_append, hlen, length_toLe, List.append_assoc] at hat
    rw [A.file]
    exact hat
  have htype : u16le s (round8 b.length + 6) "wCertificateType".toList =
      .ok winCertTypePkcsSignedData := by
    have hat := field_toLe (writeEntry b ss (round8 b.length) (entryLen cms) ++ padding b ++
      toLe 4 (entryLen cms) ++ toLe 2 winCertRevision2)
      (cms ++ List.replicate (round8 cms.length - cms.length) 0)
      (w := 2) (n := winCertTypePkcsSignedData) (by decide) "wCertificateType".toList
    rw [List.length_append, List.length_append, hlen, length_toLe, length_toLe,
      List.append_assoc, List.append_assoc] at hat
    rw [A.file]
    exact hat
  have hblob : range s (round8 b.length + winCertHeaderLen) (round8 b.length + entryLen cms) =
      cms ++ List.replicate (round8 cms.length - cms.length) 0 := by
    have hhead : (toLe 4 (entryLen cms) ++ (toLe 2 winCertRevision2 ++
        toLe 2 winCertTypePkcsSignedData)).length = winCertHeaderLen := by
      rw [List.length_append, List.length_append, length_toLe, length_toLe, length_toLe]
      rfl
    rw [range, List.take_of_length_le A.length_file.le, A.file, ← List.drop_drop,
      List.drop_left' hlen, entryBytes, ← List.append_assoc, ← List.append_assoc,
      List.append_assoc (toLe 4 _)]
    exact List.drop_left' hhead
  have hround : round8 (round8 b.length + entryLen cms) = round8 b.length + entryLen cms := by
    rw [round8_eq_self]
    unfold entryLen winCertHeaderLen round8
    omega
  have hrest : readEntriesFrom s (round8 b.length + entryLen cms)
      (round8 b.length + entryLen cms) = .ok [] := by
    rw [readEntriesFrom, if_neg (by unfold winCertHeaderLen; omega)]
    rfl
  rw [readEntriesFrom, if_pos (by unfold entryLen winCertHeaderLen; omega), hdw]
  simp only [bind, Except.bind, pure, Except.pure]
  rw [dif_neg (by unfold entryLen winCertHeaderLen; omega), hrev, htype, hblob, hround, hrest]

/-- The table read back is the one entry that was written. -/
theorem read_iff (A : Appended b cms s h layout ss) :
    readCertificateEntries s = .ok [⟨round8 b.length, entryLen cms, winCertRevision2,
        winCertTypePkcsSignedData, cms⟩] ↔
      tableFits b cms = true ∧ derTlvLen cms = some cms.length := by
  obtain ⟨ends, he, hiff⟩ := A.ends
  rw [hiff, ← trimCertificate_padded cms
    (List.replicate (round8 cms.length - cms.length) 0)]
  constructor
  · intro hread
    obtain ⟨layout', hl, hread⟩ := bind_eq_ok.mp hread
    obtain ⟨hle, rfl⟩ := (A.parsed_iff he layout').mp hl
    refine ⟨hle, ?_⟩
    simp only [signedLayout] at hread
    rw [A.readEntriesFrom_file] at hread
    obtain ⟨certificate, hc, hread⟩ := bind_eq_ok.mp hread
    cases hread
    exact hc
  · intro ⟨hle, hc⟩
    refine bind_eq_ok.mpr ⟨_, (A.parsed_iff he _).mpr ⟨hle, rfl⟩, ?_⟩
    simp only [signedLayout]
    rw [A.readEntriesFrom_file]
    exact bind_eq_ok.mpr ⟨cms, hc, rfl⟩

end Appended
/-- What `replace_certificate_table` has done when it answers with a file. -/
theorem replaced_of_ok {b cms s : Bytes} (hok : replaceCertificateTable b cms = .ok s) :
    ∃ h layout va ss, Parsed b h layout ∧ layout.authRegion = some (va, b.length) ∧
      h.securityDirRange = some (ss, ss + 8) ∧
      appendCertificateTable (stripTable b va ss) cms = .ok s := by
  obtain ⟨layout, hl, hok⟩ := bind_eq_ok.mp hok
  obtain ⟨h, P⟩ := parsePe_eq_ok.mp hl
  cases ha : layout.authRegion with
  | none => rw [ha] at hok; exact nomatch hok
  | some a =>
    obtain ⟨va, vend⟩ := a
    obtain ⟨ss, se, hs⟩ := P.auth_security ha
    rw [ha, P.security, hs] at hok
    obtain ⟨hvend, hok⟩ := ite_error_eq_ok.mp hok
    obtain ⟨-, hok⟩ := ite_error_eq_ok.mp hok
    have hspec := PeHeader.security_spec hs
    rw [not_not.mp hvend] at ha
    exact ⟨h, layout, va, ss, P, ha, by rw [hs, hspec.1], hok⟩

section Strip
variable {b : Bytes} {h : PeHeader} {layout : PeLayout} {va ss : Nat}

theorem strip_fits (P : Parsed b h layout) (ha : layout.authRegion = some (va, b.length))
    (hs : h.securityDirRange = some (ss, ss + 8)) :
    (b.take va).length = va ∧ ss + (List.replicate 8 (0 : UInt8)).length ≤ (b.take va).length := by
  have hle := P.security_le_auth hs ha
  have hne := P.auth_nonempty ha
  rw [List.length_take_of_le (by omega), List.length_replicate]
  exact ⟨rfl, hle⟩

theorem length_stripTable (P : Parsed b h layout) (ha : layout.authRegion = some (va, b.length))
    (hs : h.securityDirRange = some (ss, ss + 8)) : (stripTable b va ss).length = va := by
  obtain ⟨hlen, hfits⟩ := strip_fits P ha hs
  rw [stripTable, length_overwrite hfits, hlen]

theorem header_stripTable (P : Parsed b h layout) (ha : layout.authRegion = some (va, b.length))
    (hs : h.securityDirRange = some (ss, ss + 8)) : parseHeader (stripTable b va ss) = .ok h := by
  obtain ⟨hlen, hfits⟩ := strip_fits P ha hs
  have hspec := PeHeader.security_spec hs
  refine parseHeader_of_agree P.header ?_
  have hover := (agree_overwrite hfits).mono (q := (· < nrvaOff h.p h.isPlus + 4)) fun i hi => by
    omega
  have htake : Agree (· < nrvaOff h.p h.isPlus + 4) b (b.take va) := fun i hi =>
    (List.getElem?_take_of_lt (by rw [List.length_replicate] at hfits; omega)).symm
  exact htake.trans hover.symm

/-- Stripping the table leaves what the digest is taken over. -/
theorem digest_strip {D : Type} (sha256 : Bytes → D) {cms s : Bytes} (P : Parsed b h layout)
    (ha : layout.authRegion = some (va, b.length))
    (hs : h.securityDirRange = some (ss, ss + 8))
    (hok : appendCertificateTable (stripTable b va ss) cms = .ok s) :
    authenticodeDigest sha256 b = authenticodeDigest sha256 (stripTable b va ss) := by
  obtain ⟨h', layout', ss', A⟩ := appended_of_ok hok
  have hh : h' = h := Except.ok.inj (A.parsed.header.symm.trans (header_stripTable P ha hs))
  subst hh
  have hss : ss' = ss := by
    have heq := A.security.symm.trans hs
    simp only [Option.some.injEq, Prod.mk.injEq] at heq
    exact heq.1
  subst hss
  obtain ⟨hlen, hfits⟩ := strip_fits P ha hs
  have hcut := cut_overwrite hfits
  rw [List.length_replicate] at hcut
  rw [A.digest_before, authenticodeDigest_of_parsed sha256 P, Appended.hashed, stripTable, hcut,
    withoutEntry, withoutTable, ha, hs]
  have hend : cut b (va, b.length) = b.take va := by
    simp only [cut, List.drop_length, List.append_nil]
  simp only [cutOpt, hend]

end Strip

theorem replace_digest_iff {D : Type} {sha256 : Bytes → D} (hsha : Function.Injective sha256)
    {b cms s : Bytes} {h : PeHeader} {layout : PeLayout} {va ss : Nat} (P : Parsed b h layout)
    (ha : layout.authRegion = some (va, b.length))
    (hs : h.securityDirRange = some (ss, ss + 8))
    (hok : appendCertificateTable (stripTable b va ss) cms = .ok s) :
    authenticodeDigest sha256 s = authenticodeDigest sha256 b ↔
      va % 8 = 0 ∧ tableFits (stripTable b va ss) cms = true := by
  obtain ⟨h', layout', ss', A⟩ := appended_of_ok hok
  rw [digest_strip sha256 P ha hs hok, A.digest_iff hsha, length_stripTable P ha hs]

end NemesisBot.Verify

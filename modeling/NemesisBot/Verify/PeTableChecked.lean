import NemesisBot.Verify.PeChecked

/-! The certificate table with every addition and slice that could panic. -/
namespace NemesisBot.Verify.Checked
open Strings Bytes Panics

def derTlvLen (b : Bytes) : Panicking CodecError (Option Nat) :=
  if b.length < 2 then pure none
  else do
    let l0 ← byteAt b 1
    if l0.toNat < 0x80 then do
      let total ← word (2 + l0.toNat)
      pure (some total)
    else
      let n := l0.toNat % 0x80
      if n = 0 ∨ n > 4 then pure none
      else do
        let header ← word (2 + n)
        if b.length < header then pure none
        else do
          let digits ← sliceOf b 2 header
          let total ← word (header + be digits)
          pure (some total)

theorem be_lt (s : Bytes) : be s < 256 ^ s.length := by
  have h := le_lt s.reverse
  rwa [List.length_reverse] at h

theorem derTlvLen_eq (b : Bytes) : derTlvLen b = returns (.ok (Verify.derTlvLen b)) := by
  rw [derTlvLen, Verify.derTlvLen]
  by_cases h2 : b.length < 2
  · rw [if_pos h2, if_pos h2]
    rfl
  · rw [if_neg h2, if_neg h2, byteAt_bind (by omega)]
    have hl0 := (b.getD 1 0).toNat_lt
    simp only
    split
    · rw [word_bind (by omega)]
      rfl
    · by_cases hn : (b.getD 1 0).toNat % 0x80 = 0 ∨ (b.getD 1 0).toNat % 0x80 > 4
      · rw [if_pos hn, if_pos (by tauto)]
        rfl
      · rw [if_neg hn, word_bind (by omega)]
        by_cases hlen : b.length < 2 + (b.getD 1 0).toNat % 0x80
        · rw [if_pos hlen, if_pos (by tauto)]
          rfl
        · have hbe := be_lt (range b 2 (2 + (b.getD 1 0).toNat % 0x80))
          have hdigits : (range b 2 (2 + (b.getD 1 0).toNat % 0x80)).length ≤ 4 := by
            rw [range, List.length_drop, List.length_take]
            omega
          have hpow := Nat.pow_le_pow_right (n := 256) (by omega) hdigits
          rw [if_neg hlen, sliceOf_bind (by omega) (by omega), word_bind (by omega),
            if_neg (by tauto)]
          rfl

def trimCertificate (certType : Nat) (blob : Bytes) : Panicking CodecError Bytes :=
  if certType = winCertTypePkcsSignedData then do
    match ← derTlvLen blob with
    | none => throw (.malformed "bCertificate 外层 DER 长度头损坏".toList)
    | some tlv =>
      if tlv > blob.length then
        throw (.malformed ("bCertificate DER 声称 ".toList ++ decimal tlv ++ " 超出条目 ".toList ++
          decimal blob.length))
      else sliceOf blob 0 tlv
  else pure blob

theorem trimCertificate_eq (certType : Nat) (blob : Bytes) :
    trimCertificate certType blob = returns (Verify.trimCertificate certType blob) := by
  rw [trimCertificate, Verify.trimCertificate]
  refine ite_returns (fun _ => ?_) fun _ => rfl
  rw [derTlvLen_eq, returns_ok_bind]
  cases Verify.derTlvLen blob with
  | none => rfl
  | some tlv =>
    refine ite_returns (fun _ => rfl) fun hle => ?_
    rw [sliceOf, if_pos (by omega), range, List.drop_zero]
    rfl

/-- The loop over the entries; it moves on by eight bytes at least. -/
def readEntriesFrom (b : Bytes) (vend pos : Nat) : Panicking CodecError (List WinCertEntry) := do
  let _ ← word (pos + winCertHeaderLen)
  if pos + winCertHeaderLen ≤ vend then do
    let dwlen ← returns (u32le b pos "WIN_CERTIFICATE.dwLength".toList)
    if _hhead : dwlen < winCertHeaderLen then pure []
    else do
      let entryEnd ← word (pos + dwlen)
      if _hstop : pos + dwlen > vend then pure []
      else do
        let revision ← returns (u16le b (← word (pos + 4)) "wRevision".toList)
        let certType ← returns (u16le b (← word (pos + 6)) "wCertificateType".toList)
        let blob ← sliceOf b (pos + winCertHeaderLen) entryEnd
        let certificate ← trimCertificate certType blob
        let _ ← word (entryEnd + 7)
        let rest ← readEntriesFrom b vend (round8 (pos + dwlen))
        pure (⟨pos, dwlen, revision, certType, certificate⟩ :: rest)
  else pure []
termination_by vend - pos
decreasing_by
  simp only [winCertHeaderLen, round8] at *
  omega

theorem readEntriesFrom_eq {b : Bytes} {vend : Nat} (hb : b.length < 2 ^ 63)
    (hvend : vend ≤ b.length) (pos : Nat) (hpos : pos < 2 ^ 63 + 8) :
    readEntriesFrom b vend pos = returns (Verify.readEntriesFrom b vend pos) := by
  fun_induction Verify.readEntriesFrom b vend pos with
  | case1 pos hle ih =>
    rw [readEntriesFrom, word_bind (by rw [winCertHeaderLen]; omega), if_pos hle]
    have hhead : winCertHeaderLen = 8 := rfl
    refine returns_bind fun dwlen hdw => ?_
    by_cases hstop : dwlen < winCertHeaderLen ∨ pos + dwlen > vend
    · rw [dif_pos hstop]
      by_cases h8 : dwlen < winCertHeaderLen
      · rw [dif_pos h8]
        rfl
      · have hdwlt := field_lt hdw
        rw [dif_neg h8, word_bind (by omega), dif_pos (by omega)]
        rfl
    · rw [dif_neg hstop, dif_neg (by omega), word_bind (by omega), dif_neg (by omega),
        word_bind (by omega)]
      refine returns_bind fun revision _ => ?_
      rw [word_bind (by omega)]
      refine returns_bind fun certType _ => ?_
      rw [sliceOf_bind (by omega) (by omega), trimCertificate_eq]
      refine returns_bind fun certificate _ => ?_
      rw [word_bind (by omega), ih dwlen hstop (by rw [round8]; omega)]
      exact returns_bind fun _ _ => rfl
  | case2 pos hle =>
    rw [readEntriesFrom, word_bind (by rw [winCertHeaderLen]; omega), if_neg hle]
    rfl

def readCertificateEntries (b : Bytes) : Panicking CodecError (List WinCertEntry) := do
  let layout ← parsePe b
  match layout.authRegion with
  | none => pure []
  | some (va, vend) => readEntriesFrom b vend va

theorem readCertificateEntries_eq {b : Bytes} (hb : b.length < 2 ^ 63) :
    readCertificateEntries b = returns (Verify.readCertificateEntries b) := by
  rw [readCertificateEntries, Verify.readCertificateEntries, parsePe_eq]
  refine returns_bind fun layout hl => ?_
  obtain ⟨h, P⟩ := parsePe_eq_ok.mp hl
  cases ha : layout.authRegion with
  | none => rfl
  | some a =>
    obtain ⟨va, vend⟩ := a
    have hfits := P.auth_fits ha
    have hne := P.auth_nonempty ha
    exact readEntriesFrom_eq hb hfits.2 va (by omega)

def winCertEntryBytes (cms : Bytes) : Panicking CodecError Bytes := do
  let rounded ← word (round8 cms.length)
  let entryLen ← word (winCertHeaderLen + rounded)
  if entryLen > u32Max then
    throw (.malformed ("CMS DER ".toList ++ decimal cms.length ++
      " 条目化后超 u32：dwLength 无法表达".toList))
  else do
    withCapacity entryLen
    pure (toLe 4 entryLen ++ toLe 2 winCertRevision2 ++ toLe 2 winCertTypePkcsSignedData ++ cms ++
      List.replicate (rounded - cms.length) 0)

theorem winCertEntryBytes_eq {cms : Bytes} (hcms : cms.length < 2 ^ 63) :
    winCertEntryBytes cms = returns (Verify.winCertEntryBytes cms) := by
  have hround : round8 cms.length ≤ cms.length + 7 := by
    unfold round8
    omega
  have hhead : winCertHeaderLen = 8 := rfl
  rw [winCertEntryBytes, Verify.winCertEntryBytes, word_bind (by omega), word_bind (by omega)]
  refine ite_returns (fun _ => rfl) fun hle => ?_
  rw [u32Max] at hle
  rw [withCapacity_bind (by omega)]
  rfl

def appendCertificateTable (b cms : Bytes) : Panicking CodecError Bytes := do
  let layout ← parsePe b
  match layout.securityDirRange, layout.authRegion with
  | none, _ => throw (.malformed
      "NumberOfRvaAndSizes < 5：无 Security 表项可写，无法承载证书表".toList)
  | some _, some (_, vend) => throw (.malformed ("已存在证书表（截至 ".toList ++ decimal vend ++
      "）：本函数只接受未签名 PE，替换/共存策略归上层".toList))
  | some (entryOff, _), none =>
    if cms = [] then throw (.malformed "CMS DER 为空".toList)
    else do
      let va ← word (round8 b.length)
      if va > u32Max then
        throw (.malformed ("文件长度 ".toList ++ decimal b.length ++
          " 8 对齐后超 u32：证书表 VA 无法表达".toList))
      else do
        let entry ← winCertEntryBytes cms
        let size ← word (va + entry.length)
        withCapacity size
        let out := b ++ List.replicate (va - b.length) 0 ++ entry
        let mid ← word (entryOff + 4)
        let out ← writeAt out entryOff mid (toLe 4 va)
        let entryEnd ← word (entryOff + 8)
        writeAt out mid entryEnd (toLe 4 entry.length)

theorem appendCertificateTable_eq {b cms : Bytes} (hb : b.length < 2 ^ 63)
    (hcms : cms.length < 2 ^ 63) :
    appendCertificateTable b cms = returns (Verify.appendCertificateTable b cms) := by
  rw [appendCertificateTable, Verify.appendCertificateTable, parsePe_eq]
  refine returns_bind fun layout hl => ?_
  obtain ⟨h, P⟩ := parsePe_eq_ok.mp hl
  cases hs : layout.securityDirRange with
  | none => rfl
  | some r =>
    obtain ⟨ss, se⟩ := r
    cases ha : layout.authRegion with
    | some a => rfl
    | none =>
      have hsec := P.security.symm.trans hs
      have hspec := PeHeader.security_spec hsec
      have hfits := P.security_fits hsec
      have hround : round8 b.length ≤ b.length + 7 := by
        unfold round8
        omega
      simp only
      refine ite_returns (fun _ => rfl) fun _ => ?_
      rw [word_bind (by omega)]
      refine ite_returns (fun _ => rfl) fun hva => ?_
      rw [winCertEntryBytes_eq hcms]
      refine returns_bind fun entry he => ?_
      obtain ⟨hle, rfl⟩ := winCertEntryBytes_eq_ok.mp he
      have hlen := length_entryBytes cms
      rw [u32Max] at hva hle
      rw [word_bind (by omega), withCapacity_bind (by omega), word_bind (by omega),
        writeAt_bind (by omega) (by simp only [List.length_append]; omega)
          (by rw [length_toLe]; omega),
        word_bind (by omega), writeAt, if_pos]
      · rfl
      · rw [length_toLe, length_overwrite (by
          rw [length_toLe]
          simp only [List.length_append]
          omega)]
        simp only [List.length_append]
        omega

def replaceCertificateTable (b cms : Bytes) : Panicking CodecError Bytes := do
  let layout ← parsePe b
  match layout.authRegion with
  | none => throw (.malformed
      "未签名 PE（无证书表）：无旧签名可替换，首次签名走 append_certificate_table".toList)
  | some (va, vend) =>
    if vend ≠ b.length then do
      let behind ← minus b.length vend
      throw (.malformed ("证书表后存在 ".toList ++ decimal behind ++
        " 字节数据：替换需 truncate 表区间，会吞数据，拒绝".toList))
    else if cms = [] then throw (.malformed "CMS DER 为空".toList)
    else do
      let (entryOff, _) ← expect layout.securityDirRange
      let stripped ← sliceOf b 0 va
      let entryEnd ← word (entryOff + 8)
      let stripped ← writeAt stripped entryOff entryEnd (List.replicate 8 0)
      appendCertificateTable stripped cms

theorem replaceCertificateTable_eq {b cms : Bytes} (hb : b.length < 2 ^ 63)
    (hcms : cms.length < 2 ^ 63) :
    replaceCertificateTable b cms = returns (Verify.replaceCertificateTable b cms) := by
  rw [replaceCertificateTable, Verify.replaceCertificateTable, parsePe_eq]
  refine returns_bind fun layout hl => ?_
  obtain ⟨h, P⟩ := parsePe_eq_ok.mp hl
  cases ha : layout.authRegion with
  | none => rfl
  | some a =>
    obtain ⟨va, vend⟩ := a
    obtain ⟨ss, se, hsec⟩ := P.auth_security ha
    have hs : layout.securityDirRange = some (ss, se) := P.security.trans hsec
    have hspec := PeHeader.security_spec hsec
    have hse := P.security_le_auth hsec ha
    have hauth := P.auth_fits ha
    have hne := P.auth_nonempty ha
    rw [hs]
    simp only
    refine ite_returns (fun _ => ?_) fun _ => ?_
    · rw [minus_bind hauth.2]
      rfl
    · refine ite_returns (fun _ => rfl) fun _ => ?_
      have hrange : range b 0 va = b.take va := by rw [range, List.drop_zero]
      have htake : (b.take va).length = va := List.length_take_of_le (by omega)
      have hstrip : (stripTable b va ss).length = va := by
        rw [stripTable, length_overwrite (by rw [List.length_replicate]; omega), htake]
      rw [expect_bind rfl, sliceOf_bind (by omega) (by omega), hrange, word_bind (by omega),
        writeAt_bind (by omega) (by omega) (by rw [List.length_replicate]; omega)]
      exact appendCertificateTable_eq (by rw [← stripTable, hstrip]; omega) hcms

end NemesisBot.Verify.Checked

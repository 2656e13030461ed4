import NemesisBot.Verify.CarrierChecked

/-! The parsers of executable files end without a panic, and what they return lies in the file. -/
namespace NemesisBot.Verify
open Strings Bytes Panics

/-- A byte string that the program can hold. -/
def Held (b : Bytes) : Prop := b.length ≤ isizeMax

theorem Held.lt {b : Bytes} (h : Held b) : b.length < 2 ^ 63 := by
  rw [Held, isizeMax] at h
  omega

instance (b : Bytes) : Decidable (Held b) := inferInstanceAs (Decidable (_ ≤ _))

theorem parsePe_le {b : Bytes} {layout : PeLayout} (h : parsePe b = .ok layout) :
    layout.l ≤ b.length := by
  obtain ⟨_, P⟩ := parsePe_eq_ok.mp h
  obtain ⟨_, -, hl⟩ := P.ends
  omega

theorem ExecutableCodec.le_of_computeL {codec : ExecutableCodec} {b : Bytes} {l : Option Nat}
    (h : codec.computeL b = .ok l) : l.getD 0 ≤ b.length := by
  cases codec with
  | pe =>
    rw [computeL] at h
    cases hp : parsePe b with
    | error e =>
      rw [hp] at h
      cases h
    | ok layout =>
      rw [hp] at h
      obtain rfl := Except.ok.inj h
      exact parsePe_le hp
  | elf => exact (computeL_le (by simp) h).1
  | raw => exact (computeL_le (by simp) h).1

theorem overlayExcludes_inside {codec : ExecutableCodec} {b : Bytes} {r : Nat × Nat}
    (h : r ∈ codec.overlayExcludes b) : r.1 ≤ r.2 ∧ r.2 ≤ b.length := by
  cases codec with
  | pe =>
    rw [ExecutableCodec.overlayExcludes] at h
    cases hp : parsePe b with
    | error e =>
      rw [hp] at h
      cases h
    | ok layout =>
      rw [hp] at h
      obtain ⟨_, P⟩ := parsePe_eq_ok.mp hp
      have hauth : layout.authRegion = some (r.1, r.2) := Option.mem_toList.mp h
      have hne := P.auth_nonempty hauth
      have hfits := P.auth_fits hauth
      omega
  | elf => cases h
  | raw => cases h

/-- An entry lies in the file, and its certificate behind the header of the entry. -/
def WinCertEntry.Inside (b : Bytes) (e : WinCertEntry) : Prop :=
  e.offset + e.entryLen ≤ b.length ∧
    winCertHeaderLen + e.certificate.length ≤ e.entryLen ∧
    e.certificate = range b (e.offset + winCertHeaderLen)
      (e.offset + winCertHeaderLen + e.certificate.length)

theorem trimCertificate_isPrefix {certType : Nat} {blob certificate : Bytes}
    (h : trimCertificate certType blob = .ok certificate) : certificate <+: blob := by
  rw [trimCertificate] at h
  split at h
  · split at h
    · cases h
    · obtain ⟨-, h⟩ := ite_error_eq_ok.mp h
      obtain rfl := Except.ok.inj h
      exact List.take_prefix _ _
  · obtain rfl := Except.ok.inj h
    exact List.prefix_rfl

theorem range_of_prefix {b s : Bytes} {i j : Nat} (h : s <+: range b i j) (hij : i ≤ j)
    (hj : j ≤ b.length) : i + s.length ≤ j ∧ s = range b i (i + s.length) := by
  have hlen := Checked.length_range hij hj
  have hle := h.length_le
  refine ⟨by omega, ?_⟩
  have htake := List.prefix_iff_eq_take.mp h
  rw [range, List.take_drop, List.take_take] at htake
  rw [range]
  nth_rewrite 1 [htake]
  congr 2
  omega

theorem readEntriesFrom_inside {b : Bytes} {vend : Nat} (hvend : vend ≤ b.length) (pos : Nat)
    {es : List WinCertEntry} (h : readEntriesFrom b vend pos = .ok es) :
    ∀ e ∈ es, e.Inside b := by
  fun_induction readEntriesFrom b vend pos generalizing es with
  | case1 pos hle ih =>
    obtain ⟨dwlen, -, h⟩ := bind_eq_ok.mp h
    split at h
    · obtain rfl := Except.ok.inj h
      exact List.forall_mem_nil _
    · rename_i hstop
      obtain ⟨revision, -, h⟩ := bind_eq_ok.mp h
      obtain ⟨certType, -, h⟩ := bind_eq_ok.mp h
      obtain ⟨certificate, hcert, h⟩ := bind_eq_ok.mp h
      obtain ⟨rest, hrest, h⟩ := bind_eq_ok.mp h
      obtain rfl := Except.ok.inj h
      intro e he
      cases List.mem_cons.mp he with
      | inl he =>
        subst he
        obtain ⟨hlen, hrange⟩ := range_of_prefix (trimCertificate_isPrefix hcert) (by omega)
          (by omega)
        exact ⟨by simp only; omega, by simp only; omega, hrange⟩
      | inr he => exact ih dwlen hstop hrest e he
  | case2 pos hle =>
    obtain rfl := Except.ok.inj h
    exact List.forall_mem_nil _

theorem readCertificateEntries_inside {b : Bytes} {es : List WinCertEntry}
    (h : readCertificateEntries b = .ok es) : ∀ e ∈ es, e.Inside b := by
  obtain ⟨layout, hl, h⟩ := bind_eq_ok.mp h
  obtain ⟨_, P⟩ := parsePe_eq_ok.mp hl
  cases ha : layout.authRegion with
  | none =>
    rw [ha] at h
    obtain rfl := Except.ok.inj h
    exact List.forall_mem_nil _
  | some a =>
    rw [ha] at h
    obtain ⟨va, vend⟩ := a
    exact readEntriesFrom_inside (P.auth_fits ha).2 va h

/-- The digest is taken over ranges of the file, one after another. -/
def HashesRanges {D : Type} (sha256 : Bytes → D) (b : Bytes) (d : D) : Prop :=
  ∃ rs : List (Nat × Nat), (∀ r ∈ rs, r.1 ≤ r.2 ∧ r.2 ≤ b.length) ∧
    d = sha256 (rs.flatMap fun r => range b r.1 r.2)

theorem authenticodeDigest_ranges {D : Type} {sha256 : Bytes → D} {b : Bytes} {d : D}
    (h : authenticodeDigest sha256 b = .ok d) : HashesRanges sha256 b d := by
  obtain ⟨layout, hl, h⟩ := bind_eq_ok.mp h
  obtain ⟨header, P⟩ := parsePe_eq_ok.mp hl
  obtain ⟨input, hinput, h⟩ := bind_eq_ok.mp h
  obtain rfl := Except.ok.inj h
  have hnrva := P.nrva_fits
  have hoff := header.le_nrvaOff
  have hcs : layout.checksumRange = (header.p + 88, header.p + 92) := P.checksum
  have hhead : b.take (header.p + 88) = range b 0 (header.p + 88) := by rw [range, List.drop_zero]
  rw [digestInput, hcs, P.security] at hinput
  simp only [hhead, ← Checked.range_to_end] at hinput
  cases hs : header.securityDirRange with
  | none =>
    rw [hs] at hinput
    obtain rfl := Except.ok.inj hinput
    refine ⟨[(0, header.p + 88), (header.p + 92, b.length)], ?_, by simp⟩
    simp only [List.forall_mem_cons]
    exact ⟨by omega, by omega, List.forall_mem_nil _⟩
  | some r =>
    obtain ⟨ss, se⟩ := r
    have hspec := PeHeader.security_spec hs
    have hfits := P.security_fits hs
    rw [hs] at hinput
    obtain ⟨hle, hinput⟩ := ite_error_eq_ok.mp hinput
    cases ha : layout.authRegion with
    | none =>
      rw [ha] at hinput
      obtain rfl := Except.ok.inj hinput
      refine ⟨[(0, header.p + 88), (header.p + 92, ss), (se, b.length)], ?_, by simp⟩
      simp only [List.forall_mem_cons]
      exact ⟨by omega, by omega, by omega, List.forall_mem_nil _⟩
    | some a =>
      obtain ⟨va, vend⟩ := a
      have hse := P.security_le_auth hs ha
      have hauth := P.auth_fits ha
      have hne := P.auth_nonempty ha
      rw [ha] at hinput
      obtain rfl := Except.ok.inj hinput
      refine ⟨[(0, header.p + 88), (header.p + 92, ss), (se, va), (vend, b.length)], ?_, by simp⟩
      simp only [List.forall_mem_cons]
      exact ⟨by omega, by omega, by omega, by omega, List.forall_mem_nil _⟩

theorem findFooterFrom_le {b : Bytes} {overlayStart pos p : Nat} {excludes : List (Nat × Nat)}
    (h : findFooterFrom b overlayStart excludes pos = some p) : p ≤ pos := by
  induction pos with
  | zero =>
    rw [findFooterFrom] at h
    split at h
    · cases h
    · split at h
      · exact (Option.some.inj h).ge
      · cases h
  | succ pos ih =>
    rw [findFooterFrom] at h
    split at h
    · cases h
    · split at h
      · exact (Option.some.inj h).ge
      · exact (ih h).trans (Nat.le_succ pos)

theorem findFooterV4_le {b : Bytes} {overlayStart p : Nat} {excludes : List (Nat × Nat)}
    (h : findFooterV4 b overlayStart excludes = some p) : p + footerLen ≤ b.length := by
  rw [findFooterV4] at h
  split at h
  · cases h
  · have hle := findFooterFrom_le h
    omega

/-- The protected part and the CMS value lie one behind the other, ahead of the footer. -/
def CmsInside (b : Bytes) (footerOffset contentLen : Nat) (cms : Bytes) : Prop :=
  footerOffset + footerLen ≤ b.length ∧
    ∃ off, contentLen ≤ off ∧ off + cms.length ≤ footerOffset ∧
      cms = range b off (off + cms.length)

theorem extractV4_inside {b : Bytes} {footerOffset contentLen : Nat} {cms : Bytes}
    (h : extractV4 b footerOffset = .ok (contentLen, cms)) :
    CmsInside b footerOffset contentLen cms := by
  obtain ⟨-, h⟩ := ite_error_eq_ok.mp h
  obtain ⟨hfits, h⟩ := ite_error_eq_ok.mp h
  obtain ⟨p, -, h⟩ := bind_eq_ok.mp h
  obtain ⟨-, h⟩ := ite_error_eq_ok.mp h
  obtain ⟨-, h⟩ := ite_error_eq_ok.mp h
  obtain ⟨hcms, h⟩ := ite_error_eq_ok.mp h
  obtain ⟨hcontent, h⟩ := ite_error_eq_ok.mp h
  obtain ⟨rfl, rfl⟩ := Prod.mk.inj (Except.ok.inj h)
  have hlen := Checked.length_range (b := b) (i := p.cmsOff) (j := p.cmsOff + p.cmsLen)
    (by omega) (by omega)
  refine ⟨by omega, p.cmsOff, by omega, by omega, ?_⟩
  rw [hlen, Nat.add_sub_cancel_left]

namespace Checked

def V4CarrierVerbatim.carrier {D : Type} (v : V4CarrierVerbatim D) : V4Carrier D :=
  ⟨v.contentLen, v.cmsDer, v.contentDigest⟩

section
variable {D : Type} {sha256 : Bytes → D} {b : Bytes} {l : Option Nat} {footerOffset : Nat}

theorem extractCarrierV4_of_noLength {e : CodecError}
    (hcl : (detectCodec b).computeL b = .error e) :
    Verify.extractCarrierV4 sha256 b = .error e.display := by
  simp only [Verify.extractCarrierV4, displayed, hcl, Except.mapError, bind, Except.bind]

theorem extractCarrierV4_of_noFooter (hcl : (detectCodec b).computeL b = .ok l)
    (hfind : Verify.findFooterV4 b (l.getD 0) ((detectCodec b).overlayExcludes b) = none) :
    Verify.extractCarrierV4 sha256 b = .error noFooter := by
  simp only [Verify.extractCarrierV4, displayed, hcl, hfind, Except.mapError, bind, Except.bind]

theorem extractCarrierV4_of_badFooter {e : Text} (hcl : (detectCodec b).computeL b = .ok l)
    (hfind : Verify.findFooterV4 b (l.getD 0) ((detectCodec b).overlayExcludes b) =
      some footerOffset)
    (hx : Verify.extractV4 b footerOffset = .error e) :
    Verify.extractCarrierV4 sha256 b = .error e := by
  simp only [Verify.extractCarrierV4, displayed, hcl, hfind, hx, Except.mapError, bind,
    Except.bind]

theorem extractCarrierV4_of_footer {x : Nat × Bytes} (hcl : (detectCodec b).computeL b = .ok l)
    (hfind : Verify.findFooterV4 b (l.getD 0) ((detectCodec b).overlayExcludes b) =
      some footerOffset)
    (hx : Verify.extractV4 b footerOffset = .ok x) :
    Verify.extractCarrierV4 sha256 b = if l.any fun lActual => x.1 ≠ lActual then
      .error ("footer content_len ".toList ++ decimal x.1 ++ " ≠ ELF 结构区 L ".toList ++
        decimal (l.getD 0) ++ "（载体契约违约）".toList)
    else (displayed ((detectCodec b).contentHash sha256 b x.1)).map fun d => ⟨x.1, x.2, d⟩ := by
  simp only [Verify.extractCarrierV4, displayed, hcl, hfind, hx, Except.mapError, bind,
    Except.bind]
  split
  · rfl
  · cases (detectCodec b).contentHash sha256 b x.1 with
    | error e => rfl
    | ok d => rfl

theorem error_ne_ok {α : Type} {e : Text} {P : α → Prop} (a : α)
    (h : (Except.error e : Except Text α) = .ok a) : P a := by
  cases h

end

/-- The checked extraction is the extraction, with the footer and the comparison beside it. -/
theorem extractCarrierV4_settled {D : Type} [DecidableEq D] (sha256 : Bytes → D)
    (parseSignedData : Bytes → Except Text D) {b : Bytes} (hb : Held b) :
    ∃ r, extractCarrierV4 sha256 parseSignedData b = returns r ∧
      r.map V4CarrierVerbatim.carrier = Verify.extractCarrierV4 sha256 b ∧
      ∀ v, r = .ok v → Verify.extractV4 b v.footerOffset = .ok (v.contentLen, v.cmsDer) := by
  rw [extractCarrierV4]
  simp only
  rw [computeL_eq (detectCodec b) hb.lt, mapError_returns]
  cases hcl : (detectCodec b).computeL b with
  | error e => exact ⟨_, rfl, (extractCarrierV4_of_noLength hcl).symm, error_ne_ok⟩
  | ok l =>
    have hstart := ExecutableCodec.le_of_computeL hcl
    change ∃ r, (overlayExcludes _ b >>= _) = _ ∧ _
    rw [overlayExcludes_eq, returns_ok_bind, findFooterV4_eq _ hb.lt hstart, returns_ok_bind]
    cases hfind : Verify.findFooterV4 b (l.getD 0) ((detectCodec b).overlayExcludes b) with
    | none => exact ⟨_, rfl, (extractCarrierV4_of_noFooter hcl hfind).symm, error_ne_ok⟩
    | some footerOffset =>
      simp only
      rw [extractV4_eq]
      cases hx : Verify.extractV4 b footerOffset with
      | error e => exact ⟨_, rfl, (extractCarrierV4_of_badFooter hcl hfind hx).symm, error_ne_ok⟩
      | ok x =>
        rw [returns_ok_bind, extractCarrierV4_of_footer hcl hfind hx]
        split
        · exact ⟨_, rfl, rfl, error_ne_ok⟩
        · rw [contentHash_eq, mapError_returns, displayed]
          cases (detectCodec b).contentHash sha256 b x.1 with
          | error e => exact ⟨_, rfl, rfl, error_ne_ok⟩
          | ok d =>
            refine ⟨_, rfl, rfl, ?_⟩
            intro v hv
            obtain rfl := Except.ok.inj hv
            exact hx

theorem computeL_settles {b : Bytes} (hb : Held b) :
    Settles (computeL (detectCodec b) b) fun l => l.getD 0 ≤ b.length :=
  settles_of_eq (computeL_eq _ hb.lt) fun _ h => ExecutableCodec.le_of_computeL h

theorem readCertificateEntries_settles {b : Bytes} (hb : Held b) :
    Settles (readCertificateEntries b) fun es => ∀ e ∈ es, e.Inside b :=
  settles_of_eq (readCertificateEntries_eq hb.lt) fun _ => readCertificateEntries_inside

theorem overlayExcludes_settles (b : Bytes) :
    Settles (overlayExcludes (ε := CodecError) (detectCodec b) b)
      fun rs => ∀ r ∈ rs, r.1 ≤ r.2 ∧ r.2 ≤ b.length := by
  refine settles_of_eq (overlayExcludes_eq _ b) ?_
  intro rs hrs r hr
  obtain rfl := Except.ok.inj hrs
  exact overlayExcludes_inside hr

theorem findFooterV4_settles {b : Bytes} (hb : Held b) {l : Option Nat}
    (hl : (detectCodec b).computeL b = .ok l) (excludes : List (Nat × Nat)) :
    Settles (findFooterV4 (ε := Text) b (l.getD 0) excludes)
      fun found => ∀ pos, found = some pos → pos + footerLen ≤ b.length := by
  refine settles_of_eq (findFooterV4_eq excludes hb.lt (ExecutableCodec.le_of_computeL hl)) ?_
  intro found hfound pos hpos
  obtain rfl := Except.ok.inj hfound
  exact findFooterV4_le hpos

theorem extractV4_settles (b : Bytes) (footerOffset : Nat) :
    Settles (extractV4 b footerOffset) fun x => CmsInside b footerOffset x.1 x.2 :=
  settles_of_eq (extractV4_eq b footerOffset) fun _ h => extractV4_inside h

theorem extractCarrierV4_settles {D : Type} [DecidableEq D] (sha256 : Bytes → D)
    (parseSignedData : Bytes → Except Text D) {b : Bytes} (hb : Held b) :
    Settles (extractCarrierV4 sha256 parseSignedData b)
      fun v => CmsInside b v.footerOffset v.contentLen v.cmsDer := by
  obtain ⟨r, hr, -, hinside⟩ := extractCarrierV4_settled sha256 parseSignedData hb
  exact settles_of_eq hr fun v hv => extractV4_inside (hinside v hv)

end Checked

/-- Every parser ends without a panic; the extents, tables, CMS values and protected parts that
they return lie in the file. -/
theorem parsing_never_panics {D : Type} [DecidableEq D] (sha256 : Bytes → D)
    (parseSignedData : Bytes → Except Text D) (b cms : Bytes) (footerOffset : Nat)
    (hb : Held b) (hcms : Held cms) :
    Settles (Checked.computeL (detectCodec b) b) (fun l => l.getD 0 ≤ b.length) ∧
    Settles (Checked.authenticodeDigest sha256 b) (HashesRanges sha256 b) ∧
    Settles (Checked.readCertificateEntries b) (fun es => ∀ e ∈ es, e.Inside b) ∧
    Settles (Checked.appendCertificateTable b cms) (fun _ => True) ∧
    Settles (Checked.replaceCertificateTable b cms) (fun _ => True) ∧
    Settles (Checked.overlayExcludes (ε := CodecError) (detectCodec b) b)
      (fun rs => ∀ r ∈ rs, r.1 ≤ r.2 ∧ r.2 ≤ b.length) ∧
    (∀ l excludes, (detectCodec b).computeL b = .ok l →
      Settles (Checked.findFooterV4 (ε := Text) b (l.getD 0) excludes)
        fun found => ∀ pos, found = some pos → pos + footerLen ≤ b.length) ∧
    Settles (Checked.extractV4 b footerOffset) (fun x => CmsInside b footerOffset x.1 x.2) ∧
    Settles (Checked.extractCarrierV4 sha256 parseSignedData b)
      (fun v => CmsInside b v.footerOffset v.contentLen v.cmsDer) :=
  ⟨Checked.computeL_settles hb,
    settles_of_eq (Checked.authenticodeDigest_eq sha256 b) fun _ => authenticodeDigest_ranges,
    Checked.readCertificateEntries_settles hb,
    settles_of_eq (Checked.appendCertificateTable_eq hb.lt hcms.lt) fun _ _ => trivial,
    settles_of_eq (Checked.replaceCertificateTable_eq hb.lt hcms.lt) fun _ _ => trivial,
    Checked.overlayExcludes_settles b,
    fun _ excludes hl => Checked.findFooterV4_settles hb hl excludes,
    Checked.extractV4_settles b footerOffset,
    Checked.extractCarrierV4_settles sha256 parseSignedData hb⟩

/-- A PE file that ends after its magic, and a raw file of one byte. -/
theorem parsing_never_panics_short :
    Settles (Checked.replaceCertificateTable mz elfMagic) (fun _ => True) ∧
    Settles (Checked.findFooterV4 (ε := Text) [0x41] 0 [])
      fun found => ∀ pos, found = some pos → pos + footerLen ≤ 1 :=
  ⟨(parsing_never_panics List.length (fun _ => .error []) mz elfMagic 0 (by decide)
    (by decide)).2.2.2.2.1,
    (parsing_never_panics List.length (fun _ => .error []) [0x41] [] 0 (by decide)
      (by decide)).2.2.2.2.2.2.1 none [] rfl⟩

end NemesisBot.Verify

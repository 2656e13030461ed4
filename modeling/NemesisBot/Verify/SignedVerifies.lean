import NemesisBot.Verify.PeBinding
import NemesisBot.Verify.SignContent

/-! When what has been signed verifies. -/
namespace NemesisBot.Verify
open Strings Bytes

theorem orElse_eq_ok {α ε D : Type} {x : Except ε α} {outcome : ε → VerifyOutcome D} {a : α} :
    orElse x outcome = .ok a ↔ x = .ok a := by
  cases x with
  | error e => exact ⟨(fun h => nomatch h), fun h => nomatch h⟩
  | ok b => exact ⟨(fun h => congrArg _ (Except.ok.inj h)), fun h => congrArg _ (Except.ok.inj h)⟩

theorem found_eq_ok {α D : Type} {x : Option α} {outcome : VerifyOutcome D} {a : α} :
    found x outcome = .ok a ↔ x = some a := by
  cases x with
  | none => exact ⟨(fun h => nomatch h), fun h => nomatch h⟩
  | some b => exact ⟨(fun h => congrArg _ (Except.ok.inj h)), fun h => congrArg _ (Option.some.inj h)⟩

/-- The length octets of a DER value with `n` content octets. -/
def derLength (n : Nat) : Bytes :=
  if n < 0x80 then [UInt8.ofNat n]
  else
    let k := if n < 256 then 1 else if n < 256 ^ 2 then 2 else if n < 256 ^ 3 then 3 else 4
    UInt8.ofNat (0x80 + k) :: (toLe k n).reverse

theorem derTlvLen_long {tag : UInt8} {body : Bytes} {k n : Nat} (hk : 0 < k) (hk4 : k ≤ 4)
    (hn : n < 256 ^ k) :
    derTlvLen (tag :: (UInt8.ofNat (0x80 + k) :: (toLe k n).reverse ++ body)) =
      some (2 + k + n) := by
  have hl0 : (UInt8.ofNat (0x80 + k)).toNat = 0x80 + k := by
    rw [UInt8.toNat_ofNat']
    omega
  have hlen : (tag :: (UInt8.ofNat (0x80 + k) :: (toLe k n).reverse ++ body)).length =
      2 + k + body.length := by
    simp only [List.cons_append, List.length_cons, List.length_append, List.length_reverse,
      length_toLe]
    omega
  have hget : (tag :: (UInt8.ofNat (0x80 + k) :: (toLe k n).reverse ++ body)).getD 1 0 =
      UInt8.ofNat (0x80 + k) := rfl
  have hrange : range (tag :: (UInt8.ofNat (0x80 + k) :: (toLe k n).reverse ++ body)) 2 (2 + k) =
      (toLe k n).reverse := by
    have hright := range_append_right [tag, UInt8.ofNat (0x80 + k)] ((toLe k n).reverse ++ body) k
    rw [List.take_left' (by rw [List.length_reverse, length_toLe])] at hright
    exact hright
  have hmod : (0x80 + k) % 0x80 = k := by omega
  simp only [derTlvLen, hget, hl0, hlen, hmod, hrange, be, List.reverse_reverse, le_toLe hn]
  rw [if_neg (by omega), if_neg (by omega), if_neg (by omega)]

/-- A definite-length DER value with a one-octet tag is measured right. -/
theorem derTlvLen_value (tag : UInt8) {body : Bytes} (h : body.length < 256 ^ 4) :
    derTlvLen (tag :: (derLength body.length ++ body)) =
      some (tag :: (derLength body.length ++ body)).length := by
  unfold derLength
  by_cases hshort : body.length < 0x80
  · rw [if_pos hshort]
    have hl0 : (UInt8.ofNat body.length).toNat = body.length := by
      rw [UInt8.toNat_ofNat']
      omega
    have hget : (tag :: ([UInt8.ofNat body.length] ++ body)).getD 1 0 =
        UInt8.ofNat body.length := rfl
    simp only [derTlvLen, hget, hl0]
    rw [if_neg (by simp), if_pos hshort]
    simp only [List.length_cons, List.cons_append, List.nil_append]
    congr 1
    omega
  · rw [if_neg hshort]
    have hlong : ∀ k, 0 < k → k ≤ 4 → body.length < 256 ^ k →
        derTlvLen (tag :: (UInt8.ofNat (0x80 + k) :: (toLe k body.length).reverse ++ body)) =
          some (tag :: (UInt8.ofNat (0x80 + k) :: (toLe k body.length).reverse ++ body)).length := by
      intro k hk hk4 hn
      rw [derTlvLen_long hk hk4 hn]
      simp only [List.cons_append, List.length_cons, List.length_append, List.length_reverse,
        length_toLe]
      congr 1
      omega
    simp only
    split
    · rename_i h1
      exact hlong 1 (by omega) (by omega) h1
    · split
      · rename_i h2
        exact hlong 2 (by omega) (by omega) h2
      · split
        · rename_i h3
          exact hlong 3 (by omega) (by omega) h3
        · exact hlong 4 (by omega) (by omega) h

theorem Appended.detectFormat_eq {b cms s : Bytes} {h : PeHeader} {layout : PeLayout} {ss : Nat}
    (A : Appended b cms s h layout ss) : detectFormat s = formatTagPe := by
  have htake := (parseHeader_eq_ok.mp A.header).2.1
  rw [detectFormat, if_pos (htake ▸ List.take_prefix 2 s)]

namespace Backend
variable {D Cert Key SecretKey : Type} (E : Backend D Cert Key SecretKey)

/-- What the code relies on in the libraries: SHA-256 is injective, ECDSA accepts what it signed,
and the CMS value that is built is one DER value that parses to what it was built from. -/
structure Libraries : Prop where
  sha256_injective : Function.Injective E.sha256
  ecdsa_correct : ∀ sk message, E.derSignature (E.ecdsaSign sk message) = true ∧
    E.ecdsaVerify (E.publicKey sk) message (E.ecdsaSign sk message) = true
  cms_der : ∀ d sk t certs publisher cms, E.buildSignedData d sk t certs publisher = .ok cms →
    cms.head? = some 0x30 ∧ derTlvLen cms = some cms.length
  cms_inverse : ∀ d sk t certs publisher cms,
    E.buildSignedData d sk t certs publisher = .ok cms →
    ∃ leaf ps, certs.head? = some leaf ∧ E.parseSignedData cms = .ok ps ∧
      ps.contentDigest = d ∧ ps.certs.Perm certs ∧
      E.x509.signerId leaf = some (ps.signerSerial, ps.signerIssuerDer) ∧
      ps.signature = E.ecdsaSign sk ps.signatureMessage ∧ ps.signingTime = some t

/-- The revocation service knows of nothing, or cannot be asked and need not be. -/
def NothingRevoked : Prop :=
  ∀ keyFp sigHash content publisher root,
    E.checkRevocation keyFp sigHash content publisher root = .notRevoked ∨
      E.checkRevocation keyFp sigHash content publisher root = .unknown ∧ E.strictOffline = false

section Libraries
variable {E}

theorem revocation_ok {ps : ParsedSignature D Cert} (hrev : E.NothingRevoked) (keyFp : D) (publisher : Option Text) (root : Key) :
    E.revocation ps keyFp publisher root = .ok () := by
  unfold revocation
  cases hrev keyFp (E.sha256 ps.signature) ps.contentDigest publisher root with
  | inl h => rw [h]
  | inr h => rw [h.1, h.2]; rfl

theorem locate_signedPe {b cms s : Bytes} {h : PeHeader} {layout : PeLayout} {ss : Nat}
    (A : Appended b cms s h layout ss) (hfit : tableFits b cms = true)
    (hder : derTlvLen cms = some cms.length) :
    E.locatePrimary s = .ok (.certificateTable cms) := by
  rw [locatePrimary, if_pos A.detectFormat_eq]
  refine bind_eq_ok.mpr ⟨_, orElse_eq_ok.mpr (A.read_iff.mpr ⟨hfit, hder⟩), ?_⟩
  refine bind_eq_ok.mpr ⟨_, found_eq_ok.mpr rfl, ?_⟩
  exact if_neg (not_not.mpr rfl)

theorem recomputed_pe {s : Bytes} {primary : PrimarySource D} {d : D}
    (hfmt : detectFormat s = formatTagPe) (hlocate : E.locatePrimary s = .ok primary)
    (hd : E.recomputed s primary = .ok d) : authenticodeDigest E.sha256 s = .ok d := by
  rw [locatePrimary, if_pos hfmt] at hlocate
  obtain ⟨entries, -, hlocate⟩ := bind_eq_ok.mp hlocate
  obtain ⟨first, -, hlocate⟩ := bind_eq_ok.mp hlocate
  obtain ⟨-, hlocate⟩ := ite_error_eq_ok.mp hlocate
  cases hlocate
  exact orElse_eq_ok.mp hd

/-- The digest that was embedded, the CMS value and the file of a signing run. -/
theorem signContentV4_eq_ok {content s : Bytes} {sk : SecretKey} {t : Nat} {certs : List Cert}
    {publisher : Option Text} : E.signContentV4 content sk t certs publisher = .ok s ↔
      ∃ d cms, E.v4ContentDigest content = .ok d ∧
        E.buildSignedData d sk t certs publisher = .ok cms ∧
        (if detectFormat content = formatTagPe then displayed (appendCertificateTable content cms)
          else signCarrierV4 content cms) = .ok s := by
  constructor
  · intro hok
    obtain ⟨d, hd, hok⟩ := bind_eq_ok.mp hok
    obtain ⟨cms, hcms, hok⟩ := bind_eq_ok.mp hok
    exact ⟨d, cms, hd, hcms, hok⟩
  · intro ⟨d, cms, hd, hcms, hok⟩
    exact bind_eq_ok.mpr ⟨d, hd, bind_eq_ok.mpr ⟨cms, hcms, hok⟩⟩

end Libraries

variable [DecidableEq D] [DecidableEq Cert]

/-- The signer is the first certificate, holds the signing key, is told apart by its issuer and
serial number, and has a chain that is valid now up to an anchor. -/
structure TrustedSigner (sk : SecretKey) (certs : List Cert) (ps : ParsedSignature D Cert)
    (anchors : List D) (now : Nat) : Prop where
  key : ∀ leaf, certs.head? = some leaf → E.x509.subjectPublicKey leaf = .ok (E.publicKey sk)
  unique : ∀ leaf, certs.head? = some leaf →
    ∀ c ∈ certs, E.signerMatches ps c = true → c = leaf
  chain : ∀ leaf, certs.head? = some leaf → ∃ root, E.trustedChain ps leaf anchors now = .ok root

/-- The primary signature is the CMS value, its digest is the one recomputed, and the file is
valid. -/
def Verifies (s cms : Bytes) (ps : ParsedSignature D Cert) (signedAt : Nat) (vk : Key)
    (anchors : List D) (now : Nat) : Prop :=
  (∃ primary, E.locatePrimary s = .ok primary ∧ primary.cmsDer = cms ∧
    E.recomputed s primary = .ok ps.contentDigest) ∧
  E.verifyBytes s anchors now =
    .valid signedAt (E.sha256 (E.publicKeyBytes vk)) (E.publicKeyBytes vk)

section Steps
variable {E} {sk : SecretKey} {certs : List Cert} {ps : ParsedSignature D Cert}
  {anchors : List D} {now : Nat} {leaf : Cert}

theorem signer_found (T : E.TrustedSigner sk certs ps anchors now)
    (hleaf : certs.head? = some leaf) (hperm : ps.certs.Perm certs)
    (hid : E.x509.signerId leaf = some (ps.signerSerial, ps.signerIssuerDer)) :
    ps.certs.find? (E.signerMatches ps) = some leaf := by
  have hmem : leaf ∈ ps.certs := hperm.mem_iff.mpr (List.mem_of_head? hleaf)
  have hmatch : E.signerMatches ps leaf = true := by
    rw [signerMatches, hid, beq_iff_eq]
  cases hfind : ps.certs.find? (E.signerMatches ps) with
  | none => exact absurd hmatch (List.find?_eq_none.mp hfind leaf hmem)
  | some c =>
    have hc := hperm.mem_iff.mp (List.mem_of_find?_eq_some hfind)
    rw [T.unique leaf hleaf c hc (List.find?_some hfind)]

theorem rootKey_of_trustedChain {root : Cert}
    (h : E.trustedChain ps leaf anchors now = .ok root) :
    ∃ vk, E.x509.subjectPublicKey root = .ok vk := by
  obtain ⟨chain, -, h⟩ := bind_eq_ok.mp h
  obtain ⟨root', hroot, h⟩ := bind_eq_ok.mp h
  obtain ⟨u, hverify, h⟩ := bind_eq_ok.mp h
  obtain ⟨-, h⟩ := ite_error_eq_ok.mp h
  cases h
  exact rootKey_of_verifyChain E.x509 (orElse_eq_ok.mp hverify) (found_eq_ok.mp hroot)

/-- Behind a located signature with the right digest every step passes. -/
theorem verifyBytes_valid (L : E.Libraries) (T : E.TrustedSigner sk certs ps anchors now)
    (hrev : E.NothingRevoked) {d : D} {t : Nat} {publisher : Option Text} {s cms : Bytes}
    {primary : PrimarySource D} (hbuild : E.buildSignedData d sk t certs publisher = .ok cms)
    (hparse : E.parseSignedData cms = .ok ps) (hlocate : E.locatePrimary s = .ok primary)
    (hcms : primary.cmsDer = cms) (hdigest : E.recomputed s primary = .ok ps.contentDigest) :
    E.verifyBytes s anchors now = .valid t (E.sha256 (E.publicKeyBytes (E.publicKey sk)))
      (E.publicKeyBytes (E.publicKey sk)) := by
  obtain ⟨leaf, ps', hleaf, hparse', -, hperm, hid, hsig, htime⟩ :=
    L.cms_inverse d sk t certs publisher cms hbuild
  have hps : ps' = ps := Except.ok.inj (hparse'.symm.trans hparse)
  subst hps
  obtain ⟨root, hchain⟩ := T.chain leaf hleaf
  obtain ⟨rootVk, hrootVk⟩ := rootKey_of_trustedChain hchain
  obtain ⟨hder, hverify⟩ := L.ecdsa_correct sk ps'.signatureMessage
  rw [← hsig] at hder hverify
  have hsteps : E.verifySteps s anchors now = .ok (.valid t
      (E.sha256 (E.publicKeyBytes (E.publicKey sk))) (E.publicKeyBytes (E.publicKey sk))) := by
    refine bind_eq_ok.mpr ⟨primary, hlocate, ?_⟩
    rw [hcms]
    refine bind_eq_ok.mpr ⟨ps', orElse_eq_ok.mpr hparse, ?_⟩
    refine bind_eq_ok.mpr ⟨leaf, found_eq_ok.mpr (signer_found T hleaf hperm hid), ?_⟩
    refine bind_eq_ok.mpr ⟨root, hchain, ?_⟩
    refine bind_eq_ok.mpr ⟨ps'.contentDigest, hdigest, ?_⟩
    refine ite_error_eq_ok.mpr ⟨not_not.mpr rfl, ?_⟩
    refine bind_eq_ok.mpr ⟨E.publicKey sk, orElse_eq_ok.mpr (T.key leaf hleaf), ?_⟩
    rw [if_neg (by rw [hder]; decide), if_neg (by rw [hverify]; decide)]
    refine bind_eq_ok.mpr ⟨rootVk, orElse_eq_ok.mpr hrootVk, ?_⟩
    refine bind_eq_ok.mpr ⟨(), revocation_ok hrev _ _ _, ?_⟩
    rw [htime]
    rfl
  rw [verifyBytes, hsteps]

/-- A signed PE file verifies when its length needs no padding and its sections end in front of
the table, and only then. -/
theorem signedPe_iff (L : E.Libraries) (T : E.TrustedSigner sk certs ps anchors now)
    (hrev : E.NothingRevoked) {d : D} {t : Nat} {publisher : Option Text} {b s cms : Bytes}
    (hbuild : E.buildSignedData d sk t certs publisher = .ok cms)
    (hparse : E.parseSignedData cms = .ok ps) (hd : authenticodeDigest E.sha256 b = .ok d)
    (happ : appendCertificateTable b cms = .ok s) :
    E.Verifies s cms ps t (E.publicKey sk) anchors now ↔
      b.length % 8 = 0 ∧ tableFits b cms = true := by
  obtain ⟨h, layout, ss, A⟩ := appended_of_ok happ
  obtain ⟨leaf, ps', -, hparse', hcontent, -⟩ := L.cms_inverse d sk t certs publisher cms hbuild
  have hps : ps' = ps := Except.ok.inj (hparse'.symm.trans hparse)
  subst hps
  constructor
  · intro ⟨⟨primary, hlocate, _, hrec⟩, _⟩
    have hs := recomputed_pe A.detectFormat_eq hlocate hrec
    rw [hcontent, ← hd] at hs
    exact (A.digest_iff L.sha256_injective).mp hs
  · intro hcond
    have hs := (A.digest_iff L.sha256_injective).mpr hcond
    have hlocate := locate_signedPe (E := E) A hcond.2 (L.cms_der d sk t certs publisher cms hbuild).2
    have hrec : E.recomputed s (.certificateTable cms) = .ok ps'.contentDigest := by
      rw [hcontent]
      exact orElse_eq_ok.mpr (hs.trans hd)
    exact ⟨⟨_, hlocate, rfl, hrec⟩, verifyBytes_valid L T hrev hbuild hparse hlocate rfl hrec⟩

/-- A signed ELF or raw file always verifies. -/
theorem signedCarrier_verifies (L : E.Libraries) (T : E.TrustedSigner sk certs ps anchors now)
    (hrev : E.NothingRevoked) {d : D} {t : Nat} {publisher : Option Text} {b s cms : Bytes}
    (hbuild : E.buildSignedData d sk t certs publisher = .ok cms)
    (hparse : E.parseSignedData cms = .ok ps) (hfmt : detectFormat b ≠ formatTagPe)
    (hd : E.v4ContentDigest b = .ok d) (hsign : signCarrierV4 b cms = .ok s) :
    E.Verifies s cms ps t (E.publicKey sk) anchors now := by
  obtain ⟨leaf, ps', -, hparse', hcontent, -⟩ := L.cms_inverse d sk t certs publisher cms hbuild
  have hps : ps' = ps := Except.ok.inj (hparse'.symm.trans hparse)
  subst hps
  rw [v4ContentDigest, if_neg hfmt] at hd
  obtain ⟨l, hl, hd⟩ := bind_eq_ok.mp hd
  have hhead := (L.cms_der d sk t certs publisher cms hbuild).1
  have hextract := extractCarrierV4_signed hsign hhead (displayed_eq_ok.mp hl)
    (displayed_eq_ok.mp hd)
  have hsfmt : detectFormat s ≠ formatTagPe := by
    rw [signedFormat hsign hhead]
    exact hfmt
  have hlocate : E.locatePrimary s = .ok (.carrier cms d) := by
    rw [locatePrimary, if_neg hsfmt, hextract]
  have hrec : E.recomputed s (.carrier cms d) = .ok ps'.contentDigest := by
    rw [hcontent]
    rfl
  exact ⟨⟨_, hlocate, rfl, hrec⟩, verifyBytes_valid L T hrev hbuild hparse hlocate rfl hrec⟩

end Steps

theorem signed_iff (L : E.Libraries) (hrev : E.NothingRevoked) {content s cms : Bytes}
    {sk : SecretKey} {t : Nat} {certs : List Cert} {publisher : Option Text} {d : D}
    {ps : ParsedSignature D Cert} {anchors : List D} {now : Nat}
    (hsign : E.signContentV4 content sk t certs publisher = .ok s)
    (hd : E.v4ContentDigest content = .ok d)
    (hbuild : E.buildSignedData d sk t certs publisher = .ok cms)
    (hparse : E.parseSignedData cms = .ok ps) (T : E.TrustedSigner sk certs ps anchors now) :
    E.Verifies s cms ps t (E.publicKey sk) anchors now ↔
      (detectFormat content = formatTagPe →
        content.length % 8 = 0 ∧ tableFits content cms = true) := by
  obtain ⟨d', cms', hd', hbuild', hfile⟩ := signContentV4_eq_ok.mp hsign
  have hdd : d' = d := Except.ok.inj (hd'.symm.trans hd)
  subst hdd
  have hcc : cms' = cms := Except.ok.inj (hbuild'.symm.trans hbuild)
  subst hcc
  by_cases hfmt : detectFormat content = formatTagPe
  · rw [if_pos hfmt] at hfile
    rw [v4ContentDigest, if_pos hfmt] at hd
    rw [signedPe_iff L T hrev hbuild hparse (displayed_eq_ok.mp hd) (displayed_eq_ok.mp hfile)]
    exact ⟨fun h _ => h, fun h => h hfmt⟩
  · rw [if_neg hfmt] at hfile
    have hver := signedCarrier_verifies L T hrev hbuild hparse hfmt hd hfile
    exact ⟨fun _ hpe => absurd hpe hfmt, fun _ => hver⟩

end Backend

/-- What is signed verifies, and rewriting the certificate table keeps the digest, when the file is
no PE file or its table starts at its unpadded end and behind all its sections; the table read
back is the one entry when the header of the value gives its length. -/
theorem what_is_signed_verifies {D Cert Key SecretKey : Type} [DecidableEq D] [DecidableEq Cert]
    (E : Backend D Cert Key SecretKey) (L : E.Libraries) :
    (∀ (content s cms : Bytes) (sk : SecretKey) (t : Nat) (certs : List Cert)
      (publisher : Option Text) (d : D) (ps : ParsedSignature D Cert) (anchors : List D) (now : Nat),
      E.signContentV4 content sk t certs publisher = .ok s → E.v4ContentDigest content = .ok d →
      E.buildSignedData d sk t certs publisher = .ok cms → E.parseSignedData cms = .ok ps →
      E.TrustedSigner sk certs ps anchors now → E.NothingRevoked →
      (E.Verifies s cms ps t (E.publicKey sk) anchors now ↔
        (detectFormat content = formatTagPe →
          content.length % 8 = 0 ∧ tableFits content cms = true))) ∧
    (∀ b c s : Bytes, appendCertificateTable b c = .ok s →
      (authenticodeDigest E.sha256 s = authenticodeDigest E.sha256 b ↔
        b.length % 8 = 0 ∧ tableFits b c = true) ∧
      (readCertificateEntries s = .ok [⟨round8 b.length, entryLen c, winCertRevision2,
          winCertTypePkcsSignedData, c⟩] ↔
        tableFits b c = true ∧ derTlvLen c = some c.length)) ∧
    (∀ (b c s : Bytes) (layout : PeLayout) (va vend ss se : Nat),
      replaceCertificateTable b c = .ok s → parsePe b = .ok layout →
      layout.authRegion = some (va, vend) → layout.securityDirRange = some (ss, se) →
      (authenticodeDigest E.sha256 s = authenticodeDigest E.sha256 b ↔
        va % 8 = 0 ∧ tableFits (stripTable b va ss) c = true) ∧
      (readCertificateEntries s = .ok [⟨round8 va, entryLen c, winCertRevision2,
          winCertTypePkcsSignedData, c⟩] ↔
        tableFits (stripTable b va ss) c = true ∧ derTlvLen c = some c.length)) ∧
    ∀ (tag : UInt8) (body : Bytes), body.length < 256 ^ 4 →
      derTlvLen (tag :: (derLength body.length ++ body)) =
        some (tag :: (derLength body.length ++ body)).length := by
  refine ⟨?_, ?_, ?_, ?_⟩
  · intro content s cms sk t certs publisher d ps anchors now hsign hd hbuild hparse T hrev
    exact E.signed_iff L hrev hsign hd hbuild hparse T
  · intro b c s happ
    obtain ⟨h, layout, ss, A⟩ := appended_of_ok happ
    exact ⟨A.digest_iff L.sha256_injective, A.read_iff⟩
  · intro b c s layout va vend ss se hrep hl ha hs
    obtain ⟨h, layout', va', ss', P, ha', hs', happ⟩ := replaced_of_ok hrep
    have hll : layout' = layout := Except.ok.inj ((parsePe_eq_ok.mpr ⟨h, P⟩).symm.trans hl)
    subst hll
    have hva : va' = va ∧ b.length = vend := by
      simpa using ha'.symm.trans ha
    have hss : ss' = ss := by
      have heq := hs'.symm.trans (P.security.symm.trans hs)
      simp only [Option.some.injEq, Prod.mk.injEq] at heq
      exact heq.1
    obtain ⟨rfl, rfl⟩ := hva
    subst hss
    obtain ⟨h2, layout2, ss2, A⟩ := appended_of_ok happ
    refine ⟨replace_digest_iff L.sha256_injective P ha' hs' happ, ?_⟩
    have hread := A.read_iff
    rwa [length_stripTable P ha' hs'] at hread
  · intro tag body hlen
    exact derTlvLen_value tag hlen

/-- One self-signed certificate. -/
def sampleX509 : X509 Unit Unit where
  der _ := []
  signerId _ := some ([1], [2])
  aki _ := .ok none
  ski _ := .ok (some [3])
  subjectPublicKey _ := .ok ()
  caConstraints _ := .ok none
  keyCertSign _ := .ok none
  validity _ := .ok (0, 100)
  codeSigning _ := .ok (some true)
  verifySignatureBy _ _ := .ok ()
  subjectCn _ := .ok none

/-- A CMS value that holds its digest behind a DER header of four bytes. -/
def sampleBackend : Backend Bytes Unit Unit Unit where
  sha256 := id
  x509 := sampleX509
  publicKey _ := ()
  publicKeyBytes _ := [4]
  ecdsaSign _ message := message
  derSignature _ := true
  ecdsaVerify _ message signature := message == signature
  buildSignedData d _ t certs _ :=
    if d.length < 256 ^ 2 ∧ t = 0 ∧ certs = [()] then
      .ok (0x30 :: (UInt8.ofNat (0x80 + 2) :: (toLe 2 d.length).reverse ++ d))
    else .error []
  parseSignedData cms := .ok ⟨cms.drop 4, [()], [1], [2], [5], [5], some 0⟩
  checkRevocation _ _ _ _ _ := .notRevoked
  strictOffline := false
  ocspCheckSingle _ _ _ _ _ := none

theorem sampleBackend_built {d : Bytes} {sk : Unit} {t : Nat} {certs : List Unit}
    {publisher : Option Text} {cms : Bytes}
    (h : sampleBackend.buildSignedData d sk t certs publisher = .ok cms) :
    (d.length < 256 ^ 2 ∧ t = 0 ∧ certs = [()]) ∧
      0x30 :: (UInt8.ofNat (0x80 + 2) :: (toLe 2 d.length).reverse ++ d) = cms := by
  simp only [sampleBackend] at h
  split at h
  · rename_i hcond
    exact ⟨hcond, Except.ok.inj h⟩
  · exact nomatch h

theorem sampleBackend_libraries : sampleBackend.Libraries where
  sha256_injective := Function.injective_id
  ecdsa_correct _ message := ⟨rfl, beq_self_eq_true message⟩
  cms_der d sk t certs publisher cms h := by
    obtain ⟨⟨hlen, -, -⟩, rfl⟩ := sampleBackend_built h
    refine ⟨rfl, ?_⟩
    rw [derTlvLen_long (by omega) (by omega) hlen]
    simp only [List.cons_append, List.length_cons, List.length_append, List.length_reverse,
      length_toLe]
    congr 1
    omega
  cms_inverse d sk t certs publisher cms h := by
    obtain ⟨⟨-, rfl, rfl⟩, rfl⟩ := sampleBackend_built h
    refine ⟨(), _, rfl, rfl, ?_, List.Perm.refl _, rfl, rfl, rfl⟩
    have hhead : (0x30 :: UInt8.ofNat (0x80 + 2) :: (toLe 2 d.length).reverse).length = 4 := by
      simp
    have hdrop : (0x30 :: UInt8.ofNat (0x80 + 2) :: (toLe 2 d.length).reverse ++ d).drop 4 = d :=
      List.drop_left' hhead
    exact hdrop

def samplePlain : Bytes := samplePe 0 136 0 0 0 0 []

def sampleCms (b : Bytes) : Bytes :=
  let d := b.take 152 ++ range b 156 216 ++ b.drop 224
  0x30 :: (UInt8.ofNat (0x80 + 2) :: (toLe 2 d.length).reverse ++ d)

def sampleSigned (b : Bytes) : Bytes :=
  writeEntry b 216 (round8 b.length) (entryLen (sampleCms b)) ++ padding b ++
    entryBytes (sampleCms b)

def sampleParsed (b : Bytes) : ParsedSignature Bytes Unit :=
  ⟨(sampleCms b).drop 4, [()], [1], [2], [5], [5], some 0⟩

/-- A signed file whose table has been rewritten. -/
def sampleRewritten : Bytes :=
  writeEntry (samplePe 0 136 0 1 0 0 []) 216 224 (entryLen (sampleCms samplePlain)) ++
    entryBytes (sampleCms samplePlain)

theorem sampleTrusted : sampleBackend.TrustedSigner () [()] (sampleParsed samplePlain) [[]] 0 where
  key _ _ := rfl
  unique _ _ _ _ _ := rfl
  chain leaf _ := ⟨(), by cases leaf; decide +kernel⟩

theorem what_is_signed_verifies_sample :
    sampleBackend.Verifies (sampleSigned samplePlain) (sampleCms samplePlain)
      (sampleParsed samplePlain) 0 () [[]] 0 ∧
    authenticodeDigest id (sampleSigned samplePlain) = authenticodeDigest id samplePlain ∧
    authenticodeDigest id sampleRewritten =
      authenticodeDigest id (samplePe 0 136 0 1 224 8 sampleTable) ∧
    derTlvLen (0x30 :: (derLength 0 ++ [])) = some 2 := by
  have hsign : sampleBackend.signContentV4 samplePlain () 0 [()] none =
      .ok (sampleSigned samplePlain) := by decide +kernel
  have hdigest : sampleBackend.v4ContentDigest samplePlain =
      .ok ((sampleCms samplePlain).drop 4) := by decide +kernel
  have hbuild : sampleBackend.buildSignedData ((sampleCms samplePlain).drop 4) () 0 [()] none =
      .ok (sampleCms samplePlain) := by decide +kernel
  have happ : appendCertificateTable samplePlain (sampleCms samplePlain) =
      .ok (sampleSigned samplePlain) := by decide +kernel
  have hrep : replaceCertificateTable (samplePe 0 136 0 1 224 8 sampleTable)
      (sampleCms samplePlain) = .ok sampleRewritten := by decide +kernel
  have hparse : parsePe (samplePe 0 136 0 1 224 8 sampleTable) =
      .ok (sampleLayout 224 (some (224, 232))) := by decide +kernel
  obtain ⟨hverify, happend, hreplace, hder⟩ :=
    what_is_signed_verifies sampleBackend sampleBackend_libraries
  refine ⟨?_, ?_, ?_, hder 0x30 [] (by decide)⟩
  · refine (hverify samplePlain _ (sampleCms samplePlain) () 0 [()] none _ _ [[]] 0 hsign hdigest
      hbuild rfl sampleTrusted fun _ _ _ _ _ => Or.inl rfl).mpr fun _ => ?_
    decide +kernel
  · exact (happend _ _ _ happ).1.mpr (by decide +kernel)
  · exact (hreplace _ _ _ _ 224 232 216 224 hrep hparse rfl rfl).1.mpr (by decide +kernel)

def sampleUnaligned : Bytes := samplePe 0 136 0 0 0 0 [7]

/-- A file whose one section claims sixteen bytes behind the end. -/
def sampleShort : Bytes :=
  samplePe 1 136 0 0 0 0 (List.replicate 16 0 ++ [16, 0, 0, 0] ++ [8, 1, 0, 0] ++
    List.replicate 16 0)

/-- Signed files that do not verify: one whose length needs padding, one with a section that
reaches over its end. -/
theorem signed_files_fail :
    (sampleBackend.signContentV4 sampleUnaligned () 0 [()] none =
        .ok (sampleSigned sampleUnaligned) ∧
      sampleBackend.verifyBytes (sampleSigned sampleUnaligned) [[]] 0 =
        .tampered "content digest mismatch".toList ∧
      authenticodeDigest id (sampleSigned sampleUnaligned) ≠
        authenticodeDigest id sampleUnaligned) ∧
    sampleBackend.signContentV4 sampleShort () 0 [()] none = .ok (sampleSigned sampleShort) ∧
      sampleBackend.verifyBytes (sampleSigned sampleShort) [[]] 0 =
        .malformed "证书表: Malformed(\"Authenticode VA 264 < overlay start L 280\")".toList := by
  decide +kernel

end NemesisBot.Verify

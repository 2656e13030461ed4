import NemesisBot.Verify.CertChain

/-! Signing a file and verifying it. SHA-256, ECDSA, the CMS library and the revocation service
are parameters. -/
namespace NemesisBot.Verify
open Strings Bytes

structure ParsedSignature (D Cert : Type) where
  contentDigest : D
  certs : List Cert
  signerSerial : Bytes
  signerIssuerDer : Bytes
  signatureMessage : Bytes
  signature : Bytes
  signingTime : Option Nat

inductive RevDim where
  | keyFp
  | sigHash
  | fileHash
  | publisher
  deriving DecidableEq, Repr

structure CrlEntry where
  dim : RevDim
  value : Text
  revokedAt : Nat
  reason : Text
  deriving DecidableEq, Repr

inductive RevocationResult where
  | notRevoked
  | revoked (entry : CrlEntry)
  | unknown
  deriving DecidableEq, Repr

inductive VerifyOutcome (D : Type) where
  | valid (signedAt : Nat) (keyFp : D) (pubkey : Bytes)
  | noSignature
  | tampered (reason : Text)
  | signatureInvalid
  | untrusted
  | revoked (entry : CrlEntry)
  | expired (reason : Text)
  | unsupportedVersion (reason : Text)
  | malformed (reason : Text)
  deriving DecidableEq

/-- The libraries and the service that signing and verifying call. -/
structure Backend (D Cert Key SecretKey : Type) where
  sha256 : Bytes → D
  x509 : X509 Cert Key
  publicKey : SecretKey → Key
  publicKeyBytes : Key → Bytes
  /-- The signature of a message, in its DER form. -/
  ecdsaSign : SecretKey → Bytes → Bytes
  /-- Whether the bytes are the DER form of a signature. -/
  derSignature : Bytes → Bool
  ecdsaVerify : Key → Bytes → Bytes → Bool
  buildSignedData : D → SecretKey → Nat → List Cert → Option Text → Except Text Bytes
  parseSignedData : Bytes → Except Text (ParsedSignature D Cert)
  checkRevocation : D → D → D → Option Text → Key → RevocationResult
  strictOffline : Bool
  ocspCheckSingle : D → D → D → Option Text → Key → Option CrlEntry

inductive PrimarySource (D : Type) where
  | certificateTable (cmsDer : Bytes)
  | carrier (cmsDer : Bytes) (contentDigest : D)

def PrimarySource.cmsDer {D : Type} : PrimarySource D → Bytes
  | certificateTable cms => cms
  | carrier cms _ => cms

def classifyParseErr {D : Type} (s : Text) : VerifyOutcome D :=
  if "unsupported SignedData".toList <+: s then .unsupportedVersion s else .malformed s

def chainOutcome {D : Type} : ChainError → VerifyOutcome D
  | .expired => .expired "certificate expired".toList
  | .malformed e => .malformed ("证书链: ".toList ++ (ChainError.malformed e).display)
  | .invalidKey => .malformed ("证书链: ".toList ++ ChainError.invalidKey.display)
  | .unsupportedAlgorithm =>
    .malformed ("证书链: ".toList ++ ChainError.unsupportedAlgorithm.display)
  | _ => .untrusted

/-- A step whose failure ends the verification with an outcome. -/
def orElse {α ε D : Type} (x : Except ε α) (outcome : ε → VerifyOutcome D) :
    Except (VerifyOutcome D) α := x.mapError outcome

def found {α D : Type} (x : Option α) (outcome : VerifyOutcome D) :
    Except (VerifyOutcome D) α := x.elim (.error outcome) .ok

namespace Backend
variable {D Cert Key SecretKey : Type} (E : Backend D Cert Key SecretKey)

def v4ContentDigest (content : Bytes) : Except Text D :=
  if detectFormat content = formatTagPe then displayed (authenticodeDigest E.sha256 content)
  else do
    let l ← displayed ((detectCodec content).computeL content)
    displayed ((detectCodec content).contentHash E.sha256 content (l.getD content.length))

def signContentV4 (content : Bytes) (sk : SecretKey) (signedAt : Nat) (certs : List Cert)
    (publisher : Option Text) : Except Text Bytes := do
  let digest ← E.v4ContentDigest content
  let cms ← E.buildSignedData digest sk signedAt certs publisher
  if detectFormat content = formatTagPe then displayed (appendCertificateTable content cms)
  else signCarrierV4 content cms

def locatePrimary (b : Bytes) : Except (VerifyOutcome D) (PrimarySource D) :=
  if detectFormat b = formatTagPe then do
    let entries ← orElse (readCertificateEntries b) fun e =>
      .malformed ("证书表: ".toList ++ e.display)
    let first ← found entries.head? .noSignature
    if first.certType ≠ winCertTypePkcsSignedData then
      .error (.malformed ("主条目类型 0x".toList ++
        List.replicate (4 - (Nat.toDigits 16 first.certType).length) '0' ++
        Nat.toDigits 16 first.certType ++ " 非 PKCS_SIGNED_DATA".toList))
    else pure (.certificateTable first.certificate)
  else match extractCarrierV4 E.sha256 b with
    | .ok v => .ok (.carrier v.cmsDer v.contentDigest)
    | .error e => if "无 v4 footer".toList <:+: e then .error .noSignature
      else .error (.malformed ("载体: ".toList ++ e))

/-- The digest of the file for the source its primary signature comes from. -/
def recomputed (b : Bytes) : PrimarySource D → Except (VerifyOutcome D) D
  | .certificateTable _ => orElse (authenticodeDigest E.sha256 b) fun e =>
    .malformed ("authenticode digest: ".toList ++ e.display)
  | .carrier _ contentDigest => .ok contentDigest

variable [DecidableEq D] [DecidableEq Cert]

def signerMatches (ps : ParsedSignature D Cert) (cert : Cert) : Bool :=
  E.x509.signerId cert == some (ps.signerSerial, ps.signerIssuerDer)

def revocation (ps : ParsedSignature D Cert) (keyFp : D) (publisher : Option Text) (rootVk : Key) :
    Except (VerifyOutcome D) Unit :=
  match E.checkRevocation keyFp (E.sha256 ps.signature) ps.contentDigest publisher rootVk with
  | .revoked entry => .error (.revoked entry)
  | .notRevoked => .ok ()
  | .unknown =>
    if E.strictOffline then
      match E.ocspCheckSingle keyFp (E.sha256 ps.signature) ps.contentDigest publisher rootVk with
      | some entry => .error (.revoked entry)
      | none => .error .untrusted
    else .ok ()

/-- The ordered chain of the signer, checked up to a trusted root. -/
def trustedChain (ps : ParsedSignature D Cert) (signer : Cert) (anchors : List D) (now : Nat) :
    Except (VerifyOutcome D) Cert := do
  let chain ← found (E.x509.orderChainFrom signer ps.certs) .untrusted
  let root ← found chain.getLast? .untrusted
  orElse (verifyChain E.x509 E.sha256 chain (E.sha256 (E.x509.der root)) now) chainOutcome
  if E.sha256 (E.x509.der root) ∉ anchors then .error .untrusted else pure root

def verifySteps (b : Bytes) (anchors : List D) (now : Nat) :
    Except (VerifyOutcome D) (VerifyOutcome D) := do
  let primary ← E.locatePrimary b
  let ps ← orElse (E.parseSignedData primary.cmsDer) classifyParseErr
  let signer ← found (ps.certs.find? (E.signerMatches ps))
    (.malformed "sid 引用的签名者证书不在证书集".toList)
  let root ← E.trustedChain ps signer anchors now
  let digest ← E.recomputed b primary
  if digest ≠ ps.contentDigest then .error (.tampered "content digest mismatch".toList)
  else do
    let signerVk ← orElse (E.x509.subjectPublicKey signer) fun e =>
      .malformed ("签名者公钥: ".toList ++ e.display)
    if E.derSignature ps.signature = false then
      .error (.malformed "signature 非 DER ECDSA 形态".toList)
    else if E.ecdsaVerify signerVk ps.signatureMessage ps.signature = false then
      .error .signatureInvalid
    else do
      let pubkey := E.publicKeyBytes signerVk
      let publisher := match E.x509.subjectCn signer with
        | .ok cn => cn
        | .error _ => none
      let rootVk ← orElse (E.x509.subjectPublicKey root) fun _ => .untrusted
      E.revocation ps (E.sha256 pubkey) publisher rootVk
      pure (.valid (ps.signingTime.getD 0) (E.sha256 pubkey) pubkey)

def verifyBytes (b : Bytes) (anchors : List D) (now : Nat) : VerifyOutcome D :=
  match E.verifySteps b anchors now with
  | .ok outcome => outcome
  | .error outcome => outcome

end Backend
end NemesisBot.Verify

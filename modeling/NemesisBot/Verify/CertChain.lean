import NemesisBot.Verify.Carrier

/-! Certificate chains: their order and their check. What is read from one certificate comes
from the X.509 library and is a parameter. -/
namespace NemesisBot.Verify
open Strings Bytes

inductive ChainError where
  | empty
  | malformed (reason : Text)
  | unsupportedAlgorithm
  | invalidKey
  | brokenChain
  | noRootForIssuer
  | expired
  | badSignature
  | issuerNotCa
  | pathLenExceeded
  | missingCodeSigningEku
  deriving DecidableEq, Repr

def ChainError.display : ChainError → Text
  | .empty => "empty certificate chain".toList
  | .malformed e => "malformed certificate: ".toList ++ e
  | .unsupportedAlgorithm => "unsupported signature algorithm".toList
  | .invalidKey => "invalid public key".toList
  | .brokenChain => "broken certificate chain".toList
  | .noRootForIssuer => "no trusted root for issuer".toList
  | .expired => "certificate expired".toList
  | .badSignature => "bad certificate signature".toList
  | .issuerNotCa => "issuer certificate is not a CA".toList
  | .pathLenExceeded => "path length constraint exceeded".toList
  | .missingCodeSigningEku => "missing codeSigning EKU".toList

/-- What the X.509 library reads from a certificate. -/
structure X509 (Cert Key : Type) where
  der : Cert → Bytes
  /-- The serial number and the encoded issuer, when the certificate parses. -/
  signerId : Cert → Option (Bytes × Bytes)
  aki : Cert → Except ChainError (Option Bytes)
  ski : Cert → Except ChainError (Option Bytes)
  subjectPublicKey : Cert → Except ChainError Key
  /-- The CA flag and the path length. -/
  caConstraints : Cert → Except ChainError (Option (Bool × Option Nat))
  /-- Whether the key usage, when present, holds `keyCertSign`. -/
  keyCertSign : Cert → Except ChainError (Option Bool)
  validity : Cert → Except ChainError (Nat × Nat)
  /-- Whether the extended key usage, when present, holds code signing. -/
  codeSigning : Cert → Except ChainError (Option Bool)
  verifySignatureBy : Cert → Key → Except ChainError Unit
  subjectCn : Cert → Except ChainError (Option Text)

namespace X509
variable {Cert Key : Type} (x : X509 Cert Key)

def isValidAt (cert : Cert) (now : Nat) : Except ChainError Bool := do
  let (notBefore, notAfter) ← x.validity cert
  pure (notBefore ≤ now && now ≤ notAfter)

def hasCodeSigningEku (cert : Cert) : Except ChainError Bool := do
  let eku ← x.codeSigning cert
  pure (eku.getD false)

def idsMatch : Option Bytes → Option Bytes → Bool
  | some a, some s => a == s
  | none, some _ => true
  | _, none => false

def isSelfSigned (cert : Cert) : Except ChainError Bool := do
  let aki ← x.aki cert
  let ski ← x.ski cert
  let vk ← x.subjectPublicKey cert
  if idsMatch aki ski then
    match x.verifySignatureBy cert vk with
    | .ok _ => pure true
    | .error _ => pure false
  else pure false

theorem key_of_selfSigned {cert : Cert} {r : Bool} (h : x.isSelfSigned cert = .ok r) :
    ∃ vk, x.subjectPublicKey cert = .ok vk := by
  obtain ⟨aki, -, h⟩ := bind_eq_ok.mp h
  obtain ⟨ski, -, h⟩ := bind_eq_ok.mp h
  obtain ⟨vk, hvk, -⟩ := bind_eq_ok.mp h
  exact ⟨vk, hvk⟩

/-- The certificate of the pool whose key identifier is asked for. -/
def parentOf (pool : List Cert) (aki : Bytes) : Option Cert :=
  pool.find? fun c => match x.ski c with
    | .ok (some s) => s == aki
    | _ => false

variable [DecidableEq Cert]

theorem fresh_lt {pool chain : List Cert} {aki : Bytes} {parent : Cert}
    (hp : x.parentOf pool aki = some parent) (hnew : parent ∉ chain) :
    (pool.filter (· ∉ chain ++ [parent])).length < (pool.filter (· ∉ chain)).length := by
  have hmem : parent ∈ pool := List.mem_of_find?_eq_some hp
  have hsub : pool.filter (· ∉ chain ++ [parent]) =
      (pool.filter (· ∉ chain)).filter (· ≠ parent) := by
    rw [List.filter_filter]
    refine List.filter_congr fun c _ => ?_
    simp [and_comm]
  rw [hsub]
  refine List.length_filter_lt_length_iff_exists.mpr ⟨parent, ?_, by simp⟩
  exact List.mem_filter.mpr ⟨hmem, by simpa using hnew⟩

def orderFrom (pool chain : List Cert) (cur : Cert) : Option (List Cert) :=
  match x.isSelfSigned cur with
  | .error _ => none
  | .ok true => some chain
  | .ok false =>
    match x.aki cur with
    | .ok (some aki) =>
      match _hp : x.parentOf pool aki with
      | none => none
      | some parent =>
        if _hnew : parent ∈ chain then none
        else orderFrom pool (chain ++ [parent]) parent
    | _ => none
termination_by (pool.filter (· ∉ chain)).length
decreasing_by exact x.fresh_lt _hp _hnew

def orderChainFrom (signer : Cert) (pool : List Cert) : Option (List Cert) :=
  x.orderFrom pool [signer] signer

end X509

variable {Cert Key D : Type} (x : X509 Cert Key)

/-- The link from a certificate to its issuer, `i` certificates from the signer. -/
def verifyLink (i : Nat) (cert issuer : Cert) : Except ChainError Unit := do
  let constraints ← x.caConstraints issuer
  let usage ← x.keyCertSign issuer
  match constraints, usage with
  | some (true, pathLen), some true =>
    if pathLen.any fun p => i > p then .error .pathLenExceeded
    else do
      let aki ← x.aki cert
      let ski ← if aki.isSome then x.ski issuer else pure none
      if aki ≠ none ∧ ski ≠ aki then .error .brokenChain
      else do
        let vk ← x.subjectPublicKey issuer
        x.verifySignatureBy cert vk
  | _, _ => .error .issuerNotCa

def verifyLinks (now : Nat) : Nat → List Cert → Except ChainError Unit
  | _, [] => .ok ()
  | i, cert :: rest => do
    let valid ← x.isValidAt cert now
    if valid = false then .error .expired
    else match rest with
      | [] => .ok ()
      | issuer :: _ => do
        verifyLink x i cert issuer
        verifyLinks now (i + 1) rest

def verifyChain [DecidableEq D] (sha256 : Bytes → D) (chain : List Cert) (rootAnchorFp : D)
    (now : Nat) : Except ChainError Unit :=
  match chain.head?, chain.getLast? with
  | some leaf, some root => do
    verifyLinks x now 0 chain
    let selfSigned ← x.isSelfSigned root
    if selfSigned = false then .error .noRootForIssuer
    else if sha256 (x.der root) ≠ rootAnchorFp then .error .noRootForIssuer
    else do
      let eku ← x.hasCodeSigningEku leaf
      if eku = false then .error .missingCodeSigningEku else .ok ()
  | _, _ => .error .empty

theorem rootKey_of_verifyChain [DecidableEq D] {sha256 : Bytes → D} {chain : List Cert}
    {rootAnchorFp : D} {now : Nat} {root : Cert}
    (h : verifyChain x sha256 chain rootAnchorFp now = .ok ())
    (hroot : chain.getLast? = some root) : ∃ vk, x.subjectPublicKey root = .ok vk := by
  unfold verifyChain at h
  rw [hroot] at h
  cases hh : chain.head? with
  | none => rw [hh] at h; exact nomatch h
  | some leaf =>
    rw [hh] at h
    obtain ⟨-, -, h⟩ := bind_eq_ok.mp h
    obtain ⟨selfSigned, hself, -⟩ := bind_eq_ok.mp h
    exact x.key_of_selfSigned hself

end NemesisBot.Verify

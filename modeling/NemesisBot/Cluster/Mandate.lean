import NemesisBot.Cluster.Trust
import NemesisBot.Lib.JsonText

/-! Mandates: what one node signs for a task of another node, and the gate that checks it. -/
namespace NemesisBot.Mandate
open Strings
open Trust (MandateKeyVerdict)

structure MandateTimeWindow where
  notBefore : UInt64
  expiresAt : UInt64

structure MandateBudget where
  maxTokens : UInt64
  maxToolCalls : UInt64

structure MandateBody where
  v : UInt32
  taskId : Text
  toolAllowlist : Option (List Text)
  timeWindow : MandateTimeWindow
  budget : MandateBudget
  signedAt : UInt64

structure MandateEnvelope where
  body : MandateBody
  sig : Text

structure MandateEnforcement where
  taskId : Text
  toolAllowlist : Option (List Text)
  expiresAt : UInt64
  maxTokens : UInt64
  maxToolCalls : UInt64

/-- The hash, the curve and the texts of the errors that come from other crates. -/
structure Crypto where
  SigningKey : Type
  VerifyingKey : Type
  sha256 : ByteArray → ByteArray
  verifyingKey : SigningKey → VerifyingKey
  p256Sign : SigningKey → ByteArray → List UInt8
  p256Verify : VerifyingKey → ByteArray → List UInt8 → Bool
  fromSec1Bytes : List UInt8 → Except Text VerifyingKey
  hexError : Text → Text
  serdeError : Json → Text

/-! The JSON forms. -/

def allowlistJson : Option (List Text) → Json
  | none => .null
  | some tools => .arr (tools.map .str)

def u64Json (n : UInt64) : Json := .nat n.toNat

/-- The fields in the order of their declaration. -/
def bodyFields (body : MandateBody) : Fields :=
  [("v".toList, .nat body.v.toNat),
    ("task_id".toList, .str body.taskId),
    ("tool_allowlist".toList, allowlistJson body.toolAllowlist),
    ("time_window".toList, .obj [("not_before".toList, u64Json body.timeWindow.notBefore),
      ("expires_at".toList, u64Json body.timeWindow.expiresAt)]),
    ("budget".toList, .obj [("max_tokens".toList, u64Json body.budget.maxTokens),
      ("max_tool_calls".toList, u64Json body.budget.maxToolCalls)]),
    ("signed_at".toList, u64Json body.signedAt)]

def canonicalText (body : MandateBody) : Text := (Json.obj (bodyFields body)).render

def canonicalBytes (body : MandateBody) : ByteArray :=
  (String.ofList (canonicalText body)).toUTF8

def mandateDigest (c : Crypto) (bytes : ByteArray) : ByteArray := c.sha256 bytes

/-- `serde_json::to_value`: the maps are sorted by key, the body is flattened. -/
def toValue (env : MandateEnvelope) : Json :=
  .object [("v".toList, .nat env.body.v.toNat),
    ("task_id".toList, .str env.body.taskId),
    ("tool_allowlist".toList, allowlistJson env.body.toolAllowlist),
    ("time_window".toList, .object [("not_before".toList, u64Json env.body.timeWindow.notBefore),
      ("expires_at".toList, u64Json env.body.timeWindow.expiresAt)]),
    ("budget".toList, .object [("max_tokens".toList, u64Json env.body.budget.maxTokens),
      ("max_tool_calls".toList, u64Json env.body.budget.maxToolCalls)]),
    ("signed_at".toList, u64Json env.body.signedAt),
    ("sig".toList, .str env.sig)]

def readU64 (v : Json) : Option UInt64 := v.asU64.map UInt64.ofNat

def readU32 (v : Json) : Option UInt32 :=
  (v.asU64.filter (· < 2 ^ 32)).map UInt32.ofNat

/-- A struct of two numbers is read from a map, or from a sequence in declaration order. -/
def readPair {β : Type} (first second : Text) (make : UInt64 → UInt64 → β) : Json → Option β
  | .obj fields => do
    let a ← (fields.lookup first).bind readU64
    let b ← (fields.lookup second).bind readU64
    return make a b
  | .arr [a, b] => do
    let a ← readU64 a
    let b ← readU64 b
    return make a b
  | _ => none

/-- A field that is missing is `None` all the same. -/
def readAllowlist : Option Json → Option (Option (List Text))
  | none => some none
  | some .null => some none
  | some (.arr items) => (items.mapM Json.asStr).map some
  | some _ => none

/-- `serde_json::from_value`; other fields are not looked at. -/
def readEnvelope (fields : Fields) : Option MandateEnvelope := do
  let sig ← (fields.lookup "sig".toList).bind Json.asStr
  let v ← (fields.lookup "v".toList).bind readU32
  let taskId ← (fields.lookup "task_id".toList).bind Json.asStr
  let toolAllowlist ← readAllowlist (fields.lookup "tool_allowlist".toList)
  let timeWindow ← (fields.lookup "time_window".toList).bind
    (readPair "not_before".toList "expires_at".toList MandateTimeWindow.mk)
  let budget ← (fields.lookup "budget".toList).bind
    (readPair "max_tokens".toList "max_tool_calls".toList MandateBudget.mk)
  let signedAt ← (fields.lookup "signed_at".toList).bind readU64
  return ⟨⟨v, taskId, toolAllowlist, timeWindow, budget, signedAt⟩, sig⟩

/-! Hexadecimal text. -/

def hexEncode (bytes : List UInt8) : Text :=
  bytes.flatMap fun b => [hexDigit (b.toNat / 16), hexDigit (b.toNat % 16)]

def hexDigitValue (c : Char) : Option Nat :=
  let n := c.toNat
  if 48 ≤ n ∧ n ≤ 57 then some (n - 48)
  else if 65 ≤ n ∧ n ≤ 70 then some (n - 55)
  else if 97 ≤ n ∧ n ≤ 102 then some (n - 87)
  else none

def hexDecode : Text → Option (List UInt8)
  | [] => some []
  | [_] => none
  | a :: b :: rest => do
    let high ← hexDigitValue a
    let low ← hexDigitValue b
    let bytes ← hexDecode rest
    return UInt8.ofNat (high * 16 + low) :: bytes

/-! Signing. -/

def clockSkewToleranceSecs : UInt64 := 60

def saturatingSub (a b : UInt64) : UInt64 := UInt64.ofNat (a.toNat - b.toNat)

def saturatingAdd (a b : UInt64) : UInt64 := UInt64.ofNat (min (a.toNat + b.toNat) (2 ^ 64 - 1))

def buildDefaultMandate (taskId : Text) (toolAllowlist : Option (List Text))
    (windowSecs maxTokens maxToolCalls signedAt : UInt64) : MandateBody where
  v := 1
  taskId := taskId
  toolAllowlist := toolAllowlist
  timeWindow := ⟨saturatingSub signedAt clockSkewToleranceSecs, saturatingAdd signedAt windowSecs⟩
  budget := ⟨maxTokens, maxToolCalls⟩
  signedAt := signedAt

def signMandate (c : Crypto) (body : MandateBody) (sk : c.SigningKey) : MandateEnvelope :=
  ⟨body, hexEncode (c.p256Sign sk (mandateDigest c (canonicalBytes body)))⟩

structure MandateSigner (c : Crypto) where
  key : c.SigningKey
  toolAllowlist : Option (List Text)
  windowSecs : UInt64
  maxTokens : UInt64
  maxToolCalls : UInt64

def MandateSigner.body {c : Crypto} (signer : MandateSigner c) (taskId : Text) (now : UInt64) :
    MandateBody :=
  buildDefaultMandate taskId signer.toolAllowlist signer.windowSecs signer.maxTokens
    signer.maxToolCalls now

def MandateSigner.signForTask {c : Crypto} (signer : MandateSigner c) (taskId : Text)
    (now : UInt64) : Json :=
  toValue (signMandate c (signer.body taskId now) signer.key)

/-! Verification. -/

inductive MandateViolation where
  | malformed (detail : Text)
  | revoked
  | noPinnedKey
  | trustBookUnreadable
  | badSignature
  | taskIdMismatch
  | notYetValid (notBefore now : UInt64)
  | expired (expiresAt now : UInt64)

def notAnObject : Text := "mandate 不是 JSON 对象".toList

def badSig : Text := "sig 非法（应 128 hex = 64B r||s）".toList

def mandateMissing : Text := "mandate 缺失（require 模式）".toList

def verifyingKeyFromHex (c : Crypto) (hexStr : Text) : Except Text c.VerifyingKey :=
  match hexDecode (trim hexStr) with
  | none => .error ("mandate 公钥 hex 非法: ".toList ++ c.hexError (trim hexStr))
  | some bytes =>
    if bytes.length ≠ 65 ∧ bytes.length ≠ 33 then
      .error ("mandate 公钥长度 ".toList ++ Nat.toDigits 10 bytes.length ++
        "B ≠ 65/33B（SEC1 uncompressed/compressed）".toList)
    else match c.fromSec1Bytes bytes with
      | .ok vk => .ok vk
      | .error e => .error ("mandate 公钥非法: ".toList ++ e)

def parseEnvelope (c : Crypto) (value : Json) : Except MandateViolation MandateEnvelope :=
  match value with
  | .obj fields => match readEnvelope fields with
    | none => .error (.malformed ("字段形态: ".toList ++ c.serdeError value))
    | some env =>
      if env.body.v ≠ 1 then
        .error (.malformed ("未知协议版本 v=".toList ++ Nat.toDigits 10 env.body.v.toNat))
      else .ok env
  | _ => .error (.malformed notAnObject)

def verifyMandate (c : Crypto) (env : MandateEnvelope) (expectedTaskId : Text) (now : UInt64)
    (pinnedPubkeyHex : Text) : Except MandateViolation MandateBody :=
  match (hexDecode (trim env.sig)).filter fun bytes => bytes.length = 64 with
  | none => .error (.malformed badSig)
  | some sig => match verifyingKeyFromHex c pinnedPubkeyHex with
    | .error e => .error (.malformed e)
    | .ok vk =>
      let digest := mandateDigest c (canonicalBytes env.body)
      if c.p256Verify vk digest sig = false then .error .badSignature
      else if env.body.taskId ≠ expectedTaskId then .error .taskIdMismatch
      else if now < env.body.timeWindow.notBefore then
        .error (.notYetValid env.body.timeWindow.notBefore now)
      else if env.body.timeWindow.expiresAt ≤ now then
        .error (.expired env.body.timeWindow.expiresAt now)
      else .ok env.body

/-- The trust book of the workspace and the lower casing it uses. -/
structure Workspace where
  trustBook : Trust.Disk
  toLowercase : Text → Text

def Workspace.mandateKeyState (ws : Workspace) (nodeId : Text) : MandateKeyVerdict :=
  Trust.mandateKeyState ws.toLowercase ws.trustBook nodeId

def verifyMandateFull (c : Crypto) (workspace : Workspace) (sourceNodeId : Text)
    (mandateValue : Json) (expectedTaskId : Text) (now : UInt64) :
    Except MandateViolation MandateBody :=
  match workspace.mandateKeyState sourceNodeId with
  | .revoked => .error .revoked
  | .absent => .error .noPinnedKey
  | .bookUnreadable => .error .trustBookUnreadable
  | .pinned k => do
    let env ← parseEnvelope c mandateValue
    verifyMandate c env expectedTaskId now k

def enforcementFromBody (body : MandateBody) : MandateEnforcement :=
  ⟨body.taskId, body.toolAllowlist, body.timeWindow.expiresAt, body.budget.maxTokens,
    body.budget.maxToolCalls⟩

inductive MandateMode where
  | off
  | verify
  | require
  deriving DecidableEq

structure MandatePolicy where
  workspace : Workspace
  mode : MandateMode

/-- Without a mandate only the strict mode refuses. -/
def MandatePolicy.missing (policy : MandatePolicy) :
    Except MandateViolation (Option MandateEnforcement) :=
  if policy.mode = .require then .error (.malformed mandateMissing)
  else .ok none

def MandatePolicy.check (c : Crypto) (policy : MandatePolicy) (sourceNodeId : Text)
    (payload : Json) (taskId : Text) (now : UInt64) :
    Except MandateViolation (Option MandateEnforcement) :=
  if policy.mode = .off then .ok none
  else match payload.get "mandate".toList with
    | none => policy.missing
    | some .null => policy.missing
    | some mandateValue =>
      match verifyMandateFull c policy.workspace sourceNodeId mandateValue taskId now with
      | .ok body => .ok (some (enforcementFromBody body))
      | .error .noPinnedKey =>
        if policy.mode = .verify then .ok none else .error .noPinnedKey
      | .error e => .error e

end NemesisBot.Mandate

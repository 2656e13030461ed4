import NemesisBot.Security.Matcher

/-! The decision of the security auditor: self-destruct protection, the editor switch, and
the rule passes. -/
namespace NemesisBot.Auditor
open NemesisBot.Strings NemesisBot.Command NemesisBot.Matcher

inductive OperationType where
  | fileRead | fileWrite | fileDelete
  | dirRead | dirCreate | dirDelete
  | processExec | processSpawn | processKill | processSuspend
  | networkDownload | networkUpload | networkRequest
  | hardwareI2C | hardwareSPI | hardwareGPIO
  | systemShutdown | systemReboot | systemConfig | systemService | systemInstall
  | registryRead | registryWrite | registryDelete
  | internal
  | ziwei
  deriving DecidableEq, Repr

inductive SecurityDecision where
  | allowed
  | denied
  | requireApproval
  deriving DecidableEq, Repr

/-- How permissive a decision is. -/
def SecurityDecision.rank : SecurityDecision → Nat
  | .denied => 0
  | .requireApproval => 1
  | .allowed => 2

structure SecurityRule where
  pattern : Text
  action : String
  deriving DecidableEq

structure OperationRequest where
  opType : OperationType
  target : Text
  forceApproval : Option Text

/-- The triple that an evaluation returns. -/
structure Verdict where
  decision : SecurityDecision
  reason : Text
  policy : Text
  deriving DecidableEq

/-- The part of the auditor that an evaluation reads. The editor switch is known by its
answers: a verdict, or none to fall back to the rules. -/
structure SecurityAuditor where
  rules : OperationType → Option (List SecurityRule)
  protectedPaths : List Text
  selfDestructExempt : Text
  editorAccess : Option (OperationType → Text → Option Verdict)
  execUnknownPolicy : String
  defaultAction : String

def OperationType.isCommandOp : OperationType → Bool
  | .processExec | .processSpawn | .processKill | .processSuspend => true
  | _ => false

/-- The operations whose target is a command line. -/
def OperationType.isExec : OperationType → Bool
  | .processExec | .processSpawn => true
  | _ => false

def normalizeDecision (action : String) : SecurityDecision :=
  if action = "allow" ∨ action = "allowed" then .allowed
  else if action = "deny" ∨ action = "denied" then .denied
  else if action = "ask" ∨ action = "require_approval" then .requireApproval
  else .denied

def actionBucket (action : String) : Bucket :=
  if action = "deny" ∨ action = "denied" then .deny
  else if action = "ask" ∨ action = "require_approval" ∨ action = "approval" ∨
    action = "pending" then .ask
  else if action = "allow" ∨ action = "allowed" then .allow
  else .deny

/-! Self-destruct protection. -/

def destructiveBins : List Text :=
  ["rm", "del", "rd", "erase", "rmdir", "deltree", "rimraf", "remove-item"].map String.toList

def commandBoundaries : List Text := ["&&", ";", "||", "|", "&"].map String.toList

def trimEndSlashes (s : Text) : Text := (s.reverse.dropWhile (· == '/')).reverse

/-- `path` lies strictly below `root`. -/
def strictlyBelow (root path : Text) : Bool :=
  decide (root <+: path) && (path.drop root.length).head? == some '/'

/-- The closure `is_hit`. -/
def isHit (protectedPaths : List Text) (exempt t : Text) : Bool :=
  if t = ['/'] ∨ t = ['\\'] then true
  else if t.head? = some '-' then false
  else if t.head? = some '/' ∧ t.length ≤ 2 then false
  else
    let tt := trimEndSlashes (normalizePath t)
    if tt = [] then true
    else tt = ['.'] || tt = ['.', '.'] || tt = ['*'] || tt = ".git".toList ||
      t.head? == some '~' || protectedPaths.any fun p =>
        let p := trimEndSlashes p
        if exempt ≠ [] ∧ strictlyBelow exempt tt then false
        else p == tt || strictlyBelow tt p || strictlyBelow p tt

def isRecursiveFlag (t : Text) : Bool :=
  (t.head? == some '-' && t.contains 'r') ||
    (t.head? == some '/' && t.length == 2 && t.getLast? == some 's')

def selfDestructFrom (protectedPaths : List Text) (exempt : Text) : List Text → Option Text
  | [] => none
  | token :: later =>
    let window := later.takeWhile fun t => !commandBoundaries.contains t
    let target := window.find? (isHit protectedPaths exempt)
    if destructiveBins.contains (binKey token) && window.any isRecursiveFlag && target.isSome then
      target.map fun t => "self-destruct protection: recursive delete targeting `".toList ++ t ++
        "` (protected path / bot home / workspace root)".toList
    else selfDestructFrom protectedPaths exempt later

def detectSelfDestruct (normalized : Text) (protectedPaths : List Text) (exempt : Text) :
    Option Text :=
  selfDestructFrom protectedPaths exempt (splitSpaces normalized)

/-! The evaluation. -/

variable (p : Platform) (auditor : SecurityAuditor) (req : OperationRequest)

def SecurityAuditor.opRules (op : OperationType) : List SecurityRule :=
  (auditor.rules op).getD []

def matchTarget : Text :=
  if req.opType.isCommandOp then normalizeExecCommand p req.target else req.target

def ruleMatches (bucket : Bucket) (rule : SecurityRule) : Bool :=
  match req.opType with
  | .fileRead | .fileWrite | .fileDelete | .dirRead | .dirCreate | .dirDelete
  | .registryRead | .registryWrite | .registryDelete => matchPathRule p rule.pattern req.target
  | .processExec | .processSpawn | .processKill | .processSuspend =>
    execRuleBucketMatch p bucket rule.pattern (matchTarget p req)
      (execRuleSegments p req.target)
  | .networkDownload | .networkUpload | .networkRequest =>
    matchDomainPattern p rule.pattern req.target
  | _ => rule.pattern == ['*'] || matchPathRule p rule.pattern req.target

def ruleLabel (i : Nat) : Text := "rule[".toList ++ (toString i).toList ++ "]".toList

def selfDestructPass : Option Verdict :=
  if req.opType.isExec ∧ auditor.protectedPaths ≠ [] then
    (detectSelfDestruct (matchTarget p req) auditor.protectedPaths
      auditor.selfDestructExempt).map fun reason => ⟨.denied, reason, "self_destruct".toList⟩
  else none

def editorPass : Option Verdict :=
  auditor.editorAccess.bind fun evaluate => evaluate req.opType req.target

/-- The first rule of the bucket that passes the test, with its index. -/
def firstRule (rules : List SecurityRule) (want : Bucket) (test : SecurityRule → Bool) :
    Option (SecurityRule × Nat) :=
  rules.zipIdx.find? fun (rule, _) => actionBucket rule.action = want && test rule

/-- The deny and the ask pass. -/
def rulePass (rules : List SecurityRule) (want : Bucket) : Option Verdict :=
  (firstRule rules want (ruleMatches p req want)).map fun (rule, i) =>
    ⟨normalizeDecision rule.action, "rule matched: pattern=".toList ++ rule.pattern, ruleLabel i⟩

def dangerousStructures : List Text :=
  ["shutil.rmtree", "rmsync", "rmdirsync", "removedirectory", "deltree"].map String.toList

def payloadRule (payload : Text) (rule : SecurityRule) : Bool :=
  globContains (p.toLowercase rule.pattern) payload

def payloadRulePass (rules : List SecurityRule) (payload : Text) (want : Bucket) :
    Option Verdict :=
  (firstRule rules want (payloadRule p payload)).map fun (rule, i) =>
    ⟨normalizeDecision rule.action, "interpreter payload matched rule: pattern=".toList ++
      rule.pattern ++ " (inner of wrapper)".toList, ruleLabel i ++ ":interpreter_inner".toList⟩

def structurePass (payload : Text) : Option Verdict :=
  (dangerousStructures.find? fun s => decide (s <:+: payload)).map fun s =>
    ⟨.requireApproval, "interpreter payload contains dangerous structure `".toList ++ s ++
      "` (需要人工确认)".toList, "interpreter_structure".toList⟩

/-- One turn of the payload loop. -/
def payloadVerdict (rules : List SecurityRule) (payload : Text) : Option Verdict :=
  payloadRulePass p rules payload .deny <|> payloadRulePass p rules payload .ask <|>
    structurePass payload

def payloads : List Text :=
  if req.opType = .processExec then extractInterpreterPayloads (matchTarget p req) else []

def payloadPass (rules : List SecurityRule) : Option Verdict :=
  (payloads p req).findSome? (payloadVerdict p rules)

def allowPass (rules : List SecurityRule) : Option Verdict :=
  (firstRule rules .allow (ruleMatches p req .allow)).map fun (rule, i) =>
    let flags := scanDangerousFlags (execRuleSegments p req.target)
    if req.opType.isExec ∧ flags ≠ [] then
      ⟨.requireApproval, "sensitive flag_hit=".toList ++ join [','] flags ++
        " behind allow rule `".toList ++ rule.pattern ++ "` (需要重新确认)".toList,
        "sensitive_flag".toList⟩
    else ⟨normalizeDecision rule.action, "rule matched: pattern=".toList ++ rule.pattern,
      ruleLabel i⟩

/-- No rule matched an exec or spawn. An unset policy falls through to the default. -/
def unknownPolicyPass : Option Verdict :=
  let verdict := fun decision : SecurityDecision => some (Verdict.mk decision
    ("unknown command (no rule matched), exec_unknown_policy=".toList ++
      auditor.execUnknownPolicy.toList) "exec_unknown_policy".toList)
  if req.opType.isExec then
    if auditor.execUnknownPolicy = "ask" then verdict .requireApproval
    else if auditor.execUnknownPolicy = "deny" then verdict .denied
    else if auditor.execUnknownPolicy = "allow" then verdict .allowed
    else none
  else none

def defaultVerdict : Verdict :=
  ⟨normalizeDecision auditor.defaultAction, "no rules matched, using default action".toList,
    "default".toList⟩

def evaluateRequestInner : Verdict :=
  let rules := auditor.opRules req.opType
  (selfDestructPass p auditor req <|> editorPass auditor req <|>
    rulePass p req rules .deny <|> rulePass p req rules .ask <|>
    payloadPass p req rules <|> allowPass p req rules <|>
    unknownPolicyPass auditor req).getD (defaultVerdict auditor)

/-- A scan hit asks for approval of whatever was not denied. -/
def evaluateRequest : Verdict :=
  let inner := evaluateRequestInner p auditor req
  match req.forceApproval.map trim with
  | some reason =>
    if inner.decision ≠ .denied ∧ reason ≠ [] then
      ⟨.requireApproval, reason, "preexec_scan".toList⟩
    else inner
  | none => inner

end NemesisBot.Auditor

import NemesisBot.Lib.ThreeColour
import NemesisBot.Lib.Json

/-! The parser of plans: the strict one, and the lenient one of the last round, which drops what
it cannot use. -/
namespace NemesisBot.Board
open Strings ThreeColour

def maxSubissues : Nat := 20

structure PlannedSubIssue where
  title : Text
  description : Text
  requiredRole : Text
  requiredTags : List Text
  requiredProfession : Text
  requiredBackend : Text
  requiredCapabilities : List Text
  acceptanceCriteria : Text
  dependsOn : List Nat
  deriving DecidableEq

structure PlanParseError where
  message : Text
  deriving DecidableEq

/-- Why a parser stops. It crashes on an index out of bounds, or without end. -/
inductive Stop where
  | refused (error : PlanParseError)
  | crashed
  deriving DecidableEq

abbrev Checked := Except Stop

def refuse {β : Type} (message : Text) : Checked β := .error (.refused ⟨message⟩)

def decimal (n : Nat) : Text := Nat.toDigits 10 n

/-- The number of the sub-issue at the front of a message. -/
def subIssueAt (index : Nat) : Text := "第 ".toList ++ decimal index ++ " 个子任务的 ".toList

/-- From the first opening bracket to the last closing one. -/
def extractJsonArray (raw : Text) : Option Text :=
  let array := ((raw.dropWhile (· ≠ '[')).reverse.dropWhile (· ≠ ']')).reverse
  if array = [] then none else some array

/-! The checks of one sub-issue. -/

inductive SlugError where
  | empty
  | tooLong
  | malformed

def SlugError.text : SlugError → Text
  | .empty => "职能 slug 为空".toList
  | .tooLong => "职能 slug 超过 64 字符".toList
  | .malformed =>
    "职能 slug 形态非法（要求 family[:spec]，小写字母/数字/下划线/连字符）".toList

def validSegment (s : Text) : Bool :=
  s ≠ [] && s.all fun c => c.isLower || c.isDigit || c == '_' || c == '-'

def validateSlug (slug : Text) : Except SlugError Unit :=
  if slug = [] then .error .empty
  else if byteLen slug > 64 then .error .tooLong
  else match splitOnce [':'] slug with
    | none => if validSegment slug then .ok () else .error .malformed
    | some (family, spec) =>
      if validSegment family && validSegment spec then .ok () else .error .malformed

def professionFormatError (index : Nat) (raw : Text) : Option PlanParseError :=
  if trim raw = [] then none
  else match validateSlug (trim raw) with
    | .ok () => none
    | .error e => some ⟨subIssueAt index ++ "required_profession=\"".toList ++ trim raw ++
        "\" 格式非法：".toList ++ e.text ++
        "。职能 slug 形如 dev、dev:cpp（小写字母/数字/连字符/下划线，至多一个冒号分段）；无职能需求填空串。".toList⟩

def backendFormatError (index : Nat) (normalized : Text) : Option PlanParseError :=
  if normalized = [] ∨ normalized = "process".toList ∨ normalized = "vm".toList then none
  else some ⟨subIssueAt index ++ "required_backend=\"".toList ++ normalized ++
    "\" 非法。值域为 process（常规进程执行）或 vm（虚拟机执行，任务需浏览器/GUI 等隔离环境）；无后端需求填空串。".toList⟩

/-- A capability is one short word. -/
def capabilityMalformed (cap : Text) : Bool :=
  trim cap = [] || (trim cap).any isWhitespace || (trim cap).length > 64

def capabilitiesFormatError (index : Nat) (caps : List Text) : Option PlanParseError :=
  (caps.find? capabilityMalformed).map fun cap =>
    ⟨subIssueAt index ++ "required_capabilities 含非法项 \"".toList ++ cap ++
      "\"。能力词必须是非空单段短词（如 chrome、docker，不含空格）；无能力需求用空数组。".toList⟩

def orRefuse : Option PlanParseError → Checked Unit
  | none => .ok ()
  | some error => .error (.refused error)

def checkTitle (index : Nat) (sub : PlannedSubIssue) : Checked Unit :=
  if trim sub.title = [] then
    refuse (subIssueAt index ++ "title 为空。每个子任务都必须有非空标题。".toList)
  else .ok ()

/-- The range of the dependencies, and that none is the sub-issue itself. -/
def checkDepends (total index : Nat) : List Nat → Checked Unit
  | [] => .ok ()
  | dep :: deps =>
    if dep ≥ total then
      refuse (subIssueAt index ++ "depends_on 引用了序号 ".toList ++ decimal dep ++
        "，但本批只有 ".toList ++ decimal total ++ " 个子任务（序号 0-".toList ++
        decimal (total - 1) ++ "）。".toList)
    else if dep = index then
      refuse (subIssueAt index ++ "depends_on 包含自身（".toList ++ decimal dep ++
        "），不允许自引用。".toList)
    else checkDepends total index deps

def normalizeBackend (raw : Text) : Text := (trim raw).map Char.toLower

/-- The backend in lower case, if there is one. -/
def strictBackend (index : Nat) (raw : Text) : Checked Text :=
  if trim raw = [] then .ok raw
  else (orRefuse (backendFormatError index (normalizeBackend raw))).map fun _ =>
    normalizeBackend raw

def checkSub (total index : Nat) (sub : PlannedSubIssue) : Checked PlannedSubIssue := do
  checkTitle index sub
  let backend ← strictBackend index sub.requiredBackend
  orRefuse (professionFormatError index sub.requiredProfession)
  orRefuse (capabilitiesFormatError index sub.requiredCapabilities)
  checkDepends total index sub.dependsOn
  return { sub with requiredBackend := backend }

/-- The sub-issues in turn, the first one with this number. -/
def checkSubs (total : Nat) : Nat → List PlannedSubIssue → Checked (List PlannedSubIssue)
  | _, [] => .ok []
  | index, sub :: subs => do
    let sub ← checkSub total index sub
    let subs ← checkSubs total (index + 1) subs
    return sub :: subs

/-- An unknown backend is dropped. -/
def lenientBackend (raw : Text) : Text :=
  if trim raw = [] then raw
  else if normalizeBackend raw = "process".toList ∨ normalizeBackend raw = "vm".toList then
    normalizeBackend raw
  else []

/-- A malformed profession is dropped and noted. -/
def lenientSub (total index : Nat) (sub : PlannedSubIssue) :
    Checked (PlannedSubIssue × List (Nat × Text)) := do
  checkTitle index sub
  checkDepends total index sub.dependsOn
  let dropped := (professionFormatError index sub.requiredProfession).isSome
  return ({ sub with
    requiredProfession := if dropped then [] else sub.requiredProfession
    requiredBackend := lenientBackend sub.requiredBackend
    requiredCapabilities := sub.requiredCapabilities.filter fun cap =>
      trim cap ≠ [] && !(trim cap).any isWhitespace && (trim cap).length ≤ 64 },
    if dropped then [(index, sub.requiredProfession)] else [])

def lenientSubs (total : Nat) : Nat → List PlannedSubIssue →
    Checked (List PlannedSubIssue × List (Nat × Text))
  | _, [] => .ok ([], [])
  | index, sub :: subs => do
    let (sub, dropped) ← lenientSub total index sub
    let (subs, later) ← lenientSubs total (index + 1) subs
    return (sub :: subs, dropped ++ later)

/-! The checks of the whole plan. -/

/-- The dependencies of a sub-issue, by its number. -/
def dependencies (plan : List PlannedSubIssue) (index : Nat) : Option (List Nat) :=
  plan[index]?.map PlannedSubIssue.dependsOn

def cycleStop : Failure Nat → Stop
  | .cycle members => .refused ⟨"depends_on 存在循环依赖：".toList ++
      join " -> ".toList (members.map decimal) ++ "。请打断环路后重新输出。".toList⟩
  | .outOfBounds => .crashed
  | .outOfFuel => .crashed

def detectCycle (plan : List PlannedSubIssue) : Checked Unit :=
  match visitAll (visit (dependencies plan) (plan.length + 1)) (List.range plan.length)
      Marks.fresh with
  | .ok _ => .ok ()
  | .error e => .error (cycleStop e)

/-- The pieces between line breaks, without the last one if it is empty. -/
def lines (s : Text) : List Text :=
  let pieces := (s.splitOn '\n').map fun line => (stripSuffix ['\r'] line).getD line
  if pieces.getLast? = some [] then pieces.dropLast else pieces

def parseTouchPaths (acceptanceCriteria : Text) : List Text :=
  (lines acceptanceCriteria).foldl (fun out line =>
    let t := trim line
    if "[TOUCH]".toList <+: t then
      let path := trim (t.drop "[TOUCH]".length)
      if path ≠ [] && !out.contains path then out ++ [path] else out
    else out) []

/-- The paths in order, with the numbers of the sub-issues that write them. -/
def touchOwners (plan : List PlannedSubIssue) : List (Text × List Nat) :=
  plan.zipIdx.foldl (fun owners entry =>
    (parseTouchPaths entry.1.acceptanceCriteria).foldl (fun owners path =>
      insertSorted path ((owners.lookup path).getD [] ++ [entry.2]) owners) owners) []

def hasEdge (plan : List PlannedSubIssue) (a b : Nat) : Bool :=
  ((dependencies plan a).getD []).contains b || ((dependencies plan b).getD []).contains a

/-- The pairs of writers of one path with no edge between them. -/
def touchViolations (plan : List PlannedSubIssue) (path : Text) : List Nat → List Text
  | [] => []
  | a :: later => (later.filter fun b => !hasEdge plan a b).map (fun b =>
      "第 ".toList ++ decimal a ++ " 和第 ".toList ++ decimal b ++ " 个子任务都声明写「".toList ++
      path ++ "」但没有依赖边（并行执行会在合并时冲突）".toList) ++
    touchViolations plan path later

def analyzeSharedTouch (plan : List PlannedSubIssue) : Checked Unit :=
  let violations := (touchOwners plan).flatMap fun entry =>
    touchViolations plan entry.1 entry.2
  if violations = [] then .ok ()
  else refuse ("共享文件冲突：".toList ++ join "；".toList violations ++
    "。请修正后重新输出：给冲突双方之一加 depends_on 串行化、或合并为一个子任务、或修正 [TOUCH] 声明使其准确反映各自实际写入范围。".toList)

/-! The parsers. -/

/-- What reads the text of an array, or says what is wrong with it. -/
abbrev Reader := Text → Except Text (List PlannedSubIssue)

def readPlan (reader : Reader) (raw : Text) : Checked (List PlannedSubIssue) :=
  match extractJsonArray raw with
  | none => refuse "输出中找不到 JSON 数组（应以 '[' 开头、']' 结尾）。请只输出 JSON 数组本身。".toList
  | some json => match reader json with
    | .error e => refuse ("JSON 解析失败：".toList ++ e ++
        "。请检查引号/逗号/字段类型，只输出 JSON 数组。".toList)
    | .ok plan => .ok plan

def checkCount (plan : List PlannedSubIssue) : Checked Unit :=
  if plan = [] then refuse "拆解结果为空数组。请至少拆解出 1 个子任务。".toList
  else if plan.length > maxSubissues then
    refuse ("子任务数量 ".toList ++ decimal plan.length ++ " 超过上限 ".toList ++
      decimal maxSubissues ++ "。请合并粒度、减少数量后重新输出。".toList)
  else .ok ()

/-- What the strict parser checks, and the plan with its backends in lower case. -/
def checkPlan (plan : List PlannedSubIssue) : Checked (List PlannedSubIssue) := do
  checkCount plan
  let plan ← checkSubs plan.length 0 plan
  detectCycle plan
  analyzeSharedTouch plan
  return plan

def parsePlan (reader : Reader) (raw : Text) : Checked (List PlannedSubIssue) := do
  let plan ← readPlan reader raw
  checkPlan plan

structure LenientPlan where
  plan : List PlannedSubIssue
  downgraded : List (Nat × Text)
  deriving DecidableEq

def parsePlanLenient (reader : Reader) (raw : Text) : Checked LenientPlan := do
  let plan ← readPlan reader raw
  checkCount plan
  let (plan, downgraded) ← lenientSubs plan.length 0 plan
  detectCycle plan
  analyzeSharedTouch plan
  return ⟨plan, downgraded⟩

end NemesisBot.Board

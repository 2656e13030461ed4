import NemesisBot.Lib.Longest
import NemesisBot.Lib.Strings

/-! Who is called by a message: the mentions that it holds, the plan that the master makes of
them, and the check with which a worker finds itself called. -/
namespace NemesisBot.Arbitrator
open Strings Longest

/-- The tables of Unicode that the arbitrator asks. -/
structure Unicode where
  toLowercase : Text → Text
  isAlphanumeric : Char → Bool

structure NodeCandidate where
  id : Text
  name : Text
  role : Text
  category : Text
  online : Bool
  deriving DecidableEq

structure WakeInput where
  threadKind : Text
  content : Text
  senderId : Text
  issueAssignee : Option Text

inductive Reason where
  | offline
  | sender
  | notFound
  | noAssignee
  deriving DecidableEq, Repr

structure SkipRecord where
  nodeId : Text
  reason : Reason
  deriving DecidableEq, Repr

structure WakePlan where
  targets : List Text
  skipped : List SkipRecord
  toModerator : Bool
  deriving DecidableEq, Repr

def WakePlan.default : WakePlan := ⟨[], [], false⟩

def WakePlan.skip (plan : WakePlan) (nodeId : Text) (reason : Reason) : WakePlan :=
  { plan with skipped := plan.skipped ++ [⟨nodeId, reason⟩] }

def channel : Text := "channel".toList

def toAsciiLowercase (s : Text) : Text := s.map Char.toLower

/-- These end a plain mention. -/
def endsToken (c : Char) : Bool :=
  isWhitespace c || ['，', '。', '、', ',', ';', '!', '?', '.'].contains c

def stripRole (token : Text) : Option Text :=
  if "role:".toList <+: token then some (token.drop 5) else none

section
variable (u : Unicode)

def wordChar (c : Char) : Bool := u.isAlphanumeric c || c == '_'

/-- What stands behind the at signs that have no letter, digit or underscore in front. -/
def openings (prev : Option Char) : Text → List Text
  | [] => []
  | c :: rest =>
    if c = '@' ∧ ¬ prev.any (wordChar u) then rest :: openings (some c) rest
    else openings (some c) rest

/-- The name stands at the front, in any case of its letters, and ends there. -/
def bites (rest name : Text) : Bool :=
  decide (toAsciiLowercase name <+: toAsciiLowercase rest) &&
    !(rest.drop name.length).head?.any (wordChar u)

/-- The longest name of the roster that stands at the front. -/
def rosterHit (names : List Text) (rest : Text) : Option Text :=
  longest List.length (bites u rest) (names.filter (· ≠ []))

def mentionAt (names : List Text) (rest : Text) : Option Text :=
  match rosterHit u names rest with
  | some name => some name
  | none =>
    let token := rest.takeWhile fun c => !endsToken c
    if token = [] then none else some token

def extractMentionsWithRoster (content : Text) (names : List Text) : List Text :=
  (openings u none content).filterMap (mentionAt u names)

/-- The token calls the node: by its role or category, as one of all, or by its own names. -/
def calls (token id name role category : Text) : Bool :=
  match stripRole token with
  | some want =>
    let want := u.toLowercase want
    want ≠ [] && (u.toLowercase role = want || u.toLowercase category = want)
  | none =>
    let token := u.toLowercase token
    token = "all".toList || token = u.toLowercase id || token = u.toLowercase name

def mentionsNode (content id name role category : Text) : Bool :=
  (extractMentionsWithRoster u content [id, name]).any fun token =>
    calls u token id name role category

def pushTargetOrSkip (senderId : Text) (plan : WakePlan) (node : NodeCandidate) : WakePlan :=
  if node.id ∈ plan.targets ∨ node.id ∈ plan.skipped.map SkipRecord.nodeId then plan
  else if node.id = senderId then plan.skip node.id .sender
  else if node.online then { plan with targets := plan.targets ++ [node.id] }
  else plan.skip node.id .offline

/-- One token of the message. -/
def resolveToken (nodes : List NodeCandidate) (senderId : Text) (plan : WakePlan)
    (token : Text) : WakePlan :=
  match stripRole token with
  | some want =>
    let want := u.toLowercase want
    let called := nodes.filter fun n => u.toLowercase n.role = want || u.toLowercase n.category = want
    if want = [] then plan.skip ('@' :: token) .notFound
    else if called = [] then plan.skip ('@' :: token) .notFound
    else called.foldl (pushTargetOrSkip senderId) plan
  | none =>
    if u.toLowercase token = "all".toList then nodes.foldl (pushTargetOrSkip senderId) plan
    else
      let lower := u.toLowercase token
      match nodes.find? fun n => u.toLowercase n.id = lower || u.toLowercase n.name = lower with
      | some node => pushTargetOrSkip senderId plan node
      | none => plan.skip ('@' :: token) .notFound

/-- A message without mentions goes to the moderator or to the assignee of its issue. -/
def resolveUnaddressed (input : WakeInput) (nodes : List NodeCandidate) : WakePlan :=
  let plan := WakePlan.default
  if input.threadKind = channel then { plan with toModerator := true }
  else match input.issueAssignee.filter (· ≠ []) with
    | none => plan.skip "(issue)".toList .noAssignee
    | some assignee => match nodes.find? fun n => n.id = assignee with
      | none => plan.skip assignee .notFound
      | some node =>
        if node.id = input.senderId then plan.skip assignee .sender
        else if node.online then { plan with targets := [assignee] }
        else plan.skip assignee .offline

def roster (nodes : List NodeCandidate) : List Text := nodes.flatMap fun n => [n.id, n.name]

def mentions (input : WakeInput) (nodes : List NodeCandidate) : List Text :=
  extractMentionsWithRoster u input.content (roster nodes)

def resolveWakeTargets (input : WakeInput) (nodes : List NodeCandidate) : WakePlan :=
  if mentions u input nodes = [] then resolveUnaddressed input nodes
  else (mentions u input nodes).foldl (resolveToken u nodes input.senderId) WakePlan.default

/-- The token calls the node of the table. -/
def Called (token : Text) (n : NodeCandidate) : Prop :=
  calls u token n.id n.name n.role n.category = true

instance (token : Text) (n : NodeCandidate) : Decidable (Called u token n) :=
  inferInstanceAs (Decidable (_ = true))

end

/-! How the longest name of the roster is found. -/

section
variable {u : Unicode} {names ns ms : List Text} {rest name : Text}

theorem rosterHit_append (ns ms : List Text) (rest : Text) : rosterHit u (ns ++ ms) rest =
    better List.length (rosterHit u ns rest) (rosterHit u ms rest) := by
  rw [rosterHit, List.filter_append, longest_append]
  rfl

theorem rosterHit_mem (h : rosterHit u names rest = some name) :
    name ∈ names ∧ name ≠ [] ∧ bites u rest name = true := by
  obtain ⟨hmem, hbites⟩ := longest_mem h
  obtain ⟨hmem, hne⟩ := List.mem_filter.mp hmem
  exact ⟨hmem, by simpa using hne, hbites⟩

theorem rosterHit_max (hmem : name ∈ names) (hne : name ≠ []) (hbites : bites u rest name = true) :
    ∃ best, rosterHit u names rest = some best ∧ name.length ≤ best.length :=
  longest_max (List.mem_filter.mpr ⟨hmem, by simpa using hne⟩) hbites

theorem rosterHit_subset (hsub : ∀ n ∈ ms, n ∈ ns) (h : rosterHit u ns rest = none) :
    rosterHit u ms rest = none := by
  rw [rosterHit, longest_eq_none_iff] at h ⊢
  intro n hn
  obtain ⟨hn, hne⟩ := List.mem_filter.mp hn
  exact h n (List.mem_filter.mpr ⟨hsub n hn, hne⟩)

/-- Names that differ in case only bite alike. -/
theorem bites_congr {other : Text} (h : toAsciiLowercase name = toAsciiLowercase other) :
    bites u rest name = bites u rest other := by
  have hlen : name.length = other.length := by
    simpa [toAsciiLowercase] using congrArg List.length h
  rw [bites, bites, h, hlen]

end

end NemesisBot.Arbitrator

import NemesisBot.Providers.Cooldown
import NemesisBot.Lib.Runs

/-! The fallback chain: requests that try the levels of a chain in turn, next to each other, with
one cooldown tracker between them. -/
namespace NemesisBot.Failover
open Strings Runs

inductive FailoverError where
  | auth (provider model : Text) (status : Nat)
  | rateLimit (provider model : Text) (retryAfter : Option Nat)
  | billing (provider : Text)
  | timeout (provider model : Text)
  | streamInterrupted (provider model reason partialContent : Text) (hasPartialToolCalls : Bool)
  | format (provider message : Text)
  | overloaded (provider : Text) (status : Nat)
  | unknown (provider message : Text)
  deriving DecidableEq

namespace FailoverError

def isRetriable : FailoverError → Bool
  | .rateLimit _ _ _ | .timeout _ _ | .streamInterrupted _ _ _ _ _ | .overloaded _ _ => true
  | .unknown _ message => "connect error".toList.isPrefixOf message
  | .auth _ _ _ | .billing _ | .format _ _ => false

def reason : FailoverError → FailoverReason
  | .auth _ _ _ => .auth
  | .rateLimit _ _ _ => .rateLimit
  | .billing _ => .billing
  | .timeout _ _ | .streamInterrupted _ _ _ _ _ => .timeout
  | .format _ _ => .format
  | .overloaded _ _ => .overloaded
  | .unknown _ _ => .unknown

def retryAfterHint : FailoverError → Option Nat
  | .rateLimit _ _ (some secs) => some (fromSecs secs)
  | _ => none

def streamPartialSeparator : Text := "\n\n--- 以下为中断前已生成的部分内容 ---\n".toList

def streamToolCallsTruncatedMark : Text := "，工具调用已截断（不可拼接续写）".toList

/-- The text an error is displayed as. -/
def text : FailoverError → Text
  | .auth provider model status => "auth failure for provider ".toList ++ provider ++ '/' ::
      model ++ ": status ".toList ++ Nat.toDigits 10 status
  | .rateLimit provider model _ => "rate limited by provider ".toList ++ provider ++ '/' :: model
  | .billing provider => "billing issue with provider ".toList ++ provider
  | .timeout provider model => "timeout calling provider ".toList ++ provider ++ '/' :: model
  | .streamInterrupted provider model reason partialContent hasPartialToolCalls =>
    "stream interrupted from provider ".toList ++ provider ++ '/' :: model ++ ": ".toList ++
      reason ++ "（已接收 ".toList ++ Nat.toDigits 10 partialContent.length ++ " 字符".toList ++
      (if hasPartialToolCalls then streamToolCallsTruncatedMark else []) ++
      "，中断前部分文本随错误通知保留）\n\n".toList ++ streamPartialSeparator ++ partialContent
  | .format provider message => "format error from provider ".toList ++ provider ++ ": ".toList ++
      message
  | .overloaded provider status => "provider ".toList ++ provider ++
      " is overloaded (status: ".toList ++ Nat.toDigits 10 status ++ ")".toList
  | .unknown provider message => "unknown error from provider ".toList ++ provider ++
      ": ".toList ++ message

end FailoverError

/-- A level of the chain: its provider's name and its own model, which may be missing. -/
structure FallbackEntry where
  name : Text
  model : Text

def FallbackEntry.effectiveModel (entry : FallbackEntry) (model : Text) : Text :=
  if entry.model = [] then model else entry.model

def cooldownKey (entry : FallbackEntry) (effectiveModel : Text) : Text :=
  entry.name ++ ':' :: effectiveModel

def FallbackEntry.key (entry : FallbackEntry) (model : Text) : Text :=
  cooldownKey entry (entry.effectiveModel model)

structure FallbackProvider where
  chain : List FallbackEntry
  name : Text

structure FallbackAttempt where
  provider : Text
  model : Text
  error : Option Text
  success : Bool
  deriving DecidableEq

structure FallbackExhaustedError where
  chainName : Text
  providersAttempted : Nat
  totalProviders : Nat
  errors : List (Text × Text)
  deriving DecidableEq

variable {R : Type}

structure FallbackResult (R : Type) where
  response : Option R
  attempts : List FallbackAttempt
  exhaustedError : Option FallbackExhaustedError

/-- The two ways through the chain: `chat` and `execute_detailed`. -/
inductive Call where
  | chat
  | executeDetailed
  deriving DecidableEq

inductive Reply (R : Type) where
  | chat (result : Except FailoverError R)
  | detailed (result : FallbackResult R)

/-- A look at a level: when, and after which marks, the last one first. -/
structure Check where
  now : Nat
  past : List Mark

/-- What came of a level. -/
inductive Visit (R : Type) where
  | skipped (check : Check)
  | failed (check : Check) (now : Nat) (e : FailoverError)
  | answered (check : Check) (now : Nat) (response : R)

/-- A request at a level. `attempts` and `errors` are what `execute_detailed` collects, and
`lastError` what `chat` keeps; `visits` records every level. -/
structure Request (R : Type) where
  call : Call
  model : Text
  level : Nat
  calling : Option Check
  attempts : List FallbackAttempt
  errors : List (Text × Text)
  lastError : Option FailoverError
  reply : Option (Reply R)
  visits : List (Visit R)

namespace Request
variable (p : FallbackProvider)

def begin (call : Call) (model : Text) : Request R :=
  ⟨call, model, 0, none, [], [], none,
    if p.chain = [] then some (match call with
      | .chat => .chat (.error (.unknown p.name "no providers in fallback chain".toList))
      | .executeDetailed => .detailed ⟨none, [], some ⟨p.name, 0, 0, []⟩⟩)
    else none, []⟩

def exhausted (r : Request R) : FallbackExhaustedError :=
  ⟨p.name, r.errors.length, p.chain.length, r.errors⟩

/-- The chain ends without a response. -/
def exhaust (r : Request R) : Reply R :=
  match r.call with
  | .chat => .chat (.error (r.lastError.getD
      (.unknown p.name "all providers in fallback chain exhausted".toList)))
  | .executeDetailed => .detailed ⟨none, r.attempts, some (r.exhausted p)⟩

/-- On to the next level, or to the end of the chain. -/
def next (r : Request R) : Request R :=
  let r := { r with level := r.level + 1, calling := none }
  if r.level < p.chain.length then r else { r with reply := some (r.exhaust p) }

def attempt (r : Request R) (entry : FallbackEntry) (error : Option Text) (success : Bool) :
    FallbackAttempt :=
  ⟨entry.name, entry.effectiveModel r.model, error, success⟩

def skip (r : Request R) (entry : FallbackEntry) (check : Check) : Request R :=
  next p { r with
    attempts := r.attempts ++ [r.attempt entry (some "skipped: in cooldown".toList) false]
    visits := r.visits ++ [.skipped check] }

def respond (r : Request R) (entry : FallbackEntry) (check : Check) (now : Nat) (response : R) :
    Request R :=
  { r with
    calling := none
    reply := some (match r.call with
      | .chat => .chat (.ok response)
      | .executeDetailed =>
        .detailed ⟨some response, r.attempts ++ [r.attempt entry none true], none⟩)
    visits := r.visits ++ [.answered check now response] }

def fail (r : Request R) (entry : FallbackEntry) (check : Check) (now : Nat)
    (e : FailoverError) : Request R :=
  let r := { r with
    attempts := r.attempts ++ [r.attempt entry (some e.text) false]
    errors := r.errors ++ [(entry.name, e.text)]
    lastError := some e
    visits := r.visits ++ [Visit.failed check now e] }
  if e.isRetriable then r.next p
  else { r with
    calling := none
    reply := some (match r.call with
      | .chat => .chat (.error e)
      | .executeDetailed => .detailed ⟨none, r.attempts, some (r.exhausted p)⟩) }

end Request

/-- The requests of a chain. `marks` records what the tracker was told, the last mark first. -/
structure State (R : Type) where
  now : Nat
  tracker : CooldownTracker
  requests : List (Request R)
  marks : List Mark

def State.init : State R := ⟨0, .new, [], []⟩

def State.mark (s : State R) (m : Mark) : State R :=
  { s with tracker := s.tracker.apply m, marks := m :: s.marks, now := m.time }

def State.update (s : State R) (i : Nat) (r : Request R) : State R :=
  { s with requests := s.requests.set i r }

/-- What happens: a request comes in, it looks at its next level, the level that it called
answers. -/
inductive Label (R : Type) where
  | start (call : Call) (model : Text)
  | check (i now : Nat)
  | answer (i now : Nat) (outcome : Except FailoverError R)

/-- A level that is asked and a clock that does not run back. -/
def State.level (p : FallbackProvider) (s : State R) (i now : Nat) :
    Option (Request R × FallbackEntry) :=
  match s.requests[i]? with
  | none => none
  | some r =>
    if s.now ≤ now ∧ r.reply.isNone then (p.chain[r.level]?).map fun entry => (r, entry) else none

def step (p : FallbackProvider) (s : State R) : Label R → Option (State R)
  | .start call model => some { s with requests := s.requests ++ [.begin p call model] }
  | .check i now => (s.level p i now).bind fun a =>
    let check := ⟨now, s.marks⟩
    if a.1.calling.isSome then none
    else if s.tracker.isAvailable now (a.2.key a.1.model) then
      some { s.update i { a.1 with calling := some check } with now }
    else some { s.update i (a.1.skip p a.2 check) with now }
  | .answer i now outcome => (s.level p i now).bind fun a =>
    a.1.calling.map fun check => match outcome with
      | .ok response =>
        (s.mark ⟨now, a.2.key a.1.model, .success⟩).update i (a.1.respond a.2 check now response)
      | .error e =>
        (s.mark ⟨now, a.2.key a.1.model, .failure e.reason e.retryAfterHint⟩).update i
          (a.1.fail p a.2 check now e)

/-! What a request is told. -/

namespace Visit

def check : Visit R → Check
  | .skipped c | .failed c _ _ | .answered c _ _ => c

def isSkip : Visit R → Bool
  | .skipped _ => true
  | .failed _ _ _ | .answered _ _ _ => false

/-- The request goes on to the next level. -/
def passes : Visit R → Bool
  | .skipped _ => true
  | .failed _ _ e => e.isRetriable
  | .answered _ _ _ => false

def error : Visit R → Option FailoverError
  | .failed _ _ e => some e
  | .skipped _ | .answered _ _ _ => none

def mark (key : Text) : Visit R → Option Mark
  | .skipped _ => none
  | .failed _ now e => some ⟨now, key, .failure e.reason e.retryAfterHint⟩
  | .answered _ now _ => some ⟨now, key, .success⟩

def attempt (model : Text) (entry : FallbackEntry) : Visit R → FallbackAttempt
  | .skipped _ =>
    ⟨entry.name, entry.effectiveModel model, some "skipped: in cooldown".toList, false⟩
  | .failed _ _ e => ⟨entry.name, entry.effectiveModel model, some e.text, false⟩
  | .answered _ _ _ => ⟨entry.name, entry.effectiveModel model, none, true⟩

end Visit

def attemptsOf (p : FallbackProvider) (model : Text) (visits : List (Visit R)) :
    List FallbackAttempt :=
  (visits.zip p.chain).map fun a => a.1.attempt model a.2

def errorsOf (p : FallbackProvider) (visits : List (Visit R)) : List (Text × Text) :=
  (visits.zip p.chain).filterMap fun a => a.1.error.map fun e => (a.2.name, e.text)

def lastErrorOf (visits : List (Visit R)) : Option FailoverError :=
  (visits.filterMap Visit.error).getLast?

def responseOf (visits : List (Visit R)) : Option R :=
  visits.getLast?.bind fun v => match v with
    | .answered _ _ response => some response
    | .skipped _ | .failed _ _ _ => none

/-- Every level was visited, or the last visit ended the request. -/
def ended (p : FallbackProvider) (visits : List (Visit R)) : Bool :=
  visits.length = p.chain.length || visits.getLast?.any fun v => !v.passes

/-- What the visits amount to: the response of the level that gave one, else the last error. -/
def resultOf (p : FallbackProvider) (call : Call) (model : Text) (visits : List (Visit R)) :
    Reply R :=
  match call with
  | .chat => .chat (match responseOf visits with
    | some response => .ok response
    | none => .error ((lastErrorOf visits).getD (.unknown p.name
        (if p.chain = [] then "no providers in fallback chain".toList
        else "all providers in fallback chain exhausted".toList))))
  | .executeDetailed => .detailed ⟨responseOf visits, attemptsOf p model visits,
      if (responseOf visits).isSome then none
      else some ⟨p.name, (errorsOf p visits).length, p.chain.length, errorsOf p visits⟩⟩

/-- A request without a reply stands where its visits have brought it. -/
structure Request.Underway (p : FallbackProvider) (r : Request R) : Prop where
  level : r.level = r.visits.length
  attempts : r.attempts = attemptsOf p r.model r.visits
  errors : r.errors = errorsOf p r.visits
  lastError : r.lastError = lastErrorOf r.visits

structure Request.Kept (p : FallbackProvider) (r : Request R) : Prop where
  passing : ∀ v ∈ r.visits.dropLast, v.passes = true
  within : r.visits.length ≤ p.chain.length
  reply : r.reply =
    if ended p r.visits then some (resultOf p r.call r.model r.visits) else none
  underway : r.reply = none → r.Underway p

variable {p : FallbackProvider} {r : Request R} {entry : FallbackEntry}

theorem Request.Kept.waiting (h : r.Kept p) (hr : r.reply = none) :
    (∀ v ∈ r.visits, v.passes = true) ∧ r.visits.length < p.chain.length := by
  have hopen : ended p r.visits = false := by
    have hreply := h.reply
    rw [hr] at hreply
    cases he : ended p r.visits with
    | false => rfl
    | true => simp [he] at hreply
  simp only [ended, Bool.or_eq_false_iff, decide_eq_false_iff_not] at hopen
  obtain ⟨hlen, hlast⟩ := hopen
  refine ⟨fun v hv => ?_, lt_of_le_of_ne h.within hlen⟩
  obtain hnil | ⟨init, last, hsplit⟩ := List.eq_nil_or_concat' r.visits
  · simp [hnil] at hv
  · rw [hsplit] at hv hlast
    have hpassing := h.passing
    rw [hsplit, List.dropLast_concat] at hpassing
    cases List.mem_append.mp hv with
    | inl hv => exact hpassing v hv
    | inr hv =>
      obtain rfl := List.mem_singleton.mp hv
      simpa using hlast

theorem zip_concat {visits : List (Visit R)} (hentry : p.chain[visits.length]? = some entry)
    (v : Visit R) : (visits ++ [v]).zip p.chain = visits.zip p.chain ++ [(v, entry)] := by
  obtain ⟨hlt, hget⟩ := List.getElem?_eq_some_iff.mp hentry
  have hlen : visits.length = (p.chain.take visits.length).length := by
    rw [List.length_take]
    omega
  have hdrop : p.chain.drop visits.length = entry :: p.chain.drop (visits.length + 1) := by
    rw [← hget, List.drop_eq_getElem_cons hlt]
  have happend (more : List (Visit R)) : (visits ++ more).zip p.chain =
      visits.zip (p.chain.take visits.length) ++ more.zip (p.chain.drop visits.length) := by
    conv_lhs => rw [← List.take_append_drop visits.length p.chain]
    exact List.zip_append hlen
  have hnil := happend []
  rw [List.append_nil, List.zip_nil_left, List.append_nil] at hnil
  rw [happend [v], hdrop, hnil]
  rfl

@[simp] theorem attemptsOf_concat {model : Text} {visits : List (Visit R)}
    (hentry : p.chain[visits.length]? = some entry) (v : Visit R) :
    attemptsOf p model (visits ++ [v]) =
      attemptsOf p model visits ++ [v.attempt model entry] := by
  simp [attemptsOf, zip_concat hentry]

@[simp] theorem errorsOf_concat {visits : List (Visit R)}
    (hentry : p.chain[visits.length]? = some entry) (v : Visit R) :
    errorsOf p (visits ++ [v]) = errorsOf p visits ++
      (v.error.map fun e => (entry.name, e.text)).toList := by
  rw [errorsOf, zip_concat hentry, List.filterMap_append, errorsOf]
  cases h : v.error <;> simp [h]

theorem lastErrorOf_concat (visits : List (Visit R)) (v : Visit R) :
    lastErrorOf (visits ++ [v]) = v.error.or (lastErrorOf visits) := by
  rw [lastErrorOf, List.filterMap_append]
  cases h : v.error <;> simp [h, lastErrorOf]

theorem responseOf_concat (visits : List (Visit R)) (v : Visit R) :
    responseOf (visits ++ [v]) = match v with
      | .answered _ _ response => some response
      | .skipped _ | .failed _ _ _ => none := by
  rw [responseOf, List.getLast?_concat]
  rfl

theorem ended_concat (visits : List (Visit R)) (v : Visit R) :
    ended p (visits ++ [v]) =
      (visits.length + 1 = p.chain.length || !v.passes) := by
  simp [ended]

theorem responseOf_nil : responseOf ([] : List (Visit R)) = none := rfl

theorem lastErrorOf_nil : lastErrorOf ([] : List (Visit R)) = none := rfl

theorem Request.begin_visits (call : Call) (model : Text) :
    (Request.begin p call model : Request R).visits = [] := rfl

theorem Request.kept_begin (call : Call) (model : Text) :
    (Request.begin p call model : Request R).Kept p := by
  refine ⟨?_, ?_, ?_, fun _ => ⟨rfl, rfl, rfl, rfl⟩⟩
  · rw [begin_visits]
    exact fun v hv => (List.not_mem_nil hv).elim
  · rw [begin_visits]
    exact Nat.zero_le _
  by_cases hp : p.chain = []
  · have hended : ended p ([] : List (Visit R)) = true := by simp [ended, hp]
    simp only [Request.begin, hended, if_pos hp, if_true]
    cases call with
    | chat =>
      simp only [resultOf.eq_def, responseOf_nil, lastErrorOf_nil, Option.getD_none, if_pos hp]
    | executeDetailed =>
      simp only [resultOf.eq_def, responseOf_nil, hp]
      rfl
  · have hlen : 0 ≠ p.chain.length := fun h => hp (List.length_eq_zero_iff.mp h.symm)
    have hended : ended p ([] : List (Visit R)) = false := by simp [ended, hlen]
    simp only [Request.begin, hended, if_neg hp, Bool.false_eq_true, if_false]

theorem responseOf_passing {visits : List (Visit R)} {v : Visit R} (hv : v.passes = true) :
    responseOf (visits ++ [v]) = none := by
  rw [responseOf_concat]
  cases v with
  | answered c now response => cases hv
  | skipped c => rfl
  | failed c now e => rfl

/-- A visit of the level is recorded. -/
structure Request.Records (r : Request R) (entry : FallbackEntry) (v : Visit R)
    (r' : Request R) : Prop where
  call : r'.call = r.call
  model : r'.model = r.model
  level : r'.level = r.level
  visits : r'.visits = r.visits ++ [v]
  attempts : r'.attempts = r.attempts ++ [v.attempt r.model entry]
  errors : r'.errors = r.errors ++ (v.error.map fun e => (entry.name, e.text)).toList
  lastError : r'.lastError = v.error.or r.lastError

theorem Request.Kept.entry_at (h : r.Kept p) (hr : r.reply = none)
    (hentry : p.chain[r.level]? = some entry) : p.chain[r.visits.length]? = some entry := by
  rw [← (h.underway hr).level]
  exact hentry

/-- The level of a recorded visit apart, the request stands where its visits have brought it. -/
theorem Request.Records.counted {v : Visit R} {r' : Request R} (hrec : r.Records entry v r')
    (h : r.Kept p) (hr : r.reply = none) (hentry : p.chain[r.level]? = some entry) :
    r'.attempts = attemptsOf p r'.model r'.visits ∧ r'.errors = errorsOf p r'.visits ∧
      r'.lastError = lastErrorOf r'.visits := by
  have hu := h.underway hr
  have hat := h.entry_at hr hentry
  refine ⟨?_, ?_, ?_⟩
  · rw [hrec.attempts, hrec.visits, hrec.model, attemptsOf_concat hat, hu.attempts]
  · rw [hrec.errors, hrec.visits, errorsOf_concat hat, hu.errors]
  · rw [hrec.lastError, hrec.visits, lastErrorOf_concat, hu.lastError]

/-- What a recorded visit amounts to when it ends the request without a response. -/
theorem Request.Records.result {v : Visit R} {r' : Request R} (hrec : r.Records entry v r')
    (h : r.Kept p) (hr : r.reply = none) (hentry : p.chain[r.level]? = some entry)
    (hv : responseOf r'.visits = none) : r'.exhaust p = resultOf p r'.call r'.model r'.visits := by
  have hne : p.chain ≠ [] := fun hnil => by simp [hnil] at hentry
  obtain ⟨hattempts, herrors, hlast⟩ := hrec.counted h hr hentry
  rw [Request.exhaust, resultOf.eq_def]
  cases r'.call with
  | chat => simp only [hlast, hv, if_neg hne]
  | executeDetailed => simp [Request.exhausted, hv, hattempts, herrors]

theorem Request.Records.within {v : Visit R} {r' : Request R} (hrec : r.Records entry v r')
    (h : r.Kept p) (hr : r.reply = none) : (∀ w ∈ r'.visits.dropLast, w.passes = true) ∧
      r'.visits.length ≤ p.chain.length := by
  obtain ⟨hpass, hlt⟩ := h.waiting hr
  rw [hrec.visits]
  exact ⟨by simpa using hpass, by simpa using hlt⟩

theorem Request.Records.next {v : Visit R} {r' : Request R} (hrec : r.Records entry v r')
    (h : r.Kept p) (hr : r.reply = none) (hr' : r'.reply = none)
    (hentry : p.chain[r.level]? = some entry) (hv : v.passes = true) : (r'.next p).Kept p := by
  obtain ⟨hpass, hlen⟩ := hrec.within h hr
  obtain ⟨hattempts, herrors, hlast⟩ := hrec.counted h hr hentry
  have hnone : responseOf r'.visits = none := by
    rw [hrec.visits]
    exact responseOf_passing hv
  have hlevel : r'.level + 1 = r'.visits.length := by
    rw [hrec.level, hrec.visits, (h.underway hr).level, List.length_append, List.length_singleton]
  have hended : ended p r'.visits = decide (r'.visits.length = p.chain.length) := by
    rw [hrec.visits, ended_concat, hv]
    simp
  rw [Request.next]
  dsimp only
  by_cases hmore : r'.level + 1 < p.chain.length
  · rw [if_pos hmore]
    refine ⟨hpass, hlen, ?_, fun _ => ⟨hlevel, hattempts, herrors, hlast⟩⟩
    have hne : r'.visits.length ≠ p.chain.length := by omega
    simp only [hr', hended, decide_eq_false hne, Bool.false_eq_true, if_false]
  · rw [if_neg hmore]
    have heq : r'.visits.length = p.chain.length := by omega
    refine ⟨hpass, hlen, ?_, fun hno => by cases hno⟩
    simp only [hended, decide_eq_true heq, if_true]
    exact congrArg some (hrec.result h hr hentry hnone)

section Level
variable (h : r.Kept p) (hr : r.reply = none) (hentry : p.chain[r.level]? = some entry)
include h hr hentry

theorem Request.Kept.skip (check : Check) : (r.skip p entry check).Kept p := by
  have hrec : r.Records entry (.skipped check) { r with
      attempts := r.attempts ++ [r.attempt entry (some "skipped: in cooldown".toList) false]
      visits := r.visits ++ [.skipped check] } :=
    ⟨rfl, rfl, rfl, rfl, rfl, (List.append_nil _).symm, rfl⟩
  exact hrec.next h hr hr hentry rfl

theorem Request.Kept.fail (check : Check) (now : Nat) (e : FailoverError) :
    (r.fail p entry check now e).Kept p := by
  have hrec : r.Records entry (.failed check now e) { r with
      attempts := r.attempts ++ [r.attempt entry (some e.text) false]
      errors := r.errors ++ [(entry.name, e.text)]
      lastError := some e
      visits := r.visits ++ [.failed check now e] } :=
    ⟨rfl, rfl, rfl, rfl, rfl, rfl, rfl⟩
  rw [Request.fail]
  dsimp only
  cases he : e.isRetriable with
  | true => exact hrec.next h hr hr hentry he
  | false =>
    have hresult := hrec.result h hr hentry (by rw [responseOf_concat])
    obtain ⟨hpass, hlen⟩ := hrec.within h hr
    have hended : ended p (r.visits ++ [.failed check now e]) = true := by
      rw [ended_concat, Visit.passes, he]
      simp
    simp only [Bool.false_eq_true, if_false]
    refine ⟨hpass, hlen, ?_, fun hno => by cases hno⟩
    simp only [hended, if_true]
    refine (congrArg some ?_).trans (congrArg some hresult)
    rw [Request.exhaust]
    cases r.call <;> rfl

theorem Request.Kept.respond (check : Check) (now : Nat) (response : R) :
    (r.respond entry check now response).Kept p := by
  obtain ⟨hpass, hlt⟩ := h.waiting hr
  have hat := h.entry_at hr hentry
  have hended : ended p (r.visits ++ [.answered check now response]) = true := by
    rw [ended_concat, Visit.passes]
    simp
  refine ⟨?_, ?_, ?_, fun hno => by cases hno⟩
  · simpa [Request.respond] using hpass
  · simpa [Request.respond] using hlt
  · simp only [Request.respond, hended, if_true]
    congr 1
    rw [resultOf.eq_def]
    cases r.call with
    | chat => simp only [responseOf_concat]
    | executeDetailed =>
      simp only [responseOf_concat, attemptsOf_concat hat, (h.underway hr).attempts]
      rfl

end Level

/-! The tracker and the requests together. -/

/-- The marks of the level kept a request out at the time of the look. -/
def Check.blocks (c : Check) (key : Text) : Prop :=
  Blocked defaultFailureWindow (ofProvider key c.past) c.now

/-- A visit was a skip exactly when the marks so far blocked its level, and what came of a call is
among the marks. -/
structure Visit.Judged (marks : List Mark) (key : Text) (v : Visit R) : Prop where
  past : v.check.past <:+ marks
  skipped : v.isSkip = true ↔ v.check.blocks key
  marked : ∀ m, v.mark key = some m → m ∈ marks

/-- The levels of the chain with what came of each. -/
def Request.trail (p : FallbackProvider) (r : Request R) : List (Visit R × Text) :=
  (r.visits.zip p.chain).map fun a => (a.1, a.2.key r.model)

structure Inv (p : FallbackProvider) (s : State R) : Prop where
  tracker : s.tracker = trackerOf defaultFailureWindow s.marks
  kept : ∀ r ∈ s.requests, r.Kept p
  judged : ∀ r ∈ s.requests, ∀ a ∈ r.trail p, a.1.Judged s.marks a.2
  calling : ∀ r ∈ s.requests, ∀ c ∈ r.calling, c.past <:+ s.marks ∧
    ∀ entry, p.chain[r.level]? = some entry → ¬ c.blocks (entry.key r.model)
  made : ∀ m ∈ s.marks, ∃ r ∈ s.requests, ∃ a ∈ r.trail p, a.1.mark a.2 = some m

theorem Visit.Judged.mono {marks marks' : List Mark} {key : Text} {v : Visit R}
    (h : v.Judged marks key) (hsuffix : marks <:+ marks') : v.Judged marks' key :=
  ⟨h.past.trans hsuffix, h.skipped, fun m hm => hsuffix.subset (h.marked m hm)⟩

/-- A request moves and the marks grow. -/
theorem Inv.moved {s : State R} (h : Inv p s) {i now : Nat} {r r' : Request R}
    {marks : List Mark} (hr : s.requests[i]? = some r) (hmarks : s.marks <:+ marks)
    (hkept : r'.Kept p) (htrail : r.trail p <+: r'.trail p)
    (hjudged : ∀ a ∈ r'.trail p, a.1.Judged marks a.2)
    (hcalling : ∀ c ∈ r'.calling, c.past <:+ marks ∧
      ∀ entry, p.chain[r'.level]? = some entry → ¬ c.blocks (entry.key r'.model))
    (hmade : ∀ m ∈ marks, m ∈ s.marks ∨ ∃ a ∈ r'.trail p, a.1.mark a.2 = some m) :
    Inv p ⟨now, trackerOf defaultFailureWindow marks, s.requests.set i r', marks⟩ := by
  have hset {q : Request R} (hq : q ∈ s.requests.set i r') : q ∈ s.requests ∨ q = r' :=
    List.mem_or_eq_of_mem_set hq
  obtain ⟨hi, hget⟩ := List.getElem?_eq_some_iff.mp hr
  have hin : r' ∈ s.requests.set i r' := List.mem_set hi r'
  refine ⟨rfl, fun q hq => ?_, fun q hq a ha => ?_, fun q hq c hc => ?_, fun m hm => ?_⟩
  · cases hset hq with
    | inl hq => exact h.kept q hq
    | inr hq => exact hq ▸ hkept
  · cases hset hq with
    | inl hq => exact (h.judged q hq a ha).mono hmarks
    | inr hq => exact hjudged a (hq ▸ ha)
  · cases hset hq with
    | inl hq =>
      obtain ⟨hpast, hopen⟩ := h.calling q hq c hc
      exact ⟨hpast.trans hmarks, hopen⟩
    | inr hq =>
      subst hq
      exact hcalling c hc
  · cases hmade m hm with
    | inr hmade => exact ⟨r', hin, hmade⟩
    | inl hm =>
      obtain ⟨q, hq, a, ha, hmark⟩ := h.made m hm
      obtain ⟨j, hj⟩ := List.mem_iff_getElem?.mp hq
      by_cases hji : j = i
      · subst hji
        obtain rfl : r = q := Option.some.inj (hr.symm.trans hj)
        exact ⟨r', hin, a, htrail.subset ha, hmark⟩
      · refine ⟨q, List.mem_iff_getElem?.mpr ⟨j, ?_⟩, a, ha, hmark⟩
        rw [List.getElem?_set_ne (Ne.symm hji)]
        exact hj

theorem trail_concat {r r' : Request R} {v : Visit R} (hat : p.chain[r.visits.length]? = some entry)
    (hmodel : r'.model = r.model) (hvisits : r'.visits = r.visits ++ [v]) :
    r'.trail p = r.trail p ++ [(v, entry.key r.model)] := by
  simp [Request.trail, hvisits, hmodel, zip_concat hat]

/-- A request visits its level: the visit is judged by the marks, and adds its own. -/
theorem Inv.visited {s : State R} (h : Inv p s) {i now : Nat} {r r' : Request R} {v : Visit R}
    {marks : List Mark} (hr : s.requests[i]? = some r) (hreply : r.reply = none)
    (hentry : p.chain[r.level]? = some entry) (hmarks : s.marks <:+ marks)
    (hkept : r'.Kept p) (hmodel : r'.model = r.model) (hvisits : r'.visits = r.visits ++ [v])
    (hv : v.Judged marks (entry.key r.model)) (hcalling : r'.calling = none)
    (hmade : ∀ m ∈ marks, m ∈ s.marks ∨ v.mark (entry.key r.model) = some m) :
    Inv p ⟨now, trackerOf defaultFailureWindow marks, s.requests.set i r', marks⟩ := by
  have hin := List.mem_of_getElem? hr
  have htrail := trail_concat ((h.kept r hin).entry_at hreply hentry) hmodel hvisits
  refine h.moved hr hmarks hkept ?_ (fun a ha => ?_) ?_ fun m hm => (hmade m hm).imp_right fun hm => ?_
  · rw [htrail]
    exact List.prefix_append _ _
  · rw [htrail] at ha
    cases List.mem_append.mp ha with
    | inl ha => exact (h.judged r hin a ha).mono hmarks
    | inr ha =>
      obtain rfl := List.mem_singleton.mp ha
      exact hv
  · rw [hcalling]
    exact fun c hc => by cases hc
  · refine ⟨(v, entry.key r.model), ?_, hm⟩
    rw [htrail]
    simp

theorem Request.next_fields (p : FallbackProvider) (r : Request R) : (r.next p).model = r.model ∧
    (r.next p).visits = r.visits ∧ (r.next p).calling = none := by
  rw [Request.next]
  dsimp only
  split <;> exact ⟨rfl, rfl, rfl⟩

theorem Request.fail_fields (p : FallbackProvider) (r : Request R) (entry : FallbackEntry)
    (check : Check) (now : Nat) (e : FailoverError) :
    (r.fail p entry check now e).model = r.model ∧
      (r.fail p entry check now e).visits = r.visits ++ [.failed check now e] ∧
      (r.fail p entry check now e).calling = none := by
  rw [Request.fail]
  dsimp only
  split
  · exact Request.next_fields p _
  · exact ⟨rfl, rfl, rfl⟩

theorem level_eq_some {s : State R} {i now : Nat} {r : Request R}
    (h : s.level p i now = some (r, entry)) :
    s.requests[i]? = some r ∧ r.reply = none ∧ p.chain[r.level]? = some entry := by
  rw [State.level] at h
  split at h
  · cases h
  · rename_i q hq
    split at h
    · rename_i hopen
      obtain ⟨e, he, hpair⟩ := Option.map_eq_some_iff.mp h
      cases hpair
      exact ⟨hq, by simpa using hopen.2, he⟩
    · cases h

theorem Inv.available {s : State R} (h : Inv p s) (now : Nat) (key : Text) :
    s.tracker.isAvailable now key = true ↔ ¬ Check.blocks ⟨now, s.marks⟩ key := by
  rw [h.tracker]
  exact isAvailable_iff s.marks now key

theorem Inv.start {s : State R} (h : Inv p s) (call : Call) (model : Text) :
    Inv p { s with requests := s.requests ++ [.begin p call model] } := by
  have hcases {q : Request R} (hq : q ∈ s.requests ++ [.begin p call model]) :
      q ∈ s.requests ∨ q = .begin p call model := by simpa using hq
  have hbegun {r : Request R} (hr : r = .begin p call model) :
      r.Kept p ∧ r.trail p = [] ∧ r.calling = none := by
    subst hr
    exact ⟨Request.kept_begin call model, rfl, rfl⟩
  refine ⟨h.tracker, fun q hq => ?_, fun q hq a ha => ?_, fun q hq c hc => ?_, fun m hm => ?_⟩
  · cases hcases hq with
    | inl hq => exact h.kept q hq
    | inr hq => exact (hbegun hq).1
  · cases hcases hq with
    | inl hq => exact h.judged q hq a ha
    | inr hq => simp [(hbegun hq).2.1] at ha
  · cases hcases hq with
    | inl hq => exact h.calling q hq c hc
    | inr hq => simp [(hbegun hq).2.2] at hc
  · obtain ⟨q, hq, hmade⟩ := h.made m hm
    exact ⟨q, List.mem_append_left _ hq, hmade⟩

theorem Inv.check {s t : State R} (h : Inv p s) {i now : Nat}
    (hs : step p s (.check i now) = some t) : Inv p t := by
  obtain ⟨a, hlevel, hs⟩ := Option.bind_eq_some_iff.mp hs
  obtain ⟨hr, hreply, hentry⟩ := level_eq_some hlevel
  have hin := List.mem_of_getElem? hr
  dsimp only at hs
  split at hs
  · cases hs
  · split at hs
    · rename_i hfree
      obtain rfl := Option.some.inj hs
      have hk := h.kept a.1 hin
      have hkept : ({ a.1 with calling := some ⟨now, s.marks⟩ } : Request R).Kept p :=
        ⟨hk.passing, hk.within, hk.reply, fun hno =>
          ⟨(hk.underway hno).level, (hk.underway hno).attempts, (hk.underway hno).errors,
            (hk.underway hno).lastError⟩⟩
      have hinv : Inv p ⟨now, _, _, s.marks⟩ := h.moved hr (List.suffix_refl _) hkept
        (List.prefix_refl _) (h.judged a.1 hin) (fun c hc => ?_) fun m hm => .inl hm
      · rw [← h.tracker] at hinv
        exact hinv
      · obtain rfl := Option.some.inj hc
        refine ⟨List.suffix_refl _, fun entry he => ?_⟩
        obtain rfl : a.2 = entry := Option.some.inj (hentry.symm.trans he)
        exact (h.available now _).mp hfree
    · rename_i hbusy
      obtain rfl := Option.some.inj hs
      have hfields := Request.next_fields p { a.1 with
        attempts := a.1.attempts ++ [a.1.attempt a.2 (some "skipped: in cooldown".toList) false]
        visits := a.1.visits ++ [.skipped ⟨now, s.marks⟩] }
      have hblocked : Check.blocks ⟨now, s.marks⟩ (a.2.key a.1.model) := by
        by_contra hno
        exact hbusy ((h.available now _).mpr hno)
      have hv : (Visit.skipped ⟨now, s.marks⟩ : Visit R).Judged s.marks (a.2.key a.1.model) :=
        ⟨List.suffix_refl _, iff_of_true rfl hblocked, fun m hm => by cases hm⟩
      have hinv : Inv p ⟨now, _, _, s.marks⟩ := h.visited hr hreply hentry (List.suffix_refl _)
        ((h.kept a.1 hin).skip hreply hentry ⟨now, s.marks⟩) hfields.1 hfields.2.1 hv
        hfields.2.2 fun m hm => .inl hm
      rw [← h.tracker] at hinv
      exact hinv

theorem Inv.answer {s t : State R} (h : Inv p s) {i now : Nat}
    {outcome : Except FailoverError R} (hs : step p s (.answer i now outcome) = some t) :
    Inv p t := by
  obtain ⟨a, hlevel, hs⟩ := Option.bind_eq_some_iff.mp hs
  obtain ⟨hr, hreply, hentry⟩ := level_eq_some hlevel
  have hin := List.mem_of_getElem? hr
  obtain ⟨check, hcheck, hs⟩ := Option.map_eq_some_iff.mp hs
  obtain ⟨hpast, hopen⟩ := h.calling a.1 hin check hcheck
  have hfree := hopen a.2 hentry
  -- the new mark is the last one, and the only one that the visit adds
  have hvisit {v : Visit R} {m : Mark} (hc : v.check = check) (hskip : v.isSkip = false)
      (hm : v.mark (a.2.key a.1.model) = some m) :
      v.Judged (m :: s.marks) (a.2.key a.1.model) ∧
        ∀ m' ∈ m :: s.marks, m' ∈ s.marks ∨ v.mark (a.2.key a.1.model) = some m' := by
    refine ⟨⟨hc ▸ hpast.trans (List.suffix_cons _ _), ?_, fun m' hm' => ?_⟩, fun m' hm' => ?_⟩
    · rw [hskip, hc]
      exact iff_of_false (fun hno => by cases hno) hfree
    · obtain rfl : m = m' := Option.some.inj (hm.symm.trans hm')
      exact List.mem_cons_self
    · cases List.mem_cons.mp hm' with
      | inl he => exact .inr (he ▸ hm)
      | inr hm' => exact .inl hm'
  cases outcome with
  | ok response =>
    obtain ⟨hv, hmade⟩ := @hvisit (.answered check now response) _ rfl rfl rfl
    obtain rfl := hs
    have hinv : Inv p ⟨now, _, _, _⟩ := h.visited hr hreply hentry (List.suffix_cons _ _)
      ((h.kept a.1 hin).respond hreply hentry check now response) rfl rfl hv rfl hmade
    rw [trackerOf, ← h.tracker] at hinv
    exact hinv
  | error e =>
    obtain ⟨hv, hmade⟩ := @hvisit (.failed check now e) _ rfl rfl rfl
    obtain rfl := hs
    obtain ⟨hmodel, hvisits, hcalling⟩ := Request.fail_fields p a.1 a.2 check now e
    have hinv : Inv p ⟨now, _, _, _⟩ := h.visited hr hreply hentry (List.suffix_cons _ _)
      ((h.kept a.1 hin).fail hreply hentry check now e) hmodel hvisits hv hcalling hmade
    rw [trackerOf, ← h.tracker] at hinv
    exact hinv

theorem inv_step {s t : State R} {label : Label R} (h : Inv p s)
    (hs : step p s label = some t) : Inv p t := by
  cases label with
  | start call model =>
    obtain rfl := Option.some.inj hs
    exact h.start call model
  | check i now => exact h.check hs
  | answer i now outcome => exact h.answer hs

/-- What holds of a request: its visits go down the chain, the first that does not pass on ends it,
and its reply is what they amount to. -/
structure Request.Answered (p : FallbackProvider) (r : Request R) : Prop where
  passing : ∀ v ∈ r.visits.dropLast, v.passes = true
  within : r.visits.length ≤ p.chain.length
  reply : r.reply =
    if ended p r.visits then some (resultOf p r.call r.model r.visits) else none

structure Explained (p : FallbackProvider) (s : State R) : Prop where
  answered : ∀ r ∈ s.requests, r.Answered p
  judged : ∀ r ∈ s.requests, ∀ a ∈ r.trail p, a.1.Judged s.marks a.2
  made : ∀ m ∈ s.marks, ∃ r ∈ s.requests, ∃ a ∈ r.trail p, a.1.mark a.2 = some m
  available : ∀ now key, s.tracker.isAvailable now key = true ↔
    ¬ Check.blocks ⟨now, s.marks⟩ key
  recent : ∀ r ∈ s.requests, ∀ a ∈ r.trail p, a.1.isSkip = true → ∃ m ∈ s.marks,
    m.provider = a.2 ∧ m.verdict ≠ .success ∧ a.1.check.now < m.time + fromSecs 86400

/-- What blocks a level is a failure of it within a day. -/
theorem Visit.Judged.recent {marks : List Mark} {key : Text} {v : Visit R}
    (h : v.Judged marks key) (hskip : v.isSkip = true) : ∃ m ∈ marks, m.provider = key ∧
      m.verdict ≠ .success ∧ v.check.now < m.time + fromSecs 86400 := by
  obtain ⟨after, m, past, reason, hint, hsplit, hv, _, hlt⟩ := h.skipped.mp hskip
  have hm : m ∈ ofProvider key v.check.past := by
    rw [hsplit]
    simp
  obtain ⟨hin, hkey⟩ := List.mem_filter.mp hm
  refine ⟨m, h.past.subset hin, of_decide_eq_true hkey, by simp [hv], hlt.trans_le ?_⟩
  exact Nat.add_le_add_left (cooldownOf_le m reason hint past) _

theorem inv_init : Inv p (State.init : State R) :=
  ⟨rfl, by simp [State.init], by simp [State.init], by simp [State.init], by simp [State.init]⟩

/-- However requests come in and overlap, each goes down the chain once, skips exactly the levels
that earlier answers block at that moment, and ends with the first response or with the error that
its visits give. -/
theorem requests_explained {p : FallbackProvider} {labels : List (Label R)} {s : State R}
    (h : run (step p) State.init labels = some s) : Explained p s := by
  have hinv : Inv p s := run_invariant_always (fun _ _ _ => inv_step) inv_init h
  exact ⟨fun r hr => ⟨(hinv.kept r hr).passing, (hinv.kept r hr).within, (hinv.kept r hr).reply⟩,
    hinv.judged, hinv.made, hinv.available,
    fun r hr a ha hskip => (hinv.judged r hr a ha).recent hskip⟩

def twoLevels : FallbackProvider :=
  ⟨[⟨"http-compat".toList, "a".toList⟩, ⟨"http-compat".toList, "b".toList⟩], "auto:a".toList⟩

/-- The first request is limited at the first level; the second comes before it is over. -/
def overlapping : List (Label Nat) :=
  [.start .chat "a".toList, .check 0 0,
    .answer 0 1 (.error (.rateLimit "http-compat".toList "a".toList (some 30))),
    .start .executeDetailed "a".toList, .check 1 (fromSecs 5), .check 1 (fromSecs 5),
    .check 0 (fromSecs 6), .answer 1 (fromSecs 7) (.ok 2), .answer 0 (fromSecs 8) (.ok 1)]

theorem requests_explained_overlapping : ∃ s, run (step twoLevels) State.init overlapping = some s ∧
    (s.requests.map fun r => r.visits.map Visit.isSkip) = [[false, false], [true, false]] ∧
    Explained twoLevels s := by
  have hrun : ((run (step twoLevels) State.init overlapping).map fun s =>
      s.requests.map fun r => r.visits.map Visit.isSkip) =
      some [[false, false], [true, false]] := by decide +kernel
  obtain ⟨s, hs, hvisits⟩ := Option.map_eq_some_iff.mp hrun
  exact ⟨s, hs, hvisits, requests_explained hs⟩

end NemesisBot.Failover

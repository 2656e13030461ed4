import NemesisBot.Security.Auditor

/-! What a rule list can do to a decision: deny rules win, the order of the rules does not
count, and a further deny or ask rule never lets a command through. -/
namespace NemesisBot.Auditor
open NemesisBot.Strings NemesisBot.Command NemesisBot.Matcher

variable {p : Platform} {auditor : SecurityAuditor} {req : OperationRequest}

/-! The bucket of an action and its decision. -/

theorem bucket_decision (action : String) :
    (actionBucket action = .deny ∧ normalizeDecision action = .denied) ∨
      (actionBucket action = .ask ∧ normalizeDecision action ≠ .allowed) ∨
      (actionBucket action = .allow ∧ normalizeDecision action = .allowed) := by
  by_cases hallow : action = "allow" ∨ action = "allowed"
  · obtain rfl | rfl := hallow <;> decide
  · by_cases hask : action = "ask" ∨ action = "require_approval" ∨ action = "approval" ∨
      action = "pending"
    · obtain rfl | rfl | rfl | rfl := hask <;> decide
    · left
      constructor
      · simp [actionBucket, hallow, hask]
      · have hask' : ¬(action = "ask" ∨ action = "require_approval") := by tauto
        simp [normalizeDecision, hallow, hask']

theorem normalizeDecision_deny {action : String} (h : actionBucket action = .deny) :
    normalizeDecision action = .denied := by
  obtain ⟨-, hd⟩ | ⟨hb, -⟩ | ⟨hb, -⟩ := bucket_decision action
  · exact hd
  all_goals simp [hb] at h

theorem normalizeDecision_allow {action : String} (h : actionBucket action = .allow) :
    normalizeDecision action = .allowed := by
  obtain ⟨hb, -⟩ | ⟨hb, -⟩ | ⟨-, hd⟩ := bucket_decision action
  case inr.inr => exact hd
  all_goals simp [hb] at h

theorem normalizeDecision_ask {action : String} (h : actionBucket action = .ask) :
    normalizeDecision action ≠ .allowed := by
  obtain ⟨hb, -⟩ | ⟨-, hd⟩ | ⟨hb, -⟩ := bucket_decision action
  case inr.inl => exact hd
  all_goals simp [hb] at h

/-! The first matching rule. -/

/-- What `f` makes of the first rule of the bucket that passes the test. -/
def firstOutcome (f : SecurityRule → SecurityDecision) (rules : List SecurityRule)
    (want : Bucket) (test : SecurityRule → Bool) : Option SecurityDecision :=
  (rules.find? fun rule => actionBucket rule.action = want && test rule).map f

theorem firstRule_map (f : SecurityRule → SecurityDecision) (rules : List SecurityRule)
    (want : Bucket) (test : SecurityRule → Bool) :
    (firstRule rules want test).map (fun x => f x.1) = firstOutcome f rules want test := by
  have hfst : rules = rules.zipIdx.map Prod.fst := (List.zipIdx_map_fst 0 rules).symm
  rw [firstOutcome]
  conv => rhs; rw [hfst]
  rw [List.find?_map, Option.map_map]
  rfl

theorem firstOutcome_eq_none {f : SecurityRule → SecurityDecision} {rules : List SecurityRule}
    {want : Bucket} {test : SecurityRule → Bool} :
    firstOutcome f rules want test = none ↔
      ¬ ∃ rule ∈ rules, actionBucket rule.action = want ∧ test rule = true := by
  simp [firstOutcome]

theorem firstOutcome_some {f : SecurityRule → SecurityDecision} {rules : List SecurityRule}
    {want : Bucket} {test : SecurityRule → Bool} {d : SecurityDecision}
    (h : firstOutcome f rules want test = some d) :
    ∃ rule ∈ rules, actionBucket rule.action = want ∧ test rule = true ∧ f rule = d := by
  obtain ⟨rule, hf, hd⟩ := Option.map_eq_some_iff.mp h
  have hp := List.find?_some hf
  simp only [Bool.and_eq_true, decide_eq_true_eq] at hp
  exact ⟨rule, List.mem_of_find?_eq_some hf, hp.1, hp.2, hd⟩

/-- Where all rules of the bucket decide alike, only whether one matches counts. -/
theorem firstOutcome_const {f : SecurityRule → SecurityDecision} {rules : List SecurityRule}
    {want : Bucket} {test : SecurityRule → Bool} {d : SecurityDecision}
    (hd : ∀ rule ∈ rules, actionBucket rule.action = want → f rule = d)
    (hm : ∃ rule ∈ rules, actionBucket rule.action = want ∧ test rule = true) :
    firstOutcome f rules want test = some d := by
  cases h : firstOutcome f rules want test with
  | none => exact absurd hm (firstOutcome_eq_none.mp h)
  | some d' =>
    obtain ⟨rule, hr, hb, -, rfl⟩ := firstOutcome_some h
    rw [hd rule hr hb]

theorem firstOutcome_perm {f : SecurityRule → SecurityDecision} {rules rules' : List SecurityRule}
    {want : Bucket} {test : SecurityRule → Bool} {d : SecurityDecision}
    (hp : rules.Perm rules')
    (hd : ∀ rule ∈ rules, actionBucket rule.action = want → f rule = d) :
    firstOutcome f rules want test = firstOutcome f rules' want test := by
  by_cases hm : ∃ rule ∈ rules, actionBucket rule.action = want ∧ test rule = true
  · have hm' : ∃ rule ∈ rules', actionBucket rule.action = want ∧ test rule = true := by
      obtain ⟨rule, hr, h⟩ := hm
      exact ⟨rule, hp.subset hr, h⟩
    have hd' : ∀ rule ∈ rules', actionBucket rule.action = want → f rule = d :=
      fun rule hr => hd rule (hp.symm.subset hr)
    rw [firstOutcome_const hd hm, firstOutcome_const hd' hm']
  · have hm' : ¬ ∃ rule ∈ rules', actionBucket rule.action = want ∧ test rule = true := by
      rintro ⟨rule, hr, h⟩
      exact hm ⟨rule, hp.symm.subset hr, h⟩
    rw [firstOutcome_eq_none.mpr hm, firstOutcome_eq_none.mpr hm']

/-! The evaluation, decisions only. -/

def passDecision (rules : List SecurityRule) (want : Bucket) (test : SecurityRule → Bool) :
    Option SecurityDecision :=
  firstOutcome (fun rule => normalizeDecision rule.action) rules want test

def payloadDecision (p : Platform) (rules : List SecurityRule) (payload : Text) :
    Option SecurityDecision :=
  (passDecision rules .deny (payloadRule p payload)).or
    ((passDecision rules .ask (payloadRule p payload)).or
      ((structurePass payload).map Verdict.decision))

def allowDecision (p : Platform) (req : OperationRequest) (rule : SecurityRule) :
    SecurityDecision :=
  if req.opType.isExec ∧ scanDangerousFlags (execRuleSegments p req.target) ≠ [] then
    .requireApproval
  else normalizeDecision rule.action

/-- The part of the decision that depends on the rules. -/
def ruleDecision (p : Platform) (req : OperationRequest) (rules : List SecurityRule) :
    Option SecurityDecision :=
  (passDecision rules .deny (ruleMatches p req .deny)).or
    ((passDecision rules .ask (ruleMatches p req .ask)).or
      (((payloads p req).findSome? (payloadDecision p rules)).or
        (firstOutcome (allowDecision p req) rules .allow (ruleMatches p req .allow))))

def fallbackDecision (auditor : SecurityAuditor) (req : OperationRequest) : SecurityDecision :=
  ((unknownPolicyPass auditor req).getD (defaultVerdict auditor)).decision

/-- What a scan hit makes of a decision. -/
def forcedDecision (req : OperationRequest) (d : SecurityDecision) : SecurityDecision :=
  if d ≠ .denied ∧ ∃ reason, req.forceApproval.map trim = some reason ∧ reason ≠ [] then
    .requireApproval
  else d

theorem rulePass_decision (rules : List SecurityRule) (want : Bucket) :
    (rulePass p req rules want).map Verdict.decision =
      passDecision rules want (ruleMatches p req want) := by
  rw [rulePass, Option.map_map]
  exact firstRule_map (fun rule => normalizeDecision rule.action) rules want _

theorem payloadVerdict_decision (rules : List SecurityRule) (payload : Text) :
    (payloadVerdict p rules payload).map Verdict.decision = payloadDecision p rules payload := by
  have hpass : ∀ want, (payloadRulePass p rules payload want).map Verdict.decision =
      passDecision rules want (payloadRule p payload) := by
    intro want
    rw [payloadRulePass, Option.map_map]
    exact firstRule_map (fun rule => normalizeDecision rule.action) rules want _
  simp only [payloadVerdict, Option.orElse_eq_orElse, Option.orElse_eq_or, Option.map_or, hpass,
    payloadDecision]

theorem payloadPass_decision (rules : List SecurityRule) :
    (payloadPass p req rules).map Verdict.decision =
      (payloads p req).findSome? (payloadDecision p rules) := by
  rw [payloadPass, List.map_findSome?]
  congr 1
  funext payload
  exact payloadVerdict_decision rules payload

theorem allowPass_decision (rules : List SecurityRule) :
    (allowPass p req rules).map Verdict.decision =
      firstOutcome (allowDecision p req) rules .allow (ruleMatches p req .allow) := by
  rw [allowPass, Option.map_map, ← firstRule_map]
  congr 1
  funext x
  simp only [Function.comp_apply, allowDecision]
  split <;> rfl

theorem evaluateRequestInner_decision (hed : editorPass auditor req = none) :
    (evaluateRequestInner p auditor req).decision =
      (((selfDestructPass p auditor req).map Verdict.decision).or
        (ruleDecision p req (auditor.opRules req.opType))).getD (fallbackDecision auditor req) := by
  have hmap : ∀ (o : Option Verdict) (v : Verdict),
      (o.getD v).decision = (o.map Verdict.decision).getD v.decision := by
    intro o v
    cases o <;> rfl
  simp only [evaluateRequestInner, Option.orElse_eq_orElse, Option.orElse_eq_or, hed,
    Option.none_or, hmap, Option.map_or, rulePass_decision, payloadPass_decision,
    allowPass_decision, ruleDecision, fallbackDecision]
  simp only [Option.getD_or]

theorem evaluateRequest_decision :
    (evaluateRequest p auditor req).decision =
      forcedDecision req (evaluateRequestInner p auditor req).decision := by
  rw [evaluateRequest, forcedDecision]
  cases h : req.forceApproval.map trim with
  | none => simp
  | some reason =>
    simp only [Option.some.injEq, exists_eq_left']
    split <;> rfl

/-! Deny rules. -/

def CommandMatches (p : Platform) (req : OperationRequest) (rules : List SecurityRule)
    (want : Bucket) : Prop :=
  ∃ rule ∈ rules, actionBucket rule.action = want ∧ ruleMatches p req want rule = true

def PayloadMatches (p : Platform) (rules : List SecurityRule) (want : Bucket) (payload : Text) :
    Prop :=
  ∃ rule ∈ rules, actionBucket rule.action = want ∧ payloadRule p payload rule = true

/-- An ask rule matches the payload, or it names a dangerous structure. -/
def PayloadAsks (p : Platform) (rules : List SecurityRule) (payload : Text) : Prop :=
  PayloadMatches p rules .ask payload ∨ ∃ s ∈ dangerousStructures, s <:+: payload

theorem passDecision_deny {rules : List SecurityRule} {test : SecurityRule → Bool}
    (h : ∃ rule ∈ rules, actionBucket rule.action = .deny ∧ test rule = true) :
    passDecision rules .deny test = some .denied :=
  firstOutcome_const (fun _ _ hb => normalizeDecision_deny hb) h

theorem passDecision_eq_denied {rules : List SecurityRule} {test : SecurityRule → Bool}
    {d : SecurityDecision} (h : passDecision rules .deny test = some d) : d = .denied := by
  obtain ⟨rule, -, hb, -, rfl⟩ := firstOutcome_some h
  exact normalizeDecision_deny hb

theorem passDecision_ask_ne {rules : List SecurityRule} {test : SecurityRule → Bool}
    {d : SecurityDecision} (h : passDecision rules .ask test = some d) : d ≠ .allowed := by
  obtain ⟨rule, -, hb, -, rfl⟩ := firstOutcome_some h
  exact normalizeDecision_ask hb

theorem selfDestructPass_denied {d : SecurityDecision}
    (h : (selfDestructPass p auditor req).map Verdict.decision = some d) : d = .denied := by
  rw [selfDestructPass] at h
  split at h
  · rw [Option.map_map] at h
    obtain ⟨reason, -, rfl⟩ := Option.map_eq_some_iff.mp h
    rfl
  · cases h

theorem structurePass_decision {payload : Text} {d : SecurityDecision}
    (h : (structurePass payload).map Verdict.decision = some d) :
    d = .requireApproval ∧ ∃ s ∈ dangerousStructures, s <:+: payload := by
  rw [structurePass, Option.map_map] at h
  obtain ⟨s, hs, rfl⟩ := Option.map_eq_some_iff.mp h
  exact ⟨rfl, s, List.mem_of_find?_eq_some hs, by simpa using List.find?_some hs⟩

theorem payloadDecision_ne_allowed {rules : List SecurityRule} {payload : Text}
    {d : SecurityDecision} (h : payloadDecision p rules payload = some d) : d ≠ .allowed := by
  rw [payloadDecision, Option.or_eq_some_iff] at h
  obtain hdeny | ⟨-, h⟩ := h
  · rw [passDecision_eq_denied hdeny]
    decide
  · obtain hask | ⟨-, hs⟩ := Option.or_eq_some_iff.mp h
    · exact passDecision_ask_ne hask
    · rw [(structurePass_decision hs).1]
      decide

theorem payloadDecision_denied {rules : List SecurityRule} {payload : Text}
    (h : PayloadMatches p rules .deny payload) :
    payloadDecision p rules payload = some .denied := by
  rw [payloadDecision, passDecision_deny h, Option.some_or]

/-- A payload that nothing asks about passes or is denied. -/
theorem payloadDecision_of_not_asks {rules : List SecurityRule} {payload : Text}
    (h : ¬ PayloadAsks p rules payload) {d : SecurityDecision}
    (hd : payloadDecision p rules payload = some d) : d = .denied := by
  rw [payloadDecision, Option.or_eq_some_iff] at hd
  obtain hdeny | ⟨-, hd⟩ := hd
  · exact passDecision_eq_denied hdeny
  · exfalso
    obtain hask | ⟨-, hs⟩ := Option.or_eq_some_iff.mp hd
    · obtain ⟨rule, hr, hb, ht, -⟩ := firstOutcome_some hask
      exact h (Or.inl ⟨rule, hr, hb, ht⟩)
    · exact h (Or.inr (structurePass_decision hs).2)

theorem findSome_denied {rules : List SecurityRule} {before after : List Text} {payload : Text}
    (hd : PayloadMatches p rules .deny payload)
    (hb : ∀ q ∈ before, ¬ PayloadAsks p rules q) :
    (before ++ payload :: after).findSome? (payloadDecision p rules) = some .denied := by
  induction before with
  | nil => simp [payloadDecision_denied hd]
  | cons q before ih =>
    have hi := ih fun r hr => hb r (List.mem_cons_of_mem q hr)
    rw [List.cons_append, List.findSome?_cons]
    cases hq : payloadDecision p rules q with
    | none => exact hi
    | some d => rw [payloadDecision_of_not_asks (hb q List.mem_cons_self) hq]

theorem ruleDecision_command {rules : List SecurityRule}
    (h : CommandMatches p req rules .deny) : ruleDecision p req rules = some .denied := by
  rw [ruleDecision, passDecision_deny h, Option.some_or]

theorem ruleDecision_payload_ne {rules : List SecurityRule} {before after : List Text}
    {payload : Text} (hp : payloads p req = before ++ payload :: after)
    (hd : PayloadMatches p rules .deny payload) :
    ∃ d, ruleDecision p req rules = some d ∧ d ≠ .allowed := by
  cases hdeny : passDecision rules .deny (ruleMatches p req .deny) with
  | some d =>
    refine ⟨d, by rw [ruleDecision, hdeny, Option.some_or], ?_⟩
    rw [passDecision_eq_denied hdeny]
    decide
  | none =>
    cases hask : passDecision rules .ask (ruleMatches p req .ask) with
    | some d =>
      refine ⟨d, by rw [ruleDecision, hdeny, hask, Option.none_or, Option.some_or], ?_⟩
      exact passDecision_ask_ne hask
    | none =>
      have hsome : ((payloads p req).findSome? (payloadDecision p rules)).isSome := by
        rw [List.findSome?_isSome_iff]
        exact ⟨payload, by simp [hp], by simp [payloadDecision_denied hd]⟩
      obtain ⟨d, hfind⟩ := Option.isSome_iff_exists.mp hsome
      refine ⟨d, by rw [ruleDecision, hdeny, hask, hfind, Option.none_or, Option.none_or,
        Option.some_or], ?_⟩
      obtain ⟨q, -, hq⟩ := List.exists_of_findSome?_eq_some hfind
      exact payloadDecision_ne_allowed hq

theorem ruleDecision_payload_denied {rules : List SecurityRule} {before after : List Text}
    {payload : Text} (hp : payloads p req = before ++ payload :: after)
    (hd : PayloadMatches p rules .deny payload) (hask : ¬ CommandMatches p req rules .ask)
    (hb : ∀ q ∈ before, ¬ PayloadAsks p rules q) :
    ruleDecision p req rules = some .denied := by
  have hnone : passDecision rules .ask (ruleMatches p req .ask) = none :=
    firstOutcome_eq_none.mpr hask
  have hfind : (payloads p req).findSome? (payloadDecision p rules) = some .denied := by
    rw [hp]
    exact findSome_denied hd hb
  rw [ruleDecision, hnone, Option.none_or, hfind, Option.some_or]
  cases hdeny : passDecision rules .deny (ruleMatches p req .deny) with
  | none => rfl
  | some d => rw [passDecision_eq_denied hdeny, Option.some_or]

/-! The order of the rules. -/

/-- Every ask rule is written with an action that `normalize_decision` reads as asking. -/
def PlainAsks (rules : List SecurityRule) : Prop :=
  ∀ rule ∈ rules, actionBucket rule.action = .ask →
    rule.action = "ask" ∨ rule.action = "require_approval"

theorem normalizeDecision_plainAsk {rules : List SecurityRule} (h : PlainAsks rules) :
    ∀ rule ∈ rules, actionBucket rule.action = .ask →
      normalizeDecision rule.action = .requireApproval := by
  intro rule hr hb
  obtain ha | ha := h rule hr hb <;> rw [ha] <;> decide

theorem ruleDecision_perm {rules rules' : List SecurityRule} (hp : rules.Perm rules')
    (ha : PlainAsks rules) : ruleDecision p req rules = ruleDecision p req rules' := by
  have hdeny : ∀ test, passDecision rules .deny test = passDecision rules' .deny test :=
    fun test => firstOutcome_perm hp fun rule _ hb => normalizeDecision_deny hb
  have hask : ∀ test, passDecision rules .ask test = passDecision rules' .ask test :=
    fun test => firstOutcome_perm hp (normalizeDecision_plainAsk ha)
  have hpayload : payloadDecision p rules = payloadDecision p rules' := by
    funext payload
    simp only [payloadDecision, hdeny, hask]
  have hallow : firstOutcome (allowDecision p req) rules .allow (ruleMatches p req .allow) =
      firstOutcome (allowDecision p req) rules' .allow (ruleMatches p req .allow) := by
    refine firstOutcome_perm (d := if req.opType.isExec ∧
      scanDangerousFlags (execRuleSegments p req.target) ≠ [] then .requireApproval
      else .allowed) hp fun rule _ hb => ?_
    simp only [allowDecision, normalizeDecision_allow hb]
  simp only [ruleDecision, hdeny, hask, hpayload, hallow]

/-! A further rule. -/

/-- The second decision is the first one, or `d`. -/
def SameOr (d : SecurityDecision) (x y : Option SecurityDecision) : Prop := y = x ∨ y = some d

theorem SameOr.or {d : SecurityDecision} {x x' y y' : Option SecurityDecision}
    (h : SameOr d x y) (h' : SameOr d x' y') : SameOr d (x.or x') (y.or y') := by
  obtain rfl | rfl := h
  · cases y with
    | some e => exact Or.inl rfl
    | none => simpa only [Option.none_or] using h'
  · exact Or.inr rfl

theorem sameOr_findSome {d : SecurityDecision} {f g : Text → Option SecurityDecision}
    (h : ∀ t, SameOr d (f t) (g t)) (l : List Text) :
    SameOr d (l.findSome? f) (l.findSome? g) := by
  have hor : ∀ (f : Text → Option SecurityDecision) (t : Text) (l : List Text),
      (t :: l).findSome? f = (f t).or (l.findSome? f) := by
    intro f t l
    cases hf : f t <;> simp [hf]
  induction l with
  | nil => exact Or.inl rfl
  | cons t l ih =>
    rw [hor, hor]
    exact (h t).or ih

/-- A rule put into the list answers for itself or changes nothing. -/
theorem firstOutcome_insert (f : SecurityRule → SecurityDecision)
    (before after : List SecurityRule) (rule : SecurityRule) (want : Bucket)
    (test : SecurityRule → Bool) :
    SameOr (f rule) (firstOutcome f (before ++ after) want test)
      (firstOutcome f (before ++ rule :: after) want test) := by
  simp only [firstOutcome, List.find?_append, Option.map_or]
  refine SameOr.or (Or.inl rfl) ?_
  rw [List.find?_cons]
  split
  · exact Or.inr rfl
  · exact Or.inl rfl

theorem firstOutcome_insert_other {f : SecurityRule → SecurityDecision}
    {before after : List SecurityRule} {rule : SecurityRule} {want : Bucket}
    {test : SecurityRule → Bool} (h : actionBucket rule.action ≠ want) :
    firstOutcome f (before ++ rule :: after) want test =
      firstOutcome f (before ++ after) want test := by
  simp [firstOutcome, List.find?_append, h]

theorem ruleDecision_insert {before after : List SecurityRule} {rule : SecurityRule}
    (h : actionBucket rule.action ≠ .allow) :
    SameOr (normalizeDecision rule.action) (ruleDecision p req (before ++ after))
      (ruleDecision p req (before ++ rule :: after)) := by
  have hpass : ∀ want test, SameOr (normalizeDecision rule.action)
      (passDecision (before ++ after) want test)
      (passDecision (before ++ rule :: after) want test) :=
    fun want test => firstOutcome_insert _ before after rule want test
  have hpayload : ∀ payload, SameOr (normalizeDecision rule.action)
      (payloadDecision p (before ++ after) payload)
      (payloadDecision p (before ++ rule :: after) payload) :=
    fun payload => (hpass .deny _).or ((hpass .ask _).or (Or.inl rfl))
  refine (hpass .deny _).or ((hpass .ask _).or ((sameOr_findSome hpayload _).or (Or.inl ?_)))
  exact firstOutcome_insert_other h

/-! The whole request. -/

def SecurityAuditor.withRules (auditor : SecurityAuditor) (op : OperationType)
    (rules : List SecurityRule) : SecurityAuditor :=
  { auditor with rules := fun o => if o = op then some rules else auditor.rules o }

theorem evaluateRequest_eq (hed : editorPass auditor req = none) :
    (evaluateRequest p auditor req).decision = forcedDecision req
      ((((selfDestructPass p auditor req).map Verdict.decision).or
        (ruleDecision p req (auditor.opRules req.opType))).getD
          (fallbackDecision auditor req)) := by
  rw [evaluateRequest_decision, evaluateRequestInner_decision hed]

theorem evaluateRequest_withRules (hed : editorPass auditor req = none)
    (rules : List SecurityRule) :
    (evaluateRequest p (auditor.withRules req.opType rules) req).decision = forcedDecision req
      ((((selfDestructPass p auditor req).map Verdict.decision).or
        (ruleDecision p req rules)).getD (fallbackDecision auditor req)) := by
  have hr : (auditor.withRules req.opType rules).opRules req.opType = rules := by
    simp [SecurityAuditor.opRules, SecurityAuditor.withRules]
  have hed' : editorPass (auditor.withRules req.opType rules) req = none := hed
  rw [evaluateRequest_eq hed', hr]
  rfl

theorem forcedDecision_denied : forcedDecision req .denied = .denied := by
  simp [forcedDecision]

theorem forcedDecision_ne_allowed {d : SecurityDecision} (h : d ≠ .allowed) :
    forcedDecision req d ≠ .allowed := by
  rw [forcedDecision]
  split
  · decide
  · exact h

/-- When the rules deny, so does the request. -/
theorem evaluateRequest_of_denied (hed : editorPass auditor req = none)
    (h : ruleDecision p req (auditor.opRules req.opType) = some .denied) :
    (evaluateRequest p auditor req).decision = .denied := by
  rw [evaluateRequest_eq hed, h]
  cases hs : (selfDestructPass p auditor req).map Verdict.decision with
  | none => exact forcedDecision_denied
  | some d =>
    rw [selfDestructPass_denied hs]
    exact forcedDecision_denied

theorem evaluateRequest_insert (hed : editorPass auditor req = none)
    {before after : List SecurityRule} {rule : SecurityRule}
    (h : actionBucket rule.action ≠ .allow) :
    (evaluateRequest p (auditor.withRules req.opType (before ++ rule :: after)) req).decision =
        (evaluateRequest p (auditor.withRules req.opType (before ++ after)) req).decision ∨
      (evaluateRequest p (auditor.withRules req.opType (before ++ rule :: after)) req).decision =
        forcedDecision req (normalizeDecision rule.action) := by
  rw [evaluateRequest_withRules hed, evaluateRequest_withRules hed]
  have hrules : SameOr (normalizeDecision rule.action) (ruleDecision p req (before ++ after))
      (ruleDecision p req (before ++ rule :: after)) := ruleDecision_insert h
  obtain he | he := SameOr.or (Or.inl (rfl :
    (selfDestructPass p auditor req).map Verdict.decision = _)) hrules
  · exact Or.inl (by rw [he])
  · exact Or.inr (by rw [he, Option.getD_some])

/-- Deny rules come first. A deny rule on the command denies it. A deny rule on a payload
never lets it through, and denies it unless a person is asked before: by an ask rule on
the command, or about an earlier payload. The order of the rules does not count, a
further deny rule is never more permissive, and a further ask rule at most asks. -/
theorem deny_precedence (p : Platform) (auditor : SecurityAuditor) (req : OperationRequest)
    (hed : editorPass auditor req = none) :
    (CommandMatches p req (auditor.opRules req.opType) .deny →
      (evaluateRequest p auditor req).decision = .denied) ∧
    (∀ before payload after, payloads p req = before ++ payload :: after →
      PayloadMatches p (auditor.opRules req.opType) .deny payload →
      (evaluateRequest p auditor req).decision ≠ .allowed ∧
      (¬ CommandMatches p req (auditor.opRules req.opType) .ask →
        (∀ q ∈ before, ¬ PayloadAsks p (auditor.opRules req.opType) q) →
        (evaluateRequest p auditor req).decision = .denied)) ∧
    (∀ rules rules' : List SecurityRule, rules.Perm rules' → PlainAsks rules →
      (evaluateRequest p (auditor.withRules req.opType rules) req).decision =
        (evaluateRequest p (auditor.withRules req.opType rules') req).decision) ∧
    (∀ (before after : List SecurityRule) (rule : SecurityRule),
      let base := (evaluateRequest p (auditor.withRules req.opType (before ++ after))
        req).decision
      let extended := (evaluateRequest p (auditor.withRules req.opType (before ++ rule :: after))
        req).decision
      (actionBucket rule.action = .deny → extended.rank ≤ base.rank) ∧
      (actionBucket rule.action = .ask → extended = base ∨ extended ≠ .allowed)) := by
  refine ⟨fun h => evaluateRequest_of_denied hed (ruleDecision_command h), ?_, ?_, ?_⟩
  · intro before payload after hp hd
    constructor
    · obtain ⟨d, hr, hne⟩ := ruleDecision_payload_ne hp hd
      rw [evaluateRequest_eq hed, hr]
      refine forcedDecision_ne_allowed ?_
      cases hs : (selfDestructPass p auditor req).map Verdict.decision with
      | none => exact hne
      | some e =>
        simp [selfDestructPass_denied hs]
    · intro hask hb
      exact evaluateRequest_of_denied hed (ruleDecision_payload_denied hp hd hask hb)
  · intro rules rules' hperm hplain
    rw [evaluateRequest_withRules hed, evaluateRequest_withRules hed,
      ruleDecision_perm hperm hplain]
  · intro before after rule
    constructor
    · intro hb
      have hne : actionBucket rule.action ≠ .allow := by simp [hb]
      obtain he | he := evaluateRequest_insert hed hne
      · exact le_of_eq (congrArg _ he)
      · rw [he, normalizeDecision_deny hb, forcedDecision_denied]
        exact Nat.zero_le _
    · intro hb
      have hne : actionBucket rule.action ≠ .allow := by simp [hb]
      obtain he | he := evaluateRequest_insert hed hne
      · exact Or.inl he
      · exact Or.inr (he ▸ forcedDecision_ne_allowed (normalizeDecision_ask hb))

/-- Folding and lower casing of plain ASCII text. -/
def asciiPlatform : Platform := ⟨id, List.map Char.toLower, false⟩

def exampleAuditor (rules : List SecurityRule) (defaultAction : String) : SecurityAuditor where
  rules := fun op => if op = .processExec then some rules else none
  protectedPaths := []
  selfDestructExempt := []
  editorAccess := none
  execUnknownPolicy := ""
  defaultAction := defaultAction

theorem deny_precedence_rm :
    (evaluateRequest asciiPlatform
      (exampleAuditor [⟨"*".toList, "allow"⟩, ⟨"rm -rf *".toList, "deny"⟩] "allow")
      ⟨.processExec, "cd /tmp && rm \"-RF\" data".toList, none⟩).decision = .denied :=
  (deny_precedence asciiPlatform _ _ rfl).1 ⟨⟨"rm -rf *".toList, "deny"⟩, by decide, by decide,
    by decide⟩

/-- An ask rule on the command comes before a deny rule on its payload, and turns a default
denial into a question. -/
theorem ask_rule_softens :
    (PayloadMatches asciiPlatform
        [⟨"python *".toList, "ask"⟩, ⟨"rm -rf*".toList, "deny"⟩] .deny
        "import os; os.system(rm -rf /data)".toList ∧
      payloads asciiPlatform
        ⟨.processExec, "python -c \"import os; os.system('rm -rf /data')\"".toList, none⟩ =
        ["import os; os.system(rm -rf /data)".toList] ∧
      (evaluateRequest asciiPlatform
        (exampleAuditor [⟨"python *".toList, "ask"⟩, ⟨"rm -rf*".toList, "deny"⟩] "allow")
        ⟨.processExec, "python -c \"import os; os.system('rm -rf /data')\"".toList, none⟩).decision =
        .requireApproval) ∧
      (evaluateRequest asciiPlatform (exampleAuditor [] "deny")
        ⟨.processExec, "ls".toList, none⟩).decision = .denied ∧
      (evaluateRequest asciiPlatform (exampleAuditor [⟨['*'], "ask"⟩] "deny")
        ⟨.processExec, "ls".toList, none⟩).decision = .requireApproval := by
  refine ⟨⟨⟨⟨"rm -rf*".toList, "deny"⟩, ?_⟩, ?_, ?_⟩, ?_, ?_⟩ <;> decide

end NemesisBot.Auditor

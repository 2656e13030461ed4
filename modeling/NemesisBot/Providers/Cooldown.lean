import NemesisBot.Lib.Strings

/-! Cooldowns of providers, and what a history of marks makes of them. Instants and durations count
nanoseconds. -/
namespace NemesisBot.Failover
open Strings

inductive FailoverReason where
  | auth
  | rateLimit
  | billing
  | timeout
  | format
  | overloaded
  | unknown
  deriving DecidableEq

def fromSecs (secs : Nat) : Nat := secs * 1000000000

def defaultFailureWindow : Nat := fromSecs (24 * 60 * 60)

def maxStandardCooldown : Nat := fromSecs 3600

/-- A reason that has not been counted has count 0. -/
structure CooldownEntry where
  errorCount : Nat
  failureCounts : FailoverReason → Nat
  cooldownEnd : Option Nat
  disabledUntil : Option Nat
  disabledReason : Option FailoverReason
  lastFailure : Option Nat

def CooldownEntry.default : CooldownEntry := ⟨0, fun _ => 0, none, none, none, none⟩

structure CooldownTracker where
  entries : Text → Option CooldownEntry
  failureWindow : Nat

def CooldownTracker.new : CooldownTracker := ⟨fun _ => none, defaultFailureWindow⟩

def calculateStandardCooldown (errorCount : Nat) : Nat :=
  let exp := min (max errorCount 1 - 1) 3
  min (fromSecs (60 * 5 ^ exp)) maxStandardCooldown

def calculateBillingCooldown (billingErrorCount : Nat) : Nat :=
  let exp := min (max billingErrorCount 1 - 1) 10
  fromSecs (min (5 * 60 * 60 * 2 ^ exp) (24 * 60 * 60))

/-- Counters older than the window start again. -/
def CooldownEntry.forget (window now : Nat) (e : CooldownEntry) : CooldownEntry :=
  match e.lastFailure with
  | some last =>
    if now - last > window then { e with errorCount := 0, failureCounts := fun _ => 0 } else e
  | none => e

def CooldownEntry.count (now : Nat) (reason : FailoverReason) (e : CooldownEntry) :
    CooldownEntry :=
  { e with
    errorCount := e.errorCount + 1
    failureCounts := fun r => if r = reason then e.failureCounts r + 1 else e.failureCounts r
    lastFailure := some now }

/-- The server's own delay counts for reasons other than billing. -/
def CooldownEntry.cool (now : Nat) (reason : FailoverReason) (retryAfterHint : Option Nat)
    (e : CooldownEntry) : CooldownEntry :=
  if reason = .billing then
    { e with
      disabledUntil := some (now + calculateBillingCooldown (e.failureCounts .billing))
      disabledReason := some reason }
  else
    let cooldown := (retryAfterHint.map fun d => min d maxStandardCooldown).getD
      (calculateStandardCooldown e.errorCount)
    { e with cooldownEnd := some (now + cooldown) }

def CooldownTracker.set (t : CooldownTracker) (provider : Text) (e : CooldownEntry) :
    CooldownTracker :=
  { t with entries := fun p => if p = provider then some e else t.entries p }

def CooldownTracker.markFailure (t : CooldownTracker) (now : Nat) (provider : Text)
    (reason : FailoverReason) (retryAfterHint : Option Nat) : CooldownTracker :=
  let e := (t.entries provider).getD .default
  t.set provider (((e.forget t.failureWindow now).count now reason).cool now reason retryAfterHint)

/-- The time of the last failure stays. -/
def CooldownTracker.markSuccess (t : CooldownTracker) (provider : Text) : CooldownTracker :=
  match t.entries provider with
  | none => t
  | some e => t.set provider { CooldownEntry.default with lastFailure := e.lastFailure }

def CooldownTracker.isAvailable (t : CooldownTracker) (now : Nat) (provider : Text) : Bool :=
  match t.entries provider with
  | none => true
  | some e =>
    if e.disabledUntil.any fun t => now < t then false
    else if e.cooldownEnd.any fun t => now < t then false
    else true

def CooldownTracker.cooldownRemaining (t : CooldownTracker) (now : Nat) (provider : Text) :
    Option Nat :=
  (t.entries provider).bind fun e =>
    match e.disabledUntil.filter fun t => now < t with
    | some t => some (t - now)
    | none => (e.cooldownEnd.filter fun t => now < t).map fun t => t - now

/-- Something remains of the cooldown exactly while the provider is not available. -/
theorem cooldownRemaining_eq_none {t : CooldownTracker} {now : Nat} {provider : Text} :
    t.cooldownRemaining now provider = none ↔ t.isAvailable now provider = true := by
  rw [CooldownTracker.cooldownRemaining, CooldownTracker.isAvailable]
  cases t.entries provider with
  | none => simp
  | some e =>
    have hcool : ((e.cooldownEnd.filter fun t => now < t).map fun t => t - now) = none ↔
        (e.cooldownEnd.any fun t => now < t) = false := by
      cases e.cooldownEnd <;> simp [Option.filter]
    rw [Option.bind_some]
    cases hd : e.disabledUntil with
    | none => simpa [Option.filter, hd] using hcool
    | some t' =>
      by_cases hlt : now < t'
      · simp [Option.filter, hd, hlt]
      · simpa [Option.filter, hd, hlt] using hcool

/-! Histories of marks, the last one first. -/

inductive Verdict where
  | success
  | failure (reason : FailoverReason) (retryAfterHint : Option Nat)
  deriving DecidableEq

structure Mark where
  time : Nat
  provider : Text
  verdict : Verdict
  deriving DecidableEq

def CooldownTracker.apply (m : Mark) (t : CooldownTracker) : CooldownTracker :=
  match m.verdict with
  | .success => t.markSuccess m.provider
  | .failure reason hint => t.markFailure m.time m.provider reason hint

/-- The tracker after these marks. -/
def trackerOf (window : Nat) : List Mark → CooldownTracker
  | [] => ⟨fun _ => none, window⟩
  | m :: past => (trackerOf window past).apply m

/-- The marks of one provider. -/
def ofProvider (provider : Text) (history : List Mark) : List Mark :=
  history.filter fun m => m.provider = provider

/-- The failures that still count at a failure at `now`. -/
def carried (window now : Nat) : List (Nat × FailoverReason) → List (Nat × FailoverReason)
  | [] => []
  | last :: earlier => if now - last.1 > window then [] else last :: earlier

/-- The failures that count together: since the last success, and without a gap longer than the
window. -/
def streak (window : Nat) : List Mark → List (Nat × FailoverReason)
  | [] => []
  | m :: past => match m.verdict with
    | .success => []
    | .failure reason _ => (m.time, reason) :: carried window m.time (streak window past)

/-- How long a failure keeps its provider out. `past` holds the provider's marks before it. -/
def cooldownOf (window : Nat) (m : Mark) (reason : FailoverReason) (hint : Option Nat)
    (past : List Mark) : Nat :=
  let counted := streak window (m :: past)
  if reason = .billing then
    calculateBillingCooldown ((counted.map Prod.snd).count .billing)
  else (hint.map fun d => min d maxStandardCooldown).getD (calculateStandardCooldown counted.length)

/-- When the last failure since the last success, among those for billing or among the others,
lets its provider in again. -/
def deadline (window : Nat) (billing : Bool) : List Mark → Option Nat
  | [] => none
  | m :: past => match m.verdict with
    | .success => none
    | .failure reason hint =>
      if decide (reason = .billing) = billing then
        some (m.time + cooldownOf window m reason hint past)
      else deadline window billing past

/-- The marks after a failure hold no success and no failure of its kind. -/
def Latest (reason : FailoverReason) (after : List Mark) : Prop :=
  ∀ later ∈ after, ∃ r hint, later.verdict = .failure r hint ∧
    ¬ (r = .billing ↔ reason = .billing)

def lastFailureTime (marks : List Mark) : Option Nat :=
  marks.findSome? fun m => match m.verdict with
    | .success => none
    | .failure _ _ => some m.time

/-- The entry of a provider says what its own marks say. -/
structure Tells (window : Nat) (marks : List Mark) (entry : Option CooldownEntry) : Prop where
  absent : entry = none → lastFailureTime marks = none
  errors : ∀ e ∈ entry, e.errorCount = (streak window marks).length
  reasons : ∀ e ∈ entry, ∀ r, e.failureCounts r = ((streak window marks).map Prod.snd).count r
  disabled : ∀ e ∈ entry, e.disabledUntil = deadline window true marks
  cooling : ∀ e ∈ entry, e.cooldownEnd = deadline window false marks
  last : ∀ e ∈ entry, e.lastFailure = lastFailureTime marks

variable {window : Nat}

theorem streak_failure {m : Mark} {reason : FailoverReason} {hint : Option Nat}
    (hv : m.verdict = .failure reason hint) (past : List Mark) :
    streak window (m :: past) =
      (m.time, reason) :: carried window m.time (streak window past) := by
  simp [streak, hv]

theorem lastFailureTime_failure {m : Mark} {reason : FailoverReason} {hint : Option Nat}
    (hv : m.verdict = .failure reason hint) (past : List Mark) :
    lastFailureTime (m :: past) = some m.time := by
  simp [lastFailureTime, hv]

/-- A streak ends in the last failure. -/
theorem streak_head (marks : List Mark) : streak window marks = [] ∨
    ∃ last earlier, streak window marks = last :: earlier ∧ lastFailureTime marks = some last.1 := by
  cases marks with
  | nil => exact .inl rfl
  | cons m past =>
    cases hv : m.verdict with
    | success => exact .inl (by simp [streak, hv])
    | failure reason hint =>
      exact .inr ⟨_, _, streak_failure hv past, lastFailureTime_failure hv past⟩

theorem deadline_eq_none {marks : List Mark} (h : lastFailureTime marks = none)
    (billing : Bool) : deadline window billing marks = none := by
  cases marks with
  | nil => rfl
  | cons m past =>
    cases hv : m.verdict with
    | success => simp [deadline, hv]
    | failure reason hint => simp [lastFailureTime_failure hv] at h

/-- A provider without an entry might as well have an empty one. -/
theorem Tells.getD {marks : List Mark} {entry : Option CooldownEntry}
    (h : Tells window marks entry) : Tells window marks (some (entry.getD .default)) := by
  cases entry with
  | some e => exact h
  | none =>
    have hnone := h.absent rfl
    have hstreak : streak window marks = [] := by
      cases @streak_head window marks with
      | inl h => exact h
      | inr h =>
        obtain ⟨last, _, _, hlast⟩ := h
        simp [hnone] at hlast
    refine ⟨by simp, ?_, ?_, ?_, ?_, ?_⟩
    · simp [CooldownEntry.default, hstreak]
    · simp [CooldownEntry.default, hstreak]
    · simp [CooldownEntry.default, deadline_eq_none hnone]
    · simp [CooldownEntry.default, deadline_eq_none hnone]
    · simp [CooldownEntry.default, hnone]

/-- What is forgotten at a failure is what no longer counts. -/
theorem Tells.forget {marks : List Mark} {e : CooldownEntry} (h : Tells window marks (some e))
    (now : Nat) : (e.forget window now).errorCount =
        (carried window now (streak window marks)).length ∧
      ∀ r, (e.forget window now).failureCounts r =
        ((carried window now (streak window marks)).map Prod.snd).count r := by
  have herrors := h.errors e rfl
  have hreasons := h.reasons e rfl
  have hlast := h.last e rfl
  obtain hnil | ⟨last, earlier, hcons, htime⟩ := @streak_head window marks
  · rw [hnil] at herrors hreasons ⊢
    rw [CooldownEntry.forget]
    split
    · split
      · simp [carried]
      · exact ⟨herrors, hreasons⟩
    · exact ⟨herrors, hreasons⟩
  · rw [htime] at hlast
    rw [hcons] at herrors hreasons ⊢
    simp only [CooldownEntry.forget, hlast, carried]
    split
    · simp
    · exact ⟨herrors, hreasons⟩

theorem forget_ends (e : CooldownEntry) (now : Nat) :
    (e.forget window now).disabledUntil = e.disabledUntil ∧
      (e.forget window now).cooldownEnd = e.cooldownEnd := by
  rw [CooldownEntry.forget]
  split
  · split <;> exact ⟨rfl, rfl⟩
  · exact ⟨rfl, rfl⟩

theorem Tells.failure {past : List Mark} {e : CooldownEntry} (h : Tells window past (some e))
    {m : Mark} {reason : FailoverReason} {hint : Option Nat}
    (hv : m.verdict = .failure reason hint) :
    Tells window (m :: past)
      (some (((e.forget window m.time).count m.time reason).cool m.time reason hint)) := by
  obtain ⟨herrors, hreasons⟩ := h.forget m.time
  obtain ⟨hdisabled, hcooling⟩ := @forget_ends window e m.time
  have hcounted := @streak_failure window m reason hint hv past
  generalize hc : (e.forget window m.time).count m.time reason = counted
  have hlen : counted.errorCount = (streak window (m :: past)).length := by
    rw [← hc, CooldownEntry.count, hcounted, List.length_cons, ← herrors]
  have hcount (r : FailoverReason) : counted.failureCounts r =
      ((streak window (m :: past)).map Prod.snd).count r := by
    rw [← hc, CooldownEntry.count, hcounted, List.map_cons, List.count_cons, ← hreasons r]
    by_cases hr : r = reason
    · simp [hr]
    · simp [hr, Ne.symm hr]
  have hlast : counted.lastFailure = some m.time := by rw [← hc, CooldownEntry.count]
  have hkept : counted.disabledUntil = deadline window true past ∧
      counted.cooldownEnd = deadline window false past := by
    rw [← hc, CooldownEntry.count]
    exact ⟨hdisabled.trans (h.disabled e rfl), hcooling.trans (h.cooling e rfl)⟩
  by_cases hb : reason = .billing
  · have hcool : cooldownOf window m reason hint past =
        calculateBillingCooldown (counted.failureCounts .billing) := by
      simp only [cooldownOf, if_pos hb, hcount]
    simp only [CooldownEntry.cool, if_pos hb]
    refine ⟨by simp, ?_, ?_, ?_, ?_, ?_⟩
    · simpa using hlen
    · simpa using hcount
    · simp [deadline, hv, hb, ← hcool]
    · simpa [deadline, hv, hb] using hkept.2
    · simpa [lastFailureTime_failure hv] using hlast
  · have hcool : cooldownOf window m reason hint past =
        (hint.map fun d => min d maxStandardCooldown).getD
          (calculateStandardCooldown counted.errorCount) := by
      simp only [cooldownOf, if_neg hb, hlen]
    simp only [CooldownEntry.cool, if_neg hb]
    refine ⟨by simp, ?_, ?_, ?_, ?_, ?_⟩
    · simpa using hlen
    · simpa using hcount
    · simpa [deadline, hv, hb] using hkept.1
    · simp [deadline, hv, hb, hcool]
    · simpa [lastFailureTime_failure hv] using hlast

theorem Tells.success {past : List Mark} {entry : Option CooldownEntry}
    (h : Tells window past entry) {m : Mark} (hv : m.verdict = .success) :
    Tells window (m :: past)
      (entry.map fun e => { CooldownEntry.default with lastFailure := e.lastFailure }) := by
  have hlast : lastFailureTime (m :: past) = lastFailureTime past := by
    simp [lastFailureTime, hv]
  cases entry with
  | none => exact ⟨fun _ => hlast.trans (h.absent rfl), by simp, by simp, by simp, by simp, by simp⟩
  | some e =>
    refine ⟨by simp, ?_, ?_, ?_, ?_, ?_⟩
    · simp [CooldownEntry.default, streak, hv]
    · simp [CooldownEntry.default, streak, hv]
    · simp [CooldownEntry.default, deadline, hv]
    · simp [CooldownEntry.default, deadline, hv]
    · simpa [hlast] using h.last e rfl

theorem trackerOf_window (history : List Mark) :
    (trackerOf window history).failureWindow = window := by
  induction history with
  | nil => rfl
  | cons m past ih =>
    rw [trackerOf, CooldownTracker.apply]
    cases m.verdict with
    | failure reason hint => exact ih
    | success =>
      simp only [CooldownTracker.markSuccess]
      split
      · exact ih
      · exact ih

theorem ofProvider_cons (m : Mark) (past : List Mark) (provider : Text) :
    ofProvider provider (m :: past) =
      if m.provider = provider then m :: ofProvider provider past else ofProvider provider past := by
  simp [ofProvider, List.filter_cons]

/-- A mark changes the entry of its own provider. -/
theorem entries_apply (m : Mark) (t : CooldownTracker) (provider : Text) :
    (t.apply m).entries provider =
      if provider ≠ m.provider then t.entries provider
      else match m.verdict with
        | .success => (t.entries provider).map fun e =>
          { CooldownEntry.default with lastFailure := e.lastFailure }
        | .failure reason hint => some (((((t.entries provider).getD .default).forget
            t.failureWindow m.time).count m.time reason).cool m.time reason hint) := by
  by_cases hp : provider = m.provider
  · subst hp
    cases hv : m.verdict with
    | failure reason hint =>
      simp [CooldownTracker.apply, CooldownTracker.markFailure, CooldownTracker.set, hv]
    | success =>
      cases he : t.entries m.provider <;>
        simp [CooldownTracker.apply, CooldownTracker.markSuccess, CooldownTracker.set, hv, he]
  · rw [if_pos hp]
    cases hv : m.verdict with
    | failure reason hint =>
      simp [CooldownTracker.apply, CooldownTracker.markFailure, CooldownTracker.set, hv, hp]
    | success =>
      cases he : t.entries m.provider <;>
        simp [CooldownTracker.apply, CooldownTracker.markSuccess, CooldownTracker.set, hv, he, hp]

theorem trackerOf_tells (history : List Mark) (provider : Text) :
    Tells window (ofProvider provider history) ((trackerOf window history).entries provider) := by
  induction history with
  | nil => exact ⟨fun _ => rfl, by simp [trackerOf], by simp [trackerOf], by simp [trackerOf],
      by simp [trackerOf], by simp [trackerOf]⟩
  | cons m past ih =>
    rw [trackerOf, entries_apply, ofProvider_cons, trackerOf_window]
    by_cases hp : provider = m.provider
    · rw [if_pos hp.symm, if_neg (not_not.mpr hp)]
      cases hv : m.verdict with
      | success => exact ih.success hv
      | failure reason hint => exact ih.getD.failure hv
    · rw [if_neg (Ne.symm hp), if_pos hp]
      exact ih

/-- A deadline is that of the latest failure of its kind. -/
theorem deadline_eq_some {billing : Bool} {marks : List Mark} {t : Nat} :
    deadline window billing marks = some t ↔ ∃ after m past reason hint,
      marks = after ++ m :: past ∧ m.verdict = .failure reason hint ∧ Latest reason after ∧
      decide (reason = .billing) = billing ∧ t = m.time + cooldownOf window m reason hint past := by
  induction marks with
  | nil => simp [deadline]
  | cons first rest ih =>
    constructor
    · intro h
      cases hv : first.verdict with
      | success => simp [deadline, hv] at h
      | failure reason hint =>
        by_cases hb : decide (reason = .billing) = billing
        · simp only [deadline, hv, if_pos hb, Option.some.injEq] at h
          exact ⟨[], first, rest, reason, hint, rfl, hv, by simp [Latest], hb, h.symm⟩
        · simp only [deadline, hv, if_neg hb] at h
          obtain ⟨after, m, past, r, hint', rfl, hm, hlatest, hkind, ht⟩ := ih.mp h
          refine ⟨first :: after, m, past, r, hint', rfl, hm, fun later hl => ?_, hkind, ht⟩
          cases List.mem_cons.mp hl with
          | inl hl => exact ⟨reason, hint, hl ▸ hv, fun hsame => hb (hkind ▸ decide_eq_decide.mpr hsame)⟩
          | inr hl => exact hlatest later hl
    · rintro ⟨after, m, past, reason, hint, hsplit, hm, hlatest, hkind, ht⟩
      cases after with
      | nil =>
        obtain ⟨rfl, rfl⟩ := List.cons.inj hsplit
        simp [deadline, hm, hkind, ht]
      | cons later after =>
        obtain ⟨rfl, rfl⟩ := List.cons.inj hsplit
        obtain ⟨r, hint', hv, hother⟩ := hlatest first List.mem_cons_self
        have hb : decide (r = .billing) ≠ billing := fun hsame =>
          hother (decide_eq_decide.mp (hsame.trans hkind.symm))
        simp only [deadline, hv, if_neg hb]
        exact ih.mpr ⟨after, m, past, reason, hint, rfl, hm,
          fun l hl => hlatest l (List.mem_cons_of_mem _ hl), hkind, ht⟩

/-- A failure still keeps its provider out: the last of its kind since the last success. -/
def Blocked (window : Nat) (marks : List Mark) (now : Nat) : Prop :=
  ∃ after m past reason hint, marks = after ++ m :: past ∧ m.verdict = .failure reason hint ∧
    Latest reason after ∧ now < m.time + cooldownOf window m reason hint past

theorem blocked_iff {marks : List Mark} {now : Nat} : Blocked window marks now ↔
    (deadline window true marks).any (now < ·) = true ∨
      (deadline window false marks).any (now < ·) = true := by
  simp only [Option.any_eq_true, decide_eq_true_eq]
  constructor
  · rintro ⟨after, m, past, reason, hint, hsplit, hv, hlatest, hlt⟩
    have hdeadline : deadline window (decide (reason = .billing)) marks =
        some (m.time + cooldownOf window m reason hint past) :=
      deadline_eq_some.mpr ⟨after, m, past, reason, hint, hsplit, hv, hlatest, rfl, rfl⟩
    cases hb : decide (reason = .billing) with
    | true => exact .inl ⟨_, hb ▸ hdeadline, hlt⟩
    | false => exact .inr ⟨_, hb ▸ hdeadline, hlt⟩
  · have hback {billing : Bool} {t : Nat} (ht : deadline window billing marks = some t)
        (hlt : now < t) : Blocked window marks now := by
      obtain ⟨after, m, past, reason, hint, hsplit, hv, hlatest, _, rfl⟩ := deadline_eq_some.mp ht
      exact ⟨after, m, past, reason, hint, hsplit, hv, hlatest, hlt⟩
    rintro (⟨t, ht, hlt⟩ | ⟨t, ht, hlt⟩)
    · exact hback ht hlt
    · exact hback ht hlt

/-- A provider is available exactly when its own marks do not block it, whatever other providers
were marked in between. -/
theorem isAvailable_iff (history : List Mark) (now : Nat) (provider : Text) :
    (trackerOf window history).isAvailable now provider = true ↔
      ¬ Blocked window (ofProvider provider history) now := by
  have htells := @trackerOf_tells window history provider
  rw [blocked_iff, CooldownTracker.isAvailable]
  cases he : (trackerOf window history).entries provider with
  | none =>
    have hnone := htells.absent he
    simp [deadline_eq_none hnone]
  | some e =>
    rw [← htells.disabled e he, ← htells.cooling e he]
    simp

theorem fromSecs_le {a b : Nat} (h : a ≤ b) : fromSecs a ≤ fromSecs b := by
  rw [fromSecs, fromSecs]
  exact Nat.mul_le_mul_right _ h

theorem calculateStandardCooldown_le (n : Nat) :
    calculateStandardCooldown n ≤ maxStandardCooldown := by
  simp only [calculateStandardCooldown]
  exact min_le_right _ _

theorem calculateBillingCooldown_le (n : Nat) :
    calculateBillingCooldown n ≤ fromSecs 86400 := by
  simp only [calculateBillingCooldown]
  exact fromSecs_le (min_le_right _ _)

theorem getD_le {o : Option Nat} {a b : Nat} (ha : a ≤ b) (ho : ∀ x ∈ o, x ≤ b) :
    o.getD a ≤ b := by
  cases o with
  | none => exact ha
  | some x => exact ho x rfl

/-- No failure keeps its provider out for more than a day. -/
theorem cooldownOf_le (m : Mark) (reason : FailoverReason) (hint : Option Nat)
    (past : List Mark) : cooldownOf window m reason hint past ≤ fromSecs 86400 := by
  have hmax : maxStandardCooldown ≤ fromSecs 86400 := by
    rw [maxStandardCooldown]
    exact fromSecs_le (by norm_num)
  unfold cooldownOf
  generalize streak window (m :: past) = counted
  by_cases hb : reason = .billing
  · rw [if_pos hb]
    exact calculateBillingCooldown_le _
  · rw [if_neg hb]
    refine getD_le (le_trans (calculateStandardCooldown_le counted.length) hmax) fun x hx => ?_
    obtain ⟨d, _, rfl⟩ := Option.mem_map.mp hx
    exact le_trans (min_le_right d maxStandardCooldown) hmax

end NemesisBot.Failover

import NemesisBot.Lib.SlidingWindow
import NemesisBot.Lib.Strings

/-! The discussion quota: two sliding windows for a node and a counter for a thread. -/
namespace NemesisBot.Quota
open Strings SlidingWindow

/-- Zero switches a gate off. -/
structure QuotaConfig where
  maxAgentTurnsPerThread : UInt32
  hourlyBudgetPerNode : UInt32
  rateLimitPerMin : UInt32

inductive QuotaDenied where
  | threadQuotaExhausted
  | hourlyBudgetExhausted
  | rateLimited
  deriving DecidableEq, Repr

/-- Times of posts: those of the last minute and those of the last hour. -/
structure NodeWindow where
  minute : List Int
  hour : List Int

structure LedgerInner where
  nodes : Text → Option NodeWindow
  threads : Text → Option UInt32

def LedgerInner.default : LedgerInner := ⟨fun _ => none, fun _ => none⟩

namespace LedgerInner

def node (s : LedgerInner) (nodeId : Text) : NodeWindow := (s.nodes nodeId).getD ⟨[], []⟩

def used (s : LedgerInner) (threadKey : Text) : UInt32 := (s.threads threadKey).getD 0

def setNode (s : LedgerInner) (nodeId : Text) (w : NodeWindow) : LedgerInner :=
  { s with nodes := Function.update s.nodes nodeId (some w) }

def setUsed (s : LedgerInner) (threadKey : Text) (n : UInt32) : LedgerInner :=
  { s with threads := Function.update s.threads threadKey (some n) }

end LedgerInner

def turnsLeftLocked (cfg : QuotaConfig) (s : LedgerInner) (threadKey : Text) : UInt32 :=
  if cfg.maxAgentTurnsPerThread = 0 then 0xFFFFFFFF
  else if cfg.maxAgentTurnsPerThread < s.used threadKey then 0
  else cfg.maxAgentTurnsPerThread - s.used threadKey

def turnsLeft (cfg : QuotaConfig) (s : LedgerInner) (threadKey : Text) : UInt32 :=
  turnsLeftLocked cfg s threadKey

/-- A limit that is on and reached by the 32-bit count of the times. -/
def full (limit : UInt32) (times : List Int) : Prop :=
  0 < limit ∧ limit ≤ UInt32.ofNat times.length

instance (limit : UInt32) (times : List Int) : Decidable (full limit times) :=
  inferInstanceAs (Decidable (_ ∧ _))

/-- The first gate prunes the minute of the node when it is on. -/
def pruneMinute (cfg : QuotaConfig) (s : LedgerInner) (nodeId : Text) (now : Int) : LedgerInner :=
  if 0 < cfg.rateLimitPerMin then
    s.setNode nodeId { s.node nodeId with minute := recent 60 now (s.node nodeId).minute }
  else s

def pruneHour (cfg : QuotaConfig) (s : LedgerInner) (nodeId : Text) (now : Int) : LedgerInner :=
  if 0 < cfg.hourlyBudgetPerNode then
    s.setNode nodeId { s.node nodeId with hour := recent 3600 now (s.node nodeId).hour }
  else s

/-- The third gate makes sure that the thread has an entry. -/
def openThread (cfg : QuotaConfig) (s : LedgerInner) (threadKey : Text) : LedgerInner :=
  if 0 < cfg.maxAgentTurnsPerThread then s.setUsed threadKey (s.used threadKey) else s

/-- All gates are passed and the three accounts are charged. -/
def charge (cfg : QuotaConfig) (s : LedgerInner) (threadKey nodeId : Text) (now : Int) :
    LedgerInner :=
  let w := s.node nodeId
  let s := s.setNode nodeId ⟨w.minute ++ [now], w.hour ++ [now]⟩
  if 0 < cfg.maxAgentTurnsPerThread then s.setUsed threadKey (s.used threadKey + 1) else s

def tryConsumePost (cfg : QuotaConfig) (s : LedgerInner) (threadKey nodeId : Text) (now : Int) :
    LedgerInner × Except QuotaDenied UInt32 :=
  let s₁ := pruneMinute cfg s nodeId now
  if full cfg.rateLimitPerMin (s₁.node nodeId).minute then (s₁, .error .rateLimited)
  else
    let s₂ := pruneHour cfg s₁ nodeId now
    if full cfg.hourlyBudgetPerNode (s₂.node nodeId).hour then (s₂, .error .hourlyBudgetExhausted)
    else
      let s₃ := openThread cfg s₂ threadKey
      if 0 < cfg.maxAgentTurnsPerThread ∧ cfg.maxAgentTurnsPerThread ≤ s₃.used threadKey then
        (s₃, .error .threadQuotaExhausted)
      else
        let s₄ := charge cfg s₃ threadKey nodeId now
        (s₄, .ok (turnsLeftLocked cfg s₄ threadKey))

def canPost (cfg : QuotaConfig) (s : LedgerInner) (nodeId : Text) (now : Int) :
    Except QuotaDenied Unit :=
  match s.nodes nodeId with
  | none => .ok ()
  | some w =>
    if full cfg.rateLimitPerMin (recent 60 now w.minute) then .error .rateLimited
    else if full cfg.hourlyBudgetPerNode (recent 3600 now w.hour) then
      .error .hourlyBudgetExhausted
    else .ok ()

structure Call where
  threadKey : Text
  nodeId : Text
  nowSecs : Int

def Call.post (cfg : QuotaConfig) (s : LedgerInner) (c : Call) :
    LedgerInner × Except QuotaDenied UInt32 :=
  tryConsumePost cfg s c.threadKey c.nodeId c.nowSecs

/-- The calls one after the other, each with its answer. -/
def answers (cfg : QuotaConfig) : LedgerInner → List Call → List (Call × Except QuotaDenied UInt32)
  | _, [] => []
  | s, c :: cs => (c, (c.post cfg s).2) :: answers cfg (c.post cfg s).1 cs

def after (cfg : QuotaConfig) : LedgerInner → List Call → LedgerInner
  | s, [] => s
  | s, c :: cs => after cfg (c.post cfg s).1 cs

/-- The accepted calls of a log. -/
def accepted (log : List (Call × Except QuotaDenied UInt32)) : List Call :=
  (log.filter fun e => e.2.isOk).map Prod.fst

/-- When the node posted. -/
def postTimes (nodeId : Text) (cs : List Call) : List Int :=
  (cs.filter fun c => c.nodeId = nodeId).map Call.nowSecs

def postsOn (threadKey : Text) (cs : List Call) : List Call :=
  cs.filter fun c => c.threadKey = threadKey

/-! What a ledger answers depends on its recent times and its counters only. -/

namespace LedgerInner
variable (s : LedgerInner) (nodeId threadKey : Text) (w : NodeWindow) (n : UInt32)

@[simp] theorem node_setNode_self : (s.setNode nodeId w).node nodeId = w := by
  simp [setNode, node]

theorem node_setNode_of_ne {other : Text} (h : other ≠ nodeId) :
    (s.setNode nodeId w).node other = s.node other := by
  simp [setNode, node, Function.update_of_ne h]

@[simp] theorem used_setNode : (s.setNode nodeId w).used threadKey = s.used threadKey := rfl

@[simp] theorem node_setUsed : (s.setUsed threadKey n).node nodeId = s.node nodeId := rfl

@[simp] theorem used_setUsed_self : (s.setUsed threadKey n).used threadKey = n := by
  simp [setUsed, used]

theorem used_setUsed_of_ne {other : Text} (h : other ≠ threadKey) :
    (s.setUsed threadKey n).used other = s.used other := by
  simp [setUsed, used, Function.update_of_ne h]

end LedgerInner

/-- Two ledgers that differ in what is pruned by `now` only. -/
structure Alike (now : Int) (s s' : LedgerInner) : Prop where
  minute : ∀ n, recent 60 now (s.node n).minute = recent 60 now (s'.node n).minute
  hour : ∀ n, recent 3600 now (s.node n).hour = recent 3600 now (s'.node n).hour
  used : ∀ t, s.used t = s'.used t

theorem Alike.refl (now : Int) (s : LedgerInner) : Alike now s s :=
  ⟨fun _ => rfl, fun _ => rfl, fun _ => rfl⟩

variable {cfg : QuotaConfig} {s s' s'' : LedgerInner} {threadKey nodeId : Text} {now now' : Int}

theorem Alike.symm (h : Alike now s s') : Alike now s' s :=
  ⟨fun n => (h.minute n).symm, fun n => (h.hour n).symm, fun t => (h.used t).symm⟩

theorem Alike.trans (h : Alike now s s') (h' : Alike now s' s'') : Alike now s s'' :=
  ⟨fun n => (h.minute n).trans (h'.minute n), fun n => (h.hour n).trans (h'.hour n),
    fun t => (h.used t).trans (h'.used t)⟩

theorem Alike.later (h : Alike now s s') (hle : now ≤ now') : Alike now' s s' :=
  ⟨fun n => recent_congr hle (h.minute n), fun n => recent_congr hle (h.hour n), h.used⟩

theorem setNode_alike {w : NodeWindow}
    (hm : recent 60 now w.minute = recent 60 now (s.node nodeId).minute)
    (hh : recent 3600 now w.hour = recent 3600 now (s.node nodeId).hour) :
    Alike now (s.setNode nodeId w) s := by
  refine ⟨fun n => ?_, fun n => ?_, fun t => rfl⟩
  · by_cases hn : n = nodeId
    · rw [hn, LedgerInner.node_setNode_self, hm]
    · rw [LedgerInner.node_setNode_of_ne _ _ _ hn]
  · by_cases hn : n = nodeId
    · rw [hn, LedgerInner.node_setNode_self, hh]
    · rw [LedgerInner.node_setNode_of_ne _ _ _ hn]

theorem pruneMinute_alike (cfg : QuotaConfig) (s : LedgerInner) (nodeId : Text) (now : Int) :
    Alike now (pruneMinute cfg s nodeId now) s := by
  unfold pruneMinute
  split
  · exact setNode_alike (recent_recent le_rfl _) rfl
  · exact Alike.refl now s

theorem pruneHour_alike (cfg : QuotaConfig) (s : LedgerInner) (nodeId : Text) (now : Int) :
    Alike now (pruneHour cfg s nodeId now) s := by
  unfold pruneHour
  split
  · exact setNode_alike rfl (recent_recent le_rfl _)
  · exact Alike.refl now s

theorem openThread_alike (cfg : QuotaConfig) (s : LedgerInner) (threadKey : Text) (now : Int) :
    Alike now (openThread cfg s threadKey) s := by
  unfold openThread
  split
  · refine ⟨fun n => rfl, fun n => rfl, fun t => ?_⟩
    by_cases ht : t = threadKey
    · rw [ht, LedgerInner.used_setUsed_self]
    · rw [LedgerInner.used_setUsed_of_ne _ _ _ ht]
  · exact Alike.refl now s

/-- The reason for which a post is refused, read off the recent times. -/
def refusal (cfg : QuotaConfig) (s : LedgerInner) (threadKey nodeId : Text) (now : Int) :
    Option QuotaDenied :=
  if full cfg.rateLimitPerMin (recent 60 now (s.node nodeId).minute) then some .rateLimited
  else if full cfg.hourlyBudgetPerNode (recent 3600 now (s.node nodeId).hour) then
    some .hourlyBudgetExhausted
  else if 0 < cfg.maxAgentTurnsPerThread ∧ cfg.maxAgentTurnsPerThread ≤ s.used threadKey then
    some .threadQuotaExhausted
  else none

theorem full_pruneMinute :
    full cfg.rateLimitPerMin ((pruneMinute cfg s nodeId now).node nodeId).minute ↔
      full cfg.rateLimitPerMin (recent 60 now (s.node nodeId).minute) := by
  unfold pruneMinute
  split
  · rw [LedgerInner.node_setNode_self]
  · rename_i h
    exact ⟨fun hf => absurd hf.1 h, fun hf => absurd hf.1 h⟩

theorem full_pruneHour :
    full cfg.hourlyBudgetPerNode ((pruneHour cfg s nodeId now).node nodeId).hour ↔
      full cfg.hourlyBudgetPerNode (recent 3600 now (s.node nodeId).hour) := by
  unfold pruneHour
  split
  · rw [LedgerInner.node_setNode_self]
  · rename_i h
    exact ⟨fun hf => absurd hf.1 h, fun hf => absurd hf.1 h⟩

theorem Alike.charge (h : Alike now s s') (cfg : QuotaConfig) (threadKey nodeId : Text) :
    Alike now (charge cfg s threadKey nodeId now) (charge cfg s' threadKey nodeId now) := by
  have hnode : Alike now
      (s.setNode nodeId ⟨(s.node nodeId).minute ++ [now], (s.node nodeId).hour ++ [now]⟩)
      (s'.setNode nodeId ⟨(s'.node nodeId).minute ++ [now], (s'.node nodeId).hour ++ [now]⟩) := by
    refine ⟨fun n => ?_, fun n => ?_, h.used⟩
    · by_cases hn : n = nodeId
      · rw [hn, LedgerInner.node_setNode_self, LedgerInner.node_setNode_self, recent_append,
          recent_append, h.minute]
      · rw [LedgerInner.node_setNode_of_ne _ _ _ hn, LedgerInner.node_setNode_of_ne _ _ _ hn,
          h.minute]
    · by_cases hn : n = nodeId
      · rw [hn, LedgerInner.node_setNode_self, LedgerInner.node_setNode_self, recent_append,
          recent_append, h.hour]
      · rw [LedgerInner.node_setNode_of_ne _ _ _ hn, LedgerInner.node_setNode_of_ne _ _ _ hn,
          h.hour]
  simp only [Quota.charge]
  split
  · refine ⟨hnode.minute, hnode.hour, fun t => ?_⟩
    by_cases ht : t = threadKey
    · rw [ht, LedgerInner.used_setUsed_self, LedgerInner.used_setUsed_self, hnode.used]
    · rw [LedgerInner.used_setUsed_of_ne _ _ _ ht, LedgerInner.used_setUsed_of_ne _ _ _ ht,
        hnode.used]
  · exact hnode

theorem Alike.refusal (h : Alike now s s') (cfg : QuotaConfig) (threadKey nodeId : Text) :
    refusal cfg s threadKey nodeId now = refusal cfg s' threadKey nodeId now := by
  simp only [Quota.refusal, h.minute, h.hour, h.used]

theorem Alike.turnsLeft (h : Alike now s s') (cfg : QuotaConfig) (threadKey : Text) :
    turnsLeftLocked cfg s threadKey = turnsLeftLocked cfg s' threadKey := by
  simp only [turnsLeftLocked, h.used]

/-- What one call does: a refused one prunes, an accepted one charges. -/
theorem tryConsumePost_spec (cfg : QuotaConfig) (s : LedgerInner) (threadKey nodeId : Text)
    (now : Int) :
    match refusal cfg s threadKey nodeId now with
    | some e => (tryConsumePost cfg s threadKey nodeId now).2 = .error e ∧
        Alike now (tryConsumePost cfg s threadKey nodeId now).1 s
    | none => (tryConsumePost cfg s threadKey nodeId now).2 =
          .ok (turnsLeftLocked cfg (charge cfg s threadKey nodeId now) threadKey) ∧
        Alike now (tryConsumePost cfg s threadKey nodeId now).1
          (charge cfg s threadKey nodeId now) := by
  have h₁ := pruneMinute_alike cfg s nodeId now
  have h₂ := (pruneHour_alike cfg (pruneMinute cfg s nodeId now) nodeId now).trans h₁
  have h₃ := (openThread_alike cfg (pruneHour cfg (pruneMinute cfg s nodeId now) nodeId now)
    threadKey now).trans h₂
  have h₄ := h₃.charge cfg threadKey nodeId
  have hhour : full cfg.hourlyBudgetPerNode
        ((pruneHour cfg (pruneMinute cfg s nodeId now) nodeId now).node nodeId).hour ↔ _ :=
    full_pruneHour
  rw [h₁.hour] at hhour
  unfold tryConsumePost refusal
  simp only [full_pruneMinute, hhour, h₃.used]
  by_cases hr : full cfg.rateLimitPerMin (recent 60 now (s.node nodeId).minute)
  · simp only [if_pos hr]
    exact ⟨trivial, h₁⟩
  simp only [if_neg hr]
  by_cases hb : full cfg.hourlyBudgetPerNode (recent 3600 now (s.node nodeId).hour)
  · simp only [if_pos hb]
    exact ⟨trivial, h₂⟩
  simp only [if_neg hb]
  by_cases ht : 0 < cfg.maxAgentTurnsPerThread ∧ cfg.maxAgentTurnsPerThread ≤ s.used threadKey
  · simp only [if_pos ht]
    exact ⟨trivial, h₃⟩
  · simp only [if_neg ht]
    exact ⟨by rw [h₄.turnsLeft], h₄⟩

/-- Refusals for the rate and the hourly budget are those that `can_post` foretells. -/
theorem canPost_eq (cfg : QuotaConfig) (s : LedgerInner) (nodeId : Text) (now : Int) :
    canPost cfg s nodeId now =
      if full cfg.rateLimitPerMin (recent 60 now (s.node nodeId).minute) then
        .error .rateLimited
      else if full cfg.hourlyBudgetPerNode (recent 3600 now (s.node nodeId).hour) then
        .error .hourlyBudgetExhausted
      else .ok () := by
  have hempty : ∀ limit, ¬ full limit [] := fun limit h =>
    UInt32.lt_irrefl 0 (UInt32.lt_of_lt_of_le h.1 h.2)
  unfold canPost LedgerInner.node
  cases h : s.nodes nodeId with
  | none => simp [recent, hempty]
  | some w => rfl

theorem canPost_ok_iff (cfg : QuotaConfig) (s : LedgerInner) (threadKey nodeId : Text)
    (now : Int) : canPost cfg s nodeId now = .ok () ↔
      (tryConsumePost cfg s threadKey nodeId now).2 ≠ .error .rateLimited ∧
      (tryConsumePost cfg s threadKey nodeId now).2 ≠ .error .hourlyBudgetExhausted := by
  have hspec := tryConsumePost_spec cfg s threadKey nodeId now
  rw [canPost_eq]
  unfold refusal at hspec
  by_cases hr : full cfg.rateLimitPerMin (recent 60 now (s.node nodeId).minute)
  · simp only [if_pos hr] at hspec ⊢
    simp [hspec.1]
  simp only [if_neg hr] at hspec ⊢
  by_cases hb : full cfg.hourlyBudgetPerNode (recent 3600 now (s.node nodeId).hour)
  · simp only [if_pos hb] at hspec ⊢
    simp [hspec.1]
  simp only [if_neg hb] at hspec ⊢
  by_cases ht : 0 < cfg.maxAgentTurnsPerThread ∧ cfg.maxAgentTurnsPerThread ≤ s.used threadKey
  · simp only [if_pos ht] at hspec
    simp [hspec.1]
  · simp only [if_neg ht] at hspec
    simp [hspec.1]

/-- Ledgers that are alike answer alike from then on. -/
theorem answers_alike {cs : List Call} (h : Alike now s s') (hle : ∀ c ∈ cs, now ≤ c.nowSecs)
    (hs : cs.Pairwise fun c d => c.nowSecs ≤ d.nowSecs) : answers cfg s cs = answers cfg s' cs := by
  induction cs generalizing s s' now with
  | nil => rfl
  | cons c cs ih =>
    obtain ⟨hc, hs⟩ := List.pairwise_cons.mp hs
    have hnow := h.later (hle c List.mem_cons_self)
    have hspec := tryConsumePost_spec cfg s c.threadKey c.nodeId c.nowSecs
    have hspec' := tryConsumePost_spec cfg s' c.threadKey c.nodeId c.nowSecs
    rw [← hnow.refusal] at hspec'
    rw [answers, answers, Call.post, Call.post]
    cases hr : refusal cfg s c.threadKey c.nodeId c.nowSecs with
    | some e =>
      simp only [hr] at hspec hspec'
      rw [hspec.1, hspec'.1, ih ((hspec.2.trans hnow).trans hspec'.2.symm) hc hs]
    | none =>
      simp only [hr] at hspec hspec'
      have hcharge := hnow.charge cfg c.threadKey c.nodeId
      rw [hspec.1, hspec'.1, hcharge.turnsLeft,
        ih ((hspec.2.trans hcharge).trans hspec'.2.symm) hc hs]

theorem answers_append (s : LedgerInner) (cs ds : List Call) :
    answers cfg s (cs ++ ds) = answers cfg s cs ++ answers cfg (after cfg s cs) ds := by
  induction cs generalizing s with
  | nil => rfl
  | cons c cs ih => simp [answers, after, ih]

theorem after_append (s : LedgerInner) (cs ds : List Call) :
    after cfg s (cs ++ ds) = after cfg (after cfg s cs) ds := by
  induction cs generalizing s with
  | nil => rfl
  | cons c cs ih => exact ih _

/-! The windows over a whole run. -/

theorem length_lt_of_not_full {limit : UInt32} {times : List Int} (hpos : 0 < limit)
    (hle : times.length ≤ limit.toNat) (h : ¬ full limit times) : times.length < limit.toNat := by
  have hlt : UInt32.ofNat times.length < limit := by
    rw [← UInt32.not_le]
    exact fun hf => h ⟨hpos, hf⟩
  rw [UInt32.lt_iff_toNat_lt, UInt32.toNat_ofNat'] at hlt
  have hmod := Nat.mod_eq_of_lt (hle.trans_lt limit.toNat_lt)
  omega

/-- The ledger after a log of calls, the last of which came at `now`. -/
structure Tracked (cfg : QuotaConfig) (now : Int) (log : List (Call × Except QuotaDenied UInt32))
    (s : LedgerInner) : Prop where
  past : ∀ c ∈ accepted log, c.nowSecs ≤ now
  minute : ∀ n, recent 60 now (s.node n).minute = recent 60 now (postTimes n (accepted log))
  hour : ∀ n, recent 3600 now (s.node n).hour = recent 3600 now (postTimes n (accepted log))
  used : 0 < cfg.maxAgentTurnsPerThread →
    ∀ t, (s.used t).toNat = (postsOn t (accepted log)).length
  rate : 0 < cfg.rateLimitPerMin →
    ∀ n, Admitted 60 cfg.rateLimitPerMin.toNat (postTimes n (accepted log))
  hourly : 0 < cfg.hourlyBudgetPerNode →
    ∀ n, Admitted 3600 cfg.hourlyBudgetPerNode.toNat (postTimes n (accepted log))
  turns : 0 < cfg.maxAgentTurnsPerThread →
    ∀ t, (postsOn t (accepted log)).length ≤ cfg.maxAgentTurnsPerThread.toNat

theorem accepted_append (log log' : List (Call × Except QuotaDenied UInt32)) :
    accepted (log ++ log') = accepted log ++ accepted log' := by
  simp [accepted]

theorem postTimes_append (n : Text) (cs ds : List Call) :
    postTimes n (cs ++ ds) = postTimes n cs ++ postTimes n ds := by
  simp [postTimes]

theorem postsOn_append (t : Text) (cs ds : List Call) :
    postsOn t (cs ++ ds) = postsOn t cs ++ postsOn t ds := by
  simp [postsOn]

theorem tracked_default (cfg : QuotaConfig) (now : Int) :
    Tracked cfg now [] LedgerInner.default where
  past := by simp [accepted]
  minute _ := rfl
  hour _ := rfl
  used _ _ := rfl
  rate _ _ := .nil
  hourly _ _ := .nil
  turns _ _ := Nat.zero_le _

variable {log : List (Call × Except QuotaDenied UInt32)}

theorem Tracked.alike (h : Tracked cfg now log s) (ha : Alike now s' s) : Tracked cfg now log s' :=
  { h with
    minute := fun n => (ha.minute n).trans (h.minute n)
    hour := fun n => (ha.hour n).trans (h.hour n)
    used := fun hpos t => by rw [ha.used, h.used hpos] }

theorem Tracked.later (h : Tracked cfg now log s) (hle : now ≤ now') : Tracked cfg now' log s :=
  { h with
    past := fun c hc => (h.past c hc).trans hle
    minute := fun n => recent_congr hle (h.minute n)
    hour := fun n => recent_congr hle (h.hour n) }

theorem Tracked.refused (h : Tracked cfg now log s) (c : Call) (e : QuotaDenied) :
    Tracked cfg now (log ++ [(c, .error e)]) s := by
  have hacc : accepted (log ++ [(c, .error e)]) = accepted log := by
    rw [accepted_append]
    exact List.append_nil _
  constructor <;> rw [hacc]
  exacts [h.past, h.minute, h.hour, h.used, h.rate, h.hourly, h.turns]

/-- The posts of a node all lie before the call, so those that count fill one window. -/
theorem Tracked.recent_le {w : Int} {limit : Nat} (h : Tracked cfg now log s) (n : Text)
    (ha : Admitted w limit (postTimes n (accepted log))) :
    (recent w now (postTimes n (accepted log))).length ≤ limit := by
  rw [recent_eq_within]
  · exact ha.length_within_le
  · intro t ht
    obtain ⟨c, hc, rfl⟩ := List.mem_map.mp ht
    exact h.past c (List.mem_of_mem_filter hc)

theorem postTimes_singleton (n : Text) (c : Call) :
    postTimes n [c] = if c.nodeId = n then [c.nowSecs] else [] := by
  by_cases h : c.nodeId = n <;> simp [postTimes, h]

theorem postsOn_singleton (t : Text) (c : Call) :
    postsOn t [c] = if c.threadKey = t then [c] else [] := by
  by_cases h : c.threadKey = t <;> simp [postsOn, h]

theorem node_charge (cfg : QuotaConfig) (s : LedgerInner) (threadKey nodeId : Text) (now : Int)
    (n : Text) :
    (charge cfg s threadKey nodeId now).node n =
      if nodeId = n then ⟨(s.node n).minute ++ [now], (s.node n).hour ++ [now]⟩ else s.node n := by
  have hset : (charge cfg s threadKey nodeId now).node n =
      (s.setNode nodeId
        ⟨(s.node nodeId).minute ++ [now], (s.node nodeId).hour ++ [now]⟩).node n := by
    unfold charge
    split <;> rfl
  rw [hset]
  by_cases h : nodeId = n
  · rw [if_pos h, h, LedgerInner.node_setNode_self]
  · rw [if_neg h, LedgerInner.node_setNode_of_ne _ _ _ (Ne.symm h)]

theorem used_charge {threadKey : Text} (hpos : 0 < cfg.maxAgentTurnsPerThread) (s : LedgerInner)
    (nodeId : Text) (now : Int) (t : Text) :
    (charge cfg s threadKey nodeId now).used t =
      if threadKey = t then s.used t + 1 else s.used t := by
  unfold charge
  rw [if_pos hpos]
  by_cases h : threadKey = t
  · rw [if_pos h, ← h, LedgerInner.used_setUsed_self, LedgerInner.used_setNode]
  · rw [if_neg h, LedgerInner.used_setUsed_of_ne _ _ _ (Ne.symm h), LedgerInner.used_setNode]

theorem admitted_post {w : Int} {limit : UInt32} {c : Call} {cs : List Call} {times : List Int}
    (ha : ∀ n, Admitted w limit.toNat (postTimes n cs)) (hpos : 0 < limit)
    (hle : (recent w c.nowSecs (postTimes c.nodeId cs)).length ≤ limit.toNat)
    (heq : recent w c.nowSecs times = recent w c.nowSecs (postTimes c.nodeId cs))
    (hfull : ¬ full limit (recent w c.nowSecs times)) (n : Text) :
    Admitted w limit.toNat (postTimes n (cs ++ [c])) := by
  rw [postTimes_append, postTimes_singleton]
  by_cases hn : c.nodeId = n
  · subst hn
    rw [if_pos rfl]
    rw [heq] at hfull
    exact .snoc (ha _) (length_lt_of_not_full hpos hle hfull)
  · rw [if_neg hn, List.append_nil]
    exact ha n

/-- An accepted call is charged to its node and its thread. -/
theorem Tracked.charged {c : Call} (h : Tracked cfg c.nowSecs log s)
    (hr : refusal cfg s c.threadKey c.nodeId c.nowSecs = none) (left : UInt32) :
    Tracked cfg c.nowSecs (log ++ [(c, .ok left)])
      (charge cfg s c.threadKey c.nodeId c.nowSecs) := by
  have hacc : accepted (log ++ [(c, .ok left)]) = accepted log ++ [c] := accepted_append _ _
  unfold refusal at hr
  split at hr
  · cases hr
  rename_i hrate
  split at hr
  · cases hr
  rename_i hhour
  split at hr
  · cases hr
  rename_i hturn
  have hcount : ∀ n, (postsOn n (accepted log ++ [c])).length =
      (postsOn n (accepted log)).length + if c.threadKey = n then 1 else 0 := by
    intro n
    rw [postsOn_append, postsOn_singleton, List.length_append]
    split <;> rfl
  have hroom : 0 < cfg.maxAgentTurnsPerThread →
      (postsOn c.threadKey (accepted log)).length < cfg.maxAgentTurnsPerThread.toNat := by
    intro hpos
    rw [← h.used hpos, ← UInt32.lt_iff_toNat_lt, ← UInt32.not_le]
    exact fun hle => hturn ⟨hpos, hle⟩
  constructor
  · intro d hd
    rw [hacc, List.mem_append, List.mem_singleton] at hd
    cases hd with
    | inl hd => exact h.past d hd
    | inr hd => rw [hd]
  · intro n
    rw [hacc, postTimes_append, postTimes_singleton, node_charge, recent_append, ← h.minute n]
    split
    · rw [recent_append]
    · rw [recent, recent, List.filter_nil, List.append_nil]
  · intro n
    rw [hacc, postTimes_append, postTimes_singleton, node_charge, recent_append, ← h.hour n]
    split
    · rw [recent_append]
    · rw [recent, recent, List.filter_nil, List.append_nil]
  · intro hpos t
    rw [hacc, hcount, used_charge hpos, ← h.used hpos]
    split
    · rename_i ht
      have hlt := hroom hpos
      rw [ht, ← h.used hpos] at hlt
      have hbound := cfg.maxAgentTurnsPerThread.toNat_lt
      rw [UInt32.toNat_add, Nat.mod_eq_of_lt]
      · rfl
      · exact (Nat.succ_le_of_lt hlt).trans_lt hbound
    · rfl
  · intro hpos
    rw [hacc]
    exact admitted_post (h.rate hpos) hpos (h.recent_le _ (h.rate hpos _)) (h.minute _) hrate
  · intro hpos
    rw [hacc]
    exact admitted_post (h.hourly hpos) hpos (h.recent_le _ (h.hourly hpos _)) (h.hour _) hhour
  · intro hpos t
    rw [hacc, hcount]
    split
    · rename_i ht
      exact ht ▸ Nat.succ_le_of_lt (hroom hpos)
    · exact h.turns hpos t

theorem Tracked.post {c : Call} (h : Tracked cfg now log s) (hle : now ≤ c.nowSecs) :
    Tracked cfg c.nowSecs (log ++ [(c, (c.post cfg s).2)]) (c.post cfg s).1 := by
  have hnow := h.later hle
  have hspec := tryConsumePost_spec cfg s c.threadKey c.nodeId c.nowSecs
  rw [Call.post]
  cases hr : refusal cfg s c.threadKey c.nodeId c.nowSecs with
  | some e =>
    simp only [hr] at hspec
    rw [hspec.1]
    exact (hnow.alike hspec.2).refused c e
  | none =>
    simp only [hr] at hspec
    rw [hspec.1]
    exact (hnow.charged hr _).alike hspec.2

theorem Tracked.run {cs : List Call} (h : Tracked cfg now log s)
    (hle : ∀ c ∈ cs, now ≤ c.nowSecs) (hs : cs.Pairwise fun c d => c.nowSecs ≤ d.nowSecs) :
    ∃ last, Tracked cfg last (log ++ answers cfg s cs) (after cfg s cs) := by
  induction cs generalizing s log now with
  | nil => exact ⟨now, by simpa [answers, after] using h⟩
  | cons c cs ih =>
    obtain ⟨hc, hs⟩ := List.pairwise_cons.mp hs
    rw [answers, after, List.append_cons]
    exact ih (h.post (hle c List.mem_cons_self)) hc hs

/-- The bounds on the accepted posts of a log. -/
structure Bounded (cfg : QuotaConfig) (cs : List Call) : Prop where
  rate : 0 < cfg.rateLimitPerMin → ∀ nodeId start,
    (within 60 start (postTimes nodeId cs)).length ≤ cfg.rateLimitPerMin.toNat
  hourly : 0 < cfg.hourlyBudgetPerNode → ∀ nodeId start,
    (within 3600 start (postTimes nodeId cs)).length ≤ cfg.hourlyBudgetPerNode.toNat
  turns : 0 < cfg.maxAgentTurnsPerThread → ∀ threadKey,
    (postsOn threadKey cs).length ≤ cfg.maxAgentTurnsPerThread.toNat

/-- A refused call could be left out: the calls after it are answered all the same. -/
def Harmless (cfg : QuotaConfig) (calls : List Call) : Prop :=
  ∀ before c later e, calls = before ++ c :: later →
    (c.post cfg (after cfg LedgerInner.default before)).2 = .error e →
    ∃ tail, answers cfg LedgerInner.default calls =
        answers cfg LedgerInner.default before ++ (c, .error e) :: tail ∧
      answers cfg LedgerInner.default (before ++ later) =
        answers cfg LedgerInner.default before ++ tail

theorem harmless_of_sorted {calls : List Call}
    (hs : calls.Pairwise fun c d => c.nowSecs ≤ d.nowSecs) : Harmless cfg calls := by
  rintro before c later e rfl he
  obtain ⟨hc, hlater⟩ := List.pairwise_cons.mp (List.pairwise_append.mp hs).2.1
  refine ⟨answers cfg (c.post cfg (after cfg LedgerInner.default before)).1 later, ?_, ?_⟩
  · rw [answers_append, answers, he]
  · rw [answers_append]
    have hspec := tryConsumePost_spec cfg (after cfg LedgerInner.default before) c.threadKey
      c.nodeId c.nowSecs
    rw [Call.post] at he
    cases hr : refusal cfg (after cfg LedgerInner.default before) c.threadKey c.nodeId
        c.nowSecs with
    | some e' =>
      simp only [hr] at hspec
      exact congrArg _ (answers_alike hspec.2.symm hc hlater)
    | none =>
      simp only [hr] at hspec
      rw [hspec.1] at he
      cases he

/-- The quota holds in every window of every run. -/
theorem quota_holds (cfg : QuotaConfig) (calls : List Call)
    (hs : calls.Pairwise fun c d => c.nowSecs ≤ d.nowSecs) :
    Bounded cfg (accepted (answers cfg LedgerInner.default calls)) ∧ Harmless cfg calls ∧
      ∀ threadKey nodeId now,
        canPost cfg (after cfg LedgerInner.default calls) nodeId now = .ok () ↔
          (tryConsumePost cfg (after cfg LedgerInner.default calls) threadKey nodeId now).2 ≠
              .error .rateLimited ∧
            (tryConsumePost cfg (after cfg LedgerInner.default calls) threadKey nodeId now).2 ≠
              .error .hourlyBudgetExhausted := by
  refine ⟨?_, harmless_of_sorted hs, fun threadKey nodeId now => canPost_ok_iff cfg _ _ _ _⟩
  have hrun : ∃ last, Tracked cfg last (answers cfg LedgerInner.default calls)
      (after cfg LedgerInner.default calls) := by
    cases calls with
    | nil => exact ⟨0, tracked_default cfg 0⟩
    | cons c cs =>
      have hfirst : ∀ d ∈ c :: cs, c.nowSecs ≤ d.nowSecs := by
        intro d hd
        cases List.mem_cons.mp hd with
        | inl h => rw [h]
        | inr h => exact (List.pairwise_cons.mp hs).1 d h
      exact (tracked_default cfg c.nowSecs).run hfirst hs
  obtain ⟨last, htrack⟩ := hrun
  exact ⟨fun hpos n start => (htrack.rate hpos n).length_within_le,
    fun hpos n start => (htrack.hourly hpos n).length_within_le, htrack.turns⟩

def tightConfig : QuotaConfig := ⟨2, 3, 1⟩

def tightCalls : List Call :=
  [⟨['t'], ['n'], 0⟩, ⟨['t'], ['n'], 59⟩, ⟨['t'], ['n'], 60⟩, ⟨['t'], ['m'], 61⟩]

theorem quota_holds_tight :
    (answers tightConfig LedgerInner.default tightCalls).map (fun e => e.2.isOk) =
        [true, false, true, false] ∧
      Bounded tightConfig (accepted (answers tightConfig LedgerInner.default tightCalls)) ∧
      Harmless tightConfig tightCalls :=
  have h := quota_holds tightConfig tightCalls (by decide)
  ⟨by decide, h.1, h.2.1⟩

end NemesisBot.Quota

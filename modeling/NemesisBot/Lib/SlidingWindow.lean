import Mathlib

/-! Sliding windows over a log of times: pruning the log, and the bound that an admission
test against the pruned log keeps. -/
namespace NemesisBot.SlidingWindow

/-- The times less than `w` before `now`. -/
def recent (w now : Int) (log : List Int) : List Int := log.filter fun t => now - t < w

/-- The times in the window of length `w` from `start` on. -/
def within (w start : Int) (log : List Int) : List Int :=
  log.filter fun t => start ≤ t ∧ t < start + w

variable {w now now' start : Int} {log : List Int}

theorem recent_append (log log' : List Int) :
    recent w now (log ++ log') = recent w now log ++ recent w now log' := List.filter_append log log'

/-- Pruning earlier loses nothing that counts later. -/
theorem recent_recent (h : now ≤ now') (log : List Int) :
    recent w now' (recent w now log) = recent w now' log := by
  rw [recent, recent, recent, List.filter_filter]
  refine List.filter_congr fun t _ => ?_
  have hlater : now' - t < w → now - t < w := by omega
  by_cases ht : now' - t < w
  · simp [ht, hlater ht]
  · simp [ht]

theorem recent_congr {log' : List Int} (h : now ≤ now')
    (he : recent w now log = recent w now log') : recent w now' log = recent w now' log' := by
  rw [← recent_recent h log, he, recent_recent h log']

/-- Every time found fewer than `limit` recent ones before it. -/
inductive Admitted (w : Int) (limit : Nat) : List Int → Prop
  | nil : Admitted w limit []
  | snoc {log : List Int} {t : Int} (h : Admitted w limit log)
      (ht : (recent w t log).length < limit) : Admitted w limit (log ++ [t])

/-- Admission against the recent times bounds every window, also those in between. -/
theorem Admitted.length_within_le {limit : Nat} (h : Admitted w limit log) :
    (within w start log).length ≤ limit := by
  induction h with
  | nil => exact Nat.zero_le limit
  | @snoc log t h ht ih =>
    rw [within, List.filter_append, List.length_append]
    by_cases hin : start ≤ t ∧ t < start + w
    · have hsub : (within w start log).length ≤ (recent w t log).length := by
        refine (List.monotone_filter_right log fun s hs => ?_).length_le
        simp only [decide_eq_true_eq] at hs ⊢
        omega
      rw [within] at hsub
      simp only [hin, List.filter_cons, decide_true, if_true, List.filter_nil, and_self,
        List.length_singleton]
      omega
    · have hnone : [t].filter (fun t => decide (start ≤ t ∧ t < start + w)) = [] := by
        simp only [List.filter_cons, hin, decide_false, List.filter_nil]
        rfl
      rw [hnone, List.length_nil, Nat.add_zero]
      exact ih

/-- No time lies after `now`, so the recent ones fill one window. -/
theorem recent_eq_within (h : ∀ t ∈ log, t ≤ now) :
    recent w now log = within w (now + 1 - w) log := by
  refine List.filter_congr fun t ht => ?_
  have hle := h t ht
  by_cases hw : now - t < w
  · have hin : now + 1 - w ≤ t ∧ t < now + 1 - w + w := by omega
    rw [decide_eq_true hw, decide_eq_true hin]
  · have hout : ¬ (now + 1 - w ≤ t ∧ t < now + 1 - w + w) := by omega
    rw [decide_eq_false hw, decide_eq_false hout]

end NemesisBot.SlidingWindow

import Mathlib

/-! Runs of a deterministic labelled machine. All nondeterminism sits in the labels,
so a run is a list of labels and can be executed. -/
namespace NemesisBot.Runs
variable {σ ι : Type*}

/-- The state after the labels, if every step is enabled. -/
def run (step : σ → ι → Option σ) : σ → List ι → Option σ
  | s, [] => some s
  | s, i :: is => match step s i with
    | some t => run step t is
    | none => none

/-- Every step of the run is taken from a state that meets `ok` for its label. -/
def Along (step : σ → ι → Option σ) (ok : σ → ι → Prop) : σ → List ι → Prop
  | _, [] => True
  | s, i :: is => ok s i ∧ ∀ t, step s i = some t → Along step ok t is

instance Along.decidable (step : σ → ι → Option σ) (ok : σ → ι → Prop)
    [∀ s i, Decidable (ok s i)] : (s : σ) → (is : List ι) → Decidable (Along step ok s is)
  | _, [] => .isTrue trivial
  | s, i :: is =>
    have : Decidable (∀ t, step s i = some t → Along step ok t is) :=
      match h : step s i with
      | none => .isTrue fun _ ht => by simp at ht
      | some m => match Along.decidable step ok m is with
        | .isTrue hm => .isTrue fun t ht => Option.some.inj ht ▸ hm
        | .isFalse hm => .isFalse fun hall => hm (hall m rfl)
    inferInstanceAs (Decidable (_ ∧ _))

variable {step : σ → ι → Option σ} {ok : σ → ι → Prop} {Inv : σ → Prop}

theorem run_cons_iff (s t : σ) (i : ι) (is : List ι) :
    run step s (i :: is) = some t ↔ ∃ m, step s i = some m ∧ run step m is = some t := by
  cases h : step s i <;> simp [run, h]

theorem along_cons {s t : σ} {i : ι} {is : List ι} (hok : ok s i) (hs : step s i = some t)
    (ht : Along step ok t is) : Along step ok s (i :: is) :=
  ⟨hok, fun _ hu => Option.some.inj (hs.symm.trans hu) ▸ ht⟩

theorem run_append (s : σ) (is js : List ι) :
    run step s (is ++ js) = (run step s is).bind fun m => run step m js := by
  induction is generalizing s with
  | nil => rfl
  | cons i is ih =>
    cases h : step s i with
    | none => simp [run, h]
    | some m => simpa [run, h] using ih m

/-- A property kept by every step that meets `ok` holds at the end of such a run. -/
theorem run_invariant
    (hstep : ∀ s i t, Inv s → ok s i → step s i = some t → Inv t)
    {s t : σ} {is : List ι} (hs : Inv s) (ha : Along step ok s is)
    (hr : run step s is = some t) : Inv t := by
  induction is generalizing s with
  | nil =>
    obtain rfl : s = t := by simpa [run] using hr
    exact hs
  | cons i is ih =>
    obtain ⟨m, hm, hr⟩ := (run_cons_iff s t i is).mp hr
    exact ih (hstep s i m hs ha.1 hm) (ha.2 m hm) hr

theorem along_true (s : σ) (is : List ι) : Along step (fun _ _ => True) s is := by
  induction is generalizing s with
  | nil => trivial
  | cons i is ih => exact ⟨trivial, fun t _ => ih t⟩

/-- A property kept by every step is kept by every run. -/
theorem run_invariant_always
    (hstep : ∀ s i t, Inv s → step s i = some t → Inv t)
    {s t : σ} {is : List ι} (hs : Inv s) (hr : run step s is = some t) : Inv t :=
  run_invariant (fun s i t h _ hi => hstep s i t h hi) hs (along_true s is) hr

/-- As `run_invariant`, for a property that also speaks of the labels taken so far. -/
theorem run_history {Inv : List ι → σ → Prop}
    (hstep : ∀ past s i t, Inv past s → ok s i → step s i = some t → Inv (past ++ [i]) t)
    {past : List ι} {s t : σ} {is : List ι} (hs : Inv past s) (ha : Along step ok s is)
    (hr : run step s is = some t) : Inv (past ++ is) t := by
  induction is generalizing s past with
  | nil =>
    obtain rfl : s = t := by simpa [run] using hr
    simpa using hs
  | cons i is ih =>
    obtain ⟨m, hm, hr⟩ := (run_cons_iff s t i is).mp hr
    rw [List.append_cons]
    exact ih (hstep past s i m hs ha.1 hm) (ha.2 m hm) hr

end NemesisBot.Runs

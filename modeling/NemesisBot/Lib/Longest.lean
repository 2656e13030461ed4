import Mathlib

/-! The first of the largest elements of a list that pass a test, found by a stable sort. -/
namespace NemesisBot.Longest
variable {α : Type*} {size : α → Nat} {hit : α → Bool} {a b : α} {l m : List α}

/-- Sorted by size, larger ones first, then searched. -/
def longest (size : α → Nat) (hit : α → Bool) (l : List α) : Option α :=
  (l.mergeSort fun a b => decide (size b ≤ size a)).find? hit

/-- The larger of two finds, the first one of equals. -/
def better (size : α → Nat) : Option α → Option α → Option α
  | some a, some b => if size a < size b then some b else some a
  | some a, none => some a
  | none, o => o

def found (hit : α → Bool) (a : α) : Option α := if hit a then some a else none

@[simp] theorem better_none (o : Option α) : better size o none = o := by
  cases o <;> rfl

theorem longest_nil : longest size hit [] = none := by
  rw [longest, List.mergeSort_nil, List.find?_nil]

/-- A list is searched as its head and its tail are. -/
theorem longest_cons (a : α) (l : List α) :
    longest size hit (a :: l) = better size (found hit a) (longest size hit l) := by
  obtain ⟨before, after, hcons, htail, hbefore⟩ :=
    @List.mergeSort_cons α (fun a b => decide (size b ≤ size a))
      (fun a b c => by simp; omega) (fun a b => by simp; omega) a l
  have hsorted : (a :: after).Pairwise fun a b => decide (size b ≤ size a) = true := by
    have h := @List.pairwise_mergeSort α (fun a b => decide (size b ≤ size a))
      (fun a b c => by simp; omega) (fun a b => by simp; omega) (a :: l)
    rw [hcons] at h
    exact (List.pairwise_append.mp h).2.1
  rw [longest, hcons, longest, htail, List.find?_append, List.find?_append, List.find?_cons]
  cases hb : before.find? hit with
  | some b =>
    have hlt : size a < size b := by
      simpa using hbefore b (List.mem_of_find?_eq_some hb)
    rw [found, Option.some_or]
    cases hit a with
    | false => rfl
    | true => exact (if_pos hlt).symm
  | none =>
    cases ha : hit a with
    | false => simp [found, ha, better]
    | true =>
      cases hc : after.find? hit with
      | none => simp [found, ha]
      | some c =>
        have hle : size c ≤ size a := by
          simpa using List.rel_of_pairwise_cons hsorted (List.mem_of_find?_eq_some hc)
        simp [found, ha, better, Nat.not_lt.mpr hle]

theorem better_assoc (o p q : Option α) :
    better size (better size o p) q = better size o (better size p q) := by
  cases o with
  | none => rfl
  | some a =>
    cases p with
    | none => rfl
    | some b =>
      cases q with
      | none => simp
      | some c =>
        simp only [better]
        by_cases hab : size a < size b <;> by_cases hbc : size b < size c
        · simp [hab, hbc, hab.trans hbc]
        · simp [hab, hbc]
        · simp [hab, hbc]
        · have hac : ¬ size a < size c := by omega
          simp [hab, hbc, hac]

theorem longest_append (l m : List α) :
    longest size hit (l ++ m) = better size (longest size hit l) (longest size hit m) := by
  induction l with
  | nil => rw [longest_nil, List.nil_append]; rfl
  | cons a l ih => rw [List.cons_append, longest_cons, longest_cons, ih, better_assoc]

theorem longest_mem (h : longest size hit l = some a) : a ∈ l ∧ hit a = true :=
  ⟨List.mem_mergeSort.mp (List.mem_of_find?_eq_some h), List.find?_some h⟩

theorem longest_eq_none_iff : longest size hit l = none ↔ ∀ a ∈ l, ¬ hit a = true := by
  rw [longest, List.find?_eq_none]
  exact forall_congr' fun a => by rw [List.mem_mergeSort]

/-- Nothing that passes the test is larger. -/
theorem longest_max (ha : a ∈ l) (hit_a : hit a = true) :
    ∃ b, longest size hit l = some b ∧ size a ≤ size b := by
  induction l with
  | nil => cases ha
  | cons c l ih =>
    rw [longest_cons]
    cases List.mem_cons.mp ha with
    | inl hc =>
      subst hc
      rw [found, if_pos hit_a]
      cases longest size hit l with
      | none => exact ⟨a, rfl, Nat.le_refl _⟩
      | some b =>
        by_cases hlt : size a < size b
        · exact ⟨b, if_pos hlt, hlt.le⟩
        · exact ⟨a, if_neg hlt, Nat.le_refl _⟩
    | inr hl =>
      obtain ⟨b, hb, hle⟩ := ih hl
      rw [hb, found]
      split
      · by_cases hlt : size c < size b
        · exact ⟨b, if_pos hlt, hle⟩
        · exact ⟨c, if_neg hlt, by omega⟩
      · exact ⟨b, rfl, hle⟩

end NemesisBot.Longest

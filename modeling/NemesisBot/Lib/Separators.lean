import Mathlib

/-! Cutting a list at separators of different lengths. -/
namespace NemesisBot
variable {α : Type*}

/-- Separators none of which stands inside another before its end, so that a separator that is
there stays the first one when the list goes on. -/
structure Separators (α : Type*) where
  seps : List (List α)
  ne_nil : ∀ sep ∈ seps, sep ≠ []
  apart : ∀ sep ∈ seps, ∀ sep' ∈ seps, ¬ sep <:+: sep'.dropLast

namespace Separators
variable (S : Separators α)

/-- `u` ends at the earliest separator. -/
structure First (s u sep v : List α) : Prop where
  eq : s = u ++ (sep ++ v)
  mem : sep ∈ S.seps
  earliest : ∀ x y, ∀ sep' ∈ S.seps, s = x ++ (sep' ++ y) → u.length ≤ x.length

variable {S} {s t u v sep : List α}

theorem First.length_lt (h : S.First s u sep v) : v.length < s.length := by
  have hpos := List.length_pos_iff.mpr (S.ne_nil sep h.mem)
  rw [h.eq, List.length_append, List.length_append]
  omega

/-- Where a separator stands somewhere in a list, those at its front are there without what
follows the list. -/
theorem starts_append {w t : List α} (h : ∃ sep ∈ S.seps, sep <:+: w) {sep' : List α}
    (h' : sep' ∈ S.seps) : sep' <+: w ++ t ↔ sep' <+: w := by
  obtain ⟨sep, hsep, hin⟩ := h
  refine ⟨fun hpre => ?_, fun hpre => hpre.trans (List.prefix_append w t)⟩
  refine (List.prefix_or_prefix_of_prefix hpre (List.prefix_append w t)).elim id fun hw => ?_
  by_cases hlen : sep'.length ≤ w.length
  · exact (hw.eq_of_length_le hlen) ▸ List.prefix_rfl
  · have hdrop : w <+: sep'.dropLast := by
      refine List.prefix_of_prefix_length_le hw (List.dropLast_prefix sep') ?_
      rw [List.length_dropLast]
      omega
    exact absurd (hin.trans hdrop.isInfix) (S.apart sep hsep sep' h')

variable [DecidableEq α]

variable (S) in
/-- The list up to the first separator, the separator, and what follows it. -/
def cutFirst : List α → Option (List α × List α × List α)
  | [] => none
  | a :: s => match S.seps.find? fun sep => decide (sep <+: a :: s) with
    | some sep => some ([], sep, (a :: s).drop sep.length)
    | none => (cutFirst s).map fun c => (a :: c.1, c.2)

theorem cutFirst_of_starts (h : sep ∈ S.seps) (hs : sep <+: s) :
    ∃ sep' ∈ S.seps, sep' <+: s ∧ S.cutFirst s = some ([], sep', s.drop sep'.length) := by
  cases s with
  | nil => exact absurd (List.prefix_nil.mp hs) (S.ne_nil sep h)
  | cons a s =>
    cases hf : S.seps.find? fun sep => decide (sep <+: a :: s) with
    | none => exact absurd hs (by simpa using List.find?_eq_none.mp hf sep h)
    | some sep' =>
      refine ⟨sep', List.mem_of_find?_eq_some hf, by simpa using List.find?_some hf, ?_⟩
      rw [cutFirst, hf]

theorem cutFirst_cons {a : α} (h : ∀ sep ∈ S.seps, ¬ sep <+: a :: s) :
    S.cutFirst (a :: s) = (S.cutFirst s).map fun c => (a :: c.1, c.2) := by
  have hf : (S.seps.find? fun sep => decide (sep <+: a :: s)) = none :=
    List.find?_eq_none.mpr fun sep hsep => by simpa using h sep hsep
  rw [cutFirst, hf]

theorem cutFirst_eq_none_iff : S.cutFirst s = none ↔ ∀ sep ∈ S.seps, ¬ sep <:+: s := by
  induction s with
  | nil =>
    refine ⟨fun _ sep hsep h => S.ne_nil sep hsep ?_, fun _ => rfl⟩
    exact List.infix_nil.mp h
  | cons a s ih =>
    by_cases hs : ∃ sep ∈ S.seps, sep <+: a :: s
    · obtain ⟨sep, hsep, hpre⟩ := hs
      obtain ⟨sep', -, -, he⟩ := cutFirst_of_starts hsep hpre
      rw [he]
      refine ⟨fun h => ?_, fun h => absurd hpre.isInfix (h sep hsep)⟩
      cases h
    · have hno : ∀ sep ∈ S.seps, ¬ sep <+: a :: s := fun sep hsep h => hs ⟨sep, hsep, h⟩
      rw [cutFirst_cons hno, Option.map_eq_none_iff, ih]
      refine forall₂_congr fun sep hsep => not_congr ?_
      rw [List.infix_cons_iff]
      exact ⟨.inr, fun h => h.resolve_left (hno sep hsep)⟩

theorem first_of_cutFirst (h : S.cutFirst s = some (u, sep, v)) : S.First s u sep v := by
  induction s generalizing u with
  | nil => cases h
  | cons a s ih =>
    by_cases hs : ∃ sep ∈ S.seps, sep <+: a :: s
    · obtain ⟨sep', hsep', hpre⟩ := hs
      obtain ⟨sep'', hmem, ⟨w, hw⟩, he⟩ := cutFirst_of_starts hsep' hpre
      rw [he] at h
      obtain ⟨rfl, rfl, rfl⟩ : [] = u ∧ sep'' = sep ∧ (a :: s).drop sep''.length = v := by
        simpa using h
      refine ⟨?_, hmem, fun x y sep hsep hx => Nat.zero_le _⟩
      rw [← hw, List.drop_left, List.nil_append]
    · have hno : ∀ sep ∈ S.seps, ¬ sep <+: a :: s := fun sep hsep h => hs ⟨sep, hsep, h⟩
      rw [cutFirst_cons hno] at h
      obtain ⟨⟨u', sep', v'⟩, hcut, he⟩ := Option.map_eq_some_iff.mp h
      obtain ⟨rfl, rfl, rfl⟩ : a :: u' = u ∧ sep' = sep ∧ v' = v := by simpa using he
      have hfirst := ih hcut
      refine ⟨congrArg (a :: ·) hfirst.eq, hfirst.mem, fun x y sep hsep hx => ?_⟩
      cases x with
      | nil => exact absurd ⟨y, hx.symm⟩ (hno sep hsep)
      | cons b x =>
        have hle := hfirst.earliest x y sep hsep (List.cons.inj hx).2
        exact Nat.succ_le_succ hle

theorem cutFirst_append (h : S.cutFirst s = some (u, sep, v)) (t : List α) :
    S.cutFirst (s ++ t) = some (u, sep, v ++ t) := by
  induction s generalizing u with
  | nil => cases h
  | cons a s ih =>
    have hfirst := first_of_cutFirst h
    have hin : ∃ sep ∈ S.seps, sep <:+: a :: s :=
      ⟨sep, hfirst.mem, u, v, by rw [hfirst.eq, List.append_assoc]⟩
    have hfind : (S.seps.find? fun sep => decide (sep <+: a :: (s ++ t))) =
        S.seps.find? fun sep => decide (sep <+: a :: s) :=
      List.find?_congr fun sep hsep => decide_eq_decide.mpr (starts_append hin hsep)
    rw [cutFirst] at h
    rw [List.cons_append, cutFirst, hfind]
    cases hf : S.seps.find? fun sep => decide (sep <+: a :: s) with
    | some sep' =>
      rw [hf] at h
      obtain ⟨rfl, rfl, rfl⟩ : [] = u ∧ sep' = sep ∧ (a :: s).drop sep'.length = v := by
        simpa using h
      have hpre : sep' <+: a :: s := by simpa using List.find?_some hf
      exact congrArg (fun r => some ([], sep', r)) (List.drop_append_of_le_length hpre.length_le)
    | none =>
      rw [hf] at h
      obtain ⟨⟨u', sep', v'⟩, hcut, he⟩ := Option.map_eq_some_iff.mp h
      obtain ⟨rfl, rfl, rfl⟩ : a :: u' = u ∧ sep' = sep ∧ v' = v := by simpa using he
      simp only [ih hcut, Option.map_some]

variable (S) in
/-- The pieces before the separators, one after another, and the rest. -/
def cutAll (s : List α) : List (List α) × List α :=
  match _h : S.cutFirst s with
  | none => ([], s)
  | some (u, _, v) => (u :: (cutAll v).1, (cutAll v).2)
termination_by s.length
decreasing_by all_goals exact (first_of_cutFirst _h).length_lt

theorem cutAll_of_none (h : S.cutFirst s = none) : S.cutAll s = ([], s) := by
  rw [cutAll]
  split
  · rfl
  · rename_i he
    rw [h] at he
    cases he

theorem cutAll_of_some (h : S.cutFirst s = some (u, sep, v)) :
    S.cutAll s = (u :: (S.cutAll v).1, (S.cutAll v).2) := by
  rw [cutAll]
  split
  · rename_i he
    rw [h] at he
    cases he
  · rename_i he
    rw [h] at he
    obtain ⟨rfl, -, rfl⟩ : u = _ ∧ sep = _ ∧ v = _ := by simpa using he
    rfl

/-- Induction along the pieces. -/
theorem cutAll_induction {P : List α → Prop} (hnone : ∀ s, S.cutFirst s = none → P s)
    (hsome : ∀ s u sep v, S.cutFirst s = some (u, sep, v) → P v → P s) (s : List α) : P s := by
  induction h : s.length using Nat.strong_induction_on generalizing s with
  | _ n ih =>
    cases hc : S.cutFirst s with
    | none => exact hnone s hc
    | some c =>
      obtain ⟨u, sep, v⟩ := c
      exact hsome s u sep v hc (ih _ (h ▸ (first_of_cutFirst hc).length_lt) v rfl)

theorem cutFirst_rest (s : List α) : S.cutFirst (S.cutAll s).2 = none := by
  induction s using S.cutAll_induction with
  | hnone s h => rwa [cutAll_of_none h]
  | hsome s u sep v h ih => rwa [cutAll_of_some h]

/-- A list that goes on is cut where it was, and then the rest of it with what came. -/
theorem cutAll_append (s t : List α) : S.cutAll (s ++ t) =
    ((S.cutAll s).1 ++ (S.cutAll ((S.cutAll s).2 ++ t)).1, (S.cutAll ((S.cutAll s).2 ++ t)).2) := by
  induction s using S.cutAll_induction with
  | hnone s h => rw [cutAll_of_none h, List.nil_append]
  | hsome s u sep v h ih => rw [cutAll_of_some (cutFirst_append h t), cutAll_of_some h, ih]; rfl

/-- No separator comes about at an element that none of them ends with. -/
theorem cutFirst_concat {a : α} (ha : ∀ sep ∈ S.seps, a ∉ sep) (h : S.cutFirst s = none) :
    S.cutFirst (s ++ [a]) = none := by
  rw [cutFirst_eq_none_iff] at h ⊢
  intro sep hsep hin
  obtain hs | hs := List.infix_concat_iff.mp hin
  · obtain rfl | ⟨w, rfl, -⟩ := List.suffix_concat_iff.mp hs
    · exact S.ne_nil [] hsep rfl
    · exact ha _ hsep (List.mem_append_right w (List.mem_singleton_self a))
  · exact h sep hsep hs

variable (S) in
/-- Each piece ends at the earliest separator of what is left before it. -/
inductive Cuts : List α → List (List α) → List α → Prop
  | rest {s : List α} : (∀ sep ∈ S.seps, ¬ sep <:+: s) → Cuts s [] s
  | piece {s u sep v w : List α} {us : List (List α)} :
    S.First s u sep v → Cuts v us w → Cuts s (u :: us) w

theorem cuts_cutAll (s : List α) : S.Cuts s (S.cutAll s).1 (S.cutAll s).2 := by
  induction s using S.cutAll_induction with
  | hnone s h =>
    rw [cutAll_of_none h]
    exact .rest (cutFirst_eq_none_iff.mp h)
  | hsome s u sep v h ih =>
    rw [cutAll_of_some h]
    exact .piece (first_of_cutFirst h) ih

end Separators
end NemesisBot

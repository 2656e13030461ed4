import Mathlib

/-! Offsets into a list whose elements have sizes, such as a text in its bytes: where the list can
be cut, and where an element stands. -/
namespace NemesisBot.Offsets
variable {α : Type*} (size : α → Nat)

def len (s : List α) : Nat := (s.map size).sum

/-- The list up to an offset and from it on, if the offset lies between two elements. -/
def cutAt : Nat → List α → Option (List α × List α)
  | 0, s => some ([], s)
  | _ + 1, [] => none
  | k + 1, a :: s =>
    if size a ≤ k + 1 then (cutAt (k + 1 - size a) s).map fun c => (a :: c.1, c.2) else none

/-- The greatest offset between two elements that is not above the limit. -/
def floorAt : Nat → List α → Nat
  | _, [] => 0
  | limit, a :: s => if size a ≤ limit then size a + floorAt (limit - size a) s else 0

/-- The last place, not below `lo`, of an element with the property; the list begins at `off`. -/
def lastAt (p : α → Bool) (lo : Nat) : Nat → List α → Option Nat
  | _, [] => none
  | off, a :: s => (lastAt p lo (off + size a) s).or (if lo ≤ off ∧ p a then some off else none)

variable {size} {s t : List α} {k lo off : Nat} {p : α → Bool}

theorem len_nil : len size [] = 0 := rfl

theorem len_cons (a : α) (s : List α) : len size (a :: s) = size a + len size s := rfl

theorem len_append (s t : List α) : len size (s ++ t) = len size s + len size t := by
  rw [len, List.map_append, List.sum_append]
  rfl

theorem len_map {β : Type*} {f : β → α} (s : List β) :
    len size (s.map f) = len (fun b => size (f b)) s := by
  rw [len, List.map_map]
  rfl

theorem length_le_len (hpos : ∀ a, 0 < size a) (s : List α) : s.length ≤ len size s := by
  induction s with
  | nil => exact Nat.le_refl 0
  | cons a s ih =>
    have ha := hpos a
    rw [List.length_cons, len_cons]
    omega

theorem eq_nil_of_len (hpos : ∀ a, 0 < size a) (h : len size s = 0) : s = [] := by
  have hlen := length_le_len hpos s
  exact List.eq_nil_of_length_eq_zero (by omega)

theorem cutAt_eq_some_iff (hpos : ∀ a, 0 < size a) {u v : List α} :
    cutAt size k s = some (u, v) ↔ s = u ++ v ∧ len size u = k := by
  induction s generalizing k u with
  | nil =>
    cases k with
    | zero =>
      rw [cutAt, Option.some.injEq, Prod.mk.injEq]
      constructor
      · rintro ⟨rfl, rfl⟩
        exact ⟨rfl, rfl⟩
      · rintro ⟨h, -⟩
        obtain ⟨rfl, rfl⟩ := List.append_eq_nil_iff.mp h.symm
        exact ⟨rfl, rfl⟩
    | succ k =>
      rw [cutAt]
      refine iff_of_false nofun ?_
      rintro ⟨h, hk⟩
      obtain ⟨rfl, -⟩ := List.append_eq_nil_iff.mp h.symm
      exact absurd hk (Nat.succ_ne_zero k).symm
  | cons a s ih =>
    have ha := hpos a
    cases k with
    | zero =>
      rw [cutAt, Option.some.injEq, Prod.mk.injEq]
      constructor
      · rintro ⟨rfl, rfl⟩
        exact ⟨rfl, rfl⟩
      · rintro ⟨h, hk⟩
        obtain rfl := eq_nil_of_len hpos hk
        exact ⟨rfl, h⟩
    | succ k =>
      rw [cutAt]
      constructor
      · intro h
        split at h
        · obtain ⟨c, hc, he⟩ := Option.map_eq_some_iff.mp h
          obtain ⟨rfl, rfl⟩ := Prod.mk.inj he
          obtain ⟨rfl, hlen⟩ := ih.mp hc
          refine ⟨rfl, ?_⟩
          rw [len_cons, hlen]
          omega
        · cases h
      · rintro ⟨h, hk⟩
        cases u with
        | nil => exact absurd hk (Nat.succ_ne_zero k).symm
        | cons b u =>
          rw [List.cons_append, List.cons.injEq] at h
          obtain ⟨rfl, rfl⟩ := h
          rw [len_cons] at hk
          rw [if_pos (by omega), ih.mpr ⟨rfl, by omega⟩]
          rfl

theorem floorAt_le (s : List α) (limit : Nat) : floorAt size limit s ≤ limit := by
  induction s generalizing limit with
  | nil => exact Nat.zero_le limit
  | cons a s ih =>
    rw [floorAt]
    split
    · have hs := ih (limit - size a)
      omega
    · exact Nat.zero_le limit

/-- The greatest such offset is one, and misses the limit by less than one element. -/
theorem floorAt_spec {limit b : Nat} (hb : ∀ a, size a ≤ b) (s : List α) :
    (∃ u v, s = u ++ v ∧ len size u = floorAt size limit s) ∧
      (limit ≤ len size s → limit < floorAt size limit s + b ∨ limit = floorAt size limit s) := by
  induction s generalizing limit with
  | nil =>
    refine ⟨⟨[], [], rfl, rfl⟩, fun h => Or.inr ?_⟩
    rw [len_nil] at h
    rw [floorAt]
    omega
  | cons a s ih =>
    have ha := hb a
    rw [floorAt]
    split
    · obtain ⟨⟨u, v, he, hlen⟩, hnear⟩ := @ih (limit - size a)
      refine ⟨⟨a :: u, v, by rw [List.cons_append, ← he], by rw [len_cons, hlen]⟩, fun h => ?_⟩
      rw [len_cons] at h
      have hrest := hnear (by omega)
      omega
    · exact ⟨⟨[], a :: s, rfl, rfl⟩, fun _ => Or.inl (by omega)⟩

theorem lastAt_eq_none (h : lastAt size p lo off s = none) {u v : List α} {a : α}
    (hs : s = u ++ a :: v) (hlo : lo ≤ off + len size u) : p a = false := by
  induction s generalizing off u with
  | nil => exact absurd hs.symm (List.append_ne_nil_of_right_ne_nil u (List.cons_ne_nil a v))
  | cons b s ih =>
    obtain ⟨hrest, hhead⟩ := Option.or_eq_none_iff.mp h
    cases u with
    | nil =>
      obtain ⟨rfl, rfl⟩ := List.cons.inj hs
      have hno : ¬ (lo ≤ off ∧ p b = true) := by simpa using hhead
      exact Bool.eq_false_iff.mpr fun hp => hno ⟨hlo, hp⟩
    | cons c u =>
      obtain ⟨rfl, rfl⟩ := List.cons.inj hs
      refine ih hrest rfl ?_
      rw [len_cons] at hlo
      omega

/-- The place found is one of the property, and every other one in the window comes before. -/
theorem lastAt_eq_some (h : lastAt size p lo off s = some k) :
    (∃ u a v, s = u ++ a :: v ∧ off + len size u = k ∧ p a = true ∧ lo ≤ k) ∧
      ∀ u a v, s = u ++ a :: v → lo ≤ off + len size u → p a = true → off + len size u ≤ k := by
  induction s generalizing off with
  | nil => cases h
  | cons b s ih =>
    rw [lastAt] at h
    cases hrest : lastAt size p lo (off + size b) s with
    | some j =>
      rw [hrest] at h
      obtain rfl := Option.some.inj h
      obtain ⟨⟨u, a, v, rfl, hlen, hp, hlo⟩, hmax⟩ := ih hrest
      refine ⟨⟨b :: u, a, v, rfl, by rw [len_cons]; omega, hp, hlo⟩, fun x c y hs hx hc => ?_⟩
      cases x with
      | nil =>
        rw [len_nil]
        omega
      | cons d x =>
        obtain ⟨hd, htail⟩ := List.cons.inj hs
        subst hd
        rw [len_cons] at hx ⊢
        have hle := hmax x c y htail (by omega) hc
        omega
    | none =>
      rw [hrest, Option.none_or] at h
      split at h
      · rename_i hb
        obtain rfl := Option.some.inj h
        refine ⟨⟨[], b, s, rfl, rfl, hb.2, hb.1⟩, fun x c y hs hx hc => ?_⟩
        cases x with
        | nil => exact Nat.le_refl _
        | cons d x =>
          obtain ⟨hd, htail⟩ := List.cons.inj hs
          subst hd
          rw [len_cons] at hx
          have hfalse := lastAt_eq_none hrest htail (by omega)
          rw [hfalse] at hc
          cases hc
      · cases h

end NemesisBot.Offsets

import Mathlib

/-! The closure of a set under successors, by a stack of what is left to visit. Only the
vertices of a finite list have successors. -/
namespace NemesisBot.Worklist
variable {α : Type*} [DecidableEq α] {succ : α → List α} {support : List α}

def explore (succ : α → List α) : Nat → List α → List α → List α
  | 0, visited, _ => visited
  | _ + 1, visited, [] => visited
  | n + 1, visited, a :: stack =>
    if a ∈ visited then explore succ n visited stack
    else explore succ n (a :: visited) (succ a ++ stack)

/-- The successors that unvisited vertices can still push. -/
def weight (succ : α → List α) (support visited : List α) : Nat :=
  ((support.filter (· ∉ visited)).map fun a => (succ a).length).sum

/-- Everything reached from `start`. -/
def closure (succ : α → List α) (support start : List α) : List α :=
  explore succ (start.length + weight succ support []) [] start

theorem weight_cons (visited : List α) {a : α} (ha : a ∉ visited)
    (hs : a ∈ support ∨ succ a = []) :
    weight succ support (a :: visited) + (succ a).length ≤ weight succ support visited := by
  unfold weight
  induction support with
  | nil =>
    have hnil := hs.resolve_left List.not_mem_nil
    simp [hnil]
  | cons b support ih =>
    have hsupport : a ∈ support ∨ succ a = [] ∨ b = a := by
      rcases hs with hs | hs
      · rcases List.mem_cons.mp hs with rfl | hs
        · exact .inr (.inr rfl)
        · exact .inl hs
      · exact .inr (.inl hs)
    by_cases hba : b = a
    · subst hba
      have hrest : ((support.filter (· ∉ b :: visited)).map fun a => (succ a).length).sum ≤
          ((support.filter (· ∉ visited)).map fun a => (succ a).length).sum := by
        apply List.Sublist.sum_le_sum
        · apply List.Sublist.map
          apply List.monotone_filter_right
          intro c hc
          simp only [List.mem_cons, decide_eq_true_eq] at hc ⊢
          exact fun h => hc (.inr h)
        · simp
      simp only [List.filter_cons, List.mem_cons, true_or, not_true_eq_false, decide_false,
        Bool.false_eq_true, if_false, ha, not_false_eq_true, decide_true, if_true, List.map_cons,
        List.sum_cons]
      simp only [List.mem_cons] at hrest
      omega
    · have ih := ih (by
        rcases hsupport with h | h | h
        · exact .inl h
        · exact .inr h
        · exact absurd h hba)
      by_cases hb : b ∈ visited
      · simpa [List.filter_cons, hb, hba] using ih
      · simp only [List.filter_cons, List.mem_cons, hba, hb, or_self, not_false_eq_true,
          decide_true, if_true, List.map_cons, List.sum_cons]
        simp only [List.mem_cons] at ih
        omega

theorem subset_explore (n : Nat) (visited stack : List α) :
    visited ⊆ explore succ n visited stack := by
  induction n generalizing visited stack with
  | zero => exact fun _ h => h
  | succ n ih =>
    cases stack with
    | nil => exact fun _ h => h
    | cons a stack =>
      rw [explore]
      split
      · exact ih visited stack
      · exact fun b hb => ih _ _ (List.mem_cons_of_mem a hb)

/-- With enough steps the result holds the stack and is closed under successors. -/
theorem explore_closed (hs : ∀ a ∉ support, succ a = []) (n : Nat) (visited stack : List α)
    (hn : stack.length + weight succ support visited ≤ n)
    (hv : ∀ a ∈ visited, ∀ b ∈ succ a, b ∈ visited ∨ b ∈ stack) :
    (∀ a ∈ stack, a ∈ explore succ n visited stack) ∧
      ∀ a ∈ explore succ n visited stack, ∀ b ∈ succ a, b ∈ explore succ n visited stack := by
  induction n generalizing visited stack with
  | zero =>
    have hnil : stack = [] := List.length_eq_zero_iff.mp (by omega)
    subst hnil
    exact ⟨by simp, fun a ha b hb => (hv a ha b hb).resolve_right List.not_mem_nil⟩
  | succ n ih =>
    cases stack with
    | nil => exact ⟨by simp, fun a ha b hb => (hv a ha b hb).resolve_right List.not_mem_nil⟩
    | cons a stack =>
      rw [List.length_cons] at hn
      rw [explore]
      split
      case isTrue ha =>
        have hv' : ∀ c ∈ visited, ∀ b ∈ succ c, b ∈ visited ∨ b ∈ stack := by
          intro c hc b hb
          rcases hv c hc b hb with hbv | hbs
          · exact .inl hbv
          · rcases List.mem_cons.mp hbs with rfl | hbs
            · exact .inl ha
            · exact .inr hbs
        obtain ⟨hstack, hclosed⟩ := ih visited stack (by omega) hv'
        refine ⟨?_, hclosed⟩
        intro b hb
        rcases List.mem_cons.mp hb with rfl | hb
        · exact subset_explore n visited stack ha
        · exact hstack b hb
      case isFalse ha =>
        have hw := weight_cons visited ha (by
          by_cases h : a ∈ support
          · exact .inl h
          · exact .inr (hs a h))
        have hv' : ∀ c ∈ a :: visited, ∀ b ∈ succ c, b ∈ a :: visited ∨ b ∈ succ a ++ stack := by
          intro c hc b hb
          rcases List.mem_cons.mp hc with rfl | hc
          · exact .inr (List.mem_append_left _ hb)
          · rcases hv c hc b hb with hbv | hbs
            · exact .inl (List.mem_cons_of_mem a hbv)
            · rcases List.mem_cons.mp hbs with rfl | hbs
              · exact .inl List.mem_cons_self
              · exact .inr (List.mem_append_right _ hbs)
        obtain ⟨hstack, hclosed⟩ := ih (a :: visited) (succ a ++ stack)
          (by rw [List.length_append]; omega) hv'
        refine ⟨?_, hclosed⟩
        intro b hb
        rcases List.mem_cons.mp hb with rfl | hb
        · exact subset_explore n _ _ List.mem_cons_self
        · exact hstack b (List.mem_append_right _ hb)

theorem explore_sound {P : α → Prop} (hP : ∀ a, P a → ∀ b ∈ succ a, P b) (n : Nat)
    (visited stack : List α) (hv : ∀ a ∈ visited, P a) (hs : ∀ a ∈ stack, P a) :
    ∀ a ∈ explore succ n visited stack, P a := by
  induction n generalizing visited stack with
  | zero => exact hv
  | succ n ih =>
    cases stack with
    | nil => exact hv
    | cons a stack =>
      have ha := hs a List.mem_cons_self
      have hrest : ∀ b ∈ stack, P b := fun b hb => hs b (List.mem_cons_of_mem a hb)
      rw [explore]
      split
      · exact ih visited stack hv hrest
      · apply ih
        · intro b hb
          rcases List.mem_cons.mp hb with rfl | hb
          · exact ha
          · exact hv b hb
        · intro b hb
          rcases List.mem_append.mp hb with hb | hb
          · exact hP a ha b hb
          · exact hrest b hb

/-- The closure is what can be reached from the start. -/
theorem mem_closure (hs : ∀ a ∉ support, succ a = []) {start : List α} {b : α} :
    b ∈ closure succ support start ↔
      ∃ a ∈ start, Relation.ReflTransGen (fun x y => y ∈ succ x) a b := by
  constructor
  · intro hb
    refine explore_sound (P := fun b => ∃ a ∈ start,
      Relation.ReflTransGen (fun x y => y ∈ succ x) a b) ?_ _ [] start (by simp) ?_ b hb
    · rintro x ⟨a, ha, hx⟩ y hy
      exact ⟨a, ha, hx.tail hy⟩
    · exact fun a ha => ⟨a, ha, .refl⟩
  · rintro ⟨a, ha, hab⟩
    obtain ⟨hstart, hclosed⟩ := explore_closed hs (start.length + weight succ support []) [] start
      (Nat.le_refl _) (by simp)
    induction hab with
    | refl => exact hstart a ha
    | tail _ hxy ih => exact hclosed _ ih _ hxy

end NemesisBot.Worklist

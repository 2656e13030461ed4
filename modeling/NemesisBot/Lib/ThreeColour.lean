import NemesisBot.Lib.Cycles

/-! Depth-first search with three colours: it fails exactly on a cycle, which it names. -/
namespace NemesisBot.ThreeColour
open Cycles
variable {α : Type*} [DecidableEq α]

/-- Not visited, on the path, finished. -/
inductive Colour where
  | white
  | grey
  | black
  deriving DecidableEq

/-- The colours, and the path with its oldest vertex first. -/
structure Marks (α : Type*) where
  color : α → Colour
  stack : List α

def Marks.enter (m : Marks α) (v : α) : Marks α :=
  ⟨Function.update m.color v .grey, m.stack ++ [v]⟩

def Marks.leave (m : Marks α) (v : α) : Marks α :=
  ⟨Function.update m.color v .black, m.stack.dropLast⟩

def Marks.fresh : Marks α := ⟨fun _ => .white, []⟩

inductive Failure (α : Type*) where
  | cycle (members : List α)
  | outOfBounds
  | outOfFuel

/-- The loop over the successors of a vertex. `go` visits one of them. -/
def visitAll (go : α → Marks α → Except (Failure α) (Marks α)) :
    List α → Marks α → Except (Failure α) (Marks α)
  | [], m => .ok m
  | v :: vs, m => match go v m with
    | .error e => .error e
    | .ok m => visitAll go vs m

/-- The path from a vertex on, and the vertex once more. -/
def cycleMembers (stack : List α) (v : α) : List α :=
  stack.drop ((stack.idxOf? v).getD 0) ++ [v]

def visit (g : α → Option (List α)) : Nat → α → Marks α → Except (Failure α) (Marks α)
  | 0, _, _ => .error .outOfFuel
  | fuel + 1, v, m => match m.color v with
    | .black => .ok m
    | .grey => .error (.cycle (cycleMembers m.stack v))
    | .white => match g v with
      | none => .error .outOfBounds
      | some targets => match visitAll (visit g fuel) targets (m.enter v) with
        | .error e => .error e
        | .ok m => .ok (m.leave v)

variable {g : α → Option (List α)} {m m' : Marks α} {v : α} {fuel : Nat}

/-! A visit that succeeds. -/

/-- The roots are finished, what was finished stays so, and the path is as before. -/
structure Visited (roots : List α) (m m' : Marks α) : Prop where
  stack : m'.stack = m.stack
  grey : ∀ a, m'.color a = .grey ↔ m.color a = .grey
  black : ∀ a, m.color a = .black → m'.color a = .black
  roots : ∀ a ∈ roots, m'.color a = .black

omit [DecidableEq α] in
theorem Visited.white {roots : List α} (h : Visited roots m m') {a : α}
    (ha : m'.color a = .white) : m.color a = .white := by
  cases hm : m.color a with
  | white => rfl
  | grey => rw [(h.grey a).mpr hm] at ha; cases ha
  | black => rw [h.black a hm] at ha; cases ha

omit [DecidableEq α] in
theorem visitAll_visited {go : α → Marks α → Except (Failure α) (Marks α)}
    (hgo : ∀ v m m', go v m = .ok m' → Visited [v] m m') {vs : List α}
    (h : visitAll go vs m = .ok m') : Visited vs m m' := by
  induction vs generalizing m with
  | nil =>
    obtain rfl : m = m' := Except.ok.inj h
    exact ⟨rfl, fun _ => Iff.rfl, fun _ ha => ha, by simp⟩
  | cons v vs ih =>
    rw [visitAll] at h
    split at h
    · cases h
    · rename_i m₁ hv
      have hfirst := hgo v m m₁ hv
      have hrest := ih h
      refine ⟨hrest.stack.trans hfirst.stack, fun a => (hrest.grey a).trans (hfirst.grey a),
        fun a ha => hrest.black a (hfirst.black a ha), ?_⟩
      intro a ha
      cases List.mem_cons.mp ha with
      | inl ha => exact hrest.black a (hfirst.roots a (List.mem_singleton.mpr ha))
      | inr ha => exact hrest.roots a ha

theorem enter_of_ne {a : α} (ha : a ≠ v) : (m.enter v).color a = m.color a :=
  Function.update_of_ne ha _ _

theorem leave_of_ne {a : α} (ha : a ≠ v) : (m.leave v).color a = m.color a :=
  Function.update_of_ne ha _ _

@[simp] theorem enter_self : (m.enter v).color v = .grey := Function.update_self _ _ _

@[simp] theorem leave_self : (m.leave v).color v = .black := Function.update_self _ _ _

/-- Entering a vertex, visiting and leaving it is a visit. -/
theorem Visited.around {targets : List α} (hv : m.color v = .white)
    (h : Visited targets (m.enter v) m') : Visited [v] m (m'.leave v) := by
  refine ⟨?_, fun a => ?_, fun a ha => ?_, ?_⟩
  · rw [Marks.leave, h.stack, Marks.enter, List.dropLast_concat]
  · by_cases hav : a = v
    · subst hav
      rw [leave_self, hv]
      exact iff_of_false (by decide) (by decide)
    · rw [leave_of_ne hav, h.grey a, enter_of_ne hav]
  · have hav : a ≠ v := fun he => by
      rw [he, hv] at ha
      cases ha
    rw [leave_of_ne hav]
    exact h.black a (by rwa [enter_of_ne hav])
  · intro a ha
    rw [List.mem_singleton.mp ha, leave_self]

/-- The cases of a visit that succeeds. -/
theorem visit_ok (h : visit g (fuel + 1) v m = .ok m') : m.color v = .black ∧ m' = m ∨
    ∃ targets m₁, m.color v = .white ∧ g v = some targets ∧
      visitAll (visit g fuel) targets (m.enter v) = .ok m₁ ∧ m' = m₁.leave v := by
  rw [visit] at h
  split at h
  · rename_i hv
    exact Or.inl ⟨hv, (Except.ok.inj h).symm⟩
  · cases h
  · rename_i hv
    split at h
    · cases h
    · rename_i targets hg
      split at h
      · cases h
      · rename_i m₁ hall
        exact Or.inr ⟨targets, m₁, hv, hg, hall, (Except.ok.inj h).symm⟩

theorem visit_visited (h : visit g fuel v m = .ok m') : Visited [v] m m' := by
  induction fuel generalizing v m m' with
  | zero => cases h
  | succ fuel ih =>
    obtain ⟨hv, rfl⟩ | ⟨targets, m₁, hv, -, hall, rfl⟩ := visit_ok h
    · refine ⟨rfl, fun _ => Iff.rfl, fun _ ha => ha, fun a ha => ?_⟩
      rwa [List.mem_singleton.mp ha]
    · exact (visitAll_visited (fun _ _ _ => ih) hall).around hv

/-- The edges from finished vertices lead to finished vertices of a smaller rank. -/
def Finished (g : α → Option (List α)) (m : Marks α) : Prop :=
  ∃ rank : α → Nat, ∀ a b, m.color a = .black → Adj g a b →
    m.color b = .black ∧ rank b < rank a

omit [DecidableEq α] in
theorem finished_fresh : Finished g (Marks.fresh : Marks α) := by
  refine ⟨fun _ => 0, fun a b ha => ?_⟩
  cases ha

theorem Finished.enter (h : Finished g m) (hv : m.color v = .white) :
    Finished g (m.enter v) := by
  obtain ⟨rank, hrank⟩ := h
  have hblack (a : α) : (m.enter v).color a = .black ↔ m.color a = .black := by
    by_cases hav : a = v
    · subst hav
      rw [enter_self, hv]
      exact iff_of_false (by decide) (by decide)
    · rw [enter_of_ne hav]
  refine ⟨rank, fun a b ha hab => ?_⟩
  have hstep := hrank a b ((hblack a).mp ha) hab
  exact ⟨(hblack b).mpr hstep.1, hstep.2⟩

/-- A vertex whose successors are finished may be finished, above all of them. -/
theorem Finished.leave (h : Finished g m) (hv : m.color v = .grey) {targets : List α}
    (hg : g v = some targets) (ht : ∀ b ∈ targets, m.color b = .black) :
    Finished g (m.leave v) := by
  obtain ⟨rank, hrank⟩ := h
  have hne : ∀ b, m.color b = .black → b ≠ v := by
    rintro b hb rfl
    rw [hv] at hb
    cases hb
  refine ⟨Function.update rank v ((targets.map rank).sum + 1), fun a b ha hab => ?_⟩
  by_cases hav : a = v
  · subst hav
    obtain ⟨ts, hts, hb⟩ := hab
    obtain rfl := Option.some.inj (hg.symm.trans hts)
    have hbv := hne b (ht b hb)
    have hle := List.le_sum_of_mem (List.mem_map_of_mem hb : rank b ∈ targets.map rank)
    rw [leave_of_ne hbv, Function.update_of_ne hbv, Function.update_self]
    exact ⟨ht b hb, Nat.lt_succ_of_le hle⟩
  · rw [leave_of_ne hav] at ha
    obtain ⟨hb, hlt⟩ := hrank a b ha hab
    have hbv := hne b hb
    rw [leave_of_ne hbv, Function.update_of_ne hbv, Function.update_of_ne hav]
    exact ⟨hb, hlt⟩

omit [DecidableEq α] in
theorem visitAll_finished {go : α → Marks α → Except (Failure α) (Marks α)}
    (hgo : ∀ v m m', go v m = .ok m' → Finished g m → Finished g m') {vs : List α}
    (h : visitAll go vs m = .ok m') (hm : Finished g m) : Finished g m' := by
  induction vs generalizing m with
  | nil =>
    obtain rfl : m = m' := Except.ok.inj h
    exact hm
  | cons v vs ih =>
    rw [visitAll] at h
    split at h
    · cases h
    · rename_i m₁ hv
      exact ih h (hgo v m m₁ hv hm)

theorem visit_finished (h : visit g fuel v m = .ok m') (hm : Finished g m) :
    Finished g m' := by
  induction fuel generalizing v m m' with
  | zero => cases h
  | succ fuel ih =>
    obtain ⟨-, rfl⟩ | ⟨targets, m₁, hv, hg, hall, rfl⟩ := visit_ok h
    · exact hm
    · have hvisited := visitAll_visited (fun _ _ _ => visit_visited) hall
      have hfinished := visitAll_finished (fun _ _ _ h hm => ih h hm) hall (hm.enter hv)
      exact hfinished.leave ((hvisited.grey v).mpr enter_self) hg hvisited.roots

/-! A visit that finds a cycle. -/

/-- The grey vertices are those of the stack, which is a path. -/
structure OnPath (g : α → Option (List α)) (m : Marks α) : Prop where
  grey : ∀ a, m.color a = .grey ↔ a ∈ m.stack
  chain : m.stack.IsChain (Adj g)

/-- A path of at least one edge that ends where it starts. -/
def IsCycle (g : α → Option (List α)) (members : List α) : Prop :=
  members.IsChain (Adj g) ∧ 2 ≤ members.length ∧ members.head? = members.getLast?

omit [DecidableEq α] in
theorem onPath_fresh : OnPath g (Marks.fresh : Marks α) :=
  ⟨fun _ => by simp [Marks.fresh], List.isChain_nil⟩

omit [DecidableEq α] in
theorem OnPath.of_visited {roots : List α} (h : OnPath g m) (hv : Visited roots m m') :
    OnPath g m' := by
  refine ⟨fun a => ?_, ?_⟩
  · rw [hv.grey a, h.grey a, hv.stack]
  · rw [hv.stack]
    exact h.chain

theorem OnPath.enter (h : OnPath g m) (hlast : ∀ u ∈ m.stack.getLast?, Adj g u v) :
    OnPath g (m.enter v) := by
  refine ⟨fun a => ?_, ?_⟩
  · rw [Marks.enter, List.mem_append, List.mem_singleton]
    by_cases hav : a = v
    · simp [hav]
    · simp [hav, h.grey a]
  · refine List.isChain_append.mpr ⟨h.chain, List.isChain_singleton v, fun u hu w hw => ?_⟩
    obtain rfl : v = w := by simpa using hw
    exact hlast u hu

omit [DecidableEq α] in
theorem IsCycle.not_acyclic {members : List α} (h : IsCycle g members) : ¬ Acyclic (Adj g) := by
  obtain ⟨hchain, hlen, hends⟩ := h
  obtain ⟨a, b, rest, rfl⟩ : ∃ a b rest, members = a :: b :: rest := by
    match members, hlen with
    | a :: b :: rest, _ => exact ⟨a, b, rest, rfl⟩
  rw [List.isChain_cons_cons] at hchain
  have hlast : (b :: rest).getLast (List.cons_ne_nil b rest) = a := by
    rw [List.head?_cons, List.getLast?_cons_cons,
      List.getLast?_eq_some_getLast (List.cons_ne_nil b rest)] at hends
    exact (Option.some.inj hends).symm
  have hback := List.relationReflTransGen_of_exists_isChain_cons rest hchain.2 hlast
  exact fun hacyclic => hacyclic a (Relation.TransGen.head' hchain.1 hback)

/-- Meeting the path again closes a cycle. -/
theorem OnPath.cycle (h : OnPath g m) (hlast : ∀ u ∈ m.stack.getLast?, Adj g u v)
    (hv : m.color v = .grey) : IsCycle g (cycleMembers m.stack v) := by
  have hmem := (h.grey v).mp hv
  obtain ⟨i, hi⟩ : ∃ i, m.stack.idxOf? v = some i := by
    rw [← Option.isSome_iff_exists, List.isSome_idxOf?]
    exact hmem
  obtain ⟨hlt, hat, -⟩ := List.idxOf?_eq_some_iff.mp hi
  have hdrop : m.stack.drop i = v :: m.stack.drop (i + 1) := by
    rw [List.drop_eq_getElem_cons hlt, hat]
  have hlasts : (m.stack.drop i).getLast? = m.stack.getLast? := by
    rw [List.getLast?_drop, if_neg (by omega)]
  rw [cycleMembers, hi, Option.getD_some]
  refine ⟨List.isChain_append.mpr ⟨h.chain.drop i, List.isChain_singleton v, ?_⟩, ?_, ?_⟩
  · intro u hu w hw
    obtain rfl : v = w := by simpa using hw
    exact hlast u (hlasts ▸ hu)
  · rw [hdrop, List.length_append, List.length_cons, List.length_singleton]
    omega
  · rw [hdrop, List.getLast?_append]
    rfl

/-- The vertices not visited yet. -/
def whites (keys : List α) (m : Marks α) : Nat :=
  (keys.filter fun a => m.color a = .white).length

omit [DecidableEq α] in
theorem whites_le {keys : List α} (h : ∀ a, m'.color a = .white → m.color a = .white) :
    whites keys m' ≤ whites keys m := by
  refine (List.monotone_filter_right keys fun a ha => ?_).length_le
  rw [decide_eq_true_eq] at ha ⊢
  exact h a ha

theorem whites_enter_lt {keys : List α} (hk : v ∈ keys) (hv : m.color v = .white) :
    whites keys (m.enter v) < whites keys m := by
  have hwhite : ∀ a, (m.enter v).color a = .white → m.color a = .white := by
    intro a ha
    by_cases hav : a = v
    · rwa [hav]
    · rwa [enter_of_ne hav] at ha
  have hsub := List.monotone_filter_right keys
    (p := fun a => (m.enter v).color a = .white) (q := fun a => m.color a = .white)
    fun a ha => decide_eq_true (hwhite a (of_decide_eq_true ha))
  refine lt_of_le_of_ne hsub.length_le fun he => ?_
  have hmem : v ∈ keys.filter fun a => (m.enter v).color a = .white := by
    rw [hsub.eq_of_length he]
    exact List.mem_filter.mpr ⟨hk, decide_eq_true hv⟩
  have hgrey := of_decide_eq_true (List.mem_filter.mp hmem).2
  rw [enter_self] at hgrey
  cases hgrey

/-- The cases of a visit that fails. -/
theorem visit_error {e : Failure α} (h : visit g (fuel + 1) v m = .error e) :
    m.color v = .grey ∧ e = .cycle (cycleMembers m.stack v) ∨
    m.color v = .white ∧ g v = none ∧ e = .outOfBounds ∨
    ∃ targets, m.color v = .white ∧ g v = some targets ∧
      visitAll (visit g fuel) targets (m.enter v) = .error e := by
  rw [visit] at h
  split at h
  · cases h
  · rename_i hv
    exact Or.inl ⟨hv, (Except.error.inj h).symm⟩
  · rename_i hv
    split at h
    · rename_i hg
      exact Or.inr (Or.inl ⟨hv, hg, (Except.error.inj h).symm⟩)
    · rename_i targets hg
      split at h
      · rename_i e' hall
        obtain rfl := Except.error.inj h
        exact Or.inr (Or.inr ⟨targets, hv, hg, hall⟩)
      · cases h

/-- The first visit that fails. -/
theorem visitAll_error {vs : List α} {e : Failure α}
    (h : visitAll (visit g fuel) vs m = .error e) :
    ∃ w ∈ vs, ∃ done m₁, Visited done m m₁ ∧ visit g fuel w m₁ = .error e := by
  induction vs generalizing m with
  | nil => cases h
  | cons w vs ih =>
    rw [visitAll] at h
    split at h
    · rename_i e' hw
      obtain rfl := Except.error.inj h
      exact ⟨w, List.mem_cons_self, [], m, ⟨rfl, fun _ => Iff.rfl, fun _ ha => ha, by simp⟩, hw⟩
    · rename_i m₁ hw
      obtain ⟨w', hmem, done, m₂, hdone, hw'⟩ := ih h
      have hfirst := visit_visited hw
      refine ⟨w', List.mem_cons_of_mem w hmem, done, m₂, ?_, hw'⟩
      exact ⟨hdone.stack.trans hfirst.stack, fun a => (hdone.grey a).trans (hfirst.grey a),
        fun a ha => hdone.black a (hfirst.black a ha), hdone.roots⟩

/-- When every edge leads to a vertex of the graph, the visits fail on cycles only. -/
theorem visit_error_cycle {keys : List α} (hkeys : ∀ a ts, g a = some ts → a ∈ keys)
    (hclosed : ∀ a b, Adj g a b → (g b).isSome) (hv : (g v).isSome) (hm : OnPath g m)
    (hlast : ∀ u ∈ m.stack.getLast?, Adj g u v) (hfuel : whites keys m < fuel) {e : Failure α}
    (h : visit g fuel v m = .error e) : ∃ members, e = .cycle members ∧ IsCycle g members := by
  induction fuel generalizing v m with
  | zero => omega
  | succ fuel ih =>
    obtain ⟨hgrey, rfl⟩ | ⟨-, hnone, -⟩ | ⟨targets, hwhite, hg, hall⟩ := visit_error h
    · exact ⟨_, rfl, hm.cycle hlast hgrey⟩
    · rw [hnone] at hv
      cases hv
    · obtain ⟨w, hw, done, m₁, hdone, herr⟩ := visitAll_error hall
      have hedge : Adj g v w := ⟨targets, hg, hw⟩
      refine ih (hclosed v w hedge) ((hm.enter hlast).of_visited hdone) ?_ ?_ herr
      · intro u hu
        rw [hdone.stack, Marks.enter, List.getLast?_concat] at hu
        obtain rfl := Option.some.inj hu
        exact hedge
      · have hle : whites keys m₁ ≤ whites keys (m.enter v) := whites_le fun a => hdone.white
        have hlt := whites_enter_lt (hkeys v targets hg) hwhite
        omega

section Search
variable {keys : List α} (hkeys : ∀ a, a ∈ keys ↔ (g a).isSome)
  (hclosed : ∀ a b, Adj g a b → (g b).isSome)
include hkeys hclosed

/-- The search of all vertices fails on cycles only. -/
theorem search_error {e : Failure α}
    (h : visitAll (visit g (keys.length + 1)) keys Marks.fresh = .error e) :
    ∃ members, e = .cycle members ∧ IsCycle g members := by
  obtain ⟨w, hw, done, m₁, hdone, herr⟩ := visitAll_error h
  refine visit_error_cycle (fun a ts ha => (hkeys a).mpr (by simp [ha])) hclosed
    ((hkeys w).mp hw) (onPath_fresh.of_visited hdone) ?_ ?_ herr
  · intro u hu
    rw [hdone.stack] at hu
    cases hu
  · exact Nat.lt_succ_of_le (List.length_filter_le _ keys)

/-- The search of all vertices succeeds exactly without cycles. -/
theorem search_ok_iff :
    (∃ m, visitAll (visit g (keys.length + 1)) keys Marks.fresh = .ok m) ↔ Acyclic (Adj g) := by
  constructor
  · rintro ⟨m, h⟩
    obtain ⟨rank, hrank⟩ := visitAll_finished (fun _ _ _ => visit_finished) h finished_fresh
    have hroots := (visitAll_visited (fun _ _ _ => visit_visited) h).roots
    refine acyclic_of_rank rank fun a b hab => (hrank a b (hroots a ?_) hab).2
    obtain ⟨ts, hts, -⟩ := hab
    exact (hkeys a).mpr (by simp [hts])
  · intro hacyclic
    cases h : visitAll (visit g (keys.length + 1)) keys Marks.fresh with
    | ok m => exact ⟨m, rfl⟩
    | error e =>
      obtain ⟨members, -, hcycle⟩ := search_error hkeys hclosed h
      exact absurd hacyclic hcycle.not_acyclic

end Search

end NemesisBot.ThreeColour

import Mathlib

/-! Directed graphs given by successor lists: acyclicity, and the depth-first search for a
path back to its start. -/
namespace NemesisBot.Cycles
variable {α : Type*}

/-- No vertex reaches itself. -/
def Acyclic (r : α → α → Prop) : Prop := ∀ a, ¬ Relation.TransGen r a a

theorem Acyclic.mono {r r' : α → α → Prop} (h : Acyclic r) (hle : ∀ a b, r' a b → r a b) :
    Acyclic r' :=
  fun a hc => h a (Relation.TransGen.mono hle a a hc)

/-- A rank that falls along every edge excludes cycles. -/
theorem acyclic_of_rank {r : α → α → Prop} (rank : α → Nat) (h : ∀ a b, r a b → rank b < rank a) :
    Acyclic r := by
  have hpath : ∀ a b, Relation.TransGen r a b → rank b < rank a := by
    intro a b hab
    induction hab with
    | single hab => exact h _ _ hab
    | tail _ hbc ih => exact Nat.lt_trans (h _ _ hbc) ih
  exact fun a hc => Nat.lt_irrefl _ (hpath a a hc)

/-- A path of an acyclic graph, newest vertex first, visits no vertex twice. -/
theorem Acyclic.nodup {r : α → α → Prop} (h : Acyclic r) {path : List α}
    (hp : path.IsChain fun b a => r a b) : path.Nodup := by
  have htrans : path.IsChain fun b a => Relation.TransGen r a b :=
    hp.imp fun _ _ hab => Relation.TransGen.single hab
  have : Trans (fun b a => Relation.TransGen r a b) (fun b a => Relation.TransGen r a b)
      (fun b a => Relation.TransGen r a b) := ⟨fun hab hbc => hbc.trans hab⟩
  refine (List.isChain_iff_pairwise.mp htrans).imp ?_
  rintro b a hab rfl
  exact h b hab

/-- An acyclic graph stays so when the edges of one vertex are turned to one that does not reach
it. -/
theorem Acyclic.redirect {r r' : α → α → Prop} {a b : α} (h : Acyclic r)
    (hnot : ¬ Relation.ReflTransGen r b a) (hle : ∀ x y, r' x y → r x y ∨ x = a ∧ y = b) :
    Acyclic r' := by
  have hpath : ∀ x y, Relation.TransGen r' x y → Relation.TransGen r x y ∨
      Relation.ReflTransGen r x a ∧ Relation.ReflTransGen r b y := by
    intro x y hxy
    induction hxy with
    | single hxy =>
      cases hle _ _ hxy with
      | inl hxy => exact .inl (.single hxy)
      | inr hxy =>
        obtain ⟨rfl, rfl⟩ := hxy
        exact .inr ⟨.refl, .refl⟩
    | tail _ hyz ih =>
      cases hle _ _ hyz with
      | inl hyz =>
        cases ih with
        | inl hxy => exact .inl (hxy.tail hyz)
        | inr hxy => exact .inr ⟨hxy.1, hxy.2.tail hyz⟩
      | inr hyz =>
        obtain ⟨rfl, rfl⟩ := hyz
        cases ih with
        | inl hxy => exact .inr ⟨hxy.to_reflTransGen, .refl⟩
        | inr hxy => exact absurd hxy.2 hnot
  intro x hx
  cases hpath x x hx with
  | inl hx => exact h x hx
  | inr hx => exact hnot (hx.2.trans hx.1)

/-- Among finitely many vertices of an acyclic graph one has no predecessor. -/
theorem Acyclic.exists_source {r : α → α → Prop} (h : Acyclic r) {vertices : List α}
    (hne : vertices ≠ []) : ∃ b ∈ vertices, ∀ a ∈ vertices, ¬ r a b := by
  let above (a b : {v // v ∈ vertices}) : Prop := Relation.TransGen r a b
  have : Finite {v // v ∈ vertices} := (List.finite_toSet vertices).to_subtype
  have : Std.Irrefl above := ⟨fun a => h a⟩
  have : IsTrans {v // v ∈ vertices} above := ⟨fun _ _ _ hab hbc => hab.trans hbc⟩
  have hwf : WellFounded above := Finite.wellFounded_of_trans_of_irrefl above
  obtain ⟨v, hv⟩ := List.exists_mem_of_ne_nil vertices hne
  obtain ⟨b, -, hb⟩ := hwf.has_min Set.univ ⟨⟨v, hv⟩, trivial⟩
  exact ⟨b, b.property, fun a ha hab => hb ⟨a, ha⟩ trivial (.single hab)⟩

/-- Some level that holds the first vertex comes before some level that holds the second. -/
def Before (levels : List (List α)) (a b : α) : Prop :=
  ∃ earlier later, levels = earlier ++ later ∧ a ∈ earlier.flatten ∧ b ∈ later.flatten

theorem Before.cons {levels : List (List α)} {a b : α} (h : Before levels a b)
    (level : List α) : Before (level :: levels) a b := by
  obtain ⟨earlier, later, rfl, ha, hb⟩ := h
  refine ⟨level :: earlier, later, rfl, ?_, hb⟩
  rw [List.flatten_cons]
  exact List.mem_append_right level ha

theorem Before.trans {levels : List (List α)} (hn : levels.flatten.Nodup) {a b d : α}
    (hab : Before levels a b) (hbd : Before levels b d) : Before levels a d := by
  obtain ⟨earlier, later, rfl, ha, hb⟩ := hab
  obtain ⟨earlier', later', he, hb', hd⟩ := hbd
  obtain ⟨mid, rfl, hmid⟩ | ⟨mid, rfl, hmid⟩ := List.append_eq_append_iff.mp he
  · refine ⟨earlier ++ mid, later', he, ?_, hd⟩
    rw [List.flatten_append]
    exact List.mem_append_left _ ha
  · -- the second cut lies before the first one, but b is on one side only
    rw [List.flatten_append] at hn
    refine absurd hb (List.disjoint_of_nodup_append hn ?_)
    rw [List.flatten_append]
    exact List.mem_append_left _ hb'

/-- What comes before a vertex lies in the levels before its own. -/
theorem Before.mem_front {front back : List (List α)} {here : List α} {a b : α}
    (h : Before (front ++ here :: back) a b) (hn : (front ++ here :: back).flatten.Nodup)
    (hb : b ∈ here) : a ∈ front.flatten := by
  obtain ⟨earlier, later, he, ha, hlater⟩ := h
  obtain ⟨mid, rfl, hmid⟩ | ⟨mid, rfl, hmid⟩ := List.append_eq_append_iff.mp he
  · cases mid with
    | nil => simpa using ha
    | cons first mid =>
      obtain ⟨rfl, rfl⟩ := List.cons.inj hmid
      have hpair : (here ++ (mid ++ later).flatten).Nodup := by
        rw [List.flatten_append, List.flatten_cons] at hn
        exact (List.nodup_append.mp hn).2.1
      refine absurd ?_ (List.disjoint_of_nodup_append hpair hb)
      simp [hlater]
  · rw [List.flatten_append]
    exact List.mem_append_left _ ha

theorem not_before_self {levels : List (List α)} (hn : levels.flatten.Nodup) (a : α) :
    ¬ Before levels a a := by
  rintro ⟨earlier, later, rfl, ha, ha'⟩
  rw [List.flatten_append] at hn
  exact List.disjoint_of_nodup_append hn ha ha'

/-- Edges that all lead to a later level close no cycle. -/
theorem acyclic_of_before {r : α → α → Prop} {levels : List (List α)}
    (hn : levels.flatten.Nodup) (h : ∀ a b, r a b → Before levels a b) : Acyclic r := by
  intro a hc
  have hpath : ∀ b, Relation.TransGen r a b → Before levels a b := by
    intro b hb
    induction hb with
    | single hab => exact h _ _ hab
    | tail _ hbc ih => exact ih.trans hn (h _ _ hbc)
  exact not_before_self hn a (hpath a hc)

/-- Replacing the edges out of one vertex keeps the graph acyclic unless the vertex then
reaches itself. -/
theorem Acyclic.replace {r r' : α → α → Prop} {v : α} (h : Acyclic r)
    (hother : ∀ a b, a ≠ v → r' a b → r a b) (hv : ¬ Relation.TransGen r' v v) : Acyclic r' := by
  intro a hc
  -- a path avoids v or passes through it
  have hpath : ∀ b, Relation.TransGen r' a b →
      Relation.TransGen r a b ∨ Relation.ReflTransGen r' a v ∧ Relation.TransGen r' v b := by
    intro b hb
    induction hb with
    | single hab =>
      by_cases ha : a = v
      · subst ha
        exact Or.inr ⟨.refl, .single hab⟩
      · exact Or.inl (.single (hother _ _ ha hab))
    | tail hab hbc ih =>
      rename_i b c
      obtain hr | ⟨hav, hvb⟩ := ih
      · by_cases hb : b = v
        · subst hb
          exact Or.inr ⟨hab.to_reflTransGen, .single hbc⟩
        · exact Or.inl (hr.tail (hother _ _ hb hbc))
      · exact Or.inr ⟨hav, hvb.tail hbc⟩
  obtain hr | ⟨hav, hva⟩ := hpath a hc
  · exact h a hr
  · exact hv (hva.trans_left hav)

/-- The successors of a vertex are those of its entry, if it has one. -/
def Adj (g : α → Option (List α)) (a b : α) : Prop := ∃ ts, g a = some ts ∧ b ∈ ts

variable [DecidableEq α]

/-- The loop over the successors of one vertex. `go` searches from a new vertex. -/
def searchTargets (go : α → List α → List α → Option (List α) × List α) (start : α)
    (path : List α) : List α → List α → Option (List α) × List α
  | [], visited => (none, visited)
  | next :: rest, visited =>
    if next = start then (some (path ++ [next]), visited)
    else if next ∈ visited then searchTargets go start path rest visited
    else match go next (path ++ [next]) (next :: visited) with
      | (some cycle, visited) => (some cycle, visited)
      | (none, visited) => searchTargets go start path rest visited

/-- Depth-first search for `start` from a vertex, with the path taken and the vertices
visited so far. -/
def search (g : α → Option (List α)) (start : α) :
    Nat → α → List α → List α → Option (List α) × List α
  | 0, _, _, visited => (none, visited)
  | fuel + 1, node, path, visited => match g node with
    | none => (none, visited)
    | some targets => searchTargets (search g start fuel) start path targets visited

/-- The search from a graph with finitely many entries, whose vertices are `keys`. -/
def findPathBack (g : α → Option (List α)) (keys : List α) (start : α) : Option (List α) :=
  (search g start (keys.length + 1) start [start] [start]).1

/-- What a search without result leaves behind: the roots are visited, the
vertices it added have their successors visited, and `start` is none of these. -/
structure Exhausted (g : α → Option (List α)) (start : α) (roots visited visited' : List α) :
    Prop where
  grows : visited ⊆ visited'
  roots_mem : ∀ b ∈ roots, b ≠ start ∧ b ∈ visited'
  closed : ∀ a ∈ visited', a ∉ visited → ∀ b, Adj g a b → b ≠ start ∧ b ∈ visited'

/-- The entries not visited yet. -/
def unvisited (keys visited : List α) : Nat := (keys.filter (· ∉ visited)).length

theorem unvisited_le {keys visited visited' : List α} (h : visited ⊆ visited') :
    unvisited keys visited' ≤ unvisited keys visited := by
  refine (List.monotone_filter_right keys fun a ha => ?_).length_le
  simp only [decide_eq_true_eq] at ha ⊢
  exact fun hm => ha (h hm)

theorem unvisited_cons_lt {keys visited : List α} {a : α} (hk : a ∈ keys) (hv : a ∉ visited) :
    unvisited keys (a :: visited) < unvisited keys visited := by
  induction keys with
  | nil => cases hk
  | cons k keys ih =>
    have hle : unvisited keys (a :: visited) ≤ unvisited keys visited :=
      unvisited_le (List.subset_cons_self a visited)
    by_cases hka : k = a
    · subst hka
      simp only [unvisited] at hle ⊢
      simp only [List.filter_cons, List.mem_cons, true_or, not_true, decide_false, hv,
        not_false_eq_true, decide_true, if_true, List.length_cons]
      simpa using Nat.lt_succ_of_le hle
    · have hk' : a ∈ keys := (List.mem_cons.mp hk).resolve_left (Ne.symm hka)
      have hi := ih hk'
      simp only [unvisited] at hi ⊢
      by_cases hkv : k ∈ visited
      · simpa [List.filter_cons, hka, hkv] using hi
      · simpa [List.filter_cons, hka, hkv] using hi

/-- The loop is exhausted when every search it starts is. -/
theorem searchTargets_none {g : α → Option (List α)} {keys : List α} {start : α}
    {go : α → List α → List α → Option (List α) × List α} {bound : Nat}
    (hkeys : ∀ a ts, g a = some ts → a ∈ keys)
    (hgo : ∀ next path visited visited', (g next = none ∨ unvisited keys visited < bound) →
      next ∈ visited → go next path visited = (none, visited') →
      visited ⊆ visited' ∧ ∀ a, a = next ∨ (a ∈ visited' ∧ a ∉ visited) →
        ∀ b, Adj g a b → b ≠ start ∧ b ∈ visited')
    {path targets visited visited' : List α} (hb : unvisited keys visited ≤ bound)
    (h : searchTargets go start path targets visited = (none, visited')) :
    Exhausted g start targets visited visited' := by
  induction targets generalizing visited with
  | nil =>
    obtain rfl : visited = visited' := (Prod.mk.inj h).2
    exact ⟨fun _ ha => ha, by simp, fun a ha hna => absurd ha hna⟩
  | cons next rest ih =>
    rw [searchTargets] at h
    split at h
    · cases h
    · rename_i hstart
      split at h
      · rename_i hv
        obtain ⟨hgrow, hroots, hclosed⟩ := ih hb h
        refine ⟨hgrow, ?_, hclosed⟩
        intro b hmem
        obtain rfl | hmem := List.mem_cons.mp hmem
        · exact ⟨hstart, hgrow hv⟩
        · exact hroots b hmem
      · rename_i hv
        have hbudget : g next = none ∨ unvisited keys (next :: visited) < bound := by
          cases hg : g next with
          | none => exact Or.inl rfl
          | some ts =>
            exact Or.inr (Nat.lt_of_lt_of_le (unvisited_cons_lt (hkeys next ts hg) hv) hb)
        cases hr : go next (path ++ [next]) (next :: visited) with
        | mk found mid =>
          rw [hr] at h
          cases found with
          | some cycle => cases h
          | none =>
            obtain ⟨hmid, hnew⟩ := hgo next _ _ _ hbudget List.mem_cons_self hr
            have hsub : visited ⊆ mid := fun a ha => hmid (List.mem_cons_of_mem next ha)
            obtain ⟨hgrow, hroots, hclosed⟩ := ih (Nat.le_trans (unvisited_le hsub) hb) h
            refine ⟨fun a ha => hgrow (hsub ha), ?_, ?_⟩
            · intro b hmem
              obtain rfl | hmem := List.mem_cons.mp hmem
              · exact ⟨hstart, hgrow (hmid List.mem_cons_self)⟩
              · exact hroots b hmem
            · intro a ha hna b hab
              by_cases hm : a ∈ mid
              · have hcase : a = next ∨ (a ∈ mid ∧ a ∉ next :: visited) := by
                  by_cases hn : a = next
                  · exact Or.inl hn
                  · exact Or.inr ⟨hm, by simp [hn, hna]⟩
                obtain ⟨hne, hbm⟩ := hnew a hcase b hab
                exact ⟨hne, hgrow hbm⟩
              · exact hclosed a ha hm b hab

theorem search_none {g : α → Option (List α)} {keys : List α} {start : α}
    (hkeys : ∀ a ts, g a = some ts → a ∈ keys) {fuel : Nat} {node : α}
    {path visited visited' : List α}
    (hf : g node = none ∨ unvisited keys visited < fuel)
    (h : search g start fuel node path visited = (none, visited')) :
    visited ⊆ visited' ∧ ∀ a, a = node ∨ (a ∈ visited' ∧ a ∉ visited) →
      ∀ b, Adj g a b → b ≠ start ∧ b ∈ visited' := by
  induction fuel generalizing node path visited visited' with
  | zero =>
    obtain rfl : visited = visited' := (Prod.mk.inj h).2
    refine ⟨fun _ ha => ha, ?_⟩
    rintro a (rfl | ⟨ha, hna⟩) b ⟨ts, hts, hb⟩
    · simp [hts] at hf
    · exact absurd ha hna
  | succ fuel ih =>
    rw [search] at h
    cases hg : g node with
    | none =>
      rw [hg] at h
      obtain rfl : visited = visited' := (Prod.mk.inj h).2
      refine ⟨fun _ ha => ha, ?_⟩
      rintro a (rfl | ⟨ha, hna⟩) b ⟨ts, hts, hb⟩
      · simp [hg] at hts
      · exact absurd ha hna
    | some targets =>
      rw [hg] at h
      have hbound : unvisited keys visited ≤ fuel := by
        rw [hg] at hf
        exact Nat.lt_succ_iff.mp (hf.resolve_left (Option.some_ne_none targets))
      obtain ⟨hgrow, hroots, hclosed⟩ := searchTargets_none hkeys
        (fun next path visited visited' hf _ hr => ih hf hr) hbound h
      refine ⟨hgrow, ?_⟩
      rintro a (rfl | ⟨ha, hna⟩) b hab
      · obtain ⟨ts, hts, hb⟩ := hab
        obtain rfl : targets = ts := Option.some.inj (hg.symm.trans hts)
        exact hroots b hb
      · exact hclosed a ha hna b hab

/-- A cycle through the start is found. -/
theorem findPathBack_isSome {g : α → Option (List α)} {keys : List α} {start : α}
    (hkeys : ∀ a ts, g a = some ts → a ∈ keys)
    (hc : Relation.TransGen (Adj g) start start) : (findPathBack g keys start).isSome := by
  cases h : search g start (keys.length + 1) start [start] [start] with
  | mk found visited =>
    cases found with
    | some cycle => simp [findPathBack, h]
    | none =>
      have hbudget : unvisited keys [start] < keys.length + 1 :=
        Nat.lt_succ_of_le (List.length_filter_le _ keys)
      obtain ⟨-, hnew⟩ := search_none hkeys (Or.inr hbudget) h
      have hreach : ∀ b, Relation.TransGen (Adj g) start b → b ≠ start ∧ b ∈ visited := by
        intro b hb
        induction hb with
        | single hab => exact hnew start (Or.inl rfl) _ hab
        | tail _ hbc ih => exact hnew _ (Or.inr ⟨ih.2, by simpa using ih.1⟩) _ hbc
      exact absurd rfl (hreach start hc).1

end NemesisBot.Cycles

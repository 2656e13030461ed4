import NemesisBot.Agent.CheckpointGc

/-! The gc breaks no live checkpoint as long as no turn writes its tree behind its back. -/
namespace NemesisBot.CheckpointGc
open Strings Runs Worklist

section
variable {Oid : Type}

/-- Everything below the root can be read. -/
def Graph.Readable (g : Graph Oid) (objects : List Oid) (root : Oid) : Prop :=
  ∀ o, Relation.ReflTransGen (fun a b => b ∈ g.kids a) root o → o ∈ objects ++ g.main

theorem Graph.Readable.mono {g : Graph Oid} {a b : List Oid} {t : Oid} (h : g.Readable a t)
    (hab : ∀ o ∈ a, o ∈ b) : g.Readable b t := by
  intro o ho
  rcases List.mem_append.mp (h o ho) with ho | ho
  · exact List.mem_append_left _ (hab o ho)
  · exact List.mem_append_right _ ho

/-- A closed set of objects makes each of them readable. -/
theorem readable_of_closed {g : Graph Oid} {objs objects : List Oid} {t : Oid} (ht : t ∈ objs)
    (hclosed : ∀ o ∈ objs, ∀ k ∈ g.kids o, k ∈ objs)
    (hin : ∀ o ∈ objs, o ∈ objects ++ g.main) : g.Readable objects t := by
  intro o ho
  apply hin
  induction ho with
  | refl => exact ht
  | tail _ hxy ih => exact hclosed _ ih _ hxy

/-! The entries of the gc. -/

theorem mem_dedupFrom {last : Nat} {es : List (Entry Oid)} {e : Entry Oid}
    (h : e ∈ dedupFrom last es) : e ∈ es := by
  induction es generalizing last with
  | nil => cases h
  | cons a es ih =>
    rw [dedupFrom] at h
    split at h
    · exact List.mem_cons_of_mem a (ih h)
    · rcases List.mem_cons.mp h with rfl | h
      · exact List.mem_cons_self
      · exact List.mem_cons_of_mem a (ih h)

/-- Over sorted entries each turn is left once. -/
theorem dedupFrom_increasing {last : Nat} {es : List (Entry Oid)}
    (hs : es.Pairwise Entry.before) (hl : ∀ e ∈ es, last ≤ e.turn) :
    (∀ e ∈ dedupFrom last es, last < e.turn) ∧
      (dedupFrom last es).Pairwise fun a b => a.turn < b.turn := by
  induction es generalizing last with
  | nil => simp [dedupFrom]
  | cons a es ih =>
    rw [List.pairwise_cons] at hs
    rw [dedupFrom]
    have hla := hl a List.mem_cons_self
    split
    case isTrue heq => exact ih hs.2 fun e he => hl e (List.mem_cons_of_mem a he)
    case isFalse hne =>
      obtain ⟨habove, hdistinct⟩ := ih hs.2 hs.1
      constructor
      · intro e he
        rcases List.mem_cons.mp he with rfl | he
        · omega
        · have := habove e he
          omega
      · rw [List.pairwise_cons]
        exact ⟨habove, hdistinct⟩

theorem dedupFrom_turn {last : Nat} {es : List (Entry Oid)} {e : Entry Oid} (he : e ∈ es) :
    e.turn = last ∨ ∃ d ∈ dedupFrom last es, d.turn = e.turn := by
  induction es generalizing last with
  | nil => cases he
  | cons a es ih =>
    rw [dedupFrom]
    split
    case isTrue heq =>
      rcases List.mem_cons.mp he with rfl | he
      · exact .inl heq
      · exact ih he
    case isFalse =>
      right
      rcases List.mem_cons.mp he with rfl | he
      · exact ⟨e, List.mem_cons_self, rfl⟩
      · rcases ih he with h | ⟨d, hd, hde⟩
        · exact ⟨a, List.mem_cons_self, h.symm⟩
        · exact ⟨d, List.mem_cons_of_mem a hd, hde⟩

instance : Std.Total (@Entry.before Oid) := ⟨fun a b => Nat.le_total a.turn b.turn⟩

instance : IsTrans (Entry Oid) Entry.before := ⟨fun _ _ _ hab hbc => Nat.le_trans hab hbc⟩

/-- The gc looks at one entry of the index for each of its turns. -/
theorem gcEntries_spec (s : State Oid) :
    ((gcEntries s).Pairwise fun a b => a.turn < b.turn) ∧ (∀ e ∈ gcEntries s, e ∈ s.index) ∧
      ∀ e ∈ s.index, ∃ d ∈ gcEntries s, d.turn = e.turn := by
  have hsorted := List.pairwise_insertionSort Entry.before s.index
  have hmem : ∀ e, e ∈ s.index.insertionSort Entry.before ↔ e ∈ s.index :=
    fun e => List.mem_insertionSort Entry.before
  unfold gcEntries
  cases hl : s.index.insertionSort Entry.before with
  | nil =>
    rw [hl] at hmem
    refine ⟨List.Pairwise.nil, by simp [dedupTurns], ?_⟩
    exact fun e he => absurd ((hmem e).mpr he) List.not_mem_nil
  | cons a rest =>
    rw [hl] at hmem hsorted
    rw [List.pairwise_cons] at hsorted
    obtain ⟨habove, hincreasing⟩ := dedupFrom_increasing hsorted.2 hsorted.1
    refine ⟨List.pairwise_cons.mpr ⟨habove, hincreasing⟩, ?_, ?_⟩
    · intro e he
      rcases List.mem_cons.mp he with rfl | he
      · exact (hmem e).mp List.mem_cons_self
      · exact (hmem e).mp (List.mem_cons_of_mem a (mem_dedupFrom he))
    · intro e he
      rcases List.mem_cons.mp ((hmem e).mpr he) with rfl | he
      · exact ⟨e, List.mem_cons_self, rfl⟩
      · rcases dedupFrom_turn he with h | ⟨d, hd, hde⟩
        · exact ⟨a, List.mem_cons_self, h.symm⟩
        · exact ⟨d, List.mem_cons_of_mem a hd, hde⟩

/-! What must survive a gc. -/

def State.store (s : State Oid) : List Oid := s.objects.getD []

/-- Readable before the last gc began, or written since. -/
def State.Sound (g : Graph Oid) (s : State Oid) (t : Oid) : Prop :=
  g.Readable s.before t ∨ t ∈ s.begun

def Live (g : Graph Oid) (s : State Oid) : Prop :=
  ∀ e ∈ s.index, ∀ t ∈ e.tree, s.Sound g t → g.Readable s.store t

/-- The objects are those from before the gc and those written since. -/
def KeepsObjects (s : State Oid) : Prop :=
  ∃ objects, s.objects = some objects ∧ ∀ o, o ∈ objects ↔ o ∈ s.before ∨ o ∈ s.written

/-- Outside the gc, and up to its swap, the index is live; a failed gc has changed no object. -/
structure GcSafe (g : Graph Oid) (s : State Oid) : Prop where
  live : (∀ p, s.phase ≠ .swapped p) → Live g s
  kept : s.phase = .failed → KeepsObjects s

/-! The invariant of the phases. -/

/-- A tree that an index entry or a turn about to be indexed refers to. -/
def Needed (s : State Oid) (keep : Nat → Bool) (t : Oid) : Prop :=
  ∃ e, e.tree = some t ∧ (e ∈ s.writing ∨ e ∈ s.index ∧ keep e.turn = true)

/-- The tree is among the given ones or lies in the main repository. -/
def Covered (g : Graph Oid) (trees : List Oid) (t : Oid) : Prop := t ∈ trees ∨ g.Readable [] t

def Whole (g : Graph Oid) (s : State Oid) : Prop :=
  KeepsObjects s ∧ ∀ t ∈ s.begun, g.Readable s.store t

def Inv (g : Graph Oid) (s : State Oid) : Prop :=
  s.objects.isSome ∧ match s.phase with
  | .idle => ∀ t, Needed s (fun _ => true) t → s.Sound g t → g.Readable s.store t
  | .failed => Whole g s
  | .planned p => Whole g s ∧ ∀ t, Needed s p.keeps t → s.Sound g t → Covered g p.keepTrees t
  | .copied p fresh verified => Whole g s ∧ (∀ t ∈ verified, g.Readable fresh t) ∧
      ∀ t, Needed s p.keeps t → s.Sound g t → Covered g verified t
  | .swapped p => ∀ t, Needed s p.keeps t → s.Sound g t → g.Readable s.store t

theorem Whole.readable {g : Graph Oid} {s : State Oid} (h : Whole g s) {t : Oid}
    (ht : s.Sound g t) : g.Readable s.store t := by
  obtain ⟨⟨objects, hobj, hsame⟩, hbegun⟩ := h
  rcases ht with ht | ht
  · have hstore : s.store = objects := by simp [State.store, hobj]
    rw [hstore]
    exact ht.mono fun o ho => (hsame o).mpr (.inl ho)
  · exact hbegun t ht

theorem needed_of_index {s : State Oid} {e : Entry Oid} {t : Oid} (he : e ∈ s.index)
    (ht : e.tree = some t) : Needed s (fun _ => true) t := ⟨e, ht, .inr ⟨he, rfl⟩⟩

theorem Inv.safe {g : Graph Oid} {s : State Oid} (h : Inv g s) : GcSafe g s := by
  obtain ⟨-, h⟩ := h
  constructor
  · intro hphase e he t ht hsound
    cases hp : s.phase with
    | idle =>
      rw [hp] at h
      exact h t (needed_of_index he ht) hsound
    | failed =>
      rw [hp] at h
      exact Whole.readable h hsound
    | planned p =>
      rw [hp] at h
      exact Whole.readable h.1 hsound
    | copied p fresh verified =>
      rw [hp] at h
      exact Whole.readable h.1 hsound
    | swapped p => exact absurd hp (hphase p)
  · intro hp
    rw [hp] at h
    exact h.1

/-- Steps that need no new tree keep the invariant. -/
theorem inv_index {g : Graph Oid} {s : State Oid} (h : Inv g s)
    (done cur writing : List (Entry Oid))
    (hneeded : ∀ keep x, Needed { s with done := done, cur := cur, writing := writing } keep x →
      Needed s keep x) : Inv g { s with done := done, cur := cur, writing := writing } := by
  obtain ⟨hpresent, h⟩ := h
  refine ⟨hpresent, ?_⟩
  cases hp : s.phase with
  | idle =>
    rw [hp] at h
    exact fun x hn hsound => h x (hneeded _ x hn) hsound
  | failed =>
    rw [hp] at h
    exact h
  | planned p =>
    rw [hp] at h
    exact ⟨h.1, fun x hn hsound => h.2 x (hneeded _ x hn) hsound⟩
  | copied p fresh verified =>
    rw [hp] at h
    exact ⟨h.1, h.2.1, fun x hn hsound => h.2.2 x (hneeded _ x hn) hsound⟩
  | swapped p =>
    rw [hp] at h
    exact fun x hn hsound => h x (hneeded _ x hn) hsound

theorem needed_truncate {s : State Oid} {fromTurn : Nat} {session : Option Text}
    {keep : Nat → Bool} {x : Oid} (h : Needed (truncateFromScoped s fromTurn session) keep x) :
    Needed s keep x := by
  obtain ⟨d, hd, hmem | ⟨hmem, hk⟩⟩ := h
  · exact ⟨d, hd, .inl hmem⟩
  · rcases List.mem_append.mp hmem with hmem | hmem
    · exact ⟨d, hd, .inr ⟨List.mem_append_left _ (List.mem_of_mem_filter hmem), hk⟩⟩
    · exact ⟨d, hd, .inr ⟨List.mem_append_right _ (List.mem_of_mem_filter hmem), hk⟩⟩

theorem inv_gcSwap {g : Graph Oid} {s : State Oid} {p : Plan Oid} {fresh verified : List Oid}
    {outcome : SwapOutcome} (h : Inv g s) (hp : s.phase = .copied p fresh verified)
    (hok : outcome ≠ .lost) : Inv g (gcSwap s p fresh outcome) := by
  obtain ⟨hpresent, h⟩ := h
  rw [hp] at h
  cases outcome with
  | done =>
    refine ⟨rfl, ?_⟩
    intro x hn hsound
    rcases h.2.2 x hn hsound with hx | hx
    · exact h.2.1 x hx
    · exact hx.mono fun o ho => absurd ho List.not_mem_nil
  | firstFails => exact ⟨hpresent, h.1⟩
  | rolledBack => exact ⟨hpresent, h.1⟩
  | lost => exact absurd rfl hok

theorem inv_gcClean {g : Graph Oid} {s : State Oid} {p : Plan Oid} (h : Inv g s)
    (hp : s.phase = .swapped p) (removed : Bool) : Inv g (gcClean s p removed) := by
  obtain ⟨hpresent, h⟩ := h
  rw [hp] at h
  refine ⟨hpresent, ?_⟩
  rintro x ⟨e, hx, he | ⟨he, -⟩⟩ hsound
  · exact h x ⟨e, hx, .inl he⟩ hsound
  · rcases List.mem_append.mp he with he | he
    · have he := List.mem_filter.mp he
      exact h x ⟨e, hx, .inr ⟨List.mem_append_left _ he.1, he.2⟩⟩ hsound
    · have he := List.mem_filter.mp he
      exact h x ⟨e, hx, .inr ⟨List.mem_append_right _ he.1, he.2⟩⟩ hsound

/-- Any store at rest. -/
def start (objects refs : List Oid) (gcOld : Option (List Oid)) (done cur : List (Entry Oid)) :
    State Oid :=
  { objects := some objects
    gcOld := gcOld
    refs := refs
    done := done
    cur := cur
    writing := []
    phase := .idle
    before := objects
    written := []
    begun := [] }

theorem inv_start (g : Graph Oid) (objects refs : List Oid) (gcOld : Option (List Oid))
    (done cur : List (Entry Oid)) : Inv g (start objects refs gcOld done cur) := by
  refine ⟨rfl, ?_⟩
  rintro x - (hx | hx)
  · exact hx
  · cases hx

variable [DecidableEq Oid]

/-! The closure check. -/

theorem verify_iff (g : Graph Oid) (objects : List Oid) (root : Oid) :
    gcVerifyTreeClosure g objects root = true ↔ g.Readable objects root := by
  have hs : ∀ a ∉ objects ++ g.main,
      (if a ∈ objects ++ g.main then g.kids a else []) = [] := fun a ha => if_neg ha
  unfold gcVerifyTreeClosure
  rw [List.all_eq_true]
  constructor
  · intro hall o ho
    have hin : ∃ a ∈ [root], Relation.ReflTransGen
        (fun x y => y ∈ if x ∈ objects ++ g.main then g.kids x else []) a o := by
      refine ⟨root, List.mem_singleton_self root, ?_⟩
      induction ho with
      | refl => exact .refl
      | @tail x y _ hxy ih =>
        have hx := hall x ((mem_closure hs).mpr ⟨root, List.mem_singleton_self root, ih⟩)
        refine ih.tail ?_
        rwa [if_pos (of_decide_eq_true hx)]
    exact of_decide_eq_true (hall o ((mem_closure hs).mpr hin))
  · intro hr o ho
    obtain ⟨a, ha, hao⟩ := (mem_closure hs).mp ho
    rw [List.mem_singleton.mp ha] at hao
    apply decide_eq_true
    apply hr o
    refine Relation.ReflTransGen.mono ?_ _ _ hao
    intro x y hxy
    split at hxy
    · exact hxy
    · cases hxy

/-- Where the main repository is complete, the rebuilt objects pass the check. -/
theorem walk_copies_all {g : Graph Oid} {objects seeds : List Oid} {t : Oid}
    (hmain : ∀ o ∈ g.main, ∀ k ∈ g.kids o, k ∈ g.main) (ht : t ∈ seeds)
    (hr : g.Readable objects t) : g.Readable (neededObjects g objects seeds) t := by
  have hs : ∀ a ∉ objects, (if a ∈ objects ∧ a ∉ g.main then g.kids a else []) = [] :=
    fun a ha => if_neg fun h => ha h.1
  have hpath : ∀ o, Relation.ReflTransGen (fun a b => b ∈ g.kids a) t o →
      o ∈ g.main ∨ o ∈ closure (fun o => if o ∈ objects ∧ o ∉ g.main then g.kids o else [])
        objects seeds := by
    intro o ho
    induction ho with
    | refl => exact .inr ((mem_closure hs).mpr ⟨t, ht, .refl⟩)
    | @tail x y htx hxy ih =>
      by_cases hx : x ∈ g.main
      · exact .inl (hmain x hx y hxy)
      · right
        have hobj := (List.mem_append.mp (hr x htx)).resolve_right hx
        obtain ⟨a, ha, hax⟩ := (mem_closure hs).mp (ih.resolve_left hx)
        refine (mem_closure hs).mpr ⟨a, ha, hax.tail ?_⟩
        rwa [if_pos ⟨hobj, hx⟩]
  intro o ho
  by_cases hm : o ∈ g.main
  · exact List.mem_append_right _ hm
  · apply List.mem_append_left
    have hobj := (List.mem_append.mp (hr o ho)).resolve_right hm
    exact List.mem_filter.mpr ⟨(hpath o ho).resolve_left hm, decide_eq_true ⟨hobj, hm⟩⟩

/-- The copy then succeeds from every state that has its objects. -/
theorem gcCopy_succeeds {g : Graph Oid} {s : State Oid} {objects : List Oid} (p : Plan Oid)
    (hmain : ∀ o ∈ g.main, ∀ k ∈ g.kids o, k ∈ g.main) (hobj : s.objects = some objects) :
    ∃ fresh verified, (gcCopy g s p).phase = .copied p fresh verified := by
  have hall : (p.keepTrees.filter (gcVerifyTreeClosure g objects)).all
      (gcVerifyTreeClosure g (neededObjects g objects (p.keepTrees ++ s.refs))) = true := by
    rw [List.all_eq_true]
    intro t ht
    obtain ⟨hkeep, hread⟩ := List.mem_filter.mp ht
    exact (verify_iff g _ t).mpr (walk_copies_all hmain (List.mem_append_left _ hkeep)
      ((verify_iff g objects t).mp hread))
  simp only [gcCopy, healed, hobj, hall, if_true]
  exact ⟨_, _, rfl⟩

/-! Retention. -/

theorem mem_keptSoFar (pr : List Nat) (extra : List Oid) (turns : List Nat) (e : Entry Oid)
    {t : Nat} (ht : t ≠ e.turn) : t ∈ keptSoFar pr extra turns e ↔ t ∈ turns := by
  unfold keptSoFar
  split_ifs <;> simp [ht]

theorem retentionStep_turns (pr : List Nat) (extra : List Oid) (now : Int) (days : Nat)
    (d : Retention Oid) (e : Entry Oid) {t : Nat} (ht : t ≠ e.turn) :
    t ∈ (retentionStep pr extra now days d e).keptTurns ↔ t ∈ d.keptTurns := by
  simp only [retentionStep]
  split_ifs <;> simp [ht, mem_keptSoFar]

theorem retentionStep_trees (pr : List Nat) (extra : List Oid) (now : Int) (days : Nat)
    (d : Retention Oid) (e : Entry Oid) {o : Oid} (h : o ∈ d.keptTrees) :
    o ∈ (retentionStep pr extra now days d e).keptTrees := by
  simp only [retentionStep]
  split_ifs <;> simp [h]

/-- A kept turn has its tree kept. -/
theorem retentionStep_own (pr : List Nat) (extra : List Oid) (now : Int) (days : Nat)
    (d : Retention Oid) (e : Entry Oid)
    (h : e.turn ∈ (retentionStep pr extra now days d e).keptTurns) :
    ∀ t ∈ e.tree, t ∈ (retentionStep pr extra now days d e).keptTrees := by
  intro t ht
  simp only [retentionStep] at h ⊢
  split_ifs at h ⊢ with hin
  · exact List.mem_append_left _ (Option.mem_toList.mpr ht)
  · exact List.mem_append_left _ (Option.mem_toList.mpr ht)
  · exact absurd h hin

/-- Entries of other turns do not decide about a turn. -/
theorem foldl_turns (pr : List Nat) (extra : List Oid) (now : Int) (days : Nat)
    (es : List (Entry Oid)) (d : Retention Oid) {t : Nat} (ht : ∀ e ∈ es, t ≠ e.turn)
    (h : t ∈ (es.foldl (retentionStep pr extra now days) d).keptTurns) : t ∈ d.keptTurns := by
  induction es generalizing d with
  | nil => exact h
  | cons a es ih =>
    have hrest := ih _ (fun e he => ht e (List.mem_cons_of_mem a he)) h
    exact (retentionStep_turns pr extra now days d a (ht a List.mem_cons_self)).mp hrest

theorem foldl_trees (pr : List Nat) (extra : List Oid) (now : Int) (days : Nat)
    (es : List (Entry Oid)) (d : Retention Oid) {o : Oid} (h : o ∈ d.keptTrees) :
    o ∈ (es.foldl (retentionStep pr extra now days) d).keptTrees := by
  induction es generalizing d with
  | nil => exact h
  | cons a es ih => exact ih _ (retentionStep_trees pr extra now days d a h)

theorem retention_kept (pr : List Nat) (extra : List Oid) (now : Int) (days : Nat)
    (es : List (Entry Oid)) (d : Retention Oid)
    (hd : es.Pairwise fun a b => a.turn ≠ b.turn) {e : Entry Oid} (he : e ∈ es)
    (hk : e.turn ∈ (es.foldl (retentionStep pr extra now days) d).keptTurns) :
    ∀ t ∈ e.tree, t ∈ (es.foldl (retentionStep pr extra now days) d).keptTrees := by
  induction es generalizing d with
  | nil => cases he
  | cons a es ih =>
    rw [List.pairwise_cons] at hd
    rw [List.foldl_cons] at hk ⊢
    rcases List.mem_cons.mp he with rfl | he
    · have hown := foldl_turns pr extra now days es _ hd.1 hk
      intro t ht
      exact foldl_trees pr extra now days es _ (retentionStep_own pr extra now days d e hown t ht)
    · exact ih _ hd.2 he hk

theorem le_maxSeen (s : State Oid) (cfg : Config) (now : Int) (extra : List Oid) {e : Entry Oid}
    (he : e ∈ s.index) : e.turn ≤ (gcPlanOf s cfg now extra).maxSeen := by
  obtain ⟨hincreasing, -, hturns⟩ := gcEntries_spec s
  obtain ⟨d, hd, hde⟩ := hturns e he
  change e.turn ≤ ((gcEntries s).getLast?.map (·.turn)).getD 0
  cases hl : (gcEntries s).getLast? with
  | none => simp [List.getLast?_eq_none_iff.mp hl] at hd
  | some m =>
    obtain ⟨init, hinit⟩ := List.getLast?_eq_some_iff.mp hl
    rw [hinit] at hd hincreasing
    rw [← hde]
    rcases List.mem_append.mp hd with hd | hd
    · exact Nat.le_of_lt ((List.pairwise_append.mp hincreasing).2.2 d hd m List.mem_cons_self)
    · rw [List.mem_singleton.mp hd]
      exact Nat.le_refl _

/-- A turn that the plan keeps has its tree kept, if its entries agree on the tree. -/
theorem plan_keeps_tree (s : State Oid) (cfg : Config) (now : Int) (extra : List Oid)
    (hsame : ∀ a ∈ s.index, ∀ b ∈ s.index, a.turn = b.turn → a.tree = b.tree) {e : Entry Oid}
    (he : e ∈ s.index) (hk : (gcPlanOf s cfg now extra).keeps e.turn = true) :
    ∀ t ∈ e.tree, t ∈ (gcPlanOf s cfg now extra).keepTrees := by
  obtain ⟨hincreasing, hindex, hturns⟩ := gcEntries_spec s
  obtain ⟨d, hd, hde⟩ := hturns e he
  have hle := le_maxSeen s cfg now extra he
  have hkept : d.turn ∈ (gcPlanOf s cfg now extra).keptTurns := by
    simp only [Plan.keeps, Bool.or_eq_true, decide_eq_true_eq] at hk
    rw [hde]
    rcases hk with hk | hk
    · exact hk
    · omega
  have hdistinct : (gcEntries s).Pairwise fun a b => a.turn ≠ b.turn :=
    hincreasing.imp fun h => Nat.ne_of_lt h
  intro t ht
  rw [hsame e he d (hindex d hd) hde.symm] at ht
  exact List.mem_append_left _ (retention_kept _ _ _ _ _ _ hdistinct hd hkept t ht)

/-! The steps. -/

/-- No turn writes its tree between the snapshot and the swap, nor is one between its tree and
its index entry at the snapshot, unless its tree is kept anyway; no two entries of one turn
differ in their tree; and a failed swap is rolled back. -/
def quiet (g : Graph Oid) (s : State Oid) : Label Oid → Bool
  | .beginWrite e objs => match s.phase with
    | .planned p => e.tree.all (· ∈ p.keepTrees) || objs.all (· ∈ g.main)
    | .copied _ _ verified => e.tree.all (· ∈ verified) || objs.all (· ∈ g.main)
    | _ => true
  | .gcPlan cfg now extraTrees =>
    dropsNone s (gcPlanOf s cfg now extraTrees) ||
      (s.index.all fun a => s.index.all fun b => decide (a.turn = b.turn → a.tree = b.tree)) &&
      s.writing.all fun e => e.tree.all fun t =>
        t ∈ (gcPlanOf s cfg now extraTrees).keepTrees || gcVerifyTreeClosure g [] t
  | .gcSwap outcome => outcome ≠ .lost
  | _ => true

theorem readable_addObjects {g : Graph Oid} {s : State Oid} {objs : List Oid} {t : Oid}
    (hs : s.objects.isSome) (h : g.Readable s.store t) :
    g.Readable (addObjects g s objs).store t := by
  obtain ⟨objects, hobj⟩ := Option.isSome_iff_exists.mp hs
  simp only [State.store, addObjects, hobj, Option.map_some, Option.getD_some] at h ⊢
  exact h.mono fun o ho => List.mem_append_left _ ho

theorem keeps_addObjects {g : Graph Oid} {s : State Oid} (objs : List Oid)
    (h : KeepsObjects s) : KeepsObjects (addObjects g s objs) := by
  obtain ⟨objects, hobj, hsame⟩ := h
  refine ⟨objects ++ objs.filter (· ∉ g.main), by simp [addObjects, hobj], ?_⟩
  intro o
  simp only [addObjects, List.mem_append, hsame o, or_assoc]

/-- The tree just written can be read, and in the main repository alone if it is all there. -/
theorem readable_written {g : Graph Oid} {s : State Oid} {e : Entry Oid} {objs : List Oid}
    {t : Oid} (hs : s.objects.isSome) (hc : g.complete e objs = true) (ht : e.tree = some t) :
    g.Readable (addObjects g s objs).store t ∧
      (objs.all (· ∈ g.main) = true → g.Readable [] t) := by
  obtain ⟨objects, hobj⟩ := Option.isSome_iff_exists.mp hs
  simp only [Graph.complete, ht, Option.all_some, Bool.and_eq_true, decide_eq_true_eq,
    List.all_eq_true] at hc
  constructor
  · apply readable_of_closed hc.1 hc.2
    intro o ho
    simp only [State.store, addObjects, hobj, Option.map_some, Option.getD_some]
    by_cases hm : o ∈ g.main
    · exact List.mem_append_right _ hm
    · apply List.mem_append_left
      exact List.mem_append_right _ (List.mem_filter.mpr ⟨ho, by simpa using hm⟩)
  · intro hmain
    apply readable_of_closed hc.1 hc.2
    intro o ho
    simpa using List.all_eq_true.mp hmain o ho

theorem needed_write {g : Graph Oid} {s : State Oid} {e : Entry Oid} {objs : List Oid}
    {keep : Nat → Bool} {x : Oid} (hn : Needed (beginWrite g s e objs) keep x)
    (hsound : (beginWrite g s e objs).Sound g x) :
    (Needed s keep x ∧ s.Sound g x) ∨ e.tree = some x := by
  by_cases hx : e.tree = some x
  · exact .inr hx
  left
  constructor
  · obtain ⟨d, hd, hmem | hmem⟩ := hn
    · rcases List.mem_append.mp hmem with hmem | hmem
      · exact ⟨d, hd, .inl hmem⟩
      · rw [List.mem_singleton.mp hmem] at hd
        exact absurd hd hx
    · exact ⟨d, hd, .inr hmem⟩
  · rcases hsound with h | h
    · exact .inl h
    · rcases List.mem_append.mp h with h | h
      · exact .inr h
      · exact absurd (Option.mem_toList.mp h) hx

theorem inv_beginWrite {g : Graph Oid} {s : State Oid} {e : Entry Oid} {objs : List Oid}
    (h : Inv g s) (hc : g.complete e objs = true)
    (hok : quiet g s (.beginWrite e objs) = true) : Inv g (beginWrite g s e objs) := by
  obtain ⟨hpresent, h⟩ := h
  have hnew : ∀ x, e.tree = some x → g.Readable (beginWrite g s e objs).store x :=
    fun x hx => (readable_written hpresent hc hx).1
  have hread : ∀ x, g.Readable s.store x → g.Readable (beginWrite g s e objs).store x :=
    fun x hx => readable_addObjects hpresent hx
  have hwhole : Whole g s → Whole g (beginWrite g s e objs) := by
    rintro ⟨hkeeps, hbegun⟩
    refine ⟨keeps_addObjects objs hkeeps, ?_⟩
    intro x hx
    rcases List.mem_append.mp hx with hx | hx
    · exact hread x (hbegun x hx)
    · exact hnew x (Option.mem_toList.mp hx)
  have hcovered : ∀ trees : List Oid, (e.tree.all (· ∈ trees) || objs.all (· ∈ g.main)) = true →
      ∀ x, e.tree = some x → Covered g trees x := by
    intro trees hor x hx
    rcases Bool.or_eq_true_iff.mp hor with hor | hor
    · simp only [hx, Option.all_some, decide_eq_true_eq] at hor
      exact .inl hor
    · exact .inr ((readable_written hpresent hc hx).2 hor)
  have hphase : (beginWrite g s e objs).phase = s.phase := rfl
  refine ⟨by simpa [beginWrite, addObjects] using hpresent, ?_⟩
  rw [hphase]
  simp only [quiet] at hok
  cases hp : s.phase with
  | idle =>
    rw [hp] at h
    intro x hn hsound
    rcases needed_write hn hsound with ⟨hn, hsound⟩ | hx
    · exact hread x (h x hn hsound)
    · exact hnew x hx
  | failed =>
    rw [hp] at h
    exact hwhole h
  | planned p =>
    rw [hp] at h hok
    refine ⟨hwhole h.1, ?_⟩
    intro x hn hsound
    rcases needed_write hn hsound with ⟨hn, hsound⟩ | hx
    · exact h.2 x hn hsound
    · exact hcovered _ hok x hx
  | copied p fresh verified =>
    rw [hp] at h hok
    refine ⟨hwhole h.1, h.2.1, ?_⟩
    intro x hn hsound
    rcases needed_write hn hsound with ⟨hn, hsound⟩ | hx
    · exact h.2.2 x hn hsound
    · exact hcovered _ hok x hx
  | swapped p =>
    rw [hp] at h
    intro x hn hsound
    rcases needed_write hn hsound with ⟨hn, hsound⟩ | hx
    · exact hread x (h x hn hsound)
    · exact hnew x hx

theorem needed_beginIndex {s : State Oid} {e : Entry Oid} {keep : Nat → Bool} {x : Oid}
    (he : e ∈ s.writing) (h : Needed (beginIndex s e) keep x) : Needed s keep x := by
  obtain ⟨d, hd, hmem | ⟨hmem, hk⟩⟩ := h
  · exact ⟨d, hd, .inl (List.mem_of_mem_erase hmem)⟩
  · rcases List.mem_append.mp hmem with hmem | hmem
    · rcases List.mem_append.mp hmem with hmem | hmem
      · exact ⟨d, hd, .inr ⟨List.mem_append_left _ hmem, hk⟩⟩
      · exact ⟨d, hd, .inr ⟨List.mem_append_right _ (List.mem_of_mem_filter hmem), hk⟩⟩
    · rcases List.mem_append.mp hmem with hmem | hmem
      · exact ⟨d, hd, .inr ⟨List.mem_append_right _ (List.mem_of_mem_filter hmem), hk⟩⟩
      · rw [List.mem_singleton.mp hmem] at hd
        exact ⟨e, hd, .inl he⟩

/-- Objects that come on top do no harm. -/
theorem inv_addObjects {g : Graph Oid} {s : State Oid} (h : Inv g s) (objs : List Oid) :
    Inv g (addObjects g s objs) := by
  obtain ⟨hpresent, h⟩ := h
  have hread : ∀ x, g.Readable s.store x → g.Readable (addObjects g s objs).store x :=
    fun x hx => readable_addObjects hpresent hx
  have hwhole : Whole g s → Whole g (addObjects g s objs) := fun hw =>
    ⟨keeps_addObjects objs hw.1, fun x hx => hread x (hw.2 x hx)⟩
  have hphase : (addObjects g s objs).phase = s.phase := rfl
  refine ⟨by simpa [addObjects] using hpresent, ?_⟩
  rw [hphase]
  cases hp : s.phase with
  | idle =>
    rw [hp] at h
    exact fun x hn hsound => hread x (h x hn hsound)
  | failed =>
    rw [hp] at h
    exact hwhole h
  | planned p =>
    rw [hp] at h
    exact ⟨hwhole h.1, h.2⟩
  | copied p fresh verified =>
    rw [hp] at h
    exact ⟨hwhole h.1, h.2⟩
  | swapped p =>
    rw [hp] at h
    exact fun x hn hsound => hread x (h x hn hsound)

theorem inv_gcPlan {g : Graph Oid} {s : State Oid} {cfg : Config} {now : Int}
    {extraTrees : List Oid} (h : Inv g s) (hidle : s.phase = .idle ∨ s.phase = .failed)
    (hok : quiet g s (.gcPlan cfg now extraTrees) = true) :
    Inv g (gcPlan s cfg now extraTrees) := by
  obtain ⟨hpresent, h⟩ := h
  simp only [gcPlan]
  split
  case isTrue hdrop =>
    refine ⟨hpresent, ?_⟩
    rcases hidle with hp | hp
    · rw [hp] at h
      exact h
    · rw [hp] at h
      exact fun x _ hsound => Whole.readable h hsound
  case isFalse hdrop =>
    have hok := (Bool.or_eq_true_iff.mp hok).resolve_left hdrop
    simp only [Bool.and_eq_true, List.all_eq_true, decide_eq_true_eq, Option.all_eq_true,
      Bool.or_eq_true] at hok
    obtain ⟨hsame, hwriting⟩ := hok
    obtain ⟨objects, hobj⟩ := Option.isSome_iff_exists.mp hpresent
    refine ⟨hpresent, ⟨⟨objects, hobj, by simp [hobj]⟩, by simp⟩, ?_⟩
    rintro x ⟨e, hx, he | ⟨he, hk⟩⟩ -
    · rcases hwriting e he x hx with hx | hx
      · exact .inl hx
      · exact .inr ((verify_iff g [] x).mp hx)
    · exact .inl (plan_keeps_tree s cfg now extraTrees hsame he hk x hx)

theorem inv_gcCopy {g : Graph Oid} {s : State Oid} {p : Plan Oid} (h : Inv g s)
    (hp : s.phase = .planned p) : Inv g (gcCopy g s p) := by
  obtain ⟨hpresent, h⟩ := h
  rw [hp] at h
  obtain ⟨objects, hobj⟩ := Option.isSome_iff_exists.mp hpresent
  have hstore : s.store = objects := by simp [State.store, hobj]
  have hsame : ∀ o, o ∈ objects ↔ o ∈ s.before ∨ o ∈ s.written := by
    obtain ⟨os, hos, hsame⟩ := h.1.1
    obtain rfl := Option.some.inj (hos.symm.trans hobj)
    exact hsame
  have hbegun : ∀ x ∈ s.begun, g.Readable objects x := hstore ▸ h.1.2
  simp only [gcCopy, healed, hobj]
  split
  case isTrue hall =>
    refine ⟨rfl, ⟨⟨objects, rfl, hsame⟩, hbegun⟩, ?_, ?_⟩
    · intro x hx
      exact (verify_iff g _ x).mp (List.all_eq_true.mp hall x hx)
    · intro x hn hsound
      refine (h.2 x hn hsound).imp ?_ id
      intro hx
      have hread : g.Readable objects x := hstore ▸ Whole.readable h.1 hsound
      exact List.mem_filter.mpr ⟨hx, (verify_iff g objects x).mpr hread⟩
  case isFalse => exact ⟨rfl, ⟨objects, rfl, hsame⟩, hbegun⟩

theorem inv_step {g : Graph Oid} {s t : State Oid} {l : Label Oid} (h : Inv g s)
    (hok : quiet g s l = true) (hs : step g s l = some t) : Inv g t := by
  cases l with
  | beginWrite e objs =>
    simp only [step] at hs
    split at hs
    case isTrue hc =>
      obtain rfl := Option.some.inj hs
      exact inv_beginWrite h (Bool.and_eq_true_iff.mp hc).1 hok
    case isFalse => cases hs
  | beginIndex e =>
    simp only [step] at hs
    split at hs
    case isTrue he =>
      obtain rfl := Option.some.inj hs
      exact inv_index h _ _ _ fun keep x hn => needed_beginIndex he hn
    case isFalse => cases hs
  | restoreWrite objs =>
    obtain rfl := Option.some.inj hs
    exact inv_addObjects h objs
  | truncate fromTurn session =>
    obtain rfl := Option.some.inj hs
    exact inv_index h _ _ _ fun keep x hn => needed_truncate hn
  | gcPlan cfg now extraTrees =>
    simp only [step] at hs
    split at hs
    case h_1 hp =>
      obtain rfl := Option.some.inj hs
      exact inv_gcPlan h (.inl hp) hok
    case h_2 hp =>
      obtain rfl := Option.some.inj hs
      exact inv_gcPlan h (.inr hp) hok
    case h_3 => cases hs
  | gcCopy =>
    simp only [step] at hs
    split at hs
    case h_1 p hp =>
      obtain rfl := Option.some.inj hs
      exact inv_gcCopy h hp
    case h_2 => cases hs
  | gcFail =>
    simp only [step] at hs
    obtain ⟨hpresent, h⟩ := h
    split at hs
    case h_1 p hp =>
      obtain rfl := Option.some.inj hs
      rw [hp] at h
      exact ⟨hpresent, h.1⟩
    case h_2 p fresh verified hp =>
      obtain rfl := Option.some.inj hs
      rw [hp] at h
      exact ⟨hpresent, h.1⟩
    case h_3 => cases hs
  | gcSwap outcome =>
    simp only [step] at hs
    split at hs
    case h_1 p fresh verified hp =>
      obtain rfl := Option.some.inj hs
      exact inv_gcSwap h hp (of_decide_eq_true hok)
    case h_2 => cases hs
  | gcClean removed =>
    simp only [step] at hs
    split at hs
    case h_1 p hp =>
      obtain rfl := Option.some.inj hs
      exact inv_gcClean h hp removed
    case h_2 => cases hs

/-- In a run whose steps are quiet, no gc breaks a checkpoint. -/
theorem gc_keeps_live_checkpoints (g : Graph Oid) (objects refs : List Oid)
    (gcOld : Option (List Oid)) (done cur : List (Entry Oid)) (ls : List (Label Oid))
    {t : State Oid}
    (hok : Along (step g) (fun s l => quiet g s l = true) (start objects refs gcOld done cur) ls)
    (hrun : run (step g) (start objects refs gcOld done cur) ls = some t) : GcSafe g t := by
  have hinv : Inv g t := run_invariant (fun _ _ _ h hq hs => inv_step h hq hs)
    (inv_start g objects refs gcOld done cur) hok hrun
  exact hinv.safe

end

/-- Three turns whose trees 1, 2 and 3 hold one blob each. -/
def threeTrees : Graph Nat := ⟨fun o => if o < 10 then [o + 10] else [], []⟩

def turn (n : Nat) (session : Option Text) : Entry Nat := ⟨n, none, some n, session⟩

/-- The gc drops the first turn, and the third one begins after its swap. -/
def quietGc : List (Label Nat) :=
  [.gcPlan ⟨1, 0⟩ 0 [], .gcCopy, .gcSwap .done, .gcClean true, .beginWrite (turn 3 none) [3, 13],
    .beginIndex (turn 3 none)]

theorem gc_keeps_quiet : GcSafe threeTrees
    ((run (step threeTrees) (start [1, 11, 2, 12] [] none [turn 1 none] [turn 2 none])
      quietGc).get (by decide)) :=
  gc_keeps_live_checkpoints threeTrees [1, 11, 2, 12] [] none [turn 1 none] [turn 2 none] quietGc
    (by decide) (Option.some_get _).symm

/-- The third turn begins while the gc copies. -/
def busyGc : List (Label Nat) :=
  [.gcPlan ⟨1, 0⟩ 0 [], .beginWrite (turn 3 none) [3, 13], .beginIndex (turn 3 none), .gcCopy,
    .gcSwap .done, .gcClean true]

/-- The objects of the new turn are swapped away, and its checkpoint stays in the index. -/
theorem gc_loses_new_turn : ∃ t, run (step threeTrees)
    (start [1, 11, 2, 12] [] none [turn 1 none] [turn 2 none]) busyGc = some t ∧
      turn 3 none ∈ t.index ∧ 3 ∈ t.begun ∧ t.objects = some [12, 2] ∧ ¬ GcSafe threeTrees t := by
  refine ⟨(run (step threeTrees) (start [1, 11, 2, 12] [] none [turn 1 none] [turn 2 none])
    busyGc).get (by decide), (Option.some_get _).symm, by decide, by decide, by decide, ?_⟩
  intro h
  have hread := h.live (fun p hp => nomatch hp) (turn 3 none) (by decide) 3 rfl (.inr (by decide))
  exact absurd (hread 3 .refl) (by decide)

end NemesisBot.CheckpointGc

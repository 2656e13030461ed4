import NemesisBot.Lib.Strings

/-! Which turns and trees a checkpoint gc keeps, over entries in any order. -/
namespace NemesisBot.CheckpointRetention
open Strings

structure RetentionEntry where
  turn : Nat
  time : Text
  tree : Option Text
  deriving DecidableEq

structure RetentionDecision where
  keptTurns : Finset Nat
  keptTrees : Finset Text

/-- What is asked of one call, apart from the entries. -/
structure Query where
  protectedTurns : Finset Nat
  extraTrees : List Text
  nowUnix : Int
  keepTurns : Nat
  keepDays : Nat

/-- A signed 64-bit word. -/
def wrap64 (n : Int) : Int := n.bmod (2 ^ 64)

/-- The latest turns. -/
def turnWindow (entries : List RetentionEntry) (keepTurns : Nat) : List Nat :=
  (((entries.map RetentionEntry.turn).insertionSort (· ≥ ·)).dedup).take keepTurns

def RetentionEntry.addTree (e : RetentionEntry) (trees : Finset Text) : Finset Text :=
  match e.tree with
  | some tree => insert tree trees
  | none => trees

section
variable (parse : Text → Option Int)

/-- Young enough; a time that does not parse never is. -/
def Query.inDays (q : Query) (e : RetentionEntry) : Bool :=
  0 < q.keepDays && (parse e.time).any fun t =>
    wrap64 (q.nowUnix - t) ≤ wrap64 (wrap64 q.keepDays * 86400)

def Query.retentionStep (q : Query) (d : RetentionDecision) (e : RetentionEntry) :
    RetentionDecision :=
  let turns := if e.turn ∈ q.protectedTurns then insert e.turn d.keptTurns else d.keptTurns
  let turns := if e.tree.getD [] ∈ q.extraTrees then insert e.turn turns else turns
  if e.turn ∈ turns then ⟨turns, e.addTree d.keptTrees⟩
  else if q.inDays parse e then ⟨insert e.turn turns, e.addTree d.keptTrees⟩
  else ⟨turns, d.keptTrees⟩

def computeRetention (entries : List RetentionEntry) (q : Query) : RetentionDecision :=
  let d := entries.foldl (q.retentionStep parse) ⟨(turnWindow entries q.keepTurns).toFinset, ∅⟩
  ⟨d.keptTurns, d.keptTrees ∪ q.extraTrees.toFinset⟩

/-- The query asks for less: fewer turns, fewer days, fewer protected turns. -/
structure Query.Within (p q : Query) : Prop where
  turns : p.keepTurns ≤ q.keepTurns
  days : p.keepDays ≤ q.keepDays
  protectedTurns : p.protectedTurns ⊆ q.protectedTurns
  extraTrees : p.extraTrees = q.extraTrees
  nowUnix : p.nowUnix = q.nowUnix

structure Retains (entries : List RetentionEntry) (q : Query) : Prop where
  protectedTurns : ∀ e ∈ entries, e.turn ∈ q.protectedTurns →
    e.turn ∈ (computeRetention parse entries q).keptTurns
  extraTrees : ∀ tree ∈ q.extraTrees, tree ∈ (computeRetention parse entries q).keptTrees
  closed : ∀ e ∈ entries, e.turn ∈ (computeRetention parse entries q).keptTurns →
    ∀ tree, e.tree = some tree → tree ∈ (computeRetention parse entries q).keptTrees
  monotone : ∀ p : Query, p.Within q →
    (computeRetention parse entries p).keptTurns ⊆ (computeRetention parse entries q).keptTurns
  order : ∀ other : List RetentionEntry, other.Perm entries →
    computeRetention parse other q = computeRetention parse entries q

/-- Kept for its own sake, whatever other entries its turn has. -/
def Query.Wants (q : Query) (entries : List RetentionEntry) (e : RetentionEntry) : Prop :=
  e.turn ∈ turnWindow entries q.keepTurns ∨ e.turn ∈ q.protectedTurns ∨
    e.tree.getD [] ∈ q.extraTrees ∨ q.inDays parse e = true

/-- A tree whose turn is kept for another entry's sake is an extra tree or belongs to an entry
that is kept for its own sake. -/
def Together (entries : List RetentionEntry) (q : Query) : Prop :=
  ∀ e ∈ entries, ∀ other ∈ entries, other.turn = e.turn → q.Wants parse entries other →
    ∀ tree, e.tree = some tree → tree ∈ q.extraTrees ∨
      ∃ owner ∈ entries, owner.tree = some tree ∧ q.Wants parse entries owner

/-- What is young enough for fewer days stays wanted, in 64-bit seconds. -/
def DaysGrow (entries : List RetentionEntry) (q : Query) : Prop :=
  ∀ days ≤ q.keepDays, ∀ e ∈ entries, Query.inDays parse { q with keepDays := days } e = true →
    ∃ other ∈ entries, other.turn = e.turn ∧ q.Wants parse entries other

end

section
variable {parse : Text → Option Int} {q : Query} {entries : List RetentionEntry}

/-- What an entry itself asks for, beside the window of turns. -/
def Query.Demands (parse : Text → Option Int) (q : Query) (e : RetentionEntry) : Prop :=
  e.turn ∈ q.protectedTurns ∨ e.tree.getD [] ∈ q.extraTrees ∨ q.inDays parse e = true

theorem mem_addTree {e : RetentionEntry} {trees : Finset Text} {tree : Text} :
    tree ∈ e.addTree trees ↔ e.tree = some tree ∨ tree ∈ trees := by
  rw [RetentionEntry.addTree]
  cases e.tree with
  | none => simp
  | some t => simp [eq_comm]

theorem mem_step_turns {d : RetentionDecision} {e : RetentionEntry} {t : Nat} :
    t ∈ (q.retentionStep parse d e).keptTurns ↔
      t ∈ d.keptTurns ∨ e.turn = t ∧ q.Demands parse e := by
  by_cases hp : e.turn ∈ q.protectedTurns <;> by_cases hx : e.tree.getD [] ∈ q.extraTrees <;>
    by_cases hk : e.turn ∈ d.keptTurns <;> by_cases hd : q.inDays parse e = true <;>
    simp [Query.retentionStep, Query.Demands, hp, hx, hk, hd, eq_comm, or_comm] <;>
    rintro rfl <;> exact hk

theorem mem_step_trees {d : RetentionDecision} {e : RetentionEntry} {tree : Text} :
    tree ∈ (q.retentionStep parse d e).keptTrees ↔ tree ∈ d.keptTrees ∨
      e.tree = some tree ∧ (e.turn ∈ d.keptTurns ∨ q.Demands parse e) := by
  by_cases hp : e.turn ∈ q.protectedTurns <;> by_cases hx : e.tree.getD [] ∈ q.extraTrees <;>
    by_cases hk : e.turn ∈ d.keptTurns <;> by_cases hd : q.inDays parse e = true <;>
    simp [Query.retentionStep, Query.Demands, mem_addTree, hp, hx, hk, hd, or_comm]

theorem mem_fold_turns {es : List RetentionEntry} {d : RetentionDecision} {t : Nat} :
    t ∈ (es.foldl (q.retentionStep parse) d).keptTurns ↔
      t ∈ d.keptTurns ∨ ∃ e ∈ es, e.turn = t ∧ q.Demands parse e := by
  induction es generalizing d with
  | nil => simp
  | cons e es ih =>
    rw [List.foldl_cons, ih, mem_step_turns, List.exists_mem_cons_iff, or_assoc]

theorem fold_trees_mono {es : List RetentionEntry} {d : RetentionDecision} {tree : Text}
    (h : tree ∈ d.keptTrees) : tree ∈ (es.foldl (q.retentionStep parse) d).keptTrees := by
  induction es generalizing d with
  | nil => exact h
  | cons e es ih => exact ih (mem_step_trees.mpr (Or.inl h))

theorem fold_turns_mono {es : List RetentionEntry} {d : RetentionDecision} {t : Nat}
    (h : t ∈ d.keptTurns) : t ∈ (es.foldl (q.retentionStep parse) d).keptTurns :=
  mem_fold_turns.mpr (Or.inl h)

/-- An entry whose turn is kept when it comes up keeps its tree. -/
theorem fold_keeps_tree {es : List RetentionEntry} {d : RetentionDecision} {e : RetentionEntry}
    (he : e ∈ es) {tree : Text} (ht : e.tree = some tree)
    (h : e.turn ∈ d.keptTurns ∨ q.Demands parse e) :
    tree ∈ (es.foldl (q.retentionStep parse) d).keptTrees := by
  induction es generalizing d with
  | nil => cases he
  | cons f es ih =>
    rw [List.foldl_cons]
    cases List.mem_cons.mp he with
    | inl hf =>
      subst hf
      exact fold_trees_mono (mem_step_trees.mpr (Or.inr ⟨ht, h⟩))
    | inr hes => exact ih hes (h.imp_left fun hk => mem_step_turns.mpr (Or.inl hk))

/-- A tree is kept for an entry of a kept turn only. -/
theorem fold_tree_kept {es : List RetentionEntry} {d : RetentionDecision} {tree : Text}
    (h : tree ∈ (es.foldl (q.retentionStep parse) d).keptTrees) :
    tree ∈ d.keptTrees ∨ ∃ e ∈ es, e.tree = some tree ∧
      e.turn ∈ (es.foldl (q.retentionStep parse) d).keptTurns := by
  induction es generalizing d with
  | nil => exact Or.inl h
  | cons e es ih =>
    rw [List.foldl_cons] at h ⊢
    cases ih h with
    | inl hstep =>
      cases mem_step_trees.mp hstep with
      | inl hold => exact Or.inl hold
      | inr hnew =>
        refine Or.inr ⟨e, List.mem_cons_self, hnew.1, fold_turns_mono (mem_step_turns.mpr ?_)⟩
        exact hnew.2.imp_right fun hd => ⟨rfl, hd⟩
    | inr hlater =>
      obtain ⟨f, hf, htree, hturn⟩ := hlater
      exact Or.inr ⟨f, List.mem_cons_of_mem e hf, htree, hturn⟩

theorem mem_turnWindow {n t : Nat} (h : t ∈ turnWindow entries n) :
    ∃ e ∈ entries, e.turn = t := by
  have hmem := List.mem_dedup.mp (List.mem_of_mem_take h)
  exact List.mem_map.mp ((List.perm_insertionSort (· ≥ ·) _).mem_iff.mp hmem)

theorem turnWindow_perm {other : List RetentionEntry} (h : other.Perm entries) (n : Nat) :
    turnWindow other n = turnWindow entries n := by
  have hsort : (other.map RetentionEntry.turn).insertionSort (· ≥ ·) =
      (entries.map RetentionEntry.turn).insertionSort (· ≥ ·) := by
    refine List.Perm.eq_of_pairwise (fun a b _ _ hab hba => Nat.le_antisymm hba hab)
      (List.pairwise_insertionSort (· ≥ ·) _) (List.pairwise_insertionSort (· ≥ ·) _) ?_
    exact (List.perm_insertionSort _ _).trans
      ((h.map RetentionEntry.turn).trans (List.perm_insertionSort _ _).symm)
  rw [turnWindow, hsort, turnWindow]

theorem wants_perm {other : List RetentionEntry} (h : other.Perm entries) (e : RetentionEntry) :
    q.Wants parse other e ↔ q.Wants parse entries e := by
  rw [Query.Wants, turnWindow_perm h, Query.Wants]

/-- The kept turns are those of the entries that are kept for their own sake. -/
theorem mem_keptTurns {t : Nat} : t ∈ (computeRetention parse entries q).keptTurns ↔
    ∃ e ∈ entries, e.turn = t ∧ q.Wants parse entries e := by
  rw [computeRetention, mem_fold_turns, List.mem_toFinset]
  constructor
  · rintro (hwindow | ⟨e, he, ht, hd⟩)
    · obtain ⟨e, he, rfl⟩ := mem_turnWindow hwindow
      exact ⟨e, he, rfl, Or.inl hwindow⟩
    · exact ⟨e, he, ht, Or.inr hd⟩
  · rintro ⟨e, he, rfl, hwindow | hd⟩
    · exact Or.inl hwindow
    · exact Or.inr ⟨e, he, rfl, hd⟩

theorem keptTurns_perm {other : List RetentionEntry} (h : other.Perm entries) :
    (computeRetention parse other q).keptTurns = (computeRetention parse entries q).keptTurns := by
  ext t
  rw [mem_keptTurns, mem_keptTurns]
  constructor
  · rintro ⟨e, he, ht, hw⟩
    exact ⟨e, h.mem_iff.mp he, ht, (wants_perm h e).mp hw⟩
  · rintro ⟨e, he, ht, hw⟩
    exact ⟨e, h.mem_iff.mpr he, ht, (wants_perm h e).mpr hw⟩

theorem wants_keeps_tree {e : RetentionEntry} (he : e ∈ entries) {tree : Text}
    (ht : e.tree = some tree) (hw : q.Wants parse entries e) :
    tree ∈ (computeRetention parse entries q).keptTrees := by
  refine Finset.mem_union_left _ (fold_keeps_tree he ht ?_)
  exact hw.imp_left List.mem_toFinset.mpr

/-- Where the trees stand together, the kept trees are those of the kept turns and the extra
ones. -/
theorem mem_keptTrees (ht : Together parse entries q) {tree : Text} :
    tree ∈ (computeRetention parse entries q).keptTrees ↔ tree ∈ q.extraTrees ∨
      ∃ e ∈ entries, e.tree = some tree ∧ e.turn ∈ (computeRetention parse entries q).keptTurns := by
  constructor
  · intro h
    cases Finset.mem_union.mp h with
    | inl hfold => exact Or.inr ((fold_tree_kept hfold).resolve_left (Finset.notMem_empty tree))
    | inr hextra => exact Or.inl (List.mem_toFinset.mp hextra)
  · rintro (hextra | ⟨e, he, htree, hturn⟩)
    · exact Finset.mem_union_right _ (List.mem_toFinset.mpr hextra)
    · obtain ⟨other, hother, hsame, hw⟩ := mem_keptTurns.mp hturn
      obtain hextra | ⟨owner, hown, howned, hwants⟩ := ht e he other hother hsame hw tree htree
      · exact Finset.mem_union_right _ (List.mem_toFinset.mpr hextra)
      · exact wants_keeps_tree hown howned hwants

/-- With the entries that hold the tree in front, none of them sees its turn kept. -/
theorem tree_lost {tree : Text} (hextra : tree ∉ q.extraTrees)
    (hno : ∀ e ∈ entries, e.tree = some tree → ¬ q.Wants parse entries e) :
    ∃ other : List RetentionEntry, other.Perm entries ∧
      tree ∉ (computeRetention parse other q).keptTrees := by
  have hperm := List.filter_append_perm (fun e : RetentionEntry => e.tree = some tree) entries
  refine ⟨_, hperm, fun hmem => ?_⟩
  obtain hfold | hx := Finset.mem_union.mp hmem
  · have hkept := fold_tree_kept hfold
    rw [List.foldl_append] at hfold
    obtain hfront | ⟨e, he, htree, -⟩ := fold_tree_kept hfold
    · obtain hnil | ⟨e, he, htree, hturn⟩ := fold_tree_kept hfront
      · exact Finset.notMem_empty tree hnil
      · have hlazy : ∀ f ∈ entries.filter fun e => e.tree = some tree, ¬ q.Wants parse entries f :=
          fun f hf => hno f (List.mem_filter.mp hf).1 (by simpa using (List.mem_filter.mp hf).2)
        obtain hwindow | ⟨f, hf, -, hd⟩ := mem_fold_turns.mp hturn
        · rw [List.mem_toFinset, turnWindow_perm hperm] at hwindow
          exact hlazy e he (Or.inl hwindow)
        · exact hlazy f hf (Or.inr hd)
    · have hne := (List.mem_filter.mp he).2
      simp [htree] at hne
  · exact hextra (List.mem_toFinset.mp hx)

theorem wants_mono {p : Query} (h : p.Within q) {e : RetentionEntry}
    (hw : p.Wants parse entries e) : q.Wants parse entries e ∨
      Query.inDays parse { q with keepDays := p.keepDays } e = true := by
  obtain hwindow | hprot | hextra | hdays := hw
  · exact Or.inl (Or.inl (List.take_subset_take_left _ h.turns hwindow))
  · exact Or.inl (Or.inr (Or.inl (h.protectedTurns hprot)))
  · exact Or.inl (Or.inr (Or.inr (Or.inl (h.extraTrees ▸ hextra))))
  · rw [Query.inDays, h.nowUnix] at hdays
    exact Or.inr hdays

theorem together_of_retains (h : Retains parse entries q) : Together parse entries q := by
  intro e he other hother hsame hw tree htree
  by_contra hlost
  push Not at hlost
  obtain ⟨hextra, hno⟩ := hlost
  obtain ⟨list, hperm, hnot⟩ := tree_lost hextra hno
  rw [h.order list hperm] at hnot
  exact hnot (h.closed e he (mem_keptTurns.mpr ⟨other, hother, hsame, hw⟩) tree htree)

theorem daysGrow_of_retains (h : Retains parse entries q) : DaysGrow parse entries q := by
  intro days hdays e he hin
  have hwithin : Query.Within { q with keepDays := days } q :=
    ⟨Nat.le_refl _, hdays, Finset.Subset.refl _, rfl, rfl⟩
  have hkept : e.turn ∈ (computeRetention parse entries { q with keepDays := days }).keptTurns :=
    mem_keptTurns.mpr ⟨e, he, rfl, Or.inr (Or.inr (Or.inr hin))⟩
  exact mem_keptTurns.mp (h.monotone _ hwithin hkept)

/-- In any order, with any limits. -/
theorem retains_iff (parse : Text → Option Int) (entries : List RetentionEntry) (q : Query) :
    Retains parse entries q ↔ Together parse entries q ∧ DaysGrow parse entries q := by
  constructor
  · exact fun h => ⟨together_of_retains h, daysGrow_of_retains h⟩
  · rintro ⟨htogether, hgrow⟩
    refine ⟨fun e he hp => ?_, fun tree hx => ?_, fun e he ht tree htree => ?_,
      fun p hp t ht => ?_, fun other hperm => ?_⟩
    · exact mem_keptTurns.mpr ⟨e, he, rfl, Or.inr (Or.inl hp)⟩
    · exact Finset.mem_union_right _ (List.mem_toFinset.mpr hx)
    · exact (mem_keptTrees htogether).mpr (Or.inr ⟨e, he, htree, ht⟩)
    · obtain ⟨e, he, rfl, hw⟩ := mem_keptTurns.mp ht
      cases wants_mono hp hw with
      | inl hwants => exact mem_keptTurns.mpr ⟨e, he, rfl, hwants⟩
      | inr hdays => exact mem_keptTurns.mpr (hgrow _ hp.days e he hdays)
    · have hother : Together parse other q := by
        intro e he f hf hsame hw tree htree
        obtain hx | ⟨owner, hown, howned, hwants⟩ := htogether e (hperm.mem_iff.mp he) f
          (hperm.mem_iff.mp hf) hsame ((wants_perm hperm f).mp hw) tree htree
        · exact Or.inl hx
        · exact Or.inr ⟨owner, hperm.mem_iff.mpr hown, howned, (wants_perm hperm owner).mpr hwants⟩
      have hturns := @keptTurns_perm parse q entries other hperm
      have htrees : (computeRetention parse other q).keptTrees =
          (computeRetention parse entries q).keptTrees := by
        ext tree
        simp only [mem_keptTrees hother, mem_keptTrees htogether, hturns, hperm.mem_iff]
      exact congrArg₂ RetentionDecision.mk hturns htrees

/-- As long as the days fit into a word of seconds, more days admit more. -/
theorem inDays_mono {days : Nat} (hle : days ≤ q.keepDays) (hfit : q.keepDays * 86400 < 2 ^ 63)
    {e : RetentionEntry} (h : Query.inDays parse { q with keepDays := days } e = true) :
    q.inDays parse e = true := by
  have hwrap (n : Nat) (hn : n * 86400 < 2 ^ 63) : wrap64 (wrap64 n * 86400) = n * 86400 := by
    have hone : wrap64 n = n := Int.bmod_eq_of_le (by omega) (by omega)
    rw [hone]
    exact Int.bmod_eq_of_le (by omega) (by omega)
  obtain ⟨hpos, hany⟩ := Bool.and_eq_true_iff.mp h
  obtain ⟨t, ht, hage⟩ := (Option.any_eq_true _ _).mp hany
  refine Bool.and_eq_true_iff.mpr ⟨?_, (Option.any_eq_true _ _).mpr ⟨t, ht, ?_⟩⟩
  · have hdays : 0 < days := of_decide_eq_true hpos
    exact decide_eq_true (by omega)
  · have hyoung : wrap64 (q.nowUnix - t) ≤ wrap64 (wrap64 days * 86400) := of_decide_eq_true hage
    rw [hwrap days (Nat.lt_of_le_of_lt (Nat.mul_le_mul_right 86400 hle) hfit)] at hyoung
    rw [hwrap q.keepDays hfit]
    refine decide_eq_true (hyoung.trans ?_)
    exact_mod_cast Nat.mul_le_mul_right 86400 hle

/-- One entry a turn, and days that a word of seconds can hold. -/
theorem retains_of_distinct (hturns : (entries.map RetentionEntry.turn).Nodup)
    (hdays : q.keepDays * 86400 < 2 ^ 63) : Retains parse entries q := by
  refine (retains_iff parse entries q).mpr ⟨?_, ?_⟩
  · intro e he other hother hsame hw tree htree
    obtain rfl := List.inj_on_of_nodup_map hturns hother he hsame
    exact Or.inr ⟨other, he, htree, hw⟩
  · intro days hle e he hin
    exact ⟨e, he, rfl, Or.inr (Or.inr (Or.inr (inDays_mono hle hdays hin)))⟩

end

/-- Two stamps of a reader of RFC 3339. -/
def stamps (time : Text) : Option Int :=
  if time = "1970-01-01T00:00:00Z".toList then some 0
  else if time = "1970-01-12T13:46:40Z".toList then some 1000000
  else none

def oldA : RetentionEntry := ⟨1, "1970-01-01T00:00:00Z".toList, some "a".toList⟩
def newB : RetentionEntry := ⟨1, "1970-01-12T13:46:40Z".toList, some "b".toList⟩

/-- A query on the day of the second stamp. -/
def lastDays (days : Nat) : Query := ⟨∅, [], 1000000, 0, days⟩

/-- Two entries of one turn lose the tree of the older one; the largest number of days keeps
less than one day. -/
theorem retains_not :
    ¬ Retains stamps [oldA, newB] (lastDays 7) ∧
      ¬ Retains stamps [newB] (lastDays (2 ^ 64 - 1)) := by
  constructor
  · intro h
    have hlost : "a".toList ∉ (computeRetention stamps [oldA, newB] (lastDays 7)).keptTrees := by
      decide
    exact hlost (h.closed oldA List.mem_cons_self (by decide) _ rfl)
  · intro h
    have hwithin : Query.Within (lastDays 1) (lastDays (2 ^ 64 - 1)) :=
      ⟨Nat.le_refl _, by decide, Finset.Subset.refl _, rfl, rfl⟩
    have hkept : 1 ∈ (computeRetention stamps [newB] (lastDays 1)).keptTurns := by decide
    have hlost : 1 ∉ (computeRetention stamps [newB] (lastDays (2 ^ 64 - 1))).keptTurns := by decide
    exact hlost (h.monotone _ hwithin hkept)

end NemesisBot.CheckpointRetention

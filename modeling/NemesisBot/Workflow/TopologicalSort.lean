import NemesisBot.Lib.Cycles
import NemesisBot.Workflow.Context

/-! The levels in which the nodes of a workflow run. -/
namespace NemesisBot.Engine
open Strings Cycles

/-- The number of edges into each node that have not been taken. -/
abbrev Degrees := List (Text × Nat)

def addDegree (degrees : Degrees) (id : Text) : Degrees :=
  insertField id ((degrees.lookup id).getD 0 + 1) degrees

def inDegrees (nodes : List NodeDef) (edges : List Edge) : Degrees :=
  let declared := nodes.foldl (fun degrees n => insertField n.id 0 degrees) []
  let fromEdges := edges.foldl (fun degrees e => addDegree degrees e.toNode) declared
  nodes.foldl (fun degrees n => n.dependsOn.foldl (fun degrees _ => addDegree degrees n.id)
    degrees) fromEdges

/-- The targets of the edges out of a node, one for each edge. -/
def neighbors (nodes : List NodeDef) (edges : List Edge) (id : Text) : List Text :=
  (edges.filter fun e => e.fromNode = id).map Edge.toNode ++
    nodes.flatMap fun n => (n.dependsOn.filter fun dep => dep = id).map fun _ => n.id

/-- An edge is taken. Its target joins the next level when no other edge into it is left. -/
def takeEdge (s : Degrees × List Text) (neighbor : Text) : Degrees × List Text :=
  match s.1.lookup neighbor with
  | some (deg + 1) =>
    (insertField neighbor deg s.1, if deg = 0 then s.2 ++ [neighbor] else s.2)
  -- no edge into the neighbor is left to take
  | some 0 | none => s

def takeLevel (next : Text → List Text) (degrees : Degrees) (queue : List Text) :
    Degrees × List Text :=
  (queue.flatMap next).foldl takeEdge (degrees, [])

def levelsFrom (next : Text → List Text) : Nat → Degrees → List Text → List (List Text)
  | 0, _, _ => []
  | fuel + 1, degrees, queue =>
    if queue = [] then []
    else
      let s := takeLevel next degrees queue
      queue :: levelsFrom next fuel s.1 s.2

/-- The nodes without an edge into them, in the order in which the map has them. -/
def firstLevel (order : Arrangement) (degrees : Degrees) : List Text :=
  ((order.arrange degrees).filter fun e => e.2 = 0).map Prod.fst

def topologicalSort (order : Arrangement) (nodes : List NodeDef) (edges : List Edge) :
    Except Text (List (List Text)) :=
  let degrees := inDegrees nodes edges
  let levels := levelsFrom (neighbors nodes edges) (degrees.length + 1) degrees
    (firstLevel order degrees)
  if levels.flatten.length ≠ (nodes.map NodeDef.id).dedup.length then
    .error "cycle detected in workflow graph".toList
  else .ok levels

/-! A node is in one level only: it joins when its last edge is taken. -/

/-- The level found so far, against the degrees before it. -/
structure Reached (before : Degrees) (s : Degrees × List Text) : Prop where
  nodup : s.2.Nodup
  fresh : ∀ id ∈ s.2, before.lookup id ≠ some 0
  zero : ∀ id ∈ s.2, s.1.lookup id = some 0
  kept : ∀ id, before.lookup id = some 0 → s.1.lookup id = some 0

theorem reached_takeEdge {before : Degrees} {s : Degrees × List Text} (h : Reached before s)
    (neighbor : Text) : Reached before (takeEdge s neighbor) := by
  rw [takeEdge]
  split
  · rename_i deg hd
    have hne (id : Text) (hz : s.1.lookup id = some 0) : id ≠ neighbor := by
      rintro rfl
      rw [hz] at hd
      cases hd
    have hkept (id : Text) (hz : s.1.lookup id = some 0) :
        (insertField neighbor deg s.1).lookup id = some 0 := by
      rw [lookup_insertField, if_neg (hne id hz)]
      exact hz
    by_cases h0 : deg = 0
    · subst h0
      rw [if_pos rfl]
      refine ⟨?_, ?_, ?_, fun id hz => hkept id (h.kept id hz)⟩
      · refine h.nodup.append (List.nodup_singleton neighbor) ?_
        intro id hid hn
        exact hne id (h.zero id hid) (List.mem_singleton.mp hn)
      · intro id hid
        cases List.mem_append.mp hid with
        | inl hid => exact h.fresh id hid
        | inr hid =>
          obtain rfl := List.mem_singleton.mp hid
          exact fun hz => hne id (h.kept id hz) rfl
      · intro id hid
        cases List.mem_append.mp hid with
        | inl hid => exact hkept id (h.zero id hid)
        | inr hid =>
          obtain rfl := List.mem_singleton.mp hid
          simp [lookup_insertField]
    · rw [if_neg h0]
      exact ⟨h.nodup, h.fresh, fun id hid => hkept id (h.zero id hid),
        fun id hz => hkept id (h.kept id hz)⟩
  · exact h
  · exact h

theorem reached_takeLevel (next : Text → List Text) (degrees : Degrees) (queue : List Text) :
    Reached degrees (takeLevel next degrees queue) := by
  rw [takeLevel]
  have hstart : Reached degrees (degrees, []) :=
    ⟨List.nodup_nil, fun _ h => (List.not_mem_nil h).elim, fun _ h => (List.not_mem_nil h).elim,
      fun _ h => h⟩
  induction queue.flatMap next using List.reverseRecOn with
  | nil => exact hstart
  | append_singleton edges neighbor ih =>
    rw [List.foldl_append]
    exact reached_takeEdge ih neighbor

theorem levelsFrom_nodup {next : Text → List Text} {fuel : Nat} {degrees : Degrees}
    {queue : List Text} (hq : queue.Nodup) (hz : ∀ id ∈ queue, degrees.lookup id = some 0) :
    (levelsFrom next fuel degrees queue).flatten.Nodup ∧
      ∀ id ∈ (levelsFrom next fuel degrees queue).flatten,
        id ∈ queue ∨ degrees.lookup id ≠ some 0 := by
  induction fuel generalizing degrees queue with
  | zero => simp [levelsFrom]
  | succ fuel ih =>
    rw [levelsFrom]
    split
    · simp
    · have hr := reached_takeLevel next degrees queue
      obtain ⟨hnodup, hlater⟩ := ih hr.nodup hr.zero
      have hfresh : ∀ id ∈ (levelsFrom next fuel (takeLevel next degrees queue).1
          (takeLevel next degrees queue).2).flatten, degrees.lookup id ≠ some 0 := by
        intro id hid hd
        cases hlater id hid with
        | inl hin => exact hr.fresh id hin hd
        | inr hne => exact hne (hr.kept id hd)
      rw [List.flatten_cons]
      refine ⟨hq.append hnodup fun id hid hl => hfresh id hl (hz id hid), fun id hid => ?_⟩
      cases List.mem_append.mp hid with
      | inl hid => exact Or.inl hid
      | inr hid => exact Or.inr (hfresh id hid)

theorem inDegrees_nodup (nodes : List NodeDef) (edges : List Edge) :
    ((inDegrees nodes edges).map Prod.fst).Nodup := by
  have hfold {γ : Type} (f : Degrees → γ → Degrees)
      (hf : ∀ d x, (d.map Prod.fst).Nodup → ((f d x).map Prod.fst).Nodup) (xs : List γ)
      (d : Degrees) (hd : (d.map Prod.fst).Nodup) : ((xs.foldl f d).map Prod.fst).Nodup := by
    induction xs generalizing d with
    | nil => exact hd
    | cons x xs ih => exact ih (f d x) (hf d x hd)
  refine hfold _ (fun d n hd => hfold _ (fun d _ hd => nodup_insertField hd) _ d hd) _ _ ?_
  refine hfold _ (fun d e hd => nodup_insertField hd) _ _ ?_
  exact hfold _ (fun d n hd => nodup_insertField hd) _ _ List.nodup_nil

theorem mem_firstLevel (order : Arrangement) {degrees : Degrees}
    (h : (degrees.map Prod.fst).Nodup) (id : Text) :
    id ∈ firstLevel order degrees ↔ degrees.lookup id = some 0 := by
  rw [lookup_eq_some_iff_mem h, firstLevel, List.mem_map]
  constructor
  · rintro ⟨⟨id, deg⟩, he, rfl⟩
    obtain ⟨hm, hz⟩ := List.mem_filter.mp he
    obtain rfl : deg = 0 := by simpa using hz
    exact (order.perm degrees).mem_iff.mp hm
  · intro hm
    refine ⟨(id, 0), List.mem_filter.mpr ⟨(order.perm degrees).mem_iff.mpr hm, ?_⟩, rfl⟩
    exact decide_eq_true rfl

theorem firstLevel_nodup (order : Arrangement) {degrees : Degrees}
    (h : (degrees.map Prod.fst).Nodup) : (firstLevel order degrees).Nodup := by
  have harr : ((order.arrange degrees).map Prod.fst).Nodup :=
    ((order.perm degrees).map Prod.fst).nodup_iff.mpr h
  exact harr.sublist (List.filter_sublist.map Prod.fst)

/-- No node is in two levels, or twice in one. -/
theorem topologicalSort_nodup {order : Arrangement} {nodes : List NodeDef} {edges : List Edge}
    {levels : List (List Text)} (h : topologicalSort order nodes edges = .ok levels) :
    levels.flatten.Nodup := by
  rw [topologicalSort] at h
  split at h
  · cases h
  · obtain rfl := Except.ok.inj h
    have hkeys := inDegrees_nodup nodes edges
    exact (levelsFrom_nodup (firstLevel_nodup order hkeys)
      fun id hid => (mem_firstLevel order hkeys id).mp hid).1

/-! The degrees count the edges that are left, so a level is complete, and what no level
holds has an edge into it from such a node. -/

theorem lookup_takeEdge (s : Degrees × List Text) (neighbor id : Text) :
    (takeEdge s neighbor).1.lookup id =
      (s.1.lookup id).map fun deg => if id = neighbor then deg - 1 else deg := by
  have hother (hid : id ≠ neighbor) :
      s.1.lookup id = (s.1.lookup id).map fun deg => if id = neighbor then deg - 1 else deg := by
    simp [hid]
  rw [takeEdge]
  split
  · rename_i deg hd
    rw [lookup_insertField]
    by_cases hid : id = neighbor
    · subst hid
      simp [hd]
    · rw [if_neg hid]
      exact hother hid
  all_goals
    rename_i hd
    by_cases hid : id = neighbor
    · subst hid
      simp [hd]
    · exact hother hid

theorem mem_takeEdge (s : Degrees × List Text) (neighbor id : Text) :
    id ∈ (takeEdge s neighbor).2 ↔ id ∈ s.2 ∨ (id = neighbor ∧ s.1.lookup neighbor = some 1) := by
  rw [takeEdge]
  split
  · rename_i deg hd
    by_cases h0 : deg = 0
    · simp [hd, h0]
    · simp [hd, h0]
  all_goals
    rename_i hd
    simp [hd]

theorem lookup_takeEdges (edges : List Text) (s : Degrees × List Text) (id : Text) :
    (edges.foldl takeEdge s).1.lookup id = (s.1.lookup id).map (· - edges.count id) := by
  induction edges generalizing s with
  | nil => simp
  | cons neighbor edges ih =>
    rw [List.foldl_cons, ih, lookup_takeEdge, Option.map_map]
    congr 1
    funext deg
    by_cases hid : id = neighbor
    · subst hid
      simp only [Function.comp_apply, if_pos, List.count_cons_self]
      omega
    · simp [hid, List.count_cons_of_ne (Ne.symm hid)]

/-- A node joins the level when its last edge is among those taken. -/
theorem mem_takeEdges (edges : List Text) (s : Degrees × List Text) (id : Text) :
    id ∈ (edges.foldl takeEdge s).2 ↔
      id ∈ s.2 ∨ ∃ deg, s.1.lookup id = some (deg + 1) ∧ deg < edges.count id := by
  induction edges generalizing s with
  | nil => simp
  | cons neighbor edges ih =>
    rw [List.foldl_cons, ih, mem_takeEdge, lookup_takeEdge, or_assoc]
    refine or_congr_right ?_
    by_cases hid : id = neighbor
    · subst hid
      cases hd : s.1.lookup id with
      | none => simp
      | some deg =>
        simp only [true_and, Option.map_some, if_pos, Option.some.injEq, List.count_cons_self]
        constructor
        · rintro (rfl | ⟨k, hk, hlt⟩)
          · exact ⟨0, rfl, Nat.succ_pos _⟩
          · exact ⟨deg - 1, by omega, by omega⟩
        · rintro ⟨k, rfl, hlt⟩
          cases k with
          | zero => exact Or.inl rfl
          | succ k => exact Or.inr ⟨k, rfl, by omega⟩
    · simp [hid, List.count_cons_of_ne (Ne.symm hid)]

/-- The degrees of the nodes that are left count the edges between them, and the queue holds
those without one. -/
structure Pending (next : Text → List Text) (left : List Text) (degrees : Degrees)
    (queue : List Text) : Prop where
  nodup : left.Nodup
  queue_nodup : queue.Nodup
  counted : ∀ id ∈ left, degrees.lookup id = some ((left.flatMap next).count id)
  settled : ∀ id ∉ left, ∀ deg, degrees.lookup id ≠ some (deg + 1)
  mem_queue : ∀ id, id ∈ queue ↔ id ∈ left ∧ id ∉ left.flatMap next

/-- What the levels make of the nodes that are left before them. -/
structure Drained (next : Text → List Text) (left : List Text) (levels : List (List Text)) :
    Prop where
  split : ∃ stuck, left.Perm (levels.flatten ++ stuck) ∧
    ∀ b ∈ stuck, ∃ a ∈ stuck, b ∈ next a
  ordered : ∀ a ∈ left, ∀ b ∈ next a, b ∈ levels.flatten → Before levels a b

variable {next : Text → List Text} {left queue : List Text} {degrees : Degrees}

theorem Pending.perm (h : Pending next left degrees queue) :
    left.Perm (queue ++ left.filter (· ∉ queue)) := by
  have hq : (left.filter (· ∈ queue)).Perm queue := by
    refine (List.perm_ext_iff_of_nodup (h.nodup.filter _) h.queue_nodup).mpr fun id => ?_
    rw [List.mem_filter, decide_eq_true_eq, and_iff_right_iff_imp]
    exact fun hid => ((h.mem_queue id).mp hid).1
  have hsplit := (List.filter_append_perm (· ∈ queue) left).symm
  simp only [← decide_not] at hsplit
  exact hsplit.trans (hq.append_right _)

theorem Pending.count (h : Pending next left degrees queue) (id : Text) :
    (left.flatMap next).count id =
      (queue.flatMap next).count id + ((left.filter (· ∉ queue)).flatMap next).count id := by
  rw [(h.perm.flatMap_right next).count_eq id, List.flatMap_append, List.count_append]

theorem Pending.takeLevel (h : Pending next left degrees queue) :
    Pending next (left.filter (· ∉ queue)) (takeLevel next degrees queue).1
      (takeLevel next degrees queue).2 := by
  have hmem (id : Text) : id ∈ left.filter (· ∉ queue) ↔ id ∈ left ∧ id ∉ queue := by
    rw [List.mem_filter, decide_eq_true_eq]
  refine ⟨h.nodup.filter _, (reached_takeLevel next degrees queue).nodup, ?_, ?_, ?_⟩
  · intro id hid
    have hc := h.count id
    rw [Engine.takeLevel, lookup_takeEdges, h.counted id ((hmem id).mp hid).1, Option.map_some]
    congr 1
    omega
  · intro id hid deg
    rw [Engine.takeLevel, lookup_takeEdges]
    intro hd
    obtain ⟨k, hk, hsub⟩ := Option.map_eq_some_iff.mp hd
    by_cases hleft : id ∈ left
    · have hq : id ∈ queue := by
        by_contra hq
        exact hid ((hmem id).mpr ⟨hleft, hq⟩)
      have h0 := List.count_eq_zero_of_not_mem ((h.mem_queue id).mp hq).2
      rw [h.counted id hleft, h0, Option.some.injEq] at hk
      omega
    · cases k with
      | zero => omega
      | succ k => exact h.settled id hleft k hk
  · intro id
    have hc := h.count id
    rw [Engine.takeLevel, mem_takeEdges, ← List.count_eq_zero, hmem]
    simp only [List.not_mem_nil, false_or]
    constructor
    · rintro ⟨deg, hd, hlt⟩
      have hleft : id ∈ left := by
        by_contra hleft
        exact h.settled id hleft deg hd
      rw [h.counted id hleft, Option.some.injEq] at hd
      refine ⟨⟨hleft, fun hq => ?_⟩, by omega⟩
      have h0 := List.count_eq_zero_of_not_mem ((h.mem_queue id).mp hq).2
      omega
    · rintro ⟨⟨hleft, hq⟩, h0⟩
      have hpos : 0 < (left.flatMap next).count id := by
        by_contra hnone
        refine hq ((h.mem_queue id).mpr ⟨hleft, List.count_eq_zero.mp ?_⟩)
        omega
      refine ⟨(left.flatMap next).count id - 1, ?_, by omega⟩
      rw [h.counted id hleft, Nat.sub_add_cancel hpos]

theorem Pending.drained {fuel : Nat} (h : Pending next left degrees queue)
    (hfuel : left.length ≤ fuel) : Drained next left (levelsFrom next fuel degrees queue) := by
  induction fuel generalizing left degrees queue with
  | zero =>
    obtain rfl := List.length_eq_zero_iff.mp (Nat.le_zero.mp hfuel)
    exact ⟨⟨[], by simp [levelsFrom]⟩, by simp⟩
  | succ fuel ih =>
    rw [levelsFrom]
    by_cases hq : queue = []
    · rw [if_pos hq]
      refine ⟨⟨left, by simp, fun b hb => ?_⟩, by simp⟩
      have hin : b ∈ left.flatMap next := by
        by_contra hb'
        have := (h.mem_queue b).mpr ⟨hb, hb'⟩
        simp [hq] at this
      exact List.mem_flatMap.mp hin
    · rw [if_neg hq]
      have hperm := h.perm
      have hlt : (left.filter (· ∉ queue)).length ≤ fuel := by
        have hlen := hperm.length_eq
        have hpos := List.length_pos_iff.mpr hq
        rw [List.length_append] at hlen
        omega
      obtain ⟨⟨stuck, hstuck, hpred⟩, hordered⟩ := ih h.takeLevel hlt
      refine ⟨⟨stuck, ?_, hpred⟩, fun a ha b hab hb => ?_⟩
      · rw [List.flatten_cons, List.append_assoc]
        exact hperm.trans (hstuck.append_left queue)
      · have hbq : b ∉ queue := fun hbq =>
          ((h.mem_queue b).mp hbq).2 (List.mem_flatMap.mpr ⟨a, ha, hab⟩)
        rw [List.flatten_cons] at hb
        have hb := (List.mem_append.mp hb).resolve_left hbq
        by_cases haq : a ∈ queue
        · exact ⟨[queue], _, rfl, by simpa using haq, hb⟩
        · refine (hordered a ?_ b hab hb).cons queue
          rw [List.mem_filter, decide_eq_true_eq]
          exact ⟨ha, haq⟩

/-! At the start the degrees count the edges out of the declared nodes. -/

/-- The ids are distinct, and edges and dependencies join declared nodes, as `validate`
checks. -/
structure Declared (nodes : List NodeDef) (edges : List Edge) : Prop where
  nodup : (nodes.map NodeDef.id).Nodup
  edge : ∀ e ∈ edges, e.fromNode ∈ nodes.map NodeDef.id ∧ e.toNode ∈ nodes.map NodeDef.id
  dependency : ∀ n ∈ nodes, ∀ dep ∈ n.dependsOn, dep ∈ nodes.map NodeDef.id

/-- The combined relation of edges and dependencies. -/
def Precedes (nodes : List NodeDef) (edges : List Edge) (a b : Text) : Prop :=
  (∃ e ∈ edges, e.fromNode = a ∧ e.toNode = b) ∨ ∃ n ∈ nodes, a ∈ n.dependsOn ∧ n.id = b

/-- Source and target of each edge and of each dependency. -/
def arcs (nodes : List NodeDef) (edges : List Edge) : List (Text × Text) :=
  (edges.map fun e => (e.fromNode, e.toNode)) ++
    nodes.flatMap fun n => n.dependsOn.map fun dep => (dep, n.id)

theorem mem_arcs {nodes : List NodeDef} {edges : List Edge} {a b : Text} :
    (a, b) ∈ arcs nodes edges ↔ Precedes nodes edges a b := by
  simp [arcs, Precedes]

theorem neighbors_eq (nodes : List NodeDef) (edges : List Edge) (id : Text) :
    neighbors nodes edges id =
      ((arcs nodes edges).filter fun arc => arc.1 = id).map Prod.snd := by
  rw [neighbors, arcs, List.filter_append, List.map_append, List.filter_map, List.map_map,
    List.filter_flatMap, List.map_flatMap]
  simp only [List.filter_map, List.map_map]
  rfl

theorem mem_neighbors {nodes : List NodeDef} {edges : List Edge} {a b : Text} :
    b ∈ neighbors nodes edges a ↔ Precedes nodes edges a b := by
  rw [neighbors_eq, ← mem_arcs]
  simp

theorem inDegrees_eq (nodes : List NodeDef) (edges : List Edge) :
    inDegrees nodes edges = ((arcs nodes edges).map Prod.snd).foldl addDegree
      (nodes.foldl (fun degrees n => insertField n.id 0 degrees) []) := by
  simp only [inDegrees, arcs, List.map_append, List.foldl_append, List.map_map, List.foldl_map,
    List.map_flatMap, List.foldl_flatMap]
  rfl

theorem lookup_declared (nodes : List NodeDef) (degrees : Degrees) (id : Text) :
    (nodes.foldl (fun degrees n => insertField n.id 0 degrees) degrees).lookup id =
      if id ∈ nodes.map NodeDef.id then some 0 else degrees.lookup id := by
  induction nodes generalizing degrees with
  | nil => simp
  | cons n nodes ih =>
    rw [List.foldl_cons, ih, lookup_insertField]
    by_cases hid : id = n.id
    · simp [hid]
    · simp [hid]

theorem lookup_addDegrees {targets : List Text} {degrees : Degrees} {id : Text} {deg : Nat}
    (h : degrees.lookup id = some deg) :
    (targets.foldl addDegree degrees).lookup id = some (deg + targets.count id) := by
  induction targets generalizing degrees deg with
  | nil => simpa using h
  | cons target targets ih =>
    rw [List.foldl_cons]
    by_cases hid : id = target
    · subst hid
      have hd : (addDegree degrees id).lookup id = some (deg + 1) := by
        rw [addDegree, lookup_insertField, if_pos rfl, h, Option.getD_some]
      rw [ih hd, List.count_cons_self]
      congr 1
      omega
    · have hd : (addDegree degrees target).lookup id = some deg := by
        rw [addDegree, lookup_insertField, if_neg hid, h]
      rw [ih hd, List.count_cons_of_ne (Ne.symm hid)]

theorem lookup_addDegrees_of_not_mem {targets : List Text} {degrees : Degrees} {id : Text}
    (h : id ∉ targets) : (targets.foldl addDegree degrees).lookup id = degrees.lookup id := by
  induction targets generalizing degrees with
  | nil => rfl
  | cons target targets ih =>
    obtain ⟨hid, htargets⟩ := not_or.mp (List.mem_cons.not.mp h)
    rw [List.foldl_cons, ih htargets, addDegree, lookup_insertField, if_neg hid]

/-- Grouping the arcs by their source keeps each of them. -/
theorem arcs_by_source {ids : List Text} (hn : ids.Nodup) {arcs : List (Text × Text)}
    (h : ∀ arc ∈ arcs, arc.1 ∈ ids) :
    (ids.flatMap fun a => arcs.filter fun arc => arc.1 = a).Perm arcs := by
  induction ids generalizing arcs with
  | nil =>
    obtain rfl := List.eq_nil_iff_forall_not_mem.mpr fun arc ha => List.not_mem_nil (h arc ha)
    exact .refl _
  | cons a ids ih =>
    obtain ⟨ha, hids⟩ := List.nodup_cons.mp hn
    have hrest : (ids.flatMap fun b => arcs.filter fun arc => arc.1 = b) =
        ids.flatMap fun b => (arcs.filter fun arc => arc.1 ≠ a).filter fun arc => arc.1 = b := by
      refine List.flatMap_congr fun b hb => ?_
      have hne : b ≠ a := fun he => ha (he ▸ hb)
      rw [List.filter_filter]
      refine List.filter_congr fun arc _ => ?_
      by_cases hab : arc.1 = b
      · simp [hab, hne]
      · simp [hab]
    have hi := @ih hids (arcs.filter fun arc => arc.1 ≠ a) fun arc harc => by
      obtain ⟨hm, hne⟩ := List.mem_filter.mp harc
      exact (List.mem_cons.mp (h arc hm)).resolve_left (by simpa using hne)
    have hsplit := List.filter_append_perm (fun arc : Text × Text => arc.1 = a) arcs
    simp only [← decide_not] at hsplit
    rw [List.flatMap_cons, hrest]
    exact (hi.append_left _).trans hsplit

theorem Declared.arcs {nodes : List NodeDef} {edges : List Edge} (h : Declared nodes edges) :
    ∀ arc ∈ arcs nodes edges,
      arc.1 ∈ nodes.map NodeDef.id ∧ arc.2 ∈ nodes.map NodeDef.id := by
  rintro ⟨a, b⟩ harc
  obtain ⟨e, he, rfl, rfl⟩ | ⟨n, hn, ha, rfl⟩ := mem_arcs.mp harc
  · exact h.edge e he
  · exact ⟨h.dependency n hn a ha, List.mem_map_of_mem hn⟩

theorem Declared.pending {nodes : List NodeDef} {edges : List Edge} (h : Declared nodes edges)
    (order : Arrangement) :
    Pending (neighbors nodes edges) (nodes.map NodeDef.id) (inDegrees nodes edges)
      (firstLevel order (inDegrees nodes edges)) := by
  have hkeys := inDegrees_nodup nodes edges
  have hperm : ((nodes.map NodeDef.id).flatMap (neighbors nodes edges)).Perm
      ((Engine.arcs nodes edges).map Prod.snd) := by
    have hgroup := (arcs_by_source h.nodup fun arc ha => (h.arcs arc ha).1).map Prod.snd
    rw [List.map_flatMap] at hgroup
    rwa [funext (neighbors_eq nodes edges)]
  have hin (id : Text) (hid : id ∈ nodes.map NodeDef.id) : (inDegrees nodes edges).lookup id =
      some (((nodes.map NodeDef.id).flatMap (neighbors nodes edges)).count id) := by
    rw [inDegrees_eq, lookup_addDegrees ((lookup_declared nodes [] id).trans (if_pos hid)),
      Nat.zero_add, hperm.count_eq id]
  have hout (id : Text) (hid : id ∉ nodes.map NodeDef.id) :
      (inDegrees nodes edges).lookup id = none := by
    have htarget : id ∉ (Engine.arcs nodes edges).map Prod.snd := by
      intro ht
      obtain ⟨arc, harc, rfl⟩ := List.mem_map.mp ht
      exact hid (h.arcs arc harc).2
    rw [inDegrees_eq, lookup_addDegrees_of_not_mem htarget, lookup_declared, if_neg hid]
    rfl
  refine ⟨h.nodup, firstLevel_nodup order hkeys, hin, fun id hid deg hd => ?_, fun id => ?_⟩
  · rw [hout id hid] at hd
    cases hd
  · rw [mem_firstLevel order hkeys]
    by_cases hid : id ∈ nodes.map NodeDef.id
    · rw [hin id hid, Option.some.injEq, List.count_eq_zero]
      exact (and_iff_right hid).symm
    · rw [hout id hid]
      simp only [hid, false_and, reduceCtorEq]

theorem Declared.drained {nodes : List NodeDef} {edges : List Edge} (h : Declared nodes edges)
    (order : Arrangement) :
    Drained (neighbors nodes edges) (nodes.map NodeDef.id)
      (levelsFrom (neighbors nodes edges) ((inDegrees nodes edges).length + 1)
        (inDegrees nodes edges) (firstLevel order (inDegrees nodes edges))) := by
  refine (h.pending order).drained ?_
  have hsub : nodes.map NodeDef.id ⊆ (inDegrees nodes edges).map Prod.fst := fun id hid =>
    mem_keys_of_lookup ((h.pending order).counted id hid)
  have hlen := (h.nodup.subperm hsub).length_le
  rw [List.length_map (f := Prod.fst)] at hlen
  omega

/-- A graph is sorted exactly when it has no cycle, into levels that hold every node once and
that its edges and dependencies climb. -/
theorem topologicalSort_correct (order : Arrangement) {nodes : List NodeDef} {edges : List Edge}
    (h : Declared nodes edges) :
    ((∃ levels, topologicalSort order nodes edges = .ok levels) ↔
      Acyclic (Precedes nodes edges)) ∧
    ∀ levels, topologicalSort order nodes edges = .ok levels →
      levels.flatten.Perm (nodes.map NodeDef.id) ∧
      ∀ a b, Precedes nodes edges a b → Before levels a b := by
  obtain ⟨⟨stuck, hstuck, hpred⟩, hordered⟩ := h.drained order
  generalize hlevels : levelsFrom (neighbors nodes edges) ((inDegrees nodes edges).length + 1)
    (inDegrees nodes edges) (firstLevel order (inDegrees nodes edges)) = levels at *
  have hlen := hstuck.length_eq
  rw [List.length_append] at hlen
  have hsort : topologicalSort order nodes edges =
      if stuck ≠ [] then .error "cycle detected in workflow graph".toList else .ok levels := by
    rw [topologicalSort, hlevels, h.nodup.dedup]
    refine if_congr ?_ rfl rfl
    rw [← List.length_pos_iff]
    omega
  have hok (hnone : stuck = []) : levels.flatten.Perm (nodes.map NodeDef.id) ∧
      ∀ a b, Precedes nodes edges a b → Before levels a b := by
    rw [hnone, List.append_nil] at hstuck
    refine ⟨hstuck.symm, fun a b hab => ?_⟩
    obtain ⟨ha, hb⟩ := h.arcs (a, b) (mem_arcs.mpr hab)
    exact hordered a ha b (mem_neighbors.mpr hab) (hstuck.mem_iff.mp hb)
  rw [hsort]
  by_cases hnone : stuck = []
  · rw [if_neg (not_not.mpr hnone)]
    obtain ⟨hperm, hbefore⟩ := hok hnone
    refine ⟨iff_of_true ⟨levels, rfl⟩ ?_, fun levels' he => ?_⟩
    · exact acyclic_of_before (hperm.nodup_iff.mpr h.nodup) hbefore
    · obtain rfl := Except.ok.inj he
      exact ⟨hperm, hbefore⟩
  · rw [if_pos hnone]
    refine ⟨iff_of_false (fun ⟨_, he⟩ => by cases he) fun hacyclic => ?_, fun _ he => by cases he⟩
    obtain ⟨b, hb, hsource⟩ := hacyclic.exists_source hnone
    obtain ⟨a, ha, hab⟩ := hpred b hb
    exact hsource a ha (mem_neighbors.mp hab)

/-- A node with two edges into it from one other node, one given as a dependency. -/
theorem topologicalSort_correct_parallel :
    let nodes : List NodeDef := [⟨"b".toList, "llm".toList, [], ["a".toList], 0⟩,
      ⟨"a".toList, "http".toList, [], [], 0⟩]
    let edges : List Edge := [⟨"a".toList, "b".toList, none⟩]
    topologicalSort .stored nodes edges = .ok [["a".toList], ["b".toList]] ∧
    Acyclic (Precedes nodes edges) ∧
    ∀ a b, Precedes nodes edges a b → Before [["a".toList], ["b".toList]] a b := by
  intro nodes edges
  have h : Declared nodes edges := ⟨by decide, by decide, by decide⟩
  have hsort : topologicalSort .stored nodes edges = .ok [["a".toList], ["b".toList]] := by
    decide
  obtain ⟨hiff, hlevels⟩ := topologicalSort_correct .stored h
  exact ⟨hsort, hiff.mp ⟨_, hsort⟩, (hlevels _ hsort).2⟩

end NemesisBot.Engine

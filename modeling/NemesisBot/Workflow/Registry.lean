import NemesisBot.Lib.Runs
import NemesisBot.Workflow.References

/-! The registry of workflows. Registrations check and insert under one lock; removals come
at any time, also between the reads of a check. -/
namespace NemesisBot.Engine
open Strings Cycles

/-- The graph that `check_subworkflow_cycle` searches: the entries read, with the incoming
workflow's own references in place of its old ones. -/
def checkGraph (incoming : Workflow) (entries : List (Text × List Text)) :
    List (Text × List Text) :=
  insertField incoming.name (workflowSubworkflowTargets incoming) entries

/-- The cycle that `find_path_back_to_start` reports. -/
def cycleThrough (incoming : Workflow) (entries : List (Text × List Text)) :
    Option (List Text) :=
  let graph := checkGraph incoming entries
  findPathBack (fun name => graph.lookup name) (graph.map Prod.fst) incoming.name

namespace Registry

/-- The registration that holds the lock: its workflow, the entries it has read, and whether
its check has passed. -/
structure Holder where
  incoming : Workflow
  entries : List (Text × List Text)
  passed : Bool

structure State where
  workflows : List (Text × Workflow)
  holder : Option Holder

def empty : State := ⟨[], none⟩

inductive Act where
  /-- `register_workflow` or `persist_workflow` takes the lock for a valid workflow -/
  | acquire (wf : Workflow)
  /-- the iteration over the registry yields an entry -/
  | read (name : Text)
  /-- the iteration has yielded every entry that is present, and the search is made -/
  | decide
  /-- the workflow is inserted and the lock released -/
  | insert
  /-- an error after the check releases the lock -/
  | giveUp
  /-- `unregister` or `delete_workflow_file` -/
  | remove (name : Text)

def step (s : State) : Act → Option State
  | .acquire wf => if s.holder.isNone then some { s with holder := some ⟨wf, [], false⟩ } else none
  | .read name => match s.holder, s.workflows.lookup name with
    | some h, some wf =>
      if h.passed then none
      else some { s with holder := some { h with
        entries := insertField name (workflowSubworkflowTargets wf) h.entries } }
    | _, _ => none
  | .decide => match s.holder with
    | some h =>
      if h.passed ∨ s.workflows.any (fun e => (h.entries.lookup e.1).isNone) then none
      else if (cycleThrough h.incoming h.entries).isSome then some { s with holder := none }
      else some { s with holder := some { h with passed := true } }
    | none => none
  | .insert => match s.holder with
    | some h =>
      if h.passed then some ⟨insertField h.incoming.name h.incoming s.workflows, none⟩ else none
    | none => none
  | .giveUp => match s.holder with
    | some h => if h.passed then some { s with holder := none } else none
    | none => none
  | .remove name => some { s with workflows := eraseField name s.workflows }

/-- A registered workflow can call the named one at run time. -/
def References (workflows : List (Text × Workflow)) (caller callee : Text) : Prop :=
  ∃ wf, workflows.lookup caller = some wf ∧ ∃ node ∈ wf.nodes, CanCall node callee

/-- The references that a check sees. -/
def Collected (workflows : List (Text × Workflow)) (caller callee : Text) : Prop :=
  ∃ wf, workflows.lookup caller = some wf ∧ callee ∈ workflowSubworkflowTargets wf

/-- What the lock guarantees about the registration that holds it. -/
structure HolderOk (workflows : List (Text × Workflow)) (h : Holder) : Prop where
  current : ∀ name wf ts, workflows.lookup name = some wf → h.entries.lookup name = some ts →
    ts = workflowSubworkflowTargets wf
  complete : h.passed = true → ∀ name wf, workflows.lookup name = some wf →
    (h.entries.lookup name).isSome
  searched : h.passed = true → cycleThrough h.incoming h.entries = none

structure Inv (s : State) : Prop where
  acyclic : Acyclic (Collected s.workflows)
  holder : ∀ h, s.holder = some h → HolderOk s.workflows h

theorem inv_empty : Inv empty := by
  refine ⟨?_, by simp [empty]⟩
  intro a hc
  obtain ⟨b, hab, -⟩ := Relation.TransGen.head'_iff.mp hc
  obtain ⟨wf, hl, -⟩ := hab
  simp [empty] at hl

theorem collected_erase {workflows : List (Text × Workflow)} {name a b : Text}
    (h : Collected (eraseField name workflows) a b) : Collected workflows a b := by
  obtain ⟨wf, hl, hm⟩ := h
  rw [lookup_eraseField] at hl
  split at hl
  · cases hl
  · exact ⟨wf, hl, hm⟩

theorem holderOk_erase {workflows : List (Text × Workflow)} {name : Text} {h : Holder}
    (ok : HolderOk workflows h) : HolderOk (eraseField name workflows) h := by
  have hkeep : ∀ {k wf}, (eraseField name workflows).lookup k = some wf →
      workflows.lookup k = some wf := by
    intro k wf hl
    rw [lookup_eraseField] at hl
    split at hl
    · cases hl
    · exact hl
  exact ⟨fun k wf ts hl => ok.current k wf ts (hkeep hl),
    fun hp k wf hl => ok.complete hp k wf (hkeep hl), ok.searched⟩

/-- The iteration copies the references of an entry as it finds it. -/
theorem holderOk_read {workflows : List (Text × Workflow)} {h : Holder} {name : Text}
    {wf : Workflow} (ok : HolderOk workflows h) (hl : workflows.lookup name = some wf)
    (hp : ¬ h.passed = true) :
    HolderOk workflows { h with
      entries := insertField name (workflowSubworkflowTargets wf) h.entries } := by
  refine ⟨fun k wf' ts hl' hts => ?_, by simp [hp], by simp [hp]⟩
  rw [lookup_insertField] at hts
  split at hts
  · rename_i hk
    subst hk
    obtain rfl : wf = wf' := Option.some.inj (hl.symm.trans hl')
    exact (Option.some.inj hts).symm
  · exact ok.current k wf' ts hl' hts

/-- A search that finds nothing, after every entry has been read, passes the check. -/
theorem holderOk_passed {workflows : List (Text × Workflow)} {h : Holder}
    (ok : HolderOk workflows h)
    (hread : ∀ e ∈ workflows, (h.entries.lookup e.1).isSome = true)
    (hnone : cycleThrough h.incoming h.entries = none) :
    HolderOk workflows { h with passed := true } := by
  refine ⟨ok.current, fun _ k wf hl => ?_, fun _ => hnone⟩
  obtain ⟨before, after, he, -⟩ := List.lookup_eq_some_iff.mp hl
  exact hread (k, wf) (by rw [he]; simp)

/-- A completed search covers every edge of the registry after the insertion. -/
theorem adj_of_collected {workflows : List (Text × Workflow)} {h : Holder}
    (ok : HolderOk workflows h) (hp : h.passed = true) {a b : Text}
    (hc : Collected (insertField h.incoming.name h.incoming workflows) a b) :
    Adj (fun name => (checkGraph h.incoming h.entries).lookup name) a b := by
  obtain ⟨wf, hl, hm⟩ := hc
  rw [lookup_insertField] at hl
  rw [Adj, checkGraph, lookup_insertField]
  split at hl
  · rename_i ha
    obtain rfl := Option.some.inj hl
    exact ⟨_, if_pos ha, hm⟩
  · rename_i ha
    obtain ⟨ts, hts⟩ := Option.isSome_iff_exists.mp (ok.complete hp a wf hl)
    obtain rfl := ok.current a wf ts hl hts
    exact ⟨_, by rw [if_neg ha, hts], hm⟩

theorem acyclic_insert {workflows : List (Text × Workflow)} {h : Holder}
    (hacyclic : Acyclic (Collected workflows)) (ok : HolderOk workflows h)
    (hp : h.passed = true) :
    Acyclic (Collected (insertField h.incoming.name h.incoming workflows)) := by
  refine hacyclic.replace (v := h.incoming.name) ?_ ?_
  · rintro a b ha ⟨wf, hl, hm⟩
    rw [lookup_insertField, if_neg ha] at hl
    exact ⟨wf, hl, hm⟩
  · intro hc
    have hadj := Relation.TransGen.mono
      (fun a b hab => adj_of_collected ok hp hab) _ _ hc
    have hfound : (cycleThrough h.incoming h.entries).isSome :=
      findPathBack_isSome (fun a ts hl => mem_keys_of_lookup hl) hadj
    rw [ok.searched hp] at hfound
    cases hfound

theorem inv_step {s t : State} {act : Act} (inv : Inv s) (hs : step s act = some t) : Inv t := by
  cases act with
  | acquire wf =>
    simp only [step] at hs
    split at hs
    · obtain rfl := Option.some.inj hs
      refine ⟨inv.acyclic, fun h hh => ?_⟩
      obtain rfl := Option.some.inj hh
      exact ⟨by simp, by simp, by simp⟩
    · cases hs
  | read name =>
    simp only [step] at hs
    split at hs
    · rename_i h wf hh hl
      split at hs
      · cases hs
      · rename_i hp
        obtain rfl := Option.some.inj hs
        refine ⟨inv.acyclic, fun h' hh' => ?_⟩
        obtain rfl := Option.some.inj hh'
        exact holderOk_read (inv.holder h hh) hl hp
    · cases hs
  | decide =>
    simp only [step] at hs
    split at hs
    · rename_i h hh
      split at hs
      · cases hs
      · rename_i hready
        split at hs
        · obtain rfl := Option.some.inj hs
          exact ⟨inv.acyclic, by simp⟩
        · rename_i hnone
          obtain rfl := Option.some.inj hs
          refine ⟨inv.acyclic, fun h' hh' => ?_⟩
          obtain rfl := Option.some.inj hh'
          simp only [not_or, List.any_eq_true, not_exists, not_and] at hready
          apply holderOk_passed (inv.holder h hh)
          · intro e he
            simpa [Option.isSome_iff_ne_none] using hready.2 e he
          · simpa using hnone
    · cases hs
  | insert =>
    simp only [step] at hs
    split at hs
    · rename_i h hh
      split at hs
      · rename_i hp
        obtain rfl := Option.some.inj hs
        exact ⟨acyclic_insert inv.acyclic (inv.holder h hh) hp, by simp⟩
      · cases hs
    · cases hs
  | giveUp =>
    simp only [step] at hs
    split at hs
    · split at hs
      · obtain rfl := Option.some.inj hs
        exact ⟨inv.acyclic, by simp⟩
      · cases hs
    · cases hs
  | remove name =>
    obtain rfl := Option.some.inj hs
    exact ⟨inv.acyclic.mono fun _ _ => collected_erase,
      fun h hh => holderOk_erase (inv.holder h hh)⟩

theorem collected_of_references {workflows : List (Text × Workflow)} {a b : Text}
    (h : References workflows a b) : Collected workflows a b := by
  obtain ⟨wf, hl, node, hn, hc⟩ := h
  exact ⟨wf, hl, List.mem_flatMap.mpr ⟨node, hn, canCall_mem hc⟩⟩

/-- Whatever is registered, overwritten and removed, in any order of the steps, no workflow
can come back to itself through sub_workflow calls. -/
theorem run_acyclic {acts : List Act} {s : State} (h : Runs.run step empty acts = some s) :
    Acyclic (References s.workflows) := by
  have inv : Inv s := Runs.run_invariant_always (fun _ _ _ hi hs => inv_step hi hs) inv_empty h
  exact inv.acyclic.mono fun _ _ => collected_of_references

/-- A workflow with one sub_workflow node. -/
def caller (name callee : String) : Workflow where
  name := name.toList
  triggers := []
  nodes := [⟨"s".toList, subWorkflow, [("workflow".toList, .str callee.toList)], [], 0⟩]
  edges := []
  vars := []

/-- `a` calls `b`; the check then refuses a `b` that calls `a`. -/
theorem run_acyclic_two : ∃ s, Runs.run step empty
    [.acquire (caller "a" "b"), .decide, .insert, .acquire (caller "b" "a"), .read "a".toList,
      .decide] = some s ∧ s.workflows.map Prod.fst = ["a".toList] ∧
      Acyclic (References s.workflows) := by
  have h : (Runs.run step empty
      [.acquire (caller "a" "b"), .decide, .insert, .acquire (caller "b" "a"), .read "a".toList,
        .decide]).map (fun s => s.workflows.map Prod.fst) = some ["a".toList] := by decide
  obtain ⟨s, hs, hw⟩ := Option.map_eq_some_iff.mp h
  exact ⟨s, hs, hw, run_acyclic hs⟩

end Registry
end NemesisBot.Engine

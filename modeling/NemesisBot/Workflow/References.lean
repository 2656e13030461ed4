import NemesisBot.Workflow.Types
import NemesisBot.Lib.Cycles

/-! The workflows that a workflow can call through its sub_workflow nodes, and the check
that a registration makes. -/
namespace NemesisBot.Engine
open Strings Cycles

theorem sizeOf_lookup_lt {fields : Fields} {key : Text} {v : Json}
    (h : fields.lookup key = some v) : sizeOf v < sizeOf fields := by
  induction fields with
  | nil => simp at h
  | cons e rest ih =>
    obtain ⟨k, w⟩ := e
    by_cases hk : key = k
    · subst hk
      obtain rfl : w = v := by simpa using h
      simp only [List.cons.sizeOf_spec, Prod.mk.sizeOf_spec]
      omega
    · have hb : (key == k) = false := beq_eq_false_iff_ne.mpr hk
      have hi := ih (by simpa [List.lookup, hb] using h)
      simp only [List.cons.sizeOf_spec]
      omega

/-- The entries of the array under a key. -/
def arrayField (config : Fields) (key : Text) : List Json :=
  ((config.lookup key).bind Json.asArray).getD []

theorem sizeOf_arrayField_lt {config : Fields} {key : Text} {child : Json}
    (h : child ∈ arrayField config key) : sizeOf child < sizeOf config := by
  rw [arrayField] at h
  cases hv : config.lookup key with
  | none => simp [hv] at h
  | some v =>
    have hlt := sizeOf_lookup_lt hv
    cases v <;> simp only [hv, Option.bind_some, Json.asArray, Option.getD_some, Option.getD_none,
      List.not_mem_nil] at h
    rename_i items
    have hm := List.sizeOf_lt_of_mem h
    simp only [Json.arr.sizeOf_spec] at hlt
    omega

theorem sizeOf_config_lt {child : Json} {obj config : Fields} (ho : child.asObject = some obj)
    (hc : (obj.lookup "config".toList).bind Json.asObject = some config) :
    sizeOf config < sizeOf child := by
  have hobj : ∀ {v : Json} {fields : Fields}, v.asObject = some fields →
      sizeOf fields < sizeOf v := by
    intro v fields hv
    cases v <;> simp only [Json.asObject, Option.some.injEq, reduceCtorEq] at hv
    subst hv
    simp
  obtain ⟨v, hv, hc⟩ := Option.bind_eq_some_iff.mp hc
  have h1 := hobj ho
  have h2 := sizeOf_lookup_lt hv
  have h3 := hobj hc
  omega

def subWorkflow : Text := "sub_workflow".toList

def isComposite (nodeType : Text) : Bool :=
  nodeType == "parallel".toList || nodeType == "loop".toList

/-- The references of the children in a composite node's configuration, of both keys and at
any depth. -/
def collectTargets (config : Fields) : List Text :=
  ["nodes".toList, "branches".toList].flatMap fun key =>
    (arrayField config key).attach.flatMap fun ⟨child, _hchild⟩ =>
      match _ho : child.asObject with
      | none => []
      | some obj =>
        let childType := (childNode obj).nodeType
        (if childType = subWorkflow then
          ((((obj.lookup "config".toList).bind (Json.get "workflow".toList)).bind
            Json.asStr).filter (· ≠ [])).toList
        else []) ++
        (if isComposite childType then
          match _hc : (obj.lookup "config".toList).bind Json.asObject with
          | none => []
          | some childConfig => collectTargets childConfig
        else [])
termination_by sizeOf config
decreasing_by exact (sizeOf_config_lt _ho _hc).trans (sizeOf_arrayField_lt _hchild)

/-- The references of one top-level node. -/
def nodeTargets (node : NodeDef) : List Text :=
  if node.nodeType = subWorkflow then (workflowName node.config).toList
  else if isComposite node.nodeType then collectTargets node.config
  else []

def workflowSubworkflowTargets (wf : Workflow) : List Text := wf.nodes.flatMap nodeTargets

/-! What the executors call. -/

/-- Executing the node can run the named workflow: it is a sub_workflow node, or a composite
one that executes a child which can. -/
inductive CanCall : NodeDef → Text → Prop
  | sub {node : NodeDef} {name : Text} (ht : node.nodeType = subWorkflow)
      (hn : workflowName node.config = some name) : CanCall node name
  | parallel {node child : NodeDef} {name : Text} (ht : node.nodeType = "parallel".toList)
      (hc : child ∈ parallelChildren node.config) (h : CanCall child name) : CanCall node name
  | loop {node child : NodeDef} {name : Text} (ht : node.nodeType = "loop".toList)
      (hc : child ∈ loopChildren node.config) (h : CanCall child name) : CanCall node name

theorem collectTargets_nil : collectTargets [] = [] := by
  rw [collectTargets]
  rfl

theorem childNode_config (obj : Fields) : (childNode obj).config =
    ((obj.lookup "config".toList).bind Json.asObject).getD [] := rfl

theorem workflowName_childNode (obj : Fields) : workflowName (childNode obj).config =
    (((obj.lookup "config".toList).bind (Json.get "workflow".toList)).bind
      Json.asStr).filter (· ≠ []) := by
  rw [workflowName, childNode]
  cases obj.lookup "config".toList with
  | none => rfl
  | some v => cases v <;> rfl

/-- A child's references are among those collected from the configuration. -/
theorem mem_collectTargets {config obj : Fields} {key name : Text} {child : Json}
    (hk : key = "nodes".toList ∨ key = "branches".toList) (hchild : child ∈ arrayField config key)
    (ho : child.asObject = some obj) (hn : name ∈ nodeTargets (childNode obj)) :
    name ∈ collectTargets config := by
  rw [collectTargets]
  refine List.mem_flatMap.mpr ⟨key, by simpa using hk, ?_⟩
  refine List.mem_flatMap.mpr ⟨⟨child, hchild⟩, List.mem_attach _ _, ?_⟩
  dsimp only
  split
  · rename_i h
    simp [ho] at h
  · rename_i obj' h
    obtain rfl : obj = obj' := Option.some.inj (ho.symm.trans h)
    rw [nodeTargets] at hn
    by_cases hsub : (childNode obj).nodeType = subWorkflow
    · rw [if_pos hsub, workflowName_childNode] at hn
      simp only [hsub, if_true]
      exact List.mem_append_left _ hn
    · rw [if_neg hsub] at hn
      by_cases hcomp : isComposite (childNode obj).nodeType
      · rw [if_pos hcomp] at hn
        simp only [hsub, hcomp, if_true]
        refine List.mem_append_right _ ?_
        split
        · rename_i hnone
          rw [childNode_config, hnone, Option.getD_none, collectTargets_nil] at hn
          exact hn
        · rename_i cfg hcfg
          rw [childNode_config, hcfg, Option.getD_some] at hn
          exact hn
      · simp [hcomp] at hn

theorem mem_getConfigNodeList {config : Fields} {key : Text} {node : NodeDef}
    (h : node ∈ getConfigNodeList config key) :
    ∃ child ∈ arrayField config key, ∃ obj, child.asObject = some obj ∧ node = childNode obj := by
  obtain ⟨child, hc, hm⟩ := List.mem_filterMap.mp h
  obtain ⟨obj, ho, rfl⟩ := Option.map_eq_some_iff.mp hm
  exact ⟨child, hc, obj, ho, rfl⟩

theorem mem_collectTargets_of_listed {config : Fields} {key name : Text} {child : NodeDef}
    (hk : key = "nodes".toList ∨ key = "branches".toList)
    (hc : child ∈ getConfigNodeList config key) (hn : name ∈ nodeTargets child) :
    name ∈ collectTargets config := by
  obtain ⟨entry, he, obj, ho, rfl⟩ := mem_getConfigNodeList hc
  exact mem_collectTargets hk he ho hn

/-- The collection covers what the executors dispatch. -/
theorem canCall_mem {node : NodeDef} {name : Text} (h : CanCall node name) :
    name ∈ nodeTargets node := by
  induction h with
  | sub ht hn => simp [nodeTargets, ht, hn]
  | parallel ht hc _ ih =>
    have hcomp : isComposite "parallel".toList = true := by decide
    have hsub : ("parallel".toList : Text) ≠ subWorkflow := by decide
    rw [nodeTargets, ht, if_neg hsub, if_pos hcomp]
    rw [parallelChildren] at hc
    split at hc
    · exact mem_collectTargets_of_listed (Or.inr rfl) hc ih
    · exact mem_collectTargets_of_listed (Or.inl rfl) hc ih
  | loop ht hc _ ih =>
    have hcomp : isComposite "loop".toList = true := by decide
    have hsub : ("loop".toList : Text) ≠ subWorkflow := by decide
    rw [nodeTargets, ht, if_neg hsub, if_pos hcomp]
    exact mem_collectTargets_of_listed (Or.inl rfl) hc ih

end NemesisBot.Engine

import NemesisBot.Lib.Substitute
import NemesisBot.Workflow.Conditions

/-! A template is resolved one key after the other, in the order of a hash map. When that is
the same as filling in all its references at once. -/
namespace NemesisBot.Engine
open Strings Substitute

/-- The entries with these keys come in the order of the keys. -/
def Arrangement.byKeys (keys : List Text) : Arrangement where
  arrange entries := entries.insertionSort fun a b => keys.idxOf a.1 ≤ keys.idxOf b.1
  perm entries := List.perm_insertionSort _ entries

/-- What resolving replaces: each placeholder by the text of its value. -/
def contextRules (context : Fields) : List (Rule Char) :=
  context.map fun entry => ⟨placeholder entry.1, replacementText entry.2⟩

/-- Every order of the entries comes from some arrangement. -/
theorem arrange_byKeys {entries order : List (Text × Json)} (hp : order.Perm entries)
    (hn : (entries.map Prod.fst).Nodup) :
    (Arrangement.byKeys (order.map Prod.fst)).arrange entries = order := by
  let before (a b : Text × Json) : Prop :=
    (order.map Prod.fst).idxOf a.1 ≤ (order.map Prod.fst).idxOf b.1
  have hn' : (order.map Prod.fst).Nodup := (hp.map Prod.fst).nodup_iff.mpr hn
  have hsorted : order.Pairwise before := by
    refine List.pairwise_iff_getElem.mpr fun i j hi hj hij => ?_
    have hidx (k : Nat) (hk : k < order.length) :
        (order.map Prod.fst).idxOf (order[k]).1 = k := by
      have hk' : k < (order.map Prod.fst).length := by simpa using hk
      have := hn'.idxOf_getElem k hk'
      simpa using this
    simp only [before, hidx i hi, hidx j hj]
    omega
  have : IsTrans (Text × Json) before := ⟨fun _ _ _ hab hbc => Nat.le_trans hab hbc⟩
  have : Std.Total before := ⟨fun a b => Nat.le_total _ _⟩
  have hsort := List.pairwise_insertionSort before entries
  refine List.Perm.eq_of_pairwise ?_ hsort hsorted
    ((List.perm_insertionSort before entries).trans hp.symm)
  intro a b ha hb hab hba
  have hb' : b ∈ entries := hp.mem_iff.mp hb
  have ha' : a ∈ entries := (List.perm_insertionSort before entries).mem_iff.mp ha
  have hkey : a.1 = b.1 := by
    have hmem : a.1 ∈ order.map Prod.fst := List.mem_map_of_mem (hp.mem_iff.mpr ha')
    exact (List.idxOf_inj hmem).mp (Nat.le_antisymm hab hba)
  exact List.inj_on_of_nodup_map hn ha' hb' hkey

theorem resolve_eq_applyAll (order : Arrangement) (template : Text) (context : Fields) :
    resolvePromptTemplate order template context =
      applyAll (contextRules (order.arrange context)) template := by
  rw [resolvePromptTemplate, applyAll, contextRules, List.foldl_map]

theorem placeholder_injective : Function.Injective placeholder := by
  intro key key' h
  exact List.append_cancel_left (List.append_cancel_right h)

theorem olds_contextRules (context : Fields) :
    (contextRules context).map Rule.old = (context.map Prod.fst).map placeholder := by
  simp only [contextRules, List.map_map]
  rfl

theorem contextRules_nodup {context : Fields} (h : (context.map Prod.fst).Nodup) :
    ((contextRules context).map Rule.old).Nodup := by
  rw [olds_contextRules]
  exact h.map placeholder_injective

theorem contextRules_perm {context context' : Fields} (h : context.Perm context') :
    (contextRules context).Perm (contextRules context') := h.map _

/-- The rules of a part of a context are a part of its rules, and the other way round. -/
theorem subperm_contextRules {context : Fields} {part : List (Rule Char)} :
    part.Subperm (contextRules context) ↔
      ∃ entries, entries.Subperm context ∧ part = contextRules entries := by
  constructor
  · rintro ⟨kept, hperm, hsub⟩
    obtain ⟨entries, hentries, rfl⟩ := List.sublist_map_iff.mp hsub
    obtain ⟨entries', hpart, hperm'⟩ :
        ∃ entries', part = contextRules entries' ∧ entries'.Perm entries := by
      have hcomp := congrFun (congrFun (List.eq_map_comp_perm
        fun entry : Text × Json => Rule.mk (placeholder entry.1) (replacementText entry.2))
        part) entries
      exact hcomp.mpr hperm.symm
    exact ⟨entries', hperm'.subperm.trans hentries.subperm, hpart⟩
  · rintro ⟨entries, ⟨kept, hperm, hsub⟩, rfl⟩
    exact ⟨contextRules kept, contextRules_perm hperm, hsub.map _⟩

/-- A map and each part of it resolve a template in every order to what filling in all
references at once gives, exactly when the map is settled on the template. -/
theorem resolve_simultaneous_iff {context : Fields} (hk : (context.map Prod.fst).Nodup)
    (template : Text) :
    (∀ part : Fields, part.Subperm context → ∀ order : Arrangement,
      resolvePromptTemplate order template part = substitute (contextRules part) template) ↔
    Settled (contextRules context) template := by
  have hn := contextRules_nodup hk
  rw [← settled_iff hn]
  constructor
  · rintro h part hpart
    obtain ⟨entries, hentries, rfl⟩ := subperm_contextRules.mp hpart
    rw [← h entries hentries .stored, resolve_eq_applyAll]
    rfl
  · intro h part hpart order
    have hperm := contextRules_perm (order.perm part)
    have hsub : (contextRules (order.arrange part)).Subperm (contextRules context) :=
      subperm_contextRules.mpr ⟨_, (order.perm part).subperm.trans hpart, rfl⟩
    rw [resolve_eq_applyAll, h _ hsub]
    exact substitute_perm (olds_nodup hsub hn) hperm template

/-- A value with braces that is no reference. -/
theorem resolve_simultaneous_iff_braces :
    let context : Fields := [("a".toList, .str "\x7b\"k\":\x7b\x7d\x7d".toList),
      ("b".toList, .str "x".toList)]
    let template := "\x7b\x7ba\x7d\x7d and \x7b\x7bb\x7d\x7d".toList
    (∀ part : Fields, part.Subperm context → ∀ order : Arrangement,
      resolvePromptTemplate order template part = substitute (contextRules part) template) ↔
    Settled (contextRules context) template := by
  intro context template
  exact resolve_simultaneous_iff (by decide) template

/-- The value of one key refers to another one, and the order decides whether it is filled
in. -/
theorem resolve_order_dependent :
    let context : Fields := [("a".toList, .str "\x7b\x7bb\x7d\x7d".toList),
      ("b".toList, .str "x".toList)]
    let template := "\x7b\x7ba\x7d\x7d".toList
    (context.map Prod.fst).Nodup ∧
    resolvePromptTemplate .stored template context = "x".toList ∧
    resolvePromptTemplate (.byKeys ["b".toList, "a".toList]) template context =
      "\x7b\x7bb\x7d\x7d".toList ∧
    substitute (contextRules context) template = "\x7b\x7bb\x7d\x7d".toList := by
  decide

end NemesisBot.Engine

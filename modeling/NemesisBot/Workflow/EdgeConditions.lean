import NemesisBot.Workflow.Misreadings
import NemesisBot.Workflow.Scheduler

/-! When the condition of an edge fails a run: two readers of placeholders against what is left
of them in the resolved text. -/
namespace NemesisBot.Engine
open Strings Substitute

/-- Every reference names a completed node, and a field that its output has. -/
def RefsResolve (ctx : WorkflowContext) (cond : Text) : Prop :=
  ∀ ref ∈ placeholderRefs cond, ∃ result, ctx.getNodeResult ref.1 = some result ∧
    result.state = .completed ∧
    ∀ field, ref.2 = some field → (result.output.asObject.bind (List.lookup field)).isSome

/-- Filling in the references at once leaves no opening, and no order of the keys fills in
anything else. -/
def ResolvesFully (context : Fields) (cond : Text) : Prop :=
  Settled (contextRules context) cond ∧ ¬ opening <:+: substitute (contextRules context) cond

/-- No key has a brace. -/
def KeysPlain (context : Fields) : Prop :=
  ∀ entry ∈ context, '\x7b' ∉ entry.1 ∧ '\x7d' ∉ entry.1

theorem flattenEntry_nodup {context : Fields} (h : (context.map Prod.fst).Nodup) (key : Text)
    (value : Json) : ((flattenEntry context key value).map Prod.fst).Nodup := by
  rw [flattenEntry]
  refine nodup_insertField ?_
  induction value.asObject.getD [] generalizing context with
  | nil => exact h
  | cons field fields ih => exact ih (nodup_insertField h)

/-- The map that executors read has each key once. -/
theorem buildExecutorContext_nodup (order : Arrangement) (ctx : WorkflowContext) :
    ((buildExecutorContext order ctx).map Prod.fst).Nodup := by
  have hfold {γ : Type} (f : Fields → γ → Fields)
      (hf : ∀ d x, (d.map Prod.fst).Nodup → ((f d x).map Prod.fst).Nodup) (xs : List γ)
      (d : Fields) (hd : (d.map Prod.fst).Nodup) : ((xs.foldl f d).map Prod.fst).Nodup := by
    induction xs generalizing d with
    | nil => exact hd
    | cons x xs ih => exact ih (f d x) (hf d x hd)
  refine hfold _ (fun d entry hd => flattenEntry_nodup hd _ _) _ _ ?_
  refine hfold _ (fun d entry hd => nodup_insertField hd) _ _ ?_
  exact hfold _ (fun d entry hd => flattenEntry_nodup hd _ _) _ _ List.nodup_nil

theorem placeholder_eq_of_prefix {k k' : Text} (hk : '\x7d' ∉ k) (hk' : '\x7d' ∉ k')
    (h : placeholder k <+: placeholder k') : k = k' := by
  obtain ⟨q, hq⟩ := h
  have htail : k ++ (closing ++ q) = k' ++ (closing ++ []) := by
    have he : opening ++ (k ++ (closing ++ q)) = opening ++ (k' ++ (closing ++ [])) := by
      simpa [placeholder] using hq
    exact List.append_cancel_left he
  rw [← takeWhile_closing q hk, htail, takeWhile_closing [] hk']

/-- Placeholders of plain keys do not overlap. -/
theorem delimited_contextRules {context : Fields} (hn : (context.map Prod.fst).Nodup)
    (h : KeysPlain context) : Delimited '\x7b' (contextRules context) := by
  constructor
  · intro r hr
    obtain ⟨entry, hentry, rfl⟩ := List.mem_map.mp hr
    refine ⟨entry.1 ++ closing, by simp [placeholder, opening], by simp [closing], ?_⟩
    intro hm
    cases List.mem_append.mp hm with
    | inl hm => exact (h entry hentry).1 hm
    | inr hm => exact absurd hm (by decide)
  · intro r hr r' hr' hp
    obtain ⟨entry, hentry, rfl⟩ := List.mem_map.mp hr
    obtain ⟨entry', hentry', rfl⟩ := List.mem_map.mp hr'
    have hkey := placeholder_eq_of_prefix (h entry hentry).2 (h entry' hentry').2 hp
    rw [List.inj_on_of_nodup_map hn hentry hentry' hkey]

/-- Every order of the rules comes from some arrangement. -/
theorem exists_arrangement {context : Fields} (hn : (context.map Prod.fst).Nodup)
    {order : List (Rule Char)} (hp : order.Perm (contextRules context)) :
    ∃ build : Arrangement, contextRules (build.arrange context) = order := by
  obtain ⟨entries, hsub, rfl⟩ := subperm_contextRules.mp hp.subperm
  have hlen : entries.length = context.length := by
    have := hp.length_eq
    simpa [contextRules] using this
  have hperm : entries.Perm context := hsub.perm_of_length_le hlen.ge
  exact ⟨.byKeys (entries.map Prod.fst), by rw [arrange_byKeys hperm hn]⟩

theorem resolve_of_fully {context : Fields} (hn : (context.map Prod.fst).Nodup) {cond : Text}
    (h : ResolvesFully context cond) (order : Arrangement) :
    ¬ opening <:+: resolvePromptTemplate order cond context := by
  have hall := (resolve_simultaneous_iff hn cond).mpr h.1 context (List.Subperm.refl context) order
  rw [hall]
  exact h.2

theorem resolvesFully_of_clear {context : Fields} (hn : (context.map Prod.fst).Nodup)
    (hplain : KeysPlain context) {cond : Text}
    (hclear : ¬ opening <:+: substitute (contextRules context) cond) :
    ResolvesFully context cond :=
  ⟨(delimited_contextRules hn hplain).settled_of_clear (contextRules_nodup hn).of_map hclear,
    hclear⟩

/-- With plain keys no order leaves an opening exactly when the condition resolves fully. -/
theorem resolvesFully_iff {context : Fields} (hn : (context.map Prod.fst).Nodup)
    (hplain : KeysPlain context) (cond : Text) :
    (∀ order : Arrangement, ¬ opening <:+: resolvePromptTemplate order cond context) ↔
      ResolvesFully context cond := by
  have hdel := delimited_contextRules hn hplain
  have hrules := contextRules_nodup hn
  refine ⟨fun hall => ?_, fun h order => resolve_of_fully hn h order⟩
  have hclear : ¬ opening <:+: substitute (contextRules context) cond := by
    refine (hdel.clear_iff hrules cond).mp fun order hp => ?_
    obtain ⟨arrangement, rfl⟩ := exists_arrangement hn hp
    rw [← resolve_eq_applyAll]
    exact hall arrangement
  exact resolvesFully_of_clear hn hplain hclear

section Edge
variable {host : Host} {nodeId : Text} {ctx : WorkflowContext}

/-- One condition fails the run when it keeps an opening and names a completed node. -/
theorem evalConditions_error_iff {order : Arrangement} {context : Fields} {cond : Text} :
    (∃ e, evalConditions host order nodeId ctx context [cond] = .error e) ↔
      opening <:+: resolvePromptTemplate order cond context ∧
      ∃ ref ∈ placeholderRefs cond, ctx.stateOf ref.1 = some .completed := by
  rw [evalConditions]
  by_cases hopen : opening <:+: resolvePromptTemplate order cond context
  · rw [dif_pos hopen]
    by_cases hany : ∃ ref ∈ placeholderRefs cond, ctx.stateOf ref.1 = some .completed
    · have hb : ((placeholderRefs cond).any fun ref => ctx.stateOf ref.1 == some .completed) =
          true := by simpa [List.any_eq_true] using hany
      rw [if_pos hb]
      exact iff_of_true ⟨_, rfl⟩ ⟨hopen, hany⟩
    · have hb : ¬ ((placeholderRefs cond).any fun ref =>
          ctx.stateOf ref.1 == some .completed) = true := by
        simpa [List.any_eq_true] using hany
      rw [if_neg hb]
      exact iff_of_false (fun ⟨_, he⟩ => by cases he) fun h => hany h.2
  · rw [dif_neg hopen]
    refine iff_of_false ?_ fun h => hopen h.1
    rintro ⟨e, he⟩
    split at he
    · cases he
    · cases he

/-- A run fails at one of its edges' conditions. -/
theorem evalConditions_error {order : Arrangement} {context : Fields} {conds : List Text}
    {e : Text} (h : evalConditions host order nodeId ctx context conds = .error e) :
    ∃ cond ∈ conds, ∃ e', evalConditions host order nodeId ctx context [cond] = .error e' := by
  induction conds with
  | nil => cases h
  | cons cond conds ih =>
    by_cases hone : ∃ e', evalConditions host order nodeId ctx context [cond] = .error e'
    · exact ⟨cond, List.mem_cons_self, hone⟩
    · rw [evalConditions_error_iff] at hone
      rw [evalConditions] at h
      split at h
      · rename_i hopen
        split at h
        · rename_i hany
          exact absurd ⟨hopen, by simpa [List.any_eq_true] using hany⟩ hone
        · cases h
      · split at h
        · obtain ⟨later, hmem, hlater⟩ := ih h
          exact ⟨later, List.mem_cons_of_mem cond hmem, hlater⟩
        · cases h

/-- A condition whose references all resolve fails no run if it has none, or if it resolves
fully in the map, however the map was built. When no key has a brace these are the only ones. -/
theorem edge_fails_iff {cond : Text} (hrefs : RefsResolve ctx cond) :
    ((placeholderRefs cond = [] ∨
        ∀ build, ResolvesFully (buildExecutorContext build ctx) cond) →
      ∀ (order build : Arrangement) (e : Text),
        evalConditions host order nodeId ctx (buildExecutorContext build ctx) [cond] ≠
          .error e) ∧
    ((∀ build, KeysPlain (buildExecutorContext build ctx)) →
      (∀ (order build : Arrangement) (e : Text),
        evalConditions host order nodeId ctx (buildExecutorContext build ctx) [cond] ≠
          .error e) →
      placeholderRefs cond = [] ∨
        ∀ build, ResolvesFully (buildExecutorContext build ctx) cond) := by
  constructor
  · intro h order build e he
    obtain ⟨hopen, ref, href, -⟩ := evalConditions_error_iff.mp ⟨e, he⟩
    cases h with
    | inl hnone => simp [hnone] at href
    | inr hfully =>
      exact resolve_of_fully (buildExecutorContext_nodup build ctx) (hfully build) order hopen
  · intro hplain h
    by_cases hnone : placeholderRefs cond = []
    · exact Or.inl hnone
    · refine Or.inr fun build => ?_
      refine (resolvesFully_iff (buildExecutorContext_nodup build ctx) (hplain build) cond).mp
        fun order hopen => ?_
      obtain ⟨ref, href⟩ := List.exists_mem_of_ne_nil _ hnone
      obtain ⟨result, hresult, hstate, -⟩ := hrefs ref href
      have hcompleted : ctx.stateOf ref.1 = some .completed := by
        rw [WorkflowContext.stateOf, hresult, Option.map_some, hstate]
      obtain ⟨e, he⟩ := evalConditions_error_iff.mpr ⟨hopen, ref, href, hcompleted⟩
      exact h order build e he

end Edge

/-- A run in which one node has completed, with one field in its output. -/
def completedRun (value : Text) : WorkflowContext where
  vars := []
  nodeResults := [("n".toList,
    ⟨"n".toList, .obj [("ok".toList, .str value)], none, .completed, []⟩)]
  input := []
  identity := .empty

theorem refsResolve_completedRun (value : Text) {cond : Text}
    (h : placeholderRefs cond = [("n".toList, some "ok".toList)]) :
    RefsResolve (completedRun value) cond := by
  intro ref href
  rw [h, List.mem_singleton] at href
  subst href
  refine ⟨⟨"n".toList, .obj [("ok".toList, .str value)], none, .completed, []⟩, rfl, rfl, ?_⟩
  intro field hfield
  obtain rfl := Option.some.inj hfield
  rfl

theorem arrange_singleton {β : Type} (build : Arrangement) (entry : Text × β) :
    build.arrange [entry] = [entry] := List.perm_singleton.mp (build.perm _)

theorem build_completedRun (build : Arrangement) (value : Text) :
    buildExecutorContext build (completedRun value) =
      [("n.ok".toList, .str value), ("n".toList, .obj [("ok".toList, .str value)])] := by
  have hnil : build.arrange ([] : Fields) = [] := List.perm_nil.mp (build.perm _)
  rw [buildExecutorContext, completedRun, hnil, arrange_singleton]
  rfl

/-- A condition in the exact spelling of the key. -/
theorem edge_fails_iff_spelled :
    RefsResolve (completedRun "yes".toList) "\x7b\x7bn.ok\x7d\x7d == yes".toList ∧
    ∀ (order build : Arrangement) (e : Text),
      evalConditions wholeNumbers order "m".toList (completedRun "yes".toList)
        (buildExecutorContext build (completedRun "yes".toList))
        ["\x7b\x7bn.ok\x7d\x7d == yes".toList] ≠ .error e := by
  have hrefs := refsResolve_completedRun "yes".toList
    (show placeholderRefs "\x7b\x7bn.ok\x7d\x7d == yes".toList = _ by decide)
  refine ⟨hrefs, (edge_fails_iff hrefs).1 (Or.inr fun build => ?_)⟩
  rw [build_completedRun]
  refine resolvesFully_of_clear (by decide) ?_ (by decide)
  rw [KeysPlain, List.forall_mem_cons, List.forall_mem_singleton]
  decide

/-- With blanks inside the braces the reference is read, but not filled in: the run fails for a
missing field that is there. -/
theorem edge_fails_blanks :
    RefsResolve (completedRun "yes".toList) "\x7b\x7b n.ok \x7d\x7d == yes".toList ∧
    ∃ e, evalEdgeConditions wholeNumbers
      [⟨"n".toList, "m".toList, some "\x7b\x7b n.ok \x7d\x7d == yes".toList⟩] .stored "m".toList
      (completedRun "yes".toList) = .error e := by
  refine ⟨refsResolve_completedRun _ (by decide), ?_⟩
  have hconds : edgeConditions
      [⟨"n".toList, "m".toList, some "\x7b\x7b n.ok \x7d\x7d == yes".toList⟩] "m".toList =
      ["\x7b\x7b n.ok \x7d\x7d == yes".toList] := by decide
  rw [evalEdgeConditions, hconds]
  refine evalConditions_error_iff.mpr ⟨?_, ("n".toList, some "ok".toList), by decide, rfl⟩
  rw [build_completedRun]
  decide

end NemesisBot.Engine

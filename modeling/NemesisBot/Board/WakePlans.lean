import NemesisBot.Board.Arbitrator

/-! The plan that the master makes of a message agrees with what the workers read in it. -/
namespace NemesisBot.Arbitrator
open Strings Longest

/-- The token is read as a call of a role or of all. -/
def Broadcast (u : Unicode) (token : Text) : Prop :=
  (stripRole token).isSome ∨ u.toLowercase token = "all".toList

instance (u : Unicode) (token : Text) : Decidable (Broadcast u token) :=
  inferInstanceAs (Decidable (_ ∨ _))

/-- The readings of the message do not get in each other's way. -/
structure Clear (u : Unicode) (input : WakeInput) (nodes : List NodeCandidate) : Prop where
  /-- A node that a name of the roster calls, read as a role or as all, is called by its own
  reading of the same at sign. -/
  captured : ∀ rest ∈ openings u none input.content, ∀ name ∈ rosterHit u (roster nodes) rest,
    Broadcast u name → ∀ n ∈ nodes, n.id ≠ input.senderId → Called u name n →
      ∃ token ∈ mentionAt u [n.id, n.name] rest, Called u token n
  /-- The record of a token that calls nobody is no record of a node. -/
  unknown : ∀ token ∈ mentions u input nodes, (∀ n ∈ nodes, ¬ Called u token n) →
    ∀ n ∈ nodes, n.id ≠ '@' :: token
  /-- An id or a name calls one node. -/
  single : ∀ token ∈ mentions u input nodes, ¬ Broadcast u token → ∀ n ∈ nodes, ∀ m ∈ nodes,
    Called u token n → Called u token m → n = m

section
variable {u : Unicode} {input : WakeInput} {nodes : List NodeCandidate} {rest token : Text}
  {n : NodeCandidate}

theorem mem_mentions : token ∈ mentions u input nodes ↔
    ∃ rest ∈ openings u none input.content, mentionAt u (roster nodes) rest = some token :=
  List.mem_filterMap

theorem mentionsNode_iff : mentionsNode u input.content n.id n.name n.role n.category = true ↔
    ∃ rest ∈ openings u none input.content,
      ∃ token ∈ mentionAt u [n.id, n.name] rest, Called u token n := by
  rw [mentionsNode, List.any_eq_true]
  constructor
  · rintro ⟨token, hmem, hcalls⟩
    obtain ⟨rest, hrest, htoken⟩ := List.mem_filterMap.mp hmem
    exact ⟨rest, hrest, token, htoken, hcalls⟩
  · rintro ⟨rest, hrest, token, htoken, hcalls⟩
    exact ⟨token, List.mem_filterMap.mpr ⟨rest, hrest, htoken⟩, hcalls⟩

theorem called_iff_of_plain (hplain : ¬ Broadcast u token) : Called u token n ↔
    u.toLowercase n.id = u.toLowercase token ∨ u.toLowercase n.name = u.toLowercase token := by
  obtain ⟨hrole, hall⟩ := not_or.mp hplain
  have hnone : stripRole token = none := by simpa using hrole
  rw [@eq_comm _ (u.toLowercase n.id), @eq_comm _ (u.toLowercase n.name)]
  simp only [Called, calls, hnone, hall, decide_false, Bool.false_or, Bool.or_eq_true,
    decide_eq_true_eq]

/-- The longest name of a table that owns it alone is the longest name of its owner. -/
theorem own_hit {before after : List NodeCandidate} {name : Text}
    (hhit : rosterHit u (roster (before ++ n :: after)) rest = some name)
    (hbefore : ∀ m ∈ before ++ after, name ≠ m.id ∧ name ≠ m.name) :
    rosterHit u [n.id, n.name] rest = some name := by
  have hforeign : ∀ ms, (∀ m ∈ ms, m ∈ before ++ after) →
      rosterHit u (roster ms) rest ≠ some name := by
    intro ms hms hms'
    obtain ⟨hmem, -⟩ := rosterHit_mem hms'
    obtain ⟨m, hm, hname⟩ := List.mem_flatMap.mp hmem
    obtain ⟨hid, hnm⟩ := hbefore m (hms m hm)
    rw [List.mem_cons, List.mem_singleton] at hname
    exact hname.elim hid hnm
  have hsplit : roster (before ++ n :: after) =
      roster before ++ ([n.id, n.name] ++ roster after) := by
    simp [roster]
  have hb := hforeign before fun m hm => List.mem_append_left after hm
  have ha := hforeign after fun m hm => List.mem_append_right before hm
  rw [hsplit, rosterHit_append, rosterHit_append] at hhit
  have hpick : ∀ o p : Option Text, better List.length o p = some name →
      o = some name ∨ p = some name := by
    intro o p h
    cases o with
    | none => exact .inr h
    | some a =>
      cases p with
      | none => exact .inl h
      | some b =>
        rw [better] at h
        split at h
        · exact .inr h
        · exact .inl h
  exact (hpick _ _ ((hpick _ _ hhit).resolve_left hb)).resolve_right ha

/-- A node that the master finds called by an at sign finds itself called by it. -/
theorem reads_alike (hids : (nodes.map NodeCandidate.id).Nodup) (hc : Clear u input nodes)
    (hrest : rest ∈ openings u none input.content)
    (htoken : mentionAt u (roster nodes) rest = some token) (hn : n ∈ nodes)
    (hsender : n.id ≠ input.senderId) (hcalled : Called u token n) :
    ∃ own ∈ mentionAt u [n.id, n.name] rest, Called u own n := by
  cases hhit : rosterHit u (roster nodes) rest with
  | none =>
    have hsub : ∀ name ∈ [n.id, n.name], name ∈ roster nodes := fun name hname =>
      List.mem_flatMap.mpr ⟨n, hn, hname⟩
    rw [mentionAt, hhit] at htoken
    refine ⟨token, ?_, hcalled⟩
    rw [mentionAt, rosterHit_subset hsub hhit]
    exact htoken
  | some name =>
    have hname : name = token := by
      rw [mentionAt, hhit] at htoken
      exact Option.some.inj htoken
    subst hname
    by_cases hplain : Broadcast u name
    · exact hc.captured rest hrest name hhit hplain n hn hsender hcalled
    · obtain ⟨before, after, rfl⟩ := List.append_of_mem hn
      have hmem := mem_mentions.mpr ⟨rest, hrest, htoken⟩
      refine ⟨name, ?_, hcalled⟩
      rw [mentionAt, own_hit hhit fun m hm => ?_]
      · rfl
      · have hin : m ∈ before ++ n :: after := by
          rw [List.mem_append] at hm
          rw [List.mem_append, List.mem_cons]
          exact hm.imp_right Or.inr
        have hother : ¬ Called u name m := by
          intro hcm
          obtain rfl := hc.single name hmem hplain m hin n hn hcm hcalled
          have hnodup := List.Nodup.of_map _ hids
          rw [List.nodup_append, List.nodup_cons] at hnodup
          cases List.mem_append.mp hm with
          | inl hm => exact hnodup.2.2 m hm m List.mem_cons_self rfl
          | inr hm => exact hnodup.2.1.1 hm
        rw [called_iff_of_plain hplain, not_or] at hother
        exact ⟨fun he => hother.1 (by rw [he]), fun he => hother.2 (by rw [he])⟩

end

/-! The plan. -/

/-- The ids of which the plan holds a record. -/
def WakePlan.ids (plan : WakePlan) : List Text :=
  plan.targets ++ plan.skipped.map SkipRecord.nodeId

/-- Targets are online and no senders, records say why a node is passed over, and no node has
two records; `C` tells which nodes were called. -/
structure Sound (nodes : List NodeCandidate) (senderId : Text) (C : NodeCandidate → Prop)
    (plan : WakePlan) : Prop where
  target : ∀ i ∈ plan.targets, ∃ n ∈ nodes, n.id = i ∧ C n ∧ n.online = true ∧ n.id ≠ senderId
  skip : ∀ r ∈ plan.skipped,
    (∃ n ∈ nodes, n.id = r.nodeId ∧ C n ∧ (r.reason = .sender ∧ n.id = senderId ∨
      r.reason = .offline ∧ n.online = false ∧ n.id ≠ senderId)) ∨
    (r.reason ≠ .offline ∧ ∀ n ∈ nodes, n.id ≠ r.nodeId)
  once : ∀ n ∈ nodes, plan.ids.count n.id ≤ 1

section
variable {u : Unicode} {input : WakeInput} {nodes : List NodeCandidate} {senderId : Text}
  {C : NodeCandidate → Prop} {plan : WakePlan} {n : NodeCandidate} {i j : Text} {reason : Reason}

theorem mem_ids : i ∈ plan.ids ↔ i ∈ plan.targets ∨ i ∈ plan.skipped.map SkipRecord.nodeId :=
  List.mem_append

theorem ids_skip : (plan.skip j reason).ids = plan.ids ++ [j] := by
  simp [WakePlan.ids, WakePlan.skip]

theorem mem_ids_push : i ∈ (pushTargetOrSkip senderId plan n).ids ↔ i ∈ plan.ids ∨ i = n.id := by
  unfold pushTargetOrSkip
  split
  · rename_i h
    exact ⟨Or.inl, fun hi => hi.elim id fun he => he ▸ mem_ids.mpr h⟩
  · split
    · rw [ids_skip, List.mem_append, List.mem_singleton]
    · split
      · simp only [WakePlan.ids, List.mem_append, List.mem_singleton]
        tauto
      · rw [ids_skip, List.mem_append, List.mem_singleton]

theorem mem_ids_foldl (ns : List NodeCandidate) :
    i ∈ (ns.foldl (pushTargetOrSkip senderId) plan).ids ↔ i ∈ plan.ids ∨ ∃ n ∈ ns, n.id = i := by
  induction ns generalizing plan with
  | nil => simp
  | cons n ns ih =>
    rw [List.foldl_cons, ih, mem_ids_push, or_assoc, List.exists_mem_cons_iff]
    exact or_congr_right (or_congr_left eq_comm)

theorem count_concat (h : i ∉ plan.ids) (hone : plan.ids.count j ≤ 1) :
    (plan.ids ++ [i]).count j ≤ 1 := by
  rw [List.count_append]
  by_cases he : j = i
  · subst he
    rw [List.count_eq_zero.mpr h]
    simp
  · have hzero : [i].count j = 0 := List.count_eq_zero.mpr (by simpa using he)
    rw [hzero]
    exact hone

theorem Sound.push (h : Sound nodes senderId C plan) (hn : n ∈ nodes) (hC : C n) :
    Sound nodes senderId C (pushTargetOrSkip senderId plan n) := by
  unfold pushTargetOrSkip
  split
  · exact h
  · rename_i hnew
    have hfresh : n.id ∉ plan.ids := fun hm => hnew (mem_ids.mp hm)
    split
    · rename_i hsender
      refine ⟨h.target, fun r hr => ?_, fun m hm => ?_⟩
      · cases List.mem_append.mp hr with
        | inl hr => exact h.skip r hr
        | inr hr =>
          rw [List.mem_singleton.mp hr]
          exact .inl ⟨n, hn, rfl, hC, .inl ⟨rfl, hsender⟩⟩
      · rw [ids_skip]
        exact count_concat hfresh (h.once m hm)
    · rename_i hsender
      split
      · rename_i honline
        refine ⟨fun i hi => ?_, h.skip, fun m hm => ?_⟩
        · cases List.mem_append.mp hi with
          | inl hi => exact h.target i hi
          | inr hi => exact ⟨n, hn, (List.mem_singleton.mp hi).symm, hC, honline, hsender⟩
        · have hperm : (plan.targets ++ [n.id] ++ plan.skipped.map SkipRecord.nodeId).Perm
              (plan.ids ++ [n.id]) := by
            rw [WakePlan.ids, List.append_assoc, List.append_assoc]
            exact List.Perm.append_left _ List.perm_append_comm
          refine (hperm.count_eq m.id).trans_le ?_
          exact count_concat hfresh (h.once m hm)
      · rename_i honline
        refine ⟨h.target, fun r hr => ?_, fun m hm => ?_⟩
        · cases List.mem_append.mp hr with
          | inl hr => exact h.skip r hr
          | inr hr =>
            rw [List.mem_singleton.mp hr]
            exact .inl ⟨n, hn, rfl, hC, .inr ⟨rfl, by simpa using honline, hsender⟩⟩
        · rw [ids_skip]
          exact count_concat hfresh (h.once m hm)

theorem Sound.foldl {ns : List NodeCandidate} (h : Sound nodes senderId C plan)
    (hns : ∀ n ∈ ns, n ∈ nodes ∧ C n) :
    Sound nodes senderId C (ns.foldl (pushTargetOrSkip senderId) plan) := by
  induction ns generalizing plan with
  | nil => exact h
  | cons n ns ih =>
    obtain ⟨hn, hC⟩ := hns n List.mem_cons_self
    exact ih (h.push hn hC) fun m hm => hns m (List.mem_cons_of_mem n hm)

/-- A record for no node of the table. -/
theorem Sound.foreign (h : Sound nodes senderId C plan) (hj : ∀ n ∈ nodes, n.id ≠ j)
    (hreason : reason ≠ .offline) : Sound nodes senderId C (plan.skip j reason) := by
  refine ⟨h.target, fun r hr => ?_, fun n hn => ?_⟩
  · cases List.mem_append.mp hr with
    | inl hr => exact h.skip r hr
    | inr hr =>
      rw [List.mem_singleton.mp hr]
      exact .inr ⟨hreason, hj⟩
  · have hzero : [j].count n.id = 0 := List.count_eq_zero.mpr (by simpa using hj n hn)
    rw [ids_skip, List.count_append, hzero]
    exact h.once n hn

/-- The nodes that the token calls are entered, or a record says that there are none. -/
theorem resolveToken_cases (hids : (nodes.map NodeCandidate.id).Nodup) {token : Text}
    (hsingle : ¬ Broadcast u token → ∀ n ∈ nodes, ∀ m ∈ nodes,
      Called u token n → Called u token m → n = m) :
    resolveToken u nodes senderId plan token =
        (nodes.filter fun n => Called u token n).foldl (pushTargetOrSkip senderId) plan ∨
      (∀ n ∈ nodes, ¬ Called u token n) ∧
        resolveToken u nodes senderId plan token = plan.skip ('@' :: token) .notFound := by
  cases hrole : stripRole token with
  | some want =>
    have hcalled : ∀ n : NodeCandidate, Called u token n ↔ u.toLowercase want ≠ [] ∧
        (u.toLowercase n.role = u.toLowercase want ∨
          u.toLowercase n.category = u.toLowercase want) := by
      intro n
      simp [Called, calls, hrole]
    simp only [resolveToken, hrole]
    by_cases hwant : u.toLowercase want = []
    · rw [if_pos hwant]
      exact .inr ⟨fun n _ hc => ((hcalled n).mp hc).1 hwant, rfl⟩
    · have hfilter : (nodes.filter fun n => Called u token n) = nodes.filter fun n =>
          u.toLowercase n.role = u.toLowercase want ||
            u.toLowercase n.category = u.toLowercase want := by
        refine List.filter_congr fun n _ => ?_
        simp [hcalled, hwant]
      rw [if_neg hwant, ← hfilter]
      split
      · rename_i hnil
        refine .inr ⟨fun n hn hc => ?_, rfl⟩
        have hmem : n ∈ nodes.filter fun n => Called u token n :=
          List.mem_filter.mpr ⟨hn, decide_eq_true hc⟩
        rw [hnil] at hmem
        cases hmem
      · exact .inl rfl
  | none =>
    simp only [resolveToken, hrole]
    by_cases hall : u.toLowercase token = "all".toList
    · have hfilter : (nodes.filter fun n => Called u token n) = nodes :=
        List.filter_eq_self.mpr fun n _ => by simp [Called, calls, hrole, hall]
      rw [if_pos hall, hfilter]
      exact .inl rfl
    · have hplain : ¬ Broadcast u token := not_or.mpr ⟨by simp [hrole], hall⟩
      have hcalled : ∀ n : NodeCandidate, (decide (u.toLowercase n.id = u.toLowercase token) ||
          decide (u.toLowercase n.name = u.toLowercase token)) = true ↔ Called u token n := by
        intro n
        rw [called_iff_of_plain hplain]
        simp
      rw [if_neg hall]
      split
      · rename_i n hfind
        have hn : n ∈ nodes := List.mem_of_find?_eq_some hfind
        have hhit := List.find?_some hfind
        have hc : Called u token n := (hcalled n).mp hhit
        have hone : (nodes.filter fun m => Called u token m) = [n] := by
          have hnodup := (List.Nodup.of_map _ hids).filter fun m => Called u token m
          refine List.perm_singleton.mp
            ((List.perm_ext_iff_of_nodup hnodup (List.nodup_singleton n)).mpr fun m => ?_)
          rw [List.mem_filter, List.mem_singleton, decide_eq_true_eq]
          exact ⟨fun h => hsingle hplain m h.1 n hn h.2 hc, fun h => h ▸ ⟨hn, hc⟩⟩
        rw [hone]
        exact .inl rfl
      · rename_i hfind
        refine .inr ⟨fun n hn hc => ?_, rfl⟩
        exact List.find?_eq_none.mp hfind n hn ((hcalled n).mpr hc)

/-- A token keeps the plan sound and enters the nodes that it calls. -/
theorem Sound.token (hids : (nodes.map NodeCandidate.id).Nodup) (hc : Clear u input nodes)
    {token : Text} (htoken : token ∈ mentions u input nodes)
    (hC : ∀ n ∈ nodes, Called u token n → C n) (h : Sound nodes senderId C plan) :
    Sound nodes senderId C (resolveToken u nodes senderId plan token) ∧
      (∀ i ∈ plan.ids, i ∈ (resolveToken u nodes senderId plan token).ids) ∧
      ∀ n ∈ nodes, Called u token n → n.id ∈ (resolveToken u nodes senderId plan token).ids := by
  obtain he | ⟨hnone, he⟩ :=
    @resolveToken_cases u nodes senderId plan hids token (hc.single token htoken)
  · rw [he]
    refine ⟨h.foldl fun n hn => ?_, fun i hi => (mem_ids_foldl _).mpr (.inl hi),
      fun n hn hcalled => (mem_ids_foldl _).mpr (.inr ⟨n, ?_, rfl⟩)⟩
    · obtain ⟨hn, hcalled⟩ := List.mem_filter.mp hn
      exact ⟨hn, hC n hn (of_decide_eq_true hcalled)⟩
    · exact List.mem_filter.mpr ⟨hn, decide_eq_true hcalled⟩
  · rw [he]
    refine ⟨h.foreign (hc.unknown token htoken hnone) (by decide), fun i hi => ?_,
      fun n hn hcalled => absurd hcalled (hnone n hn)⟩
    rw [ids_skip]
    exact List.mem_append_left _ hi

theorem Sound.tokens (hids : (nodes.map NodeCandidate.id).Nodup) (hc : Clear u input nodes)
    {tokens : List Text} (htokens : ∀ t ∈ tokens, t ∈ mentions u input nodes)
    (hC : ∀ t ∈ tokens, ∀ n ∈ nodes, Called u t n → C n) (h : Sound nodes senderId C plan) :
    Sound nodes senderId C (tokens.foldl (resolveToken u nodes senderId) plan) ∧
      (∀ i ∈ plan.ids, i ∈ (tokens.foldl (resolveToken u nodes senderId) plan).ids) ∧
      ∀ t ∈ tokens, ∀ n ∈ nodes, Called u t n →
        n.id ∈ (tokens.foldl (resolveToken u nodes senderId) plan).ids := by
  induction tokens generalizing plan with
  | nil => exact ⟨h, fun _ hi => hi, fun t ht => absurd ht List.not_mem_nil⟩
  | cons t tokens ih =>
    obtain ⟨hsound, hkeep, henter⟩ :=
      h.token hids hc (htokens t List.mem_cons_self) (hC t List.mem_cons_self)
    obtain ⟨hsound', hkeep', henter'⟩ := ih (fun t ht => htokens t (List.mem_cons_of_mem _ ht))
      (fun t ht => hC t (List.mem_cons_of_mem _ ht)) hsound
    refine ⟨hsound', fun i hi => hkeep' i (hkeep i hi), fun s hs n hn hcalled => ?_⟩
    cases List.mem_cons.mp hs with
    | inl he => exact hkeep' _ (henter n hn (he ▸ hcalled))
    | inr hs => exact henter' s hs n hn hcalled

theorem sound_default : Sound nodes senderId C WakePlan.default where
  target _ h := absurd h List.not_mem_nil
  skip _ h := absurd h List.not_mem_nil
  once _ _ := Nat.zero_le 1

/-- A plan without mentions has one record at most. -/
theorem unaddressed_plan (input : WakeInput) (nodes : List NodeCandidate) :
    (resolveUnaddressed input nodes).ids.length ≤ 1 ∧
      ∀ i ∈ (resolveUnaddressed input nodes).targets,
        ∃ n ∈ nodes, n.id = i ∧ n.online = true ∧ n.id ≠ input.senderId := by
  have hskip : ∀ j reason, (WakePlan.default.skip j reason).ids.length ≤ 1 ∧
      ∀ i ∈ (WakePlan.default.skip j reason).targets,
        ∃ n ∈ nodes, n.id = i ∧ n.online = true ∧ n.id ≠ input.senderId := fun j reason =>
    ⟨Nat.le_refl 1, fun i hi => absurd hi List.not_mem_nil⟩
  unfold resolveUnaddressed
  split
  · exact ⟨Nat.zero_le 1, fun i hi => absurd hi List.not_mem_nil⟩
  · split
    · exact hskip _ _
    · rename_i assignee _
      split
      · exact hskip _ _
      · rename_i n hfind
        have hid : n.id = assignee := by simpa using List.find?_some hfind
        split
        · exact hskip _ _
        · rename_i hsender
          split
          · rename_i honline
            refine ⟨Nat.le_refl 1, fun i hi => ?_⟩
            rw [List.mem_singleton.mp hi]
            exact ⟨n, List.mem_of_find?_eq_some hfind, hid, honline, hsender⟩
          · exact hskip _ _

/-- What the plan and the workers are to agree on. -/
structure Agrees (u : Unicode) (input : WakeInput) (nodes : List NodeCandidate)
    (plan : WakePlan) : Prop where
  /-- A node that is woken or passed over as offline finds itself called. -/
  read : mentions u input nodes ≠ [] → ∀ n ∈ nodes,
    (n.id ∈ plan.targets ∨ ⟨n.id, .offline⟩ ∈ plan.skipped) →
      mentionsNode u input.content n.id n.name n.role n.category = true
  once : ∀ n ∈ nodes, plan.ids.count n.id ≤ 1
  sender : input.senderId ∉ plan.targets
  online : ∀ n ∈ nodes, n.online = false → n.id ∉ plan.targets
  woken : ∀ n ∈ nodes, n.online = true → n.id ≠ input.senderId →
    (∃ token ∈ mentions u input nodes, Called u token n) → n.id ∈ plan.targets

/-- The plan agrees with the workers when the readings of the message do not get in each
other's way. -/
theorem wake_plan_agrees (hids : (nodes.map NodeCandidate.id).Nodup)
    (hc : Clear u input nodes) : Agrees u input nodes (resolveWakeTargets u input nodes) := by
  have hunique : ∀ n ∈ nodes, ∀ m ∈ nodes, m.id = n.id → m = n := fun n hn m hm he =>
    List.inj_on_of_nodup_map hids hm hn he
  by_cases hnone : mentions u input nodes = []
  · obtain ⟨hlen, htargets⟩ := unaddressed_plan input nodes
    rw [resolveWakeTargets, if_pos hnone]
    refine ⟨fun h => absurd hnone h, fun n _ => List.count_le_length.trans hlen, fun hs => ?_,
      fun n hn hoff hi => ?_, fun n _ _ _ ⟨token, htoken, _⟩ => ?_⟩
    · obtain ⟨n, -, he, -, hne⟩ := htargets _ hs
      exact hne he
    · obtain ⟨m, hm, he, hon, -⟩ := htargets _ hi
      rw [hunique n hn m hm he, hoff] at hon
      cases hon
    · rw [hnone] at htoken
      cases htoken
  · rw [resolveWakeTargets, if_neg hnone]
    obtain ⟨hsound, -, henter⟩ := @Sound.tokens u input nodes input.senderId
      (fun n => ∃ token ∈ mentions u input nodes, Called u token n) WakePlan.default hids hc
      (mentions u input nodes) (fun _ h => h) (fun t ht n _ hcalled => ⟨t, ht, hcalled⟩)
      sound_default
    have hread : ∀ n ∈ nodes, n.id ≠ input.senderId →
        (∃ token ∈ mentions u input nodes, Called u token n) →
          mentionsNode u input.content n.id n.name n.role n.category = true := by
      rintro n hn hsender ⟨token, htoken, hcalled⟩
      obtain ⟨rest, hrest, hat⟩ := mem_mentions.mp htoken
      obtain ⟨own, hown, hcalled'⟩ := reads_alike hids hc hrest hat hn hsender hcalled
      exact mentionsNode_iff.mpr ⟨rest, hrest, own, hown, hcalled'⟩
    refine ⟨fun _ n hn hor => ?_, hsound.once, fun hs => ?_, fun n hn hoff hi => ?_,
      fun n hn hon hsender ⟨token, htoken, hcalled⟩ => ?_⟩
    · cases hor with
      | inl hi =>
        obtain ⟨m, hm, he, hC, -, hsender⟩ := hsound.target _ hi
        obtain rfl := hunique n hn m hm he
        exact hread m hn hsender hC
      | inr hr =>
        obtain ⟨m, hm, he, hC, hreason⟩ | ⟨hne, -⟩ := hsound.skip _ hr
        · obtain rfl := hunique n hn m hm he
          obtain ⟨hreason, -⟩ | ⟨-, -, hsender⟩ := hreason
          · cases hreason
          · exact hread m hn hsender hC
        · exact absurd rfl hne
    · obtain ⟨n, -, he, -, -, hne⟩ := hsound.target _ hs
      exact hne he
    · obtain ⟨m, hm, he, -, hon, -⟩ := hsound.target _ hi
      rw [hunique n hn m hm he, hoff] at hon
      cases hon
    · refine (mem_ids.mp (henter token htoken n hn hcalled)).resolve_right fun hskip => ?_
      obtain ⟨r, hr, he⟩ := List.mem_map.mp hskip
      obtain ⟨m, hm, hmid, -, hreason⟩ | ⟨-, hforeign⟩ := hsound.skip r hr
      · obtain rfl := hunique n hn m hm (hmid.trans he)
        obtain ⟨-, hs⟩ | ⟨-, hoff, -⟩ := hreason
        · exact hsender hs
        · rw [hoff] at hon
          cases hon
      · exact hforeign n hn he.symm

end

def plainUnicode : Unicode := ⟨List.map Char.toLower, isAsciiAlphanumeric⟩

/-- The roster searched name by name. -/
theorem rosterHit_eq_foldr (u : Unicode) (names : List Text) (rest : Text) :
    rosterHit u names rest = names.foldr (fun name o => better List.length
      (if name ≠ [] ∧ bites u rest name then some name else none) o) none := by
  induction names with
  | nil => exact longest_nil
  | cons name names ih =>
    rw [List.foldr_cons, ← ih]
    by_cases hne : name = []
    · simp [rosterHit, hne, better]
    · rw [rosterHit, List.filter_cons_of_pos (by simpa using hne), longest_cons, found]
      simp only [hne, ne_eq, not_false_eq_true, true_and]
      rfl

def bob : NodeCandidate := ⟨"n2".toList, "Bob".toList, "worker".toList, "qa".toList, true⟩

/-- A node whose name reads as a call of a role. -/
def roleNamed : NodeCandidate :=
  ⟨"n1".toList, "role:qa".toList, "worker".toList, "dev".toList, true⟩

def say (content : String) : WakeInput := ⟨channel, content.toList, "admin".toList, none⟩

theorem wake_plan_agrees_bob :
    Agrees plainUnicode (say "hello @bob") [bob]
      (resolveWakeTargets plainUnicode (say "hello @bob") [bob]) := by
  have hopen : openings plainUnicode none (say "hello @bob").content = ["bob".toList] := by decide
  have hhit : rosterHit plainUnicode (roster [bob]) "bob".toList = some "Bob".toList := by
    rw [rosterHit_eq_foldr]
    decide
  have hment : mentions plainUnicode (say "hello @bob") [bob] = ["Bob".toList] := by
    rw [mentions, extractMentionsWithRoster, hopen, List.filterMap_cons, mentionAt, hhit]
    rfl
  refine wake_plan_agrees (by decide) ⟨?_, ?_, ?_⟩
  · intro rest hrest name hname hbroad
    rw [hopen, List.mem_singleton] at hrest
    rw [hrest, hhit, Option.mem_some] at hname
    exact absurd hbroad (hname ▸ by decide)
  · intro token htoken hnone
    rw [hment, List.mem_singleton] at htoken
    exact absurd (by rw [htoken]; decide) (hnone bob (List.mem_singleton_self bob))
  · intro token _ _ n hn m hm _ _
    rw [List.mem_singleton.mp hn, List.mem_singleton.mp hm]

/-- The master reads the name of a node and wakes a role; the worker of that role reads another
one. -/
theorem wake_plan_disagrees :
    ¬ ∀ input nodes, (nodes.map NodeCandidate.id).Nodup →
      Agrees plainUnicode input nodes (resolveWakeTargets plainUnicode input nodes) := by
  intro h
  have hopen : openings plainUnicode none (say "@role:qa-x").content = ["role:qa-x".toList] := by
    decide
  have hment : mentions plainUnicode (say "@role:qa-x") [roleNamed, bob] = ["role:qa".toList] := by
    have hhit : rosterHit plainUnicode (roster [roleNamed, bob]) "role:qa-x".toList =
        some "role:qa".toList := by
      rw [rosterHit_eq_foldr]
      decide
    rw [mentions, extractMentionsWithRoster, hopen, List.filterMap_cons, mentionAt, hhit]
    rfl
  have hread : mentionsNode plainUnicode (say "@role:qa-x").content bob.id bob.name bob.role
      bob.category = false := by
    have hhit : rosterHit plainUnicode [bob.id, bob.name] "role:qa-x".toList = none := by
      rw [rosterHit_eq_foldr]
      decide
    rw [mentionsNode, extractMentionsWithRoster, hopen, List.filterMap_cons, mentionAt, hhit]
    decide
  have hwoken : bob.id ∈ (resolveWakeTargets plainUnicode (say "@role:qa-x")
      [roleNamed, bob]).targets := by
    rw [resolveWakeTargets, hment]
    decide
  have hagree := (h (say "@role:qa-x") [roleNamed, bob] (by decide)).read (by rw [hment]; simp) bob
    (by simp) (.inl hwoken)
  rw [hread] at hagree
  cases hagree

end NemesisBot.Arbitrator

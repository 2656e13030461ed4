import NemesisBot.Board.DispatchRuns
import NemesisBot.Lib.Cycles

/-! Issues hang under their parents, and as long as the chains are short enough for the store's walk
they never close to a circle. -/
namespace NemesisBot.IssueStore
open Strings Runs Cycles

def IsParent (issues : Table Issue.id) (id p : Nat) : Prop := parentOf issues id = some p

/-- The parents are issues, and no issue is above itself. -/
structure Forest (db : Db) : Prop where
  acyclic : Acyclic (IsParent db.issues)
  there : ∀ id p, parentOf db.issues id = some p → (db.issues.find p).isSome = true
  known : ∀ id, (db.issues.find id).isSome = true → id ≤ db.issueSeq

/-- The chain of parents ends before the walk does. -/
def endsWithin (issues : Table Issue.id) : Nat → Nat → Bool
  | 0, _ => false
  | fuel + 1, cursor => match parentOf issues cursor with
    | none => true
    | some next => endsWithin issues fuel next

/-- A new parent is one whose chain the walk sees to its end. -/
def shallow (db : Db) : Call → Bool
  | .update _ patch _ => patch.parentIssueId.all fun p => endsWithin db.issues 64 p
  | _ => true

variable {issues : Table Issue.id} {db db' : Db}

/-- A walk that has seen the whole chain has seen all that is above. -/
theorem not_above {self fuel cursor : Nat}
    (hmeets : meetsSelf issues (some self) fuel cursor = false)
    (hends : endsWithin issues fuel cursor = true) :
    ¬ Relation.TransGen (IsParent issues) cursor self := by
  induction fuel generalizing cursor with
  | zero => cases hends
  | succ fuel ih =>
    intro habove
    obtain ⟨next, hnext, hrest⟩ := Relation.TransGen.head'_iff.mp habove
    rw [meetsSelf, hnext] at hmeets
    rw [endsWithin, hnext] at hends
    dsimp only at hmeets hends
    split at hmeets
    · cases hmeets
    · rename_i hself
      cases Relation.reflTransGen_iff_eq_or_transGen.mp hrest with
      | inl heq => exact hself (by rw [heq])
      | inr hrest => exact ih hmeets hends hrest

/-- A check that was passed. -/
theorem of_unless {α : Type} {c : Prop} [Decidable c] {e : Text} {a : α}
    {f : Unit → Except Text α} (h : (if c then Except.error e >>= f else f ()) = .ok a) :
    ¬ c ∧ f () = .ok a := by
  split at h
  · cases h
  · exact ⟨‹_›, h⟩

theorem of_validateIssueRefs {p : Nat} {project self : Option Nat}
    (h : validateIssueRefs db (some p) project self = .ok ()) :
    some p ≠ self ∧ (db.issues.find p).isSome = true ∧ meetsSelf db.issues self 64 p = false := by
  unfold validateIssueRefs at h
  dsimp only at h
  obtain ⟨hself, h⟩ := of_unless h
  obtain ⟨hthere, h⟩ := of_unless h
  obtain ⟨hmeets, -⟩ := of_unless h
  exact ⟨hself, Option.isSome_iff_ne_none.mpr (by simpa using hthere), by simpa using hmeets⟩

/-- What a call can do to the parents. -/
inductive TreeMoved (db db' : Db) (c : Call) : Prop
  | same (h : SameTree db db')
  | created (issue : Issue) (hid : issue.id = db.issueSeq + 1)
      (hparent : ∀ p, issue.parentIssueId = some p → (db.issues.find p).isSome = true)
      (hissues : db'.issues = db.issues.insert issue) (hseq : db'.issueSeq = db.issueSeq + 1)
  | hung (id p : Nat) (f : Table.Setter Issue.id)
      (hchain : shallow db c = true → endsWithin db.issues 64 p = true) (hself : p ≠ id)
      (hthere : (db.issues.find p).isSome = true)
      (hmeets : meetsSelf db.issues (some id) 64 p = false)
      (hf : ∀ i, (f.set i).parentIssueId = some p)
      (hissues : db'.issues = db.issues.update (Table.hasKey Issue.id id) f)
      (hseq : db'.issueSeq = db.issueSeq)

theorem Forest.same (h : Forest db) (hsame : SameTree db db') : Forest db' := by
  refine ⟨h.acyclic.mono fun id p hp => ?_, fun id p hp => ?_, fun id hid => ?_⟩
  · exact (hsame.parent id).symm.trans hp
  · rw [hsame.there]
    exact h.there id p ((hsame.parent id).symm.trans hp)
  · rw [hsame.issueSeq]
    exact h.known id (hsame.there id ▸ hid)

theorem Forest.created (h : Forest db) {issue : Issue} (hid : issue.id = db.issueSeq + 1)
    (hparent : ∀ p, issue.parentIssueId = some p → (db.issues.find p).isSome = true)
    (hissues : db'.issues = db.issues.insert issue) (hseq : db'.issueSeq = db.issueSeq + 1) :
    Forest db' := by
  have hfresh : db.issues.find issue.id = none := by
    cases hfind : db.issues.find issue.id with
    | none => rfl
    | some i =>
      have := h.known issue.id (by rw [hfind]; rfl)
      omega
  have hfind (id : Nat) : db'.issues.find id =
      if id = issue.id then some issue else db.issues.find id := by
    rw [hissues, Table.find_insert]
    split
    · rename_i hsame
      rw [hsame, hfresh]
      rfl
    · rfl
  have hkept {id : Nat} (hthere : (db.issues.find id).isSome = true) :
      (db'.issues.find id).isSome = true := by
    rw [hfind]
    split
    · rfl
    · exact hthere
  have hedge (id p : Nat) (hp : parentOf db'.issues id = some p) :
      parentOf db.issues id = some p ∨ id = issue.id ∧ issue.parentIssueId = some p := by
    rw [parentOf, hfind] at hp
    split at hp
    · exact .inr ⟨‹_›, hp⟩
    · exact .inl hp
  refine ⟨?_, fun id p hp => ?_, fun id hid' => ?_⟩
  · cases hnone : issue.parentIssueId with
    | none =>
      refine h.acyclic.mono fun id p hp => ?_
      cases hedge id p hp with
      | inl hp => exact hp
      | inr hp => rw [hnone] at hp; cases hp.2
    | some q =>
      refine h.acyclic.redirect (a := issue.id) (b := q) (fun habove => ?_) fun id p hp => ?_
      · -- nothing is under an issue that was not there
        have hthere : (db.issues.find issue.id).isSome = true := by
          cases Relation.ReflTransGen.cases_tail habove with
          | inl heq => exact heq ▸ hparent q hnone
          | inr hlast =>
            obtain ⟨mid, -, hmid⟩ := hlast
            exact h.there mid _ hmid
        rw [hfresh] at hthere
        cases hthere
      · cases hedge id p hp with
        | inl hp => exact .inl hp
        | inr hp => exact .inr ⟨hp.1, Option.some.inj (hp.2.symm.trans hnone)⟩
  · cases hedge id p hp with
    | inl hp => exact hkept (h.there id p hp)
    | inr hp => exact hkept (hparent p hp.2)
  · rw [hfind] at hid'
    split at hid'
    · omega
    · have := h.known id hid'
      omega

theorem Forest.hung (h : Forest db) {id p : Nat} {f : Table.Setter Issue.id}
    (hchain : endsWithin db.issues 64 p = true) (hself : p ≠ id)
    (hthere : (db.issues.find p).isSome = true)
    (hmeets : meetsSelf db.issues (some id) 64 p = false)
    (hf : ∀ i, (f.set i).parentIssueId = some p)
    (hissues : db'.issues = db.issues.update (Table.hasKey Issue.id id) f)
    (hseq : db'.issueSeq = db.issueSeq) : Forest db' := by
  have hsome (k : Nat) : (db'.issues.find k).isSome = (db.issues.find k).isSome := by
    rw [hissues, Table.find_update, Option.isSome_map]
  have hedge (k q : Nat) (hq : parentOf db'.issues k = some q) :
      parentOf db.issues k = some q ∨ k = id ∧ q = p := by
    rw [parentOf, hissues, Table.find_update] at hq
    cases hfind : db.issues.find k with
    | none =>
      rw [hfind] at hq
      cases hq
    | some i =>
      rw [hfind, Option.map_some, Option.bind_some] at hq
      split at hq
      · rename_i hkey
        have hkey : i.id = id := of_decide_eq_true hkey
        exact .inr ⟨(Table.key_of_find hfind).symm.trans hkey,
          Option.some.inj (hq.symm.trans (hf i))⟩
      · exact .inl (by rw [parentOf, hfind]; exact hq)
  refine ⟨h.acyclic.redirect (a := id) (b := p) (fun habove => ?_) hedge, fun k q hq => ?_,
    fun k hk => ?_⟩
  · cases Relation.reflTransGen_iff_eq_or_transGen.mp habove with
    | inl heq => exact hself heq.symm
    | inr habove => exact not_above hmeets hchain habove
  · rw [hsome]
    cases hedge k q hq with
    | inl hq => exact h.there k q hq
    | inr hq => exact hq.2 ▸ hthere
  · rw [hseq]
    exact h.known k (hsome k ▸ hk)

theorem Forest.moved (h : Forest db) {c : Call} (hmoved : TreeMoved db db' c)
    (hshallow : shallow db c = true) : Forest db' := by
  cases hmoved with
  | same hsame => exact h.same hsame
  | created issue hid hparent hissues hseq => exact h.created hid hparent hissues hseq
  | hung id p f hchain hself hthere hmeets hf hissues hseq =>
    exact h.hung (hchain hshallow) hself hthere hmeets hf hissues hseq

/-! The calls. -/

variable {s s' : State} {c : Call} {K : Db → Prop}

theorem treeMoved_keep {r : Except Text Db} (h : Leaves K r)
    (hK : ∀ mid, K mid → TreeMoved db mid c) : TreeMoved db (keep db r) c := by
  cases r with
  | error e => exact .same (.refl db)
  | ok mid => exact hK mid (h mid rfl)

theorem treeMoved_frame {r : Except Text Db} (h : Leaves (Frame db) r) :
    TreeMoved db (keep db r) c := treeMoved_keep h fun _ hmid => .same hmid.toSameTree

/-- Calls on dispatches leave the issues alone. -/
theorem sameTree_of_issues {mid : Db} (hissues : mid.issues = db.issues)
    (hseq : mid.issueSeq = db.issueSeq) : SameTree db mid :=
  ⟨fun _ => by rw [hissues], fun _ => by rw [hissues], hseq⟩

theorem sameTree_endDispatch {taskId : Text} {p : DispatchRecord → Bool} {state : DispatchState}
    {now : Int} {mid : Db} (h : endDispatch db taskId p state now = some mid) :
    SameTree db mid := by
  rw [endDispatch] at h
  split at h
  · obtain rfl := Option.some.inj h
    exact sameTree_of_issues rfl rfl
  · cases h

theorem sameTree_auditEnd {mid : Db} (h : SameTree db mid) (taskId : Text) (actor : Actor)
    (action : Text) (details : Json) (now : Int) :
    SameTree db (auditEnd mid taskId actor action details now) := by
  rw [auditEnd]
  split
  · exact ⟨h.parent, h.there, h.issueSeq⟩
  · exact h

theorem sameTree_tryClaim (taskId : Text) (issueId : Nat) (workerId : Text) (actor : Actor)
    (audited : Bool) (sql : Text) (now : Int) :
    SameTree db (tryClaimDispatch db taskId issueId workerId actor audited sql now).2 := by
  rw [tryClaimDispatch]
  split_ifs
  · exact .refl db
  · exact .refl db
  · exact sameTree_of_issues rfl rfl
  · exact sameTree_of_issues rfl rfl

theorem sameTree_markRunning (taskId workerId : Text) :
    SameTree db (markDispatchRunning db taskId workerId).1 := by
  rw [markDispatchRunning]
  split
  · exact sameTree_of_issues rfl rfl
  · exact .refl db

theorem sameTree_finish (taskId : Text) (state : DispatchState) (now : Int) :
    SameTree s.db (match finishDispatch s.db taskId state now with
      | .ok (db, ended) => told s taskId db ended
      | .error _ => s).db := by
  rw [finishDispatch]
  split_ifs
  · exact .refl s.db
  · cases hend : endDispatch s.db taskId (fun _ => true) state now with
    | some mid => exact sameTree_endDispatch hend
    | none => exact .refl s.db

theorem sameTree_cancel (taskId : Text) (actor : Actor) (now : Int) :
    SameTree db (cancelDispatch db taskId actor now).1 := by
  rw [cancelDispatch]
  cases hend : endDispatch db taskId (fun _ => true) .cancelled now with
  | some mid => exact sameTree_auditEnd (sameTree_endDispatch hend) _ _ _ _ _
  | none => exact .refl db

theorem sameTree_fail (taskId details : Text) (expected : Option Nat) (now : Int) :
    SameTree db (failDispatch db taskId details expected now).1 := by
  rw [failDispatch]
  cases hend : endDispatch db taskId (fun d => expected.all (d.generation = ·)) .failed now with
  | some mid => exact sameTree_auditEnd (sameTree_endDispatch hend) _ _ _ _ _
  | none => exact .refl db

theorem treeMoved_create (generate : Text → Text → Option Text) (new : NewIssue) (now : Int) :
    TreeMoved db (keep db (createIssue generate db new now)) (.create new) := by
  refine treeMoved_keep (leaves_createIssue generate new now) fun mid hmid => ?_
  obtain ⟨-, issue, hid, hrefs, hissues, hseq⟩ := hmid
  refine .created issue hid (fun p hp => ?_) hissues hseq
  rw [hp] at hrefs
  exact (of_validateIssueRefs hrefs).2.1

theorem treeMoved_update (id : Nat) (patch : IssuePatch) (actor : Actor) (now : Int) :
    TreeMoved db (keep db (updateIssue db id patch actor now)) (.update id patch actor) := by
  refine treeMoved_keep (leaves_updateIssue id patch actor now) fun mid hmid => ?_
  cases hmid with
  | inl hframe => exact .same hframe.toSameTree
  | inr hhung =>
    obtain ⟨-, p, project, f, hp, hrefs, hf, hissues, hseq⟩ := hhung
    obtain ⟨hself, hthere, hmeets⟩ := of_validateIssueRefs hrefs
    refine .hung id p f (fun hshallow => ?_) (fun heq => hself (by rw [heq])) hthere hmeets hf
      hissues hseq
    simpa [shallow, hp] using hshallow

theorem treeMoved_exec (generate : Text → Text → Option Text) (c : Call) (now : Int) :
    TreeMoved s.db (exec generate s now c).db c := by
  cases c with
  | create new => exact treeMoved_create generate new now
  | update id patch actor => exact treeMoved_update id patch actor now
  | transition id dst actor audited =>
    exact treeMoved_frame (leaves_transitionIssue id dst actor audited now)
  | move id dst position actor => exact treeMoved_frame (leaves_moveIssue id dst position actor now)
  | reopen id actor => exact treeMoved_frame (leaves_reopenIssue id actor now)
  | bulkArchive ids actor => exact treeMoved_frame (leaves_bulkArchiveCancelled actor now ids)
  | assign id assignee assigneeId actor =>
    exact treeMoved_frame (leaves_assignIssue id assignee assigneeId actor now)
  | claim id claimer actor => exact treeMoved_frame (leaves_claimIssue id claimer actor now)
  | rollbackClaim id claimer actor =>
    exact .same (frame_rollbackClaim id claimer actor now).toSameTree
  | rollbackDecision activityId => exact treeMoved_frame (leaves_rollbackDecision activityId now)
  | rollbackDone issueId reason =>
    exact treeMoved_frame (leaves_rollbackDoneToInReview issueId reason now)
  | addActivity issueId actor action details =>
    exact .same (frame_addActivity issueId actor action details now).toSameTree
  | setDependencies issueId dependsOn =>
    exact treeMoved_frame (leaves_setIssueDependencies issueId dependsOn)
  | tryClaimDispatch taskId issueId workerId actor audited sql =>
    exact .same (sameTree_tryClaim taskId issueId workerId actor audited sql now)
  | markRunning taskId workerId => exact .same (sameTree_markRunning taskId workerId)
  | finish taskId state => exact .same (sameTree_finish taskId state now)
  | cancel taskId actor => exact .same (sameTree_cancel taskId actor now)
  | fail taskId details expected => exact .same (sameTree_fail taskId details expected now)
  | rollbackDispatch id prevStatus prevAssignee prevAssigneeId actor =>
    exact treeMoved_frame
      (leaves_rollbackDispatchFailure id prevStatus prevAssignee prevAssigneeId actor now)

theorem forest_init (numberPrefix : Text) (projects : List Nat) :
    Forest (State.init numberPrefix projects).db := by
  refine ⟨fun id habove => ?_, fun id p hp => ?_, fun id hid => ?_⟩
  · obtain ⟨p, hp, -⟩ := Relation.TransGen.head'_iff.mp habove
    cases hp
  · cases hp
  · cases hid

/-- As long as an issue is only hung under one whose chain of parents the walk sees to its end,
every parent is an issue and no issue is above itself, whatever else the store is asked to do. -/
theorem parents_acyclic (generate : Text → Text → Option Text) (numberPrefix : Text)
    (projects : List Nat) (cs : List (Call × Int))
    (hshallow : Along (step generate) (fun m c => shallow m.db c.1 = true)
      (State.init numberPrefix projects) cs)
    (h : run (step generate) (State.init numberPrefix projects) cs = some s) : Forest s.db := by
  have hkept (m : State) (c : Call × Int) (t : State) (hm : Forest m.db)
      (hc : shallow m.db c.1 = true) (hstep : step generate m c = some t) : Forest t.db := by
    obtain rfl := Option.some.inj hstep
    exact hm.moved (treeMoved_exec generate c.1 c.2) hc
  exact run_invariant hkept (forest_init numberPrefix projects) hshallow h

def under (p : Nat) : IssuePatch := ⟨none, none, none, none, none, none, none, some p⟩

/-- The third issue goes under the second, and the first may not go under the third. -/
def hangingCalls : List (Call × Int) :=
  [(.create plainIssue, 0), (.create { plainIssue with parentIssueId := some 1 }, 1),
   (.create plainIssue, 2), (.update 3 (under 2) master, 3), (.update 1 (under 3) master, 4)]

theorem parents_acyclic_hanging : ∃ s : State,
    run (step fun _ _ => none) (State.init "NB".toList []) hangingCalls = some s ∧
    [1, 2, 3].map (parentOf s.db.issues) = [none, some 1, some 2] ∧ Forest s.db :=
  ⟨_, rfl, by decide +kernel,
    parents_acyclic (fun _ _ => none) "NB".toList [] hangingCalls (by decide +kernel) rfl⟩

end NemesisBot.IssueStore

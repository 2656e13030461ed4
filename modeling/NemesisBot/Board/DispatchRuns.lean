import NemesisBot.Board.Dispatches

/-! What the store keeps of the dispatches, in whatever order its calls come. -/
namespace NemesisBot.IssueStore
open Strings Runs

/-- A dispatch stays with its worker and its number, is not sent twice, and does not change once
it is over. -/
structure DispatchRecord.Later (d d' : DispatchRecord) : Prop where
  taskId : d'.taskId = d.taskId
  issueId : d'.issueId = d.issueId
  workerId : d'.workerId = d.workerId
  dispatchedAt : d'.dispatchedAt = d.dispatchedAt
  generation : d'.generation = d.generation
  running : d.state = .running → d'.state ≠ .dispatched
  final : d.state.active = false → d' = d

/-- Rows stay in their places. -/
def Later (rows rows' : List DispatchRecord) : Prop :=
  ∀ (i : Nat) d, rows[i]? = some d → ∃ d', rows'[i]? = some d' ∧ d.Later d'

def ofIssue (rows : List DispatchRecord) (issueId : Nat) : List DispatchRecord :=
  rows.filter fun d => d.issueId = issueId

/-- The dispatches of an issue are numbered in order and only the last can be on its way; each that
is over has one call that was told so. -/
structure Accounts (s : State) : Prop where
  numbered : ∀ issueId, (ofIssue s.db.dispatches.rows issueId).map DispatchRecord.generation =
    List.range (ofIssue s.db.dispatches.rows issueId).length
  alone : ∀ issueId, ∀ d ∈ (ofIssue s.db.dispatches.rows issueId).dropLast, d.state.active = false
  completed : ∀ d ∈ s.db.dispatches.rows, d.completedAt.isSome = !d.state.active
  once : s.ended.Nodup
  told : ∀ taskId, taskId ∈ s.ended ↔
    ∃ d ∈ s.db.dispatches.rows, d.taskId = taskId ∧ d.state.active = false

theorem DispatchRecord.Later.refl (d : DispatchRecord) : d.Later d :=
  ⟨rfl, rfl, rfl, rfl, rfl, fun h => h ▸ by decide, fun _ => rfl⟩

theorem DispatchRecord.Later.trans {a b c : DispatchRecord} (hab : a.Later b) (hbc : b.Later c) :
    a.Later c := by
  refine ⟨hbc.taskId.trans hab.taskId, hbc.issueId.trans hab.issueId,
    hbc.workerId.trans hab.workerId, hbc.dispatchedAt.trans hab.dispatchedAt,
    hbc.generation.trans hab.generation, fun hrun => ?_, fun hover => ?_⟩
  · cases hb : b.state with
    | dispatched => exact absurd hb (hab.running hrun)
    | running => exact hbc.running hb
    | done | failed | cancelled =>
      have hsame := hbc.final (by rw [hb]; rfl)
      rw [hsame, hb]
      decide
  · have hsame := hab.final hover
    exact (hbc.final (hsame ▸ hover)).trans hsame

theorem Later.refl (rows : List DispatchRecord) : Later rows rows :=
  fun _ d hd => ⟨d, hd, .refl d⟩

theorem Later.trans {a b c : List DispatchRecord} (hab : Later a b) (hbc : Later b c) :
    Later a c := by
  intro i d hd
  obtain ⟨d', hd', h⟩ := hab i d hd
  obtain ⟨d'', hd'', h'⟩ := hbc i d' hd'
  exact ⟨d'', hd'', h.trans h'⟩

theorem Later.concat (rows : List DispatchRecord) (d : DispatchRecord) :
    Later rows (rows ++ [d]) := by
  intro i x hx
  have hlt : i < rows.length := (List.getElem?_eq_some_iff.mp hx).1
  exact ⟨x, by rw [List.getElem?_append_left hlt, hx], .refl x⟩

/-- What a call can do to the dispatches. -/
inductive Moved (s s' : State) : Prop
  | same (hrows : s'.db.dispatches = s.db.dispatches) (hended : s'.ended = s.ended)
  | claimed (d : DispatchRecord) (hidle : hasActiveDispatch s.db d.issueId = false)
      (hnew : s.db.dispatches.find d.taskId = none)
      (hgeneration : d.generation = currentGeneration s.db d.issueId)
      (hstate : d.state = .dispatched) (hopen : d.completedAt = none)
      (hrows : s'.db.dispatches = s.db.dispatches.insert d) (hended : s'.ended = s.ended)
  | started (hit : DispatchRecord → Bool) (hhit : ∀ d, hit d = true → d.state = .dispatched)
      (hrows : s'.db.dispatches = s.db.dispatches.update hit setRunning)
      (hended : s'.ended = s.ended)
  | finished (hit : DispatchRecord → Bool) (d : DispatchRecord) (state : DispatchState) (now : Int)
      (hstate : state.active = false) (hd : d ∈ s.db.dispatches.rows)
      (hhit : ∀ x, hit x = true → x.taskId = d.taskId ∧ x.state.active = true) (hitd : hit d = true)
      (hrows : s'.db.dispatches = s.db.dispatches.update hit (setOver state now))
      (hended : s'.ended = d.taskId :: s.ended)

/-! Each of the four keeps the accounts. -/

variable {s s' : State} {db : Db}

theorem ofIssue_map {g : DispatchRecord → DispatchRecord} (hg : ∀ d, (g d).issueId = d.issueId)
    (rows : List DispatchRecord) (issueId : Nat) :
    ofIssue (rows.map g) issueId = (ofIssue rows issueId).map g := by
  rw [ofIssue, ofIssue, List.filter_map]
  congr 1
  exact List.filter_congr fun d _ => by simp [hg]

/-- Rows are rewritten in place. -/
theorem numbered_map {rows : List DispatchRecord} {g : DispatchRecord → DispatchRecord}
    (hissue : ∀ d, (g d).issueId = d.issueId) (hnumber : ∀ d, (g d).generation = d.generation)
    {issueId : Nat} (h : (ofIssue rows issueId).map DispatchRecord.generation =
      List.range (ofIssue rows issueId).length) :
    (ofIssue (rows.map g) issueId).map DispatchRecord.generation =
      List.range (ofIssue (rows.map g) issueId).length := by
  rw [ofIssue_map hissue, List.map_map, List.length_map, ← h]
  exact List.map_congr_left fun d _ => hnumber d

theorem alone_map {rows : List DispatchRecord} {g : DispatchRecord → DispatchRecord}
    (hissue : ∀ d, (g d).issueId = d.issueId) (hover : ∀ d, d.state.active = false → g d = d)
    {issueId : Nat} (h : ∀ d ∈ (ofIssue rows issueId).dropLast, d.state.active = false) :
    ∀ d ∈ (ofIssue (rows.map g) issueId).dropLast, d.state.active = false := by
  intro d hd
  rw [ofIssue_map hissue, ← List.map_dropLast] at hd
  obtain ⟨x, hx, rfl⟩ := List.mem_map.mp hd
  rw [hover x (h x hx)]
  exact h x hx

theorem later_map {rows : List DispatchRecord} {g : DispatchRecord → DispatchRecord}
    (hg : ∀ d ∈ rows, d.Later (g d)) : Later rows (rows.map g) := by
  intro i d hd
  exact ⟨g d, by rw [List.getElem?_map, hd]; rfl, hg d (List.mem_of_getElem? hd)⟩

theorem later_setRunning {d : DispatchRecord} (h : d.state = .dispatched) :
    d.Later (setRunning.set d) := by
  refine ⟨rfl, rfl, rfl, rfl, rfl, fun _ => by simp [setRunning], fun hfinal => ?_⟩
  rw [h] at hfinal
  cases hfinal

theorem later_setOver {d : DispatchRecord} {state : DispatchState} (now : Int)
    (h : d.state.active = true) (hstate : state.active = false) :
    d.Later ((setOver state now).set d) := by
  refine ⟨rfl, rfl, rfl, rfl, rfl, fun _ hsent => ?_, fun hfinal => ?_⟩
  · have hsent : state = .dispatched := hsent
    rw [hsent] at hstate
    cases hstate
  · rw [h] at hfinal
    cases hfinal

/-- A table whose rows change as `Later` allows keeps numbers and order of the dispatches. -/
theorem Accounts.rewritten (h : Accounts s) {hit : DispatchRecord → Bool}
    {f : Table.Setter DispatchRecord.taskId}
    (hlater : ∀ d, hit d = true → d.Later (f.set d))
    (hcompleted : ∀ d, hit d = true → d.completedAt.isSome = !d.state.active →
      (f.set d).completedAt.isSome = !(f.set d).state.active)
    (hrows : s'.db.dispatches = s.db.dispatches.update hit f) (honce : s'.ended.Nodup)
    (htold : ∀ taskId, taskId ∈ s'.ended ↔ ∃ d ∈ s.db.dispatches.rows, d.taskId = taskId ∧
      (if hit d then f.set d else d).state.active = false) :
    Accounts s' ∧ Later s.db.dispatches.rows s'.db.dispatches.rows := by
  have hmap : s'.db.dispatches.rows =
      s.db.dispatches.rows.map fun d => if hit d then f.set d else d := by
    rw [hrows]
    rfl
  have hone (d : DispatchRecord) : d.Later (if hit d then f.set d else d) := by
    split
    · exact hlater d ‹_›
    · exact .refl d
  refine ⟨⟨fun issueId => ?_, fun issueId => ?_, fun d hd => ?_, honce, fun taskId => ?_⟩, ?_⟩
  · rw [hmap]
    exact numbered_map (fun d => (hone d).issueId) (fun d => (hone d).generation)
      (h.numbered issueId)
  · rw [hmap]
    exact alone_map (fun d => (hone d).issueId) (fun d => (hone d).final) (h.alone issueId)
  · rw [hmap] at hd
    obtain ⟨x, hx, rfl⟩ := List.mem_map.mp hd
    split
    · exact hcompleted x ‹_› (h.completed x hx)
    · exact h.completed x hx
  · rw [htold, hmap]
    constructor
    · rintro ⟨d, hd, hkey, hfinal⟩
      exact ⟨_, List.mem_map.mpr ⟨d, hd, rfl⟩, (hone d).taskId.trans hkey, hfinal⟩
    · rintro ⟨d', hd', hkey, hfinal⟩
      obtain ⟨d, hd, rfl⟩ := List.mem_map.mp hd'
      exact ⟨d, hd, (hone d).taskId.symm.trans hkey, hfinal⟩
  · rw [hmap]
    exact later_map fun d _ => hone d

theorem Accounts.claim (h : Accounts s) {d : DispatchRecord}
    (hidle : hasActiveDispatch s.db d.issueId = false)
    (hnew : s.db.dispatches.find d.taskId = none)
    (hgeneration : d.generation = currentGeneration s.db d.issueId)
    (hstate : d.state = .dispatched) (hopen : d.completedAt = none)
    (hrows : s'.db.dispatches = s.db.dispatches.insert d) (hended : s'.ended = s.ended) :
    Accounts s' ∧ Later s.db.dispatches.rows s'.db.dispatches.rows := by
  have hconcat : s'.db.dispatches.rows = s.db.dispatches.rows ++ [d] := by
    rw [hrows, Table.insert_of_none hnew]
  have hactive : d.state.active = true := by rw [hstate]; rfl
  have hof (issueId : Nat) : ofIssue s'.db.dispatches.rows issueId =
      ofIssue s.db.dispatches.rows issueId ++ if d.issueId = issueId then [d] else [] := by
    rw [hconcat, ofIssue, List.filter_append, ofIssue]
    congr 1
    by_cases hissue : d.issueId = issueId <;> simp [hissue]
  have hover {issueId : Nat} (hissue : d.issueId = issueId) :
      ∀ x ∈ ofIssue s.db.dispatches.rows issueId, x.state.active = false := by
    intro x hx
    obtain ⟨hx, hxi⟩ := List.mem_filter.mp hx
    have hno := List.any_eq_false.mp hidle x hx
    have hxi : x.issueId = d.issueId := (of_decide_eq_true hxi).trans hissue.symm
    simpa [hxi] using hno
  refine ⟨⟨fun issueId => ?_, fun issueId x hx => ?_, fun x hx => ?_, hended ▸ h.once,
    fun taskId => ?_⟩, hconcat ▸ .concat _ d⟩
  · rw [hof]
    split
    · rename_i hissue
      rw [List.map_append, h.numbered, List.length_append, List.length_singleton, List.range_succ,
        List.map_singleton, hgeneration, hissue]
      rfl
    · rw [List.append_nil]
      exact h.numbered issueId
  · rw [hof] at hx
    split at hx
    · rename_i hissue
      rw [List.dropLast_concat] at hx
      exact hover hissue x hx
    · rw [List.append_nil] at hx
      exact h.alone issueId x hx
  · rw [hconcat] at hx
    cases List.mem_append.mp hx with
    | inl hx => exact h.completed x hx
    | inr hx =>
      obtain rfl := List.mem_singleton.mp hx
      rw [hactive, hopen]
      rfl
  · rw [hended, h.told, hconcat]
    constructor
    · rintro ⟨x, hx, hkey, hfinal⟩
      exact ⟨x, List.mem_append_left _ hx, hkey, hfinal⟩
    · rintro ⟨x, hx, hkey, hfinal⟩
      cases List.mem_append.mp hx with
      | inl hx => exact ⟨x, hx, hkey, hfinal⟩
      | inr hx =>
        obtain rfl := List.mem_singleton.mp hx
        rw [hactive] at hfinal
        cases hfinal

/-- The accounts go on through every call. -/
theorem Accounts.moved (h : Accounts s) (hmoved : Moved s s') :
    Accounts s' ∧ Later s.db.dispatches.rows s'.db.dispatches.rows := by
  cases hmoved with
  | same hrows hended =>
    refine ⟨⟨?_, ?_, ?_, ?_, ?_⟩, ?_⟩
    · exact hrows ▸ h.numbered
    · exact hrows ▸ h.alone
    · exact hrows ▸ h.completed
    · exact hended ▸ h.once
    · rw [hrows, hended]
      exact h.told
    · rw [hrows]
      exact .refl _
  | claimed d hidle hnew hgeneration hstate hopen hrows hended =>
    exact h.claim hidle hnew hgeneration hstate hopen hrows hended
  | started hit hhit hrows hended =>
    refine h.rewritten (fun d hd => later_setRunning (hhit d hd)) (fun d hd hopen => ?_) hrows
      (hended ▸ h.once) fun taskId => ?_
    · rw [hhit d hd] at hopen
      exact hopen
    · rw [hended, h.told]
      refine exists_congr fun d => and_congr_right fun _ => and_congr_right fun _ => ?_
      split
      · rw [hhit d ‹_›]
        rfl
      · rfl
  | finished hit d state now hstate hd hhit hitd hrows hended =>
    refine h.rewritten (fun x hx => later_setOver now (hhit x hx).2 hstate) (fun x hx _ => ?_) hrows
      ?_ fun taskId => ?_
    · simp [setOver, hstate]
    · rw [hended, List.nodup_cons]
      refine ⟨fun hmem => ?_, h.once⟩
      obtain ⟨x, hx, hkey, hfinal⟩ := (h.told _).mp hmem
      obtain rfl := Table.row_unique hx hd hkey
      rw [(hhit x hitd).2] at hfinal
      cases hfinal
    · rw [hended, List.mem_cons, h.told]
      constructor
      · rintro (rfl | ⟨x, hx, hkey, hfinal⟩)
        · exact ⟨d, hd, rfl, by rw [if_pos hitd]; exact hstate⟩
        · refine ⟨x, hx, hkey, ?_⟩
          rw [if_neg fun hhitx => ?_]
          · exact hfinal
          · rw [(hhit x hhitx).2] at hfinal
            cases hfinal
      · rintro ⟨x, hx, hkey, hfinal⟩
        by_cases hhitx : hit x = true
        · exact .inl (hkey.symm.trans (hhit x hhitx).1)
        · rw [if_neg hhitx] at hfinal
          exact .inr ⟨x, hx, hkey, hfinal⟩

/-! What a call on the issues leaves. -/

/-- What holds of the tables that a call leaves, unless it fails. -/
def Leaves (K : Db → Prop) (r : Except Text Db) : Prop := ∀ db', r = .ok db' → K db'

/-- The same issues under the same parents. -/
structure SameTree (db db' : Db) : Prop where
  parent : ∀ id, parentOf db'.issues id = parentOf db.issues id
  there : ∀ id, (db'.issues.find id).isSome = (db.issues.find id).isSome
  issueSeq : db'.issueSeq = db.issueSeq

/-- Neither dispatches nor parents change. -/
structure Frame (db db' : Db) : Prop extends SameTree db db' where
  dispatches : db'.dispatches = db.dispatches

theorem SameTree.refl (db : Db) : SameTree db db := ⟨fun _ => rfl, fun _ => rfl, rfl⟩

theorem Frame.refl (db : Db) : Frame db db := ⟨.refl db, rfl⟩

theorem Frame.trans {a b c : Db} (hab : Frame a b) (hbc : Frame b c) : Frame a c :=
  ⟨⟨fun id => (hbc.parent id).trans (hab.parent id), fun id => (hbc.there id).trans (hab.there id),
    hbc.issueSeq.trans hab.issueSeq⟩, hbc.dispatches.trans hab.dispatches⟩

theorem parentOf_update {issues : Table Issue.id} {hit : Issue → Bool} {f : Table.Setter Issue.id}
    (hf : ∀ i ∈ issues.rows, hit i = true → (f.set i).parentIssueId = i.parentIssueId) (id : Nat) :
    parentOf (issues.update hit f) id = parentOf issues id := by
  rw [parentOf, parentOf, Table.find_update]
  cases hfind : issues.find id with
  | none => rfl
  | some i =>
    rw [Option.map_some, Option.bind_some, Option.bind_some]
    split
    · exact hf i (Table.mem_of_find hfind) ‹_›
    · rfl

/-- Issues change, but not their parents, and rows are added beside them. -/
theorem Frame.update {hit : Issue → Bool} {f : Table.Setter Issue.id} {notes : List Note}
    (hf : ∀ i ∈ db.issues.rows, hit i = true → (f.set i).parentIssueId = i.parentIssueId) :
    Frame db ({ db with issues := db.issues.update hit f }.note notes) := by
  refine ⟨⟨parentOf_update hf, fun id => ?_, rfl⟩, rfl⟩
  rw [Db.note, Table.find_update, Option.isSome_map]

variable {K : Db → Prop}

theorem Leaves.error (e : Text) : Leaves K (.error e) := by
  intro db' h
  cases h

theorem Leaves.ok (h : K db) : Leaves K (.ok db) := by
  intro db' heq
  cases heq
  exact h

theorem Leaves.bind {α : Type} {x : Except Text α} {f : α → Except Text Db}
    (h : ∀ a, x = .ok a → Leaves K (f a)) : Leaves K (x >>= f) := by
  cases x with
  | error e => exact .error e
  | ok a => exact h a rfl

/-- A check that stops the call with an error. -/
theorem Leaves.unless {c : Prop} [Decidable c] {e : Text} {f : Unit → Except Text Db}
    (h : Leaves K (f ())) : Leaves K (if c then Except.error e >>= f else f ()) := by
  split
  · exact .error e
  · exact h

theorem leaves_transitionIssueInTx (old : Issue) (dst : IssueStatus) (actor : Actor)
    (audited : Bool) (now : Int) :
    Leaves (Frame db) (transitionIssueInTx db old dst actor audited now) := by
  rw [transitionIssueInTx]
  split
  · exact .error _
  · exact .ok (.update fun _ _ _ => rfl)

theorem leaves_transitionIssue (id : Nat) (dst : IssueStatus) (actor : Actor) (audited : Bool)
    (now : Int) : Leaves (Frame db) (transitionIssue db id dst actor audited now) := by
  rw [transitionIssue]
  split
  · exact .error _
  · exact leaves_transitionIssueInTx _ dst actor audited now

theorem leaves_moveIssue (id : Nat) (dst : IssueStatus) (position : Int) (actor : Actor)
    (now : Int) : Leaves (Frame db) (moveIssue db id dst position actor now) := by
  rw [moveIssue]
  split
  · exact .error _
  · dsimp only
    split
    · exact .ok (.update fun _ _ _ => rfl)
    · split
      · exact .error _
      · exact .ok (.update fun _ _ _ => rfl)

/-- The new issue has the next id, and its parent has been looked up. -/
theorem leaves_createIssue (generate : Text → Text → Option Text) (new : NewIssue) (now : Int) :
    Leaves (fun db' => db'.dispatches = db.dispatches ∧ ∃ issue : Issue,
      issue.id = db.issueSeq + 1 ∧
      validateIssueRefs db issue.parentIssueId new.projectId none = .ok () ∧
      db'.issues = db.issues.insert issue ∧ db'.issueSeq = db.issueSeq + 1)
      (createIssue generate db new now) := by
  unfold createIssue
  dsimp only
  refine .unless ?_
  split
  · exact .bind fun _ hrefs => .ok ⟨rfl, _, rfl, hrefs, rfl, rfl⟩
  · exact .unless (.bind fun _ hrefs => .ok ⟨rfl, _, rfl, hrefs, rfl, rfl⟩)

theorem leaves_reopenIssue (id : Nat) (actor : Actor) (now : Int) :
    Leaves (Frame db) (reopenIssue db id actor now) := by
  have hback (old : Issue) {f : Db → Except Text Db}
      (hf : ∀ mid, Frame db mid → Leaves (Frame db) (f mid)) :
      Leaves (Frame db) (transitionIssueInTx db old .backlog actor true now >>= f) :=
    .bind fun mid hmid => hf mid (leaves_transitionIssueInTx old .backlog actor true now mid hmid)
  have hshown (mid : Db) (hmid : Frame db mid) {f : Table.Setter Issue.id} {notes : List Note}
      (hf : ∀ i, (f.set i).parentIssueId = i.parentIssueId) :
      Frame db ((mid.setIssue id f).note notes) := hmid.trans (.update fun i _ _ => hf i)
  unfold reopenIssue
  refine .bind fun old _ => ?_
  dsimp only
  refine .unless ?_
  split
  · refine .bind fun up _ => ?_
    cases up with
    | none =>
      refine hback old fun mid hmid => .ok (hshown mid hmid fun i => ?_)
      dsimp only
      split <;> rfl
    | some up => exact .error _
  · refine .bind fun _ _ => .unless (.bind fun up _ => ?_)
    cases up with
    | none =>
      refine hback old fun mid hmid => .ok (hshown mid hmid fun i => ?_)
      dsimp only
      split <;> rfl
    | some up => exact .error _

theorem applySetOpt_cases {α : Type} [DecidableEq α] (name : Text) (old new : Option α) :
    applySetOpt name old new = (old, []) ∨
      ∃ v, new = some v ∧ applySetOpt name old new = (some v, [name]) := by
  cases new with
  | none => exact .inl rfl
  | some v =>
    by_cases hsame : old = some v
    · exact .inl (by simp [applySetOpt, hsame])
    · exact .inr ⟨v, rfl, by simp [applySetOpt, hsame]⟩

theorem find_of_getIssue {id : Nat} {issue : Issue} (h : getIssue db id = .ok issue) :
    db.issues.find id = some issue := by
  rw [getIssue] at h
  split at h
  · rename_i hfind
    cases h
    exact hfind
  · cases h

/-- An update leaves the parents alone, or hangs the issue under one that has passed the check. -/
theorem leaves_updateIssue (id : Nat) (patch : IssuePatch) (actor : Actor) (now : Int) :
    Leaves (fun db' => Frame db db' ∨ db'.dispatches = db.dispatches ∧
      ∃ p proj, ∃ f : Table.Setter Issue.id, patch.parentIssueId = some p ∧
        validateIssueRefs db (some p) proj (some id) = .ok () ∧
        (∀ i, (f.set i).parentIssueId = some p) ∧
        db'.issues = db.issues.update (Table.hasKey Issue.id id) f ∧ db'.issueSeq = db.issueSeq)
      (updateIssue db id patch actor now) := by
  unfold updateIssue
  refine .bind fun old hold => ?_
  have hold := find_of_getIssue hold
  have hsame (i : Issue) (hi : i ∈ db.issues.rows) (hkey : Table.hasKey Issue.id id i = true) :
      old.parentIssueId = i.parentIssueId := by
    obtain rfl := of_decide_eq_true hkey
    rw [Table.row_unique hi (Table.mem_of_find hold) (Table.key_of_find hold).symm]
  dsimp only
  obtain hparent | ⟨p, hp, hparent⟩ :=
    applySetOpt_cases "parent_issue_id".toList old.parentIssueId patch.parentIssueId
  · rw [hparent]
    split
    · exact .bind fun _ _ => .ok (.inl (.update hsame))
    · exact .ok (.inl (.update hsame))
  · rw [hparent]
    split
    · exact .bind fun _ hrefs => .ok (.inr ⟨rfl, p, _, _, hp, hrefs, fun _ => rfl, rfl, rfl⟩)
    · rename_i hno
      exact absurd (.inl (List.cons_ne_nil _ _)) hno

theorem leaves_bulkArchiveCancelled (actor : Actor) (now : Int) (ids : List Nat) :
    Leaves (Frame db) (bulkArchiveCancelled db actor now ids) := by
  induction ids generalizing db with
  | nil => exact .ok (.refl db)
  | cons id ids ih =>
    rw [bulkArchiveCancelled]
    split
    · exact .error _
    · split
      · exact .error _
      · dsimp only
        intro db' h
        have hrest := ih db' h
        exact .trans (.update fun _ _ _ => rfl) hrest

theorem leaves_assignIssue (id : Nat) (assignee : Option AssignmentType) (assigneeId : Option Text)
    (actor : Actor) (now : Int) :
    Leaves (Frame db) (assignIssue db id assignee assigneeId actor now) := by
  unfold assignIssue
  dsimp only
  split
  · exact .unless (.bind fun _ _ => .ok (.update fun _ _ _ => rfl))
  · exact .unless (.unless (.bind fun _ _ => .ok (.update fun _ _ _ => rfl)))

theorem leaves_claimIssue (id : Nat) (claimer : Text) (actor : Actor) (now : Int) :
    Leaves (Frame db) (claimIssue db id claimer actor now) := by
  unfold claimIssue
  dsimp only
  refine .unless (.bind fun old _ => ?_)
  split
  · exact .error _
  · exact .ok (.update fun _ _ _ => rfl)

theorem frame_rollbackClaim (id : Nat) (claimer : Text) (actor : Actor) (now : Int) :
    Frame db (rollbackClaim db id claimer actor now).1 := by
  rw [rollbackClaim]
  split
  · exact .update fun _ _ _ => rfl
  · exact .refl db

theorem frame_addActivity (issueId : Nat) (actor : Actor) (action details : Text) (now : Int) :
    Frame db (addActivity db issueId actor action details now) := by
  rw [addActivity]
  split
  · exact ⟨⟨fun _ => rfl, fun _ => rfl, rfl⟩, rfl⟩
  · exact .refl db

theorem leaves_rollbackDecision (activityId : Nat) (now : Int) :
    Leaves (Frame db) (rollbackDecision db activityId now) := by
  rw [rollbackDecision]
  split
  · exact .error _
  · split
    · exact .error _
    · split
      · exact .error _
      · split
        · exact .error _
        · exact .ok (.update fun _ _ _ => rfl)

theorem leaves_rollbackDoneToInReview (issueId : Nat) (reason : Text) (now : Int) :
    Leaves (Frame db) ((rollbackDoneToInReview db issueId reason now).map Prod.fst) := by
  rw [rollbackDoneToInReview]
  split
  · exact .error _
  · split
    · exact .ok (.refl db)
    · exact .ok (.update fun _ _ _ => rfl)

theorem leaves_rollbackDispatchFailure (id : Nat) (prevStatus : IssueStatus)
    (prevAssignee : Option AssignmentType) (prevAssigneeId : Option Text) (actor : Actor)
    (now : Int) : Leaves (Frame db) ((rollbackDispatchFailure db id prevStatus prevAssignee
      prevAssigneeId actor now).map Prod.fst) := by
  rw [rollbackDispatchFailure]
  split
  · exact .error _
  · split
    · exact .ok (.refl db)
    · split
      · exact .ok (.refl db)
      · exact .ok (.update fun _ _ _ => rfl)

theorem leaves_setIssueDependencies (issueId : Nat) (dependsOn : List Nat) :
    Leaves (Frame db) (setIssueDependencies db issueId dependsOn) := by
  rw [setIssueDependencies]
  split
  · exact .ok ⟨⟨fun _ => rfl, fun _ => rfl, rfl⟩, rfl⟩
  · exact .error _

theorem dispatches_auditEnd (db : Db) (taskId : Text) (actor : Actor) (action : Text)
    (details : Json) (now : Int) : (auditEnd db taskId actor action details now).dispatches = db.dispatches := by
  rw [auditEnd]
  split <;> rfl

/-! The calls. -/

theorem moved_keep {r : Except Text Db} (h : Leaves K r)
    (hK : ∀ mid, K mid → mid.dispatches = s.db.dispatches) :
    Moved s { s with db := keep s.db r } := by
  cases r with
  | error e => exact .same rfl rfl
  | ok mid => exact .same (hK mid (h mid rfl)) rfl

theorem moved_frame {r : Except Text Db} (h : Leaves (Frame s.db) r) :
    Moved s { s with db := keep s.db r } := moved_keep h fun _ hmid => hmid.dispatches

/-- Whoever ends a dispatch finds it on its way. -/
theorem endDispatch_cases {taskId : Text} {p : DispatchRecord → Bool} {state : DispatchState}
    {now : Int} {mid : Db} (h : endDispatch db taskId p state now = some mid) :
    ∃ hit : DispatchRecord → Bool, ∃ d ∈ db.dispatches.rows, d.taskId = taskId ∧ hit d = true ∧
      (∀ x, hit x = true → x.taskId = d.taskId ∧ x.state.active = true) ∧
      mid.dispatches = db.dispatches.update hit (setOver state now) := by
  rw [endDispatch] at h
  split at h
  · rename_i hany
    obtain ⟨d, hd, hhit⟩ := List.any_eq_true.mp hany
    obtain rfl := Option.some.inj h
    have hof (x : DispatchRecord) (hx : (x.taskId = taskId && x.state.active && p x) = true) :
        x.taskId = taskId ∧ x.state.active = true := by
      simp only [Bool.and_eq_true, decide_eq_true_eq] at hx
      exact hx.1
    exact ⟨_, d, hd, (hof d hhit).1, hhit,
      fun x hx => ⟨(hof x hx).1.trans (hof d hhit).1.symm, (hof x hx).2⟩, rfl⟩
  · cases h

theorem moved_ended {taskId : Text} {p : DispatchRecord → Bool} {state : DispatchState} {now : Int}
    {mid last : Db} (hstate : state.active = false)
    (h : endDispatch s.db taskId p state now = some mid)
    (hlast : last.dispatches = mid.dispatches) : Moved s (told s taskId last true) := by
  obtain ⟨hit, d, hd, rfl, hitd, hhit, hrows⟩ := endDispatch_cases h
  exact .finished hit d state now hstate hd hhit hitd (hlast.trans hrows) rfl

/-- The record that an ended dispatch has left is there to be returned. -/
theorem find_ended {taskId : Text} {p : DispatchRecord → Bool} {state : DispatchState} {now : Int}
    {mid : Db} (h : endDispatch db taskId p state now = some mid) :
    (mid.dispatches.find taskId).isSome = true := by
  obtain ⟨hit, d, hd, rfl, _, _, hrows⟩ := endDispatch_cases h
  rw [hrows, Table.find_update, Table.find_of_mem hd]
  rfl

theorem moved_finish (taskId : Text) (state : DispatchState) (now : Int) :
    Moved s (match finishDispatch s.db taskId state now with
      | .ok (db, ended) => told s taskId db ended
      | .error _ => s) := by
  rw [finishDispatch]
  split_ifs with hbad
  · exact .same rfl rfl
  · have hstate : state.active = false := by
      revert hbad
      cases state <;> decide
    cases hend : endDispatch s.db taskId (fun _ => true) state now with
    | some mid => exact moved_ended hstate hend rfl
    | none => exact .same rfl rfl

/-- A call that ends a dispatch and leaves an activity of it. -/
theorem moved_audited {taskId : Text} {p : DispatchRecord → Bool} {state : DispatchState}
    {now : Int} {mid : Db} (hstate : state.active = false)
    (h : endDispatch s.db taskId p state now = some mid) (actor : Actor) (action : Text)
    (details : Json) : Moved s (told s taskId (auditEnd mid taskId actor action details now)
      (mid.dispatches.find taskId).isSome) := by
  rw [find_ended h]
  exact moved_ended hstate h (dispatches_auditEnd mid taskId actor action details now)

theorem moved_cancel (taskId : Text) (actor : Actor) (now : Int) :
    Moved s (told s taskId (cancelDispatch s.db taskId actor now).1
      (cancelDispatch s.db taskId actor now).2.isSome) := by
  rw [cancelDispatch]
  cases hend : endDispatch s.db taskId (fun _ => true) .cancelled now with
  | some mid => exact moved_audited rfl hend _ _ _
  | none => exact .same rfl rfl

theorem moved_fail (taskId details : Text) (expected : Option Nat) (now : Int) :
    Moved s (told s taskId (failDispatch s.db taskId details expected now).1
      (failDispatch s.db taskId details expected now).2.isSome) := by
  rw [failDispatch]
  cases hend : endDispatch s.db taskId (fun d => expected.all (d.generation = ·)) .failed now with
  | some mid => exact moved_audited rfl hend _ _ _
  | none => exact .same rfl rfl

theorem moved_markRunning (taskId workerId : Text) :
    Moved s { s with db := (markDispatchRunning s.db taskId workerId).1 } := by
  rw [markDispatchRunning]
  split
  · refine .started _ (fun d hd => ?_) rfl rfl
    simp only [Bool.and_eq_true, decide_eq_true_eq] at hd
    exact hd.2
  · exact .same rfl rfl

theorem moved_tryClaim (taskId : Text) (issueId : Nat) (workerId : Text) (actor : Actor)
    (audited : Bool) (sql : Text) (now : Int) :
    Moved s { s with
      db := (tryClaimDispatch s.db taskId issueId workerId actor audited sql now).2 } := by
  rw [tryClaimDispatch]
  split_ifs with hactive hrow haudit
  · exact .same rfl rfl
  · exact .same rfl rfl
  all_goals
    have hnew : s.db.dispatches.find taskId = none := by
      cases hfind : s.db.dispatches.find taskId with
      | none => rfl
      | some d => exact absurd (by simp [hfind]) hrow
    exact .claimed ⟨taskId, issueId, workerId, .dispatched, now, none, _⟩
      (Bool.eq_false_iff.mpr hactive) hnew rfl rfl rfl rfl rfl

theorem moved_exec (generate : Text → Text → Option Text) (c : Call) (now : Int) :
    Moved s (exec generate s now c) := by
  cases c with
  | create new => exact moved_keep (leaves_createIssue generate new now) fun _ hmid => hmid.1
  | update id patch actor =>
    refine moved_keep (leaves_updateIssue id patch actor now) fun mid hmid => ?_
    cases hmid with
    | inl hframe => exact hframe.dispatches
    | inr hhung => exact hhung.1
  | transition id dst actor audited =>
    exact moved_frame (leaves_transitionIssue id dst actor audited now)
  | move id dst position actor => exact moved_frame (leaves_moveIssue id dst position actor now)
  | reopen id actor => exact moved_frame (leaves_reopenIssue id actor now)
  | bulkArchive ids actor => exact moved_frame (leaves_bulkArchiveCancelled actor now ids)
  | assign id assignee assigneeId actor =>
    exact moved_frame (leaves_assignIssue id assignee assigneeId actor now)
  | claim id claimer actor => exact moved_frame (leaves_claimIssue id claimer actor now)
  | rollbackClaim id claimer actor =>
    exact .same (frame_rollbackClaim id claimer actor now).dispatches rfl
  | rollbackDecision activityId => exact moved_frame (leaves_rollbackDecision activityId now)
  | rollbackDone issueId reason =>
    exact moved_frame (leaves_rollbackDoneToInReview issueId reason now)
  | addActivity issueId actor action details =>
    exact .same (frame_addActivity issueId actor action details now).dispatches rfl
  | setDependencies issueId dependsOn =>
    exact moved_frame (leaves_setIssueDependencies issueId dependsOn)
  | tryClaimDispatch taskId issueId workerId actor audited sql =>
    exact moved_tryClaim taskId issueId workerId actor audited sql now
  | markRunning taskId workerId => exact moved_markRunning taskId workerId
  | finish taskId state => exact moved_finish taskId state now
  | cancel taskId actor => exact moved_cancel taskId actor now
  | fail taskId details expected => exact moved_fail taskId details expected now
  | rollbackDispatch id prevStatus prevAssignee prevAssigneeId actor =>
    exact moved_frame
      (leaves_rollbackDispatchFailure id prevStatus prevAssignee prevAssigneeId actor now)

def State.init (numberPrefix : Text) (projects : List Nat) : State :=
  ⟨Db.init numberPrefix projects, []⟩

theorem accounts_init (numberPrefix : Text) (projects : List Nat) :
    Accounts (State.init numberPrefix projects) := by
  refine ⟨fun _ => rfl, fun _ d hd => ?_, fun d hd => ?_, List.nodup_nil, fun taskId => ?_⟩
  · cases hd
  · cases hd
  · simp [State.init, Db.init, Table.empty]

theorem accounts_run {generate : Text → Text → Option Text} {cs : List (Call × Int)}
    (h : Accounts s) (hrun : run (step generate) s cs = some s') :
    Accounts s' ∧ Later s.db.dispatches.rows s'.db.dispatches.rows := by
  have hkept (m : State) (c : Call × Int) (t : State)
      (hm : Accounts m ∧ Later s.db.dispatches.rows m.db.dispatches.rows)
      (hstep : step generate m c = some t) :
      Accounts t ∧ Later s.db.dispatches.rows t.db.dispatches.rows := by
    obtain rfl := Option.some.inj hstep
    obtain ⟨haccounts, hlater⟩ := hm.1.moved (moved_exec generate c.1 c.2)
    exact ⟨haccounts, hm.2.trans hlater⟩
  exact run_invariant_always hkept ⟨h, .refl _⟩ hrun

/-- However the calls of planners, workers, sweeps and people come: no issue has two dispatches on
their way, its dispatches are numbered without gaps, none changes once it is over, and exactly one
call was told to have ended it. -/
theorem dispatches_accounted (generate : Text → Text → Option Text) (numberPrefix : Text)
    (projects : List Nat) (cs ds : List (Call × Int))
    (h : run (step generate) (State.init numberPrefix projects) cs = some s)
    (h' : run (step generate) s ds = some s') :
    Accounts s' ∧ Later s.db.dispatches.rows s'.db.dispatches.rows :=
  accounts_run (accounts_run (accounts_init numberPrefix projects) h).1 h'

def master : Actor := ⟨"agent".toList, "master".toList⟩

def plainIssue : NewIssue :=
  ⟨"build".toList, [], 0, none, none, master, none, none, none, none⟩

/-- A second claim is refused, and the worker answers after the cancel. -/
def cancelledCalls : List (Call × Int) :=
  [(.create plainIssue, 0),
   (.tryClaimDispatch "t1".toList 1 "bob".toList master true [], 1),
   (.tryClaimDispatch "t2".toList 1 "eve".toList master true [], 2),
   (.markRunning "t1".toList "bob".toList, 3),
   (.cancel "t1".toList master, 4),
   (.finish "t1".toList .done, 5)]

/-- The sweep has the first dispatch in mind and misses the second. -/
def redispatchCalls : List (Call × Int) :=
  [(.tryClaimDispatch "t3".toList 1 "eve".toList master true [], 6),
   (.fail "t3".toList "late".toList (some 0), 7),
   (.finish "t3".toList .done, 8)]

theorem dispatches_accounted_redispatch : ∃ s s' : State,
    run (step fun _ _ => none) (State.init "NB".toList []) cancelledCalls = some s ∧
    run (step fun _ _ => none) s redispatchCalls = some s' ∧
    s'.ended = ["t3".toList, "t1".toList] ∧
    s'.db.dispatches.rows.map (fun d => (d.taskId, d.state, d.generation)) =
      [("t1".toList, .cancelled, 0), ("t3".toList, .done, 1)] ∧
    Accounts s' ∧ Later s.db.dispatches.rows s'.db.dispatches.rows :=
  ⟨_, _, rfl, rfl, by decide +kernel, by decide +kernel,
    dispatches_accounted (fun _ _ => none) "NB".toList [] cancelledCalls redispatchCalls rfl rfl⟩

end NemesisBot.IssueStore

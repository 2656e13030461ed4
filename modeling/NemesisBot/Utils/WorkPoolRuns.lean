import NemesisBot.Utils.WorkPool

/-! What the ordered pool keeps along every run. -/
namespace NemesisBot.WorkPool
open Runs

/-- The phase of a job agrees with the lists that speak of it. -/
structure Agrees (s : State) (k : Nat) : Prop where
  unused : s.count ≤ k → (s.jobs k).phase = .unused
  queued : k ∈ s.queue → (s.jobs k).phase = .queued
  taken : (s.jobs k).phase = .taken ↔ k ∈ s.driver.inHand
  sent : k ∈ s.accepted → (s.jobs k).phase.sent = true
  lane : (s.jobs k).phase.alive = true → s.driver = .spawned k ∨
    (s.slot = some k ∧ (s.driver = .awaiting k ∨ s.driver = .gone))

structure InOrder (s : State) : Prop where
  each : ∀ k, Agrees s k
  nodup : s.accepted.Nodup
  order : ∃ left, s.accepted = left ++ s.driver.inHand ++ s.queue ∧ s.started.Sublist left ∧
    ∀ k, (s.jobs k).phase = .spawned → ∃ p q, left = p ++ k :: q ∧ s.started.Sublist p

variable {limits : PoolLimits} {s t : State} {j k : Nat}

theorem InOrder.congr (hs : InOrder s) (hphase : ∀ k, (t.jobs k).phase = (s.jobs k).phase)
    (hcount : t.count = s.count) (hqueue : t.queue = s.queue) (hdriver : t.driver = s.driver)
    (hslot : t.slot = s.slot) (haccepted : t.accepted = s.accepted)
    (hstarted : t.started = s.started) : InOrder t where
  each k := by
    obtain ⟨hunused, hqueued, htaken, hsent, hlane⟩ := hs.each k
    constructor <;> simpa only [hphase, hcount, hqueue, hdriver, hslot, haccepted]
  nodup := haccepted ▸ hs.nodup
  order := by simpa only [hphase, hdriver, hqueue, haccepted, hstarted] using hs.order

/-- Two living jobs are the job of the driver. -/
theorem InOrder.apart (hs : InOrder s) (hj : (s.jobs j).phase.alive = true)
    (hk : (s.jobs k).phase.alive = true) : j = k := by
  have h1 := (hs.each j).lane hj
  have h2 := (hs.each k).lane hk
  grind

theorem InOrder.lt_count (hs : InOrder s) (hj : (s.jobs j).phase ≠ .unused) : j < s.count := by
  by_contra h
  exact hj ((hs.each j).unused (by omega))

/-- A job outside the queue and the driver's hand moves on by itself. -/
theorem InOrder.setPhase (hs : InOrder s) {q : Phase}
    (hj : (s.jobs j).phase ≠ .unused ∧ (s.jobs j).phase ≠ .queued ∧ (s.jobs j).phase ≠ .taken)
    (hq : q ≠ .taken ∧ q ≠ .spawned)
    (hsent : (s.jobs j).phase.sent = true → q.sent = true)
    (halive : q.alive = true → (s.jobs j).phase.alive = true) : InOrder (s.setPhase j q) where
  each k := by
    obtain ⟨h1, h2, h3, h4, h5⟩ := hs.each k
    constructor <;> simp <;> grind
  nodup := hs.nodup
  order := by
    obtain ⟨left, hleft, hstarted, hspawned⟩ := hs.order
    refine ⟨left, hleft, hstarted, ?_⟩
    intro k hk
    refine hspawned k ?_
    grind [phase_setPhase]

theorem InOrder.release (hs : InOrder s) {q : Phase}
    (hj : (s.jobs j).phase ≠ .unused ∧ (s.jobs j).phase ≠ .queued ∧ (s.jobs j).phase ≠ .taken)
    (hq : q ≠ .taken ∧ q ≠ .spawned)
    (hsent : (s.jobs j).phase.sent = true → q.sent = true)
    (halive : q.alive = true → (s.jobs j).phase.alive = true) : InOrder (s.release j q) :=
  (hs.setPhase hj hq hsent halive).congr (fun _ => rfl) rfl rfl rfl rfl rfl rfl

/-- The job taken out of the channel. -/
theorem InOrder.head (hs : InOrder s) (hj : s.queue.head? = some j) :
    ∃ rest, s.queue = j :: rest ∧ (s.jobs j).phase = .queued ∧ j ∉ rest := by
  obtain ⟨rest, hrest⟩ := List.head?_eq_some_iff.mp hj
  obtain ⟨left, hleft, -⟩ := hs.order
  refine ⟨rest, hrest, (hs.each j).queued (hrest ▸ List.mem_cons_self), ?_⟩
  have hnodup : s.queue.Nodup := by
    have hall := hs.nodup
    rw [hleft] at hall
    exact (List.nodup_append.mp hall).2.1
  rw [hrest] at hnodup
  exact (List.nodup_cons.mp hnodup).1

theorem InOrder.reserve (hs : InOrder s) (inputBytes : Nat) :
    InOrder (effect limits s (.reserve inputBytes)) := by
  simp only [effect]
  split
  · rename_i gauge _
    have hfresh := (hs.each s.count).unused le_rfl
    refine ⟨?_, hs.nodup, ?_⟩
    · intro k
      obtain ⟨h1, h2, h3, h4, h5⟩ := hs.each k
      constructor <;> simp [apply_ite OrderedJob.phase] <;> grind [Phase.sent, Phase.alive]
    · obtain ⟨left, hleft, hstarted, hspawned⟩ := hs.order
      refine ⟨left, hleft, hstarted, ?_⟩
      intro k hk
      refine hspawned k ?_
      simp only [jobs_modify] at hk
      grind
  · exact hs

theorem InOrder.send (hs : InOrder s) (hj : (s.jobs j).phase = .numbered) :
    InOrder (effect limits s (.send j)) := by
  simp only [effect]
  split
  · exact hs.release (by simp [hj]) (by simp) (by simp [hj, Phase.sent]) (by simp [Phase.alive])
  · have hnew : j ∉ s.accepted := by
      intro hmem
      have := (hs.each j).sent hmem
      rw [hj] at this
      cases this
    refine ⟨?_, ?_, ?_⟩
    · intro k
      obtain ⟨h1, h2, h3, h4, h5⟩ := hs.each k
      constructor <;> simp <;> grind [Phase.sent, Phase.alive]
    · exact List.nodup_append.mpr ⟨hs.nodup, List.nodup_singleton j, by grind⟩
    · obtain ⟨left, hleft, hstarted, hspawned⟩ := hs.order
      refine ⟨left, ?_, hstarted, ?_⟩
      · change s.accepted ++ [j] = left ++ s.driver.inHand ++ (s.queue ++ [j])
        rw [hleft, List.append_assoc _ s.queue]
      · intro k hk
        refine hspawned k ?_
        simp only [phase_setPhase] at hk
        grind

theorem InOrder.receive (hs : InOrder s) (hd : s.driver = .waiting)
    (hj : s.queue.head? = some j) : InOrder (effect limits s (.receive j)) := by
  obtain ⟨rest, hrest, hqueued, hnot⟩ := hs.head hj
  simp only [effect, hrest, List.tail_cons]
  refine ⟨?_, hs.nodup, ?_⟩
  · intro k
    obtain ⟨h1, h2, h3, h4, h5⟩ := hs.each k
    constructor <;> simp <;> grind [Phase.sent, Phase.alive, Driver.inHand]
  · obtain ⟨left, hleft, hstarted, hspawned⟩ := hs.order
    refine ⟨left, ?_, hstarted, ?_⟩
    · rw [hd, hrest] at hleft
      simpa [Driver.inHand] using hleft
    · intro k hk
      refine hspawned k ?_
      simp only [phase_setPhase] at hk
      grind

theorem InOrder.inHand (hs : InOrder s) (hj : s.driver.inHand = [j]) :
    (s.jobs j).phase = .taken := (hs.each j).taken.mpr (hj ▸ List.mem_singleton_self j)

theorem InOrder.check (hs : InOrder s) (hd : s.driver = .received j) :
    InOrder (effect limits s (.check j)) := by
  have htaken := hs.inHand (by rw [hd]; rfl)
  obtain ⟨left, hleft, hstarted, hspawned⟩ := hs.order
  rw [hd] at hleft
  simp only [effect]
  split
  · refine ⟨?_, hs.nodup, left ++ [j], ?_, hstarted.trans (List.sublist_append_left _ _), ?_⟩
    · intro k
      obtain ⟨h1, h2, h3, h4, h5⟩ := hs.each k
      constructor <;> simp <;> grind [Phase.sent, Phase.alive, Driver.inHand]
    · simpa [Driver.inHand] using hleft
    · intro k hk
      have hbefore : (s.jobs k).phase = .spawned := by
        simp only [State.release, phase_setPhase] at hk
        grind
      obtain ⟨p, q, rfl, hp⟩ := hspawned k hbefore
      exact ⟨p, q ++ [j], by simp, hp⟩
  · refine ⟨?_, hs.nodup, left, hleft, hstarted, hspawned⟩
    intro k
    obtain ⟨h1, h2, h3, h4, h5⟩ := hs.each k
    constructor <;> grind [Driver.inHand]

theorem InOrder.spawn (hs : InOrder s) (hd : s.driver = .checked j) :
    InOrder (effect limits s (.spawn j)) := by
  have htaken := hs.inHand (by rw [hd]; rfl)
  obtain ⟨left, hleft, hstarted, hspawned⟩ := hs.order
  rw [hd] at hleft
  refine ⟨?_, hs.nodup, left ++ [j], ?_, hstarted.trans (List.sublist_append_left _ _), ?_⟩
  · intro k
    obtain ⟨h1, h2, h3, h4, h5⟩ := hs.each k
    constructor <;> simp [effect] <;> grind [Phase.sent, Phase.alive, Driver.inHand]
  · simpa [effect, Driver.inHand] using hleft
  · intro k hk
    by_cases hkj : k = j
    · subst hkj
      exact ⟨left, [], rfl, hstarted⟩
    · have hbefore : (s.jobs k).phase = .spawned := by
        simpa [effect, hkj] using hk
      obtain ⟨p, q, rfl, hp⟩ := hspawned k hbefore
      exact ⟨p, q ++ [j], by simp, hp⟩

/-- The driver goes on without a job in its hand, before and after. -/
theorem InOrder.setDriver (hs : InOrder s) {d : Driver} {o : Option Nat} {b : Bool}
    (hbefore : s.driver.inHand = []) (hafter : d.inHand = [])
    (hlane : ∀ k, (s.jobs k).phase.alive = true → d = .spawned k ∨
      (o = some k ∧ (d = .awaiting k ∨ d = .gone))) :
    InOrder { s with driver := d, slot := o, closed := b } := by
  refine ⟨?_, hs.nodup, ?_⟩
  · intro k
    obtain ⟨h1, h2, h3, h4, h5⟩ := hs.each k
    exact ⟨h1, h2, by simpa only [hbefore, hafter] using h3, h4, hlane k⟩
  · simpa only [hbefore, hafter] using hs.order

theorem InOrder.publish (hs : InOrder s) (hd : s.driver = .spawned j) :
    InOrder (effect limits s (.publish j)) := by
  refine hs.setDriver (by rw [hd]; rfl) rfl ?_
  intro k hk
  have := (hs.each k).lane hk
  grind

theorem InOrder.join (hs : InOrder s) (hd : s.driver = .awaiting j)
    (hdone : (s.jobs j).phase.done = true) : InOrder (effect limits s (.join j)) := by
  refine hs.setDriver (by rw [hd]; rfl) rfl ?_
  intro k hk
  have := (hs.each k).lane hk
  have hdead := Phase.not_alive_of_done hdone
  grind

theorem InOrder.clear (hs : InOrder s) (hd : s.driver = .finished j) :
    InOrder (effect limits s (.clear j)) := by
  refine hs.setDriver (by rw [hd]; rfl) rfl ?_
  intro k hk
  have := (hs.each k).lane hk
  grind

theorem InOrder.shutdown (hs : InOrder s) (hd : s.driver.atAwait = true) :
    InOrder (effect limits s .shutdown) := by
  have hcases := Driver.atAwait_cases hd
  refine hs.setDriver (by grind [Driver.inHand]) rfl ?_
  intro k hk
  have := (hs.each k).lane hk
  grind

theorem InOrder.poll (hs : InOrder s)
    (hj : (s.jobs j).phase = .spawned ∨ (s.jobs j).phase = .suspended) :
    InOrder (effect limits s (.poll j)) := by
  have halive : (s.jobs j).phase.alive = true := by grind [Phase.alive]
  have honly : ∀ k ≠ j, (s.jobs k).phase ≠ .spawned := by
    intro k hkj hk
    exact hkj (hs.apart (by rw [hk]; rfl) halive)
  obtain ⟨left, hleft, hstarted, hspawned⟩ := hs.order
  refine ⟨?_, hs.nodup, left, hleft, ?_, ?_⟩
  · intro k
    obtain ⟨h1, h2, h3, h4, h5⟩ := hs.each k
    constructor <;> simp [effect] <;> grind [Phase.sent, Phase.alive]
  · simp only [effect]
    split
    · rename_i hfirst
      obtain ⟨p, q, rfl, hp⟩ := hspawned j hfirst
      rw [List.append_cons p]
      exact (hp.append (List.Sublist.refl [j])).trans (List.sublist_append_left _ _)
    · exact hstarted
  · intro k hk
    simp only [effect, phase_setPhase] at hk
    grind

theorem InOrder.drain (hs : InOrder s) (hd : s.driver = .gone) (hj : s.queue.head? = some j) :
    InOrder (effect limits s (.drain j)) := by
  obtain ⟨rest, hrest, hqueued, hnot⟩ := hs.head hj
  obtain ⟨left, hleft, hstarted, hspawned⟩ := hs.order
  rw [hd, hrest] at hleft
  simp only [effect, hrest, List.tail_cons]
  refine ⟨?_, hs.nodup, left ++ [j], ?_, hstarted.trans (List.sublist_append_left _ _), ?_⟩
  · intro k
    obtain ⟨h1, h2, h3, h4, h5⟩ := hs.each k
    constructor <;> simp <;> grind [Phase.sent, Phase.alive, Driver.inHand]
  · simpa [hd, Driver.inHand] using hleft
  · intro k hk
    have hbefore : (s.jobs k).phase = .spawned := by
      simp only [State.release, phase_setPhase] at hk
      grind
    obtain ⟨p, q, rfl, hp⟩ := hspawned k hbefore
    exact ⟨p, q ++ [j], by simp, hp⟩

theorem InOrder.takeId (hs : InOrder s) (hj : (s.jobs j).phase = .reserved) :
    InOrder (effect limits s (.takeId j)) := by
  refine (hs.setPhase (j := j) (q := .numbered) (by simp [hj]) (by simp) (by simp [hj, Phase.sent])
    (by simp [Phase.alive])).congr ?_ rfl rfl rfl rfl rfl rfl
  intro k
  simp [effect, apply_ite OrderedJob.phase]

theorem abort_cases (s : State) (j : Nat) : s.abort j = s ∨
    ∃ k, s.slot = some k ∧ (s.jobs k).id = (s.jobs j).id ∧ s.abort j =
      { s.modify k OrderedJob.abort with aborts := s.aborts ++ [(j, k)] } := by
  rw [State.abort]
  split
  · rename_i k hslot
    split
    · rename_i hid
      exact .inr ⟨k, hslot, hid, rfl⟩
    · exact .inl rfl
  · exact .inl rfl

/-- Flags of jobs are no matter of order. -/
theorem InOrder.modify (hs : InOrder s) {f : OrderedJob → OrderedJob}
    (hf : ∀ job, (f job).phase = job.phase) : InOrder (s.modify j f) := by
  refine hs.congr ?_ rfl rfl rfl rfl rfl rfl
  intro k
  rw [jobs_modify]
  split
  · rename_i hk
    rw [hf, hk]
  · rfl

theorem InOrder.abort (hs : InOrder s) (j : Nat) : InOrder (s.abort j) := by
  obtain heq | ⟨k, -, -, heq⟩ := abort_cases s j
  · rwa [heq]
  · rw [heq]
    exact (hs.modify (j := k) (f := OrderedJob.abort) fun _ => rfl).congr (fun _ => rfl) rfl rfl rfl rfl rfl rfl

theorem InOrder.effect (hs : InOrder s) {i : Label} (hi : enabled s i) :
    InOrder (effect limits s i) := by
  cases i with
  | reserve n => exact hs.reserve n
  | takeId j => exact hs.takeId hi
  | takeIdElsewhere => exact hs.congr (fun _ => rfl) rfl rfl rfl rfl rfl rfl
  | send j => exact hs.send hi
  | receive j => exact hs.receive hi.1 hi.2
  | check j => exact hs.check hi
  | spawn j => exact hs.spawn hi
  | publish j => exact hs.publish hi
  | join j => exact hs.join hi.1 hi.2
  | clear j => exact hs.clear hi
  | poll j => exact hs.poll hi.1
  | suspend j =>
    simp only [enabled] at hi
    simp only [WorkPool.effect]
    split
    · exact hs.release (by simp [hi]) (by simp) (by simp [Phase.sent]) (by simp [Phase.alive])
    · exact hs.setPhase (by simp [hi]) (by simp) (by simp [Phase.sent]) (by simp [hi, Phase.alive])
  | complete j =>
    simp only [enabled] at hi
    exact hs.release (by simp [hi]) (by simp) (by simp [Phase.sent]) (by simp [hi, Phase.alive])
  | reply j =>
    simp only [enabled] at hi
    exact hs.setPhase (by simp [hi]) (by simp) (by simp [Phase.sent]) (by simp [Phase.alive])
  | unwind j =>
    simp only [enabled] at hi
    exact hs.release (by simp [hi]) (by simp) (by simp [Phase.sent]) (by simp [Phase.alive])
  | reap j =>
    have hj : (s.jobs j).phase = .spawned ∨ (s.jobs j).phase = .suspended := hi.1
    exact hs.release (by grind) (by simp) (by simp [Phase.sent]) (by simp [Phase.alive])
  | setFlag j => exact hs.modify (f := OrderedJob.setFlag) fun _ => rfl
  | abortSlot j => exact (hs.abort j).modify (f := OrderedJob.cancelReturns) fun _ => rfl
  | shutdown => exact hs.shutdown hi
  | drain j => exact hs.drain hi.1 hi.2
  | halt j =>
    have hj : (s.jobs j).phase = .spawned ∨ (s.jobs j).phase = .suspended := hi.2
    exact hs.release (by grind) (by simp) (by simp [Phase.sent]) (by simp [Phase.alive])

end NemesisBot.WorkPool

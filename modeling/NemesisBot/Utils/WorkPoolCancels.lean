import NemesisBot.Utils.WorkPoolRuns

/-! Reservations and cancels of the ordered pool. -/
namespace NemesisBot.WorkPool
open Runs

/-- The gauge counts the guards that are still held. -/
structure Ledger (limits : PoolLimits) (s : State) : Prop where
  pending : s.holders.card = s.gauge.pending
  bytes : s.retained = s.gauge.retainedInputBytes
  pending_le : s.gauge.pending ≤ limits.maxPending
  bytes_le : s.gauge.retainedInputBytes ≤ limits.maxInputBytes

variable {limits : PoolLimits} {s t : State} {j k : Nat}

theorem mem_holders : k ∈ s.holders ↔ k < s.count ∧ (s.jobs k).phase.holds = true := by
  simp [State.holders]

theorem Ledger.congr (hs : Ledger limits s) (hholders : t.holders = s.holders)
    (hbytes : ∀ k ∈ s.holders, (t.jobs k).inputBytes = (s.jobs k).inputBytes)
    (hgauge : t.gauge = s.gauge) : Ledger limits t := by
  have hretained : t.retained = s.retained := by
    rw [State.retained, hholders]
    exact Finset.sum_congr rfl hbytes
  exact ⟨by rw [hholders, hgauge, hs.pending], by rw [hretained, hgauge, hs.bytes],
    hgauge ▸ hs.pending_le, hgauge ▸ hs.bytes_le⟩

/-- Steps that neither end a future nor make one. -/
theorem Ledger.of_holds (hs : Ledger limits s)
    (hholds : ∀ k, (t.jobs k).phase.holds = (s.jobs k).phase.holds)
    (hbytes : ∀ k, (t.jobs k).inputBytes = (s.jobs k).inputBytes) (hcount : t.count = s.count)
    (hgauge : t.gauge = s.gauge) : Ledger limits t := by
  refine hs.congr ?_ (fun k _ => hbytes k) hgauge
  ext k
  rw [mem_holders, mem_holders, hcount, hholds]

theorem Ledger.setPhase (hs : Ledger limits s) {q : Phase}
    (hq : q.holds = (s.jobs j).phase.holds) : Ledger limits (s.setPhase j q) := by
  refine hs.of_holds ?_ (fun k => inputBytes_setPhase s j k q) rfl rfl
  intro k
  rw [phase_setPhase]
  split
  · rename_i hk
    rw [hq, hk]
  · rfl

/-- A guard that is dropped gives back exactly what it took. -/
theorem Ledger.release (hs : Ledger limits s) {q : Phase} (hj : j < s.count)
    (hholds : (s.jobs j).phase.holds = true) (hq : q.holds = false) :
    Ledger limits (s.release j q) := by
  have hmem : j ∈ s.holders := mem_holders.mpr ⟨hj, hholds⟩
  have hholders : (s.release j q).holders = s.holders.erase j := by
    ext k
    rw [Finset.mem_erase, mem_holders, mem_holders]
    by_cases hk : k = j <;> simp [hk, hq]
  have hretained : (s.release j q).retained + (s.jobs j).inputBytes = s.retained := by
    rw [State.retained, hholders, State.retained, ← Finset.sum_erase_add _ _ hmem]
    simp
  have hcard := Finset.card_erase_add_one hmem
  have hpending := hs.pending
  have hbytes := hs.bytes
  have hpending_le := hs.pending_le
  have hbytes_le := hs.bytes_le
  have hgauge : (s.release j q).gauge = s.gauge.release (s.jobs j).inputBytes := rfl
  refine ⟨?_, ?_, ?_, ?_⟩
  · rw [hholders, hgauge, Gauge.release]
    dsimp only
    omega
  · rw [hgauge, Gauge.release]
    dsimp only
    omega
  · rw [hgauge, Gauge.release]
    dsimp only
    omega
  · rw [hgauge, Gauge.release]
    dsimp only
    omega

/-- The sum of the booked bytes stays a word, or the limit is below the largest word. -/
def Fits (limits : PoolLimits) (s : State) (inputBytes : Nat) : Prop :=
  limits.maxInputBytes < maxWord ∨ s.gauge.retainedInputBytes + inputBytes ≤ maxWord

theorem Ledger.reserve (hs : Ledger limits s) {inputBytes : Nat} (hfits : Fits limits s inputBytes) :
    Ledger limits (effect limits s (.reserve inputBytes)) := by
  simp only [effect]
  split
  · rename_i gauge hgauge
    rw [WorkPool.reserve] at hgauge
    split at hgauge
    · cases hgauge
    · rename_i hroom
      obtain rfl := Except.ok.inj hgauge
      push Not at hroom
      have hsum : s.gauge.retainedInputBytes + inputBytes ≤ limits.maxInputBytes := by
        have := limits.word
        rw [Fits] at hfits
        omega
      have hword : (s.gauge.retainedInputBytes + inputBytes) % 2 ^ 64 =
          s.gauge.retainedInputBytes + inputBytes := by
        have := limits.word
        rw [maxWord] at this
        exact Nat.mod_eq_of_lt (by omega)
      have hnew : s.count ∉ s.holders := by simp [mem_holders]
      have hjob (k) : (s.modify s.count (OrderedJob.booked inputBytes)).jobs k =
          if k = s.count then OrderedJob.booked inputBytes (s.jobs s.count) else s.jobs k :=
        jobs_modify ..
      set t : State := { s.modify s.count (OrderedJob.booked inputBytes) with
        count := s.count + 1
        gauge := ⟨s.gauge.pending + 1, (s.gauge.retainedInputBytes + inputBytes) % 2 ^ 64⟩ }
      have hholders : t.holders = insert s.count s.holders := by
        ext k
        rw [Finset.mem_insert, mem_holders, mem_holders]
        change k < s.count + 1 ∧ ((s.modify _ _).jobs k).phase.holds = true ↔ _
        rw [hjob]
        by_cases hk : k = s.count
        · subst hk
          simp [OrderedJob.booked, Phase.holds]
        · simp only [hk, if_false, false_or]
          exact and_congr_left fun _ => by omega
      have hretained : t.retained = inputBytes + s.retained := by
        rw [State.retained, hholders, Finset.sum_insert hnew, State.retained]
        congr 1
        · change ((s.modify _ _).jobs _).inputBytes = _
          rw [hjob, if_pos rfl]
          rfl
        · refine Finset.sum_congr rfl ?_
          intro k hk
          change ((s.modify _ _).jobs _).inputBytes = _
          rw [hjob, if_neg (ne_of_mem_of_not_mem hk hnew)]
      refine ⟨?_, ?_, ?_, ?_⟩
      · rw [hholders, Finset.card_insert_of_notMem hnew, hs.pending]
      · rw [hretained, hs.bytes]
        change _ = (s.gauge.retainedInputBytes + inputBytes) % 2 ^ 64
        omega
      · exact hroom.1
      · change (s.gauge.retainedInputBytes + inputBytes) % 2 ^ 64 ≤ _
        omega
  · exact hs

theorem Ledger.abort (hs : Ledger limits s) (j : Nat) : Ledger limits (s.abort j) := by
  obtain heq | ⟨k, -, -, heq⟩ := abort_cases s j
  · rwa [heq]
  · rw [heq]
    exact hs.of_holds (fun i => by simp; grind) (fun i => by simp; grind) rfl rfl

theorem Ledger.modify (hs : Ledger limits s) {f : OrderedJob → OrderedJob}
    (hphase : ∀ job, (f job).phase.holds = job.phase.holds)
    (hbytes : ∀ job, (f job).inputBytes = job.inputBytes) : Ledger limits (s.modify j f) := by
  refine hs.of_holds ?_ ?_ rfl rfl
  · intro k
    rw [jobs_modify]
    grind
  · intro k
    rw [jobs_modify]
    grind

/-- What the defects need: a cancel looks at the slot while its job is between the check of the
flag and the publication, the booked bytes overflow, or an id comes round again. -/
def Clean (limits : PoolLimits) (s : State) : Label → Prop
  | .reserve inputBytes => Fits limits s inputBytes
  | .takeId _ => ∀ k < s.count, (s.jobs k).phase.hasId = true → (s.jobs k).id ≠ s.nextJobId
  | .abortSlot j => s.driver ≠ .checked j ∧ s.driver ≠ .spawned j
  | _ => True

instance Clean.decidable (limits : PoolLimits) (s : State) :
    (i : Label) → Decidable (Clean limits s i)
  | .reserve _ => inferInstanceAs (Decidable (_ ∨ _))
  | .takeId _ => inferInstanceAs (Decidable (∀ k < _, _ → _))
  | .abortSlot _ => inferInstanceAs (Decidable (_ ∧ _))
  | .takeIdElsewhere | .send _ | .receive _ | .check _ | .spawn _ | .publish _ | .join _
  | .clear _ | .poll _ | .suspend _ | .complete _ | .reply _ | .unwind _ | .reap _ | .setFlag _
  | .shutdown | .drain _ | .halt _ => .isTrue trivial

theorem Ledger.effect (hs : Ledger limits s) (ho : InOrder s) {i : Label} (hi : enabled s i)
    (hc : Clean limits s i) : Ledger limits (effect limits s i) := by
  have hlt (j : Nat) (h : (s.jobs j).phase.holds = true) : j < s.count :=
    ho.lt_count (by grind [Phase.holds])
  have hidle (j : Nat) (h : (s.jobs j).phase = .spawned ∨ (s.jobs j).phase = .suspended) :
      (s.jobs j).phase.holds = true := by grind [Phase.holds]
  cases i with
  | reserve n => exact hs.reserve hc
  | takeId j =>
    simp only [enabled] at hi
    refine hs.of_holds ?_ ?_ rfl rfl
    · intro k
      simp only [WorkPool.effect, jobs_modify]
      grind [Phase.holds]
    · intro k
      simp only [WorkPool.effect, jobs_modify]
      grind
  | takeIdElsewhere => exact hs.of_holds (fun _ => rfl) (fun _ => rfl) rfl rfl
  | send j =>
    simp only [enabled] at hi
    have hholds : (s.jobs j).phase.holds = true := by rw [hi]; rfl
    simp only [WorkPool.effect]
    split
    · exact hs.release (hlt j hholds) hholds rfl
    · exact (hs.setPhase (q := .queued) hholds.symm).of_holds (fun _ => rfl) (fun _ => rfl) rfl rfl
  | receive j =>
    obtain ⟨rest, -, hqueued, -⟩ := ho.head hi.2
    have hholds : (s.jobs j).phase.holds = true := by rw [hqueued]; rfl
    exact (hs.setPhase (q := .taken) hholds.symm).of_holds (fun _ => rfl) (fun _ => rfl) rfl rfl
  | check j =>
    simp only [enabled] at hi
    have htaken := ho.inHand (j := j) (by rw [hi]; rfl)
    have hholds : (s.jobs j).phase.holds = true := by rw [htaken]; rfl
    simp only [WorkPool.effect]
    split
    · exact (hs.release (q := .ended .skipped) (hlt j hholds) hholds rfl).of_holds
        (fun _ => rfl) (fun _ => rfl) rfl rfl
    · exact hs.of_holds (fun _ => rfl) (fun _ => rfl) rfl rfl
  | spawn j =>
    simp only [enabled] at hi
    have htaken := ho.inHand (j := j) (by rw [hi]; rfl)
    have hholds : (s.jobs j).phase.holds = true := by rw [htaken]; rfl
    exact (hs.setPhase (q := .spawned) hholds.symm).of_holds (fun _ => rfl) (fun _ => rfl) rfl rfl
  | publish j => exact hs.of_holds (fun _ => rfl) (fun _ => rfl) rfl rfl
  | join j => exact hs.of_holds (fun _ => rfl) (fun _ => rfl) rfl rfl
  | clear j => exact hs.of_holds (fun _ => rfl) (fun _ => rfl) rfl rfl
  | poll j =>
    exact (hs.setPhase (q := .polling) (hidle j hi.1).symm).of_holds (fun _ => rfl) (fun _ => rfl)
      rfl rfl
  | suspend j =>
    simp only [enabled] at hi
    have hholds : (s.jobs j).phase.holds = true := by rw [hi]; rfl
    simp only [WorkPool.effect]
    split
    · exact hs.release (hlt j hholds) hholds rfl
    · exact hs.setPhase hholds.symm
  | complete j =>
    simp only [enabled] at hi
    have hholds : (s.jobs j).phase.holds = true := by rw [hi]; rfl
    exact hs.release (hlt j hholds) hholds rfl
  | reply j =>
    simp only [enabled] at hi
    exact hs.setPhase (by rw [hi]; rfl)
  | unwind j =>
    simp only [enabled] at hi
    have hholds : (s.jobs j).phase.holds = true := by rw [hi]; rfl
    exact hs.release (hlt j hholds) hholds rfl
  | reap j => exact hs.release (hlt j (hidle j hi.1)) (hidle j hi.1) rfl
  | setFlag j => exact hs.modify (f := OrderedJob.setFlag) (fun _ => rfl) fun _ => rfl
  | abortSlot j =>
    exact (hs.abort j).modify (f := OrderedJob.cancelReturns) (fun _ => rfl) fun _ => rfl
  | shutdown => exact hs.of_holds (fun _ => rfl) (fun _ => rfl) rfl rfl
  | drain j =>
    obtain ⟨rest, -, hqueued, -⟩ := ho.head hi.2
    have hholds : (s.jobs j).phase.holds = true := by rw [hqueued]; rfl
    exact (hs.release (q := .ended .dropped) (hlt j hholds) hholds rfl).of_holds
      (fun _ => rfl) (fun _ => rfl) rfl rfl
  | halt j => exact hs.release (hlt j (hidle j hi.2)) (hidle j hi.2) rfl

/-- `stopped` is what a returned cancel has reached: the job is yet to be checked, or its task is
told to stop, or it is past its end. -/
structure Cancelled (s : State) (k : Nat) : Prop where
  known : s.slot = some k ∨ s.driver = .spawned k → (s.jobs k).phase.sent = true
  flagged : (s.jobs k).cancelling = true ∨ (s.jobs k).cancelDone = true →
    (s.jobs k).cancelled = true ∧ (s.jobs k).phase.sent = true
  stopped : (s.jobs k).cancelDone = true → (s.jobs k).phase = .queued ∨ s.driver = .received k ∨
    (s.jobs k).aborted = true ∨ (s.jobs k).phase = .finishing ∨ (s.jobs k).phase.done = true

structure Cancels (s : State) : Prop where
  each : ∀ k, Cancelled s k
  ids : ∀ j k, (s.jobs j).phase.hasId = true → (s.jobs k).phase.hasId = true →
    (s.jobs j).id = (s.jobs k).id → j = k
  own : ∀ p ∈ s.aborts, p.2 = p.1

/-- The end of a job is past every cancel. -/
theorem Cancelled.setPhase (hs : Cancelled s k) {q : Phase}
    (hsent : (s.jobs j).phase.sent = true → q.sent = true)
    (hq : q = .finishing ∨ q.done = true) : Cancelled (s.setPhase j q) k := by
  obtain ⟨h1, h2, h3⟩ := hs
  constructor <;> simp <;> grind

theorem Cancelled.release (hs : Cancelled s k) {q : Phase}
    (hsent : (s.jobs j).phase.sent = true → q.sent = true)
    (hq : q = .finishing ∨ q.done = true) : Cancelled (s.release j q) k :=
  have h := hs.setPhase hsent hq
  ⟨h.known, h.flagged, h.stopped⟩

theorem Cancels.submit (hs : Cancels s) (ho : InOrder s) (k : Nat) :
    (∀ n, Cancelled (effect limits s (.reserve n)) k) ∧
    (∀ j, enabled s (.takeId j) → Cancelled (effect limits s (.takeId j)) k) ∧
    (∀ j, enabled s (.send j) → Cancelled (effect limits s (.send j)) k) := by
  obtain ⟨h1, h2, h3⟩ := hs.each k
  have hunused := (ho.each k).unused
  refine ⟨?_, ?_, ?_⟩
  · intro n
    simp only [effect]
    split
    · constructor <;> simp <;> grind [Phase.sent]
    · exact hs.each k
  · intro j hi
    simp only [enabled] at hi
    constructor <;> simp [effect] <;> grind [Phase.sent]
  · intro j hi
    simp only [enabled] at hi
    simp only [effect]
    split
    · exact (hs.each k).release (by simp [hi, Phase.sent]) (by simp [Phase.done])
    · constructor <;> simp <;> grind [Phase.sent]

theorem Cancels.drive (hs : Cancels s) (ho : InOrder s) (k : Nat) :
    (∀ j, enabled s (.receive j) → Cancelled (effect limits s (.receive j)) k) ∧
    (∀ j, enabled s (.check j) → Cancelled (effect limits s (.check j)) k) ∧
    (∀ j, enabled s (.spawn j) → Cancelled (effect limits s (.spawn j)) k) := by
  obtain ⟨h1, h2, h3⟩ := hs.each k
  refine ⟨?_, ?_, ?_⟩
  · intro j hi
    obtain ⟨hd, hj⟩ := hi
    constructor <;> simp [effect] <;> grind [Phase.sent]
  · intro j hi
    simp only [enabled] at hi
    simp only [effect]
    split
    · constructor <;> simp <;> grind [Phase.sent, Phase.done]
    · exact ⟨by grind, h2, by grind⟩
  · intro j hi
    simp only [enabled] at hi
    have htaken := ho.inHand (j := j) (by rw [hi]; rfl)
    constructor <;> simp [effect] <;> grind [Phase.sent, Phase.done]

theorem Cancels.publish (hs : Cancels s) (k : Nat) :
    (∀ j, enabled s (.publish j) → Cancelled (effect limits s (.publish j)) k) ∧
    (∀ j, enabled s (.join j) → Cancelled (effect limits s (.join j)) k) ∧
    (∀ j, enabled s (.clear j) → Cancelled (effect limits s (.clear j)) k) ∧
    (enabled s .shutdown → Cancelled (effect limits s .shutdown) k) := by
  obtain ⟨h1, h2, h3⟩ := hs.each k
  refine ⟨?_, ?_, ?_, ?_⟩
  · intro j hi
    simp only [enabled] at hi
    constructor <;> simp [effect] <;> grind
  · intro j hi
    obtain ⟨hd, hj⟩ := hi
    constructor <;> simp [effect] <;> grind
  · intro j hi
    simp only [enabled] at hi
    constructor <;> simp [effect] <;> grind
  · intro hi
    have hcases := Driver.atAwait_cases hi
    constructor <;> simp [effect] <;> grind

/-- A task that was told to stop is not polled, so a polled one has no cancel behind it. -/
theorem Cancels.poll (hs : Cancels s) (ho : InOrder s) (k : Nat) (hi : enabled s (.poll j)) :
    Cancelled (effect limits s (.poll j)) k := by
  obtain ⟨h1, h2, h3⟩ := hs.each k
  have htaken := (ho.each k).taken
  obtain ⟨hphase, hj⟩ := hi
  constructor <;> simp [effect] <;> grind [Phase.sent, Phase.done, Driver.inHand]

theorem Cancels.suspend (hs : Cancels s) (ho : InOrder s) (k : Nat) (hi : enabled s (.suspend j)) :
    Cancelled (effect limits s (.suspend j)) k := by
  simp only [enabled] at hi
  simp only [effect]
  split
  · exact (hs.each k).release (by simp [Phase.sent]) (by simp [Phase.done])
  · obtain ⟨h1, h2, h3⟩ := hs.each k
    have htaken := (ho.each k).taken
    constructor <;> simp <;> grind [Phase.sent, Phase.done, Driver.inHand]

/-- The cancel that looks at the slot outside the window has reached its job. -/
theorem Cancels.reached (hs : Cancels s) (ho : InOrder s) (hi : (s.jobs j).cancelling = true)
    (hc : s.driver ≠ .checked j ∧ s.driver ≠ .spawned j) :
    (s.jobs j).phase = .queued ∨ s.driver = .received j ∨ ((s.abort j).jobs j).aborted = true ∨
      (s.jobs j).phase = .finishing ∨ (s.jobs j).phase.done = true := by
  have hsent := ((hs.each j).flagged (.inl hi)).2
  have htaken := (ho.each j).taken
  have halive (h : (s.jobs j).phase.alive = true) : ((s.abort j).jobs j).aborted = true := by
    obtain hd | ⟨hslot, -⟩ := (ho.each j).lane h
    · exact absurd hd hc.2
    · simp [State.abort, hslot]
  cases hphase : (s.jobs j).phase with
  | unused | reserved | numbered =>
    rw [hphase] at hsent
    cases hsent
  | queued => exact .inl rfl
  | taken =>
    have hmem := htaken.mp hphase
    cases hd : s.driver with
    | received i => grind [Driver.inHand]
    | checked i => grind [Driver.inHand]
    | _ =>
      rw [hd] at hmem
      cases hmem
  | spawned | suspended | polling =>
    exact .inr (.inr (.inl (halive (by rw [hphase]; rfl))))
  | finishing => exact .inr (.inr (.inr (.inl rfl)))
  | ended => exact .inr (.inr (.inr (.inr rfl)))

theorem Cancels.abortSlot (hs : Cancels s) (ho : InOrder s) (k : Nat)
    (hi : (s.jobs j).cancelling = true) (hc : s.driver ≠ .checked j ∧ s.driver ≠ .spawned j) :
    Cancelled (effect limits s (.abortSlot j)) k := by
  have hreached := hs.reached ho hi hc
  obtain ⟨h1, h2, h3⟩ := hs.each k
  simp only [effect]
  obtain heq | ⟨i, hslot, -, heq⟩ := abort_cases s j
  · rw [heq] at hreached ⊢
    constructor <;> simp <;> grind
  · rw [heq] at hreached ⊢
    simp only [jobs_modify] at hreached
    constructor <;> simp <;> grind

theorem Cancels.each_effect (hs : Cancels s) (ho : InOrder s) {i : Label} (hi : enabled s i)
    (hc : Clean limits s i) (k : Nat) : Cancelled (effect limits s i) k := by
  obtain ⟨hreserve, htakeId, hsend⟩ := @Cancels.submit limits s hs ho k
  obtain ⟨hreceive, hcheck, hspawn⟩ := @Cancels.drive limits s hs ho k
  obtain ⟨hpublish, hjoin, hclear, hshutdown⟩ := @Cancels.publish limits s hs k
  have hk := hs.each k
  have hends (j : Nat) (how : Ending) (hne : how ≠ .rejected) :
      Cancelled (s.release j (.ended how)) k := by
    refine hk.release (fun _ => ?_) (.inr rfl)
    cases how <;> first | rfl | exact absurd rfl hne
  cases i with
  | reserve n => exact hreserve n
  | takeId j => exact htakeId j hi
  | takeIdElsewhere => exact ⟨hk.known, hk.flagged, hk.stopped⟩
  | send j => exact hsend j hi
  | receive j => exact hreceive j hi
  | check j => exact hcheck j hi
  | spawn j => exact hspawn j hi
  | publish j => exact hpublish j hi
  | join j => exact hjoin j hi
  | clear j => exact hclear j hi
  | poll j => exact hs.poll ho k hi
  | suspend j => exact hs.suspend ho k hi
  | complete j => exact hk.release (fun _ => rfl) (.inl rfl)
  | reply j => exact hk.setPhase (fun _ => rfl) (.inr rfl)
  | unwind j => exact hends j .panicked (by simp)
  | reap j => exact hends j .aborted (by simp)
  | setFlag j =>
    simp only [enabled] at hi
    obtain ⟨h1, h2, h3⟩ := hk
    constructor <;> simp [effect] <;> grind
  | abortSlot j => exact hs.abortSlot ho k hi hc
  | shutdown => exact hshutdown hi
  | drain j =>
    have h := hends j .dropped (by simp)
    exact ⟨h.known, h.flagged, h.stopped⟩
  | halt j => exact hends j .aborted (by simp)

/-- An id that is there after the step was there before. -/
def SameId (s t : State) (j : Nat) : Prop :=
  (t.jobs j).phase.hasId = true →
    (s.jobs j).phase.hasId = true ∧ (t.jobs j).id = (s.jobs j).id

theorem SameId.refl (s : State) (j : Nat) : SameId s s j := fun h => ⟨h, rfl⟩

theorem SameId.setPhase {q : Phase} (hk : (s.jobs k).phase.hasId = true) (j : Nat) :
    SameId s (s.setPhase k q) j := by
  intro h
  rw [phase_setPhase] at h
  refine ⟨?_, id_setPhase s k j q⟩
  grind

theorem SameId.release {q : Phase} (hk : (s.jobs k).phase.hasId = true) (j : Nat) :
    SameId s (s.release k q) j := SameId.setPhase (q := q) hk j

theorem SameId.abort (s : State) (k j : Nat) : SameId s (s.abort k) j := by
  obtain heq | ⟨l, -, -, heq⟩ := abort_cases s k
  · rw [heq]
    exact .refl s j
  · intro h
    rw [heq] at h ⊢
    simp only [jobs_modify] at h ⊢
    grind

/-- Only `takeId` gives an id. -/
theorem sameId_effect (ho : InOrder s) {i : Label} (hi : enabled s i) (hne : i ≠ .takeId j) :
    SameId s (effect limits s i) j := by
  have hidle (k : Nat) (h : (s.jobs k).phase = .spawned ∨ (s.jobs k).phase = .suspended) :
      (s.jobs k).phase.hasId = true := by grind [Phase.hasId]
  cases i with
  | reserve n =>
    simp only [effect]
    split
    · intro h
      simp only [jobs_modify] at h ⊢
      grind [Phase.hasId]
    · exact .refl s j
  | takeId k =>
    have hkj : j ≠ k := fun h => hne (by rw [h])
    intro h
    simp only [effect, jobs_modify, if_neg hkj] at h ⊢
    exact ⟨h, trivial⟩
  | takeIdElsewhere => exact .refl s j
  | send k =>
    simp only [enabled] at hi
    have hk : (s.jobs k).phase.hasId = true := by rw [hi]; rfl
    simp only [effect]
    split
    · exact .release hk j
    · exact SameId.setPhase (q := .queued) hk j
  | receive k =>
    obtain ⟨rest, -, hqueued, -⟩ := ho.head hi.2
    exact SameId.setPhase (q := .taken) (by rw [hqueued]; rfl) j
  | check k =>
    simp only [enabled] at hi
    have htaken := ho.inHand (j := k) (by rw [hi]; rfl)
    simp only [effect]
    split
    · exact SameId.release (q := .ended .skipped) (by rw [htaken]; rfl) j
    · exact .refl s j
  | spawn k =>
    simp only [enabled] at hi
    have htaken := ho.inHand (j := k) (by rw [hi]; rfl)
    exact SameId.setPhase (q := .spawned) (by rw [htaken]; rfl) j
  | publish k => exact .refl s j
  | join k => exact .refl s j
  | clear k => exact .refl s j
  | poll k => exact SameId.setPhase (q := .polling) (hidle k hi.1) j
  | suspend k =>
    simp only [enabled] at hi
    have hk : (s.jobs k).phase.hasId = true := by rw [hi]; rfl
    simp only [effect]
    split
    · exact .release hk j
    · exact .setPhase hk j
  | complete k =>
    simp only [enabled] at hi
    exact .release (by rw [hi]; rfl) j
  | reply k =>
    simp only [enabled] at hi
    exact .setPhase (by rw [hi]; rfl) j
  | unwind k =>
    simp only [enabled] at hi
    exact .release (by rw [hi]; rfl) j
  | reap k => exact .release (hidle k hi.1) j
  | setFlag k =>
    intro h
    simp only [effect, jobs_modify] at h ⊢
    grind
  | abortSlot k =>
    have habort := SameId.abort s k j
    intro h
    simp only [effect, jobs_modify] at h ⊢
    rw [SameId] at habort
    grind
  | shutdown => exact .refl s j
  | drain k =>
    obtain ⟨rest, -, hqueued, -⟩ := ho.head hi.2
    exact SameId.release (q := .ended .dropped) (by rw [hqueued]; rfl) j
  | halt k => exact .release (hidle k hi.2) j

theorem Cancels.ids_effect (hs : Cancels s) (ho : InOrder s) {i : Label} (hi : enabled s i)
    (hc : Clean limits s i) (j k : Nat)
    (hj : ((effect limits s i).jobs j).phase.hasId = true)
    (hk : ((effect limits s i).jobs k).phase.hasId = true)
    (hid : ((effect limits s i).jobs j).id = ((effect limits s i).jobs k).id) : j = k := by
  -- a fresh id is not the id of another job
  have hfresh (a b : Nat) (ha : i = .takeId a) (hb : b ≠ a)
      (hhas : ((effect limits s i).jobs b).phase.hasId = true) :
      ((effect limits s i).jobs b).id ≠ ((effect limits s i).jobs a).id := by
    obtain ⟨hbefore, hsame⟩ := sameId_effect ho hi (by rw [ha]; simpa using hb.symm) hhas
    rw [hsame]
    subst ha
    have hlt := ho.lt_count (j := b) (by grind [Phase.hasId])
    simpa [effect] using hc b hlt hbefore
  by_cases hij : i = .takeId j
  · by_contra hne
    exact hfresh j k hij (Ne.symm hne) hk hid.symm
  · by_cases hik : i = .takeId k
    · by_contra hne
      exact hfresh k j hik hne hj hid
    · obtain ⟨hj, hjid⟩ := sameId_effect ho hi hij hj
      obtain ⟨hk, hkid⟩ := sameId_effect ho hi hik hk
      exact hs.ids j k hj hk (by rw [← hjid, ← hkid, hid])

theorem Phase.hasId_of_sent {p : Phase} (h : p.sent = true) : p.hasId = true := by
  cases p <;> first | rfl | cases h

theorem Cancels.own_effect (hs : Cancels s) {i : Label} (hi : enabled s i) :
    ∀ p ∈ (effect limits s i).aborts, p.2 = p.1 := by
  have hown := hs.own
  cases i with
  | abortSlot j =>
    obtain heq | ⟨k, hslot, hid, heq⟩ := abort_cases s j
    · simpa [effect, heq] using hown
    · have hk := Phase.hasId_of_sent ((hs.each k).known (.inl hslot))
      have hj := Phase.hasId_of_sent ((hs.each j).flagged (.inl hi)).2
      have hkj := hs.ids k j hk hj hid
      intro p hp
      simp only [effect, aborts_modify, heq] at hp
      cases List.mem_append.mp hp with
      | inl hp => exact hown p hp
      | inr hp =>
        rw [List.mem_singleton.mp hp]
        exact hkj
  | reserve n =>
    simp only [effect]
    split
    · exact hown
    · exact hown
  | send j =>
    simp only [effect]
    split
    · exact hown
    · exact hown
  | check j =>
    simp only [effect]
    split
    · exact hown
    · exact hown
  | suspend j =>
    simp only [effect]
    split
    · exact hown
    · exact hown
  | _ => exact hown

theorem Cancels.effect (hs : Cancels s) (ho : InOrder s) {i : Label} (hi : enabled s i)
    (hc : Clean limits s i) : Cancels (effect limits s i) :=
  ⟨hs.each_effect ho hi hc, hs.ids_effect ho hi hc, hs.own_effect hi⟩

structure Inv (limits : PoolLimits) (s : State) : Prop where
  inOrder : InOrder s
  ledger : Ledger limits s
  cancels : Cancels s

theorem inv_start : Inv limits start where
  inOrder := by
    refine ⟨fun k => ⟨fun _ => rfl, nofun, ?_, nofun, nofun⟩, List.nodup_nil, [], rfl,
      List.Sublist.refl [], nofun⟩
    exact ⟨nofun, nofun⟩
  ledger := ⟨rfl, rfl, Nat.zero_le _, Nat.zero_le _⟩
  cancels := ⟨fun k => ⟨by simp [start], by simp [start, OrderedJob.unused],
    by simp [start, OrderedJob.unused]⟩, nofun, nofun⟩

theorem Inv.step (hs : Inv limits s) {i : Label} (hc : Clean limits s i)
    (h : step limits s i = some t) : Inv limits t := by
  obtain ⟨hi, rfl⟩ := step_eq_some.mp h
  exact ⟨hs.inOrder.effect hi, hs.ledger.effect hs.inOrder hi hc,
    hs.cancels.effect hs.inOrder hi hc⟩

/-- What the ordered pool promises in a state: the jobs that have run are in the order of their
acceptance and each ran once, no two are between spawn and end, a cancel aborted its own job
only, the gauge counts the reservations and keeps the limits, and a job whose cancel has returned
is not polled again. -/
structure Promised (limits : PoolLimits) (s : State) : Prop where
  order : s.started.Sublist s.accepted
  once : s.started.Nodup
  apart : ∀ j k, (s.jobs j).phase.alive = true → (s.jobs k).phase.alive = true → j = k
  own : ∀ p ∈ s.aborts, p.2 = p.1
  pending : s.gauge.pending = s.holders.card ∧ s.holders.card ≤ limits.maxPending
  bytes : s.gauge.retainedInputBytes = s.retained ∧ s.retained ≤ limits.maxInputBytes
  settled : (∀ j, (s.jobs j).phase.done = true) → s.gauge = ⟨0, 0⟩
  stopped : ∀ j, (s.jobs j).cancelDone = true → ¬ enabled s (.poll j) ∧
    ((s.jobs j).phase = .polling →
      ((effect limits s (.suspend j)).jobs j).phase = .ended .aborted)

theorem Inv.stopped (hs : Inv limits s) (hj : (s.jobs j).cancelDone = true) :
    ¬ enabled s (.poll j) ∧ ((s.jobs j).phase = .polling →
      ((effect limits s (.suspend j)).jobs j).phase = .ended .aborted) := by
  have hstopped := (hs.cancels.each j).stopped hj
  have htaken := (hs.inOrder.each j).taken
  have habort (h : (s.jobs j).phase.alive = true) (hne : (s.jobs j).phase ≠ .finishing) :
      (s.jobs j).aborted = true := by
    have hdone := @Phase.not_alive_of_done (s.jobs j).phase
    grind [Phase.alive, Driver.inHand]
  refine ⟨?_, ?_⟩
  · intro hi
    obtain ⟨hphase, hnot⟩ := hi
    rw [habort (by grind [Phase.alive]) (by grind)] at hnot
    cases hnot
  · intro hphase
    have haborted := habort (by rw [hphase]; rfl) (by rw [hphase]; simp)
    simp [effect, haborted]

theorem Inv.promised (hs : Inv limits s) : Promised limits s := by
  obtain ⟨left, hleft, hstarted, -⟩ := hs.inOrder.order
  have horder : s.started.Sublist s.accepted := by
    rw [hleft, List.append_assoc]
    exact hstarted.trans (List.sublist_append_left _ _)
  have hl := hs.ledger
  refine ⟨horder, hs.inOrder.nodup.sublist horder, fun j k => hs.inOrder.apart, hs.cancels.own,
    ⟨hl.pending.symm, hl.pending ▸ hl.pending_le⟩, ⟨hl.bytes.symm, hl.bytes ▸ hl.bytes_le⟩, ?_,
    fun j => hs.stopped⟩
  intro hdone
  have hnone : s.holders = ∅ := by
    refine Finset.eq_empty_of_forall_notMem ?_
    intro k hk
    have hholds := (mem_holders.mp hk).2
    rw [Phase.not_holds_of_done (hdone k)] at hholds
    cases hholds
  have hpending := hl.pending
  have hbytes := hl.bytes
  rw [State.retained, hnone, Finset.sum_empty] at hbytes
  rw [hnone, Finset.card_empty] at hpending
  exact Gauge.ext hpending.symm hbytes.symm

theorem ordered_pool_promised (limits : PoolLimits) (is : List Label) (s : State)
    (hclean : Along (step limits) (Clean limits) start is) (h : run (step limits) start is = some s) :
    Promised limits s :=
  (run_invariant (fun _ _ _ hs hc hi => Inv.step hs hc hi) inv_start hclean h).promised

/-- Two jobs: the first is cancelled while it runs, the second while it waits in the channel. -/
theorem ordered_pool_promised_cancels : ∃ s, run (step ⟨2, 10, by decide⟩) start
    [.reserve 4, .takeId 0, .send 0, .reserve 6, .takeIdElsewhere, .takeId 1, .send 1, .receive 0,
      .check 0, .spawn 0, .publish 0, .poll 0, .setFlag 0, .abortSlot 0, .setFlag 1, .abortSlot 1,
      .suspend 0, .join 0, .clear 0, .receive 1, .check 1] = some s ∧
    Promised ⟨2, 10, by decide⟩ s := by
  refine ⟨_, rfl, ordered_pool_promised ⟨2, 10, by decide⟩ [.reserve 4, .takeId 0, .send 0,
    .reserve 6, .takeIdElsewhere, .takeId 1, .send 1, .receive 0, .check 0, .spawn 0, .publish 0,
    .poll 0, .setFlag 0, .abortSlot 0, .setFlag 1, .abortSlot 1, .suspend 0, .join 0, .clear 0,
    .receive 1, .check 1] _ ?_ rfl⟩
  decide

/-- The cancel falls between the check of the flag and the publication of the slot. -/
theorem ordered_pool_not_promised : ¬ ∀ limits is s,
    run (step limits) start is = some s → Promised limits s := by
  intro h
  have hlost := (h ⟨1, 1, by decide⟩ [.reserve 1, .takeId 0, .send 0, .receive 0, .check 0,
    .setFlag 0, .abortSlot 0, .spawn 0, .publish 0] _ rfl).stopped 0
  exact absurd hlost (by decide)

end NemesisBot.WorkPool

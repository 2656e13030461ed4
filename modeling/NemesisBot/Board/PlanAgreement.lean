import NemesisBot.Board.Planner
import NemesisBot.Lib.Bytes

/-! The dependency checks accept the acyclic plans, and the two parsers agree. -/
namespace NemesisBot.Board
open Strings Cycles ThreeColour Bytes

/-! The dependencies. -/

/-- The sub-issue `a` depends on the sub-issue `b`. -/
def DependsOn (plan : List PlannedSubIssue) (a b : Nat) : Prop :=
  ∃ sub, plan[a]? = some sub ∧ b ∈ sub.dependsOn

def InRange (plan : List PlannedSubIssue) : Prop :=
  ∀ sub ∈ plan, ∀ dep ∈ sub.dependsOn, dep < plan.length

/-- The dependency checks of the sub-issues in turn. -/
def checkAllDepends (total : Nat) : Nat → List PlannedSubIssue → Checked Unit
  | _, [] => .ok ()
  | index, sub :: subs => do
    checkDepends total index sub.dependsOn
    checkAllDepends total (index + 1) subs

/-- The checks of a plan's dependencies on their own. -/
def checkDependencies (plan : List PlannedSubIssue) : Checked Unit := do
  checkAllDepends plan.length 0 plan
  detectCycle plan

theorem checkDepends_eq_ok {total index : Nat} {deps : List Nat} :
    checkDepends total index deps = .ok () ↔ ∀ dep ∈ deps, dep < total ∧ dep ≠ index := by
  induction deps with
  | nil => simp [checkDepends]
  | cons dep deps ih =>
    rw [checkDepends, List.forall_mem_cons]
    split
    · rename_i hge
      exact iff_of_false (fun h => by cases h) fun h => absurd h.1.1 (by omega)
    · split
      · rename_i heq
        exact iff_of_false (fun h => by cases h) fun h => h.1.2 heq
      · rename_i hge hne
        rw [ih]
        exact (and_iff_right ⟨by omega, hne⟩).symm

theorem checkAllDepends_eq_ok {total index : Nat} {plan : List PlannedSubIssue} :
    checkAllDepends total index plan = .ok () ↔
      ∀ i sub, plan[i]? = some sub → ∀ dep ∈ sub.dependsOn, dep < total ∧ dep ≠ index + i := by
  induction plan generalizing index with
  | nil => simp [checkAllDepends]
  | cons sub subs ih =>
    rw [checkAllDepends, bind_eq_ok]
    constructor
    · rintro ⟨⟨⟩, hfirst, hrest⟩ i s hs dep hdep
      cases i with
      | zero =>
        obtain rfl : sub = s := by simpa using hs
        exact checkDepends_eq_ok.mp hfirst dep hdep
      | succ i =>
        have hr := ih.mp hrest i s (by simpa using hs) dep hdep
        exact ⟨hr.1, by omega⟩
    · intro h
      refine ⟨(), checkDepends_eq_ok.mpr fun dep hdep => h 0 sub rfl dep hdep, ih.mpr ?_⟩
      intro i s hs dep hdep
      have hr := h (i + 1) s (by simpa using hs) dep hdep
      exact ⟨hr.1, by omega⟩

theorem adj_dependencies (plan : List PlannedSubIssue) (a b : Nat) :
    Adj (dependencies plan) a b ↔ DependsOn plan a b := by
  constructor
  · rintro ⟨ts, hts, hb⟩
    obtain ⟨sub, hsub, rfl⟩ := Option.map_eq_some_iff.mp hts
    exact ⟨sub, hsub, hb⟩
  · rintro ⟨sub, hsub, hb⟩
    exact ⟨sub.dependsOn, by rw [dependencies, hsub, Option.map_some], hb⟩

section InRange
variable {plan : List PlannedSubIssue} (h : InRange plan)

theorem mem_range_iff (plan : List PlannedSubIssue) (a : Nat) :
    a ∈ List.range plan.length ↔ (dependencies plan a).isSome := by
  simp [dependencies]

include h in
theorem InRange.closed (a b : Nat) (hab : Adj (dependencies plan) a b) :
    (dependencies plan b).isSome := by
  obtain ⟨sub, hsub, hb⟩ := (adj_dependencies plan a b).mp hab
  exact (mem_range_iff plan b).mp
    (List.mem_range.mpr (h sub (List.mem_of_getElem? hsub) b hb))

include h in
/-- With all dependencies in range the search fails on cycles only, and names one. -/
theorem detectCycle_error {stop : Stop} (he : detectCycle plan = .error stop) :
    ∃ members, stop = cycleStop (.cycle members) ∧ IsCycle (dependencies plan) members := by
  rw [detectCycle] at he
  split at he
  · cases he
  · rename_i e hsearch
    obtain rfl := Except.error.inj he
    have hlen : (List.range plan.length).length = plan.length := List.length_range
    rw [← hlen] at hsearch
    obtain ⟨members, rfl, hcycle⟩ :=
      search_error (mem_range_iff plan) h.closed (by simpa [List.length_range] using hsearch)
    exact ⟨members, rfl, hcycle⟩

include h in
theorem detectCycle_eq_ok : detectCycle plan = .ok () ↔ Acyclic (DependsOn plan) := by
  have hadj : Adj (dependencies plan) = DependsOn plan :=
    funext fun a => funext fun b => propext (adj_dependencies plan a b)
  rw [← hadj, ← search_ok_iff (mem_range_iff plan) h.closed, List.length_range, detectCycle]
  split
  · rename_i m hm
    exact iff_of_true rfl ⟨m, hm⟩
  · rename_i e he
    refine iff_of_false (fun h => by cases h) ?_
    rintro ⟨m, hm⟩
    rw [he] at hm
    cases hm

end InRange

/-- The dependency checks accept exactly the plans whose dependencies are in range and
acyclic. -/
theorem checkDependencies_eq_ok (plan : List PlannedSubIssue) :
    checkDependencies plan = .ok () ↔ InRange plan ∧ Acyclic (DependsOn plan) := by
  rw [checkDependencies, bind_eq_ok]
  constructor
  · rintro ⟨⟨⟩, hall, hcycle⟩
    have hrange : InRange plan := by
      intro sub hsub dep hdep
      obtain ⟨i, hi⟩ := List.getElem?_of_mem hsub
      exact (checkAllDepends_eq_ok.mp hall i sub hi dep hdep).1
    exact ⟨hrange, (detectCycle_eq_ok hrange).mp hcycle⟩
  · rintro ⟨hrange, hacyclic⟩
    refine ⟨(), checkAllDepends_eq_ok.mpr ?_, (detectCycle_eq_ok hrange).mpr hacyclic⟩
    intro i sub hi dep hdep
    refine ⟨hrange sub (List.mem_of_getElem? hi) dep hdep, ?_⟩
    rintro rfl
    exact hacyclic _ (.single ⟨sub, hi, by simpa using hdep⟩)

/-! One sub-issue in the two parsers. -/

/-- No backend, or one of the two in any case. -/
def BackendKnown (raw : Text) : Prop :=
  trim raw = [] ∨ normalizeBackend raw = "process".toList ∨ normalizeBackend raw = "vm".toList

theorem orRefuse_eq_ok {e : Option PlanParseError} : orRefuse e = .ok () ↔ e = none := by
  cases e with
  | none => exact iff_of_true rfl rfl
  | some e => exact iff_of_false (fun h => by cases h) fun h => by cases h

theorem checkTitle_eq_ok {index : Nat} {sub : PlannedSubIssue} :
    checkTitle index sub = .ok () ↔ trim sub.title ≠ [] := by
  rw [checkTitle]
  split
  · rename_i h
    exact iff_of_false (fun h => by cases h) fun hne => hne h
  · rename_i h
    exact iff_of_true rfl h

theorem capabilitiesFormatError_eq_none {index : Nat} {caps : List Text} :
    capabilitiesFormatError index caps = none ↔
      ∀ cap ∈ caps, capabilityMalformed cap = false := by
  rw [capabilitiesFormatError, Option.map_eq_none_iff, List.find?_eq_none]
  simp

theorem strictBackend_eq_ok {index : Nat} {raw backend : Text} :
    strictBackend index raw = .ok backend ↔ BackendKnown raw ∧ backend = lenientBackend raw := by
  rw [strictBackend, lenientBackend, BackendKnown]
  by_cases hblank : trim raw = []
  · rw [if_pos hblank, if_pos hblank]
    refine ⟨fun h => ⟨Or.inl hblank, (Except.ok.inj h).symm⟩, fun h => ?_⟩
    rw [h.2]
  · have hne : normalizeBackend raw ≠ [] := by simpa [normalizeBackend] using hblank
    by_cases hknown : normalizeBackend raw = "process".toList ∨
        normalizeBackend raw = "vm".toList
    · have hnone : backendFormatError index (normalizeBackend raw) = none := by
        rw [backendFormatError, if_pos (Or.inr hknown)]
      rw [if_neg hblank, if_neg hblank, if_pos hknown, hnone]
      refine ⟨fun h => ⟨Or.inr hknown, (Except.ok.inj h).symm⟩, fun h => ?_⟩
      rw [h.2]
      rfl
    · rw [if_neg hblank, backendFormatError, if_neg (not_or.mpr ⟨hne, hknown⟩)]
      exact iff_of_false (fun h => by cases h) fun h => hknown (h.1.resolve_left hblank)

/-- A sub-issue passes the strict parser with its backend in lower case. -/
theorem checkSub_eq_ok {total index : Nat} {sub sub' : PlannedSubIssue} :
    checkSub total index sub = .ok sub' ↔
      (trim sub.title ≠ [] ∧ BackendKnown sub.requiredBackend ∧
        professionFormatError index sub.requiredProfession = none ∧
        (∀ cap ∈ sub.requiredCapabilities, capabilityMalformed cap = false) ∧
        ∀ dep ∈ sub.dependsOn, dep < total ∧ dep ≠ index) ∧
      sub' = { sub with requiredBackend := lenientBackend sub.requiredBackend } := by
  simp only [checkSub, bind_eq_ok]
  constructor
  · rintro ⟨⟨⟩, htitle, backend, hbackend, ⟨⟩, hprofession, ⟨⟩, hcaps, ⟨⟩, hdeps, h⟩
    obtain ⟨hknown, rfl⟩ := strictBackend_eq_ok.mp hbackend
    exact ⟨⟨checkTitle_eq_ok.mp htitle, hknown, orRefuse_eq_ok.mp hprofession,
      capabilitiesFormatError_eq_none.mp (orRefuse_eq_ok.mp hcaps), checkDepends_eq_ok.mp hdeps⟩,
      (Except.ok.inj h).symm⟩
  · rintro ⟨⟨htitle, hknown, hprofession, hcaps, hdeps⟩, rfl⟩
    exact ⟨(), checkTitle_eq_ok.mpr htitle, _, strictBackend_eq_ok.mpr ⟨hknown, rfl⟩, (),
      orRefuse_eq_ok.mpr hprofession, (),
      orRefuse_eq_ok.mpr (capabilitiesFormatError_eq_none.mpr hcaps), (),
      checkDepends_eq_ok.mpr hdeps, rfl⟩

/-- The profession and what was noted of it. -/
def lenientProfession (index : Nat) (raw : Text) : Text × List (Nat × Text) :=
  if (professionFormatError index raw).isSome then ([], [(index, raw)]) else (raw, [])

/-- A sub-issue passes the lenient parser without what cannot be used. -/
theorem lenientSub_eq_ok {total index : Nat} {sub : PlannedSubIssue}
    {result : PlannedSubIssue × List (Nat × Text)} :
    lenientSub total index sub = .ok result ↔
      (trim sub.title ≠ [] ∧ ∀ dep ∈ sub.dependsOn, dep < total ∧ dep ≠ index) ∧
      result = ({ sub with
        requiredProfession := (lenientProfession index sub.requiredProfession).1
        requiredBackend := lenientBackend sub.requiredBackend
        requiredCapabilities :=
          sub.requiredCapabilities.filter fun cap => !capabilityMalformed cap },
        (lenientProfession index sub.requiredProfession).2) := by
  have hfilter : (fun cap => trim cap ≠ [] && !(trim cap).any isWhitespace &&
      (trim cap).length ≤ 64) = fun cap => !capabilityMalformed cap := by
    funext cap
    have hlength : decide ((trim cap).length ≤ 64) = !decide ((trim cap).length > 64) := by
      rw [← decide_not]
      exact decide_eq_decide.mpr Nat.not_lt.symm
    simp [capabilityMalformed, Bool.and_assoc, hlength]
  simp only [lenientSub, bind_eq_ok, hfilter]
  constructor
  · rintro ⟨⟨⟩, htitle, ⟨⟩, hdeps, h⟩
    refine ⟨⟨checkTitle_eq_ok.mp htitle, checkDepends_eq_ok.mp hdeps⟩, ?_⟩
    rw [← Except.ok.inj h, lenientProfession]
    split <;> rfl
  · rintro ⟨⟨htitle, hdeps⟩, rfl⟩
    refine ⟨(), checkTitle_eq_ok.mpr htitle, (), checkDepends_eq_ok.mpr hdeps, ?_⟩
    rw [lenientProfession]
    split <;> rfl

/-- What the strict parser accepts the lenient one leaves as it is. -/
theorem lenientSub_of_checkSub {total index : Nat} {sub sub' : PlannedSubIssue}
    (h : checkSub total index sub = .ok sub') : lenientSub total index sub = .ok (sub', []) := by
  obtain ⟨⟨htitle, -, hprofession, hcaps, hdeps⟩, rfl⟩ := checkSub_eq_ok.mp h
  refine lenientSub_eq_ok.mpr ⟨⟨htitle, hdeps⟩, ?_⟩
  have hkept : (sub.requiredCapabilities.filter fun cap => !capabilityMalformed cap) =
      sub.requiredCapabilities :=
    List.filter_eq_self.mpr fun cap hcap => by rw [hcaps cap hcap, Bool.not_false]
  rw [hkept, lenientProfession, hprofession]
  rfl

theorem lenientBackend_known (raw : Text) : BackendKnown (lenientBackend raw) ∧
    lenientBackend (lenientBackend raw) = lenientBackend raw := by
  have hfix : ∀ s ∈ [[], "process".toList, "vm".toList],
      BackendKnown s ∧ lenientBackend s = s := by
    intro s hs
    fin_cases hs
    · exact ⟨Or.inl (by decide), by decide⟩
    · exact ⟨Or.inr (Or.inl (by decide)), by decide⟩
    · exact ⟨Or.inr (Or.inr (by decide)), by decide⟩
  by_cases hblank : trim raw = []
  · have hself : lenientBackend raw = raw := by rw [lenientBackend, if_pos hblank]
    rw [hself, hself]
    exact ⟨Or.inl hblank, rfl⟩
  · refine hfix _ ?_
    rw [lenientBackend, if_neg hblank]
    split
    · rename_i hknown
      simpa using Or.inr hknown
    · exact List.mem_cons_self

/-- What the lenient parser leaves of a sub-issue the strict one accepts as it is. -/
theorem checkSub_of_lenientSub {total index : Nat} {sub sub' : PlannedSubIssue}
    {dropped : List (Nat × Text)} (h : lenientSub total index sub = .ok (sub', dropped)) :
    checkSub total index sub' = .ok sub' := by
  obtain ⟨⟨htitle, hdeps⟩, he⟩ := lenientSub_eq_ok.mp h
  obtain rfl := (Prod.mk.inj he).1
  obtain ⟨hknown, hbackend⟩ := lenientBackend_known sub.requiredBackend
  refine checkSub_eq_ok.mpr ⟨⟨htitle, hknown, ?_, ?_, hdeps⟩, ?_⟩
  · rw [lenientProfession]
    split
    · rfl
    · rename_i hnone
      simpa using hnone
  · intro cap hcap
    simpa using (List.mem_filter.mp hcap).2
  · rw [hbackend]

/-! The whole plan. -/

theorem lenientSubs_of_checkSubs {total index : Nat} {subs subs' : List PlannedSubIssue}
    (h : checkSubs total index subs = .ok subs') :
    lenientSubs total index subs = .ok (subs', []) := by
  induction subs generalizing index subs' with
  | nil =>
    obtain rfl := Except.ok.inj h
    rfl
  | cons sub subs ih =>
    rw [checkSubs] at h
    obtain ⟨sub', hsub, h⟩ := bind_eq_ok.mp h
    obtain ⟨rest, hrest, h⟩ := bind_eq_ok.mp h
    obtain rfl := Except.ok.inj h
    rw [lenientSubs]
    exact bind_eq_ok.mpr ⟨_, lenientSub_of_checkSub hsub, bind_eq_ok.mpr ⟨_, ih hrest, rfl⟩⟩

theorem checkSubs_of_lenientSubs {total index : Nat} {subs subs' : List PlannedSubIssue}
    {dropped : List (Nat × Text)} (h : lenientSubs total index subs = .ok (subs', dropped)) :
    subs'.length = subs.length ∧ checkSubs total index subs' = .ok subs' := by
  induction subs generalizing index subs' dropped with
  | nil =>
    obtain rfl := (Prod.mk.inj (Except.ok.inj h)).1
    exact ⟨rfl, rfl⟩
  | cons sub subs ih =>
    rw [lenientSubs] at h
    obtain ⟨⟨sub', first⟩, hsub, h⟩ := bind_eq_ok.mp h
    obtain ⟨⟨rest, later⟩, hrest, h⟩ := bind_eq_ok.mp h
    obtain rfl := (Prod.mk.inj (Except.ok.inj h)).1
    obtain ⟨hlen, hchecked⟩ := ih hrest
    refine ⟨by rw [List.length_cons, List.length_cons, hlen], ?_⟩
    rw [checkSubs]
    exact bind_eq_ok.mpr ⟨_, checkSub_of_lenientSub hsub, bind_eq_ok.mpr ⟨_, hchecked, rfl⟩⟩

theorem checkCount_congr {plan plan' : List PlannedSubIssue} (h : plan'.length = plan.length)
    (hc : checkCount plan = .ok ()) : checkCount plan' = .ok () := by
  rw [checkCount] at hc ⊢
  have hnil : plan' = [] ↔ plan = [] := by
    rw [← List.length_eq_zero_iff, ← List.length_eq_zero_iff, h]
  split at hc
  · cases hc
  · rename_i hne
    rw [if_neg (mt hnil.mp hne), h]
    split at hc
    · cases hc
    · rename_i hle
      rw [if_neg hle]

theorem extractJsonArray_brackets {s : Text} (hfirst : s.head? = some '[')
    (hlast : s.getLast? = some ']') : extractJsonArray s = some s := by
  have hopen : s.dropWhile (· ≠ '[') = s := by
    obtain ⟨rest, rfl⟩ := List.head?_eq_some_iff.mp hfirst
    simp
  have hclose : s.reverse.dropWhile (· ≠ ']') = s.reverse := by
    obtain ⟨front, rfl⟩ := List.getLast?_eq_some_iff.mp hlast
    simp
  have hne : s ≠ [] := fun h => by simp [h] at hfirst
  rw [extractJsonArray, hopen, hclose, List.reverse_reverse, if_neg hne]

/-- What the lenient parser returns passes the checks of the strict one, unchanged. -/
theorem checkPlan_of_lenient {reader : Reader} {raw : Text} {result : LenientPlan}
    (h : parsePlanLenient reader raw = .ok result) : checkPlan result.plan = .ok result.plan := by
  obtain ⟨plan, -, h⟩ := bind_eq_ok.mp h
  obtain ⟨⟨⟩, hcount, h⟩ := bind_eq_ok.mp h
  obtain ⟨⟨subs, dropped⟩, hsubs, h⟩ := bind_eq_ok.mp h
  obtain ⟨⟨⟩, hcycle, h⟩ := bind_eq_ok.mp h
  obtain ⟨⟨⟩, htouch, h⟩ := bind_eq_ok.mp h
  obtain rfl := Except.ok.inj h
  obtain ⟨hlen, hchecked⟩ := checkSubs_of_lenientSubs hsubs
  refine bind_eq_ok.mpr ⟨(), checkCount_congr hlen hcount, bind_eq_ok.mpr ⟨subs, ?_, ?_⟩⟩
  · rw [hlen]
    exact hchecked
  · exact bind_eq_ok.mpr ⟨(), hcycle, bind_eq_ok.mpr ⟨(), htouch, rfl⟩⟩

/-! No text crashes a parser. -/

def Safe {β : Type} (x : Checked β) : Prop := x ≠ .error .crashed

theorem safe_ok {β : Type} (a : β) : Safe (.ok a : Checked β) := fun h => by cases h

theorem safe_refuse {β : Type} (message : Text) : Safe (refuse message : Checked β) :=
  fun h => by cases h

theorem Safe.bind {β γ : Type} {x : Checked β} {f : β → Checked γ} (hx : Safe x)
    (hf : ∀ a, x = .ok a → Safe (f a)) : Safe (x >>= f) := by
  cases x with
  | error stop =>
    intro h
    exact hx (congrArg Except.error (Except.error.inj h))
  | ok a => exact hf a rfl

theorem safe_orRefuse (e : Option PlanParseError) : Safe (orRefuse e) := by
  cases e with
  | none => exact safe_ok ()
  | some e => exact fun h => by cases h

theorem safe_checkTitle (index : Nat) (sub : PlannedSubIssue) : Safe (checkTitle index sub) := by
  rw [checkTitle]
  split
  · exact safe_refuse _
  · exact safe_ok ()

theorem safe_checkDepends (total index : Nat) (deps : List Nat) :
    Safe (checkDepends total index deps) := by
  induction deps with
  | nil => exact safe_ok ()
  | cons dep deps ih =>
    rw [checkDepends]
    split
    · exact safe_refuse _
    · split
      · exact safe_refuse _
      · exact ih

theorem safe_strictBackend (index : Nat) (raw : Text) : Safe (strictBackend index raw) := by
  rw [strictBackend]
  split
  · exact safe_ok raw
  · cases backendFormatError index (normalizeBackend raw) with
    | none => exact safe_ok _
    | some e => exact fun h => by cases h

theorem safe_checkSubs (total index : Nat) (subs : List PlannedSubIssue) :
    Safe (checkSubs total index subs) := by
  induction subs generalizing index with
  | nil => exact safe_ok []
  | cons sub subs ih =>
    refine Safe.bind ?_ fun sub' _ => (ih (index + 1)).bind fun _ _ => safe_ok _
    refine (safe_checkTitle index sub).bind fun _ _ => ?_
    refine (safe_strictBackend index sub.requiredBackend).bind fun _ _ => ?_
    refine (safe_orRefuse _).bind fun _ _ => (safe_orRefuse _).bind fun _ _ => ?_
    exact (safe_checkDepends total index sub.dependsOn).bind fun _ _ => safe_ok _

theorem safe_lenientSubs (total index : Nat) (subs : List PlannedSubIssue) :
    Safe (lenientSubs total index subs) := by
  induction subs generalizing index with
  | nil => exact safe_ok _
  | cons sub subs ih =>
    refine Safe.bind ?_ fun _ _ => (ih (index + 1)).bind fun _ _ => safe_ok _
    refine (safe_checkTitle index sub).bind fun _ _ => ?_
    exact (safe_checkDepends total index sub.dependsOn).bind fun _ _ => safe_ok _

/-- The search that looks for cycles stays in bounds, and ends. -/
theorem InRange.safe {plan : List PlannedSubIssue} (h : InRange plan) :
    Safe (detectCycle plan) := by
  intro he
  obtain ⟨members, hstop, -⟩ := detectCycle_error h he
  cases hstop

theorem inRange_of_lenientSubs {total index : Nat} {subs : List PlannedSubIssue}
    {result : List PlannedSubIssue × List (Nat × Text)}
    (h : lenientSubs total index subs = .ok result) :
    result.1.length = subs.length ∧ ∀ sub ∈ result.1, ∀ dep ∈ sub.dependsOn, dep < total := by
  induction subs generalizing index result with
  | nil =>
    obtain rfl := Except.ok.inj h
    exact ⟨rfl, by simp⟩
  | cons sub subs ih =>
    obtain ⟨first, hfirst, h⟩ := bind_eq_ok.mp h
    obtain ⟨rest, hrest, h⟩ := bind_eq_ok.mp h
    obtain rfl := Except.ok.inj h
    obtain ⟨⟨-, hdeps⟩, rfl⟩ := lenientSub_eq_ok.mp hfirst
    obtain ⟨hlen, hin⟩ := ih hrest
    refine ⟨by rw [List.length_cons, List.length_cons, hlen], ?_⟩
    exact List.forall_mem_cons.mpr ⟨fun dep hdep => (hdeps dep hdep).1, hin⟩

theorem safe_detectCycle {subs : List PlannedSubIssue}
    {result : List PlannedSubIssue × List (Nat × Text)}
    (h : lenientSubs subs.length 0 subs = .ok result) : Safe (detectCycle result.1) := by
  obtain ⟨hlen, hin⟩ := inRange_of_lenientSubs h
  refine InRange.safe fun sub hsub dep hdep => ?_
  rw [hlen]
  exact hin sub hsub dep hdep

theorem safe_readPlan (reader : Reader) (raw : Text) : Safe (readPlan reader raw) := by
  rw [readPlan]
  split
  · exact safe_refuse _
  · split
    · exact safe_refuse _
    · exact safe_ok _

theorem safe_checkCount (plan : List PlannedSubIssue) : Safe (checkCount plan) := by
  rw [checkCount]
  split
  · exact safe_refuse _
  · split
    · exact safe_refuse _
    · exact safe_ok ()

theorem safe_analyzeSharedTouch (plan : List PlannedSubIssue) :
    Safe (analyzeSharedTouch plan) := by
  rw [analyzeSharedTouch]
  split
  · exact safe_ok ()
  · exact safe_refuse _

theorem parsePlan_safe (reader : Reader) (raw : Text) : Safe (parsePlan reader raw) := by
  refine (safe_readPlan reader raw).bind fun plan _ => ?_
  refine (safe_checkCount plan).bind fun _ _ => ?_
  refine (safe_checkSubs plan.length 0 plan).bind fun subs hsubs => ?_
  refine (safe_detectCycle (lenientSubs_of_checkSubs hsubs)).bind fun _ _ => ?_
  exact (safe_analyzeSharedTouch subs).bind fun _ _ => safe_ok _

theorem parsePlanLenient_safe (reader : Reader) (raw : Text) :
    Safe (parsePlanLenient reader raw) := by
  refine (safe_readPlan reader raw).bind fun plan _ => ?_
  refine (safe_checkCount plan).bind fun _ _ => ?_
  refine (safe_lenientSubs plan.length 0 plan).bind fun result hresult => ?_
  refine (safe_detectCycle hresult).bind fun _ _ => ?_
  exact (safe_analyzeSharedTouch result.1).bind fun _ _ => safe_ok _

/-- Whatever reads and prints plans: the dependency checks accept exactly the plans whose
dependencies are in range and acyclic. What the strict parser accepts the lenient one accepts as
the same plan with nothing dropped. What the lenient one returns passes the strict checks, and
the strict parser reads it back from any text between brackets that stands for it. -/
theorem parsers_agree (reader : Reader) :
    (∀ plan, checkDependencies plan = .ok () ↔ InRange plan ∧ Acyclic (DependsOn plan)) ∧
    (∀ raw plan, parsePlan reader raw = .ok plan →
      parsePlanLenient reader raw = .ok ⟨plan, []⟩) ∧
    (∀ raw result, parsePlanLenient reader raw = .ok result →
      checkPlan result.plan = .ok result.plan ∧
      ∀ printed : Text, printed.head? = some '[' → printed.getLast? = some ']' →
        reader printed = .ok result.plan → parsePlan reader printed = .ok result.plan) := by
  refine ⟨checkDependencies_eq_ok, fun raw plan h => ?_, fun raw result h => ?_⟩
  · obtain ⟨read, hread, h⟩ := bind_eq_ok.mp h
    obtain ⟨⟨⟩, hcount, h⟩ := bind_eq_ok.mp h
    obtain ⟨subs, hsubs, h⟩ := bind_eq_ok.mp h
    obtain ⟨⟨⟩, hcycle, h⟩ := bind_eq_ok.mp h
    obtain ⟨⟨⟩, htouch, h⟩ := bind_eq_ok.mp h
    obtain rfl := Except.ok.inj h
    exact bind_eq_ok.mpr ⟨read, hread, bind_eq_ok.mpr ⟨(), hcount, bind_eq_ok.mpr
      ⟨_, lenientSubs_of_checkSubs hsubs, bind_eq_ok.mpr ⟨(), hcycle, bind_eq_ok.mpr
        ⟨(), htouch, rfl⟩⟩⟩⟩⟩
  · have hchecked := checkPlan_of_lenient h
    refine ⟨hchecked, fun printed hfirst hlast hreader => ?_⟩
    refine bind_eq_ok.mpr ⟨result.plan, ?_, hchecked⟩
    rw [readPlan, extractJsonArray_brackets hfirst hlast]
    simp only [hreader]

end NemesisBot.Board

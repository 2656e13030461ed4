import NemesisBot.Lib.Runs
import NemesisBot.Lib.Strings

/-! The ledger that counts how often an issue failed in a row, and the causes it should
count. -/
namespace NemesisBot.FailStreak
open Runs Strings

inductive ReviewVerdict where
  | pass
  | fail
  | unsure
  deriving DecidableEq, Repr

def ReviewVerdict.asStr : ReviewVerdict → Text
  | .pass => "PASS".toList
  | .fail => "FAIL".toList
  | .unsure => "UNSURE".toList

/-- The line of the anchor, and whether it held. -/
structure AnchorResult where
  raw : Text
  passed : Bool
  deriving DecidableEq

/-- A review that did not pass the work. -/
structure Failure where
  anchorResults : List AnchorResult
  verdict : ReviewVerdict
  deriving DecidableEq

def failed (anchorResults : List AnchorResult) : List Text :=
  (anchorResults.filter fun r => !r.passed).map AnchorResult.raw

def failureSignature (anchorResults : List AnchorResult) (verdict : ReviewVerdict) : Text :=
  let failed := failed anchorResults
  let anchorPart :=
    if failed.isEmpty then "no-anchors".toList
    else join ['|'] (failed.mergeSort fun a b => decide (a ≤ b))
  verdict.asStr.map Char.toLower ++ '|' :: anchorPart

structure StreakEntry where
  signature : Text
  count : UInt32
  deriving DecidableEq, Repr

/-- The entries on disk, by issue. -/
abbrev LedgerFile := Int → Option StreakEntry

def LedgerFile.default : LedgerFile := fun _ => none

inductive StreakOutcome where
  | continue (count : UInt32)
  | tripped (count : UInt32)
  deriving DecidableEq, Repr

def StreakOutcome.count : StreakOutcome → UInt32
  | .continue n => n
  | .tripped n => n

def failStreakThreshold : UInt32 := 3

/-- What is on disk, or else what the ledger holds itself. -/
def reload (file : Option LedgerFile) (inner : LedgerFile) : LedgerFile := file.getD inner

/-- The entry after one more failure. -/
def bump (entry : Option StreakEntry) (signature : Text) : StreakEntry :=
  let entry := entry.getD ⟨signature, 0⟩
  let entry := if entry.signature ≠ signature then ⟨signature, 0⟩ else entry
  { entry with count := entry.count + 1 }

/-- The entries are saved and kept as they are returned. -/
def recordAndCheck (file : Option LedgerFile) (inner : LedgerFile) (issue : Int)
    (signature : Text) : LedgerFile × StreakOutcome :=
  let issues := reload file inner
  let entry := bump (issues issue) signature
  (Function.update issues issue (some entry),
    if failStreakThreshold ≤ entry.count then .tripped entry.count else .continue entry.count)

/-- The entries that are kept, and the file. -/
def clear (file : Option LedgerFile) (inner : LedgerFile) (issue : Int) :
    LedgerFile × Option LedgerFile :=
  let issues := reload file inner
  let left := Function.update issues issue none
  (left, if (issues issue).isSome then some left else file)

/-- The file of the workspace and what the loaded ledgers hold. -/
structure World where
  file : Option LedgerFile
  ledgers : List LedgerFile

def World.start : World := ⟨none, []⟩

inductive Call where
  | load
  | record (ledger : Nat) (issue : Int) (failure : Failure)
  | clear (ledger : Nat) (issue : Int)
  deriving DecidableEq

def Failure.signature (f : Failure) : Text := failureSignature f.anchorResults f.verdict

/-- One call; the lock keeps calls apart. -/
def step (s : World) : Call → Option World
  | .load => some { s with ledgers := s.ledgers ++ [reload s.file LedgerFile.default] }
  | .record l issue f => s.ledgers[l]?.map fun inner =>
    let after := (recordAndCheck s.file inner issue f.signature).1
    ⟨some after, s.ledgers.set l after⟩
  | .clear l issue => s.ledgers[l]?.map fun inner =>
    let after := FailStreak.clear s.file inner issue
    ⟨after.2, s.ledgers.set l after.1⟩

/-- What a recorded failure is answered. -/
def answer (s : World) (l : Nat) (issue : Int) (f : Failure) : Option StreakOutcome :=
  s.ledgers[l]?.map fun inner => (recordAndCheck s.file inner issue f.signature).2

/-! What is to be counted: failures for one cause in a row. -/

/-- The verdict and the failed anchors, however often and in whatever order. -/
def Failure.cause (f : Failure) : ReviewVerdict × Multiset Text :=
  (f.verdict, (failed f.anchorResults : Multiset Text))

/-- The failures of an issue since it was cleared, the latest first. -/
def since (issue : Int) (past : List Call) : List Failure :=
  past.foldl (fun fs c => match c with
    | .load => fs
    | .record _ i f => if i = issue then f :: fs else fs
    | .clear _ i => if i = issue then [] else fs) []

variable {κ : Type*} [DecidableEq κ]

/-- How many failures in a row, from the latest on, share what `key` reads off them. -/
def repeats (key : Failure → κ) (f : Failure) (fs : List Failure) : Nat :=
  (fs.takeWhile fun g => key g = key f).length

/-- The entry that stands for these failures. -/
def entryOf : List Failure → Option StreakEntry
  | [] => none
  | f :: fs => some ⟨f.signature, UInt32.ofNat (1 + repeats Failure.signature f fs)⟩

theorem since_concat (issue : Int) (past : List Call) (c : Call) :
    since issue (past ++ [c]) = match c with
      | .load => since issue past
      | .record _ i f => if i = issue then f :: since issue past else since issue past
      | .clear _ i => if i = issue then [] else since issue past := by
  rw [since, List.foldl_append]
  rfl

theorem repeats_cons_of_eq {key : Failure → κ} {f g : Failure} (fs : List Failure)
    (h : key g = key f) : repeats key f (g :: fs) = 1 + repeats key g fs := by
  rw [repeats, repeats, List.takeWhile_cons_of_pos (by simpa using h), List.length_cons, h,
    Nat.add_comm]

theorem repeats_cons_of_ne {key : Failure → κ} {f g : Failure} (fs : List Failure)
    (h : key g ≠ key f) : repeats key f (g :: fs) = 0 := by
  rw [repeats, List.takeWhile_cons_of_neg (by simpa using h), List.length_nil]

theorem bump_entryOf (f : Failure) (fs : List Failure) :
    bump (entryOf fs) f.signature =
      ⟨f.signature, UInt32.ofNat (1 + repeats Failure.signature f fs)⟩ := by
  cases fs with
  | nil => simp [entryOf, bump, repeats]
  | cons g fs =>
    by_cases h : g.signature = f.signature
    · simp only [entryOf, bump, Option.getD_some, h, ne_eq, not_true_eq_false, if_false,
        repeats_cons_of_eq fs h, StreakEntry.mk.injEq, true_and]
      rw [Nat.add_comm 1 (1 + _)]
      exact (UInt32.ofNat_add _ 1).symm
    · simp [entryOf, bump, h, repeats_cons_of_ne fs h]

/-- The entries count signatures; as long as nothing is saved, no ledger holds anything. -/
structure Holds (past : List Call) (s : World) : Prop where
  entry : ∀ issue, s.file.getD LedgerFile.default issue = entryOf (since issue past)
  fresh : s.file = none → ∀ inner ∈ s.ledgers, inner = LedgerFile.default

variable {past : List Call} {s t : World} {c : Call}

theorem Holds.reload (h : Holds past s) {l : Nat} {inner : LedgerFile}
    (hl : s.ledgers[l]? = some inner) : reload s.file inner = s.file.getD LedgerFile.default := by
  cases hf : s.file with
  | none =>
    rw [h.fresh hf inner (List.mem_of_getElem? hl)]
    rfl
  | some file => rfl

theorem holds_start : Holds [] World.start where
  entry _ := rfl
  fresh _ _ h := absurd h List.not_mem_nil

theorem holds_step (h : Holds past s) (hstep : step s c = some t) : Holds (past ++ [c]) t := by
  cases c with
  | load =>
    obtain rfl := Option.some.inj hstep
    refine ⟨fun issue => by rw [since_concat]; exact h.entry issue, fun hf inner hi => ?_⟩
    cases List.mem_append.mp hi with
    | inl hi => exact h.fresh hf inner hi
    | inr hi =>
      rw [List.mem_singleton.mp hi]
      exact congrArg (fun file => FailStreak.reload file LedgerFile.default) hf
  | record l issue f =>
    obtain ⟨inner, hl, rfl⟩ := Option.map_eq_some_iff.mp hstep
    refine ⟨fun i => ?_, fun hf => by cases hf⟩
    rw [since_concat]
    simp only [recordAndCheck, Option.getD_some, h.reload hl]
    by_cases hi : issue = i
    · subst hi
      rw [Function.update_self, if_pos rfl, h.entry, bump_entryOf]
      rfl
    · rw [Function.update_of_ne (Ne.symm hi), if_neg hi, h.entry]
  | clear l issue =>
    obtain ⟨inner, hl, rfl⟩ := Option.map_eq_some_iff.mp hstep
    have hreload := h.reload hl
    have hleft : ∀ i, Function.update (s.file.getD LedgerFile.default) issue none i =
        entryOf (since i (past ++ [.clear l issue])) := by
      intro i
      rw [since_concat]
      by_cases hi : issue = i
      · subst hi
        simp [entryOf]
      · simp only [Function.update_of_ne (Ne.symm hi), if_neg hi]
        exact h.entry i
    by_cases hsome : (s.file.getD LedgerFile.default issue).isSome
    · refine ⟨fun i => ?_, fun hf => ?_⟩
      · simp only [FailStreak.clear, hreload, hsome, if_true, Option.getD_some]
        exact hleft i
      · simp [FailStreak.clear, hreload, hsome] at hf
    · have hsame : Function.update (s.file.getD LedgerFile.default) issue none =
          s.file.getD LedgerFile.default := by
        rw [Function.update_eq_self_iff, eq_comm]
        simpa using hsome
      refine ⟨fun i => ?_, fun hf inner' hi => ?_⟩
      · simp only [FailStreak.clear, hreload, hsome]
        rw [← hleft i, hsame]
        rfl
      · simp only [FailStreak.clear, hreload, hsome, hsame] at hf hi
        have hnone : s.file = none := hf
        cases List.mem_or_eq_of_mem_set hi with
        | inl hi => exact h.fresh hnone inner' hi
        | inr hi => rw [hi, hnone]; rfl

theorem holds_run {calls : List Call} (hr : run step World.start calls = some s) :
    Holds calls s := by
  have h := @run_history _ _ step (fun _ _ => True) Holds
    (fun past s i t h _ hs => holds_step h hs) [] _ s calls holds_start (along_true _ _) hr
  exact h

/-- Every record is answered with the number of equal signatures in a row. -/
theorem answer_of_run {o : StreakOutcome} {l : Nat} {issue : Int} {f : Failure}
    (hr : run step World.start past = some s) (ho : answer s l issue f = some o) :
    o.count = UInt32.ofNat (1 + repeats Failure.signature f (since issue past)) ∧
      (o = .tripped o.count ↔ 3 ≤ o.count) := by
  have h := holds_run hr
  obtain ⟨inner, hl, rfl⟩ := Option.map_eq_some_iff.mp ho
  simp only [recordAndCheck, h.reload hl, h.entry, bump_entryOf]
  split
  · rename_i hle
    exact ⟨rfl, iff_of_true rfl hle⟩
  · rename_i hle
    exact ⟨rfl, iff_of_false (by simp) hle⟩

/-- One cause has one signature. -/
theorem signature_of_cause {f g : Failure} (h : g.cause = f.cause) :
    g.signature = f.signature := by
  obtain ⟨hv, hfailed⟩ := Prod.mk.inj h
  have hperm : (failed g.anchorResults).Perm (failed f.anchorResults) :=
    Multiset.coe_eq_coe.mp hfailed
  have hsort : ((failed g.anchorResults).mergeSort fun a b => decide (a ≤ b)) =
      (failed f.anchorResults).mergeSort fun a b => decide (a ≤ b) :=
    mergeSort_eq_of_perm (fun a b c => by simpa using fun h h' => le_trans h h')
      (fun a b => by simpa using le_total a b) (fun a b => by simpa using fun h h' => le_antisymm h h')
      hperm
  have hempty : (failed g.anchorResults).isEmpty = (failed f.anchorResults).isEmpty :=
    hperm.isEmpty_eq
  simp only [Failure.signature, failureSignature, hv, hsort, hempty]

/-- What the call is answered counts the failures for its cause. -/
def Counted (past : List Call) : Call → Prop
  | .record l issue f => ∀ s o, run step World.start past = some s → answer s l issue f = some o →
      o.count.toNat = 1 + repeats Failure.cause f (since issue past) ∧
        (o = .tripped o.count ↔ 3 ≤ o.count.toNat)
  | _ => True

/-- The failure before has another signature or the same cause, and few come in a row. -/
def Distinct (f : Failure) (fs : List Failure) : Prop :=
  (∀ g ∈ fs.head?, g.signature = f.signature → g.cause = f.cause) ∧
    repeats Failure.cause f fs + 1 < 2 ^ 32

def Told (past : List Call) : Call → Prop
  | .record _ issue f => Distinct f (since issue past)
  | _ => True

def AllDistinct : List Failure → Prop
  | [] => True
  | f :: fs => Distinct f fs ∧ AllDistinct fs

theorem repeats_eq {f : Failure} {fs : List Failure} (hfs : AllDistinct fs)
    (h : ∀ g ∈ fs.head?, g.signature = f.signature → g.cause = f.cause) :
    repeats Failure.signature f fs = repeats Failure.cause f fs := by
  induction fs generalizing f with
  | nil => rfl
  | cons g fs ih =>
    by_cases hs : g.signature = f.signature
    · rw [repeats_cons_of_eq fs hs, repeats_cons_of_eq fs (h g rfl hs), ih hfs.2 hfs.1.1]
    · rw [repeats_cons_of_ne fs hs, repeats_cons_of_ne fs fun hc => hs (signature_of_cause hc)]

theorem allDistinct_since {calls : List Call} (issue : Int)
    (h : ∀ past c rest, calls = past ++ c :: rest → Told past c) :
    AllDistinct (since issue calls) := by
  induction calls using List.reverseRecOn with
  | nil => trivial
  | append_singleton calls c ih =>
    have hpast := ih fun past d rest he => h past d (rest ++ [c]) (by rw [he, List.append_assoc]; rfl)
    rw [since_concat]
    cases c with
    | load => exact hpast
    | record l i f =>
      by_cases hi : i = issue
      · subst hi
        simp only [if_true]
        exact ⟨h calls (.record l i f) [] rfl, hpast⟩
      · simpa only [if_neg hi] using hpast
    | clear l i =>
      by_cases hi : i = issue
      · simp only [if_pos hi]
        trivial
      · simpa only [if_neg hi] using hpast

theorem counted_iff {calls : List Call} (hr : run step World.start (calls ++ [c]) = some t)
    (h : ∀ past d rest, calls = past ++ d :: rest → Told past d) :
    Counted calls c ↔ Told calls c := by
  cases c with
  | load => exact Iff.rfl
  | clear l issue => exact Iff.rfl
  | record l issue f =>
    have hall := allDistinct_since issue h
    rw [run_append] at hr
    obtain ⟨s, hs, hlast⟩ := Option.bind_eq_some_iff.mp hr
    obtain ⟨m, hm, -⟩ := (run_cons_iff s t _ []).mp hlast
    obtain ⟨inner, hl, -⟩ := Option.map_eq_some_iff.mp hm
    constructor
    · intro hc
      have ho : answer s l issue f =
          some (recordAndCheck s.file inner issue f.signature).2 := by
        rw [answer, hl, Option.map_some]
      obtain ⟨hcount, -⟩ := hc s _ hs ho
      have hlt := UInt32.toNat_lt (recordAndCheck s.file inner issue f.signature).2.count
      obtain ⟨hsig, -⟩ := answer_of_run hs ho
      rw [hsig, UInt32.toNat_ofNat'] at hcount
      refine ⟨fun g hg hsame => ?_, by rw [hsig, UInt32.toNat_ofNat'] at hlt; omega⟩
      obtain ⟨gs, hgs⟩ := List.head?_eq_some_iff.mp hg
      rw [hgs] at hcount hall
      by_contra hne
      rw [repeats_cons_of_eq gs hsame, repeats_cons_of_ne gs hne,
        repeats_eq hall.2 hall.1.1] at hcount
      have hbound := hall.1.2
      omega
    · intro hd s' o hs' ho
      obtain ⟨hcount, htrip⟩ := answer_of_run hs' ho
      have hbound := hd.2
      have hn : o.count.toNat = 1 + repeats Failure.cause f (since issue calls) := by
        rw [hcount, UInt32.toNat_ofNat', repeats_eq hall hd.1]
        omega
      exact ⟨hn, htrip.trans (UInt32.le_iff_toNat_le)⟩

/-- The fuse counts causes over a whole run, exactly if no two failures that follow each other
have one signature and two causes, and no cause comes 2^32 times in a row. -/
theorem counts_causes_iff {calls : List Call} (hr : run step World.start calls = some s) :
    (∀ past c rest, calls = past ++ c :: rest → Counted past c) ↔
      ∀ past c rest, calls = past ++ c :: rest → Told past c := by
  have hsplit : ∀ (P : List Call → Call → Prop) (cs : List Call) (c : Call),
      (∀ past d rest, cs ++ [c] = past ++ d :: rest → P past d) ↔
        (∀ past d rest, cs = past ++ d :: rest → P past d) ∧ P cs c := by
    intro P cs c
    constructor
    · intro h
      exact ⟨fun past d rest he => h past d (rest ++ [c]) (by rw [he, List.append_assoc]; rfl),
        h cs c [] rfl⟩
    · rintro ⟨hcs, hc⟩ past d rest he
      obtain rfl | ⟨rest, e, rfl⟩ := List.eq_nil_or_concat rest
      · obtain ⟨rfl, hd⟩ := List.append_inj' he rfl
        exact (List.cons.inj hd).1 ▸ hc
      · refine hcs past d rest ?_
        rw [List.concat_eq_append, ← List.cons_append, ← List.append_assoc] at he
        exact (List.append_inj' he rfl).1
  induction calls using List.reverseRecOn generalizing s with
  | nil => exact iff_of_true (fun _ _ _ h => by simp at h) fun _ _ _ h => by simp at h
  | append_singleton calls c ih =>
    have hr' := hr
    rw [run_append] at hr'
    obtain ⟨m, hm, -⟩ := Option.bind_eq_some_iff.mp hr'
    rw [hsplit, hsplit]
    exact (and_congr_left' (ih hm)).trans (and_congr_right fun h => counted_iff hr h)

/-- Two anchors fail. -/
def apart : Failure :=
  ⟨[⟨"[CHECK] re:a".toList, false⟩, ⟨"[CHECK] re:b".toList, false⟩], .fail⟩

/-- One anchor fails, whose line reads as the two. -/
def joined : Failure := ⟨[⟨"[CHECK] re:a|[CHECK] re:b".toList, false⟩], .fail⟩

theorem counts_causes_apart : Counted [.load] (.record 0 7 apart) := by
  have hr : run step World.start [.load, .record 0 7 apart] =
      some ((run step World.start [.load, .record 0 7 apart]).get rfl) := rfl
  refine (counts_causes_iff hr).mpr (fun past c rest he => ?_) [.load] (.record 0 7 apart) [] rfl
  cases past with
  | nil =>
    obtain ⟨rfl, -⟩ := List.cons.inj he
    trivial
  | cons d past =>
    obtain ⟨hd, htail⟩ := List.cons.inj he
    cases past with
    | nil =>
      obtain ⟨rfl, -⟩ := List.cons.inj htail
      rw [← hd]
      exact ⟨fun g hg => absurd hg (by simp [since]), by decide⟩
    | cons e past => simp at htail

theorem signature_joined : apart.signature = joined.signature := by
  have hsort : ((failed apart.anchorResults).mergeSort fun a b => decide (a ≤ b)) =
      failed apart.anchorResults := List.mergeSort_of_pairwise (by decide)
  have hone : ((failed joined.anchorResults).mergeSort fun a b => decide (a ≤ b)) =
      failed joined.anchorResults := List.mergeSort_of_pairwise (by decide)
  simp only [Failure.signature, failureSignature, hsort, hone]
  decide

theorem counts_causes_joined :
    ¬ ∀ calls s, run step World.start calls = some s →
      ∀ past c rest, calls = past ++ c :: rest → Counted past c := by
  intro h
  have hr : run step World.start [.load, .record 0 7 apart, .record 0 7 joined] =
      some ((run step World.start [.load, .record 0 7 apart, .record 0 7 joined]).get rfl) := rfl
  have hpast : run step World.start [.load, .record 0 7 apart] =
      some ((run step World.start [.load, .record 0 7 apart]).get rfl) := rfl
  have ho : answer ((run step World.start [.load, .record 0 7 apart]).get rfl) 0 7 joined =
      some ((answer ((run step World.start [.load, .record 0 7 apart]).get rfl) 0 7 joined).get
        rfl) := rfl
  obtain ⟨hcount, -⟩ :=
    h _ _ hr [.load, .record 0 7 apart] (.record 0 7 joined) [] rfl _ _ hpast ho
  have hcause : apart.cause ≠ joined.cause := by decide
  have hsince : since 7 [.load, .record 0 7 apart] = [apart] := rfl
  rw [(answer_of_run hpast ho).1, hsince, repeats_cons_of_eq [] signature_joined,
    repeats_cons_of_ne [] hcause] at hcount
  exact absurd hcount (by decide)

end NemesisBot.FailStreak

import NemesisBot.Lib.Runs
import NemesisBot.Lib.Strings
import NemesisBot.Lib.Worklist

/-! The checkpoint gc in git mode: it rebuilds the objects of the shadow repository from an index
snapshot, while turns write their trees and rewinds cut the index. -/
namespace NemesisBot.CheckpointGc
open Strings Runs Worklist

/-- Objects are named by their content, so their references never change. The main repository
is read through alternates. -/
structure Graph (Oid : Type) where
  kids : Oid → List Oid
  main : List Oid

/-- `time` is the parsed stamp, nothing where it does not parse. -/
structure Entry (Oid : Type) where
  turn : Nat
  time : Option Int
  tree : Option Oid
  session : Option Text
  deriving DecidableEq

structure Config where
  keepTurns : Nat
  keepDays : Nat

structure Retention (Oid : Type) where
  keptTurns : List Nat
  keptTrees : List Oid

structure Plan (Oid : Type) where
  keptTurns : List Nat
  keepTrees : List Oid
  maxSeen : Nat

/-- How far the gc is; `copied` holds the rebuilt objects and the trees verified in them. -/
inductive Phase (Oid : Type) where
  | idle
  | failed
  | planned (p : Plan Oid)
  | copied (p : Plan Oid) (fresh verified : List Oid)
  | swapped (p : Plan Oid)

/-- `writing` are the turns whose tree is written and that are not in the index yet. The last
three fields record the objects before the last gc, and what was written since. -/
structure State (Oid : Type) where
  objects : Option (List Oid)
  gcOld : Option (List Oid)
  refs : List Oid
  done : List (Entry Oid)
  cur : List (Entry Oid)
  writing : List (Entry Oid)
  phase : Phase Oid
  before : List Oid
  written : List Oid
  begun : List Oid

inductive SwapOutcome where
  | done
  | firstFails
  | rolledBack
  | lost
  deriving DecidableEq

inductive Label (Oid : Type) where
  | beginWrite (e : Entry Oid) (objs : List Oid)
  | beginIndex (e : Entry Oid)
  | restoreWrite (objs : List Oid)
  | truncate (fromTurn : Nat) (session : Option Text)
  | gcPlan (cfg : Config) (now : Int) (extraTrees : List Oid)
  | gcCopy
  | gcFail
  | gcSwap (outcome : SwapOutcome)
  | gcClean (removed : Bool)

section
variable {Oid : Type} [DecidableEq Oid]

/-! Retention. -/

/-- `sort_by_key` and `dedup_by` over the turns: the first entry of each turn stays. -/
def dedupFrom (last : Nat) : List (Entry Oid) → List (Entry Oid)
  | [] => []
  | e :: rest => if e.turn = last then dedupFrom last rest else e :: dedupFrom e.turn rest

def dedupTurns : List (Entry Oid) → List (Entry Oid)
  | [] => []
  | e :: rest => e :: dedupFrom e.turn rest

def Entry.before (a b : Entry Oid) : Prop := a.turn ≤ b.turn

instance : DecidableRel (@Entry.before Oid) := fun a b =>
  inferInstanceAs (Decidable (a.turn ≤ b.turn))

/-- The turns kept when an entry comes up, with its own where it runs or a stack needs it. -/
def keptSoFar (protectedTurns : List Nat) (extraTrees : List Oid) (keptTurns : List Nat)
    (e : Entry Oid) : List Nat :=
  let turns := if e.turn ∈ protectedTurns then e.turn :: keptTurns else keptTurns
  if e.tree.any (· ∈ extraTrees) then e.turn :: turns else turns

def retentionStep (protectedTurns : List Nat) (extraTrees : List Oid) (now : Int)
    (keepDays : Nat) (d : Retention Oid) (e : Entry Oid) : Retention Oid :=
  let turns := keptSoFar protectedTurns extraTrees d.keptTurns e
  if e.turn ∈ turns then ⟨turns, e.tree.toList ++ d.keptTrees⟩
  else if 0 < keepDays ∧ e.time.any (fun t => now - t ≤ keepDays * 86400) then
    ⟨e.turn :: turns, e.tree.toList ++ d.keptTrees⟩
  else ⟨turns, d.keptTrees⟩

def computeRetention (entries : List (Entry Oid)) (protectedTurns : List Nat)
    (extraTrees : List Oid) (now : Int) (cfg : Config) : Retention Oid :=
  let window := (((entries.map (·.turn)).insertionSort (· ≥ ·)).dedup).take cfg.keepTurns
  let d := entries.foldl (retentionStep protectedTurns extraTrees now cfg.keepDays) ⟨window, []⟩
  ⟨d.keptTurns, d.keptTrees ++ extraTrees⟩

/-! The objects. -/

/-- The closure of a tree exists, in the given objects or in the main repository. -/
def gcVerifyTreeClosure (g : Graph Oid) (objects : List Oid) (root : Oid) : Bool :=
  (closure (fun o => if o ∈ objects ++ g.main then g.kids o else []) (objects ++ g.main)
    [root]).all (· ∈ objects ++ g.main)

/-- What the walk copies: below the seeds, without what the main repository has. -/
def neededObjects (g : Graph Oid) (objects seeds : List Oid) : List Oid :=
  (closure (fun o => if o ∈ objects ∧ o ∉ g.main then g.kids o else []) objects seeds).filter
    fun o => o ∈ objects ∧ o ∉ g.main

/-! The steps. -/

def State.index (s : State Oid) : List (Entry Oid) := s.done ++ s.cur

/-- A tree is written with everything below it that the main repository lacks. -/
def Graph.complete (g : Graph Oid) (e : Entry Oid) (objs : List Oid) : Bool :=
  e.tree.all fun t => t ∈ objs && objs.all fun o => (g.kids o).all (· ∈ objs)

def addObjects (g : Graph Oid) (s : State Oid) (objs : List Oid) : State Oid :=
  let added := objs.filter (· ∉ g.main)
  { s with objects := s.objects.map (· ++ added), written := s.written ++ added }

/-- `begin_for_session` writes the tree first, without the lock that the swap holds. -/
def beginWrite (g : Graph Oid) (s : State Oid) (e : Entry Oid) (objs : List Oid) : State Oid :=
  let s := addObjects g s objs
  { s with writing := s.writing ++ [e], begun := s.begun ++ e.tree.toList }

def beginIndex (s : State Oid) (e : Entry Oid) : State Oid :=
  { s with
    done := s.done ++ s.cur.filter (·.session = e.session)
    cur := s.cur.filter (·.session ≠ e.session) ++ [e]
    writing := s.writing.erase e }

def isOtherSession (entry rewind : Option Text) : Bool :=
  rewind.any fun r => entry.any (· ≠ r)

def truncateFromScoped (s : State Oid) (fromTurn : Nat) (session : Option Text) : State Oid :=
  { s with
    done := s.done.filter fun e => e.turn < fromTurn || isOtherSession e.session session
    cur := s.cur.filter fun e => e.turn < fromTurn || isOtherSession e.session session }

def gcEntries (s : State Oid) : List (Entry Oid) := dedupTurns (s.index.insertionSort Entry.before)

def gcPlanOf (s : State Oid) (cfg : Config) (now : Int) (extraTrees : List Oid) : Plan Oid :=
  let d := computeRetention (gcEntries s) (s.cur.map (·.turn)) extraTrees now cfg
  ⟨d.keptTurns, d.keptTrees, ((gcEntries s).getLast?.map (·.turn)).getD 0⟩

/-- Without a turn to drop the gc returns early. -/
def dropsNone (s : State Oid) (p : Plan Oid) : Bool := (gcEntries s).all (·.turn ∈ p.keptTurns)

def gcPlan (s : State Oid) (cfg : Config) (now : Int) (extraTrees : List Oid) : State Oid :=
  let p := gcPlanOf s cfg now extraTrees
  if dropsNone s p then { s with phase := .idle }
  else
    { s with
      phase := .planned p
      before := s.objects.getD []
      written := []
      begun := [] }

/-- A `.gc-old` left over is the only copy of the objects where `objects` is missing. -/
def healed (s : State Oid) : State Oid :=
  match s.objects with
  | some _ => { s with gcOld := none }
  | none => { s with objects := s.gcOld, gcOld := none }

def gcCopy (g : Graph Oid) (s : State Oid) (p : Plan Oid) : State Oid :=
  let s := healed s
  match s.objects with
  | none => { s with phase := .failed }
  | some objects =>
    let fresh := neededObjects g objects (p.keepTrees ++ s.refs)
    let verified := p.keepTrees.filter (gcVerifyTreeClosure g objects)
    if verified.all (gcVerifyTreeClosure g fresh) then { s with phase := .copied p fresh verified }
    else { s with phase := .failed }

def gcSwap (s : State Oid) (p : Plan Oid) (fresh : List Oid) : SwapOutcome → State Oid
  | .done => { s with objects := some fresh, gcOld := s.objects, phase := .swapped p }
  | .firstFails | .rolledBack => { s with phase := .failed }
  | .lost => { s with objects := none, gcOld := s.objects, phase := .failed }

def Plan.keeps (p : Plan Oid) (turn : Nat) : Bool := turn ∈ p.keptTurns || p.maxSeen < turn

def gcClean (s : State Oid) (p : Plan Oid) (removed : Bool) : State Oid :=
  { s with
    done := s.done.filter fun e => p.keeps e.turn
    cur := s.cur.filter fun e => p.keeps e.turn
    gcOld := if removed then none else s.gcOld
    phase := .idle }

def step (g : Graph Oid) (s : State Oid) : Label Oid → Option (State Oid)
  | .beginWrite e objs =>
    if g.complete e objs && (s.objects.isSome || e.tree.isNone) then some (beginWrite g s e objs)
    else none
  | .beginIndex e => if e ∈ s.writing then some (beginIndex s e) else none
  | .restoreWrite objs => some (addObjects g s objs)
  | .truncate fromTurn session => some (truncateFromScoped s fromTurn session)
  | .gcPlan cfg now extraTrees => match s.phase with
    | .idle | .failed => some (gcPlan s cfg now extraTrees)
    | _ => none
  | .gcCopy => match s.phase with
    | .planned p => some (gcCopy g s p)
    | _ => none
  | .gcFail => match s.phase with
    | .planned _ | .copied _ _ _ => some { s with phase := .failed }
    | _ => none
  | .gcSwap outcome => match s.phase with
    | .copied p fresh _ => some (gcSwap s p fresh outcome)
    | _ => none
  | .gcClean removed => match s.phase with
    | .swapped p => some (gcClean s p removed)
    | _ => none

end

end NemesisBot.CheckpointGc

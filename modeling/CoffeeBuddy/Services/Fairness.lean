import CoffeeBuddy.Library.Dict
import CoffeeBuddy.Services.Preferences
import Mathlib.Data.List.MinMax
import Mathlib.Data.Prod.Lex
import Mathlib.Data.String.Basic

/-! `FairnessService`: the choice of the runner of a run. -/

namespace CoffeeBuddy
open Relational Transaction

structure FairnessDecision where
  runnerUserId : String
  rationale : String
deriving DecidableEq

namespace FairnessService

/-- `_EPOCH` -/
def epoch : Timestamp := 0

def uniqueOrdered (identifiers : List Ident) : List String :=
  (identifiers.map Ident.toStr).foldl
    (fun ordered normalized => if normalized ∈ ordered then ordered else ordered ++ [normalized]) []

def asUuids : List String → Tx (List Uuid)
  | [] => return []
  | text :: texts => do
    let u ← asUuid (.str text)
    let us ← asUuids texts
    return u :: us

def servesIn (channel : Uuid) (users : List Uuid) (s : RunnerStat) : Bool :=
  s.channelId = channel && users.contains s.userId

/-- The row `_load_stats` adds for a participant without one. -/
def newStat (channel : Uuid) (d : Draws) (n : ℕ) (user : Uuid) : RunnerStat :=
  { id := d.uuid4 n, userId := user, channelId := channel, runsServedCount := 0
    lastRunAt := none, createdAt := d.clock n, updatedAt := d.clock n }

/-- The loop of `_load_stats` that adds a row for every participant without one; it
returns how often it read the clock. -/
def createMissing (channel : Uuid) (d : Draws) :
    ℕ → List String → Dict String RunnerStat → Tx (Dict String RunnerStat × ℕ)
  | n, [], stats => return (stats, n)
  | n, participant :: rest, stats =>
    match stats.get? participant with
    | some _ => createMissing channel d n rest stats
    | none => do
      let user ← asUuid (.str participant)
      let stat := newStat channel d n user
      insertStat stat
      createMissing channel d (n + 1) rest (stats.set participant stat)

def loadStats (channel : Uuid) (participants : List String) (d : Draws) :
    Tx (Dict String RunnerStat × ℕ) := do
  let users ← asUuids participants
  let rows ← Program.query fun db => db.runnerStats.select (servesIn channel users)
  createMissing channel d 0 participants (Dict.ofValues (fun s => s.userId.str) rows)

/-- The tuple Python compares: count, last run, creation, user id. -/
def SortKey : Type := ℤ ×ₗ Timestamp ×ₗ Timestamp ×ₗ String

instance : LinearOrder SortKey :=
  let _ : LinearOrder ℤ := Int.instLinearOrder
  inferInstanceAs (LinearOrder (ℤ ×ₗ Timestamp ×ₗ Timestamp ×ₗ String))

def sortKey (s : RunnerStat) : SortKey :=
  toLex (s.runsServedCount, toLex (s.lastRunAt.getD epoch, toLex (s.createdAt, s.userId.str)))

def buildRationale (previousCount : ℤ) (excludedLastRunner : Bool) : String :=
  let base := "Runner chosen by minimum recent runs served " ++
    s!"(count before assignment: {previousCount}). " ++
    "Tie-breakers: earliest last_run_at then deterministic user id."
  if excludedLastRunner then
    base ++ " Previous runner excluded to avoid back-to-back assignments."
  else base

/-- Whether the previous runner is left out of the candidates. -/
def excludesLast (stats : Dict String RunnerStat) (lastRunnerId : Option String)
    (allowImmediateRepeat : Bool) : Bool :=
  !allowImmediateRepeat && decide (1 < stats.values.length) &&
    (lastRunnerId.any fun last => last ≠ "" && (stats.get? last).isSome)

def candidates (stats : Dict String RunnerStat) (lastRunnerId : Option String)
    (allowImmediateRepeat : Bool) : List RunnerStat :=
  let kept :=
    if excludesLast stats lastRunnerId allowImmediateRepeat then
      stats.values.filter fun s => some s.userId.str ≠ lastRunnerId
    else stats.values
  if kept = [] then stats.values else kept

/-- The chosen row after the assignments of `assign_runner`. -/
def credited (chosen : RunnerStat) (now : Timestamp) : RunnerStat :=
  { chosen with
    runsServedCount := chosen.runsServedCount + 1, lastRunAt := some now, updatedAt := now }

/-- `min(candidate_stats, key=…)` -/
def choose (cs : List RunnerStat) : Tx RunnerStat :=
  match cs.argmin sortKey with
  | some chosen => return chosen
  | none => Tx.raise .valueError

/-- `previous_counts[user_id]`; the counts are those before the chosen row changes. -/
def previousCount (stats : Dict String RunnerStat) (userId : String) : Tx ℤ :=
  match stats.get? userId with
  | some s => return s.runsServedCount
  | none => Tx.raise .keyError

def assignRunner (channelId : Ident) (participantUserIds : List Ident)
    (lastRunnerId : Option String) (allowImmediateRepeat : Bool) (d : Draws) :
    Tx FairnessDecision := do
  let participants := uniqueOrdered participantUserIds
  if participants = [] then
    Tx.raise (.runClose (.runnerSelection
      "No eligible participants to evaluate for runner assignment."))
  else
    let channel ← asUuid channelId
    let (stats, readings) ← loadStats channel participants d
    let chosen ← choose (candidates stats lastRunnerId allowImmediateRepeat)
    updateStat chosen (credited chosen (d.clock readings))
    let count ← previousCount stats chosen.userId.str
    return { runnerUserId := chosen.userId.str
             rationale := buildRationale count
               (excludesLast stats lastRunnerId allowImmediateRepeat) }

end FairnessService
end CoffeeBuddy

import CoffeeBuddy.Services.Fairness
import CoffeeBuddy.Services.Orders

/-! `CloseRunService`: closing a run, choosing its runner and taking the snapshot of
its orders. -/

namespace CoffeeBuddy
open Relational Transaction

structure CloseRunRequest where
  runId : String
  actorUserId : String
  allowImmediateRepeat : Bool := false
deriving DecidableEq

structure ParticipantOrder where
  userId : String
  displayName : String
  orderText : String
  provenance : String
deriving DecidableEq

structure RunSummary where
  runId : String
  channelId : String
  channelName : String
  runnerUserId : String
  runnerDisplayName : String
  pickupTime : Option Timestamp
  pickupNote : Option String
  participants : List ParticipantOrder
  totalOrders : ℕ
  reminderOffsetMinutes : ℤ
  remindersEnabled : Bool
  lastCallEnabled : Bool
  closedAt : Timestamp
deriving DecidableEq

structure CloseRunResult where
  runId : String
  channelId : String
  runnerUserId : String
  closedAt : Timestamp
  summary : RunSummary
  fairnessNote : String
deriving DecidableEq

/-- How the database compares texts in `ORDER BY`. -/
structure Collation where
  le : String → String → Bool
  total : ∀ a b, le a b = true ∨ le b a = true
  trans : ∀ a b c, le a b = true → le b c = true → le a c = true

/-- Comparison by code points. -/
def Collation.binary : Collation where
  le a b := a ≤ b
  total a b := by simpa only [decide_eq_true_eq] using String.le_total a b
  trans a b c := by simpa only [decide_eq_true_eq] using String.le_trans

/-- `display_name ASC, users.id ASC` -/
def Collation.byName (collation : Collation) (u v : User) : Bool :=
  collation.le u.displayName v.displayName &&
    (!collation.le v.displayName u.displayName || u.id ≤ v.id)

/-- `CloseRunAuthorizer.is_authorized` -/
abbrev CloseRunAuthorizer := Run → String → Bool

namespace CloseRunService

def getRun (runId : String) : Tx Run := do
  let id ← asUuid (.str runId)
  let found ← Program.query fun db => db.runs.find? id
  match found with
  | some run => return run
  | none => Tx.raise (.runClose (.runNotFound s!"Run {runId} not found."))

/-- The two checks of `close_run` on the run it has read. -/
def checkClosable (authorizer : CloseRunAuthorizer) (request : CloseRunRequest) (run : Run) :
    Tx Unit :=
  if run.status ≠ .open then
    Tx.raise (.runClose (.runNotOpen s!"Run {request.runId} is not open."))
  else if authorizer run request.actorUserId then return ()
  else Tx.raise (.runClose (.unauthorizedRunClose
    s!"Actor {request.actorUserId} is not allowed to close run {request.runId}."))

def getChannel (channelId : Uuid) : Tx Channel := do
  let found ← Program.query fun db => db.channels.find? channelId
  match found with
  | some channel => return channel
  | none => Tx.raise (.runClose (.runNotFound s!"Channel {channelId.str} missing for run close."))

/-- `SELECT … FROM orders JOIN users ON users.id = orders.user_id` -/
def joinUsers (users : Table User) (orders : List Order) : List (Order × User) :=
  orders.filterMap fun o => (users.find? o.userId).map fun u => (o, u)

def activeOrders (collation : Collation) (run : Uuid) (db : Db) : List (Order × User) :=
  orderBy (fun a b => collation.byName a.2 b.2)
    (joinUsers db.users (db.orders.select (OrderRepository.activeIn run)))

def loadActiveOrders (collation : Collation) (run : Uuid) : Tx (List (Order × User)) := do
  let orders ← Program.query (activeOrders collation run)
  if orders = [] then
    Tx.raise (.runClose (.runnerSelection "Cannot close run without active participant orders."))
  else return orders

def precedes (run r : Run) : Bool :=
  r.channelId = run.channelId && r.status = .closed && r.closedAt.isSome && r.id ≠ run.id &&
    r.runnerUserId.isSome

/-- `closed_at DESC` on rows where it is set. -/
def closedLater (a b : Run) : Bool := b.closedAt.getD 0 ≤ a.closedAt.getD 0

def previousRunner (run : Run) (db : Db) : Option Uuid :=
  (orderBy closedLater (db.runs.select (precedes run))).head?.bind Run.runnerUserId

def getRunner (runnerUserId : String) : Tx User := do
  let id ← asUuid (.str runnerUserId)
  let found ← Program.query fun db => db.users.find? id
  match found with
  | some user => return user
  | none => Tx.raise (.runClose (.runnerSelection
      s!"Runner {runnerUserId} missing from persistence during close."))

/-- The run after `_finalize_run`. -/
def finalized (run : Run) (runnerId : Uuid) (closedAt : Timestamp) : Run :=
  { run with
    runnerUserId := some runnerId, status := .closed, closedAt := some closedAt
    updatedAt := closedAt }

def snapshotted (order : Order) (snapshotAt : Timestamp) : Order :=
  { order with isFinal := true, updatedAt := snapshotAt }

def participant (order : Order) (user : User) : ParticipantOrder :=
  { userId := order.userId.str, displayName := user.displayName, orderText := order.orderText
    provenance := order.provenance }

def snapshotOrders (snapshotAt : Timestamp) : List (Order × User) → Tx (List ParticipantOrder)
  | [] => return []
  | (order, user) :: orders => do
    updateOrder order (snapshotted order snapshotAt)
    let participants ← snapshotOrders snapshotAt orders
    return participant order user :: participants

/-- The result `close_run` builds from what it has read and decided. -/
def closeRunResult (run : Run) (channel : Channel) (decision : FairnessDecision) (runner : User)
    (participants : List ParticipantOrder) (now : Timestamp) : CloseRunResult :=
  { runId := run.id.str, channelId := channel.id.str, runnerUserId := decision.runnerUserId
    closedAt := now
    summary :=
      { runId := run.id.str, channelId := channel.id.str, channelName := channel.name
        runnerUserId := decision.runnerUserId, runnerDisplayName := runner.displayName
        pickupTime := run.pickupTime, pickupNote := run.pickupNote, participants := participants
        totalOrders := participants.length
        reminderOffsetMinutes := channel.reminderOffsetMinutes
        remindersEnabled := channel.remindersEnabled, lastCallEnabled := channel.lastCallEnabled
        closedAt := now }
    fairnessNote := decision.rationale }

/-- `now` is the reading of the service's own clock, `d` what the fairness service draws. -/
def closeRun (authorizer : CloseRunAuthorizer) (collation : Collation)
    (request : CloseRunRequest) (now : Timestamp) (d : Draws) : Tx CloseRunResult := do
  let run ← getRun request.runId
  checkClosable authorizer request run
  let channel ← getChannel run.channelId
  let orders ← loadActiveOrders collation run.id
  let last ← Program.query (previousRunner run)
  let decision ← FairnessService.assignRunner (.str channel.id.str)
    (orders.map fun p => .str p.1.userId.str) (last.map Uuid.str) request.allowImmediateRepeat d
  let runner ← getRunner decision.runnerUserId
  updateRun run (finalized run runner.id now)
  let participants ← snapshotOrders now orders
  return closeRunResult run channel decision runner participants now

end CloseRunService
end CoffeeBuddy

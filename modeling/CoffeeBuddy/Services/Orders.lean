import CoffeeBuddy.Services.Preferences

/-! Order capture: `OrderValidator`, the three repositories and `OrderService`. -/

namespace CoffeeBuddy
open Relational Transaction

inductive OrderProvenance where
  | manual | preference | edit
deriving DecidableEq

def OrderProvenance.value : OrderProvenance → String
  | .manual => "manual"
  | .preference => "preference"
  | .edit => "edit"

structure OrderSubmissionRequest where
  runId : String
  userId : String
  orderText : String
  confirm : Bool := true
  provenance : OrderProvenance := .manual

structure OrderSubmissionResult where
  orderId : String
  participantCount : ℕ
  orderText : String
  provenance : OrderProvenance
  preferenceUpdated : Bool
deriving DecidableEq

structure OrderCancellationResult where
  orderId : String
  participantCount : ℕ
deriving DecidableEq

structure UseLastOrderResult where
  preferenceId : String
  submission : OrderSubmissionResult
deriving DecidableEq

/-! ### Validation -/

structure OrderValidator where
  maxLength : ℤ := 280

def OrderValidator.validate (v : OrderValidator) (orderText : String) : Except OrderError String :=
  let normalized := strip orderText
  if normalized.length = 0 then .error (.orderValidation "Order cannot be empty." "order_text")
  else if v.maxLength < normalized.length then
    .error (.orderValidation s!"Order length exceeds {v.maxLength} characters." "order_text")
  else .ok normalized

/-- A validation inside a service. -/
def validated (v : OrderValidator) (orderText : String) : Tx String :=
  match v.validate orderText with
  | .ok normalized => return normalized
  | .error e => Tx.raise (.order e)

/-! ### Repositories -/

namespace RunRepository

def get (runId : Ident) : Tx Run := do
  let id ← asUuid runId
  let found ← Program.query fun db => db.runs.find? id
  match found with
  | some run => return run
  | none => Tx.raise (.order (.runNotFound s!"Run {runId} was not found."))

def getOpenRun (runId : Ident) : Tx Run := do
  let run ← get runId
  if run.status = .open then return run
  else Tx.raise (.order (.runNotOpen s!"Run {runId} is not open for orders."))

end RunRepository

namespace UserRepository

def get (userId : Ident) : Tx User := do
  let id ← asUuid userId
  let found ← Program.query fun db => db.users.find? id
  match found with
  | some user => return user
  | none => Tx.raise (.order (.userNotFound s!"User {userId} does not exist."))

end UserRepository

namespace OrderRepository

def ofPair (run user : Uuid) (o : Order) : Bool := o.runId = run && o.userId = user

def activeIn (run : Uuid) (o : Order) : Bool := o.runId = run && o.canceledAt.isNone

def getOrder (runId userId : Ident) : Tx (Option Order) := do
  let run ← asUuid runId
  let user ← asUuid userId
  Program.query fun db => db.orders.rows.find? (ofPair run user)

def upsertOrder (runId userId : Ident) (orderText : String) (confirm : Bool)
    (provenance : OrderProvenance) (now : Timestamp) (newId : Uuid) : Tx Order := do
  match ← getOrder runId userId with
  | some existing =>
    let order := { existing with
      orderText := orderText, isFinal := confirm, provenance := provenance.value
      canceledAt := none, updatedAt := now }
    updateOrder existing order
    return order
  | none =>
    let run ← asUuid runId
    let user ← asUuid userId
    let order : Order :=
      { id := newId, runId := run, userId := user, orderText := orderText, isFinal := confirm
        provenance := provenance.value, canceledAt := none, createdAt := now, updatedAt := now }
    insertOrder order
    return order

def cancelOrder (order : Order) (now : Timestamp) : Tx Unit :=
  updateOrder order { order with canceledAt := some now, updatedAt := now }

def countActiveOrders (runId : Ident) : Tx ℕ := do
  let run ← asUuid runId
  Program.query fun db => db.orders.count (activeIn run)

end OrderRepository

/-! ### The service -/

namespace OrderService

/-- The preference object that a confirmed order writes. -/
def rememberOrder (held : Option UserPreference) (run : Run) (user : User) (orderText : String)
    (confirm : Bool) (d : Draws) : Tx (Option UserPreference) :=
  if confirm then do
    let preference ← PreferenceService.setPreference held (.uuid user.id) (.uuid run.channelId)
      orderText (d.clock 1) (d.uuid4 1)
    return some preference
  else return none

/-- `_persist_order` in a session that holds the preference `held`, with the preference object it
has written. -/
def persistHolding (held : Option UserPreference) (run : Run) (user : User) (orderText : String)
    (confirm : Bool) (provenance : OrderProvenance) (d : Draws) :
    Tx (OrderSubmissionResult × Option UserPreference) := do
  let order ← OrderRepository.upsertOrder (.uuid run.id) (.uuid user.id) orderText confirm
    provenance (d.clock 0) (d.uuid4 0)
  let written ← rememberOrder held run user order.orderText confirm d
  let participantCount ← OrderRepository.countActiveOrders (.uuid run.id)
  return ({ orderId := order.id.str, participantCount := participantCount
            orderText := order.orderText, provenance := provenance, preferenceUpdated := confirm },
    written)

/-- `_persist_order` -/
def persistOrder (run : Run) (user : User) (orderText : String) (confirm : Bool)
    (provenance : OrderProvenance) (d : Draws) : Tx OrderSubmissionResult := do
  let persisted ← persistHolding none run user orderText confirm provenance d
  return persisted.1

def submitOrder (v : OrderValidator) (request : OrderSubmissionRequest) (d : Draws) :
    Tx OrderSubmissionResult := do
  let run ← RunRepository.getOpenRun (.str request.runId)
  let user ← UserRepository.get (.str request.userId)
  let normalized ← validated v request.orderText
  persistOrder run user normalized request.confirm request.provenance d

/-- The remembered order, or the exception of a user who has none. -/
def savedOrder (user : User) (channel : Uuid) (userId : String) : Tx UserPreference := do
  match ← PreferenceService.getPreference (.uuid user.id) (.uuid channel) with
  | some preference => return preference
  | none => Tx.raise (.order (.preferenceNotFound
      s!"No saved order found for user {userId} in this channel."))

def useLastOrder (v : OrderValidator) (runId userId : String) (d : Draws) :
    Tx UseLastOrderResult := do
  let run ← RunRepository.getOpenRun (.str runId)
  let user ← UserRepository.get (.str userId)
  let preference ← savedOrder user run.channelId userId
  let normalized ← validated v preference.lastOrderText
  let (submission, written) ← persistHolding (some preference) run user normalized true .preference d
  -- the same object, if it was the one written
  let preference := sessionObject written preference
  PreferenceService.markUsed preference (d.clock 2)
  return { preferenceId := preference.id.str, submission := submission }

/-- The order a user may still cancel. -/
def activeOrder (run : Run) (runId userId : String) : Tx Order := do
  let found ← OrderRepository.getOrder (.uuid run.id) (.str userId)
  match found.filter fun o => o.canceledAt.isNone with
  | some order => return order
  | none => Tx.raise (.order (.orderNotFound
      s!"No active order for user {userId} in run {runId}."))

def cancelOrder (runId userId : String) (d : Draws) : Tx OrderCancellationResult := do
  let run ← RunRepository.getOpenRun (.str runId)
  let _ ← UserRepository.get (.str userId)
  let order ← activeOrder run runId userId
  OrderRepository.cancelOrder order (d.clock 0)
  let participantCount ← OrderRepository.countActiveOrders (.uuid run.id)
  return { orderId := order.id.str, participantCount := participantCount }

end OrderService
end CoffeeBuddy

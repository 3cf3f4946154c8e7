import CoffeeBuddy.Data.Calendar

/-! The slash command as it is parsed, the row it makes, the event it publishes and the
message it answers with. -/

namespace CoffeeBuddy

structure SlackCommandPayload where
  token : String := ""
  teamId : String := ""
  channelId : String
  channelName : String := ""
  userId : String
  userName : String := ""
  text : String := ""
  triggerId : String := ""
  responseUrl : String := ""

/-- A pickup time the parser has given a zone. -/
structure PickupTime extends Datetime where
  aware : utcoffset.isSome

structure RunCommandOptions where
  pickupTime : Option PickupTime := none
  pickupNote : Option String := none
  errors : Option (List String) := none

def RunCommandOptions.hasErrors (options : RunCommandOptions) : Bool :=
  !(options.errors.getD []).isEmpty

/-- `coffeebuddy.models.run.Run`: the table `runs` with the Slack ids as texts. -/
structure Models.Run where
  id : String
  channelId : String
  initiatorUserId : String
  status : String
  pickupTime : Option PickupTime
  pickupNote : Option String
  correlationId : String
  startedAt : Datetime
  createdAt : Datetime
  updatedAt : Datetime

instance : Relational.Keyed Models.Run String := ⟨Models.Run.id⟩

structure RunCreatedEvent where
  runId : String
  channelId : String
  initiatorUserId : String
  pickupTime : Option String
  pickupNote : Option String
  correlationId : String
  createdAt : String
deriving DecidableEq

/-- A JSON value as the responses use them. -/
inductive Json where
  | str (s : String)
  | bool (b : Bool)
  | list (items : List Json)
  | dict (items : List (String × Json))

namespace SlackMessageBuilder
open Json

def mrkdwn (text : String) : Json := .dict [("type", .str "mrkdwn"), ("text", .str text)]

def button (text : String) (style : List (String × Json)) (actionId : String) : Json :=
  .dict ([("type", .str "button"),
    ("text", .dict [("type", .str "plain_text"), ("text", .str text)])] ++ style ++
      [("action_id", .str actionId)])

def pickupBlock (pickupDisplay : String) : Json :=
  .dict [("type", .str "section"), ("fields", .list [mrkdwn s!"*Pickup time*\n{pickupDisplay}"])]

def noteBlock (note : String) : Json :=
  .dict [("type", .str "section"), ("text", mrkdwn s!"*Pickup note*\n{note}")]

/-- The message of a run, `pickupDisplay` the display of its pickup time. -/
def message (run : Models.Run) (pickupDisplay : Option String) : Json :=
  let header : Json := .dict [("type", .str "header"), ("text", .dict [("type", .str "plain_text"),
    ("text", .str "☕ Coffee run started!"), ("emoji", .bool true)])]
  let about : Json := .dict [("type", .str "section"), ("fields", .list
    [mrkdwn s!"*Channel*\n<{run.channelId}>", mrkdwn s!"*Initiator*\n<@{run.initiatorUserId}>"])]
  let ids : Json := .dict [("type", .str "context"), ("elements", .list
    [mrkdwn ("Run ID: `" ++ run.id ++ "`"), mrkdwn ("Correlation: `" ++ run.correlationId ++ "`")])]
  let note := run.pickupNote.filter fun note => note ≠ ""
  let actions : Json := .dict [("type", .str "actions"), ("elements", .list
    [button "Place order" [] "order:new", button "Use last order" [] "order:reuse",
      button "Close run" [("style", .str "danger")] "run:close"])]
  .dict [("response_type", .str "in_channel"), ("text", .str "Coffee run is live."),
    ("blocks", .list ([header, about, ids] ++ (pickupDisplay.map pickupBlock).toList ++
      (note.map noteBlock).toList ++ [actions]))]

/-- `none` is the `OverflowError` of `astimezone`. -/
def buildRunCreated (run : Models.Run) : Option Json :=
  match run.pickupTime with
  | none => some (message run none)
  | some t => t.astimezoneUtc.map fun u => message run (some u.displayUtc)

/-- The pickup time has a UTC date. -/
def Displayable (pickupTime : Option PickupTime) : Prop :=
  ∀ t ∈ pickupTime, wallMin ≤ t.instant ∧ t.instant ≤ wallMax

theorem buildRunCreated_eq_none {run : Models.Run} :
    buildRunCreated run = none ↔ ¬Displayable run.pickupTime := by
  unfold buildRunCreated Displayable
  cases run.pickupTime with
  | none => simp
  | some t =>
    have hwall : t.astimezoneUtc = none ↔ ¬(wallMin ≤ t.instant ∧ t.instant ≤ wallMax) :=
      Datetime.ofWall_eq_none
    rw [Option.map_eq_none_iff, hwall]
    simp only [Option.mem_some_iff, forall_eq']

end SlackMessageBuilder
end CoffeeBuddy

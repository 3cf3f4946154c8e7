import CoffeeBuddy.Data.Datetime

/-! Kafka events and reminder payloads, and their way through JSON and back. What
pydantic does with single values and with JSON text is a parameter. -/

namespace CoffeeBuddy

/-- A value of `dict[str, Any]`; `other` is a value of no kind named here. -/
inductive Value where
  | none
  | bool (b : Bool)
  | int (n : ℤ)
  | str (s : String)
  | datetime (t : Datetime)
  | other (repr : String)
deriving DecidableEq

abbrev PyDict := List (String × Value)

structure KafkaEvent where
  eventType : String
  correlationId : String
  payload : PyDict
  occurredAt : Datetime
  correlated : correlationId ≠ ""

/-- The constructor with `_ensure_correlation`; `none` is the `ValidationError`. -/
def KafkaEvent.create (eventType correlationId : String) (payload : PyDict)
    (occurredAt : Datetime) : Option KafkaEvent :=
  if h : correlationId ≠ "" then some ⟨eventType, correlationId, payload, occurredAt, h⟩ else none

inductive ReminderType where
  | runner | lastCall
deriving DecidableEq

def ReminderType.value : ReminderType → String
  | .runner => "runner"
  | .lastCall => "last_call"

/-- The validation of the `Literal`. -/
def ReminderType.ofValue : Value → Option ReminderType
  | .str "runner" => some .runner
  | .str "last_call" => some .lastCall
  | _ => none

@[simp] theorem ReminderType.ofValue_value (t : ReminderType) : ofValue (.str t.value) = some t := by
  cases t <;> rfl

structure ReminderPayload where
  reminderId : String
  runId : String
  channelId : String
  runnerUserId : Option String
  reminderType : ReminderType
  scheduledFor : Datetime
  reminderOffsetMinutes : ℤ
  channelRemindersEnabled : Bool := true
  lastCallEnabled : Bool := false
  correlationId : Option String := none
deriving DecidableEq

/-! ### JSON -/

/-- The fields of an event before its own validator runs. -/
structure EventFields where
  eventType : String
  correlationId : String
  payload : PyDict
  occurredAt : Datetime

/-- Pydantic: the validation of single values, the text of a datetime, and JSON objects
of the fields of an event. `loadJson` takes the reading of `default_factory`. -/
structure Pydantic (Bytes : Type) where
  asStr : Value → Option String
  asInt : Value → Option ℤ
  asBool : Value → Option Bool
  asDatetime : Value → Option Datetime
  isoformat : Datetime → String
  dumpJson : EventFields → Bytes
  loadJson : Datetime → Bytes → Option EventFields

/-- The values JSON has. -/
def Value.Plain : Value → Prop
  | .none | .bool _ | .int _ | .str _ => True
  | .datetime _ | .other _ => False

namespace Pydantic
variable {Bytes : Type} (p : Pydantic Bytes)

/-- Pydantic reads back what it has written. -/
structure RoundTrips : Prop where
  str : ∀ s, p.asStr (.str s) = some s
  int : ∀ n, p.asInt (.int n) = some n
  bool : ∀ b, p.asBool (.bool b) = some b
  datetime : ∀ t : Datetime, t.IsUtc → p.asDatetime (.str (p.isoformat t)) = some t
  json : ∀ now (f : EventFields), (∀ e ∈ f.payload, e.2.Plain) → f.occurredAt.IsUtc →
    p.loadJson now (p.dumpJson f) = some f

/-- A value in `model_dump_json`. -/
def jsonValue : Value → Value
  | .datetime t => .str (p.isoformat t)
  | v => v

/-- A field of type `str | None`. -/
def asOptionalStr : Value → Option (Option String)
  | .none => some none
  | v => (p.asStr v).map some

end Pydantic

/-- A required field. -/
def required {α : Type} (d : PyDict) (field : String) (validate : Value → Option α) : Option α :=
  (d.lookup field).bind validate

/-- A field with a default. -/
def defaulted {α : Type} (d : PyDict) (field : String) (validate : Value → Option α) (value : α) :
    Option α :=
  match d.lookup field with
  | some v => validate v
  | none => some value

def Value.ofOptionalStr : Option String → Value
  | .some s => .str s
  | .none => .none

namespace KafkaEvent
variable {Bytes : Type} (p : Pydantic Bytes)

def asBytes (event : KafkaEvent) : Bytes :=
  p.dumpJson ⟨event.eventType, event.correlationId,
    event.payload.map fun e => (e.1, p.jsonValue e.2), event.occurredAt⟩

def modelValidateJson (now : Datetime) (value : Bytes) : Option KafkaEvent :=
  (p.loadJson now value).bind fun f => create f.eventType f.correlationId f.payload f.occurredAt

end KafkaEvent

namespace ReminderPayload
variable {Bytes : Type} (p : Pydantic Bytes)

def modelDump (r : ReminderPayload) : PyDict :=
  [("reminder_id", .str r.reminderId), ("run_id", .str r.runId), ("channel_id", .str r.channelId),
    ("runner_user_id", .ofOptionalStr r.runnerUserId), ("reminder_type", .str r.reminderType.value),
    ("scheduled_for", .datetime r.scheduledFor),
    ("reminder_offset_minutes", .int r.reminderOffsetMinutes),
    ("channel_reminders_enabled", .bool r.channelRemindersEnabled),
    ("last_call_enabled", .bool r.lastCallEnabled), ("correlation_id", .ofOptionalStr r.correlationId)]

/-- `none` is the `ValidationError`. -/
def modelValidate (d : PyDict) : Option ReminderPayload := do
  let reminderId ← required d "reminder_id" p.asStr
  let runId ← required d "run_id" p.asStr
  let channelId ← required d "channel_id" p.asStr
  let runnerUserId ← required d "runner_user_id" p.asOptionalStr
  let reminderType ← required d "reminder_type" ReminderType.ofValue
  let scheduledFor ← required d "scheduled_for" p.asDatetime
  let reminderOffsetMinutes ← required d "reminder_offset_minutes" p.asInt
  let channelRemindersEnabled ← defaulted d "channel_reminders_enabled" p.asBool true
  let lastCallEnabled ← defaulted d "last_call_enabled" p.asBool false
  let correlationId ← defaulted d "correlation_id" p.asOptionalStr none
  return { reminderId, runId, channelId, runnerUserId, reminderType, scheduledFor
           reminderOffsetMinutes, channelRemindersEnabled, lastCallEnabled, correlationId }

end ReminderPayload

/-! ### Round trips -/

section RoundTrips
variable {Bytes : Type} {p : Pydantic Bytes}

theorem Pydantic.plain_jsonValue {v : Value} (h : ∀ s, v ≠ .other s) : (p.jsonValue v).Plain := by
  cases v with
  | other s => exact absurd rfl (h s)
  | _ => trivial

theorem Pydantic.RoundTrips.optionalStr (h : p.RoundTrips) (s : Option String) :
    p.asOptionalStr (.ofOptionalStr s) = some s := by
  cases s with
  | none => rfl
  | some s => simp only [Value.ofOptionalStr, asOptionalStr, h.str, Option.map_some]

@[simp] theorem Pydantic.jsonValue_ofOptionalStr (s : Option String) :
    p.jsonValue (.ofOptionalStr s) = .ofOptionalStr s := by
  cases s <;> rfl

theorem KafkaEvent.modelValidateJson_asBytes (h : p.RoundTrips) (now : Datetime) (event : KafkaEvent)
    (hpayload : ∀ e ∈ event.payload, ∀ s, e.2 ≠ .other s) (hutc : event.occurredAt.IsUtc) :
    modelValidateJson p now (event.asBytes p) =
      some { event with payload := event.payload.map fun e => (e.1, p.jsonValue e.2) } := by
  have hplain : ∀ e ∈ event.payload.map (fun e => (e.1, p.jsonValue e.2)), e.2.Plain := by
    intro e he
    obtain ⟨e', he', rfl⟩ := List.mem_map.mp he
    exact Pydantic.plain_jsonValue (hpayload e' he')
  rw [modelValidateJson, asBytes, h.json now _ hplain hutc, Option.bind_some, create,
    dif_pos event.correlated]

theorem ReminderPayload.modelValidate_modelDump (h : p.RoundTrips) (r : ReminderPayload)
    (hutc : r.scheduledFor.IsUtc) :
    modelValidate p (r.modelDump.map fun e => (e.1, p.jsonValue e.2)) = some r := by
  have hd : p.asDatetime (p.jsonValue (.datetime r.scheduledFor)) = some r.scheduledFor :=
    h.datetime _ hutc
  have hs : ∀ s, p.asStr (p.jsonValue (.str s)) = some s := h.str
  have hi : ∀ n, p.asInt (p.jsonValue (.int n)) = some n := h.int
  have hb : ∀ b, p.asBool (p.jsonValue (.bool b)) = some b := h.bool
  have ht : ReminderType.ofValue (p.jsonValue (.str r.reminderType.value)) = some r.reminderType :=
    ReminderType.ofValue_value _
  simp [modelValidate, modelDump, required, defaulted, List.lookup_cons, hd, hs, hi, hb, ht, h.optionalStr]

theorem ReminderPayload.modelDump_named (r : ReminderPayload) :
    ∀ e ∈ r.modelDump, ∀ s, e.2 ≠ .other s := by
  have ho : ∀ (o : Option String) s, Value.ofOptionalStr o ≠ .other s := by
    intro o s
    cases o <;> exact Value.noConfusion
  intro e he s
  simp only [modelDump, List.mem_cons, List.not_mem_nil, or_false] at he
  rcases he with rfl | rfl | rfl | rfl | rfl | rfl | rfl | rfl | rfl | rfl
  case inr.inr.inr.inl => exact ho _ s
  case inr.inr.inr.inr.inr.inr.inr.inr.inr => exact ho _ s
  all_goals exact Value.noConfusion

end RoundTrips
end CoffeeBuddy

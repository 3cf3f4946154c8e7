import CoffeeBuddy.Library.JsonText
import CoffeeBuddy.Data.CalendarTexts
import CoffeeBuddy.SlackRuns.Signature
import CoffeeBuddy.SlackRuns.Service

/-! The record in which a run event goes to its topic: keyed by the run, its value the JSON
of the event. -/

namespace CoffeeBuddy

/-- `asdict`: the fields of an event in their order. -/
def RunCreatedEvent.toPayload (event : RunCreatedEvent) : List (String × Option String) :=
  [("run_id", some event.runId), ("channel_id", some event.channelId),
    ("initiator_user_id", some event.initiatorUserId), ("pickup_time", event.pickupTime),
    ("pickup_note", event.pickupNote), ("correlation_id", some event.correlationId),
    ("created_at", some event.createdAt)]

theorem RunCreatedEvent.toPayload_injective : Function.Injective toPayload := by
  intro e f h
  cases e
  cases f
  simpa [toPayload] using h

/-- What the client is asked to send. -/
structure ProducerRecord where
  topic : String
  key : ByteArray
  value : ByteArray

namespace KafkaRunEventPublisher

def jsonText (value : List (String × Option String)) : String :=
  .ofList (JsonText.dumps (value.map fun m => (m.1.toList, m.2.map String.toList)))

def serialize (value : List (String × Option String)) : ByteArray := (jsonText value).toUTF8

/-- `publish_run_created` of a publisher for the topic. -/
def recordOf (topic : String) (event : RunCreatedEvent) : ProducerRecord :=
  { topic, key := event.runId.toUTF8, value := serialize event.toPayload }

@[simp] theorem recordOf_key (topic : String) (event : RunCreatedEvent) :
    (recordOf topic event).key = event.runId.toUTF8 := by rw [recordOf]

@[simp] theorem recordOf_value (topic : String) (event : RunCreatedEvent) :
    (recordOf topic event).value = serialize event.toPayload := by rw [recordOf]

/-- What a JSON reader makes of a value. -/
def deserialize (value : ByteArray) : Option (List (String × Option String)) :=
  (String.fromUTF8? value).bind fun text => (JsonText.loads text.toList).map fun members =>
    members.map fun m => (.ofList m.1, m.2.map .ofList)

theorem fromUTF8?_toUTF8 (text : String) : String.fromUTF8? text.toUTF8 = some text :=
  fromUTF8?_eq_some.mpr rfl

theorem fromUTF8?_serialize (value : List (String × Option String)) :
    String.fromUTF8? (serialize value) = some (jsonText value) :=
  fromUTF8?_toUTF8 (jsonText value)

theorem deserialize_serialize (value : List (String × Option String)) :
    deserialize (serialize value) = some value := by
  have hmember : ∀ m : String × Option String,
      (String.ofList m.1.toList, (m.2.map String.toList).map String.ofList) = m := by
    intro m
    rw [Option.map_map, String.ofList_toList]
    exact congrArg (Prod.mk m.1) ((Option.map_congr fun s _ => String.ofList_toList).trans
      Option.map_id')
  rw [deserialize, fromUTF8?_serialize, Option.bind_some, jsonText, String.toList_ofList,
    JsonText.loads_dumps, Option.map_some, List.map_map]
  exact congrArg some ((List.map_congr_left fun m _ => hmember m).trans (List.map_id value))

theorem deserialize_recordOf (topic : String) (event : RunCreatedEvent) :
    deserialize (recordOf topic event).value = some event.toPayload := by
  rw [recordOf_value, deserialize_serialize]

theorem printable_jsonText (value : List (String × Option String)) :
    ∀ c ∈ (jsonText value).toList, ' ' ≤ c ∧ c ≤ '~' := by
  intro c hc
  rw [jsonText, String.toList_ofList] at hc
  exact JsonText.printable_dumps _ c hc

theorem recordOf_inj {topic topic' : String} {event event' : RunCreatedEvent} :
    recordOf topic event = recordOf topic' event' ↔ topic = topic' ∧ event = event' := by
  constructor
  · intro h
    have hread := congrArg (fun r => deserialize r.value) h
    simp only [deserialize_recordOf, Option.some.injEq] at hread
    exact ⟨congrArg ProducerRecord.topic h, RunCreatedEvent.toPayload_injective hread⟩
  · rintro ⟨rfl, rfl⟩
    rfl

end KafkaRunEventPublisher

/-! ### The rows behind the events -/

/-- A pickup time is its text. -/
theorem PickupTime.isoformat_injective :
    Function.Injective fun t : PickupTime => t.isoformat := by
  intro t u h
  have hdatetime : t.toDatetime = u.toDatetime := Datetime.isoformat_injective h
  cases t
  cases u
  cases hdatetime
  rfl

/-- The event of a slash command tells its whole row, `startedAt` being all its times. -/
theorem SlashCommand.created_inj {c d : SlashCommand} :
    c.run.created = d.run.created ↔ c.run = d.run := by
  constructor
  · intro h
    simp only [Models.Run.created, RunCreatedEvent.mk.injEq] at h
    obtain ⟨hid, hchannel, huser, hpickup, hnote, hcorrelation, hstarted⟩ := h
    have htime : c.run.pickupTime = d.run.pickupTime :=
      Option.map_injective PickupTime.isoformat_injective hpickup
    have hnow : c.run.startedAt = d.run.startedAt := Datetime.isoformat_injective hstarted
    have hcreated : c.run.createdAt = d.run.createdAt := hnow
    have hupdated : c.run.updatedAt = d.run.updatedAt := hnow
    have hstatus : c.run.status = d.run.status := rfl
    cases hc : c.run
    cases hd : d.run
    rw [hc, hd] at hid hchannel huser htime hnote hcorrelation hnow hcreated hupdated hstatus
    cases hid
    cases hchannel
    cases huser
    cases htime
    cases hnote
    cases hcorrelation
    cases hnow
    cases hcreated
    cases hupdated
    cases hstatus
    rfl
  · exact congrArg Models.Run.created

theorem SlashCommand.map_run_eq {cs ds : List SlashCommand}
    (h : (cs.map fun c => c.run.created) = ds.map fun c => c.run.created) :
    cs.map SlashCommand.run = ds.map SlashCommand.run := by
  induction cs generalizing ds with
  | nil =>
    have hempty : ds = [] := List.map_eq_nil_iff.mp h.symm
    rw [hempty]
  | cons c cs ih =>
    cases ds with
    | nil => exact absurd h (List.cons_ne_nil _ _)
    | cons d ds =>
      rw [List.map_cons, List.map_cons, List.cons.injEq] at h
      rw [List.map_cons, List.map_cons, SlashCommand.created_inj.mp h.1, ih h.2]

end CoffeeBuddy

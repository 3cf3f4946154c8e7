import CoffeeBuddy.Library.Waiting
import CoffeeBuddy.Reminders.Consumer
import CoffeeBuddy.Reminders.Scheduler

/-! Reminders from the scheduler through Kafka to the sender: what is published arrives as
it was returned and passes the worker's gate, and one loop that waits for each reminder in
turn is on time exactly when no reminder queues behind a much later one. -/

namespace CoffeeBuddy
open ReminderScheduler ReminderWorker KafkaEventConsumer

/-- `message` decodes to an event whose payload is valid and passes the worker's gate. -/
def Dispatchable {Bytes : Type} (p : Pydantic Bytes) (now : Datetime) (message : Bytes)
    (payload : ReminderPayload) : Prop :=
  ∃ event, KafkaEvent.modelValidateJson p now message = some event ∧
    ReminderPayload.modelValidate p event.payload = some payload ∧ shouldDispatch payload = true

/-! ### The scheduler and the worker agree -/

section Agreement
variable {Bytes : Type} {p : Pydantic Bytes} {channel : ChannelReminderConfig} {pickup : Timestamp}
  {payload : ReminderPayload} {event : KafkaEvent} {s : ReminderScheduler}

/-- The worker's gate is the scheduler's. -/
theorem ReminderScheduler.Announces.shouldDispatch (h : s.Announces channel pickup payload event) :
    shouldDispatch payload = true := by
  rw [ReminderWorker.shouldDispatch, h.remindersEnabled]
  cases ht : payload.reminderType with
  | runner => exact h.runner ht
  | lastCall => exact h.lastCall ht

theorem ReminderScheduler.Announces.dispatchable (h : s.Announces channel pickup payload event)
    (hp : p.RoundTrips) (hutc : ∀ n, (s.occurredAt n).IsUtc) (now : Datetime) :
    Dispatchable p now (event.asBytes p) payload := by
  obtain ⟨n, hn⟩ := h.occurred
  refine ⟨_, event.modelValidateJson_asBytes hp now (h.carried ▸ payload.modelDump_named)
    (hn ▸ hutc n), ?_, h.shouldDispatch⟩
  rw [h.carried]
  exact payload.modelValidate_modelDump hp h.utc

end Agreement

theorem scheduled_reminders_agree {Bytes : Type} (p : Pydantic Bytes) (hp : p.RoundTrips)
    (s : ReminderScheduler) (hutc : ∀ n, (s.occurredAt n).IsUtc) (runId correlationId : String)
    (hcorr : correlationId ≠ "") (pickupTime : Option Datetime) (runnerUserId : Option String)
    (channel : ChannelReminderConfig) (hlimits : ∀ t ∈ pickupTime, WithinLimits channel t) :
    ∃ payloads events, s.scheduleForRun runId pickupTime runnerUserId channel correlationId =
        (.ok payloads, events) ∧
      List.Forall₂ (fun payload event => (∀ now, Dispatchable p now (event.asBytes p) payload) ∧
        ∃ t ∈ pickupTime, payload.scheduledFor.instant +
          minutesBefore channel payload.reminderType * minute = t.instant) payloads events ∧
      (channel.remindersEnabled = false ∨ pickupTime = none → events = []) := by
  cases pickupTime with
  | none => exact ⟨[], [], rfl, .nil, fun _ => rfl⟩
  | some pickup =>
    obtain ⟨payloads, events, hschedule, htypes, hannounce⟩ :=
      s.scheduleForRun_spec runId runnerUserId hcorr (hlimits pickup rfl)
    refine ⟨payloads, events, hschedule, ?_, ?_⟩
    · exact hannounce.imp fun payload event h =>
        ⟨h.dispatchable hp hutc, pickup, rfl, h.due⟩
    · rintro (hoff | hnone)
      · have hdue : runnerDue runnerUserId channel ++ lastCallDue channel = [] := by
          refine List.eq_nil_iff_forall_not_mem.mpr fun r hr => ?_
          exact Bool.noConfusion (hoff.symm.trans (passes_of_due hr).remindersEnabled)
        rw [hdue, List.map_nil, List.map_eq_nil_iff] at htypes
        subst htypes
        exact List.forall₂_nil_left_iff.mp hannounce
      · exact absurd hnone (Option.some_ne_none pickup)

/-! ### A run at noon -/

namespace Sample

def timeOf (seconds : ℤ) (h : wallMin ≤ seconds * second ∧ seconds * second ≤ wallMax) : Datetime :=
  ⟨seconds * second, some 0, h⟩

/-- 2024-01-01 at 12:00, with reminders at 11:55 and 11:45. -/
def noon : Datetime := timeOf 1704110400 (by decide)

def runnerTime : Datetime := timeOf 1704110100 (by decide)

def lastCallTime : Datetime := timeOf 1704109500 (by decide)

def tally (t : Datetime) : String := String.ofList (List.replicate (t.wall - wallMin).toNat 'x')

/-- JSON objects as they are; the two reminder times have their ISO texts. -/
def pydantic : Pydantic EventFields where
  asStr
    | .str s => some s
    | _ => none
  asInt
    | .int n => some n
    | _ => none
  asBool
    | .bool b => some b
    | _ => none
  asDatetime
    | .str s =>
      if s = "2024-01-01T11:55:00Z" then some runnerTime
      else if s = "2024-01-01T11:45:00Z" then some lastCallTime
      else Datetime.ofWall (some 0) (wallMin + s.length)
    | .datetime t => some t
    | _ => none
  isoformat t :=
    if t = runnerTime then "2024-01-01T11:55:00Z"
    else if t = lastCallTime then "2024-01-01T11:45:00Z"
    else tally t
  dumpJson f := f
  loadJson _ f := some f

theorem tally_ne {t : Datetime} {c : Char} {cs : List Char} (hc : c ≠ 'x') :
    tally t ≠ String.ofList (c :: cs) := by
  intro h
  have hmem : c ∈ (tally t).toList := by
    rw [h, String.toList_ofList]
    exact List.mem_cons_self
  rw [tally, String.toList_ofList] at hmem
  exact hc (List.eq_of_mem_replicate hmem)

theorem ofWall_tally {t : Datetime} (h : t.IsUtc) :
    Datetime.ofWall (some 0) (wallMin + (tally t).length) = some t := by
  refine Datetime.ofWall_eq_some.mpr ⟨?_, h⟩
  have hle : 0 ≤ t.wall - wallMin := sub_nonneg.mpr t.inRange.1
  rw [tally, String.length_ofList, List.length_replicate, Int.toNat_of_nonneg hle, add_sub_cancel]

theorem pydantic_roundTrips : pydantic.RoundTrips where
  str _ := rfl
  int _ := rfl
  bool _ := rfl
  datetime t h := by
    by_cases hr : t = runnerTime
    · simp only [pydantic, hr, if_true]
    by_cases hl : t = lastCallTime
    · have hne : lastCallTime ≠ runnerTime := by decide
      have htext : "2024-01-01T11:45:00Z" ≠ "2024-01-01T11:55:00Z" := by decide
      simp only [pydantic, hl, hne, htext, if_true, if_false]
    · have h₁ : tally t ≠ "2024-01-01T11:55:00Z" := tally_ne (by decide)
      have h₂ : tally t ≠ "2024-01-01T11:45:00Z" := tally_ne (by decide)
      simp only [pydantic, hr, hl, h₁, h₂, if_false]
      exact ofWall_tally h
  json _ _ _ _ := rfl

def channelConfig : ChannelReminderConfig :=
  { channelId := "C7", remindersEnabled := true, reminderOffsetMinutes := 5
    lastCallEnabled := true, lastCallLeadMinutes := some 15 }

def scheduler : ReminderScheduler :=
  { idFactory := fun n => if n = 0 then "runner-rem" else "last-call-rem"
    occurredAt := fun _ => timeOf 1704103200 (by decide) }

def scheduled : Except ScheduleError (List ReminderPayload) × List KafkaEvent :=
  scheduler.scheduleForRun "run-1" (some noon) (some "U777") channelConfig "corr-1"

theorem withinLimits_noon : ∀ t ∈ some noon, WithinLimits channelConfig t := by
  rintro t ⟨⟩
  unfold WithinLimits
  decide

end Sample

open Sample in
theorem scheduled_reminders_agree_noon :
    ∃ payloads events, scheduled = (.ok payloads, events) ∧
      List.Forall₂ (fun payload event =>
        (∀ now, Dispatchable pydantic now (event.asBytes pydantic) payload) ∧
        ∃ t ∈ some noon, payload.scheduledFor.instant +
          minutesBefore channelConfig payload.reminderType * minute = t.instant) payloads events ∧
      (channelConfig.remindersEnabled = false ∨ some noon = none → events = []) :=
  scheduled_reminders_agree pydantic pydantic_roundTrips scheduler (fun _ => rfl) "run-1" "corr-1"
    (by decide) (some noon) (some "U777") channelConfig withinLimits_noon

/-! ### One loop and many reminders -/

def ReminderPayload.due (payload : ReminderPayload) : Timestamp := payload.scheduledFor.instant

section Loop
variable {Bytes : Type} {p : Pydantic Bytes} {received : Datetime} {worker : ReminderWorker}

/-- Undisturbed, the loop serves its messages in order, each when it is due. -/
theorem consumeLoop_exact (returns : ReminderPayload → Bool) (fuel : ℕ)
    (htol : 0 ≤ worker.tolerance) {messages : List Bytes} {payloads : List ReminderPayload}
    (h : List.Forall₂ (Dispatchable p received) messages payloads) (st : WorkerState Timestamp) :
    ∃ st' ks, consumeLoop (KafkaEvent.modelValidateJson p received)
        (worker.processEvent (Outside.exact returns) p (fuel + 3)) messages st = some (st', ks) ∧
      st'.sendings = st.sendings ++
        (Waiting.served ReminderPayload.due st.world payloads).map fun x => ⟨x.1, x.2⟩ := by
  induction h generalizing st with
  | nil => exact ⟨st, [], rfl, (List.append_nil _).symm⟩
  | @cons message payload messages payloads hm _ ih =>
    obtain ⟨event, hdecode, hvalid, hdispatch⟩ := hm
    obtain ⟨result, st₁, hprocess, hsendings, hworld⟩ :=
      processEvent_exact returns fuel htol hvalid hdispatch st
    obtain ⟨k, hcons⟩ := consumeLoop_cons messages hdecode hprocess
    obtain ⟨st', ks, hrest, hserved⟩ := ih st₁
    refine ⟨st', k :: ks, ?_, ?_⟩
    · rw [hcons, hrest, Option.map_some]
    · rw [hserved, hsendings, hworld, List.append_assoc]
      rfl

end Loop

/-- Each reminder is sent within the tolerance. -/
def OnTime (worker : ReminderWorker) (sendings : List Sending) : Prop :=
  ∀ x ∈ sendings, x.reading ≤ x.payload.due + worker.tolerance

theorem reminders_timely_iff {Bytes : Type} (p : Pydantic Bytes) (received : Datetime)
    (worker : ReminderWorker) (htol : 0 ≤ worker.toleranceSeconds)
    (returns : ReminderPayload → Bool) (messages : List Bytes) (payloads : List ReminderPayload)
    (h : List.Forall₂ (Dispatchable p received) messages payloads) (start : Timestamp)
    (hstart : ∀ payload ∈ payloads, start < payload.due) (fuel : ℕ) (hfuel : 3 ≤ fuel) :
    ∃ st ks, consumeLoop (KafkaEvent.modelValidateJson p received)
        (worker.processEvent (Outside.exact returns) p fuel) messages { world := start } =
        some (st, ks) ∧
      st.sendings.map Sending.payload = payloads ∧
      (OnTime worker st.sendings ↔
        payloads.Pairwise fun a b => a.due ≤ b.due + worker.tolerance) := by
  obtain ⟨fuel, rfl⟩ := Nat.exists_eq_add_of_le' hfuel
  have htol : 0 ≤ worker.tolerance := mul_nonneg htol (by decide)
  obtain ⟨st, ks, hloop, hsendings⟩ := consumeLoop_exact returns fuel htol h
    { world := start }
  rw [List.nil_append] at hsendings
  refine ⟨st, ks, hloop, ?_, ?_⟩
  · rw [hsendings, List.map_map]
    exact Waiting.map_fst_served _ _ _
  · have hfirst : ∀ payload ∈ payloads, start ≤ payload.due + worker.tolerance := fun payload hp =>
      (hstart payload hp).le.trans (le_add_of_nonneg_right htol)
    have hserved := Waiting.within_slack_iff ReminderPayload.due htol start payloads
    rw [and_iff_right hfirst] at hserved
    rw [← hserved, OnTime, hsendings, List.forall_mem_map]

namespace Sample

/-- The worker starts at 10:00, with the default tolerance of a minute. -/
def start : Timestamp := 1704103200 * second

def consumed (events : List KafkaEvent) : Option (WorkerState Timestamp × List ConsumeStatus) :=
  consumeLoop (KafkaEvent.modelValidateJson pydantic noon)
    (({} : ReminderWorker).processEvent (Outside.exact fun _ => true) pydantic 3)
    (events.map (KafkaEvent.asBytes pydantic)) { world := start }

def delays (st : WorkerState Timestamp) : List ℤ :=
  st.sendings.map fun x => x.reading - x.payload.due

theorem consumed_facts : (consumed scheduled.2).map (fun r => delays r.1) = some [0, 10 * minute] := by
  decide +kernel

theorem scheduled_facts : scheduled.1.toOption.map (fun ps => ps.map ReminderPayload.due) =
    some [start + 115 * minute, start + 105 * minute] := by
  decide +kernel

theorem scheduled_ahead : ∃ payloads, scheduled.1 = .ok payloads ∧
    (∀ payload ∈ payloads, start < payload.due) ∧
    List.Forall₂ (Dispatchable pydantic noon) (scheduled.2.map (KafkaEvent.asBytes pydantic))
      payloads := by
  have hcorr : "corr-1" ≠ "" := by decide
  obtain ⟨payloads, events, hschedule, -, hannounce⟩ :=
    scheduler.scheduleForRun_spec "run-1" (some "U777") hcorr (withinLimits_noon noon rfl)
  have hs : scheduled = (.ok payloads, events) := hschedule
  have hfacts := scheduled_facts
  rw [hs] at hfacts ⊢
  have hdues : payloads.map ReminderPayload.due = _ := Option.some.inj hfacts
  refine ⟨payloads, rfl, fun payload hp => ?_, ?_⟩
  · have hmem : payload.due ∈ payloads.map ReminderPayload.due := List.mem_map_of_mem hp
    rw [hdues] at hmem
    have hsoon : ∀ t ∈ [start + 115 * minute, start + 105 * minute], start < t := by decide
    exact hsoon _ hmem
  · refine List.forall₂_map_left_iff.mpr (List.Forall₂.flip ?_)
    exact hannounce.imp fun _ _ h => h.dispatchable pydantic_roundTrips (fun _ => rfl) noon

end Sample

open Sample in
/-- The last call is due first and waits behind the runner reminder. -/
theorem last_call_waits_behind_runner : ∃ payloads, scheduled.1 = .ok payloads ∧
    (∀ payload ∈ payloads, start < payload.due) ∧
    ∃ st ks, consumed scheduled.2 = some (st, ks) ∧ ¬OnTime {} st.sendings := by
  obtain ⟨payloads, hpayloads, hahead, -⟩ := scheduled_ahead
  obtain ⟨⟨st, ks⟩, hst, hdelays⟩ := Option.map_eq_some_iff.mp consumed_facts
  refine ⟨payloads, hpayloads, hahead, st, ks, hst, fun hon => ?_⟩
  have hlate : 10 * minute ∈ delays st := hdelays ▸ by decide
  obtain ⟨x, hx, hdelay⟩ := List.mem_map.mp hlate
  have hle : x.reading - x.payload.due ≤ ({} : ReminderWorker).tolerance :=
    sub_le_iff_le_add'.mpr (hon x hx)
  rw [hdelay] at hle
  exact absurd hle (by decide)

open Sample in
theorem reminders_timely_iff_noon : ∃ payloads, ∃ st ks, consumed scheduled.2 = some (st, ks) ∧
    st.sendings.map Sending.payload = payloads ∧ (OnTime {} st.sendings ↔
      payloads.Pairwise fun a b => a.due ≤ b.due + ({} : ReminderWorker).tolerance) := by
  obtain ⟨payloads, -, hahead, hmessages⟩ := scheduled_ahead
  exact ⟨payloads, reminders_timely_iff pydantic noon {} (by decide) (fun _ => true) _ payloads
    hmessages start hahead 3 le_rfl⟩

end CoffeeBuddy

import CoffeeBuddy.Properties.Delivery

/-! Reminders from one end to the other: any number of runs scheduled, some of them failing
midway, their events on the topic in the order of publication, and the worker behind it. -/

namespace CoffeeBuddy
open ReminderScheduler ReminderWorker Contact

/-- A call of `schedule_for_run`, with the scheduler's draws for it. -/
structure ScheduleCall where
  scheduler : ReminderScheduler
  runId : String
  pickupTime : Option Datetime
  runnerUserId : Option String
  channel : ChannelReminderConfig
  correlationId : String

namespace ScheduleCall

/-- What the call returns or raises, and what it has published by then. -/
def run (c : ScheduleCall) : Except ScheduleError (List ReminderPayload) × List KafkaEvent :=
  c.scheduler.scheduleForRun c.runId c.pickupTime c.runnerUserId c.channel c.correlationId

/-- The payloads behind the events of a call; a call that returns has returned them. -/
structure Publishes (c : ScheduleCall) (payloads : List ReminderPayload) : Prop where
  announced : ∀ pickup ∈ c.pickupTime,
    List.Forall₂ (c.scheduler.Announces c.channel pickup.instant) payloads c.run.2
  silent : c.pickupTime = none → payloads = [] ∧ c.run.2 = []
  returned : ∀ result, c.run.1 = .ok result → result = payloads

end ScheduleCall

section Scheduling
variable {s : ReminderScheduler} {channel : ChannelReminderConfig}

theorem ReminderScheduler.event_eq_some {n : ℕ} {payload : ReminderPayload} {event : KafkaEvent}
    (h : s.event n payload = some event) :
    event.payload = payload.modelDump ∧ event.occurredAt = s.occurredAt n := by
  unfold ReminderScheduler.event KafkaEvent.create at h
  split_ifs at h with hcorr
  obtain rfl := Option.some.inj h
  exact ⟨rfl, rfl⟩

/-- What `enqueue` publishes before it returns or raises. -/
theorem ReminderScheduler.enqueue_announces (runId correlationId : String) {awarePickup : Datetime}
    (hutc : awarePickup.IsUtc) (n : ℕ) {rs : List Due} (hrs : ∀ r ∈ rs, Passes channel r) :
    ∃ payloads, List.Forall₂ (s.Announces channel awarePickup.instant) payloads
        (s.enqueue runId channel correlationId awarePickup n rs).2 ∧
      ∀ result, (s.enqueue runId channel correlationId awarePickup n rs).1 = .ok result →
        result = payloads := by
  induction rs generalizing n with
  | nil => exact ⟨[], .nil, fun _ h => (Except.ok.inj h).symm⟩
  | cons r rs ih =>
    have hpass := hrs r List.mem_cons_self
    obtain ⟨payloads, hannounce, hresult⟩ := ih (n + 1) fun r hr =>
      hrs r (List.mem_cons_of_mem _ hr)
    cases hsub : awarePickup.sub (r.minutesBefore * minute) with
    | none =>
      simp only [enqueue, hsub]
      exact ⟨[], .nil, fun result h => by cases h⟩
    | some scheduledFor =>
      obtain ⟨hoffset, hinstant⟩ := Datetime.sub_spec hsub
      set payload := buildPayload (s.idFactory n) runId channel r.runnerUserId scheduledFor
        r.reminderType correlationId with hpayload
      cases hevent : s.event n payload with
      | none =>
        simp only [enqueue, hsub, ← hpayload, hevent]
        exact ⟨[], .nil, fun result h => by cases h⟩
      | some event =>
        obtain ⟨hcarried, hoccurred⟩ := event_eq_some hevent
        simp only [enqueue, hsub, ← hpayload, hevent]
        refine ⟨payload :: payloads, .cons ?_ hannounce, fun result h => ?_⟩
        · refine ⟨hcarried, hoffset.trans hutc, ?_, hpass.remindersEnabled, hpass.runner,
            hpass.lastCall, n, hoccurred⟩
          rw [← hinstant, hpass.minutes]
          rfl
        · cases hrest : (s.enqueue runId channel correlationId awarePickup (n + 1) rs).1 with
          | error e =>
            rw [hrest] at h
            cases h
          | ok rest =>
            rw [hrest] at h
            rw [← hresult rest hrest]
            exact (Except.ok.inj h).symm

theorem ScheduleCall.publishes (c : ScheduleCall) : ∃ payloads, c.Publishes payloads := by
  cases hpickup : c.pickupTime with
  | none =>
    have hrun : c.run = (.ok [], []) := by simp only [run, scheduleForRun, hpickup]
    refine ⟨[], fun t ht => ?_, fun _ => ⟨rfl, congrArg Prod.snd hrun⟩, fun result h => ?_⟩
    · exact absurd (hpickup.symm.trans ht) (Option.some_ne_none t).symm
    · rw [hrun] at h
      exact (Except.ok.inj h).symm
  | some pickup =>
    have hnever : some pickup = none → False := Option.some_ne_none pickup
    cases haware : asAware pickup with
    | none =>
      have hrun : c.run = (.error .overflow, []) := by
        simp only [run, scheduleForRun, hpickup, haware]
      refine ⟨[], fun _ _ => ?_, fun h => (hnever (hpickup.symm.trans h)).elim, ?_⟩
      · rw [hrun]
        exact .nil
      · rw [hrun]
        exact fun result h => by cases h
    | some awarePickup =>
      obtain ⟨hutc, hinstant⟩ := asAware_spec haware
      have hrun : c.run = c.scheduler.enqueue c.runId c.channel c.correlationId awarePickup 0
          (runnerDue c.runnerUserId c.channel ++ lastCallDue c.channel) := by
        simp only [run, scheduleForRun, hpickup, haware]
      obtain ⟨payloads, hannounce, hresult⟩ := c.scheduler.enqueue_announces c.runId c.correlationId
        hutc 0 fun r hr => passes_of_due hr
      rw [← hrun] at hannounce hresult
      refine ⟨payloads, ?_, fun h => (hnever (hpickup.symm.trans h)).elim, hresult⟩
      rintro t ht
      obtain rfl := Option.some.inj (hpickup.symm.trans ht)
      rwa [← hinstant]

end Scheduling

/-! ### The worker behind the topic -/

section Worker
variable {Bytes : Type} {p : Pydantic Bytes}

theorem ScheduleCall.Publishes.dispatchable {c : ScheduleCall} {payloads : List ReminderPayload}
    (h : c.Publishes payloads) (hp : p.RoundTrips) (hutc : ∀ n, (c.scheduler.occurredAt n).IsUtc) :
    List.Forall₂ (fun payload event => ∀ now, Dispatchable p now (KafkaEvent.asBytes p event) payload)
      payloads c.run.2 := by
  cases hpickup : c.pickupTime with
  | none =>
    obtain ⟨hpayloads, hevents⟩ := h.silent hpickup
    rw [hpayloads, hevents]
    exact .nil
  | some pickup =>
    exact (h.announced pickup hpickup).imp fun payload event hannounce =>
      hannounce.dispatchable hp hutc

theorem dispatchable_flatten {cs : List ScheduleCall} {payloads : List (List ReminderPayload)}
    (h : List.Forall₂ ScheduleCall.Publishes cs payloads) (hp : p.RoundTrips)
    (hutc : ∀ c ∈ cs, ∀ n, (c.scheduler.occurredAt n).IsUtc) :
    List.Forall₂ (fun payload event => ∀ now, Dispatchable p now (KafkaEvent.asBytes p event) payload)
      payloads.flatten (cs.flatMap fun c => c.run.2) := by
  induction h with
  | nil => exact .nil
  | @cons c ps cs payloads hc _ ih =>
    rw [List.flatten_cons, List.flatMap_cons]
    have hfirst := hc.dispatchable hp (hutc c List.mem_cons_self)
    exact List.rel_append hfirst (ih fun c hc => hutc c (List.mem_cons_of_mem _ hc))

theorem due_of_dispatchable {payloads : List ReminderPayload} {messages : List (Fetched Bytes)}
    (h : List.Forall₂ (fun payload message => ∀ now, Dispatchable p now message.2 payload) payloads
      messages) : due p messages = payloads := by
  induction h with
  | nil => rfl
  | @cons payload message payloads messages hm _ ih =>
    obtain ⟨event, hdecode, hvalid, hdispatch⟩ := hm message.1
    have hdecode : decode p message = some event := hdecode
    have haccepted : accepted p event = some payload := accepted_eq_some.mpr ⟨hvalid, hdispatch⟩
    rw [due, List.filterMap_cons, hdecode, Option.bind_some, haccepted]
    exact congrArg (List.cons payload) ih

end Worker

/-- However many runs are scheduled, the worker calls the sender once for each reminder that
was published, in that order and not before its time. -/
theorem reminders_sent_as_scheduled {σ Bytes : Type} (p : Pydantic Bytes) (hp : p.RoundTrips)
    (worker : ReminderWorker) (htol : 0 ≤ worker.toleranceSeconds) (o : Outside σ)
    (hsleeps : o.Sleeps) (cs : List ScheduleCall)
    (hutc : ∀ c ∈ cs, ∀ n, (c.scheduler.occurredAt n).IsUtc) (messages : List (Fetched Bytes))
    (hmessages : messages.map Prod.snd =
      (cs.flatMap fun c => c.run.2).map (KafkaEvent.asBytes p)) (w : σ) :
    ∃ payloads, List.Forall₂ ScheduleCall.Publishes cs payloads ∧
      ∃ least, ∀ fuel ≥ least, ∃ st ks,
        worker.consume o.recorded p fuel messages { world := (w, []) } = some (st, ks) ∧
        calls st.world.2 = payloads.flatten.map callOf ∧ Timely st.world.2 := by
  have hpublishes : ∃ payloads, List.Forall₂ ScheduleCall.Publishes cs payloads := by
    clear hutc hmessages
    induction cs with
    | nil => exact ⟨[], .nil⟩
    | cons c cs ih =>
      obtain ⟨payloads, hc⟩ := c.publishes
      obtain ⟨rest, hrest⟩ := ih
      exact ⟨payloads :: rest, .cons hc hrest⟩
  obtain ⟨payloads, hpayloads⟩ := hpublishes
  -- the messages are the events of the payloads, one for one
  have hsent : List.Forall₂ (fun payload bytes => ∀ now, Dispatchable p now bytes payload)
      payloads.flatten (messages.map Prod.snd) := by
    rw [hmessages]
    exact List.forall₂_map_right_iff.mpr (dispatchable_flatten hpayloads hp hutc)
  have hdue : due p messages = payloads.flatten :=
    due_of_dispatchable (List.forall₂_map_right_iff.mp hsent)
  have htol' : 0 ≤ worker.tolerance := mul_nonneg htol (by decide)
  obtain ⟨least, ⟨st, ks⟩, hleast⟩ := consume_isSome
    (hsleeps.recorded.eachWaitEnds htol' messages { world := (w, []) })
  refine ⟨payloads, hpayloads, least, fun fuel hfuel => ⟨st, ks, consume_mono hfuel hleast, ?_⟩⟩
  obtain ⟨record, hrecord, htimely, hcalls, -⟩ := consume_recorded hleast
  rw [List.nil_append] at hrecord
  rw [hrecord, ← hdue]
  exact ⟨hcalls, htimely⟩

/-! ### Two runs -/

namespace Sample

/-- Ten minutes past the earliest time: five minutes before it there is a time, a quarter of an
hour before it there is none. -/
def early : Datetime := ⟨wallMin + 10 * minute, some 0, by decide⟩

def midway : ScheduleCall := ⟨scheduler, "run-3", some early, some "U777", channelConfig, "corr-3"⟩

/-- The runner is reminded, and the last call raises. -/
theorem run_midway : midway.run.1 = .error .overflow ∧ midway.run.2.length = 1 := ⟨rfl, rfl⟩

/-- The run at noon, one whose correlation id is missing, so that its scheduling raises at once,
and one whose scheduling raises midway. -/
def scheduling : List ScheduleCall :=
  [⟨scheduler, "run-1", some noon, some "U777", channelConfig, "corr-1"⟩,
    ⟨scheduler, "run-2", some noon, some "U777", channelConfig, ""⟩, midway]

theorem occurred_scheduling : ∀ c ∈ scheduling, ∀ n, (c.scheduler.occurredAt n).IsUtc := by
  intro c hc n
  have hscheduler : c.scheduler = scheduler := by
    rcases hc with _ | ⟨_, _ | ⟨_, _ | ⟨_, hnone⟩⟩⟩
    · rfl
    · rfl
    · rfl
    · exact absurd hnone List.not_mem_nil
  rw [hscheduler]
  rfl

def published₂ : List (Fetched EventFields) :=
  (scheduling.flatMap fun c => c.run.2).map fun event => (noon, event.asBytes pydantic)

end Sample

open Sample in
theorem reminders_sent_as_scheduled_noon :
    (midway.run.1 = .error .overflow ∧ midway.run.2.length = 1) ∧
    ∃ payloads, List.Forall₂ ScheduleCall.Publishes scheduling payloads ∧
      ∃ least, ∀ fuel ≥ least, ∃ st ks, ({} : ReminderWorker).consume faulty.recorded pydantic fuel
          published₂ { world := (start, []) } = some (st, ks) ∧
        calls st.world.2 = payloads.flatten.map callOf ∧ Timely st.world.2 :=
  ⟨run_midway, reminders_sent_as_scheduled pydantic pydantic_roundTrips {} (by decide) faulty
    (Outside.exact_sleeps _) scheduling occurred_scheduling published₂ (List.map_map ..) start⟩

end CoffeeBuddy

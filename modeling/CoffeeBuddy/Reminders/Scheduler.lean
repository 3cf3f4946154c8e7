import CoffeeBuddy.Reminders.Events

/-! `ReminderScheduler`: the reminders of a run, each built, published and returned in
turn. An exception leaves what was published before it. -/

namespace CoffeeBuddy

structure ChannelReminderConfig where
  channelId : String
  remindersEnabled : Bool
  reminderOffsetMinutes : ℤ
  lastCallEnabled : Bool
  lastCallLeadMinutes : Option ℤ := none

inductive ScheduleError where
  | overflow
  | validation
deriving DecidableEq

/-- `idFactory` and the `occurred_at` of the events, in the order drawn. -/
structure ReminderScheduler where
  eventType : String := "reminder_scheduled"
  idFactory : ℕ → String
  occurredAt : ℕ → Datetime

namespace ReminderScheduler

def asAware (timestamp : Datetime) : Option Datetime :=
  match timestamp.utcoffset with
  | none => some timestamp.replaceUtc
  | some _ => timestamp.astimezoneUtc

def truthy (text : Option String) : Option String := text.filter (· ≠ "")

structure Due where
  reminderType : ReminderType
  runnerUserId : Option String
  minutesBefore : ℤ
deriving DecidableEq

def runnerDue (runnerUserId : Option String) (channel : ChannelReminderConfig) : List Due :=
  if channel.remindersEnabled && (truthy runnerUserId).isSome then
    [⟨.runner, runnerUserId, channel.reminderOffsetMinutes⟩]
  else []

def lastCallDue (channel : ChannelReminderConfig) : List Due :=
  match channel.lastCallLeadMinutes with
  | some lead =>
    if channel.remindersEnabled && channel.lastCallEnabled && 0 < lead then
      [⟨.lastCall, none, lead⟩]
    else []
  | none => []

def buildPayload (reminderId runId : String) (channel : ChannelReminderConfig)
    (runnerUserId : Option String) (scheduledFor : Datetime) (reminderType : ReminderType)
    (correlationId : String) : ReminderPayload :=
  { reminderId := reminderId, runId := runId, channelId := channel.channelId
    runnerUserId := truthy runnerUserId, reminderType := reminderType, scheduledFor := scheduledFor
    reminderOffsetMinutes := channel.reminderOffsetMinutes
    channelRemindersEnabled := channel.remindersEnabled, lastCallEnabled := channel.lastCallEnabled
    correlationId := some correlationId }

variable (s : ReminderScheduler)

/-- The event `_publish` builds of the `n`-th payload. -/
def event (n : ℕ) (payload : ReminderPayload) : Option KafkaEvent :=
  KafkaEvent.create s.eventType (payload.correlationId.getD "") payload.modelDump (s.occurredAt n)

/-- Builds and publishes the reminders from the `n`-th on: what is returned or raised, and
what was published. The publisher is a parameter of the service; here it takes every event, and
none of its calls raises. -/
def enqueue (runId : String) (channel : ChannelReminderConfig) (correlationId : String)
    (awarePickup : Datetime) :
    ℕ → List Due → Except ScheduleError (List ReminderPayload) × List KafkaEvent
  | _, [] => (.ok [], [])
  | n, r :: rest =>
    match awarePickup.sub (r.minutesBefore * minute) with
    | none => (.error .overflow, [])
    | some scheduledFor =>
      let payload := buildPayload (s.idFactory n) runId channel r.runnerUserId scheduledFor
        r.reminderType correlationId
      match s.event n payload with
      | none => (.error .validation, [])
      | some event =>
        let (result, events) := enqueue runId channel correlationId awarePickup (n + 1) rest
        (result.map fun payloads => payload :: payloads, event :: events)

def scheduleForRun (runId : String) (pickupTime : Option Datetime) (runnerUserId : Option String)
    (channel : ChannelReminderConfig) (correlationId : String) :
    Except ScheduleError (List ReminderPayload) × List KafkaEvent :=
  match pickupTime with
  | none => (.ok [], [])
  | some pickup =>
    match asAware pickup with
    | none => (.error .overflow, [])
    | some awarePickup =>
      s.enqueue runId channel correlationId awarePickup 0
        (runnerDue runnerUserId channel ++ lastCallDue channel)

/-! ### What is scheduled -/

/-- The minutes before pickup of a reminder. -/
def minutesBefore (channel : ChannelReminderConfig) : ReminderType → ℤ
  | .runner => channel.reminderOffsetMinutes
  | .lastCall => channel.lastCallLeadMinutes.getD 0

theorem asAware_spec {t u : Datetime} (h : asAware t = some u) :
    u.IsUtc ∧ u.instant = t.instant := by
  unfold asAware at h
  split at h
  · rename_i hnaive
    obtain rfl := Option.some.inj h
    exact ⟨rfl, Datetime.instant_replaceUtc hnaive⟩
  · exact Datetime.astimezoneUtc_spec h

theorem asAware_isSome {t : Datetime} (h : wallMin ≤ t.instant ∧ t.instant ≤ wallMax) :
    ∃ u, asAware t = some u := by
  unfold asAware
  split
  · exact ⟨_, rfl⟩
  · rw [Datetime.astimezoneUtc, Datetime.ofWall, dif_pos h]
    exact ⟨_, rfl⟩

/-- What the gates of `schedule_for_run` let through. -/
structure Passes (channel : ChannelReminderConfig) (r : Due) : Prop where
  remindersEnabled : channel.remindersEnabled = true
  minutes : r.minutesBefore = minutesBefore channel r.reminderType
  runner : r.reminderType = .runner → (truthy r.runnerUserId).isSome = true
  lastCall : r.reminderType = .lastCall → channel.lastCallEnabled = true

theorem passes_of_due {channel : ChannelReminderConfig} {runnerUserId : Option String} {r : Due}
    (h : r ∈ runnerDue runnerUserId channel ++ lastCallDue channel) : Passes channel r := by
  rcases List.mem_append.mp h with h | h
  · unfold runnerDue at h
    split_ifs at h with hdue
    · obtain rfl := List.mem_singleton.mp h
      obtain ⟨hon, hrunner⟩ := Bool.and_eq_true_iff.mp hdue
      exact ⟨hon, rfl, fun _ => hrunner, nofun⟩
    · exact absurd h List.not_mem_nil
  · unfold lastCallDue at h
    split at h
    · rename_i lead hlead
      split_ifs at h with hdue
      · obtain rfl := List.mem_singleton.mp h
        simp only [Bool.and_eq_true, decide_eq_true_eq] at hdue
        exact ⟨hdue.1.1, by rw [minutesBefore, hlead, Option.getD_some], nofun, fun _ => hdue.1.2⟩
      · exact absurd h List.not_mem_nil
    · exact absurd h List.not_mem_nil

/-- `event` carries `payload`, which is due the channel's minutes before `pickup`. -/
structure Announces (channel : ChannelReminderConfig) (pickup : Timestamp) (payload : ReminderPayload)
    (event : KafkaEvent) : Prop where
  carried : event.payload = payload.modelDump
  utc : payload.scheduledFor.IsUtc
  due : payload.scheduledFor.instant + minutesBefore channel payload.reminderType * minute = pickup
  remindersEnabled : payload.channelRemindersEnabled = true
  runner : payload.reminderType = .runner → payload.runnerUserId.isSome = true
  lastCall : payload.reminderType = .lastCall → payload.lastCallEnabled = true
  occurred : ∃ n, event.occurredAt = s.occurredAt n

theorem enqueue_spec {runId correlationId : String} {channel : ChannelReminderConfig}
    {awarePickup : Datetime} (hcorr : correlationId ≠ "") (hutc : awarePickup.IsUtc) {n : ℕ}
    {rs : List Due} (hrs : ∀ r ∈ rs, Passes channel r ∧
      wallMin ≤ awarePickup.wall - r.minutesBefore * minute ∧
      awarePickup.wall - r.minutesBefore * minute ≤ wallMax) :
    ∃ payloads events, s.enqueue runId channel correlationId awarePickup n rs =
        (.ok payloads, events) ∧
      payloads.map ReminderPayload.reminderType = rs.map Due.reminderType ∧
      List.Forall₂ (s.Announces channel awarePickup.instant) payloads events := by
  induction rs generalizing n with
  | nil => exact ⟨[], [], rfl, rfl, .nil⟩
  | cons r rs ih =>
    obtain ⟨hpass, hrange⟩ := hrs r List.mem_cons_self
    obtain ⟨payloads, events, hrest, htypes, hannounce⟩ :=
      ih (n := n + 1) fun r hr => hrs r (List.mem_cons_of_mem _ hr)
    obtain ⟨scheduledFor, hsub⟩ : ∃ u, awarePickup.sub (r.minutesBefore * minute) = some u := by
      rw [Datetime.sub, Datetime.ofWall, dif_pos hrange]
      exact ⟨_, rfl⟩
    obtain ⟨hoffset, hinstant⟩ := Datetime.sub_spec hsub
    -- one reminder: its time is in range, and its event is correlated
    set payload := buildPayload (s.idFactory n) runId channel r.runnerUserId scheduledFor
      r.reminderType correlationId with hpayload
    have hevent : s.event n payload =
        some ⟨s.eventType, correlationId, payload.modelDump, s.occurredAt n, hcorr⟩ := dif_pos hcorr
    refine ⟨payload :: payloads,
      ⟨s.eventType, correlationId, payload.modelDump, s.occurredAt n, hcorr⟩ :: events, ?_, ?_,
      .cons ?_ hannounce⟩
    · simp only [enqueue, hsub, ← hpayload, hevent, hrest, Except.map]
    · rw [List.map_cons, List.map_cons, htypes]
      rfl
    · refine ⟨rfl, hoffset.trans hutc, ?_, hpass.remindersEnabled, hpass.runner, hpass.lastCall, n,
        rfl⟩
      rw [← hinstant, hpass.minutes]
      rfl

theorem published {channel : ChannelReminderConfig} {pickup : Timestamp}
    {payloads : List ReminderPayload} {events : List KafkaEvent}
    (h : List.Forall₂ (s.Announces channel pickup) payloads events) {payload : ReminderPayload}
    (hp : payload ∈ payloads) : ∃ event ∈ events, s.Announces channel pickup payload event := by
  induction h with
  | nil => exact absurd hp List.not_mem_nil
  | @cons head event _ events hhead _ ih =>
    rcases List.mem_cons.mp hp with rfl | hp
    · exact ⟨event, List.mem_cons_self, hhead⟩
    · obtain ⟨event', hevent, hannounce⟩ := ih hp
      exact ⟨event', List.mem_cons_of_mem _ hevent, hannounce⟩

/-- The pickup time and its reminders lie within the years 1 to 9999. -/
def WithinLimits (channel : ChannelReminderConfig) (pickup : Datetime) : Prop :=
  ∀ delta ∈ [0, channel.reminderOffsetMinutes * minute,
    channel.lastCallLeadMinutes.getD 0 * minute],
    wallMin ≤ pickup.instant - delta ∧ pickup.instant - delta ≤ wallMax

theorem scheduleForRun_spec (runId : String) (runnerUserId : Option String) {pickup : Datetime}
    {channel : ChannelReminderConfig} {correlationId : String} (hcorr : correlationId ≠ "")
    (hlimits : WithinLimits channel pickup) :
    ∃ payloads events, s.scheduleForRun runId (some pickup) runnerUserId channel correlationId =
        (.ok payloads, events) ∧
      payloads.map ReminderPayload.reminderType =
        (runnerDue runnerUserId channel ++ lastCallDue channel).map Due.reminderType ∧
      List.Forall₂ (s.Announces channel pickup.instant) payloads events := by
  simp only [WithinLimits, List.mem_cons, List.not_mem_nil, or_false, forall_eq_or_imp, forall_eq,
    sub_zero] at hlimits
  obtain ⟨hpickup, hrunner, hlastCall⟩ := hlimits
  obtain ⟨awarePickup, haware⟩ := asAware_isSome hpickup
  obtain ⟨hutc, hinstant⟩ := asAware_spec haware
  have hwall : awarePickup.wall = pickup.instant := by
    rw [← hinstant, Datetime.instant, hutc, Option.getD_some, sub_zero]
  simp only [scheduleForRun, haware]
  rw [← hinstant]
  refine s.enqueue_spec hcorr hutc fun r hr => ?_
  have hpass := passes_of_due hr
  refine ⟨hpass, ?_⟩
  rw [hwall, hpass.minutes]
  cases r.reminderType
  · exact hrunner
  · exact hlastCall

end ReminderScheduler
end CoffeeBuddy

import CoffeeBuddy.Reminders.Consumer

/-! The worker with a recorder between it and the world: every reading of the clock, every
sleep and every call of the sender, in order. What a handled event, and from it a whole
consumption, leaves on the record. -/

namespace CoffeeBuddy
open KafkaEventConsumer

/-- What passes between the worker and the world; `method` is the sender's method called. -/
inductive Contact where
  | read (now : Timestamp)
  | slept (duration : ℤ)
  | called (method : ReminderType) (payload : ReminderPayload)
deriving DecidableEq

namespace Contact

def call : Contact → Option (ReminderType × ReminderPayload)
  | .called method payload => some (method, payload)
  | _ => none

def isSleep : Contact → Bool
  | .slept _ => true
  | _ => false

/-- The calls of the sender on a record. -/
def calls (cs : List Contact) : List (ReminderType × ReminderPayload) := cs.filterMap call

def sleeps (cs : List Contact) : ℕ := cs.countP isSleep

theorem calls_append (cs ds : List Contact) : calls (cs ++ ds) = calls cs ++ calls ds :=
  List.filterMap_append

/-- Right before each call the clock has been read, and was not before the time the payload
is scheduled for. -/
def Timely (cs : List Contact) : Prop :=
  ∀ pre method payload post, cs = pre ++ .called method payload :: post →
    ∃ earlier now, pre = earlier ++ [.read now] ∧ payload.scheduledFor.instant ≤ now

theorem Timely.append {cs ds : List Contact} (hcs : Timely cs) (hds : Timely ds) :
    Timely (cs ++ ds) := by
  intro pre method payload post h
  rcases List.append_eq_append_iff.mp h with ⟨as, rfl, hd⟩ | ⟨bs, hc, hd⟩
  · obtain ⟨earlier, now, has, hdue⟩ := hds as method payload post hd
    exact ⟨cs ++ earlier, now, by rw [has, List.append_assoc], hdue⟩
  · cases bs with
    | nil =>
      -- the call would come first in `ds`, where nothing has been read before it
      obtain ⟨earlier, now, hpre, -⟩ := hds [] method payload post hd.symm
      exact absurd hpre.symm (by simp)
    | cons b bs =>
      obtain ⟨rfl, -⟩ := List.cons.inj hd
      exact hcs pre method payload bs hc

theorem timely_of_calls {cs : List Contact} (h : calls cs = []) : Timely cs := by
  intro pre method payload post hcs
  have hcall : (method, payload) ∈ calls cs := by
    rw [hcs]
    exact List.mem_filterMap.mpr
      ⟨.called method payload, List.mem_append_right pre List.mem_cons_self, rfl⟩
  rw [h] at hcall
  exact absurd hcall List.not_mem_nil

theorem timely_call {now : Timestamp} {method : ReminderType} {payload : ReminderPayload}
    (h : payload.scheduledFor.instant ≤ now) : Timely [.read now, .called method payload] := by
  intro pre method' payload' post hcs
  match pre, hcs with
  | [], hcs => simp at hcs
  | [c], hcs =>
    simp only [List.cons_append, List.nil_append, List.cons.injEq, Contact.called.injEq] at hcs
    obtain ⟨rfl, ⟨-, rfl⟩, -⟩ := hcs
    exact ⟨[], now, rfl, h⟩
  | _ :: _ :: _, hcs => simp at hcs

end Contact

/-- The world with what has passed so far. -/
abbrev OnRecord (σ : Type) := σ × List Contact

section Recording
open Contact
variable {σ Bytes : Type} {o : Outside σ}

def Outside.recorded (o : Outside σ) : Outside (OnRecord σ) where
  clock w := ((o.clock w.1).1, (o.clock w.1).2, w.2 ++ [.read (o.clock w.1).1])
  sleep d w := (o.sleep d w.1, w.2 ++ [.slept d])
  send method payload w :=
    ((o.send method payload w.1).1, (o.send method payload w.1).2, w.2 ++ [.called method payload])

namespace ReminderWorker
variable {worker : ReminderWorker} {p : Pydantic Bytes} {event : KafkaEvent}
  {payload : ReminderPayload}

/-- A wait ends with the reading it returns and calls nobody; every turn but the last
sleeps once. -/
theorem waitUntil_recorded {target : Timestamp} {fuel : ℕ} {w w' : OnRecord σ}
    {reading : Timestamp} (h : worker.waitUntil o.recorded target fuel w = some (reading, w')) :
    ∃ cs, w'.2 = w.2 ++ (cs ++ [.read reading]) ∧ calls cs = [] ∧ sleeps cs < fuel := by
  induction fuel generalizing w with
  | zero => cases h
  | succ fuel ih =>
    rw [waitUntil_succ] at h
    split_ifs at h with hdue
    · obtain ⟨rfl, rfl⟩ := Prod.mk.inj (Option.some.inj h)
      exact ⟨[], rfl, rfl, fuel.succ_pos⟩
    · obtain ⟨cs, hw, hcs, hsleeps⟩ := ih h
      set d := worker.pause (target - (o.recorded.clock w).1)
      refine ⟨.read (o.clock w.1).1 :: .slept d :: cs, ?_, hcs, ?_⟩
      · rw [hw]
        simp only [Outside.recorded, List.append_assoc, List.cons_append, List.nil_append]
      · have hcount : sleeps (.read (o.clock w.1).1 :: .slept d :: cs) = sleeps cs + 1 := by
          simp [sleeps, List.countP_cons, isSleep]
        rw [hcount]
        exact Nat.succ_lt_succ hsleeps

/-- A dispatch calls the sender once, by the method of the payload's type. -/
theorem dispatch_recorded (payload : ReminderPayload) (reading : Timestamp) (st : WorkerState (OnRecord σ)) :
    ∃ cs, (dispatch o.recorded payload reading st).2.world.2 =
        st.world.2 ++ (.called payload.reminderType payload :: cs) ∧ calls cs = [] := by
  rw [world_dispatch]
  split_ifs with hreturned
  · refine ⟨[.read (o.clock (o.send payload.reminderType payload st.world.1).2).1], ?_, rfl⟩
    simp only [Outside.recorded, List.append_assoc, List.cons_append, List.nil_append]
  · exact ⟨[], rfl, rfl⟩

/-- The payload of an event the worker calls the sender for. -/
def accepted (p : Pydantic Bytes) (event : KafkaEvent) : Option ReminderPayload :=
  (ReminderPayload.modelValidate p event.payload).filter shouldDispatch

def callOf (payload : ReminderPayload) : ReminderType × ReminderPayload :=
  (payload.reminderType, payload)

theorem accepted_eq_some : accepted p event = some payload ↔
    ReminderPayload.modelValidate p event.payload = some payload ∧ shouldDispatch payload = true :=
  Option.filter_eq_some_iff

/-- One event: the sender is called for an accepted payload, in time, and for nothing else. -/
theorem processEvent_recorded {fuel : ℕ} {st st' : WorkerState (OnRecord σ)}
    {result : Except WorkerError Unit}
    (h : worker.processEvent o.recorded p fuel event st = some (result, st')) :
    ∃ cs, st'.world.2 = st.world.2 ++ cs ∧ Timely cs ∧
      calls cs = (accepted p event).toList.map callOf := by
  unfold processEvent at h
  cases hvalid : ReminderPayload.modelValidate p event.payload with
  | none =>
    rw [hvalid] at h
    obtain ⟨-, rfl⟩ := Prod.mk.inj (Option.some.inj h)
    refine ⟨[], (List.append_nil _).symm, timely_of_calls rfl, ?_⟩
    rw [accepted, hvalid]
    rfl
  | some payload =>
    simp only [hvalid] at h
    split_ifs at h with hdispatch
    · have haccepted := accepted_eq_some.mpr ⟨hvalid, hdispatch⟩
      obtain ⟨⟨reading, w⟩, hwait, hdone⟩ := Option.map_eq_some_iff.mp h
      have hdue := waitUntil_not_early hwait
      obtain ⟨cs, hw, hcs, -⟩ := waitUntil_recorded hwait
      obtain ⟨ds, hsent, hds⟩ :=
        dispatch_recorded payload reading ({ st with world := w } : WorkerState (OnRecord σ))
      have hst : (dispatch o.recorded payload reading { st with world := w }).2 = st' :=
        congrArg Prod.snd hdone
      -- the reading that ends the wait stands right before the call
      refine ⟨cs ++ ([.read reading, .called payload.reminderType payload] ++ ds), ?_, ?_, ?_⟩
      · rw [← hst, hsent, hw]
        simp only [List.append_assoc, List.cons_append, List.nil_append]
      · exact (timely_of_calls hcs).append ((timely_call hdue).append (timely_of_calls hds))
      · rw [calls_append, calls_append, hcs, hds, haccepted]
        rfl
    · obtain ⟨-, rfl⟩ := Prod.mk.inj (Option.some.inj h)
      refine ⟨[], (List.append_nil _).symm, timely_of_calls rfl, ?_⟩
      have hnone : accepted p event = none := by
        rw [accepted, hvalid, Option.filter_some, if_neg hdispatch]
      rw [hnone]
      rfl

/-! ### A consumption -/

/-- A message as it is fetched, with the reading its event takes if it has no time. -/
abbrev Fetched (Bytes : Type) := Datetime × Bytes

def decode (p : Pydantic Bytes) (message : Fetched Bytes) : Option KafkaEvent :=
  KafkaEvent.modelValidateJson p message.1 message.2

/-- `_consume_loop` with `process_event` as its handler. -/
def consume (worker : ReminderWorker) (o : Outside σ) (p : Pydantic Bytes) (fuel : ℕ) :
    List (Fetched Bytes) → WorkerState σ → Option (WorkerState σ × List ConsumeStatus) :=
  consumeLoop (decode p) (worker.processEvent o p fuel)

/-- The payloads of the messages the sender is to be called for. -/
def due (p : Pydantic Bytes) (messages : List (Fetched Bytes)) : List ReminderPayload :=
  messages.filterMap fun message => (decode p message).bind (accepted p)

/-- Every wait the consumption of `messages` comes to ends. -/
def EachWaitEnds (worker : ReminderWorker) (o : Outside σ) (p : Pydantic Bytes)
    (messages : List (Fetched Bytes)) (st : WorkerState σ) : Prop :=
  ∀ before message after, messages = before ++ message :: after →
    ∀ fuel st' ks, worker.consume o p fuel before st = some (st', ks) →
    ∀ event ∈ decode p message, ∀ payload ∈ accepted p event,
      ∃ n r, worker.waitUntil o payload.scheduledFor.instant n st'.world = some r

section Consumption
variable {messages : List (Fetched Bytes)}

theorem consume_snoc {fuel : ℕ} {message : Fetched Bytes} {st st' : WorkerState σ}
    {ks : List ConsumeStatus} :
    worker.consume o p fuel (messages ++ [message]) st = some (st', ks) ↔
      ∃ st₁ ks₁ ks₂, worker.consume o p fuel messages st = some (st₁, ks₁) ∧
        worker.consume o p fuel [message] st₁ = some (st', ks₂) ∧ ks = ks₁ ++ ks₂ := by
  unfold consume
  rw [consumeLoop_append]
  simp only [Option.bind_eq_some_iff, Option.map_eq_some_iff, Prod.exists, Prod.mk.injEq]
  constructor
  · rintro ⟨st₁, ks₁, hbefore, _, ks₂, hlast, rfl, rfl⟩
    exact ⟨st₁, ks₁, ks₂, hbefore, hlast, rfl⟩
  · rintro ⟨st₁, ks₁, ks₂, hbefore, hlast, rfl⟩
    exact ⟨st₁, ks₁, hbefore, st', ks₂, hlast, rfl, rfl⟩

theorem consume_undecodable {fuel : ℕ} {message : Fetched Bytes} (h : decode p message = none)
    (st : WorkerState σ) : worker.consume o p fuel [message] st = some (st, [.error]) :=
  consumeLoop_undecodable h st

theorem consume_handled {fuel : ℕ} {message : Fetched Bytes} (h : decode p message = some event)
    (st : WorkerState σ) : worker.consume o p fuel [message] st =
      (worker.processEvent o p fuel event st).map fun r => (r.2, [ConsumeStatus.of r.1]) :=
  consumeLoop_handled h st

theorem consume_mono {fuel fuel' : ℕ} (hle : fuel ≤ fuel') {st : WorkerState σ}
    {r : WorkerState σ × List ConsumeStatus} (h : worker.consume o p fuel messages st = some r) :
    worker.consume o p fuel' messages st = some r := by
  refine consumeLoop_mono (fun event st r hr => ?_) h
  unfold processEvent at hr ⊢
  cases hvalid : ReminderPayload.modelValidate p event.payload with
  | none => rwa [hvalid] at hr
  | some payload =>
    simp only [hvalid] at hr ⊢
    split_ifs at hr ⊢
    · obtain ⟨w, hwait, rfl⟩ := Option.map_eq_some_iff.mp hr
      rw [waitUntil_mono hle hwait, Option.map_some]
    · exact hr

/-- An event comes back when the wait of its payload, if it has one, ends. -/
theorem processEvent_isSome {st : WorkerState σ} (h : ∀ payload ∈ accepted p event,
      ∃ n r, worker.waitUntil o payload.scheduledFor.instant n st.world = some r) :
    ∃ fuel r, worker.processEvent o p fuel event st = some r := by
  unfold processEvent
  cases hvalid : ReminderPayload.modelValidate p event.payload with
  | none => exact ⟨0, _, rfl⟩
  | some payload =>
    by_cases hdispatch : shouldDispatch payload = true
    · obtain ⟨n, r, hwait⟩ := h payload (accepted_eq_some.mpr ⟨hvalid, hdispatch⟩)
      simp only [hdispatch, if_true]
      exact ⟨n, _, by rw [hwait, Option.map_some]⟩
    · simp only [hdispatch]
      exact ⟨0, _, rfl⟩

theorem consume_message_isSome {message : Fetched Bytes} {st : WorkerState σ}
    (h : ∀ event ∈ decode p message, ∀ payload ∈ accepted p event,
      ∃ n r, worker.waitUntil o payload.scheduledFor.instant n st.world = some r) :
    ∃ fuel r, worker.consume o p fuel [message] st = some r := by
  cases hdecode : decode p message with
  | none => exact ⟨0, _, consume_undecodable hdecode st⟩
  | some event =>
    obtain ⟨fuel, r, hprocess⟩ := processEvent_isSome (h event hdecode)
    refine ⟨fuel, (r.2, [ConsumeStatus.of r.1]), ?_⟩
    rw [consume_handled hdecode, hprocess, Option.map_some]

theorem consume_isSome {st : WorkerState σ} (h : EachWaitEnds worker o p messages st) :
    ∃ fuel r, worker.consume o p fuel messages st = some r := by
  induction messages using List.reverseRecOn with
  | nil => exact ⟨0, _, rfl⟩
  | append_singleton messages message ih =>
    obtain ⟨n, ⟨st₁, ks⟩, hbefore⟩ := ih fun before m after hms =>
      h before m (after ++ [message]) (by rw [hms, List.append_assoc, List.cons_append])
    obtain ⟨k, ⟨st₂, ks₂⟩, hlast⟩ := consume_message_isSome
      (h messages message [] rfl n st₁ ks hbefore)
    -- enough fuel for the messages before and for the last one
    have hb := consume_mono (le_max_left n k) hbefore
    have hl := consume_mono (le_max_right n k) hlast
    exact ⟨max n k, _, consume_snoc.mpr ⟨st₁, ks, ks₂, hb, hl, rfl⟩⟩

theorem consume_message_recorded {fuel : ℕ} {message : Fetched Bytes}
    {st st' : WorkerState (OnRecord σ)} {ks : List ConsumeStatus}
    (h : worker.consume o.recorded p fuel [message] st = some (st', ks)) :
    ∃ cs, st'.world.2 = st.world.2 ++ cs ∧ Timely cs ∧ calls cs = (due p [message]).map callOf ∧
      ks.length = 1 := by
  cases hdecode : decode p message with
  | none =>
    rw [consume_undecodable hdecode] at h
    obtain ⟨rfl, rfl⟩ := Prod.mk.inj (Option.some.inj h)
    refine ⟨[], (List.append_nil _).symm, timely_of_calls rfl, ?_, rfl⟩
    rw [due, List.filterMap_cons, hdecode]
    rfl
  | some event =>
    rw [consume_handled hdecode] at h
    obtain ⟨⟨result, st₁⟩, hprocess, hdone⟩ := Option.map_eq_some_iff.mp h
    obtain ⟨rfl, rfl⟩ := Prod.mk.inj hdone
    obtain ⟨cs, hcs, htimely, hcalls⟩ := processEvent_recorded hprocess
    refine ⟨cs, hcs, htimely, ?_, rfl⟩
    rw [hcalls, due, List.filterMap_cons, hdecode, Option.bind_some]
    cases accepted p event <;> rfl

/-- A whole consumption: one call for each accepted payload in message order, in time. -/
theorem consume_recorded {fuel : ℕ} {st st' : WorkerState (OnRecord σ)}
    {ks : List ConsumeStatus} (h : worker.consume o.recorded p fuel messages st = some (st', ks)) :
    ∃ cs, st'.world.2 = st.world.2 ++ cs ∧ Timely cs ∧ calls cs = (due p messages).map callOf ∧
      ks.length = messages.length := by
  induction messages using List.reverseRecOn generalizing st' ks with
  | nil =>
    obtain ⟨rfl, rfl⟩ := Prod.mk.inj (Option.some.inj h)
    exact ⟨[], (List.append_nil _).symm, timely_of_calls rfl, rfl, rfl⟩
  | append_singleton messages message ih =>
    obtain ⟨st₁, ks₁, ks₂, hbefore, hlast, rfl⟩ := consume_snoc.mp h
    obtain ⟨cs, hw, htimely, hcalls, hlength⟩ := ih hbefore
    obtain ⟨ds, hds, hdtimely, hdcalls, hdlength⟩ := consume_message_recorded hlast
    refine ⟨cs ++ ds, ?_, htimely.append hdtimely, ?_, ?_⟩
    · rw [hds, hw, List.append_assoc]
    · rw [calls_append, hcalls, hdcalls, due, due, due, List.filterMap_append, List.map_append]
    · rw [List.length_append, List.length_append, hlength, hdlength, List.length_singleton]

end Consumption
end ReminderWorker
end Recording
end CoffeeBuddy

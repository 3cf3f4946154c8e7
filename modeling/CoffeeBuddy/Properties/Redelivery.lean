import CoffeeBuddy.Properties.Reminders

/-! What becomes of the messages a consumer has passed, over any number of stops and
restarts. None is skipped; one that is handed to the handler meets one fate; and it is handed
out again only by a client that has been started anew. -/

namespace CoffeeBuddy
open Transition

namespace KafkaEventConsumer
variable {M E : Type}

/-- The offset whose message the event hands to the handler. -/
def handed (e : Event (State M) (Label M)) : Option ℕ :=
  match e.label, e.after.task with
  | .deliver, some (.handling offset) => some offset
  | _, _ => none

/-- How the handling of a message ends. -/
inductive Fate where
  | returned | raised | cancelled
deriving DecidableEq

/-- The offset whose handling the event ends, and how. -/
def settled (e : Event (State M) (Label M)) : Option (ℕ × Fate) :=
  match e.label, e.before.task with
  | .handlerReturns, some (.handling offset) => some (offset, .returned)
  | .handlerRaises, some (.handling offset) => some (offset, .raised)
  | .stop _, some (.handling offset) => some (offset, .cancelled)
  | _, _ => none

/-- A `start()` that builds a client. -/
def opens (e : Event (State M) (Label M)) : Bool :=
  match e.label, e.before.consumer with
  | .start, none => true
  | _, _ => false

/-- The offset whose handler is running. -/
def current (s : State M) : List ℕ :=
  match s.task with
  | some (.handling offset) => [offset]
  | _ => []

/-- Below what is committed, or below what the running client will be asked for. -/
def Passed (s : State M) (offset : ℕ) : Prop :=
  offset < s.committed ∨ ∃ position, s.consumer = some position ∧ offset < position

variable {decode : M → Option E} {outcome : E → Bool → Prop} {s t : State M} {l : Label M}
  {es : List (Event (State M) (Label M))}

/-- Without a client there is no task, and after `stop()` none that goes on. -/
structure Halted (s : State M) : Prop where
  detached : s.consumer = none → s.task = none
  stopped : s.stopEvent = true → s.task = none ∨ s.task = some .failed

theorem Halted.step (h : Halted s) (hstep : Step decode outcome s l t) : Halted t := by
  cases hstep with
  | produce | startRunning | commit => exact ⟨h.detached, h.stopped⟩
  | start => exact ⟨by simp, by simp⟩
  | undecodable _ _ _ hclear | deliver _ _ _ hclear =>
    exact ⟨by simp, fun hstop => absurd (hclear.symm.trans hstop) Bool.false_ne_true⟩
  | stopSeen htask _ _ hstop =>
    have hidle := h.stopped hstop
    simp [htask] at hidle
  | handlerReturns htask | handlerRaises htask =>
    constructor
    · intro hconsumer
      have hnone := h.detached hconsumer
      simp [htask] at hnone
    · intro hstop
      have hidle := h.stopped hstop
      simp [htask] at hidle
  | loopError htask =>
    constructor
    · intro hconsumer
      have hnone := h.detached hconsumer
      simp [htask] at hnone
    · exact fun _ => Or.inr rfl
  | stop => exact ⟨fun _ => rfl, fun _ => Or.inl rfl⟩
  | stopFailed _ hfailed => exact ⟨h.detached, fun _ => Or.inr hfailed⟩

/-- What a step does to the client's position. -/
inductive Advance (e : Event (State M) (Label M)) : Prop
  | opened : opens e = true → handed e = none → Advance e
  | delivered {position : ℕ} : opens e = false → handed e = some position →
      e.before.consumer = some position → e.after.consumer = some (position + 1) → Advance e
  | quiet : opens e = false → handed e = none → (∀ position, e.after.consumer = some position →
      ∃ before ≤ position, e.before.consumer = some before) → Advance e

theorem advance_of_step (hhalted : Halted s) (hstep : Step decode outcome s l t) :
    Advance ⟨s, l, t⟩ := by
  cases hstep with
  | start hconsumer => exact .opened (by simp [opens, hconsumer]) (by simp [handed])
  | deliver _ hconsumer => exact .delivered (by simp [opens]) (by simp [handed]) hconsumer rfl
  | stopSeen htask _ _ hstop =>
    have hidle := hhalted.stopped hstop
    simp [htask] at hidle
  | undecodable _ hconsumer =>
    refine .quiet (by simp [opens]) (by simp [handed]) fun position hposition => ?_
    obtain rfl := Option.some.inj hposition
    exact ⟨_, Nat.le_succ _, hconsumer⟩
  | startRunning hconsumer =>
    exact .quiet (by simp [opens, hconsumer]) (by simp [handed]) fun position h =>
      ⟨position, le_rfl, h⟩
  | stop => exact .quiet (by simp [opens]) (by simp [handed]) (by simp)
  | produce | handlerReturns | handlerRaises | loopError | commit | stopFailed =>
    exact .quiet (by simp [opens]) (by simp [handed]) fun position h => ⟨position, le_rfl, h⟩

/-- Positions lie within the log. -/
structure Within (s : State M) : Prop where
  committed : s.committed ≤ s.log.length
  position : ∀ position ∈ s.consumer, position ≤ s.log.length

theorem Within.step (h : Within s) (hstep : Step decode outcome s l t) : Within t := by
  have hcommitted := h.committed
  cases hstep with
  | produce message =>
    have hlen : (s.log ++ [message]).length = s.log.length + 1 := by simp
    refine ⟨hlen ▸ hcommitted.trans (Nat.le_succ _), fun position hp => ?_⟩
    exact hlen ▸ (h.position position hp).trans (Nat.le_succ _)
  | startRunning | stopFailed | handlerReturns | handlerRaises | loopError =>
    exact ⟨hcommitted, h.position⟩
  | start =>
    refine ⟨hcommitted, ?_⟩
    rintro _ ⟨⟩
    exact hcommitted
  | undecodable _ _ hlog | deliver _ _ hlog | stopSeen _ _ hlog =>
    refine ⟨hcommitted, ?_⟩
    rintro _ ⟨⟩
    exact (List.getElem?_eq_some_iff.mp hlog).1
  | commit hconsumer => exact ⟨h.position _ hconsumer, h.position⟩
  | stop commits =>
    refine ⟨?_, nofun⟩
    change (if commits then s.consumer.getD s.committed else s.committed) ≤ s.log.length
    cases hc : s.consumer with
    | none => simpa only [Option.getD_none, ite_self] using hcommitted
    | some position =>
      split_ifs
      · exact h.position position hc
      · exact hcommitted

/-! ### No message is skipped -/

theorem passed_step (hhalted : Halted s) (hstep : Step decode outcome s l t) {offset : ℕ}
    {message : M} (hpassed : Passed t offset) (hlog : t.log[offset]? = some message)
    (hdecode : (decode message).isSome = true) :
    Passed s offset ∨ handed ⟨s, l, t⟩ = some offset := by
  cases hstep with
  | start =>
    rcases hpassed with hlt | ⟨position, hposition, hlt⟩
    · exact Or.inl (Or.inl hlt)
    · obtain rfl := Option.some.inj hposition
      exact Or.inl (Or.inl hlt)
  | @undecodable p m _ hconsumer hmessage _ hnone =>
    rcases hpassed with hlt | ⟨position, hposition, hlt⟩
    · exact Or.inl (Or.inl hlt)
    · obtain rfl := Option.some.inj hposition
      rcases Nat.lt_succ_iff_lt_or_eq.mp hlt with hlt | rfl
      · exact Or.inl (Or.inr ⟨p, hconsumer, hlt⟩)
      · obtain rfl := Option.some.inj (hmessage.symm.trans hlog)
        simp [hnone] at hdecode
  | @deliver p _ _ _ hconsumer =>
    rcases hpassed with hlt | ⟨position, hposition, hlt⟩
    · exact Or.inl (Or.inl hlt)
    · obtain rfl := Option.some.inj hposition
      rcases Nat.lt_succ_iff_lt_or_eq.mp hlt with hlt | rfl
      · exact Or.inl (Or.inr ⟨p, hconsumer, hlt⟩)
      · exact Or.inr rfl
  | stopSeen htask _ _ hstop =>
    have hidle := hhalted.stopped hstop
    simp [htask] at hidle
  | @commit p hconsumer =>
    rcases hpassed with hlt | hposition
    · exact Or.inl (Or.inr ⟨p, hconsumer, hlt⟩)
    · exact Or.inl (Or.inr hposition)
  | stop commits =>
    rcases hpassed with hlt | ⟨position, hposition, -⟩
    · have hlt' : offset < if commits then s.consumer.getD s.committed else s.committed := hlt
      cases hconsumer : s.consumer with
      | none =>
        rw [hconsumer, Option.getD_none, ite_self] at hlt'
        exact Or.inl (Or.inl hlt')
      | some position =>
        rw [hconsumer, Option.getD_some] at hlt'
        split_ifs at hlt'
        · exact Or.inl (Or.inr ⟨position, hconsumer, hlt'⟩)
        · exact Or.inl (Or.inl hlt')
    · exact absurd hposition (by simp)
  | produce | startRunning | handlerReturns | handlerRaises | loopError | stopFailed =>
    exact Or.inl hpassed

theorem Within.lt_length {offset : ℕ} (h : Within s) (hpassed : Passed s offset) :
    offset < s.log.length := by
  rcases hpassed with hlt | ⟨position, hposition, hlt⟩
  · exact hlt.trans_le h.committed
  · exact hlt.trans_le (h.position position hposition)

/-- A step keeps the message at an offset it finds in the log. -/
theorem log_step (hstep : Step decode outcome s l t) {offset : ℕ} (hoffset : offset < s.log.length) :
    t.log[offset]? = s.log[offset]? := by
  cases hstep with
  | produce => exact List.getElem?_append_left hoffset
  | _ => rfl

theorem halted_start {log : List M} : Halted ({ log := log } : State M) :=
  ⟨fun _ => rfl, by simp⟩

theorem within_start {log : List M} : Within ({ log := log } : State M) :=
  ⟨Nat.zero_le _, by simp⟩

section Run
variable {log : List M} (h : Run decode outcome { log := log } es t)
include h

theorem halted_of_run : Halted t := h.invariant (fun _ _ _ hstep hs => hs.step hstep) halted_start

theorem within_of_run : Within t :=
  h.invariant (fun _ _ _ hstep hs => hs.step hstep) within_start

theorem gapless {offset : ℕ} {message : M} (hpassed : Passed t offset)
    (hlog : t.log[offset]? = some message) (hdecode : (decode message).isSome = true) :
    offset ∈ es.filterMap handed := by
  induction h with
  | nil =>
    rcases hpassed with hlt | ⟨position, hposition, -⟩
    · exact absurd hlt (Nat.not_lt_zero offset)
    · exact absurd hposition (by simp)
  | @snoc es s t l path last ih =>
    rw [Path.filterMap_snoc]
    rcases passed_step (halted_of_run path) last hpassed hlog hdecode with hbefore | hhanded
    · have hoffset : offset < s.log.length := (within_of_run path).lt_length hbefore
      have hmessage : s.log[offset]? = some message := (log_step last hoffset).symm.trans hlog
      exact List.mem_append_left _ (ih hbefore hmessage)
    · rw [hhanded]
      exact List.mem_append_right _ List.mem_cons_self

end Run

/-! ### Every handling is accounted for -/

open scoped List in
theorem balance_step (hhalted : Halted s) (hstep : Step decode outcome s l t) :
    (handed ⟨s, l, t⟩).toList ++ current s ~
      ((settled ⟨s, l, t⟩).map Prod.fst).toList ++ current t := by
  cases hstep with
  | start hconsumer => simp [handed, settled, current, hhalted.detached hconsumer]
  | stop =>
    rcases htask : s.task with - | - | offset | - | - <;> simp [handed, settled, current, htask]
  | stopSeen htask | undecodable htask | deliver htask | handlerReturns htask
  | handlerRaises htask | loopError htask | stopFailed _ htask =>
    simp [handed, settled, current, htask]
  | produce | startRunning | commit => simp [handed, settled, current]

theorem mem_returned_step (hstep : Step decode outcome s l t) {offset : ℕ} :
    offset ∈ t.returned ↔ offset ∈ s.returned ∨ settled ⟨s, l, t⟩ = some (offset, .returned) := by
  cases hstep with
  | handlerReturns htask => simp [settled, htask, or_comm, eq_comm]
  | handlerRaises htask | stopFailed _ htask => simp [settled, htask]
  | stop => rcases htask : s.task with - | - | offset | - | - <;> simp [settled, htask]
  | _ => simp [settled]

section Run
variable {log : List M} (h : Run decode outcome { log := log } es t)
include h

open scoped List in
theorem accounted : es.filterMap handed ~ (es.filterMap settled).map Prod.fst ++ current t := by
  have hbalance : es.filterMap handed ++ current { log := log } ~
      (es.filterMap fun e => (settled e).map Prod.fst) ++ current t := by
    apply Path.balance h
    intro e he
    have hhalted : Halted e.before :=
      h.invariant_mem (fun _ _ _ hstep hs => hs.step hstep) halted_start he
    exact balance_step hhalted (h.mem_step he)
  have hnone : current ({ log := log } : State M) = [] := rfl
  rwa [hnone, List.append_nil, ← List.map_filterMap] at hbalance

theorem mem_returned {offset : ℕ} :
    offset ∈ t.returned ↔ (offset, Fate.returned) ∈ es.filterMap settled := by
  induction h with
  | nil => simp
  | snoc path last ih =>
    rw [mem_returned_step last, ih, Path.filterMap_snoc, List.mem_append, Option.mem_toList]

end Run

/-! ### Redelivery -/

theorem repeated {log : List M} (h : Run decode outcome { log := log } es t) :
    (∀ offset, (es.filterMap handed).count offset ≤ es.countP opens) ∧
      ∀ position, t.consumer = some position → ∀ offset ≥ position,
        (es.filterMap handed).count offset < es.countP opens := by
  induction h with
  | nil => simp
  | @snoc es s t l path last ih =>
    obtain ⟨hall, hahead⟩ := ih
    rw [Path.filterMap_snoc, List.countP_append, List.countP_singleton]
    simp only [List.count_append]
    cases advance_of_step (halted_of_run path) last with
    | opened hopens hhanded =>
      simp only [hhanded, hopens, Option.toList_none, List.count_nil, Nat.add_zero, if_true]
      exact ⟨fun offset => (hall offset).trans (Nat.le_succ _),
        fun _ _ offset _ => Nat.lt_succ_of_le (hall offset)⟩
    | @delivered position hopens hhanded hbefore hafter =>
      have hspare := hahead position hbefore
      simp only [hhanded, hopens, Option.toList_some, List.count_singleton, Bool.false_eq_true,
        if_false, Nat.add_zero, beq_iff_eq]
      constructor
      · intro offset
        split_ifs with heq
        · exact hspare offset heq.le
        · exact hall offset
      · intro next hnext offset hoffset
        obtain rfl := Option.some.inj (hafter.symm.trans hnext)
        rw [if_neg (Nat.lt_of_succ_le hoffset).ne, Nat.add_zero]
        exact hspare offset (Nat.le_of_succ_le hoffset)
    | quiet hopens hhanded hposition =>
      simp only [hhanded, hopens, Option.toList_none, List.count_nil, Nat.add_zero,
        Bool.false_eq_true, if_false]
      refine ⟨hall, fun position hafter offset hoffset => ?_⟩
      obtain ⟨before, hle, hbefore⟩ := hposition position hafter
      exact hahead before hbefore offset (hle.trans hoffset)

theorem ordered (h : Run decode outcome s es t) (hhalted : Halted s)
    (hopens : ∀ e ∈ es, opens e = false) :
    (es.filterMap handed).Pairwise (· < ·) ∧ ∀ position, t.consumer = some position →
      ∀ offset ∈ es.filterMap handed, offset < position := by
  induction h with
  | nil => simp
  | @snoc es s' t l path last ih =>
    obtain ⟨hsorted, hbelow⟩ := ih fun e he => hopens e (List.mem_append_left _ he)
    have hlast : opens ⟨s', l, t⟩ = false :=
      hopens _ (List.mem_append_right _ List.mem_cons_self)
    have hhalted' : Halted s' := path.invariant (fun _ _ _ hstep hs => hs.step hstep) hhalted
    rw [Path.filterMap_snoc]
    cases advance_of_step hhalted' last with
    | opened htrue => exact absurd (hlast.symm.trans htrue) Bool.false_ne_true
    | @delivered position _ hhanded hbefore hafter =>
      have hlt : ∀ offset ∈ es.filterMap handed, offset < position := hbelow position hbefore
      rw [hhanded, Option.toList_some]
      constructor
      · apply List.pairwise_append.mpr
        exact ⟨hsorted, List.pairwise_singleton _ _, by simpa using hlt⟩
      · intro next hnext offset hoffset
        obtain rfl := Option.some.inj (hafter.symm.trans hnext)
        rcases List.mem_append.mp hoffset with hoffset | hoffset
        · exact (hlt offset hoffset).trans (Nat.lt_succ_self _)
        · obtain rfl := List.mem_singleton.mp hoffset
          exact Nat.lt_succ_self _
    | quiet _ hhanded hposition =>
      rw [hhanded, Option.toList_none, List.append_nil]
      refine ⟨hsorted, fun position hafter offset hoffset => ?_⟩
      obtain ⟨before, hle, hbefore⟩ := hposition position hafter
      exact (hbelow before hbefore offset hoffset).trans_le hle

/-! ### The accounts of a run -/

open scoped List in
/-- Where the messages are after a run. -/
structure Accounted (decode : M → Option E) (es : List (Event (State M) (Label M)))
    (s : State M) : Prop where
  gapless : ∀ offset message, Passed s offset → s.log[offset]? = some message →
    (decode message).isSome = true → offset ∈ es.filterMap handed
  conserved : es.filterMap handed ~ (es.filterMap settled).map Prod.fst ++ current s
  returned : ∀ offset, offset ∈ s.returned ↔ (offset, Fate.returned) ∈ es.filterMap settled
  repeated : ∀ offset, (es.filterMap handed).count offset ≤ es.countP opens
  ordered : ∀ es₁ es₂, es = es₁ ++ es₂ → (∀ e ∈ es₂, opens e = false) →
    (es₂.filterMap handed).Pairwise (· < ·)

theorem deliveries_accounted (decode : M → Option E) (outcome : E → Bool → Prop) (log : List M)
    (es : List (Event (State M) (Label M))) (t : State M)
    (h : Run decode outcome { log := log } es t) : Accounted decode es t := by
  refine ⟨fun offset message => gapless h, accounted h, fun offset => mem_returned h,
    (repeated h).1, ?_⟩
  rintro es₁ es₂ rfl hopens
  obtain ⟨u, hbefore, hafter⟩ := Path.append_iff.mp h
  exact (ordered hafter (halted_of_run hbefore) hopens).1

end KafkaEventConsumer

/-! ### A shutdown during the wait -/

namespace Sample

/-- The runner reminder, published. -/
def message : EventFields :=
  { eventType := "reminder_scheduled", correlationId := "corr-1"
    payload := [("reminder_id", .str "runner-rem"), ("run_id", .str "run-1"),
      ("channel_id", .str "C7"), ("runner_user_id", .str "U777"), ("reminder_type", .str "runner"),
      ("scheduled_for", .str "2024-01-01T11:55:00Z"), ("reminder_offset_minutes", .int 5)]
    occurredAt := noon }

abbrev State := KafkaEventConsumer.State EventFields

def decode : EventFields → Option KafkaEvent := KafkaEvent.modelValidateJson pydantic noon

def outcome : KafkaEvent → Bool → Prop :=
  ReminderWorker.outcome {} (Outside.exact fun _ => true) pydantic

def published : State := { log := [message] }

def fetching (position : ℕ) : State :=
  { log := [message], committed := position, consumer := some position, task := some .fetching }

def waiting : State := { log := [message], consumer := some 1, task := some (.handling 0) }

def stopped : State := { log := [message], committed := 1, stopEvent := true }

/-- The consumer is stopped while the handler waits for 11:55, and started again. -/
def shutdown : List (Transition.Event State (KafkaEventConsumer.Label EventFields)) :=
  [⟨published, .start, fetching 0⟩, ⟨fetching 0, .deliver, waiting⟩,
    ⟨waiting, .stop true, stopped⟩, ⟨stopped, .start, fetching 1⟩]

theorem decode_message : ∃ event, decode message = some event := ⟨⟨_, _, _, _, by decide⟩, rfl⟩

theorem run_shutdown : KafkaEventConsumer.Run decode outcome published shutdown (fetching 1) := by
  obtain ⟨event, hevent⟩ := decode_message
  have hstart : KafkaEventConsumer.Step decode outcome published .start (fetching 0) := .start rfl
  have hdeliver : KafkaEventConsumer.Step decode outcome (fetching 0) .deliver waiting :=
    .deliver rfl rfl rfl rfl hevent
  have hstop : KafkaEventConsumer.Step decode outcome waiting (.stop true) stopped :=
    .stop true nofun
  have hagain : KafkaEventConsumer.Step decode outcome stopped .start (fetching 1) := .start rfl
  exact .cons (e := ⟨_, _, _⟩) hstart (.cons (e := ⟨_, _, _⟩) hdeliver
    (.cons (e := ⟨_, _, _⟩) hstop (.cons (e := ⟨_, _, _⟩) hagain .nil)))

end Sample

open Sample in
/-- A reminder is cut off by a shutdown after it has been committed. -/
theorem deliveries_accounted_shutdown :
    KafkaEventConsumer.Accounted decode shutdown (fetching 1) :=
  KafkaEventConsumer.deliveries_accounted decode outcome [message] shutdown (fetching 1)
    run_shutdown

end CoffeeBuddy

import CoffeeBuddy.Library.Path
import CoffeeBuddy.Reminders.Worker

/-! `KafkaEventConsumer`: the consume loop, one message after the other, whose handler's
exceptions are counted and swallowed; and the consumer as a machine, with the loop's task
started, cancelled and restarted around a client that commits its position by itself. -/

namespace CoffeeBuddy

inductive ConsumeStatus where
  | success | error
deriving DecidableEq

def ConsumeStatus.of {X : Type} : Except X Unit → ConsumeStatus
  | .ok _ => .success
  | .error _ => .error

namespace KafkaEventConsumer
variable {M E X S : Type}

/-- The loop over messages nobody interrupts: the handler's state and the increments of
`KAFKA_CONSUME_TOTAL`. `none` is a handler that has not come back. -/
def consumeLoop (decode : M → Option E) (handler : E → S → Option (Except X Unit × S)) :
    List M → S → Option (S × List ConsumeStatus)
  | [], st => some (st, [])
  | message :: messages, st =>
    match decode message with
    | none => (consumeLoop decode handler messages st).map fun (st, ks) => (st, .error :: ks)
    | some event =>
      match handler event st with
      | none => none
      | some (.ok _, st) =>
        (consumeLoop decode handler messages st).map fun (st, ks) => (st, .success :: ks)
      | some (.error _, st) =>
        (consumeLoop decode handler messages st).map fun (st, ks) => (st, .error :: ks)

section Loop
variable {decode : M → Option E} {handler : E → S → Option (Except X Unit × S)} {message : M}
  {event : E} {st st' : S} {result : Except X Unit}

theorem consumeLoop_cons (messages : List M) (hdecode : decode message = some event)
    (hhandler : handler event st = some (result, st')) :
    ∃ k, consumeLoop decode handler (message :: messages) st =
      (consumeLoop decode handler messages st').map fun (st, ks) => (st, k :: ks) := by
  cases result with
  | ok u => exact ⟨.success, by simp only [consumeLoop, hdecode, hhandler]⟩
  | error e => exact ⟨.error, by simp only [consumeLoop, hdecode, hhandler]⟩

theorem consumeLoop_append (before after : List M) (st : S) :
    consumeLoop decode handler (before ++ after) st =
      (consumeLoop decode handler before st).bind fun r =>
        (consumeLoop decode handler after r.1).map fun r' => (r'.1, r.2 ++ r'.2) := by
  induction before generalizing st with
  | nil => simp [consumeLoop]
  | cons message before ih =>
    rw [List.cons_append]
    cases hdecode : decode message with
    | none =>
      simp only [consumeLoop, hdecode, ih, Option.map_bind, Option.bind_map]
      congr 1
      funext r
      simp [Function.comp_def]
    | some event =>
      cases hhandler : handler event st with
      | none => simp [consumeLoop, hdecode, hhandler]
      | some r =>
        obtain ⟨result, st₁⟩ := r
        cases result
        all_goals
          simp only [consumeLoop, hdecode, hhandler, ih, Option.map_bind, Option.bind_map]
          congr 1
          funext r
          simp [Function.comp_def]

theorem consumeLoop_undecodable (hdecode : decode message = none) (st : S) :
    consumeLoop decode handler [message] st = some (st, [.error]) := by
  simp only [consumeLoop, hdecode, Option.map_some]

theorem consumeLoop_handled (hdecode : decode message = some event) (st : S) :
    consumeLoop decode handler [message] st =
      (handler event st).map fun r => (r.2, [ConsumeStatus.of r.1]) := by
  cases hhandler : handler event st with
  | none => simp only [consumeLoop, hdecode, hhandler, Option.map_none]
  | some r =>
    obtain ⟨result, st₁⟩ := r
    cases result <;> simp only [consumeLoop, hdecode, hhandler, Option.map_some, ConsumeStatus.of]

theorem consumeLoop_mono {handler' : E → S → Option (Except X Unit × S)}
    (hmore : ∀ event st r, handler event st = some r → handler' event st = some r)
    {messages : List M} {r : S × List ConsumeStatus}
    (h : consumeLoop decode handler messages st = some r) :
    consumeLoop decode handler' messages st = some r := by
  induction messages using List.reverseRecOn generalizing r with
  | nil => exact h
  | append_singleton messages message ih =>
    rw [consumeLoop_append] at h ⊢
    obtain ⟨r₁, hbefore, h⟩ := Option.bind_eq_some_iff.mp h
    rw [ih hbefore, Option.bind_some]
    obtain ⟨r₂, hlast, hr⟩ := Option.map_eq_some_iff.mp h
    apply Option.map_eq_some_iff.mpr
    refine ⟨r₂, ?_, hr⟩
    cases hdecode : decode message with
    | none => rwa [consumeLoop_undecodable hdecode] at hlast ⊢
    | some event =>
      rw [consumeLoop_handled hdecode] at hlast ⊢
      obtain ⟨r₃, hhandler, hr₂⟩ := Option.map_eq_some_iff.mp hlast
      rw [hmore _ _ _ hhandler, Option.map_some, hr₂]

end Loop

/-! ### The consumer as a machine -/

/-- The state of the loop's task; a failed one has re-raised an error of the client. -/
inductive Task where
  | fetching
  | handling (offset : ℕ)
  | ended
  | failed
deriving DecidableEq

/-- The partition and its committed position, the fields of the consumer (`consumer` has the
position of the started client), and the offsets whose handler has returned. -/
structure State (M : Type) where
  log : List M
  committed : ℕ := 0
  consumer : Option ℕ := none
  task : Option Task := none
  stopEvent : Bool := false
  returned : List ℕ := []

inductive Label (M : Type) where
  | produce (message : M)
  | start
  | undecodable
  | deliver
  | handlerReturns
  | handlerRaises
  | loopError
  | commit
  | stop (commits : Bool)

variable (decode : M → Option E) (outcome : E → Bool → Prop)

/-- `outcome event true` when the handler of `event` can return, `false` when it can raise. -/
inductive Step (s : State M) : Label M → State M → Prop
  | produce (message : M) : Step s (.produce message) { s with log := s.log ++ [message] }
  | startRunning {position : ℕ} : s.consumer = some position → Step s .start s
  | start : s.consumer = none → Step s .start
      { s with stopEvent := false, consumer := some s.committed, task := some .fetching }
  | undecodable {position : ℕ} {message : M} : s.task = some .fetching →
      s.consumer = some position → s.log[position]? = some message → s.stopEvent = false →
      decode message = none → Step s .undecodable { s with consumer := some (position + 1) }
  | deliver {position : ℕ} {message : M} {event : E} : s.task = some .fetching →
      s.consumer = some position → s.log[position]? = some message → s.stopEvent = false →
      decode message = some event → Step s .deliver
        { s with consumer := some (position + 1), task := some (.handling position) }
  | stopSeen {position : ℕ} {message : M} : s.task = some .fetching →
      s.consumer = some position → s.log[position]? = some message → s.stopEvent = true →
      Step s .deliver { s with consumer := some (position + 1), task := some .ended }
  | handlerReturns {offset : ℕ} {message : M} {event : E} : s.task = some (.handling offset) →
      s.log[offset]? = some message → decode message = some event → outcome event true →
      Step s .handlerReturns
        { s with task := some .fetching, returned := offset :: s.returned }
  | handlerRaises {offset : ℕ} {message : M} {event : E} : s.task = some (.handling offset) →
      s.log[offset]? = some message → decode message = some event → outcome event false →
      Step s .handlerRaises { s with task := some .fetching }
  | loopError : s.task = some .fetching → Step s .loopError { s with task := some .failed }
  | commit {position : ℕ} : s.consumer = some position → Step s .commit
      { s with committed := position }
  -- the cancelled task does not run the handler to its end
  | stop (commits : Bool) : s.task ≠ some .failed → Step s (.stop commits)
      { s with
        stopEvent := true, task := none, consumer := none
        committed := if commits then s.consumer.getD s.committed else s.committed }
  -- awaiting a failed task raises its error out of `stop()`
  | stopFailed (commits : Bool) : s.task = some .failed → Step s (.stop commits)
      { s with stopEvent := true }

abbrev Run := Transition.Path (Step decode outcome)

def status : Label M → Option ConsumeStatus
  | .undecodable | .handlerRaises => some .error
  | .handlerReturns => some .success
  | _ => none

section Machine
variable {decode outcome} {handler : E → S → Option (Except X Unit × S)}

structure Fetching (s : State M) (position : ℕ) : Prop where
  consumer : s.consumer = some position
  task : s.task = some .fetching
  stopEvent : s.stopEvent = false

theorem Fetching.run_message {s : State M} {position : ℕ} {message : M} {st st' : S}
    {ks : List ConsumeStatus} (hs : Fetching s position)
    (hhandler : ∀ event st result st', handler event st = some (result, st') →
      outcome event result.isOk) (hmessage : s.log[position]? = some message)
    (h : consumeLoop decode handler [message] st = some (st', ks)) :
    ∃ es t, Run decode outcome s es t ∧ es.filterMap (fun e => status e.label) = ks ∧
      t.log = s.log ∧ Fetching t (position + 1) := by
  cases hdecode : decode message with
  | none =>
    rw [consumeLoop_undecodable hdecode, Option.some.injEq, Prod.mk.injEq] at h
    obtain ⟨-, rfl⟩ := h
    have hstep : Step decode outcome s .undecodable { s with consumer := some (position + 1) } :=
      .undecodable hs.task hs.consumer hmessage hs.stopEvent hdecode
    exact ⟨_, _, .cons (e := ⟨_, _, _⟩) hstep .nil, rfl, rfl, rfl, hs.task, hs.stopEvent⟩
  | some event =>
    rw [consumeLoop_handled hdecode, Option.map_eq_some_iff] at h
    obtain ⟨⟨result, st₁⟩, hprocess, hr⟩ := h
    obtain ⟨-, rfl⟩ := Prod.mk.inj hr
    have houtcome := hhandler event st result st₁ hprocess
    have hdeliver : Step decode outcome s .deliver
        { s with consumer := some (position + 1), task := some (.handling position) } :=
      .deliver hs.task hs.consumer hmessage hs.stopEvent hdecode
    cases result with
    | ok u =>
      have hreturns := Step.handlerReturns (s := { s with
        consumer := some (position + 1), task := some (.handling position) })
        rfl hmessage hdecode houtcome
      exact ⟨_, _, .cons (e := ⟨_, _, _⟩) hdeliver (.cons (e := ⟨_, _, _⟩) hreturns .nil), rfl, rfl,
        rfl, rfl, hs.stopEvent⟩
    | error e =>
      have hraises := Step.handlerRaises (s := { s with
        consumer := some (position + 1), task := some (.handling position) })
        rfl hmessage hdecode houtcome
      exact ⟨_, _, .cons (e := ⟨_, _, _⟩) hdeliver (.cons (e := ⟨_, _, _⟩) hraises .nil), rfl, rfl,
        rfl, rfl, hs.stopEvent⟩

/-- Undisturbed, the machine does what the loop does. -/
theorem run_of_consumeLoop (hhandler : ∀ event st result st', handler event st = some (result, st') →
      outcome event result.isOk) {messages : List M} {st st' : S} {ks : List ConsumeStatus}
    (h : consumeLoop decode handler messages st = some (st', ks)) {s : State M}
    {handled rest : List M} (hlog : s.log = handled ++ messages ++ rest)
    (hs : Fetching s handled.length) :
    ∃ es t, Run decode outcome s es t ∧ es.filterMap (fun e => status e.label) = ks ∧
      t.log = s.log ∧ Fetching t (handled ++ messages).length := by
  induction messages using List.reverseRecOn generalizing rest st' ks with
  | nil =>
    obtain ⟨-, rfl⟩ := Prod.mk.inj (Option.some.inj h)
    rw [List.append_nil]
    exact ⟨[], s, .nil, rfl, rfl, hs⟩
  | append_singleton messages message ih =>
    rw [consumeLoop_append] at h
    obtain ⟨⟨st₁, ks₁⟩, hbefore, h⟩ := Option.bind_eq_some_iff.mp h
    obtain ⟨⟨st₂, ks₂⟩, hlast, hr⟩ := Option.map_eq_some_iff.mp h
    obtain ⟨-, rfl⟩ := Prod.mk.inj hr
    rw [← List.append_assoc] at hlog ⊢
    have hlog' : s.log = handled ++ messages ++ message :: rest := by
      rw [hlog, List.append_assoc, List.singleton_append]
    obtain ⟨es, t, hrun, hks, htlog, ht⟩ := ih hbefore hlog'
    have hmessage : t.log[(handled ++ messages).length]? = some message := by
      rw [htlog, hlog', List.getElem?_append_right le_rfl, Nat.sub_self]
      rfl
    obtain ⟨fs, u, hrun', hks', hulog, hu⟩ := ht.run_message hhandler hmessage hlast
    refine ⟨es ++ fs, u, hrun.append hrun', ?_, hulog.trans htlog, ?_⟩
    · rw [List.filterMap_append, hks, hks']
    · have hlength : (handled ++ messages ++ [message]).length = (handled ++ messages).length + 1 := by
        rw [List.length_append, List.length_singleton]
      rw [hlength]
      exact hu

end Machine
end KafkaEventConsumer
end CoffeeBuddy

import CoffeeBuddy.Library.Held
import CoffeeBuddy.Library.Program
import CoffeeBuddy.Reminders.Consumer

/-! `KafkaEventConsumer.start` and `stop`, statement by statement, with the task of the
consume loop between them. Every run of the consumer over its messages is a run of this
machine in which the client always starts. -/

namespace CoffeeBuddy
open Transaction

inductive ConsumerError where
  /-- What the start of the client raises. -/
  | client
  /-- What the consume loop has raised again. -/
  | loop
deriving DecidableEq

namespace KafkaEventConsumer.Lifecycle

/-- A cancelled task has `ended` as one whose loop is over. -/
inductive TaskStatus where
  | running
  | ended
  | failed
deriving DecidableEq

/-- The fields of the consumer; the task has the client its loop iterates over. -/
structure State where
  consumer : Held.Field := {}
  task : Option (ℕ × TaskStatus) := none
  stopEvent : Bool := false

/-- `starts` when the start of the client, if it comes to that, succeeds. -/
def start (starts : Bool) : Program State ConsumerError Unit := do
  let held ← Program.query fun s => s.consumer.held
  if held.isSome then return
  Program.execute fun s => .ok { s with stopEvent := false }
  Program.execute fun s => .ok { s with consumer := s.consumer.build }
  Program.execute fun s =>
    if starts then .ok { s with consumer := s.consumer.mark .running } else .error .client
  Program.execute fun s => .ok { s with task := s.consumer.held.map fun i => (i, .running) }

/-- A running task ends when it is cancelled, or fails if the loop crashes meanwhile. -/
def TaskStatus.cancelled (crashes : Bool) : TaskStatus → TaskStatus
  | .running => if crashes then .failed else .ended
  | status => status

/-- `await self._task` under `suppress(CancelledError)`. -/
def awaitTask : Program State ConsumerError Unit := do
  let task ← Program.query fun s => s.task
  if task.map (fun t => t.2) = some .failed then Program.raise .loop else return

def stopTask (crashes : Bool) : Program State ConsumerError Unit := do
  let task ← Program.query fun s => s.task
  if task.isSome then
    Program.execute fun s => .ok
      { s with task := s.task.map fun t => (t.1, t.2.cancelled crashes) }
    awaitTask
    Program.execute fun s => .ok { s with task := none }

def stopClient : Program State ConsumerError Unit := do
  let held ← Program.query fun s => s.consumer.held
  if held.isSome then
    Program.execute fun s => .ok { s with consumer := s.consumer.mark .stopped }
    Program.execute fun s => .ok { s with consumer := s.consumer.drop }

def stop (crashes : Bool) : Program State ConsumerError Unit := do
  Program.execute fun s => .ok { s with stopEvent := true }
  stopTask crashes
  stopClient

/-! ### What each method does -/

section Methods
variable {s : State} {i : ℕ}

theorem exec_start_held (starts : Bool) (h : s.consumer.held = some i) :
    (start starts).exec s = (.ok (), s) := by
  unfold start
  rw [Program.exec_bind]
  simp only [Program.query, Program.exec, h, Option.isSome_some, if_true]
  rfl

theorem exec_start_none (starts : Bool) (h : s.consumer.held = none) :
    (start starts).exec s =
      if starts then (.ok (),
        { consumer := s.consumer.build.mark .running
          task := some (s.consumer.clients.length, .running), stopEvent := false })
      else (.error .client, { s with consumer := s.consumer.build, stopEvent := false }) := by
  unfold start
  rw [Program.exec_bind]
  simp only [Program.query, Program.exec, h, Option.isSome_none]
  cases starts <;> rfl

/-- The task fails where `stop()` awaits it. -/
def State.FailsAt (s : State) (crashes : Bool) : Prop :=
  ∃ i status, s.task = some (i, status) ∧ status.cancelled crashes = .failed

theorem exec_stopTask_failed {crashes : Bool} (h : s.FailsAt crashes) :
    ∃ i, (stopTask crashes).exec s = (.error .loop, { s with task := some (i, .failed) }) := by
  obtain ⟨i, status, htask, hfailed⟩ := h
  refine ⟨i, ?_⟩
  obtain ⟨consumer, task, stopEvent⟩ := s
  obtain rfl : task = some (i, status) := htask
  cases status with
  | running =>
    cases crashes with
    | true => rfl
    | false => exact nomatch hfailed
  | ended => exact nomatch hfailed
  | failed => rfl

theorem exec_stopTask_settled {crashes : Bool} (h : ¬s.FailsAt crashes) :
    (stopTask crashes).exec s = (.ok (), { s with task := none }) := by
  obtain ⟨consumer, task, stopEvent⟩ := s
  cases task with
  | none => rfl
  | some t =>
    obtain ⟨i, status⟩ := t
    have hsettled : status.cancelled crashes ≠ .failed := fun hfailed =>
      h ⟨i, status, rfl, hfailed⟩
    cases status with
    | running =>
      cases crashes with
      | true => exact absurd rfl hsettled
      | false => rfl
    | ended => rfl
    | failed => exact absurd rfl hsettled

theorem exec_stopClient :
    stopClient.exec s = (.ok (), { s with consumer := s.consumer.release }) := by
  unfold stopClient
  rw [Program.exec_bind]
  cases h : s.consumer.held with
  | none =>
    simp only [Program.query, Program.exec, h, Option.isSome_none]
    rw [Held.Field.release_of_none h]
    rfl
  | some i =>
    simp only [Program.query, Program.exec, h, Option.isSome_some, if_true]
    rfl

theorem exec_stop_failed {crashes : Bool} (h : s.FailsAt crashes) :
    ∃ i, (stop crashes).exec s =
      (.error .loop, { s with task := some (i, .failed), stopEvent := true }) := by
  obtain ⟨i, htask⟩ := exec_stopTask_failed (s := { s with stopEvent := true }) h
  refine ⟨i, ?_⟩
  unfold stop
  rw [Program.exec_bind]
  simp only [Program.execute, Program.exec]
  rw [Program.exec_bind, htask]

theorem exec_stop_settled {crashes : Bool} (h : ¬s.FailsAt crashes) :
    (stop crashes).exec s =
      (.ok (), { consumer := s.consumer.release, task := none, stopEvent := true }) := by
  have htask := exec_stopTask_settled (s := { s with stopEvent := true }) h
  unfold stop
  rw [Program.exec_bind]
  simp only [Program.execute, Program.exec]
  rw [Program.exec_bind, htask]
  exact exec_stopClient

end Methods
/-! ### Runs -/

inductive Call where
  | start (starts : Bool)
  | stop (crashes : Bool)

def Call.program : Call → Program State ConsumerError Unit
  | .start starts => Lifecycle.start starts
  | .stop crashes => Lifecycle.stop crashes

inductive Label where
  | call (c : Call) (result : Except ConsumerError Unit)
  | loopCrash
  | loopEnd

inductive Step (s : State) : Label → State → Prop
  | call {c : Call} {result : Except ConsumerError Unit} {t : State} :
    c.program.exec s = (result, t) → Step s (.call c result) t
  | loopCrash {i : ℕ} : s.task = some (i, .running) →
    Step s .loopCrash { s with task := some (i, .failed) }
  | loopEnd {i : ℕ} : s.task = some (i, .running) →
    Step s .loopEnd { s with task := some (i, .ended) }

abbrev Event := Transition.Event State Label

abbrev Run := Transition.Path Step

/-! ### The consumer over its messages -/

def TaskStatus.ofTask : Task → TaskStatus
  | .fetching | .handling _ => .running
  | .ended => .ended
  | .failed => .failed

section Messages
variable {M E : Type} {decode : M → Option E} {outcome : E → Bool → Prop}

/-- The two machines have the same fields, up to the position and the handler. -/
structure Matches (s : KafkaEventConsumer.State M) (x : State) : Prop where
  held : s.consumer.isSome = x.consumer.held.isSome
  task : s.task.map TaskStatus.ofTask = x.task.map fun t => t.2
  stopEvent : s.stopEvent = x.stopEvent

/-- The start of the client does not fail. -/
def Starts (e : Event) : Prop := ∀ result, e.label ≠ .call (.start false) result

def Simulated (x : State) (s : KafkaEventConsumer.State M) : Prop :=
  ∃ es y, Run x es y ∧ (∀ e ∈ es, Starts e) ∧ Matches s y

variable {s s' : KafkaEventConsumer.State M} {x y : State}

theorem Simulated.nil (h : Matches s x) : Simulated x s :=
  ⟨[], x, .nil, fun _ he => absurd he List.not_mem_nil, h⟩

theorem Simulated.single {label : Label} (hstep : Step x label y)
    (hstarts : ∀ result, label ≠ .call (.start false) result) (h : Matches s y) :
    Simulated x s := by
  refine ⟨[⟨x, label, y⟩], y, .snoc .nil hstep, fun e he => ?_, h⟩
  obtain rfl := List.mem_singleton.mp he
  exact hstarts

theorem Matches.exists_task {status : TaskStatus} (h : Matches s x)
    (htask : s.task.map TaskStatus.ofTask = some status) : ∃ i, x.task = some (i, status) := by
  rw [h.task] at htask
  obtain ⟨⟨i, status'⟩, hx, rfl⟩ := Option.map_eq_some_iff.mp htask
  exact ⟨i, hx⟩

theorem Matches.keep (h : Matches s x) (hheld : s'.consumer.isSome = s.consumer.isSome)
    (htask : s'.task.map TaskStatus.ofTask = s.task.map TaskStatus.ofTask)
    (hstop : s'.stopEvent = s.stopEvent) : Matches s' x :=
  ⟨hheld.trans h.held, htask.trans h.task, hstop.trans h.stopEvent⟩

theorem simulated_stop {commits : Bool} (h : Matches s x)
    (hstep : KafkaEventConsumer.Step decode outcome s (.stop commits) s') : Simulated x s' := by
  have hstarts : ∀ result result',
      Label.call (.stop false) result ≠ .call (.start false) result' := by
    intro result result' hsame
    injection hsame with hcall
    exact Call.noConfusion hcall
  cases hstep with
  | stop commits htask =>
    -- only a failed task lets its error out of `stop()`
    have hsettled : ¬x.FailsAt false := by
      rintro ⟨i, status, hx, hfailed⟩
      have hstatus : status = .failed := by
        cases status with
        | running => exact nomatch hfailed
        | ended => exact nomatch hfailed
        | failed => rfl
      have hmap := h.task
      rw [hx, hstatus] at hmap
      obtain ⟨task, htask', hof⟩ := Option.map_eq_some_iff.mp hmap
      cases task with
      | fetching => exact nomatch hof
      | handling offset => exact nomatch hof
      | ended => exact nomatch hof
      | failed => exact htask htask'
    have hcall : Step x (.call (.stop false) (.ok ()))
        { consumer := x.consumer.release, task := none, stopEvent := true } :=
      .call (exec_stop_settled hsettled)
    exact .single hcall (hstarts _) ⟨rfl, rfl, rfl⟩
  | stopFailed commits htask =>
    obtain ⟨i, hx⟩ : ∃ i, x.task = some (i, .failed) := h.exists_task (by rw [htask]; rfl)
    have hfails : x.FailsAt false := ⟨i, .failed, hx, rfl⟩
    obtain ⟨j, hexec⟩ := exec_stop_failed hfails
    have hcall : Step x (.call (.stop false) (.error .loop))
        { x with task := some (j, .failed), stopEvent := true } := .call hexec
    refine .single hcall (hstarts _) ⟨h.held, ?_, rfl⟩
    show s.task.map TaskStatus.ofTask = _
    rw [htask]
    rfl

/-- Each step of the consumer is one step here, or none. -/
theorem simulated_of_step {label : KafkaEventConsumer.Label M}
    (hstep : KafkaEventConsumer.Step decode outcome s label s') (h : Matches s x) :
    Simulated x s' := by
  have hagain := hstep
  cases hstep with
  | produce message => exact .nil (h.keep rfl rfl rfl)
  | startRunning hconsumer =>
    have hsome := h.held
    rw [hconsumer, Option.isSome_some] at hsome
    obtain ⟨i, hi⟩ := Option.isSome_iff_exists.mp hsome.symm
    have hcall : Step x (.call (.start true) (.ok ())) x := .call (exec_start_held true hi)
    exact .single hcall (fun _ => nofun) h
  | start hconsumer =>
    have hnone := h.held
    rw [hconsumer, Option.isSome_none] at hnone
    have hcall : Step x (.call (.start true) (.ok ()))
        { consumer := x.consumer.build.mark .running
          task := some (x.consumer.clients.length, .running), stopEvent := false } :=
      .call (exec_start_none true (Option.not_isSome_iff_eq_none.mp (by simp [← hnone])))
    refine .single hcall (fun _ => nofun) ⟨?_, rfl, rfl⟩
    rw [Held.Field.mark_build]
    rfl
  | undecodable htask hconsumer => exact .nil (h.keep (by rw [hconsumer]; rfl) rfl rfl)
  | deliver htask hconsumer =>
    exact .nil (h.keep (by rw [hconsumer]; rfl) (by rw [htask]; rfl) rfl)
  | stopSeen htask hconsumer =>
    obtain ⟨i, hx⟩ : ∃ i, x.task = some (i, .running) := h.exists_task (by rw [htask]; rfl)
    refine .single (.loopEnd hx) (fun _ => nofun) ⟨?_, rfl, h.stopEvent⟩
    rw [← h.held, hconsumer]
    rfl
  | handlerReturns htask => exact .nil (h.keep rfl (by rw [htask]; rfl) rfl)
  | handlerRaises htask => exact .nil (h.keep rfl (by rw [htask]; rfl) rfl)
  | loopError htask =>
    obtain ⟨i, hx⟩ : ∃ i, x.task = some (i, .running) := h.exists_task (by rw [htask]; rfl)
    exact .single (.loopCrash hx) (fun _ => nofun) ⟨h.held, rfl, h.stopEvent⟩
  | commit hconsumer => exact .nil (h.keep rfl rfl rfl)
  | stop commits htask => exact simulated_stop h hagain
  | stopFailed commits htask => exact simulated_stop h hagain

/-- A consumer that has not been started yet runs as the machine does from its beginning. -/
theorem simulated_of_run {es : List (Transition.Event (KafkaEventConsumer.State M)
      (KafkaEventConsumer.Label M))}
    (hrun : KafkaEventConsumer.Run decode outcome s es s') (h : Matches s x) :
    Simulated x s' := by
  induction hrun with
  | nil => exact .nil h
  | snoc path last ih =>
    obtain ⟨fs, y, hy, hstarts, hmatch⟩ := ih
    obtain ⟨gs, z, hz, hstarts', hmatch'⟩ := simulated_of_step last hmatch
    refine ⟨fs ++ gs, z, hy.append hz, fun e he => ?_, hmatch'⟩
    exact (List.mem_append.mp he).elim (hstarts e) (hstarts' e)

end Messages
end KafkaEventConsumer.Lifecycle
end CoffeeBuddy

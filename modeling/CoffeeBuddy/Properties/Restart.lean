import CoffeeBuddy.Kafka.Consumer
import CoffeeBuddy.Library.LastWrite

/-! Stopping and restarting a consumer. It goes well as long as the client starts and the
loop has not crashed when it is stopped; after either failure the fields keep what they held. -/

namespace CoffeeBuddy
open Transaction Transition Held

namespace KafkaEventConsumer.Lifecycle

def Stopped (s : State) : Prop := s.consumer.held = none ∧ s.task = none

/-- A consume task has been created on the client in the field, which is started. -/
def Attached (s : State) : Prop := ∃ i status, s.consumer.held = some i ∧
  s.consumer.clients[i]? = some .running ∧ s.task = some (i, status)

/-- Whether a call is `stop()`; the loop's own events are no calls. -/
def stopCall (e : Event) : Option (Unit × Bool) :=
  match e.label with
  | .call (.stop _) _ => some ((), true)
  | .call (.start _) _ => some ((), false)
  | _ => none

def StoppedLast (es : List Event) : Prop :=
  LastWrite.IsLast stopCall (fun _ _ => False) es () true

/-- A new client has been built, and if it starts the loop runs on it. -/
def Restarts (starts : Bool) (s t : State) : Prop :=
  t.consumer = ⟨some s.consumer.clients.length,
    s.consumer.clients ++ [if starts then .running else .built]⟩ ∧
  (starts = true → t.task = some (s.consumer.clients.length, .running))

/-- What a call after the events `es` should do. -/
def Good (es : List Event) (e : Event) : Prop :=
  match e.label with
  | .call (.stop _) _ => Stopped e.after ∧ e.after.consumer.Idle
  | .call (.start starts) _ => (Attached e.after ∨ Stopped e.after) ∧
    (StoppedLast es → Restarts starts e.before e.after)
  | _ => True

/-- A client that is to be started starts, and the loop is not crashed, nor crashes, when it
is stopped. -/
def Unfailing (e : Event) : Prop :=
  match e.label with
  | .call (.stop crashes) _ => ¬e.before.FailsAt crashes
  | .call (.start starts) _ => e.before.consumer.held = none → starts = true
  | _ => True

/-! ### One step -/

section Steps
variable {es : List Event} {e : Event}

/-- What a step can do. -/
inductive Effect (e : Event) : Prop
  | kept {starts : Bool} {i : ℕ} : e.label = .call (.start starts) (.ok ()) →
      e.before.consumer.held = some i → e.after = e.before → Effect e
  | started : e.label = .call (.start true) (.ok ()) → e.before.consumer.held = none →
      e.after = { consumer := e.before.consumer.build.mark .running
                  task := some (e.before.consumer.clients.length, .running)
                  stopEvent := false } → Effect e
  | failed : e.label = .call (.start false) (.error .client) → e.before.consumer.held = none →
      e.after = { e.before with consumer := e.before.consumer.build, stopEvent := false } → Effect e
  | stopped {crashes : Bool} : e.label = .call (.stop crashes) (.ok ()) →
      ¬e.before.FailsAt crashes →
      e.after = { consumer := e.before.consumer.release, task := none, stopEvent := true } → Effect e
  | crashed {crashes : Bool} {i : ℕ} : e.label = .call (.stop crashes) (.error .loop) →
      e.before.FailsAt crashes →
      e.after = { e.before with task := some (i, .failed), stopEvent := true } → Effect e
  | loop {i : ℕ} {status : TaskStatus} : e.label = .loopCrash ∨ e.label = .loopEnd →
      e.before.task = some (i, .running) →
      e.after = { e.before with task := some (i, status) } → Effect e

theorem effect_of_step (h : Step e.before e.label e.after) : Effect e := by
  obtain ⟨before, label, after⟩ := e
  have h : Step before label after := h
  cases h with
  | @call c result _ hexec =>
    cases c with
    | start starts =>
      dsimp only [Call.program] at hexec
      cases hheld : before.consumer.held with
      | some i =>
        rw [exec_start_held starts hheld] at hexec
        obtain ⟨rfl, rfl⟩ := Prod.mk.inj hexec
        exact .kept rfl hheld rfl
      | none =>
        rw [exec_start_none starts hheld] at hexec
        cases starts with
        | true =>
          obtain ⟨rfl, rfl⟩ := Prod.mk.inj hexec
          exact .started rfl hheld rfl
        | false =>
          obtain ⟨rfl, rfl⟩ := Prod.mk.inj hexec
          exact .failed rfl hheld rfl
    | stop crashes =>
      dsimp only [Call.program] at hexec
      by_cases hfails : before.FailsAt crashes
      · obtain ⟨i, hstop⟩ := exec_stop_failed hfails
        rw [hstop] at hexec
        obtain ⟨rfl, rfl⟩ := Prod.mk.inj hexec
        exact .crashed rfl hfails rfl
      · rw [exec_stop_settled hfails] at hexec
        obtain ⟨rfl, rfl⟩ := Prod.mk.inj hexec
        exact .stopped rfl hfails rfl
  | loopCrash htask => exact .loop (Or.inl rfl) htask rfl
  | loopEnd htask => exact .loop (Or.inr rfl) htask rfl

theorem stoppedLast_snoc {b : Bool} (h : stopCall e = some ((), b)) :
    StoppedLast (es ++ [e]) ↔ b = true := by
  rw [StoppedLast, LastWrite.isLast_snoc, h]
  simp

theorem stoppedLast_snoc_loop (h : stopCall e = none) :
    StoppedLast (es ++ [e]) ↔ StoppedLast es := by
  rw [StoppedLast, LastWrite.isLast_snoc, h]
  simp [StoppedLast]

/-- Where a run without failures is. -/
structure Sound (es : List Event) (s : State) : Prop where
  sole : s.consumer.Sole
  settled : Attached s ∨ Stopped s
  stoppedLast : StoppedLast es → Stopped s

theorem sound_nil : Sound [] {} := by
  refine ⟨Field.sole_empty, Or.inr ⟨rfl, rfl⟩, ?_⟩
  rintro ⟨es₁, f, es₂, h, -⟩
  simp at h

theorem attached_of_started {s : State} : Attached
    { consumer := s.consumer.build.mark .running
      task := some (s.consumer.clients.length, .running), stopEvent := false } := by
  rw [Field.mark_build]
  exact ⟨_, _, rfl, List.getElem?_concat_length, rfl⟩

theorem good_of_unfailing (h : Sound es e.before) (he : Effect e) (hfine : Unfailing e) :
    Good es e := by
  unfold Unfailing at hfine
  unfold Good
  cases he with
  | kept hlabel hheld hafter =>
    rw [hlabel, hafter]
    refine ⟨h.settled, fun hlast => ?_⟩
    exact nomatch hheld.symm.trans (h.stoppedLast hlast).1
  | started hlabel hheld hafter =>
    rw [hlabel, hafter]
    exact ⟨Or.inl attached_of_started, fun _ => ⟨Field.mark_build, fun _ => rfl⟩⟩
  | failed hlabel hheld hafter =>
    rw [hlabel] at hfine
    exact nomatch hfine hheld
  | stopped hlabel hsettled hafter =>
    rw [hlabel, hafter]
    exact ⟨⟨rfl, rfl⟩, h.sole.idle_release⟩
  | crashed hlabel hfails hafter =>
    rw [hlabel] at hfine
    exact absurd hfails hfine
  | loop hlabel htask hafter => rcases hlabel with hlabel | hlabel <;> rw [hlabel] <;> trivial

theorem Sound.start {s : State} {starts : Bool} {result : Except ConsumerError Unit}
    (hlabel : e.label = .call (.start starts) result) (hsole : s.consumer.Sole)
    (hsettled : Attached s ∨ Stopped s) : Sound (es ++ [e]) s := by
  have hcall : stopCall e = some ((), false) := by rw [stopCall, hlabel]
  refine ⟨hsole, hsettled, fun hlast => ?_⟩
  exact absurd ((stoppedLast_snoc hcall).mp hlast) Bool.false_ne_true

theorem Sound.snoc (h : Sound es e.before) (he : Effect e) (hfine : Unfailing e) :
    Sound (es ++ [e]) e.after := by
  unfold Unfailing at hfine
  cases he with
  | kept hlabel hheld hafter =>
    rw [hafter]
    exact .start hlabel h.sole h.settled
  | started hlabel hheld hafter =>
    rw [hafter]
    exact .start hlabel (h.sole.started hheld) (Or.inl attached_of_started)
  | failed hlabel hheld hafter =>
    rw [hlabel] at hfine
    exact nomatch hfine hheld
  | stopped hlabel hsettled hafter =>
    rw [hafter]
    exact ⟨h.sole.release, Or.inr ⟨rfl, rfl⟩, fun _ => ⟨rfl, rfl⟩⟩
  | crashed hlabel hfails hafter =>
    rw [hlabel] at hfine
    exact absurd hfails hfine
  | @loop i status hlabel htask hafter =>
    -- a task still runs, so the consumer is attached
    have hrunning : ¬Stopped e.before := fun hstopped => nomatch htask.symm.trans hstopped.2
    have hcall : stopCall e = none := by
      rcases hlabel with hlabel | hlabel <;> rw [stopCall, hlabel]
    rw [hafter]
    refine ⟨h.sole, Or.inl ?_, fun hlast => ?_⟩
    · obtain ⟨j, _, hheld, hphase, htask'⟩ := h.settled.resolve_right hrunning
      obtain ⟨rfl, -⟩ := Prod.mk.inj (Option.some.inj (htask.symm.trans htask'))
      exact ⟨i, status, hheld, hphase, rfl⟩
    · exact absurd (h.stoppedLast ((stoppedLast_snoc_loop hcall).mp hlast)) hrunning

theorem unfailing_of_good (he : Effect e) (hgood : Good es e) : Unfailing e := by
  unfold Good at hgood
  unfold Unfailing
  cases he with
  | kept hlabel hheld hafter =>
    rw [hlabel]
    exact fun hnone => nomatch hheld.symm.trans hnone
  | started hlabel hheld hafter =>
    rw [hlabel]
    exact fun _ => rfl
  | failed hlabel hheld hafter =>
    rw [hlabel, hafter] at hgood
    -- the client is built but not started: neither attached nor stopped
    rcases hgood.1 with ⟨i, _, hi, hphase, -⟩ | hstopped
    · have hrunning : e.before.consumer.build.Holds .running := ⟨i, hi, hphase⟩
      exact Phase.noConfusion (hrunning.unique Field.holds_build)
    · exact nomatch hstopped.1
  | stopped hlabel hsettled hafter =>
    rw [hlabel]
    exact hsettled
  | crashed hlabel hfails hafter =>
    rw [hlabel, hafter] at hgood
    exact nomatch hgood.1.2
  | loop hlabel htask hafter => rcases hlabel with hlabel | hlabel <;> rw [hlabel] <;> trivial

/-! ### Runs -/

theorem Sound.run {s : State} (h : Run {} es s) (hfine : ∀ e ∈ es, Unfailing e) : Sound es s :=
  h.history_invariant (fun _ _ _ _ hstep he hes => hes.snoc (effect_of_step hstep) he) hfine
    sound_nil

end Steps

/-- Every call of a run does what it should exactly when nothing fails in the run. -/
theorem good_iff_unfailing (es : List Event) (s : State) (h : Run {} es s) :
    Throughout Good es ↔ ∀ e ∈ es, Unfailing e := by
  induction h with
  | nil => exact iff_of_true (throughout_nil _) fun e he => absurd he List.not_mem_nil
  | snoc path last ih =>
    rw [throughout_snoc, ih, List.forall_mem_append, List.forall_mem_singleton]
    refine and_congr_right fun hfine => ⟨unfailing_of_good (effect_of_step last), fun he => ?_⟩
    exact good_of_unfailing (Sound.run path hfine) (effect_of_step last) he

end KafkaEventConsumer.Lifecycle

/-! ### A crashed loop and a failed start -/

namespace Sample
open KafkaEventConsumer.Lifecycle

def looping (status : TaskStatus) : KafkaEventConsumer.Lifecycle.State :=
  { consumer := ⟨some 0, [.running]⟩, task := some (0, status) }

def unconnected : KafkaEventConsumer.Lifecycle.State := { consumer := ⟨some 0, [.built]⟩ }

def shut : KafkaEventConsumer.Lifecycle.State :=
  { consumer := ⟨none, [.stopped]⟩, stopEvent := true }

def reopened : KafkaEventConsumer.Lifecycle.State :=
  { consumer := ⟨some 1, [.stopped, .running]⟩, task := some (1, .running) }

def connected : KafkaEventConsumer.Lifecycle.Event :=
  ⟨{}, .call (.start true) (.ok ()), looping .running⟩

/-- The loop's error comes out of `stop()` again, and the client stays started. -/
def crashing : List KafkaEventConsumer.Lifecycle.Event :=
  [connected, ⟨looping .running, .loopCrash, looping .failed⟩,
    ⟨looping .failed, .call (.stop false) (.error .loop),
      { looping .failed with stopEvent := true }⟩]

def refusing : List KafkaEventConsumer.Lifecycle.Event :=
  [⟨{}, .call (.start false) (.error .client), unconnected⟩]

def reopening : List KafkaEventConsumer.Lifecycle.Event :=
  [connected, ⟨looping .running, .loopEnd, looping .ended⟩,
    ⟨looping .ended, .call (.stop false) (.ok ()), shut⟩,
    ⟨shut, .call (.start true) (.ok ()), reopened⟩]

theorem step_connected : KafkaEventConsumer.Lifecycle.Step connected.before connected.label connected.after :=
  .call rfl

theorem run_crashing : KafkaEventConsumer.Lifecycle.Run {} crashing
    { looping .failed with stopEvent := true } := by
  have hcrash : KafkaEventConsumer.Lifecycle.Step (looping .running) .loopCrash
      (looping .failed) := .loopCrash rfl
  have hstop : KafkaEventConsumer.Lifecycle.Step (looping .failed)
      (.call (.stop false) (.error .loop)) { looping .failed with stopEvent := true } := .call rfl
  exact .cons step_connected (.cons (e := ⟨_, _, _⟩) hcrash (.cons (e := ⟨_, _, _⟩) hstop .nil))

theorem run_refusing : KafkaEventConsumer.Lifecycle.Run {} refusing unconnected := by
  have hstart : KafkaEventConsumer.Lifecycle.Step {} (.call (.start false) (.error .client))
      unconnected := .call rfl
  exact .cons (e := ⟨_, _, _⟩) hstart .nil

theorem run_reopening : KafkaEventConsumer.Lifecycle.Run {} reopening reopened := by
  have hend : KafkaEventConsumer.Lifecycle.Step (looping .running) .loopEnd (looping .ended) :=
    .loopEnd rfl
  have hstop : KafkaEventConsumer.Lifecycle.Step (looping .ended) (.call (.stop false) (.ok ()))
      shut := .call rfl
  have hstart : KafkaEventConsumer.Lifecycle.Step shut (.call (.start true) (.ok ())) reopened :=
    .call rfl
  exact .cons step_connected (.cons (e := ⟨_, _, _⟩) hend (.cons (e := ⟨_, _, _⟩) hstop
    (.cons (e := ⟨_, _, _⟩) hstart .nil)))

end Sample

open Sample KafkaEventConsumer.Lifecycle in
theorem consumer_keeps_failed_fields :
    (KafkaEventConsumer.Lifecycle.Run {} crashing { looping .failed with stopEvent := true } ∧
      ¬Throughout Good crashing) ∧
    KafkaEventConsumer.Lifecycle.Run {} refusing unconnected ∧ ¬Throughout Good refusing := by
  refine ⟨⟨run_crashing, fun hgood => ?_⟩, run_refusing, fun hgood => ?_⟩
  · obtain ⟨hstopped, -⟩ := hgood [connected, ⟨looping .running, .loopCrash, looping .failed⟩] _ [] rfl
    exact nomatch hstopped.1
  · rcases (hgood [] _ [] rfl).1 with ⟨i, _, -, -, htask⟩ | hstopped
    · exact nomatch htask
    · exact nomatch hstopped.1

open Sample KafkaEventConsumer.Lifecycle in
theorem good_iff_unfailing_reopening :
    Throughout Good reopening ↔ ∀ e ∈ reopening, Unfailing e :=
  good_iff_unfailing reopening reopened run_reopening

end CoffeeBuddy

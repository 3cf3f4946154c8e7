import CoffeeBuddy.Reminders.Events
import Mathlib.Algebra.Order.Group.Unbundled.Abs
import Mathlib.Tactic.Abel
import Mathlib.Tactic.Linarith

/-! `ReminderWorker`: one event handled, from the validation of its payload through the
wait for its time to the send. The clock, `sleep` and the sender are parameters; waiting
takes fuel, and `none` is a wait that has not ended. -/

namespace CoffeeBuddy

/-- The world the worker runs in. A send that returns `false` raised an `Exception`. -/
structure Outside (σ : Type) where
  clock : σ → Timestamp × σ
  sleep : ℤ → σ → σ
  send : ReminderType → ReminderPayload → σ → Bool × σ

inductive SendStatus where
  | skipped | sent | error
deriving DecidableEq

/-- A call of the sender, after the reading of the clock that ended the wait. -/
structure Sending where
  payload : ReminderPayload
  reading : Timestamp
deriving DecidableEq

/-- The world, the calls of the sender, the increments of `REMINDER_SEND_TOTAL` and the
observations of `REMINDER_DELAY_SECONDS`. -/
structure WorkerState (σ : Type) where
  world : σ
  sendings : List Sending := []
  totals : List (ReminderType × SendStatus) := []
  delays : List ℤ := []

def WorkerState.count {σ : Type} (st : WorkerState σ) (t : ReminderType) (status : SendStatus) :
    WorkerState σ := { st with totals := st.totals ++ [(t, status)] }

inductive WorkerError where
  | validation
  | typeError
  | sendFailed
deriving DecidableEq

/-- The clock reads the world, `sleep` advances it exactly, and sending takes no time. -/
def Outside.exact (returns : ReminderPayload → Bool) : Outside Timestamp where
  clock t := (t, t)
  sleep d t := t + d
  send _ payload t := (returns payload, t)

/-- Between two readings a `sleep(d)` has taken at least `d`. -/
def Outside.Sleeps {σ : Type} (o : Outside σ) : Prop :=
  ∀ w d, 0 < d → (o.clock w).1 + d ≤ (o.clock (o.sleep d (o.clock w).2)).1

/-- Between two readings a `sleep(d)` has taken at most `d + e`. -/
def Outside.OvershootsBy {σ : Type} (o : Outside σ) (e : ℤ) : Prop :=
  ∀ w d, 0 < d → (o.clock (o.sleep d (o.clock w).2)).1 ≤ (o.clock w).1 + d + e

theorem Outside.exact_sleeps (returns : ReminderPayload → Bool) : (exact returns).Sleeps :=
  fun _ _ _ => le_rfl

theorem Outside.exact_overshoots (returns : ReminderPayload → Bool) :
    (exact returns).OvershootsBy 0 := fun _ _ _ => (add_zero _).ge

structure ReminderWorker where
  toleranceSeconds : ℤ := 60

namespace ReminderWorker
variable {σ Bytes : Type} (worker : ReminderWorker) (o : Outside σ) (p : Pydantic Bytes)

def tolerance : ℤ := worker.toleranceSeconds * second

def shouldDispatch (payload : ReminderPayload) : Bool :=
  if !payload.channelRemindersEnabled then false
  else
    match payload.reminderType with
    | .runner => payload.runnerUserId.isSome
    | .lastCall => payload.lastCallEnabled

/-- `_wait_until`: the reading that was not before the target, and the world then. -/
def waitUntil (target : Timestamp) : ℕ → σ → Option (Timestamp × σ)
  | 0, _ => none
  | fuel + 1, world =>
    let (now, world) := o.clock world
    let delay := target - now
    if delay ≤ 0 then some (now, world)
    else
      waitUntil target fuel
        (o.sleep (if delay ≤ worker.tolerance then delay else delay - worker.tolerance) world)

/-- The `try` block: a send that returned is still an error when the delay cannot be taken,
an aware reading less a naive `scheduled_for`. -/
def dispatch (payload : ReminderPayload) (reading : Timestamp) (st : WorkerState σ) :
    Except WorkerError Unit × WorkerState σ :=
  let (returned, world) := o.send payload.reminderType payload st.world
  let st : WorkerState σ :=
    { st with world := world, sendings := st.sendings ++ [⟨payload, reading⟩] }
  if returned then
    let (now, world) := o.clock st.world
    let st := { st with world := world }.count payload.reminderType .sent
    match payload.scheduledFor.utcoffset with
    | some _ => (.ok (), { st with delays := st.delays ++ [|now - payload.scheduledFor.instant|] })
    | none => (.error .typeError, st.count payload.reminderType .error)
  else (.error .sendFailed, st.count payload.reminderType .error)

def processEvent (fuel : ℕ) (event : KafkaEvent) (st : WorkerState σ) :
    Option (Except WorkerError Unit × WorkerState σ) :=
  match ReminderPayload.modelValidate p event.payload with
  | none => some (.error .validation, st)
  | some payload =>
    if shouldDispatch payload then
      (worker.waitUntil o payload.scheduledFor.instant fuel st.world).map fun (reading, world) =>
        dispatch o payload reading { st with world := world }
    else some (.ok (), st.count payload.reminderType .skipped)

/-- What the handling of an event may come to, whatever it finds. -/
def outcome (event : KafkaEvent) (returns : Bool) : Prop :=
  ∃ fuel st result st', worker.processEvent o p fuel event st = some (result, st') ∧
    result.isOk = returns

/-! ### Waiting -/

/-- How long `_wait_until` sleeps with `delay` to go. -/
def pause (delay : ℤ) : ℤ := if delay ≤ worker.tolerance then delay else delay - worker.tolerance

section Waiting
variable {worker} {o} {target : Timestamp}

theorem waitUntil_succ (fuel : ℕ) (w : σ) : worker.waitUntil o target (fuel + 1) w =
    if target - (o.clock w).1 ≤ 0 then some (o.clock w)
    else worker.waitUntil o target fuel
      (o.sleep (worker.pause (target - (o.clock w).1)) (o.clock w).2) := rfl

/-- The wait never ends before the target, whatever the clock and the sleeps do. -/
theorem waitUntil_not_early {fuel : ℕ} {w w' : σ} {reading : Timestamp}
    (h : worker.waitUntil o target fuel w = some (reading, w')) : target ≤ reading := by
  induction fuel generalizing w with
  | zero => cases h
  | succ fuel ih =>
    rw [waitUntil_succ] at h
    split_ifs at h with hdelay
    · have hreading : (o.clock w).1 = reading := congrArg Prod.fst (Option.some.inj h)
      exact hreading ▸ sub_nonpos.mp hdelay
    · exact ih h

/-- More fuel changes no wait that has ended. -/
theorem waitUntil_mono {fuel fuel' : ℕ} (hle : fuel ≤ fuel') {w : σ} {r : Timestamp × σ}
    (h : worker.waitUntil o target fuel w = some r) :
    worker.waitUntil o target fuel' w = some r := by
  induction fuel generalizing fuel' w with
  | zero => cases h
  | succ fuel ih =>
    obtain ⟨more, rfl⟩ := Nat.exists_eq_add_of_le hle
    rw [Nat.succ_add, waitUntil_succ]
    rw [waitUntil_succ] at h
    split_ifs at h ⊢
    · exact h
    · exact ih (Nat.le_add_right fuel more) h

theorem waitUntil_due {w : σ} (fuel : ℕ) (h : target ≤ (o.clock w).1) :
    worker.waitUntil o target (fuel + 1) w = some (o.clock w) := by
  rw [waitUntil_succ, if_pos (sub_nonpos.mpr h)]

theorem waitUntil_sleep {w : σ} (fuel : ℕ) (h : (o.clock w).1 < target) :
    worker.waitUntil o target (fuel + 1) w = worker.waitUntil o target fuel
      (o.sleep (worker.pause (target - (o.clock w).1)) (o.clock w).2) := by
  have hwait : ¬target - (o.clock w).1 ≤ 0 := not_le.mpr (sub_pos.mpr h)
  rw [waitUntil_succ, if_neg hwait]

theorem waitUntil_reads {fuel : ℕ} {w : σ} {r : Timestamp × σ}
    (h : worker.waitUntil o target fuel w = some r) : ∃ v, r = o.clock v := by
  induction fuel generalizing w with
  | zero => cases h
  | succ fuel ih =>
    rw [waitUntil_succ] at h
    split_ifs at h
    · exact ⟨w, (Option.some.inj h).symm⟩
    · exact ih h

theorem pause_spec (htol : 0 ≤ worker.tolerance) {delay : ℤ} (h : 0 < delay) :
    0 < worker.pause delay ∧ worker.pause delay ≤ delay ∧
      delay - worker.pause delay ≤ worker.tolerance := by
  unfold pause
  split_ifs with hnear <;> omega

variable (worker) (target) in
/-- With sleeps that are long enough two of them do, and the second absorbs what the first
has overshot. -/
theorem waitUntil_accurate (htol : 0 ≤ worker.tolerance) (hsleeps : o.Sleeps) (fuel : ℕ) (w : σ) :
    ∃ reading w', worker.waitUntil o target (fuel + 3) w = some (reading, w') ∧
      ((o.clock w).1 < target → ∀ e, o.OvershootsBy e → reading ≤ target + e) := by
  rcases le_or_gt target (o.clock w).1 with hdue | hwait
  · exact ⟨_, _, waitUntil_due _ hdue, fun h => absurd h (not_lt.mpr hdue)⟩
  obtain ⟨hpos, hle, hrest⟩ := pause_spec htol (sub_pos.mpr hwait)
  have hfirst := hsleeps w _ hpos
  set w₁ := o.sleep (worker.pause (target - (o.clock w).1)) (o.clock w).2 with hw₁
  rw [waitUntil_sleep _ hwait, ← hw₁]
  rcases le_or_gt target (o.clock w₁).1 with hdue | hwait₁
  · refine ⟨_, _, waitUntil_due _ hdue, fun _ e he => ?_⟩
    have hover : (o.clock w₁).1 ≤ _ := he w _ hpos
    linarith
  -- what is left is within the tolerance and slept in one go
  have hpause : worker.pause (target - (o.clock w₁).1) = target - (o.clock w₁).1 :=
    if_pos (by linarith)
  have hsecond := hsleeps w₁ _ (sub_pos.mpr hwait₁)
  set w₂ := o.sleep (target - (o.clock w₁).1) (o.clock w₁).2 with hw₂
  rw [waitUntil_sleep _ hwait₁, hpause, ← hw₂]
  refine ⟨_, _, waitUntil_due _ (by linarith), fun _ e he => ?_⟩
  have hover : (o.clock w₂).1 ≤ _ := he w₁ _ (sub_pos.mpr hwait₁)
  linarith

theorem waitUntil_exact (htol : 0 ≤ worker.tolerance) (returns : ReminderPayload → Bool)
    (fuel : ℕ) (now : Timestamp) :
    worker.waitUntil (Outside.exact returns) target (fuel + 3) now =
      some (max now target, max now target) := by
  rcases le_or_gt target now with hdue | hwait
  · rw [max_eq_left hdue]
    exact waitUntil_due _ hdue
  obtain ⟨reading, w, hw, hover⟩ := waitUntil_accurate worker target htol
    (Outside.exact_sleeps returns) fuel now
  obtain ⟨v, hv⟩ := waitUntil_reads hw
  obtain ⟨hreading, hworld⟩ : reading = v ∧ w = v := Prod.mk.inj hv
  have hge : target ≤ reading := waitUntil_not_early hw
  have hle : reading ≤ target + 0 := hover hwait 0 (Outside.exact_overshoots returns)
  have heq : reading = target := le_antisymm (hle.trans_eq (add_zero target)) hge
  rw [hw, max_eq_right hwait.le, hworld, ← hreading, heq]

end Waiting

/-! ### One event -/

section Events
variable {worker} {p} {returns : ReminderPayload → Bool} {event : KafkaEvent}
  {payload : ReminderPayload}

theorem sendings_dispatch (o : Outside σ) (reading : Timestamp) (st : WorkerState σ) :
    (dispatch o payload reading st).2.sendings = st.sendings ++ [⟨payload, reading⟩] := by
  simp only [dispatch]
  split
  · split <;> rfl
  · rfl

theorem world_dispatch (o : Outside σ) (reading : Timestamp) (st : WorkerState σ) :
    (dispatch o payload reading st).2.world =
      if (o.send payload.reminderType payload st.world).1 then
        (o.clock (o.send payload.reminderType payload st.world).2).2
      else (o.send payload.reminderType payload st.world).2 := by
  simp only [dispatch]
  split
  · split <;> rfl
  · rfl

theorem world_dispatch_exact (reading : Timestamp) (st : WorkerState Timestamp) :
    (dispatch (Outside.exact returns) payload reading st).2.world = st.world :=
  (world_dispatch _ reading st).trans (ite_self _)

/-- A dispatchable event is sent when it is due, or at once when that is past. -/
theorem processEvent_exact (returns : ReminderPayload → Bool) (fuel : ℕ)
    (htol : 0 ≤ worker.tolerance)
    (hvalid : ReminderPayload.modelValidate p event.payload = some payload)
    (hdispatch : shouldDispatch payload = true) (st : WorkerState Timestamp) :
    ∃ result st', worker.processEvent (Outside.exact returns) p (fuel + 3) event st =
        some (result, st') ∧
      st'.sendings =
        st.sendings ++ [⟨payload, max st.world payload.scheduledFor.instant⟩] ∧
      st'.world = max st.world payload.scheduledFor.instant := by
  set due := max st.world payload.scheduledFor.instant
  simp only [processEvent, hvalid, hdispatch, if_true, waitUntil_exact htol, Option.map_some]
  set done := dispatch (Outside.exact returns) payload due { st with world := due }
  exact ⟨done.1, done.2, rfl, sendings_dispatch _ _ _, world_dispatch_exact _ _⟩

end Events
end ReminderWorker
end CoffeeBuddy

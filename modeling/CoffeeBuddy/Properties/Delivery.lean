import CoffeeBuddy.Properties.Reminders
import CoffeeBuddy.Reminders.Recorder

/-! Delivery of reminders by the worker: each accepted reminder is attempted once, in order
and not early, a wait takes two sleeps, and what an attempt adds to the metrics. -/

namespace CoffeeBuddy
open ReminderWorker Contact

/-! ### Waiting -/

theorem Outside.Sleeps.recorded {σ : Type} {o : Outside σ} (h : o.Sleeps) : o.recorded.Sleeps :=
  fun w d hd => h w.1 d hd

theorem wait_ends_accurately {σ : Type} (worker : ReminderWorker)
    (htol : 0 ≤ worker.toleranceSeconds) (o : Outside σ) (target : Timestamp) (w : σ) :
    (o.Sleeps → ∀ fuel ≥ 3, ∃ reading w' cs,
      worker.waitUntil o.recorded target fuel (w, []) = some (reading, w', cs) ∧ sleeps cs ≤ 2 ∧
      ((o.clock w).1 < target → ∀ e, o.OvershootsBy e →
        target ≤ reading ∧ reading ≤ target + e) ∧
      (target ≤ (o.clock w).1 → reading = (o.clock w).1 ∧ sleeps cs = 0)) ∧
    ∀ fuel reading w', worker.waitUntil o target fuel w = some (reading, w') →
      target ≤ reading := by
  refine ⟨fun hsleeps fuel hfuel => ?_, fun fuel reading w' h => waitUntil_not_early h⟩
  have htol' : 0 ≤ worker.tolerance := mul_nonneg htol (by decide)
  obtain ⟨reading, ⟨w', cs⟩, hthree, hover⟩ := waitUntil_accurate worker target htol'
    hsleeps.recorded 0 (w, [])
  refine ⟨reading, w', cs, waitUntil_mono hfuel hthree, ?_, fun hwait e he => ?_, fun hdue => ?_⟩
  · obtain ⟨ds, hcs, -, hds⟩ := waitUntil_recorded hthree
    have hcount : sleeps cs = sleeps ds := by
      show sleeps (w', cs).2 = sleeps ds
      rw [hcs]
      simp [sleeps, isSleep]
    rw [hcount]
    exact Nat.le_of_lt_succ hds
  · exact ⟨waitUntil_not_early hthree, hover hwait e fun v d hd => he v.1 d hd⟩
  · have hnow : worker.waitUntil o.recorded target 3 (w, []) = some (o.recorded.clock (w, [])) :=
      waitUntil_due 2 hdue
    obtain ⟨hreading, hcs⟩ := Prod.mk.inj (Option.some.inj (hthree.symm.trans hnow))
    obtain ⟨-, rfl⟩ := Prod.mk.inj hcs
    exact ⟨hreading, rfl⟩

/-- Each sleep ends a second late. -/
def Sample.drowsy : Outside Timestamp where
  clock t := (t, t)
  sleep d t := t + d + second
  send _ _ t := (true, t)

open Sample in
theorem wait_ends_accurately_drowsy : ∃ reading w' cs,
    ({} : ReminderWorker).waitUntil drowsy.recorded noon.instant 3 (start, []) =
      some (reading, w', cs) ∧ sleeps cs ≤ 2 ∧
    noon.instant ≤ reading ∧ reading ≤ noon.instant + second := by
  have hsleeps : drowsy.Sleeps := fun w d _ => (le_add_iff_nonneg_right (w + d)).mpr (by decide)
  have hover : drowsy.OvershootsBy second := fun _ _ _ => le_rfl
  obtain ⟨reading, w', cs, hw, hcs, haccurate, -⟩ :=
    (wait_ends_accurately {} (by decide) drowsy noon.instant start).1 hsleeps 3 le_rfl
  exact ⟨reading, w', cs, hw, hcs, haccurate (by decide) second hover⟩

theorem Outside.Sleeps.eachWaitEnds {σ Bytes : Type} {worker : ReminderWorker} {o : Outside σ}
    {p : Pydantic Bytes} (h : o.Sleeps) (htol : 0 ≤ worker.tolerance)
    (messages : List (Fetched Bytes)) (st : WorkerState σ) :
    EachWaitEnds worker o p messages st := by
  intro before message after _ fuel st' ks _ event _ payload _
  obtain ⟨reading, w', hw, -⟩ := waitUntil_accurate worker payload.scheduledFor.instant htol h 0
    st'.world
  exact ⟨3, _, hw⟩

/-! ### A consumption nobody interrupts -/

theorem reminders_attempted_once {σ Bytes : Type} (worker : ReminderWorker) (o : Outside σ)
    (p : Pydantic Bytes) (messages : List (Fetched Bytes)) (w : σ)
    (hwaits : EachWaitEnds worker o.recorded p messages { world := (w, []) }) :
    ∃ least, ∀ fuel ≥ least, ∃ st ks,
      worker.consume o.recorded p fuel messages { world := (w, []) } = some (st, ks) ∧
      calls st.world.2 = (due p messages).map callOf ∧ Timely st.world.2 ∧
      ks.length = messages.length := by
  obtain ⟨least, ⟨st, ks⟩, hleast⟩ := consume_isSome hwaits
  refine ⟨least, fun fuel hfuel => ⟨st, ks, consume_mono hfuel hleast, ?_⟩⟩
  obtain ⟨cs, hworld, htimely, hcalls, hlength⟩ := consume_recorded hleast
  rw [List.nil_append] at hworld
  rw [hworld]
  exact ⟨hcalls, htimely, hlength⟩

namespace Sample

/-- A message without a correlation id, then the two reminders of the run at noon. -/
def fetched : List (Fetched EventFields) :=
  (noon, ⟨"reminder_scheduled", "", [], noon⟩) ::
    scheduled.2.map fun event => (noon, event.asBytes pydantic)

/-- The sender raises on runner reminders. -/
def faulty : Outside Timestamp := Outside.exact fun payload => payload.reminderType = .lastCall

end Sample

open Sample in
theorem reminders_attempted_once_faulty : ∃ least, ∀ fuel ≥ least, ∃ st ks,
    ({} : ReminderWorker).consume faulty.recorded pydantic fuel fetched { world := (start, []) } =
      some (st, ks) ∧
    calls st.world.2 = (due pydantic fetched).map callOf ∧ Timely st.world.2 ∧
    ks.length = fetched.length :=
  reminders_attempted_once {} faulty pydantic fetched start
    ((Outside.exact_sleeps _).recorded.eachWaitEnds (by decide) _ _)

/-! ### The outcome of an event -/

/-- What the sender does with the payload: `some true` when it returns, `none` when it is
not called. -/
def ReminderWorker.answer {σ : Type} (worker : ReminderWorker) (o : Outside σ) (fuel : ℕ)
    (payload : ReminderPayload) (st : WorkerState σ) : Option Bool :=
  if shouldDispatch payload then
    (worker.waitUntil o payload.scheduledFor.instant fuel st.world).map fun r =>
      (o.send payload.reminderType payload r.2).1
  else none

/-- One increment of `REMINDER_SEND_TOTAL`, with the status of what the sender did, which
also decides whether the handler raises. -/
structure OneOutcome {σ : Type} (payload : ReminderPayload) (answer : Option Bool)
    (st : WorkerState σ) (result : Except WorkerError Unit) (st' : WorkerState σ) : Prop where
  counted : ∃ status, st'.totals = st.totals ++ [(payload.reminderType, status)] ∧
    (status = .skipped ↔ shouldDispatch payload = false) ∧
    (status = .sent ↔ answer = some true) ∧ (status = .error ↔ answer = some false)
  raises : result.isOk = false ↔ answer = some false

section Outcome
variable {σ : Type} {o : Outside σ} {payload : ReminderPayload} {st : WorkerState σ}

/-- After a send that returned, the two statuses of an aware and a naive `scheduled_for`. -/
theorem dispatch_returned (reading : Timestamp)
    (h : (o.send payload.reminderType payload st.world).1 = true) :
    (dispatch o payload reading st).2.totals =
        st.totals ++ (payload.reminderType, .sent) ::
          (if payload.scheduledFor.utcoffset = none then [(payload.reminderType, .error)] else []) ∧
      ((dispatch o payload reading st).1.isOk = false ↔ payload.scheduledFor.utcoffset = none) := by
  simp only [dispatch, h, if_true]
  cases payload.scheduledFor.utcoffset with
  | none => exact ⟨List.append_assoc _ _ _, iff_of_true rfl rfl⟩
  | some d => exact ⟨rfl, iff_of_false Bool.noConfusion (Option.some_ne_none d)⟩

theorem dispatch_raised (reading : Timestamp)
    (h : (o.send payload.reminderType payload st.world).1 = false) :
    (dispatch o payload reading st).2.totals = st.totals ++ [(payload.reminderType, .error)] ∧
      (dispatch o payload reading st).1.isOk = false := by
  simp only [dispatch, h]
  exact ⟨rfl, rfl⟩

/-- A send that returned counts `sent`, and `error` too when the time is naive. -/
theorem oneOutcome_dispatch_returned (hdispatch : shouldDispatch payload = true)
    (reading : Timestamp) (h : (o.send payload.reminderType payload st.world).1 = true) :
    OneOutcome payload (some true) st (dispatch o payload reading st).1
        (dispatch o payload reading st).2 ↔ payload.scheduledFor.utcoffset ≠ none := by
  obtain ⟨htotals, hok⟩ := dispatch_returned reading h
  constructor
  · rintro ⟨⟨status, hcounted, -⟩, -⟩ hnaive
    rw [if_pos hnaive] at htotals
    have hlength := congrArg List.length (htotals.symm.trans hcounted)
    simp at hlength
  · intro haware
    rw [if_neg haware] at htotals
    refine ⟨⟨.sent, htotals, ?_⟩, iff_of_false (mt hok.mp haware) nofun⟩
    simp [hdispatch]

theorem oneOutcome_dispatch_raised (hdispatch : shouldDispatch payload = true)
    (reading : Timestamp) (h : (o.send payload.reminderType payload st.world).1 = false) :
    OneOutcome payload (some false) st (dispatch o payload reading st).1
      (dispatch o payload reading st).2 := by
  obtain ⟨htotals, hok⟩ := dispatch_raised reading h
  refine ⟨⟨.error, htotals, ?_⟩, iff_of_true hok rfl⟩
  simp [hdispatch]

theorem oneOutcome_skipped (hrefused : shouldDispatch payload = false) (st : WorkerState σ) :
    OneOutcome payload none st (.ok ())
      { st with totals := st.totals ++ [(payload.reminderType, .skipped)] } := by
  refine ⟨⟨.skipped, rfl, ?_⟩, iff_of_false nofun nofun⟩
  simp [hrefused]

theorem OneOutcome.of_world {answer : Option Bool} {result : Except WorkerError Unit}
    {st' : WorkerState σ} {w : σ} :
    OneOutcome payload answer { st with world := w } result st' ↔
      OneOutcome payload answer st result st' :=
  ⟨fun h => ⟨h.counted, h.raises⟩, fun h => ⟨h.counted, h.raises⟩⟩

end Outcome

theorem one_outcome_iff {σ Bytes : Type} (worker : ReminderWorker) (o : Outside σ)
    (p : Pydantic Bytes) (event : KafkaEvent) (payload : ReminderPayload)
    (hvalid : ReminderPayload.modelValidate p event.payload = some payload) (fuel : ℕ)
    (st : WorkerState σ) (hwait : shouldDispatch payload = true →
      (worker.waitUntil o payload.scheduledFor.instant fuel st.world).isSome = true) :
    ∃ result st', worker.processEvent o p fuel event st = some (result, st') ∧
      (OneOutcome payload (worker.answer o fuel payload st) st result st' ↔
        ¬(worker.answer o fuel payload st = some true ∧
          payload.scheduledFor.utcoffset = none)) := by
  unfold processEvent ReminderWorker.answer
  simp only [hvalid]
  by_cases hdispatch : shouldDispatch payload = true
  · obtain ⟨⟨reading, world⟩, hw⟩ := Option.isSome_iff_exists.mp (hwait hdispatch)
    set st₁ : WorkerState σ := { st with world := world }
    simp only [hdispatch, if_true, hw, Option.map_some]
    refine ⟨(dispatch o payload reading st₁).1, (dispatch o payload reading st₁).2, rfl, ?_⟩
    rw [← OneOutcome.of_world (w := world)]
    cases hsend : (o.send payload.reminderType payload world).1 with
    | true =>
      rw [oneOutcome_dispatch_returned hdispatch reading hsend]
      exact not_congr (and_iff_right rfl).symm
    | false => exact iff_of_true (oneOutcome_dispatch_raised hdispatch reading hsend) nofun
  · have hrefused : shouldDispatch payload = false := Bool.eq_false_iff.mpr hdispatch
    simp only [hrefused, Bool.false_eq_true, if_false]
    exact ⟨_, _, rfl, iff_of_true (oneOutcome_skipped hrefused st) nofun⟩

/-! ### A naive time -/

namespace Sample

/-- A runner reminder for 11:55, without an offset. -/
def naivePayload : ReminderPayload :=
  { reminderId := "runner-rem", runId := "run-1", channelId := "C7", runnerUserId := some "U777"
    reminderType := .runner, scheduledFor := ⟨runnerTime.wall, none, runnerTime.inRange⟩
    reminderOffsetMinutes := 5 }

def naiveEvent : KafkaEvent :=
  ⟨"reminder_scheduled", "corr-1", naivePayload.modelDump, noon, by decide⟩

def delivering : Outside Timestamp := Outside.exact fun _ => true

theorem naive_facts : ReminderPayload.modelValidate pydantic naiveEvent.payload = some naivePayload ∧
    (({} : ReminderWorker).waitUntil delivering naivePayload.scheduledFor.instant 3 start).isSome =
      true ∧
    (({} : ReminderWorker).processEvent delivering pydantic 3 naiveEvent { world := start }).map
      (fun r => r.2.totals) = some [(.runner, .sent), (.runner, .error)] := by
  decide +kernel

end Sample

open Sample in
/-- The sender returns, and the event is counted as sent and as failed. -/
theorem naive_reminder_counted_twice :
    ReminderPayload.modelValidate pydantic naiveEvent.payload = some naivePayload ∧
    ∃ result st', ({} : ReminderWorker).processEvent delivering pydantic 3 naiveEvent
        { world := start } = some (result, st') ∧
      ¬OneOutcome naivePayload (({} : ReminderWorker).answer delivering 3 naivePayload
        { world := start }) { world := start } result st' := by
  obtain ⟨hvalid, -, htotals⟩ := naive_facts
  obtain ⟨⟨result, st'⟩, hprocess, htotals⟩ := Option.map_eq_some_iff.mp htotals
  refine ⟨hvalid, result, st', hprocess, ?_⟩
  rintro ⟨⟨status, hcounted, -⟩, -⟩
  have hlength := congrArg List.length (hcounted.symm.trans htotals)
  simp at hlength

open Sample in
theorem one_outcome_iff_noon : ∃ result st', ({} : ReminderWorker).processEvent delivering pydantic 3
      naiveEvent { world := start } = some (result, st') ∧
    (OneOutcome naivePayload (({} : ReminderWorker).answer delivering 3 naivePayload
        { world := start }) { world := start } result st' ↔
      ¬(({} : ReminderWorker).answer delivering 3 naivePayload { world := start } = some true ∧
        naivePayload.scheduledFor.utcoffset = none)) :=
  one_outcome_iff {} delivering pydantic naiveEvent naivePayload naive_facts.1 3 { world := start }
    fun _ => naive_facts.2.1

end CoffeeBuddy

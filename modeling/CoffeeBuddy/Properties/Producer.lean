import CoffeeBuddy.Kafka.Producer
import CoffeeBuddy.Library.LastWrite
import CoffeeBuddy.Properties.Reminders

/-! What `send` reaches. A client whose start has failed stays in the field, where `send`
finds it and `start` takes it for a started one, until `stop` clears the field. -/

namespace CoffeeBuddy
open Transaction Transition Held

namespace KafkaEventProducer
variable {Bytes : Type}

def startOutcome (e : Event Bytes) : Option (Unit × Bool) :=
  match e.label with
  | (.start _, result) => some ((), result.isOk)
  | _ => none

def stops (e : Event Bytes) (_ : Unit) : Prop := e.label.1 = .stop

/-- The last `start()` has raised. -/
def StartFailed (es : List (Event Bytes)) : Prop :=
  LastWrite.IsLast startOutcome (fun _ _ => False) es () false

/-- The last `start()` has raised, and `stop()` has not been called since. -/
def Unstopped (es : List (Event Bytes)) : Prop := LastWrite.IsLast startOutcome stops es () false

/-- What a call after the calls `es` should do. -/
def Good (es : List (Event Bytes)) (e : Event Bytes) : Prop :=
  match e.label.1 with
  | .send _ _ =>
    (∀ i m, e.after.sent = e.before.sent ++ [(i, m)] →
      e.before.producer.clients[i]? = some .running) ∧
    (e.before.producer.Idle → ∃ message, e.label.2 = .error (.runtimeError message))
  | .start _ => StartFailed es →
    e.after.producer = ⟨some e.before.producer.clients.length,
      e.before.producer.clients ++ [if e.label.2.isOk then .running else .built]⟩
  | .stop => True

/-- `stop()` comes before any other call after a failed start. -/
def Cleared (es : List (Event Bytes)) (e : Event Bytes) : Prop :=
  e.label.1 ≠ .stop → ¬Unstopped es

/-! ### One call -/

section Calls
variable {es : List (Event Bytes)} {e : Event Bytes} {clears : Event Bytes → Unit → Prop}

theorem isLast_of_start {starts : Bool} (h : e.label.1 = .start starts) :
    LastWrite.IsLast startOutcome clears (es ++ [e]) () false ↔ e.label.2.isOk = false := by
  have hwrite : startOutcome e = some ((), e.label.2.isOk) := by
    obtain ⟨before, ⟨call, result⟩, after⟩ := e
    obtain rfl : call = .start starts := h
    rfl
  rw [LastWrite.isLast_snoc, hwrite]
  simp

theorem isLast_of_other (h : ∀ starts, e.label.1 ≠ .start starts) :
    LastWrite.IsLast startOutcome clears (es ++ [e]) () false ↔
      ¬clears e () ∧ LastWrite.IsLast startOutcome clears es () false := by
  have hwrite : startOutcome e = none := by
    obtain ⟨before, ⟨call, result⟩, after⟩ := e
    cases call with
    | start starts => exact absurd rfl (h starts)
    | stop => rfl
    | send accepts message => rfl
  rw [LastWrite.isLast_snoc, hwrite]
  simp

/-- The field is what the calls so far make it. -/
structure Tracks (es : List (Event Bytes)) (x : Field) : Prop where
  sole : x.Sole
  unstopped : Unstopped es ↔ x.Holds .built
  startFailed : StartFailed es → x.held = none ∨ x.Holds .built

theorem tracks_nil : Tracks ([] : List (Event Bytes)) {} := by
  have hnone : ∀ clears, ¬LastWrite.IsLast (@startOutcome Bytes) clears [] () false := by
    rintro clears ⟨es₁, f, es₂, h, -⟩
    simp at h
  refine ⟨Field.sole_empty, iff_of_false (hnone _) ?_, fun h => absurd h (hnone _)⟩
  rintro ⟨i, hi, -⟩
  exact nomatch hi

end Calls

section Steps
variable {p : Pydantic Bytes} {es : List (Event Bytes)} {e : Event Bytes}

/-- What a call can do to the field. -/
inductive Effect (e : Event Bytes) : Prop
  | kept {starts : Bool} {i : ℕ} : e.label = (.start starts, .ok ()) →
      e.before.producer.held = some i → e.after.producer = e.before.producer → Effect e
  | started : e.label = (.start true, .ok ()) → e.before.producer.held = none →
      e.after.producer = e.before.producer.build.mark .running → Effect e
  | failed : e.label = (.start false, .error .client) → e.before.producer.held = none →
      e.after.producer = e.before.producer.build → Effect e
  | stopped : e.label = (.stop, .ok ()) → e.after.producer = e.before.producer.release → Effect e
  | refused {accepts : Bool} {message : Message} {text : String} :
      e.label = (.send accepts message, .error (.runtimeError text)) →
      e.before.producer.held = none → e.after = e.before → Effect e
  | sent {accepts : Bool} {message : Message} {i : ℕ} {m : Sent Bytes} :
      e.label = (.send accepts message, if accepts then .ok () else .error .client) →
      e.before.producer.held = some i → e.after.sent = e.before.sent ++ [(i, m)] →
      e.after.producer = e.before.producer → Effect e

theorem effect_of_step (h : Step p e.before e.label e.after) : Effect e := by
  obtain ⟨before, ⟨call, result⟩, after⟩ := e
  unfold Step at h
  cases call with
  | start starts =>
    dsimp only [Call.program] at h
    cases hheld : before.producer.held with
    | some i =>
      rw [exec_start_held starts hheld] at h
      obtain ⟨rfl, rfl⟩ := Prod.mk.inj h
      exact .kept rfl hheld rfl
    | none =>
      rw [exec_start_none starts hheld] at h
      cases starts with
      | true =>
        obtain ⟨rfl, rfl⟩ := Prod.mk.inj h
        exact .started rfl hheld rfl
      | false =>
        obtain ⟨rfl, rfl⟩ := Prod.mk.inj h
        exact .failed rfl hheld rfl
  | stop =>
    dsimp only [Call.program] at h
    rw [exec_stop] at h
    obtain ⟨rfl, rfl⟩ := Prod.mk.inj h
    exact .stopped rfl rfl
  | send accepts message =>
    dsimp only [Call.program] at h
    cases hheld : before.producer.held with
    | none =>
      rw [exec_send_none accepts message hheld] at h
      obtain ⟨rfl, rfl⟩ := Prod.mk.inj h
      exact .refused rfl hheld rfl
    | some i =>
      rw [exec_send_held accepts message hheld] at h
      obtain ⟨rfl, rfl⟩ := Prod.mk.inj h
      exact .sent rfl hheld rfl rfl

theorem Tracks.start_ok {starts : Bool} {x : Field} (hlabel : e.label = (.start starts, .ok ()))
    (hsole : x.Sole) (hbuilt : ¬x.Holds .built) : Tracks (es ++ [e]) x := by
  have hcall : e.label.1 = .start starts := by rw [hlabel]
  have hnot : ∀ clears, ¬LastWrite.IsLast startOutcome clears (es ++ [e]) () false := by
    intro clears hlast
    have hfalse := (isLast_of_start hcall).mp hlast
    rw [hlabel] at hfalse
    exact nomatch hfalse
  exact ⟨hsole, iff_of_false (hnot _) hbuilt, fun hlast => absurd hlast (hnot _)⟩

theorem Tracks.send (h : Tracks es e.before.producer) {accepts : Bool} {message : Message}
    (hcall : e.label.1 = .send accepts message) (hsame : e.after.producer = e.before.producer) :
    Tracks (es ++ [e]) e.after.producer := by
  have hother : ∀ starts, e.label.1 ≠ .start starts := fun starts => by
    rw [hcall]
    exact Call.noConfusion
  have hnot : ¬stops e () := by
    unfold stops
    rw [hcall]
    exact Call.noConfusion
  rw [hsame]
  refine ⟨h.sole, ?_, fun hlast => ?_⟩
  · rw [Unstopped, isLast_of_other hother, and_iff_right hnot]
    exact h.unstopped
  · exact h.startFailed ((isLast_of_other hother).mp hlast).2

theorem Tracks.snoc (h : Tracks es e.before.producer) (he : Effect e) (hcleared : Cleared es e) :
    Tracks (es ++ [e]) e.after.producer := by
  cases he with
  | kept hlabel hheld hsame =>
    -- an early return from a failed start would leave its client in the field
    have hbuilt : ¬e.before.producer.Holds .built := by
      intro hbuilt
      refine hcleared ?_ (h.unstopped.mpr hbuilt)
      rw [hlabel]
      exact Call.noConfusion
    rw [hsame]
    exact .start_ok hlabel h.sole hbuilt
  | started hlabel hheld hafter =>
    rw [hafter]
    refine .start_ok hlabel (h.sole.started hheld) fun hbuilt => ?_
    exact Phase.noConfusion (hbuilt.unique Field.holds_mark_build)
  | failed hlabel hheld hafter =>
    have hcall : e.label.1 = .start false := by rw [hlabel]
    have hlast : ∀ clears, LastWrite.IsLast startOutcome clears (es ++ [e]) () false := by
      intro clears
      apply (isLast_of_start hcall).mpr
      rw [hlabel]
      rfl
    rw [hafter]
    exact ⟨h.sole.build hheld, iff_of_true (hlast _) Field.holds_build,
      fun _ => Or.inr Field.holds_build⟩
  | stopped hlabel hafter =>
    have hother : ∀ starts, e.label.1 ≠ .start starts := fun starts => by
      rw [hlabel]
      exact Call.noConfusion
    have hstops : stops e () := by rw [stops, hlabel]
    rw [hafter]
    refine ⟨h.sole.release, iff_of_false (fun hlast => ?_) ?_, fun _ => Or.inl rfl⟩
    · exact ((isLast_of_other hother).mp hlast).1 hstops
    · rintro ⟨i, hi, -⟩
      exact nomatch hi
  | refused hlabel hheld hafter => exact h.send (by rw [hlabel]) (by rw [hafter])
  | sent hlabel hheld hsent hsame => exact h.send (by rw [hlabel]) hsame

theorem good_iff_cleared (h : Tracks es e.before.producer) (he : Effect e) :
    Good es e ↔ Cleared es e := by
  have hempty : e.before.producer.held = none → ¬e.before.producer.Holds .built :=
    fun hnone hbuilt => hbuilt.held_ne_none hnone
  unfold Good Cleared
  rw [h.unstopped]
  cases he with
  | kept hlabel hheld hsame =>
    rw [hlabel, hsame]
    constructor
    · intro hgood _ hbuilt
      have hbuild := hgood (h.unstopped.mpr hbuilt).unclear
      -- a start that returns at once builds nothing
      have hlength := congrArg (fun x => x.clients.length) hbuild
      simp at hlength
    · intro hcleared hfailed
      rcases h.startFailed hfailed with hnone | hbuilt
      · exact nomatch hheld.symm.trans hnone
      · exact absurd hbuilt (hcleared Call.noConfusion)
  | started hlabel hheld hafter =>
    rw [hlabel]
    exact iff_of_true (fun _ => hafter.trans Field.mark_build) fun _ => hempty hheld
  | failed hlabel hheld hafter =>
    rw [hlabel]
    exact iff_of_true (fun _ => hafter) fun _ => hempty hheld
  | stopped hlabel hafter =>
    rw [hlabel]
    exact iff_of_true trivial fun hne => absurd rfl hne
  | refused hlabel hheld hafter =>
    rw [hlabel]
    refine iff_of_true ⟨fun i m hsent => ?_, fun _ => ⟨_, rfl⟩⟩ fun _ => hempty hheld
    rw [hafter] at hsent
    simp at hsent
  | @sent accepts message i m hlabel hheld hsent hkept =>
    rw [hlabel]
    constructor
    · intro hgood _ hbuilt
      have hrunning : e.before.producer.Holds .running := ⟨i, hheld, hgood.1 i m hsent⟩
      exact Phase.noConfusion (hbuilt.unique hrunning)
    · intro hcleared
      have hrunning : e.before.producer.clients[i]? = some .running := by
        rcases h.sole.kept i hheld with hbuilt | ⟨j, hj, hphase⟩
        · exact absurd hbuilt (hcleared Call.noConfusion)
        · obtain rfl := Option.some.inj (hheld.symm.trans hj)
          exact hphase
      refine ⟨fun j m' hj => ?_, fun hidle => absurd hrunning (hidle i)⟩
      have hsame := List.singleton_inj.mp (List.append_cancel_left (hsent.symm.trans hj))
      obtain ⟨rfl, -⟩ := Prod.mk.inj hsame
      exact hrunning

/-! ### Runs -/

theorem Tracks.run {s : State Bytes} (h : Run p {} es s) (hcleared : Throughout Cleared es) :
    Tracks es s.producer := by
  induction h with
  | nil => exact tracks_nil
  | snoc path last ih =>
    obtain ⟨hes, he⟩ := throughout_snoc.mp hcleared
    exact (ih hes).snoc (effect_of_step last) he

end Steps

/-- The calls of a run do what they should as long as `stop()` follows every failed start. -/
theorem good_iff_cleared_throughout (p : Pydantic Bytes) (es : List (Event Bytes)) (s : State Bytes)
    (h : Run p {} es s) : Throughout Good es ↔ Throughout Cleared es := by
  induction h with
  | nil => exact iff_of_true (throughout_nil _) (throughout_nil _)
  | snoc path last ih =>
    rw [throughout_snoc, throughout_snoc, ih]
    -- the field is known as long as the calls before have met the condition
    exact and_congr_right fun hcleared =>
      good_iff_cleared (Tracks.run path hcleared) (effect_of_step last)

end KafkaEventProducer

/-! ### A broker that cannot be reached -/

namespace Sample
open KafkaEventProducer

def runCreated : Message where
  topic := "coffeebuddy.run.events"
  event := ⟨"run_created", "corr-123", [("run_id", .str "run-1")], noon, by decide⟩
  key := some "run-1"

def unreached : KafkaEventProducer.State EventFields := { producer := ⟨some 0, [.built]⟩ }

def misdirected : KafkaEventProducer.State EventFields :=
  { unreached with
    sent := [(0, runCreated.encoded pydantic)]
    produceTotal := [("coffeebuddy.run.events", .error)] }

def given : KafkaEventProducer.State EventFields := { producer := ⟨none, [.stopped]⟩ }

def regained : KafkaEventProducer.State EventFields :=
  { producer := ⟨some 1, [.stopped, .running]⟩ }

def failedStart : KafkaEventProducer.Event EventFields :=
  ⟨{}, (.start false, .error .client), unreached⟩

/-- The message goes to the client that could not be started. -/
def sending : List (KafkaEventProducer.Event EventFields) :=
  [failedStart, ⟨unreached, (.send false runCreated, .error .client), misdirected⟩]

/-- The broker is back, and the start is called again. -/
def starting : List (KafkaEventProducer.Event EventFields) :=
  [failedStart, ⟨unreached, (.start true, .ok ()), unreached⟩]

def stopping : List (KafkaEventProducer.Event EventFields) :=
  [failedStart, ⟨unreached, (.stop, .ok ()), given⟩, ⟨given, (.start true, .ok ()), regained⟩]

theorem step_failedStart :
    KafkaEventProducer.Step pydantic failedStart.before failedStart.label failedStart.after := rfl

theorem run_sending : KafkaEventProducer.Run pydantic {} sending misdirected := by
  have hsend : KafkaEventProducer.Step pydantic unreached
      (.send false runCreated, .error .client) misdirected := rfl
  exact .cons step_failedStart (.cons (e := ⟨_, _, _⟩) hsend .nil)

theorem run_starting : KafkaEventProducer.Run pydantic {} starting unreached := by
  have hstart : KafkaEventProducer.Step pydantic unreached (.start true, .ok ()) unreached := rfl
  exact .cons step_failedStart (.cons (e := ⟨_, _, _⟩) hstart .nil)

theorem run_stopping : KafkaEventProducer.Run pydantic {} stopping regained := by
  have hstop : KafkaEventProducer.Step pydantic unreached (.stop, .ok ()) given := rfl
  have hstart : KafkaEventProducer.Step pydantic given (.start true, .ok ()) regained := rfl
  exact .cons step_failedStart (.cons (e := ⟨_, _, _⟩) hstop (.cons (e := ⟨_, _, _⟩) hstart .nil))

end Sample

open Sample KafkaEventProducer in
/-- After the failed start one run sends and the other starts again. -/
theorem producer_keeps_unstarted_client :
    (KafkaEventProducer.Run pydantic {} sending misdirected ∧ ¬Throughout Good sending) ∧
    KafkaEventProducer.Run pydantic {} starting unreached ∧ ¬Throughout Good starting := by
  refine ⟨⟨run_sending, fun hgood => ?_⟩, run_starting, fun hgood => ?_⟩
  · have hsend := hgood [failedStart] _ [] rfl
    exact Phase.noConfusion (Option.some.inj (hsend.1 0 _ rfl))
  · have hstart := hgood [failedStart] _ [] rfl
    have hfailed : StartFailed [failedStart] :=
      ⟨[], failedStart, [], rfl, rfl, fun f hf => absurd hf List.not_mem_nil⟩
    have hlength := congrArg (fun x => x.clients.length) (hstart hfailed)
    exact absurd hlength (by decide)

open Sample KafkaEventProducer in
theorem good_iff_cleared_stopping : Throughout Good stopping ↔ Throughout Cleared stopping :=
  good_iff_cleared_throughout pydantic stopping regained run_stopping

end CoffeeBuddy

import CoffeeBuddy.Library.Held
import CoffeeBuddy.Library.Path
import CoffeeBuddy.Library.Program
import CoffeeBuddy.Reminders.Events

/-! `KafkaEventProducer`: the client is built and kept before its start is awaited, and
`send` goes to the client that is kept. -/

namespace CoffeeBuddy
open Transaction

inductive ProducerError where
  | runtimeError (message : String)
  /-- What a method of the client raises. -/
  | client
deriving DecidableEq

inductive ProduceStatus where
  | success | error
deriving DecidableEq

namespace KafkaEventProducer

/-- The arguments of `send`; of the topic only its name. -/
structure Message where
  topic : String
  event : KafkaEvent
  key : Option String := none
  headers : Option (List (String × ByteArray)) := none

structure Sent (Bytes : Type) where
  topic : String
  value : Bytes
  key : Option ByteArray
  headers : Option (List (String × ByteArray))

/-- The field `_producer`, what has reached each client and `KAFKA_PRODUCE_TOTAL`. -/
structure State (Bytes : Type) where
  producer : Held.Field := {}
  sent : List (ℕ × Sent Bytes) := []
  produceTotal : List (String × ProduceStatus) := []

variable {Bytes : Type}

/-- `starts` when the start of the client, if it comes to that, succeeds. -/
def start (starts : Bool) : Program (State Bytes) ProducerError Unit := do
  let held ← Program.query fun s => s.producer.held
  if held.isSome then return
  Program.execute fun s => .ok { s with producer := s.producer.build }
  Program.execute fun s =>
    if starts then .ok { s with producer := s.producer.mark .running } else .error .client

def stop : Program (State Bytes) ProducerError Unit := do
  let held ← Program.query fun s => s.producer.held
  if held.isNone then return
  Program.execute fun s => .ok { s with producer := s.producer.mark .stopped }
  Program.execute fun s => .ok { s with producer := s.producer.drop }

variable (p : Pydantic Bytes)

def Message.encoded (message : Message) : Sent Bytes where
  topic := message.topic
  value := message.event.asBytes p
  key := (message.key.filter fun key => key ≠ "").map String.toUTF8
  headers := message.headers

/-- `accepts` when the client takes the message. -/
def send (accepts : Bool) (message : Message) : Program (State Bytes) ProducerError Unit := do
  let held ← Program.query fun s => s.producer.held
  match held with
  | none =>
    Program.raise (.runtimeError "KafkaEventProducer.start() must be called before send().")
  | some i =>
    Program.execute fun s => .ok { s with sent := s.sent ++ [(i, message.encoded p)] }
    let status : ProduceStatus := if accepts then .success else .error
    Program.execute fun s => .ok
      { s with produceTotal := s.produceTotal ++ [(message.topic, status)] }
    if accepts then return else Program.raise .client

/-! ### What each method does -/

section Methods
variable {p} {s : State Bytes} {i : ℕ}

theorem exec_start_held (starts : Bool) (h : s.producer.held = some i) :
    (start starts).exec s = (.ok (), s) := by
  unfold start
  rw [Program.exec_bind]
  simp only [Program.query, Program.exec, h, Option.isSome_some, if_true]
  rfl

theorem exec_start_none (starts : Bool) (h : s.producer.held = none) :
    (start starts).exec s =
      if starts then (.ok (), { s with producer := s.producer.build.mark .running })
      else (.error .client, { s with producer := s.producer.build }) := by
  unfold start
  rw [Program.exec_bind]
  simp only [Program.query, Program.exec, h, Option.isSome_none]
  cases starts <;> rfl

theorem exec_stop : (@stop Bytes).exec s =
    (.ok (), { s with producer := s.producer.release }) := by
  unfold stop
  rw [Program.exec_bind]
  cases h : s.producer.held with
  | none =>
    simp only [Program.query, Program.exec, h, Option.isNone_none, if_true]
    rw [Held.Field.release_of_none h]
    rfl
  | some i =>
    simp only [Program.query, Program.exec, h, Option.isNone_some]
    rfl

theorem exec_send_none (accepts : Bool) (message : Message) (h : s.producer.held = none) :
    (send p accepts message).exec s = (.error (.runtimeError
      "KafkaEventProducer.start() must be called before send()."), s) := by
  unfold send
  rw [Program.exec_bind]
  simp only [Program.query, Program.exec, h]

theorem exec_send_held (accepts : Bool) (message : Message) (h : s.producer.held = some i) :
    (send p accepts message).exec s =
      (if accepts then .ok () else .error .client, { s with
        sent := s.sent ++ [(i, message.encoded p)]
        produceTotal := s.produceTotal ++
          [(message.topic, if accepts then .success else .error)] }) := by
  unfold send
  rw [Program.exec_bind]
  simp only [Program.query, Program.exec, h]
  cases accepts <;> rfl

end Methods

/-! ### Runs -/

inductive Call where
  | start (starts : Bool)
  | stop
  | send (accepts : Bool) (message : Message)

def Call.program : Call → Program (State Bytes) ProducerError Unit
  | .start starts => KafkaEventProducer.start starts
  | .stop => KafkaEventProducer.stop
  | .send accepts message => KafkaEventProducer.send p accepts message

abbrev Label := Call × Except ProducerError Unit

def Step (s : State Bytes) (label : Label) (t : State Bytes) : Prop :=
  (label.1.program p).exec s = (label.2, t)

abbrev Event (Bytes : Type) := Transition.Event (State Bytes) Label

abbrev Run := Transition.Path (Step p)

end KafkaEventProducer
end CoffeeBuddy

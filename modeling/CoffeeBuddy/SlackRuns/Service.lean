import CoffeeBuddy.Library.Path
import CoffeeBuddy.SlackRuns.Messages

/-! One slash command: its run is flushed, its event published, its message built, and
then the session commits. Each step may fail; the session rolls its rows back, the topic
keeps what it has been sent. -/

namespace CoffeeBuddy
open Transaction

/-- The steps of the request that fail. -/
structure Faults where
  flush : Bool := false
  publish : Bool := false
  commit : Bool := false

inductive RequestError where
  | flush | publish | commit | overflowError
deriving DecidableEq

/-- The database and the topic of the run events. -/
structure Platform (σ : Type) where
  db : σ
  topic : List RunCreatedEvent

/-- A slash command past its parser, with what the handler draws. -/
structure SlashCommand where
  command : SlackCommandPayload
  options : RunCommandOptions
  now : Datetime
  runId : Uuid
  correlationId : Uuid
  faults : Faults := {}

/-- The row of the command. -/
def SlashCommand.run (c : SlashCommand) : Models.Run :=
  { id := c.runId.str, channelId := c.command.channelId, initiatorUserId := c.command.userId
    status := "open", pickupTime := c.options.pickupTime, pickupNote := c.options.pickupNote
    correlationId := c.correlationId.str, startedAt := c.now, createdAt := c.now, updatedAt := c.now }

section Service
variable {σ α : Type} (insert : Models.Run → σ → Option σ)

/-- `session.flush()`: the database may refuse the row. -/
def flush (faults : Faults) (run : Models.Run) : Program (Platform σ) RequestError Unit :=
  Program.execute fun p =>
    if faults.flush then .error .flush
    else match insert run p.db with
      | some db => .ok { p with db }
      | none => .error .flush

def publishRunCreated (faults : Faults) (event : RunCreatedEvent) :
    Program (Platform σ) RequestError Unit :=
  Program.execute fun p =>
    if faults.publish then .error .publish else .ok { p with topic := p.topic ++ [event] }

def Models.Run.created (run : Models.Run) : RunCreatedEvent :=
  { runId := run.id, channelId := run.channelId, initiatorUserId := run.initiatorUserId
    pickupTime := run.pickupTime.map fun t => t.isoformat, pickupNote := run.pickupNote
    correlationId := run.correlationId, createdAt := run.startedAt.isoformat }

/-- `SlackRunCommandService.handle` -/
def handle (c : SlashCommand) : Program (Platform σ) RequestError Json := do
  flush insert c.faults c.run
  publishRunCreated c.faults c.run.created
  match SlackMessageBuilder.buildRunCreated c.run with
  | some response => return response
  | none => Program.raise .overflowError

def ephemeral (text : String) : Json :=
  .dict [("response_type", .str "ephemeral"), ("text", .str text)]

/-- `handle_slack_command`, from the parsed options on. -/
def handleSlackCommand (c : SlashCommand) : Program (Platform σ) RequestError Json :=
  if c.options.hasErrors then return ephemeral ("\n".intercalate (c.options.errors.getD []))
  else handle insert c

/-- `_session_manager` around the handler. -/
def inSession (faults : Faults) (handler : Program (Platform σ) RequestError α) (p : Platform σ) :
    Except RequestError α × Platform σ :=
  match handler.exec p with
  | (.ok a, q) => if faults.commit then (.error .commit, { q with db := p.db }) else (.ok a, q)
  | (.error e, q) => (.error e, { q with db := p.db })

def serve (c : SlashCommand) (p : Platform σ) : Except RequestError Json × Platform σ :=
  inSession c.faults (handleSlackCommand insert c) p

/-! ### What a request does -/

/-- The request gets as far as its event. -/
def SlashCommand.Publishes (c : SlashCommand) (p : Platform σ) : Prop :=
  c.options.hasErrors = false ∧ c.faults.flush = false ∧ (insert c.run p.db).isSome ∧
    c.faults.publish = false

/-- What follows the event goes through. -/
def SlashCommand.Finishes (c : SlashCommand) : Prop :=
  c.faults.commit = false ∧ SlackMessageBuilder.Displayable c.options.pickupTime

variable {insert} {c : SlashCommand} {p : Platform σ}

theorem exec_flush (faults : Faults) (run : Models.Run) :
    (flush insert faults run).exec p =
      if faults.flush then (.error .flush, p) else match insert run p.db with
        | some db => (.ok (), { p with db })
        | none => (.error .flush, p) := by
  unfold flush Program.execute
  simp only [Program.exec]
  split_ifs
  · rfl
  · cases insert run p.db <;> rfl

theorem exec_publishRunCreated (faults : Faults) (event : RunCreatedEvent) :
    (publishRunCreated (σ := σ) faults event).exec p =
      if faults.publish then (.error .publish, p)
      else (.ok (), { p with topic := p.topic ++ [event] }) := by
  unfold publishRunCreated Program.execute
  simp only [Program.exec]
  split_ifs <;> rfl

theorem exec_handle {db : σ} (hflush : c.faults.flush = false) (hdb : insert c.run p.db = some db)
    (hpublish : c.faults.publish = false) :
    (handle insert c).exec p =
      ((match SlackMessageBuilder.buildRunCreated c.run with
        | some response => .ok response
        | none => .error .overflowError), { db, topic := p.topic ++ [c.run.created] }) := by
  unfold handle
  rw [Program.exec_bind, exec_flush, hflush, hdb]
  simp only [Bool.false_eq_true, if_false]
  rw [Program.exec_bind, exec_publishRunCreated, hpublish]
  simp only [Bool.false_eq_true, if_false]
  cases SlackMessageBuilder.buildRunCreated c.run <;> rfl

/-- A request that raises before its event leaves nothing behind. -/
theorem exec_handle_of_not_publishes (herrors : c.options.hasErrors = false)
    (h : ¬c.Publishes insert p) :
    ∃ e q, (handle insert c).exec p = (.error e, q) ∧ q.topic = p.topic := by
  unfold handle
  rw [Program.exec_bind, exec_flush]
  cases hflush : c.faults.flush with
  | true => exact ⟨.flush, p, rfl, rfl⟩
  | false =>
    simp only [Bool.false_eq_true, if_false]
    cases hdb : insert c.run p.db with
    | none => exact ⟨.flush, p, rfl, rfl⟩
    | some db =>
      cases hpublish : c.faults.publish with
      | false =>
        have hsome : (insert c.run p.db).isSome := by rw [hdb]; rfl
        exact absurd ⟨herrors, hflush, hsome, hpublish⟩ h
      | true =>
        dsimp only
        rw [Program.exec_bind, exec_publishRunCreated, if_pos hpublish]
        exact ⟨.publish, _, rfl, rfl⟩

theorem serve_of_not_publishes (h : ¬c.Publishes insert p) : (serve insert c p).2 = p := by
  unfold serve inSession handleSlackCommand
  cases herrors : c.options.hasErrors with
  | true =>
    rw [if_pos rfl]
    cases c.faults.commit <;> rfl
  | false =>
    obtain ⟨e, q, hexec, htopic⟩ := exec_handle_of_not_publishes herrors h
    rw [if_neg Bool.false_ne_true, hexec]
    show { q with db := p.db } = p
    rw [htopic]

theorem serve_of_publishes {db : σ} (h : c.Publishes insert p) (hdb : insert c.run p.db = some db) :
    (c.Finishes → (serve insert c p).2 = { db, topic := p.topic ++ [c.run.created] }) ∧
    (¬c.Finishes → (serve insert c p).2 = { p with topic := p.topic ++ [c.run.created] }) := by
  obtain ⟨herrors, hflush, -, hpublish⟩ := h
  have hexec := exec_handle hflush hdb hpublish
  unfold serve inSession handleSlackCommand SlashCommand.Finishes
  rw [herrors, if_neg Bool.false_ne_true, hexec]
  cases hmessage : SlackMessageBuilder.buildRunCreated c.run with
  | none =>
    have hdisplay := SlackMessageBuilder.buildRunCreated_eq_none.mp hmessage
    exact ⟨fun hf => absurd hf.2 hdisplay, fun _ => rfl⟩
  | some response =>
    have hdisplay : SlackMessageBuilder.Displayable c.options.pickupTime := by
      by_contra hnot
      have hnone : SlackMessageBuilder.buildRunCreated c.run = none :=
        SlackMessageBuilder.buildRunCreated_eq_none.mpr hnot
      exact absurd (hnone.symm.trans hmessage) (Option.some_ne_none response).symm
    cases hcommit : c.faults.commit with
    | false => exact ⟨fun _ => rfl, fun hf => absurd ⟨rfl, hdisplay⟩ hf⟩
    | true => exact ⟨fun hf => absurd hf.1 (by decide), fun _ => rfl⟩

end Service
end CoffeeBuddy

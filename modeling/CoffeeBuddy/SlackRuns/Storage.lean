import CoffeeBuddy.Data.Constraints
import CoffeeBuddy.SlackRuns.Service

/-! A row of the slash commands in the table `runs` of the schema: its id columns are
UUIDs with foreign keys, so the database reads the texts and looks the parents up. -/

namespace CoffeeBuddy
open Relational

/-- The `CHECK` of `runs.status`. -/
def RunStatus.ofText : String → Option RunStatus
  | "open" => some .open
  | "closed" => some .closed
  | "canceled" => some .canceled
  | "failed" => some .failed
  | _ => none

/-- The stored row; `uuidIn` is the database's reading of a text as a UUID. Columns the
model does not map are `NULL`. -/
def storedRun (uuidIn : String → Option Uuid) (run : Models.Run) : Option Run := do
  let id ← uuidIn run.id
  let channelId ← uuidIn run.channelId
  let initiatorUserId ← uuidIn run.initiatorUserId
  let status ← RunStatus.ofText run.status
  return { id, channelId, initiatorUserId, runnerUserId := none, status
           pickupTime := run.pickupTime.map fun t => t.instant, pickupNote := run.pickupNote
           startedAt := run.startedAt.instant, closedAt := none, failureReason := none
           correlationId := run.correlationId, createdAt := run.createdAt.instant
           updatedAt := run.updatedAt.instant }

/-- `INSERT INTO runs`, with its foreign keys. -/
def insertStored (uuidIn : String → Option Uuid) (run : Models.Run) (db : Db) : Option Db := do
  let row ← storedRun uuidIn run
  let _ ← db.channels.find? row.channelId
  let _ ← db.users.find? row.initiatorUserId
  let runs ← db.runs.insert row
  return { db with runs }

section Specs
variable {uuidIn : String → Option Uuid} {run : Models.Run} {row : Run} {db db' : Db}

theorem storedRun_eq_some (h : storedRun uuidIn run = some row) : uuidIn run.id = some row.id ∧
    uuidIn run.channelId = some row.channelId ∧
    uuidIn run.initiatorUserId = some row.initiatorUserId ∧
    RunStatus.ofText run.status = some row.status ∧ row.runnerUserId = none := by
  simp only [storedRun, Option.bind_eq_bind, Option.bind_eq_some_iff, Option.pure_def,
    Option.some.injEq] at h
  obtain ⟨id, hid, channelId, hchannel, initiator, hinitiator, status, hstatus, rfl⟩ := h
  exact ⟨hid, hchannel, hinitiator, hstatus, rfl⟩

theorem insertStored_eq_some : insertStored uuidIn run db = some db' ↔
    ∃ row runs, storedRun uuidIn run = some row ∧ (∃ c ∈ db.channels, c.id = row.channelId) ∧
      (∃ u ∈ db.users, u.id = row.initiatorUserId) ∧ db.runs.insert row = some runs ∧
      db' = { db with runs } := by
  simp only [insertStored, Option.bind_eq_bind, Option.bind_eq_some_iff, Option.pure_def,
    Option.some.injEq, Table.find?_eq_some]
  constructor
  · rintro ⟨row, hrow, c, hc, u, hu, runs, hruns, rfl⟩
    exact ⟨row, runs, hrow, ⟨c, hc⟩, ⟨u, hu⟩, hruns, rfl⟩
  · rintro ⟨row, runs, hrow, ⟨c, hc⟩, ⟨u, hu⟩, hruns, rfl⟩
    exact ⟨row, hrow, c, hc, u, hu, runs, hruns, rfl⟩

theorem meets_insertStored (hm : db.Meets) (h : insertStored uuidIn run db = some db') :
    db'.Meets := by
  obtain ⟨row, runs, hrow, hc, hu, hruns, rfl⟩ := insertStored_eq_some.mp h
  obtain ⟨-, -, -, -, hrunner⟩ := storedRun_eq_some hrow
  exact hm.insertRun hruns hc hu hrunner

end Specs
end CoffeeBuddy

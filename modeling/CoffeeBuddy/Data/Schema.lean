import CoffeeBuddy.Data.Errors
import CoffeeBuddy.Library.Program
import CoffeeBuddy.Library.Table

/-! The mapped tables and the session. Rows have the columns of the ORM models;
a session is a program of statements over the database. -/

namespace CoffeeBuddy
open Relational Transaction

/-- Microseconds since the epoch, UTC. -/
abbrev Timestamp := ℤ

inductive RunStatus where
  | «open» | closed | canceled | failed
deriving DecidableEq

structure User where
  id : Uuid
  slackUserId : String
  displayName : String
  isActive : Bool
  createdAt : Timestamp
  updatedAt : Timestamp
deriving DecidableEq

structure Channel where
  id : Uuid
  slackChannelId : String
  name : String
  enabled : Bool
  reminderOffsetMinutes : ℤ
  fairnessWindowRuns : ℤ
  dataRetentionDays : ℤ
  remindersEnabled : Bool
  lastCallEnabled : Bool
  lastCallLeadMinutes : Option ℤ
  lastResetAt : Option Timestamp
  createdAt : Timestamp
  updatedAt : Timestamp
deriving DecidableEq

structure Run where
  id : Uuid
  channelId : Uuid
  initiatorUserId : Uuid
  runnerUserId : Option Uuid
  status : RunStatus
  pickupTime : Option Timestamp
  pickupNote : Option String
  startedAt : Timestamp
  closedAt : Option Timestamp
  failureReason : Option String
  correlationId : String
  createdAt : Timestamp
  updatedAt : Timestamp
deriving DecidableEq

structure Order where
  id : Uuid
  runId : Uuid
  userId : Uuid
  orderText : String
  isFinal : Bool
  provenance : String
  canceledAt : Option Timestamp
  createdAt : Timestamp
  updatedAt : Timestamp
deriving DecidableEq

structure UserPreference where
  id : Uuid
  userId : Uuid
  channelId : Uuid
  lastOrderText : String
  lastUsedAt : Option Timestamp
  createdAt : Timestamp
  updatedAt : Timestamp
deriving DecidableEq

structure RunnerStat where
  id : Uuid
  userId : Uuid
  channelId : Uuid
  runsServedCount : ℤ
  lastRunAt : Option Timestamp
  createdAt : Timestamp
  updatedAt : Timestamp
deriving DecidableEq

inductive ChannelAdminActionType where
  | enable | disable | updateConfig | dataReset
deriving DecidableEq

/-- One entry of the `updates` dict of a configuration patch. -/
inductive ConfigUpdate where
  | reminderOffsetMinutes (value : ℤ)
  | fairnessWindowRuns (value : ℤ)
  | dataRetentionDays (value : ℤ)
  | remindersEnabled (value : Bool)
  | lastCallEnabled (value : Bool)
  | lastCallLeadMinutes (value : ℤ)
deriving DecidableEq

structure PurgeCounts where
  ordersDeleted : ℕ
  runsDeleted : ℕ
  preferencesDeleted : ℕ
  runnerStatsDeleted : ℕ
deriving DecidableEq

/-- The JSON of `action_details`. -/
inductive ActionDetails where
  | updatedFields (updates : List ConfigUpdate)
  | stateChange (reason : String) (previousState changed : Bool)
  | counts (counts : PurgeCounts)
deriving DecidableEq

/-- `createdAt` is absent where the object leaves the attribute unset. -/
structure ChannelAdminAction where
  id : Uuid
  channelId : Uuid
  adminUserId : String
  actionType : ChannelAdminActionType
  actionDetails : ActionDetails
  createdAt : Option Timestamp
deriving DecidableEq

instance : Keyed User Uuid := ⟨User.id⟩

instance : Keyed ChannelAdminAction Uuid := ⟨ChannelAdminAction.id⟩

instance : Row Channel Uuid where
  key := Channel.id
  merge l m c :=
    { id := c.id
      slackChannelId := column l.slackChannelId m.slackChannelId c.slackChannelId
      name := column l.name m.name c.name
      enabled := column l.enabled m.enabled c.enabled
      reminderOffsetMinutes :=
        column l.reminderOffsetMinutes m.reminderOffsetMinutes c.reminderOffsetMinutes
      fairnessWindowRuns := column l.fairnessWindowRuns m.fairnessWindowRuns c.fairnessWindowRuns
      dataRetentionDays := column l.dataRetentionDays m.dataRetentionDays c.dataRetentionDays
      remindersEnabled := column l.remindersEnabled m.remindersEnabled c.remindersEnabled
      lastCallEnabled := column l.lastCallEnabled m.lastCallEnabled c.lastCallEnabled
      lastCallLeadMinutes :=
        column l.lastCallLeadMinutes m.lastCallLeadMinutes c.lastCallLeadMinutes
      lastResetAt := column l.lastResetAt m.lastResetAt c.lastResetAt
      createdAt := column l.createdAt m.createdAt c.createdAt
      updatedAt := column l.updatedAt m.updatedAt c.updatedAt }
  key_merge _ _ _ := rfl
  merge_loaded l m h := by
    cases m
    simp only [column_loaded, Channel.mk.injEq, and_true]
    exact h.symm

instance : Row Run Uuid where
  key := Run.id
  merge l m c :=
    { id := c.id
      channelId := column l.channelId m.channelId c.channelId
      initiatorUserId := column l.initiatorUserId m.initiatorUserId c.initiatorUserId
      runnerUserId := column l.runnerUserId m.runnerUserId c.runnerUserId
      status := column l.status m.status c.status
      pickupTime := column l.pickupTime m.pickupTime c.pickupTime
      pickupNote := column l.pickupNote m.pickupNote c.pickupNote
      startedAt := column l.startedAt m.startedAt c.startedAt
      closedAt := column l.closedAt m.closedAt c.closedAt
      failureReason := column l.failureReason m.failureReason c.failureReason
      correlationId := column l.correlationId m.correlationId c.correlationId
      createdAt := column l.createdAt m.createdAt c.createdAt
      updatedAt := column l.updatedAt m.updatedAt c.updatedAt }
  key_merge _ _ _ := rfl
  merge_loaded l m h := by
    cases m
    simp only [column_loaded, Run.mk.injEq, and_true]
    exact h.symm

instance : Row Order Uuid where
  key := Order.id
  merge l m c :=
    { id := c.id
      runId := column l.runId m.runId c.runId
      userId := column l.userId m.userId c.userId
      orderText := column l.orderText m.orderText c.orderText
      isFinal := column l.isFinal m.isFinal c.isFinal
      provenance := column l.provenance m.provenance c.provenance
      canceledAt := column l.canceledAt m.canceledAt c.canceledAt
      createdAt := column l.createdAt m.createdAt c.createdAt
      updatedAt := column l.updatedAt m.updatedAt c.updatedAt }
  key_merge _ _ _ := rfl
  merge_loaded l m h := by
    cases m
    simp only [column_loaded, Order.mk.injEq, and_true]
    exact h.symm

instance : Row UserPreference Uuid where
  key := UserPreference.id
  merge l m c :=
    { id := c.id
      userId := column l.userId m.userId c.userId
      channelId := column l.channelId m.channelId c.channelId
      lastOrderText := column l.lastOrderText m.lastOrderText c.lastOrderText
      lastUsedAt := column l.lastUsedAt m.lastUsedAt c.lastUsedAt
      createdAt := column l.createdAt m.createdAt c.createdAt
      updatedAt := column l.updatedAt m.updatedAt c.updatedAt }
  key_merge _ _ _ := rfl
  merge_loaded l m h := by
    cases m
    simp only [column_loaded, UserPreference.mk.injEq, and_true]
    exact h.symm

instance : Row RunnerStat Uuid where
  key := RunnerStat.id
  merge l m c :=
    { id := c.id
      userId := column l.userId m.userId c.userId
      channelId := column l.channelId m.channelId c.channelId
      runsServedCount := column l.runsServedCount m.runsServedCount c.runsServedCount
      lastRunAt := column l.lastRunAt m.lastRunAt c.lastRunAt
      createdAt := column l.createdAt m.createdAt c.createdAt
      updatedAt := column l.updatedAt m.updatedAt c.updatedAt }
  key_merge _ _ _ := rfl
  merge_loaded l m h := by
    cases m
    simp only [column_loaded, RunnerStat.mk.injEq, and_true]
    exact h.symm

structure Db where
  users : Table User
  channels : Table Channel
  runs : Table Run
  orders : Table Order
  userPreferences : Table UserPreference
  runnerStats : Table RunnerStat
  channelAdminActions : Table ChannelAdminAction

/-- A unit of work on a session. -/
abbrev Tx := Program Db Exc

def Tx.raise {α : Type} (e : Exc) : Tx α := Program.raise e

/-- `UUID(value)` inside a service. -/
def asUuid (value : Ident) : Tx Uuid :=
  match value.asUuid with
  | some u => pure u
  | none => Tx.raise .valueError

/-- The object a session has for a row it reads: one it holds already stays as it is. -/
def sessionObject {ρ : Type} [Relational.Keyed ρ Uuid] (held : Option ρ) (row : ρ) : ρ :=
  (held.filter fun object => Keyed.key object = Keyed.key row).getD row

/-- The row under a key, or the exception for a missing one. -/
def rowUnder {ρ : Type} [Relational.Keyed ρ Uuid] (table : Db → Table ρ) (missing : Exc)
    (id : Uuid) : Tx ρ := do
  let found ← Program.query fun db => (table db).find? id
  match found with
  | some r => return r
  | none => Tx.raise missing

/-! ### The row statements of the session -/

section Statements
variable {ρ : Type}

/-- `INSERT` -/
def insertion [Keyed ρ Uuid] (table : Db → Table ρ) (store : Db → Table ρ → Db) (r : ρ) (db : Db) :
    Except Exc Db :=
  match (table db).insert r with
  | some t => .ok (store db t)
  | none => .error .integrityError

/-- `UPDATE` of a row the session has loaded. Where another session has deleted that row and
committed, the mapper raises `StaleDataError` on an update that matches no row, and rolls back:
such a session is one that takes no further step, since it neither writes nor answers. An update
that has matched holds a lock, for which a later delete waits. -/
def modification [Row ρ Uuid] (table : Db → Table ρ) (store : Db → Table ρ → Db)
    (loaded modified : ρ) (db : Db) : Except Exc Db :=
  .ok (store db ((table db).update loaded modified))

def inserting [Keyed ρ Uuid] (table : Db → Table ρ) (store : Db → Table ρ → Db) (r : ρ) : Tx Unit :=
  Program.execute (insertion table store r)

def updating [Row ρ Uuid] (table : Db → Table ρ) (store : Db → Table ρ → Db)
    (loaded modified : ρ) : Tx Unit :=
  Program.execute (modification table store loaded modified)

/-- `DELETE … WHERE p` and its `rowcount`. -/
def deleting [Keyed ρ Uuid] (table : Db → Table ρ) (store : Db → Table ρ → Db)
    (p : Db → ρ → Bool) : Tx ℕ := do
  let db ← Program.query fun db => db
  Program.execute fun db => .ok (store db ((table db).delete (p db)))
  return (table db).count (p db)

end Statements

abbrev insertRun := inserting Db.runs fun db t => { db with runs := t }
abbrev insertOrder := inserting Db.orders fun db t => { db with orders := t }
abbrev insertPreference :=
  inserting Db.userPreferences fun db t => { db with userPreferences := t }
abbrev insertStat := inserting Db.runnerStats fun db t => { db with runnerStats := t }
abbrev insertAction :=
  inserting Db.channelAdminActions fun db t => { db with channelAdminActions := t }

abbrev updateChannel := updating Db.channels fun db t => { db with channels := t }
abbrev updateRun := updating Db.runs fun db t => { db with runs := t }
abbrev updateOrder := updating Db.orders fun db t => { db with orders := t }
abbrev updatePreference :=
  updating Db.userPreferences fun db t => { db with userPreferences := t }
abbrev updateStat := updating Db.runnerStats fun db t => { db with runnerStats := t }

section Specs
variable {ρ α : Type} {db db' : Db}

@[simp] theorem returns_tx_raise {e : Exc} {a : α} : ¬(Tx.raise e).Returns db a db' :=
  Program.returns_raise

@[simp] theorem raises_tx_raise {d e : Exc} :
    (Tx.raise d : Tx α).Raises db e db' ↔ e = d ∧ db' = db := Program.raises_raise

@[simp] theorem returns_asUuid {value : Ident} {u : Uuid} :
    (asUuid value).Returns db u db' ↔ value.asUuid = some u ∧ db' = db := by
  unfold asUuid
  cases value.asUuid <;> simp [eq_comm]

@[simp] theorem raises_asUuid {value : Ident} {e : Exc} :
    (asUuid value).Raises db e db' ↔ value.asUuid = none ∧ e = .valueError ∧ db' = db := by
  unfold asUuid
  cases value.asUuid <;> simp

theorem readOnly_asUuid (i : Ident) : (asUuid i).ReadOnly := by
  unfold asUuid
  cases i.asUuid
  · exact Program.readOnly_raise _
  · exact Program.readOnly_pure _

section Keyed
variable [Keyed ρ Uuid] {table : Db → Table ρ} {store : Db → Table ρ → Db}

@[simp] theorem sessionObject_none (row : ρ) : sessionObject none row = row := rfl

theorem sessionObject_of_key {object row : ρ} (h : Keyed.key object = Keyed.key row) :
    sessionObject (some object) row = object := by
  simp only [sessionObject, Option.filter_some, h, decide_true, if_true, Option.getD_some]

/-- Either object is of the row, with what both have in common. -/
theorem sessionObject_cases {P : ρ → Prop} {held : Option ρ} {row : ρ}
    (hheld : ∀ object ∈ held, Keyed.key object = Keyed.key row → P object) (hrow : P row) :
    P (sessionObject held row) := by
  unfold sessionObject
  cases hfilter : held.filter fun object => Keyed.key object = Keyed.key row with
  | none => exact hrow
  | some object =>
    obtain ⟨hobject, hkey⟩ := Option.filter_eq_some_iff.mp hfilter
    exact hheld object hobject (of_decide_eq_true hkey)

theorem returns_rowUnder {missing : Exc} {id : Uuid} {r : ρ} :
    (rowUnder table missing id).Returns db r db' ↔ r ∈ table db ∧ Keyed.key r = id ∧ db' = db := by
  simp only [rowUnder, Program.returns_bind, Program.returns_query]
  constructor
  · rintro ⟨found, _, ⟨hf, rfl⟩, h⟩
    cases found with
    | none => exact absurd h returns_tx_raise
    | some q =>
      obtain ⟨rfl, rfl⟩ := Program.returns_pure.mp h
      obtain ⟨hm, hk⟩ := Table.find?_eq_some.mp hf.symm
      exact ⟨hm, hk, rfl⟩
  · rintro ⟨hm, rfl, rfl⟩
    refine ⟨some r, _, ⟨(Table.find?_key hm).symm, rfl⟩, ?_⟩
    exact Program.returns_pure.mpr ⟨rfl, rfl⟩

theorem readOnly_rowUnder (missing : Exc) (id : Uuid) : (rowUnder table missing id).ReadOnly := by
  refine (Program.readOnly_query _).bind fun found => ?_
  cases found
  · exact Program.readOnly_raise _
  · exact Program.readOnly_pure _

theorem raises_rowUnder {missing e : Exc} {id : Uuid}
    (h : (rowUnder table missing id).Raises db e db') : e = missing := by
  simp only [rowUnder, Program.raises_bind, Program.raises_query, false_or] at h
  obtain ⟨found, _, -, h⟩ := h
  cases found with
  | some r => exact absurd h Program.raises_pure
  | none => exact (raises_tx_raise.mp h).1

theorem returns_asUuid_rowUnder {missing : Exc} {i : Ident} {r : ρ} :
    (asUuid i >>= rowUnder table missing).Returns db r db' ↔
      i.asUuid = some (Keyed.key r) ∧ r ∈ table db ∧ db' = db := by
  simp only [Program.returns_bind, returns_asUuid, returns_rowUnder]
  constructor
  · rintro ⟨id, _, ⟨hid, rfl⟩, hm, rfl, rfl⟩
    exact ⟨hid, hm, rfl⟩
  · rintro ⟨hid, hm, rfl⟩
    exact ⟨_, _, ⟨hid, rfl⟩, hm, rfl, rfl⟩

theorem readOnly_asUuid_rowUnder (missing : Exc) (i : Ident) :
    (asUuid i >>= rowUnder table missing).ReadOnly :=
  (readOnly_asUuid i).bind (readOnly_rowUnder missing)

@[simp] theorem returns_inserting {r : ρ} {u : Unit} :
    (inserting table store r).Returns db u db' ↔
      ∃ t, (table db).insert r = some t ∧ db' = store db t := by
  simp only [inserting, insertion, Program.returns_execute]
  cases (table db).insert r <;> simp [eq_comm]

@[simp] theorem raises_inserting {r : ρ} {e : Exc} :
    (inserting table store r).Raises db e db' ↔
      (table db).insert r = none ∧ e = .integrityError ∧ db' = db := by
  simp only [inserting, insertion, Program.raises_execute]
  cases (table db).insert r <;> simp [eq_comm]

@[simp] theorem returns_deleting {p : Db → ρ → Bool} {n : ℕ} :
    (deleting table store p).Returns db n db' ↔
      n = (table db).count (p db) ∧ db' = store db ((table db).delete (p db)) := by
  simp only [deleting, Program.returns_bind, Program.returns_query, Program.returns_execute,
    Program.returns_pure, Except.ok.injEq]
  constructor
  · rintro ⟨_, _, ⟨rfl, rfl⟩, _, _, rfl, rfl, rfl⟩
    exact ⟨rfl, rfl⟩
  · rintro ⟨rfl, rfl⟩
    exact ⟨_, _, ⟨rfl, rfl⟩, (), _, rfl, rfl, rfl⟩

@[simp] theorem raises_deleting {p : Db → ρ → Bool} {e : Exc} :
    ¬(deleting table store p).Raises db e db' := by
  simp only [deleting, Program.raises_bind, Program.raises_query, Program.raises_execute,
    Program.raises_pure, reduceCtorEq, false_and, and_false, exists_false, or_self,
    not_false_eq_true]

end Keyed

section Row
variable [Row ρ Uuid] {table : Db → Table ρ} {store : Db → Table ρ → Db} {l m : ρ}

@[simp] theorem returns_updating {u : Unit} :
    (updating table store l m).Returns db u db' ↔ db' = store db ((table db).update l m) := by
  simp only [updating, modification, Program.returns_execute, Except.ok.injEq, eq_comm]

@[simp] theorem raises_updating {e : Exc} : ¬(updating table store l m).Raises db e db' := by
  simp only [updating, modification, Program.raises_execute, reduceCtorEq, false_and, not_false_eq_true]

end Row
end Specs

section Accepted
variable {ρ : Type} {db : Db} {I : Db → Prop}

theorem accepted_inserting [Keyed ρ Uuid] {table : Db → Table ρ} {store : Db → Table ρ → Db}
    {r : ρ} : (inserting table store r).Accepted I db ↔
      ∃ t, (table db).insert r = some t ∧ I (store db t) := by
  unfold inserting
  rw [Program.accepted_execute]
  unfold insertion
  cases (table db).insert r <;> simp

theorem accepted_updating [Row ρ Uuid] {table : Db → Table ρ} {store : Db → Table ρ → Db}
    {l m : ρ} : (updating table store l m).Accepted I db ↔
      I (store db ((table db).update l m)) := by
  unfold updating
  rw [Program.accepted_execute]
  simp only [modification, Except.ok.injEq, exists_eq_left']

end Accepted
end CoffeeBuddy

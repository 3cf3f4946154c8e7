import CoffeeBuddy.Services.Orders

/-! `SlackAdminAuthorizer`, `AdminAuditLogger` and `AdminService`. -/

namespace CoffeeBuddy
open Relational Transaction

structure AdminActor where
  userId : String
  slackUserId : String
  slackRoles : List String := []

structure ChannelConfigPatch where
  reminderOffsetMinutes : Option ℤ := none
  fairnessWindowRuns : Option ℤ := none
  dataRetentionDays : Option ℤ := none
  remindersEnabled : Option Bool := none
  lastCallEnabled : Option Bool := none
  lastCallLeadMinutes : Option ℤ := none

structure ChannelConfigUpdateResult where
  channelId : String
  appliedFields : List String
deriving DecidableEq

structure ChannelStateChangeResult where
  channelId : String
  enabled : Bool
  actionType : ChannelAdminActionType
deriving DecidableEq

structure DataResetResult where
  channelId : String
  counts : PurgeCounts
deriving DecidableEq

/-! ### Authorization -/

/-- `lower` is `str.lower`. -/
structure SlackAdminAuthorizer where
  lower : String → String
  allowedUserIds : List String
  roleAllowlist : List String

namespace SlackAdminAuthorizer

/-- The constructor; an absent or empty list means its default. -/
def init (lower : String → String) (allowedUserIds roleAllowlist : List String) :
    SlackAdminAuthorizer where
  lower := lower
  allowedUserIds := (allowedUserIds.map strip).filter (· ≠ "")
  roleAllowlist := (if roleAllowlist = [] then ["admin", "owner"] else roleAllowlist).map lower

def isAuthorized (a : SlackAdminAuthorizer) (actor : AdminActor) : Bool :=
  a.allowedUserIds.contains actor.slackUserId ||
    actor.slackRoles.any fun role => a.roleAllowlist.contains (a.lower role)

def assertAuthorized (a : SlackAdminAuthorizer) (actor : AdminActor) : Tx Unit :=
  if a.isAuthorized actor then return ()
  else Tx.raise (.admin (.adminAuthorization actor.slackUserId
    "User lacks required Slack admin role or allow-list membership."))

end SlackAdminAuthorizer

/-! ### Audit -/

/-- Whether the database takes an audit row: the mapping leaves `created_at` unset and
passes `admin_user_id` as the text it was given. -/
abbrev AuditSchema := Db → ChannelAdminAction → Bool

def AdminAuditLogger.logAction (schema : AuditSchema) (channelId : Uuid) (adminUserId : String)
    (actionType : ChannelAdminActionType) (details : ActionDetails) (newId : Uuid) : Tx Unit :=
  let entry : ChannelAdminAction :=
    { id := newId, channelId := channelId, adminUserId := adminUserId, actionType := actionType
      actionDetails := details, createdAt := none }
  Program.execute fun db =>
    match if schema db entry then db.channelAdminActions.insert entry else none with
    | some t => .ok { db with channelAdminActions := t }
    | none => .error .integrityError

/-! ### Configuration updates -/

namespace ConfigUpdate

def field : ConfigUpdate → String
  | .reminderOffsetMinutes _ => "reminder_offset_minutes"
  | .fairnessWindowRuns _ => "fairness_window_runs"
  | .dataRetentionDays _ => "data_retention_days"
  | .remindersEnabled _ => "reminders_enabled"
  | .lastCallEnabled _ => "last_call_enabled"
  | .lastCallLeadMinutes _ => "last_call_lead_minutes"

/-- `setattr(channel, field, value)` -/
def apply (c : Channel) : ConfigUpdate → Channel
  | .reminderOffsetMinutes v => { c with reminderOffsetMinutes := v }
  | .fairnessWindowRuns v => { c with fairnessWindowRuns := v }
  | .dataRetentionDays v => { c with dataRetentionDays := v }
  | .remindersEnabled v => { c with remindersEnabled := v }
  | .lastCallEnabled v => { c with lastCallEnabled := v }
  | .lastCallLeadMinutes v => { c with lastCallLeadMinutes := some v }

end ConfigUpdate

namespace AdminService

def ensureRange (field : String) (value minimum maximum : ℤ) : Except AdminError Unit :=
  if minimum ≤ value ∧ value ≤ maximum then .ok ()
  else .error (.channelConfigValidation field
    s!"Value {value} must be between {minimum} and {maximum}.")

/-- One numeric field of the patch: nothing when absent, checked when present. -/
def ranged (update : ℤ → ConfigUpdate) (value : Option ℤ) (minimum maximum : ℤ) :
    Except AdminError (List ConfigUpdate) :=
  match value with
  | none => return []
  | some v => do
    ensureRange (update v).field v minimum maximum
    return [update v]

def buildConfigUpdates (channel : Channel) (patch : ChannelConfigPatch) :
    Except AdminError (List ConfigUpdate) := do
  let offset ← ranged .reminderOffsetMinutes patch.reminderOffsetMinutes 1 60
  let window ← ranged .fairnessWindowRuns patch.fairnessWindowRuns 1 50
  let retention ← ranged .dataRetentionDays patch.dataRetentionDays 30 365
  let reminders := (patch.remindersEnabled.map ConfigUpdate.remindersEnabled).toList
  let lastCall := (patch.lastCallEnabled.map ConfigUpdate.lastCallEnabled).toList
  let lead ← ranged .lastCallLeadMinutes patch.lastCallLeadMinutes 1 30
  if patch.lastCallEnabled = some true ∧ patch.lastCallLeadMinutes = none ∧
      channel.lastCallLeadMinutes = none then
    throw (.channelConfigValidation "last_call_lead_minutes"
      "Lead time must be provided when enabling last call reminders.")
  return offset ++ window ++ retention ++ reminders ++ lastCall ++ lead

/-! ### The service -/

def getChannel (slackChannelId : String) : Tx Channel := do
  let found ← Program.query fun db =>
    db.channels.select fun c => c.slackChannelId = slackChannelId
  match found with
  | [] => Tx.raise (.admin (.channelNotFound slackChannelId))
  | [channel] => return channel
  | _ :: _ :: _ => Tx.raise .multipleResultsFound

/-- The updates of a patch, or the exception of an invalid one. -/
def configUpdates (channel : Channel) (patch : ChannelConfigPatch) : Tx (List ConfigUpdate) :=
  match buildConfigUpdates channel patch with
  | .ok updates => return updates
  | .error e => Tx.raise (.admin e)

def updateChannelConfig (a : SlackAdminAuthorizer) (schema : AuditSchema) (slackChannelId : String)
    (actor : AdminActor) (patch : ChannelConfigPatch) (d : Draws) :
    Tx ChannelConfigUpdateResult := do
  let channel ← getChannel slackChannelId
  a.assertAuthorized actor
  let updates ← configUpdates channel patch
  if updates = [] then return { channelId := channel.id.str, appliedFields := [] }
  else
    updateChannel channel { updates.foldl ConfigUpdate.apply channel with updatedAt := d.clock 0 }
    AdminAuditLogger.logAction schema channel.id actor.userId .updateConfig
      (.updatedFields updates) (d.uuid4 0)
    return { channelId := channel.id.str, appliedFields := updates.map ConfigUpdate.field }

def setChannelEnabled (a : SlackAdminAuthorizer) (schema : AuditSchema) (slackChannelId : String)
    (actor : AdminActor) (enabled : Bool) (reason : Option String) (d : Draws) :
    Tx ChannelStateChangeResult := do
  let channel ← getChannel slackChannelId
  a.assertAuthorized actor
  let actionType := if enabled then ChannelAdminActionType.enable else .disable
  updateChannel channel { channel with enabled := enabled, updatedAt := d.clock 0 }
  AdminAuditLogger.logAction schema channel.id actor.userId actionType
    (.stateChange (if reason.getD "" = "" then "unspecified" else reason.getD "")
      channel.enabled (channel.enabled ≠ enabled)) (d.uuid4 0)
  return { channelId := channel.id.str, enabled := enabled, actionType := actionType }

def orderOfChannel (channelId : Uuid) (db : Db) (o : Order) : Bool :=
  db.runs.rows.any fun r => r.id = o.runId && r.channelId = channelId

def purgeChannelData (channelId : Uuid) : Tx PurgeCounts := do
  let ordersDeleted ← deleting Db.orders (fun db t => { db with orders := t })
    (orderOfChannel channelId)
  let runsDeleted ← deleting Db.runs (fun db t => { db with runs := t })
    fun _ r => r.channelId = channelId
  let preferencesDeleted ← deleting Db.userPreferences
    (fun db t => { db with userPreferences := t }) fun _ p => p.channelId = channelId
  let runnerStatsDeleted ← deleting Db.runnerStats (fun db t => { db with runnerStats := t })
    fun _ s => s.channelId = channelId
  return { ordersDeleted, runsDeleted, preferencesDeleted, runnerStatsDeleted }

def resetChannelData (a : SlackAdminAuthorizer) (schema : AuditSchema) (slackChannelId : String)
    (actor : AdminActor) (d : Draws) : Tx DataResetResult := do
  let channel ← getChannel slackChannelId
  a.assertAuthorized actor
  let counts ← purgeChannelData channel.id
  updateChannel channel
    { channel with lastResetAt := some (d.clock 0), updatedAt := d.clock 0 }
  AdminAuditLogger.logAction schema channel.id actor.userId .dataReset (.counts counts) (d.uuid4 0)
  return { channelId := channel.id.str, counts := counts }

/-! ### What the operations do -/

variable {a : SlackAdminAuthorizer} {schema : AuditSchema} {slackChannelId : String}
  {actor : AdminActor} {channel : Channel} {d : Draws} {db db' : Db}

theorem returns_getChannel
    (h : (getChannel slackChannelId).Returns db channel db') :
    channel ∈ db.channels ∧ channel.slackChannelId = slackChannelId ∧ db' = db := by
  simp only [getChannel, Program.returns_bind, Program.returns_query] at h
  obtain ⟨found, _, ⟨hf, rfl⟩, h⟩ := h
  split at h
  · exact absurd h returns_tx_raise
  · obtain ⟨rfl, rfl⟩ := Program.returns_pure.mp h
    obtain ⟨hm, hs⟩ := Table.mem_select.mp (hf ▸ List.mem_singleton_self channel)
    exact ⟨hm, of_decide_eq_true hs, rfl⟩
  · exact absurd h returns_tx_raise

theorem eq_of_returns_getChannel {c : Channel}
    (h : (getChannel slackChannelId).Returns db channel db') (hc : c ∈ db.channels)
    (hname : c.slackChannelId = slackChannelId) : c = channel := by
  simp only [getChannel, Program.returns_bind, Program.returns_query] at h
  obtain ⟨found, _, ⟨hf, rfl⟩, h⟩ := h
  have hmem : c ∈ found := hf ▸ Table.mem_select.mpr ⟨hc, decide_eq_true hname⟩
  split at h
  · exact absurd h returns_tx_raise
  · obtain ⟨rfl, -⟩ := Program.returns_pure.mp h
    exact List.mem_singleton.mp hmem
  · exact absurd h returns_tx_raise

theorem readOnly_getChannel : (getChannel slackChannelId).ReadOnly := by
  refine (Program.readOnly_query _).bind fun found => ?_
  split
  · exact Program.readOnly_raise _
  · exact Program.readOnly_pure _
  · exact Program.readOnly_raise _

theorem returns_assertAuthorized {u : Unit} :
    (a.assertAuthorized actor).Returns db u db' ↔ a.isAuthorized actor = true ∧ db' = db := by
  unfold SlackAdminAuthorizer.assertAuthorized
  split_ifs with h
  · simp only [Program.returns_pure, true_and, h]
  · simp only [returns_tx_raise, h, Bool.false_eq_true, false_and]

theorem readOnly_assertAuthorized : (a.assertAuthorized actor).ReadOnly := by
  unfold SlackAdminAuthorizer.assertAuthorized
  split_ifs
  · exact Program.readOnly_pure _
  · exact Program.readOnly_raise _

theorem bind_eq_ok {ε α β : Type} {x : Except ε α} {f : α → Except ε β} {b : β} :
    (x >>= f) = .ok b ↔ ∃ a, x = .ok a ∧ f a = .ok b := by
  cases x with
  | error e =>
    refine iff_of_false (fun h => by cases h) ?_
    rintro ⟨a, ha, -⟩
    cases ha
  | ok a =>
    constructor
    · exact fun h => ⟨a, rfl, h⟩
    · rintro ⟨a', ha, h⟩
      obtain rfl := Except.ok.inj ha
      exact h

theorem returns_configUpdates {patch : ChannelConfigPatch} {updates : List ConfigUpdate} :
    (configUpdates channel patch).Returns db updates db' ↔
      buildConfigUpdates channel patch = .ok updates ∧ db' = db := by
  unfold configUpdates
  cases buildConfigUpdates channel patch <;> simp [eq_comm]

theorem readOnly_configUpdates {patch : ChannelConfigPatch} :
    (configUpdates channel patch).ReadOnly := by
  unfold configUpdates
  split
  · exact Program.readOnly_pure _
  · exact Program.readOnly_raise _

theorem returns_logAction {channelId : Uuid} {adminUserId : String}
    {actionType : ChannelAdminActionType} {details : ActionDetails} {newId : Uuid} {u : Unit}
    (h : (AdminAuditLogger.logAction schema channelId adminUserId actionType details newId).Returns
      db u db') :
    ∃ t, db.channelAdminActions.insert
        ⟨newId, channelId, adminUserId, actionType, details, none⟩ = some t ∧
      db' = { db with channelAdminActions := t } := by
  simp only [AdminAuditLogger.logAction, Program.returns_execute] at h
  split at h
  · rename_i t ht
    split_ifs at ht
    exact ⟨t, ht, (Except.ok.inj h).symm⟩
  · cases h

theorem raises_logAction {channelId : Uuid} {adminUserId : String}
    {actionType : ChannelAdminActionType} {details : ActionDetails} {newId : Uuid} {e : Exc}
    (h : (AdminAuditLogger.logAction schema channelId adminUserId actionType details newId).Raises
      db e db') : e = .integrityError := by
  simp only [AdminAuditLogger.logAction, Program.raises_execute] at h
  obtain ⟨h, -⟩ := h
  split at h
  · cases h
  · exact (Except.error.inj h).symm

theorem returns_updateChannelConfig {patch : ChannelConfigPatch} {res : ChannelConfigUpdateResult}
    (h : (updateChannelConfig a schema slackChannelId actor patch d).Returns db res db') :
    ∃ channel updates, channel ∈ db.channels ∧ channel.slackChannelId = slackChannelId ∧
      a.isAuthorized actor = true ∧ buildConfigUpdates channel patch = .ok updates ∧
      res = ⟨channel.id.str, updates.map ConfigUpdate.field⟩ ∧
      (updates = [] ∧ db' = db ∨ updates ≠ [] ∧ ∃ t,
        db.channelAdminActions.insert ⟨d.uuid4 0, channel.id, actor.userId, .updateConfig,
          .updatedFields updates, none⟩ = some t ∧
        db' = { db with
          channels := db.channels.update channel
            { updates.foldl ConfigUpdate.apply channel with updatedAt := d.clock 0 }
          channelAdminActions := t }) := by
  simp only [updateChannelConfig, Program.returns_bind, returns_assertAuthorized,
    returns_configUpdates] at h
  obtain ⟨channel, _, hget, _, _, ⟨ha, rfl⟩, updates, _, ⟨hu, rfl⟩, h⟩ := h
  obtain ⟨hc, hs, rfl⟩ := returns_getChannel hget
  refine ⟨channel, updates, hc, hs, ha, hu, ?_⟩
  split_ifs at h with hnil
  · obtain ⟨rfl, rfl⟩ := Program.returns_pure.mp h
    exact ⟨by rw [hnil, List.map_nil], Or.inl ⟨hnil, rfl⟩⟩
  · simp only [Program.returns_bind, returns_updating, Program.returns_pure] at h
    obtain ⟨_, _, rfl, _, _, hlog, rfl, rfl⟩ := h
    obtain ⟨t, ht, rfl⟩ := returns_logAction hlog
    exact ⟨rfl, Or.inr ⟨hnil, t, ht, rfl⟩⟩

theorem returns_setChannelEnabled {enabled : Bool} {reason : Option String}
    {res : ChannelStateChangeResult}
    (h : (setChannelEnabled a schema slackChannelId actor enabled reason d).Returns db res db') :
    ∃ channel details t, channel ∈ db.channels ∧ channel.slackChannelId = slackChannelId ∧
      a.isAuthorized actor = true ∧ res = ⟨channel.id.str, enabled,
        if enabled then .enable else .disable⟩ ∧
      details = .stateChange (if reason.getD "" = "" then "unspecified" else reason.getD "")
        channel.enabled (channel.enabled ≠ enabled) ∧
      db.channelAdminActions.insert ⟨d.uuid4 0, channel.id, actor.userId, res.actionType,
        details, none⟩ = some t ∧
      db' = { db with
        channels := db.channels.update channel
          { channel with enabled := enabled, updatedAt := d.clock 0 }
        channelAdminActions := t } := by
  simp only [setChannelEnabled, Program.returns_bind, returns_assertAuthorized, returns_updating,
    Program.returns_pure] at h
  obtain ⟨channel, _, hget, _, _, ⟨ha, rfl⟩, _, _, rfl, _, _, hlog, rfl, rfl⟩ := h
  obtain ⟨hc, hs, rfl⟩ := returns_getChannel hget
  obtain ⟨t, ht, rfl⟩ := returns_logAction hlog
  exact ⟨channel, _, t, hc, hs, ha, rfl, rfl, ht, rfl⟩

/-- The database without the runs, orders, preferences and stats of a channel. -/
def purged (channelId : Uuid) (db : Db) : Db :=
  { db with
    orders := db.orders.delete (orderOfChannel channelId db)
    runs := db.runs.delete fun r => r.channelId = channelId
    userPreferences := db.userPreferences.delete fun p => p.channelId = channelId
    runnerStats := db.runnerStats.delete fun s => s.channelId = channelId }

theorem orderOfChannel_iff {channelId : Uuid} {o : Order} : orderOfChannel channelId db o = true ↔
    ∃ r ∈ db.runs, r.id = o.runId ∧ r.channelId = channelId := by
  simp only [orderOfChannel, List.any_eq_true, Bool.and_eq_true, decide_eq_true_eq]
  rfl

theorem orderOfChannel_eq_false {channelId : Uuid} {run : Run} {o : Order} (hrun : run ∈ db.runs)
    (hne : run.channelId ≠ channelId) (ho : o.runId = run.id) :
    orderOfChannel channelId db o = false := by
  refine Bool.eq_false_iff.mpr fun hpurged => ?_
  obtain ⟨r, hr, hid, hc⟩ := orderOfChannel_iff.mp hpurged
  have heq : r = run := Table.eq_of_key hr hrun (hid.trans ho)
  exact hne (heq ▸ hc)

theorem mem_runs_purged {channelId : Uuid} {o : Order} {r : Run}
    (ho : o ∈ (purged channelId db).orders) (hr : r ∈ db.runs) (hid : r.id = o.runId) :
    r ∈ (purged channelId db).runs := by
  have hkept := (Table.mem_delete.mp ho).2
  refine Table.mem_delete.mpr ⟨hr, decide_eq_false fun hchan => ?_⟩
  have hgone := orderOfChannel_iff.mpr ⟨r, hr, hid, hchan⟩
  rw [hkept] at hgone
  exact Bool.false_ne_true hgone

theorem returns_purgeChannelData {channelId : Uuid} {counts : PurgeCounts} :
    (purgeChannelData channelId).Returns db counts db' ↔
      counts = ⟨db.orders.count (orderOfChannel channelId db),
        db.runs.count fun r => r.channelId = channelId,
        db.userPreferences.count fun p => p.channelId = channelId,
        db.runnerStats.count fun s => s.channelId = channelId⟩ ∧
      db' = purged channelId db := by
  simp only [purgeChannelData, Program.returns_bind, returns_deleting, Program.returns_pure]
  constructor
  · rintro ⟨_, _, ⟨rfl, rfl⟩, _, _, ⟨rfl, rfl⟩, _, _, ⟨rfl, rfl⟩, _, _, ⟨rfl, rfl⟩, rfl, rfl⟩
    exact ⟨rfl, rfl⟩
  · rintro ⟨rfl, rfl⟩
    exact ⟨_, _, ⟨rfl, rfl⟩, _, _, ⟨rfl, rfl⟩, _, _, ⟨rfl, rfl⟩, _, _, ⟨rfl, rfl⟩, rfl, rfl⟩

theorem returns_resetChannelData {res : DataResetResult}
    (h : (resetChannelData a schema slackChannelId actor d).Returns db res db') :
    ∃ channel t, channel ∈ db.channels ∧ channel.slackChannelId = slackChannelId ∧
      a.isAuthorized actor = true ∧ (purgeChannelData channel.id).Returns db res.counts
        (purged channel.id db) ∧ res.channelId = channel.id.str ∧
      db.channelAdminActions.insert ⟨d.uuid4 0, channel.id, actor.userId, .dataReset,
        .counts res.counts, none⟩ = some t ∧
      db' = { purged channel.id db with
        channels := db.channels.update channel
          { channel with lastResetAt := some (d.clock 0), updatedAt := d.clock 0 }
        channelAdminActions := t } := by
  simp only [resetChannelData, Program.returns_bind, returns_assertAuthorized,
    returns_purgeChannelData, returns_updating, Program.returns_pure] at h
  obtain ⟨channel, _, hget, _, _, ⟨ha, rfl⟩, counts, _, ⟨hcounts, rfl⟩, _, _, rfl, _, _, hlog, rfl,
    rfl⟩ := h
  obtain ⟨hc, hs, rfl⟩ := returns_getChannel hget
  obtain ⟨t, ht, rfl⟩ := returns_logAction hlog
  exact ⟨channel, t, hc, hs, ha, returns_purgeChannelData.mpr ⟨hcounts, rfl⟩, rfl, ht, rfl⟩

/-! ### Refused calls -/

theorem raises_audited {α : Type} {c : Channel} {details : ActionDetails}
    {actionType : ChannelAdminActionType} {result : α} {e : Exc}
    (h : (do
      updateChannel channel c
      AdminAuditLogger.logAction schema channel.id actor.userId actionType details (d.uuid4 0)
      return result : Tx α).Raises db e db') : ¬e.Raised := by
  simp only [Program.raises_bind, raises_updating, Program.raises_pure, and_false, exists_false,
    or_false, false_or] at h
  obtain ⟨_, _, -, h⟩ := h
  rw [raises_logAction h]
  exact Exc.not_raised_integrityError

theorem updateChannelConfig_failsClean (patch : ChannelConfigPatch) :
    (updateChannelConfig a schema slackChannelId actor patch d).FailsClean Exc.Raised db := by
  unfold updateChannelConfig
  refine .after_reads readOnly_getChannel fun channel _ => ?_
  refine .after_reads readOnly_assertAuthorized fun _ _ => ?_
  refine .after_reads readOnly_configUpdates fun updates _ => ?_
  intro e t h he
  split_ifs at h
  · exact absurd h Program.raises_pure
  · exact absurd he (raises_audited h)

theorem setChannelEnabled_failsClean (enabled : Bool) (reason : Option String) :
    (setChannelEnabled a schema slackChannelId actor enabled reason d).FailsClean Exc.Raised db := by
  unfold setChannelEnabled
  refine .after_reads readOnly_getChannel fun channel _ => ?_
  refine .after_reads readOnly_assertAuthorized fun _ _ => ?_
  exact fun e t h he => absurd he (raises_audited h)

theorem resetChannelData_failsClean :
    (resetChannelData a schema slackChannelId actor d).FailsClean Exc.Raised db := by
  unfold resetChannelData
  refine .after_reads readOnly_getChannel fun channel _ => ?_
  refine .after_reads readOnly_assertAuthorized fun _ _ => ?_
  intro e t h he
  rcases Program.raises_bind.mp h with h | ⟨counts, _, -, h⟩
  · simp only [purgeChannelData, Program.raises_bind, raises_deleting, Program.raises_pure,
      and_false, exists_false, or_self] at h
  · exact absurd he (raises_audited h)

end AdminService
end CoffeeBuddy

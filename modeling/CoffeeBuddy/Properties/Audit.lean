import CoffeeBuddy.Library.Replay
import CoffeeBuddy.Services.History

/-! The audit log replays to the configuration: the rows a channel has gained, applied in
order to the settings it started from, give the settings it has. -/

namespace CoffeeBuddy
open Relational Transaction

/-! ### Settings and entries -/

/-- The six configuration fields of a channel and its flag. -/
structure Settings where
  reminderOffsetMinutes : ℤ
  fairnessWindowRuns : ℤ
  dataRetentionDays : ℤ
  remindersEnabled : Bool
  lastCallEnabled : Bool
  lastCallLeadMinutes : Option ℤ
  enabled : Bool
deriving DecidableEq

def Channel.settings (c : Channel) : Settings :=
  ⟨c.reminderOffsetMinutes, c.fairnessWindowRuns, c.dataRetentionDays, c.remindersEnabled,
    c.lastCallEnabled, c.lastCallLeadMinutes, c.enabled⟩

namespace Settings

def update (s : Settings) : ConfigUpdate → Settings
  | .reminderOffsetMinutes v => { s with reminderOffsetMinutes := v }
  | .fairnessWindowRuns v => { s with fairnessWindowRuns := v }
  | .dataRetentionDays v => { s with dataRetentionDays := v }
  | .remindersEnabled v => { s with remindersEnabled := v }
  | .lastCallEnabled v => { s with lastCallEnabled := v }
  | .lastCallLeadMinutes v => { s with lastCallLeadMinutes := some v }

/-- What an audit row says of the settings after it. -/
def apply (s : Settings) (a : ChannelAdminAction) : Settings :=
  match a.actionType, a.actionDetails with
  | .updateConfig, .updatedFields updates => updates.foldl update s
  | .enable, _ => { s with enabled := true }
  | .disable, _ => { s with enabled := false }
  | _, _ => s

end Settings

/-- An enable or disable row tells the flag before it and whether it has changed. -/
def TellsState (s : Settings) (a : ChannelAdminAction) : Prop :=
  match a.actionType with
  | .enable => ∃ reason, a.actionDetails = .stateChange reason s.enabled (s.enabled ≠ true)
  | .disable => ∃ reason, a.actionDetails = .stateChange reason s.enabled (s.enabled ≠ false)
  | .updateConfig | .dataReset => True

/-- The authorizer and the actor of an admin operation. -/
def administration : Call → Option (SlackAdminAuthorizer × AdminActor)
  | .updateChannelConfig authorizer _ actor _ _ => some (authorizer, actor)
  | .setChannelEnabled authorizer _ actor _ _ _ => some (authorizer, actor)
  | .resetChannelData authorizer _ actor _ => some (authorizer, actor)
  | _ => none

/-- The numbers of rows an event has removed. -/
structure Removes (e : Event) (counts : PurgeCounts) : Prop where
  orders : e.before.orders.rows.length = e.after.orders.rows.length + counts.ordersDeleted
  runs : e.before.runs.rows.length = e.after.runs.rows.length + counts.runsDeleted
  preferences : e.before.userPreferences.rows.length =
    e.after.userPreferences.rows.length + counts.preferencesDeleted
  runnerStats : e.before.runnerStats.rows.length =
    e.after.runnerStats.rows.length + counts.runnerStatsDeleted

/-- Row `a` was written by the event, for an authorized actor. -/
structure WrittenBy (e : Event) (a : ChannelAdminAction) : Prop where
  absent : a ∉ e.before.channelAdminActions
  present : a ∈ e.after.channelAdminActions
  actor : ∃ authorizer actor, administration e.label.1 = some (authorizer, actor) ∧
    authorizer.isAuthorized actor = true ∧ a.adminUserId = actor.userId
  counts : a.actionType = .dataReset → ∃ counts, a.actionDetails = .counts counts ∧ Removes e counts

/-- The call fails, is made by an actor without authority, or patches nothing. -/
def LogsNothing (l : Label) : Prop :=
  (∃ error, l.2 = .error error) ∨
  (∃ authorizer actor, administration l.1 = some (authorizer, actor) ∧
    authorizer.isAuthorized actor = false) ∨
  ∃ authorizer slackChannelId actor d,
    l.1 = .updateChannelConfig authorizer slackChannelId actor {} d

/-- The audit rows of a channel in insertion order. -/
def auditRows (channel : Uuid) (db : Db) : List ChannelAdminAction :=
  db.channelAdminActions.select fun a => a.channelId = channel

/-! ### What a step logs -/

inductive Audits (e : Event) : Prop
  | quiet : e.after.channels = e.before.channels →
      e.after.channelAdminActions = e.before.channelAdminActions → Audits e
  | logged (channel modified : Channel) (a : ChannelAdminAction) : channel ∈ e.before.channels →
      modified.id = channel.id → e.after.channels = e.before.channels.update channel modified →
      a.channelId = channel.id →
      e.before.channelAdminActions.insert a = some e.after.channelAdminActions →
      modified.settings = channel.settings.apply a → TellsState channel.settings a →
      WrittenBy e a → ¬LogsNothing e.label → Audits e

section Steps
variable {s : Database} {db db' : Db}

theorem settings_apply (c : Channel) (u : ConfigUpdate) :
    (u.apply c).settings = c.settings.update u := by
  cases u <;> rfl

theorem settings_foldl (updates : List ConfigUpdate) (c : Channel) :
    (updates.foldl ConfigUpdate.apply c).settings = updates.foldl Settings.update c.settings := by
  induction updates generalizing c with
  | nil => rfl
  | cons u updates ih =>
    rw [List.foldl_cons, List.foldl_cons, ih, settings_apply]

theorem absent_of_insert {t u : Table ChannelAdminAction} {a : ChannelAdminAction}
    (h : t.insert a = some u) : a ∉ t := fun ha => (Table.insert_eq_some.mp h).1 a ha rfl

theorem present_of_insert {t u : Table ChannelAdminAction} {a : ChannelAdminAction}
    (h : t.insert a = some u) : a ∈ u := (Table.mem_insert h).mpr (Or.inr rfl)

/-- An authorized call that returns and patches something may log. -/
theorem not_logsNothing {c : Call} {answer : Answer} {authorizer : SlackAdminAuthorizer}
    {actor : AdminActor} (hadmin : administration c = some (authorizer, actor))
    (ha : authorizer.isAuthorized actor = true)
    (hpatch : ∀ slackChannelId d, c ≠ .updateChannelConfig authorizer slackChannelId actor {} d) :
    ¬LogsNothing (c, .ok answer) := by
  rintro (⟨error, herror⟩ | ⟨authorizer', actor', hadmin', ha'⟩ | ⟨authorizer', ch, actor', d, hc⟩)
  · cases herror
  · rw [hadmin, Option.some.injEq, Prod.mk.injEq] at hadmin'
    obtain ⟨rfl, rfl⟩ := hadmin'
    rw [ha] at ha'
    cases ha'
  · have hc' : c = .updateChannelConfig authorizer' ch actor' {} d := hc
    subst hc'
    obtain ⟨rfl, rfl⟩ := Prod.mk.inj (Option.some.inj hadmin)
    exact hpatch ch d rfl

theorem buildConfigUpdates_empty (channel : Channel) :
    AdminService.buildConfigUpdates channel {} = .ok [] := rfl

theorem audits_updateChannelConfig {a : SlackAdminAuthorizer} {slackChannelId : String}
    {actor : AdminActor} {patch : ChannelConfigPatch} {d : Draws} {res : ChannelConfigUpdateResult}
    (h : (AdminService.updateChannelConfig a s.auditSchema slackChannelId actor patch d).Returns
      db res db') :
    Audits ⟨db, (.updateChannelConfig a slackChannelId actor patch d, .ok (.configured res)), db'⟩ := by
  obtain ⟨channel, updates, hc, -, ha, hu, -, ⟨-, rfl⟩ | ⟨hne, t, ht, rfl⟩⟩ :=
    AdminService.returns_updateChannelConfig h
  · exact Audits.quiet rfl rfl
  · refine Audits.logged channel
      { updates.foldl ConfigUpdate.apply channel with updatedAt := d.clock 0 } _ hc
      (apply_updates_id updates channel) rfl rfl ht ?_ trivial
      ⟨absent_of_insert ht, present_of_insert ht, ⟨a, actor, rfl, ha, rfl⟩, fun hreset => ?_⟩ ?_
    · exact settings_foldl updates channel
    · cases hreset
    · refine not_logsNothing rfl ha fun ch d' hcall => ?_
      obtain ⟨-, -, -, rfl, -⟩ := Call.updateChannelConfig.inj hcall
      rw [buildConfigUpdates_empty, Except.ok.injEq] at hu
      exact hne hu.symm

theorem audits_setChannelEnabled {a : SlackAdminAuthorizer} {slackChannelId : String}
    {actor : AdminActor} {enabled : Bool} {reason : Option String} {d : Draws}
    {res : ChannelStateChangeResult}
    (h : (AdminService.setChannelEnabled a s.auditSchema slackChannelId actor enabled reason d).Returns
      db res db') :
    Audits ⟨db, (.setChannelEnabled a slackChannelId actor enabled reason d,
      .ok (.stateChanged res)), db'⟩ := by
  obtain ⟨channel, details, t, hc, -, ha, hres, hdetails, ht, rfl⟩ :=
    AdminService.returns_setChannelEnabled h
  have htype : res.actionType = if enabled then .enable else .disable := by rw [hres]
  rw [htype, hdetails] at ht
  have hnothing : ¬LogsNothing (.setChannelEnabled a slackChannelId actor enabled reason d,
      .ok (.stateChanged res)) :=
    not_logsNothing rfl ha fun ch d' hcall => by cases hcall
  cases enabled with
  | false =>
    refine Audits.logged channel { channel with enabled := false, updatedAt := d.clock 0 } _ hc rfl rfl
      rfl ht rfl ⟨_, rfl⟩
      ⟨absent_of_insert ht, present_of_insert ht, ⟨a, actor, rfl, ha, rfl⟩, fun hreset => ?_⟩ hnothing
    cases hreset
  | true =>
    refine Audits.logged channel { channel with enabled := true, updatedAt := d.clock 0 } _ hc rfl rfl
      rfl ht rfl ⟨_, rfl⟩
      ⟨absent_of_insert ht, present_of_insert ht, ⟨a, actor, rfl, ha, rfl⟩, fun hreset => ?_⟩ hnothing
    cases hreset

theorem audits_resetChannelData {a : SlackAdminAuthorizer} {slackChannelId : String}
    {actor : AdminActor} {d : Draws} {res : DataResetResult}
    (h : (AdminService.resetChannelData a s.auditSchema slackChannelId actor d).Returns db res db') :
    Audits ⟨db, (.resetChannelData a slackChannelId actor d, .ok (.reset res)), db'⟩ := by
  obtain ⟨channel, t, hc, -, ha, hpurge, -, ht, rfl⟩ := AdminService.returns_resetChannelData h
  obtain ⟨hcounts, -⟩ := AdminService.returns_purgeChannelData.mp hpurge
  refine Audits.logged channel
    { channel with lastResetAt := some (d.clock 0), updatedAt := d.clock 0 } _ hc rfl rfl rfl ht rfl
    trivial
    ⟨absent_of_insert ht, present_of_insert ht, ⟨a, actor, rfl, ha, rfl⟩, fun _ =>
      ⟨res.counts, rfl, ?_⟩⟩ (not_logsNothing rfl ha fun ch d' hcall => by cases hcall)
  rw [hcounts]
  exact ⟨Table.length_delete _ _, Table.length_delete _ _, Table.length_delete _ _,
    Table.length_delete _ _⟩

theorem audits_of_ok {c : Call} {answer : Answer} (h : (c.tx s).Returns db answer db') :
    Audits ⟨db, (c, .ok answer), db'⟩ := by
  cases c with
  | createRun run =>
    simp only [Call.tx, Program.returns_bind, returns_inserting, Program.returns_pure] at h
    obtain ⟨_, _, ⟨t, -, rfl⟩, rfl, rfl⟩ := h
    exact Audits.quiet rfl rfl
  | submitOrder v request d =>
    obtain ⟨res, hcall, rfl⟩ := Program.returns_bind_pure.mp h
    obtain ⟨run, user, text, -, -, -, -, -, -, hp⟩ := OrderService.returns_submitOrder hcall
    obtain ⟨order, orders, prefs, -, -, rfl, -⟩ := OrderService.returns_persistOrder hp
    exact Audits.quiet rfl rfl
  | useLastOrder v runId userId d =>
    obtain ⟨res, hcall, rfl⟩ := Program.returns_bind_pure.mp h
    obtain ⟨run, user, p, text, mid, -, -, -, -, -, -, -, hp, q, -, -, rfl⟩ :=
      OrderService.returns_useLastOrder hcall
    obtain ⟨order, orders, prefs, -, -, rfl, -⟩ := OrderService.returns_persistOrder hp
    exact Audits.quiet rfl rfl
  | cancelOrder runId userId d =>
    obtain ⟨res, hcall, rfl⟩ := Program.returns_bind_pure.mp h
    obtain ⟨run, user, o, orders, -, -, -, -, -, -, -, -, rfl, -⟩ :=
      OrderService.returns_cancelOrder.mp hcall
    exact Audits.quiet rfl rfl
  | closeRun authorizer request now d =>
    obtain ⟨res, hcall, rfl⟩ := Program.returns_bind_pure.mp h
    obtain ⟨run, runner, hcl⟩ := CloseRunService.closes_of_returns hcall
    obtain ⟨stats, rfl⟩ := hcl.written
    exact Audits.quiet rfl rfl
  | updateChannelConfig a slackChannelId actor patch d =>
    obtain ⟨res, hcall, rfl⟩ := Program.returns_bind_pure.mp h
    exact audits_updateChannelConfig hcall
  | setChannelEnabled a slackChannelId actor enabled reason d =>
    obtain ⟨res, hcall, rfl⟩ := Program.returns_bind_pure.mp h
    exact audits_setChannelEnabled hcall
  | resetChannelData a slackChannelId actor d =>
    obtain ⟨res, hcall, rfl⟩ := Program.returns_bind_pure.mp h
    exact audits_resetChannelData hcall

theorem audits_of_error {c : Call} {e : Exc} (h : step s db (c, .error e) db') :
    Audits ⟨db, (c, .error e), db'⟩ := by
  obtain rfl := failed_step h
  exact Audits.quiet rfl rfl

theorem audits_of_step {e : Event} (h : step s e.before e.label e.after) : Audits e := by
  obtain ⟨db, ⟨c, outcome⟩, db'⟩ := e
  cases outcome with
  | error e => exact audits_of_error h
  | ok answer => exact audits_of_ok h

end Steps

/-! ### The log of a history -/

/-- `rows` are what channel `c₀` has logged on top of `base`. -/
structure Logged (c₀ : Channel) (base : List ChannelAdminAction) (es : List Event) (db : Db)
    (rows : List ChannelAdminAction) : Prop where
  log : auditRows c₀.id db = base ++ rows
  settings : ∃ c ∈ db.channels, c.id = c₀.id ∧
    c.settings = Replay.replay Settings.apply c₀.settings rows
  tells : Replay.Checked Settings.apply TellsState c₀.settings rows
  written : ∀ a ∈ rows, ∃ e ∈ es, WrittenBy e a

section History
variable {s : Database} {c₀ : Channel} {base rows : List ChannelAdminAction} {es : List Event}
  {e : Event}

theorem Logged.idle (h : Logged c₀ base es e.before rows)
    (hrows : auditRows c₀.id e.after = auditRows c₀.id e.before)
    (hchannel : ∀ c ∈ e.before.channels, c.id = c₀.id → c ∈ e.after.channels) :
    Logged c₀ base (es ++ [e]) e.after rows := by
  obtain ⟨c, hc, hid, hsettings⟩ := h.settings
  refine ⟨hrows.trans h.log, ⟨c, hchannel c hc hid, hid, hsettings⟩, h.tells, fun a ha => ?_⟩
  obtain ⟨f, hf, hwritten⟩ := h.written a ha
  exact ⟨f, List.mem_append_left _ hf, hwritten⟩

theorem Logged.step (h : Logged c₀ base es e.before rows) (he : Audits e) :
    ∃ rows', Logged c₀ base (es ++ [e]) e.after rows' := by
  rcases he with ⟨hchannels, hactions⟩ |
    ⟨channel, modified, a, hc, hid, hchannels, hach, hi, hsettings, htells, hwritten, -⟩
  · refine ⟨rows, h.idle ?_ fun c hc _ => hchannels ▸ hc⟩
    unfold auditRows
    rw [hactions]
  have hupdate : ∀ c, c ∈ e.after.channels ↔
      c = modified ∨ c ∈ e.before.channels ∧ c.id ≠ channel.id := by
    intro c
    rw [hchannels]
    exact Table.mem_update hc hid
  have hselect : auditRows c₀.id e.after =
      auditRows c₀.id e.before ++ if a.channelId = c₀.id then [a] else [] := by
    unfold auditRows
    rw [Table.select_insert hi]
    simp only [decide_eq_true_eq]
  -- a change of another channel logs a row of that channel
  by_cases hch : channel.id = c₀.id
  · rw [if_pos (hach.trans hch)] at hselect
    obtain ⟨c, hcmem, hcid, hcurrent⟩ := h.settings
    obtain rfl : c = channel := Table.eq_of_key hcmem hc (hcid.trans hch.symm)
    refine ⟨rows ++ [a], ⟨?_, ⟨modified, (hupdate _).mpr (Or.inl rfl), hid.trans hch, ?_⟩, ?_, ?_⟩⟩
    · rw [hselect, h.log, List.append_assoc]
    · rw [Replay.replay_append, ← hcurrent, hsettings]
      rfl
    · rw [Replay.checked_append, Replay.checked_singleton, ← hcurrent]
      exact ⟨h.tells, htells⟩
    · intro b hb
      rcases List.mem_append.mp hb with hb | hb
      · obtain ⟨f, hf, hwritten⟩ := h.written b hb
        exact ⟨f, List.mem_append_left _ hf, hwritten⟩
      · obtain rfl := List.mem_singleton.mp hb
        exact ⟨e, List.mem_append_right _ (List.mem_singleton_self e), hwritten⟩
  · rw [if_neg fun hac => hch (hach.symm.trans hac), List.append_nil] at hselect
    refine ⟨rows, h.idle hselect fun c hcmem hcid => (hupdate c).mpr (Or.inr ⟨hcmem, ?_⟩)⟩
    exact fun hcc => hch (hcc.symm.trans hcid)

theorem audit_log_replays (s : Database) (db₀ db : Db) (es : List Event) (c₀ : Channel)
    (h : History s db₀ es db) (hc : c₀ ∈ db₀.channels) :
    (∃ rows, Logged c₀ (auditRows c₀.id db₀) es db rows) ∧
    ∀ e ∈ es, LogsNothing e.label →
      e.after.channelAdminActions = e.before.channelAdminActions := by
  constructor
  · refine Transition.Path.history_invariant
      (I := fun es db => ∃ rows, Logged c₀ (auditRows c₀.id db₀) es db rows) (C := fun _ => True)
      (fun es e _ _ hstep _ hI => ?_) h (fun _ _ => trivial) ?_
    · obtain ⟨rows, hlogged⟩ := hI
      exact hlogged.step (audits_of_step hstep)
    · exact ⟨[], (List.append_nil _).symm, ⟨c₀, hc, rfl, rfl⟩, trivial,
        fun a ha => absurd ha List.not_mem_nil⟩
  · intro e he hnothing
    rcases audits_of_step (h.mem_step he) with ⟨-, hactions⟩ | ⟨_, _, _, -, -, -, -, -, -, -, -, hlogs⟩
    · exact hactions
    · exact absurd hnothing hlogs

end History

/-! ### Two logged calls -/

namespace Sample

def admin : SlackAdminAuthorizer := .init id ["U1"] []

def adminActor : AdminActor := { userId := "1", slackUserId := "U1" }

def adminCalls : List Call :=
  [.setChannelEnabled admin "C7" adminActor false none (draws 1),
    .updateChannelConfig admin "C7" adminActor { dataRetentionDays := some 30 } (draws 2)]

end Sample

open Sample in
theorem audit_log_replays_disabled :
    ∃ rows, Logged channel (auditRows channel.id db) (replay database db adminCalls)
      (finalDb database db adminCalls) rows :=
  (audit_log_replays database db (finalDb database db adminCalls) (replay database db adminCalls)
    channel (history_replay _ _ _) (by decide)).1

end CoffeeBuddy

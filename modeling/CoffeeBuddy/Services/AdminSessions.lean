import CoffeeBuddy.Library.Rely
import CoffeeBuddy.Services.Sessions

/-! The channels and the audit log under concurrent sessions: the statements of a call leave
both alone, or end with one update of the channel row it has read and one audit row. -/

namespace CoffeeBuddy
open Relational Transaction AdminService

abbrev setsChannel := modification Db.channels fun db t => { db with channels := t }

/-- `INSERT` of an audit row, if the schema takes it. -/
def logs (schema : AuditSchema) (entry : ChannelAdminAction) (db : Db) : Except Exc Db :=
  match if schema db entry then db.channelAdminActions.insert entry else none with
  | some t => .ok { db with channelAdminActions := t }
  | none => .error .integrityError

theorem logs_eq_ok {schema : AuditSchema} {entry : ChannelAdminAction} {db db' : Db}
    (h : logs schema entry db = .ok db') :
    ∃ t, db.channelAdminActions.insert entry = some t ∧
      db' = { db with channelAdminActions := t } := by
  unfold logs at h
  split at h
  · rename_i t ht
    split_ifs at ht
    exact ⟨t, ht, (Except.ok.inj h).symm⟩
  · cases h

/-! ### What a call leaves alone -/

section View
variable {β : Type} {view : Db → β}

/-- The write leaves what is in view as it was. -/
def Spares (view : Db → β) (w : Db → Except Exc Db) : Prop := ∀ s t, w s = .ok t → view t = view s

/-- The table written is out of view. -/
abbrev Elsewhere (view : Db → β) {τ : Type} (store : Db → τ → Db) : Prop :=
  ∀ db t, view (store db t) = view db

theorem applied_spares {ws : List (Db → Except Exc Db)} {s t : Db} (h : ∀ w ∈ ws, Spares view w)
    (hs : applied ws s = .ok t) : view t = view s := by
  refine applied_rel (R := fun s t => view t = view s) ?_ ?_ h hs
  · exact fun _ => rfl
  · exact fun _ _ _ hst htu => htu.trans hst

/-- Whatever it reads, the program leaves what is in view as it was. -/
abbrev Quiet (view : Db → β) {α : Type} (p : Tx α) : Prop :=
  p.Along (fun _ => True) (Spares view) fun _ => True

theorem quiet_pure {α : Type} (a : α) : Quiet view (pure a) := .ret trivial

theorem Quiet.map {α γ : Type} {p : Tx α} (h : Quiet view p) (f : α → γ) :
    Quiet view (do let a ← p; return f a) := h.bind fun _ _ => quiet_pure _

section Keyed
variable {ρ : Type} [Keyed ρ Uuid] {table : Db → Table ρ} {store : Db → Table ρ → Db}

theorem spares_insertion (h : Elsewhere view store) (r : ρ) :
    Spares view (insertion table store r) := by
  intro s t hs
  unfold insertion at hs
  split at hs
  · obtain rfl := Except.ok.inj hs
    exact h s _
  · cases hs

theorem quiet_inserting (h : Elsewhere view store) (r : ρ) : Quiet view (inserting table store r) :=
  .write (spares_insertion h r) (.ret trivial)

theorem quiet_deleting (h : Elsewhere view store) (p : Db → ρ → Bool) :
    Quiet view (deleting table store p) := by
  have hdelete : ∀ s : Db, Spares view fun db => .ok (store db ((table db).delete (p db))) := by
    intro _ s t hs
    obtain rfl := Except.ok.inj hs
    exact h s _
  exact .select fun s _ => .write (hdelete s) (.ret trivial)

end Keyed

section Row
variable {ρ : Type} [Row ρ Uuid] {table : Db → Table ρ} {store : Db → Table ρ → Db}

theorem spares_modification (h : Elsewhere view store) (l m : ρ) :
    Spares view (modification table store l m) := by
  intro s t hs
  obtain rfl := Except.ok.inj hs
  exact h s _

theorem quiet_updating (h : Elsewhere view store) (l m : ρ) : Quiet view (updating table store l m) :=
  .write (spares_modification h l m) (.ret trivial)

end Row

theorem spares_logs {schema : AuditSchema}
    (h : Elsewhere view fun db (t : Table ChannelAdminAction) => { db with channelAdminActions := t })
    (entry : ChannelAdminAction) : Spares view (logs schema entry) := by
  intro s t hs
  obtain ⟨actions, -, rfl⟩ := logs_eq_ok hs
  exact h s actions

/-! ### The order calls -/

/-- The tables an order call writes are out of view. -/
structure OrdersElsewhere (view : Db → β) : Prop where
  orders : Elsewhere view fun db (t : Table Order) => { db with orders := t }
  preferences : Elsewhere view fun db (t : Table UserPreference) => { db with userPreferences := t }

section Orders
variable (h : OrdersElsewhere view)
include h

theorem quiet_updateOrder (l m : Order) : Quiet view (updateOrder l m) :=
  quiet_updating h.orders l m

theorem quiet_updatePreference (l m : UserPreference) : Quiet view (updatePreference l m) :=
  quiet_updating h.preferences l m

theorem quiet_upsertOrder (i j : Ident) (text : String) (confirm : Bool)
    (provenance : OrderProvenance) (now : Timestamp) (newId : Uuid) :
    Quiet view (OrderRepository.upsertOrder i j text confirm provenance now newId) := by
  unfold OrderRepository.upsertOrder
  refine (OrderRepository.readOnly_getOrder i j).along.bind fun found _ => ?_
  cases found with
  | some existing => exact (quiet_updateOrder h existing _).bind fun _ _ => quiet_pure _
  | none =>
    refine (readOnly_asUuid i).along.bind fun run _ => ?_
    refine (readOnly_asUuid j).along.bind fun user _ => ?_
    exact (quiet_inserting h.orders _).bind fun _ _ => quiet_pure _

theorem quiet_setPreference (held : Option UserPreference) (i j : Ident) (text : String)
    (now : Timestamp) (newId : Uuid) :
    Quiet view (PreferenceService.setPreference held i j text now newId) := by
  unfold PreferenceService.setPreference
  refine (PreferenceService.readOnly_getPreference i j).along.bind fun found _ => ?_
  cases found with
  | some row => exact (quiet_updatePreference h _ _).bind fun _ _ => quiet_pure _
  | none =>
    refine (readOnly_asUuid i).along.bind fun user _ => ?_
    refine (readOnly_asUuid j).along.bind fun channel _ => ?_
    exact (quiet_inserting h.preferences _).bind fun _ _ => quiet_pure _

omit h in
theorem quiet_countActiveOrders (i : Ident) : Quiet view (OrderRepository.countActiveOrders i) := by
  unfold OrderRepository.countActiveOrders
  refine (readOnly_asUuid i).along.bind fun run _ => ?_
  exact (Program.readOnly_query _).along

theorem quiet_persistHolding (held : Option UserPreference) (run : Run) (user : User) (text : String)
    (confirm : Bool) (provenance : OrderProvenance) (d : Draws) :
    Quiet view (OrderService.persistHolding held run user text confirm provenance d) := by
  have hremember : ∀ text,
      Quiet view (OrderService.rememberOrder held run user text confirm d) := by
    intro text
    unfold OrderService.rememberOrder
    split_ifs
    · exact (quiet_setPreference h ..).bind fun _ _ => quiet_pure _
    · exact quiet_pure _
  unfold OrderService.persistHolding
  refine (quiet_upsertOrder h ..).bind fun order _ => ?_
  refine (hremember order.orderText).bind fun written _ => ?_
  exact (quiet_countActiveOrders _).bind fun _ _ => quiet_pure _

theorem quiet_submitOrder (v : OrderValidator) (request : OrderSubmissionRequest) (d : Draws) :
    Quiet view (OrderService.submitOrder v request d) := by
  unfold OrderService.submitOrder
  refine (RunRepository.readOnly_getOpenRun _).along.bind fun run _ => ?_
  refine (UserRepository.readOnly_get _).along.bind fun user _ => ?_
  refine (readOnly_validated _).along.bind fun text _ => ?_
  exact (quiet_persistHolding h ..).bind fun _ _ => quiet_pure _

theorem quiet_useLastOrder (v : OrderValidator) (runId userId : String) (d : Draws) :
    Quiet view (OrderService.useLastOrder v runId userId d) := by
  unfold OrderService.useLastOrder
  refine (RunRepository.readOnly_getOpenRun _).along.bind fun run _ => ?_
  refine (UserRepository.readOnly_get _).along.bind fun user _ => ?_
  refine (OrderService.readOnly_savedOrder _ _).along.bind fun p _ => ?_
  refine (readOnly_validated _).along.bind fun text _ => ?_
  refine (quiet_persistHolding h ..).bind fun persisted _ => ?_
  exact (quiet_updatePreference h _ _).bind fun _ _ => quiet_pure _

theorem quiet_cancelOrder (runId userId : String) (d : Draws) :
    Quiet view (OrderService.cancelOrder runId userId d) := by
  unfold OrderService.cancelOrder
  refine (RunRepository.readOnly_getOpenRun _).along.bind fun run _ => ?_
  refine (UserRepository.readOnly_get _).along.bind fun user _ => ?_
  refine (OrderService.readOnly_activeOrder _ _).along.bind fun o _ => ?_
  refine (quiet_updateOrder h o _).bind fun _ _ => ?_
  exact (quiet_countActiveOrders _).bind fun _ _ => quiet_pure _

end Orders
end View

/-! ### The tables of the administration -/

def adminTables (db : Db) : Table Channel × Table ChannelAdminAction :=
  (db.channels, db.channelAdminActions)

theorem orders_elsewhere : OrdersElsewhere adminTables := ⟨fun _ _ => rfl, fun _ _ => rfl⟩

theorem runs_elsewhere : Elsewhere adminTables fun db (t : Table Run) => { db with runs := t } :=
  fun _ _ => rfl

theorem stats_elsewhere :
    Elsewhere adminTables fun db (t : Table RunnerStat) => { db with runnerStats := t } :=
  fun _ _ => rfl

theorem quiet_purgeChannelData (channelId : Uuid) :
    Quiet adminTables (purgeChannelData channelId) := by
  unfold purgeChannelData
  refine (quiet_deleting orders_elsewhere.orders _).bind fun _ _ => ?_
  refine (quiet_deleting runs_elsewhere _).bind fun _ _ => ?_
  refine (quiet_deleting orders_elsewhere.preferences _).bind fun _ _ => ?_
  exact (quiet_deleting stats_elsewhere _).bind fun _ _ => quiet_pure _

theorem CloseRunService.Statements.spares {collation : Collation} {request : CloseRunRequest}
    {now : Timestamp} {result : CloseRunResult} {ds : List (Did Db Exc)}
    (c : Statements collation request now result ds) : ∀ w ∈ writes ds, Spares adminTables w := by
  intro w hw
  rw [c.statements, c.rest_eq] at hw
  simp only [writes_append, writes_read, writes_nil, writes_wrote, writes_map, List.mem_append,
    List.mem_map, List.mem_cons, List.not_mem_nil, or_false] at hw
  rcases hw with (⟨stat, -, rfl⟩ | rfl | rfl) | ⟨p, -, rfl⟩
  · exact spares_insertion stats_elsewhere stat
  · exact spares_modification stats_elsewhere _ _
  · exact spares_modification runs_elsewhere _ _
  · exact spares_modification orders_elsewhere.orders _ _

/-! ### The statements of an admin call -/

namespace AdminService
variable {a : SlackAdminAuthorizer} {schema : AuditSchema} {slackChannelId : String}
  {actor : AdminActor} {channel : Channel} {ds : List (Did Db Exc)}

theorem does_getChannel (h : (getChannel slackChannelId).Does ds channel) :
    ∃ v : Db, ds = [.read v] ∧ channel ∈ v.channels ∧ channel.slackChannelId = slackChannelId := by
  simp only [getChannel, Program.does_bind, Program.does_query] at h
  obtain ⟨_, found, _, ⟨v, rfl, hfound⟩, h, rfl⟩ := h
  split at h
  · exact absurd h does_tx_raise
  · obtain ⟨rfl, rfl⟩ := Program.does_pure.mp h
    obtain ⟨hm, hs⟩ := Table.mem_select.mp (hfound ▸ List.mem_singleton_self channel)
    exact ⟨v, rfl, hm, of_decide_eq_true hs⟩
  · exact absurd h does_tx_raise

theorem does_assertAuthorized {u : Unit} (h : (a.assertAuthorized actor).Does ds u) :
    a.isAuthorized actor = true ∧ ds = [] := by
  unfold SlackAdminAuthorizer.assertAuthorized at h
  split_ifs at h with ha
  · exact ⟨ha, (Program.does_pure.mp h).2⟩
  · exact absurd h does_tx_raise

theorem does_configUpdates {patch : ChannelConfigPatch} {updates : List ConfigUpdate}
    (h : (configUpdates channel patch).Does ds updates) :
    buildConfigUpdates channel patch = .ok updates ∧ ds = [] := by
  unfold configUpdates at h
  split at h
  · rename_i us hus
    obtain ⟨rfl, rfl⟩ := Program.does_pure.mp h
    exact ⟨hus, rfl⟩
  · exact absurd h does_tx_raise

@[simp] theorem does_logAction {channelId : Uuid} {adminUserId : String}
    {actionType : ChannelAdminActionType} {details : ActionDetails} {newId : Uuid} {u : Unit} :
    (AdminAuditLogger.logAction schema channelId adminUserId actionType details newId).Does ds u ↔
      ds = [.wrote (logs schema ⟨newId, channelId, adminUserId, actionType, details, none⟩)] :=
  Program.does_execute

end AdminService

/-- From the row it has read, the call writes the row `modified` and the audit row, and answers. -/
inductive Edits (row : Channel) : Call → Answer → Channel → ChannelAdminAction → Prop
  | configured (a : SlackAdminAuthorizer) (actor : AdminActor) (patch : ChannelConfigPatch)
      (d : Draws) (updates : List ConfigUpdate) : a.isAuthorized actor = true →
      buildConfigUpdates row patch = .ok updates → updates ≠ [] →
      Edits row (.updateChannelConfig a row.slackChannelId actor patch d)
        (.configured ⟨row.id.str, updates.map ConfigUpdate.field⟩)
        { updates.foldl ConfigUpdate.apply row with updatedAt := d.clock 0 }
        ⟨d.uuid4 0, row.id, actor.userId, .updateConfig, .updatedFields updates, none⟩
  | stateChanged (a : SlackAdminAuthorizer) (actor : AdminActor) (enabled : Bool)
      (reason : Option String) (d : Draws) : a.isAuthorized actor = true →
      Edits row (.setChannelEnabled a row.slackChannelId actor enabled reason d)
        (.stateChanged ⟨row.id.str, enabled, if enabled then .enable else .disable⟩)
        { row with enabled := enabled, updatedAt := d.clock 0 }
        ⟨d.uuid4 0, row.id, actor.userId, if enabled then .enable else .disable,
          .stateChange (if reason.getD "" = "" then "unspecified" else reason.getD "") row.enabled
            (row.enabled ≠ enabled), none⟩
  | reset (a : SlackAdminAuthorizer) (actor : AdminActor) (d : Draws) (counts : PurgeCounts) :
      a.isAuthorized actor = true →
      Edits row (.resetChannelData a row.slackChannelId actor d) (.reset ⟨row.id.str, counts⟩)
        { row with lastResetAt := some (d.clock 0), updatedAt := d.clock 0 }
        ⟨d.uuid4 0, row.id, actor.userId, .dataReset, .counts counts, none⟩

/-- The answer tells of a change to the channel. -/
def Answer.logged : Answer → Bool
  | .configured result => !result.appliedFields.isEmpty
  | .stateChanged _ | .reset _ => true
  | _ => false

/-- What the statements of a call do to the channels and the audit log. -/
inductive Conducts (s : Database) (c : Call) (answer : Answer) : List (Did Db Exc) → Prop
  | quiet {ds : List (Did Db Exc)} : (∀ w ∈ writes ds, Spares adminTables w) →
      answer.logged = false → Conducts s c answer ds
  | changes (seen : Db) (row modified : Channel) (entry : ChannelAdminAction)
      (between : List (Did Db Exc)) : (∀ w ∈ writes between, Spares adminTables w) →
      row ∈ seen.channels →
      Edits row c answer modified entry → answer.logged = true →
      Conducts s c answer (.read seen :: between ++
        [.wrote (setsChannel row modified), .wrote (logs s.auditSchema entry)])

section Conducts
variable {s : Database} {answer : Answer} {ds : List (Did Db Exc)}

theorem conducts_updateChannelConfig {a : SlackAdminAuthorizer} {slackChannelId : String}
    {actor : AdminActor} {patch : ChannelConfigPatch} {d : Draws}
    {result : ChannelConfigUpdateResult}
    (h : (updateChannelConfig a s.auditSchema slackChannelId actor patch d).Does ds result) :
    Conducts s (.updateChannelConfig a slackChannelId actor patch d) (.configured result) ds := by
  simp only [updateChannelConfig, Program.does_bind] at h
  obtain ⟨_, row, _, hget, ⟨_, _, _, hauth, ⟨_, updates, _, hu, h, rfl⟩, rfl⟩, rfl⟩ := h
  obtain ⟨seen, rfl, hrow, rfl⟩ := does_getChannel hget
  obtain ⟨ha, rfl⟩ := does_assertAuthorized hauth
  obtain ⟨hbuild, rfl⟩ := does_configUpdates hu
  split_ifs at h with hnil
  · obtain ⟨rfl, rfl⟩ := Program.does_pure.mp h
    exact .quiet (List.forall_mem_nil _) rfl
  · simp only [Program.does_bind, does_updating, does_logAction, Program.does_pure] at h
    obtain ⟨_, _, _, rfl, ⟨_, _, _, rfl, ⟨rfl, rfl⟩, rfl⟩, rfl⟩ := h
    refine .changes seen row _ _ [] (List.forall_mem_nil _) hrow
      (.configured a actor patch d updates ha hbuild hnil) ?_
    rw [Answer.logged, List.isEmpty_map, Bool.not_eq_true', List.isEmpty_eq_false_iff]
    exact hnil

theorem conducts_setChannelEnabled {a : SlackAdminAuthorizer} {slackChannelId : String}
    {actor : AdminActor} {enabled : Bool} {reason : Option String} {d : Draws}
    {result : ChannelStateChangeResult}
    (h : (setChannelEnabled a s.auditSchema slackChannelId actor enabled reason d).Does ds result) :
    Conducts s (.setChannelEnabled a slackChannelId actor enabled reason d) (.stateChanged result)
      ds := by
  simp only [setChannelEnabled, Program.does_bind, does_updating, does_logAction,
    Program.does_pure] at h
  obtain ⟨_, row, _, hget, ⟨_, _, _, hauth, ⟨_, _, _, rfl, ⟨_, _, _, rfl, ⟨rfl, rfl⟩, rfl⟩, rfl⟩,
    rfl⟩, rfl⟩ := h
  obtain ⟨seen, rfl, hrow, rfl⟩ := does_getChannel hget
  obtain ⟨ha, rfl⟩ := does_assertAuthorized hauth
  exact .changes seen row _ _ [] (List.forall_mem_nil _) hrow (.stateChanged a actor enabled reason d ha)
    rfl

theorem conducts_resetChannelData {a : SlackAdminAuthorizer} {slackChannelId : String}
    {actor : AdminActor} {d : Draws} {result : DataResetResult}
    (h : (resetChannelData a s.auditSchema slackChannelId actor d).Does ds result) :
    Conducts s (.resetChannelData a slackChannelId actor d) (.reset result) ds := by
  simp only [resetChannelData, Program.does_bind, does_updating, does_logAction,
    Program.does_pure] at h
  obtain ⟨_, row, _, hget, ⟨_, _, _, hauth, ⟨purge, counts, _, hpurge, ⟨_, _, _, rfl,
    ⟨_, _, _, rfl, ⟨rfl, rfl⟩, rfl⟩, rfl⟩, rfl⟩, rfl⟩, rfl⟩ := h
  obtain ⟨seen, rfl, hrow, rfl⟩ := does_getChannel hget
  obtain ⟨ha, rfl⟩ := does_assertAuthorized hauth
  exact .changes seen row _ _ purge ((quiet_purgeChannelData row.id).forall_writes hpurge) hrow
    (.reset a actor d counts ha) rfl

theorem conducts_of_does {c : Call} (h : (c.tx s).Does ds answer) : Conducts s c answer ds := by
  -- an answer that is no admin's comes from a program that is quiet
  have hquiet : ∀ {α : Type} {p : Tx α} {f : α → Answer}, Quiet adminTables p →
      (∀ x, (f x).logged = false) →
      (do let x ← p; return f x : Tx Answer).Does ds answer → Conducts s c answer ds := by
    intro α p f hp hf h
    simp only [Program.does_bind, Program.does_pure] at h
    obtain ⟨_, x, _, hx, ⟨rfl, rfl⟩, rfl⟩ := h
    rw [List.append_nil]
    exact .quiet (hp.forall_writes hx) (hf x)
  cases c with
  | createRun run => exact hquiet (quiet_inserting runs_elsewhere run.row) (fun _ => rfl) h
  | submitOrder v request d =>
    exact hquiet (quiet_submitOrder orders_elsewhere v request d) (fun _ => rfl) h
  | useLastOrder v runId userId d =>
    exact hquiet (quiet_useLastOrder orders_elsewhere v runId userId d) (fun _ => rfl) h
  | cancelOrder runId userId d =>
    exact hquiet (quiet_cancelOrder orders_elsewhere runId userId d) (fun _ => rfl) h
  | closeRun authorizer request now d =>
    simp only [Call.tx, Program.does_bind, Program.does_pure] at h
    obtain ⟨_, result, _, hclose, ⟨rfl, rfl⟩, rfl⟩ := h
    obtain ⟨st⟩ := CloseRunService.does_closeRun hclose
    rw [List.append_nil]
    exact .quiet st.spares rfl
  | updateChannelConfig a slackChannelId actor patch d =>
    simp only [Call.tx, Program.does_bind, Program.does_pure] at h
    obtain ⟨_, result, _, hcall, ⟨rfl, rfl⟩, rfl⟩ := h
    rw [List.append_nil]
    exact conducts_updateChannelConfig hcall
  | setChannelEnabled a slackChannelId actor enabled reason d =>
    simp only [Call.tx, Program.does_bind, Program.does_pure] at h
    obtain ⟨_, result, _, hcall, ⟨rfl, rfl⟩, rfl⟩ := h
    rw [List.append_nil]
    exact conducts_setChannelEnabled hcall
  | resetChannelData a slackChannelId actor d =>
    simp only [Call.tx, Program.does_bind, Program.does_pure] at h
    obtain ⟨_, result, _, hcall, ⟨rfl, rfl⟩, rfl⟩ := h
    rw [List.append_nil]
    exact conducts_resetChannelData hcall

end Conducts

/-! ### Commits -/

/-- A commit leaves the channels and the audit log alone, or updates one row and appends one. -/
inductive Conducted (c : Call) (answer : Answer) (ds : List (Did Db Exc)) (s t : Db) : Prop
  | quiet : answer.logged = false → t.channels = s.channels →
      t.channelAdminActions = s.channelAdminActions → Conducted c answer ds s t
  | changed (seen : Db) (row modified : Channel) (entry : ChannelAdminAction) :
      answer.logged = true → Program.ReadFirst ds seen → row ∈ seen.channels →
      Edits row c answer modified entry → t.channels = s.channels.update row modified →
      s.channelAdminActions.insert entry = some t.channelAdminActions → Conducted c answer ds s t

theorem conducted_of_applied {s : Database} {c : Call} {answer : Answer} {ds : List (Did Db Exc)}
    {db db' : Db} (h : (c.tx s).Does ds answer) (hwritten : applied (writes ds) db = .ok db') :
    Conducted c answer ds db db' := by
  cases conducts_of_does h with
  | quiet hspares hlogged =>
    have hsame : adminTables db' = adminTables db := applied_spares hspares hwritten
    obtain ⟨hchannels, hactions⟩ := Prod.mk.inj hsame
    exact .quiet hlogged hchannels hactions
  | changes seen row modified entry between hbetween hrow hedits hlogged =>
    simp only [List.cons_append, writes_read, writes_append, writes_wrote, writes_nil] at hwritten
    obtain ⟨mid, hmid, hlast⟩ := applied_append.mp hwritten
    have hsame : adminTables mid = adminTables db := applied_spares hbetween hmid
    obtain ⟨hchannels, hactions⟩ := Prod.mk.inj hsame
    obtain ⟨mid', hupdate, hlast⟩ := applied_cons.mp hlast
    obtain ⟨last, hlog, hnil⟩ := applied_cons.mp hlast
    obtain rfl := Except.ok.inj hupdate
    obtain rfl := Except.ok.inj hnil
    obtain ⟨t, ht, rfl⟩ := logs_eq_ok hlog
    refine .changed seen row modified entry hlogged (Program.readFirst_head seen _) hrow hedits ?_ ?_
    · rw [← hchannels]
    · rw [← hactions]
      exact ht

end CoffeeBuddy

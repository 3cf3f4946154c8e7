import CoffeeBuddy.Services.Twins

/-! The admin operations in two databases that are alike in the channel, and every call. -/

namespace CoffeeBuddy
open Relational Transaction

/-- The database judges an audit row by its columns and the rows these refer to. -/
def AuditSchema.ByReference (schema : AuditSchema) : Prop :=
  ∀ db db' entry, (∀ x, x ∈ db.users ↔ x ∈ db'.users) →
    ((∃ c ∈ db.channels, c.id = entry.channelId) ↔ ∃ c ∈ db'.channels, c.id = entry.channelId) →
    schema db entry = schema db' entry

/-- The ids a call may give to new rows. -/
def Call.Creates : Call → Uuid → Prop
  | .createRun run, id => id = run.id
  | .submitOrder _ _ d, id | .useLastOrder _ _ _ d, id | .closeRun _ _ _ d, id
  | .updateChannelConfig _ _ _ _ d, id | .setChannelEnabled _ _ _ _ _ d, id
  | .resetChannelData _ _ _ d, id => ∃ i, id = d.uuid4 i
  | .cancelOrder _ _ _, _ => False

/-- The call is one on the channel: on its runs, or by a Slack id that names it. -/
def Call.In (S : Scope) : Call → Prop
  | .createRun run => run.channelId = S.channel ∧ S.mine run.id = true
  | .submitOrder _ request _ => S.Names (.str request.runId)
  | .useLastOrder _ runId _ _ | .cancelOrder runId _ _ => S.Names (.str runId)
  | .closeRun _ request _ _ => S.Names (.str request.runId)
  | .updateChannelConfig _ slackChannelId _ _ _ | .setChannelEnabled _ slackChannelId _ _ _ _
  | .resetChannelData _ slackChannelId _ _ => S.slack slackChannelId

namespace Scope
variable {S : Scope} {ν : Type} {view : Channel → ν} {X : Uuid → Prop} {u v s t : Db}

section Admin
open AdminService
variable {a : SlackAdminAuthorizer} {schema : AuditSchema} {actor : AdminActor} {d : Draws}
  (hview : Function.Injective view)

include hview in
/-- With the whole row in view, the channel's row is a part like the others. -/
theorem Alike.besideChannels (h : S.Alike view X u v s t) : Table.Beside S.ownChannel
    (fun _ => False) u.channels v.channels s.channels t.channels :=
  ⟨(List.map_injective_iff.mpr hview) h.channels, h.channelsLeft, h.channelsRight, fun _ _ _ => id⟩

include hview in
theorem stays_getChannel {slackChannelId : String} (hslack : S.slack slackChannelId) :
    S.Stays view X u v (getChannel slackChannelId) fun c =>
      c.id = S.channel ∧ Table.Inner S.ownChannel u.channels v.channels c := by
  have hown : ∀ u v s t, S.Alike view X u v s t → ∀ c ∈ s.channels,
      decide (c.slackChannelId = slackChannelId) = true → S.ownChannel c = true := by
    intro u v s t h c hc hs
    cases ho : S.ownChannel c with
    | true => rfl
    | false =>
      have hclear := h.clearLeft.channels c ((h.besideChannels hview).mem_left ho |>.mp hc) ho
      rw [of_decide_eq_true hs] at hclear
      exact absurd hslack hclear
  have hread : S.Stays view X u v
      (Program.query fun db => db.channels.select fun c => c.slackChannelId = slackChannelId)
      fun found => ∀ c ∈ found,
        c.id = S.channel ∧ Table.Inner S.ownChannel u.channels v.channels c := by
    refine Program.twin_query fun s t h => ?_
    have hb := h.besideChannels hview
    refine ⟨hb.select_eq (hown u v s t h) (hown v u t s h.symm) fun _ _ _ => rfl, fun c hc => ?_⟩
    obtain ⟨hc, hs⟩ := Table.mem_select.mp hc
    have ho := hown u v s t h c hc hs
    exact ⟨of_decide_eq_true ho, hb.inner hc ho⟩
  unfold getChannel
  refine hread.bind_same fun found hfound => ?_
  split
  · exact stays_raise _
  · exact stays_pure (hfound _ (List.mem_singleton_self _))
  · exact stays_raise _

theorem stays_assertAuthorized (a : SlackAdminAuthorizer) (actor : AdminActor) :
    S.Stays view X u v (a.assertAuthorized actor) fun _ => True := by
  unfold SlackAdminAuthorizer.assertAuthorized
  split_ifs
  · exact stays_pure trivial
  · exact stays_raise _

theorem stays_configUpdates (channel : Channel) (patch : ChannelConfigPatch) :
    S.Stays view X u v (configUpdates channel patch) fun _ => True := by
  unfold configUpdates
  cases buildConfigUpdates channel patch with
  | ok updates => exact stays_pure trivial
  | error e => exact stays_raise _

include hview in
theorem stays_updateChannel {l m : Channel}
    (hl : Table.Inner S.ownChannel u.channels v.channels l)
    (hslack : m.slackChannelId = l.slackChannelId) :
    S.Stays view X u v (updateChannel l m) fun _ => True := by
  have hnames : ∀ c : Channel, (Row.merge l m c).names = c.names := fun c => by
    show (c.id, column l.slackChannelId m.slackChannelId c.slackChannelId) = (c.id, c.slackChannelId)
    rw [column_of_eq hslack]
  refine stays_unit (Program.twin_execute fun s t h => Or.inl ⟨_, _, rfl, rfl, ?_⟩)
  have hb := (h.besideChannels hview).update (l := l) (m := m) (fun _ => rfl) hl.left hl.right
  exact { h with
    channels := congrArg _ hb.inside
    channelsLeft := hb.left
    channelsRight := hb.right
    namesLeft := (Table.map_update hnames).trans h.namesLeft
    namesRight := (Table.map_update hnames).trans h.namesRight }

include hview in
theorem stays_logAction (hschema : AuditSchema.ByReference schema) (haudited : S.audited = true)
    (adminUserId : String)
    (actionType : ChannelAdminActionType) (details : ActionDetails) {newId : Uuid}
    (hnew : New X u v newId) :
    S.Stays view X u v
      (AdminAuditLogger.logAction schema S.channel adminUserId actionType details newId)
      fun _ => True := by
  unfold AdminAuditLogger.logAction
  refine stays_unit (Program.twin_execute fun s t h => ?_)
  have hb := h.besideChannels hview
  have hstored : (∃ c ∈ s.channels, c.id = S.channel) ↔ ∃ c ∈ t.channels, c.id = S.channel :=
    exists_congr fun c => and_congr_left fun hc => hb.mem_iff (decide_eq_true hc)
  have hsame := hschema s t
    ⟨newId, S.channel, adminUserId, actionType, details, none⟩ h.users hstored
  have hown : S.ownAction ⟨newId, S.channel, adminUserId, actionType, details, none⟩ = true :=
    Bool.and_eq_true_iff.mpr ⟨haudited, decide_eq_true rfl⟩
  have hinsert := h.actions.insert hown
    (fun q hq _ => hnew.left.actions q hq) (fun q hq _ => hnew.right.actions q hq) hnew.kept
  rw [hsame]
  cases schema t ⟨newId, S.channel, adminUserId, actionType, details, none⟩ with
  | false => exact Or.inr ⟨_, rfl, rfl⟩
  | true =>
    rw [if_pos rfl, if_pos rfl]
    rcases hinsert with ⟨s', t', hs, ht, hb'⟩ | ⟨hs, ht⟩
    · rw [hs, ht]
      exact Or.inl ⟨_, _, rfl, rfl, part_actions.stored s t s' t' h hb'⟩
    · rw [hs, ht]
      exact Or.inr ⟨_, rfl, rfl⟩

theorem stays_purgeChannelData :
    S.Stays view X u v (purgeChannelData S.channel) fun _ => True := by
  have hown : ∀ s t, S.Alike view X u v s t → ∀ o, orderOfChannel S.channel s o = true →
      S.ownOrder o = true := by
    intro s t h o ho
    obtain ⟨r, hr, hid, hc⟩ := orderOfChannel_iff.mp ho
    have hmine := h.mine_of_run hr (decide_eq_true hc)
    rw [hid] at hmine
    exact hmine
  have hsame : ∀ s t, S.Alike view X u v s t → ∀ o,
      orderOfChannel S.channel s o = orderOfChannel S.channel t o := by
    intro s t h o
    rw [Bool.eq_iff_iff, orderOfChannel_iff, orderOfChannel_iff]
    exact exists_congr fun r => and_congr_left fun hc => h.runs.mem_iff (decide_eq_true hc.2)
  unfold purgeChannelData
  refine (twin_deleting part_orders hown hsame).bind_same fun orders _ => ?_
  refine (twin_deleting part_runs (fun _ _ _ _ => id) fun _ _ _ _ => rfl).bind_same fun runs _ => ?_
  refine (twin_deleting part_preferences (fun _ _ _ _ => id) fun _ _ _ _ => rfl).bind_same
    fun preferences _ => ?_
  refine (twin_deleting part_stats (fun _ _ _ _ => id) fun _ _ _ _ => rfl).bind_same fun stats _ => ?_
  exact stays_pure trivial

include hview in
theorem stays_updateChannelConfig (hschema : AuditSchema.ByReference schema)
    (haudited : S.audited = true) {slackChannelId : String} (hslack : S.slack slackChannelId)
    (patch : ChannelConfigPatch)
    (hd : ∀ i, New X u v (d.uuid4 i)) : S.Stays view X u v
      (updateChannelConfig a schema slackChannelId actor patch d) fun _ => True := by
  unfold updateChannelConfig
  refine (stays_getChannel hview hslack).bind_same fun c ⟨hc, hinner⟩ => ?_
  refine (stays_assertAuthorized a actor).bind_same fun _ _ => ?_
  refine (stays_configUpdates c patch).bind_same fun updates _ => ?_
  split_ifs
  · exact stays_pure trivial
  · refine (stays_updateChannel hview hinner ?_).bind_same fun _ _ => ?_
    · exact apply_updates_slackChannelId updates c
    rw [hc]
    exact (stays_logAction hview hschema haudited _ _ _ (hd 0)).bind_same fun _ _ => stays_pure trivial

include hview in
theorem stays_setChannelEnabled (hschema : AuditSchema.ByReference schema)
    (haudited : S.audited = true) {slackChannelId : String} (hslack : S.slack slackChannelId)
    (enabled : Bool) (reason : Option String)
    (hd : ∀ i, New X u v (d.uuid4 i)) : S.Stays view X u v
      (setChannelEnabled a schema slackChannelId actor enabled reason d) fun _ => True := by
  unfold setChannelEnabled
  refine (stays_getChannel hview hslack).bind_same fun c ⟨hc, hinner⟩ => ?_
  refine (stays_assertAuthorized a actor).bind_same fun _ _ => ?_
  refine (stays_updateChannel hview hinner ?_).bind_same fun _ _ => ?_
  · rfl
  rw [hc]
  exact (stays_logAction hview hschema haudited _ _ _ (hd 0)).bind_same fun _ _ => stays_pure trivial

include hview in
theorem stays_resetChannelData (hschema : AuditSchema.ByReference schema)
    (haudited : S.audited = true) {slackChannelId : String} (hslack : S.slack slackChannelId)
    (hd : ∀ i, New X u v (d.uuid4 i)) : S.Stays view X u v
      (resetChannelData a schema slackChannelId actor d) fun _ => True := by
  unfold resetChannelData
  refine (stays_getChannel hview hslack).bind_same fun c ⟨hc, hinner⟩ => ?_
  refine (stays_assertAuthorized a actor).bind_same fun _ _ => ?_
  rw [hc]
  refine stays_purgeChannelData.bind_same fun counts _ => ?_
  refine (stays_updateChannel hview hinner ?_).bind_same fun _ _ => ?_
  · rfl
  exact (stays_logAction hview hschema haudited _ _ _ (hd 0)).bind_same fun _ _ => stays_pure trivial

end Admin

/-! ### Every call -/

theorem stays_insertRun {run : Run} (hnew : New X u v run.id) (hchannel : run.channelId = S.channel)
    (hmine : S.mine run.id = true) : S.Stays view X u v (insertRun run) fun _ => True := by
  have ho : S.ownRun run = true := decide_eq_true hchannel
  have hu : u.runs.Apart S.ownRun (Keyed.key run) := fun q hq _ => hnew.left.runs q hq
  have hv : v.runs.Apart S.ownRun (Keyed.key run) := fun q hq _ => hnew.right.runs q hq
  refine stays_unit (twin_inserting part_runs ho hu hv ?_)
  rintro (hX | hfalse)
  · exact hnew.kept hX
  · exact absurd (hmine.symm.trans hfalse) Bool.noConfusion

/-- A call on the channel does the same in both databases. An admin call reads and writes the
whole row of the channel. -/
theorem stays_tx (db : Database) (hview : ∀ c c', view c = view c' → c.reported = c'.reported)
    (hadmin : ∀ x, S.slack x → Function.Injective view ∧ AuditSchema.ByReference db.auditSchema ∧
      S.audited = true)
    {c : Call} (hin : c.In S) (hnew : ∀ id, c.Creates id → New X u v id) :
    S.Stays view X u v (c.tx db) fun _ => True := by
  cases c with
  | createRun run =>
    have hrun : S.Stays view X u v (insertRun run.row) fun _ => True :=
      stays_insertRun (hnew run.id rfl) hin.1 hin.2
    exact hrun.bind_same fun _ _ => stays_pure trivial
  | submitOrder w request d =>
    refine (stays_submitOrder w hin fun i => hnew _ ⟨i, rfl⟩).bind_same fun result _ => ?_
    exact stays_pure trivial
  | useLastOrder w runId userId d =>
    refine (stays_useLastOrder w userId hin fun i => hnew _ ⟨i, rfl⟩).bind_same fun result _ => ?_
    exact stays_pure trivial
  | cancelOrder runId userId d =>
    exact (stays_cancelOrder userId hin).bind_same fun result _ => stays_pure trivial
  | closeRun authorizer request now d =>
    refine (stays_closeRun hview authorizer db.collation hin fun i => hnew _ ⟨i, rfl⟩).bind_same
      fun result _ => ?_
    exact stays_pure trivial
  | updateChannelConfig a slackChannelId actor patch d =>
    obtain ⟨hinjective, hschema, haudited⟩ := hadmin _ hin
    refine (stays_updateChannelConfig hinjective hschema haudited hin patch
      fun i => hnew _ ⟨i, rfl⟩).bind_same fun result _ => ?_
    exact stays_pure trivial
  | setChannelEnabled a slackChannelId actor enabled reason d =>
    obtain ⟨hinjective, hschema, haudited⟩ := hadmin _ hin
    refine (stays_setChannelEnabled hinjective hschema haudited hin enabled reason
      fun i => hnew _ ⟨i, rfl⟩).bind_same fun result _ => ?_
    exact stays_pure trivial
  | resetChannelData a slackChannelId actor d =>
    obtain ⟨hinjective, hschema, haudited⟩ := hadmin _ hin
    refine (stays_resetChannelData hinjective hschema haudited hin
      fun i => hnew _ ⟨i, rfl⟩).bind_same fun result _ => ?_
    exact stays_pure trivial

theorem Alike.perform {db : Database} {c : Call} (h : S.Alike view X u v s t)
    (hc : S.Stays view X u v (c.tx db) fun _ => True) :
    (perform db c s).1 = (perform db c t).1 ∧
      S.Alike view X u v (perform db c s).2 (perform db c t).2 := by
  obtain ⟨hresult, halike⟩ := hc.exec h
  unfold CoffeeBuddy.perform
  rcases hs : (c.tx db).exec s with ⟨e | answer, s'⟩ <;>
    rcases ht : (c.tx db).exec t with ⟨e' | answer', t'⟩ <;>
    rw [hs, ht] at hresult halike
  · obtain rfl := Except.error.inj hresult
    refine ⟨rfl, ?_⟩
    dsimp only
    split_ifs
    · exact h
    · exact halike
  · cases hresult
  · cases hresult
  · exact ⟨hresult, halike⟩

end Scope

/-! ### Calls that draw two ids -/

namespace Sample

def pairDraws (t : ℕ) : Draws where
  clock i := t + i
  uuid4 i := if i = 0 then .ofNat (1000 * t) else .ofNat (1000 * t + 1)

/-- Alice orders in run `n`. -/
def orders (t n : ℕ) : Call :=
  .submitOrder {} { runId := (Uuid.ofNat n).str, userId := alice.id.str, orderText := "latte" }
    (pairDraws t)

def closes (t n : ℕ) : Call :=
  .closeRun (fun _ _ => true) { runId := (Uuid.ofNat n).str, actorUserId := "" } t (pairDraws t)

def drawnIds (t : ℕ) : List Uuid := [.ofNat (1000 * t), .ofNat (1000 * t + 1)]

theorem mem_drawnIds {t : ℕ} {id : Uuid} (h : ∃ i, id = (pairDraws t).uuid4 i) :
    id ∈ drawnIds t := by
  obtain ⟨i, rfl⟩ := h
  unfold pairDraws drawnIds
  dsimp only
  split_ifs
  · exact List.mem_cons_self
  · exact List.mem_cons_of_mem _ List.mem_cons_self

theorem avoids_pairDraws {db₀ : Db} {t : ℕ} (h : ∀ id ∈ drawnIds t, db₀.Avoids id) (id : Uuid)
    (hid : ∃ i, id = (pairDraws t).uuid4 i) : db₀.Avoids id := h id (mem_drawnIds hid)

theorem disjoint_pairDraws {t u : ℕ} (h : ∀ id ∈ drawnIds t, id ∉ drawnIds u) (id : Uuid)
    (hid : ∃ i, id = (pairDraws t).uuid4 i) : ¬∃ i, id = (pairDraws u).uuid4 i :=
  fun hid' => h id (mem_drawnIds hid) (mem_drawnIds hid')

theorem names_run {S : Scope} {n : ℕ} (h : S.mine (.ofNat n) = true) :
    S.Names (.str (Uuid.ofNat n).str) := by
  intro id hid
  rw [Ident.asUuid_str, Option.some.injEq] at hid
  rw [← hid]
  exact h

end Sample
end CoffeeBuddy

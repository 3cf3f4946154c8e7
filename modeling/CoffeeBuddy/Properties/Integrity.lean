import CoffeeBuddy.Services.Acceptance
import CoffeeBuddy.Services.History

/-! Which calls the schema accepts. Every write of an order call or a close keeps the
constraints; an audit row is written without its `created_at` and never accepted. -/

namespace CoffeeBuddy
open Relational Transaction

/-! ### Audit rows -/

/-- The call passes its own checks: only the database may still refuse it. -/
def Passes (s : Database) (c : Call) (db : Db) : Prop :=
  ∀ e t, (c.tx s).Raises db e t → e = .integrityError

/-- The operations that write an audit row; a patch of nothing writes none. -/
def Call.Audited : Call → Prop
  | .updateChannelConfig _ _ _ patch _ => patch ≠ {}
  | .setChannelEnabled _ _ _ _ _ _ | .resetChannelData _ _ _ _ => True
  | _ => False

namespace AdminService
variable {a : SlackAdminAuthorizer} {schema : AuditSchema} {slackChannelId : String}
  {actor : AdminActor} {channel : Channel} {patch : ChannelConfigPatch} {d : Draws} {db t : Db}
  {e : Exc}

theorem raises_getChannel (h : (getChannel slackChannelId).Raises db e t) : e ≠ .integrityError := by
  simp only [getChannel, Program.raises_bind, Program.raises_query, false_or] at h
  obtain ⟨found, _, -, h⟩ := h
  split at h
  · rw [(raises_tx_raise.mp h).1]
    exact Exc.noConfusion
  · exact absurd h Program.raises_pure
  · rw [(raises_tx_raise.mp h).1]
    exact Exc.noConfusion

theorem raises_assertAuthorized (h : (a.assertAuthorized actor).Raises db e t) :
    e ≠ .integrityError := by
  unfold SlackAdminAuthorizer.assertAuthorized at h
  split_ifs at h
  · exact absurd h Program.raises_pure
  · rw [(raises_tx_raise.mp h).1]
    exact Exc.noConfusion

theorem raises_configUpdates (h : (configUpdates channel patch).Raises db e t) :
    e ≠ .integrityError := by
  unfold configUpdates at h
  split at h
  · exact absurd h Program.raises_pure
  · rw [(raises_tx_raise.mp h).1]
    exact Exc.noConfusion

/-- A check that is passed returns, and what follows passes its checks too. -/
theorem exists_returns {α β : Type} {p : Tx α} {f : α → Tx β} (hp : p.ReadOnly)
    (hraise : ∀ e t, p.Raises db e t → e ≠ .integrityError)
    (h : ∀ e t, (p >>= f).Raises db e t → e = .integrityError) :
    ∃ a, p.Returns db a db ∧ ∀ e t, (f a).Raises db e t → e = .integrityError := by
  rcases Program.returns_or_raises p db with ⟨a, u, hret⟩ | ⟨e, u, hr⟩
  · obtain rfl := hp.returns hret
    exact ⟨a, hret, fun e t hf => h e t (hret.bind_raises.mpr hf)⟩
  · have he := h e u (Program.raises_bind.mpr (Or.inl hr))
    exact absurd he (hraise e u hr)

/-- No audit row is accepted: it has no `created_at`. -/
theorem not_accepted_logAction {channelId : Uuid} {adminUserId : String}
    {actionType : ChannelAdminActionType} {details : ActionDetails} {newId : Uuid} :
    ¬(AdminAuditLogger.logAction schema channelId adminUserId actionType details newId).Accepted
      Db.Meets db := by
  unfold AdminAuditLogger.logAction
  dsimp only
  rw [Program.accepted_execute]
  rintro ⟨u, hu, hm⟩
  split at hu
  · rename_i t ht
    obtain rfl := Except.ok.inj hu
    split_ifs at ht
    have hmem := (Table.mem_insert ht).mpr (Or.inr rfl)
    have hcreated : (none : Option Timestamp).isSome = true := (hm.complete _ hmem).1
    exact absurd hcreated Bool.false_ne_true
  · cases hu

theorem not_accepted_audited {α : Type} {c : Channel} {details : ActionDetails}
    {actionType : ChannelAdminActionType} {result : α} : ¬(do
      updateChannel channel c
      AdminAuditLogger.logAction schema channel.id actor.userId actionType details (d.uuid4 0)
      return result : Tx α).Accepted Db.Meets db := by
  intro h
  have hlog := (Program.accepted_bind.mp h).2 () _ (returns_updating.mpr rfl)
  exact not_accepted_logAction (Program.accepted_bind.mp hlog).1

theorem ranged_eq_nil {update : ℤ → ConfigUpdate} {value : Option ℤ} {lo hi : ℤ}
    (h : ranged update value lo hi = .ok []) : value = none := by
  cases value with
  | none => rfl
  | some v =>
    unfold ranged ensureRange at h
    dsimp only at h
    split_ifs at h
    · cases h
    · cases h

theorem eq_empty_of_no_updates (h : buildConfigUpdates channel patch = .ok []) : patch = {} := by
  unfold buildConfigUpdates at h
  obtain ⟨us₁, hoffset, h⟩ := bind_eq_ok.mp h
  obtain ⟨us₂, hwindow, h⟩ := bind_eq_ok.mp h
  obtain ⟨us₃, hretention, h⟩ := bind_eq_ok.mp h
  obtain ⟨us₄, hlead, h⟩ := bind_eq_ok.mp h
  have hnil : us₁ ++ us₂ ++ us₃ ++ (patch.remindersEnabled.map ConfigUpdate.remindersEnabled).toList ++
      (patch.lastCallEnabled.map ConfigUpdate.lastCallEnabled).toList ++ us₄ = [] := by
    split_ifs at h
    · cases h
    · exact Except.ok.inj h
  simp only [List.append_eq_nil_iff, Option.toList_eq_nil_iff, Option.map_eq_none_iff] at hnil
  obtain ⟨⟨⟨⟨⟨rfl, rfl⟩, rfl⟩, hreminders⟩, hlastCall⟩, rfl⟩ := hnil
  obtain ⟨offset, window, retention, reminders, lastCall, lead⟩ := patch
  obtain rfl : offset = none := ranged_eq_nil hoffset
  obtain rfl : window = none := ranged_eq_nil hwindow
  obtain rfl : retention = none := ranged_eq_nil hretention
  obtain rfl : lead = none := ranged_eq_nil hlead
  obtain rfl : reminders = none := hreminders
  obtain rfl : lastCall = none := hlastCall
  rfl

theorem not_accepted_updateChannelConfig (hpatch : patch ≠ {})
    (h : ∀ e t, (updateChannelConfig a schema slackChannelId actor patch d).Raises db e t →
      e = .integrityError) :
    ¬(updateChannelConfig a schema slackChannelId actor patch d).Accepted Db.Meets db := by
  unfold updateChannelConfig at h ⊢
  obtain ⟨channel, hchannel, h⟩ := exists_returns readOnly_getChannel (fun _ _ => raises_getChannel) h
  obtain ⟨_, ha, h⟩ := exists_returns readOnly_assertAuthorized (fun _ _ => raises_assertAuthorized) h
  obtain ⟨updates, hupdates, h⟩ := exists_returns readOnly_configUpdates
    (fun _ _ => raises_configUpdates) h
  intro hacc
  have hrest := (Program.accepted_bind.mp ((Program.accepted_bind.mp ((Program.accepted_bind.mp
    hacc).2 _ _ hchannel)).2 _ _ ha)).2 _ _ hupdates
  have hne : updates ≠ [] := by
    rintro rfl
    exact hpatch (eq_empty_of_no_updates (returns_configUpdates.mp hupdates).1)
  rw [if_neg hne] at hrest
  exact not_accepted_audited hrest

theorem not_accepted_setChannelEnabled {enabled : Bool} {reason : Option String}
    (h : ∀ e t, (setChannelEnabled a schema slackChannelId actor enabled reason d).Raises db e t →
      e = .integrityError) :
    ¬(setChannelEnabled a schema slackChannelId actor enabled reason d).Accepted Db.Meets db := by
  unfold setChannelEnabled at h ⊢
  obtain ⟨channel, hchannel, h⟩ := exists_returns readOnly_getChannel (fun _ _ => raises_getChannel) h
  obtain ⟨_, ha, -⟩ := exists_returns readOnly_assertAuthorized (fun _ _ => raises_assertAuthorized) h
  intro hacc
  exact not_accepted_audited ((Program.accepted_bind.mp ((Program.accepted_bind.mp hacc).2 _ _
    hchannel)).2 _ _ ha)

theorem not_accepted_resetChannelData
    (h : ∀ e t, (resetChannelData a schema slackChannelId actor d).Raises db e t →
      e = .integrityError) :
    ¬(resetChannelData a schema slackChannelId actor d).Accepted Db.Meets db := by
  unfold resetChannelData at h ⊢
  obtain ⟨channel, hchannel, h⟩ := exists_returns readOnly_getChannel (fun _ _ => raises_getChannel) h
  obtain ⟨_, ha, -⟩ := exists_returns readOnly_assertAuthorized (fun _ _ => raises_assertAuthorized) h
  intro hacc
  have hpurge := (Program.accepted_bind.mp ((Program.accepted_bind.mp hacc).2 _ _ hchannel)).2 _ _ ha
  have hret := returns_purgeChannelData.mpr (⟨rfl, rfl⟩ : _ ∧ purged channel.id db = _)
  exact not_accepted_audited ((Program.accepted_bind.mp hpurge).2 _ _ hret)

theorem accepted_updateChannelConfig_empty :
    (updateChannelConfig a schema slackChannelId actor {} d).Accepted Db.Meets db := by
  unfold updateChannelConfig
  refine readOnly_getChannel.accepted_bind fun channel _ => ?_
  refine readOnly_assertAuthorized.accepted_bind fun _ _ => ?_
  refine readOnly_configUpdates.accepted_bind fun updates hupdates => ?_
  have hnil : updates = [] := by
    have hok := (returns_configUpdates.mp hupdates).1
    exact (Except.ok.inj hok).symm
  rw [if_pos hnil]
  exact Program.accepted_pure

end AdminService

/-! ### The calls the schema accepts -/

/-- The ids a call draws are new. -/
def Call.Fresh (db : Db) : Call → Prop
  | .createRun run => ∀ r ∈ db.runs, r.id ≠ run.id
  | .submitOrder _ _ d | .useLastOrder _ _ _ d | .cancelOrder _ _ d | .closeRun _ _ _ d
  | .updateChannelConfig _ _ _ _ d | .setChannelEnabled _ _ _ _ _ d
  | .resetChannelData _ _ _ d => d.Fresh db

/-- A call on the database with the schema: its statements take effect when they are all
accepted, and otherwise its session rolls back. -/
def storedStep (s : Database) (db : Db) (c : Call) (db' : Db) : Prop :=
  db' = db ∨ (c.tx s).Accepted Db.Meets db ∧ db' = ((c.tx s).exec db).2

section Calls
variable {s : Database} {db₀ db : Db}

theorem meets_of_stored {es : List (Transition.Event Db Call)}
    (h : Transition.Path (storedStep s) db₀ es db) (h₀ : db₀.Meets) : db.Meets := by
  refine Transition.Path.invariant (I := Db.Meets) (fun db c db' hstep hm => ?_) h h₀
  rcases hstep with rfl | ⟨hacc, rfl⟩
  · exact hm
  · exact hacc.exec hm

theorem passes_tx {α : Type} {p : Tx α} {f : α → Answer} (h : ∀ e t, (do
    let result ← p
    return f result : Tx Answer).Raises db e t → e = .integrityError) :
    ∀ e t, p.Raises db e t → e = .integrityError := fun e t hr =>
  h e t (Program.raises_bind_pure.mpr hr)

theorem accepted_iff_not_audited (s : Database) (db₀ db : Db)
    (es : List (Transition.Event Db Call)) (c : Call)
    (h : Transition.Path (storedStep s) db₀ es db) (h₀ : db₀.Meets)
    (hop : ∀ run, c ≠ .createRun run) (hd : c.Fresh db) (hpass : Passes s c db) :
    (c.tx s).Accepted Db.Meets db ↔ ¬c.Audited := by
  have hm := meets_of_stored h h₀
  cases c with
  | createRun run => exact absurd rfl (hop run)
  | submitOrder v request d => exact iff_of_true (Program.accepted_bind_pure.mpr (accepted_submitOrder hm hd)) id
  | useLastOrder v runId userId d =>
    exact iff_of_true (Program.accepted_bind_pure.mpr (accepted_useLastOrder hm hd)) id
  | cancelOrder runId userId d => exact iff_of_true (Program.accepted_bind_pure.mpr (accepted_cancelOrder hm)) id
  | closeRun authorizer request now d =>
    exact iff_of_true (Program.accepted_bind_pure.mpr (accepted_closeRun hm hd)) id
  | updateChannelConfig a slackChannelId actor patch d =>
    by_cases hpatch : patch = {}
    · subst hpatch
      exact iff_of_true (Program.accepted_bind_pure.mpr AdminService.accepted_updateChannelConfig_empty)
        fun hne => hne rfl
    · refine iff_of_false (fun hacc => ?_) fun hne => hne hpatch
      exact AdminService.not_accepted_updateChannelConfig hpatch (passes_tx hpass)
        (Program.accepted_bind_pure.mp hacc)
  | setChannelEnabled a slackChannelId actor enabled reason d =>
    refine iff_of_false (fun hacc => ?_) fun hne => hne trivial
    exact AdminService.not_accepted_setChannelEnabled (passes_tx hpass) (Program.accepted_bind_pure.mp hacc)
  | resetChannelData a slackChannelId actor d =>
    refine iff_of_false (fun hacc => ?_) fun hne => hne trivial
    exact AdminService.not_accepted_resetChannelData (passes_tx hpass) (Program.accepted_bind_pure.mp hacc)

end Calls

/-! ### A refused and an accepted call -/

namespace Sample

theorem meets_opened : opened.Meets := ⟨by decide, by decide, by decide⟩

theorem fresh_opened : (draws 1).Fresh opened where
  distinct := by decide +kernel
  orders := fun o ho => absurd ho List.not_mem_nil
  preferences := fun p hp => absurd hp List.not_mem_nil
  stats := fun t ht => absurd ht List.not_mem_nil

theorem passes_of_isOk {c : Call} {s : Database} {db : Db}
    (h : ((c.tx s).exec db).1.isOk = true) : Passes s c db := by
  intro e t hraises
  rw [show (c.tx s).exec db = (.error e, t) from hraises] at h
  exact absurd h Bool.false_ne_true

theorem passes_disabling : Passes database disabling opened :=
  passes_of_isOk (by decide +kernel)

theorem passes_submit : Passes database (submit 1 11 alice) opened :=
  passes_of_isOk (by decide +kernel)

end Sample

open Sample in
/-- Disabling a channel passes its checks and is refused by the schema. -/
theorem audit_row_refused : opened.Meets ∧ disabling.Fresh opened ∧
    Passes database disabling opened ∧ ¬(disabling.tx database).Accepted Db.Meets opened :=
  ⟨meets_opened, fresh_opened, passes_disabling, fun hacc =>
    AdminService.not_accepted_setChannelEnabled (passes_tx passes_disabling) (Program.accepted_bind_pure.mp hacc)⟩

open Sample in
theorem accepted_iff_not_audited_submit :
    ((submit 1 11 alice).tx database).Accepted Db.Meets opened ↔ ¬(submit 1 11 alice).Audited :=
  accepted_iff_not_audited database opened opened [] (submit 1 11 alice) .nil meets_opened
    (fun _ => nofun) fresh_opened passes_submit

end CoffeeBuddy

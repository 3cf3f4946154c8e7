import CoffeeBuddy.Properties.Audit
import CoffeeBuddy.Reminders.Scheduler

/-! Configuration updates of a channel as a store of settings that accepted patches are
applied to: what a patch sets, when it is valid, and what each call leaves of the row. -/

namespace CoffeeBuddy
open Relational Transaction

namespace Settings

/-- The ranges of the settings. -/
structure InRange (s : Settings) : Prop where
  reminderOffset : 1 ≤ s.reminderOffsetMinutes ∧ s.reminderOffsetMinutes ≤ 60
  fairnessWindow : 1 ≤ s.fairnessWindowRuns ∧ s.fairnessWindowRuns ≤ 50
  dataRetention : 30 ≤ s.dataRetentionDays ∧ s.dataRetentionDays ≤ 365
  lastCallLead : ∀ lead ∈ s.lastCallLeadMinutes, 1 ≤ lead ∧ lead ≤ 30

end Settings

namespace ChannelConfigPatch

/-- Every field of the patch is in range, and last call is enabled with a lead time only. -/
structure Valid (patch : ChannelConfigPatch) (s : Settings) : Prop where
  reminderOffset : ∀ v ∈ patch.reminderOffsetMinutes, 1 ≤ v ∧ v ≤ 60
  fairnessWindow : ∀ v ∈ patch.fairnessWindowRuns, 1 ≤ v ∧ v ≤ 50
  dataRetention : ∀ v ∈ patch.dataRetentionDays, 30 ≤ v ∧ v ≤ 365
  lastCallLead : ∀ v ∈ patch.lastCallLeadMinutes, 1 ≤ v ∧ v ≤ 30
  enabling : patch.lastCallEnabled = some true → patch.lastCallLeadMinutes = none →
    s.lastCallLeadMinutes ≠ none

/-- The settings with the fields of the patch that are present. -/
def applyTo (patch : ChannelConfigPatch) (s : Settings) : Settings :=
  { s with
    reminderOffsetMinutes := patch.reminderOffsetMinutes.getD s.reminderOffsetMinutes
    fairnessWindowRuns := patch.fairnessWindowRuns.getD s.fairnessWindowRuns
    dataRetentionDays := patch.dataRetentionDays.getD s.dataRetentionDays
    remindersEnabled := patch.remindersEnabled.getD s.remindersEnabled
    lastCallEnabled := patch.lastCallEnabled.getD s.lastCallEnabled
    lastCallLeadMinutes := patch.lastCallLeadMinutes.or s.lastCallLeadMinutes }

/-- The names of the fields of the patch that are present. -/
def fields (patch : ChannelConfigPatch) : List String :=
  [("reminder_offset_minutes", patch.reminderOffsetMinutes.isSome),
    ("fairness_window_runs", patch.fairnessWindowRuns.isSome),
    ("data_retention_days", patch.dataRetentionDays.isSome),
    ("reminders_enabled", patch.remindersEnabled.isSome),
    ("last_call_enabled", patch.lastCallEnabled.isSome),
    ("last_call_lead_minutes", patch.lastCallLeadMinutes.isSome)].filterMap
      fun e => if e.2 then some e.1 else none

def updates (patch : ChannelConfigPatch) : List ConfigUpdate :=
  (patch.reminderOffsetMinutes.map .reminderOffsetMinutes).toList ++
    (patch.fairnessWindowRuns.map .fairnessWindowRuns).toList ++
    (patch.dataRetentionDays.map .dataRetentionDays).toList ++
    (patch.remindersEnabled.map .remindersEnabled).toList ++
    (patch.lastCallEnabled.map .lastCallEnabled).toList ++
    (patch.lastCallLeadMinutes.map .lastCallLeadMinutes).toList

variable {patch : ChannelConfigPatch} {s : Settings}

theorem foldl_updates : patch.updates.foldl Settings.update s = patch.applyTo s := by
  obtain ⟨_ | _, _ | _, _ | _, _ | _, _ | _, _ | _⟩ := patch <;> rfl

theorem map_field_updates : patch.updates.map ConfigUpdate.field = patch.fields := by
  obtain ⟨_ | _, _ | _, _ | _, _ | _, _ | _, _ | _⟩ := patch <;> rfl

theorem Valid.inRange (h : patch.Valid s) (hs : s.InRange) : (patch.applyTo s).InRange := by
  have hgetD : ∀ {lo hi w : ℤ} {v : Option ℤ}, (∀ x ∈ v, lo ≤ x ∧ x ≤ hi) → lo ≤ w ∧ w ≤ hi →
      lo ≤ v.getD w ∧ v.getD w ≤ hi := by
    intro lo hi w v hv hw
    cases v with
    | none => exact hw
    | some x => exact hv x rfl
  refine ⟨hgetD h.reminderOffset hs.reminderOffset, hgetD h.fairnessWindow hs.fairnessWindow,
    hgetD h.dataRetention hs.dataRetention, fun lead hlead => ?_⟩
  rcases Option.or_eq_some_iff.mp hlead with hpatch | ⟨-, hold⟩
  · exact h.lastCallLead lead hpatch
  · exact hs.lastCallLead lead hold

theorem lead_kept (h : s.lastCallLeadMinutes.isSome = true) :
    (patch.applyTo s).lastCallLeadMinutes.isSome = true := by
  show (patch.lastCallLeadMinutes.or s.lastCallLeadMinutes).isSome = true
  rw [Option.isSome_or, h, Bool.or_true]

/-- The patch turns last call on or has a lead time. -/
def NeedsLead (patch : ChannelConfigPatch) : Prop :=
  patch.lastCallEnabled = some true ∨ patch.lastCallLeadMinutes.isSome = true

theorem Valid.lead_of_needs (h : patch.Valid s) (hneeds : patch.NeedsLead) :
    (patch.applyTo s).lastCallLeadMinutes.isSome = true := by
  show (patch.lastCallLeadMinutes.or s.lastCallLeadMinutes).isSome = true
  cases hlead : patch.lastCallLeadMinutes with
  | some v => rfl
  | none =>
    rcases hneeds with hon | hgiven
    · have hstored := h.enabling hon hlead
      rw [Option.none_or]
      exact Option.isSome_iff_ne_none.mpr hstored
    · rw [hlead] at hgiven
      cases hgiven

end ChannelConfigPatch

namespace AdminService
variable {patch : ChannelConfigPatch} {channel : Channel}

theorem ranged_ok {update : ℤ → ConfigUpdate} {value : Option ℤ} {lo hi : ℤ}
    {us : List ConfigUpdate} : ranged update value lo hi = .ok us ↔
      (∀ v ∈ value, lo ≤ v ∧ v ≤ hi) ∧ us = (value.map update).toList := by
  cases value with
  | none => simp [ranged, pure, Except.pure, eq_comm]
  | some v =>
    by_cases hv : lo ≤ v ∧ v ≤ hi
    · simp [ranged, ensureRange, hv, bind, Except.bind, pure, Except.pure, eq_comm]
    · simp only [ranged, ensureRange, hv, if_false]
      refine iff_of_false nofun fun h => hv (h.1 v rfl)

theorem buildConfigUpdates_ok {updates : List ConfigUpdate} :
    buildConfigUpdates channel patch = .ok updates ↔
      patch.Valid channel.settings ∧ updates = patch.updates := by
  simp only [buildConfigUpdates, bind_eq_ok, ranged_ok]
  constructor
  · rintro ⟨_, ⟨hoffset, rfl⟩, _, ⟨hwindow, rfl⟩, _, ⟨hretention, rfl⟩, _, ⟨hlead, rfl⟩, h⟩
    split_ifs at h with hmissing
    · cases h
    · obtain rfl := Except.ok.inj h
      exact ⟨⟨hoffset, hwindow, hretention, hlead, fun hon hnone hstored =>
        hmissing ⟨hon, hnone, hstored⟩⟩, rfl⟩
  · rintro ⟨⟨hoffset, hwindow, hretention, hlead, henabling⟩, rfl⟩
    refine ⟨_, ⟨hoffset, rfl⟩, _, ⟨hwindow, rfl⟩, _, ⟨hretention, rfl⟩, _, ⟨hlead, rfl⟩, ?_⟩
    have hstored : ¬(patch.lastCallEnabled = some true ∧ patch.lastCallLeadMinutes = none ∧
        channel.lastCallLeadMinutes = none) := fun h => henabling h.1 h.2.1 h.2.2
    rw [if_neg hstored]
    rfl

/-- A configuration call that returns has found one row under its Slack id. -/
theorem only_row {a : SlackAdminAuthorizer} {schema : AuditSchema} {slackChannelId : String}
    {actor : AdminActor} {d : Draws} {res : ChannelConfigUpdateResult} {db db' : Db}
    (h : (updateChannelConfig a schema slackChannelId actor patch d).Returns db res db')
    {c c' : Channel} (hc : c ∈ db.channels) (hs : c.slackChannelId = slackChannelId)
    (hc' : c' ∈ db.channels) (hs' : c'.slackChannelId = slackChannelId) : c = c' := by
  unfold updateChannelConfig at h
  obtain ⟨found, _, hget, -⟩ := Program.returns_bind.mp h
  exact (eq_of_returns_getChannel hget hc hs).trans (eq_of_returns_getChannel hget hc' hs').symm

end AdminService

/-! ### What a call leaves of a row -/

/-- The accepted patch of a call for the channel. -/
def acceptedPatch (slackChannelId : String) : Label → Option ChannelConfigPatch
  | (.updateChannelConfig _ id _ patch _, .ok _) => if id = slackChannelId then some patch else none
  | _ => none

/-- The row `c` of a channel and the row `c'` the event leaves of it. -/
structure Succeeds (e : Event) (c c' : Channel) : Prop where
  before : c ∈ e.before.channels
  after : c' ∈ e.after.channels
  id : c'.id = c.id
  slackChannelId : c'.slackChannelId = c.slackChannelId

/-- A patch of the channel was accepted and is applied, or only its flag may have changed. -/
inductive Tuned (l : Label) (c c' : Channel) : Prop
  | patched {patch : ChannelConfigPatch} : acceptedPatch c.slackChannelId l = some patch →
      patch.Valid c.settings → c'.settings = patch.applyTo c.settings →
      l.2 = .ok (.configured ⟨c.id.str, patch.fields⟩) → Tuned l c c'
  | kept (enabled : Bool) : acceptedPatch c.slackChannelId l = none →
      c'.settings = { c.settings with enabled := enabled } → Tuned l c c'

section Steps
variable {s : Database} {e : Event} {c : Channel}

theorem Succeeds.same (hc : c ∈ e.before.channels) (h : e.after.channels = e.before.channels) :
    Succeeds e c c := ⟨hc, h ▸ hc, rfl, rfl⟩

theorem acceptedPatch_eq_none {l : Label} {slackChannelId : String}
    (h : administration l.1 = none) : acceptedPatch slackChannelId l = none := by
  obtain ⟨call, outcome⟩ := l
  cases call <;> first | rfl | cases h

/-- A service call that is no admin call leaves the channels alone. -/
theorem channels_kept (h : step s e.before e.label e.after)
    (hadmin : administration e.label.1 = none) : e.after.channels = e.before.channels := by
  rcases audits_of_step h with ⟨hchannels, -⟩ | ⟨_, _, _, -, -, -, -, -, -, -, hwritten, -⟩
  · exact hchannels
  · obtain ⟨authorizer, actor, hadmin', -⟩ := hwritten.actor
    rw [hadmin] at hadmin'
    cases hadmin'

theorem succeeds_update {row modified : Channel} (hrow : row ∈ e.before.channels)
    (hafter : e.after.channels = e.before.channels.update row modified)
    (hid : modified.id = row.id) (hslack : modified.slackChannelId = row.slackChannelId)
    (hc : c ∈ e.before.channels) :
    c = row ∧ Succeeds e c modified ∨ c ≠ row ∧ Succeeds e c c := by
  have hmem : ∀ x, x ∈ e.after.channels ↔ x = modified ∨ x ∈ e.before.channels ∧ x.id ≠ row.id := by
    intro x
    rw [hafter]
    exact Table.mem_update hrow hid
  by_cases hk : c.id = row.id
  · obtain rfl : c = row := Table.eq_of_key hc hrow hk
    exact Or.inl ⟨rfl, hc, (hmem _).mpr (Or.inl rfl), hid, hslack⟩
  · refine Or.inr ⟨fun h => hk (congrArg Channel.id h), hc, ?_, rfl, rfl⟩
    exact (hmem c).mpr (Or.inr ⟨hc, hk⟩)

theorem succeeds_of_updateChannelConfig {a : SlackAdminAuthorizer} {slackChannelId : String}
    {actor : AdminActor} {patch : ChannelConfigPatch} {d : Draws} {res : ChannelConfigUpdateResult}
    {db db' : Db} (h : (AdminService.updateChannelConfig a s.auditSchema slackChannelId actor patch
      d).Returns db res db') (hc : c ∈ db.channels) :
    ∃ c', Succeeds ⟨db, (.updateChannelConfig a slackChannelId actor patch d, .ok (.configured res)),
        db'⟩ c c' ∧
      Tuned (.updateChannelConfig a slackChannelId actor patch d, .ok (.configured res)) c c' := by
  set e : Event :=
    ⟨db, (.updateChannelConfig a slackChannelId actor patch d, .ok (.configured res)), db'⟩
  obtain ⟨row, updates, hrow, hslack, -, hu, hres, hwritten⟩ :=
    AdminService.returns_updateChannelConfig h
  obtain ⟨hvalid, rfl⟩ := AdminService.buildConfigUpdates_ok.mp hu
  have hanswer : e.label.2 = .ok (.configured ⟨row.id.str, patch.fields⟩) := by
    rw [← ChannelConfigPatch.map_field_updates, ← hres]
  -- the row found is the only one under its Slack id
  have hkept : c ≠ row → acceptedPatch c.slackChannelId e.label = none := fun hne =>
    if_neg fun hs => hne (AdminService.only_row h hc hs.symm hrow hslack)
  have hpatched : acceptedPatch row.slackChannelId e.label = some patch := if_pos hslack.symm
  rcases hwritten with ⟨hnil, hdb⟩ | ⟨-, t, -, hdb⟩
  · have hsame : e.after.channels = e.before.channels := congrArg Db.channels hdb
    refine ⟨c, .same hc hsame, ?_⟩
    by_cases heq : c = row
    · subst heq
      refine .patched hpatched hvalid ?_ hanswer
      rw [← ChannelConfigPatch.foldl_updates, hnil]
      rfl
    · exact .kept c.enabled (hkept heq) rfl
  · have hafter : e.after.channels = e.before.channels.update row
        { patch.updates.foldl ConfigUpdate.apply row with updatedAt := d.clock 0 } :=
      congrArg Db.channels hdb
    have hid := apply_updates_id patch.updates row
    have hslackKept := apply_updates_slackChannelId patch.updates row
    rcases succeeds_update hrow hafter hid hslackKept hc with
      ⟨rfl, hsucc⟩ | ⟨hne, hsucc⟩
    · refine ⟨_, hsucc, .patched hpatched hvalid ?_ hanswer⟩
      rw [← ChannelConfigPatch.foldl_updates]
      exact settings_foldl patch.updates c
    · exact ⟨c, hsucc, .kept c.enabled (hkept hne) rfl⟩

theorem succeeds_of_step (h : step s e.before e.label e.after) (hc : c ∈ e.before.channels) :
    ∃ c', Succeeds e c c' ∧ Tuned e.label c c' := by
  obtain ⟨db, ⟨call, outcome⟩, db'⟩ := e
  cases outcome with
  | error error =>
    have hsame : db' = db := failed_step h
    refine ⟨c, .same hc (congrArg Db.channels hsame), .kept c.enabled ?_ rfl⟩
    cases call <;> rfl
  | ok answer =>
    -- calls that are no admin calls write no channel
    by_cases hadmin : administration call = none
    · exact ⟨c, .same hc (channels_kept h hadmin), .kept c.enabled (acceptedPatch_eq_none hadmin) rfl⟩
    cases call with
    | updateChannelConfig a slackChannelId actor patch d =>
      obtain ⟨res, hcall, rfl⟩ := Program.returns_bind_pure.mp h
      exact succeeds_of_updateChannelConfig hcall hc
    | setChannelEnabled a slackChannelId actor enabled reason d =>
      obtain ⟨res, hcall, rfl⟩ := Program.returns_bind_pure.mp h
      obtain ⟨row, details, t, hrow, -, -, -, -, -, hdb⟩ :=
        AdminService.returns_setChannelEnabled hcall
      have hafter : db'.channels = db.channels.update row
        { row with enabled := enabled, updatedAt := d.clock 0 } := congrArg Db.channels hdb
      rcases succeeds_update hrow hafter rfl rfl hc with ⟨rfl, hsucc⟩ | ⟨-, hsucc⟩
      · exact ⟨_, hsucc, .kept enabled rfl rfl⟩
      · exact ⟨c, hsucc, .kept c.enabled rfl rfl⟩
    | resetChannelData a slackChannelId actor d =>
      obtain ⟨res, hcall, rfl⟩ := Program.returns_bind_pure.mp h
      obtain ⟨row, t, hrow, -, -, -, -, -, hdb⟩ := AdminService.returns_resetChannelData hcall
      have hafter : db'.channels = db.channels.update row
        { row with lastResetAt := some (d.clock 0), updatedAt := d.clock 0 } :=
          congrArg Db.channels hdb
      rcases succeeds_update hrow hafter rfl rfl hc with ⟨rfl, hsucc⟩ | ⟨-, hsucc⟩
      · exact ⟨_, hsucc, .kept c.enabled rfl rfl⟩
      · exact ⟨c, hsucc, .kept c.enabled rfl rfl⟩
    | createRun run => exact absurd rfl hadmin
    | submitOrder v request d => exact absurd rfl hadmin
    | useLastOrder v runId userId d => exact absurd rfl hadmin
    | cancelOrder runId userId d => exact absurd rfl hadmin
    | closeRun authorizer request now d => exact absurd rfl hadmin

end Steps

/-! ### A history of calls -/

/-- The patches accepted for the channel, in order. -/
def patchesOf (slackChannelId : String) (es : List Event) : List ChannelConfigPatch :=
  es.filterMap fun e => acceptedPatch slackChannelId e.label

/-- `patches` applied to the settings in order, each of them valid when it is. -/
def settled (s : Settings) (patches : List ChannelConfigPatch) : Settings :=
  Replay.replay (fun s patch => patch.applyTo s) s patches

abbrev AllValid : Settings → List ChannelConfigPatch → Prop :=
  Replay.Checked (fun s patch => patch.applyTo s) fun s patch => patch.Valid s

/-- `c` is what `es` have left of the row `c₀`. -/
structure Tracks (c₀ : Channel) (es : List Event) (db : Db) (c : Channel) : Prop where
  mem : c ∈ db.channels
  id : c.id = c₀.id
  slackChannelId : c.slackChannelId = c₀.slackChannelId
  valid : AllValid c₀.settings (patchesOf c₀.slackChannelId es)
  settings : ∃ enabled, c.settings =
    { settled c₀.settings (patchesOf c₀.slackChannelId es) with enabled := enabled }

section Histories
variable {s : Database} {db₀ db : Db} {es : List Event} {c₀ c : Channel}

theorem patchesOf_snoc (slackChannelId : String) (es : List Event) (e : Event) :
    patchesOf slackChannelId (es ++ [e]) =
      patchesOf slackChannelId es ++ (acceptedPatch slackChannelId e.label).toList := by
  rw [patchesOf, List.filterMap_append, List.filterMap_cons, List.filterMap_nil]
  cases acceptedPatch slackChannelId e.label <;> rfl

theorem Tracks.step {e : Event} (h : Tracks c₀ es e.before c) (hstep : step s e.before e.label e.after) :
    ∃ c', Tracks c₀ (es ++ [e]) e.after c' := by
  obtain ⟨c', hsucc, htuned⟩ := succeeds_of_step hstep h.mem
  obtain ⟨enabled, hsettings⟩ := h.settings
  have hslack := hsucc.slackChannelId.trans h.slackChannelId
  refine ⟨c', hsucc.after, hsucc.id.trans h.id, hslack, ?_, ?_⟩
  all_goals rw [patchesOf_snoc]
  · cases htuned with
    | patched haccepted hvalid _ _ =>
      rw [h.slackChannelId] at haccepted
      rw [haccepted, Option.toList_some, AllValid, Replay.checked_append, Replay.checked_singleton]
      rw [hsettings] at hvalid
      exact ⟨h.valid, hvalid.1, hvalid.2, hvalid.3, hvalid.4, hvalid.5⟩
    | kept _ hnone _ =>
      rw [h.slackChannelId] at hnone
      rw [hnone, Option.toList_none, List.append_nil]
      exact h.valid
  · cases htuned with
    | patched haccepted _ happlied _ =>
      rw [h.slackChannelId] at haccepted
      rw [haccepted, Option.toList_some, settled, Replay.replay_append]
      refine ⟨enabled, ?_⟩
      rw [happlied, hsettings]
      rfl
    | kept enabled' hnone hkept =>
      rw [h.slackChannelId] at hnone
      rw [hnone, Option.toList_none, List.append_nil]
      refine ⟨enabled', ?_⟩
      rw [hkept, hsettings]

/-- Every row of a channel is the row it was with the accepted patches applied. -/
theorem tracks_of_history (h : History s db₀ es db) (hc : c₀ ∈ db₀.channels) :
    ∃ c, Tracks c₀ es db c := by
  refine Transition.Path.history_invariant (I := fun es db => ∃ c, Tracks c₀ es db c)
    (C := fun _ => True) (fun es e _ _ hstep _ hI => ?_) h (fun _ _ => trivial)
    ⟨c₀, hc, rfl, rfl, trivial, c₀.enabled, rfl⟩
  obtain ⟨c, hc⟩ := hI
  exact hc.step hstep

theorem Tracks.inRange (h : Tracks c₀ es db c) (h₀ : c₀.settings.InRange) : c.settings.InRange := by
  obtain ⟨enabled, hsettings⟩ := h.settings
  have hend : (settled c₀.settings _).InRange :=
    h.valid.invariant (fun s patch hvalid hs => hvalid.inRange hs) h₀
  rw [hsettings]
  exact ⟨hend.1, hend.2, hend.3, hend.4⟩

/-- A lead time that is there, or that an accepted patch has needed, is there at the end. -/
theorem Tracks.lead (h : Tracks c₀ es db c) (hlead : c₀.lastCallLeadMinutes.isSome = true ∨
      ∃ patch ∈ patchesOf c₀.slackChannelId es, patch.NeedsLead) :
    c.lastCallLeadMinutes.isSome = true := by
  obtain ⟨enabled, hsettings⟩ := h.settings
  have hend : c.lastCallLeadMinutes = (settled c₀.settings _).lastCallLeadMinutes :=
    congrArg Settings.lastCallLeadMinutes hsettings
  rw [hend]
  have hkept : ∀ (s : Settings) (patch : ChannelConfigPatch), patch.Valid s →
      s.lastCallLeadMinutes.isSome = true → (patch.applyTo s).lastCallLeadMinutes.isSome = true :=
    fun _ _ _ => ChannelConfigPatch.lead_kept
  rcases hlead with h₀ | ⟨patch, hpatch, hneeds⟩
  · exact h.valid.invariant hkept h₀
  · obtain ⟨before, after, hsplit⟩ := List.append_of_mem hpatch
    have hvalid := h.valid
    rw [hsplit, AllValid, Replay.checked_append] at hvalid
    obtain ⟨-, hpatch, hafter⟩ := hvalid
    rw [hsplit, settled, Replay.replay_append]
    exact hafter.invariant hkept (hpatch.lead_of_needs hneeds)

theorem Tracks.not_needsLead (h : Tracks c₀ es db c) (hnone : c.lastCallLeadMinutes = none) :
    ∀ patch ∈ patchesOf c₀.slackChannelId es, ¬patch.NeedsLead := by
  intro patch hpatch hneeds
  have hsome := h.lead (Or.inr ⟨patch, hpatch, hneeds⟩)
  rw [hnone] at hsome
  cases hsome

end Histories

/-! ### Configuration stays valid -/

/-- The call is a successful one that turns last call on for the channel. -/
def EnablesLastCall (slackChannelId : String) (l : Label) : Prop :=
  ∃ authorizer actor patch d answer,
    l = (.updateChannelConfig authorizer slackChannelId actor patch d, .ok answer) ∧
      patch.lastCallEnabled = some true

/-- The event has applied `patch` to the row of the channel, and to nothing else of it, and
`answer` reports the fields of the patch. -/
structure Applies (e : Event) (slackChannelId : String) (patch : ChannelConfigPatch)
    (answer : Answer) : Prop where
  row : ∃ c c', Succeeds e c c' ∧ c.slackChannelId = slackChannelId ∧ patch.Valid c.settings ∧
    c'.settings = patch.applyTo c.settings ∧ answer = .configured ⟨c.id.str, patch.fields⟩ ∧
    ∀ other, other.id ≠ c.id → (other ∈ e.after.channels ↔ other ∈ e.before.channels)

theorem acceptedPatch_of_enables {slackChannelId : String} {l : Label}
    (h : EnablesLastCall slackChannelId l) :
    ∃ patch, acceptedPatch slackChannelId l = some patch ∧ patch.lastCallEnabled = some true := by
  obtain ⟨authorizer, actor, patch, d, answer, rfl, hon⟩ := h
  exact ⟨patch, if_pos rfl, hon⟩

theorem applies_of_step {s : Database} {e : Event} (h : step s e.before e.label e.after)
    {authorizer : SlackAdminAuthorizer} {slackChannelId : String} {actor : AdminActor}
    {patch : ChannelConfigPatch} {d : Draws} {answer : Answer}
    (hl : e.label = (.updateChannelConfig authorizer slackChannelId actor patch d, .ok answer)) :
    Applies e slackChannelId patch answer := by
  obtain ⟨db, l, db'⟩ := e
  subst hl
  obtain ⟨res, hcall, rfl⟩ := Program.returns_bind_pure.mp h
  obtain ⟨row, updates, hrow, hslack, -, -, -, hwritten⟩ :=
    AdminService.returns_updateChannelConfig hcall
  obtain ⟨c', hsucc, htuned⟩ := succeeds_of_updateChannelConfig hcall hrow
  have haccepted : acceptedPatch row.slackChannelId (.updateChannelConfig authorizer slackChannelId
      actor patch d, .ok (.configured res)) = some patch := if_pos hslack.symm
  cases htuned with
  | patched haccepted' hvalid happlied hanswer =>
    obtain rfl := Option.some.inj (haccepted.symm.trans haccepted')
    refine ⟨row, c', hsucc, hslack, hvalid, happlied, Except.ok.inj hanswer, fun other hne => ?_⟩
    rcases hwritten with ⟨-, hdb⟩ | ⟨-, t, -, hdb⟩
    · have hchannels : db'.channels = db.channels := congrArg Db.channels hdb
      show other ∈ db'.channels ↔ other ∈ db.channels
      rw [hchannels]
    · have hchannels : db'.channels = db.channels.update row
        { updates.foldl ConfigUpdate.apply row with updatedAt := d.clock 0 } :=
          congrArg Db.channels hdb
      have hid := apply_updates_id updates row
      show other ∈ db'.channels ↔ other ∈ db.channels
      rw [hchannels, Table.mem_update hrow (by exact hid)]
      constructor
      · rintro (rfl | ⟨hother, -⟩)
        · exact absurd hid hne
        · exact hother
      · exact fun hother => Or.inr ⟨hother, hne⟩
  | kept _ hnone _ =>
    rw [haccepted] at hnone
    cases hnone

theorem config_updates_keep_settings_valid (s : Database) (db₀ db : Db) (es : List Event)
    (c₀ : Channel) (h : History s db₀ es db) (hc : c₀ ∈ db₀.channels)
    (hrange : c₀.settings.InRange) :
    (∃ c ∈ db.channels, c.id = c₀.id ∧ c.settings.InRange ∧
      (c₀.lastCallLeadMinutes.isSome = true → c.lastCallLeadMinutes.isSome = true) ∧
      ∀ e ∈ es, ∃ c' ∈ e.after.channels, c'.id = c₀.id ∧ c'.settings.InRange ∧
        (c'.lastCallLeadMinutes.isSome = true → c.lastCallLeadMinutes.isSome = true) ∧
        (EnablesLastCall c₀.slackChannelId e.label → c'.lastCallLeadMinutes.isSome = true)) ∧
    ∀ e ∈ es, ∀ authorizer slackChannelId actor patch d,
      e.label.1 = .updateChannelConfig authorizer slackChannelId actor patch d →
      (∀ error, e.label.2 = .error error → e.after = e.before) ∧
      ∀ answer, e.label.2 = .ok answer → Applies e slackChannelId patch answer := by
  constructor
  · obtain ⟨c, htracks⟩ := tracks_of_history h hc
    refine ⟨c, htracks.mem, htracks.id, htracks.inRange hrange, fun hlead =>
      htracks.lead (Or.inl hlead), fun e he => ?_⟩
    -- the rest of the history starts from the row the event has left
    obtain ⟨before, after, rfl⟩ := List.append_of_mem he
    obtain ⟨hbefore, hstep, hafter⟩ := Transition.Path.split_iff.mp h
    obtain ⟨c', htracks'⟩ := tracks_of_history (hbefore.snoc hstep) hc
    obtain ⟨c'', hlater⟩ := tracks_of_history hafter htracks'.mem
    obtain rfl : c'' = c :=
      Table.eq_of_key hlater.mem htracks.mem ((hlater.id.trans htracks'.id).trans htracks.id.symm)
    refine ⟨c', htracks'.mem, htracks'.id, htracks'.inRange hrange, fun hlead =>
      hlater.lead (Or.inl hlead), fun henables => htracks'.lead (Or.inr ?_)⟩
    obtain ⟨patch, haccepted, hon⟩ := acceptedPatch_of_enables henables
    refine ⟨patch, List.mem_filterMap.mpr ⟨_, List.mem_append_right _ ?_, haccepted⟩, Or.inl hon⟩
    exact List.mem_singleton_self e
  · intro e he authorizer slackChannelId actor patch d hcall
    have hstep := h.mem_step he
    constructor
    · intro error herror
      obtain ⟨db₁, ⟨call, outcome⟩, db₂⟩ := e
      obtain rfl : outcome = .error error := herror
      exact failed_step hstep
    · intro answer hanswer
      exact applies_of_step hstep (Prod.ext hcall hanswer)

/-! ### A lead time given and last call enabled -/

namespace Sample

/-- The second patch is refused: its retention is out of range. -/
def configCalls : List Call :=
  [.updateChannelConfig admin "C7" adminActor { lastCallLeadMinutes := some 10 } (draws 1),
    .updateChannelConfig admin "C7" adminActor
      { remindersEnabled := some false, dataRetentionDays := some 20 } (draws 2),
    .updateChannelConfig admin "C7" adminActor { lastCallEnabled := some true } (draws 3)]

theorem channel_inRange : channel.settings.InRange :=
  ⟨by decide, by decide, by decide, by decide⟩

end Sample

open Sample in
theorem config_updates_keep_settings_valid_lead :
    ∃ c ∈ (finalDb database db configCalls).channels, c.id = channel.id ∧ c.settings.InRange := by
  obtain ⟨⟨c, hc, hid, hrange, -⟩, -⟩ := config_updates_keep_settings_valid database db
    (finalDb database db configCalls) (replay database db configCalls) channel
    (history_replay _ _ _) (by decide) channel_inRange
  exact ⟨c, hc, hid, hrange⟩

/-! ### An enabled last call -/

/-- A row inserted with the defaults of the schema. -/
def Channel.withDefaults (id : Uuid) (slackChannelId name : String) (now : Timestamp) : Channel :=
  { id := id, slackChannelId := slackChannelId, name := name, enabled := true
    reminderOffsetMinutes := 5, fairnessWindowRuns := 5, dataRetentionDays := 90
    remindersEnabled := true, lastCallEnabled := true, lastCallLeadMinutes := none
    lastResetAt := none, createdAt := now, updatedAt := now }

theorem withDefaults_inRange (id : Uuid) (slackChannelId name : String) (now : Timestamp) :
    (Channel.withDefaults id slackChannelId name now).settings.InRange := by
  have hdefaults : (⟨5, 5, 90, true, true, none, true⟩ : Settings).InRange :=
    ⟨by decide, by decide, by decide, nofun⟩
  exact hdefaults

/-- The settings `schedule_for_run` is given, copied from the row. -/
def Channel.reminderConfig (c : Channel) : ChannelReminderConfig :=
  { channelId := c.id.str, remindersEnabled := c.remindersEnabled
    reminderOffsetMinutes := c.reminderOffsetMinutes, lastCallEnabled := c.lastCallEnabled
    lastCallLeadMinutes := c.lastCallLeadMinutes }

/-- The channel has a lead time, and every run with a pickup time gets a last call. -/
structure LastCallScheduled (c : Channel) : Prop where
  lead : ∃ lead, c.lastCallLeadMinutes = some lead ∧ 1 ≤ lead ∧ lead ≤ 30
  published : ∀ (s : ReminderScheduler) (runId correlationId : String)
    (runnerUserId : Option String) (pickup : Datetime), correlationId ≠ "" →
    ReminderScheduler.WithinLimits c.reminderConfig pickup →
    ∃ payloads events, s.scheduleForRun runId (some pickup) runnerUserId c.reminderConfig
        correlationId = (.ok payloads, events) ∧
      ∃ payload ∈ payloads, payload.reminderType = .lastCall ∧
        ∃ event ∈ events, event.payload = payload.modelDump

/-- If reminders and last call are enabled, last calls are scheduled. -/
def EnabledMeansScheduled (c : Channel) : Prop :=
  c.remindersEnabled = true → c.lastCallEnabled = true → LastCallScheduled c

/-- A lead time was given, last call was turned off, or reminders were turned off at last. -/
def LastCallSettled (patches : List ChannelConfigPatch) : Prop :=
  (∃ patch ∈ patches, patch.lastCallLeadMinutes.isSome = true) ∨
    (∃ patch ∈ patches, patch.lastCallEnabled = some false) ∨
    (patches.filterMap ChannelConfigPatch.remindersEnabled).getLast? = some false

section LastCall
open ReminderScheduler
variable {c : Channel} {s : Settings} {patches : List ChannelConfigPatch}

theorem lastCallScheduled_of_lead {lead : ℤ} (hlead : c.lastCallLeadMinutes = some lead)
    (hrange : 1 ≤ lead ∧ lead ≤ 30) (hreminders : c.remindersEnabled = true)
    (hlastCall : c.lastCallEnabled = true) : LastCallScheduled c := by
  refine ⟨⟨lead, hlead, hrange⟩, fun s runId correlationId runnerUserId pickup hcorr hlimits => ?_⟩
  obtain ⟨payloads, events, hschedule, htypes, hannounce⟩ :=
    s.scheduleForRun_spec runId runnerUserId hcorr hlimits
  have hdue : (⟨.lastCall, none, lead⟩ : Due) ∈ lastCallDue c.reminderConfig := by
    have hpos : 0 < lead := hrange.1
    simp only [lastCallDue, Channel.reminderConfig, hlead, hreminders, hlastCall, hpos,
      decide_true, Bool.and_self, if_true, List.mem_singleton]
  have htype : ReminderType.lastCall ∈ payloads.map ReminderPayload.reminderType := by
    rw [htypes]
    exact List.mem_map.mpr ⟨_, List.mem_append_right _ hdue, rfl⟩
  obtain ⟨payload, hpayload, hlast⟩ := List.mem_map.mp htype
  obtain ⟨event, hevent, hannounced⟩ := s.published hannounce hpayload
  exact ⟨payloads, events, hschedule, payload, hpayload, hlast, event, hevent, hannounced.carried⟩

theorem settled_reminders : (settled s patches).remindersEnabled =
    (patches.filterMap ChannelConfigPatch.remindersEnabled).getLast?.getD s.remindersEnabled :=
  Replay.replay_field Settings.remindersEnabled _ (fun _ _ => rfl) s patches

theorem settled_lastCall : (settled s patches).lastCallEnabled =
    (patches.filterMap ChannelConfigPatch.lastCallEnabled).getLast?.getD s.lastCallEnabled :=
  Replay.replay_field Settings.lastCallEnabled _ (fun _ _ => rfl) s patches

theorem settled_lead : (settled s patches).lastCallLeadMinutes =
    (patches.filterMap fun patch => patch.lastCallLeadMinutes.map some).getLast?.getD
      s.lastCallLeadMinutes := by
  refine Replay.replay_field Settings.lastCallLeadMinutes _ (fun s patch => ?_) s patches
  show patch.lastCallLeadMinutes.or s.lastCallLeadMinutes = _
  cases patch.lastCallLeadMinutes <;> rfl

theorem settled_lead_of_none (h : ¬∃ patch ∈ patches, patch.lastCallLeadMinutes.isSome = true) :
    (settled s patches).lastCallLeadMinutes = s.lastCallLeadMinutes := by
  have hnil : (patches.filterMap fun patch => patch.lastCallLeadMinutes.map some) = [] := by
    rw [List.filterMap_eq_nil_iff]
    intro patch hpatch
    rw [Option.map_eq_none_iff, ← Option.not_isSome_iff_eq_none]
    exact fun hsome => h ⟨patch, hpatch, hsome⟩
  rw [settled_lead, hnil]
  rfl

theorem getD_true_iff (o : Option Bool) : o.getD true = true ↔ o ≠ some false := by
  cases o with
  | none => simp
  | some b => cases b <;> simp

/-- A switch that is on at first and never turned on is on until it is turned off. -/
theorem getLast?_off {A : Type} {write : A → Option Bool} {log : List A}
    (h : ∀ a ∈ log, write a ≠ some true) :
    (log.filterMap write).getLast? = some false ↔ ∃ a ∈ log, write a = some false := by
  constructor
  · intro hlast
    obtain ⟨a, ha, hoff⟩ := List.mem_filterMap.mp (List.mem_of_getLast? hlast)
    exact ⟨a, ha, hoff⟩
  · rintro ⟨a, ha, hoff⟩
    have hmem : false ∈ log.filterMap write := List.mem_filterMap.mpr ⟨a, ha, hoff⟩
    obtain ⟨b, hb⟩ := Option.isSome_iff_exists.mp
      (List.getLast?_isSome.mpr (List.ne_nil_of_mem hmem))
    obtain ⟨a', ha', hwrite⟩ := List.mem_filterMap.mp (List.mem_of_getLast? hb)
    cases b with
    | false => exact hb
    | true => exact absurd hwrite (h a' ha')

end LastCall

theorem last_call_scheduled_iff (s : Database) (db₀ db : Db) (es : List Event) (id : Uuid)
    (slackChannelId name : String) (now : Timestamp) (h : History s db₀ es db)
    (hc : Channel.withDefaults id slackChannelId name now ∈ db₀.channels) :
    ∃ c ∈ db.channels, c.id = id ∧
      (EnabledMeansScheduled c ↔ LastCallSettled (patchesOf slackChannelId es)) := by
  obtain ⟨c, htracks⟩ := tracks_of_history h hc
  obtain ⟨enabled, hsettings⟩ := htracks.settings
  have hrange := htracks.inRange (withDefaults_inRange id slackChannelId name now)
  refine ⟨c, htracks.mem, htracks.id, ?_⟩
  set patches := patchesOf slackChannelId es
  have hreminders : c.remindersEnabled = (patches.filterMap _).getLast?.getD true :=
    (congrArg Settings.remindersEnabled hsettings).trans settled_reminders
  have hlastCall : c.lastCallEnabled = (patches.filterMap _).getLast?.getD true :=
    (congrArg Settings.lastCallEnabled hsettings).trans settled_lastCall
  -- without a lead time no accepted patch can have turned last call on
  have hneeds : c.lastCallLeadMinutes = none → ∀ patch ∈ patches, ¬patch.NeedsLead :=
    htracks.not_needsLead
  have hoff : c.lastCallLeadMinutes = none →
      (c.lastCallEnabled = true ↔ ¬∃ patch ∈ patches, patch.lastCallEnabled = some false) := by
    intro hnone
    rw [hlastCall, getD_true_iff, Ne, getLast?_off fun patch hpatch hon =>
      hneeds hnone patch hpatch (Or.inl hon)]
  constructor
  · intro hprop
    by_contra hnot
    simp only [LastCallSettled, not_or] at hnot
    obtain ⟨hgiven, hnever, hlast⟩ := hnot
    have hnone : c.lastCallLeadMinutes = none :=
      (congrArg Settings.lastCallLeadMinutes hsettings).trans (settled_lead_of_none hgiven)
    have hon : c.remindersEnabled = true := by rw [hreminders, getD_true_iff]; exact hlast
    obtain ⟨lead, hsome, -⟩ := (hprop hon ((hoff hnone).mpr hnever)).lead
    rw [hnone] at hsome
    cases hsome
  · intro hsettled hon hcall
    cases hsome : c.lastCallLeadMinutes with
    | some lead => exact lastCallScheduled_of_lead hsome (hrange.lastCallLead lead hsome) hon hcall
    | none =>
      rcases hsettled with ⟨patch, hpatch, hgiven⟩ | hturned | hlast
      · exact absurd (Or.inr hgiven) (hneeds hsome patch hpatch)
      · exact absurd hturned ((hoff hsome).mp hcall)
      · rw [hreminders, getD_true_iff] at hon
        exact absurd hlast hon

namespace Sample

def defaultChannel : Channel := .withDefaults (.ofNat 7) "C7" "coffee" 0

def defaultDb : Db := { db with channels := ⟨[defaultChannel], by decide⟩ }

/-- The lead time is given. -/
def leading : Call :=
  .updateChannelConfig admin "C7" adminActor { lastCallLeadMinutes := some 10 } (draws 1)

theorem leading_settled : LastCallSettled (patchesOf "C7" (replay database defaultDb [leading])) := by
  have hgiven : ∃ patch ∈ patchesOf "C7" (replay database defaultDb [leading]),
      patch.lastCallLeadMinutes.isSome = true := by decide +kernel
  exact Or.inl hgiven

end Sample

open Sample in
/-- As created, the channel has last call enabled and none is scheduled. -/
theorem default_last_call_never_scheduled :
    History database defaultDb [] defaultDb ∧ defaultChannel ∈ defaultDb.channels ∧
      ¬EnabledMeansScheduled defaultChannel := by
  refine ⟨.nil, by decide, fun h => ?_⟩
  obtain ⟨lead, hlead, -⟩ := (h rfl rfl).lead
  cases hlead

open Sample in
/-- As created, and after an accepted patch with a lead time. -/
theorem last_call_scheduled_iff_led :
    (∃ c ∈ defaultDb.channels, c.id = .ofNat 7 ∧
      (EnabledMeansScheduled c ↔ LastCallSettled (patchesOf "C7" []))) ∧
    ∃ c ∈ (finalDb database defaultDb [leading]).channels, c.id = .ofNat 7 ∧
      EnabledMeansScheduled c := by
  constructor
  · exact last_call_scheduled_iff database defaultDb defaultDb [] (.ofNat 7) "C7" "coffee" 0 .nil
      (by decide)
  · obtain ⟨c, hc, hid, hiff⟩ := last_call_scheduled_iff database defaultDb
      (finalDb database defaultDb [leading]) (replay database defaultDb [leading]) (.ofNat 7) "C7"
      "coffee" 0 (history_replay _ _ _) (by decide)
    exact ⟨c, hc, hid, hiff.mpr leading_settled⟩

end CoffeeBuddy

import CoffeeBuddy.Properties.Configuration
import CoffeeBuddy.Services.AdminSessions

/-! Several admins at once. The columns of a channel row are written one by one, over whatever
others have committed since the row was read, and each change is logged with the row. -/

namespace CoffeeBuddy
open Relational Transaction

section Commits
variable {ι : Type} [DecidableEq ι] {s : Database} {calls : ι → Call} {db₀ : Db}
  {es : List (World.Move ι Db Exc Answer)} {w : World ι Db Exc Answer}
  {e : World.Move ι Db Exc Answer}

theorem conducted_of_answer (h : Interleaving s calls db₀ es e.before)
    (hstep : World.step Db.Valid .integrityError e.before e.label e.after) {answer : Answer}
    (ha : World.answer e = some answer) :
    Conducted (calls e.label) answer (World.trail e.label es) e.before.store e.after.store := by
  obtain ⟨hdoes, hwritten, -⟩ := World.committed_of_answer h hstep ha
  exact conducted_of_applied hdoes hwritten

/-- The audit row an admin call owes for its answer, from the channel row it has read. -/
def Owes (c : Call) (answer : Answer) (entry : ChannelAdminAction) : Prop :=
  ∃ row modified, Edits row c answer modified entry

end Commits

/-- Every change of a channel that commits is in the audit log, once and in the order of the
commits, with its actor and its details; nothing else is. -/
theorem audit_log_complete {ι : Type} [DecidableEq ι] (s : Database) (calls : ι → Call) (db₀ : Db)
    (es : List (World.Move ι Db Exc Answer)) (w : World ι Db Exc Answer)
    (h : Interleaving s calls db₀ es w) :
    ∃ entries, w.store.channelAdminActions.rows = db₀.channelAdminActions.rows ++ entries ∧
      List.Forall₂ (fun c entry => Owes (calls c.1) c.2 entry)
        ((World.commits es).filter fun c => c.2.logged) entries := by
  induction h with
  | nil => exact ⟨[], (List.append_nil _).symm, .nil⟩
  | @snoc es t u i path last ih =>
    obtain ⟨entries, hrows, howed⟩ := ih
    rw [World.commits_snoc, List.filter_append]
    cases ha : World.answer ⟨t, i, u⟩ with
    | none =>
      rw [World.store_of_answer_none (e := ⟨t, i, u⟩) last ha, Option.map_none, Option.toList_none,
        List.filter_nil, List.append_nil]
      exact ⟨entries, hrows, howed⟩
    | some answer =>
      rw [Option.map_some, Option.toList_some]
      cases conducted_of_answer (e := ⟨t, i, u⟩) path last ha with
      | quiet hlogged _ hactions =>
        have hactions : u.store.channelAdminActions = t.store.channelAdminActions := hactions
        rw [hactions, List.filter_cons_of_neg (by rw [hlogged]; exact Bool.false_ne_true),
          List.filter_nil, List.append_nil]
        exact ⟨entries, hrows, howed⟩
      | changed seen row modified entry hlogged _ _ hedits _ hinsert =>
        have howes : Owes (calls i) answer entry := ⟨row, modified, hedits⟩
        refine ⟨entries ++ [entry], ?_, ?_⟩
        · rw [Table.rows_insert hinsert, hrows, List.append_assoc]
        · rw [List.filter_cons_of_pos (by exact hlogged), List.filter_nil]
          exact List.rel_append howed (.cons howes .nil)

/-! ### A patch over what others have committed -/

section Overlay
variable {β : Type} [DecidableEq β]

/-- One field of a patch, made for the value `seen`, on the value `now`. -/
def overlaid (v : Option β) (seen now : β) : β := v.elim now fun v => column seen v now

theorem overlaid_cases (v : Option β) (seen now : β) :
    overlaid v seen now = now ∨ ∃ x ∈ v, overlaid v seen now = x := by
  cases v with
  | none => exact Or.inl rfl
  | some x =>
    by_cases hx : x = seen
    · exact Or.inl (column_of_eq hx now)
    · exact Or.inr ⟨x, rfl, column_changed hx now⟩

theorem column_getD (v : Option β) (seen now : β) :
    column seen (v.getD seen) now = overlaid v seen now := by
  cases v with
  | none => exact column_unchanged seen now
  | some x => rfl

theorem column_or (v seen now : Option β) :
    column seen (v.or seen) now = overlaid (v.map some) seen now := by
  cases v with
  | none => exact column_unchanged seen now
  | some x => rfl

/-- The field takes the value of the patch, unless it had it and has been changed since. -/
theorem overlaid_eq_getD {v : Option β} {seen now : β} :
    overlaid v seen now = v.getD now ↔ ∀ x ∈ v, x = seen → now = x := by
  cases v with
  | none => exact iff_of_true rfl nofun
  | some x =>
    simp only [overlaid, Option.elim_some, Option.getD_some, Option.mem_some_iff, forall_eq']
    by_cases hx : x = seen
    · rw [column_of_eq hx]
      exact ⟨fun h _ => h, fun h => h hx⟩
    · rw [column_changed hx]
      exact iff_of_true rfl fun h => absurd h hx

end Overlay

namespace ChannelConfigPatch

/-- What a patch that was checked against `seen` makes of the settings `now`. -/
def overlay (patch : ChannelConfigPatch) (seen now : Settings) : Settings :=
  { now with
    reminderOffsetMinutes :=
      overlaid patch.reminderOffsetMinutes seen.reminderOffsetMinutes now.reminderOffsetMinutes
    fairnessWindowRuns :=
      overlaid patch.fairnessWindowRuns seen.fairnessWindowRuns now.fairnessWindowRuns
    dataRetentionDays :=
      overlaid patch.dataRetentionDays seen.dataRetentionDays now.dataRetentionDays
    remindersEnabled := overlaid patch.remindersEnabled seen.remindersEnabled now.remindersEnabled
    lastCallEnabled := overlaid patch.lastCallEnabled seen.lastCallEnabled now.lastCallEnabled
    lastCallLeadMinutes := overlaid (patch.lastCallLeadMinutes.map some) seen.lastCallLeadMinutes
      now.lastCallLeadMinutes }

/-- Where the patch asks for the value it has read, that value is still there. -/
structure Lands (patch : ChannelConfigPatch) (seen now : Settings) : Prop where
  reminderOffset : ∀ v ∈ patch.reminderOffsetMinutes, v = seen.reminderOffsetMinutes →
    now.reminderOffsetMinutes = v
  fairnessWindow : ∀ v ∈ patch.fairnessWindowRuns, v = seen.fairnessWindowRuns →
    now.fairnessWindowRuns = v
  dataRetention : ∀ v ∈ patch.dataRetentionDays, v = seen.dataRetentionDays →
    now.dataRetentionDays = v
  reminders : ∀ v ∈ patch.remindersEnabled, v = seen.remindersEnabled → now.remindersEnabled = v
  lastCall : ∀ v ∈ patch.lastCallEnabled, v = seen.lastCallEnabled → now.lastCallEnabled = v
  lastCallLead : ∀ v ∈ patch.lastCallLeadMinutes.map some, v = seen.lastCallLeadMinutes →
    now.lastCallLeadMinutes = v

variable {patch : ChannelConfigPatch} {seen now : Settings}

theorem overlay_eq_applyTo : patch.overlay seen now = patch.applyTo now ↔ patch.Lands seen now := by
  have hlead : patch.lastCallLeadMinutes.or now.lastCallLeadMinutes =
      (patch.lastCallLeadMinutes.map some).getD now.lastCallLeadMinutes := by
    cases patch.lastCallLeadMinutes <;> rfl
  simp only [overlay, applyTo, Settings.mk.injEq, hlead, overlaid_eq_getD, and_true]
  constructor
  · rintro ⟨hoffset, hwindow, hretention, hreminders, hlast, hlead⟩
    exact ⟨hoffset, hwindow, hretention, hreminders, hlast, hlead⟩
  · rintro ⟨hoffset, hwindow, hretention, hreminders, hlast, hlead⟩
    exact ⟨hoffset, hwindow, hretention, hreminders, hlast, hlead⟩

theorem Valid.overlay_inRange (h : patch.Valid seen) (hnow : now.InRange) :
    (patch.overlay seen now).InRange := by
  have hfield : ∀ {β : Type} [DecidableEq β] {P : β → Prop} (v : Option β) (x y : β),
      (∀ z ∈ v, P z) → P y → P (overlaid v x y) := by
    intro β _ P v x y hv hy
    rcases overlaid_cases v x y with hsame | ⟨z, hz, hset⟩
    · rwa [hsame]
    · rw [hset]
      exact hv z hz
  refine ⟨hfield (P := fun v => 1 ≤ v ∧ v ≤ 60) _ _ _ h.reminderOffset hnow.reminderOffset,
    hfield (P := fun v => 1 ≤ v ∧ v ≤ 50) _ _ _ h.fairnessWindow hnow.fairnessWindow,
    hfield (P := fun v => 30 ≤ v ∧ v ≤ 365) _ _ _ h.dataRetention hnow.dataRetention,
    hfield (P := fun v => ∀ lead ∈ v, 1 ≤ lead ∧ lead ≤ 30) _ _ _ ?_ hnow.lastCallLead⟩
  intro z hz lead hlead
  obtain ⟨x, hx, rfl⟩ := Option.map_eq_some_iff.mp hz
  exact h.lastCallLead lead (hx.trans hlead)

theorem overlay_lead_kept (hnow : now.lastCallLeadMinutes.isSome = true) :
    (patch.overlay seen now).lastCallLeadMinutes.isSome = true := by
  rcases overlaid_cases (patch.lastCallLeadMinutes.map some) seen.lastCallLeadMinutes
    now.lastCallLeadMinutes with hsame | ⟨z, hz, hset⟩
  · exact (congrArg Option.isSome hsame).trans hnow
  · obtain ⟨x, -, rfl⟩ := Option.map_eq_some_iff.mp hz
    exact congrArg Option.isSome hset

/-- The check was made against `seen`: a lead time found there must be there still. -/
theorem Valid.overlay_lead (h : patch.Valid seen) (hneeds : patch.NeedsLead)
    (hstill : seen.lastCallLeadMinutes.isSome = true → now.lastCallLeadMinutes.isSome = true) :
    (patch.overlay seen now).lastCallLeadMinutes.isSome = true := by
  cases hlead : patch.lastCallLeadMinutes with
  | none =>
    have hon : patch.lastCallEnabled = some true :=
      hneeds.resolve_right fun hgiven => by rw [hlead] at hgiven; cases hgiven
    have hseen := Option.isSome_iff_ne_none.mpr (h.enabling hon hlead)
    exact overlay_lead_kept (hstill hseen)
  | some v =>
    show (overlaid (patch.lastCallLeadMinutes.map some) _ _).isSome = true
    rw [hlead, Option.map_some]
    by_cases hv : some v = seen.lastCallLeadMinutes
    · have hseen : seen.lastCallLeadMinutes.isSome = true := hv ▸ rfl
      exact (congrArg Option.isSome (column_of_eq hv _)).trans (hstill hseen)
    · exact congrArg Option.isSome (column_changed hv _)

end ChannelConfigPatch

/-! ### What an edit makes of the row -/

section Edits
variable {row modified now : Channel} {c : Call} {answer : Answer} {entry : ChannelAdminAction}

theorem Edits.id (h : Edits row c answer modified entry) : modified.id = row.id := by
  cases h with
  | configured a actor patch d updates => exact apply_updates_id updates row
  | stateChanged | reset => rfl

theorem Edits.slackChannelId (h : Edits row c answer modified entry) :
    modified.slackChannelId = row.slackChannelId := by
  cases h with
  | configured a actor patch d updates => exact apply_updates_slackChannelId updates row
  | stateChanged | reset => rfl

/-- The columns of the settings that differ from `l` are written. -/
def Settings.merge (l m now : Settings) : Settings where
  reminderOffsetMinutes :=
    column l.reminderOffsetMinutes m.reminderOffsetMinutes now.reminderOffsetMinutes
  fairnessWindowRuns := column l.fairnessWindowRuns m.fairnessWindowRuns now.fairnessWindowRuns
  dataRetentionDays := column l.dataRetentionDays m.dataRetentionDays now.dataRetentionDays
  remindersEnabled := column l.remindersEnabled m.remindersEnabled now.remindersEnabled
  lastCallEnabled := column l.lastCallEnabled m.lastCallEnabled now.lastCallEnabled
  lastCallLeadMinutes := column l.lastCallLeadMinutes m.lastCallLeadMinutes now.lastCallLeadMinutes
  enabled := column l.enabled m.enabled now.enabled

theorem settings_merge : (Row.merge row modified now).settings =
    row.settings.merge modified.settings now.settings := rfl

theorem merge_applyTo (patch : ChannelConfigPatch) (seen now : Settings) :
    seen.merge (patch.applyTo seen) now = patch.overlay seen now := by
  simp only [Settings.merge, ChannelConfigPatch.applyTo, ChannelConfigPatch.overlay, column_getD,
    column_or, column_unchanged]

theorem merge_enabled (seen now : Settings) (enabled : Bool) :
    seen.merge { seen with enabled := enabled } now =
      { now with enabled := column seen.enabled enabled now.enabled } := by
  simp only [Settings.merge, column_unchanged]

theorem settings_patched (row now : Channel) (patch : ChannelConfigPatch) (t : Timestamp) :
    (Row.merge row { patch.updates.foldl ConfigUpdate.apply row with updatedAt := t } now).settings =
      patch.overlay row.settings now.settings := by
  rw [← merge_applyTo, ← ChannelConfigPatch.foldl_updates, settings_merge]
  exact congrArg (fun m => row.settings.merge m now.settings) (settings_foldl patch.updates row)

/-- The columns beside the settings are those of `now`, but for the time of the update. -/
structure Beside (now c : Channel) : Prop where
  id : c.id = now.id
  slackChannelId : c.slackChannelId = now.slackChannelId
  name : c.name = now.name
  lastResetAt : c.lastResetAt = now.lastResetAt
  createdAt : c.createdAt = now.createdAt

theorem column_patched {α : Type} [DecidableEq α] {f : Channel → α}
    (hkept : ∀ c u, f (ConfigUpdate.apply c u) = f c) (row now : Channel)
    (patch : ChannelConfigPatch) :
    column (f row) (f (patch.updates.foldl ConfigUpdate.apply row)) (f now) = f now :=
  column_of_eq (apply_updates hkept patch.updates row) _

theorem beside_patched (row now : Channel) (patch : ChannelConfigPatch) (t : Timestamp) :
    Beside now
      (Row.merge row { patch.updates.foldl ConfigUpdate.apply row with updatedAt := t } now) where
  id := rfl
  slackChannelId :=
    column_patched (f := Channel.slackChannelId) (fun _ u => by cases u <;> rfl) row now patch
  name := column_patched (f := Channel.name) (fun _ u => by cases u <;> rfl) row now patch
  lastResetAt :=
    column_patched (f := Channel.lastResetAt) (fun _ u => by cases u <;> rfl) row now patch
  createdAt := column_patched (f := Channel.createdAt) (fun _ u => by cases u <;> rfl) row now patch

theorem Edits.settings (h : Edits row c answer modified entry) (now : Channel) :
    (∃ patch : ChannelConfigPatch, patch.Valid row.settings ∧
      (Row.merge row modified now).settings = patch.overlay row.settings now.settings) ∨
    ∃ enabled, (Row.merge row modified now).settings = { now.settings with enabled := enabled } := by
  cases h with
  | configured a actor patch d updates _ hbuild _ =>
    obtain ⟨hvalid, rfl⟩ := AdminService.buildConfigUpdates_ok.mp hbuild
    exact Or.inl ⟨patch, hvalid, settings_patched row now patch (d.clock 0)⟩
  | stateChanged a actor enabled =>
    exact Or.inr ⟨_, settings_merge.trans (merge_enabled row.settings now.settings enabled)⟩
  | reset =>
    exact Or.inr ⟨_, settings_merge.trans (merge_enabled row.settings now.settings row.enabled)⟩

theorem Edits.inRange (h : Edits row c answer modified entry) (hnow : now.settings.InRange) :
    (Row.merge row modified now).settings.InRange := by
  rcases h.settings now with ⟨patch, hvalid, hset⟩ | ⟨enabled, hset⟩
  · rw [hset]
    exact hvalid.overlay_inRange hnow
  · rw [hset]
    exact ⟨hnow.1, hnow.2, hnow.3, hnow.4⟩

theorem Edits.lead_kept (h : Edits row c answer modified entry)
    (hnow : now.lastCallLeadMinutes.isSome = true) :
    (Row.merge row modified now).lastCallLeadMinutes.isSome = true := by
  show (Row.merge row modified now).settings.lastCallLeadMinutes.isSome = true
  rcases h.settings now with ⟨patch, -, hset⟩ | ⟨enabled, hset⟩
  · rw [hset]
    exact ChannelConfigPatch.overlay_lead_kept hnow
  · rw [hset]
    exact hnow

end Edits

/-! ### Settings that stay sound -/

/-- From `s` to `t` the settings stay in range, and no row or lead time of a row is lost. -/
structure Steady (s t : Db) : Prop where
  valid : s.Valid → t.Valid
  inRange : (∀ c ∈ s.channels, c.settings.InRange) → ∀ c ∈ t.channels, c.settings.InRange
  kept : ∀ c ∈ s.channels, ∃ c' ∈ t.channels, c'.id = c.id ∧ c'.slackChannelId = c.slackChannelId ∧
    (c.lastCallLeadMinutes.isSome = true → c'.lastCallLeadMinutes.isSome = true)

namespace Steady
variable {s t u : Db}

theorem of_eq (h : t.channels = s.channels) (hvalid : s.Valid → t.Valid) : Steady s t :=
  ⟨hvalid, fun hs c hc => hs c (h ▸ hc), fun c hc => ⟨c, h ▸ hc, rfl, rfl, fun hlead => hlead⟩⟩

theorem refl (s : Db) : Steady s s := of_eq rfl fun h => h

theorem trans (h : Steady s t) (h' : Steady t u) : Steady s u where
  valid hs := h'.valid (h.valid hs)
  inRange hs := h'.inRange (h.inRange hs)
  kept c hc := by
    obtain ⟨c', hc', hid, hslack, hlead⟩ := h.kept c hc
    obtain ⟨c'', hc'', hid', hslack', hlead'⟩ := h'.kept c' hc'
    exact ⟨c'', hc'', hid'.trans hid, hslack'.trans hslack, fun hs => hlead' (hlead hs)⟩

end Steady

section Rely
variable {s : Database} {c : Call} {answer : Answer} {ds : List (Did Db Exc)} {db db' : Db}

theorem Edits.steady {row modified : Channel} {entry : ChannelAdminAction}
    (h : Edits row c answer modified entry) (hvalid : db'.Valid)
    (hafter : db'.channels = db.channels.update row modified) : Steady db db' where
  valid _ := hvalid
  inRange hdb c' hc' := by
    rw [hafter] at hc'
    obtain ⟨x, hx, rfl⟩ := Table.mem_update'.mp hc'
    split_ifs
    · exact h.inRange (hdb x hx)
    · exact hdb x hx
  kept x hx := by
    refine ⟨_, hafter ▸ Table.mem_update'.mpr ⟨x, hx, rfl⟩, ?_⟩
    split_ifs
    · exact ⟨rfl, column_of_eq h.slackChannelId _, h.lead_kept⟩
    · exact ⟨rfl, rfl, fun hlead => hlead⟩

theorem Conducted.steady (h : Conducted c answer ds db db') (hvalid : db'.Valid) :
    Steady db db' := by
  cases h with
  | quiet _ hchannels _ => exact .of_eq hchannels fun _ => hvalid
  | changed seen row modified entry _ _ _ hedits hafter _ => exact hedits.steady hvalid hafter

theorem relies_steady {ι : Type} (s : Database) (calls : ι → Call) :
    World.Relies Steady Db.Valid fun i => (calls i).tx s where
  refl := Steady.refl
  trans _ _ _ := Steady.trans
  guarantees _ _ _ _ _ hdoes _ hwritten hvalid := (conducted_of_applied hdoes hwritten).steady hvalid

/-- A patch that needs a lead time leaves one: what its check has read is there still. -/
theorem Conducted.leaves_lead {a : SlackAdminAuthorizer} {slackChannelId : String}
    {actor : AdminActor} {patch : ChannelConfigPatch} {d : Draws}
    (h : Conducted (.updateChannelConfig a slackChannelId actor patch d) answer ds db db')
    (hlogged : answer.logged = true) (hread : ∀ v, Program.ReadFirst ds v → Steady v db)
    (hneeds : patch.NeedsLead) : ∃ x ∈ db'.channels, x.slackChannelId = slackChannelId ∧
      x.lastCallLeadMinutes.isSome = true := by
  cases h with
  | quiet hquiet => exact absurd (hquiet.symm.trans hlogged) Bool.false_ne_true
  | changed seen row modified entry _ hseen hrow hedits hafter _ =>
    obtain ⟨x, hx, hid, hslack, hlead⟩ := (hread seen hseen).kept row hrow
    refine ⟨Row.merge row modified x, ?_, (column_of_eq hedits.slackChannelId _).trans ?_, ?_⟩
    · rw [hafter]
      exact Table.merge_mem_update hx hid
    · cases hedits with
      | configured => exact hslack
    · cases hedits with
      | configured _ _ _ _ updates _ hbuild _ =>
        obtain ⟨hvalid, rfl⟩ := AdminService.buildConfigUpdates_ok.mp hbuild
        show (Row.merge row _ x).settings.lastCallLeadMinutes.isSome = true
        rw [settings_patched]
        exact hvalid.overlay_lead hneeds hlead

/-- A configuration call answers with the fields of its patch. -/
theorem appliedFields_of_does {a : SlackAdminAuthorizer} {slackChannelId : String}
    {actor : AdminActor} {patch : ChannelConfigPatch} {d : Draws} {answer : Answer}
    (h : ((Call.updateChannelConfig a slackChannelId actor patch d).tx s).Does ds answer) :
    ∃ id, answer = .configured ⟨id, patch.fields⟩ := by
  simp only [Call.tx, Program.does_bind, Program.does_pure] at h
  obtain ⟨_, result, _, hcall, ⟨rfl, rfl⟩, -⟩ := h
  simp only [AdminService.updateChannelConfig, Program.does_bind] at hcall
  obtain ⟨_, row, _, -, ⟨_, _, _, -, ⟨_, updates, _, hu, hrest, -⟩, -⟩, -⟩ := hcall
  obtain ⟨hbuild, -⟩ := AdminService.does_configUpdates hu
  obtain ⟨-, rfl⟩ := AdminService.buildConfigUpdates_ok.mp hbuild
  refine ⟨row.id.str, congrArg Answer.configured ?_⟩
  rw [← ChannelConfigPatch.map_field_updates]
  split_ifs at hrest with hnil
  · rw [(Program.does_pure.mp hrest).1, hnil, List.map_nil]
  · simp only [Program.does_bind, Program.does_pure] at hrest
    obtain ⟨_, _, _, -, ⟨_, _, _, -, ⟨hresult, -⟩, -⟩, -⟩ := hrest
    exact hresult

theorem ChannelConfigPatch.NeedsLead.fields_ne_nil {patch : ChannelConfigPatch}
    (h : patch.NeedsLead) : patch.fields ≠ [] := by
  have hmem : ∃ f, f ∈ patch.fields := by
    rcases h with hon | hgiven
    · refine ⟨"last_call_enabled", List.mem_filterMap.mpr ⟨("last_call_enabled", true), ?_, rfl⟩⟩
      simp [hon]
    · refine ⟨"last_call_lead_minutes",
        List.mem_filterMap.mpr ⟨("last_call_lead_minutes", true), ?_, rfl⟩⟩
      simp [hgiven]
  obtain ⟨f, hf⟩ := hmem
  exact List.ne_nil_of_mem hf

end Rely

section Systems
variable {ι : Type} [DecidableEq ι] {s : Database} {calls : ι → Call} {db₀ : Db}
  {es : List (World.Move ι Db Exc Answer)} {w : World ι Db Exc Answer}

theorem channel_with_lead (h : Interleaving s calls db₀ es w) {i : ι} {answer : Answer}
    (hi : w.sessions i = .committed answer) {a : SlackAdminAuthorizer} {slackChannelId : String}
    {actor : AdminActor} {patch : ChannelConfigPatch} {d : Draws}
    (hcall : calls i = .updateChannelConfig a slackChannelId actor patch d)
    (hneeds : patch.NeedsLead) : ∃ c ∈ w.store.channels, c.slackChannelId = slackChannelId ∧
      c.lastCallLeadMinutes.isSome = true ∧
      ∀ c' ∈ w.store.channels, c'.slackChannelId = slackChannelId → c' = c := by
  obtain ⟨ds, t, t', hcommits, hsince⟩ := (relies_steady s calls).since h hi
  obtain ⟨hdoes, hread, hwritten, hvalid⟩ := hcommits
  rw [hcall] at hdoes
  obtain ⟨id, rfl⟩ := appliedFields_of_does hdoes
  have hlogged : (Answer.configured ⟨id, patch.fields⟩).logged = true := by
    rw [Answer.logged, Bool.not_eq_true', List.isEmpty_eq_false_iff]
    exact hneeds.fields_ne_nil
  obtain ⟨x, hx, hslack, hlead⟩ :=
    (conducted_of_applied hdoes hwritten).leaves_lead hlogged hread hneeds
  obtain ⟨c, hc, -, hslack', hlead'⟩ := hsince.kept x hx
  refine ⟨c, hc, hslack'.trans hslack, hlead' hlead, fun c' hc' hs => ?_⟩
  have hunique : UniqueOn Channel.slackChannelId w.store.channels := (hsince.valid hvalid).1.2.1
  exact hunique.eq hc' hc (hs.trans (hslack'.trans hslack).symm)

end Systems

/-- Whatever calls run side by side: settings stay in range, no row and no lead time is lost,
and a committed patch that needs a lead time finds one in its channel ever after. -/
theorem settings_sound_side_by_side {ι : Type} [DecidableEq ι] (s : Database) (calls : ι → Call)
    (db₀ : Db) (es : List (World.Move ι Db Exc Answer)) (w : World ι Db Exc Answer)
    (h : Interleaving s calls db₀ es w) :
    ((∀ c ∈ db₀.channels, c.settings.InRange) → ∀ c ∈ w.store.channels, c.settings.InRange) ∧
    (∀ c ∈ db₀.channels, ∃ c' ∈ w.store.channels, c'.id = c.id ∧
      c'.slackChannelId = c.slackChannelId ∧
      (c.lastCallLeadMinutes.isSome = true → c'.lastCallLeadMinutes.isSome = true)) ∧
    ∀ i answer a slackChannelId actor patch d, w.sessions i = .committed answer →
      calls i = .updateChannelConfig a slackChannelId actor patch d → patch.NeedsLead →
      ∃ c ∈ w.store.channels, c.slackChannelId = slackChannelId ∧
        c.lastCallLeadMinutes.isSome = true ∧
        ∀ c' ∈ w.store.channels, c'.slackChannelId = slackChannelId → c' = c := by
  have hsteady := ((relies_steady s calls).later h).1
  refine ⟨hsteady.inRange, hsteady.kept, ?_⟩
  intro i answer a slackChannelId actor patch d hi hcall hneeds
  exact channel_with_lead h hi hcall hneeds

/-- A configuration call that commits sets the columns in which its patch differs from the row
it has read, and leaves the others as the last commit left them, but for the time of the
update: the patch is in force unless it asked for what it read and someone has changed that
since. -/
theorem patch_overlays_commits {ι : Type} [DecidableEq ι] (s : Database) (calls : ι → Call)
    (db₀ : Db) (es : List (World.Move ι Db Exc Answer)) (e : World.Move ι Db Exc Answer)
    (h : Interleaving s calls db₀ es e.before)
    (hstep : World.step Db.Valid .integrityError e.before e.label e.after)
    (a : SlackAdminAuthorizer) (slackChannelId : String) (actor : AdminActor)
    (patch : ChannelConfigPatch) (d : Draws)
    (hcall : calls e.label = .updateChannelConfig a slackChannelId actor patch d) (answer : Answer)
    (ha : World.answer e = some answer) (hlogged : answer.logged = true) :
    ∃ f ∈ es, f.label = e.label ∧ ∃ row ∈ f.before.store.channels,
      row.slackChannelId = slackChannelId ∧ ∃ now ∈ e.before.store.channels, now.id = row.id ∧
      (∀ other, other.id ≠ row.id →
        (other ∈ e.after.store.channels ↔ other ∈ e.before.store.channels)) ∧
      ∃ c ∈ e.after.store.channels, c.id = row.id ∧ Beside now c ∧
        c.settings = patch.overlay row.settings now.settings ∧
        (c.settings = patch.applyTo now.settings ↔ patch.Lands row.settings now.settings) := by
  have hconducted := conducted_of_answer h hstep ha
  have hcommits := (relies_steady s calls).commits h hstep ha
  rw [hcall] at hconducted
  cases hconducted with
  | quiet hquiet => exact absurd (hquiet.symm.trans hlogged) Bool.false_ne_true
  | changed seen row modified entry _ hseen hrow hedits hafter _ =>
    obtain ⟨now, hnow, hid, -⟩ := (hcommits.read seen hseen).kept row hrow
    obtain ⟨ds₁, ds₂, htrail, hds⟩ := hseen
    obtain ⟨fs₁, f, fs₂, hsplit, hlabel, -, rfl⟩ := World.read_of_trail h htrail hds
    have hfmem : f ∈ es := hsplit ▸ List.mem_append_right _ List.mem_cons_self
    cases hedits with
    | configured _ _ _ _ updates _ hbuild _ =>
      obtain ⟨-, rfl⟩ := AdminService.buildConfigUpdates_ok.mp hbuild
      have hpatched := settings_patched row now patch (d.clock 0)
      refine ⟨f, hfmem, hlabel, row, hrow, rfl, now, hnow, hid, fun other hother => ?_,
        Row.merge row _ now, ?_, hid, beside_patched row now patch _, hpatched, ?_⟩
      · rw [hafter]
        exact Table.mem_update_of_ne hother
      · rw [hafter]
        exact Table.merge_mem_update hnow hid
      · rw [hpatched]
        exact ChannelConfigPatch.overlay_eq_applyTo

/-! ### Two admins -/

namespace Sample

/-- One admin turns last call on with a lead time, another shortens the retention. -/
def leadTen : Call :=
  .updateChannelConfig admin "C7" adminActor
    { lastCallEnabled := some true, lastCallLeadMinutes := some 10 } (draws 1)

def retentionThirty : Call :=
  .updateChannelConfig admin "C7" adminActor { dataRetentionDays := some 30 } (draws 2)

/-- A statement of the one after a statement of the other; the last commit is still to come. -/
def adminsInTurn : List Bool := [true, false, true, false, true, false, true]

def adminMoves : List (World.Move Bool Db Exc Answer) :=
  pairMoves db leadTen retentionThirty adminsInTurn

def adminsMet : World Bool Db Exc Answer := pairEnd db leadTen retentionThirty adminsInTurn

def lastCommit : World.Move Bool Db Exc Answer :=
  ⟨adminsMet, false, (adminsMet.next Db.Valid .integrityError false).getD adminsMet⟩

theorem step_lastCommit :
    World.step Db.Valid .integrityError lastCommit.before lastCommit.label lastCommit.after := by
  have hnext : (adminsMet.next Db.Valid .integrityError false).isSome = true := by decide +kernel
  obtain ⟨w, hw⟩ := Option.isSome_iff_exists.mp hnext
  show adminsMet.next Db.Valid .integrityError false =
    some ((adminsMet.next Db.Valid .integrityError false).getD adminsMet)
  rw [hw, Option.getD_some]

theorem answer_lastCommit : (World.answer lastCommit).map Answer.logged = some true := by
  decide +kernel

theorem interleaving_admins :
    Interleaving database (pair leadTen retentionThirty) db adminMoves lastCommit.before :=
  interleaving_pair db leadTen retentionThirty adminsInTurn

theorem interleaving_lastCommit :
    Interleaving database (pair leadTen retentionThirty) db (adminMoves ++ [lastCommit])
      lastCommit.after := interleaving_admins.snoc step_lastCommit

theorem commits_admins :
    ((World.commits (adminMoves ++ [lastCommit])).filter fun c => c.2.logged).map Prod.fst =
      [true, false] := by
  decide +kernel

end Sample

open Sample in
theorem audit_log_complete_admins :
    ((World.commits (adminMoves ++ [lastCommit])).filter fun c => c.2.logged).map Prod.fst =
        [true, false] ∧
      ∃ entries, lastCommit.after.store.channelAdminActions.rows = [] ++ entries ∧
        List.Forall₂ (fun c entry => Owes (pair leadTen retentionThirty c.1) c.2 entry)
          ((World.commits (adminMoves ++ [lastCommit])).filter fun c => c.2.logged) entries :=
  ⟨commits_admins, audit_log_complete database (pair leadTen retentionThirty) db _ _
    interleaving_lastCommit⟩

open Sample in
theorem settings_sound_side_by_side_admins :
    ((∀ c ∈ db.channels, c.settings.InRange) →
      ∀ c ∈ lastCommit.after.store.channels, c.settings.InRange) ∧
    (∀ c ∈ db.channels, ∃ c' ∈ lastCommit.after.store.channels, c'.id = c.id ∧
      c'.slackChannelId = c.slackChannelId ∧
      (c.lastCallLeadMinutes.isSome = true → c'.lastCallLeadMinutes.isSome = true)) ∧
    ∀ i answer a slackChannelId actor patch d,
      lastCommit.after.sessions i = .committed answer →
      pair leadTen retentionThirty i = .updateChannelConfig a slackChannelId actor patch d →
      patch.NeedsLead →
      ∃ c ∈ lastCommit.after.store.channels, c.slackChannelId = slackChannelId ∧
        c.lastCallLeadMinutes.isSome = true ∧
        ∀ c' ∈ lastCommit.after.store.channels, c'.slackChannelId = slackChannelId → c' = c :=
  settings_sound_side_by_side database (pair leadTen retentionThirty) db _ _ interleaving_lastCommit

open Sample in
theorem patch_overlays_commits_admins :
    ∃ f ∈ adminMoves, f.label = false ∧ ∃ row ∈ f.before.store.channels,
      row.slackChannelId = "C7" ∧ ∃ now ∈ adminsMet.store.channels, now.id = row.id ∧
      (∀ other, other.id ≠ row.id →
        (other ∈ lastCommit.after.store.channels ↔ other ∈ adminsMet.store.channels)) ∧
      ∃ c ∈ lastCommit.after.store.channels, c.id = row.id ∧ Beside now c ∧
        c.settings = ({ dataRetentionDays := some 30 } : ChannelConfigPatch).overlay row.settings
          now.settings ∧
        (c.settings = ({ dataRetentionDays := some 30 } : ChannelConfigPatch).applyTo now.settings ↔
          ({ dataRetentionDays := some 30 } : ChannelConfigPatch).Lands row.settings
            now.settings) := by
  obtain ⟨answer, ha, hlogged⟩ := Option.map_eq_some_iff.mp answer_lastCommit
  exact patch_overlays_commits database (pair leadTen retentionThirty) db adminMoves lastCommit
    interleaving_admins step_lastCommit admin "C7" adminActor { dataRetentionDays := some 30 }
    (draws 2) rfl answer ha hlogged

end CoffeeBuddy

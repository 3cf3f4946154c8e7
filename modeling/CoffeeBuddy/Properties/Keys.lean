import CoffeeBuddy.Library.Junction
import CoffeeBuddy.Services.History

/-! Keys and references. No call adds a second row of a key or a row that refers to nothing,
whatever the schema would have refused, as long as every run is in a stored channel. -/

namespace CoffeeBuddy
open Relational Transaction OrderRepository PreferenceService FairnessService CloseRunService

/-- One row for each key and no reference to a missing row, in what orders and closes read. -/
structure Db.Consistent (db : Db) : Prop where
  orders : Junction (fun o : Order => (o.runId, o.userId)) db.orders db.runs db.users
  preferences : Junction (fun p : UserPreference => (p.userId, p.channelId)) db.userPreferences
    db.users db.channels
  stats : Junction (fun r : RunnerStat => (r.userId, r.channelId)) db.runnerStats db.users db.channels
  runner : ∀ run ∈ db.runs, run.status = .closed →
    ∃ user ∈ db.users, run.runnerUserId = some user.id

/-- The channel of every run is stored as well. -/
structure Db.Sound (db : Db) : Prop extends db.Consistent where
  runChannel : ∀ run ∈ db.runs, ∃ channel ∈ db.channels, channel.id = run.channelId

section Rows
variable {db : Db} {t : Table Order} {run : Run} {user : User} {text : String} {confirm : Bool}
  {provenance : OrderProvenance} {now : Timestamp}

/-! ### Orders and preferences -/

theorem Db.Consistent.uniqueIn (h : db.Consistent) (r : Uuid) : UniqueIn r db.orders :=
  fun o ho p hp _ heq => h.orders.unique o ho p hp heq

theorem Db.Sound.setOrders (h : db.Sound)
    (ht : Junction (fun o : Order => (o.runId, o.userId)) t db.runs db.users) :
    Db.Sound { db with orders := t } := { h with orders := ht }

theorem Db.Sound.setPreferences (h : db.Sound) {t : Table UserPreference}
    (ht : Junction (fun p : UserPreference => (p.userId, p.channelId)) t db.users db.channels) :
    Db.Sound { db with userPreferences := t } := { h with preferences := ht }

theorem Db.Sound.setStats (h : db.Sound) {t : Table RunnerStat}
    (ht : Junction (fun r : RunnerStat => (r.userId, r.channelId)) t db.users db.channels) :
    Db.Sound { db with runnerStats := t } := { h with stats := ht }

theorem Db.Sound.upserted (h : db.Sound) {order : Order} (hrun : run ∈ db.runs)
    (huser : user ∈ db.users)
    (hup : Upserted db.orders run.id user.id text confirm provenance now order t) :
    Db.Sound { db with orders := t } := by
  have hputs : db.orders.Puts pairOf t order := hup.puts (h.uniqueIn run.id)
  apply h.setOrders
  exact h.orders.puts hputs ⟨run, hrun, hup.runId.symm⟩ ⟨user, huser, hup.userId.symm⟩

theorem Db.Sound.remembered (h : db.Sound) {p : UserPreference} {t : Table UserPreference}
    (hrun : run ∈ db.runs) (huser : user ∈ db.users)
    (hp : Remembered db.userPreferences user.id run.channelId text now p t) :
    Db.Sound { db with userPreferences := t } := by
  have hputs : db.userPreferences.Puts keyOf t p := hp.puts h.preferences.unique
  obtain ⟨channel, hchannel, hid⟩ := h.runChannel run hrun
  apply h.setPreferences
  exact h.preferences.puts hputs ⟨user, huser, hp.userId.symm⟩
    ⟨channel, hchannel, hid.trans hp.channelId.symm⟩

theorem Db.Sound.persisted (h : db.Sound) {d : Draws} {res : OrderSubmissionResult} {db' : Db}
    (hrun : run ∈ db.runs) (huser : user ∈ db.users)
    (hp : (OrderService.persistOrder run user text confirm provenance d).Returns db res db') :
    db'.Sound := by
  obtain ⟨order, orders, prefs, hup, hprefs, rfl, -⟩ := OrderService.returns_persistOrder hp
  have horders := h.upserted hrun huser hup
  rcases hprefs with ⟨-, rfl⟩ | ⟨-, p, hp⟩
  · exact horders
  · exact horders.remembered hrun huser hp

theorem Db.Sound.updateOrder (h : db.Sound) {l m : Order} (hrun : m.runId = l.runId)
    (huser : m.userId = l.userId) : Db.Sound { db with orders := db.orders.update l m } := by
  refine h.setOrders (h.orders.update fun r => ?_)
  show (column l.runId m.runId r.runId, column l.userId m.userId r.userId) = _
  rw [column_of_eq hrun, column_of_eq huser]

theorem Db.Sound.updatePreference (h : db.Sound) {l m : UserPreference} (huser : m.userId = l.userId)
    (hchannel : m.channelId = l.channelId) :
    Db.Sound { db with userPreferences := db.userPreferences.update l m } := by
  refine h.setPreferences (h.preferences.update fun r => ?_)
  show (column l.userId m.userId r.userId, column l.channelId m.channelId r.channelId) = _
  rw [column_of_eq huser, column_of_eq hchannel]

/-! ### Closing -/

theorem Db.Sound.snapshot (h : db.Sound) (orders : List (Order × User)) :
    Db.Sound { db with orders := CloseRunService.snapshot now db.orders orders } := by
  induction orders generalizing db with
  | nil => exact h
  | cons p orders ih =>
    have hupdate : Db.Sound { db with orders := db.orders.update p.1 (snapshotted p.1 now) } :=
      h.updateOrder rfl rfl
    exact ih hupdate

theorem Db.Consistent.onePerUser (h : db.Consistent) (channel : Uuid) :
    OnePerUser channel db.runnerStats :=
  fun s hs s' hs' hc hc' hu => h.stats.unique s hs s' hs' (Prod.ext hu (hc.trans hc'.symm))

/-- The rows a close adds are one for each participant without one. -/
theorem junction_prepared {channel : Uuid} {us : List Uuid} {before loaded : Table RunnerStat}
    {users : Table User} {channels : Table Channel}
    (h : Junction (fun r : RunnerStat => (r.userId, r.channelId)) before users channels)
    (hp : Prepared channel us before loaded) (husers : ∀ u ∈ us, ∃ user ∈ users, user.id = u)
    (hchannel : ∃ c ∈ channels, c.id = channel) :
    Junction (fun r : RunnerStat => (r.userId, r.channelId)) loaded users channels := by
  obtain ⟨created, hrows, hcreated⟩ := hp.grown
  have hmem : ∀ r ∈ loaded, r ∈ before ∨ r ∈ created := fun r hr => by
    rwa [← Table.mem_rows, hrows, List.mem_append, Table.mem_rows] at hr
  have hother : ∀ r ∈ loaded, r.channelId ≠ channel → r ∈ before := by
    intro r hr hne
    rcases hmem r hr with hr | hr
    · exact hr
    · exact absurd (hcreated r hr).1 hne
  constructor
  · intro r hr r' hr' heq
    obtain ⟨hu, hc⟩ := Prod.mk.inj heq
    by_cases hchan : r.channelId = channel
    · exact hp.onePerUser r hr r' hr' hchan (hc.symm.trans hchan) hu
    · have hchan' : r'.channelId ≠ channel := fun h => hchan (hc.trans h)
      exact h.unique r (hother r hr hchan) r' (hother r' hr' hchan') heq
  · intro r hr
    rcases hmem r hr with hr | hr
    · exact h.left r hr
    · exact husers r.userId (hcreated r hr).2.1
  · intro r hr
    rcases hmem r hr with hr | hr
    · exact h.right r hr
    · obtain ⟨c, hc, hid⟩ := hchannel
      exact ⟨c, hc, hid.trans (hcreated r hr).1.symm⟩

/-- A run given to a stored user is closed, every other run is as it was. -/
theorem Db.Sound.finalized (h : db.Sound) (hrun : run ∈ db.runs) (huser : user ∈ db.users) :
    Db.Sound { db with runs := db.runs.update run (CloseRunService.finalized run user.id now) } := by
  have hmem : ∀ row, row ∈ db.runs.update run (CloseRunService.finalized run user.id now) ↔
      row = CloseRunService.finalized run user.id now ∨ row ∈ db.runs ∧ row.id ≠ run.id :=
    fun row => mem_update_finalized hrun user.id
  refine ⟨⟨?_, h.preferences, h.stats, fun row hrow hclosed => ?_⟩, fun row hrow => ?_⟩
  · exact h.orders.parents (fun _ hr => Table.exists_mem_update _ _ hr) fun u hu => ⟨u, hu, rfl⟩
  · rcases (hmem row).mp hrow with rfl | ⟨hrow, -⟩
    · exact ⟨user, huser, rfl⟩
    · exact h.runner row hrow hclosed
  · rcases (hmem row).mp hrow with rfl | ⟨hrow, -⟩
    · exact h.runChannel run hrun
    · exact h.runChannel row hrow

theorem Db.Sound.closed (h : db.Sound) {authorizer : CloseRunAuthorizer} {collation : Collation}
    {request : CloseRunRequest} {d : Draws} {res : CloseRunResult} {db' : Db}
    (hclose : (closeRun authorizer collation request now d).Returns db res db') : db'.Sound := by
  obtain ⟨row, user, hcl⟩ := closes_of_returns hclose
  obtain ⟨run, runner, loaded, chosen, creditedAt, hchan, hcl, -, hprep, -, hstats⟩ :=
    credited_of_returns (h.onePerUser row.channelId) hcl.channelId hclose
  obtain ⟨stats, rfl⟩ := hcl.written
  obtain rfl : stats = loaded.update chosen (credited chosen creditedAt) := hstats
  have hloaded := junction_prepared h.stats hprep (fun u hu => (mem_participantIds.mp hu).2)
    (hchan ▸ h.runChannel run hcl.mem)
  have hcredited : Junction (fun r : RunnerStat => (r.userId, r.channelId))
      (loaded.update chosen (credited chosen creditedAt)) db.users db.channels := by
    refine hloaded.update fun r => ?_
    show (column chosen.userId chosen.userId r.userId,
      column chosen.channelId chosen.channelId r.channelId) = _
    rw [column_unchanged, column_unchanged]
  have hruns : Db.Sound { db with
      runs := db.runs.update run (CloseRunService.finalized run runner.id now) } :=
    h.finalized hcl.mem hcl.runnerMem
  exact (hruns.snapshot (activeOrders collation run.id db)).setStats hcredited

/-! ### The admin operations -/

theorem Db.Sound.setChannels (h : db.Sound) {channels : Table Channel}
    {actions : Table ChannelAdminAction}
    (hkeep : ∀ c ∈ db.channels, ∃ c' ∈ channels, c'.id = c.id) :
    Db.Sound { db with channels := channels, channelAdminActions := actions } := by
  have husers : ∀ u ∈ db.users, ∃ u' ∈ db.users, u'.id = u.id := fun u hu => ⟨u, hu, rfl⟩
  refine ⟨⟨h.orders, ?_, ?_, h.runner⟩, fun run hrun => ?_⟩
  · exact h.preferences.parents husers hkeep
  · exact h.stats.parents husers hkeep
  · obtain ⟨c, hc, hid⟩ := h.runChannel run hrun
    obtain ⟨c', hc', hid'⟩ := hkeep c hc
    exact ⟨c', hc', hid'.trans hid⟩

theorem Db.Sound.updateChannel (h : db.Sound) (l m : Channel) (actions : Table ChannelAdminAction) :
    Db.Sound { db with channels := db.channels.update l m, channelAdminActions := actions } :=
  h.setChannels fun _ hc => Table.exists_mem_update l m hc

/-- The orders of a purged run are found through it and go first. -/
theorem Db.Sound.purged (h : db.Sound) (channel : Uuid) : (AdminService.purged channel db).Sound := by
  have hruns : ∀ r, r ∈ (AdminService.purged channel db).runs ↔ r ∈ db.runs ∧ r.channelId ≠ channel :=
    fun r => Table.mem_delete.trans (and_congr_right fun _ => decide_eq_false_iff_not)
  refine ⟨⟨?_, ?_, ?_, fun run hrun => ?_⟩, fun run hrun => ?_⟩
  · refine h.orders.restrict (fun o ho => (Table.mem_delete.mp ho).1) (fun o ho r hr hid => ?_)
      fun _ _ u hu hid => ⟨u, hu, hid⟩
    exact ⟨r, AdminService.mem_runs_purged ho hr hid, hid⟩
  · exact h.preferences.subset fun p hp => (Table.mem_delete.mp hp).1
  · exact h.stats.subset fun r hr => (Table.mem_delete.mp hr).1
  · exact h.runner run ((hruns run).mp hrun).1
  · exact h.runChannel run ((hruns run).mp hrun).1

end Rows

/-! ### Calls and runs of calls -/

/-- A run created beside the services is in a stored channel. -/
def Call.Placed (db : Db) : Call → Prop
  | .createRun run => ∃ channel ∈ db.channels, channel.id = run.channelId
  | _ => True

section Calls
variable {s : Database} {db db' : Db}

theorem Db.Sound.created (h : db.Sound) {run : NewRun} {t : Table Run}
    (ht : db.runs.insert run.row = some t)
    (hchannel : ∃ channel ∈ db.channels, channel.id = run.channelId) :
    Db.Sound { db with runs := t } := by
  have hmem : ∀ r, r ∈ t ↔ r ∈ db.runs ∨ r = run.row := fun r => Table.mem_insert ht
  refine ⟨⟨?_, h.preferences, h.stats, fun r hr hclosed => ?_⟩, fun r hr => ?_⟩
  · exact h.orders.parents (fun r hr => ⟨r, (hmem r).mpr (Or.inl hr), rfl⟩) fun u hu => ⟨u, hu, rfl⟩
  · rcases (hmem r).mp hr with hr | rfl
    · exact h.runner r hr hclosed
    · have hopen : RunStatus.open = .closed := hclosed
      exact absurd hopen (by decide)
  · rcases (hmem r).mp hr with hr | rfl
    · exact h.runChannel r hr
    · exact hchannel

theorem Db.Sound.call (h : db.Sound) {c : Call} {answer : Answer} (hc : c.Placed db)
    (hret : (c.tx s).Returns db answer db') : db'.Sound := by
  cases c with
  | createRun run =>
    simp only [Call.tx, Program.returns_bind, returns_inserting, Program.returns_pure] at hret
    obtain ⟨_, _, ⟨t, ht, rfl⟩, -, rfl⟩ := hret
    exact h.created ht hc
  | submitOrder v request d =>
    obtain ⟨res, hcall, -⟩ := Program.returns_bind_pure.mp hret
    obtain ⟨run, user, text, -, hrun, -, -, huser, -, hpersist⟩ :=
      OrderService.returns_submitOrder hcall
    exact h.persisted hrun huser hpersist
  | useLastOrder v runId userId d =>
    obtain ⟨res, hcall, -⟩ := Program.returns_bind_pure.mp hret
    obtain ⟨run, user, p, text, mid, -, hrun, -, -, huser, -, -, hpersist, q, -, -, rfl⟩ :=
      OrderService.returns_useLastOrder hcall
    exact (h.persisted hrun huser hpersist).updatePreference rfl rfl
  | cancelOrder runId userId d =>
    obtain ⟨res, hcall, -⟩ := Program.returns_bind_pure.mp hret
    obtain ⟨run, user, o, orders, -, -, -, -, -, -, -, rfl, rfl, -⟩ :=
      OrderService.returns_cancelOrder.mp hcall
    exact h.updateOrder rfl rfl
  | closeRun authorizer request now d =>
    obtain ⟨res, hcall, -⟩ := Program.returns_bind_pure.mp hret
    exact h.closed hcall
  | updateChannelConfig a slackChannelId actor patch d =>
    obtain ⟨res, hcall, -⟩ := Program.returns_bind_pure.mp hret
    obtain ⟨channel, updates, -, -, -, -, -, ⟨-, rfl⟩ | ⟨-, t, -, rfl⟩⟩ :=
      AdminService.returns_updateChannelConfig hcall
    · exact h
    · exact h.updateChannel _ _ t
  | setChannelEnabled a slackChannelId actor enabled reason d =>
    obtain ⟨res, hcall, -⟩ := Program.returns_bind_pure.mp hret
    obtain ⟨channel, details, t, -, -, -, -, -, -, rfl⟩ := AdminService.returns_setChannelEnabled hcall
    exact h.updateChannel _ _ t
  | resetChannelData a slackChannelId actor d =>
    obtain ⟨res, hcall, -⟩ := Program.returns_bind_pure.mp hret
    obtain ⟨channel, t, -, -, -, -, -, -, rfl⟩ := AdminService.returns_resetChannelData hcall
    exact (h.purged channel.id).updateChannel _ _ t

theorem Db.Sound.step (h : db.Sound) {l : Label} (hl : l.1.Placed db) (hstep : step s db l db') :
    db'.Sound := by
  obtain ⟨c, e | answer⟩ := l
  · rwa [failed_step hstep]
  · exact h.call hl hstep

end Calls

/-- The operations of the services create no run. -/
theorem sound_of_history (s : Database) (db₀ db : Db) (es : List Event) (h : History s db₀ es db)
    (hplaced : ∀ e ∈ es, e.label.1.Placed e.before) (h₀ : db₀.Sound) : db.Sound :=
  h.induct (fun _ hstep hplaced hs => hs.step hplaced hstep) hplaced h₀

/-! ### An order in a run of no channel, and one in a run of a stored channel -/

namespace Sample

/-- Run 11 is open in a channel that is not stored. -/
def homeless : Db := { opened with channels := .empty }

theorem consistent_opened (channels : Table Channel) :
    Db.Consistent { opened with channels := channels } where
  orders := ⟨nofun, nofun, nofun⟩
  preferences := ⟨nofun, nofun, nofun⟩
  stats := ⟨nofun, nofun, nofun⟩
  runner run hrun hclosed := by
    obtain rfl := List.mem_singleton.mp hrun
    exact absurd hclosed (by decide)

theorem sound_opened : opened.Sound :=
  ⟨consistent_opened opened.channels, fun run hrun => by
    obtain rfl := List.mem_singleton.mp hrun
    exact ⟨channel, List.mem_singleton_self _, rfl⟩⟩

theorem homeless_facts : (finalDb database homeless [submit 1 11 alice]).channels.rows = [] ∧
    (finalDb database homeless [submit 1 11 alice]).userPreferences.rows ≠ [] := by
  decide +kernel

end Sample

open Sample in
/-- Keys and references of orders, preferences and stats alone are not enough: the preference
of an order refers to the channel of its run. -/
theorem consistent_not_kept : homeless.Consistent ∧
    History database homeless (replay database homeless [submit 1 11 alice])
      (finalDb database homeless [submit 1 11 alice]) ∧
    ¬(finalDb database homeless [submit 1 11 alice]).Consistent := by
  refine ⟨consistent_opened .empty, history_replay database homeless _, fun h => ?_⟩
  obtain ⟨hchannels, hprefs⟩ := homeless_facts
  obtain ⟨p, hp⟩ := List.exists_mem_of_ne_nil _ hprefs
  obtain ⟨channel, hchannel, -⟩ := h.preferences.right p hp
  rw [← Table.mem_rows, hchannels] at hchannel
  exact absurd hchannel List.not_mem_nil

open Sample in
theorem sound_of_history_ordered : (finalDb database opened [submit 1 11 alice]).Sound :=
  sound_of_history database opened _ (replay database opened [submit 1 11 alice])
    (history_replay database opened _) (by
      intro e he
      obtain rfl := List.mem_singleton.mp he
      trivial) sound_opened

end CoffeeBuddy

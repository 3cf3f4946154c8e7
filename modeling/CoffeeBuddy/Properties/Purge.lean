import CoffeeBuddy.Library.Junction
import CoffeeBuddy.Properties.Reset

/-! What a data reset removes. It deletes the history of its channel and nothing else, counts
what it deletes, and leaves no order without its run, so that a second reset finds nothing. -/

namespace CoffeeBuddy
open Relational Transaction OrderRepository CloseRunService

/-! ### Every order is of a stored run -/

def Db.OrdersPlaced (db : Db) : Prop := ∀ o ∈ db.orders, ∃ run ∈ db.runs, run.id = o.runId

section Placed
variable {s : Database} {db db' : Db} {l : Label} {channel : Uuid}

theorem mem_of_upserted {before t : Table Order} {run user : Uuid} {text : String} {confirm : Bool}
    {provenance : OrderProvenance} {now : Timestamp} {order o : Order}
    (hup : Upserted before run user text confirm provenance now order t) (ho : o ∈ t) :
    o = order ∨ o ∈ before := by
  rcases hup.written with ⟨existing, hf, hid, -, rfl⟩ | ⟨-, -, hi⟩
  · have hmem := Table.mem_update (s := o) (List.mem_of_find?_eq_some hf) hid
    exact (hmem.mp ho).imp_right And.left
  · exact ((Table.mem_insert hi).mp ho).symm

theorem Db.OrdersPlaced.purged (h : db.OrdersPlaced) :
    (AdminService.purged channel db).OrdersPlaced := by
  intro o ho
  obtain ⟨r, hr, hid⟩ := h o (Table.mem_delete.mp ho).1
  exact ⟨r, AdminService.mem_runs_purged ho hr hid, hid⟩

theorem Db.OrdersPlaced.step (h : db.OrdersPlaced) (he : Effect s db l db') : db'.OrdersPlaced := by
  cases he with
  | failed | idle => exact h
  | created run runs hi =>
    intro o ho
    obtain ⟨r, hr, hid⟩ := h o ho
    exact ⟨r, (Table.mem_insert hi).mpr (Or.inl hr), hid⟩
  | ordered l p run user confirm now order orders prefs hp hr hrun hopen hu huser hup hn =>
    intro o ho
    rcases mem_of_upserted hup ho with rfl | ho
    · exact ⟨run, hrun, hup.runId.symm⟩
    · exact h o ho
  | canceled l w run user o now orders hw hr hrun hopen hu huser hf hc hup hn =>
    subst hup
    have hmem : o ∈ db.orders := List.mem_of_find?_eq_some hf
    intro q hq
    have hupdate := Table.mem_update (s := q)
      (m := { o with canceledAt := some now, updatedAt := now }) hmem rfl
    rcases hupdate.mp hq with rfl | ⟨hq, -⟩
    · exact h o hmem
    · exact h q hq
  | closed authorizer request now d result db' hclose =>
    obtain ⟨run, runner, hcl⟩ := closes_of_returns hclose
    obtain ⟨stats, rfl⟩ := hcl.written
    intro o ho
    obtain ⟨p, hp, hcontent⟩ := mem_snapshot ho
    obtain ⟨-, hrun, -⟩ := content_eq hcontent
    obtain ⟨r, hr, hid⟩ := h p hp
    obtain ⟨r', hr', hid'⟩ := Table.exists_mem_update run (finalized run runner.id now) hr
    exact ⟨r', hr', hid'.trans (hid.trans hrun)⟩
  | configured => exact h
  | reset l c modified actions hl hc hid => exact h.purged

theorem Db.OrdersPlaced.history {db₀ : Db} {es : List Event} (h₀ : db₀.OrdersPlaced)
    (h : History s db₀ es db) : db.OrdersPlaced :=
  h.invariant (fun _ _ _ hstep hplaced => hplaced.step (effect_of_step hstep)) h₀

end Placed

/-! ### What is removed -/

/-- `u` is `t` without its `n` rows of the kind `p`. -/
structure Deletes {ρ κ : Type} [Keyed ρ κ] (p : ρ → Prop) (t u : Table ρ) (n : ℕ) : Prop where
  mem_iff : ∀ r, r ∈ u ↔ r ∈ t ∧ ¬p r
  count : t.rows.length = u.rows.length + n

/-- The history of the channel is gone, as counted, and everything else is as it was but for
the time of the reset. -/
structure ResetExactly (channel : Uuid) (counts : PurgeCounts) (db db' : Db) : Prop where
  runs : Deletes (fun r => r.channelId = channel) db.runs db'.runs counts.runsDeleted
  orders : Deletes (fun o => ∃ r ∈ db.runs, r.id = o.runId ∧ r.channelId = channel) db.orders
    db'.orders counts.ordersDeleted
  preferences : Deletes (fun p => p.channelId = channel) db.userPreferences db'.userPreferences
    counts.preferencesDeleted
  stats : Deletes (fun r => r.channelId = channel) db.runnerStats db'.runnerStats
    counts.runnerStatsDeleted
  users : db'.users = db.users
  channels : ∃ now, db'.channels.rows = db.channels.rows.map fun c =>
    if c.id = channel then { c with lastResetAt := some now, updatedAt := now } else c

section Removed
variable {s : Database} {db db' : Db} {a : SlackAdminAuthorizer} {schema : AuditSchema}
  {slackChannelId : String} {actor : AdminActor} {d : Draws} {result : DataResetResult}

theorem deletes_delete {ρ κ : Type} [Keyed ρ κ] {t : Table ρ} {d : ρ → Bool} {p : ρ → Prop}
    (hp : ∀ r, d r = true ↔ p r) : Deletes p t (t.delete d) (t.count d) where
  mem_iff r := by rw [Table.mem_delete, ← hp r, Bool.not_eq_true]
  count := t.length_delete d

theorem only_channel_of_reset
    (h : (AdminService.resetChannelData a schema slackChannelId actor d).Returns db result db') :
    ∀ c ∈ db.channels, ∀ c' ∈ db.channels, c.slackChannelId = slackChannelId →
      c'.slackChannelId = slackChannelId → c = c' := by
  unfold AdminService.resetChannelData at h
  obtain ⟨channel, _, hget, -⟩ := Program.returns_bind.mp h
  intro c hc c' hc' hname hname'
  have hfound : ∀ x ∈ db.channels, x.slackChannelId = slackChannelId → x = channel :=
    fun x hx => AdminService.eq_of_returns_getChannel hget hx
  rw [hfound c hc hname, hfound c' hc' hname']

/-- The channel's row after a reset, the other rows as they were. -/
theorem rows_update_reset {t : Table Channel} {channel : Channel} (hc : channel ∈ t) (now : Timestamp) :
    (t.update channel { channel with lastResetAt := some now, updatedAt := now }).rows =
      t.rows.map fun c => if c.id = channel.id then
        { c with lastResetAt := some now, updatedAt := now } else c := by
  refine List.map_congr_left fun c hmem => ?_
  by_cases hid : c.id = channel.id
  · obtain rfl : c = channel := Table.eq_of_key hmem hc hid
    rw [if_pos rfl, if_pos rfl]
    exact Row.merge_loaded _ _ rfl
  · have hkey : Keyed.key c ≠ Keyed.key channel := hid
    rw [if_neg hid, if_neg hkey]

theorem resetExactly_of_returns {channel : Channel} (hc : channel ∈ db.channels)
    {counts : PurgeCounts} {actions : Table ChannelAdminAction} {now : Timestamp}
    (hpurge : (AdminService.purgeChannelData channel.id).Returns db counts
      (AdminService.purged channel.id db)) :
    ResetExactly channel.id counts db { AdminService.purged channel.id db with
      channels := db.channels.update channel
        { channel with lastResetAt := some now, updatedAt := now }
      channelAdminActions := actions } := by
  obtain ⟨rfl, -⟩ := AdminService.returns_purgeChannelData.mp hpurge
  exact {
    runs := deletes_delete fun r => decide_eq_true_iff
    orders := deletes_delete fun o => AdminService.orderOfChannel_iff
    preferences := deletes_delete fun p => decide_eq_true_iff
    stats := deletes_delete fun r => decide_eq_true_iff
    users := rfl
    channels := ⟨now, rows_update_reset hc now⟩ }

theorem ResetExactly.counts_again {channel : Uuid} {counts counts' : PurgeCounts}
    (h : ResetExactly channel counts db db') {db'' : Db}
    (hpurge : (AdminService.purgeChannelData channel).Returns db' counts' db'') :
    counts' = ⟨0, 0, 0, 0⟩ := by
  obtain ⟨rfl, -⟩ := AdminService.returns_purgeChannelData.mp hpurge
  have hruns : ∀ r ∈ db'.runs, r.channelId ≠ channel := fun r hr => ((h.runs.mem_iff r).mp hr).2
  have horders : db'.orders.count (AdminService.orderOfChannel channel db') = 0 := by
    refine Table.count_eq_zero.mpr fun o _ hpurged => ?_
    obtain ⟨r, hr, -, hchan⟩ := AdminService.orderOfChannel_iff.mp hpurged
    exact hruns r hr hchan
  have hruns0 : (db'.runs.count fun r => r.channelId = channel) = 0 :=
    Table.count_eq_zero.mpr fun r hr hchan => hruns r hr (of_decide_eq_true hchan)
  have hprefs0 : (db'.userPreferences.count fun p => p.channelId = channel) = 0 :=
    Table.count_eq_zero.mpr fun p hp hchan =>
      ((h.preferences.mem_iff p).mp hp).2 (of_decide_eq_true hchan)
  have hstats0 : (db'.runnerStats.count fun r => r.channelId = channel) = 0 :=
    Table.count_eq_zero.mpr fun r hr hchan =>
      ((h.stats.mem_iff r).mp hr).2 (of_decide_eq_true hchan)
  rw [horders, hruns0, hprefs0, hstats0]

/-- The channel keeps its name, so a second reset finds it again. -/
theorem ResetExactly.channel_again {channel c' : Channel} {counts : PurgeCounts}
    (h : ResetExactly channel.id counts db db')
    (honly : ∀ c ∈ db.channels, c.slackChannelId = slackChannelId → c = channel)
    (hc' : c' ∈ db'.channels) (hname : c'.slackChannelId = slackChannelId) : c'.id = channel.id := by
  obtain ⟨now, hrows⟩ := h.channels
  rw [← Table.mem_rows, hrows] at hc'
  obtain ⟨c, hc, rfl⟩ := List.mem_map.mp hc'
  split_ifs at hname ⊢ with hid
  · exact hid
  · exact congrArg Channel.id (honly c hc hname)

end Removed

theorem reset_removes_exactly (s : Database) (db₀ db db' : Db) (es : List Event)
    (a : SlackAdminAuthorizer) (slackChannelId : String) (actor : AdminActor) (d : Draws)
    (result : DataResetResult) (h : History s db₀ es db) (h₀ : db₀.OrdersPlaced)
    (hreset : step s db (.resetChannelData a slackChannelId actor d, .ok (.reset result)) db') :
    ∃ channel ∈ db.channels, channel.slackChannelId = slackChannelId ∧
      result.channelId = channel.id.str ∧ ResetExactly channel.id result.counts db db' ∧
      db'.OrdersPlaced ∧
      ∀ a' actor' d' result' db'', step s db'
          (.resetChannelData a' slackChannelId actor' d', .ok (.reset result')) db'' →
        result'.counts = ⟨0, 0, 0, 0⟩ := by
  have hplaced : db.OrdersPlaced := h₀.history h
  have hplaced' : db'.OrdersPlaced := hplaced.step (effect_of_step hreset)
  obtain ⟨res, hret, hres⟩ := Program.returns_bind_pure.mp hreset
  obtain rfl := Answer.reset.inj hres
  have honly := only_channel_of_reset hret
  obtain ⟨channel, actions, hc, hname, -, hpurge, hid, -, rfl⟩ :=
    AdminService.returns_resetChannelData hret
  have hexact : ResetExactly channel.id result.counts db { AdminService.purged channel.id db with
      channels := db.channels.update channel
        { channel with lastResetAt := some (d.clock 0), updatedAt := d.clock 0 }
      channelAdminActions := actions } := resetExactly_of_returns hc hpurge
  refine ⟨channel, hc, hname, hid, hexact, hplaced', ?_⟩
  intro a' actor' d' result' db'' hagain
  obtain ⟨res', hret', hres'⟩ := Program.returns_bind_pure.mp hagain
  obtain rfl := Answer.reset.inj hres'
  obtain ⟨c', _, hc', hname', -, hpurge', -⟩ := AdminService.returns_resetChannelData hret'
  have hsame : c'.id = channel.id :=
    hexact.channel_again (fun c hc₁ hname₁ => honly c hc₁ channel hc hname₁ hname) hc' hname'
  rw [hsame] at hpurge'
  exact hexact.counts_again hpurge'

open Sample in
theorem reset_removes_exactly_past : ∃ channel ∈ withPast.channels, channel.slackChannelId = "C7" ∧
    Sample.channel.id.str = channel.id.str ∧
    ResetExactly channel.id ⟨2, 1, 1, 1⟩ withPast (afterReset withPast) ∧
    (afterReset withPast).OrdersPlaced ∧
    ∀ a' actor' d' result' db'', step database (afterReset withPast)
        (.resetChannelData a' "C7" actor' d', .ok (.reset result')) db'' →
      result'.counts = ⟨0, 0, 0, 0⟩ := by
  have hreset : step database withPast
      (resetting 50, .ok (.reset ⟨Sample.channel.id.str, ⟨2, 1, 1, 1⟩⟩)) (afterReset withPast) := rfl
  exact reset_removes_exactly database withPast withPast (afterReset withPast) [] _ "C7" storedAdmin
    (pairDraws 50) _ .nil (by unfold Db.OrdersPlaced; decide) hreset

end CoffeeBuddy

import CoffeeBuddy.Library.Beside
import CoffeeBuddy.Library.Twin
import CoffeeBuddy.Services.History

/-! The rows of one channel. Two databases that agree on the users and on these rows may
differ in every other row; what an operation on the channel reads and writes is the same
in both. -/

namespace CoffeeBuddy
open Relational Transaction

/-- A channel, the ids its runs have or may be given, the Slack ids that name it, and whether
its audit rows are looked at. -/
structure Scope where
  channel : Uuid
  mine : Uuid → Bool
  slack : String → Prop
  audited : Bool

/-- What a close reports of its channel. -/
def Channel.reported (c : Channel) : Uuid × String × ℤ × Bool × Bool :=
  (c.id, c.name, c.reminderOffsetMinutes, c.remindersEnabled, c.lastCallEnabled)

/-- What names a channel, for the services and in Slack. -/
def Channel.names (c : Channel) : Uuid × String := (c.id, c.slackChannelId)

/-- No row that a service creates has the id. -/
structure Db.Avoids (db : Db) (id : Uuid) : Prop where
  runs : ∀ r ∈ db.runs, r.id ≠ id
  orders : ∀ o ∈ db.orders, o.id ≠ id
  preferences : ∀ p ∈ db.userPreferences, p.id ≠ id
  stats : ∀ r ∈ db.runnerStats, r.id ≠ id
  actions : ∀ a ∈ db.channelAdminActions, a.id ≠ id

theorem Db.avoids_iff {db : Db} {id : Uuid} : db.Avoids id ↔
    (∀ r ∈ db.runs.rows, r.id ≠ id) ∧ (∀ o ∈ db.orders.rows, o.id ≠ id) ∧
      (∀ p ∈ db.userPreferences.rows, p.id ≠ id) ∧ (∀ r ∈ db.runnerStats.rows, r.id ≠ id) ∧
      ∀ a ∈ db.channelAdminActions.rows, a.id ≠ id :=
  ⟨fun h => ⟨h.runs, h.orders, h.preferences, h.stats, h.actions⟩,
    fun ⟨hr, ho, hp, hs, ha⟩ => ⟨hr, ho, hp, hs, ha⟩⟩

instance (db : Db) (id : Uuid) : Decidable (db.Avoids id) := decidable_of_iff' _ Db.avoids_iff

namespace Scope
variable (S : Scope)

def ownChannel (c : Channel) : Bool := c.id = S.channel
def ownRun (r : Run) : Bool := r.channelId = S.channel
def ownOrder (o : Order) : Bool := S.mine o.runId
def ownPreference (p : UserPreference) : Bool := p.channelId = S.channel
def ownStat (r : RunnerStat) : Bool := r.channelId = S.channel
def ownAction (a : ChannelAdminAction) : Bool := S.audited && a.channelId = S.channel

/-- No row of another channel is taken for one of this one. -/
structure Clear (db : Db) : Prop where
  runs : ∀ r ∈ db.runs, S.ownRun r = false → S.mine r.id = false
  channels : ∀ c ∈ db.channels, S.ownChannel c = false → ¬S.slack c.slackChannelId

/-- `s` and `t` have the same users and the same rows of the channel, its own row as far as
`view` tells; the other rows are those of `u` and `v`. No row of the channel has an id in `X`. -/
structure Alike {ν : Type} (view : Channel → ν) (X : Uuid → Prop) (u v s t : Db) : Prop where
  clearLeft : S.Clear u
  clearRight : S.Clear v
  users : ∀ x, x ∈ s.users ↔ x ∈ t.users
  usersLeft : s.users = u.users
  usersRight : t.users = v.users
  channels : (s.channels.select S.ownChannel).map view = (t.channels.select S.ownChannel).map view
  channelsLeft : s.channels.rest S.ownChannel = u.channels.rest S.ownChannel
  channelsRight : t.channels.rest S.ownChannel = v.channels.rest S.ownChannel
  namesLeft : s.channels.rows.map Channel.names = u.channels.rows.map Channel.names
  namesRight : t.channels.rows.map Channel.names = v.channels.rows.map Channel.names
  runs : Table.Beside S.ownRun (fun id => X id ∨ S.mine id = false) u.runs v.runs s.runs t.runs
  orders : Table.Beside S.ownOrder X u.orders v.orders s.orders t.orders
  preferences : Table.Beside S.ownPreference X u.userPreferences v.userPreferences s.userPreferences
    t.userPreferences
  stats : Table.Beside S.ownStat X u.runnerStats v.runnerStats s.runnerStats t.runnerStats
  actions : Table.Beside S.ownAction X u.channelAdminActions v.channelAdminActions
    s.channelAdminActions t.channelAdminActions

/-- The id is new in both databases, and not one to keep free. -/
structure New (X : Uuid → Prop) (u v : Db) (id : Uuid) : Prop where
  left : u.Avoids id
  right : v.Avoids id
  kept : ¬X id

variable {S} {ν : Type} {view : Channel → ν} {X : Uuid → Prop} {u v s t : Db}

/-! ### Reads -/

namespace Alike

theorem find_user (h : S.Alike view X u v s t) (id : Uuid) : s.users.find? id = t.users.find? id := by
  apply Option.ext
  intro x
  simp only [Table.find?_eq_some, h.users x]

theorem mine_of_run (h : S.Alike view X u v s t) {run : Run} (hr : run ∈ s.runs)
    (ho : S.ownRun run = true) : S.mine run.id = true := by
  have hunused := h.runs.unused run hr ho
  rw [not_or, Bool.not_eq_false] at hunused
  exact hunused.2

theorem own_of_mine (h : S.Alike view X u v s t) {run : Run} (hr : run ∈ s.runs)
    (hm : S.mine run.id = true) : S.ownRun run = true := by
  cases ho : S.ownRun run with
  | true => rfl
  | false =>
    have hfalse := h.clearLeft.runs run ((h.runs.mem_left ho).mp hr) ho
    rw [hm] at hfalse
    cases hfalse

theorem symm (h : S.Alike view X u v s t) : S.Alike view X v u t s where
  clearLeft := h.clearRight
  clearRight := h.clearLeft
  users x := (h.users x).symm
  usersLeft := h.usersRight
  usersRight := h.usersLeft
  channels := h.channels.symm
  channelsLeft := h.channelsRight
  channelsRight := h.channelsLeft
  namesLeft := h.namesRight
  namesRight := h.namesLeft
  runs := h.runs.symm
  orders := h.orders.symm
  preferences := h.preferences.symm
  stats := h.stats.symm
  actions := h.actions.symm

theorem find_run (h : S.Alike view X u v s t) {id : Uuid} (hm : S.mine id = true) :
    s.runs.find? id = t.runs.find? id := by
  apply h.runs.find?_eq
  · rintro r hr rfl
    exact h.own_of_mine hr hm
  · rintro r hr rfl
    exact h.symm.own_of_mine hr hm

theorem find_channel (h : S.Alike view X u v s t) :
    (s.channels.find? S.channel).map view = (t.channels.find? S.channel).map view := by
  have hchannels := h.channels
  have hown : S.ownChannel = fun c => decide (Keyed.key c = S.channel) := rfl
  rw [hown, Table.select_key, Table.select_key, ← Option.toList_map, ← Option.toList_map] at hchannels
  have hhead := congrArg List.head? hchannels
  rwa [Option.head?_toList, Option.head?_toList] at hhead

end Alike

/-! ### One table of the channel -/

/-- A table whose rows of the channel are `own`. -/
structure Part (S : Scope) (view : Channel → ν) (X : Uuid → Prop) (u v : Db) {ρ : Type}
    [Keyed ρ Uuid] (table : Db → Table ρ) (store : Db → Table ρ → Db) (own : ρ → Bool)
    (unused : Uuid → Prop) : Prop where
  beside : ∀ s t, S.Alike view X u v s t →
    Table.Beside own unused (table u) (table v) (table s) (table t)
  stored : ∀ s t a b, S.Alike view X u v s t → Table.Beside own unused (table u) (table v) a b →
    S.Alike view X u v (store s a) (store t b)

theorem part_runs : Part S view X u v Db.runs (fun db t => { db with runs := t }) S.ownRun
    fun id => X id ∨ S.mine id = false :=
  ⟨fun _ _ h => h.runs, fun _ _ _ _ h hb => { h with runs := hb }⟩

theorem part_orders : Part S view X u v Db.orders (fun db t => { db with orders := t }) S.ownOrder X :=
  ⟨fun _ _ h => h.orders, fun _ _ _ _ h hb => { h with orders := hb }⟩

theorem part_preferences : Part S view X u v Db.userPreferences
    (fun db t => { db with userPreferences := t }) S.ownPreference X :=
  ⟨fun _ _ h => h.preferences, fun _ _ _ _ h hb => { h with preferences := hb }⟩

theorem part_stats : Part S view X u v Db.runnerStats (fun db t => { db with runnerStats := t })
    S.ownStat X :=
  ⟨fun _ _ h => h.stats, fun _ _ _ _ h hb => { h with stats := hb }⟩

theorem part_actions : Part S view X u v Db.channelAdminActions
    (fun db t => { db with channelAdminActions := t }) S.ownAction X :=
  ⟨fun _ _ h => h.actions, fun _ _ _ _ h hb => { h with actions := hb }⟩

section Statements
variable {ρ : Type} {own : ρ → Bool} {unused : Uuid → Prop}

theorem twin_inserting [Keyed ρ Uuid] {table : Db → Table ρ} {store : Db → Table ρ → Db} {r : ρ}
    (hp : Part S view X u v table store own unused) (ho : own r = true)
    (hu : (table u).Apart own (Keyed.key r)) (hv : (table v).Apart own (Keyed.key r))
    (hX : ¬unused (Keyed.key r)) :
    Program.Twin (S.Alike view X u v) (inserting table store r) (inserting table store r)
      fun _ _ => True := by
  refine Program.twin_execute fun s t h => ?_
  unfold insertion
  rcases (hp.beside s t h).insert ho hu hv hX with ⟨a, b, ha, hb, hab⟩ | ⟨ha, hb⟩
  · rw [ha, hb]
    exact Or.inl ⟨_, _, rfl, rfl, hp.stored s t a b h hab⟩
  · rw [ha, hb]
    exact Or.inr ⟨_, rfl, rfl⟩

theorem twin_updating [Row ρ Uuid] {table : Db → Table ρ} {store : Db → Table ρ → Db} {l m : ρ}
    (hp : Part S view X u v table store own unused)
    (hl : Table.Inner own (table u) (table v) l)
    (hkeep : ∀ r, own (Row.merge l m r) = own r) :
    Program.Twin (S.Alike view X u v) (updating table store l m) (updating table store l m)
      fun _ _ => True := by
  refine Program.twin_execute fun s t h => Or.inl ⟨_, _, rfl, rfl, ?_⟩
  exact hp.stored s t _ _ h ((hp.beside s t h).update hkeep hl.left hl.right)

theorem twin_deleting [Keyed ρ Uuid] {table : Db → Table ρ} {store : Db → Table ρ → Db}
    {p : Db → ρ → Bool} (hp : Part S view X u v table store own unused)
    (hown : ∀ s t, S.Alike view X u v s t → ∀ r, p s r = true → own r = true)
    (hsame : ∀ s t, S.Alike view X u v s t → ∀ r, p s r = p t r) :
    Program.Twin (S.Alike view X u v) (deleting table store p) (deleting table store p)
      (Program.Same fun _ => True) := by
  intro s t h
  have hb := hp.beside s t h
  have hs : ∀ r ∈ table s, p s r = true → own r = true := fun r _ => hown s t h r
  have ht : ∀ r ∈ table t, p t r = true → own r = true := fun r _ hr =>
    hown s t h r ((hsame s t h r).trans hr)
  have hst : ∀ r ∈ table s, own r = true → p s r = p t r := fun r _ _ => hsame s t h r
  exact Or.inl ⟨_, _, _, _, returns_deleting.mpr ⟨rfl, rfl⟩, returns_deleting.mpr ⟨rfl, rfl⟩,
    hp.stored s t _ _ h (hb.delete hs ht hst), hb.count_eq hs ht hst, trivial⟩

end Statements
end Scope
end CoffeeBuddy

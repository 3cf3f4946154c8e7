import CoffeeBuddy.Data.Schema

/-! The constraints of the schema. The database refuses a statement or a commit that would
break one. The `NOT NULL` columns are not optional in the rows, `created_at` of the audit
rows apart, which the mapping may leave unset. -/

namespace CoffeeBuddy
open Relational

/-- `UNIQUE (f)` -/
def UniqueOn {ρ κ ι : Type} [Keyed ρ κ] (f : ρ → ι) (t : Table ρ) : Prop := (t.rows.map f).Nodup

/-- `f REFERENCES parents(id)`; a null column refers to nothing. -/
def References {ρ κ π : Type} [Keyed ρ κ] [Keyed π Uuid] (f : ρ → Option Uuid) (t : Table ρ)
    (parents : Table π) : Prop :=
  ∀ r ∈ t.rows, ∀ u ∈ (f r).toList, u ∈ parents.rows.map Keyed.key

instance {ρ κ ι : Type} [Keyed ρ κ] [DecidableEq ι] (f : ρ → ι) (t : Table ρ) :
    Decidable (UniqueOn f t) := inferInstanceAs (Decidable (List.Nodup _))

instance {ρ κ π : Type} [Keyed ρ κ] [Keyed π Uuid] (f : ρ → Option Uuid) (t : Table ρ)
    (parents : Table π) : Decidable (References f t parents) :=
  inferInstanceAs (Decidable (∀ r ∈ t.rows, ∀ u ∈ (f r).toList, u ∈ parents.rows.map Keyed.key))

namespace Db

def Unique (db : Db) : Prop :=
  UniqueOn User.slackUserId db.users ∧ UniqueOn Channel.slackChannelId db.channels ∧
  UniqueOn (fun o => (o.runId, o.userId)) db.orders ∧
  UniqueOn (fun p => (p.userId, p.channelId)) db.userPreferences ∧
  UniqueOn (fun s => (s.userId, s.channelId)) db.runnerStats

def Referential (db : Db) : Prop :=
  References (fun r => some r.channelId) db.runs db.channels ∧
  References (fun r => some r.initiatorUserId) db.runs db.users ∧
  References Run.runnerUserId db.runs db.users ∧
  References (fun o => some o.runId) db.orders db.runs ∧
  References (fun o => some o.userId) db.orders db.users ∧
  References (fun p => some p.userId) db.userPreferences db.users ∧
  References (fun p => some p.channelId) db.userPreferences db.channels ∧
  References (fun s => some s.userId) db.runnerStats db.users ∧
  References (fun s => some s.channelId) db.runnerStats db.channels ∧
  References (fun a => some a.channelId) db.channelAdminActions db.channels

def Valid (db : Db) : Prop := db.Unique ∧ db.Referential

instance (db : Db) : Decidable db.Valid := by
  unfold Valid Unique Referential
  infer_instance

/-- The `CHECK` constraints of `channels`. -/
def Checks (c : Channel) : Prop :=
  (1 ≤ c.reminderOffsetMinutes ∧ c.reminderOffsetMinutes ≤ 60) ∧
  (1 ≤ c.fairnessWindowRuns ∧ c.fairnessWindowRuns ≤ 50) ∧
  30 ≤ c.dataRetentionDays ∧ c.dataRetentionDays ≤ 365

/-- `created_at NOT NULL` and `admin_user_id REFERENCES users(id)` of an audit row. -/
def Complete (users : Table User) (a : ChannelAdminAction) : Prop :=
  a.createdAt.isSome = true ∧ ∃ user ∈ users.rows, Uuid.parse a.adminUserId = some user.id

instance (c : Channel) : Decidable (Checks c) := by
  unfold Checks
  infer_instance

instance (users : Table User) (a : ChannelAdminAction) : Decidable (Complete users a) := by
  unfold Complete
  infer_instance

/-- The tables satisfy every constraint of the schema. -/
structure Meets (db : Db) : Prop where
  valid : db.Valid
  checks : ∀ c ∈ db.channels.rows, Checks c
  complete : ∀ a ∈ db.channelAdminActions.rows, Complete db.users a

end Db

/-! ### Statements that keep the constraints -/

section Constraints
variable {ρ κ ι ι' π : Type} {f : ρ → ι} {g : ρ → Option Uuid}

theorem UniqueOn.insert [Keyed ρ κ] [DecidableEq κ] {t u : Table ρ} {r : ρ} (h : UniqueOn f t)
    (hi : t.insert r = some u) (hnew : ∀ s ∈ t, f s ≠ f r) : UniqueOn f u := by
  unfold UniqueOn
  rw [Table.rows_insert hi, List.map_append, List.map_singleton]
  apply List.nodup_append_comm.mp
  apply List.nodup_cons.mpr
  refine ⟨fun hr => ?_, h⟩
  obtain ⟨s, hs, hsr⟩ := List.mem_map.mp hr
  exact hnew s hs hsr

theorem UniqueOn.of_map [Keyed ρ κ] {t u : Table ρ} (h : UniqueOn f t)
    (hmap : u.rows.map f = t.rows.map f) : UniqueOn f u := by
  unfold UniqueOn
  rw [hmap]
  exact h

theorem UniqueOn.eq [Keyed ρ κ] {t : Table ρ} (h : UniqueOn f t) {r s : ρ} (hr : r ∈ t)
    (hs : s ∈ t) (hf : f r = f s) : r = s := List.inj_on_of_nodup_map h hr hs hf

theorem UniqueOn.update_pair [Row ρ κ] [DecidableEq κ] {t : Table ρ} {f : ρ → ι} {f' : ρ → ι'}
    {l m : ρ} (h : UniqueOn (fun r => (f r, f' r)) t) (hf : ∀ r, f (Row.merge l m r) = f r)
    (hf' : ∀ r, f' (Row.merge l m r) = f' r) :
    UniqueOn (fun r => (f r, f' r)) (t.update l m) := by
  apply h.of_map
  apply Table.map_update
  intro r
  rw [hf, hf']

theorem mem_toList_some {u k : Uuid} : k ∈ (some u).toList ↔ k = u := List.mem_singleton

theorem References.insert [Keyed ρ κ] [DecidableEq κ] [Keyed π Uuid] {t u : Table ρ}
    {parents : Table π} {r : ρ} (h : References g t parents) (hi : t.insert r = some u)
    (hr : ∀ k ∈ (g r).toList, k ∈ parents.rows.map Keyed.key) : References g u parents := by
  intro s hs
  rw [Table.rows_insert hi, List.mem_append, List.mem_singleton] at hs
  rcases hs with hs | rfl
  · exact h s hs
  · exact hr

theorem References.insert_some [Keyed ρ κ] [DecidableEq κ] [Keyed π Uuid] {t u : Table ρ}
    {parents : Table π} {f : ρ → Uuid} {r : ρ} (h : References (fun r => some (f r)) t parents)
    (hi : t.insert r = some u) (hr : ∃ p ∈ parents, Keyed.key p = f r) :
    References (fun r => some (f r)) u parents := by
  apply h.insert hi
  intro k hk
  obtain rfl := mem_toList_some.mp hk
  exact List.mem_map.mpr hr

theorem References.of_map [Keyed ρ κ] [Keyed π Uuid] {t u : Table ρ} {parents : Table π}
    (h : References g t parents) (hmap : u.rows.map g = t.rows.map g) : References g u parents := by
  intro s hs k hk
  have hgs : g s ∈ t.rows.map g := hmap ▸ List.mem_map_of_mem hs
  obtain ⟨r, hr, hrs⟩ := List.mem_map.mp hgs
  exact h r hr k (hrs ▸ hk)

theorem References.update_some [Row ρ κ] [DecidableEq κ] [Keyed π Uuid] {t : Table ρ}
    {parents : Table π} {f : ρ → Uuid} {l m : ρ} (h : References (fun r => some (f r)) t parents)
    (hf : ∀ r, f (Row.merge l m r) = f r) :
    References (fun r => some (f r)) (t.update l m) parents := by
  apply h.of_map
  apply Table.map_update
  intro r
  rw [hf]

theorem References.parents [Keyed ρ κ] [Keyed π Uuid] {t : Table ρ} {parents parents' : Table π}
    (h : References g t parents)
    (hkeys : parents'.rows.map Keyed.key = parents.rows.map Keyed.key) :
    References g t parents' := by
  intro s hs k hk
  rw [hkeys]
  exact h s hs k hk

theorem References.mono [Keyed ρ κ] [Keyed π Uuid] {t : Table ρ} {parents parents' : Table π}
    (h : References g t parents) (hsub : ∀ p ∈ parents, p ∈ parents') :
    References g t parents' := by
  intro s hs k hk
  obtain ⟨p, hp, hpk⟩ := List.mem_map.mp (h s hs k hk)
  exact List.mem_map.mpr ⟨p, hsub p hp, hpk⟩

theorem References.mem [Keyed ρ κ] [Keyed π Uuid] {t : Table ρ} {parents : Table π}
    (h : References g t parents) {r : ρ} (hr : r ∈ t) {k : Uuid} (hk : g r = some k) :
    ∃ p ∈ parents, Keyed.key p = k := by
  have hkey := h r hr k (by rw [hk]; exact List.mem_singleton_self k)
  exact List.mem_map.mp hkey


end Constraints

namespace Db.Valid
variable {db : Db} {o p : Order}

theorem user_of_order (h : db.Valid) (ho : o ∈ db.orders) :
    ∃ user ∈ db.users, user.id = o.userId := by
  obtain ⟨-, -, -, -, -, husers, -⟩ := h
  exact husers.mem ho rfl

theorem order_unique (h : db.Valid) (ho : o ∈ db.orders) (hp : p ∈ db.orders)
    (hop : (o.runId, o.userId) = (p.runId, p.userId)) : o = p := by
  obtain ⟨⟨-, -, hunique, -⟩, -⟩ := h
  exact hunique.eq ho hp hop

end Db.Valid

namespace Db.Meets
variable {db : Db}

theorem setOrders (h : db.Meets) {t : Table Order}
    (hunique : UniqueOn (fun o : Order => (o.runId, o.userId)) t)
    (hruns : References (fun o : Order => some o.runId) t db.runs)
    (husers : References (fun o : Order => some o.userId) t db.users) :
    Meets { db with orders := t } := by
  obtain ⟨⟨hu, hc, -, hp, hs⟩, hrc, hri, hrr, -, -, hpu, hpc, hsu, hsc, hac⟩ := h.valid
  exact ⟨⟨⟨hu, hc, hunique, hp, hs⟩, hrc, hri, hrr, hruns, husers, hpu, hpc, hsu, hsc, hac⟩, h.checks,
    h.complete⟩

theorem setPreferences (h : db.Meets) {t : Table UserPreference}
    (hunique : UniqueOn (fun p : UserPreference => (p.userId, p.channelId)) t)
    (husers : References (fun p : UserPreference => some p.userId) t db.users)
    (hchannels : References (fun p : UserPreference => some p.channelId) t db.channels) :
    Meets { db with userPreferences := t } := by
  obtain ⟨⟨hu, hc, ho, -, hs⟩, hrc, hri, hrr, hor, hou, -, -, hsu, hsc, hac⟩ := h.valid
  exact ⟨⟨⟨hu, hc, ho, hunique, hs⟩, hrc, hri, hrr, hor, hou, husers, hchannels, hsu, hsc, hac⟩,
    h.checks, h.complete⟩

theorem setStats (h : db.Meets) {t : Table RunnerStat}
    (hunique : UniqueOn (fun s : RunnerStat => (s.userId, s.channelId)) t)
    (husers : References (fun s : RunnerStat => some s.userId) t db.users)
    (hchannels : References (fun s : RunnerStat => some s.channelId) t db.channels) :
    Meets { db with runnerStats := t } := by
  obtain ⟨⟨hu, hc, ho, hp, -⟩, hrc, hri, hrr, hor, hou, hpu, hpc, -, -, hac⟩ := h.valid
  exact ⟨⟨⟨hu, hc, ho, hp, hunique⟩, hrc, hri, hrr, hor, hou, hpu, hpc, husers, hchannels, hac⟩,
    h.checks, h.complete⟩

theorem setRuns (h : db.Meets) {t : Table Run}
    (hkeys : t.rows.map Keyed.key = db.runs.rows.map Keyed.key)
    (hchannels : References (fun r : Run => some r.channelId) t db.channels)
    (hinitiators : References (fun r : Run => some r.initiatorUserId) t db.users)
    (hrunners : References Run.runnerUserId t db.users) : Meets { db with runs := t } := by
  obtain ⟨hunique, -, -, -, hor, hou, hpu, hpc, hsu, hsc, hac⟩ := h.valid
  exact ⟨⟨hunique, hchannels, hinitiators, hrunners, hor.parents hkeys, hou, hpu, hpc, hsu, hsc, hac⟩,
    h.checks, h.complete⟩

theorem insertOrder (h : db.Meets) {t : Table Order} {o : Order} (hi : db.orders.insert o = some t)
    (hnew : ∀ p ∈ db.orders, (p.runId, p.userId) ≠ (o.runId, o.userId))
    (hrun : ∃ run ∈ db.runs, run.id = o.runId) (huser : ∃ user ∈ db.users, user.id = o.userId) :
    Meets { db with orders := t } := by
  obtain ⟨⟨-, -, hunique, -, -⟩, -, -, -, hor, hou, -⟩ := h.valid
  exact h.setOrders (hunique.insert hi hnew) (hor.insert_some hi hrun) (hou.insert_some hi huser)

theorem insertPreference (h : db.Meets) {t : Table UserPreference} {p : UserPreference}
    (hi : db.userPreferences.insert p = some t)
    (hnew : ∀ q ∈ db.userPreferences, (q.userId, q.channelId) ≠ (p.userId, p.channelId))
    (huser : ∃ user ∈ db.users, user.id = p.userId)
    (hchannel : ∃ channel ∈ db.channels, channel.id = p.channelId) :
    Meets { db with userPreferences := t } := by
  obtain ⟨⟨-, -, -, hunique, -⟩, -, -, -, -, -, hpu, hpc, -⟩ := h.valid
  exact h.setPreferences (hunique.insert hi hnew) (hpu.insert_some hi huser)
    (hpc.insert_some hi hchannel)

theorem insertStat (h : db.Meets) {t : Table RunnerStat} {s : RunnerStat}
    (hi : db.runnerStats.insert s = some t)
    (hnew : ∀ q ∈ db.runnerStats, (q.userId, q.channelId) ≠ (s.userId, s.channelId))
    (huser : ∃ user ∈ db.users, user.id = s.userId)
    (hchannel : ∃ channel ∈ db.channels, channel.id = s.channelId) :
    Meets { db with runnerStats := t } := by
  obtain ⟨⟨-, -, -, -, hunique⟩, -, -, -, -, -, -, -, hsu, hsc, -⟩ := h.valid
  exact h.setStats (hunique.insert hi hnew) (hsu.insert_some hi huser)
    (hsc.insert_some hi hchannel)

theorem insertRun (h : db.Meets) {t : Table Run} {r : Run} (hi : db.runs.insert r = some t)
    (hchannel : ∃ channel ∈ db.channels, channel.id = r.channelId)
    (hinitiator : ∃ user ∈ db.users, user.id = r.initiatorUserId)
    (hrunner : r.runnerUserId = none) : Meets { db with runs := t } := by
  obtain ⟨hunique, hrc, hri, hrr, hor, hou, hpu, hpc, hsu, hsc, hac⟩ := h.valid
  have hgrows : ∀ run ∈ db.runs, run ∈ t := fun run hrun => (Table.mem_insert hi).mpr (Or.inl hrun)
  have hrunners : References Run.runnerUserId t db.users := by
    apply hrr.insert hi
    rw [hrunner]
    intro k hk
    exact absurd hk List.not_mem_nil
  exact ⟨⟨hunique, hrc.insert_some hi hchannel, hri.insert_some hi hinitiator, hrunners,
    hor.mono hgrows, hou, hpu, hpc, hsu, hsc, hac⟩, h.checks, h.complete⟩

/-- An update that leaves the columns of the constraints alone keeps them, whatever row it
was loaded from. -/
theorem updateOrder (h : db.Meets) {l m : Order} (hrun : m.runId = l.runId)
    (huser : m.userId = l.userId) : Meets { db with orders := db.orders.update l m } := by
  have hruns : ∀ r : Order, (Row.merge l m r).runId = r.runId := fun _ =>
    column_of_eq hrun _
  have husers : ∀ r : Order, (Row.merge l m r).userId = r.userId := fun _ =>
    column_of_eq huser _
  obtain ⟨⟨-, -, hunique, -, -⟩, -, -, -, hor, hou, -⟩ := h.valid
  exact h.setOrders (hunique.update_pair hruns husers) (hor.update_some hruns)
    (hou.update_some husers)

theorem updatePreference (h : db.Meets) {l m : UserPreference} (huser : m.userId = l.userId)
    (hchannel : m.channelId = l.channelId) :
    Meets { db with userPreferences := db.userPreferences.update l m } := by
  have husers : ∀ r : UserPreference, (Row.merge l m r).userId = r.userId := fun _ =>
    column_of_eq huser _
  have hchannels : ∀ r : UserPreference, (Row.merge l m r).channelId = r.channelId := fun _ =>
    column_of_eq hchannel _
  obtain ⟨⟨-, -, -, hunique, -⟩, -, -, -, -, -, hpu, hpc, -⟩ := h.valid
  exact h.setPreferences (hunique.update_pair husers hchannels) (hpu.update_some husers)
    (hpc.update_some hchannels)

theorem updateStat (h : db.Meets) {l m : RunnerStat} (huser : m.userId = l.userId)
    (hchannel : m.channelId = l.channelId) :
    Meets { db with runnerStats := db.runnerStats.update l m } := by
  have husers : ∀ r : RunnerStat, (Row.merge l m r).userId = r.userId := fun _ =>
    column_of_eq huser _
  have hchannels : ∀ r : RunnerStat, (Row.merge l m r).channelId = r.channelId := fun _ =>
    column_of_eq hchannel _
  obtain ⟨⟨-, -, -, -, hunique⟩, -, -, -, -, -, -, -, hsu, hsc, -⟩ := h.valid
  exact h.setStats (hunique.update_pair husers hchannels) (hsu.update_some husers)
    (hsc.update_some hchannels)

theorem updateRun (h : db.Meets) {l m : Run} {u : Uuid} (hchannel : m.channelId = l.channelId)
    (hinitiator : m.initiatorUserId = l.initiatorUserId) (hrunner : m.runnerUserId = some u)
    (hu : ∃ user ∈ db.users, user.id = u) : Meets { db with runs := db.runs.update l m } := by
  obtain ⟨-, hrc, hri, hrr, -⟩ := h.valid
  have hrunners : References Run.runnerUserId (db.runs.update l m) db.users := by
    intro r hr k hk
    obtain ⟨r', hr', rfl⟩ := Table.mem_update'.mp hr
    split_ifs at hk
    · -- the written column is the new runner or the stored one
      have hcolumn : k ∈ (column l.runnerUserId m.runnerUserId r'.runnerUserId).toList := hk
      unfold column at hcolumn
      split_ifs at hcolumn
      · exact hrr r' hr' k hcolumn
      · rw [hrunner] at hcolumn
        obtain rfl := mem_toList_some.mp hcolumn
        exact List.mem_map.mpr hu
    · exact hrr r' hr' k hk
  exact h.setRuns (Table.map_key_update _ l m) (hrc.update_some fun _ => column_of_eq hchannel _)
    (hri.update_some fun _ => column_of_eq hinitiator _) hrunners

end Db.Meets
end CoffeeBuddy

import CoffeeBuddy.Library.FirstSeen
import CoffeeBuddy.Services.Fairness
import Mathlib.Data.Finset.Card
import Mathlib.Data.Set.List

/-! What `assign_runner` does: which rows it creates, which row it credits, and why
that row is a least one among the eligible participants. -/

namespace CoffeeBuddy
open Relational Transaction Listing

namespace FairnessService

/-! ### Participants -/

/-- The identifiers of users in the form `str(user_id)`. -/
def idents (users : List Uuid) : List Ident := users.map fun u => .str u.str

theorem uniqueOrdered_eq (ids : List Ident) :
    uniqueOrdered ids = firstSeen (ids.map Ident.toStr) := rfl

/-- Deduplication keeps the users: each one once, in canonical text. -/
theorem uniqueOrdered_canonical (users : List Uuid) :
    uniqueOrdered (idents users) = (firstSeen users).map Uuid.str := by
  rw [uniqueOrdered_eq, idents, List.map_map]
  exact firstSeen_map fun _ _ _ _ h => Uuid.str_inj.mp h

theorem uniqueOrdered_idents (users : List Uuid) :
    ∃ us : List Uuid, uniqueOrdered (idents users) = us.map Uuid.str ∧ us.Nodup ∧
      ∀ u, u ∈ us ↔ u ∈ users :=
  ⟨firstSeen users, uniqueOrdered_canonical users, nodup_firstSeen users, fun _ => mem_firstSeen⟩

/-- Only the texts of the participants count, and the channel they name. -/
theorem assignRunner_congr {channelId channelId' : Ident} {ids ids' : List Ident}
    (hchannel : channelId.asUuid = channelId'.asUuid)
    (hids : ids.map Ident.toStr = ids'.map Ident.toStr) (last : Option String) (allow : Bool)
    (d : Draws) :
    assignRunner channelId ids last allow d = assignRunner channelId' ids' last allow d := by
  have hparticipants : uniqueOrdered ids = uniqueOrdered ids' := by
    rw [uniqueOrdered_eq, uniqueOrdered_eq, hids]
  have has : asUuid channelId = asUuid channelId' := by
    unfold asUuid
    rw [hchannel]
  unfold assignRunner
  rw [hparticipants, has]

theorem assignRunner_nil (channelId : Ident) (last : Option String) (allow : Bool) (d : Draws) :
    assignRunner channelId [] last allow d = Tx.raise (.runClose (.runnerSelection
      "No eligible participants to evaluate for runner assignment.")) := by
  have hnil : uniqueOrdered [] = [] := by decide
  rw [assignRunner, if_pos hnil]

/-- A participant as listed: the text and the user it names. -/
abbrev Listed := String × Uuid

def canonical (u : Uuid) : Listed := (u.str, u)

theorem map_fst_canonical (us : List Uuid) : (us.map canonical).map Prod.fst = us.map Uuid.str := by
  rw [List.map_map]
  rfl

theorem map_snd_canonical (us : List Uuid) : (us.map canonical).map Prod.snd = us := by
  rw [List.map_map]
  exact List.map_id us

theorem parse_canonical {us : List Uuid} : ∀ p ∈ us.map canonical, Uuid.parse p.1 = some p.2 := by
  intro p hp
  obtain ⟨u, -, rfl⟩ := List.mem_map.mp hp
  exact Uuid.parse_str u

theorem returns_asUuids_listed {ps : List Listed} (hparse : ∀ p ∈ ps, Uuid.parse p.1 = some p.2)
    {us : List Uuid} {db db' : Db} :
    (asUuids (ps.map Prod.fst)).Returns db us db' ↔ us = ps.map Prod.snd ∧ db' = db := by
  induction ps generalizing us db' with
  | nil => simp [asUuids]
  | cons p ps ih =>
    have hpu : (Ident.str p.1).asUuid = some p.2 := hparse p List.mem_cons_self
    have hrest : ∀ {us : List Uuid} {db' : Db}, (asUuids (ps.map Prod.fst)).Returns db us db' ↔
        us = ps.map Prod.snd ∧ db' = db := ih fun q hq => hparse q (List.mem_cons_of_mem p hq)
    simp only [List.map_cons, asUuids, Program.returns_bind, returns_asUuid, hpu,
      Option.some.injEq, Program.returns_pure]
    constructor
    · rintro ⟨_, _, ⟨rfl, rfl⟩, _, _, h, rfl, rfl⟩
      obtain ⟨rfl, rfl⟩ := hrest.mp h
      exact ⟨rfl, rfl⟩
    · rintro ⟨rfl, rfl⟩
      exact ⟨p.2, _, ⟨rfl, rfl⟩, _, _, hrest.mpr ⟨rfl, rfl⟩, rfl, rfl⟩

@[simp] theorem returns_asUuids {us vs : List Uuid} {db db' : Db} :
    (asUuids (us.map Uuid.str)).Returns db vs db' ↔ vs = us ∧ db' = db := by
  rw [← map_fst_canonical, returns_asUuids_listed parse_canonical, map_snd_canonical]

theorem raises_asUuids {us : List Uuid} {db db' : Db} {e : Exc} :
    ¬(asUuids (us.map Uuid.str)).Raises db e db' := by
  induction us generalizing db db' with
  | nil => simp [asUuids]
  | cons u us ih =>
    simp only [List.map_cons, asUuids, Program.raises_bind, raises_asUuid, Ident.asUuid_str,
      reduceCtorEq, false_and, Program.raises_pure, and_false, exists_false, or_false, false_or]
    rintro ⟨v, w, h, hr⟩
    obtain ⟨-, rfl⟩ := returns_asUuid.mp h
    exact ih hr

/-! ### Loading -/

variable {channel : Uuid} {d : Draws} {db db' : Db}

/-- The rows `_load_stats` adds from reading `n` on, for those of `users` without one. -/
def newStats (channel : Uuid) (d : Draws) (n : ℕ) (users : List Uuid) : List RunnerStat :=
  users.mapIdx fun i u => newStat channel d (n + i) u

theorem newStats_cons (n : ℕ) (u : Uuid) (us : List Uuid) :
    newStats channel d n (u :: us) = newStat channel d n u :: newStats channel d (n + 1) us := by
  simp only [newStats, List.mapIdx_cons, Nat.add_zero, Nat.add_comm, Nat.add_left_comm]

theorem mem_newStats {n : ℕ} {users : List Uuid} {s : RunnerStat}
    (h : s ∈ newStats channel d n users) :
    s.userId ∈ users ∧ s.channelId = channel ∧ s.runsServedCount = 0 ∧ s.lastRunAt = none := by
  obtain ⟨i, hi, rfl⟩ := List.mem_mapIdx.mp h
  exact ⟨List.getElem_mem hi, rfl, rfl, rfl⟩

theorem map_userId_newStats (n : ℕ) (users : List Uuid) :
    (newStats channel d n users).map RunnerStat.userId = users := by
  induction users generalizing n with
  | nil => rfl
  | cons u us ih =>
    rw [newStats_cons, List.map_cons, ih]
    rfl

/-- The entry of a row in the dict of `_load_stats`. -/
def entry (s : RunnerStat) : Entry String RunnerStat := (s.userId.str, s)

def isMissing (stats : Dict String RunnerStat) (u : Uuid) : Bool := (stats.get? u.str).isNone

def unfiled (stats : Dict String RunnerStat) (p : Listed) : Bool := (stats.get? p.1).isNone

/-- The entries `_load_stats` adds from reading `n` on, one for each text of `ps`. -/
def newEntries (channel : Uuid) (d : Draws) (n : ℕ) (ps : List Listed) :
    List (Entry String RunnerStat) :=
  ps.mapIdx fun i p => (p.1, newStat channel d (n + i) p.2)

theorem newEntries_cons (n : ℕ) (p : Listed) (ps : List Listed) :
    newEntries channel d n (p :: ps) =
      (p.1, newStat channel d n p.2) :: newEntries channel d (n + 1) ps := by
  simp only [newEntries, List.mapIdx_cons, Nat.add_zero, Nat.add_comm, Nat.add_left_comm]

theorem newEntries_canonical (n : ℕ) (us : List Uuid) :
    newEntries channel d n (us.map canonical) = (newStats channel d n us).map entry := by
  induction us generalizing n with
  | nil => rfl
  | cons u us ih =>
    rw [List.map_cons, newEntries_cons, newStats_cons, List.map_cons, ih]
    rfl

/-- What the loop adds, whatever texts the participants are listed under. -/
theorem returns_createMissing_listed {ps : List Listed} (hps : (ps.map Prod.fst).Nodup)
    (hparse : ∀ p ∈ ps, Uuid.parse p.1 = some p.2) {n m : ℕ} {stats stats' : Dict String RunnerStat}
    (h : (createMissing channel d n (ps.map Prod.fst) stats).Returns db (stats', m) db') :
    ∃ t : Table RunnerStat, db' = { db with runnerStats := t } ∧
      t.rows = db.runnerStats.rows ++
        newStats channel d n ((ps.filter (unfiled stats)).map Prod.snd) ∧
      stats'.rows = stats.rows ++ newEntries channel d n (ps.filter (unfiled stats)) ∧
      m = n + (ps.filter (unfiled stats)).length := by
  induction ps generalizing n stats db with
  | nil =>
    simp only [List.map_nil, createMissing, Program.returns_pure, Prod.mk.injEq] at h
    obtain ⟨⟨rfl, rfl⟩, rfl⟩ := h
    exact ⟨db'.runnerStats, rfl, by simp [newStats], by simp [newEntries], rfl⟩
  | cons p ps ih =>
    obtain ⟨hp, hps⟩ := List.nodup_cons.mp hps
    have hrestparse : ∀ q ∈ ps, Uuid.parse q.1 = some q.2 := fun q hq =>
      hparse q (List.mem_cons_of_mem p hq)
    rw [List.map_cons, createMissing] at h
    split at h
    · rename_i s hs
      have hskip : unfiled stats p = false := by rw [unfiled, hs, Option.isNone_some]
      rw [List.filter_cons_of_neg (by rw [hskip]; exact Bool.false_ne_true)]
      exact ih hps hrestparse h
    · rename_i hs
      have hnew : unfiled stats p = true := by rw [unfiled, hs, Option.isNone_none]
      have hpu : (Ident.str p.1).asUuid = some p.2 := hparse p List.mem_cons_self
      simp only [Program.returns_bind, returns_asUuid, hpu, returns_inserting] at h
      obtain ⟨_, _, ⟨⟨⟩, rfl⟩, _, _, ⟨t, ht, rfl⟩, h⟩ := h
      obtain ⟨t', rfl, ht', hstats, rfl⟩ := ih hps hrestparse h
      -- the new entry is for the text of `p`, which does not come again
      have hrest : ps.filter (unfiled (stats.set p.1 (newStat channel d n p.2))) =
          ps.filter (unfiled stats) := by
        refine List.filter_congr fun q hq => ?_
        have hne : q.1 ≠ p.1 := fun h => hp (h ▸ List.mem_map_of_mem hq)
        rw [unfiled, unfiled, Dict.get?_set_new hs hne]
      rw [List.filter_cons_of_pos hnew, List.map_cons, newStats_cons, newEntries_cons]
      rw [hrest] at ht' hstats
      refine ⟨t', rfl, ?_, ?_, ?_⟩
      · rw [ht', Table.rows_insert ht, List.append_assoc, List.singleton_append]
      · rw [hstats, Dict.set_new hs, List.append_assoc]
        rfl
      · rw [hrest, List.length_cons]
        omega

theorem filter_unfiled_canonical (us : List Uuid) (stats : Dict String RunnerStat) :
    (us.map canonical).filter (unfiled stats) = (us.filter (isMissing stats)).map canonical := by
  rw [List.filter_map]
  rfl

theorem returns_createMissing {us : List Uuid} (hus : us.Nodup) {n m : ℕ}
    {stats stats' : Dict String RunnerStat}
    (h : (createMissing channel d n (us.map Uuid.str) stats).Returns db (stats', m) db') :
    ∃ t : Table RunnerStat, db' = { db with runnerStats := t } ∧
      t.rows = db.runnerStats.rows ++ newStats channel d n (us.filter (isMissing stats)) ∧
      stats'.rows = stats.rows ++ (newStats channel d n (us.filter (isMissing stats))).map entry ∧
      m = n + (us.filter (isMissing stats)).length := by
  rw [← map_fst_canonical] at h
  have hnd : ((us.map canonical).map Prod.fst).Nodup := by
    rw [map_fst_canonical]
    exact hus.map Uuid.str_injective
  obtain ⟨t, hdb, hrows, hstats, hm⟩ := returns_createMissing_listed hnd parse_canonical h
  rw [filter_unfiled_canonical, map_snd_canonical] at hrows
  rw [filter_unfiled_canonical, newEntries_canonical] at hstats
  rw [filter_unfiled_canonical, List.length_map] at hm
  exact ⟨t, hdb, hrows, hstats, hm⟩

/-- The dict of the stored rows of the participants. -/
def storedStats (channel : Uuid) (users : List Uuid) (t : Table RunnerStat) :
    Dict String RunnerStat :=
  Dict.ofValues (fun s => s.userId.str) (t.select (servesIn channel users))

/-- The participants without a stored row. -/
def missing (channel : Uuid) (users : List Uuid) (t : Table RunnerStat) : List Uuid :=
  users.filter (isMissing (storedStats channel users t))

theorem servesIn_iff {users : List Uuid} {s : RunnerStat} :
    servesIn channel users s = true ↔ s.channelId = channel ∧ s.userId ∈ users := by
  simp only [servesIn, Bool.and_eq_true, decide_eq_true_eq, List.contains_iff_mem]

/-- `stats` files the stored rows of `us` and a blank one for each of them without. -/
def Loaded (channel : Uuid) (d : Draws) (us : List Uuid) (t : Table RunnerStat)
    (stats : Dict String RunnerStat) : Prop :=
  stats.rows = (storedStats channel us t).rows ++
    (newStats channel d 0 (missing channel us t)).map entry

theorem returns_loadStats {us : List Uuid} (hus : us.Nodup) {stats : Dict String RunnerStat} {n : ℕ}
    (h : (loadStats channel (us.map Uuid.str) d).Returns db (stats, n) db') :
    ∃ t : Table RunnerStat, db' = { db with runnerStats := t } ∧
      t.rows = db.runnerStats.rows ++ newStats channel d 0 (missing channel us db.runnerStats) ∧
      Loaded channel d us db.runnerStats stats ∧
      n = (missing channel us db.runnerStats).length := by
  simp only [loadStats, Program.returns_bind, returns_asUuids, Program.returns_query] at h
  obtain ⟨_, _, ⟨rfl, rfl⟩, _, _, ⟨rfl, rfl⟩, h⟩ := h
  obtain ⟨t, rfl, ht, hstats, hn⟩ := returns_createMissing hus h
  exact ⟨t, rfl, ht, hstats, hn.trans (Nat.zero_add _)⟩

section Loaded
variable {us : List Uuid} {t : Table RunnerStat} {stats : Dict String RunnerStat}

theorem Loaded.mem_iff (h : Loaded channel d us t stats) {e : Entry String RunnerStat} :
    e ∈ stats ↔ e ∈ storedStats channel us t ∨
      ∃ s ∈ newStats channel d 0 (missing channel us t), entry s = e := by
  rw [← Table.mem_rows, h, List.mem_append, List.mem_map, Table.mem_rows]

theorem Loaded.cases (h : Loaded channel d us t stats) {s : RunnerStat} (hs : s ∈ stats.values) :
    (s ∈ t ∧ s.channelId = channel ∧ s.userId ∈ us) ∨
      s ∈ newStats channel d 0 (missing channel us t) := by
  obtain ⟨k, hk⟩ := Dict.mem_values.mp hs
  rcases h.mem_iff.mp hk with hk | ⟨s', hs', he⟩
  · obtain ⟨hs, hc⟩ := Table.mem_select.mp (Dict.mem_of_mem_ofValues hk).1
    exact Or.inl ⟨hs, servesIn_iff.mp hc⟩
  · obtain rfl := (Prod.mk.inj he).2
    exact Or.inr hs'

/-- Whatever the table holds, a loaded row is one of a participant. -/
theorem Loaded.mem (h : Loaded channel d us t stats) {s : RunnerStat} (hs : s ∈ stats.values) :
    s.channelId = channel ∧ s.userId ∈ us := by
  rcases h.cases hs with ⟨-, hsu⟩ | hnew
  · exact hsu
  · obtain ⟨hu, hc, -⟩ := mem_newStats hnew
    exact ⟨hc, (List.mem_filter.mp hu).1⟩

end Loaded

/-! ### The candidates -/

/-- Who may be chosen: the participants without the last runner, unless repeats are
allowed or nobody else takes part. -/
def Eligible (users : List Uuid) (last : Option Uuid) (allowImmediateRepeat : Bool)
    (u : Uuid) : Prop :=
  u ∈ users ∧ (allowImmediateRepeat = false → (∃ v ∈ users, v ≠ u) → last ≠ some u)

instance (users : List Uuid) (last : Option Uuid) (allowImmediateRepeat : Bool) (u : Uuid) :
    Decidable (Eligible users last allowImmediateRepeat u) := inferInstanceAs (Decidable (_ ∧ _))

theorem Eligible.congr {users users' : List Uuid} (h : ∀ u, u ∈ users ↔ u ∈ users')
    {last : Option Uuid} {allow : Bool} {u : Uuid} :
    Eligible users last allow u ↔ Eligible users' last allow u := by
  simp only [Eligible, h]

/-- Somebody is left out when repeats are not allowed, two take part, and the last runner
is one of them. -/
theorem exists_not_eligible {users : List Uuid} {last : Option Uuid} {allow : Bool} :
    (∃ v ∈ users, ¬Eligible users last allow v) ↔
      allow = false ∧ (∃ u ∈ users, ∃ v ∈ users, u ≠ v) ∧ ∃ v ∈ users, last = some v := by
  constructor
  · rintro ⟨v, hv, hne⟩
    simp only [Eligible, hv, true_and, Classical.not_imp, not_not] at hne
    obtain ⟨hallow, ⟨w, hw, hwv⟩, hlast⟩ := hne
    exact ⟨hallow, ⟨w, hw, v, hv, hwv⟩, v, hv, hlast⟩
  · rintro ⟨hallow, ⟨u, hu, v, hv, huv⟩, w, hw, hlast⟩
    refine ⟨w, hw, fun he => he.2 hallow ?_ hlast⟩
    by_cases hx : u = w
    · exact ⟨v, hv, fun hvw => huv (hx.trans hvw.symm)⟩
    · exact ⟨u, hu, hx⟩

/-- The dict files every row under its user, and holds one for each of `users`. -/
structure Indexes (users : List Uuid) (stats : Dict String RunnerStat) : Prop where
  key : ∀ k s, (k, s) ∈ stats → k = s.userId.str
  sound : ∀ s ∈ stats.values, s.userId ∈ users
  complete : ∀ u ∈ users, ∃ s ∈ stats.values, s.userId = u

theorem str_ne_empty (u : Uuid) : u.str ≠ "" := fun h => by
  have hparse := Uuid.parse_str u
  rw [h, show Uuid.parse "" = none by decide] at hparse
  exact Option.some_ne_none u hparse.symm

/-- Whatever the table holds, loading yields an index of the participants. -/
theorem Loaded.indexes {us : List Uuid} {t : Table RunnerStat} {stats : Dict String RunnerStat}
    (h : Loaded channel d us t stats) : Indexes us stats := by
  have hkey : ∀ k s, (k, s) ∈ stats → k = s.userId.str := by
    intro k s hks
    rcases h.mem_iff.mp hks with hold | ⟨s', -, he⟩
    · exact (Dict.mem_of_mem_ofValues hold).2
    · obtain ⟨rfl, rfl⟩ := Prod.mk.inj he
      rfl
  refine ⟨hkey, fun s hs => (h.mem hs).2, fun u hu => ?_⟩
  by_cases hnew : isMissing (storedStats channel us t) u = true
  · have hu' : u ∈ (newStats channel d 0 (missing channel us t)).map RunnerStat.userId := by
      rw [map_userId_newStats]
      exact List.mem_filter.mpr ⟨hu, hnew⟩
    obtain ⟨s, hs, rfl⟩ := List.mem_map.mp hu'
    exact ⟨s, Dict.mem_values.mpr ⟨_, h.mem_iff.mpr (Or.inr ⟨s, hs, rfl⟩)⟩, rfl⟩
  · obtain ⟨s, hs⟩ : ∃ s, (storedStats channel us t).get? u.str = some s :=
      Option.ne_none_iff_exists'.mp fun hn => hnew (Option.isNone_iff_eq_none.mpr hn)
    have hs := h.mem_iff.mpr (Or.inl (Dict.get?_eq_some.mp hs))
    exact ⟨s, Dict.mem_values.mpr ⟨_, hs⟩, (Uuid.str_inj.mp (hkey _ _ hs)).symm⟩

section Candidates
variable {users : List Uuid} {stats : Dict String RunnerStat} {last : Option Uuid} {allow : Bool}

theorem Indexes.get? (h : Indexes users stats) {s : RunnerStat} :
    stats.get? s.userId.str = some s ↔ s ∈ stats.values := by
  rw [Dict.get?_eq_some, Dict.mem_values]
  constructor
  · exact fun hs => ⟨_, hs⟩
  · rintro ⟨k, hk⟩
    rwa [← h.key k s hk]

theorem Indexes.isSome_get? (h : Indexes users stats) {u : Uuid} :
    (stats.get? u.str).isSome = true ↔ u ∈ users := by
  rw [Option.isSome_iff_exists]
  constructor
  · rintro ⟨s, hs⟩
    have hv : s ∈ stats.values := Dict.mem_values.mpr ⟨_, Dict.get?_eq_some.mp hs⟩
    have hk := h.key _ _ (Dict.get?_eq_some.mp hs)
    exact Uuid.str_inj.mp hk ▸ h.sound s hv
  · intro hu
    obtain ⟨s, hs, rfl⟩ := h.complete u hu
    exact ⟨s, h.get?.mpr hs⟩

theorem Indexes.nodup (h : Indexes users stats) : (stats.values.map RunnerStat.userId).Nodup := by
  have hkeys : stats.rows.map Keyed.key = (stats.values.map RunnerStat.userId).map Uuid.str := by
    rw [Dict.values, List.map_map, List.map_map]
    exact List.map_congr_left fun e he => h.key e.1 e.2 he
  exact List.Nodup.of_map _ (hkeys ▸ stats.nodup)

/-- With one row for each of `users`, more than one row means two users. -/
theorem one_lt_length_values (hnd : (stats.values.map RunnerStat.userId).Nodup)
    (hmem : ∀ u, u ∈ stats.values.map RunnerStat.userId ↔ u ∈ users) :
    1 < stats.values.length ↔ ∃ u ∈ users, ∃ v ∈ users, u ≠ v := by
  have hcard : ∀ u, u ∈ (stats.values.map RunnerStat.userId).toFinset ↔ u ∈ users := fun u => by
    rw [List.mem_toFinset, hmem]
  rw [← List.length_map RunnerStat.userId, ← List.toFinset_card_of_nodup hnd, Finset.one_lt_card]
  simp only [hcard]

theorem Indexes.one_lt_length (h : Indexes users stats) :
    1 < stats.values.length ↔ ∃ u ∈ users, ∃ v ∈ users, u ≠ v := by
  refine one_lt_length_values h.nodup fun u => ?_
  rw [List.mem_map]
  constructor
  · rintro ⟨s, hs, rfl⟩
    exact h.sound s hs
  · exact h.complete u

theorem Indexes.excludesLast (h : Indexes users stats) :
    excludesLast stats (last.map Uuid.str) allow = true ↔
      allow = false ∧ (∃ u ∈ users, ∃ v ∈ users, u ≠ v) ∧ ∃ v ∈ users, last = some v := by
  have hlast : ((last.map Uuid.str).any fun t => t ≠ "" && (stats.get? t).isSome) = true ↔
      ∃ v ∈ users, last = some v := by
    cases last with
    | none => simp
    | some v =>
      simp only [Option.map_some, Option.any_some, ne_eq, str_ne_empty, not_false_eq_true,
        decide_true, Bool.true_and, h.isSome_get?, Option.some.injEq]
      constructor
      · exact fun hv => ⟨v, hv, rfl⟩
      · rintro ⟨_, hw, rfl⟩
        exact hw
  rw [FairnessService.excludesLast, Bool.and_eq_true, Bool.and_eq_true, hlast, decide_eq_true_eq,
    h.one_lt_length, Bool.not_eq_true', and_assoc]

theorem mem_values_of_mem_candidates {lastId : Option String} {s : RunnerStat}
    (h : s ∈ candidates stats lastId allow) : s ∈ stats.values := by
  simp only [candidates] at h
  split_ifs at h
  · exact h
  · exact List.mem_of_mem_filter h
  all_goals exact h

theorem mem_candidates (h : Indexes users stats) {s : RunnerStat} :
    s ∈ candidates stats (last.map Uuid.str) allow ↔
      s ∈ stats.values ∧ Eligible users last allow s.userId := by
  have hkept : ∀ t : RunnerStat, some t.userId.str ≠ last.map Uuid.str ↔ last ≠ some t.userId := by
    intro t
    cases last with
    | none => simp
    | some v => simp [eq_comm]
  unfold candidates
  by_cases hex : excludesLast stats (last.map Uuid.str) allow = true
  · obtain ⟨hallow, ⟨u, hu, v, hv, huv⟩, w, hw, hlast⟩ := h.excludesLast.mp hex
    -- two users take part, so someone other than the last runner remains
    have hother : ∀ x : Uuid, ∃ y ∈ users, y ≠ x := by
      intro x
      by_cases hx : u = x
      · exact ⟨v, hv, fun hvx => huv (hx.trans hvx.symm)⟩
      · exact ⟨u, hu, hx⟩
    obtain ⟨y, hy, hyw⟩ := hother w
    obtain ⟨t, ht, rfl⟩ := h.complete y hy
    have hne : stats.values.filter (fun s => some s.userId.str ≠ last.map Uuid.str) ≠ [] :=
      List.ne_nil_of_mem (List.mem_filter.mpr ⟨ht, decide_eq_true ((hkept t).mpr (by
        rw [hlast]
        exact fun hs => hyw (Option.some.inj hs).symm))⟩)
    simp only [hex, if_true]
    rw [if_neg hne, List.mem_filter, decide_eq_true_eq, hkept]
    exact and_congr_right fun hs =>
      ⟨fun hl => ⟨h.sound s hs, fun _ _ => hl⟩, fun he => he.2 hallow (hother _)⟩
  · simp only [hex, Bool.false_eq_true, if_false, ite_self]
    refine (and_iff_left_of_imp fun hs => ⟨h.sound s hs, fun hallow hother hlast => hex ?_⟩).symm
    obtain ⟨v, hv, hvs⟩ := hother
    exact h.excludesLast.mpr ⟨hallow, ⟨v, hv, _, h.sound s hs, hvs⟩, _, h.sound s hs, hlast⟩

theorem returns_choose {cs : List RunnerStat} {chosen : RunnerStat} {db db' : Db} :
    (choose cs).Returns db chosen db' ↔ cs.argmin sortKey = some chosen ∧ db' = db := by
  unfold choose
  cases cs.argmin sortKey <;> simp [eq_comm]

end Candidates

/-! ### The stored rows -/

/-- The unique constraint of `runner_stats`, for one channel. -/
def OnePerUser (channel : Uuid) (t : Table RunnerStat) : Prop :=
  ∀ s ∈ t, ∀ s' ∈ t, s.channelId = channel → s'.channelId = channel → s.userId = s'.userId → s = s'

/-- Writing a row keeps the constraint when the row stays its user's. -/
theorem OnePerUser.update {t : Table RunnerStat} (h : OnePerUser channel t) {l m : RunnerStat}
    (hl : l ∈ t) (hid : m.id = l.id) (hchannel : m.channelId = l.channelId)
    (huser : m.userId = l.userId) : OnePerUser channel (t.update l m) := by
  intro s hs s' hs' hc hc' hu
  have hmem : ∀ q, q ∈ t.update l m ↔ q = m ∨ q ∈ t ∧ q.id ≠ l.id := fun q =>
    Table.mem_update hl hid
  have hother : ∀ q ∈ t, q.id ≠ l.id → q.channelId = channel → m.channelId = channel →
      q.userId ≠ m.userId := by
    intro q hq hne hqc hmc hqu
    have heq : q = l := h q hq l hl hqc (hchannel ▸ hmc) (hqu.trans huser)
    exact hne (congrArg RunnerStat.id heq)
  rcases (hmem s).mp hs with rfl | ⟨hst, hne⟩ <;> rcases (hmem s').mp hs' with rfl | ⟨hst', hne'⟩
  · rfl
  · exact absurd hu.symm (hother s' hst' hne' hc' hc)
  · exact absurd hu (hother s hst hne hc hc')
  · exact h s hst s' hst' hc hc' hu

theorem OnePerUser.append {before t : Table RunnerStat} {created : List RunnerStat}
    (h : OnePerUser channel before) (hrows : t.rows = before.rows ++ created)
    (hnew : ∀ s ∈ created, ∀ r ∈ before, r.channelId = channel → r.userId ≠ s.userId)
    (hnd : (created.map RunnerStat.userId).Nodup) : OnePerUser channel t := by
  intro s hs s' hs' hc hc' hu
  have hmem : ∀ q, q ∈ t ↔ q ∈ before ∨ q ∈ created := fun q => by
    rw [← Table.mem_rows, hrows, List.mem_append, Table.mem_rows]
  rcases (hmem s).mp hs with hs | hs <;> rcases (hmem s').mp hs' with hs' | hs'
  · exact h s hs s' hs' hc hc' hu
  · exact absurd hu (hnew s' hs' s hs hc)
  · exact absurd hu.symm (hnew s hs s' hs' hc')
  · exact List.inj_on_of_nodup_map hnd hs hs' hu

section Stored
variable {users : List Uuid} {t : Table RunnerStat}

theorem rows_storedStats (ht : OnePerUser channel t) :
    (storedStats channel users t).rows = (t.select (servesIn channel users)).map entry := by
  refine Dict.rows_ofValues ((t.nodup_select _).map_on fun s hs s' hs' h => ?_)
  obtain ⟨hs, hc⟩ := Table.mem_select.mp hs
  obtain ⟨hs', hc'⟩ := Table.mem_select.mp hs'
  exact ht s hs s' hs' (servesIn_iff.mp hc).1 (servesIn_iff.mp hc').1 (Uuid.str_inj.mp h)

theorem mem_storedStats (ht : OnePerUser channel t) {k : String} {s : RunnerStat} :
    (k, s) ∈ storedStats channel users t ↔
      s ∈ t ∧ s.channelId = channel ∧ s.userId ∈ users ∧ k = s.userId.str := by
  rw [← Table.mem_rows, rows_storedStats ht, List.mem_map]
  simp only [entry, Prod.mk.injEq, Table.mem_select, servesIn_iff]
  constructor
  · rintro ⟨_, ⟨hs, hc, hu⟩, rfl, rfl⟩
    exact ⟨hs, hc, hu, rfl⟩
  · rintro ⟨hs, hc, hu, rfl⟩
    exact ⟨s, ⟨hs, hc, hu⟩, rfl, rfl⟩

theorem mem_missing (ht : OnePerUser channel t) {u : Uuid} : u ∈ missing channel users t ↔
    u ∈ users ∧ ∀ s ∈ t, s.channelId = channel → s.userId ≠ u := by
  simp only [missing, List.mem_filter, isMissing, Option.isNone_iff_eq_none, Dict.get?_eq_none,
    mem_storedStats ht, Uuid.str_inj]
  refine and_congr_right fun hu => ⟨fun h s hs hc hsu => ?_, fun h s hs => ?_⟩
  · exact h s ⟨hs, hc, hsu ▸ hu, hsu.symm⟩
  · exact h s hs.1 hs.2.1 hs.2.2.2.symm

end Stored

/-- `loaded` is `before` with a blank row for every one of `users` that had none. -/
structure Prepared (channel : Uuid) (users : List Uuid) (before loaded : Table RunnerStat) :
    Prop where
  grown : ∃ created, loaded.rows = before.rows ++ created ∧ ∀ s ∈ created,
    s.channelId = channel ∧ s.userId ∈ users ∧ s.runsServedCount = 0 ∧ s.lastRunAt = none ∧
      ∀ r ∈ before, r.channelId = channel → r.userId ≠ s.userId
  onePerUser : OnePerUser channel loaded
  covers : ∀ u ∈ users, ∃ s ∈ loaded, s.channelId = channel ∧ s.userId = u

theorem prepared_loadStats {us : List Uuid} (hus : us.Nodup) (ht : OnePerUser channel db.runnerStats)
    {stats : Dict String RunnerStat} {n : ℕ}
    (h : (loadStats channel (us.map Uuid.str) d).Returns db (stats, n) db') :
    Prepared channel us db.runnerStats db'.runnerStats ∧
      ∀ s, s ∈ stats.values ↔ s ∈ db'.runnerStats ∧ s.channelId = channel ∧ s.userId ∈ us := by
  obtain ⟨t, rfl, hrows, hstats, -⟩ := returns_loadStats hus h
  set created := newStats channel d 0 (missing channel us db.runnerStats) with hcreated
  have hnew : ∀ s ∈ created, s.channelId = channel ∧ s.userId ∈ us ∧ s.runsServedCount = 0 ∧
      s.lastRunAt = none ∧ ∀ r ∈ db.runnerStats, r.channelId = channel → r.userId ≠ s.userId := by
    intro s hs
    obtain ⟨hu, hc, h0, hl⟩ := mem_newStats hs
    obtain ⟨hu, hfree⟩ := (mem_missing ht).mp hu
    exact ⟨hc, hu, h0, hl, hfree⟩
  have hmem : ∀ s, s ∈ t ↔ s ∈ db.runnerStats ∨ s ∈ created := fun s => by
    rw [← Table.mem_rows, hrows, List.mem_append, Table.mem_rows]
  have hnd : (created.map RunnerStat.userId).Nodup := by
    rw [hcreated, map_userId_newStats]
    exact hus.filter _
  have hone : OnePerUser channel t := ht.append hrows (fun s hs => (hnew s hs).2.2.2.2) hnd
  -- an entry is a stored row or a created one, filed under its user's text
  have hentry : ∀ k s, (k, s) ∈ stats ↔
      (s ∈ t ∧ s.channelId = channel ∧ s.userId ∈ us) ∧ k = s.userId.str := by
    intro k s
    rw [hstats.mem_iff, mem_storedStats ht, hmem]
    constructor
    · rintro (⟨hs, hc, hu, hk⟩ | ⟨s', hs, he⟩)
      · exact ⟨⟨Or.inl hs, hc, hu⟩, hk⟩
      · obtain ⟨rfl, rfl⟩ := Prod.mk.inj he
        obtain ⟨hc, hu, -⟩ := hnew s' hs
        exact ⟨⟨Or.inr hs, hc, hu⟩, rfl⟩
    · rintro ⟨⟨hs | hs, hc, hu⟩, rfl⟩
      · exact Or.inl ⟨hs, hc, hu, rfl⟩
      · exact Or.inr ⟨s, hs, rfl⟩
  have hvalues : ∀ s, s ∈ stats.values ↔ s ∈ t ∧ s.channelId = channel ∧ s.userId ∈ us := by
    intro s
    simp only [Dict.mem_values, hentry, exists_and_left, exists_eq, and_true]
  have hcovers : ∀ u ∈ us, ∃ s ∈ t, s.channelId = channel ∧ s.userId = u := by
    intro u hu
    by_cases hfree : ∀ s ∈ db.runnerStats, s.channelId = channel → s.userId ≠ u
    · have hu' : u ∈ created.map RunnerStat.userId := by
        rw [hcreated, map_userId_newStats, mem_missing ht]
        exact ⟨hu, hfree⟩
      obtain ⟨s, hs, rfl⟩ := List.mem_map.mp hu'
      exact ⟨s, (hmem s).mpr (Or.inr hs), (hnew s hs).1, rfl⟩
    · push Not at hfree
      obtain ⟨s, hs, hc, hsu⟩ := hfree
      exact ⟨s, (hmem s).mpr (Or.inl hs), hc, hsu⟩
  exact ⟨⟨⟨created, hrows, hnew⟩, hone, hcovers⟩, hvalues⟩

/-! ### The assignment -/

@[simp] theorem credited_userId (s : RunnerStat) (now : Timestamp) :
    (credited s now).userId = s.userId := rfl

@[simp] theorem credited_channelId (s : RunnerStat) (now : Timestamp) :
    (credited s now).channelId = s.channelId := rfl

@[simp] theorem credited_runsServedCount (s : RunnerStat) (now : Timestamp) :
    (credited s now).runsServedCount = s.runsServedCount + 1 := rfl

variable {users : List Uuid} {last : Option Uuid} {lastId : Option String} {allow : Bool}
  {decision : FairnessDecision}

theorem returns_previousCount {stats : Dict String RunnerStat} {userId : String} {count : ℤ} :
    (previousCount stats userId).Returns db count db' ↔
      (∃ s, stats.get? userId = some s ∧ count = s.runsServedCount) ∧ db' = db := by
  unfold previousCount
  cases stats.get? userId with
  | none => simp
  | some s => simp only [Program.returns_pure, Option.some.injEq, exists_eq_left']

theorem returns_assignRunner
    (h : (assignRunner (.str channel.str) (idents users) lastId allow d).Returns db decision db') :
    ∃ (us : List Uuid) (stats : Dict String RunnerStat) (n : ℕ) (mid : Db) (chosen : RunnerStat),
      us.Nodup ∧ (∀ u, u ∈ us ↔ u ∈ users) ∧
      (loadStats channel (us.map Uuid.str) d).Returns db (stats, n) mid ∧
      (candidates stats lastId allow).argmin sortKey = some chosen ∧
      decision.runnerUserId = chosen.userId.str ∧
      db' = { mid with
        runnerStats := mid.runnerStats.update chosen (credited chosen (d.clock n)) } := by
  obtain ⟨us, hus, hnd, hmem⟩ := uniqueOrdered_idents users
  simp only [assignRunner, hus] at h
  split_ifs at h
  · exact absurd h returns_tx_raise
  · simp only [Program.returns_bind, returns_asUuid, Ident.asUuid_str, returns_choose,
      returns_updating, returns_previousCount, Program.returns_pure] at h
    obtain ⟨_, _, ⟨⟨⟩, rfl⟩, ⟨stats, n⟩, mid, hload, chosen, _, ⟨hchosen, rfl⟩, _, _, rfl, count, _,
      ⟨-, rfl⟩, rfl, rfl⟩ := h
    exact ⟨us, stats, n, _, chosen, hnd, hmem, hload, hchosen, rfl, rfl⟩

theorem assignRunner_frame
    (h : (assignRunner (.str channel.str) (idents users) lastId allow d).Returns db decision db') :
    ∃ t, db' = { db with runnerStats := t } := by
  obtain ⟨us, stats, n, mid, chosen, hnd, -, hload, -, -, rfl⟩ := returns_assignRunner h
  obtain ⟨t, rfl, -⟩ := returns_loadStats hnd hload
  exact ⟨_, rfl⟩

theorem mem_of_mem_loadStats {us : List Uuid} (hus : us.Nodup) {stats : Dict String RunnerStat}
    {n : ℕ} (h : (loadStats channel (us.map Uuid.str) d).Returns db (stats, n) db') {s : RunnerStat}
    (hs : s ∈ stats.values) : s ∈ db'.runnerStats := by
  obtain ⟨t, rfl, hrows, hloaded, -⟩ := returns_loadStats hus h
  refine Table.mem_rows.mp (hrows ▸ List.mem_append.mpr ?_)
  exact (hloaded.cases hs).imp And.left id

theorem assignRunner_other
    (h : (assignRunner (.str channel.str) (idents users) lastId allow d).Returns db decision db')
    {s : RunnerStat} (hs : s.channelId ≠ channel) : s ∈ db'.runnerStats ↔ s ∈ db.runnerStats := by
  obtain ⟨us, stats, n, mid, chosen, hnd, -, hload, hchosen, -, rfl⟩ := returns_assignRunner h
  have hvalues := mem_values_of_mem_candidates (List.argmin_mem hchosen)
  have hmem := mem_of_mem_loadStats hnd hload hvalues
  obtain ⟨t, rfl, hrows, hloaded, -⟩ := returns_loadStats hnd hload
  have hc := (hloaded.mem hvalues).1
  have hold : s ∈ t ↔ s ∈ db.runnerStats := by
    rw [← Table.mem_rows, hrows, List.mem_append, Table.mem_rows]
    exact or_iff_left fun hnew => hs (mem_newStats hnew).2.1
  refine (Table.mem_update hmem (by rfl)).trans ?_
  rw [hold]
  constructor
  · rintro (rfl | ⟨h, -⟩)
    · exact absurd hc hs
    · exact h
  · exact fun h => Or.inr ⟨h, fun hk => hs (Table.eq_of_key (hold.mpr h) hmem hk ▸ hc)⟩

/-- Whatever the tables hold, the runner is an eligible participant. -/
theorem eligible_of_returns
    (h : (assignRunner (.str channel.str) (idents users) (last.map Uuid.str) allow d).Returns
      db decision db') :
    ∃ u, Eligible users last allow u ∧ decision.runnerUserId = u.str := by
  obtain ⟨us, stats, n, mid, chosen, hnd, hmem, hload, hchosen, hrunner, -⟩ :=
    returns_assignRunner h
  obtain ⟨_, -, -, hloaded, -⟩ := returns_loadStats hnd hload
  have hcand := (mem_candidates hloaded.indexes).mp (List.argmin_mem hchosen)
  exact ⟨chosen.userId, (Eligible.congr hmem).mp hcand.2, hrunner⟩

/-- The credited row is a least one among the eligible participants. -/
structure Chosen (channel : Uuid) (users : List Uuid) (last : Option Uuid) (allow : Bool)
    (loaded : Table RunnerStat) (chosen : RunnerStat) : Prop where
  mem : chosen ∈ loaded
  channelId : chosen.channelId = channel
  eligible : Eligible users last allow chosen.userId
  least : ∀ s ∈ loaded, s.channelId = channel → Eligible users last allow s.userId →
    sortKey chosen ≤ sortKey s

theorem count_le_of_sortKey_le {s s' : RunnerStat} (h : sortKey s ≤ sortKey s') :
    s.runsServedCount ≤ s'.runsServedCount :=
  Prod.Lex.monotone_fst _ _ h

theorem assigned_of_returns (ht : OnePerUser channel db.runnerStats)
    (h : (assignRunner (.str channel.str) (idents users) (last.map Uuid.str) allow d).Returns
      db decision db') :
    ∃ loaded chosen n, Prepared channel users db.runnerStats loaded ∧
      Chosen channel users last allow loaded chosen ∧ decision.runnerUserId = chosen.userId.str ∧
      db' = { db with runnerStats := loaded.update chosen (credited chosen (d.clock n)) } := by
  obtain ⟨us, stats, n, mid, chosen, hnd, hmem, hload, hchosen, hrunner, rfl⟩ :=
    returns_assignRunner h
  obtain ⟨⟨⟨created, hrows, hnew⟩, hone, hcovers⟩, hvalues⟩ := prepared_loadStats hnd ht hload
  obtain ⟨t, rfl, -, hloaded, -⟩ := returns_loadStats hnd hload
  have hindex := hloaded.indexes
  obtain ⟨hv, heligible⟩ := (mem_candidates hindex).mp (List.argmin_mem hchosen)
  obtain ⟨hmemt, hc, -⟩ := (hvalues chosen).mp hv
  refine ⟨t, chosen, n, ⟨⟨created, hrows, fun s hs => ?_⟩, hone, fun u hu => ?_⟩,
    ⟨hmemt, hc, (Eligible.congr hmem).mp heligible, fun s hs hsc hse => ?_⟩, hrunner, rfl⟩
  · simpa only [hmem] using hnew s hs
  · exact hcovers u ((hmem u).mpr hu)
  · have hse := (Eligible.congr hmem).mpr hse
    exact List.le_of_mem_argmin ((mem_candidates hindex).mpr
      ⟨(hvalues s).mpr ⟨hs, hsc, hse.1⟩, hse⟩) hchosen

/-! ### Exceptions -/

theorem raises_createMissing {us : List Uuid} {n : ℕ} {stats : Dict String RunnerStat} {e : Exc}
    (h : (createMissing channel d n (us.map Uuid.str) stats).Raises db e db') :
    e = .integrityError := by
  induction us generalizing n stats db with
  | nil => exact absurd h (by simp [createMissing])
  | cons u us ih =>
    rw [List.map_cons, createMissing] at h
    split at h
    · exact ih h
    · simp only [Program.raises_bind, raises_asUuid, Ident.asUuid_str, reduceCtorEq, false_and,
        raises_inserting, false_or] at h
      obtain ⟨_, _, -, ⟨-, rfl, -⟩ | ⟨_, _, -, h⟩⟩ := h
      · rfl
      · exact ih h

theorem candidates_ne_nil {stats : Dict String RunnerStat} (h : stats.values ≠ []) :
    candidates stats lastId allow ≠ [] := by
  simp only [candidates]
  split_ifs <;> assumption

theorem not_raises_choose {cs : List RunnerStat} (h : cs ≠ []) {e : Exc} :
    ¬(choose cs).Raises db e db' := by
  unfold choose
  split
  · exact Program.raises_pure
  · rename_i hnone
    exact absurd (List.argmin_eq_none.mp hnone) h

/-- With somebody to choose from, only a refused insert stops an assignment. -/
theorem raises_assignRunner (hne : users ≠ []) {e : Exc}
    (h : (assignRunner (.str channel.str) (idents users) lastId allow d).Raises db e db') :
    e = .integrityError := by
  obtain ⟨us, hus, hnd, hmem⟩ := uniqueOrdered_idents users
  obtain ⟨u, hu⟩ := List.exists_mem_of_ne_nil _ hne
  have hu := (hmem u).mpr hu
  have hus' : us.map Uuid.str ≠ [] := List.ne_nil_of_mem (List.mem_map_of_mem hu)
  simp only [assignRunner, hus, if_neg hus', Program.raises_bind, raises_asUuid, Ident.asUuid_str,
    reduceCtorEq, false_and, raises_updating, Program.raises_pure, and_false, exists_false,
    or_false, false_or] at h
  obtain ⟨_, _, -, h | ⟨⟨stats, n⟩, _, hload, h⟩⟩ := h
  · simp only [loadStats, Program.raises_bind, raises_asUuids, Program.raises_query,
      false_or] at h
    obtain ⟨_, _, -, _, _, -, h⟩ := h
    exact raises_createMissing h
  · obtain ⟨_, -, -, hloaded, -⟩ := returns_loadStats hnd hload
    have hindex := hloaded.indexes
    obtain ⟨s, hs, -⟩ := hindex.complete u hu
    rcases h with h | ⟨chosen, _, hchosen, _, _, -, h⟩
    · exact absurd h (not_raises_choose (candidates_ne_nil (List.ne_nil_of_mem hs)))
    · have hcand := List.argmin_mem (returns_choose.mp hchosen).1
      rw [previousCount, hindex.get?.mpr (mem_values_of_mem_candidates hcand)] at h
      exact absurd h Program.raises_pure

end FairnessService
end CoffeeBuddy

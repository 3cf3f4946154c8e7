import CoffeeBuddy.Services.FairnessSpecs
import Mathlib.Data.List.Infix

/-! `assign_runner` as a function of the table: which row each participant is compared
by, what the call returns and what it leaves of the table, for participants listed
under any texts. -/

namespace CoffeeBuddy
open Relational Transaction Listing

namespace FairnessService
variable {channel : Uuid} {d : Draws} {db db' : Db} {ps : List Listed}

/-! ### Loading -/

/-- The first `k` ids drawn are new to the table. -/
structure Mints (d : Draws) (k : ℕ) (t : Table RunnerStat) : Prop where
  distinct : ∀ i < k, ∀ j < k, d.uuid4 i = d.uuid4 j → i = j
  unused : ∀ s ∈ t, ∀ i < k, s.id ≠ d.uuid4 i

theorem Mints.mono {k n : ℕ} {t : Table RunnerStat} (h : Mints d k t) (hn : n ≤ k) : Mints d n t :=
  ⟨fun i hi j hj => h.distinct i (hi.trans_le hn) j (hj.trans_le hn),
    fun s hs i hi => h.unused s hs i (hi.trans_le hn)⟩

theorem fresh_newStat {k n : ℕ} (hdistinct : ∀ i < k, ∀ j < k, d.uuid4 i = d.uuid4 j → i = j)
    {u : Uuid} {t : Table RunnerStat}
    (hold : ∀ s ∈ db.runnerStats, ∀ i < k, n ≤ i → s.id ≠ d.uuid4 i)
    (ht : db.runnerStats.insert (newStat channel d n u) = some t) :
    ∀ s ∈ t, ∀ i < k, n + 1 ≤ i → s.id ≠ d.uuid4 i := by
  intro s hs i hik hi
  rcases (Table.mem_insert ht).mp hs with hs | rfl
  · exact hold s hs i hik (Nat.le_of_succ_le hi)
  · intro hid
    have hni : n = i := hdistinct n (lt_of_lt_of_le hi hik.le) i hik hid
    omega

theorem exists_returns_createMissing (hparse : ∀ p ∈ ps, Uuid.parse p.1 = some p.2) {k n : ℕ}
    (hdistinct : ∀ i < k, ∀ j < k, d.uuid4 i = d.uuid4 j → i = j) (hk : n + ps.length ≤ k)
    (hold : ∀ s ∈ db.runnerStats, ∀ i < k, n ≤ i → s.id ≠ d.uuid4 i)
    (stats : Dict String RunnerStat) :
    ∃ loaded mid, (createMissing channel d n (ps.map Prod.fst) stats).Returns db loaded mid := by
  induction ps generalizing n stats db with
  | nil => exact ⟨_, _, Program.returns_pure.mpr ⟨rfl, rfl⟩⟩
  | cons p ps ih =>
    have hrest : ∀ q ∈ ps, Uuid.parse q.1 = some q.2 := fun q hq =>
      hparse q (List.mem_cons_of_mem p hq)
    rw [List.length_cons] at hk
    rw [List.map_cons, createMissing]
    cases stats.get? p.1 with
    | some s => exact ih hrest (by omega) hold stats
    | none =>
      obtain ⟨t, ht⟩ := Table.exists_insert (t := db.runnerStats)
        (r := newStat channel d n p.2) fun s hs => hold s hs n (by omega) le_rfl
      have hnew : ∀ s ∈ ({ db with runnerStats := t } : Db).runnerStats, ∀ i < k, n + 1 ≤ i →
          s.id ≠ d.uuid4 i := fresh_newStat hdistinct hold ht
      obtain ⟨loaded, mid, h⟩ := ih hrest (by omega) hnew
        (stats.set p.1 (newStat channel d n p.2))
      have hpu : (Ident.str p.1).asUuid = some p.2 := hparse p List.mem_cons_self
      refine ⟨loaded, mid, ?_⟩
      simp only [Program.returns_bind, returns_asUuid, hpu, returns_inserting]
      exact ⟨p.2, db, ⟨rfl, rfl⟩, (), _, ⟨t, ht, rfl⟩, h⟩

/-- The participants listed under a text that no stored row is filed under. -/
def unfiledIn (channel : Uuid) (ps : List Listed) (t : Table RunnerStat) : List Listed :=
  ps.filter (unfiled (storedStats channel (ps.map Prod.snd) t))

/-- What loading leaves: the dict, the number of readings and the database. -/
structure Loads (channel : Uuid) (d : Draws) (ps : List Listed) (db : Db)
    (stats : Dict String RunnerStat) (n : ℕ) (mid : Db) : Prop where
  returns : (loadStats channel (ps.map Prod.fst) d).Returns db (stats, n) mid
  written : ∃ t : Table RunnerStat, mid = { db with runnerStats := t } ∧
    t.rows = db.runnerStats.rows ++
      newStats channel d 0 ((unfiledIn channel ps db.runnerStats).map Prod.snd)
  rows : stats.rows = (storedStats channel (ps.map Prod.snd) db.runnerStats).rows ++
    newEntries channel d 0 (unfiledIn channel ps db.runnerStats)
  readings : n = (unfiledIn channel ps db.runnerStats).length

theorem exists_loads (hps : (ps.map Prod.fst).Nodup)
    (hparse : ∀ p ∈ ps, Uuid.parse p.1 = some p.2) (hm : Mints d ps.length db.runnerStats) :
    ∃ stats n mid, Loads channel d ps db stats n mid := by
  obtain ⟨⟨stats, n⟩, mid, h⟩ : ∃ loaded mid, (createMissing channel d 0 (ps.map Prod.fst)
      (storedStats channel (ps.map Prod.snd) db.runnerStats)).Returns db loaded mid :=
    exists_returns_createMissing hparse hm.distinct (Nat.zero_add _).le
      (fun s hs i hi _ => hm.unused s hs i hi) _
  have hload : (loadStats channel (ps.map Prod.fst) d).Returns db (stats, n) mid := by
    simp only [loadStats, Program.returns_bind, returns_asUuids_listed hparse, Program.returns_query]
    exact ⟨_, _, ⟨rfl, rfl⟩, _, _, ⟨rfl, rfl⟩, h⟩
  obtain ⟨t, hmid, ht, hstats, hn⟩ := returns_createMissing_listed hps hparse h
  exact ⟨stats, n, mid, hload, ⟨t, hmid, ht⟩, hstats, hn.trans (Nat.zero_add _)⟩

/-! ### The decision -/

section Decision
variable {channelId : Ident} {ids : List Ident} {lastId : Option String} {allow : Bool}
  {stats : Dict String RunnerStat} {n : ℕ} {mid : Db} {chosen : RunnerStat}

/-- The outcome once the stats are loaded: the count is looked up under the canonical
text of the chosen user, which need not be among the texts listed. -/
theorem exec_assignRunner (hchannel : channelId.asUuid = some channel)
    (hids : uniqueOrdered ids = ps.map Prod.fst) (hne : ps ≠ [])
    (hload : Loads channel d ps db stats n mid)
    (hchosen : (candidates stats lastId allow).argmin sortKey = some chosen) :
    (assignRunner channelId ids lastId allow d).exec db =
      ((stats.get? chosen.userId.str).elim (.error .keyError) fun s => .ok
        { runnerUserId := chosen.userId.str
          rationale := buildRationale s.runsServedCount (excludesLast stats lastId allow) },
      { mid with runnerStats := mid.runnerStats.update chosen (credited chosen (d.clock n)) }) := by
  have hnil : ps.map Prod.fst ≠ [] := fun h => hne (List.map_eq_nil_iff.mp h)
  have hchannel' : (asUuid channelId).exec db = (.ok channel, db) :=
    returns_asUuid.mpr ⟨hchannel, rfl⟩
  have hload' : (loadStats channel (ps.map Prod.fst) d).exec db = (.ok (stats, n), mid) :=
    hload.returns
  have hchoose : (choose (candidates stats lastId allow)).exec mid = (.ok chosen, mid) :=
    returns_choose.mpr ⟨hchosen, rfl⟩
  have hupdate : (updateStat chosen (credited chosen (d.clock n))).exec mid = (.ok (),
      { mid with runnerStats := mid.runnerStats.update chosen (credited chosen (d.clock n)) }) :=
    returns_updating.mpr rfl
  unfold assignRunner
  rw [hids]
  dsimp only
  rw [if_neg hnil]
  simp only [Program.exec_bind, hchannel', hload', hchoose, hupdate]
  unfold previousCount
  cases stats.get? chosen.userId.str with
  | none => rfl
  | some s => rfl

theorem exists_chosen (h : stats.values ≠ []) (lastId : Option String) (allow : Bool) :
    ∃ chosen, (candidates stats lastId allow).argmin sortKey = some chosen := by
  apply Option.ne_none_iff_exists'.mp
  intro hnone
  exact candidates_ne_nil h (List.argmin_eq_none.mp hnone)

end Decision

/-! ### The row of a participant -/

section Rows
variable {users us : List Uuid} {t : Table RunnerStat} {stats : Dict String RunnerStat} {u : Uuid}

/-- The stored row of a user. -/
def statOf (channel : Uuid) (t : Table RunnerStat) (u : Uuid) : Option RunnerStat :=
  t.rows.find? fun s => s.channelId = channel && s.userId = u

/-- The participants without a stored row, in the order of their listing. -/
def newcomers (channel : Uuid) (users : List Uuid) (t : Table RunnerStat) : List Uuid :=
  (firstSeen users).filter fun u => (statOf channel t u).isNone

/-- The row a participant is compared by: its own, or else the one it gets with the
reading of the clock at its turn. -/
def rowOf (channel : Uuid) (d : Draws) (users : List Uuid) (t : Table RunnerStat) (u : Uuid) :
    RunnerStat :=
  (statOf channel t u).getD (newStat channel d ((newcomers channel users t).idxOf u) u)

/-- How a participant stands before the call: runs served and last run, with none served
and never run for want of a row. -/
def standing (channel : Uuid) (t : Table RunnerStat) (u : Uuid) : ℤ ×ₗ Timestamp :=
  (statOf channel t u).elim (toLex (0, epoch)) fun s =>
    toLex (s.runsServedCount, s.lastRunAt.getD epoch)

theorem statOf_eq_none :
    statOf channel t u = none ↔ ∀ s ∈ t, s.channelId = channel → s.userId ≠ u := by
  simp only [statOf, List.find?_eq_none, Bool.and_eq_true, decide_eq_true_eq, not_and]
  exact Iff.rfl

theorem mem_of_statOf {s : RunnerStat} (h : statOf channel t u = some s) :
    s ∈ t ∧ s.channelId = channel ∧ s.userId = u := by
  have hs := List.find?_some h
  simp only [Bool.and_eq_true, decide_eq_true_eq] at hs
  exact ⟨List.mem_of_find?_eq_some h, hs⟩

theorem statOf_eq_some (ht : OnePerUser channel t) {s : RunnerStat} :
    statOf channel t u = some s ↔ s ∈ t ∧ s.channelId = channel ∧ s.userId = u := by
  constructor
  · exact mem_of_statOf
  · rintro ⟨hs, hc, hu⟩
    obtain ⟨r, hr⟩ : ∃ r, statOf channel t u = some r := Option.ne_none_iff_exists'.mp fun hnone =>
      statOf_eq_none.mp hnone s hs hc hu
    obtain ⟨hrt, hrc, hru⟩ := mem_of_statOf hr
    rw [hr, ht r hrt s hs hrc hc (hru.trans hu.symm)]

theorem missing_eq_newcomers (ht : OnePerUser channel t) :
    missing channel (firstSeen users) t = newcomers channel users t := by
  refine List.filter_congr fun u hu => ?_
  have hmissing : u ∈ missing channel (firstSeen users) t ↔
      isMissing (storedStats channel (firstSeen users) t) u = true := by
    rw [missing, List.mem_filter]
    exact and_iff_right hu
  rw [Bool.eq_iff_iff, ← hmissing, mem_missing ht, Option.isNone_iff_eq_none, statOf_eq_none]
  exact and_iff_right hu

theorem mem_newcomers : u ∈ newcomers channel users t ↔ u ∈ users ∧ statOf channel t u = none := by
  rw [newcomers, List.mem_filter, mem_firstSeen, Option.isNone_iff_eq_none]

theorem nodup_newcomers : (newcomers channel users t).Nodup := (nodup_firstSeen users).filter _

@[simp] theorem rowOf_userId : (rowOf channel d users t u).userId = u := by
  unfold rowOf
  cases h : statOf channel t u with
  | none => rfl
  | some s => exact (mem_of_statOf h).2.2

@[simp] theorem rowOf_channelId : (rowOf channel d users t u).channelId = channel := by
  unfold rowOf
  cases h : statOf channel t u with
  | none => rfl
  | some s => exact (mem_of_statOf h).2.1

theorem standing_eq : standing channel t u =
    toLex ((rowOf channel d users t u).runsServedCount,
      (rowOf channel d users t u).lastRunAt.getD epoch) := by
  unfold standing rowOf
  cases statOf channel t u with
  | none => rfl
  | some s => rfl

/-- The blank rows are those of the newcomers: the `i`-th of them has the `i`-th reading. -/
theorem mem_newStats_newcomers {s : RunnerStat} :
    s ∈ newStats channel d 0 (newcomers channel users t) ↔
      s.userId ∈ newcomers channel users t ∧ s = rowOf channel d users t s.userId := by
  have hrow : ∀ v ∈ newcomers channel users t, rowOf channel d users t v =
      newStat channel d ((newcomers channel users t).idxOf v) v := fun v hv => by
    rw [rowOf, (mem_newcomers.mp hv).2, Option.getD_none]
  constructor
  · intro hs
    obtain ⟨hu, -⟩ := mem_newStats hs
    obtain ⟨i, hi, rfl⟩ := List.mem_mapIdx.mp hs
    have hidx : (newcomers channel users t).idxOf (newcomers channel users t)[i] = i :=
      nodup_newcomers.idxOf_getElem i hi
    have huser : (newStat channel d (0 + i) (newcomers channel users t)[i]).userId =
        (newcomers channel users t)[i] := rfl
    exact ⟨hu, by rw [huser, hrow _ (List.getElem_mem hi), hidx, Nat.zero_add]⟩
  · rintro ⟨hu, hs⟩
    refine List.mem_mapIdx.mpr ⟨_, List.idxOf_lt_length_of_mem hu, ?_⟩
    rw [List.getElem_idxOf, Nat.zero_add, ← hrow _ hu]
    exact hs.symm

theorem Loaded.mem_values (ht : OnePerUser channel t)
    (h : Loaded channel d (firstSeen users) t stats) {s : RunnerStat} :
    s ∈ stats.values ↔ s.userId ∈ users ∧ s = rowOf channel d users t s.userId := by
  have hrow : ∀ s ∈ stats.values, s = rowOf channel d users t s.userId := by
    intro s hs
    rcases h.cases hs with ⟨hst, hc, -⟩ | hnew
    · rw [rowOf, (statOf_eq_some ht).mpr ⟨hst, hc, rfl⟩, Option.getD_some]
    · rw [missing_eq_newcomers ht] at hnew
      exact (mem_newStats_newcomers.mp hnew).2
  constructor
  · intro hs
    exact ⟨mem_firstSeen.mp (h.mem hs).2, hrow s hs⟩
  · rintro ⟨hu, hs⟩
    obtain ⟨r, hr, hru⟩ := h.indexes.complete s.userId (mem_firstSeen.mpr hu)
    rw [hs, ← hru, ← hrow r hr]
    exact hr

end Rows

/-! ### A call with users -/

/-- The key compares the count and the last run before it comes to the rest. -/
theorem sortKey_le_iff {s r : RunnerStat} : sortKey s ≤ sortKey r ↔
    toLex (s.runsServedCount, s.lastRunAt.getD epoch) <
        toLex (r.runsServedCount, r.lastRunAt.getD epoch) ∨
      toLex (s.runsServedCount, s.lastRunAt.getD epoch) =
        toLex (r.runsServedCount, r.lastRunAt.getD epoch) ∧
      toLex (s.createdAt, s.userId.str) ≤ toLex (r.createdAt, r.userId.str) := by
  have hkey : sortKey s ≤ sortKey r ↔ s.runsServedCount < r.runsServedCount ∨
      s.runsServedCount = r.runsServedCount ∧
        (s.lastRunAt.getD epoch < r.lastRunAt.getD epoch ∨
          s.lastRunAt.getD epoch = r.lastRunAt.getD epoch ∧
            toLex (s.createdAt, s.userId.str) ≤ toLex (r.createdAt, r.userId.str)) :=
    Prod.Lex.toLex_le_toLex.trans (or_congr_right (and_congr_right fun _ =>
      Prod.Lex.toLex_le_toLex))
  rw [hkey, Prod.Lex.toLex_lt_toLex, toLex_inj, Prod.mk.injEq, and_or_left, or_assoc, and_assoc]

section Users
variable {channelId : Ident} {participants : List Ident} {users : List Uuid} {last : Option Uuid}
  {allow : Bool} {t : Table RunnerStat} {stats : Dict String RunnerStat} {u : Uuid}

theorem excludesLast_iff (h : Indexes (firstSeen users) stats) :
    excludesLast stats (last.map Uuid.str) allow = true ↔
      ∃ v ∈ users, ¬Eligible users last allow v := by
  rw [h.excludesLast, exists_not_eligible]
  simp only [mem_firstSeen]

/-- `u` is a least eligible participant by its row. -/
def Least (channel : Uuid) (d : Draws) (users : List Uuid) (last : Option Uuid) (allow : Bool)
    (t : Table RunnerStat) (u : Uuid) : Prop :=
  Eligible users last allow u ∧ ∀ v, Eligible users last allow v →
    sortKey (rowOf channel d users t u) ≤ sortKey (rowOf channel d users t v)

theorem unfiledIn_canonical (ht : OnePerUser channel t) :
    unfiledIn channel ((firstSeen users).map canonical) t =
      (newcomers channel users t).map canonical := by
  rw [unfiledIn, map_snd_canonical, filter_unfiled_canonical, ← missing_eq_newcomers ht]
  rfl

theorem Loads.loaded {n : ℕ} {mid : Db}
    (h : Loads channel d ((firstSeen users).map canonical) db stats n mid)
    (hone : OnePerUser channel db.runnerStats) :
    Loaded channel d (firstSeen users) db.runnerStats stats := by
  have hrows := h.rows
  rw [unfiledIn_canonical hone, map_snd_canonical, newEntries_canonical,
    ← missing_eq_newcomers hone] at hrows
  exact hrows

theorem Loaded.least_of_chosen (h : Loaded channel d (firstSeen users) t stats)
    (ht : OnePerUser channel t) {chosen : RunnerStat}
    (hchosen : (candidates stats (last.map Uuid.str) allow).argmin sortKey = some chosen) :
    chosen = rowOf channel d users t chosen.userId ∧
      Least channel d users last allow t chosen.userId := by
  obtain ⟨hv, he⟩ := (mem_candidates h.indexes).mp (List.argmin_mem hchosen)
  have hrow := ((h.mem_values ht).mp hv).2
  have hcongr : ∀ v, Eligible (firstSeen users) last allow v ↔ Eligible users last allow v :=
    fun v => Eligible.congr fun _ => mem_firstSeen
  refine ⟨hrow, (hcongr _).mp he, fun v hv => ?_⟩
  have hvalue : rowOf channel d users t v ∈ stats.values := by
    rw [h.mem_values ht, rowOf_userId]
    exact ⟨hv.1, rfl⟩
  have hcompared : rowOf channel d users t v ∈ candidates stats (last.map Uuid.str) allow := by
    rw [mem_candidates h.indexes, rowOf_userId, hcongr]
    exact ⟨hvalue, hv⟩
  rw [← hrow]
  exact List.le_of_mem_argmin hcompared hchosen

theorem returns_users (hone : OnePerUser channel db.runnerStats)
    (hchannel : channelId.asUuid = some channel)
    (hids : participants.map Ident.toStr = users.map Uuid.str) (hne : users ≠ [])
    (hm : Mints d users.length db.runnerStats) (last : Option Uuid) (allow : Bool) :
    ∃ u, ∃ grown : Table RunnerStat, Least channel d users last allow db.runnerStats u ∧
      grown.rows = db.runnerStats.rows ++
        newStats channel d 0 (newcomers channel users db.runnerStats) ∧
      (assignRunner channelId participants (last.map Uuid.str) allow d).Returns db
        { runnerUserId := u.str
          rationale := buildRationale (rowOf channel d users db.runnerStats u).runsServedCount
            (decide (∃ v ∈ users, ¬Eligible users last allow v)) }
        { db with
          runnerStats := grown.update (rowOf channel d users db.runnerStats u)
            (credited (rowOf channel d users db.runnerStats u)
              (d.clock (newcomers channel users db.runnerStats).length)) } := by
  -- what is loaded are the canonical texts of the users, each once
  have htexts : uniqueOrdered participants = ((firstSeen users).map canonical).map Prod.fst := by
    rw [map_fst_canonical, ← uniqueOrdered_canonical, uniqueOrdered_eq, uniqueOrdered_eq, hids,
      idents, List.map_map]
    rfl
  have hm' : Mints d ((firstSeen users).map canonical).length db.runnerStats := by
    rw [List.length_map]
    exact hm.mono (length_firstSeen_le users)
  obtain ⟨stats, n, mid, hload⟩ : ∃ stats n mid,
      Loads channel d ((firstSeen users).map canonical) db stats n mid :=
    exists_loads (htexts ▸ nodup_firstSeen _) parse_canonical hm'
  have hloaded := hload.loaded hone
  have hindex := hloaded.indexes
  have hps : (firstSeen users).map canonical ≠ [] := fun h =>
    firstSeen_ne_nil hne (List.map_eq_nil_iff.mp h)
  obtain ⟨x, hx⟩ := List.exists_mem_of_ne_nil _ hne
  obtain ⟨s, hs, -⟩ := hindex.complete x (mem_firstSeen.mpr hx)
  obtain ⟨chosen, hchosen⟩ := exists_chosen (List.ne_nil_of_mem hs) (last.map Uuid.str) allow
  obtain ⟨hrow, hleast⟩ := hloaded.least_of_chosen hone hchosen
  have hvalue := ((mem_candidates hindex).mp (List.argmin_mem hchosen)).1
  have hflag : excludesLast stats (last.map Uuid.str) allow =
      decide (∃ v ∈ users, ¬Eligible users last allow v) := by
    rw [Bool.eq_iff_iff, decide_eq_true_eq, excludesLast_iff hindex]
  obtain ⟨grown, hmid, hgrown⟩ := hload.written
  rw [unfiledIn_canonical hone, map_snd_canonical] at hgrown
  refine ⟨chosen.userId, grown, hleast, hgrown, ?_⟩
  show (assignRunner channelId participants (last.map Uuid.str) allow d).exec db = _
  rw [exec_assignRunner hchannel htexts hps hload hchosen, hindex.get?.mpr hvalue, Option.elim_some,
    hflag, ← hrow, hload.readings, unfiledIn_canonical hone, List.length_map, hmid]

end Users

/-! ### Participants listed under other texts -/

section Listing
variable {users : List Uuid} {t : Table RunnerStat} {stats : Dict String RunnerStat} {n : ℕ}
  {mid : Db}

/-- Each user comes under one text, which is the canonical one if the user has a row. -/
structure NamedOnce (channel : Uuid) (ps : List Listed) (t : Table RunnerStat) : Prop where
  injective : ∀ p ∈ ps, ∀ q ∈ ps, p.2 = q.2 → p = q
  stored : ∀ p ∈ ps, p.1 ≠ p.2.str → statOf channel t p.2 = none

/-- A text finds no stored row when it is not canonical or its user has none. -/
theorem unfiled_iff (ht : OnePerUser channel t) {p : Listed} (hp : Uuid.parse p.1 = some p.2)
    (hu : p.2 ∈ users) : unfiled (storedStats channel users t) p = true ↔
      p.1 ≠ p.2.str ∨ statOf channel t p.2 = none := by
  rw [unfiled, Option.isNone_iff_eq_none, Dict.get?_eq_none]
  simp only [mem_storedStats ht]
  constructor
  · intro h
    by_contra hcon
    push Not at hcon
    obtain ⟨hcanonical, hstat⟩ := hcon
    obtain ⟨s, hs⟩ := Option.ne_none_iff_exists'.mp hstat
    obtain ⟨hst, hc, hsu⟩ := mem_of_statOf hs
    exact h s ⟨hst, hc, hsu ▸ hu, by rw [hcanonical, hsu]⟩
  · rintro h s ⟨hs, hc, -, hk⟩
    have hsu : s.userId = p.2 := by
      rw [hk, Uuid.parse_str, Option.some.injEq] at hp
      exact hp
    rcases h with h | h
    · exact h (hk.trans (congrArg Uuid.str hsu))
    · exact statOf_eq_none.mp h s hs hc hsu

theorem unfiledIn_eq (ht : OnePerUser channel t) (hparse : ∀ p ∈ ps, Uuid.parse p.1 = some p.2)
    (h : NamedOnce channel ps t) :
    unfiledIn channel ps t = ps.filter fun p => (statOf channel t p.2).isNone := by
  refine List.filter_congr fun p hp => ?_
  rw [Bool.eq_iff_iff, unfiled_iff ht (hparse p hp) (List.mem_map_of_mem hp),
    Option.isNone_iff_eq_none]
  exact or_iff_right_of_imp (h.stored p hp)

theorem map_snd_unfiledIn (ht : OnePerUser channel t)
    (hparse : ∀ p ∈ ps, Uuid.parse p.1 = some p.2) (h : NamedOnce channel ps t)
    (husers : ps.map Prod.snd = firstSeen users) :
    (unfiledIn channel ps t).map Prod.snd = newcomers channel users t := by
  rw [unfiledIn_eq ht hparse h, newcomers, ← husers, List.filter_map]
  rfl

/-- As many blank rows as users without one: then each user was listed under one text. -/
theorem namedOnce_of_length (ht : OnePerUser channel t)
    (hparse : ∀ p ∈ ps, Uuid.parse p.1 = some p.2)
    (husers : ∀ u, u ∈ ps.map Prod.snd ↔ u ∈ users)
    (h : (unfiledIn channel ps t).length = (newcomers channel users t).length) :
    NamedOnce channel ps t := by
  have hunfiled : ∀ p ∈ ps, p ∈ unfiledIn channel ps t ↔
      p.1 ≠ p.2.str ∨ statOf channel t p.2 = none := fun p hp => by
    rw [unfiledIn, List.mem_filter, ← unfiled_iff ht (hparse p hp) (List.mem_map_of_mem hp)]
    exact and_iff_right hp
  have hsub : newcomers channel users t ⊆ (unfiledIn channel ps t).map Prod.snd := by
    intro u hu
    obtain ⟨hmem, hnone⟩ := mem_newcomers.mp hu
    obtain ⟨p, hp, rfl⟩ := List.mem_map.mp ((husers u).mpr hmem)
    exact List.mem_map_of_mem ((hunfiled p hp).mpr (Or.inr hnone))
  have hperm : (newcomers channel users t).Perm ((unfiledIn channel ps t).map Prod.snd) :=
    (List.subperm_of_subset nodup_newcomers hsub).perm_of_length_le (by rw [List.length_map, h])
  have hnone : ∀ p ∈ unfiledIn channel ps t, statOf channel t p.2 = none := fun p hp =>
    (mem_newcomers.mp (hperm.mem_iff.mpr (List.mem_map_of_mem hp))).2
  have hnd : ((unfiledIn channel ps t).map Prod.snd).Nodup := hperm.nodup_iff.mp nodup_newcomers
  refine ⟨fun p hp q hq hpq => ?_, fun p hp hne => hnone p ((hunfiled p hp).mpr (Or.inl hne))⟩
  by_cases hpu : p ∈ unfiledIn channel ps t
  · have hqu : q ∈ unfiledIn channel ps t :=
      (hunfiled q hq).mpr (Or.inr (hpq ▸ hnone p hpu))
    exact List.inj_on_of_nodup_map hnd hpu hqu hpq
  · -- `p` finds a stored row, so `q` names a user with one
    have hpc := (not_or.mp ((hunfiled p hp).not.mp hpu))
    have hqu : q ∉ unfiledIn channel ps t := fun hqu => hpc.2 (hpq ▸ hnone q hqu)
    have hqc := (not_or.mp ((hunfiled q hq).not.mp hqu))
    refine Prod.ext ?_ hpq
    rw [not_not.mp hpc.1, not_not.mp hqc.1, hpq]

/-- The entries added are the rows of those without a stored one. -/
theorem newEntries_unfiledIn (ht : OnePerUser channel t)
    (hparse : ∀ p ∈ ps, Uuid.parse p.1 = some p.2) (h : NamedOnce channel ps t)
    (husers : ps.map Prod.snd = firstSeen users) :
    newEntries channel d 0 (unfiledIn channel ps t) =
      (unfiledIn channel ps t).map fun p => (p.1, rowOf channel d users t p.2) := by
  have hsnd := map_snd_unfiledIn ht hparse h husers
  refine List.ext_getElem (by simp [newEntries]) fun i hi hi' => ?_
  rw [List.length_map] at hi'
  have hnew : i < (newcomers channel users t).length := by rwa [← hsnd, List.length_map]
  have hget : (unfiledIn channel ps t)[i].2 = (newcomers channel users t)[i] := by
    simp only [← hsnd, List.getElem_map]
  have hidx : (newcomers channel users t).idxOf (newcomers channel users t)[i] = i :=
    nodup_newcomers.idxOf_getElem i hnew
  have hnone := (mem_newcomers.mp (List.getElem_mem hnew)).2
  simp only [newEntries, List.getElem_mapIdx, List.getElem_map, Nat.zero_add, hget, rowOf, hnone,
    Option.getD_none, hidx]

/-- With each user named once, the dict files the row of each user under its text. -/
theorem Loads.mem_iff (h : Loads channel d ps db stats n mid)
    (ht : OnePerUser channel db.runnerStats) (hparse : ∀ p ∈ ps, Uuid.parse p.1 = some p.2)
    (hnamed : NamedOnce channel ps db.runnerStats) (husers : ps.map Prod.snd = firstSeen users)
    {k : String} {s : RunnerStat} : (k, s) ∈ stats ↔
      (k, s.userId) ∈ ps ∧ s = rowOf channel d users db.runnerStats s.userId := by
  rw [← Table.mem_rows, h.rows, newEntries_unfiledIn ht hparse hnamed husers, List.mem_append,
    Table.mem_rows, mem_storedStats ht, unfiledIn_eq ht hparse hnamed]
  constructor
  · rintro (⟨hs, hc, hu, rfl⟩ | hnew)
    · have hstat := (statOf_eq_some ht).mpr ⟨hs, hc, rfl⟩
      obtain ⟨p, hp, hpu⟩ := List.mem_map.mp hu
      -- a stored row is found under the canonical text only
      have hcanonical : p.1 = p.2.str := by
        by_contra hne
        have hnone := hnamed.stored p hp hne
        rw [hpu, hstat] at hnone
        exact Option.some_ne_none s hnone
      refine ⟨?_, by rw [rowOf, hstat, Option.getD_some]⟩
      rw [← hpu, ← hcanonical]
      exact hp
    · obtain ⟨p, hp, he⟩ := List.mem_map.mp hnew
      obtain ⟨rfl, rfl⟩ := Prod.mk.inj he
      rw [rowOf_userId]
      exact ⟨(List.mem_filter.mp hp).1, rfl⟩
  · rintro ⟨hp, hs⟩
    have hu : s.userId ∈ ps.map Prod.snd := List.mem_map_of_mem hp
    cases hstat : statOf channel db.runnerStats s.userId with
    | some r =>
      left
      obtain ⟨hr, hc, hru⟩ := mem_of_statOf hstat
      have hsr : s = r := by rw [hs, rowOf, hstat, Option.getD_some]
      refine ⟨hsr ▸ hr, hsr ▸ hc, hu, ?_⟩
      by_contra hne
      have hnone := hnamed.stored _ hp hne
      rw [hstat] at hnone
      exact Option.some_ne_none r hnone
    | none =>
      right
      refine List.mem_map.mpr ⟨_, List.mem_filter.mpr ⟨hp, Option.isNone_iff_eq_none.mpr hstat⟩, ?_⟩
      exact Prod.ext rfl hs.symm

end Listing

theorem Loads.values_ne_nil {stats : Dict String RunnerStat} {n : ℕ} {mid : Db}
    (h : Loads channel d ps db stats n mid) (hne : ps ≠ []) : stats.values ≠ [] := by
  intro hnil
  have hrows := h.rows
  rw [List.map_eq_nil_iff.mp hnil, eq_comm, List.append_eq_nil_iff] at hrows
  obtain ⟨hstored, hnew⟩ := hrows
  obtain ⟨p, hp⟩ := List.exists_mem_of_ne_nil _ hne
  have hunfiled : p ∈ unfiledIn channel ps db.runnerStats := by
    refine List.mem_filter.mpr ⟨hp, Option.isNone_iff_eq_none.mpr (Dict.get?_eq_none.mpr ?_)⟩
    intro s hs
    exact List.not_mem_nil (hstored ▸ Table.mem_rows.mpr hs)
  have hlength := congrArg List.length hnew
  rw [newEntries, List.length_mapIdx, List.length_nil] at hlength
  exact List.ne_nil_of_mem hunfiled (List.length_eq_zero_iff.mp hlength)

end FairnessService
end CoffeeBuddy

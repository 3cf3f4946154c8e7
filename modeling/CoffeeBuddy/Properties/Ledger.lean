import CoffeeBuddy.Services.History
import Mathlib.Algebra.BigOperators.Group.List.Basic

/-! The runner statistics of a channel agree with its closed runs, although two
services write them: the invariant names both tables, and every call preserves it. -/

namespace CoffeeBuddy
open Relational Transaction CloseRunService FairnessService

def closedIn (channel : Uuid) (r : Run) : Bool := r.channelId = channel && r.status = .closed

def servedBy (channel u : Uuid) (r : Run) : Bool := closedIn channel r && r.runnerUserId = some u

def ofChannel (channel : Uuid) (s : RunnerStat) : Bool := s.channelId = channel

/-- The sum of the counts of a channel. -/
def totalServed (channel : Uuid) (t : Table RunnerStat) : ℤ :=
  ((t.select (ofChannel channel)).map RunnerStat.runsServedCount).sum

theorem closedIn_iff {channel : Uuid} {r : Run} :
    closedIn channel r = true ↔ r.channelId = channel ∧ r.status = .closed := by
  simp only [closedIn, Bool.and_eq_true, decide_eq_true_eq]

theorem servedBy_iff {channel u : Uuid} {r : Run} : servedBy channel u r = true ↔
    (r.channelId = channel ∧ r.status = .closed) ∧ r.runnerUserId = some u := by
  simp only [servedBy, closedIn_iff, Bool.and_eq_true, decide_eq_true_eq]

/-- The stats table `t` keeps the accounts of the closed runs of the channel. -/
structure Ledger (channel : Uuid) (runs : Table Run) (t : Table RunnerStat) : Prop where
  unique : OnePerUser channel t
  count : ∀ s ∈ t, s.channelId = channel →
    s.runsServedCount = runs.count (servedBy channel s.userId)
  absent : ∀ u, (∀ s ∈ t, s.channelId = channel → s.userId ≠ u) →
    runs.count (servedBy channel u) = 0
  lastRun : ∀ s ∈ t, s.channelId = channel → (s.lastRunAt = none ↔ s.runsServedCount = 0)
  total : totalServed channel t = runs.count (closedIn channel)

section Ledger
variable {channel : Uuid} {runs runs' : Table Run} {t t' : Table RunnerStat}

/-- A channel whose history starts. -/
structure Fresh (channel : Uuid) (db : Db) : Prop where
  runs : ∀ r ∈ db.runs, r.channelId = channel → r.status ≠ .closed
  stats : ∀ s ∈ db.runnerStats, s.channelId ≠ channel

theorem Fresh.ledger {db : Db} (h : Fresh channel db) : Ledger channel db.runs db.runnerStats where
  unique s hs _ _ hc _ _ := absurd hc (h.stats s hs)
  count s hs hc := absurd hc (h.stats s hs)
  absent u _ := Table.count_eq_zero.mpr fun r hr hserved =>
    h.runs r hr (servedBy_iff.mp hserved).1.1 (servedBy_iff.mp hserved).1.2
  lastRun s hs hc := absurd hc (h.stats s hs)
  total := by
    have hnone : db.runnerStats.select (ofChannel channel) = [] :=
      List.filter_eq_nil_iff.mpr fun s hs hc => h.stats s hs (of_decide_eq_true hc)
    rw [totalServed, hnone, List.map_nil, List.sum_nil, eq_comm, Int.natCast_eq_zero,
      Table.count_eq_zero]
    exact fun r hr hclosed => h.runs r hr (closedIn_iff.mp hclosed).1 (closedIn_iff.mp hclosed).2

theorem Ledger.congr (h : Ledger channel runs t)
    (hstats : ∀ s, s.channelId = channel → (s ∈ t' ↔ s ∈ t))
    (hserved : ∀ u, runs'.count (servedBy channel u) = runs.count (servedBy channel u))
    (hclosed : runs'.count (closedIn channel) = runs.count (closedIn channel)) :
    Ledger channel runs' t' where
  unique s hs s' hs' hc hc' := h.unique s ((hstats s hc).mp hs) s' ((hstats s' hc').mp hs') hc hc'
  count s hs hc := by rw [hserved, h.count s ((hstats s hc).mp hs) hc]
  absent u hu := by
    rw [hserved]
    exact h.absent u fun s hs hc => hu s ((hstats s hc).mpr hs) hc
  lastRun s hs hc := h.lastRun s ((hstats s hc).mp hs) hc
  total := by
    have hperm : (t'.select (ofChannel channel)).Perm (t.select (ofChannel channel)) :=
      Table.select_perm fun s hs => hstats s (of_decide_eq_true hs)
    rw [hclosed, ← h.total, totalServed, totalServed, (hperm.map _).sum_eq]

theorem Ledger.congr_runs (h : Ledger channel runs t)
    (hruns : ∀ r, r.channelId = channel → r.status = .closed → (r ∈ runs' ↔ r ∈ runs))
    (hstats : ∀ s, s.channelId = channel → (s ∈ t' ↔ s ∈ t)) : Ledger channel runs' t' := by
  refine h.congr hstats (fun u => ?_) ?_
  · rw [Table.count_eq_length, Table.count_eq_length]
    exact (Table.select_perm fun r hr =>
      hruns r (servedBy_iff.mp hr).1.1 (servedBy_iff.mp hr).1.2).length_eq
  · rw [Table.count_eq_length, Table.count_eq_length]
    exact (Table.select_perm fun r hr =>
      hruns r (closedIn_iff.mp hr).1 (closedIn_iff.mp hr).2).length_eq

theorem Ledger.prepared (h : Ledger channel runs t) {users : List Uuid} {loaded : Table RunnerStat}
    (hp : Prepared channel users t loaded) : Ledger channel runs loaded := by
  obtain ⟨⟨created, hrows, hnew⟩, hone, -⟩ := hp
  have hmem : ∀ s, s ∈ loaded ↔ s ∈ t ∨ s ∈ created := fun s => by
    rw [← Table.mem_rows, hrows, List.mem_append, Table.mem_rows]
  have hzero : ∀ s ∈ created, runs.count (servedBy channel s.userId) = 0 := fun s hs =>
    h.absent _ (hnew s hs).2.2.2.2
  refine ⟨hone, fun s hs hc => ?_, fun u hu => ?_, fun s hs hc => ?_, ?_⟩
  · rcases (hmem s).mp hs with hs | hs
    · exact h.count s hs hc
    · rw [(hnew s hs).2.2.1, hzero s hs, Nat.cast_zero]
  · exact h.absent u fun s hs => hu s ((hmem s).mpr (Or.inl hs))
  · rcases (hmem s).mp hs with hs | hs
    · exact h.lastRun s hs hc
    · obtain ⟨-, -, hn, hl, -⟩ := hnew s hs
      exact iff_of_true hl hn
  · have hsum : ((created.filter (ofChannel channel)).map RunnerStat.runsServedCount).sum = 0 := by
      refine List.sum_eq_zero fun n hn => ?_
      obtain ⟨s, hs, rfl⟩ := List.mem_map.mp hn
      exact (hnew s (List.mem_of_mem_filter hs)).2.2.1
    rw [← h.total, totalServed, totalServed, Table.select, hrows, List.filter_append,
      List.map_append, List.sum_append, hsum, add_zero, Table.select]

theorem totalServed_eq (channel : Uuid) (t : Table RunnerStat) : totalServed channel t =
    (t.rows.map fun s => if s.channelId = channel then s.runsServedCount else 0).sum := by
  rw [List.sum_map_ite, List.map_const', List.sum_replicate, nsmul_zero, add_zero]
  rfl

/-- Closing an open run adds one to the count of a predicate that its final row meets. -/
theorem count_finalized {run : Run} (hrun : run ∈ runs) (u : Uuid) (now : Timestamp)
    (hopen : run.status = .open) (p : Run → Bool) (hp : p run = true → run.status = .closed) :
    (runs.update run (finalized run u now)).count p =
      runs.count p + if p (finalized run u now) then 1 else 0 := by
  have hnot : p run = false := Bool.eq_false_iff.mpr fun h => by
    rw [hopen] at hp
    exact RunStatus.noConfusion (hp h)
  have hcount := Table.count_update hrun
    (show Keyed.key (finalized run u now) = Keyed.key run from rfl) p
  simpa only [hnot, Bool.false_eq_true, if_false, add_zero] using hcount

section Finalized
variable {run : Run} {u : Uuid} {now : Timestamp}

theorem count_servedBy_finalized (hrun : run ∈ runs) (hopen : run.status = .open)
    (hchannel : run.channelId = channel) (v : Uuid) :
    (runs.update run (finalized run u now)).count (servedBy channel v) =
      runs.count (servedBy channel v) + if u = v then 1 else 0 := by
  have hfin : servedBy channel v (finalized run u now) = true ↔ u = v := by
    simp [servedBy_iff, finalized, hchannel]
  simpa only [hfin] using count_finalized hrun u now hopen (servedBy channel v)
    fun hs => (servedBy_iff.mp hs).1.2

theorem count_closedIn_finalized (hrun : run ∈ runs) (hopen : run.status = .open)
    (hchannel : run.channelId = channel) :
    (runs.update run (finalized run u now)).count (closedIn channel) =
      runs.count (closedIn channel) + 1 := by
  have hfin : closedIn channel (finalized run u now) = true := closedIn_iff.mpr ⟨hchannel, rfl⟩
  simpa only [hfin, if_true] using count_finalized hrun u now hopen (closedIn channel)
    fun hs => (closedIn_iff.mp hs).2

end Finalized

/-- Closing a run and crediting its runner go together. -/
theorem Ledger.closed (h : Ledger channel runs t) {run : Run} {chosen : RunnerStat}
    {now creditedAt : Timestamp} (hrun : run ∈ runs) (hopen : run.status = .open)
    (hchannel : run.channelId = channel) (hchosen : chosen ∈ t) (hc : chosen.channelId = channel) :
    Ledger channel (runs.update run (finalized run chosen.userId now))
      (t.update chosen (credited chosen creditedAt)) := by
  have hserved : ∀ u, (runs.update run (finalized run chosen.userId now)).count
      (servedBy channel u) = runs.count (servedBy channel u) + if chosen.userId = u then 1 else 0 :=
    count_servedBy_finalized hrun hopen hchannel
  have hclosed : (runs.update run (finalized run chosen.userId now)).count (closedIn channel) =
      runs.count (closedIn channel) + 1 := count_closedIn_finalized hrun hopen hchannel
  have hmem : ∀ s, s ∈ t.update chosen (credited chosen creditedAt) ↔
      s = credited chosen creditedAt ∨ s ∈ t ∧ s.id ≠ chosen.id :=
    fun s => Table.mem_update hchosen (by rfl)
  -- one row per user, so every other row of the channel is somebody else's
  have hother : ∀ s ∈ t, s.id ≠ chosen.id → s.channelId = channel → s.userId ≠ chosen.userId :=
    fun s hs hid hsc hu => hid (congrArg RunnerStat.id (h.unique s hs chosen hchosen hsc hc hu))
  have hcount := h.count chosen hchosen hc
  refine ⟨h.unique.update hchosen rfl rfl rfl, fun s hs hsc => ?_, fun u hu => ?_,
    fun s hs hsc => ?_, ?_⟩
  · rcases (hmem s).mp hs with rfl | ⟨hs, hid⟩
    · rw [hserved, credited_userId, if_pos rfl, Nat.cast_add, Nat.cast_one, ← hcount,
        credited_runsServedCount]
    · rw [hserved, if_neg (hother s hs hid hsc).symm, add_zero]
      exact h.count s hs hsc
  · have hne : chosen.userId ≠ u :=
      hu (credited chosen creditedAt) ((hmem _).mpr (Or.inl rfl)) hc
    rw [hserved, if_neg hne, add_zero]
    refine h.absent u fun s hs hsc hsu => ?_
    by_cases hid : s.id = chosen.id
    · exact hne ((congrArg RunnerStat.userId (Table.eq_of_key hs hchosen hid)).symm.trans hsu)
    · exact hu s ((hmem s).mpr (Or.inr ⟨hs, hid⟩)) hsc hsu
  · rcases (hmem s).mp hs with rfl | ⟨hs, -⟩
    · have hpos : chosen.runsServedCount + 1 ≠ 0 := by omega
      exact iff_of_false (Option.some_ne_none creditedAt) hpos
    · exact h.lastRun s hs hsc
  · have hsum := Table.sum_update hchosen
      (show Keyed.key (credited chosen creditedAt) = Keyed.key chosen from rfl)
      fun s => if s.channelId = channel then s.runsServedCount else 0
    rw [← totalServed_eq, ← totalServed_eq, h.total] at hsum
    simp only [credited_channelId, credited_runsServedCount, hc, if_true] at hsum
    rw [hclosed]
    push_cast
    omega

/-- A reset takes the runs and the stats of its channel together. -/
theorem fresh_purged (channel : Uuid) (db : Db) : Fresh channel (AdminService.purged channel db) where
  runs _ hr hc _ := of_decide_eq_false (Table.mem_delete.mp hr).2 hc
  stats _ hs := of_decide_eq_false (Table.mem_delete.mp hs).2

end Ledger

/-! ### Histories -/

section Histories
variable {s : Database} {channel : Uuid} {db db' : Db} {l : Label}

theorem Ledger.step (h : Ledger channel db.runs db.runnerStats) (he : Effect s db l db') :
    Ledger channel db'.runs db'.runnerStats := by
  cases he with
  | failed | ordered | canceled | idle | configured => exact h
  | created run runs hi =>
    refine h.congr_runs (fun r _ hr => (Table.mem_insert hi).trans (or_iff_left ?_))
      fun _ _ => Iff.rfl
    rintro rfl
    cases hr
  | closed authorizer request now d result db' hclose =>
    by_cases hres : result.channelId = channel.str
    · obtain ⟨run, runner, loaded, chosen, creditedAt, hch, hcl, hrunner, hprep, hchosen, hstats⟩ :=
        credited_of_returns h.unique hres hclose
      obtain ⟨stats, rfl⟩ := hcl.written
      rw [hstats, ← hrunner]
      exact (h.prepared hprep).closed hcl.mem hcl.wasOpen hch hchosen.mem hchosen.channelId
    · obtain ⟨run, runner, hcl⟩ := closes_of_returns hclose
      have hne : run.channelId ≠ channel := fun hc => hres (hcl.channelId.trans (congrArg _ hc))
      have hother := hcl.otherStats
      obtain ⟨stats, rfl⟩ := hcl.written
      refine h.congr_runs (fun r hc _ => (Table.mem_update hcl.mem (by rfl)).trans ?_)
        fun st hc => hother st fun hsc => hne (hsc.symm.trans hc)
      constructor
      · rintro (rfl | ⟨hr, -⟩)
        · exact absurd hc hne
        · exact hr
      · exact fun hr => Or.inr ⟨hr, fun hk => hne (Table.eq_of_key hr hcl.mem hk ▸ hc)⟩
  | reset l row modified actions hc hrow hid =>
    by_cases hch : channel = row.id
    · subst hch
      exact (fresh_purged row.id db).ledger
    · refine h.congr_runs (fun r hrc _ => Table.mem_delete.trans (and_iff_left ?_))
        fun st hsc => Table.mem_delete.trans (and_iff_left ?_)
      · exact decide_eq_false fun hr => hch (hrc.symm.trans hr)
      · exact decide_eq_false fun hs => hch (hsc.symm.trans hs)

theorem ledger_of_history {db₀ : Db} {es : List Event} (h : History s db₀ es db)
    (h₀ : Ledger channel db₀.runs db₀.runnerStats) : Ledger channel db.runs db.runnerStats :=
  h.invariant (I := fun db => Ledger channel db.runs db.runnerStats)
    (fun _ _ _ hstep hI => hI.step (effect_of_step hstep)) h₀

/-- `runs_served_count`, or 0 when there is no row. -/
def runsServed (channel u : Uuid) (db : Db) : ℤ :=
  ((db.runnerStats.rows.find? fun st => st.channelId = channel && st.userId = u).map
    RunnerStat.runsServedCount).getD 0

theorem runsServed_of_mem {u : Uuid} (h : OnePerUser channel db.runnerStats) {st : RunnerStat}
    (hst : st ∈ db.runnerStats) (hc : st.channelId = channel) (hu : st.userId = u) :
    runsServed channel u db = st.runsServedCount := by
  unfold runsServed
  cases hf : db.runnerStats.rows.find? fun st => st.channelId = channel && st.userId = u with
  | none =>
    have hnone := List.find?_eq_none.mp hf st hst
    exact absurd (by rw [hc, hu, decide_eq_true rfl, decide_eq_true rfl]; rfl) hnone
  | some st' =>
    obtain ⟨hc', hu'⟩ : st'.channelId = channel ∧ st'.userId = u := by
      simpa only [Bool.and_eq_true, decide_eq_true_eq] using List.find?_some hf
    rw [h st' (List.mem_of_find?_eq_some hf) st hst hc' hc (hu'.trans hu.symm)]
    rfl

theorem runsServed_of_absent {u : Uuid}
    (h : ∀ st ∈ db.runnerStats, st.channelId = channel → st.userId ≠ u) :
    runsServed channel u db = 0 := by
  unfold runsServed
  rw [List.find?_eq_none.mpr fun st hst => by simpa using h st hst]
  rfl

theorem Ledger.runsServed (h : Ledger channel db.runs db.runnerStats) (u : Uuid) :
    runsServed channel u db = db.runs.count (servedBy channel u) := by
  by_cases hrow : ∃ st ∈ db.runnerStats, st.channelId = channel ∧ st.userId = u
  · obtain ⟨st, hst, hc, rfl⟩ := hrow
    exact (runsServed_of_mem h.unique hst hc rfl).trans (h.count st hst hc)
  · have hnone : ∀ st ∈ db.runnerStats, st.channelId = channel → st.userId ≠ u :=
      fun st hst hc hu => hrow ⟨st, hst, hc, hu⟩
    rw [runsServed_of_absent hnone, h.absent u hnone]
    rfl

end Histories

theorem runner_stats_agree_with_runs (s : Database) (db₀ db : Db) (es : List Event)
    (hruns : db₀.runs.rows = []) (hstats : db₀.runnerStats.rows = []) (h : History s db₀ es db)
    (channel : Uuid) :
    (∀ u, runsServed channel u db = db.runs.count (servedBy channel u)) ∧
    (∀ st ∈ db.runnerStats, st.channelId = channel →
      (st.lastRunAt = none ↔ db.runs.count (servedBy channel st.userId) = 0)) ∧
    totalServed channel db.runnerStats = db.runs.count (closedIn channel) := by
  have hfresh : Fresh channel db₀ := by
    constructor
    · intro r hr
      rw [← Table.mem_rows, hruns] at hr
      exact absurd hr List.not_mem_nil
    · intro st hs
      rw [← Table.mem_rows, hstats] at hs
      exact absurd hs List.not_mem_nil
  have hledger := ledger_of_history h hfresh.ledger
  refine ⟨hledger.runsServed, fun st hs hc => ?_, hledger.total⟩
  rw [hledger.lastRun st hs hc, hledger.count st hs hc, Nat.cast_eq_zero]

/-! ### One run closed -/

namespace Sample

def orderAndClose : List Call := [.createRun (newRun 11), submit 1 11 alice, close 2 11 false]

theorem runsServed_orderAndClose :
    runsServed channel.id alice.id (finalDb database db orderAndClose) = 1 := by
  decide +kernel

end Sample

open Sample in
theorem runner_stats_agree_with_runs_closed :
    (finalDb database db orderAndClose).runs.count (servedBy channel.id alice.id) = 1 := by
  have h := (runner_stats_agree_with_runs database db (finalDb database db orderAndClose)
    (replay database db orderAndClose) rfl rfl (history_replay _ _ _) channel.id).1 alice.id
  exact Nat.cast_injective (h.symm.trans runsServed_orderAndClose)

end CoffeeBuddy

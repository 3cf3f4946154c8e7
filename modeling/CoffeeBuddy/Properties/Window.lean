import CoffeeBuddy.Properties.Rotation

/-! The fairness window. The setting says over how many recent runs the load is to be
compared; the choice compares the counts of all runs ever served, so it meets the
setting exactly when the two orders agree on who comes first. -/

namespace CoffeeBuddy
open Relational Transaction CloseRunService FairnessService

/-- How many of the last `window` closed runs of the channel `u` served. -/
def windowServed (window : ℤ) (channel u : Uuid) (runs : Table Run) : ℕ :=
  ((orderBy closedLater (runs.select (closedIn channel))).take window.toNat).countP
    fun r => r.runnerUserId = some u

theorem windowServed_eq_zero {window : ℤ} {channel u : Uuid} {runs : Table Run}
    (h : runs.count (servedBy channel u) = 0) : windowServed window channel u runs = 0 := by
  refine List.countP_eq_zero.mpr fun r hr hu => ?_
  obtain ⟨hr, hc⟩ := Table.mem_select.mp (mem_orderBy.mp (List.mem_of_mem_take hr))
  refine Table.count_eq_zero.mp h r hr (servedBy_iff.mpr ⟨closedIn_iff.mp hc, ?_⟩)
  exact of_decide_eq_true hu

/-- Among the users that may be chosen in a close of `run`, `P` picks some with a least
number of runs in the channel's current window. -/
def LeastInWindow (s : Database) (channel : Uuid) (e : Event) (P : Run → Closing → Uuid → Prop) :
    Prop :=
  ∀ c run row u, closing channel e.label = some c → Uuid.parse c.request.runId = some run.id →
    run ∈ e.before.runs → row ∈ e.before.channels → row.id = channel → P run c u →
    ∀ v, Eligible (participantIds s.collation run.id e.before) (previousRunner run e.before)
        c.request.allowImmediateRepeat v →
      windowServed row.fairnessWindowRuns channel u e.before.runs ≤
        windowServed row.fairnessWindowRuns channel v e.before.runs

/-- The configured window governs a close: its runner has served least in it. -/
def WindowGoverns (s : Database) (channel : Uuid) (e : Event) : Prop :=
  LeastInWindow s channel e fun _ c u => c.result.runnerUserId = u.str

/-- `u` comes first by all runs served, last run, row creation and id; everyone eligible
has a row. -/
def FirstServed (channel : Uuid) (users : List Uuid) (last : Option Uuid) (allow : Bool)
    (t : Table RunnerStat) (u : Uuid) : Prop :=
  Eligible users last allow u ∧ ∃ st ∈ t, st.channelId = channel ∧ st.userId = u ∧
    ∀ v, Eligible users last allow v → ∃ st' ∈ t, st'.channelId = channel ∧ st'.userId = v ∧
      sortKey st ≤ sortKey st'

/-- Before a close, the user with the least total has served least in the window too. -/
def TotalsAgree (s : Database) (channel : Uuid) (e : Event) : Prop :=
  LeastInWindow s channel e fun run c u =>
    FirstServed channel (participantIds s.collation run.id e.before) (previousRunner run e.before)
      c.request.allowImmediateRepeat e.before.runnerStats u

section Choice
variable {s : Database} {channel : Uuid} {db db' : Db} {l : Label}

theorem user_eq_of_sortKey {st st' : RunnerStat} (h : sortKey st = sortKey st') :
    st.userId = st'.userId := by
  have hkey := congrArg (fun k : ℤ ×ₗ Timestamp ×ₗ Timestamp ×ₗ String => (ofLex k).2) h
  have huser := congrArg (fun k => (ofLex (ofLex k).2).2) hkey
  exact Uuid.str_inj.mp huser

/-- Somebody without a row has served nothing, and then nobody chosen has. -/
theorem chosen_of_firstServed {users : List Uuid} {last : Option Uuid} {allow : Bool}
    {t loaded : Table RunnerStat} {chosen : RunnerStat} (hp : Prepared channel users t loaded)
    (hc : Chosen channel users last allow loaded chosen) {u : Uuid}
    (hu : FirstServed channel users last allow t u) : chosen.userId = u := by
  obtain ⟨hue, st, hst, hsc, rfl, hleast⟩ := hu
  obtain ⟨⟨created, hrows, -⟩, hone, -⟩ := hp
  have hold : ∀ x ∈ t, x ∈ loaded := fun x hx =>
    Table.mem_rows.mp (hrows ▸ List.mem_append_left _ hx)
  obtain ⟨st', hst', hsc', hsu', hle⟩ := hleast chosen.userId hc.eligible
  obtain rfl := hone st' (hold st' hst') chosen hc.mem hsc' hc.channelId hsu'
  exact user_eq_of_sortKey (le_antisymm (hc.least st (hold st hst) hsc hue) hle)

theorem firstServed_or_absent {users : List Uuid} {last : Option Uuid} {allow : Bool}
    {t loaded : Table RunnerStat} {chosen : RunnerStat} (hp : Prepared channel users t loaded)
    (hc : Chosen channel users last allow loaded chosen) :
    FirstServed channel users last allow t chosen.userId ∨ chosen.runsServedCount ≤ 0 := by
  obtain ⟨⟨created, hrows, hnew⟩, hone, hcovers⟩ := hp
  have hmem : ∀ x, x ∈ loaded ↔ x ∈ t ∨ x ∈ created := fun x => by
    rw [← Table.mem_rows, hrows, List.mem_append, Table.mem_rows]
  by_cases hall : ∀ v, Eligible users last allow v → ∃ x ∈ t, x.channelId = channel ∧ x.userId = v
  · left
    have hstored : ∀ v, Eligible users last allow v → ∀ x ∈ loaded, x.channelId = channel →
        x.userId = v → x ∈ t := by
      intro v hv x hx hxc hxv
      obtain ⟨y, hy, hyc, hyv⟩ := hall v hv
      exact hone x hx y ((hmem y).mpr (Or.inl hy)) hxc hyc (hxv.trans hyv.symm) ▸ hy
    refine ⟨hc.eligible, chosen, hstored _ hc.eligible chosen hc.mem hc.channelId rfl, hc.channelId,
      rfl, fun v hv => ?_⟩
    obtain ⟨y, hy, hyc, hyv⟩ := hall v hv
    exact ⟨y, hy, hyc, hyv, hc.least y ((hmem y).mpr (Or.inl hy)) hyc (hyv ▸ hv)⟩
  · right
    push Not at hall
    obtain ⟨v, hv, hnone⟩ := hall
    obtain ⟨x, hx, hxc, hxv⟩ := hcovers v hv.1
    have hblank : x ∈ created := ((hmem x).mp hx).resolve_left fun hx => hnone x hx hxc hxv
    rw [← (hnew x hblank).2.2.1]
    exact count_le_of_sortKey_le (hc.least x hx hxc (hxv ▸ hv))

theorem windowGoverns_iff (hledger : Ledger channel db.runs db.runnerStats)
    (he : Effect s db l db') :
    WindowGoverns s channel ⟨db, l, db'⟩ ↔ TotalsAgree s channel ⟨db, l, db'⟩ := by
  -- the close, if the step is one, with the row it credited
  have hclose : ∀ c run, closing channel l = some c → Uuid.parse c.request.runId = some run.id →
      run ∈ db.runs → ∃ loaded chosen, c.result.runnerUserId = chosen.userId.str ∧
        Prepared channel (participantIds s.collation run.id db) db.runnerStats loaded ∧
        Chosen channel (participantIds s.collation run.id db) (previousRunner run db)
          c.request.allowImmediateRepeat loaded chosen := by
    intro c run hc hid hrun
    obtain ⟨hrep, hres⟩ := closing_eq_some.mp hc
    obtain ⟨authorizer, now, d, hret⟩ := he.returns_closeRun hrep
    obtain ⟨run', runner, loaded, chosen, creditedAt, hch, hcl, hrunner, hprep, hchosen, -⟩ :=
      credited_of_returns hledger.unique hres hret
    obtain rfl := Table.eq_of_key hrun hcl.mem (Option.some.inj (hid.symm.trans hcl.id))
    exact ⟨loaded, chosen, hrunner ▸ hcl.runnerUserId, hprep, hchosen⟩
  constructor
  · intro h c run row u hc hid hrun hrow hrid hu v hv
    obtain ⟨loaded, chosen, hrunner, hprep, hchosen⟩ := hclose c run hc hid hrun
    obtain rfl := chosen_of_firstServed hprep hchosen hu
    exact h c run row _ hc hid hrun hrow hrid hrunner v hv
  · intro h c run row u hc hid hrun hrow hrid hu v hv
    obtain ⟨loaded, chosen, hrunner, hprep, hchosen⟩ := hclose c run hc hid hrun
    obtain rfl : chosen.userId = u := Uuid.str_inj.mp (hrunner.symm.trans hu)
    rcases firstServed_or_absent hprep hchosen with hfirst | hzero
    · exact h c run row _ hc hid hrun hrow hrid hfirst v hv
    · have hcount := (hledger.prepared hprep).count chosen hchosen.mem hchosen.channelId
      have hnone : db.runs.count (servedBy channel chosen.userId) = 0 := by omega
      exact (windowServed_eq_zero hnone).trans_le (Nat.zero_le _)

end Choice

theorem window_governs_iff_totals_agree (s : Database) (channel : Uuid) (db₀ db : Db)
    (es : List Event) (h : History s db₀ es db) (hfresh : Fresh channel db₀) :
    (∀ e ∈ es, WindowGoverns s channel e) ↔ ∀ e ∈ es, TotalsAgree s channel e := by
  refine forall₂_congr fun e he => ?_
  obtain ⟨es₁, es₂, rfl⟩ := List.append_of_mem he
  obtain ⟨hstart, hstep, -⟩ := Transition.Path.split_iff.mp h
  exact windowGoverns_iff (ledger_of_history hstart hfresh.ledger) (effect_of_step hstep)

/-! ### Four closes -/

namespace Sample

/-- Four open runs: alice orders alone in two, bob in one and both in the last. -/
def fourRuns : Db :=
  { db with
    runs := ⟨[(newRun 11).row, (newRun 12).row, (newRun 13).row, (newRun 14).row], by decide⟩
    orders := ⟨[order 11 alice, order 12 alice, order 13 bob, order 14 alice, order 14 bob],
      by decide⟩ }

def fourCloses : List Call := [close 1 11 true, close 2 12 true, close 3 13 true, close 4 14 true]

def lastClose : Event := (replay database fourRuns fourCloses).get ⟨3, by decide⟩

def lastRequest : CloseRunRequest :=
  { runId := (Uuid.ofNat 14).str, actorUserId := "", allowImmediateRepeat := true }

theorem lastClose_facts :
    ((closing channel.id lastClose.label).map fun c => (c.request, c.result.runnerUserId)) =
      some (lastRequest, bob.id.str) ∧
    Eligible (participantIds database.collation (newRun 14).id lastClose.before)
      (previousRunner (newRun 14).row lastClose.before) true alice.id ∧
    (newRun 14).row ∈ lastClose.before.runs ∧ channel ∈ lastClose.before.channels ∧
    windowServed 1 channel.id alice.id lastClose.before.runs <
      windowServed 1 channel.id bob.id lastClose.before.runs := by
  decide +kernel

end Sample

open Sample in
/-- Alice has served two of the three closed runs, bob the third: bob serves again. -/
theorem window_not_governing :
    Fresh channel.id fourRuns ∧
      History database fourRuns (replay database fourRuns fourCloses)
        (finalDb database fourRuns fourCloses) ∧
      ¬∀ e ∈ replay database fourRuns fourCloses, WindowGoverns database channel.id e := by
  refine ⟨⟨by decide, by decide⟩, history_replay _ _ _, fun h => ?_⟩
  obtain ⟨hclose, heligible, hrun, hchannel, hserved⟩ := lastClose_facts
  obtain ⟨c, hc, hfacts⟩ := Option.map_eq_some_iff.mp hclose
  obtain ⟨hrequest, hrunner⟩ := Prod.mk.inj hfacts
  have hid : Uuid.parse c.request.runId = some (newRun 14).row.id := by
    rw [hrequest]
    exact Uuid.parse_str (.ofNat 14)
  refine absurd (h lastClose (List.get_mem _ _) c _ channel bob.id hc hid hrun hchannel rfl hrunner
    alice.id ?_) (Nat.not_le.mpr hserved)
  rw [hrequest]
  exact heligible

namespace Sample

/-- Alice serves alone, then bob, then alice again, who has not served in the window of one run. -/
def threeCloses : List Call := [close 1 11 true, close 2 13 true, close 3 14 true]

theorem threeCloses_facts :
    (∀ e ∈ replay database fourRuns threeCloses, (closing channel.id e.label).isSome = true) ∧
    ∀ e ∈ replay database fourRuns threeCloses, ∀ c ∈ (closing channel.id e.label).toList,
      ∀ run ∈ e.before.runs.rows, Uuid.parse c.request.runId = some run.id →
      ∀ row ∈ e.before.channels.rows, ∀ u ∈ (Uuid.parse c.result.runnerUserId).toList,
      ∀ v ∈ participantIds database.collation run.id e.before,
        windowServed row.fairnessWindowRuns channel.id u e.before.runs ≤
          windowServed row.fairnessWindowRuns channel.id v e.before.runs := by
  decide +kernel

theorem threeCloses_governed :
    ∀ e ∈ replay database fourRuns threeCloses, WindowGoverns database channel.id e := by
  intro e he c run row u hc hid hrun hrow _ hu v hv
  have hrunner : u ∈ (Uuid.parse c.result.runnerUserId).toList := by
    rw [hu, Uuid.parse_str]
    exact List.mem_cons_self
  exact threeCloses_facts.2 e he c (Option.mem_toList.mpr hc) run hrun hid row hrow u hrunner v hv.1

end Sample

open Sample in
/-- Three closes with a window of one run, each by a user who has served least in it. -/
theorem window_governs_iff_totals_agree_three :
    (∀ e ∈ replay database fourRuns threeCloses, (closing channel.id e.label).isSome = true) ∧
    channel.fairnessWindowRuns = 1 ∧
    ∀ e ∈ replay database fourRuns threeCloses, TotalsAgree database channel.id e := by
  have hiff := window_governs_iff_totals_agree database channel.id fourRuns
    (finalDb database fourRuns threeCloses) (replay database fourRuns threeCloses)
    (history_replay _ _ _) ⟨by decide, by decide⟩
  exact ⟨threeCloses_facts.1, rfl, hiff.mp threeCloses_governed⟩

end CoffeeBuddy

import CoffeeBuddy.Properties.Ledger
import CoffeeBuddy.Services.Acceptance
import CoffeeBuddy.Services.Sessions

/-! Closes against closes. A close writes the count of its runner as one more than what
it read, and its run as closed whatever became of it: the books balance exactly when
neither was stale. -/

namespace CoffeeBuddy
open Relational Transaction CloseRunService FairnessService

/-! ### What stays -/

/-- Closes go forward only: a run that is still open is as it was, and a row of stats keeps
its user and channel. -/
structure Later (db db' : Db) : Prop where
  runs : ∀ r ∈ db.runs, ∃ r' ∈ db'.runs, r'.id = r.id ∧ (r'.status = .open → r' = r)
  noNewRuns : ∀ r' ∈ db'.runs, ∃ r ∈ db.runs, r.id = r'.id
  stats : ∀ st ∈ db.runnerStats, ∃ st' ∈ db'.runnerStats, st'.id = st.id ∧
    st'.userId = st.userId ∧ st'.channelId = st.channelId

theorem Later.refl (db : Db) : Later db db where
  runs r hr := ⟨r, hr, rfl, fun _ => rfl⟩
  noNewRuns r hr := ⟨r, hr, rfl⟩
  stats st hst := ⟨st, hst, rfl, rfl, rfl⟩

theorem Later.trans {db₁ db₂ db₃ : Db} (h : Later db₁ db₂) (h' : Later db₂ db₃) :
    Later db₁ db₃ where
  runs r hr := by
    obtain ⟨r', hr', hid, hopen⟩ := h.runs r hr
    obtain ⟨r'', hr'', hid', hopen'⟩ := h'.runs r' hr'
    refine ⟨r'', hr'', hid'.trans hid, fun ho => ?_⟩
    obtain rfl := hopen' ho
    exact hopen ho
  noNewRuns r hr := by
    obtain ⟨r', hr', hid⟩ := h'.noNewRuns r hr
    obtain ⟨r'', hr'', hid'⟩ := h.noNewRuns r' hr'
    exact ⟨r'', hr'', hid'.trans hid⟩
  stats st hst := by
    obtain ⟨st', hst', hid, hu, hc⟩ := h.stats st hst
    obtain ⟨st'', hst'', hid', hu', hc'⟩ := h'.stats st' hst'
    exact ⟨st'', hst'', hid'.trans hid, hu'.trans hu, hc'.trans hc⟩

theorem Later.open_iff {db db' : Db} (h : Later db db') {r r' : Run} (hr : r ∈ db.runs)
    (hr' : r' ∈ db'.runs) (hid : r'.id = r.id) (ho : r'.status = .open) : r' = r := by
  obtain ⟨r'', hr'', hid', hopen⟩ := h.runs r hr
  obtain rfl := Table.eq_of_key hr' hr'' (hid.trans hid'.symm)
  exact hopen ho

/-! ### What a close commits -/

/-- `db'` is `db` after the commit of a close of `run` in favour of `chosen`, decided on
the stats in `statsRead`. -/
structure Credits (run : Run) (chosen : RunnerStat) (statsRead db db' : Db) : Prop where
  wasOpen : run.status = .open
  runs : ∃ now, db'.runs = db.runs.update run (finalized run chosen.userId now)
  channelId : chosen.channelId = run.channelId
  count : chosen.runsServedCount = runsServed run.channelId chosen.userId statsRead
  stats : ∃ (t : Table RunnerStat) (created : List RunnerStat) (creditedAt : Timestamp),
    t.rows = db.runnerStats.rows ++ created ∧
    db'.runnerStats = t.update chosen (credited chosen creditedAt) ∧
    (∀ st ∈ created, st.runsServedCount = 0) ∧
    ∃ st ∈ t, st.id = chosen.id ∧ st.userId = chosen.userId ∧ st.channelId = run.channelId

section Credits
variable {run : Run} {chosen : RunnerStat} {statsRead db db' : Db}

theorem merge_credited (chosen st : RunnerStat) (creditedAt : Timestamp) :
    (Row.merge chosen (credited chosen creditedAt) st).userId = st.userId ∧
    (Row.merge chosen (credited chosen creditedAt) st).channelId = st.channelId ∧
    (Row.merge chosen (credited chosen creditedAt) st).runsServedCount =
      chosen.runsServedCount + 1 :=
  ⟨column_unchanged _ _, column_unchanged _ _, column_changed (by simp) _⟩

theorem status_finalized (hopen : run.status = .open) (u : Uuid) (now : Timestamp) (r : Run) :
    (Row.merge run (finalized run u now) r).status = .closed :=
  column_changed (by simp [finalized, hopen]) _

theorem Credits.later (h : Credits run chosen statsRead db db') : Later db db' := by
  obtain ⟨now, hruns⟩ := h.runs
  obtain ⟨t, created, creditedAt, ht, hstats, -, -⟩ := h.stats
  refine ⟨fun r hr => ?_, fun r' hr' => ?_, fun st hst => ?_⟩
  · rw [hruns]
    refine ⟨_, Table.mem_update'.mpr ⟨r, hr, rfl⟩, ?_, ?_⟩
    · split_ifs
      · exact Row.key_merge run _ r
      · rfl
    · split_ifs with hid
      · rw [status_finalized h.wasOpen]
        exact fun ho => absurd ho (by decide)
      · exact fun _ => rfl
  · rw [hruns] at hr'
    obtain ⟨r, hr, rfl⟩ := Table.mem_update'.mp hr'
    refine ⟨r, hr, ?_⟩
    split_ifs
    · exact (Row.key_merge run _ r).symm
    · rfl
  · rw [hstats]
    have hmem : st ∈ t := Table.mem_rows.mp (ht ▸ List.mem_append_left _ hst)
    refine ⟨_, Table.mem_update'.mpr ⟨st, hmem, rfl⟩, ?_⟩
    split_ifs
    · exact ⟨Row.key_merge chosen _ st, (merge_credited chosen st _).1, (merge_credited chosen st _).2.1⟩
    · exact ⟨rfl, rfl, rfl⟩

/-- The credited count is one more than the count the close read. -/
theorem Credits.served (h : Credits run chosen statsRead db db') (hvalid : db'.Valid) :
    runsServed run.channelId chosen.userId db' =
      runsServed run.channelId chosen.userId statsRead + 1 := by
  obtain ⟨t, created, creditedAt, ht, hstats, -, st, hst, hid, hu, hc⟩ := h.stats
  obtain ⟨hmu, hmc, hcount⟩ := merge_credited chosen st creditedAt
  rw [← h.count, ← hcount]
  refine runsServed_of_mem (onePerUser_of_valid hvalid _) ?_ (hmc.trans hc) (hmu.trans hu)
  rw [hstats]
  exact Table.mem_update'.mpr ⟨st, hst, (if_pos hid).symm⟩

theorem Credits.other (h : Credits run chosen statsRead db db') (hvalid : db.Valid)
    (hvalid' : db'.Valid) {channel u : Uuid}
    (hne : ¬(channel = run.channelId ∧ u = chosen.userId)) :
    runsServed channel u db' = runsServed channel u db := by
  obtain ⟨t, created, creditedAt, ht, hstats, hblank, st, hst, hid, hu, hc⟩ := h.stats
  have hmem : ∀ x, x ∈ t ↔ x ∈ db.runnerStats ∨ x ∈ created := fun x => by
    rw [← Table.mem_rows, ht, List.mem_append, Table.mem_rows]
  -- a row for the user is not the credited one
  have hkey : ∀ x ∈ t, x.channelId = channel → x.userId = u → x.id ≠ chosen.id := by
    rintro x hx rfl rfl hxid
    obtain rfl := Table.eq_of_key hx hst (hxid.trans hid.symm)
    exact hne ⟨hc, hu⟩
  by_cases hrow : ∃ x ∈ db.runnerStats, x.channelId = channel ∧ x.userId = u
  · obtain ⟨x, hx, hxc, hxu⟩ := hrow
    have hxt := (hmem x).mpr (Or.inl hx)
    have hx' : x ∈ db'.runnerStats := by
      rw [hstats]
      exact Table.mem_update'.mpr ⟨x, hxt, (if_neg (hkey x hxt hxc hxu)).symm⟩
    rw [runsServed_of_mem (onePerUser_of_valid hvalid' _) hx' hxc hxu,
      runsServed_of_mem (onePerUser_of_valid hvalid _) hx hxc hxu]
  · push Not at hrow
    rw [runsServed_of_absent hrow]
    by_cases hrow' : ∃ y ∈ db'.runnerStats, y.channelId = channel ∧ y.userId = u
    · obtain ⟨y, hy, hyc, hyu⟩ := hrow'
      rw [runsServed_of_mem (onePerUser_of_valid hvalid' _) hy hyc hyu]
      rw [hstats] at hy
      obtain ⟨x, hx, rfl⟩ := Table.mem_update'.mp hy
      split_ifs at hyc hyu ⊢ with hxid
      · obtain ⟨hmu, hmc, -⟩ := merge_credited chosen x creditedAt
        exact absurd hxid (hkey x hx (hmc.symm.trans hyc) (hmu.symm.trans hyu))
      · rcases (hmem x).mp hx with hold | hnew
        · exact absurd hyu (hrow x hold hyc)
        · exact hblank x hnew
    · push Not at hrow'
      exact runsServed_of_absent hrow'

/-- A run that was open at the start, closed by now and served by `u`. -/
def closedSince (db₀ : Db) (channel u : Uuid) (r : Run) : Bool :=
  servedBy channel u r && db₀.runs.rows.any fun r₀ => r₀.id = r.id && r₀.status = .open

/-- Closing a run that is still open adds it to the runs its runner has served. -/
theorem Credits.closed (h : Credits run chosen statsRead db db') {db₀ : Db} (hlater : Later db₀ db)
    (hrun : run ∈ db.runs) (channel u : Uuid) :
    db'.runs.count (closedSince db₀ channel u) = db.runs.count (closedSince db₀ channel u) +
      if channel = run.channelId ∧ u = chosen.userId then 1 else 0 := by
  obtain ⟨now, hruns⟩ := h.runs
  obtain ⟨r₀, hr₀, hid⟩ := hlater.noNewRuns run hrun
  obtain rfl := hlater.open_iff hr₀ hrun hid.symm h.wasOpen
  have hopen : db₀.runs.rows.any (fun r => r.id = run.id && r.status = .open) = true :=
    List.any_eq_true.mpr ⟨run, hr₀, by simp [h.wasOpen]⟩
  have hbefore : closedSince db₀ channel u run = false := by
    simp [closedSince, servedBy, closedIn, h.wasOpen]
  have hafter : closedSince db₀ channel u (finalized run chosen.userId now) =
      decide (channel = run.channelId ∧ u = chosen.userId) := by
    refine (congrArg (servedBy channel u (finalized run chosen.userId now) && ·) hopen).trans ?_
    simp only [servedBy, closedIn, finalized, decide_true, Bool.and_true, Option.some.injEq,
      eq_comm (a := run.channelId), eq_comm (a := chosen.userId), Bool.decide_and]
  have hcount := Table.count_update hrun (m := finalized run chosen.userId now) rfl
    (closedSince db₀ channel u)
  rw [hbefore, hafter, ← hruns] at hcount
  simpa using hcount

theorem Credits.not_open (h : Credits run chosen statsRead db db') {r : Run} (hr : r ∈ db'.runs)
    (hid : r.id = run.id) : r.status ≠ .open := by
  obtain ⟨now, hruns⟩ := h.runs
  rw [hruns] at hr
  obtain ⟨r', hr', rfl⟩ := Table.mem_update'.mp hr
  split_ifs at hid ⊢ with hkey
  · rw [status_finalized h.wasOpen]
    decide
  · exact absurd hid hkey

end Credits

/-! ### The race -/

section Race
variable {ι : Type} [DecidableEq ι]

def OnlyCloses (calls : ι → Call) : Prop :=
  ∀ i, ∃ authorizer request now d, calls i = .closeRun authorizer request now d

/-- The run a close is asked for. -/
def target : Call → Option Uuid
  | .closeRun _ request _ _ => Uuid.parse request.runId
  | _ => none

def OneClosePerRun (calls : ι → Call) (w : World ι Db Exc Answer) : Prop :=
  ∀ i j a b run, w.sessions i = .committed a → w.sessions j = .committed b →
    target (calls i) = some run → target (calls j) = some run → i = j

/-- What `u` should have served by now: as at the start, and every run closed since. -/
def due (db₀ : Db) (channel u : Uuid) (db : Db) : ℤ :=
  runsServed channel u db₀ + db.runs.count (closedSince db₀ channel u)

def CreditsKept (db₀ db : Db) : Prop :=
  ∀ channel u, runsServed channel u db = due db₀ channel u db

/-- A close that commits finds its run still open in the store. -/
def RunStillOpen (calls : ι → Call) (e : World.Move ι Db Exc Answer) : Prop :=
  ∀ a, World.answer e = some a → ∀ run ∈ e.before.store.runs,
    target (calls e.label) = some run.id → run.status = .open

/-- A close that commits after the moves `es` finds its runner's count in the store as its
fifth statement read it. -/
def CountStill (es : List (World.Move ι Db Exc Answer)) (e : World.Move ι Db Exc Answer) : Prop :=
  ∀ result, World.answer e = some (.closed result) → ∀ seen,
    (World.trail e.label es)[4]? = some (.read seen) → ∀ channel u : Uuid,
      result.channelId = channel.str → result.runnerUserId = u.str →
        runsServed channel u seen = runsServed channel u e.before.store

variable {s : Database} {calls : ι → Call} {db₀ : Db} {es : List (World.Move ι Db Exc Answer)}
  {w : World ι Db Exc Answer} {e : World.Move ι Db Exc Answer}

/-- What a committed close has done to the books. -/
structure Commits (calls : ι → Call) (es : List (World.Move ι Db Exc Answer))
    (e : World.Move ι Db Exc Answer) (result : CloseRunResult) (run : Run) (chosen : RunnerStat)
    (statsRead : Db) : Prop where
  target : target (calls e.label) = some run.id
  channelId : result.channelId = run.channelId.str
  runnerUserId : result.runnerUserId = chosen.userId.str
  credits : Credits run chosen statsRead e.before.store e.after.store
  valid : e.before.store.Valid
  valid' : e.after.store.Valid
  runSeen : ∃ f ∈ es, run ∈ f.before.store.runs
  statsSeen : ∃ f ∈ es, statsRead = f.before.store
  fifth : (World.trail e.label es)[4]? = some (.read statsRead)

theorem commits_of_later (hcloses : OnlyCloses calls) (hvalid : db₀.Valid)
    (h : Interleaving s calls db₀ es e.before) (hlater : ∀ f ∈ es, Later f.before.store e.before.store)
    (hstep : World.step Db.Valid .integrityError e.before e.label e.after) {a : Answer}
    (ha : World.answer e = some a) :
    ∃ result run chosen statsRead, a = .closed result ∧ Commits calls es e result run chosen statsRead := by
  obtain ⟨authorizer, request, now, d, hcall⟩ := hcloses e.label
  obtain ⟨result, rfl, ⟨st⟩, hwritten, hvalid'⟩ := statements_of_answer h hstep hcall ha
  obtain ⟨t, ht, hafter⟩ := st.written hwritten
  -- the run and the stats were each read at an earlier move
  obtain ⟨fs₁, f, fs₂, hf, -, -, hrunRead⟩ := World.read_of_trail h
    (show World.trail e.label es = [] ++ .read st.runRead :: _ from st.statements) rfl
  obtain ⟨_, hsplit⟩ := st.split_statsRead
  obtain ⟨gs₁, g, gs₂, hg, -, -, hstatsRead⟩ := World.read_of_trail h hsplit rfl
  have hfmem : f ∈ es := by simp [hf]
  have hgmem : g ∈ es := by simp [hg]
  have hone := onePerUser_of_valid (World.valid_of_run (Transition.Path.split_iff.mp (hg ▸ h)).1 hvalid)
    st.run.channelId
  rw [← hstatsRead] at hone
  have hchannel : st.chosen.channelId = st.run.channelId :=
    st.loaded.elim And.right fun hnew => (st.blank _ hnew).1
  refine ⟨result, st.run, st.chosen, st.statsRead, rfl, ?_⟩
  refine ⟨by rw [hcall]; exact st.id, st.channelId, st.runnerUserId, ?_, World.valid_of_run h hvalid,
    hvalid', ⟨f, hfmem, hrunRead ▸ st.mem⟩, ⟨g, hgmem, hstatsRead⟩,
    congrArg (fun ds : List (Did Db Exc) => ds[4]?) hsplit⟩
  refine ⟨st.wasOpen, ⟨now, congrArg Db.runs hafter⟩, hchannel, ?_, t, st.created, st.creditedAt, ht,
    congrArg Db.runnerStats hafter, fun x hx => (st.blank x hx).2.1, ?_⟩
  · rcases st.loaded with ⟨hold, -⟩ | hnew
    · exact (runsServed_of_mem hone hold hchannel rfl).symm
    · obtain ⟨-, h0, hfree⟩ := st.blank _ hnew
      rw [h0, runsServed_of_absent (hfree hone)]
  · rcases st.loaded with ⟨hold, -⟩ | hnew
    · obtain ⟨x, hx, hid, hu, hc⟩ := (hlater g hgmem).stats st.chosen (hstatsRead ▸ hold)
      exact ⟨x, Table.mem_rows.mp (ht ▸ List.mem_append_left _ hx), hid, hu, hc.trans hchannel⟩
    · exact ⟨st.chosen, Table.mem_rows.mp (ht ▸ List.mem_append_right _ hnew), rfl, rfl, hchannel⟩

theorem later_of_run (hcloses : OnlyCloses calls) (hvalid : db₀.Valid)
    (h : Interleaving s calls db₀ es w) :
    Later db₀ w.store ∧ ∀ f ∈ es, Later f.before.store w.store := by
  induction h with
  | nil => exact ⟨Later.refl _, by simp⟩
  | snoc path last ih =>
    rename_i fs t u i
    obtain ⟨hstart, hseen⟩ := ih
    have hmove : Later t.store u.store := by
      cases ha : World.answer ⟨t, i, u⟩ with
      | none => exact World.store_of_answer_none (e := ⟨t, i, u⟩) last ha ▸ Later.refl _
      | some a =>
        obtain ⟨_, _, _, _, -, hc⟩ := commits_of_later (e := ⟨t, i, u⟩) hcloses hvalid path hseen last ha
        exact hc.credits.later
    refine ⟨hstart.trans hmove, fun f hf => ?_⟩
    rcases List.mem_append.mp hf with hf | hf
    · exact (hseen f hf).trans hmove
    · obtain rfl := List.mem_singleton.mp hf
      exact hmove

theorem commits_of_answer (hcloses : OnlyCloses calls) (hvalid : db₀.Valid)
    (h : Interleaving s calls db₀ es e.before)
    (hstep : World.step Db.Valid .integrityError e.before e.label e.after) {a : Answer}
    (ha : World.answer e = some a) :
    ∃ result run chosen statsRead, a = .closed result ∧ Commits calls es e result run chosen statsRead :=
  commits_of_later hcloses hvalid h (later_of_run hcloses hvalid h).2 hstep ha

theorem later_between (hcloses : OnlyCloses calls) (hvalid : db₀.Valid)
    {fs : List (World.Move ι Db Exc Answer)} {w' : World ι Db Exc Answer}
    (h : Interleaving s calls db₀ es w) (h' : World.Run Db.Valid .integrityError w fs w') :
    Later w.store w'.store := by
  induction h' with
  | nil => exact Later.refl _
  | snoc path last ih =>
    have hpath := h.append (path.snoc last)
    rw [← List.append_assoc] at hpath
    exact ih.trans ((later_of_run hcloses hvalid hpath).2 _
      (List.mem_append_right _ (List.mem_singleton.mpr rfl)))

theorem run_kept (hcloses : OnlyCloses calls) (hvalid : db₀.Valid)
    (h : Interleaving s calls db₀ es e.before)
    (hstep : World.step Db.Valid .integrityError e.before e.label e.after) {run : Run}
    (hrun : run ∈ e.before.store.runs)
    (hother : ∀ a, World.answer e = some a → target (calls e.label) ≠ some run.id) :
    run ∈ e.after.store.runs := by
  cases ha : World.answer e with
  | none => rwa [World.store_of_answer_none hstep ha]
  | some a =>
    obtain ⟨result, closed, chosen, statsRead, -, hc⟩ := commits_of_answer hcloses hvalid h hstep ha
    obtain ⟨now, hruns⟩ := hc.credits.runs
    rw [hruns]
    refine Table.mem_update'.mpr ⟨run, hrun, (if_neg fun hid => ?_).symm⟩
    exact hother a ha (hc.target.trans (congrArg some hid.symm))

theorem committed_before_of_not_open (hcloses : OnlyCloses calls) (hvalid : db₀.Valid)
    (h : Interleaving s calls db₀ es w) {f : World.Move ι Db Exc Answer} (hf : f ∈ es) {run : Run}
    (hrun : run ∈ f.before.store.runs) (hgone : run ∉ w.store.runs) :
    ∃ g ∈ es, ∃ a, World.answer g = some a ∧ target (calls g.label) = some run.id := by
  by_contra hnone
  push Not at hnone
  obtain ⟨es₁, es₂, rfl⟩ := List.append_of_mem hf
  obtain ⟨hpre, hstep, hpost⟩ := Transition.Path.split_iff.mp h
  refine hgone ((hpost.cons hstep).history_invariant (I := fun _ w => run ∈ w.store.runs)
    (C := fun g => ∀ a, World.answer g = some a → target (calls g.label) ≠ some run.id)
    (fun fs g hfs _ hstep hC hI => ?_) (fun g hg => hnone g (List.mem_append_right _ hg)) hrun)
  exact run_kept hcloses hvalid (hpre.append hfs) hstep hI hC

theorem oneClosePerRun_iff (hcloses : OnlyCloses calls) (hvalid : db₀.Valid)
    (h : Interleaving s calls db₀ es w) :
    OneClosePerRun calls w ↔ ∀ e ∈ es, RunStillOpen calls e := by
  constructor
  · intro hone e he a ha run hrun htarget
    obtain ⟨es₁, es₂, rfl⟩ := List.append_of_mem he
    obtain ⟨hpre, hstep, hpost⟩ := Transition.Path.split_iff.mp h
    obtain ⟨result, closed, chosen, statsRead, -, hc⟩ := commits_of_answer hcloses hvalid hpre hstep ha
    obtain ⟨f, hf, hclosed⟩ := hc.runSeen
    have hid : run.id = closed.id := Option.some.inj (htarget.symm.trans hc.target)
    by_cases hkept : closed ∈ e.before.store.runs
    · rw [Table.eq_of_key hrun hkept hid]
      exact hc.credits.wasOpen
    -- otherwise another close of the run has committed since
    · obtain ⟨g, hg, b, hb, hgt⟩ := committed_before_of_not_open hcloses hvalid hpre hf hclosed hkept
      obtain ⟨gs₁, gs₂, rfl⟩ := List.append_of_mem hg
      obtain ⟨-, -, hrest⟩ := Transition.Path.split_iff.mp hpre
      have hidle := World.committed_stays (hrest.append (hpost.cons hstep))
        (World.answer_eq_some.mp hb)
      have hcom := (World.committed_stays hpost (World.answer_eq_some.mp ha)).1
      have hlabel := hone _ _ _ _ _ hidle.1 hcom hgt hc.target
      exact absurd hlabel.symm (hidle.2 e (by simp))
  · intro hopen i j a b run hi hj hti htj
    -- a commit after a commit for the same run finds it closed
    have hlate : ∀ es₁ (f : World.Move ι Db Exc Answer) es₂ (e : World.Move ι Db Exc Answer) es₃,
        es = es₁ ++ f :: (es₂ ++ e :: es₃) → ∀ b c, World.answer f = some b →
          World.answer e = some c → target (calls f.label) = some run →
            target (calls e.label) = some run → False := by
      rintro es₁ f es₂ e es₃ rfl b c hb hc hft het
      obtain ⟨hpre, hstep, hpost⟩ := Transition.Path.split_iff.mp h
      obtain ⟨hmid, hlast, -⟩ := Transition.Path.split_iff.mp hpost
      have hpre' := hpre.append (hmid.cons hstep)
      obtain ⟨_, closed, _, _, -, hf⟩ := commits_of_answer hcloses hvalid hpre hstep hb
      obtain ⟨_, again, _, _, -, he⟩ := commits_of_answer hcloses hvalid hpre' hlast hc
      have hid : again.id = closed.id :=
        Option.some.inj ((he.target.symm.trans het).trans (hft.symm.trans hf.target))
      obtain ⟨g, hg, hagain⟩ := he.runSeen
      obtain ⟨r, hr, hrid, -⟩ := ((later_of_run hcloses hvalid hpre').2 g hg).runs again hagain
      have hlater := later_between hcloses hvalid (hpre.snoc hstep) hmid
      have hro := hopen e (by simp) c hc r hr (he.target.trans (congrArg some hrid.symm))
      obtain ⟨r', hr', hrid'⟩ := hlater.noNewRuns r hr
      obtain rfl := hlater.open_iff hr' hr hrid'.symm hro
      exact hf.credits.not_open hr' (hrid.trans hid) hro
    obtain ⟨es₁, e, es₂, rfl, rfl, ha⟩ := World.answer_of_committed h hi
    obtain ⟨fs₁, f, fs₂, hfs, rfl, hb⟩ := World.answer_of_committed h hj
    have hf : f ∈ es₁ ++ e :: es₂ := hfs ▸ List.mem_append_right _ List.mem_cons_self
    rcases List.mem_append.mp hf with hf | hf
    · obtain ⟨gs₁, gs₂, rfl⟩ := List.append_of_mem hf
      exact (hlate gs₁ f gs₂ e es₂ (by simp) b a hb ha htj hti).elim
    · rcases List.mem_cons.mp hf with rfl | hf
      · rfl
      · obtain ⟨gs₁, gs₂, rfl⟩ := List.append_of_mem hf
        exact (hlate es₁ e gs₁ f gs₂ rfl a b ha hb hti htj).elim

/-! ### The counts -/

/-- How a commit that finds its run open changes what was served and what is due. -/
theorem Commits.counts (hcloses : OnlyCloses calls) (hvalid : db₀.Valid)
    (h : Interleaving s calls db₀ es e.before) {result : CloseRunResult} {run : Run}
    {chosen : RunnerStat} {statsRead : Db} (hc : Commits calls es e result run chosen statsRead)
    {a : Answer} (ha : World.answer e = some a) (hopen : RunStillOpen calls e) (channel u : Uuid) :
    (channel = run.channelId ∧ u = chosen.userId ∧
      runsServed channel u e.after.store = runsServed channel u statsRead + 1 ∧
      due db₀ channel u e.after.store = due db₀ channel u e.before.store + 1) ∨
    (¬(channel = run.channelId ∧ u = chosen.userId) ∧
      runsServed channel u e.after.store = runsServed channel u e.before.store ∧
      due db₀ channel u e.after.store = due db₀ channel u e.before.store) := by
  obtain ⟨hstart, hlater⟩ := later_of_run hcloses hvalid h
  obtain ⟨f, hf, hseen⟩ := hc.runSeen
  obtain ⟨r, hr, hid, -⟩ := (hlater f hf).runs run hseen
  have hro := hopen a ha r hr (hc.target.trans (congrArg some hid.symm))
  obtain rfl := (hlater f hf).open_iff hseen hr hid hro
  have hcount := hc.credits.closed hstart hr channel u
  unfold due
  by_cases heq : channel = r.channelId ∧ u = chosen.userId
  · rw [if_pos heq] at hcount
    obtain ⟨rfl, rfl⟩ := heq
    refine Or.inl ⟨rfl, rfl, hc.credits.served hc.valid', ?_⟩
    omega
  · rw [if_neg heq] at hcount
    refine Or.inr ⟨heq, hc.credits.other hc.valid hc.valid' heq, ?_⟩
    omega

theorem due_start (db : Db) (channel u : Uuid) : due db channel u db = runsServed channel u db := by
  have hnone : db.runs.count (closedSince db channel u) = 0 := by
    refine Table.count_eq_zero.mpr fun r hr hclosed => ?_
    obtain ⟨hserved, hopen⟩ := Bool.and_eq_true_iff.mp hclosed
    obtain ⟨r', hr', hro⟩ := List.any_eq_true.mp hopen
    simp only [Bool.and_eq_true, decide_eq_true_eq] at hro
    rw [Table.eq_of_key hr' hr hro.1] at hro
    exact absurd (hro.2.symm.trans (servedBy_iff.mp hserved).1.2) (by decide)
  rw [due, hnone, Nat.cast_zero, add_zero]

/-- Nobody is credited more than is due, and a count a session has read that is still all
that is due is still the count in the store. -/
structure Bounded (db₀ : Db) (es : List (World.Move ι Db Exc Answer)) (db : Db) : Prop where
  le : ∀ channel u, runsServed channel u db ≤ due db₀ channel u db
  seen : ∀ f ∈ es, ∀ channel u, runsServed channel u f.before.store ≤ due db₀ channel u db ∧
    (runsServed channel u f.before.store = due db₀ channel u db →
      runsServed channel u db = due db₀ channel u db)

theorem bounded_of_run (hcloses : OnlyCloses calls) (hvalid : db₀.Valid)
    (h : Interleaving s calls db₀ es w) (hopen : ∀ e ∈ es, RunStillOpen calls e) :
    Bounded db₀ es w.store := by
  refine h.history_invariant (I := fun es w => Bounded db₀ es w.store) (C := RunStillOpen calls)
    (fun es e hpath _ hstep hC hI => ?_) hopen
    ⟨fun channel u => (due_start db₀ channel u).ge, by simp⟩
  have hsplit : ∀ {P : World.Move ι Db Exc Answer → Prop}, (∀ f ∈ es, P f) → P e →
      ∀ f ∈ es ++ [e], P f := fun hes he f hf => (List.mem_append.mp hf).elim (hes f)
        fun hf => List.mem_singleton.mp hf ▸ he
  cases ha : World.answer e with
  | none =>
    rw [World.store_of_answer_none hstep ha]
    exact ⟨hI.le, hsplit hI.seen fun channel u => ⟨hI.le channel u, id⟩⟩
  | some a =>
    obtain ⟨_, run, chosen, statsRead, -, hc⟩ := commits_of_answer hcloses hvalid hpath hstep ha
    have hcounts := hc.counts hcloses hvalid hpath ha hC
    obtain ⟨g, hg, rfl⟩ := hc.statsSeen
    refine ⟨fun channel u => ?_, hsplit (fun f hf channel u => ?_) fun channel u => ?_⟩
    · rcases hcounts channel u with ⟨-, -, hserved, hdue⟩ | ⟨-, hserved, hdue⟩
      · have := (hI.seen g hg channel u).1
        omega
      · have := hI.le channel u
        omega
    · obtain ⟨hle, heq⟩ := hI.seen f hf channel u
      rcases hcounts channel u with ⟨-, -, hserved, hdue⟩ | ⟨-, hserved, hdue⟩
      · exact ⟨by omega, fun h => by omega⟩
      · rw [hserved, hdue]
        exact ⟨hle, heq⟩
    · have hle := hI.le channel u
      rcases hcounts channel u with ⟨-, -, hserved, hdue⟩ | ⟨-, hserved, hdue⟩
      · exact ⟨by omega, fun h => by omega⟩
      · rw [hserved, hdue]
        exact ⟨hle, id⟩

theorem creditsKept_iff (hcloses : OnlyCloses calls) (hvalid : db₀.Valid)
    (h : Interleaving s calls db₀ es w) (hopen : ∀ e ∈ es, RunStillOpen calls e) :
    CreditsKept db₀ w.store ↔ Transition.Throughout CountStill es := by
  induction h with
  | nil =>
    exact iff_of_true (fun channel u => (due_start db₀ channel u).symm)
      (Transition.throughout_nil _)
  | snoc path last ih =>
    rename_i fs t u i
    rw [Transition.throughout_snoc, ← ih fun e he => hopen e (List.mem_append_left _ he)]
    have hlast := hopen ⟨t, i, u⟩ (List.mem_append_right _ (List.mem_singleton.mpr rfl))
    -- only the move of a commit changes the two counts
    cases ha : World.answer ⟨t, i, u⟩ with
    | none =>
      rw [show u.store = t.store from World.store_of_answer_none (e := ⟨t, i, u⟩) last ha]
      refine (and_iff_left fun result hr => ?_).symm
      exact absurd (ha.symm.trans hr) (Option.some_ne_none _).symm
    | some a =>
      obtain ⟨result, run, chosen, statsRead, rfl, hc⟩ :=
        commits_of_answer (e := ⟨t, i, u⟩) hcloses hvalid path last ha
      have hcounts := hc.counts hcloses hvalid path ha hlast
      obtain ⟨g, hg, hseen⟩ := hc.statsSeen
      have hbounded := (bounded_of_run hcloses hvalid path fun e he =>
        hopen e (List.mem_append_left _ he)).seen g hg
      rw [← hseen] at hbounded
      -- what is served grows to one more than the close read, what is due by one
      constructor
      · intro hkept
        refine ⟨fun channel v => ?_, fun result' hr seen hfifth channel v hch hv => ?_⟩
        · have hv : runsServed channel v u.store = due db₀ channel v u.store := hkept channel v
          rcases hcounts channel v with ⟨-, -, hserved, hdue⟩ | ⟨-, hserved, hdue⟩
          · exact (hbounded channel v).2 (by dsimp only at *; omega)
          · exact hserved.symm.trans (hv.trans hdue)
        · obtain rfl := Answer.closed.inj (Option.some.inj (ha.symm.trans hr))
          obtain rfl := Did.read.inj (Option.some.inj (hc.fifth.symm.trans hfifth))
          obtain rfl := Uuid.str_inj.mp (hch.symm.trans hc.channelId)
          obtain rfl := Uuid.str_inj.mp (hv.symm.trans hc.runnerUserId)
          rcases hcounts run.channelId chosen.userId with ⟨-, -, hserved, hdue⟩ | ⟨hne, -⟩
          · have hv := hkept run.channelId chosen.userId
            have hread : runsServed run.channelId chosen.userId statsRead =
                due db₀ run.channelId chosen.userId t.store := by
              dsimp only at *
              omega
            exact hread.trans ((hbounded _ _).2 hread).symm
          · exact absurd ⟨rfl, rfl⟩ hne
      · rintro ⟨hkept, hstill⟩ channel v
        rcases hcounts channel v with ⟨rfl, rfl, hserved, hdue⟩ | ⟨-, hserved, hdue⟩
        · have hread := hstill result ha statsRead hc.fifth _ _ hc.channelId hc.runnerUserId
          have := hkept run.channelId chosen.userId
          dsimp only at *
          omega
        · exact hserved.trans ((hkept channel v).trans hdue.symm)

end Race

/-- The interleavings of closes in which none is lost are those whose every commit finds
what the close read still in the store. -/
theorem closes_kept_iff_fresh {ι : Type} [DecidableEq ι] (s : Database) (calls : ι → Call)
    (db₀ : Db) (es : List (World.Move ι Db Exc Answer)) (w : World ι Db Exc Answer)
    (hvalid : db₀.Valid) (hcloses : OnlyCloses calls) (h : Interleaving s calls db₀ es w) :
    (OneClosePerRun calls w ∧ CreditsKept db₀ w.store) ↔
      (∀ e ∈ es, RunStillOpen calls e) ∧ Transition.Throughout CountStill es := by
  rw [oneClosePerRun_iff hcloses hvalid h]
  exact and_congr_right fun hopen => creditsKept_iff hcloses hvalid h hopen

/-! ### Two runs closed side by side -/

namespace Sample

/-- Two open runs, alice alone in both. -/
def aliceTwice : Db :=
  { twoOpened with
    orders := ⟨[order 11 alice, order 12 alice], by decide⟩
    runnerStats := ⟨[newStat channel.id (draws 5) 0 alice.id], by decide⟩ }

def closeFirst : Call := close 1 11 true

def closeSecond : Call := close 2 12 true

def inTurns : List Bool := (List.replicate 11 [true, false]).flatten

theorem onlyCloses_pair : OnlyCloses (pair closeFirst closeSecond) := fun i => by
  cases i
  · exact ⟨_, _, _, _, rfl⟩
  · exact ⟨_, _, _, _, rfl⟩

theorem inTurns_facts :
    ((closedResult ((pairEnd aliceTwice closeFirst closeSecond inTurns).sessions true)).isSome ∧
      (closedResult ((pairEnd aliceTwice closeFirst closeSecond inTurns).sessions false)).isSome) ∧
    runsServed channel.id alice.id (pairEnd aliceTwice closeFirst closeSecond inTurns).store = 1 ∧
    due aliceTwice channel.id alice.id (pairEnd aliceTwice closeFirst closeSecond inTurns).store =
      2 := by
  decide +kernel

end Sample

open Sample in
/-- Both closes commit and name alice, who is credited once. -/
theorem concurrent_credit_lost :
    aliceTwice.Valid ∧ OnlyCloses (pair closeFirst closeSecond) ∧
    Interleaving database (pair closeFirst closeSecond) aliceTwice
      (pairMoves aliceTwice closeFirst closeSecond inTurns)
      (pairEnd aliceTwice closeFirst closeSecond inTurns) ∧
    ¬(OneClosePerRun (pair closeFirst closeSecond)
        (pairEnd aliceTwice closeFirst closeSecond inTurns) ∧
      CreditsKept aliceTwice (pairEnd aliceTwice closeFirst closeSecond inTurns).store) := by
  refine ⟨by decide, onlyCloses_pair, interleaving_pair _ _ _ _, fun h => ?_⟩
  have hkept := h.2 channel.id alice.id
  rw [inTurns_facts.2.1, inTurns_facts.2.2] at hkept
  exact absurd hkept (by decide)

open Sample in
theorem closes_kept_iff_fresh_inTurns :
    (OneClosePerRun (pair closeFirst closeSecond)
        (pairEnd aliceTwice closeFirst closeSecond inTurns) ∧
      CreditsKept aliceTwice (pairEnd aliceTwice closeFirst closeSecond inTurns).store) ↔
    (∀ e ∈ pairMoves aliceTwice closeFirst closeSecond inTurns,
        RunStillOpen (pair closeFirst closeSecond) e) ∧
      Transition.Throughout CountStill (pairMoves aliceTwice closeFirst closeSecond inTurns) :=
  closes_kept_iff_fresh database (pair closeFirst closeSecond) aliceTwice
    (pairMoves aliceTwice closeFirst closeSecond inTurns)
    (pairEnd aliceTwice closeFirst closeSecond inTurns) (by decide) onlyCloses_pair
    (interleaving_pair _ _ _ _)

end CoffeeBuddy

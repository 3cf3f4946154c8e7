import CoffeeBuddy.Library.Rotation
import CoffeeBuddy.Properties.Ledger

/-! The runner over time. The previous runner a close reads is the one of the latest
close, by an invariant on the closing times of the channel; from it follow that nobody
serves twice in a row against their will, and that the turns stay balanced. -/

namespace CoffeeBuddy
open Relational Transaction CloseRunService FairnessService

/-- The successful closes of the channel, in order. -/
def closings (channel : Uuid) (es : List Event) : List Closing :=
  es.filterMap fun e => closing channel e.label

def closingTimes (channel : Uuid) (es : List Event) : List Timestamp :=
  (closings channel es).map fun c => c.result.closedAt

theorem closings_append (channel : Uuid) (es fs : List Event) :
    closings channel (es ++ fs) = closings channel es ++ closings channel fs :=
  List.filterMap_append

theorem closings_singleton (channel : Uuid) (e : Event) :
    closings channel [e] = (closing channel e.label).toList := by
  cases h : closing channel e.label <;> simp [closings, h]

/-- The users with an active order in the run. -/
def ActiveUser (run : Uuid) (db : Db) (u : Uuid) : Prop :=
  (∃ o ∈ db.orders, o.runId = run ∧ o.canceledAt = none ∧ o.userId = u) ∧
    ∃ user ∈ db.users, user.id = u

section Previous
variable {channel u : Uuid} {db : Db} {run : Run}

/-- The latest closed run of the channel was closed at `t` and given to `u`. -/
def LatestClose (channel u : Uuid) (t : Timestamp) (runs : Table Run) : Prop :=
  ∃ r ∈ runs, closedIn channel r = true ∧ r.closedAt = some t ∧ r.runnerUserId = some u ∧
    ∀ r' ∈ runs, closedIn channel r' = true → ∀ t', r'.closedAt = some t' → r' = r ∨ t' < t

theorem closedLater_total (a b : Run) : closedLater a b = true ∨ closedLater b a = true := by
  simp only [closedLater, decide_eq_true_eq]
  exact le_total _ _

theorem closedLater_trans (a b c : Run) (hab : closedLater a b = true)
    (hbc : closedLater b c = true) : closedLater a c = true := by
  simp only [closedLater, decide_eq_true_eq] at *
  exact hbc.trans hab

theorem mem_precedes {r : Run} (hopen : run.status = .open) (hmem : run ∈ db.runs) :
    r ∈ db.runs.select (precedes run) ↔ r ∈ db.runs ∧ closedIn run.channelId r = true ∧
      r.closedAt ≠ none ∧ r.runnerUserId ≠ none := by
  simp only [Table.mem_select, precedes, Bool.and_eq_true, decide_eq_true_eq, closedIn_iff,
    Option.isSome_iff_ne_none, ne_eq]
  constructor
  · rintro ⟨hr, ⟨⟨⟨hc, hs⟩, ha⟩, -⟩, hu⟩
    exact ⟨hr, ⟨hc, hs⟩, ha, hu⟩
  · rintro ⟨hr, ⟨hc, hs⟩, ha, hu⟩
    refine ⟨hr, ⟨⟨⟨⟨hc, hs⟩, ha⟩, fun hid => ?_⟩, hu⟩⟩
    rw [Table.eq_of_key hr hmem hid, hopen] at hs
    cases hs

theorem previousRunner_latest (hopen : run.status = .open) (hmem : run ∈ db.runs)
    {t : Timestamp} (h : LatestClose run.channelId u t db.runs) : previousRunner run db = some u := by
  obtain ⟨r, hr, hclosed, hat, hu, hlatest⟩ := h
  have hsel := (mem_precedes hopen hmem).mpr ⟨hr, hclosed, by simp [hat], by simp [hu]⟩
  cases hhead : (orderBy closedLater (db.runs.select (precedes run))).head? with
  | none =>
    rw [List.head?_eq_none_iff] at hhead
    exact absurd (hhead ▸ mem_orderBy.mpr hsel) List.not_mem_nil
  | some first =>
    obtain ⟨hfirst, hle⟩ := head?_orderBy closedLater_total closedLater_trans hhead
    obtain ⟨hf, hfc, hfa, -⟩ := (mem_precedes hopen hmem).mp hfirst
    obtain ⟨t', ht'⟩ := Option.ne_none_iff_exists'.mp hfa
    have hlater : t ≤ t' := by
      simpa only [closedLater, hat, ht', Option.getD_some, decide_eq_true_eq] using hle r hsel
    rcases hlatest first hf hfc t' ht' with rfl | hlt
    · rw [previousRunner, hhead, Option.bind_some, hu]
    · exact absurd hlater (not_le.mpr hlt)

theorem previousRunner_none (hopen : run.status = .open) (hmem : run ∈ db.runs)
    (h : ∀ r ∈ db.runs, ¬closedIn run.channelId r = true) : previousRunner run db = none := by
  have hnil : db.runs.select (precedes run) = [] := List.eq_nil_iff_forall_not_mem.mpr
    fun r hr => h r ((mem_precedes hopen hmem).mp hr).1 ((mem_precedes hopen hmem).mp hr).2.1
  rw [previousRunner, hnil]
  rfl

end Previous

/-! ### What a step does to the closed runs of a channel -/

section Steps
variable {s : Database} {channel : Uuid} {db db' : Db} {l : Label}

/-- Without a close or a reset the closed runs of the channel stay. -/
theorem Effect.closedRuns (he : Effect s db l db') (hc : closing channel l = none)
    (hr : ¬Resets channel l) {r : Run} (hclosed : closedIn channel r = true) :
    r ∈ db'.runs ↔ r ∈ db.runs := by
  obtain ⟨hch, hst⟩ := closedIn_iff.mp hclosed
  cases he with
  | failed | ordered | canceled | idle | configured => exact Iff.rfl
  | created run runs hi =>
    refine (Table.mem_insert hi).trans (or_iff_left ?_)
    rintro rfl
    cases hst
  | closed authorizer request now d result db' hclose =>
    obtain ⟨run, runner, hcl⟩ := closes_of_returns hclose
    have hne : run.channelId ≠ channel := by
      rintro rfl
      exact Option.some_ne_none _ ((closing_eq_some.mpr ⟨rfl, hcl.channelId⟩).symm.trans hc)
    obtain ⟨stats, rfl⟩ := hcl.written
    refine (Table.mem_update hcl.mem (by rfl)).trans ?_
    constructor
    · rintro (rfl | ⟨hr, -⟩)
      · exact absurd hch hne
      · exact hr
    · exact fun hr => Or.inr ⟨hr, fun hk => hne (Table.eq_of_key hr hcl.mem hk ▸ hch)⟩
  | reset l row modified actions hres hrow hid =>
    refine Table.mem_delete.trans (and_iff_left (decide_eq_false fun hcr => hr ?_))
    rw [Resets, hres, ← hch, hcr]

theorem Effect.closes (he : Effect s db l db') {c : Closing} (hc : closing channel l = some c) :
    ∃ run runner now, run.channelId = channel ∧ c.result.closedAt = now ∧
      Closes s.collation c.request now db run runner c.result db' ∧
      ∀ r, closedIn channel r = true →
        (r ∈ db'.runs ↔ r = finalized run runner.id now ∨ r ∈ db.runs) := by
  obtain ⟨hrep, hres⟩ := closing_eq_some.mp hc
  obtain ⟨authorizer, now, d, hclose⟩ := he.returns_closeRun hrep
  obtain ⟨run, runner, hcl⟩ := closes_of_returns hclose
  have hch : run.channelId = channel := Uuid.str_inj.mp (hcl.channelId.symm.trans hres)
  refine ⟨run, runner, now, hch, hcl.closedAt, hcl, fun r hr => ?_⟩
  have hne : r ∈ db.runs → r.id ≠ run.id := fun hmem hk => by
    have hopen := hcl.wasOpen
    rw [← Table.eq_of_key hmem hcl.mem hk, (closedIn_iff.mp hr).2] at hopen
    cases hopen
  obtain ⟨stats, rfl⟩ := hcl.written
  refine (Table.mem_update hcl.mem (by rfl)).trans (or_congr_right ?_)
  exact and_iff_left_of_imp hne

theorem Effect.closedRuns_subset (he : Effect s db l db') (hc : closing channel l = none) {r : Run}
    (hclosed : closedIn channel r = true) (hr : r ∈ db'.runs) : r ∈ db.runs := by
  by_cases hres : Resets channel l
  · cases he with
    | reset => exact (Table.mem_delete.mp hr).1
    | failed | created | closed => simp [Resets] at hres
    | ordered | canceled | idle | configured => exact hr
  · exact (he.closedRuns hc hres hclosed).mp hr

theorem latestClose_of_close (he : Effect s db l db') {c : Closing} (hc : closing channel l = some c)
    (hpast : ∀ r ∈ db.runs, closedIn channel r = true → ∀ t, r.closedAt = some t →
      t < c.result.closedAt) :
    ∃ u, c.result.runnerUserId = u.str ∧ LatestClose channel u c.result.closedAt db'.runs := by
  obtain ⟨run, runner, now, hch, hnow, hcl, hruns⟩ := he.closes hc
  have hfin : closedIn channel (finalized run runner.id now) = true := closedIn_iff.mpr ⟨hch, rfl⟩
  refine ⟨runner.id, hcl.runnerUserId, _, (hruns _ hfin).mpr (Or.inl rfl), hfin, ?_, rfl,
    fun r hr hclosed t ht => ?_⟩
  · rw [hnow]
    rfl
  · rcases (hruns r hclosed).mp hr with rfl | hr
    · exact Or.inl rfl
    · exact Or.inr (hpast r hr hclosed t ht)

theorem LatestClose.step {u : Uuid} {t : Timestamp} (h : LatestClose channel u t db.runs)
    (he : Effect s db l db') (hc : closing channel l = none) (hr : ¬Resets channel l) :
    LatestClose channel u t db'.runs := by
  obtain ⟨r, hmem, hclosed, hat, hu, hlatest⟩ := h
  refine ⟨r, (he.closedRuns hc hr hclosed).mpr hmem, hclosed, hat, hu, fun r' hr' hclosed' => ?_⟩
  exact hlatest r' ((he.closedRuns hc hr hclosed').mp hr') hclosed'

/-- Every closed run of the channel was closed by the history or was there before. -/
theorem closed_of_history {db₀ : Db} {es : List Event} (h : History s db₀ es db) :
    ∀ r ∈ db.runs, closedIn channel r = true →
      r ∈ db₀.runs ∨ ∃ t ∈ closingTimes channel es, r.closedAt = some t := by
  refine Transition.Path.history_invariant
    (I := fun es db => ∀ r ∈ db.runs, closedIn channel r = true →
      r ∈ db₀.runs ∨ ∃ t ∈ closingTimes channel es, r.closedAt = some t)
    (C := fun _ => True) ?_ h (fun _ _ => trivial) fun r hr _ => Or.inl hr
  intro es e _ _ hstep _ hI r hr hclosed
  have hgrow : ∀ t ∈ closingTimes channel es, t ∈ closingTimes channel (es ++ [e]) := by
    intro t ht
    rw [closingTimes, closings_append, List.map_append]
    exact List.mem_append_left _ ht
  have hold : r ∈ e.before.runs →
      r ∈ db₀.runs ∨ ∃ t ∈ closingTimes channel (es ++ [e]), r.closedAt = some t := fun hr =>
    (hI r hr hclosed).imp_right fun ⟨t, ht, hat⟩ => ⟨t, hgrow t ht, hat⟩
  cases hc : closing channel e.label with
  | none => exact hold ((effect_of_step hstep).closedRuns_subset hc hclosed hr)
  | some c =>
    obtain ⟨run, runner, now, -, hnow, -, hruns⟩ := (effect_of_step hstep).closes hc
    rcases (hruns r hclosed).mp hr with rfl | hr
    · refine Or.inr ⟨now, ?_, rfl⟩
      rw [closingTimes, closings_append, closings_singleton, hc, List.map_append, ← hnow]
      exact List.mem_append_right _ (List.mem_singleton_self _)
    · exact hold hr

/-- With the clock advancing, a close comes after every run closed before it. -/
theorem past_of_clock {db₀ : Db} {es : List Event} {e : Event} {c : Closing}
    (h : History s db₀ es e.before) (hc : closing channel e.label = some c)
    (hpast : ∀ r ∈ db₀.runs, closedIn channel r = true → ∀ t, r.closedAt = some t →
      t < c.result.closedAt)
    (hclock : (closingTimes channel (es ++ [e])).Pairwise (· < ·)) :
    ∀ r ∈ e.before.runs, closedIn channel r = true → ∀ t, r.closedAt = some t →
      t < c.result.closedAt := by
  intro r hr hclosed t ht
  rcases closed_of_history h r hr hclosed with hr | ⟨t', hmem, ht'⟩
  · exact hpast r hr hclosed t ht
  · obtain rfl := Option.some.inj (ht.symm.trans ht')
    rw [closingTimes, closings_append, closings_singleton, hc, List.map_append,
      List.pairwise_append] at hclock
    exact hclock.2.2 t hmem _ (List.mem_singleton_self _)

end Steps

/-! ### Nobody twice in a row -/

theorem no_back_to_back_runner (s : Database) (channel : Uuid) (db₀ db : Db)
    (es₁ es₂ : List Event) (e₁ e₂ : Event) (c₁ c₂ : Closing)
    (h : History s db₀ (es₁ ++ [e₁] ++ es₂ ++ [e₂]) db)
    (hpast : ∀ r ∈ db₀.runs, closedIn channel r = true → ∀ t, r.closedAt = some t →
      ∀ t' ∈ closingTimes channel (es₁ ++ [e₁] ++ es₂ ++ [e₂]), t < t')
    (hclock : (closingTimes channel (es₁ ++ [e₁] ++ es₂ ++ [e₂])).Pairwise (· < ·))
    (h₁ : closing channel e₁.label = some c₁) (h₂ : closing channel e₂.label = some c₂)
    (hbetween : ∀ e ∈ es₂, closing channel e.label = none ∧ ¬Resets channel e.label)
    (hrepeat : c₂.request.allowImmediateRepeat = false) (run u v : Uuid)
    (hrun : Uuid.parse c₂.request.runId = some run) (huv : u ≠ v)
    (hu : ActiveUser run e₂.before u) (hv : ActiveUser run e₂.before v) :
    c₁.result.runnerUserId ≠ c₂.result.runnerUserId := by
  obtain ⟨hpath, hstep₂, -⟩ := Transition.Path.snoc_iff.mp h
  obtain ⟨mid, hpath₁, hpath₂⟩ := Transition.Path.append_iff.mp hpath
  obtain ⟨hstart, hstep₁, rfl⟩ := Transition.Path.snoc_iff.mp hpath₁
  -- the first close is the latest of the channel when the second one begins
  have hpast₁ := past_of_clock hstart h₁ (fun r hr hclosed t ht => hpast r hr hclosed t ht _ (by
      simp only [closingTimes, closings_append, closings_singleton, h₁, List.map_append]
      simp)) (by
      simp only [closingTimes, closings_append, List.map_append, List.append_assoc] at hclock ⊢
      exact hclock.sublist (List.append_sublist_append_left _ |>.mpr (by simp)))
  obtain ⟨w, hw, hlatest⟩ := latestClose_of_close (effect_of_step hstep₁) h₁ hpast₁
  have hlatest₂ : LatestClose channel w c₁.result.closedAt e₂.before.runs :=
    hpath₂.induct (I := fun db => LatestClose channel w c₁.result.closedAt db.runs)
      (fun e hstep hC hI => hI.step (effect_of_step hstep) hC.1 hC.2) hbetween hlatest
  obtain ⟨row, runner, now, hch, -, hcl, -⟩ := (effect_of_step hstep₂).closes h₂
  obtain rfl : row.id = run := Option.some.inj (hcl.id.symm.trans hrun)
  have hprev := previousRunner_latest hcl.wasOpen hcl.mem (hch ▸ hlatest₂)
  have heligible := hcl.eligible
  rw [hprev] at heligible
  have hother : ∃ x ∈ participantIds s.collation row.id e₂.before, x ≠ runner.id := by
    by_cases hur : u = runner.id
    · exact ⟨v, mem_participantIds.mpr hv, fun hvr => huv (hur.trans hvr.symm)⟩
    · exact ⟨u, mem_participantIds.mpr hu, hur⟩
  have hne := heligible.2 hrepeat hother
  rw [hw, hcl.runnerUserId, ne_eq, Uuid.str_inj]
  exact fun h => hne (congrArg some h)

/-! ### Balance -/

/-- How many of the closes of the channel gave the run to `u`. -/
def turns (channel u : Uuid) (es : List Event) : ℕ :=
  (closings channel es).countP fun c => c.result.runnerUserId = u.str

/-- The closed runs of the channel record the turns `w`, the last one the latest. -/
structure Records (channel : Uuid) (w : List Uuid) (runs : Table Run) : Prop where
  count : ∀ u, runs.count (servedBy channel u) = w.count u
  empty : w = [] → ∀ r ∈ runs, ¬closedIn channel r = true
  last : ∀ u, w.getLast? = some u → ∃ t, LatestClose channel u t runs

section Balance
variable {s : Database} {channel : Uuid} {db db' : Db} {l : Label} {w : List Uuid}

theorem Records.previousRunner (h : Records channel w db.runs) {run : Run}
    (hopen : run.status = .open) (hmem : run ∈ db.runs) (hch : run.channelId = channel) :
    previousRunner run db = w.getLast? := by
  subst hch
  cases hw : w.getLast? with
  | none => exact previousRunner_none hopen hmem (h.empty (List.getLast?_eq_none_iff.mp hw))
  | some u =>
    obtain ⟨t, ht⟩ := h.last u hw
    exact previousRunner_latest hopen hmem ht

theorem Records.idle (h : Records channel w db.runs) (he : Effect s db l db')
    (hc : closing channel l = none) (hr : ¬Resets channel l) : Records channel w db'.runs where
  count u := by
    rw [← h.count, Table.count_eq_length, Table.count_eq_length]
    refine (Table.select_perm fun r hserved => he.closedRuns hc hr ?_).length_eq
    exact closedIn_iff.mpr (servedBy_iff.mp hserved).1
  empty hw r hmem hclosed := h.empty hw r (he.closedRuns_subset hc hclosed hmem) hclosed
  last u hu := by
    obtain ⟨t, ht⟩ := h.last u hu
    exact ⟨t, ht.step he hc hr⟩

/-- A close takes the turn of a participant who has had no more turns than any other,
the last runner set aside. -/
theorem Records.close (h : Records channel w db.runs)
    (hledger : Ledger channel db.runs db.runnerStats) (he : Effect s db l db') {c : Closing}
    (hc : closing channel l = some c)
    (hpast : ∀ r ∈ db.runs, closedIn channel r = true → ∀ t, r.closedAt = some t →
      t < c.result.closedAt) :
    ∃ run u, Uuid.parse c.request.runId = some run ∧ c.result.runnerUserId = u.str ∧
      u ∈ participantIds s.collation run db ∧
      (∀ v ∈ participantIds s.collation run db, w.getLast? ≠ some v → w.count u ≤ w.count v) ∧
      Records channel (w ++ [u]) db'.runs := by
  obtain ⟨hrep, hres⟩ := closing_eq_some.mp hc
  obtain ⟨authorizer, now, d, hclose⟩ := he.returns_closeRun hrep
  obtain ⟨run, runner, loaded, chosen, creditedAt, hch, hcl, hrunner, hprep, hchosen, -⟩ :=
    credited_of_returns hledger.unique hres hclose
  have hloaded := hledger.prepared hprep
  have hprev := h.previousRunner hcl.wasOpen hcl.mem hch
  refine ⟨run.id, runner.id, hcl.id, hcl.runnerUserId, hcl.eligible.1, fun v hv hlast => ?_, ?_⟩
  · obtain ⟨st, hst, hsc, rfl⟩ := hprep.covers v hv
    have hle := count_le_of_sortKey_le (hchosen.least st hst hsc ⟨hv, fun _ _ => hprev ▸ hlast⟩)
    rw [hloaded.count chosen hchosen.mem hchosen.channelId, hloaded.count st hst hsc, hrunner,
      h.count, h.count] at hle
    exact_mod_cast hle
  · refine ⟨fun u => ?_, fun hnil => absurd hnil (by simp), fun u hu => ?_⟩
    · have hfin : servedBy channel u (finalized run runner.id now) = true ↔ runner.id = u := by
        simp [servedBy_iff, finalized, hch]
      obtain ⟨stats, rfl⟩ := hcl.written
      rw [Rotation.count_snoc, ← h.count u, ← if_congr hfin rfl rfl]
      exact count_finalized hcl.mem _ _ hcl.wasOpen _ fun hs => (servedBy_iff.mp hs).1.2
    · rw [List.getLast?_concat, Option.some.injEq] at hu
      obtain ⟨v, hv, hlatest⟩ := latestClose_of_close he hc hpast
      obtain rfl : runner.id = v := Uuid.str_inj.mp (hcl.runnerUserId.symm.trans hv)
      exact ⟨_, hu ▸ hlatest⟩

theorem fair_of_history {db₀ : Db} {es : List Event} (h : History s db₀ es db)
    (hfresh : Fresh channel db₀) (hclock : (closingTimes channel es).Pairwise (· < ·))
    {S : Finset Uuid}
    (hC : ∀ e ∈ es, ¬Resets channel e.label ∧ ∀ c, closing channel e.label = some c →
      ∀ run, Uuid.parse c.request.runId = some run → ∀ u, ActiveUser run e.before u ↔ u ∈ S) :
    ∃ w : List Uuid, (closings channel es).map (fun c => c.result.runnerUserId) = w.map Uuid.str ∧
      Rotation.Fair S w ∧ Records channel w db.runs := by
  -- the induction is on the history; a close appends its runner to `w`
  refine Transition.Path.history_invariant
    (I := fun es db => (closingTimes channel es).Pairwise (· < ·) → ∃ w : List Uuid,
      (closings channel es).map (fun c => c.result.runnerUserId) = w.map Uuid.str ∧
      Rotation.Fair S w ∧ Records channel w db.runs) (fun es e hpath _ hstep hCe hI hclock => ?_)
    h hC (fun _ => ⟨[], rfl, .nil, fun u => ?_, fun _ r hr hc => ?_, fun u hu => ?_⟩) hclock
  · have hbefore : (closingTimes channel es).Pairwise (· < ·) := by
      rw [closingTimes, closings_append, List.map_append] at hclock
      exact (List.pairwise_append.mp hclock).1
    obtain ⟨w, hw, hfair, hrec⟩ := hI hbefore
    have he := effect_of_step hstep
    cases hc : closing channel e.label with
    | none =>
      refine ⟨w, ?_, hfair, hrec.idle he hc hCe.1⟩
      rw [closings_append, closings_singleton, hc, Option.toList_none, List.append_nil, hw]
    | some c =>
      have hpast := past_of_clock hpath hc
        (fun r hr hclosed => absurd (closedIn_iff.mp hclosed).2
          (hfresh.runs r hr (closedIn_iff.mp hclosed).1)) hclock
      obtain ⟨run, u, hrun, hu, hmem, hleast, hrec'⟩ :=
        hrec.close (ledger_of_history hpath hfresh.ledger) he hc hpast
      have hS : ∀ v, v ∈ participantIds s.collation run e.before ↔ v ∈ S := fun v =>
        mem_participantIds.trans (hCe.2 c hc run hrun v)
      refine ⟨w ++ [u], ?_, hfair.snoc ((hS u).mp hmem) fun v hv => hleast v ((hS v).mpr hv), hrec'⟩
      rw [closings_append, closings_singleton, hc, List.map_append, hw, List.map_append]
      simp [hu]
  · exact Table.count_eq_zero.mpr fun r hr hs =>
      hfresh.runs r hr (servedBy_iff.mp hs).1.1 (servedBy_iff.mp hs).1.2
  · exact hfresh.runs r hr (closedIn_iff.mp hc).1 (closedIn_iff.mp hc).2
  · cases hu

end Balance

theorem balanced_rotation (s : Database) (channel : Uuid) (db₀ db : Db) (es : List Event)
    (h : History s db₀ es db) (hfresh : Fresh channel db₀)
    (hclock : (closingTimes channel es).Pairwise (· < ·))
    (hreset : ∀ e ∈ es, ¬Resets channel e.label) (S : Finset Uuid)
    (hS : ∀ e ∈ es, ∀ c, closing channel e.label = some c →
      ∀ run, Uuid.parse c.request.runId = some run → ∀ u, ActiveUser run e.before u ↔ u ∈ S)
    (u : Uuid) (hu : u ∈ S) :
    turns channel u es = (closings channel es).length / S.card ∨
      turns channel u es = (closings channel es).length ⌈/⌉ S.card := by
  obtain ⟨w, hw, hfair, -⟩ := fair_of_history h hfresh hclock fun e he => ⟨hreset e he, hS e he⟩
  have hlength : (closings channel es).length = w.length := by
    have hmap := congrArg List.length hw
    rwa [List.length_map, List.length_map] at hmap
  have hturns : turns channel u es = w.count u := by
    rw [← List.count_map_of_injective w Uuid.str Uuid.str_injective u, ← hw, List.count,
      List.countP_map, turns]
    refine List.countP_congr fun c _ => ?_
    simp only [Function.comp_apply, decide_eq_true_eq, beq_iff_eq]
  rw [hlength, hturns]
  exact hfair.balanced hu

/-! ### Two runs with the same two users -/

namespace Sample

def twoRuns : Db :=
  { twoOpened with
    orders := ⟨[order 11 alice, order 11 bob, order 12 alice, order 12 bob], by decide⟩ }

def firstClose : Event := occurrence database (close 1 11 false) twoRuns

def secondClose : Event := occurrence database (close 2 12 false) firstClose.after

/-- What a close in the sample reports, and who held orders at it. -/
def closeFacts (n : ℕ) (e : Event) : Option (CloseRunRequest × Timestamp) × List Uuid :=
  ((closing channel.id e.label).map fun c => (c.request, c.result.closedAt),
    participantIds database.collation (.ofNat n) e.before)

def closeRequest (n : ℕ) : CloseRunRequest :=
  { runId := (Uuid.ofNat n).str, actorUserId := "", allowImmediateRepeat := false }

theorem twoCloses_facts :
    closeFacts 11 firstClose = (some (closeRequest 11, 1), [alice.id, bob.id]) ∧
      closeFacts 12 secondClose = (some (closeRequest 12, 2), [alice.id, bob.id]) := by
  decide +kernel

theorem not_resets {e : Event} {c : Closing} (h : closing channel.id e.label = some c) :
    ¬Resets channel.id e.label := fun hreset => by
  have hclosed := (closing_eq_some.mp h).1
  rw [hreset] at hclosed
  exact absurd hclosed (by simp)

theorem closing_of_facts {n : ℕ} {e : Event} {r : CloseRunRequest} {t : Timestamp} {us : List Uuid}
    (h : closeFacts n e = (some (r, t), us)) :
    ∃ c, closing channel.id e.label = some c ∧ c.request = r ∧ c.result.closedAt = t := by
  obtain ⟨c, hc, hfacts⟩ := Option.map_eq_some_iff.mp (Prod.mk.inj h).1
  exact ⟨c, hc, (Prod.mk.inj hfacts).1, (Prod.mk.inj hfacts).2⟩

theorem activeUser_of_facts {n : ℕ} {e : Event} {c : Option (CloseRunRequest × Timestamp)}
    {us : List Uuid} (h : closeFacts n e = (c, us)) (u : Uuid) :
    ActiveUser (.ofNat n) e.before u ↔ u ∈ us := by
  rw [← (Prod.mk.inj h).2, mem_participantIds]
  rfl

theorem twoCloses_history : History database twoRuns [firstClose, secondClose] secondClose.after :=
  history_occurrence database (history_occurrence database .nil (close 1 11 false))
    (close 2 12 false)

theorem closings_pair {e₁ e₂ : Event} {c₁ c₂ : Closing} (h₁ : closing channel.id e₁.label = some c₁)
    (h₂ : closing channel.id e₂.label = some c₂) : closings channel.id [e₁, e₂] = [c₁, c₂] := by
  simp only [closings, List.filterMap_cons, h₁, h₂, List.filterMap_nil]

theorem twoCloses_times : closingTimes channel.id [firstClose, secondClose] = [1, 2] := by
  obtain ⟨c₁, h₁, -, ht₁⟩ := closing_of_facts twoCloses_facts.1
  obtain ⟨c₂, h₂, -, ht₂⟩ := closing_of_facts twoCloses_facts.2
  rw [closingTimes, closings_pair h₁ h₂, List.map_cons, List.map_singleton, ht₁, ht₂]

end Sample

open Sample in
theorem no_back_to_back_runner_two :
    (closing channel.id firstClose.label).map (fun c => c.result.runnerUserId) ≠
      (closing channel.id secondClose.label).map (fun c => c.result.runnerUserId) := by
  obtain ⟨c₁, h₁, hr₁, -⟩ := closing_of_facts twoCloses_facts.1
  obtain ⟨c₂, h₂, hr₂, -⟩ := closing_of_facts twoCloses_facts.2
  have hactive := activeUser_of_facts twoCloses_facts.2
  rw [h₁, h₂, Option.map_some, Option.map_some, ne_eq, Option.some_inj]
  refine no_back_to_back_runner database channel.id twoRuns secondClose.after [] [] firstClose
    secondClose c₁ c₂ twoCloses_history (by decide) ?_ h₁ h₂ (by simp) ?_ (.ofNat 12) alice.id bob.id
    ?_ (by decide) ((hactive _).mpr (by decide)) ((hactive _).mpr (by decide))
  · exact twoCloses_times.symm ▸ by decide
  · rw [hr₂]
    rfl
  · rw [hr₂]
    exact Uuid.parse_str _

open Sample in
theorem balanced_rotation_two :
    turns channel.id alice.id [firstClose, secondClose] = 1 := by
  obtain ⟨c₁, h₁, hr₁, -⟩ := closing_of_facts twoCloses_facts.1
  obtain ⟨c₂, h₂, hr₂, -⟩ := closing_of_facts twoCloses_facts.2
  have h := balanced_rotation database channel.id twoRuns secondClose.after
    [firstClose, secondClose] twoCloses_history ⟨by decide, by decide⟩
    (twoCloses_times.symm ▸ by decide) ?_ {alice.id, bob.id} ?_ alice.id (by decide)
  · have hcard : ({alice.id, bob.id} : Finset Uuid).card = 2 := by decide
    rw [closings_pair h₁ h₂, Nat.ceilDiv_eq_add_pred_div, hcard] at h
    simp only [List.length_cons, List.length_nil] at h
    omega
  · simp only [List.forall_mem_cons]
    exact ⟨not_resets h₁, not_resets h₂, by simp⟩
  · simp only [List.forall_mem_cons, h₁, h₂, Option.some_inj, forall_eq', hr₁, hr₂, closeRequest,
      Uuid.parse_str, activeUser_of_facts twoCloses_facts.1, activeUser_of_facts twoCloses_facts.2]
    simp

end CoffeeBuddy

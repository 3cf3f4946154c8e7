import CoffeeBuddy.Properties.CreditRace
import CoffeeBuddy.Services.AdminSessions

/-! How far lost updates can throw the credits off. A close credits its runner with one more
than a count that was once in the store: beside calls of any kind a count never passes the
closes won, and the first of them is never lost. -/

namespace CoffeeBuddy
open Relational Transaction CloseRunService FairnessService AdminService

/-! ### Calls that leave the stats alone -/

section Stats
variable {s : Database} {ds : List (Did Db Exc)}

theorem orders_apart : OrdersElsewhere Db.runnerStats := ⟨fun _ _ => rfl, fun _ _ => rfl⟩

theorem runs_apart : Elsewhere Db.runnerStats fun db (t : Table Run) => { db with runs := t } :=
  fun _ _ => rfl

theorem channels_apart :
    Elsewhere Db.runnerStats fun db (t : Table Channel) => { db with channels := t } :=
  fun _ _ => rfl

theorem quiet_logAction (schema : AuditSchema) (channelId : Uuid) (adminUserId : String)
    (actionType : ChannelAdminActionType) (details : ActionDetails) (newId : Uuid) :
    Quiet Db.runnerStats
      (AdminAuditLogger.logAction schema channelId adminUserId actionType details newId) :=
  .write (spares_logs (fun _ _ => rfl) _) (.ret trivial)

theorem quiet_updateChannelConfig (a : SlackAdminAuthorizer) (schema : AuditSchema)
    (slackChannelId : String) (actor : AdminActor) (patch : ChannelConfigPatch) (d : Draws) :
    Quiet Db.runnerStats (updateChannelConfig a schema slackChannelId actor patch d) := by
  unfold updateChannelConfig
  refine readOnly_getChannel.along.bind fun channel _ => ?_
  refine readOnly_assertAuthorized.along.bind fun _ _ => ?_
  refine readOnly_configUpdates.along.bind fun updates _ => ?_
  split_ifs
  · exact quiet_pure _
  · refine (quiet_updating channels_apart channel _).bind fun _ _ => ?_
    exact (quiet_logAction ..).map _

theorem quiet_setChannelEnabled (a : SlackAdminAuthorizer) (schema : AuditSchema)
    (slackChannelId : String) (actor : AdminActor) (enabled : Bool) (reason : Option String)
    (d : Draws) :
    Quiet Db.runnerStats (setChannelEnabled a schema slackChannelId actor enabled reason d) := by
  unfold setChannelEnabled
  refine readOnly_getChannel.along.bind fun channel _ => ?_
  refine readOnly_assertAuthorized.along.bind fun _ _ => ?_
  refine (quiet_updating channels_apart channel _).bind fun _ _ => ?_
  exact (quiet_logAction ..).map _

/-- Only closes and resets answer after writing to the stats. -/
theorem spares_stats {c : Call} {answer : Answer} (h : (c.tx s).Does ds answer)
    (hclosed : ∀ result, answer ≠ .closed result) (hreset : ∀ result, answer ≠ .reset result) :
    ∀ w ∈ writes ds, Spares Db.runnerStats w := by
  cases c with
  | createRun run => exact ((quiet_inserting runs_apart run.row).map _).forall_writes h
  | submitOrder v request d =>
    exact ((quiet_submitOrder orders_apart v request d).map _).forall_writes h
  | useLastOrder v runId userId d =>
    exact ((quiet_useLastOrder orders_apart v runId userId d).map _).forall_writes h
  | cancelOrder runId userId d =>
    exact ((quiet_cancelOrder orders_apart runId userId d).map _).forall_writes h
  | closeRun authorizer request now d =>
    simp only [Call.tx, Program.does_bind, Program.does_pure] at h
    obtain ⟨_, result, _, _, ⟨rfl, _⟩, _⟩ := h
    exact absurd rfl (hclosed result)
  | updateChannelConfig a slackChannelId actor patch d =>
    exact ((quiet_updateChannelConfig ..).map _).forall_writes h
  | setChannelEnabled a slackChannelId actor enabled reason d =>
    exact ((quiet_setChannelEnabled ..).map _).forall_writes h
  | resetChannelData a slackChannelId actor d =>
    simp only [Call.tx, Program.does_bind, Program.does_pure] at h
    obtain ⟨_, result, _, _, ⟨rfl, _⟩, _⟩ := h
    exact absurd rfl (hreset result)

theorem closeRun_of_closed {c : Call} {result : CloseRunResult}
    (h : (c.tx s).Does ds (.closed result)) :
    ∃ authorizer request now d, c = .closeRun authorizer request now d := by
  cases c with
  | closeRun authorizer request now d => exact ⟨authorizer, request, now, d, rfl⟩
  | _ =>
    simp only [Call.tx, Program.does_bind, Program.does_pure] at h
    obtain ⟨_, _, _, _, ⟨hanswer, _⟩, _⟩ := h
    cases hanswer

end Stats

/-! ### Credits -/

/-- A row of stats stays, with its user and channel. -/
def StatsStay (db db' : Db) : Prop :=
  ∀ st ∈ db.runnerStats, ∃ st' ∈ db'.runnerStats, st'.id = st.id ∧ st'.userId = st.userId ∧
    st'.channelId = st.channelId

theorem StatsStay.trans {db₁ db₂ db₃ : Db} (h : StatsStay db₁ db₂) (h' : StatsStay db₂ db₃) :
    StatsStay db₁ db₃ := by
  intro st hst
  obtain ⟨st', hst', hid, hu, hc⟩ := h st hst
  obtain ⟨st'', hst'', hid', hu', hc'⟩ := h' st' hst'
  exact ⟨st'', hst'', hid'.trans hid, hu'.trans hu, hc'.trans hc⟩

theorem Credits.statsStay {run : Run} {chosen : RunnerStat} {statsRead db db' : Db}
    (h : Credits run chosen statsRead db db') : StatsStay db db' := h.later.stats

/-- A close credits the runner it has chosen, if the rows it has read are still there. -/
theorem CloseRunService.Statements.credits {collation : Collation} {request : CloseRunRequest}
    {now : Timestamp} {result : CloseRunResult} {ds : List (Did Db Exc)}
    (c : Statements collation request now result ds) {db db' : Db}
    (hwritten : applied (writes ds) db = .ok db')
    (hone : OnePerUser c.run.channelId c.statsRead.runnerStats) (hstay : StatsStay c.statsRead db) :
    Credits c.run c.chosen c.statsRead db db' := by
  obtain ⟨t, ht, rfl⟩ := c.written hwritten
  have hchannel : c.chosen.channelId = c.run.channelId :=
    c.loaded.elim And.right fun hnew => (c.blank _ hnew).1
  have hcount : c.chosen.runsServedCount =
      runsServed c.run.channelId c.chosen.userId c.statsRead := by
    rcases c.loaded with ⟨hold, -⟩ | hnew
    · exact (runsServed_of_mem hone hold hchannel rfl).symm
    · obtain ⟨-, hzero, hfree⟩ := c.blank _ hnew
      rw [hzero, runsServed_of_absent (hfree hone)]
  have hthere : ∃ st ∈ t, st.id = c.chosen.id ∧ st.userId = c.chosen.userId ∧
      st.channelId = c.run.channelId := by
    rcases c.loaded with ⟨hold, -⟩ | hnew
    · obtain ⟨st, hst, hid, hu, hc⟩ := hstay c.chosen hold
      have hmem : st ∈ t := Table.mem_rows.mp (ht ▸ List.mem_append_left _ hst)
      exact ⟨st, hmem, hid, hu, hc.trans hchannel⟩
    · have hmem : c.chosen ∈ t := Table.mem_rows.mp (ht ▸ List.mem_append_right _ hnew)
      exact ⟨c.chosen, hmem, rfl, rfl, hchannel⟩
  exact {
    wasOpen := c.wasOpen
    runs := ⟨now, rfl⟩
    channelId := hchannel
    count := hcount
    stats := ⟨t, c.created, c.creditedAt, ht, rfl, fun st hst => (c.blank st hst).2.1, hthere⟩ }

/-! ### The counts -/

section Race
variable {ι : Type}

/-- The move commits a close in favour of `u` in the channel. -/
def winsFor (channel u : Uuid) (e : World.Move ι Db Exc Answer) : Bool :=
  match World.answer e with
  | some (.closed result) => result.channelId = channel.str && result.runnerUserId = u.str
  | _ => false

/-- The closes in favour of `u` that have committed. -/
def won (channel u : Uuid) (es : List (World.Move ι Db Exc Answer)) : ℕ :=
  es.countP (winsFor channel u)

/-- No reset commits. -/
def NoReset (es : List (World.Move ι Db Exc Answer)) : Prop :=
  ∀ e ∈ es, ∀ result, World.answer e ≠ some (.reset result)

variable {db₀ : Db} {es : List (World.Move ι Db Exc Answer)} {e : World.Move ι Db Exc Answer}

theorem winsFor_eq_false (h : ∀ result, World.answer e ≠ some (.closed result)) (channel u : Uuid) :
    winsFor channel u e = false := by
  unfold winsFor
  split
  · rename_i result ha
    exact absurd ha (h result)
  · rfl

theorem winsFor_iff {result : CloseRunResult} {channel' u' : Uuid}
    (ha : World.answer e = some (.closed result)) (hchannel : result.channelId = channel'.str)
    (hrunner : result.runnerUserId = u'.str) (channel u : Uuid) :
    winsFor channel u e = true ↔ channel = channel' ∧ u = u' := by
  unfold winsFor
  rw [ha]
  simp only [hchannel, hrunner, Bool.and_eq_true, decide_eq_true_eq, Uuid.str_inj,
    eq_comm (a := channel), eq_comm (a := u)]

theorem won_snoc (channel u : Uuid) : won channel u (es ++ [e]) =
    won channel u es + if winsFor channel u e = true then 1 else 0 := by
  unfold won
  rw [List.countP_append, List.countP_singleton]

/-- What the commit of a call other than a reset does to the stats. -/
inductive Tallied (es : List (World.Move ι Db Exc Answer)) (e : World.Move ι Db Exc Answer) : Prop
  | quiet : (∀ channel u, winsFor channel u e = false) →
      e.after.store.runnerStats = e.before.store.runnerStats → Tallied es e
  | credited {f : World.Move ι Db Exc Answer} {run : Run} {chosen : RunnerStat} : f ∈ es →
      (∀ channel u, winsFor channel u e = true ↔ channel = run.channelId ∧ u = chosen.userId) →
      Credits run chosen f.before.store e.before.store e.after.store → Tallied es e

/-- Every count that a session has seen, or would see now, is between the first close won and
all of them. -/
structure Bounds (db₀ : Db) (es : List (World.Move ι Db Exc Answer)) (db : Db) : Prop where
  least : ∀ channel u, runsServed channel u db₀ + min 1 (won channel u es : ℤ) ≤
    runsServed channel u db
  most : ∀ channel u, runsServed channel u db ≤ runsServed channel u db₀ + (won channel u es : ℤ)
  seen : ∀ f ∈ es, StatsStay f.before.store db ∧ ∀ channel u,
    runsServed channel u db₀ ≤ runsServed channel u f.before.store ∧
      runsServed channel u f.before.store ≤ runsServed channel u db₀ + (won channel u es : ℤ)

theorem bounds_start (db₀ : Db) : Bounds db₀ ([] : List (World.Move ι Db Exc Answer)) db₀ where
  least channel u := by simp [won]
  most channel u := by simp [won]
  seen := by simp

theorem Bounds.le (h : Bounds db₀ es e.before.store) (channel u : Uuid) :
    runsServed channel u db₀ ≤ runsServed channel u e.before.store := by
  have hleast := h.least channel u
  omega

/-- What a session sees from now on is bounded as well. -/
theorem Bounds.seen_snoc (h : Bounds db₀ es e.before.store) {db : Db}
    (hstay : StatsStay e.before.store db) : ∀ f ∈ es ++ [e], StatsStay f.before.store db ∧
      ∀ channel u, runsServed channel u db₀ ≤ runsServed channel u f.before.store ∧
        runsServed channel u f.before.store ≤
          runsServed channel u db₀ + (won channel u (es ++ [e]) : ℤ) := by
  intro f hf
  rcases List.mem_append.mp hf with hf | hf
  · obtain ⟨hbefore, hbounds⟩ := h.seen f hf
    refine ⟨hbefore.trans hstay, fun channel u => ⟨(hbounds channel u).1, ?_⟩⟩
    have hmost := (hbounds channel u).2
    rw [won_snoc]
    split_ifs <;> omega
  · obtain rfl := List.mem_singleton.mp hf
    refine ⟨hstay, fun channel u => ⟨h.le channel u, ?_⟩⟩
    have hmost := h.most channel u
    rw [won_snoc]
    split_ifs <;> omega

theorem Bounds.snoc (h : Bounds db₀ es e.before.store) (ht : Tallied es e)
    (hvalid : e.before.store.Valid) (hvalid' : e.after.store.Valid) :
    Bounds db₀ (es ++ [e]) e.after.store := by
  cases ht with
  | quiet hlost hsame =>
    have hserved : ∀ channel u,
        runsServed channel u e.after.store = runsServed channel u e.before.store := by
      intro channel u
      unfold runsServed
      rw [hsame]
    have hwon : ∀ channel u, won channel u (es ++ [e]) = won channel u es := by
      intro channel u
      rw [won_snoc, hlost channel u, if_neg Bool.false_ne_true, Nat.add_zero]
    have hstay : StatsStay e.before.store e.after.store := by
      intro st hst
      rw [hsame]
      exact ⟨st, hst, rfl, rfl, rfl⟩
    refine ⟨fun channel u => ?_, fun channel u => ?_, h.seen_snoc hstay⟩
    · rw [hserved, hwon]
      exact h.least channel u
    · rw [hserved, hwon]
      exact h.most channel u
  | @credited f run chosen hf hwins hcredits =>
    -- the runner has one more than was seen, everybody else has what they had
    have hserved := hcredits.served hvalid'
    obtain ⟨-, hseen⟩ := h.seen f hf
    have hcount : ∀ channel u,
        (channel = run.channelId ∧ u = chosen.userId ∧
          won channel u (es ++ [e]) = won channel u es + 1) ∨
        (runsServed channel u e.after.store = runsServed channel u e.before.store ∧
          won channel u (es ++ [e]) = won channel u es) := by
      intro channel u
      rw [won_snoc]
      by_cases heq : channel = run.channelId ∧ u = chosen.userId
      · exact Or.inl ⟨heq.1, heq.2, by rw [if_pos ((hwins channel u).mpr heq)]⟩
      · refine Or.inr ⟨hcredits.other hvalid hvalid' heq, ?_⟩
        rw [if_neg (mt (hwins channel u).mp heq), Nat.add_zero]
    refine ⟨fun channel u => ?_, fun channel u => ?_, h.seen_snoc hcredits.statsStay⟩
    · rcases hcount channel u with ⟨rfl, rfl, hwon⟩ | ⟨hsame, hwon⟩
      · have hlow := (hseen run.channelId chosen.userId).1
        rw [hserved]
        omega
      · rw [hsame, hwon]
        exact h.least channel u
    · rcases hcount channel u with ⟨rfl, rfl, hwon⟩ | ⟨hsame, hwon⟩
      · have hhigh := (hseen run.channelId chosen.userId).2
        rw [hserved, hwon]
        push_cast
        omega
      · rw [hsame, hwon]
        exact h.most channel u

/-! ### Commits -/

section Commits
variable [DecidableEq ι] {s : Database} {calls : ι → Call} {w : World ι Db Exc Answer}

theorem tallied_of_close (hvalid : db₀.Valid) (h : Interleaving s calls db₀ es e.before)
    (hstep : World.step Db.Valid .integrityError e.before e.label e.after) {result : CloseRunResult}
    (ha : World.answer e = some (.closed result))
    (hstay : ∀ f ∈ es, StatsStay f.before.store e.before.store) : Tallied es e := by
  obtain ⟨hdoes, hwritten, -⟩ := World.committed_of_answer h hstep ha
  obtain ⟨authorizer, request, now, d, hcall⟩ := closeRun_of_closed hdoes
  obtain ⟨_, hresult, ⟨st⟩, -⟩ := statements_of_answer h hstep hcall ha
  obtain rfl := Answer.closed.inj hresult
  -- the stats were read at an earlier move
  obtain ⟨_, hsplit⟩ := st.split_statsRead
  obtain ⟨es₁, f, es₂, rfl, -, -, hread⟩ := World.read_of_trail h hsplit rfl
  have hf : f ∈ es₁ ++ f :: es₂ := List.mem_append_right _ List.mem_cons_self
  have hseen : f.before.store.Valid := World.valid_of_run (Transition.Path.split_iff.mp h).1 hvalid
  have hone : OnePerUser st.run.channelId st.statsRead.runnerStats :=
    hread ▸ onePerUser_of_valid hseen st.run.channelId
  have hcredits : Credits st.run st.chosen st.statsRead e.before.store e.after.store :=
    st.credits hwritten hone (hread ▸ hstay f hf)
  exact .credited hf (winsFor_iff ha st.channelId st.runnerUserId) (hread ▸ hcredits)

theorem tallied_of_step (hvalid : db₀.Valid) (h : Interleaving s calls db₀ es e.before)
    (hstep : World.step Db.Valid .integrityError e.before e.label e.after)
    (hreset : ∀ result, World.answer e ≠ some (.reset result))
    (hstay : ∀ f ∈ es, StatsStay f.before.store e.before.store) : Tallied es e := by
  by_cases hclosed : ∃ result, World.answer e = some (.closed result)
  · obtain ⟨result, ha⟩ := hclosed
    exact tallied_of_close hvalid h hstep ha hstay
  · have hother : ∀ result, World.answer e ≠ some (.closed result) := not_exists.mp hclosed
    refine .quiet (winsFor_eq_false hother) ?_
    cases ha : World.answer e with
    | none => rw [World.store_of_answer_none hstep ha]
    | some a =>
      obtain ⟨hdoes, hwritten, -⟩ := World.committed_of_answer h hstep ha
      have hspares := spares_stats hdoes (fun result heq => hother result (heq ▸ ha))
        fun result heq => hreset result (heq ▸ ha)
      exact applied_spares hspares hwritten

theorem bounds_of_run (hvalid : db₀.Valid) (h : Interleaving s calls db₀ es w)
    (hreset : NoReset es) : Bounds db₀ es w.store := by
  refine h.history_invariant (I := fun es w => Bounds db₀ es w.store)
    (C := fun e => ∀ result, World.answer e ≠ some (.reset result))
    (fun es e hpath _ hstep hC hI => ?_) hreset (bounds_start db₀)
  have hbefore : e.before.store.Valid := World.valid_of_run hpath hvalid
  have hafter : e.after.store.Valid := World.valid_of_run (hpath.snoc hstep) hvalid
  have htallied : Tallied es e :=
    tallied_of_step hvalid hpath hstep hC fun f hf => (hI.seen f hf).1
  exact hI.snoc htallied hbefore hafter

end Commits
end Race

theorem noReset_of_onlyCloses {ι : Type} [DecidableEq ι] {s : Database} {calls : ι → Call} {db₀ : Db}
    {es : List (World.Move ι Db Exc Answer)} {w : World ι Db Exc Answer} (hcloses : OnlyCloses calls)
    (hvalid : db₀.Valid) (h : Interleaving s calls db₀ es w) : NoReset es := by
  intro e he result ha
  obtain ⟨es₁, es₂, rfl⟩ := List.append_of_mem he
  obtain ⟨hpre, hstep, -⟩ := Transition.Path.split_iff.mp h
  obtain ⟨_, _, _, _, hclosed, -⟩ := commits_of_answer hcloses hvalid hpre hstep ha
  cases hclosed

/-- Calls of any kind side by side, of which no reset commits: every count is at most what the
closes won since the start have earned, and a user who has won has at least one more. -/
theorem credits_between {ι : Type} [DecidableEq ι] (s : Database) (calls : ι → Call) (db₀ : Db)
    (es : List (World.Move ι Db Exc Answer)) (w : World ι Db Exc Answer) (hvalid : db₀.Valid)
    (h : Interleaving s calls db₀ es w) (hreset : NoReset es) (channel u : Uuid) :
    runsServed channel u db₀ + min 1 (won channel u es : ℤ) ≤ runsServed channel u w.store ∧
      runsServed channel u w.store ≤ runsServed channel u db₀ + (won channel u es : ℤ) :=
  ⟨(bounds_of_run hvalid h hreset).least channel u, (bounds_of_run hvalid h hreset).most channel u⟩

namespace Sample

theorem won_inTurns :
    won channel.id alice.id (pairMoves aliceTwice closeFirst closeSecond inTurns) = 2 := by
  decide +kernel

end Sample

open Sample in
/-- Of two closes that name alice one credit is lost, and not both. -/
theorem credits_between_inTurns :
    won channel.id alice.id (pairMoves aliceTwice closeFirst closeSecond inTurns) = 2 ∧
    runsServed channel.id alice.id aliceTwice + min 1 (won channel.id alice.id
        (pairMoves aliceTwice closeFirst closeSecond inTurns) : ℤ) ≤
      runsServed channel.id alice.id (pairEnd aliceTwice closeFirst closeSecond inTurns).store ∧
    runsServed channel.id alice.id (pairEnd aliceTwice closeFirst closeSecond inTurns).store ≤
      runsServed channel.id alice.id aliceTwice + (won channel.id alice.id
        (pairMoves aliceTwice closeFirst closeSecond inTurns) : ℤ) :=
  ⟨won_inTurns, credits_between database (pair closeFirst closeSecond) aliceTwice
    (pairMoves aliceTwice closeFirst closeSecond inTurns)
    (pairEnd aliceTwice closeFirst closeSecond inTurns) (by decide) (interleaving_pair _ _ _ _)
    (noReset_of_onlyCloses onlyCloses_pair (by decide) (interleaving_pair _ _ _ _))
    channel.id alice.id⟩

end CoffeeBuddy

import CoffeeBuddy.Properties.Assignment
import CoffeeBuddy.Services.Acceptance

/-! `close_run` end to end: when it is refused, and what it leaves of every table when it
is not. -/

namespace CoffeeBuddy
open Relational Transaction CloseRunService FairnessService

section Closing
variable {authorizer : CloseRunAuthorizer} {collation : Collation} {request : CloseRunRequest}
  {now : Timestamp} {d : Draws} {db db' : Db} {id : Uuid} {result : CloseRunResult}

/-- The run is missing, not open, not the actor's to close, without its channel, or
without an order that is not cancelled. -/
def CloseRefused (authorizer : CloseRunAuthorizer) (request : CloseRunRequest) (id : Uuid)
    (db : Db) : Prop :=
  (∀ run ∈ db.runs, run.id ≠ id) ∨ ∃ run ∈ db.runs, run.id = id ∧
    (run.status ≠ .open ∨ authorizer run request.actorUserId = false ∨
      (∀ c ∈ db.channels, c.id ≠ run.channelId) ∨
      ∀ o ∈ db.orders, o.runId = id → o.canceledAt ≠ none)

/-- What a close reports and leaves: the run and its active orders as it wrote them, one
stats row credited, and everything else as before. -/
structure RunClosed (id : Uuid) (db : Db) (result : CloseRunResult) (db' : Db) : Prop where
  run : ∃ run ∈ db.runs, ∃ runner ∈ db.users, run.id = id ∧
    result.runnerUserId = runner.id.str ∧
    result.summary.runnerDisplayName = runner.displayName ∧
    (∃ p ∈ result.summary.participants, p.userId = runner.id.str) ∧
    (∀ r, r ∈ db'.runs ↔ r = { run with
        runnerUserId := some runner.id, status := .closed, closedAt := some result.closedAt
        updatedAt := result.closedAt } ∨ r ∈ db.runs ∧ r.id ≠ id) ∧
    ∃ users creditedAt, (∀ u, u ∈ users ↔
        ∃ o ∈ db.orders, o.runId = id ∧ o.canceledAt = none ∧ o.userId = u) ∧
      CreditsRunner run.channelId users runner.id creditedAt db.runnerStats db'.runnerStats
  orders : ∀ o, o ∈ db'.orders ↔
    (∃ p ∈ db.orders, p.runId = id ∧ p.canceledAt = none ∧
      o = { p with isFinal := true, updatedAt := result.closedAt }) ∨
    o ∈ db.orders ∧ ¬(o.runId = id ∧ o.canceledAt = none)
  frame : db' = { db with
    runs := db'.runs, orders := db'.orders, runnerStats := db'.runnerStats }

theorem mints_of_fresh (hd : d.Fresh db) {users : List Uuid} (hnd : users.Nodup)
    (husers : ∀ u ∈ users, ∃ user ∈ db.users, user.id = u) :
    Mints d users.length db.runnerStats := by
  have hsub : users ⊆ db.users.rows.map User.id := fun u hu => List.mem_map.mpr (husers u hu)
  have hlength := (List.subperm_of_subset hnd hsub).length_le
  rw [List.length_map] at hlength
  have hdrawn : users.length ≤ drawn db := by
    unfold drawn
    omega
  exact ⟨fun i hi j hj => hd.distinct i (hi.trans_le hdrawn) j (hj.trans_le hdrawn),
    fun s hs i hi => hd.stats s hs i (hi.trans_le hdrawn)⟩

theorem runClosed_of_returns (hm : db.Meets) (hd : d.Fresh db)
    (hid : Uuid.parse request.runId = some id)
    (h : (closeRun authorizer collation request now d).Returns db result db') :
    RunClosed id db result db' := by
  obtain ⟨run, channel, decision, mid, runner, hparse, hrun, hopen, -, hchannel, hcid, hne,
    hassign, hrunner, hmem, rfl, rfl⟩ := returns_closeRun h
  obtain rfl : run.id = id := Option.some.inj (hparse.symm.trans hid)
  have husers : ∀ o ∈ db.orders, ∃ user ∈ db.users, user.id = o.userId := fun _ ho =>
    hm.valid.user_of_order ho
  have hone := onePerUser_of_valid hm.valid channel.id
  have hnd : (participantIds collation run.id db).Nodup :=
    nodup_participantIds fun o ho p hp _ hop => hm.valid.order_unique ho hp hop
  have hids : (idents (participantIds collation run.id db)).map Ident.toStr =
      (participantIds collation run.id db).map Uuid.str := by
    rw [idents, List.map_map]
    rfl
  have hparticipants : participantIds collation run.id db ≠ [] := fun hnil =>
    hne (List.map_eq_nil_iff.mp hnil)
  -- the assignment, with what it writes
  obtain ⟨u, grown, hleast, hgrown, hret⟩ := returns_users hone
    (Ident.asUuid_str channel.id) hids hparticipants (mints_of_fresh hd hnd fun u hu =>
      (mem_participantIds.mp hu).2) (previousRunner run db) request.allowImmediateRepeat
  obtain ⟨rfl, rfl⟩ := Program.returns_functional hret hassign
  have hu : u = runner.id := by
    rw [Uuid.parse_str, Option.some.injEq] at hrunner
    exact hrunner
  subst hu
  obtain ⟨⟨o, ho, hor, hoc, hou⟩, -⟩ := mem_participantIds.mp hleast.1.1
  set creditedAt := d.clock
    (newcomers channel.id (participantIds collation run.id db) db.runnerStats).length
  have hcredits := credits_of_grown hone hgrown hleast.1.1 creditedAt
  refine ⟨⟨run, hrun, runner, hmem, rfl, rfl, rfl, ?_, fun r => Table.mem_update hrun rfl,
    participantIds collation run.id db, creditedAt, fun v => ?_, ?_⟩, fun o => ?_, rfl⟩
  · -- the runner's own order
    obtain ⟨user, -, hlisted⟩ : ∃ user, user.id = o.userId ∧
        (o, user) ∈ activeOrders collation run.id db :=
      exists_mem_activeOrders ho hor hoc (husers o ho)
    exact ⟨participant o user, List.mem_map.mpr ⟨(o, user), hlisted, rfl⟩, congrArg Uuid.str hou⟩
  · rw [mem_participantIds]
    refine and_iff_left_of_imp ?_
    rintro ⟨p, hp, -, -, rfl⟩
    exact husers p hp
  · rw [← hcid]
    exact hcredits
  · exact mem_snapshot_activeOrders fun o ho _ => husers o ho

/-- A close of an open run that somebody ordered in is refused for nothing else. -/
theorem returns_of_not_refused (hm : db.Meets) (hd : d.Fresh db)
    (hid : Uuid.parse request.runId = some id) (h : ¬CloseRefused authorizer request id db) :
    ∃ result db', (closeRun authorizer collation request now d).Returns db result db' := by
  unfold CloseRefused at h
  push Not at h
  obtain ⟨⟨run, hrun, rfl⟩, hclosable⟩ := h
  obtain ⟨hopen, hauthorized, -, o, ho, hor, hoc⟩ := hclosable run hrun rfl
  obtain ⟨user, -, hlisted⟩ : ∃ user, user.id = o.userId ∧
      (o, user) ∈ activeOrders collation run.id db :=
    exists_mem_activeOrders ho hor hoc (hm.valid.user_of_order ho)
  have hne : activeOrders collation run.id db ≠ [] := List.ne_nil_of_mem hlisted
  exact closeRun_succeeds hm hd hid hrun hopen (Bool.eq_true_of_not_eq_false hauthorized) hne

theorem not_refused_of_returns (hid : Uuid.parse request.runId = some id)
    (h : (closeRun authorizer collation request now d).Returns db result db') :
    ¬CloseRefused authorizer request id db := by
  obtain ⟨run, channel, -, -, -, hparse, hrun, hopen, hauthorized, hchannel, hcid, hne, -⟩ :=
    returns_closeRun h
  obtain rfl : run.id = id := Option.some.inj (hparse.symm.trans hid)
  rintro (hmissing | ⟨row, hrow, hk, hrefused⟩)
  · exact hmissing run hrun rfl
  · obtain rfl := Table.eq_of_key hrow hrun hk
    rcases hrefused with h | h | h | h
    · exact h hopen
    · exact Bool.false_ne_true (h.symm.trans hauthorized)
    · exact h channel hchannel hcid
    · obtain ⟨p, hp⟩ := List.exists_mem_of_ne_nil _ hne
      obtain ⟨ho, hr, hc, -⟩ := mem_activeOrders.mp hp
      exact h p.1 ho hr hc

/-- In a state that meets the constraints, with new ids, a close of a well-formed run id
either raises and is refused, or returns and closes the run. -/
theorem close_run_end_to_end (authorizer : CloseRunAuthorizer) (collation : Collation)
    (now : Timestamp) (hm : db.Meets) (hd : d.Fresh db)
    (hid : Uuid.parse request.runId = some id) :
    ((∃ e db', (closeRun authorizer collation request now d).Raises db e db') ↔
      CloseRefused authorizer request id db) ∧
    (¬CloseRefused authorizer request id db → ∃ result db',
      (closeRun authorizer collation request now d).Returns db result db' ∧
        result.closedAt = now ∧ RunClosed id db result db') := by
  refine ⟨⟨?_, fun hrefused => ?_⟩, fun h => ?_⟩
  · rintro ⟨e, db', hraises⟩
    by_contra h
    obtain ⟨result, after, hret⟩ := returns_of_not_refused hm hd hid h
    exact hret.not_raises hraises
  · rcases Program.returns_or_raises (closeRun authorizer collation request now d) db with
      ⟨result, after, hret⟩ | hraises
    · exact absurd hrefused (not_refused_of_returns hid hret)
    · exact hraises
  · obtain ⟨result, after, hret⟩ := returns_of_not_refused hm hd hid h
    obtain ⟨run, runner, hcl⟩ := closes_of_returns hret
    exact ⟨result, after, hret, hcl.closedAt, runClosed_of_returns hm hd hid hret⟩

end Closing

namespace Sample

/-- Alice has ordered in run 11, and bob has cancelled. -/
def bobCanceled : Db :=
  { opened with
    orders := ⟨[order 11 alice, { order 11 bob with canceledAt := some 1 }], by decide⟩ }

def closing11 : CloseRunRequest := { runId := (Uuid.ofNat 11).str, actorUserId := "" }

theorem meets_bobCanceled : bobCanceled.Meets := ⟨by decide, by decide, by decide⟩

theorem fresh_bobCanceled : (draws 5).Fresh bobCanceled :=
  ⟨by decide, by decide, by decide, by decide⟩

end Sample

open Sample in
theorem close_run_end_to_end_canceled :
    ((∃ e db', (closeRun (fun _ _ => true) .binary closing11 9 (draws 5)).Raises bobCanceled e db') ↔
      CloseRefused (fun _ _ => true) closing11 (.ofNat 11) bobCanceled) ∧
    (¬CloseRefused (fun _ _ => true) closing11 (.ofNat 11) bobCanceled → ∃ result db',
      (closeRun (fun _ _ => true) .binary closing11 9 (draws 5)).Returns bobCanceled result db' ∧
        result.closedAt = 9 ∧ RunClosed (.ofNat 11) bobCanceled result db') :=
  close_run_end_to_end _ _ _ meets_bobCanceled fresh_bobCanceled (Uuid.parse_str _)

end CoffeeBuddy

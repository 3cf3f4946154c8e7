import CoffeeBuddy.Services.FairnessSpecs
import CoffeeBuddy.Services.OrderSpecs
import CoffeeBuddy.Services.Runs

/-! What closing a run reads, decides and writes, and why its last exit cannot be
taken once a runner has been credited. -/

namespace CoffeeBuddy
open Relational Transaction OrderRepository FairnessService

namespace CloseRunService

variable {authorizer : CloseRunAuthorizer} {collation : Collation} {request : CloseRunRequest}
  {now : Timestamp} {d : Draws} {db db' : Db} {run : Run}

/-! ### Reads -/

theorem getRun_eq (runId : String) : getRun runId = asUuid (.str runId) >>= rowUnder Db.runs
    (.runClose (.runNotFound s!"Run {runId} not found.")) := by
  refine bind_congr fun id => bind_congr fun found => ?_
  cases found <;> rfl

theorem getChannel_eq (id : Uuid) : getChannel id = rowUnder Db.channels
    (.runClose (.runNotFound s!"Channel {id.str} missing for run close.")) id := by
  refine bind_congr fun found => ?_
  cases found <;> rfl

theorem getRunner_eq (runnerUserId : String) : getRunner runnerUserId =
    asUuid (.str runnerUserId) >>= rowUnder Db.users (.runClose (.runnerSelection
      s!"Runner {runnerUserId} missing from persistence during close.")) := by
  refine bind_congr fun id => bind_congr fun found => ?_
  cases found <;> rfl

@[simp] theorem returns_getRun {runId : String} :
    (getRun runId).Returns db run db' ↔
      Uuid.parse runId = some run.id ∧ run ∈ db.runs ∧ db' = db := by
  rw [getRun_eq]
  exact returns_asUuid_rowUnder

theorem readOnly_getRun (runId : String) : (getRun runId).ReadOnly := by
  rw [getRun_eq]
  exact readOnly_asUuid_rowUnder _ _

@[simp] theorem returns_checkClosable {u : Unit} :
    (checkClosable authorizer request run).Returns db u db' ↔
      run.status = .open ∧ authorizer run request.actorUserId = true ∧ db' = db := by
  unfold checkClosable
  split_ifs with ho ha
  · simp only [returns_tx_raise, ho, false_and]
  · simp only [Program.returns_pure, true_and, ha, not_not.mp ho]
  · simp only [returns_tx_raise, ha, Bool.false_eq_true, false_and, and_false]

theorem readOnly_checkClosable : (checkClosable authorizer request run).ReadOnly := by
  unfold checkClosable
  split_ifs
  · exact Program.readOnly_raise _
  · exact Program.readOnly_pure _
  · exact Program.readOnly_raise _

@[simp] theorem returns_getChannel {id : Uuid} {channel : Channel} :
    (getChannel id).Returns db channel db' ↔
      channel ∈ db.channels ∧ channel.id = id ∧ db' = db := by
  rw [getChannel_eq]
  exact returns_rowUnder

theorem readOnly_getChannel (id : Uuid) : (getChannel id).ReadOnly := by
  rw [getChannel_eq]
  exact readOnly_rowUnder _ id

@[simp] theorem returns_loadActiveOrders {id : Uuid} {orders : List (Order × User)} :
    (loadActiveOrders collation id).Returns db orders db' ↔
      orders = activeOrders collation id db ∧ orders ≠ [] ∧ db' = db := by
  simp only [loadActiveOrders, Program.returns_bind, Program.returns_query]
  constructor
  · rintro ⟨_, _, ⟨rfl, rfl⟩, h⟩
    split_ifs at h with hne
    · exact absurd h returns_tx_raise
    · obtain ⟨rfl, rfl⟩ := Program.returns_pure.mp h
      exact ⟨rfl, hne, rfl⟩
  · rintro ⟨rfl, hne, rfl⟩
    refine ⟨_, _, ⟨rfl, rfl⟩, ?_⟩
    rw [if_neg hne]
    exact Program.returns_pure.mpr ⟨rfl, rfl⟩

theorem readOnly_loadActiveOrders (id : Uuid) : (loadActiveOrders collation id).ReadOnly := by
  refine (Program.readOnly_query _).bind fun orders => ?_
  split_ifs
  · exact Program.readOnly_raise _
  · exact Program.readOnly_pure _

@[simp] theorem returns_getRunner {runnerUserId : String} {user : User} :
    (getRunner runnerUserId).Returns db user db' ↔
      Uuid.parse runnerUserId = some user.id ∧ user ∈ db.users ∧ db' = db := by
  rw [getRunner_eq]
  exact returns_asUuid_rowUnder

/-! ### The active orders of a run -/

theorem byName_iff {u v : User} : collation.byName u v = true ↔
    collation.le u.displayName v.displayName = true ∧
      (collation.le v.displayName u.displayName = true → u.id ≤ v.id) := by
  rw [Collation.byName, Bool.and_eq_true, Bool.or_eq_true, Bool.not_eq_true', decide_eq_true_eq]
  refine and_congr_right fun _ => ?_
  cases collation.le v.displayName u.displayName <;> simp

theorem byName_total (u v : User) : collation.byName u v = true ∨ collation.byName v u = true := by
  simp only [byName_iff]
  by_cases huv : collation.le u.displayName v.displayName = true
  · by_cases hvu : collation.le v.displayName u.displayName = true
    · exact (le_total u.id v.id).imp (fun h => ⟨huv, fun _ => h⟩) fun h => ⟨hvu, fun _ => h⟩
    · exact Or.inl ⟨huv, fun h => absurd h hvu⟩
  · exact Or.inr ⟨(collation.total _ _).resolve_left huv, fun h => absurd h huv⟩

theorem byName_trans (u v w : User) (huv : collation.byName u v = true)
    (hvw : collation.byName v w = true) : collation.byName u w = true := by
  rw [byName_iff] at huv hvw ⊢
  refine ⟨collation.trans _ _ _ huv.1 hvw.1, fun hwu => ?_⟩
  exact (huv.2 (collation.trans _ _ _ hvw.1 hwu)).trans (hvw.2 (collation.trans _ _ _ hwu huv.1))

theorem pairwise_activeOrders (id : Uuid) : (activeOrders collation id db).Pairwise
    fun p q => collation.byName p.2 q.2 = true :=
  pairwise_orderBy (fun p q => byName_total p.2 q.2) (fun p q w => byName_trans p.2 q.2 w.2) _

theorem joinUsers_sublist (users : Table User) (orders : List Order) :
    ((joinUsers users orders).map Prod.fst).Sublist orders := by
  induction orders with
  | nil => exact .slnil
  | cons o orders ih =>
    rw [joinUsers, List.filterMap_cons]
    cases users.find? o.userId with
    | none => exact ih.cons o
    | some u => exact ih.cons_cons o

theorem mem_activeOrders {id : Uuid} {p : Order × User} :
    p ∈ activeOrders collation id db ↔ p.1 ∈ db.orders ∧ p.1.runId = id ∧
      p.1.canceledAt = none ∧ p.2 ∈ db.users ∧ p.2.id = p.1.userId := by
  simp only [activeOrders, mem_orderBy, joinUsers, List.mem_filterMap, Option.map_eq_some_iff,
    Table.find?_eq_some, Table.mem_select, activeIn_iff]
  constructor
  · rintro ⟨o, ⟨ho, hr, hc⟩, u, ⟨hu, hk⟩, rfl⟩
    exact ⟨ho, hr, hc, hu, hk⟩
  · rintro ⟨ho, hr, hc, hu, hk⟩
    exact ⟨p.1, ⟨ho, hr, hc⟩, p.2, ⟨hu, hk⟩, rfl⟩

theorem exists_mem_activeOrders {id : Uuid} {o : Order} (ho : o ∈ db.orders) (hr : o.runId = id)
    (hc : o.canceledAt = none) (huser : ∃ user ∈ db.users, user.id = o.userId) :
    ∃ user, user.id = o.userId ∧ (o, user) ∈ activeOrders collation id db := by
  obtain ⟨user, hu, hk⟩ := huser
  exact ⟨user, hk, mem_activeOrders.mpr ⟨ho, hr, hc, hu, hk⟩⟩

/-- The users with an active order in the run, in the order of its listing. -/
def participantIds (collation : Collation) (id : Uuid) (db : Db) : List Uuid :=
  (activeOrders collation id db).map fun p => p.1.userId

theorem mem_participantIds {id u : Uuid} : u ∈ participantIds collation id db ↔
    (∃ o ∈ db.orders, o.runId = id ∧ o.canceledAt = none ∧ o.userId = u) ∧
      ∃ user ∈ db.users, user.id = u := by
  simp only [participantIds, List.mem_map, mem_activeOrders]
  constructor
  · rintro ⟨p, ⟨ho, hr, hc, hu, hk⟩, rfl⟩
    exact ⟨⟨p.1, ho, hr, hc, rfl⟩, p.2, hu, hk⟩
  · rintro ⟨⟨o, ho, hr, hc, rfl⟩, user, hu, hk⟩
    exact ⟨(o, user), ⟨ho, hr, hc, hu, hk⟩, rfl⟩

theorem nodup_activeUsers {id : Uuid} (hu : UniqueIn id db.orders) :
    ((db.orders.select (activeIn id)).map Order.userId).Nodup := by
  refine (Table.nodup_select _ _).map_on fun o ho p hp hop => ?_
  obtain ⟨ho, hao⟩ := Table.mem_select.mp ho
  obtain ⟨hp, hap⟩ := Table.mem_select.mp hp
  have hro := (activeIn_iff.mp hao).1
  exact hu o ho p hp hro (Prod.ext (hro.trans (activeIn_iff.mp hap).1.symm) hop)

theorem nodup_participantIds {id : Uuid} (hu : UniqueIn id db.orders) :
    (participantIds collation id db).Nodup := by
  have hperm : (activeOrders collation id db).Perm
      (joinUsers db.users (db.orders.select (activeIn id))) := perm_orderBy _
  have hmap : participantIds collation id db =
      ((activeOrders collation id db).map Prod.fst).map Order.userId := by
    rw [participantIds, List.map_map]
    rfl
  rw [hmap]
  exact ((hperm.map _).map _).nodup_iff.mpr
    (((joinUsers_sublist _ _).map _).nodup (nodup_activeUsers hu))

/-! ### The snapshot -/

/-- The orders table after the snapshot of `orders`. -/
def snapshot (now : Timestamp) (t : Table Order) (orders : List (Order × User)) : Table Order :=
  orders.foldl (fun t p => t.update p.1 (snapshotted p.1 now)) t

@[simp] theorem returns_snapshotOrders {orders : List (Order × User)}
    {participants : List ParticipantOrder} :
    (snapshotOrders now orders).Returns db participants db' ↔
      participants = orders.map (fun p => participant p.1 p.2) ∧
      db' = { db with orders := snapshot now db.orders orders } := by
  induction orders generalizing db db' participants with
  | nil => simp [snapshotOrders, snapshot]
  | cons p orders ih =>
    simp only [snapshotOrders, Program.returns_bind, returns_updating, ih, Program.returns_pure]
    constructor
    · rintro ⟨_, _, rfl, _, _, ⟨rfl, rfl⟩, rfl, rfl⟩
      exact ⟨rfl, rfl⟩
    · rintro ⟨rfl, rfl⟩
      exact ⟨(), _, rfl, _, _, ⟨rfl, rfl⟩, rfl, rfl⟩

theorem raises_snapshotOrders {orders : List (Order × User)} {e : Exc} :
    ¬(snapshotOrders now orders).Raises db e db' := by
  induction orders generalizing db db' with
  | nil => simp [snapshotOrders]
  | cons p orders ih =>
    simp only [snapshotOrders, Program.raises_bind, raises_updating, Program.raises_pure, and_false,
      exists_false, or_false, false_or]
    rintro ⟨_, _, -, h⟩
    exact ih h

/-- The snapshot marks the rows it is given and keeps the others. -/
theorem mem_snapshot_iff {t : Table Order} {orders : List (Order × User)}
    (hmem : ∀ p ∈ orders, p.1 ∈ t) (hnd : (orders.map fun p => p.1.id).Nodup) {o : Order} :
    o ∈ snapshot now t orders ↔
      (∃ p ∈ orders, o = snapshotted p.1 now) ∨ o ∈ t ∧ ∀ p ∈ orders, o.id ≠ p.1.id := by
  induction orders generalizing t with
  | nil => simp [snapshot]
  | cons p orders ih =>
    obtain ⟨hp, hnd⟩ := List.nodup_cons.mp hnd
    have hne : ∀ q ∈ orders, p.1.id ≠ q.1.id := fun q hq hk =>
      hp (List.mem_map.mpr ⟨q, hq, hk.symm⟩)
    have hupdate : ∀ r, r ∈ t.update p.1 (snapshotted p.1 now) ↔
        r = snapshotted p.1 now ∨ r ∈ t ∧ r.id ≠ p.1.id := fun r =>
      Table.mem_update (hmem p List.mem_cons_self) rfl
    have hrest : ∀ q ∈ orders, q.1 ∈ t.update p.1 (snapshotted p.1 now) := fun q hq =>
      (hupdate q.1).mpr (Or.inr ⟨hmem q (List.mem_cons_of_mem p hq), (hne q hq).symm⟩)
    have hsnap : snapshot now t (p :: orders) =
        snapshot now (t.update p.1 (snapshotted p.1 now)) orders := rfl
    rw [hsnap, ih hrest hnd, hupdate]
    simp only [List.mem_cons, exists_eq_or_imp, forall_eq_or_imp]
    constructor
    · rintro (hq | ⟨rfl | ⟨ho, hop⟩, hother⟩)
      · exact Or.inl (Or.inr hq)
      · exact Or.inl (Or.inl rfl)
      · exact Or.inr ⟨ho, hop, hother⟩
    · rintro ((rfl | hq) | ⟨ho, hop, hother⟩)
      · exact Or.inr ⟨Or.inl rfl, hne⟩
      · exact Or.inl hq
      · exact Or.inr ⟨Or.inr ⟨ho, hop⟩, hother⟩

theorem nodup_activeOrders (id : Uuid) :
    ((activeOrders collation id db).map fun p => p.1.id).Nodup := by
  have hperm : (activeOrders collation id db).Perm
      (joinUsers db.users (db.orders.select (activeIn id))) := perm_orderBy _
  have hsub : ((joinUsers db.users (db.orders.select (activeIn id))).map fun p => p.1.id).Sublist
      (db.orders.rows.map Order.id) := by
    have hjoin := (joinUsers_sublist db.users (db.orders.select (activeIn id))).trans
      List.filter_sublist
    have hids := hjoin.map Order.id
    rwa [List.map_map] at hids
  exact (hperm.map _).nodup_iff.mpr (hsub.nodup db.orders.nodup)

/-- A close marks exactly the active orders of its run, when their users are stored. -/
theorem mem_snapshot_activeOrders {id : Uuid}
    (husers : ∀ o ∈ db.orders, o.runId = id → ∃ user ∈ db.users, user.id = o.userId) {o : Order} :
    o ∈ snapshot now db.orders (activeOrders collation id db) ↔
      (∃ p ∈ db.orders, p.runId = id ∧ p.canceledAt = none ∧ o = snapshotted p now) ∨
        o ∈ db.orders ∧ ¬(o.runId = id ∧ o.canceledAt = none) := by
  rw [mem_snapshot_iff (fun p hp => (mem_activeOrders.mp hp).1) (nodup_activeOrders id)]
  refine or_congr ?_ (and_congr_right fun ho => ?_)
  · constructor
    · rintro ⟨p, hp, rfl⟩
      obtain ⟨hmem, hr, hc, -, -⟩ := mem_activeOrders.mp hp
      exact ⟨p.1, hmem, hr, hc, rfl⟩
    · rintro ⟨p, hp, hr, hc, rfl⟩
      obtain ⟨user, -, hlisted⟩ := exists_mem_activeOrders hp hr hc (husers p hp hr)
      exact ⟨(p, user), hlisted, rfl⟩
  · constructor
    · rintro h ⟨hr, hc⟩
      obtain ⟨user, -, hlisted⟩ := exists_mem_activeOrders ho hr hc (husers o ho hr)
      exact h (o, user) hlisted rfl
    · intro h p hp hk
      obtain ⟨hmem, hr, hc, -, -⟩ := mem_activeOrders.mp hp
      obtain rfl : o = p.1 := Table.eq_of_key ho hmem hk
      exact h ⟨hr, hc⟩

/-- What a snapshot leaves of an order. -/
def content (o : Order) : Order := { o with isFinal := true, updatedAt := 0 }

theorem content_snapshot (t : Table Order) (orders : List (Order × User)) :
    (snapshot now t orders).rows.map content = t.rows.map content := by
  induction orders generalizing t with
  | nil => rfl
  | cons p orders ih =>
    rw [snapshot, List.foldl_cons]
    refine (ih _).trans ?_
    simp only [Table.update, List.map_map]
    refine List.map_congr_left fun o _ => ?_
    simp only [Function.comp_apply]
    split_ifs
    · simp only [Row.merge, snapshotted, column_unchanged, content]
    · rfl

theorem content_eq {o p : Order} (h : content p = content o) : p.id = o.id ∧ p.runId = o.runId ∧
    p.userId = o.userId ∧ p.orderText = o.orderText ∧ p.provenance = o.provenance ∧
    p.canceledAt = o.canceledAt := by
  simp only [content, Order.mk.injEq] at h
  obtain ⟨hid, hr, hu, ht, -, hp, hc, -⟩ := h
  exact ⟨hid, hr, hu, ht, hp, hc⟩

/-- A snapshot touches neither the entry nor the identity of an order. -/
theorem mem_snapshot {now : Timestamp} {t : Table Order} {orders : List (Order × User)} {o : Order}
    (ho : o ∈ snapshot now t orders) : ∃ p ∈ t, content p = content o := by
  have hmem : content o ∈ (snapshot now t orders).rows.map content := List.mem_map_of_mem ho
  rw [content_snapshot] at hmem
  exact List.mem_map.mp hmem

theorem mem_of_mem_snapshot (now : Timestamp) {t : Table Order} (orders : List (Order × User))
    {p : Order} (hp : p ∈ t) : ∃ o ∈ snapshot now t orders, content o = content p := by
  have hmem : content p ∈ t.rows.map content := List.mem_map_of_mem hp
  rw [← content_snapshot t orders] at hmem
  exact List.mem_map.mp hmem

/-! ### Closing -/

theorem mem_update_finalized {runs : Table Run} {row : Run} (h : run ∈ runs) (u : Uuid) :
    row ∈ runs.update run (finalized run u now) ↔
      row = finalized run u now ∨ row ∈ runs ∧ row.id ≠ run.id := Table.mem_update h rfl

theorem returns_closeRun {res : CloseRunResult}
    (h : (closeRun authorizer collation request now d).Returns db res db') :
    ∃ run channel decision mid runner,
      Uuid.parse request.runId = some run.id ∧ run ∈ db.runs ∧ run.status = .open ∧
      authorizer run request.actorUserId = true ∧ channel ∈ db.channels ∧
      channel.id = run.channelId ∧ activeOrders collation run.id db ≠ [] ∧
      (assignRunner (.str channel.id.str) (idents (participantIds collation run.id db))
        ((previousRunner run db).map Uuid.str) request.allowImmediateRepeat d).Returns
        db decision mid ∧
      Uuid.parse decision.runnerUserId = some runner.id ∧ runner ∈ mid.users ∧
      db' = { mid with
        runs := mid.runs.update run (finalized run runner.id now)
        orders := snapshot now mid.orders (activeOrders collation run.id db) } ∧
      res = closeRunResult run channel decision runner
        ((activeOrders collation run.id db).map fun p => participant p.1 p.2) now := by
  simp only [closeRun, Program.returns_bind, returns_getRun, returns_checkClosable,
    returns_getChannel, returns_loadActiveOrders, Program.returns_query, returns_getRunner,
    returns_updating, returns_snapshotOrders, Program.returns_pure] at h
  obtain ⟨run, _, ⟨hid, hrun, rfl⟩, _, _, ⟨ho, ha, rfl⟩, channel, _, ⟨hc, hcid, rfl⟩, _, _,
    ⟨rfl, hne, rfl⟩, _, _, ⟨rfl, rfl⟩, decision, mid, hassign, runner, _, ⟨hp, hr, rfl⟩, _, _, rfl,
    _, _, ⟨rfl, rfl⟩, rfl, rfl⟩ := h
  refine ⟨run, channel, decision, _, runner, hid, hrun, ho, ha, hc, hcid, hne, ?_, hp, hr, rfl, rfl⟩
  rw [participantIds, idents, List.map_map]
  exact hassign

/-- `db'` is `db` with `run` closed and given to `runner`, as `res` reports. -/
structure Closes (collation : Collation) (request : CloseRunRequest) (now : Timestamp) (db : Db)
    (run : Run) (runner : User) (res : CloseRunResult) (db' : Db) : Prop where
  id : Uuid.parse request.runId = some run.id
  mem : run ∈ db.runs
  wasOpen : run.status = .open
  nonempty : activeOrders collation run.id db ≠ []
  runnerMem : runner ∈ db.users
  eligible : Eligible (participantIds collation run.id db) (previousRunner run db)
    request.allowImmediateRepeat runner.id
  written : ∃ stats, db' = { db with
    runs := db.runs.update run (finalized run runner.id now)
    orders := snapshot now db.orders (activeOrders collation run.id db)
    runnerStats := stats }
  otherStats : ∀ s, s.channelId ≠ run.channelId → (s ∈ db'.runnerStats ↔ s ∈ db.runnerStats)
  result : ∃ channel decision, channel ∈ db.channels ∧ channel.id = run.channelId ∧
    decision.runnerUserId = runner.id.str ∧ res = closeRunResult run channel decision runner
      ((activeOrders collation run.id db).map fun p => participant p.1 p.2) now

section Closes
variable {runner : User} {res : CloseRunResult}

theorem Closes.channelId (h : Closes collation request now db run runner res db') :
    res.channelId = run.channelId.str := by
  obtain ⟨channel, decision, -, hc, -, rfl⟩ := h.result
  exact congrArg Uuid.str hc

theorem Closes.closedAt (h : Closes collation request now db run runner res db') :
    res.closedAt = now := by
  obtain ⟨channel, decision, -, -, -, rfl⟩ := h.result
  rfl

theorem Closes.runnerUserId (h : Closes collation request now db run runner res db') :
    res.runnerUserId = runner.id.str := by
  obtain ⟨channel, decision, -, -, hd, rfl⟩ := h.result
  exact hd

theorem Closes.participants (h : Closes collation request now db run runner res db') :
    res.summary.participants =
      (activeOrders collation run.id db).map fun p => participant p.1 p.2 := by
  obtain ⟨channel, decision, -, -, -, rfl⟩ := h.result
  rfl

theorem Closes.totalOrders (h : Closes collation request now db run runner res db') :
    res.summary.totalOrders = res.summary.participants.length := by
  obtain ⟨channel, decision, -, -, -, rfl⟩ := h.result
  rfl

theorem closes_of_returns
    (h : (closeRun authorizer collation request now d).Returns db res db') :
    ∃ run runner, Closes collation request now db run runner res db' := by
  obtain ⟨run, channel, decision, mid, runner, hid, hrun, ho, -, hc, hcid, hne, hassign, hp, hr,
    rfl, rfl⟩ := returns_closeRun h
  obtain ⟨u, heligible, hdec⟩ := eligible_of_returns hassign
  have hother : ∀ s, s.channelId ≠ channel.id → (s ∈ mid.runnerStats ↔ s ∈ db.runnerStats) :=
    fun _ => assignRunner_other hassign
  obtain ⟨stats, rfl⟩ := assignRunner_frame hassign
  obtain rfl : u = runner.id := by
    rw [hdec, Uuid.parse_str, Option.some.injEq] at hp
    exact hp
  exact ⟨run, runner, hid, hrun, ho, hne, hr, heligible, ⟨stats, rfl⟩, hcid ▸ hother, channel,
    decision, hc, hcid, hdec, rfl⟩

/-- With one row per user of the channel, the stats written are those before with blank
rows added and a least eligible one credited. -/
theorem credited_of_returns {channel : Uuid} (hone : OnePerUser channel db.runnerStats)
    (hres : res.channelId = channel.str)
    (h : (closeRun authorizer collation request now d).Returns db res db') :
    ∃ run runner loaded chosen creditedAt, run.channelId = channel ∧
      Closes collation request now db run runner res db' ∧ chosen.userId = runner.id ∧
      Prepared channel (participantIds collation run.id db) db.runnerStats loaded ∧
      Chosen channel (participantIds collation run.id db) (previousRunner run db)
        request.allowImmediateRepeat loaded chosen ∧
      db'.runnerStats = loaded.update chosen (credited chosen creditedAt) := by
  obtain ⟨run, row, decision, mid, runner, hid, hrun, ho, -, hc, hcid, hne, hassign, hp, hr,
    rfl, rfl⟩ := returns_closeRun h
  obtain rfl : row.id = channel := Uuid.str_inj.mp hres
  have hother : ∀ s, s.channelId ≠ row.id → (s ∈ mid.runnerStats ↔ s ∈ db.runnerStats) :=
    fun _ => assignRunner_other hassign
  obtain ⟨loaded, chosen, n, hprep, hchosen, hdec, rfl⟩ := assigned_of_returns hone hassign
  have hrunner : chosen.userId = runner.id := by
    rw [hdec, Uuid.parse_str, Option.some.injEq] at hp
    exact hp
  exact ⟨run, runner, loaded, chosen, d.clock n, hcid.symm,
    ⟨hid, hrun, ho, hne, hr, hrunner ▸ hchosen.eligible, ⟨_, rfl⟩, hcid ▸ hother, row,
      decision, hc, hcid, hdec.trans (congrArg Uuid.str hrunner), rfl⟩, hrunner, hprep, hchosen, rfl⟩

end Closes

/-! ### Refused calls -/

theorem runner_exists {id : Uuid} {channel : Uuid} {last : Option Uuid} {allow : Bool}
    {decision : FairnessDecision}
    (h : (assignRunner (.str channel.str) (idents (participantIds collation id db))
      (last.map Uuid.str) allow d).Returns db decision db') :
    ∃ user ∈ db'.users, Uuid.parse decision.runnerUserId = some user.id := by
  obtain ⟨u, ⟨hu, -⟩, hdec⟩ := eligible_of_returns h
  obtain ⟨-, user, huser, rfl⟩ := mem_participantIds.mp hu
  obtain ⟨_, _, _, _, _, hnd, -, hload, -, -, rfl⟩ := returns_assignRunner h
  obtain ⟨_, rfl, -⟩ := returns_loadStats hnd hload
  exact ⟨user, huser, by rw [hdec, Uuid.parse_str]⟩

theorem not_raises_getRunner {user : User} {runnerUserId : String} {e : Exc}
    (hp : Uuid.parse runnerUserId = some user.id) (hu : user ∈ db.users) :
    ¬(getRunner runnerUserId).Raises db e db' := by
  intro h
  have hret : (getRunner runnerUserId).Returns db user db := returns_getRunner.mpr ⟨hp, hu, rfl⟩
  have : (Except.ok user, db) = (Except.error e, db') := hret.symm.trans h
  simp at this

/-- After its reads a close raises nothing of its own: only a refused insert stops it. -/
theorem raises_closeRun_of_reads (hne : activeOrders collation run.id db ≠ []) {channel : Channel}
    {last : Option Uuid} {e : Exc}
    (h : (do
      let decision ← assignRunner (.str channel.id.str)
        ((activeOrders collation run.id db).map fun p => .str p.1.userId.str) (last.map Uuid.str)
        request.allowImmediateRepeat d
      let runner ← getRunner decision.runnerUserId
      updateRun run (finalized run runner.id now)
      let participants ← snapshotOrders now (activeOrders collation run.id db)
      return closeRunResult run channel decision runner participants now : Tx _).Raises db e db') :
    e = .integrityError := by
  have hids : (activeOrders collation run.id db).map (fun p => Ident.str p.1.userId.str) =
      idents (participantIds collation run.id db) := by
    rw [participantIds, idents, List.map_map]
    rfl
  simp only [hids, Program.raises_bind, raises_updating, raises_snapshotOrders,
    Program.raises_pure, and_false, exists_false, or_false] at h
  rcases h with h | ⟨decision, mid, hassign, h⟩
  · exact raises_assignRunner (fun h => hne (List.map_eq_nil_iff.mp h)) h
  · obtain ⟨user, hu, hp⟩ := runner_exists hassign
    exact absurd h (not_raises_getRunner hp hu)

theorem closeRun_failsClean :
    (closeRun authorizer collation request now d).FailsClean Exc.Raised db := by
  unfold closeRun
  refine .after_reads (readOnly_getRun _) fun run _ => ?_
  refine .after_reads readOnly_checkClosable fun _ _ => ?_
  refine .after_reads (readOnly_getChannel _) fun channel _ => ?_
  refine .after_reads (readOnly_loadActiveOrders _) fun orders ho => ?_
  obtain ⟨rfl, hne, -⟩ := returns_loadActiveOrders.mp ho
  refine .after_reads (Program.readOnly_query _) fun last _ => ?_
  intro e t h he
  rw [raises_closeRun_of_reads hne h] at he
  exact absurd he Exc.not_raised_integrityError

end CloseRunService
end CoffeeBuddy

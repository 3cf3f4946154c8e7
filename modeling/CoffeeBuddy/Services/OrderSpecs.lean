import CoffeeBuddy.Services.Orders

/-! What each order operation does: the rows it found, the rows it wrote and the
value it returned. Callers use these and never unfold an operation. -/

namespace CoffeeBuddy
open Relational Transaction

variable {db db' : Db} {v : OrderValidator} {d : Draws} {run : Run} {user : User}

/-! ### Lookups -/

namespace RunRepository

theorem get_eq (i : Ident) : get i = asUuid i >>= rowUnder Db.runs
    (.order (.runNotFound s!"Run {i} was not found.")) := by
  refine bind_congr fun id => bind_congr fun found => ?_
  cases found <;> rfl

@[simp] theorem returns_get {i : Ident} :
    (get i).Returns db run db' ↔ i.asUuid = some run.id ∧ run ∈ db.runs ∧ db' = db := by
  rw [get_eq]
  exact returns_asUuid_rowUnder

theorem readOnly_get (i : Ident) : (get i).ReadOnly := by
  rw [get_eq]
  exact readOnly_asUuid_rowUnder _ i

@[simp] theorem returns_getOpenRun {i : Ident} : (getOpenRun i).Returns db run db' ↔
    i.asUuid = some run.id ∧ run ∈ db.runs ∧ run.status = .open ∧ db' = db := by
  simp only [getOpenRun, Program.returns_bind, returns_get]
  constructor
  · rintro ⟨r, _, ⟨hu, hm, rfl⟩, h⟩
    split_ifs at h with ho
    · obtain ⟨rfl, rfl⟩ := Program.returns_pure.mp h
      exact ⟨hu, hm, ho, rfl⟩
    · exact absurd h returns_tx_raise
  · rintro ⟨hu, hm, ho, rfl⟩
    refine ⟨run, _, ⟨hu, hm, rfl⟩, ?_⟩
    rw [if_pos ho]
    exact Program.returns_pure.mpr ⟨rfl, rfl⟩

theorem readOnly_getOpenRun (i : Ident) : (getOpenRun i).ReadOnly := by
  refine (readOnly_get i).bind fun r => ?_
  split_ifs
  · exact Program.readOnly_pure _
  · exact Program.readOnly_raise _

end RunRepository

namespace UserRepository

theorem get_eq (i : Ident) : get i = asUuid i >>= rowUnder Db.users
    (.order (.userNotFound s!"User {i} does not exist.")) := by
  refine bind_congr fun id => bind_congr fun found => ?_
  cases found <;> rfl

@[simp] theorem returns_get {i : Ident} :
    (get i).Returns db user db' ↔ i.asUuid = some user.id ∧ user ∈ db.users ∧ db' = db := by
  rw [get_eq]
  exact returns_asUuid_rowUnder

theorem readOnly_get (i : Ident) : (get i).ReadOnly := by
  rw [get_eq]
  exact readOnly_asUuid_rowUnder _ i

end UserRepository

@[simp] theorem returns_validated {text normalized : String} :
    (validated v text).Returns db normalized db' ↔
      v.validate text = .ok normalized ∧ db' = db := by
  unfold validated
  cases v.validate text <;> simp [eq_comm]

theorem readOnly_validated (text : String) : (validated v text).ReadOnly := by
  unfold validated
  cases v.validate text
  · exact Program.readOnly_raise _
  · exact Program.readOnly_pure _

/-! ### Writing an order -/

namespace OrderRepository

def pairOf (o : Order) : Uuid × Uuid := (o.runId, o.userId)

theorem ofPair_iff {r u : Uuid} {o : Order} : ofPair r u o = true ↔ pairOf o = (r, u) := by
  simp only [ofPair, pairOf, Bool.and_eq_true, decide_eq_true_eq, Prod.mk.injEq]

theorem activeIn_iff {r : Uuid} {o : Order} :
    activeIn r o = true ↔ o.runId = r ∧ o.canceledAt = none := by
  simp only [activeIn, Bool.and_eq_true, decide_eq_true_eq, Option.isNone_iff_eq_none]

/-- No two rows of the table belong to one user in run `r`. -/
def UniqueIn (r : Uuid) (t : Table Order) : Prop :=
  ∀ o ∈ t, ∀ p ∈ t, o.runId = r → pairOf o = pairOf p → o = p

section UniqueIn
variable {t t' : Table Order}

theorem UniqueIn.of_mem {r : Uuid} (h : UniqueIn r t)
    (hmem : ∀ o : Order, o.runId = r → o ∈ t' → o ∈ t) : UniqueIn r t' := by
  intro o ho p hp hr hop
  have hpr : p.runId = r := (congrArg Prod.fst hop).symm.trans hr
  exact h o (hmem o hr ho) p (hmem p hpr hp) hr hop

/-- Writing the order of a pair keeps it the only one of the pair. -/
theorem UniqueIn.puts {r : Uuid} {order : Order} (h : UniqueIn r t)
    (hputs : t.Puts pairOf t' order) : UniqueIn r t' := by
  intro o ho p hp hr hop
  by_cases hoo : pairOf o = pairOf order
  · rw [hputs.unique ho hoo, hputs.unique hp (hop.symm.trans hoo)]
  · have hpo : pairOf p ≠ pairOf order := fun hp => hoo (hop.trans hp)
    exact h o ((hputs.other hoo).mp ho) p ((hputs.other hpo).mp hp) hr hop

theorem UniqueIn.puts_canceled {o : Order} (h : UniqueIn o.runId t) (ho : o ∈ t)
    (now : Timestamp) :
    t.Puts pairOf (t.update o { o with canceledAt := some now, updatedAt := now })
      { o with canceledAt := some now, updatedAt := now } :=
  Table.puts_update ho rfl rfl fun p hp hpo => h p hp o ho (congrArg Prod.fst hpo) hpo

end UniqueIn

/-- The table `t` is the orders `before` with `order` written for its run and user. -/
structure Upserted (before : Table Order) (run user : Uuid) (text : String) (confirm : Bool)
    (provenance : OrderProvenance) (now : Timestamp) (order : Order) (t : Table Order) : Prop where
  runId : order.runId = run
  userId : order.userId = user
  orderText : order.orderText = text
  isFinal : order.isFinal = confirm
  provenance : order.provenance = provenance.value
  canceledAt : order.canceledAt = none
  updatedAt : order.updatedAt = now
  written :
    (∃ existing, before.rows.find? (ofPair run user) = some existing ∧
      order.id = existing.id ∧ order.createdAt = existing.createdAt ∧
      t = before.update existing order) ∨
    before.rows.find? (ofPair run user) = none ∧ order.createdAt = now ∧
      before.insert order = some t

variable {r u : Uuid} {text : String} {confirm : Bool} {provenance : OrderProvenance}
  {now : Timestamp} {newId : Uuid} {order : Order} {before t : Table Order}

theorem readOnly_getOrder (i j : Ident) : (getOrder i j).ReadOnly :=
  (readOnly_asUuid i).bind fun _ => (readOnly_asUuid j).bind fun _ => Program.readOnly_query _

@[simp] theorem returns_getOrder {i j : Ident} {o : Option Order} :
    (getOrder i j).Returns db o db' ↔ ∃ r u, i.asUuid = some r ∧ j.asUuid = some u ∧
      o = db.orders.rows.find? (ofPair r u) ∧ db' = db := by
  simp only [getOrder, Program.returns_bind, returns_asUuid, Program.returns_query]
  constructor
  · rintro ⟨r, _, ⟨hr, rfl⟩, u, _, ⟨hu, rfl⟩, ho, rfl⟩
    exact ⟨r, u, hr, hu, ho, rfl⟩
  · rintro ⟨r, u, hr, hu, ho, rfl⟩
    exact ⟨r, _, ⟨hr, rfl⟩, u, _, ⟨hu, rfl⟩, ho, rfl⟩

theorem returns_upsertOrder
    (h : (upsertOrder (.uuid r) (.uuid u) text confirm provenance now newId).Returns db order db') :
    ∃ t, db' = { db with orders := t } ∧
      Upserted db.orders r u text confirm provenance now order t := by
  simp only [upsertOrder, Program.returns_bind, returns_getOrder, Ident.asUuid_uuid] at h
  obtain ⟨found, _, ⟨_, _, ⟨⟩, ⟨⟩, hf, rfl⟩, h⟩ := h
  cases found with
  | none =>
    simp only [Program.returns_bind, returns_asUuid, Ident.asUuid_uuid, returns_inserting,
      Program.returns_pure] at h
    obtain ⟨_, _, ⟨⟨⟩, rfl⟩, _, _, ⟨⟨⟩, rfl⟩, _, _, ⟨t, ht, rfl⟩, rfl, rfl⟩ := h
    exact ⟨t, rfl, rfl, rfl, rfl, rfl, rfl, rfl, rfl, Or.inr ⟨hf.symm, rfl, ht⟩⟩
  | some existing =>
    simp only [Program.returns_bind, returns_updating, Program.returns_pure] at h
    obtain ⟨_, _, rfl, rfl, rfl⟩ := h
    have hpair := ofPair_iff.mp (List.find?_some hf.symm)
    simp only [pairOf, Prod.mk.injEq] at hpair
    exact ⟨_, rfl, hpair.1, hpair.2, rfl, rfl, rfl, rfl, rfl, Or.inl ⟨existing, hf.symm, rfl, rfl, rfl⟩⟩

theorem raises_upsertOrder {e : Exc}
    (h : (upsertOrder (.uuid r) (.uuid u) text confirm provenance now newId).Raises db e db') :
    e = .integrityError ∧ db.orders.rows.find? (ofPair r u) = none ∧
      ∃ o ∈ db.orders, o.id = newId := by
  have hget : (getOrder (.uuid r) (.uuid u)).Returns db (db.orders.rows.find? (ofPair r u)) db :=
    returns_getOrder.mpr ⟨r, u, rfl, rfl, rfl, rfl⟩
  unfold upsertOrder at h
  rw [hget.bind_raises] at h
  cases hf : db.orders.rows.find? (ofPair r u) with
  | none =>
    simp only [hf, Program.raises_bind, raises_asUuid, returns_asUuid, Ident.asUuid_uuid,
      reduceCtorEq, false_and, raises_inserting, Program.raises_pure, and_false, exists_false,
      or_false, false_or, Table.insert_eq_none] at h
    obtain ⟨_, _, ⟨⟨⟩, rfl⟩, _, _, ⟨⟨⟩, rfl⟩, htaken, rfl, -⟩ := h
    exact ⟨rfl, rfl, htaken⟩
  | some existing =>
    simp only [hf, Program.raises_bind, raises_updating, Program.raises_pure, and_false,
      exists_false, or_self] at h

theorem Upserted.puts (h : Upserted before r u text confirm provenance now order t)
    (hu : UniqueIn r before) : before.Puts pairOf t order := by
  have hpair : pairOf order = (r, u) := by rw [pairOf, h.runId, h.userId]
  rcases h.written with ⟨existing, hf, hid, -, rfl⟩ | ⟨hf, -, hi⟩
  · have he : pairOf existing = (r, u) := ofPair_iff.mp (List.find?_some hf)
    have hm : existing ∈ before := List.mem_of_find?_eq_some hf
    refine Table.puts_update hm hid (hpair.trans he.symm) fun s hs hse => ?_
    exact (hu existing hm s hs (congrArg Prod.fst he) hse.symm).symm
  · refine Table.puts_insert hi fun s hs hne => ?_
    have := List.find?_eq_none.mp hf s hs
    exact this (ofPair_iff.mpr (hne.trans hpair))

theorem Upserted.mem (h : Upserted before r u text confirm provenance now order t) : order ∈ t := by
  rcases h.written with ⟨existing, hf, hid, -, rfl⟩ | ⟨-, -, hi⟩
  · exact (Table.mem_update (List.mem_of_find?_eq_some hf) hid).mpr (Or.inl rfl)
  · exact (Table.mem_insert hi).mpr (Or.inr rfl)

@[simp] theorem returns_countActiveOrders {n : ℕ} : (countActiveOrders (.uuid r)).Returns db n db' ↔
    n = db.orders.count (activeIn r) ∧ db' = db := by
  simp only [countActiveOrders, Program.returns_bind, returns_asUuid, Ident.asUuid_uuid,
    Program.returns_query]
  constructor
  · rintro ⟨_, _, ⟨⟨⟩, rfl⟩, h⟩
    exact h
  · exact fun h => ⟨r, db, ⟨rfl, rfl⟩, h⟩

theorem raises_countActiveOrders {e : Exc} :
    ¬(countActiveOrders (.uuid r)).Raises db e db' := by
  simp [countActiveOrders]

@[simp] theorem returns_cancelOrder {o : Order} {u : Unit} :
    (cancelOrder o now).Returns db u db' ↔
      db' = { db with
        orders := db.orders.update o { o with canceledAt := some now, updatedAt := now } } := by
  simp only [cancelOrder, returns_updating]

end OrderRepository

/-! ### The order rows of one run -/

def ofRun (r : Uuid) (o : Order) : Bool := o.runId = r

/-- The order rows of a run. -/
def ordersOf (r : Uuid) (db : Db) : List Order := db.orders.select (ofRun r)

section OrdersOf
open OrderRepository
variable {r run u : Uuid} {t before : Table Order} {o : Order} {db : Db}

theorem ofRun_iff : ofRun r o = true ↔ o.runId = r := decide_eq_true_iff

theorem ofRun_eq_false : ofRun r o = false ↔ o.runId ≠ r := decide_eq_false_iff_not

theorem mem_ordersOf : o ∈ ordersOf r db ↔ o ∈ db.orders ∧ o.runId = r := by
  rw [ordersOf, Table.mem_select, ofRun_iff]

theorem select_update_elsewhere {l m : Order} (hl : l ∈ t) (hid : m.id = l.id) (hold : l.runId ≠ r)
    (hnew : m.runId ≠ r) : (t.update l m).select (ofRun r) = t.select (ofRun r) := by
  apply Table.select_update
  intro q hq hk
  obtain rfl := Table.eq_of_key hq hl hk
  rw [Row.merge_loaded q m hid]
  exact ⟨ofRun_eq_false.mpr hold, ofRun_eq_false.mpr hnew⟩

theorem select_upserted {text : String} {confirm : Bool} {provenance : OrderProvenance}
    {now : Timestamp} {order : Order}
    (hup : Upserted before run u text confirm provenance now order t) (hne : run ≠ r) :
    t.select (ofRun r) = before.select (ofRun r) := by
  have hnew : order.runId ≠ r := hup.runId ▸ hne
  rcases hup.written with ⟨existing, hf, hid, -, rfl⟩ | ⟨-, -, hi⟩
  · have hold : existing.runId = run := congrArg Prod.fst (ofPair_iff.mp (List.find?_some hf))
    exact select_update_elsewhere (List.mem_of_find?_eq_some hf) hid (hold ▸ hne) hnew
  · rw [Table.select_insert hi, ofRun_eq_false.mpr hnew]
    exact List.append_nil _

theorem select_canceled (hf : t.rows.find? (ofPair run u) = some o) (hne : run ≠ r)
    (now : Timestamp) : (t.update o { o with canceledAt := some now, updatedAt := now }).select
      (ofRun r) = t.select (ofRun r) := by
  have hrun : o.runId = run := congrArg Prod.fst (ofPair_iff.mp (List.find?_some hf))
  have hother : o.runId ≠ r := hrun ▸ hne
  exact select_update_elsewhere (List.mem_of_find?_eq_some hf) rfl hother hother

end OrdersOf

/-! ### The operations -/

namespace OrderService
open OrderRepository PreferenceService

variable {text : String} {confirm : Bool} {provenance : OrderProvenance}

theorem returns_persistHolding {res : OrderSubmissionResult × Option UserPreference}
    (h : (persistHolding none run user text confirm provenance d).Returns db res db') :
    ∃ order orders prefs,
      Upserted db.orders run.id user.id text confirm provenance (d.clock 0) order orders ∧
      (confirm = false ∧ res.2 = none ∧ prefs = db.userPreferences ∨ confirm = true ∧
        ∃ p, res.2 = some p ∧
          Remembered db.userPreferences user.id run.channelId text (d.clock 1) p prefs) ∧
      db' = { db with orders := orders, userPreferences := prefs } ∧
      res.1 = ⟨order.id.str, orders.count (activeIn run.id), text, provenance, confirm⟩ := by
  simp only [persistHolding, rememberOrder, Program.returns_bind, returns_countActiveOrders,
    Program.returns_pure] at h
  obtain ⟨order, _, hret, written, _, hwritten, _, _, ⟨rfl, rfl⟩, rfl, rfl⟩ := h
  obtain ⟨orders, rfl, hup⟩ := returns_upsertOrder hret
  refine ⟨order, orders, ?_⟩
  cases confirm with
  | false =>
    obtain ⟨rfl, rfl⟩ := Program.returns_pure.mp hwritten
    exact ⟨_, hup, Or.inl ⟨rfl, rfl, rfl⟩, rfl, by rw [hup.orderText]⟩
  | true =>
    obtain ⟨p, hset, rfl⟩ := Program.returns_bind_pure.mp hwritten
    obtain ⟨prefs, rfl, hp⟩ := returns_setPreference hset
    rw [hup.orderText] at hp
    exact ⟨prefs, hup, Or.inr ⟨rfl, p, rfl, hp⟩, rfl, by rw [hup.orderText]⟩

/-- A session that holds the preference it would read anew does the same. -/
theorem exec_persistHolding_held {p : UserPreference}
    (hp : db.userPreferences.rows.find? (ofUser user.id run.channelId) = some p) :
    (persistHolding (some p) run user text confirm provenance d).exec db =
      (persistHolding none run user text confirm provenance d).exec db := by
  unfold persistHolding
  rw [Program.exec_bind, Program.exec_bind]
  rcases h : (upsertOrder (.uuid run.id) (.uuid user.id) text confirm provenance (d.clock 0)
    (d.uuid4 0)).exec db with ⟨error | order, mid⟩
  · rfl
  obtain ⟨orders, rfl, -⟩ := returns_upsertOrder h
  dsimp only
  rw [Program.exec_bind, Program.exec_bind]
  unfold rememberOrder
  cases confirm with
  | false => rfl
  | true =>
    have hmid : ({ db with orders := orders } : Db).userPreferences.rows.find?
        (ofUser user.id run.channelId) = some p := hp
    simp only [if_true, Program.exec_bind]
    rw [exec_setPreference_held hmid]

theorem returns_persistOrder {res : OrderSubmissionResult}
    (h : (persistOrder run user text confirm provenance d).Returns db res db') :
    ∃ order orders prefs,
      Upserted db.orders run.id user.id text confirm provenance (d.clock 0) order orders ∧
      (confirm = false ∧ prefs = db.userPreferences ∨ confirm = true ∧
        ∃ p, Remembered db.userPreferences user.id run.channelId text (d.clock 1) p prefs) ∧
      db' = { db with orders := orders, userPreferences := prefs } ∧
      res = ⟨order.id.str, orders.count (activeIn run.id), text, provenance, confirm⟩ := by
  obtain ⟨⟨result, written⟩, h, rfl⟩ := Program.returns_bind_pure.mp h
  obtain ⟨order, orders, prefs, hup, hprefs, hdb, hres⟩ := returns_persistHolding h
  refine ⟨order, orders, prefs, hup, ?_, hdb, hres⟩
  rcases hprefs with ⟨hconfirm, -, hkept⟩ | ⟨hconfirm, p, -, hp⟩
  · exact Or.inl ⟨hconfirm, hkept⟩
  · exact Or.inr ⟨hconfirm, p, hp⟩

theorem raises_persistOrder {e : Exc}
    (h : (persistOrder run user text confirm provenance d).Raises db e db') :
    e = .integrityError ∧ (db.orders.rows.find? (ofPair run.id user.id) = none ∧
        (∃ o ∈ db.orders, o.id = d.uuid4 0) ∨
      confirm = true ∧ db.userPreferences.rows.find? (ofUser user.id run.channelId) = none ∧
        ∃ p ∈ db.userPreferences, p.id = d.uuid4 1) := by
  have h := Program.raises_bind_pure.mp h
  simp only [persistHolding, Program.raises_bind] at h
  rcases h with h | ⟨order, mid, hup, h⟩
  · obtain ⟨he, htaken⟩ := raises_upsertOrder h
    exact ⟨he, Or.inl htaken⟩
  · obtain ⟨t, rfl, -⟩ := returns_upsertOrder hup
    cases confirm with
    | false =>
      simp only [rememberOrder, Bool.false_eq_true, if_false, Program.raises_pure,
        raises_countActiveOrders, and_false, exists_false, or_self] at h
    | true =>
      simp only [rememberOrder, if_true, Program.raises_bind, Program.raises_pure,
        raises_countActiveOrders, and_false, exists_false, or_false] at h
      obtain ⟨he, htaken⟩ := raises_setPreference h
      exact ⟨he, Or.inr ⟨rfl, htaken⟩⟩

theorem returns_submitOrder {request : OrderSubmissionRequest} {res : OrderSubmissionResult}
    (h : (submitOrder v request d).Returns db res db') :
    ∃ run user normalized, Uuid.parse request.runId = some run.id ∧ run ∈ db.runs ∧
      run.status = .open ∧ Uuid.parse request.userId = some user.id ∧ user ∈ db.users ∧
      v.validate request.orderText = .ok normalized ∧
      (persistOrder run user normalized request.confirm request.provenance d).Returns
        db res db' := by
  simp only [submitOrder, Program.returns_bind, RunRepository.returns_getOpenRun,
    UserRepository.returns_get, returns_validated] at h
  obtain ⟨run, _, ⟨hr, hrm, ho, rfl⟩, user, _, ⟨hu, hum, rfl⟩, normalized, _, ⟨hv, rfl⟩, h⟩ := h
  exact ⟨run, user, normalized, hr, hrm, ho, hu, hum, hv, h⟩

theorem readOnly_savedOrder (channel : Uuid) (userId : String) :
    (savedOrder user channel userId).ReadOnly := by
  refine (readOnly_getPreference _ _).bind fun p => ?_
  cases p
  · exact Program.readOnly_raise _
  · exact Program.readOnly_pure _

theorem returns_savedOrder {channel : Uuid} {userId : String} {p : UserPreference} :
    (savedOrder user channel userId).Returns db p db' ↔
      db.userPreferences.rows.find? (ofUser user.id channel) = some p ∧ db' = db := by
  simp only [savedOrder, Program.returns_bind, returns_getPreference]
  constructor
  · rintro ⟨found, _, ⟨hf, rfl⟩, h⟩
    cases found with
    | none => exact absurd h returns_tx_raise
    | some q =>
      obtain ⟨rfl, rfl⟩ := Program.returns_pure.mp h
      exact ⟨hf.symm, rfl⟩
  · rintro ⟨hf, rfl⟩
    exact ⟨some p, _, ⟨hf.symm, rfl⟩, Program.returns_pure.mpr ⟨rfl, rfl⟩⟩

/-- The object written is the stored row. -/
theorem object_written {p : UserPreference} {mid : Db} {submission : OrderSubmissionResult}
    {written : Option UserPreference}
    (hp : db.userPreferences.rows.find? (ofUser user.id run.channelId) = some p)
    (h : (persistHolding none run user text true provenance d).Returns db (submission, written)
      mid) : sessionObject written p = (mid.userPreferences.find? p.id).getD p := by
  obtain ⟨order, orders, prefs, -, hprefs, rfl, -⟩ := returns_persistHolding h
  rcases hprefs with ⟨hfalse, -⟩ | ⟨-, q, hq, hremembered⟩
  · cases hfalse
  · have hwritten : written = some q := hq
    have hkey : q.id = p.id := hremembered.id_eq hp
    have hfind : prefs.find? q.id = some q := Table.find?_key hremembered.mem
    rw [hwritten, sessionObject_of_key hkey, ← hkey]
    exact (congrArg (Option.getD · p) hfind).symm

theorem returns_useLastOrder {runId userId : String} {res : UseLastOrderResult}
    (h : (useLastOrder v runId userId d).Returns db res db') :
    ∃ run user p normalized mid, Uuid.parse runId = some run.id ∧ run ∈ db.runs ∧
      run.status = .open ∧ Uuid.parse userId = some user.id ∧ user ∈ db.users ∧
      db.userPreferences.rows.find? (ofUser user.id run.channelId) = some p ∧
      v.validate p.lastOrderText = .ok normalized ∧
      (persistOrder run user normalized true .preference d).Returns db res.submission mid ∧
      ∃ q, q = (mid.userPreferences.find? p.id).getD p ∧ res.preferenceId = q.id.str ∧
        db' = { mid with
          userPreferences := mid.userPreferences.update q
            { q with lastUsedAt := some (d.clock 2), updatedAt := d.clock 2 } } := by
  simp only [useLastOrder, Program.returns_bind, RunRepository.returns_getOpenRun,
    UserRepository.returns_get, returns_savedOrder, returns_validated, returns_markUsed,
    Program.returns_pure] at h
  obtain ⟨run, _, ⟨hr, hrm, ho, rfl⟩, user, _, ⟨hu, hum, rfl⟩, p, _, ⟨hp, rfl⟩, normalized, _,
    ⟨hv, rfl⟩, ⟨submission, written⟩, mid, hs, _, _, rfl, rfl, rfl⟩ := h
  have hs := (exec_persistHolding_held hp).symm.trans hs
  have hobject : sessionObject written p = (mid.userPreferences.find? p.id).getD p :=
    object_written hp hs
  refine ⟨run, user, p, normalized, mid, hr, hrm, ho, hu, hum, hp, hv, ?_, _, hobject, rfl, rfl⟩
  exact Program.returns_bind_pure.mpr ⟨_, hs, rfl⟩

theorem readOnly_activeOrder (runId userId : String) :
    (activeOrder run runId userId).ReadOnly := by
  refine (readOnly_getOrder _ _).bind fun found => ?_
  split
  · exact Program.readOnly_pure _
  · exact Program.readOnly_raise _

theorem returns_activeOrder {runId userId : String} {o : Order} :
    (activeOrder run runId userId).Returns db o db' ↔
      ∃ u, Uuid.parse userId = some u ∧ db.orders.rows.find? (ofPair run.id u) = some o ∧
        o.canceledAt = none ∧ db' = db := by
  simp only [activeOrder, Program.returns_bind, returns_getOrder, Ident.asUuid_uuid]
  constructor
  · rintro ⟨found, _, ⟨_, u, ⟨⟩, hu, hf, rfl⟩, h⟩
    split at h
    · rename_i order ho
      obtain ⟨rfl, rfl⟩ := Program.returns_pure.mp h
      rw [Option.filter_eq_some_iff] at ho
      exact ⟨u, hu, hf.symm.trans ho.1, Option.isNone_iff_eq_none.mp ho.2, rfl⟩
    · exact absurd h returns_tx_raise
  · rintro ⟨u, hu, hf, hc, rfl⟩
    refine ⟨some o, _, ⟨_, u, rfl, hu, hf.symm, rfl⟩, ?_⟩
    rw [show (some o).filter (fun o => o.canceledAt.isNone) = some o from
      if_pos (Option.isNone_iff_eq_none.mpr hc)]
    exact Program.returns_pure.mpr ⟨rfl, rfl⟩

/-- A user's active order in an open run is withdrawn by marking its row. -/
theorem returns_cancelOrder {runId userId : String} {res : OrderCancellationResult} :
    (cancelOrder runId userId d).Returns db res db' ↔
      ∃ run user o orders, Uuid.parse runId = some run.id ∧ run ∈ db.runs ∧ run.status = .open ∧
        Uuid.parse userId = some user.id ∧ user ∈ db.users ∧
        db.orders.rows.find? (ofPair run.id user.id) = some o ∧ o.canceledAt = none ∧
        orders = db.orders.update o
          { o with canceledAt := some (d.clock 0), updatedAt := d.clock 0 } ∧
        db' = { db with orders := orders } ∧
        res = ⟨o.id.str, orders.count (activeIn run.id)⟩ := by
  simp only [cancelOrder, Program.returns_bind, RunRepository.returns_getOpenRun,
    UserRepository.returns_get, returns_activeOrder, OrderRepository.returns_cancelOrder,
    returns_countActiveOrders, Program.returns_pure]
  constructor
  · rintro ⟨run, _, ⟨hr, hrm, ho, rfl⟩, user, _, ⟨hu, hum, rfl⟩, o, _, ⟨u, hu', hf, hc, rfl⟩,
      _, _, rfl, _, _, ⟨rfl, rfl⟩, rfl, rfl⟩
    obtain rfl : user.id = u := Option.some.inj (hu.symm.trans hu')
    exact ⟨run, user, o, _, hr, hrm, ho, hu, hum, hf, hc, rfl, rfl, rfl⟩
  · rintro ⟨run, user, o, orders, hr, hrm, ho, hu, hum, hf, hc, rfl, rfl, rfl⟩
    exact ⟨run, _, ⟨hr, hrm, ho, rfl⟩, user, _, ⟨hu, hum, rfl⟩, o, _, ⟨_, hu, hf, hc, rfl⟩,
      (), _, rfl, _, _, ⟨rfl, rfl⟩, rfl, rfl⟩

/-! ### Refused calls -/

theorem submitOrder_failsClean (request : OrderSubmissionRequest) :
    (submitOrder v request d).FailsClean Exc.Raised db := by
  unfold submitOrder
  refine .after_reads (RunRepository.readOnly_getOpenRun _) fun run _ => ?_
  refine .after_reads (UserRepository.readOnly_get _) fun user _ => ?_
  refine .after_reads (readOnly_validated _) fun normalized _ => ?_
  intro e t h he
  rw [(raises_persistOrder h).1] at he
  exact absurd he Exc.not_raised_integrityError

theorem useLastOrder_failsClean (runId userId : String) :
    (useLastOrder v runId userId d).FailsClean Exc.Raised db := by
  unfold useLastOrder
  refine .after_reads (RunRepository.readOnly_getOpenRun _) fun run _ => ?_
  refine .after_reads (UserRepository.readOnly_get _) fun user _ => ?_
  refine .after_reads (readOnly_savedOrder _ _) fun p hp => ?_
  refine .after_reads (readOnly_validated _) fun normalized _ => ?_
  intro e t h he
  simp only [Program.raises_bind, raises_markUsed, Program.raises_pure, and_false, exists_false,
    or_self, or_false] at h
  have h := (exec_persistHolding_held (returns_savedOrder.mp hp).1).symm.trans h
  rw [(raises_persistOrder (Program.raises_bind_pure.mpr h)).1] at he
  exact absurd he Exc.not_raised_integrityError

theorem cancelOrder_failsClean (runId userId : String) :
    (cancelOrder runId userId d).FailsClean Exc.Raised db := by
  unfold cancelOrder
  refine .after_reads (RunRepository.readOnly_getOpenRun _) fun run _ => ?_
  refine .after_reads (UserRepository.readOnly_get _) fun user _ => ?_
  refine .after_reads (readOnly_activeOrder _ _) fun o _ => ?_
  intro e t h _
  simp only [OrderRepository.cancelOrder, Program.raises_bind, raises_updating,
    raises_countActiveOrders, Program.raises_pure, and_false, exists_false, or_self] at h

end OrderService
end CoffeeBuddy

import CoffeeBuddy.Library.Within
import CoffeeBuddy.Properties.Preferences
import CoffeeBuddy.Services.Sessions

/-! What the schema does not check and no interleaving of calls breaks: the texts are those of
the validator, the provenance is one of the enumeration, a run has a runner and a closing time
exactly when it is closed, and no count is negative. -/

namespace CoffeeBuddy
open Relational Transaction

/-- The validator leaves the text as it is. -/
def OrderValidator.Accepts (v : OrderValidator) (text : String) : Prop := v.validate text = .ok text

structure Order.Proper (v : OrderValidator) (o : Order) : Prop where
  text : v.Accepts o.orderText
  provenance : ∃ p : OrderProvenance, o.provenance = p.value

def UserPreference.Proper (v : OrderValidator) (p : UserPreference) : Prop :=
  v.Accepts p.lastOrderText

structure Run.Proper (r : Run) : Prop where
  runner : r.runnerUserId.isSome = true ↔ r.status = .closed
  closedAt : r.closedAt.isSome = true ↔ r.status = .closed

def RunnerStat.Proper (s : RunnerStat) : Prop := 0 ≤ s.runsServedCount

structure Db.Proper (v : OrderValidator) (db : Db) : Prop where
  orders : ∀ o ∈ db.orders, o.Proper v
  preferences : ∀ p ∈ db.userPreferences, p.Proper v
  runs : ∀ r ∈ db.runs, r.Proper
  stats : ∀ s ∈ db.runnerStats, s.Proper

/-- Any error but that of a refused text. -/
def Unrefused (e : Exc) : Prop := ∀ message field, e ≠ .order (.orderValidation message field)

/-- The program keeps the database proper and refuses no text. -/
abbrev Careful {α : Type} (v : OrderValidator) (p : Tx α) (Q : α → Prop) : Prop :=
  p.Within (Db.Proper v) Unrefused Q

/-! ### The statements -/

/-- The table holds rows in `P` and may take any such rows. -/
structure Takes {ρ : Type} [Keyed ρ Uuid] (v : OrderValidator) (P : ρ → Prop)
    (table : Db → Table ρ) (store : Db → Table ρ → Db) : Prop where
  holds : ∀ db, db.Proper v → ∀ r ∈ table db, P r
  takes : ∀ db, db.Proper v → ∀ t, (∀ r ∈ t, P r) → (store db t).Proper v

section Statements
variable {v : OrderValidator} {α : Type}

theorem takes_orders :
    Takes v (Order.Proper v) Db.orders fun db (t : Table Order) => { db with orders := t } :=
  ⟨fun _ h => h.orders, fun _ h _ ht => ⟨ht, h.preferences, h.runs, h.stats⟩⟩

theorem takes_preferences : Takes v (UserPreference.Proper v) Db.userPreferences
    fun db (t : Table UserPreference) => { db with userPreferences := t } :=
  ⟨fun _ h => h.preferences, fun _ h _ ht => ⟨h.orders, ht, h.runs, h.stats⟩⟩

theorem takes_runs :
    Takes v Run.Proper Db.runs fun db (t : Table Run) => { db with runs := t } :=
  ⟨fun _ h => h.runs, fun _ h _ ht => ⟨h.orders, h.preferences, ht, h.stats⟩⟩

theorem takes_stats : Takes v RunnerStat.Proper Db.runnerStats
    fun db (t : Table RunnerStat) => { db with runnerStats := t } :=
  ⟨fun _ h => h.stats, fun _ h _ ht => ⟨h.orders, h.preferences, h.runs, ht⟩⟩

theorem takes_channels : Takes v (fun _ => True) Db.channels
    fun db (t : Table Channel) => { db with channels := t } :=
  ⟨fun _ _ _ _ => trivial, fun _ h _ _ => ⟨h.orders, h.preferences, h.runs, h.stats⟩⟩

section Keyed
variable {ρ : Type} [Keyed ρ Uuid] {P : ρ → Prop} {table : Db → Table ρ}
  {store : Db → Table ρ → Db}

theorem unrefused_integrityError : Unrefused .integrityError := by
  intro message field h
  cases h

theorem careful_inserting (h : Takes v P table store) {r : ρ} (hr : P r) :
    Careful v (inserting table store r) fun _ => True := by
  apply Program.within_execute
  constructor
  · intro s t hs hwrite
    unfold insertion at hwrite
    split at hwrite
    · rename_i u hu
      obtain rfl := Except.ok.inj hwrite
      apply h.takes s hs
      intro q hq
      rcases (Table.mem_insert hu).mp hq with hq | rfl
      · exact h.holds s hs q hq
      · exact hr
    · cases hwrite
  · intro s e _ hwrite
    unfold insertion at hwrite
    split at hwrite
    · cases hwrite
    · exact Except.error.inj hwrite ▸ unrefused_integrityError

theorem careful_deleting (h : Takes v P table store) (p : Db → ρ → Bool) :
    Careful v (deleting table store p) fun _ => True := by
  refine .select fun s _ => .write ⟨?_, ?_⟩ (.ret trivial)
  · intro s t hs hwrite
    obtain rfl := Except.ok.inj hwrite
    apply h.takes s hs
    intro q hq
    exact h.holds s hs q (Table.mem_delete.mp hq).1
  · intro s e _ hwrite
    cases hwrite

end Keyed

theorem careful_updating {ρ : Type} [Row ρ Uuid] {P : ρ → Prop} {table : Db → Table ρ}
    {store : Db → Table ρ → Db} (h : Takes v P table store) {l m : ρ}
    (hm : ∀ c, P c → P (Row.merge l m c)) :
    Careful v (updating table store l m) fun _ => True := by
  apply Program.within_execute
  constructor
  · intro s t hs hwrite
    obtain rfl := Except.ok.inj hwrite
    apply h.takes s hs
    intro q hq
    obtain ⟨c, hc, rfl⟩ := Table.mem_update'.mp hq
    have hproper : P c := h.holds s hs c hc
    split_ifs
    · exact hm c hproper
    · exact hproper
  · intro s e _ hwrite
    cases hwrite

theorem column_in {α : Type} [DecidableEq α] {P : α → Prop} {l m c : α} (hm : P m) (hc : P c) :
    P (column l m c) := by
  unfold column
  split_ifs
  · exact hc
  · exact hm

theorem Order.Proper.merge {l m c : Order} (hm : m.Proper v) (hc : c.Proper v) :
    (Row.merge l m c).Proper v :=
  ⟨column_in (P := v.Accepts) hm.text hc.text,
    column_in (P := fun text => ∃ p : OrderProvenance, text = p.value) hm.provenance hc.provenance⟩

theorem careful_updateOrder {l m : Order} (hm : m.Proper v) :
    Careful v (updateOrder l m) fun _ => True :=
  careful_updating takes_orders fun _ hc => hm.merge hc

theorem careful_updatePreference {l m : UserPreference} (hm : m.Proper v) :
    Careful v (updatePreference l m) fun _ => True :=
  careful_updating takes_preferences fun _ hc => column_in (P := v.Accepts) hm hc

theorem careful_updateStat {l m : RunnerStat} (hm : m.Proper) :
    Careful v (updateStat l m) fun _ => True :=
  careful_updating takes_stats fun _ hc => column_in (P := fun n : ℤ => 0 ≤ n) hm hc

theorem careful_updateChannel {l m : Channel} : Careful v (updateChannel l m) fun _ => True :=
  careful_updating takes_channels fun _ _ => trivial

/-- A close overwrites the runner and the time of whoever has closed the run meanwhile. -/
theorem careful_finalize {run : Run} (hrun : run.Proper) (hopen : run.status = .open)
    (runner : Uuid) (now : Timestamp) :
    Careful v (updateRun run (CloseRunService.finalized run runner now)) fun _ => True := by
  apply careful_updating takes_runs
  intro c _
  have hrunner : run.runnerUserId = none := by
    by_contra hsome
    have hclosed := hrun.runner.mp (Option.isSome_iff_ne_none.mpr hsome)
    exact absurd (hopen.symm.trans hclosed) (by decide)
  have hclosedAt : run.closedAt = none := by
    by_contra hsome
    have hclosed := hrun.closedAt.mp (Option.isSome_iff_ne_none.mpr hsome)
    exact absurd (hopen.symm.trans hclosed) (by decide)
  have hstatus : (Row.merge run (CloseRunService.finalized run runner now) c).status = .closed :=
    column_changed (by rw [hopen]; exact RunStatus.noConfusion) c.status
  have hset : (Row.merge run (CloseRunService.finalized run runner now) c).runnerUserId =
      some runner := column_changed (by rw [hrunner]; exact Option.some_ne_none _) c.runnerUserId
  have htime : (Row.merge run (CloseRunService.finalized run runner now) c).closedAt = some now :=
    column_changed (by rw [hclosedAt]; exact Option.some_ne_none _) c.closedAt
  constructor
  · rw [hset, hstatus]
    exact iff_of_true rfl rfl
  · rw [htime, hstatus]
    exact iff_of_true rfl rfl

end Statements

/-! ### Orders and preferences -/

section Orders
variable {v : OrderValidator} {α : Type}

theorem careful_pure {Q : α → Prop} {a : α} (h : Q a) : Careful v (pure a) Q :=
  Program.within_pure h

theorem careful_raise {Q : α → Prop} {e : Exc} (h : Unrefused e) : Careful v (Tx.raise e) Q :=
  .raise h

theorem careful_asUuid (i : Ident) : Careful v (asUuid i) fun _ => True := by
  unfold asUuid
  cases i.asUuid with
  | none => exact careful_raise fun _ _ h => Exc.noConfusion h
  | some u => exact careful_pure trivial

theorem careful_rowUnder {ρ : Type} [Keyed ρ Uuid] {P : ρ → Prop} {table : Db → Table ρ}
    {missing : Exc} (hP : ∀ db, Db.Proper v db → ∀ r ∈ table db, P r) (h : Unrefused missing)
    (id : Uuid) : Careful v (rowUnder table missing id) P := by
  have hfound : ∀ db, Db.Proper v db → ∀ r ∈ (table db).find? id, P r := fun db hdb r hr =>
    hP db hdb r (Table.find?_eq_some.mp hr).1
  have hquery := Program.within_query (E := Unrefused) (Q := fun found => ∀ r ∈ found, P r) hfound
  refine hquery.bind fun found hrow => ?_
  cases found with
  | none => exact careful_raise h
  | some r => exact careful_pure (hrow r rfl)

theorem careful_getRun (i : Ident) : Careful v (RunRepository.get i) Run.Proper := by
  rw [RunRepository.get_eq]
  refine (careful_asUuid i).bind fun id _ => ?_
  exact careful_rowUnder (fun _ h => h.runs) (fun _ _ h => by cases h) id

theorem careful_getOpenRun (i : Ident) :
    Careful v (RunRepository.getOpenRun i) fun run => run.Proper ∧ run.status = .open := by
  refine (careful_getRun i).bind fun run hrun => ?_
  split_ifs with hopen
  · exact careful_pure ⟨hrun, hopen⟩
  · exact careful_raise fun _ _ h => by cases h

theorem careful_getUser (i : Ident) : Careful v (UserRepository.get i) fun _ => True := by
  rw [UserRepository.get_eq]
  refine (careful_asUuid i).bind fun id _ => ?_
  exact careful_rowUnder (fun _ _ _ _ => trivial) (fun _ _ h => by cases h) id

/-- The validation of a text the validator takes. -/
theorem careful_validated {text normalized : String} (h : v.validate text = .ok normalized) :
    Careful v (validated v text) fun t => t = normalized := by
  unfold validated
  rw [h]
  exact careful_pure rfl

theorem careful_getOrder (i j : Ident) :
    Careful v (OrderRepository.getOrder i j) fun found => ∀ o ∈ found, o.Proper v := by
  unfold OrderRepository.getOrder
  refine (careful_asUuid i).bind fun run _ => ?_
  refine (careful_asUuid j).bind fun user _ => ?_
  apply Program.within_query
  intro db hdb o ho
  exact hdb.orders o (List.mem_of_find?_eq_some ho)

theorem careful_upsertOrder (i j : Ident) {text : String} (htext : v.Accepts text) (confirm : Bool)
    (provenance : OrderProvenance) (now : Timestamp) (newId : Uuid) :
    Careful v (OrderRepository.upsertOrder i j text confirm provenance now newId)
      fun o => o.Proper v := by
  unfold OrderRepository.upsertOrder
  refine (careful_getOrder i j).bind fun found _ => ?_
  cases found with
  | some existing =>
    have hproper : Order.Proper v { existing with
        orderText := text, isFinal := confirm, provenance := provenance.value
        canceledAt := none, updatedAt := now } := ⟨htext, provenance, rfl⟩
    exact (careful_updateOrder hproper).bind fun _ _ => careful_pure hproper
  | none =>
    refine (careful_asUuid i).bind fun run _ => ?_
    refine (careful_asUuid j).bind fun user _ => ?_
    have hproper : Order.Proper v
        { id := newId, runId := run, userId := user, orderText := text, isFinal := confirm
          provenance := provenance.value, canceledAt := none, createdAt := now
          updatedAt := now } := ⟨htext, provenance, rfl⟩
    exact (careful_inserting takes_orders hproper).bind fun _ _ => careful_pure hproper

theorem careful_getPreference (i j : Ident) :
    Careful v (PreferenceService.getPreference i j) fun found => ∀ p ∈ found, p.Proper v := by
  unfold PreferenceService.getPreference
  refine (careful_asUuid i).bind fun user _ => ?_
  refine (careful_asUuid j).bind fun channel _ => ?_
  apply Program.within_query
  intro db hdb p hp
  exact hdb.preferences p (List.mem_of_find?_eq_some hp)

theorem careful_setPreference (held : Option UserPreference) (i j : Ident) {text : String}
    (htext : v.Accepts text) (now : Timestamp) (newId : Uuid) :
    Careful v (PreferenceService.setPreference held i j text now newId) fun p => p.Proper v := by
  unfold PreferenceService.setPreference
  refine (careful_getPreference i j).bind fun found _ => ?_
  cases found with
  | some row =>
    have hproper : UserPreference.Proper v { sessionObject held row with
        lastOrderText := text, lastUsedAt := some now, updatedAt := now } := htext
    exact (careful_updatePreference hproper).bind fun _ _ => careful_pure hproper
  | none =>
    refine (careful_asUuid i).bind fun user _ => ?_
    refine (careful_asUuid j).bind fun channel _ => ?_
    have hproper : UserPreference.Proper v
        { id := newId, userId := user, channelId := channel, lastOrderText := text
          lastUsedAt := some now, createdAt := now, updatedAt := now } := htext
    exact (careful_inserting takes_preferences hproper).bind fun _ _ => careful_pure hproper

theorem careful_markUsed {p : UserPreference} (hp : p.Proper v) (now : Timestamp) :
    Careful v (PreferenceService.markUsed p now) fun _ => True := by
  have hproper : UserPreference.Proper v { p with lastUsedAt := some now, updatedAt := now } := hp
  exact careful_updatePreference hproper

theorem careful_withdraw {o : Order} (ho : o.Proper v) (now : Timestamp) :
    Careful v (OrderRepository.cancelOrder o now) fun _ => True := by
  have hproper : Order.Proper v { o with canceledAt := some now, updatedAt := now } :=
    ⟨ho.text, ho.provenance⟩
  exact careful_updateOrder hproper

theorem careful_countActiveOrders (i : Ident) :
    Careful v (OrderRepository.countActiveOrders i) fun _ => True := by
  unfold OrderRepository.countActiveOrders
  refine (careful_asUuid i).bind fun run _ => ?_
  exact Program.within_query fun _ _ => trivial

theorem careful_rememberOrder (held : Option UserPreference) (run : Run) (user : User)
    {text : String} (htext : v.Accepts text) (confirm : Bool) (d : Draws) :
    Careful v (OrderService.rememberOrder held run user text confirm d)
      fun written => ∀ p ∈ written, p.Proper v := by
  unfold OrderService.rememberOrder
  split_ifs
  · refine (careful_setPreference held _ _ htext ..).bind fun p hp => careful_pure ?_
    intro q hq
    exact Option.some.inj hq ▸ hp
  · exact careful_pure fun p hp => absurd hp (Option.not_mem_none p)

theorem careful_persistHolding (held : Option UserPreference) (run : Run) (user : User)
    {text : String} (htext : v.Accepts text) (confirm : Bool) (provenance : OrderProvenance)
    (d : Draws) :
    Careful v (OrderService.persistHolding held run user text confirm provenance d)
      fun persisted => v.Accepts persisted.1.orderText ∧ ∀ p ∈ persisted.2, p.Proper v := by
  unfold OrderService.persistHolding
  refine (careful_upsertOrder _ _ htext ..).bind fun order horder => ?_
  refine (careful_rememberOrder held run user horder.text confirm d).bind fun written hwritten => ?_
  exact (careful_countActiveOrders _).bind fun _ _ => careful_pure ⟨horder.text, hwritten⟩

/-- A submission is refused for its own text only. -/
def RefusedFor (v : OrderValidator) (text : String) (e : Exc) : Prop :=
  ∀ message field, e = .order (.orderValidation message field) →
    v.validate text = .error (.orderValidation message field)

theorem Unrefused.refusedFor {e : Exc} (h : Unrefused e) (text : String) : RefusedFor v text e :=
  fun message field he => absurd he (h message field)

theorem within_validated (text : String) : (validated v text).Within (Db.Proper v)
    (RefusedFor v text) v.Accepts := by
  unfold validated
  cases htext : v.validate text with
  | ok normalized => exact .ret (validate_validated htext)
  | error e =>
    refine .raise fun message field he => ?_
    rw [htext, Exc.order.inj he]

theorem within_submitOrder (request : OrderSubmissionRequest) (d : Draws) :
    (OrderService.submitOrder v request d).Within (Db.Proper v) (RefusedFor v request.orderText)
      fun result => v.Accepts result.orderText := by
  have hunrefused : ∀ e, Unrefused e → RefusedFor v request.orderText e := fun e he =>
    he.refusedFor request.orderText
  unfold OrderService.submitOrder
  refine ((careful_getOpenRun _).mono hunrefused fun _ h => h).bind fun run _ => ?_
  refine ((careful_getUser _).mono hunrefused fun _ h => h).bind fun user _ => ?_
  refine (within_validated request.orderText).bind fun text htext => ?_
  have hpersist : Careful v (OrderService.persistOrder run user text request.confirm
      request.provenance d) fun result => v.Accepts result.orderText :=
    (careful_persistHolding none run user htext ..).bind fun _ h => careful_pure h.1
  exact hpersist.mono hunrefused fun _ h => h

/-- A saved text passes its validation again, so the last order is never refused. -/
theorem careful_useLastOrder (runId userId : String) (d : Draws) :
    Careful v (OrderService.useLastOrder v runId userId d)
      fun result => v.Accepts result.submission.orderText := by
  unfold OrderService.useLastOrder
  refine (careful_getOpenRun _).bind fun run _ => ?_
  refine (careful_getUser _).bind fun user _ => ?_
  have hsaved : Careful v (OrderService.savedOrder user run.channelId userId)
      fun p => p.Proper v := by
    unfold OrderService.savedOrder
    refine (careful_getPreference _ _).bind fun found hfound => ?_
    cases found with
    | none => exact careful_raise fun _ _ h => by cases h
    | some p => exact careful_pure (hfound p rfl)
  refine hsaved.bind fun p hp => ?_
  refine (careful_validated hp).bind fun text htext => ?_
  have haccepts : v.Accepts text := htext ▸ hp
  refine (careful_persistHolding (some p) run user haccepts ..).bind fun persisted hpersisted => ?_
  have hobject : (sessionObject persisted.2 p).Proper v :=
    sessionObject_cases (fun q hq _ => hpersisted.2 q hq) hp
  exact (careful_markUsed hobject _).bind fun _ _ => careful_pure hpersisted.1

theorem careful_cancelOrder (runId userId : String) (d : Draws) :
    Careful v (OrderService.cancelOrder runId userId d) fun _ => True := by
  unfold OrderService.cancelOrder
  refine (careful_getOpenRun _).bind fun run _ => ?_
  refine (careful_getUser _).bind fun user _ => ?_
  have hactive : Careful v (OrderService.activeOrder run runId userId) fun o => o.Proper v := by
    unfold OrderService.activeOrder
    refine (careful_getOrder _ _).bind fun found hfound => ?_
    cases hactive : found.filter fun o => o.canceledAt.isNone with
    | none => exact careful_raise fun _ _ h => by cases h
    | some o => exact careful_pure (hfound o (Option.filter_eq_some_iff.mp hactive).1)
  refine hactive.bind fun o ho => ?_
  refine (careful_withdraw ho _).bind fun _ _ => ?_
  exact (careful_countActiveOrders _).bind fun _ _ => careful_pure trivial

end Orders

/-! ### The runner -/

namespace FairnessService
variable {v : OrderValidator} {d : Draws}

theorem careful_asUuids (texts : List String) : Careful v (asUuids texts) fun _ => True := by
  induction texts with
  | nil => exact careful_pure trivial
  | cons text texts ih =>
    unfold asUuids
    refine (careful_asUuid _).bind fun u _ => ?_
    exact ih.bind fun us _ => careful_pure trivial

theorem careful_createMissing (channel : Uuid) (n : ℕ) (texts : List String)
    (stats : Dict String RunnerStat) (hstats : ∀ s ∈ stats.values, s.Proper) :
    Careful v (createMissing channel d n texts stats) fun loaded =>
      ∀ s ∈ loaded.1.values, s.Proper := by
  induction texts generalizing n stats with
  | nil => exact careful_pure hstats
  | cons text texts ih =>
    unfold createMissing
    split
    · exact ih n stats hstats
    · refine (careful_asUuid _).bind fun user _ => ?_
      have hnew : (newStat channel d n user).Proper := Int.le_refl 0
      refine (careful_inserting takes_stats hnew).bind fun _ _ => ih _ _ fun s hs => ?_
      obtain ⟨k, hk⟩ := Dict.mem_values.mp hs
      rcases Dict.mem_of_mem_set hk with hold | hadded
      · exact hstats s (Dict.mem_values.mpr ⟨k, hold⟩)
      · rw [(Prod.mk.inj hadded).2]
        exact hnew

theorem careful_loadStats (channel : Uuid) (texts : List String) :
    Careful v (loadStats channel texts d) fun loaded => ∀ s ∈ loaded.1.values, s.Proper := by
  unfold loadStats
  refine (careful_asUuids texts).bind fun users _ => ?_
  have hrows : Careful v (Program.query fun db => db.runnerStats.select (servesIn channel users))
      fun rows => ∀ s ∈ rows, s.Proper := by
    apply Program.within_query
    intro db hdb s hs
    exact hdb.stats s (Table.mem_select.mp hs).1
  refine hrows.bind fun rows hrows => ?_
  apply careful_createMissing
  intro s hs
  obtain ⟨k, hk⟩ := Dict.mem_values.mp hs
  exact hrows s (Dict.mem_of_mem_ofValues hk).1

theorem careful_assignRunner (channelId : Ident) (participants : List Ident) (last : Option String)
    (allow : Bool) :
    Careful v (assignRunner channelId participants last allow d) fun _ => True := by
  unfold assignRunner
  dsimp only
  split_ifs
  · exact careful_raise fun _ _ h => by cases h
  · refine (careful_asUuid _).bind fun channel _ => ?_
    refine (careful_loadStats channel _).bind fun loaded hloaded => ?_
    have hchoose : Careful v (choose (candidates loaded.1 last allow)) RunnerStat.Proper := by
      unfold choose
      cases hmin : (candidates loaded.1 last allow).argmin sortKey with
      | none => exact careful_raise fun _ _ h => by cases h
      | some chosen =>
        exact careful_pure (hloaded chosen (mem_values_of_mem_candidates (List.argmin_mem hmin)))
    refine hchoose.bind fun chosen hchosen => ?_
    have hcredited : (credited chosen (d.clock loaded.2)).Proper :=
      Int.add_nonneg hchosen (by decide)
    refine (careful_updateStat hcredited).bind fun _ _ => ?_
    have hcount : Careful v (previousCount loaded.1 chosen.userId.str) fun _ => True := by
      unfold previousCount
      cases loaded.1.get? chosen.userId.str with
      | none => exact careful_raise fun _ _ h => by cases h
      | some s => exact careful_pure trivial
    exact hcount.bind fun _ _ => careful_pure trivial

end FairnessService

/-! ### The close -/

/-- A line of a summary, as an order that is kept properly makes it. -/
structure ParticipantOrder.Proper (v : OrderValidator) (p : ParticipantOrder) : Prop where
  text : v.Accepts p.orderText
  provenance : ∃ q : OrderProvenance, p.provenance = q.value

namespace CloseRunService
variable {v : OrderValidator} {d : Draws}

theorem careful_getRun (runId : String) : Careful v (getRun runId) Run.Proper := by
  rw [getRun_eq]
  refine (careful_asUuid _).bind fun id _ => ?_
  exact careful_rowUnder (fun _ h => h.runs) (fun _ _ h => by cases h) id

theorem careful_checkClosable (authorizer : CloseRunAuthorizer) (request : CloseRunRequest)
    (run : Run) : Careful v (checkClosable authorizer request run) fun _ => run.status = .open := by
  unfold checkClosable
  split_ifs with hstatus
  · exact careful_raise fun _ _ h => by cases h
  · exact careful_pure (not_not.mp hstatus)
  · exact careful_raise fun _ _ h => by cases h

theorem careful_loadActiveOrders (collation : Collation) (run : Uuid) :
    Careful v (loadActiveOrders collation run) fun orders =>
      orders ≠ [] ∧ ∀ p ∈ orders, p.1.Proper v := by
  have hread : Careful v (Program.query (activeOrders collation run))
      fun orders => ∀ p ∈ orders, p.1.Proper v := by
    apply Program.within_query
    intro db hdb p hp
    exact hdb.orders p.1 (mem_activeOrders.mp hp).1
  unfold loadActiveOrders
  refine hread.bind fun orders horders => ?_
  split_ifs with hnone
  · exact careful_raise fun _ _ h => by cases h
  · exact careful_pure ⟨hnone, horders⟩

theorem careful_snapshotOrders (now : Timestamp) (orders : List (Order × User))
    (h : ∀ p ∈ orders, p.1.Proper v) : Careful v (snapshotOrders now orders) fun participants =>
      participants.length = orders.length ∧ ∀ p ∈ participants, p.Proper v := by
  induction orders with
  | nil => exact careful_pure ⟨rfl, List.forall_mem_nil _⟩
  | cons p orders ih =>
    obtain ⟨o, user⟩ := p
    have hfirst : o.Proper v := h (o, user) List.mem_cons_self
    have hsnapshot : (snapshotted o now).Proper v := ⟨hfirst.text, hfirst.provenance⟩
    have hline : (participant o user).Proper v := ⟨hfirst.text, hfirst.provenance⟩
    unfold snapshotOrders
    refine (careful_updateOrder hsnapshot).bind fun _ _ => ?_
    refine (ih fun p hp => h p (List.mem_cons_of_mem _ hp)).bind fun participants hparts => ?_
    refine careful_pure ⟨congrArg (· + 1) hparts.1, ?_⟩
    exact List.forall_mem_cons.mpr ⟨hline, hparts.2⟩

theorem careful_closeRun (authorizer : CloseRunAuthorizer) (collation : Collation)
    (request : CloseRunRequest) (now : Timestamp) :
    Careful v (closeRun authorizer collation request now d) fun result =>
      result.summary.participants ≠ [] ∧ ∀ p ∈ result.summary.participants, p.Proper v := by
  unfold closeRun
  refine (careful_getRun _).bind fun run hrun => ?_
  refine (careful_checkClosable ..).bind fun _ hopen => ?_
  have hchannel : Careful v (getChannel run.channelId) fun _ => True := by
    rw [getChannel_eq]
    exact careful_rowUnder (fun _ _ _ _ => trivial) (fun _ _ h => by cases h) _
  refine hchannel.bind fun channel _ => ?_
  refine (careful_loadActiveOrders collation run.id).bind fun orders horders => ?_
  have hlast : Careful v (Program.query (previousRunner run)) fun _ => True :=
    Program.within_query fun _ _ => trivial
  refine hlast.bind fun last _ => ?_
  refine (FairnessService.careful_assignRunner ..).bind fun decision _ => ?_
  have hrunner : Careful v (getRunner decision.runnerUserId) fun _ => True := by
    rw [getRunner_eq]
    refine (careful_asUuid _).bind fun id _ => ?_
    exact careful_rowUnder (fun _ _ _ _ => trivial) (fun _ _ h => by cases h) id
  refine hrunner.bind fun runner _ => ?_
  refine (careful_finalize hrun hopen runner.id now).bind fun _ _ => ?_
  refine (careful_snapshotOrders now orders horders.2).bind fun participants hparts => ?_
  refine careful_pure ⟨fun hnone => ?_, hparts.2⟩
  have hempty : orders.length = 0 := hparts.1.symm.trans (congrArg List.length hnone)
  exact horders.1 (List.length_eq_zero_iff.mp hempty)

end CloseRunService

/-! ### Admin calls -/

namespace AdminService
variable {v : OrderValidator} {d : Draws} {a : SlackAdminAuthorizer} {schema : AuditSchema}

theorem careful_getChannel (slackChannelId : String) :
    Careful v (getChannel slackChannelId) fun _ => True := by
  unfold getChannel
  refine (Program.within_query (Q := fun _ => True) fun _ _ => trivial).bind fun found _ => ?_
  split
  · exact careful_raise fun _ _ h => by cases h
  · exact careful_pure trivial
  · exact careful_raise fun _ _ h => by cases h

theorem careful_assertAuthorized (actor : AdminActor) :
    Careful v (a.assertAuthorized actor) fun _ => True := by
  unfold SlackAdminAuthorizer.assertAuthorized
  split_ifs
  · exact careful_pure trivial
  · exact careful_raise fun _ _ h => by cases h

theorem careful_configUpdates (channel : Channel) (patch : ChannelConfigPatch) :
    Careful v (configUpdates channel patch) fun _ => True := by
  unfold configUpdates
  cases buildConfigUpdates channel patch with
  | ok updates => exact careful_pure trivial
  | error e => exact careful_raise fun _ _ h => by cases h

theorem careful_logAction (channelId : Uuid) (adminUserId : String)
    (actionType : ChannelAdminActionType) (details : ActionDetails) (newId : Uuid) :
    Careful v (AdminAuditLogger.logAction schema channelId adminUserId actionType details newId)
      fun _ => True := by
  unfold AdminAuditLogger.logAction
  apply Program.within_execute
  constructor
  · intro s t hs hwrite
    split at hwrite
    · obtain rfl := Except.ok.inj hwrite
      exact ⟨hs.orders, hs.preferences, hs.runs, hs.stats⟩
    · cases hwrite
  · intro s e _ hwrite
    split at hwrite
    · cases hwrite
    · exact Except.error.inj hwrite ▸ unrefused_integrityError

theorem careful_updateChannelConfig (slackChannelId : String) (actor : AdminActor)
    (patch : ChannelConfigPatch) :
    Careful v (updateChannelConfig a schema slackChannelId actor patch d) fun _ => True := by
  unfold updateChannelConfig
  refine (careful_getChannel _).bind fun channel _ => ?_
  refine (careful_assertAuthorized actor).bind fun _ _ => ?_
  refine (careful_configUpdates channel patch).bind fun updates _ => ?_
  split_ifs
  · exact careful_pure trivial
  · refine careful_updateChannel.bind fun _ _ => ?_
    exact (careful_logAction ..).bind fun _ _ => careful_pure trivial

theorem careful_setChannelEnabled (slackChannelId : String) (actor : AdminActor) (enabled : Bool)
    (reason : Option String) :
    Careful v (setChannelEnabled a schema slackChannelId actor enabled reason d)
      fun _ => True := by
  unfold setChannelEnabled
  refine (careful_getChannel _).bind fun channel _ => ?_
  refine (careful_assertAuthorized actor).bind fun _ _ => ?_
  refine careful_updateChannel.bind fun _ _ => ?_
  exact (careful_logAction ..).bind fun _ _ => careful_pure trivial

theorem careful_resetChannelData (slackChannelId : String) (actor : AdminActor) :
    Careful v (resetChannelData a schema slackChannelId actor d) fun _ => True := by
  unfold resetChannelData
  refine (careful_getChannel _).bind fun channel _ => ?_
  refine (careful_assertAuthorized actor).bind fun _ _ => ?_
  have hpurge : Careful v (purgeChannelData channel.id) fun _ => True := by
    unfold purgeChannelData
    refine (careful_deleting takes_orders _).bind fun _ _ => ?_
    refine (careful_deleting takes_runs _).bind fun _ _ => ?_
    refine (careful_deleting takes_preferences _).bind fun _ _ => ?_
    exact (careful_deleting takes_stats _).bind fun _ _ => careful_pure trivial
  refine hpurge.bind fun counts _ => ?_
  refine careful_updateChannel.bind fun _ _ => ?_
  exact (careful_logAction ..).bind fun _ _ => careful_pure trivial

end AdminService

/-! ### Any calls side by side -/

/-- The call validates with `v`, if it validates. -/
def Call.Uses (v : OrderValidator) : Call → Prop
  | .submitOrder validator _ _ => validator = v
  | .useLastOrder validator _ _ _ => validator = v
  | _ => True

/-- The errors a call may roll back with. -/
def Call.Refuses (v : OrderValidator) : Call → Exc → Prop
  | .submitOrder _ request _ => RefusedFor v request.orderText
  | _ => Unrefused

/-- The texts and lines of an answer are in order. -/
def Answer.Proper (v : OrderValidator) : Answer → Prop
  | .submitted result => v.Accepts result.orderText
  | .usedLast result => v.Accepts result.submission.orderText
  | .closed result =>
    result.summary.participants ≠ [] ∧ ∀ p ∈ result.summary.participants, p.Proper v
  | _ => True

theorem NewRun.proper (r : NewRun) : r.row.Proper :=
  ⟨iff_of_false Bool.false_ne_true RunStatus.noConfusion,
    iff_of_false Bool.false_ne_true RunStatus.noConfusion⟩

theorem within_tx (s : Database) {v : OrderValidator} {c : Call} (h : c.Uses v) :
    (c.tx s).Within (Db.Proper v) (c.Refuses v) (Answer.Proper v) := by
  have hanswer : ∀ {α : Type} {E : Exc → Prop} {p : Tx α} {Q : α → Prop} {f : α → Answer},
      p.Within (Db.Proper v) E Q → (∀ x, Q x → (f x).Proper v) →
      (do let x ← p; return f x : Tx Answer).Within (Db.Proper v) E (Answer.Proper v) :=
    fun hp hf => hp.bind fun x hx => .ret (hf x hx)
  cases c with
  | createRun run => exact hanswer (careful_inserting takes_runs run.proper) fun _ _ => trivial
  | submitOrder validator request d =>
    have huses : validator = v := h
    subst huses
    exact hanswer (within_submitOrder request d) fun _ hresult => hresult
  | useLastOrder validator runId userId d =>
    have huses : validator = v := h
    subst huses
    exact hanswer (careful_useLastOrder runId userId d) fun _ hresult => hresult
  | cancelOrder runId userId d =>
    exact hanswer (careful_cancelOrder runId userId d) fun _ _ => trivial
  | closeRun authorizer request now d =>
    exact hanswer (CloseRunService.careful_closeRun ..) fun _ hresult => hresult
  | updateChannelConfig a slackChannelId actor patch d =>
    exact hanswer (AdminService.careful_updateChannelConfig ..) fun _ _ => trivial
  | setChannelEnabled a slackChannelId actor enabled reason d =>
    exact hanswer (AdminService.careful_setChannelEnabled ..) fun _ _ => trivial
  | resetChannelData a slackChannelId actor d =>
    exact hanswer (AdminService.careful_resetChannelData ..) fun _ _ => trivial

/-- Whatever calls run side by side with one validator, the database stays proper, every answer
is, and no text is refused but one submitted in the call that is refused. -/
theorem upkeep_side_by_side {ι : Type} [DecidableEq ι] (s : Database) (v : OrderValidator)
    (calls : ι → Call) (db₀ : Db) (es : List (World.Move ι Db Exc Answer))
    (w : World ι Db Exc Answer) (h : Interleaving s calls db₀ es w)
    (huses : ∀ i, (calls i).Uses v) (h₀ : db₀.Proper v) :
    w.store.Proper v ∧ (∀ i answer, w.sessions i = .committed answer → answer.Proper v) ∧
    ∀ i message field, w.sessions i = .rolledBack (.order (.orderValidation message field)) →
      ∃ request d, calls i = .submitOrder v request d ∧
        v.validate request.orderText = .error (.orderValidation message field) := by
  have hviolation : ∀ i, (calls i).Refuses v .integrityError := by
    intro i
    cases calls i with
    | submitOrder _ request _ => exact unrefused_integrityError.refusedFor request.orderText
    | _ => exact unrefused_integrityError
  have hsound := World.sound_of_run h h₀ hviolation fun i => within_tx s (huses i)
  refine ⟨hsound.store, fun i answer hi => ?_, fun i message field hi => ?_⟩
  · have hbound := hsound.sessions i
    rw [hi] at hbound
    exact hbound
  · have hbound := hsound.sessions i
    have hvalidator := huses i
    rw [hi] at hbound
    cases hcall : calls i with
    | submitOrder validator request d =>
      rw [hcall] at hbound hvalidator
      have hsame : validator = v := hvalidator
      subst hsame
      exact ⟨request, d, rfl, hbound message field rfl⟩
    | _ =>
      rw [hcall] at hbound
      exact absurd rfl (hbound message field)

/-! ### A close and a last order -/

namespace Sample

def usual : UserPreference :=
  { id := .ofNat 21, userId := alice.id, channelId := channel.id, lastOrderText := "latte"
    lastUsedAt := none, createdAt := 0, updatedAt := 0 }

/-- Alice's order is remembered. -/
def remembering : Db := { bothOrdered with userPreferences := ⟨[usual], by decide⟩ }

def reuse : Call := .useLastOrder {} (Uuid.ofNat 11).str alice.id.str (draws 1)

def closeAround : List Bool := (List.replicate 16 [true, false]).flatten

theorem commits_closeAround :
    (World.commits (pairMoves remembering (close 2 11 false) reuse closeAround)).map Prod.fst =
      [false, true] := by
  decide +kernel

theorem accepts_latte : OrderValidator.Accepts {} "latte" := by
  unfold OrderValidator.Accepts
  decide +kernel

theorem proper_remembering : remembering.Proper {} where
  orders := by
    have horder : ∀ u : User, (order 11 u).Proper {} := fun u => ⟨accepts_latte, .manual, rfl⟩
    exact List.forall_mem_cons.mpr ⟨horder alice, List.forall_mem_singleton.mpr (horder bob)⟩
  preferences := List.forall_mem_singleton.mpr accepts_latte
  runs := List.forall_mem_singleton.mpr (newRun 11).proper
  stats := List.forall_mem_nil _

theorem uses_default (i : Bool) : (pair (close 2 11 false) reuse i).Uses {} := by
  cases i
  · exact rfl
  · trivial

end Sample

open Sample in
theorem upkeep_side_by_side_reuse :
    (World.commits (pairMoves remembering (close 2 11 false) reuse closeAround)).map Prod.fst =
        [false, true] ∧
      (pairEnd remembering (close 2 11 false) reuse closeAround).store.Proper {} ∧
      (∀ i answer, (pairEnd remembering (close 2 11 false) reuse closeAround).sessions i =
        .committed answer → answer.Proper {}) ∧
      ∀ i message field, (pairEnd remembering (close 2 11 false) reuse closeAround).sessions i =
        .rolledBack (.order (.orderValidation message field)) →
        ∃ request d, pair (close 2 11 false) reuse i = .submitOrder {} request d ∧
          OrderValidator.validate {} request.orderText =
            .error (.orderValidation message field) :=
  ⟨commits_closeAround, upkeep_side_by_side database {} (pair (close 2 11 false) reuse) remembering
    _ _ (interleaving_pair ..) uses_default proper_remembering⟩

end CoffeeBuddy

import CoffeeBuddy.Services.Scope

/-! Every operation on a channel does the same in two databases that are alike in it: it
returns the same value or raises the same exception, and leaves them alike. -/

namespace CoffeeBuddy
open Relational Transaction

namespace Scope
variable {S : Scope} {ν : Type} {view : Channel → ν} {X : Uuid → Prop} {u v : Db}

/-- The program does the same in both databases; what it returns satisfies `P`. -/
abbrev Stays (S : Scope) {ν : Type} (view : Channel → ν) (X : Uuid → Prop) (u v : Db) {α : Type}
    (p : Tx α) (P : α → Prop) : Prop :=
  Program.Twin (S.Alike view X u v) p p (Program.Same P)

/-- A text or id that can only mean a run of the channel. -/
def Names (S : Scope) (i : Ident) : Prop := ∀ id, i.asUuid = some id → S.mine id = true

/-- A run of the channel and nobody else's. -/
structure Has (S : Scope) (u v : Db) (run : Run) : Prop where
  mine : S.mine run.id = true
  inner : Table.Inner S.ownRun u.runs v.runs run

theorem Has.channelId {run : Run} (h : S.Has u v run) : run.channelId = S.channel :=
  of_decide_eq_true h.inner.mem

theorem stays_pure {α : Type} {P : α → Prop} {a : α} (h : P a) :
    S.Stays view X u v (pure a) P := Program.twin_pure ⟨rfl, h⟩

theorem stays_raise {α : Type} {P : α → Prop} (e : Exc) :
    S.Stays view X u v (Tx.raise e : Tx α) P := Program.twin_raise

theorem stays_unit {p : Tx Unit} (h : Program.Twin (S.Alike view X u v) p p fun _ _ => True) :
    S.Stays view X u v p fun _ => True := h.mono fun _ _ _ => ⟨rfl, trivial⟩

theorem stays_asUuid (i : Ident) :
    S.Stays view X u v (asUuid i) fun id => i.asUuid = some id := by
  unfold asUuid
  cases i.asUuid with
  | none => exact stays_raise _
  | some id => exact stays_pure rfl

theorem stays_findRun {id : Uuid} (hid : S.mine id = true) :
    S.Stays view X u v (Program.query fun db => db.runs.find? id)
      fun found => ∀ run, found = some run → S.Has u v run := by
  refine Program.twin_query fun s t h => ⟨h.find_run hid, fun run hf => ?_⟩
  obtain ⟨hr, rfl⟩ := Table.find?_eq_some.mp hf
  exact ⟨hid, h.runs.inner hr (h.own_of_mine hr hid)⟩

theorem stays_findUser (id : Uuid) :
    S.Stays view X u v (Program.query fun db => db.users.find? id) fun _ => True :=
  Program.twin_query fun _ _ h => ⟨h.find_user id, trivial⟩

theorem stays_rowUnder {ρ : Type} [Keyed ρ Uuid] {table : Db → Table ρ} {P : ρ → Prop} {id : Uuid}
    (missing : Exc) (hfind : S.Stays view X u v (Program.query fun db => (table db).find? id)
      fun found => ∀ r, found = some r → P r) :
    S.Stays view X u v (rowUnder table missing id) P := by
  refine hfind.bind_same fun found hfound => ?_
  cases found with
  | none => exact stays_raise _
  | some r => exact stays_pure (hfound r rfl)

theorem stays_runUnder {i : Ident} (hrun : S.Names i) (missing : Exc) :
    S.Stays view X u v (asUuid i >>= rowUnder Db.runs missing) (S.Has u v) :=
  (stays_asUuid i).bind_same fun id hid => stays_rowUnder missing (stays_findRun (hrun id hid))

theorem stays_userUnder (i : Ident) (missing : Exc) :
    S.Stays view X u v (asUuid i >>= rowUnder Db.users missing) fun _ => True :=
  (stays_asUuid i).bind_same fun id _ => stays_rowUnder missing
    ((stays_findUser id).mono fun _ _ hsame => ⟨hsame.1, fun _ _ => trivial⟩)

/-! ### Orders -/

theorem stays_getOpenRun {runId : Ident} (hrun : S.Names runId) :
    S.Stays view X u v (RunRepository.getOpenRun runId) (S.Has u v) := by
  have hget : S.Stays view X u v (RunRepository.get runId) (S.Has u v) := by
    rw [RunRepository.get_eq]
    exact stays_runUnder hrun _
  unfold RunRepository.getOpenRun
  refine hget.bind_same fun run hhas => ?_
  split_ifs
  · exact stays_pure hhas
  · exact stays_raise _

theorem stays_getUser (userId : Ident) :
    S.Stays view X u v (UserRepository.get userId) fun _ => True := by
  rw [UserRepository.get_eq]
  exact stays_userUnder userId _

theorem stays_validated (w : OrderValidator) (text : String) :
    S.Stays view X u v (validated w text) fun _ => True := by
  unfold validated
  cases w.validate text with
  | error e => exact stays_raise _
  | ok normalized => exact stays_pure trivial

theorem stays_getOrder {runId : Ident} (hrun : S.Names runId) (userId : Ident) :
    S.Stays view X u v (OrderRepository.getOrder runId userId)
      fun found => ∀ o, found = some o → Table.Inner S.ownOrder u.orders v.orders o := by
  unfold OrderRepository.getOrder
  refine (stays_asUuid runId).bind_same fun run hid => ?_
  refine (stays_asUuid userId).bind_same fun user _ => ?_
  have hown : ∀ o, OrderRepository.ofPair run user o = true → S.ownOrder o = true := fun o ho => by
    rw [ownOrder, (Prod.mk.inj (OrderRepository.ofPair_iff.mp ho)).1]
    exact hrun run hid
  refine Program.twin_query fun s t h => ⟨h.orders.find_first hown, fun o hf => ?_⟩
  exact h.orders.inner (List.mem_of_find?_eq_some hf) (hown o (List.find?_some hf))

theorem keeps_order {l m : Order} (hrun : m.runId = l.runId) (r : Order) :
    S.ownOrder (Row.merge l m r) = S.ownOrder r := by
  show S.mine (column l.runId m.runId r.runId) = S.mine r.runId
  rw [column_of_eq hrun]

theorem stays_updateOrder {l m : Order} (hl : Table.Inner S.ownOrder u.orders v.orders l)
    (hrun : m.runId = l.runId) : S.Stays view X u v (updateOrder l m) fun _ => True :=
  stays_unit (twin_updating part_orders hl (keeps_order hrun))

theorem stays_insertOrder {o : Order} (hnew : New X u v o.id) (hrun : S.mine o.runId = true) :
    S.Stays view X u v (insertOrder o) fun _ => True := by
  have ho : S.ownOrder o = true := hrun
  have hu : u.orders.Apart S.ownOrder (Keyed.key o) := fun q hq _ => hnew.left.orders q hq
  have hv : v.orders.Apart S.ownOrder (Keyed.key o) := fun q hq _ => hnew.right.orders q hq
  exact stays_unit (twin_inserting part_orders ho hu hv hnew.kept)

theorem stays_upsertOrder {runId : Ident} (hrun : S.Names runId) (userId : Ident) (text : String)
    (confirm : Bool) (provenance : OrderProvenance) (now : Timestamp) {newId : Uuid}
    (hnew : New X u v newId) :
    S.Stays view X u v
      (OrderRepository.upsertOrder runId userId text confirm provenance now newId)
      fun _ => True := by
  unfold OrderRepository.upsertOrder
  refine (stays_getOrder hrun userId).bind_same fun found hfound => ?_
  cases found with
  | some existing =>
    refine (stays_updateOrder (hfound existing rfl) ?_).bind_same fun _ _ => stays_pure trivial
    rfl
  | none =>
    refine (stays_asUuid runId).bind_same fun run hid => ?_
    refine (stays_asUuid userId).bind_same fun user _ => ?_
    exact (stays_insertOrder hnew (hrun run hid)).bind_same fun _ _ => stays_pure trivial

theorem stays_getPreference (userId : Ident) :
    S.Stays view X u v (PreferenceService.getPreference userId (.uuid S.channel))
      fun found => ∀ p, found = some p →
        Table.Inner S.ownPreference u.userPreferences v.userPreferences p := by
  unfold PreferenceService.getPreference
  refine (stays_asUuid userId).bind_same fun user _ => ?_
  refine (stays_asUuid (.uuid S.channel)).bind_same fun channel hid => ?_
  obtain rfl : S.channel = channel := Option.some.inj hid
  have hown : ∀ p, PreferenceService.ofUser user S.channel p = true → S.ownPreference p = true :=
    fun p hp => decide_eq_true (PreferenceService.ofUser_iff.mp hp).2
  refine Program.twin_query fun s t h => ⟨h.preferences.find_first hown, fun p hf => ?_⟩
  exact h.preferences.inner (List.mem_of_find?_eq_some hf) (hown p (List.find?_some hf))

theorem keeps_channel {l m : Uuid} (h : m = l) (c : Uuid) :
    decide (column l m c = S.channel) = decide (c = S.channel) := by
  rw [column_of_eq h]

theorem stays_updatePreference {l m : UserPreference}
    (hl : Table.Inner S.ownPreference u.userPreferences v.userPreferences l)
    (hchannel : m.channelId = l.channelId) :
    S.Stays view X u v (updatePreference l m) fun _ => True :=
  stays_unit (twin_updating part_preferences hl fun p => keeps_channel hchannel p.channelId)

theorem stays_insertPreference {p : UserPreference} (hnew : New X u v p.id)
    (hchannel : p.channelId = S.channel) :
    S.Stays view X u v (insertPreference p) fun _ => True := by
  have ho : S.ownPreference p = true := decide_eq_true hchannel
  have hu : u.userPreferences.Apart S.ownPreference (Keyed.key p) :=
    fun q hq _ => hnew.left.preferences q hq
  have hv : v.userPreferences.Apart S.ownPreference (Keyed.key p) :=
    fun q hq _ => hnew.right.preferences q hq
  exact stays_unit (twin_inserting part_preferences ho hu hv hnew.kept)

/-- The preference objects of a session are of rows inside. -/
abbrev Held (S : Scope) (u v : Db) (held : Option UserPreference) : Prop :=
  ∀ p ∈ held, Table.Inner S.ownPreference u.userPreferences v.userPreferences p

theorem stays_setPreference {held : Option UserPreference} (hheld : S.Held u v held)
    (userId : Ident) (text : String) (now : Timestamp) {newId : Uuid} (hnew : New X u v newId) :
    S.Stays view X u v
      (PreferenceService.setPreference held userId (.uuid S.channel) text now newId)
      (Table.Inner S.ownPreference u.userPreferences v.userPreferences) := by
  unfold PreferenceService.setPreference
  refine (stays_getPreference userId).bind_same fun found hfound => ?_
  cases found with
  | some row =>
    have hobject : Table.Inner S.ownPreference u.userPreferences v.userPreferences
        (sessionObject held row) :=
      sessionObject_cases (fun p hp _ => hheld p hp) (hfound row rfl)
    refine (stays_updatePreference hobject ?_).bind_same fun _ _ => stays_pure ?_
    · rfl
    · exact ⟨hobject.mem, hobject.left, hobject.right⟩
  | none =>
    refine (stays_asUuid userId).bind_same fun user _ => ?_
    refine (stays_asUuid (.uuid S.channel)).bind_same fun channel hid => ?_
    obtain rfl : S.channel = channel := Option.some.inj hid
    refine (stays_insertPreference hnew rfl).bind_same fun _ _ => stays_pure ?_
    exact ⟨decide_eq_true rfl, fun q hq _ => hnew.left.preferences q hq,
      fun q hq _ => hnew.right.preferences q hq⟩

theorem stays_countActiveOrders {runId : Ident} (hrun : S.Names runId) :
    S.Stays view X u v (OrderRepository.countActiveOrders runId) fun _ => True := by
  unfold OrderRepository.countActiveOrders
  refine (stays_asUuid runId).bind_same fun run hid => ?_
  have hown : ∀ o, OrderRepository.activeIn run o = true → S.ownOrder o = true := fun o ho => by
    rw [ownOrder, (OrderRepository.activeIn_iff.mp ho).1]
    exact hrun run hid
  refine Program.twin_query fun s t h => ⟨?_, trivial⟩
  exact h.orders.count_eq (fun o _ => hown o) (fun o _ => hown o) fun _ _ _ => rfl

section OrderService
variable {run : Run} {d : Draws}

theorem Has.names (h : S.Has u v run) : S.Names (.uuid run.id) := by
  rintro id hid
  rw [← Option.some.inj hid]
  exact h.mine

theorem stays_rememberOrder {held : Option UserPreference} (hheld : S.Held u v held)
    (hrun : S.Has u v run) (user : User) (text : String) (confirm : Bool)
    (hd : ∀ i, New X u v (d.uuid4 i)) :
    S.Stays view X u v (OrderService.rememberOrder held run user text confirm d) (S.Held u v) := by
  unfold OrderService.rememberOrder
  rw [hrun.channelId]
  split_ifs
  · refine (stays_setPreference hheld _ _ _ (hd 1)).bind_same fun p hp => stays_pure ?_
    intro q hq
    exact Option.some.inj hq ▸ hp
  · exact stays_pure fun q hq => absurd hq (Option.not_mem_none q)

theorem stays_persistHolding {held : Option UserPreference} (hheld : S.Held u v held)
    (hrun : S.Has u v run) (user : User) (text : String) (confirm : Bool)
    (provenance : OrderProvenance) (hd : ∀ i, New X u v (d.uuid4 i)) :
    S.Stays view X u v (OrderService.persistHolding held run user text confirm provenance d)
      fun persisted => S.Held u v persisted.2 := by
  unfold OrderService.persistHolding
  refine (stays_upsertOrder hrun.names _ text confirm provenance _ (hd 0)).bind_same fun order _ => ?_
  refine (stays_rememberOrder hheld hrun user _ confirm hd).bind_same fun written hwritten => ?_
  exact (stays_countActiveOrders hrun.names).bind_same fun n _ => stays_pure hwritten

theorem stays_submitOrder (w : OrderValidator) {request : OrderSubmissionRequest}
    (hrun : S.Names (.str request.runId)) (hd : ∀ i, New X u v (d.uuid4 i)) :
    S.Stays view X u v (OrderService.submitOrder w request d) fun _ => True := by
  unfold OrderService.submitOrder
  refine (stays_getOpenRun hrun).bind_same fun run hhas => ?_
  refine (stays_getUser _).bind_same fun user _ => ?_
  refine (stays_validated w _).bind_same fun text _ => ?_
  have hnone : S.Held u v none := fun p hp => absurd hp (Option.not_mem_none p)
  exact (stays_persistHolding hnone hhas user text _ _ hd).bind_same fun _ _ => stays_pure trivial

theorem stays_savedOrder (user : User) (userId : String) :
    S.Stays view X u v (OrderService.savedOrder user S.channel userId)
      (Table.Inner S.ownPreference u.userPreferences v.userPreferences) := by
  unfold OrderService.savedOrder
  refine (stays_getPreference _).bind_same fun found hfound => ?_
  cases found with
  | none => exact stays_raise _
  | some p => exact stays_pure (hfound p rfl)

theorem stays_markUsed {p : UserPreference}
    (hp : Table.Inner S.ownPreference u.userPreferences v.userPreferences p) (now : Timestamp) :
    S.Stays view X u v (PreferenceService.markUsed p now) fun _ => True :=
  stays_updatePreference hp rfl

theorem stays_useLastOrder (w : OrderValidator) {runId : String} (userId : String)
    (hrun : S.Names (.str runId)) (hd : ∀ i, New X u v (d.uuid4 i)) :
    S.Stays view X u v (OrderService.useLastOrder w runId userId d) fun _ => True := by
  unfold OrderService.useLastOrder
  refine (stays_getOpenRun hrun).bind_same fun run hhas => ?_
  refine (stays_getUser _).bind_same fun user _ => ?_
  rw [hhas.channelId]
  refine (stays_savedOrder user userId).bind_same fun p hp => ?_
  refine (stays_validated w _).bind_same fun text _ => ?_
  have hheld : S.Held u v (some p) := fun q hq => Option.some.inj hq ▸ hp
  refine (stays_persistHolding hheld hhas user text _ _ hd).bind_same fun persisted hwritten => ?_
  have hobject : Table.Inner S.ownPreference u.userPreferences v.userPreferences
      (sessionObject persisted.2 p) := sessionObject_cases (fun q hq _ => hwritten q hq) hp
  exact (stays_markUsed hobject _).bind_same fun _ _ => stays_pure trivial

theorem stays_cancelOrder {runId : String} (userId : String) (hrun : S.Names (.str runId)) :
    S.Stays view X u v (OrderService.cancelOrder runId userId d) fun _ => True := by
  have hactive : ∀ run, S.Has u v run → S.Stays view X u v
      (OrderService.activeOrder run runId userId) (Table.Inner S.ownOrder u.orders v.orders) := by
    intro run hhas
    unfold OrderService.activeOrder
    refine (stays_getOrder hhas.names _).bind_same fun found hfound => ?_
    cases hf : found.filter fun o => o.canceledAt.isNone with
    | none => exact stays_raise _
    | some o => exact stays_pure (hfound o (Option.mem_filter_iff.mp hf).1)
  unfold OrderService.cancelOrder
  refine (stays_getOpenRun hrun).bind_same fun run hhas => ?_
  refine (stays_getUser _).bind_same fun user _ => ?_
  refine (hactive run hhas).bind_same fun o ho => ?_
  have hcancel : S.Stays view X u v (OrderRepository.cancelOrder o (d.clock 0)) fun _ => True :=
    stays_updateOrder ho rfl
  refine hcancel.bind_same fun _ _ => ?_
  exact (stays_countActiveOrders hhas.names).bind_same fun n _ => stays_pure trivial

end OrderService

/-! ### The fairness service -/

section Fairness
open FairnessService
variable {d : Draws}

theorem stays_asUuids (texts : List String) :
    S.Stays view X u v (asUuids texts) fun _ => True := by
  induction texts with
  | nil => exact stays_pure trivial
  | cons text texts ih =>
    unfold asUuids
    refine (stays_asUuid _).bind_same fun id _ => ?_
    exact ih.bind_same fun ids _ => stays_pure trivial

theorem inner_stat {r : RunnerStat} (hnew : New X u v r.id) (hchannel : r.channelId = S.channel) :
    Table.Inner S.ownStat u.runnerStats v.runnerStats r :=
  ⟨decide_eq_true hchannel, fun q hq _ => hnew.left.stats q hq, fun q hq _ => hnew.right.stats q hq⟩

theorem stays_insertStat {r : RunnerStat} (hnew : New X u v r.id)
    (hchannel : r.channelId = S.channel) : S.Stays view X u v (insertStat r) fun _ => True := by
  have hr : Table.Inner S.ownStat u.runnerStats v.runnerStats r := inner_stat hnew hchannel
  exact stays_unit (twin_inserting part_stats hr.mem hr.left hr.right hnew.kept)

/-- The rows of the participants are rows of the channel, those added as well. -/
theorem stays_createMissing (hd : ∀ i, New X u v (d.uuid4 i)) (n : ℕ) (texts : List String)
    (stats : Dict String RunnerStat)
    (hstats : ∀ r ∈ stats.values, Table.Inner S.ownStat u.runnerStats v.runnerStats r) :
    S.Stays view X u v (createMissing S.channel d n texts stats) fun result =>
      ∀ r ∈ result.1.values, Table.Inner S.ownStat u.runnerStats v.runnerStats r := by
  induction texts generalizing n stats with
  | nil => exact stays_pure hstats
  | cons text texts ih =>
    unfold createMissing
    split
    · exact ih n stats hstats
    · refine (stays_asUuid _).bind_same fun user _ => ?_
      have hinner : Table.Inner S.ownStat u.runnerStats v.runnerStats (newStat S.channel d n user) :=
        inner_stat (hd n) rfl
      refine (stays_insertStat (hd n) ?_).bind_same fun _ _ => ih _ _ fun r hr => ?_
      · rfl
      obtain ⟨k, hk⟩ := Dict.mem_values.mp hr
      rcases Dict.mem_of_mem_set hk with hold | hnew
      · exact hstats r (Dict.mem_values.mpr ⟨k, hold⟩)
      · rw [(Prod.mk.inj hnew).2]
        exact hinner

theorem stays_loadStats (hd : ∀ i, New X u v (d.uuid4 i)) (texts : List String) :
    S.Stays view X u v (loadStats S.channel texts d) fun result =>
      ∀ r ∈ result.1.values, Table.Inner S.ownStat u.runnerStats v.runnerStats r := by
  unfold loadStats
  refine (stays_asUuids texts).bind_same fun users _ => ?_
  have hown : ∀ r, servesIn S.channel users r = true → S.ownStat r = true := fun r hr => by
    unfold servesIn at hr
    exact (Bool.and_eq_true_iff.mp hr).1
  have hrows : S.Stays view X u v (Program.query fun db => db.runnerStats.select (servesIn S.channel users))
      fun rows => ∀ r ∈ rows, Table.Inner S.ownStat u.runnerStats v.runnerStats r := by
    refine Program.twin_query fun s t h => ⟨h.stats.select_same hown, fun r hr => ?_⟩
    obtain ⟨hr, hserves⟩ := Table.mem_select.mp hr
    exact h.stats.inner hr (hown r hserves)
  refine hrows.bind_same fun rows hinner => ?_
  refine stays_createMissing hd 0 texts _ fun r hr => ?_
  obtain ⟨k, hk⟩ := Dict.mem_values.mp hr
  exact hinner r (Dict.mem_of_mem_ofValues hk).1

theorem stays_choose {cs : List RunnerStat} {P : RunnerStat → Prop} (h : ∀ r ∈ cs, P r) :
    S.Stays view X u v (choose cs) P := by
  unfold choose
  cases hc : cs.argmin sortKey with
  | none => exact stays_raise _
  | some chosen => exact stays_pure (h chosen (List.argmin_mem hc))

theorem stays_updateStat {l m : RunnerStat}
    (hl : Table.Inner S.ownStat u.runnerStats v.runnerStats l) (hchannel : m.channelId = l.channelId) :
    S.Stays view X u v (updateStat l m) fun _ => True :=
  stays_unit (twin_updating part_stats hl fun r => keeps_channel hchannel r.channelId)

theorem stays_previousCount (stats : Dict String RunnerStat) (userId : String) :
    S.Stays view X u v (previousCount stats userId) fun _ => True := by
  unfold previousCount
  cases stats.get? userId with
  | none => exact stays_raise _
  | some r => exact stays_pure trivial

theorem stays_assignRunner (hd : ∀ i, New X u v (d.uuid4 i)) (participants : List Ident)
    (last : Option String) (allow : Bool) :
    S.Stays view X u v (assignRunner (.str S.channel.str) participants last allow d)
      fun _ => True := by
  unfold assignRunner
  dsimp only
  split_ifs
  · exact stays_raise _
  · refine (stays_asUuid _).bind_same fun channel hid => ?_
    obtain rfl : S.channel = channel := Option.some.inj ((Ident.asUuid_str _).symm.trans hid)
    refine (stays_loadStats hd _).bind_same fun loaded hloaded => ?_
    have hcandidates : ∀ r ∈ candidates loaded.1 last allow,
        Table.Inner S.ownStat u.runnerStats v.runnerStats r := fun r hr =>
      hloaded r (mem_values_of_mem_candidates hr)
    refine (stays_choose hcandidates).bind_same fun chosen hchosen => ?_
    refine (stays_updateStat hchosen ?_).bind_same fun _ _ => ?_
    · rfl
    · exact (stays_previousCount _ _).bind_same fun count _ => stays_pure trivial

end Fairness

/-! ### The close -/

section Close
open CloseRunService
variable {run : Run} {now : Timestamp}

theorem stays_getRun {runId : String} (hrun : S.Names (.str runId)) :
    S.Stays view X u v (getRun runId) (S.Has u v) := by
  rw [getRun_eq]
  exact stays_runUnder hrun _

theorem stays_checkClosable (authorizer : CloseRunAuthorizer) (request : CloseRunRequest) (run : Run) :
    S.Stays view X u v (checkClosable authorizer request run) fun _ => True := by
  unfold checkClosable
  split_ifs
  · exact stays_raise _
  · exact stays_pure trivial
  · exact stays_raise _

/-- The two channel rows may differ, but not in what the close reports of them. -/
theorem twin_getChannel (hview : ∀ c c', view c = view c' → c.reported = c'.reported) :
    Program.Twin (S.Alike view X u v) (getChannel S.channel) (getChannel S.channel)
      fun c c' => c.id = S.channel ∧ c.reported = c'.reported := by
  unfold getChannel
  have hfind : Program.Twin (S.Alike view X u v)
      (Program.query fun db => db.channels.find? S.channel : Tx _)
      (Program.query fun db => db.channels.find? S.channel)
      fun f g => f.map view = g.map view ∧ ∀ c, f = some c → c.id = S.channel :=
    Program.twin_query fun s t h => ⟨h.find_channel, fun c hc => (Table.find?_eq_some.mp hc).2⟩
  refine hfind.bind fun f g ⟨hmap, hid⟩ => ?_
  cases f with
  | none =>
    rw [Option.map_none] at hmap
    obtain rfl := Option.map_eq_none_iff.mp hmap.symm
    exact Program.twin_raise
  | some c =>
    rw [Option.map_some] at hmap
    obtain ⟨c', rfl, hc⟩ := Option.map_eq_some_iff.mp hmap.symm
    exact Program.twin_pure ⟨hid c rfl, hview c c' hc.symm⟩

theorem closeRunResult_congr {c c' : Channel} (h : c.reported = c'.reported) (run : Run)
    (decision : FairnessDecision) (runner : User) (participants : List ParticipantOrder)
    (now : Timestamp) : closeRunResult run c decision runner participants now =
      closeRunResult run c' decision runner participants now := by
  simp only [Channel.reported, Prod.mk.injEq] at h
  obtain ⟨hid, hname, hoffset, hreminders, hlast⟩ := h
  unfold closeRunResult
  rw [hid, hname, hoffset, hreminders, hlast]

theorem stays_loadActiveOrders (collation : Collation) {id : Uuid} (hid : S.mine id = true) :
    S.Stays view X u v (loadActiveOrders collation id)
      fun orders => ∀ p ∈ orders, Table.Inner S.ownOrder u.orders v.orders p.1 := by
  have hown : ∀ o, OrderRepository.activeIn id o = true → S.ownOrder o = true := fun o ho => by
    rw [ownOrder, (OrderRepository.activeIn_iff.mp ho).1]
    exact hid
  have hread : S.Stays view X u v (Program.query (activeOrders collation id))
      fun orders => ∀ p ∈ orders, Table.Inner S.ownOrder u.orders v.orders p.1 := by
    refine Program.twin_query fun s t h => ⟨?_, fun p hp => ?_⟩
    · unfold activeOrders joinUsers
      simp only [h.orders.select_same hown, h.find_user]
    · obtain ⟨ho, hrun, -⟩ := mem_activeOrders.mp hp
      refine h.orders.inner ho ?_
      rw [ownOrder, hrun]
      exact hid
  unfold loadActiveOrders
  refine hread.bind_same fun orders horders => ?_
  split_ifs
  · exact stays_raise _
  · exact stays_pure horders

theorem stays_previousRunner (hrun : run.channelId = S.channel) :
    S.Stays view X u v (Program.query (previousRunner run)) fun _ => True := by
  have hown : ∀ r, precedes run r = true → S.ownRun r = true := fun r hr => by
    simp only [precedes, Bool.and_eq_true, decide_eq_true_eq] at hr
    exact decide_eq_true (hr.1.1.1.1.trans hrun)
  refine Program.twin_query fun s t h => ⟨?_, trivial⟩
  unfold previousRunner
  rw [h.runs.select_same hown]

theorem stays_getRunner (runnerUserId : String) :
    S.Stays view X u v (getRunner runnerUserId) fun _ => True := by
  rw [getRunner_eq]
  exact stays_userUnder _ _

theorem stays_updateRun {l m : Run} (hl : S.Has u v l) (hchannel : m.channelId = l.channelId) :
    S.Stays view X u v (updateRun l m) fun _ => True :=
  stays_unit (twin_updating part_runs hl.inner fun r => keeps_channel hchannel r.channelId)

theorem stays_snapshotOrders {orders : List (Order × User)}
    (h : ∀ p ∈ orders, Table.Inner S.ownOrder u.orders v.orders p.1) :
    S.Stays view X u v (snapshotOrders now orders) fun _ => True := by
  induction orders with
  | nil => exact stays_pure trivial
  | cons p orders ih =>
    obtain ⟨o, user⟩ := p
    have hfirst : Table.Inner S.ownOrder u.orders v.orders o := h (o, user) List.mem_cons_self
    have hrest := ih fun p hp => h p (List.mem_cons_of_mem _ hp)
    unfold snapshotOrders
    refine (stays_updateOrder hfirst ?_).bind_same fun _ _ => ?_
    · rfl
    · exact hrest.bind_same fun participants _ => stays_pure trivial

theorem stays_closeRun (hview : ∀ c c', view c = view c' → c.reported = c'.reported)
    (authorizer : CloseRunAuthorizer) (collation : Collation) {request : CloseRunRequest} {d : Draws}
    (hrun : S.Names (.str request.runId)) (hd : ∀ i, New X u v (d.uuid4 i)) :
    S.Stays view X u v (closeRun authorizer collation request now d) fun _ => True := by
  unfold closeRun
  refine (stays_getRun hrun).bind_same fun run hhas => ?_
  refine (stays_checkClosable authorizer request run).bind_same fun _ _ => ?_
  rw [hhas.channelId]
  refine (twin_getChannel hview).bind fun c c' ⟨hc, hreported⟩ => ?_
  have hc' : c'.id = S.channel := (congrArg Prod.fst hreported).symm.trans hc
  simp only [hc, hc', closeRunResult_congr hreported]
  refine (stays_loadActiveOrders collation hhas.mine).bind_same fun orders horders => ?_
  refine (stays_previousRunner hhas.channelId).bind_same fun last _ => ?_
  refine (stays_assignRunner hd _ _ _).bind_same fun decision _ => ?_
  refine (stays_getRunner _).bind_same fun runner _ => ?_
  refine (stays_updateRun hhas ?_).bind_same fun _ _ => ?_
  · rfl
  · exact (stays_snapshotOrders horders).bind_same fun participants _ => stays_pure trivial

end Close

end Scope
end CoffeeBuddy

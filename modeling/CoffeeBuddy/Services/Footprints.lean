import CoffeeBuddy.Library.Serial
import CoffeeBuddy.Library.Sight
import CoffeeBuddy.Services.Local

/-! What a service call looks at: the rows of its channel or, if it is an order, those of one
user in it. Between databases that are the same there a call may change at every statement; it
takes the same course. -/

namespace CoffeeBuddy
open Relational Transaction OrderRepository PreferenceService

/-- The rows in sight of a call, and the ids of those rows, the ones it may still add among
them. It looks at the channel's own row, the stats and the audit log if it is for the `whole`
channel. -/
structure Footprint where
  scope : Scope
  whole : Bool
  person : Uuid → Bool
  orderIds : Uuid → Prop
  preferenceIds : Uuid → Prop
  statIds : Uuid → Prop
  actionIds : Uuid → Prop

namespace Footprint
variable (F : Footprint)

def channels (c : Channel) : Bool := F.whole && F.scope.ownChannel c
def orders (o : Order) : Bool := F.scope.ownOrder o && F.person o.userId
def preferences (p : UserPreference) : Bool := F.scope.ownPreference p && F.person p.userId
def stats (r : RunnerStat) : Bool := F.whole && F.scope.ownStat r
def actions (a : ChannelAdminAction) : Bool := F.whole && F.scope.ownAction a

/-- Only the channel itself has a Slack id that names it. -/
def Named (db : Db) : Prop :=
  ∀ c ∈ db.channels, F.scope.slack c.slackChannelId → F.scope.ownChannel c = true

/-- The same users and the same rows in sight. -/
structure Alike (s t : Db) : Prop where
  users : s.users = t.users
  channels : s.channels.select F.channels = t.channels.select F.channels
  namedLeft : F.Named s
  namedRight : F.Named t
  runs : Table.Seen F.scope.ownRun (fun id => F.scope.mine id = true) s.runs t.runs
  orders : Table.Seen F.orders F.orderIds s.orders t.orders
  preferences : Table.Seen F.preferences F.preferenceIds s.userPreferences t.userPreferences
  stats : Table.Seen F.stats F.statIds s.runnerStats t.runnerStats
  actions : Table.Seen F.actions F.actionIds s.channelAdminActions t.channelAdminActions

/-- The call may give the id to a new row. -/
structure Reserves (id : Uuid) : Prop where
  order : F.orderIds id
  preference : F.preferenceIds id
  stat : F.statIds id
  action : F.actionIds id

/-- A run of the channel. -/
structure Has (run : Run) : Prop where
  mine : F.scope.mine run.id = true
  own : F.scope.ownRun run = true

variable {F}

theorem Has.channelId {run : Run} (h : F.Has run) : run.channelId = F.scope.channel :=
  of_decide_eq_true h.own

theorem Has.names {run : Run} (h : F.Has run) : F.scope.Names (.uuid run.id) := by
  rintro id hid
  rw [← Option.some.inj hid]
  exact h.mine

/-! ### Programs that follow their footprint -/

variable {α β : Type}

/-- From one database to another that is alike the program goes on alike, and returns the same
value, of which `P` holds. -/
abbrev Follows (F : Footprint) (p : Tx α) (P : α → Prop) : Prop :=
  Program.Coupled F.Alike (Program.Same P) p p

theorem follows_pure {P : α → Prop} {a : α} (h : P a) : F.Follows (pure a) P :=
  Program.coupled_pure ⟨rfl, h⟩

theorem coupled_raise {Q : α → α → Prop} (e : Exc) :
    Program.Coupled F.Alike Q (Tx.raise e : Tx α) (Tx.raise e) := .raise

theorem Follows.bind {p : Tx α} {f : α → Tx β} {P : α → Prop} {Q : β → β → Prop}
    (hp : F.Follows p P) (hf : ∀ a, P a → Program.Coupled F.Alike Q (f a) (f a)) :
    Program.Coupled F.Alike Q (p >>= f) (p >>= f) := by
  apply Program.Coupled.bind hp
  rintro a _ ⟨rfl, ha⟩
  exact hf a ha

theorem follows_execute {w : Db → Except Exc Db} (h : Respects F.Alike w) :
    F.Follows (Program.execute w) fun _ => True :=
  Program.coupled_execute h ⟨rfl, trivial⟩

theorem follows_asUuid (i : Ident) : F.Follows (asUuid i) fun id => i.asUuid = some id := by
  unfold asUuid
  cases i.asUuid with
  | none => exact coupled_raise _
  | some id => exact follows_pure rfl

/-! ### The tables -/

/-- A table whose rows in sight are those of `sight`. -/
structure Shows {ρ : Type} [Keyed ρ Uuid] (F : Footprint) (table : Db → Table ρ)
    (store : Db → Table ρ → Db) (sight : ρ → Bool) (K : Uuid → Prop) : Prop where
  seen : ∀ s t, F.Alike s t → Table.Seen sight K (table s) (table t)
  stored : ∀ s t a b, F.Alike s t → Table.Seen sight K a b → F.Alike (store s a) (store t b)

theorem shows_runs : F.Shows Db.runs (fun db t => { db with runs := t }) F.scope.ownRun
    fun id => F.scope.mine id = true :=
  ⟨fun _ _ h => h.runs, fun _ _ _ _ h hb => { h with runs := hb }⟩

theorem shows_orders :
    F.Shows Db.orders (fun db t => { db with orders := t }) F.orders F.orderIds :=
  ⟨fun _ _ h => h.orders, fun _ _ _ _ h hb => { h with orders := hb }⟩

theorem shows_preferences : F.Shows Db.userPreferences
    (fun db t => { db with userPreferences := t }) F.preferences F.preferenceIds :=
  ⟨fun _ _ h => h.preferences, fun _ _ _ _ h hb => { h with preferences := hb }⟩

theorem shows_stats :
    F.Shows Db.runnerStats (fun db t => { db with runnerStats := t }) F.stats F.statIds :=
  ⟨fun _ _ h => h.stats, fun _ _ _ _ h hb => { h with stats := hb }⟩

theorem shows_actions : F.Shows Db.channelAdminActions
    (fun db t => { db with channelAdminActions := t }) F.actions F.actionIds :=
  ⟨fun _ _ h => h.actions, fun _ _ _ _ h hb => { h with actions := hb }⟩

section Keyed
variable {ρ : Type} [Keyed ρ Uuid] {table : Db → Table ρ} {store : Db → Table ρ → Db}
  {sight : ρ → Bool} {K : Uuid → Prop}

theorem respects_insertion (h : F.Shows table store sight K) {r : ρ}
    (hr : sight r = true) (hk : K (Keyed.key r)) :
    Respects F.Alike (insertion table store r) := by
  intro s t hst
  unfold insertion
  rcases (h.seen s t hst).insert hr hk with ⟨a, b, ha, hb, hab⟩ | ⟨ha, hb⟩
  · rw [ha, hb]
    exact Or.inl ⟨_, _, rfl, rfl, h.stored s t a b hst hab⟩
  · rw [ha, hb]
    exact Or.inr ⟨_, rfl, rfl⟩

theorem follows_inserting (h : F.Shows table store sight K) {r : ρ}
    (hr : sight r = true) (hk : K (Keyed.key r)) :
    F.Follows (inserting table store r) fun _ => True :=
  follows_execute (respects_insertion h hr hk)

theorem follows_deleting (h : F.Shows table store sight K) {p : Db → ρ → Bool}
    (hsight : ∀ s t, F.Alike s t → ∀ r, p s r = true → sight r = true)
    (hsame : ∀ s t, F.Alike s t → p s = p t) :
    F.Follows (deleting table store p) fun _ => True := by
  have hdelete : Respects F.Alike fun db => (.ok (store db ((table db).delete (p db)))
      : Except Exc Db) := by
    intro s t hst
    refine Or.inl ⟨_, _, rfl, rfl, h.stored s t _ _ hst ?_⟩
    rw [hsame s t hst]
    exact (h.seen s t hst).delete _
  refine .select fun s t hst => .write hdelete (.ret ⟨?_, trivial⟩)
  rw [← hsame s t hst, Table.count_eq_length, Table.count_eq_length,
    (h.seen s t hst).select_same (hsight s t hst)]

theorem follows_rowUnder {P : ρ → Prop} {id : Uuid} (missing : Exc)
    (hsame : ∀ s t, F.Alike s t → (table s).find? id = (table t).find? id)
    (hfound : ∀ s t, F.Alike s t → ∀ r ∈ table s, Keyed.key r = id → P r) :
    F.Follows (rowUnder table missing id) P := by
  have hfind : F.Follows (Program.query fun db => (table db).find? id)
      fun found => ∀ r, found = some r → P r := by
    refine Program.coupled_query fun s t hst => ⟨hsame s t hst, fun r hr => ?_⟩
    obtain ⟨hmem, hk⟩ := Table.find?_eq_some.mp hr
    exact hfound s t hst r hmem hk
  refine hfind.bind fun found hfound => ?_
  cases found with
  | none => exact coupled_raise _
  | some r => exact follows_pure (hfound r rfl)

end Keyed

theorem follows_updating {ρ : Type} [Row ρ Uuid] {table : Db → Table ρ}
    {store : Db → Table ρ → Db} {sight : ρ → Bool} {K : Uuid → Prop}
    (h : F.Shows table store sight K) {l m : ρ}
    (hkeep : ∀ r, sight (Row.merge l m r) = sight r) :
    F.Follows (updating table store l m) fun _ => True := by
  refine follows_execute fun s t hst => Or.inl ⟨_, _, rfl, rfl, ?_⟩
  exact h.stored s t _ _ hst ((h.seen s t hst).update hkeep)

theorem keeps_channel {l m : Uuid} (h : m = l) (c : Uuid) :
    decide (column l m c = F.scope.channel) = decide (c = F.scope.channel) := by
  rw [column_of_eq h]

theorem follows_runUnder {i : Ident} (hrun : F.scope.Names i) (missing : Exc) :
    F.Follows (asUuid i >>= rowUnder Db.runs missing) F.Has := by
  refine (follows_asUuid i).bind fun id hid => ?_
  have hmine : F.scope.mine id = true := hrun id hid
  refine follows_rowUnder missing (fun s t h => h.runs.find?_eq hmine) fun s t h r hr hk => ?_
  subst hk
  exact ⟨hmine, (h.runs.left r hr).mp hmine⟩

theorem follows_userUnder (i : Ident) (missing : Exc) :
    F.Follows (asUuid i >>= rowUnder Db.users missing) fun user => i.asUuid = some user.id := by
  refine (follows_asUuid i).bind fun id hid => ?_
  refine follows_rowUnder missing (fun s t h => by rw [h.users]) fun s t _ r _ hk => ?_
  rw [hid]
  exact congrArg some hk.symm

/-! ### Orders and preferences -/

section Orders
variable {i j : Ident}

theorem follows_getOpenRun (hi : F.scope.Names i) :
    F.Follows (RunRepository.getOpenRun i) F.Has := by
  unfold RunRepository.getOpenRun
  rw [RunRepository.get_eq]
  refine (follows_runUnder hi _).bind fun run hhas => ?_
  split_ifs
  · exact follows_pure hhas
  · exact coupled_raise _

theorem follows_getUser (i : Ident) :
    F.Follows (UserRepository.get i) fun user => i.asUuid = some user.id := by
  rw [UserRepository.get_eq]
  exact follows_userUnder i _

theorem follows_validated (v : OrderValidator) (text : String) :
    F.Follows (validated v text) fun _ => True := by
  unfold validated
  cases v.validate text with
  | error e => exact coupled_raise _
  | ok normalized => exact follows_pure trivial

/-- The text or id can only mean a user in sight. -/
def Sees (F : Footprint) (i : Ident) : Prop := ∀ id, i.asUuid = some id → F.person id = true

theorem orders_ofPair {run user : Uuid} (hrun : F.scope.mine run = true)
    (huser : F.person user = true) {o : Order} (ho : ofPair run user o = true) :
    F.orders o = true := by
  obtain ⟨hr, hu⟩ := Prod.mk.inj (ofPair_iff.mp ho)
  have hmine : F.scope.ownOrder o = true := by
    rw [Scope.ownOrder, hr]
    exact hrun
  rw [orders, hmine, hu, huser, Bool.and_self]

theorem follows_getOrder (hi : F.scope.Names i) (hj : F.Sees j) :
    F.Follows (getOrder i j) fun _ => True := by
  unfold getOrder
  refine (follows_asUuid i).bind fun run hrun => ?_
  refine (follows_asUuid j).bind fun user huser => ?_
  refine Program.coupled_query fun s t h => ⟨?_, trivial⟩
  exact h.orders.find_first fun o => orders_ofPair (hi run hrun) (hj user huser)

theorem follows_updateOrder {l m : Order} (hrun : m.runId = l.runId) (huser : m.userId = l.userId) :
    F.Follows (updateOrder l m) fun _ => True := by
  refine follows_updating shows_orders fun r => ?_
  show (F.scope.mine (column l.runId m.runId r.runId) &&
    F.person (column l.userId m.userId r.userId)) = F.orders r
  rw [column_of_eq hrun, column_of_eq huser]
  rfl

theorem follows_upsertOrder (hi : F.scope.Names i) (hj : F.Sees j) (text : String)
    (confirm : Bool) (provenance : OrderProvenance) (now : Timestamp) {newId : Uuid}
    (hnew : F.Reserves newId) :
    F.Follows (upsertOrder i j text confirm provenance now newId) fun _ => True := by
  unfold upsertOrder
  refine (follows_getOrder hi hj).bind fun found _ => ?_
  cases found with
  | some existing =>
    have hwrite := follows_updateOrder (F := F) (l := existing) (m := { existing with
      orderText := text, isFinal := confirm, canceledAt := none, provenance := provenance.value
      updatedAt := now }) rfl rfl
    exact hwrite.bind fun _ _ => follows_pure trivial
  | none =>
    refine (follows_asUuid i).bind fun run hrun => ?_
    refine (follows_asUuid j).bind fun user huser => ?_
    refine (follows_inserting shows_orders ?_ hnew.order).bind fun _ _ => follows_pure trivial
    exact Bool.and_eq_true_iff.mpr ⟨hi run hrun, hj user huser⟩

theorem preferences_ofUser {user : Uuid} (huser : F.person user = true) {p : UserPreference}
    (hp : ofUser user F.scope.channel p = true) : F.preferences p = true := by
  obtain ⟨hu, hc⟩ := ofUser_iff.mp hp
  have hown : F.scope.ownPreference p = true := decide_eq_true hc
  rw [preferences, hown, hu, huser, Bool.and_self]

theorem follows_getPreference (hi : F.Sees i) :
    F.Follows (getPreference i (.uuid F.scope.channel))
      fun found => ∀ p, found = some p → F.preferenceIds p.id := by
  unfold getPreference
  refine (follows_asUuid i).bind fun user huser => ?_
  refine (follows_asUuid _).bind fun channel hchannel => ?_
  obtain rfl : F.scope.channel = channel := Option.some.inj hchannel
  have hsight := fun p => preferences_ofUser (F := F) (p := p) (hi user huser)
  refine Program.coupled_query fun s t h => ⟨h.preferences.find_first hsight, fun p hp => ?_⟩
  have hmem : p ∈ s.userPreferences := List.mem_of_find?_eq_some hp
  exact (h.preferences.left p hmem).mpr (hsight p (List.find?_some hp))

theorem follows_updatePreference {l m : UserPreference} (hchannel : m.channelId = l.channelId)
    (huser : m.userId = l.userId) : F.Follows (updatePreference l m) fun _ => True := by
  refine follows_updating shows_preferences fun r => ?_
  show (decide (column l.channelId m.channelId r.channelId = F.scope.channel) &&
    F.person (column l.userId m.userId r.userId)) = F.preferences r
  rw [keeps_channel hchannel, column_of_eq huser]
  rfl

theorem follows_setPreference (held : Option UserPreference) (hi : F.Sees i) (text : String)
    (now : Timestamp) {newId : Uuid} (hnew : F.Reserves newId) :
    F.Follows (setPreference held i (.uuid F.scope.channel) text now newId) fun _ => True := by
  unfold setPreference
  refine (follows_getPreference hi).bind fun found _ => ?_
  cases found with
  | some row =>
    have hwrite := follows_updatePreference (F := F) (l := sessionObject held row)
      (m := { sessionObject held row with
        lastOrderText := text, lastUsedAt := some now, updatedAt := now }) rfl rfl
    exact hwrite.bind fun _ _ => follows_pure trivial
  | none =>
    refine (follows_asUuid i).bind fun user huser => ?_
    refine (follows_asUuid _).bind fun channel hchannel => ?_
    obtain rfl : F.scope.channel = channel := Option.some.inj hchannel
    refine (follows_inserting shows_preferences ?_ hnew.preference).bind
      fun _ _ => follows_pure trivial
    exact Bool.and_eq_true_iff.mpr ⟨decide_eq_true rfl, hi user huser⟩

/-- The one read that sees what others do. -/
theorem coupled_countActiveOrders (i : Ident) :
    Program.Coupled F.Alike (fun _ _ => True) (countActiveOrders i) (countActiveOrders i) := by
  unfold countActiveOrders
  refine (follows_asUuid i).bind fun run _ => ?_
  exact Program.coupled_query fun _ _ _ => trivial

section Service
open OrderService
variable {user : User} {run : Run} {d : Draws}

/-- Results up to the count of participants. -/
def Uncounted (a b : OrderSubmissionResult) : Prop :=
  { a with participantCount := 0 } = { b with participantCount := 0 }

theorem follows_rememberOrder (held : Option UserPreference) (hrun : F.Has run)
    (hsees : F.Sees (.uuid user.id)) (text : String) (confirm : Bool)
    (hd : ∀ n, F.Reserves (d.uuid4 n)) :
    F.Follows (rememberOrder held run user text confirm d) fun _ => True := by
  unfold rememberOrder
  rw [hrun.channelId]
  split_ifs
  · exact (follows_setPreference held hsees _ _ (hd 1)).bind fun _ _ => follows_pure trivial
  · exact follows_pure trivial

theorem coupled_persistHolding (held : Option UserPreference) (hrun : F.Has run)
    (huser : F.person user.id = true) (text : String) (confirm : Bool)
    (provenance : OrderProvenance) (hd : ∀ n, F.Reserves (d.uuid4 n)) :
    Program.Coupled F.Alike (fun a b => Uncounted a.1 b.1 ∧ a.2 = b.2)
      (persistHolding held run user text confirm provenance d)
      (persistHolding held run user text confirm provenance d) := by
  have hsees : F.Sees (.uuid user.id) := fun id hid => Option.some.inj hid ▸ huser
  unfold persistHolding
  refine (follows_upsertOrder hrun.names hsees text confirm provenance _ (hd 0)).bind
    fun order _ => ?_
  have hcount : Program.Coupled F.Alike (fun _ _ => True)
      (countActiveOrders (.uuid run.id)) (countActiveOrders (.uuid run.id)) :=
    coupled_countActiveOrders _
  refine (follows_rememberOrder held hrun hsees _ confirm hd).bind fun written _ => ?_
  exact hcount.bind fun _ _ _ => Program.coupled_pure ⟨rfl, rfl⟩

theorem coupled_submitOrder (v : OrderValidator) {request : OrderSubmissionRequest}
    (hrun : F.scope.Names (.str request.runId)) (huser : F.Sees (.str request.userId))
    (hd : ∀ n, F.Reserves (d.uuid4 n)) :
    Program.Coupled F.Alike Uncounted (submitOrder v request d) (submitOrder v request d) := by
  unfold submitOrder
  refine (follows_getOpenRun hrun).bind fun run hhas => ?_
  refine (follows_getUser _).bind fun user hid => ?_
  refine (follows_validated v _).bind fun text _ => ?_
  have hpersist := coupled_persistHolding none hhas (huser user.id hid) text request.confirm
    request.provenance hd
  exact hpersist.bind fun a b hab => Program.coupled_pure hab.1

theorem follows_savedOrder (huser : F.person user.id = true) (userId : String) :
    F.Follows (savedOrder user F.scope.channel userId) fun p => F.preferenceIds p.id := by
  have hsees : F.Sees (.uuid user.id) := fun id hid => Option.some.inj hid ▸ huser
  unfold savedOrder
  refine (follows_getPreference hsees).bind fun found hfound => ?_
  cases found with
  | none => exact coupled_raise _
  | some p => exact follows_pure (hfound p rfl)

theorem coupled_useLastOrder (v : OrderValidator) {runId userId : String}
    (hrun : F.scope.Names (.str runId)) (huser : F.Sees (.str userId))
    (hd : ∀ n, F.Reserves (d.uuid4 n)) :
    Program.Coupled F.Alike (fun a b => a.preferenceId = b.preferenceId ∧
      Uncounted a.submission b.submission) (useLastOrder v runId userId d)
      (useLastOrder v runId userId d) := by
  unfold useLastOrder
  refine (follows_getOpenRun hrun).bind fun run hhas => ?_
  refine (follows_getUser _).bind fun user hid => ?_
  rw [hhas.channelId]
  refine (follows_savedOrder (huser user.id hid) userId).bind fun p hp => ?_
  refine (follows_validated v _).bind fun text _ => ?_
  have hpersist := coupled_persistHolding (some p) hhas (huser user.id hid) text true .preference hd
  apply hpersist.bind
  rintro ⟨a, written⟩ ⟨b, -⟩ ⟨hab, rfl⟩
  have hmark : F.Follows (markUsed (sessionObject written p) (d.clock 2)) fun _ => True :=
    follows_updatePreference rfl rfl
  apply Program.Coupled.bind hmark
  rintro _ _ -
  exact Program.coupled_pure ⟨rfl, hab⟩

theorem follows_activeOrder (hrun : F.Has run) (runId : String) {userId : String}
    (huser : F.Sees (.str userId)) :
    F.Follows (activeOrder run runId userId) fun _ => True := by
  unfold activeOrder
  refine (follows_getOrder hrun.names huser).bind fun found _ => ?_
  split
  · exact follows_pure trivial
  · exact coupled_raise _

theorem coupled_cancelOrder {runId userId : String} (hrun : F.scope.Names (.str runId))
    (huser : F.Sees (.str userId)) (d : Draws) :
    Program.Coupled F.Alike (fun a b => a.orderId = b.orderId)
      (OrderService.cancelOrder runId userId d) (OrderService.cancelOrder runId userId d) := by
  unfold OrderService.cancelOrder
  refine (follows_getOpenRun hrun).bind fun run hhas => ?_
  refine (follows_getUser _).bind fun user _ => ?_
  refine (follows_activeOrder hhas runId huser).bind fun o _ => ?_
  have hcancel : F.Follows (OrderRepository.cancelOrder o (d.clock 0)) fun _ => True :=
    follows_updateOrder rfl rfl
  refine hcancel.bind fun _ _ => ?_
  exact (coupled_countActiveOrders _).bind fun _ _ _ => Program.coupled_pure rfl

end Service
end Orders

/-! ### The close -/

/-- All rows of the channel are in sight. -/
structure Full (F : Footprint) : Prop where
  whole : F.whole = true
  person : ∀ user, F.person user = true

namespace Full
variable {α : Type} (hF : F.Full)
include hF

theorem channels_eq (c : Channel) : F.channels c = F.scope.ownChannel c := by
  rw [channels, hF.whole, Bool.true_and]

theorem orders_eq (o : Order) : F.orders o = F.scope.ownOrder o := by
  rw [orders, hF.person, Bool.and_true]

theorem preferences_eq (p : UserPreference) : F.preferences p = F.scope.ownPreference p := by
  rw [preferences, hF.person, Bool.and_true]

theorem stats_eq (r : RunnerStat) : F.stats r = F.scope.ownStat r := by
  rw [stats, hF.whole, Bool.true_and]

section Fairness
open FairnessService
variable {d : Draws}

omit hF in
theorem follows_asUuids (texts : List String) : F.Follows (asUuids texts) fun _ => True := by
  induction texts with
  | nil => exact follows_pure trivial
  | cons text texts ih =>
    unfold asUuids
    refine (follows_asUuid _).bind fun id _ => ?_
    exact ih.bind fun ids _ => follows_pure trivial

theorem follows_createMissing (hd : ∀ n, F.Reserves (d.uuid4 n)) (n : ℕ) (texts : List String)
    (loaded : Dict String RunnerStat) :
    F.Follows (createMissing F.scope.channel d n texts loaded) fun _ => True := by
  induction texts generalizing n loaded with
  | nil => exact follows_pure trivial
  | cons text texts ih =>
    unfold createMissing
    split
    · exact ih n loaded
    · refine (follows_asUuid _).bind fun user _ => ?_
      have hsight : F.stats (newStat F.scope.channel d n user) = true := by
        rw [hF.stats_eq]
        exact decide_eq_true rfl
      exact (follows_inserting shows_stats hsight (hd n).stat).bind fun _ _ => ih _ _

theorem follows_loadStats (hd : ∀ n, F.Reserves (d.uuid4 n)) (texts : List String) :
    F.Follows (loadStats F.scope.channel texts d) fun _ => True := by
  unfold loadStats
  refine (follows_asUuids texts).bind fun users _ => ?_
  have hsight : ∀ r, servesIn F.scope.channel users r = true → F.stats r = true := by
    intro r hr
    unfold servesIn at hr
    rw [hF.stats_eq]
    exact (Bool.and_eq_true_iff.mp hr).1
  have hrows : F.Follows
      (Program.query fun db => db.runnerStats.select (servesIn F.scope.channel users))
      fun _ => True :=
    Program.coupled_query fun s t h => ⟨h.stats.select_same hsight, trivial⟩
  exact hrows.bind fun rows _ => hF.follows_createMissing hd 0 texts _

theorem follows_assignRunner (hd : ∀ n, F.Reserves (d.uuid4 n)) (participants : List Ident)
    (last : Option String) (allow : Bool) :
    F.Follows (assignRunner (.str F.scope.channel.str) participants last allow d)
      fun _ => True := by
  unfold assignRunner
  dsimp only
  split_ifs
  · exact coupled_raise _
  refine (follows_asUuid _).bind fun channel hid => ?_
  obtain rfl : F.scope.channel = channel := Option.some.inj ((Ident.asUuid_str _).symm.trans hid)
  refine (hF.follows_loadStats hd _).bind fun loaded _ => ?_
  have hchoose : F.Follows (choose (candidates loaded.1 last allow)) fun _ => True := by
    unfold choose
    cases (candidates loaded.1 last allow).argmin sortKey with
    | none => exact coupled_raise _
    | some chosen => exact follows_pure trivial
  refine hchoose.bind fun chosen _ => ?_
  have hcredit : F.Follows (updateStat chosen (credited chosen (d.clock loaded.2)))
      fun _ => True := by
    refine follows_updating shows_stats fun r => ?_
    rw [hF.stats_eq, hF.stats_eq]
    exact keeps_channel (m := (credited chosen (d.clock loaded.2)).channelId) rfl r.channelId
  refine hcredit.bind fun _ _ => ?_
  have hcount : F.Follows (previousCount loaded.1 chosen.userId.str) fun _ => True := by
    unfold previousCount
    cases loaded.1.get? chosen.userId.str with
    | none => exact coupled_raise _
    | some r => exact follows_pure trivial
  exact hcount.bind fun count _ => follows_pure trivial

end Fairness

section Close
open CloseRunService
variable {run : Run} {now : Timestamp}

theorem follows_getChannel :
    F.Follows (CloseRunService.getChannel F.scope.channel) fun c => c.id = F.scope.channel := by
  rw [getChannel_eq]
  refine follows_rowUnder _ (fun s t h => ?_) fun s t _ r _ hk => hk
  refine Table.find?_of_select h.channels fun c hc => ?_
  rw [hF.channels_eq]
  exact hc

theorem follows_loadActiveOrders (collation : Collation) (hrun : F.Has run) :
    F.Follows (loadActiveOrders collation run.id) fun _ => True := by
  have hsight : ∀ o, activeIn run.id o = true → F.orders o = true := by
    intro o ho
    rw [hF.orders_eq, Scope.ownOrder, (activeIn_iff.mp ho).1]
    exact hrun.mine
  have hread : F.Follows (Program.query (activeOrders collation run.id)) fun _ => True := by
    refine Program.coupled_query fun s t h => ⟨?_, trivial⟩
    unfold activeOrders
    rw [h.users, h.orders.select_same hsight]
  unfold loadActiveOrders
  refine hread.bind fun orders _ => ?_
  split_ifs
  · exact coupled_raise _
  · exact follows_pure trivial

omit hF in
theorem follows_previousRunner (hrun : F.Has run) :
    F.Follows (Program.query (previousRunner run)) fun _ => True := by
  have hsight : ∀ r, precedes run r = true → F.scope.ownRun r = true := by
    intro r hr
    simp only [precedes, Bool.and_eq_true, decide_eq_true_eq] at hr
    exact decide_eq_true (hr.1.1.1.1.trans hrun.channelId)
  refine Program.coupled_query fun s t h => ⟨?_, trivial⟩
  unfold previousRunner
  rw [h.runs.select_same hsight]

omit hF in
theorem follows_checkClosable (authorizer : CloseRunAuthorizer) (request : CloseRunRequest)
    (run : Run) : F.Follows (checkClosable authorizer request run) fun _ => True := by
  unfold checkClosable
  split_ifs
  · exact coupled_raise _
  · exact follows_pure trivial
  · exact coupled_raise _

omit hF in
theorem follows_snapshotOrders (orders : List (Order × User)) :
    F.Follows (snapshotOrders now orders) fun _ => True := by
  induction orders with
  | nil => exact follows_pure trivial
  | cons p orders ih =>
    obtain ⟨o, user⟩ := p
    unfold snapshotOrders
    have hwrite : F.Follows (updateOrder o (snapshotted o now)) fun _ => True :=
      follows_updateOrder rfl rfl
    refine hwrite.bind fun _ _ => ?_
    exact ih.bind fun participants _ => follows_pure trivial

theorem follows_closeRun (authorizer : CloseRunAuthorizer) (collation : Collation)
    (now : Timestamp) {request : CloseRunRequest} {d : Draws}
    (hrun : F.scope.Names (.str request.runId)) (hd : ∀ n, F.Reserves (d.uuid4 n)) :
    F.Follows (closeRun authorizer collation request now d) fun _ => True := by
  unfold closeRun
  have hget : F.Follows (getRun request.runId) F.Has := by
    rw [getRun_eq]
    exact follows_runUnder hrun _
  refine hget.bind fun run hhas => ?_
  refine (follows_checkClosable authorizer request run).bind fun _ _ => ?_
  rw [hhas.channelId]
  refine hF.follows_getChannel.bind fun c hc => ?_
  rw [hc]
  refine (hF.follows_loadActiveOrders collation hhas).bind fun orders _ => ?_
  refine (follows_previousRunner hhas).bind fun last _ => ?_
  refine (hF.follows_assignRunner hd _ _ _).bind fun decision _ => ?_
  have hrunner : F.Follows (getRunner decision.runnerUserId) fun _ => True := by
    rw [getRunner_eq]
    exact (follows_asUuid _).bind fun id _ => follows_rowUnder _
      (fun s t h => by rw [h.users]) fun _ _ _ _ _ _ => trivial
  refine hrunner.bind fun runner _ => ?_
  have hfinalize : F.Follows (updateRun run (finalized run runner.id now)) fun _ => True :=
    follows_updating shows_runs fun r =>
      keeps_channel (m := (finalized run runner.id now).channelId) rfl r.channelId
  refine hfinalize.bind fun _ _ => ?_
  exact (follows_snapshotOrders orders).bind fun participants _ => follows_pure trivial

end Close

/-! ### Admin calls -/

section Admin
open AdminService
variable {a : SlackAdminAuthorizer} {schema : AuditSchema} {actor : AdminActor} {d : Draws}
  {slackChannelId : String}

theorem follows_getChannelNamed (hslack : F.scope.slack slackChannelId) :
    F.Follows (AdminService.getChannel slackChannelId) fun c => c.id = F.scope.channel := by
  have hselect : ∀ s, F.Named s → (s.channels.select fun c => c.slackChannelId = slackChannelId) =
      (s.channels.select F.channels).filter fun c => c.slackChannelId = slackChannelId := by
    intro s hs
    unfold Table.select
    rw [List.filter_filter]
    apply List.filter_congr
    intro c hc
    by_cases hname : c.slackChannelId = slackChannelId
    · have hown : F.channels c = true := by
        rw [hF.channels_eq]
        exact hs c hc (hname ▸ hslack)
      rw [hown, Bool.and_true]
    · rw [decide_eq_false hname, Bool.false_and]
  have hread : F.Follows
      (Program.query fun db => db.channels.select fun c => c.slackChannelId = slackChannelId)
      fun found => ∀ c ∈ found, c.id = F.scope.channel := by
    refine Program.coupled_query fun s t h => ⟨?_, fun c hc => ?_⟩
    · rw [hselect s h.namedLeft, hselect t h.namedRight, h.channels]
    · obtain ⟨hmem, hname⟩ := Table.mem_select.mp hc
      exact of_decide_eq_true (h.namedLeft c hmem (of_decide_eq_true hname ▸ hslack))
  unfold AdminService.getChannel
  refine hread.bind fun found hfound => ?_
  split
  · exact coupled_raise _
  · exact follows_pure (hfound _ (List.mem_singleton_self _))
  · exact coupled_raise _

omit hF in
theorem follows_assertAuthorized (a : SlackAdminAuthorizer) (actor : AdminActor) :
    F.Follows (a.assertAuthorized actor) fun _ => True := by
  unfold SlackAdminAuthorizer.assertAuthorized
  split_ifs
  · exact follows_pure trivial
  · exact coupled_raise _

omit hF in
theorem follows_configUpdates (channel : Channel) (patch : ChannelConfigPatch) :
    F.Follows (configUpdates channel patch) fun _ => True := by
  unfold configUpdates
  cases buildConfigUpdates channel patch with
  | ok updates => exact follows_pure trivial
  | error e => exact coupled_raise _

theorem follows_updateChannel {l m : Channel} (hslack : m.slackChannelId = l.slackChannelId) :
    F.Follows (updateChannel l m) fun _ => True := by
  have hkeep : ∀ c, F.channels (Row.merge l m c) = F.channels c := by
    intro c
    rw [hF.channels_eq, hF.channels_eq]
    rfl
  have hnamed : ∀ db : Db, F.Named db →
      F.Named { db with channels := db.channels.update l m } := by
    intro db hdb c hc hname
    obtain ⟨c₀, hc₀, rfl⟩ := Table.mem_update'.mp hc
    split_ifs at hname ⊢
    · have hsame : (Row.merge l m c₀).slackChannelId = c₀.slackChannelId :=
        column_of_eq hslack c₀.slackChannelId
      exact hdb c₀ hc₀ (hsame ▸ hname)
    · exact hdb c₀ hc₀ hname
  refine follows_execute fun s t h => Or.inl ⟨_, _, rfl, rfl, ?_⟩
  refine { h with channels := ?_, namedLeft := hnamed s h.namedLeft
                  namedRight := hnamed t h.namedRight }
  rw [Table.select_update_own hkeep, Table.select_update_own hkeep, h.channels]

theorem follows_logAction (hschema : AuditSchema.ByReference schema)
    (haudited : F.scope.audited = true) (adminUserId : String)
    (actionType : ChannelAdminActionType) (details : ActionDetails) {newId : Uuid}
    (hnew : F.Reserves newId) :
    F.Follows (AdminAuditLogger.logAction schema F.scope.channel adminUserId actionType details
      newId) fun _ => True := by
  unfold AdminAuditLogger.logAction
  refine follows_execute fun s t h => ?_
  have hstored : ∀ {s t : Db}, F.Alike s t → (∃ c ∈ s.channels, c.id = F.scope.channel) →
      ∃ c ∈ t.channels, c.id = F.scope.channel := by
    rintro s t h ⟨c, hc, hid⟩
    have hown : F.channels c = true := by
      rw [hF.channels_eq]
      exact decide_eq_true hid
    exact ⟨c, Table.mem_of_same h.channels hc hown, hid⟩
  have hsymm : F.Alike t s :=
    ⟨h.users.symm, h.channels.symm, h.namedRight, h.namedLeft, h.runs.symm, h.orders.symm,
      h.preferences.symm, h.stats.symm, h.actions.symm⟩
  have hsame := hschema s t ⟨newId, F.scope.channel, adminUserId, actionType, details, none⟩
    (fun x => by rw [h.users]) ⟨hstored h, hstored hsymm⟩
  have hsight : F.actions ⟨newId, F.scope.channel, adminUserId, actionType, details, none⟩ =
      true := by
    rw [actions, hF.whole, Scope.ownAction, haudited]
    exact decide_eq_true rfl
  rw [hsame]
  cases schema t ⟨newId, F.scope.channel, adminUserId, actionType, details, none⟩ with
  | false => exact Or.inr ⟨_, rfl, rfl⟩
  | true =>
    rw [if_pos rfl, if_pos rfl]
    rcases h.actions.insert hsight hnew.action with ⟨x, y, hx, hy, hxy⟩ | ⟨hx, hy⟩
    · rw [hx, hy]
      exact Or.inl ⟨_, _, rfl, rfl, shows_actions.stored s t x y h hxy⟩
    · rw [hx, hy]
      exact Or.inr ⟨_, rfl, rfl⟩

theorem follows_purgeChannelData :
    F.Follows (purgeChannelData F.scope.channel) fun _ => True := by
  have hown : ∀ s t, F.Alike s t → ∀ o, orderOfChannel F.scope.channel s o = true →
      F.orders o = true := by
    intro s t h o ho
    obtain ⟨r, hr, hid, hc⟩ := orderOfChannel_iff.mp ho
    have hmine : F.scope.mine r.id = true := (h.runs.left r hr).mpr (decide_eq_true hc)
    rw [hF.orders_eq, Scope.ownOrder, ← hid]
    exact hmine
  have hsame : ∀ s t, F.Alike s t → orderOfChannel F.scope.channel s =
      orderOfChannel F.scope.channel t := by
    intro s t h
    funext o
    rw [Bool.eq_iff_iff, orderOfChannel_iff, orderOfChannel_iff]
    constructor
    · rintro ⟨r, hr, hid, hc⟩
      exact ⟨r, h.runs.mem hr (decide_eq_true hc), hid, hc⟩
    · rintro ⟨r, hr, hid, hc⟩
      exact ⟨r, h.runs.symm.mem hr (decide_eq_true hc), hid, hc⟩
  have hpreferences : ∀ p : UserPreference, decide (p.channelId = F.scope.channel) = true →
      F.preferences p = true := fun p hp => (hF.preferences_eq p).trans hp
  have hstats : ∀ r : RunnerStat, decide (r.channelId = F.scope.channel) = true →
      F.stats r = true := fun r hr => (hF.stats_eq r).trans hr
  unfold purgeChannelData
  have horderCount := follows_deleting (p := orderOfChannel F.scope.channel) shows_orders hown hsame
  refine horderCount.bind fun orders _ => ?_
  refine (follows_deleting shows_runs (fun _ _ _ _ hr => hr) fun _ _ _ => rfl).bind fun runs _ => ?_
  refine (follows_deleting shows_preferences (fun _ _ _ => hpreferences) fun _ _ _ => rfl).bind
    fun preferences _ => ?_
  refine (follows_deleting shows_stats (fun _ _ _ => hstats) fun _ _ _ => rfl).bind
    fun stats _ => ?_
  exact follows_pure trivial

theorem follows_updateChannelConfig (a : SlackAdminAuthorizer) (actor : AdminActor)
    (hschema : AuditSchema.ByReference schema) (haudited : F.scope.audited = true)
    (hslack : F.scope.slack slackChannelId)
    (patch : ChannelConfigPatch) (hd : ∀ n, F.Reserves (d.uuid4 n)) :
    F.Follows (updateChannelConfig a schema slackChannelId actor patch d) fun _ => True := by
  unfold updateChannelConfig
  refine (hF.follows_getChannelNamed hslack).bind fun c hc => ?_
  refine (follows_assertAuthorized a actor).bind fun _ _ => ?_
  refine (follows_configUpdates c patch).bind fun updates _ => ?_
  split_ifs
  · exact follows_pure trivial
  have hwrite := hF.follows_updateChannel (l := c)
    (m := { updates.foldl ConfigUpdate.apply c with updatedAt := d.clock 0 })
    (apply_updates_slackChannelId updates c)
  refine hwrite.bind fun _ _ => ?_
  rw [hc]
  exact (hF.follows_logAction hschema haudited _ _ _ (hd 0)).bind fun _ _ => follows_pure trivial

theorem follows_setChannelEnabled (a : SlackAdminAuthorizer) (actor : AdminActor)
    (hschema : AuditSchema.ByReference schema) (haudited : F.scope.audited = true)
    (hslack : F.scope.slack slackChannelId) (enabled : Bool)
    (reason : Option String) (hd : ∀ n, F.Reserves (d.uuid4 n)) :
    F.Follows (setChannelEnabled a schema slackChannelId actor enabled reason d)
      fun _ => True := by
  unfold setChannelEnabled
  refine (hF.follows_getChannelNamed hslack).bind fun c hc => ?_
  refine (follows_assertAuthorized a actor).bind fun _ _ => ?_
  have hwrite := hF.follows_updateChannel (l := c)
    (m := { c with enabled := enabled, updatedAt := d.clock 0 }) rfl
  refine hwrite.bind fun _ _ => ?_
  rw [hc]
  exact (hF.follows_logAction hschema haudited _ _ _ (hd 0)).bind fun _ _ => follows_pure trivial

theorem follows_resetChannelData (a : SlackAdminAuthorizer) (actor : AdminActor)
    (hschema : AuditSchema.ByReference schema) (haudited : F.scope.audited = true)
    (hslack : F.scope.slack slackChannelId)
    (hd : ∀ n, F.Reserves (d.uuid4 n)) :
    F.Follows (resetChannelData a schema slackChannelId actor d) fun _ => True := by
  unfold resetChannelData
  refine (hF.follows_getChannelNamed hslack).bind fun c hc => ?_
  refine (follows_assertAuthorized a actor).bind fun _ _ => ?_
  rw [hc]
  refine hF.follows_purgeChannelData.bind fun counts _ => ?_
  have hwrite := hF.follows_updateChannel (l := c)
    (m := { c with lastResetAt := some (d.clock 0), updatedAt := d.clock 0 }) rfl
  refine hwrite.bind fun _ _ => ?_
  exact (hF.follows_logAction hschema haudited _ _ _ (hd 0)).bind fun _ _ => follows_pure trivial

end Admin
end Full

end Footprint
end CoffeeBuddy

import CoffeeBuddy.Properties.Isolation
import CoffeeBuddy.Services.Footprints
import CoffeeBuddy.Services.Sessions

/-! Calls on different channels, and orders of different people in one channel, in concurrent
READ COMMITTED sessions: none sees anything of the others but the count of participants, so
that everything ends as if the calls had been made one after the other. -/

namespace CoffeeBuddy
open Relational Transaction OrderRepository PreferenceService

namespace Call

/-- A `submit_order`, a `use_last_order` or a `cancel_order`. -/
def isOrder : Call → Bool
  | .submitOrder _ _ _ | .useLastOrder _ _ _ _ | .cancelOrder _ _ _ => true
  | _ => false

/-- The user an order call is for, if the text is an id. -/
def orderer : Call → Option Uuid
  | .submitOrder _ request _ => Uuid.parse request.userId
  | .useLastOrder _ _ userId _ | .cancelOrder _ userId _ => Uuid.parse userId
  | _ => none

/-- Whether the call looks at orders and preferences of the user. -/
def concerns (c : Call) (u : Uuid) : Bool := !c.isOrder || decide (c.orderer = some u)

/-- What the call looks at from `db₀` on: the rows of its channel, an order call only those of
its user; no other row has the id of one of these, or one the call may draw. -/
def footprint (c : Call) (S : Scope) (db₀ : Db) : Footprint where
  scope := S
  whole := !c.isOrder
  person := c.concerns
  orderIds id := c.Creates id ∨
    ∃ o ∈ db₀.orders, (S.ownOrder o && c.concerns o.userId) = true ∧ o.id = id
  preferenceIds id := c.Creates id ∨
    ∃ p ∈ db₀.userPreferences, (S.ownPreference p && c.concerns p.userId) = true ∧ p.id = id
  statIds id := c.Creates id ∨
    ∃ r ∈ db₀.runnerStats, (!c.isOrder && S.ownStat r) = true ∧ r.id = id
  actionIds id := c.Creates id ∨
    ∃ a ∈ db₀.channelAdminActions, (!c.isOrder && S.ownAction a) = true ∧ a.id = id

end Call

/-- An answer up to the count of participants, which the other sessions change. -/
def Answer.uncounted : Answer → Answer
  | .submitted result => .submitted { result with participantCount := 0 }
  | .usedLast result =>
    .usedLast { result with submission := { result.submission with participantCount := 0 } }
  | .canceled result => .canceled { result with participantCount := 0 }
  | a => a

section Coupled
open Footprint
variable {S : Scope} {db₀ : Db} {c : Call}

theorem reserves_creates {id : Uuid} (h : c.Creates id) : (c.footprint S db₀).Reserves id :=
  ⟨Or.inl h, Or.inl h, Or.inl h, Or.inl h⟩

theorem full_footprint (c : Call) (S : Scope) (db₀ : Db) (h : c.isOrder = false) :
    (c.footprint S db₀).Full where
  whole := by rw [Call.footprint, h, Bool.not_false]
  person user := by
    show c.concerns user = true
    unfold Call.concerns
    rw [h, Bool.not_false, Bool.true_or]

theorem sees_orderer {text : String} (h : c.orderer = Uuid.parse text) :
    (c.footprint S db₀).Sees (.str text) := by
  intro id hid
  have horderer : c.orderer = some id := h.trans hid
  show c.concerns id = true
  unfold Call.concerns
  rw [horderer, decide_eq_true rfl, Bool.or_true]

/-- Between databases that are the same in its footprint a call takes the same course. -/
theorem coupled_tx (s : Database) (hschema : AuditSchema.ByReference s.auditSchema)
    (haudited : S.audited = true) (hin : c.In S) :
    Program.Coupled (c.footprint S db₀).Alike (fun a b => a.uncounted = b.uncounted)
      (c.tx s) (c.tx s) := by
  cases c with
  | createRun run =>
    have hsight : S.ownRun run.row = true := decide_eq_true hin.1
    have hinsert := follows_inserting (F := (Call.createRun run).footprint S db₀) shows_runs
      hsight hin.2
    exact hinsert.bind fun _ _ => Program.coupled_pure rfl
  | submitOrder v request d =>
    have hsubmit := coupled_submitOrder (F := (Call.submitOrder v request d).footprint S db₀) v hin
      (sees_orderer rfl) fun n => reserves_creates ⟨n, rfl⟩
    refine hsubmit.bind fun a b hab => ?_
    exact Program.coupled_pure (congrArg Answer.submitted hab)
  | useLastOrder v runId userId d =>
    have huse := coupled_useLastOrder (F := (Call.useLastOrder v runId userId d).footprint S db₀) v
      hin (sees_orderer rfl) fun n => reserves_creates ⟨n, rfl⟩
    refine huse.bind fun a b hab => Program.coupled_pure ?_
    obtain ⟨hid, hsubmission⟩ := hab
    unfold Uncounted at hsubmission
    simp only [Answer.uncounted, hid, hsubmission]
  | cancelOrder runId userId d =>
    have hcancel := coupled_cancelOrder (F := (Call.cancelOrder runId userId d).footprint S db₀)
      hin (sees_orderer rfl) d
    refine hcancel.bind fun a b hab => Program.coupled_pure ?_
    simp only [Answer.uncounted, hab]
  | closeRun authorizer request now d =>
    have hfull := full_footprint (.closeRun authorizer request now d) S db₀ rfl
    have hclose := hfull.follows_closeRun authorizer s.collation now hin
      fun n => reserves_creates ⟨n, rfl⟩
    exact hclose.bind fun _ _ => Program.coupled_pure rfl
  | updateChannelConfig a slackChannelId actor patch d =>
    have hfull := full_footprint (.updateChannelConfig a slackChannelId actor patch d) S db₀ rfl
    have hupdate := hfull.follows_updateChannelConfig a actor hschema haudited
      hin patch fun n => reserves_creates ⟨n, rfl⟩
    exact hupdate.bind fun _ _ => Program.coupled_pure rfl
  | setChannelEnabled a slackChannelId actor enabled reason d =>
    have hfull := full_footprint (.setChannelEnabled a slackChannelId actor enabled reason d) S db₀
      rfl
    have hset := hfull.follows_setChannelEnabled a actor hschema haudited hin
      enabled reason fun n => reserves_creates ⟨n, rfl⟩
    exact hset.bind fun _ _ => Program.coupled_pure rfl
  | resetChannelData a slackChannelId actor d =>
    have hfull := full_footprint (.resetChannelData a slackChannelId actor d) S db₀ rfl
    have hreset := hfull.follows_resetChannelData a actor hschema haudited hin
      fun n => reserves_creates ⟨n, rfl⟩
    exact hreset.bind fun _ _ => Program.coupled_pure rfl

end Coupled

/-! ### The other users -/

section Orders
variable {db db' : Db}

theorem select_upserted_other {before t : Table Order} {run user : Uuid} {text : String}
    {confirm : Bool} {provenance : OrderProvenance} {now : Timestamp} {order : Order}
    (h : Upserted before run user text confirm provenance now order t) {sight : Order → Bool}
    (hsight : ∀ o : Order, o.userId = user → sight o = false) :
    t.select sight = before.select sight := by
  have hnew : sight order = false := hsight order h.userId
  rcases h.written with ⟨existing, hf, hid, -, rfl⟩ | ⟨-, -, hi⟩
  · have hold : existing.userId = user := congrArg Prod.snd (ofPair_iff.mp (List.find?_some hf))
    exact Table.select_update_other (List.mem_of_find?_eq_some hf) hid (hsight existing hold) hnew
  · rw [Table.select_insert hi, hnew]
    exact List.append_nil _

theorem select_remembered_other {before t : Table UserPreference} {user channel : Uuid}
    {text : String} {now : Timestamp} {p : UserPreference}
    (h : Remembered before user channel text now p t) {sight : UserPreference → Bool}
    (hsight : ∀ p : UserPreference, p.userId = user → sight p = false) :
    t.select sight = before.select sight := by
  have hnew : sight p = false := hsight p h.userId
  rcases h.written with ⟨existing, hf, hid, -, rfl⟩ | ⟨-, -, hi⟩
  · have hold : existing.userId = user := (ofUser_iff.mp (List.find?_some hf)).1
    exact Table.select_update_other (List.mem_of_find?_eq_some hf) hid (hsight existing hold) hnew
  · rw [Table.select_insert hi, hnew]
    exact List.append_nil _

/-- What an order call leaves: the other tables, and the rows of the other users. -/
structure OrderFrame (c : Call) (db db' : Db) : Prop where
  users : db'.users = db.users
  channels : db'.channels = db.channels
  runs : db'.runs = db.runs
  stats : db'.runnerStats = db.runnerStats
  actions : db'.channelAdminActions = db.channelAdminActions
  orders : ∀ sight : Order → Bool, (∀ o, c.orderer = some o.userId → sight o = false) →
    db'.orders.select sight = db.orders.select sight
  preferences : ∀ sight : UserPreference → Bool,
    (∀ p, c.orderer = some p.userId → sight p = false) →
      db'.userPreferences.select sight = db.userPreferences.select sight

theorem frame_persistOrder {c : Call} {run : Run} {user : User} {text : String} {confirm : Bool}
    {provenance : OrderProvenance} {d : Draws} {result : OrderSubmissionResult}
    (horderer : c.orderer = some user.id)
    (h : (OrderService.persistOrder run user text confirm provenance d).Returns db result db') :
    OrderFrame c db db' := by
  obtain ⟨order, orders, prefs, hup, hprefs, rfl, -⟩ := OrderService.returns_persistOrder h
  refine ⟨rfl, rfl, rfl, rfl, rfl, fun sight hsight => ?_, fun sight hsight => ?_⟩
  · exact select_upserted_other hup fun o ho => hsight o (ho ▸ horderer)
  · rcases hprefs with ⟨-, rfl⟩ | ⟨-, p, hp⟩
    · rfl
    · exact select_remembered_other hp fun p hp => hsight p (hp ▸ horderer)

theorem order_frame (s : Database) {c : Call} (hc : c.isOrder = true) {a : Answer}
    (h : (c.tx s).Returns db a db') : OrderFrame c db db' := by
  cases c with
  | submitOrder v request d =>
    obtain ⟨result, hsubmit, -⟩ := Program.returns_bind_pure.mp h
    obtain ⟨run, user, normalized, -, -, -, huser, -, -, hpersist⟩ :=
      OrderService.returns_submitOrder hsubmit
    exact frame_persistOrder huser hpersist
  | useLastOrder v runId userId d =>
    obtain ⟨result, huse, -⟩ := Program.returns_bind_pure.mp h
    obtain ⟨run, user, old, normalized, mid, -, -, -, huser, -, hold, -, hpersist, q, hq, -, rfl⟩ :=
      OrderService.returns_useLastOrder huse
    have hmid := frame_persistOrder (c := .useLastOrder v runId userId d) huser hpersist
    obtain ⟨order, orders, prefs, -, hprefs, rfl, -⟩ := OrderService.returns_persistOrder hpersist
    obtain ⟨p, hp⟩ : ∃ p, Remembered db.userPreferences user.id run.channelId normalized
        (d.clock 1) p prefs := by
      rcases hprefs with ⟨hconfirm, -⟩ | ⟨-, hp⟩
      · exact absurd hconfirm (by decide)
      · exact hp
    -- the row read before the order is the one the order has rewritten
    have hfind : prefs.find? old.id = some p := hp.id_eq hold ▸ Table.find?_key hp.mem
    have hqp : q = p := hq.trans (congrArg (Option.getD · old) hfind)
    subst hqp
    refine { hmid with preferences := fun sight hsight => ?_ }
    rw [← hmid.preferences sight hsight]
    have hother : ∀ r : UserPreference, r.userId = user.id → sight r = false :=
      fun r hr => hsight r (hr ▸ huser)
    exact Table.select_update_other hp.mem rfl (hother q hp.userId) (hother _ hp.userId)
  | cancelOrder runId userId d =>
    obtain ⟨result, hcancel, -⟩ := Program.returns_bind_pure.mp h
    obtain ⟨run, user, o, orders, -, -, -, huser, -, hf, -, rfl, rfl, -⟩ :=
      OrderService.returns_cancelOrder.mp hcancel
    have hold : o.userId = user.id := congrArg Prod.snd (ofPair_iff.mp (List.find?_some hf))
    refine ⟨rfl, rfl, rfl, rfl, rfl, fun sight hsight => ?_, fun _ _ => rfl⟩
    have hother : ∀ o : Order, o.userId = user.id → sight o = false :=
      fun o ho => hsight o (ho ▸ huser)
    exact Table.select_update_other (List.mem_of_find?_eq_some hf) rfl (hother o hold)
      (hother _ hold)
  | createRun run => cases hc
  | closeRun authorizer request now d => cases hc
  | updateChannelConfig a slackChannelId actor patch d => cases hc
  | setChannelEnabled a slackChannelId actor enabled reason d => cases hc
  | resetChannelData a slackChannelId actor d => cases hc

end Orders
/-! ### A call that waits -/

namespace Call
variable {c : Call} {D : Directory} {a : Uuid} {db₀ t : Db}

/-- What the call looks at is as it was in `db₀`, and the ids it may draw are free. -/
structure Ready (c : Call) (D : Directory) (a : Uuid) (db₀ t : Db) : Prop where
  describes : D.Describes t
  fresh : ∀ id, c.Creates id → t.Avoids id
  users : db₀.users = t.users
  runs : db₀.runs.select (D.scope a).ownRun = t.runs.select (D.scope a).ownRun
  channels : db₀.channels.select (c.footprint (D.scope a) db₀).channels =
    t.channels.select (c.footprint (D.scope a) db₀).channels
  orders : db₀.orders.select (c.footprint (D.scope a) db₀).orders =
    t.orders.select (c.footprint (D.scope a) db₀).orders
  preferences : db₀.userPreferences.select (c.footprint (D.scope a) db₀).preferences =
    t.userPreferences.select (c.footprint (D.scope a) db₀).preferences
  stats : db₀.runnerStats.select (c.footprint (D.scope a) db₀).stats =
    t.runnerStats.select (c.footprint (D.scope a) db₀).stats
  actions : db₀.channelAdminActions.select (c.footprint (D.scope a) db₀).actions =
    t.channelAdminActions.select (c.footprint (D.scope a) db₀).actions

theorem Ready.start (h : D.Describes db₀) (hfresh : ∀ id, c.Creates id → db₀.Avoids id) :
    c.Ready D a db₀ db₀ := ⟨h, hfresh, rfl, rfl, rfl, rfl, rfl, rfl, rfl⟩

theorem Ready.alike {s : Db} (hs : c.Ready D a db₀ s) (ht : c.Ready D a db₀ t) :
    (c.footprint (D.scope a) db₀).Alike s t := by
  have hnamed : ∀ {t : Db}, c.Ready D a db₀ t → (c.footprint (D.scope a) db₀).Named t := by
    intro t ht channel hc hslack
    exact decide_eq_true ((ht.describes.channels channel hc).symm.trans hslack)
  have hruns : ∀ {t : Db}, c.Ready D a db₀ t →
      t.runs.Owned (D.scope a).ownRun fun id => (D.scope a).mine id = true := by
    intro t ht run hr
    show decide (D.home run.id = a) = true ↔ decide (run.channelId = a) = true
    rw [ht.describes.runs run hr]
  exact {
    users := hs.users.symm.trans ht.users
    channels := hs.channels.symm.trans ht.channels
    namedLeft := hnamed hs
    namedRight := hnamed ht
    runs := ⟨hs.runs.symm.trans ht.runs, hruns hs, hruns ht⟩
    orders := ⟨hs.orders.symm.trans ht.orders,
      Table.owned_of_same hs.orders fun o ho hid => (hs.fresh _ hid).orders o ho rfl,
      Table.owned_of_same ht.orders fun o ho hid => (ht.fresh _ hid).orders o ho rfl⟩
    preferences := ⟨hs.preferences.symm.trans ht.preferences,
      Table.owned_of_same hs.preferences fun p hp hid => (hs.fresh _ hid).preferences p hp rfl,
      Table.owned_of_same ht.preferences fun p hp hid => (ht.fresh _ hid).preferences p hp rfl⟩
    stats := ⟨hs.stats.symm.trans ht.stats,
      Table.owned_of_same hs.stats fun r hr hid => (hs.fresh _ hid).stats r hr rfl,
      Table.owned_of_same ht.stats fun r hr hid => (ht.fresh _ hid).stats r hr rfl⟩
    actions := ⟨hs.actions.symm.trans ht.actions,
      Table.owned_of_same hs.actions fun x hx hid => (hs.fresh _ hid).actions x hx rfl,
      Table.owned_of_same ht.actions fun x hx hid => (ht.fresh _ hid).actions x hx rfl⟩ }

/-- The calls are on different channels, or orders of different users. -/
def Apart (c : Call) (a : Uuid) (c' : Call) (b : Uuid) : Prop :=
  a ≠ b ∨ c.isOrder = true ∧ c'.isOrder = true ∧ ∀ u, c.orderer = some u → c'.orderer ≠ some u

/-- The rows of another channel stay. -/
theorem Ready.other_channel {s : Db} (h : c.Ready D a db₀ s) {b : Uuid} {c' : Call}
    (hab : a ≠ b) (hkeeps : Keeps D b c' s t) (hfresh : ∀ id, c.Creates id → ¬c'.Creates id) :
    c.Ready D a db₀ t := by
  obtain ⟨hchannels, hruns, horders, hpreferences, hstats, hactions⟩ :=
    ChannelRows.mk.inj (hkeeps.rows a hab)
  exact {
    describes := hkeeps.describes
    fresh := fun id hid => hkeeps.avoids id (h.fresh id hid) (hfresh id hid)
    users := h.users.trans hkeeps.users.symm
    runs := h.runs.trans hruns.symm
    channels := h.channels.trans
      (Table.select_narrower hchannels.symm fun _ hx => (Bool.and_eq_true_iff.mp hx).2)
    orders := h.orders.trans
      (Table.select_narrower horders.symm fun _ hx => (Bool.and_eq_true_iff.mp hx).1)
    preferences := h.preferences.trans
      (Table.select_narrower hpreferences.symm fun _ hx => (Bool.and_eq_true_iff.mp hx).1)
    stats := h.stats.trans
      (Table.select_narrower hstats.symm fun _ hx => (Bool.and_eq_true_iff.mp hx).2)
    actions := h.actions.trans
      (Table.select_narrower hactions.symm fun _ hx => (Bool.and_eq_true_iff.mp hx).2) }

/-- The rows of another user stay. -/
theorem Ready.other_user {s : Db} (h : c.Ready D a db₀ s) {b : Uuid} {c' : Call}
    (hc : c.isOrder = true) (husers : ∀ u, c.orderer = some u → c'.orderer ≠ some u)
    (hframe : OrderFrame c' s t) (hkeeps : Keeps D b c' s t)
    (hfresh : ∀ id, c.Creates id → ¬c'.Creates id) : c.Ready D a db₀ t := by
  have hperson : ∀ u, c'.orderer = some u → c.concerns u = false := by
    intro u hu
    unfold concerns
    rw [hc, Bool.not_true, Bool.false_or]
    exact decide_eq_false fun hown => husers u hown hu
  have horders : ∀ o : Order, c'.orderer = some o.userId →
      (c.footprint (D.scope a) db₀).orders o = false := by
    intro o ho
    have hout : (c.footprint (D.scope a) db₀).person o.userId = false := hperson _ ho
    rw [Footprint.orders, hout, Bool.and_false]
  have hpreferences : ∀ p : UserPreference, c'.orderer = some p.userId →
      (c.footprint (D.scope a) db₀).preferences p = false := by
    intro p hp
    have hout : (c.footprint (D.scope a) db₀).person p.userId = false := hperson _ hp
    rw [Footprint.preferences, hout, Bool.and_false]
  exact {
    describes := hkeeps.describes
    fresh := fun id hid => hkeeps.avoids id (h.fresh id hid) (hfresh id hid)
    users := h.users.trans hframe.users.symm
    runs := h.runs.trans (by rw [hframe.runs])
    channels := h.channels.trans (by rw [hframe.channels])
    orders := h.orders.trans (hframe.orders _ horders).symm
    preferences := h.preferences.trans (hframe.preferences _ hpreferences).symm
    stats := h.stats.trans (by rw [hframe.stats])
    actions := h.actions.trans (by rw [hframe.actions]) }

end Call

/-! ### Interleavings -/

section Interleavings
variable {ι : Type} {s : Database} {calls : ι → Call} {D : Directory} {channel : ι → Uuid}
  {db₀ : Db}

/-- Calls no two of which meet: each is on its channel, and draws ids of its own. -/
structure Separate (calls : ι → Call) (D : Directory) (channel : ι → Uuid) (db₀ : Db) : Prop where
  on : ∀ i, (calls i).In (D.scope (channel i))
  apart : ∀ i j, i ≠ j → (calls i).Apart (channel i) (calls j) (channel j)
  fresh : ∀ i id, (calls i).Creates id → db₀.Avoids id
  disjoint : ∀ i j id, i ≠ j → (calls i).Creates id → ¬(calls j).Creates id

theorem perform_of_returns {c : Call} {db db' : Db} {answer : Answer}
    (h : (c.tx s).Returns db answer db') : (perform s c db).2 = db' := by
  have hexec : (c.tx s).exec db = (.ok answer, db') := h
  unfold perform
  rw [hexec]

theorem undisturbed_calls (hschema : AuditSchema.ByReference s.auditSchema)
    (h : Separate calls D channel db₀) :
    World.Undisturbed (fun i => (calls i).Ready D (channel i) db₀)
      (fun i => ((calls i).footprint (D.scope (channel i)) db₀).Alike)
      (fun a b => a.uncounted = b.uncounted) fun i => (calls i).tx s where
  related i _ _ hs ht := hs.alike ht
  coupled i := coupled_tx s hschema rfl (h.on i)
  frame i j db answer db' hij hi hj hreturns := by
    have hkeeps : Keeps D (channel j) (calls j) db db' :=
      perform_of_returns hreturns ▸ call_keeps hschema hj.describes (h.on j) hj.fresh
    have hdisjoint := fun id => h.disjoint i j id hij
    rcases h.apart i j hij with hchannel | ⟨hc, hc', husers⟩
    · exact hi.other_channel hchannel hkeeps hdisjoint
    · exact hi.other_user hc husers (order_frame s hc' hreturns) hkeeps hdisjoint

/-- The call of session `i`, run alone, as an event. -/
def made (calls : ι → Call) (f : Transition.Event Db (ι × Except Exc Answer)) : Event :=
  ⟨f.before, (calls f.label.1, f.label.2), f.after⟩

theorem step_of_serial {db db' : Db} {i : ι} {r : Except Exc Answer}
    (h : World.serialStep (fun i => (calls i).tx s) db (i, r) db') : step s db (calls i, r) db' := by
  cases r with
  | ok answer => exact h
  | error e =>
    obtain ⟨rfl, u, hraises⟩ := h
    have hstep : step s db' (calls i, .error e) (if e = .integrityError then db' else u) :=
      ⟨u, hraises, rfl⟩
    exact ⟨u, hraises, (failed_step hstep).symm⟩

theorem history_of_serial {db db' : Db} {fs : List (Transition.Event Db (ι × Except Exc Answer))}
    (h : Transition.Path (World.serialStep fun i => (calls i).tx s) db fs db') :
    History s db (fs.map (made calls)) db' := by
  induction h with
  | nil => exact .nil
  | snoc _ last ih =>
    rw [List.map_append, List.map_singleton]
    exact .snoc ih (step_of_serial last)

/-- A history of these calls with these outcomes, the counts apart. -/
def Retells (calls : ι → Call) (rs : List (ι × Except Exc Answer)) (hs : List Event) : Prop :=
  List.Forall₂ (fun r e => e.label.1 = calls r.1 ∧
    e.label.2.map Answer.uncounted = r.2.map Answer.uncounted) rs hs

end Interleavings

/-- Calls of which no two meet end, in whatever order their statements run, like the history of
those that commit or raise, in the order in which they do. -/
theorem calls_serializable {ι : Type} [DecidableEq ι] (s : Database)
    (hschema : AuditSchema.ByReference s.auditSchema) (calls : ι → Call) (D : Directory)
    (channel : ι → Uuid) (db₀ : Db) (h₀ : D.Describes db₀)
    (hcalls : Separate calls D channel db₀) (es : List (World.Move ι Db Exc Answer))
    (w : World ι Db Exc Answer) (h : Interleaving s calls db₀ es w) :
    ∃ hs, History s db₀ hs w.store ∧ Retells calls (World.endings .integrityError es) hs := by
  obtain ⟨fs, hserial, hends⟩ := (undisturbed_calls hschema hcalls).serial h
    fun i => .start h₀ (hcalls.fresh i)
  refine ⟨fs.map (made calls), history_of_serial hserial, ?_⟩
  refine List.forall₂_map_right_iff.mpr (hends.imp ?_)
  rintro ⟨i, r⟩ f ⟨rfl, hagree⟩
  refine ⟨rfl, ?_⟩
  show f.label.2.map Answer.uncounted = r.map Answer.uncounted
  cases r <;> cases hf : f.label.2 <;> rw [hf] at hagree
  · rw [hagree]
  · exact hagree.elim
  · exact hagree.elim
  · exact congrArg Except.ok hagree.symm

/-! ### An order beside a close -/

namespace Sample

/-- Alice orders in the first channel while somebody closes the run of the second, in which
nobody has ordered. -/
def besides : Bool → Call := pair (orders 1 11) (closes 4 12)

def besideMoves : List (World.Move Bool Db Exc Answer) :=
  pairMoves twoChannels (orders 1 11) (closes 4 12) (List.replicate 12 [true, false]).flatten

def besideEnd : World Bool Db Exc Answer :=
  pairEnd twoChannels (orders 1 11) (closes 4 12) (List.replicate 12 [true, false]).flatten

theorem separate_besides :
    Separate besides directory (fun i => if i then channel.id else tea.id) twoChannels where
  on i := by
    cases i
    · exact names_run (S := directory.scope tea.id) (by decide)
    · exact names_run (S := directory.scope channel.id) (by decide)
  apart i j hij := by
    have hchannels : channel.id ≠ tea.id := by decide
    cases i <;> cases j
    · exact absurd rfl hij
    · exact Or.inl hchannels.symm
    · exact Or.inl hchannels
    · exact absurd rfl hij
  fresh i := by
    cases i
    · exact avoids_pairDraws (t := 4) (by decide)
    · exact avoids_pairDraws (t := 1) (by decide)
  disjoint i j id hij := by
    cases i <;> cases j
    · exact absurd rfl hij
    · exact disjoint_pairDraws (t := 4) (u := 1) (by decide) id
    · exact disjoint_pairDraws (t := 1) (u := 4) (by decide) id
    · exact absurd rfl hij

theorem endings_besides :
    (World.endings .integrityError besideMoves).map (fun r => (r.1, r.2.isOk)) =
      [(false, false), (true, true)] := by
  decide +kernel

end Sample

open Sample in
theorem calls_serializable_besides :
    (World.endings .integrityError besideMoves).map (fun r => (r.1, r.2.isOk)) =
        [(false, false), (true, true)] ∧
      ∃ hs, History database twoChannels hs besideEnd.store ∧
        Retells besides (World.endings .integrityError besideMoves) hs :=
  ⟨endings_besides, calls_serializable database (fun _ _ _ _ _ => rfl) besides directory _
    twoChannels describes_twoChannels separate_besides besideMoves besideEnd
    (interleaving_pair ..)⟩

end CoffeeBuddy

import CoffeeBuddy.Services.Sessions

/-! Orders against a close. A close lists the orders it sees at one SELECT and its run
closes when it commits: the two agree as long as no other session changes the orders in
between, and nothing in the code keeps one from doing so. -/

namespace CoffeeBuddy
open Relational Transaction OrderRepository CloseRunService

/-- `u` has an active order for `text` in the run. -/
def Holds (run u : Uuid) (text : String) (db : Db) : Prop :=
  ∃ o ∈ db.orders, o.runId = run ∧ o.canceledAt = none ∧ o.userId = u ∧ o.orderText = text

section Close
variable {ι : Type} [DecidableEq ι]

/-- The move keeps the active orders of the run. -/
def KeepsOrders (run : Uuid) (e : World.Move ι Db Exc Answer) : Prop :=
  ∀ u text, Holds run u text e.after.store ↔ Holds run u text e.before.store

/-- From the third statement of session `c` on, which reads the active orders, no other
session commits a change to them. -/
def OrdersSettled (c : ι) (run : Uuid) (es : List (World.Move ι Db Exc Answer)) : Prop :=
  ∀ es₁ f es₂, es = es₁ ++ f :: es₂ → f.label = c → (World.trail c es₁).length = 2 →
    ∀ e ∈ es₂, e.label ≠ c → KeepsOrders run e

theorem holds_snapshot {now : Timestamp} {db db' : Db} {orders : List (Order × User)}
    (h : db'.orders = snapshot now db.orders orders) (run u : Uuid) (text : String) :
    Holds run u text db' ↔ Holds run u text db := by
  rw [Holds, Holds, h]
  constructor
  · rintro ⟨o, ho, hr, hc, hu, ht⟩
    obtain ⟨p, hp, hpo⟩ := mem_snapshot ho
    obtain ⟨-, hpr, hpu, hpt, -, hpc⟩ := content_eq hpo
    exact ⟨p, hp, hpr.trans hr, hpc.trans hc, hpu.trans hu, hpt.trans ht⟩
  · rintro ⟨o, ho, hr, hc, hu, ht⟩
    obtain ⟨p, hp, hpo⟩ := mem_of_mem_snapshot now orders ho
    obtain ⟨-, hpr, hpu, hpt, -, hpc⟩ := content_eq hpo
    exact ⟨p, hp, hpr.trans hr, hpc.trans hc, hpu.trans hu, hpt.trans ht⟩

theorem uniqueIn_of_valid {db : Db} (h : db.Valid) (run : Uuid) : UniqueIn run db.orders :=
  fun _ ho _ hp _ hop => h.order_unique ho hp hop

variable {s : Database} {calls : ι → Call} {db₀ : Db} {es : List (World.Move ι Db Exc Answer)}
  {w : World ι Db Exc Answer} {c : ι} {authorizer : CloseRunAuthorizer} {request : CloseRunRequest}
  {now : Timestamp} {d : Draws}

/-- The close itself keeps the orders, whatever it writes into them. -/
theorem keepsOrders_close (h : Interleaving s calls db₀ es w)
    (hcall : calls c = .closeRun authorizer request now d) {e : World.Move ι Db Exc Answer}
    (he : e ∈ es) (hl : e.label = c) (run : Uuid) : KeepsOrders run e := by
  obtain ⟨es₁, es₂, rfl⟩ := List.append_of_mem he
  obtain ⟨hpre, hstep, -⟩ := Transition.Path.split_iff.mp h
  cases ha : World.answer e with
  | none =>
    rw [KeepsOrders, World.store_of_answer_none hstep ha]
    exact fun _ _ => Iff.rfl
  | some answer =>
    obtain ⟨result, -, ⟨st⟩, hwritten, -⟩ := statements_of_answer hpre hstep (hl ▸ hcall) ha
    obtain ⟨t, -, hafter⟩ := st.written hwritten
    exact holds_snapshot (congrArg Db.orders hafter) run

end Close

theorem closed_orders_are_participants {ι : Type} [DecidableEq ι] (s : Database) (calls : ι → Call)
    (db₀ : Db) (es : List (World.Move ι Db Exc Answer)) (w : World ι Db Exc Answer) (c : ι)
    (authorizer : CloseRunAuthorizer) (request : CloseRunRequest) (now : Timestamp) (d : Draws)
    (result : CloseRunResult) (run : Uuid) (hvalid : db₀.Valid) (h : Interleaving s calls db₀ es w)
    (hcall : calls c = .closeRun authorizer request now d)
    (hdone : w.sessions c = .committed (.closed result)) (hrun : Uuid.parse request.runId = some run)
    (hsettled : OrdersSettled c run es) :
    (∀ id text, (∃ p ∈ result.summary.participants, p.userId = id ∧ p.orderText = text) ↔
      ∃ u : Uuid, u.str = id ∧ Holds run u text w.store) ∧
    (result.summary.participants.map ParticipantOrder.userId).Nodup ∧
    ∃ u text, result.runnerUserId = u.str ∧ Holds run u text w.store := by
  obtain ⟨es₁, e, es₂, rfl, rfl, ha⟩ := World.answer_of_committed h hdone
  obtain ⟨hpre, hstep, -⟩ := Transition.Path.split_iff.mp h
  obtain ⟨result', hresult, ⟨st⟩, -, -⟩ := statements_of_answer hpre hstep hcall ha
  obtain rfl := Answer.closed.inj hresult
  obtain rfl : run = st.run.id := Option.some.inj (hrun.symm.trans st.id)
  -- the SELECT of the active orders, and the store it saw
  obtain ⟨_, hsplit⟩ := st.split_ordersRead
  obtain ⟨fs₁, f, fs₂, rfl, hf, htrail, hseen⟩ := World.read_of_trail hpre hsplit rfl
  have hpath := (Transition.Path.split_iff.mp (List.append_assoc fs₁ (f :: fs₂) _ ▸ h))
  have hseenValid : st.ordersRead.Valid := hseen ▸ World.valid_of_run hpath.1 hvalid
  -- every later move keeps the orders, the close's own by what it writes
  have hkeeps : ∀ m ∈ f :: (fs₂ ++ e :: es₂), KeepsOrders st.run.id m := by
    intro m hm
    by_cases hl : m.label = e.label
    · have hmem : m ∈ fs₁ ++ f :: fs₂ ++ e :: es₂ := by
        rw [List.append_assoc, List.cons_append]
        exact List.mem_append_right fs₁ hm
      exact keepsOrders_close h hcall hmem hl _
    · refine hsettled fs₁ f _ (List.append_assoc fs₁ _ _) hf ?_ m ?_ hl
      · rw [htrail]
        rfl
      · exact (List.mem_cons.mp hm).resolve_left fun hmf => hl (hmf ▸ hf)
  have hfinal : ∀ u text, Holds st.run.id u text w.store ↔ Holds st.run.id u text st.ordersRead := by
    rw [hseen]
    refine hpath.2.2.induct (I := fun w : World ι Db Exc Answer => ∀ u text,
      Holds st.run.id u text w.store ↔ Holds st.run.id u text f.before.store)
      (fun m _ hm hI u text => (hm u text).trans (hI u text))
      (fun m hm => hkeeps m (List.mem_cons_of_mem _ hm)) (hkeeps f List.mem_cons_self)
  refine ⟨fun id text => ?_, ?_, ?_⟩
  · simp only [st.participants, List.mem_map, hfinal]
    constructor
    · rintro ⟨_, ⟨p, hp, rfl⟩, rfl, rfl⟩
      obtain ⟨ho, hr, hc, -⟩ := mem_activeOrders.mp hp
      exact ⟨p.1.userId, rfl, p.1, ho, hr, hc, rfl, rfl⟩
    · rintro ⟨u, rfl, o, ho, hr, hc, rfl, rfl⟩
      -- its user is stored, so the join has not lost it
      obtain ⟨user, -, hp⟩ : ∃ user, user.id = o.userId ∧
          (o, user) ∈ activeOrders s.collation st.run.id st.ordersRead :=
        exists_mem_activeOrders ho hr hc (hseenValid.user_of_order ho)
      exact ⟨_, ⟨(o, user), hp, rfl⟩, rfl, rfl⟩
  · have hids : result.summary.participants.map ParticipantOrder.userId =
        (participantIds s.collation st.run.id st.ordersRead).map Uuid.str := by
      rw [st.participants, participantIds, List.map_map, List.map_map]
      rfl
    rw [hids]
    exact (nodup_participantIds (uniqueIn_of_valid hseenValid _)).map Uuid.str_injective
  · obtain ⟨⟨o, ho, hr, hc, hu⟩, -⟩ := mem_participantIds.mp st.participates
    exact ⟨st.chosen.userId, o.orderText, st.runnerUserId, (hfinal _ _).mpr ⟨o, ho, hr, hc, hu, rfl⟩⟩

/-! ### A cancellation that meets a close -/

namespace Sample

/-- An open run in which alice and bob have ordered. -/
def ordered : Db := bothOrdered

def raceClose : Call := close 2 11 false

def raceCancel : Call := cancel 1 11 alice

def cancelFirst : List Bool := List.replicate 6 false ++ List.replicate 13 true

/-- The cancellation finds the run open, and commits after the close. -/
def cancelAround : List Bool := false :: List.replicate 13 true ++ List.replicate 5 false

/-- The listed users of the close, whether the cancellation returned, and who is left. -/
def raceFacts (schedule : List Bool) : Option (List String) × Bool × List Uuid :=
  ((closedResult ((pairEnd ordered raceClose raceCancel schedule).sessions true)).map fun r =>
      r.summary.participants.map ParticipantOrder.userId,
    (pairEnd ordered raceClose raceCancel schedule).sessions false matches .committed (.canceled _),
    ((pairEnd ordered raceClose raceCancel schedule).store.orders.select
      (activeIn (.ofNat 11))).map Order.userId)

theorem cancelFirst_facts : raceFacts cancelFirst = (some [bob.id.str], true, [bob.id]) ∧
    ((pairMoves ordered raceClose raceCancel cancelFirst).map fun e => e.label).Pairwise
      (fun i j => i = true → j = true) := by
  decide +kernel

theorem cancelAround_facts :
    raceFacts cancelAround = (some [alice.id.str, bob.id.str], true, [bob.id]) := by
  decide +kernel

theorem closed_of_raceFacts {schedule : List Bool} {ids : List String} {b : Bool} {us : List Uuid}
    (h : raceFacts schedule = (some ids, b, us)) : ∃ result,
      (pairEnd ordered raceClose raceCancel schedule).sessions true = .committed (.closed result) ∧
        result.summary.participants.map ParticipantOrder.userId = ids := by
  obtain ⟨result, hclosed, hids⟩ := Option.map_eq_some_iff.mp (Prod.mk.inj h).1
  exact ⟨result, closedResult_eq_some hclosed, hids⟩

theorem holds_of_raceFacts {schedule : List Bool} {r : Option (List String)} {b : Bool}
    {us : List Uuid} (h : raceFacts schedule = (r, b, us)) {u : Uuid} {text : String}
    (hu : Holds (.ofNat 11) u text (pairEnd ordered raceClose raceCancel schedule).store) :
    u ∈ us := by
  obtain ⟨o, ho, hr, hc, rfl, -⟩ := hu
  rw [← (Prod.mk.inj (Prod.mk.inj h).2).2]
  exact List.mem_map_of_mem (Table.mem_select.mpr ⟨ho, activeIn_iff.mpr ⟨hr, hc⟩⟩)

end Sample

open Sample in
/-- Both calls commit, and the closed run lists alice without her order. -/
theorem canceled_order_stays_listed :
    ordered.Valid ∧ Interleaving database (pair raceClose raceCancel) ordered
      (pairMoves ordered raceClose raceCancel cancelAround)
      (pairEnd ordered raceClose raceCancel cancelAround) ∧
    (∃ answer, (pairEnd ordered raceClose raceCancel cancelAround).sessions false =
      .committed answer) ∧
    ∃ result, (pairEnd ordered raceClose raceCancel cancelAround).sessions true =
      .committed (.closed result) ∧
      ¬∀ id text, (∃ p ∈ result.summary.participants, p.userId = id ∧ p.orderText = text) ↔
        ∃ u : Uuid, u.str = id ∧
          Holds (.ofNat 11) u text (pairEnd ordered raceClose raceCancel cancelAround).store := by
  obtain ⟨result, hclosed, hids⟩ := closed_of_raceFacts cancelAround_facts
  refine ⟨by decide, interleaving_pair _ _ _ _, ?_, result, hclosed, fun h => ?_⟩
  · have hcanceled := (Prod.mk.inj (Prod.mk.inj cancelAround_facts).2).1
    split at hcanceled
    · rename_i answer hanswer
      exact ⟨_, hanswer⟩
    · cases hcanceled
  · have hlisted : alice.id.str ∈ result.summary.participants.map ParticipantOrder.userId := by
      rw [hids]
      exact List.mem_cons_self
    obtain ⟨p, hp, hid⟩ := List.mem_map.mp hlisted
    obtain ⟨u, hu, hholds⟩ := (h _ _).mp ⟨p, hp, hid, rfl⟩
    have hmem := holds_of_raceFacts cancelAround_facts hholds
    rw [Uuid.str_inj.mp hu] at hmem
    exact absurd hmem (by decide)

open Sample in
theorem closed_orders_are_participants_cancelFirst :
    ∃ result, (pairEnd ordered raceClose raceCancel cancelFirst).sessions true =
      .committed (.closed result) ∧ ∃ u text, result.runnerUserId = u.str ∧
        Holds (.ofNat 11) u text (pairEnd ordered raceClose raceCancel cancelFirst).store := by
  obtain ⟨result, hclosed, -⟩ := closed_of_raceFacts cancelFirst_facts.1
  refine ⟨result, hclosed, (closed_orders_are_participants database (pair raceClose raceCancel)
    ordered (pairMoves ordered raceClose raceCancel cancelFirst)
    (pairEnd ordered raceClose raceCancel cancelFirst) true _ _ _ _ result (.ofNat 11) (by decide)
    (interleaving_pair _ _ _ _) rfl hclosed (Uuid.parse_str _) ?_).2.2⟩
  intro es₁ f es₂ hes hf _ e he hl
  have hlabels := cancelFirst_facts.2
  rw [hes, List.map_append, List.map_cons, List.pairwise_append, List.pairwise_cons] at hlabels
  exact absurd (hlabels.2.1.1 e.label (List.mem_map_of_mem he) hf) hl

end CoffeeBuddy

import CoffeeBuddy.Services.History

/-! Which orders a close leaves marked final. The mark is set by a confirmed order and by
the close; cancelling an order leaves it, so an order withdrawn after it was confirmed
stays marked though the summary does not list it. -/

namespace CoffeeBuddy
open Relational Transaction OrderRepository CloseRunService

/-- What an order's row keeps of the calls on it. -/
structure Mark where
  confirmed : Bool
  withdrawn : Bool
deriving DecidableEq

def markOf (o : Order) : Mark := ⟨o.isFinal, o.canceledAt.isSome⟩

/-- Whether a call that places an order confirms it. -/
def Call.confirms : Call → Bool
  | .submitOrder _ request _ => request.confirm
  | .useLastOrder _ _ _ _ => true
  | _ => false

/-- The three calls on orders. -/
def Call.OnOrders : Call → Prop
  | .submitOrder _ _ _ | .useLastOrder _ _ _ _ | .cancelOrder _ _ _ => True
  | _ => False

instance (c : Call) : Decidable c.OnOrders :=
  match c with
  | .submitOrder _ _ _ | .useLastOrder _ _ _ _ | .cancelOrder _ _ _ => isTrue trivial
  | .createRun _ | .closeRun _ _ _ _ | .updateChannelConfig _ _ _ _ _
  | .setChannelEnabled _ _ _ _ _ _ | .resetChannelData _ _ _ _ => isFalse id

/-- What a call does to the marks of the orders of run `r`, by user. -/
def remark (r : Uuid) (M : Uuid → Option Mark) (l : Label) : Uuid → Option Mark :=
  match report l with
  | .placed p =>
    match Uuid.parse p.userId with
    | some u =>
      if Uuid.parse p.runId = some r then Function.update M u (some ⟨l.1.confirms, false⟩) else M
    | none => M
  | .withdrawn w =>
    match Uuid.parse w.userId with
    | some u =>
      if Uuid.parse w.runId = some r then
        Function.update M u ((M u).map fun m => { m with withdrawn := true })
      else M
    | none => M
  | _ => M

/-- For each user: whether its last placed order in run `r` was confirmed, and whether it
was withdrawn since. -/
def marks (r : Uuid) (es : List Event) : Uuid → Option Mark :=
  es.foldl (fun M e => remark r M e.label) fun _ => none

/-- The orders of the run marked final are those listed, and none of them is withdrawn. -/
structure FinalListed (r : Uuid) (result : CloseRunResult) (db : Db) : Prop where
  final_iff : ∀ o ∈ db.orders, o.runId = r →
    (o.isFinal = true ↔ ∃ p ∈ result.summary.participants, p.userId = o.userId.str)
  listed : ∀ p ∈ result.summary.participants, ∃ o ∈ db.orders, o.runId = r ∧ o.isFinal = true ∧
    p.userId = o.userId.str ∧ p.orderText = o.orderText ∧ p.provenance = o.provenance
  withdrawn : ∀ o ∈ db.orders, o.runId = r → o.canceledAt ≠ none → o.isFinal = false

/-- The table holds the orders of run `r` with the marks `M`, one for each user. -/
structure Marked (r : Uuid) (M : Uuid → Option Mark) (db : Db) : Prop where
  unique : UniqueIn r db.orders
  users : ∀ o ∈ db.orders, o.runId = r → ∃ user ∈ db.users, user.id = o.userId
  mark_iff : ∀ u m, M u = some m ↔ ∃ o ∈ db.orders, pairOf o = (r, u) ∧ markOf o = m

section Marked
variable {s : Database} {r : Uuid} {M : Uuid → Option Mark} {db db' : Db} {l : Label} {u : Uuid}

theorem marks_snoc (es : List Event) (e : Event) :
    marks r (es ++ [e]) = remark r (marks r es) e.label := by
  simp only [marks, List.foldl_append, List.foldl_cons, List.foldl_nil]

theorem remark_placed {p : Placed} (hl : report l = .placed p) (hu : Uuid.parse p.userId = some u) :
    remark r M l = if Uuid.parse p.runId = some r
      then Function.update M u (some ⟨l.1.confirms, false⟩) else M := by
  simp only [remark, hl, hu]

theorem remark_withdrawn {w : Withdrawn} (hl : report l = .withdrawn w)
    (hu : Uuid.parse w.userId = some u) :
    remark r M l = if Uuid.parse w.runId = some r
      then Function.update M u ((M u).map fun m => { m with withdrawn := true }) else M := by
  simp only [remark, hl, hu]

theorem marked_of_none (h : ∀ o ∈ db.orders, o.runId ≠ r) : Marked r (fun _ => none) db := by
  refine ⟨fun o ho p _ hr => absurd hr (h o ho), fun o ho hr => absurd hr (h o ho), fun u m => ?_⟩
  refine iff_of_false (Option.some_ne_none m).symm ?_
  rintro ⟨o, ho, hpair, -⟩
  exact h o ho (congrArg Prod.fst hpair)

theorem Marked.congr (h : Marked r M db) (husers : db'.users = db.users)
    (horders : ordersOf r db' = ordersOf r db) : Marked r M db' := by
  have hmem : ∀ o : Order, o.runId = r → (o ∈ db'.orders ↔ o ∈ db.orders) := fun o hr => by
    have hrows : o ∈ ordersOf r db' ↔ o ∈ ordersOf r db := by rw [horders]
    simpa only [mem_ordersOf, hr, and_true] using hrows
  refine ⟨h.unique.of_mem fun o hr => (hmem o hr).mp, fun o ho hr => ?_, fun u m => ?_⟩
  · rw [husers]
    exact h.users o ((hmem o hr).mp ho) hr
  · rw [h.mark_iff]
    refine exists_congr fun o => and_congr_left fun ho => ?_
    exact (hmem o (congrArg Prod.fst ho.1)).symm

theorem Marked.puts (h : Marked r M db) {order : Order} (hpair : pairOf order = (r, u))
    (hputs : db.orders.Puts pairOf db'.orders order) (husers : db'.users = db.users)
    (huser : ∃ user ∈ db.users, user.id = u) :
    Marked r (Function.update M u (some (markOf order))) db' := by
  refine ⟨h.unique.puts hputs, fun o ho hr => ?_, fun v m => ?_⟩
  · rw [husers]
    rcases (hputs o).mp ho with rfl | ⟨ho, -⟩
    · have hou : o.userId = u := congrArg Prod.snd hpair
      rwa [hou]
    · exact h.users o ho hr
  · by_cases hv : v = u
    · subst hv
      rw [Function.update_self, Option.some.injEq]
      constructor
      · exact fun hm => ⟨order, hputs.mem, hpair, hm⟩
      · rintro ⟨o, ho, hop, hm⟩
        rw [← hputs.unique ho (hop.trans hpair.symm), hm]
    · rw [Function.update_of_ne hv, h.mark_iff]
      refine exists_congr fun o => and_congr_left fun ho => (hputs.other fun hop => hv ?_).symm
      exact congrArg Prod.snd (ho.1.symm.trans (hop.trans hpair))

theorem Marked.upserted (h : Marked r M db) {user : User} {run : Run} {text : String}
    {confirm : Bool} {provenance : OrderProvenance} {now : Timestamp} {order : Order}
    {orders : Table Order} {prefs : Table UserPreference} (huser : user ∈ db.users)
    (hup : Upserted db.orders run.id user.id text confirm provenance now order orders) :
    Marked r (if run.id = r then Function.update M user.id (some ⟨confirm, false⟩) else M)
      { db with orders := orders, userPreferences := prefs } := by
  split_ifs with hr
  · subst hr
    have hmark : markOf order = ⟨confirm, false⟩ := by
      rw [markOf, hup.isFinal, hup.canceledAt, Option.isSome_none]
    rw [← hmark]
    exact h.puts (by rw [pairOf, hup.runId, hup.userId]) (hup.puts h.unique) rfl
      ⟨user, huser, rfl⟩
  · exact h.congr rfl (select_upserted hup hr)

theorem Marked.canceled (h : Marked r M db) {user : User} {run : Run} {o : Order} {now : Timestamp}
    (huser : user ∈ db.users) (hf : db.orders.rows.find? (ofPair run.id user.id) = some o) :
    Marked r (if run.id = r then
        Function.update M user.id ((M user.id).map fun m => { m with withdrawn := true }) else M)
      { db with
        orders := db.orders.update o { o with canceledAt := some now, updatedAt := now } } := by
  split_ifs with hr
  · subst hr
    have hpair : pairOf o = (run.id, user.id) := ofPair_iff.mp (List.find?_some hf)
    have ho : o ∈ db.orders := List.mem_of_find?_eq_some hf
    have hmark : M user.id = some (markOf o) := (h.mark_iff _ _).mpr ⟨o, ho, hpair, rfl⟩
    have hunique : UniqueIn o.runId db.orders := by
      rw [show o.runId = run.id from congrArg Prod.fst hpair]
      exact h.unique
    have hputs := hunique.puts_canceled ho now
    have hmarked : Marked run.id
        (Function.update M user.id
          (some (markOf { o with canceledAt := some now, updatedAt := now })))
        { db with
          orders := db.orders.update o { o with canceledAt := some now, updatedAt := now } } :=
      h.puts hpair hputs rfl ⟨user, huser, rfl⟩
    rw [hmark]
    exact hmarked
  · exact h.congr rfl (select_canceled hf hr now)

theorem Marked.persisted (h : Marked r M db) {user : User} {run : Run} {text : String}
    {confirm : Bool} {provenance : OrderProvenance} {d : Draws} {res : OrderSubmissionResult}
    (huser : user ∈ db.users)
    (hp : (OrderService.persistOrder run user text confirm provenance d).Returns db res db') :
    Marked r (if run.id = r then Function.update M user.id (some ⟨confirm, false⟩) else M) db' := by
  obtain ⟨order, orders, prefs, hup, -, rfl, -⟩ := OrderService.returns_persistOrder hp
  exact h.upserted huser hup

theorem Marked.step (h : Marked r M db) (hcall : l.1.OnOrders) (hstep : step s db l db') :
    Marked r (remark r M l) db' := by
  have hrun : ∀ {run : Run} {runId : String}, Uuid.parse runId = some run.id →
      (run.id = r ↔ Uuid.parse runId = some r) := fun hr => by rw [hr, Option.some.injEq]
  obtain ⟨c, e | answer⟩ := l
  · obtain rfl := failed_step hstep
    rw [remark, report_error]
    exact h
  cases c with
  | submitOrder v request d =>
    obtain ⟨res, hret, rfl⟩ := Program.returns_bind_pure.mp hstep
    obtain ⟨run, user, text, hr, -, -, hu, huser, -, hp⟩ := OrderService.returns_submitOrder hret
    rw [remark_placed (p := ⟨request.runId, request.userId, res⟩) rfl hu]
    simp only [← hrun hr]
    exact h.persisted huser hp
  | useLastOrder v runId userId d =>
    obtain ⟨res, hret, rfl⟩ := Program.returns_bind_pure.mp hstep
    obtain ⟨run, user, q, text, mid, hr, -, -, hu, huser, -, -, hp, q', -, -, rfl⟩ :=
      OrderService.returns_useLastOrder hret
    rw [remark_placed (p := ⟨runId, userId, res.submission⟩) rfl hu]
    simp only [← hrun hr]
    exact (h.persisted huser hp).congr rfl rfl
  | cancelOrder runId userId d =>
    obtain ⟨res, hret, rfl⟩ := Program.returns_bind_pure.mp hstep
    obtain ⟨run, user, o, orders, hr, -, -, hu, huser, hf, -, rfl, rfl, -⟩ :=
      OrderService.returns_cancelOrder.mp hret
    rw [remark_withdrawn (w := ⟨runId, userId, res⟩) rfl hu]
    simp only [← hrun hr]
    exact h.canceled huser hf
  | createRun | closeRun | updateChannelConfig | setChannelEnabled | resetChannelData =>
    exact absurd hcall id

theorem marked_of_history {db₀ : Db} {es : List Event} (h : History s db₀ es db)
    (hcalls : ∀ e ∈ es, e.label.1.OnOrders) (h₀ : ∀ o ∈ db₀.orders, o.runId ≠ r) :
    Marked r (marks r es) db := by
  refine Transition.Path.history_invariant (I := fun es db => Marked r (marks r es) db)
    (C := fun e => e.label.1.OnOrders) (fun es e _ _ hstep hcall hI => ?_) h hcalls
    (marked_of_none h₀)
  rw [marks_snoc]
  exact hI.step hcall hstep

/-- No user withdrew a confirmed order exactly when no withdrawn order is marked final. -/
theorem Marked.withdrawn_iff (h : Marked r M db) : (∀ u, M u ≠ some ⟨true, true⟩) ↔
    ∀ o ∈ db.orders, o.runId = r → o.canceledAt ≠ none → o.isFinal = false := by
  constructor
  · intro hmarks o ho hr hc
    by_contra hne
    have hmark : markOf o = ⟨true, true⟩ := by
      rw [markOf, Mark.mk.injEq]
      exact ⟨Bool.eq_true_of_not_eq_false hne, Option.isSome_iff_ne_none.mpr hc⟩
    apply hmarks o.userId
    rw [h.mark_iff]
    exact ⟨o, ho, Prod.ext hr rfl, hmark⟩
  · intro hfinal u hu
    obtain ⟨o, ho, hpair, hmark⟩ := (h.mark_iff _ _).mp hu
    rw [markOf, Mark.mk.injEq] at hmark
    have hc : o.canceledAt ≠ none := Option.isSome_iff_ne_none.mp hmark.2
    have hfalse := hfinal o ho (congrArg Prod.fst hpair) hc
    exact Bool.false_ne_true (hfalse.symm.trans hmark.1)

section Close
variable {collation : Collation} {request : CloseRunRequest} {now : Timestamp} {run : Run}
  {runner : User} {result : CloseRunResult}

theorem Marked.exists_participant (h : Marked run.id M db)
    (hcl : Closes collation request now db run runner result db') {o : Order} (ho : o ∈ db.orders)
    (hr : o.runId = run.id) (hc : o.canceledAt = none) :
    ∃ user, participant o user ∈ result.summary.participants := by
  obtain ⟨user, -, hlisted⟩ := exists_mem_activeOrders ho hr hc (h.users o ho hr)
  rw [hcl.participants]
  exact ⟨user, List.mem_map.mpr ⟨(o, user), hlisted, rfl⟩⟩

theorem exists_order_of_participant (hcl : Closes collation request now db run runner result db')
    {p : ParticipantOrder} (hp : p ∈ result.summary.participants) :
    ∃ o ∈ db.orders, o.runId = run.id ∧ o.canceledAt = none ∧ p.userId = o.userId.str ∧
      p.orderText = o.orderText ∧ p.provenance = o.provenance := by
  rw [hcl.participants] at hp
  obtain ⟨q, hq, rfl⟩ := List.mem_map.mp hp
  obtain ⟨ho, hr, hc, -⟩ := mem_activeOrders.mp hq
  exact ⟨q.1, ho, hr, hc, rfl, rfl, rfl⟩

/-- A close leaves as they should be exactly the marks of runs without an order withdrawn
after it was confirmed. -/
theorem Marked.finalListed_iff (h : Marked run.id M db)
    (hcl : Closes collation request now db run runner result db') :
    FinalListed run.id result db' ↔ ∀ u, M u ≠ some ⟨true, true⟩ := by
  obtain ⟨stats, hdb⟩ := hcl.written
  have hmem : ∀ o, o ∈ db'.orders ↔
      (∃ p ∈ db.orders, p.runId = run.id ∧ p.canceledAt = none ∧ o = snapshotted p now) ∨
        o ∈ db.orders ∧ ¬(o.runId = run.id ∧ o.canceledAt = none) := fun o => by
    rw [hdb]
    exact mem_snapshot_activeOrders h.users
  rw [h.withdrawn_iff]
  constructor
  · -- an order withdrawn before the close is kept as it was
    intro hfinal o ho hr hc
    have hkept : o ∈ db'.orders := (hmem o).mpr (Or.inr ⟨ho, fun hactive => hc hactive.2⟩)
    exact hfinal.withdrawn o hkept hr hc
  · intro hwithdrawn
    refine ⟨fun o ho hr => ?_, fun q hq => ?_, fun o ho hr hc => ?_⟩
    · rcases (hmem o).mp ho with ⟨p, hp, hpr, hpc, rfl⟩ | ⟨ho, hnot⟩
      · obtain ⟨user, hlist⟩ := h.exists_participant hcl hp hpr hpc
        exact iff_of_true rfl ⟨_, hlist, rfl⟩
      · have hc : o.canceledAt ≠ none := fun hc => hnot ⟨hr, hc⟩
        refine iff_of_false (by rw [hwithdrawn o ho hr hc]; exact Bool.false_ne_true) ?_
        -- a listed user has one order in the run, which is active
        rintro ⟨q, hq, hqu⟩
        obtain ⟨p, hp, hpr, hpc, hpu, -⟩ := exists_order_of_participant hcl hq
        have hsame : pairOf o = pairOf p :=
          Prod.ext (hr.trans hpr.symm) (Uuid.str_inj.mp (hqu.symm.trans hpu))
        rw [h.unique o ho p hp hr hsame] at hc
        exact hc hpc
    · obtain ⟨p, hp, hpr, hpc, hpu, hpt, hpv⟩ := exists_order_of_participant hcl hq
      have hfinal : snapshotted p now ∈ db'.orders := (hmem _).mpr (Or.inl ⟨p, hp, hpr, hpc, rfl⟩)
      exact ⟨snapshotted p now, hfinal, hpr, rfl, hpu, hpt, hpv⟩
    · rcases (hmem o).mp ho with ⟨p, hp, hpr, hpc, rfl⟩ | ⟨ho, -⟩
      · exact absurd hpc hc
      · exact hwithdrawn o ho hr hc

end Close

/-- After any sequence of calls on orders, from a database without orders of the run, a
close marks final what it lists exactly when no user's last confirmed order in the run
was withdrawn. -/
theorem final_orders_listed_iff (s : Database) {db₀ : Db} {es : List Event}
    (h : History s db₀ es db) (hcalls : ∀ e ∈ es, e.label.1.OnOrders)
    (h₀ : ∀ o ∈ db₀.orders, o.runId ≠ r) {authorizer : CloseRunAuthorizer}
    {request : CloseRunRequest} {now : Timestamp} {d : Draws} {result : CloseRunResult}
    (hr : Uuid.parse request.runId = some r)
    (hclose : (closeRun authorizer s.collation request now d).Returns db result db') :
    FinalListed r result db' ↔ ∀ u, marks r es u ≠ some ⟨true, true⟩ := by
  obtain ⟨run, runner, hcl⟩ := closes_of_returns hclose
  obtain rfl : run.id = r := Option.some.inj (hcl.id.symm.trans hr)
  exact (marked_of_history h hcalls h₀).finalListed_iff hcl

end Marked

/-! ### Two orders, one withdrawn -/

namespace Sample

/-- Both order and confirm, then alice cancels. -/
def withdrawing : List Call := [submit 1 11 alice, submit 2 11 bob, cancel 3 11 alice]

/-- Alice cancels and orders again. -/
def reordering : List Call := withdrawing ++ [submit 4 11 alice]

def close11 (cs : List Call) : Except Exc CloseRunResult × Db :=
  (closeRun (fun _ _ => true) database.collation { runId := (Uuid.ofNat 11).str, actorUserId := "" } 9
    (draws 9)).exec (finalDb database opened cs)

theorem withdrawing_facts :
    (∀ e ∈ replay database opened withdrawing, e.label.1.OnOrders) ∧
    (close11 withdrawing).1.toOption.isSome = true ∧
    ∃ o ∈ (close11 withdrawing).2.orders.rows, o.runId = .ofNat 11 ∧ o.canceledAt ≠ none ∧
      o.isFinal = true := by
  decide +kernel

theorem reordering_facts :
    (∀ e ∈ replay database opened reordering, e.label.1.OnOrders) ∧
    (close11 reordering).1.toOption.isSome = true := by
  decide +kernel

theorem returns_close11 {cs : List Call} (h : (close11 cs).1.toOption.isSome = true) :
    ∃ result, (closeRun (fun _ _ => true) database.collation
      { runId := (Uuid.ofNat 11).str, actorUserId := "" } 9 (draws 9)).Returns
      (finalDb database opened cs) result (close11 cs).2 := by
  obtain ⟨result, hresult⟩ := Option.isSome_iff_exists.mp h
  refine ⟨result, Prod.ext ?_ rfl⟩
  cases hexec : (close11 cs).1 with
  | error e =>
    rw [hexec] at hresult
    cases hresult
  | ok value =>
    rw [hexec] at hresult
    obtain rfl := Option.some.inj hresult
    exact hexec

end Sample

open Sample in
/-- Alice's order is cancelled and marked final. -/
theorem withdrawn_order_final :
    History database opened (replay database opened withdrawing)
        (finalDb database opened withdrawing) ∧
      (∀ e ∈ replay database opened withdrawing, e.label.1.OnOrders) ∧
      (∀ o ∈ opened.orders, o.runId ≠ .ofNat 11) ∧
      ∃ result db', (closeRun (fun _ _ => true) database.collation
          { runId := (Uuid.ofNat 11).str, actorUserId := "" } 9 (draws 9)).Returns
          (finalDb database opened withdrawing) result db' ∧
        ¬FinalListed (.ofNat 11) result db' := by
  obtain ⟨hcalls, hsome, o, ho, hr, hc, hfinal⟩ := withdrawing_facts
  obtain ⟨result, hret⟩ := returns_close11 hsome
  refine ⟨history_replay _ _ _, hcalls, by decide, result, _, hret, fun h => ?_⟩
  exact Bool.false_ne_true ((h.withdrawn o ho hr hc).symm.trans hfinal)

open Sample in
/-- Alice has ordered again, so both orders are listed and final. -/
theorem final_orders_listed_iff_reordered : ∃ result db',
    (closeRun (fun _ _ => true) database.collation { runId := (Uuid.ofNat 11).str, actorUserId := "" }
      9 (draws 9)).Returns (finalDb database opened reordering) result db' ∧
    (FinalListed (.ofNat 11) result db' ↔
      ∀ u, marks (.ofNat 11) (replay database opened reordering) u ≠ some ⟨true, true⟩) := by
  obtain ⟨hcalls, hsome⟩ := reordering_facts
  obtain ⟨result, hret⟩ := returns_close11 hsome
  exact ⟨result, _, hret, final_orders_listed_iff database (history_replay _ _ _) hcalls (by decide)
    (by exact Uuid.parse_str _) hret⟩

end CoffeeBuddy

import CoffeeBuddy.Services.History

/-! A closed run is frozen. Every order path and every close asks for an open run first,
so that what a close has written of its run stays as it is, its listing included. -/

namespace CoffeeBuddy
open Relational Transaction OrderRepository CloseRunService

/-! ### The listing -/

section Listing
variable {s : Database} {r : Uuid} {db db' : Db} {now : Timestamp} {orders : List (Order × User)}

theorem select_activeIn (r : Uuid) (t : Table Order) :
    t.select (activeIn r) = (t.select (ofRun r)).filter fun o => o.canceledAt.isNone := by
  unfold Table.select
  rw [List.filter_filter]
  apply List.filter_congr
  intro o _
  rw [activeIn, ofRun, Bool.and_comm]

theorem activeOrders_congr {collation : Collation} (horders : ordersOf r db' = ordersOf r db)
    (husers : db'.users = db.users) :
    activeOrders collation r db' = activeOrders collation r db := by
  unfold ordersOf at horders
  unfold activeOrders
  rw [select_activeIn, select_activeIn, horders, husers]

theorem joinUsers_map_content (users : Table User) (os : List Order) :
    (joinUsers users os).map (Prod.map content id) = joinUsers users (os.map content) := by
  unfold joinUsers
  rw [List.map_filterMap, List.filterMap_map]
  apply List.filterMap_congr
  intro o _
  simp only [Function.comp_apply, Option.map_map]
  rfl

theorem select_map_content (r : Uuid) (t : Table Order) :
    (t.select (activeIn r)).map content = (t.rows.map content).filter (activeIn r) := by
  unfold Table.select
  rw [List.filter_map]
  rfl

theorem activeOrders_map_content (collation : Collation) (r : Uuid) (db : Db) :
    (activeOrders collation r db).map (Prod.map content id) =
      orderBy (fun a b => collation.byName a.2 b.2)
        (joinUsers db.users ((db.orders.rows.map content).filter (activeIn r))) := by
  unfold activeOrders orderBy
  rw [← select_map_content, ← joinUsers_map_content]
  exact List.map_insertionSort _ _ _ _ fun _ _ _ _ => Iff.rfl

theorem participants_snapshot {collation : Collation} (husers : db'.users = db.users)
    (horders : db'.orders = snapshot now db.orders orders) :
    (activeOrders collation r db').map (fun p => participant p.1 p.2) =
      (activeOrders collation r db).map fun p => participant p.1 p.2 := by
  have hcontent : (activeOrders collation r db').map (Prod.map content id) =
      (activeOrders collation r db).map (Prod.map content id) := by
    rw [activeOrders_map_content, activeOrders_map_content, husers, horders, content_snapshot]
  have hparticipant := congrArg (List.map fun p : Order × User => participant p.1 p.2) hcontent
  rw [List.map_map, List.map_map] at hparticipant
  exact hparticipant

/-- A snapshot of other runs' orders leaves the rows of this one. -/
theorem select_snapshot {t : Table Order} (h : ∀ o ∈ t, o.runId = r → ∀ p ∈ orders, o.id ≠ p.1.id) :
    (snapshot now t orders).select (ofRun r) = t.select (ofRun r) := by
  induction orders generalizing t with
  | nil => rfl
  | cons p orders ih =>
    unfold snapshot
    rw [List.foldl_cons]
    refine (ih fun o ho hr q hq => ?_).trans (Table.select_update fun o ho hk => ?_)
    · have hfirst : o ∈ snapshot now t [p] := ho
      obtain ⟨o', ho', hoo⟩ := mem_snapshot hfirst
      obtain ⟨hid, hrun, -⟩ := content_eq hoo
      rw [← hid]
      exact h o' ho' (hrun.trans hr) q (List.mem_cons_of_mem p hq)
    · have hne : o.runId ≠ r := fun hr => h o ho hr p List.mem_cons_self hk
      refine ⟨ofRun_eq_false.mpr hne, ofRun_eq_false.mpr ?_⟩
      show column p.1.runId p.1.runId o.runId ≠ r
      rw [column_unchanged]
      exact hne

end Listing

/-! ### The steps -/

/-- Run `row` is closed and its order rows are `orders`. -/
structure Frozen (row : Run) (orders : List Order) (users : Table User) (db : Db) : Prop where
  mem : row ∈ db.runs
  orders : ordersOf row.id db = orders
  users : db.users = users

section Steps
variable {s : Database} {row : Run} {orders : List Order} {users : Table User} {db db' : Db}
  {l : Label}

theorem ne_of_open {db : Db} {run : Run} (hrow : row ∈ db.runs) (hclosed : row.status = .closed)
    (hrun : run ∈ db.runs) (hopen : run.status = .open) : run.id ≠ row.id := by
  intro hid
  have heq : run = row := Table.eq_of_key hrun hrow hid
  rw [heq, hclosed] at hopen
  exact absurd hopen (by decide)

theorem Frozen.step (h : Frozen row orders users db) (hclosed : row.status = .closed)
    (hl : ¬Resets row.channelId l) (he : Effect s db l db') : Frozen row orders users db' := by
  have hne : ∀ {run : Run}, run ∈ db.runs → run.status = .open → run.id ≠ row.id :=
    fun hrun hopen => ne_of_open h.mem hclosed hrun hopen
  cases he with
  | failed => exact h
  | created run runs hi => exact ⟨(Table.mem_insert hi).mpr (Or.inl h.mem), h.orders, h.users⟩
  | ordered l p run user confirm now order os prefs hp hr hrun ho hu huser hup hn =>
    exact ⟨h.mem, (select_upserted hup (hne hrun ho)).trans h.orders, h.users⟩
  | canceled l w run user o now os hw hr hrun ho hu huser hf hc hup hn =>
    subst hup
    exact ⟨h.mem, (select_canceled hf (hne hrun ho) now).trans h.orders, h.users⟩
  | closed authorizer request now d result db' hclose =>
    obtain ⟨run, runner, hcl⟩ := closes_of_returns hclose
    obtain ⟨stats, rfl⟩ := hcl.written
    have hother := hne hcl.mem hcl.wasOpen
    refine ⟨(mem_update_finalized hcl.mem runner.id).mpr (Or.inr ⟨h.mem, hother.symm⟩),
      Eq.trans ?_ h.orders, h.users⟩
    -- the orders of the snapshot are those of another run
    apply select_snapshot
    intro o ho hor p hp hid
    obtain ⟨hpo, hpr, -⟩ := mem_activeOrders.mp hp
    have heq : o = p.1 := Table.eq_of_key ho hpo hid
    exact hother (hpr.symm.trans (heq ▸ hor))
  | idle => exact h
  | configured => exact ⟨h.mem, h.orders, h.users⟩
  | reset l channel modified actions hc hm _ =>
    have hch : row.channelId ≠ channel.id := by
      intro hcc
      apply hl
      unfold Resets
      rw [hc, hcc]
    exact ⟨Table.mem_delete.mpr ⟨h.mem, decide_eq_false hch⟩,
      (ordersOf_purged h.mem hch).trans h.orders, h.users⟩

theorem frozen_of_history {es : List Event} (h : History s db es db') (hclosed : row.status = .closed)
    (hreset : ∀ e ∈ es, ¬Resets row.channelId e.label) (h₀ : Frozen row orders users db) :
    Frozen row orders users db' :=
  Transition.Path.induct (I := Frozen row orders users) (C := fun e => ¬Resets row.channelId e.label)
    (fun _ hstep hl hI => hI.step hclosed hl (effect_of_step hstep)) h hreset h₀

end Steps

/-! ### What a close leaves -/

section Close
variable {s : Database} {collation : Collation} {request : CloseRunRequest} {now : Timestamp}
  {db db' : Db} {run : Run} {runner : User} {res : CloseRunResult}

theorem CloseRunService.Closes.mem_finalized (h : Closes collation request now db run runner res db') :
    finalized run runner.id now ∈ db'.runs := by
  obtain ⟨stats, rfl⟩ := h.written
  exact (mem_update_finalized h.mem runner.id).mpr (Or.inl rfl)

theorem CloseRunService.Closes.listing (h : Closes collation request now db run runner res db') :
    (activeOrders collation run.id db').map (fun p => participant p.1 p.2) =
      res.summary.participants := by
  rw [h.participants]
  obtain ⟨stats, rfl⟩ := h.written
  exact participants_snapshot rfl rfl

theorem CloseRunService.Closes.runner_order
    (h : Closes collation request now db run runner res db') :
    ∃ o ∈ ordersOf run.id db', o.userId = runner.id ∧ o.canceledAt = none := by
  obtain ⟨⟨o, ho, hr, hc, hu⟩, -⟩ := mem_participantIds.mp h.eligible.1
  obtain ⟨stats, rfl⟩ := h.written
  obtain ⟨o', ho', hoo⟩ := mem_of_mem_snapshot now (activeOrders collation run.id db) ho
  obtain ⟨-, hor, hou, -, -, hca⟩ := content_eq hoo
  have hrun := ofRun_iff.mpr (hor.trans hr)
  exact ⟨o', Table.mem_select.mpr ⟨ho', hrun⟩, hou.trans hu, hca.trans hc⟩

theorem not_closeRun_of_closed {authorizer : CloseRunAuthorizer} {d : Draws} (hrun : run ∈ db.runs)
    (hclosed : run.status = .closed) (hr : Uuid.parse request.runId = some run.id) :
    ¬(closeRun authorizer collation request now d).Returns db res db' := by
  intro h
  obtain ⟨row, user, hcl⟩ := closes_of_returns h
  have hid : row.id = run.id := Option.some.inj (hcl.id.symm.trans hr)
  exact ne_of_open hrun hclosed hcl.mem hcl.wasOpen hid

end Close

theorem closed_run_frozen (s : Database) (db₀ db : Db) (channel r : Uuid) (es fs : List Event)
    (e : Event) (c : Closing) (h : History s db₀ (es ++ e :: fs) db)
    (hc : closing channel e.label = some c) (hr : Uuid.parse c.request.runId = some r)
    (hreset : ∀ f ∈ fs, ¬Resets channel f.label) :
    (∃ row, e.after.runs.find? r = some row ∧ db.runs.find? r = some row ∧
      row.status = .closed ∧ row.closedAt = some c.result.closedAt ∧
      row.runnerUserId.map Uuid.str = some c.result.summary.runnerUserId ∧
      ∃ o ∈ db.orders, o.runId = r ∧ some o.userId = row.runnerUserId ∧ o.canceledAt = none) ∧
    ordersOf r db = ordersOf r e.after ∧
    (activeOrders s.collation r db).map (fun p => participant p.1 p.2) =
      c.result.summary.participants ∧
    ∀ authorizer request now d res db', Uuid.parse request.runId = some r →
      ¬(closeRun authorizer s.collation request now d).Returns db res db' := by
  obtain ⟨-, hstep, hpost⟩ := Transition.Path.split_iff.mp h
  obtain ⟨hreport, hch⟩ := closing_eq_some.mp hc
  obtain ⟨authorizer, now, d, hret⟩ := (effect_of_step hstep).returns_closeRun hreport
  obtain ⟨run, runner, hcl⟩ := closes_of_returns hret
  obtain rfl : run.id = r := Option.some.inj (hcl.id.symm.trans hr)
  obtain rfl : run.channelId = channel := Uuid.str_inj.mp (hcl.channelId.symm.trans hch)
  have hfinal := hcl.mem_finalized
  -- the invariant starts at the close and is kept by every later event
  have hfrozen : Frozen (finalized run runner.id now) (ordersOf run.id e.after) e.after.users db :=
    frozen_of_history hpost rfl hreset ⟨hfinal, rfl, rfl⟩
  have horders : ordersOf run.id db = ordersOf run.id e.after := hfrozen.orders
  refine ⟨⟨finalized run runner.id now, Table.find?_key hfinal, Table.find?_key hfrozen.mem, rfl,
    ?_, ?_, ?_⟩, horders, ?_, fun authorizer request now d res db' hreq =>
      not_closeRun_of_closed hfrozen.mem rfl hreq⟩
  · rw [hcl.closedAt]
    rfl
  · obtain ⟨_, _, -, -, hd, hres⟩ := hcl.result
    rw [hres]
    exact congrArg some hd.symm
  · obtain ⟨o, ho, hou, hca⟩ := hcl.runner_order
    rw [← horders] at ho
    obtain ⟨ho, hor⟩ := Table.mem_select.mp ho
    exact ⟨o, ho, ofRun_iff.mp hor, congrArg some hou, hca⟩
  · rw [activeOrders_congr horders hfrozen.users]
    exact hcl.listing

/-! ### A closed run and later calls -/

namespace Sample

def firstClosed : Event := occurrence database (close 3 11 true) bothOrdered

def laterCalls : List Call :=
  [cancel 4 11 alice, submit 5 11 bob, close 6 11 true, .createRun (newRun 12), submit 7 12 bob]

theorem firstClosed_facts :
    (closing channel.id firstClosed.label).map (fun c => c.request.runId) =
      some (Uuid.ofNat 11).str ∧
    ∀ f ∈ replay database firstClosed.after laterCalls, ¬Resets channel.id f.label := by
  decide +kernel

end Sample

open Sample in
theorem closed_run_frozen_later :
    ordersOf (.ofNat 11) (finalDb database firstClosed.after laterCalls) =
      ordersOf (.ofNat 11) firstClosed.after := by
  obtain ⟨c, hc, hr⟩ := Option.map_eq_some_iff.mp firstClosed_facts.1
  have hclose := history_occurrence database (.nil : History database bothOrdered [] bothOrdered)
    (close 3 11 true)
  have h := Transition.Path.append hclose (history_replay database firstClosed.after laterCalls)
  have hparse : Uuid.parse c.request.runId = some (.ofNat 11) := by
    rw [hr]
    exact Uuid.parse_str _
  exact (closed_run_frozen database bothOrdered (finalDb database firstClosed.after laterCalls)
    channel.id (.ofNat 11) [] (replay database firstClosed.after laterCalls) firstClosed c h hc
    hparse firstClosed_facts.2).2.1

end CoffeeBuddy

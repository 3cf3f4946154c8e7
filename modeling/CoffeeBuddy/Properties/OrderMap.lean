import CoffeeBuddy.Services.History
import Mathlib.Data.Finmap

/-! Order capture refines a map. The abstract state of a run is the finite map from
users to their order; the rows of the run, with their cancelled and re-activated
orders, represent it after every history. -/

namespace CoffeeBuddy
open Relational Transaction OrderRepository CloseRunService

abbrev OrderMap := Finmap fun _ : Uuid => String × OrderProvenance

/-- What a call on run `r` does to the map. -/
def record (r : Uuid) (M : OrderMap) (l : Label) : OrderMap :=
  match report l with
  | .placed p =>
    match Uuid.parse p.userId with
    | some u =>
      if Uuid.parse p.runId = some r then M.insert u (p.result.orderText, p.result.provenance)
      else M
    | none => M
  | .withdrawn w =>
    match Uuid.parse w.userId with
    | some u => if Uuid.parse w.runId = some r then M.erase u else M
    | none => M
  | _ => M

def captured (r : Uuid) (es : List Event) : OrderMap :=
  es.foldl (fun M e => record r M e.label) ∅

theorem captured_snoc (r : Uuid) (es : List Event) (e : Event) :
    captured r (es ++ [e]) = record r (captured r es) e.label := by
  simp only [captured, List.foldl_append, List.foldl_cons, List.foldl_nil]

theorem record_placed {r u : Uuid} {M : OrderMap} {l : Label} {p : Placed}
    (hl : report l = .placed p) (hu : Uuid.parse p.userId = some u) :
    record r M l = if Uuid.parse p.runId = some r
      then M.insert u (p.result.orderText, p.result.provenance) else M := by
  simp only [record, hl, hu]

theorem record_withdrawn {r u : Uuid} {M : OrderMap} {l : Label} {w : Withdrawn}
    (hl : report l = .withdrawn w) (hu : Uuid.parse w.userId = some u) :
    record r M l = if Uuid.parse w.runId = some r then M.erase u else M := by
  simp only [record, hl, hu]

/-! ### The representation -/

/-- `o` is stored for an entry `v`. -/
def Stores (o : Order) (v : String × OrderProvenance) : Prop :=
  o.orderText = v.1 ∧ o.provenance = v.2.value

/-- The rows of run `r` of channel `c` represent `M`. -/
structure Represents (r c : Uuid) (M : OrderMap) (db : Db) : Prop where
  run : ∃ run ∈ db.runs, run.id = r ∧ run.channelId = c
  unique : UniqueIn r db.orders
  users : ∀ o ∈ db.orders, o.runId = r → ∃ user ∈ db.users, user.id = o.userId
  listed : ∀ o ∈ db.orders, o.runId = r → o.canceledAt = none →
    ∃ v, M.lookup o.userId = some v ∧ Stores o v
  stored : ∀ u v, M.lookup u = some v →
    ∃ o ∈ db.orders, o.runId = r ∧ o.userId = u ∧ o.canceledAt = none

section Represents
variable {r c : Uuid} {M : OrderMap} {db : Db}

theorem Represents.mem_iff (h : Represents r c M db) {u : Uuid} : u ∈ M ↔
    ∃ o ∈ db.orders, o.runId = r ∧ o.userId = u ∧ o.canceledAt = none := by
  rw [← Finmap.lookup_isSome, Option.isSome_iff_exists]
  constructor
  · rintro ⟨v, hv⟩
    exact h.stored u v hv
  · rintro ⟨o, ho, hr, rfl, hc⟩
    obtain ⟨v, hv, -⟩ := h.listed o ho hr hc
    exact ⟨v, hv⟩

theorem Represents.count (h : Represents r c M db) :
    db.orders.count (activeIn r) = M.keys.card := by
  have hkeys : ((db.orders.select (activeIn r)).map Order.userId).toFinset = M.keys := by
    ext u
    rw [List.mem_toFinset, List.mem_map, Finmap.mem_keys, h.mem_iff]
    constructor
    · rintro ⟨o, ho, rfl⟩
      obtain ⟨ho, ha⟩ := Table.mem_select.mp ho
      obtain ⟨hr, hc⟩ := activeIn_iff.mp ha
      exact ⟨o, ho, hr, rfl, hc⟩
    · rintro ⟨o, ho, hr, rfl, hc⟩
      exact ⟨o, Table.mem_select.mpr ⟨ho, activeIn_iff.mpr ⟨hr, hc⟩⟩, rfl⟩
  rw [← hkeys, List.toFinset_card_of_nodup (nodup_activeUsers h.unique), List.length_map,
    Table.select, Table.count, List.countP_eq_length_filter]

theorem Represents.congr (h : Represents r c M db) {db' : Db} (hrun : ∃ run ∈ db'.runs,
    run.id = r ∧ run.channelId = c) (husers : db'.users = db.users)
    (horders : ordersOf r db' = ordersOf r db) : Represents r c M db' := by
  have hmem : ∀ o : Order, o.runId = r → (o ∈ db'.orders ↔ o ∈ db.orders) := fun o hr => by
    have hrows : o ∈ ordersOf r db' ↔ o ∈ ordersOf r db := by rw [horders]
    simpa only [mem_ordersOf, hr, and_true] using hrows
  exact {
    run := hrun
    unique := h.unique.of_mem fun o hr => (hmem o hr).mp
    users := fun o ho hr => by
      rw [husers]
      exact h.users o ((hmem o hr).mp ho) hr
    listed := fun o ho hr => h.listed o ((hmem o hr).mp ho) hr
    stored := fun u v hv => by
      obtain ⟨o, ho, hr, hu⟩ := h.stored u v hv
      exact ⟨o, (hmem o hr).mpr ho, hr, hu⟩ }

end Represents

/-! ### The steps -/

section Steps
variable {s : Database} {r c : Uuid} {M : OrderMap} {db db' : Db} {l : Label}

theorem Represents.ordered (h : Represents r c M db) {user : User} {confirm : Bool}
    {now : Timestamp} {order : Order} {orders : Table Order} {prefs : Table UserPreference}
    {text : String} {provenance : OrderProvenance} (hu : user ∈ db.users)
    (hup : Upserted db.orders r user.id text confirm provenance now order orders) :
    Represents r c (M.insert user.id (text, provenance))
      { db with orders := orders, userPreferences := prefs } := by
  have hputs := hup.puts h.unique
  have hpair : pairOf order = (r, user.id) := by rw [pairOf, hup.runId, hup.userId]
  have hother : ∀ o ∈ orders, o.runId = r → o ≠ order → o ∈ db.orders ∧ o.userId ≠ user.id := by
    intro o ho hr hne
    rcases (hputs o).mp ho with rfl | ⟨ho, hpo⟩
    · exact absurd rfl hne
    · exact ⟨ho, fun hou => hpo (by rw [hpair, pairOf, hr, hou])⟩
  refine ⟨h.run, h.unique.puts hputs, fun o ho hr => ?_, fun o ho hr hc => ?_, fun u v hv => ?_⟩
  · by_cases hoo : o = order
    · exact ⟨user, hu, by rw [hoo, hup.userId]⟩
    · exact h.users o (hother o ho hr hoo).1 hr
  · by_cases hoo : o = order
    · subst hoo
      exact ⟨_, by rw [hup.userId, Finmap.lookup_insert], hup.orderText, hup.provenance⟩
    · obtain ⟨ho, hne⟩ := hother o ho hr hoo
      rw [Finmap.lookup_insert_of_ne _ hne]
      exact h.listed o ho hr hc
  · by_cases hne : u = user.id
    · exact ⟨order, hputs.mem, hup.runId, hup.userId.trans hne.symm, hup.canceledAt⟩
    · rw [Finmap.lookup_insert_of_ne _ hne] at hv
      obtain ⟨o, ho, hr, hou, hc⟩ := h.stored u v hv
      have hpo : pairOf o ≠ pairOf order := fun hp => hne (by
        rw [hpair] at hp
        exact hou.symm.trans (congrArg Prod.snd hp))
      exact ⟨o, (hputs.other hpo).mpr ho, hr, hou, hc⟩

theorem Represents.canceled (h : Represents r c M db) {u : Uuid} {o : Order} {now : Timestamp}
    (hf : db.orders.rows.find? (ofPair r u) = some o) :
    Represents r c (M.erase u) { db with
      orders := db.orders.update o { o with canceledAt := some now, updatedAt := now } } := by
  have ho : o ∈ db.orders := List.mem_of_find?_eq_some hf
  obtain ⟨hor, hou⟩ : o.runId = r ∧ o.userId = u := by
    simpa only [pairOf, Prod.mk.injEq] using ofPair_iff.mp (List.find?_some hf)
  have hunique : UniqueIn o.runId db.orders := by
    rw [hor]
    exact h.unique
  have hputs := hunique.puts_canceled ho now
  have hother : ∀ p ∈ db.orders.update o { o with canceledAt := some now, updatedAt := now },
      p.runId = r → p.canceledAt = none → p ∈ db.orders ∧ p.userId ≠ u := by
    intro p hp hr hc
    rcases (hputs p).mp hp with rfl | ⟨hp, hpo⟩
    · exact absurd hc (Option.some_ne_none now)
    · exact ⟨hp, fun hpu => hpo (Prod.ext (hr.trans hor.symm) (hpu.trans hou.symm))⟩
  refine ⟨h.run, h.unique.puts hputs, fun p hp hr => ?_, fun p hp hr hc => ?_, fun w v hv => ?_⟩
  · rcases (hputs p).mp hp with rfl | ⟨hp, -⟩
    · exact h.users o ho hor
    · exact h.users p hp hr
  · obtain ⟨hp, hne⟩ := hother p hp hr hc
    rw [Finmap.lookup_erase_ne hne]
    exact h.listed p hp hr hc
  · have hne : w ≠ u := by
      rintro rfl
      rw [Finmap.lookup_erase] at hv
      exact Option.some_ne_none v hv.symm
    rw [Finmap.lookup_erase_ne hne] at hv
    obtain ⟨p, hp, hr, hpw, hc⟩ := h.stored w v hv
    have hpo : pairOf p ≠ pairOf { o with canceledAt := some now, updatedAt := now } := fun hpo =>
      hne (hpw.symm.trans ((congrArg Prod.snd hpo).trans hou))
    exact ⟨p, (hputs.other hpo).mpr hp, hr, hpw, hc⟩

theorem Represents.snapshot (h : Represents r c M db) {now : Timestamp}
    {orders : List (Order × User)} (horders : db'.orders = snapshot now db.orders orders)
    (husers : db'.users = db.users) (hrun : ∃ run ∈ db'.runs, run.id = r ∧ run.channelId = c) :
    Represents r c M db' := by
  refine ⟨hrun, fun o ho p hp hr hop => ?_, fun o ho hr => ?_, fun o ho hr hc => ?_,
    fun u v hv => ?_⟩
  · rw [horders] at ho hp
    obtain ⟨o', ho', hoo⟩ := mem_snapshot ho
    obtain ⟨p', hp', hpp⟩ := mem_snapshot hp
    obtain ⟨hoid, hor, hou, -⟩ := content_eq hoo
    obtain ⟨hpid, hpr, hpu, -⟩ := content_eq hpp
    have hpair : pairOf o' = pairOf p' := by
      simp only [pairOf, hor, hou, hpr, hpu]
      exact hop
    have heq := h.unique o' ho' p' hp' (hor.trans hr) hpair
    exact Table.eq_of_key ho hp (hoid.symm.trans ((congrArg Order.id heq).trans hpid))
  · rw [horders] at ho
    obtain ⟨o', ho', hoo⟩ := mem_snapshot ho
    obtain ⟨-, hor, hou, -⟩ := content_eq hoo
    rw [husers, ← hou]
    exact h.users o' ho' (hor.trans hr)
  · rw [horders] at ho
    obtain ⟨o', ho', hoo⟩ := mem_snapshot ho
    obtain ⟨-, hor, hou, ht, hp, hca⟩ := content_eq hoo
    obtain ⟨v, hv, hs⟩ := h.listed o' ho' (hor.trans hr) (hca.trans hc)
    exact ⟨v, hou ▸ hv, ht ▸ hs.1, hp ▸ hs.2⟩
  · obtain ⟨o, ho, hr, hu, hc⟩ := h.stored u v hv
    obtain ⟨o', ho', hoo⟩ := mem_of_mem_snapshot now orders ho
    obtain ⟨-, hor, hou, -, -, hca⟩ := content_eq hoo
    exact ⟨o', horders ▸ ho', hor.trans hr, hou.trans hu, hca.trans hc⟩

theorem Represents.step (h : Represents r c M db) (hl : ¬Resets c l) (he : Effect s db l db') :
    Represents r c (record r M l) db' := by
  cases he with
  | failed call e =>
    rw [record, report_error]
    exact h
  | created run runs hi =>
    rw [record, report_created]
    obtain ⟨old, hold, hid⟩ := h.run
    exact h.congr ⟨old, (Table.mem_insert hi).mpr (Or.inl hold), hid⟩ rfl rfl
  | ordered l p run user confirm now order orders prefs hp hr hrun ho hu huser hup hn =>
    rw [record_placed hp hu, hr]
    -- an order in another run leaves the rows of `r` as they are
    by_cases hrr : run.id = r
    · subst hrr
      rw [if_pos rfl]
      exact h.ordered huser hup
    · rw [if_neg fun hs => hrr (Option.some.inj hs)]
      exact h.congr h.run rfl (select_upserted hup hrr)
  | canceled l w run user o now orders hw hr hrun ho hu huser hf hc hup hn =>
    rw [record_withdrawn hw hu, hr]
    by_cases hrr : run.id = r
    · subst hrr hup
      rw [if_pos rfl]
      exact h.canceled hf
    · rw [if_neg fun hs => hrr (Option.some.inj hs)]
      subst hup
      exact h.congr h.run rfl (select_canceled hf hrr now)
  | closed authorizer request now d result db' hclose =>
    rw [record, report_closed]
    obtain ⟨run, runner, hcl⟩ := closes_of_returns hclose
    obtain ⟨stats, rfl⟩ := hcl.written
    -- a close rewrites its run and copies texts, no entry of the map changes
    refine h.snapshot rfl rfl ?_
    obtain ⟨old, hold, hid, hch⟩ := h.run
    by_cases hk : old.id = run.id
    · obtain rfl := Table.eq_of_key hold hcl.mem hk
      exact ⟨_, (mem_update_finalized hcl.mem runner.id).mpr (Or.inl rfl), hid, hch⟩
    · exact ⟨old, (mem_update_finalized hcl.mem runner.id).mpr (Or.inr ⟨hold, hk⟩), hid, hch⟩
  | idle l hc =>
    rw [record, hc]
    exact h
  | configured l channel modified actions hc _ _ =>
    rw [record, hc]
    exact h.congr h.run rfl rfl
  | reset l channel modified actions hc _ _ =>
    rw [record, hc]
    have hne : c ≠ channel.id := fun hcc => hl (hcc ▸ hc)
    obtain ⟨old, hold, rfl, rfl⟩ := h.run
    refine h.congr ⟨old, Table.mem_delete.mpr ⟨hold, decide_eq_false hne⟩, rfl, rfl⟩ rfl ?_
    exact ordersOf_purged hold hne

theorem represents_of_history {db₀ : Db} {es : List Event} (h : History s db₀ es db)
    (hreset : ∀ e ∈ es, ¬Resets c e.label) (h₀ : Represents r c ∅ db₀) :
    Represents r c (captured r es) db := by
  refine Transition.Path.history_invariant (I := fun es db => Represents r c (captured r es) db)
    (C := fun e => ¬Resets c e.label) (fun es e _ _ hstep hl hI => ?_) h hreset h₀
  rw [captured_snoc]
  exact hI.step hl (effect_of_step hstep)

/-! ### The listing at close -/

/-- `participants` has the entries of `M`, each user once, by display name and id. -/
def Lists (collation : Collation) (users : Table User) (M : OrderMap)
    (participants : List ParticipantOrder) : Prop :=
  ∃ entries : List (User × String × OrderProvenance),
    participants = entries.map (fun e => ⟨e.1.id.str, e.1.displayName, e.2.1, e.2.2.value⟩) ∧
    (entries.map fun e => e.1.id).Nodup ∧
    (∀ e, e ∈ entries ↔ e.1 ∈ users ∧ M.lookup e.1.id = some e.2) ∧
    (∀ u ∈ M, ∃ e ∈ entries, e.1.id = u) ∧
    entries.Pairwise fun a b => collation.byName a.1 b.1 = true

theorem Lists.length {collation : Collation} {users : Table User}
    {participants : List ParticipantOrder} (h : Lists collation users M participants) :
    participants.length = M.keys.card := by
  obtain ⟨entries, rfl, hnd, hmem, hall, -⟩ := h
  have hkeys : (entries.map fun e => e.1.id).toFinset = M.keys := by
    ext u
    rw [List.mem_toFinset, List.mem_map, Finmap.mem_keys]
    constructor
    · rintro ⟨e, he, rfl⟩
      exact Finmap.lookup_isSome.mp (Option.isSome_iff_exists.mpr ⟨_, ((hmem e).mp he).2⟩)
    · exact hall u
  rw [← hkeys, List.toFinset_card_of_nodup hnd, List.length_map, List.length_map]

theorem Represents.lists (h : Represents r c M db) (collation : Collation) :
    Lists collation db.users M
      ((activeOrders collation r db).map fun p => participant p.1 p.2) := by
  -- each listed row has its entry in the map
  have hentry : ∀ p ∈ activeOrders collation r db, ∃ v, M.lookup p.2.id = some v ∧ Stores p.1 v := by
    intro p hp
    obtain ⟨ho, hr, hc, -, hu⟩ := mem_activeOrders.mp hp
    rw [hu]
    exact h.listed p.1 ho hr hc
  have hlisted : ∀ u ∈ M, ∃ p ∈ activeOrders collation r db, p.2.id = u := by
    intro u hu
    obtain ⟨o, ho, hr, hou, hc⟩ := h.mem_iff.mp hu
    obtain ⟨user, hid, hp⟩ := exists_mem_activeOrders ho hr hc (h.users o ho hr)
    exact ⟨(o, user), hp, hid.trans hou⟩
  refine ⟨(activeOrders collation r db).map fun p => (p.2, (M.lookup p.2.id).getD ("", .manual)),
    ?_, ?_, fun e => ?_, fun u hu => ?_, ?_⟩
  · rw [List.map_map]
    refine List.map_congr_left fun p hp => ?_
    obtain ⟨v, hv, ht, hprov⟩ := hentry p hp
    obtain ⟨-, -, -, -, hu⟩ := mem_activeOrders.mp hp
    simp only [Function.comp_apply, hv, Option.getD_some, participant, ht, hprov, hu]
  · have husers : (activeOrders collation r db).map (fun p => p.2.id) = participantIds collation r db :=
      List.map_congr_left fun p hp => (mem_activeOrders.mp hp).2.2.2.2
    rw [List.map_map, Function.comp_def]
    exact husers ▸ nodup_participantIds h.unique
  · rw [List.mem_map]
    constructor
    · rintro ⟨p, hp, rfl⟩
      obtain ⟨v, hv, -⟩ := hentry p hp
      obtain ⟨-, -, -, hu, -⟩ := mem_activeOrders.mp hp
      exact ⟨hu, by rw [hv, Option.getD_some]⟩
    · rintro ⟨he, hv⟩
      obtain ⟨p, hp, hid⟩ := hlisted e.1.id
        (Finmap.lookup_isSome.mp (Option.isSome_iff_exists.mpr ⟨_, hv⟩))
      obtain ⟨-, -, -, hu, -⟩ := mem_activeOrders.mp hp
      refine ⟨p, hp, Prod.ext (Table.eq_of_key hu he hid) ?_⟩
      rw [hid, hv, Option.getD_some]
  · obtain ⟨p, hp, hid⟩ := hlisted u hu
    exact ⟨_, List.mem_map_of_mem hp, hid⟩
  · rw [List.pairwise_map]
    exact pairwise_activeOrders r

/-! ### The refinement -/

/-- Cancelling succeeds exactly on the users of the map. -/
theorem Represents.cancel_iff (h : Represents r c M db) {runId userId : String} {d : Draws}
    {run : Run} {user : User} (hr : Uuid.parse runId = some r) (hrun : run ∈ db.runs)
    (hid : run.id = r) (hopen : run.status = .open) (hu : Uuid.parse userId = some user.id)
    (huser : user ∈ db.users) :
    (∃ res db', (OrderService.cancelOrder runId userId d).Returns db res db') ↔ user.id ∈ M := by
  subst hid
  rw [h.mem_iff]
  constructor
  · rintro ⟨res, db', hret⟩
    obtain ⟨run', user', o, orders, hr', -, -, hu', -, hf, hc, -⟩ :=
      OrderService.returns_cancelOrder.mp hret
    obtain ⟨hor, hou⟩ := Prod.mk.inj (ofPair_iff.mp (List.find?_some hf))
    rw [hr, Option.some.injEq] at hr'
    rw [hu, Option.some.injEq] at hu'
    exact ⟨o, List.mem_of_find?_eq_some hf, hor.trans hr'.symm, hou.trans hu'.symm, hc⟩
  · rintro ⟨o, ho, hor, hou, hc⟩
    have hf : db.orders.rows.find? (ofPair run.id user.id) = some o := by
      cases hfind : db.orders.rows.find? (ofPair run.id user.id) with
      | none =>
        exact absurd (ofPair_iff.mpr (Prod.ext hor hou)) (List.find?_eq_none.mp hfind o ho)
      | some p =>
        have hp := ofPair_iff.mp (List.find?_some hfind)
        rw [h.unique o ho p (List.mem_of_find?_eq_some hfind) hor ((Prod.ext hor hou).trans hp.symm)]
    exact ⟨_, _, OrderService.returns_cancelOrder.mpr
      ⟨run, user, o, _, hr, hrun, hopen, hu, huser, hf, hc, rfl, rfl, rfl⟩⟩

end Steps

theorem order_capture_refines_map (s : Database) (db₀ db : Db) (run : Run) (es : List Event)
    (hrun : run ∈ db₀.runs) (hfresh : ∀ o ∈ db₀.orders, o.runId ≠ run.id)
    (h : History s db₀ es db) (hreset : ∀ e ∈ es, ¬Resets run.channelId e.label) :
    (∀ es' e, es = es' ++ [e] →
      (∀ p, report e.label = .placed p → Uuid.parse p.runId = some run.id →
        p.result.participantCount = (captured run.id es).keys.card) ∧
      ∀ w, report e.label = .withdrawn w → Uuid.parse w.runId = some run.id →
        w.result.participantCount = (captured run.id es).keys.card) ∧
    (∀ runId userId d row user, Uuid.parse runId = some run.id → row ∈ db.runs → row.id = run.id →
      row.status = .open → Uuid.parse userId = some user.id → user ∈ db.users →
      ((∃ res db', (OrderService.cancelOrder runId userId d).Returns db res db') ↔
        user.id ∈ captured run.id es)) ∧
    ∀ authorizer request now d res db', Uuid.parse request.runId = some run.id →
      (closeRun authorizer s.collation request now d).Returns db res db' →
      Lists s.collation db.users (captured run.id es) res.summary.participants ∧
      res.summary.totalOrders = (captured run.id es).keys.card := by
  -- a run without orders represents the empty map
  have h₀ : Represents run.id run.channelId ∅ db₀ := by
    refine ⟨⟨run, hrun, rfl, rfl⟩, fun o ho _ _ hr => absurd hr (hfresh o ho),
      fun o ho hr => absurd hr (hfresh o ho), fun o ho hr => absurd hr (hfresh o ho),
      fun u v hv => ?_⟩
    rw [Finmap.lookup_empty] at hv
    exact absurd hv (Option.some_ne_none v).symm
  have hrep := represents_of_history h hreset h₀
  refine ⟨?_, fun runId userId d row user hr hrow hid hopen hu huser =>
    hrep.cancel_iff hr hrow hid hopen hu huser, fun authorizer request now d res db' hr hret => ?_⟩
  · rintro es' e rfl
    obtain ⟨-, hstep, rfl⟩ := Transition.Path.snoc_iff.mp h
    rw [← hrep.count]
    exact ⟨fun p hp hr => (effect_of_step hstep).count_placed hp hr,
      fun w hw hr => (effect_of_step hstep).count_withdrawn hw hr⟩
  · obtain ⟨row, runner, hcl⟩ := closes_of_returns hret
    have hrow : row.id = run.id := Option.some.inj (hcl.id.symm.trans hr)
    have hlists : Lists s.collation db.users (captured run.id es) res.summary.participants := by
      rw [hcl.participants, hrow]
      exact hrep.lists s.collation
    exact ⟨hlists, hcl.totalOrders.trans hlists.length⟩

/-! ### A run with one order taken back -/

namespace Sample

def orderCalls : List Call := [submit 1 11 alice, submit 2 11 bob, cancel 3 11 alice]

theorem orderCalls_facts :
    (∀ e ∈ replay database opened orderCalls, ¬Resets channel.id e.label) ∧
      (newRun 11).row ∈ (finalDb database opened orderCalls).runs ∧
      bob ∈ (finalDb database opened orderCalls).users := by
  decide +kernel

end Sample

open Sample in
theorem order_capture_refines_map_canceled :
    (∃ res db', (OrderService.cancelOrder (Uuid.ofNat 11).str bob.id.str (draws 4)).Returns
      (finalDb database opened orderCalls) res db') ↔
      bob.id ∈ captured (.ofNat 11) (replay database opened orderCalls) :=
  (order_capture_refines_map database opened (finalDb database opened orderCalls) (newRun 11).row
    (replay database opened orderCalls) (by decide) (by decide) (history_replay _ _ _)
    orderCalls_facts.1).2.1 _ _ _ (newRun 11).row bob (Uuid.parse_str _) orderCalls_facts.2.1 rfl rfl
    (Uuid.parse_str _) orderCalls_facts.2.2

end CoffeeBuddy

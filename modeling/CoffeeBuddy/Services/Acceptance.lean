import CoffeeBuddy.Data.Constraints
import CoffeeBuddy.Services.Assignment
import CoffeeBuddy.Services.RunSpecs

/-! What the schema accepts of the order calls and of a close. With new ids each of their
writes keeps the constraints, so a call that passes its checks returns. -/

namespace CoffeeBuddy
open Relational Transaction

/-- As many ids as a call can draw: two for an order, one for each participant. -/
def drawn (db : Db) : ℕ := db.users.rows.length + 2

/-- The ids a call draws are new. -/
structure Draws.Fresh (d : Draws) (db : Db) : Prop where
  distinct : ∀ i < drawn db, ∀ j < drawn db, d.uuid4 i = d.uuid4 j → i = j
  orders : ∀ o ∈ db.orders, ∀ i < drawn db, o.id ≠ d.uuid4 i
  preferences : ∀ p ∈ db.userPreferences, ∀ i < drawn db, p.id ≠ d.uuid4 i
  stats : ∀ s ∈ db.runnerStats, ∀ i < drawn db, s.id ≠ d.uuid4 i

section Accepted
variable {db : Db} {d : Draws} {run : Run} {user : User} {text : String} {now : Timestamp}
  {newId : Uuid}

/-! ### Orders and preferences -/

theorem accepted_upsertOrder (text : String) (confirm : Bool) (provenance : OrderProvenance)
    (now : Timestamp) (hm : db.Meets)
    (hrun : run ∈ db.runs) (huser : user ∈ db.users) (hfresh : ∀ o ∈ db.orders, o.id ≠ newId) :
    (OrderRepository.upsertOrder (.uuid run.id) (.uuid user.id) text confirm provenance now
      newId).Accepted Db.Meets db := by
  unfold OrderRepository.upsertOrder
  refine (OrderRepository.readOnly_getOrder _ _).accepted_bind fun found hfound => ?_
  obtain ⟨r, u, hr, hu, hf, -⟩ := OrderRepository.returns_getOrder.mp hfound
  obtain rfl : run.id = r := Option.some.inj hr
  obtain rfl : user.id = u := Option.some.inj hu
  cases found with
  | some existing =>
    refine Program.accepted_bind.mpr ⟨accepted_updating.mpr ?_, fun _ _ _ => Program.accepted_pure⟩
    exact hm.updateOrder rfl rfl
  | none =>
    refine (readOnly_asUuid _).accepted_bind fun r hr => ?_
    obtain rfl := Option.some.inj (returns_asUuid.mp hr).1
    refine (readOnly_asUuid _).accepted_bind fun u hu => ?_
    obtain rfl := Option.some.inj (returns_asUuid.mp hu).1
    refine Program.accepted_bind.mpr ⟨accepted_inserting.mpr ?_, fun _ _ _ => Program.accepted_pure⟩
    obtain ⟨t, ht⟩ := Table.exists_insert (t := db.orders) (r := ⟨newId, run.id, user.id, text, confirm,
      provenance.value, none, now, now⟩) hfresh
    refine ⟨t, ht, hm.insertOrder ht (fun p hp hpair => ?_) ⟨run, hrun, rfl⟩ ⟨user, huser, rfl⟩⟩
    exact List.find?_eq_none.mp hf.symm p hp (OrderRepository.ofPair_iff.mpr hpair)

theorem accepted_setPreference {channel : Uuid} (held : Option UserPreference) (text : String) (now : Timestamp) (hm : db.Meets)
    (hchannel : ∃ c ∈ db.channels, c.id = channel) (huser : user ∈ db.users)
    (hfresh : ∀ p ∈ db.userPreferences, p.id ≠ newId) :
    (PreferenceService.setPreference held (.uuid user.id) (.uuid channel) text now newId).Accepted
      Db.Meets db := by
  unfold PreferenceService.setPreference
  refine (PreferenceService.readOnly_getPreference _ _).accepted_bind fun found hfound => ?_
  obtain ⟨hf, -⟩ := PreferenceService.returns_getPreference.mp hfound
  cases found with
  | some existing =>
    refine Program.accepted_bind.mpr ⟨accepted_updating.mpr ?_, fun _ _ _ => Program.accepted_pure⟩
    exact hm.updatePreference rfl rfl
  | none =>
    refine (readOnly_asUuid _).accepted_bind fun u hu => ?_
    obtain rfl := Option.some.inj (returns_asUuid.mp hu).1
    refine (readOnly_asUuid _).accepted_bind fun c hc => ?_
    obtain rfl := Option.some.inj (returns_asUuid.mp hc).1
    refine Program.accepted_bind.mpr ⟨accepted_inserting.mpr ?_, fun _ _ _ => Program.accepted_pure⟩
    obtain ⟨t, ht⟩ := Table.exists_insert (t := db.userPreferences) (r := ⟨newId, user.id, channel, text,
      some now, now, now⟩) hfresh
    refine ⟨t, ht, hm.insertPreference ht (fun p hp hpair => ?_) ⟨user, huser, rfl⟩ hchannel⟩
    exact List.find?_eq_none.mp hf.symm p hp (PreferenceService.ofUser_iff_keyOf.mpr hpair)

theorem channel_of_run (hm : db.Meets) (hrun : run ∈ db.runs) :
    ∃ c ∈ db.channels, c.id = run.channelId := by
  obtain ⟨-, hchannels, -⟩ := hm.valid
  exact hchannels.mem hrun rfl

theorem accepted_persistHolding (held : Option UserPreference) (text : String) (confirm : Bool)
    (provenance : OrderProvenance) (hm : db.Meets) (hd : d.Fresh db) (hrun : run ∈ db.runs)
    (huser : user ∈ db.users) :
    (OrderService.persistHolding held run user text confirm provenance d).Accepted Db.Meets db := by
  unfold OrderService.persistHolding OrderService.rememberOrder
  have hchannel := channel_of_run hm hrun
  have hup := accepted_upsertOrder text confirm provenance (d.clock 0) hm hrun huser
    fun o ho => hd.orders o ho 0 (Nat.succ_pos _)
  refine Program.accepted_bind.mpr ⟨hup, fun order mid hret => ?_⟩
  have hmid := hup.returns hm hret
  obtain ⟨t, rfl, -⟩ := OrderRepository.returns_upsertOrder hret
  have hcount : ∀ {db : Db}, (OrderRepository.countActiveOrders (.uuid run.id)).Accepted Db.Meets
      db := ((readOnly_asUuid _).bind fun _ => Program.readOnly_query _).accepted
  cases confirm with
  | false =>
    refine Program.accepted_bind.mpr ⟨Program.accepted_pure, fun _ _ hnone => ?_⟩
    obtain ⟨-, rfl⟩ := Program.returns_pure.mp hnone
    exact Program.accepted_bind.mpr ⟨hcount, fun _ _ _ => Program.accepted_pure⟩
  | true =>
    have hset := accepted_setPreference held order.orderText (d.clock 1) hmid hchannel huser
      fun p hp => hd.preferences p hp 1 (by unfold drawn; omega)
    have hremember := Program.accepted_bind.mpr ⟨hset, fun p _ _ =>
      Program.accepted_pure (a := some p)⟩
    rw [if_pos rfl]
    exact Program.accepted_bind.mpr ⟨hremember, fun _ _ _ =>
      Program.accepted_bind.mpr ⟨hcount, fun _ _ _ => Program.accepted_pure⟩⟩

theorem accepted_submitOrder {v : OrderValidator} {request : OrderSubmissionRequest} (hm : db.Meets)
    (hd : d.Fresh db) : (OrderService.submitOrder v request d).Accepted Db.Meets db := by
  unfold OrderService.submitOrder
  refine (RunRepository.readOnly_getOpenRun _).accepted_bind fun run hrun => ?_
  obtain ⟨-, hrun, -⟩ := RunRepository.returns_getOpenRun.mp hrun
  refine (UserRepository.readOnly_get _).accepted_bind fun user huser => ?_
  obtain ⟨-, huser, -⟩ := UserRepository.returns_get.mp huser
  refine (readOnly_validated _).accepted_bind fun text _ => ?_
  exact Program.accepted_bind_pure.mpr (accepted_persistHolding none text _ _ hm hd hrun huser)

theorem accepted_useLastOrder {v : OrderValidator} {runId userId : String} (hm : db.Meets)
    (hd : d.Fresh db) : (OrderService.useLastOrder v runId userId d).Accepted Db.Meets db := by
  unfold OrderService.useLastOrder
  refine (RunRepository.readOnly_getOpenRun _).accepted_bind fun run hrun => ?_
  obtain ⟨-, hrun, -⟩ := RunRepository.returns_getOpenRun.mp hrun
  refine (UserRepository.readOnly_get _).accepted_bind fun user huser => ?_
  obtain ⟨-, huser, -⟩ := UserRepository.returns_get.mp huser
  refine (OrderService.readOnly_savedOrder _ _).accepted_bind fun p _ => ?_
  refine (readOnly_validated _).accepted_bind fun text _ => ?_
  have hpersist := accepted_persistHolding (some p) text true .preference hm hd hrun huser
  refine Program.accepted_bind.mpr ⟨hpersist, fun persisted mid hret => ?_⟩
  have hmid := hpersist.returns hm hret
  refine Program.accepted_bind.mpr ⟨accepted_updating.mpr ?_, fun _ _ _ => Program.accepted_pure⟩
  exact hmid.updatePreference rfl rfl

theorem accepted_cancelOrder {runId userId : String} (hm : db.Meets) :
    (OrderService.cancelOrder runId userId d).Accepted Db.Meets db := by
  unfold OrderService.cancelOrder
  refine (RunRepository.readOnly_getOpenRun _).accepted_bind fun run _ => ?_
  refine (UserRepository.readOnly_get _).accepted_bind fun user _ => ?_
  refine (OrderService.readOnly_activeOrder _ _).accepted_bind fun o _ => ?_
  refine Program.accepted_bind.mpr ⟨accepted_updating.mpr (hm.updateOrder rfl rfl), fun _ _ _ => ?_⟩
  refine Program.accepted_bind.mpr ⟨?_, fun _ _ _ => Program.accepted_pure⟩
  exact ((readOnly_asUuid _).bind fun _ => Program.readOnly_query _).accepted

/-! ### Closing -/

section Close
variable {channel : Uuid}

theorem readOnly_asUuids (texts : List String) : (FairnessService.asUuids texts).ReadOnly := by
  induction texts with
  | nil => exact Program.readOnly_pure _
  | cons text texts ih =>
    exact (readOnly_asUuid _).bind fun _ => ih.bind fun _ => Program.readOnly_pure _

/-- The loop that adds rows keeps the constraints: each is for a user without one. -/
theorem accepted_createMissing {us : List Uuid} (hus : us.Nodup) {k n : ℕ}
    {stats : Dict String RunnerStat} (hm : db.Meets)
    (hdistinct : ∀ i < k, ∀ j < k, d.uuid4 i = d.uuid4 j → i = j) (hk : n + us.length ≤ k)
    (hold : ∀ s ∈ db.runnerStats, ∀ i < k, n ≤ i → s.id ≠ d.uuid4 i)
    (hchannel : ∃ c ∈ db.channels, c.id = channel)
    (husers : ∀ u ∈ us, ∃ user ∈ db.users, user.id = u)
    (hmissing : ∀ u ∈ us, stats.get? u.str = none → ∀ s ∈ db.runnerStats, s.channelId = channel →
      s.userId ≠ u) :
    (FairnessService.createMissing channel d n (us.map Uuid.str) stats).Accepted Db.Meets db := by
  -- each new row takes the next id and leaves one user fewer without a row
  induction us generalizing n stats db with
  | nil => exact Program.accepted_pure
  | cons u us ih =>
    obtain ⟨hu, hus⟩ := List.nodup_cons.mp hus
    have hrest : ∀ v ∈ us, ∃ user ∈ db.users, user.id = v := fun v hv =>
      husers v (List.mem_cons_of_mem u hv)
    rw [List.length_cons] at hk
    rw [List.map_cons, FairnessService.createMissing]
    cases hget : stats.get? u.str with
    | some s =>
      exact ih hus hm (by omega) hold hchannel hrest fun v hv =>
        hmissing v (List.mem_cons_of_mem u hv)
    | none =>
      refine (readOnly_asUuid _).accepted_bind fun v hv => ?_
      obtain rfl : u = v := by
        have hparse := (returns_asUuid.mp hv).1
        rw [Ident.asUuid_str, Option.some.injEq] at hparse
        exact hparse
      have hfree := hmissing u List.mem_cons_self hget
      obtain ⟨t, ht⟩ := Table.exists_insert (t := db.runnerStats)
        (r := FairnessService.newStat channel d n u) fun s hs => hold s hs n (by omega) le_rfl
      have hmeets : Db.Meets { db with runnerStats := t } := by
        refine hm.insertStat ht (fun q hq hpair => ?_) (husers u List.mem_cons_self) hchannel
        obtain ⟨hqu, hqc⟩ := Prod.mk.inj hpair
        exact hfree q hq hqc hqu
      refine Program.accepted_bind.mpr ⟨accepted_inserting.mpr ⟨t, ht, hmeets⟩, fun _ mid hret => ?_⟩
      obtain ⟨t', ht', rfl⟩ := returns_inserting.mp hret
      obtain rfl : t = t' := Option.some.inj (ht.symm.trans ht')
      refine ih hus hmeets (by omega) (FairnessService.fresh_newStat hdistinct hold ht) hchannel hrest
        fun v hv hvget s hs hsc => ?_
      have hne : v ≠ u := fun hvu => hu (hvu ▸ hv)
      rcases (Table.mem_insert ht).mp hs with hs | rfl
      · rw [Dict.get?_set_new hget fun hstr => hne (Uuid.str_inj.mp hstr)] at hvget
        exact hmissing v (List.mem_cons_of_mem u hv) hvget s hs hsc
      · exact hne.symm

theorem FairnessService.onePerUser_of_valid (h : db.Valid) (channel : Uuid) :
    FairnessService.OnePerUser channel db.runnerStats := by
  intro s hs s' hs' hc hc' hu
  obtain ⟨⟨-, -, -, -, hunique⟩, -⟩ := h
  exact hunique.eq hs hs' (Prod.ext hu (hc.trans hc'.symm))

theorem accepted_loadStats {us : List Uuid} (hus : us.Nodup) (hm : db.Meets) (hd : d.Fresh db)
    (hchannel : ∃ c ∈ db.channels, c.id = channel)
    (husers : ∀ u ∈ us, ∃ user ∈ db.users, user.id = u) :
    (FairnessService.loadStats channel (us.map Uuid.str) d).Accepted Db.Meets db := by
  have hone : FairnessService.OnePerUser channel db.runnerStats :=
    FairnessService.onePerUser_of_valid hm.valid channel
  unfold FairnessService.loadStats
  refine (readOnly_asUuids _).accepted_bind fun vs hvs => ?_
  obtain ⟨rfl, -⟩ := FairnessService.returns_asUuids.mp hvs
  refine (Program.readOnly_query _).accepted_bind fun rows hrows => ?_
  obtain ⟨rfl, -⟩ := Program.returns_query.mp hrows
  -- the participants are distinct users
  have hlength : vs.length ≤ db.users.rows.length := by
    have hsub : vs ⊆ db.users.rows.map User.id := fun u hu => List.mem_map.mpr (husers u hu)
    rw [← List.length_map User.id]
    exact (List.subperm_of_subset hus hsub).length_le
  refine accepted_createMissing hus hm hd.distinct (by unfold drawn; omega)
    (fun s hs i hi _ => hd.stats s hs i hi) hchannel husers fun u hu hget => ?_
  have hmissing : u ∈ FairnessService.missing channel vs db.runnerStats :=
    List.mem_filter.mpr ⟨hu, Option.isNone_iff_eq_none.mpr hget⟩
  exact ((FairnessService.mem_missing hone).mp hmissing).2

theorem accepted_assignRunner {users : List Uuid} (lastId : Option String) (allow : Bool)
    (hm : db.Meets) (hd : d.Fresh db) (hchannel : ∃ c ∈ db.channels, c.id = channel)
    (husers : ∀ u ∈ users, ∃ user ∈ db.users, user.id = u) :
    (FairnessService.assignRunner (.str channel.str) (FairnessService.idents users) lastId allow
      d).Accepted Db.Meets db := by
  obtain ⟨us, hus, hnd, hmem⟩ := FairnessService.uniqueOrdered_idents users
  unfold FairnessService.assignRunner
  rw [hus]
  dsimp only
  split_ifs
  · exact Program.accepted_raise
  refine (readOnly_asUuid _).accepted_bind fun c hc => ?_
  obtain rfl : channel = c := by
    have hparse := (returns_asUuid.mp hc).1
    rw [Ident.asUuid_str, Option.some.injEq] at hparse
    exact hparse
  have hload := accepted_loadStats (d := d) hnd hm hd hchannel fun u hu => husers u ((hmem u).mp hu)
  refine Program.accepted_bind.mpr ⟨hload, fun loaded mid hret => ?_⟩
  obtain ⟨stats, n⟩ := loaded
  have hmid := hload.returns hm hret
  have hchoose : (FairnessService.choose (FairnessService.candidates stats lastId allow)).ReadOnly := by
    unfold FairnessService.choose
    split
    · exact Program.readOnly_pure _
    · exact Program.readOnly_raise _
  refine hchoose.accepted_bind fun chosen _ => ?_
  refine Program.accepted_bind.mpr ⟨accepted_updating.mpr (hmid.updateStat rfl rfl), fun _ _ _ => ?_⟩
  refine Program.accepted_bind.mpr ⟨Program.ReadOnly.accepted ?_, fun _ _ _ => Program.accepted_pure⟩
  unfold FairnessService.previousCount
  split
  · exact Program.readOnly_pure _
  · exact Program.readOnly_raise _

theorem accepted_snapshotOrders {orders : List (Order × User)} (hm : db.Meets) :
    (CloseRunService.snapshotOrders now orders).Accepted Db.Meets db := by
  induction orders generalizing db with
  | nil => exact Program.accepted_pure
  | cons p orders ih =>
    have hupdate : Db.Meets { db with
        orders := db.orders.update p.1 (CloseRunService.snapshotted p.1 now) } := hm.updateOrder rfl rfl
    refine Program.accepted_bind.mpr ⟨accepted_updating.mpr hupdate, fun _ mid hret => ?_⟩
    obtain rfl := returns_updating.mp hret
    exact Program.accepted_bind.mpr ⟨ih hupdate, fun _ _ _ => Program.accepted_pure⟩

theorem accepted_closeRun {authorizer : CloseRunAuthorizer} {collation : Collation}
    {request : CloseRunRequest} (hm : db.Meets) (hd : d.Fresh db) :
    (CloseRunService.closeRun authorizer collation request now d).Accepted Db.Meets db := by
  unfold CloseRunService.closeRun
  refine (CloseRunService.readOnly_getRun _).accepted_bind fun run hrun => ?_
  refine CloseRunService.readOnly_checkClosable.accepted_bind fun _ _ => ?_
  refine (CloseRunService.readOnly_getChannel _).accepted_bind fun c hc => ?_
  obtain ⟨hc, -, -⟩ := CloseRunService.returns_getChannel.mp hc
  refine (CloseRunService.readOnly_loadActiveOrders _).accepted_bind fun orders horders => ?_
  obtain ⟨rfl, -, -⟩ := CloseRunService.returns_loadActiveOrders.mp horders
  refine (Program.readOnly_query _).accepted_bind fun last _ => ?_
  have hids : (CloseRunService.activeOrders collation run.id db).map
      (fun p => Ident.str p.1.userId.str) =
      FairnessService.idents (CloseRunService.participantIds collation run.id db) := by
    rw [CloseRunService.participantIds, FairnessService.idents, List.map_map]
    rfl
  have husers : ∀ u ∈ CloseRunService.participantIds collation run.id db,
      ∃ user ∈ db.users, user.id = u :=
    fun u hu => (CloseRunService.mem_participantIds.mp hu).2
  -- up to here the close has only read; the assignment is the first to write
  have hassign := accepted_assignRunner (last.map Uuid.str) request.allowImmediateRepeat hm hd
    ⟨c, hc, rfl⟩ husers
  rw [hids]
  refine Program.accepted_bind.mpr ⟨hassign, fun decision mid hret => ?_⟩
  have hmid := hassign.returns hm hret
  have hgetRunner : (CloseRunService.getRunner decision.runnerUserId).ReadOnly := by
    refine (readOnly_asUuid _).bind fun _ => (Program.readOnly_query _).bind fun found => ?_
    cases found
    · exact Program.readOnly_raise _
    · exact Program.readOnly_pure _
  refine hgetRunner.accepted_bind fun runner hrunner => ?_
  obtain ⟨-, hrunner, -⟩ := CloseRunService.returns_getRunner.mp hrunner
  have hclosed : Db.Meets { mid with
      runs := mid.runs.update run (CloseRunService.finalized run runner.id now) } :=
    hmid.updateRun rfl rfl rfl ⟨runner, hrunner, rfl⟩
  refine Program.accepted_bind.mpr ⟨accepted_updating.mpr hclosed, fun _ last hret => ?_⟩
  obtain rfl := returns_updating.mp hret
  exact Program.accepted_bind.mpr ⟨accepted_snapshotOrders hclosed, fun _ _ _ => Program.accepted_pure⟩

end Close
end Accepted

/-! ### Calls that succeed -/

section Succeeds
variable {db : Db} {d : Draws} {run : Run} {user : User} {channel : Uuid}

theorem raisesOnly_asUuid (i : Ident) : (asUuid i).RaisesOnly Exc.Raised := by
  unfold asUuid
  cases i.asUuid with
  | none => exact Program.raisesOnly_raise Exc.noConfusion
  | some u => exact Program.raisesOnly_pure

theorem raisesOnly_asUuids (texts : List String) :
    (FairnessService.asUuids texts).RaisesOnly Exc.Raised := by
  induction texts with
  | nil => exact Program.raisesOnly_pure
  | cons text texts ih =>
    exact (raisesOnly_asUuid _).bind fun _ => ih.bind fun _ => Program.raisesOnly_pure

theorem raisesOnly_createMissing (n : ℕ) (texts : List String) (stats : Dict String RunnerStat) :
    (FairnessService.createMissing channel d n texts stats).RaisesOnly Exc.Raised := by
  induction texts generalizing n stats with
  | nil => exact Program.raisesOnly_pure
  | cons text texts ih =>
    unfold FairnessService.createMissing
    split
    · exact ih n stats
    · exact (raisesOnly_asUuid _).bind fun _ => Program.raisesOnly_execute.bind fun _ => ih _ _

theorem raisesOnly_assignRunner (channelId : Ident) (users : List Ident) (last : Option String)
    (allow : Bool) :
    (FairnessService.assignRunner channelId users last allow d).RaisesOnly Exc.Raised := by
  have hload : ∀ c texts, (FairnessService.loadStats c texts d).RaisesOnly Exc.Raised :=
    fun c texts => (raisesOnly_asUuids texts).bind fun _ => Program.raisesOnly_query.bind fun _ =>
      raisesOnly_createMissing _ _ _
  have hchoose : ∀ cs, (FairnessService.choose cs).RaisesOnly Exc.Raised := by
    intro cs
    unfold FairnessService.choose
    split
    · exact Program.raisesOnly_pure
    · exact Program.raisesOnly_raise Exc.noConfusion
  have hcount : ∀ stats user, (FairnessService.previousCount stats user).RaisesOnly Exc.Raised := by
    intro stats user
    unfold FairnessService.previousCount
    split
    · exact Program.raisesOnly_pure
    · exact Program.raisesOnly_raise Exc.noConfusion
  unfold FairnessService.assignRunner
  dsimp only
  split_ifs
  · exact Program.raisesOnly_raise Exc.noConfusion
  · exact (raisesOnly_asUuid _).bind fun c => (hload _ _).bind fun loaded =>
      (hchoose _).bind fun chosen => Program.raisesOnly_execute.bind fun _ =>
      (hcount _ _).bind fun _ => Program.raisesOnly_pure

theorem raisesOnly_snapshotOrders (now : Timestamp) (orders : List (Order × User)) :
    (CloseRunService.snapshotOrders now orders).RaisesOnly Exc.Raised := by
  induction orders with
  | nil => exact Program.raisesOnly_pure
  | cons p orders ih =>
    exact Program.raisesOnly_execute.bind fun _ => ih.bind fun _ => Program.raisesOnly_pure

/-- The exceptions of a close are its own, but for a refused statement. -/
theorem raisesOnly_closeRun (authorizer : CloseRunAuthorizer) (collation : Collation)
    (request : CloseRunRequest) (now : Timestamp) :
    (CloseRunService.closeRun authorizer collation request now d).RaisesOnly Exc.Raised := by
  have hrun : (CloseRunService.getRun request.runId).RaisesOnly Exc.Raised := by
    refine (raisesOnly_asUuid _).bind fun _ => Program.raisesOnly_query.bind fun found => ?_
    cases found with
    | none => exact Program.raisesOnly_raise Exc.noConfusion
    | some run => exact Program.raisesOnly_pure
  have hcheck : ∀ run,
      (CloseRunService.checkClosable authorizer request run).RaisesOnly Exc.Raised := by
    intro run
    unfold CloseRunService.checkClosable
    split_ifs
    · exact Program.raisesOnly_raise Exc.noConfusion
    · exact Program.raisesOnly_pure
    · exact Program.raisesOnly_raise Exc.noConfusion
  have hchannel : ∀ id, (CloseRunService.getChannel id).RaisesOnly Exc.Raised := by
    refine fun id => Program.raisesOnly_query.bind fun found => ?_
    cases found with
    | none => exact Program.raisesOnly_raise Exc.noConfusion
    | some c => exact Program.raisesOnly_pure
  have horders : ∀ id, (CloseRunService.loadActiveOrders collation id).RaisesOnly Exc.Raised := by
    refine fun id => Program.raisesOnly_query.bind fun orders => ?_
    split_ifs
    · exact Program.raisesOnly_raise Exc.noConfusion
    · exact Program.raisesOnly_pure
  have hrunner : ∀ text, (CloseRunService.getRunner text).RaisesOnly Exc.Raised := by
    refine fun text => (raisesOnly_asUuid _).bind fun _ => Program.raisesOnly_query.bind fun found => ?_
    cases found with
    | none => exact Program.raisesOnly_raise Exc.noConfusion
    | some runner => exact Program.raisesOnly_pure
  unfold CloseRunService.closeRun
  exact hrun.bind fun run => (hcheck run).bind fun _ => (hchannel _).bind fun c =>
    (horders _).bind fun orders => Program.raisesOnly_query.bind fun last =>
    (raisesOnly_assignRunner _ _ _ _).bind fun decision => (hrunner _).bind fun runner =>
    Program.raisesOnly_execute.bind fun _ => (raisesOnly_snapshotOrders now orders).bind fun _ =>
    Program.raisesOnly_pure

/-- An order with a valid text, by a stored user in an open run, is taken. -/
theorem submitOrder_succeeds {v : OrderValidator} {request : OrderSubmissionRequest}
    {text : String} (hd : d.Fresh db) (hr : Uuid.parse request.runId = some run.id)
    (hrun : run ∈ db.runs) (ho : run.status = .open) (hu : Uuid.parse request.userId = some user.id)
    (huser : user ∈ db.users) (hv : v.validate request.orderText = .ok text) :
    ∃ result mid, (OrderService.submitOrder v request d).Returns db result mid := by
  rcases Program.returns_or_raises (OrderService.submitOrder v request d) db with h | ⟨e, t, h⟩
  · exact h
  have hgetRun : (RunRepository.getOpenRun (.str request.runId)).Returns db run db :=
    RunRepository.returns_getOpenRun.mpr ⟨hr, hrun, ho, rfl⟩
  have hgetUser : (UserRepository.get (.str request.userId)).Returns db user db :=
    UserRepository.returns_get.mpr ⟨hu, huser, rfl⟩
  have hvalid : (validated v request.orderText).Returns db text db :=
    returns_validated.mpr ⟨hv, rfl⟩
  unfold OrderService.submitOrder at h
  rw [hgetRun.bind_raises, hgetUser.bind_raises, hvalid.bind_raises] at h
  rcases (OrderService.raises_persistOrder h).2 with ⟨-, o, ho, htaken⟩ | ⟨-, -, p, hp, htaken⟩
  · exact absurd htaken (hd.orders o ho 0 (by unfold drawn; omega))
  · exact absurd htaken (hd.preferences p hp 1 (by unfold drawn; omega))

/-- So is the remembered order of a stored user, while its text is valid. -/
theorem useLastOrder_succeeds {v : OrderValidator} {runId userId text : String}
    {p : UserPreference} (hd : d.Fresh db) (hr : Uuid.parse runId = some run.id)
    (hrun : run ∈ db.runs) (ho : run.status = .open) (hu : Uuid.parse userId = some user.id)
    (huser : user ∈ db.users)
    (hp : db.userPreferences.rows.find? (PreferenceService.ofUser user.id run.channelId) = some p)
    (hv : v.validate p.lastOrderText = .ok text) :
    ∃ result after, (OrderService.useLastOrder v runId userId d).Returns db result after := by
  rcases Program.returns_or_raises (OrderService.useLastOrder v runId userId d) db with h | ⟨e, t, h⟩
  · exact h
  have hgetRun : (RunRepository.getOpenRun (.str runId)).Returns db run db :=
    RunRepository.returns_getOpenRun.mpr ⟨hr, hrun, ho, rfl⟩
  have hgetUser : (UserRepository.get (.str userId)).Returns db user db :=
    UserRepository.returns_get.mpr ⟨hu, huser, rfl⟩
  have hsaved : (OrderService.savedOrder user run.channelId userId).Returns db p db :=
    OrderService.returns_savedOrder.mpr ⟨hp, rfl⟩
  have hvalid : (validated v p.lastOrderText).Returns db text db := returns_validated.mpr ⟨hv, rfl⟩
  unfold OrderService.useLastOrder at h
  rw [hgetRun.bind_raises, hgetUser.bind_raises, hsaved.bind_raises, hvalid.bind_raises] at h
  simp only [Program.raises_bind, PreferenceService.raises_markUsed, Program.raises_pure, and_false,
    exists_false, or_false] at h
  have h := (OrderService.exec_persistHolding_held hp).symm.trans h
  rcases (OrderService.raises_persistOrder (Program.raises_bind_pure.mpr h)).2 with ⟨-, o, ho, htaken⟩ | ⟨-, -, q, hq, htaken⟩
  · exact absurd htaken (hd.orders o ho 0 (by unfold drawn; omega))
  · exact absurd htaken (hd.preferences q hq 1 (by unfold drawn; omega))

/-- An authorized close of an open run that somebody ordered in goes through. -/
theorem closeRun_succeeds {authorizer : CloseRunAuthorizer} {collation : Collation}
    {request : CloseRunRequest} {now : Timestamp} (hm : db.Meets) (hd : d.Fresh db)
    (hr : Uuid.parse request.runId = some run.id) (hrun : run ∈ db.runs) (ho : run.status = .open)
    (ha : authorizer run request.actorUserId = true)
    (hne : CloseRunService.activeOrders collation run.id db ≠ []) : ∃ result after,
      (CloseRunService.closeRun authorizer collation request now d).Returns db result after := by
  rcases Program.returns_or_raises
    (CloseRunService.closeRun authorizer collation request now d) db with h | ⟨e, t, h⟩
  · exact h
  have hown : e.Raised := (accepted_closeRun hm hd).raises (raisesOnly_closeRun _ _ _ _) h
  obtain ⟨c, hc, hcid⟩ := channel_of_run hm hrun
  have hgetRun : (CloseRunService.getRun request.runId).Returns db run db :=
    CloseRunService.returns_getRun.mpr ⟨hr, hrun, rfl⟩
  have hcheck : (CloseRunService.checkClosable authorizer request run).Returns db () db :=
    CloseRunService.returns_checkClosable.mpr ⟨ho, ha, rfl⟩
  have hgetChannel : (CloseRunService.getChannel run.channelId).Returns db c db :=
    CloseRunService.returns_getChannel.mpr ⟨hc, hcid, rfl⟩
  have horders : (CloseRunService.loadActiveOrders collation run.id).Returns db
      (CloseRunService.activeOrders collation run.id db) db :=
    CloseRunService.returns_loadActiveOrders.mpr ⟨rfl, hne, rfl⟩
  have hprevious : (Program.query (CloseRunService.previousRunner run) : Tx _).Returns db
      (CloseRunService.previousRunner run db) db := Program.returns_query.mpr ⟨rfl, rfl⟩
  unfold CloseRunService.closeRun at h
  rw [hgetRun.bind_raises, hcheck.bind_raises, hgetChannel.bind_raises, horders.bind_raises,
    hprevious.bind_raises] at h
  rw [CloseRunService.raises_closeRun_of_reads hne h] at hown
  exact absurd hown Exc.not_raised_integrityError

end Succeeds
end CoffeeBuddy

import CoffeeBuddy.Data.Constraints
import CoffeeBuddy.Library.ReadCommitted
import CoffeeBuddy.Services.History

/-! Calls in concurrent sessions, each a READ COMMITTED transaction. What a close does is
read off its statements: the stores it saw may differ from one read to the next. -/

namespace CoffeeBuddy
open Relational Transaction FairnessService

/-! ### The statements -/

abbrev addsStat := insertion Db.runnerStats fun db t => { db with runnerStats := t }
abbrev setsStat := modification Db.runnerStats fun db t => { db with runnerStats := t }
abbrev setsRun := modification Db.runs fun db t => { db with runs := t }
abbrev setsOrder := modification Db.orders fun db t => { db with orders := t }

section Statements
variable {ds : List (Did Db Exc)}

@[simp] theorem does_tx_raise {α : Type} {e : Exc} {a : α} : ¬(Tx.raise e : Tx α).Does ds a :=
  Program.does_raise

@[simp] theorem does_asUuid {value : Ident} {u : Uuid} :
    (asUuid value).Does ds u ↔ value.asUuid = some u ∧ ds = [] := by
  unfold asUuid
  cases value.asUuid <;> simp [eq_comm]

theorem does_rowUnder {ρ : Type} [Keyed ρ Uuid] {table : Db → Table ρ} {missing : Exc} {id : Uuid}
    {r : ρ} (h : (rowUnder table missing id).Does ds r) :
    ∃ v : Db, ds = [.read v] ∧ r ∈ table v ∧ Keyed.key r = id := by
  simp only [rowUnder, Program.does_bind, Program.does_query] at h
  obtain ⟨_, found, _, ⟨v, rfl, rfl⟩, h, rfl⟩ := h
  cases hf : (table v).find? id with
  | none =>
    rw [hf] at h
    exact absurd h does_tx_raise
  | some q =>
    rw [hf] at h
    obtain ⟨rfl, rfl⟩ := Program.does_pure.mp h
    obtain ⟨hm, hk⟩ := Table.find?_eq_some.mp hf
    exact ⟨v, rfl, hm, hk⟩

theorem does_asUuid_rowUnder {ρ : Type} [Keyed ρ Uuid] {table : Db → Table ρ} {missing : Exc}
    {i : Ident} {r : ρ} (h : (asUuid i >>= rowUnder table missing).Does ds r) :
    ∃ v : Db, ds = [.read v] ∧ i.asUuid = some (Keyed.key r) ∧ r ∈ table v := by
  rw [Program.does_bind] at h
  obtain ⟨_, id, _, hparse, h, rfl⟩ := h
  obtain ⟨hid, rfl⟩ := does_asUuid.mp hparse
  obtain ⟨v, rfl, hm, rfl⟩ := does_rowUnder h
  exact ⟨v, rfl, hid, hm⟩

@[simp] theorem does_inserting {ρ : Type} [Keyed ρ Uuid] {table : Db → Table ρ}
    {store : Db → Table ρ → Db} {r : ρ} {u : Unit} :
    (inserting table store r).Does ds u ↔ ds = [.wrote (insertion table store r)] :=
  Program.does_execute

@[simp] theorem does_updating {ρ : Type} [Row ρ Uuid] {table : Db → Table ρ}
    {store : Db → Table ρ → Db} {l m : ρ} {u : Unit} :
    (updating table store l m).Does ds u ↔ ds = [.wrote (modification table store l m)] :=
  Program.does_execute

theorem applied_addsStat {rs : List RunnerStat} {db db' : Db}
    (h : applied (rs.map addsStat) db = .ok db') :
    ∃ t, db' = { db with runnerStats := t } ∧ t.rows = db.runnerStats.rows ++ rs := by
  induction rs generalizing db with
  | nil =>
    obtain rfl := Except.ok.inj h
    exact ⟨db.runnerStats, rfl, (List.append_nil _).symm⟩
  | cons r rs ih =>
    obtain ⟨mid, hr, hrs⟩ := applied_cons.mp h
    rw [addsStat, insertion] at hr
    split at hr
    · rename_i u hu
      obtain rfl := Except.ok.inj hr
      obtain ⟨t, rfl, ht⟩ := ih hrs
      refine ⟨t, rfl, ht.trans ?_⟩
      rw [Table.rows_insert hu, List.append_assoc, List.singleton_append]
    · cases hr

theorem applied_setsOrder {now : Timestamp} {orders : List (Order × User)} {db db' : Db}
    (h : applied (orders.map fun p => setsOrder p.1 (CloseRunService.snapshotted p.1 now)) db =
      .ok db') : db' = { db with orders := CloseRunService.snapshot now db.orders orders } := by
  induction orders generalizing db with
  | nil =>
    obtain rfl := Except.ok.inj h
    rfl
  | cons p orders ih =>
    obtain ⟨mid, hp, hrest⟩ := applied_cons.mp h
    obtain rfl := Except.ok.inj hp
    rw [ih hrest, CloseRunService.snapshot, CloseRunService.snapshot, List.foldl_cons]

end Statements

/-! ### The assignment -/

namespace FairnessService
variable {channel : Uuid} {d : Draws} {ds : List (Did Db Exc)}

theorem does_asUuids {us vs : List Uuid} :
    (asUuids (us.map Uuid.str)).Does ds vs ↔ vs = us ∧ ds = [] := by
  induction us generalizing vs ds with
  | nil => simp [asUuids]
  | cons u us ih =>
    simp only [List.map_cons, asUuids, Program.does_bind, does_asUuid, Ident.asUuid_str,
      Option.some.injEq, ih, Program.does_pure]
    constructor
    · rintro ⟨_, _, _, ⟨rfl, rfl⟩, ⟨_, _, _, ⟨rfl, rfl⟩, ⟨rfl, rfl⟩, rfl⟩, rfl⟩
      exact ⟨rfl, rfl⟩
    · rintro ⟨rfl, rfl⟩
      exact ⟨[], u, [], ⟨rfl, rfl⟩, ⟨[], us, [], ⟨rfl, rfl⟩, ⟨rfl, rfl⟩, rfl⟩, rfl⟩

theorem does_createMissing {us : List Uuid} (hus : us.Nodup) {n m : ℕ}
    {stats stats' : Dict String RunnerStat}
    (h : (createMissing channel d n (us.map Uuid.str) stats).Does ds (stats', m)) :
    ds = (newStats channel d n (us.filter (isMissing stats))).map (fun s => .wrote (addsStat s)) ∧
      stats'.rows = stats.rows ++ (newStats channel d n (us.filter (isMissing stats))).map entry := by
  induction us generalizing n stats ds with
  | nil =>
    simp only [List.map_nil, createMissing, Program.does_pure, Prod.mk.injEq] at h
    obtain ⟨⟨rfl, rfl⟩, rfl⟩ := h
    exact ⟨rfl, (List.append_nil _).symm⟩
  | cons u us ih =>
    obtain ⟨hu, hus⟩ := List.nodup_cons.mp hus
    rw [List.map_cons, createMissing] at h
    split at h
    · rename_i s hs
      have hskip : isMissing stats u = false := by rw [isMissing, hs, Option.isNone_some]
      rw [List.filter_cons_of_neg (by rw [hskip]; exact Bool.false_ne_true)]
      exact ih hus h
    · rename_i hs
      have hnew : isMissing stats u = true := by rw [isMissing, hs, Option.isNone_none]
      simp only [Program.does_bind, does_asUuid, Ident.asUuid_str, does_inserting] at h
      obtain ⟨_, _, _, ⟨⟨⟩, rfl⟩, ⟨_, _, _, rfl, h, rfl⟩, rfl⟩ := h
      obtain ⟨rfl, hstats⟩ := ih hus h
      -- the entry just added does not change who else is missing
      have hrest : us.filter (isMissing (stats.set u.str (newStat channel d n u))) =
          us.filter (isMissing stats) := by
        refine List.filter_congr fun v hv => ?_
        have hne : v.str ≠ u.str := fun h => hu (Uuid.str_inj.mp h ▸ hv)
        rw [isMissing, isMissing, Dict.get?_set_new hs hne]
      rw [hrest] at hstats ⊢
      rw [List.filter_cons_of_pos hnew, newStats_cons]
      refine ⟨rfl, ?_⟩
      rw [hstats, Dict.set_new hs, List.append_assoc, List.map_cons]
      rfl

theorem does_loadStats {us : List Uuid} (hus : us.Nodup) {stats : Dict String RunnerStat} {n : ℕ}
    (h : (loadStats channel (us.map Uuid.str) d).Does ds (stats, n)) :
    ∃ v : Db, Loaded channel d us v.runnerStats stats ∧
      ds = .read v :: (newStats channel d 0 (missing channel us v.runnerStats)).map
        fun s => .wrote (addsStat s) := by
  simp only [loadStats, Program.does_bind, does_asUuids, Program.does_query] at h
  obtain ⟨_, _, _, ⟨rfl, rfl⟩, ⟨_, _, _, ⟨v, rfl, rfl⟩, h, rfl⟩, rfl⟩ := h
  obtain ⟨rfl, hstats⟩ := does_createMissing hus h
  exact ⟨v, hstats, rfl⟩

theorem does_choose {cs : List RunnerStat} {chosen : RunnerStat}
    (h : (choose cs).Does ds chosen) : chosen ∈ cs ∧ ds = [] := by
  unfold choose at h
  split at h
  · rename_i c hc
    obtain ⟨rfl, rfl⟩ := Program.does_pure.mp h
    exact ⟨List.argmin_mem hc, rfl⟩
  · exact absurd h does_tx_raise

theorem does_assignRunner {users : List Uuid} {lastId : Option String} {allow : Bool}
    {decision : FairnessDecision}
    (h : (assignRunner (.str channel.str) (idents users) lastId allow d).Does ds decision) :
    ∃ us stats chosen n, ∃ v : Db, (∀ u, u ∈ us ↔ u ∈ users) ∧
      Loaded channel d us v.runnerStats stats ∧ chosen ∈ stats.values ∧
      decision.runnerUserId = chosen.userId.str ∧
      ds = .read v :: (newStats channel d 0 (missing channel us v.runnerStats)).map
        (fun s => .wrote (addsStat s)) ++ [.wrote (setsStat chosen (credited chosen (d.clock n)))] := by
  obtain ⟨us, hus, hnd, hmem⟩ := uniqueOrdered_idents users
  simp only [assignRunner, hus] at h
  split_ifs at h
  · exact absurd h does_tx_raise
  · simp only [Program.does_bind, does_asUuid, Ident.asUuid_str, does_updating,
      Program.does_pure] at h
    obtain ⟨_, _, _, ⟨⟨⟩, rfl⟩, ⟨_, ⟨stats, n⟩, _, hload, ⟨_, chosen, _, hchosen,
      ⟨_, _, _, rfl, ⟨_, count, _, hcount, ⟨rfl, rfl⟩, rfl⟩, rfl⟩, rfl⟩, rfl⟩, rfl⟩ := h
    obtain ⟨v, hloaded, rfl⟩ := does_loadStats hnd hload
    obtain ⟨hcand, rfl⟩ := does_choose hchosen
    refine ⟨us, stats, chosen, n, v, hmem, hloaded, mem_values_of_mem_candidates hcand, rfl, ?_⟩
    unfold previousCount at hcount
    split at hcount
    · obtain ⟨-, rfl⟩ := Program.does_pure.mp hcount
      rfl
    · exact absurd hcount does_tx_raise

end FairnessService

/-! ### The close -/

namespace CloseRunService
variable {authorizer : CloseRunAuthorizer} {collation : Collation} {request : CloseRunRequest}
  {now : Timestamp} {d : Draws} {ds : List (Did Db Exc)}

theorem does_getRun {runId : String} {run : Run} (h : (getRun runId).Does ds run) :
    ∃ v : Db, ds = [.read v] ∧ Uuid.parse runId = some run.id ∧ run ∈ v.runs := by
  rw [getRun_eq] at h
  obtain ⟨v, hv, hid, hm⟩ := does_asUuid_rowUnder h
  exact ⟨v, hv, hid, hm⟩

theorem does_checkClosable {run : Run} {u : Unit}
    (h : (checkClosable authorizer request run).Does ds u) : run.status = .open ∧ ds = [] := by
  unfold checkClosable at h
  split_ifs at h with ho
  · exact absurd h does_tx_raise
  · exact ⟨not_not.mp ho, (Program.does_pure.mp h).2⟩
  · exact absurd h does_tx_raise

theorem does_getChannel {id : Uuid} {channel : Channel} (h : (getChannel id).Does ds channel) :
    channel.id = id ∧ ∃ v : Db, ds = [.read v] := by
  rw [getChannel_eq] at h
  obtain ⟨v, hv, -, hk⟩ := does_rowUnder h
  exact ⟨hk, v, hv⟩

theorem does_loadActiveOrders {id : Uuid} {orders : List (Order × User)}
    (h : (loadActiveOrders collation id).Does ds orders) :
    ∃ v, ds = [.read v] ∧ orders = activeOrders collation id v := by
  simp only [loadActiveOrders, Program.does_bind, Program.does_query] at h
  obtain ⟨_, _, _, ⟨v, rfl, rfl⟩, h, rfl⟩ := h
  split_ifs at h
  · exact absurd h does_tx_raise
  · obtain ⟨rfl, rfl⟩ := Program.does_pure.mp h
    exact ⟨v, rfl, rfl⟩

theorem does_getRunner {runnerUserId : String} {user : User}
    (h : (getRunner runnerUserId).Does ds user) :
    Uuid.parse runnerUserId = some user.id ∧ ∃ v : Db, ds = [.read v] := by
  rw [getRunner_eq] at h
  obtain ⟨v, hv, hid, -⟩ := does_asUuid_rowUnder h
  exact ⟨hid, v, hv⟩

theorem does_snapshotOrders {orders : List (Order × User)} {participants : List ParticipantOrder}
    (h : (snapshotOrders now orders).Does ds participants) :
    ds = orders.map (fun p => .wrote (setsOrder p.1 (snapshotted p.1 now))) ∧
      participants = orders.map fun p => participant p.1 p.2 := by
  induction orders generalizing ds participants with
  | nil => exact (Program.does_pure.mp h).symm
  | cons p orders ih =>
    simp only [snapshotOrders, Program.does_bind, does_updating, Program.does_pure] at h
    obtain ⟨_, _, _, rfl, ⟨_, _, _, h, ⟨rfl, rfl⟩, rfl⟩, rfl⟩ := h
    obtain ⟨rfl, rfl⟩ := ih h
    exact ⟨by rw [List.append_nil]; rfl, rfl⟩

/-- The statements `ds` of a close that returns `result`: five reads, the blank rows, the
credit, the read of the runner, the run and the snapshot. -/
structure Statements (collation : Collation) (request : CloseRunRequest) (now : Timestamp)
    (result : CloseRunResult) (ds : List (Did Db Exc)) where
  run : Run
  chosen : RunnerStat
  creditedAt : Timestamp
  created : List RunnerStat
  runRead : Db
  channelRead : Db
  ordersRead : Db
  previousRead : Db
  statsRead : Db
  runnerRead : Db
  rest : List (Did Db Exc)
  statements : ds = .read runRead :: .read channelRead :: .read ordersRead :: .read previousRead ::
    .read statsRead :: rest
  rest_eq : rest = created.map (fun s => .wrote (addsStat s)) ++
    [.wrote (setsStat chosen (credited chosen creditedAt)), .read runnerRead,
      .wrote (setsRun run (finalized run chosen.userId now))] ++
    (activeOrders collation run.id ordersRead).map fun p =>
      .wrote (setsOrder p.1 (snapshotted p.1 now))
  id : Uuid.parse request.runId = some run.id
  mem : run ∈ runRead.runs
  wasOpen : run.status = .open
  participates : chosen.userId ∈ participantIds collation run.id ordersRead
  loaded : (chosen ∈ statsRead.runnerStats ∧ chosen.channelId = run.channelId) ∨ chosen ∈ created
  blank : ∀ s ∈ created, s.channelId = run.channelId ∧ s.runsServedCount = 0 ∧
    (OnePerUser run.channelId statsRead.runnerStats → ∀ r ∈ statsRead.runnerStats,
      r.channelId = run.channelId → r.userId ≠ s.userId)
  channelId : result.channelId = run.channelId.str
  runnerUserId : result.runnerUserId = chosen.userId.str
  participants : result.summary.participants =
    (activeOrders collation run.id ordersRead).map fun p => participant p.1 p.2

theorem does_closeRun {result : CloseRunResult}
    (h : (closeRun authorizer collation request now d).Does ds result) :
    Nonempty (Statements collation request now result ds) := by
  simp only [closeRun, Program.does_bind, Program.does_query, does_updating, Program.does_pure] at h
  obtain ⟨_, run, _, hrun, ⟨_, _, _, hcheck, ⟨_, channel, _, hchannel, ⟨_, orders, _, horders,
    ⟨_, _, _, ⟨previousRead, rfl, rfl⟩, ⟨_, decision, _, hassign, ⟨_, runner, _, hrunner,
    ⟨_, _, _, rfl, ⟨_, participants, _, hsnapshot, ⟨rfl, rfl⟩, rfl⟩, rfl⟩, rfl⟩, rfl⟩, rfl⟩, rfl⟩,
    rfl⟩, rfl⟩, rfl⟩ := h
  obtain ⟨runRead, rfl, hid, hmem⟩ := does_getRun hrun
  obtain ⟨hopen, rfl⟩ := does_checkClosable hcheck
  obtain ⟨hch, channelRead, rfl⟩ := does_getChannel hchannel
  obtain ⟨ordersRead, rfl, rfl⟩ := does_loadActiveOrders horders
  have hids : (activeOrders collation run.id ordersRead).map (fun p => Ident.str p.1.userId.str) =
      idents (participantIds collation run.id ordersRead) := by
    rw [participantIds, idents, List.map_map]
    rfl
  rw [hids] at hassign
  obtain ⟨us, stats, chosen, n, statsRead, hus, hloaded, hchosen, hdec, rfl⟩ :=
    does_assignRunner hassign
  obtain ⟨hparse, runnerRead, rfl⟩ := does_getRunner hrunner
  obtain ⟨rfl, rfl⟩ := does_snapshotOrders hsnapshot
  have hrunner : runner.id = chosen.userId := by
    rw [hdec, Uuid.parse_str, Option.some.injEq] at hparse
    exact hparse.symm
  have hnew : ∀ s ∈ newStats channel.id d 0 (missing channel.id us statsRead.runnerStats),
      s.channelId = run.channelId ∧ s.runsServedCount = 0 ∧
        (OnePerUser run.channelId statsRead.runnerStats → ∀ r ∈ statsRead.runnerStats,
          r.channelId = run.channelId → r.userId ≠ s.userId) := by
    rw [hch]
    intro s hs
    obtain ⟨hu, hc, h0, -⟩ := mem_newStats hs
    exact ⟨hc, h0, fun hone => ((mem_missing hone).mp hu).2⟩
  exact ⟨{
    run, chosen, creditedAt := d.clock n
    created := newStats channel.id d 0 (missing channel.id us statsRead.runnerStats)
    runRead, channelRead, ordersRead, previousRead, statsRead, runnerRead
    rest := _
    statements := rfl
    rest_eq := by simp [hrunner]
    id := hid
    mem := hmem
    wasOpen := hopen
    participates := (hus _).mp (hloaded.mem hchosen).2
    loaded := (hloaded.cases hchosen).imp_left fun h => ⟨h.1, hch ▸ h.2.1⟩
    blank := hnew
    channelId := congrArg Uuid.str hch
    runnerUserId := hdec
    participants := rfl }⟩

section Reads
variable {result : CloseRunResult}

theorem Statements.split_ordersRead (st : Statements collation request now result ds) :
    ∃ ds', ds = [.read st.runRead, .read st.channelRead] ++ .read st.ordersRead :: ds' :=
  ⟨_, st.statements⟩

theorem Statements.split_statsRead (st : Statements collation request now result ds) :
    ∃ ds', ds = [.read st.runRead, .read st.channelRead, .read st.ordersRead,
      .read st.previousRead] ++ .read st.statsRead :: ds' := ⟨_, st.statements⟩

end Reads

/-- What the commit of a close leaves, whatever the store holds by then. -/
theorem Statements.written {result : CloseRunResult} (c : Statements collation request now result ds)
    {db db' : Db} (h : applied (writes ds) db = .ok db') :
    ∃ t : Table RunnerStat, t.rows = db.runnerStats.rows ++ c.created ∧ db' = { db with
      runs := db.runs.update c.run (finalized c.run c.chosen.userId now)
      orders := snapshot now db.orders (activeOrders collation c.run.id c.ordersRead)
      runnerStats := t.update c.chosen (credited c.chosen c.creditedAt) } := by
  rw [c.statements, c.rest_eq] at h
  simp only [writes_append, writes_read, writes_nil, writes_wrote, writes_map] at h
  obtain ⟨mid₁, h, horders⟩ := applied_append.mp h
  obtain ⟨mid₂, hcreated, h⟩ := applied_append.mp h
  obtain ⟨t, rfl, ht⟩ := applied_addsStat hcreated
  obtain ⟨mid₃, hstat, h⟩ := applied_cons.mp h
  obtain ⟨mid₄, hrun, h⟩ := applied_cons.mp h
  obtain rfl := Except.ok.inj hstat
  obtain rfl := Except.ok.inj hrun
  obtain rfl := Except.ok.inj h
  exact ⟨t, ht, applied_setsOrder horders⟩

end CloseRunService

/-! ### Calls side by side -/

section Concurrent
variable {ι : Type} [DecidableEq ι] (s : Database) (calls : ι → Call)

/-- The interleavings of the calls, each in a session of its own. -/
abbrev Interleaving (db₀ : Db) : List (World.Move ι Db Exc Answer) → World ι Db Exc Answer → Prop :=
  World.Run Db.Valid .integrityError (World.start db₀ fun i => (calls i).tx s)

variable {s calls}

/-- With no other session in between, a call commits what it does in a history. -/
theorem commits_alone {w : World ι Db Exc Answer} {i : ι} {c : Call} {answer : Answer} {db : Db}
    (hi : w.sessions i = .active [] (c.tx s)) (h : step s w.store (c, .ok answer) db)
    (hv : db.Valid) :
    ∃ es, World.Run Db.Valid .integrityError w es (w.commit i answer db) :=
  World.run_alone hi rfl h hv

theorem statements_of_answer {db₀ : Db} {es : List (World.Move ι Db Exc Answer)}
    {e : World.Move ι Db Exc Answer} (h : Interleaving s calls db₀ es e.before)
    (hstep : World.step Db.Valid .integrityError e.before e.label e.after)
    {authorizer : CloseRunAuthorizer} {request : CloseRunRequest} {now : Timestamp} {d : Draws}
    (hcall : calls e.label = .closeRun authorizer request now d) {answer : Answer}
    (ha : World.answer e = some answer) :
    ∃ result, answer = .closed result ∧ Nonempty (CloseRunService.Statements s.collation request now
      result (World.trail e.label es)) ∧
      applied (writes (World.trail e.label es)) e.before.store = .ok e.after.store ∧
      e.after.store.Valid := by
  obtain ⟨hdoes, hwritten, hvalid⟩ := World.committed_of_answer h hstep ha
  rw [hcall] at hdoes
  simp only [Call.tx, Program.does_bind, Program.does_pure] at hdoes
  obtain ⟨_, result, _, hdoes, ⟨rfl, rfl⟩, htrail⟩ := hdoes
  rw [List.append_nil] at htrail
  exact ⟨result, rfl, htrail ▸ CloseRunService.does_closeRun hdoes, hwritten, hvalid⟩

end Concurrent

/-! ### Two calls -/

namespace Sample

/-- The result of a session that has closed a run. -/
def closedResult : Session Db Exc Answer → Option CloseRunResult
  | .committed (.closed result) => some result
  | _ => none

theorem closedResult_eq_some {x : Session Db Exc Answer} {result : CloseRunResult}
    (h : closedResult x = some result) : x = .committed (.closed result) := by
  unfold closedResult at h
  split at h
  · rw [Option.some.inj h]
  · cases h

/-- Session `true` makes the first call and session `false` the second. -/
def pair (c c' : Call) (i : Bool) : Call := if i then c else c'

def pairStart (db₀ : Db) (c c' : Call) : World Bool Db Exc Answer :=
  World.start db₀ fun i => (pair c c' i).tx database

def pairMoves (db₀ : Db) (c c' : Call) (schedule : List Bool) :
    List (World.Move Bool Db Exc Answer) :=
  World.moves Db.Valid .integrityError (pairStart db₀ c c') schedule

def pairEnd (db₀ : Db) (c c' : Call) (schedule : List Bool) : World Bool Db Exc Answer :=
  World.play Db.Valid .integrityError (pairStart db₀ c c') schedule

theorem interleaving_pair (db₀ : Db) (c c' : Call) (schedule : List Bool) :
    Interleaving database (pair c c') db₀ (pairMoves db₀ c c' schedule)
      (pairEnd db₀ c c' schedule) := World.run_play _ _ _ schedule

end Sample

end CoffeeBuddy

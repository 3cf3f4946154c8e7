import CoffeeBuddy.Library.Path
import CoffeeBuddy.Services.Admin
import CoffeeBuddy.Services.RunSpecs

/-! Sequential histories: service calls one after the other, each a transaction of its
own. A call that raises leaves the tables as it left them, unless a flush failed: then
the session has rolled back. -/

namespace CoffeeBuddy
open Relational Transaction OrderRepository

/-- The columns a new run is created with. -/
structure NewRun where
  id : Uuid
  channelId : Uuid
  initiatorUserId : Uuid
  pickupTime : Option Timestamp
  pickupNote : Option String
  correlationId : String
  now : Timestamp

def NewRun.row (r : NewRun) : Run :=
  { id := r.id, channelId := r.channelId, initiatorUserId := r.initiatorUserId
    runnerUserId := none, status := .open, pickupTime := r.pickupTime, pickupNote := r.pickupNote
    startedAt := r.now, closedAt := none, failureReason := none, correlationId := r.correlationId
    createdAt := r.now, updatedAt := r.now }

/-- What the database itself decides. -/
structure Database where
  collation : Collation
  auditSchema : AuditSchema

/-- A service call with its arguments, the service it is made on and what it draws. -/
inductive Call where
  | createRun (run : NewRun)
  | submitOrder (validator : OrderValidator) (request : OrderSubmissionRequest) (d : Draws)
  | useLastOrder (validator : OrderValidator) (runId userId : String) (d : Draws)
  | cancelOrder (runId userId : String) (d : Draws)
  | closeRun (authorizer : CloseRunAuthorizer) (request : CloseRunRequest) (now : Timestamp)
      (d : Draws)
  | updateChannelConfig (authorizer : SlackAdminAuthorizer) (slackChannelId : String)
      (actor : AdminActor) (patch : ChannelConfigPatch) (d : Draws)
  | setChannelEnabled (authorizer : SlackAdminAuthorizer) (slackChannelId : String)
      (actor : AdminActor) (enabled : Bool) (reason : Option String) (d : Draws)
  | resetChannelData (authorizer : SlackAdminAuthorizer) (slackChannelId : String)
      (actor : AdminActor) (d : Draws)

inductive Answer where
  | created
  | submitted (result : OrderSubmissionResult)
  | usedLast (result : UseLastOrderResult)
  | canceled (result : OrderCancellationResult)
  | closed (result : CloseRunResult)
  | configured (result : ChannelConfigUpdateResult)
  | stateChanged (result : ChannelStateChangeResult)
  | reset (result : DataResetResult)

variable (s : Database)

def Call.tx : Call → Tx Answer
  | .createRun run => do
    insertRun run.row
    return .created
  | .submitOrder v request d => do
    let result ← OrderService.submitOrder v request d
    return .submitted result
  | .useLastOrder v runId userId d => do
    let result ← OrderService.useLastOrder v runId userId d
    return .usedLast result
  | .cancelOrder runId userId d => do
    let result ← OrderService.cancelOrder runId userId d
    return .canceled result
  | .closeRun authorizer request now d => do
    let result ← CloseRunService.closeRun authorizer s.collation request now d
    return .closed result
  | .updateChannelConfig a slackChannelId actor patch d => do
    let result ← AdminService.updateChannelConfig a s.auditSchema slackChannelId actor patch d
    return .configured result
  | .setChannelEnabled a slackChannelId actor enabled reason d => do
    let result ← AdminService.setChannelEnabled a s.auditSchema slackChannelId actor enabled reason d
    return .stateChanged result
  | .resetChannelData a slackChannelId actor d => do
    let result ← AdminService.resetChannelData a s.auditSchema slackChannelId actor d
    return .reset result

/-- A call and what came of it. -/
abbrev Label := Call × Except Exc Answer

def step (db : Db) (l : Label) (db' : Db) : Prop :=
  match l.2 with
  | .ok answer => (l.1.tx s).Returns db answer db'
  | .error e => ∃ t, (l.1.tx s).Raises db e t ∧ db' = if e = .integrityError then db else t

abbrev History := Transition.Path (step s)

abbrev Event := Transition.Event Db Label

/-! ### What an event reports -/

structure Placed where
  runId : String
  userId : String
  result : OrderSubmissionResult
deriving DecidableEq

structure Withdrawn where
  runId : String
  userId : String
  result : OrderCancellationResult
deriving DecidableEq

structure Closing where
  request : CloseRunRequest
  result : CloseRunResult
deriving DecidableEq

/-- What a successful call did; a call that raises reports nothing. -/
inductive Report where
  | nothing
  | placed (order : Placed)
  | withdrawn (order : Withdrawn)
  | closed (run : Closing)
  | configured
  | reset (channelId : String)
deriving DecidableEq

def report : Label → Report
  | (.submitOrder _ request _, .ok (.submitted result)) =>
    .placed ⟨request.runId, request.userId, result⟩
  | (.useLastOrder _ runId userId _, .ok (.usedLast result)) =>
    .placed ⟨runId, userId, result.submission⟩
  | (.cancelOrder runId userId _, .ok (.canceled result)) => .withdrawn ⟨runId, userId, result⟩
  | (.closeRun _ request _ _, .ok (.closed result)) => .closed ⟨request, result⟩
  | (.updateChannelConfig _ _ _ _ _, .ok (.configured _)) => .configured
  | (.setChannelEnabled _ _ _ _ _ _, .ok (.stateChanged _)) => .configured
  | (.resetChannelData _ _ _ _, .ok (.reset result)) => .reset result.channelId
  | _ => .nothing

@[simp] theorem report_error (c : Call) (e : Exc) : report (c, .error e) = .nothing := by
  cases c <;> rfl

@[simp] theorem report_created (run : NewRun) : report (.createRun run, .ok .created) = .nothing :=
  rfl

@[simp] theorem report_closed (authorizer : CloseRunAuthorizer) (request : CloseRunRequest)
    (now : Timestamp) (d : Draws) (result : CloseRunResult) :
    report (.closeRun authorizer request now d, .ok (.closed result)) = .closed ⟨request, result⟩ :=
  rfl

/-- A successful `close_run` on a run of the channel. -/
def closing (channel : Uuid) (l : Label) : Option Closing :=
  match report l with
  | .closed c => if c.result.channelId = channel.str then some c else none
  | _ => none

/-- A successful `reset_channel_data` on the channel. -/
def Resets (channel : Uuid) (l : Label) : Prop := report l = .reset channel.str

instance (channel : Uuid) (l : Label) : Decidable (Resets channel l) :=
  inferInstanceAs (Decidable (_ = _))

theorem closing_eq_some {channel : Uuid} {l : Label} {c : Closing} :
    closing channel l = some c ↔ report l = .closed c ∧ c.result.channelId = channel.str := by
  unfold closing
  split
  · rename_i c' hc
    rw [hc, Report.closed.injEq]
    split_ifs with hch
    · rw [Option.some.injEq]
      exact ⟨fun h => ⟨h, h ▸ hch⟩, And.left⟩
    · refine iff_of_false not_false ?_
      rintro ⟨rfl, h⟩
      exact hch h
  · rename_i hc
    exact iff_of_false (Option.some_ne_none c).symm fun h => hc c h.1

/-! ### What a step can do -/

inductive Effect (db : Db) : Label → Db → Prop
  | failed (c : Call) (e : Exc) : Effect db (c, .error e) db
  | created (run : NewRun) (runs : Table Run) : db.runs.insert run.row = some runs →
      Effect db (.createRun run, .ok .created) { db with runs := runs }
  | ordered (l : Label) (p : Placed) (run : Run) (user : User) (confirm : Bool) (now : Timestamp)
      (order : Order) (orders : Table Order) (prefs : Table UserPreference) :
      report l = .placed p → Uuid.parse p.runId = some run.id → run ∈ db.runs → run.status = .open →
      Uuid.parse p.userId = some user.id → user ∈ db.users →
      Upserted db.orders run.id user.id p.result.orderText confirm p.result.provenance now order
        orders →
      p.result.participantCount = orders.count (activeIn run.id) →
      Effect db l { db with orders := orders, userPreferences := prefs }
  | canceled (l : Label) (w : Withdrawn) (run : Run) (user : User) (o : Order) (now : Timestamp)
      (orders : Table Order) :
      report l = .withdrawn w → Uuid.parse w.runId = some run.id → run ∈ db.runs →
      run.status = .open → Uuid.parse w.userId = some user.id → user ∈ db.users →
      db.orders.rows.find? (ofPair run.id user.id) = some o → o.canceledAt = none →
      orders = db.orders.update o { o with canceledAt := some now, updatedAt := now } →
      w.result.participantCount = orders.count (activeIn run.id) →
      Effect db l { db with orders := orders }
  | closed (authorizer : CloseRunAuthorizer) (request : CloseRunRequest) (now : Timestamp)
      (d : Draws) (result : CloseRunResult) (db' : Db) :
      (CloseRunService.closeRun authorizer s.collation request now d).Returns db result db' →
      Effect db (.closeRun authorizer request now d, .ok (.closed result)) db'
  | idle (l : Label) : report l = .configured → Effect db l db
  | configured (l : Label) (channel modified : Channel) (actions : Table ChannelAdminAction) :
      report l = .configured → channel ∈ db.channels → modified.id = channel.id →
      Effect db l { db with
        channels := db.channels.update channel modified, channelAdminActions := actions }
  | reset (l : Label) (channel modified : Channel) (actions : Table ChannelAdminAction) :
      report l = .reset channel.id.str → channel ∈ db.channels → modified.id = channel.id →
      Effect db l { AdminService.purged channel.id db with
        channels := db.channels.update channel modified, channelAdminActions := actions }

section Steps
variable {s} {db db' : Db} {l : Label}

/-- A call that raises changes nothing, or its session rolled back. -/
theorem failed_step {c : Call} {e : Exc} (h : step s db (c, .error e) db') : db' = db := by
  obtain ⟨t, h, rfl⟩ := h
  split_ifs with he
  · rfl
  have hclean : ∀ {α : Type} {p : Tx α} {f : α → Answer}, p.FailsClean Exc.Raised db →
      (do let a ← p; return f a : Tx Answer).Raises db e t → t = db := by
    intro α p f hp h
    exact hp e t (Program.raises_bind_pure.mp h) he
  cases c with
  | createRun run =>
    simp only [Call.tx, Program.raises_bind, raises_inserting, Program.raises_pure, and_false,
      exists_false, or_false] at h
    exact absurd h.2.1 he
  | submitOrder v request d => exact hclean (OrderService.submitOrder_failsClean _) h
  | useLastOrder v runId userId d => exact hclean (OrderService.useLastOrder_failsClean _ _) h
  | cancelOrder runId userId d => exact hclean (OrderService.cancelOrder_failsClean _ _) h
  | closeRun authorizer request now d => exact hclean CloseRunService.closeRun_failsClean h
  | updateChannelConfig a slackChannelId actor patch d =>
    exact hclean (AdminService.updateChannelConfig_failsClean _) h
  | setChannelEnabled a slackChannelId actor enabled reason d =>
    exact hclean (AdminService.setChannelEnabled_failsClean _ _) h
  | resetChannelData a slackChannelId actor d => exact hclean AdminService.resetChannelData_failsClean h

theorem apply_updates {α : Type} {f : Channel → α} (h : ∀ c u, f (ConfigUpdate.apply c u) = f c)
    (updates : List ConfigUpdate) (c : Channel) : f (updates.foldl ConfigUpdate.apply c) = f c := by
  induction updates generalizing c with
  | nil => rfl
  | cons u updates ih => rw [List.foldl_cons, ih, h]

theorem apply_updates_id (updates : List ConfigUpdate) (c : Channel) :
    (updates.foldl ConfigUpdate.apply c).id = c.id :=
  apply_updates (f := Channel.id) (fun _ u => by cases u <;> rfl) updates c

theorem apply_updates_slackChannelId (updates : List ConfigUpdate) (c : Channel) :
    (updates.foldl ConfigUpdate.apply c).slackChannelId = c.slackChannelId :=
  apply_updates (f := Channel.slackChannelId) (fun _ u => by cases u <;> rfl) updates c

theorem ordersOf_purged {channel : Uuid} {run : Run} (hrun : run ∈ db.runs)
    (hne : run.channelId ≠ channel) :
    ordersOf run.id (AdminService.purged channel db) = ordersOf run.id db := by
  apply Table.select_delete
  intro o _ ho
  exact AdminService.orderOfChannel_eq_false hrun hne (ofRun_iff.mp ho)

theorem effect_of_ok {c : Call} {answer : Answer} (h : (c.tx s).Returns db answer db') :
    Effect s db (c, .ok answer) db' := by
  cases c with
  | createRun run =>
    simp only [Call.tx, Program.returns_bind, returns_inserting, Program.returns_pure] at h
    obtain ⟨_, _, ⟨t, ht, rfl⟩, rfl, rfl⟩ := h
    exact .created run t ht
  | submitOrder v request d =>
    obtain ⟨res, hcall, rfl⟩ := Program.returns_bind_pure.mp h
    obtain ⟨run, user, text, hr, hrun, ho, hu, huser, -, hpersist⟩ :=
      OrderService.returns_submitOrder hcall
    obtain ⟨order, orders, prefs, hup, -, rfl, rfl⟩ := OrderService.returns_persistOrder hpersist
    exact .ordered _ ⟨request.runId, request.userId, _⟩ run user _ _ order orders prefs rfl hr hrun ho hu huser hup rfl
  | useLastOrder v runId userId d =>
    obtain ⟨res, hcall, rfl⟩ := Program.returns_bind_pure.mp h
    obtain ⟨run, user, p, text, mid, hr, hrun, ho, hu, huser, -, -, hp, q, -, -, rfl⟩ :=
      OrderService.returns_useLastOrder hcall
    obtain ⟨order, orders, prefs, hup, -, rfl, hres⟩ := OrderService.returns_persistOrder hp
    have hup' : Upserted db.orders run.id user.id res.submission.orderText true
        res.submission.provenance (d.clock 0) order orders := by
      rw [hres]
      exact hup
    exact .ordered _ ⟨runId, userId, res.submission⟩ run user true _ order orders _ rfl hr hrun ho hu
      huser hup' (by rw [hres])
  | cancelOrder runId userId d =>
    obtain ⟨res, hcall, rfl⟩ := Program.returns_bind_pure.mp h
    obtain ⟨run, user, o, orders, hr, hrun, ho, hu, huser, hf, hc, hup, rfl, rfl⟩ :=
      OrderService.returns_cancelOrder.mp hcall
    exact .canceled _ ⟨runId, userId, _⟩ run user o _ orders rfl hr hrun ho hu huser hf hc hup rfl
  | closeRun authorizer request now d =>
    obtain ⟨res, hcall, rfl⟩ := Program.returns_bind_pure.mp h
    exact .closed authorizer request now d res _ hcall
  | updateChannelConfig a slackChannelId actor patch d =>
    obtain ⟨res, hcall, rfl⟩ := Program.returns_bind_pure.mp h
    obtain ⟨channel, updates, hc, -, -, -, -, ⟨-, rfl⟩ | ⟨-, t, -, rfl⟩⟩ :=
      AdminService.returns_updateChannelConfig hcall
    · exact .idle _ rfl
    · exact .configured _ channel _ t rfl hc (apply_updates_id updates channel)
  | setChannelEnabled a slackChannelId actor enabled reason d =>
    obtain ⟨res, hcall, rfl⟩ := Program.returns_bind_pure.mp h
    obtain ⟨channel, details, t, hc, -, -, -, -, -, rfl⟩ := AdminService.returns_setChannelEnabled hcall
    exact .configured _ channel _ t rfl hc rfl
  | resetChannelData a slackChannelId actor d =>
    obtain ⟨res, hcall, rfl⟩ := Program.returns_bind_pure.mp h
    obtain ⟨channel, t, hc, -, -, -, hid, -, rfl⟩ := AdminService.returns_resetChannelData hcall
    exact .reset _ channel _ t (congrArg Report.reset hid) hc rfl

theorem effect_of_step (h : step s db l db') : Effect s db l db' := by
  obtain ⟨c, e | answer⟩ := l
  · obtain rfl := failed_step h
    exact .failed c e
  · exact effect_of_ok h

theorem Effect.returns_closeRun (he : Effect s db l db') {c : Closing} (hc : report l = .closed c) :
    ∃ authorizer now d, (CloseRunService.closeRun authorizer s.collation c.request now d).Returns
      db c.result db' := by
  cases he with
  | closed authorizer request now d result db' hclose =>
    obtain rfl := Report.closed.inj hc
    exact ⟨authorizer, now, d, hclose⟩
  | failed | created => simp at hc
  | ordered | canceled | idle | configured | reset => simp_all

/-- The count a successful call returns is that of the table it leaves. -/
theorem Effect.count_placed (he : Effect s db l db') {p : Placed} (hp : report l = .placed p)
    {r : Uuid} (hr : Uuid.parse p.runId = some r) :
    p.result.participantCount = db'.orders.count (activeIn r) := by
  cases he with
  | ordered l p' run user confirm now order orders prefs hp' hr' hrun ho hu huser hup hn =>
    obtain rfl := Report.placed.inj (hp'.symm.trans hp)
    rw [hn, Option.some.inj (hr'.symm.trans hr)]
  | failed | created | closed => simp at hp
  | canceled | idle | configured | reset => simp_all

theorem Effect.count_withdrawn (he : Effect s db l db') {w : Withdrawn}
    (hw : report l = .withdrawn w) {r : Uuid} (hr : Uuid.parse w.runId = some r) :
    w.result.participantCount = db'.orders.count (activeIn r) := by
  cases he with
  | canceled l w' run user o now orders hw' hr' hrun ho hu huser hf hc hup hn =>
    obtain rfl := Report.withdrawn.inj (hw'.symm.trans hw)
    rw [hn, Option.some.inj (hr'.symm.trans hr)]
  | failed | created | closed => simp at hw
  | ordered | idle | configured | reset => simp_all

end Steps

/-! ### Running calls -/

def perform (c : Call) (db : Db) : Except Exc Answer × Db :=
  match (c.tx s).exec db with
  | (.ok answer, t) => (.ok answer, t)
  | (.error e, t) => (.error e, if e = .integrityError then db else t)

def occurrence (c : Call) (db : Db) : Event := ⟨db, (c, (perform s c db).1), (perform s c db).2⟩

def replay : Db → List Call → List Event
  | _, [] => []
  | db, c :: cs => occurrence s c db :: replay (occurrence s c db).after cs

def finalDb (db : Db) (cs : List Call) : Db :=
  cs.foldl (fun db c => (perform s c db).2) db

theorem step_perform (c : Call) (db : Db) :
    step s db (c, (perform s c db).1) (perform s c db).2 := by
  unfold perform
  rcases h : (c.tx s).exec db with ⟨e | answer, t⟩
  · exact ⟨t, h, rfl⟩
  · exact h

theorem history_occurrence {db₀ db : Db} {es : List Event} (h : History s db₀ es db) (c : Call) :
    History s db₀ (es ++ [occurrence s c db]) (occurrence s c db).after :=
  .snoc h (step_perform s c db)

theorem history_replay (db : Db) (cs : List Call) :
    History s db (replay s db cs) (finalDb s db cs) := by
  induction cs generalizing db with
  | nil => exact .nil
  | cons c cs ih =>
    exact Transition.Path.append_iff.mpr ⟨_, history_occurrence s .nil c, ih _⟩

/-! ### A channel with two users -/

namespace Sample

def user (n : ℕ) (name : String) : User :=
  { id := .ofNat n, slackUserId := name, displayName := name, isActive := true, createdAt := 0
    updatedAt := 0 }

def alice : User := user 1 "alice"

def bob : User := user 2 "bob"

def channel : Channel :=
  { id := .ofNat 7, slackChannelId := "C7", name := "coffee", enabled := true
    reminderOffsetMinutes := 5, fairnessWindowRuns := 1, dataRetentionDays := 90
    remindersEnabled := true, lastCallEnabled := true, lastCallLeadMinutes := none
    lastResetAt := none, createdAt := 0, updatedAt := 0 }

/-- Its audit schema takes every row, also one without `created_at`, which the schema of the
repository refuses. -/
def database : Database := ⟨.binary, fun _ _ => true⟩

def db : Db :=
  { users := ⟨[alice, bob], by decide⟩, channels := ⟨[channel], by decide⟩, runs := .empty
    orders := .empty, userPreferences := .empty, runnerStats := .empty
    channelAdminActions := .empty }

def draws (n : ℕ) : Draws := ⟨fun i => n + i, fun i => .ofNat (1000 * n + i)⟩

def newRun (n : ℕ) : NewRun :=
  { id := .ofNat n, channelId := channel.id, initiatorUserId := alice.id, pickupTime := none
    pickupNote := none, correlationId := "", now := 0 }

/-- Run 11 is open. -/
def opened : Db := { db with runs := ⟨[(newRun 11).row], by decide⟩ }

def twoOpened : Db := { db with runs := ⟨[(newRun 11).row, (newRun 12).row], by decide⟩ }

def order (n : ℕ) (u : User) : Order :=
  { id := .ofNat (100 * n + u.id.int), runId := .ofNat n, userId := u.id, orderText := "latte"
    isFinal := true, provenance := "manual", canceledAt := none, createdAt := 0, updatedAt := 0 }

/-- Run 11 is open, and alice and bob have ordered in it. -/
def bothOrdered : Db := { opened with orders := ⟨[order 11 alice, order 11 bob], by decide⟩ }

/-- `u` orders in run `n` at time `t`. -/
def submit (t n : ℕ) (u : User) : Call :=
  .submitOrder {} { runId := (Uuid.ofNat n).str, userId := u.id.str, orderText := "latte" }
    (draws t)

def cancel (t n : ℕ) (u : User) : Call := .cancelOrder (Uuid.ofNat n).str u.id.str (draws t)

def close (t n : ℕ) (allowImmediateRepeat : Bool) : Call :=
  .closeRun (fun _ _ => true) { runId := (Uuid.ofNat n).str, actorUserId := "", allowImmediateRepeat }
    t (draws t)

/-- An admin of the workspace who is a stored user. -/
def storedAdmin : AdminActor := { userId := alice.id.str, slackUserId := "U1" }

def disabling : Call :=
  .setChannelEnabled (.init id ["U1"] []) "C7" storedAdmin false none (draws 1)

end Sample
end CoffeeBuddy

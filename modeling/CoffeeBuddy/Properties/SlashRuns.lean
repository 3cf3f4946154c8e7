import CoffeeBuddy.Properties.RunEvents
import CoffeeBuddy.Services.Acceptance
import CoffeeBuddy.Services.History
import CoffeeBuddy.SlackRuns.Storage

/-! The run of a slash command against the services that take its orders and close it. The
row carries Slack ids where the schema and the services have UUID keys, so the two agree
only where a Slack id happens to spell the key of its own row. -/

namespace CoffeeBuddy
open Relational Transaction

/-- The run is there for its channel and its initiator, is found open, and an order by a
stored user and then an authorized close go through on it. -/
structure Usable (c : SlashCommand) (channel : Channel) (user : User) (db : Db) : Prop where
  row : ∃ run ∈ db.runs, run.id = c.runId ∧ run.channelId = channel.id ∧
    run.initiatorUserId = user.id
  found : ∃ run, (RunRepository.getOpenRun (.str c.runId.str)).Returns db run db
  completes : ∀ (v : OrderValidator) (request : OrderSubmissionRequest) (text : String)
    (orderer : User) (d : Draws), Uuid.parse request.runId = some c.runId →
    orderer ∈ db.users → Uuid.parse request.userId = some orderer.id →
    v.validate request.orderText = .ok text → d.Fresh db →
    ∃ result mid, (OrderService.submitOrder v request d).Returns db result mid ∧
      ∀ (authorizer : CloseRunAuthorizer) (collation : Collation) (closing : CloseRunRequest)
        (now : Timestamp) (d' : Draws), Uuid.parse closing.runId = some c.runId →
        (∀ run ∈ mid.runs, run.id = c.runId → authorizer run closing.actorUserId = true) →
        d'.Fresh mid → ∃ closed after,
          (CloseRunService.closeRun authorizer collation closing now d').Returns mid closed after

section Usable
variable {db : Db} {c : SlashCommand} {channel : Channel} {user : User} {run : Run}

/-- An open run of a database with the schema can be ordered in and closed. -/
theorem usable_of_open (hm : db.Meets) (hrun : run ∈ db.runs) (hid : run.id = c.runId)
    (hopen : run.status = .open) (hchannel : run.channelId = channel.id)
    (huser : run.initiatorUserId = user.id) : Usable c channel user db := by
  refine ⟨⟨run, hrun, hid, hchannel, huser⟩, ⟨run, ?_⟩, ?_⟩
  · rw [RunRepository.returns_getOpenRun, Ident.asUuid_str, hid]
    exact ⟨rfl, hrun, hopen, rfl⟩
  intro v request text orderer d hr horderer hu hv hd
  rw [← hid] at hr
  obtain ⟨result, mid, hsubmit⟩ := submitOrder_succeeds hd hr hrun hopen hu horderer hv
  refine ⟨result, mid, hsubmit, ?_⟩
  intro authorizer collation closing now d' hclosing hauthorized hd'
  have hmid : mid.Meets := (accepted_submitOrder hm hd).returns hm hsubmit
  obtain ⟨run', orderer', text', hr', hrun', -, hu', horderer', -, hpersist⟩ :=
    OrderService.returns_submitOrder hsubmit
  obtain ⟨order, orders, prefs, hup, -, rfl, -⟩ := OrderService.returns_persistOrder hpersist
  have hsame : run'.id = run.id := Option.some.inj (hr'.symm.trans hr)
  -- the order just placed is active
  have hactive : (order, orderer') ∈ CloseRunService.activeOrders collation run.id
      { db with orders := orders, userPreferences := prefs } := by
    refine CloseRunService.mem_activeOrders.mpr
      ⟨hup.mem, hup.runId.trans hsame, hup.canceledAt, horderer', hup.userId.symm⟩
  have hne := List.ne_nil_of_mem hactive
  rw [← hid] at hclosing
  exact closeRun_succeeds hmid hd' hclosing hrun hopen (hauthorized run hrun hid) hne

variable {uuidIn : String → Option Uuid}

/-- The row of a command whose Slack ids spell the keys of a stored channel and user. -/
theorem insertStored_of_spelled (huuid : ∀ u : Uuid, uuidIn u.str = some u)
    (hnew : ∀ run ∈ db.runs, run.id ≠ c.runId) (hc : channel ∈ db.channels) (hu : user ∈ db.users)
    (hchannel : uuidIn c.command.channelId = some channel.id)
    (huser : uuidIn c.command.userId = some user.id) :
    ∃ row runs, insertStored uuidIn c.run db = some { db with runs } ∧ row ∈ runs ∧
      row.id = c.runId ∧ row.status = .open ∧ row.channelId = channel.id ∧
      row.initiatorUserId = user.id := by
  obtain ⟨row, hrow⟩ : ∃ row, storedRun uuidIn c.run = some row := by
    refine Option.isSome_iff_exists.mp ?_
    simp only [storedRun, SlashCommand.run, huuid, hchannel, huser, RunStatus.ofText]
    rfl
  obtain ⟨hid, hch, hin, hstatus, -⟩ := storedRun_eq_some hrow
  have hid : row.id = c.runId := Option.some.inj (hid.symm.trans (huuid c.runId))
  have hch : row.channelId = channel.id := Option.some.inj (hch.symm.trans hchannel)
  have hin : row.initiatorUserId = user.id := Option.some.inj (hin.symm.trans huser)
  have hopen : row.status = .open := Option.some.inj hstatus.symm
  have hfree : ∀ run ∈ db.runs, Keyed.key run ≠ Keyed.key row := fun run hrun hkey =>
    hnew run hrun (hkey.trans hid)
  obtain ⟨runs, hruns⟩ := Table.exists_insert hfree
  refine ⟨row, runs, ?_, (Table.mem_insert hruns).mpr (Or.inr rfl), hid, hopen, hch, hin⟩
  exact insertStored_eq_some.mpr ⟨row, runs, hrow, ⟨channel, hc, hch.symm⟩, ⟨user, hu, hin.symm⟩,
    hruns, rfl⟩

/-- A run that is new after a command is the row of the command, and the command finished. -/
theorem row_of_served {p : Platform Db} (hnew : ∀ run ∈ p.db.runs, run.id ≠ c.runId)
    (hrun : run ∈ (serve (insertStored uuidIn) c p).2.db.runs) (hid : run.id = c.runId) :
    storedRun uuidIn c.run = some run ∧ c.Finishes := by
  by_cases hpublishes : c.Publishes (insertStored uuidIn) p
  · obtain ⟨db', hdb'⟩ := Option.isSome_iff_exists.mp hpublishes.2.2.1
    obtain ⟨hdone, hundone⟩ := serve_of_publishes hpublishes hdb'
    by_cases hfinishes : c.Finishes
    · rw [hdone hfinishes] at hrun
      obtain ⟨row, runs, hrow, -, -, hruns, rfl⟩ := insertStored_eq_some.mp hdb'
      rcases (Table.mem_insert hruns).mp hrun with hold | rfl
      · exact absurd hid (hnew run hold)
      · exact ⟨hrow, hfinishes⟩
    · rw [hundone hfinishes] at hrun
      exact absurd hid (hnew run hrun)
  · rw [serve_of_not_publishes hpublishes] at hrun
    exact absurd hid (hnew run hrun)

end Usable

theorem slash_run_usable_iff (uuidIn : String → Option Uuid)
    (huuid : ∀ u : Uuid, uuidIn u.str = some u) (p : Platform Db) (hm : p.db.Meets)
    (c : SlashCommand) (herrors : c.options.hasErrors = false) (hfaults : c.faults = {})
    (hnew : ∀ run ∈ p.db.runs, run.id ≠ c.runId) (channel : Channel) (hc : channel ∈ p.db.channels)
    (hchannel : channel.slackChannelId = c.command.channelId) (user : User)
    (hu : user ∈ p.db.users) (huser : user.slackUserId = c.command.userId) :
    Usable c channel user (serve (insertStored uuidIn) c p).2.db ↔
      uuidIn channel.slackChannelId = some channel.id ∧ uuidIn user.slackUserId = some user.id ∧
      SlackMessageBuilder.Displayable c.options.pickupTime := by
  rw [hchannel, huser]
  constructor
  · intro h
    obtain ⟨run, hrun, hid, hch, hin⟩ := h.row
    obtain ⟨hrow, -, hdisplay⟩ := row_of_served hnew hrun hid
    obtain ⟨-, hrch, hrin, -⟩ := storedRun_eq_some hrow
    rw [hch] at hrch
    rw [hin] at hrin
    exact ⟨hrch, hrin, hdisplay⟩
  · rintro ⟨hch, hin, hdisplay⟩
    obtain ⟨row, runs, hinsert, hrow, hid, hopen, hrch, hrin⟩ :=
      insertStored_of_spelled huuid hnew hc hu hch hin
    have hpublishes : c.Publishes (insertStored uuidIn) p := by
      refine ⟨herrors, ?_, ?_, ?_⟩
      · rw [hfaults]
      · rw [hinsert]
        rfl
      · rw [hfaults]
    have hfinishes : c.Finishes := ⟨by rw [hfaults], hdisplay⟩
    rw [(serve_of_publishes hpublishes hinsert).1 hfinishes]
    exact usable_of_open (meets_insertStored hm hinsert) hrow hid hopen hrch hrin

/-! ### Two commands -/

namespace Sample

/-- A command of user `u` in channel `ch`, by their Slack ids. -/
def commandIn (ch : Channel) (u : User) : SlashCommand :=
  { command := { channelId := ch.slackChannelId, userId := u.slackUserId }, options := {}
    now := morning, runId := .ofNat 21, correlationId := .ofNat 22 }

/-- A channel and a user whose Slack ids are the digits of their keys. -/
def spelledChannel : Channel := { channel with slackChannelId := "00000000000000000000000000000007" }

def spelledUser : User := { alice with slackUserId := "00000000000000000000000000000001" }

def spelledDb : Db :=
  { db with users := ⟨[spelledUser], by decide⟩, channels := ⟨[spelledChannel], by decide⟩ }

theorem meets_db : db.Meets := ⟨by decide, by decide, by decide⟩

theorem meets_spelledDb : spelledDb.Meets := ⟨by decide, by decide, by decide⟩

end Sample

open Sample in
theorem slash_run_usable_iff_spelled :
    Usable (commandIn spelledChannel spelledUser) spelledChannel spelledUser
      (serve (insertStored Uuid.parse) (commandIn spelledChannel spelledUser)
        ⟨spelledDb, []⟩).2.db ↔
    Uuid.parse spelledChannel.slackChannelId = some spelledChannel.id ∧
    Uuid.parse spelledUser.slackUserId = some spelledUser.id ∧
    SlackMessageBuilder.Displayable none :=
  slash_run_usable_iff Uuid.parse Uuid.parse_str ⟨spelledDb, []⟩ meets_spelledDb
    (commandIn spelledChannel spelledUser) rfl rfl (fun _ h => absurd h List.not_mem_nil)
    spelledChannel List.mem_cons_self rfl spelledUser List.mem_cons_self rfl

open Sample in
/-- A registered channel and a registered user, and nothing to order against. -/
theorem slash_run_not_usable : db.Meets ∧ channel ∈ db.channels ∧ alice ∈ db.users ∧
    channel.slackChannelId = (commandIn channel alice).command.channelId ∧
    alice.slackUserId = (commandIn channel alice).command.userId ∧
    (commandIn channel alice).options.hasErrors = false ∧ (commandIn channel alice).faults = {} ∧
    ¬Usable (commandIn channel alice) channel alice
      (serve (insertStored Uuid.parse) (commandIn channel alice) ⟨db, []⟩).2.db := by
  refine ⟨meets_db, List.mem_cons_self, List.mem_cons_self, rfl, rfl, rfl, rfl, fun h => ?_⟩
  obtain ⟨run, hrun, hid, hch, -⟩ := h.row
  obtain ⟨hrow, -⟩ := row_of_served (fun _ h => absurd h List.not_mem_nil) hrun hid
  obtain ⟨-, hchannel, -⟩ := storedRun_eq_some hrow
  have hslack : Uuid.parse (commandIn channel alice).run.channelId = none := by decide
  exact absurd (hslack.symm.trans hchannel) (Option.some_ne_none _).symm

end CoffeeBuddy

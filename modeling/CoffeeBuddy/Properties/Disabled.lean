import CoffeeBuddy.Properties.SlashRuns

/-! What is recorded for a channel that is disabled. Neither the slash commands nor the
order service read the flag, so exactly the requests that pass their other checks are
recorded while it is off. -/

namespace CoffeeBuddy
open Relational Transaction PreferenceService

/-- A service call with its outcome, or a slash command. -/
inductive Intake where
  | call (l : Label)
  | slash (c : SlashCommand)

section Intake
variable (s : Database) (insert : Models.Run → Db → Option Db)

def intakeStep (p : Platform Db) (i : Intake) (q : Platform Db) : Prop :=
  match i with
  | .call l => step s p.db l q.db ∧ q.topic = p.topic
  | .slash c => q = (serve insert c p).2

/-- An order call on a run of the channel. -/
def OrdersIn (channel : Uuid) (db : Db) : Call → Prop
  | .submitOrder _ request _ =>
    ∃ run ∈ db.runs, Uuid.parse request.runId = some run.id ∧ run.channelId = channel
  | .useLastOrder _ runId _ _ =>
    ∃ run ∈ db.runs, Uuid.parse runId = some run.id ∧ run.channelId = channel
  | _ => False

/-- A slash command in the channel, or an order in one of its runs. -/
def Concerns (channel : Channel) (p : Platform Db) : Intake → Prop
  | .call l => OrdersIn channel.id p.db l.1
  | .slash c => c.command.channelId = channel.slackChannelId

/-- The order call passes its checks and remembers the order. -/
def Call.Remembers (db : Db) : Call → Prop
  | .submitOrder v request _ => request.confirm = true ∧ ∃ run ∈ db.runs, ∃ user ∈ db.users,
      Uuid.parse request.runId = some run.id ∧ run.status = .open ∧
      Uuid.parse request.userId = some user.id ∧ ∃ text, v.validate request.orderText = .ok text
  | .useLastOrder v runId userId _ => ∃ run ∈ db.runs, ∃ user ∈ db.users,
      Uuid.parse runId = some run.id ∧ run.status = .open ∧ Uuid.parse userId = some user.id ∧
      ∃ p text, db.userPreferences.rows.find? (ofUser user.id run.channelId) = some p ∧
        v.validate p.lastOrderText = .ok text
  | _ => False

def Recorded (p : Platform Db) : Intake → Prop
  | .call l => l.1.Remembers p.db
  | .slash c => c.Publishes insert p

abbrev IntakeEvent := Transition.Event (Platform Db) Intake

/-- No run, no event of a run; for an order, no change of a preference. -/
def Unrecorded (e : IntakeEvent) : Prop :=
  match e.label with
  | .call _ => e.after.db.userPreferences = e.before.db.userPreferences
  | .slash _ => e.after.db.runs = e.before.db.runs ∧ e.after.topic = e.before.topic

/-- Nothing is recorded for a disabled channel. -/
def Silent (e : IntakeEvent) : Prop :=
  ∀ channel ∈ e.before.db.channels, channel.enabled = false →
    Concerns channel e.before e.label → Unrecorded e

/-- What comes in for a disabled channel fails a check of its own. -/
def Spared (e : IntakeEvent) : Prop :=
  ∀ channel ∈ e.before.db.channels, channel.enabled = false →
    Concerns channel e.before e.label → ¬Recorded insert e.before e.label

def orderDraws : Call → Option Draws
  | .submitOrder _ _ d | .useLastOrder _ _ _ d => some d
  | _ => none

/-- The ids of an order call are new and its clock is ahead of the stored preferences. -/
def Current (e : IntakeEvent) : Prop :=
  match e.label with
  | .call l => ∀ d ∈ orderDraws l.1, d.Fresh e.before.db ∧
      ∀ p ∈ e.before.db.userPreferences, ∀ n, p.updatedAt < d.clock n
  | .slash _ => True

end Intake

section Steps
variable {s : Database} {insert : Models.Run → Db → Option Db} {db db' : Db}

/-- An order call that returns has passed the checks; unconfirmed, it leaves the preferences. -/
theorem remembers_of_returns {c : Call} {answer : Answer} {channel : Uuid}
    (h : (c.tx s).Returns db answer db') (hin : OrdersIn channel db c) :
    db'.userPreferences = db.userPreferences ∨ c.Remembers db := by
  cases c with
  | submitOrder v request d =>
    obtain ⟨result, h, -⟩ := Program.returns_bind_pure.mp h
    obtain ⟨run, user, text, hr, hrun, ho, hu, huser, hv, hpersist⟩ :=
      OrderService.returns_submitOrder h
    obtain ⟨order, orders, prefs, -, hprefs, rfl, -⟩ := OrderService.returns_persistOrder hpersist
    rcases hprefs with ⟨-, rfl⟩ | ⟨hconfirm, -⟩
    · exact Or.inl rfl
    · exact Or.inr ⟨hconfirm, run, hrun, user, huser, hr, ho, hu, text, hv⟩
  | useLastOrder v runId userId d =>
    obtain ⟨result, h, -⟩ := Program.returns_bind_pure.mp h
    obtain ⟨run, user, p, text, mid, hr, hrun, ho, hu, huser, hp, hv, -⟩ :=
      OrderService.returns_useLastOrder h
    exact Or.inr ⟨run, hrun, user, huser, hr, ho, hu, p, text, hp, hv⟩
  | createRun | cancelOrder | closeRun | updateChannelConfig | setChannelEnabled
    | resetChannelData => exact hin.elim

theorem unrecorded_of_spared {e : IntakeEvent} (hstep : intakeStep s insert e.before e.label e.after)
    {channel : Channel} (hconcerns : Concerns channel e.before e.label)
    (hnot : ¬Recorded insert e.before e.label) : Unrecorded e := by
  obtain ⟨p, i, q⟩ := e
  cases i with
  | slash c =>
    have hq : q = p := hstep.trans (serve_of_not_publishes hnot)
    show q.db.runs = p.db.runs ∧ q.topic = p.topic
    rw [hq]
    exact ⟨rfl, rfl⟩
  | call l =>
    obtain ⟨c, error | answer⟩ := l
    · exact congrArg Db.userPreferences (failed_step hstep.1)
    · rcases remembers_of_returns hstep.1 hconcerns with hkept | hremembers
      · exact hkept
      · exact absurd hremembers hnot

/-- A remembered order leaves a preference with a stamp of its own. -/
theorem stamped_of_remembers {c : Call} {d : Draws} (hd : orderDraws c = some d)
    (hfresh : d.Fresh db) (h : c.Remembers db) : ∃ answer after, (c.tx s).Returns db answer after ∧
      ∃ p ∈ after.userPreferences, ∃ n, p.updatedAt = d.clock n := by
  cases c with
  | submitOrder v request d =>
    obtain rfl := Option.some.inj hd
    obtain ⟨hconfirm, run, hrun, user, huser, hr, ho, hu, text, hv⟩ := h
    obtain ⟨result, after, hreturns⟩ := submitOrder_succeeds hfresh hr hrun ho hu huser hv
    refine ⟨.submitted result, after, Program.returns_bind_pure.mpr ⟨result, hreturns, rfl⟩, ?_⟩
    obtain ⟨run, user, text, -, -, -, -, -, -, hpersist⟩ := OrderService.returns_submitOrder hreturns
    obtain ⟨order, orders, prefs, -, hprefs, rfl, -⟩ := OrderService.returns_persistOrder hpersist
    rcases hprefs with ⟨hunconfirmed, -⟩ | ⟨-, p, hp⟩
    · rw [hconfirm] at hunconfirmed
      cases hunconfirmed
    · exact ⟨p, hp.mem, 1, hp.updatedAt⟩
  | useLastOrder v runId userId d =>
    obtain rfl := Option.some.inj hd
    obtain ⟨run, hrun, user, huser, hr, ho, hu, p, text, hp, hv⟩ := h
    obtain ⟨result, after, hreturns⟩ := useLastOrder_succeeds hfresh hr hrun ho hu huser hp hv
    refine ⟨.usedLast result, after, Program.returns_bind_pure.mpr ⟨result, hreturns, rfl⟩, ?_⟩
    obtain ⟨run, user, p, text, mid, -, -, -, -, -, hp, -, hpersist, q, hq, -, rfl⟩ :=
      OrderService.returns_useLastOrder hreturns
    obtain ⟨order, orders, prefs, -, hprefs, rfl, -⟩ := OrderService.returns_persistOrder hpersist
    rcases hprefs with ⟨hunconfirmed, -⟩ | ⟨-, r, hr⟩
    · cases hunconfirmed
    -- the row marked as used is the one the order has just written
    have hqr : q = r := by
      have hfind : prefs.find? r.id = some r := Table.find?_key hr.mem
      rw [hq, ← hr.id_eq hp]
      exact congrArg (Option.getD · p) hfind
    subst hqr
    let marked : UserPreference := { q with lastUsedAt := some (d.clock 2), updatedAt := d.clock 2 }
    have hkey : marked.id = q.id := rfl
    have hmarked : marked ∈ prefs.update q marked :=
      (Table.mem_update hr.mem hkey).mpr (Or.inl rfl)
    exact ⟨marked, hmarked, 2, rfl⟩
  | createRun | cancelOrder | closeRun | updateChannelConfig | setChannelEnabled
    | resetChannelData => exact h.elim

theorem recorded_of_records {e : IntakeEvent} (hstep : intakeStep s insert e.before e.label e.after)
    (hcurrent : Current e) (hrecords : Recorded insert e.before e.label) : ¬Unrecorded e := by
  obtain ⟨p, i, q⟩ := e
  cases i with
  | slash c =>
    obtain ⟨db', hdb'⟩ := Option.isSome_iff_exists.mp hrecords.2.2.1
    obtain ⟨hfinishes, hfails⟩ := serve_of_publishes (p := p) hrecords hdb'
    have hq : q = (serve insert c p).2 := hstep
    have htopic : q.topic = p.topic ++ [c.run.created] := by
      rw [hq]
      by_cases hf : c.Finishes
      · rw [hfinishes hf]
      · rw [hfails hf]
    intro hunrecorded
    have hsame : q.topic = p.topic := hunrecorded.2
    rw [htopic] at hsame
    exact absurd (congrArg List.length hsame) (by simp)
  | call l =>
    obtain ⟨c, outcome⟩ := l
    have hdraws : ∃ d, orderDraws c = some d := by
      cases c with
      | submitOrder v request d => exact ⟨d, rfl⟩
      | useLastOrder v runId userId d => exact ⟨d, rfl⟩
      | createRun | cancelOrder | closeRun | updateChannelConfig | setChannelEnabled
        | resetChannelData => exact hrecords.elim
    obtain ⟨d, hd⟩ := hdraws
    obtain ⟨hfresh, hclock⟩ := hcurrent d hd
    obtain ⟨answer, after, hreturns, pref, hpref, n, hstamp⟩ := stamped_of_remembers hd hfresh hrecords
    intro hunrecorded
    have hafter : q.db = after := by
      cases outcome with
      | ok answer' => exact (Program.returns_functional hstep.1 hreturns).2
      | error e =>
        obtain ⟨t, hraises, -⟩ := hstep.1
        exact absurd hraises hreturns.not_raises
    have hsame : q.db.userPreferences = p.db.userPreferences := hunrecorded
    rw [hafter] at hsame
    -- the stamp of the remembered order would have been there before it was read
    have hold := hclock pref (hsame ▸ hpref) n
    rw [hstamp] at hold
    exact lt_irrefl _ hold

end Steps

theorem disabled_channel_records_nothing (s : Database) (insert : Models.Run → Db → Option Db)
    (p₀ p : Platform Db) (es : List IntakeEvent)
    (h : Transition.Path (intakeStep s insert) p₀ es p) :
    ((∀ e ∈ es, Spared insert e) → ∀ e ∈ es, Silent e) ∧
    ((∀ e ∈ es, Current e) → (∀ e ∈ es, Silent e) → ∀ e ∈ es, Spared insert e) := by
  constructor
  · intro hspared e he channel hc henabled hconcerns
    exact unrecorded_of_spared (h.mem_step he) hconcerns (hspared e he channel hc henabled hconcerns)
  · intro hcurrent hsilent e he channel hc henabled hconcerns hrecords
    exact recorded_of_records (h.mem_step he) (hcurrent e he) hrecords
      (hsilent e he channel hc henabled hconcerns)

/-! ### A channel that is disabled under an open run -/

section Lifted
variable {s : Database} {insert : Models.Run → Db → Option Db}

def lifted (topic : List RunCreatedEvent) (e : Event) : IntakeEvent :=
  ⟨⟨e.before, topic⟩, .call e.label, ⟨e.after, topic⟩⟩

theorem path_lifted {db₀ db : Db} {es : List Event} (h : History s db₀ es db)
    (topic : List RunCreatedEvent) :
    Transition.Path (intakeStep s insert) ⟨db₀, topic⟩ (es.map (lifted topic)) ⟨db, topic⟩ := by
  induction h with
  | nil => exact .nil
  | snoc path last ih =>
    rw [List.map_append, List.map_singleton]
    exact .snoc ih ⟨last, rfl⟩

end Lifted

namespace Sample

/-- The stored channel is disabled; run 11 is open there. -/
def disabledChannel : Channel := { channel with enabled := false }

def disabledDb : Db := { opened with channels := ⟨[disabledChannel], by decide⟩ }

def disabledOrders : List IntakeEvent :=
  (replay database disabledDb [submit 2 11 alice]).map (lifted [])

/-- A slash command by the Slack ids, which the schema refuses. -/
def refusedCommand : IntakeEvent :=
  ⟨⟨disabledDb, []⟩, .slash (commandIn disabledChannel alice), ⟨disabledDb, []⟩⟩

def reuseUnsaved : Call := .useLastOrder {} (Uuid.ofNat 11).str alice.id.str (draws 1)

def submitUnconfirmed : Call :=
  .submitOrder {} { runId := (Uuid.ofNat 11).str, userId := alice.id.str, orderText := "latte"
                    confirm := false } (draws 2)

def refusals : List IntakeEvent :=
  [refusedCommand] ++ (replay database disabledDb [reuseUnsaved, submitUnconfirmed]).map (lifted [])

theorem disabled_facts :
    (∃ run ∈ disabledDb.runs.rows,
      Uuid.parse (Uuid.ofNat 11).str = some run.id ∧ run.channelId = channel.id) ∧
    disabledDb.userPreferences.rows.length = 0 ∧
    (perform database (submit 2 11 alice) disabledDb).2.userPreferences.rows.length = 1 := by
  decide +kernel

theorem refused_insert :
    insertStored Uuid.parse (commandIn disabledChannel alice).run disabledDb = none := by
  have hslack : Uuid.parse (commandIn disabledChannel alice).run.channelId = none := by decide
  cases h : insertStored Uuid.parse (commandIn disabledChannel alice).run disabledDb with
  | none => rfl
  | some after =>
    obtain ⟨row, runs, hrow, -⟩ := insertStored_eq_some.mp h
    have hread := (storedRun_eq_some hrow).2.1
    rw [hslack] at hread
    cases hread

theorem refused_not_publishes :
    ¬(commandIn disabledChannel alice).Publishes (insertStored Uuid.parse) ⟨disabledDb, []⟩ := by
  intro h
  have hflush := h.2.2.1
  rw [refused_insert] at hflush
  cases hflush

theorem path_refusals : Transition.Path (intakeStep database (insertStored Uuid.parse))
    ⟨disabledDb, []⟩ refusals
    ⟨finalDb database disabledDb [reuseUnsaved, submitUnconfirmed], []⟩ := by
  have hserved : intakeStep database (insertStored Uuid.parse) ⟨disabledDb, []⟩
      refusedCommand.label ⟨disabledDb, []⟩ := (serve_of_not_publishes refused_not_publishes).symm
  have hcommand : Transition.Path (intakeStep database (insertStored Uuid.parse)) ⟨disabledDb, []⟩
      [refusedCommand] ⟨disabledDb, []⟩ := .snoc .nil hserved
  exact Transition.Path.append_iff.mpr ⟨_, hcommand, path_lifted (history_replay _ _ _) []⟩

theorem mem_refusals {e : IntakeEvent} (he : e ∈ refusals) : e = refusedCommand ∨
    e = lifted [] (occurrence database reuseUnsaved disabledDb) ∨
    e = lifted [] (occurrence database submitUnconfirmed
      (occurrence database reuseUnsaved disabledDb).after) := by
  simpa only [refusals, replay, List.map_cons, List.map_nil, List.cons_append, List.nil_append,
    List.mem_cons, List.not_mem_nil, or_false] using he

theorem refusals_spared : ∀ e ∈ refusals, Spared (insertStored Uuid.parse) e := by
  intro e he row _ _ _
  rcases mem_refusals he with rfl | rfl | rfl
  · exact refused_not_publishes
  · rintro ⟨run, hrun, user, huser, hr, hopen, hu, p, text, hsaved, hv⟩
    cases hsaved
  · rintro ⟨hconfirm, -⟩
    cases hconfirm

theorem fresh_disabledDb {n : ℕ} (hn : n = 1 ∨ n = 2) : (draws n).Fresh disabledDb where
  distinct := by
    rcases hn with rfl | rfl <;> decide
  orders _ ho := absurd ho List.not_mem_nil
  preferences _ hp := absurd hp List.not_mem_nil
  stats _ hs := absurd hs List.not_mem_nil

theorem refusals_current : ∀ e ∈ refusals, Current e := by
  have hkept : (occurrence database reuseUnsaved disabledDb).after = disabledDb := by rfl
  intro e he
  rcases mem_refusals he with rfl | rfl | rfl
  · trivial
  · intro d hd
    obtain rfl := Option.some.inj hd
    exact ⟨fresh_disabledDb (Or.inl rfl), fun p hp => absurd hp List.not_mem_nil⟩
  · rw [hkept]
    intro d hd
    obtain rfl := Option.some.inj hd
    exact ⟨fresh_disabledDb (Or.inr rfl), fun p hp => absurd hp List.not_mem_nil⟩

end Sample

open Sample in
/-- An order on the open run of a disabled channel writes a preference. -/
theorem disabled_channel_remembers_order :
    disabledChannel ∈ disabledDb.channels ∧ disabledChannel.enabled = false ∧
    Transition.Path (intakeStep database (insertStored Uuid.parse)) ⟨disabledDb, []⟩ disabledOrders
      ⟨finalDb database disabledDb [submit 2 11 alice], []⟩ ∧
    ¬∀ e ∈ disabledOrders, Silent e := by
  refine ⟨List.mem_cons_self, rfl, path_lifted (history_replay _ _ _) [], fun h => ?_⟩
  obtain ⟨⟨run, hrun, hparse, hchannel⟩, hbefore, hafter⟩ := disabled_facts
  have hsilent := h (lifted [] (occurrence database (submit 2 11 alice) disabledDb))
    List.mem_cons_self
  have hsame := hsilent disabledChannel List.mem_cons_self rfl ⟨run, hrun, hparse, hchannel⟩
  have hlength := congrArg (fun t : Table UserPreference => t.rows.length) hsame
  have hone : 1 = 0 := hafter.symm.trans (hlength.trans hbefore)
  exact absurd hone one_ne_zero

open Sample in
/-- A slash command whose row is refused, a saved order that is not there and an order that is
not confirmed record nothing. -/
theorem disabled_channel_records_nothing_refused :
    refusals.length = 3 ∧ (∀ e ∈ refusals, Spared (insertStored Uuid.parse) e) ∧
    (∀ e ∈ refusals, Current e) ∧ ∀ e ∈ refusals, Silent e :=
  ⟨rfl, refusals_spared, refusals_current,
    (disabled_channel_records_nothing database (insertStored Uuid.parse) _ _ refusals
      path_refusals).1 refusals_spared⟩

end CoffeeBuddy

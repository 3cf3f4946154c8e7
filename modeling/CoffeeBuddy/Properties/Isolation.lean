import CoffeeBuddy.Data.Constraints
import CoffeeBuddy.Services.Local

/-! Channels do not see each other. An operation on one channel reads and writes the rows
of that channel, so operations on two channels commute and an interleaving of the
operations of many is each channel's own run. -/

namespace CoffeeBuddy
open Relational Transaction

/-- The channel of every run id, of those still to be given as well, and of every Slack id. -/
structure Directory where
  home : Uuid → Uuid
  slack : String → Uuid

/-- The stored rows of one channel; an order belongs to the channel of its run. -/
structure ChannelRows where
  channels : List Channel
  runs : List Run
  orders : List Order
  preferences : List UserPreference
  stats : List RunnerStat
  actions : List ChannelAdminAction

/-- The same rows in every table; a table has no order. -/
structure Db.SameRows (s t : Db) : Prop where
  users : s.users.rows.Perm t.users.rows
  channels : s.channels.rows.Perm t.channels.rows
  runs : s.runs.rows.Perm t.runs.rows
  orders : s.orders.rows.Perm t.orders.rows
  preferences : s.userPreferences.rows.Perm t.userPreferences.rows
  stats : s.runnerStats.rows.Perm t.runnerStats.rows
  actions : s.channelAdminActions.rows.Perm t.channelAdminActions.rows

namespace Directory
variable (D : Directory)

def scope (channel : Uuid) : Scope where
  channel := channel
  mine id := D.home id = channel
  slack x := D.slack x = channel
  audited := true

/-- The directory is right about the stored runs and channels. -/
structure Describes (db : Db) : Prop where
  runs : ∀ r ∈ db.runs, D.home r.id = r.channelId
  channels : ∀ c ∈ db.channels, D.slack c.slackChannelId = c.id

def rows (channel : Uuid) (db : Db) : ChannelRows where
  channels := db.channels.select (D.scope channel).ownChannel
  runs := db.runs.select (D.scope channel).ownRun
  orders := db.orders.select (D.scope channel).ownOrder
  preferences := db.userPreferences.select (D.scope channel).ownPreference
  stats := db.runnerStats.select (D.scope channel).ownStat
  actions := db.channelAdminActions.select (D.scope channel).ownAction

variable {D} {a b : Uuid} {s t : Db} {X : Uuid → Prop}

theorem exists_describes {db : Db} (h : db.Valid) : ∃ D : Directory, D.Describes db := by
  obtain ⟨⟨-, hslack, -⟩, -⟩ := h
  refine ⟨⟨fun id => ((db.runs.find? id).map Run.channelId).getD id, fun x =>
    ((db.channels.rows.find? fun c => c.slackChannelId = x).map Channel.id).getD (.ofNat 0)⟩, ?_, ?_⟩
  · intro r hr
    have hfind : db.runs.find? r.id = some r := Table.find?_key hr
    dsimp only
    rw [hfind, Option.map_some, Option.getD_some]
  · intro c hc
    cases hf : db.channels.rows.find? fun d => d.slackChannelId = c.slackChannelId with
    | none => exact absurd (decide_eq_true rfl) (List.find?_eq_none.mp hf c hc)
    | some d =>
      have hd : d.slackChannelId = c.slackChannelId := by simpa using List.find?_some hf
      obtain rfl := hslack.eq (List.mem_of_find?_eq_some hf) hc hd
      dsimp only
      rw [hf, Option.map_some, Option.getD_some]

theorem Describes.clear (h : D.Describes s) (channel : Uuid) : (D.scope channel).Clear s where
  runs r hr ho := by
    have hne : r.channelId ≠ channel := of_decide_eq_false ho
    rw [← h.runs r hr] at hne
    exact decide_eq_false hne
  channels c hc ho hs := by
    have hne : c.id ≠ channel := of_decide_eq_false ho
    rw [← h.channels c hc] at hne
    exact hne hs

/-- Databases with the same users and the same rows of a channel are alike in it. -/
theorem alike (hs : D.Describes s) (ht : D.Describes t) (husers : s.users = t.users)
    (hrows : D.rows a s = D.rows a t) (hX : ∀ id, X id → s.Avoids id) :
    (D.scope a).Alike id X s t s t := by
  obtain ⟨hchannels, hruns, horders, hpreferences, hstats, hactions⟩ := ChannelRows.mk.inj hrows
  exact {
    clearLeft := hs.clear a
    clearRight := ht.clear a
    users := fun x => by rw [husers]
    usersLeft := rfl
    usersRight := rfl
    channels := congrArg (List.map id) hchannels
    channelsLeft := rfl
    channelsRight := rfl
    namesLeft := rfl
    namesRight := rfl
    runs := ⟨hruns, rfl, rfl, fun r hr ho => by
      rintro (hx | hfalse)
      · exact (hX _ hx).runs r hr rfl
      · have hhome : D.home r.id = a := (hs.runs r hr).trans (of_decide_eq_true ho)
        exact of_decide_eq_false hfalse hhome⟩
    orders := ⟨horders, rfl, rfl, fun o ho _ hx => (hX _ hx).orders o ho rfl⟩
    preferences := ⟨hpreferences, rfl, rfl, fun p hp _ hx => (hX _ hx).preferences p hp rfl⟩
    stats := ⟨hstats, rfl, rfl, fun r hr _ hx => (hX _ hx).stats r hr rfl⟩
    actions := ⟨hactions, rfl, rfl, fun x hx' _ hx => (hX _ hx).actions x hx' rfl⟩ }

/-! ### What a call on a channel leaves -/

section Left
variable {u v : Db} (h : (D.scope a).Alike id X u v s t)
include h

theorem rows_eq : D.rows a s = D.rows a t := by
  have hchannels : s.channels.select (D.scope a).ownChannel =
      t.channels.select (D.scope a).ownChannel := by
    simpa only [List.map_id] using h.channels
  unfold rows
  rw [hchannels, h.runs.inside, h.orders.inside, h.preferences.inside, h.stats.inside,
    h.actions.inside]

theorem rows_other (hab : b ≠ a) : D.rows b s = D.rows b u := by
  have hne : ∀ c : Uuid, decide (c = b) = true → decide (c = a) = false := fun c hc =>
    decide_eq_false fun hca => hab ((of_decide_eq_true hc).symm.trans hca)
  have hchannels : s.channels.select (D.scope b).ownChannel =
      u.channels.select (D.scope b).ownChannel :=
    Table.select_of_rest h.channelsLeft fun c => hne c.id
  have hruns : s.runs.select (D.scope b).ownRun = u.runs.select (D.scope b).ownRun :=
    Table.select_of_rest h.runs.left fun r => hne r.channelId
  have horders : s.orders.select (D.scope b).ownOrder = u.orders.select (D.scope b).ownOrder :=
    Table.select_of_rest h.orders.left fun o => hne (D.home o.runId)
  have hpreferences : s.userPreferences.select (D.scope b).ownPreference =
      u.userPreferences.select (D.scope b).ownPreference :=
    Table.select_of_rest h.preferences.left fun p => hne p.channelId
  have hstats : s.runnerStats.select (D.scope b).ownStat =
      u.runnerStats.select (D.scope b).ownStat :=
    Table.select_of_rest h.stats.left fun r => hne r.channelId
  have hactions : s.channelAdminActions.select (D.scope b).ownAction =
      u.channelAdminActions.select (D.scope b).ownAction :=
    Table.select_of_rest h.actions.left fun x => hne x.channelId
  unfold rows
  rw [hchannels, hruns, horders, hpreferences, hstats, hactions]

theorem describes_left (hu : D.Describes u) : D.Describes s where
  runs r hr := by
    cases ho : (D.scope a).ownRun r with
    | false => exact hu.runs r ((h.runs.mem_left ho).mp hr)
    | true =>
      have hhome : D.home r.id = a := of_decide_eq_true (h.mine_of_run hr ho)
      exact hhome.trans (of_decide_eq_true ho).symm
  channels c hc := by
    have hnames : c.names ∈ u.channels.rows.map Channel.names :=
      h.namesLeft ▸ List.mem_map_of_mem hc
    obtain ⟨c₀, hc₀, hname⟩ := List.mem_map.mp hnames
    obtain ⟨hid, hslack⟩ := Prod.mk.inj hname
    rw [← hid, ← hslack]
    exact hu.channels c₀ hc₀

theorem avoids_left {x : Uuid} (hx : X x) (hu : u.Avoids x) : s.Avoids x := by
  have havoid : ∀ {ρ : Type} [Keyed ρ Uuid] {own : ρ → Bool} {I : Uuid → Prop} {p q s t : Table ρ},
      Table.Beside own I p q s t → (I x) → (∀ r ∈ p, Keyed.key r ≠ x) →
        ∀ r ∈ s, Keyed.key r ≠ x := by
    rintro ρ _ own I p q s t hb hI hp r hr rfl
    cases ho : own r with
    | true => exact hb.unused r hr ho hI
    | false => exact hp r ((hb.mem_left ho).mp hr) rfl
  exact ⟨havoid h.runs (Or.inl hx) hu.runs, havoid h.orders hx hu.orders,
    havoid h.preferences hx hu.preferences, havoid h.stats hx hu.stats,
    havoid h.actions hx hu.actions⟩

end Left

theorem sameRows (husers : s.users = t.users) (hrows : ∀ e, D.rows e s = D.rows e t) :
    s.SameRows t := by
  have hown : ∀ c : Uuid, ∃ e, decide (c = e) = true := fun c => ⟨c, decide_eq_true rfl⟩
  have hparts := fun e => ChannelRows.mk.inj (hrows e)
  exact {
    users := by rw [husers]
    channels := Table.perm_of_select (fun e => (hparts e).1) fun c => hown c.id
    runs := Table.perm_of_select (fun e => (hparts e).2.1) fun r => hown r.channelId
    orders := Table.perm_of_select (fun e => (hparts e).2.2.1) fun o => hown (D.home o.runId)
    preferences := Table.perm_of_select (fun e => (hparts e).2.2.2.1) fun p => hown p.channelId
    stats := Table.perm_of_select (fun e => (hparts e).2.2.2.2.1) fun r => hown r.channelId
    actions := Table.perm_of_select (fun e => (hparts e).2.2.2.2.2) fun x => hown x.channelId }

end Directory

/-! ### Calls on several channels -/

section Calls
variable {s : Database} {D : Directory} {a b : Uuid} {db db' : Db} {c : Call}

/-- Two databases with the same rows of a channel, and a call on the channel. -/
theorem call_local (hschema : AuditSchema.ByReference s.auditSchema) (h : D.Describes db)
    (h' : D.Describes db') (husers : db.users = db'.users) (hrows : D.rows a db = D.rows a db')
    (hin : c.In (D.scope a)) (hnew : ∀ id, c.Creates id → db.Avoids id ∧ db'.Avoids id)
    {X : Uuid → Prop} (hX : ∀ id, X id → db.Avoids id ∧ ¬c.Creates id) :
    (perform s c db).1 = (perform s c db').1 ∧
      (D.scope a).Alike id X db db' (perform s c db).2 (perform s c db').2 := by
  have halike : (D.scope a).Alike id X db db' db db' :=
    Directory.alike h h' husers hrows fun id hid => (hX id hid).1
  have hreported : ∀ c c' : Channel, id c = id c' → c.reported = c'.reported :=
    fun c c' hc => congrArg Channel.reported hc
  refine halike.perform (Scope.stays_tx s hreported ?_ hin fun id hid => ?_)
  · exact fun _ _ => ⟨Function.injective_id, hschema, rfl⟩
  · exact ⟨(hnew id hid).1, (hnew id hid).2, fun hx => (hX id hx).2 hid⟩

/-- What a call on channel `a` keeps. -/
structure Keeps (D : Directory) (a : Uuid) (c : Call) (db after : Db) : Prop where
  users : after.users = db.users
  describes : D.Describes after
  rows : ∀ b, b ≠ a → D.rows b after = D.rows b db
  avoids : ∀ id, db.Avoids id → ¬c.Creates id → after.Avoids id

theorem call_keeps (hschema : AuditSchema.ByReference s.auditSchema) (h : D.Describes db)
    (hin : c.In (D.scope a)) (hnew : ∀ id, c.Creates id → db.Avoids id) :
    Keeps D a c db (perform s c db).2 := by
  obtain ⟨-, halike⟩ := call_local hschema h h rfl rfl hin (fun id hid => ⟨hnew id hid, hnew id hid⟩)
    (X := fun id => db.Avoids id ∧ ¬c.Creates id) fun _ hid => hid
  exact {
    users := halike.usersLeft
    describes := Directory.describes_left halike h
    rows := fun b hb => Directory.rows_other halike hb
    avoids := fun id hid hc => Directory.avoids_left halike ⟨hid, hc⟩ hid }

theorem Keeps.new {after : Db} {cs : List (Uuid × Call)} (h : Keeps D a c db after)
    (hnew : ∀ p ∈ cs, ∀ id, p.2.Creates id → db.Avoids id)
    (hdisjoint : ∀ p ∈ cs, ∀ id, c.Creates id → ¬p.2.Creates id) :
    ∀ p ∈ cs, ∀ id, p.2.Creates id → after.Avoids id := by
  intro p hp id hid
  have havoids : db.Avoids id := hnew p hp id hid
  exact h.avoids id havoids fun hc => hdisjoint p hp id hc hid

/-- A call answers the same and leaves the same rows of its channel. -/
theorem call_rows (hschema : AuditSchema.ByReference s.auditSchema) (h : D.Describes db)
    (h' : D.Describes db') (husers : db.users = db'.users) (hrows : D.rows a db = D.rows a db')
    (hin : c.In (D.scope a)) (hnew : ∀ id, c.Creates id → db.Avoids id ∧ db'.Avoids id) :
    (perform s c db).1 = (perform s c db').1 ∧
      D.rows a (perform s c db).2 = D.rows a (perform s c db').2 := by
  obtain ⟨hanswer, halike⟩ := call_local hschema h h' husers hrows hin hnew
    (X := fun _ => False) fun _ hid => hid.elim
  exact ⟨hanswer, Directory.rows_eq halike⟩

/-- Calls on two channels commute. -/
theorem calls_commute {x y : Call} (hschema : AuditSchema.ByReference s.auditSchema)
    (h : D.Describes db) (hab : a ≠ b) (hx : x.In (D.scope a)) (hy : y.In (D.scope b))
    (hxnew : ∀ id, x.Creates id → db.Avoids id) (hynew : ∀ id, y.Creates id → db.Avoids id)
    (hdisjoint : ∀ id, x.Creates id → ¬y.Creates id) :
    (perform s x (perform s y db).2).1 = (perform s x db).1 ∧
      (perform s y (perform s x db).2).1 = (perform s y db).1 ∧
      (perform s y (perform s x db).2).2.SameRows (perform s x (perform s y db).2).2 := by
  have hkx : Keeps D a x db (perform s x db).2 := call_keeps hschema h hx hxnew
  have hky : Keeps D b y db (perform s y db).2 := call_keeps hschema h hy hynew
  have hxnew' : ∀ id, x.Creates id → (perform s y db).2.Avoids id := fun id hid =>
    hky.avoids id (hxnew id hid) (hdisjoint id hid)
  have hynew' : ∀ id, y.Creates id → (perform s x db).2.Avoids id := fun id hid =>
    hkx.avoids id (hynew id hid) fun hc => hdisjoint id hc hid
  obtain ⟨hxanswer, hxrows⟩ := call_rows hschema hky.describes h hky.users (hky.rows a hab) hx
    fun id hid => ⟨hxnew' id hid, hxnew id hid⟩
  obtain ⟨hyanswer, hyrows⟩ := call_rows hschema hkx.describes h hkx.users (hkx.rows b hab.symm) hy
    fun id hid => ⟨hynew' id hid, hynew id hid⟩
  have hkxy : Keeps D b y (perform s x db).2 (perform s y (perform s x db).2).2 :=
    call_keeps hschema hkx.describes hy hynew'
  have hkyx : Keeps D a x (perform s y db).2 (perform s x (perform s y db).2).2 :=
    call_keeps hschema hky.describes hx hxnew'
  refine ⟨hxanswer, hyanswer, Directory.sameRows (D := D) ?_ fun e => ?_⟩
  · rw [hkxy.users, hkx.users, hkyx.users, hky.users]
  · by_cases hea : e = a
    · subst hea
      rw [hkxy.rows e hab, hxrows]
    · by_cases heb : e = b
      · subst heb
        rw [hkyx.rows e hea, hyrows]
      · rw [hkxy.rows e heb, hkx.rows e hea, hkyx.rows e hea, hky.rows e heb]

/-- What the calls return or raise, each under its channel. -/
def outcomes (s : Database) : Db → List (Uuid × Call) → List (Uuid × Except Exc Answer)
  | _, [] => []
  | db, (a, c) :: cs => (a, (perform s c db).1) :: outcomes s (perform s c db).2 cs

/-- The calls on one channel. -/
def onChannel {α : Type} (a : Uuid) (cs : List (Uuid × α)) : List (Uuid × α) :=
  cs.filter fun p => p.1 = a

theorem onChannel_own {α : Type} (x : α) (cs : List (Uuid × α)) :
    onChannel a ((a, x) :: cs) = (a, x) :: onChannel a cs :=
  List.filter_cons_of_pos (decide_eq_true rfl)

theorem onChannel_other {α : Type} (hb : b ≠ a) (x : α) (cs : List (Uuid × α)) :
    onChannel a ((b, x) :: cs) = onChannel a cs :=
  List.filter_cons_of_neg fun hba => hb (of_decide_eq_true hba)

/-- Next to the calls of other channels, the calls of a channel do what they do alone. -/
theorem interleaving_projects (hschema : AuditSchema.ByReference s.auditSchema)
    {cs : List (Uuid × Call)} (h : D.Describes db) (h' : D.Describes db')
    (husers : db.users = db'.users) (hrows : D.rows a db = D.rows a db')
    (hin : ∀ p ∈ cs, p.2.In (D.scope p.1))
    (hnew : ∀ p ∈ cs, ∀ id, p.2.Creates id → db.Avoids id)
    (hnew' : ∀ p ∈ cs, ∀ id, p.2.Creates id → db'.Avoids id)
    (hdisjoint : cs.Pairwise fun p q => ∀ id, p.2.Creates id → ¬q.2.Creates id) :
    onChannel a (outcomes s db cs) = outcomes s db' (onChannel a cs) ∧
      D.rows a (finalDb s db (cs.map Prod.snd)) =
        D.rows a (finalDb s db' ((onChannel a cs).map Prod.snd)) := by
  induction cs generalizing db db' with
  | nil => exact ⟨rfl, hrows⟩
  | cons p cs ih =>
    obtain ⟨b, c⟩ := p
    obtain ⟨hfirst, hdisjoint⟩ := List.pairwise_cons.mp hdisjoint
    have hc : c.In (D.scope b) := hin (b, c) List.mem_cons_self
    have hcnew : ∀ id, c.Creates id → db.Avoids id := hnew (b, c) List.mem_cons_self
    have hcnew' : ∀ id, c.Creates id → db'.Avoids id := hnew' (b, c) List.mem_cons_self
    have hin' := fun p hp => hin p (List.mem_cons_of_mem _ hp)
    have hrest := fun p hp => hnew p (List.mem_cons_of_mem _ hp)
    have hrest' := fun p hp => hnew' p (List.mem_cons_of_mem _ hp)
    have hkeeps : Keeps D b c db (perform s c db).2 := call_keeps hschema h hc hcnew
    by_cases hb : b = a
    · -- both runs take the call
      subst hb
      have hkeeps' : Keeps D b c db' (perform s c db').2 := call_keeps hschema h' hc hcnew'
      obtain ⟨hanswer, hafter⟩ := call_rows hschema h h' husers hrows hc
        fun id hid => ⟨hcnew id hid, hcnew' id hid⟩
      have husers' : (perform s c db).2.users = (perform s c db').2.users := by
        rw [hkeeps.users, hkeeps'.users, husers]
      obtain ⟨houtcomes, hfinal⟩ := ih hkeeps.describes hkeeps'.describes husers' hafter hin'
        (hkeeps.new hrest hfirst) (hkeeps'.new hrest' hfirst) hdisjoint
      rw [onChannel_own, outcomes, onChannel_own, outcomes, houtcomes, hanswer]
      exact ⟨rfl, hfinal⟩
    · -- only the full run takes it, and it leaves the rows of `a`
      have husers' : (perform s c db).2.users = db'.users := hkeeps.users.trans husers
      have hafter : D.rows a (perform s c db).2 = D.rows a db' :=
        (hkeeps.rows a (Ne.symm hb)).trans hrows
      obtain ⟨houtcomes, hfinal⟩ := ih hkeeps.describes h' husers' hafter hin'
        (hkeeps.new hrest hfirst) hrest' hdisjoint
      rw [onChannel_other hb, outcomes, onChannel_other hb, houtcomes]
      exact ⟨rfl, hfinal⟩

end Calls

/-- On every database that a directory describes, as one does every database that meets the
schema. The ids a call creates rows with are its own. -/
theorem channels_isolated (s : Database) (hschema : AuditSchema.ByReference s.auditSchema)
    (D : Directory) (db : Db) (h : D.Describes db) :
    (∀ a b x y, a ≠ b → x.In (D.scope a) → y.In (D.scope b) →
      (∀ id, x.Creates id → db.Avoids id ∧ ¬y.Creates id) → (∀ id, y.Creates id → db.Avoids id) →
      (perform s x (perform s y db).2).1 = (perform s x db).1 ∧
      (perform s y (perform s x db).2).1 = (perform s y db).1 ∧
      (perform s y (perform s x db).2).2.SameRows (perform s x (perform s y db).2).2) ∧
    ∀ cs : List (Uuid × Call), (∀ p ∈ cs, p.2.In (D.scope p.1)) →
      (∀ p ∈ cs, ∀ id, p.2.Creates id → db.Avoids id) →
      (cs.Pairwise fun p q => ∀ id, p.2.Creates id → ¬q.2.Creates id) →
      ∀ a, onChannel a (outcomes s db cs) = outcomes s db (onChannel a cs) ∧
        D.rows a (finalDb s db (cs.map Prod.snd)) =
          D.rows a (finalDb s db ((onChannel a cs).map Prod.snd)) := by
  constructor
  · intro a b x y hab hx hy hxnew hynew
    exact calls_commute hschema h hab hx hy (fun id hid => (hxnew id hid).1) hynew
      fun id hid => (hxnew id hid).2
  · intro cs hin hnew hdisjoint a
    exact interleaving_projects hschema h h rfl rfl hin hnew hnew hdisjoint

/-! ### A user of two channels -/

namespace Sample

def tea : Channel := { channel with id := .ofNat 8, slackChannelId := "C8", name := "tea" }

/-- Run 11 is open in the first channel and run 12 in the second. -/
def twoChannels : Db :=
  { db with
    channels := ⟨[channel, tea], by decide⟩
    runs := ⟨[(newRun 11).row, { newRun 12 with channelId := tea.id }.row], by decide⟩ }

def directory : Directory where
  home id := if id = .ofNat 12 then tea.id else channel.id
  slack x := if x = "C8" then tea.id else channel.id

def sideBySide : List (Uuid × Call) :=
  [(channel.id, orders 1 11), (tea.id, orders 2 12), (channel.id, closes 3 11),
    (tea.id, closes 4 12)]

theorem describes_twoChannels : directory.Describes twoChannels where
  runs := by
    show ∀ r ∈ twoChannels.runs.rows, directory.home r.id = r.channelId
    decide
  channels := by
    show ∀ c ∈ twoChannels.channels.rows, directory.slack c.slackChannelId = c.id
    decide

end Sample

open Sample in
theorem channels_isolated_two :
    ((perform database (orders 1 11) (perform database (orders 2 12) twoChannels).2).1 =
        (perform database (orders 1 11) twoChannels).1 ∧
      (perform database (orders 2 12) (perform database (orders 1 11) twoChannels).2).1 =
        (perform database (orders 2 12) twoChannels).1 ∧
      (perform database (orders 2 12) (perform database (orders 1 11) twoChannels).2).2.SameRows
        (perform database (orders 1 11) (perform database (orders 2 12) twoChannels).2).2) ∧
    onChannel channel.id (outcomes database twoChannels sideBySide) =
      outcomes database twoChannels [(channel.id, orders 1 11), (channel.id, closes 3 11)] ∧
    directory.rows channel.id (finalDb database twoChannels (sideBySide.map Prod.snd)) =
      directory.rows channel.id (finalDb database twoChannels [orders 1 11, closes 3 11]) := by
  have hfirst : (orders 1 11).In (directory.scope channel.id) := names_run (by decide)
  have hsecond : (orders 2 12).In (directory.scope tea.id) := names_run (by decide)
  have hthird : (closes 3 11).In (directory.scope channel.id) := names_run (by decide)
  have hfourth : (closes 4 12).In (directory.scope tea.id) := names_run (by decide)
  have hin : ∀ p ∈ sideBySide, p.2.In (directory.scope p.1) := by
    simp only [sideBySide, List.forall_mem_cons]
    exact ⟨hfirst, hsecond, hthird, hfourth, List.forall_mem_nil _⟩
  have hnew : ∀ p ∈ sideBySide, ∀ id, p.2.Creates id → twoChannels.Avoids id := by
    simp only [sideBySide, List.forall_mem_cons]
    exact ⟨avoids_pairDraws (by decide), avoids_pairDraws (by decide), avoids_pairDraws (by decide),
      avoids_pairDraws (by decide), List.forall_mem_nil _⟩
  have hdisjoint : sideBySide.Pairwise fun p q => ∀ id, p.2.Creates id → ¬q.2.Creates id := by
    simp only [sideBySide, List.pairwise_cons, List.forall_mem_cons]
    exact ⟨⟨disjoint_pairDraws (by decide), disjoint_pairDraws (by decide),
        disjoint_pairDraws (by decide), List.forall_mem_nil _⟩,
      ⟨disjoint_pairDraws (by decide), disjoint_pairDraws (by decide), List.forall_mem_nil _⟩,
      ⟨disjoint_pairDraws (by decide), List.forall_mem_nil _⟩, List.forall_mem_nil _, .nil⟩
  have hchannels : channel.id ≠ tea.id := by decide
  obtain ⟨hpair, hrun⟩ := channels_isolated database (fun _ _ _ _ _ => rfl) directory twoChannels
    describes_twoChannels
  refine ⟨hpair channel.id tea.id (orders 1 11) (orders 2 12) hchannels hfirst hsecond ?_ ?_,
    hrun sideBySide hin hnew hdisjoint channel.id⟩
  · exact fun id hid => ⟨avoids_pairDraws (by decide) id hid, disjoint_pairDraws (by decide) id hid⟩
  · exact avoids_pairDraws (by decide)

end CoffeeBuddy

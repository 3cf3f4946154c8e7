import CoffeeBuddy.Data.Constraints
import CoffeeBuddy.Services.Local

/-! A data reset erases the past of a channel. What a later run, order or close reads of the
channel was purged or is its configuration, so it answers alike whatever was there before. -/

namespace CoffeeBuddy
open Relational Transaction

/-- The channel's part of two databases: a run id is the channel's unless it is that of a run
of another channel in one of them. -/
def commonScope (channel : Uuid) (u v : Db) : Scope where
  channel := channel
  mine id := u.runs.rows.all (fun r => r.id ≠ id || r.channelId = channel) &&
    v.runs.rows.all fun r => r.id ≠ id || r.channelId = channel
  slack _ := False
  audited := false

/-- What the calls return or raise. -/
def answers (s : Database) (db : Db) (cs : List Call) : List (Except Exc Answer) :=
  (replay s db cs).map fun e => e.label.2

section Purged
variable {s : Database} {channel : Uuid} {u v u' v' : Db} {l : Label}

theorem returns_of_resets (h : step s u l u') (hl : Resets channel l) :
    ∃ a slackChannelId actor d res, (AdminService.resetChannelData a s.auditSchema slackChannelId
      actor d).Returns u res u' ∧ res.channelId = channel.str := by
  obtain ⟨c, e | answer⟩ := l
  · rw [Resets, report_error] at hl
    cases hl
  · have hret : (c.tx s).Returns u answer u' := h
    unfold Resets report at hl
    split at hl
    case h_7 a slackChannelId actor d result hcall =>
      obtain ⟨rfl, hanswer⟩ := Prod.mk.inj hcall
      obtain rfl := Except.ok.inj hanswer
      obtain ⟨res, hres, hresult⟩ := Program.returns_bind_pure.mp hret
      obtain rfl := Answer.reset.inj hresult
      exact ⟨a, slackChannelId, actor, d, _, hres, Report.reset.inj hl⟩
    all_goals cases hl

/-- What a reset leaves: nothing but the channel's own row and the other channels. -/
structure Erased (channel : Uuid) (u u' : Db) : Prop where
  users : u'.users = u.users
  runs : u'.runs = u.runs.delete fun r => r.channelId = channel
  orders : u'.orders = u.orders.delete (AdminService.orderOfChannel channel u)
  preferences : u'.userPreferences = u.userPreferences.delete fun p => p.channelId = channel
  stats : u'.runnerStats = u.runnerStats.delete fun r => r.channelId = channel
  reported : (u'.channels.find? channel).map Channel.reported =
    (u.channels.find? channel).map Channel.reported

theorem erased_of_resets (h : step s u l u') (hl : Resets channel l) : Erased channel u u' := by
  obtain ⟨a, slackChannelId, actor, d, res, hret, hid⟩ := returns_of_resets h hl
  obtain ⟨c, t, hc, -, -, -, hcid, -, rfl⟩ := AdminService.returns_resetChannelData hret
  obtain rfl : c.id = channel := Uuid.str_inj.mp (hcid.symm.trans hid)
  refine ⟨rfl, rfl, rfl, rfl, rfl, ?_⟩
  have hkey : ({ c with lastResetAt := some (d.clock 0), updatedAt := d.clock 0 } : Channel).id =
      c.id := rfl
  have hmem := (Table.mem_update (s := { c with lastResetAt := some (d.clock 0), updatedAt := d.clock 0 })
    hc hkey).mpr (Or.inl rfl)
  have hnew := Table.find?_key hmem
  have hold := Table.find?_key hc
  exact (congrArg (Option.map Channel.reported) hnew).trans
    (congrArg (Option.map Channel.reported) hold).symm

theorem Erased.no_run (h : Erased channel u u') : ∀ r ∈ u'.runs, r.channelId ≠ channel := by
  intro r hr
  rw [h.runs] at hr
  exact of_decide_eq_false (Table.mem_delete.mp hr).2

theorem Erased.mem_run (h : Erased channel u u') {r : Run} (hr : r ∈ u'.runs) : r ∈ u.runs := by
  rw [h.runs] at hr
  exact (Table.mem_delete.mp hr).1

/-- So are their orders, as every order is of a stored run. -/
theorem Erased.no_order (h : Erased channel u u') (hu : u.Valid) {o : Order} (ho : o ∈ u'.orders)
    (hmine : ∀ r ∈ u.runs, r.id = o.runId → r.channelId = channel) : False := by
  rw [h.orders] at ho
  obtain ⟨ho, hkept⟩ := Table.mem_delete.mp ho
  obtain ⟨-, -, -, -, hruns, -⟩ := hu
  obtain ⟨r, hr, hid⟩ := hruns.mem ho rfl
  have hpurged : AdminService.orderOfChannel channel u o = true :=
    AdminService.orderOfChannel_iff.mpr ⟨r, hr, hid, hmine r hr hid⟩
  rw [hpurged] at hkept
  cases hkept

theorem mine_iff {id : Uuid} : (commonScope channel u v).mine id = true ↔
    (∀ r ∈ u.runs, r.id = id → r.channelId = channel) ∧
      ∀ r ∈ v.runs, r.id = id → r.channelId = channel := by
  have hall : ∀ t : Table Run, (t.rows.all fun r => r.id ≠ id || r.channelId = channel) = true ↔
      ∀ r ∈ t, r.id = id → r.channelId = channel := fun t => by
    simp only [List.all_eq_true, Bool.or_eq_true, decide_eq_true_eq, ← imp_iff_not_or]
    rfl
  show (_ && _) = true ↔ _
  rw [Bool.and_eq_true_iff, hall, hall]

theorem clear_of_erased (h : Erased channel u u') (h' : Erased channel v v') :
    (commonScope channel u v).Clear u' ∧ (commonScope channel u v).Clear v' := by
  have hother : ∀ r : Run, (commonScope channel u v).ownRun r = false → r ∈ u.runs ∨ r ∈ v.runs →
      (commonScope channel u v).mine r.id = false := by
    intro r ho hmem
    have hne : r.channelId ≠ channel := of_decide_eq_false ho
    refine Bool.eq_false_iff.mpr fun hmine => ?_
    obtain ⟨hu, hv⟩ := mine_iff.mp hmine
    rcases hmem with hmem | hmem
    · exact hne (hu r hmem rfl)
    · exact hne (hv r hmem rfl)
  exact ⟨⟨fun r hr ho => hother r ho (Or.inl (h.mem_run hr)), fun _ _ _ => id⟩,
    ⟨fun r hr ho => hother r ho (Or.inr (h'.mem_run hr)), fun _ _ _ => id⟩⟩

theorem alike_of_erased (hu : u.Valid) (hv : v.Valid) (husers : ∀ x, x ∈ u.users ↔ x ∈ v.users)
    (hconfig : (u.channels.find? channel).map Channel.reported =
      (v.channels.find? channel).map Channel.reported)
    (h : Erased channel u u') (h' : Erased channel v v') :
    (commonScope channel u v).Alike Channel.reported (fun _ => False) u' v' u' v' where
  clearLeft := (clear_of_erased h h').1
  clearRight := (clear_of_erased h h').2
  users := by
    rw [h.users, h'.users]
    exact husers
  usersLeft := rfl
  usersRight := rfl
  channels := by
    have hown : (commonScope channel u v).ownChannel = fun c => decide (Keyed.key c = channel) := rfl
    rw [hown, Table.select_key, Table.select_key, ← Option.toList_map, ← Option.toList_map,
      h.reported, h'.reported, hconfig]
  channelsLeft := rfl
  channelsRight := rfl
  namesLeft := rfl
  namesRight := rfl
  runs := .of_none (fun r hr => decide_eq_false (h.no_run r hr))
    fun r hr => decide_eq_false (h'.no_run r hr)
  orders := .of_none
    (fun o ho => Bool.eq_false_iff.mpr fun hmine => h.no_order hu ho (mine_iff.mp hmine).1)
    fun o ho => Bool.eq_false_iff.mpr fun hmine => h'.no_order hv ho (mine_iff.mp hmine).2
  preferences := by
    rw [h.preferences, h'.preferences]
    exact .of_none (fun p hp => (Table.mem_delete.mp hp).2) fun p hp => (Table.mem_delete.mp hp).2
  stats := by
    rw [h.stats, h'.stats]
    exact .of_none (fun r hr => (Table.mem_delete.mp hr).2) fun r hr => (Table.mem_delete.mp hr).2
  -- the audit rows differ by what was purged, and no call on runs and orders reads them
  actions := .of_none (fun _ _ => rfl) fun _ _ => rfl

end Purged

/-- Databases that are alike answer every sequence of calls on the channel alike. -/
theorem answers_of_alike (s : Database) {S : Scope} (hslack : ∀ x, ¬S.slack x) {u v db db' : Db}
    {cs : List Call} (h : S.Alike Channel.reported (fun _ => False) u v db db')
    (hin : ∀ x ∈ cs, x.In S) (hnew : ∀ x ∈ cs, ∀ id, x.Creates id → u.Avoids id ∧ v.Avoids id) :
    answers s db cs = answers s db' cs := by
  induction cs generalizing db db' with
  | nil => rfl
  | cons c cs ih =>
    have hstays : S.Stays Channel.reported (fun _ => False) u v (c.tx s) fun _ => True := by
      refine Scope.stays_tx s (fun _ _ hc => hc) ?_ (hin c List.mem_cons_self) fun id hid => ?_
      · exact fun x hx => absurd hx (hslack x)
      · obtain ⟨hu, hv⟩ := hnew c List.mem_cons_self id hid
        exact ⟨hu, hv, fun hx => hx⟩
    obtain ⟨hanswer, hafter⟩ := h.perform hstays
    have hrest := ih hafter (fun x hx => hin x (List.mem_cons_of_mem c hx))
      fun x hx => hnew x (List.mem_cons_of_mem c hx)
    show (perform s c db).1 :: answers s (perform s c db).2 cs =
      (perform s c db').1 :: answers s (perform s c db').2 cs
    rw [hanswer, hrest]

/-- The two databases may differ in everything but the users and what a close reports of the
channel; `cs` are runs, orders and closes in the channel. -/
theorem reset_erases_past (s : Database) (channel : Uuid) (u v u' v' : Db) (l m : Label)
    (hu : u.Valid) (hv : v.Valid) (husers : ∀ x, x ∈ u.users ↔ x ∈ v.users)
    (hconfig : (u.channels.find? channel).map Channel.reported =
      (v.channels.find? channel).map Channel.reported)
    (hreset : step s u l u') (hl : Resets channel l) (hreset' : step s v m v')
    (hm : Resets channel m) (cs : List Call) (hin : ∀ x ∈ cs, x.In (commonScope channel u v))
    (hnew : ∀ x ∈ cs, ∀ id, x.Creates id → u'.Avoids id ∧ v'.Avoids id) :
    answers s u' cs = answers s v' cs := by
  have herased : Erased channel u u' := erased_of_resets hreset hl
  have herased' : Erased channel v v' := erased_of_resets hreset' hm
  have halike := alike_of_erased hu hv husers hconfig herased herased'
  exact answers_of_alike s (fun _ hx => hx) halike hin hnew

/-! ### A channel with a past and one without -/

namespace Sample

/-- Alice has run the closed run 11, in which both ordered, and has a saved order. -/
def withPast : Db :=
  { bothOrdered with
    runs := ⟨[CloseRunService.finalized (newRun 11).row alice.id 3], by decide⟩
    userPreferences := ⟨[⟨.ofNat 31, alice.id, channel.id, "latte", some 1, 1, 1⟩], by decide⟩
    runnerStats := ⟨[⟨.ofNat 41, alice.id, channel.id, 1, some 3, 3, 3⟩], by decide⟩ }

def resetting (t : ℕ) : Call :=
  .resetChannelData (.init id ["U1"] []) "C7" storedAdmin (pairDraws t)

def afterReset (db₀ : Db) : Db := (perform database (resetting 50) db₀).2

/-- A run is opened, Alice orders in it and it is closed. -/
def freshStart : List Call := [.createRun (newRun 12), orders 1 12, closes 2 12]

theorem afterReset_facts :
    Resets channel.id (resetting 50, (perform database (resetting 50) withPast).1) ∧
    Resets channel.id (resetting 50, (perform database (resetting 50) db).1) ∧
    ∀ id ∈ .ofNat 12 :: drawnIds 1 ++ drawnIds 2,
      (afterReset withPast).Avoids id ∧ (afterReset db).Avoids id := by
  decide +kernel

end Sample

open Sample in
theorem reset_erases_past_fresh :
    answers database (afterReset withPast) freshStart = answers database (afterReset db) freshStart := by
  obtain ⟨hreset, hreset', havoids⟩ := afterReset_facts
  have hopen : (Call.createRun (newRun 12)).In (commonScope channel.id withPast db) :=
    ⟨rfl, by decide⟩
  have horders : (orders 1 12).In (commonScope channel.id withPast db) := names_run (by decide)
  have hcloses : (closes 2 12).In (commonScope channel.id withPast db) := names_run (by decide)
  have hin : ∀ x ∈ freshStart, x.In (commonScope channel.id withPast db) := by
    simp only [freshStart, List.forall_mem_cons]
    exact ⟨hopen, horders, hcloses, List.forall_mem_nil _⟩
  have hnew : ∀ x ∈ freshStart, ∀ id, x.Creates id →
      (afterReset withPast).Avoids id ∧ (afterReset db).Avoids id := by
    simp only [freshStart, List.forall_mem_cons]
    refine ⟨?_, ?_, ?_, List.forall_mem_nil _⟩
    · rintro _ rfl
      exact havoids _ List.mem_cons_self
    · intro id hid
      exact havoids id (List.mem_cons_of_mem _ (List.mem_append_left _ (mem_drawnIds hid)))
    · intro id hid
      exact havoids id (List.mem_cons_of_mem _ (List.mem_append_right _ (mem_drawnIds hid)))
  exact reset_erases_past database channel.id withPast db (afterReset withPast) (afterReset db)
    (resetting 50, (perform database (resetting 50) withPast).1)
    (resetting 50, (perform database (resetting 50) db).1) (by decide) (by decide) (fun _ => Iff.rfl)
    rfl (step_perform database (resetting 50) withPast) hreset
    (step_perform database (resetting 50) db) hreset' freshStart hin hnew

end CoffeeBuddy

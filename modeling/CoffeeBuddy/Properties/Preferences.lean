import CoffeeBuddy.Library.LastWrite
import CoffeeBuddy.Services.History

/-! Preferences are the last confirmed orders: the preference table is the map that the
confirmed calls of the history have written, and what it stores is validated text, so
that a replay is never refused for its text. -/

namespace CoffeeBuddy
open Relational Transaction PreferenceService

/-! ### Confirmed orders -/

/-- A successful `submit_order` with `confirm=True` or `use_last_order`. -/
def confirms : Label → Option Placed
  | (.submitOrder _ request _, .ok (.submitted result)) =>
    if request.confirm then some ⟨request.runId, request.userId, result⟩ else none
  | (.useLastOrder _ runId userId _, .ok (.usedLast result)) =>
    some ⟨runId, userId, result.submission⟩
  | _ => none

/-- The channel of a run. -/
def channelOf (db : Db) (runId : String) : Option Uuid :=
  ((Uuid.parse runId).bind db.runs.find?).map Run.channelId

/-- The user, the channel and the text returned of a confirmed order. -/
def confirmation (e : Event) : Option ((Uuid × Uuid) × String) := do
  let placed ← confirms e.label
  let user ← Uuid.parse placed.userId
  let channel ← channelOf e.before placed.runId
  return ((user, channel), placed.result.orderText)

def resets (e : Event) (key : Uuid × Uuid) : Prop := Resets key.2 e.label

instance (e : Event) : DecidablePred (resets e) := fun _ => inferInstanceAs (Decidable (Resets _ _))

/-- `text` is what the user's last confirmed order in the channel returned, and the
channel has not been reset since. -/
abbrev LastConfirmed (es : List Event) (user channel : Uuid) (text : String) : Prop :=
  LastWrite.IsLast confirmation resets es (user, channel) text

/-- An order call is made on a service with validator `v`. -/
def ValidatesWith (v : OrderValidator) : Call → Prop
  | .submitOrder validator _ _ => validator = v
  | .useLastOrder validator _ _ _ => validator = v
  | _ => True

/-! ### Validated text -/

theorem dropWhile_rdropWhile (cs : List Char) :
    ((cs.dropWhile isSpace).rdropWhile isSpace).dropWhile isSpace =
      (cs.dropWhile isSpace).rdropWhile isSpace := by
  apply List.dropWhile_eq_self_iff.mpr
  intro hpos
  -- the first character is the one the first pass stopped at
  have hleft := List.rdropWhile_prefix isSpace (cs.dropWhile isSpace)
  have hlen : 0 < (cs.dropWhile isSpace).length := lt_of_lt_of_le hpos hleft.length_le
  have hfirst := List.dropWhile_get_zero_not isSpace cs hlen
  rw [hleft.getElem hpos]
  exact hfirst

theorem strip_strip (text : String) : strip (strip text) = strip text := by
  unfold strip
  rw [String.toList_ofList, dropWhile_rdropWhile, List.rdropWhile_idempotent]

theorem validate_validated {v : OrderValidator} {text normalized : String}
    (h : v.validate text = .ok normalized) : v.validate normalized = .ok normalized := by
  have hstrip : normalized = strip text ∧ v.validate text = .ok (strip text) := by
    unfold OrderValidator.validate at h ⊢
    dsimp only at h ⊢
    split_ifs at h ⊢
    exact ⟨(Except.ok.inj h).symm, rfl⟩
  obtain ⟨rfl, hok⟩ := hstrip
  unfold OrderValidator.validate at hok ⊢
  rw [strip_strip]
  exact hok

/-! ### What a step writes -/

/-- What a call leaves of the preferences. -/
inductive Leaves (v : OrderValidator) (e : Event) : Prop
  | kept : confirmation e = none → (∀ c, ¬Resets c e.label) →
      e.after.userPreferences = e.before.userPreferences → Leaves v e
  | purged (channel : Uuid) : confirmation e = none → (∀ c, Resets c e.label ↔ c = channel) →
      e.after.userPreferences =
        e.before.userPreferences.delete (fun p => p.channelId = channel) → Leaves v e
  | written (p : UserPreference) : confirmation e = some (keyOf p, p.lastOrderText) →
      (∀ c, ¬Resets c e.label) → v.validate p.lastOrderText = .ok p.lastOrderText →
      e.before.userPreferences.Puts keyOf e.after.userPreferences p → Leaves v e

section Steps
variable {s : Database} {v : OrderValidator} {db db' : Db} {d : Draws} {run : Run} {user : User}

theorem channelOf_eq {runId : String} (hr : Uuid.parse runId = some run.id) (hrun : run ∈ db.runs) :
    channelOf db runId = some run.channelId := by
  have hfind : db.runs.find? run.id = some run := Table.find?_key hrun
  unfold channelOf
  rw [hr, Option.bind_some, hfind, Option.map_some]

theorem confirmation_eq {l : Label} {placed : Placed} (hl : confirms l = some placed)
    (hr : Uuid.parse placed.runId = some run.id) (hrun : run ∈ db.runs)
    (hu : Uuid.parse placed.userId = some user.id) :
    confirmation ⟨db, l, db'⟩ = some ((user.id, run.channelId), placed.result.orderText) := by
  have hchannel : channelOf db placed.runId = some run.channelId := channelOf_eq hr hrun
  unfold confirmation
  simp only [hl, Option.bind_eq_bind, Option.bind_some, hu, hchannel]
  rfl

theorem confirmation_eq_none {e : Event} (h : confirms e.label = none) : confirmation e = none := by
  unfold confirmation
  rw [h]
  rfl

theorem confirms_submitOrder (v : OrderValidator) (request : OrderSubmissionRequest) (d : Draws)
    (res : OrderSubmissionResult) :
    confirms (.submitOrder v request d, .ok (.submitted res)) =
      if request.confirm then some ⟨request.runId, request.userId, res⟩ else none := rfl

/-- A preference that is marked as used stays the only one of its user and channel. -/
theorem puts_markUsed {before prefs : Table UserPreference} {p : UserPreference} {now : Timestamp}
    (h : before.Puts keyOf prefs p) :
    before.Puts keyOf (prefs.update p { p with lastUsedAt := some now, updatedAt := now })
      { p with lastUsedAt := some now, updatedAt := now } := by
  have hupdate : prefs.Puts keyOf
      (prefs.update p { p with lastUsedAt := some now, updatedAt := now })
      { p with lastUsedAt := some now, updatedAt := now } :=
    Table.puts_update h.mem rfl rfl fun q hq hf => h.unique hq hf
  exact h.trans hupdate rfl

theorem leaves_submitOrder {request : OrderSubmissionRequest} {res : OrderSubmissionResult}
    (hunique : ∀ p ∈ db.userPreferences, ∀ q ∈ db.userPreferences, keyOf p = keyOf q → p = q)
    (h : (OrderService.submitOrder v request d).Returns db res db') :
    Leaves v ⟨db, (.submitOrder v request d, .ok (.submitted res)), db'⟩ := by
  obtain ⟨run, user, text, hr, hrun, -, hu, -, hv, hp⟩ := OrderService.returns_submitOrder h
  obtain ⟨order, orders, prefs, -, hprefs, rfl, hres⟩ := OrderService.returns_persistOrder hp
  have hconfirms := confirms_submitOrder v request d res
  rcases hprefs with ⟨hconfirm, rfl⟩ | ⟨hconfirm, p, hremembered⟩
  · rw [hconfirm, if_neg Bool.false_ne_true] at hconfirms
    exact Leaves.kept (confirmation_eq_none hconfirms) (fun c hc => by cases hc) rfl
  · rw [hconfirm, if_pos rfl] at hconfirms
    have htext : res.orderText = p.lastOrderText := by
      rw [hres, hremembered.lastOrderText]
    refine Leaves.written p ?_ (fun c hc => by cases hc) ?_ (hremembered.puts hunique)
    · rw [confirmation_eq hconfirms hr hrun hu, hremembered.keyOf, htext]
    · rw [hremembered.lastOrderText]
      exact validate_validated hv

theorem leaves_useLastOrder {runId userId : String} {res : UseLastOrderResult}
    (hunique : ∀ p ∈ db.userPreferences, ∀ q ∈ db.userPreferences, keyOf p = keyOf q → p = q)
    (h : (OrderService.useLastOrder v runId userId d).Returns db res db') :
    Leaves v ⟨db, (.useLastOrder v runId userId d, .ok (.usedLast res)), db'⟩ := by
  obtain ⟨run, user, old, text, mid, hr, hrun, -, hu, -, hold, hv, hp, q, hq, -, rfl⟩ :=
    OrderService.returns_useLastOrder h
  obtain ⟨order, orders, prefs, -, hprefs, rfl, hres⟩ := OrderService.returns_persistOrder hp
  obtain ⟨p, hremembered⟩ : ∃ p, Remembered db.userPreferences user.id run.channelId text
      (d.clock 1) p prefs := by
    rcases hprefs with ⟨hconfirm, -⟩ | ⟨-, hremembered⟩
    · exact absurd hconfirm (by decide)
    · exact hremembered
  have hputs := hremembered.puts hunique
  -- the row read before the order is the one the order has rewritten
  have hid : p.id = old.id := hremembered.id_eq hold
  have hqp : q = p := by
    have hfind : prefs.find? p.id = some p := Table.find?_key hputs.mem
    rw [hq, ← hid]
    exact congrArg (Option.getD · old) hfind
  subst hqp
  refine Leaves.written { q with lastUsedAt := some (d.clock 2), updatedAt := d.clock 2 } ?_
    (fun c hc => by cases hc) ?_ (puts_markUsed hputs)
  · have htext : res.submission.orderText = q.lastOrderText := by
      rw [hres, hremembered.lastOrderText]
    have hkey : keyOf q = (user.id, run.channelId) := hremembered.keyOf
    have hconfirms : confirms (.useLastOrder v runId userId d, .ok (.usedLast res)) =
      some ⟨runId, userId, res.submission⟩ := rfl
    rw [confirmation_eq hconfirms hr hrun hu, htext, ← hkey]
    rfl
  · show v.validate q.lastOrderText = .ok q.lastOrderText
    rw [hremembered.lastOrderText]
    exact validate_validated hv

theorem leaves_of_error {c : Call} {e : Exc} (h : step s db (c, .error e) db') :
    Leaves v ⟨db, (c, .error e), db'⟩ := by
  obtain rfl := failed_step h
  have hconfirms : confirms (c, .error e) = none := by cases c <;> rfl
  refine Leaves.kept (confirmation_eq_none hconfirms) (fun channel hc => ?_) rfl
  unfold Resets at hc
  rw [report_error] at hc
  cases hc

theorem leaves_of_ok {c : Call} {answer : Answer} (h : (c.tx s).Returns db answer db')
    (hv : ValidatesWith v c)
    (hunique : ∀ p ∈ db.userPreferences, ∀ q ∈ db.userPreferences, keyOf p = keyOf q → p = q) :
    Leaves v ⟨db, (c, .ok answer), db'⟩ := by
  cases c with
  | createRun run =>
    simp only [Call.tx, Program.returns_bind, returns_inserting, Program.returns_pure] at h
    obtain ⟨_, _, ⟨t, ht, rfl⟩, rfl, rfl⟩ := h
    exact Leaves.kept rfl (fun c hc => by cases hc) rfl
  | submitOrder validator request d =>
    obtain rfl : validator = v := hv
    obtain ⟨res, hcall, rfl⟩ := Program.returns_bind_pure.mp h
    exact leaves_submitOrder hunique hcall
  | useLastOrder validator runId userId d =>
    obtain rfl : validator = v := hv
    obtain ⟨res, hcall, rfl⟩ := Program.returns_bind_pure.mp h
    exact leaves_useLastOrder hunique hcall
  | cancelOrder runId userId d =>
    obtain ⟨res, hcall, rfl⟩ := Program.returns_bind_pure.mp h
    obtain ⟨run, user, o, orders, -, -, -, -, -, -, -, -, rfl, -⟩ :=
      OrderService.returns_cancelOrder.mp hcall
    exact Leaves.kept rfl (fun c hc => by cases hc) rfl
  | closeRun authorizer request now d =>
    obtain ⟨res, hcall, rfl⟩ := Program.returns_bind_pure.mp h
    obtain ⟨run, runner, hcl⟩ := CloseRunService.closes_of_returns hcall
    obtain ⟨stats, rfl⟩ := hcl.written
    exact Leaves.kept rfl (fun c hc => by cases hc) rfl
  | updateChannelConfig a slackChannelId actor patch d =>
    obtain ⟨res, hcall, rfl⟩ := Program.returns_bind_pure.mp h
    obtain ⟨channel, updates, -, -, -, -, -, ⟨-, rfl⟩ | ⟨-, t, -, rfl⟩⟩ :=
      AdminService.returns_updateChannelConfig hcall
    · exact Leaves.kept rfl (fun c hc => by cases hc) rfl
    · exact Leaves.kept rfl (fun c hc => by cases hc) rfl
  | setChannelEnabled a slackChannelId actor enabled reason d =>
    obtain ⟨res, hcall, rfl⟩ := Program.returns_bind_pure.mp h
    obtain ⟨channel, details, t, -, -, -, -, -, -, rfl⟩ := AdminService.returns_setChannelEnabled hcall
    exact Leaves.kept rfl (fun c hc => by cases hc) rfl
  | resetChannelData a slackChannelId actor d =>
    obtain ⟨res, hcall, rfl⟩ := Program.returns_bind_pure.mp h
    obtain ⟨channel, t, -, -, -, -, hid, -, rfl⟩ := AdminService.returns_resetChannelData hcall
    refine Leaves.purged channel.id rfl (fun c => ?_) rfl
    show Report.reset res.channelId = Report.reset c.str ↔ c = channel.id
    rw [hid, Report.reset.injEq, Uuid.str_inj]
    exact eq_comm

theorem leaves_of_step {e : Event} (h : step s e.before e.label e.after)
    (hv : ValidatesWith v e.label.1)
    (hunique : ∀ p ∈ e.before.userPreferences, ∀ q ∈ e.before.userPreferences,
      keyOf p = keyOf q → p = q) : Leaves v e := by
  obtain ⟨db, ⟨c, outcome⟩, db'⟩ := e
  cases outcome with
  | error e => exact leaves_of_error h
  | ok answer => exact leaves_of_ok h hv hunique

end Steps

/-! ### The preferences of a history -/

/-- The preferences are the map of the last confirmed orders, all of validated text. -/
structure Remembers (v : OrderValidator) (es : List Event) (db : Db) : Prop where
  maps : db.userPreferences.Maps keyOf UserPreference.lastOrderText
    (LastWrite.contents confirmation resets es)
  valid : ∀ p ∈ db.userPreferences, v.validate p.lastOrderText = .ok p.lastOrderText

section History
variable {s : Database} {v : OrderValidator} {db₀ db : Db} {es : List Event}

theorem Remembers.step {e : Event} (h : Remembers v es e.before) (he : Leaves v e) :
    Remembers v (es ++ [e]) e.after := by
  rcases he with ⟨hnone, hreset, hp⟩ | ⟨channel, hnone, hreset, hp⟩ | ⟨p, hsome, hreset, hv, hputs⟩
  · refine ⟨?_, hp ▸ h.valid⟩
    rw [LastWrite.contents_snoc, LastWrite.written_of_none hnone, hp]
    convert h.maps using 1
    funext k
    exact if_neg (hreset k.2)
  · refine ⟨?_, fun p hp' => h.valid p (Table.mem_delete.mp (hp ▸ hp')).1⟩
    rw [LastWrite.contents_snoc, LastWrite.written_of_none hnone, hp]
    apply h.maps.delete
    intro p _
    show decide (p.channelId = channel) = true ↔ Resets p.channelId e.label
    rw [decide_eq_true_iff, hreset]
  · refine ⟨?_, fun q hq => ?_⟩
    · rw [LastWrite.contents_snoc, LastWrite.written_of_write hsome]
      convert h.maps.puts hputs using 2
      funext k
      exact if_neg (hreset k.2)
    · rcases (hputs q).mp hq with rfl | ⟨hq, -⟩
      · exact hv
      · exact h.valid q hq

theorem remembers_of_history (h : History s db₀ es db) (hempty : db₀.userPreferences.rows = [])
    (hv : ∀ e ∈ es, ValidatesWith v e.label.1) : Remembers v es db := by
  refine Transition.Path.history_invariant (I := Remembers v)
    (C := fun e => ValidatesWith v e.label.1) (fun es e _ _ hstep hve hI => ?_) h hv ?_
  · exact hI.step (leaves_of_step hstep hve hI.maps.unique)
  · refine ⟨Table.maps_nil hempty, fun p hp => ?_⟩
    have hnil : p ∈ db₀.userPreferences.rows := hp
    rw [hempty] at hnil
    exact absurd hnil List.not_mem_nil

end History

/-! ### Replaying a preference -/

namespace OrderService

variable {v : OrderValidator} {db db' : Db} {d : Draws} {run : Run} {user : User}
  {runId userId : String} {e : Exc}

/-- Behind its lookups a replay fails where the rest of it does. -/
theorem raises_useLastOrder (hr : Uuid.parse runId = some run.id) (hrun : run ∈ db.runs)
    (hopen : run.status = .open) (hu : Uuid.parse userId = some user.id) (huser : user ∈ db.users) :
    (useLastOrder v runId userId d).Raises db e db' ↔ (do
      let preference ← savedOrder user run.channelId userId
      let normalized ← validated v preference.lastOrderText
      let (submission, written) ← persistHolding (some preference) run user normalized true
        .preference d
      let preference := sessionObject written preference
      PreferenceService.markUsed preference (d.clock 2)
      return { preferenceId := preference.id.str, submission := submission } :
        Tx UseLastOrderResult).Raises db e db' := by
  have hget : (RunRepository.getOpenRun (.str runId)).Returns db run db :=
    RunRepository.returns_getOpenRun.mpr ⟨hr, hrun, hopen, rfl⟩
  have huget : (UserRepository.get (.str userId)).Returns db user db :=
    UserRepository.returns_get.mpr ⟨hu, huser, rfl⟩
  unfold useLastOrder
  rw [hget.bind_raises, huget.bind_raises]

theorem raises_savedOrder (hf : db.userPreferences.rows.find? (ofUser user.id run.channelId) = none) :
    (savedOrder user run.channelId userId).Raises db e db' ↔
      e = .order (.preferenceNotFound s!"No saved order found for user {userId} in this channel.") ∧
        db' = db := by
  have hget : (getPreference (.uuid user.id) (.uuid run.channelId)).Returns db none db :=
    returns_getPreference.mpr ⟨hf.symm, rfl⟩
  unfold savedOrder
  rw [hget.bind_raises]
  exact raises_tx_raise

theorem raises_useLastOrder_none (hr : Uuid.parse runId = some run.id) (hrun : run ∈ db.runs)
    (hopen : run.status = .open) (hu : Uuid.parse userId = some user.id) (huser : user ∈ db.users)
    (hf : db.userPreferences.rows.find? (ofUser user.id run.channelId) = none) :
    (useLastOrder v runId userId d).Raises db e db' ↔
      e = .order (.preferenceNotFound s!"No saved order found for user {userId} in this channel.") ∧
        db' = db := by
  rw [raises_useLastOrder hr hrun hopen hu huser, ← raises_savedOrder hf]
  refine Program.raises_bind.trans (or_iff_left ?_)
  rintro ⟨p, u, hp, -⟩
  obtain ⟨hsome, -⟩ := returns_savedOrder.mp hp
  exact Option.some_ne_none p (hsome.symm.trans hf)

/-- With a saved order of valid text only the insert of the order row can fail. -/
theorem raises_useLastOrder_some {p : UserPreference} {text : String}
    (hr : Uuid.parse runId = some run.id) (hrun : run ∈ db.runs) (hopen : run.status = .open)
    (hu : Uuid.parse userId = some user.id) (huser : user ∈ db.users)
    (hf : db.userPreferences.rows.find? (ofUser user.id run.channelId) = some p)
    (hv : v.validate p.lastOrderText = .ok text)
    (h : (useLastOrder v runId userId d).Raises db e db') :
    e = .integrityError ∧ ∃ o ∈ db.orders, o.id = d.uuid4 0 := by
  have hsaved : (savedOrder user run.channelId userId).Returns db p db :=
    returns_savedOrder.mpr ⟨hf, rfl⟩
  have hvalid : (validated v p.lastOrderText).Returns db text db := returns_validated.mpr ⟨hv, rfl⟩
  rw [raises_useLastOrder hr hrun hopen hu huser, hsaved.bind_raises, hvalid.bind_raises] at h
  simp only [Program.raises_bind, raises_markUsed, Program.raises_pure, and_false, exists_false,
    or_self, or_false] at h
  have h := (exec_persistHolding_held hf).symm.trans h
  obtain ⟨he, ⟨-, htaken⟩ | ⟨-, hnone, -⟩⟩ := raises_persistOrder (Program.raises_bind_pure.mpr h)
  · exact ⟨he, htaken⟩
  · exact absurd (hf.symm.trans hnone) (Option.some_ne_none p)

theorem useLastOrder_writes {p : UserPreference} {text : String} {res : UseLastOrderResult}
    (hr : Uuid.parse runId = some run.id) (hrun : run ∈ db.runs)
    (hu : Uuid.parse userId = some user.id) 
    (hf : db.userPreferences.rows.find? (ofUser user.id run.channelId) = some p)
    (hv : v.validate p.lastOrderText = .ok text)
    (h : (useLastOrder v runId userId d).Returns db res db') :
    res.submission.orderText = text ∧
      ∃ o ∈ db'.orders, o.runId = run.id ∧ o.userId = user.id ∧ o.canceledAt = none ∧
        o.orderText = text := by
  obtain ⟨row, person, q, normalized, mid, hrow, hmem, -, hperson, -, hq, hvq, hp, _, -, -, rfl⟩ :=
    returns_useLastOrder h
  have hid : row.id = run.id := Option.some.inj (hrow.symm.trans hr)
  obtain rfl : row = run := Table.eq_of_key hmem hrun hid
  have huid : person.id = user.id := Option.some.inj (hperson.symm.trans hu)
  rw [huid] at hq
  obtain rfl : q = p := Option.some.inj (hq.symm.trans hf)
  obtain rfl : normalized = text := Except.ok.inj (hvq.symm.trans hv)
  obtain ⟨order, orders, prefs, hup, -, rfl, hres⟩ := returns_persistOrder hp
  refine ⟨by rw [hres], order, hup.mem, hup.runId, hup.userId.trans huid, hup.canceledAt,
    hup.orderText⟩

end OrderService

theorem find?_ofUser {db : Db} {user channel : Uuid} {p : UserPreference} (hp : p ∈ db.userPreferences)
    (hkey : keyOf p = (user, channel)) (hunique : ∀ q ∈ db.userPreferences, keyOf q = keyOf p → q = p) :
    db.userPreferences.rows.find? (ofUser user channel) = some p := by
  cases hf : db.userPreferences.rows.find? (ofUser user channel) with
  | none => exact absurd (ofUser_iff_keyOf.mpr hkey) (List.find?_eq_none.mp hf p hp)
  | some q =>
    have hq : keyOf q = (user, channel) := ofUser_iff_keyOf.mp (List.find?_some hf)
    rw [hunique q (List.mem_of_find?_eq_some hf) (hq.trans hkey.symm)]

section Replay
variable {v : OrderValidator} {es : List Event} {db : Db} {user channel : Uuid}

theorem Remembers.find?_none (h : Remembers v es db)
    (hnone : ¬∃ text, LastConfirmed es user channel text) :
    db.userPreferences.rows.find? (ofUser user channel) = none := by
  apply List.find?_eq_none.mpr
  intro p hp hkey
  have hcontents := h.maps.mem hp
  rw [ofUser_iff_keyOf.mp hkey] at hcontents
  exact hnone ⟨_, LastWrite.contents_eq_some.mp hcontents⟩

theorem Remembers.find?_some (h : Remembers v es db) {text : String}
    (hlast : LastConfirmed es user channel text) :
    ∃ p, db.userPreferences.rows.find? (ofUser user channel) = some p ∧
      v.validate p.lastOrderText = .ok text := by
  have hcontents := LastWrite.contents_eq_some.mpr hlast
  obtain ⟨p, hp, hkey, rfl⟩ := (h.maps.eq_some_iff _ _).mp hcontents
  exact ⟨p, find?_ofUser hp hkey fun q hq => h.maps.unique q hq p hp, h.valid p hp⟩

end Replay

/-- What `use_last_order` does on an open run for an existing user, whose last confirmed
order is given by `last`. -/
structure Replays (v : OrderValidator) (db : Db) (run : Run) (user : User) (runId userId : String)
    (d : Draws) (last : String → Prop) : Prop where
  notFound : (∃ message t, (OrderService.useLastOrder v runId userId d).Raises db
    (.order (.preferenceNotFound message)) t) ↔ ¬∃ text, last text
  valid : ∀ message field t, ¬(OrderService.useLastOrder v runId userId d).Raises db
    (.order (.orderValidation message field)) t
  returns : ∀ text, last text → (∀ o ∈ db.orders, o.id ≠ d.uuid4 0) →
    ∃ res db', (OrderService.useLastOrder v runId userId d).Returns db res db'
  writes : ∀ text res db', last text →
    (OrderService.useLastOrder v runId userId d).Returns db res db' →
    res.submission.orderText = text ∧ ∃ o ∈ db'.orders, o.runId = run.id ∧ o.userId = user.id ∧
      o.canceledAt = none ∧ o.orderText = text

theorem Remembers.replays {v : OrderValidator} {es : List Event} {db : Db} {run : Run} {user : User}
    {runId userId : String} {d : Draws} (h : Remembers v es db) (hr : Uuid.parse runId = some run.id)
    (hrun : run ∈ db.runs) (hopen : run.status = .open) (hu : Uuid.parse userId = some user.id)
    (huser : user ∈ db.users) :
    Replays v db run user runId userId d (LastConfirmed es user.id run.channelId) := by
  -- without a confirmed order it is not found, with one only the insert can be refused
  have hraise : ∀ {e t}, (OrderService.useLastOrder v runId userId d).Raises db e t →
      (¬∃ text, LastConfirmed es user.id run.channelId text) ∧
        e = .order (.preferenceNotFound
          s!"No saved order found for user {userId} in this channel.") ∨
      e = .integrityError ∧ ∃ o ∈ db.orders, o.id = d.uuid4 0 := by
    intro e t hraise
    by_cases hlast : ∃ text, LastConfirmed es user.id run.channelId text
    · obtain ⟨text, hlast⟩ := hlast
      obtain ⟨p, hf, hv⟩ := h.find?_some hlast
      exact Or.inr (OrderService.raises_useLastOrder_some hr hrun hopen hu huser hf hv hraise)
    · have hf := h.find?_none hlast
      exact Or.inl ⟨hlast, ((OrderService.raises_useLastOrder_none hr hrun hopen hu huser hf).mp
        hraise).1⟩
  refine ⟨⟨?_, fun hlast => ?_⟩, fun message field t hval => ?_, fun text hlast hfresh => ?_,
    fun text res db' hlast hret => ?_⟩
  · rintro ⟨message, t, hnotFound⟩
    rcases hraise hnotFound with ⟨hlast, -⟩ | ⟨he, -⟩
    · exact hlast
    · cases he
  · have hf := h.find?_none hlast
    exact ⟨_, db, (OrderService.raises_useLastOrder_none hr hrun hopen hu huser hf).mpr ⟨rfl, rfl⟩⟩
  · rcases hraise hval with ⟨-, he⟩ | ⟨he, -⟩
    · cases he
    · cases he
  · rcases Program.returns_or_raises (OrderService.useLastOrder v runId userId d) db with hret | hr'
    · exact hret
    · obtain ⟨e, t, hr'⟩ := hr'
      rcases hraise hr' with ⟨hnone, -⟩ | ⟨-, o, ho, hid⟩
      · exact absurd ⟨text, hlast⟩ hnone
      · exact absurd hid (hfresh o ho)
  · obtain ⟨p, hf, hv⟩ := h.find?_some hlast
    exact OrderService.useLastOrder_writes hr hrun hu hf hv hret

theorem preferences_are_last_confirmed (s : Database) (v : OrderValidator) (db₀ db : Db)
    (es : List Event) (h : History s db₀ es db) (hempty : db₀.userPreferences.rows = [])
    (hv : ∀ e ∈ es, ValidatesWith v e.label.1) :
    (∀ user channel text, LastConfirmed es user channel text ↔
      ∃ p ∈ db.userPreferences, p.userId = user ∧ p.channelId = channel ∧
        p.lastOrderText = text) ∧
    (∀ p ∈ db.userPreferences, ∀ q ∈ db.userPreferences,
      p.userId = q.userId → p.channelId = q.channelId → p = q) ∧
    (∀ es₁ e es₂ user channel, es = es₁ ++ e :: es₂ →
      (∀ text, confirmation e ≠ some ((user, channel), text)) → ¬Resets channel e.label →
      ∀ p, p.userId = user → p.channelId = channel →
        (p ∈ e.after.userPreferences ↔ p ∈ e.before.userPreferences)) ∧
    ∀ run user runId userId d, Uuid.parse runId = some run.id → run ∈ db.runs →
      run.status = .open → Uuid.parse userId = some user.id → user ∈ db.users →
      Replays v db run user runId userId d (LastConfirmed es user.id run.channelId) := by
  have hrem := remembers_of_history h hempty hv
  refine ⟨fun user channel text => ?_, fun p hp q hq hu hc => ?_, ?_,
    fun run user runId userId d hr hrun hopen hu huser => hrem.replays hr hrun hopen hu huser⟩
  · unfold LastConfirmed
    rw [← LastWrite.contents_eq_some, hrem.maps.eq_some_iff]
    simp only [keyOf, Prod.mk.injEq, and_assoc]
  · exact hrem.maps.unique p hp q hq (Prod.ext hu hc)
  · rintro es₁ e es₂ user channel rfl hconfirm hreset p rfl rfl
    obtain ⟨hpre, hstep, -⟩ := Transition.Path.split_iff.mp h
    have hbefore := remembers_of_history hpre hempty fun f hf => hv f (List.mem_append_left _ hf)
    have hve := hv e (List.mem_append_right _ List.mem_cons_self)
    rcases leaves_of_step hstep hve hbefore.maps.unique with
      ⟨-, -, hp⟩ | ⟨c, -, hr, hp⟩ | ⟨q, hq, -, -, hputs⟩
    · rw [hp]
    · rw [hp, Table.mem_delete]
      refine and_iff_left (decide_eq_false fun hc => hreset ?_)
      exact (hr p.channelId).mpr hc
    · apply hputs.other
      intro hkey
      exact hconfirm q.lastOrderText (hq.trans (congrArg (fun k => some (k, q.lastOrderText)) hkey.symm))

/-! ### One remembered order -/

def Sample.rememberCalls : List Call := [submit 1 11 alice, cancel 2 11 alice, close 3 11 true]

open Sample in
theorem preferences_are_last_confirmed_latte :
    LastConfirmed (replay database opened rememberCalls) alice.id channel.id "latte" ↔
      ∃ p ∈ (finalDb database opened rememberCalls).userPreferences, p.userId = alice.id ∧
        p.channelId = channel.id ∧ p.lastOrderText = "latte" :=
  (preferences_are_last_confirmed database {} opened (finalDb database opened rememberCalls)
    (replay database opened rememberCalls) (history_replay _ _ _) rfl
    (by simp [replay, occurrence, rememberCalls, submit, cancel, close, ValidatesWith])).1
    alice.id channel.id "latte"

end CoffeeBuddy

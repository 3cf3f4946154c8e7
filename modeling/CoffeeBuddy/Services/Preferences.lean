import CoffeeBuddy.Data.Schema

/-! `PreferenceService`: one remembered order per user and channel. -/

namespace CoffeeBuddy
open Relational Transaction

/-- What a call draws from outside: its successive clock readings and `uuid4()` values,
numbered by the places of the source that draw them. -/
structure Draws where
  clock : ℕ → Timestamp
  uuid4 : ℕ → Uuid

namespace PreferenceService

def ofUser (user channel : Uuid) (p : UserPreference) : Bool :=
  p.userId = user && p.channelId = channel

def getPreference (userId channelId : Ident) : Tx (Option UserPreference) := do
  let user ← asUuid userId
  let channel ← asUuid channelId
  Program.query fun db => db.userPreferences.rows.find? (ofUser user channel)

/-- `set_preference` in a session that holds the preference `held` from an earlier read. -/
def setPreference (held : Option UserPreference) (userId channelId : Ident) (orderText : String)
    (now : Timestamp) (newId : Uuid) : Tx UserPreference := do
  match ← getPreference userId channelId with
  | some row =>
    let existing := sessionObject held row
    let preference := { existing with
      lastOrderText := orderText, lastUsedAt := some now, updatedAt := now }
    updatePreference existing preference
    return preference
  | none =>
    let user ← asUuid userId
    let channel ← asUuid channelId
    let preference : UserPreference :=
      { id := newId, userId := user, channelId := channel, lastOrderText := orderText
        lastUsedAt := some now, createdAt := now, updatedAt := now }
    insertPreference preference
    return preference

def markUsed (preference : UserPreference) (now : Timestamp) : Tx Unit :=
  updatePreference preference { preference with lastUsedAt := some now, updatedAt := now }

variable {db db' : Db} {user channel : Uuid} {text : String} {now : Timestamp} {newId : Uuid}

@[simp] theorem returns_getPreference {p : Option UserPreference} :
    (getPreference (.uuid user) (.uuid channel)).Returns db p db' ↔
      p = db.userPreferences.rows.find? (ofUser user channel) ∧ db' = db := by
  simp only [getPreference, Program.returns_bind, returns_asUuid, Ident.asUuid_uuid,
    Program.returns_query]
  constructor
  · rintro ⟨_, _, ⟨⟨⟩, rfl⟩, _, _, ⟨⟨⟩, rfl⟩, h⟩
    exact h
  · intro h
    exact ⟨user, db, ⟨rfl, rfl⟩, channel, db, ⟨rfl, rfl⟩, h⟩

/-- The table `t` is the preferences `before` with `p` written for its user and channel. -/
structure Remembered (before : Table UserPreference) (user channel : Uuid) (text : String) (now : Timestamp)
    (p : UserPreference) (t : Table UserPreference) : Prop where
  userId : p.userId = user
  channelId : p.channelId = channel
  lastOrderText : p.lastOrderText = text
  lastUsedAt : p.lastUsedAt = some now
  updatedAt : p.updatedAt = now
  written :
    (∃ existing, before.rows.find? (ofUser user channel) = some existing ∧
      p.id = existing.id ∧ p.createdAt = existing.createdAt ∧
      t = before.update existing p) ∨
    before.rows.find? (ofUser user channel) = none ∧ p.createdAt = now ∧
      before.insert p = some t

theorem ofUser_iff {p : UserPreference} :
    ofUser user channel p = true ↔ p.userId = user ∧ p.channelId = channel := by
  simp only [ofUser, Bool.and_eq_true, decide_eq_true_eq]

def keyOf (p : UserPreference) : Uuid × Uuid := (p.userId, p.channelId)

theorem ofUser_iff_keyOf {p : UserPreference} :
    ofUser user channel p = true ↔ keyOf p = (user, channel) := by
  rw [ofUser_iff, keyOf, Prod.mk.injEq]

theorem Remembered.keyOf {before t : Table UserPreference} {p : UserPreference}
    (h : Remembered before user channel text now p t) :
    PreferenceService.keyOf p = (user, channel) := Prod.ext h.userId h.channelId

theorem Remembered.mem {before t : Table UserPreference} {p : UserPreference}
    (h : Remembered before user channel text now p t) : p ∈ t := by
  rcases h.written with ⟨existing, hf, hid, -, rfl⟩ | ⟨-, -, hi⟩
  · exact (Table.mem_update (List.mem_of_find?_eq_some hf) hid).mpr (Or.inl rfl)
  · exact (Table.mem_insert hi).mpr (Or.inr rfl)

theorem Remembered.id_eq {before t : Table UserPreference} {p old : UserPreference}
    (h : Remembered before user channel text now p t)
    (hold : before.rows.find? (ofUser user channel) = some old) : p.id = old.id := by
  rcases h.written with ⟨existing, hf, hid, -⟩ | ⟨hf, -⟩
  · rw [hid, Option.some.inj (hf.symm.trans hold)]
  · exact absurd (hf.symm.trans hold) (Option.some_ne_none old).symm

/-- With one row for each user and channel, a written preference takes the place of the old. -/
theorem Remembered.puts {before t : Table UserPreference} {p : UserPreference}
    (h : Remembered before user channel text now p t)
    (hu : ∀ q ∈ before, ∀ r ∈ before, PreferenceService.keyOf q = PreferenceService.keyOf r → q = r) :
    before.Puts PreferenceService.keyOf t p := by
  rcases h.written with ⟨existing, hf, hid, -, rfl⟩ | ⟨hf, -, hi⟩
  · have hkey : PreferenceService.keyOf existing = (user, channel) :=
      ofUser_iff_keyOf.mp (List.find?_some hf)
    have hmem : existing ∈ before := List.mem_of_find?_eq_some hf
    exact Table.puts_update hmem hid (h.keyOf.trans hkey.symm) fun q hq => hu q hq existing hmem
  · refine Table.puts_insert hi fun q hq hqk => ?_
    have hnone := List.find?_eq_none.mp hf q hq
    exact hnone (ofUser_iff_keyOf.mpr (hqk.trans h.keyOf))

/-- Alone, a session reads the row it holds again. -/
theorem exec_setPreference_held {p : UserPreference}
    (hp : db.userPreferences.rows.find? (ofUser user channel) = some p) :
    (setPreference (some p) (.uuid user) (.uuid channel) text now newId).exec db =
      (setPreference none (.uuid user) (.uuid channel) text now newId).exec db := by
  have hget : (getPreference (.uuid user) (.uuid channel)).exec db = (.ok (some p), db) :=
    returns_getPreference.mpr ⟨hp.symm, rfl⟩
  simp only [setPreference, Program.exec_bind, hget, sessionObject_of_key, sessionObject_none]

theorem returns_setPreference {p : UserPreference}
    (h : (setPreference none (.uuid user) (.uuid channel) text now newId).Returns db p db') :
    ∃ t, db' = { db with userPreferences := t } ∧ Remembered db.userPreferences user channel text now p t := by
  simp only [setPreference, Program.returns_bind, returns_getPreference] at h
  obtain ⟨found, _, ⟨hf, rfl⟩, h⟩ := h
  cases found with
  | none =>
    simp only [Program.returns_bind, returns_asUuid, Ident.asUuid_uuid, returns_inserting,
      Program.returns_pure] at h
    obtain ⟨_, _, ⟨⟨⟩, rfl⟩, _, _, ⟨⟨⟩, rfl⟩, _, _, ⟨t, ht, rfl⟩, rfl, rfl⟩ := h
    exact ⟨t, rfl, rfl, rfl, rfl, rfl, rfl, Or.inr ⟨hf.symm, rfl, ht⟩⟩
  | some existing =>
    simp only [sessionObject_none, Program.returns_bind, returns_updating, Program.returns_pure] at h
    obtain ⟨_, _, rfl, rfl, rfl⟩ := h
    obtain ⟨hu, hc⟩ := ofUser_iff.mp (List.find?_some hf.symm)
    exact ⟨_, rfl, hu, hc, rfl, rfl, rfl, Or.inl ⟨existing, hf.symm, rfl, rfl, rfl⟩⟩

theorem raises_setPreference {e : Exc}
    (h : (setPreference none (.uuid user) (.uuid channel) text now newId).Raises db e db') :
    e = .integrityError ∧ db.userPreferences.rows.find? (ofUser user channel) = none ∧
      ∃ p ∈ db.userPreferences, p.id = newId := by
  have hget : (getPreference (.uuid user) (.uuid channel)).Returns db
      (db.userPreferences.rows.find? (ofUser user channel)) db :=
    returns_getPreference.mpr ⟨rfl, rfl⟩
  unfold setPreference at h
  rw [hget.bind_raises] at h
  cases hf : db.userPreferences.rows.find? (ofUser user channel) with
  | none =>
    simp only [hf, Program.raises_bind, raises_asUuid, returns_asUuid, Ident.asUuid_uuid,
      reduceCtorEq, false_and, raises_inserting, Program.raises_pure, and_false, exists_false,
      or_false, false_or, Table.insert_eq_none] at h
    obtain ⟨_, _, ⟨⟨⟩, rfl⟩, _, _, ⟨⟨⟩, rfl⟩, htaken, rfl, -⟩ := h
    exact ⟨rfl, rfl, htaken⟩
  | some existing =>
    simp only [hf, Program.raises_bind, raises_updating, Program.raises_pure, and_false,
      exists_false, or_self] at h

theorem readOnly_getPreference (i j : Ident) : (getPreference i j).ReadOnly :=
  (readOnly_asUuid i).bind fun _ => (readOnly_asUuid j).bind fun _ => Program.readOnly_query _

@[simp] theorem returns_markUsed {p : UserPreference} {u : Unit} :
    (markUsed p now).Returns db u db' ↔
      db' = { db with
        userPreferences := db.userPreferences.update p
          { p with lastUsedAt := some now, updatedAt := now } } := by
  simp only [markUsed, returns_updating]

@[simp] theorem raises_markUsed {p : UserPreference} {e : Exc} :
    ¬(markUsed p now).Raises db e db' := by
  simp only [markUsed, raises_updating, not_false_eq_true]

end PreferenceService
end CoffeeBuddy

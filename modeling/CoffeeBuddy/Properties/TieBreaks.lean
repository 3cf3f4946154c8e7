import CoffeeBuddy.Properties.Assignment
import Mathlib.Data.Finset.Max

/-! Ties. The rationale announces the least user id among those tied on runs served and
last run; the key compares the creation of the rows first, and a blank row is created at
its user's turn in the listing. -/

namespace CoffeeBuddy
open Relational Transaction Listing FairnessService

section TieBreaks
variable {channel : Uuid} {d : Draws} {users : List Uuid} {last : Option Uuid} {allow : Bool}
  {t : Table RunnerStat} {u v : Uuid}

/-- The runner the rationale announces. -/
def Announced (channel : Uuid) (users : List Uuid) (last : Option Uuid) (allow : Bool)
    (t : Table RunnerStat) (u : Uuid) : Prop :=
  Eligible users last allow u ∧ ∀ v, Eligible users last allow v →
    standing channel t u < standing channel t v ∨
      standing channel t u = standing channel t v ∧ u.str ≤ v.str

/-- The creation of the row a participant is compared by: the stored one, or the reading
of the clock at its place among the participants without a row. -/
def creation (channel : Uuid) (d : Draws) (users : List Uuid) (t : Table RunnerStat) (u : Uuid) :
    Timestamp :=
  (statOf channel t u).elim (d.clock ((newcomers channel users t).idxOf u)) RunnerStat.createdAt

/-- The announced runner's row was created no later than that of anyone tied with it. -/
def FirstAmongTied (channel : Uuid) (d : Draws) (users : List Uuid) (last : Option Uuid)
    (allow : Bool) (t : Table RunnerStat) : Prop :=
  ∀ u, Announced channel users last allow t u → ∀ v, Eligible users last allow v →
    standing channel t v = standing channel t u →
    creation channel d users t u ≤ creation channel d users t v

/-- The call returns with `u` as the runner. -/
def Chooses (channelId : Ident) (participants : List Ident) (last : Option Uuid) (allow : Bool)
    (d : Draws) (db : Db) (u : Uuid) : Prop :=
  ∃ decision db', (assignRunner channelId participants (last.map Uuid.str) allow d).Returns
    db decision db' ∧ decision.runnerUserId = u.str

theorem creation_eq :
    (rowOf channel d users t u).createdAt = creation channel d users t u := by
  unfold rowOf creation
  cases statOf channel t u with
  | none => rfl
  | some s => rfl

theorem sortKey_rowOf_le_iff :
    sortKey (rowOf channel d users t u) ≤ sortKey (rowOf channel d users t v) ↔
      standing channel t u < standing channel t v ∨
        standing channel t u = standing channel t v ∧
          toLex (creation channel d users t u, u.str) ≤
            toLex (creation channel d users t v, v.str) := by
  rw [sortKey_le_iff, ← standing_eq, ← standing_eq, creation_eq, creation_eq, rowOf_userId,
    rowOf_userId]

theorem Announced.unique (hu : Announced channel users last allow t u)
    (hv : Announced channel users last allow t v) : u = v := by
  rcases hu.2 v hv.1 with hlt | ⟨heq, hle⟩ <;> rcases hv.2 u hu.1 with hlt' | ⟨heq', hle'⟩
  · exact absurd hlt' hlt.asymm
  · exact absurd hlt (heq' ▸ lt_irrefl _)
  · exact absurd hlt' (heq ▸ lt_irrefl _)
  · exact Uuid.str_inj.mp (le_antisymm hle hle')

/-- No two participants have the same key. -/
theorem eq_of_sortKey_le
    (h : sortKey (rowOf channel d users t u) ≤ sortKey (rowOf channel d users t v))
    (h' : sortKey (rowOf channel d users t v) ≤ sortKey (rowOf channel d users t u)) : u = v := by
  rcases sortKey_rowOf_le_iff.mp h with hlt | ⟨heq, hle⟩ <;>
    rcases sortKey_rowOf_le_iff.mp h' with hlt' | ⟨heq', hle'⟩
  · exact absurd hlt' hlt.asymm
  · exact absurd hlt (heq' ▸ lt_irrefl _)
  · exact absurd hlt' (heq ▸ lt_irrefl _)
  · have hkeys := toLex_inj.mp (le_antisymm hle hle')
    exact Uuid.str_inj.mp (Prod.mk.inj hkeys).2

theorem Least.unique (hu : Least channel d users last allow t u)
    (hv : Least channel d users last allow t v) : u = v :=
  eq_of_sortKey_le (hu.2 v hv.1) (hv.2 u hu.1)

theorem exists_announced (h : Eligible users last allow u) :
    ∃ v, Announced channel users last allow t v := by
  obtain ⟨v, hv, hle⟩ := Finset.exists_min_image (eligibleUsers users last allow)
    (fun v => toLex (standing channel t v, v.str)) ⟨u, mem_eligibleUsers.mpr h⟩
  refine ⟨v, mem_eligibleUsers.mp hv, fun w hw => ?_⟩
  exact Prod.Lex.toLex_le_toLex.mp (hle w (mem_eligibleUsers.mpr hw))

/-- A call chooses the announced runner exactly when that one's row comes first. -/
theorem least_announced_iff (h : Announced channel users last allow t u) :
    Least channel d users last allow t u ↔ FirstAmongTied channel d users last allow t := by
  constructor
  · intro hleast w hw v hv htied
    obtain rfl := h.unique hw
    rcases sortKey_rowOf_le_iff.mp (hleast.2 v hv) with hlt | ⟨-, hle⟩
    · exact absurd hlt (htied ▸ lt_irrefl _)
    · exact Prod.Lex.monotone_fst _ _ hle
  · intro hfirst
    refine ⟨h.1, fun v hv => sortKey_rowOf_le_iff.mpr ?_⟩
    rcases h.2 v hv with hlt | ⟨heq, hle⟩
    · exact Or.inl hlt
    · refine Or.inr ⟨heq, Prod.Lex.toLex_le_toLex.mpr ?_⟩
      rcases (hfirst u h v hv heq.symm).lt_or_eq with hlt | hcreated
      · exact Or.inl hlt
      · exact Or.inr ⟨hcreated, hle⟩

end TieBreaks

section Listings
variable {channelId : Ident} {channel : Uuid} {db : Db} {d d' : Draws}
  {participants participants' : List Ident} {users users' : List Uuid} {u : Uuid}

theorem chooses_iff (hchannel : channelId.asUuid = some channel)
    (hids : participants.map Ident.toStr = users.map Uuid.str) (hne : users ≠ [])
    (hone : OnePerUser channel db.runnerStats) (hm : Mints d users.length db.runnerStats)
    (last : Option Uuid) (allow : Bool) :
    Chooses channelId participants last allow d db u ↔
      Least channel d users last allow db.runnerStats u := by
  obtain ⟨v, grown, hleast, -, hret⟩ := returns_users hone hchannel hids hne hm last allow
  constructor
  · rintro ⟨decision, db', hdecision, hu⟩
    obtain ⟨rfl, -⟩ := Program.returns_functional hret hdecision
    rwa [← Uuid.str_inj.mp hu]
  · intro hu
    exact ⟨_, _, hret, congrArg Uuid.str (Least.unique hleast hu)⟩

/-- Two listings of the same users, each with its own readings of the clock: both calls
choose the announced runner exactly when in both its row is created first. -/
theorem ties_broken_as_announced_iff (hchannel : channelId.asUuid = some channel)
    (hids : participants.map Ident.toStr = users.map Uuid.str)
    (hids' : participants'.map Ident.toStr = users'.map Uuid.str)
    (hsame : ∀ u, u ∈ users ↔ u ∈ users') (hne : users ≠ []) (last : Option Uuid) (allow : Bool)
    (hone : OnePerUser channel db.runnerStats) (hm : Mints d users.length db.runnerStats)
    (hm' : Mints d' users'.length db.runnerStats) :
    (∃ u, Chooses channelId participants last allow d db u ∧
        Chooses channelId participants' last allow d' db u ∧
        Announced channel users last allow db.runnerStats u) ↔
      FirstAmongTied channel d users last allow db.runnerStats ∧
        FirstAmongTied channel d' users' last allow db.runnerStats := by
  have hne' : users' ≠ [] := by
    obtain ⟨x, hx⟩ := List.exists_mem_of_ne_nil _ hne
    exact List.ne_nil_of_mem ((hsame x).mp hx)
  have hannounced : ∀ u, Announced channel users last allow db.runnerStats u ↔
      Announced channel users' last allow db.runnerStats u := fun u => by
    simp only [Announced, Eligible.congr hsame]
  simp only [chooses_iff hchannel hids hne hone hm, chooses_iff hchannel hids' hne' hone hm']
  constructor
  · rintro ⟨u, hleast, hleast', hu⟩
    exact ⟨(least_announced_iff hu).mp hleast,
      (least_announced_iff ((hannounced u).mp hu)).mp hleast'⟩
  · rintro ⟨hfirst, hfirst'⟩
    obtain ⟨w, -, hw, -⟩ := returns_users hone hchannel hids hne hm last allow
    obtain ⟨u, hu⟩ : ∃ u, Announced channel users last allow db.runnerStats u :=
      exists_announced hw.1
    exact ⟨u, (least_announced_iff hu).mpr hfirst,
      (least_announced_iff ((hannounced u).mp hu)).mpr hfirst', hu⟩

end Listings

/-! ### Two users without a row -/

namespace Sample

/-- The runner of a call with neither a previous runner nor stored stats. -/
def runnerOf (users : List Uuid) : Option String :=
  ((assignRunner (.uuid channel.id) (idents users) none false (draws 5)).exec db).1.toOption.map
    FairnessDecision.runnerUserId

theorem runnerOf_facts : runnerOf [alice.id, bob.id] = some alice.id.str ∧
    runnerOf [bob.id, alice.id] = some bob.id.str := by
  decide +kernel

theorem runnerOf_of_chooses {users : List Uuid} {u : Uuid}
    (h : Chooses (.uuid channel.id) (idents users) none false (draws 5) db u) :
    runnerOf users = some u.str := by
  obtain ⟨decision, db', hret, hu⟩ := h
  have hexec : (assignRunner (.uuid channel.id) (idents users) none false (draws 5)).exec db =
      (.ok decision, db') := hret
  rw [runnerOf, hexec, ← hu]
  rfl

end Sample

open Sample in
/-- Listed alice first, alice runs; listed bob first, bob does. -/
theorem tie_depends_on_listing :
    ¬∃ u, Chooses (.uuid channel.id) (idents [alice.id, bob.id]) none false (draws 5) db u ∧
      Chooses (.uuid channel.id) (idents [bob.id, alice.id]) none false (draws 5) db u ∧
      Announced channel.id [alice.id, bob.id] none false db.runnerStats u := by
  rintro ⟨u, halice, hbob, -⟩
  have hu := runnerOf_of_chooses halice
  have hu' := runnerOf_of_chooses hbob
  rw [runnerOf_facts.1, Option.some.injEq] at hu
  rw [runnerOf_facts.2, Option.some.injEq] at hu'
  exact absurd (hu.trans hu'.symm) (by decide +kernel)

namespace Sample

/-- Alice has a row from before and bob has none: both have served nothing. -/
def tied : Db :=
  { db with runnerStats := ⟨[⟨.ofNat 41, alice.id, channel.id, 0, none, 2, 2⟩], by decide⟩ }

theorem onePerUser_tied : OnePerUser channel.id tied.runnerStats := by
  unfold OnePerUser
  decide

theorem standing_tied :
    standing channel.id tied.runnerStats alice.id = standing channel.id tied.runnerStats bob.id := by
  decide +kernel

theorem firstAmongTied_tied {d : Draws} {users : List Uuid} (hclock : ∀ n, 2 ≤ d.clock n)
    (halice : alice.id ∈ users) (hothers : ∀ u ∈ users, u = alice.id ∨ u = bob.id) :
    FirstAmongTied channel.id d users none false tied.runnerStats := by
  intro u hu v hv _
  have hcreated : creation channel.id d users tied.runnerStats alice.id = 2 := rfl
  have hblank : creation channel.id d users tied.runnerStats bob.id =
      d.clock ((newcomers channel.id users tied.runnerStats).idxOf bob.id) := rfl
  rcases hothers u hu.1.1 with rfl | rfl
  · rw [hcreated]
    rcases hothers v hv.1 with rfl | rfl
    · exact hcreated.ge
    · exact hblank ▸ hclock _
  · -- alice is tied with bob and has the lesser id
    have hnot : ¬bob.id.str ≤ alice.id.str := by decide +kernel
    have heligible : Eligible users none false alice.id := ⟨halice, fun _ _ => by simp⟩
    rcases hu.2 alice.id heligible with hlt | ⟨-, hle⟩
    · exact absurd (standing_tied ▸ hlt) (lt_irrefl _)
    · exact absurd hle hnot

end Sample

open Sample in
/-- Both listings choose alice, whose row is older than the one bob gets. -/
theorem ties_broken_as_announced_iff_tied :
    standing channel.id tied.runnerStats alice.id = standing channel.id tied.runnerStats bob.id ∧
    ∃ u, Chooses (.uuid channel.id) (idents [alice.id, bob.id]) none false (draws 5) tied u ∧
      Chooses (.uuid channel.id) (idents [bob.id, alice.id, bob.id]) none false (draws 6) tied u ∧
      Announced channel.id [alice.id, bob.id] none false tied.runnerStats u := by
  have hclock : ∀ m n : ℕ, 2 ≤ (draws (m + 2)).clock n := fun m n => by
    show (2 : ℤ) ≤ ((m + 2 : ℕ) : ℤ) + n
    omega
  have hfirst : FirstAmongTied channel.id (draws 5) [alice.id, bob.id] none false tied.runnerStats :=
    firstAmongTied_tied (hclock 3) (by decide) (by decide)
  have hfirst' : FirstAmongTied channel.id (draws 6) [bob.id, alice.id, bob.id] none false
      tied.runnerStats := firstAmongTied_tied (hclock 4) (by decide) (by decide)
  refine ⟨standing_tied, ?_⟩
  exact (ties_broken_as_announced_iff rfl rfl rfl (fun u => by simp [or_comm, or_left_comm])
    (List.cons_ne_nil _ _) none false onePerUser_tied ⟨by decide, by decide⟩
    ⟨by decide, by decide⟩).mpr ⟨hfirst, hfirst'⟩

end CoffeeBuddy

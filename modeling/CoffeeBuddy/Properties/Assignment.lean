import CoffeeBuddy.Services.Assignment
import CoffeeBuddy.Services.History

/-! Who `assign_runner` chooses, what it tells the users, and what it leaves of the
stats. -/

namespace CoffeeBuddy
open Relational Transaction Listing FairnessService

/-- The distinct participants, without the previous runner where repeats are not allowed
and at least two take part. -/
def eligibleUsers (users : List Uuid) (last : Option Uuid) (allowImmediateRepeat : Bool) :
    Finset Uuid :=
  if allowImmediateRepeat = false ∧ 1 < users.toFinset.card then
    users.toFinset.filter fun u => last ≠ some u
  else users.toFinset

theorem mem_eligibleUsers {users : List Uuid} {last : Option Uuid} {allow : Bool} {u : Uuid} :
    u ∈ eligibleUsers users last allow ↔ Eligible users last allow u := by
  have hcard : u ∈ users → (1 < users.toFinset.card ↔ ∃ v ∈ users, v ≠ u) := by
    intro hu
    rw [Finset.one_lt_card]
    simp only [List.mem_toFinset]
    constructor
    · rintro ⟨a, ha, b, hb, hab⟩
      by_cases hau : a = u
      · exact ⟨b, hb, fun hbu => hab (hau.trans hbu.symm)⟩
      · exact ⟨a, ha, hau⟩
    · rintro ⟨v, hv, hvu⟩
      exact ⟨v, hv, u, hu, hvu⟩
  unfold eligibleUsers Eligible
  split_ifs with h
  · rw [Finset.mem_filter, List.mem_toFinset]
    exact and_congr_right fun hu => ⟨fun hl _ _ => hl, fun he => he h.1 ((hcard hu).mp h.2)⟩
  · rw [List.mem_toFinset]
    refine (and_iff_left_of_imp fun hu hallow hother => ?_).symm
    exact absurd ⟨hallow, (hcard hu).mpr hother⟩ h

/-- The rationale ends with the sentence about the previous runner. -/
def MentionsExclusion (rationale : String) : Prop :=
  " Previous runner excluded to avoid back-to-back assignments.".toList <:+ rationale.toList

theorem mentionsExclusion_buildRationale (count : ℤ) (excluded : Bool) :
    MentionsExclusion (buildRationale count excluded) ↔ excluded = true := by
  cases excluded with
  | true =>
    refine iff_of_true ?_ rfl
    unfold MentionsExclusion buildRationale
    rw [if_pos rfl, String.toList_append]
    exact List.suffix_append _ _
  | false =>
    refine iff_of_false (fun h => ?_) Bool.false_ne_true
    -- the text ends with the sentence about the tie-breakers, which is the longer one
    have htie : "Tie-breakers: earliest last_run_at then deterministic user id.".toList <:+
        (buildRationale count false).toList := by
      unfold buildRationale
      rw [if_neg Bool.false_ne_true, String.toList_append]
      exact List.suffix_append _ _
    have hsuffix := List.suffix_of_suffix_length_le h htie (by decide)
    revert hsuffix
    decide

/-- `after` is `before` with the runner credited at `now` and a blank row for every other
participant that had none. -/
structure CreditsRunner (channel : Uuid) (users : List Uuid) (runner : Uuid) (now : Timestamp)
    (before after : Table RunnerStat) : Prop where
  credit : ∀ s ∈ before, s.channelId = channel → s.userId = runner →
    { s with
      runsServedCount := s.runsServedCount + 1, lastRunAt := some now, updatedAt := now } ∈ after
  gained : ∀ u ∈ users, (∀ s ∈ before, s.channelId = channel → s.userId ≠ u) →
    ∃ s ∈ after, s.channelId = channel ∧ s.userId = u ∧
      s.runsServedCount = (if u = runner then 1 else 0) ∧
      s.lastRunAt = if u = runner then some now else none
  onePerUser : OnePerUser channel after
  kept : ∀ s ∈ before, (s.channelId = channel → s.userId ≠ runner) → s ∈ after
  nothingElse : ∀ s ∈ after, s ∈ before ∨ s.channelId = channel ∧ s.userId ∈ users ∧
    (s.userId = runner ∨ ∀ r ∈ before, r.channelId = channel → r.userId ≠ s.userId)

section CreditsRunner
variable {channel : Uuid} {d : Draws} {users : List Uuid} {before grown : Table RunnerStat}
  {u : Uuid}

theorem mem_grown (hgrown : grown.rows = before.rows ++
      newStats channel d 0 (newcomers channel users before)) {s : RunnerStat} :
    s ∈ grown ↔ s ∈ before ∨
      s.userId ∈ newcomers channel users before ∧ s = rowOf channel d users before s.userId := by
  rw [← Table.mem_rows, hgrown, List.mem_append, mem_newStats_newcomers, Table.mem_rows]

theorem rowOf_mem_grown (hgrown : grown.rows = before.rows ++
      newStats channel d 0 (newcomers channel users before)) (hu : u ∈ users) :
    rowOf channel d users before u ∈ grown := by
  rw [mem_grown hgrown]
  cases hstat : statOf channel before u with
  | none =>
    right
    rw [rowOf_userId]
    exact ⟨mem_newcomers.mpr ⟨hu, hstat⟩, rfl⟩
  | some s =>
    left
    rw [rowOf, hstat, Option.getD_some]
    exact (mem_of_statOf hstat).1

/-- Every row of the channel in the grown table is the one its user is compared by. -/
theorem eq_rowOf_of_mem_grown (hone : OnePerUser channel before)
    (hgrown : grown.rows = before.rows ++ newStats channel d 0 (newcomers channel users before))
    {s : RunnerStat} (hs : s ∈ grown) (hc : s.channelId = channel) :
    s = rowOf channel d users before s.userId := by
  rcases (mem_grown hgrown).mp hs with hs | ⟨-, hrow⟩
  · rw [rowOf, (statOf_eq_some hone).mpr ⟨hs, hc, rfl⟩, Option.getD_some]
  · exact hrow

theorem mem_credited_iff (hgrown : grown.rows = before.rows ++
      newStats channel d 0 (newcomers channel users before)) (hu : u ∈ users) (now : Timestamp)
    (s : RunnerStat) :
    s ∈ grown.update (rowOf channel d users before u)
      (credited (rowOf channel d users before u) now) ↔
      s = credited (rowOf channel d users before u) now ∨
        s ∈ grown ∧ Keyed.key s ≠ Keyed.key (rowOf channel d users before u) :=
  Table.mem_update (rowOf_mem_grown hgrown hu) rfl

theorem key_ne_rowOf (hgrown : grown.rows = before.rows ++
      newStats channel d 0 (newcomers channel users before)) (hu : u ∈ users) {s : RunnerStat}
    (hs : s ∈ grown) (hsu : s.channelId = channel → s.userId ≠ u) :
    Keyed.key s ≠ Keyed.key (rowOf channel d users before u) := by
  intro hk
  have heq := Table.eq_of_key hs (rowOf_mem_grown hgrown hu) hk
  apply hsu
  · rw [heq, rowOf_channelId]
  · rw [heq, rowOf_userId]

theorem rowOf_of_mem (hone : OnePerUser channel before) {s : RunnerStat} (hs : s ∈ before)
    (hc : s.channelId = channel) (hsu : s.userId = u) : rowOf channel d users before u = s := by
  rw [rowOf, (statOf_eq_some hone).mpr ⟨hs, hc, hsu⟩, Option.getD_some]

theorem rowOf_of_none (hnone : ∀ s ∈ before, s.channelId = channel → s.userId ≠ u) :
    rowOf channel d users before u =
      newStat channel d ((newcomers channel users before).idxOf u) u := by
  rw [rowOf, statOf_eq_none.mpr hnone, Option.getD_none]

theorem exists_gained (hgrown : grown.rows = before.rows ++
      newStats channel d 0 (newcomers channel users before)) (hu : u ∈ users) (now : Timestamp)
    {v : Uuid} (hv : v ∈ users) (hnone : ∀ s ∈ before, s.channelId = channel → s.userId ≠ v) :
    ∃ s ∈ grown.update (rowOf channel d users before u)
        (credited (rowOf channel d users before u) now),
      s.channelId = channel ∧ s.userId = v ∧ s.runsServedCount = (if v = u then 1 else 0) ∧
      s.lastRunAt = if v = u then some now else none := by
  have hblank : rowOf channel d users before v =
      newStat channel d ((newcomers channel users before).idxOf v) v := rowOf_of_none hnone
  by_cases hvu : v = u
  · subst hvu
    refine ⟨credited (rowOf channel d users before v) now, ?_, rowOf_channelId, rowOf_userId, ?_, ?_⟩
    · exact (mem_credited_iff hgrown hu now _).mpr (Or.inl rfl)
    · rw [if_pos rfl, hblank]
      rfl
    · rw [if_pos rfl]
      rfl
  · have hgrow := rowOf_mem_grown hgrown hv
    have hkey : Keyed.key (rowOf channel d users before v) ≠
        Keyed.key (rowOf channel d users before u) :=
      key_ne_rowOf hgrown hu hgrow fun _ => by rwa [rowOf_userId]
    refine ⟨rowOf channel d users before v, ?_, rowOf_channelId, rowOf_userId, ?_, ?_⟩
    · exact (mem_credited_iff hgrown hu now _).mpr (Or.inr ⟨hgrow, hkey⟩)
    · rw [if_neg hvu, hblank]
      rfl
    · rw [if_neg hvu, hblank]
      rfl

theorem onePerUser_grown (hone : OnePerUser channel before)
    (hgrown : grown.rows = before.rows ++ newStats channel d 0 (newcomers channel users before)) :
    OnePerUser channel grown := by
  intro s hs r hr hsc hrc hsr
  rw [eq_rowOf_of_mem_grown hone hgrown hs hsc, eq_rowOf_of_mem_grown hone hgrown hr hrc, hsr]

theorem credits_of_grown (hone : OnePerUser channel before)
    (hgrown : grown.rows = before.rows ++ newStats channel d 0 (newcomers channel users before))
    (hu : u ∈ users) (now : Timestamp) :
    CreditsRunner channel users u now before (grown.update (rowOf channel d users before u)
      (credited (rowOf channel d users before u) now)) := by
  have hmem := mem_credited_iff hgrown hu now
  refine ⟨fun s hs hc hsu => ?_, fun v hv hnone => exists_gained hgrown hu now hv hnone,
    (onePerUser_grown hone hgrown).update (rowOf_mem_grown hgrown hu) rfl rfl rfl,
    fun s hs hsu => ?_, fun s hs => ?_⟩
  · rw [hmem, rowOf_of_mem hone hs hc hsu]
    exact Or.inl rfl
  · have hgrow := (mem_grown hgrown).mpr (Or.inl hs)
    exact (hmem s).mpr (Or.inr ⟨hgrow, key_ne_rowOf hgrown hu hgrow hsu⟩)
  · rcases (hmem s).mp hs with rfl | ⟨hs, -⟩
    · right
      rw [credited_channelId, credited_userId, rowOf_channelId, rowOf_userId]
      exact ⟨rfl, hu, Or.inl rfl⟩
    · rcases (mem_grown hgrown).mp hs with hs | ⟨hnew, hrow⟩
      · exact Or.inl hs
      · obtain ⟨hv, hnone⟩ := mem_newcomers.mp hnew
        have hc : s.channelId = channel := by rw [hrow, rowOf_channelId]
        exact Or.inr ⟨hc, hv, Or.inr (statOf_eq_none.mp hnone)⟩

end CreditsRunner

/-- What a call decides and writes, against the table before it. -/
structure Assigns (channel : Uuid) (users : List Uuid) (last : Option Uuid) (allow : Bool)
    (now : Timestamp) (db : Db) (decision : FairnessDecision) (runner : Uuid) (db' : Db) :
    Prop where
  runnerUserId : decision.runnerUserId = runner.str
  eligible : runner ∈ eligibleUsers users last allow
  least : ∀ v ∈ eligibleUsers users last allow,
    standing channel db.runnerStats runner ≤ standing channel db.runnerStats v
  rationale : decision.rationale = buildRationale (ofLex (standing channel db.runnerStats runner)).1
    (decide (∃ v ∈ users, v ∉ eligibleUsers users last allow))
  mentions : MentionsExclusion decision.rationale ↔
    ∃ v ∈ users, v ∉ eligibleUsers users last allow
  written : ∃ after, db' = { db with runnerStats := after } ∧
    CreditsRunner channel users runner now db.runnerStats after

section Correct
variable {channelId : Ident} {channel : Uuid} {participants : List Ident} {users : List Uuid}
  {d : Draws} {db : Db}

/-- Never having run counts as the earliest last run. -/
theorem epoch_le_standing (hepoch : ∀ s ∈ db.runnerStats, s.channelId = channel →
      ∀ t, s.lastRunAt = some t → epoch ≤ t) (u : Uuid) :
    epoch ≤ (ofLex (standing channel db.runnerStats u)).2 := by
  unfold standing
  cases hstat : statOf channel db.runnerStats u with
  | none => exact le_rfl
  | some s =>
    obtain ⟨hs, hc, -⟩ := mem_of_statOf hstat
    change epoch ≤ s.lastRunAt.getD epoch
    cases hlast : s.lastRunAt with
    | none => exact le_rfl
    | some t => exact hepoch s hs hc t hlast

/-- With one row per user and new ids, `assign_runner` chooses a least eligible
participant and credits it, and nothing else changes. -/
theorem assign_runner_correct (hchannel : channelId.asUuid = some channel)
    (hparticipants : participants.map Ident.toStr = users.map Uuid.str) (hne : users ≠ [])
    (last : Option Uuid) (allow : Bool) (hone : OnePerUser channel db.runnerStats)
    (hepoch : ∀ s ∈ db.runnerStats, s.channelId = channel →
      ∀ t, s.lastRunAt = some t → epoch ≤ t)
    (hfresh : Mints d users.length db.runnerStats) :
    ∃ decision runner db',
      (assignRunner channelId participants (last.map Uuid.str) allow d).Returns db decision db' ∧
      Assigns channel users last allow
        (d.clock (newcomers channel users db.runnerStats).length) db decision runner db' ∧
      ∀ u, epoch ≤ (ofLex (standing channel db.runnerStats u)).2 := by
  obtain ⟨u, grown, ⟨heligible, hleast⟩, hgrown, hret⟩ :=
    returns_users hone hchannel hparticipants hne hfresh last allow
  have hexcluded : (∃ v ∈ users, ¬Eligible users last allow v) ↔
      ∃ v ∈ users, v ∉ eligibleUsers users last allow := by
    simp only [mem_eligibleUsers]
  refine ⟨_, u, _, hret, ⟨rfl, mem_eligibleUsers.mpr heligible, fun v hv => ?_, ?_, ?_, _, rfl, ?_⟩,
    epoch_le_standing hepoch⟩
  -- the key compares the standing before the id
  · rcases sortKey_le_iff.mp (hleast v (mem_eligibleUsers.mp hv)) with hlt | ⟨heq, -⟩
    · rw [← standing_eq, ← standing_eq] at hlt
      exact hlt.le
    · rw [← standing_eq, ← standing_eq] at heq
      exact heq.le
  · have hstanding : standing channel db.runnerStats u =
        toLex ((rowOf channel d users db.runnerStats u).runsServedCount,
          (rowOf channel d users db.runnerStats u).lastRunAt.getD epoch) := standing_eq
    rw [hstanding]
    simp only [hexcluded]
    rfl
  · rw [mentionsExclusion_buildRationale, decide_eq_true_eq]
    exact hexcluded
  · exact credits_of_grown hone hgrown heligible.1 _

end Correct

namespace Sample

/-- Bob has served once, alice only in another channel. -/
def bobServed : Db :=
  { db with
    runnerStats := ⟨[⟨.ofNat 41, bob.id, channel.id, 1, some 3, 3, 3⟩,
      ⟨.ofNat 42, alice.id, .ofNat 8, 0, none, 3, 3⟩], by decide⟩ }

theorem mints_bobServed : Mints (draws 5) 3 bobServed.runnerStats := ⟨by decide, by decide⟩

theorem onePerUser_bobServed : OnePerUser channel.id bobServed.runnerStats := by
  unfold OnePerUser
  decide

theorem epoch_bobServed : ∀ s ∈ bobServed.runnerStats, s.channelId = channel.id →
    ∀ t, s.lastRunAt = some t → epoch ≤ t := by
  intro s hs _ t ht
  have hlast : ∀ s ∈ bobServed.runnerStats, epoch ≤ s.lastRunAt.getD epoch := by decide
  have hle := hlast s hs
  rwa [ht, Option.getD_some] at hle

end Sample

open Sample in
/-- Alice, who has no row here, was the previous runner: bob serves again. -/
theorem assign_runner_correct_repeated : ∃ decision runner db',
    (assignRunner (.uuid channel.id) [.str bob.id.str, .uuid alice.id, .uuid bob.id]
      (some alice.id.str) false (draws 5)).Returns bobServed decision db' ∧
    Assigns channel.id [bob.id, alice.id, bob.id] (some alice.id) false
      ((draws 5).clock
        (newcomers channel.id [bob.id, alice.id, bob.id] bobServed.runnerStats).length)
      bobServed decision runner db' ∧
    ∀ u, epoch ≤ (ofLex (standing channel.id bobServed.runnerStats u)).2 :=
  assign_runner_correct rfl rfl (List.cons_ne_nil _ _) (some alice.id) false onePerUser_bobServed
    epoch_bobServed mints_bobServed

end CoffeeBuddy

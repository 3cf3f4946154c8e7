import CoffeeBuddy.Properties.TieBreaks

/-! Spellings of ids. The stats are filed under the texts of the participants, looked for
under the canonical ones, and asked for the previous runner under the text given; a call
depends on the spelling unless these meet. -/

namespace CoffeeBuddy
open Relational Transaction Listing FairnessService

/-- The identifier as `str(UUID(…))`. -/
def Ident.canonical (i : Ident) : Ident := .str ((i.asUuid.map Uuid.str).getD i.toStr)

/-- The key under which a `last_runner_id` can be found among the stats; these are filed
under texts, and a UUID object equals none. -/
def lastKey : Ident → Option String
  | .str text => some text
  | .uuid _ => none

def usersOf (ids : List Ident) : List Uuid := ids.filterMap Ident.asUuid

/-- The texts of the identifiers with the users they name. -/
def listing (ids : List Ident) : List Listed :=
  ids.filterMap fun i => i.asUuid.map fun u => (i.toStr, u)

section Spelling
variable {channel : Uuid} {ids : List Ident} {last : Option Ident} {allow : Bool} {d : Draws}
  {t : Table RunnerStat} {u : Uuid}

/-- Somebody is to be left out. -/
def Excludes (ids : List Ident) (last : Option Ident) (allow : Bool) : Prop :=
  ∃ v ∈ usersOf ids, ¬Eligible (usersOf ids) (last.bind Ident.asUuid) allow v

/-- The participants compared when the previous runner is recognised by its text alone. -/
def Kept (ids : List Ident) (last : Option Ident) (allow : Bool) (u : Uuid) : Prop :=
  u ∈ usersOf ids ∧ (Excludes ids last allow → last ≠ some (.str u.str))

/-- Where spelling does not matter: each user is listed under one text, under the
canonical one if it has a row; a previous runner to be left out is given as it is listed;
and the first of those compared is listed under its canonical text. -/
structure SpellingHarmless (channel : Uuid) (ids : List Ident) (last : Option Ident)
    (allow : Bool) (d : Draws) (t : Table RunnerStat) : Prop where
  oncePerUser : ∀ i ∈ ids, ∀ j ∈ ids, i.asUuid = j.asUuid → i.toStr = j.toStr
  stored : ∀ i ∈ ids, ∀ u, i.asUuid = some u → i.toStr ≠ u.str → statOf channel t u = none
  recognised : Excludes ids last allow → ∃ i ∈ ids, last = some (.str i.toStr)
  first : ∀ u, Kept ids last allow u →
    (∀ v, Kept ids last allow v →
      sortKey (rowOf channel d (usersOf ids) t u) ≤ sortKey (rowOf channel d (usersOf ids) t v)) →
    u.str ∈ ids.map Ident.toStr

theorem mem_usersOf : u ∈ usersOf ids ↔ ∃ i ∈ ids, i.asUuid = some u := List.mem_filterMap

theorem mem_listing {p : Listed} :
    p ∈ listing ids ↔ ∃ i ∈ ids, i.toStr = p.1 ∧ i.asUuid = some p.2 := by
  simp only [listing, List.mem_filterMap, Option.map_eq_some_iff]
  constructor
  · rintro ⟨i, hi, u, hu, rfl⟩
    exact ⟨i, hi, rfl, hu⟩
  · rintro ⟨i, hi, ht, hu⟩
    exact ⟨i, hi, p.2, hu, Prod.ext ht rfl⟩

theorem Ident.parse_toStr {i : Ident} (h : i.asUuid = some u) : Uuid.parse i.toStr = some u := by
  cases i with
  | str text => exact h
  | uuid v =>
    obtain rfl := Option.some.inj h
    exact Uuid.parse_str v

theorem Ident.bind_asUuid_toStr {i : Ident} (h : i.asUuid = some u) :
    (some (Ident.str i.toStr)).bind Ident.asUuid = some u := by
  rw [Option.bind_some, Ident.asUuid]
  exact Ident.parse_toStr h

theorem Ident.asUuid_of_toStr {i : Ident} (hi : i.asUuid.isSome = true) (h : i.toStr = u.str) :
    i.asUuid = some u := by
  obtain ⟨v, hv⟩ := Option.isSome_iff_exists.mp hi
  have hparse := Ident.parse_toStr hv
  rw [h, Uuid.parse_str] at hparse
  rw [hv, hparse]

theorem parse_listing : ∀ p ∈ listing ids, Uuid.parse p.1 = some p.2 := by
  intro p hp
  obtain ⟨i, -, hi, hu⟩ := mem_listing.mp hp
  rw [← hi]
  exact Ident.parse_toStr hu

theorem map_snd_listing : (listing ids).map Prod.snd = usersOf ids := by
  rw [listing, usersOf, List.map_filterMap]
  refine List.filterMap_congr fun i _ => ?_
  cases i.asUuid <;> rfl

theorem map_fst_listing (hids : ∀ i ∈ ids, i.asUuid.isSome = true) :
    (listing ids).map Prod.fst = ids.map Ident.toStr := by
  rw [listing, List.map_filterMap, ← List.filterMap_eq_map]
  refine List.filterMap_congr fun i hi => ?_
  obtain ⟨u, hu⟩ := Option.isSome_iff_exists.mp (hids i hi)
  rw [hu]
  rfl

theorem length_listing (hids : ∀ i ∈ ids, i.asUuid.isSome = true) :
    (listing ids).length = ids.length := by
  rw [← List.length_map Prod.fst, map_fst_listing hids, List.length_map]

theorem length_usersOf (hids : ∀ i ∈ ids, i.asUuid.isSome = true) :
    (usersOf ids).length = ids.length := by
  rw [← map_snd_listing, List.length_map, length_listing hids]

theorem parse_firstSeen_listing : ∀ p ∈ firstSeen (listing ids), Uuid.parse p.1 = some p.2 :=
  fun p hp => parse_listing p (mem_firstSeen.mp hp)

theorem uniqueOrdered_listing (hids : ∀ i ∈ ids, i.asUuid.isSome = true) :
    uniqueOrdered ids = (firstSeen (listing ids)).map Prod.fst := by
  rw [uniqueOrdered_eq, ← map_fst_listing hids]
  refine firstSeen_map fun p hp q hq hpq => Prod.ext hpq ?_
  have hparse := parse_listing p hp
  rw [hpq, parse_listing q hq, Option.some.injEq] at hparse
  exact hparse.symm

theorem map_toStr_canonical (hids : ∀ i ∈ ids, i.asUuid.isSome = true) :
    (ids.map Ident.canonical).map Ident.toStr = (usersOf ids).map Uuid.str := by
  rw [usersOf, List.map_filterMap, List.map_map, ← List.filterMap_eq_map]
  refine List.filterMap_congr fun i hi => ?_
  obtain ⟨u, hu⟩ := Option.isSome_iff_exists.mp (hids i hi)
  simp only [Function.comp_apply, Ident.canonical, Ident.toStr, hu, Option.map_some, Option.getD_some]

/-- The two conditions on the texts of the participants. -/
theorem namedOnce_iff (hids : ∀ i ∈ ids, i.asUuid.isSome = true) :
    NamedOnce channel (firstSeen (listing ids)) t ↔
      (∀ i ∈ ids, ∀ j ∈ ids, i.asUuid = j.asUuid → i.toStr = j.toStr) ∧
      ∀ i ∈ ids, ∀ u, i.asUuid = some u → i.toStr ≠ u.str → statOf channel t u = none := by
  have hmem : ∀ i ∈ ids, ∀ u, i.asUuid = some u → (i.toStr, u) ∈ firstSeen (listing ids) :=
    fun i hi u hu => mem_firstSeen.mpr (mem_listing.mpr ⟨i, hi, rfl, hu⟩)
  constructor
  · intro h
    refine ⟨fun i hi j hj hij => ?_, fun i hi u hu hne => h.stored _ (hmem i hi u hu) hne⟩
    obtain ⟨u, hu⟩ := Option.isSome_iff_exists.mp (hids i hi)
    exact (Prod.mk.inj (h.injective _ (hmem i hi u hu) _ (hmem j hj u (hij ▸ hu)) rfl)).1
  · rintro ⟨honce, hstored⟩
    refine ⟨fun p hp q hq hpq => ?_, fun p hp hne => ?_⟩
    · obtain ⟨i, hi, hip, hiu⟩ := mem_listing.mp (mem_firstSeen.mp hp)
      obtain ⟨j, hj, hjq, hju⟩ := mem_listing.mp (mem_firstSeen.mp hq)
      have htext := honce i hi j hj (by rw [hiu, hju, hpq])
      exact Prod.ext (by rw [← hip, ← hjq, htext]) hpq
    · obtain ⟨i, hi, hip, hiu⟩ := mem_listing.mp (mem_firstSeen.mp hp)
      exact hstored i hi p.2 hiu (by rwa [hip])

end Spelling

/-! ### The stats of participants named once -/

/-- The dict files the row of each participant under the text it is listed under. -/
structure Filed (ids : List Ident) (row : Uuid → RunnerStat) (stats : Dict String RunnerStat) :
    Prop where
  named : ∀ i ∈ ids, i.asUuid.isSome = true
  userId : ∀ u, (row u).userId = u
  mem_iff : ∀ k s, (k, s) ∈ stats ↔ (k, s.userId) ∈ listing ids ∧ s = row s.userId
  oncePerUser : ∀ i ∈ ids, ∀ j ∈ ids, i.asUuid = j.asUuid → i.toStr = j.toStr

section Filed
variable {ids : List Ident} {row : Uuid → RunnerStat} {stats : Dict String RunnerStat}
  {last : Option Ident} {allow : Bool}

theorem Filed.mem_values (h : Filed ids row stats) {s : RunnerStat} :
    s ∈ stats.values ↔ s.userId ∈ usersOf ids ∧ s = row s.userId := by
  rw [Dict.mem_values, ← map_snd_listing, List.mem_map]
  simp only [h.mem_iff]
  constructor
  · rintro ⟨k, hk, hs⟩
    exact ⟨⟨_, hk, rfl⟩, hs⟩
  · rintro ⟨⟨p, hp, hpu⟩, hs⟩
    exact ⟨p.1, hpu ▸ hp, hs⟩

theorem Filed.row_mem (h : Filed ids row stats) {u : Uuid} (hu : u ∈ usersOf ids) :
    row u ∈ stats.values := by
  rw [h.mem_values, h.userId]
  exact ⟨hu, rfl⟩

/-- A row is found under the canonical text of its user when that text is listed. -/
theorem Filed.get?_str (h : Filed ids row stats) {u : Uuid} {s : RunnerStat} :
    stats.get? u.str = some s ↔ u.str ∈ ids.map Ident.toStr ∧ s = row u := by
  rw [Dict.get?_eq_some, h.mem_iff, List.mem_map]
  constructor
  · rintro ⟨hp, hs⟩
    have hparse := parse_listing _ hp
    rw [Uuid.parse_str, Option.some.injEq] at hparse
    obtain ⟨i, hi, htext, -⟩ := mem_listing.mp hp
    exact ⟨⟨i, hi, htext⟩, hparse ▸ hs⟩
  · rintro ⟨⟨i, hi, htext⟩, rfl⟩
    rw [h.userId]
    exact ⟨mem_listing.mpr ⟨i, hi, htext, Ident.asUuid_of_toStr (h.named i hi) htext⟩, rfl⟩

theorem Filed.isSome_get? (h : Filed ids row stats) {k : String} :
    (stats.get? k).isSome = true ↔ ∃ i ∈ ids, i.toStr = k := by
  rw [Option.isSome_iff_exists]
  simp only [Dict.get?_eq_some, h.mem_iff]
  constructor
  · rintro ⟨s, hp, -⟩
    obtain ⟨i, hi, htext, -⟩ := mem_listing.mp hp
    exact ⟨i, hi, htext⟩
  · rintro ⟨i, hi, htext⟩
    obtain ⟨u, hu⟩ := Option.isSome_iff_exists.mp (h.named i hi)
    refine ⟨row u, ?_, by rw [h.userId]⟩
    rw [h.userId]
    exact mem_listing.mpr ⟨i, hi, htext, hu⟩

theorem Filed.nodup (h : Filed ids row stats) :
    (stats.values.map RunnerStat.userId).Nodup := by
  rw [Dict.values, List.map_map]
  refine (List.Nodup.of_map _ stats.nodup).map_on fun e he f hf hef => ?_
  obtain ⟨hep, hes⟩ := (h.mem_iff e.1 e.2).mp he
  obtain ⟨hfp, hfs⟩ := (h.mem_iff f.1 f.2).mp hf
  have huser : e.2.userId = f.2.userId := hef
  obtain ⟨i, hi, hie, hiu⟩ := mem_listing.mp hep
  obtain ⟨j, hj, hjf, hju⟩ := mem_listing.mp hfp
  have htext := h.oncePerUser i hi j hj (by rw [hiu, hju]; exact congrArg some huser)
  refine Prod.ext (hie.symm.trans (htext.trans hjf)) ?_
  rw [hes, hfs, huser]

theorem Filed.one_lt_length (h : Filed ids row stats) :
    1 < stats.values.length ↔ ∃ u ∈ usersOf ids, ∃ v ∈ usersOf ids, u ≠ v := by
  refine one_lt_length_values h.nodup fun u => ?_
  rw [List.mem_map]
  constructor
  · rintro ⟨s, hs, rfl⟩
    exact (h.mem_values.mp hs).1
  · exact fun hu => ⟨row u, h.row_mem hu, h.userId u⟩

/-- The previous runner is left out when it is listed under the text it is given as. -/
theorem Filed.excludesLast_iff (h : Filed ids row stats)
    (hlast : ∀ l, last = some l → l.asUuid.isSome = true) :
    excludesLast stats (last.bind lastKey) allow = true ↔
      Excludes ids last allow ∧ ∃ i ∈ ids, last = some (.str i.toStr) := by
  have hseen : ((last.bind lastKey).any fun k => k ≠ "" && (stats.get? k).isSome) = true ↔
      ∃ i ∈ ids, last = some (.str i.toStr) := by
    rcases last with _ | ⟨text | v⟩
    · simp
    · obtain ⟨v, hv⟩ := Option.isSome_iff_exists.mp (hlast _ rfl)
      have hne : text ≠ "" := by
        rintro rfl
        have hnone : (Ident.str "").asUuid = none := by decide
        exact Option.some_ne_none v (hv.symm.trans hnone)
      simp only [Option.bind_some, lastKey, Option.any_some, ne_eq, hne, not_false_eq_true,
        decide_true, Bool.true_and, h.isSome_get?, Option.some.injEq, Ident.str.injEq]
      exact exists_congr fun i => and_congr_right fun _ => eq_comm
    · simp [lastKey]
  rw [excludesLast, Bool.and_eq_true, Bool.and_eq_true, hseen, decide_eq_true_eq, h.one_lt_length,
    Bool.not_eq_true']
  unfold Excludes
  rw [exists_not_eligible]
  constructor
  · rintro ⟨⟨hallow, htwo⟩, i, hi, hl⟩
    obtain ⟨v, hv⟩ := Option.isSome_iff_exists.mp (h.named i hi)
    have hlv : last.bind Ident.asUuid = some v := by
      rw [hl]
      exact Ident.bind_asUuid_toStr hv
    exact ⟨⟨hallow, htwo, v, mem_usersOf.mpr ⟨i, hi, hv⟩, hlv⟩, i, hi, hl⟩
  · rintro ⟨⟨hallow, htwo, -⟩, hl⟩
    exact ⟨⟨hallow, htwo⟩, hl⟩

/-- The candidates, when a previous runner to be left out is recognised. -/
theorem Filed.mem_candidates (h : Filed ids row stats)
    (hlast : ∀ l, last = some l → l.asUuid.isSome = true)
    (hrecognised : Excludes ids last allow → ∃ i ∈ ids, last = some (.str i.toStr))
    {s : RunnerStat} : s ∈ candidates stats (last.bind lastKey) allow ↔
      s ∈ stats.values ∧ Kept ids last allow s.userId := by
  have hkey : ∀ u : Uuid, some u.str ≠ last.bind lastKey ↔ last ≠ some (.str u.str) := by
    intro u
    rcases last with _ | ⟨text | v⟩
    · simp
    · simp [lastKey, eq_comm]
    · simp [lastKey]
  have hflag : excludesLast stats (last.bind lastKey) allow = true ↔ Excludes ids last allow :=
    (h.excludesLast_iff hlast).trans (and_iff_left_of_imp hrecognised)
  unfold candidates
  by_cases hex : Excludes ids last allow
  · -- whatever the text, it leaves somebody: two users take part
    obtain ⟨-, ⟨v, hv, w, hw, hvw⟩, -⟩ := exists_not_eligible.mp hex
    have hrest : stats.values.filter (fun s => some s.userId.str ≠ last.bind lastKey) ≠ [] := by
      obtain ⟨x, hx, hxl⟩ : ∃ x ∈ usersOf ids, last ≠ some (.str x.str) := by
        by_cases hlv : last = some (.str v.str)
        · refine ⟨w, hw, fun hlw => hvw (Uuid.str_inj.mp ?_)⟩
          rw [hlv, Option.some.injEq, Ident.str.injEq] at hlw
          exact hlw
        · exact ⟨v, hv, hlv⟩
      refine List.ne_nil_of_mem (List.mem_filter.mpr ⟨h.row_mem hx, decide_eq_true ?_⟩)
      rw [h.userId]
      exact (hkey x).mpr hxl
    simp only [hflag.mpr hex, if_true]
    rw [if_neg hrest, List.mem_filter, decide_eq_true_eq, hkey]
    refine and_congr_right fun hs => ⟨fun hl => ⟨(h.mem_values.mp hs).1, fun _ => hl⟩, ?_⟩
    exact fun hk => hk.2 hex
  · simp only [hflag.not.mpr hex, Bool.false_eq_true, if_false, ite_self]
    exact (and_iff_left_of_imp fun hs => ⟨(h.mem_values.mp hs).1, fun he => absurd he hex⟩).symm

/-- Once the previous runner is recognised, the chosen row is the first of those compared. -/
theorem Filed.chosen_first (h : Filed ids row stats)
    (hlast : ∀ l, last = some l → l.asUuid.isSome = true)
    (hrecognised : Excludes ids last allow → ∃ i ∈ ids, last = some (.str i.toStr))
    {chosen : RunnerStat}
    (hchosen : (candidates stats (last.bind lastKey) allow).argmin sortKey = some chosen) :
    chosen = row chosen.userId ∧ Kept ids last allow chosen.userId ∧
      ∀ w, Kept ids last allow w → sortKey (row chosen.userId) ≤ sortKey (row w) := by
  have hcandidates : ∀ s, s ∈ candidates stats (last.bind lastKey) allow ↔
      s ∈ stats.values ∧ Kept ids last allow s.userId := fun s => h.mem_candidates hlast hrecognised
  obtain ⟨hv, hkept⟩ := (hcandidates _).mp (List.argmin_mem hchosen)
  have hrow : chosen = row chosen.userId := (h.mem_values.mp hv).2
  refine ⟨hrow, hkept, fun w hw => ?_⟩
  have hcompared : row w ∈ candidates stats (last.bind lastKey) allow := by
    rw [hcandidates, h.userId]
    exact ⟨h.row_mem hw.1, hw⟩
  rw [← hrow]
  exact List.le_of_mem_argmin hcompared hchosen

end Filed

/-! ### Calls that differ in spelling -/

section Calls
variable {channelId : Ident} {channel : Uuid} {ids : List Ident} {last : Option Ident} {allow : Bool}
  {d : Draws} {db : Db} {t : Table RunnerStat} {stats : Dict String RunnerStat}
  {chosen : RunnerStat} {u v : Uuid}

theorem kept_of_eligible (h : Eligible (usersOf ids) (last.bind Ident.asUuid) allow u) :
    Kept ids last allow u := by
  refine ⟨h.1, fun hex hlast => ?_⟩
  obtain ⟨hallow, ⟨x, hx, y, hy, hxy⟩, -⟩ := exists_not_eligible.mp hex
  refine h.2 hallow ?_ ?_
  · by_cases hxu : x = u
    · exact ⟨y, hy, fun hyu => hxy (hxu.trans hyu.symm)⟩
    · exact ⟨x, hx, hxu⟩
  · rw [hlast, Option.bind_some, Ident.asUuid_str]

/-- A previous runner given as listed is compared only if it is listed under another text
than the canonical one. -/
theorem eligible_of_kept (hids : ∀ i ∈ ids, i.asUuid.isSome = true)
    (honce : ∀ i ∈ ids, ∀ j ∈ ids, i.asUuid = j.asUuid → i.toStr = j.toStr)
    (hrecognised : Excludes ids last allow → ∃ i ∈ ids, last = some (.str i.toStr))
    (h : Kept ids last allow u) (hu : u.str ∈ ids.map Ident.toStr) :
    Eligible (usersOf ids) (last.bind Ident.asUuid) allow u := by
  refine ⟨h.1, fun hallow hother hlast => ?_⟩
  have hex : Excludes ids last allow := ⟨u, h.1, fun he => he.2 hallow hother hlast⟩
  obtain ⟨i, hi, hil⟩ := hrecognised hex
  obtain ⟨j, hj, hju⟩ := List.mem_map.mp hu
  -- the previous runner and the canonical text are the same user, hence the same text
  have hiu : i.asUuid = some u := by
    obtain ⟨w, hw⟩ := Option.isSome_iff_exists.mp (hids i hi)
    have hparse : last.bind Ident.asUuid = some w := by
      rw [hil]
      exact Ident.bind_asUuid_toStr hw
    rw [hw, ← hparse, hlast]
  have htext := honce i hi j hj (hiu.trans (Ident.asUuid_of_toStr (hids j hj) hju).symm)
  exact h.2 hex (by rw [hil, htext, hju])

/-- What a call on filed stats comes to is what the canonical call comes to exactly when
the previous runner is recognised and the first of those compared has a canonical text. -/
theorem outcome_eq_iff (hfiled : Filed ids (rowOf channel d (usersOf ids) t) stats)
    (hlast : ∀ l, last = some l → l.asUuid.isSome = true)
    (hchosen : (candidates stats (last.bind lastKey) allow).argmin sortKey = some chosen)
    (hleast : Least channel d (usersOf ids) (last.bind Ident.asUuid) allow t u)
    (after : RunnerStat → Db) :
    (((stats.get? chosen.userId.str).elim (.error .keyError) fun s => .ok
        { runnerUserId := chosen.userId.str
          rationale := buildRationale s.runsServedCount
            (excludesLast stats (last.bind lastKey) allow) }, after chosen) :
      Except Exc FairnessDecision × Db) =
      (.ok { runnerUserId := u.str
             rationale := buildRationale (rowOf channel d (usersOf ids) t u).runsServedCount
              (decide (∃ v ∈ usersOf ids,
                ¬Eligible (usersOf ids) (last.bind Ident.asUuid) allow v)) },
        after (rowOf channel d (usersOf ids) t u)) ↔
    (Excludes ids last allow → ∃ i ∈ ids, last = some (.str i.toStr)) ∧
      ∀ v, Kept ids last allow v →
        (∀ w, Kept ids last allow w → sortKey (rowOf channel d (usersOf ids) t v) ≤
          sortKey (rowOf channel d (usersOf ids) t w)) → v.str ∈ ids.map Ident.toStr := by
  have hflag : excludesLast stats (last.bind lastKey) allow = true ↔
      Excludes ids last allow ∧ ∃ i ∈ ids, last = some (.str i.toStr) := hfiled.excludesLast_iff hlast
  constructor
  · intro h
    obtain ⟨hdecision, -⟩ := Prod.mk.inj h
    -- the dict is read back under the canonical text of the user that was chosen
    cases hget : stats.get? chosen.userId.str with
    | none =>
      rw [hget, Option.elim_none] at hdecision
      cases hdecision
    | some s =>
      rw [hget, Option.elim_some, Except.ok.injEq, FairnessDecision.mk.injEq] at hdecision
      have hsame : excludesLast stats (last.bind lastKey) allow = true ↔
          Excludes ids last allow := by
        rw [← mentionsExclusion_buildRationale, hdecision.2, mentionsExclusion_buildRationale,
          decide_eq_true_eq]
        exact Iff.rfl
      have hrecognised : Excludes ids last allow → ∃ i ∈ ids, last = some (.str i.toStr) :=
        fun hex => (hflag.mp (hsame.mpr hex)).2
      refine ⟨hrecognised, fun v hv hvle => ?_⟩
      obtain ⟨-, hkept, hle⟩ := hfiled.chosen_first hlast hrecognised hchosen
      have hvc : v = chosen.userId := eq_of_sortKey_le (hvle _ hkept) (hle v hv)
      rw [hvc]
      exact (hfiled.get?_str.mp hget).1
  · rintro ⟨hrecognised, hcanonical⟩
    obtain ⟨hrow, hkept, hle⟩ := hfiled.chosen_first hlast hrecognised hchosen
    -- the text being canonical, the look-up finds the row and the least eligible user is unique
    have htext := hcanonical _ hkept hle
    have heligible := eligible_of_kept hfiled.named hfiled.oncePerUser hrecognised hkept htext
    have hu : chosen.userId = u :=
      Least.unique ⟨heligible, fun w hw => hle w (kept_of_eligible hw)⟩ hleast
    have hsame : excludesLast stats (last.bind lastKey) allow = decide (∃ v ∈ usersOf ids,
        ¬Eligible (usersOf ids) (last.bind Ident.asUuid) allow v) := by
      rw [Bool.eq_iff_iff, decide_eq_true_eq, hflag]
      exact and_iff_left_of_imp hrecognised
    rw [hfiled.get?_str.mpr ⟨htext, rfl⟩, Option.elim_some, hsame, hrow, rowOf_userId, hu]

theorem Ident.asUuid_canonical {i : Ident} (h : i.asUuid.isSome = true) :
    i.canonical.asUuid = i.asUuid := by
  obtain ⟨v, hv⟩ := Option.isSome_iff_exists.mp h
  rw [Ident.canonical, hv, Option.map_some, Option.getD_some, Ident.asUuid_str]

theorem map_canonical_last (hlast : ∀ l, last = some l → l.asUuid.isSome = true) :
    (last.map fun l => l.canonical.toStr) = (last.bind Ident.asUuid).map Uuid.str := by
  cases last with
  | none => rfl
  | some l =>
    obtain ⟨v, hv⟩ := Option.isSome_iff_exists.mp (hlast l rfl)
    simp only [Option.map_some, Option.bind_some, Ident.canonical, hv, Option.getD_some, Ident.toStr]

/-! ### The rows written by a call as spelled -/

section Written
variable {n : ℕ} {mid : Db} {grown : Table RunnerStat}

/-- As many rows are written as by the canonical call only if each user is named once. -/
theorem FairnessService.Loads.namedOnce (h : Loads channel d (firstSeen (listing ids)) db stats n mid)
    (hone : OnePerUser channel db.runnerStats)
    (hgrown : grown.rows = db.runnerStats.rows ++
      newStats channel d 0 (newcomers channel (usersOf ids) db.runnerStats))
    (hrows : mid.runnerStats.rows.length = grown.rows.length) :
    NamedOnce channel (firstSeen (listing ids)) db.runnerStats := by
  obtain ⟨written, hmid, hwritten⟩ := h.written
  rw [hmid, hwritten, hgrown, List.length_append, List.length_append, newStats, newStats,
    List.length_mapIdx, List.length_mapIdx, List.length_map] at hrows
  have hmem : ∀ u, u ∈ (firstSeen (listing ids)).map Prod.snd ↔ u ∈ usersOf ids := by
    intro u
    rw [← map_snd_listing, List.mem_map, List.mem_map]
    simp only [mem_firstSeen]
  exact namedOnce_of_length hone parse_firstSeen_listing hmem (Nat.add_left_cancel hrows)

/-- Participants named once are loaded as by the canonical call. -/
theorem FairnessService.Loads.filed (h : Loads channel d (firstSeen (listing ids)) db stats n mid)
    (hids : ∀ i ∈ ids, i.asUuid.isSome = true) (hone : OnePerUser channel db.runnerStats)
    (hgrown : grown.rows = db.runnerStats.rows ++
      newStats channel d 0 (newcomers channel (usersOf ids) db.runnerStats))
    (hnamed : NamedOnce channel (firstSeen (listing ids)) db.runnerStats) :
    Filed ids (rowOf channel d (usersOf ids) db.runnerStats) stats ∧
      mid = { db with runnerStats := grown } ∧
      n = (newcomers channel (usersOf ids) db.runnerStats).length := by
  have hfirst : (firstSeen (listing ids)).map Prod.snd = firstSeen (usersOf ids) := by
    rw [← map_snd_listing]
    exact (firstSeen_map fun p hp q hq =>
      hnamed.injective p (mem_firstSeen.mpr hp) q (mem_firstSeen.mpr hq)).symm
  have hunfiled := map_snd_unfiledIn hone parse_firstSeen_listing hnamed hfirst
  obtain ⟨written, hmid, hwritten⟩ := h.written
  refine ⟨⟨hids, fun _ => rowOf_userId, fun k s => ?_, ((namedOnce_iff hids).mp hnamed).1⟩, ?_, ?_⟩
  · rw [h.mem_iff hone parse_firstSeen_listing hnamed hfirst, mem_firstSeen]
  · rw [hmid, Table.ext (hwritten.trans (by rw [hunfiled, hgrown]))]
  · rw [h.readings, ← hunfiled, List.length_map]

end Written

/-- Nobody to choose from: both calls raise before they look at a text. -/
theorem spelling_harmless_nil (channelId : Ident) (last : Option Ident) (allow : Bool) (d : Draws)
    (db : Db) (channel : Uuid) :
    (assignRunner channelId [] (last.bind lastKey) allow d).exec db =
      (assignRunner channelId.canonical ([].map Ident.canonical)
        (last.map fun l => l.canonical.toStr) allow d).exec db ↔
      SpellingHarmless channel [] last allow d db.runnerStats := by
  rw [List.map_nil, assignRunner_nil, assignRunner_nil]
  refine iff_of_true rfl ⟨fun i hi => absurd hi List.not_mem_nil,
    fun i hi => absurd hi List.not_mem_nil, fun ⟨v, hv, _⟩ => absurd hv List.not_mem_nil,
    fun u hu => absurd hu.1 List.not_mem_nil⟩

/-- With one row per user and new ids, a call comes to what the call with canonical ids
comes to exactly when the spelling is harmless. -/
theorem spelling_harmless_iff (hchannel : channelId.asUuid = some channel)
    (hids : ∀ i ∈ ids, i.asUuid.isSome = true)
    (hlast : ∀ l, last = some l → l.asUuid.isSome = true) (allow : Bool)
    (hone : OnePerUser channel db.runnerStats) (hm : Mints d ids.length db.runnerStats) :
    (assignRunner channelId ids (last.bind lastKey) allow d).exec db =
      (assignRunner channelId.canonical (ids.map Ident.canonical)
        (last.map fun l => l.canonical.toStr) allow d).exec db ↔
      SpellingHarmless channel ids last allow d db.runnerStats := by
  by_cases hnil : ids = []
  · subst hnil
    exact spelling_harmless_nil channelId last allow d db channel
  have hlisting : listing ids ≠ [] := fun h => hnil (by
    rw [← List.length_eq_zero_iff, ← length_listing hids, h, List.length_nil])
  -- the canonical call
  have hchannel' : channelId.canonical.asUuid = some channel := by
    rw [Ident.asUuid_canonical (by rw [hchannel, Option.isSome_some]), hchannel]
  obtain ⟨u, grown, hleast, hgrown, hret⟩ := returns_users hone hchannel'
    (map_toStr_canonical hids) (fun h => hlisting (List.map_eq_nil_iff.mp (map_snd_listing.trans h)))
    (length_usersOf hids ▸ hm) (last.bind Ident.asUuid) allow
  rw [← map_canonical_last hlast] at hret
  have hcanonical : (assignRunner channelId.canonical (ids.map Ident.canonical)
      (last.map fun l => l.canonical.toStr) allow d).exec db = _ := hret
  -- the call as spelled
  have htexts := uniqueOrdered_listing hids
  have hle : (firstSeen (listing ids)).length ≤ ids.length :=
    length_listing hids ▸ length_firstSeen_le (listing ids)
  obtain ⟨stats, n, mid, hload⟩ : ∃ stats n mid,
      Loads channel d (firstSeen (listing ids)) db stats n mid :=
    exists_loads (htexts ▸ nodup_firstSeen _) parse_firstSeen_listing (hm.mono hle)
  have hps := firstSeen_ne_nil hlisting
  obtain ⟨chosen, hchosen⟩ := exists_chosen (hload.values_ne_nil hps) (last.bind lastKey) allow
  rw [exec_assignRunner hchannel htexts hps hload hchosen, hcanonical]
  constructor
  · intro h
    have hrows := congrArg (fun r => r.2.runnerStats.rows.length) h
    simp only [Table.update, List.length_map] at hrows
    have hnamed := hload.namedOnce hone hgrown hrows
    obtain ⟨hfiled, rfl, rfl⟩ := hload.filed hids hone hgrown hnamed
    obtain ⟨hrecognised, hfirst⟩ := (outcome_eq_iff hfiled hlast hchosen hleast
      fun s => { db with
        runnerStats := grown.update s (credited s
          (d.clock (newcomers channel (usersOf ids) db.runnerStats).length)) }).mp h
    obtain ⟨honce, hstored⟩ := (namedOnce_iff hids).mp hnamed
    exact ⟨honce, hstored, hrecognised, hfirst⟩
  · rintro ⟨honce, hstored, hrecognised, hfirst⟩
    have hnamed := (namedOnce_iff hids).mpr ⟨honce, hstored⟩
    obtain ⟨hfiled, rfl, rfl⟩ := hload.filed hids hone hgrown hnamed
    exact (outcome_eq_iff hfiled hlast hchosen hleast
      fun s => { db with
        runnerStats := grown.update s (credited s
          (d.clock (newcomers channel (usersOf ids) db.runnerStats).length)) }).mpr
      ⟨hrecognised, hfirst⟩

end Calls

namespace Sample

/-- The user 0xa in capital letters. -/
def upperA : Ident := .str "00000000-0000-0000-0000-00000000000A"

/-- Whether a call without a previous runner returns. -/
def assigns (ids : List Ident) : Bool :=
  ((assignRunner (.uuid channel.id) ids none false (draws 5)).exec db).1.toOption.isSome

theorem assigns_upperA :
    assigns [upperA] = false ∧ assigns ([upperA].map Ident.canonical) = true := by
  decide +kernel

theorem upperA_named : ∀ i ∈ [.uuid alice.id, upperA], i.asUuid.isSome = true := by decide +kernel

end Sample

open Sample in
/-- The row is filed under the capital letters and looked for under the canonical text. -/
theorem spelled_call_raises :
    (assignRunner (.uuid channel.id) [upperA] none false (draws 5)).exec db ≠
      (assignRunner (Ident.uuid channel.id).canonical ([upperA].map Ident.canonical) none false
        (draws 5)).exec db := by
  intro h
  have hcanonical : assignRunner (Ident.uuid channel.id).canonical ([upperA].map Ident.canonical)
      none false (draws 5) =
      assignRunner (.uuid channel.id) ([upperA].map Ident.canonical) none false (draws 5) :=
    assignRunner_congr (Ident.asUuid_canonical rfl) rfl none false (draws 5)
  have hsame : assigns [upperA] = assigns ([upperA].map Ident.canonical) := by
    rw [assigns, h, hcanonical, assigns]
  rw [assigns_upperA.1, assigns_upperA.2] at hsame
  exact Bool.false_ne_true hsame

open Sample in
/-- Alice comes first, and her id is a UUID object. -/
theorem spelling_harmless_iff_alice :
    (assignRunner (.uuid channel.id) [.uuid alice.id, upperA] (Option.bind none lastKey) false
        (draws 5)).exec db =
      (assignRunner (Ident.uuid channel.id).canonical
        ([.uuid alice.id, upperA].map Ident.canonical)
        (Option.map (fun l => (Ident.canonical l).toStr) none) false (draws 5)).exec db ↔
      SpellingHarmless channel.id [.uuid alice.id, upperA] none false (draws 5) db.runnerStats :=
  spelling_harmless_iff rfl upperA_named (fun _ h => absurd h.symm (Option.some_ne_none _)) false
    (by unfold OnePerUser; decide) ⟨by decide, by decide⟩

end CoffeeBuddy

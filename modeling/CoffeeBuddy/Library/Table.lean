import Mathlib.Data.List.Nodup
import Mathlib.Data.List.Sort
import Mathlib.Tactic.Abel

/-! Tables of rows with a primary key. A table carries the proof that its keys are
distinct, so an insert may fail and an update may not. Updates are the column-wise
updates of an object mapper: only the columns that changed since the row was loaded
are written. -/

namespace Relational

class Keyed (ρ : Type*) (κ : outParam Type*) where
  key : ρ → κ

/-- `merge loaded modified current` writes to `current` the columns in which
`modified` differs from `loaded`. -/
class Row (ρ : Type*) (κ : outParam Type*) extends Keyed ρ κ where
  merge : ρ → ρ → ρ → ρ
  key_merge : ∀ l m c, key (merge l m c) = key c
  merge_loaded : ∀ l m, key m = key l → merge l m l = m

/-- The value of one column after such an update. -/
def column {α : Type*} [DecidableEq α] (loaded modified current : α) : α :=
  if modified = loaded then current else modified

@[simp] theorem column_loaded {α : Type*} [DecidableEq α] (l m : α) : column l m l = m := by
  unfold column
  split_ifs with h
  · exact h.symm
  · rfl

@[simp] theorem column_unchanged {α : Type*} [DecidableEq α] (l c : α) : column l l c = c :=
  if_pos rfl

theorem column_of_eq {α : Type*} [DecidableEq α] {l m : α} (h : m = l) (c : α) :
    column l m c = c := if_pos h

theorem column_changed {α : Type*} [DecidableEq α] {l m : α} (h : m ≠ l) (c : α) :
    column l m c = m := if_neg h

structure Table (ρ : Type*) {κ : Type*} [Keyed ρ κ] where
  rows : List ρ
  nodup : (rows.map Keyed.key).Nodup

namespace Table
variable {ρ κ : Type*}

section Keyed
variable [Keyed ρ κ]

instance : Membership ρ (Table ρ) := ⟨fun t r => r ∈ t.rows⟩

theorem mem_rows {t : Table ρ} {r : ρ} : r ∈ t.rows ↔ r ∈ t := Iff.rfl

instance [DecidableEq ρ] (r : ρ) (t : Table ρ) : Decidable (r ∈ t) :=
  inferInstanceAs (Decidable (r ∈ t.rows))

theorem ext {t u : Table ρ} (h : t.rows = u.rows) : t = u := by
  cases t; cases u; cases h; rfl

theorem eq_of_key {t : Table ρ} {r s : ρ} (hr : r ∈ t) (hs : s ∈ t)
    (h : Keyed.key r = Keyed.key s) : r = s :=
  List.inj_on_of_nodup_map t.nodup hr hs h

def empty : Table ρ := ⟨[], List.nodup_nil⟩

def count (t : Table ρ) (p : ρ → Bool) : ℕ := t.rows.countP p

def select (t : Table ρ) (p : ρ → Bool) : List ρ := t.rows.filter p

theorem mem_select {t : Table ρ} {p : ρ → Bool} {r : ρ} :
    r ∈ t.select p ↔ r ∈ t ∧ p r = true := List.mem_filter

theorem nodup_rows (t : Table ρ) : t.rows.Nodup := t.nodup.of_map _

theorem nodup_select (t : Table ρ) (p : ρ → Bool) : (t.select p).Nodup :=
  t.nodup_rows.filter p

theorem select_perm {t u : Table ρ} {p : ρ → Bool} (h : ∀ r, p r = true → (r ∈ t ↔ r ∈ u)) :
    (t.select p).Perm (u.select p) := by
  refine (List.perm_ext_iff_of_nodup (t.nodup_select p) (u.nodup_select p)).mpr fun r => ?_
  simp only [mem_select]
  exact and_congr_left fun hp => h r hp

theorem count_eq_length (t : Table ρ) (p : ρ → Bool) : t.count p = (t.select p).length :=
  List.countP_eq_length_filter

theorem count_eq_zero {t : Table ρ} {p : ρ → Bool} : t.count p = 0 ↔ ∀ r ∈ t, ¬p r = true :=
  List.countP_eq_zero

def delete (t : Table ρ) (p : ρ → Bool) : Table ρ :=
  ⟨t.rows.filter (fun r => !p r), (List.filter_sublist.map _).nodup t.nodup⟩

theorem mem_delete {t : Table ρ} {p : ρ → Bool} {r : ρ} :
    r ∈ t.delete p ↔ r ∈ t ∧ p r = false := by
  simp only [← mem_rows, delete, List.mem_filter, Bool.not_eq_true']

theorem length_delete (t : Table ρ) (p : ρ → Bool) :
    t.rows.length = (t.delete p).rows.length + t.count p := by
  have hcount := List.length_eq_countP_add_countP p (l := t.rows)
  have hkept : (t.delete p).rows.length = t.rows.countP fun r => !p r :=
    List.countP_eq_length_filter.symm
  rw [hkept, count, Nat.add_comm]
  simpa using hcount

theorem select_delete {t : Table ρ} {p q : ρ → Bool}
    (h : ∀ r ∈ t, p r = true → q r = false) : (t.delete q).select p = t.select p := by
  unfold select delete
  rw [List.filter_filter]
  apply List.filter_congr
  intro r hr
  cases hp : p r with
  | false => rfl
  | true => rw [h r hr hp, Bool.true_and, Bool.not_false]

variable [DecidableEq κ]

def find? (t : Table ρ) (k : κ) : Option ρ := t.rows.find? fun r => Keyed.key r = k

theorem find?_eq_some {t : Table ρ} {k : κ} {r : ρ} :
    t.find? k = some r ↔ r ∈ t ∧ Keyed.key r = k := by
  constructor
  · intro h
    exact ⟨List.mem_of_find?_eq_some h, by simpa using List.find?_some h⟩
  · rintro ⟨hr, rfl⟩
    cases h : t.find? (Keyed.key r) with
    | none => exact absurd (decide_eq_true rfl) (List.find?_eq_none.mp h r hr)
    | some s =>
      have hs : Keyed.key s = Keyed.key r := by simpa using List.find?_some h
      rw [eq_of_key (List.mem_of_find?_eq_some h) hr hs]

theorem find?_eq_none {t : Table ρ} {k : κ} :
    t.find? k = none ↔ ∀ r ∈ t, Keyed.key r ≠ k := by
  simp only [find?, List.find?_eq_none, decide_eq_true_eq]
  rfl

theorem find?_key {t : Table ρ} {r : ρ} (hr : r ∈ t) : t.find? (Keyed.key r) = some r :=
  find?_eq_some.mpr ⟨hr, rfl⟩

theorem select_key (t : Table ρ) (k : κ) :
    (t.select fun r => decide (Keyed.key r = k)) = (t.find? k).toList := by
  cases h : t.find? k with
  | none =>
    have hnone := find?_eq_none.mp h
    exact List.filter_eq_nil_iff.mpr fun r hr hk => hnone r hr (of_decide_eq_true hk)
  | some r =>
    obtain ⟨hr, rfl⟩ := find?_eq_some.mp h
    apply List.perm_singleton.mp
    rw [List.perm_ext_iff_of_nodup (t.nodup_select _) (List.nodup_singleton r)]
    intro s
    rw [mem_select, decide_eq_true_eq, List.mem_singleton]
    constructor
    · rintro ⟨hs, hk⟩
      exact eq_of_key hs hr hk
    · rintro rfl
      exact ⟨hr, rfl⟩

/-- An insert is refused when the primary key is taken. -/
def insert (t : Table ρ) (r : ρ) : Option (Table ρ) :=
  if h : Keyed.key r ∈ t.rows.map Keyed.key then none
  else some ⟨t.rows ++ [r], by
    rw [List.map_append, List.map_singleton]
    exact List.nodup_append_comm.mp (List.nodup_cons.mpr ⟨h, t.nodup⟩)⟩

theorem insert_eq_some {t u : Table ρ} {r : ρ} :
    t.insert r = some u ↔ (∀ s ∈ t, Keyed.key s ≠ Keyed.key r) ∧ u.rows = t.rows ++ [r] := by
  unfold insert
  split_ifs with h
  · simp only [false_iff, not_and]
    intro hs
    obtain ⟨s, hm, hk⟩ := List.mem_map.mp h
    exact absurd hk (hs s hm)
  · have hfree : ∀ s ∈ t, Keyed.key s ≠ Keyed.key r := fun s hs hk =>
      h (List.mem_map.mpr ⟨s, hs, hk⟩)
    simp only [Option.some.injEq]
    constructor
    · rintro rfl
      exact ⟨hfree, rfl⟩
    · rintro ⟨-, hu⟩
      exact ext hu.symm

theorem insert_eq_none {t : Table ρ} {r : ρ} :
    t.insert r = none ↔ ∃ s ∈ t, Keyed.key s = Keyed.key r := by
  unfold insert
  split_ifs with h
  · exact iff_of_true rfl (List.mem_map.mp h)
  · exact iff_of_false id fun hs => h (List.mem_map.mpr hs)

theorem exists_insert {t : Table ρ} {r : ρ} (h : ∀ s ∈ t, Keyed.key s ≠ Keyed.key r) :
    ∃ u, t.insert r = some u := by
  apply Option.ne_none_iff_exists'.mp
  intro hnone
  obtain ⟨s, hs, hk⟩ := insert_eq_none.mp hnone
  exact h s hs hk

theorem rows_insert {t u : Table ρ} {r : ρ} (h : t.insert r = some u) : u.rows = t.rows ++ [r] :=
  (insert_eq_some.mp h).2

theorem mem_insert {t u : Table ρ} {r s : ρ} (h : t.insert r = some u) :
    s ∈ u ↔ s ∈ t ∨ s = r := by
  rw [← mem_rows, rows_insert h, List.mem_append, List.mem_singleton, mem_rows]

theorem select_insert {t u : Table ρ} {r : ρ} (h : t.insert r = some u) (p : ρ → Bool) :
    u.select p = t.select p ++ if p r then [r] else [] := by
  unfold select
  rw [rows_insert h, List.filter_append]
  cases hp : p r <;> simp [hp]

end Keyed

section Row
variable [Row ρ κ] [DecidableEq κ]

/-- `UPDATE … SET <changed columns> WHERE key = <key of loaded>`; without such a row it matches
none and changes nothing. -/
def update (t : Table ρ) (loaded modified : ρ) : Table ρ where
  rows := t.rows.map fun r =>
    if Keyed.key r = Keyed.key loaded then Row.merge loaded modified r else r
  nodup := by
    have hkey : (Keyed.key ∘ fun r =>
        if Keyed.key r = Keyed.key loaded then Row.merge loaded modified r else r) =
        (Keyed.key : ρ → κ) := by
      funext r
      simp only [Function.comp_apply]
      split_ifs
      · exact Row.key_merge loaded modified r
      · rfl
    rw [List.map_map, hkey]
    exact t.nodup

theorem mem_update' {t : Table ρ} {l m s : ρ} :
    s ∈ t.update l m ↔ ∃ r ∈ t, s = if Keyed.key r = Keyed.key l then Row.merge l m r else r := by
  simp only [← mem_rows, update, List.mem_map, eq_comm]

theorem merge_mem_update {t : Table ρ} {l m r : ρ} (hr : r ∈ t)
    (hk : Keyed.key r = Keyed.key l) : Row.merge l m r ∈ t.update l m :=
  mem_update'.mpr ⟨r, hr, (if_pos hk).symm⟩

theorem mem_update_of_ne {t : Table ρ} {l m s : ρ} (hk : Keyed.key s ≠ Keyed.key l) :
    s ∈ t.update l m ↔ s ∈ t := by
  rw [mem_update']
  constructor
  · rintro ⟨r, hr, rfl⟩
    split_ifs at hk ⊢ with hkey
    · exact absurd ((Row.key_merge l m r).trans hkey) hk
    · exact hr
  · intro hs
    exact ⟨s, hs, (if_neg hk).symm⟩

theorem map_update {ι : Type*} {f : ρ → ι} {t : Table ρ} {l m : ρ}
    (h : ∀ r, f (Row.merge l m r) = f r) : (t.update l m).rows.map f = t.rows.map f := by
  simp only [update, List.map_map]
  apply List.map_congr_left
  intro r _
  simp only [Function.comp_apply]
  split_ifs
  · exact h r
  · rfl

theorem map_key_update (t : Table ρ) (l m : ρ) :
    (t.update l m).rows.map Keyed.key = t.rows.map Keyed.key :=
  map_update fun r => Row.key_merge l m r

theorem select_update {t : Table ρ} {l m : ρ} {p : ρ → Bool}
    (h : ∀ r ∈ t, Keyed.key r = Keyed.key l → p r = false ∧ p (Row.merge l m r) = false) :
    (t.update l m).select p = t.select p := by
  have hrows : ∀ rows : List ρ, (∀ r ∈ rows, r ∈ t) →
      (rows.map fun r => if Keyed.key r = Keyed.key l then Row.merge l m r else r).filter p =
        rows.filter p := by
    intro rows hmem
    induction rows with
    | nil => rfl
    | cons r rows ih =>
      have hrest := ih fun q hq => hmem q (List.mem_cons_of_mem r hq)
      rw [List.map_cons, List.filter_cons, List.filter_cons, hrest]
      by_cases hk : Keyed.key r = Keyed.key l
      · -- the written row is selected neither before nor after
        obtain ⟨hout, hmerged⟩ := h r (hmem r List.mem_cons_self) hk
        rw [if_pos hk, hout, hmerged, if_neg Bool.false_ne_true, if_neg Bool.false_ne_true]
      · rw [if_neg hk]
  exact hrows t.rows fun r hr => hr

/-- When the loaded row is still the stored one, the update replaces it in place. -/
theorem update_split {t : Table ρ} {l m : ρ} (hl : l ∈ t) (hk : Keyed.key m = Keyed.key l) :
    ∃ as bs, t.rows = as ++ l :: bs ∧ (t.update l m).rows = as ++ m :: bs := by
  obtain ⟨as, bs, h⟩ := List.append_of_mem hl
  have hnd := t.nodup
  rw [h, List.map_append, List.map_cons, List.nodup_append] at hnd
  obtain ⟨-, hb, hab⟩ := hnd
  have has : ∀ r ∈ as, Keyed.key r ≠ Keyed.key l := fun r hr =>
    hab _ (List.mem_map_of_mem hr) _ List.mem_cons_self
  have hbs : ∀ r ∈ bs, Keyed.key r ≠ Keyed.key l := fun r hr hkr =>
    (List.nodup_cons.mp hb).1 (hkr ▸ List.mem_map_of_mem hr)
  refine ⟨as, bs, h, ?_⟩
  simp only [update, h, List.map_append, List.map_cons, if_pos, Row.merge_loaded l m hk]
  congr 1
  · exact (List.map_congr_left fun r hr => if_neg (has r hr)).trans (List.map_id' as)
  · congr 1
    exact (List.map_congr_left fun r hr => if_neg (hbs r hr)).trans (List.map_id' bs)

theorem mem_update {t : Table ρ} {l m s : ρ} (hl : l ∈ t) (hk : Keyed.key m = Keyed.key l) :
    s ∈ t.update l m ↔ s = m ∨ s ∈ t ∧ Keyed.key s ≠ Keyed.key l := by
  rw [mem_update']
  constructor
  · rintro ⟨r, hr, rfl⟩
    split_ifs with h
    · obtain rfl := eq_of_key hr hl h
      exact Or.inl (Row.merge_loaded r m hk)
    · exact Or.inr ⟨hr, h⟩
  · rintro (rfl | ⟨hs, h⟩)
    · exact ⟨l, hl, by rw [if_pos rfl, Row.merge_loaded l s hk]⟩
    · exact ⟨s, hs, (if_neg h).symm⟩

theorem count_update {t : Table ρ} {l m : ρ} (hl : l ∈ t) (hk : Keyed.key m = Keyed.key l)
    (p : ρ → Bool) :
    (t.update l m).count p + (if p l then 1 else 0) = t.count p + if p m then 1 else 0 := by
  obtain ⟨as, bs, h, hu⟩ := update_split hl hk
  simp only [count, h, hu, List.countP_append, List.countP_cons]
  omega

theorem sum_update {M : Type*} [AddCommMonoid M] {t : Table ρ} {l m : ρ} (hl : l ∈ t)
    (hk : Keyed.key m = Keyed.key l) (f : ρ → M) :
    ((t.update l m).rows.map f).sum + f l = (t.rows.map f).sum + f m := by
  obtain ⟨as, bs, h, hu⟩ := update_split hl hk
  simp only [h, hu, List.map_append, List.map_cons, List.sum_append, List.sum_cons]
  abel

end Row

/-! ### Secondary keys -/

section Puts
variable {ι : Type*} [Keyed ρ κ]

/-- `u` is `t` with `r` as its only row of the secondary key `f r`. -/
def Puts (f : ρ → ι) (t u : Table ρ) (r : ρ) : Prop := ∀ s, s ∈ u ↔ s = r ∨ s ∈ t ∧ f s ≠ f r

variable {f : ρ → ι} {t u : Table ρ} {r : ρ}

theorem Puts.mem (h : t.Puts f u r) : r ∈ u := (h r).mpr (Or.inl rfl)

theorem Puts.unique (h : t.Puts f u r) {s : ρ} (hs : s ∈ u) (hf : f s = f r) : s = r := by
  rcases (h s).mp hs with rfl | ⟨-, hne⟩
  · rfl
  · exact absurd hf hne

theorem Puts.other (h : t.Puts f u r) {s : ρ} (hf : f s ≠ f r) : s ∈ u ↔ s ∈ t := by
  rw [h s]
  constructor
  · rintro (rfl | ⟨hs, -⟩)
    · exact absurd rfl hf
    · exact hs
  · exact fun hs => Or.inr ⟨hs, hf⟩

theorem Puts.trans {v : Table ρ} {q : ρ} (h : t.Puts f u r) (h' : u.Puts f v q) (hf : f q = f r) :
    t.Puts f v q := by
  intro s
  rw [h' s, h s]
  refine or_congr_right ⟨?_, fun ⟨hs, hne⟩ => ⟨Or.inr ⟨hs, hf ▸ hne⟩, hne⟩⟩
  rintro ⟨rfl | hs, hne⟩
  · exact absurd hf.symm hne
  · exact ⟨hs.1, hne⟩

/-- The table has one row for each secondary key on which the map `M` is defined, with
its value. -/
structure Maps {ν : Type*} (f : ρ → ι) (g : ρ → ν) (t : Table ρ) (M : ι → Option ν) : Prop where
  unique : ∀ r ∈ t, ∀ s ∈ t, f r = f s → r = s
  eq_some_iff : ∀ k v, M k = some v ↔ ∃ r ∈ t, f r = k ∧ g r = v

section Maps
variable {ν : Type*} {g : ρ → ν} {M : ι → Option ν}

theorem maps_nil (h : t.rows = []) : Maps f g t fun _ => none := by
  have hmem : ∀ r, r ∉ t := fun r hr => by
    have hnil : r ∈ t.rows := hr
    rw [h] at hnil
    exact absurd hnil List.not_mem_nil
  exact ⟨fun r hr => absurd hr (hmem r), fun k v =>
    ⟨fun h => by simp at h, fun ⟨r, hr, _⟩ => absurd hr (hmem r)⟩⟩

theorem Maps.mem (h : Maps f g t M) {r : ρ} (hr : r ∈ t) : M (f r) = some (g r) :=
  (h.eq_some_iff _ _).mpr ⟨r, hr, rfl, rfl⟩

theorem Maps.puts [DecidableEq ι] (h : Maps f g t M) (hp : t.Puts f u r) :
    Maps f g u (Function.update M (f r) (some (g r))) := by
  refine ⟨fun s hs q hq hsq => ?_, fun k v => ?_⟩
  · by_cases hfs : f s = f r
    · rw [hp.unique hs hfs, hp.unique hq (hsq.symm.trans hfs)]
    · exact h.unique s ((hp.other hfs).mp hs) q ((hp.other fun hq => hfs (hsq.trans hq)).mp hq) hsq
  · by_cases hk : k = f r
    · subst hk
      rw [Function.update_self, Option.some.injEq]
      constructor
      · exact fun hv => ⟨r, hp.mem, rfl, hv⟩
      · rintro ⟨s, hs, hf, hv⟩
        rw [← hv, hp.unique hs hf]
    · rw [Function.update_of_ne hk, h.eq_some_iff]
      refine exists_congr fun s => ?_
      have hother : f s = k → (s ∈ u ↔ s ∈ t) := fun hf => hp.other fun hfr => hk (hf.symm.trans hfr)
      constructor
      · exact fun ⟨hs, hf, hv⟩ => ⟨(hother hf).mpr hs, hf, hv⟩
      · exact fun ⟨hs, hf, hv⟩ => ⟨(hother hf).mp hs, hf, hv⟩

theorem Maps.delete (h : Maps f g t M) {p : ρ → Bool} {P : ι → Prop} [DecidablePred P]
    (hp : ∀ r ∈ t, p r = true ↔ P (f r)) :
    Maps f g (t.delete p) fun k => if P k then none else M k := by
  refine ⟨fun r hr s hs => h.unique r (mem_delete.mp hr).1 s (mem_delete.mp hs).1, fun k v => ?_⟩
  split_ifs with hP
  · refine iff_of_false id ?_
    rintro ⟨r, hr, rfl, -⟩
    obtain ⟨hr, hkept⟩ := mem_delete.mp hr
    exact absurd ((hp r hr).mpr hP) (Bool.eq_false_iff.mp hkept)
  · rw [h.eq_some_iff]
    refine exists_congr fun r => and_congr_left fun ⟨hf, _⟩ => ?_
    rw [mem_delete]
    refine (and_iff_left_of_imp fun hr => ?_).symm
    rw [Bool.eq_false_iff]
    exact fun hdel => hP (hf ▸ (hp r hr).mp hdel)

end Maps

theorem puts_insert [DecidableEq κ] (h : t.insert r = some u) (hfree : ∀ s ∈ t, f s ≠ f r) :
    t.Puts f u r := by
  intro s
  rw [mem_insert h]
  constructor
  · rintro (hs | rfl)
    · exact Or.inr ⟨hs, hfree s hs⟩
    · exact Or.inl rfl
  · rintro (rfl | ⟨hs, -⟩)
    · exact Or.inr rfl
    · exact Or.inl hs

end Puts

theorem puts_update {ι : Type*} [Row ρ κ] [DecidableEq κ] {f : ρ → ι} {t : Table ρ} {l m : ρ}
    (hl : l ∈ t) (hk : Keyed.key m = Keyed.key l) (hf : f m = f l)
    (hunique : ∀ s ∈ t, f s = f l → s = l) : t.Puts f (t.update l m) m := by
  intro s
  rw [mem_update hl hk]
  refine or_congr_right (and_congr_right fun hs => not_congr ?_)
  constructor
  · intro h
    rw [eq_of_key hs hl h, hf]
  · intro h
    rw [hunique s hs (h.trans hf)]

end Table

/-- `ORDER BY`: a stable sort. -/
def orderBy {ρ : Type*} (le : ρ → ρ → Bool) (rows : List ρ) : List ρ :=
  rows.insertionSort fun a b => le a b = true

section OrderBy
variable {ρ : Type*} {le : ρ → ρ → Bool}

theorem perm_orderBy (rows : List ρ) : (orderBy le rows).Perm rows :=
  List.perm_insertionSort _ rows

theorem mem_orderBy {rows : List ρ} {r : ρ} : r ∈ orderBy le rows ↔ r ∈ rows :=
  (perm_orderBy rows).mem_iff

theorem pairwise_orderBy (htotal : ∀ a b, le a b = true ∨ le b a = true)
    (htrans : ∀ a b c, le a b = true → le b c = true → le a c = true) (rows : List ρ) :
    (orderBy le rows).Pairwise fun a b => le a b = true := by
  have : Std.Total fun a b => le a b = true := ⟨htotal⟩
  have : IsTrans ρ fun a b => le a b = true := ⟨htrans⟩
  exact List.pairwise_insertionSort _ rows

/-- `ORDER BY … LIMIT 1` returns a least row. -/
theorem head?_orderBy (htotal : ∀ a b, le a b = true ∨ le b a = true)
    (htrans : ∀ a b c, le a b = true → le b c = true → le a c = true) {rows : List ρ} {r : ρ}
    (h : (orderBy le rows).head? = some r) : r ∈ rows ∧ ∀ s ∈ rows, le r s = true := by
  obtain ⟨tail, ht⟩ : ∃ tail, orderBy le rows = r :: tail := by
    cases ho : orderBy le rows with
    | nil => simp [ho] at h
    | cons a tail =>
      rw [ho, List.head?_cons, Option.some.injEq] at h
      exact ⟨tail, by rw [h]⟩
  have hp := pairwise_orderBy htotal htrans rows
  rw [ht, List.pairwise_cons] at hp
  refine ⟨mem_orderBy.mp (ht ▸ List.mem_cons_self), fun s hs => ?_⟩
  rcases List.mem_cons.mp (ht ▸ mem_orderBy.mpr hs) with rfl | hs
  · rcases htotal s s with h | h <;> exact h
  · exact hp.1 s hs

end OrderBy
end Relational

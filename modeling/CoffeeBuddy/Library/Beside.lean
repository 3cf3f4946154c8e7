import CoffeeBuddy.Library.Table

/-! Two tables that share a part. Inside the part they have the same rows in the same
order, outside it each keeps the rows of a table of its own; statements that stay inside
keep the two beside each other. -/

namespace Relational
namespace Table
variable {ρ κ : Type*}

section Keyed
variable [Keyed ρ κ]

/-- The rows outside the part. -/
def rest (own : ρ → Bool) (t : Table ρ) : List ρ := t.select fun r => !own r

/-- No row outside the part has the key. -/
def Apart (own : ρ → Bool) (t : Table ρ) (k : κ) : Prop :=
  ∀ r ∈ t, own r = false → Keyed.key r ≠ k

/-- A row of the part whose key no row outside has, in either table. -/
structure Inner (own : ρ → Bool) (u v : Table ρ) (r : ρ) : Prop where
  mem : own r = true
  left : u.Apart own (Keyed.key r)
  right : v.Apart own (Keyed.key r)

theorem mem_rest {own : ρ → Bool} {t : Table ρ} {r : ρ} :
    r ∈ t.rest own ↔ r ∈ t ∧ own r = false := by
  rw [rest, mem_select, Bool.not_eq_true']

/-- `s` and `t` agree inside the part; outside they are `u` and `v`. No key inside is in `X`. -/
structure Beside (own : ρ → Bool) (X : κ → Prop) (u v s t : Table ρ) : Prop where
  inside : s.select own = t.select own
  left : s.rest own = u.rest own
  right : t.rest own = v.rest own
  unused : ∀ r ∈ s, own r = true → ¬X (Keyed.key r)

theorem select_of_rest {own p : ρ → Bool} {s u : Table ρ} (h : s.rest own = u.rest own)
    (hp : ∀ r, p r = true → own r = false) : s.select p = u.select p := by
  have hfilter : ∀ t : Table ρ, t.select p = (t.rest own).filter p := fun t => by
    unfold rest select
    rw [List.filter_filter]
    apply List.filter_congr
    intro r _
    cases hpr : p r with
    | false => rfl
    | true => rw [hp r hpr, Bool.true_and, Bool.not_false]
  rw [hfilter, hfilter, h]

/-- A search among the rows of a part looks at the part only. -/
theorem find?_of_select {own p : ρ → Bool} {s t : Table ρ} (h : s.select own = t.select own)
    (hp : ∀ r, p r = true → own r = true) : s.rows.find? p = t.rows.find? p := by
  have hpart : ∀ t : Table ρ, t.rows.find? p = (t.select own).find? p := fun t => by
    have hand : p = fun r => own r && p r := funext fun r => by
      cases hr : p r with
      | false => rw [Bool.and_false]
      | true => rw [hp r hr, Bool.and_true]
    rw [select, List.find?_filter]
    simpa only [Bool.decide_and, Bool.decide_eq_true] using congrArg (fun q => t.rows.find? q) hand
  rw [hpart s, hpart t, h]

/-- Tables with the same rows of every class have the same rows. -/
theorem perm_of_select {ι : Type*} {own : ι → ρ → Bool} {s t : Table ρ}
    (h : ∀ i, s.select (own i) = t.select (own i)) (hown : ∀ r, ∃ i, own i r = true) :
    s.rows.Perm t.rows := by
  refine (List.perm_ext_iff_of_nodup s.nodup_rows t.nodup_rows).mpr fun r => ?_
  obtain ⟨i, hi⟩ := hown r
  have hmem : r ∈ s.select (own i) ↔ r ∈ t.select (own i) := by rw [h i]
  simp only [mem_select, hi, and_true] at hmem
  exact hmem

namespace Beside
variable {own : ρ → Bool} {X : κ → Prop} {u v s t : Table ρ}

theorem mem_iff (h : Beside own X u v s t) {r : ρ} (hr : own r = true) : r ∈ s ↔ r ∈ t := by
  have hmem : r ∈ s.select own ↔ r ∈ t.select own := by rw [h.inside]
  simpa only [mem_select, hr, and_true] using hmem

theorem mem_left (h : Beside own X u v s t) {r : ρ} (hr : own r = false) : r ∈ s ↔ r ∈ u := by
  have hmem : r ∈ s.rest own ↔ r ∈ u.rest own := by rw [h.left]
  simpa only [mem_rest, hr, and_true] using hmem

theorem mem_right (h : Beside own X u v s t) {r : ρ} (hr : own r = false) : r ∈ t ↔ r ∈ v := by
  have hmem : r ∈ t.rest own ↔ r ∈ v.rest own := by rw [h.right]
  simpa only [mem_rest, hr, and_true] using hmem

theorem of_none (hs : ∀ r ∈ s, own r = false) (ht : ∀ r ∈ t, own r = false) :
    Beside own X s t s t where
  inside := by
    have hempty : ∀ {w : Table ρ}, (∀ r ∈ w, own r = false) → w.select own = [] := fun hw =>
      List.filter_eq_nil_iff.mpr fun r hr => Bool.eq_false_iff.mp (hw r hr)
    rw [hempty hs, hempty ht]
  left := rfl
  right := rfl
  unused r hr ho := by
    rw [hs r hr] at ho
    cases ho

theorem symm (h : Beside own X u v s t) : Beside own X v u t s where
  inside := h.inside.symm
  left := h.right
  right := h.left
  unused r hr ho := h.unused r ((h.mem_iff ho).mpr hr) ho

/-- Keys are unique, so a row inside has a key of its own. -/
theorem apart_left (h : Beside own X u v s t) {r : ρ} (hr : r ∈ s) (ho : own r = true) :
    u.Apart own (Keyed.key r) := by
  intro q hq hqo hk
  have hqs : q ∈ s := (h.mem_left hqo).mpr hq
  rw [eq_of_key hqs hr hk, ho] at hqo
  cases hqo

theorem apart_right (h : Beside own X u v s t) {r : ρ} (hr : r ∈ s) (ho : own r = true) :
    v.Apart own (Keyed.key r) := h.symm.apart_left ((h.mem_iff ho).mp hr) ho

theorem inner (h : Beside own X u v s t) {r : ρ} (hr : r ∈ s) (ho : own r = true) :
    Inner own u v r := ⟨ho, h.apart_left hr ho, h.apart_right hr ho⟩

/-! ### Queries inside the part -/

theorem select_eq (h : Beside own X u v s t) {p q : ρ → Bool} (hp : ∀ r ∈ s, p r = true → own r = true)
    (hq : ∀ r ∈ t, q r = true → own r = true) (hpq : ∀ r ∈ s, own r = true → p r = q r) :
    s.select p = t.select q := by
  have hs : s.select p = (s.select own).filter p := by
    unfold select
    rw [List.filter_filter]
    apply List.filter_congr
    intro r hr
    cases hpr : p r with
    | false => rfl
    | true => rw [hp r hr hpr, Bool.true_and]
  have ht : t.select q = (t.select own).filter q := by
    unfold select
    rw [List.filter_filter]
    apply List.filter_congr
    intro r hr
    cases hqr : q r with
    | false => rfl
    | true => rw [hq r hr hqr, Bool.true_and]
  rw [hs, ht, ← h.inside]
  apply List.filter_congr
  intro r hr
  obtain ⟨hrs, ho⟩ := mem_select.mp hr
  exact hpq r hrs ho

theorem select_same (h : Beside own X u v s t) {p : ρ → Bool} (hp : ∀ r, p r = true → own r = true) :
    s.select p = t.select p :=
  h.select_eq (fun r _ => hp r) (fun r _ => hp r) fun _ _ _ => rfl

theorem find_first (h : Beside own X u v s t) {p : ρ → Bool} (hp : ∀ r, p r = true → own r = true) :
    s.rows.find? p = t.rows.find? p := by
  have hselect := h.select_same hp
  unfold select at hselect
  rw [← List.head?_filter, ← List.head?_filter, hselect]

theorem count_eq (h : Beside own X u v s t) {p q : ρ → Bool} (hp : ∀ r ∈ s, p r = true → own r = true)
    (hq : ∀ r ∈ t, q r = true → own r = true) (hpq : ∀ r ∈ s, own r = true → p r = q r) :
    s.count p = t.count q := by
  rw [count_eq_length, count_eq_length, h.select_eq hp hq hpq]

theorem find?_eq [DecidableEq κ] (h : Beside own X u v s t) {k : κ}
    (hs : ∀ r ∈ s, Keyed.key r = k → own r = true) (ht : ∀ r ∈ t, Keyed.key r = k → own r = true) :
    s.find? k = t.find? k := by
  apply Option.ext
  intro r
  simp only [find?_eq_some]
  constructor
  · rintro ⟨hr, hk⟩
    exact ⟨(h.mem_iff (hs r hr hk)).mp hr, hk⟩
  · rintro ⟨hr, hk⟩
    exact ⟨(h.mem_iff (ht r hr hk)).mpr hr, hk⟩

/-! ### Statements inside the part -/

theorem insert [DecidableEq κ] (h : Beside own X u v s t) {r : ρ} (ho : own r = true)
    (hu : u.Apart own (Keyed.key r)) (hv : v.Apart own (Keyed.key r)) (hX : ¬X (Keyed.key r)) :
    (∃ s' t', s.insert r = some s' ∧ t.insert r = some t' ∧ Beside own X u v s' t') ∨
      s.insert r = none ∧ t.insert r = none := by
  have hnone : s.insert r = none ↔ t.insert r = none := by
    rw [insert_eq_none, insert_eq_none]
    constructor
    · rintro ⟨q, hq, hk⟩
      cases hqo : own q with
      | true => exact ⟨q, (h.mem_iff hqo).mp hq, hk⟩
      | false => exact absurd hk (hu q ((h.mem_left hqo).mp hq) hqo)
    · rintro ⟨q, hq, hk⟩
      cases hqo : own q with
      | true => exact ⟨q, (h.mem_iff hqo).mpr hq, hk⟩
      | false => exact absurd hk (hv q ((h.mem_right hqo).mp hq) hqo)
  cases hs : s.insert r with
  | none => exact Or.inr ⟨rfl, hnone.mp hs⟩
  | some s' =>
    obtain ⟨t', ht⟩ := Option.ne_none_iff_exists'.mp fun ht =>
      Option.some_ne_none s' (hs.symm.trans (hnone.mpr ht))
    refine Or.inl ⟨s', t', rfl, ht, ?_, ?_, ?_, ?_⟩
    · rw [select_insert hs, select_insert ht, h.inside]
    · rw [rest, select_insert hs, ho, ← h.left]
      exact List.append_nil _
    · rw [rest, select_insert ht, ho, ← h.right]
      exact List.append_nil _
    · intro q hq hqo
      rcases (mem_insert hs).mp hq with hq | rfl
      · exact h.unused q hq hqo
      · exact hX

theorem delete (h : Beside own X u v s t) {p q : ρ → Bool} (hp : ∀ r ∈ s, p r = true → own r = true)
    (hq : ∀ r ∈ t, q r = true → own r = true) (hpq : ∀ r ∈ s, own r = true → p r = q r) :
    Beside own X u v (s.delete p) (t.delete q) where
  inside := by
    have hfilter : ∀ (w : Table ρ) (f : ρ → Bool),
        (w.delete f).select own = (w.select own).filter fun r => !f r := fun w f => by
      unfold select Table.delete
      rw [List.filter_comm]
    rw [hfilter, hfilter, ← h.inside]
    apply List.filter_congr
    intro r hr
    obtain ⟨hrs, ho⟩ := mem_select.mp hr
    rw [hpq r hrs ho]
  left := by
    rw [← h.left]
    refine select_delete fun r hr ho => Bool.eq_false_iff.mpr fun hpr => ?_
    rw [hp r hr hpr] at ho
    cases ho
  right := by
    rw [← h.right]
    refine select_delete fun r hr ho => Bool.eq_false_iff.mpr fun hqr => ?_
    rw [hq r hr hqr] at ho
    cases ho
  unused r hr ho := h.unused r (mem_delete.mp hr).1 ho

end Beside
end Keyed

/-! ### Updates inside the part -/

section Row
variable [Row ρ κ] [DecidableEq κ] {own : ρ → Bool} {X : κ → Prop} {u v s t : Table ρ} {l m : ρ}

/-- The update of a row outside the part leaves the part alone. -/
theorem select_update_other (hl : l ∈ s) (hk : Keyed.key m = Keyed.key l) (hlo : own l = false)
    (hmo : own m = false) : (s.update l m).select own = s.select own := by
  refine select_update fun r hr hkr => ?_
  obtain rfl := eq_of_key hr hl hkr
  rw [Row.merge_loaded r m hk]
  exact ⟨hlo, hmo⟩

theorem update_rest (hkeep : ∀ r, own (Row.merge l m r) = own r)
    (hapart : s.Apart own (Keyed.key l)) : (s.update l m).rest own = s.rest own := by
  refine select_update fun r hr hk => ?_
  have ho : own r = true := by
    cases hro : own r with
    | true => rfl
    | false => exact absurd hk (hapart r hr hro)
  rw [hkeep, ho]
  exact ⟨rfl, rfl⟩

theorem select_update_own (hkeep : ∀ r, own (Row.merge l m r) = own r) :
    (s.update l m).select own = (s.select own).map fun r =>
      if Keyed.key r = Keyed.key l then Row.merge l m r else r := by
  have hcomp : (own ∘ fun r => if Keyed.key r = Keyed.key l then Row.merge l m r else r) = own := by
    funext r
    simp only [Function.comp_apply]
    split_ifs
    · exact hkeep r
    · rfl
  unfold select update
  rw [List.filter_map, hcomp]

theorem Beside.update (h : Beside own X u v s t) (hkeep : ∀ r, own (Row.merge l m r) = own r)
    (hu : u.Apart own (Keyed.key l)) (hv : v.Apart own (Keyed.key l)) :
    Beside own X u v (s.update l m) (t.update l m) where
  inside := by rw [select_update_own hkeep, select_update_own hkeep, h.inside]
  left := by
    rw [update_rest hkeep fun r hr ho => hu r ((h.mem_left ho).mp hr) ho]
    exact h.left
  right := by
    rw [update_rest hkeep fun r hr ho => hv r ((h.mem_right ho).mp hr) ho]
    exact h.right
  unused r hr ho := by
    obtain ⟨q, hq, rfl⟩ := mem_update'.mp hr
    split_ifs at ho ⊢
    · rw [Row.key_merge]
      exact h.unused q hq ((hkeep q).symm.trans ho)
    · exact h.unused q hq ho

end Row
end Table
end Relational

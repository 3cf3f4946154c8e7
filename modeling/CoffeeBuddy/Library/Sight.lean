import CoffeeBuddy.Library.Beside

/-! The part of a table that somebody looks at. Tables with the same rows in sight answer the
queries of it alike and take the statements on it alike, whatever rows they have out of sight;
the keys of the rows in sight, and of those yet to be inserted, are known in advance. -/

namespace Relational
namespace Table
variable {ρ κ : Type*}

section Keyed
variable [Keyed ρ κ] {sight : ρ → Bool} {K : κ → Prop} {s t : Table ρ}

/-- The keys in `K` are taken by rows in sight only, and the rows in sight have no others. -/
def Owned (sight : ρ → Bool) (K : κ → Prop) (t : Table ρ) : Prop :=
  ∀ r ∈ t, K (Keyed.key r) ↔ sight r = true

/-- Two tables with the same rows in sight. -/
structure Seen (sight : ρ → Bool) (K : κ → Prop) (s t : Table ρ) : Prop where
  same : s.select sight = t.select sight
  left : s.Owned sight K
  right : t.Owned sight K

theorem mem_of_same (h : s.select sight = t.select sight) {r : ρ} (hr : r ∈ s)
    (hs : sight r = true) : r ∈ t := by
  have hmem : r ∈ t.select sight := h ▸ mem_select.mpr ⟨hr, hs⟩
  exact (mem_select.mp hmem).1

/-- The keys of the rows that were in sight, and fresh ones. -/
theorem owned_of_same {N : κ → Prop} (h : s.select sight = t.select sight)
    (hfresh : ∀ r ∈ t, ¬N (Keyed.key r)) :
    t.Owned sight fun k => N k ∨ ∃ r ∈ s, sight r = true ∧ Keyed.key r = k := by
  intro r hr
  constructor
  · rintro (hN | ⟨q, hq, hs, hk⟩)
    · exact absurd hN (hfresh r hr)
    · obtain rfl := eq_of_key (mem_of_same h hq hs) hr hk
      exact hs
  · intro hs
    exact Or.inr ⟨r, mem_of_same h.symm hr hs, hs, rfl⟩

/-- Rows out of the wider sight are out of the narrower. -/
theorem select_narrower {wide : ρ → Bool} (h : s.select wide = t.select wide)
    (hw : ∀ r, sight r = true → wide r = true) : s.select sight = t.select sight := by
  have hpart : ∀ t : Table ρ, t.select sight = (t.select wide).filter sight := by
    intro t
    unfold select
    rw [List.filter_filter]
    apply List.filter_congr
    intro r _
    cases hr : sight r with
    | false => rw [Bool.false_and]
    | true => rw [hw r hr, Bool.true_and]
  rw [hpart s, hpart t, h]

namespace Seen

theorem symm (h : Seen sight K s t) : Seen sight K t s := ⟨h.same.symm, h.right, h.left⟩

theorem mem (h : Seen sight K s t) {r : ρ} (hr : r ∈ s) (hs : sight r = true) : r ∈ t :=
  mem_of_same h.same hr hs

theorem mem_key (h : Seen sight K s t) {r : ρ} (hr : r ∈ s) (hk : K (Keyed.key r)) : r ∈ t :=
  h.mem hr ((h.left r hr).mp hk)

/-! ### Queries -/

theorem select_same (h : Seen sight K s t) {p : ρ → Bool} (hp : ∀ r, p r = true → sight r = true) :
    s.select p = t.select p := select_narrower h.same hp

theorem find_first (h : Seen sight K s t) {p : ρ → Bool}
    (hp : ∀ r, p r = true → sight r = true) : s.rows.find? p = t.rows.find? p :=
  find?_of_select h.same hp

theorem find?_eq [DecidableEq κ] (h : Seen sight K s t) {k : κ} (hk : K k) :
    s.find? k = t.find? k := by
  have hsome : ∀ {s t : Table ρ}, Seen sight K s t → ∀ r, s.find? k = some r → t.find? k = some r := by
    intro s t h r hr
    obtain ⟨hmem, rfl⟩ := find?_eq_some.mp hr
    exact find?_key (h.mem_key hmem hk)
  apply Option.ext
  intro r
  exact ⟨hsome h r, hsome h.symm r⟩

/-! ### Statements -/

theorem insert [DecidableEq κ] (h : Seen sight K s t) {r : ρ} (hr : sight r = true)
    (hk : K (Keyed.key r)) :
    (∃ s' t', s.insert r = some s' ∧ t.insert r = some t' ∧ Seen sight K s' t') ∨
      s.insert r = none ∧ t.insert r = none := by
  have htaken : ∀ {s t : Table ρ}, Seen sight K s t → s.insert r = none → t.insert r = none := by
    intro s t h hs
    obtain ⟨q, hq, hkey⟩ := insert_eq_none.mp hs
    exact insert_eq_none.mpr ⟨q, h.mem_key hq (hkey ▸ hk), hkey⟩
  have howned : ∀ {t t' : Table ρ}, t.Owned sight K → t.insert r = some t' → t'.Owned sight K := by
    intro t t' ht hi q hq
    rcases (mem_insert hi).mp hq with hq | rfl
    · exact ht q hq
    · exact iff_of_true hk hr
  cases hs : s.insert r with
  | none => exact Or.inr ⟨rfl, htaken h hs⟩
  | some s' =>
    cases ht : t.insert r with
    | none => exact absurd ((htaken h.symm ht).symm.trans hs) (Option.some_ne_none s').symm
    | some t' =>
      refine Or.inl ⟨s', t', rfl, rfl, ?_, howned h.left hs, howned h.right ht⟩
      rw [select_insert hs, select_insert ht, h.same]

theorem delete (h : Seen sight K s t) (p : ρ → Bool) : Seen sight K (s.delete p) (t.delete p) := by
  have hfilter : ∀ w : Table ρ, (w.delete p).select sight = (w.select sight).filter fun r => !p r := by
    intro w
    unfold select Table.delete
    rw [List.filter_comm]
  constructor
  · rw [hfilter, hfilter, h.same]
  · exact fun r hr => h.left r (mem_delete.mp hr).1
  · exact fun r hr => h.right r (mem_delete.mp hr).1

end Seen
end Keyed

section Row
variable [Row ρ κ] [DecidableEq κ] {sight : ρ → Bool} {K : κ → Prop} {s t : Table ρ} {l m : ρ}

theorem Owned.update (h : t.Owned sight K) (hkeep : ∀ r, sight (Row.merge l m r) = sight r) :
    (t.update l m).Owned sight K := by
  intro r hr
  obtain ⟨q, hq, rfl⟩ := mem_update'.mp hr
  split_ifs
  · rw [Row.key_merge, hkeep]
    exact h q hq
  · exact h q hq

theorem Seen.update (h : Seen sight K s t) (hkeep : ∀ r, sight (Row.merge l m r) = sight r) :
    Seen sight K (s.update l m) (t.update l m) where
  same := by rw [select_update_own hkeep, select_update_own hkeep, h.same]
  left := h.left.update hkeep
  right := h.right.update hkeep

end Row
end Table
end Relational

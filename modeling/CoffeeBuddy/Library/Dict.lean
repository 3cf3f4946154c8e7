import CoffeeBuddy.Library.Table

/-! Insertion-ordered dictionaries: a table of entries keyed by their first
component. Setting a present key keeps its place. -/

namespace Relational

abbrev Entry (κ ν : Type*) := κ × ν

instance {κ ν : Type*} : Row (Entry κ ν) κ where
  key := Prod.fst
  merge _ m c := (c.1, m.2)
  key_merge _ _ _ := rfl
  merge_loaded _ _ h := Prod.ext h.symm rfl

abbrev Dict (κ ν : Type*) := Table (Entry κ ν)

namespace Dict
variable {κ ν : Type*}

def values (d : Dict κ ν) : List ν := d.rows.map Prod.snd

theorem mem_values {d : Dict κ ν} {v : ν} : v ∈ d.values ↔ ∃ k, (k, v) ∈ d := by
  simp only [values, List.mem_map, Prod.exists, exists_eq_right, Table.mem_rows]

variable [DecidableEq κ]

def get? (d : Dict κ ν) (k : κ) : Option ν := (d.find? k).map Prod.snd

def set (d : Dict κ ν) (k : κ) (v : ν) : Dict κ ν := (d.insert (k, v)).getD (d.update (k, v) (k, v))

/-- `{key(v): v for v in values}` -/
def ofValues (key : ν → κ) (vs : List ν) : Dict κ ν := vs.foldl (fun d v => d.set (key v) v) Table.empty

theorem get?_eq_some {d : Dict κ ν} {k : κ} {v : ν} : d.get? k = some v ↔ (k, v) ∈ d := by
  simp only [get?, Option.map_eq_some_iff, Table.find?_eq_some]
  constructor
  · rintro ⟨⟨_, _⟩, ⟨h, rfl⟩, rfl⟩
    exact h
  · exact fun h => ⟨(k, v), ⟨h, rfl⟩, rfl⟩

theorem get?_eq_none {d : Dict κ ν} {k : κ} : d.get? k = none ↔ ∀ v, (k, v) ∉ d := by
  simp only [Option.eq_none_iff_forall_ne_some, ne_eq, get?_eq_some]

theorem set_new {d : Dict κ ν} {k : κ} (h : d.get? k = none) (v : ν) :
    (d.set k v).rows = d.rows ++ [(k, v)] := by
  have hi : d.insert (k, v) = some ⟨d.rows ++ [(k, v)], by
      rw [List.map_append]
      refine List.nodup_append_comm.mp (List.nodup_cons.mpr ⟨fun hk => ?_, d.nodup⟩)
      obtain ⟨⟨_, w⟩, hw, rfl⟩ := List.mem_map.mp hk
      exact get?_eq_none.mp h w hw⟩ := by
    refine Table.insert_eq_some.mpr ⟨?_, rfl⟩
    rintro ⟨_, w⟩ hw rfl
    exact get?_eq_none.mp h w hw
  rw [set, hi, Option.getD_some]

theorem mem_set_new {d : Dict κ ν} {k : κ} (h : d.get? k = none) {v : ν} {e : Entry κ ν} :
    e ∈ d.set k v ↔ e ∈ d ∨ e = (k, v) := by
  rw [← Table.mem_rows, set_new h, List.mem_append, List.mem_singleton, Table.mem_rows]

theorem get?_set_new {d : Dict κ ν} {k l : κ} (h : d.get? k = none) {v : ν} (hl : l ≠ k) :
    (d.set k v).get? l = d.get? l := by
  refine Option.ext fun w => ?_
  rw [get?_eq_some, get?_eq_some, mem_set_new h]
  exact or_iff_left fun he => hl (Prod.mk.inj he).1

theorem mem_of_mem_set {d : Dict κ ν} {k : κ} {v : ν} {e : Entry κ ν} (h : e ∈ d.set k v) :
    e ∈ d ∨ e = (k, v) := by
  unfold set at h
  cases hi : d.insert (k, v) with
  | some d' => exact (Table.mem_insert hi).mp (by simpa only [hi, Option.getD_some] using h)
  | none =>
    rw [hi, Option.getD_none] at h
    obtain ⟨r, hr, rfl⟩ := Table.mem_update'.mp h
    split_ifs with hk
    · exact Or.inr (Prod.ext hk rfl)
    · exact Or.inl hr

theorem mem_of_mem_ofValues {key : ν → κ} {vs : List ν} {e : Entry κ ν} (h : e ∈ ofValues key vs) :
    e.2 ∈ vs ∧ e.1 = key e.2 := by
  have hfold : ∀ (vs : List ν) (d : Dict κ ν), e ∈ vs.foldl (fun d v => d.set (key v) v) d →
      e ∈ d ∨ e.2 ∈ vs ∧ e.1 = key e.2 := by
    intro vs
    induction vs with
    | nil => exact fun d h => Or.inl h
    | cons v vs ih =>
      intro d h
      rcases ih _ h with h | ⟨h, hk⟩
      · rcases mem_of_mem_set h with h | rfl
        · exact Or.inl h
        · exact Or.inr ⟨List.mem_cons_self, rfl⟩
      · exact Or.inr ⟨List.mem_cons_of_mem v h, hk⟩
  rcases hfold vs Table.empty h with h | h
  · exact absurd h List.not_mem_nil
  · exact h

theorem rows_ofValues {key : ν → κ} {vs : List ν} (h : (vs.map key).Nodup) :
    (ofValues key vs).rows = vs.map fun v => (key v, v) := by
  have hfold : ∀ (vs : List ν) (d : Dict κ ν), (vs.map key).Nodup →
      (∀ v ∈ vs, d.get? (key v) = none) →
      (vs.foldl (fun d v => d.set (key v) v) d).rows = d.rows ++ vs.map fun v => (key v, v) := by
    intro vs
    induction vs with
    | nil => intro d _ _; simp
    | cons v vs ih =>
      intro d hnd hfree
      rw [List.map_cons, List.nodup_cons] at hnd
      have hnew := hfree v List.mem_cons_self
      rw [List.foldl_cons, ih (d.set (key v) v) hnd.2, set_new hnew, List.append_assoc]
      · rfl
      · intro w hw
        refine get?_eq_none.mpr fun x hx => ?_
        rcases (mem_set_new hnew).mp hx with hx | hx
        · exact get?_eq_none.mp (hfree w (List.mem_cons_of_mem v hw)) x hx
        · exact hnd.1 ((Prod.mk.inj hx).1 ▸ List.mem_map_of_mem hw)
  rw [ofValues, hfold vs Table.empty h fun v _ => get?_eq_none.mpr fun w hw => List.not_mem_nil hw]
  rfl

end Dict
end Relational

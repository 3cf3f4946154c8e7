import Mathlib.Data.List.Induction
import Mathlib.Data.Option.Basic
import Mathlib.Logic.Function.Basic

/-! The last write of a log. Each event of a log may write one entry of a map and may
clear some; what the map holds at the end is what the last event to touch a key left. -/

namespace LastWrite
variable {E ι ν : Type*} [DecidableEq ι]
variable (write : E → Option (ι × ν)) (clears : E → ι → Prop) [∀ e, DecidablePred (clears e)]

def written (M : ι → Option ν) (e : E) : ι → Option ν :=
  match write e with
  | some (k, v) => Function.update (fun j => if clears e j then none else M j) k (some v)
  | none => fun j => if clears e j then none else M j

def contents (es : List E) : ι → Option ν := es.foldl (written write clears) fun _ => none

/-- `v` is the last value written at `k`, and nothing has cleared it since. -/
def IsLast (es : List E) (k : ι) (v : ν) : Prop :=
  ∃ es₁ e es₂, es = es₁ ++ e :: es₂ ∧ write e = some (k, v) ∧
    ∀ f ∈ es₂, (∀ w, write f ≠ some (k, w)) ∧ ¬clears f k

variable {write clears} {es : List E} {e : E} {k : ι} {v : ν} {M : ι → Option ν}

theorem contents_nil : contents write clears [] k = none := rfl

theorem contents_snoc : contents write clears (es ++ [e]) =
    written write clears (contents write clears es) e := by
  unfold contents
  rw [List.foldl_append]
  rfl

theorem written_of_write {j : ι} {w : ν} (h : write e = some (j, w)) : written write clears M e =
    Function.update (fun i => if clears e i then none else M i) j (some w) := by
  unfold written
  rw [h]

theorem written_of_none (h : write e = none) :
    written write clears M e = fun i => if clears e i then none else M i := by
  unfold written
  rw [h]

theorem written_self (h : write e = some (k, v)) : written write clears M e k = some v := by
  rw [written_of_write h, Function.update_self]

theorem written_other (h : ∀ w, write e ≠ some (k, w)) :
    written write clears M e k = if clears e k then none else M k := by
  cases hw : write e with
  | none => rw [written_of_none hw]
  | some entry =>
    obtain ⟨j, w⟩ := entry
    have hne : k ≠ j := fun hk => h w (hk ▸ hw)
    rw [written_of_write hw, Function.update_of_ne hne]

omit [DecidableEq ι] [∀ e, DecidablePred (clears e)] in
theorem isLast_snoc : IsLast write clears (es ++ [e]) k v ↔ write e = some (k, v) ∨
    (∀ w, write e ≠ some (k, w)) ∧ ¬clears e k ∧ IsLast write clears es k v := by
  constructor
  · rintro ⟨es₁, f, es₂, h, hf, hlater⟩
    rcases List.eq_nil_or_concat es₂ with rfl | ⟨fs, g, rfl⟩
    · obtain ⟨-, hef⟩ := List.append_inj' h rfl
      obtain rfl := List.head_eq_of_cons_eq hef
      exact Or.inl hf
    · rw [List.concat_eq_append, ← List.cons_append, ← List.append_assoc] at h
      obtain ⟨hes, heg⟩ := List.append_inj' h rfl
      obtain rfl := List.head_eq_of_cons_eq heg
      obtain ⟨hw, hclear⟩ := hlater e (by simp)
      exact Or.inr ⟨hw, hclear, es₁, f, fs, hes, hf, fun g hg => hlater g (by simp [hg])⟩
  · rintro (hw | ⟨hw, hclear, es₁, f, es₂, rfl, hf, hlater⟩)
    · exact ⟨es, e, [], rfl, hw, fun f hf => absurd hf List.not_mem_nil⟩
    · refine ⟨es₁, f, es₂ ++ [e], by simp, hf, fun g hg => ?_⟩
      rcases List.mem_append.mp hg with hg | hg
      · exact hlater g hg
      · obtain rfl := List.mem_singleton.mp hg
        exact ⟨hw, hclear⟩

omit [DecidableEq ι] [∀ e, DecidablePred (clears e)] in
theorem IsLast.unclear (h : IsLast write clears es k v) : IsLast write (fun _ _ => False) es k v := by
  obtain ⟨es₁, e, es₂, hes, he, hlater⟩ := h
  exact ⟨es₁, e, es₂, hes, he, fun f hf => ⟨(hlater f hf).1, not_false⟩⟩

theorem contents_eq_some : contents write clears es k = some v ↔ IsLast write clears es k v := by
  induction es using List.reverseRecOn with
  | nil =>
    rw [contents_nil]
    refine iff_of_false (fun h => Option.some_ne_none v h.symm) ?_
    rintro ⟨es₁, e, es₂, h, -⟩
    simp at h
  | append_singleton es e ih =>
    rw [contents_snoc, isLast_snoc, ← ih]
    by_cases hw : ∃ w, write e = some (k, w)
    · obtain ⟨w, hw⟩ := hw
      rw [written_self hw, hw]
      simp
    · rw [not_exists] at hw
      have hv : write e ≠ some (k, v) := hw v
      rw [written_other hw]
      by_cases hclear : clears e k
      · rw [if_pos hclear]
        refine iff_of_false (Option.some_ne_none v).symm ?_
        rintro (h | ⟨-, hkept, -⟩)
        · exact hv h
        · exact hkept hclear
      · rw [if_neg hclear]
        constructor
        · exact fun h => Or.inr ⟨hw, hclear, h⟩
        · rintro (h | ⟨-, -, h⟩)
          · exact absurd h hv
          · exact h

end LastWrite

import Mathlib.Algebra.Order.BigOperators.Group.Finset
import Mathlib.Algebra.Order.Floor.Div

/-! Fair rotation. Members of a finite set take turns; a turn goes to a member who
has had no more turns than any other, the last one to have a turn set aside. The
turns stay balanced: the last one is behind the others only if nobody is ahead. -/

namespace Rotation
variable {U : Type*} [DecidableEq U] {S : Finset U} {w : List U} {u : U} {m : ℕ}

inductive Fair (S : Finset U) : List U → Prop
  | nil : Fair S []
  | snoc {w : List U} {u : U} (fair : Fair S w) (mem : u ∈ S)
      (least : ∀ v ∈ S, w.getLast? ≠ some v → w.count u ≤ w.count v) : Fair S (w ++ [u])

/-- Everyone has had `m` or `m + 1` turns. -/
structure Level (S : Finset U) (w : List U) (m : ℕ) : Prop where
  low : ∀ v ∈ S, m ≤ w.count v
  high : ∀ v ∈ S, w.count v ≤ m + 1
  attained : ∃ v ∈ S, w.count v = m
  last : ∀ v ∈ S, w.getLast? = some v → w.count v = m → ∀ x ∈ S, w.count x = m

theorem Fair.subset (h : Fair S w) : ∀ v ∈ w, v ∈ S := by
  induction h with
  | nil => exact fun _ h => absurd h List.not_mem_nil
  | snoc _ mem _ ih =>
    intro v hv
    rcases List.mem_append.mp hv with hv | hv
    · exact ih v hv
    · exact List.mem_singleton.mp hv ▸ mem

theorem count_snoc (w : List U) (u v : U) :
    (w ++ [u]).count v = w.count v + if u = v then 1 else 0 := by
  rw [List.count_append, List.count_singleton]
  simp only [beq_iff_eq]

theorem Level.snoc (h : Level S w m) (hu : u ∈ S)
    (hleast : ∀ v ∈ S, w.getLast? ≠ some v → w.count u ≤ w.count v) :
    ∃ m', Level S (w ++ [u]) m' := by
  have hum : w.count u = m := by
    obtain ⟨v, hv, hvm⟩ := h.attained
    by_cases hlast : w.getLast? = some v
    · exact h.last v hv hlast hvm u hu
    · exact le_antisymm (hvm ▸ hleast v hv hlast) (h.low u hu)
  have hself : (w ++ [u]).count u = m + 1 := by rw [count_snoc, if_pos rfl, hum]
  have hother : ∀ v, u ≠ v → (w ++ [u]).count v = w.count v := fun v hv => by
    rw [count_snoc, if_neg hv, add_zero]
  by_cases hrest : ∃ x ∈ S, u ≠ x ∧ w.count x = m
  · obtain ⟨x, hx, hux, hxm⟩ := hrest
    refine ⟨m, fun v hv => ?_, fun v hv => ?_, ⟨x, hx, (hother x hux).trans hxm⟩,
      fun v _ hlast hvm => ?_⟩
    · rw [count_snoc]
      exact (h.low v hv).trans (Nat.le_add_right _ _)
    · by_cases huv : u = v
      · rw [← huv, hself]
      · rw [hother v huv]
        exact h.high v hv
    · rw [List.getLast?_concat, Option.some.injEq] at hlast
      rw [← hlast, hself] at hvm
      omega
  · -- nobody else was at `m`, so now everyone is at `m + 1`
    have hall : ∀ v ∈ S, (w ++ [u]).count v = m + 1 := by
      intro v hv
      by_cases huv : u = v
      · rw [← huv, hself]
      · rw [hother v huv]
        have hne : w.count v ≠ m := fun hvm => hrest ⟨v, hv, huv, hvm⟩
        have hlow := h.low v hv
        have hhigh := h.high v hv
        omega
    refine ⟨m + 1, fun v hv => (hall v hv).ge, fun v hv => ?_, ⟨u, hu, hself⟩,
      fun _ _ _ _ => hall⟩
    rw [hall v hv]
    exact Nat.le_succ _

theorem Fair.level (hS : S.Nonempty) (h : Fair S w) : ∃ m, Level S w m := by
  induction h with
  | nil =>
    obtain ⟨v, hv⟩ := hS
    exact ⟨0, fun _ _ => Nat.zero_le _, fun _ _ => Nat.zero_le _, ⟨v, hv, rfl⟩,
      fun _ _ h _ => absurd h.symm (Option.some_ne_none _)⟩
  | snoc _ mem least ih =>
    obtain ⟨m, hm⟩ := ih
    exact hm.snoc mem least

theorem Fair.sum_count (h : Fair S w) : ∑ v ∈ S, w.count v = w.length := by
  have hsum : ∑ v ∈ S, (w : Multiset U).count v = Multiset.card (w : Multiset U) :=
    Multiset.sum_count_eq_card h.subset
  simpa only [Multiset.coe_count, Multiset.coe_card] using hsum

/-- After `k` turns every one of the `n` members has had `k / n` of them, rounded down
or up. -/
theorem Fair.balanced (h : Fair S w) (hu : u ∈ S) :
    w.count u = w.length / S.card ∨ w.count u = w.length ⌈/⌉ S.card := by
  obtain ⟨m, hm⟩ := h.level ⟨u, hu⟩
  have hpos : 0 < S.card := Finset.card_pos.mpr ⟨u, hu⟩
  have hconst : ∀ a : ℕ, ∑ _v ∈ S, a = S.card * a := fun a => by
    rw [Finset.sum_const, smul_eq_mul]
  obtain ⟨v, hv, hvm⟩ := hm.attained
  have hlt : w.length < S.card * (m + 1) := by
    rw [← h.sum_count, ← hconst]
    exact Finset.sum_lt_sum hm.high ⟨v, hv, hvm ▸ Nat.lt_succ_self m⟩
  by_cases hum : w.count u = m
  · have hle : S.card * m ≤ w.length := by
      rw [← h.sum_count, ← hconst]
      exact Finset.sum_le_sum hm.low
    refine Or.inl (hum.trans (Nat.div_eq_of_lt_le ?_ ?_).symm)
    · rwa [Nat.mul_comm]
    · rwa [Nat.mul_comm]
  · have hum' : w.count u = m + 1 := by
      have hlow := hm.low u hu
      have hhigh := hm.high u hu
      omega
    have hgt : S.card * m < w.length := by
      rw [← h.sum_count, ← hconst]
      exact Finset.sum_lt_sum hm.low ⟨u, hu, hum' ▸ Nat.lt_succ_self m⟩
    refine Or.inr (hum'.trans (le_antisymm (Nat.succ_le_of_lt (lt_of_not_ge ?_)) ?_))
    · rw [ceilDiv_le_iff_le_mul hpos, not_le]
      exact hgt
    · rw [ceilDiv_le_iff_le_mul hpos]
      exact hlt.le

end Rotation

import Mathlib.Algebra.Order.Monoid.Defs
import Mathlib.Algebra.Order.Monoid.Unbundled.Basic
import Mathlib.Order.Lattice
import Mathlib.Tactic.Common

/-! A server that takes its jobs in order. No job is done before it is due and each is
done at once when it is, so a job waits for every job before it that is due later. -/

namespace Waiting
variable {J T : Type*} [LinearOrder T] (due : J → T)

/-- The jobs with the times they are done at, the server being free from `t` on. -/
def served : T → List J → List (J × T)
  | _, [] => []
  | t, j :: js => (j, max t (due j)) :: served (max t (due j)) js

theorem map_fst_served (t : T) (js : List J) : (served due t js).map Prod.fst = js := by
  induction js generalizing t with
  | nil => rfl
  | cons j js ih => rw [served, List.map_cons, ih]

variable [AddCommMonoid T] [IsOrderedAddMonoid T]

/-- Every job is done within `slack` of when it is due exactly when none is due more than
`slack` before a job ahead of it. -/
theorem within_slack_iff {slack : T} (hslack : 0 ≤ slack) (t : T) (js : List J) :
    (∀ x ∈ served due t js, x.2 ≤ due x.1 + slack) ↔
      (∀ j ∈ js, t ≤ due j + slack) ∧ js.Pairwise fun i j => due i ≤ due j + slack := by
  induction js generalizing t with
  | nil => simp [served]
  | cons j js ih =>
    have hself : due j ≤ due j + slack := le_add_of_nonneg_right hslack
    simp only [served, List.forall_mem_cons, ih, max_le_iff, hself, and_true, List.pairwise_cons,
      forall_and]
    constructor
    · rintro ⟨hj, ⟨ht, hjs⟩, hpair⟩
      exact ⟨⟨hj, ht⟩, hjs, hpair⟩
    · rintro ⟨⟨hj, ht⟩, hjs, hpair⟩
      exact ⟨hj, ⟨ht, hjs⟩, hpair⟩

end Waiting

import Mathlib.Data.List.Induction
import Mathlib.Tactic.Common

/-! Replaying a log: the state a list of entries leads to, and properties of the entries
in the state they were made in. -/

namespace Replay
variable {S A : Type*} {apply : S → A → S} {P : S → A → Prop}

def replay (apply : S → A → S) (s : S) (log : List A) : S := log.foldl apply s

/-- Each entry satisfies `P` in the state replayed from those before it. -/
def Checked (apply : S → A → S) (P : S → A → Prop) : S → List A → Prop
  | _, [] => True
  | s, a :: log => P s a ∧ Checked apply P (apply s a) log

theorem replay_append (s : S) (log log' : List A) :
    replay apply s (log ++ log') = replay apply (replay apply s log) log' := List.foldl_append

theorem checked_append {s : S} {log log' : List A} : Checked apply P s (log ++ log') ↔
    Checked apply P s log ∧ Checked apply P (replay apply s log) log' := by
  induction log generalizing s with
  | nil => exact (true_and _).to_iff.symm
  | cons a log ih =>
    rw [List.cons_append, Checked, Checked, ih, and_assoc]
    rfl

/-- A field every entry may overwrite is in the end what the last one wrote. -/
theorem replay_field {F : Type*} (field : S → F) (write : A → Option F)
    (happly : ∀ s a, field (apply s a) = (write a).getD (field s)) (s : S) (log : List A) :
    field (replay apply s log) = (log.filterMap write).getLast?.getD (field s) := by
  induction log using List.reverseRecOn with
  | nil => rfl
  | append_singleton log a ih =>
    rw [replay_append, List.filterMap_append]
    show field (apply (replay apply s log) a) = _
    rw [happly, ih]
    cases hwrite : write a with
    | none => simp [hwrite]
    | some v => simp [hwrite]

theorem checked_singleton {s : S} {a : A} : Checked apply P s [a] ↔ P s a :=
  (and_true _).to_iff

theorem Checked.invariant {I : S → Prop} (hstep : ∀ s a, P s a → I s → I (apply s a)) {s : S}
    {log : List A} (h : Checked apply P s log) (hs : I s) : I (replay apply s log) := by
  induction log generalizing s with
  | nil => exact hs
  | cons a log ih => exact ih h.2 (hstep s a h.1 hs)

end Replay

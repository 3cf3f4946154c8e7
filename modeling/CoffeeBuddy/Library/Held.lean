import Mathlib.Data.List.Basic

/-! A field that holds the client its object has built: the clients built so far, what has
become of each, and the one in the field. -/

namespace Held

/-- A client whose start has not come back, or has failed, is still `built`. -/
inductive Phase where
  | built
  | running
  | stopped
deriving DecidableEq

structure Field where
  held : Option ℕ := none
  clients : List Phase := []

namespace Field

def build (x : Field) : Field := ⟨some x.clients.length, x.clients ++ [.built]⟩

/-- What becomes of the client in the field. -/
def mark (phase : Phase) (x : Field) : Field :=
  match x.held with
  | some i => ⟨some i, x.clients.set i phase⟩
  | none => x

def drop (x : Field) : Field := { x with held := none }

/-- The client is stopped before the field is cleared. -/
def release (x : Field) : Field := (x.mark .stopped).drop

/-- No client has been started without being stopped. -/
def Idle (x : Field) : Prop := ∀ i : ℕ, x.clients[i]? ≠ some Phase.running

def Holds (x : Field) (phase : Phase) : Prop := ∃ i, x.held = some i ∧ x.clients[i]? = some phase

/-- The field holds the one client that may be running, and none that has been stopped. -/
structure Sole (x : Field) : Prop where
  running : ∀ i : ℕ, x.clients[i]? = some Phase.running → x.held = some i
  kept : ∀ i : ℕ, x.held = some i → x.Holds .built ∨ x.Holds .running

variable {x : Field} {phase : Phase} {i : ℕ}

theorem sole_empty : Sole {} := ⟨fun _ h => (nomatch h), fun _ h => (nomatch h)⟩

theorem Holds.held_ne_none (h : x.Holds phase) : x.held ≠ none := by
  obtain ⟨i, hi, -⟩ := h
  rw [hi]
  exact Option.some_ne_none i

theorem Holds.unique {phase' : Phase} (h : x.Holds phase) (h' : x.Holds phase') :
    phase = phase' := by
  obtain ⟨i, hi, hphase⟩ := h
  obtain ⟨j, hj, hphase'⟩ := h'
  obtain rfl := Option.some.inj (hi.symm.trans hj)
  exact Option.some.inj (hphase.symm.trans hphase')

theorem mark_of_held (h : x.held = some i) : x.mark phase = ⟨some i, x.clients.set i phase⟩ := by
  rw [mark, h]

theorem release_of_none (h : x.held = none) : x.release = x := by
  rw [release, mark, h]
  obtain ⟨held, clients⟩ := x
  obtain rfl : held = none := h
  rfl

theorem holds_build : x.build.Holds .built :=
  ⟨x.clients.length, rfl, List.getElem?_concat_length⟩

theorem mark_build : x.build.mark phase = ⟨some x.clients.length, x.clients ++ [phase]⟩ := by
  rw [mark_of_held rfl, build, List.set_append_right _ _ (Nat.le_refl _), Nat.sub_self]
  rfl

theorem holds_mark_build : (x.build.mark phase).Holds phase := by
  rw [mark_build]
  exact ⟨_, rfl, List.getElem?_concat_length⟩

namespace Sole

theorem idle_of_none (h : x.Sole) (hnone : x.held = none) : x.Idle :=
  fun i hi => Option.some_ne_none i ((h.running i hi).symm.trans hnone)

theorem concat (h : x.Sole) (hnone : x.held = none) (hphase : phase ≠ .stopped) :
    Sole ⟨some x.clients.length, x.clients ++ [phase]⟩ := by
  refine ⟨fun i hi => ?_, fun i hi => ?_⟩
  · by_cases hlt : i < x.clients.length
    · rw [List.getElem?_append_left hlt] at hi
      exact absurd hi (h.idle_of_none hnone i)
    · obtain ⟨hle, -⟩ := List.getElem?_eq_some_iff.mp hi
      rw [List.length_append, List.length_singleton] at hle
      have hlast : i = x.clients.length := by omega
      rw [hlast]
  · cases phase with
    | built => exact Or.inl ⟨_, rfl, List.getElem?_concat_length⟩
    | running => exact Or.inr ⟨_, rfl, List.getElem?_concat_length⟩
    | stopped => exact absurd rfl hphase

theorem build (h : x.Sole) (hnone : x.held = none) : x.build.Sole := h.concat hnone (by decide)

theorem started (h : x.Sole) (hnone : x.held = none) : (x.build.mark .running).Sole := by
  rw [mark_build]
  exact h.concat hnone (by decide)

theorem idle_release (h : x.Sole) : x.release.Idle := by
  cases hheld : x.held with
  | none =>
    rw [release_of_none hheld]
    exact h.idle_of_none hheld
  | some i =>
    intro j hj
    rw [release, mark_of_held hheld, drop, List.getElem?_set] at hj
    split_ifs at hj with hij
    · exact nomatch hj
    · exact hij (Option.some.inj (hheld.symm.trans (h.running j hj)))

theorem release (h : x.Sole) : x.release.Sole :=
  ⟨fun i hi => absurd hi (h.idle_release i), fun _ hi => nomatch hi⟩

end Sole
end Field
end Held

import Mathlib.Data.List.Induction

/-! Finite runs of a labelled transition relation. Every event keeps the states
on both sides of its step, so that a condition on a run is a condition on its
events. Runs grow at the end, as histories do. -/

namespace Transition
variable {S L : Type*}

structure Event (S L : Type*) where
  before : S
  label : L
  after : S

/-- `P` holds of every event together with the events before it. -/
def Throughout (P : List (Event S L) → Event S L → Prop) (es : List (Event S L)) : Prop :=
  ∀ es₁ e es₂, es = es₁ ++ e :: es₂ → P es₁ e

theorem throughout_nil (P : List (Event S L) → Event S L → Prop) : Throughout P [] :=
  fun es₁ e es₂ h => absurd h (by simp)

theorem throughout_snoc {P : List (Event S L) → Event S L → Prop} {es : List (Event S L)}
    {e : Event S L} : Throughout P (es ++ [e]) ↔ Throughout P es ∧ P es e := by
  constructor
  · intro h
    refine ⟨fun es₁ f es₂ hes => h es₁ f (es₂ ++ [e]) ?_, h es e [] rfl⟩
    rw [hes, List.append_assoc, List.cons_append]
  · rintro ⟨h, he⟩ es₁ f es₂ hes
    rcases List.eq_nil_or_concat es₂ with rfl | ⟨fs, g, rfl⟩
    · obtain ⟨rfl, hf⟩ := List.append_inj' hes rfl
      obtain rfl := List.head_eq_of_cons_eq hf
      exact he
    · rw [List.concat_eq_append, ← List.cons_append, ← List.append_assoc] at hes
      exact h es₁ f fs (List.append_inj' hes rfl).1

inductive Path (step : S → L → S → Prop) (s : S) : List (Event S L) → S → Prop
  | nil : Path step s [] s
  | snoc {es : List (Event S L)} {t u : S} {l : L} (path : Path step s es t)
      (last : step t l u) : Path step s (es ++ [⟨t, l, u⟩]) u

namespace Path
variable {step : S → L → S → Prop} {s t : S} {es : List (Event S L)}

theorem nil_iff : Path step s [] t ↔ t = s := by
  constructor
  · intro h
    generalize hes : ([] : List (Event S L)) = es at h
    cases h with
    | nil => rfl
    | snoc path last => simp at hes
  · rintro rfl
    exact .nil

theorem snoc_iff {e : Event S L} :
    Path step s (es ++ [e]) t ↔ Path step s es e.before ∧ step e.before e.label t ∧ e.after = t := by
  constructor
  · intro h
    generalize hes : es ++ [e] = fs at h
    cases h with
    | nil => simp at hes
    | snoc path last =>
      obtain ⟨rfl, he⟩ := List.append_inj' hes rfl
      obtain rfl := List.head_eq_of_cons_eq he
      exact ⟨path, last, rfl⟩
  · rintro ⟨path, last, rfl⟩
    exact .snoc path last

theorem append_iff {fs : List (Event S L)} :
    Path step s (es ++ fs) t ↔ ∃ u, Path step s es u ∧ Path step u fs t := by
  induction fs using List.reverseRecOn generalizing t with
  | nil => simp [nil_iff]
  | append_singleton fs e ih =>
    rw [← List.append_assoc, snoc_iff, ih]
    simp only [snoc_iff]
    constructor
    · rintro ⟨⟨u, hu, hf⟩, hl, ha⟩
      exact ⟨u, hu, hf, hl, ha⟩
    · rintro ⟨u, hu, hf, hl, ha⟩
      exact ⟨⟨u, hu, hf⟩, hl, ha⟩

theorem append {u : S} {fs : List (Event S L)} (h : Path step s es u) (h' : Path step u fs t) :
    Path step s (es ++ fs) t := append_iff.mpr ⟨u, h, h'⟩

theorem cons {e : Event S L} (hstep : step e.before e.label e.after) (h : Path step e.after es t) :
    Path step e.before (e :: es) t := append (snoc (l := e.label) .nil hstep) h

theorem split_iff {e : Event S L} {fs : List (Event S L)} :
    Path step s (es ++ e :: fs) t ↔
      Path step s es e.before ∧ step e.before e.label e.after ∧ Path step e.after fs t := by
  rw [List.append_cons, append_iff]
  simp only [snoc_iff]
  constructor
  · rintro ⟨u, ⟨hpre, hstep, rfl⟩, hpost⟩
    exact ⟨hpre, hstep, hpost⟩
  · rintro ⟨hpre, hstep, hpost⟩
    exact ⟨_, ⟨hpre, hstep, rfl⟩, hpost⟩

/-- What holds at the start and after every event holds at the end. -/
theorem reached {I : S → Prop} (h : Path step s es t) (hs : I s) (hafter : ∀ e ∈ es, I e.after) :
    I t := by
  cases h with
  | nil => exact hs
  | snoc path last => exact hafter _ (List.mem_append_right _ List.mem_cons_self)

theorem mem_step (h : Path step s es t) {e : Event S L} (he : e ∈ es) :
    step e.before e.label e.after := by
  induction h with
  | nil => simp at he
  | snoc path last ih =>
    rcases List.mem_append.mp he with he | he
    · exact ih he
    · obtain rfl := List.mem_singleton.mp he
      exact last

/-- What every step taken from an allowed event preserves holds at the end. -/
theorem induct {I : S → Prop} {C : Event S L → Prop}
    (hstep : ∀ e : Event S L, step e.before e.label e.after → C e → I e.before → I e.after)
    (h : Path step s es t) (hC : ∀ e ∈ es, C e) (hs : I s) : I t := by
  induction h with
  | nil => exact hs
  | snoc path last ih =>
    have hbefore := ih fun e he => hC e (List.mem_append_left _ he)
    exact hstep ⟨_, _, _⟩ last (hC _ (List.mem_append_right _ (List.mem_singleton.mpr rfl))) hbefore

theorem invariant {I : S → Prop} (hstep : ∀ s l t, step s l t → I s → I t)
    (h : Path step s es t) (hs : I s) : I t :=
  induct (C := fun _ => True) (fun _ h _ => hstep _ _ _ h) h (fun _ _ => trivial) hs

/-- An invariant that reads the run so far as well as the state reached. -/
theorem history_invariant {I : List (Event S L) → S → Prop} {C : Event S L → Prop}
    (hstep : ∀ es (e : Event S L), Path step s es e.before → (∀ f ∈ es, C f) →
      step e.before e.label e.after → C e → I es e.before → I (es ++ [e]) e.after)
    (h : Path step s es t) (hC : ∀ e ∈ es, C e) (hs : I [] s) : I es t := by
  induction h with
  | nil => exact hs
  | snoc path last ih =>
    have hes := fun e he => hC e (List.mem_append_left _ he)
    exact hstep _ ⟨_, _, _⟩ path hes last (hC _ (List.mem_append_right _ (List.mem_singleton.mpr rfl)))
      (ih hes)

theorem invariant_mem {I : S → Prop} (hstep : ∀ s l t, step s l t → I s → I t)
    (h : Path step s es t) (hs : I s) {e : Event S L} (he : e ∈ es) : I e.before := by
  obtain ⟨es₁, es₂, rfl⟩ := List.append_of_mem he
  exact invariant hstep (split_iff.mp h).1 hs

section Balance
open scoped List
variable {A : Type*} {inflow outflow : Event S L → Option A} {stock : S → List A}

theorem filterMap_snoc (f : Event S L → Option A) (es : List (Event S L)) (e : Event S L) :
    (es ++ [e]).filterMap f = es.filterMap f ++ (f e).toList := by
  rw [List.filterMap_append]
  cases hf : f e <;> simp [hf]

/-- What comes in on a run has gone out or is in stock, if it is so on each of its steps. -/
theorem balance (h : Path step s es t)
    (hstep : ∀ e ∈ es, (inflow e).toList ++ stock e.before ~ (outflow e).toList ++ stock e.after) :
    es.filterMap inflow ++ stock s ~ es.filterMap outflow ++ stock t := by
  induction h with
  | nil => exact .refl _
  | @snoc es t u l path last ih =>
    have hes : es.filterMap inflow ++ stock s ~ es.filterMap outflow ++ stock t :=
      ih fun e he => hstep e (List.mem_append_left _ he)
    have hlast : (inflow ⟨t, l, u⟩).toList ++ stock t ~ (outflow ⟨t, l, u⟩).toList ++ stock u :=
      hstep ⟨t, l, u⟩ (List.mem_append_right _ List.mem_cons_self)
    rw [filterMap_snoc, filterMap_snoc, List.append_assoc, List.append_assoc]
    calc es.filterMap inflow ++ ((inflow ⟨t, l, u⟩).toList ++ stock s)
      _ ~ (inflow ⟨t, l, u⟩).toList ++ (es.filterMap inflow ++ stock s) :=
        List.perm_append_comm_assoc ..
      _ ~ (inflow ⟨t, l, u⟩).toList ++ (es.filterMap outflow ++ stock t) := hes.append_left _
      _ ~ es.filterMap outflow ++ ((inflow ⟨t, l, u⟩).toList ++ stock t) :=
        List.perm_append_comm_assoc ..
      _ ~ es.filterMap outflow ++ ((outflow ⟨t, l, u⟩).toList ++ stock u) := hlast.append_left _

end Balance
end Path
end Transition

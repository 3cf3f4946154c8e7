import CoffeeBuddy.Library.ReadCommitted

/-! Sessions under an invariant. A program is within `I`, if it keeps `I` with every write as
long as all its reads are in `I`; what all sessions are within holds of the store throughout,
and their answers and errors are those they have within it. -/

namespace Transaction
variable {ι σ ε α β : Type}

/-- The write keeps `I`, or is refused with an error in `E`. -/
structure Upholds (I : σ → Prop) (E : ε → Prop) (w : σ → Except ε σ) : Prop where
  ok : ∀ s t, I s → w s = .ok t → I t
  error : ∀ s e, I s → w s = .error e → E e

namespace Program

/-- Every path of the program, whatever the reads return among the stores in `I`: each write
keeps `I`, each error is in `E` and each returned value in `Q`. -/
inductive Within (I : σ → Prop) (E : ε → Prop) (Q : α → Prop) : Program σ ε α → Prop
  | ret {a : α} : Q a → Within I E Q (.ret a)
  | raise {e : ε} : E e → Within I E Q (.raise e)
  | select {k : σ → Program σ ε α} : (∀ s, I s → Within I E Q (k s)) → Within I E Q (.select k)
  | write {w : σ → Except ε σ} {k : Program σ ε α} :
      Upholds I E w → Within I E Q k → Within I E Q (.write w k)

section Within
variable {I : σ → Prop} {E : ε → Prop} {Q : α → Prop} {R : β → Prop} {p : Program σ ε α}

theorem within_pure {a : α} (h : Q a) : (pure a : Program σ ε α).Within I E Q := .ret h

theorem within_query {q : σ → α} (h : ∀ s, I s → Q (q s)) :
    (query q : Program σ ε α).Within I E Q := .select fun s hs => .ret (h s hs)

theorem within_execute {w : σ → Except ε σ} (h : Upholds I E w) :
    (execute w).Within I E fun _ => True := .write h (.ret trivial)

theorem Within.bind {f : α → Program σ ε β} (hp : p.Within I E Q)
    (hf : ∀ a, Q a → (f a).Within I E R) : (p >>= f).Within I E R := by
  change (p.bind f).Within I E R
  induction hp with
  | ret hq => exact hf _ hq
  | raise he => exact .raise he
  | select _ ih => exact .select ih
  | write hw _ ih => exact .write hw ih

theorem Within.mono {E' : ε → Prop} {Q' : α → Prop} (h : p.Within I E Q) (hE : ∀ e, E e → E' e)
    (hQ : ∀ a, Q a → Q' a) : p.Within I E' Q' := by
  induction h with
  | ret hq => exact .ret (hQ _ hq)
  | raise he => exact .raise (hE _ he)
  | select _ ih => exact .select ih
  | write hw _ ih => exact .write ⟨hw.ok, fun s e hs h => hE e (hw.error s e hs h)⟩ ih

end Within
end Program

/-- The writes of a session, one after the other. -/
theorem applied_upholds {I : σ → Prop} {E : ε → Prop} {ws : List (σ → Except ε σ)} {s : σ}
    (h : ∀ w ∈ ws, Upholds I E w) (hs : I s) :
    (∀ t, applied ws s = .ok t → I t) ∧ ∀ e, applied ws s = .error e → E e := by
  induction ws generalizing s with
  | nil =>
    constructor
    · intro t ht
      exact Except.ok.inj ht ▸ hs
    · intro e he
      cases he
  | cons w ws ih =>
    have hw : Upholds I E w := h w List.mem_cons_self
    have hrest : ∀ u ∈ ws, Upholds I E u := fun u hu => h u (List.mem_cons_of_mem w hu)
    have hstep : applied (w :: ws) s = w s >>= applied ws := rfl
    rw [hstep]
    cases hfirst : w s with
    | error e =>
      constructor
      · intro t ht
        cases ht
      · intro d hd
        cases hd
        exact hw.error s e hs hfirst
    | ok t => exact ih hrest (hw.ok s t hs hfirst)

namespace World
variable {programs : ι → Program σ ε α} {I : σ → Prop} {E : ι → ε → Prop} {Q : ι → α → Prop}
  {w : World ι σ ε α}

/-- Where a session is, under the invariant. -/
def Bound (I : σ → Prop) (E : ε → Prop) (Q : α → Prop) : Session σ ε α → Prop
  | .active own rest => (∀ u ∈ own, Upholds I E u) ∧ rest.Within I E Q
  | .committed a => Q a
  | .rolledBack e => E e

/-- The store is in `I` and every session is bound by it. -/
structure Sound (I : σ → Prop) (E : ι → ε → Prop) (Q : ι → α → Prop) (w : World ι σ ε α) :
    Prop where
  store : I w.store
  sessions : ∀ i, Bound I (E i) (Q i) (w.sessions i)

variable [DecidableEq ι]

theorem Sound.put (h : Sound I E Q w) {i : ι} {x : Session σ ε α} (hx : Bound I (E i) (Q i) x) :
    Sound I E Q (w.put i x) := by
  refine ⟨h.store, fun j => ?_⟩
  by_cases hj : j = i
  · subst hj
    rw [put_self]
    exact hx
  · rw [put_other hj]
    exact h.sessions j

variable {valid : σ → Prop} [DecidablePred valid] {violation : ε}

theorem Sound.step (h : Sound I E Q w) (hviolation : ∀ i, E i violation) {i : ι}
    {w' : World ι σ ε α} (hstep : step valid violation w i w') : Sound I E Q w' := by
  have hi : Bound I (E i) (Q i) (w.sessions i) := h.sessions i
  cases moved_of_step hstep with
  | read own k s hactive hs =>
    rw [hactive] at hi
    obtain ⟨howns, hrest⟩ := hi
    cases hrest with
    | select hk => exact h.put ⟨howns, hk s ((applied_upholds howns h.store).1 s hs)⟩
  | lost own k e hactive he =>
    rw [hactive] at hi
    exact h.put (x := .rolledBack e) ((applied_upholds hi.1 h.store).2 e he)
  | wrote own u k s hactive hs =>
    rw [hactive] at hi
    obtain ⟨howns, hrest⟩ := hi
    cases hrest with
    | write hu hk =>
      exact h.put ⟨List.forall_mem_append.mpr ⟨howns, List.forall_mem_singleton.mpr hu⟩, hk⟩
  | refused own u k e hactive he =>
    rw [hactive] at hi
    obtain ⟨howns, hrest⟩ := hi
    cases hrest with
    | write hu hk =>
      have hall : ∀ v ∈ own ++ [u], Upholds I (E i) v :=
        List.forall_mem_append.mpr ⟨howns, List.forall_mem_singleton.mpr hu⟩
      exact h.put (x := .rolledBack e) ((applied_upholds hall h.store).2 e he)
  | raised own e hactive =>
    rw [hactive] at hi
    obtain ⟨-, hrest⟩ := hi
    cases hrest with
    | raise he => exact h.put (x := .rolledBack e) he
  | committed own a s hactive hs _ =>
    rw [hactive] at hi
    obtain ⟨howns, hrest⟩ := hi
    cases hrest with
    | ret ha =>
      have hput := h.put (i := i) (x := .committed a) ha
      exact ⟨(applied_upholds howns h.store).1 s hs, hput.sessions⟩
  | violates own a s _ _ _ => exact h.put (x := .rolledBack violation) (hviolation i)
  | outdated own a e hactive he =>
    rw [hactive] at hi
    exact h.put (x := .rolledBack e) ((applied_upholds hi.1 h.store).2 e he)

/-- What every session is within holds throughout. -/
theorem sound_of_run {s : σ} {es : List (Move ι σ ε α)}
    (h : Run valid violation (start s programs) es w) (hs : I s)
    (hviolation : ∀ i, E i violation) (hp : ∀ i, (programs i).Within I (E i) (Q i)) :
    Sound I E Q w := by
  induction h with
  | nil => exact ⟨hs, fun i => ⟨List.forall_mem_nil _, hp i⟩⟩
  | snoc path last ih => exact ih.step hviolation last

end World
end Transaction

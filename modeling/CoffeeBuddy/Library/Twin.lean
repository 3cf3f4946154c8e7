import CoffeeBuddy.Library.Program

/-! Two programs run from related stores: they return related values or raise the same
exception, and leave related stores. -/

namespace Transaction.Program
variable {σ ε α β : Type}

def Twin (R : σ → σ → Prop) (p q : Program σ ε α) (Q : α → α → Prop) : Prop :=
  ∀ s t, R s t →
    (∃ a b s' t', p.Returns s a s' ∧ q.Returns t b t' ∧ R s' t' ∧ Q a b) ∨
    ∃ e s' t', p.Raises s e s' ∧ q.Raises t e t' ∧ R s' t'

/-- The same value, of which `P` holds. -/
def Same (P : α → Prop) (a b : α) : Prop := a = b ∧ P a

section Rules
variable {R : σ → σ → Prop} {p q : Program σ ε α} {Q : α → α → Prop} {P : α → Prop}

theorem twin_pure {a b : α} (h : Q a b) :
    Twin R (pure a : Program σ ε α) (pure b) Q := fun s t hR =>
  Or.inl ⟨a, b, s, t, returns_pure.mpr ⟨rfl, rfl⟩, returns_pure.mpr ⟨rfl, rfl⟩, hR, h⟩

theorem twin_raise {e : ε} : Twin R (raise e : Program σ ε α) (raise e) Q := fun s t hR =>
  Or.inr ⟨e, s, t, raises_raise.mpr ⟨rfl, rfl⟩, raises_raise.mpr ⟨rfl, rfl⟩, hR⟩

theorem twin_query {f g : σ → α} (h : ∀ s t, R s t → Q (f s) (g t)) :
    Twin R (query f : Program σ ε α) (query g) Q := fun s t hR =>
  Or.inl ⟨f s, g t, s, t, returns_query.mpr ⟨rfl, rfl⟩, returns_query.mpr ⟨rfl, rfl⟩, hR, h s t hR⟩

/-- A write is taken in both stores or refused in both for the same reason. -/
theorem twin_execute {w v : σ → Except ε σ}
    (h : ∀ s t, R s t → (∃ s' t', w s = .ok s' ∧ v t = .ok t' ∧ R s' t') ∨
      ∃ e, w s = .error e ∧ v t = .error e) :
    Twin R (execute w) (execute v) fun _ _ => True := by
  intro s t hR
  rcases h s t hR with ⟨s', t', hw, hv, hR'⟩ | ⟨e, hw, hv⟩
  · exact Or.inl ⟨(), (), s', t', returns_execute.mpr hw, returns_execute.mpr hv, hR', trivial⟩
  · exact Or.inr ⟨e, s, t, raises_execute.mpr ⟨hw, rfl⟩, raises_execute.mpr ⟨hv, rfl⟩, hR⟩

theorem Twin.bind {f g : α → Program σ ε β} {Q' : β → β → Prop} (hp : Twin R p q Q)
    (hf : ∀ a b, Q a b → Twin R (f a) (g b) Q') : Twin R (p >>= f) (q >>= g) Q' := by
  intro s t hR
  rcases hp s t hR with ⟨a, b, s', t', hs, ht, hR', hQ⟩ | ⟨e, s', t', hs, ht, hR'⟩
  · rcases hf a b hQ s' t' hR' with ⟨c, d, s'', t'', hs', ht', hlast⟩ | ⟨e, s'', t'', hs', ht', hlast⟩
    · exact Or.inl ⟨c, d, s'', t'', hs.bind_returns.mpr hs', ht.bind_returns.mpr ht', hlast⟩
    · exact Or.inr ⟨e, s'', t'', hs.bind_raises.mpr hs', ht.bind_raises.mpr ht', hlast⟩
  · exact Or.inr ⟨e, s', t', raises_bind.mpr (Or.inl hs), raises_bind.mpr (Or.inl ht), hR'⟩

theorem Twin.bind_same {f g : α → Program σ ε β} {Q' : β → β → Prop} (hp : Twin R p q (Same P))
    (hf : ∀ a, P a → Twin R (f a) (g a) Q') : Twin R (p >>= f) (q >>= g) Q' := by
  apply hp.bind
  rintro a b ⟨rfl, hP⟩
  exact hf a hP

theorem Twin.mono {Q' : α → α → Prop} (h : Twin R p q Q) (hQ : ∀ a b, Q a b → Q' a b) :
    Twin R p q Q' := by
  intro s t hR
  rcases h s t hR with ⟨a, b, s', t', hs, ht, hR', hab⟩ | hraises
  · exact Or.inl ⟨a, b, s', t', hs, ht, hR', hQ a b hab⟩
  · exact Or.inr hraises

theorem Twin.exec {s t : σ} (h : Twin R p p (Same P)) (hR : R s t) :
    (p.exec s).1 = (p.exec t).1 ∧ R (p.exec s).2 (p.exec t).2 := by
  rcases h s t hR with ⟨a, b, s', t', hs, ht, hR', rfl, -⟩ | ⟨e, s', t', hs, ht, hR'⟩
  · have hs : p.exec s = (.ok a, s') := hs
    have ht : p.exec t = (.ok a, t') := ht
    rw [hs, ht]
    exact ⟨rfl, hR'⟩
  · have hs : p.exec s = (.error e, s') := hs
    have ht : p.exec t = (.error e, t') := ht
    rw [hs, ht]
    exact ⟨rfl, hR'⟩

end Rules
end Transaction.Program

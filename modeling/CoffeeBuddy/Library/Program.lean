import Mathlib.Tactic.Common

/-! Programs of database statements. A program is a tree of reads and writes: a
read continues with the store it sees, a write may be refused. Run alone, a program
changes the store as it goes, and an exception leaves the changes made before it. -/

namespace Transaction

inductive Program (σ ε α : Type) where
  | ret (a : α)
  | raise (e : ε)
  | select (k : σ → Program σ ε α)
  | write (w : σ → Except ε σ) (k : Program σ ε α)

namespace Program
variable {σ ε α β : Type}

def bind : Program σ ε α → (α → Program σ ε β) → Program σ ε β
  | .ret a, f => f a
  | .raise e, _ => .raise e
  | .select k, f => .select fun s => (k s).bind f
  | .write w k, f => .write w (k.bind f)

instance : Monad (Program σ ε) where
  pure := .ret
  bind := bind

def query (q : σ → α) : Program σ ε α := .select fun s => .ret (q s)

def execute (w : σ → Except ε σ) : Program σ ε Unit := .write w (.ret ())

/-- The program run alone from `s`: its outcome and the store it leaves. -/
def exec : Program σ ε α → σ → Except ε α × σ
  | .ret a, s => (.ok a, s)
  | .raise e, s => (.error e, s)
  | .select k, s => (k s).exec s
  | .write w k, s =>
    match w s with
    | .ok t => k.exec t
    | .error e => (.error e, s)

def Returns (p : Program σ ε α) (s : σ) (a : α) (t : σ) : Prop := p.exec s = (.ok a, t)

def Raises (p : Program σ ε α) (s : σ) (e : ε) (t : σ) : Prop := p.exec s = (.error e, t)

section Rules
variable {s t : σ} {a : α} {e : ε}

@[simp] theorem returns_ret {b : α} : (ret b : Program σ ε α).Returns s a t ↔ a = b ∧ t = s := by
  simp only [Returns, exec, Prod.mk.injEq, Except.ok.injEq, eq_comm]

@[simp] theorem returns_pure {b : α} :
    (pure b : Program σ ε α).Returns s a t ↔ a = b ∧ t = s := returns_ret

@[simp] theorem returns_raise {d : ε} : ¬(raise d : Program σ ε α).Returns s a t := by
  simp only [Returns, exec, Prod.mk.injEq, reduceCtorEq, false_and, not_false_eq_true]

@[simp] theorem returns_query {q : σ → α} :
    (query q : Program σ ε α).Returns s a t ↔ a = q s ∧ t = s := by
  simp only [query, Returns, exec, Prod.mk.injEq, Except.ok.injEq, eq_comm]

@[simp] theorem returns_execute {w : σ → Except ε σ} {u : Unit} :
    (execute w).Returns s u t ↔ w s = .ok t := by
  simp only [execute, Returns, exec]
  cases w s <;> simp

@[simp] theorem raises_ret {b : α} : ¬(ret b : Program σ ε α).Raises s e t := by
  simp only [Raises, exec, Prod.mk.injEq, reduceCtorEq, false_and, not_false_eq_true]

@[simp] theorem raises_pure {b : α} : ¬(pure b : Program σ ε α).Raises s e t := raises_ret

@[simp] theorem raises_raise {d : ε} :
    (raise d : Program σ ε α).Raises s e t ↔ e = d ∧ t = s := by
  simp only [Raises, exec, Prod.mk.injEq, Except.error.injEq, eq_comm]

@[simp] theorem raises_query {q : σ → α} : ¬(query q : Program σ ε α).Raises s e t := by
  simp only [query, Raises, exec, Prod.mk.injEq, reduceCtorEq, false_and, not_false_eq_true]

@[simp] theorem raises_execute {w : σ → Except ε σ} :
    (execute w).Raises s e t ↔ w s = .error e ∧ t = s := by
  simp only [execute, Raises, exec, eq_comm (a := t)]
  cases w s <;> simp

theorem exec_bind (p : Program σ ε α) (f : α → Program σ ε β) (s : σ) :
    (p >>= f).exec s = match p.exec s with
      | (.ok a, t) => (f a).exec t
      | (.error e, t) => (.error e, t) := by
  change (p.bind f).exec s = _
  induction p generalizing s with
  | ret a => rfl
  | raise e => rfl
  | select k ih => exact ih s s
  | write w k ih =>
    simp only [bind, exec]
    cases w s with
    | ok t => exact ih t
    | error e => rfl

@[simp] theorem returns_bind {p : Program σ ε α} {f : α → Program σ ε β} {b : β} :
    (p >>= f).Returns s b t ↔ ∃ a u, p.Returns s a u ∧ (f a).Returns u b t := by
  simp only [Returns, exec_bind]
  rcases p.exec s with ⟨_ | a, u⟩ <;> simp

@[simp] theorem raises_bind {p : Program σ ε α} {f : α → Program σ ε β} :
    (p >>= f).Raises s e t ↔ p.Raises s e t ∨ ∃ a u, p.Returns s a u ∧ (f a).Raises u e t := by
  simp only [Raises, Returns, exec_bind]
  rcases p.exec s with ⟨_ | a, u⟩ <;> simp

theorem returns_functional {b : α} {u : σ} {p : Program σ ε α} (h : p.Returns s a t)
    (h' : p.Returns s b u) : a = b ∧ t = u := by
  have hab : (Except.ok a, t) = (Except.ok (ε := ε) b, u) := h.symm.trans h'
  simpa only [Prod.mk.injEq, Except.ok.injEq] using hab

theorem returns_or_raises (p : Program σ ε α) (s : σ) :
    (∃ a t, p.Returns s a t) ∨ ∃ e t, p.Raises s e t := by
  simp only [Returns, Raises]
  rcases p.exec s with ⟨_ | a, u⟩
  · exact Or.inr ⟨_, _, rfl⟩
  · exact Or.inl ⟨_, _, rfl⟩

theorem Returns.bind_returns {p : Program σ ε α} {f : α → Program σ ε β} {b : β} {u : σ}
    (h : p.Returns s a u) : (p >>= f).Returns s b t ↔ (f a).Returns u b t := by
  have hexec : p.exec s = (.ok a, u) := h
  unfold Returns
  rw [exec_bind, hexec]

theorem Returns.bind_raises {p : Program σ ε α} {f : α → Program σ ε β} {u : σ}
    (h : p.Returns s a u) : (p >>= f).Raises s e t ↔ (f a).Raises u e t := by
  have hexec : p.exec s = (.ok a, u) := h
  unfold Raises
  rw [exec_bind, hexec]

theorem returns_bind_pure {p : Program σ ε α} {f : α → β} {b : β} :
    (p >>= fun a => pure (f a)).Returns s b t ↔ ∃ a, p.Returns s a t ∧ b = f a := by
  simp only [returns_bind, returns_pure]
  constructor
  · rintro ⟨a, u, hp, rfl, rfl⟩
    exact ⟨a, hp, rfl⟩
  · rintro ⟨a, hp, rfl⟩
    exact ⟨a, t, hp, rfl, rfl⟩

theorem raises_bind_pure {p : Program σ ε α} {f : α → β} :
    (p >>= fun a => pure (f a)).Raises s e t ↔ p.Raises s e t := by
  simp only [raises_bind, raises_pure, and_false, exists_false, or_false]

theorem Returns.not_raises {p : Program σ ε α} {u : σ} (h : p.Returns s a u) :
    ¬p.Raises s e t := by
  intro hr
  have hne : (Except.ok a, u) = (Except.error e, t) := h.symm.trans hr
  simp at hne

end Rules

/-- Every path of the program, whatever the reads return among the stores in `I`:
each write is in `W` and each returned value in `Q`. -/
inductive Along (I : σ → Prop) (W : (σ → Except ε σ) → Prop) (Q : α → Prop) :
    Program σ ε α → Prop
  | ret {a : α} : Q a → Along I W Q (.ret a)
  | raise {e : ε} : Along I W Q (.raise e)
  | select {k : σ → Program σ ε α} : (∀ s, I s → Along I W Q (k s)) → Along I W Q (.select k)
  | write {w : σ → Except ε σ} {k : Program σ ε α} :
    W w → Along I W Q k → Along I W Q (.write w k)

section Along
variable {I : σ → Prop} {W : (σ → Except ε σ) → Prop} {Q : α → Prop}

theorem Along.bind {R : β → Prop} {p : Program σ ε α} {f : α → Program σ ε β}
    (hp : p.Along I W Q) (hf : ∀ a, Q a → (f a).Along I W R) : (p >>= f).Along I W R := by
  change (p.bind f).Along I W R
  induction hp with
  | ret hq => exact hf _ hq
  | raise => exact .raise
  | select _ ih => exact .select ih
  | write hw _ ih => exact .write hw ih

theorem along_query {q : σ → α} (h : ∀ s, I s → Q (q s)) : (query q : Program σ ε α).Along I W Q :=
  .select fun s hs => .ret (h s hs)

/-- A program that only reads. -/
def ReadOnly (p : Program σ ε α) : Prop :=
  p.Along (fun _ => True) (fun _ => False) (fun _ => True)

theorem ReadOnly.bind {p : Program σ ε α} {f : α → Program σ ε β} (hp : p.ReadOnly)
    (hf : ∀ a, (f a).ReadOnly) : (p >>= f).ReadOnly := Along.bind hp fun a _ => hf a

theorem readOnly_query (q : σ → α) : (query q : Program σ ε α).ReadOnly :=
  along_query fun _ _ => trivial

theorem readOnly_pure (a : α) : (pure a : Program σ ε α).ReadOnly := .ret trivial

theorem readOnly_raise (e : ε) : (raise e : Program σ ε α).ReadOnly := .raise

theorem ReadOnly.exec_snd {p : Program σ ε α} (hp : p.ReadOnly) (s : σ) : (p.exec s).2 = s := by
  induction hp with
  | ret _ => rfl
  | raise => rfl
  | select _ ih => exact ih s trivial
  | write hw _ _ => exact hw.elim

theorem ReadOnly.returns {p : Program σ ε α} (hp : p.ReadOnly) {s t : σ} {a : α}
    (h : p.Returns s a t) : t = s := by
  rw [← hp.exec_snd s, h]

theorem ReadOnly.raises {p : Program σ ε α} (hp : p.ReadOnly) {s t : σ} {e : ε}
    (h : p.Raises s e t) : t = s := by
  rw [← hp.exec_snd s, h]

end Along

/-- Run from `s`, every write is taken and leaves a store in `I`. -/
def Accepted (I : σ → Prop) : Program σ ε α → σ → Prop
  | .ret _, _ => True
  | .raise _, _ => True
  | .select k, s => (k s).Accepted I s
  | .write w k, s => ∃ t, w s = .ok t ∧ I t ∧ k.Accepted I t

section Accepted
variable {I : σ → Prop} {s t : σ} {a : α}

theorem accepted_pure : (pure a : Program σ ε α).Accepted I s := trivial

theorem accepted_raise {e : ε} : (raise e : Program σ ε α).Accepted I s := trivial

theorem accepted_execute {w : σ → Except ε σ} :
    (execute w).Accepted I s ↔ ∃ t, w s = .ok t ∧ I t := by
  show (∃ t, w s = .ok t ∧ I t ∧ True) ↔ _
  simp only [and_true]

theorem accepted_bind {p : Program σ ε α} {f : α → Program σ ε β} : (p >>= f).Accepted I s ↔
    p.Accepted I s ∧ ∀ a t, p.Returns s a t → (f a).Accepted I t := by
  change (p.bind f).Accepted I s ↔ _
  induction p generalizing s with
  | ret a =>
    constructor
    · intro h
      refine ⟨trivial, fun b t hret => ?_⟩
      obtain ⟨rfl, rfl⟩ := returns_ret.mp hret
      exact h
    · exact fun h => h.2 a s (returns_ret.mpr ⟨rfl, rfl⟩)
  | raise e => exact iff_of_true trivial ⟨trivial, fun a t h => absurd h returns_raise⟩
  | select k ih => exact ih s
  | write w k ih =>
    constructor
    · rintro ⟨u, hw, hu, h⟩
      obtain ⟨hk, hf⟩ := ih.mp h
      refine ⟨⟨u, hw, hu, hk⟩, fun a t hret => hf a t ?_⟩
      simpa only [Returns, exec, hw] using hret
    · rintro ⟨⟨u, hw, hu, hk⟩, hf⟩
      refine ⟨u, hw, hu, ih.mpr ⟨hk, fun a t hret => hf a t ?_⟩⟩
      simpa only [Returns, exec, hw] using hret

theorem accepted_bind_pure {p : Program σ ε α} {f : α → β} :
    (p >>= fun a => pure (f a)).Accepted I s ↔ p.Accepted I s := by
  rw [accepted_bind]
  exact and_iff_left fun _ _ _ => accepted_pure

theorem ReadOnly.accepted {p : Program σ ε α} (hp : p.ReadOnly) : p.Accepted I s := by
  induction hp with
  | ret _ => trivial
  | raise => trivial
  | select _ ih => exact ih s trivial
  | write hw _ _ => exact hw.elim

theorem ReadOnly.accepted_bind {p : Program σ ε α} {f : α → Program σ ε β} (hp : p.ReadOnly)
    (hf : ∀ a, p.Returns s a s → (f a).Accepted I s) : (p >>= f).Accepted I s := by
  apply Program.accepted_bind.mpr
  refine ⟨hp.accepted, fun a t hret => ?_⟩
  obtain rfl := hp.returns hret
  exact hf a hret

theorem Accepted.exec {p : Program σ ε α} (h : p.Accepted I s) (hs : I s) : I (p.exec s).2 := by
  induction p generalizing s with
  | ret a => exact hs
  | raise e => exact hs
  | select k ih => exact ih s h hs
  | write w k ih =>
    obtain ⟨u, hw, hu, hk⟩ := h
    have hrest := ih hk hu
    simpa only [Program.exec, hw] using hrest

theorem Accepted.returns {p : Program σ ε α} (h : p.Accepted I s) (hs : I s)
    (hret : p.Returns s a t) : I t := by
  have hstore : (p.exec s).2 = t := congrArg Prod.snd hret
  exact hstore ▸ h.exec hs

/-- The exceptions the program raises of its own are in `E`. -/
def RaisesOnly (E : ε → Prop) : Program σ ε α → Prop
  | .ret _ => True
  | .raise e => E e
  | .select k => ∀ s, (k s).RaisesOnly E
  | .write _ k => k.RaisesOnly E

theorem RaisesOnly.bind {E : ε → Prop} {p : Program σ ε α} {f : α → Program σ ε β}
    (hp : p.RaisesOnly E) (hf : ∀ a, (f a).RaisesOnly E) : (p >>= f).RaisesOnly E := by
  change (p.bind f).RaisesOnly E
  induction p with
  | ret a => exact hf a
  | raise e => exact hp
  | select k ih => exact fun s => ih s (hp s)
  | write w k ih => exact ih hp

theorem raisesOnly_pure {E : ε → Prop} {b : α} : (pure b : Program σ ε α).RaisesOnly E := trivial

theorem raisesOnly_raise {E : ε → Prop} {e : ε} (h : E e) :
    (raise e : Program σ ε α).RaisesOnly E := h

theorem raisesOnly_query {E : ε → Prop} {q : σ → α} :
    (query q : Program σ ε α).RaisesOnly E := fun _ => trivial

theorem raisesOnly_execute {E : ε → Prop} {w : σ → Except ε σ} : (execute w).RaisesOnly E :=
  trivial

theorem Accepted.raises {E : ε → Prop} {e : ε} {p : Program σ ε α} (h : p.Accepted I s)
    (hE : p.RaisesOnly E) (hr : p.Raises s e t) : E e := by
  induction p generalizing s with
  | ret a => exact absurd hr raises_ret
  | raise d =>
    obtain ⟨rfl, -⟩ := raises_raise.mp hr
    exact hE
  | select k ih => exact ih s h (hE s) hr
  | write w k ih =>
    obtain ⟨u, hw, -, hk⟩ := h
    apply ih hk hE
    simpa only [Raises, Program.exec, hw] using hr

end Accepted

-- Their rules say what they are; unfolding them would run the program.
attribute [irreducible] Accepted RaisesOnly

/-- Run from `s`, the program raises the exceptions in `E` only before it has written. -/
def FailsClean (E : ε → Prop) (p : Program σ ε α) (s : σ) : Prop :=
  ∀ e t, p.Raises s e t → E e → t = s

theorem FailsClean.after_reads {E : ε → Prop} {p : Program σ ε α} {f : α → Program σ ε β} {s : σ}
    (hp : p.ReadOnly) (hf : ∀ a, p.Returns s a s → (f a).FailsClean E s) :
    (p >>= f).FailsClean E s := by
  intro e t h he
  rcases raises_bind.mp h with hr | ⟨a, u, ha, hr⟩
  · exact hp.raises hr
  · obtain rfl := hp.returns ha
    exact hf a ha e t hr he

end Program
end Transaction

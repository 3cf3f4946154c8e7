import CoffeeBuddy.Library.ReadCommitted
import Mathlib.Data.List.Forall2

/-! Sessions whose course the commits of the others leave alone. When such a session ends, it
has done what its program, run alone on the store there, does; an interleaving of them is
their programs run one after the other, each where its session ends. -/

namespace Transaction
variable {ι σ ε α β : Type}

/-- Related stores take the write to related stores, or refuse it with the same error. -/
def Respects (R : σ → σ → Prop) (w : σ → Except ε σ) : Prop :=
  ∀ s t, R s t →
    (∃ s' t', w s = .ok s' ∧ w t = .ok t' ∧ R s' t') ∨ ∃ e, w s = .error e ∧ w t = .error e

theorem Respects.ok {R : σ → σ → Prop} {w : σ → Except ε σ} (h : Respects R w) {s t s' : σ}
    (hR : R s t) (hs : w s = .ok s') : ∃ t', w t = .ok t' ∧ R s' t' := by
  rcases h s t hR with ⟨s₁, t', hs₁, ht, hR'⟩ | ⟨e, he, -⟩
  · obtain rfl := Except.ok.inj (hs.symm.trans hs₁)
    exact ⟨t', ht, hR'⟩
  · cases hs.symm.trans he

theorem applied_respects {R : σ → σ → Prop} {ws : List (σ → Except ε σ)}
    (h : ∀ w ∈ ws, Respects R w) {s t s' : σ} (hR : R s t) (hs : applied ws s = .ok s') :
    ∃ t', applied ws t = .ok t' ∧ R s' t' := by
  induction ws generalizing s t with
  | nil =>
    obtain rfl := Except.ok.inj hs
    exact ⟨t, rfl, hR⟩
  | cons w ws ih =>
    obtain ⟨s₁, hw, hrest⟩ := applied_cons.mp hs
    obtain ⟨t₁, ht₁, hR₁⟩ := (h w List.mem_cons_self).ok hR hw
    obtain ⟨t', ht', hR'⟩ := ih (fun w hw => h w (List.mem_cons_of_mem _ hw)) hR₁ hrest
    exact ⟨t', applied_cons.mpr ⟨t₁, ht₁, ht'⟩, hR'⟩

namespace Program

/-- Two programs that make the same writes and go on alike from related stores, whichever they
read at each point; `Q` relates what they return. -/
inductive Coupled (R : σ → σ → Prop) (Q : α → α → Prop) :
    Program σ ε α → Program σ ε α → Prop
  | ret {a b : α} : Q a b → Coupled R Q (.ret a) (.ret b)
  | raise {e : ε} : Coupled R Q (.raise e) (.raise e)
  | select {k l : σ → Program σ ε α} : (∀ s t, R s t → Coupled R Q (k s) (l t)) →
      Coupled R Q (.select k) (.select l)
  | write {w : σ → Except ε σ} {p q : Program σ ε α} : Respects R w → Coupled R Q p q →
      Coupled R Q (.write w p) (.write w q)

section Rules
variable {R : σ → σ → Prop} {p q : Program σ ε α} {Q : α → α → Prop}

theorem coupled_pure {a b : α} (h : Q a b) : Coupled R Q (pure a : Program σ ε α) (pure b) := .ret h

theorem coupled_query {f g : σ → α} (h : ∀ s t, R s t → Q (f s) (g t)) :
    Coupled R Q (query f : Program σ ε α) (query g) := .select fun s t hR => .ret (h s t hR)

theorem coupled_execute {w : σ → Except ε σ} {Q : Unit → Unit → Prop} (h : Respects R w)
    (hQ : Q () ()) : Coupled R Q (execute w) (execute w) := .write h (.ret hQ)

theorem Coupled.bind {f g : α → Program σ ε β} {Q' : β → β → Prop} (hp : Coupled R Q p q)
    (hf : ∀ a b, Q a b → Coupled R Q' (f a) (g b)) : Coupled R Q' (p >>= f) (q >>= g) := by
  change Coupled R Q' (p.bind f) (q.bind g)
  induction hp with
  | ret h => exact hf _ _ h
  | raise => exact .raise
  | select _ ih => exact .select ih
  | write hw _ ih => exact .write hw ih

end Rules
end Program

/-! ### A session in step with its program -/

/-- On every store in `J` the writes `own` are taken, and the program `p` gets with them to a
program coupled with `rest`. -/
structure InStep (J : σ → Prop) (R : σ → σ → Prop) (Q : α → α → Prop) (p : Program σ ε α)
    (own : List (σ → Except ε σ)) (rest : Program σ ε α) : Prop where
  respects : ∀ w ∈ own, Respects R w
  resumes : ∀ s, J s → ∃ s' q, applied own s = .ok s' ∧ p.exec s = q.exec s' ∧
    Program.Coupled R Q rest q

section InStep
variable {J : σ → Prop} {R : σ → σ → Prop} {Q : α → α → Prop} {p : Program σ ε α}
  {own : List (σ → Except ε σ)} {store : σ}

theorem InStep.start (h : Program.Coupled R Q p p) : InStep J R Q p [] p where
  respects := List.forall_mem_nil _
  resumes s _ := ⟨s, p, rfl, rfl, h⟩

theorem InStep.read {k : σ → Program σ ε α} {v : σ} (h : InStep J R Q p own (.select k))
    (hJ : ∀ s, J s → R store s) (hv : applied own store = .ok v) : InStep J R Q p own (k v) where
  respects := h.respects
  resumes s hs := by
    obtain ⟨s', q, hown, hexec, hq⟩ := h.resumes s hs
    obtain ⟨s₁, hs₁, hvs⟩ := applied_respects h.respects (hJ s hs) hv
    obtain rfl := Except.ok.inj (hown.symm.trans hs₁)
    cases hq with
    | @select _ l hl => exact ⟨s', l s', hown, hexec, hl v s' hvs⟩

/-- What a related store has taken, every store in `J` takes. -/
theorem InStep.wrote {w : σ → Except ε σ} {rest : Program σ ε α} {v : σ}
    (h : InStep J R Q p own (.write w rest)) (hstore : J store) (hJ : ∀ s, J s → R store s)
    (hv : applied (own ++ [w]) store = .ok v) : InStep J R Q p (own ++ [w]) rest := by
  have hw : Respects R w := by
    obtain ⟨_, _, -, -, hq⟩ := h.resumes store hstore
    cases hq with
    | write hw _ => exact hw
  have hall : ∀ u ∈ own ++ [w], Respects R u :=
    List.forall_mem_append.mpr ⟨h.respects, List.forall_mem_singleton.mpr hw⟩
  refine ⟨hall, fun s hs => ?_⟩
  obtain ⟨s', q, hown, hexec, hq⟩ := h.resumes s hs
  obtain ⟨s'', hs'', -⟩ := applied_respects hall (hJ s hs) hv
  obtain ⟨s₁, hs₁, hlast⟩ := applied_append.mp hs''
  obtain rfl := Except.ok.inj (hown.symm.trans hs₁)
  obtain ⟨_, hwrite, hnil⟩ := applied_cons.mp hlast
  obtain rfl := Except.ok.inj hnil
  cases hq with
  | @write _ _ l _ hrest =>
    refine ⟨_, l, hs'', ?_, hrest⟩
    rw [hexec, Program.exec, hwrite]

theorem InStep.taken {rest : Program σ ε α} (h : InStep J R Q p own rest) (hstore : J store)
    {e : ε} : applied own store ≠ .error e := by
  obtain ⟨s', _, hown, -⟩ := h.resumes store hstore
  intro he
  cases hown.symm.trans he

theorem InStep.returns {a : α} {v : σ} (h : InStep J R Q p own (.ret a)) (hstore : J store)
    (hv : applied own store = .ok v) : ∃ b, p.Returns store b v ∧ Q a b := by
  obtain ⟨s', q, hown, hexec, hq⟩ := h.resumes store hstore
  obtain rfl := Except.ok.inj (hv.symm.trans hown)
  cases hq with
  | @ret _ b hab => exact ⟨b, hexec, hab⟩

theorem InStep.raises {e : ε} (h : InStep J R Q p own (.raise e)) (hstore : J store) :
    ∃ t, p.Raises store e t := by
  obtain ⟨s', q, -, hexec, hq⟩ := h.resumes store hstore
  cases hq with
  | raise => exact ⟨s', hexec⟩

theorem InStep.refused {w : σ → Except ε σ} {rest : Program σ ε α} {e : ε}
    (h : InStep J R Q p own (.write w rest)) (hstore : J store)
    (he : applied (own ++ [w]) store = .error e) : ∃ t, p.Raises store e t := by
  obtain ⟨s', q, hown, hexec, hq⟩ := h.resumes store hstore
  cases hq with
  | @write _ _ l _ _ =>
    refine ⟨s', ?_⟩
    cases hw : w s' with
    | error d =>
      have happlied : applied (own ++ [w]) store = .error d := by
        rw [applied, List.foldlM_append]
        change (applied own store).bind (applied [w]) = _
        rw [hown]
        change (w s').bind (applied []) = _
        rw [hw]
        rfl
      obtain rfl := Except.error.inj (he.symm.trans happlied)
      rw [Program.Raises, hexec, Program.exec, hw]
    | ok v =>
      have happlied : applied (own ++ [w]) store = .ok v :=
        applied_append.mpr ⟨s', hown, applied_cons.mpr ⟨v, hw, rfl⟩⟩
      cases he.symm.trans happlied

end InStep

/-! ### Interleavings -/

namespace World

/-- How a session ends in this move, unless the rows of its commit are refused. -/
def ending [DecidableEq ε] (violation : ε) (e : Move ι σ ε α) : Option (Except ε α) :=
  match e.after.sessions e.label with
  | .active _ _ => none
  | .committed a => some (.ok a)
  | .rolledBack d => if d = violation then none else some (.error d)

/-- The sessions that end, in the order in which they do, with what they return or raise. -/
def endings [DecidableEq ε] (violation : ε) (es : List (Move ι σ ε α)) : List (ι × Except ε α) :=
  es.filterMap fun e => (ending violation e).map fun r => (e.label, r)

theorem endings_snoc [DecidableEq ε] (violation : ε) (es : List (Move ι σ ε α))
    (e : Move ι σ ε α) : endings violation (es ++ [e]) =
      endings violation es ++ ((ending violation e).map fun r => (e.label, r)).toList := by
  cases h : ending violation e <;> simp [endings, h]

/-- One program after the other, each run alone; one that raises leaves the store. -/
def serialStep (programs : ι → Program σ ε α) (s : σ) (l : ι × Except ε α) (t : σ) : Prop :=
  match l.2 with
  | .ok a => (programs l.1).Returns s a t
  | .error e => t = s ∧ ∃ u, (programs l.1).Raises s e u

/-- The same exception, or values related by `Q`. -/
def Agrees (Q : α → α → Prop) : Except ε α → Except ε α → Prop
  | .ok a, .ok b => Q a b
  | .error e, .error d => e = d
  | _, _ => False

variable {programs : ι → Program σ ε α} {s₀ : σ} {w : World ι σ ε α} {es : List (Move ι σ ε α)}
  {J : ι → σ → Prop} {R : ι → σ → σ → Prop} {Q : α → α → Prop}

/-- Session `i` may run on the stores in `J i`, which look the same to it by `R i` and which the
commits of the others keep. -/
structure Undisturbed (J : ι → σ → Prop) (R : ι → σ → σ → Prop) (Q : α → α → Prop)
    (programs : ι → Program σ ε α) : Prop where
  related : ∀ i s t, J i s → J i t → R i s t
  coupled : ∀ i, Program.Coupled (R i) Q (programs i) (programs i)
  frame : ∀ i j s a t, i ≠ j → J i s → J j s → (programs j).Returns s a t → J i t

variable [DecidableEq ι] {valid : σ → Prop} [DecidablePred valid] {violation : ε}

theorem Undisturbed.inStep (hR : Undisturbed J R Q programs)
    (h : Run valid violation (start s₀ programs) es w) (h₀ : ∀ i, J i s₀) {i : ι}
    {own : List (σ → Except ε σ)} {rest : Program σ ε α} (hi : w.sessions i = .active own rest) :
    J i w.store ∧ InStep (J i) (R i) Q (programs i) own rest := by
  induction h generalizing i own rest with
  | nil =>
    obtain ⟨rfl, rfl⟩ := Session.active.inj hi
    exact ⟨h₀ i, .start (hR.coupled i)⟩
  | @snoc es t u j path last ih =>
    by_cases hij : i = j
    · subst hij
      cases moved_of_step last with
      | read own' k v hactive hv =>
        obtain ⟨rfl, rfl⟩ := Session.active.inj ((put_self t i _).symm.trans hi)
        obtain ⟨hstore, hstep⟩ := ih hactive
        exact ⟨hstore, hstep.read (hR.related i t.store · hstore) hv⟩
      | wrote own' v k s hactive hs =>
        obtain ⟨rfl, rfl⟩ := Session.active.inj ((put_self t i _).symm.trans hi)
        obtain ⟨hstore, hstep⟩ := ih hactive
        exact ⟨hstore, hstep.wrote hstore (hR.related i t.store · hstore) hs⟩
      | committed => cases (put_self t i _).symm.trans hi
      | lost | refused | raised | violates | outdated => cases (put_self t i _).symm.trans hi
    · -- another session moves; if it commits, it has done what its program does alone
      obtain ⟨hstore, hstep⟩ := ih ((sessions_other last hij).symm.trans hi)
      cases moved_of_step last with
      | committed own' a v hj hv =>
        obtain ⟨hother, hdone⟩ := ih hj
        obtain ⟨b, hreturns, -⟩ := hdone.returns hother hv
        exact ⟨hR.frame i j _ _ _ hij hstore hother hreturns, hstep⟩
      | read | lost | wrote | refused | raised | violates | outdated => exact ⟨hstore, hstep⟩

theorem ending_rolledBack [DecidableEq ε] {t : World ι σ ε α} {i : ι} {d : ε} {r : Except ε α}
    (h : ending violation ⟨t, i, t.put i (.rolledBack d)⟩ = some r) :
    d ≠ violation ∧ r = .error d := by
  unfold ending at h
  simp only [put_self] at h
  split_ifs at h with hd
  exact ⟨hd, (Option.some.inj h).symm⟩

theorem ending_active [DecidableEq ε] {t : World ι σ ε α} {i : ι} {own : List (σ → Except ε σ)}
    {rest : Program σ ε α} : ending violation ⟨t, i, t.put i (.active own rest)⟩ = none := by
  unfold ending
  simp only [put_self]

/-- A session that ends has come to the end its program comes to alone, on the store there. -/
theorem Undisturbed.ending [DecidableEq ε] (hR : Undisturbed J R Q programs) {t u : World ι σ ε α}
    {i : ι} (h : Run valid violation (start s₀ programs) es t) (h₀ : ∀ i, J i s₀)
    (hstep : step valid violation t i u) {r : Except ε α}
    (hr : ending violation ⟨t, i, u⟩ = some r) :
    ∃ r', serialStep programs t.store (i, r') u.store ∧ Agrees Q r r' := by
  cases moved_of_step hstep with
  | read own k v hi hv => cases ending_active.symm.trans hr
  | wrote own v k s hi hs => cases ending_active.symm.trans hr
  | lost own k d hi hd =>
    obtain ⟨hstore, hin⟩ := hR.inStep h h₀ hi
    exact absurd hd (hin.taken hstore)
  | outdated own a d hi hd =>
    obtain ⟨hstore, hin⟩ := hR.inStep h h₀ hi
    exact absurd hd (hin.taken hstore)
  | refused own v k d hi hd =>
    obtain ⟨hstore, hin⟩ := hR.inStep h h₀ hi
    obtain ⟨-, rfl⟩ := ending_rolledBack hr
    exact ⟨.error d, ⟨rfl, hin.refused hstore hd⟩, rfl⟩
  | raised own d hi =>
    obtain ⟨hstore, hin⟩ := hR.inStep h h₀ hi
    obtain ⟨-, rfl⟩ := ending_rolledBack hr
    exact ⟨.error d, ⟨rfl, hin.raises hstore⟩, rfl⟩
  | violates own a s hi hs hnot => exact absurd rfl (ending_rolledBack hr).1
  | committed own a s hi hs hvalid =>
    obtain ⟨hstore, hin⟩ := hR.inStep h h₀ hi
    obtain ⟨b, hreturns, hab⟩ := hin.returns hstore hs
    have hself : (t.commit i a s).sessions i = .committed a := put_self t i _
    unfold World.ending at hr
    simp only [hself] at hr
    obtain rfl := Option.some.inj hr
    exact ⟨.ok b, hreturns, hab⟩

theorem store_of_ending_none [DecidableEq ε] {e : Move ι σ ε α}
    (h : step valid violation e.before e.label e.after) (he : World.ending violation e = none) :
    e.after.store = e.before.store := by
  apply store_of_answer_none h
  unfold World.ending at he
  unfold answer
  split at he
  · rename_i hactive
    rw [hactive]
  · cases he
  · rename_i hback
    rw [hback]

/-- The programs of the sessions that end, run one after the other in the order in which they
do, lead to the same store, return values related by `Q` and raise the same exceptions. -/
theorem Undisturbed.serial [DecidableEq ε] (hR : Undisturbed J R Q programs)
    (h : Run valid violation (start s₀ programs) es w) (h₀ : ∀ i, J i s₀) :
    ∃ fs, Transition.Path (serialStep programs) s₀ fs w.store ∧
      List.Forall₂ (fun c (f : Transition.Event σ (ι × Except ε α)) =>
        c.1 = f.label.1 ∧ Agrees Q c.2 f.label.2) (endings violation es) fs := by
  induction h with
  | nil => exact ⟨[], .nil, .nil⟩
  | @snoc es t u j path last ih =>
    obtain ⟨fs, hserial, hanswers⟩ := ih
    rw [endings_snoc]
    cases hr : World.ending violation ⟨t, j, u⟩ with
    | none =>
      have hstore : u.store = t.store := store_of_ending_none (e := ⟨t, j, u⟩) last hr
      rw [hstore, Option.map_none, Option.toList_none, List.append_nil]
      exact ⟨fs, hserial, hanswers⟩
    | some r =>
      obtain ⟨r', hend, hagree⟩ := hR.ending path h₀ last hr
      exact ⟨fs ++ [⟨t.store, (j, r'), u.store⟩], .snoc hserial hend,
        List.rel_append hanswers (.cons ⟨rfl, hagree⟩ .nil)⟩

end World
end Transaction

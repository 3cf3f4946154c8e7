import CoffeeBuddy.Library.ReadCommitted

/-! Sessions that rely on the store to move one way only. Each guarantees a later store at its
commit if what it read, before it wrote, is no later than the store it commits to; together
they make every store later than the stores before it. -/

namespace Transaction
variable {ι σ ε α : Type}

namespace Program

/-- `v` was read by the statements `ds` before their first write. -/
def ReadFirst (ds : List (Did σ ε)) (v : σ) : Prop :=
  ∃ ds₁ ds₂, ds = ds₁ ++ .read v :: ds₂ ∧ writes ds₁ = []

theorem readFirst_head (v : σ) (ds : List (Did σ ε)) : ReadFirst (.read v :: ds) v :=
  ⟨[], ds, rfl, rfl⟩

/-- The program commits a store later than `s`, if `s` is later than all it read first. -/
def Guarantees (R : σ → σ → Prop) (valid : σ → Prop) (p : Program σ ε α) : Prop :=
  ∀ ds a s t, p.Does ds a → (∀ v, ReadFirst ds v → R v s) → applied (writes ds) s = .ok t →
    valid t → R s t

section Along
variable {I : σ → Prop} {W : (σ → Except ε σ) → Prop} {Q : α → Prop} {p : Program σ ε α}

theorem ReadOnly.along (h : p.ReadOnly) : p.Along I W fun _ => True := by
  induction h with
  | ret _ => exact .ret trivial
  | raise => exact .raise
  | select _ ih => exact .select fun s _ => ih s trivial
  | write hw _ _ => exact hw.elim

theorem Along.forall_writes {ds : List (Did σ ε)} {a : α} (h : p.Along (fun _ => True) W Q)
    (hdoes : p.Does ds a) : ∀ w ∈ writes ds, W w := by
  induction h generalizing ds with
  | ret _ =>
    obtain ⟨-, rfl⟩ := does_ret.mp hdoes
    exact List.forall_mem_nil _
  | raise => exact absurd hdoes does_raise
  | select _ ih =>
    obtain ⟨v, ds', rfl, hrest⟩ := does_select.mp hdoes
    rw [writes_read]
    exact ih v trivial hrest
  | write hw _ ih =>
    obtain ⟨ds', rfl, hrest⟩ := does_write.mp hdoes
    exact List.forall_mem_cons.mpr ⟨hw, ih hrest⟩

end Along
end Program

/-- What every write keeps is kept by all of them. -/
theorem applied_rel {R : σ → σ → Prop} (hrefl : ∀ s, R s s) (htrans : ∀ s t u, R s t → R t u → R s u)
    {ws : List (σ → Except ε σ)} (h : ∀ w ∈ ws, ∀ s t, w s = .ok t → R s t) {s t : σ}
    (hs : applied ws s = .ok t) : R s t := by
  induction ws generalizing s with
  | nil =>
    obtain rfl := Except.ok.inj hs
    exact hrefl s
  | cons w ws ih =>
    obtain ⟨u, hw, hrest⟩ := applied_cons.mp hs
    have hfirst := h w List.mem_cons_self s u hw
    exact htrans s u t hfirst (ih (fun w hw => h w (List.mem_cons_of_mem _ hw)) hrest)

namespace World
variable {programs : ι → Program σ ε α} {valid : σ → Prop} {s₀ : σ} {w : World ι σ ε α}
  {es : List (Move ι σ ε α)} {R : σ → σ → Prop}

/-- The store moves one way, if every session can rely on it. -/
structure Relies (R : σ → σ → Prop) (valid : σ → Prop) (programs : ι → Program σ ε α) : Prop where
  refl : ∀ s, R s s
  trans : ∀ s t u, R s t → R t u → R s u
  guarantees : ∀ i, (programs i).Guarantees R valid

/-- What a session has done by its commit, with the store no earlier than what it read first. -/
structure Commits (R : σ → σ → Prop) (valid : σ → Prop) (p : Program σ ε α) (ds : List (Did σ ε))
    (a : α) (s t : σ) : Prop where
  does : p.Does ds a
  read : ∀ v, Program.ReadFirst ds v → R v s
  written : applied (writes ds) s = .ok t
  valid : valid t

variable [DecidableEq ι] [DecidablePred valid] {violation : ε}

theorem commits_of_seen {e : Move ι σ ε α}
    (h : Run valid violation (start s₀ programs) es e.before)
    (hstep : step valid violation e.before e.label e.after) {a : α} (ha : answer e = some a)
    (hseen : ∀ f ∈ es, R f.before.store e.before.store) :
    Commits R valid (programs e.label) (trail e.label es) a e.before.store e.after.store := by
  obtain ⟨hdoes, hwritten, hvalid⟩ := committed_of_answer h hstep ha
  refine ⟨hdoes, ?_, hwritten, hvalid⟩
  rintro v ⟨ds₁, ds₂, htrail, hds⟩
  obtain ⟨es₁, f, es₂, rfl, -, -, rfl⟩ := read_of_trail h htrail hds
  exact hseen f (List.mem_append_right _ List.mem_cons_self)

/-- Every store is later than the stores before it. -/
theorem Relies.later (hR : Relies R valid programs)
    (h : Run valid violation (start s₀ programs) es w) :
    R s₀ w.store ∧ ∀ f ∈ es, R f.before.store w.store := by
  induction h with
  | nil => exact ⟨hR.refl s₀, List.forall_mem_nil _⟩
  | @snoc es t u i path last ih =>
    obtain ⟨hstart, hseen⟩ := ih
    have hmove : R t.store u.store := by
      cases ha : answer ⟨t, i, u⟩ with
      | none =>
        rw [store_of_answer_none (e := ⟨t, i, u⟩) last ha]
        exact hR.refl t.store
      | some a =>
        have hcommits := commits_of_seen (e := ⟨t, i, u⟩) path last ha hseen
        exact hR.guarantees i _ a _ _ hcommits.does hcommits.read hcommits.written hcommits.valid
    refine ⟨hR.trans _ _ _ hstart hmove, fun f hf => ?_⟩
    rcases List.mem_append.mp hf with hf | hf
    · exact hR.trans _ _ _ (hseen f hf) hmove
    · obtain rfl := List.mem_singleton.mp hf
      exact hmove

theorem Relies.commits (hR : Relies R valid programs) {e : Move ι σ ε α}
    (h : Run valid violation (start s₀ programs) es e.before)
    (hstep : step valid violation e.before e.label e.after) {a : α} (ha : answer e = some a) :
    Commits R valid (programs e.label) (trail e.label es) a e.before.store e.after.store :=
  commits_of_seen h hstep ha (hR.later h).2

theorem Relies.between (hR : Relies R valid programs) {fs : List (Move ι σ ε α)}
    {w' : World ι σ ε α} (h : Run valid violation (start s₀ programs) es w)
    (h' : Run valid violation w fs w') : R w.store w'.store := by
  induction h' with
  | nil => exact hR.refl w.store
  | @snoc fs t u i path last ih =>
    have hpath := h.append (path.snoc last)
    have hmove := (hR.later hpath).2 ⟨t, i, u⟩ (by simp)
    exact hR.trans _ _ _ ih hmove

/-- From the commit of a session on, the store is later than the one it committed. -/
theorem Relies.since (hR : Relies R valid programs)
    (h : Run valid violation (start s₀ programs) es w) {i : ι} {a : α}
    (hi : w.sessions i = .committed a) :
    ∃ ds s t, Commits R valid (programs i) ds a s t ∧ R t w.store := by
  obtain ⟨es₁, e, es₂, rfl, rfl, ha⟩ := answer_of_committed h hi
  obtain ⟨hpre, hstep, hpost⟩ := Transition.Path.split_iff.mp h
  have hprefix := hpre.snoc hstep
  exact ⟨_, _, _, hR.commits hpre hstep ha, hR.between hprefix hpost⟩

end World
end Transaction

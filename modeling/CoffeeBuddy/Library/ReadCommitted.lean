import CoffeeBuddy.Library.Path
import CoffeeBuddy.Library.Program
import Mathlib.Logic.Function.Basic

/-! Transactions under READ COMMITTED. Every session runs its program statement by
statement, in any interleaving with the others: a read sees what is committed with the
session's own writes on top, and a commit puts these writes into the store unless the
constraints refuse the result. -/

namespace Transaction
variable {ι σ ε α β : Type}

/-! ### Statements -/

/-- A statement a program has executed. -/
inductive Did (σ ε : Type) where
  | read (seen : σ)
  | wrote (w : σ → Except ε σ)

/-- The writes among the statements, oldest first. -/
def writes (ds : List (Did σ ε)) : List (σ → Except ε σ) :=
  ds.filterMap fun
    | .read _ => none
    | .wrote w => some w

@[simp] theorem writes_nil : writes ([] : List (Did σ ε)) = [] := rfl

@[simp] theorem writes_read (v : σ) (ds : List (Did σ ε)) : writes (.read v :: ds) = writes ds := rfl

@[simp] theorem writes_wrote (w : σ → Except ε σ) (ds : List (Did σ ε)) :
    writes (.wrote w :: ds) = w :: writes ds := rfl

@[simp] theorem writes_append (ds ds' : List (Did σ ε)) :
    writes (ds ++ ds') = writes ds ++ writes ds' := List.filterMap_append

@[simp] theorem writes_map {γ : Type} (f : γ → σ → Except ε σ) (cs : List γ) :
    writes (cs.map fun c => .wrote (f c)) = cs.map f := by
  rw [writes, List.filterMap_map]
  exact congrFun List.filterMap_eq_map' cs

/-- The store with the writes on top. -/
def applied (ws : List (σ → Except ε σ)) (s : σ) : Except ε σ := ws.foldlM (fun s w => w s) s

@[simp] theorem applied_nil (s : σ) : applied ([] : List (σ → Except ε σ)) s = .ok s := rfl

theorem applied_append {ws ws' : List (σ → Except ε σ)} {s t : σ} :
    applied (ws ++ ws') s = .ok t ↔ ∃ u, applied ws s = .ok u ∧ applied ws' u = .ok t := by
  rw [applied, List.foldlM_append]
  change (applied ws s).bind (applied ws') = _ ↔ _
  cases applied ws s <;> simp [Except.bind]

theorem applied_cons {w : σ → Except ε σ} {ws : List (σ → Except ε σ)} {s t : σ} :
    applied (w :: ws) s = .ok t ↔ ∃ u, w s = .ok u ∧ applied ws u = .ok t := by
  rw [applied, List.foldlM_cons]
  change (w s).bind (applied ws) = _ ↔ _
  cases w s <;> simp [Except.bind]

namespace Program

/-- Executing the statements `ds`, `p` gets to `q`, whatever it saw. -/
inductive Reaches : Program σ ε α → List (Did σ ε) → Program σ ε α → Prop
  | refl {p : Program σ ε α} : Reaches p [] p
  | read {k : σ → Program σ ε α} {v : σ} {ds : List (Did σ ε)} {q : Program σ ε α} :
      Reaches (k v) ds q → Reaches (.select k) (.read v :: ds) q
  | wrote {w : σ → Except ε σ} {k : Program σ ε α} {ds : List (Did σ ε)} {q : Program σ ε α} :
      Reaches k ds q → Reaches (.write w k) (.wrote w :: ds) q

def Does (p : Program σ ε α) (ds : List (Did σ ε)) (a : α) : Prop := p.Reaches ds (.ret a)

section Reaches
variable {p q : Program σ ε α} {ds : List (Did σ ε)}

theorem Reaches.snoc_read {k : σ → Program σ ε α} (h : p.Reaches ds (.select k)) (v : σ) :
    p.Reaches (ds ++ [.read v]) (k v) := by
  generalize hq : Program.select k = q at h
  induction h with
  | refl => exact hq ▸ .read .refl
  | read _ ih => exact .read (ih hq)
  | wrote _ ih => exact .wrote (ih hq)

theorem Reaches.snoc_wrote {w : σ → Except ε σ} {k : Program σ ε α}
    (h : p.Reaches ds (.write w k)) : p.Reaches (ds ++ [.wrote w]) k := by
  generalize hq : Program.write w k = q at h
  induction h with
  | refl => exact hq ▸ .wrote .refl
  | read _ ih => exact .read (ih hq)
  | wrote _ ih => exact .wrote (ih hq)

end Reaches

section Does
variable {ds : List (Did σ ε)} {a b : α}

@[simp] theorem does_ret : (ret b : Program σ ε α).Does ds a ↔ a = b ∧ ds = [] := by
  constructor
  · intro h
    cases h
    exact ⟨rfl, rfl⟩
  · rintro ⟨rfl, rfl⟩
    exact .refl

@[simp] theorem does_pure : (pure b : Program σ ε α).Does ds a ↔ a = b ∧ ds = [] := does_ret

@[simp] theorem does_raise {e : ε} : ¬(raise e : Program σ ε α).Does ds a := by
  intro h
  cases h

theorem does_select {k : σ → Program σ ε α} :
    (select k).Does ds a ↔ ∃ v ds', ds = .read v :: ds' ∧ (k v).Does ds' a := by
  constructor
  · rintro (_ | h)
    exact ⟨_, _, rfl, h⟩
  · rintro ⟨v, ds', rfl, h⟩
    exact .read h

theorem does_write {w : σ → Except ε σ} {k : Program σ ε α} :
    (write w k).Does ds a ↔ ∃ ds', ds = .wrote w :: ds' ∧ k.Does ds' a := by
  constructor
  · rintro (_ | _ | h)
    exact ⟨_, rfl, h⟩
  · rintro ⟨ds', rfl, h⟩
    exact .wrote h

@[simp] theorem does_query {q : σ → α} :
    (query q : Program σ ε α).Does ds a ↔ ∃ v, ds = [.read v] ∧ a = q v := by
  simp only [query, does_select, does_ret]
  constructor
  · rintro ⟨v, _, rfl, rfl, rfl⟩
    exact ⟨v, rfl, rfl⟩
  · rintro ⟨v, rfl, rfl⟩
    exact ⟨v, [], rfl, rfl, rfl⟩

@[simp] theorem does_execute {w : σ → Except ε σ} {u : Unit} :
    (execute w).Does ds u ↔ ds = [.wrote w] := by
  simp only [execute, does_write, does_ret, true_and, exists_eq_right]

@[simp] theorem does_bind {p : Program σ ε α} {f : α → Program σ ε β} {b : β} :
    (p >>= f).Does ds b ↔ ∃ ds₁ a ds₂, p.Does ds₁ a ∧ (f a).Does ds₂ b ∧ ds = ds₁ ++ ds₂ := by
  change (p.bind f).Does ds b ↔ _
  induction p generalizing ds with
  | ret a => simp [bind, and_comm, and_assoc]
  | raise e => simp [bind]
  | select k ih =>
    simp only [bind, does_select, ih]
    constructor
    · rintro ⟨v, _, rfl, ds₁, a, ds₂, ha, hb, rfl⟩
      exact ⟨_, a, ds₂, ⟨v, ds₁, rfl, ha⟩, hb, rfl⟩
    · rintro ⟨_, a, ds₂, ⟨v, ds₁, rfl, ha⟩, hb, rfl⟩
      exact ⟨v, _, rfl, ds₁, a, ds₂, ha, hb, rfl⟩
  | write w k ih =>
    simp only [bind, does_write, ih]
    constructor
    · rintro ⟨_, rfl, ds₁, a, ds₂, ha, hb, rfl⟩
      exact ⟨_, a, ds₂, ⟨ds₁, rfl, ha⟩, hb, rfl⟩
    · rintro ⟨_, a, ds₂, ⟨ds₁, rfl, ha⟩, hb, rfl⟩
      exact ⟨_, rfl, ds₁, a, ds₂, ha, hb, rfl⟩

end Does
end Program

/-! ### Sessions -/

inductive Session (σ ε α : Type) where
  | active (own : List (σ → Except ε σ)) (rest : Program σ ε α)
  | committed (a : α)
  | rolledBack (e : ε)

structure World (ι σ ε α : Type) where
  store : σ
  sessions : ι → Session σ ε α

namespace World

/-- Every session about to begin. -/
def start (s : σ) (programs : ι → Program σ ε α) : World ι σ ε α :=
  ⟨s, fun i => .active [] (programs i)⟩

abbrev Move (ι σ ε α : Type) := Transition.Event (World ι σ ε α) ι

/-- The answer a session commits with in this move. -/
def answer (e : Move ι σ ε α) : Option α :=
  match e.after.sessions e.label with
  | .committed a => some a
  | _ => none

theorem answer_eq_some {e : Move ι σ ε α} {a : α} :
    answer e = some a ↔ e.after.sessions e.label = .committed a := by
  unfold answer
  cases e.after.sessions e.label <;> simp

/-- The sessions that commit, in the order in which they do, with their answers. -/
def commits (es : List (Move ι σ ε α)) : List (ι × α) :=
  es.filterMap fun e => (answer e).map fun a => (e.label, a)

theorem commits_snoc (es : List (Move ι σ ε α)) (e : Move ι σ ε α) :
    commits (es ++ [e]) = commits es ++ ((answer e).map fun a => (e.label, a)).toList := by
  cases h : answer e <;> simp [commits, h]

variable [DecidableEq ι]

def put (w : World ι σ ε α) (i : ι) (x : Session σ ε α) : World ι σ ε α :=
  { w with sessions := Function.update w.sessions i x }

@[simp] theorem put_store (w : World ι σ ε α) (i : ι) (x : Session σ ε α) :
    (w.put i x).store = w.store := rfl

@[simp] theorem put_self (w : World ι σ ε α) (i : ι) (x : Session σ ε α) :
    (w.put i x).sessions i = x := Function.update_self ..

theorem put_other {w : World ι σ ε α} {i j : ι} (h : j ≠ i) (x : Session σ ε α) :
    (w.put i x).sessions j = w.sessions j := Function.update_of_ne h ..

@[simp] theorem put_put (w : World ι σ ε α) (i : ι) (x y : Session σ ε α) :
    (w.put i x).put i y = w.put i y := by
  simp only [put, Function.update_idem]

/-- Session `i` commits with the answer `a`. -/
def commit (w : World ι σ ε α) (i : ι) (a : α) (s : σ) : World ι σ ε α :=
  { w.put i (.committed a) with store := s }

section Next
variable (valid : σ → Prop) [DecidablePred valid] (violation : ε)

/-- The next statement of session `i`, if it has one. -/
def next (w : World ι σ ε α) (i : ι) : Option (World ι σ ε α) :=
  match w.sessions i with
  | .active own (.select k) =>
    match applied own w.store with
    | .ok s => some (w.put i (.active own (k s)))
    | .error e => some (w.put i (.rolledBack e))
  | .active own (.write u k) =>
    match applied (own ++ [u]) w.store with
    | .ok _ => some (w.put i (.active (own ++ [u]) k))
    | .error e => some (w.put i (.rolledBack e))
  | .active _ (.raise e) => some (w.put i (.rolledBack e))
  | .active own (.ret a) =>
    match applied own w.store with
    | .ok s =>
      if valid s then some (w.commit i a s) else some (w.put i (.rolledBack violation))
    | .error e => some (w.put i (.rolledBack e))
  | .committed _ | .rolledBack _ => none

def step (w : World ι σ ε α) (i : ι) (w' : World ι σ ε α) : Prop :=
  w.next valid violation i = some w'

abbrev Run := Transition.Path (step (ι := ι) (α := α) valid violation)

end Next

inductive Stepped (valid : σ → Prop) (w : World ι σ ε α) (i : ι) : World ι σ ε α → Prop
  | read (own : List (σ → Except ε σ)) (k : σ → Program σ ε α) (s : σ) :
      w.sessions i = .active own (.select k) → applied own w.store = .ok s →
      Stepped valid w i (w.put i (.active own (k s)))
  | wrote (own : List (σ → Except ε σ)) (u : σ → Except ε σ) (k : Program σ ε α) :
      w.sessions i = .active own (.write u k) →
      Stepped valid w i (w.put i (.active (own ++ [u]) k))
  | committed (own : List (σ → Except ε σ)) (a : α) (s : σ) :
      w.sessions i = .active own (.ret a) → applied own w.store = .ok s → valid s →
      Stepped valid w i (w.commit i a s)
  | rolledBack (own : List (σ → Except ε σ)) (p : Program σ ε α) (e : ε) :
      w.sessions i = .active own p → Stepped valid w i (w.put i (.rolledBack e))

variable {valid : σ → Prop} [DecidablePred valid] {violation : ε}

theorem stepped_of_step {w w' : World ι σ ε α} {i : ι} (h : step valid violation w i w') :
    Stepped valid w i w' := by
  unfold step next at h
  split at h
  · rename_i own k hi
    split at h
    · rename_i s hs
      obtain rfl := Option.some.inj h
      exact .read own k s hi hs
    · obtain rfl := Option.some.inj h
      exact .rolledBack own _ _ hi
  · rename_i own u k hi
    split at h
    · obtain rfl := Option.some.inj h
      exact .wrote own u k hi
    · obtain rfl := Option.some.inj h
      exact .rolledBack own _ _ hi
  · rename_i own e hi
    obtain rfl := Option.some.inj h
    exact .rolledBack own _ _ hi
  · rename_i own a hi
    split at h
    · rename_i s hs
      split_ifs at h with hv
      · obtain rfl := Option.some.inj h
        exact .committed own a s hi hs hv
      · obtain rfl := Option.some.inj h
        exact .rolledBack own _ _ hi
    · obtain rfl := Option.some.inj h
      exact .rolledBack own _ _ hi
  · exact absurd h (Option.some_ne_none _).symm
  · exact absurd h (Option.some_ne_none _).symm

/-- What a move can do, with all it depends on. -/
inductive Moved (valid : σ → Prop) (violation : ε) (w : World ι σ ε α) (i : ι) :
    World ι σ ε α → Prop
  | read (own : List (σ → Except ε σ)) (k : σ → Program σ ε α) (s : σ) :
      w.sessions i = .active own (.select k) → applied own w.store = .ok s →
      Moved valid violation w i (w.put i (.active own (k s)))
  | lost (own : List (σ → Except ε σ)) (k : σ → Program σ ε α) (e : ε) :
      w.sessions i = .active own (.select k) → applied own w.store = .error e →
      Moved valid violation w i (w.put i (.rolledBack e))
  | wrote (own : List (σ → Except ε σ)) (u : σ → Except ε σ) (k : Program σ ε α) (s : σ) :
      w.sessions i = .active own (.write u k) → applied (own ++ [u]) w.store = .ok s →
      Moved valid violation w i (w.put i (.active (own ++ [u]) k))
  | refused (own : List (σ → Except ε σ)) (u : σ → Except ε σ) (k : Program σ ε α) (e : ε) :
      w.sessions i = .active own (.write u k) → applied (own ++ [u]) w.store = .error e →
      Moved valid violation w i (w.put i (.rolledBack e))
  | raised (own : List (σ → Except ε σ)) (e : ε) :
      w.sessions i = .active own (.raise e) → Moved valid violation w i (w.put i (.rolledBack e))
  | committed (own : List (σ → Except ε σ)) (a : α) (s : σ) :
      w.sessions i = .active own (.ret a) → applied own w.store = .ok s → valid s →
      Moved valid violation w i (w.commit i a s)
  | violates (own : List (σ → Except ε σ)) (a : α) (s : σ) :
      w.sessions i = .active own (.ret a) → applied own w.store = .ok s → ¬valid s →
      Moved valid violation w i (w.put i (.rolledBack violation))
  | outdated (own : List (σ → Except ε σ)) (a : α) (e : ε) :
      w.sessions i = .active own (.ret a) → applied own w.store = .error e →
      Moved valid violation w i (w.put i (.rolledBack e))

theorem moved_of_step {w w' : World ι σ ε α} {i : ι} (h : step valid violation w i w') :
    Moved valid violation w i w' := by
  unfold step next at h
  split at h
  · rename_i own k hi
    split at h
    · rename_i s hs
      obtain rfl := Option.some.inj h
      exact .read own k s hi hs
    · rename_i e he
      obtain rfl := Option.some.inj h
      exact .lost own k e hi he
  · rename_i own u k hi
    split at h
    · rename_i s hs
      obtain rfl := Option.some.inj h
      exact .wrote own u k s hi hs
    · rename_i e he
      obtain rfl := Option.some.inj h
      exact .refused own u k e hi he
  · rename_i own e hi
    obtain rfl := Option.some.inj h
    exact .raised own e hi
  · rename_i own a hi
    split at h
    · rename_i s hs
      split_ifs at h with hv
      · obtain rfl := Option.some.inj h
        exact .committed own a s hi hs hv
      · obtain rfl := Option.some.inj h
        exact .violates own a s hi hs hv
    · rename_i e he
      obtain rfl := Option.some.inj h
      exact .outdated own a e hi he
  · exact absurd h (Option.some_ne_none _).symm
  · exact absurd h (Option.some_ne_none _).symm

/-! ### What a session has done -/

/-- The statement session `i` executes in this move. -/
def did (i : ι) (e : Move ι σ ε α) : Option (Did σ ε) :=
  if e.label = i then
    match e.before.sessions i with
    | .active own (.select _) =>
      match applied own e.before.store with
      | .ok s => some (.read s)
      | .error _ => none
    | .active _ (.write u _) => some (.wrote u)
    | _ => none
  else none

def trail (i : ι) (es : List (Move ι σ ε α)) : List (Did σ ε) := es.filterMap (did i)

theorem trail_snoc (i : ι) (es : List (Move ι σ ε α)) (e : Move ι σ ε α) :
    trail i (es ++ [e]) = trail i es ++ (did i e).toList := by
  cases h : did i e <;> simp [trail, h]

theorem did_other {i : ι} {e : Move ι σ ε α} (h : e.label ≠ i) : did i e = none := if_neg h

theorem sessions_other {w w' : World ι σ ε α} {i j : ι} (h : step valid violation w i w')
    (hj : j ≠ i) : w'.sessions j = w.sessions j := by
  cases stepped_of_step h with
  | committed own a s => exact put_other hj _
  | read | wrote | rolledBack => exact put_other hj _

theorem store_of_answer_none {e : Move ι σ ε α} (h : step valid violation e.before e.label e.after)
    (ha : answer e = none) : e.after.store = e.before.store := by
  obtain ⟨w, i, w'⟩ := e
  have hstep : Stepped valid w i w' := stepped_of_step h
  cases hstep with
  | committed own a s =>
    have hcom : answer ⟨w, i, w.commit i a s⟩ = some a := answer_eq_some.mpr (put_self w i _)
    exact absurd (ha.symm.trans hcom) (Option.some_ne_none a).symm
  | read | wrote | rolledBack => rfl

section Runs
variable {programs : ι → Program σ ε α} {s : σ} {w : World ι σ ε α} {es : List (Move ι σ ε α)}

/-- An active session holds the writes of its statements, and has reached the rest of its
program by them. -/
theorem active_of_run (h : Run valid violation (start s programs) es w) {i : ι}
    {own : List (σ → Except ε σ)} {rest : Program σ ε α} (hi : w.sessions i = .active own rest) :
    own = writes (trail i es) ∧ (programs i).Reaches (trail i es) rest := by
  induction h generalizing own rest with
  | nil =>
    obtain ⟨rfl, rfl⟩ := Session.active.inj hi
    exact ⟨rfl, .refl⟩
  | snoc path last ih =>
    rename_i fs t u j
    rw [trail_snoc]
    -- a move of another session leaves this one where it was
    by_cases hij : j = i
    · subst hij
      cases stepped_of_step last with
      | read own' k v hj hv =>
        obtain ⟨rfl, hreach⟩ := ih hj
        obtain ⟨rfl, rfl⟩ := Session.active.inj ((put_self t j _).symm.trans hi)
        have hdid : did j ⟨t, j, t.put j (.active (writes (trail j fs)) (k v))⟩ = some (.read v) := by
          simp only [did, if_true, hj, hv]
        rw [hdid, Option.toList_some, writes_append]
        exact ⟨(List.append_nil _).symm, hreach.snoc_read v⟩
      | wrote own' v k hj =>
        obtain ⟨rfl, hreach⟩ := ih hj
        obtain ⟨rfl, rfl⟩ := Session.active.inj ((put_self t j _).symm.trans hi)
        have hdid : did j ⟨t, j, t.put j (.active (writes (trail j fs) ++ [v]) k)⟩ =
            some (.wrote v) := by
          simp only [did, if_true, hj]
        rw [hdid, Option.toList_some, writes_append]
        exact ⟨rfl, hreach.snoc_wrote⟩
      | committed own' a v hj => exact absurd ((put_self t j _).symm.trans hi) (by simp)
      | rolledBack own' p e hj => exact absurd ((put_self t j _).symm.trans hi) (by simp)
    · rw [did_other hij, Option.toList_none, List.append_nil]
      exact ih ((sessions_other last (Ne.symm hij)).symm.trans hi)

theorem committed_of_answer {e : Move ι σ ε α}
    (h : Run valid violation (start s programs) es e.before)
    (hstep : step valid violation e.before e.label e.after) {a : α} (ha : answer e = some a) :
    (programs e.label).Does (trail e.label es) a ∧
      applied (writes (trail e.label es)) e.before.store = .ok e.after.store ∧
      valid e.after.store := by
  obtain ⟨t, i, u⟩ := e
  rw [answer_eq_some] at ha
  have hcases : Stepped valid t i u := stepped_of_step hstep
  cases hcases with
  | committed own b v hi hv hvalid =>
    obtain ⟨rfl, hreach⟩ := active_of_run h hi
    obtain rfl := Session.committed.inj ((put_self t i _).symm.trans ha)
    exact ⟨hreach, hv, hvalid⟩
  | read own k v hi => exact absurd ((put_self t i _).symm.trans ha) (by simp)
  | wrote own v k hi => exact absurd ((put_self t i _).symm.trans ha) (by simp)
  | rolledBack own p e hi => exact absurd ((put_self t i _).symm.trans ha) (by simp)

theorem answer_of_committed (h : Run valid violation (start s programs) es w) {i : ι} {a : α}
    (hi : w.sessions i = .committed a) :
    ∃ es₁ e es₂, es = es₁ ++ e :: es₂ ∧ e.label = i ∧ answer e = some a := by
  induction h with
  | nil => cases hi
  | snoc path last ih =>
    rename_i fs t u j
    by_cases hij : j = i
    · exact ⟨fs, _, [], rfl, hij, answer_eq_some.mpr (hij ▸ hi)⟩
    · obtain ⟨es₁, e, es₂, rfl, hl, ha⟩ := ih ((sessions_other last (Ne.symm hij)).symm.trans hi)
      exact ⟨es₁, e, es₂ ++ [⟨t, j, u⟩], by simp, hl, ha⟩

theorem committed_stays {t : World ι σ ε α} (h : Run valid violation w es t) {i : ι} {a : α}
    (hi : w.sessions i = .committed a) :
    t.sessions i = .committed a ∧ ∀ e ∈ es, e.label ≠ i := by
  refine h.history_invariant (I := fun es t => t.sessions i = .committed a ∧ ∀ e ∈ es, e.label ≠ i)
    (C := fun _ => True) (fun es e _ _ hstep _ hI => ?_) (fun _ _ => trivial) ⟨hi, by simp⟩
  have hne : i ≠ e.label := by
    rintro rfl
    have hidle : e.before.next valid violation e.label = none := by
      simp only [next, hI.1]
    exact absurd (hidle.symm.trans hstep) (Option.some_ne_none _).symm
  refine ⟨(sessions_other hstep hne).trans hI.1, fun f hf => ?_⟩
  rcases List.mem_append.mp hf with hf | hf
  · exact hI.2 f hf
  · exact List.mem_singleton.mp hf ▸ hne.symm

theorem valid_of_run {t : World ι σ ε α} (h : Run valid violation w es t) (hw : valid w.store) :
    valid t.store := by
  refine h.invariant (I := fun t => valid t.store) (fun t i u hstep ht => ?_) hw
  cases stepped_of_step hstep with
  | committed own a v hi hv hvalid => exact hvalid
  | read | wrote | rolledBack => exact ht

/-- What a session read before its first write, it read from the store. -/
theorem read_of_trail (h : Run valid violation (start s programs) es w) {i : ι} {v : σ}
    {ds ds' : List (Did σ ε)} (htrail : trail i es = ds ++ .read v :: ds') (hds : writes ds = []) :
    ∃ es₁ e es₂, es = es₁ ++ e :: es₂ ∧ e.label = i ∧ trail i es₁ = ds ∧ v = e.before.store := by
  obtain ⟨es₁, fs, rfl, htrail₁, hfs⟩ := List.filterMap_eq_append_iff.mp htrail
  obtain ⟨gs, e, es₂, rfl, hgs, he, -⟩ := List.filterMap_eq_cons_iff.mp hfs
  have htrail₂ : trail i (es₁ ++ gs) = ds := by
    rw [trail, List.filterMap_append, htrail₁, List.filterMap_eq_nil_iff.mpr hgs, List.append_nil]
  obtain ⟨mid, hpre, hpost⟩ := Transition.Path.append_iff.mp
    (show Run valid violation (start s programs) (es₁ ++ gs ++ [e] ++ es₂) w by simpa using h)
  obtain ⟨hpre, -, -⟩ := Transition.Path.snoc_iff.mp hpre
  have hlabel : e.label = i := by
    by_contra hne
    exact absurd ((did_other hne).symm.trans he) (Option.some_ne_none _).symm
  refine ⟨es₁ ++ gs, e, es₂, by simp, hlabel, htrail₂, ?_⟩
  simp only [did, hlabel, if_true] at he
  split at he
  · rename_i own k hi
    have hown := (active_of_run hpre hi).1
    rw [htrail₂, hds] at hown
    rw [hown, applied_nil] at he
    exact (Did.read.inj (Option.some.inj he)).symm
  · cases he
  · cases he
end Runs

/-! ### One session alone -/

theorem run_step {w w' : World ι σ ε α} {i : ι} (h : w.next valid violation i = some w') :
    Run valid violation w [⟨w, i, w'⟩] w' := Transition.Path.snoc .nil h

@[simp] theorem put_commit (w : World ι σ ε α) (i : ι) (x : Session σ ε α) (a : α) (s : σ) :
    (w.put i x).commit i a s = w.commit i a s := by
  simp only [commit, put_put]

/-- With no other session moving in between, a session commits what its program returns. -/
theorem run_alone {i : ι} {q : Program σ ε α} {w : World ι σ ε α} {own : List (σ → Except ε σ)}
    {s t : σ} {a : α} (hi : w.sessions i = .active own q) (ho : applied own w.store = .ok s)
    (h : q.Returns s a t) (hv : valid t) : ∃ es, Run valid violation w es (w.commit i a t) := by
  induction q generalizing w own s with
  | ret b =>
    obtain ⟨rfl, rfl⟩ := Program.returns_ret.mp h
    have hnext : w.next valid violation i = some (w.commit i a t) := by
      simp only [next, hi, ho, if_pos hv]
    exact ⟨_, run_step hnext⟩
  | raise e => exact absurd h Program.returns_raise
  | select k ih =>
    have hnext : w.next valid violation i = some (w.put i (.active own (k s))) := by
      simp only [next, hi, ho]
    obtain ⟨es, hes⟩ := ih s (put_self w i _) (by rw [put_store, ho]) h
    exact ⟨_, Transition.Path.append_iff.mpr ⟨_, run_step hnext, put_commit w i _ a t ▸ hes⟩⟩
  | write u k ih =>
    rw [Program.Returns, Program.exec] at h
    cases hu : u s with
    | error e => simp [hu] at h
    | ok v =>
      have hk : k.exec v = (.ok a, t) := by simpa only [hu] using h
      have hown : applied (own ++ [u]) w.store = .ok v :=
        applied_append.mpr ⟨s, ho, applied_cons.mpr ⟨v, hu, rfl⟩⟩
      have hnext : w.next valid violation i = some (w.put i (.active (own ++ [u]) k)) := by
        simp only [next, hi, hown]
      obtain ⟨es, hes⟩ := ih (put_self w i _) (by rw [put_store, hown]) hk
      exact ⟨_, Transition.Path.append_iff.mpr ⟨_, run_step hnext, put_commit w i _ a t ▸ hes⟩⟩

/-! ### Playing a schedule -/

section Play
variable (valid violation)

/-- The world after the sessions of the schedule have moved in turn. -/
def play (w : World ι σ ε α) (schedule : List ι) : World ι σ ε α :=
  schedule.foldl (fun w i => (w.next valid violation i).getD w) w

def moves (w : World ι σ ε α) : List ι → List (Move ι σ ε α)
  | [] => []
  | i :: schedule =>
    match w.next valid violation i with
    | some w' => ⟨w, i, w'⟩ :: moves w' schedule
    | none => moves w schedule

theorem run_play (w : World ι σ ε α) (schedule : List ι) :
    Run valid violation w (moves valid violation w schedule) (play valid violation w schedule) := by
  induction schedule generalizing w with
  | nil => exact .nil
  | cons i schedule ih =>
    rw [moves, play, List.foldl_cons]
    cases hw : w.next valid violation i with
    | none => exact ih w
    | some w' => exact Transition.Path.append_iff.mpr ⟨w', run_step hw, ih w'⟩

end Play

end World

end Transaction

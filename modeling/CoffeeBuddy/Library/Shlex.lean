import Mathlib.Data.List.Basic

/-! Words of a command line: blanks between them, quotes and escapes inside. The scanner reads
one character at a time; the texts it can read to the end are those whose quotes are closed
and whose escapes have their character. -/

namespace Shlex

/-- Inside an escaping quote only the quote and the escape itself can be escaped. -/
structure Lexicon where
  blank : Char → Bool
  quote : Char → Bool
  escaping : Char → Bool
  escape : Char
  escape_plain : quote escape = false
  blank_plain : ∀ c, blank c = true → quote c = false ∧ c ≠ escape

inductive State where
  | between
  | word (token : List Char)
  | quoted (q : Char) (token : List Char)
  /-- After an escape, to go back to the word or to its quote. -/
  | escaped (back : Option Char) (token : List Char)
deriving DecidableEq

inductive Failure where
  | noClosingQuotation
  | noEscapedCharacter
deriving DecidableEq

variable (x : Lexicon)

/-- A character of a word, outside its quotes. -/
def enter (token : List Char) (c : Char) : State :=
  if x.quote c then .quoted c token
  else if c = x.escape then .escaped none token
  else .word (token ++ [c])

/-- One character further: the word it ends and the new state. -/
def step : State → Char → Option (List Char) × State
  | .between, c => (none, if x.blank c then .between else enter x [] c)
  | .word token, c => if x.blank c then (some token, .between) else (none, enter x token c)
  | .quoted q token, c =>
    if c = q then (none, .word token)
    else if c = x.escape ∧ x.escaping q then (none, .escaped (some q) token)
    else (none, .quoted q (token ++ [c]))
  | .escaped none token, c => (none, .word (token ++ [c]))
  | .escaped (some q) token, c =>
    (none, .quoted q (if c ≠ x.escape ∧ c ≠ q then token ++ [x.escape, c] else token ++ [c]))

def finish : State → Except Failure (List (List Char))
  | .between => .ok []
  | .word token => .ok [token]
  | .quoted _ _ => .error .noClosingQuotation
  | .escaped _ _ => .error .noEscapedCharacter

def scan (state : State) : List Char → Except Failure (List (List Char))
  | [] => finish state
  | c :: cs =>
    let next := step x state c
    (scan next.2 cs).map fun tokens => next.1.toList ++ tokens

def split (cs : List Char) : Except Failure (List (List Char)) := scan x .between cs

/-! ### The texts that can be split -/

/-- What stands inside a quote. -/
inductive Quoted (q : Char) : List Char → Prop
  | nil : Quoted q []
  | plain {c : Char} {cs : List Char} : c ≠ q → ¬(c = x.escape ∧ x.escaping q = true) →
    Quoted q cs → Quoted q (c :: cs)
  | escape {c : Char} {cs : List Char} : x.escape ≠ q → x.escaping q = true →
    Quoted q cs → Quoted q (x.escape :: c :: cs)

/-- Every quote is closed, and every escape outside them has its character. -/
inductive Closed : List Char → Prop
  | nil : Closed []
  | plain {c : Char} {cs : List Char} : x.quote c = false → c ≠ x.escape → Closed cs →
    Closed (c :: cs)
  | escape {c : Char} {cs : List Char} : Closed cs → Closed (x.escape :: c :: cs)
  | quote {q : Char} {body cs : List Char} : x.quote q = true → Quoted x q body → Closed cs →
    Closed (q :: (body ++ q :: cs))

/-- A text after an opened quote. -/
def Closes (q : Char) (cs : List Char) : Prop :=
  ∃ body rest, cs = body ++ q :: rest ∧ Quoted x q body ∧ Closed x rest

/-- A text after the escape. -/
def Escapes (P : List Char → Prop) (cs : List Char) : Prop := ∃ c rest, cs = c :: rest ∧ P rest

section Grammar
variable {x} {c q : Char} {cs : List Char}

theorem closed_cons_quote (hc : x.quote c = true) : Closed x (c :: cs) ↔ Closes x c cs := by
  constructor
  · intro h
    cases h with
    | plain hplain _ _ => exact absurd (hc.symm.trans hplain) (by decide)
    | escape _ => exact absurd (hc.symm.trans x.escape_plain) (by decide)
    | quote _ hbody hrest => exact ⟨_, _, rfl, hbody, hrest⟩
  · rintro ⟨body, rest, rfl, hbody, hrest⟩
    exact .quote hc hbody hrest

theorem closed_cons_escape : Closed x (x.escape :: cs) ↔ Escapes (Closed x) cs := by
  constructor
  · intro h
    cases h with
    | plain _ hne _ => exact absurd rfl hne
    | escape hrest => exact ⟨_, _, rfl, hrest⟩
    | quote hq _ _ => exact absurd (hq.symm.trans x.escape_plain) (by decide)
  · rintro ⟨d, rest, rfl, hrest⟩
    exact .escape hrest

theorem closed_cons_plain (hc : x.quote c = false) (hne : c ≠ x.escape) :
    Closed x (c :: cs) ↔ Closed x cs := by
  constructor
  · intro h
    cases h with
    | plain _ _ hrest => exact hrest
    | escape _ => exact absurd rfl hne
    | quote hq _ _ => exact absurd (hq.symm.trans hc) (by decide)
  · exact Closed.plain hc hne

theorem closes_nil : ¬Closes x q [] := by
  rintro ⟨body, rest, h, -⟩
  simp at h

theorem closes_cons_self : Closes x q (q :: cs) ↔ Closed x cs := by
  constructor
  · rintro ⟨body, rest, h, hbody, hrest⟩
    cases hbody with
    | nil =>
      obtain rfl := List.tail_eq_of_cons_eq h
      exact hrest
    | plain hne _ _ => exact absurd (List.head_eq_of_cons_eq h).symm hne
    | escape hne _ _ => exact absurd (List.head_eq_of_cons_eq h).symm hne
  · exact fun h => ⟨[], cs, rfl, .nil, h⟩

theorem closes_cons_escape (hne : x.escape ≠ q) (hq : x.escaping q = true) :
    Closes x q (x.escape :: cs) ↔ Escapes (Closes x q) cs := by
  constructor
  · rintro ⟨body, rest, h, hbody, hrest⟩
    cases hbody with
    | nil => exact absurd (List.head_eq_of_cons_eq h) hne
    | plain _ hplain _ => exact absurd ⟨(List.head_eq_of_cons_eq h).symm, hq⟩ hplain
    | escape _ _ hbody => exact ⟨_, _, List.tail_eq_of_cons_eq h, _, rest, rfl, hbody, hrest⟩
  · rintro ⟨d, ds, rfl, body, rest, rfl, hbody, hrest⟩
    exact ⟨x.escape :: d :: body, rest, rfl, .escape hne hq hbody, hrest⟩

theorem closes_cons_plain (hne : c ≠ q) (hc : ¬(c = x.escape ∧ x.escaping q = true)) :
    Closes x q (c :: cs) ↔ Closes x q cs := by
  constructor
  · rintro ⟨body, rest, h, hbody, hrest⟩
    cases hbody with
    | nil => exact absurd (List.head_eq_of_cons_eq h) hne
    | plain _ _ hbody => exact ⟨_, rest, List.tail_eq_of_cons_eq h, hbody, hrest⟩
    | escape _ hq _ => exact absurd ⟨List.head_eq_of_cons_eq h, hq⟩ hc
  · rintro ⟨body, rest, rfl, hbody, hrest⟩
    exact ⟨c :: body, rest, rfl, .plain hne hc hbody, hrest⟩

end Grammar

/-! ### The scanner -/

/-- What the rest of the text has to be in each state. -/
def State.Finishes : State → List Char → Prop
  | .between, cs => Closed x cs
  | .word _, cs => Closed x cs
  | .quoted q _, cs => Closes x q cs
  | .escaped none _, cs => Escapes (Closed x) cs
  | .escaped (some q) _, cs => Escapes (Closes x q) cs

section Scanner
variable {x} {cs : List Char} {c : Char} {state : State}

theorem escapes_nil {P : List Char → Prop} : ¬Escapes P [] := by
  rintro ⟨c, rest, h, -⟩
  simp at h

theorem escapes_cons {P : List Char → Prop} : Escapes P (c :: cs) ↔ P cs := by
  constructor
  · rintro ⟨d, rest, h, hrest⟩
    obtain rfl := List.tail_eq_of_cons_eq h
    exact hrest
  · exact fun h => ⟨c, cs, rfl, h⟩

theorem finishes_enter (token : List Char) :
    (enter x token c).Finishes x cs ↔ Closed x (c :: cs) := by
  unfold enter
  split_ifs with hquote hescape
  · exact (closed_cons_quote hquote).symm
  · subst hescape
    exact closed_cons_escape.symm
  · exact (closed_cons_plain (Bool.not_eq_true _ ▸ hquote) hescape).symm

theorem finishes_blank (h : x.blank c = true) : Closed x (c :: cs) ↔ Closed x cs := by
  obtain ⟨hquote, hescape⟩ := x.blank_plain c h
  exact closed_cons_plain hquote hescape

/-- Reading a character takes it off the rest. -/
theorem finishes_step : (step x state c).2.Finishes x cs ↔ state.Finishes x (c :: cs) := by
  cases state with
  | between =>
    simp only [step]
    split_ifs with hblank
    · exact (finishes_blank hblank).symm
    · exact finishes_enter []
  | word token =>
    simp only [step]
    split_ifs with hblank
    · exact (finishes_blank hblank).symm
    · exact finishes_enter token
  | quoted q token =>
    simp only [step]
    -- inside quotes the quote itself is looked at before the escape
    split_ifs with hclose hescape
    · subst hclose
      exact closes_cons_self.symm
    · obtain ⟨rfl, hq⟩ := hescape
      exact (closes_cons_escape hclose hq).symm
    · exact (closes_cons_plain hclose hescape).symm
  | escaped back token =>
    cases back with
    | none => exact escapes_cons.symm
    | some q => exact escapes_cons.symm

theorem finish_isOk : (finish state).isOk ↔ state.Finishes x [] := by
  cases state with
  | between => exact iff_of_true rfl .nil
  | word token => exact iff_of_true rfl .nil
  | quoted q token => exact iff_of_false Bool.false_ne_true closes_nil
  | escaped back token =>
    cases back with
    | none => exact iff_of_false Bool.false_ne_true escapes_nil
    | some q => exact iff_of_false Bool.false_ne_true escapes_nil

theorem scan_isOk : (scan x state cs).isOk ↔ state.Finishes x cs := by
  induction cs generalizing state with
  | nil => exact finish_isOk
  | cons c cs ih =>
    rw [← finishes_step, ← ih]
    simp only [scan]
    cases scan x (step x state c).2 cs with
    | ok tokens => exact Iff.rfl
    | error failure => exact Iff.rfl

theorem split_isOk : (split x cs).isOk ↔ Closed x cs := scan_isOk

end Scanner
end Shlex

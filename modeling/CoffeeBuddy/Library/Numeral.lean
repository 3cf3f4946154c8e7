import Mathlib.Data.List.DropRight
import Mathlib.Data.Nat.Digits.Defs

/-! Signed numerals: blanks around, a sign, digits of any alphabet with single underscores
between them; in base 16 a prefix may stand before the digits. -/

namespace Numeral
variable (blank : Char → Bool) (digit : Char → Option ℕ) (limit : ℕ)

/-- One character further: the digits so far, the last one first, and whether it comes right
before. An underscore stands between two digits. -/
def scan (read : List ℕ × Bool) (c : Char) : Option (List ℕ × Bool) :=
  if c = '_' then if read.2 then some (read.1, false) else none
  else (digit c).map fun d => (d :: read.1, true)

def digits (cs : List Char) : Option (List ℕ) :=
  (cs.foldlM (scan digit) ([], false)).bind fun read => if read.2 then some read.1 else none

/-- The value of at most `limit` digits. -/
def magnitude (cs : List Char) : Option ℕ :=
  (digits digit cs).bind fun ds => if ds.length ≤ limit then some (Nat.ofDigits 10 ds) else none

/-- What follows the prefix `0x`, if there is one, and one underscore after it. -/
def afterPrefix : List Char → List Char
  | zero :: x :: cs =>
    if digit zero = some 0 ∧ (x = 'x' ∨ x = 'X') then
      match cs with
      | '_' :: rest => rest
      | _ => cs
    else zero :: x :: cs
  | cs => cs

/-- The value in base 16, where nothing bounds the number of digits. -/
def hexMagnitude (cs : List Char) : Option ℕ :=
  (digits digit (afterPrefix digit cs)).map (Nat.ofDigits 16)

def signed : List Char → ℤ × List Char
  | '-' :: cs => (-1, cs)
  | '+' :: cs => (1, cs)
  | cs => (1, cs)

def parseSigned (value : List Char → Option ℕ) (cs : List Char) : Option ℤ :=
  let (sign, body) := signed ((cs.dropWhile blank).rdropWhile blank)
  (value body).map fun n : ℕ => sign * n

def parse (cs : List Char) : Option ℤ := parseSigned blank (magnitude digit limit) cs

def parseHex (cs : List Char) : Option ℤ := parseSigned blank (hexMagnitude digit) cs

section Characters
variable {blank digit limit} {cs : List Char} {c : Char}

theorem mem_scanned {read last : List ℕ × Bool} (h : cs.foldlM (scan digit) read = some last)
    (hc : c ∈ cs) : c = '_' ∨ (digit c).isSome := by
  induction cs generalizing read with
  | nil => exact absurd hc List.not_mem_nil
  | cons c₀ cs ih =>
    rw [List.foldlM_cons] at h
    obtain ⟨next, hnext, h⟩ := Option.bind_eq_some_iff.mp h
    rcases List.mem_cons.mp hc with rfl | hc
    · unfold scan at hnext
      split_ifs at hnext with hunderscore
      · exact Or.inl hunderscore
      · obtain ⟨d, hd, -⟩ := Option.map_eq_some_iff.mp hnext
        exact Or.inr (Option.isSome_of_eq_some hd)
    · exact ih h hc

theorem mem_magnitude {n : ℕ} (h : magnitude digit limit cs = some n) (hc : c ∈ cs) :
    c = '_' ∨ (digit c).isSome := by
  obtain ⟨ds, hds, -⟩ := Option.bind_eq_some_iff.mp h
  obtain ⟨read, hread, -⟩ := Option.bind_eq_some_iff.mp hds
  exact mem_scanned hread hc

theorem mem_trim (hc : c ∈ cs) : blank c = true ∨ c ∈ (cs.dropWhile blank).rdropWhile blank := by
  have hsplit : ∀ (p : Char → Bool) (l : List Char), c ∈ l → p c = true ∨ c ∈ l.dropWhile p := by
    intro p l hl
    rw [← List.takeWhile_append_dropWhile (p := p) (l := l)] at hl
    rcases List.mem_append.mp hl with hl | hl
    · exact Or.inl (List.mem_takeWhile_imp hl)
    · exact Or.inr hl
  rcases hsplit blank cs hc with hb | hc
  · exact Or.inl hb
  · rcases hsplit blank (cs.dropWhile blank).reverse (List.mem_reverse.mpr hc) with hb | hc
    · exact Or.inl hb
    · exact Or.inr (List.mem_reverse.mpr hc)

theorem mem_signed (hc : c ∈ cs) : c = '-' ∨ c = '+' ∨ c ∈ (signed cs).2 := by
  unfold signed
  split
  · exact (List.mem_cons.mp hc).imp_right Or.inr
  · exact Or.inr (List.mem_cons.mp hc)
  · exact Or.inr (Or.inr hc)

theorem mem_parse {n : ℤ} (h : parse blank digit limit cs = some n) (hc : c ∈ cs) :
    blank c = true ∨ c = '-' ∨ c = '+' ∨ c = '_' ∨ (digit c).isSome := by
  obtain ⟨m, hm, -⟩ := Option.map_eq_some_iff.mp h
  have htrim : blank c = true ∨ c ∈ (cs.dropWhile blank).rdropWhile blank := mem_trim hc
  rcases htrim with hb | hc
  · exact Or.inl hb
  rcases mem_signed hc with hsign | hsign | hc
  · exact Or.inr (Or.inl hsign)
  · exact Or.inr (Or.inr (Or.inl hsign))
  · exact Or.inr (Or.inr (Or.inr (mem_magnitude hm hc)))

end Characters

section Plain
variable {blank digit} {cs : List Char}

theorem foldlM_scan_append (read : List ℕ × Bool) (c : Char) :
    (cs ++ [c]).foldlM (scan digit) read =
      (cs.foldlM (scan digit) read).bind fun next => scan digit next c := by
  simp only [List.foldlM_append, List.foldlM_cons, List.foldlM_nil, bind_pure]
  rfl

/-- A text without blank, sign and prefix is read as its digits. -/
theorem parseHex_of_plain
    (hcs : ∀ c ∈ cs, blank c = false ∧ c ≠ '-' ∧ c ≠ '+' ∧ c ≠ 'x' ∧ c ≠ 'X') :
    parseHex blank digit cs = ((digits digit cs).map (Nat.ofDigits 16)).map Nat.cast := by
  have hleft : cs.dropWhile blank = cs :=
    List.dropWhile_eq_self_iff.mpr fun hpos => by simp [(hcs _ (List.getElem_mem hpos)).1]
  have hright : cs.rdropWhile blank = cs :=
    List.rdropWhile_eq_self_iff.mpr fun hne => by simp [(hcs _ (List.getLast_mem hne)).1]
  have hsigned : signed cs = (1, cs) := by
    unfold signed
    split
    · exact absurd rfl (hcs '-' List.mem_cons_self).2.1
    · exact absurd rfl (hcs '+' List.mem_cons_self).2.2.1
    · rfl
  have hprefix : afterPrefix digit cs = cs := by
    unfold afterPrefix
    split
    · rename_i zero x rest
      have hx := (hcs x (List.mem_cons_of_mem _ List.mem_cons_self)).2.2.2
      rw [if_neg fun h => h.2.elim hx.1 hx.2]
    · rfl
  simp only [parseHex, parseSigned, hleft, hright, hsigned, hexMagnitude, hprefix, one_mul]

end Plain
end Numeral

import CoffeeBuddy.Data.Integers
import Mathlib.Algebra.Group.Nat.Defs
import Mathlib.Order.Defs.LinearOrder

/-! Identifiers: `uuid.UUID`, its canonical text and the spellings its constructor accepts: 32
characters read as an integer in base 16, with optional hyphens, braces and URN prefix. -/

namespace CoffeeBuddy

structure Uuid where
  int : ℕ
  lt : int < 2 ^ 128
deriving DecidableEq

namespace Uuid

theorem int_injective : Function.Injective Uuid.int := by
  rintro ⟨m, hm⟩ ⟨n, hn⟩ h
  cases h
  rfl

instance : LinearOrder Uuid := LinearOrder.lift' Uuid.int int_injective

def ofNat (n : ℕ) : Uuid := ⟨n % 2 ^ 128, Nat.mod_lt _ (by decide)⟩

/-! ### Hexadecimal text -/

def hexDigits : ℕ → ℕ → List Char
  | 0, _ => []
  | k + 1, n => hexDigits k (n / 16) ++ [Nat.digitChar (n % 16)]

/-- `str.replace(pattern, '')`; `skip` characters of a match are still to be dropped. -/
def removeAll (pattern : List Char) : ℕ → List Char → List Char
  | _, [] => []
  | k + 1, _ :: cs => removeAll pattern k cs
  | 0, c :: cs =>
    if pattern.isPrefixOf (c :: cs) then removeAll pattern (pattern.length - 1) cs
    else c :: removeAll pattern 0 cs

def isBrace (c : Char) : Bool := c = '{' || c = '}'

def hyphenate (hex : List Char) : List Char :=
  hex.take 8 ++ '-' :: (hex.drop 8).take 4 ++ '-' :: (hex.drop 12).take 4 ++
    '-' :: (hex.drop 16).take 4 ++ '-' :: hex.drop 20

/-- `str(uuid)` -/
def str (u : Uuid) : String := String.ofList (hyphenate (hexDigits 32 u.int))

/-- `UUID(text)`; `none` is the `ValueError`. -/
def parse (text : String) : Option Uuid :=
  let bare := removeAll "uuid:".toList 0 (removeAll "urn:".toList 0 text.toList)
  let hex := ((bare.dropWhile isBrace).rdropWhile isBrace).filter (· ≠ '-')
  if hex.length ≠ 32 then none
  else (parseHex hex).bind fun n =>
    if h : 0 ≤ n ∧ n.toNat < 2 ^ 128 then some ⟨n.toNat, h.2⟩ else none

theorem length_hexDigits (k n : ℕ) : (hexDigits k n).length = k := by
  induction k generalizing n with
  | zero => rfl
  | succ k ih => simp only [hexDigits, List.length_append, ih, List.length_singleton]

theorem hexDigit_digitChar : ∀ d < 16, hexDigit (Nat.digitChar d) = some d := by decide

/-- The characters of a canonical text are no blanks, signs, prefixes, braces or underscores. -/
theorem plain_digitChar : ∀ d < 16, isBlank (Nat.digitChar d) = false ∧ Nat.digitChar d ≠ '-' ∧
    Nat.digitChar d ≠ '+' ∧ Nat.digitChar d ≠ 'x' ∧ Nat.digitChar d ≠ 'X' ∧
    Nat.digitChar d ≠ '_' := by
  decide

theorem exists_digitChar {k n : ℕ} {c : Char} (h : c ∈ hexDigits k n) :
    ∃ d < 16, c = Nat.digitChar d := by
  induction k generalizing n with
  | zero => exact absurd h List.not_mem_nil
  | succ k ih =>
    rcases List.mem_append.mp h with h | h
    · exact ih h
    · exact ⟨n % 16, Nat.mod_lt n (by decide), List.mem_singleton.mp h⟩

/-- The digits come back, the last one first; their value is the number they were written for. -/
theorem foldlM_hexDigits (k n : ℕ) :
    ∃ ds, Nat.ofDigits 16 ds = n % 16 ^ (k + 1) ∧
      (hexDigits (k + 1) n).foldlM (Numeral.scan hexDigit) ([], false) = some (ds, true) := by
  induction k generalizing n with
  | zero =>
    have hlt : n % 16 < 16 := Nat.mod_lt n (by decide)
    refine ⟨[n % 16], by simp, ?_⟩
    simp only [hexDigits, List.nil_append, List.foldlM_cons, List.foldlM_nil, bind_pure,
      Numeral.scan, if_neg (plain_digitChar _ hlt).2.2.2.2.2, hexDigit_digitChar _ hlt,
      Option.map_some]
  | succ k ih =>
    have hlt : n % 16 < 16 := Nat.mod_lt n (by decide)
    obtain ⟨ds, hvalue, hfold⟩ := ih (n / 16)
    refine ⟨n % 16 :: ds, ?_, ?_⟩
    · rw [Nat.ofDigits_cons, hvalue, Nat.pow_succ' (n := k + 1), Nat.mod_mul]
    · rw [hexDigits, Numeral.foldlM_scan_append, hfold, Option.bind_some, Numeral.scan,
        if_neg (plain_digitChar _ hlt).2.2.2.2.2, hexDigit_digitChar _ hlt, Option.map_some]

theorem parseHex_hexDigits (k n : ℕ) :
    parseHex (hexDigits (k + 1) n) = some ((n % 16 ^ (k + 1) : ℕ) : ℤ) := by
  obtain ⟨ds, hvalue, hfold⟩ := foldlM_hexDigits k n
  have hplain : ∀ c ∈ hexDigits (k + 1) n,
      isBlank c = false ∧ c ≠ '-' ∧ c ≠ '+' ∧ c ≠ 'x' ∧ c ≠ 'X' := by
    intro c hc
    obtain ⟨d, hd, rfl⟩ := exists_digitChar hc
    have hchar := plain_digitChar d hd
    exact ⟨hchar.1, hchar.2.1, hchar.2.2.1, hchar.2.2.2.1, hchar.2.2.2.2.1⟩
  rw [parseHex, Numeral.parseHex_of_plain hplain, Numeral.digits, hfold, Option.bind_some,
    if_pos rfl, Option.map_some, hvalue, Option.map_some]

/-- What `UUID` takes away from a text is not in a canonical one, hyphens apart. -/
def Canonical (c : Char) : Prop := c ≠ 'u' ∧ isBrace c = false

theorem canonical_digitChar : ∀ d < 16,
    Canonical (Nat.digitChar d) ∧ Nat.digitChar d ≠ '-' := by
  unfold Canonical
  decide

theorem mem_hexDigits {k n : ℕ} {c : Char} (h : c ∈ hexDigits k n) :
    Canonical c ∧ c ≠ '-' := by
  obtain ⟨d, hd, rfl⟩ := exists_digitChar h
  exact canonical_digitChar d hd

theorem mem_hyphenate {hex : List Char} {c : Char} (h : c ∈ hyphenate hex) :
    c = '-' ∨ c ∈ hex := by
  simp only [hyphenate, List.mem_append, List.mem_cons] at h
  have ht := fun (i j : ℕ) (h : c ∈ (hex.drop i).take j) => List.mem_of_mem_drop (List.mem_of_mem_take h)
  rcases h with (((h | h | h) | h | h) | h | h) | h | h
  · exact Or.inr (List.mem_of_mem_take h)
  · exact Or.inl h
  · exact Or.inr (ht _ _ h)
  · exact Or.inl h
  · exact Or.inr (ht _ _ h)
  · exact Or.inl h
  · exact Or.inr (ht _ _ h)
  · exact Or.inl h
  · exact Or.inr (List.mem_of_mem_drop h)

theorem canonical_hyphenate {k n : ℕ} {c : Char} (h : c ∈ hyphenate (hexDigits k n)) :
    Canonical c := by
  rcases mem_hyphenate h with rfl | h
  · unfold Canonical
    decide
  · exact (mem_hexDigits h).1

theorem removeAll_of_notMem {p : Char} {ps cs : List Char} (h : p ∉ cs) :
    removeAll (p :: ps) 0 cs = cs := by
  induction cs with
  | nil => rfl
  | cons c cs ih =>
    obtain ⟨hc, hcs⟩ : p ≠ c ∧ p ∉ cs := by simpa only [List.mem_cons, not_or] using h
    have hp : (p :: ps).isPrefixOf (c :: cs) = false := by
      simp only [List.isPrefixOf, beq_eq_false_iff_ne.mpr hc, Bool.false_and]
    rw [removeAll, hp, if_neg Bool.false_ne_true, ih hcs]

theorem filter_hyphenate {hex : List Char} (h : ∀ c ∈ hex, c ≠ '-') :
    (hyphenate hex).filter (· ≠ '-') = hex := by
  have hf : ∀ cs : List Char, cs ⊆ hex → cs.filter (· ≠ '-') = cs := fun cs hcs =>
    List.filter_eq_self.mpr fun c hc => decide_eq_true (h c (hcs hc))
  have hd : ∀ i, hex.drop i ⊆ hex := fun i _ hc => List.mem_of_mem_drop hc
  have ht : ∀ i j, (hex.drop i).take j ⊆ hex := fun i j _ hc => hd i (List.mem_of_mem_take hc)
  simp only [hyphenate, List.filter_append, List.filter_cons_of_neg, ne_eq, not_true_eq_false,
    decide_false, Bool.false_eq_true, not_false_eq_true]
  simp only [← ne_eq]
  rw [hf _ (ht 8 4), hf _ (ht 12 4), hf _ (ht 16 4), hf _ (hd 20),
    hf _ fun _ hc => List.mem_of_mem_take hc]
  have hjoin : ∀ i j, (hex.drop i).take j ++ hex.drop (i + j) = hex.drop i := fun i j => by
    rw [← List.drop_drop, List.take_append_drop]
  simp only [List.append_assoc, hjoin 16 4, hjoin 12 4, hjoin 8 4, List.take_append_drop]

theorem parse_str (u : Uuid) : parse u.str = some u := by
  have hcan := fun c (h : c ∈ hyphenate (hexDigits 32 u.int)) => canonical_hyphenate h
  have hu : 'u' ∉ hyphenate (hexDigits 32 u.int) := fun h => (hcan _ h).1 rfl
  have hl : (hyphenate (hexDigits 32 u.int)).dropWhile isBrace = hyphenate (hexDigits 32 u.int) :=
    List.dropWhile_eq_self_iff.mpr fun hpos => by simp [(hcan _ (List.getElem_mem hpos)).2]
  have hr : (hyphenate (hexDigits 32 u.int)).rdropWhile isBrace = hyphenate (hexDigits 32 u.int) :=
    List.rdropWhile_eq_self_iff.mpr fun hne => by simp [(hcan _ (List.getLast_mem hne)).2]
  have hf := filter_hyphenate fun c (hc : c ∈ hexDigits 32 u.int) => (mem_hexDigits hc).2
  have hurn : "urn:".toList = 'u' :: "rn:".toList := by decide
  have huuid : "uuid:".toList = 'u' :: "uid:".toList := by decide
  have hmod : u.int % 16 ^ (31 + 1) = u.int := Nat.mod_eq_of_lt (by simpa using u.lt)
  have hrange : (0 : ℤ) ≤ u.int ∧ (u.int : ℤ).toNat < 2 ^ 128 := ⟨Int.natCast_nonneg _, u.lt⟩
  simp only [parse, str, String.toList_ofList, hurn, huuid, removeAll_of_notMem hu, hl, hr, hf,
    length_hexDigits, ne_eq, not_true_eq_false, if_false, parseHex_hexDigits 31, hmod,
    Option.bind_some, dif_pos hrange]
  rfl

theorem str_injective : Function.Injective str := fun u v h =>
  Option.some.inj ((parse_str u).symm.trans ((congrArg parse h).trans (parse_str v)))

@[simp] theorem str_inj {u v : Uuid} : u.str = v.str ↔ u = v := str_injective.eq_iff

example : parse "{0000000A-0000-0000-0000-0000000000ff}" =
    some ⟨0xa0000000000000000000000ff, by decide⟩ := by decide +kernel

example : parse "urn:uuid:+0x_0000000000000000000000000_a\n" = some ⟨10, by decide⟩ := by
  decide +kernel

end Uuid

/-- The argument type `str | UUID` of the repositories and services. -/
inductive Ident where
  | str (text : String)
  | uuid (value : Uuid)
deriving DecidableEq

/-- `str(identifier)` -/
def Ident.toStr : Ident → String
  | .str text => text
  | .uuid value => value.str

instance : ToString Ident := ⟨Ident.toStr⟩

/-- `_as_uuid`, the same in every service; `none` is the `ValueError`. -/
def Ident.asUuid : Ident → Option Uuid
  | .str text => Uuid.parse text
  | .uuid value => some value

@[simp] theorem Ident.asUuid_uuid (u : Uuid) : (Ident.uuid u).asUuid = some u := rfl

@[simp] theorem Ident.asUuid_str (u : Uuid) : (Ident.str u.str).asUuid = some u := Uuid.parse_str u

end CoffeeBuddy

import CoffeeBuddy.Library.FormData

/-! JSON text of flat objects: names with a string or null. The writer escapes everything
outside printable ASCII, in UTF-16 units; the reader takes any JSON text of such an object,
escapes or not, with blanks between its tokens. -/

namespace JsonText

/-! ### UTF-16 -/

/-- The units of a character: one, or a surrogate pair. -/
def utf16 (c : Char) : List ℕ :=
  if c.toNat < 0x10000 then [c.toNat]
  else [0xd800 + (c.toNat - 0x10000) / 0x400, 0xdc00 + (c.toNat - 0x10000) % 0x400]

def high (u : ℕ) : Prop := 0xd800 ≤ u ∧ u < 0xdc00

def low (u : ℕ) : Prop := 0xdc00 ≤ u ∧ u < 0xe000

instance (u : ℕ) : Decidable (high u) := inferInstanceAs (Decidable (_ ∧ _))

instance (u : ℕ) : Decidable (low u) := inferInstanceAs (Decidable (_ ∧ _))

/-- The text of the units; `none` where a surrogate stands alone. -/
def ofUnits : List ℕ → Option (List Char)
  | [] => some []
  | [u] => if high u ∨ low u then none else some [.ofNat u]
  | u :: v :: us =>
    if high u then
      if low v then (ofUnits us).map (.ofNat (0x10000 + (u - 0xd800) * 0x400 + (v - 0xdc00)) :: ·)
      else none
    else if low u then none else (ofUnits (v :: us)).map (.ofNat u :: ·)

theorem ofUnits_plain {u : ℕ} (hhigh : ¬high u) (hlow : ¬low u) (us : List ℕ) :
    ofUnits (u :: us) = (ofUnits us).map (.ofNat u :: ·) := by
  cases us with
  | nil =>
    have hnot : ¬(high u ∨ low u) := not_or.mpr ⟨hhigh, hlow⟩
    simp only [ofUnits, if_neg hnot, Option.map_some]
  | cons v us => rw [ofUnits, if_neg hhigh, if_neg hlow]

theorem ofUnits_pair {u v : ℕ} (hu : high u) (hv : low v) (us : List ℕ) :
    ofUnits (u :: v :: us) =
      (ofUnits us).map (.ofNat (0x10000 + (u - 0xd800) * 0x400 + (v - 0xdc00)) :: ·) := by
  rw [ofUnits, if_pos hu, if_pos hv]

theorem toNat_range (c : Char) : c.toNat < 0xd800 ∨ 0xdfff < c.toNat ∧ c.toNat < 0x110000 :=
  c.valid

theorem ofUnits_utf16 (c : Char) (us : List ℕ) :
    ofUnits (utf16 c ++ us) = (ofUnits us).map (c :: ·) := by
  have hrange := toNat_range c
  unfold utf16
  split_ifs with hsmall
  · have hhigh : ¬high c.toNat := by
      unfold high
      omega
    have hlow : ¬low c.toNat := by
      unfold low
      omega
    rw [List.singleton_append, ofUnits_plain hhigh hlow, Char.ofNat_toNat]
  · have hhigh : high (0xd800 + (c.toNat - 0x10000) / 0x400) := by
      unfold high
      omega
    have hlow : low (0xdc00 + (c.toNat - 0x10000) % 0x400) := by
      unfold low
      omega
    have hcode : 0x10000 + (0xd800 + (c.toNat - 0x10000) / 0x400 - 0xd800) * 0x400 +
        (0xdc00 + (c.toNat - 0x10000) % 0x400 - 0xdc00) = c.toNat := by
      omega
    rw [List.cons_append, List.singleton_append, ofUnits_pair hhigh hlow, hcode, Char.ofNat_toNat]

theorem ofUnits_flatMap (cs : List Char) : ofUnits (cs.flatMap utf16) = some cs := by
  induction cs with
  | nil => rfl
  | cons c cs ih => rw [List.flatMap_cons, ofUnits_utf16, ih, Option.map_some]

theorem mem_utf16 {c : Char} {u : ℕ} (h : u ∈ utf16 c) : u < 0x10000 := by
  have hrange := toNat_range c
  unfold utf16 at h
  split_ifs at h with hsmall
  · rw [List.mem_singleton] at h
    exact h ▸ hsmall
  · simp only [List.mem_cons, List.not_mem_nil, or_false] at h
    omega

/-! ### Writing -/

/-- `\uXXXX` -/
def unicode (u : ℕ) : List Char :=
  ['\\', 'u', Nat.digitChar (u / 0x1000 % 16), Nat.digitChar (u / 0x100 % 16),
    Nat.digitChar (u / 16 % 16), Nat.digitChar (u % 16)]

/-- The characters with an escape of two characters, and its second one. -/
def short : List (Char × Char) :=
  [('"', '"'), ('\\', '\\'), ('\x08', 'b'), ('\x0c', 'f'), ('\n', 'n'), ('\r', 'r'), ('\t', 't')]

def printable (c : Char) : Prop := ' ' ≤ c ∧ c ≤ '~'

instance (c : Char) : Decidable (printable c) := inferInstanceAs (Decidable (_ ∧ _))

def escape (c : Char) : List Char :=
  match short.lookup c with
  | some e => ['\\', e]
  | none => if printable c then [c] else (utf16 c).flatMap unicode

def quote (cs : List Char) : List Char := '"' :: (cs.flatMap escape ++ ['"'])

def value : Option (List Char) → List Char
  | none => ['n', 'u', 'l', 'l']
  | some cs => quote cs

abbrev Member := List Char × Option (List Char)

def member (m : Member) : List Char := quote m.1 ++ ':' :: value m.2

/-- `json.dumps(members, separators=(",", ":"))` -/
def dumps (ms : List Member) : List Char := '{' :: ([','].intercalate (ms.map member) ++ ['}'])

/-! ### Reading -/

def blank (c : Char) : Bool := [' ', '\t', '\n', '\r'].contains c

def skip (cs : List Char) : List Char := cs.dropWhile blank

/-- The second characters of escapes, and what they stand for. -/
def unescape (e : Char) : Option ℕ :=
  ([('"', '"'), ('\\', '\\'), ('/', '/'), ('b', '\x08'), ('f', '\x0c'), ('n', '\n'), ('r', '\r'),
    ('t', '\t')].lookup e).map Char.toNat

def hex4 (a b c d : Char) : Option ℕ := do
  let a ← FormData.hexValue a
  let b ← FormData.hexValue b
  let c ← FormData.hexValue c
  let d ← FormData.hexValue d
  return a * 0x1000 + b * 0x100 + c * 16 + d

/-- The units of a string up to its closing quote, and what follows that. -/
def scan : List Char → Option (List ℕ × List Char)
  | [] => none
  | '\\' :: 'u' :: a :: b :: c :: d :: cs =>
    (hex4 a b c d).bind fun u => (scan cs).map fun r => (u :: r.1, r.2)
  | '\\' :: e :: cs => (unescape e).bind fun u => (scan cs).map fun r => (u :: r.1, r.2)
  | c :: cs =>
    if c = '"' then some ([], cs)
    else if c.toNat < 32 then none
    else (scan cs).map fun r => (utf16 c ++ r.1, r.2)

def readString : List Char → Option (List Char × List Char)
  | '"' :: cs => (scan cs).bind fun r => (ofUnits r.1).map fun text => (text, r.2)
  | _ => none

def readValue : List Char → Option (Option (List Char) × List Char)
  | 'n' :: 'u' :: 'l' :: 'l' :: cs => some (none, cs)
  | cs => (readString cs).map fun r => (some r.1, r.2)

/-- One member, and what follows it after blanks. -/
def readMember (cs : List Char) : Option (Member × List Char) :=
  (readString (skip cs)).bind fun name =>
    match skip name.2 with
    | ':' :: rest => (readValue (skip rest)).map fun v => ((name.1, v.1), skip v.2)
    | _ => none

/-- The members up to the closing brace; each takes one unit of fuel. -/
def readMembers : ℕ → List Char → Option (List Member × List Char)
  | 0, _ => none
  | fuel + 1, cs => (readMember cs).bind fun m =>
    match m.2 with
    | '}' :: rest => some ([m.1], rest)
    | ',' :: rest => (readMembers fuel rest).map fun r => (m.1 :: r.1, r.2)
    | _ => none

/-- A whole text. -/
def loads (cs : List Char) : Option (List Member) :=
  match skip cs with
  | '{' :: rest =>
    match skip rest with
    | '}' :: rest => if skip rest = [] then some [] else none
    | body => (readMembers body.length body).bind fun r => if skip r.2 = [] then some r.1 else none
  | _ => none

example : loads "\x7b \"a\" : \"\\ud83d\\ude00\\/\\u00E9é\", \"b\":null\x7d\n".toList =
    some [(['a'], some ['😀', '/', 'é', 'é']), (['b'], none)] := by decide +kernel

example : dumps [(['a'], some ['😀', '"', '\x0b']), (['b'], none)] =
    "\x7b\"a\":\"\\ud83d\\ude00\\\"\\u000b\",\"b\":null\x7d".toList := by decide +kernel

/-! ### Round trip -/

section RoundTrip
variable {c : Char} {cs rest : List Char} {u : ℕ} {m : Member} {ms : List Member}

theorem hexValue_lower {n : ℕ} (h : n < 16) : FormData.hexValue (Nat.digitChar n) = some n := by
  have hall : ∀ n < 16, FormData.hexValue (Nat.digitChar n) = some n := by decide
  exact hall n h

theorem scan_unicode (h : u < 0x10000) (cs : List Char) :
    scan (unicode u ++ cs) = (scan cs).map fun r => (u :: r.1, r.2) := by
  have hmod : ∀ n : ℕ, n % 16 < 16 := fun n => Nat.mod_lt n (by decide)
  have hunit :
      u / 0x1000 % 16 * 0x1000 + u / 0x100 % 16 * 0x100 + u / 16 % 16 * 16 + u % 16 = u := by
    omega
  have hhex : hex4 (Nat.digitChar (u / 0x1000 % 16)) (Nat.digitChar (u / 0x100 % 16))
      (Nat.digitChar (u / 16 % 16)) (Nat.digitChar (u % 16)) = some u := by
    unfold hex4
    rw [hexValue_lower (hmod _), hexValue_lower (hmod _), hexValue_lower (hmod _),
      hexValue_lower (hmod _)]
    exact congrArg some hunit
  simp only [unicode, List.cons_append, List.nil_append, scan]
  rw [hhex, Option.bind_some]

theorem scan_units {us : List ℕ} (h : ∀ u ∈ us, u < 0x10000) (cs : List Char) :
    scan (us.flatMap unicode ++ cs) = (scan cs).map fun r => (us ++ r.1, r.2) := by
  induction us with
  | nil => exact Option.map_id'.symm ▸ rfl
  | cons u us ih =>
    have hu : u < 0x10000 := h u List.mem_cons_self
    have hus : ∀ v ∈ us, v < 0x10000 := fun v hv => h v (List.mem_cons_of_mem u hv)
    rw [List.flatMap_cons, List.append_assoc, scan_unicode hu, ih hus, Option.map_map]
    rfl

theorem scan_escaped {e : Char} (hne : e ≠ 'u') (he : unescape e = some u) (cs : List Char) :
    scan ('\\' :: e :: cs) = (scan cs).map fun r => (u :: r.1, r.2) := by
  have hshort : scan ('\\' :: e :: cs) =
      (unescape e).bind fun u => (scan cs).map fun r => (u :: r.1, r.2) := by
    rw [scan]
    rintro a b c d ds rfl
    exact absurd rfl hne
  rw [hshort, he, Option.bind_some]

theorem scan_plain (hquote : c ≠ '"') (hescape : c ≠ '\\') (hlow : 32 ≤ c.toNat)
    (cs : List Char) : scan (c :: cs) = (scan cs).map fun r => (utf16 c ++ r.1, r.2) := by
  have hstep : scan (c :: cs) =
      if c = '"' then some ([], cs) else if c.toNat < 32 then none
      else (scan cs).map fun r => (utf16 c ++ r.1, r.2) := by
    rw [scan]
    · intro a b d e ds heq
      exact absurd heq hescape
    · intro e ds heq
      exact absurd heq hescape
  rw [hstep, if_neg hquote, if_neg (Nat.not_lt.mpr hlow)]

theorem scan_quote (cs : List Char) : scan ('"' :: cs) = some ([], cs) := by
  rw [scan, if_pos rfl]
  · intro a b c d ds heq
    exact absurd heq (by decide)
  · intro e ds heq
    exact absurd heq (by decide)

theorem mem_short {e : Char} (h : short.lookup c = some e) : (c, e) ∈ short := by
  obtain ⟨l, l', hsplit, -⟩ := List.lookup_eq_some_iff.mp h
  rw [hsplit]
  exact List.mem_append_right l List.mem_cons_self

theorem unescape_short {e : Char} (h : short.lookup c = some e) :
    e ≠ 'u' ∧ unescape e = some c.toNat ∧ utf16 c = [c.toNat] := by
  have hall : ∀ p ∈ short,
      p.2 ≠ 'u' ∧ unescape p.2 = some p.1.toNat ∧ utf16 p.1 = [p.1.toNat] := by
    decide
  exact hall (c, e) (mem_short h)

theorem scan_escape (c : Char) (cs : List Char) :
    scan (escape c ++ cs) = (scan cs).map fun r => (utf16 c ++ r.1, r.2) := by
  unfold escape
  cases hshort : short.lookup c with
  | some e =>
    have hfacts := unescape_short hshort
    rw [List.cons_append, List.singleton_append, scan_escaped hfacts.1 hfacts.2.1, hfacts.2.2]
    rfl
  | none =>
    have hnot : ∀ p ∈ short, c ≠ p.1 := fun p hp =>
      bne_iff_ne.mp (List.lookup_eq_none_iff.mp hshort p hp)
    have hquote : c ≠ '"' := hnot ('"', '"') (by decide)
    have hescape : c ≠ '\\' := hnot ('\\', '\\') (by decide)
    dsimp only
    split_ifs with hprintable
    · have hlow : 32 ≤ c.toNat := UInt32.le_iff_toNat_le.mp hprintable.1
      exact scan_plain hquote hescape hlow cs
    · exact scan_units (fun u hu => mem_utf16 hu) cs

theorem scan_flatMap (cs rest : List Char) :
    scan (cs.flatMap escape ++ '"' :: rest) = some (cs.flatMap utf16, rest) := by
  induction cs with
  | nil => exact scan_quote rest
  | cons c cs ih =>
    rw [List.flatMap_cons, List.append_assoc, scan_escape, ih, Option.map_some, List.flatMap_cons]

theorem readString_quote (cs rest : List Char) :
    readString (quote cs ++ rest) = some (cs, rest) := by
  have hscan := scan_flatMap cs rest
  have hunits := ofUnits_flatMap cs
  rw [quote, List.cons_append, List.append_assoc, List.singleton_append, readString, hscan]
  rw [Option.bind_some, hunits, Option.map_some]

theorem readValue_value (v : Option (List Char)) (rest : List Char) :
    readValue (value v ++ rest) = some (v, rest) := by
  cases v with
  | none => rfl
  | some cs =>
    have hstring := readString_quote cs rest
    have hread : readValue (quote cs ++ rest) =
        (readString (quote cs ++ rest)).map fun r => (some r.1, r.2) := rfl
    rw [value, hread, hstring, Option.map_some]

/-- A token stands where blanks may be skipped. -/
theorem skip_quote (cs rest : List Char) : skip (quote cs ++ rest) = quote cs ++ rest := rfl

theorem skip_value (v : Option (List Char)) (rest : List Char) :
    skip (value v ++ rest) = value v ++ rest := by
  cases v <;> rfl

theorem readMember_member (m : Member) (rest : List Char) :
    readMember (member m ++ rest) = some (m, skip rest) := by
  have hname := readString_quote m.1 (':' :: (value m.2 ++ rest))
  have hcolon : skip (':' :: (value m.2 ++ rest)) = ':' :: (value m.2 ++ rest) := rfl
  rw [readMember, member, List.append_assoc, List.cons_append, skip_quote, hname, Option.bind_some,
    hcolon]
  show (readValue (skip (value m.2 ++ rest))).map (fun v => ((m.1, v.1), skip v.2)) = _
  rw [skip_value, readValue_value, Option.map_some]

theorem members_cons (m n : Member) (ms : List Member) :
    [','].intercalate ((m :: n :: ms).map member) =
      member m ++ ',' :: [','].intercalate ((n :: ms).map member) := by
  simp [List.intercalate]

theorem members_singleton (m : Member) : [','].intercalate ([m].map member) = member m :=
  List.intercalate_singleton

theorem readMembers_members {fuel : ℕ} (hfuel : ms.length ≤ fuel) (hne : ms ≠ [])
    (rest : List Char) :
    readMembers fuel ([','].intercalate (ms.map member) ++ '}' :: rest) = some (ms, rest) := by
  induction ms generalizing fuel with
  | nil => exact absurd rfl hne
  | cons m ms ih =>
    cases fuel with
    | zero => exact absurd hfuel (Nat.not_succ_le_zero _)
    | succ fuel =>
      cases ms with
      | nil =>
        have hread := readMember_member m ('}' :: rest)
        rw [members_singleton, readMembers, hread]
        rfl
      | cons n ms =>
        have hread := readMember_member m
          (',' :: ([','].intercalate ((n :: ms).map member) ++ '}' :: rest))
        have hrest := ih (Nat.le_of_succ_le_succ hfuel) (List.cons_ne_nil n ms)
        rw [members_cons, List.append_assoc, List.cons_append, readMembers, hread, Option.bind_some]
        show (readMembers fuel _).map _ = _
        rw [hrest, Option.map_some]

theorem length_members : ms.length ≤ ([','].intercalate (ms.map member)).length := by
  induction ms with
  | nil => exact Nat.le_refl 0
  | cons m ms ih =>
    cases ms with
    | nil => simp [List.intercalate, member, quote]
    | cons n ms =>
      rw [members_cons, List.length_append, List.length_cons, List.length_cons]
      exact Nat.le_trans (Nat.succ_le_succ ih) (Nat.le_add_left _ _)

/-- Any members are read back from their text. -/
theorem loads_dumps (ms : List Member) : loads (dumps ms) = some ms := by
  have hopen : skip (dumps ms) = dumps ms := rfl
  rw [loads, hopen, dumps]
  cases ms with
  | nil => rfl
  | cons m ms =>
    have hfuel : (m :: ms).length ≤
        ([','].intercalate ((m :: ms).map member) ++ ['}']).length := by
      rw [List.length_append]
      exact Nat.le_trans length_members (Nat.le_add_right _ _)
    have hread := readMembers_members hfuel (List.cons_ne_nil m ms) []
    have hquote : ∃ text, [','].intercalate ((m :: ms).map member) ++ ['}'] = '"' :: text := by
      cases ms with
      | nil => exact ⟨_, rfl⟩
      | cons n ms => exact ⟨_, rfl⟩
    obtain ⟨text, htext⟩ := hquote
    rw [htext] at hread ⊢
    show (readMembers ('"' :: text).length ('"' :: text)).bind _ = _
    rw [hread, Option.bind_some]
    rfl

end RoundTrip

/-! ### Printable ASCII -/

section Printable
variable {c : Char} {cs : List Char}

theorem printable_digitChar {n : ℕ} (h : n < 16) : printable (Nat.digitChar n) := by
  have hall : ∀ n < 16, printable (Nat.digitChar n) := by decide
  exact hall n h

theorem printable_unicode (u : ℕ) : ∀ c ∈ unicode u, printable c := by
  have hmod : ∀ n : ℕ, printable (Nat.digitChar (n % 16)) := fun n =>
    printable_digitChar (Nat.mod_lt n (by decide))
  simp only [unicode, List.forall_mem_cons]
  exact ⟨by decide, by decide, hmod _, hmod _, hmod _, hmod _, by simp⟩

theorem printable_escape (c : Char) : ∀ d ∈ escape c, printable d := by
  unfold escape
  cases hshort : short.lookup c with
  | some e =>
    have hall : ∀ p ∈ short, printable p.2 := by decide
    simp only [List.forall_mem_cons]
    exact ⟨by decide, hall (c, e) (mem_short hshort), by simp⟩
  | none =>
    dsimp only
    split_ifs with hprintable
    · exact List.forall_mem_singleton.mpr hprintable
    · intro d hd
      obtain ⟨u, -, hu⟩ := List.mem_flatMap.mp hd
      exact printable_unicode u d hu

theorem printable_quote (cs : List Char) : ∀ d ∈ quote cs, printable d := by
  rw [quote, List.forall_mem_cons, List.forall_mem_append, List.forall_mem_singleton]
  refine ⟨by decide, fun d hd => ?_, by decide⟩
  obtain ⟨c, -, hc⟩ := List.mem_flatMap.mp hd
  exact printable_escape c d hc

theorem printable_value (v : Option (List Char)) : ∀ d ∈ value v, printable d := by
  cases v with
  | none =>
    simp only [value, List.forall_mem_cons]
    exact ⟨by decide, by decide, by decide, by decide, List.forall_mem_nil _⟩
  | some cs => exact printable_quote cs

theorem printable_member (m : Member) : ∀ d ∈ member m, printable d := by
  rw [member, List.forall_mem_append, List.forall_mem_cons]
  exact ⟨printable_quote m.1, by decide, printable_value m.2⟩

theorem printable_members (ms : List Member) :
    ∀ d ∈ [','].intercalate (ms.map member), printable d := by
  induction ms with
  | nil => exact fun d hd => absurd hd List.not_mem_nil
  | cons m ms ih =>
    cases ms with
    | nil =>
      rw [members_singleton]
      exact printable_member m
    | cons n ms =>
      rw [members_cons, List.forall_mem_append, List.forall_mem_cons]
      exact ⟨printable_member m, by decide, ih⟩

/-- A text of members has neither control characters nor anything beyond ASCII. -/
theorem printable_dumps (ms : List Member) : ∀ d ∈ dumps ms, printable d := by
  rw [dumps, List.forall_mem_cons, List.forall_mem_append, List.forall_mem_singleton]
  exact ⟨by decide, printable_members ms, by decide⟩

end Printable
end JsonText

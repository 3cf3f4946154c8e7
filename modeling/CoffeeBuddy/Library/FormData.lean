import Mathlib.Data.List.Basic
import Mathlib.Data.List.Forall2

/-! Percent-encoded text and forms. A text is written with escapes of the bytes of its UTF-8
encoding; a reader turns the escapes back into bytes and these into characters, with a
replacement character for what is not UTF-8. -/

namespace FormData

/-! ### UTF-8 with replacement -/

def between (low high b : UInt8) : Bool := low ≤ b && b ≤ high

/-- The number of bytes after a first byte, and the range of the next one. -/
def lead (b : UInt8) : Option (ℕ × UInt8 × UInt8) :=
  if between 0xc2 0xdf b then some (1, 0x80, 0xbf)
  else if b = 0xe0 then some (2, 0xa0, 0xbf)
  else if b = 0xed then some (2, 0x80, 0x9f)
  else if between 0xe1 0xef b then some (2, 0x80, 0xbf)
  else if b = 0xf0 then some (3, 0x90, 0xbf)
  else if between 0xf1 0xf3 b then some (3, 0x80, 0xbf)
  else if b = 0xf4 then some (3, 0x80, 0x8f)
  else none

/-- How many bytes of a malformed start are replaced together: those that a well-formed
sequence could begin with, and at least one. -/
def malformed (b : UInt8) (bs : List UInt8) : ℕ :=
  match lead b, bs with
  | some (n, low, high), c :: cs =>
    if between low high c then 2 + ((cs.take (n - 1)).takeWhile (between 0x80 0xbf)).length else 1
  | _, _ => 1

/-- `bytes.decode('utf-8', 'replace')`; `skip` bytes of a sequence are still to be dropped. -/
def decodeFrom : ℕ → List UInt8 → List Char
  | _, [] => []
  | skip + 1, _ :: bs => decodeFrom skip bs
  | 0, b :: bs =>
    match (b :: bs).toByteArray.utf8DecodeChar? 0 with
    | some c => c :: decodeFrom (c.utf8Size - 1) bs
    | none => '\ufffd' :: decodeFrom (malformed b bs - 1) bs

def decode (bs : List UInt8) : List Char := decodeFrom 0 bs

example : decode [0x61, 0xc3, 0xa9, 0xe2, 0x82, 0x62, 0xed, 0xa0, 0x80] =
    ['a', 'é', '\ufffd', 'b', '\ufffd', '\ufffd', '\ufffd'] := by decide +kernel

def encode (cs : List Char) : List UInt8 := cs.flatMap String.utf8EncodeChar

theorem encode_append (cs ds : List Char) : encode (cs ++ ds) = encode cs ++ encode ds :=
  List.flatMap_append

theorem decodeFrom_append (bs : List UInt8) (rest : List UInt8) :
    decodeFrom bs.length (bs ++ rest) = decodeFrom 0 rest := by
  induction bs with
  | nil => rfl
  | cons b bs ih => exact ih

theorem decode_encode (cs : List Char) : decode (encode cs) = cs := by
  induction cs with
  | nil => rfl
  | cons c cs ih =>
    have hdecode : (encode (c :: cs)).toByteArray.utf8DecodeChar? 0 = some c := by
      rw [encode, List.flatMap_cons, List.toByteArray_append]
      exact ByteArray.utf8DecodeChar?_utf8EncodeChar_append
    have hlength : (String.utf8EncodeChar c).length = c.utf8Size := String.length_utf8EncodeChar c
    unfold encode at hdecode ⊢
    rw [List.flatMap_cons] at hdecode ⊢
    cases hbytes : String.utf8EncodeChar c with
    | nil =>
      rw [hbytes, List.length_nil] at hlength
      exact absurd hlength (Nat.ne_of_lt c.utf8Size_pos)
    | cons b bs =>
      rw [hbytes, List.length_cons] at hlength
      rw [hbytes, List.cons_append] at hdecode
      rw [List.cons_append, decode, decodeFrom, hdecode]
      dsimp only
      rw [← hlength, Nat.add_sub_cancel, decodeFrom_append]
      exact congrArg (List.cons c) ih

theorem encode_ascii {c : Char} (h : c.toNat < 128) : String.utf8EncodeChar c = [c.toUInt8] := by
  apply String.utf8EncodeChar_eq_singleton
  apply Char.utf8Size_eq_one_iff.mpr
  exact UInt32.le_iff_toNat_le.mpr (Nat.le_of_lt_succ h)

/-! ### Reading escapes -/

def hexValue (c : Char) : Option ℕ :=
  if '0' ≤ c ∧ c ≤ '9' then some (c.toNat - 48)
  else if 'a' ≤ c ∧ c ≤ 'f' then some (c.toNat - 87)
  else if 'A' ≤ c ∧ c ≤ 'F' then some (c.toNat - 55)
  else none

/-- `unquote_to_bytes` of ASCII; a `%` without two digits stays. -/
def unquoteToBytes : List Char → List UInt8
  | [] => []
  | '%' :: h :: l :: cs =>
    match hexValue h, hexValue l with
    | some m, some n => UInt8.ofNat (16 * m + n) :: unquoteToBytes cs
    | _, _ => '%'.toUInt8 :: unquoteToBytes (h :: l :: cs)
  | c :: cs => c.toUInt8 :: unquoteToBytes cs

/-- `unquote`: each run of ASCII is unquoted and decoded, other characters stay. -/
def unquoteFrom : List Char → List Char → List Char
  | run, [] => decode (unquoteToBytes run)
  | run, c :: cs =>
    if c.toNat < 128 then unquoteFrom (run ++ [c]) cs
    else decode (unquoteToBytes run) ++ c :: unquoteFrom [] cs

def unquote (cs : List Char) : List Char := unquoteFrom [] cs

/-- `cs.replace('+', ' ')` -/
def spaced (cs : List Char) : List Char := cs.map fun c => if c = '+' then ' ' else c

/-- `unquote_plus` -/
def unquotePlus (cs : List Char) : List Char := unquote (spaced cs)

/-! ### Texts and their codings -/

/-- The escapes of the bytes, the digits in either case. -/
inductive Escaped : List UInt8 → List Char → Prop
  | nil : Escaped [] []
  | cons {b : UInt8} {bs : List UInt8} {h l : Char} {cs : List Char} :
      hexValue h = some (b.toNat / 16) → hexValue l = some (b.toNat % 16) → Escaped bs cs →
      Escaped (b :: bs) ('%' :: h :: l :: cs)

/-- A coding of a text. A character stands for itself unless it is reserved, a space may be a
`+`, and every character may be the escapes of its bytes. -/
inductive Codes (reserved : Char → Prop) : List Char → List Char → Prop
  | nil : Codes reserved [] []
  | plain {c : Char} {cs ds : List Char} : c ≠ '%' → c ≠ '+' → ¬reserved c → Codes reserved cs ds →
      Codes reserved (c :: cs) (c :: ds)
  | space {cs ds : List Char} : Codes reserved cs ds → Codes reserved (' ' :: cs) ('+' :: ds)
  | escaped {c : Char} {cs ds es : List Char} : Escaped (String.utf8EncodeChar c) es →
      Codes reserved cs ds → Codes reserved (c :: cs) (es ++ ds)

section Escapes
variable {bs : List UInt8} {cs es run : List Char} {c : Char} {n : ℕ}

theorem toNat_of_hexValue (h : hexValue c = some n) :
    48 ≤ c.toNat ∧ c.toNat ≤ 57 ∨ 65 ≤ c.toNat ∧ c.toNat ≤ 102 := by
  have hle : ∀ {a b : Char}, a ≤ b → a.toNat ≤ b.toNat := UInt32.le_iff_toNat_le.mp
  unfold hexValue at h
  split_ifs at h with hdigit hlower hupper
  · exact Or.inl ⟨hle hdigit.1, hle hdigit.2⟩
  · exact Or.inr ⟨Nat.le_trans (by decide) (hle hlower.1), hle hlower.2⟩
  · exact Or.inr ⟨hle hupper.1, Nat.le_trans (hle hupper.2) (by decide)⟩

theorem ne_of_hexValue (h : hexValue c = some n) {d : Char} (hd : d.toNat < 48 ∨ d.toNat = 61) :
    c ≠ d := by
  rintro rfl
  have hrange := toNat_of_hexValue h
  omega

/-- A character of an escape. -/
theorem Escaped.mem (h : Escaped bs es) (hc : c ∈ es) :
    c = '%' ∨ ∃ n, hexValue c = some n := by
  induction h with
  | nil => exact absurd hc List.not_mem_nil
  | cons hh hl _ ih =>
    simp only [List.mem_cons] at hc
    rcases hc with rfl | rfl | rfl | hc
    · exact Or.inl rfl
    · exact Or.inr ⟨_, hh⟩
    · exact Or.inr ⟨_, hl⟩
    · exact ih hc

theorem Escaped.ascii (h : Escaped bs es) (hc : c ∈ es) : c.toNat < 128 := by
  rcases h.mem hc with rfl | ⟨n, hn⟩
  · decide
  · have hrange := toNat_of_hexValue hn
    omega

theorem Escaped.notMem (h : Escaped bs es) (hne : c ≠ '%') (hc : c.toNat < 48 ∨ c.toNat = 61) :
    c ∉ es := by
  intro hmem
  rcases h.mem hmem with rfl | ⟨n, hn⟩
  · exact hne rfl
  · exact ne_of_hexValue hn hc rfl

theorem unquoteToBytes_escaped (h : Escaped bs es) (cs : List Char) :
    unquoteToBytes (es ++ cs) = bs ++ unquoteToBytes cs := by
  induction h with
  | nil => rfl
  | @cons b bs d e es hd he _ ih =>
    have hbyte : UInt8.ofNat (16 * (b.toNat / 16) + b.toNat % 16) = b := by
      rw [Nat.div_add_mod, UInt8.ofNat_toNat]
    simp only [List.cons_append, unquoteToBytes, hd, he]
    rw [hbyte, ih]

theorem unquoteToBytes_plain (hc : c ≠ '%') (cs : List Char) :
    unquoteToBytes (c :: cs) = c.toUInt8 :: unquoteToBytes cs := by
  rw [unquoteToBytes]
  rintro h l ds rfl
  exact absurd rfl hc

theorem spaced_eq_self (h : '+' ∉ cs) : spaced cs = cs := by
  unfold spaced
  conv_rhs => rw [← List.map_id cs]
  apply List.map_congr_left
  intro c hc
  have hne : c ≠ '+' := fun heq => h (heq ▸ hc)
  rw [if_neg hne, id]

theorem spaced_append (cs ds : List Char) : spaced (cs ++ ds) = spaced cs ++ spaced ds :=
  List.map_append

theorem unquoteFrom_ascii (h : ∀ c ∈ es, c.toNat < 128) :
    unquoteFrom run (es ++ cs) = unquoteFrom (run ++ es) cs := by
  induction es generalizing run with
  | nil => rw [List.nil_append, List.append_nil]
  | cons c es ih =>
    have hc : c.toNat < 128 := h c List.mem_cons_self
    rw [List.cons_append, unquoteFrom, if_pos hc, ih fun d hd => h d (List.mem_cons_of_mem c hd),
      List.append_assoc, List.singleton_append]

end Escapes

/-! ### Reading a coding -/

/-- Whatever follows it, the run stands for the text `pre`. -/
def Complete (run pre : List Char) : Prop :=
  ∀ cs, unquoteToBytes (run ++ cs) = encode pre ++ unquoteToBytes cs

section Codes
variable {reserved : Char → Prop} {cs ds run pre : List Char} {c : Char} {n : ℕ}

theorem Complete.nil : Complete [] [] := fun _ => rfl

theorem Complete.decode (h : Complete run pre) : decode (unquoteToBytes run) = pre := by
  have hbytes : unquoteToBytes (run ++ []) = encode pre ++ unquoteToBytes [] := h []
  rw [List.append_nil, unquoteToBytes, List.append_nil] at hbytes
  rw [hbytes, decode_encode]

theorem Complete.snoc (h : Complete run pre) {es : List Char}
    (hes : ∀ cs, unquoteToBytes (es ++ cs) = String.utf8EncodeChar c ++ unquoteToBytes cs) :
    Complete (run ++ es) (pre ++ [c]) := by
  intro cs
  have hsingle : encode [c] = String.utf8EncodeChar c := List.append_nil _
  rw [List.append_assoc, h, hes, encode_append, hsingle, List.append_assoc]

theorem Complete.plain (h : Complete run pre) (hc : c ≠ '%') (hascii : c.toNat < 128) :
    Complete (run ++ [c]) (pre ++ [c]) := by
  apply h.snoc
  intro cs
  rw [encode_ascii hascii]
  exact unquoteToBytes_plain hc cs

theorem unquoteFrom_plain (h : Complete run pre) (hc : c ≠ '%')
    (hrest : ∀ run pre, Complete run pre → unquoteFrom run ds = pre ++ cs) :
    unquoteFrom run (c :: ds) = pre ++ c :: cs := by
  rw [unquoteFrom]
  split_ifs with hascii
  · rw [hrest _ _ (h.plain hc hascii), List.append_assoc, List.singleton_append]
  · rw [h.decode, hrest _ _ .nil, List.nil_append]

theorem Codes.unquoteFrom (h : Codes reserved cs ds) {run pre : List Char}
    (hrun : Complete run pre) : unquoteFrom run (spaced ds) = pre ++ cs := by
  induction h generalizing run pre with
  | nil => rw [List.append_nil]; exact hrun.decode
  | @plain c cs ds hpercent hplus _ _ ih =>
    have hspaced : spaced (c :: ds) = c :: spaced ds := by
      rw [spaced, List.map_cons, if_neg hplus, spaced]
    rw [hspaced]
    exact unquoteFrom_plain hrun hpercent fun run pre => ih
  | space _ ih => exact unquoteFrom_plain hrun (by decide) fun run pre => ih
  | @escaped c cs ds es hes _ ih =>
    rw [spaced_append, spaced_eq_self (hes.notMem (by decide) (by decide)),
      unquoteFrom_ascii fun d hd => hes.ascii hd,
      ih (hrun.snoc (unquoteToBytes_escaped hes)), List.append_assoc, List.singleton_append]

theorem Codes.unquotePlus (h : Codes reserved cs ds) : unquotePlus ds = cs := h.unquoteFrom .nil

/-- A separator is not in a coding that reserves it. -/
theorem Codes.notMem (h : Codes reserved cs ds) (hc : reserved c) (hpercent : c ≠ '%')
    (hplus : c ≠ '+') (hlow : c.toNat < 48 ∨ c.toNat = 61) : c ∉ ds := by
  induction h with
  | nil => exact List.not_mem_nil
  | plain _ _ hfree _ ih =>
    rw [List.mem_cons, not_or]
    exact ⟨fun heq => hfree (heq ▸ hc), ih⟩
  | space _ ih =>
    rw [List.mem_cons, not_or]
    exact ⟨hplus, ih⟩
  | escaped hes _ ih =>
    rw [List.mem_append, not_or]
    exact ⟨hes.notMem hpercent hlow, ih⟩

theorem Codes.eq_nil_iff (h : Codes reserved cs ds) : ds = [] ↔ cs = [] := by
  cases h with
  | nil => exact iff_of_true rfl rfl
  | plain | space => exact iff_of_false (List.cons_ne_nil _ _) (List.cons_ne_nil _ _)
  | @escaped c cs ds es hes _ =>
    refine iff_of_false (fun hnil => ?_) (List.cons_ne_nil _ _)
    obtain ⟨rfl, -⟩ := List.append_eq_nil_iff.mp hnil
    have hlength := String.length_utf8EncodeChar c
    cases hbytes : String.utf8EncodeChar c with
    | nil =>
      rw [hbytes, List.length_nil] at hlength
      exact absurd hlength (Nat.ne_of_lt c.utf8Size_pos)
    | cons b bs =>
      rw [hbytes] at hes
      exact nomatch hes

/-! ### Writing a coding -/

def hexDigit (n : ℕ) : Char := if n < 10 then .ofNat (48 + n) else .ofNat (55 + n)

def escape (b : UInt8) : List Char := ['%', hexDigit (b.toNat / 16), hexDigit (b.toNat % 16)]

/-- The characters that are never escaped. -/
def safe (c : Char) : Bool := c.isAlphanum || ['_', '.', '-', '~'].contains c

/-- `quote_plus` -/
def quotePlus (cs : List Char) : List Char := cs.flatMap fun c =>
  if safe c then [c] else if c = ' ' then ['+'] else (String.utf8EncodeChar c).flatMap escape

theorem hexValue_hexDigit (h : n < 16) : hexValue (hexDigit n) = some n := by
  have hall : ∀ n < 16, hexValue (hexDigit n) = some n := by decide
  exact hall n h

theorem escaped_flatMap (bs : List UInt8) : Escaped bs (bs.flatMap escape) := by
  induction bs with
  | nil => exact .nil
  | cons b bs ih =>
    have hlt : b.toNat < 16 * 16 := b.toNat_lt
    exact .cons (hexValue_hexDigit (Nat.div_lt_of_lt_mul hlt))
      (hexValue_hexDigit (Nat.mod_lt _ (by decide))) ih

/-- A writer that reserves unsafe characters only. -/
theorem quotePlus_codes (h : ∀ c, safe c → ¬reserved c) (cs : List Char) :
    Codes reserved cs (quotePlus cs) := by
  induction cs with
  | nil => exact .nil
  | cons c cs ih =>
    rw [quotePlus, List.flatMap_cons]
    split_ifs with hsafe hspace
    · have hpercent : c ≠ '%' := fun heq => absurd hsafe (heq ▸ by decide)
      have hplus : c ≠ '+' := fun heq => absurd hsafe (heq ▸ by decide)
      exact .plain hpercent hplus (h c hsafe) ih
    · rw [hspace]
      exact .space ih
    · exact .escaped (escaped_flatMap _) ih

end Codes

/-! ### Forms -/

/-- The field of a `name=value`; one without a value is dropped. -/
def field (text : List Char) : Option (List Char × List Char) :=
  if '=' ∈ text then
    let value := (text.dropWhile (· ≠ '=')).tail
    if value = [] then none
    else some (unquotePlus (text.takeWhile (· ≠ '=')), unquotePlus value)
  else none

/-- `parse_qsl` -/
def parseQsl (text : List Char) : List (List Char × List Char) :=
  (text.splitOn '&').filterMap field

/-- A coding of a name and a value. -/
def CodesField (f : List Char × List Char) (text : List Char) : Prop :=
  ∃ name value, Codes (fun c => c = '&' ∨ c = '=') f.1 name ∧ Codes (fun c => c = '&') f.2 value ∧
    text = name ++ '=' :: value

section Fields
variable {f : List Char × List Char} {text : List Char} {fields : List (List Char × List Char)}
  {texts : List (List Char)}

theorem CodesField.field (h : CodesField f text) :
    field text = if f.2 = [] then none else some f := by
  obtain ⟨name, value, hname, hvalue, rfl⟩ := h
  have hfree : '=' ∉ name := hname.notMem (Or.inr rfl) (by decide) (by decide) (by decide)
  have hplain : ∀ c ∈ name, decide (c ≠ '=') = true := fun c hc =>
    decide_eq_true fun heq => hfree (heq ▸ hc)
  have htake : (name ++ '=' :: value).takeWhile (· ≠ '=') = name := by
    rw [List.takeWhile_append_of_pos hplain, List.takeWhile_cons_of_neg (by decide), List.append_nil]
  have hdrop : (name ++ '=' :: value).dropWhile (· ≠ '=') = '=' :: value := by
    rw [List.dropWhile_append_of_pos hplain, List.dropWhile_cons_of_neg (by decide)]
  unfold FormData.field
  rw [if_pos (List.mem_append_right _ List.mem_cons_self), htake, hdrop, List.tail_cons]
  simp only [hname.unquotePlus, hvalue.unquotePlus, hvalue.eq_nil_iff]

theorem CodesField.notMem (h : CodesField f text) : '&' ∉ text := by
  obtain ⟨name, value, hname, hvalue, rfl⟩ := h
  rw [List.mem_append, List.mem_cons, not_or, not_or]
  exact ⟨hname.notMem (Or.inl rfl) (by decide) (by decide) (by decide), by decide,
    hvalue.notMem rfl (by decide) (by decide) (by decide)⟩

theorem notMem_of_codes (h : List.Forall₂ CodesField fields texts) : ∀ t ∈ texts, '&' ∉ t := by
  induction h with
  | nil => exact fun t ht => absurd ht List.not_mem_nil
  | cons hf _ ih => exact List.forall_mem_cons.mpr ⟨hf.notMem, ih⟩

theorem filterMap_field (h : List.Forall₂ CodesField fields texts) :
    texts.filterMap FormData.field = fields.filter fun f => f.2 ≠ [] := by
  induction h with
  | nil => rfl
  | @cons f text fields texts hf _ ih =>
    rw [List.filterMap_cons, List.filter_cons, hf.field, ih]
    by_cases hempty : f.2 = []
    · rw [if_pos hempty, if_neg (by simp [hempty])]
    · rw [if_neg hempty, if_pos (by simp [hempty])]

/-- A form is read back without its empty fields, whatever coding was chosen. -/
theorem parseQsl_codes (h : List.Forall₂ CodesField fields texts) :
    parseQsl (['&'].intercalate texts) = fields.filter fun f => f.2 ≠ [] := by
  cases h with
  | nil => rfl
  | @cons f text fields texts hf hrest =>
    have hall : List.Forall₂ CodesField (f :: fields) (text :: texts) := .cons hf hrest
    rw [parseQsl, List.splitOn_intercalate '&' (notMem_of_codes hall) (List.cons_ne_nil _ _)]
    exact filterMap_field hall

/-- `urlencode` -/
def urlencode (fields : List (List Char × List Char)) : List Char :=
  ['&'].intercalate (fields.map fun f => quotePlus f.1 ++ '=' :: quotePlus f.2)

theorem urlencode_codes (fields : List (List Char × List Char)) : List.Forall₂ CodesField fields
    (fields.map fun f => quotePlus f.1 ++ '=' :: quotePlus f.2) := by
  have hfree : ∀ c, safe c → ¬(c = '&' ∨ c = '=') := by
    rintro c hc (rfl | rfl) <;> exact absurd hc (by decide)
  rw [List.forall₂_map_right_iff]
  refine List.forall₂_same.mpr fun f _ => ?_
  exact ⟨_, _, quotePlus_codes hfree f.1, quotePlus_codes (fun c hc h => hfree c hc (Or.inl h)) f.2,
    rfl⟩

end Fields
end FormData

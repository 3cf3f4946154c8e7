import CoffeeBuddy.Library.FormData
import CoffeeBuddy.Library.Numeral

/-! `str.strip`, `int(text)` and `int(text, 16)`: the blanks around a text, the decimal digits of
Unicode and the limit on their number, which base 16 does not have. -/

namespace CoffeeBuddy

/-- The characters `str.strip()` removes. -/
def isSpace (c : Char) : Bool :=
  let n := c.toNat
  (9 ≤ n && n ≤ 13) || (28 ≤ n && n ≤ 32) || n = 0x85 || n = 0xa0 || n = 0x1680 ||
    (0x2000 ≤ n && n ≤ 0x200a) || n = 0x2028 || n = 0x2029 || n = 0x202f || n = 0x205f ||
    n = 0x3000

def strip (text : String) : String :=
  String.ofList ((text.toList.dropWhile isSpace).rdropWhile isSpace)

/-- The zeros of the decimal digits; the other nine follow each. -/
def decimalZeros : List ℕ :=
  [0x30, 0x660, 0x6f0, 0x7c0, 0x966, 0x9e6, 0xa66, 0xae6, 0xb66, 0xbe6, 0xc66, 0xce6, 0xd66,
   0xde6, 0xe50, 0xed0, 0xf20, 0x1040, 0x1090, 0x17e0, 0x1810, 0x1946, 0x19d0, 0x1a80, 0x1a90,
   0x1b50, 0x1bb0, 0x1c40, 0x1c50, 0xa620, 0xa8d0, 0xa900, 0xa9d0, 0xa9f0, 0xaa50, 0xabf0,
   0xff10, 0x104a0, 0x10d30, 0x11066, 0x110f0, 0x11136, 0x111d0, 0x112f0, 0x11450, 0x114d0,
   0x11650, 0x116c0, 0x11730, 0x118e0, 0x11950, 0x11c50, 0x11d50, 0x11da0, 0x11f50, 0x16a60,
   0x16ac0, 0x16b50, 0x1d7ce, 0x1d7d8, 0x1d7e2, 0x1d7ec, 0x1d7f6, 0x1e140, 0x1e2f0, 0x1e4f0,
   0x1e950, 0x1fbf0]

def decimal (c : Char) : Option ℕ :=
  (decimalZeros.find? fun z => z ≤ c.toNat && c.toNat ≤ z + 9).map fun z =>
    c.toNat - z

/-- What `int` skips at both ends: all that `str.strip` does but the separators 28 to 31. -/
def isBlank (c : Char) : Bool := isSpace c && !(28 ≤ c.toNat && c.toNat ≤ 31)

def maxStrDigits : ℕ := 4300

/-- `int(text)`; `none` is the `ValueError`. -/
def parseInt (text : String) : Option ℤ := Numeral.parse isBlank decimal maxStrDigits text.toList

def hexDigit (c : Char) : Option ℕ := (FormData.hexValue c).or (decimal c)

/-- `int(text, 16)`; `none` is the `ValueError`. -/
def parseHex (cs : List Char) : Option ℤ := Numeral.parseHex isBlank hexDigit cs

theorem colon_notMem_of_parseInt {text : String} {n : ℤ} (h : parseInt text = some n) :
    ':' ∉ text.toList := by
  intro hc
  have hother : isBlank ':' = false ∧ decimal ':' = none := by decide
  rcases Numeral.mem_parse h hc with hb | hc | hc | hc | hd
  · rw [hother.1] at hb
    exact Bool.false_ne_true hb
  · exact absurd hc (by decide)
  · exact absurd hc (by decide)
  · exact absurd hc (by decide)
  · rw [hother.2] at hd
    exact Bool.false_ne_true hd

example : parseInt " +٣_4\u3000" = some 34 := by decide +kernel

example : parseHex " +٠X_1_fF\u3000".toList = some 511 := by decide +kernel

end CoffeeBuddy

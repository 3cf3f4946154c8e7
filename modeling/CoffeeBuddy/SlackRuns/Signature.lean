import CoffeeBuddy.Data.Errors
import Mathlib.Algebra.Order.Ring.Rat

/-! `SlackSignatureVerifier`: the headers and the body of a request, as they come in, against
the clock and the digest. HMAC-SHA256 is a parameter, a function of the key and the message. -/

namespace CoffeeBuddy

/-- What `verify` can raise; the message is that of a `SlackVerificationError`. -/
inductive VerifyError where
  | slackVerification (message : String)
  | valueError | overflowError | unicodeDecodeError | typeError
deriving DecidableEq

/-- The secret is kept encoded. -/
structure SlackSignatureVerifier where
  secret : ByteArray
  tolerance : ℤ

/-- Integers from here on have no nearest `float`. -/
def floatOverflow : ℕ := 2 ^ 1024 - 2 ^ 970

/-- `abs(time.time() - int(timestamp))`. The difference of readings less than 2^31 seconds apart
is exact. -/
def elapsed (now : ℚ) (timestamp : String) : Except VerifyError ℚ :=
  match parseInt timestamp with
  | none => .error .valueError
  | some n => if n.natAbs < floatOverflow then .ok |now - n| else .error .overflowError

def isAscii (text : String) : Bool := text.toList.all fun c => c.toNat < 128

/-- `hmac.compare_digest` of two texts. -/
def compareDigest (a b : String) : Except VerifyError Bool :=
  if isAscii a && isAscii b then .ok (a = b) else .error .typeError

/-- `bytes.hex` -/
def hexdigest (digest : List UInt8) : String :=
  String.ofList (digest.flatMap fun b => Uuid.hexDigits 2 b.toNat)

/-- The signed text; `none` is the `UnicodeDecodeError` of the body. -/
def baseString (timestamp : String) (body : ByteArray) : Option ByteArray :=
  (String.fromUTF8? body).map fun text => ("v0:" ++ timestamp ++ ":" ++ text).toUTF8

namespace SlackSignatureVerifier

def init (signingSecret : String) (toleranceSeconds : ℤ := 300) : SlackSignatureVerifier :=
  ⟨signingSecret.toUTF8, toleranceSeconds⟩

variable (v : SlackSignatureVerifier) (hmac : ByteArray → ByteArray → List UInt8)

def computeSignature (timestamp : String) (body : ByteArray) : Except VerifyError String :=
  match baseString timestamp body with
  | none => .error .unicodeDecodeError
  | some message => .ok ("v0=" ++ hexdigest (hmac v.secret message))

/-- An absent header and an empty one are both falsy. -/
def verify (now : ℚ) (timestamp signature : Option String) (body : ByteArray) :
    Except VerifyError Unit := do
  let timestamp := timestamp.getD ""
  let signature := signature.getD ""
  if timestamp = "" ∨ signature = "" then
    throw (.slackVerification "Missing Slack signature headers.")
  else
    let age ← elapsed now timestamp
    if v.tolerance < age then throw (.slackVerification "Stale Slack request timestamp.")
    else
      let expectedSignature ← v.computeSignature hmac timestamp body
      let same ← compareDigest expectedSignature signature
      if same then return () else throw (.slackVerification "Slack signature mismatch.")

end SlackSignatureVerifier

/-- What the route makes of the check. -/
inductive Authentication where
  | accepted
  | httpException (statusCode : ℕ) (detail : String)
  | raised (error : VerifyError)
deriving DecidableEq

/-- `handle_slack_command` around `verify`. -/
def authenticate : Except VerifyError Unit → Authentication
  | .ok () => .accepted
  | .error (.slackVerification message) => .httpException 401 message
  | .error e => .raised e

/-! ### Texts and bytes -/

theorem append_inj_of_notMem {α : Type} {c : α} {as bs xs ys : List α} (ha : c ∉ as) (hb : c ∉ bs)
    (h : as ++ c :: xs = bs ++ c :: ys) : as = bs ∧ xs = ys := by
  induction as generalizing bs with
  | nil =>
    cases bs with
    | nil => exact ⟨rfl, List.tail_eq_of_cons_eq h⟩
    | cons b bs =>
      obtain rfl : c = b := List.head_eq_of_cons_eq h
      exact absurd List.mem_cons_self hb
  | cons a as ih =>
    cases bs with
    | nil =>
      obtain rfl : a = c := List.head_eq_of_cons_eq h
      exact absurd List.mem_cons_self ha
    | cons b bs =>
      rw [List.mem_cons, not_or] at ha hb
      obtain ⟨has, hxs⟩ := ih ha.2 hb.2 (List.tail_eq_of_cons_eq h)
      exact ⟨congrArg₂ List.cons (List.head_eq_of_cons_eq h) has, hxs⟩

theorem fromUTF8?_eq_some {body : ByteArray} {text : String} :
    String.fromUTF8? body = some text ↔ text.toUTF8 = body := by
  unfold String.fromUTF8?
  split_ifs with hvalid
  · rw [Option.some.injEq]
    constructor
    · rintro rfl
      rfl
    · intro h
      exact String.toByteArray_inj.mp h.symm
  · refine iff_of_false not_false ?_
    rintro rfl
    exact hvalid text.isValidUTF8

theorem baseString_eq_some {timestamp : String} {body message : ByteArray} :
    baseString timestamp body = some message ↔ ∃ text : String, text.toUTF8 = body ∧
      message = ("v0:" ++ timestamp ++ ":" ++ text).toUTF8 := by
  simp only [baseString, Option.map_eq_some_iff, fromUTF8?_eq_some, eq_comm (b := message)]

theorem isAscii_append (a b : String) : isAscii (a ++ b) = (isAscii a && isAscii b) := by
  unfold isAscii
  rw [String.toList_append, List.all_append]

theorem isAscii_hexdigest (digest : List UInt8) : isAscii (hexdigest digest) = true := by
  have hdigit : ∀ d < 16, (Nat.digitChar d).toNat < 128 := by decide
  unfold isAscii hexdigest
  rw [String.toList_ofList]
  refine List.all_eq_true.mpr fun c hc => decide_eq_true ?_
  obtain ⟨b, -, hc⟩ := List.mem_flatMap.mp hc
  obtain ⟨d, hd, rfl⟩ := Uuid.exists_digitChar hc
  exact hdigit d hd

theorem hexDigits_injective {b c : UInt8}
    (h : Uuid.hexDigits 2 b.toNat = Uuid.hexDigits 2 c.toNat) : b = c := by
  have hint := congrArg parseHex h
  rw [Uuid.parseHex_hexDigits, Uuid.parseHex_hexDigits, Option.some.injEq, Nat.cast_inj] at hint
  have hb : b.toNat < 16 ^ 2 := b.toNat_lt
  have hc : c.toNat < 16 ^ 2 := c.toNat_lt
  rw [Nat.mod_eq_of_lt hb, Nat.mod_eq_of_lt hc] at hint
  exact UInt8.toNat_inj.mp hint

theorem hexDigits_append_ne_nil (n : ℕ) (cs : List Char) : Uuid.hexDigits 2 n ++ cs ≠ [] := by
  intro h
  have hlength := congrArg List.length h
  rw [List.length_append, Uuid.length_hexDigits, List.length_nil] at hlength
  omega

theorem hexdigest_injective {d e : List UInt8} (h : hexdigest d = hexdigest e) : d = e := by
  have hdigits : (d.flatMap fun b => Uuid.hexDigits 2 b.toNat) =
      e.flatMap fun b => Uuid.hexDigits 2 b.toNat := String.ofList_injective h
  clear h
  induction d generalizing e with
  | nil =>
    cases e with
    | nil => rfl
    | cons c e =>
      rw [List.flatMap_cons] at hdigits
      exact absurd hdigits.symm (hexDigits_append_ne_nil _ _)
  | cons b d ih =>
    cases e with
    | nil =>
      rw [List.flatMap_cons] at hdigits
      exact absurd hdigits (hexDigits_append_ne_nil _ _)
    | cons c e =>
      rw [List.flatMap_cons, List.flatMap_cons] at hdigits
      have hlength : (Uuid.hexDigits 2 b.toNat).length = (Uuid.hexDigits 2 c.toNat).length := by
        rw [Uuid.length_hexDigits, Uuid.length_hexDigits]
      obtain ⟨hfirst, hrest⟩ := List.append_inj hdigits hlength
      rw [hexDigits_injective hfirst, ih hrest]

theorem compareDigest_expected (digest : List UInt8) (s : String) :
    compareDigest ("v0=" ++ hexdigest digest) s =
      if isAscii s then .ok (decide ("v0=" ++ hexdigest digest = s)) else .error .typeError := by
  have hexpected : isAscii ("v0=" ++ hexdigest digest) = true := by
    rw [isAscii_append, isAscii_hexdigest, Bool.and_true]
    decide
  rw [compareDigest, hexpected, Bool.true_and]

/-! ### The outcomes of the check -/

namespace SlackSignatureVerifier
variable {v : SlackSignatureVerifier} {hmac : ByteArray → ByteArray → List UInt8} {now : ℚ}
  {timestamp signature : Option String} {t s : String} {body : ByteArray} {n : ℤ}

theorem elapsed_of_none (hn : parseInt t = none) : elapsed now t = .error .valueError := by
  rw [elapsed, hn]

theorem elapsed_of_small (hn : parseInt t = some n) (hsmall : n.natAbs < floatOverflow) :
    elapsed now t = .ok |now - n| := by
  simp only [elapsed, hn, if_pos hsmall]

theorem elapsed_of_large (hn : parseInt t = some n) (hlarge : ¬n.natAbs < floatOverflow) :
    elapsed now t = .error .overflowError := by
  simp only [elapsed, hn, if_neg hlarge]

theorem verify_missing (h : timestamp.getD "" = "" ∨ signature.getD "" = "") :
    v.verify hmac now timestamp signature body =
      .error (.slackVerification "Missing Slack signature headers.") := by
  unfold verify
  rw [if_pos h]
  rfl

theorem verify_present (ht : t ≠ "") (hs : s ≠ "") :
    v.verify hmac now (some t) (some s) body = (elapsed now t).bind fun age =>
      if v.tolerance < age then .error (.slackVerification "Stale Slack request timestamp.")
      else (v.computeSignature hmac t body).bind fun expected =>
        (compareDigest expected s).bind fun same =>
          if same then .ok () else .error (.slackVerification "Slack signature mismatch.") := by
  unfold verify
  rw [Option.getD_some, Option.getD_some, if_neg (not_or.mpr ⟨ht, hs⟩)]
  rfl

/-- What the outcome turns on, the inputs in the order in which they are looked at. -/
inductive Outcome (v : SlackSignatureVerifier) (hmac : ByteArray → ByteArray → List UInt8) (now : ℚ)
    (t s : String) (body : ByteArray) : Except VerifyError Unit → Prop
  | notInteger : parseInt t = none → Outcome v hmac now t s body (.error .valueError)
  | tooLarge (n : ℤ) : parseInt t = some n → floatOverflow ≤ n.natAbs →
      Outcome v hmac now t s body (.error .overflowError)
  | stale (n : ℤ) : parseInt t = some n → n.natAbs < floatOverflow → v.tolerance < |now - n| →
      Outcome v hmac now t s body (.error (.slackVerification "Stale Slack request timestamp."))
  | notUtf8 (n : ℤ) : parseInt t = some n → n.natAbs < floatOverflow → |now - n| ≤ v.tolerance →
      String.fromUTF8? body = none → Outcome v hmac now t s body (.error .unicodeDecodeError)
  | notAscii (n : ℤ) (text : String) : parseInt t = some n → n.natAbs < floatOverflow →
      |now - n| ≤ v.tolerance → String.fromUTF8? body = some text → isAscii s = false →
      Outcome v hmac now t s body (.error .typeError)
  | compared (n : ℤ) (text : String) : parseInt t = some n → n.natAbs < floatOverflow →
      |now - n| ≤ v.tolerance → String.fromUTF8? body = some text → isAscii s = true →
      Outcome v hmac now t s body
        (if "v0=" ++ hexdigest (hmac v.secret ("v0:" ++ t ++ ":" ++ text).toUTF8) = s then .ok ()
        else .error (.slackVerification "Slack signature mismatch."))

theorem outcome_verify (ht : t ≠ "") (hs : s ≠ "") :
    Outcome v hmac now t s body (v.verify hmac now (some t) (some s) body) := by
  rw [verify_present ht hs]
  -- the cases come in the order of the checks
  cases hn : parseInt t with
  | none =>
    rw [elapsed_of_none hn]
    exact .notInteger hn
  | some n =>
    by_cases hsmall : n.natAbs < floatOverflow
    · rw [elapsed_of_small hn hsmall]
      show Outcome v hmac now t s body (if _ then _ else _)
      by_cases hstale : v.tolerance < |now - n|
      · rw [if_pos hstale]
        exact .stale n hn hsmall hstale
      rw [if_neg hstale]
      have hfresh := le_of_not_gt hstale
      cases hbody : String.fromUTF8? body with
      | none =>
        have hcompute : v.computeSignature hmac t body = .error .unicodeDecodeError := by
          simp only [computeSignature, baseString, hbody, Option.map_none]
        rw [hcompute]
        exact .notUtf8 n hn hsmall hfresh hbody
      | some text =>
        have hcompute : v.computeSignature hmac t body = .ok ("v0=" ++
            hexdigest (hmac v.secret ("v0:" ++ t ++ ":" ++ text).toUTF8)) := by
          simp only [computeSignature, baseString, hbody, Option.map_some]
        rw [hcompute]
        show Outcome v hmac now t s body ((compareDigest _ s).bind _)
        rw [compareDigest_expected]
        cases hs : isAscii s with
        | false => exact .notAscii n text hn hsmall hfresh hbody hs
        | true =>
          have hcompared : Outcome v hmac now t s body _ :=
            .compared n text hn hsmall hfresh hbody hs
          by_cases hsame : "v0=" ++ hexdigest (hmac v.secret ("v0:" ++ t ++ ":" ++ text).toUTF8) = s
          · rw [if_pos hsame] at hcompared
            rw [decide_eq_true hsame]
            exact hcompared
          · rw [if_neg hsame] at hcompared
            rw [decide_eq_false hsame]
            exact hcompared
    · rw [elapsed_of_large hn hsmall]
      exact .tooLarge n hn (not_lt.mp hsmall)

end SlackSignatureVerifier
end CoffeeBuddy

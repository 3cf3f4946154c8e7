import CoffeeBuddy.SlackRuns.Signature

/-! What the signature check promises. It accepts what is signed and fresh; what it cannot
read it refuses with exceptions the route does not expect. The signed text determines the
timestamp and the body. -/

namespace CoffeeBuddy
open SlackSignatureVerifier

section Check
variable (v : SlackSignatureVerifier) (hmac : ByteArray → ByteArray → List UInt8) (now : ℚ)
  (timestamp signature : Option String) (body : ByteArray)

/-- Both headers are there, the timestamp is an integer near the clock, and the signature is
that of the timestamp and the body. -/
def Authentic : Prop := ∃ t s n text, timestamp = some t ∧ signature = some s ∧ t ≠ "" ∧ s ≠ "" ∧
  parseInt t = some n ∧ |now - n| ≤ v.tolerance ∧ String.fromUTF8? body = some text ∧
  s = "v0=" ++ hexdigest (hmac v.secret ("v0:" ++ t ++ ":" ++ text).toUTF8)

/-- `verify` returns on an authentic request, and on any other raises the one exception that
the route turns into 401. -/
def TwoOutcomes : Prop :=
  (v.verify hmac now timestamp signature body = .ok () ↔
    Authentic v hmac now timestamp signature body) ∧
  (¬Authentic v hmac now timestamp signature body → ∃ message,
    v.verify hmac now timestamp signature body = .error (.slackVerification message) ∧
    authenticate (v.verify hmac now timestamp signature body) = .httpException 401 message)

/-- A header is missing, or the timestamp is an integer with a nearest float, and a fresh
request has a UTF-8 body and an ASCII signature. -/
def Readable : Prop := timestamp.getD "" = "" ∨ signature.getD "" = "" ∨
  ∃ n, parseInt (timestamp.getD "") = some n ∧ n.natAbs < floatOverflow ∧
    (|now - n| ≤ v.tolerance →
      (String.fromUTF8? body).isSome ∧ isAscii (signature.getD "") = true)

end Check

section Outcomes
variable {v : SlackSignatureVerifier} {hmac : ByteArray → ByteArray → List UInt8} {now : ℚ}
  {timestamp signature : Option String} {t s : String} {body : ByteArray}

theorem authentic_some (ht : t ≠ "") (hs : s ≠ "") :
    Authentic v hmac now (some t) (some s) body ↔ ∃ n text, parseInt t = some n ∧
      |now - n| ≤ v.tolerance ∧ String.fromUTF8? body = some text ∧
      s = "v0=" ++ hexdigest (hmac v.secret ("v0:" ++ t ++ ":" ++ text).toUTF8) := by
  constructor
  · rintro ⟨_, _, n, text, ⟨⟩, ⟨⟩, -, -, hrest⟩
    exact ⟨n, text, hrest⟩
  · rintro ⟨n, text, hrest⟩
    exact ⟨t, s, n, text, rfl, rfl, ht, hs, hrest⟩

theorem not_authentic_missing (h : timestamp.getD "" = "" ∨ signature.getD "" = "") :
    ¬Authentic v hmac now timestamp signature body := by
  rintro ⟨t, s, n, text, rfl, rfl, ht, hs, -⟩
  exact h.elim ht hs

theorem not_twoOutcomes {e : VerifyError}
    (h : v.verify hmac now timestamp signature body = .error e)
    (he : ∀ message, e ≠ .slackVerification message) :
    ¬TwoOutcomes v hmac now timestamp signature body := by
  rintro ⟨hok, hother⟩
  rw [h] at hok hother
  have hnot : ¬Authentic v hmac now timestamp signature body := fun ha => nomatch hok.mpr ha
  obtain ⟨message, hm, -⟩ := hother hnot
  exact he message (Except.error.inj hm)

theorem twoOutcomes_of_refused {message : String}
    (h : v.verify hmac now timestamp signature body = .error (.slackVerification message))
    (hnot : ¬Authentic v hmac now timestamp signature body) :
    TwoOutcomes v hmac now timestamp signature body := by
  refine ⟨iff_of_false (fun hok => ?_) hnot, fun _ => ⟨message, h, ?_⟩⟩
  · rw [h] at hok
    exact nomatch hok
  · rw [h]
    rfl

theorem twoOutcomes_iff_present (ht : t ≠ "") (hs : s ≠ "") :
    TwoOutcomes v hmac now (some t) (some s) body ↔ ∃ n, parseInt t = some n ∧
      n.natAbs < floatOverflow ∧
      (|now - n| ≤ v.tolerance → (String.fromUTF8? body).isSome ∧ isAscii s = true) := by
  have hauthentic : Authentic v hmac now (some t) (some s) body ↔ _ := authentic_some ht hs
  have houtcome : Outcome v hmac now t s body _ := outcome_verify ht hs
  generalize hv : v.verify hmac now (some t) (some s) body = outcome at houtcome
  cases houtcome with
  | notInteger hn =>
    refine iff_of_false (not_twoOutcomes hv fun _ => VerifyError.noConfusion) ?_
    rintro ⟨n, hn', -⟩
    rw [hn] at hn'
    exact nomatch hn'
  | tooLarge n hn hlarge =>
    refine iff_of_false (not_twoOutcomes hv fun _ => VerifyError.noConfusion) ?_
    rintro ⟨n', hn', hsmall, -⟩
    obtain rfl := Option.some.inj (hn.symm.trans hn')
    exact absurd hsmall (not_lt.mpr hlarge)
  | stale n hn hsmall hstale =>
    refine iff_of_true (twoOutcomes_of_refused hv fun ha => ?_) ⟨n, hn, hsmall, fun hfresh => ?_⟩
    · obtain ⟨n', text, hn', hfresh, -⟩ := hauthentic.mp ha
      obtain rfl := Option.some.inj (hn.symm.trans hn')
      exact absurd hfresh (not_le.mpr hstale)
    · exact absurd hfresh (not_le.mpr hstale)
  | notUtf8 n hn hsmall hfresh hbody =>
    refine iff_of_false (not_twoOutcomes hv fun _ => VerifyError.noConfusion) ?_
    rintro ⟨n', hn', -, hread⟩
    obtain rfl := Option.some.inj (hn.symm.trans hn')
    have hsome := (hread hfresh).1
    rw [hbody] at hsome
    exact Bool.false_ne_true hsome
  | notAscii n text hn hsmall hfresh hbody hascii =>
    refine iff_of_false (not_twoOutcomes hv fun _ => VerifyError.noConfusion) ?_
    rintro ⟨n', hn', -, hread⟩
    obtain rfl := Option.some.inj (hn.symm.trans hn')
    have htrue := (hread hfresh).2
    rw [hascii] at htrue
    exact Bool.false_ne_true htrue
  | compared n text hn hsmall hfresh hbody hascii =>
    have hsigned : Authentic v hmac now (some t) (some s) body ↔
        "v0=" ++ hexdigest (hmac v.secret ("v0:" ++ t ++ ":" ++ text).toUTF8) = s := by
      rw [hauthentic]
      constructor
      · rintro ⟨_, text', -, -, hbody', hs⟩
        obtain rfl := Option.some.inj (hbody.symm.trans hbody')
        exact hs.symm
      · intro hs
        exact ⟨n, text, hn, hfresh, hbody, hs.symm⟩
    refine iff_of_true ?_ ⟨n, hn, hsmall, fun _ => ⟨Option.isSome_of_eq_some hbody, hascii⟩⟩
    split_ifs at hv with hsame
    · have ha := hsigned.mpr hsame
      exact ⟨iff_of_true hv ha, fun hnot => absurd ha hnot⟩
    · exact twoOutcomes_of_refused hv fun ha => hsame (hsigned.mp ha)

end Outcomes

theorem twoOutcomes_iff_readable (v : SlackSignatureVerifier)
    (hmac : ByteArray → ByteArray → List UInt8) (now : ℚ) (timestamp signature : Option String)
    (body : ByteArray) : TwoOutcomes v hmac now timestamp signature body ↔
      Readable v now timestamp signature body := by
  by_cases hmissing : timestamp.getD "" = "" ∨ signature.getD "" = ""
  · refine iff_of_true ?_ (hmissing.imp_right Or.inl)
    exact twoOutcomes_of_refused (verify_missing hmissing) (not_authentic_missing hmissing)
  · obtain ⟨ht, hs⟩ := not_or.mp hmissing
    cases timestamp with
    | none => exact absurd rfl ht
    | some t =>
      cases signature with
      | none => exact absurd rfl hs
      | some s =>
        have ht : t ≠ "" := ht
        have hs : s ≠ "" := hs
        rw [twoOutcomes_iff_present ht hs]
        unfold Readable
        simp only [Option.getD_some]
        rw [or_iff_right ht, or_iff_right hs]

/-! ### Requests that escape the check -/

namespace Sample

def verifier : SlackSignatureVerifier := .init "test-signing-secret"

/-- A digest of one byte, the first of the message. -/
def digestOf (_ message : ByteArray) : List UInt8 := message.toList.take 1

/-- The clock and a timestamp of its second. -/
def clock : ℚ := 1700000000

def fresh : String := "1700000000"

def googol : String := String.ofList ('1' :: List.replicate 400 '0')

theorem elapsed_googol : elapsed clock googol = .error .overflowError := by
  have hparse : (Numeral.parse isBlank decimal maxStrDigits ('1' :: List.replicate 400 '0')).map
      (fun n => decide (n.natAbs < floatOverflow)) = some false := by decide +kernel
  obtain ⟨n, hn, hlarge⟩ := Option.map_eq_some_iff.mp hparse
  have hint : parseInt googol = some n := by
    unfold parseInt googol
    rw [String.toList_ofList]
    exact hn
  exact elapsed_of_large hint (of_decide_eq_false hlarge)

theorem googol_ne_empty : googol ≠ "" := by
  intro h
  have hlength := congrArg String.length h
  unfold googol at hlength
  rw [String.length_ofList, List.length_cons, String.length_empty] at hlength
  omega

end Sample

open Sample in
/-- A timestamp that is no number, one too large for a float, a signature that is not ASCII and
a body that is not UTF-8. -/
theorem signature_check_escapes :
    ¬TwoOutcomes verifier digestOf clock (some "abc") (some "v0=76") .empty ∧
    ¬TwoOutcomes verifier digestOf clock (some googol) (some "v0=76") .empty ∧
    ¬TwoOutcomes verifier digestOf clock (some fresh) (some "v0=é") .empty ∧
    ¬TwoOutcomes verifier digestOf clock (some fresh) (some "v0=76") ⟨#[255]⟩ := by
  have hnumber : verifier.verify digestOf clock (some "abc") (some "v0=76") .empty =
      .error .valueError := by decide +kernel
  have hlarge : verifier.verify digestOf clock (some googol) (some "v0=76") .empty =
      .error .overflowError := by
    rw [verify_present googol_ne_empty (by decide), elapsed_googol]
    rfl
  have hascii : verifier.verify digestOf clock (some fresh) (some "v0=é") .empty =
      .error .typeError := by decide +kernel
  have hutf8 : verifier.verify digestOf clock (some fresh) (some "v0=76") ⟨#[255]⟩ =
      .error .unicodeDecodeError := by decide +kernel
  exact ⟨not_twoOutcomes hnumber fun _ => VerifyError.noConfusion,
    not_twoOutcomes hlarge fun _ => VerifyError.noConfusion,
    not_twoOutcomes hascii fun _ => VerifyError.noConfusion,
    not_twoOutcomes hutf8 fun _ => VerifyError.noConfusion⟩

open Sample in
example : verifier.verify digestOf clock (some fresh) (some "v0=76") .empty = .ok () := by
  decide +kernel

/-! ### The signed text -/

/-- The text of a number has no colon, so the first one after the version ends it. -/
theorem baseString_injective {t₁ t₂ : String} {n₁ n₂ : ℤ} {b₁ b₂ message : ByteArray}
    (h₁ : parseInt t₁ = some n₁) (h₂ : parseInt t₂ = some n₂) (hm₁ : baseString t₁ b₁ = some message)
    (hm₂ : baseString t₂ b₂ = some message) : t₁ = t₂ ∧ b₁ = b₂ := by
  obtain ⟨text₁, rfl, hbytes₁⟩ := baseString_eq_some.mp hm₁
  obtain ⟨text₂, rfl, hbytes₂⟩ := baseString_eq_some.mp hm₂
  have htext : "v0:" ++ t₁ ++ ":" ++ text₁ = "v0:" ++ t₂ ++ ":" ++ text₂ :=
    String.toByteArray_inj.mp (hbytes₁.symm.trans hbytes₂)
  have hlist : t₁.toList ++ ':' :: text₁.toList = t₂.toList ++ ':' :: text₂.toList := by
    have h := congrArg String.toList htext
    simp only [String.toList_append, List.append_assoc] at h
    exact List.append_cancel_left h
  obtain ⟨ht, htail⟩ := append_inj_of_notMem (colon_notMem_of_parseInt h₁)
    (colon_notMem_of_parseInt h₂) hlist
  rw [String.toList_injective ht, String.toList_injective htail]
  exact ⟨rfl, rfl⟩

theorem signed_of_verify {v : SlackSignatureVerifier} {hmac : ByteArray → ByteArray → List UInt8}
    {now : ℚ} {t s : String} {body : ByteArray}
    (h : v.verify hmac now (some t) (some s) body = .ok ()) :
    ∃ message, baseString t body = some message ∧ s = "v0=" ++ hexdigest (hmac v.secret message) := by
  by_cases hmissing : t = "" ∨ s = ""
  · have hrefused : v.verify hmac now (some t) (some s) body = _ := verify_missing hmissing
    rw [h] at hrefused
    exact nomatch hrefused
  obtain ⟨ht, hs⟩ := not_or.mp hmissing
  have houtcome : Outcome v hmac now t s body _ := outcome_verify ht hs
  rw [h] at houtcome
  generalize hok : (Except.ok () : Except VerifyError Unit) = outcome at houtcome
  cases houtcome with
  | compared n text hn hsmall hfresh hbody hascii =>
    split_ifs at hok with hsame
    · exact ⟨_, baseString_eq_some.mpr ⟨text, fromUTF8?_eq_some.mp hbody, rfl⟩, hsame.symm⟩
  | notInteger | tooLarge | stale | notUtf8 | notAscii => exact nomatch hok

/-- A signature that is accepted with both requests is that of two messages with one digest. -/
theorem signed_once (v : SlackSignatureVerifier) (hmac : ByteArray → ByteArray → List UInt8)
    (t₁ t₂ : String) (b₁ b₂ : ByteArray) (h₁ : (parseInt t₁).isSome) (h₂ : (parseInt t₂).isSome) :
    (∀ message, baseString t₁ b₁ = some message → baseString t₂ b₂ = some message →
      t₁ = t₂ ∧ b₁ = b₂) ∧
    ∀ now₁ now₂ s, v.verify hmac now₁ (some t₁) (some s) b₁ = .ok () →
      v.verify hmac now₂ (some t₂) (some s) b₂ = .ok () → (t₁ = t₂ ∧ b₁ = b₂) ∨
        ∃ m₁ m₂, baseString t₁ b₁ = some m₁ ∧ baseString t₂ b₂ = some m₂ ∧ m₁ ≠ m₂ ∧
          hmac v.secret m₁ = hmac v.secret m₂ := by
  obtain ⟨n₁, hn₁⟩ := Option.isSome_iff_exists.mp h₁
  obtain ⟨n₂, hn₂⟩ := Option.isSome_iff_exists.mp h₂
  refine ⟨fun message => baseString_injective hn₁ hn₂, fun now₁ now₂ s hv₁ hv₂ => ?_⟩
  obtain ⟨m₁, hm₁, hs₁⟩ := signed_of_verify hv₁
  obtain ⟨m₂, hm₂, hs₂⟩ := signed_of_verify hv₂
  by_cases hsame : m₁ = m₂
  · rw [← hsame] at hm₂
    exact Or.inl (baseString_injective hn₁ hn₂ hm₁ hm₂)
  · have hhex := (String.append_right_inj _).mp (hs₁.symm.trans hs₂)
    exact Or.inr ⟨m₁, m₂, hm₁, hm₂, hsame, hexdigest_injective hhex⟩

open Sample in
/-- The boundary between timestamp and body does not move. -/
theorem signed_once_moved :
    (∀ message, baseString "17" "00:text".toUTF8 = some message →
      baseString "1700" "text".toUTF8 = some message →
      "17" = "1700" ∧ "00:text".toUTF8 = "text".toUTF8) ∧
    ∀ now₁ now₂ s, verifier.verify digestOf now₁ (some "17") (some s) "00:text".toUTF8 = .ok () →
      verifier.verify digestOf now₂ (some "1700") (some s) "text".toUTF8 = .ok () →
      ("17" = "1700" ∧ "00:text".toUTF8 = "text".toUTF8) ∨
        ∃ m₁ m₂, baseString "17" "00:text".toUTF8 = some m₁ ∧
          baseString "1700" "text".toUTF8 = some m₂ ∧ m₁ ≠ m₂ ∧
          digestOf verifier.secret m₁ = digestOf verifier.secret m₂ :=
  signed_once verifier digestOf "17" "1700" "00:text".toUTF8 "text".toUTF8 (by decide +kernel)
    (by decide +kernel)

end CoffeeBuddy

import CoffeeBuddy.Data.Calendar

/-! The text of a datetime tells its wall clock reading and its offset: dates are the inverse
of their ordinals, and every field of `isoformat` ends where its digits do. -/

namespace CoffeeBuddy

/-! ### Ordinals -/

/-- `_is_leap` -/
def isLeap (year : ℕ) : Prop := year % 4 = 0 ∧ (year % 100 ≠ 0 ∨ year % 400 = 0)

instance (year : ℕ) : Decidable (isLeap year) := inferInstanceAs (Decidable (_ ∧ _))

/-- `_days_before_year` -/
def daysBeforeYear (year : ℕ) : ℕ :=
  (year - 1) * 365 + (year - 1) / 4 - (year - 1) / 100 + (year - 1) / 400

/-- `_ymd2ord` -/
def Date.toordinal (d : Date) : ℕ :=
  daysBeforeYear d.year + (daysBeforeMonth d.month + if d.month > 2 ∧ isLeap d.year then 1 else 0) +
    d.day

section Ordinals

/-- The day `n` of a year, counted from 0. -/
def dayOfYear (leap : Prop) [Decidable leap] (n : ℕ) : ℕ × ℕ :=
  let month := (n + 50) / 32
  let preceding := daysBeforeMonth month + if month > 2 ∧ leap then 1 else 0
  if preceding > n then
    let days := daysInMonth (month - 1) + if month - 1 = 2 ∧ leap then 1 else 0
    (month - 1, n - (preceding - days) + 1)
  else (month, n - preceding + 1)

theorem dayOfYear_spec (leap : Prop) [Decidable leap] {n : ℕ} (h : n < 365) :
    daysBeforeMonth (dayOfYear leap n).1 + (if (dayOfYear leap n).1 > 2 ∧ leap then 1 else 0) +
      (dayOfYear leap n).2 = n + 1 := by
  by_cases hleap : leap
  · have hall : ∀ n < 365, daysBeforeMonth (dayOfYear True n).1 +
        (if (dayOfYear True n).1 > 2 ∧ True then 1 else 0) + (dayOfYear True n).2 = n + 1 := by
      decide +kernel
    simpa only [dayOfYear, hleap, and_true] using hall n h
  · have hall : ∀ n < 365, daysBeforeMonth (dayOfYear False n).1 +
        (if (dayOfYear False n).1 > 2 ∧ False then 1 else 0) + (dayOfYear False n).2 = n + 1 := by
      decide +kernel
    simpa only [dayOfYear, hleap, and_false] using hall n h

theorem daysBeforeYear_split {a b c d : ℕ} (hb : b < 4) (hc : c < 25) (hd : d < 4) :
    daysBeforeYear (a * 400 + 1 + b * 100 + c * 4 + d) =
      a * 146097 + b * 36524 + c * 1461 + d * 365 := by
  unfold daysBeforeYear
  omega

theorem isLeap_split {a b c d : ℕ} (hb : b < 4) (hc : c < 25) (hd : d < 4) :
    isLeap (a * 400 + 1 + b * 100 + c * 4 + d) ↔ d = 3 ∧ (c ≠ 24 ∨ b = 3) := by
  unfold isLeap
  omega

/-- The last day of a leap year, and of 400 years, is one day too many for its group. -/
theorem fromordinal_last {n a b c d : ℕ} (ha : a = (n - 1) / 146097)
    (hb : b = (n - 1) % 146097 / 36524) (hc : c = (n - 1) % 146097 % 36524 / 1461)
    (hd : d = (n - 1) % 146097 % 36524 % 1461 / 365) (hlast : d = 4 ∨ b = 4) :
    Date.fromordinal n = ⟨a * 400 + 1 + b * 100 + c * 4 + d - 1, 12, 31⟩ := by
  subst ha hb hc hd
  unfold Date.fromordinal
  dsimp only
  rw [if_pos hlast]

theorem fromordinal_within {n a b c d r : ℕ} (ha : a = (n - 1) / 146097)
    (hb : b = (n - 1) % 146097 / 36524) (hc : c = (n - 1) % 146097 % 36524 / 1461)
    (hd : d = (n - 1) % 146097 % 36524 % 1461 / 365)
    (hr : r = (n - 1) % 146097 % 36524 % 1461 % 365) (hlast : ¬(d = 4 ∨ b = 4)) :
    Date.fromordinal n = ⟨a * 400 + 1 + b * 100 + c * 4 + d,
      (dayOfYear (d = 3 ∧ (c ≠ 24 ∨ b = 3)) r).1, (dayOfYear (d = 3 ∧ (c ≠ 24 ∨ b = 3)) r).2⟩ := by
  subst ha hb hc hd hr
  unfold Date.fromordinal dayOfYear
  dsimp only
  rw [if_neg hlast]
  split_ifs <;> rfl

theorem toordinal_within {a b c d r : ℕ} (hb : b < 4) (hc : c < 25) (hd : d < 4) (hr : r < 365) :
    Date.toordinal ⟨a * 400 + 1 + b * 100 + c * 4 + d,
      (dayOfYear (d = 3 ∧ (c ≠ 24 ∨ b = 3)) r).1, (dayOfYear (d = 3 ∧ (c ≠ 24 ∨ b = 3)) r).2⟩ =
      a * 146097 + b * 36524 + c * 1461 + d * 365 + r + 1 := by
  have hday := dayOfYear_spec (d = 3 ∧ (c ≠ 24 ∨ b = 3)) hr
  unfold Date.toordinal
  simp only [daysBeforeYear_split hb hc hd, isLeap_split hb hc hd]
  omega

theorem toordinal_last {a b c : ℕ} (hb : b < 4) (hc : c < 25) (hleap : c ≠ 24 ∨ b = 3) :
    Date.toordinal ⟨a * 400 + 1 + b * 100 + c * 4 + 3, 12, 31⟩ =
      a * 146097 + b * 36524 + c * 1461 + 1461 := by
  have hday : daysBeforeMonth 12 = 334 := rfl
  have hfull : 12 > 2 ∧ isLeap (a * 400 + 1 + b * 100 + c * 4 + 3) :=
    ⟨by decide, (isLeap_split hb hc (by decide)).mpr ⟨rfl, hleap⟩⟩
  unfold Date.toordinal
  simp only [daysBeforeYear_split hb hc (show 3 < 4 by decide), if_pos hfull, hday]

/-- `date.fromordinal(n).toordinal()` -/
theorem toordinal_fromordinal {n : ℕ} (h : 1 ≤ n) : (Date.fromordinal n).toordinal = n := by
  have hparts : ∃ a b c d r, a = (n - 1) / 146097 ∧ b = (n - 1) % 146097 / 36524 ∧
      c = (n - 1) % 146097 % 36524 / 1461 ∧ d = (n - 1) % 146097 % 36524 % 1461 / 365 ∧
      r = (n - 1) % 146097 % 36524 % 1461 % 365 := ⟨_, _, _, _, _, rfl, rfl, rfl, rfl, rfl⟩
  obtain ⟨a, b, c, d, r, ha, hb, hc, hd, hr⟩ := hparts
  have hn : n = a * 146097 + b * 36524 + c * 1461 + d * 365 + r + 1 := by omega
  by_cases hlast : d = 4 ∨ b = 4
  · rw [fromordinal_last ha hb hc hd hlast]
    by_cases hcentury : b = 4
    · have hyear : a * 400 + 1 + b * 100 + c * 4 + d - 1 = a * 400 + 1 + 3 * 100 + 24 * 4 + 3 := by
        omega
      have hordinal := toordinal_last (a := a) (b := 3) (c := 24) (by decide) (by decide)
        (Or.inr rfl)
      rw [hyear, hordinal]
      omega
    · have hyear : a * 400 + 1 + b * 100 + c * 4 + d - 1 = a * 400 + 1 + b * 100 + c * 4 + 3 := by
        omega
      have hfour : b < 4 := by omega
      have hgroup : c < 24 := by omega
      rw [hyear, toordinal_last hfour (Nat.lt_succ_of_lt hgroup) (Or.inl (Nat.ne_of_lt hgroup))]
      omega
  · have hfour : b < 4 := by omega
    have hgroup : c < 25 := by omega
    have hyear : d < 4 := by omega
    have hday : r < 365 := by omega
    rw [fromordinal_within ha hb hc hd hr hlast, toordinal_within hfour hgroup hyear hday, hn]

theorem fromordinal_injective {m n : ℕ} (hm : 1 ≤ m) (hn : 1 ≤ n)
    (h : Date.fromordinal m = Date.fromordinal n) : m = n := by
  have hordinal := congrArg Date.toordinal h
  rw [toordinal_fromordinal hm, toordinal_fromordinal hn] at hordinal
  exact hordinal

end Ordinals

/-! ### Fields of digits -/

/-- What may follow the last digit of a field. -/
def EndsDigits (cs : List Char) : Prop := ∀ c ∈ cs.head?, c.isDigit = false

section Fields
variable {xs ys r s : List Char} {m n t u width width' : ℕ}

theorem digits_append_inj (hx : ∀ c ∈ xs, c.isDigit = true) (hy : ∀ c ∈ ys, c.isDigit = true)
    (hr : EndsDigits r) (hs : EndsDigits s) (h : xs ++ r = ys ++ s) : xs = ys ∧ r = s := by
  induction xs generalizing ys with
  | nil =>
    cases ys with
    | nil => exact ⟨rfl, h⟩
    | cons c ys =>
      have hdigit : c.isDigit = false := hr c (by rw [show r = c :: (ys ++ s) from h]; rfl)
      exact absurd (hy c List.mem_cons_self) (by rw [hdigit]; decide)
  | cons c xs ih =>
    cases ys with
    | nil =>
      have hdigit : c.isDigit = false := hs c (by rw [show s = c :: (xs ++ r) from h.symm]; rfl)
      exact absurd (hx c List.mem_cons_self) (by rw [hdigit]; decide)
    | cons d ys =>
      rw [List.cons_append, List.cons_append, List.cons.injEq] at h
      have hrest := ih (fun e he => hx e (List.mem_cons_of_mem c he))
        (fun e he => hy e (List.mem_cons_of_mem d he)) h.2
      exact ⟨congrArg₂ List.cons h.1 hrest.1, hrest.2⟩

theorem isDigit_padded (width n : ℕ) : ∀ c ∈ (padded width n).toList, c.isDigit = true := by
  intro c hc
  rw [padded, String.toList_ofList, List.leftpad, List.mem_append] at hc
  rcases hc with hc | hc
  · rw [List.eq_of_mem_replicate hc]
    decide
  · exact Nat.isDigit_of_mem_toDigits (by decide) (by decide) hc

theorem ofDigitChars_padded (width n : ℕ) :
    Nat.ofDigitChars 10 (padded width n).toList 0 = n := by
  rw [padded, String.toList_ofList, List.leftpad, Nat.ofDigitChars_append,
    Nat.ofDigitChars_replicate_zero, Nat.mul_zero, Nat.ofDigitChars_ten_toDigits]

theorem padded_append_inj (hr : EndsDigits r) (hs : EndsDigits s)
    (h : (padded width m).toList ++ r = (padded width' n).toList ++ s) : m = n ∧ r = s := by
  have hdigits := digits_append_inj (isDigit_padded width m) (isDigit_padded width' n) hr hs h
  have hvalue := congrArg (fun cs => Nat.ofDigitChars 10 cs 0) hdigits.1
  simp only [ofDigitChars_padded] at hvalue
  exact ⟨hvalue, hdigits.2⟩

theorem endsDigits_cons {c : Char} (h : c.isDigit = false) (cs : List Char) :
    EndsDigits (c :: cs) := by
  intro d hd
  exact Option.some.inj hd ▸ h

/-- What may follow the seconds of a time. -/
def EndsSeconds (cs : List Char) : Prop := ∀ c ∈ cs.head?, c.isDigit = false ∧ c ≠ '.'

theorem EndsSeconds.endsDigits {cs : List Char} (h : EndsSeconds cs) : EndsDigits cs :=
  fun c hc => (h c hc).1

theorem toList_seconds (t : ℕ) : (seconds t).toList = (padded 2 (t / second.toNat % 60)).toList ++
    if t % second.toNat = 0 then [] else '.' :: (padded 6 (t % second.toNat)).toList := by
  unfold seconds
  rw [String.toList_append]
  split_ifs <;> simp

theorem seconds_append_inj (hr : EndsSeconds r) (hs : EndsSeconds s)
    (h : (seconds t).toList ++ r = (seconds u).toList ++ s) :
    t / second.toNat % 60 = u / second.toNat % 60 ∧ t % second.toNat = u % second.toNat ∧
      r = s := by
  have hdot : ∀ cs, EndsDigits ('.' :: cs) := fun cs => endsDigits_cons rfl cs
  rw [toList_seconds, toList_seconds, List.append_assoc, List.append_assoc] at h
  by_cases ht : t % second.toNat = 0 <;> by_cases hu : u % second.toNat = 0
  · rw [if_pos ht, if_pos hu, List.nil_append, List.nil_append] at h
    have hfield := padded_append_inj hr.endsDigits hs.endsDigits h
    exact ⟨hfield.1, ht.trans hu.symm, hfield.2⟩
  · rw [if_pos ht, if_neg hu, List.nil_append] at h
    have hfield := padded_append_inj hr.endsDigits (hdot _) h
    exact absurd rfl (hr '.' (by rw [hfield.2]; rfl)).2
  · rw [if_neg ht, if_pos hu, List.nil_append] at h
    have hfield := padded_append_inj (hdot _) hs.endsDigits h
    exact absurd rfl (hs '.' (by rw [← hfield.2]; rfl)).2
  · rw [if_neg ht, if_neg hu] at h
    have hfield := padded_append_inj (hdot _) (hdot _) h
    have hmicro := padded_append_inj hr.endsDigits hs.endsDigits (List.cons.inj hfield.2).2
    exact ⟨hfield.1, hmicro.1, hmicro.2⟩

theorem hourMinute_append_inj (hr : EndsDigits r) (hs : EndsDigits s)
    (h : (hourMinute t).toList ++ r = (hourMinute u).toList ++ s) :
    t / hour.toNat = u / hour.toNat ∧ t / minute.toNat % 60 = u / minute.toNat % 60 ∧ r = s := by
  have hcolon : ∀ cs, EndsDigits (':' :: cs) := fun cs => endsDigits_cons rfl cs
  have hlist : ∀ n, (hourMinute n).toList = (padded 2 (n / hour.toNat)).toList ++
      ':' :: (padded 2 (n / minute.toNat % 60)).toList := by
    intro n
    simp [hourMinute]
  rw [hlist, hlist, List.append_assoc, List.append_assoc] at h
  have hhour := padded_append_inj (hcolon _) (hcolon _) h
  have hminute := padded_append_inj hr hs (List.cons.inj hhour.2).2
  exact ⟨hhour.1, hminute⟩

/-- A time is its hours, minutes, seconds and microseconds. -/
theorem time_eq (hhour : t / hour.toNat = u / hour.toNat)
    (hminute : t / minute.toNat % 60 = u / minute.toNat % 60)
    (hsecond : t / second.toNat % 60 = u / second.toNat % 60)
    (hmicro : t % second.toNat = u % second.toNat) : t = u := by
  have hhours : hour.toNat = 3600000000 := rfl
  have hminutes : minute.toNat = 60000000 := rfl
  have hseconds : second.toNat = 1000000 := rfl
  rw [hhours] at hhour
  rw [hminutes] at hminute
  rw [hseconds] at hsecond hmicro
  omega

end Fields

namespace Datetime

/-! ### Offsets and datetimes -/

/-- The seconds of an offset, where it has any. -/
def offsetSeconds (t : ℕ) : List Char :=
  if t % minute.toNat = 0 then [] else ':' :: (seconds t).toList

theorem endsDigits_offsetSeconds (t : ℕ) : EndsDigits (offsetSeconds t) := by
  unfold offsetSeconds
  split_ifs
  · exact fun c hc => absurd hc (by simp)
  · exact endsDigits_cons rfl _

theorem offsetTime_inj {t u : ℕ} (h : (hourMinute t).toList ++ offsetSeconds t =
    (hourMinute u).toList ++ offsetSeconds u) : t = u := by
  obtain ⟨hhour, hminute, htail⟩ :=
    hourMinute_append_inj (endsDigits_offsetSeconds t) (endsDigits_offsetSeconds u) h
  have hminutes : minute.toNat = 60000000 := rfl
  have hseconds : second.toNat = 1000000 := rfl
  unfold offsetSeconds at htail
  split_ifs at htail with ht hu hu
  · apply time_eq hhour hminute <;> rw [hminutes] at ht hu <;> rw [hseconds] <;> omega
  · have hend : EndsSeconds [] := fun c hc => absurd hc (by simp)
    have hboth : (seconds t).toList ++ [] = (seconds u).toList ++ [] :=
      congrArg (· ++ []) (List.cons.inj htail).2
    have hfields := seconds_append_inj hend hend hboth
    exact time_eq hhour hminute hfields.1 hfields.2.1

theorem toList_offsetText (offset : ℤ) : (offsetText (some offset)).toList =
    (if offset < 0 then '-' else '+') ::
      ((hourMinute offset.natAbs).toList ++ offsetSeconds offset.natAbs) := by
  unfold offsetText offsetSeconds
  rw [String.toList_append, String.toList_append]
  split_ifs <;> simp

theorem endsSeconds_offsetText (utcoffset : Option ℤ) :
    EndsSeconds (offsetText utcoffset).toList := by
  intro c hc
  cases utcoffset with
  | none => exact absurd hc (by simp [offsetText])
  | some offset =>
    rw [toList_offsetText, List.head?_cons, Option.mem_some_iff] at hc
    subst hc
    split_ifs <;> decide

theorem offsetText_injective : Function.Injective offsetText := by
  intro o p h
  have hlist := congrArg String.toList h
  cases o with
  | none =>
    cases p with
    | none => rfl
    | some p =>
      rw [toList_offsetText] at hlist
      exact absurd hlist.symm (List.cons_ne_nil _ _)
  | some o =>
    cases p with
    | none =>
      rw [toList_offsetText] at hlist
      exact absurd hlist (List.cons_ne_nil _ _)
    | some p =>
      rw [toList_offsetText, toList_offsetText, List.cons.injEq] at hlist
      have hsign : o < 0 ↔ p < 0 := by
        have hchars := hlist.1
        split_ifs at hchars with ho hp hp
        · exact iff_of_true ho hp
        · exact absurd hchars (by decide)
        · exact absurd hchars (by decide)
        · exact iff_of_false ho hp
      have habs : o.natAbs = p.natAbs := offsetTime_inj hlist.2
      exact congrArg some (by omega)

theorem toList_isoformat (t : Datetime) : t.isoformat.toList =
    (padded 4 t.date.year).toList ++ '-' :: ((padded 2 t.date.month).toList ++
      '-' :: ((padded 2 t.date.day).toList ++ 'T' :: ((hourMinute t.timeOfDay).toList ++
        ':' :: ((seconds t.timeOfDay).toList ++ (offsetText t.utcoffset).toList)))) := by
  simp [isoformat, dateText]

theorem wall_eq {t u : Datetime} (hdate : t.date = u.date) (htime : t.timeOfDay = u.timeOfDay) :
    t.wall = u.wall := by
  have hday : day = 86400000000 := rfl
  have hmin : wallMin = -62135596800000000 := rfl
  have ht := t.inRange.1
  have hu := u.inRange.1
  unfold timeOfDay at htime
  rw [hday] at htime
  rw [hmin] at ht hu
  have hordinal : (t.wall / day + 719163).toNat = (u.wall / day + 719163).toNat := by
    apply fromordinal_injective _ _ hdate <;> rw [hday] <;> omega
  rw [hday] at hordinal
  omega

/-- `isoformat` tells the reading and the offset. -/
theorem isoformat_injective : Function.Injective isoformat := by
  intro t u h
  have hlist := congrArg String.toList h
  have hdash : ∀ cs, EndsDigits ('-' :: cs) := fun cs => endsDigits_cons rfl cs
  have htee : ∀ cs, EndsDigits ('T' :: cs) := fun cs => endsDigits_cons rfl cs
  have hcolon : ∀ cs, EndsDigits (':' :: cs) := fun cs => endsDigits_cons rfl cs
  rw [toList_isoformat, toList_isoformat] at hlist
  obtain ⟨hyear, hlist⟩ := padded_append_inj (hdash _) (hdash _) hlist
  obtain ⟨hmonth, hlist⟩ := padded_append_inj (hdash _) (hdash _) (List.cons.inj hlist).2
  obtain ⟨hday, hlist⟩ := padded_append_inj (htee _) (htee _) (List.cons.inj hlist).2
  obtain ⟨hhour, hminute, hlist⟩ := hourMinute_append_inj (hcolon _) (hcolon _)
    (List.cons.inj hlist).2
  obtain ⟨hsecond, hmicro, hoffset⟩ := seconds_append_inj (endsSeconds_offsetText _)
    (endsSeconds_offsetText _) (List.cons.inj hlist).2
  have hdate : t.date = u.date := by
    cases ht : t.date
    cases hu : u.date
    rw [ht, hu] at hyear hmonth hday
    exact congr (congrArg₂ Date.mk hyear hmonth) hday
  have htime : t.timeOfDay = u.timeOfDay := time_eq hhour hminute hsecond hmicro
  have hwall : t.wall = u.wall := wall_eq hdate htime
  have hutc : t.utcoffset = u.utcoffset := offsetText_injective (String.toList_inj.mp hoffset)
  cases t
  cases u
  cases hwall
  cases hutc
  rfl

end Datetime
end CoffeeBuddy

import CoffeeBuddy.Data.Schema
import Mathlib.Tactic.Abel

/-! `datetime.datetime` and `timedelta`: a wall clock reading in microseconds with the
UTC offset of its zone, inside the years 1 to 9999. -/

namespace CoffeeBuddy

def second : ℤ := 1000000

def minute : ℤ := 60 * second

/-- `datetime.min` and `datetime.max`, from the epoch. -/
def wallMin : ℤ := -62135596800 * second

def wallMax : ℤ := 253402300800 * second - 1

/-- A naive datetime has no `utcoffset`. -/
structure Datetime where
  wall : ℤ
  utcoffset : Option ℤ
  inRange : wallMin ≤ wall ∧ wall ≤ wallMax
deriving DecidableEq

namespace Datetime

/-- The instant, naive readings taken as UTC. -/
def instant (t : Datetime) : Timestamp := t.wall - t.utcoffset.getD 0

def IsUtc (t : Datetime) : Prop := t.utcoffset = some 0

instance (t : Datetime) : Decidable t.IsUtc := inferInstanceAs (Decidable (_ = _))

/-- A datetime of the wall reading; `none` is the `OverflowError`. -/
def ofWall (utcoffset : Option ℤ) (wall : ℤ) : Option Datetime :=
  if h : wallMin ≤ wall ∧ wall ≤ wallMax then some ⟨wall, utcoffset, h⟩ else none

/-- `t - timedelta(microseconds=delta)` -/
def sub (t : Datetime) (delta : ℤ) : Option Datetime := ofWall t.utcoffset (t.wall - delta)

/-- `t.replace(tzinfo=timezone.utc)` -/
def replaceUtc (t : Datetime) : Datetime := ⟨t.wall, some 0, t.inRange⟩

/-- `t.astimezone(timezone.utc)` of an aware datetime. -/
def astimezoneUtc (t : Datetime) : Option Datetime := ofWall (some 0) t.instant

theorem ofWall_eq_some {utcoffset : Option ℤ} {wall : ℤ} {t : Datetime} :
    ofWall utcoffset wall = some t ↔ t.wall = wall ∧ t.utcoffset = utcoffset := by
  unfold ofWall
  split_ifs with h
  · rw [Option.some.injEq]
    constructor
    · rintro rfl
      exact ⟨rfl, rfl⟩
    · cases t
      rintro ⟨rfl, rfl⟩
      rfl
  · refine iff_of_false not_false ?_
    rintro ⟨rfl, -⟩
    exact h t.inRange

theorem ofWall_eq_none {utcoffset : Option ℤ} {wall : ℤ} :
    ofWall utcoffset wall = none ↔ ¬(wallMin ≤ wall ∧ wall ≤ wallMax) := by
  unfold ofWall
  split_ifs with h <;> simp [h]

theorem instant_replaceUtc {t : Datetime} (h : t.utcoffset = none) :
    t.replaceUtc.instant = t.instant := by
  simp only [instant, replaceUtc, h, Option.getD_some, Option.getD_none]

theorem sub_spec {t u : Datetime} {delta : ℤ} (h : t.sub delta = some u) :
    u.utcoffset = t.utcoffset ∧ u.instant + delta = t.instant := by
  obtain ⟨hwall, hoffset⟩ := ofWall_eq_some.mp h
  refine ⟨hoffset, ?_⟩
  simp only [instant, hwall, hoffset]
  abel

theorem astimezoneUtc_spec {t u : Datetime} (h : t.astimezoneUtc = some u) :
    u.IsUtc ∧ u.instant = t.instant := by
  obtain ⟨hwall, hoffset⟩ := ofWall_eq_some.mp h
  refine ⟨hoffset, ?_⟩
  rw [instant, hwall, hoffset, Option.getD_some, sub_zero]

end Datetime
end CoffeeBuddy

import Mathlib.Data.Int.Order.Basic

/-!
# The proleptic Gregorian calendar

Years begin in March here, so that the leap day is the last one: `marchStart` counts the
days up to a year, `monthStart` those up to a month of it, and `dayNumber` numbers the days
from the first of March of year 0. `dayNumber_lt` says that it keeps the order of dates, and
so tells them apart.

That two dates have different numbers, and that every number has a date, is proved from the
two monotone sequences of starts: a day lies between the start of its year and that of the
next, and within it between two starts of months.
-/

namespace Calendar

def isLeap (y : Int) : Bool := decide ((y % 4 = 0 ∧ y % 100 ≠ 0) ∨ y % 400 = 0)

/-- The days of month `m`, 1 to 12, of year `y`. -/
def daysInMonth (y : Int) (m : Nat) : Nat :=
  if m = 2 then if isLeap y then 29 else 28
  else if m = 4 ∨ m = 6 ∨ m = 9 ∨ m = 11 then 30
  else 31

/-- A date of the calendar. -/
structure Valid (y : Int) (m d : Nat) : Prop where
  month_pos : 1 ≤ m
  month_le : m ≤ 12
  day_pos : 1 ≤ d
  day_le : d ≤ daysInMonth y m

/-- The numbers of month and day have at most two digits. -/
theorem Valid.small {y : Int} {m d : Nat} (h : Valid y m d) : m ≤ 12 ∧ d ≤ 31 := by
  refine ⟨h.month_le, Nat.le_trans h.day_le ?_⟩
  unfold daysInMonth
  split
  · split <;> decide
  · split <;> decide

/-- The order of dates. -/
def Before (y : Int) (m d : Nat) (y' : Int) (m' d' : Nat) : Prop :=
  y < y' ∨ (y = y' ∧ (m < m' ∨ (m = m' ∧ d < d')))

/-! ## Years that begin in March -/

/-- The year of March a month belongs to. -/
def marchYear (y : Int) (m : Nat) : Int := if m ≤ 2 then y - 1 else y

/-- March is month 0, February month 11. -/
def marchMonth (m : Nat) : Nat := if m ≤ 2 then m + 9 else m - 3

/-- The days from the first of March of year 0 to that of year `y`. -/
def marchStart (y : Int) : Int := 365 * y + y / 4 - y / 100 + y / 400

/-- The days from the first of March to the first of month `mp`. -/
def monthStart (mp : Nat) : Nat := (153 * mp + 2) / 5

/-- The day's number, 0 for the first of March of year 0. -/
def dayNumber (y : Int) (m d : Nat) : Int :=
  marchStart (marchYear y m) + monthStart (marchMonth m) + d - 1

variable {y y' : Int} {m m' d d' : Nat}

/-- Later years of the March calendar start later. -/
theorem marchStart_mono {a b : Int} (h : a ≤ b) : marchStart a ≤ marchStart b := by
  unfold marchStart
  omega

/-- A year of March is as long as the leap day at its end makes it. -/
theorem marchStart_succ (y : Int) :
    marchStart (y + 1) = marchStart y + if isLeap (y + 1) then 366 else 365 := by
  unfold marchStart
  by_cases h : isLeap (y + 1) = true
  · rw [if_pos h]
    simp only [isLeap, decide_eq_true_eq] at h
    omega
  · rw [if_neg h]
    simp only [isLeap, decide_eq_true_eq] at h
    omega

/-- Every month but February ends where the next one begins. -/
theorem monthStart_succ (h1 : 1 ≤ m) (h12 : m ≤ 12) (h2 : m ≠ 2) :
    monthStart (marchMonth m) + daysInMonth y m = monthStart (marchMonth m + 1) := by
  unfold daysInMonth marchMonth monthStart
  rw [if_neg h2]
  have hm : m = 1 ∨ m = 3 ∨ m = 4 ∨ m = 5 ∨ m = 6 ∨ m = 7 ∨ m = 8 ∨ m = 9 ∨
    m = 10 ∨ m = 11 ∨
      m = 12 := by
    omega
  rcases hm with rfl | rfl | rfl | rfl | rfl | rfl | rfl | rfl | rfl | rfl | rfl <;> rfl

/-- And so do later months. -/
theorem monthStart_mono {a b : Nat} (h : a ≤ b) : monthStart a ≤ monthStart b := by
  unfold monthStart
  omega

/-- A day of a month lies before the first of a later month of the year. -/
theorem Valid.day_lt_month (h : Valid y m d) {mp : Nat} (hmp : marchMonth m < mp)
    (h12 : mp ≤ 11) :
    monthStart (marchMonth m) + d ≤ monthStart mp := by
  have h2 : m ≠ 2 := by
    rintro rfl
    have hfeb : marchMonth 2 = 11 := rfl
    omega
  calc monthStart (marchMonth m) + d
      ≤ monthStart (marchMonth m) + daysInMonth y m := Nat.add_le_add_left h.day_le _
    _ = monthStart (marchMonth m + 1) := monthStart_succ h.month_pos h.month_le h2
    _ ≤ monthStart mp := monthStart_mono hmp

/-- A day of a year of March lies before the next one. -/
theorem Valid.day_lt_year (h : Valid y m d) :
    marchStart (marchYear y m) + monthStart (marchMonth m) + d ≤
      marchStart (marchYear y m + 1) := by
  rw [marchStart_succ]
  have hd := h.day_le
  have hm := h.month_pos
  have hm' := h.month_le
  -- February closes the year that starts in March, and it alone depends on the leap day
  by_cases h2 : m = 2
  · subst h2
    have hyear : marchYear y 2 + 1 = y := by
      unfold marchYear
      simp
    have hstart : monthStart (marchMonth 2) = 337 := rfl
    rw [hyear, hstart]
    unfold daysInMonth at hd
    rw [if_pos rfl] at hd
    split <;> rename_i hl <;> simp only [hl] at hd <;> simp at hd <;> omega
  · have hnext := monthStart_succ (y := y) hm hm' h2
    have hle : monthStart (marchMonth m + 1) ≤ 337 := by
      have h11 : marchMonth m + 1 ≤ 11 := by
        unfold marchMonth
        split <;> omega
      exact monthStart_mono h11
    have hlen : (365 : Int) ≤ if isLeap (marchYear y m + 1) then 366 else 365 := by
      split <;> omega
    omega

/-- The month of the calendar that month `mp` of a year of March is. -/
def calendarMonth (mp : Nat) : Nat := if mp < 10 then mp + 3 else mp - 9

/-- A day of a year of March has a date. -/
theorem date_of_march {my : Int} {mp doy : Nat} (hmp : mp ≤ 11) (hlow : monthStart mp ≤ doy)
    (hhigh : doy < monthStart (mp + 1)) (hlen : doy < if isLeap (my + 1) then 366 else 365) :
    Valid (if calendarMonth mp ≤ 2 then my + 1 else my) (calendarMonth mp)
        (doy - monthStart mp + 1) ∧
      dayNumber (if calendarMonth mp ≤ 2 then my + 1 else my) (calendarMonth mp)
        (doy - monthStart mp + 1) = marchStart my + doy := by
  have hm : 1 ≤ calendarMonth mp ∧ calendarMonth mp ≤ 12 := by
    unfold calendarMonth
    split <;> omega
  have hmonth : marchMonth (calendarMonth mp) = mp := by
    unfold marchMonth calendarMonth
    split <;> split <;> omega
  have hyear : marchYear (if calendarMonth mp ≤ 2 then my + 1 else my) (calendarMonth mp) =
    my := by
    unfold marchYear
    split <;> omega
  refine ⟨⟨hm.1, hm.2, Nat.le_add_left 1 _, ?_⟩, ?_⟩
  · by_cases h2 : calendarMonth mp = 2
    · have h11 : mp = 11 := by
        rw [h2] at hmonth
        exact hmonth.symm
      subst h11
      have hstart : monthStart 11 = 337 := rfl
      have hfeb : calendarMonth 11 = 2 := rfl
      rw [hstart] at hlow ⊢
      rw [hfeb]
      unfold daysInMonth
      rw [if_pos rfl, if_pos (Nat.le_refl 2)]
      split <;> rename_i hl <;> simp only [hl] at hlen <;> simp at hlen <;> omega
    · have hnext :=
        monthStart_succ (y := if calendarMonth mp ≤ 2 then my + 1 else my) hm.1 hm.2 h2
      rw [hmonth] at hnext
      omega
  · unfold dayNumber
    rw [hyear, hmonth]
    omega

/-! ## The order of dates -/

/-- A later date has a larger number. -/
theorem dayNumber_lt (h : Valid y m d) (h' : Valid y' m' d') (hlt : Before y m d y' m' d') :
    dayNumber y m d < dayNumber y' m' d' := by
  have hy := h.day_lt_year
  have hd' := h'.day_pos
  unfold dayNumber
  have hm := h.month_le
  have hm' := h'.month_le
  have hpos' := h'.month_pos
  -- in terms of years of March: a later year, a later month of the year, or a later day
  have hcases : marchYear y m < marchYear y' m' ∨ (marchYear y m = marchYear y' m' ∧
      (marchMonth m < marchMonth m' ∨ (marchMonth m = marchMonth m' ∧ d < d'))) := by
    unfold marchYear marchMonth
    rcases hlt with hlt | ⟨rfl, hlt | ⟨rfl, hlt⟩⟩
    · split <;> split <;> omega
    · split <;> split <;> omega
    · exact Or.inr ⟨rfl, Or.inr ⟨rfl, hlt⟩⟩
  rcases hcases with hlt | ⟨heq, hlt | ⟨hmeq, hlt⟩⟩
  · have hmono : marchStart (marchYear y m + 1) ≤ marchStart (marchYear y' m') :=
      marchStart_mono hlt
    omega
  · have hmonth := h.day_lt_month hlt (by unfold marchMonth; split <;> omega)
    rw [heq]
    omega
  · rw [heq, hmeq]
    omega

/-- Of two different dates one comes before the other. -/
theorem before_total (hne : ¬ (y = y' ∧ m = m' ∧ d = d')) :
    Before y m d y' m' d' ∨ Before y' m' d' y m d := by
  unfold Before
  omega

/-- Dates are told apart by their numbers. -/
theorem dayNumber_inj (h : Valid y m d) (h' : Valid y' m' d')
    (heq : dayNumber y m d = dayNumber y' m' d') : y = y' ∧ m = m' ∧ d = d' := by
  by_contra hne
  rcases before_total hne with hlt | hlt
  · exact absurd heq (ne_of_lt (dayNumber_lt h h' hlt))
  · exact absurd heq.symm (ne_of_lt (dayNumber_lt h' h hlt))

/-- The order of numbers is the order of dates. -/
theorem dayNumber_lt_iff (h : Valid y m d) (h' : Valid y' m' d') :
    dayNumber y m d < dayNumber y' m' d' ↔ Before y m d y' m' d' := by
  refine ⟨fun hlt => ?_, dayNumber_lt h h'⟩
  by_contra hno
  by_cases hne : y = y' ∧ m = m' ∧ d = d'
  · obtain ⟨rfl, rfl, rfl⟩ := hne
    exact absurd hlt (lt_irrefl _)
  · have hlt' := dayNumber_lt h' h ((before_total hne).resolve_left hno)
    exact absurd hlt (lt_asymm hlt')

end Calendar

import TreeMiner.Lib.Calendar
import TreeMiner.Submit.Port

/-!
# Civil dates (`daysFromCivil`, `civilFromDays`)

Both conversions split an era of 400 years off, count within it in years that begin in
March, and put the parts together again. `daysFromCivil_eq` and `civilFromDays_spec` say
that they number the days as `Calendar.dayNumber` does, so that each undoes the other.

Between the two is the arithmetic of the era: the day of the era determines the year of
the era through a division that corrects for leap years, which is proved by cases on the
four hundred years' pattern and not by enumeration of days. The Rust functions are the
same text.
-/

namespace TreeMiner

open Cxx Calendar

/-! ## Eras -/

section Eras

variable {z : Int}

/-- The division that makes its operand non-negative first rounds down. -/
theorem era_eq {n : Int} (hn : 0 < n) :
    (if 0 ≤ z then z else z - (n - 1)).tdiv n = z / n := by
  split
  next h => exact Int.tdiv_eq_ediv_of_nonneg h
  next h =>
    have hneg : z - (n - 1) = -(n - 1 - z) := by omega
    rw [hneg, Int.neg_tdiv, Int.tdiv_eq_ediv_of_nonneg (by omega)]
    -- both are the quotient of a number below a multiple of `n`
    have h₁ := Int.emod_add_mul_ediv (n - 1 - z) n
    have h₂ := Int.emod_add_mul_ediv z n
    have hm₁ := Int.emod_nonneg (n - 1 - z) (ne_of_gt hn)
    have hm₁' := Int.emod_lt_of_pos (n - 1 - z) hn
    have hm₂ := Int.emod_nonneg z (ne_of_gt hn)
    have hm₂' := Int.emod_lt_of_pos z hn
    have hlo : n * (-((n - 1 - z) / n) - z / n) < n * 1 := by
      rw [Int.mul_sub, Int.mul_neg, Int.mul_one]
      omega
    have hhi : n * (-1) < n * (-((n - 1 - z) / n) - z / n) := by
      rw [Int.mul_sub, Int.mul_neg, Int.mul_neg, Int.mul_one]
      omega
    have hlo' := Int.lt_of_mul_lt_mul_left hlo (le_of_lt hn)
    have hhi' := Int.lt_of_mul_lt_mul_left hhi (le_of_lt hn)
    omega

/-- The days of an era up to a year of it. -/
def yearStart (yoe : Nat) : Nat := 365 * yoe + yoe / 4 - yoe / 100

/-- A year of an era by century, cycle of four years and year of the cycle. The leap day is
the last one of the last year of a cycle, but of a century's last cycle only in the last
century. -/
theorem yoe_of {c q r doy doe : Nat} (hc : c ≤ 3) (hq : q ≤ 24) (hr : r ≤ 3)
    (hd : doy ≤ 365) (hleap : doy = 365 → r = 3 ∧ (q < 24 ∨ c = 3))
    (hdoe : doe = 36524 * c + 1461 * q + 365 * r + doy) :
    (doe - doe / 1460 + doe / 36524 - doe / 146096) / 365 = 100 * c + 4 * q + r := by
  have h₁ : doe / 1460 = 25 * c + q + (24 * c + q + 365 * r + doy) / 1460 := by omega
  have h₂ : doe / 36524 - doe / 146096 = c ∧ doe / 146096 ≤ doe / 36524 := by omega
  omega

/-- The year of an era is the one whose days the day is among. -/
theorem yoe_spec {doe : Nat} (h : doe < 146097) :
    ∃ yoe doy, (doe - doe / 1460 + doe / 36524 - doe / 146096) / 365 = yoe ∧
      doe = yearStart yoe + doy ∧ yoe < 400 ∧
      doy < if isLeap ((yoe : Int) + 1) then 366 else 365 := by
  -- the last day of a century of four, of a cycle or of a leap year is one too many
  obtain ⟨c, hc⟩ : ∃ c, c = min (doe / 36524) 3 := ⟨_, rfl⟩
  obtain ⟨s, hs⟩ : ∃ s, s = doe - 36524 * c := ⟨_, rfl⟩
  obtain ⟨q, hq⟩ : ∃ q, q = min (s / 1461) 24 := ⟨_, rfl⟩
  obtain ⟨t, ht⟩ : ∃ t, t = s - 1461 * q := ⟨_, rfl⟩
  obtain ⟨r, hr⟩ : ∃ r, r = min (t / 365) 3 := ⟨_, rfl⟩
  have hs' : doe = 36524 * c + s ∧ s ≤ 36524 ∧ (s = 36524 → c = 3) := by omega
  have ht' : s = 1461 * q + t ∧ t ≤ 1460 ∧ (t = 1460 → q < 24 ∨ c = 3) := by omega
  have hr' : t = 365 * r + (t - 365 * r) ∧ t - 365 * r ≤ 365 ∧
    (t - 365 * r = 365 → r = 3) := by omega
  have hleap : t - 365 * r = 365 → r = 3 ∧ (q < 24 ∨ c = 3) := by omega
  refine ⟨100 * c + 4 * q + r, t - 365 * r, yoe_of (by omega) (by omega) (by omega) hr'.2.1 hleap
    (by omega), ?_, by omega, ?_⟩
  · have hfour : (100 * c + 4 * q + r) / 4 = 25 * c + q := by omega
    have hcent : (100 * c + 4 * q + r) / 100 = c := by omega
    unfold yearStart
    rw [hfour, hcent]
    omega
  · split
    · omega
    next hnot =>
      simp only [isLeap, decide_eq_true_eq] at hnot
      omega

/-- An era is 400 years of March. -/
theorem marchStart_era (era : Int) {yoe : Nat} (h : yoe < 400) :
    marchStart (yoe + era * 400) = era * 146097 + yearStart yoe := by
  unfold marchStart yearStart
  omega

/-- The calendar repeats after 400 years. -/
theorem isLeap_era (era y : Int) : isLeap (y + era * 400) = isLeap y := by
  unfold isLeap
  congr 1
  rw [eq_iff_iff]
  omega

end Eras

/-! ## Both ways -/

/-- `daysFromCivil` numbers the days, with 1970-01-01 as day 0. -/
theorem daysFromCivil_eq {y : Int} {m d : Nat} (hm : 1 ≤ m) (hm' : m ≤ 12) (hd : 1 ≤ d) :
    daysFromCivil y m d = dayNumber y m d - 719468 := by
  unfold daysFromCivil
  dsimp only
  -- the source divides toward zero and corrects for negative years
  have hera : ∀ y : Int, (if 0 ≤ y then y else y - 399).tdiv 400 = y / 400 :=
    fun y => era_eq (n := 400) (by decide)
  have hyear : (if m ≤ 2 then y - 1 else y) = marchYear y m := rfl
  rw [hyear, hera]
  have hmod : marchYear y m - marchYear y m / 400 * 400 = marchYear y m % 400 := by omega
  rw [hmod]
  obtain ⟨yoe, hyoe⟩ : ∃ yoe : Nat, marchYear y m % 400 = yoe :=
    ⟨(marchYear y m % 400).toNat, by omega⟩
  have hsplit : marchYear y m = yoe + marchYear y m / 400 * 400 := by omega
  have hstart : marchStart (marchYear y m) = marchYear y m / 400 * 146097 + yearStart yoe := by
    rw [hsplit, marchStart_era _ (by omega)]
    omega
  have hmonth : (153 * (if m > 2 then m - 3 else m + 9) + 2) / 5 = monthStart (marchMonth m) := by
    unfold monthStart marchMonth
    split <;> split <;> first | rfl | omega
  rw [hyoe, hmonth, Int.toNat_natCast]
  unfold dayNumber
  rw [hstart]
  unfold yearStart
  omega

/-- The month and day within a year of March. -/
theorem month_of_doy {doy : Nat} (h : doy < 366) :
    let mp := (5 * doy + 2) / 153
    mp ≤ 11 ∧ monthStart mp ≤ doy ∧ doy < monthStart (mp + 1) := by
  unfold monthStart
  omega

/-- What `civilFromDays` takes a day apart into: the era, the year of it and the day of that
year, and the date it puts together. -/
structure Parts (z era : Int) (doe yoe doy : Nat) : Prop where
  whole : z + 719468 = era * 146097 + doe
  doe_lt : doe < 146097
  year : (doe - doe / 1460 + doe / 36524 - doe / 146096) / 365 = yoe
  yoe_lt : yoe < 400
  day : doe = yearStart yoe + doy
  doy_lt : doy < if isLeap ((yoe : Int) + 1) then 366 else 365
  date : civilFromDays z =
    (if calendarMonth ((5 * doy + 2) / 153) ≤ 2 then (yoe + era * 400 : Int) + 1
      else (yoe + era * 400 : Int), calendarMonth ((5 * doy + 2) / 153),
      doy - monthStart ((5 * doy + 2) / 153) + 1)

/-- The division of the source, which truncates, rounds down to the era also before the year 0. -/
theorem era_of_days (z : Int) : (if 0 ≤ z then z else z - 146096).tdiv 146097 = z / 146097 :=
  era_eq (n := 146097) (by decide)

/-- A day number has a day of its era, a year of that era and a day of that year, within their
bounds. -/
theorem civilFromDays_parts (z : Int) :
    ∃ doe yoe doy, Parts z ((z + 719468) / 146097) doe yoe doy := by
  obtain ⟨doe, hdoe⟩ : ∃ doe : Nat, (z + 719468) % 146097 = doe :=
    ⟨((z + 719468) % 146097).toNat, by omega⟩
  obtain ⟨era, hera⟩ : ∃ era, (z + 719468) / 146097 = era := ⟨_, rfl⟩
  have hz : z + 719468 = era * 146097 + doe := by omega
  obtain ⟨yoe, doy, hyoe, hdoy, hlt, hyear⟩ := yoe_spec (show doe < 146097 by omega)
  refine ⟨doe, yoe, doy, by rw [hera]; exact hz, by omega, hyoe, hlt, hdoy, hyear, ?_⟩
  unfold civilFromDays
  dsimp only
  rw [era_of_days, hera]
  have hsub : z + 719468 - era * 146097 = doe := by omega
  rw [hsub, Int.toNat_natCast, hyoe]
  have hrest : doe - (365 * yoe + yoe / 4 - yoe / 100) = doy := by
    unfold yearStart at hdoy
    omega
  rw [hrest]
  rfl

/-- A year has at most 366 days. -/
theorem Parts.doy_lt_366 {z era : Int} {doe yoe doy : Nat} (h : Parts z era doe yoe doy) :
    doy < 366 := by
  have hlt := h.doy_lt
  split at hlt <;> omega

/-- `civilFromDays` gives the date with the number. -/
theorem civilFromDays_spec (z : Int) :
    Valid (civilFromDays z).1 (civilFromDays z).2.1 (civilFromDays z).2.2 ∧
      dayNumber (civilFromDays z).1 (civilFromDays z).2.1 (civilFromDays z).2.2 = z + 719468 := by
  obtain ⟨doe, yoe, doy, h⟩ := civilFromDays_parts z
  obtain ⟨hmp, hlow, hhigh⟩ := month_of_doy h.doy_lt_366
  have hleap : doy < if isLeap ((yoe + (z + 719468) / 146097 * 400 : Int) + 1) then
    366 else 365 := by
    have hcomm : ((yoe : Int) + (z + 719468) / 146097 * 400) + 1 =
        ((yoe : Int) + 1) + (z + 719468) / 146097 * 400 := by
      omega
    rw [hcomm, isLeap_era]
    exact h.doy_lt
  obtain ⟨hvalid, hnumber⟩ := date_of_march hmp hlow hhigh hleap
  rw [marchStart_era _ h.yoe_lt] at hnumber
  rw [h.date]
  refine ⟨hvalid, hnumber.trans ?_⟩
  have hwhole := h.whole
  have hday := h.day
  omega

/-- A day number, written as a date and read again, is itself. -/
theorem daysFromCivil_civilFromDays (z : Int) :
    daysFromCivil (civilFromDays z).1 (civilFromDays z).2.1 (civilFromDays z).2.2 = z := by
  obtain ⟨hvalid, hnumber⟩ := civilFromDays_spec z
  rw [daysFromCivil_eq hvalid.month_pos hvalid.month_le hvalid.day_pos, hnumber]
  omega

/-- A date of the calendar, written as a day number and read again, is itself. -/
theorem civilFromDays_daysFromCivil {y : Int} {m d : Nat} (h : Valid y m d) :
    civilFromDays (daysFromCivil y m d) = (y, m, d) := by
  obtain ⟨hvalid, hnumber⟩ := civilFromDays_spec (daysFromCivil y m d)
  rw [daysFromCivil_eq h.month_pos h.month_le h.day_pos] at hnumber hvalid ⊢
  obtain ⟨hy, hm, hd⟩ := dayNumber_inj hvalid h (by omega)
  exact Prod.ext hy (Prod.ext hm hd)

end TreeMiner

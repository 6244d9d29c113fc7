import TreeMiner.Lib.Checked
import TreeMiner.Submit.CivilDates

/-!
# Civil dates at the widths of the source

The conversions with the integers the sources declare: `std::int64_t` and `unsigned`, whose
sums wrap (`m + -3`, `mp - 9`), in C++; `i64`, `i32` and `u32` in Rust, where leaving a range
is an error. A 64-bit result that does not fit is `none` in both. Where they give a result
it is that of the conversions on unbounded integers.

The results are stated as conditions: a conversion gives the value `v` exactly when the date
is in a range that is named and `v` is the number of the day. The C++ sums that wrap on
purpose come back into range before they are used.
-/

namespace TreeMiner

open Cxx Calendar Checked

/-- `daysFromCivil`. -/
def daysFromCivil64 (y : Int) (m d : UInt32) : Option Int := do
  let y ← i64 (if m ≤ 2 then y - 1 else y)
  let num ← i64 (if 0 ≤ y then y else y - 399)
  let era := num.tdiv 400
  let years ← i64 (era * 400)
  let rest ← i64 (y - years)
  let yoe := UInt32.ofNat rest.toNat
  let doy := (153 * (m + (if m > 2 then -3 else 9)) + 2) / 5 + d - 1
  let doe := yoe * 365 + yoe / 4 - yoe / 100 + doy
  let days ← i64 (era * 146097)
  let days ← i64 (days + doe.toNat)
  i64 (days - 719468)

/-- `civilFromDays`. -/
def civilFromDays64 (z : Int) : Option (Int × UInt32 × UInt32) := do
  let z ← i64 (z + 719468)
  let num ← i64 (if 0 ≤ z then z else z - 146096)
  let era := num.tdiv 146097
  let days ← i64 (era * 146097)
  let rest ← i64 (z - days)
  let doe := UInt32.ofNat rest.toNat
  let yoe := (doe - doe / 1460 + doe / 36524 - doe / 146096) / 365
  let years ← i64 (era * 400)
  let y ← i64 (yoe.toNat + years)
  let doy := doe - (365 * yoe + yoe / 4 - yoe / 100)
  let mp := (5 * doy + 2) / 153
  let d := doy - (153 * mp + 2) / 5 + 1
  let m := mp + (if mp < 10 then 3 else -9)
  let y ← i64 (if m ≤ 2 then y + 1 else y)
  some (y, m, d)

namespace RustManager

/-- `days_from_civil`. -/
def daysFromCivilI64 (y : Int) (m d : Nat) : Option Int := do
  let y ← i64 (if m ≤ 2 then y - 1 else y)
  let num ← i64 (if 0 ≤ y then y else y - 399)
  let era := num.tdiv 400
  let years ← i64 (era * 400)
  let rest ← i64 (y - years)
  let yoe := rest.toNat
  let month_term := if m > 2 then m - 3 else m + 9
  let scaled ← u32 (153 * month_term)
  let scaled ← u32 (scaled + 2)
  let doy ← u32 (scaled / 5 + d)
  let doy ← u32Sub doy 1
  let doe ← u32 (yoe * 365)
  let doe ← u32 (doe + yoe / 4)
  let doe ← u32Sub doe (yoe / 100)
  let doe ← u32 (doe + doy)
  let days ← i64 (era * 146097)
  let days ← i64 (days + doe)
  i64 (days - 719468)

end RustManager

/-! ## Days of a date -/

section Days

variable {y v : Int} {m d : UInt32}

/-- The day of the year: the sum wraps to the month counted from March. -/
theorem doy32 (hm : 1 ≤ m.toNat) (hm' : m.toNat ≤ 12) (hd : 1 ≤ d.toNat)
    (hd' : d.toNat ≤ 31) :
    ((153 * (m + (if m > 2 then -3 else 9)) + 2) / 5 + d - 1 : UInt32).toNat =
      (153 * (if m.toNat > 2 then m.toNat - 3 else m.toNat + 9) + 2) / 5 + d.toNat - 1 := by
  have hgt : m > 2 ↔ m.toNat > 2 := UInt32.lt_iff_toNat_lt
  have hneg : (-3 : UInt32).toNat = 4294967293 := by decide
  have hnine : (9 : UInt32).toNat = 9 := by decide
  -- `m + -3` wraps, and comes out as the month counted from March
  have hmp : (m + (if m > 2 then -3 else 9)).toNat =
      if m.toNat > 2 then m.toNat - 3 else m.toNat + 9 := by
    simp only [hgt]
    split
    · rw [UInt32.toNat_add, hneg]
      omega
    · rw [UInt32.toNat_add, hnine]
      omega
  have hle : (if m.toNat > 2 then m.toNat - 3 else m.toNat + 9) ≤ 11 := by
    split <;> omega
  generalize (if m.toNat > 2 then m.toNat - 3 else m.toNat + 9) = mp at hmp hle ⊢
  simp only [UInt32.toNat_sub, UInt32.toNat_add, UInt32.toNat_div, UInt32.toNat_mul, hmp,
    UInt32.toNat_ofNat, Nat.reducePow, Nat.reduceMod, Nat.reduceSub]
  have h₁ : 153 * mp % 4294967296 = 153 * mp := by omega
  have h₂ : (153 * mp + 2) % 4294967296 = 153 * mp + 2 := by omega
  rw [h₁, h₂]
  omega

/-- The day of the era; nothing wraps. -/
theorem doe32 {yoe : Nat} {doy : UInt32} (hy : yoe < 400) (hd : doy.toNat < 1000) :
    (UInt32.ofNat yoe * 365 + UInt32.ofNat yoe / 4 - UInt32.ofNat yoe / 100 + doy).toNat =
      yoe * 365 + yoe / 4 - yoe / 100 + doy.toNat := by
  have hyoe : (UInt32.ofNat yoe).toNat = yoe := by
    rw [UInt32.toNat_ofNat']
    omega
  simp only [UInt32.toNat_sub, UInt32.toNat_add, UInt32.toNat_div, UInt32.toNat_mul, hyoe,
    UInt32.toNat_ofNat, Nat.reducePow, Nat.reduceMod]
  have h₁ : yoe * 365 % 4294967296 = yoe * 365 := Nat.mod_eq_of_lt (by omega)
  have h₂ : (yoe * 365 + yoe / 4) % 4294967296 = yoe * 365 + yoe / 4 :=
    Nat.mod_eq_of_lt (by omega)
  rw [h₁, h₂]
  omega

/-- The 64-bit values on the way to a day number. -/
structure DayRange (y : Int) (m d : Nat) : Prop where
  year : Fits64 (marchYear y m)
  rounded : Fits64 (if 0 ≤ marchYear y m then marchYear y m else marchYear y m - 399)
  days : Fits64 (marchYear y m / 400 * 146097)
  number : Fits64 (dayNumber y m d)
  result : Fits64 (dayNumber y m d - 719468)

/-- The division of the source, which truncates, rounds down to the era of the year that begins in
March. -/
theorem era_of_march {m : Nat} :
    (if 0 ≤ marchYear y m then marchYear y m else marchYear y m - 399).tdiv 400 =
      marchYear y m / 400 :=
  era_eq (n := 400) (by decide)

/-- The years of the eras before, and those of this one. -/
theorem fits_era {m : Nat} (hy : Fits64 (marchYear y m))
    (hr : Fits64 (if 0 ≤ marchYear y m then marchYear y m else marchYear y m - 399)) :
    Fits64 (marchYear y m / 400 * 400) ∧ Fits64 (marchYear y m % 400) := by
  have hsplit : marchYear y m / 400 * 400 ≤ marchYear y m := by omega
  unfold Fits64 at *
  refine ⟨?_, by omega⟩
  split at hr <;> omega

/-- The day number, put together from the parts of an era. -/
theorem dayNumber_parts {m d : Nat} (hd : 1 ≤ d) :
    marchYear y m / 400 * 146097 + ((marchYear y m % 400).toNat * 365 +
      (marchYear y m % 400).toNat / 4 - (marchYear y m % 400).toNat / 100 +
      ((153 * (if m > 2 then m - 3 else m + 9) + 2) / 5 + d - 1) : Nat) = dayNumber y m d := by
  have hmonth : (153 * (if m > 2 then m - 3 else m + 9) + 2) / 5 = monthStart (marchMonth m) := by
    unfold monthStart marchMonth
    split <;> split <;> first | rfl | omega
  have hyoe : (marchYear y m % 400).toNat < 400 := by omega
  have hstart := marchStart_era (marchYear y m / 400) hyoe
  have hsplit : (((marchYear y m % 400).toNat : Int) + marchYear y m / 400 * 400) =
    marchYear y m := by
    omega
  rw [hsplit] at hstart
  unfold dayNumber
  rw [hmonth, hstart]
  unfold yearStart
  omega

/-- Ten quadrillion years either way are in range. -/
theorem dayRange_of_year {m d : Nat} (hm : m ≤ 12) (hd : d ≤ 31)
    (hlo : -10000000000000000 ≤ y) (hhi : y ≤ 10000000000000000) : DayRange y m d := by
  have hyear : y - 1 ≤ marchYear y m ∧ marchYear y m ≤ y := by
    unfold marchYear
    split <;> omega
  have hmonth : monthStart (marchMonth m) ≤ 337 := by
    have h11 : marchMonth m ≤ 11 := by
      unfold marchMonth
      split <;> omega
    exact monthStart_mono h11
  refine ⟨?_, ?_, ?_, ?_, ?_⟩
  all_goals unfold Fits64
  · omega
  · split <;> omega
  · omega
  · unfold dayNumber marchStart
    omega
  · unfold dayNumber marchStart
    omega

/-- The C++ function in 64 bits stays in range exactly for the years of `DayRange`, and is the
function on integers there. -/
theorem daysFromCivil64_eq_some (hm : 1 ≤ m.toNat) (hm' : m.toNat ≤ 12) (hd : 1 ≤ d.toNat)
    (hd' : d.toNat ≤ 31) :
    daysFromCivil64 y m d = some v ↔
      DayRange y m.toNat d.toNat ∧ daysFromCivil y m.toNat d.toNat = v := by
  have hle : m ≤ 2 ↔ m.toNat ≤ 2 := UInt32.le_iff_toNat_le
  have hyear : (if m ≤ 2 then y - 1 else y) = marchYear y m.toNat := by
    unfold marchYear
    simp only [hle]
  have hdoy := doy32 hm hm' hd hd'
  have hdoy' : ((153 * (m + (if m > 2 then -3 else 9)) + 2) / 5 + d - 1 : UInt32).toNat < 1000 := by
    rw [hdoy]
    split <;> omega
  have hrest : marchYear y m.toNat - marchYear y m.toNat / 400 * 400 =
    marchYear y m.toNat % 400 := by
    omega
  unfold daysFromCivil64
  simp only [Option.bind_eq_bind, bind_i64, i64_eq_some, hyear, era_of_march, hrest,
    doe32 (show (marchYear y m.toNat % 400).toNat < 400 by omega) hdoy', hdoy,
    dayNumber_parts (y := y) (m := m.toNat) hd, daysFromCivil_eq (y := y) hm hm' hd]
  constructor
  -- what the checks have let through is in the range, and the other way round
  · rintro ⟨hy, hr, -, -, hdays, hnum, hres, rfl⟩
    exact ⟨⟨hy, hr, hdays, hnum, hres⟩, rfl⟩
  · rintro ⟨⟨hy, hr, hdays, hnum, hres⟩, rfl⟩
    obtain ⟨hera, hmod⟩ := fits_era hy hr
    exact ⟨hy, hr, hera, hmod, hdays, hnum, hres, rfl⟩

/-- The Rust conversion needs the same range. -/
theorem RustManager.days_from_civil_i64_eq_some {m d : Nat} (hm : 1 ≤ m) (hm' : m ≤ 12)
    (hd : 1 ≤ d) (hd' : d ≤ 31) :
    RustManager.daysFromCivilI64 y m d = some v ↔
      DayRange y m d ∧ RustManager.daysFromCivil y m d = v := by
  have hyear : (if m ≤ 2 then y - 1 else y) = marchYear y m := rfl
  have hrest : marchYear y m - marchYear y m / 400 * 400 = marchYear y m % 400 := by omega
  have hterm : (if m > 2 then m - 3 else m + 9) ≤ 11 := by
    split <;> omega
  have hport : RustManager.daysFromCivil y m d = TreeMiner.daysFromCivil y m d := rfl
  have hparts := dayNumber_parts (y := y) (m := m) hd
  rw [hport, daysFromCivil_eq (y := y) hm hm' hd]
  unfold RustManager.daysFromCivilI64
  simp only [Option.bind_eq_bind, bind_i64, bind_u32, bind_u32Sub, i64_eq_some, hyear, era_of_march,
    hrest]
  generalize (if m > 2 then m - 3 else m + 9) = mp at hterm hparts ⊢
  obtain ⟨yoe, hyoe⟩ : ∃ yoe, (marchYear y m % 400).toNat = yoe := ⟨_, rfl⟩
  have hlt : yoe < 400 := by omega
  rw [hyoe] at hparts ⊢
  rw [hparts]
  constructor
  · rintro ⟨hy, hr, -, -, -, -, -, -, -, -, -, -, hdays, hnum, hres, rfl⟩
    exact ⟨⟨hy, hr, hdays, hnum, hres⟩, rfl⟩
  · rintro ⟨⟨hy, hr, hdays, hnum, hres⟩, rfl⟩
    obtain ⟨hera, hmod⟩ := fits_era hy hr
    refine ⟨hy, hr, hera, hmod, ?_, ?_, ?_, ?_, ?_, ?_, ?_, ?_, hdays, hnum, hres, rfl⟩
    all_goals omega

end Days

/-! ## Date of a day -/

section Dates

variable {z : Int} {doe yoe doy mp : Nat}

/-- The year of the era is computed in `unsigned` without a wrap, since the day of the era is below
146097. -/
theorem yoe32 (h : doe < 146097) :
    ((UInt32.ofNat doe - UInt32.ofNat doe / 1460 + UInt32.ofNat doe / 36524 -
      UInt32.ofNat doe / 146096) / 365).toNat =
      (doe - doe / 1460 + doe / 36524 - doe / 146096) / 365 := by
  have hdoe : (UInt32.ofNat doe).toNat = doe := by
    rw [UInt32.toNat_ofNat']
    omega
  simp only [UInt32.toNat_sub, UInt32.toNat_add, UInt32.toNat_div, hdoe, UInt32.toNat_ofNat,
    Nat.reducePow, Nat.reduceMod]
  have h₁ : (4294967296 - doe / 1460 + doe) % 4294967296 = doe - doe / 1460 := by omega
  rw [h₁]
  have h₂ : (doe - doe / 1460 + doe / 36524) % 4294967296 = doe - doe / 1460 + doe / 36524 :=
    Nat.mod_eq_of_lt (by omega)
  rw [h₂]
  congr 1
  omega

/-- The day of the year of March. -/
theorem doyOf32 (h : doe < 146097) (hy : yoe < 400) (hs : yearStart yoe ≤ doe) {Y : UInt32}
    (hY : Y.toNat = yoe) :
    (UInt32.ofNat doe - (365 * Y + Y / 4 - Y / 100)).toNat = doe - yearStart yoe := by
  have hdoe : (UInt32.ofNat doe).toNat = doe := by
    rw [UInt32.toNat_ofNat']
    omega
  have hstart : (365 * Y + Y / 4 - Y / 100).toNat = yearStart yoe := by
    simp only [UInt32.toNat_sub, UInt32.toNat_add, UInt32.toNat_div, UInt32.toNat_mul, hY,
      UInt32.toNat_ofNat, Nat.reducePow, Nat.reduceMod]
    have h₁ : 365 * yoe % 4294967296 = 365 * yoe := Nat.mod_eq_of_lt (by omega)
    have h₂ : (365 * yoe + yoe / 4) % 4294967296 = 365 * yoe + yoe / 4 :=
      Nat.mod_eq_of_lt (by omega)
    rw [h₁, h₂]
    unfold yearStart
    omega
  rw [UInt32.toNat_sub, hdoe, hstart]
  omega

/-- Month and day of the month; `mp + -9` wraps to the month of the calendar. -/
theorem monthDay32 {D : UInt32} (h : doy < 366) (hD : D.toNat = doy) :
    ((5 * D + 2) / 153).toNat = (5 * doy + 2) / 153 ∧
      (D - (153 * ((5 * D + 2) / 153) + 2) / 5 + 1).toNat =
        doy - monthStart ((5 * doy + 2) / 153) + 1 ∧
      ((5 * D + 2) / 153 + (if (5 * D + 2) / 153 < 10 then 3 else -9)).toNat =
        calendarMonth ((5 * doy + 2) / 153) := by
  obtain ⟨hmp, hlow, -⟩ := month_of_doy h
  have hmonth : ((5 * D + 2) / 153).toNat = (5 * doy + 2) / 153 := by
    simp only [UInt32.toNat_add, UInt32.toNat_div, UInt32.toNat_mul, hD, UInt32.toNat_ofNat,
      Nat.reducePow, Nat.reduceMod]
    have h₁ : 5 * doy % 4294967296 = 5 * doy := Nat.mod_eq_of_lt (by omega)
    have h₂ : (5 * doy + 2) % 4294967296 = 5 * doy + 2 := Nat.mod_eq_of_lt (by omega)
    rw [h₁, h₂]
  refine ⟨hmonth, ?_, ?_⟩
  -- the day: no product here reaches 2^32
  · generalize (5 * D + 2) / 153 = M at hmonth ⊢
    generalize (5 * doy + 2) / 153 = mp at *
    have hstart : ((153 * M + 2) / 5).toNat = monthStart mp := by
      simp only [UInt32.toNat_add, UInt32.toNat_div, UInt32.toNat_mul, hmonth, UInt32.toNat_ofNat,
        Nat.reducePow, Nat.reduceMod]
      have h₁ : 153 * mp % 4294967296 = 153 * mp := Nat.mod_eq_of_lt (by omega)
      have h₂ : (153 * mp + 2) % 4294967296 = 153 * mp + 2 := Nat.mod_eq_of_lt (by omega)
      rw [h₁, h₂]
      rfl
    have hone : (1 : UInt32).toNat = 1 := by decide
    rw [UInt32.toNat_add, UInt32.toNat_sub, hstart, hD, hone]
    omega
  -- the month: adding `-9` as an unsigned number wraps back into range
  · generalize (5 * D + 2) / 153 = M at hmonth ⊢
    generalize (5 * doy + 2) / 153 = mp at *
    have hlt : M < 10 ↔ mp < 10 := by
      rw [UInt32.lt_iff_toNat_lt, hmonth]
      rfl
    have hthree : (3 : UInt32).toNat = 3 := by decide
    have hneg : (-9 : UInt32).toNat = 4294967287 := by decide
    unfold calendarMonth
    simp only [hlt]
    split
    · rw [UInt32.toNat_add, hmonth, hthree]
      omega
    · rw [UInt32.toNat_add, hmonth, hneg]
      omega

/-- Within 2^62 days of 1970 nothing overflows, and the date is that of `civilFromDays`. -/
theorem civilFromDays64_eq (hlo : -4611686018427387904 ≤ z) (hhi : z ≤ 4611686018427387904) :
    ((civilFromDays64 z).map fun c => (c.1, c.2.1.toNat, c.2.2.toNat)) =
      some (civilFromDays z) := by
  obtain ⟨doe, yoe, doy, h⟩ := civilFromDays_parts z
  obtain ⟨era, hera⟩ : ∃ era, (z + 719468) / 146097 = era := ⟨_, rfl⟩
  rw [hera] at h
  have hwhole := h.whole
  have hdoe := h.doe_lt
  have hyoe := h.yoe_lt
  have hrest : z + 719468 - era * 146097 = doe := by omega
  -- the year and the day of the year, in unsigned arithmetic
  have hyear := yoe32 h.doe_lt
  rw [h.year] at hyear
  have hdoy := doyOf32 h.doe_lt h.yoe_lt (by rw [h.day]; exact Nat.le_add_right _ _) hyear
  have hday : doe - yearStart yoe = doy := by
    have hday := h.day
    omega
  rw [hday] at hdoy
  obtain ⟨-, hd, hm⟩ := monthDay32 h.doy_lt_366 hdoy
  have hmle : (∀ M : UInt32, M.toNat = calendarMonth ((5 * doy + 2) / 153) →
      (M ≤ 2 ↔ calendarMonth ((5 * doy + 2) / 153) ≤ 2)) := by
    intro M hM
    rw [UInt32.le_iff_toNat_le, hM]
    rfl
  unfold civilFromDays64
  simp only [Option.bind_eq_bind, Option.map_bind, Function.comp_def, bind_i64, era_of_days, hera,
    hrest, Int.toNat_natCast, hyear, hmle _ hm, Option.map_some, hm, hd, h.date]
  refine ⟨?_, ?_, ?_, ?_, ?_, ?_, ?_, trivial⟩
  all_goals unfold Fits64
  · omega
  · split <;> omega
  · omega
  · omega
  · omega
  · omega
  · split <;> omega

end Dates

end TreeMiner

import TreeMiner.Submit.MachineDates

/-!
# The range of the server clock (`parseHttpDateMs`, `trackServerDate_`, `xuniWindowAt`)

A `Date` header becomes milliseconds, the milliseconds an offset from the wall clock, and
the offset is added to later readings of it. The header is not checked against an upper
bound: its year is any `int` in C++ and any `i64` in Rust, and the latest instant that 64 bits
of milliseconds can hold is in the year 292278994. `clock_range_iff` gives the last header
that leaves room for a wall clock of the years 1970 to 2200.

The condition is on the date of the header, as an upper and a lower bound on its day and time.
The sums of the source are computed with 64-bit overflow as failure, and the bound is exact
for both parsers: one second later the offset does not fit any more.
-/

namespace TreeMiner

open Cxx Calendar Checked

/-- What the readers take from a header before they compute with it. -/
structure HttpDate where
  year : Int
  month : Nat
  day : Nat
  secs : Nat
  deriving DecidableEq

/-- The milliseconds, on unbounded integers. -/
def HttpDate.ms (d : HttpDate) :
    Int := daysFromCivil d.year d.month d.day * 86400000 + d.secs * 1000

/-- The reading of `parseHttpDateMs`. -/
def readHttpDate (date_header : Bytes) : Option HttpDate := do
  let (day, rest) ← readInt (afterComma date_header)
  let (mon, rest) ← readWord rest
  let (year, rest) ← readInt rest
  let (hms, rest) ← readWord rest
  let (tz, _) ← readWord rest
  if tz ≠ lit "GMT" ∧ tz ≠ lit "UTC" then none
  else
    let month := monthFromName mon
    if month = 0 ∨ day < 1 ∨ day > 31 ∨ year < 1970 then none
    else
      let secs ← parseHms hms
      some ⟨year, month, day.toNat, secs⟩

/-- `days * 86400000 + (h * 3600 + mi * 60 + s) * 1000` in 64 bits. -/
def ms64 (days : Option Int) (secs : Nat) : Option Int := do
  let days ← days
  let date ← i64 (days * 86400000)
  let time ← i64 (secs * 1000)
  i64 (date + time)

/-- The arithmetic of `parseHttpDateMs`. -/
def httpDateMs64 (d : HttpDate) : Option Int :=
  ms64 (daysFromCivil64 d.year (UInt32.ofNat d.month) (UInt32.ofNat d.day)) d.secs

/-- The offset stored at wall time `wall`, and what the window is judged at when the wall clock
shows `later`. -/
def clock64 (server_ms : Option Int) (wall later : Int) : Option Int := do
  let server_ms ← server_ms
  let offset ← i64 (server_ms - wall)
  i64 (later + offset)

namespace RustManager

open RustClassifier RustTransport

/-- The reading of `parse_http_date_ms`. -/
def readHttpDate (date_header : Str) : Option HttpDate :=
  match splitWhitespace (afterComma date_header) with
  | day :: mon :: year :: hms :: tz :: _ => do
    let day ← parseI32 day
    let year ← parseI64 year
    if tz ≠ "GMT".toList ∧ tz ≠ "UTC".toList then none
    else
      let month := monthFromName mon
      if month = 0 ∨ day < 1 ∨ day > 31 ∨ year < 1970 then none
      else
        let secs ← parseHms hms
        some ⟨year, month, day.toNat, secs⟩
  | _ => none

/-- The arithmetic of `parse_http_date_ms`. -/
def httpDateMsI64 (d : HttpDate) : Option Int :=
  ms64 (daysFromCivilI64 d.year d.month d.day) d.secs

end RustManager

/-! ## What is read -/

/-- The checks of both readers. -/
structure HttpDate.Read (d : HttpDate) : Prop where
  month_pos : 1 ≤ d.month
  month_le : d.month ≤ 12
  day_pos : 1 ≤ d.day
  day_le : d.day ≤ 31
  epoch : 1970 ≤ d.year
  secs_le : d.secs ≤ 86400

section Reading

variable {d : HttpDate}

/-- A month that is named is one of the twelve, and 0 stands for no month. -/
theorem monthFromName_le (mon : Bytes) : monthFromName mon ≤ 12 := by
  unfold monthFromName
  split
  next i hi =>
    obtain ⟨hlt, -⟩ := List.findIdx?_eq_some_iff_getElem.mp hi
    exact hlt
  next => exact Nat.zero_le _

/-- A time of day that is accepted, a leap second included, is within the day. -/
theorem parseHms_le {s : Bytes} {n : Nat} (h : parseHms s = some n) : n ≤ 86400 := by
  unfold parseHms at h
  split at h
  · dsimp only at h
    split at h
    · split at h
      · cases h
      · cases h
        omega
    · cases h
  · cases h

/-- What the parser of C++ accepts is in the bounds of the fields it checks. -/
theorem readHttpDate_read {date_header : Bytes} (h : readHttpDate date_header = some d) :
    d.Read := by
  unfold readHttpDate at h
  simp only [Option.bind_eq_bind, Option.bind_eq_some_iff] at h
  obtain ⟨⟨day, rest₁⟩, -, ⟨mon, rest₂⟩, -, ⟨year, rest₃⟩, -,
    ⟨hms, rest₄⟩, -, ⟨tz, rest₅⟩, -, h⟩ := h
  dsimp only at h
  split at h
  · cases h
  split at h
  · cases h
  next hno =>
    obtain ⟨secs, hsecs, heq⟩ := Option.bind_eq_some_iff.mp h
    cases heq
    refine ⟨?_, monthFromName_le mon, ?_, ?_, ?_, parseHms_le hsecs⟩ <;> dsimp only <;> omega

/-- The parser is the reading of the fields, followed by the arithmetic on unbounded integers. -/
theorem parseHttpDateMs_eq (date_header : Bytes) :
    parseHttpDateMs date_header = (readHttpDate date_header).map HttpDate.ms := by
  unfold parseHttpDateMs readHttpDate
  simp only [Option.bind_eq_bind, Option.map_bind, Function.comp_def]
  congr 1; funext day
  congr 1; funext mon
  congr 1; funext year
  congr 1; funext hms
  congr 1; funext tz
  split
  · rfl
  split
  · rfl
  · rw [Option.map_bind]
    rfl

open RustManager RustTransport RustClassifier

/-- The months of the Rust parser are the same twelve. -/
theorem month_from_name_le (mon : Str) : RustManager.monthFromName mon ≤ 12 := by
  unfold RustManager.monthFromName
  dsimp only
  split
  next i hi =>
    obtain ⟨hlt, -⟩ := List.findIdx?_eq_some_iff_getElem.mp hi
    exact hlt
  next => exact Nat.zero_le _

/-- So are the times of day. -/
theorem parse_hms_le {s : Str} {n : Nat} (h : RustManager.parseHms s = some n) : n ≤ 86400 := by
  unfold RustManager.parseHms at h
  split at h
  · split at h
    · cases h
    split at h
    · dsimp only at h
      split at h
      · cases h
      · cases h
        omega
    · cases h
  · cases h

/-- What the Rust parser accepts is in the same bounds, its year excepted, which is any `i64`. -/
theorem read_http_date_read {date_header : Str}
    (h : RustManager.readHttpDate date_header = some d) :
    d.Read := by
  unfold RustManager.readHttpDate at h
  split at h
  swap
  · cases h
  simp only [Option.bind_eq_bind, Option.bind_eq_some_iff] at h
  obtain ⟨day, -, year, -, h⟩ := h
  split at h
  · cases h
  split at h
  · cases h
  next hno =>
    obtain ⟨secs, hsecs, heq⟩ := Option.bind_eq_some_iff.mp h
    cases heq
    refine ⟨?_, month_from_name_le _, ?_, ?_, ?_, parse_hms_le hsecs⟩ <;> dsimp only <;> omega

/-- The Rust parser too is the reading of the fields, followed by the arithmetic. -/
theorem parse_http_date_ms_eq (date_header : Str) :
    RustManager.parseHttpDateMs date_header =
      (RustManager.readHttpDate date_header).map HttpDate.ms := by
  unfold RustManager.parseHttpDateMs RustManager.readHttpDate
  rcases splitWhitespace (RustManager.afterComma date_header) with
    _ | ⟨day, _ | ⟨mon, _ | ⟨year, _ | ⟨hms, _ | ⟨tz, rest⟩⟩⟩⟩⟩
  case cons.cons.cons.cons.nil | cons.cons.cons.nil | cons.cons.nil | cons.nil | nil => rfl
  simp only [Option.bind_eq_bind, Option.map_bind, Function.comp_def]
  congr 1; funext day
  congr 1; funext year
  split
  · rfl
  split
  · rfl
  · rw [Option.map_bind]
    rfl

end Reading

/-! ## The range -/

/-- The wall clock of the years 1970 to 2200. -/
def Wall (t : Int) : Prop := 0 ≤ t ∧ t < daysFromCivil 2201 1 1 * 86400000

/-- With any two readings of such a clock nothing leaves the 64 bits. -/
def InRange (server_ms : Option Int) : Prop :=
  ∀ wall later, Wall wall → Wall later → (clock64 server_ms wall later).isSome = true

/-- Not after the 18th of August 292278763, 07:12:55. -/
def HttpDate.InTime (d : HttpDate) : Prop :=
  d.year < 292278763 ∨ (d.year = 292278763 ∧ (d.month < 8 ∨ (d.month = 8 ∧
    (d.day < 18 ∨ (d.day = 18 ∧ d.secs ≤ 25975)))))

section Range

variable {d : HttpDate} {days : Option Int} {v : Int}

theorem wall_last : daysFromCivil 2201 1 1 * 86400000 = 7289654400000 := by decide

/-- The day of the limit, and what lies before and after it. -/
theorem dayNumber_limit (hm : 1 ≤ d.month) (hm' : d.month ≤ 12) (hd : 1 ≤ d.day)
    (hd' : d.day ≤ 31) :
    (dayNumber d.year d.month d.day < 106752626264 ↔ d.year < 292278763 ∨
      (d.year = 292278763 ∧
      (d.month < 8 ∨ (d.month = 8 ∧ d.day < 18)))) ∧
    (dayNumber d.year d.month d.day = 106752626264 ↔ d.year = 292278763 ∧ d.month = 8 ∧
      d.day = 18) := by
  have hlast : marchStart 292278762 = 106752625729 := by decide
  have hstart : marchStart 292278763 = 106752626094 := by decide
  have hnext : marchStart 292278764 = 106752626460 := by decide
  unfold dayNumber
  -- January and February belong to the March year before
  by_cases h2 : d.month ≤ 2
  · have hyear : marchYear d.year d.month = d.year - 1 := if_pos h2
    have hmonth : marchMonth d.month = d.month + 9 := if_pos h2
    have hlo : 306 ≤ monthStart (d.month + 9) := monthStart_mono (a := 10) (by omega)
    have hhi : monthStart (d.month + 9) ≤ 337 := monthStart_mono (b := 11) (by omega)
    rw [hyear, hmonth]
    by_cases hy : d.year ≤ 292278763
    · have hmono : marchStart (d.year - 1) ≤ marchStart 292278762 := marchStart_mono (by omega)
      omega
    · have hmono : marchStart 292278763 ≤ marchStart (d.year - 1) := marchStart_mono (by omega)
      omega
  · have hyear : marchYear d.year d.month = d.year := if_neg h2
    have hmonth : marchMonth d.month = d.month - 3 := if_neg h2
    have hhi : monthStart (d.month - 3) ≤ 275 := monthStart_mono (b := 9) (by omega)
    rw [hyear, hmonth]
    -- only in the last year the month matters, and only in August the day
    rcases lt_trichotomy d.year 292278763 with hy | hy | hy
    · have hmono : marchStart d.year ≤ marchStart 292278762 := marchStart_mono (by omega)
      omega
    · rw [hy, hstart]
      rcases lt_trichotomy d.month 8 with hlt | heq | hgt
      · have hjuly : monthStart (d.month - 3) ≤ 122 := monthStart_mono (b := 4) (by omega)
        omega
      · have haug : monthStart (d.month - 3) = 153 := by
          rw [heq]
          rfl
        omega
      · have hsep : 184 ≤ monthStart (d.month - 3) := monthStart_mono (a := 6) (by omega)
        omega
    · have hmono : marchStart 292278764 ≤ marchStart d.year := marchStart_mono (by omega)
      omega

/-- The last header that leaves room for the whole wall clock. -/
theorem inTime_iff (h : d.Read) : d.InTime ↔ d.ms ≤ 9223364747200375808 := by
  have hsecs := h.secs_le
  obtain ⟨hlt, heq⟩ := dayNumber_limit h.month_pos h.month_le h.day_pos h.day_le
  unfold HttpDate.ms HttpDate.InTime
  rw [daysFromCivil_eq h.month_pos h.month_le h.day_pos]
  omega

/-- A header is never before 1970. -/
theorem day_nonneg (h : d.Read) : 0 ≤ daysFromCivil d.year d.month d.day := by
  have hm := h.month_pos
  have hd := h.day_pos
  have hy := h.epoch
  have hstart : marchStart 1969 = 719162 := by decide
  have hstart' : marchStart 1970 = 719527 := by decide
  rw [daysFromCivil_eq hm h.month_le hd]
  unfold dayNumber
  by_cases h2 : d.month ≤ 2
  · have hyear : marchYear d.year d.month = d.year - 1 := if_pos h2
    have hmonth : marchMonth d.month = d.month + 9 := if_pos h2
    have hlo : 306 ≤ monthStart (d.month + 9) := monthStart_mono (a := 10) (by omega)
    have hmono : marchStart 1969 ≤ marchStart (d.year - 1) := marchStart_mono (by omega)
    rw [hyear, hmonth]
    omega
  · have hyear : marchYear d.year d.month = d.year := if_neg h2
    have hmono : marchStart 1970 ≤ marchStart d.year := marchStart_mono hy
    rw [hyear]
    omega

/-- What the 64-bit arithmetic gives, whichever conversion the days come from. -/
theorem ms64_eq_some (hdays : ∀ v, days = some v ↔
    DayRange d.year d.month d.day ∧ daysFromCivil d.year d.month d.day = v) :
    ms64 days d.secs = some v ↔ DayRange d.year d.month d.day ∧
      Fits64 (daysFromCivil d.year d.month d.day * 86400000) ∧ Fits64 (d.secs * 1000) ∧
      Fits64 d.ms ∧ d.ms = v := by
  unfold ms64 HttpDate.ms
  simp only [Option.bind_eq_bind, Option.bind_eq_some_iff, hdays, i64_eq_some]
  constructor
  · rintro ⟨_, ⟨hr, rfl⟩, _, ⟨hf, rfl⟩, _, ⟨ht, rfl⟩, hs, rfl⟩
    exact ⟨hr, hf, ht, hs, rfl⟩
  · rintro ⟨hr, hf, ht, hs, rfl⟩
    exact ⟨_, ⟨hr, rfl⟩, _, ⟨hf, rfl⟩, _, ⟨ht, rfl⟩, hs, rfl⟩

/-- A header keeps the clock in range exactly up to the limit. -/
theorem inRange_iff (h : d.Read) (hdays : ∀ v, days = some v ↔
    DayRange d.year d.month d.day ∧ daysFromCivil d.year d.month d.day = v) :
    InRange (ms64 days d.secs) ↔ d.InTime := by
  rw [inTime_iff h]
  constructor
  · -- stored at the beginning of 1970, used at the end of 2200
    intro hrange
    have hsome := hrange 0 7289654399999 ⟨le_refl 0, by rw [wall_last]; decide⟩
      ⟨by decide, by rw [wall_last]; decide⟩
    obtain ⟨sum, hsum⟩ := Option.isSome_iff_exists.mp hsome
    unfold clock64 at hsum
    simp only [Option.bind_eq_bind, Option.bind_eq_some_iff, ms64_eq_some hdays,
      i64_eq_some] at hsum
    obtain ⟨_, ⟨-, -, -, -, rfl⟩, _, ⟨-, rfl⟩, hfits, -⟩ := hsum
    unfold Fits64 at hfits
    omega
  -- both sums are bounded by those at the ends of the two ranges
  · intro hle wall later hwall hlater
    obtain ⟨hw, hw'⟩ := hwall
    obtain ⟨hl, hl'⟩ := hlater
    rw [wall_last] at hw' hl'
    have hintime := (inTime_iff h).mpr hle
    have hepoch := h.epoch
    have hyear : d.year ≤ 10000000000000000 := by
      unfold HttpDate.InTime at hintime
      omega
    have hdayrange : DayRange d.year d.month d.day :=
      dayRange_of_year h.month_le h.day_le (by omega) hyear
    have hpos := day_nonneg h
    have hsecs := h.secs_le
    have hms : d.ms = daysFromCivil d.year d.month d.day * 86400000 + d.secs * 1000 := rfl
    have hrun : ms64 days d.secs = some d.ms := by
      refine (ms64_eq_some hdays).mpr ⟨hdayrange, ?_, ?_, ?_, rfl⟩ <;> unfold Fits64 <;> omega
    unfold clock64
    rw [hrun]
    simp only [Option.bind_eq_bind, Option.bind_some]
    rw [i64_of_fits (by unfold Fits64; omega), Option.bind_some, i64_isSome]
    unfold Fits64
    omega

/-- No operation of the C++ arithmetic leaves 64 bits exactly for the dates in time. -/
theorem httpDateMs64_iff (h : d.Read) : InRange (httpDateMs64 d) ↔ d.InTime := by
  have hm := h.month_le
  have hd := h.day_le
  have hmonth : (UInt32.ofNat d.month).toNat = d.month := by
    rw [UInt32.toNat_ofNat']
    omega
  have hday : (UInt32.ofNat d.day).toNat = d.day := by
    rw [UInt32.toNat_ofNat']
    omega
  refine inRange_iff h fun v => ?_
  have hspec := daysFromCivil64_eq_some (y := d.year) (v := v) (m := UInt32.ofNat d.month)
    (d := UInt32.ofNat d.day)
  rw [hmonth, hday] at hspec
  exact hspec h.month_pos hm h.day_pos hd

open RustManager in
/-- The same of the Rust arithmetic, whose operations come in another order. -/
theorem http_date_ms_i64_iff (h : d.Read) : InRange (httpDateMsI64 d) ↔ d.InTime :=
  inRange_iff h fun _ =>
    days_from_civil_i64_eq_some h.month_pos h.month_le h.day_pos h.day_le

end Range

open RustManager RustTransport

/-- A header is accepted when it is read, and its value is that of the unbounded arithmetic; the
arithmetic of the source, with the offset and the window's time after it, stays in range for
every wall clock of the years 1970 to 2200 exactly when the header is not after the limit. So
in C++, and so in Rust. -/
theorem clock_range_iff (d : HttpDate) :
    (∀ date_header, readHttpDate date_header = some d →
      parseHttpDateMs date_header = some d.ms ∧ (InRange (httpDateMs64 d) ↔ d.InTime)) ∧
    ∀ date_header, RustManager.readHttpDate date_header = some d →
      RustManager.parseHttpDateMs date_header = some d.ms ∧
        (InRange (httpDateMsI64 d) ↔ d.InTime) := by
  refine ⟨fun header h => ⟨?_, httpDateMs64_iff (readHttpDate_read h)⟩,
    fun header h => ⟨?_, http_date_ms_i64_iff (read_http_date_read h)⟩⟩
  · rw [parseHttpDateMs_eq, h]
    rfl
  · rw [parse_http_date_ms_eq, h]
    rfl

/-- The header of the unit tests. -/
theorem clock_range_1994 :
    (∃ d, readHttpDate (lit "Sun, 06 Nov 1994 08:49:37 GMT") = some d ∧
      InRange (httpDateMs64 d)) ∧
    ∃ d, RustManager.readHttpDate "Sun, 06 Nov 1994 08:49:37 GMT".toList = some d ∧
      InRange (httpDateMsI64 d) := by
  have hread : readHttpDate (lit "Sun, 06 Nov 1994 08:49:37 GMT") =
    some ⟨1994, 11, 6, 31777⟩ := by
    decide
  have hread' : RustManager.readHttpDate "Sun, 06 Nov 1994 08:49:37 GMT".toList =
      some ⟨1994, 11, 6, 31777⟩ := by
    decide
  exact ⟨⟨_, hread, ((clock_range_iff _).1 _ hread).2.mpr (Or.inl (by decide))⟩,
    ⟨_, hread', ((clock_range_iff _).2 _ hread').2.mpr (Or.inl (by decide))⟩⟩

/-- A year of nine digits is accepted, and its milliseconds do not fit. -/
theorem clock_range_year_999999999 :
    (∃ d, readHttpDate (lit "Sun, 06 Nov 999999999 08:49:37 GMT") = some d ∧
      httpDateMs64 d = none ∧ ¬ InRange (httpDateMs64 d)) ∧
    ∃ d, RustManager.readHttpDate "Sun, 06 Nov 999999999 08:49:37 GMT".toList = some d ∧
      httpDateMsI64 d = none ∧ ¬ InRange (httpDateMsI64 d) := by
  have hread : readHttpDate (lit "Sun, 06 Nov 999999999 08:49:37 GMT") =
      some ⟨999999999, 11, 6, 31777⟩ := by
    decide
  have hread' : RustManager.readHttpDate "Sun, 06 Nov 999999999 08:49:37 GMT".toList =
      some ⟨999999999, 11, 6, 31777⟩ := by
    decide
  have hnot : ¬ InRange none := by
    intro hrange
    have hwall : Wall 0 := ⟨le_refl 0, by decide⟩
    exact absurd (hrange 0 0 hwall hwall) (by decide)
  have hms : httpDateMs64 ⟨999999999, 11, 6, 31777⟩ = none := by decide
  have hms' : httpDateMsI64 ⟨999999999, 11, 6, 31777⟩ = none := by decide
  exact ⟨⟨_, hread, hms, by rw [hms]; exact hnot⟩,
    ⟨_, hread', hms', by rw [hms']; exact hnot⟩⟩

end TreeMiner

import TreeMiner.Submit.Classifier

/-!
# The time helpers of `SubmissionManager.cpp`

Epoch milliseconds, civil dates, the ISO text the journal stores, the HTTP date
the server sends and the XUNI window. Instants are unbounded integers: an
`int64_t` of milliseconds reaches 292 million years, and no sum here comes near
its ends for a clock and a date that do not.

The functions are transcribed here; what they compute is proved elsewhere: the
conversions in `CivilDates`, the order of the texts in `IsoText`, the range of the
clock in `ClockRange`, and the same conversions with machine integers in
`MachineDates`.
-/

namespace TreeMiner

open Cxx

def kMsPerHour : Int := 3600 * 1000

/-- :55 -/
def kXuniOpenBeforeHourMs : Int := 5 * 60 * 1000

/-- :05 -/
def kXuniOpenAfterHourMs : Int := 5 * 60 * 1000

/-- `daysFromCivil`; the era division is on a value made non-negative, so that
truncation rounds down. -/
def daysFromCivil (y : Int) (m d : Nat) : Int :=
  let y := if m ≤ 2 then y - 1 else y
  let era := (if 0 ≤ y then y else y - 399).tdiv 400
  let yoe := (y - era * 400).toNat
  let doy := (153 * (if m > 2 then m - 3 else m + 9) + 2) / 5 + d - 1
  let doe := yoe * 365 + yoe / 4 - yoe / 100 + doy
  era * 146097 + doe - 719468

/-- `civilFromDays`: year, month and day. -/
def civilFromDays (z : Int) : Int × Nat × Nat :=
  let z := z + 719468
  let era := (if 0 ≤ z then z else z - 146096).tdiv 146097
  let doe := (z - era * 146097).toNat
  let yoe := (doe - doe / 1460 + doe / 36524 - doe / 146096) / 365
  let doy := doe - (365 * yoe + yoe / 4 - yoe / 100)
  let mp := (5 * doy + 2) / 153
  let d := doy - (153 * mp + 2) / 5 + 1
  let m := if mp < 10 then mp + 3 else mp - 9
  let y := yoe + era * 400
  (if m ≤ 2 then y + 1 else y, m, d)

/-- `floorDiv`. -/
def floorDiv (a b : Int) : Int :=
  let q := a.tdiv b
  if a.tmod b ≠ 0 ∧ (a < 0) ≠ (b < 0) then q - 1 else q

/-- Zeros on the left up to width `n`. -/
def padZero (n : Nat) (s : Bytes) : Bytes := List.replicate (n - s.length) (ch '0') ++ s

/-- `%02u` and `%02d` of a value that is not negative. -/
def two (n : Nat) : Bytes := padZero 2 (toDecimal n)

/-- `%04lld`: the sign counts towards the width. -/
def four : Int → Bytes
  | .ofNat n => padZero 4 (toDecimal n)
  | .negSucc n => ch '-' :: padZero 3 (toDecimal (n + 1))

/-- `SubmissionManager::isoUtc`. -/
def isoUtc (epoch_ms : Int) : Bytes :=
  let days := floorDiv epoch_ms 86400000
  let rem := (epoch_ms - days * 86400000).toNat
  let (y, mo, da) := civilFromDays days
  four y ++ lit "-" ++ two mo ++ lit "-" ++ two da ++ lit "T" ++
    two (rem / 3600000) ++ lit ":" ++ two (rem % 3600000 / 60000) ++ lit ":" ++
    two (rem % 3600000 % 60000 / 1000) ++ lit "Z"

/-! ## HTTP dates -/

def monthNames : List Bytes :=
  [lit "Jan", lit "Feb", lit "Mar", lit "Apr", lit "May", lit "Jun",
   lit "Jul", lit "Aug", lit "Sep", lit "Oct", lit "Nov", lit "Dec"]

/-- `monthFromName`: 0 when it is none of them. -/
def monthFromName (mon : Bytes) : Nat :=
  match monthNames.findIdx? (· == mon) with
  | some i => i + 1
  | none => 0

/-- `in >> n` for an `int`: blanks, a sign, digits; fails without a digit and
outside 32 bits. -/
def readInt (s : Bytes) : Option (Int × Bytes) :=
  let s := skipWs s
  let (neg, s) :=
    match s with
    | c :: s' => if c = ch '-' then (true, s') else if c = ch '+' then (false, s') else (false, s)
    | [] => (false, s)
  let ds := s.takeWhile isDigit
  let v : Int := if neg then -(digitsVal 0 ds : Int) else digitsVal 0 ds
  if ds = [] ∨ v < -2147483648 ∨ 2147483647 < v then none
  else some (v, s.dropWhile isDigit)

/-- `in >> w` for a string: blanks, then everything up to the next blank. -/
def readWord (s : Bytes) : Option (Bytes × Bytes) :=
  let s := skipWs s
  let w := s.takeWhile (!isSpace ·)
  if w = [] then none else some (w, s.dropWhile (!isSpace ·))

/-- What follows the first comma, or the whole text. -/
def afterComma (s : Bytes) : Bytes :=
  match s.dropWhile (· != ch ',') with
  | [] => s
  | _ :: rest => rest

/-- The `hh:mm:ss` word, in seconds. -/
def parseHms : Bytes → Option Nat
  | [h₁, h₂, c₁, m₁, m₂, c₂, s₁, s₂] =>
    if c₁ = ch ':' ∧ c₂ = ch ':' ∧
      [h₁, h₂, m₁, m₂, s₁, s₂].all isDigit = true then
      let h := digitsVal 0 [h₁, h₂]
      let mi := digitsVal 0 [m₁, m₂]
      let s := digitsVal 0 [s₁, s₂]
      if h > 23 ∨ mi > 59 ∨ s > 60 then none else some (h * 3600 + mi * 60 + s)
    else none
  | _ => none

/-- `SubmissionManager::parseHttpDateMs`. -/
def parseHttpDateMs (date_header : Bytes) : Option Int := do
  let (day, rest) ← readInt (afterComma date_header)
  let (mon, rest) ← readWord rest
  let (year, rest) ← readInt rest
  let (hms, rest) ← readWord rest
  let (tz, _) ← readWord rest
  if tz ≠ lit "GMT" ∧ tz ≠ lit "UTC" then none
  else
    let month := monthFromName mon
    if month = 0 ∨ day < 1 ∨ day > 31 ∨ year < 1970 then none
    else
      let secs ← parseHms hms
      some (daysFromCivil year month day.toNat * 86400000 + secs * 1000)

example : parseHttpDateMs (lit "Sun, 06 Nov 1994 08:49:37 GMT") = some 784111777000 := by
  decide

/-! ## The XUNI window -/

/-- `XuniWindowState`. -/
structure XuniWindowState where
  isOpen : Bool := false
  ms_until_close : Int := 0
  deriving DecidableEq

/-- `SubmissionManager::xuniWindowAt`. -/
def xuniWindowAt (server_epoch_ms : Int) : XuniWindowState :=
  let into_hour := server_epoch_ms - floorDiv server_epoch_ms kMsPerHour * kMsPerHour
  if into_hour ≥ kMsPerHour - kXuniOpenBeforeHourMs then
    { isOpen := true, ms_until_close := (kMsPerHour - into_hour) + kXuniOpenAfterHourMs }
  else if into_hour < kXuniOpenAfterHourMs then
    { isOpen := true, ms_until_close := kXuniOpenAfterHourMs - into_hour }
  else {}

/-- `floorDiv` rounds towards minus infinity. -/
theorem floorDiv_eq {a b : Int} (hb : 0 < b) : floorDiv a b = a / b := by
  have hnb : ¬ b < 0 := by omega
  have hsign : b.sign = 1 := Int.sign_eq_one_of_pos hb
  unfold floorDiv
  dsimp only
  rw [Int.tdiv_eq_ediv, hsign]
  by_cases hd : b ∣ a
  · rw [if_neg (fun h => h.1 (Int.tmod_eq_zero_of_dvd hd)), if_pos (Or.inr hd)]
    omega
  · have hm : a.tmod b ≠ 0 := fun h => hd (Int.dvd_of_tmod_eq_zero h)
    by_cases ha : a < 0
    · rw [if_pos ⟨hm, by simp [ha, hnb]⟩, if_neg (by rintro (h | h) <;> [omega; exact hd h])]
      omega
    · rw [if_neg (by simp [ha, hnb]), if_pos (Or.inl (by omega))]
      omega

/-- The hour a window belongs to: the window around the start of hour `k` runs
from five minutes before it to five minutes after. -/
def windowIndex (server_epoch_ms : Int) : Int :=
  (server_epoch_ms + kXuniOpenBeforeHourMs) / kMsPerHour

/-- The window is open for the ten minutes that start each window hour. -/
theorem xuniWindowAt_isOpen {t : Int} :
    (xuniWindowAt t).isOpen = true ↔
      t + kXuniOpenBeforeHourMs - windowIndex t * kMsPerHour <
        kXuniOpenBeforeHourMs + kXuniOpenAfterHourMs := by
  have hf : floorDiv t kMsPerHour = t / kMsPerHour := floorDiv_eq (by decide)
  unfold xuniWindowAt windowIndex
  rw [hf]
  dsimp only
  split
  next h =>
    simp only [kMsPerHour, kXuniOpenBeforeHourMs, kXuniOpenAfterHourMs, true_iff] at h ⊢
    omega
  next h₁ =>
    split
    next h₂ =>
      simp only [kMsPerHour, kXuniOpenBeforeHourMs, kXuniOpenAfterHourMs, true_iff] at h₁ h₂ ⊢
      omega
    next h₂ =>
      simp only [kMsPerHour, kXuniOpenBeforeHourMs, kXuniOpenAfterHourMs, Bool.false_eq_true,
        false_iff] at h₁ h₂ ⊢
      omega

end TreeMiner

import TreeMiner.Lib.Solo
import TreeMiner.Submit.MachineDates

/-!
# ISO texts and the order of instants (`SubmissionManager::isoUtc`)

The journal stores instants as texts and SQLite compares them byte by byte. For years 0
to 9999 every field of the text has a fixed width, so the order of texts is the order of
the fields, one after the other (`textLe_fixed`), and that is the order of the seconds
(`isoUtc_le_iff`).

A fixdate of HTTP and an ISO text name the same instant by the same fields, so the text
of a header's date can be compared with the texts in the journal. Years beyond 9999 have
five digits and break the order, which is why they are excluded throughout.
-/

namespace TreeMiner

open Cxx Calendar

/-! ## Numerals of fixed width -/

/-- The last `w` decimal digits of `n`. -/
def fixedDigits : Nat → Nat → Bytes
  | 0, _ => []
  | w + 1, n => fixedDigits w (n / 10) ++ [UInt8.ofNat (48 + n % 10)]

section Numerals

variable {w n a b : Nat} {s t : Bytes}

/-- Zero is written as zeros. -/
theorem fixedDigits_zero (w : Nat) : fixedDigits w 0 = List.replicate w (ch '0') := by
  induction w with
  | zero => rfl
  | succ w ih =>
    rw [List.replicate_succ', ← ih]
    rfl

/-- A number of fixed width has that many digits, also when it does not fit. -/
theorem fixedDigits_length (w n : Nat) : (fixedDigits w n).length = w := by
  induction w generalizing n with
  | zero => rfl
  | succ w ih =>
    unfold fixedDigits
    rw [List.length_append, ih]
    rfl

/-- A number of at most `w + 1` digits, padded. -/
theorem padZero_digits {fuel : Nat} (hf : n < fuel) (hn : n < 10 ^ (w + 1)) :
    padZero (w + 1) (digits fuel n) = fixedDigits (w + 1) n := by
  -- on the width: the last digit is split off both
  induction w generalizing n fuel with
  | zero =>
    obtain ⟨fuel, rfl⟩ : ∃ k, fuel = k + 1 := ⟨fuel - 1, by omega⟩
    have hlt : n < 10 := by omega
    unfold digits
    rw [if_pos hlt]
    show [UInt8.ofNat (48 + n)] = [UInt8.ofNat (48 + n % 10)]
    rw [Nat.mod_eq_of_lt hlt]
  | succ w ih =>
    obtain ⟨fuel, rfl⟩ : ∃ k, fuel = k + 1 := ⟨fuel - 1, by omega⟩
    unfold digits
    split
    next hlt =>
      unfold padZero fixedDigits
      rw [Nat.div_eq_of_lt hlt, fixedDigits_zero, Nat.mod_eq_of_lt hlt]
      rfl
    next hge =>
      have hrec : padZero (w + 1) (digits fuel (n / 10)) = fixedDigits (w + 1) (n / 10) :=
        ih (by omega) (by omega)
      unfold padZero at hrec ⊢
      rw [List.length_append, List.length_singleton, Nat.add_sub_add_right, ← List.append_assoc,
        hrec]
      rfl

/-- A number that fits the width is padded to it. -/
theorem padZero_toDecimal (hn : n < 10 ^ (w + 1)) :
    padZero (w + 1) (toDecimal n) = fixedDigits (w + 1) n :=
  padZero_digits (Nat.lt_succ_self n) hn

/-- Months, days, hours, minutes and seconds have two digits. -/
theorem two_eq (hn : n < 100) : two n = fixedDigits 2 n := padZero_toDecimal hn

/-- A year up to 9999 has four. -/
theorem four_eq (hn : n < 10000) : four n = fixedDigits 4 n := padZero_toDecimal hn

/-! ## The order of texts -/

/-- The order of texts is reflexive, as for any fields of two equal texts. -/
theorem textLe_refl (s : Bytes) : textLe s s = true := by
  induction s with
  | nil => rfl
  | cons c s ih => simp [textLe, ih]

/-- Texts with parts of equal length in front: those decide, unless they are equal. -/
theorem textLe_append {p q : Bytes} (h : p.length = q.length) :
    textLe (p ++ s) (q ++ t) = true ↔
      (textLe p q = true ∧ p ≠ q) ∨ (p = q ∧ textLe s t = true) := by
  induction p generalizing q with
  | nil =>
    cases q with
    | nil => simp
    | cons d q => cases h
  | cons c p ih =>
    cases q with
    | nil => cases h
    | cons d q =>
      simp only [List.cons_append, textLe, Bool.or_eq_true, decide_eq_true_eq, Bool.and_eq_true,
        beq_iff_eq, ih (Nat.succ.inj h), List.cons.injEq, ne_eq]
      by_cases hcd : c = d
      · subst hcd
        simp
      · simp [hcd]

/-- Equal parts in front do not matter. -/
theorem textLe_same (p : Bytes) : textLe (p ++ s) (p ++ t) = true ↔ textLe s t = true := by
  rw [textLe_append rfl]
  simp

/-- Digits as bytes are in the order of the digits. -/
private theorem digitByte_le {a b : Nat} (ha : a < 10) (hb : b < 10) :
    (textLe [UInt8.ofNat (48 + a)] [UInt8.ofNat (48 + b)] = true ↔ a ≤ b) ∧
      (UInt8.ofNat (48 + a) = UInt8.ofNat (48 + b) ↔ a = b) := by
  have hall : ∀ a < 10, ∀ b < 10,
      (textLe [UInt8.ofNat (48 + a)] [UInt8.ofNat (48 + b)] = true ↔ a ≤ b) ∧
        (UInt8.ofNat (48 + a) = UInt8.ofNat (48 + b) ↔ a = b) := by
    decide
  exact hall a ha b hb

/-- Numbers that fit the width are told apart by their digits. -/
theorem fixedDigits_inj (ha : a < 10 ^ w) (hb : b < 10 ^ w) :
    fixedDigits w a = fixedDigits w b ↔ a = b := by
  induction w generalizing a b with
  | zero => simp [fixedDigits]; omega
  | succ w ih =>
    have hlast :=
      digitByte_le (Nat.mod_lt a (by decide : 0 < 10)) (Nat.mod_lt b (by decide : 0 < 10))
    refine ⟨fun h => ?_, fun h => by rw [h]⟩
    obtain ⟨hrest, hdigit⟩ := List.append_inj h (by rw [fixedDigits_length, fixedDigits_length])
    have hdiv := (ih (by omega) (by omega)).mp hrest
    have hmod := hlast.2.mp (List.cons.inj hdigit).1
    omega

/-- The order of numerals of one width is the order of numbers. -/
theorem textLe_fixedDigits (ha : a < 10 ^ w) (hb : b < 10 ^ w) :
    textLe (fixedDigits w a) (fixedDigits w b) = true ↔ a ≤ b := by
  induction w generalizing a b with
  | zero => simp [fixedDigits, textLe]; omega
  | succ w ih =>
    have hlast :=
      digitByte_le (Nat.mod_lt a (by decide : 0 < 10)) (Nat.mod_lt b (by decide : 0 < 10))
    unfold fixedDigits
    rw [textLe_append (by rw [fixedDigits_length, fixedDigits_length]), ih (by omega) (by omega),
      ne_eq, fixedDigits_inj (by omega) (by omega), hlast.1]
    omega

/-- One field of two texts, and what follows it. -/
theorem textLe_fixed (ha : a < 10 ^ w) (hb : b < 10 ^ w) :
    textLe (fixedDigits w a ++ s) (fixedDigits w b ++ t) = true ↔
      a < b ∨ (a = b ∧ textLe s t = true) := by
  rw [textLe_append (by rw [fixedDigits_length, fixedDigits_length]), textLe_fixedDigits ha hb,
    ne_eq, fixedDigits_inj ha hb, ← Nat.lt_iff_le_and_ne]

end Numerals

/-! ## The order of instants -/

/-- The calendar year of an instant. -/
def yearOf (epoch_ms : Int) : Int := (civilFromDays (epoch_ms / 86400000)).1

/-- The milliseconds since midnight. -/
def timeOf (epoch_ms : Int) : Nat := (epoch_ms % 86400000).toNat

/-- The years whose numbers have at most four digits. -/
def FourDigits (y : Int) : Prop := 0 ≤ y ∧ y ≤ 9999

instance {y : Int} : Decidable (FourDigits y) := inferInstanceAs (Decidable (_ ∧ _))

section Instants

variable {t t₁ t₂ : Int}

/-- The text of an instant, field by field. -/
theorem isoUtc_fields {Y mo da : Nat} (hd : civilFromDays (t / 86400000) = ((Y : Int), mo, da))
    (hY : Y < 10000) :
    isoUtc t = fixedDigits 4 Y ++ (lit "-" ++ (fixedDigits 2 mo ++ (lit "-" ++
      (fixedDigits 2 da ++ (lit "T" ++ (fixedDigits 2 (timeOf t / 3600000) ++ (lit ":" ++
        (fixedDigits 2 (timeOf t % 3600000 / 60000) ++ (lit ":" ++
          (fixedDigits 2 (timeOf t % 3600000 % 60000 / 1000) ++ lit "Z")))))))))) := by
  have hvalid := (civilFromDays_spec (t / 86400000)).1
  rw [hd] at hvalid
  have hsmall := hvalid.small
  dsimp only at hsmall
  have htime : timeOf t < 86400000 := by
    unfold timeOf
    omega
  unfold isoUtc
  dsimp only
  rw [floorDiv_eq (by decide), hd]
  dsimp only
  have hrem : t - t / 86400000 * 86400000 = t % 86400000 := by omega
  rw [hrem]
  show four (Y : Int) ++ lit "-" ++ two mo ++ lit "-" ++ two da ++ lit "T" ++
    two (timeOf t / 3600000) ++ lit ":" ++ two (timeOf t % 3600000 / 60000) ++ lit ":" ++
    two (timeOf t % 3600000 % 60000 / 1000) ++ lit "Z" = _
  rw [four_eq hY, two_eq (by omega), two_eq (by omega), two_eq (by omega), two_eq (by omega),
    two_eq (by omega)]
  simp only [List.append_assoc]

/-- Hours, minutes and seconds order the times of a day by their seconds. -/
theorem timeOfDay_le {a b : Nat} :
    (a / 3600000 < b / 3600000 ∨ (a / 3600000 = b / 3600000 ∧
      (a % 3600000 / 60000 < b % 3600000 / 60000 ∨ (a % 3600000 / 60000 = b % 3600000 / 60000 ∧
        (a % 3600000 % 60000 / 1000 < b % 3600000 % 60000 / 1000 ∨
          a % 3600000 % 60000 / 1000 = b % 3600000 % 60000 / 1000))))) ↔
      a / 1000 ≤ b / 1000 := by
  have hsec : ∀ n : Nat, n / 1000 = n / 3600000 * 3600 + n % 3600000 / 60000 * 60 +
      n % 3600000 % 60000 / 1000 ∧ n % 3600000 / 60000 < 60 ∧
        n % 3600000 % 60000 / 1000 < 60 := by
    intro n
    omega
  obtain ⟨ha₁, ha₂, ha₃⟩ := hsec a
  obtain ⟨hb₁, hb₂, hb₃⟩ := hsec b
  rw [ha₁, hb₁]
  generalize a / 3600000 = h₁ at *
  generalize b / 3600000 = h₂ at *
  generalize a % 3600000 / 60000 = m₁ at *
  generalize b % 3600000 / 60000 = m₂ at *
  generalize a % 3600000 % 60000 / 1000 = s₁ at *
  generalize b % 3600000 % 60000 / 1000 = s₂ at *
  omega

/-- For years 0 to 9999 the order of texts is the order of seconds. -/
theorem isoUtc_le_iff (h₁ : FourDigits (yearOf t₁)) (h₂ : FourDigits (yearOf t₂)) :
    textLe (isoUtc t₁) (isoUtc t₂) = true ↔ t₁ / 1000 ≤ t₂ / 1000 := by
  obtain ⟨hv₁, hn₁⟩ := civilFromDays_spec (t₁ / 86400000)
  obtain ⟨hv₂, hn₂⟩ := civilFromDays_spec (t₂ / 86400000)
  unfold FourDigits yearOf at h₁ h₂
  obtain ⟨⟨y₁, mo₁, da₁⟩, hd₁⟩ : ∃ c, civilFromDays (t₁ / 86400000) = c :=
    ⟨_, rfl⟩
  obtain ⟨⟨y₂, mo₂, da₂⟩, hd₂⟩ : ∃ c, civilFromDays (t₂ / 86400000) = c :=
    ⟨_, rfl⟩
  rw [hd₁] at hv₁ hn₁ h₁
  rw [hd₂] at hv₂ hn₂ h₂
  dsimp only at hv₁ hn₁ h₁ hv₂ hn₂ h₂
  obtain ⟨Y₁, rfl⟩ := Int.eq_ofNat_of_zero_le h₁.1
  obtain ⟨Y₂, rfl⟩ := Int.eq_ofNat_of_zero_le h₂.1
  have hbefore := dayNumber_lt_iff hv₁ hv₂
  have hafter := dayNumber_lt_iff hv₂ hv₁
  rw [hn₁, hn₂] at hbefore hafter
  have hs₁ := hv₁.small
  have hs₂ := hv₂.small
  have ht₁ : timeOf t₁ < 86400000 := by
    unfold timeOf
    omega
  have ht₂ : timeOf t₂ < 86400000 := by
    unfold timeOf
    omega
  rw [isoUtc_fields hd₁ (by omega), isoUtc_fields hd₂ (by omega),
    textLe_fixed (by omega) (by omega), textLe_same, textLe_fixed (by omega) (by omega),
    textLe_same,
      textLe_fixed (by omega) (by omega),
    textLe_same, textLe_fixed (by omega) (by omega), textLe_same,
      textLe_fixed (by omega) (by omega),
    textLe_same, textLe_fixed (by omega) (by omega)]
  simp only [textLe_refl, and_true]
  rw [timeOfDay_le]
  -- an earlier day, or the same day and not later in it
  have hsplit₁ : t₁ = t₁ / 86400000 * 86400000 + timeOf t₁ := by
    unfold timeOf
    omega
  have hsplit₂ : t₂ = t₂ / 86400000 * 86400000 + timeOf t₂ := by
    unfold timeOf
    omega
  unfold Before at hbefore hafter
  rcases lt_trichotomy (t₁ / 86400000) (t₂ / 86400000) with hlt | heq | hgt
  · have hle : t₁ / 1000 ≤ t₂ / 1000 := by omega
    have hb := hbefore.mp (by omega)
    simp only [hle, iff_true]
    omega
  · have hle : t₁ / 1000 ≤ t₂ / 1000 ↔
      timeOf t₁ / 1000 ≤ timeOf t₂ / 1000 := by omega
    have hsame : Y₁ = Y₂ ∧ mo₁ = mo₂ ∧ da₁ = da₂ := by omega
    rw [hle]
    omega
  · have hnot : ¬ t₁ / 1000 ≤ t₂ / 1000 := by omega
    have hb := hafter.mp (by omega)
    simp only [hnot, iff_false]
    omega

end Instants

/-! ## Backoff times -/

/-- The delay of `backoffTimeIso_`. -/
def backoffMs (cfg : Config) (attempt_count : Nat) (retry_after_s : Option Nat) : Int :=
  min (match retry_after_s with
    | some s => s * 1000
    | none => backoffDelay cfg.backoff_cap_ms attempt_count cfg.backoff_base_ms) cfg.backoff_cap_ms

open Interleave in
/-- What `backoffTimeIso_` returns, from the one reading of the clock it makes. -/
theorem backoffTimeIso_runs {cfg : Config} {n : Nat} {ra : Option Nat} {w w' : World} {t : Int}
    {s : Bytes} (hx : (backoffTimeIso cfg n ra).Runs ((core cfg).effects .submission) w
      [⟨.wall, t⟩] (some s) w') : s = isoUtc (t + backoffMs cfg n ra) := by
  rcases runs_op.mp hx with ⟨a, w₁, h₁, heq, -, hrest⟩ | ⟨-, hr, -⟩
  · cases heq
    obtain ⟨-, hr, -⟩ := runs_ret.mp hrest
    exact Option.some.inj hr
  · cases hr

/-- In rows sorted by id, the first `n` are the rows with fewer than `n` before them. -/
theorem mem_take_iff {r : FindRecord} : ∀ {rows : List FindRecord} {n : Nat},
    (rows.map (·.id)).Pairwise (· < ·) →
      (r ∈ rows.take n ↔ r ∈ rows ∧ rows.countP (fun r' => decide (r'.id < r.id)) < n) := by
  intro rows
  induction rows with
  | nil => intro n _; simp
  | cons r₀ rows ih =>
    intro n hsorted
    rw [List.map_cons, List.pairwise_cons] at hsorted
    obtain ⟨hfirst, hsorted⟩ := hsorted
    cases n with
    | zero => simp
    | succ n =>
      rw [List.take_succ_cons, List.mem_cons, List.mem_cons, ih hsorted]
      by_cases hr : r = r₀
      · -- nothing stands before the first row
        subst hr
        have hnone : (r :: rows).countP (fun r' => decide (r'.id < r.id)) = 0 := by
          refine List.countP_eq_zero.mpr fun r' hr' => ?_
          rcases List.mem_cons.mp hr' with rfl | hr'
          · simp
          · have hlt := hfirst r'.id (List.mem_map_of_mem hr')
            simp only [decide_eq_true_eq]
            omega
        rw [hnone]
        simp
      · simp only [hr, false_or]
        refine and_congr_right fun hm => ?_
        have hlt : decide (r₀.id < r.id) = true :=
          decide_eq_true (hfirst r.id (List.mem_map_of_mem hm))
        rw [List.countP_cons_of_pos (p := fun r' : FindRecord => decide (r'.id < r.id)) hlt]
        omega

/-- What the query of `fetchByStatusLocked` asks of a row. -/
def Journal.asked (status : FindStatus) (kind : Option FindKind) (now_utc : Bytes)
    (r : FindRecord) : Bool :=
  r.status == status && (kind.all (r.payload.kind == ·)) && r.next_attempt_at.all
    (textLe · now_utc)

/-- How many rows the query for the status of `r` hands out before `r`. -/
def Journal.ahead (j : Journal) (r : FindRecord) (kind : Option FindKind) (now_utc : Bytes) : Nat :=
  j.rows.countP fun r' => decide (r'.id < r.id) && Journal.asked r.status kind now_utc r'

/-- A row that the limit reaches is handed out when the query's conditions hold. -/
theorem mem_fetchByStatus_iff {j : Journal} {r : FindRecord} (hr : r ∈ j.rows)
    {kind : Option FindKind} (hk : ∀ k, kind = some k → r.payload.kind = k) {now_utc : Bytes}
    {limit : Nat} (hl : j.ahead r kind now_utc < limit) :
    Journal.rowToRecord r ∈ j.fetchByStatus r.status kind now_utc limit ↔
      ∀ t, r.next_attempt_at = some t → textLe t now_utc = true := by
  have hkind : kind.all (r.payload.kind == ·) = true := by
    cases kind with
    | none => rfl
    | some k => exact beq_iff_eq.mpr (hk k rfl)
  have hsorted : ((j.rows.filter (Journal.asked r.status kind now_utc)).map (·.id)).Pairwise
      (· < ·) := j.ids_sorted.sublist (List.filter_sublist.map _)
  have htake := mem_take_iff (r := r) (n := limit) hsorted
  rw [List.countP_filter] at htake
  constructor
  · intro hm t ht
    obtain ⟨r', hr', heq⟩ := List.mem_map.mp hm
    obtain ⟨hrow, hf⟩ := List.mem_filter.mp (List.mem_of_mem_take hr')
    -- rows are told apart by their ids, which a reading keeps
    have hid : r'.id = r.id := (congrArg FindRecord.id heq : _)
    rw [Journal.eq_of_id hrow hr hid, ht] at hf
    simp only [Bool.and_eq_true] at hf
    exact hf.2
  · intro hdue
    refine List.mem_map.mpr ⟨r, htake.mpr ⟨List.mem_filter.mpr ⟨hr, ?_⟩, hl⟩, rfl⟩
    unfold Journal.asked
    rw [hkind, beq_self_eq_true]
    cases hn : r.next_attempt_at with
    | none => rfl
    | some t => exact hdue t hn

open Interleave in
/-- Persisted backoff times order correctly: as texts, instants of years 0 to 9999 are in the
order of their seconds; so a row whose retry time was made from the wall time `t`, and which the
limit of the query reaches, is handed out at the wall time `t'` exactly when the seconds of `t'`
have reached those of `t` plus the delay. -/
theorem persisted_backoff_order :
    (∀ t₁ t₂ : Int, FourDigits (yearOf t₁) → FourDigits (yearOf t₂) →
      (textLe (isoUtc t₁) (isoUtc t₂) = true ↔ t₁ / 1000 ≤ t₂ / 1000)) ∧
    ∀ (cfg : Config) (attempt_count : Nat) (retry_after_s : Option Nat) (w w' : World)
      (t t' : Int)
      (s : Bytes), (backoffTimeIso cfg attempt_count retry_after_s).Runs
        ((core cfg).effects .submission) w [⟨.wall, t⟩] (some s) w' →
      FourDigits (yearOf (t + backoffMs cfg attempt_count retry_after_s)) →
        FourDigits (yearOf t') →
      ∀ (j : Journal) (r : FindRecord) (kind : Option FindKind) (limit : Nat), r ∈ j.rows →
        r.next_attempt_at = some s → (∀ k, kind = some k → r.payload.kind = k) →
        j.ahead r kind (isoUtc t') < limit →
        (Journal.rowToRecord r ∈ j.fetchByStatus r.status kind (isoUtc t') limit ↔
          (t + backoffMs cfg attempt_count retry_after_s) / 1000 ≤ t' / 1000) := by
  refine ⟨fun t₁ t₂ h₁ h₂ => isoUtc_le_iff h₁ h₂, ?_⟩
  intro cfg n ra w w' t t' s hx h₁ h₂ j r kind limit hr hs hk hl
  rw [mem_fetchByStatus_iff hr hk hl, ← isoUtc_le_iff h₁ h₂, ← backoffTimeIso_runs hx, hs]
  constructor
  · intro hdue
    exact hdue s rfl
  · intro hle t' ht'
    cases ht'
    exact hle

open Interleave in
/-- Two seconds after 1969-12-31 23:59:59, and a query one millisecond too early. -/
theorem persisted_backoff_order_epoch : ∃ (j : Journal) (r : FindRecord), r ∈ j.rows ∧
    Journal.rowToRecord r ∉ j.fetchByStatus r.status none (isoUtc 999) 1 := by
  let r : FindRecord := { Journal.newRow 1 sampleFind with next_attempt_at := some (isoUtc 1000) }
  let j : Journal := ⟨[r], [], by simp, by simp⟩
  have hx : (backoffTimeIso {} 0 none).Runs ((core {}).effects .submission) (boot {} j)
      [⟨.wall, -1000⟩] (some (isoUtc 1000)) (boot {} j) := by
    refine runs_op.mpr (Or.inl ⟨-1000, boot {} j, [], rfl, ⟨.time (-1000), rfl⟩, ?_⟩)
    exact runs_ret.mpr ⟨rfl, rfl, rfl⟩
  refine ⟨j, r, List.mem_singleton.mpr rfl, ?_⟩
  rw [persisted_backoff_order.2 {} 0 none (boot {} j) (boot {} j) (-1000) 999 (isoUtc 1000) hx
    (by decide) (by decide) j r none 1 (List.mem_singleton.mpr rfl) rfl (fun k hk => by cases hk)
    (by decide)]
  decide

/-! ## HTTP dates -/

section HttpDates

open RustManager Fixdate

/-- The numbers of a fixdate name a day and a time. -/
structure RustManager.Fixdate.Real (d : Fixdate) : Prop where
  date : Valid (d.year : Int) (d.month + 1) d.day
  epoch : 1970 ≤ (d.year : Nat)
  hour : (d.hour : Nat) < 24
  minute : (d.minute : Nat) < 60
  second : (d.second : Nat) < 60

/-- The date and time of a fixdate, written as an ISO text. -/
def RustManager.Fixdate.iso (d : Fixdate) : Bytes :=
  (quad d.year ++ '-' :: (pair (d.month + 1) ++ '-' :: (pair d.day ++ 'T' ::
    (d.time ++ "Z".toList)))).map byte

/-- The digits of the Rust formatter are the bytes of the C++ one. -/
theorem byte_digit_eq (n : Nat) : byte (digit n) = UInt8.ofNat (48 + n % 10) := by
  unfold byte
  rw [(digit_spec n).2.1]

/-- So are its fields of two digits. -/
theorem pair_bytes (n : Nat) : (pair n).map byte = fixedDigits 2 n := by
  simp only [pair, List.map_cons, List.map_nil, byte_digit_eq]
  rfl

/-- And the year of four digits. -/
theorem quad_bytes (n : Nat) : (quad n).map byte = fixedDigits 4 n := by
  simp only [quad, List.map_cons, List.map_nil, byte_digit_eq]
  have h₁ : n / 10 / 10 = n / 100 := Nat.div_div_eq_div_mul n 10 10
  have h₂ : n / 100 / 10 = n / 1000 := Nat.div_div_eq_div_mul n 100 10
  simp only [fixedDigits, List.nil_append, List.cons_append, h₁, h₂]

variable {d : Fixdate}

/-- The instant of a fixdate. -/
def RustManager.Fixdate.ms (d : Fixdate) : Int :=
  TreeMiner.daysFromCivil d.year (d.month + 1) d.day * 86400000 +
    (d.hour * 3600 + d.minute * 60 + d.second : Nat) * 1000

/-- A fixdate that names a day and a time stands for its milliseconds. -/
theorem real_value (h : d.Real) : d.value = some d.ms := by
  have hday := h.date.day_pos
  have hday' := h.date.small.2
  have hepoch := h.epoch
  have hsec : d.seconds = some ((d.hour : Nat) * 3600 + d.minute * 60 + d.second) := by
    have hh := h.hour
    have hm := h.minute
    have hs := h.second
    unfold Fixdate.seconds
    rw [if_neg (by omega)]
  unfold Fixdate.value
  have hport : RustManager.daysFromCivil d.year (d.month + 1) d.day =
    daysFromCivil d.year (d.month + 1) d.day := rfl
  rw [if_neg (by omega), hsec]
  simp only [Option.bind_eq_bind, Option.bind_some, Option.pure_def, Option.map_some, hport]
  rfl

/-- Those milliseconds, written as an ISO text, are the date and time of the fixdate. -/
theorem isoUtc_ms (h : d.Real) : isoUtc d.ms = d.iso := by
  have hh := h.hour
  have hm := h.minute
  have hs := h.second
  have hyear := d.year.isLt
  -- the day and the time of day are taken apart again by the divisions of `isoUtc`
  have hdays : d.ms / 86400000 = daysFromCivil d.year (d.month + 1) d.day := by
    unfold Fixdate.ms
    omega
  have htime : timeOf d.ms = (d.hour * 3600 + d.minute * 60 + d.second) * 1000 := by
    unfold timeOf Fixdate.ms
    omega
  have hcivil : civilFromDays (d.ms / 86400000) =
    (((d.year : Nat) : Int), (d.month : Nat) + 1, (d.day : Nat)) := by
    rw [hdays]
    exact civilFromDays_daysFromCivil h.date
  rw [isoUtc_fields hcivil hyear, htime]
  have hhour : (d.hour * 3600 + d.minute * 60 + d.second : Nat) * 1000 / 3600000 = d.hour := by
    omega
  have hminute : (d.hour * 3600 + d.minute * 60 + d.second : Nat) * 1000 % 3600000 / 60000 =
      d.minute := by
    omega
  have hsecond : (d.hour * 3600 + d.minute * 60 + d.second : Nat) * 1000 % 3600000 % 60000 / 1000 =
      d.second := by
    omega
  rw [hhour, hminute, hsecond]
  unfold Fixdate.iso Fixdate.time
  simp only [List.map_append, List.map_cons, pair_bytes, quad_bytes, List.append_assoc,
    List.cons_append]
  rfl

end HttpDates

open RustManager in
/-- The calendar conversions undo each other, for every date and every day number; so do they
at the widths of the source, wherever these do not overflow; and the text made from the
instant of an HTTP date shows that date and time, in both managers. -/
theorem civil_dates_inverse :
    (∀ y m d, Valid y m d → civilFromDays (daysFromCivil y m d) = (y, m, d)) ∧
    (∀ z, Valid (civilFromDays z).1 (civilFromDays z).2.1 (civilFromDays z).2.2 ∧
      daysFromCivil (civilFromDays z).1 (civilFromDays z).2.1 (civilFromDays z).2.2 = z) ∧
    (∀ y m d, RustManager.daysFromCivil y m d = daysFromCivil y m d) ∧
    (∀ z, RustManager.civilFromDays z = civilFromDays z) ∧
    (∀ (y v : Int) (m d : UInt32), Valid y m.toNat d.toNat →
      (daysFromCivil64 y m d = some v → v = daysFromCivil y m.toNat d.toNat) ∧
      (-10000000000000000 ≤ y → y ≤ 10000000000000000 →
        daysFromCivil64 y m d = some (daysFromCivil y m.toNat d.toNat) ∧
        daysFromCivilI64 y m.toNat d.toNat = some (daysFromCivil y m.toNat d.toNat))) ∧
    (∀ z, -4611686018427387904 ≤ z → z ≤ 4611686018427387904 →
      ((civilFromDays64 z).map fun c => (c.1, c.2.1.toNat, c.2.2.toNat)) =
        some (civilFromDays z)) ∧
    ∀ d : Fixdate, d.Real → ∃ ms, parseHttpDateMs (d.text.map byte) = some ms ∧
      isoUtc ms = d.iso ∧
      RustManager.parseHttpDateMs d.text = some ms ∧ RustManager.isoUtc ms = d.iso := by
  refine ⟨fun y m d h => civilFromDays_daysFromCivil h,
    fun z => ⟨(civilFromDays_spec z).1, daysFromCivil_civilFromDays z⟩, fun _ _ _ => rfl,
    fun _ => rfl, fun y v m d h => ⟨?_, fun hlo hhi => ?_⟩, fun z => civilFromDays64_eq,
      fun d h => ?_⟩
  · intro hv
    exact ((daysFromCivil64_eq_some h.month_pos h.month_le h.day_pos h.small.2).mp hv).2.symm
  · have hrange := dayRange_of_year h.month_le h.small.2 hlo hhi
    exact ⟨(daysFromCivil64_eq_some h.month_pos h.month_le h.day_pos h.small.2).mpr ⟨hrange,
      rfl⟩,
      (days_from_civil_i64_eq_some h.month_pos h.month_le h.day_pos h.small.2).mpr ⟨hrange,
        rfl⟩⟩
  · have hvalue := real_value h
    exact ⟨d.ms, (parseHttpDateMs_text d).trans hvalue, isoUtc_ms h,
      (parse_http_date_ms_text d).trans hvalue, isoUtc_ms h⟩

open RustManager in
/-- A leap day of a century, and the last second of it. -/
theorem civil_dates_inverse_leap : civilFromDays (daysFromCivil 2000 2 29) = (2000, 2, 29) ∧
    ∃ ms, parseHttpDateMs (lit "Tue, 29 Feb 2000 23:59:59 GMT") = some ms ∧
      isoUtc ms = lit "2000-02-29T23:59:59Z" := by
  have hvalid : Valid 2000 2 29 := ⟨by decide, by decide, by decide, by decide⟩
  have hreal : Fixdate.Real ⟨1, 29, 1, 2000, 23, 59, 59⟩ :=
    ⟨hvalid, by decide, by decide, by decide, by decide⟩
  obtain ⟨hinv, -, -, -, -, -, hdate⟩ := civil_dates_inverse
  obtain ⟨ms, hparse, hiso, -⟩ := hdate _ hreal
  exact ⟨hinv 2000 2 29 hvalid, ms, hparse, hiso.trans (by decide)⟩

end TreeMiner

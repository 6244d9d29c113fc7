import Mathlib.Algebra.Order.Ring.Int
import TreeMiner.Submit.IsoText

/-!
# Backoff delays (`backoffTimeIso_`, `parseRetryAfterSeconds`)

The exponential delay doubles while it is below the cap and is clamped after; a cap of at
most 2^62 leaves room for one doubling more. A 429 may carry a number of seconds instead:
the digit loop gives up before its accumulator can grow past ten digits.

Both implementations are held to one formula, the doubled base clamped to the cap. The
loop of the source stops doubling as soon as the cap is reached, so the exponent may be
as large as it likes, and no intermediate product leaves 64 bits under the bound on the
cap.
-/

namespace TreeMiner

open Cxx Checked Interleave

/-- The doubling loop of `backoffTimeIso_` in 64 bits. -/
def backoffDelay64 (cap : Int) : Nat → Int → Option Int
  | 0, delay => some delay
  | n + 1, delay =>
    if delay < cap then (i64 (delay * 2)).bind fun delay => backoffDelay64 cap n delay
    else some delay

section Doubling

variable {cap delay : Int} {n : Nat}

/-- No doubling overflows. -/
theorem backoffDelay64_eq (hcap : cap ≤ 4611686018427387904) (hd : 0 < delay) :
    backoffDelay64 cap n delay = some (backoffDelay cap n delay) := by
  induction n generalizing delay with
  | zero => rfl
  | succ n ih =>
    unfold backoffDelay64 backoffDelay
    split
    next hlt =>
      have hfits : Fits64 (delay * 2) := by
        unfold Fits64
        omega
      rw [i64_of_fits hfits, Option.bind_some]
      exact ih (by omega)
    next => rfl

/-- Clamped, the loop computes `base * 2 ^ attempt_count`. -/
theorem min_backoffDelay (hd : 0 < delay) :
    min (backoffDelay cap n delay) cap = min cap (delay * 2 ^ n) := by
  induction n generalizing delay with
  | zero =>
    rw [pow_zero, mul_one, min_comm]
    rfl
  | succ n ih =>
    unfold backoffDelay
    split
    next hlt => rw [ih (by omega), pow_succ', ← mul_assoc]
    next hge =>
      -- a delay past the cap is past it after any number of doublings more
      have hpow : (1 : Int) ≤ 2 ^ (n + 1) := one_le_pow₀ (by decide)
      have hle : delay ≤ delay * 2 ^ (n + 1) := le_mul_of_one_le_right (le_of_lt hd) hpow
      rw [min_eq_right (by omega), min_eq_left (by omega)]

/-- A capped power of two grows with its exponent, up to the cap. -/
theorem min_pow_mono {base : Int} (hb : 0 < base) {a b : Nat} (h : a ≤ b) :
    min cap (base * 2 ^ a) ≤ min cap (base * 2 ^ b) := by
  have hpow : (2 : Int) ^ a ≤ 2 ^ b := pow_le_pow_right₀ (by decide) h
  exact min_le_min_left cap (mul_le_mul_of_nonneg_left hpow (le_of_lt hb))

end Doubling

section RetryAfter

variable {value k r : Nat} {ds pre post rest : Bytes} {c : UInt8}

/-- The two classes of bytes that the parser of `Retry-After` tells apart do not meet. -/
theorem not_isSpace_of_isDigit (h : isDigit c = true) : isSpace c = false := by
  have hb := isDigit_bounds h
  unfold isSpace
  rw [Bool.or_eq_false_iff, Bool.and_eq_false_iff, beq_eq_false_iff_ne]
  constructor
  · intro heq
    rw [heq] at hb
    exact absurd hb.1 (by decide)
  · right
    rw [decide_eq_false_iff_not]
    intro hle
    have hle' : c.toNat ≤ 13 := UInt8.le_iff_toNat_le.mp hle
    omega

/-- Blanks, and what `skipWs` leaves of them. -/
theorem skipWs_append (hpre : ∀ c ∈ pre, isSpace c = true) (s : Bytes) :
    skipWs (pre ++ s) = skipWs s := by
  unfold skipWs
  exact List.dropWhile_append_of_pos hpre

/-- The loop over the digits stops at the blanks behind them, or at the end. -/
theorem retryDigits_stop (hpost : ∀ c ∈ post, isSpace c = true) :
    retryDigits value post = some (value, post) := by
  cases post with
  | nil => rfl
  | cons c s =>
    have hnot : ¬isDigit c = true := by
      intro hd
      have hsp := hpost c List.mem_cons_self
      rw [not_isSpace_of_isDigit hd] at hsp
      cases hsp
    unfold retryDigits
    rw [if_neg hnot]

/-- Up to nine digits are read off: with `k` of them read, the value is below `10 ^ k`. -/
theorem retryDigits_digits (hds : ∀ c ∈ ds, isDigit c = true)
    (hpost : ∀ c ∈ post, isSpace c = true) (hv : value < 10 ^ k) (hlen : k + ds.length ≤ 9) :
    retryDigits value (ds ++ post) = some (digitsVal value ds, post) := by
  induction ds generalizing value k with
  | nil => exact retryDigits_stop hpost
  | cons c ds ih =>
    have hc := hds c List.mem_cons_self
    have hb := isDigit_bounds hc
    rw [List.length_cons] at hlen
    have hk : 10 ^ k ≤ 10 ^ 8 := Nat.pow_le_pow_right (by decide) (by omega)
    have hsmall : ¬value > 100000000 := by omega
    have hnext : value * 10 + (c.toNat - 48) < 10 ^ (k + 1) := by
      rw [Nat.pow_succ]
      omega
    rw [List.cons_append, retryDigits, if_pos hc, if_neg hsmall, digitsVal_cons]
    exact ih (fun d hd => hds d (List.mem_cons_of_mem c hd)) hnext (by omega)

/-- The guard keeps the accumulator within 32 bits. -/
theorem retryDigits_le {s : Bytes} (hv : value ≤ 1000000009)
    (h : retryDigits value s = some (r, rest)) : r ≤ 1000000009 := by
  induction s generalizing value with
  | nil =>
    cases h
    exact hv
  | cons c s ih =>
    unfold retryDigits at h
    split at h
    next hc =>
      split at h
      next => cases h
      next hsmall =>
        have hb := isDigit_bounds hc
        exact ih (by omega) h
    next =>
      cases h
      exact hv

/-- A header of at most nine digits between blanks is read as its number: the bound in the loop is
reached by none of them. -/
theorem parseRetryAfterSeconds_digits (hpre : ∀ c ∈ pre, isSpace c = true)
    (hpost : ∀ c ∈ post, isSpace c = true) (hds : ∀ c ∈ ds, isDigit c = true)
    (hne : ds ≠ []) (hlen : ds.length ≤ 9) :
    parseRetryAfterSeconds (pre ++ ds ++ post) = some (digitsVal 0 ds) := by
  obtain ⟨c, s, rfl⟩ := List.exists_cons_of_ne_nil hne
  have hc := hds c List.mem_cons_self
  have hskip : skipWs (pre ++ (c :: s) ++ post) = c :: (s ++ post) := by
    rw [List.append_assoc, skipWs_append hpre, List.cons_append,
      skipWs_cons (not_isSpace_of_isDigit hc)]
  have hread : retryDigits 0 (c :: (s ++ post)) = some (digitsVal 0 (c :: s), post) :=
    retryDigits_digits (k := 0) hds hpost (by decide) (by omega)
  have hend : skipWs post = [] := by
    have h := skipWs_append hpost []
    rw [List.append_nil] at h
    exact h
  unfold parseRetryAfterSeconds
  rw [hskip]
  dsimp only
  rw [if_pos hc, hread]
  dsimp only
  rw [if_pos hend]

/-- Whatever the header says, the seconds that are read from it are bounded, and their milliseconds
fit 64 bits. -/
theorem parseRetryAfterSeconds_le {header : Bytes} (h : parseRetryAfterSeconds header = some r) :
    r ≤ 1000000009 := by
  unfold parseRetryAfterSeconds at h
  split at h
  next => cases h
  next =>
    split at h
    next =>
      split at h
      next => cases h
      next hread =>
        split at h
        next =>
          cases h
          exact retryDigits_le (by decide) hread
        next => cases h
    next => cases h

end RetryAfter

/-! ## The delay of a retry -/

/-- The delay of `backoffTimeIso_` in 64 bits. -/
def backoffMs64 (cfg : Config) (attempt_count : Nat) (retry_after_s : Option Nat) : Option Int :=
  let delay :=
    match retry_after_s with
    | some s => i64 (s * 1000)
    | none => backoffDelay64 cfg.backoff_cap_ms attempt_count cfg.backoff_base_ms
  delay.map (min · cfg.backoff_cap_ms)

/-- A 429 goes back to the queue without a lookup. -/
theorem classifyResult_429 (rec : FindRecord) {res : TransportResult}
    (ht : res.transport_ok = true) (hs : res.http_status = 429) :
    (classifyResult rec res).next_status = .Pending ∧
      (classifyResult rec res).needs_lookup_confirmation = false := by
  unfold classifyResult classify
  rw [if_pos ht, hs, if_neg (by decide)]
  split
  next => exact ⟨rfl, rfl⟩
  next =>
    rw [if_neg (by decide), if_pos rfl]
    split
    · exact ⟨rfl, rfl⟩
    · exact ⟨rfl, rfl⟩

section Delay

variable {cfg : Config}

/-- Without a header the delay doubles with each attempt, up to the cap. -/
theorem backoffMs_none (hbase : 0 < cfg.backoff_base_ms) (n : Nat) : backoffMs cfg n none =
    min cfg.backoff_cap_ms (cfg.backoff_base_ms * 2 ^ n) :=
  min_backoffDelay hbase

/-- With a header the delay is what it says, up to the cap. -/
theorem backoffMs_some (n s : Nat) :
    backoffMs cfg n (some s) = min cfg.backoff_cap_ms (1000 * s) := by
  rw [mul_comm, min_comm]
  rfl

/-- Nothing overflows on the way to the delay. -/
theorem backoffMs64_eq (hbase : 0 < cfg.backoff_base_ms)
    (hcap : cfg.backoff_cap_ms ≤ 4611686018427387904) (n : Nat) {retry_after_s : Option Nat}
    (hs : ∀ s, retry_after_s = some s → s ≤ 1000000009) :
    backoffMs64 cfg n retry_after_s = some (backoffMs cfg n retry_after_s) := by
  unfold backoffMs64 backoffMs
  cases retry_after_s with
  | none =>
    dsimp only
    rw [backoffDelay64_eq hcap hbase, Option.map_some]
  | some s =>
    have hle := hs s rfl
    have hfits : Fits64 (s * 1000) := by
      unfold Fits64
      omega
    dsimp only
    rw [i64_of_fits hfits, Option.map_some]

end Delay

/-- Backoff arithmetic. Without a Retry-After the delay is the base doubled `attempt_count`
times, clamped, and no doubling overflows. After a 429 it is the number of seconds of the header,
clamped, when the header is a numeral of at most nine digits between blanks; with any other
header that it cannot read it is the exponential delay, and in every case the cap bounds it. -/
theorem backoff_arithmetic (cfg : Config) (hbase : 0 < cfg.backoff_base_ms)
    (hcap : cfg.backoff_cap_ms ≤ 4611686018427387904) :
    (∀ n retry_after_s, backoffTimeIso cfg n retry_after_s = do
      let w ← call .wall
      pure (isoUtc (w + backoffMs cfg n retry_after_s))) ∧
    (∀ n, backoffMs64 cfg n none = some (backoffMs cfg n none) ∧
      backoffMs cfg n none = min cfg.backoff_cap_ms (cfg.backoff_base_ms * 2 ^ n)) ∧
    (∀ a b, a ≤ b → backoffMs cfg a none ≤ backoffMs cfg b none) ∧
    (∀ (rec : FindRecord) (res : TransportResult) (header : Bytes), res.transport_ok = true →
      res.http_status = 429 → res.retry_after = some header →
      (∀ m, confirmFresh cfg m rec (classifyResult rec res) =
        pure (m, classifyResult rec res, none)) ∧
      retryTime cfg rec res.http_status res (classifyResult rec res) none = do
        let t ← backoffTimeIso cfg rec.attempt_count (parseRetryAfterSeconds header)
        pure (some t)) ∧
    (∀ (n : Nat) (pre ds post : Bytes), (∀ c ∈ pre, isSpace c = true) →
      (∀ c ∈ post, isSpace c = true) → (∀ c ∈ ds, isDigit c = true) → ds ≠ [] →
        ds.length ≤ 9 →
      backoffMs cfg n (parseRetryAfterSeconds (pre ++ ds ++ post)) =
        min cfg.backoff_cap_ms (1000 * digitsVal 0 ds)) ∧
    ∀ (n : Nat) (header : Bytes),
      backoffMs64 cfg n (parseRetryAfterSeconds header) =
        some (backoffMs cfg n (parseRetryAfterSeconds header)) ∧
      (parseRetryAfterSeconds header = none →
        backoffMs cfg n (parseRetryAfterSeconds header) =
          min cfg.backoff_cap_ms (cfg.backoff_base_ms * 2 ^ n)) ∧
      backoffMs cfg n (parseRetryAfterSeconds header) ≤ cfg.backoff_cap_ms := by
  refine ⟨fun _ _ => rfl, ?_, ?_, ?_, ?_, ?_⟩
  · intro n
    exact ⟨backoffMs64_eq hbase hcap n (fun s hs => by cases hs), backoffMs_none hbase n⟩
  · intro a b h
    rw [backoffMs_none hbase, backoffMs_none hbase]
    exact min_pow_mono hbase h
  -- a 429 goes to Pending without a lookup, and its header decides the delay
  · intro rec res header ht hs hh
    obtain ⟨hpending, hlookup⟩ := classifyResult_429 rec ht hs
    constructor
    · intro m
      unfold confirmFresh
      rw [if_neg (by rw [hlookup]; decide)]
    · unfold retryTime
      rw [if_pos ⟨hpending, rfl⟩, hs, hh]
      rfl
  -- blanks around the digits are skipped, and nine digits fit 32 bits
  · intro n pre ds post hpre hpost hds hne hlen
    rw [parseRetryAfterSeconds_digits hpre hpost hds hne hlen, backoffMs_some]
  · intro n header
    refine ⟨backoffMs64_eq hbase hcap n fun s hs => parseRetryAfterSeconds_le hs, ?_, ?_⟩
    · intro hn
      rw [hn, backoffMs_none hbase]
    · exact min_le_right _ _

/-- The defaults, 2 s up to 5 min: the eighth retry waits 5 min, and so does one that was told to
wait 999999999 s. -/
theorem backoff_arithmetic_defaults :
    backoffMs {} 8 none = 300000 ∧
      backoffMs {} 0 (parseRetryAfterSeconds (lit " 999999999 ")) = 300000 := by
  obtain ⟨-, hexp, -, -, hsecs, -⟩ := backoff_arithmetic {} (by decide) (by decide)
  constructor
  · rw [(hexp 8).2]
    decide
  · have h := hsecs 0 (lit " ") (lit "999999999") (lit " ") (by decide)
      (by decide) (by decide) (by decide) (by decide)
    rw [show lit " 999999999 " = lit " " ++ lit "999999999" ++ lit " " by decide, h]
    decide

end TreeMiner

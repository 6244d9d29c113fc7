import Mathlib.Algebra.Order.Archimedean.Basic
import Mathlib.Data.List.Induction
import Mathlib.Data.Rat.Floor
import TreeMiner.Lib.Checked
import TreeMiner.Submit.Pacing

/-!
# The pace of draining (`DrainScheduler`)

The handlers of the pace in any order. The constructor replaces a start rate that is not
positive; `onBreakerClose`, which sets the same member to the same value, does not. From then
on the interval is a quotient by zero, or negative. The cast to 64 bits is the other limit: a
rate so small that 1000 divided by it does not fit is not cast to anything.

`drain_paced_iff` is about every configuration that the handlers may be given.
-/

namespace TreeMiner

open Checked

/-- The member functions that change the rate. -/
inductive DrainEvent where
  | healthyRoundTrip
  | throttle
  | breakerClose
  deriving DecidableEq

namespace Drain

variable (cfg : DrainConfig)

def handle (d : Drain) (e : DrainEvent) : Drain :=
  match e with
  | .healthyRoundTrip => d.onHealthyRoundTrip cfg
  | .throttle => d.onThrottle cfg
  | .breakerClose => d.onBreakerClose cfg

/-- A new scheduler after these events. -/
def after (es : List DrainEvent) : Drain := es.foldl (handle cfg) (init cfg)

/-- The rate is in its bounds, and the interval there and at least 1. -/
structure Paced (d : Drain) : Prop where
  pos : 0 < d.rate_per_s
  le : d.rate_per_s ≤ max 1 cfg.max_rate_per_s
  interval : ∃ ms, d.submitIntervalMs64 = some ms ∧ 1 ≤ ms

/-- A rate whose interval fits 64 bits. -/
def Fits (rate : Rat) : Prop := 1000 < rate * 9223372036854775808

end Drain

namespace DrainConfig

/-- What the scheduler may be given; the start rate may be zero or negative. -/
structure Allowed (cfg : DrainConfig) : Prop where
  min_pos : 0 < cfg.min_rate_per_s
  min_le : cfg.min_rate_per_s ≤ cfg.max_rate_per_s
  max_le : cfg.max_rate_per_s ≤ 1000
  start_le : cfg.start_rate_per_s ≤ cfg.max_rate_per_s

end DrainConfig

namespace Drain

variable {cfg : DrainConfig} {d : Drain} {r : Rat} {es : List DrainEvent} {e : DrainEvent}

/-- One more event is handled at the rate that the events before it have led to. -/
theorem after_snoc : after cfg (es ++ [e]) = handle cfg (after cfg es) e := by
  unfold after
  rw [List.foldl_append]
  rfl

/-! ## The interval -/

/-- A rate whose interval fits is positive. -/
theorem Fits.pos (h : Fits r) : 0 < r := by
  unfold Fits at h
  linarith

/-- A higher rate has a shorter interval. -/
theorem Fits.mono {r' : Rat} (h : Fits r) (hle : r ≤ r') : Fits r' := by
  unfold Fits at h ⊢
  linarith

/-- For a positive rate the cast rounds down. -/
theorem submitIntervalMs_floor (hpos : 0 < d.rate_per_s) :
    d.submitIntervalMs = ⌊1000 / d.rate_per_s⌋ := by
  have hq : 0 ≤ 1000 / d.rate_per_s := div_nonneg (by norm_num) hpos.le
  unfold submitIntervalMs
  rw [Int.tdiv_eq_ediv_of_nonneg (Rat.num_nonneg.mpr hq), Rat.floor_def']

/-- The bound on the rate says that the interval is below `2 ^ 63`. -/
theorem lt_two_pow_iff (hpos : 0 < r) : ⌊1000 / r⌋ ≤ 9223372036854775807 ↔ Fits r := by
  have hlt : ⌊1000 / r⌋ ≤ 9223372036854775807 ↔
    ⌊1000 / r⌋ < 9223372036854775808 := by omega
  rw [hlt, Int.floor_lt, div_lt_iff₀ hpos]
  unfold Fits
  rw [mul_comm]
  norm_num

/-- The rates that have an interval of at least 1. -/
theorem interval_iff (hle : d.rate_per_s ≤ 1000) :
    (∃ ms, d.submitIntervalMs64 = some ms ∧ 1 ≤ ms) ∧ 0 < d.rate_per_s ↔
      Fits d.rate_per_s := by
  constructor
  · rintro ⟨⟨ms, hms, -⟩, hpos⟩
    unfold submitIntervalMs64 at hms
    rw [if_neg hpos.ne', i64_eq_some, submitIntervalMs_floor hpos] at hms
    exact (lt_two_pow_iff hpos).mp hms.1.2
  · intro hfits
    have hpos := hfits.pos
    have hone : (1 : Int) ≤ ⌊1000 / d.rate_per_s⌋ := by
      rw [Int.le_floor, le_div_iff₀ hpos]
      norm_num
      exact hle
    refine ⟨⟨⌊1000 / d.rate_per_s⌋, ?_, hone⟩, hpos⟩
    unfold submitIntervalMs64
    rw [if_neg hpos.ne', i64_eq_some, submitIntervalMs_floor hpos]
    exact ⟨⟨by omega, (lt_two_pow_iff hpos).mpr hfits⟩, rfl⟩

/-- A rate in its bounds is paced when its interval fits. -/
theorem paced_iff (ha : cfg.Allowed) (hle : d.rate_per_s ≤ max 1 cfg.max_rate_per_s) :
    Paced cfg d ↔ Fits d.rate_per_s := by
  have hmax : max 1 cfg.max_rate_per_s ≤ 1000 := max_le (by norm_num) ha.max_le
  rw [← interval_iff (hle.trans hmax)]
  constructor
  · intro h
    exact ⟨h.interval, h.pos⟩
  · intro h
    exact ⟨h.2, hle, h.1⟩

/-! ## What the handlers keep -/

/-- No event raises the rate above the maximum, except that the rate with which the scheduler starts
may be 1. -/
theorem handle_le (ha : cfg.Allowed) (hle : d.rate_per_s ≤ max 1 cfg.max_rate_per_s) :
    (handle cfg d e).rate_per_s ≤ max 1 cfg.max_rate_per_s := by
  have hpos : 0 ≤ max 1 cfg.max_rate_per_s := le_max_of_le_left (by norm_num)
  cases e with
  | healthyRoundTrip => exact (min_le_right _ _).trans (le_max_right _ _)
  | throttle =>
    refine max_le ?_ (ha.min_le.trans (le_max_right _ _))
    linarith
  | breakerClose => exact ha.start_le.trans (le_max_right _ _)

/-- Nor do any events. -/
theorem after_le (ha : cfg.Allowed) (es : List DrainEvent) :
    (after cfg es).rate_per_s ≤ max 1 cfg.max_rate_per_s := by
  induction es using List.reverseRecOn with
  | nil =>
    show (if cfg.start_rate_per_s ≤ 0 then (1 : Rat) else cfg.start_rate_per_s) ≤ _
    split
    · exact le_max_left _ _
    · exact ha.start_le.trans (le_max_right _ _)
  | append_singleton es e ih =>
    rw [after_snoc]
    exact handle_le ha ih

/-- Of the handlers, `onBreakerClose` alone can make a rate too small. -/
theorem handle_fits (ha : cfg.Allowed) (hmin : Fits cfg.min_rate_per_s) (hd : Fits d.rate_per_s)
    (he : e = .breakerClose → Fits cfg.start_rate_per_s) : Fits (handle cfg d e).rate_per_s := by
  cases e with
  | healthyRoundTrip =>
    show Fits (min (d.rate_per_s * 2) cfg.max_rate_per_s)
    obtain h | h := min_choice (d.rate_per_s * 2) cfg.max_rate_per_s
    · rw [h]
      have hpos := hd.pos
      exact hd.mono (by linarith)
    · rw [h]
      exact hmin.mono ha.min_le
  | throttle => exact hmin.mono (le_max_right _ _)
  | breakerClose => exact he rfl

/-- After events the rate fits if the lowest rate, the first rate and, where the breaker closes, the
start rate do. -/
theorem after_fits (ha : cfg.Allowed) (hmin : Fits cfg.min_rate_per_s)
    (hinit : Fits (init cfg).rate_per_s)
    (hclose : Fits cfg.start_rate_per_s ∨ .breakerClose ∉ es) :
    Fits (after cfg es).rate_per_s := by
  induction es using List.reverseRecOn with
  | nil => exact hinit
  | append_singleton es e ih =>
    rw [after_snoc]
    refine handle_fits ha hmin (ih ?_) ?_
    · exact hclose.imp_right fun h hmem => h (List.mem_append_left _ hmem)
    · rintro rfl
      exact hclose.resolve_right fun h => h (List.mem_append_right _ List.mem_cons_self)

/-- A start rate that is replaced is replaced by one that fits. -/
theorem init_fits (hstart : Fits cfg.start_rate_per_s) : Fits (init cfg).rate_per_s := by
  show Fits (if cfg.start_rate_per_s ≤ 0 then 1 else cfg.start_rate_per_s)
  rw [if_neg (not_le.mpr hstart.pos)]
  exact hstart

/-! ## The rates that are reached -/

/-- A breaker that closes sets the start rate as it stands, also where the constructor would not
have taken it. -/
theorem after_close : (after cfg (es ++ [.breakerClose])).rate_per_s = cfg.start_rate_per_s := by
  rw [after_snoc]
  rfl

/-- The rate after throttling alone. -/
theorem after_throttles (ha : cfg.Allowed) (n : Nat) :
    (after cfg (List.replicate (n + 1) .throttle)).rate_per_s =
      max ((init cfg).rate_per_s / 2 ^ (n + 1)) cfg.min_rate_per_s := by
  induction n with
  | zero =>
    show max ((init cfg).rate_per_s / 2) cfg.min_rate_per_s = _
    norm_num
  | succ n ih =>
    rw [List.replicate_succ', after_snoc]
    show max ((after cfg (List.replicate (n + 1) .throttle)).rate_per_s / 2) cfg.min_rate_per_s = _
    have hmin := ha.min_pos
    have hhalf : cfg.min_rate_per_s / 2 ≤ cfg.min_rate_per_s := by linarith
    rw [ih, ← max_div_div_right (by norm_num : (0 : Rat) ≤ 2), max_assoc, max_eq_right hhalf,
      div_div, ← pow_succ]

/-- Throttled for long enough, the scheduler is at its lowest rate. -/
theorem exists_min_rate (ha : cfg.Allowed) :
    ∃ es, (after cfg es).rate_per_s = cfg.min_rate_per_s := by
  obtain ⟨n, hn⟩ := pow_unbounded_of_one_lt ((init cfg).rate_per_s / cfg.min_rate_per_s)
    (one_lt_two (α := Rat))
  refine ⟨List.replicate (n + 1) .throttle, ?_⟩
  rw [after_throttles ha, max_eq_right]
  have hpow : (0 : Rat) < 2 ^ (n + 1) := by positivity
  have hgrow : (2 : Rat) ^ n ≤ 2 ^ (n + 1) := pow_le_pow_right₀ (by norm_num) (Nat.le_succ n)
  rw [div_lt_iff₀ ha.min_pos] at hn
  rw [div_le_iff₀ hpow, mul_comm]
  exact hn.le.trans (mul_le_mul_of_nonneg_right hgrow ha.min_pos.le)

end Drain

open Drain

/-- Over all event orders the pace stays in its bounds exactly when the start rate and the lowest
rate have an interval that fits, which no start rate has that is zero or negative. Where the
lowest rate and the first one have, a run is in its bounds exactly when the start rate has too
or the breaker never closes in it. -/
theorem drain_paced_iff (cfg : DrainConfig) (ha : cfg.Allowed) :
    ((∀ es, Paced cfg (after cfg es)) ↔ Fits cfg.start_rate_per_s ∧
      Fits cfg.min_rate_per_s) ∧
    (Fits cfg.min_rate_per_s → Fits (init cfg).rate_per_s → ∀ es,
      (∀ fs, fs <+: es → Paced cfg (after cfg fs)) ↔
        Fits cfg.start_rate_per_s ∨ .breakerClose ∉ es) := by
  have hpaced : ∀ es, Paced cfg (after cfg es) ↔ Fits (after cfg es).rate_per_s := fun es =>
    paced_iff ha (after_le ha es)
  refine ⟨⟨fun h => ?_, fun h es => ?_⟩,
    fun hmin hinit es => ⟨fun h => ?_, fun h fs hfs => ?_⟩⟩
  · constructor
    · have hclose := (hpaced _).mp (h ([] ++ [.breakerClose]))
      rwa [after_close] at hclose
    · obtain ⟨es, hes⟩ := exists_min_rate ha
      rw [← hes]
      exact (hpaced es).mp (h es)
  · exact (hpaced es).mpr (after_fits ha h.2 (init_fits h.1) (Or.inl h.1))
  -- the start rate comes into force only when the breaker closes
  · by_cases hmem : DrainEvent.breakerClose ∈ es
    · obtain ⟨front, rest, rfl⟩ := List.append_of_mem hmem
      have hprefix : front ++ [.breakerClose] <+: front ++ .breakerClose :: rest :=
        ⟨rest, by rw [List.append_assoc]; rfl⟩
      have hclose := (hpaced _).mp (h _ hprefix)
      rw [after_close] at hclose
      exact Or.inl hclose
    · exact Or.inr hmem
  · exact (hpaced fs).mpr
      (after_fits ha hmin hinit (h.imp_right fun hnot hm => hnot (hfs.subset hm)))

/-- The defaults of the source, at the start and once the breaker has closed. -/
theorem drain_paced_defaults : Paced {} (after {} []) ∧ Paced {} (after {} [.breakerClose]) := by
  have hall : ∀ es, Paced {} (after {} es) := by
    refine (drain_paced_iff {} ⟨by norm_num, by norm_num, by norm_num, by norm_num⟩).1.mpr
      ⟨?_, ?_⟩
    · unfold Fits
      norm_num
    · unfold Fits
      norm_num
  exact ⟨hall _, hall _⟩

/-- A start rate of zero is replaced by the constructor, and is the rate after the breaker has
closed: there is no interval. -/
theorem drain_paced_closed :
    DrainConfig.Allowed { start_rate_per_s := 0 } ∧
      (after { start_rate_per_s := 0 } []).rate_per_s = 1 ∧
      (after { start_rate_per_s := 0 } [.breakerClose]).rate_per_s = 0 ∧
      (after { start_rate_per_s := 0 } [.breakerClose]).submitIntervalMs64 = none ∧
      ¬ ∀ es, Paced { start_rate_per_s := 0 } (after { start_rate_per_s := 0 } es) := by
  refine ⟨⟨by norm_num, by norm_num, by norm_num, by norm_num⟩, rfl, rfl, rfl, fun h => ?_⟩
  exact absurd (h [.breakerClose]).pos (lt_irrefl 0)

end TreeMiner

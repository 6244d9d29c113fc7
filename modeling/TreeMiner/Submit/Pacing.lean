import Mathlib.Algebra.Order.Ring.Rat
import TreeMiner.Lib.Checked
import TreeMiner.Submit.Time

/-!
# Admission, ordering and headroom policies

The three pure policy objects the submission thread owns: `CircuitBreaker`,
`DrainScheduler` and `MarginPolicy`. Where the source asks its clock inside a
member function, the reading is an argument here. The breaker is built without
a jitter source, so `scheduleProbe_` adds none. Drain rates are rational
numbers: the source only doubles and halves them and clamps the result.

The delays of the breaker are `std::int64_t` and `i64`. A delay is doubled before it is
compared with the cap, and the product wraps as the compiled code wraps it (`wrap64`;
the C++ standard leaves a signed overflow undefined, and Rust without overflow checks
wraps). A sum of a clock reading and a delay is unbounded: the monotonic clock, in
milliseconds, stays far from the end of its type.
-/

namespace TreeMiner

open Checked

/-! ## `CircuitBreaker` -/

inductive BreakerState where
  | Closed
  | Open
  | HalfOpen
  deriving DecidableEq, Repr

/-- `CircuitBreaker::Config`. The delays are `std::int64_t`. -/
structure BreakerConfig where
  failure_threshold : Int := 3
  probe_base_ms : Int := 5000
  probe_cap_ms : Int := 60000
  probe_cap_xuni_ms : Int := 5000

/-- The members of `CircuitBreaker`. -/
structure Breaker where
  state : BreakerState := .Closed
  consecutive_failures : Int := 0
  probe_interval_ms : Int := 0
  next_probe_at_ms : Int := 0
  admission_available : Bool := false
  xuni_pressure : Bool := false

namespace Breaker

variable (cfg : BreakerConfig)

/-- `activeCapMs_`. -/
def activeCapMs (b : Breaker) : Int :=
  if b.xuni_pressure then min cfg.probe_cap_ms cfg.probe_cap_xuni_ms else cfg.probe_cap_ms

/-- `scheduleProbe_`. -/
def scheduleProbe (b : Breaker) (now : Int) : Breaker :=
  let cap := b.activeCapMs cfg
  let delay := min b.probe_interval_ms cap
  { b with next_probe_at_ms := now + if b.xuni_pressure then min delay cap else delay }

/-- `open_`. -/
def doOpen (b : Breaker) (now : Int) : Breaker :=
  { b with state := .Open, admission_available := false }.scheduleProbe cfg now

/-- `probeDue`. -/
def probeDue (b : Breaker) (now : Int) : Bool := b.state == .Open && b.next_probe_at_ms ≤ now

/-- `onProbeSuccess`. -/
def onProbeSuccess (b : Breaker) : Breaker :=
  if b.state ≠ .Open then b else { b with state := .HalfOpen, admission_available := true }

/-- `onProbeFailure`. -/
def onProbeFailure (b : Breaker) (now : Int) : Breaker :=
  if b.state ≠ .Open then b
  else
    let interval := min (wrap64 (b.probe_interval_ms * 2)) cfg.probe_cap_ms
    { b with probe_interval_ms := interval }.scheduleProbe cfg now

/-- `tryAdmit`. -/
def tryAdmit (b : Breaker) : Bool × Breaker :=
  match b.state with
  | .Closed => (true, b)
  | .HalfOpen =>
    if b.admission_available then (true, { b with admission_available := false }) else (false, b)
  | .Open => (false, b)

/-- `onVerifySuccess`. -/
def onVerifySuccess (b : Breaker) : Breaker :=
  { b with
    state := .Closed
    consecutive_failures := 0
    probe_interval_ms := cfg.probe_base_ms
    admission_available := false }

/-- `onVerifyTransportFailure`. -/
def onVerifyTransportFailure (b : Breaker) (now : Int) : Breaker :=
  match b.state with
  | .HalfOpen =>
    let interval :=
      min (wrap64 (max b.probe_interval_ms cfg.probe_base_ms * 2)) cfg.probe_cap_ms
    { b with probe_interval_ms := interval }.doOpen cfg now
  | .Closed =>
    let b := { b with consecutive_failures := b.consecutive_failures + 1 }
    if b.consecutive_failures ≥ cfg.failure_threshold then
      { b with probe_interval_ms := cfg.probe_base_ms }.doOpen cfg now
    else b
  | .Open => b

/-- `onVerifyInconclusive`. -/
def onVerifyInconclusive (b : Breaker) : Breaker :=
  let b := { b with consecutive_failures := 0 }
  if b.state = .HalfOpen then { b with admission_available := true } else b

/-- `setXuniPressure`. -/
def setXuniPressure (b : Breaker) (eligible_xuni_exists : Bool) (now : Int) : Breaker :=
  let b' := { b with xuni_pressure := eligible_xuni_exists }
  if !b.xuni_pressure && b'.xuni_pressure && b'.state == .Open then
    { b' with next_probe_at_ms := min b'.next_probe_at_ms (now + b'.activeCapMs cfg) }
  else b'

end Breaker

/-! ## `DrainScheduler` -/

inductive DifficultyTrend where
  | Unknown
  | Flat
  | Rising
  | Falling
  deriving DecidableEq, Repr

/-- `DrainScheduler::Config`. -/
structure DrainConfig where
  start_rate_per_s : Rat := 1
  max_rate_per_s : Rat := 4
  min_rate_per_s : Rat := 1 / 4
  xuni_preempt_window_ms : Int := 120000

/-- The one mutable member of `DrainScheduler`. -/
structure Drain where
  rate_per_s : Rat

namespace Drain

variable (cfg : DrainConfig)

/-- The constructor. -/
def init : Drain := ⟨if cfg.start_rate_per_s ≤ 0 then 1 else cfg.start_rate_per_s⟩

/-- `onBreakerClose`. -/
def onBreakerClose (_ : Drain) : Drain := ⟨cfg.start_rate_per_s⟩

/-- `onHealthyRoundTrip`. -/
def onHealthyRoundTrip (d : Drain) : Drain := ⟨min (d.rate_per_s * 2) cfg.max_rate_per_s⟩

/-- `onThrottle`. -/
def onThrottle (d : Drain) : Drain := ⟨max (d.rate_per_s / 2) cfg.min_rate_per_s⟩

/-- `submitIntervalMs`, over numbers of any size; a cast to an integer truncates. -/
def submitIntervalMs (d : Drain) : Int := (1000 / d.rate_per_s).num.tdiv (1000 / d.rate_per_s).den

/-- `submitIntervalMs` as the source computes it: no quotient by zero, and a cast of what is
inside 64 bits. -/
def submitIntervalMs64 (d : Drain) : Option Int :=
  if d.rate_per_s = 0 then none else i64 d.submitIntervalMs

/-- The interval that is added to the clock: what `submitIntervalMs64` says where it says
anything. Elsewhere the cast is undefined in C++, and the end of the type on the same side is
taken, which is what Rust's cast gives. -/
def pacingMs (d : Drain) : Int :=
  if d.rate_per_s = 0 then 9223372036854775807
  else max (-9223372036854775808) (min 9223372036854775807 d.submitIntervalMs)

/-- Where the cast is defined nothing is cut off. -/
theorem pacingMs_of_defined {d : Drain} {ms : Int} (h : d.submitIntervalMs64 = some ms) :
    d.pacingMs = ms := by
  unfold submitIntervalMs64 at h
  split at h
  · cases h
  next hne =>
    obtain ⟨⟨hlo, hhi⟩, rfl⟩ := i64_eq_some.mp h
    unfold pacingMs
    rw [if_neg hne, min_eq_right hhi, max_eq_right hlo]

end Drain

/-- The loop of `selectNext`: the oldest XUNI of an open window and the XEN11
to prefer, seen so far. -/
def selectLoop (trend : DifficultyTrend) (window : XuniWindowState) :
    List FindRecord → Option FindRecord → Option FindRecord →
      Option FindRecord × Option FindRecord
  | [], oldest_xuni, best_xen11 => (oldest_xuni, best_xen11)
  | r :: rs, oldest_xuni, best_xen11 =>
    match r.payload.kind with
    | .XUNI =>
      if window.isOpen && oldest_xuni.isNone then selectLoop trend window rs (some r) best_xen11
      else selectLoop trend window rs oldest_xuni best_xen11
    | .XEN11 =>
      match best_xen11 with
      | none => selectLoop trend window rs oldest_xuni (some r)
      | some b =>
        if trend = .Rising ∧ r.payload.memory_cost < b.payload.memory_cost then
          selectLoop trend window rs oldest_xuni (some r)
        else selectLoop trend window rs oldest_xuni best_xen11

/-- `DrainScheduler::selectNext`. -/
def selectNext (cfg : DrainConfig) (eligible : List FindRecord) (trend : DifficultyTrend)
    (window : XuniWindowState) : Option FindRecord :=
  let (oldest_xuni, best_xen11) := selectLoop trend window eligible none none
  if oldest_xuni.isSome ∧ window.ms_until_close ≤ cfg.xuni_preempt_window_ms then oldest_xuni
  else if best_xen11.isSome then best_xen11
  else oldest_xuni

/-- The loop chooses from what it was given and from what it had chosen before. -/
private theorem selectLoop_mem (trend : DifficultyTrend) (window : XuniWindowState)
    {P : FindRecord → Prop} :
    ∀ (rs : List FindRecord) (x b : Option FindRecord), (∀ r ∈ rs, P r) →
      (∀ r, x = some r → P r) → (∀ r, b = some r → P r) →
      (∀ r, (selectLoop trend window rs x b).1 = some r → P r) ∧
      (∀ r, (selectLoop trend window rs x b).2 = some r → P r) := by
  intro rs
  induction rs with
  | nil => intro x b _ hx hb; exact ⟨hx, hb⟩
  | cons r rs ih =>
    intro x b hrs hx hb
    have hr : P r := hrs r List.mem_cons_self
    have hrs' : ∀ r ∈ rs, P r := fun r hr => hrs r (List.mem_cons_of_mem _ hr)
    have hsome : ∀ r', some r = some r' → P r' := by
      intro r' h
      cases h
      exact hr
    unfold selectLoop
    -- a XUNI may become the first candidate, a XEN11 the second
    split
    · split
      · exact ih _ _ hrs' hsome hb
      · exact ih _ _ hrs' hx hb
    · split
      · exact ih _ _ hrs' hx hsome
      · split
        · exact ih _ _ hrs' hx hsome
        · exact ih _ _ hrs' hx hb

/-- What is picked is one of the eligible records. -/
theorem selectNext_mem {cfg : DrainConfig} {eligible : List FindRecord} {trend : DifficultyTrend}
    {window : XuniWindowState} {rec : FindRecord}
    (h : selectNext cfg eligible trend window = some rec) : rec ∈ eligible := by
  have hm := selectLoop_mem trend window (P := (· ∈ eligible)) eligible none none (fun _ h => h)
    (fun _ h => by cases h) (fun _ h => by cases h)
  unfold selectNext at h
  dsimp only at h
  split at h
  · exact hm.1 _ h
  · split at h
    · exact hm.2 _ h
    · exact hm.1 _ h

/-! ## `MarginPolicy` -/

inductive MarginMode where
  | Off
  | Fixed
  | Auto
  deriving DecidableEq, Repr

structure MarginConfig where
  mode : MarginMode := .Off
  margin_kib : UInt32 := 1000
  max_kib : UInt32 := 5000
  adjust_period_ms : Int := 300000

structure MarginInputs where
  breaker_open : Bool := false
  outage_ms : Int := 0
  backlog : Nat := 0

/-- `computeMargin`. -/
def computeMargin (cfg : MarginConfig) (i : MarginInputs) : UInt32 :=
  match cfg.mode with
  | .Off => 0
  | .Fixed => cfg.margin_kib
  | .Auto =>
    if !i.breaker_open && i.backlog == 0 then 0
    else
      let steps : UInt64 :=
        if i.breaker_open && cfg.adjust_period_ms > 0 && i.outage_ms > 0 then
          1 + UInt64.ofNat (i.outage_ms.tdiv cfg.adjust_period_ms).toNat
        else 1
      let margin := cfg.margin_kib.toUInt64 * steps
      (min margin cfg.max_kib.toUInt64).toUInt32

end TreeMiner

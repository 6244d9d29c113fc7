import Mathlib.Algebra.Order.Ring.Int
import Mathlib.Data.List.Induction
import Mathlib.Data.Nat.Find
import TreeMiner.Submit.Pacing

/-!
# The breaker as an automaton (`CircuitBreaker.cpp`)

The handlers of the breaker in any order, each with the reading of the clock it may
take, as long as no eligible XUNI is reported. The counter and the interval are written
by different handlers in different states and keep old values in the others. Two facts
about a single handler tie them to the history: while the breaker is closed the counter
is the present row of transport failures (`Counts.handled`), and from an opening on the
interval is the one that the number of failed attempts since then says
(`Scheduled.handled`).

The interval is doubled in 64 bits before it is compared with the cap. It never exceeds the
cap, so that the product fits where the cap is below `2 ^ 62`. From there on a few failed
probes lead to an interval whose double wraps to a negative delay (`overflow_probe`).
-/

namespace TreeMiner

open Checked

/-- The member functions that change the breaker. -/
inductive BreakerEvent where
  | probeSuccess
  | probeFailure
  | tryAdmit
  | verifySuccess
  | transportFailure
  | inconclusive
  /-- `setXuniPressure(false)`. -/
  | noXuni
  deriving DecidableEq

/-- A call, and what the clock says then. -/
structure BreakerCall where
  event : BreakerEvent
  now : Int

namespace Breaker

variable (cfg : BreakerConfig)

def handle (b : Breaker) (x : BreakerCall) : Breaker :=
  match x.event with
  | .probeSuccess => b.onProbeSuccess
  | .probeFailure => b.onProbeFailure cfg x.now
  | .tryAdmit => b.tryAdmit.2
  | .verifySuccess => b.onVerifySuccess cfg
  | .transportFailure => b.onVerifyTransportFailure cfg x.now
  | .inconclusive => b.onVerifyInconclusive
  | .noXuni => b.setXuniPressure cfg false x.now

/-- A new breaker after these calls. -/
def after (xs : List BreakerCall) : Breaker := xs.foldl (handle cfg) {}

/-- The call reports a failed probe, or the failure of a half-open submission. -/
def failed (b : Breaker) (x : BreakerCall) : Bool :=
  (b.state == .Open && x.event == .probeFailure) ||
    (b.state == .HalfOpen && x.event == .transportFailure)

/-- How many of the calls report one. -/
def failures : Breaker → List BreakerCall → Nat
  | _, [] => 0
  | b, x :: xs => (if b.failed x then 1 else 0) + failures (b.handle cfg x) xs

/-- When the probe was last scheduled: at `t`, or by the last of the failures. -/
def scheduledAt : Int → Breaker → List BreakerCall → Int
  | t, _, [] => t
  | t, b, x :: xs => scheduledAt (if b.failed x then x.now else t) (b.handle cfg x) xs

/-- None of the calls closes the breaker. -/
def NotClosed : Breaker → List BreakerCall → Prop
  | b, [] => b.state ≠ .Closed
  | b, x :: xs => b.state ≠ .Closed ∧ NotClosed (b.handle cfg x) xs

instance : (b : Breaker) → (xs : List BreakerCall) → Decidable (NotClosed cfg b xs)
  | b, [] => inferInstanceAs (Decidable (b.state ≠ .Closed))
  | b, x :: xs =>
    have : Decidable (NotClosed cfg (b.handle cfg x) xs) := instDecidableNotClosed _ xs
    inferInstanceAs (Decidable (b.state ≠ .Closed ∧ NotClosed cfg (b.handle cfg x) xs))

end Breaker

/-- The transport failures in a row at the end of the calls. An accepted submission,
which closes the breaker, and an inconclusive answer begin a new row. -/
def failureRow (xs : List BreakerCall) : Nat :=
  xs.foldl (fun n x =>
    match x.event with
    | .transportFailure => n + 1
    | .verifySuccess | .inconclusive => 0
    | _ => n) 0

/-- The row after one more call, from the row before it and the kind of the call. -/
theorem failureRow_snoc (xs : List BreakerCall) (x : BreakerCall) :
    failureRow (xs ++ [x]) =
      match x.event with
      | .transportFailure => failureRow xs + 1
      | .verifySuccess | .inconclusive => 0
      | _ => failureRow xs := by
  unfold failureRow
  rw [List.foldl_append]
  rfl

namespace Breaker

variable {cfg : BreakerConfig} {b : Breaker} {x : BreakerCall}

/-- One more call is handled in the state that the calls before it have led to. -/
theorem after_snoc (xs : List BreakerCall) (x : BreakerCall) :
    after cfg (xs ++ [x]) = (after cfg xs).handle cfg x := by
  unfold after
  rw [List.foldl_append]
  rfl

/-- Without an eligible XUNI a probe is scheduled an interval from now. -/
theorem scheduleProbe_eq (hx : b.xuni_pressure = false) (now : Int) :
    b.scheduleProbe cfg now =
      { b with next_probe_at_ms := now + min b.probe_interval_ms cfg.probe_cap_ms } := by
  unfold scheduleProbe activeCapMs
  simp [hx]

/-! ## What a call does -/

/-- The result of a call on a breaker without XUNI pressure. -/
inductive Handled (cfg : BreakerConfig) (b : Breaker) (x : BreakerCall) (b' : Breaker) : Prop where
  /-- Nothing but the admission. -/
  | same (state : b'.state = b.state) (count : b'.consecutive_failures = b.consecutive_failures)
      (interval : b'.probe_interval_ms = b.probe_interval_ms)
      (next : b'.next_probe_at_ms = b.next_probe_at_ms)
      (failure : x.event = .transportFailure → b.state = .Open)
      (success : x.event ≠ .verifySuccess) (inconclusive : x.event ≠ .inconclusive)
      (failed : b.failed x = false)
  /-- A good probe. -/
  | probed (event : x.event = .probeSuccess) (was : b.state = .Open) (state : b'.state = .HalfOpen)
      (interval : b'.probe_interval_ms = b.probe_interval_ms)
      (next : b'.next_probe_at_ms = b.next_probe_at_ms)
  /-- A bad probe, or a half-open submission that failed. -/
  | retried (failed : b.failed x = true) (state : b'.state = .Open)
      (interval : b'.probe_interval_ms = min (wrap64 (b.probe_interval_ms * 2)) cfg.probe_cap_ms ∨
        b'.probe_interval_ms =
          min (wrap64 (max b.probe_interval_ms cfg.probe_base_ms * 2)) cfg.probe_cap_ms)
      (next : b'.next_probe_at_ms = x.now + min b'.probe_interval_ms cfg.probe_cap_ms)
  | closed (event : x.event = .verifySuccess) (state : b'.state = .Closed)
      (count : b'.consecutive_failures = 0)
  | conclusive (event : x.event = .inconclusive) (state : b'.state = b.state)
      (count : b'.consecutive_failures = 0)
      (interval : b'.probe_interval_ms = b.probe_interval_ms)
      (next : b'.next_probe_at_ms = b.next_probe_at_ms)
  /-- A failure below the threshold. -/
  | counted (event : x.event = .transportFailure) (was : b.state = .Closed)
      (state : b'.state = .Closed) (count : b'.consecutive_failures = b.consecutive_failures + 1)
      (below : b'.consecutive_failures < cfg.failure_threshold)
  /-- The failure that reaches it. -/
  | opened (event : x.event = .transportFailure) (was : b.state = .Closed)
      (reached : cfg.failure_threshold ≤ b.consecutive_failures + 1) (state : b'.state = .Open)
      (interval : b'.probe_interval_ms = cfg.probe_base_ms)
      (next : b'.next_probe_at_ms = x.now + min b'.probe_interval_ms cfg.probe_cap_ms)

/-- A probe that fails while the breaker is open. -/
theorem handle_probeFailure (hx : b.xuni_pressure = false) (hs : b.state = .Open) (now : Int) :
    b.handle cfg ⟨.probeFailure, now⟩ =
      { b with
        probe_interval_ms := min (wrap64 (b.probe_interval_ms * 2)) cfg.probe_cap_ms
        next_probe_at_ms := now +
          min (min (wrap64 (b.probe_interval_ms * 2)) cfg.probe_cap_ms) cfg.probe_cap_ms } := by
  have heq : b.handle cfg ⟨.probeFailure, now⟩ =
      { b with
        probe_interval_ms :=
          min (wrap64 (b.probe_interval_ms * 2)) cfg.probe_cap_ms }.scheduleProbe cfg now := by
    simp [handle, onProbeFailure, hs]
  rw [heq, scheduleProbe_eq (by exact hx)]

variable (cfg) in
/-- Each call on a breaker without XUNI pressure does one of the things that `Handled` lists, and
leaves the pressure off. -/
theorem handled_handle (hx : b.xuni_pressure = false) (x : BreakerCall) :
    Handled cfg b x (b.handle cfg x) ∧ (b.handle cfg x).xuni_pressure = false := by
  obtain ⟨event, now⟩ := x
  -- one case for each call of the breaker; within it the state decides
  cases event with
  | probeSuccess =>
    by_cases hs : b.state = .Open
    · have heq : b.handle cfg ⟨.probeSuccess, now⟩ =
          { b with state := .HalfOpen, admission_available := true } := by
        simp [handle, onProbeSuccess, hs]
      rw [heq]
      exact ⟨.probed rfl hs rfl rfl rfl, hx⟩
    · have heq : b.handle cfg ⟨.probeSuccess, now⟩ = b := by simp [handle, onProbeSuccess, hs]
      rw [heq]
      exact ⟨.same rfl rfl rfl rfl (fun h => (nomatch h)) (fun h => (nomatch h))
        (fun h => (nomatch h)) (by simp [failed]), hx⟩
  | probeFailure =>
    by_cases hs : b.state = .Open
    · rw [handle_probeFailure hx hs]
      exact ⟨.retried (by simp [failed, hs]) hs (Or.inl rfl) rfl, hx⟩
    · have heq : b.handle cfg ⟨.probeFailure, now⟩ = b := by simp [handle, onProbeFailure, hs]
      rw [heq]
      exact ⟨.same rfl rfl rfl rfl (fun h => (nomatch h)) (fun h => (nomatch h))
        (fun h => (nomatch h)) (by simp [failed, hs]), hx⟩
  | tryAdmit =>
    have heq : b.handle cfg ⟨.tryAdmit, now⟩ = b ∨
        b.handle cfg ⟨.tryAdmit, now⟩ = { b with admission_available := false } := by
      simp only [handle, tryAdmit]
      split
      · exact Or.inl rfl
      · split
        · exact Or.inr rfl
        · exact Or.inl rfl
      · exact Or.inl rfl
    rcases heq with heq | heq <;> rw [heq]
    all_goals
      exact ⟨.same rfl rfl rfl rfl (fun h => (nomatch h)) (fun h => (nomatch h))
        (fun h => (nomatch h)) (by simp [failed]), hx⟩
  | verifySuccess => exact ⟨.closed rfl rfl rfl, hx⟩
  -- the only call that counts, and the only way from Closed to Open
  | transportFailure =>
    cases hs : b.state with
    | Closed =>
      by_cases hreached : cfg.failure_threshold ≤ b.consecutive_failures + 1
      · have heq : b.handle cfg ⟨.transportFailure, now⟩ =
            { b with
              consecutive_failures := b.consecutive_failures + 1
              probe_interval_ms := cfg.probe_base_ms
              state := .Open
              admission_available := false }.scheduleProbe cfg now := by
          simp [handle, onVerifyTransportFailure, hs, hreached, doOpen]
        rw [heq, scheduleProbe_eq (by exact hx)]
        exact ⟨.opened rfl hs hreached rfl rfl rfl, hx⟩
      · have heq : b.handle cfg ⟨.transportFailure, now⟩ =
            { b with consecutive_failures := b.consecutive_failures + 1 } := by
          simp [handle, onVerifyTransportFailure, hs, hreached]
        rw [heq]
        exact ⟨.counted rfl hs hs rfl (Int.not_le.mp hreached), hx⟩
    | Open =>
      have heq : b.handle cfg ⟨.transportFailure, now⟩ = b := by
        simp [handle, onVerifyTransportFailure, hs]
      rw [heq]
      exact ⟨.same rfl rfl rfl rfl (fun _ => hs) (fun h => (nomatch h)) (fun h => (nomatch h))
        (by simp [failed, hs]), hx⟩
    | HalfOpen =>
      have heq : b.handle cfg ⟨.transportFailure, now⟩ =
          { b with
            probe_interval_ms :=
              min (wrap64 (max b.probe_interval_ms cfg.probe_base_ms * 2)) cfg.probe_cap_ms
            state := .Open
            admission_available := false }.scheduleProbe cfg now := by
        simp [handle, onVerifyTransportFailure, hs, doOpen]
      rw [heq, scheduleProbe_eq (by exact hx)]
      exact ⟨.retried (by simp [failed, hs]) rfl (Or.inr rfl) rfl, hx⟩
  -- the row of failures is broken without a change of state
  | inconclusive =>
    refine ⟨.conclusive rfl ?_ ?_ ?_ ?_, ?_⟩ <;> simp only [handle, onVerifyInconclusive] <;>
      split <;> first | rfl | exact hx
  | noXuni =>
    have heq : b.handle cfg ⟨.noXuni, now⟩ = b := by
      simp only [handle, setXuniPressure, Bool.and_false, Bool.false_and]
      rw [if_neg Bool.false_ne_true, ← hx]
    rw [heq]
    exact ⟨.same rfl rfl rfl rfl (fun h => (nomatch h)) (fun h => (nomatch h))
      (fun h => (nomatch h)) (by simp [failed]), hx⟩

/-! ## The counter -/

/-- A closed breaker counts the failures of the present row and is below the threshold. -/
structure Counts (cfg : BreakerConfig) (row : Nat) (b : Breaker) : Prop where
  count : b.state = .Closed → b.consecutive_failures = row
  below : b.state = .Closed → b.consecutive_failures < cfg.failure_threshold

/-- Calls that are neither a failure nor a success nor inconclusive leave the row as it is. -/
theorem failureRow_same {xs : List BreakerCall} (hf : x.event ≠ .transportFailure)
    (hs : x.event ≠ .verifySuccess) (hi : x.event ≠ .inconclusive) :
    failureRow (xs ++ [x]) = failureRow xs := by
  rw [failureRow_snoc]
  cases he : x.event with
  | transportFailure => exact absurd he hf
  | verifySuccess => exact absurd he hs
  | inconclusive => exact absurd he hi
  | _ => rfl

section Counter

variable {xs : List BreakerCall} {b' : Breaker}

/-- One call keeps the invariant of the counter: outside the closed state there is nothing to keep,
and what closes the breaker also clears the counter. -/
theorem Counts.handled (h1 : 1 ≤ cfg.failure_threshold) (hb : Counts cfg (failureRow xs) b)
    (h : Handled cfg b x b') : Counts cfg (failureRow (xs ++ [x])) b' := by
  cases h with
  | same state count _ _ failure success inconclusive _ =>
    -- a failure while the breaker is Open is not counted
    by_cases hf : x.event = .transportFailure
    · have hopen : b'.state = .Open := state.trans (failure hf)
      exact ⟨fun h => (by rw [hopen] at h; cases h), fun h => (by rw [hopen] at h; cases h)⟩
    · rw [failureRow_same hf success inconclusive]
      refine ⟨fun h => ?_, fun h => ?_⟩
      · rw [count]
        exact hb.count (state ▸ h)
      · rw [count]
        exact hb.below (state ▸ h)
  | probed _ _ state =>
    exact ⟨fun h => (by rw [state] at h; cases h), fun h => (by rw [state] at h; cases h)⟩
  | retried _ state =>
    exact ⟨fun h => (by rw [state] at h; cases h), fun h => (by rw [state] at h; cases h)⟩
  | closed event _ count =>
    rw [failureRow_snoc, event]
    exact ⟨fun _ => count, fun _ => (by rw [count]; omega)⟩
  | conclusive event _ count =>
    rw [failureRow_snoc, event]
    exact ⟨fun _ => count, fun _ => (by rw [count]; omega)⟩
  | counted event was _ count below =>
    rw [failureRow_snoc, event]
    refine ⟨fun _ => ?_, fun _ => below⟩
    rw [count, hb.count was]
    rfl
  | opened _ _ _ state =>
    exact ⟨fun h => (by rw [state] at h; cases h), fun h => (by rw [state] at h; cases h)⟩

/-- A closed breaker opens with the failure that completes the row, and with nothing else. -/
theorem Counts.opens_iff (hb : Counts cfg (failureRow xs) b) (h : Handled cfg b x b')
    (hclosed : b.state = .Closed) :
    b'.state = .Open ↔
      x.event = .transportFailure ∧ (failureRow (xs ++ [x]) : Int) = cfg.failure_threshold := by
  have hcount := hb.count hclosed
  have hbelow := hb.below hclosed
  cases h with
  | same state _ _ _ failure =>
    refine ⟨fun h => ?_, fun h => ?_⟩
    · rw [state, hclosed] at h
      cases h
    · exact state.trans (failure h.1)
  | probed _ was =>
    rw [hclosed] at was
    cases was
  | retried failed =>
    simp only [Breaker.failed, hclosed] at failed
    cases failed
  | closed event state =>
    rw [state, event]
    exact ⟨fun h => (nomatch h), fun h => (nomatch h.1)⟩
  | conclusive event state =>
    rw [state, hclosed, event]
    exact ⟨fun h => (nomatch h), fun h => (nomatch h.1)⟩
  -- one failure more, and the threshold is not reached yet
  | counted event _ state count below =>
    rw [state, failureRow_snoc, event]
    refine ⟨fun h => (nomatch h), fun h => ?_⟩
    have hrow : ((failureRow xs + 1 : Nat) : Int) = cfg.failure_threshold := h.2
    push_cast at hrow
    omega
  -- one failure more, and it is
  | opened event _ reached state =>
    rw [state, failureRow_snoc, event]
    refine ⟨fun _ => ⟨rfl, ?_⟩, fun _ => rfl⟩
    show ((failureRow xs + 1 : Nat) : Int) = cfg.failure_threshold
    push_cast
    omega

end Counter

/-! ## The interval -/

/-- The delay of a probe after `k` failed attempts. -/
def delay (cfg : BreakerConfig) (k : Nat) : Int := min (cfg.probe_base_ms * 2 ^ k) cfg.probe_cap_ms

/-- The first probe comes after the base delay, which the cap does not cut. -/
theorem delay_zero (hle : cfg.probe_base_ms ≤ cfg.probe_cap_ms) :
    delay cfg 0 = cfg.probe_base_ms := by
  unfold delay
  rw [pow_zero, Int.mul_one, min_eq_left hle]

/-- Once the cap has been reached, doubling changes nothing. -/
theorem min_delay_double (h0 : 0 < cfg.probe_base_ms) (hle : cfg.probe_base_ms ≤ cfg.probe_cap_ms)
    (k : Nat) : min (delay cfg k * 2) cfg.probe_cap_ms = delay cfg (k + 1) := by
  unfold delay
  have hpos : 0 < cfg.probe_base_ms * 2 ^ k := Int.mul_pos h0 (Int.pow_pos (by decide))
  rw [pow_succ, ← Int.mul_assoc]
  omega

/-- No delay is below the base delay, so the `max` of the half-open branch changes nothing. -/
theorem base_le_delay (h0 : 0 < cfg.probe_base_ms) (hle : cfg.probe_base_ms ≤ cfg.probe_cap_ms)
    (k : Nat) : cfg.probe_base_ms ≤ delay cfg k := by
  unfold delay
  have hpow : (1 : Int) ≤ 2 ^ k := one_le_pow₀ (by decide)
  have hmul : cfg.probe_base_ms * 1 ≤ cfg.probe_base_ms * 2 ^ k :=
    Int.mul_le_mul_of_nonneg_left hpow (Int.le_of_lt h0)
  exact le_min (by omega) hle

/-- Every delay is positive, since the base delay is. -/
theorem delay_pos (h0 : 0 < cfg.probe_base_ms) (hle : cfg.probe_base_ms ≤ cfg.probe_cap_ms)
    (k : Nat) : 0 < delay cfg k := Int.lt_of_lt_of_le h0 (base_le_delay h0 hle k)

/-- A delay below `2 ^ 62` is doubled without overflow. -/
theorem wrap_delay (h0 : 0 < cfg.probe_base_ms) (hle : cfg.probe_base_ms ≤ cfg.probe_cap_ms)
    {k : Nat} (hsmall : delay cfg k < 2 ^ 62) : wrap64 (delay cfg k * 2) = delay cfg k * 2 := by
  have hpos := delay_pos h0 hle k
  exact wrap64_of_fits ⟨by omega, by omega⟩

/-- The breaker is not closed, and its probe is `k` failures late. -/
structure Scheduled (cfg : BreakerConfig) (t : Int) (k : Nat) (b : Breaker) : Prop where
  interval : b.probe_interval_ms = delay cfg k
  next : b.next_probe_at_ms = t + delay cfg k

/-- A delay is within the cap already, so that `scheduleProbe_` does not cut it again. -/
theorem min_delay_cap (k : Nat) : min (delay cfg k) cfg.probe_cap_ms = delay cfg k :=
  min_eq_left (min_le_right _ _)

/-- What one call does to the schedule of a breaker that is not closed. -/
theorem Scheduled.handled (h0 : 0 < cfg.probe_base_ms)
    (hle : cfg.probe_base_ms ≤ cfg.probe_cap_ms) {t : Int} {k : Nat} {b' : Breaker}
    (hb : Scheduled cfg t k b) (h : Handled cfg b x b')
    (hsmall : b.failed x = true → delay cfg k < 2 ^ 62) (was : b.state ≠ .Closed)
    (now : b'.state ≠ .Closed) :
    Scheduled cfg (if b.failed x then x.now else t) (k + if b.failed x then 1 else 0) b' := by
  obtain ⟨hinterval, hnext⟩ := hb
  cases h with
  | same _ _ interval next _ _ _ failed =>
    rw [failed]
    exact ⟨interval.trans hinterval, next.trans hnext⟩
  | probed event _ _ interval next =>
    have hfailed : b.failed x = false := by simp [failed, event]
    rw [hfailed]
    exact ⟨interval.trans hinterval, next.trans hnext⟩
  -- a failed probe doubles the interval up to the cap
  | retried failed _ interval next =>
    have hmax : max (delay cfg k) cfg.probe_base_ms = delay cfg k :=
      max_eq_left (base_le_delay h0 hle k)
    have hnew : b'.probe_interval_ms = delay cfg (k + 1) := by
      rw [← min_delay_double h0 hle, ← wrap_delay h0 hle (hsmall failed)]
      rcases interval with h | h
      · rw [h, hinterval]
      · rw [h, hinterval, hmax]
    rw [failed]
    refine ⟨hnew, ?_⟩
    rw [next, hnew, min_delay_cap]
    rfl
  | closed _ state => exact absurd state now
  | conclusive event _ _ interval next =>
    have hfailed : b.failed x = false := by simp [failed, event]
    rw [hfailed]
    exact ⟨interval.trans hinterval, next.trans hnext⟩
  | counted _ closed => exact absurd closed was
  | opened _ closed => exact absurd closed was

/-- An opening schedules the first probe. -/
theorem scheduled_opened (hle : cfg.probe_base_ms ≤ cfg.probe_cap_ms) {b' : Breaker}
    (h : Handled cfg b x b') (was : b.state = .Closed) (now : b'.state = .Open) :
    Scheduled cfg x.now 0 b' := by
  -- of the ways to handle a call only one leads from Closed to Open
  cases h with
  | same state =>
    rw [state, was] at now
    cases now
  | probed _ isOpen =>
    rw [was] at isOpen
    cases isOpen
  | retried failed =>
    simp only [Breaker.failed, was] at failed
    cases failed
  | closed _ state =>
    rw [state] at now
    cases now
  | conclusive _ state =>
    rw [state, was] at now
    cases now
  | counted _ _ state =>
    rw [state] at now
    cases now
  | opened _ _ _ _ interval next =>
    have hbase := interval.trans (delay_zero hle).symm
    refine ⟨hbase, ?_⟩
    rw [next, hbase, min_delay_cap]

/-- Along calls of which none closes the breaker, with a cap that can be doubled. -/
theorem Scheduled.run (h0 : 0 < cfg.probe_base_ms) (hle : cfg.probe_base_ms ≤ cfg.probe_cap_ms)
    (hcap : cfg.probe_cap_ms < 2 ^ 62) (xs : List BreakerCall) {t : Int} {k : Nat}
    (hquiet : b.xuni_pressure = false) (hb : Scheduled cfg t k b) (hn : NotClosed cfg b xs) :
    Scheduled cfg (scheduledAt cfg t b xs) (k + failures cfg b xs) (xs.foldl (handle cfg) b) := by
  induction xs generalizing t k b with
  | nil => exact hb
  | cons x xs ih =>
    obtain ⟨was, hrest⟩ := hn
    obtain ⟨hx, hquiet'⟩ := handled_handle cfg hquiet x
    have now : (b.handle cfg x).state ≠ .Closed := by
      cases xs with
      | nil => exact hrest
      | cons y ys => exact hrest.1
    have hsmall : delay cfg k < 2 ^ 62 := Int.lt_of_le_of_lt (min_le_right _ _) hcap
    have hstep := ih hquiet' (hb.handled h0 hle hx (fun _ => hsmall) was now) hrest
    rw [Nat.add_assoc] at hstep
    exact hstep

/-- What the configuration promises after any calls `xs`: a closed breaker is below the
threshold; it opens with the transport failure that completes a row of
`failure_threshold`, and with nothing else; and from an opening on, until the breaker
closes, the probe stands at the base delay, doubled for each failed attempt and capped. -/
structure Lawful (cfg : BreakerConfig) (xs : List BreakerCall) : Prop where
  below : (after cfg xs).state = .Closed →
    (after cfg xs).consecutive_failures < cfg.failure_threshold
  opens : (after cfg xs).state = .Closed → ∀ x,
    ((after cfg (xs ++ [x])).state = .Open ↔
      x.event = .transportFailure ∧ (failureRow (xs ++ [x]) : Int) = cfg.failure_threshold)
  delayed : (after cfg xs).state = .Closed → ∀ x, (after cfg (xs ++ [x])).state = .Open →
    ∀ ys, NotClosed cfg (after cfg (xs ++ [x])) ys →
      (after cfg (xs ++ [x] ++ ys)).next_probe_at_ms =
        scheduledAt cfg x.now (after cfg (xs ++ [x])) ys +
          min (cfg.probe_base_ms * 2 ^ failures cfg (after cfg (xs ++ [x])) ys) cfg.probe_cap_ms

/-- The counter and the flag of a new breaker after any calls. -/
theorem after_counts (h1 : 1 ≤ cfg.failure_threshold) (xs : List BreakerCall) :
    Counts cfg (failureRow xs) (after cfg xs) ∧ (after cfg xs).xuni_pressure = false := by
  induction xs using List.reverseRecOn with
  | nil =>
    exact ⟨⟨fun _ => rfl, fun _ => (show (0 : Int) < cfg.failure_threshold by omega)⟩, rfl⟩
  | append_singleton xs x ih =>
    obtain ⟨hx, hquiet⟩ := handled_handle cfg ih.2 x
    rw [after_snoc]
    exact ⟨ih.1.handled h1 hx, hquiet⟩

/-- Two stretches of calls, the second from the state the first has led to. -/
theorem after_append (xs ys : List BreakerCall) :
    after cfg (xs ++ ys) = ys.foldl (handle cfg) (after cfg xs) := by
  unfold after
  rw [List.foldl_append]

/-- With a cap that can be doubled, the breaker does what it is to do after any calls. -/
theorem lawful_of_cap (h1 : 1 ≤ cfg.failure_threshold) (h0 : 0 < cfg.probe_base_ms)
    (hle : cfg.probe_base_ms ≤ cfg.probe_cap_ms) (hcap : cfg.probe_cap_ms < 2 ^ 62)
    (xs : List BreakerCall) : Lawful cfg xs := by
  obtain ⟨hcounts, hquiet⟩ := after_counts h1 xs
  refine ⟨hcounts.below, fun hclosed x => ?_, fun hclosed x hopen ys hn => ?_⟩
  · rw [after_snoc]
    exact hcounts.opens_iff (handled_handle cfg hquiet x).1 hclosed
  · obtain ⟨hx, hquiet'⟩ := handled_handle cfg hquiet x
    rw [after_append (xs ++ [x]) ys]
    rw [after_snoc] at hopen hn ⊢
    have hfresh := scheduled_opened hle hx hclosed hopen
    have hrun := hfresh.run h0 hle hcap ys hquiet' hn
    rw [hrun.next, Nat.zero_add]
    rfl

/-! ## The overflow -/

section Overflow

/-- So many transport failures, or failed probes, all at time 0. -/
def repeated (event : BreakerEvent) (n : Nat) : List BreakerCall := List.replicate n ⟨event, 0⟩

/-- One more of them comes last. -/
theorem repeated_succ (event : BreakerEvent) (n : Nat) :
    repeated event (n + 1) = repeated event n ++ [⟨event, 0⟩] := List.replicate_succ'

/-- Below the threshold only the counter moves. -/
theorem after_transportFailures {n : Nat} (hn : (n : Int) < cfg.failure_threshold) :
    after cfg (repeated .transportFailure n) = { consecutive_failures := n } := by
  induction n with
  | zero => rfl
  | succ n ih =>
    rw [repeated_succ, after_snoc, ih (by omega)]
    have hbelow : ¬ cfg.failure_threshold ≤ (n : Int) + 1 := by omega
    simp [handle, onVerifyTransportFailure, hbelow]

/-- The failure that reaches the threshold opens the breaker. -/
theorem after_opening (hle : cfg.probe_base_ms ≤ cfg.probe_cap_ms) {n : Nat}
    (hn : (n : Int) + 1 = cfg.failure_threshold) :
    after cfg (repeated .transportFailure n ++ [⟨.transportFailure, 0⟩]) =
      { state := .Open, consecutive_failures := n + 1, probe_interval_ms := delay cfg 0,
        next_probe_at_ms := 0 + min (delay cfg 0) cfg.probe_cap_ms } := by
  rw [after_snoc, after_transportFailures (by omega), delay_zero hle]
  have hreached : cfg.failure_threshold ≤ (n : Int) + 1 := by omega
  simp [handle, onVerifyTransportFailure, hreached, doOpen, scheduleProbe, activeCapMs]

/-- An open breaker without XUNI pressure, after `k` failed probes. -/
structure Probing (cfg : BreakerConfig) (k : Nat) (b : Breaker) : Prop where
  state : b.state = .Open
  quiet : b.xuni_pressure = false
  interval : b.probe_interval_ms = delay cfg k

/-- Failed probes double the interval as long as each fits. -/
theorem Probing.run (h0 : 0 < cfg.probe_base_ms) (hle : cfg.probe_base_ms ≤ cfg.probe_cap_ms)
    (hb : Probing cfg 0 b) : ∀ {k : Nat}, (∀ j < k, delay cfg j < 2 ^ 62) →
      Probing cfg k ((repeated .probeFailure k).foldl (handle cfg) b) := by
  intro k
  induction k with
  | zero => exact fun _ => hb
  | succ k ih =>
    intro hsmall
    obtain ⟨state, quiet, interval⟩ := ih fun j hj => hsmall j (by omega)
    rw [repeated_succ, List.foldl_append]
    show Probing cfg (k + 1) (handle cfg _ ⟨.probeFailure, 0⟩)
    rw [handle_probeFailure quiet state, interval, wrap_delay h0 hle (hsmall k (by omega)),
      min_delay_double h0 hle]
    exact ⟨state, quiet, rfl⟩

/-- The first failed probe whose interval does not fit puts the next one before now. -/
theorem overflow_probe {k : Nat} (hb : Probing cfg k b) (hbig : 2 ^ 62 ≤ delay cfg k)
    (hfits : cfg.probe_cap_ms < 2 ^ 63) :
    (b.handle cfg ⟨.probeFailure, 0⟩).next_probe_at_ms < 0 := by
  have hlt : delay cfg k < 2 ^ 63 := Int.lt_of_le_of_lt (min_le_right _ _) hfits
  have hneg : wrap64 (delay cfg k * 2) < 0 := wrap64_neg (by omega) (by omega)
  rw [handle_probeFailure hb.quiet hb.state, hb.interval]
  show 0 + min (min (wrap64 (delay cfg k * 2)) cfg.probe_cap_ms) cfg.probe_cap_ms < 0
  omega

/-- Failed probes do not close an open breaker. -/
theorem notClosed_probes {n : Nat} (hs : b.state = .Open) (hx : b.xuni_pressure = false) :
    NotClosed cfg b (repeated .probeFailure n) := by
  induction n generalizing b with
  | zero => exact (by rw [hs]; exact fun h => (nomatch h) : b.state ≠ .Closed)
  | succ n ih =>
    refine ⟨by rw [hs]; exact fun h => (nomatch h), ih ?_ ?_⟩
    · rw [handle_probeFailure hx hs]
      exact hs
    · rw [handle_probeFailure hx hs]
      exact hx

/-- All probes fail at time 0, so the last one was scheduled then. -/
theorem scheduledAt_probes (n : Nat) : scheduledAt cfg 0 b (repeated .probeFailure n) = 0 := by
  induction n generalizing b with
  | zero => rfl
  | succ n ih =>
    show scheduledAt cfg (if b.failed ⟨.probeFailure, 0⟩ then 0 else 0) _
      (repeated .probeFailure n) = 0
    rw [ite_self]
    exact ih

/-- A cap from `2 ^ 62` on lets the interval grow until its double does not fit. -/
theorem exists_delay_big (h0 : 0 < cfg.probe_base_ms) (hcap : 2 ^ 62 ≤ cfg.probe_cap_ms) :
    ∃ k, 2 ^ 62 ≤ delay cfg k ∧ ∀ j < k, delay cfg j < 2 ^ 62 := by
  have hsome : ∃ k, 2 ^ 62 ≤ delay cfg k := by
    refine ⟨62, le_min ?_ hcap⟩
    have hbase : 1 ≤ cfg.probe_base_ms := h0
    calc (2 : Int) ^ 62 = 1 * 2 ^ 62 := (Int.one_mul _).symm
      _ ≤ cfg.probe_base_ms * 2 ^ 62 := Int.mul_le_mul_of_nonneg_right hbase (by decide)
  exact ⟨Nat.find hsome, Nat.find_spec hsome, fun j hj => Int.not_le.mp (Nat.find_min hsome hj)⟩

end Overflow

end Breaker

open Breaker

/-- For every configuration with delays of 64 bits: the breaker counts, opens and schedules as
`Lawful` says, after any calls, exactly if twice the cap fits the type too. -/
theorem breaker_automaton_iff (cfg : BreakerConfig) (h1 : 1 ≤ cfg.failure_threshold)
    (h0 : 0 < cfg.probe_base_ms) (hle : cfg.probe_base_ms ≤ cfg.probe_cap_ms)
    (hfits : cfg.probe_cap_ms < 2 ^ 63) :
    (∀ xs, Lawful cfg xs) ↔ cfg.probe_cap_ms < 2 ^ 62 := by
  refine ⟨fun hlaw => ?_, fun hcap => lawful_of_cap h1 h0 hle hcap⟩
  by_contra hbig
  obtain ⟨k, hk, hsmall⟩ := exists_delay_big h0 (Int.not_lt.mp hbig)
  -- the threshold's failures, then failed probes up to the one whose double overflows
  obtain ⟨n, hn⟩ : ∃ n : Nat, (n : Int) + 1 = cfg.failure_threshold :=
    ⟨(cfg.failure_threshold - 1).toNat, by omega⟩
  have hopened := after_opening hle hn
  generalize hx : (⟨.transportFailure, 0⟩ : BreakerCall) = x at hopened
  generalize hxs : repeated .transportFailure n = xs at hopened
  have hclosed : (after cfg xs).state = .Closed := by
    rw [← hxs, after_transportFailures (by omega)]
  have hstart : Probing cfg 0 (after cfg (xs ++ [x])) := by
    rw [hopened]
    exact ⟨rfl, rfl, rfl⟩
  have hneg := overflow_probe (hstart.run h0 hle hsmall) hk hfits
  have hdelay := (hlaw xs).delayed hclosed x hstart.state (repeated .probeFailure (k + 1))
    (notClosed_probes hstart.state hstart.quiet)
  rw [after_append (xs ++ [x]), repeated_succ, List.foldl_append, ← repeated_succ] at hdelay
  have hpos := delay_pos h0 hle
    (failures cfg (after cfg (xs ++ [x])) (repeated .probeFailure (k + 1)))
  rw [← hx, scheduledAt_probes, hx] at hdelay
  unfold delay at hpos
  exact absurd (hdelay.symm.le.trans_lt hneg) (by omega)

/-- Three failures open the breaker; then a probe fails, and the submission after a good
one. -/
theorem breaker_automaton_outage :
    let calls : List BreakerCall := [⟨.transportFailure, 0⟩, ⟨.transportFailure, 1000⟩]
    let later : List BreakerCall :=
      [⟨.probeFailure, 7000⟩, ⟨.probeSuccess, 17000⟩, ⟨.tryAdmit, 17000⟩,
        ⟨.transportFailure, 18000⟩]
    (after {} calls).consecutive_failures < 3 ∧
      (after {} (calls ++ [⟨.transportFailure, 2000⟩] ++ later)).next_probe_at_ms =
        18000 + 20000 := by
  intro calls later
  have hlaw : Lawful {} calls :=
    (breaker_automaton_iff {} (by decide) (by decide) (by decide) (by decide)).mpr (by decide) calls
  refine ⟨hlaw.below (by decide), ?_⟩
  rw [hlaw.delayed (by decide) ⟨.transportFailure, 2000⟩ (by decide) later (by decide)]
  decide

/-- A threshold of one, a base delay of `2 ^ 62` and the largest cap: one failed probe after the
opening, and the next probe is scheduled for `2 ^ 63` milliseconds ago. -/
theorem breaker_automaton_overflow :
    let cfg : BreakerConfig :=
      { failure_threshold := 1, probe_base_ms := 2 ^ 62, probe_cap_ms := 2 ^ 63 - 1 }
    (1 ≤ cfg.failure_threshold ∧ 0 < cfg.probe_base_ms ∧
      cfg.probe_base_ms ≤ cfg.probe_cap_ms ∧
      cfg.probe_cap_ms < 2 ^ 63) ∧
    (after cfg [⟨.transportFailure, 0⟩, ⟨.probeFailure, 0⟩]).next_probe_at_ms = -2 ^ 63 ∧
      ¬ ∀ xs, Lawful cfg xs := by
  intro cfg
  have hnext : (after cfg [⟨.transportFailure, 0⟩, ⟨.probeFailure, 0⟩]).next_probe_at_ms =
      -2 ^ 63 := by decide
  refine ⟨by decide, hnext, fun hlaw => ?_⟩
  have hdelay :=
    (hlaw []).delayed rfl ⟨.transportFailure, 0⟩ (by decide) [⟨.probeFailure, 0⟩]
    (by decide)
  exact absurd (hnext.symm.trans hdelay) (by decide)

end TreeMiner

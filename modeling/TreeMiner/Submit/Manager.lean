import TreeMiner.Journal.FindJournal
import TreeMiner.Lib.Interleave
import TreeMiner.Submit.Pacing

/-!
# `SubmissionManager.cpp`: the scheduling step

`runOnce` and everything it calls, as a program of atomic operations. An
operation is what another thread can come between: a journal call (each takes
the journal's mutex and is one transaction), a section under `state_mutex_`, a
transport round trip, a clock reading. What only the submission thread touches
(`Members`) is passed along and loaded and stored once per step; an exception
drops the pending store, and the fatal flag it sets keeps every later step from
loading.

Log lines, metrics and callbacks carry nothing back into the step and are left
out, except for the journal count that `logBreakerTransition_` takes, which can
throw.
-/

namespace TreeMiner

open Cxx Interleave

/-! ## Confirmation -/

/-- `SubmissionManager::ConfirmBodyCheck`. -/
inductive ConfirmBodyCheck where
  | Confirmed
  | Malformed
  | KeyMismatch
  | HashMismatch
  deriving DecidableEq, Repr

/-- `SubmissionManager::confirmationMatches`. -/
def confirmationMatches (record : FindRecord) (body : Bytes) : ConfirmBodyCheck :=
  match extractJsonField body (lit "key") with
  | none => .Malformed
  | some key =>
    if key ≠ record.payload.key then .KeyMismatch
    else
      match extractJsonField body (lit "hash_to_verify") with
      | some hash => if hash ≠ record.payload.hash_to_verify then .HashMismatch else .Confirmed
      | none => .Confirmed

/-- `confirmRejectReason`. -/
def confirmRejectReason : ConfirmBodyCheck → Bytes
  | .KeyMismatch =>
    lit
      "/get_block 200 body describes a different key — not a confirmation of this record, remaining unconfirmed"
  | .HashMismatch =>
    lit
      "/get_block 200 has our key but a DIFFERENT hash_to_verify — refusing to ack, remaining unconfirmed"
  | _ => lit "/get_block 200 body malformed or missing key — untrusted, remaining unconfirmed"

/-- A lookup answer that proves the server holds this record. -/
def Proves (rec : FindRecord) (conf : TransportResult) : Prop :=
  conf.transport_ok = true ∧ conf.http_status = 200 ∧
    confirmationMatches rec conf.body = .Confirmed

instance (rec : FindRecord) (conf : TransportResult) : Decidable (Proves rec conf) := by
  unfold Proves
  infer_instance

/-- The confirmation branches of `submitStep_`: the classification to record and
whether a backed-off retry time goes with it. -/
def freshConfirmation (rec : FindRecord) (c : Classification) (conf : TransportResult) :
    Classification × Bool :=
  if Proves rec conf then
    ({ c with
        next_status := .Acked
        needs_lookup_confirmation := false
        reason := c.reason ++ lit "; confirmed via /get_block (body matches key)" }, false)
  else if conf.transport_ok = true ∧ conf.http_status = 200 then
    ({ c with reason := c.reason ++ lit "; " ++
        confirmRejectReason (confirmationMatches rec conf.body) }, true)
  else if conf.transport_ok = true ∧ conf.http_status = 404 then
    ({ c with
        next_status := .Pending
        needs_lookup_confirmation := false
        reason := c.reason ++
          lit "; /get_block says ABSENT — server 200 was not durable, resubmitting" }, true)
  else
    ({ c with reason := c.reason ++ lit "; /get_block unavailable, remaining unconfirmed" }, true)

/-- The branches of `confirmStep_`, likewise. -/
def retryConfirmation (rec : FindRecord) (conf : TransportResult) : Classification × Bool :=
  if Proves rec conf then
    ({ next_status := .Acked
       reason := lit "confirmed via /get_block (retry, body matches key)" }, false)
  else if conf.transport_ok = true ∧ conf.http_status = 200 then
    ({ next_status := .AcceptedUnconfirmed
       reason := confirmRejectReason (confirmationMatches rec conf.body) }, true)
  else if conf.transport_ok = true ∧ conf.http_status = 404 then
    ({ next_status := .Pending
       reason := lit "/get_block says ABSENT — server 200 was not durable, resubmitting" }, true)
  else
    ({ next_status := .AcceptedUnconfirmed
       reason := lit "/get_block unavailable, remaining unconfirmed (retry backoff)" }, true)

/-! ## Operations -/

/-- `SubmissionManager::Config`. -/
structure Config where
  fetch_limit : Nat := 16
  confirm_fetch_limit : Nat := 4
  backoff_base_ms : Int := 2000
  backoff_cap_ms : Int := 300000
  xuni_max_windows : Int := 3
  breaker : BreakerConfig := {}
  drain : DrainConfig := {}
  margin : MarginConfig := {}
  margin_eval_interval_ms : Int := 5000
  pre_park_below_difficulty : Bool := false

/-- Members only the submission thread reads and writes. -/
structure Members where
  breaker : Breaker := {}
  scheduler : Drain
  server_offset_ms : Option Int := none
  next_submit_allowed_ms : Int := 0
  margin_kib : UInt32 := 0
  outage_started_ms : Int := 0
  last_outage_span_ms : Int := 0
  last_margin_eval_ms : Int := 0
  margin_eval_started : Bool := false

/-- The atomic operations of the submission core. `observe` is the locked
section of `observeDifficulty`; its answer says whether parked finds must be
released. `noteWindow t` is the assignment to `last_window_open_` after the
window was judged at server time `t`. -/
inductive Op where
  | fatal
  | members
  | setMembers (m : Members)
  | mono
  | wall
  | observe (d : UInt32)
  | lastDifficulty
  | trend
  | lastWindowOpen
  | noteWindow (t : Int)
  | append (p : FoundPayload)
  | fetchEligibleOfKind (kind : FindKind) (now_utc : Bytes) (limit : Nat)
  | fetchAwaitingConfirmation (now_utc : Bytes) (limit : Nat)
  | recordAttempt (id : Int) (c : Classification) (http_status : Option Int) (body : Bytes)
      (next_attempt_at : Option Bytes) (now_utc : Bytes)
  | unparkForDifficulty (d : UInt32)
  | unparkXuniForWindow (max_windows : Int)
  | recordDifficulty (d : UInt32) (at_utc : Bytes)
  | counts
  | submit (p : FoundPayload)
  | confirm (key : Bytes)
  | difficulty

/-- What each operation answers. -/
@[reducible] def Op.Ans : Op → Type
  | .fatal | .observe _ | .lastWindowOpen => Bool
  | .members => Members
  | .mono | .wall | .append _ => Int
  | .lastDifficulty => Option UInt32
  | .trend => DifficultyTrend
  | .fetchEligibleOfKind .. | .fetchAwaitingConfirmation .. => List FindRecord
  | .counts => Journal.Counts
  | .submit _ | .confirm _ | .difficulty => TransportResult
  | .setMembers _ | .noteWindow _ | .recordAttempt .. | .unparkForDifficulty _
  | .unparkXuniForWindow _ | .recordDifficulty .. => Unit

@[reducible] def sig : Sig := ⟨Op, Op.Ans⟩

abbrev Step (α : Type) := Prog sig α

/-- Ask for one operation. -/
abbrev call (o : Op) : Step o.Ans := Prog.call (S := sig) o

/-- `SubmissionManager::StepResult`. -/
inductive StepResult where
  | Idle
  | Probed
  | Submitted
  | BreakerBlocked
  | ConfirmRetried
  deriving DecidableEq, Repr

/-! ## Difficulty, clock and margin -/

/-- `SubmissionManager::observeDifficulty`. -/
def observeDifficulty (d : UInt32) : Step Unit := do
  let release ← call (.observe d)
  if release then call (.unparkForDifficulty d) else pure ()

/-- `trackServerDate_`. -/
def trackServerDate (m : Members) (r : TransportResult) : Step Members :=
  match (if r.transport_ok then r.date_header.bind parseHttpDateMs else none) with
  | none => pure m
  | some server_ms => do
    let w ← call .wall
    pure { m with server_offset_ms := some (server_ms - w) }

/-- `handleDifficultyBody_`. -/
def handleDifficultyBody (body : Bytes) : Step Unit :=
  match (extractJsonField body (lit "difficulty")).bind fun f =>
      parseDifficultyHint (lit "m=" ++ f) with
  | none => pure ()
  | some d => do
    observeDifficulty d
    let w ← call .wall
    call (.recordDifficulty d (isoUtc w))

/-- The doubling loop of `backoffTimeIso_`. -/
def backoffDelay (cap : Int) : Nat → Int → Int
  | 0, delay => delay
  | n + 1, delay => if delay < cap then backoffDelay cap n (delay * 2) else delay

/-- `backoffTimeIso_`. -/
def backoffTimeIso (cfg : Config) (attempt_count : Nat) (retry_after_s : Option Nat) :
    Step Bytes := do
  let delay : Int :=
    match retry_after_s with
    | some s => s * 1000
    | none => backoffDelay cfg.backoff_cap_ms attempt_count cfg.backoff_base_ms
  let w ← call .wall
  pure (isoUtc (w + min delay cfg.backoff_cap_ms))

/-- The outage clock of `updateMargin_`. -/
def outageClock (m : Members) (now : Int) : Members :=
  if m.breaker.state = .Open then
    if m.outage_started_ms = 0 then { m with outage_started_ms := now } else m
  else
    { m with
      last_outage_span_ms :=
        if m.outage_started_ms ≠ 0 then max (now - m.outage_started_ms) 0
        else m.last_outage_span_ms
      outage_started_ms := 0 }

/-- Everything journaled that is not final. -/
def backlogOf (c : Journal.Counts) : Nat :=
  c.pending + c.parked + c.accepted_unconfirmed + c.quarantined

/-- `updateMargin_`. -/
def updateMargin (cfg : Config) (m : Members) : Step Members := do
  let now ← call .mono
  let m := outageClock m now
  if cfg.margin.mode = .Off then pure m
  else if m.margin_eval_started ∧ now - m.last_margin_eval_ms < cfg.margin_eval_interval_ms then
    pure m
  else
    let m := { m with last_margin_eval_ms := now, margin_eval_started := true }
    let isOpen := m.breaker.state = .Open
    let inputs : MarginInputs :=
      { breaker_open := isOpen, outage_ms := if isOpen then now - m.outage_started_ms else 0 }
    if cfg.margin.mode = .Auto then
      let c ← call .counts
      pure { m with margin_kib := computeMargin cfg.margin { inputs with backlog := backlogOf c } }
    else pure { m with margin_kib := computeMargin cfg.margin inputs }

/-- `logBreakerTransition_`, as far as it touches anything. -/
def logBreakerTransition (before after : BreakerState) : Step Unit :=
  if before = after then pure ()
  else do
    let _ ← call .counts
    pure ()

/-! ## The steps -/

/-- `probeStep_`. -/
def probeStep (cfg : Config) (m : Members) : Step (StepResult × Members) := do
  let now ← call .mono
  if !m.breaker.probeDue now then pure (.Idle, m)
  else
    let r ← call .difficulty
    let m ← trackServerDate m r
    if r.transport_ok && r.http_status == 200 && !isBlank r.body then
      handleDifficultyBody r.body
      let b := m.breaker.onProbeSuccess
      logBreakerTransition m.breaker.state b.state
      pure (.Probed, { m with breaker := b })
    else
      let now ← call .mono
      pure (.Probed, { m with breaker := m.breaker.onProbeFailure cfg.breaker now })

/-- The window reading at the head of `submitStep_`: judge the window on the
server's clock and release parked XUNI at the closed-to-open edge. -/
def enterWindow (cfg : Config) (m : Members) : Step XuniWindowState := do
  let w ← call .wall
  let t := w + m.server_offset_ms.getD 0
  let window := xuniWindowAt t
  let last ← call .lastWindowOpen
  if window.isOpen && !last then
    call (.unparkXuniForWindow cfg.xuni_max_windows)
    call (.noteWindow t)
    pure window
  else
    call (.noteWindow t)
    pure window

/-- The two fetches of `submitStep_`: what is eligible, and whether XUNI is. -/
def fetchEligible (cfg : Config) (window : XuniWindowState) : Step (List FindRecord × Bool) := do
  let w ← call .wall
  let now_iso := isoUtc w
  let xen11 ← call (.fetchEligibleOfKind .XEN11 now_iso cfg.fetch_limit)
  if window.isOpen then
    let xuni ← call (.fetchEligibleOfKind .XUNI now_iso cfg.fetch_limit)
    pure (xen11 ++ xuni, !xuni.isEmpty)
  else pure (xen11, false)

/-- The classification the pre-park branch records. -/
def prePark (rec : FindRecord) (known : UInt32) : Classification where
  next_status := .ParkedDifficulty
  reason := lit "pre-parked locally: m=" ++ toDecimal rec.payload.memory_cost.toNat ++
    lit " < server difficulty " ++ toDecimal known.toNat ++
    lit " (no submit attempt; releases when difficulty falls to m)"

def kTransportError : Int := 0

/-- `transport_failure` in `submitStep_`. -/
def transportFailure (res : TransportResult) : Bool :=
  !res.transport_ok || res.http_status ≥ 500 || res.http_status == 408 ||
    res.http_status == 425 || isBlank res.body

/-- Breaker and adaptive pacing after an outcome. -/
def afterOutcome (cfg : Config) (m : Members) (was_closed : Bool) (c : Classification)
    (res : TransportResult) (now : Int) : Members :=
  if c.next_status = .Acked ∨ c.next_status = .AcceptedUnconfirmed then
    { m with
      breaker := m.breaker.onVerifySuccess cfg.breaker
      scheduler :=
        if was_closed then m.scheduler.onHealthyRoundTrip cfg.drain
        else m.scheduler.onBreakerClose cfg.drain }
  else if transportFailure res then
    { m with
      breaker := m.breaker.onVerifyTransportFailure cfg.breaker now
      scheduler := m.scheduler.onThrottle cfg.drain }
  else if res.http_status = 429 then
    { m with
      breaker := m.breaker.onVerifyInconclusive
      scheduler := m.scheduler.onThrottle cfg.drain }
  else
    { m with
      breaker := m.breaker.onVerifyInconclusive
      scheduler := m.scheduler.onHealthyRoundTrip cfg.drain }

/-- A difficulty hint from a 401 body. -/
def takeHint (c : Classification) : Step Unit :=
  match c.server_difficulty_hint with
  | none => pure ()
  | some d => do
    observeDifficulty d
    let w ← call .wall
    call (.recordDifficulty d (isoUtc w))

/-- The retry time after a lookup that proved nothing. -/
def lookupRetryTime (cfg : Config) (rec : FindRecord) (retry : Bool) : Step (Option Bytes) :=
  if retry then do
    let t ← backoffTimeIso cfg rec.attempt_count none
    pure (some t)
  else pure none

/-- The lookup after a 200 or a duplicate: what to record and the retry time. -/
def confirmFresh (cfg : Config) (m : Members) (rec : FindRecord) (c : Classification) :
    Step (Members × Classification × Option Bytes) :=
  if c.needs_lookup_confirmation then do
    let conf ← call (.confirm rec.payload.key)
    let m ← trackServerDate m conf
    let r := freshConfirmation rec c conf
    let next_attempt ← lookupRetryTime cfg rec r.2
    pure (m, r.1, next_attempt)
  else pure (m, c, none)

/-- The retry time of a record that goes back to the queue. -/
def retryTime (cfg : Config) (rec : FindRecord) (status : Int) (res : TransportResult)
    (c : Classification) (next_attempt : Option Bytes) : Step (Option Bytes) :=
  if c.next_status = .Pending ∧ next_attempt = none then do
    let retry_after_s :=
      if status = 429 then res.retry_after.bind parseRetryAfterSeconds else none
    let t ← backoffTimeIso cfg rec.attempt_count retry_after_s
    pure (some t)
  else pure next_attempt

/-- `std::optional<int>` of a status that was received. -/
def httpStatus (res : TransportResult) : Option Int :=
  if res.transport_ok then some res.http_status else none

/-- What `classify` is given of an answer. -/
def classifyResult (rec : FindRecord) (res : TransportResult) : Classification :=
  classify (if res.transport_ok then res.http_status else kTransportError) res.body
    rec.payload.kind res.retry_after

/-- The `/verify` attempt of `submitStep_`, from admission on. -/
def attempt (cfg : Config) (m : Members) (now_mono : Int) (rec : FindRecord) :
    Step (StepResult × Members) := do
  let was_closed := m.breaker.state = .Closed
  let res ← call (.submit rec.payload)
  let m ← trackServerDate m res
  let c := classifyResult rec res
  takeHint c
  let (m, c, next_attempt) ← confirmFresh cfg m rec c
  let next_attempt ←
    retryTime cfg rec (if res.transport_ok then res.http_status else kTransportError) res c
      next_attempt
  let w ← call .wall
  call (.recordAttempt rec.id c (httpStatus res) res.body next_attempt (isoUtc w))
  let now ← call .mono
  let m' := afterOutcome cfg m was_closed c res now
  logBreakerTransition m.breaker.state m'.breaker.state
  pure (.Submitted,
    { m' with next_submit_allowed_ms := now_mono + m'.scheduler.pacingMs })

/-- Breaker admission, then the attempt. -/
def admitRecord (cfg : Config) (m : Members) (now_mono : Int) (rec : FindRecord) :
    Step (StepResult × Members) :=
  let (ok, b) := m.breaker.tryAdmit
  if ok then attempt cfg { m with breaker := b } now_mono rec
  else pure (.BreakerBlocked, { m with breaker := b })

/-- The selected record: park it unsent when it is known to be too cheap, else
submit it. -/
def submitRecord (cfg : Config) (m : Members) (now_mono : Int) (rec : FindRecord) :
    Step (StepResult × Members) :=
  if cfg.pre_park_below_difficulty then do
    let known ← call .lastDifficulty
    match known with
    | some d =>
      if rec.payload.memory_cost < d then
        let w ← call .wall
        call (.recordAttempt rec.id (prePark rec d) none [] none (isoUtc w))
        pure (.Submitted, m)
      else admitRecord cfg m now_mono rec
    | none => admitRecord cfg m now_mono rec
  else admitRecord cfg m now_mono rec

/-- `submitStep_`. -/
def submitStep (cfg : Config) (m : Members) : Step (StepResult × Members) := do
  let now_mono ← call .mono
  if now_mono < m.next_submit_allowed_ms then pure (.Idle, m)
  else
    let window ← enterWindow cfg m
    let (eligible, xuni_pressure) ← fetchEligible cfg window
    let now ← call .mono
    let m := { m with breaker := m.breaker.setXuniPressure cfg.breaker xuni_pressure now }
    if eligible.isEmpty then pure (.Idle, m)
    else
      let trend ← call .trend
      match selectNext cfg.drain eligible trend window with
      | none => pure (.Idle, m)
      | some rec => submitRecord cfg m now_mono rec

/-- One turn of the loop of `confirmStep_`; the flag says whether to go on. -/
def confirmOne (cfg : Config) (m : Members) (rec : FindRecord) : Step (Members × Bool) := do
  let conf ← call (.confirm rec.payload.key)
  let m ← trackServerDate m conf
  let r := retryConfirmation rec conf
  let next_attempt ← lookupRetryTime cfg rec r.2
  let w ← call .wall
  call (.recordAttempt rec.id r.1 (httpStatus conf) conf.body next_attempt (isoUtc w))
  pure (m, conf.transport_ok)

/-- The loop of `confirmStep_`. -/
def confirmLoop (cfg : Config) : List FindRecord → Members → Step Members
  | [], m => pure m
  | rec :: recs, m => do
    let (m, goOn) ← confirmOne cfg m rec
    if goOn then confirmLoop cfg recs m else pure m

/-- `confirmStep_`. -/
def confirmStep (cfg : Config) (m : Members) : Step (StepResult × Members) :=
  if m.breaker.state = .Open then pure (.Idle, m)
  else do
    let w ← call .wall
    let batch ← call (.fetchAwaitingConfirmation (isoUtc w) cfg.confirm_fetch_limit)
    if batch.isEmpty then pure (.Idle, m)
    else
      let m ← confirmLoop cfg batch m
      pure (.ConfirmRetried, m)

/-- `runStep_`. -/
def runStep (cfg : Config) (m : Members) : Step (StepResult × Members) := do
  let m ← updateMargin cfg m
  if m.breaker.state = .Open then probeStep cfg m
  else
    let (submit_result, m) ← submitStep cfg m
    let (confirm_result, m) ← confirmStep cfg m
    if submit_result = .Idle ∧ confirm_result ≠ .Idle then pure (confirm_result, m)
    else pure (submit_result, m)

/-- `SubmissionManager::runOnce`; the exception boundary is the machine's. -/
def runOnce (cfg : Config) : Step StepResult := do
  let fatal ← call .fatal
  if fatal then pure .Idle
  else
    let m ← call .members
    let (r, m) ← runStep cfg m
    call (.setMembers m)
    pure r

end TreeMiner

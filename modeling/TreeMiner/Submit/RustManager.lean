import TreeMiner.Lib.Faults
import TreeMiner.Submit.RustTransport
import TreeMiner.Submit.System

/-!
# The Rust submission manager (`treeminer-submit`, `treeminer-journal`)

`breaker.rs`, `drain.rs`, `time.rs`, what `manager.rs` uses of `journal.rs`, and the steps
of `manager.rs`. The types are those of the C++ side where the fields are the same; a
Rust string is its bytes, except where its characters are looked at. The functions are
written out as they stand.

`run_once` has the manager to itself. What it reads and writes is the state, the two clocks
are arguments, and the transport's answers come from a list. A `?` that returns early is an
exception; `run_once` catches it. Metrics and callbacks are left out.
-/

namespace TreeMiner.RustManager

open Cxx RustClassifier RustTransport Faults Checked

/-! ## `breaker.rs` -/

section CircuitBreaker

variable (cfg : BreakerConfig)

def activeCapMs (b : Breaker) : Int :=
  if b.xuni_pressure then min cfg.probe_cap_ms cfg.probe_cap_xuni_ms else cfg.probe_cap_ms

/-- Without a jitter source. -/
def scheduleProbe (b : Breaker) (now : Int) : Breaker :=
  let cap := activeCapMs cfg b
  let base := min b.probe_interval_ms cap
  let delay := if b.xuni_pressure then min base cap else base
  { b with next_probe_at_ms := now + delay }

/-- `open`. -/
def openBreaker (b : Breaker) (now : Int) : Breaker :=
  scheduleProbe cfg { b with state := .Open, admission_available := false } now

def probeDue (b : Breaker) (now : Int) : Bool := b.state == .Open && now ≥ b.next_probe_at_ms

def onProbeSuccess (b : Breaker) : Breaker :=
  if b.state ≠ .Open then b else { b with state := .HalfOpen, admission_available := true }

def onProbeFailure (b : Breaker) (now : Int) : Breaker :=
  if b.state ≠ .Open then b
  else
    scheduleProbe cfg
      { b with probe_interval_ms := min (wrap64 (b.probe_interval_ms * 2)) cfg.probe_cap_ms } now

def tryAdmit (b : Breaker) : Bool × Breaker :=
  match b.state with
  | .Closed => (true, b)
  | .HalfOpen =>
    if b.admission_available then (true, { b with admission_available := false }) else (false, b)
  | .Open => (false, b)

def onVerifySuccess (b : Breaker) : Breaker :=
  { b with
    state := .Closed
    consecutive_failures := 0
    probe_interval_ms := cfg.probe_base_ms
    admission_available := false }

def onVerifyTransportFailure (b : Breaker) (now : Int) : Breaker :=
  if b.state = .HalfOpen then
    let interval :=
      min (wrap64 (max b.probe_interval_ms cfg.probe_base_ms * 2)) cfg.probe_cap_ms
    openBreaker cfg { b with probe_interval_ms := interval } now
  else if b.state = .Closed then
    let failures := b.consecutive_failures + 1
    if failures ≥ cfg.failure_threshold then
      openBreaker cfg
        { b with consecutive_failures := failures, probe_interval_ms := cfg.probe_base_ms } now
    else { b with consecutive_failures := failures }
  else b

def onVerifyInconclusive (b : Breaker) : Breaker :=
  if b.state = .HalfOpen then { b with consecutive_failures := 0, admission_available := true }
  else { b with consecutive_failures := 0 }

def setXuniPressure (b : Breaker) (eligible_xuni_exists : Bool) (now : Int) : Breaker :=
  let was := b.xuni_pressure
  let b := { b with xuni_pressure := eligible_xuni_exists }
  if !was && b.xuni_pressure && b.state == .Open then
    let latest := now + activeCapMs cfg b
    { b with next_probe_at_ms := min b.next_probe_at_ms latest }
  else b

end CircuitBreaker

/-! ## `drain.rs` -/

section DrainScheduler

variable (cfg : DrainConfig)

/-- One turn of the loop of `select_next`: `oldest_xuni` and `best_xen11`. -/
def selectStep (trend : DifficultyTrend) (window : XuniWindowState)
    (s : Option FindRecord × Option FindRecord) (r : FindRecord) :
    Option FindRecord × Option FindRecord :=
  if r.payload.kind = .XUNI then
    if window.isOpen && s.1.isNone then (some r, s.2) else s
  else
    match s.2 with
    | none => (s.1, some r)
    | some best =>
      if trend = .Rising ∧ r.payload.memory_cost < best.payload.memory_cost then (s.1, some r)
      else s

/-- `select_next`. -/
def selectNext (eligible : List FindRecord) (trend : DifficultyTrend) (window : XuniWindowState) :
    Option FindRecord :=
  let s := eligible.foldl (selectStep trend window) (none, none)
  match s.1 with
  | some xuni =>
    if window.ms_until_close ≤ cfg.xuni_preempt_window_ms then some xuni
    else
      match s.2 with
      | some xen => some xen
      | none => some xuni
  | none => s.2

def onBreakerClose (_ : Drain) : Drain := ⟨cfg.start_rate_per_s⟩

def onHealthyRoundTrip (d : Drain) : Drain := ⟨min (d.rate_per_s * 2) cfg.max_rate_per_s⟩

def onThrottle (d : Drain) : Drain := ⟨max (d.rate_per_s / 2) cfg.min_rate_per_s⟩

/-- `submit_interval_ms`: the quotient by zero is infinite, and the cast truncates and stops at
the ends of `i64`. -/
def submitIntervalMs (d : Drain) : Int :=
  if d.rate_per_s = 0 then 9223372036854775807
  else
    max (-9223372036854775808)
      (min 9223372036854775807 ((1000 / d.rate_per_s).num.tdiv (1000 / d.rate_per_s).den))

end DrainScheduler

/-! ## `time.rs`, `xuni.rs` and `margin.rs` -/

def floorDiv (a b : Int) : Int :=
  let q := a.tdiv b
  if a.tmod b ≠ 0 ∧ (a < 0) ≠ (b < 0) then q - 1 else q

/-- `days_from_civil`. -/
def daysFromCivil (y : Int) (m d : Nat) : Int :=
  let y := if m ≤ 2 then y - 1 else y
  let era := (if 0 ≤ y then y else y - 399).tdiv 400
  let yoe := (y - era * 400).toNat
  let month_term := if m > 2 then m - 3 else m + 9
  let doy := (153 * month_term + 2) / 5 + d - 1
  let doe := yoe * 365 + yoe / 4 - yoe / 100 + doy
  era * 146097 + doe - 719468

def civilFromDays (z : Int) : Int × Nat × Nat :=
  let z := z + 719468
  let era := (if 0 ≤ z then z else z - 146096).tdiv 146097
  let doe := (z - era * 146097).toNat
  let yoe := (doe - doe / 1460 + doe / 36524 - doe / 146096) / 365
  let doy := doe - (365 * yoe + yoe / 4 - yoe / 100)
  let mp := (5 * doy + 2) / 153
  let d := doy - (153 * mp + 2) / 5 + 1
  let m := if mp < 10 then mp + 3 else mp - 9
  let y := yoe + era * 400
  (if m ≤ 2 then y + 1 else y, m, d)

/-- `month_from_name`: 0 when it is none of them. -/
def monthFromName (mon : Str) : Nat :=
  let names := ["Jan", "Feb", "Mar", "Apr", "May", "Jun", "Jul", "Aug", "Sep", "Oct", "Nov", "Dec"]
  match names.findIdx? fun name => name.toList == mon with
  | some i => i + 1
  | none => 0

/-- `iso_utc`; `{:02}` and `{:04}` pad as `printf` does. -/
def isoUtc (epoch_ms : Int) : Bytes :=
  let days := floorDiv epoch_ms 86400000
  let rem := (epoch_ms - days * 86400000).toNat
  let (y, mo, da) := civilFromDays days
  let h := rem / 3600000
  let rem := rem % 3600000
  let mi := rem / 60000
  let rem := rem % 60000
  let s := rem / 1000
  four y ++ lit "-" ++ two mo ++ lit "-" ++ two da ++ lit "T" ++ two h ++ lit ":" ++ two mi ++
    lit ":" ++ two s ++ lit "Z"

/-- `parse::<i64>`. -/
def parseI64 (s : Str) : Option Int :=
  match s with
  | '-' :: s => (parseDigits s).bind fun n => if n ≤ 2 ^ 63 then some (-(n : Int)) else none
  | '+' :: s => (parseDigits s).bind fun n => if n < 2 ^ 63 then some (n : Int) else none
  | s => (parseDigits s).bind fun n => if n < 2 ^ 63 then some (n : Int) else none

/-- What follows the first comma, or the whole text. -/
def afterComma (s : Str) : Str :=
  match s.dropWhile (· ≠ ',') with
  | [] => s
  | _ :: rest => rest

/-- The `hh:mm:ss` part, in seconds. -/
def parseHms : Str → Option Nat
  | [a, b, c, d, e, f, g, h] =>
    if c ≠ ':' ∨ f ≠ ':' then none
    else if [a, b, d, e, g, h].all Char.isDigit then
      let hour := (a.toNat - 48) * 10 + (b.toNat - 48)
      let mi := (d.toNat - 48) * 10 + (e.toNat - 48)
      let s := (g.toNat - 48) * 10 + (h.toNat - 48)
      if hour > 23 ∨ mi > 59 ∨ s > 60 then none else some (hour * 3600 + mi * 60 + s)
    else none
  | _ => none

/-- `parse_http_date_ms`. -/
def parseHttpDateMs (date_header : Str) : Option Int :=
  match splitWhitespace (afterComma date_header) with
  | day :: mon :: year :: hms :: tz :: _ => do
    let day ← parseI32 day
    let year ← parseI64 year
    if tz ≠ "GMT".toList ∧ tz ≠ "UTC".toList then none
    else
      let month := monthFromName mon
      if month = 0 ∨ day < 1 ∨ day > 31 ∨ year < 1970 then none
      else
        let secs ← parseHms hms
        some (daysFromCivil year month day.toNat * 86400000 + secs * 1000)
  | _ => none

/-- `xuni_window_at`. -/
def xuniWindowAt (server_epoch_ms : Int) : XuniWindowState :=
  let into_hour := server_epoch_ms - floorDiv server_epoch_ms 3600000 * 3600000
  if into_hour ≥ 3600000 - 300000 then
    { isOpen := true, ms_until_close := (3600000 - into_hour) + 300000 }
  else if into_hour < 300000 then
    { isOpen := true, ms_until_close := 300000 - into_hour }
  else {}

/-- `compute_margin`; the product saturates. -/
def computeMargin (cfg : MarginConfig) (inputs : MarginInputs) : UInt32 :=
  match cfg.mode with
  | .Off => 0
  | .Fixed => cfg.margin_kib
  | .Auto =>
    if !inputs.breaker_open && inputs.backlog == 0 then 0
    else
      let steps : Nat :=
        if inputs.breaker_open && cfg.adjust_period_ms > 0 && inputs.outage_ms > 0 then
          1 + (inputs.outage_ms.tdiv cfg.adjust_period_ms).toNat
        else 1
      let margin := min (cfg.margin_kib.toNat * steps) (2 ^ 64 - 1)
      UInt32.ofNat (min margin cfg.max_kib.toNat)

/-! ## `journal.rs` -/

/-- A column that is read as a `String`. -/
def isString (column : Bytes) : Bool := (Utf8.decode column).isSome

/-- `row_to_record`: every text column has to be UTF-8, and the status an `i32`. -/
def rowToRecord (row : FindRecord) : Option FindRecord :=
  let columns := [row.payload.key, row.payload.hash_to_verify, row.payload.account,
    row.payload.worker, row.payload.found_at_utc, row.status_reason, row.last_response,
    row.next_attempt_at.getD [], row.last_attempt_at.getD [], row.confirmed_at.getD []]
  let status := row.last_http_status.getD 0
  if columns.all isString && -2147483648 ≤ status && status ≤ 2147483647 then some row else none

/-- `fetch_by_status`; the first row that cannot be read is the error. -/
def fetchByStatus (journal : Journal) (status : FindStatus) (kind : Option FindKind)
    (now_utc : Bytes) (limit : Nat) : Option (List FindRecord) :=
  ((journal.rows.filter fun r =>
    r.status == status && (kind.all (r.payload.kind == ·)) &&
      r.next_attempt_at.all (textLe · now_utc)).take limit).mapM rowToRecord

/-- `record_attempt`: the checks and the statement are those of the C++ journal. -/
def recordAttempt (journal : Journal) (id : Int) (classification : Classification)
    (http_status : Option Int) (response_body : Bytes) (next_attempt_at : Option Bytes)
    (now_utc : Bytes) : Option Journal :=
  journal.recordAttempt id classification http_status response_body next_attempt_at now_utc

/-- `unpark_for_difficulty`: the same statement. -/
def unparkForDifficulty (journal : Journal) (current_difficulty : UInt32) : Journal :=
  journal.unparkForDifficulty current_difficulty

/-- `unpark_xuni_for_window`: the same two statements. -/
def unparkXuniForWindow (journal : Journal) (max_windows : Int) : Journal :=
  journal.unparkXuniForWindow max_windows

/-- `record_difficulty`: the same statement. -/
def recordDifficulty (journal : Journal) (difficulty : UInt32) (at_utc : Bytes) : Journal :=
  journal.recordDifficulty difficulty at_utc

/-! ## `manager.rs` -/

/-- `SubmissionConfig`, without `idle_poll_ms`, which the thread reads. -/
structure SubmissionConfig where
  fetch_limit : Nat := 16
  confirm_fetch_limit : Nat := 4
  backoff_base_ms : Int := 2000
  backoff_cap_ms : Int := 300000
  xuni_max_windows : Int := 3
  breaker : BreakerConfig := {}
  drain : DrainConfig := {}
  margin : MarginConfig := {}
  margin_eval_interval_ms : Int := 5000

/-- `SubmissionManager`, with what it shares. -/
structure SubmissionManager where
  journal : Journal
  breaker : Breaker := {}
  scheduler : Drain
  last_difficulty : Option UInt32 := none
  trend : DifficultyTrend := .Unknown
  server_offset_ms : Option Int := none
  fatal : Bool := false
  next_submit_allowed_ms : Int := 0
  last_window_open : Bool := false
  margin_kib : UInt32 := 0
  outage_started_ms : Int := 0
  last_outage_span_ms : Int := 0
  last_margin_eval_ms : Int := 0
  margin_eval_started : Bool := false

/-- A call of the transport. -/
inductive TransportCall where
  | submit (payload : FoundPayload)
  | confirm (key : Bytes)
  | difficulty
  deriving DecidableEq

/-- The manager, and the calls it has made. -/
structure Session where
  manager : SubmissionManager
  calls : List TransportCall

instance : Inhabited RustTransport.TransportResult := ⟨{}⟩

abbrev Step (α : Type) := Faulty RustTransport.TransportResult Session α

/-- The manager as it is. -/
def current : Step SubmissionManager := do
  let s ← Faulty.get
  pure s.manager

/-- Assign to the manager. -/
def assign (f : SubmissionManager → SubmissionManager) : Step Unit :=
  Faulty.modify fun s => { s with manager := f s.manager }

/-- Ask the transport. -/
def transport (c : TransportCall) : Step RustTransport.TransportResult := do
  Faulty.modify fun s => { s with calls := s.calls ++ [c] }
  Faulty.call

/-- `?`. -/
def trySome {α : Type} : Option α → Step α
  | some a => pure a
  | none => Faulty.throw

/-- `is_blank_body`. -/
def isBlankBody (s : String) : Bool := (lit s).all isAsciiWhitespace

/-- `confirm_reject_reason`. -/
def confirmRejectReason : ConfirmBodyCheck → Bytes
  | .KeyMismatch =>
    lit
      "/get_block 200 body describes a different key — not a confirmation of this record, remaining unconfirmed"
  | .HashMismatch =>
    lit
      "/get_block 200 has our key but a DIFFERENT hash_to_verify — refusing to ack, remaining unconfirmed"
  | _ => lit "/get_block 200 body malformed or missing key — untrusted, remaining unconfirmed"

/-- `confirmation_matches`. -/
def confirmationMatches (record : FindRecord) (body : String) : ConfirmBodyCheck :=
  match RustClassifier.extractJsonField (lit body) (lit "key") with
  | none => .Malformed
  | some key =>
    if key ≠ record.payload.key then .KeyMismatch
    else
      match RustClassifier.extractJsonField (lit body) (lit "hash_to_verify") with
      | some hash => if hash ≠ record.payload.hash_to_verify then .HashMismatch else .Confirmed
      | none => .Confirmed

/-- The locked section of `observe_difficulty`: the new state, `decreased` and
`first_observation`. -/
def observed (m : SubmissionManager) (difficulty : UInt32) : SubmissionManager × Bool × Bool :=
  match m.last_difficulty with
  | some prev =>
    if difficulty > prev then
      ({ m with trend := .Rising, last_difficulty := some difficulty }, false, false)
    else if difficulty < prev then
      ({ m with trend := .Falling, last_difficulty := some difficulty }, true, false)
    else ({ m with trend := .Flat, last_difficulty := some difficulty }, false, false)
  | none => ({ m with last_difficulty := some difficulty }, false, true)

/-- `observe_difficulty`. -/
def observeDifficulty (difficulty : UInt32) : Step Unit := do
  let (m, decreased, first_observation) := observed (← current) difficulty
  assign fun _ => m
  if decreased || first_observation then
    assign fun m => { m with journal := unparkForDifficulty m.journal difficulty }
  else pure ()

section Steps

-- The configuration and the two clocks.
variable (cfg : SubmissionConfig) (mono wall : Int)

/-- The outage clock at the head of `update_margin`. -/
def outageClock (m : SubmissionManager) : SubmissionManager :=
  if m.breaker.state = .Open then
    if m.outage_started_ms = 0 then { m with outage_started_ms := mono } else m
  else
    let m :=
      if m.outage_started_ms ≠ 0 then
        let span := mono - m.outage_started_ms
        { m with last_outage_span_ms := if span > 0 then span else 0 }
      else m
    { m with outage_started_ms := 0 }

/-- `update_margin`. -/
def updateMargin : Step Unit := do
  assign (outageClock mono)
  let m ← current
  if cfg.margin.mode = .Off then pure ()
  else if m.margin_eval_started ∧ mono - m.last_margin_eval_ms < cfg.margin_eval_interval_ms then
    pure ()
  else
    assign fun m => { m with last_margin_eval_ms := mono, margin_eval_started := true }
    let is_open := m.breaker.state = .Open
    let inputs : MarginInputs :=
      { breaker_open := is_open
        outage_ms := if is_open then mono - m.outage_started_ms else 0
        backlog := if cfg.margin.mode = .Auto then backlogOf m.journal.counts else 0 }
    assign fun m => { m with margin_kib := computeMargin cfg.margin inputs }

/-- `track_server_date`. -/
def trackServerDate (r : RustTransport.TransportResult) : Step Unit :=
  if r.transport_ok then
    match r.date_header with
    | none => pure ()
    | some header =>
      match parseHttpDateMs header.toList with
      | some server_ms => assign fun m => { m with server_offset_ms := some (server_ms - wall) }
      | none => pure ()
  else pure ()

/-- `handle_difficulty_body`. -/
def handleDifficultyBody (body : String) : Step Unit :=
  match RustClassifier.extractJsonField (lit body) (lit "difficulty") with
  | none => pure ()
  | some field =>
    match RustClassifier.parseDifficultyHint (lit "m=" ++ field) with
    | none => pure ()
    | some d => do
      observeDifficulty d
      assign fun m => { m with journal := recordDifficulty m.journal d (isoUtc wall) }

/-- The loop of `backoff_time_iso`. -/
def backoffLoop (cap : Int) : Nat → Int → Int
  | 0, delay => delay
  | attempts + 1, delay => if delay < cap then backoffLoop cap attempts (delay * 2) else delay

/-- `backoff_time_iso`. -/
def backoffTimeIso (attempt_count : Nat) (retry_after_s : Option Nat) : Bytes :=
  let delay : Int :=
    match retry_after_s with
    | some secs => secs * 1000
    | none => backoffLoop cfg.backoff_cap_ms attempt_count cfg.backoff_base_ms
  isoUtc (wall + min delay cfg.backoff_cap_ms)

/-- `probe_step`. -/
def probeStep : Step StepResult := do
  let m ← current
  if !probeDue m.breaker mono then pure .Idle
  else
    let r ← transport .difficulty
    trackServerDate wall r
    if r.transport_ok && r.http_status == 200 && !isBlankBody r.body then
      handleDifficultyBody wall r.body
      assign fun m => { m with breaker := onProbeSuccess m.breaker }
      pure .Probed
    else
      assign fun m => { m with breaker := onProbeFailure cfg.breaker m.breaker mono }
      pure .Probed

/-- The head of `submit_step`: the window, with the release at its opening. -/
def enterWindow : Step XuniWindowState := do
  let m ← current
  let window := xuniWindowAt (wall + m.server_offset_ms.getD 0)
  if window.isOpen && !m.last_window_open then
    assign fun m => { m with journal := unparkXuniForWindow m.journal cfg.xuni_max_windows }
  else pure ()
  assign fun m => { m with last_window_open := window.isOpen }
  pure window

/-- The fetches of `submit_step`. -/
def fetchEligible (window : XuniWindowState) : Step (List FindRecord × Bool) := do
  let m ← current
  let xen11 ← trySome
    (fetchByStatus m.journal .Pending (some .XEN11) (isoUtc wall) cfg.fetch_limit)
  if window.isOpen then
    let xuni ← trySome
      (fetchByStatus m.journal .Pending (some .XUNI) (isoUtc wall) cfg.fetch_limit)
    pure (xen11 ++ xuni, !xuni.isEmpty)
  else pure (xen11, false)

/-- A difficulty hint of the classification. -/
def takeHint (c : Classification) : Step Unit :=
  match c.server_difficulty_hint with
  | none => pure ()
  | some hint => do
    observeDifficulty hint
    assign fun m => { m with journal := recordDifficulty m.journal hint (isoUtc wall) }

/-- What a lookup says about the record; without a 200 it is not asked. -/
def bodyCheck (rec : FindRecord) (conf : RustTransport.TransportResult) : ConfirmBodyCheck :=
  if conf.transport_ok && conf.http_status == 200 then confirmationMatches rec conf.body
  else .Malformed

/-- The lookup of `submit_step`: the classification and the time of the next attempt. -/
def confirmFresh (rec : FindRecord) (c : Classification) :
    Step (Classification × Option Bytes) :=
  if c.needs_lookup_confirmation then do
    let conf ← transport (.confirm rec.payload.key)
    trackServerDate wall conf
    let check := bodyCheck rec conf
    let retry := some (backoffTimeIso cfg wall rec.attempt_count none)
    if conf.transport_ok && conf.http_status == 200 && check == .Confirmed then
      pure ({ c with
        next_status := .Acked
        needs_lookup_confirmation := false
        reason := c.reason ++ lit "; confirmed via /get_block (body matches key)" }, none)
    else if conf.transport_ok && conf.http_status == 200 then
      pure ({ c with reason := c.reason ++ lit "; " ++ confirmRejectReason check }, retry)
    else if conf.transport_ok && conf.http_status == 404 then
      pure ({ c with
        next_status := .Pending
        needs_lookup_confirmation := false
        reason := c.reason ++
          lit "; /get_block says ABSENT — server 200 was not durable, resubmitting" }, retry)
    else
      pure ({ c with
        reason := c.reason ++ lit "; /get_block unavailable, remaining unconfirmed" }, retry)
  else pure (c, none)

/-- What `submit_step` makes of an answer for the breaker and the scheduler. -/
inductive Outcome where
  /-- `on_verify_success`. -/
  | accepted
  /-- `on_verify_transport_failure`. -/
  | transport_failure
  /-- `on_verify_inconclusive`, and `on_throttle`. -/
  | throttled
  /-- `on_verify_inconclusive`, and `on_healthy_round_trip`. -/
  | healthy
  deriving DecidableEq

/-- The conditions at the end of `submit_step`. -/
def outcome (c : Classification) (res : RustTransport.TransportResult) : Outcome :=
  let transport_failure := !res.transport_ok || res.http_status ≥ 500 || res.http_status == 408 ||
    res.http_status == 425 || isBlankBody res.body
  if c.next_status = .Acked ∨ c.next_status = .AcceptedUnconfirmed then .accepted
  else if transport_failure then .transport_failure
  else if res.http_status = 429 then .throttled
  else .healthy

/-- Their branches. -/
def report (was_closed : Bool) (m : SubmissionManager) : Outcome → SubmissionManager
  | .accepted =>
    { m with
      breaker := onVerifySuccess cfg.breaker m.breaker
      scheduler :=
        if was_closed then onHealthyRoundTrip cfg.drain m.scheduler
        else onBreakerClose cfg.drain m.scheduler }
  | .transport_failure =>
    { m with
      breaker := onVerifyTransportFailure cfg.breaker m.breaker mono
      scheduler := onThrottle cfg.drain m.scheduler }
  | .throttled =>
    { m with
      breaker := onVerifyInconclusive m.breaker
      scheduler := onThrottle cfg.drain m.scheduler }
  | .healthy =>
    { m with
      breaker := onVerifyInconclusive m.breaker
      scheduler := onHealthyRoundTrip cfg.drain m.scheduler }

/-- `status` of an answer, `TRANSPORT_ERROR` without one. -/
def statusOf (res : RustTransport.TransportResult) : Int :=
  if res.transport_ok then res.http_status else 0

/-- The classification of an answer. -/
def classified (rec : FindRecord) (res : RustTransport.TransportResult) : Classification :=
  classifyWithRetryAfter (statusOf res) res.body rec.payload.kind res.retry_after

/-- The time of the next attempt of a record that goes back to the queue. -/
def retryTime (rec : FindRecord) (c : Classification) (res : RustTransport.TransportResult)
    (next_attempt : Option Bytes) : Option Bytes :=
  if c.next_status = .Pending ∧ next_attempt.isNone then
    let retry_after_s :=
      if statusOf res = 429 then
        res.retry_after.bind fun header => RustClassifier.parseRetryAfterSeconds (lit header)
      else none
    some (backoffTimeIso cfg wall rec.attempt_count retry_after_s)
  else next_attempt

/-- `submit_step` from the admission on. -/
def attempt (rec : FindRecord) : Step StepResult := do
  let was_closed := (← current).breaker.state = .Closed
  let res ← transport (.submit rec.payload)
  trackServerDate wall res
  let c := classified rec res
  takeHint wall c
  let (c, next_attempt) ← confirmFresh cfg wall rec c
  let next_attempt := retryTime cfg wall rec c res next_attempt
  let http_status := if res.transport_ok then some res.http_status else none
  let m ← current
  let journal ← trySome
    (recordAttempt m.journal rec.id c http_status (lit res.body) next_attempt (isoUtc wall))
  assign fun m => { m with journal := journal }
  assign fun m => report cfg mono was_closed m (outcome c res)
  assign fun m => { m with next_submit_allowed_ms := mono + submitIntervalMs m.scheduler }
  pure .Submitted

/-- `submit_step`. -/
def submitStep : Step StepResult := do
  let m ← current
  if mono < m.next_submit_allowed_ms then pure .Idle
  else
    let window ← enterWindow cfg wall
    let (eligible, xuni_pressure) ← fetchEligible cfg wall window
    assign fun m =>
      { m with breaker := setXuniPressure cfg.breaker m.breaker xuni_pressure mono }
    if eligible.isEmpty then pure .Idle
    else
      let m ← current
      match selectNext cfg.drain eligible m.trend window with
      | none => pure .Idle
      | some rec =>
        let r := tryAdmit m.breaker
        assign fun m => { m with breaker := r.2 }
        if !r.1 then pure .BreakerBlocked else attempt cfg mono wall rec

/-- One turn of the loop of `confirm_step`; whether the transport is up. -/
def confirmOne (rec : FindRecord) : Step Bool := do
  let conf ← transport (.confirm rec.payload.key)
  trackServerDate wall conf
  let check := bodyCheck rec conf
  let retry := some (backoffTimeIso cfg wall rec.attempt_count none)
  let (c, next_attempt) :=
    if conf.transport_ok && conf.http_status == 200 && check == .Confirmed then
      ({ next_status := .Acked
         reason := lit "confirmed via /get_block (retry, body matches key)" : Classification },
           none)
    else if conf.transport_ok && conf.http_status == 200 then
      ({ next_status := .AcceptedUnconfirmed, reason := confirmRejectReason check }, retry)
    else if conf.transport_ok && conf.http_status == 404 then
      ({ next_status := .Pending
         reason := lit "/get_block says ABSENT — server 200 was not durable, resubmitting" },
           retry)
    else
      ({ next_status := .AcceptedUnconfirmed
         reason := lit "/get_block unavailable, remaining unconfirmed (retry backoff)" }, retry)
  let http_status := if conf.transport_ok then some conf.http_status else none
  let m ← current
  let journal ← trySome
    (recordAttempt m.journal rec.id c http_status (lit conf.body) next_attempt (isoUtc wall))
  assign fun m => { m with journal := journal }
  pure conf.transport_ok

/-- The loop of `confirm_step`. -/
def confirmLoop : List FindRecord → Step Unit
  | [] => pure ()
  | rec :: batch => do
    let up ← confirmOne cfg wall rec
    if up then confirmLoop batch else pure ()

/-- `confirm_step`. -/
def confirmStep : Step StepResult := do
  let m ← current
  if m.breaker.state = .Open then pure .Idle
  else
    let batch ← trySome
      (fetchByStatus m.journal .AcceptedUnconfirmed none (isoUtc wall) cfg.confirm_fetch_limit)
    if batch.isEmpty then pure .Idle
    else
      confirmLoop cfg wall batch
      pure .ConfirmRetried

/-- `run_step`. -/
def runStep : Step StepResult := do
  updateMargin cfg mono
  let m ← current
  if m.breaker.state = .Open then probeStep cfg mono wall
  else
    let submit_result ← submitStep cfg mono wall
    let confirm_result ← confirmStep cfg wall
    if submit_result = .Idle ∧ confirm_result ≠ .Idle then pure confirm_result
    else pure submit_result

/-- `handle_fatal`. -/
def handleFatal : Step Unit := assign fun m => { m with fatal := true }

/-- `run_once`. -/
def runOnce : Step StepResult := do
  let m ← current
  if m.fatal then pure .Idle
  else
    (runStep cfg mono wall).orElse do
      handleFatal
      pure .Idle

end Steps

/-! ## One operation after another -/

section Operations

variable {α β : Type} {s : Session} {as : Answers RustTransport.TransportResult}

/-- A computation that begins by reading the manager goes on with what it is. -/
theorem run_current {f : SubmissionManager → Step β} : (current >>= f) s as = f s.manager s as :=
  rfl

/-- One that begins with an assignment goes on in the new state. -/
theorem run_assign {g : SubmissionManager → SubmissionManager} {f : Unit → Step β} :
    (assign g >>= f) s as = f () { s with manager := g s.manager } as :=
  rfl

/-- One that begins with a call takes the next answer and records the call. -/
theorem run_transport {c : TransportCall} {r : RustTransport.TransportResult}
    {f : RustTransport.TransportResult → Step β} :
    (transport c >>= f) s (some r :: as) = f r { s with calls := s.calls ++ [c] } as :=
  rfl

/-- A `?` on something goes on with it. -/
theorem run_some {a : α} {f : α → Step β} : (trySome (some a) >>= f) s as = f a s as :=
  rfl

/-- The server's clock as the answer gives it. -/
def dated (wall : Int) (r : RustTransport.TransportResult) (m : SubmissionManager) :
    SubmissionManager :=
  match (if r.transport_ok then r.date_header.bind fun h => parseHttpDateMs h.toList else none) with
  | some server_ms => { m with server_offset_ms := some (server_ms - wall) }
  | none => m

/-- The date of an answer is noted without a call and without a failure. -/
theorem track_server_date_run {wall : Int} {r : RustTransport.TransportResult} :
    trackServerDate wall r s as = (some (), { s with manager := dated wall r s.manager }, as) := by
  unfold trackServerDate dated
  cases r.transport_ok with
  | false => rfl
  | true =>
    cases r.date_header with
    | none => rfl
    | some header =>
      dsimp only [if_true, Option.bind_some]
      cases parseHttpDateMs header.toList <;> rfl

/-- It does not touch the breaker. -/
theorem dated_breaker {wall : Int} {r : RustTransport.TransportResult} {m : SubmissionManager} :
    (dated wall r m).breaker = m.breaker := by
  unfold dated
  split <;> rfl

end Operations

/-! ## Blank bodies

The classifier's `is_blank` looks at characters and knows all of White_Space; the manager's
`is_blank_body` looks at bytes and knows five of them. -/

section Blank

variable {cfg : SubmissionConfig} {mono wall : Int} {rec : FindRecord}
  {res : RustTransport.TransportResult} {s : Session} {as : Answers RustTransport.TransportResult}

/-- A character that `u8::is_ascii_whitespace` accepts. -/
def AsciiBlank (c : Char) : Prop := c.toNat ∈ [9, 10, 12, 13, 32]

/-- A blank byte is an ASCII byte, and so a character of its own. -/
theorem ascii_of_whitespace : ∀ b : UInt8, isAsciiWhitespace b = true → b.toNat < 128 :=
  forall_byte (by decide +kernel)

/-- The bytes of a character are blank exactly if it is an ASCII blank. -/
theorem utf8_blank_iff (c : Char) :
    (String.utf8EncodeChar c).all isAsciiWhitespace = true ↔ AsciiBlank c := by
  by_cases hc : c.toNat < 128
  · have hbyte : ∀ n < 128, isAsciiWhitespace (UInt8.ofNat n) = true ↔
        n ∈ [9, 10, 12, 13, 32] := by
      decide
    rw [utf8_of_ascii hc, List.all_cons, List.all_nil, Bool.and_true]
    exact hbyte _ hc
  · -- every byte of it is past ASCII
    obtain ⟨hne, hwide⟩ := Json.utf8EncodeChar_wide (c := c) (by omega)
    obtain ⟨b, hb⟩ := List.exists_mem_of_ne_nil _ hne
    constructor
    · intro hall
      have hlt := ascii_of_whitespace b (List.all_eq_true.mp hall b hb)
      have hge := hwide b hb
      omega
    · intro h
      have hall : ∀ n ∈ [9, 10, 12, 13, 32], n < 128 := by decide
      exact absurd (hall _ h) hc

/-- A body is blank exactly if all its characters are ASCII blanks. -/
theorem is_blank_body_iff (body : String) :
    isBlankBody body = true ↔ ∀ c ∈ body.toList, AsciiBlank c := by
  unfold isBlankBody lit
  rw [List.all_flatMap, List.all_eq_true]
  exact forall₂_congr fun c _ => utf8_blank_iff c

/-- A blank body is pending, and asks for nothing. -/
theorem classified_blank (hok : res.transport_ok = true) (hstatus : 0 < res.http_status)
    (hblank : RustClassifier.isBlank res.body = true) :
    classified rec res =
      pending (lit "empty response body (http " ++ toDecimalInt res.http_status ++
      lit "); will retry with backoff") := by
  unfold classified statusOf classifyWithRetryAfter
  rw [if_pos hok, if_neg (by omega), hblank, Bool.or_true, if_pos rfl]

/-- What the manager makes of it. -/
theorem outcome_blank {reason : Bytes} (hok : res.transport_ok = true) :
    outcome (pending reason) res = .transport_failure ↔
      res.http_status = 408 ∨ res.http_status = 425 ∨ 500 ≤ res.http_status ∨
        ∀ c ∈ res.body.toList, AsciiBlank c := by
  rw [← is_blank_body_iff]
  unfold outcome pending
  rw [hok]
  simp only [reduceCtorEq, or_self, if_false]
  constructor
  · intro h
    split at h
    next hfail =>
      simpa [or_assoc, or_comm, or_left_comm] using hfail
    next =>
      split at h <;> cases h
  · intro h
    rw [if_pos]
    simpa [or_assoc, or_comm, or_left_comm] using h

/-- The time of a pending record's next attempt is all that is left to settle. -/
theorem confirm_fresh_pending {reason : Bytes} :
    confirmFresh cfg wall rec (pending reason) s as = (some (pending reason, none), s, as) :=
  rfl

/-- A classification without a hint observes nothing. -/
theorem take_hint_pending {reason : Bytes} :
    takeHint wall (pending reason) s as = (some (), s, as) :=
  rfl

/-- What a report does to the breaker depends on the breaker only. -/
theorem report_breaker {was_closed : Bool} {m m' : SubmissionManager} {o : Outcome}
    (h : m.breaker = m'.breaker) :
    (report cfg mono was_closed m o).breaker = (report cfg mono was_closed m' o).breaker := by
  cases o <;> simp only [report, h]

/-- The breaker after an attempt with a blank answer. -/
theorem attempt_blank (hok : res.transport_ok = true) (hstatus : 0 < res.http_status)
    (hblank : RustClassifier.isBlank res.body = true)
    (hrun : (attempt cfg mono wall rec s (some res :: as)).1 = some .Submitted) :
    (attempt cfg mono wall rec s (some res :: as)).2.1.manager.breaker =
      (report cfg mono (s.manager.breaker.state = .Closed) s.manager
        (outcome (classified rec res) res)).breaker := by
  have hc : classified rec res = _ := classified_blank hok hstatus hblank
  unfold attempt at hrun ⊢
  rw [run_current, run_transport, Faulty.bind_run track_server_date_run, hc,
    Faulty.bind_run take_hint_pending, Faulty.bind_run confirm_fresh_pending] at hrun ⊢
  dsimp only at hrun ⊢
  rw [run_current] at hrun ⊢
  cases hrec : recordAttempt (dated wall res s.manager).journal rec.id (pending _) _ _ _ _ with
  | none =>
    rw [hrec] at hrun
    cases hrun
  | some journal =>
    rw [run_some, run_assign, run_assign, run_assign]
    exact report_breaker dated_breaker

/-- For every answer that the classifier takes for blank, the attempt records a pending
find, and tells the breaker of a transport failure exactly when the body is of ASCII blanks
other than vertical tab or the status is a failure by itself. -/
theorem blank_reported_iff (cfg : SubmissionConfig) (mono wall : Int) (rec : FindRecord)
    (s : Session) (res : RustTransport.TransportResult) (as : Answers RustTransport.TransportResult)
    (hok : res.transport_ok = true) (hstatus : 0 < res.http_status)
    (hblank : RustClassifier.isBlank res.body = true)
    (hrun : (attempt cfg mono wall rec s (some res :: as)).1 = some .Submitted) :
    (classified rec res).next_status = .Pending ∧
    (attempt cfg mono wall rec s (some res :: as)).2.1.manager.breaker =
      (report cfg mono (s.manager.breaker.state = .Closed) s.manager
        (outcome (classified rec res) res)).breaker ∧
    (outcome (classified rec res) res = .transport_failure ↔
      (∀ c ∈ res.body.toList, AsciiBlank c) ∨ res.http_status = 408 ∨
        res.http_status = 425 ∨
        500 ≤ res.http_status) := by
  have hc : classified rec res = _ := classified_blank hok hstatus hblank
  refine ⟨?_, attempt_blank hok hstatus hblank hrun, ?_⟩
  · rw [hc]
    rfl
  · rw [hc, outcome_blank hok]
    tauto

end Blank

/-- A manager with a find in its journal. -/
def fresh : Session where
  manager := { journal := (Journal.empty.append sampleFind).2, scheduler := ⟨1⟩ }
  calls := []

/-- A blank that the two tests agree on. -/
theorem blank_reported_space :
    (classified (Journal.newRow 1 sampleFind) (.ok 200 " ")).next_status = .Pending ∧
    (attempt {} 0 0 (Journal.newRow 1 sampleFind) fresh [some (.ok 200 " ")]).2.1.manager.breaker =
      (report {} 0 (fresh.manager.breaker.state = .Closed) fresh.manager
        (outcome (classified (Journal.newRow 1 sampleFind) (.ok 200 " "))
          (.ok 200 " "))).breaker ∧
    (outcome (classified (Journal.newRow 1 sampleFind) (.ok 200 " ")) (.ok 200 " ") =
        .transport_failure ↔
      (∀ c ∈ " ".toList, AsciiBlank c) ∨ (200 : Int) = 408 ∨ (200 : Int) = 425 ∨
        500 ≤ (200 : Int)) :=
  blank_reported_iff {} 0 0 (Journal.newRow 1 sampleFind) fresh (.ok 200 " ") [] rfl (by decide)
    (by decide) (by decide)

/-- A vertical tab is blank for the classifier and not for the manager: the find stays
pending with the reason of an empty body, and the breaker counts no failure. The C++ manager
takes the same bytes for a failure. -/
theorem vertical_tab_not_reported :
    (classified (Journal.newRow 1 sampleFind) (.ok 200 "\x0b")).reason =
      lit "empty response body (http 200); will retry with backoff" ∧
    (runOnce {} 0 0 fresh [some (.ok 200 "\x0b")]).1 = some .Submitted ∧
    (runOnce {} 0 0 fresh [some (.ok 200 "\x0b")]).2.1.calls = [.submit sampleFind] ∧
    (runOnce {} 0 0 fresh [some (.ok 200 "\x0b")]).2.1.manager.breaker.consecutive_failures = 0 ∧
    (onVerifyTransportFailure {} fresh.manager.breaker 0).consecutive_failures = 1 ∧
    transportFailure { transport_ok := true, http_status := 200, body := lit "\x0b" } = true := by
  decide

end TreeMiner.RustManager

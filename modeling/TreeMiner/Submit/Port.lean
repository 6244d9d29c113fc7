import TreeMiner.Submit.Confirm
import TreeMiner.Submit.RustDates

/-!
# The port, function by function

The breaker, the scheduler, the clock texts and the readers of the Rust manager compute
what their siblings in `SubmissionManager.cpp` do. What an answer says is compared for the
answers of `Polite`: ASCII texts without vertical tab, and a date that is an IMF-fixdate.

The comparisons are in the order of the source: first the functions of the clock, then the
readers of a body, then the classifiers. Each is an equation between the two functions on
all inputs that can occur, so that the comparison of the managers can rewrite one side
into the other.
-/

namespace TreeMiner.RustManager

open Cxx RustClassifier RustTransport Fixdate

/-! ## Policies -/

section Policies

variable {cfg : BreakerConfig} {drain : DrainConfig} {b : Breaker} {d : Drain} {now : Int}

/-- The breaker of `breaker.rs`, method by method; where the source is the same expression, so is
the model. -/
theorem probe_due_eq : probeDue b now = b.probeDue now := rfl

theorem on_probe_success_eq : onProbeSuccess b = b.onProbeSuccess := rfl

theorem on_probe_failure_eq : onProbeFailure cfg b now = b.onProbeFailure cfg now := rfl

theorem try_admit_eq : tryAdmit b = b.tryAdmit := rfl

theorem on_verify_success_eq : onVerifySuccess cfg b = b.onVerifySuccess cfg := rfl

/-- The C++ switches over the state, the Rust asks for the states one after the other. -/
theorem on_verify_transport_failure_eq :
    onVerifyTransportFailure cfg b now = b.onVerifyTransportFailure cfg now := by
  unfold onVerifyTransportFailure Breaker.onVerifyTransportFailure
  cases b.state <;> rfl

/-- The counter is cleared in every state, and the admission given back in one. -/
theorem on_verify_inconclusive_eq : onVerifyInconclusive b = b.onVerifyInconclusive := by
  unfold onVerifyInconclusive Breaker.onVerifyInconclusive
  cases b.state <;> rfl

theorem set_xuni_pressure_eq {eligible : Bool} :
    setXuniPressure cfg b eligible now = b.setXuniPressure cfg eligible now := rfl

/-- One turn of the loop. -/
theorem selectLoop_step {trend : DifficultyTrend} {window : XuniWindowState} {r : FindRecord}
    {rs : List FindRecord} {oldest best : Option FindRecord} :
    selectLoop trend window (r :: rs) oldest best =
      selectLoop trend window rs (selectStep trend window (oldest, best) r).1
        (selectStep trend window (oldest, best) r).2 := by
  cases hk : r.payload.kind with
  | XUNI =>
    simp only [selectLoop, selectStep, hk, if_true]
    split <;> rfl
  | XEN11 =>
    simp only [selectLoop, selectStep, hk, reduceCtorEq, if_false]
    cases best with
    | none => rfl
    | some b =>
      simp only
      split <;> rfl

/-- The fold keeps what the loop carries along. -/
theorem select_fold {trend : DifficultyTrend} {window : XuniWindowState} (rs : List FindRecord)
    (oldest best : Option FindRecord) :
    rs.foldl (selectStep trend window) (oldest, best) =
      selectLoop trend window rs oldest best := by
  induction rs generalizing oldest best with
  | nil => rfl
  | cons r rs ih => rw [List.foldl_cons, selectLoop_step, ← ih]

/-- The loop of the C++ scheduler is the fold of the Rust one. -/
theorem select_next_eq {eligible : List FindRecord} {trend : DifficultyTrend}
    {window : XuniWindowState} :
    selectNext drain eligible trend window = TreeMiner.selectNext drain eligible trend window := by
  unfold selectNext TreeMiner.selectNext
  rw [select_fold]
  obtain ⟨oldest, best⟩ := selectLoop trend window eligible none none
  cases oldest with
  | none =>
    cases best <;> simp
  | some xuni =>
    cases best <;> simp

/-- Reading a row changes nothing that the selection looks at. -/
theorem select_step_row {trend : DifficultyTrend} {window : XuniWindowState} {r : FindRecord}
    {oldest best : Option FindRecord} :
    selectStep trend window (oldest.map Journal.rowToRecord, best.map Journal.rowToRecord)
        (Journal.rowToRecord r) =
      ((selectStep trend window (oldest, best) r).1.map Journal.rowToRecord,
        (selectStep trend window (oldest, best) r).2.map Journal.rowToRecord) := by
  have hkind : (Journal.rowToRecord r).payload.kind = r.payload.kind := rfl
  have hcost : ∀ r, (Journal.rowToRecord r).payload.memory_cost = r.payload.memory_cost :=
    fun _ => rfl
  unfold selectStep
  rw [hkind]
  split
  · simp only [Option.isNone_map]
    split <;> rfl
  · cases best with
    | none => rfl
    | some b =>
      simp only [Option.map_some, hcost]
      split <;> rfl

/-- The loop looks at kinds and costs, which a reading of the rows keeps. -/
theorem selectLoop_rows {trend : DifficultyTrend} {window : XuniWindowState}
    (rs : List FindRecord) (oldest best : Option FindRecord) :
    selectLoop trend window (rs.map Journal.rowToRecord) (oldest.map Journal.rowToRecord)
        (best.map Journal.rowToRecord) =
      ((selectLoop trend window rs oldest best).1.map Journal.rowToRecord,
        (selectLoop trend window rs oldest best).2.map Journal.rowToRecord) := by
  induction rs generalizing oldest best with
  | nil => rfl
  | cons r rs ih => rw [List.map_cons, selectLoop_step, selectLoop_step, select_step_row, ih]

/-- So it makes the same choice from the rows and from what is read of them. -/
theorem selectNext_rows {rows : List FindRecord} {trend : DifficultyTrend}
    {window : XuniWindowState} :
    TreeMiner.selectNext drain (rows.map Journal.rowToRecord) trend window =
      (TreeMiner.selectNext drain rows trend window).map Journal.rowToRecord := by
  have h : selectLoop trend window (rows.map Journal.rowToRecord) none none = _ :=
    selectLoop_rows rows none none
  unfold TreeMiner.selectNext
  rw [h]
  simp only [Option.isSome_map]
  split
  · rfl
  split <;> rfl

end Policies

/-! ## Clocks -/

/-- The clock texts are computed by the same arithmetic. -/
theorem iso_utc_eq (epoch_ms : Int) : isoUtc epoch_ms = TreeMiner.isoUtc epoch_ms := rfl

theorem xuni_window_at_eq (t : Int) : xuniWindowAt t = TreeMiner.xuniWindowAt t := rfl

/-- The loop that doubles the delay has the same bound and the same cap. -/
theorem backoff_loop_eq (cap : Int) (attempts : Nat) (delay : Int) :
    backoffLoop cap attempts delay = backoffDelay cap attempts delay := by
  induction attempts generalizing delay with
  | zero => rfl
  | succ attempts ih =>
    rw [backoffLoop, backoffDelay]
    split
    · exact ih _
    · rfl

/-! ## Columns that read as strings -/

section Strings

variable {a b : Bytes}

/-- A Rust string is the UTF-8 of some characters. -/
theorem is_string_iff : isString b = true ↔ ∃ s, Utf8.encode s = b := Utf8.decode_isSome

theorem is_string_lit (s : String) : isString (lit s) = true :=
  is_string_iff.mpr ⟨s.toList, rfl⟩

/-- Two strings joined are a string. -/
theorem is_string_append (ha : isString a = true) (hb : isString b = true) :
    isString (a ++ b) = true := by
  obtain ⟨s, rfl⟩ := is_string_iff.mp ha
  obtain ⟨t, rfl⟩ := is_string_iff.mp hb
  exact is_string_iff.mpr ⟨s ++ t, Utf8.encode_append s t⟩

/-- ASCII bytes are a string, which is how all the texts below are shown to be one. -/
theorem is_string_ascii (hb : IsAscii b) : isString b = true := by
  refine is_string_iff.mpr ⟨b.map fun c => Char.ofNat c.toNat, ?_⟩
  induction b with
  | nil => rfl
  | cons c b ih =>
    have hc : c.toNat < 128 := UInt8.lt_iff_toNat_lt.mp (hb c List.mem_cons_self)
    have hn : (Char.ofNat c.toNat).toNat = c.toNat := by
      have hv : c.toNat.isValidChar := Or.inl (by omega)
      rw [Char.ofNat, dif_pos hv]
      rfl
    have henc : String.utf8EncodeChar (Char.ofNat c.toNat) = [c] := by
      rw [Json.utf8EncodeChar_ascii (by omega), hn, UInt8.ofNat_toNat]
    show String.utf8EncodeChar (Char.ofNat c.toNat) ++
      Utf8.encode (b.map fun c => Char.ofNat c.toNat) = c :: b
    rw [henc, ih fun x hx => hb x (List.mem_cons_of_mem _ hx)]
    rfl

/-- Digits are ASCII. -/
theorem ascii_of_digits (h : ∀ c ∈ b, isDigit c = true) : IsAscii b := by
  have hall : ∀ c : UInt8, isDigit c = true → c < 128 := forall_byte (by decide +kernel)
  exact fun c hc => hall c (h c hc)

theorem ascii_toDecimal (n : Nat) : IsAscii (toDecimal n) :=
  ascii_of_digits (digits_spec (n + 1) n (Nat.lt_succ_self n)).2.1

/-- A text is ASCII byte by byte. -/
theorem ascii_cons {c : UInt8} : IsAscii (c :: b) ↔ c < 128 ∧ IsAscii b := List.forall_mem_cons

theorem is_string_toDecimal (n : Nat) : isString (toDecimal n) = true :=
  is_string_ascii (ascii_toDecimal n)

/-- Numbers in decimal, also negative ones, are strings. -/
theorem is_string_toDecimalInt : ∀ i : Int, isString (toDecimalInt i) = true
  | .ofNat n => is_string_toDecimal n
  | .negSucc n => is_string_ascii (ascii_cons.mpr ⟨by decide, ascii_toDecimal _⟩)

/-- Padding puts zeros in front. -/
theorem ascii_padZero {n : Nat} (hb : IsAscii b) : IsAscii (padZero n b) := by
  intro c hc
  rcases List.mem_append.mp hc with hc | hc
  · rw [List.eq_of_mem_replicate hc]
    decide
  · exact hb c hc

theorem is_string_two (n : Nat) : isString (two n) = true :=
  is_string_ascii (ascii_padZero (ascii_toDecimal n))

/-- The year of a clock text, which may have a sign. -/
theorem is_string_four : ∀ i : Int, isString (four i) = true
  | .ofNat n => is_string_ascii (ascii_padZero (ascii_toDecimal n))
  | .negSucc n =>
    is_string_ascii (ascii_cons.mpr ⟨by decide, ascii_padZero (ascii_toDecimal _)⟩)

/-- A clock text is a string for every instant. -/
theorem is_string_isoUtc (t : Int) : isString (TreeMiner.isoUtc t) = true := by
  unfold TreeMiner.isoUtc
  grind [is_string_append, is_string_lit, is_string_two, is_string_four]

end Strings

/-! ## What is read from an ASCII body -/

section Ascii

variable {s t b : Bytes}

/-- What is left of an ASCII text after its blanks is ASCII. -/
theorem ascii_skipWs (hs : IsAscii s) : IsAscii (skipWs s) :=
  fun c hc => hs c ((List.dropWhile_sublist _).subset hc)

/-- An escape stands for an ASCII character. -/
theorem simpleEscape_ascii {e x : UInt8} (h : simpleEscape e = some x) : x < 128 := by
  unfold simpleEscape at h
  repeat' split at h
  all_goals cases h
  all_goals decide

/-- A code unit is shown as an ASCII byte, a question mark if need be. -/
theorem unitByte_ascii (u : Nat) : unitByte u < 128 := by
  unfold unitByte
  split
  next hu =>
    rw [UInt8.lt_iff_toNat_lt, UInt8.toNat_ofNat', Nat.mod_eq_of_lt (by omega)]
    exact hu
  next => decide

/-- The string at the front of an ASCII text, and what is behind it, are ASCII. -/
theorem looseChars_ascii (h : LooseChars s b t) (hs : IsAscii s) : IsAscii b ∧ IsAscii t := by
  induction h with
  | close t => exact ⟨fun c hc => absurd hc List.not_mem_nil, (ascii_cons.mp hs).2⟩
  | char hq hb _ ih =>
    obtain ⟨hc, hrest⟩ := ascii_cons.mp hs
    exact ⟨ascii_cons.mpr ⟨hc, (ih hrest).1⟩, (ih hrest).2⟩
  | esc he _ ih =>
    obtain ⟨-, hrest⟩ := ascii_cons.mp hs
    obtain ⟨hb, ht⟩ := ih (ascii_cons.mp hrest).2
    exact ⟨ascii_cons.mpr ⟨simpleEscape_ascii he, hb⟩, ht⟩
  | unit hu _ ih =>
    obtain ⟨hb, ht⟩ := ih fun c hc => hs c (by simp only [List.mem_cons, hc, or_true])
    exact ⟨ascii_cons.mpr ⟨unitByte_ascii _, hb⟩, ht⟩

/-- So is what comes behind a nested value. -/
theorem balanced_ascii {k : Kind} {d : Nat} (h : Balanced k d s t) (hs : IsAscii s) :
    IsAscii t := by
  induction h with
  | done t => exact hs
  | string hc _ ih => exact ih (looseChars_ascii hc (ascii_cons.mp hs).2).2
  | opn _ ih => exact ih (ascii_cons.mp hs).2
  | cls _ ih => exact ih (ascii_cons.mp hs).2
  | other _ _ _ _ ih => exact ih (ascii_cons.mp hs).2

/-- And behind any value. -/
theorem looseValue_ascii (h : LooseValue s t) (hs : IsAscii s) : IsAscii t := by
  have hw := ascii_skipWs hs
  cases h with
  | string hq hc =>
    rw [hq] at hw
    exact (looseChars_ascii hc (ascii_cons.mp hw).2).2
  | nested ho hb =>
    rw [ho] at hw
    exact balanced_ascii hb (ascii_cons.mp hw).2
  | bare hc _ =>
    rw [hc] at hw
    exact fun c hm => hw c ((List.dropWhile_sublist _).subset hm)

/-- A scalar of an ASCII text is ASCII. -/
theorem looseScalar_ascii (h : LooseScalar s b) (hs : IsAscii s) : IsAscii b := by
  have hw := ascii_skipWs hs
  cases h with
  | string hq hc =>
    rw [hq] at hw
    exact (looseChars_ascii hc (ascii_cons.mp hw).2).1
  | bare hc _ =>
    rw [hc] at hw
    exact fun c hm => hw c ((List.takeWhile_sublist _).subset hm)

/-- What comes behind a named member is ASCII. -/
theorem named_ascii {name : Bytes} (h : Named s name t) (hs : IsAscii s) : IsAscii t := by
  obtain ⟨s₁, s₂, hq, hc, hcolon⟩ := h
  have hw := ascii_skipWs hs
  rw [hq] at hw
  have hw' := ascii_skipWs (looseChars_ascii hc (ascii_cons.mp hw).2).2
  rw [hcolon] at hw'
  exact (ascii_cons.mp hw').2

/-- The value of a field of an ASCII body is ASCII. -/
theorem leads_ascii {field val : Bytes} (h : Leads field val s) (hs : IsAscii s) :
    IsAscii val := by
  induction h with
  | here hn hv => exact looseScalar_ascii hv (named_ascii hn hs)
  | later hn _ hv hc _ ih =>
    have hw := ascii_skipWs (looseValue_ascii hv (named_ascii hn hs))
    rw [hc] at hw
    exact ih (ascii_cons.mp hw).2

/-- A field of an ASCII body is ASCII. -/
theorem extractJsonField_ascii {body key val : Bytes} (hb : IsAscii body)
    (h : extractJsonField body key = some val) : IsAscii val := by
  obtain ⟨s, hs, hl⟩ := extractJsonField_iff.mp h
  have hw := ascii_skipWs hb
  rw [hs] at hw
  exact leads_ascii hl (ascii_cons.mp hw).2

/-- So is the message that the classification reads from it. -/
theorem messageOf_ascii {body : Bytes} (hb : IsAscii body) : IsAscii (messageOf body) := by
  unfold messageOf extractJsonMessage
  cases hm : extractJsonField body (lit "message") with
  | some m => exact extractJsonField_ascii hb hm
  | none =>
    cases he : extractJsonField body (lit "error") with
    | some e => exact extractJsonField_ascii hb he
    | none => exact hb

/-- So is the reason of its classification, up to the fixed texts. -/
theorem classify_reason_string {st : Int} {body : Bytes} {kind : FindKind} {ra : Option Bytes}
    (hb : IsAscii body) : isString (classify st body kind ra).reason = true := by
  have hm := is_string_ascii (messageOf_ascii hb)
  unfold classify classify400 classify401
  repeat' split
  all_goals
    grind [pending, quarantined, is_string_append, is_string_lit, is_string_toDecimal,
      is_string_toDecimalInt]

end Ascii

/-! ## Answers -/

/-- The same answer on the other side. -/
def cpp (r : RustTransport.TransportResult) : TransportResult where
  transport_ok := r.transport_ok
  http_status := r.http_status
  body := lit r.body
  retry_after := r.retry_after.map lit
  date_header := r.date_header.map lit

/-- An answer of ASCII texts without vertical tab, dated with an IMF-fixdate if at all. -/
structure Polite (r : RustTransport.TransportResult) : Prop where
  body : PlainText r.body
  retry_after : ∀ header, r.retry_after = some header → PlainText header
  date_header : ∀ header, r.date_header = some header → ∃ d : Fixdate, header.toList = d.text
  http_status : -2147483648 ≤ r.http_status ∧ r.http_status ≤ 2147483647

/-- A fixdate is a plain text. -/
theorem fixdate_plain (d : Fixdate) : ∀ c ∈ d.text, c.toNat < 128 ∧ c.toNat ≠ 0x0B := by
  have hdigit : ∀ n, (digit n).toNat < 128 ∧ (digit n).toNat ≠ 0x0B := by
    intro n
    have hall : ∀ k < 10, (Char.ofNat (48 + k)).toNat < 128 ∧
      (Char.ofNat (48 + k)).toNat ≠ 0x0B := by
      decide
    exact hall (n % 10) (Nat.mod_lt n (by decide))
  have hday : ∀ i : Fin 7, (wkdayName i).all
      (fun c => decide (c.toNat < 128 ∧ c.toNat ≠ 0x0B)) = true := by
    decide
  have hmonth : ∀ i : Fin 12, (monthName i).all
      (fun c => decide (c.toNat < 128 ∧ c.toNat ≠ 0x0B)) = true := by
    decide
  have hfixed : ", :GMT".toList.all (fun c => decide (c.toNat < 128 ∧ c.toNat ≠ 0x0B)) =
    true := by
    decide
  have hall : (d.text).all (fun c => decide (c.toNat < 128 ∧ c.toNat ≠ 0x0B)) = true := by
    simp only [Fixdate.text, Fixdate.time, pair, quad, List.all_append, List.all_cons, List.all_nil,
      hday, hmonth, hdigit, decide_true, Bool.and_true, Bool.true_and, ne_eq, not_false_eq_true,
        and_self]
    decide
  exact fun c hc => of_decide_eq_true (List.all_eq_true.mp hall c hc)

section Answers

variable {r : RustTransport.TransportResult} {rec : FindRecord}

/-- Both sides read the same instant from the date of a polite answer. -/
theorem Polite.date (hr : Polite r) : (cpp r).date_header.bind TreeMiner.parseHttpDateMs =
    r.date_header.bind fun header => parseHttpDateMs header.toList := by
  show (r.date_header.map lit).bind TreeMiner.parseHttpDateMs = _
  cases hh : r.date_header with
  | none => rfl
  | some header =>
    obtain ⟨d, hd⟩ := hr.date_header header hh
    have hplain : PlainText header := by
      unfold PlainText
      rw [hd]
      exact fixdate_plain d
    show TreeMiner.parseHttpDateMs (lit header) = parseHttpDateMs header.toList
    rw [lit_plain hplain, hd]
    exact fixdate_agrees d

/-- Both find the same bodies blank. -/
theorem Polite.blank (hr : Polite r) : isBlankBody r.body = isBlank (cpp r).body := by
  have hplain := plain_lit hr.body
  unfold isBlankBody isBlank
  show (lit r.body).all isAsciiWhitespace = (lit r.body).all isSpace
  rw [Bool.eq_iff_iff, List.all_eq_true, List.all_eq_true]
  refine forall₂_congr fun c hc => ?_
  rw [space_of_plain (hplain c hc).2]

/-- Both extract the same field of the body. -/
theorem Polite.field (hr : Polite r) (key : Bytes) :
    RustClassifier.extractJsonField (lit r.body) key = extractJsonField (cpp r).body key :=
  extract_json_field_eq (plain_lit hr.body) key

/-- Both compare a record with `/block` alike. -/
theorem Polite.matches_eq (hr : Polite r) :
    confirmationMatches rec r.body = TreeMiner.confirmationMatches rec (cpp r).body := by
  unfold confirmationMatches
  rw [hr.field, hr.field]
  rfl

/-- Both classify the answer alike. -/
theorem Polite.classified_eq (hr : Polite r) : classified rec r = classifyResult rec (cpp r) :=
  classify_with_retry_after_eq hr.body hr.retry_after

/-- The body of a polite answer is ASCII. -/
theorem Polite.ascii (hr : Polite r) : IsAscii (cpp r).body :=
  fun c hc => (plain_lit hr.body c hc).1

/-- So the reason that is stored is a Rust string. -/
theorem Polite.reason (hr : Polite r) : isString (classifyResult rec (cpp r)).reason = true :=
  classify_reason_string hr.ascii

/-- How long the server asks to wait. -/
theorem Polite.retry (hr : Polite r) :
    (r.retry_after.bind fun header => RustClassifier.parseRetryAfterSeconds (lit header)) =
      (cpp r).retry_after.bind parseRetryAfterSeconds := by
  show _ = (r.retry_after.map lit).bind parseRetryAfterSeconds
  cases hh : r.retry_after with
  | none => rfl
  | some header => exact parse_retry_after_seconds_eq (plain_lit (hr.retry_after header hh))

end Answers

/-! ## Rows -/

/-- A row that `row_to_record` reads, with a payload that is held in C strings. -/
structure Portable (r : FindRecord) : Prop where
  reads : rowToRecord r = some r
  noNul : ∀ column ∈ texts r.payload, 0 ∉ column

/-- A journal of such rows. -/
def Readable (j : Journal) : Prop := ∀ r ∈ j.rows, Portable r

/-- Every column of the row can be read. -/
structure Reads (r : FindRecord) : Prop where
  payload : ∀ column ∈ texts r.payload, isString column = true
  status_reason : isString r.status_reason = true
  last_response : isString r.last_response = true
  next_attempt_at : isString (r.next_attempt_at.getD []) = true
  last_attempt_at : isString (r.last_attempt_at.getD []) = true
  confirmed_at : isString (r.confirmed_at.getD []) = true
  last_http_status : -2147483648 ≤ r.last_http_status.getD 0 ∧
    r.last_http_status.getD 0 ≤ 2147483647

section Rows

variable {r r' : FindRecord} {j j' : Journal}

/-- The Rust journal loads exactly the rows whose texts are UTF-8 and whose status fits 32 bits. -/
theorem row_to_record_iff : rowToRecord r = some r ↔ Reads r := by
  -- `rowToRecord` tests its text columns one by one; the guard is put into one proposition first
  have hif : rowToRecord r = some r ↔ ([r.payload.key, r.payload.hash_to_verify,
      r.payload.account, r.payload.worker, r.payload.found_at_utc, r.status_reason,
      r.last_response, r.next_attempt_at.getD [], r.last_attempt_at.getD [],
      r.confirmed_at.getD []].all isString && -2147483648 ≤ r.last_http_status.getD 0 &&
      r.last_http_status.getD 0 ≤ 2147483647) = true := by
    unfold rowToRecord
    dsimp only
    split
    next h => simp only [h, iff_self]
    next h => simp only [h, reduceCtorEq]
  rw [hif]
  simp only [List.all_cons, List.all_nil, Bool.and_true, Bool.and_eq_true, decide_eq_true_eq]
  constructor
  · rintro ⟨⟨⟨hk, hh, ha, hw, hf, hr, hl, hn, hla, hc⟩, hlo⟩, hhi⟩
    refine ⟨?_, hr, hl, hn, hla, hc, hlo, hhi⟩
    intro column hcol
    simp only [texts, List.mem_cons, List.not_mem_nil, or_false] at hcol
    rcases hcol with rfl | rfl | rfl | rfl | rfl <;> assumption
  · intro h
    have hp : ∀ column ∈ texts r.payload, isString column = true := h.payload
    simp only [texts, List.forall_mem_cons] at hp
    obtain ⟨hk, hh, ha, hw, hf, -⟩ := hp
    exact ⟨⟨⟨hk, hh, ha, hw, hf, h.status_reason, h.last_response, h.next_attempt_at,
      h.last_attempt_at, h.confirmed_at⟩, h.last_http_status.1⟩, h.last_http_status.2⟩

/-- A row that both sides can read has columns that Rust can read. -/
theorem Portable.columns (h : Portable r) : Reads r := row_to_record_iff.mp h.reads

/-- A row that is rewritten with readable columns, its payload kept. -/
theorem Portable.rewritten (h : Portable r) (hp : r'.payload = r.payload) (hr : Reads r') :
    Portable r' := by
  refine ⟨row_to_record_iff.mpr hr, ?_⟩
  rw [hp]
  exact h.noNul

/-- What the C++ journal hands out of such a row is the row's payload. -/
theorem Portable.payload (h : Portable r) : (Journal.rowToRecord r).payload = r.payload := by
  have hn := h.noNul
  simp only [texts, List.forall_mem_cons] at hn
  obtain ⟨hk, hh, ha, hw, hf, -⟩ := hn
  simp only [Journal.rowToRecord, Journal.cText_noNul hk, Journal.cText_noNul hh,
    Journal.cText_noNul ha, Journal.cText_noNul hw, Journal.cText_noNul hf]

theorem ext_unpark {d : UInt32} : Journal.Ext j (j.unparkForDifficulty d) := Journal.ext_update

theorem ext_window {n : Int} : Journal.Ext j (j.unparkXuniForWindow n) := Journal.ext_update

/-- A release changes the status only, so that the rows stay readable. -/
theorem readable_unpark {d : UInt32} (h : Readable j) : Readable (j.unparkForDifficulty d) := by
  intro r' hr'
  obtain ⟨r, hr, rfl⟩ := Journal.mem_update.mp hr'
  split
  · have hc := (h r hr).columns
    exact (h r hr).rewritten rfl { hc with next_attempt_at := is_string_lit "" }
  · exact h r hr

/-- An edge of the window writes a status, a count and a reason of its own. -/
theorem readable_window {n : Int} (h : Readable j) : Readable (j.unparkXuniForWindow n) := by
  intro r' hr'
  obtain ⟨r, hr, rfl⟩ := Journal.mem_unparkXuniForWindow.mp hr'
  have hc := (h r hr).columns
  unfold Journal.windowOpened
  split
  · split
    · exact (h r hr).rewritten rfl
        { hc with status_reason := is_string_lit _, next_attempt_at := is_string_lit "" }
    · exact (h r hr).rewritten rfl { hc with next_attempt_at := is_string_lit "" }
  · exact h r hr

/-- The record of an attempt leaves the rows readable if what it writes is. -/
theorem readable_record {id : Int} {c : Classification} {st : Option Int} {body : Bytes}
    {next : Option Bytes} {now : Bytes} (h : Readable j) (hreason : isString c.reason = true)
    (hbody : isString body = true) (hnext : isString (next.getD []) = true)
    (hnow : isString now = true)
    (hst : -2147483648 ≤ st.getD 0 ∧ st.getD 0 ≤ 2147483647)
    (hj : j.recordAttempt id c st body next now = some j') : Readable j' := by
  intro r' hr'
  obtain ⟨r, hr, rfl⟩ := ((Journal.recordAttempt_some hj).2.2 r').mp hr'
  split
  · have hc := (h r hr).columns
    refine (h r hr).rewritten rfl ⟨hc.payload, hreason, hbody, hnext, hnow, ?_, hst⟩
    show isString ((if c.next_status = .Acked then some (r.confirmed_at.getD now)
      else r.confirmed_at).getD []) = true
    split
    · cases hconf : r.confirmed_at with
      | none => exact hnow
      | some t =>
        have ht := hc.confirmed_at
        rw [hconf] at ht
        exact ht
    · exact hc.confirmed_at
  · exact h r hr

/-- Rows that are all readable are all loaded. -/
theorem mapM_readable {rows : List FindRecord} (h : ∀ r ∈ rows, Portable r) :
    rows.mapM rowToRecord = some rows := by
  induction rows with
  | nil => rfl
  | cons r rows ih =>
    rw [List.mapM_cons, (h r List.mem_cons_self).reads,
      ih fun r hr => h r (List.mem_cons_of_mem _ hr)]
    rfl

/-- A fetch gives the same rows; the C++ journal copies them through C strings. -/
theorem fetch_by_status_eq (h : Readable j) (status : FindStatus) (kind : Option FindKind)
    (now : Bytes) (limit : Nat) : ∃ rows, fetchByStatus j status kind now limit = some rows ∧
      j.fetchByStatus status kind now limit = rows.map Journal.rowToRecord ∧
      ∀ r ∈ rows, r ∈ j.rows := by
  have hmem : ∀ r ∈ (j.rows.filter fun r => r.status == status &&
      (kind.all (r.payload.kind == ·)) && r.next_attempt_at.all (textLe · now)).take limit,
      r ∈ j.rows := by
    intro r hr
    exact (List.mem_filter.mp (List.mem_of_mem_take hr)).1
  exact ⟨_, mapM_readable fun r hr => h r (hmem r hr), rfl, hmem⟩

/-- A row that was there can be recorded. -/
theorem recordAttempt_isSome {id : Int} {c : Classification} (hr : r ∈ j.rows) (hid : r.id = id)
    (hs : c.next_status ≠ .Submitting) (st : Option Int) (body : Bytes) (next : Option Bytes)
    (now : Bytes) :
    ∃ j', j.recordAttempt id c st body next now = some j' := by
  have hsome : (j.byId id).isNone = false := by
    cases hb : j.byId id with
    | some _ => rfl
    | none => exact absurd (List.find?_eq_none.mp hb r hr) (by simpa using hid)
  unfold Journal.recordAttempt
  rw [if_neg hs, hsome]
  exact ⟨_, rfl⟩

end Rows

end TreeMiner.RustManager

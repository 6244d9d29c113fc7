import Mathlib.Data.List.TakeWhile
import TreeMiner.Journal.FallbackSink

/-!
# The drain of the Rust sink (`treeminer-journal/src/fallback.rs`, `jsonl.rs`)

The port reads the sink with `BufRead::lines`, which hands out Rust strings: a line
that is not UTF-8 is an error of the reader, not a malformed record, and the drain
stops there. What follows such a line is not looked at, now or on the next boot. So
every valid record is imported exactly when none stands behind a line that is not
UTF-8 (`import_complete_iff`).

A Rust string is its bytes; where one is made from bytes, `isUtf8` is checked.
-/

namespace TreeMiner.RustSink

open Cxx
open FallbackSink (Fields SinkFile ImportStats endsToken lookup stripEnd isBlank accept)

/-! ## `jsonl.rs` -/

/-- A continuation byte. -/
def isCont (c : UInt8) : Bool := 0x80 ≤ c && c ≤ 0xBF

/-- The second byte of a three-byte sequence. -/
def second3 (a b : UInt8) : Bool :=
  if a = 0xE0 then 0xA0 ≤ b && b ≤ 0xBF
  else if a = 0xED then 0x80 ≤ b && b ≤ 0x9F
  else 0xE1 ≤ a && a ≤ 0xEF && isCont b

/-- The second byte of a four-byte sequence. -/
def second4 (a b : UInt8) : Bool :=
  if a = 0xF0 then 0x90 ≤ b && b ≤ 0xBF
  else if a = 0xF4 then 0x80 ≤ b && b ≤ 0x8F
  else 0xF1 ≤ a && a ≤ 0xF3 && isCont b

/-- `str::from_utf8` accepts the bytes. -/
def isUtf8 : Bytes → Bool
  | [] => true
  | a :: s =>
    if a < 0x80 then isUtf8 s
    else
      match s with
      | [] => false
      | b :: s =>
        if 0xC2 ≤ a && a ≤ 0xDF then isCont b && isUtf8 s
        else
          match s with
          | [] => false
          | c :: s =>
            if a ≤ 0xEF then second3 a b && isCont c && isUtf8 s
            else
              match s with
              | [] => false
              | d :: s => second4 a b && isCont c && isCont d && isUtf8 s

/-- `HEX`. -/
def HEX : Bytes := lit "0123456789abcdef"

/-- The match of `append_json_string`. -/
def escapeByte (c : UInt8) : Bytes :=
  if c = ch '"' then lit "\\\""
  else if c = ch '\\' then lit "\\\\"
  else if c = 0x08 then lit "\\b"
  else if c = 0x0c then lit "\\f"
  else if c = ch '\n' then lit "\\n"
  else if c = ch '\r' then lit "\\r"
  else if c = ch '\t' then lit "\\t"
  else if c < 0x20 then lit "\\u00" ++ [HEX.getD (c.toNat / 16) 0, HEX.getD (c.toNat % 16) 0]
  else [c]

/-- `append_json_string`. -/
def appendJsonString (out value : Bytes) : Bytes :=
  out ++ [ch '"'] ++ value.flatMap escapeByte ++ [ch '"']

/-- `append_field`. -/
def appendField (out : Bytes) (key : String) (value : Bytes) (first : Bool) : Bytes :=
  let out := if first then out else out ++ [ch ',']
  appendJsonString (appendJsonString out (lit key) ++ [ch ':']) value

/-- `append_raw_field`. -/
def appendRawField (out : Bytes) (key : String) (literal : Bytes) (first : Bool) : Bytes :=
  let out := if first then out else out ++ [ch ',']
  appendJsonString out (lit key) ++ [ch ':'] ++ literal

/-- `FindKind::as_str`. -/
def asStr : FindKind → Bytes
  | .XEN11 => lit "XEN11"
  | .XUNI => lit "XUNI"

section

variable (to_string : Double → Bytes)

/-- `format_rate`; `to_string` is the `Display` of `f64`. -/
def formatRate (v : Double) : Bytes :=
  if !v.isFinite then lit "0"
  else
    let s := to_string v
    if s.any (fun b => b = ch 'n' ∨ b = ch 'i' ∨ b = ch 'N' ∨ b = ch 'I') then lit "0" else s

/-- `serialize`. -/
def serialize (payload : FoundPayload) : Bytes :=
  let out := [ch '{']
  let out := appendField out "key" payload.key true
  let out := appendField out "hash_to_verify" payload.hash_to_verify false
  let out := appendField out "account" payload.account false
  let out := appendField out "kind" (asStr payload.kind) false
  let out := appendRawField out "memory_cost" (toDecimal payload.memory_cost.toNat) false
  let out := appendField out "worker" payload.worker false
  let out := appendRawField out "attempts" (toDecimal payload.attempts.toNat) false
  let out := appendRawField out "hashes_per_second" (formatRate to_string payload.hashes_per_second)
    false
  let out := appendField out "found_at_utc" payload.found_at_utc false
  out ++ [ch '}'] ++ [nl]

end

/-- `skip_ws`. -/
abbrev skipWs := FallbackSink.skipWs

/-- `char::from_u32` on four hexadecimal digits, encoded: no surrogates. -/
def unitBytes (cp : Nat) : Option Bytes :=
  if 0xD800 ≤ cp ∧ cp ≤ 0xDFFF then none else some (FallbackSink.utf8 cp)

/-- The loop of `parse_json_string`, after the opening quote. -/
def stringLoop : Bytes → Option (Bytes × Bytes)
  | [] => none
  | c :: s =>
    if c = ch '"' then some ([], s)
    else if c = ch '\\' then
      match s with
      | [] => none
      | e :: s =>
        if e = ch 'u' then
          match s with
          | a :: b :: c :: d :: s =>
            match (FallbackSink.hex4 a b c d).bind unitBytes with
            | some bs => (stringLoop s).map fun r => (bs ++ r.1, r.2)
            | none => none
          | _ => none
        else
          match FallbackSink.simpleEscape e with
          | some x => (stringLoop s).map fun r => (x :: r.1, r.2)
          | none => none
    else (stringLoop s).map fun r => (c :: r.1, r.2)

/-- `parse_json_string`; the result has to be a string. -/
def parseJsonString : Bytes → Option (Bytes × Bytes)
  | [] => none
  | c :: s =>
    if c = ch '"' then
      match stringLoop s with
      | some (out, s) => if isUtf8 out then some (out, s) else none
      | none => none
    else none

/-- A value: a string, or a bare token kept as it is. -/
def parseValue : Bytes → Option (Bytes × Bytes)
  | [] => none
  | c :: s =>
    if c = ch '"' then parseJsonString (c :: s)
    else if c = ch '{' ∨ c = ch '[' then none
    else if endsToken c then none
    else some ((c :: s).takeWhile (fun c => !endsToken c), (c :: s).dropWhile fun c => !endsToken c)

/-- The member loop of `parse_flat_object`. -/
def membersLoop : Nat → Fields → Bytes → Option (Fields × Bytes)
  | 0, _, _ => none
  | fuel + 1, fields, s =>
    match parseJsonString (skipWs s) with
    | none => none
    | some (key, s) =>
      match skipWs s with
      | [] => none
      | c :: s =>
        if c = ch ':' then
          match parseValue (skipWs s) with
          | none => none
          | some (value, s) =>
            match skipWs s with
            | [] => some ((key, value) :: fields, [])
            | c :: s =>
              if c = ch ',' then membersLoop fuel ((key, value) :: fields) s
              else some ((key, value) :: fields, c :: s)
        else none

/-- `parse_flat_object`. -/
def parseFlatObject (line : Bytes) : Option Fields :=
  match skipWs line with
  | [] => none
  | c :: s =>
    if c = ch '{' then
      if (skipWs s).head? = some (ch '}') then FallbackSink.closeObject [] (skipWs s)
      else
        match membersLoop (s.length + 1) [] s with
        | none => none
        | some (fields, s) => FallbackSink.closeObject fields s
    else none

/-- `parse_u64`: `str::parse` takes digits after at most a plus sign. -/
def parseU64 (text : Bytes) : Option Nat :=
  if text = [] ∨ text.head? = some (ch '-') then none
  else
    let ds := if text.head? = some (ch '+') then text.tail else text
    if ds = [] ∨ ¬ ds.all isDigit ∨ 2 ^ 64 ≤ digitsVal 0 ds then none
    else some (digitsVal 0 ds)

section

variable (parse_f64 : Bytes → Option Double)

/-- `payload_from_fields`; `parse_f64` is `str::parse::<f64>`. -/
def payloadFromFields (fields : Fields) : Option FoundPayload := do
  let kind ← FallbackSink.parseKind (← lookup fields "kind")
  let memory_cost ← parseU64 (← lookup fields "memory_cost")
  if memory_cost > 0xFFFFFFFF then none
  else
    let key ← lookup fields "key"
    let hash_to_verify ← lookup fields "hash_to_verify"
    let account ← lookup fields "account"
    let worker ← lookup fields "worker"
    let attempts ← parseU64 (← lookup fields "attempts")
    let rate ← parse_f64 (← lookup fields "hashes_per_second")
    let found_at_utc ← lookup fields "found_at_utc"
    some ⟨key, hash_to_verify, account, kind, UInt32.ofNat memory_cost, worker,
      UInt64.ofNat attempts, rate, found_at_utc⟩

/-- `parse_payload`. -/
def parsePayload (line : Bytes) : Option FoundPayload :=
  (parseFlatObject line).bind (payloadFromFields parse_f64)

/-! ## `fallback.rs` -/

section Import

variable {σ : Type} (append : σ → FoundPayload → Option σ)

/-- The loop of `import_into_impl`: the journal, the counts, and whether the pass
was clean. The carriage return that `lines` takes off a line is taken off by the
loop in any case. -/
def importLoop : List Bytes → σ → ImportStats → σ × ImportStats × Bool
  | [], j, stats => (j, stats, true)
  | line :: ls, j, stats =>
    if isUtf8 line then
      if isBlank (stripEnd line) then importLoop ls j stats
      else
        match parsePayload parse_f64 (stripEnd line) with
        | none => importLoop ls j { stats with malformed := stats.malformed + 1 }
        | some p =>
          match append j p with
          | some j => importLoop ls j { stats with imported := stats.imported + 1 }
          | none => (j, stats, false)
    else (j, stats, false)

/-- `import_into`: the journal, the counts, and whether the file was archived. -/
def importInto (j : σ) : SinkFile → σ × ImportStats × Bool
  | .missing => (j, {}, false)
  | .unreadable => (j, { file_present := true }, false)
  | .bytes content => importLoop parse_f64 append (lines content) j { file_present := true }
  | .failing read =>
    -- the line at which the read fails is an `Err`
    let r := importLoop parse_f64 append (linesBefore read) j { file_present := true }
    (r.1, r.2.1, false)

end Import

/-- What `import_into` appends to a journal whose append never fails. -/
def handed (content : Bytes) : List FoundPayload :=
  (importInto parse_f64 accept [] (.bytes content)).1

/-! ## What is imported -/

/-- The payload of a line that is a valid record. -/
def record (line : Bytes) : Option FoundPayload :=
  if isUtf8 line && !isBlank (stripEnd line) then parsePayload parse_f64 (stripEnd line) else none

/-- The drain takes the records of the lines before the first that is not UTF-8. -/
theorem import_loop_handed : ∀ (ls : List Bytes) (j : List FoundPayload) (stats : ImportStats),
    (importLoop parse_f64 accept ls j stats).1 =
      j ++ (ls.takeWhile isUtf8).filterMap (record parse_f64)
  | [], j, _ => (List.append_nil j).symm
  | line :: ls, j, stats => by
    rw [importLoop]
    by_cases hu : isUtf8 line = true
    · rw [if_pos hu, List.takeWhile_cons_of_pos hu]
      by_cases hb : isBlank (stripEnd line) = true
      · have hrec : record parse_f64 line = none := by
          unfold record
          rw [hb, Bool.not_true, Bool.and_false]
          rfl
        rw [if_pos hb, import_loop_handed, List.filterMap_cons_none hrec]
      · have hrec : record parse_f64 line = parsePayload parse_f64 (stripEnd line) := by
          unfold record
          rw [hu, Bool.eq_false_iff.mpr hb]
          rfl
        rw [if_neg hb]
        cases hp : parsePayload parse_f64 (stripEnd line) with
        | none =>
          rw [hp] at hrec
          show (importLoop parse_f64 accept ls j _).1 = _
          rw [import_loop_handed, List.filterMap_cons_none hrec]
        | some p =>
          rw [hp] at hrec
          show (importLoop parse_f64 accept ls (j ++ [p]) _).1 = _
          rw [import_loop_handed, List.filterMap_cons_some hrec, List.append_assoc]
          rfl
    · rw [if_neg hu, List.takeWhile_cons_of_neg hu]
      exact (List.append_nil j).symm

/-- What the Rust import hands to the journal: the records before the first line that is not UTF-8.
-/
theorem handed_eq (content : Bytes) : handed parse_f64 content =
    ((lines content).takeWhile isUtf8).filterMap (record parse_f64) := by
  show (importLoop parse_f64 accept (lines content) [] _).1 = _
  rw [import_loop_handed, List.nil_append]

/-- A line behind a damaged one is not reached. -/
theorem mem_dropWhile {damaged line : Bytes} {after : List Bytes} (before : List Bytes)
    (hd : isUtf8 damaged = false) (hline : line ∈ after) :
    line ∈ (before ++ damaged :: after).dropWhile isUtf8 := by
  induction before with
  | nil =>
    rw [List.nil_append, List.dropWhile_cons_of_neg (Bool.eq_false_iff.mp hd)]
    exact List.mem_cons_of_mem _ hline
  | cons first before ih =>
    rw [List.cons_append]
    by_cases hu : isUtf8 first = true
    · rw [List.dropWhile_cons_of_pos hu]
      exact ih
    · rw [List.dropWhile_cons_of_neg hu]
      exact List.mem_cons_of_mem _ (List.mem_append_right _ (List.mem_cons_of_mem _ hline))

/-- One import appends the payload of every line that is a valid record, in order,
exactly when no such line stands behind one that is not UTF-8. -/
theorem import_complete_iff (content : Bytes) :
    handed parse_f64 content = (lines content).filterMap (record parse_f64) ↔
      ∀ before damaged after, lines content = before ++ damaged :: after →
        isUtf8 damaged = false → ∀ line ∈ after, record parse_f64 line = none := by
  rw [handed_eq]
  generalize lines content = ls
  -- the lines split at the first that is not UTF-8
  have hsplit : ls.filterMap (record parse_f64) =
    (ls.takeWhile isUtf8).filterMap (record parse_f64) ++
      (ls.dropWhile isUtf8).filterMap (record parse_f64) := by
    rw [← List.filterMap_append, List.takeWhile_append_dropWhile]
  rw [hsplit, List.self_eq_append_right]
  constructor
  · intro hnone before damaged after hls hd line hline
    have hmem : line ∈ ls.dropWhile isUtf8 := hls ▸ mem_dropWhile before hd hline
    exact List.filterMap_eq_nil_iff.mp hnone line hmem
  · intro h
    rw [List.filterMap_eq_nil_iff]
    intro line hline
    cases hdrop : ls.dropWhile isUtf8 with
    | nil =>
      rw [hdrop] at hline
      cases hline
    | cons damaged after =>
      have hd : isUtf8 damaged = false := by
        have := List.head?_dropWhile_not isUtf8 ls
        rw [hdrop] at this
        simpa using this
      have hls : ls = ls.takeWhile isUtf8 ++ damaged :: after := by
        rw [← hdrop, List.takeWhile_append_dropWhile]
      rw [hdrop] at hline
      rcases List.mem_cons.mp hline with rfl | hline
      · unfold record
        rw [hd]
        rfl
      · exact h _ damaged after hls hd line hline

end

/-- A record as the sink writes it. -/
def goodLine : Bytes :=
  lit "\x7b\"key\":\"k\",\"hash_to_verify\":\"h\",\"account\":\"a\",\"kind\":\"XUNI\"," ++
  lit "\"memory_cost\":8,\"worker\":\"w\",\"attempts\":5,\"hashes_per_second\":1," ++
  lit "\"found_at_utc\":\"t\"\x7d"

/-- `parse_f64` at the one rate of `goodLine`. -/
def parseOne (text : Bytes) : Option Double :=
  if text = lit "1" then some ⟨0x3FF0000000000000⟩ else none

/-- One byte that is not UTF-8 strands the record behind it. -/
theorem damaged_line_strands : ∃ p, record parseOne goodLine = some p ∧
    (lines ([0xFF, nl] ++ goodLine ++ [nl])).filterMap (record parseOne) = [p] ∧
    handed parseOne ([0xFF, nl] ++ goodLine ++ [nl]) = [] := by
  refine ⟨⟨lit "k", lit "h", lit "a", .XUNI, 8, lit "w", 5, ⟨0x3FF0000000000000⟩,
    lit "t"⟩, ?_⟩
  decide +kernel

end TreeMiner.RustSink

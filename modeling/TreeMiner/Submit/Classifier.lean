import TreeMiner.Submit.Types

/-!
# `ResponseClassifier.cpp`: what a `/verify` answer means

The hand-written JSON scanner (`parseJsonString`, `skipJsonValue`,
`captureScalar`, `extractJsonField`) and the truth table on top of it
(`classify`). A position `i` into the text is the suffix that starts there, so
`s[i]` is the head of the suffix and "advance `i`" is "return a shorter suffix".

The two loops that jump over whole strings (`skipNested`, `fieldLoop`) carry a
fuel argument; every turn of either consumes at least one byte, so the length of
the text is always enough. The nesting counter of `skipJsonValue` is an `int` in
the source and cannot overflow on a text shorter than 2^31 bytes; it is a
natural number here.
-/

namespace TreeMiner

open Cxx

/-- `isBlank`. -/
def isBlank (s : Bytes) : Bool := s.all isSpace

/-- `skipWs`. -/
def skipWs (s : Bytes) : Bytes := s.dropWhile isSpace

/-- The byte a one-letter escape stands for. -/
def simpleEscape (e : UInt8) : Option UInt8 :=
  if e = ch '"' then some (ch '"')
  else if e = ch '\\' then some (ch '\\')
  else if e = ch '/' then some (ch '/')
  else if e = ch 'b' then some 8
  else if e = ch 'f' then some 12
  else if e = ch 'n' then some 10
  else if e = ch 'r' then some 13
  else if e = ch 't' then some 9
  else none

/-- The value of four hexadecimal digits. -/
def hex4 (a b c d : UInt8) : Option Nat := do
  let a ← hexVal a
  let b ← hexVal b
  let c ← hexVal c
  let d ← hexVal d
  some (((a * 16 + b) * 16 + c) * 16 + d)

/-- A code unit outside ASCII becomes `?`. -/
def unitByte (code : Nat) : UInt8 := if code < 0x80 then UInt8.ofNat code else ch '?'

/-- The loop of `parseJsonString`, from just after the opening quote: the
decoded text and what follows the closing quote. -/
def stringLoop : Bytes → Option (Bytes × Bytes)
  | [] => none
  | c :: s =>
    if c = ch '"' then some ([], s)
    else if c = ch '\\' then
      match s with
      | [] => none
      | e :: s' =>
        if e = ch 'u' then
          match s' with
          | h₁ :: h₂ :: h₃ :: h₄ :: s'' =>
            match hex4 h₁ h₂ h₃ h₄ with
            | none => none
            | some code => (stringLoop s'').map fun r => (unitByte code :: r.1, r.2)
          | _ => none
        else
          match simpleEscape e with
          | none => none
          | some b => (stringLoop s').map fun r => (b :: r.1, r.2)
    else (stringLoop s).map fun r => (c :: r.1, r.2)

/-- `parseJsonString`. -/
def parseJsonString : Bytes → Option (Bytes × Bytes)
  | [] => none
  | c :: s => if c = ch '"' then stringLoop s else none

/-- Where a bare token (number or literal) ends. -/
def endsBare (c : UInt8) : Bool :=
  c == ch ',' || c == ch '}' || c == ch ']' || isSpace c

/-- The bracket loop of `skipJsonValue`. -/
def skipNested (opn cls : UInt8) : Nat → Nat → Bytes → Option Bytes
  | 0, _, _ => none
  | _, _, [] => none
  | fuel + 1, depth, d :: s =>
    if d = ch '"' then
      match parseJsonString (d :: s) with
      | none => none
      | some (_, s') => skipNested opn cls fuel depth s'
    else if d = opn then skipNested opn cls fuel (depth + 1) s
    else if d = cls then
      if depth = 1 then some s else skipNested opn cls fuel (depth - 1) s
    else skipNested opn cls fuel depth s

/-- `skipJsonValue`: the text after one value of any kind. -/
def skipJsonValue (s : Bytes) : Option Bytes :=
  match skipWs s with
  | [] => none
  | c :: s =>
    if c = ch '"' then (parseJsonString (c :: s)).map Prod.snd
    else if c = ch '{' then skipNested (ch '{') (ch '}') (s.length + 1) 0 (c :: s)
    else if c = ch '[' then skipNested (ch '[') (ch ']') (s.length + 1) 0 (c :: s)
    else some ((c :: s).dropWhile fun c => !endsBare c)

/-- `captureScalar`: the text of a string, number or literal; `none` for an
object or an array. -/
def captureScalar (s : Bytes) : Option Bytes :=
  match skipWs s with
  | [] => none
  | c :: s =>
    if c = ch '"' then (parseJsonString (c :: s)).map Prod.fst
    else if c = ch '{' || c = ch '[' then none
    else some ((c :: s).takeWhile fun c => !endsBare c)

/-- The member loop of `extractJsonField`. -/
def fieldLoop (key : Bytes) : Nat → Bytes → Option Bytes
  | 0, _ => none
  | fuel + 1, s =>
    match parseJsonString (skipWs s) with
    | none => none
    | some (k, s) =>
      match skipWs s with
      | [] => none
      | c :: s =>
        if c ≠ ch ':' then none
        else if k = key then captureScalar s
        else
          match skipJsonValue s with
          | none => none
          | some s =>
            match skipWs s with
            | [] => none
            | c :: s => if c = ch ',' then fieldLoop key fuel s else none

/-- `extractJsonField`: a top-level scalar member of an object body. -/
def extractJsonField (body key : Bytes) : Option Bytes :=
  match skipWs body with
  | [] => none
  | c :: s =>
    if c ≠ ch '{' then none
    else
      match skipWs s with
      | [] => none
      | d :: s' => if d = ch '}' then none else fieldLoop key (s'.length + 1) (d :: s')

/-- `extractJsonMessage`. -/
def extractJsonMessage (body : Bytes) : Option Bytes :=
  match extractJsonField body (lit "message") with
  | some m => some m
  | none => extractJsonField body (lit "error")

/-- The digit loop of `parseDifficultyHint`: gives up past 32 bits. -/
def hintDigits (value : Nat) : Bytes → Option Nat
  | [] => some value
  | c :: s =>
    if isDigit c then
      let v := value * 10 + (c.toNat - 48)
      if v > 0xFFFFFFFF then none else hintDigits v s
    else some value

/-- `parseDifficultyHint`: the number after the first `m=` that a digit follows. -/
def parseDifficultyHint : Bytes → Option UInt32
  | [] => none
  | c :: s =>
    match c == ch 'm', s with
    | true, e :: d :: s' =>
      if e == ch '=' && isDigit d then (hintDigits 0 (d :: s')).map UInt32.ofNat
      else parseDifficultyHint s
    | _, _ => parseDifficultyHint s

/-- The digit loop of `parseRetryAfterSeconds`. -/
def retryDigits (value : Nat) : Bytes → Option (Nat × Bytes)
  | [] => some (value, [])
  | c :: s =>
    if isDigit c then
      if value > 100000000 then none else retryDigits (value * 10 + (c.toNat - 48)) s
    else some (value, c :: s)

/-- `parseRetryAfterSeconds`: the delay-seconds form only. -/
def parseRetryAfterSeconds (header : Bytes) : Option Nat :=
  match skipWs header with
  | [] => none
  | c :: s =>
    if isDigit c then
      match retryDigits 0 (c :: s) with
      | none => none
      | some (v, rest) => if skipWs rest = [] then some v else none
    else none

/-- `pending`. -/
def pending (reason : Bytes) : Classification := { next_status := .Pending, reason := reason }

/-- `quarantined`. -/
def quarantined (reason : Bytes) : Classification :=
  { next_status := .Quarantined, reason := reason }

/-- Structured message first, raw body as the fallback. -/
def messageOf (body : Bytes) : Bytes := (extractJsonMessage body).getD body

/-- The 400 branch of `classify`. -/
def classify400 (message : Bytes) : Classification :=
  if contains (lit "already exists") message then
    { next_status := .AcceptedUnconfirmed
      needs_lookup_confirmation := true
      reason := lit "duplicate key (already exists); confirming via /get_block" }
  else quarantined (lit "unrecognized 400: " ++ message)

/-- The 401 branch of `classify`. -/
def classify401 (message : Bytes) (kind : FindKind) : Classification :=
  if contains (lit "Hash verification failed") message then
    { next_status := .PermanentlyInvalid
      reason := lit "server rejected: hash verification failed" }
  else if contains (lit "outside of proper time frame") message ||
      contains (lit "outside of time window") message then
    match kind with
    | .XUNI =>
      { next_status := .ParkedXuniWindow
        reason := lit "XUNI outside server time window; parked for a later window" }
    | .XEN11 =>
      quarantined
        (lit
          "IMPOSSIBLE: XUNI-window rejection for a XEN11 record — server semantics changed, investigate: " ++ message)
  else
    match parseDifficultyHint message with
    | some hint =>
      { next_status := .ParkedDifficulty
        server_difficulty_hint := some hint
        reason := lit "difficulty too low (server currently at m=" ++ toDecimal hint.toNat ++
          lit "); parked until difficulty falls" }
    | none => quarantined (lit "unrecognized 401: " ++ message)

/-- `classify`. -/
def classify (http_status : Int) (body : Bytes) (kind : FindKind) (retry_after : Option Bytes) :
    Classification :=
  if http_status ≤ 0 then
    pending (lit "transport failure; will retry with backoff")
  else if isBlank body then
    pending (lit "empty response body (http " ++ toDecimalInt http_status ++
      lit "); will retry with backoff")
  else if http_status = 200 then
    { next_status := .AcceptedUnconfirmed
      needs_lookup_confirmation := true
      reason := lit "http 200; awaiting /get_block confirmation" }
  else if http_status = 429 then
    match retry_after.bind parseRetryAfterSeconds with
    | some secs => pending (lit "rate limited (429)" ++ lit "; retry_after_s=" ++ toDecimal secs)
    | none => pending (lit "rate limited (429)")
  else if http_status = 408 || http_status = 425 || http_status ≥ 500 then
    pending (lit "server unhealthy (http " ++ toDecimalInt http_status ++
      lit "); will retry with backoff")
  else if http_status = 400 then classify400 (messageOf body)
  else if http_status = 401 then classify401 (messageOf body) kind
  else quarantined (lit "unrecognized response (http " ++ toDecimalInt http_status ++
    lit "): " ++ messageOf body)

/-! ## What each outcome says about the answer -/

/-- A permanent rejection comes from a 401 that says the hash failed. -/
theorem classify_permanentlyInvalid {st : Int} {body : Bytes} {kind : FindKind}
    {ra : Option Bytes} (h : (classify st body kind ra).next_status = .PermanentlyInvalid) :
    st = 401 ∧ contains (lit "Hash verification failed") (messageOf body) = true := by
  unfold classify at h
  split at h
  · cases h
  split at h
  · cases h
  split at h
  · cases h
  split at h
  · split at h <;> cases h
  split at h
  · cases h
  split at h
  · unfold classify400 at h
    split at h <;> cases h
  split at h
  -- only this branch can give it, and only for this text
  next h401 =>
    unfold classify401 at h
    split at h
    next hc => exact ⟨h401, hc⟩
    split at h
    · split at h <;> cases h
    · split at h <;> cases h
  · cases h

/-- No answer is ever classified as final success, as dead or as in flight. -/
theorem classify_next_status (st : Int) (body : Bytes) (kind : FindKind) (ra : Option Bytes) :
    (classify st body kind ra).next_status ≠ .Acked ∧
    (classify st body kind ra).next_status ≠ .Dead ∧
    (classify st body kind ra).next_status ≠ .Submitting := by
  unfold classify classify400 classify401
  repeat' split
  all_goals simp [pending, quarantined]

/-- A difficulty hint comes with a parked record and only then. -/
theorem classify_hint {st : Int} {body : Bytes} {kind : FindKind} {ra : Option Bytes} :
    (classify st body kind ra).next_status = .ParkedDifficulty ↔
      (classify st body kind ra).server_difficulty_hint.isSome = true := by
  unfold classify classify400 classify401
  repeat' split
  all_goals simp [pending, quarantined]

/-- A lookup is asked for exactly when the record was accepted, unconfirmed. -/
theorem classify_lookup {st : Int} {body : Bytes} {kind : FindKind} {ra : Option Bytes} :
    (classify st body kind ra).next_status = .AcceptedUnconfirmed ↔
      (classify st body kind ra).needs_lookup_confirmation = true := by
  unfold classify classify400 classify401
  repeat' split
  all_goals simp [pending, quarantined]

end TreeMiner

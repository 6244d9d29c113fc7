import TreeMiner.Lib.Lines
import TreeMiner.Submit.Types

/-!
# The last-resort sink (`journal/FallbackSink.cpp`)

One find, one flat JSON object, one line. The serializer and the parser of the
sink, the drain into the journal and the raw write, with what they use of the C
library. `snprintf("%.17g")` and `strtod` are parameters (`Libc`); what is assumed
of them is `Libc.Standard`.

`std::map` is a list of assignments, newest first.
-/

namespace TreeMiner.FallbackSink

open Cxx

/-! ## The C library -/

/-- `snprintf` of a double with `%.17g`, and `strtod` on a C string: the value and
how many characters were consumed. -/
structure Libc where
  fmt : Double → Bytes
  strtod : Bytes → Double × Nat

/-- The characters of a finite number in the C locale. -/
def isRateByte (c : UInt8) : Bool :=
  isDigit c || c == ch '+' || c == ch '-' || c == ch '.' || c == ch 'e'

/-- `"%.17g"` of a finite double is a short number that `strtod` reads back; of any
other it is a spelling of infinity or NaN. -/
structure Libc.Standard (libc : Libc) : Prop where
  finite : ∀ d, d.isFinite = true → libc.fmt d ≠ [] ∧ (libc.fmt d).length < 64 ∧
    ∀ c ∈ libc.fmt d, isRateByte c = true
  read : ∀ d, d.isFinite = true → libc.strtod (libc.fmt d) = (d, (libc.fmt d).length)
  other : ∀ d, d.isFinite = false → ch 'n' ∈ libc.fmt d

/-- `c_str()`: what a C function sees of a `std::string`. -/
def cStr (s : Bytes) : Bytes := s.takeWhile (· ≠ 0)

/-- `strtoull(s, &end, 10)`: the value, the characters consumed, and whether `errno`
was set. -/
def strtoull (s : Bytes) : Nat × Nat × Bool :=
  let blanks := (s.takeWhile isSpace).length
  let t := s.drop blanks
  let neg := t.head? == some (ch '-')
  let sign := if neg || t.head? == some (ch '+') then 1 else 0
  let ds := (t.drop sign).takeWhile isDigit
  if ds = [] then (0, 0, false)
  else
    let v := digitsVal 0 ds
    let n := blanks + sign + ds.length
    if 2 ^ 64 ≤ v then (2 ^ 64 - 1, n, true)
    else (if neg then (2 ^ 64 - v) % 2 ^ 64 else v, n, false)

/-! ## Serializing -/

/-- `kHex`. -/
def kHex (n : Nat) : UInt8 := if n < 10 then UInt8.ofNat (48 + n) else UInt8.ofNat (87 + n)

/-- The switch of `appendJsonString`. -/
def escapeByte (c : UInt8) : Bytes :=
  if c = ch '"' then [ch '\\', ch '"']
  else if c = ch '\\' then [ch '\\', ch '\\']
  else if c = 8 then [ch '\\', ch 'b']
  else if c = 12 then [ch '\\', ch 'f']
  else if c = 10 then [ch '\\', ch 'n']
  else if c = 13 then [ch '\\', ch 'r']
  else if c = 9 then [ch '\\', ch 't']
  else if c < 0x20 then
    [ch '\\', ch 'u', ch '0', ch '0', kHex (c.toNat / 16 % 16), kHex (c.toNat % 16)]
  else [c]

/-- `appendJsonString`. -/
def appendJsonString (out value : Bytes) : Bytes :=
  out ++ [ch '"'] ++ value.flatMap escapeByte ++ [ch '"']

/-- `appendRawField`. -/
def appendRawField (out : Bytes) (key : String) (literal : Bytes) (first : Bool) : Bytes :=
  appendJsonString (if first then out else out ++ [ch ',']) (lit key) ++ [ch ':'] ++ literal

/-- `appendField`. -/
def appendField (out : Bytes) (key : String) (value : Bytes) (first : Bool) : Bytes :=
  appendJsonString (appendJsonString (if first then out else out ++ [ch ',']) (lit key) ++
    [ch ':']) value

/-- `to_string(FindKind)`. -/
def kindName : FindKind → Bytes
  | .XEN11 => lit "XEN11"
  | .XUNI => lit "XUNI"

/-- The text of the rate: 0 for what is not a number. -/
def rateText (libc : Libc) (d : Double) : Bytes :=
  let rate := libc.fmt d
  if rate.length ≤ 0 ∨ 64 ≤ rate.length then lit "0"
  else if rate.any (fun c => c = ch 'n' ∨ c = ch 'i' ∨ c = ch 'N' ∨ c = ch 'I') then lit "0"
  else rate

/-- `serialize`. -/
def serialize (libc : Libc) (p : FoundPayload) : Bytes :=
  let out := [ch '{']
  let out := appendField out "key" p.key true
  let out := appendField out "hash_to_verify" p.hash_to_verify false
  let out := appendField out "account" p.account false
  let out := appendField out "kind" (kindName p.kind) false
  let out := appendRawField out "memory_cost" (toDecimal p.memory_cost.toNat) false
  let out := appendField out "worker" p.worker false
  let out := appendRawField out "attempts" (toDecimal p.attempts.toNat) false
  let out := appendRawField out "hashes_per_second" (rateText libc p.hashes_per_second) false
  let out := appendField out "found_at_utc" p.found_at_utc false
  out ++ [ch '}'] ++ [nl]

/-! ## Parsing -/

/-- The blanks of `skipWs`. -/
def isWs (c : UInt8) : Bool := c = 32 || c = 9 || c = 13 || c = 10

/-- `skipWs`. -/
def skipWs (s : Bytes) : Bytes := s.dropWhile isWs

/-- `appendUtf8`. -/
def utf8 (cp : Nat) : Bytes :=
  if cp < 0x80 then [UInt8.ofNat cp]
  else if cp < 0x800 then [UInt8.ofNat (0xC0 + cp / 64), UInt8.ofNat (0x80 + cp % 64)]
  else [UInt8.ofNat (0xE0 + cp / 4096), UInt8.ofNat (0x80 + cp / 64 % 64),
    UInt8.ofNat (0x80 + cp % 64)]

/-- The one-character escapes. -/
def simpleEscape (e : UInt8) : Option UInt8 :=
  if e = ch '"' then some (ch '"')
  else if e = ch '\\' then some (ch '\\')
  else if e = ch '/' then some (ch '/')
  else if e = ch 'b' then some 8
  else if e = ch 'f' then some 12
  else if e = ch 'n' then some 10
  else if e = ch 'r' then some 13
  else if e = ch 't' then some 9
  else none

/-- The value of four hexadecimal digits. -/
def hex4 (a b c d : UInt8) : Option Nat := do
  let a ← hexVal a
  let b ← hexVal b
  let c ← hexVal c
  let d ← hexVal d
  some (((a * 16 + b) * 16 + c) * 16 + d)

/-- The loop of `parseJsonString`, after the opening quote. -/
def stringLoop : Bytes → Option (Bytes × Bytes)
  | [] => none
  | c :: s =>
    if c = ch '"' then some ([], s)
    else if c = ch '\\' then
      match s with
      | [] => none
      | e :: s =>
        if e = ch 'u' then
          match s with
          | a :: b :: c :: d :: s =>
            match hex4 a b c d with
            | some cp => (stringLoop s).map fun r => (utf8 cp ++ r.1, r.2)
            | none => none
          | _ => none
        else
          match simpleEscape e with
          | some x => (stringLoop s).map fun r => (x :: r.1, r.2)
          | none => none
    else (stringLoop s).map fun r => (c :: r.1, r.2)

/-- `parseJsonString`. -/
def parseJsonString : Bytes → Option (Bytes × Bytes)
  | [] => none
  | c :: s => if c = ch '"' then stringLoop s else none

/-- What ends a bare token. -/
def endsToken (c : UInt8) : Bool := c = ch ',' || c = ch '}' || isWs c

/-- A value: a string, or a bare token kept as it is. -/
def parseValue : Bytes → Option (Bytes × Bytes)
  | [] => none
  | c :: s =>
    if c = ch '"' then parseJsonString (c :: s)
    else if c = ch '{' ∨ c = ch '[' then none
    else if endsToken c then none
    else some ((c :: s).takeWhile (fun c => !endsToken c), (c :: s).dropWhile fun c => !endsToken c)

/-- `std::map<std::string, std::string>`. -/
abbrev Fields := List (Bytes × Bytes)

/-- The member loop of `parseFlatObject`; the rest starts where it broke off. -/
def membersLoop : Nat → Fields → Bytes → Option (Fields × Bytes)
  | 0, _, _ => none
  | fuel + 1, fields, s =>
    match parseJsonString (skipWs s) with
    | none => none
    | some (key, s) =>
      match skipWs s with
      | [] => none
      | c :: s =>
        if c = ch ':' then
          match parseValue (skipWs s) with
          | none => none
          | some (value, s) =>
            match skipWs s with
            | [] => some ((key, value) :: fields, [])
            | c :: s =>
              if c = ch ',' then membersLoop fuel ((key, value) :: fields) s
              else some ((key, value) :: fields, c :: s)
        else none

/-- The end of the object, with nothing after it. -/
def closeObject (fields : Fields) : Bytes → Option Fields
  | [] => none
  | c :: s => if c = ch '}' ∧ skipWs s = [] then some fields else none

/-- `parseFlatObject`. -/
def parseFlatObject (line : Bytes) : Option Fields :=
  match skipWs line with
  | [] => none
  | c :: s =>
    if c = ch '{' then
      if (skipWs s).head? = some (ch '}') then closeObject [] (skipWs s)
      else
        match membersLoop (s.length + 1) [] s with
        | none => none
        | some (fields, s) => closeObject fields s
    else none

/-- `parseU64`. -/
def parseU64 (text : Bytes) : Option Nat :=
  if text = [] then none
  else
    let r := strtoull (cStr text)
    if r.2.2 ∨ r.2.1 ≠ (cStr text).length ∨ text.head? = some (ch '-') then none else some r.1

/-- `parseDouble`. -/
def parseDouble (libc : Libc) (text : Bytes) : Option Double :=
  if text = [] then none
  else
    let r := libc.strtod (cStr text)
    if r.2 ≠ (cStr text).length then none else some r.1

/-- The kind of a find. -/
def parseKind (text : Bytes) : Option FindKind :=
  if text = lit "XEN11" then some .XEN11
  else if text = lit "XUNI" then some .XUNI
  else none

/-- `lookup`. -/
def lookup (fields : Fields) (key : String) : Option Bytes := fields.lookup (lit key)

/-- `payloadFromFields`. -/
def payloadFromFields (libc : Libc) (fields : Fields) : Option FoundPayload := do
  let key ← lookup fields "key"
  let hash_to_verify ← lookup fields "hash_to_verify"
  let account ← lookup fields "account"
  let kindText ← lookup fields "kind"
  let memoryCostText ← lookup fields "memory_cost"
  let worker ← lookup fields "worker"
  let attemptsText ← lookup fields "attempts"
  let rateText ← lookup fields "hashes_per_second"
  let found_at_utc ← lookup fields "found_at_utc"
  let kind ← parseKind kindText
  let memoryCost ← parseU64 memoryCostText
  if memoryCost > 0xFFFFFFFF then none
  else
    let attempts ← parseU64 attemptsText
    let rate ← parseDouble libc rateText
    some ⟨key, hash_to_verify, account, kind, UInt32.ofNat memoryCost, worker,
      UInt64.ofNat attempts, rate, found_at_utc⟩

/-! ## The drain -/

/-- The sink's file. -/
inductive SinkFile where
  | missing
  | unreadable
  | bytes (content : Bytes)
  /-- A read fails behind these bytes. -/
  | failing (read : Bytes)
  deriving DecidableEq

/-- `ImportStats`. -/
structure ImportStats where
  imported : Nat := 0
  malformed : Nat := 0
  file_present : Bool := false
  deriving DecidableEq

/-- A line as `importInto` looks at it: without CR and LF at its end. -/
def stripEnd (line : Bytes) : Bytes := (line.reverse.dropWhile fun c => c = 13 || c = 10).reverse

/-- A line of blanks and tabs. -/
def isBlank (line : Bytes) : Bool := line.all fun c => c = 32 || c = 9

/-- The record of a line. -/
def parseLine (libc : Libc) (line : Bytes) : Option FoundPayload :=
  (parseFlatObject line).bind (payloadFromFields libc)

section Import

variable {σ : Type} (libc : Libc) (append : σ → FoundPayload → Option σ)

/-- The loop of `importInto`: the journal, the counts, and whether every append
went through. -/
def importLoop : List Bytes → σ → ImportStats → σ × ImportStats × Bool
  | [], j, stats => (j, stats, true)
  | line :: ls, j, stats =>
    if isBlank (stripEnd line) then importLoop ls j stats
    else
      match parseLine libc (stripEnd line) with
      | none => importLoop ls j { stats with malformed := stats.malformed + 1 }
      | some p =>
        match append j p with
        | some j => importLoop ls j { stats with imported := stats.imported + 1 }
        | none => (j, stats, false)

/-- `importInto`, for a journal whose `append` answers `none` when it throws: the
journal, the counts, and whether the file was archived. -/
def importInto (j : σ) : SinkFile → σ × ImportStats × Bool
  | .missing => (j, {}, false)
  | .unreadable => (j, { file_present := true }, false)
  | .bytes content => importLoop libc append (lines content) j { file_present := true }
  | .failing read =>
    -- `getline` stops short of the end of the file, so that the pass is not clean
    let r := importLoop libc append (linesBefore read) j { file_present := true }
    (r.1, r.2.1, false)

end Import

/-- A journal that accepts every append: what it is handed, in order. -/
def accept (j : List FoundPayload) (p : FoundPayload) :
    Option (List FoundPayload) := some (j ++ [p])

/-- What `importInto` hands such a journal. -/
def handed (libc : Libc) (content : Bytes) : List FoundPayload :=
  (importInto libc accept [] (.bytes content)).1

end TreeMiner.FallbackSink

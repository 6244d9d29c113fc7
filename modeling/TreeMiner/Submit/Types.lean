import TreeMiner.Lib.Bytes

/-!
# Shared types of the journal and the submission core

`src/treeminer/Types.h`: the lifecycle of a find, the immutable payload captured
at discovery, the journaled record and the outcome of classifying one server
response. `ITransport.h`: the outcome of one transport round trip.

A C++ `double` is its 64-bit pattern: the journal and the sink only store and
copy it.
-/

namespace TreeMiner

open Cxx (Bytes)

/-- The bit pattern of an IEEE-754 `double`. -/
structure Double where
  bits : BitVec 64
  deriving DecidableEq

/-- Neither infinite nor NaN: the exponent field is not all ones. -/
def Double.isFinite (d : Double) : Bool := d.bits.extractLsb' 52 11 != 0x7ff#11

inductive FindKind where
  | XEN11
  | XUNI
  deriving DecidableEq, Repr

/-- Full lifecycle of a find. Terminal: `Acked`, `Dead`, `PermanentlyInvalid`. -/
inductive FindStatus where
  | Pending
  | Submitting
  | AcceptedUnconfirmed
  | Acked
  | ParkedDifficulty
  | ParkedXuniWindow
  | Quarantined
  | Dead
  | PermanentlyInvalid
  deriving DecidableEq, Repr

/-- Immutable capture of a find at discovery time. -/
structure FoundPayload where
  key : Bytes
  hash_to_verify : Bytes
  account : Bytes
  kind : FindKind
  memory_cost : UInt32
  worker : Bytes
  attempts : UInt64
  hashes_per_second : Double
  found_at_utc : Bytes
  deriving DecidableEq

/-- The text columns of the payload. -/
def texts (p : FoundPayload) : List Bytes :=
  [p.key, p.hash_to_verify, p.account, p.worker, p.found_at_utc]

/-- A journaled find: payload and durable lifecycle state. -/
structure FindRecord where
  id : Int
  payload : FoundPayload
  status : FindStatus
  status_reason : Bytes
  attempt_count : Nat
  next_attempt_at : Option Bytes
  last_attempt_at : Option Bytes
  last_http_status : Option Int
  last_response : Bytes
  confirmed_at : Option Bytes
  xuni_windows_tried : Nat
  deriving DecidableEq

/-- Outcome of classifying one server response. -/
structure Classification where
  next_status : FindStatus
  server_difficulty_hint : Option UInt32 := none
  needs_lookup_confirmation : Bool := false
  reason : Bytes
  deriving DecidableEq

/-- Outcome of one transport round trip; without `transport_ok` only `error` is
meaningful. -/
structure TransportResult where
  transport_ok : Bool
  http_status : Int
  body : Bytes
  retry_after : Option Bytes := none
  date_header : Option Bytes := none
  deriving DecidableEq

end TreeMiner

import TreeMiner.Submit.Types

/-!
# Platform messages

A message of the platform after `nlohmann::json::parse`, the accessors the
handlers use on it, and the field checks of `CommandEnvelope.cpp`. The parser
gives a non-negative integer the unsigned type and a negative one the signed
type; `get` converts between integer types as a C++ cast does.

An accessor that does not find its type throws in the source, which is `none` here;
the handlers that catch it give the default they name. Values are compared as the
library compares them, numbers by value and objects member by member.
-/

namespace TreeMiner

open Cxx

/-- `nlohmann::json`. An object is a `std::map`: sorted by name, one entry for
each. -/
inductive JsonValue where
  | null
  | boolean (b : Bool)
  | number_integer (i : Int64)
  | number_unsigned (u : UInt64)
  | number_float (d : Double)
  | string (s : Bytes)
  | array (vs : List JsonValue)
  | object (ms : List (Bytes × JsonValue))

namespace JsonValue

/-- `is_object`. -/
def isObject : JsonValue → Bool
  | object _ => true
  | _ => false

/-- `find`: nothing is found in what is not an object. -/
def find (j : JsonValue) (key : Bytes) : Option JsonValue :=
  match j with
  | object ms => ms.lookup key
  | _ => none

/-- `erase(key)`. -/
def erase (j : JsonValue) (key : Bytes) : JsonValue :=
  match j with
  | object ms => object (ms.filter fun m => m.1 ≠ key)
  | _ => j

/-- `map[key] = v`: in its place by name. -/
def setMember (key : Bytes) (v : JsonValue) :
    List (Bytes × JsonValue) → List (Bytes × JsonValue)
  | [] => [(key, v)]
  | m :: ms =>
    if m.1 = key then (key, v) :: ms
    else if m.1 < key then m :: setMember key v ms
    else (key, v) :: m :: ms

/-- `get<std::int64_t>` of an integer of either type. -/
def toInt64 : JsonValue → Option Int64
  | number_integer i => some i
  | number_unsigned u => some u.toInt64
  | _ => none

/-- `get<std::string>` of a string. -/
def toBytes : JsonValue → Option Bytes
  | string s => some s
  | _ => none

/-- `value(key, default)` for a string default; `none` when it throws because the
member has another type. -/
def value (j : JsonValue) (key default : Bytes) : Option Bytes :=
  match j.find key with
  | none => some default
  | some v => v.toBytes

end JsonValue

/-! ## Field checks -/

/-- `isHexDigit`. -/
def isHexDigit (c : UInt8) : Bool :=
  (48 ≤ c && c ≤ 57) || (97 ≤ c && c ≤ 102) || (65 ≤ c && c ≤ 70)

/-- A text of bounded length over an alphabet. -/
def isTextOf (p : UInt8 → Bool) (s : Bytes) (min_len max_len : Nat) : Bool :=
  !(s.length < min_len || s.length > max_len) && s.all p

/-- `isHexString`. -/
def isHexString : Bytes → Nat → Nat → Bool := isTextOf isHexDigit

/-- `isSafeIdentifier`. -/
def isSafeIdentifier : Bytes → Nat → Nat → Bool :=
  isTextOf fun c => isAlnum c || c == ch '.' || c == ch '_' || c == ch '-'

end TreeMiner

import TreeMiner.Lib.Blake2b

/-!
# The hashes of Argon2 (RFC 9106)

The variable-length hash `H'`, the initial hash `H₀` over all parameters, and the first two
blocks of a lane.

`H'` takes one short hash for up to 64 bytes; beyond that it is a chain of hashes of which
each but the last gives its first half (`longTail`). Every length comes out as it was asked
for, which is what an implementation with a fixed buffer relies on.
-/

namespace Argon2

open Blake2

/-- `LE32`. -/
def le32 (n : Nat) : List UInt8 := leBytes 4 n

/-- `H'` from its second hash on: half of each value but the last. -/
def longTail (n : Nat) (v : List UInt8) : List UInt8 :=
  if 64 < n then (hash 64 v).take 32 ++ longTail (n - 32) (hash 64 v) else hash n v
termination_by n

/-- Of a long tail the next hash gives its first 32 bytes, and the rest comes from that hash. -/
theorem longTail_of_gt {n : Nat} (h : 64 < n) (v : List UInt8) :
    longTail n v = (hash 64 v).take 32 ++ longTail (n - 32) (hash 64 v) := by
  rw [longTail, if_pos h]

/-- A tail of at most 64 bytes is one hash. -/
theorem longTail_of_le {n : Nat} (h : n ≤ 64) (v : List UInt8) : longTail n v = hash n v := by
  rw [longTail, if_neg (Nat.not_lt.mpr h)]

/-- `H'`: `n` bytes from a message. -/
def longHash (n : Nat) (msg : List UInt8) : List UInt8 :=
  if n ≤ 64 then hash n (le32 n ++ msg)
  else
    let v := hash 64 (le32 n ++ msg)
    v.take 32 ++ longTail (n - 32) v

/-- The parameters that `H₀` depends on. -/
structure Params where
  lanes : Nat
  tagLength : Nat
  memory : Nat
  passes : Nat
  version : Nat
  type : Nat
  salt : List UInt8
  secret : List UInt8
  data : List UInt8

/-- A string after its length. -/
def withLength (x : List UInt8) : List UInt8 := le32 x.length ++ x

/-- `H₀`. -/
def initialHash (p : Params) (password : List UInt8) : List UInt8 :=
  hash 64 (le32 p.lanes ++ le32 p.tagLength ++ le32 p.memory ++ le32 p.passes ++ le32 p.version ++
    le32 p.type ++ withLength password ++ withLength p.salt ++ withLength p.secret ++
    withLength p.data)

/-- Block `i` of a lane, for `i` 0 and 1, as bytes. -/
def firstBlock (p : Params) (password : List UInt8) (lane i : Nat) : List UInt8 :=
  longHash 1024 (initialHash p password ++ le32 i ++ le32 lane)

/-- The tail has as many bytes as were asked for. -/
theorem length_longTail (n : Nat) (v : List UInt8) : (longTail n v).length = n := by
  induction n, v using longTail.induct with
  | case1 n v h ih =>
    rw [longTail_of_gt h, List.length_append, List.length_take, length_hash (by omega), ih]
    omega
  | case2 n v h =>
    rw [longTail_of_le (Nat.not_lt.mp h)]
    exact length_hash (Nat.not_lt.mp h) v

/-- And so has the long hash. -/
theorem length_longHash (n : Nat) (msg : List UInt8) : (longHash n msg).length = n := by
  unfold longHash
  by_cases h : n ≤ 64
  · rw [if_pos h]
    exact length_hash h _
  · rw [if_neg h]
    dsimp only
    rw [List.length_append, List.length_take, length_hash (Nat.le_refl 64), length_longTail]
    omega

theorem length_le32 (n : Nat) : (le32 n).length = 4 := length_leBytes 4 n

end Argon2

import TreeMiner.Lib.Argon2
import TreeMiner.Lib.Argon2Hash

/-!
# The digest of Argon2id, one pass and one lane (RFC 9106)

From a password to its tag: the first two blocks, the memory that is filled from them, and the
hash of the last block.

The blocks are those of the recursive definition of the lane, so that an implementation has to
agree on bytes only here, at the two ends: how blocks are read from the long hash, and how the
last one is written for the final hash. The lengths of all of them are fixed.
-/

namespace Argon2

open Blake2

/-- The words of 1024 bytes. -/
def blockOf (bytes : List UInt8) : Block := fun w =>
  UInt64.ofNat (leNat ((bytes.drop (8 * w)).take 8))

def blockBytes (b : Block) : List UInt8 := (List.ofFn b).flatMap fun w => leBytes 8 w.toNat

/-- The blocks of a segment; fewer than eight blocks of memory are taken as eight. -/
def segmentLength (memory : Nat) : Nat := max memory 8 / 4

/-- The last block of `4 * q`, as bytes, from the bytes of the first two. -/
def lastBlock (q : Nat) (first : List UInt8) : List UInt8 :=
  blockBytes
    (argon2id q (start (blockOf (first.take 1024)) (blockOf (first.drop 1024))) (4 * q - 1))

/-- The first two blocks of the lane. -/
def firstBlocks (p : Params) (password : List UInt8) : List UInt8 :=
  firstBlock p password 0 0 ++ firstBlock p password 0 1

/-- The tag, for one pass over one lane. -/
def digest (p : Params) (password : List UInt8) : List UInt8 :=
  longHash p.tagLength (lastBlock (segmentLength p.memory) (firstBlocks p password))

/-- A block is a KiB. -/
theorem length_blockBytes (b : Block) : (blockBytes b).length = 1024 := by
  unfold blockBytes
  rw [List.length_flatMap, List.map_congr_left fun w _ => length_leBytes 8 w.toNat, List.map_const',
    List.sum_replicate_nat, List.length_ofFn]

/-- So is the last block of a lane. -/
theorem length_lastBlock (q : Nat) (first : List UInt8) : (lastBlock q first).length = 1024 :=
  length_blockBytes _

/-- The two first blocks of a lane are two KiB. -/
theorem length_firstBlocks (p : Params) (password : List UInt8) :
    (firstBlocks p password).length = 2048 := by
  unfold firstBlocks firstBlock
  rw [List.length_append, length_longHash, length_longHash]

end Argon2

import Mathlib.Algebra.Ring.Nat
import Mathlib.Logic.Function.Basic
import Mathlib.Data.List.Basic

/-!
# BLAKE2b without a key (RFC 7693), and hashing in pieces

A message is cut into blocks of 128 bytes; the last block, which may be full, is kept back
until the message ends. `absorb` says so over any chaining state. Its one law carries every
proof about an implementation that is fed piece by piece: what is absorbed of `a ++ b` is
what is absorbed of the rest of `a` followed by `b` (`absorb_append`).

The compression function is written as in the RFC, over words, and an implementation may
differ from it only in where it keeps its state. `hash` is the whole function for any
output length up to 64 bytes.
-/

namespace Blake2

/-! ## Absorbing a message -/

section Absorb

variable {σ α : Type} (step : σ → List α → σ)

/-- Take blocks off the front while more than one block is left. -/
def absorb (s : σ) (msg : List α) : σ × List α :=
  if 128 < msg.length then absorb (step s (msg.take 128)) (msg.drop 128) else (s, msg)
termination_by msg.length
decreasing_by
  rw [List.length_drop]
  omega

/-- More than a block is left: its first 128 bytes are compressed. -/
theorem absorb_of_gt {s : σ} {msg : List α} (h : 128 < msg.length) :
    absorb step s msg = absorb step (step s (msg.take 128)) (msg.drop 128) := by
  rw [absorb, if_pos h]

/-- At most a block is left, and it waits for the end. -/
theorem absorb_of_le {s : σ} {msg : List α} (h : msg.length ≤ 128) :
    absorb step s msg = (s, msg) := by
  rw [absorb, if_neg (Nat.not_lt.mpr h)]

/-- At most one block is kept back. -/
theorem absorb_length (s : σ) (msg : List α) :
    (absorb step s msg).2.length ≤ min 128 msg.length := by
  induction s, msg using absorb.induct step with
  | case1 s msg h ih =>
    rw [absorb_of_gt step h]
    rw [List.length_drop] at ih
    omega
  | case2 s msg h =>
    rw [absorb_of_le step (Nat.not_lt.mp h)]
    exact Nat.le_min.mpr ⟨Nat.not_lt.mp h, Nat.le_refl _⟩

/-- A message in two pieces. -/
theorem absorb_append (s : σ) (a b : List α) :
    absorb step s (a ++ b) =
      absorb step (absorb step s a).1 ((absorb step s a).2 ++ b) := by
  induction s, a using absorb.induct step with
  | case1 s a h ih =>
    have hab : 128 < (a ++ b).length := by
      rw [List.length_append]
      omega
    rw [absorb_of_gt step hab, absorb_of_gt step h, List.take_append_of_le_length (by omega),
      List.drop_append_of_le_length (by omega)]
    exact ih
  | case2 s a h => rw [absorb_of_le step (Nat.not_lt.mp h)]

end Absorb

/-! ## The compression function -/

-- by name, so that the literals of these types carry no proof of their own
@[instance] theorem neZero8 : NeZero 8 := ⟨by decide⟩

@[instance] theorem neZero16 : NeZero 16 := ⟨by decide⟩

/-- Word `i` of a vector. -/
abbrev word {n : Nat} (v : Vector UInt64 n) (i : Fin n) : UInt64 := v[i]

/-- A vector with word `i` replaced. -/
abbrev setWord {n : Nat} (v : Vector UInt64 n) (i : Fin n) (x : UInt64) :
    Vector UInt64 n := v.set i x

/-- A vector of eight words. -/
abbrev words8 (a b c d e f g h : UInt64) : Vector UInt64 8 := #v[a, b, c, d, e, f, g, h]

/-- The initialisation vector. -/
def iv : Vector UInt64 8 :=
  words8 0x6a09e667f3bcc908 0xbb67ae8584caa73b 0x3c6ef372fe94f82b 0xa54ff53a5f1d36f1
    0x510e527fade682d1 0x9b05688c2b3e6c1f 0x1f83d9abfb41bd6b 0x5be0cd19137e2179

/-- The message schedule of ten rounds. -/
def sigma : List (List (Fin 16)) :=
  [[0, 1, 2, 3, 4, 5, 6, 7, 8, 9, 10, 11, 12, 13, 14, 15],
    [14, 10, 4, 8, 9, 15, 13, 6, 1, 12, 0, 2, 11, 7, 5, 3],
    [11, 8, 12, 0, 5, 2, 15, 13, 10, 14, 3, 6, 7, 1, 9, 4],
    [7, 9, 3, 1, 13, 12, 11, 14, 2, 6, 5, 10, 4, 0, 15, 8],
    [9, 0, 5, 7, 2, 4, 10, 15, 14, 1, 11, 12, 6, 8, 3, 13],
    [2, 12, 6, 10, 0, 11, 8, 3, 4, 13, 7, 5, 15, 14, 1, 9],
    [12, 5, 1, 15, 14, 13, 4, 10, 0, 7, 6, 3, 9, 2, 8, 11],
    [13, 11, 7, 14, 12, 1, 3, 9, 5, 0, 15, 4, 8, 6, 2, 10],
    [6, 15, 14, 9, 11, 3, 0, 8, 12, 2, 13, 7, 1, 4, 10, 5],
    [10, 2, 8, 4, 7, 6, 1, 5, 15, 11, 9, 14, 3, 12, 13, 0]]

/-- Entry `j` of row `r` of a schedule. -/
def entry (table : List (List (Fin 16))) (r j : Nat) : Fin 16 := (table.getD r []).getD j 0

def rotr (x : UInt64) (n : UInt64) : UInt64 := (x >>> n) ||| (x <<< (64 - n))

/-- `G`: mix two message words into four words of the working vector. -/
def G (v : Vector UInt64 16) (a b c d : Fin 16) (x y : UInt64) : Vector UInt64 16 :=
  let va := word v a + word v b + x
  let vd := rotr (word v d ^^^ va) 32
  let vc := word v c + vd
  let vb := rotr (word v b ^^^ vc) 24
  let va := va + vb + y
  let vd := rotr (vd ^^^ va) 16
  let vc := vc + vd
  let vb := rotr (vb ^^^ vc) 63
  setWord (setWord (setWord (setWord v a va) b vb) c vc) d vd

/-- A round, with its row of the schedule. -/
def round (m : Vector UInt64 16) (s : Nat → Fin 16) (v : Vector UInt64 16) : Vector UInt64 16 :=
  let v := G v 0 4 8 12 (word m (s 0)) (word m (s 1))
  let v := G v 1 5 9 13 (word m (s 2)) (word m (s 3))
  let v := G v 2 6 10 14 (word m (s 4)) (word m (s 5))
  let v := G v 3 7 11 15 (word m (s 6)) (word m (s 7))
  let v := G v 0 5 10 15 (word m (s 8)) (word m (s 9))
  let v := G v 1 6 11 12 (word m (s 10)) (word m (s 11))
  let v := G v 2 7 8 13 (word m (s 12)) (word m (s 13))
  G v 3 4 9 14 (word m (s 14)) (word m (s 15))

/-- The working vector before the first round: the byte counter in two words, and the
finalization flag as a mask. -/
def working (h : Vector UInt64 8) (t₀ t₁ f₀ : UInt64) : Vector UInt64 16 :=
  h ++ words8 (word iv 0) (word iv 1) (word iv 2) (word iv 3) (word iv 4 ^^^ t₀)
    (word iv 5 ^^^ t₁) (word iv 6 ^^^ f₀) (word iv 7)

/-- `F`. -/
def F (h : Vector UInt64 8) (m : Vector UInt64 16) (t₀ t₁ f₀ : UInt64) : Vector UInt64 8 :=
  let v :=
    (List.range 12).foldl (fun v r => round m (entry sigma (r % 10)) v) (working h t₀ t₁ f₀)
  Vector.ofFn fun i => h[i] ^^^ (v[i.val] ^^^ v[i.val + 8])

/-! ## The hash function -/

/-- Eight bytes as a little-endian number. -/
def leNat : List UInt8 → Nat
  | [] => 0
  | b :: bs => b.toNat + 256 * leNat bs

/-- The words of a block. -/
def words (block : List UInt8) : Vector UInt64 16 :=
  Vector.ofFn fun i => UInt64.ofNat (leNat ((block.drop (8 * i)).take 8))

/-- The bytes of a word, least significant first. -/
def leBytes (n : Nat) (v : Nat) :
    List UInt8 := (List.range n).map fun i => UInt8.ofNat (v / 256 ^ i)

/-- The chaining value and the number of bytes compressed. -/
structure Chain where
  h : Vector UInt64 8
  t : Nat

/-- Compress a block at byte count `t`. -/
def compress (h : Vector UInt64 8) (block : List UInt8) (t : Nat) (f₀ : UInt64) :
    Vector UInt64 8 :=
  F h (words block) (UInt64.ofNat t) (UInt64.ofNat (t / 2 ^ 64)) f₀

/-- A block that is not the last. -/
def step (c : Chain) (block : List UInt8) :
    Chain := ⟨compress c.h block (c.t + 128) 0, c.t + 128⟩

/-- The parameter block: output length, no key, fanout and depth 1. -/
def init (outLen : Nat) :
    Chain := ⟨setWord iv 0 (word iv 0 ^^^ 0x01010000 ^^^ UInt64.ofNat outLen), 0⟩

/-- The bytes of a chaining value. -/
def output (h : Vector UInt64 8) : List UInt8 := h.toList.flatMap fun v => leBytes 8 v.toNat

/-- The last block, filled up with zeros, and the output. -/
def finish (c : Chain) (rest : List UInt8) (outLen : Nat) : List UInt8 :=
  let block := rest ++ List.replicate (128 - rest.length) 0
  (output (compress c.h block (c.t + rest.length) 0xFFFFFFFFFFFFFFFF)).take outLen

/-- BLAKE2b of a message. -/
def hash (outLen : Nat) (msg : List UInt8) : List UInt8 :=
  let a := absorb step (init outLen) msg
  finish a.1 a.2 outLen

/-- The number of some bytes is below the power of 256 that they can hold. -/
theorem leNat_lt (bs : List UInt8) : leNat bs < 256 ^ bs.length := by
  induction bs with
  | nil => exact Nat.one_pos
  | cons b bs ih =>
    have hb : b.toNat < 256 := b.toNat_lt
    rw [leNat, List.length_cons, Nat.pow_succ]
    omega

theorem length_leBytes (n v : Nat) : (leBytes n v).length = n := by
  rw [leBytes, List.length_map, List.length_range]

theorem length_output (h : Vector UInt64 8) : (output h).length = 64 := by
  simp [output, List.length_flatMap, length_leBytes]

/-- The hash has the length that was asked for. -/
theorem length_hash {outLen : Nat} (h : outLen ≤ 64) (msg : List UInt8) :
    (hash outLen msg).length = outLen := by
  unfold hash finish
  rw [List.length_take, length_output]
  omega

end Blake2

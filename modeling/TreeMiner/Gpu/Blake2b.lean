import Mathlib.Tactic.FinCases
import Mathlib.Tactic.IntervalCases
import TreeMiner.Lib.Blake2b

/-!
# The two BLAKE2b implementations (`blake2b.cpp`, `kernelrunner.cu`)

The class `Blake2b` of the host and `Blake2bDeviceState` with its functions are the same
algorithm: a buffer of 128 bytes that is compressed when more input is known to follow. They
differ in the width of their lengths (`std::size_t`, `uint32_t`), in how words are loaded and
stored, in what the buffer holds before the first byte, and in how the output is written.
The common part is written once, over the width `w` (`Core`).

Both compute BLAKE2b of the bytes they are fed, however these are cut into pieces
(`Hasher.Right`).
-/

namespace TreeMiner.Gpu

open Blake2

/-! ## Memory -/

/-- Memory from a pointer on. -/
abbrev Ptr := Nat → UInt8

/-- `p + n`. -/
def Ptr.advance (p : Ptr) (n : Nat) : Ptr := fun i => p (n + i)

/-- The `n` bytes from a pointer on. -/
def bytesAt (p : Ptr) (n : Nat) : List UInt8 := (List.range n).map p

/-- The address of a local array or of a string. -/
def array (l : List UInt8) : Ptr := fun i => l.getD i 0

/-- `memcpy(buf + pos, src, n)`, or the loop for it. -/
def copyAt (buf : Ptr) (pos : Nat) (src : Ptr) (n : Nat) : Ptr := fun i =>
  if pos ≤ i ∧ i < pos + n then src (i - pos) else buf i

/-! ## The common algorithm -/

/-- `Blake2b` (`w` is 64) and `Blake2bDeviceState` (`w` is 32). -/
structure Blake2bState (w : Nat) where
  h : Vector UInt64 8
  t₀ : UInt64
  t₁ : UInt64
  buf : Ptr
  bufLen : BitVec w

def incrementCounter {w : Nat} (s : Blake2bState w) (inc : UInt64) : Blake2bState w :=
  let t₀ := s.t₀ + inc
  { s with t₀ := t₀, t₁ := s.t₁ + (if t₀ < inc then 1 else 0) }

/-- What an implementation brings: its vector and its compression function. -/
structure Core (w : Nat) where
  iv : Vector UInt64 8
  compress : Blake2bState w → Ptr → UInt64 → Blake2bState w

/-- Taking a block of 128 bytes off a longer input does not wrap, in either width. -/
theorem sub_block {w : Nat} {n : BitVec w} (h : 128 < n.toNat) :
    (n - 128#w).toNat = n.toNat - 128 := by
  have hw : n.toNat < 2 ^ w := n.isLt
  have hblock : (128#w).toNat = 128 := by
    rw [BitVec.toNat_ofNat]
    exact Nat.mod_eq_of_lt (by omega)
  rw [BitVec.toNat_sub_of_le (BitVec.le_def.mpr (by omega)), hblock]

namespace Core

variable {w : Nat} (C : Core w)

def init (s : Blake2bState w) (outlen : BitVec w) : Blake2bState w :=
  { s with
    t₀ := 0
    t₁ := 0
    bufLen := 0
    h := setWord C.iv 0
      (word C.iv 0 ^^^
        (UInt64.ofNat outlen.toNat ||| ((1 : UInt64) <<< 16) ||| ((1 : UInt64) <<< 24))) }

/-- `while (inLen > BLOCK_BYTES)`. -/
def updateLoop (s : Blake2bState w) (bin : Ptr) (inLen : BitVec w) :
    Blake2bState w × Ptr × BitVec w :=
  if 128 < inLen.toNat then
    updateLoop (C.compress (incrementCounter s 128) bin 0) (bin.advance 128) (inLen - 128#w)
  else (s, bin, inLen)
termination_by inLen.toNat
decreasing_by
  rw [sub_block ‹_›]
  omega

/-- The end of `update`: what is left goes into the buffer. -/
def keep (s : Blake2bState w) (bin : Ptr) (inLen : BitVec w) : Blake2bState w :=
  { s with buf := copyAt s.buf s.bufLen.toNat bin inLen.toNat, bufLen := s.bufLen + inLen }

/-- The first part of `update`: the buffer is filled up and compressed. -/
def flush (s : Blake2bState w) (bin : Ptr) (left : BitVec w) : Blake2bState w :=
  let s := { s with buf := copyAt s.buf s.bufLen.toNat bin left.toNat }
  let s := C.compress (incrementCounter s 128) s.buf 0
  { s with bufLen := 0 }

def update (s : Blake2bState w) (bin : Ptr) (inLen : BitVec w) : Blake2bState w :=
  if 128 < (s.bufLen + inLen).toNat then
    let left := 128#w - s.bufLen
    let (s, bin, inLen) := C.updateLoop (C.flush s bin left) (bin.advance left.toNat) (inLen - left)
    keep s bin inLen
  else keep s bin inLen

/-- `final`, up to the output. -/
def finalState (s : Blake2bState w) : Blake2bState w :=
  let s := incrementCounter s (UInt64.ofNat s.bufLen.toNat)
  let s := { s with buf := copyAt s.buf s.bufLen.toNat (fun _ => 0) (128 - s.bufLen.toNat) }
  C.compress s s.buf 0xFFFFFFFFFFFFFFFF

end Core

theorem low_lt (i : Fin 8) : i.val < 16 := by omega

theorem high_lt (i : Fin 8) : i.val + 8 < 16 := by omega

/-- `G` and `device_blake_g`, on four elements of `v`. -/
def blakeG (sigma : List (List (Fin 16))) (m : Vector UInt64 16) (r i : Nat) (a b c d : Fin 16)
    (v : Vector UInt64 16) : Vector UInt64 16 :=
  let va := word v a + word v b + word m (entry sigma r (2 * i + 0))
  let vd := rotr (word v d ^^^ va) 32
  let vc := word v c + vd
  let vb := rotr (word v b ^^^ vc) 24
  let va := va + vb + word m (entry sigma r (2 * i + 1))
  let vd := rotr (vd ^^^ va) 16
  let vc := vc + vd
  let vb := rotr (vb ^^^ vc) 63
  setWord (setWord (setWord (setWord v a va) b vb) c vc) d vd

/-- `ROUND` and `device_blake_round`. -/
def blakeRound (sigma : List (List (Fin 16))) (m v : Vector UInt64 16) (r : Nat) :
    Vector UInt64 16 :=
  let v := blakeG sigma m r 0 0 4 8 12 v
  let v := blakeG sigma m r 1 1 5 9 13 v
  let v := blakeG sigma m r 2 2 6 10 14 v
  let v := blakeG sigma m r 3 3 7 11 15 v
  let v := blakeG sigma m r 4 0 5 10 15 v
  let v := blakeG sigma m r 5 1 6 11 12 v
  let v := blakeG sigma m r 6 2 7 8 13 v
  blakeG sigma m r 7 3 4 9 14 v

/-! ## On the device -/

def blake2bIvDevice : Vector UInt64 8 :=
  words8 0x6a09e667f3bcc908 0xbb67ae8584caa73b 0x3c6ef372fe94f82b 0xa54ff53a5f1d36f1
    0x510e527fade682d1 0x9b05688c2b3e6c1f 0x1f83d9abfb41bd6b 0x5be0cd19137e2179

def blake2bSigmaDevice : List (List (Fin 16)) :=
  [[0, 1, 2, 3, 4, 5, 6, 7, 8, 9, 10, 11, 12, 13, 14, 15],
    [14, 10, 4, 8, 9, 15, 13, 6, 1, 12, 0, 2, 11, 7, 5, 3],
    [11, 8, 12, 0, 5, 2, 15, 13, 10, 14, 3, 6, 7, 1, 9, 4],
    [7, 9, 3, 1, 13, 12, 11, 14, 2, 6, 5, 10, 4, 0, 15, 8],
    [9, 0, 5, 7, 2, 4, 10, 15, 14, 1, 11, 12, 6, 8, 3, 13],
    [2, 12, 6, 10, 0, 11, 8, 3, 4, 13, 7, 5, 15, 14, 1, 9],
    [12, 5, 1, 15, 14, 13, 4, 10, 0, 7, 6, 3, 9, 2, 8, 11],
    [13, 11, 7, 14, 12, 1, 3, 9, 5, 0, 15, 4, 8, 6, 2, 10],
    [6, 15, 14, 9, 11, 3, 0, 8, 12, 2, 13, 7, 1, 4, 10, 5],
    [10, 2, 8, 4, 7, 6, 1, 5, 15, 11, 9, 14, 3, 12, 13, 0],
    [0, 1, 2, 3, 4, 5, 6, 7, 8, 9, 10, 11, 12, 13, 14, 15],
    [14, 10, 4, 8, 9, 15, 13, 6, 1, 12, 0, 2, 11, 7, 5, 3]]

def deviceStore32 (v : UInt32) : List UInt8 :=
  [v.toUInt8, (v >>> 8).toUInt8, (v >>> 16).toUInt8, (v >>> 24).toUInt8]

def deviceStore64 (v : UInt64) : List UInt8 :=
  [v.toUInt8, (v >>> 8).toUInt8, (v >>> 16).toUInt8, (v >>> 24).toUInt8,
    (v >>> 32).toUInt8, (v >>> 40).toUInt8, (v >>> 48).toUInt8, (v >>> 56).toUInt8]

def deviceLoad64 (p : Ptr) : UInt64 :=
  (p 0).toUInt64 ||| ((p 1).toUInt64 <<< 8) ||| ((p 2).toUInt64 <<< 16) |||
    ((p 3).toUInt64 <<< 24) ||| ((p 4).toUInt64 <<< 32) ||| ((p 5).toUInt64 <<< 40) |||
    ((p 6).toUInt64 <<< 48) ||| ((p 7).toUInt64 <<< 56)

def deviceBlake2bCompress (s : Blake2bState 32) (block : Ptr) (f0 : UInt64) : Blake2bState 32 :=
  let m : Vector UInt64 16 := Vector.ofFn fun i => deviceLoad64 (block.advance (i * 8))
  let v : Vector UInt64 16 := s.h ++ blake2bIvDevice
  let v := setWord v 12 (word v 12 ^^^ s.t₀)
  let v := setWord v 13 (word v 13 ^^^ s.t₁)
  let v := setWord v 14 (word v 14 ^^^ f0)
  let v := (List.range 12).foldl (blakeRound blake2bSigmaDevice m) v
  { s with h := Vector.ofFn fun i => word s.h i ^^^
    (word v ⟨i, low_lt i⟩ ^^^ word v ⟨i + 8, high_lt i⟩) }

def deviceCore : Core 32 := ⟨blake2bIvDevice, deviceBlake2bCompress⟩

def deviceBlake2bInit : Blake2bState 32 → BitVec 32 → Blake2bState 32 := deviceCore.init

def deviceBlake2bUpdate :
    Blake2bState 32 → Ptr → BitVec 32 → Blake2bState 32 := deviceCore.update

/-- `device_blake2b_final`: the whole output in a buffer, of which `out_len` bytes are
copied. -/
def deviceBlake2bFinal (s : Blake2bState 32) (out_len : BitVec 32) :
    Blake2bState 32 × List UInt8 :=
  let s := deviceCore.finalState s
  let buffer := s.h.toList.flatMap deviceStore64
  (s, bytesAt (array buffer) out_len.toNat)

/-! ## On the host -/

namespace Blake2b

def blake2bIV : Vector UInt64 8 :=
  words8 0x6a09e667f3bcc908 0xbb67ae8584caa73b 0x3c6ef372fe94f82b 0xa54ff53a5f1d36f1
    0x510e527fade682d1 0x9b05688c2b3e6c1f 0x1f83d9abfb41bd6b 0x5be0cd19137e2179

def blake2bSigma : List (List (Fin 16)) :=
  [[0, 1, 2, 3, 4, 5, 6, 7, 8, 9, 10, 11, 12, 13, 14, 15],
    [14, 10, 4, 8, 9, 15, 13, 6, 1, 12, 0, 2, 11, 7, 5, 3],
    [11, 8, 12, 0, 5, 2, 15, 13, 10, 14, 3, 6, 7, 1, 9, 4],
    [7, 9, 3, 1, 13, 12, 11, 14, 2, 6, 5, 10, 4, 0, 15, 8],
    [9, 0, 5, 7, 2, 4, 10, 15, 14, 1, 11, 12, 6, 8, 3, 13],
    [2, 12, 6, 10, 0, 11, 8, 3, 4, 13, 7, 5, 15, 14, 1, 9],
    [12, 5, 1, 15, 14, 13, 4, 10, 0, 7, 6, 3, 9, 2, 8, 11],
    [13, 11, 7, 14, 12, 1, 3, 9, 5, 0, 15, 4, 8, 6, 2, 10],
    [6, 15, 14, 9, 11, 3, 0, 8, 12, 2, 13, 7, 1, 4, 10, 5],
    [10, 2, 8, 4, 7, 6, 1, 5, 15, 11, 9, 14, 3, 12, 13, 0],
    [0, 1, 2, 3, 4, 5, 6, 7, 8, 9, 10, 11, 12, 13, 14, 15],
    [14, 10, 4, 8, 9, 15, 13, 6, 1, 12, 0, 2, 11, 7, 5, 3]]

/-- `load64`: `memcpy` on a little-endian machine. -/
def load64 (src : Ptr) : UInt64 := UInt64.ofNat (leNat (bytesAt src 8))

/-- `store64`: `memcpy` on a little-endian machine. -/
def store64 (v : UInt64) : List UInt8 := leBytes 8 v.toNat

def compress (s : Blake2bState 64) (block : Ptr) (f0 : UInt64) : Blake2bState 64 :=
  let m : Vector UInt64 16 := Vector.ofFn fun i => load64 (block.advance (i * 8))
  let v : Vector UInt64 16 :=
    s.h ++ words8 (word blake2bIV 0) (word blake2bIV 1) (word blake2bIV 2) (word blake2bIV 3)
      (word blake2bIV 4 ^^^ s.t₀) (word blake2bIV 5 ^^^ s.t₁) (word blake2bIV 6 ^^^ f0)
      (word blake2bIV 7)
  let v := blakeRound blake2bSigma m v 0
  let v := blakeRound blake2bSigma m v 1
  let v := blakeRound blake2bSigma m v 2
  let v := blakeRound blake2bSigma m v 3
  let v := blakeRound blake2bSigma m v 4
  let v := blakeRound blake2bSigma m v 5
  let v := blakeRound blake2bSigma m v 6
  let v := blakeRound blake2bSigma m v 7
  let v := blakeRound blake2bSigma m v 8
  let v := blakeRound blake2bSigma m v 9
  let v := blakeRound blake2bSigma m v 10
  let v := blakeRound blake2bSigma m v 11
  { s with h := Vector.ofFn fun i => word s.h i ^^^
    (word v ⟨i, low_lt i⟩ ^^^ word v ⟨i + 8, high_lt i⟩) }

def core : Core 64 := ⟨blake2bIV, compress⟩

def init : Blake2bState 64 → BitVec 64 → Blake2bState 64 := core.init

def update : Blake2bState 64 → Ptr → BitVec 64 → Blake2bState 64 := core.update

/-- `final`: the words go straight to `out` where it takes them all. -/
def final (s : Blake2bState 64) (outLen : BitVec 64) : Blake2bState 64 × List UInt8 :=
  let s := core.finalState s
  let buffer := s.h.toList.flatMap store64
  if outLen = 64 then (s, buffer) else (s, bytesAt (array buffer) outLen.toNat)

/-- A `Blake2b` object: everything is zero. -/
def new : Blake2bState 64 := ⟨Vector.replicate 8 0, 0, 0, fun _ => 0, 0⟩

end Blake2b

/-! ## Bytes in memory -/

section Bytes

variable {p src buf : Ptr} {n pos : Nat}

/-- As many bytes are read as were asked for. -/
@[simp] theorem length_bytesAt : (bytesAt p n).length = n := by
  rw [bytesAt, List.length_map, List.length_range]

theorem getElem?_bytesAt (i : Nat) : (bytesAt p n)[i]? = if i < n then some (p i) else none := by
  unfold bytesAt
  by_cases hi : i < n
  · rw [List.getElem?_map, List.getElem?_range hi, if_pos hi]
    rfl
  · rw [List.getElem?_map, List.getElem?_eq_none (by simpa using hi), if_neg hi]
    rfl

/-- A range of memory is read in two pieces. -/
theorem bytesAt_add (p : Ptr) (a b : Nat) :
    bytesAt p (a + b) = bytesAt p a ++ bytesAt (p.advance a) b := by
  unfold bytesAt
  rw [List.range_add, List.map_append, List.map_map]
  rfl

theorem take_bytesAt {m : Nat} (h : m ≤ n) : (bytesAt p n).take m = bytesAt p m := by
  unfold bytesAt
  rw [← List.map_take, List.take_range, Nat.min_eq_left h]

theorem drop_bytesAt {m : Nat} (h : m ≤ n) :
    (bytesAt p n).drop m = bytesAt (p.advance m) (n - m) := by
  have hsplit := bytesAt_add p m (n - m)
  rw [Nat.add_sub_cancel' h] at hsplit
  rw [hsplit, List.drop_append_of_le_length (by simp), List.drop_of_length_le (by simp),
    List.nil_append]

/-- What stands in a buffer after a copy to its end. -/
theorem bytesAt_copyAt :
    bytesAt (copyAt buf pos src n) (pos + n) = bytesAt buf pos ++ bytesAt src n := by
  rw [bytesAt_add]
  congr 1
  · refine List.map_congr_left fun i hi => ?_
    have hlt : i < pos := List.mem_range.mp hi
    unfold copyAt
    rw [if_neg (by omega)]
  · refine List.map_congr_left fun i hi => ?_
    have hlt : i < n := List.mem_range.mp hi
    unfold Ptr.advance copyAt
    rw [if_pos (by omega), Nat.add_sub_cancel_left]

/-- Reading the start of an array gives the start of its list. -/
theorem bytesAt_array {l : List UInt8} (h : n ≤ l.length) : bytesAt (array l) n = l.take n := by
  apply List.ext_getElem?
  intro i
  rw [getElem?_bytesAt, List.getElem?_take]
  by_cases hi : i < n
  · rw [if_pos hi, if_pos hi, List.getElem?_eq_getElem (by omega)]
    unfold array
    rw [List.getD_eq_getElem?_getD, List.getElem?_eq_getElem (by omega)]
    rfl
  · rw [if_neg hi, if_neg hi]

theorem bytesAt_zeros (n : Nat) : bytesAt (fun _ => 0) n = List.replicate n 0 := by
  rw [bytesAt, List.map_const', List.length_range]

end Bytes

/-! ## The compression functions -/

/-- The vector and the compression function are those of BLAKE2b. -/
structure Core.Right {w : Nat} (C : Core w) : Prop where
  iv : C.iv = Blake2.iv
  compress : ∀ s block f0, C.compress s block f0 =
    { s with h := F s.h (words (bytesAt block 128)) s.t₀ s.t₁ f0 }

/-- The macro `G` of the source, with its table of message words, is the mixing function of the
standard. -/
theorem blake_g_eq
    (table : List (List (Fin 16))) (m : Vector UInt64 16) (r i : Nat) (a b c d : Fin 16)
    (v : Vector UInt64 16) :
    blakeG table m r i a b c d v =
      G v a b c d (word m (entry table r (2 * i))) (word m (entry table r (2 * i + 1))) := rfl

/-- A round with a table that repeats the schedule. -/
theorem blake_round_eq {table : List (List (Fin 16))}
    (htable : ∀ r < 12, ∀ j < 16, entry table r j = entry sigma (r % 10) j)
    (m : Vector UInt64 16) {r : Nat} (hr : r < 12) (v : Vector UInt64 16) :
    blakeRound table m v r = round m (entry sigma (r % 10)) v := by
  have hg : ∀ i < 8, ∀ a b c d v, blakeG table m r i a b c d v =
      G v a b c d (word m (entry sigma (r % 10) (2 * i)))
        (word m (entry sigma (r % 10) (2 * i + 1))) := by
    intro i hi a b c d v
    simp only [blake_g_eq, htable r hr (2 * i) (by omega), htable r hr (2 * i + 1) (by omega)]
  unfold blakeRound
  dsimp only
  rw [hg 0 (by decide), hg 1 (by decide), hg 2 (by decide), hg 3 (by decide), hg 4 (by decide),
    hg 5 (by decide), hg 6 (by decide), hg 7 (by decide)]
  rfl

/-- The words of a block are its bytes, eight at a time and little-endian. -/
theorem word_at (block : Ptr) (i : Fin 16) :
    word (words (bytesAt block 128)) i =
      UInt64.ofNat (leNat (bytesAt (block.advance (i * 8)) 8)) := by
  unfold words word
  rw [Fin.getElem_fin, Vector.getElem_ofFn, drop_bytesAt (by omega), take_bytesAt (by omega)]
  rw [Nat.mul_comm 8]

/-- Or of shifted bytes, with nothing lost. -/
theorem or_shift (x : UInt64) (b : UInt8) {k : Nat} (hk : k < 8) (hx : x.toNat < 2 ^ (8 * k)) :
    (x ||| (b.toUInt64 <<< UInt64.ofNat (8 * k))).toNat = x.toNat + 2 ^ (8 * k) * b.toNat ∧
      x.toNat + 2 ^ (8 * k) * b.toNat < 2 ^ (8 * (k + 1)) := by
  have hb : b.toNat < 256 := b.toNat_lt
  have hpow : 2 ^ (8 * (k + 1)) = 2 ^ (8 * k) * 256 := by
    rw [Nat.mul_add, Nat.pow_add]
  have hlt : x.toNat + 2 ^ (8 * k) * b.toNat < 2 ^ (8 * (k + 1)) := by
    have hmul : 2 ^ (8 * k) * (b.toNat + 1) ≤ 2 ^ (8 * k) * 256 := Nat.mul_le_mul_left _ hb
    rw [Nat.mul_add, Nat.mul_one] at hmul
    omega
  have hword : 2 ^ (8 * (k + 1)) ≤ 2 ^ 64 := Nat.pow_le_pow_right (by decide) (by omega)
  have hk64 : (UInt64.ofNat (8 * k)).toNat % 64 = 8 * k := by
    rw [UInt64.toNat_ofNat_of_lt' (show 8 * k < 2 ^ 64 by omega)]
    exact Nat.mod_eq_of_lt (by omega)
  refine ⟨?_, hlt⟩
  rw [UInt64.toNat_or, UInt64.toNat_shiftLeft, UInt8.toNat_toUInt64, hk64, Nat.shiftLeft_eq,
    Nat.mul_comm b.toNat, Nat.mod_eq_of_lt (by omega), Nat.or_comm,
      ← Nat.two_pow_add_eq_or_of_lt hx,
    Nat.add_comm]

/-- The load of the device reads a word little-endian. -/
theorem device_load64_eq (p : Ptr) : deviceLoad64 p = UInt64.ofNat (leNat (bytesAt p 8)) := by
  have h0 : (p 0).toUInt64.toNat < 2 ^ (8 * 1) := by
    rw [UInt8.toNat_toUInt64]
    exact (p 0).toNat_lt
  -- the eight bytes are put in one after the other, each above the bits of those before
  obtain ⟨e1, h1⟩ := or_shift _ (p 1) (show 1 < 8 by decide) h0
  rw [← e1] at h1
  obtain ⟨e2, h2⟩ := or_shift _ (p 2) (show 2 < 8 by decide) h1
  rw [← e2] at h2
  obtain ⟨e3, h3⟩ := or_shift _ (p 3) (show 3 < 8 by decide) h2
  rw [← e3] at h3
  obtain ⟨e4, h4⟩ := or_shift _ (p 4) (show 4 < 8 by decide) h3
  rw [← e4] at h4
  obtain ⟨e5, h5⟩ := or_shift _ (p 5) (show 5 < 8 by decide) h4
  rw [← e5] at h5
  obtain ⟨e6, h6⟩ := or_shift _ (p 6) (show 6 < 8 by decide) h5
  rw [← e6] at h6
  obtain ⟨e7, h7⟩ := or_shift _ (p 7) (show 7 < 8 by decide) h6
  rw [← e7] at h7
  have hbytes : bytesAt p 8 = [p 0, p 1, p 2, p 3, p 4, p 5, p 6, p 7] := rfl
  apply UInt64.toNat_inj.mp
  refine Eq.trans (e7.trans ?_) (UInt64.toNat_ofNat_of_lt' ?_).symm
  · rw [hbytes, e6, e5, e4, e3, e2, e1, UInt8.toNat_toUInt64]
    simp only [leNat]
    omega
  · have hlt := leNat_lt (bytesAt p 8)
    rw [length_bytesAt] at hlt
    exact hlt

theorem vector8_eq (h : Vector UInt64 8) :
    h = words8 (word h 0) (word h 1) (word h 2) (word h 3) (word h 4) (word h 5) (word h 6)
      (word h 7) := by
  apply Vector.ext
  intro i hi
  interval_cases i <;> rfl

/-- The device fills the working vector in steps. -/
theorem working_eq (h : Vector UInt64 8) (t₀ t₁ f₀ : UInt64) :
    let v : Vector UInt64 16 := h ++ blake2bIvDevice
    let v := setWord v 12 (word v 12 ^^^ t₀)
    let v := setWord v 13 (word v 13 ^^^ t₁)
    let v := setWord v 14 (word v 14 ^^^ f₀)
    v = working h t₀ t₁ f₀ := by
  rw [vector8_eq h]
  rfl

/-- Rounds with a table that repeats the schedule. -/
theorem rounds_eq (table : List (List (Fin 16)))
    (htable : ∀ r < 12, ∀ j < 16, entry table r j = entry sigma (r % 10) j)
    (m v : Vector UInt64 16) :
    (List.range 12).foldl (blakeRound table m) v =
      (List.range 12).foldl (fun v r => round m (entry sigma (r % 10)) v) v := by
  refine List.foldl_ext _ _ _ fun v r hr => ?_
  exact blake_round_eq htable m (List.mem_range.mp hr) v

/-- The device's constants, schedule and loads are those of the standard. -/
theorem deviceCore_right : deviceCore.Right where
  iv := rfl
  compress := by
    intro s block f0
    have hm : (Vector.ofFn fun i : Fin 16 => deviceLoad64 (block.advance (i * 8))) =
        words (bytesAt block 128) := by
      apply Vector.ext
      intro i hi
      rw [Vector.getElem_ofFn, device_load64_eq]
      exact (word_at block ⟨i, hi⟩).symm
    have hw := working_eq s.h s.t₀ s.t₁ f0
    show deviceBlake2bCompress s block f0 = _
    unfold deviceBlake2bCompress F
    dsimp only at hw ⊢
    rw [hm, hw, rounds_eq _ (by decide)]
    rfl

/-- The host's constants, schedule and loads are those of the standard. -/
theorem Blake2b.core_right : Blake2b.core.Right where
  iv := rfl
  compress := by
    intro s block f0
    have hm : (Vector.ofFn fun i : Fin 16 => load64 (block.advance (i * 8))) =
        words (bytesAt block 128) := by
      apply Vector.ext
      intro i hi
      rw [Vector.getElem_ofFn]
      exact (word_at block ⟨i, hi⟩).symm
    have hrounds := rounds_eq blake2bSigma (by decide) (words (bytesAt block 128))
      (working s.h s.t₀ s.t₁ f0)
    show Blake2b.compress s block f0 = _
    unfold Blake2b.compress F
    rw [← hrounds, hm]
    rfl

/-! ## What has been fed -/

section Fed

variable {w : Nat} {C : Core w} {s : Blake2bState w} {c : Chain} {rest : List UInt8}

/-- The chaining value and the counter. -/
structure Chained (s : Blake2bState w) (c : Chain) : Prop where
  h : s.h = c.h
  t₀ : s.t₀ = UInt64.ofNat c.t
  t₁ : s.t₁ = UInt64.ofNat (c.t / 2 ^ 64)

/-- What is compressed, and what stands in the buffer. -/
structure Fed (s : Blake2bState w) (c : Chain) (rest : List UInt8) : Prop extends Chained s c where
  rest : bytesAt s.buf s.bufLen.toNat = rest
  le : s.bufLen.toNat ≤ 128

/-- The two words of the counter hold the bytes that went through, and carry from the first to the
second. -/
theorem Chained.increment (hs : Chained s c) {inc : Nat} (hinc : inc < 2 ^ 64) :
    Chained (incrementCounter s (UInt64.ofNat inc)) ⟨c.h, c.t + inc⟩ := by
  have hsum : s.t₀ + UInt64.ofNat inc = UInt64.ofNat (c.t + inc) := by
    rw [hs.t₀, UInt64.ofNat_add]
  have hlow : (UInt64.ofNat (c.t + inc)).toNat = (c.t + inc) % 2 ^ 64 := UInt64.toNat_ofNat'
  have hinc' : (UInt64.ofNat inc).toNat = inc := UInt64.toNat_ofNat_of_lt' hinc
  refine ⟨hs.h, hsum, ?_⟩
  show s.t₁ + (if s.t₀ + UInt64.ofNat inc < UInt64.ofNat inc then 1 else 0) = _
  rw [hsum, hs.t₁]
  by_cases hcarry : UInt64.ofNat (c.t + inc) < UInt64.ofNat inc
  · have hnat := UInt64.lt_iff_toNat_lt.mp hcarry
    rw [hlow, hinc'] at hnat
    rw [if_pos hcarry, show (c.t + inc) / 2 ^ 64 = c.t / 2 ^ 64 + 1 by omega, UInt64.ofNat_add]
    rfl
  · have hnat : ¬ (UInt64.ofNat (c.t + inc)).toNat < (UInt64.ofNat inc).toNat :=
      fun h => hcarry (UInt64.lt_iff_toNat_lt.mpr h)
    rw [hlow, hinc'] at hnat
    rw [if_neg hcarry, show (c.t + inc) / 2 ^ 64 = c.t / 2 ^ 64 by omega, UInt64.add_zero]

/-- Compressing a block that is not the last. -/
theorem Chained.step (hC : C.Right) (hs : Chained s c) (block : Ptr) :
    Chained (C.compress (incrementCounter s 128) block 0) (Blake2.step c (bytesAt block 128)) := by
  have hinc := hs.increment (show 128 < 2 ^ 64 by decide)
  rw [hC.compress]
  refine ⟨?_, hinc.t₀, hinc.t₁⟩
  show F s.h _ _ _ _ = _
  unfold Blake2.step Blake2.compress
  rw [hs.h]
  exact congrArg₂ (fun t₀ t₁ => F c.h _ t₀ t₁ 0) hinc.t₀ hinc.t₁

/-- A state that has just been set up has seen no message. -/
theorem fed_init (hC : C.Right) (s : Blake2bState w) {outlen : BitVec w}
    (hlen : outlen.toNat ≤ 64) :
    Fed (C.init s outlen) (Blake2.init outlen.toNat) [] := by
  have hxor : ∀ n ≤ 64, (UInt64.ofNat n ||| ((1 : UInt64) <<< 16) ||| ((1 : UInt64) <<< 24)) =
      0x01010000 ^^^ UInt64.ofNat n := by decide
  have hzero : (0 : BitVec w).toNat = 0 := BitVec.toNat_zero
  refine ⟨⟨?_, rfl, ?_⟩, ?_, ?_⟩
  · show C.iv.set 0 _ = Blake2.iv.set 0 _
    rw [hxor _ hlen, hC.iv, UInt64.xor_assoc]
  · show (0 : UInt64) = UInt64.ofNat (0 / 2 ^ 64)
    rw [Nat.zero_div]
    rfl
  · show bytesAt _ (0 : BitVec w).toNat = []
    rw [hzero]
    rfl
  · show (0 : BitVec w).toNat ≤ 128
    rw [hzero]
    exact Nat.zero_le _

/-- The loop of `update` over whole blocks of the input. -/
theorem updateLoop_fed (hC : C.Right) (hs : Chained s c) (bin : Ptr) (inLen : BitVec w) :
    let r := C.updateLoop s bin inLen
    let a := absorb Blake2.step c (bytesAt bin inLen.toNat)
    Chained r.1 a.1 ∧ bytesAt r.2.1 r.2.2.toNat = a.2 ∧ r.2.2.toNat ≤ 128 ∧
      r.1.bufLen = s.bufLen := by
  induction s, bin, inLen using Core.updateLoop.induct C generalizing c with
  | case1 s bin inLen h ih =>
    have hsub : (inLen - 128#w).toNat = inLen.toNat - 128 := sub_block h
    have hkeep : (C.compress (incrementCounter s 128) bin 0).bufLen = s.bufLen := by
      rw [hC.compress]
      rfl
    obtain ⟨hc, hbytes, hle, hlen⟩ := ih (hs.step hC bin)
    dsimp only at hc hbytes hle hlen ⊢
    rw [Core.updateLoop, if_pos h, absorb_of_gt _ (by rw [length_bytesAt]; exact h),
      take_bytesAt (Nat.le_of_lt h), drop_bytesAt (Nat.le_of_lt h), ← hsub]
    exact ⟨hc, hbytes, hle, hlen.trans hkeep⟩
  | case2 s bin inLen h =>
    have hle : inLen.toNat ≤ 128 := Nat.not_lt.mp h
    dsimp only
    rw [Core.updateLoop, if_neg h, absorb_of_le _ (by rw [length_bytesAt]; exact hle)]
    exact ⟨hs, rfl, hle, rfl⟩

/-- What `keep` leaves in the buffer. -/
theorem keep_fed (hs : Chained s c) (bin : Ptr) {inLen : BitVec w}
    (hsum : (s.bufLen + inLen).toNat = s.bufLen.toNat + inLen.toNat)
    (hle : s.bufLen.toNat + inLen.toNat ≤ 128) :
    Fed (Core.keep s bin inLen) c (bytesAt s.buf s.bufLen.toNat ++ bytesAt bin inLen.toNat) := by
  refine ⟨⟨hs.h, hs.t₀, hs.t₁⟩, ?_, ?_⟩
  · show bytesAt (copyAt _ _ _ _) (s.bufLen + inLen).toNat = _
    rw [hsum, bytesAt_copyAt]
  · show (s.bufLen + inLen).toNat ≤ 128
    rw [hsum]
    exact hle

/-- A full buffer is the block of what was in it and the first bytes of the input. -/
theorem flush_chained (hC : C.Right) (hs : Fed s c rest) (bin : Ptr) {left : BitVec w}
    (hleft : s.bufLen.toNat + left.toNat = 128) :
    Chained (C.flush s bin left) (Blake2.step c (rest ++ bytesAt bin left.toNat)) := by
  have hbuf : bytesAt (copyAt s.buf s.bufLen.toNat bin left.toNat) 128 =
      rest ++ bytesAt bin left.toNat := by
    rw [← hleft, bytesAt_copyAt, hs.rest]
  have hfull : Chained { s with buf := copyAt s.buf s.bufLen.toNat bin left.toNat } c :=
    ⟨hs.h, hs.t₀, hs.t₁⟩
  have hchain := hfull.step hC (copyAt s.buf s.bufLen.toNat bin left.toNat)
  rw [hbuf] at hchain
  exact ⟨hchain.h, hchain.t₀, hchain.t₁⟩

/-- `update` absorbs its input. -/
theorem update_fed (hC : C.Right) (hs : Fed s c rest) (bin : Ptr) {inLen : BitVec w}
    (hlen : rest.length + inLen.toNat < 2 ^ w) :
    let a := absorb Blake2.step c (rest ++ bytesAt bin inLen.toNat)
    Fed (C.update s bin inLen) a.1 a.2 := by
  have hle := hs.le
  have hrest : rest.length = s.bufLen.toNat := by
    rw [← hs.rest, length_bytesAt]
  have hsum : (s.bufLen + inLen).toNat = s.bufLen.toNat + inLen.toNat := by
    rw [BitVec.toNat_add]
    exact Nat.mod_eq_of_lt (by omega)
  unfold Core.update
  rw [hsum]
  by_cases hfull : 128 < s.bufLen.toNat + inLen.toNat
  · rw [if_pos hfull]
    have hblock : (128#w).toNat = 128 := by
      rw [BitVec.toNat_ofNat]
      exact Nat.mod_eq_of_lt (by omega)
    generalize hl : 128#w - s.bufLen = left
    have hleft : s.bufLen.toNat + left.toNat = 128 := by
      rw [← hl, BitVec.toNat_sub_of_le (BitVec.le_def.mpr (by omega)), hblock]
      omega
    have hmore : (inLen - left).toNat = inLen.toNat - left.toNat :=
      BitVec.toNat_sub_of_le (BitVec.le_def.mpr (by omega))
    have hfirst : (rest ++ bytesAt bin left.toNat).length = 128 := by
      rw [List.length_append, hrest, length_bytesAt, hleft]
    have habsorb : absorb Blake2.step c (rest ++ bytesAt bin inLen.toNat) =
        absorb Blake2.step (Blake2.step c (rest ++ bytesAt bin left.toNat))
          (bytesAt (bin.advance left.toNat) (inLen - left).toNat) := by
      have hsplit := bytesAt_add bin left.toNat (inLen - left).toNat
      rw [hmore, Nat.add_sub_cancel' (by omega)] at hsplit
      rw [hsplit, hmore, ← List.append_assoc, absorb_of_gt, List.take_left' hfirst,
        List.drop_left' hfirst]
      rw [List.length_append, hfirst, length_bytesAt]
      omega
    obtain ⟨hc, hbytes, hle', hlen'⟩ :=
      updateLoop_fed hC (flush_chained hC hs bin hleft) (bin.advance left.toNat) (inLen - left)
    rw [habsorb]
    dsimp only at hc hbytes hle' hlen' ⊢
    generalize C.updateLoop (C.flush s bin left) (bin.advance left.toNat) (inLen - left) = r
      at hc hbytes hle' hlen' ⊢
    -- the rest of the input starts a new buffer
    have hempty : r.1.bufLen.toNat = 0 := by
      rw [hlen']
      exact BitVec.toNat_zero
    have hn : (r.1.bufLen + r.2.2).toNat = r.1.bufLen.toNat + r.2.2.toNat := by
      rw [BitVec.toNat_add, hempty, Nat.zero_add, Nat.mod_eq_of_lt r.2.2.isLt]
    have hkeep := keep_fed hc r.2.1 hn (by omega)
    rw [hempty, hbytes] at hkeep
    exact hkeep
  · rw [if_neg hfull, absorb_of_le _ (by rw [List.length_append, hrest, length_bytesAt]; omega),
      ← hs.rest]
    exact keep_fed hs.toChained bin hsum (Nat.not_lt.mp hfull)

/-- `final` compresses the rest. -/
theorem finalState_fed (hC : C.Right) (hs : Fed s c rest) (outLen : Nat) :
    (output (C.finalState s).h).take outLen = finish c rest outLen := by
  have hrest : rest.length = s.bufLen.toNat := by
    rw [← hs.rest, length_bytesAt]
  have hinc := hs.toChained.increment (Nat.lt_of_le_of_lt hs.le (by decide))
  have hbuf : bytesAt (copyAt s.buf s.bufLen.toNat (fun _ => 0) (128 - s.bufLen.toNat)) 128 =
      rest ++ List.replicate (128 - rest.length) 0 := by
    have hcopy : bytesAt (copyAt s.buf s.bufLen.toNat (fun _ => 0) (128 - s.bufLen.toNat))
        (s.bufLen.toNat + (128 - s.bufLen.toNat)) = _ := bytesAt_copyAt
    rw [Nat.add_sub_cancel' hs.le, hs.rest, bytesAt_zeros] at hcopy
    rw [hcopy, hrest]
  have hlast : (C.finalState s).h = F (incrementCounter s (UInt64.ofNat s.bufLen.toNat)).h
      (words (bytesAt (copyAt s.buf s.bufLen.toNat (fun _ => 0) (128 - s.bufLen.toNat)) 128))
      (incrementCounter s (UInt64.ofNat s.bufLen.toNat)).t₀
      (incrementCounter s (UInt64.ofNat s.bufLen.toNat)).t₁ 0xFFFFFFFFFFFFFFFF := by
    unfold Core.finalState
    dsimp only
    rw [hC.compress]
    rfl
  rw [hlast, hinc.h, hinc.t₀, hinc.t₁, hbuf]
  unfold finish Blake2.compress
  rw [hrest]

end Fed

/-! ## Both are BLAKE2b -/

/-- The three calls of an implementation. -/
structure Hasher (w : Nat) where
  init : Blake2bState w → BitVec w → Blake2bState w
  update : Blake2bState w → Ptr → BitVec w → Blake2bState w
  final : Blake2bState w → BitVec w → Blake2bState w × List UInt8

def device : Hasher 32 := ⟨deviceBlake2bInit, deviceBlake2bUpdate, deviceBlake2bFinal⟩

def host : Hasher 64 := ⟨Blake2b.init, Blake2b.update, Blake2b.final⟩

/-- The message fed so far, for a hash of `outLen` bytes. -/
def Absorbed {w : Nat} (s : Blake2bState w) (outLen : Nat) (msg : List UInt8) : Prop :=
  let a := absorb step (init outLen) msg
  Fed s a.1 a.2

/-- Whatever the pieces, the result is the hash of the whole message. -/
structure Hasher.Right {w : Nat} (H : Hasher w) : Prop where
  init : ∀ s outLen, outLen.toNat ≤ 64 → Absorbed (H.init s outLen) outLen.toNat []
  update : ∀ s outLen msg p inLen, Absorbed s outLen msg →
    min 128 msg.length + inLen.toNat < 2 ^ w →
    Absorbed (H.update s p inLen) outLen (msg ++ bytesAt p inLen.toNat)
  final : ∀ s outLen msg, Absorbed s outLen.toNat msg → outLen.toNat ≤ 64 →
    (H.final s outLen).2 = hash outLen.toNat msg

section Right

variable {w : Nat} {C : Core w}

/-- The same, as a state that has absorbed nothing. -/
theorem absorbed_init (hC : C.Right) (s : Blake2bState w) {outLen : BitVec w}
    (hlen : outLen.toNat ≤ 64) : Absorbed (C.init s outLen) outLen.toNat [] := by
  unfold Absorbed
  rw [absorb_of_le _ (Nat.zero_le _)]
  exact fed_init hC s hlen

/-- `update` absorbs its bytes behind those that came before, whatever was left in the buffer. -/
theorem Absorbed.update (hC : C.Right) {s : Blake2bState w} {outLen : Nat} {msg : List UInt8}
    (hs : Absorbed s outLen msg) (p : Ptr) {inLen : BitVec w}
    (hlen : min 128 msg.length + inLen.toNat < 2 ^ w) :
    Absorbed (C.update s p inLen) outLen (msg ++ bytesAt p inLen.toNat) := by
  have hrest := absorb_length step (init outLen) msg
  unfold Absorbed
  rw [absorb_append]
  exact update_fed hC hs p (by omega)

/-- `final` gives the hash of all the bytes absorbed. -/
theorem Absorbed.final (hC : C.Right) {s : Blake2bState w} {outLen : Nat} {msg : List UInt8}
    (hs : Absorbed s outLen msg) :
    (output (C.finalState s).h).take outLen = hash outLen msg := finalState_fed hC hs outLen

end Right

theorem device_store64_eq (v : UInt64) : deviceStore64 v = leBytes 8 v.toNat := by
  have hbyte : ∀ k < 8, (v >>> UInt64.ofNat (8 * k)).toUInt8 =
    UInt8.ofNat (v.toNat / 256 ^ k) := by
    intro k hk
    have hk64 : (UInt64.ofNat (8 * k)).toNat % 64 = 8 * k := by
      rw [UInt64.toNat_ofNat_of_lt' (show 8 * k < 2 ^ 64 by omega)]
      exact Nat.mod_eq_of_lt (by omega)
    apply UInt8.toNat_inj.mp
    rw [UInt64.toNat_toUInt8, UInt64.toNat_shiftRight, hk64, Nat.shiftRight_eq_div_pow, Nat.pow_mul]
    exact UInt8.toNat_ofNat'.symm
  have hlist : leBytes 8 v.toNat =
    (List.range 8).map fun k => (v >>> UInt64.ofNat (8 * k)).toUInt8 :=
    List.map_congr_left fun k hk => (hbyte k (List.mem_range.mp hk)).symm
  have hzero : v >>> UInt64.ofNat (8 * 0) = v := UInt64.shiftRight_zero
  rw [hlist]
  show _ = [(v >>> UInt64.ofNat (8 * 0)).toUInt8, _, _, _, _, _, _, _]
  rw [hzero]
  rfl

/-- The device's BLAKE2b hashes right. -/
theorem device_right : device.Right where
  init := fun s _ hlen => absorbed_init deviceCore_right s hlen
  update := fun _ _ _ p _ hs hlen => hs.update deviceCore_right p hlen
  final := by
    intro s outLen msg hs hlen
    have hbuffer : (deviceCore.finalState s).h.toList.flatMap deviceStore64 =
        output (deviceCore.finalState s).h := by
      unfold output
      rw [funext device_store64_eq]
    show bytesAt (array ((deviceCore.finalState s).h.toList.flatMap deviceStore64)) outLen.toNat = _
    rw [hbuffer, bytesAt_array (by rw [length_output]; exact hlen)]
    exact hs.final deviceCore_right

/-- And so does the host's. -/
theorem host_right : host.Right where
  init := fun s _ hlen => absorbed_init Blake2b.core_right s hlen
  update := fun _ _ _ p _ hs hlen => hs.update Blake2b.core_right p hlen
  final := by
    intro s outLen msg hs hlen
    have hlast := hs.final Blake2b.core_right
    show (Blake2b.final s outLen).2 = _
    unfold Blake2b.final
    dsimp only
    by_cases h64 : outLen = 64
    · rw [if_pos h64]
      rw [h64] at hlast ⊢
      rw [← hlast]
      exact (List.take_of_length_le (Nat.le_of_eq (length_output _))).symm
    · rw [if_neg h64]
      exact (bytesAt_array (by
        show outLen.toNat ≤ (output _).length
        rw [length_output]
        exact hlen)).trans hlast

end TreeMiner.Gpu

import Mathlib.Algebra.Ring.Nat
import TreeMiner.Lib.Argon2

/-!
# A block in the registers of a warp (`kernelrunner.cu`)

The 32 threads of a warp run in lockstep and hold a block of 128 words between them, four
words (`block_th`) each. A device function that all threads call together is a function of
the whole warp here: what a thread computes alone is done for every thread, and a shuffle
reads another thread's register.

The words of a block are mixed where they stand: `transpose` brings the words of a row to
four threads, `shift1_shuffle` and `shift2_shuffle` bring diagonals together. The result is
the permutation of RFC 9106 (`shuffle_block_eq`), for any mixing function.
-/

namespace TreeMiner.Gpu

open Argon2

-- by name, so that thread numbers carry no proof of their own
@[instance] theorem neZero32 : NeZero 32 := ⟨by decide⟩

/-- The four registers of a thread. -/
abbrev BlockTh := Quad UInt64

/-- The registers of a warp. -/
abbrev Warp (α : Type) := Fin 32 → Quad α

/-- A block in global memory. -/
abbrev BlockG := Block

/-! ## Words -/

def u64Build (hi lo : UInt32) : UInt64 := (hi.toUInt64 <<< 32) ||| lo.toUInt64

def u64Lo (x : UInt64) : UInt32 := x.toUInt32

def u64Hi (x : UInt64) : UInt32 := (x >>> 32).toUInt32

/-- `__umulhi`: the upper half of a product. -/
def umulhi (x y : UInt32) : UInt32 := UInt32.ofNat (x.toNat * y.toNat / 2 ^ 32)

def rotr64 (x : UInt64) (n : UInt64) : UInt64 := (x >>> n) ||| (x <<< (64 - n))

def f (x y : UInt64) : UInt64 :=
  let xlo := u64Lo x
  let ylo := u64Lo y
  x + y + 2 * u64Build (umulhi xlo ylo) (xlo * ylo)

/-- The mixing of four words, as `g1` writes it. -/
def g1 (block : BlockTh) : BlockTh :=
  let ⟨a, b, c, d⟩ := block
  let a := f a b
  let d := rotr64 (d ^^^ a) 32
  let c := f c d
  let b := rotr64 (b ^^^ c) 24
  let a := f a b
  let d := rotr64 (d ^^^ a) 16
  let c := f c d
  let b := rotr64 (b ^^^ c) 63
  ⟨a, b, c, d⟩

/-! ## Shuffles -/

section Shuffles

variable {α : Type}

theorem lane_lt (i : Nat) : i % 32 < 32 := Nat.mod_lt i (by decide)

/-- `TM_SHFL`: every thread names the thread it reads from. -/
def shfl (v : Fin 32 → α) (src : Nat) : α := v ⟨src % 32, lane_lt src⟩

/-- `TM_SHFL_XOR`. -/
def shflXor (v : Fin 32 → α) (thread : Fin 32) (mask : Nat) : α := shfl v (thread ^^^ mask)

/-- `transpose`. -/
def transpose (block : Warp α) : Warp α := fun thread =>
  let g1 (thread : Fin 32) := (thread.val &&& 0x4) ≠ 0
  let g2 (thread : Fin 32) := (thread.val &&& 0x8) ≠ 0
  let x1 (thread : Fin 32) := if g2 thread then
    (if g1 thread then (block thread).c else (block thread).d)
    else (if g1 thread then (block thread).a else (block thread).b)
  let x2 (thread : Fin 32) := if g2 thread then
    (if g1 thread then (block thread).b else (block thread).a)
    else (if g1 thread then (block thread).d else (block thread).c)
  let x3 (thread : Fin 32) := if g2 thread then
    (if g1 thread then (block thread).a else (block thread).b)
    else (if g1 thread then (block thread).c else (block thread).d)
  let y1 := shflXor x1 thread 0x4
  let y2 := shflXor x2 thread 0x8
  let y3 := shflXor x3 thread 0xC
  { a := if g2 thread then (if g1 thread then y3 else y2)
      else (if g1 thread then y1 else (block thread).a)
    b := if g2 thread then (if g1 thread then y2 else y3)
      else (if g1 thread then (block thread).b else y1)
    c := if g2 thread then (if g1 thread then y1 else (block thread).c)
      else (if g1 thread then y3 else y2)
    d := if g2 thread then (if g1 thread then (block thread).d else y1)
      else (if g1 thread then y2 else y3) }

/-- A register of every thread. -/
def regs (get : Quad α → α) (block : Warp α) (thread : Fin 32) : α := get (block thread)

def shift1Shuffle (block : Warp α) : Warp α := fun thread =>
  let src_thr_b := (thread.val &&& 0x1c) ||| ((thread.val + 1) &&& 0x3)
  let src_thr_d := (thread.val &&& 0x1c) ||| ((thread.val + 3) &&& 0x3)
  { a := (block thread).a
    b := shfl (regs Quad.b block) src_thr_b
    c := shflXor (regs Quad.c block) thread 0x2
    d := shfl (regs Quad.d block) src_thr_d }

def unshift1Shuffle (block : Warp α) : Warp α := fun thread =>
  let src_thr_b := (thread.val &&& 0x1c) ||| ((thread.val + 3) &&& 0x3)
  let src_thr_d := (thread.val &&& 0x1c) ||| ((thread.val + 1) &&& 0x3)
  { a := (block thread).a
    b := shfl (regs Quad.b block) src_thr_b
    c := shflXor (regs Quad.c block) thread 0x2
    d := shfl (regs Quad.d block) src_thr_d }

def shift2Shuffle (block : Warp α) : Warp α := fun thread =>
  let lo := (thread.val &&& 0x1) ||| ((thread.val &&& 0x10) >>> 3)
  let src_thr_b := (((lo + 1) &&& 0x2) <<< 3) ||| (thread.val &&& 0xe) ||| ((lo + 1) &&& 0x1)
  let src_thr_d := (((lo + 3) &&& 0x2) <<< 3) ||| (thread.val &&& 0xe) ||| ((lo + 3) &&& 0x1)
  { a := (block thread).a
    b := shfl (regs Quad.b block) src_thr_b
    c := shflXor (regs Quad.c block) thread 0x10
    d := shfl (regs Quad.d block) src_thr_d }

def unshift2Shuffle (block : Warp α) : Warp α := fun thread =>
  let lo := (thread.val &&& 0x1) ||| ((thread.val &&& 0x10) >>> 3)
  let src_thr_b := (((lo + 3) &&& 0x2) <<< 3) ||| (thread.val &&& 0xe) ||| ((lo + 3) &&& 0x1)
  let src_thr_d := (((lo + 1) &&& 0x2) <<< 3) ||| (thread.val &&& 0xe) ||| ((lo + 1) &&& 0x1)
  { a := (block thread).a
    b := shfl (regs Quad.b block) src_thr_b
    c := shflXor (regs Quad.c block) thread 0x10
    d := shfl (regs Quad.d block) src_thr_d }

/-- Every thread mixes its registers. -/
def mixAll (g : Quad α → Quad α) (block : Warp α) : Warp α := fun thread => g (block thread)

/-- `shuffle_block`. -/
def shuffleBlock (g : Quad α → Quad α) (block : Warp α) : Warp α :=
  let block := transpose block
  let block := mixAll g block
  let block := shift1Shuffle block
  let block := mixAll g block
  let block := unshift1Shuffle block
  let block := transpose block
  let block := mixAll g block
  let block := shift2Shuffle block
  let block := mixAll g block
  unshift2Shuffle block

/-- `block_th_get_uniform`. -/
def blockThGetUniform (b : Quad α) : Nat → α
  | 0 => b.a
  | 1 => b.b
  | 2 => b.c
  | _ => b.d

/-- `store_block`: word `w` is register `w / 32` of thread `w % 32`. -/
def storeBlock (src : Warp α) : Fin 128 → α := fun w =>
  blockThGetUniform (src ⟨w % 32, lane_lt w⟩) (w / 32)

theorem word0_lt (thread : Fin 32) : 0 * 32 + thread.val < 128 := by omega

theorem word1_lt (thread : Fin 32) : 1 * 32 + thread.val < 128 := by omega

theorem word2_lt (thread : Fin 32) : 2 * 32 + thread.val < 128 := by omega

theorem word3_lt (thread : Fin 32) : 3 * 32 + thread.val < 128 := by omega

/-- `load_block`. -/
def loadBlock (src : Fin 128 → α) : Warp α := fun thread =>
  { a := src ⟨0 * 32 + thread, word0_lt thread⟩
    b := src ⟨1 * 32 + thread, word1_lt thread⟩
    c := src ⟨2 * 32 + thread, word2_lt thread⟩
    d := src ⟨3 * 32 + thread, word3_lt thread⟩ }

end Shuffles

/-! ## The permutation -/

section Permutation

variable {α : Type} (g : Quad α → Quad α) (block : Warp α)

/-- Register `i` of the quad of a matrix. -/
theorem get_columns (v : Fin 16 → α) (l i : Fin 4) :
    blockThGetUniform (columns v l) i = v ⟨4 * i + l, by omega⟩ := by
  fin_cases i <;> rw [columns] <;> simp [blockThGetUniform]

/-! ### Rows: threads `4 * k` to `4 * k + 3` -/

/-- The row that a thread works on between the two calls of `transpose`. -/
def rowOf (thread : Fin 32) : Fin 8 := ⟨2 * (thread.val / 4 % 4) + thread.val / 16, by omega⟩

/-- Its place among the four threads of the row. -/
def rowLane (thread : Fin 32) : Fin 4 := ⟨thread.val % 4, by omega⟩

/-- The threads of the same row. -/
def rowMate (thread : Fin 32) (l : Fin 4) : Fin 32 := ⟨thread.val / 4 * 4 + l, by omega⟩

/-- The threads that hold a row together are in one row. -/
theorem rowOf_mate (thread : Fin 32) (l : Fin 4) : rowOf (rowMate thread l) = rowOf thread := by
  apply Fin.ext
  show 2 * ((thread.val / 4 * 4 + l) / 4 % 4) + (thread.val / 4 * 4 + l) / 16 =
    2 * (thread.val / 4 % 4) + thread.val / 16
  omega

/-- Each of them at its own place. -/
theorem rowLane_mate (thread : Fin 32) (l : Fin 4) : rowLane (rowMate thread l) = l := by
  apply Fin.ext
  show (thread.val / 4 * 4 + l) % 4 = l
  omega

/-- The mates of a mate are the thread's own mates. -/
theorem rowMate_mate (thread : Fin 32) (l l' : Fin 4) :
    rowMate (rowMate thread l) l' = rowMate thread l' := by
  apply Fin.ext
  show (thread.val / 4 * 4 + l) / 4 * 4 + l' = thread.val / 4 * 4 + l'
  omega

/-- After the transposition a thread holds four words of its row. -/
theorem transpose_eq (thread : Fin 32) :
    transpose block thread = columns (row (storeBlock block) (rowOf thread)) (rowLane thread) := by
  fin_cases thread <;> rfl

/-- The first shuffle turns the columns of a row into its diagonals. -/
theorem shift1_shuffle_eq (thread : Fin 32) :
    shift1Shuffle block thread =
      diagonals (fun l => block (rowMate thread l)) (rowLane thread) := by
  fin_cases thread <;> rfl

/-- And the second turns them back. -/
theorem unshift1_shuffle_eq (thread : Fin 32) :
    unshift1Shuffle block thread =
      undiagonals (fun l => block (rowMate thread l)) (rowLane thread) := by
  fin_cases thread <;> rfl

/-- The word at `w` after `transpose` comes from its row. -/
theorem store_transpose (w : Fin 128) :
    storeBlock (transpose block) w =
      blockThGetUniform (block ⟨w / 16 % 2 * 16 + w / 32 * 4 + w % 4, by omega⟩)
        (w / 4 % 4) := by
  fin_cases w <;> rfl

/-- The first half of `shuffle_block`: `P` on every row. -/
theorem rows_eq :
    storeBlock (transpose (unshift1Shuffle (mixAll g (shift1Shuffle (mixAll g
      (transpose block)))))) = rowRound g (storeBlock block) := by
  -- each row of the block is mixed by four threads that hold its columns
  have hrow : ∀ thread, unshift1Shuffle (mixAll g (shift1Shuffle (mixAll g (transpose block))))
      thread = columns (P g (row (storeBlock block) (rowOf thread))) (rowLane thread) := by
    intro thread
    simp only [unshift1_shuffle_eq, mixAll, shift1_shuffle_eq, rowMate_mate, rowLane_mate,
      transpose_eq, rowOf_mate]
    rw [columns_P]
  funext w
  rw [store_transpose, hrow]
  refine (get_columns _ _ ⟨w / 4 % 4, by omega⟩).trans ?_
  unfold rowRound
  congr 2
  · apply Fin.ext
    show 2 * ((w / 16 % 2 * 16 + w / 32 * 4 + w % 4) / 4 % 4) +
      (w / 16 % 2 * 16 + w / 32 * 4 + w % 4) / 16 = w.val / 16
    have hquarter : (w.val / 16 % 2 * 16 + w / 32 * 4 + w % 4) / 4 = w / 16 % 2 * 4 + w / 32 := by
      omega
    have hhalf : (w.val / 16 % 2 * 16 + w / 32 * 4 + w % 4) / 16 = w / 16 % 2 := by omega
    have hdiv : w.val / 16 / 2 = w / 32 := Nat.div_div_eq_div_mul _ _ _
    rw [hquarter, hhalf]
    omega
  · show 4 * (w.val / 4 % 4) + (w / 16 % 2 * 16 + w / 32 * 4 + w % 4) % 4 = w.val % 16
    omega

/-! ### Columns: threads that differ in bits 0 and 4 -/

/-- The column that a thread holds words of. -/
def columnOf (thread : Fin 32) : Fin 8 := ⟨thread.val % 16 / 2, by omega⟩

def columnLane (thread : Fin 32) : Fin 4 := ⟨thread.val % 2 + 2 * (thread.val / 16), by omega⟩

def columnMate (thread : Fin 32) (l : Fin 4) : Fin 32 :=
  ⟨l.val / 2 * 16 + thread.val % 16 / 2 * 2 + l % 2, by omega⟩

/-- The threads that hold a column together are in one column. -/
theorem columnOf_mate (thread : Fin 32) (l : Fin 4) :
    columnOf (columnMate thread l) = columnOf thread := by
  apply Fin.ext
  show (l.val / 2 * 16 + thread.val % 16 / 2 * 2 + l % 2) % 16 / 2 = thread.val % 16 / 2
  omega

/-- Each of them at its own place. -/
theorem columnLane_mate (thread : Fin 32) (l : Fin 4) : columnLane (columnMate thread l) = l := by
  apply Fin.ext
  show (l.val / 2 * 16 + thread.val % 16 / 2 * 2 + l % 2) % 2 +
    2 * ((l.val / 2 * 16 + thread.val % 16 / 2 * 2 + l % 2) / 16) = l
  omega

/-- The mates of a mate are the thread's own mates. -/
theorem columnMate_mate (thread : Fin 32) (l l' : Fin 4) :
    columnMate (columnMate thread l) l' = columnMate thread l' := by
  apply Fin.ext
  show l'.val / 2 * 16 + (l.val / 2 * 16 + thread.val % 16 / 2 * 2 + l % 2) % 16 / 2 * 2 + l' % 2 =
    l'.val / 2 * 16 + thread.val % 16 / 2 * 2 + l' % 2
  omega

/-- Before the transposition a thread holds four words of its column. -/
theorem held_eq (thread : Fin 32) :
    block thread = columns (column (storeBlock block) (columnOf thread)) (columnLane thread) := by
  fin_cases thread <;> rfl

/-- The third shuffle turns the words of a column into its diagonals. -/
theorem shift2_shuffle_eq (thread : Fin 32) :
    shift2Shuffle block thread =
      diagonals (fun l => block (columnMate thread l)) (columnLane thread) := by
  fin_cases thread <;> rfl

/-- And the last turns them back. -/
theorem unshift2_shuffle_eq (thread : Fin 32) :
    unshift2Shuffle block thread =
      undiagonals (fun l => block (columnMate thread l)) (columnLane thread) := by
  fin_cases thread <;> rfl

/-- The second half: `P` on every column. -/
theorem columns_eq :
    storeBlock (unshift2Shuffle (mixAll g (shift2Shuffle (mixAll g block)))) =
      columnRound g (storeBlock block) := by
  have hcol : ∀ thread, unshift2Shuffle (mixAll g (shift2Shuffle (mixAll g block))) thread =
      columns (P g (column (storeBlock block) (columnOf thread))) (columnLane thread) := by
    intro thread
    simp only [unshift2_shuffle_eq, mixAll, shift2_shuffle_eq, columnMate_mate, columnLane_mate]
    rw [columns_P]
    congr 1
    funext l
    congr 2
    funext l'
    rw [held_eq block (columnMate thread l'), columnOf_mate, columnLane_mate]
  funext w
  unfold storeBlock
  rw [hcol]
  refine (get_columns _ _ ⟨w / 32, by omega⟩).trans ?_
  unfold columnRound
  congr 2
  · apply Fin.ext
    show w.val % 32 % 16 / 2 = w.val % 16 / 2
    omega
  · show 4 * (w.val / 32) + (w.val % 32 % 2 + 2 * (w.val % 32 / 16)) = 2 * (w.val / 16) + w.val % 2
    omega

/-- `shuffle_block` is the permutation of a block, whatever mixes four words. -/
theorem shuffle_block_eq :
    storeBlock (shuffleBlock g block) = columnRound g (rowRound g (storeBlock block)) := by
  unfold shuffleBlock
  dsimp only
  rw [columns_eq, rows_eq]

end Permutation

/-! ## The mixing function -/

/-- A word is built from its halves. -/
theorem u64_build_toNat (hi lo : UInt32) :
    (u64Build hi lo).toNat = 2 ^ 32 * hi.toNat + lo.toNat := by
  have hlo : lo.toNat < 2 ^ 32 := lo.toNat_lt
  have hhi : hi.toNat < 2 ^ 32 := hi.toNat_lt
  unfold u64Build
  rw [UInt64.toNat_or, UInt64.toNat_shiftLeft, UInt32.toNat_toUInt64, UInt32.toNat_toUInt64,
    show (32 : UInt64).toNat % 64 = 32 from rfl, Nat.shiftLeft_eq, Nat.mod_eq_of_lt (by omega),
    Nat.mul_comm, ← Nat.two_pow_add_eq_or_of_lt hlo]

theorem u64_lo_toNat (x : UInt64) : (u64Lo x).toNat = x.toNat % 2 ^ 32 := UInt64.toNat_toUInt32 x

/-- The high half of a product of two 32-bit words. -/
theorem umulhi_toNat (x y : UInt32) : (umulhi x y).toNat = x.toNat * y.toNat / 2 ^ 32 := by
  have hlt : x.toNat * y.toNat / 2 ^ 32 < 2 ^ 32 := by
    rw [Nat.div_lt_iff_lt_mul (by decide)]
    exact Nat.mul_lt_mul'' x.toNat_lt y.toNat_lt
  exact UInt32.toNat_ofNat_of_lt' hlt

/-- Building a word from its own halves gives it back. -/
theorem u64_build_parts (x : UInt64) : u64Build (u64Hi x) (u64Lo x) = x := by
  apply UInt64.toNat_inj.mp
  have hx : x.toNat < 2 ^ 64 := x.toNat_lt
  have hhi : (u64Hi x).toNat = x.toNat / 2 ^ 32 := by
    unfold u64Hi
    rw [UInt64.toNat_toUInt32, UInt64.toNat_shiftRight, show (32 : UInt64).toNat % 64 = 32 from rfl,
      Nat.shiftRight_eq_div_pow, Nat.mod_eq_of_lt (by omega)]
  rw [u64_build_toNat, u64_lo_toNat, hhi]
  exact Nat.div_add_mod _ _

/-- The 64-bit product of the lower halves, put together from two 32-bit halves. -/
theorem f_eq (x y : UInt64) : f x y = addMul x y := by
  unfold f addMul
  dsimp only
  rw [UInt64.mul_assoc]
  congr 2
  apply UInt64.toNat_inj.mp
  have hx : (trunc x).toNat = x.toNat % 2 ^ 32 := by
    unfold trunc
    rw [UInt64.toNat_and]
    exact Nat.and_two_pow_sub_one_eq_mod _ 32
  have hy : (trunc y).toNat = y.toNat % 2 ^ 32 := by
    unfold trunc
    rw [UInt64.toNat_and]
    exact Nat.and_two_pow_sub_one_eq_mod _ 32
  have hlt : x.toNat % 2 ^ 32 * (y.toNat % 2 ^ 32) < 2 ^ 32 * 2 ^ 32 :=
    Nat.mul_lt_mul'' (Nat.mod_lt _ (by decide)) (Nat.mod_lt _ (by decide))
  rw [u64_build_toNat, umulhi_toNat, UInt32.toNat_mul, u64_lo_toNat, u64_lo_toNat, Nat.div_add_mod,
    UInt64.toNat_mul, hx, hy]
  exact (Nat.mod_eq_of_lt hlt).symm

/-- The device's mixing function is that of Argon2. -/
theorem g1_eq : g1 = GB := by
  funext block
  unfold g1 GB
  simp only [f_eq]
  rfl

/-! ## Blocks in registers, in memory and in shared memory -/

/-- A block in shared memory, its halves apart. -/
structure BlockL where
  lo : Fin 128 → UInt32
  hi : Fin 128 → UInt32

/-- `block_l_store`. -/
def blockLStore (src : Warp UInt64) : BlockL where
  lo := fun w => u64Lo (storeBlock src w)
  hi := fun w => u64Hi (storeBlock src w)

/-- The word at `i * 32 + thread` of shared memory. -/
def blockLWord (src : BlockL) (w : Fin 128) : UInt64 := u64Build (src.hi w) (src.lo w)

/-- Exclusive or of registers and four words. -/
def xorWords (dst : BlockTh) (src : BlockTh) : BlockTh :=
  ⟨dst.a ^^^ src.a, dst.b ^^^ src.b, dst.c ^^^ src.c, dst.d ^^^ src.d⟩

/-- `block_l_load_xor`. -/
def blockLLoadXor (dst : Warp UInt64) (src : BlockL) : Warp UInt64 := fun thread =>
  xorWords (dst thread) (loadBlock (blockLWord src) thread)

/-- `load_block_xor`. -/
def loadBlockXor (dst : Warp UInt64) (src : BlockG) : Warp UInt64 := fun thread =>
  xorWords (dst thread) (loadBlock src thread)

/-- `next_addresses1`. -/
def nextAddresses1 (thread_input : Fin 32 → UInt32) : Warp UInt64 :=
  let addr : Warp UInt64 := fun thread => ⟨u64Build 0 (thread_input thread), 0, 0, 0⟩
  let addr := shuffleBlock g1 addr
  let addr : Warp UInt64 := fun thread =>
    { addr thread with a := (addr thread).a ^^^ u64Build 0 (thread_input thread) }
  let tmp := blockLStore addr
  let addr := shuffleBlock g1 addr
  blockLLoadXor addr tmp

section Blocks

variable {α : Type}

/-- A block that is loaded into a warp and stored again is the same. -/
theorem store_load_block (b : Fin 128 → α) : storeBlock (loadBlock b) = b := by
  funext w
  fin_cases w <;> rfl

/-- And a warp that is stored and loaded again. -/
theorem load_store_block (block : Warp α) : loadBlock (storeBlock block) = block := by
  funext thread
  fin_cases thread <;> rfl

theorem store_xorWords (x y : Warp UInt64) :
    storeBlock (fun thread => xorWords (x thread) (y thread)) =
      fun w => storeBlock x w ^^^ storeBlock y w := by
  funext w
  fin_cases w <;> rfl

theorem store_load_block_xor (dst : Warp UInt64) (src : BlockG) :
    storeBlock (loadBlockXor dst src) = fun w => storeBlock dst w ^^^ src w := by
  unfold loadBlockXor
  rw [store_xorWords, store_load_block]

theorem store_block_l_xor (dst src : Warp UInt64) :
    storeBlock (blockLLoadXor dst (blockLStore src)) =
      fun w => storeBlock dst w ^^^ storeBlock src w := by
  unfold blockLLoadXor
  rw [store_xorWords, store_load_block]
  funext w
  exact congrArg _ (u64_build_parts _)

/-- The shuffles and mixings of a warp are the permutation of its block. -/
theorem store_shuffle_block (block : Warp UInt64) :
    storeBlock (shuffleBlock g1 block) = permute (storeBlock block) := by
  rw [shuffle_block_eq, g1_eq]
  rfl

/-- What the threads feed into address generation, as a block. -/
def inputBlock (thread_input : Fin 32 → UInt32) : Block := fun w =>
  if h : w.val < 32 then (thread_input ⟨w, h⟩).toUInt64 else 0

/-- With a zero block the compression is the permutation and one exclusive or. -/
theorem compress_zero (x : Block) : compress zero x = fun w => permute x w ^^^ x w := by
  unfold compress zero
  simp only [UInt64.zero_xor]

/-- The addresses of a warp come from two compressions of its input with the zero block. -/
theorem store_next_addresses1 (thread_input : Fin 32 → UInt32) :
    storeBlock (nextAddresses1 thread_input) =
      compress zero (compress zero (inputBlock thread_input)) := by
  -- the input block holds one word a thread and zeros elsewhere
  have hbuild : ∀ x : UInt32, u64Build 0 x = x.toUInt64 := by
    intro x
    apply UInt64.toNat_inj.mp
    rw [u64_build_toNat, UInt32.toNat_toUInt64]
    simp
  have hin : storeBlock
    (fun thread => (⟨u64Build 0 (thread_input thread), 0, 0, 0⟩ : BlockTh)) =
      inputBlock thread_input := by
    funext w
    simp only [hbuild]
    fin_cases w <;> rfl
  have hxor : ∀ block : Warp UInt64, storeBlock (fun thread =>
      { block thread with a := (block thread).a ^^^ u64Build 0 (thread_input thread) }) =
      fun w => storeBlock block w ^^^ inputBlock thread_input w := by
    intro block
    rw [← hin, ← store_xorWords]
    unfold xorWords
    simp only [UInt64.xor_zero]
  unfold nextAddresses1
  dsimp only
  rw [store_block_l_xor, store_shuffle_block, hxor, store_shuffle_block, hin, compress_zero,
    compress_zero]

end Blocks

end TreeMiner.Gpu

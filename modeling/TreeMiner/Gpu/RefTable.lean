import TreeMiner.Gpu.Oneshot

/-!
# The table of references (`hashapi/IndexedRefTable.h`, `hashapi/IndexedRefTable.cpp`)

The references of the first two slices depend on the memory size alone. The host computes
them with a copy of the device code: the registers of the 32 threads are an array, and each
loop over the threads writes an entry from a snapshot of the array taken before.

The copy does what the device does (`next_addresses1_eq`, `computeRefPos_eq`), so an entry
of the table is the reference of its position (`generateIndexedRefTable_get`).
-/

namespace TreeMiner.Gpu.RefTable

open Argon2

def kThreadsPerLane : UInt32 := 32

def kQwordsInBlock : UInt32 := 128

def kSyncPoints : UInt32 := 4

abbrev Lane := Quad UInt64

/-- An array read; the indices that the code computes are all below 32. -/
def at32 {α : Type} (v : Fin 32 → α) (i : Nat) : α := v ⟨i % 32, lane_lt i⟩

/-! ## The copy of the device code -/

/-- The upper half of a product comes from a 64-bit multiplication. -/
def f (x y : UInt64) : UInt64 :=
  let xlo := u64Lo x
  let ylo := u64Lo y
  let hi := ((xlo.toUInt64 * ylo.toUInt64) >>> 32).toUInt32
  let lo := xlo * ylo
  x + y + 2 * u64Build hi lo

def g (block : Lane) : Lane :=
  let ⟨a, b, c, d⟩ := block
  let a := f a b
  let d := rotr64 (d ^^^ a) 32
  let c := f c d
  let b := rotr64 (b ^^^ c) 24
  let a := f a b
  let d := rotr64 (d ^^^ a) 16
  let c := f c d
  let b := rotr64 (b ^^^ c) 63
  ⟨a, b, c, d⟩

def laneGet (b : Lane) (idx : UInt32) : UInt64 :=
  match idx.toNat with
  | 0 => b.a
  | 1 => b.b
  | 2 => b.c
  | _ => b.d

/-- `transpose`: the first loop fills `x1`, `x2` and `x3`, the second exchanges them. -/
def transpose (snap : Fin 32 → Lane) : Fin 32 → Lane :=
  let g1f (thread : Fin 32) : Bool := (thread.val &&& 0x4) != 0
  let g2f (thread : Fin 32) : Bool := (thread.val &&& 0x8) != 0
  let x1 (thread : Fin 32) :=
    bif g2f thread then (bif g1f thread then (snap thread).c else (snap thread).d)
    else (bif g1f thread then (snap thread).a else (snap thread).b)
  let x2 (thread : Fin 32) :=
    bif g2f thread then (bif g1f thread then (snap thread).b else (snap thread).a)
    else (bif g1f thread then (snap thread).d else (snap thread).c)
  let x3 (thread : Fin 32) :=
    bif g2f thread then (bif g1f thread then (snap thread).a else (snap thread).b)
    else (bif g1f thread then (snap thread).c else (snap thread).d)
  let y1 (thread : Fin 32) := at32 x1 (thread.val ^^^ 0x4)
  let y2 (thread : Fin 32) := at32 x2 (thread.val ^^^ 0x8)
  let y3 (thread : Fin 32) := at32 x3 (thread.val ^^^ 0xC)
  fun thread =>
    { a := bif g2f thread then (bif g1f thread then y3 thread else y2 thread)
        else (bif g1f thread then y1 thread else (snap thread).a)
      b := bif g2f thread then (bif g1f thread then y2 thread else y3 thread)
        else (bif g1f thread then (snap thread).b else y1 thread)
      c := bif g2f thread then (bif g1f thread then y1 thread else (snap thread).c)
        else (bif g1f thread then y3 thread else y2 thread)
      d := bif g2f thread then (bif g1f thread then (snap thread).d else y1 thread)
        else (bif g1f thread then y2 thread else y3 thread) }

/-- The loop of the four shuffles: where each thread gets its `b`, `c` and `d` from. -/
def shuffleFrom (src_b src_c src_d : Nat → Nat) (snap : Fin 32 → Lane) : Fin 32 → Lane :=
  fun thread =>
    { a := (snap thread).a
      b := (at32 snap (src_b thread)).b
      c := (at32 snap (src_c thread)).c
      d := (at32 snap (src_d thread)).d }

def shift1Shuffle : (Fin 32 → Lane) → Fin 32 → Lane :=
  shuffleFrom (fun thread => (thread &&& 0x1c) ||| ((thread + 1) &&& 0x3))
    (fun thread => thread ^^^ 0x2)
    (fun thread => (thread &&& 0x1c) ||| ((thread + 3) &&& 0x3))

def unshift1Shuffle : (Fin 32 → Lane) → Fin 32 → Lane :=
  shuffleFrom (fun thread => (thread &&& 0x1c) ||| ((thread + 3) &&& 0x3))
    (fun thread => thread ^^^ 0x2)
    (fun thread => (thread &&& 0x1c) ||| ((thread + 1) &&& 0x3))

/-- The `lo` of `shift2_shuffle` and `unshift2_shuffle`. -/
def lo2 (thread : Nat) : Nat := (thread &&& 0x1) ||| ((thread &&& 0x10) >>> 3)

def shift2Shuffle : (Fin 32 → Lane) → Fin 32 → Lane :=
  shuffleFrom
    (fun thread => (((lo2 thread + 1) &&& 0x2) <<< 3) ||| (thread &&& 0xe) |||
      ((lo2 thread + 1) &&& 0x1))
    (fun thread => thread ^^^ 0x10)
    (fun thread => (((lo2 thread + 3) &&& 0x2) <<< 3) ||| (thread &&& 0xe) |||
      ((lo2 thread + 3) &&& 0x1))

def unshift2Shuffle : (Fin 32 → Lane) → Fin 32 → Lane :=
  shuffleFrom
    (fun thread => (((lo2 thread + 3) &&& 0x2) <<< 3) ||| (thread &&& 0xe) |||
      ((lo2 thread + 3) &&& 0x1))
    (fun thread => thread ^^^ 0x10)
    (fun thread => (((lo2 thread + 1) &&& 0x2) <<< 3) ||| (thread &&& 0xe) |||
      ((lo2 thread + 1) &&& 0x1))

/-- `for (auto& lane : warp) g(lane);`. -/
def gAll (warp : Fin 32 → Lane) : Fin 32 → Lane := fun thread => g (warp thread)

def shuffleBlock (warp : Fin 32 → Lane) : Fin 32 → Lane :=
  let warp := transpose warp
  let warp := gAll warp
  let warp := shift1Shuffle warp
  let warp := gAll warp
  let warp := unshift1Shuffle warp
  let warp := transpose warp
  let warp := gAll warp
  let warp := shift2Shuffle warp
  let warp := gAll warp
  unshift2Shuffle warp

/-- The halves of a word of `BlockL`, put together and taken apart. -/
abbrev BlockL := Gpu.BlockL

/-- `block_l_store`: entry `i * 32 + thread` is a half of register `i` of the thread. -/
def blockLStore (warp : Fin 32 → Lane) : BlockL where
  lo := fun w => u64Lo (laneGet (at32 warp w) (UInt32.ofNat (w / 32)))
  hi := fun w => u64Hi (laneGet (at32 warp w) (UInt32.ofNat (w / 32)))

def blockLLoadXor (warp : Fin 32 → Lane) (src : BlockL) : Fin 32 → Lane := fun thread =>
  { a := (warp thread).a ^^^
      u64Build (src.hi ⟨0 * 32 + thread, word0_lt thread⟩)
        (src.lo ⟨0 * 32 + thread, word0_lt thread⟩)
    b := (warp thread).b ^^^
      u64Build (src.hi ⟨1 * 32 + thread, word1_lt thread⟩)
        (src.lo ⟨1 * 32 + thread, word1_lt thread⟩)
    c := (warp thread).c ^^^
      u64Build (src.hi ⟨2 * 32 + thread, word2_lt thread⟩)
        (src.lo ⟨2 * 32 + thread, word2_lt thread⟩)
    d := (warp thread).d ^^^
      u64Build (src.hi ⟨3 * 32 + thread, word3_lt thread⟩)
        (src.lo ⟨3 * 32 + thread, word3_lt thread⟩) }

def nextAddresses1 (thread_input : Fin 32 → UInt32) : Fin 32 → Lane :=
  let addr : Fin 32 → Lane := fun thread => ⟨u64Build 0 (thread_input thread), 0, 0, 0⟩
  let addr := shuffleBlock addr
  let addr : Fin 32 → Lane := fun thread =>
    { addr thread with a := (addr thread).a ^^^ u64Build 0 (thread_input thread) }
  let tmp := blockLStore addr
  let addr := shuffleBlock addr
  blockLLoadXor addr tmp

def extractRefIndex (addr : Fin 32 → Lane) (addr_index : UInt32) : UInt32 :=
  let thr := addr_index % kThreadsPerLane
  let idx := addr_index / kThreadsPerLane
  u64Lo (laneGet (at32 addr thr.toNat) idx)

def computeRefPos (segment_blocks slice offset ref_index : UInt32) : UInt32 :=
  let ref_area_size : UInt32 := slice * segment_blocks + offset - 1
  let sq : UInt64 := ref_index.toUInt64 * ref_index.toUInt64
  let index : UInt32 := (sq >>> 32).toUInt32
  let area_x : UInt64 := ref_area_size.toUInt64 * index.toUInt64
  let area_hi : UInt32 := (area_x >>> 32).toUInt32
  ref_area_size - 1 - area_hi

/-! ## The table -/

/-- `indexedRefCount`. -/
def indexedRefCount (segment_blocks : UInt32) : UInt64 :=
  if segment_blocks < 2 then 0 else (2 * segment_blocks - 2).toUInt64

/-- `indexedRefIndex`. -/
def indexedRefIndex (slice offset segment_blocks : UInt32) : UInt64 :=
  if slice = 0 then (offset - 2).toUInt64 else ((segment_blocks - 2) + offset).toUInt64

/-- `addr`, `thread_input` and `table`. -/
structure Generator extends Addresses where
  table : List UInt32

/-- `step_indexed`. -/
def stepIndexed (segment_blocks slice : UInt32) (s : Generator) (offset : UInt32) : Generator :=
  let addr_index := offset % kQwordsInBlock
  let a : Addresses :=
    if addr_index = 0 then
      let thread_input := Function.update s.thread_input 6 (s.thread_input 6 + 1)
      ⟨nextAddresses1 thread_input, thread_input⟩
    else s.toAddresses
  let raw := extractRefIndex a.addr addr_index
  ⟨a, s.table ++ [computeRefPos segment_blocks slice offset raw]⟩

/-- `for (uint32_t offset = lo; offset < hi; ++offset)`. -/
def offsets (lo hi : UInt32) : List UInt32 :=
  (List.range' lo.toNat (hi.toNat - lo.toNat)).map UInt32.ofNat

/-- `generateIndexedRefTable`. -/
def generateIndexedRefTable (segment_blocks : UInt32) : List UInt32 :=
  if indexedRefCount segment_blocks = 0 then []
  else
    let lane_blocks := kSyncPoints * segment_blocks
    let thread_input : Fin 32 → UInt32 := fun thread =>
      (if thread = 3 then 1 else 0) * lane_blocks + (if thread = 4 then 1 else 0) +
        (if thread = 5 then 1 else 0) * 2 + (if thread = 6 then 1 else 0)
    let s : Generator := ⟨⟨nextAddresses1 thread_input, thread_input⟩, []⟩
    let s := (offsets 2 segment_blocks).foldl (stepIndexed segment_blocks 0) s
    let thread_input := Function.update s.thread_input 2 (s.thread_input 2 + 1)
    let thread_input := Function.update thread_input 6 0
    let s : Generator := { s with thread_input := thread_input }
    ((offsets 0 segment_blocks).foldl (stepIndexed segment_blocks 1) s).table

/-! ## Host and device agree -/

/-- The high half of the product, as the host computes it. -/
theorem hi_product (x y : UInt32) : ((x.toUInt64 * y.toUInt64) >>> 32).toUInt32 = umulhi x y := by
  have hmul : x.toNat * y.toNat < 2 ^ 32 * 2 ^ 32 := Nat.mul_lt_mul'' x.toNat_lt y.toNat_lt
  have hlt : x.toNat * y.toNat < 2 ^ 64 := by omega
  apply UInt32.toNat_inj.mp
  rw [umulhi_toNat, UInt64.toNat_toUInt32, UInt64.toNat_shiftRight, UInt64.toNat_mul,
    UInt32.toNat_toUInt64, UInt32.toNat_toUInt64, show (32 : UInt64).toNat % 64 = 32 from rfl,
    Nat.mod_eq_of_lt hlt, Nat.shiftRight_eq_div_pow]
  exact Nat.mod_eq_of_lt (by omega)

theorem f_eq (x y : UInt64) : f x y = Gpu.f x y := by
  unfold f Gpu.f
  dsimp only
  rw [hi_product]

theorem g_eq : g = g1 := by
  funext block
  unfold g g1
  simp only [f_eq]

/-- The host's function for the position of a reference is the device's. -/
theorem computeRefPos_eq (segment_blocks slice offset ref_index : UInt32) :
    computeRefPos segment_blocks slice offset ref_index =
      Gpu.computeRefPos segment_blocks slice offset ref_index := by
  unfold computeRefPos Gpu.computeRefPos
  dsimp only
  rw [hi_product, hi_product]

theorem lane_get_eq (b : Lane) (idx : UInt32) : laneGet b idx = blockThGetUniform b idx.toNat := rfl

/-- The host's exchange between lanes is the device's. -/
theorem transpose_eq (snap : Fin 32 → Lane) : transpose snap = Gpu.transpose snap := by
  funext thread
  fin_cases thread <;> rfl

/-- And with it the permutation of a block. -/
theorem shuffle_block_eq (warp : Fin 32 → Lane) :
    shuffleBlock warp = Gpu.shuffleBlock g1 warp := by
  unfold shuffleBlock Gpu.shuffleBlock gAll mixAll
  simp only [transpose_eq, g_eq]
  rfl

theorem block_l_store_eq (warp : Fin 32 → Lane) : blockLStore warp = Gpu.blockLStore warp := by
  have hword : ∀ w : Fin 128, laneGet (at32 warp w) (UInt32.ofNat (w / 32)) =
    storeBlock warp w := by
    intro w
    rw [lane_get_eq, UInt32.toNat_ofNat_of_lt' (show w.val / 32 < 2 ^ 32 by omega)]
    rfl
  unfold blockLStore Gpu.blockLStore
  simp only [hword]

/-- The first address block after an input is the same on both sides. -/
theorem next_addresses1_eq (thread_input : Fin 32 → UInt32) :
    nextAddresses1 thread_input = Gpu.nextAddresses1 thread_input := by
  unfold nextAddresses1 Gpu.nextAddresses1
  simp only [shuffle_block_eq, block_l_store_eq]
  rfl

/-- An address is taken from the same lane and word. -/
theorem extract_ref_index_eq (addr : Fin 32 → Lane) (addr_index : UInt32) :
    extractRefIndex addr addr_index = addressAt addr addr_index := by
  unfold extractRefIndex addressAt
  simp only [lane_get_eq, u64_shuffle_eq]
  rfl

/-! ## The entries -/

section Entries

variable {segment_blocks slice : UInt32}

/-- One step of the table's generator is one step of the kernel's. -/
theorem step_indexed_eq (s : Generator) {offset : Nat} (ho : offset < 2 ^ 32)
    (hr : Ready (ARGON2_SYNC_POINTS * segment_blocks) slice offset s.toAddresses) :
    ∃ a, Ready (ARGON2_SYNC_POINTS * segment_blocks) slice (offset + 1) a ∧
      stepIndexed segment_blocks slice s (UInt32.ofNat offset) =
        ⟨a, s.table ++ [indexedRef segment_blocks slice offset]⟩ := by
  obtain ⟨hvalue, hready⟩ := hr.step ho
  refine ⟨_, hready, ?_⟩
  unfold stepIndexed
  simp only [next_addresses1_eq, extract_ref_index_eq, computeRefPos_eq]
  refine congrArg (fun v => (⟨_, s.table ++ [Gpu.computeRefPos _ _ _ v]⟩ : Generator)) ?_
  exact hvalue

/-- A loop adds the references of its positions. -/
theorem foldl_step_indexed (lo n : Nat) (hn : lo + n < 2 ^ 32) (s : Generator)
    (hr : Ready (ARGON2_SYNC_POINTS * segment_blocks) slice lo s.toAddresses) :
    ∃ a, Ready (ARGON2_SYNC_POINTS * segment_blocks) slice (lo + n) a ∧
      ((List.range' lo n).map UInt32.ofNat).foldl (stepIndexed segment_blocks slice) s =
        ⟨a, s.table ++ (List.range' lo n).map (indexedRef segment_blocks slice)⟩ := by
  induction n generalizing lo s with
  | zero =>
    refine ⟨s.toAddresses, hr, ?_⟩
    simp
  | succ n ih =>
    obtain ⟨a, ha, hstep⟩ := step_indexed_eq s (by omega) hr
    obtain ⟨b, hb, hrest⟩ :=
      ih (lo + 1) (by omega) ⟨a, s.table ++ [indexedRef segment_blocks slice lo]⟩ ha
    refine ⟨b, ?_, ?_⟩
    · rwa [show lo + (n + 1) = lo + 1 + n by omega]
    · rw [List.range'_succ, List.map_cons, List.foldl_cons, hstep, hrest, List.map_cons,
        List.append_assoc]
      rfl

/-- The table has an entry for each block of the first half but the first two. -/
theorem indexedRefCount_toNat (h2 : 2 ≤ segment_blocks.toNat)
    (hlt : segment_blocks.toNat < 2 ^ 30) :
    (indexedRefCount segment_blocks).toNat = 2 * segment_blocks.toNat - 2 := by
  have hnot : ¬ segment_blocks < 2 := by
    rw [UInt32.lt_iff_toNat_lt]
    show ¬ segment_blocks.toNat < 2
    omega
  have hdouble : (2 * segment_blocks).toNat = 2 * segment_blocks.toNat := by
    rw [UInt32.toNat_mul]
    exact Nat.mod_eq_of_lt (show 2 * segment_blocks.toNat < 2 ^ 32 by omega)
  have hle : (2 : UInt32) ≤ 2 * segment_blocks := by
    rw [UInt32.le_iff_toNat_le, hdouble]
    show 2 ≤ 2 * segment_blocks.toNat
    omega
  unfold indexedRefCount
  rw [if_neg hnot, UInt32.toNat_toUInt64, UInt32.toNat_sub_of_le _ _ hle, hdouble]
  rfl

/-- The references of slice 0 from position 2 on, then those of slice 1. -/
theorem generateIndexedRefTable_eq (h2 : 2 ≤ segment_blocks.toNat)
    (hlt : segment_blocks.toNat < 2 ^ 30) :
    generateIndexedRefTable segment_blocks =
      (List.range' 2 (segment_blocks.toNat - 2)).map (indexedRef segment_blocks 0) ++
        (List.range' 0 segment_blocks.toNat).map (indexedRef segment_blocks 1) := by
  -- slice 0 starts at column 2, slice 1 at column 0
  have hcount : indexedRefCount segment_blocks ≠ 0 := by
    intro h0
    have hnat := indexedRefCount_toNat h2 hlt
    rw [h0, UInt64.toNat_zero] at hnat
    omega
  obtain ⟨a, ha, hslice₀⟩ := foldl_step_indexed 2 (segment_blocks.toNat - 2) (by omega)
    ⟨firstAddresses segment_blocks, []⟩ (firstAddresses_ready segment_blocks)
  obtain ⟨b, -, hslice₁⟩ := foldl_step_indexed 0 segment_blocks.toNat (by omega)
    ⟨{ a with thread_input := nextSlice a.thread_input },
      (List.range' 2 (segment_blocks.toNat - 2)).map (indexedRef segment_blocks 0)⟩ ha.nextSlice
  unfold generateIndexedRefTable
  rw [if_neg hcount]
  simp only [next_addresses1_eq]
  have hfirst : (offsets 2 segment_blocks).foldl (stepIndexed segment_blocks 0)
      ⟨firstAddresses segment_blocks, []⟩ =
      ⟨a, (List.range' 2 (segment_blocks.toNat - 2)).map (indexedRef segment_blocks 0)⟩ :=
        hslice₀
  have hsecond := congrArg Generator.table hslice₁
  exact (congrArg (fun s : Generator => ((offsets 0 segment_blocks).foldl
    (stepIndexed segment_blocks 1)
    { s with thread_input := nextSlice s.thread_input }).table) hfirst).trans hsecond

/-- And so many are generated. -/
theorem length_generateIndexedRefTable (h2 : 2 ≤ segment_blocks.toNat)
    (hlt : segment_blocks.toNat < 2 ^ 30) :
    (generateIndexedRefTable segment_blocks).length = (indexedRefCount segment_blocks).toNat := by
  rw [generateIndexedRefTable_eq h2 hlt, indexedRefCount_toNat h2 hlt, List.length_append,
    List.length_map, List.length_map, List.length_range', List.length_range']
  omega

/-- The place of a position in the table. -/
theorem indexedRefIndex_toNat {offset : UInt32} (h2 : 2 ≤ segment_blocks.toNat)
    (hlt : segment_blocks.toNat < 2 ^ 30) (hs : slice.toNat < 2)
    (ho : offset.toNat < segment_blocks.toNat)
    (hj : 2 ≤ slice.toNat * segment_blocks.toNat + offset.toNat) :
    (indexedRefIndex slice offset segment_blocks).toNat =
      slice.toNat * segment_blocks.toNat + offset.toNat - 2 := by
  unfold indexedRefIndex
  by_cases h0 : slice = 0
  · rw [h0, UInt32.toNat_zero, Nat.zero_mul, Nat.zero_add] at hj ⊢
    rw [if_pos rfl, UInt32.toNat_toUInt64, UInt32.toNat_sub_of_le]
    · rfl
    · exact UInt32.le_iff_toNat_le.mpr hj
  · have hone : slice.toNat = 1 := by
      have hne : slice.toNat ≠ 0 := fun h => h0 (UInt32.toNat_inj.mp h)
      omega
    have hpred : (segment_blocks - 2).toNat = segment_blocks.toNat - 2 :=
      UInt32.toNat_sub_of_le _ _ (UInt32.le_iff_toNat_le.mpr h2)
    rw [if_neg h0, UInt32.toNat_toUInt64, UInt32.toNat_add, hpred, hone,
      Nat.mod_eq_of_lt (by omega)]
    omega

/-- The entry of a position is its reference. -/
theorem generateIndexedRefTable_get (slice offset : UInt32) (h2 : 2 ≤ segment_blocks.toNat)
    (hlt : segment_blocks.toNat < 2 ^ 30) (hs : slice.toNat < 2)
    (ho : offset.toNat < segment_blocks.toNat)
    (hj : 2 ≤ slice.toNat * segment_blocks.toNat + offset.toNat) :
    (generateIndexedRefTable segment_blocks)[(indexedRefIndex slice offset segment_blocks).toNat]? =
      some (indexedRef segment_blocks slice offset.toNat) := by
  rw [generateIndexedRefTable_eq h2 hlt, indexedRefIndex_toNat h2 hlt hs ho hj]
  -- the entries of slice 1 stand behind those of slice 0
  by_cases h0 : slice = 0
  · rw [h0, UInt32.toNat_zero, Nat.zero_mul, Nat.zero_add] at hj ⊢
    have hplace : 2 + 1 * (offset.toNat - 2) = offset.toNat := by omega
    rw [List.getElem?_append_left (by simp; omega), List.getElem?_map,
      List.getElem?_range' (by omega), hplace]
    rfl
  · have hone : slice = 1 := by
      apply UInt32.toNat_inj.mp
      have hne : slice.toNat ≠ 0 := fun h => h0 (UInt32.toNat_inj.mp h)
      show slice.toNat = 1
      omega
    have hplace : UInt32.toNat 1 * segment_blocks.toNat + offset.toNat - 2 -
        (segment_blocks.toNat - 2) = offset.toNat := by
      show 1 * segment_blocks.toNat + offset.toNat - 2 - (segment_blocks.toNat - 2) = offset.toNat
      omega
    rw [hone, List.getElem?_append_right (by simp; omega), List.getElem?_map, List.length_map,
      List.length_range', hplace, List.getElem?_range' ho, Nat.one_mul, Nat.zero_add]
    rfl

/-- It lies before the block that comes before the position. -/
theorem indexedRef_lt {offset : Nat} (hlt : segment_blocks.toNat < 2 ^ 30) (hs : slice.toNat < 2)
    (ho : offset < segment_blocks.toNat) (hj : 2 ≤ slice.toNat * segment_blocks.toNat + offset) :
    (indexedRef segment_blocks slice offset).toNat <
      slice.toNat * segment_blocks.toNat + offset - 1 := by
  have hoff : (UInt32.ofNat offset).toNat = offset :=
    UInt32.toNat_ofNat_of_lt' (show offset < 2 ^ 32 by omega)
  have hsq : slice.toNat * segment_blocks.toNat ≤ 1 * segment_blocks.toNat :=
    Nat.mul_le_mul_right _ (by omega)
  unfold indexedRef
  rw [compute_ref_pos_toNat (by rw [hoff]; omega) (by rw [hoff]; exact hj), hoff]
  exact referenceIndex_lt (by unfold referenceArea; omega)

end Entries

end TreeMiner.Gpu.RefTable

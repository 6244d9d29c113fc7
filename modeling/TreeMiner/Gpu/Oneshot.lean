import TreeMiner.Gpu.Warp
import TreeMiner.Lib.Footprint

/-!
# The oneshot kernel (`kernelrunner.cu`, `hashapi/OneshotLaunch.h`)

`argon2_kernel_oneshot` fills the memory of one job per warp. A warp is a program over the
global memory, whose cells are blocks; its threads run in lockstep, so a load or a store of
a block is one operation. Shared memory is a warp's own (`shared[warp]`) and lives in the
program.

A warp alone fills its part of the memory as `Argon2.argon2id` says (`lane_eval`) and keeps
to the blocks of its job (`lane_within`).
-/

namespace TreeMiner.Gpu

open Argon2 Interleave

/-! ## The kernel -/

/-- A device function of a warp. -/
abbrev Kernel (α : Type) := Prog (memSig Nat BlockG) α

/-- Read a block of global memory. -/
def load (a : Nat) : Kernel BlockG := Prog.call (S := memSig Nat BlockG) (.load a)

/-- Write one. -/
def store (a : Nat) (b : BlockG) : Kernel Unit := Prog.call (S := memSig Nat BlockG) (.store a b)

def ARGON2_SYNC_POINTS : UInt32 := 4

def ARGON2_QWORDS_IN_BLOCK : UInt32 := 128

/-- `u64_shuffle`: the halves are read one after the other. -/
def u64Shuffle (v : Fin 32 → UInt64) (thread_src : UInt32) : UInt64 :=
  u64Build (shfl (fun t => u64Hi (v t)) thread_src.toNat)
    (shfl (fun t => u64Lo (v t)) thread_src.toNat)

/-- `compute_ref_pos`. -/
def computeRefPos (segment_blocks slice offset ref_index : UInt32) : UInt32 :=
  let ref_area_size := slice * segment_blocks + offset - 1
  let index := umulhi ref_index ref_index
  ref_area_size - 1 - umulhi ref_area_size index

/-- `argon2_core`. -/
def argon2Core (memory mem_curr : Nat) (prev : Warp UInt64) (ref_index : UInt32) :
    Kernel (Warp UInt64) := do
  let mem_ref ← load (memory + ref_index.toNat)
  let prev := loadBlockXor prev mem_ref
  let tmp := blockLStore prev
  let prev := shuffleBlock g1 prev
  let prev := blockLLoadXor prev tmp
  store mem_curr (storeBlock prev)
  pure prev

/-- Where a warp stands: `mem_curr`, and `prev` in its registers. -/
structure Cursor where
  mem_curr : Nat
  prev : Warp UInt64

/-- `argon2_core`, and the increment of `mem_curr` after it. -/
def coreStep (memory : Nat) (ref_index : UInt32) (c : Cursor) : Kernel Cursor := do
  let prev ← argon2Core memory c.mem_curr c.prev ref_index
  pure ⟨c.mem_curr + 1, prev⟩

/-- The state of address generation: `addr` and `thread_input`. -/
structure Addresses where
  addr : Warp UInt64
  thread_input : Fin 32 → UInt32

structure Registers extends Cursor, Addresses

/-- The address blocks of `argon2_step_indexed`: a new one every 128 positions. -/
def refresh (r : Addresses) (addr_index : UInt32) : Addresses :=
  if addr_index = 0 then
    let thread_input := Function.update r.thread_input 6 (r.thread_input 6 + 1)
    ⟨nextAddresses1 thread_input, thread_input⟩
  else r

/-- The value `argon2_step_indexed` takes from the address block. -/
def addressAt (addr : Warp UInt64) (addr_index : UInt32) : UInt32 :=
  let thr := addr_index % 32
  let idx := addr_index / 32
  u64Lo (u64Shuffle (fun t => blockThGetUniform (addr t) idx.toNat) thr)

/-- `argon2_step_indexed`. -/
def argon2StepIndexed (memory : Nat) (segment_blocks slice offset : UInt32) (r : Registers) :
    Kernel Registers := do
  let addr_index := offset % ARGON2_QWORDS_IN_BLOCK
  let a := refresh r.toAddresses addr_index
  let ref_index := computeRefPos segment_blocks slice offset (addressAt a.addr addr_index)
  let c ← coreStep memory ref_index r.toCursor
  pure ⟨c, a⟩

/-- `argon2_step_dependent`. -/
def argon2StepDependent (memory : Nat) (segment_blocks slice offset : UInt32) (c : Cursor) :
    Kernel Cursor :=
  let v := u64Shuffle (fun t => (c.prev t).a) 0
  coreStep memory (computeRefPos segment_blocks slice offset (u64Lo v)) c

/-- `n` turns of a loop, from `i` on. -/
def turns {σ : Type} (body : UInt32 → σ → Kernel σ) : Nat → UInt32 → σ → Kernel σ
  | 0, _, s => pure s
  | n + 1, i, s => do
    let s ← body i s
    turns body n (i + 1) s

/-- `for (uint32_t i = lo; i < hi; ++i)`. -/
def forLoop {σ : Type} (lo hi : UInt32) (body : UInt32 → σ → Kernel σ) (s : σ) :
    Kernel σ :=
  turns body (hi.toNat - lo.toNat) lo s

/-- The initial `thread_input` of the threads. -/
def firstInput (lane_blocks : UInt32) (thread : Fin 32) : UInt32 :=
  (if thread = 3 then 1 else 0) * lane_blocks + (if thread = 4 then 1 else 0) +
    (if thread = 5 then 1 else 0) * 2 + (if thread = 6 then 1 else 0)

/-- Slices 2 and 3, the same in both kernels. -/
def dependentHalf (memory : Nat) (segment_blocks : UInt32) (c : Cursor) : Kernel Cursor :=
  forLoop 2 ARGON2_SYNC_POINTS (fun slice c =>
    forLoop 0 segment_blocks (argon2StepDependent memory segment_blocks slice) c) c

/-- `thread_input` between the slices 0 and 1. -/
def nextSlice (thread_input : Fin 32 → UInt32) : Fin 32 → UInt32 :=
  Function.update (Function.update thread_input 2 (thread_input 2 + 1)) 6 0

/-- Before the first step; `prev` is the second block. -/
def firstCursor (memory : Nat) (mem_prev : BlockG) : Cursor := ⟨memory + 2, loadBlock mem_prev⟩

def firstAddresses (segment_blocks : UInt32) : Addresses :=
  let thread_input := firstInput (ARGON2_SYNC_POINTS * segment_blocks)
  ⟨nextAddresses1 thread_input, thread_input⟩

/-- The kernel from where `memory` points to the blocks of the job. -/
def argon2Lane (memory : Nat) (segment_blocks : UInt32) : Kernel Unit := do
  let mem_prev ← load (memory + 1)
  let r : Registers := ⟨firstCursor memory mem_prev, firstAddresses segment_blocks⟩
  let r ← forLoop 2 segment_blocks (argon2StepIndexed memory segment_blocks 0) r
  let r := { r with thread_input := nextSlice r.thread_input }
  let r ← forLoop 0 segment_blocks (argon2StepIndexed memory segment_blocks 1) r
  let _ ← dependentHalf memory segment_blocks r.toCursor
  pure ()

/-- `argon2_kernel_oneshot`, for a warp of a thread block. -/
def argon2KernelOneshot (segment_blocks batch_size warps_per_block blockIdx warp : UInt32) :
    Kernel Unit :=
  let jobId := blockIdx * warps_per_block + warp
  if jobId ≥ batch_size then pure ()
  else
    let lane_blocks := ARGON2_SYNC_POINTS * segment_blocks
    argon2Lane (jobId.toUInt64 * lane_blocks.toUInt64).toNat segment_blocks

/-! ## One step, alone -/

/-- A load reads the block at its address and leaves the memory. -/
@[simp] theorem load_eval (a : Nat) (m : Nat → BlockG) : (load a).eval m = (m a, m) := rfl

/-- A shuffle of a 64-bit word is one of its two halves. -/
theorem u64_shuffle_eq (v : Fin 32 → UInt64) (src : UInt32) :
    u64Shuffle v src = shfl v src.toNat := u64_build_parts _

/-- The core writes the compression of the previous block and the referenced one to the current
place. -/
theorem argon2_core_eval (memory mem_curr : Nat) (prev : Warp UInt64) (ref_index : UInt32)
    (m : Nat → BlockG) :
    (argon2Core memory mem_curr prev ref_index).eval m =
      (loadBlock (compress (storeBlock prev) (m (memory + ref_index.toNat))),
        Function.update m mem_curr
          (compress (storeBlock prev) (m (memory + ref_index.toNat)))) := by
  have hnew : ∀ ref : BlockG, storeBlock (blockLLoadXor (shuffleBlock g1
      (loadBlockXor prev ref)) (blockLStore (loadBlockXor prev ref))) =
      compress (storeBlock prev) ref := by
    intro ref
    rw [store_block_l_xor, store_shuffle_block, store_load_block_xor]
    rfl
  have hreg : ∀ ref : BlockG, blockLLoadXor (shuffleBlock g1 (loadBlockXor prev ref))
      (blockLStore (loadBlockXor prev ref)) = loadBlock (compress (storeBlock prev) ref) := by
    intro ref
    rw [← hnew, load_store_block]
  refine Prod.ext (hreg _) ?_
  exact congrArg (Function.update m mem_curr) (hnew _)

section Arithmetic

variable {segment_blocks slice offset ref_index : UInt32}

/-- The reference position, without overflow. -/
theorem compute_ref_pos_toNat (hlt : slice.toNat * segment_blocks.toNat + offset.toNat < 2 ^ 32)
    (hle : 2 ≤ slice.toNat * segment_blocks.toNat + offset.toNat) :
    (computeRefPos segment_blocks slice offset ref_index).toNat =
      referenceIndex (referenceArea segment_blocks.toNat slice.toNat offset.toNat)
        ref_index.toNat := by
  -- no step of the 32-bit computation wraps, as the area is less than the job
  have harea : (slice * segment_blocks + offset - 1).toNat =
      slice.toNat * segment_blocks.toNat + offset.toNat - 1 := by
    have hmul : slice.toNat * segment_blocks.toNat < 2 ^ 32 := by omega
    have hsum : (slice * segment_blocks + offset).toNat =
        slice.toNat * segment_blocks.toNat + offset.toNat := by
      rw [UInt32.toNat_add, UInt32.toNat_mul, Nat.mod_eq_of_lt hmul, Nat.mod_eq_of_lt hlt]
    have hone : (1 : UInt32) ≤ slice * segment_blocks + offset := by
      rw [UInt32.le_iff_toNat_le, hsum]
      exact Nat.le_of_succ_le hle
    rw [UInt32.toNat_sub_of_le _ _ hone, hsum]
    rfl
  unfold computeRefPos referenceIndex referenceArea
  dsimp only
  generalize slice * segment_blocks + offset - 1 = area at harea ⊢
  rw [← harea]
  have hpos : 1 ≤ area.toNat := by omega
  have hy : area.toNat * (ref_index.toNat * ref_index.toNat / 2 ^ 32) / 2 ^ 32 < area.toNat := by
    have hx : ref_index.toNat * ref_index.toNat / 2 ^ 32 < 2 ^ 32 := by
      rw [← umulhi_toNat]
      exact UInt32.toNat_lt _
    rw [Nat.div_lt_iff_lt_mul (by decide)]
    exact Nat.mul_lt_mul_of_pos_left hx hpos
  have hone : (1 : UInt32) ≤ area := by
    rw [UInt32.le_iff_toNat_le]
    exact hpos
  have hpred : (area - 1).toNat = area.toNat - 1 := UInt32.toNat_sub_of_le _ _ hone
  have hle' : umulhi area (umulhi ref_index ref_index) ≤ area - 1 := by
    rw [UInt32.le_iff_toNat_le, hpred, umulhi_toNat, umulhi_toNat]
    omega
  rw [UInt32.toNat_sub_of_le _ _ hle', hpred, umulhi_toNat, umulhi_toNat]

end Arithmetic

/-! ## Loops -/

section Loops

variable {σ : Type} (lo hi : UInt32) (body : UInt32 → σ → Kernel σ)

/-- What every turn keeps holds after the loop. -/
theorem forLoop_eval {I : Nat → σ → (Nat → BlockG) → Prop}
    (hstep : ∀ k : Nat, lo.toNat ≤ k → k < hi.toNat → ∀ s m, I k s m →
      I (k + 1) ((body (UInt32.ofNat k) s).eval m).1 ((body (UInt32.ofNat k) s).eval m).2)
    (hle : lo.toNat ≤ hi.toNat) {s : σ} {m : Nat → BlockG} (h0 : I lo.toNat s m) :
    I hi.toNat ((forLoop lo hi body s).eval m).1 ((forLoop lo hi body s).eval m).2 := by
  -- by induction on the turns left, with the counter at `k`
  have hturns : ∀ (n k : Nat) s m, lo.toNat ≤ k → k + n = hi.toNat → I k s m →
      I hi.toNat ((turns body n (UInt32.ofNat k) s).eval m).1
        ((turns body n (UInt32.ofNat k) s).eval m).2 := by
    intro n
    induction n with
    | zero =>
      intro k s m _ hk h
      rw [Nat.add_zero] at hk
      rw [← hk]
      exact h
    | succ n ih =>
      intro k s m hlo hk h
      have hnext := ih (k + 1) _ _ (Nat.le_succ_of_le hlo) (by omega) (hstep k hlo (by omega) s m h)
      rw [show turns body (n + 1) (UInt32.ofNat k) s = (body (UInt32.ofNat k) s).bind
        (turns body n (UInt32.ofNat k + 1)) from rfl, Prog.eval_bind]
      rw [UInt32.ofNat_add] at hnext
      exact hnext
  have := hturns (hi.toNat - lo.toNat) lo.toNat s m le_rfl (by omega) h0
  rw [UInt32.ofNat_toNat] at this
  exact this

/-- The region that every turn keeps to, the loop keeps to. -/
theorem forLoop_within {R : Nat → Prop} {I : Nat → σ → Prop}
    (hstep : ∀ k : Nat, lo.toNat ≤ k → k < hi.toNat → ∀ s, I k s →
      (body (UInt32.ofNat k) s).Within R (I (k + 1)))
    (hle : lo.toNat ≤ hi.toNat) {s : σ} (h0 : I lo.toNat s) :
    (forLoop lo hi body s).Within R (I hi.toNat) := by
  have hturns : ∀ (n k : Nat) s, lo.toNat ≤ k → k + n = hi.toNat → I k s →
      (turns body n (UInt32.ofNat k) s).Within R (I hi.toNat) := by
    intro n
    induction n with
    | zero =>
      intro k s _ hk h
      rw [Nat.add_zero] at hk
      rw [← hk]
      exact h
    | succ n ih =>
      intro k s hlo hk h
      refine (hstep k hlo (by omega) s h).bind fun s' hs' => ?_
      have hnext := ih (k + 1) s' (Nat.le_succ_of_le hlo) (by omega) hs'
      rw [UInt32.ofNat_add] at hnext
      exact hnext
  have := hturns (hi.toNat - lo.toNat) lo.toNat s le_rfl (by omega) h0
  rw [UInt32.ofNat_toNat] at this
  exact this

end Loops

/-! ## Addresses -/

/-- `thread_input` in a slice, with the counter in thread 6. -/
def threadInput (slice lane_blocks counter : UInt32) : Fin 32 → UInt32
  | 2 => slice
  | 3 => lane_blocks
  | 4 => 1
  | 5 => 2
  | 6 => counter
  | _ => 0

/-- The input that the threads hold between them is the input block of the address generator. -/
theorem inputBlock_threadInput (slice lane_blocks counter : UInt32) :
    inputBlock (threadInput slice lane_blocks counter) =
      addressInput slice.toNat lane_blocks.toNat counter.toNat := by
  have hnat : ∀ x : UInt32, x.toUInt64 = UInt64.ofNat x.toNat := by
    intro x
    apply UInt64.toNat_inj.mp
    rw [UInt32.toNat_toUInt64, UInt64.toNat_ofNat_of_lt']
    exact Nat.lt_trans x.toNat_lt (by decide)
  funext w
  fin_cases w <;> first | rfl | exact hnat _

theorem firstInput_eq (lane_blocks : UInt32) :
    firstInput lane_blocks = threadInput 0 lane_blocks 1 := by
  funext thread
  fin_cases thread <;> simp [firstInput, threadInput]

/-- The counter in the sixth word goes up by one. -/
theorem threadInput_bump (slice lane_blocks counter : UInt32) :
    Function.update (threadInput slice lane_blocks counter) 6
      (threadInput slice lane_blocks counter 6 + 1) =
        threadInput slice lane_blocks (counter + 1) := by
  funext thread
  fin_cases thread <;> rfl

/-- At the end of a slice the next one is entered and the counter starts again. -/
theorem nextSlice_eq (slice lane_blocks counter : UInt32) :
    nextSlice (threadInput slice lane_blocks counter) = threadInput (slice + 1) lane_blocks 0 := by
  funext thread
  fin_cases thread <;> rfl

/-- Before position `offset` of a slice: the counter, and the address block in use unless a
new one is due. -/
structure Ready (lane_blocks slice : UInt32) (offset : Nat) (r : Addresses) : Prop where
  input : r.thread_input = threadInput slice lane_blocks (UInt32.ofNat ((offset + 127) / 128))
  addr : offset % 128 ≠ 0 →
    storeBlock r.addr = addressBlock slice.toNat lane_blocks.toNat (offset / 128 + 1)

section Addresses

variable {lane_blocks slice : UInt32} {offset : Nat} {r : Addresses}

/-- The addresses the warp computes are the address block of its counter. -/
theorem store_address (slice lane_blocks : UInt32) (counter : Nat) (hc : counter < 2 ^ 32) :
    storeBlock (nextAddresses1 (threadInput slice lane_blocks (UInt32.ofNat counter))) =
      addressBlock slice.toNat lane_blocks.toNat counter := by
  rw [store_next_addresses1, inputBlock_threadInput, UInt32.toNat_ofNat_of_lt' hc]
  rfl

/-- After the refresh the thread's addresses are those of the offset, and it is ready for the next
one. -/
theorem Ready.next (hr : Ready lane_blocks slice offset r) (hlt : offset < 2 ^ 32) :
    storeBlock (refresh r (UInt32.ofNat (offset % 128))).addr =
        addressBlock slice.toNat lane_blocks.toNat (offset / 128 + 1) ∧
      Ready lane_blocks slice (offset + 1) (refresh r (UInt32.ofNat (offset % 128))) := by
  have hnext : (offset + 1 + 127) / 128 = offset / 128 + 1 := by omega
  unfold refresh
  -- every 128 columns the next block of addresses is made
  by_cases h0 : offset % 128 = 0
  · rw [h0, if_pos (show UInt32.ofNat 0 = 0 from rfl)]
    dsimp only
    have hinput : Function.update r.thread_input 6 (r.thread_input 6 + 1) =
        threadInput slice lane_blocks (UInt32.ofNat (offset / 128 + 1)) := by
      rw [hr.input, threadInput_bump, UInt32.ofNat_add,
        show (offset + 127) / 128 = offset / 128 by omega]
      rfl
    have haddr := store_address slice lane_blocks (offset / 128 + 1) (by omega)
    rw [hinput]
    refine ⟨haddr, ⟨by rw [hnext], fun hne => ?_⟩⟩
    rw [show (offset + 1) / 128 = offset / 128 by omega]
    exact haddr
  · have hne : UInt32.ofNat (offset % 128) ≠ 0 := by
      intro h
      have := congrArg UInt32.toNat h
      rw [UInt32.toNat_ofNat_of_lt' (show offset % 128 < 2 ^ 32 by omega)] at this
      exact h0 this
    rw [if_neg hne]
    refine ⟨hr.addr h0, ⟨?_, fun h1 => ?_⟩⟩
    · rw [hr.input, hnext, show (offset + 127) / 128 = offset / 128 + 1 by omega]
    · rw [hr.addr h0, show (offset + 1) / 128 = offset / 128 by omega]

/-- An address is taken from the warp by its index in the block. -/
theorem addressAt_eq (addr : Warp UInt64) {i : Nat} (hi : i < 128) :
    addressAt addr (UInt32.ofNat i) = u64Lo (storeBlock addr ⟨i, hi⟩) := by
  have hnat : (UInt32.ofNat i).toNat = i := UInt32.toNat_ofNat_of_lt' (show i < 2 ^ 32 by omega)
  unfold addressAt storeBlock
  dsimp only
  rw [u64_shuffle_eq]
  unfold shfl
  simp only [UInt32.toNat_mod, UInt32.toNat_div, hnat, show (32 : UInt32).toNat = 32 from rfl,
    Nat.mod_mod]

end Addresses

/-! ## A warp alone -/

/-- Before block `j` of a job at `base`: where the next block goes, the block before it in
the registers, and the memory filled so far. -/
structure At (q base : Nat) (first : Nat → BlockG) (j : Nat) (c : Cursor)
    (m : Nat → BlockG) : Prop where
  curr : c.mem_curr = base + j
  prev : c.prev = loadBlock (m (base + (j - 1)))
  mem : (fun k => m (base + k)) = fill q first (j - 2)

section Alone

variable {q base : Nat} {first m : Nat → BlockG} {j : Nat} {c : Cursor}

/-- One block, with the right reference. -/
theorem At.coreStep (h : At q base first j c m) (hj : 2 ≤ j) {ref_index : UInt32}
    (href : ref_index.toNat = reference q (fun k => m (base + k)) j) :
    let e := (coreStep base ref_index c).eval m
    At q base first (j + 1) e.1 e.2 := by
  unfold Gpu.coreStep
  simp only [Prog.bind_eq, Prog.pure_eq, Prog.eval_bind, Prog.eval, argon2_core_eval]
  rw [h.prev, store_load_block, href, h.curr]
  refine ⟨Nat.add_assoc _ _ _, ?_, ?_⟩
  · dsimp only
    rw [Nat.add_sub_cancel, Function.update_self]
  · have hview : (fun k => Function.update m (base + j) (compress (m (base + (j - 1)))
        (m (base + reference q (fun k => m (base + k)) j))) (base + k)) =
        fillBlock q (fun k => m (base + k)) j := by
      funext k
      unfold fillBlock
      by_cases hk : k = j
      · rw [hk, Function.update_self, Function.update_self]
      · rw [Function.update_of_ne hk, Function.update_of_ne (by omega)]
    rw [hview, h.mem, show j + 1 - 2 = (j - 2) + 1 by omega, fill, show j - 2 + 2 = j by omega]

variable {segment_blocks : UInt32} (slice : UInt32) {offset : Nat}

/-- The place of block `slice * q + offset`. -/
theorem place_div (ho : offset < q) (hs : j = slice.toNat * q + offset) :
    j / q = slice.toNat ∧ j % q = offset := by
  have hq : 0 < q := Nat.lt_of_le_of_lt (Nat.zero_le _) ho
  rw [hs, Nat.add_comm]
  refine ⟨?_, ?_⟩
  · rw [Nat.add_mul_div_right _ _ hq, Nat.div_eq_of_lt ho, Nat.zero_add]
  · rw [Nat.add_mul_mod_self_right, Nat.mod_eq_of_lt ho]

/-- The reference of a position whose value is known. -/
theorem ref_eq (hq : segment_blocks.toNat = q) (hlt : q < 2 ^ 30) (hs : slice.toNat < 4)
    (ho : offset < q) (hj : 2 ≤ slice.toNat * q + offset) {value : UInt32}
    (hv : value.toNat =
      pseudoRandom q slice.toNat offset (m (base + (slice.toNat * q + offset - 1)))) :
    (computeRefPos segment_blocks slice (UInt32.ofNat offset) value).toNat =
      reference q (fun k => m (base + k)) (slice.toNat * q + offset) := by
  have hoff : (UInt32.ofNat offset).toNat = offset :=
    UInt32.toNat_ofNat_of_lt' (show offset < 2 ^ 32 by omega)
  have hsq : slice.toNat * q ≤ 3 * q := Nat.mul_le_mul_right q (by omega)
  obtain ⟨hdiv, hmod⟩ := place_div slice ho rfl
  rw [compute_ref_pos_toNat (by rw [hq, hoff]; omega) (by rw [hq, hoff]; exact hj), hq, hoff, hv]
  unfold reference
  rw [hdiv, hmod]

/-- The value that address generation gives for a position. -/
def indexedValue (segment_blocks slice : UInt32) (offset : Nat) : UInt32 :=
  u64Lo (addressBlock slice.toNat (ARGON2_SYNC_POINTS * segment_blocks).toNat (offset / 128 + 1)
    ⟨offset % 128, word_lt offset⟩)

/-- The reference of a position in the first two slices. -/
def indexedRef (segment_blocks slice : UInt32) (offset : Nat) : UInt32 :=
  computeRefPos segment_blocks slice (UInt32.ofNat offset)
    (indexedValue segment_blocks slice offset)

/-- Address generation gives the value of the position, and is ready for the next one. -/
theorem Ready.step {a : Addresses} {slice : UInt32} (ho : offset < 2 ^ 32)
    (hr : Ready (ARGON2_SYNC_POINTS * segment_blocks) slice offset a) :
    let addr_index := UInt32.ofNat offset % ARGON2_QWORDS_IN_BLOCK
    addressAt (refresh a addr_index).addr addr_index = indexedValue segment_blocks slice offset ∧
      Ready (ARGON2_SYNC_POINTS * segment_blocks) slice (offset + 1) (refresh a addr_index) := by
  have hmod : UInt32.ofNat offset % ARGON2_QWORDS_IN_BLOCK = UInt32.ofNat (offset % 128) := by
    apply UInt32.toNat_inj.mp
    rw [UInt32.toNat_mod, UInt32.toNat_ofNat_of_lt' ho,
      UInt32.toNat_ofNat_of_lt' (show offset % 128 < 2 ^ 32 by omega)]
    rfl
  obtain ⟨haddr, hready⟩ := hr.next ho
  rw [hmod]
  refine ⟨?_, hready⟩
  rw [addressAt_eq _ (Nat.mod_lt _ (by decide)), haddr]
  rfl

/-- A data-independent step refers to the block that its position says. -/
theorem argon2_step_indexed_eq {a : Addresses} (memory : Nat) (ho : offset < 2 ^ 32)
    (hr : Ready (ARGON2_SYNC_POINTS * segment_blocks) slice offset a) :
    ∃ a', Ready (ARGON2_SYNC_POINTS * segment_blocks) slice (offset + 1) a' ∧
      ∀ c, argon2StepIndexed memory segment_blocks slice (UInt32.ofNat offset) ⟨c, a⟩ =
        (coreStep memory (indexedRef segment_blocks slice offset) c).bind
          fun c => pure ⟨c, a'⟩ := by
  obtain ⟨hvalue, hready⟩ := hr.step ho
  refine ⟨_, hready, fun c => ?_⟩
  unfold argon2StepIndexed
  dsimp only
  rw [hvalue]
  rfl

/-- A data-independent step computes the next block. -/
theorem At.indexed {r : Registers} (hq : segment_blocks.toNat = q) (hlt : q < 2 ^ 30)
    (hs : slice.toNat < 2) (ho : offset < q) (hj : 2 ≤ slice.toNat * q + offset)
    (h : At q base first (slice.toNat * q + offset) r.toCursor m)
    (hr : Ready (ARGON2_SYNC_POINTS * segment_blocks) slice offset r.toAddresses) :
    let e := (argon2StepIndexed base segment_blocks slice (UInt32.ofNat offset) r).eval m
    At q base first (slice.toNat * q + (offset + 1)) e.1.toCursor e.2 ∧
      Ready (ARGON2_SYNC_POINTS * segment_blocks) slice (offset + 1) e.1.toAddresses := by
  have hlane : (ARGON2_SYNC_POINTS * segment_blocks).toNat = 4 * q := by
    rw [UInt32.toNat_mul, hq]
    exact Nat.mod_eq_of_lt (show 4 * q < 2 ^ 32 by omega)
  have hvalue : (indexedValue segment_blocks slice offset).toNat =
      pseudoRandom q slice.toNat offset (m (base + (slice.toNat * q + offset - 1))) := by
    unfold indexedValue pseudoRandom
    rw [u64_lo_toNat, hlane, if_pos hs]
  obtain ⟨a, hready, heq⟩ := argon2_step_indexed_eq slice base (by omega) hr
  have hcore := h.coreStep hj (ref_eq slice hq hlt (by omega) ho hj hvalue)
  rw [heq r.toCursor]
  simp only [Prog.pure_eq, Prog.eval_bind, Prog.eval]
  exact ⟨hcore, hready⟩

/-- A data-dependent step does, too. -/
theorem At.dependent (hq : segment_blocks.toNat = q) (hlt : q < 2 ^ 30) (hs : 2 ≤ slice.toNat)
    (hs4 : slice.toNat < 4) (ho : offset < q) (hj : 2 ≤ slice.toNat * q + offset)
    (h : At q base first (slice.toNat * q + offset) c m) :
    let e := (argon2StepDependent base segment_blocks slice (UInt32.ofNat offset) c).eval m
    At q base first (slice.toNat * q + (offset + 1)) e.1 e.2 := by
  have hword : u64Shuffle (fun t => (c.prev t).a) 0 =
    m (base + (slice.toNat * q + offset - 1)) 0 := by
    rw [u64_shuffle_eq, h.prev]
    rfl
  have hvalue : (u64Lo (u64Shuffle (fun t => (c.prev t).a) 0)).toNat =
      pseudoRandom q slice.toNat offset (m (base + (slice.toNat * q + offset - 1))) := by
    unfold pseudoRandom
    rw [u64_lo_toNat, hword, if_neg (by omega)]
  exact h.coreStep hj (ref_eq slice hq hlt hs4 ho hj hvalue)

/-- The second half of the lane, whose references depend on the data, ends with the whole lane
filled. -/
theorem dependentHalf_eval (hq : segment_blocks.toNat = q) (h2 : 2 ≤ q) (hlt : q < 2 ^ 30)
    (h : At q base first (2 * q) c m) :
    At q base first (4 * q) ((dependentHalf base segment_blocks c).eval m).1
      ((dependentHalf base segment_blocks c).eval m).2 := by
  refine forLoop_eval 2 ARGON2_SYNC_POINTS _
    (I := fun slice c m => At q base first (slice * q) c m) (fun k hk2 hk4 s m hk => ?_)
      (by decide) h
  have hslice : (UInt32.ofNat k).toNat = k :=
    UInt32.toNat_ofNat_of_lt' (Nat.lt_trans hk4 (by decide))
  have hk4' : k < 4 := hk4
  have hk2' : 2 ≤ k := hk2
  have hkq : 2 * q ≤ k * q := Nat.mul_le_mul_right q hk2'
  have hinner := forLoop_eval 0 segment_blocks
    (argon2StepDependent base segment_blocks (UInt32.ofNat k))
    (I := fun offset c m => At q base first (k * q + offset) c m)
    (fun offset _ ho s m hs => ?_) (Nat.zero_le _) hk
  · rw [hq, show k * q + q = (k + 1) * q by rw [Nat.add_mul, Nat.one_mul]] at hinner
    exact hinner
  · rw [hq] at ho
    have hstep := At.dependent (UInt32.ofNat k) hq hlt (by rw [hslice]; exact hk2')
      (by rw [hslice]; exact hk4') ho (by rw [hslice]; omega) (by rw [hslice]; exact hs)
    rw [hslice] at hstep
    exact hstep

/-- A slice of data-independent steps, from position `lo` on. -/
theorem indexedSlice_eval {r : Registers} (lo : UInt32) (hq : segment_blocks.toNat = q)
    (hlt : q < 2 ^ 30) (hs : slice.toNat < 2) (hlo : lo.toNat ≤ q)
    (hj : 2 ≤ slice.toNat * q + lo.toNat)
    (h : At q base first (slice.toNat * q + lo.toNat) r.toCursor m)
    (hr : Ready (ARGON2_SYNC_POINTS * segment_blocks) slice lo.toNat r.toAddresses) :
    let e := (forLoop lo segment_blocks (argon2StepIndexed base segment_blocks slice) r).eval m
    At q base first (slice.toNat * q + q) e.1.toCursor e.2 ∧
      Ready (ARGON2_SYNC_POINTS * segment_blocks) slice q e.1.toAddresses := by
  have hloop := forLoop_eval lo segment_blocks (argon2StepIndexed base segment_blocks slice)
    (I := fun offset r m => At q base first (slice.toNat * q + offset) r.toCursor m ∧
      Ready (ARGON2_SYNC_POINTS * segment_blocks) slice offset r.toAddresses)
    (fun offset hlo' ho s m hs' => ?_) (by rw [hq]; exact hlo) ⟨h, hr⟩
  · rw [hq] at hloop
    exact hloop
  · rw [hq] at ho
    exact At.indexed slice hq hlt hs ho (by omega) hs'.1 hs'.2

end Alone

/-- The first block of a job. -/
def jobBase (segment_blocks job : Nat) : Nat := job * (4 * segment_blocks)

section Warp

variable {segment_blocks : UInt32} {m : Nat → BlockG}

/-- The memory of a job begins where the number of its blocks times the job says, without a wrap. -/
theorem base_eq (hlt : segment_blocks.toNat < 2 ^ 30) (jobId : UInt32) :
    (jobId.toUInt64 * (ARGON2_SYNC_POINTS * segment_blocks).toUInt64).toNat =
      jobBase segment_blocks.toNat jobId.toNat := by
  have hlane : (ARGON2_SYNC_POINTS * segment_blocks).toNat = 4 * segment_blocks.toNat := by
    rw [UInt32.toNat_mul]
    exact Nat.mod_eq_of_lt (show 4 * segment_blocks.toNat < 2 ^ 32 by omega)
  rw [UInt64.toNat_mul, UInt32.toNat_toUInt64, UInt32.toNat_toUInt64, hlane]
  refine Nat.mod_eq_of_lt ?_
  have hprod : jobId.toNat * (4 * segment_blocks.toNat) < 2 ^ 32 * 2 ^ 32 :=
    Nat.mul_lt_mul'' jobId.toNat_lt (by omega)
  exact hprod

theorem firstAddresses_ready (segment_blocks : UInt32) :
    Ready (ARGON2_SYNC_POINTS * segment_blocks) 0 2 (firstAddresses segment_blocks) := by
  refine ⟨firstInput_eq _, fun _ => ?_⟩
  show storeBlock (nextAddresses1 (firstInput (ARGON2_SYNC_POINTS * segment_blocks))) = _
  rw [firstInput_eq]
  exact store_address 0 _ 1 (by decide)

/-- Between the slices the counter goes back to zero. -/
theorem Ready.nextSlice {offset : Nat} {a : Addresses}
    (h : Ready (ARGON2_SYNC_POINTS * segment_blocks) 0 offset a) :
    Ready (ARGON2_SYNC_POINTS * segment_blocks) 1 0
      { a with thread_input := Gpu.nextSlice a.thread_input } := by
  refine ⟨?_, fun h0 => absurd rfl h0⟩
  show Gpu.nextSlice a.thread_input = _
  rw [h.input, nextSlice_eq]
  rfl

/-- The steps of a job at `base`, alone. -/
theorem lane_eval {base q : Nat} (hq : segment_blocks.toNat = q) (h2 : 2 ≤ q) (hlt : q < 2 ^ 30)
    (k : Nat) : ((argon2Lane base segment_blocks).eval m).2 (base + k) =
      argon2id q (fun k => m (base + k)) k := by
  -- the two slices with computed addresses come first, then the half that reads its own blocks
  have hstart : At q base (fun k => m (base + k)) 2 (firstCursor base (m (base + 1))) m :=
    ⟨rfl, rfl, rfl⟩
  have hzero : UInt32.toNat 0 * q + 2 = 2 := by
    rw [UInt32.toNat_zero, Nat.zero_mul]
  obtain ⟨hat₀, hready₀⟩ := indexedSlice_eval (r := ⟨firstCursor base (m (base + 1)),
    firstAddresses segment_blocks⟩) 0 2 hq hlt (by decide) h2 (Nat.le_add_left _ _)
    (by rw [show UInt32.toNat 2 = 2 from rfl, hzero]; exact hstart)
    (firstAddresses_ready segment_blocks)
  unfold argon2Lane
  simp only [Prog.bind_eq, Prog.pure_eq, Prog.eval_bind, Prog.eval, load_eval]
  generalize (forLoop 2 segment_blocks (argon2StepIndexed base segment_blocks 0)
    ⟨firstCursor base (m (base + 1)), firstAddresses segment_blocks⟩).eval m =
      e₀ at hat₀ hready₀ ⊢
  obtain ⟨r₀, m₀⟩ := e₀
  have hplace₀ : UInt32.toNat 0 * q + q = UInt32.toNat 1 * q + UInt32.toNat 0 := by
    show 0 * q + q = 1 * q + 0
    omega
  rw [hplace₀] at hat₀
  obtain ⟨hat₁, -⟩ :=
    indexedSlice_eval (r := ⟨r₀.toCursor, r₀.addr, nextSlice r₀.thread_input⟩)
    1 0 hq hlt (by decide) (Nat.zero_le _)
      (by show 2 ≤ 1 * q + 0; omega) hat₀ hready₀.nextSlice
  generalize (forLoop 0 segment_blocks (argon2StepIndexed base segment_blocks 1)
    ⟨r₀.toCursor, r₀.addr, nextSlice r₀.thread_input⟩).eval m₀ = e₁ at hat₁ ⊢
  obtain ⟨r₁, m₁⟩ := e₁
  have hplace₁ : UInt32.toNat 1 * q + q = 2 * q := by
    show 1 * q + q = 2 * q
    omega
  rw [hplace₁] at hat₁
  exact congrFun (dependentHalf_eval hq h2 hlt hat₁).mem k

end Warp

/-! ## The blocks of a job -/

/-- Block `a` belongs to the job at `base`. -/
def Owns (q base a : Nat) : Prop := base ≤ a ∧ a < base + 4 * q

section Region

variable {q base : Nat} {segment_blocks : UInt32} (slice : UInt32) {offset : Nat} {c : Cursor}

/-- One step of the core reads and writes in the lane of its job. -/
theorem coreStep_within {ref_index : UInt32} {j : Nat} (hj : j < 4 * q)
    (hcurr : c.mem_curr = base + j) (href : ref_index.toNat < 4 * q) :
    (coreStep base ref_index c).Within (Owns q base) fun c' => c'.mem_curr = base + (j + 1) := by
  have hown : Owns q base c.mem_curr := by
    rw [hcurr]
    exact ⟨Nat.le_add_right _ _, Nat.add_lt_add_left hj base⟩
  have hnext : c.mem_curr + 1 = base + (j + 1) := by omega
  exact ⟨⟨Nat.le_add_right _ _, Nat.add_lt_add_left href base⟩,
    fun _ => ⟨hown, fun _ => hnext⟩⟩

/-- Whatever the address says, the reference is a block of the job. -/
theorem ref_lt (hq : segment_blocks.toNat = q) (hlt : q < 2 ^ 30) (hs : slice.toNat < 4)
    (ho : offset < q) (hj : 2 ≤ slice.toNat * q + offset) (ref_index : UInt32) :
    (computeRefPos segment_blocks slice (UInt32.ofNat offset) ref_index).toNat < 4 * q := by
  have hoff : (UInt32.ofNat offset).toNat = offset :=
    UInt32.toNat_ofNat_of_lt' (show offset < 2 ^ 32 by omega)
  have hsq : slice.toNat * q ≤ 3 * q := Nat.mul_le_mul_right q (by omega)
  rw [compute_ref_pos_toNat (by rw [hq, hoff]; omega) (by rw [hq, hoff]; exact hj), hq, hoff]
  have harea : 0 < referenceArea q slice.toNat offset := by
    unfold referenceArea
    omega
  refine Nat.lt_trans (referenceIndex_lt harea) ?_
  unfold referenceArea
  omega

/-- So does a step whose reference is an address that was generated. -/
theorem argon2_step_indexed_within {r : Registers} (hq : segment_blocks.toNat = q)
    (hlt : q < 2 ^ 30) (hs : slice.toNat < 4) (ho : offset < q)
    (hj : 2 ≤ slice.toNat * q + offset) (hcurr : r.mem_curr = base + (slice.toNat * q + offset)) :
    (argon2StepIndexed base segment_blocks slice (UInt32.ofNat offset) r).Within (Owns q base)
      fun r' => r'.mem_curr = base + (slice.toNat * q + (offset + 1)) := by
  have hsq : slice.toNat * q ≤ 3 * q := Nat.mul_le_mul_right q (by omega)
  exact (coreStep_within (by omega) hcurr (ref_lt slice hq hlt hs ho hj _)).bind fun _ hc => hc

/-- And one whose reference comes from the previous block. -/
theorem argon2_step_dependent_within (hq : segment_blocks.toNat = q) (hlt : q < 2 ^ 30)
    (hs : slice.toNat < 4) (ho : offset < q) (hj : 2 ≤ slice.toNat * q + offset)
    (hcurr : c.mem_curr = base + (slice.toNat * q + offset)) :
    (argon2StepDependent base segment_blocks slice (UInt32.ofNat offset) c).Within (Owns q base)
      fun c' => c'.mem_curr = base + (slice.toNat * q + (offset + 1)) := by
  have hsq : slice.toNat * q ≤ 3 * q := Nat.mul_le_mul_right q (by omega)
  exact coreStep_within (j := slice.toNat * q + offset) (by omega) hcurr
    (ref_lt slice hq hlt hs ho hj _)

/-- And with them the whole second half. -/
theorem dependentHalf_within (hq : segment_blocks.toNat = q) (h2 : 2 ≤ q) (hlt : q < 2 ^ 30)
    (hcurr : c.mem_curr = base + 2 * q) :
    (dependentHalf base segment_blocks c).Within (Owns q base) fun _ => True := by
  refine Prog.Within.mono (fun _ h => h) (fun _ _ => trivial) (forLoop_within 2 ARGON2_SYNC_POINTS _
    (I := fun slice c => c.mem_curr = base + slice * q) (fun k hk2 hk4 s hk => ?_)
      (by decide) hcurr)
  have hslice : (UInt32.ofNat k).toNat = k :=
    UInt32.toNat_ofNat_of_lt' (Nat.lt_trans hk4 (by decide))
  have hk4' : k < 4 := hk4
  have hk2' : 2 ≤ k := hk2
  have hkq : 2 * q ≤ k * q := Nat.mul_le_mul_right q hk2'
  have hinner := forLoop_within 0 segment_blocks
    (argon2StepDependent base segment_blocks (UInt32.ofNat k))
    (I := fun offset c => c.mem_curr = base + (k * q + offset)) (R := Owns q base)
    (fun offset _ ho s hs => ?_) (Nat.zero_le _) hk
  · rw [hq, show k * q + q = (k + 1) * q by rw [Nat.add_mul, Nat.one_mul]] at hinner
    exact hinner
  · rw [hq] at ho
    have hstep :=
      argon2_step_dependent_within (UInt32.ofNat k) hq hlt (by rw [hslice]; exact hk4') ho
      (by rw [hslice]; omega) (by rw [hslice]; exact hs)
    rw [hslice] at hstep
    exact hstep

/-- A warp keeps to the blocks of its job. -/
theorem lane_within (hq : segment_blocks.toNat = q) (h2 : 2 ≤ q) (hlt : q < 2 ^ 30) :
    (argon2Lane base segment_blocks).Stays (Owns q base) := by
  have hslice : ∀ (slice lo : UInt32) (r : Registers), slice.toNat < 4 → lo.toNat ≤ q →
      2 ≤ slice.toNat * q + lo.toNat → r.mem_curr = base + (slice.toNat * q + lo.toNat) →
      (forLoop lo segment_blocks (argon2StepIndexed base segment_blocks slice) r).Within
        (Owns q base) fun r' => r'.mem_curr = base + (slice.toNat * q + q) := by
    intro slice lo r hs hlo hj hcurr
    have hloop := forLoop_within lo segment_blocks (argon2StepIndexed base segment_blocks slice)
      (I := fun offset r => r.mem_curr = base + (slice.toNat * q + offset)) (R := Owns q base)
      (fun offset hlo' ho s hs' => ?_) (by rw [hq]; exact hlo) hcurr
    · rw [hq] at hloop
      exact hloop
    · rw [hq] at ho
      exact argon2_step_indexed_within slice hq hlt hs ho (by omega) hs'
  refine ⟨⟨Nat.le_add_right _ _, ?_⟩, fun mem_prev => ?_⟩
  · show base + 1 < base + 4 * q
    omega
  refine (hslice 0 2 _ (by decide) h2 (by simp) (by simp [firstCursor])).bind fun r₀ hr₀ => ?_
  refine (hslice 1 0 _ (by decide) (Nat.zero_le _) (by simpa using h2) ?_).bind fun r₁ hr₁ => ?_
  · simpa using hr₀
  · refine (dependentHalf_within hq h2 hlt ?_).bind fun _ _ => trivial
    rw [hr₁]
    show base + (1 * q + q) = _
    omega

end Region

end TreeMiner.Gpu

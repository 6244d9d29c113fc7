import TreeMiner.Gpu.Launch
import TreeMiner.Gpu.RefTable

/-!
# The kernel with precomputed references (`kernelrunner.cu`)

`argon2_kernel_oneshot_precomputed` reads the references of the first two slices from a
table. Where the table is the one of the memory size it is the same program as
`argon2_kernel_oneshot`: the same loads and stores in the same order (`precomputed_eq`).

The runner keeps a table in device memory between runs and makes a new one when the memory
size has changed. Any of the CUDA calls may fail on the way.
-/

namespace TreeMiner.Gpu

open Argon2 Interleave RefTable

/-- The kernel from where `memory` points to the blocks of the job. -/
def argon2LanePrecomputed (memory : Nat) (segment_blocks : UInt32) (indexed_refs : Nat → UInt32) :
    Kernel Unit := do
  let mem_prev ← load (memory + 1)
  let c := firstCursor memory mem_prev
  let c ← forLoop 2 segment_blocks (fun offset c =>
    coreStep memory (indexed_refs (offset - 2).toNat) c) c
  let slice1_base := segment_blocks - 2
  let c ← forLoop 0 segment_blocks (fun offset c =>
    coreStep memory (indexed_refs (slice1_base + offset).toNat) c) c
  let _ ← dependentHalf memory segment_blocks c
  pure ()

/-- `argon2_kernel_oneshot_precomputed`, for a warp of a thread block; `indexed_refs` is
device memory from the table on. -/
def argon2KernelOneshotPrecomputed (segment_blocks batch_size warps_per_block : UInt32)
    (indexed_refs : Nat → UInt32) (blockIdx warp : UInt32) : Kernel Unit :=
  let jobId := blockIdx * warps_per_block + warp
  if jobId ≥ batch_size then pure ()
  else
    let lane_blocks := ARGON2_SYNC_POINTS * segment_blocks
    argon2LanePrecomputed (jobId.toUInt64 * lane_blocks.toUInt64).toNat segment_blocks
      indexed_refs

/-- The table stands in device memory. -/
def Holds (indexed_refs : Nat → UInt32) (table : List UInt32) : Prop :=
  ∀ i ref, table[i]? = some ref → indexed_refs i = ref

/-! ## The same program -/

section Same

variable {segment_blocks : UInt32} {indexed_refs : Nat → UInt32}

/-- A loop over a slice that is told its references does what the one that computes them
does, whatever the address registers are used for afterwards. -/
theorem indexed_forLoop_eq (memory : Nat) (slice lo hi : UInt32) (ref : UInt32 → UInt32)
    {a : Addresses}
    (href : ∀ offset, lo.toNat ≤ offset → offset < hi.toNat →
      ref (UInt32.ofNat offset) = indexedRef segment_blocks slice offset)
    (hle : lo.toNat ≤ hi.toNat)
    (hr : Ready (ARGON2_SYNC_POINTS * segment_blocks) slice lo.toNat a) :
    ∃ a', Ready (ARGON2_SYNC_POINTS * segment_blocks) slice hi.toNat a' ∧
      ∀ c, forLoop lo hi (argon2StepIndexed memory segment_blocks slice) ⟨c, a⟩ =
        (forLoop lo hi (fun offset c => coreStep memory (ref offset) c) c).bind
          fun c => pure ⟨c, a'⟩ := by
  have hhi : hi.toNat < 2 ^ 32 := hi.toNat_lt
  -- by induction on the turns that are left, with the addresses ready at each of them
  have hturns : ∀ (n k : Nat) a, lo.toNat ≤ k → k + n = hi.toNat →
      Ready (ARGON2_SYNC_POINTS * segment_blocks) slice k a →
      ∃ a', Ready (ARGON2_SYNC_POINTS * segment_blocks) slice hi.toNat a' ∧
        ∀ c, turns (argon2StepIndexed memory segment_blocks slice) n (UInt32.ofNat k) ⟨c, a⟩ =
          (turns (fun offset c => coreStep memory (ref offset) c) n (UInt32.ofNat k) c).bind
            fun c => pure ⟨c, a'⟩ := by
    intro n
    induction n with
    | zero =>
      intro k a _ hk hr
      rw [Nat.add_zero] at hk
      exact ⟨a, hk ▸ hr, fun c => rfl⟩
    | succ n ih =>
      intro k a hlo hk hr
      obtain ⟨a₁, hr₁, hstep⟩ := argon2_step_indexed_eq slice memory (by omega) hr
      obtain ⟨a', hr', hrest⟩ := ih (k + 1) a₁ (by omega) (by omega) hr₁
      refine ⟨a', hr', fun c => ?_⟩
      show (argon2StepIndexed memory segment_blocks slice (UInt32.ofNat k) ⟨c, a⟩).bind
          (turns (argon2StepIndexed memory segment_blocks slice) n (UInt32.ofNat k + 1)) =
        ((coreStep memory (ref (UInt32.ofNat k)) c).bind
          (turns (fun offset c => coreStep memory (ref offset) c) n (UInt32.ofNat k + 1))).bind _
      rw [hstep, href k hlo (by omega), Prog.bind_assoc, Prog.bind_assoc]
      congr 1
      funext c₁
      rw [UInt32.ofNat_add] at hrest
      exact hrest c₁
  obtain ⟨a', hr', heq⟩ := hturns (hi.toNat - lo.toNat) lo.toNat a le_rfl (by omega) hr
  rw [UInt32.ofNat_toNat] at heq
  exact ⟨a', hr', heq⟩

/-- What the table says for a position of a slice. -/
theorem Holds.ref (h : Holds indexed_refs (generateIndexedRefTable segment_blocks))
    (h2 : 2 ≤ segment_blocks.toNat) (hlt : segment_blocks.toNat < 2 ^ 30) (slice : UInt32)
    (hs : slice.toNat < 2) {offset : Nat} (ho : offset < segment_blocks.toNat)
    (hj : 2 ≤ slice.toNat * segment_blocks.toNat + offset) :
    indexed_refs (indexedRefIndex slice (UInt32.ofNat offset) segment_blocks).toNat =
      indexedRef segment_blocks slice offset := by
  have hoff : (UInt32.ofNat offset).toNat = offset :=
    UInt32.toNat_ofNat_of_lt' (show offset < 2 ^ 32 by omega)
  have hget := generateIndexedRefTable_get slice (UInt32.ofNat offset) h2 hlt hs
    (by rw [hoff]; exact ho) (by rw [hoff]; exact hj)
  rw [hoff] at hget
  exact h _ _ hget

/-- With a right table the lane is filled as without one. -/
theorem precomputed_lane_eq (h : Holds indexed_refs (generateIndexedRefTable segment_blocks))
    (h2 : 2 ≤ segment_blocks.toNat) (hlt : segment_blocks.toNat < 2 ^ 30) (memory : Nat) :
    argon2LanePrecomputed memory segment_blocks indexed_refs =
      argon2Lane memory segment_blocks := by
  -- the two slices whose addresses are computed read the table instead; the second half is the same
  have href₀ : ∀ offset, 2 ≤ offset → offset < segment_blocks.toNat →
      indexed_refs (UInt32.ofNat offset - 2).toNat = indexedRef segment_blocks 0 offset := by
    intro offset hlo ho
    have href := h.ref h2 hlt 0 (by decide) ho (by omega)
    unfold indexedRefIndex at href
    rwa [if_pos rfl, UInt32.toNat_toUInt64] at href
  have href₁ : ∀ offset, 0 ≤ offset → offset < segment_blocks.toNat →
      indexed_refs (segment_blocks - 2 + UInt32.ofNat offset).toNat =
        indexedRef segment_blocks 1 offset := by
    intro offset _ ho
    have href := h.ref h2 hlt 1 (by decide) ho
      (show 2 ≤ 1 * segment_blocks.toNat + offset by omega)
    unfold indexedRefIndex at href
    rwa [if_neg (by decide), UInt32.toNat_toUInt64] at href
  obtain ⟨a, hr₀, heq₀⟩ := indexed_forLoop_eq memory 0 2 segment_blocks
    (fun offset => indexed_refs (offset - 2).toNat) href₀ h2
    (firstAddresses_ready segment_blocks)
  obtain ⟨b, -, heq₁⟩ := indexed_forLoop_eq memory 1 0 segment_blocks
    (fun offset => indexed_refs (segment_blocks - 2 + offset).toNat) href₁ (Nat.zero_le _)
    hr₀.nextSlice
  unfold argon2LanePrecomputed argon2Lane
  simp only [Prog.bind_eq, Prog.pure_eq]
  congr 1
  funext mem_prev
  rw [heq₀, Prog.bind_assoc]
  congr 1
  funext c
  rw [Prog.pure_eq, Prog.ret_bind, heq₁, Prog.bind_assoc]
  rfl

/-- With the table of the memory size the two kernels are one program. -/
theorem precomputed_eq (h : Holds indexed_refs (generateIndexedRefTable segment_blocks))
    (h2 : 2 ≤ segment_blocks.toNat) (hlt : segment_blocks.toNat < 2 ^ 30)
    (batch_size warps_per_block : UInt32) :
    argon2KernelOneshotPrecomputed segment_blocks batch_size warps_per_block indexed_refs =
      argon2KernelOneshot segment_blocks batch_size warps_per_block := by
  funext blockIdx warp
  unfold argon2KernelOneshotPrecomputed argon2KernelOneshot
  simp only [precomputed_lane_eq h h2 hlt]

end Same

/-! ## What the kernel refers to -/

/-- `n` steps: each loads the block of its reference and stores the next block. -/
def Visits (memory : Nat) (ref : Nat → UInt32) (curr n : Nat) (ops : List (MemOp Nat BlockG)) :
    Prop :=
  ops.length = 2 * n ∧ ∀ i, i < n →
    ops[2 * i]? = some (.load (memory + (ref i).toNat)) ∧
      ∃ b, ops[2 * i + 1]? = some (.store (curr + i) b)

/-- Steps after steps. -/
theorem Visits.append {memory curr n n' : Nat} {ref : Nat → UInt32}
    {ops ops' : List (MemOp Nat BlockG)} (h : Visits memory ref curr n ops)
    (h' : Visits memory (fun i => ref (n + i)) (curr + n) n' ops') :
    Visits memory ref curr (n + n') (ops ++ ops') := by
  refine ⟨by rw [List.length_append, h.1, h'.1]; omega, fun i hi => ?_⟩
  by_cases hin : i < n
  · rw [List.getElem?_append_left (by rw [h.1]; omega),
      List.getElem?_append_left (by rw [h.1]; omega)]
    exact h.2 i hin
  · obtain ⟨hload, b, hstore⟩ := h'.2 (i - n) (by omega)
    have hodd : 2 * i + 1 - ops.length = 2 * (i - n) + 1 := by
      rw [h.1]
      omega
    have heven : 2 * i - ops.length = 2 * (i - n) := by
      rw [h.1]
      omega
    dsimp only at hload
    rw [List.getElem?_append_right (by rw [h.1]; omega), heven, hload,
      List.getElem?_append_right (by rw [h.1]; omega), hodd, hstore,
      show n + (i - n) = i by omega, show curr + n + (i - n) = curr + i by omega]
    exact ⟨rfl, b, rfl⟩

/-- Only the references of the visited blocks matter. -/
theorem Visits.congr {memory curr n : Nat} {ref ref' : Nat → UInt32}
    {ops : List (MemOp Nat BlockG)} (h : Visits memory ref curr n ops)
    (href : ∀ i, i < n → ref i = ref' i) : Visits memory ref' curr n ops := by
  refine ⟨h.1, fun i hi => ?_⟩
  rw [← href i hi]
  exact h.2 i hi

/-- A step reads the referenced block and writes the current one. -/
theorem coreStep_visits (memory : Nat) (ref_index : UInt32) (c : Cursor) (m : Nat → BlockG) :
    Visits memory (fun _ => ref_index) c.mem_curr 1 ((coreStep memory ref_index c).trace m) ∧
      ((coreStep memory ref_index c).eval m).1.mem_curr = c.mem_curr + 1 := by
  refine ⟨⟨rfl, fun i hi => ?_⟩, rfl⟩
  obtain rfl : i = 0 := by omega
  exact ⟨rfl, _, rfl⟩

/-- A loop that is told its references. -/
theorem forLoop_visits (memory : Nat) (lo hi : UInt32) (refs : UInt32 → UInt32) (c : Cursor)
    (m : Nat → BlockG) :
    let p := forLoop lo hi (fun offset c => coreStep memory (refs offset) c) c
    Visits memory (fun i => refs (UInt32.ofNat (lo.toNat + i))) c.mem_curr (hi.toNat - lo.toNat)
        (p.trace m) ∧
      (p.eval m).1.mem_curr = c.mem_curr + (hi.toNat - lo.toNat) := by
  -- by induction on the turns that are left
  have hturns : ∀ (n k : Nat) (c : Cursor) (m : Nat → BlockG),
      let p := turns (fun offset c => coreStep memory (refs offset) c) n (UInt32.ofNat k) c
      Visits memory (fun i => refs (UInt32.ofNat (k + i))) c.mem_curr n (p.trace m) ∧
        (p.eval m).1.mem_curr = c.mem_curr + n := by
    intro n
    induction n with
    | zero =>
      intro k c m
      exact ⟨⟨rfl, fun i hi => absurd hi (Nat.not_lt_zero i)⟩, rfl⟩
    | succ n ih =>
      intro k c m
      obtain ⟨hone, hcurr⟩ := coreStep_visits memory (refs (UInt32.ofNat k)) c m
      obtain ⟨hrest, hend⟩ := ih (k + 1) ((coreStep memory (refs (UInt32.ofNat k)) c).eval m).1
        ((coreStep memory (refs (UInt32.ofNat k)) c).eval m).2
      rw [UInt32.ofNat_add] at hrest hend
      have hturn : turns (fun offset c => coreStep memory (refs offset) c) (n + 1)
        (UInt32.ofNat k) c =
          (coreStep memory (refs (UInt32.ofNat k)) c).bind
            (turns (fun offset c => coreStep memory (refs offset) c) n (UInt32.ofNat k + 1)) := rfl
      dsimp only
      rw [hturn, Prog.trace_bind, Prog.eval_bind, Nat.add_comm n 1]
      refine ⟨Visits.append ⟨hone.1, fun i hi => ?_⟩ ?_, ?_⟩
      · obtain rfl : i = 0 := by omega
        exact hone.2 0 hi
      · rw [hcurr] at hrest
        simp only [Nat.add_assoc] at hrest ⊢
        exact hrest
      · rw [← Nat.add_assoc, ← hcurr]
        exact hend
  have hall := hturns (hi.toNat - lo.toNat) lo.toNat c m
  rw [UInt32.ofNat_toNat] at hall
  exact hall

/-- In the first two slices the kernel loads what the table says, entry after entry. -/
theorem lane_visits {segment_blocks : UInt32} (indexed_refs : Nat → UInt32)
    (h2 : 2 ≤ segment_blocks.toNat) (hlt : segment_blocks.toNat < 2 ^ 30) (memory : Nat)
    (m : Nat → BlockG) :
    ∃ ops rest, (argon2LanePrecomputed memory segment_blocks indexed_refs).trace m =
        .load (memory + 1) :: (ops ++ rest) ∧
      Visits memory indexed_refs (memory + 2) (2 * segment_blocks.toNat - 2) ops := by
  -- the table is read from its beginning on, without a gap between the slices
  have href₀ : ∀ i, i < segment_blocks.toNat - 2 →
      indexed_refs (UInt32.ofNat (UInt32.toNat 2 + i) - 2).toNat = indexed_refs i := by
    intro i hi
    have hof : (UInt32.ofNat (2 + i)).toNat = 2 + i :=
      UInt32.toNat_ofNat_of_lt' (show 2 + i < 2 ^ 32 by omega)
    have hsub : (UInt32.ofNat (2 + i) - 2).toNat = i := by
      rw [UInt32.toNat_sub_of_le, hof]
      · exact Nat.add_sub_cancel_left 2 i
      · rw [UInt32.le_iff_toNat_le, hof]
        exact Nat.le_add_right _ _
    exact congrArg indexed_refs hsub
  have href₁ : ∀ i, i < segment_blocks.toNat →
      indexed_refs (segment_blocks - 2 + UInt32.ofNat (UInt32.toNat 0 + i)).toNat =
        indexed_refs (segment_blocks.toNat - 2 + i) := by
    intro i hi
    have hpred : (segment_blocks - 2).toNat = segment_blocks.toNat - 2 :=
      UInt32.toNat_sub_of_le _ _ (UInt32.le_iff_toNat_le.mpr h2)
    have hof : (UInt32.ofNat (UInt32.toNat 0 + i)).toNat = i := by
      rw [UInt32.toNat_zero, Nat.zero_add]
      exact UInt32.toNat_ofNat_of_lt' (show i < 2 ^ 32 by omega)
    have hsum : (segment_blocks - 2 + UInt32.ofNat (UInt32.toNat 0 + i)).toNat =
        segment_blocks.toNat - 2 + i := by
      rw [UInt32.toNat_add, hpred, hof]
      exact Nat.mod_eq_of_lt (show segment_blocks.toNat - 2 + i < 2 ^ 32 by omega)
    exact congrArg indexed_refs hsum
  obtain ⟨hv₀, hc₀⟩ := forLoop_visits memory 2 segment_blocks
    (fun offset => indexed_refs (offset - 2).toNat) (firstCursor memory (m (memory + 1))) m
  obtain ⟨hv₁, -⟩ := forLoop_visits memory 0 segment_blocks
    (fun offset => indexed_refs (segment_blocks - 2 + offset).toNat)
    ((forLoop 2 segment_blocks (fun offset c => coreStep memory (indexed_refs (offset - 2).toNat) c)
      (firstCursor memory (m (memory + 1)))).eval m).1
    ((forLoop 2 segment_blocks (fun offset c => coreStep memory (indexed_refs (offset - 2).toNat) c)
      (firstCursor memory (m (memory + 1)))).eval m).2
  rw [hc₀] at hv₁
  have hboth := (hv₀.congr href₀).append (hv₁.congr href₁)
  have hcount : segment_blocks.toNat - UInt32.toNat 2 + (segment_blocks.toNat - UInt32.toNat 0) =
      2 * segment_blocks.toNat - 2 := by
    show segment_blocks.toNat - 2 + (segment_blocks.toNat - 0) = _
    omega
  rw [hcount] at hboth
  refine ⟨_, ?rest, ?trace, hboth⟩
  case trace =>
    unfold argon2LanePrecomputed
    simp only [Prog.bind_eq, Prog.pure_eq, Prog.trace_bind, load_eval, List.append_assoc]
    rfl

/-! ## The runner's table -/

def kMaxWarpsPerBlock : UInt32 := 16

/-- The members of `KernelRunner` that choose the kernel and its table; `refs` is the device
memory that the pointer points to. -/
structure KernelRunner where
  segmentBlocks : UInt32
  batchSize : UInt64
  warpsPerBlock : UInt32
  precomputedRefs : Bool
  refs : Option (Nat → UInt32)
  refsSegmentBlocks : UInt32

/-- What the CUDA calls of one `run` answer. Memory that `cudaMalloc` gives is not
initialised. -/
structure CudaAnswers where
  /-- The calls before `ensurePrecomputedRefs` succeed. -/
  before : Bool
  free : Bool
  malloc : Option (Nat → UInt32)
  memcpy : Bool

namespace KernelRunner

/-- The constructor. -/
def new (segmentBlocks : UInt32) (batchSize : UInt64) : KernelRunner :=
  ⟨segmentBlocks, batchSize, kDefaultWarpsPerBlock, false, none, 0⟩

def setWarpsPerBlock (warps : UInt32) (k : KernelRunner) : KernelRunner :=
  if warps = 0 then { k with warpsPerBlock := kDefaultWarpsPerBlock }
  else if warps > kMaxWarpsPerBlock then { k with warpsPerBlock := kMaxWarpsPerBlock }
  else { k with warpsPerBlock := warps }

def setPrecomputedRefs (enabled : Bool) (k : KernelRunner) : KernelRunner :=
  { k with precomputedRefs := enabled }

def reconfigure (segmentBlocks : UInt32) (batchSize : UInt64) (k : KernelRunner) : KernelRunner :=
  { k with segmentBlocks := segmentBlocks, batchSize := batchSize, refsSegmentBlocks := 0 }

/-- `cudaMemcpyAsync` of the table. -/
def copyTable (table : List UInt32) (refs : Nat → UInt32) : Nat → UInt32 := fun i =>
  (table[i]?).getD (refs i)

/-- From `generateIndexedRefTable` on, where `refs` is null; the flag says that nothing was
thrown. -/
def makeRefs (cuda : CudaAnswers) (k : KernelRunner) : KernelRunner × Bool :=
  let table := generateIndexedRefTable k.segmentBlocks
  if table.isEmpty then (k, true)
  else
    match cuda.malloc with
    | none => (k, false)
    | some refs =>
      if cuda.memcpy then
        ({ k with refs := some (copyTable table refs), refsSegmentBlocks := k.segmentBlocks }, true)
      else ({ k with refs := some refs }, false)

/-- `ensurePrecomputedRefs`. -/
def ensurePrecomputedRefs (cuda : CudaAnswers) (k : KernelRunner) : KernelRunner × Bool :=
  if !k.precomputedRefs then (k, true)
  else if k.refs.isSome && k.refsSegmentBlocks = k.segmentBlocks then (k, true)
  else if k.refs.isSome then
    if cuda.free then makeRefs cuda { k with refs := none, refsSegmentBlocks := 0 }
    else (k, false)
  else makeRefs cuda k

/-- `runKernelOneshot`: the kernel that is launched. -/
def runKernelOneshot (k : KernelRunner) : (blockIdx warp : UInt32) → Kernel Unit :=
  let launch := makeOneshotLaunch k.batchSize k.warpsPerBlock
  match k.precomputedRefs, k.refs with
  | true, some refs => argon2KernelOneshotPrecomputed k.segmentBlocks k.batchSize.toUInt32
      launch.warps_per_block refs
  | _, _ => argon2KernelOneshot k.segmentBlocks k.batchSize.toUInt32 launch.warps_per_block

/-- `run`: what it leaves, and whether it came to `runKernelOneshot`. -/
def run (cuda : CudaAnswers) (k : KernelRunner) : KernelRunner × Bool :=
  if cuda.before then ensurePrecomputedRefs cuda k else (k, false)

end KernelRunner

/-- The calls of the runner. -/
inductive RunnerCall where
  | reconfigure (segmentBlocks : UInt32) (batchSize : UInt64)
  | setPrecomputedRefs (enabled : Bool)
  | setWarpsPerBlock (warps : UInt32)
  | run (cuda : CudaAnswers)

def KernelRunner.call (k : KernelRunner) : RunnerCall → KernelRunner
  | .reconfigure segmentBlocks batchSize => k.reconfigure segmentBlocks batchSize
  | .setPrecomputedRefs enabled => k.setPrecomputedRefs enabled
  | .setWarpsPerBlock warps => k.setWarpsPerBlock warps
  | .run cuda => (k.run cuda).1

/-- A table that is marked with a memory size is the table of that size. -/
structure KernelRunner.Marked (k : KernelRunner) : Prop where
  table : ∀ refs, k.refs = some refs → k.refsSegmentBlocks ≠ 0 →
    Holds refs (generateIndexedRefTable k.refsSegmentBlocks)
  none : k.refs = none → k.refsSegmentBlocks = 0

/-- What a launch needs: a table is there, and it is the one of the current memory size. -/
def KernelRunner.Current (k : KernelRunner) : Prop :=
  ∃ refs, k.refs = some refs ∧ Holds refs (generateIndexedRefTable k.segmentBlocks)

/-- A table that was copied to the device is held by it. -/
theorem copyTable_holds (table : List UInt32) (refs : Nat → UInt32) :
    Holds (KernelRunner.copyTable table refs) table := by
  intro i ref h
  unfold KernelRunner.copyTable
  rw [h]
  rfl

namespace KernelRunner

variable {k : KernelRunner}

/-- Without a table, `makeRefs` makes the one of the current size, or marks none. -/
theorem makeRefs_spec (cuda : CudaAnswers) (hn : k.refs = none) (hz : k.refsSegmentBlocks = 0) :
    (makeRefs cuda k).1.Marked ∧
      (makeRefs cuda k).1.precomputedRefs = k.precomputedRefs ∧
      (makeRefs cuda k).1.segmentBlocks = k.segmentBlocks ∧
      ((makeRefs cuda k).2 = true → generateIndexedRefTable k.segmentBlocks ≠ [] →
        (makeRefs cuda k).1.Current) := by
  unfold makeRefs
  dsimp only
  by_cases hempty : (generateIndexedRefTable k.segmentBlocks).isEmpty = true
  · rw [if_pos hempty]
    refine ⟨⟨fun refs h => ?_, fun _ => hz⟩, rfl, rfl, fun _ hne => ?_⟩
    · rw [hn] at h
      cases h
    · exact absurd (List.isEmpty_iff.mp hempty) hne
  · rw [if_neg hempty]
    cases cuda.malloc with
    | none =>
      refine ⟨⟨fun refs h => ?_, fun _ => hz⟩, rfl, rfl, fun hok => nomatch hok⟩
      rw [hn] at h
      cases h
    | some fresh =>
      dsimp only
      by_cases hcopy : cuda.memcpy = true
      · rw [if_pos hcopy]
        have hnew : ∀ refs, some (copyTable (generateIndexedRefTable k.segmentBlocks) fresh) =
            some refs → Holds refs (generateIndexedRefTable k.segmentBlocks) := by
          intro refs h
          rw [← Option.some.inj h]
          exact copyTable_holds _ _
        exact ⟨⟨fun refs h _ => hnew refs h, fun h => nomatch h⟩, rfl, rfl,
          fun _ _ => ⟨_, rfl, hnew _ rfl⟩⟩
      · -- the copy failed: what stands there is not marked
        rw [if_neg hcopy]
        exact ⟨⟨fun refs _ hmark => absurd hz hmark, fun h => nomatch h⟩, rfl, rfl,
          fun hok => nomatch hok⟩

/-- `ensurePrecomputedRefs` keeps the mark right, and unless it throws the table in place is
the one of the current size. -/
theorem ensurePrecomputedRefs_spec (cuda : CudaAnswers) (hk : k.Marked) :
    let r := ensurePrecomputedRefs cuda k
    r.1.Marked ∧ r.1.precomputedRefs = k.precomputedRefs ∧
      r.1.segmentBlocks = k.segmentBlocks ∧
      (r.2 = true → k.precomputedRefs = true → k.segmentBlocks ≠ 0 →
        generateIndexedRefTable k.segmentBlocks ≠ [] → r.1.Current) := by
  dsimp only
  cases hp : k.precomputedRefs with
  | false =>
    have heq : ensurePrecomputedRefs cuda k = (k, true) := by simp [ensurePrecomputedRefs, hp]
    rw [heq]
    exact ⟨hk, hp, rfl, fun _ h => nomatch h⟩
  | true =>
    cases hr : k.refs with
    | none =>
      have heq : ensurePrecomputedRefs cuda k = makeRefs cuda k := by
        simp [ensurePrecomputedRefs, hp, hr]
      obtain ⟨hmark, hpre, hseg, hcur⟩ := makeRefs_spec cuda hr (hk.none hr)
      rw [heq]
      exact ⟨hmark, hpre.trans hp, hseg, fun hok _ _ hne => hcur hok hne⟩
    | some refs =>
      -- a table for other sizes is freed first, which may fail
      by_cases hsame : k.refsSegmentBlocks = k.segmentBlocks
      · have heq : ensurePrecomputedRefs cuda k = (k, true) := by
          simp [ensurePrecomputedRefs, hp, hr, hsame]
        rw [heq]
        refine ⟨hk, hp, rfl, fun _ _ h0 _ => ⟨refs, hr, ?_⟩⟩
        rw [← hsame] at h0 ⊢
        exact hk.table refs hr h0
      · by_cases hfree : cuda.free = true
        · have heq : ensurePrecomputedRefs cuda k =
              makeRefs cuda { k with refs := none, refsSegmentBlocks := 0 } := by
            simp [ensurePrecomputedRefs, hp, hr, hsame, hfree]
          obtain ⟨hmark, hpre, hseg, hcur⟩ := makeRefs_spec
            (k := { k with refs := none, refsSegmentBlocks := 0 }) cuda rfl rfl
          rw [heq]
          exact ⟨hmark, hpre.trans hp, hseg, fun hok _ _ hne => hcur hok hne⟩
        · have heq : ensurePrecomputedRefs cuda k = (k, false) := by
            simp [ensurePrecomputedRefs, hp, hr, hsame, hfree]
          rw [heq]
          exact ⟨hk, hp, rfl, fun hok => nomatch hok⟩

/-- No call of the runner keeps the mark of a table that it has outdated. -/
theorem Marked.call (hk : k.Marked) (c : RunnerCall) : (k.call c).Marked := by
  cases c with
  | reconfigure segmentBlocks batchSize => exact ⟨fun _ _ h => absurd rfl h, fun _ => rfl⟩
  | setPrecomputedRefs enabled => exact ⟨hk.table, hk.none⟩
  | setWarpsPerBlock warps =>
    show (k.setWarpsPerBlock warps).Marked
    unfold setWarpsPerBlock
    split
    · exact ⟨hk.table, hk.none⟩
    · split <;> exact ⟨hk.table, hk.none⟩
  | run cuda =>
    show (k.run cuda).1.Marked
    unfold KernelRunner.run
    split
    · exact (ensurePrecomputedRefs_spec cuda hk).1
    · exact hk

/-- A new runner has no table and no mark. -/
theorem marked_new (segmentBlocks : UInt32) (batchSize : UInt64) :
    (new segmentBlocks batchSize).Marked :=
  ⟨fun _ h => (nomatch h), fun _ => rfl⟩

/-- From one call to any sequence of calls. -/
theorem marked_of_calls (hk : k.Marked) (calls : List RunnerCall) :
    (calls.foldl call k).Marked := by
  induction calls generalizing k with
  | nil => exact hk
  | cons c calls ih => exact ih (hk.call c)

/-- A launch of the current size has its table, if one is asked for. -/
theorem run_current (hk : k.Marked) {cuda : CudaAnswers} (hrun : (k.run cuda).2 = true)
    (h2 : 2 ≤ (k.run cuda).1.segmentBlocks.toNat)
    (hlt : (k.run cuda).1.segmentBlocks.toNat < 2 ^ 30)
    (hp : (k.run cuda).1.precomputedRefs = true) : (k.run cuda).1.Current := by
  unfold KernelRunner.run at *
  by_cases hbefore : cuda.before = true
  · rw [if_pos hbefore] at *
    obtain ⟨-, hpre, hseg, hcur⟩ := ensurePrecomputedRefs_spec cuda hk
    rw [hseg] at h2 hlt
    refine hcur hrun (hpre.symm.trans hp) (fun h0 => ?_) (fun hempty => ?_)
    · rw [h0] at h2
      exact absurd h2 (by decide)
    · have hlen := length_generateIndexedRefTable h2 hlt
      rw [hempty, indexedRefCount_toNat h2 hlt, List.length_nil] at hlen
      omega
  · rw [if_neg hbefore] at hrun
    cases hrun

/-- So the kernel that is launched is the plain one, whichever was chosen. -/
theorem runKernelOneshot_eq (hc : k.precomputedRefs = true → k.Current)
    (h2 : 2 ≤ k.segmentBlocks.toNat) (hlt : k.segmentBlocks.toNat < 2 ^ 30) :
    k.runKernelOneshot = argon2KernelOneshot k.segmentBlocks k.batchSize.toUInt32
      (makeOneshotLaunch k.batchSize k.warpsPerBlock).warps_per_block := by
  unfold runKernelOneshot
  dsimp only
  cases hp : k.precomputedRefs with
  | false => rfl
  | true =>
    obtain ⟨refs, hr, hholds⟩ := hc hp
    rw [hr]
    exact precomputed_eq hholds h2 hlt _ _

end KernelRunner

/-! ## Agreement -/

/-- The launch of `argon2_kernel_oneshot_precomputed` with the geometry of
`makeOneshotLaunch`. -/
def launchPrecomputed (segment_blocks : UInt32) (batch_size : UInt64) (warps_per_block : UInt32)
    (indexed_refs : Nat → UInt32) (memory : Nat → BlockG) :
    MemConf Nat BlockG (WarpOf (makeOneshotLaunch batch_size warps_per_block)) :=
  launchWarps (makeOneshotLaunch batch_size warps_per_block)
    (argon2KernelOneshotPrecomputed segment_blocks batch_size.toUInt32
      (makeOneshotLaunch batch_size warps_per_block).warps_per_block indexed_refs) memory

/-- The operations of a warp on its job: the reference of a position is the table's entry. -/
theorem oneshot_visits {segment_blocks : UInt32} (h2 : 2 ≤ segment_blocks.toNat)
    (hlt : segment_blocks.toNat < 2 ^ 30) {batch_size warps_per_block blockIdx warp : UInt32}
    (hjob : blockIdx * warps_per_block + warp < batch_size) (memory : Nat → BlockG)
    {i : Nat} {ref : UInt32} (hi : (generateIndexedRefTable segment_blocks)[i]? = some ref) :
    let base := jobBase segment_blocks.toNat (blockIdx * warps_per_block + warp).toNat
    let ops := (argon2KernelOneshot segment_blocks batch_size warps_per_block blockIdx warp).trace
      memory
    ops[2 * i + 1]? = some (.load (base + ref.toNat)) ∧
      ∃ b, ops[2 * i + 2]? = some (.store (base + 2 + i) b) := by
  have hlen : i < 2 * segment_blocks.toNat - 2 := by
    rw [← indexedRefCount_toNat h2 hlt, ← length_generateIndexedRefTable h2 hlt]
    exact (List.getElem?_eq_some_iff.mp hi).1
  have hholds := copyTable_holds (generateIndexedRefTable segment_blocks) fun _ => 0
  obtain ⟨ops, rest, htrace, hvisits⟩ := lane_visits
    (KernelRunner.copyTable (generateIndexedRefTable segment_blocks) fun _ => 0) h2 hlt
    (jobBase segment_blocks.toNat (blockIdx * warps_per_block + warp).toNat) memory
  rw [precomputed_lane_eq hholds h2 hlt] at htrace
  obtain ⟨hload, b, hstore⟩ := hvisits.2 i hlen
  dsimp only
  unfold argon2KernelOneshot
  dsimp only
  rw [if_neg (UInt32.not_le.mpr hjob), base_eq hlt, htrace]
  rw [hholds i ref hi] at hload
  have hmore := hvisits.1
  refine ⟨?_, b, ?_⟩
  · rw [List.getElem?_cons_succ, List.getElem?_append_left (by omega)]
    exact hload
  · rw [List.getElem?_cons_succ, List.getElem?_append_left (by omega)]
    exact hstore

/-- The table has an entry for each position of the first two slices, the block that the
plain kernel loads there; with the table the two kernels are the same program, and their
launches leave the same memory; and whatever calls a runner has had, a run that launches a
kernel has the table of the current memory size in place. -/
theorem precomputed_agrees (segment_blocks : UInt32) (h2 : 2 ≤ segment_blocks.toNat)
    (hlt : segment_blocks.toNat < 2 ^ 30) :
    (generateIndexedRefTable segment_blocks).length = (indexedRefCount segment_blocks).toNat ∧
    (∀ slice offset : UInt32, slice.toNat < 2 → offset.toNat < segment_blocks.toNat →
      2 ≤ slice.toNat * segment_blocks.toNat + offset.toNat →
      ∃ ref, (generateIndexedRefTable segment_blocks)[(indexedRefIndex slice offset
          segment_blocks).toNat]? = some ref ∧
        ref.toNat < slice.toNat * segment_blocks.toNat + offset.toNat - 1 ∧
        ∀ batch_size warps_per_block blockIdx warp : UInt32,
          blockIdx * warps_per_block + warp < batch_size → ∀ memory : Nat → BlockG,
          let base := jobBase segment_blocks.toNat (blockIdx * warps_per_block + warp).toNat
          let ops := (argon2KernelOneshot segment_blocks batch_size warps_per_block blockIdx
            warp).trace memory
          let i := (indexedRefIndex slice offset segment_blocks).toNat
          ops[2 * i + 1]? = some (.load (base + ref.toNat)) ∧
            ∃ b, ops[2 * i + 2]? =
              some (.store (base + (slice.toNat * segment_blocks.toNat + offset.toNat)) b)) ∧
    (∀ indexed_refs, Holds indexed_refs (generateIndexedRefTable segment_blocks) →
      (∀ batch_size warps_per_block,
        argon2KernelOneshotPrecomputed segment_blocks batch_size warps_per_block indexed_refs =
          argon2KernelOneshot segment_blocks batch_size warps_per_block) ∧
      ∀ (batch_size : UInt64) (warps_per_block : UInt32) (memory : Nat → BlockG),
        batch_size.toNat < 2 ^ 31 → 1 ≤ warps_per_block.toNat →
          warps_per_block.toNat ≤ 16 →
        ∀ tr c tr' c',
          Run (parallel Nat BlockG _) (launchPrecomputed segment_blocks batch_size warps_per_block
            indexed_refs memory) tr c → AllDone c →
          Run (parallel Nat BlockG _) (launchOneshot segment_blocks batch_size warps_per_block
            memory) tr' c' → AllDone c' →
          c.world = c'.world) ∧
    (∀ (segmentBlocks : UInt32) (batchSize : UInt64) (calls : List RunnerCall)
      (cuda : CudaAnswers),
      let k := calls.foldl KernelRunner.call (KernelRunner.new segmentBlocks batchSize)
      (k.run cuda).2 = true → (k.run cuda).1.segmentBlocks = segment_blocks →
        ((k.run cuda).1.precomputedRefs = true → ∃ refs, (k.run cuda).1.refs = some refs ∧
          Holds refs (generateIndexedRefTable segment_blocks)) ∧
        (k.run cuda).1.runKernelOneshot =
          argon2KernelOneshot segment_blocks (k.run cuda).1.batchSize.toUInt32
            (makeOneshotLaunch (k.run cuda).1.batchSize
              (k.run cuda).1.warpsPerBlock).warps_per_block) := by
  -- both kernels keep to the blocks of their own job
  have hstay : ∀ base, (argon2Lane base segment_blocks).Stays (Owns segment_blocks.toNat base) :=
    fun base => lane_within rfl h2 hlt
  refine ⟨length_generateIndexedRefTable h2 hlt, fun slice offset hs ho hj => ?_,
    fun indexed_refs hholds => ⟨precomputed_eq hholds h2 hlt, ?_⟩, ?_⟩
  · have hget := generateIndexedRefTable_get slice offset h2 hlt hs ho hj
    refine ⟨_, hget, indexedRef_lt hlt hs ho hj, ?_⟩
    intro batch_size warps_per_block blockIdx warp hjob memory
    have hplace := indexedRefIndex_toNat h2 hlt hs ho hj
    obtain ⟨hload, b, hstore⟩ := oneshot_visits h2 hlt hjob memory hget
    refine ⟨hload, b, hstore.trans ?_⟩
    rw [hplace, Nat.add_assoc, Nat.add_sub_cancel' hj]
  · intro batch_size warps_per_block memory hb h1 h16 tr c tr' c' hr hd hr' hd'
    unfold launchPrecomputed at hr
    rw [precomputed_eq hholds h2 hlt] at hr
    exact launchJobs_unique hlt hb h1 h16 hstay hr hd hr' hd'
  · intro segmentBlocks batchSize calls cuda k hrun hseg
    have hmark : k.Marked := KernelRunner.marked_of_calls (KernelRunner.marked_new _ _) calls
    have hcur := KernelRunner.run_current hmark hrun (hseg ▸ h2) (hseg ▸ hlt)
    have hkernel := KernelRunner.runKernelOneshot_eq hcur (hseg ▸ h2) (hseg ▸ hlt)
    unfold KernelRunner.Current at hcur
    rw [hseg] at hcur hkernel
    exact ⟨hcur, hkernel⟩

/-- A runner that made the table of two-block segments and is then reconfigured. -/
theorem precomputed_agrees_reconfigured :
    let ok : CudaAnswers := ⟨true, true, some fun _ => 0, true⟩
    let k := [.setPrecomputedRefs true, .run ok, .reconfigure 3 1].foldl KernelRunner.call
      (KernelRunner.new 2 1)
    k.refs.isSome = true ∧ (k.run ok).2 = true ∧ ∃ refs, (k.run ok).1.refs = some refs ∧
      Holds refs (generateIndexedRefTable 3) := by
  intro ok k
  have hruns := (precomputed_agrees 3 (by decide) (by decide)).2.2.2 2 1
    [.setPrecomputedRefs true, .run ok, .reconfigure 3 1] ok (by decide) (by decide)
  exact ⟨by decide, by decide, hruns.1 (by decide)⟩

end TreeMiner.Gpu

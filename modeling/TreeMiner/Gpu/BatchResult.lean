import TreeMiner.Gpu.RunnerFrame
import TreeMiner.Lib.Argon2Digest

/-!
# What a run of the runner computes (`KernelRunner::run`)

The first two blocks of each job come from the host buffer or from the keys on the device, by a
flag of the runner; the kernel fills the memory from them, and the last blocks are copied out.
Here is what a run leaves in the output buffer if it returns, whichever of the two was taken
(`run_spec`). The kernels are a parameter: `Device.Computes` says what it has to do.

The run is a sequence of calls on the runner, and each has a triple: what the buffers hold if
it returns. Between them the sizes of the runner stay, and no computation of an address wraps,
since the memory of all jobs fits 64 bits.
-/

namespace TreeMiner.Gpu

open Argon2 Cxx Faults Interleave

/-! ## Jobs in device memory -/

/-- Where a job begins, in a memory of jobs of `4 * q` blocks. -/
def jobStart (q job : Nat) : Nat := job * (4 * q) * 1024

/-- The first two blocks of a job. -/
def firstOf (q : Nat) (memory : Ptr) (job : Nat) : List UInt8 :=
  bytesAt (memory.advance (jobStart q job)) 2048

/-- The last block of a job. -/
def lastOf (q : Nat) (memory : Ptr) (job : Nat) : List UInt8 :=
  bytesAt (memory.advance ((4 * q - 1) * 1024 + jobStart q job)) 1024

/-- The kernels: a launch for the first blocks leaves what some order of the threads of
`argon2_first_blocks_kernel` leaves, and the oneshot kernel maps the first blocks of each job to
the last block of Argon2id, if it is not given the table of another size. -/
structure Device.Computes (device : Device) : Prop where
  firstBlocks : ∀ (inputs : DeviceInputs) segmentBlocks batchSize memory, ∃ locals tr c,
    Run (parallel Nat UInt8 _)
      (inputs.runDeviceFirstBlockKernel segmentBlocks batchSize locals memory)
      tr c ∧ AllDone c ∧ device.firstBlocks inputs segmentBlocks batchSize memory = c.world
  oneshot : ∀ (k : KernelRunner) (memory : Ptr), 2 ≤ k.segmentBlocks.toNat →
    k.segmentBlocks.toNat < 2 ^ 30 → (k.precomputedRefs = true → k.Current) →
    ∀ job < k.batchSize.toNat, lastOf k.segmentBlocks.toNat (device.oneshot k memory) job =
      lastBlock k.segmentBlocks.toNat (firstOf k.segmentBlocks.toNat memory job)

/-! ### A device -/

/-- The threads of a launch, in order. -/
def threadsInOrder (grid blockDim : UInt32) : List (ThreadOf grid blockDim) :=
  (List.finRange grid.toNat).product (List.finRange blockDim.toNat)

/-- Kernels that run one thread after the other, and one job after the other. -/
def Device.inOrder : Device where
  firstBlocks inputs segmentBlocks batchSize memory :=
    sequential
      (fun t : ThreadOf (DeviceInputs.grid batchSize) DeviceInputs.threadsPerBlock.toUInt32 =>
      inputs.firstBlockThread segmentBlocks batchSize
        (fun _ => ⟨Vector.replicate 8 0, 0, 0, fun _ => 0, 0⟩) (UInt32.ofNat t.1)
          (UInt32.ofNat t.2))
      (threadsInOrder _ _) memory
  oneshot k memory := fun a =>
    let q := k.segmentBlocks.toNat
    let job := a / (4 * q * 1024)
    let place := a % (4 * q * 1024)
    if job < k.batchSize.toNat ∧ (4 * q - 1) * 1024 ≤ place then
      (lastBlock q (firstOf q memory job)).getD (place - (4 * q - 1) * 1024) 0
    else memory a

/-- The device that runs its blocks one after the other computes what the kernels are to compute, so
that the hypothesis on a device can be met. -/
theorem inOrder_computes : Device.inOrder.Computes := by
  refine ⟨fun inputs segmentBlocks batchSize memory => ?_, fun k memory h2 _ _ job hjob => ?_⟩
  · have hall : ∀ t, t ∈ threadsInOrder (DeviceInputs.grid batchSize)
        DeviceInputs.threadsPerBlock.toUInt32 := by
      intro t
      exact List.mem_product.mpr ⟨List.mem_finRange _, List.mem_finRange _⟩
    obtain ⟨tr, c, hr, hd, hworld⟩ := run_sequential
      (c := inputs.runDeviceFirstBlockKernel segmentBlocks batchSize _ memory) _
      (threadsInOrder _ _) ((List.nodup_finRange _).product (List.nodup_finRange _))
        (fun _ _ => rfl)
      fun t ht => absurd (hall t) ht
    exact ⟨_, tr, c, hr, hd, hworld.symm⟩
  · have hlen := length_lastBlock k.segmentBlocks.toNat (firstOf k.segmentBlocks.toNat memory job)
    have hbytes := bytesAt_array (Nat.le_of_eq hlen.symm)
    rw [List.take_of_length_le (Nat.le_of_eq hlen)] at hbytes
    unfold lastOf
    rw [← hbytes]
    refine List.map_congr_left fun i hi => ?_
    have hi' : i < 1024 := List.mem_range.mp hi
    unfold Ptr.advance Device.inOrder jobStart array
    dsimp only
    generalize k.segmentBlocks.toNat = q at h2
    have hplace : (4 * q - 1) * 1024 + i < 4 * q * 1024 := by omega
    have hat : (4 * q - 1) * 1024 + job * (4 * q) * 1024 + i =
        4 * q * 1024 * job + ((4 * q - 1) * 1024 + i) := by
      rw [Nat.mul_assoc job, Nat.mul_comm job, Nat.add_comm _ (4 * q * 1024 * job), Nat.add_assoc]
    rw [hat, Nat.mul_add_div (by omega), Nat.div_eq_of_lt hplace, Nat.mul_add_mod,
      Nat.mod_eq_of_lt hplace, Nat.add_zero, if_pos ⟨hjob, Nat.le_add_right _ _⟩,
        Nat.add_sub_cancel_left]

theorem advance_advance (p : Ptr) (a b : Nat) : (p.advance a).advance b = p.advance (a + b) := by
  funext i
  unfold Ptr.advance
  rw [Nat.add_assoc]

/-- A row of the pitched copy is the row it was copied from, whatever the two pitches. -/
theorem bytesAt_copyRows (dst src : Ptr) {dpitch spitch width height job : Nat}
    (hw : width ≤ dpitch) (hjob : job < height) :
    bytesAt (Ptr.advance (copyRows dst dpitch src spitch width height) (job * dpitch)) width =
      bytesAt (src.advance (job * spitch)) width := by
  refine List.map_congr_left fun i hi => ?_
  have hi' : i < width := List.mem_range.mp hi
  have hdiv : (job * dpitch + i) / dpitch = job := by
    rw [Nat.mul_comm, Nat.mul_add_div (by omega), Nat.div_eq_of_lt (by omega), Nat.add_zero]
  have hmod : (job * dpitch + i) % dpitch = i := by
    rw [Nat.mul_comm, Nat.mul_add_mod, Nat.mod_eq_of_lt (by omega)]
  unfold Ptr.advance copyRows
  rw [hdiv, hmod, if_pos ⟨hjob, hi'⟩]

namespace Runner

/-! ## A batch on the runner -/

/-- A runner that is configured for `n` jobs with `q` blocks to a segment. -/
structure Configured (n q : Nat) (r : Runner) : Prop where
  batch : r.batchSize.toNat = n
  segment : r.segmentBlocks.toNat = q
  lanes : r.lanes = 1
  marked : r.toKernelRunner.Marked

/-- The first blocks that the next run takes. -/
structure Fed (device : Device) (n q : Nat) (first : Nat → List UInt8) (r : Runner) : Prop where
  configured : r.Configured n q
  fromDevice : r.inputs.deviceFirstBlocksReady = true → ∀ memory, ∀ job < n,
    firstOf q (device.firstBlocks r.inputs r.segmentBlocks r.batchSize memory) job = first job
  fromHost : r.inputs.deviceFirstBlocksReady = false → ∀ job < n,
    bytesAt (Ptr.advance (Buffer.at r.blocksIn) (job * 2048)) 2048 = first job

/-- The first blocks are in device memory. -/
structure Loaded (n q : Nat) (first : Nat → List UInt8) (r : Runner) : Prop where
  configured : r.Configured n q
  rows : ∀ b, r.memory = some b → ∀ job < n, firstOf q b.bytes job = first job

/-- What the output buffer holds for the jobs. -/
def Output (n : Nat) (last : Nat → List UInt8) (r : Runner) : Prop :=
  ∀ job < n, bytesAt (Ptr.advance (Buffer.at r.blocksOut) (job * 1024)) 1024 = last job

section Steps

variable {device : Device} {n q : Nat} {first : Nat → List UInt8} {r : Runner}

/-- The size of a job in bytes, which does not wrap for the segments that the kernels accept. -/
theorem Configured.jobSize (h : r.Configured n q) (hlt : q < 2 ^ 30) :
    r.jobSize.toNat = 4 * q * 1024 := by
  have hseg := h.segment
  unfold Runner.jobSize
  rw [h.lanes, UInt64.toNat_mul, UInt64.toNat_mul, UInt64.toNat_mul,
    UInt32.toNat_toUInt64 r.segmentBlocks, hseg]
  show 1 * q % 2 ^ 64 * 4 % 2 ^ 64 * 1024 % 2 ^ 64 = _
  omega

/-- Settings of the kernel change nothing that the run is fed from. -/
theorem Fed.kernel (h : Fed device n q first r) {k : KernelRunner}
    (hsegment : k.segmentBlocks = r.segmentBlocks) (hbatch : k.batchSize = r.batchSize)
    (hmarked : r.toKernelRunner.Marked → k.Marked) :
    Fed device n q first { r with toKernelRunner := k } := by
  refine ⟨⟨?_, ?_, h.configured.lanes, hmarked h.configured.marked⟩, fun hready memory => ?_,
    h.fromHost⟩
  · exact (congrArg UInt64.toNat hbatch).trans h.configured.batch
  · exact (congrArg UInt32.toNat hsegment).trans h.configured.segment
  · show ∀ job < n,
      firstOf q (device.firstBlocks r.inputs k.segmentBlocks k.batchSize memory) job = _
    rw [hsegment, hbatch]
    exact h.fromDevice hready memory

/-- The two first blocks of each job are copied to where the fill kernel looks for them. -/
theorem copyInputBlocks_spec (h : r.Configured n q) (h2 : 2 ≤ q) (hlt : q < 2 ^ 30)
    (hfirst : ∀ job < n,
      bytesAt (Ptr.advance (Buffer.at r.blocksIn) (job * 2048)) 2048 = first job) :
    copyInputBlocks.Ensures True r (fun _ r' => Loaded n q first r') fun _ => True := by
  refine Faulty.Ensures.bind (Faulty.ensures_get ?_)
  split
  · exact Faulty.ensures_throw trivial
  refine Faulty.Ensures.bind (check_ensures (Faulty.ensures_modify ?_) trivial)
  refine ⟨⟨h.batch, h.segment, h.lanes, h.marked⟩, fun b hb job hjob => ?_⟩
  obtain ⟨b₀, -, rfl⟩ := Option.map_eq_some_iff.mp hb
  rw [← hfirst job hjob]
  show bytesAt (Ptr.advance (copyRows _ r.jobSize.toNat _ 2048 2048 r.batchSize.toNat) _) 2048 = _
  rw [h.jobSize hlt, h.batch]
  unfold jobStart
  rw [Nat.mul_assoc job]
  exact bytesAt_copyRows _ _ (by omega) hjob

/-- Either way, from the host or by the first kernel, the jobs start with the first blocks of their
passwords. -/
theorem firstBlocks_spec (h : Fed device n q first r) (h2 : 2 ≤ q) (hlt : q < 2 ^ 30) :
    (firstBlocks device r.inputs.deviceFirstBlocksReady).Ensures True r
      (fun _ r' => Loaded n q first r') fun _ => True := by
  unfold firstBlocks
  by_cases hready : r.inputs.deviceFirstBlocksReady = true
  · rw [if_pos hready]
    refine Faulty.Ensures.bind (eventRecord_ensures _ ?_ trivial)
    refine Faulty.Ensures.bind (eventRecord_ensures _ ?_ trivial)
    refine Faulty.Ensures.bind (Faulty.ensures_modify ?_)
    refine Faulty.Ensures.bind (check_ensures ?_ trivial)
    refine eventRecord_ensures _ ⟨⟨h.configured.batch, h.configured.segment, h.configured.lanes,
      h.configured.marked⟩, fun b hb => ?_⟩ trivial
    obtain ⟨b₀, -, rfl⟩ := Option.map_eq_some_iff.mp hb
    exact h.fromDevice hready b₀.bytes
  · rw [if_neg hready]
    refine Faulty.Ensures.bind ((copyInputBlocks_spec h.configured h2 hlt
      (h.fromHost (Bool.eq_false_of_not_eq_true hready))).mono (fun _ r' hr' => ?_)
        fun _ _ => trivial)
    refine Faulty.Ensures.bind (eventRecord_ensures _ ?_ trivial)
    refine Faulty.Ensures.bind (eventRecord_ensures _ ?_ trivial)
    exact eventRecord_ensures _ hr' trivial

/-- The last block of each job is copied back to the host, to the place of its job. -/
theorem copyOutputBlocks_spec {last : Nat → List UInt8} (h : r.Configured n q) (h2 : 2 ≤ q)
    (hlt : q < 2 ^ 30)
    (hlast : ∀ b, r.memory = some b → ∀ job < n, lastOf q b.bytes job = last job) :
    copyOutputBlocks.Ensures True r (fun _ r' => Output n last r') fun _ => True := by
  refine Faulty.Ensures.bind (Faulty.ensures_get ?_)
  dsimp only
  by_cases hnone : (r.memory.isNone || r.blocksOut.isNone) = true
  · rw [if_pos hnone]
    exact Faulty.ensures_throw trivial
  rw [if_neg hnone]
  refine Faulty.Ensures.bind (check_ensures (Faulty.ensures_modify fun job hjob => ?_) trivial)
  cases hm : r.memory with
  | none => simp [hm] at hnone
  | some m =>
    cases ho : r.blocksOut with
    | none => simp [ho] at hnone
    | some out =>
      rw [← hlast m hm job hjob]
      -- of each job only its last block is copied, from one block before the end
      have hcopy : (r.lanes.toUInt64 * 1024).toNat = 1024 := by
        rw [h.lanes]
        rfl
      have hsize : (r.jobSize - r.lanes.toUInt64 * 1024).toNat = (4 * q - 1) * 1024 := by
        rw [UInt64.toNat_sub_of_le _ _
          (by rw [UInt64.le_iff_toNat_le, hcopy, h.jobSize hlt]; omega), hcopy, h.jobSize hlt]
        omega
      dsimp only [Buffer.at, Buffer.write, Option.map, Option.getD]
      rw [hcopy, hsize, h.jobSize hlt, h.batch, bytesAt_copyRows _ _ (Nat.le_refl _) hjob]
      unfold lastOf jobStart
      rw [Nat.mul_assoc job, advance_advance]

/-- A run that returns leaves the last block of each job in the output buffer. -/
theorem run_spec (hdevice : device.Computes) (h : Fed device n q first r) (h2 : 2 ≤ q)
    (hlt : q < 2 ^ 30) :
    (run device).Ensures True r (fun _ r' => Output n (fun job => lastBlock q (first job)) r')
      fun _ => True := by
  refine Faulty.Ensures.bind (eventRecord_ensures _ ?_ trivial)
  refine Faulty.Ensures.bind (eventRecord_ensures _ ?_ trivial)
  refine Faulty.Ensures.bind (Faulty.ensures_get ?_)
  refine Faulty.Ensures.bind (Faulty.ensures_modify ?_)
  have hused : Fed device n q first
      { r with lastUsedDeviceFirstBlocks := r.inputs.deviceFirstBlocksReady } :=
    ⟨⟨h.configured.batch, h.configured.segment, h.configured.lanes, h.configured.marked⟩,
      h.fromDevice, h.fromHost⟩
  refine Faulty.Ensures.bind
    ((firstBlocks_spec hused h2 hlt).mono (fun _ r₁ h₁ => ?_) fun _ _ => trivial)
  refine Faulty.Ensures.bind (Faulty.ensures_modify ?_)
  refine Faulty.Ensures.bind (eventRecord_ensures _ ?_ trivial)
  refine Faulty.Ensures.bind
    (ensurePrecomputedRefs_spec.mono (fun _ r₂ h₂ => ?_) fun _ _ => trivial)
  obtain ⟨hfit, htable⟩ := h₂
  -- the table changes nothing but itself
  have hmarked : r₂.toKernelRunner.Marked := hfit.marked h₁.configured.marked
  have hmemory : r₂.memory = r₁.memory := by
    rw [hfit.same]
  have hconfigured : r₂.Configured n q := by
    refine ⟨?_, ?_, ?_, hmarked⟩
    · rw [hfit.batch]
      exact h₁.configured.batch
    · rw [hfit.segment]
      exact h₁.configured.segment
    · rw [hfit.same]
      exact h₁.configured.lanes
  have hcurrent : r₂.precomputedRefs = true → r₂.toKernelRunner.Current := fun hasked =>
    htable h₁.configured.marked hmarked hasked (by rw [hconfigured.segment]; exact h2)
      (by rw [hconfigured.segment]; exact hlt)
  refine Faulty.Ensures.bind (Faulty.ensures_modify ?_)
  refine Faulty.Ensures.bind (check_ensures ?_ trivial)
  refine Faulty.Ensures.bind (eventRecord_ensures _ ?_ trivial)
  have hfilled : Configured n q
      { r₂ with memory := Buffer.write (device.oneshot r₂.toKernelRunner) r₂.memory } :=
    ⟨hconfigured.batch, hconfigured.segment, hconfigured.lanes, hmarked⟩
  refine Faulty.Ensures.bind ((copyOutputBlocks_spec hfilled h2 hlt fun b hb job hjob => ?_).mono
    (fun _ r₃ h₃ => eventRecord_ensures _ h₃ trivial) fun _ _ => trivial)
  obtain ⟨b₀, hb₀, rfl⟩ := Option.map_eq_some_iff.mp hb
  have hkernel := hdevice.oneshot r₂.toKernelRunner b₀.bytes
  rw [hconfigured.segment, hconfigured.batch] at hkernel
  rw [hmemory] at hb₀
  rw [← h₁.rows b₀ hb₀ job hjob]
  exact hkernel h2 hlt hcurrent job hjob

end Steps

end Runner

end TreeMiner.Gpu

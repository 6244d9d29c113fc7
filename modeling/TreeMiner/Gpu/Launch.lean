import Mathlib.Data.Fintype.Prod
import TreeMiner.Gpu.Oneshot

/-!
# Launching a kernel over a batch (`hashapi/OneshotLaunch.h`)

`makeOneshotLaunch` packs `warps_per_block` warps into each thread block and rounds the
number of blocks up; a warp whose job is beyond the batch returns at once. The warps of a
launch run at the same time, in any order. What is proved of a launch holds for any kernel
that gives each warp the blocks of one job (`onJob`).

A launch is an interleaving of the programs of its warps. Each job has its own blocks, so
the programs have footprints that are apart, and the memory after any order of the
operations is what each warp would leave alone.
-/

namespace TreeMiner.Gpu

open Argon2 Interleave

def kThreadsPerLane : UInt32 := 32

def kDefaultWarpsPerBlock : UInt32 := 1

def kOneshotSharedBytesPerWarp : UInt64 := 1024

structure OneshotLaunch where
  warps_per_block : UInt32
  grid : UInt32
  threads : UInt32
  shared_bytes : UInt32

/-- `makeOneshotLaunch`. -/
def makeOneshotLaunch (batch_size : UInt64) (warps_per_block : UInt32) : OneshotLaunch :=
  let warps := if warps_per_block = 0 then kDefaultWarpsPerBlock else warps_per_block
  if batch_size = 0 ∨ warps = 0 then ⟨warps, 0, 0, 0⟩
  else
    { warps_per_block := warps
      grid := ((batch_size + warps.toUInt64 - 1) / warps.toUInt64).toUInt32
      threads := warps * kThreadsPerLane
      shared_bytes := (warps.toUInt64 * kOneshotSharedBytesPerWarp).toUInt32 }

/-- `oneshotJobId`. -/
def oneshotJobId (block_idx thread_idx warps_per_block : UInt32) : UInt64 :=
  let warps := if warps_per_block = 0 then kDefaultWarpsPerBlock else warps_per_block
  let warp := thread_idx / kThreadsPerLane
  block_idx.toUInt64 * warps.toUInt64 + warp.toUInt64

/-- A warp of a launch: its block, and the warp in the block. -/
abbrev WarpOf (L : OneshotLaunch) := Fin L.grid.toNat × Fin (L.threads / kThreadsPerLane).toNat

namespace WarpOf

variable {L : OneshotLaunch}

def blockIdx (w : WarpOf L) : UInt32 := UInt32.ofNat w.1

def warp (w : WarpOf L) : UInt32 := UInt32.ofNat w.2

/-- The job of a warp, as the kernels compute it. -/
def jobId (w : WarpOf L) : UInt32 := w.blockIdx * L.warps_per_block + w.warp

end WarpOf

/-- All warps of a launch at the beginning of a kernel. -/
def launchWarps (L : OneshotLaunch) (kernel : (blockIdx warp : UInt32) → Kernel Unit)
    (memory : Nat → BlockG) : MemConf Nat BlockG (WarpOf L) :=
  launch (fun w => some (kernel w.blockIdx w.warp)) memory

/-- A warp works on the blocks of one job, if the job is in the batch. -/
def onJob (segment_blocks batch_size warps_per_block : UInt32) (lane : Nat → Kernel Unit)
    (blockIdx warp : UInt32) : Kernel Unit :=
  let jobId := blockIdx * warps_per_block + warp
  if jobId ≥ batch_size then pure ()
  else
    let lane_blocks := ARGON2_SYNC_POINTS * segment_blocks
    lane (jobId.toUInt64 * lane_blocks.toUInt64).toNat

/-! ## Jobs and warps -/

section Geometry

variable {batch_size : UInt64} {warps_per_block : UInt32}

/-- The warps of a launch are `warps` for each of the blocks that cover the batch. -/
theorem makeOneshotLaunch_eq (h0 : batch_size ≠ 0) (hb : batch_size.toNat < 2 ^ 31)
    (h1 : 1 ≤ warps_per_block.toNat) (h16 : warps_per_block.toNat ≤ 16) :
    let L := makeOneshotLaunch batch_size warps_per_block
    L.warps_per_block = warps_per_block ∧
      L.grid.toNat =
        (batch_size.toNat + warps_per_block.toNat - 1) / warps_per_block.toNat ∧
      (L.threads / kThreadsPerLane).toNat = warps_per_block.toNat := by
  have hne : warps_per_block ≠ 0 := by
    intro h
    rw [h] at h1
    exact absurd h1 (by decide)
  have hwide : warps_per_block.toUInt64.toNat = warps_per_block.toNat := UInt32.toNat_toUInt64 _
  -- the grid is a rounded-up quotient, computed in 64 bits without wrapping
  have hsum : (batch_size + warps_per_block.toUInt64).toNat =
      batch_size.toNat + warps_per_block.toNat := by
    rw [UInt64.toNat_add, hwide]
    exact Nat.mod_eq_of_lt (by omega)
  have hpred : (batch_size + warps_per_block.toUInt64 - 1).toNat =
      batch_size.toNat + warps_per_block.toNat - 1 := by
    have hle : (1 : UInt64) ≤ batch_size + warps_per_block.toUInt64 := by
      rw [UInt64.le_iff_toNat_le, hsum]
      show 1 ≤ _
      omega
    rw [UInt64.toNat_sub_of_le _ _ hle, hsum]
    rfl
  have hthreads : (warps_per_block * kThreadsPerLane).toNat = warps_per_block.toNat * 32 := by
    rw [UInt32.toNat_mul]
    exact Nat.mod_eq_of_lt (show warps_per_block.toNat * 32 < 2 ^ 32 by omega)
  unfold makeOneshotLaunch
  simp only [h0, hne, or_self, if_false]
  refine ⟨trivial, ?_, ?_⟩
  · rw [UInt64.toNat_toUInt32, UInt64.toNat_div, hwide, hpred]
    refine Nat.mod_eq_of_lt (Nat.lt_of_le_of_lt (Nat.div_le_self _ _) ?_)
    omega
  · rw [UInt32.toNat_div, hthreads]
    exact Nat.mul_div_cancel _ (by decide)

/-- The job of a warp, without overflow. -/
theorem job_id_toNat (hb : batch_size.toNat < 2 ^ 31) (h1 : 1 ≤ warps_per_block.toNat)
    (h16 : warps_per_block.toNat ≤ 16)
    (w : WarpOf (makeOneshotLaunch batch_size warps_per_block)) :
    w.jobId.toNat = w.1 * warps_per_block.toNat + w.2 ∧
      w.1 < (batch_size.toNat + warps_per_block.toNat - 1) / warps_per_block.toNat ∧
      w.2 < warps_per_block.toNat := by
  have h0 : batch_size ≠ 0 := by
    intro h0
    have hgrid : (makeOneshotLaunch batch_size warps_per_block).grid = 0 := by
      rw [h0]
      unfold makeOneshotLaunch
      rw [if_pos (Or.inl rfl)]
    have hnone : (makeOneshotLaunch batch_size warps_per_block).grid.toNat = 0 := by
      rw [hgrid]
      rfl
    exact absurd (Nat.lt_of_lt_of_eq w.1.isLt hnone) (Nat.not_lt_zero _)
  obtain ⟨hwarps, hgrid, hwide⟩ := makeOneshotLaunch_eq h0 hb h1 h16
  have hblock : (w.1 : Nat) <
      (batch_size.toNat + warps_per_block.toNat - 1) / warps_per_block.toNat := by
    rw [← hgrid]
    exact w.1.isLt
  have hwarp : (w.2 : Nat) < warps_per_block.toNat := by
    rw [← hwide]
    exact w.2.isLt
  refine ⟨?_, hblock, hwarp⟩
  -- the last warp of the last block still has a number below 2^32
  have hle : (w.1 : Nat) * warps_per_block.toNat + warps_per_block.toNat ≤
      batch_size.toNat + warps_per_block.toNat - 1 := by
    have := Nat.mul_le_mul_right warps_per_block.toNat (Nat.succ_le_of_lt hblock)
    have hdiv := Nat.div_mul_le_self (batch_size.toNat + warps_per_block.toNat - 1)
      warps_per_block.toNat
    rw [Nat.succ_mul] at this
    exact Nat.le_trans this hdiv
  have hsmall : (w.1 : Nat) < 2 ^ 32 :=
    Nat.lt_of_lt_of_le hblock (Nat.le_trans (Nat.div_le_self _ _) (by omega))
  unfold WarpOf.jobId WarpOf.blockIdx WarpOf.warp
  rw [hwarps, UInt32.toNat_add, UInt32.toNat_mul, UInt32.toNat_ofNat_of_lt' hsmall,
    UInt32.toNat_ofNat_of_lt' (show (w.2 : Nat) < 2 ^ 32 by omega),
    Nat.mod_eq_of_lt (show (w.1 : Nat) * warps_per_block.toNat < 2 ^ 32 by omega)]
  exact Nat.mod_eq_of_lt (by omega)

/-- The host computes the same job for each thread of the warp. -/
theorem oneshotJobId_toNat (hb : batch_size.toNat < 2 ^ 31) (h1 : 1 ≤ warps_per_block.toNat)
    (h16 : warps_per_block.toNat ≤ 16) (w : WarpOf (makeOneshotLaunch batch_size warps_per_block))
    {thread : UInt32} (ht : thread < kThreadsPerLane) :
    (oneshotJobId w.blockIdx (w.warp * kThreadsPerLane + thread) warps_per_block).toNat =
      w.jobId.toNat := by
  obtain ⟨hid, hblock, hwarp⟩ := job_id_toNat hb h1 h16 w
  have hne : warps_per_block ≠ 0 := by
    intro h
    rw [h] at h1
    exact absurd h1 (by decide)
  have ht' : thread.toNat < 32 := UInt32.lt_iff_toNat_lt.mp ht
  have hw : w.warp.toNat = w.2 := UInt32.toNat_ofNat_of_lt' (show (w.2 : Nat) < 2 ^ 32 by omega)
  have hx : (w.1 : Nat) < 2 ^ 31 + 16 :=
    Nat.lt_of_lt_of_le hblock (Nat.le_trans (Nat.div_le_self _ _) (by omega))
  have hb' : w.blockIdx.toNat = w.1 :=
    UInt32.toNat_ofNat_of_lt' (show (w.1 : Nat) < 2 ^ 32 by omega)
  have hdiv : ((w.warp * kThreadsPerLane + thread) / kThreadsPerLane).toNat = w.2 := by
    rw [UInt32.toNat_div, UInt32.toNat_add, UInt32.toNat_mul, hw,
      show kThreadsPerLane.toNat = 32 from rfl, Nat.mod_eq_of_lt (a := w.2 * 32) (by omega),
      Nat.mod_eq_of_lt (by omega)]
    omega
  have hprod : (w.1 : Nat) * warps_per_block.toNat ≤ (2 ^ 31 + 16) * 16 :=
    Nat.mul_le_mul (Nat.le_of_lt hx) h16
  unfold oneshotJobId
  dsimp only
  rw [if_neg hne, UInt64.toNat_add, UInt64.toNat_mul, UInt32.toNat_toUInt64, UInt32.toNat_toUInt64,
    UInt32.toNat_toUInt64, hb', hdiv, hid, Nat.mod_eq_of_lt (a := w.1 * warps_per_block.toNat)
      (by omega)]
  exact Nat.mod_eq_of_lt (by omega)

/-- Two warps never share a job. -/
theorem job_id_injective (hb : batch_size.toNat < 2 ^ 31) (h1 : 1 ≤ warps_per_block.toNat)
    (h16 : warps_per_block.toNat ≤ 16)
    {v w : WarpOf (makeOneshotLaunch batch_size warps_per_block)}
    (h : v.jobId.toNat = w.jobId.toNat) : v = w := by
  obtain ⟨hv, -, hv2⟩ := job_id_toNat hb h1 h16 v
  obtain ⟨hw, -, hw2⟩ := job_id_toNat hb h1 h16 w
  rw [hv, hw] at h
  have hdiv : ∀ a b : Nat, b < warps_per_block.toNat →
      (a * warps_per_block.toNat + b) / warps_per_block.toNat = a := by
    intro a b hb'
    rw [Nat.add_comm, Nat.add_mul_div_right _ _ (by omega), Nat.div_eq_of_lt hb', Nat.zero_add]
  have hblock : (v.1 : Nat) = w.1 := by
    rw [← hdiv v.1 v.2 hv2, h, hdiv w.1 w.2 hw2]
  refine Prod.ext (Fin.ext hblock) (Fin.ext ?_)
  rw [hblock] at h
  exact Nat.add_left_cancel h

/-- Every job of the batch has a warp. -/
theorem exists_job_id (hb : batch_size.toNat < 2 ^ 31) (h1 : 1 ≤ warps_per_block.toNat)
    (h16 : warps_per_block.toNat ≤ 16) {job : Nat} (hj : job < batch_size.toNat) :
    ∃ w : WarpOf (makeOneshotLaunch batch_size warps_per_block), w.jobId.toNat = job := by
  have h0 : batch_size ≠ 0 := by
    intro h
    rw [h] at hj
    exact absurd hj (Nat.not_lt_zero _)
  obtain ⟨-, hgrid, hwide⟩ := makeOneshotLaunch_eq h0 hb h1 h16
  have hblock : job / warps_per_block.toNat <
      (batch_size.toNat + warps_per_block.toNat - 1) / warps_per_block.toNat := by
    have hle := Nat.div_le_div_right (c := warps_per_block.toNat)
      (show job + warps_per_block.toNat ≤ batch_size.toNat + warps_per_block.toNat - 1 by omega)
    rwa [Nat.add_div_right _ (by omega)] at hle
  refine ⟨⟨⟨job / warps_per_block.toNat, by rw [hgrid]; exact hblock⟩,
    ⟨job % warps_per_block.toNat, by rw [hwide]; exact Nat.mod_lt _ (by omega)⟩⟩, ?_⟩
  rw [(job_id_toNat hb h1 h16 _).1]
  exact Nat.div_add_mod' job warps_per_block.toNat

end Geometry

/-! ## The launch -/

section Launch

variable {segment_blocks warps_per_block : UInt32} {batch_size : UInt64}
  {lane : Nat → Kernel Unit}
  {memory : Nat → BlockG}

/-- Block `a` belongs to the job of the warp. -/
def JobBlock (segment_blocks : UInt32) (batch_size : UInt64) {L : OneshotLaunch} (w : WarpOf L)
    (a : Nat) : Prop :=
  w.jobId.toNat < batch_size.toNat ∧
    Owns segment_blocks.toNat (jobBase segment_blocks.toNat w.jobId.toNat) a

/-- An address of a job lies in the part of the memory that is its own. -/
theorem Owns.job {q job a : Nat} (h : Owns q (jobBase q job) a) : a / (4 * q) = job := by
  unfold Owns jobBase at h
  refine Nat.div_eq_of_lt_le h.1 ?_
  rw [Nat.succ_mul]
  exact h.2

/-- The launch of a kernel that works on one job per warp. -/
def launchJobs (segment_blocks : UInt32) (batch_size : UInt64) (warps_per_block : UInt32)
    (lane : Nat → Kernel Unit) (memory : Nat → BlockG) :
    MemConf Nat BlockG (WarpOf (makeOneshotLaunch batch_size warps_per_block)) :=
  launchWarps (makeOneshotLaunch batch_size warps_per_block)
    (onJob segment_blocks batch_size.toUInt32
      (makeOneshotLaunch batch_size warps_per_block).warps_per_block lane) memory

/-- What a warp does. -/
theorem onJob_eq (hlt : segment_blocks.toNat < 2 ^ 30) (hb : batch_size.toNat < 2 ^ 31)
    {L : OneshotLaunch} (w : WarpOf L) :
    onJob segment_blocks batch_size.toUInt32 L.warps_per_block lane w.blockIdx w.warp =
      if w.jobId.toNat < batch_size.toNat then
        lane (jobBase segment_blocks.toNat w.jobId.toNat)
      else pure () := by
  have hbatch : batch_size.toUInt32.toNat = batch_size.toNat := by
    rw [UInt64.toNat_toUInt32]
    exact Nat.mod_eq_of_lt (by omega)
  show (if w.jobId ≥ batch_size.toUInt32 then pure ()
    else lane (w.jobId.toUInt64 * (ARGON2_SYNC_POINTS * segment_blocks).toUInt64).toNat) = _
  rw [base_eq hlt]
  by_cases hj : w.jobId.toNat < batch_size.toNat
  · have hnot : ¬ w.jobId ≥ batch_size.toUInt32 := by
      rw [ge_iff_le, UInt32.le_iff_toNat_le, hbatch]
      omega
    rw [if_pos hj, if_neg hnot]
  · have hbeyond : w.jobId ≥ batch_size.toUInt32 := by
      rw [ge_iff_le, UInt32.le_iff_toNat_le, hbatch]
      omega
    rw [if_neg hj, if_pos hbeyond]

variable (hlt : segment_blocks.toNat < 2 ^ 30) (hb : batch_size.toNat < 2 ^ 31)
  (h1 : 1 ≤ warps_per_block.toNat) (h16 : warps_per_block.toNat ≤ 16)
  (hlane : ∀ base, (lane base).Stays (Owns segment_blocks.toNat base))

include hlt hb h1 h16 hlane

/-- Each warp goes through its own job, whatever the others do. -/
theorem launched_jobs {tr c}
    (hr : Run (parallel Nat BlockG _)
      (launchJobs segment_blocks batch_size warps_per_block lane memory) tr c) :
    Launched (fun w => some (onJob segment_blocks batch_size.toUInt32
        (makeOneshotLaunch batch_size warps_per_block).warps_per_block lane w.blockIdx w.warp))
      (JobBlock segment_blocks batch_size) memory c := by
  refine launched_of_run (fun v w hvw a hv hw => hvw ?_) (fun w p hp => ?_) hr
  · exact job_id_injective hb h1 h16 (hv.2.job.symm.trans hw.2.job)
  · rw [← Option.some.inj hp, onJob_eq hlt hb w]
    by_cases hj : w.jobId.toNat < batch_size.toNat
    · rw [if_pos hj]
      exact (hlane _).mono (fun a ha => ⟨hj, ha⟩) (fun _ _ => trivial)
    · rw [if_neg hj]
      trivial

/-- An operation is on a block of the warp's job, which is in the batch. -/
theorem launchJobs_own {tr c}
    (hr : Run (parallel Nat BlockG _)
      (launchJobs segment_blocks batch_size warps_per_block lane memory) tr c) :
    ∀ x ∈ tr, ∀ w e, x.2 = .did w e → JobBlock segment_blocks batch_size w e.op.addr := by
  intro x hx w e hl
  obtain ⟨tr₁, tr₂, ht⟩ := List.append_of_mem hx
  obtain ⟨c₂, hr₁, hs, -⟩ := hr.split ht
  rw [hl] at hs
  exact (launched_jobs hlt hb h1 h16 hlane hr₁).did_within hs

/-- At the end the blocks of each job are what its warp alone would leave. -/
theorem launchJobs_result {tr c}
    (hr : Run (parallel Nat BlockG _)
      (launchJobs segment_blocks batch_size warps_per_block lane memory) tr c)
    (hd : AllDone c) {job : Nat} (hj : job < batch_size.toNat) {k : Nat}
    (hk : k < 4 * segment_blocks.toNat) :
    c.world (jobBase segment_blocks.toNat job + k) =
      ((lane (jobBase segment_blocks.toNat job)).eval memory).2
        (jobBase segment_blocks.toNat job + k) := by
  obtain ⟨w, rfl⟩ := exists_job_id hb h1 h16 hj
  have hown : JobBlock segment_blocks batch_size w
      (jobBase segment_blocks.toNat w.jobId.toNat + k) :=
    ⟨hj, Nat.le_add_right _ _, Nat.add_lt_add_left hk _⟩
  rw [(launched_jobs hlt hb h1 h16 hlane hr).final hd rfl hown, onJob_eq hlt hb w, if_pos hj]

/-- Two runs of a launch that have ended left the same memory. -/
theorem launchJobs_unique {tr c tr' c'}
    (hr : Run (parallel Nat BlockG _)
      (launchJobs segment_blocks batch_size warps_per_block lane memory) tr c) (hd : AllDone c)
    (hr' : Run (parallel Nat BlockG _)
      (launchJobs segment_blocks batch_size warps_per_block lane memory) tr' c')
        (hd' : AllDone c') :
    c.world = c'.world := by
  have hc := launched_jobs hlt hb h1 h16 hlane hr
  have hc' := launched_jobs hlt hb h1 h16 hlane hr'
  funext a
  by_cases hown : ∃ w : WarpOf (makeOneshotLaunch batch_size warps_per_block),
      JobBlock segment_blocks batch_size w a
  · obtain ⟨w, hw⟩ := hown
    rw [hc.final hd rfl hw, hc'.final hd' rfl hw]
  · have hnone : ∀ w : WarpOf (makeOneshotLaunch batch_size warps_per_block),
        ¬ JobBlock segment_blocks batch_size w a := fun w hw => hown ⟨w, hw⟩
    rw [hc.frame a fun w _ => hnone w, hc'.frame a fun w _ => hnone w]

omit hlt hb h1 h16 hlane in
/-- A launch can be brought to its end from wherever it is. -/
theorem launchWarps_ends {L : OneshotLaunch} (c : MemConf Nat BlockG (WarpOf L)) :
    ∃ tr c', Run (parallel Nat BlockG _) c tr c' ∧ AllDone c' :=
  exists_completion Finset.univ fun w hw => absurd (Finset.mem_univ w) hw

end Launch

/-! ## The oneshot kernel -/

/-- The launch of `argon2_kernel_oneshot` with the geometry of `makeOneshotLaunch`. -/
def launchOneshot (segment_blocks : UInt32) (batch_size : UInt64) (warps_per_block : UInt32)
    (memory : Nat → BlockG) :
    MemConf Nat BlockG (WarpOf (makeOneshotLaunch batch_size warps_per_block)) :=
  launchWarps (makeOneshotLaunch batch_size warps_per_block)
    (argon2KernelOneshot segment_blocks batch_size.toUInt32
      (makeOneshotLaunch batch_size warps_per_block).warps_per_block) memory

/-- Every job has one warp; a warp touches only the blocks of its job; every launch can end;
and when it has, the blocks of each job are the memory of Argon2id over its first two. -/
theorem oneshot_argon2id (segment_blocks : UInt32) (batch_size : UInt64) (warps_per_block : UInt32)
    (memory : Nat → BlockG) (h2 : 2 ≤ segment_blocks.toNat)
    (hlt : segment_blocks.toNat < 2 ^ 30) (hb : batch_size.toNat < 2 ^ 31)
    (h1 : 1 ≤ warps_per_block.toNat)
    (h16 : warps_per_block.toNat ≤ 16) :
    (∀ job < batch_size.toNat,
      ∃! w : WarpOf (makeOneshotLaunch batch_size warps_per_block), w.jobId.toNat = job ∧
        ∀ thread < kThreadsPerLane,
          (oneshotJobId w.blockIdx (w.warp * kThreadsPerLane + thread) warps_per_block).toNat =
            job) ∧
    ∀ tr c, Run (parallel Nat BlockG _)
        (launchOneshot segment_blocks batch_size warps_per_block memory) tr c →
      (∀ x ∈ tr, ∀ w e, x.2 = .did w e → w.jobId.toNat < batch_size.toNat ∧
        Owns segment_blocks.toNat (jobBase segment_blocks.toNat w.jobId.toNat) e.op.addr) ∧
      (∃ tr' c', Run (parallel Nat BlockG _) c tr' c' ∧ AllDone c') ∧
      (AllDone c → ∀ job < batch_size.toNat, ∀ k < 4 * segment_blocks.toNat,
        c.world (jobBase segment_blocks.toNat job + k) =
          argon2id segment_blocks.toNat
            (start (memory (jobBase segment_blocks.toNat job))
              (memory (jobBase segment_blocks.toNat job + 1))) k) := by
  -- each job works in its own range of blocks, so the warps do not see each other's writes
  have hstay : ∀ base, (argon2Lane base segment_blocks).Stays (Owns segment_blocks.toNat base) :=
    fun base => lane_within rfl h2 hlt
  refine ⟨fun job hj => ?_,
    fun tr c hr => ⟨?_, launchWarps_ends c, fun hd job hj k hk => ?_⟩⟩
  · obtain ⟨w, hw⟩ := exists_job_id hb h1 h16 hj
    refine ⟨w, ⟨hw, fun thread ht => ?_⟩, fun v hv => ?_⟩
    · rw [oneshotJobId_toNat hb h1 h16 w ht, hw]
    · exact job_id_injective hb h1 h16 (hv.1.trans hw.symm)
  · exact launchJobs_own hlt hb h1 h16 hstay hr
  · rw [launchJobs_result hlt hb h1 h16 hstay hr hd hj hk, lane_eval rfl h2 hlt k]
    exact argon2id_start h2 _ hk

/-- Three jobs of eight blocks, two warps to a thread block. -/
theorem oneshot_argon2id_three_jobs :
    ∃ tr c, Run (parallel Nat BlockG _)
        (launchOneshot 2 3 2 fun a _ => UInt64.ofNat a) tr c ∧ AllDone c ∧
      c.world (jobBase 2 2 + 7) = argon2id 2 (start (fun _ => 16) fun _ => 17) 7 := by
  obtain ⟨-, hruns⟩ :=
    oneshot_argon2id 2 3 2 (fun a _ => UInt64.ofNat a) (by decide) (by decide)
    (by decide) (by decide) (by decide)
  obtain ⟨-, ⟨tr, c, hr, hd⟩, -⟩ := hruns [] _ (.nil _)
  exact ⟨tr, c, hr, hd, (hruns tr c hr).2.2 hd 2 (by decide) 7 (by decide)⟩

end TreeMiner.Gpu

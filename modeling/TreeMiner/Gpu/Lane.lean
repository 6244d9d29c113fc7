import TreeMiner.Gpu.HashBackend
import TreeMiner.Gpu.MineUnit
import TreeMiner.Gpu.Tuning
import TreeMiner.Platform.Manager

/-!
# A mining lane (`MineUnit::runMineLoop`, `runMiningOnDevice`)

A lane is one stream of a device. It makes a unit for the memory cost of the moment, lets it
mine batch after batch, and makes the next unit when the cost has changed or a batch has failed.
A unit releases the buffers of the device before it begins, and has a backend object of its own.

The lane goes by events: a unit is made, or the loop of a unit takes a turn. What an event reads
from the rest of the process is given with it.
-/

namespace TreeMiner.Gpu

open Cxx Faults

/-! ## `MiningCommon.cpp` -/

/-- What the command line has set before the lanes start. -/
structure Options where
  globalMiningDifficultyLock : Int32
  globalLockLiveLanes : Int32
  globalDevfeePermillage : Int32
  globalDevfeeAddress : Bytes
  globalEcoDevfeeAddress : Bytes
  globalMaxBatchSize : UInt64
  globalCudaStreamsPerDevice : UInt64
  globalWarpsPerBlock : UInt64
  globalPrecomputedRefs : Bool
  /-- What the self-test has recorded for the device. -/
  gpuFirstBlocksVerified : Option Bool
  build : GpuBuild

/-- `kGpuFirstBlocksEnabled`. -/
def kGpuFirstBlocksEnabled : GpuBuild → Bool
  | .cuda => true
  | .hip => false

def liveMiningDifficulty (globalDifficulty globalDifficultyMargin : Int32) : Int32 :=
  if globalDifficultyMargin ≤ 0 then globalDifficulty
  else
    let sum := globalDifficulty.toInt + globalDifficultyMargin.toInt
    if sum > 2147483647 then globalDifficulty else Int32.ofInt sum

def laneMiningDifficulty (o : Options)
    (globalDifficulty globalDifficultyMargin streamIndex : Int32) :
    Int32 :=
  if o.globalMiningDifficultyLock > 0 ∧ streamIndex ≥ o.globalLockLiveLanes then
    o.globalMiningDifficultyLock
  else liveMiningDifficulty globalDifficulty globalDifficultyMargin

def isWithinXuniWindow (tm_min : Int) : Bool := tm_min < 5 || tm_min ≥ 55

/-- What an event of a lane finds in the process, and what the calls to the device answer. -/
structure Look where
  running : Bool
  globalDifficulty : Int32
  globalDifficultyMargin : Int32
  context : MiningContext
  identity : MiningIdentityConfig
  tm_min : Int
  around : Surroundings
  answers : Answers Ptr

/-! ## `MineUnit.cpp` -/

def DEVFEE_PREFIX : Bytes := lit "FFFFFFFF"

def ECODEVFEE_PREFIX : Bytes := lit "EEEEEEEE"

/-- `std::string::substr`; behind the end it throws. -/
def substr (s : Bytes) (pos : Nat) : Option Bytes := if pos ≤ s.length then
  some (s.drop pos) else none

/-- The turn is one for the developers. -/
def feeTurn (o : Options) (identity : MiningIdentityConfig) (batchComputeCount : Nat) : Bool :=
  identity.selfMiningPrefix.isEmpty &&
    1000 - (batchComputeCount : Int) ≤ o.globalDevfeePermillage.toInt

/-- `extractedSalt` and `keyPrefix`. -/
def mineWork (o : Options) (ctx : MiningContext) (identity : MiningIdentityConfig)
    (batchComputeCount : Nat) : Option (Bytes × Bytes) :=
  match ctx.mode with
  | .PLATFORM_MINING =>
    some (if ctx.address.take 2 = lit "0x" then ctx.address.drop 2 else ctx.address, ctx.prefix_)
  | .SELF_MINING => do
    let extractedSalt ← substr identity.userAddress 2
    if !identity.selfMiningPrefix.isEmpty then
      some (extractedSalt, identity.selfMiningPrefix)
    else if feeTurn o identity batchComputeCount then
      if 1000 - (batchComputeCount : Int) ≤ o.globalDevfeePermillage.toInt.tdiv 2 &&
          !o.globalEcoDevfeeAddress.isEmpty then do
        let ecoSalt ← substr o.globalEcoDevfeeAddress 2
        some (ecoSalt, ECODEVFEE_PREFIX ++ extractedSalt)
      else do
        let feeSalt ← substr o.globalDevfeeAddress 2
        some (feeSalt, DEVFEE_PREFIX ++ extractedSalt)
    else some (extractedSalt, [])

structure MineUnit where
  hashBackend_ : CudaHashBackend
  difficulty : UInt64
  batchSize : UInt64
  streamIndex_ : Int32
  attempts : UInt64
  /-- The counter of `runMineLoop`. -/
  batchComputeCount : Nat

/-- The request of `batchCompute`. -/
def MineUnit.request (o : Options) (u : MineUnit) (tm_min : Int)
    (salt keyPrefix targetPattern : Bytes) :
    HashApiRequest where
  backend := lit "cuda"
  salt_hex := salt
  key_prefix := keyPrefix
  target_pattern := targetPattern
  difficulty := u.difficulty.toUInt32
  batch_size := u.batchSize
  device_id := u.hashBackend_.backend_.deviceIndex_
  allow_xuni := isWithinXuniWindow tm_min
  first_block_dynamic_chunk_auto := true
  gpu_first_blocks := o.gpuFirstBlocksVerified.getD (kGpuFirstBlocksEnabled o.build)
  warps_per_block := o.globalWarpsPerBlock
  precomputed_refs := o.globalPrecomputedRefs

/-! ## The lane -/

/-- A lane: the backend of its device, and the unit that is at work. -/
structure Lane where
  backend : CudaBackend
  streamIndex : Int32
  unit : Option MineUnit
  /-- The thread has come to its end, or an exception has left it. -/
  ended : Bool

/-- A batch that a lane has mined, with what its turn has found and what was submitted. -/
structure Batch where
  look : Look
  batchComputeCount : Nat
  request : HashApiRequest
  result : HashApiResult
  calls : List SubmitCall

inductive Event where
  /-- `runMiningOnDevice` makes a unit, and `runMineLoop` goes up to its loop. -/
  | construct (look : Look) (totalMemory freeMemory : UInt64)
  /-- A turn of the loop in `runMineLoop`. -/
  | turn (look : Look)

namespace Lane

/-- A lane with the backend that the main thread has made for it. -/
def new (deviceIndex : Int) (streamIndex : Int32) : Lane :=
  ⟨CudaBackend.new deviceIndex, streamIndex, none, false⟩

def kDeviceHeadroom : UInt64 := 512 * 1024 * 1024

/-- The memory that a lane may take, where a device has several. -/
def shareOf (o : Options) (totalMemory freeMemory : UInt64) : UInt64 :=
  if o.globalCudaStreamsPerDevice > 1 then
    let shareableMemory := if totalMemory > kDeviceHeadroom then
      totalMemory - kDeviceHeadroom else totalMemory
    min freeMemory (shareableMemory / o.globalCudaStreamsPerDevice)
  else freeMemory

/-- A new unit, as far as its loop; no unit where there is no memory for a batch. -/
def construct (o : Options) (look : Look) (totalMemory freeMemory : UInt64) (lane : Lane) : Lane :=
  if !look.running then { lane with ended := true }
  else
    let difficulty := (laneMiningDifficulty o look.globalDifficulty look.globalDifficultyMargin
      lane.streamIndex).toInt64.toUInt64
    match CudaBackend.activate lane.backend look.answers with
    | (none, backend, _) => { lane with backend, ended := true }
    | (some (), backend, _) =>
      let backend := backend.releaseBuffers
      let decision :=
        selectCudaBatchSize o.build (shareOf o totalMemory freeMemory) difficulty.toUInt32
        o.globalMaxBatchSize
      if decision.selected_batch_size = 0 then { lane with backend }
      else
        { lane with
          backend
          unit := some ⟨⟨backend, [], false, 0, 0⟩, difficulty, decision.selected_batch_size,
            lane.streamIndex, 0, 0⟩ }

/-- The unit is given up; the backend stays with the lane. -/
def dropUnit (u : MineUnit) (lane : Lane) : Lane :=
  { lane with backend := u.hashBackend_.backend_, unit := none }

/-- A turn of the loop, and the batch that it has mined. -/
def turn (device : Device) (o : Options) (look : Look) (u : MineUnit) (lane : Lane) :
    Lane × Option Batch :=
  if !look.running then (lane.dropUnit u, none)
  else if laneMiningDifficulty o look.globalDifficulty look.globalDifficultyMargin
    u.streamIndex_ ≠
      u.difficulty.toUInt32.toInt32 then (lane.dropUnit u, none)
  else
    match mineWork o look.context look.identity u.batchComputeCount with
    | none => ({ lane.dropUnit u with ended := true }, none)
    | some (extractedSalt, keyPrefix) =>
      let blockPattern :=
        if look.identity.testBlockPattern.isEmpty then lit "XEN11"
        else look.identity.testBlockPattern
      let request := u.request o look.tm_min extractedSalt keyPrefix blockPattern
      match CudaHashBackend.runBatch device look.around request u.hashBackend_ look.answers with
      | (none, hashBackend_, _) =>
        ({ lane.dropUnit { u with hashBackend_ } with ended := true }, none)
      | (some result, hashBackend_, _) =>
        if !result.ok then (lane.dropUnit { u with hashBackend_ }, none)
        else
          let (calls, attempts) := submitMatches u.difficulty u.attempts extractedSalt result
          let batchComputeCount :=
            if u.batchComputeCount + 1 ≥ 1000 then 0 else u.batchComputeCount + 1
          ({ lane with unit := some { u with hashBackend_, attempts, batchComputeCount } },
            some ⟨look, u.batchComputeCount, request, result, calls⟩)

/-- An event; one that the lane cannot take changes nothing. -/
def step (device : Device) (o : Options) (lane : Lane) : Event → Lane × Option Batch
  | .construct look totalMemory freeMemory =>
    if lane.ended || lane.unit.isSome then (lane, none)
    else (lane.construct o look totalMemory freeMemory, none)
  | .turn look =>
    match lane.ended, lane.unit with
    | false, some u => lane.turn device o look u
    | _, _ => (lane, none)

/-- A run of a lane, and the batches it has mined. -/
def run (device : Device) (o : Options) : Lane → List Event → Lane × List Batch
  | lane, [] => (lane, [])
  | lane, event :: events =>
    let (lane, batch) := lane.step device o event
    let (lane, batches) := run device o lane events
    (lane, batch.toList ++ batches)

end Lane

/-! ## The work of the CPU workers (`main.cpp`) -/

/-- What a call of the `work` function finds in the process. -/
structure WorkCall where
  context : MiningContext
  identity : MiningIdentityConfig
  tm_min : Int

/-- The salt and the prefix of a CPU batch, and `cpuWorkSequence` after it. -/
def cpuMineWork (o : Options) (c : WorkCall) (cpuWorkSequence : UInt64) :
    Option (Bytes × Bytes) × UInt64 :=
  match c.context.mode with
  | .PLATFORM_MINING =>
    (some
      (if c.context.address.take 2 = lit "0x" then c.context.address.drop 2 else c.context.address,
      c.context.prefix_), cpuWorkSequence)
  | .SELF_MINING =>
    match substr c.identity.userAddress 2 with
    | none => (none, cpuWorkSequence)
    | some userSalt =>
      if c.identity.selfMiningPrefix.isEmpty && o.globalDevfeePermillage > 0 then
        let slot := cpuWorkSequence % 1000
        let permillage := o.globalDevfeePermillage.toInt64.toUInt64
        let feeStart := 1000 - permillage
        if slot ≥ feeStart then
          let useEcoFee := !o.globalEcoDevfeeAddress.isEmpty &&
            slot ≥ 1000 - (o.globalDevfeePermillage / 2).toInt64.toUInt64
          ((substr (if useEcoFee then o.globalEcoDevfeeAddress else o.globalDevfeeAddress) 2).map
            fun salt =>
            (salt, (if useEcoFee then ECODEVFEE_PREFIX else DEVFEE_PREFIX) ++ userSalt),
            cpuWorkSequence + 1)
        else (some (userSalt, c.identity.selfMiningPrefix), cpuWorkSequence + 1)
      else (some (userSalt, c.identity.selfMiningPrefix), cpuWorkSequence)

/-- The calls of all workers, in the order in which they take their numbers. -/
def cpuWorks (o : Options) : UInt64 → List WorkCall → List (WorkCall × Option Work)
  | _, [] => []
  | cpuWorkSequence, c :: cs =>
    let (mined, sequence) := cpuMineWork o c cpuWorkSequence
    let work := mined.map fun (salt_hex, key_prefix) =>
      { salt_hex, key_prefix
        target_pattern := if c.identity.testBlockPattern.isEmpty then
          lit "XEN11" else c.identity.testBlockPattern
        allow_xuni := isWithinXuniWindow c.tm_min }
    (c, work) :: cpuWorks o sequence cs

end TreeMiner.Gpu

import TreeMiner.Gpu.FirstBlocks
import TreeMiner.Gpu.Precomputed

/-!
# The runner and its owner (`kernelrunner.cu`, `CudaBackend.cpp`)

`KernelRunner` with all its members, and the `CudaBackend` that makes one, reuses it or replaces
it. Every CUDA call and every allocation may throw; what was assigned before stays. Work that is
queued on the stream is done in the order of the calls, so it is done here at the call.

A call that is given a null handle or a null pointer fails.

What is assigned before a failing call is part of the model because it is what the next request
finds. The times that events measure are asked for like any other answer and are used for
nothing but reports.
-/

namespace TreeMiner.Gpu

open Cxx Faults RefTable

/-- Memory that `cudaMalloc` or `new[]` has given. -/
structure Buffer where
  size : Nat
  bytes : Ptr

/-- The events of a runner. -/
inductive CudaEvent where
  | start
  | «end»
  | copyStart
  | copyEnd
  | firstBlockStart
  | firstBlockEnd
  | kernelStart
  | kernelEnd
  deriving DecidableEq

/-- What the launched kernels leave in device memory: `argon2_first_blocks_kernel`, and the kernel
that `runKernelOneshot` launches. -/
structure Device where
  firstBlocks : DeviceInputs → (segmentBlocks : UInt32) → (batchSize : UInt64) → Ptr → Ptr
  oneshot : KernelRunner → Ptr → Ptr

/-- `KernelRunner` with all its members; `events` are those that are not null. -/
structure Runner extends KernelRunner where
  type : UInt32
  version : UInt32
  passes : UInt32
  lanes : UInt32
  allocatedSegmentBlocks : UInt32
  events : List CudaEvent
  stream : Bool
  memory : Option Buffer
  inputs : DeviceInputs
  lastUsedDeviceFirstBlocks : Bool
  blocksIn : Option Buffer
  blocksOut : Option Buffer

/-- What is read where no buffer is. -/
def Buffer.at (b : Option Buffer) : Ptr := (b.map Buffer.bytes).getD fun _ => 0

/-- Write over the contents of a buffer. -/
def Buffer.write (f : Ptr → Ptr) (b : Option Buffer) : Option Buffer :=
  b.map fun b => { b with bytes := f b.bytes }

/-- `cudaMemcpy2DAsync`: `height` rows of `width` bytes. -/
def copyRows (dst : Ptr) (dpitch : Nat) (src : Ptr) (spitch width height : Nat) : Ptr := fun a =>
  if a / dpitch < height ∧ a % dpitch < width then src (a / dpitch * spitch + a % dpitch)
  else dst a

namespace Runner

/-- The constructor. -/
def new (type version passes lanes segmentBlocks : UInt32) (batchSize : UInt64) : Runner where
  toKernelRunner := KernelRunner.new segmentBlocks batchSize
  type := type
  version := version
  passes := passes
  lanes := lanes
  allocatedSegmentBlocks := segmentBlocks
  events := []
  stream := false
  memory := none
  inputs := DeviceInputs.new
  lastUsedDeviceFirstBlocks := false
  blocksIn := none
  blocksOut := none

/-! ## Making a runner -/

/-- A call that answers nothing. -/
def check : Faulty Ptr Runner Unit := do
  let _ ← Faulty.call

/-- `cudaEventCreate`. -/
def eventCreate (e : CudaEvent) : Faulty Ptr Runner Unit := do
  check
  Faulty.modify fun r => { r with events := e :: r.events }

/-- `init`. -/
def init (batchSize : UInt64) : Faulty Ptr Runner Unit := do
  Faulty.modify
    fun r => { r with batchSize := batchSize, allocatedSegmentBlocks := r.segmentBlocks }
  check
  Faulty.modify fun r =>
    { r with blocksIn := some ⟨(r.batchSize * 1 * 2 * 1024).toNat, fun _ => 0⟩ }
  check
  Faulty.modify
    fun r => { r with blocksOut := some ⟨(r.batchSize * 1 * 1024).toNat, fun _ => 0⟩ }
  let fresh ← Faulty.call
  Faulty.modify fun r =>
    let memorySize := r.batchSize * 1 * r.allocatedSegmentBlocks.toUInt64 *
      ARGON2_SYNC_POINTS.toUInt64 * 1024
    { r with memory := some ⟨memorySize.toNat, fresh⟩ }
  eventCreate .start
  eventCreate .end
  eventCreate .copyStart
  eventCreate .copyEnd
  eventCreate .firstBlockStart
  eventCreate .firstBlockEnd
  eventCreate .kernelStart
  eventCreate .kernelEnd
  check
  Faulty.modify fun r => { r with stream := true }

def canReuse (r : Runner) (type version passes lanes segmentBlocks : UInt32) (batchSize : UInt64) :
    Bool :=
  r.type = type && r.version = version && r.passes = passes && r.lanes = lanes &&
    r.batchSize = batchSize && segmentBlocks ≤ r.allocatedSegmentBlocks

def reconfigure (type version passes lanes segmentBlocks : UInt32) (batchSize : UInt64)
    (r : Runner) : Runner :=
  { r with
    toKernelRunner := r.toKernelRunner.reconfigure segmentBlocks batchSize
    type := type
    version := version
    passes := passes
    lanes := lanes
    inputs := { r.inputs with deviceFirstBlocksReady := false }
    lastUsedDeviceFirstBlocks := false }

/-! ## A batch -/

/-- `cudaEventRecord`. -/
def eventRecord (e : CudaEvent) : Faulty Ptr Runner Unit := do
  let r ← Faulty.get
  if r.events.any fun c => c = e then check else Faulty.throw

/-- `cudaEventElapsedTime`; the time is left out. -/
def eventElapsedTime (first last : CudaEvent) : Faulty Ptr Runner Unit := do
  let r ← Faulty.get
  if (r.events.any fun c => c = first) && r.events.any fun c => c = last then check
  else Faulty.throw

def prepareInputBlocksOnDevice (passwords : List Bytes) (saltBytes : Bytes)
    (outputLength memoryCost timeCost version type lanes : UInt32) : Faulty Ptr Runner Bool := do
  let r ← Faulty.get
  (DeviceInputs.prepareInputBlocksOnDevice r.batchSize passwords saltBytes outputLength memoryCost
    timeCost version type lanes).zoom (·.inputs) fun i r => { r with inputs := i }

/-- The bytes of a job in device memory. -/
def jobSize (r : Runner) : UInt64 :=
  r.lanes.toUInt64 * r.segmentBlocks.toUInt64 * ARGON2_SYNC_POINTS.toUInt64 * 1024

def copyInputBlocks : Faulty Ptr Runner Unit := do
  let r ← Faulty.get
  if r.memory.isNone || r.blocksIn.isNone then Faulty.throw
  else
    check
    Faulty.modify fun r => { r with
      memory := Buffer.write (fun m => copyRows m r.jobSize.toNat (Buffer.at r.blocksIn) 2048 2048
        r.batchSize.toNat) r.memory }

def copyOutputBlocks : Faulty Ptr Runner Unit := do
  let r ← Faulty.get
  if r.memory.isNone || r.blocksOut.isNone then Faulty.throw
  else
    check
    Faulty.modify fun r =>
      let copySize := r.lanes.toUInt64 * 1024
      { r with
        blocksOut := Buffer.write (fun out => copyRows out copySize.toNat
          (Ptr.advance (Buffer.at r.memory) (r.jobSize - copySize).toNat) r.jobSize.toNat
          copySize.toNat r.batchSize.toNat) r.blocksOut }

def runDeviceFirstBlockKernel (device : Device) : Faulty Ptr Runner Unit :=
  Faulty.modify fun r => { r with
    memory := Buffer.write (device.firstBlocks r.inputs r.segmentBlocks r.batchSize) r.memory }

def runKernelOneshot (device : Device) : Faulty Ptr Runner Unit :=
  Faulty.modify fun r => { r with
    memory := Buffer.write (device.oneshot r.toKernelRunner) r.memory }

/-- Bytes as the entries of a table. -/
def tableAt (p : Ptr) : Nat → UInt32 := fun i =>
  UInt32.ofNat (Blake2.leNat (bytesAt (p.advance (4 * i)) 4))

/-- `ensurePrecomputedRefs` from `generateIndexedRefTable` on. -/
def makeRefs : Faulty Ptr Runner Unit := do
  let r ← Faulty.get
  let table := generateIndexedRefTable r.segmentBlocks
  if table.isEmpty then pure ()
  else
    let fresh ← Faulty.call
    Faulty.modify fun r => { r with refs := some (tableAt fresh) }
    check
    Faulty.modify fun r => { r with
      refs := r.refs.map (KernelRunner.copyTable table)
      refsSegmentBlocks := r.segmentBlocks }

def ensurePrecomputedRefs : Faulty Ptr Runner Unit := do
  let r ← Faulty.get
  if !r.precomputedRefs then pure ()
  else if r.refs.isSome && r.refsSegmentBlocks = r.segmentBlocks then pure ()
  else if r.refs.isSome then
    check
    Faulty.modify fun r => { r with refs := none, refsSegmentBlocks := 0 }
    makeRefs
  else makeRefs

/-- The first blocks, from the device keys or from the host buffer. -/
def firstBlocks (device : Device) (useDeviceFirstBlocks : Bool) : Faulty Ptr Runner Unit := do
  if useDeviceFirstBlocks then
    eventRecord .copyEnd
    eventRecord .firstBlockStart
    runDeviceFirstBlockKernel device
    check
    eventRecord .firstBlockEnd
  else
    copyInputBlocks
    eventRecord .copyEnd
    eventRecord .firstBlockStart
    eventRecord .firstBlockEnd

/-- `run`. -/
def run (device : Device) : Faulty Ptr Runner Unit := do
  eventRecord .start
  eventRecord .copyStart
  let r ← Faulty.get
  let useDeviceFirstBlocks := r.inputs.deviceFirstBlocksReady
  Faulty.modify fun r => { r with lastUsedDeviceFirstBlocks := useDeviceFirstBlocks }
  firstBlocks device useDeviceFirstBlocks
  Faulty.modify fun r => { r with inputs := { r.inputs with deviceFirstBlocksReady := false } }
  eventRecord .kernelStart
  ensurePrecomputedRefs
  runKernelOneshot device
  check
  eventRecord .kernelEnd
  copyOutputBlocks
  eventRecord .end

def finish : Faulty Ptr Runner Unit := do
  check
  eventElapsedTime .kernelStart .kernelEnd

def getLastHostToDeviceMs : Faulty Ptr Runner Unit := eventElapsedTime .copyStart .copyEnd

def getLastGpuFirstBlockMs : Faulty Ptr Runner Unit := do
  let r ← Faulty.get
  if !r.lastUsedDeviceFirstBlocks then pure ()
  else eventElapsedTime .firstBlockStart .firstBlockEnd

def getLastDeviceToHostMs : Faulty Ptr Runner Unit := eventElapsedTime .kernelEnd .end

end Runner

/-! ## `CudaBackend.cpp` -/

structure CudaBackend where
  deviceIndex_ : Int
  runner_ : Option Runner
  warpsPerBlock_ : UInt32
  precomputedRefs_ : Bool

namespace CudaBackend

/-- A backend before its first `init`. -/
def new (deviceIndex : Int) : CudaBackend := ⟨deviceIndex, none, 1, false⟩

/-- A member function of the runner; through a null pointer nothing is returned. -/
def onRunner {α : Type} (m : Faulty Ptr Runner α) : Faulty Ptr CudaBackend α := fun b as =>
  match b.runner_ with
  | none => (none, b, as)
  | some r =>
    match m r as with
    | (a, r, as) => (a, { b with runner_ := some r }, as)

/-- `cudaSetDevice`. -/
def activate : Faulty Ptr CudaBackend Unit := do
  let _ ← Faulty.call

/-- `init`. -/
def init (batchSize : UInt64) (type version passes lanes segmentBlocks : UInt32) :
    Faulty Ptr CudaBackend Unit := do
  let b ← Faulty.get
  if b.runner_.any fun r => r.canReuse type version passes lanes segmentBlocks batchSize then
    Faulty.modify fun b => { b with
      runner_ :=
        b.runner_.map (Runner.reconfigure type version passes lanes segmentBlocks batchSize) }
  else
    -- the new runner is in place before its `init` is called
    let _ ← Faulty.call
    Faulty.modify fun b => { b with
      runner_ := some (Runner.new type version passes lanes segmentBlocks batchSize) }
    onRunner (Runner.init batchSize)

def releaseBuffers (b : CudaBackend) : CudaBackend := { b with runner_ := none }

def prepareInputBlocksOnDevice (passwords : List Bytes) (saltBytes : Bytes)
    (outputLength memoryCost timeCost version type lanes : UInt32) :
    Faulty Ptr CudaBackend Bool := do
  let b ← Faulty.get
  if b.runner_.isNone then return false
  else
    onRunner (Runner.prepareInputBlocksOnDevice passwords saltBytes outputLength memoryCost timeCost
      version type lanes)

def setWarpsPerBlock (warps : UInt32) (b : CudaBackend) : CudaBackend :=
  if warps = 0 then { b with warpsPerBlock_ := 1 }
  else if warps > kMaxWarpsPerBlock then { b with warpsPerBlock_ := kMaxWarpsPerBlock }
  else { b with warpsPerBlock_ := warps }

def setPrecomputedRefs (enabled : Bool) (b : CudaBackend) : CudaBackend :=
  { b with precomputedRefs_ := enabled }

def run (device : Device) : Faulty Ptr CudaBackend Unit := do
  let b ← Faulty.get
  if b.runner_.isNone then pure ()
  else
    onRunner (Faulty.modify fun r =>
      { r with toKernelRunner := r.toKernelRunner.setWarpsPerBlock b.warpsPerBlock_ })
    onRunner (Faulty.modify fun r =>
      { r with toKernelRunner := r.toKernelRunner.setPrecomputedRefs b.precomputedRefs_ })
    onRunner (Runner.run device)

def finish : Faulty Ptr CudaBackend Unit := onRunner Runner.finish

/-- One of the times of the last batch. -/
def lastMs (m : Faulty Ptr Runner Unit) : Faulty Ptr CudaBackend Unit := do
  let b ← Faulty.get
  if b.runner_.isNone then pure () else onRunner m

def getLastHostToDeviceMs : Faulty Ptr CudaBackend Unit := lastMs Runner.getLastHostToDeviceMs

def getLastGpuFirstBlockMs : Faulty Ptr CudaBackend Unit := lastMs Runner.getLastGpuFirstBlockMs

def getLastDeviceToHostMs : Faulty Ptr CudaBackend Unit := lastMs Runner.getLastDeviceToHostMs

end CudaBackend

end TreeMiner.Gpu

import TreeMiner.Gpu.Request
import TreeMiner.Gpu.Runner

/-!
# `hashapi/CudaHashBackend.cpp`: a batch from request to result

`runBatch` validates a request, sees to it that the backend is initialised for its shape, fills
in the first blocks on the host or has the device compute them, runs the kernel and looks
through the digests. What it remembers between requests is in three objects.

They are transcribed here member by member, with the places at which an exception can leave
them: a request that fails half-way leaves its marks behind, and the next request looks at
them. What follows from that is proved in `Initialization`, `Inputs` and `Pairing`.
-/

namespace TreeMiner.Gpu

open Cxx Faults

/-! ## `Argon2Params::finalize` -/

/-- The last blocks of the lanes, one xored into the other. -/
def xorLanes (memory : Ptr) : Nat → Ptr
  | 0 => memory
  | l + 1 => fun i => xorLanes memory l i ^^^ memory ((l + 1) * 1024 + i)

def Argon2Params.finalize (p : Argon2Params) (memory : Ptr) : List UInt8 :=
  if p.lanes = 1 then digestLong p.outLen.toUInt64 memory 1024
  else digestLong p.outLen.toUInt64 (xorLanes memory (p.lanes.toNat - 1)) 1024

/-! ## The backend -/

structure CudaHashBackend where
  backend_ : CudaBackend
  password_storage_ : List Bytes
  initialized_ : Bool
  initialized_batch_size_ : UInt64
  initialized_segment_blocks_ : UInt32

/-- What a request meets that is neither in it nor in the backend: the number of hardware
threads, the numbers a key generator gives, and the text of an exception. -/
structure Surroundings where
  hardware_threads : UInt64
  generator : Nat → UInt64
  what : Bytes

def ARGON2_ID : UInt32 := 2

def ARGON2_VERSION_13 : UInt32 := 0x13

namespace HashApiRequest

/-- A request for one given key. -/
def singleKey (request : HashApiRequest) : Bool := !(normalizeHex request.key).isEmpty

def attempts (request : HashApiRequest) : UInt64 :=
  if request.singleKey then 1 else request.batch_size

def params (request : HashApiRequest) : Argon2Params :=
  Argon2Params.new ARGON2_ID ARGON2_VERSION_13 kDefaultHashLength (normalizeHex request.salt_hex)
    (fun _ => 0) 0 (fun _ => 0) 0 1 request.difficulty.toUInt64 1

def keyGenerator (request : HashApiRequest) (around : Surroundings) : RandomHexKeyGenerator :=
  RandomHexKeyGenerator.new (normalizeHex request.key_prefix) kHashApiKeyLength around.generator

/-- The keys of a batch. -/
def keys (request : HashApiRequest) (around : Surroundings) : List Bytes :=
  if request.singleKey then [normalizeHex request.key]
  else RandomHexKeyGenerator.keys request.attempts.toNat (request.keyGenerator around)

end HashApiRequest

namespace CudaHashBackend

/-- A backend over a `CudaBackend` that has not been used. -/
def new (deviceIndex : Int) : CudaHashBackend := ⟨CudaBackend.new deviceIndex, [], false, 0, 0⟩

def onBackend {α : Type} (m : Faulty Ptr CudaBackend α) : Faulty Ptr CudaHashBackend α :=
  m.zoom (·.backend_) fun b s => { s with backend_ := b }

def ensureInitialized (params : Argon2Params) (batch_size : UInt64) :
    Faulty Ptr CudaHashBackend Unit := do
  let s ← Faulty.get
  let segment_blocks := params.segmentBlocks
  if s.initialized_ && s.initialized_batch_size_ = batch_size &&
      s.initialized_segment_blocks_ = segment_blocks then
    pure ()
  else
    onBackend (CudaBackend.init batch_size ARGON2_ID ARGON2_VERSION_13 1 1 segment_blocks)
    Faulty.modify fun s => { s with
      initialized_ := true
      initialized_batch_size_ := batch_size
      initialized_segment_blocks_ := segment_blocks }

/-! ### The first blocks -/

/-- `fillPasswordBlock`: the first blocks of a key go where `getInputMemory` points. Through a
null pointer nothing is returned. -/
def fillPasswordBlock (params : Argon2Params) (index : UInt64) (password : Bytes) :
    Faulty Ptr Runner Unit := do
  let r ← Faulty.get
  match params.fillFirstBlocks (array password) (UInt64.ofNat password.length) with
  | none => Faulty.throw
  | some blocks =>
    if r.blocksIn.isNone then Faulty.throw
    else
      Faulty.modify fun r => { r with
        blocksIn := Buffer.write (fun m => copyAt m (index * (1 * 2 * 1024)).toNat (array blocks)
          blocks.length) r.blocksIn }

/-- `fillPasswordBlocks`, in the order of the keys. -/
def fillPasswordBlocks (params : Argon2Params) : UInt64 → List Bytes → Faulty Ptr Runner Unit
  | _, [] => pure ()
  | index, password :: passwords => do
    fillPasswordBlock params index password
    fillPasswordBlocks params (index + 1) passwords

def pushPassword (password : Bytes) : Faulty Ptr CudaHashBackend Unit :=
  Faulty.modify fun s => { s with password_storage_ := s.password_storage_ ++ [password] }

/-- The loop that draws a key, fills its blocks and keeps it, `n` turns from `index` on. -/
def drawAndFill (params : Argon2Params) : Nat → UInt64 → RandomHexKeyGenerator →
    Faulty Ptr CudaHashBackend Unit
  | 0, _, _ => pure ()
  | n + 1, index, g => do
    let (key, g) := g.nextRandomKey
    onBackend (CudaBackend.onRunner (fillPasswordBlock params index key))
    pushPassword key
    drawAndFill params n (index + 1) g

/-- The keys are kept, and the device is told to make the first blocks. -/
def deviceInput (around : Surroundings) (request : HashApiRequest) :
    Faulty Ptr CudaHashBackend Unit := do
  Faulty.modify fun s => { s with
    password_storage_ := s.password_storage_ ++ request.keys around }
  match decodeHexBytes (normalizeHex request.salt_hex) with
  | none => Faulty.throw
  | some salt_bytes =>
    let s ← Faulty.get
    let params := request.params
    let prepared ← onBackend
      (CudaBackend.prepareInputBlocksOnDevice s.password_storage_ salt_bytes
      params.outLen params.m_cost params.t_cost params.version params.type params.lanes)
    if prepared then pure () else Faulty.throw

/-- The first blocks are filled in on the host. -/
def hostInput (around : Surroundings) (request : HashApiRequest) :
    Faulty Ptr CudaHashBackend Unit := do
  if firstBlockWorkerCount around.hardware_threads request.attempts
      request.first_block_workers ≤ 1 then
    if request.singleKey then
      pushPassword (normalizeHex request.key)
      onBackend (CudaBackend.onRunner
        (fillPasswordBlock request.params 0 (normalizeHex request.key)))
    else
      drawAndFill request.params request.attempts.toNat 0 (request.keyGenerator around)
  else
    Faulty.modify fun s => { s with
      password_storage_ := s.password_storage_ ++
        RandomHexKeyGenerator.keys request.attempts.toNat (request.keyGenerator around) }
    let s ← Faulty.get
    onBackend (CudaBackend.onRunner (fillPasswordBlocks request.params 0 s.password_storage_))

/-- The input phase. -/
def input (around : Surroundings) (request : HashApiRequest) : Faulty Ptr CudaHashBackend Unit := do
  Faulty.modify fun s => { s with password_storage_ := [] }
  -- `reserve` may run out of memory
  let _ ← Faulty.call
  if request.gpu_first_blocks then deviceInput around request else hostInput around request

/-! ### The digests -/

/-- The compute phase. -/
def compute (device : Device) (request : HashApiRequest) : Faulty Ptr CudaHashBackend Unit := do
  onBackend
    (Faulty.modify (CudaBackend.setWarpsPerBlock (resolveWarpsPerBlock request.warps_per_block)))
  onBackend (Faulty.modify (CudaBackend.setPrecomputedRefs request.precomputed_refs))
  onBackend (CudaBackend.run device)
  onBackend CudaBackend.finish
  onBackend CudaBackend.getLastHostToDeviceMs
  onBackend CudaBackend.getLastGpuFirstBlockMs
  onBackend CudaBackend.getLastDeviceToHostMs

def kFinalizeTimingChunkSize : Nat := 64

/-- The hashes of a chunk; `out` is the output memory. -/
def finalizedHashes (params : Argon2Params) (out : Ptr) (first count : Nat) : List Bytes :=
  (List.range count).map fun offset =>
    base64EncodeInto (params.finalize (out.advance ((first + offset) * 1024)))

/-- The matches of a chunk. -/
def chunkMatches (request : HashApiRequest) (passwords : List Bytes) (first : Nat)
    (hashes : List Bytes) : List HashApiMatch :=
  hashes.zipIdx.flatMap fun (hash, offset) =>
    appendMatches request (passwords.getD (first + offset) []) hash (first + offset)

/-- The loop over the chunks, from attempt `first` on. -/
def finalizeFrom (request : HashApiRequest) (passwords : List Bytes) (out : Ptr) (first : Nat)
    (result : HashApiResult) : HashApiResult :=
  let attempts := request.attempts.toNat
  if first < attempts then
    let count := min attempts (first + kFinalizeTimingChunkSize) - first
    let hashes := finalizedHashes request.params out first count
    finalizeFrom request passwords out (first + kFinalizeTimingChunkSize)
      { result with
        hash := if request.singleKey then hashes.getLastD result.hash else result.hash
        «matches» := result.«matches» ++ chunkMatches request passwords first hashes }
  else result
termination_by request.attempts.toNat - first
decreasing_by
  show request.attempts.toNat - (first + 64) < _
  omega

/-! ### `runBatch` -/

/-- From `ensureInitialized` on. -/
def batch (device : Device) (around : Surroundings) (request : HashApiRequest)
    (result : HashApiResult) : Faulty Ptr CudaHashBackend HashApiResult := do
  ensureInitialized request.params request.attempts
  input around request
  compute device request
  let s ← Faulty.get
  let out := Buffer.at (s.backend_.runner_.bind Runner.blocksOut)
  let result := finalizeFrom request s.password_storage_ out 0 result
  return { result with
    ok := true
    attempts := request.attempts
    batch_size := request.attempts
    batch_size_min := request.attempts
    batch_size_max := request.attempts }

/-- The workers and chunks that are reported. -/
def chooseWorkers (around : Surroundings) (request : HashApiRequest) (result : HashApiResult) :
    HashApiResult :=
  let attempts := request.attempts
  let workerCount := firstBlockWorkerCount around.hardware_threads attempts
    request.first_block_workers
  let requested_dynamic_chunk_size :=
    if request.first_block_dynamic_chunk_size > 0 then request.first_block_dynamic_chunk_size
    else recommendedFirstBlockDynamicChunkSize request attempts workerCount
  let dynamic_chunk_size :=
    if workerCount > 1 ∧ requested_dynamic_chunk_size > 0 then
      min attempts requested_dynamic_chunk_size
    else 0
  let chunkSize := firstBlockSelectedChunkSize attempts workerCount dynamic_chunk_size
  { result with
    first_block_worker_count := workerCount
    first_block_dynamic_chunk_auto :=
      request.first_block_dynamic_chunk_auto && request.first_block_dynamic_chunk_size = 0
    first_block_dynamic_chunk_size := dynamic_chunk_size
    first_block_chunk_size := chunkSize
    first_block_dynamic_chunk_size_min := dynamic_chunk_size
    first_block_dynamic_chunk_size_max := dynamic_chunk_size
    first_block_chunk_size_min := chunkSize
    first_block_chunk_size_max := chunkSize }

def runBatch (device : Device) (around : Surroundings) (request : HashApiRequest) :
    Faulty Ptr CudaHashBackend HashApiResult :=
  let result : HashApiResult :=
    { request_id := request.request_id
      algorithm := request.algorithm
      backend := lit "cuda"
      device_id := request.device_id
      batch_size := request.batch_size
      gpu_first_blocks := request.gpu_first_blocks
      warps_per_block := (resolveWarpsPerBlock request.warps_per_block).toUInt64
      precomputed_refs := request.precomputed_refs }
  let errors := validateRequest request
  if !errors.isEmpty then return { result with error := joinErrors errors }
  else if request.backend ≠ lit "cuda" then
    return { result with error := lit "CudaHashBackend requires backend=cuda" }
  else
    let result := chooseWorkers around request result
    Faulty.orElse
      (do
        onBackend CudaBackend.activate
        let s ← Faulty.get
        let result := { result with device_id := s.backend_.deviceIndex_ }
        -- one `catch` for all: only `device_id` depends on how far the block came
        Faulty.orElse (batch device around request result)
          (return { result with error := around.what }))
      (return { result with error := around.what })

end CudaHashBackend

end TreeMiner.Gpu

import TreeMiner.Gpu.FirstBlocks
import TreeMiner.Gpu.Precomputed

/-!
# Requests and results (`hashapi/HashApiTypes.h`, `HashApiValidation.cpp`, `HashApiMatching.cpp`,
`HashApiEncoding.cpp`, `RandomHexKeyGenerator.h`)

What `runBatch` is asked for and what it answers, the checks it makes first, the keys it draws,
and what it does with a digest. The measured times of a result are left out.

A match is found by the digest alone, so that the same definition serves the backend of the
device, the reference backend and the specification of what they are to report. The random bits
of a key come from the generator's own list.
-/

namespace TreeMiner.Gpu

open Cxx

def kHashApiKeyLength : Nat := 64

def kDefaultHashLength : UInt64 := 64

def kMaxTargetPatternLength : Nat := 128

def kMaxCpuBatchSize : UInt64 := 10000

structure HashApiRequest where
  request_id : Bytes := []
  algorithm : Bytes := lit "argon2id-xen"
  backend : Bytes := lit "cpu"
  salt_hex : Bytes := []
  key : Bytes := []
  key_prefix : Bytes := []
  target_pattern : Bytes := lit "XEN11"
  difficulty : UInt32 := 42069
  batch_size : UInt64 := 1
  device_id : Int := 0
  allow_xuni : Bool := true
  first_block_workers : UInt64 := 0
  first_block_dynamic_chunk_size : UInt64 := 0
  first_block_dynamic_chunk_auto : Bool := false
  gpu_first_blocks : Bool := false
  warps_per_block : UInt64 := 0
  precomputed_refs : Bool := false

structure HashApiMatch where
  key : Bytes
  hash : Bytes
  matched_pattern : Bytes
  attempt_index : Nat
  is_superblock : Bool
  deriving DecidableEq

structure HashApiResult where
  request_id : Bytes := []
  ok : Bool := false
  error : Bytes := []
  algorithm : Bytes := []
  backend : Bytes := []
  device_id : Int := 0
  batch_size : UInt64 := 0
  batch_size_min : UInt64 := 0
  batch_size_max : UInt64 := 0
  attempts : UInt64 := 0
  first_block_dynamic_chunk_size : UInt64 := 0
  first_block_dynamic_chunk_auto : Bool := false
  first_block_worker_count : UInt64 := 0
  first_block_chunk_size : UInt64 := 0
  first_block_dynamic_chunk_size_min : UInt64 := 0
  first_block_dynamic_chunk_size_max : UInt64 := 0
  first_block_chunk_size_min : UInt64 := 0
  first_block_chunk_size_max : UInt64 := 0
  gpu_first_blocks : Bool := false
  warps_per_block : UInt64 := 1
  precomputed_refs : Bool := false
  hash : Bytes := []
  «matches» : List HashApiMatch := []

/-! ## `HashApiValidation.cpp` -/

def isSupportedAlgorithm (algorithm : Bytes) : Bool := algorithm = lit "argon2id-xen"

def isSupportedBackend (backend : Bytes) : Bool :=
  backend = lit "cpu" || backend = lit "reference" || backend = lit "cuda"

def isHexString (value : Bytes) : Bool := value.all fun c => (hexVal c).isSome

def normalizeHex (value : Bytes) : Bytes :=
  let normalized := match value with
    | z :: x :: rest => if z = ch '0' ∧ (x = ch 'x' ∨ x = ch 'X') then rest else value
    | _ => value
  normalized.map toLower

/-- `validateRequest`: what is wrong with a request. -/
def validateRequest (request : HashApiRequest) : List Bytes :=
  let error (wrong : Bool) (message : Bytes) : List Bytes := if wrong then [message] else []
  let salt := normalizeHex request.salt_hex
  let keyPrefix := normalizeHex request.key_prefix
  let key := normalizeHex request.key
  let onHost := request.backend = lit "cpu" || request.backend = lit "reference"
  error (!isSupportedAlgorithm request.algorithm)
      (lit "unsupported algorithm: " ++ request.algorithm) ++
    error (!isSupportedBackend request.backend) (lit "unsupported backend: " ++ request.backend) ++
    (if salt.isEmpty then [lit "salt_hex is required"]
    else
      error (salt.length % 2 != 0) (lit "salt_hex must contain an even number of hex characters") ++
        error (salt.length < 16) (lit "salt_hex must be at least 16 hex characters") ++
        error (!isHexString salt) (lit "salt_hex must contain only hex characters")) ++
    (if keyPrefix.isEmpty then []
    else
      error (keyPrefix.length > kHashApiKeyLength)
        (lit "key_prefix cannot exceed 64 hex characters") ++
        error (!isHexString keyPrefix) (lit "key_prefix must contain only hex characters")) ++
    (if key.isEmpty then []
    else
      error (key.length != kHashApiKeyLength) (lit "key must contain exactly 64 hex characters") ++
        error (!isHexString key) (lit "key must contain only hex characters") ++
        error (!keyPrefix.isEmpty && !keyPrefix.isPrefixOf key)
          (lit "key must start with key_prefix when both are provided")) ++
    error request.target_pattern.isEmpty (lit "target_pattern is required") ++
    error (request.target_pattern.length > kMaxTargetPatternLength)
      (lit "target_pattern is too long") ++
    error (request.difficulty = 0) (lit "difficulty must be greater than zero") ++
    error (request.batch_size = 0) (lit "batch_size must be greater than zero") ++
    error (onHost && request.batch_size > kMaxCpuBatchSize)
      (lit "cpu batch_size exceeds safe limit") ++
    error (request.device_id < 0) (lit "device_id must be non-negative") ++
    error (request.gpu_first_blocks && request.backend ≠ lit "cuda")
      (lit "gpu_first_blocks requires backend=cuda") ++
    error (request.warps_per_block > kMaxWarpsPerBlock.toUInt64)
      (lit "warps_per_block exceeds maximum of 16") ++
    error (request.warps_per_block > 1 && request.backend ≠ lit "cuda")
      (lit "warps_per_block > 1 requires backend=cuda") ++
    error (request.precomputed_refs && request.backend ≠ lit "cuda")
      (lit "precomputed_refs requires backend=cuda")

/-- `joinErrors`. -/
def joinErrors (errors : List Bytes) : Bytes := (lit "; ").intercalate errors

/-- `resolveWarpsPerBlock`. -/
def resolveWarpsPerBlock (requested : UInt64) : UInt32 :=
  if requested = 0 then kDefaultWarpsPerBlock
  else if requested > kMaxWarpsPerBlock.toUInt64 then 0
  else requested.toUInt32

/-! ## `RandomHexKeyGenerator.h` -/

/-- A generator of keys: `generator` is the numbers its engine gives, and `drawn` how many of
them have been used. -/
structure RandomHexKeyGenerator where
  keyPrefix : Bytes
  total_length : Nat
  generator : Nat → UInt64
  drawn : Nat

namespace RandomHexKeyGenerator

def kHexChars : Bytes := lit "0123456789abcdef"

def new ( initial_prefix : Bytes) (key_length : Nat) (generator : Nat → UInt64) :
    RandomHexKeyGenerator :=
  ⟨ initial_prefix.map toLower, key_length, generator, 0⟩

/-- `for (int nibble = 0; nibble < 16 && key.length() < total_length; ++nibble)`, with the turns
that are left. -/
def nibbles (total_length : Nat) : Nat → UInt64 → Bytes → Bytes
  | 0, _, key => key
  | n + 1, random_bits, key =>
    if key.length < total_length then
      nibbles total_length n (random_bits >>> 4)
        (key ++ [kHexChars.getD (random_bits &&& 0x0f).toNat 0])
    else key

/-- Digits are only added to a key. -/
theorem length_nibbles (total_length : Nat) : ∀ (n : Nat) (random_bits : UInt64) (key : Bytes),
    key.length ≤ (nibbles total_length n random_bits key).length
  | 0, _, _ => Nat.le_refl _
  | n + 1, random_bits, key => by
    unfold nibbles
    split
    · refine Nat.le_trans ?_ (length_nibbles total_length n _ _)
      rw [List.length_append]
      exact Nat.le_add_right _ _
    · exact Nat.le_refl _

/-- `while (key.length() < total_length)`. -/
def fillKey (g : RandomHexKeyGenerator) (drawn : Nat) (key : Bytes) : Bytes × Nat :=
  if key.length < g.total_length then
    fillKey g (drawn + 1) (nibbles g.total_length 16 (g.generator drawn) key)
  else (key, drawn)
termination_by g.total_length - key.length
decreasing_by
  rename_i hlt
  have hone : key.length + 1 ≤ (nibbles g.total_length 16 (g.generator drawn) key).length := by
    unfold nibbles
    rw [if_pos hlt]
    refine Nat.le_trans ?_ (length_nibbles _ _ _ _)
    rw [List.length_append]
    exact Nat.le_refl _
  omega

def nextRandomKey (g : RandomHexKeyGenerator) : Bytes × RandomHexKeyGenerator :=
  if g.keyPrefix.length ≥ g.total_length then (g.keyPrefix.take g.total_length, g)
  else
    let (key, drawn) := g.fillKey g.drawn g.keyPrefix
    (key, { g with drawn := drawn })

/-- `n` keys in a row. -/
def keys : Nat → RandomHexKeyGenerator → List Bytes
  | 0, _ => []
  | n + 1, g =>
    let (key, g) := g.nextRandomKey
    key :: keys n g

end RandomHexKeyGenerator

/-! ## `HashApiEncoding.cpp` -/

def kBase64Chars : Bytes := lit "ABCDEFGHIJKLMNOPQRSTUVWXYZabcdefghijklmnopqrstuvwxyz0123456789+/"

def base64Char (value : UInt32) : UInt8 := kBase64Chars.getD (value &&& 0x3f).toNat 0

/-- `base64EncodeInto`. -/
def base64EncodeInto : Bytes → Bytes
  | a :: b :: c :: rest =>
    let value := (a.toUInt32 <<< 16) ||| (b.toUInt32 <<< 8) ||| c.toUInt32
    base64Char (value >>> 18) :: base64Char (value >>> 12) :: base64Char (value >>> 6) ::
      base64Char value :: base64EncodeInto rest
  | [a] =>
    let value := a.toUInt32 <<< 16
    [base64Char (value >>> 18), base64Char (value >>> 12)]
  | [a, b] =>
    let value := (a.toUInt32 <<< 16) ||| (b.toUInt32 <<< 8)
    [base64Char (value >>> 18), base64Char (value >>> 12), base64Char (value >>> 6)]
  | [] => []

/-! ## `HashApiMatching.cpp` -/

def isSuperblockHash (hash : Bytes) : Bool := hash.countP (fun c => 65 ≤ c && c ≤ 90) ≥ 50

/-- `hasXuniMatch`: the pattern, and a digit behind it. -/
def hasXuniMatch : Bytes → Bool
  | [] => false
  | c :: hash =>
    ((lit "XUNI").isPrefixOf (c :: hash) && (((c :: hash).drop 4).head?.any isDigit)) ||
      hasXuniMatch hash

/-- `appendMatches`: what is appended. -/
def appendMatches (request : HashApiRequest) (key hash : Bytes) (attempt_index : Nat) :
    List HashApiMatch :=
  (if contains request.target_pattern hash then
      [⟨key, hash, request.target_pattern, attempt_index, isSuperblockHash hash⟩] else []) ++
    (if request.allow_xuni && hasXuniMatch hash then
      [⟨key, hash, lit "XUNI", attempt_index, false⟩] else [])

/-! ## The choice of workers and chunks (`hashapi/CudaHashBackend.cpp`) -/

def kMinParallelFirstBlockAttempts : UInt64 := 8

/-- `firstBlockWorkerCount`; `hardware_threads` is what the standard library says of the machine. -/
def firstBlockWorkerCount (hardware_threads attempts worker_cap : UInt64) : UInt64 :=
  if attempts < kMinParallelFirstBlockAttempts then 1
  else if hardware_threads < 2 then 1
  else
    let workerCount := min attempts hardware_threads
    let workerCount := if worker_cap > 0 then min workerCount worker_cap else workerCount
    max 1 workerCount

def firstBlockChunkSize (attempts workerCount : UInt64) : UInt64 :=
  if attempts = 0 ∨ workerCount = 0 then 0 else (attempts + workerCount - 1) / workerCount

def firstBlockSelectedChunkSize (attempts workerCount dynamic_chunk_size : UInt64) : UInt64 :=
  if attempts = 0 ∨ workerCount = 0 then 0
  else if dynamic_chunk_size > 0 ∧ workerCount > 1 then min attempts dynamic_chunk_size
  else firstBlockChunkSize attempts workerCount

def recommendedFirstBlockDynamicChunkSize (request : HashApiRequest)
    (attempts workerCount : UInt64) : UInt64 :=
  if !request.first_block_dynamic_chunk_auto ∨ request.backend ≠ lit "cuda" ∨
      !request.key.isEmpty ∨ attempts < 1024 ∨ workerCount ≤ 1 then 0
  else if request.difficulty = 1 then 16
  else if request.difficulty = 8 then (if attempts ≥ 2048 then 16 else 32)
  else if request.difficulty = 64 then (if attempts ≤ 2048 then 16 else 0)
  else 0

end TreeMiner.Gpu

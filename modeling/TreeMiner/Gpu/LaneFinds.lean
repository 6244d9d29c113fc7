import TreeMiner.Gpu.Lane
import TreeMiner.Gpu.Pairing

/-!
# What a mining lane submits

`runBatch` may answer with the hashes of keys that an aborted request has left behind. A lane
never sees that: the first batch that fails ends its unit, and the next unit releases the buffers
and begins with nothing. So what a lane submits is, batch for batch and in order, every match of
the hashes of the batch's own keys (`submissions_exact`).

The invariant of a lane (`Lane.Sound`) says that the backend of its unit, if it has one, has no
leftovers and that a batch fits the memory of the device. A step keeps it and hands on what was
mined; over a run the batches are collected one after the other.
-/

namespace TreeMiner.Gpu

open Argon2 Cxx Faults

variable {request : HashApiRequest} {around : Surroundings} {device : Device}

/-! ## The matches of a batch, in order -/

/-- Every match of the keys of a request, in the order of the keys. -/
def HashApiRequest.found (request : HashApiRequest) (around : Surroundings) : List HashApiMatch :=
  (request.keys around).zipIdx.flatMap fun (key, index) =>
    appendMatches request key (request.hashOf key) index

theorem zipIdx_eq_map (l : List Bytes) :
    l.zipIdx = (List.range l.length).map fun i => (l.getD i [], i) := by
  refine List.ext_getElem? fun i => ?_
  rw [List.getElem?_zipIdx, List.getElem?_map]
  by_cases hi : i < l.length
  · rw [List.getElem?_range hi, List.getElem?_eq_getElem hi, Option.map_some, Option.map_some,
      List.getD_eq_getElem _ _ hi, Nat.zero_add]
  · have hrange : (List.range l.length)[i]? = none :=
      List.getElem?_eq_none (by rw [List.length_range]; exact Nat.not_lt.mp hi)
    rw [hrange, List.getElem?_eq_none (Nat.not_lt.mp hi)]
    rfl

namespace CudaHashBackend

/-- The matches of the jobs from `first` on, from the output memory. -/
def matchesFrom (request : HashApiRequest) (passwords : List Bytes) (out : Ptr)
    (first count : Nat) :
    List HashApiMatch :=
  (List.range' first count).flatMap fun job =>
    appendMatches request (passwords.getD job []) (hashAt request out job) job

/-- The matches of a chunk are those of its passwords in order, although the chunk was hashed as a
whole. -/
theorem chunkMatches_eq (passwords : List Bytes) (out : Ptr) (first count : Nat) :
    chunkMatches request passwords first (finalizedHashes request.params out first count) =
      matchesFrom request passwords out first count := by
  unfold chunkMatches matchesFrom
  rw [zipIdx_eq_map, List.range'_eq_map_range, List.flatMap_map, List.flatMap_map]
  have hlen : (finalizedHashes request.params out first count).length = count := by
    unfold finalizedHashes
    rw [List.length_map, List.length_range]
  rw [hlen]
  refine List.flatMap_congr fun offset hmem => ?_
  have hoffset : offset < count := List.mem_range.mp hmem
  have hhash : (finalizedHashes request.params out first count).getD offset [] =
      hashAt request out (first + offset) := by
    unfold finalizedHashes
    rw [List.getD_eq_getElem?_getD, List.getElem?_map, List.getElem?_range hoffset]
    rfl
  rw [← hhash]

/-- The loop appends the matches of the jobs from `first` on, chunk by chunk. -/
theorem finalizeFrom_matches (passwords : List Bytes) (out : Ptr) (first : Nat)
    (result : HashApiResult) :
    (finalizeFrom request passwords out first result).«matches» =
      result.«matches» ++ matchesFrom request passwords out first
        (request.attempts.toNat - first) := by
  fun_induction finalizeFrom request passwords out first result with
  | case1 first result attempts hlt count hashes ih =>
    refine ih.trans ?_
    show (result.«matches» ++ chunkMatches request passwords first hashes) ++ _ = _
    rw [List.append_assoc, show hashes = finalizedHashes request.params out first count from rfl,
      chunkMatches_eq]
    congr 1
    have hjoin : List.range' first (attempts - first) =
        List.range' first count ++ List.range' (first + 64) (attempts - (first + 64)) := by
      have hcount : count = min attempts (first + 64) - first := rfl
      rw [show attempts - first =
        count + (attempts - (first + 64)) by omega, ← List.range'_append_1]
      -- a short chunk is the last one
      by_cases hlast : attempts ≤ first + 64
      · rw [Nat.sub_eq_zero_of_le hlast]
        rfl
      · rw [show first + 64 = first + count by omega]
    unfold matchesFrom
    show _ = List.flatMap _ (List.range' first (attempts - first))
    rw [hjoin, List.flatMap_append]
    rfl
  | case2 first result attempts hge =>
    rw [Nat.sub_eq_zero_of_le (Nat.not_lt.mp hge)]
    exact (List.append_nil _).symm

/-! ## A result that is ok -/

/-- A result is that of the request's own keys: every match, in order. -/
structure Exact (around : Surroundings) (request : HashApiRequest) (result : HashApiResult) :
    Prop where
  found : result.«matches» = request.found around
  attempts : result.attempts = request.attempts
  valid : request.Valid

variable {s : CudaHashBackend}

/-- A batch on a device that computes reports exactly the matches of its keys. -/
theorem batch_exact (hdevice : device.Computes) (hv : request.Valid) (hs : Keeps s)
    (hsafe : Safe request s) (result : HashApiResult) (hnone : result.«matches» = []) :
    (batch device around request result).Ensures True s
      (fun result _ => Exact around request result) fun _ => True := by
  refine Faulty.Ensures.bind ((ensureInitialized_configured hs hsafe).mono (fun _ s₁ h₁ => ?_)
    fun _ h => h)
  obtain ⟨r₁, hr₁, hconfigured, hready⟩ := h₁
  refine Faulty.Ensures.bind
    ((input_spec hdevice hv hsafe.told.fits hsafe.told.salt hsafe.told.launches
    hr₁ hconfigured hready).mono (fun _ s₂ h₂ => ?_) fun _ _ => trivial)
  refine Faulty.Ensures.bind
    ((compute_spec hdevice h₂).mono (fun _ s₃ h₃ => ?_) fun _ _ => trivial)
  refine Faulty.Ensures.bind (Faulty.ensures_get (Faulty.ensures_pure ⟨?_, rfl, hv⟩))
  obtain ⟨r, hr, hout⟩ := h₃.runner
  show (finalizeFrom request s₃.password_storage_ _ 0 result).«matches» = _
  rw [finalizeFrom_matches, hnone, h₃.stored, hr, List.nil_append]
  unfold matchesFrom HashApiRequest.found
  rw [Nat.sub_zero, ← List.range_eq_range', zipIdx_eq_map, List.flatMap_map,
    HashApiRequest.length_keys]
  refine List.flatMap_congr fun job hmem => ?_
  -- the hash of a job is that of its key
  have hhash : hashAt request (Buffer.at r.blocksOut) job =
      request.hashOf ((request.keys around).getD job []) := by
    unfold hashAt
    rw [finalize_eq, hout job (List.mem_range.mp hmem)]
    exact base64Encode_eq _
  exact congrArg
    (fun hash => appendMatches request ((request.keys around).getD job []) hash job) hhash

/-- What `runBatch` does of what its `batch` does. -/
theorem runBatch_ensures {Q : HashApiResult → Prop}
    (hbatch : request.Valid → ∀ result : HashApiResult, result.«matches» = [] →
      (batch device around request result).Ensures True s (fun result _ => Q result)
        fun _ => True) :
    (runBatch device around request).Ensures True s (fun result _ => result.ok = true → Q result)
      fun _ => True := by
  unfold runBatch
  dsimp only
  by_cases herrors : (!(validateRequest request).isEmpty) = true
  · rw [if_pos herrors]
    exact Faulty.ensures_pure fun h => nomatch h
  rw [if_neg herrors]
  have hv : request.Valid := by
    refine HashApiRequest.valid_of_validate ?_
    simpa using herrors
  split
  · exact Faulty.ensures_pure fun h => nomatch h
  refine Faulty.Ensures.orElse (Faulty.Ensures.bind (Faulty.Ensures.zoom ?_))
  refine Faulty.Ensures.bind (Faulty.ensures_call (fun _ => Faulty.ensures_pure ?_) fun _ => ?_)
  · refine Faulty.Ensures.bind (Faulty.ensures_get (Faulty.Ensures.orElse ?_))
    refine (hbatch hv _ rfl).mono (fun _ _ h _ => h) fun _ _ => ?_
    exact Faulty.ensures_pure fun h => nomatch h
  · exact Faulty.ensures_pure fun h => nomatch h

/-- So does a request, when it says that it has succeeded. -/
theorem runBatch_exact (hdevice : device.Computes) (hs : Keeps s)
    (hsafe : request.Valid → Safe request s) :
    (runBatch device around request).Ensures True s
      (fun result _ => result.ok = true → Exact around request result) fun _ => True :=
  runBatch_ensures fun hv result hnone => batch_exact hdevice hv hs (hsafe hv) result hnone

end CudaHashBackend

/-! ## Prefixes -/

theorem mem_bytes (c : UInt8) : c ∈ (List.range 256).map UInt8.ofNat :=
  List.mem_map.mpr ⟨c.toNat, List.mem_range.mpr c.toNat_lt, UInt8.ofNat_toNat⟩

theorem toLower_toLower (c : UInt8) : toLower (toLower c) = toLower c := by
  have hall : ∀ c ∈ (List.range 256).map UInt8.ofNat, toLower (toLower c) = toLower c := by
    decide +kernel
  exact hall c (mem_bytes c)

/-- The digits are added behind the prefix. -/
theorem RandomHexKeyGenerator.prefix_nibbles (total_length : Nat) :
    ∀ (n : Nat) (random_bits : UInt64)
    (key : Bytes), key <+: nibbles total_length n random_bits key
  | 0, _, _ => List.prefix_rfl
  | n + 1, random_bits, key => by
    unfold nibbles
    split
    · exact (List.prefix_append key _).trans (prefix_nibbles total_length n _ _)
    · exact List.prefix_rfl

namespace RandomHexKeyGenerator

/-- A filled key begins with what it was filled from. -/
theorem prefix_fillKey (g : RandomHexKeyGenerator) (drawn : Nat) (key : Bytes) :
    key <+: (g.fillKey drawn key).1 := by
  fun_induction fillKey g drawn key with
  | case1 drawn key hlt ih => exact (prefix_nibbles _ _ _ _).trans ih
  | case2 drawn key hge => exact List.prefix_rfl

/-- A key begins with the prefix, as far as it is long enough. -/
theorem prefix_keys : ∀ (n : Nat) (g : RandomHexKeyGenerator),
    ∀ key ∈ keys n g, g.keyPrefix.take g.total_length <+: key
  | 0, _ => fun _ h => nomatch h
  | n + 1, g => by
    intro key hmem
    have hnext : g.nextRandomKey.2.keyPrefix = g.keyPrefix ∧
        g.nextRandomKey.2.total_length = g.total_length ∧
        g.keyPrefix.take g.total_length <+: g.nextRandomKey.1 := by
      unfold nextRandomKey
      split
      · exact ⟨rfl, rfl, List.prefix_rfl⟩
      · exact ⟨rfl, rfl, (List.take_prefix _ _).trans (prefix_fillKey g _ _)⟩
    rcases List.mem_cons.mp hmem with rfl | hmem
    · exact hnext.2.2
    · have hrest := prefix_keys n g.nextRandomKey.2 key hmem
      rw [hnext.1, hnext.2.1] at hrest
      exact hrest

end RandomHexKeyGenerator

/-- The keys of a batch begin with the prefix of its request. -/
theorem HashApiRequest.prefix_keys (hsingle : request.singleKey = false) :
    ∀ key ∈ request.keys around, (normalizeHex request.key_prefix).take 64 <+: key := by
  intro key hmem
  unfold keys at hmem
  rw [if_neg (by rw [hsingle]; decide)] at hmem
  have hprefix := RandomHexKeyGenerator.prefix_keys _ _ key hmem
  have hlower : (normalizeHex request.key_prefix).map toLower =
    normalizeHex request.key_prefix := by
    unfold normalizeHex
    rw [List.map_map]
    exact List.map_congr_left fun c _ => toLower_toLower c
  show (normalizeHex request.key_prefix).take 64 <+: key
  rw [← hlower]
  exact hprefix

/-! ## The salt of an account -/

/-- A nibble, as `PhcAssembler` reads it and as the request is read. -/
theorem nibble_digits : ∀ c ∈ (List.range 256).map UInt8.ofNat, (nibble c).isSome = true →
    c ≠ ch 'x' ∧ c ≠ ch 'X' ∧ nibble c = some ((hexVal (toLower c)).getD 0) ∧
      (hexVal (toLower c)).getD 0 < 16 := by
  decide +kernel

/-- Pairs of hex digits are read the same in either case. -/
theorem hexPairs_eq : ∀ {hex : Bytes}, (∀ c ∈ hex, (nibble c).isSome = true) →
    hexPairs hex = some (hexBytes (hex.map toLower))
  | [], _ => rfl
  | [_], _ => rfl
  | c :: d :: hex, hall => by
    simp only [List.forall_mem_cons] at hall
    obtain ⟨-, -, hc, -⟩ := nibble_digits c (mem_bytes c) hall.1
    obtain ⟨-, -, hd, hd16⟩ := nibble_digits d (mem_bytes d) hall.2.1
    unfold hexPairs
    rw [hc, hd, hexPairs_eq hall.2.2]
    dsimp only [Option.bind_eq_bind, Option.bind_some]
    rw [← Nat.shiftLeft_add_eq_or_of_lt (i := 4) hd16, Nat.shiftLeft_eq, Nat.mul_comm]
    rfl

namespace HexSalt

variable {hexsalt : Bytes}

/-- The request leaves it as it is, up to the case of its letters. -/
theorem normalizeHex_eq (h : HexSalt hexsalt) : normalizeHex hexsalt = hexsalt.map toLower := by
  obtain ⟨hlen, hall⟩ := h
  match hexsalt, hlen, hall with
  | z :: x :: rest, _, hall =>
    -- an `x` is no digit
    have hx := nibble_digits x (mem_bytes x) (hall x (by simp))
    unfold normalizeHex
    dsimp only
    rw [if_neg fun h => h.2.elim hx.1 hx.2.1]

/-- The salt as the assembler reads it is the salt as the backend reads it. -/
theorem hexToBytes_eq (h : HexSalt hexsalt) :
    hexToBytes hexsalt = some (hexBytes (normalizeHex hexsalt)) := by
  have heven : hexsalt.length % 2 = 0 := by rw [h.length]
  unfold hexToBytes
  rw [if_neg (by rw [heven]; decide), hexPairs_eq h.digits, h.normalizeHex_eq]

end HexSalt

/-! ## Units -/

/-- An address: forty hexadecimal digits behind `0x`. -/
def HexAddress (address : Bytes) :
    Prop := ∃ hexsalt, address = lit "0x" ++ hexsalt ∧ HexSalt hexsalt

/-- What the command line has checked. -/
structure Options.Checked (o : Options) : Prop where
  permillage : 0 ≤ o.globalDevfeePermillage.toInt ∧ o.globalDevfeePermillage.toInt ≤ 1000
  fee : HexAddress o.globalDevfeeAddress
  eco : o.globalEcoDevfeeAddress = [] ∨ HexAddress o.globalEcoDevfeeAddress

/-- The addresses that are checked before they are put in place. -/
structure Look.Checked (look : Look) : Prop where
  user : HexAddress look.identity.userAddress
  consumer : look.context.mode = .PLATFORM_MINING → HexAddress look.context.address

/-- What an event finds: checked addresses, and a device with less than 2^47 bytes free. -/
def Event.Checked : Event → Prop
  | .construct _ _ freeMemory => freeMemory.toNat < 2 ^ 47
  | .turn look => look.Checked

/-- A salt that is mined for is that of an address. -/
theorem mineWork_salt {o : Options} (ho : o.Checked) {look : Look} (hlook : look.Checked)
    {count : Nat} {work : Bytes × Bytes}
    (h : mineWork o look.context look.identity count = some work) :
    HexSalt work.1 := by
  have hsub : ∀ {address salt : Bytes}, HexAddress address → substr address 2 = some salt →
      HexSalt salt := by
    intro address salt ⟨hexsalt, heq, hhex⟩ hsalt
    have hdrop : substr address 2 = some hexsalt := by
      rw [heq]
      rfl
    rw [hdrop] at hsalt
    cases hsalt
    exact hhex
  unfold mineWork at h
  -- the consumer's salt, the ecosystem's, the developers' or the miner's own: each is an address
  -- without its `0x`
  split at h
  next hmode =>
    obtain ⟨hexsalt, heq, hhex⟩ := hlook.consumer hmode
    rw [heq] at h
    cases h
    exact hhex
  next =>
    obtain ⟨salt, hsalt, h⟩ := Option.bind_eq_some_iff.mp h
    split at h
    · cases h
      exact hsub hlook.user hsalt
    split at h
    · split at h
      next heco =>
        obtain ⟨ecoSalt, hecoSalt, h⟩ := Option.bind_eq_some_iff.mp h
        cases h
        refine hsub (ho.eco.resolve_left fun hnil => ?_) hecoSalt
        rw [hnil] at heco
        simp at heco
      next =>
        obtain ⟨feeSalt, hfeeSalt, h⟩ := Option.bind_eq_some_iff.mp h
        cases h
        exact hsub ho.fee hfeeSalt
    · cases h
      exact hsub hlook.user hsalt

/-- A unit between two turns: nothing is left behind in its backend, and its batches fit. -/
structure MineUnit.Sound (u : MineUnit) : Prop where
  keeps : u.hashBackend_.Keeps
  inPlace : u.hashBackend_.InPlace
  nonePending : u.hashBackend_.NonePending
  positive : 0 < u.difficulty.toUInt32.toNat
  fits : u.batchSize.toNat * (u.difficulty.toUInt32.toNat * 1024) < 2 ^ 47

/-- A request of a sound unit asks for the keys and the salt that the unit is told to mine. -/
theorem MineUnit.Sound.told {u : MineUnit} (hu : u.Sound) (o : Options) (tm_min : Int)
    {salt : Bytes} (hsalt : HexSalt salt) (keyPrefix targetPattern : Bytes) :
    (u.request o tm_min salt keyPrefix targetPattern).Told := by
  have hbatch : (u.request o tm_min salt keyPrefix targetPattern).attempts = u.batchSize := rfl
  have hbytes : (u.request o tm_min salt keyPrefix targetPattern).salt.length = 20 := by
    obtain ⟨bytes, hbytes, hlen⟩ := hsalt.bytes
    rw [hsalt.hexToBytes_eq] at hbytes
    cases hbytes
    exact hlen
  have hfits := hu.fits
  have hpos := hu.positive
  have hfew : u.batchSize.toNat < 2 ^ 37 := by
    refine Nat.lt_of_mul_lt_mul_right (a := 2 ^ 10) (Nat.lt_of_le_of_lt ?_ hfits)
    exact Nat.mul_le_mul_left _ (by omega)
  refine ⟨?_, by omega, fun _ => ⟨by omega, ?_⟩⟩
  · unfold neededBytes
    rw [hbatch, HashApiRequest.segmentBlocks_eq]
    -- a job has at least eight blocks
    have hblocks : 4 * (u.request o tm_min salt keyPrefix targetPattern).segmentBlocks ≤
        8 * u.difficulty.toUInt32.toNat := by
      show 4 * (max u.difficulty.toUInt32.toNat 8 / 4) ≤ _
      omega
    calc u.batchSize.toNat * (4 * (u.request o tm_min salt keyPrefix targetPattern).segmentBlocks) *
      1024
        ≤ u.batchSize.toNat * (8 * u.difficulty.toUInt32.toNat) * 1024 :=
          Nat.mul_le_mul_right _ (Nat.mul_le_mul_left _ hblocks)
      _ = 8 * (u.batchSize.toNat * (u.difficulty.toUInt32.toNat * 1024)) := by ring
      _ < 2 ^ 64 := by omega
  · rw [hbatch]
    omega

/-! ## Lanes -/

/-- What a turn hands to the submit callback: each match of the result, in order. -/
theorem submitMatches_calls (difficulty attempts : UInt64) (salt : Bytes) (result : HashApiResult) :
    (submitMatches difficulty attempts salt result).1.map
        (fun c => (c.hexsalt, c.key, c.hashed_pure, c.memory_cost)) =
      result.«matches».map fun m => (salt, m.key, m.hash, difficulty.toUInt32) := by
  have hloop : ∀ (ms : List HashApiMatch) (attempts next : UInt64),
      (submitMatchesLoop difficulty salt attempts next ms).1.map
          (fun c => (c.hexsalt, c.key, c.hashed_pure, c.memory_cost)) =
        ms.map fun m => (salt, m.key, m.hash, difficulty.toUInt32) := by
    intro ms
    induction ms with
    | nil => exact fun _ _ => rfl
    | cons m ms ih => exact fun _ _ => congrArg _ (ih _ _)
  exact hloop result.«matches» attempts 0

/-- A batch whose matches are those of its own keys, all submitted. -/
structure Batch.Mined (b : Batch) : Prop where
  random : b.request.singleKey = false
  salt : HexSalt b.request.salt_hex
  exact : CudaHashBackend.Exact b.look.around b.request b.result
  submitted : b.calls.map (fun c => (c.hexsalt, c.key, c.hashed_pure, c.memory_cost)) =
    b.result.«matches».map fun m => (b.request.salt_hex, m.key, m.hash, b.request.difficulty)

namespace Lane

variable {o : Options} {lane : Lane} {look : Look}

/-- The unit at work, if there is one, is sound. -/
def Sound (lane : Lane) : Prop := ∀ u, lane.unit = some u → u.Sound

/-- The unit that a lane makes is sound, for a device with less than 128 TiB. -/
theorem construct_sound (look : Look) {totalMemory freeMemory : UInt64}
    (hfree : freeMemory.toNat < 2 ^ 47) (hlane : lane.Sound) :
    (lane.construct o look totalMemory freeMemory).Sound := by
  -- the share of the memory is never more than what is free, so the batch chosen for it fits
  have hshare : (shareOf o totalMemory freeMemory).toNat ≤ freeMemory.toNat := by
    unfold shareOf
    split
    · exact toNat_min_le _ _
    · exact Nat.le_refl _
  unfold construct
  dsimp only
  split
  · exact hlane
  split
  · exact hlane
  next backend _ hactivated =>
    split
    · exact hlane
    next hselected =>
      intro u hu
      cases hu
      obtain ⟨hfits, hpos⟩ := select_fits o.build (shareOf o totalMemory freeMemory)
        (laneMiningDifficulty o look.globalDifficulty look.globalDifficultyMargin
          lane.streamIndex).toInt64.toUInt64.toUInt32 o.globalMaxBatchSize
      refine ⟨fun _ h => (nomatch h), fun h => (nomatch h), fun _ h => (nomatch h),
        hpos hselected, ?_⟩
      exact Nat.lt_of_le_of_lt hfits (Nat.lt_of_le_of_lt hshare hfree)

/-- What a turn can do: give the unit up, or mine a batch and go on. -/
theorem turn_cases (lane : Lane) (look : Look) (u : MineUnit) :
    ((lane.turn device o look u).1.unit = none ∧ (lane.turn device o look u).2 = none) ∨
    ∃ salt keyPrefix pattern result hashBackend_ answers,
      mineWork o look.context look.identity u.batchComputeCount = some (salt, keyPrefix) ∧
      CudaHashBackend.runBatch device look.around (u.request o look.tm_min salt keyPrefix pattern)
        u.hashBackend_ look.answers = (some result, hashBackend_, answers) ∧ result.ok = true ∧
      lane.turn device o look u =
        ({ lane with unit := some { u with
            hashBackend_
            attempts := (submitMatches u.difficulty u.attempts salt result).2
            batchComputeCount := if u.batchComputeCount + 1 ≥ 1000 then
              0 else u.batchComputeCount + 1 } },
          some ⟨look, u.batchComputeCount, u.request o look.tm_min salt keyPrefix pattern, result,
            (submitMatches u.difficulty u.attempts salt result).1⟩) := by
  unfold turn
  dsimp only
  split
  · exact .inl ⟨rfl, rfl⟩
  split
  · exact .inl ⟨rfl, rfl⟩
  split
  · exact .inl ⟨rfl, rfl⟩
  next salt keyPrefix hwork =>
    split
    · exact .inl ⟨rfl, rfl⟩
    next result hashBackend_ answers hrun =>
      split
      · exact .inl ⟨rfl, rfl⟩
      next hok =>
        exact .inr ⟨salt, keyPrefix, _, result, hashBackend_, answers, hwork,
          hrun, by simpa using hok, rfl⟩

/-- One turn of the loop leaves the lane sound, and what it hands on was mined. -/
theorem turn_spec (hdevice : device.Computes) (ho : o.Checked) (hlook : look.Checked) {u : MineUnit}
    (hu : u.Sound) :
    (lane.turn device o look u).1.Sound ∧ ∀ b ∈ (lane.turn device o look u).2, b.Mined := by
  -- a turn without a batch leaves a unit that is sound or none at all
  rcases turn_cases lane look u with ⟨hunit, hbatch⟩ |
    ⟨salt, keyPrefix, pattern, result, hashBackend_, answers, hwork, hrun, hok, hturn⟩
  · refine ⟨fun u' hu' => ?_, fun b hb => ?_⟩
    · rw [hunit] at hu'
      cases hu'
    · rw [hbatch] at hb
      cases hb
  · have hsalt : HexSalt salt := mineWork_salt ho hlook hwork
    have hsafe := CudaHashBackend.safe_of_clean hu.inPlace hu.nonePending
      (hu.told o look.tm_min hsalt keyPrefix pattern)
    have hexact :=
      (CudaHashBackend.runBatch_exact hdevice hu.keeps fun _ => hsafe).returned hrun hok
    obtain ⟨hplace, hnonePending⟩ :=
      (CudaHashBackend.runBatch_clean hu.keeps hu.inPlace).returned hrun hok
    have hkeeps : hashBackend_.Keeps := by
      have hafter := CudaHashBackend.runBatch_keeps device look.around
        (u.request o look.tm_min salt keyPrefix pattern) u.hashBackend_ look.answers hu.keeps
      rw [hrun] at hafter
      exact hafter
    rw [hturn]
    refine ⟨fun u' hu' => ?_, fun b hb => ?_⟩
    · cases hu'
      exact ⟨hkeeps, hplace, hnonePending, hu.positive, hu.fits⟩
    · cases hb
      exact ⟨rfl, hsalt, hexact, submitMatches_calls u.difficulty u.attempts salt result⟩

/-- One event of the lane, of any kind. -/
theorem step_spec (hdevice : device.Computes) (ho : o.Checked) {event : Event}
    (hevent : event.Checked) (hlane : lane.Sound) :
    (lane.step device o event).1.Sound ∧ ∀ b ∈ (lane.step device o event).2, b.Mined := by
  unfold step
  split
  next look totalMemory freeMemory =>
    split
    · exact ⟨hlane, fun _ h => nomatch h⟩
    · exact ⟨construct_sound look hevent hlane, fun _ h => nomatch h⟩
  next look =>
    split
    next u _ hunit => exact turn_spec hdevice ho hevent (hlane u hunit)
    next => exact ⟨hlane, fun _ h => nomatch h⟩

/-- A lane that has just been made holds no unit. -/
theorem new_sound (deviceIndex : Int) (streamIndex : Int32) :
    (new deviceIndex streamIndex).Sound := by
  intro u hu
  cases hu

/-- From one event to a whole run. -/
theorem run_spec (hdevice : device.Computes) (ho : o.Checked) {events : List Event}
    (hevents : ∀ event ∈ events, event.Checked) (hlane : lane.Sound) :
    ∀ b ∈ (run device o lane events).2, b.Mined := by
  induction events generalizing lane with
  | nil => exact fun _ h => nomatch h
  | cons event events ih =>
    obtain ⟨hnext, hbatch⟩ := step_spec hdevice ho (hevents event List.mem_cons_self) hlane
    intro b hb
    rcases List.mem_append.mp hb with hb | hb
    · exact hbatch b (Option.mem_toList.mp hb)
    · exact ih (fun event h => hevents event (List.mem_cons_of_mem _ h)) hnext b hb

end Lane

/-! ## What is submitted -/

/-- The parameters of Argon2 that blocks are mined with. -/
def xenParams (memory_cost : UInt32) (salt : Bytes) : Argon2.Params where
  lanes := 1
  tagLength := 64
  memory := memory_cost.toNat
  passes := 1
  version := 0x13
  type := 2
  salt := salt
  secret := []
  data := []

/-- The PHC string of a key: the digest of Argon2id under these parameters. -/
def phcOf (memory_cost : UInt32) (salt key : Bytes) : Bytes :=
  lit "$argon2id$v=19$m=" ++ toDecimal memory_cost.toNat ++ lit ",t=1,p=1$" ++ Base64.encode salt ++
    ch '$' :: Base64.encode (Argon2.digest (xenParams memory_cost salt) key)

/-- A submitted key, as one of the batch: with its own digest, the account's salt and the prefix of
the request. -/
structure SubmitCall.Verifies (request : HashApiRequest) (c : SubmitCall) : Prop where
  hexsalt : c.hexsalt = request.salt_hex
  memory_cost : c.memory_cost = request.difficulty
  length : c.key.length = 64
  keyPrefix : (normalizeHex request.key_prefix).take 64 <+: c.key
  phc : ∃ salt, hexToBytes c.hexsalt = some salt ∧ salt.length = 20 ∧
    assemblePhc c.memory_cost c.hexsalt c.hashed_pure = some (phcOf c.memory_cost salt c.key)

/-- A key that is submitted as one of those found. -/
theorem HashApiRequest.verifies_found (hv : request.Valid) (hrandom : request.singleKey = false)
    (hhex : HexSalt request.salt_hex) {c : SubmitCall}
    (hc : (c.hexsalt, c.key, c.hashed_pure, c.memory_cost) ∈
      (request.found around).map fun m => (request.salt_hex, m.key, m.hash, request.difficulty)) :
    c.Verifies request := by
  -- the match that it was submitted for
  obtain ⟨m, hm, heq⟩ := List.mem_map.mp hc
  simp only [Prod.mk.injEq] at heq
  obtain ⟨hsalt, hkey, hhash, hcost⟩ := heq
  unfold HashApiRequest.found at hm
  obtain ⟨⟨key, index⟩, hzip, hown⟩ := List.mem_flatMap.mp hm
  obtain ⟨hmkey, hmhash⟩ := CudaHashBackend.mem_appendMatches m hown
  have hkeys : key ∈ request.keys around := (List.mem_zipIdx' hzip).2 ▸ List.getElem_mem _
  have hck : c.key = key := hkey.symm.trans hmkey
  refine ⟨hsalt.symm, hcost.symm, ?_, ?_, ?_⟩
  · rw [hck]
    exact HashApiRequest.keys_length hv key hkeys
  · rw [hck]
    exact HashApiRequest.prefix_keys hrandom key hkeys
  · obtain ⟨salt, hbytes, hlen⟩ := hhex.bytes
    have hdecoded : request.salt = salt := by
      rw [hhex.hexToBytes_eq] at hbytes
      exact Option.some.inj hbytes
    have hdigest : c.hashed_pure =
      Base64.encode (Argon2.digest (xenParams c.memory_cost salt) c.key) := by
      rw [← hhash, hmhash, hck, ← hcost, ← hdecoded]
      rfl
    refine ⟨salt, hsalt ▸ hbytes, hlen, ?_⟩
    unfold assemblePhc phcOf
    rw [← hsalt, hbytes, hdigest]
    dsimp only [Option.bind_eq_bind, Option.bind_some]
    rw [base64Encode_eq, List.append_assoc _ [ch '$'], List.singleton_append]

/-- Each key handed on has the hash and the pattern it is submitted for. -/
theorem Batch.Mined.verifies {b : Batch} (h : b.Mined) :
    ∀ c ∈ b.calls, c.Verifies b.request := by
  intro c hc
  apply HashApiRequest.verifies_found h.exact.valid h.random h.salt
  rw [← h.exact.found, ← h.submitted]
  exact List.mem_map.mpr ⟨c, hc, rfl⟩

/-- Whatever the settings change to, whichever calls of the device fail and how often the units of
a lane are made anew: each batch hands to the submit callback every match of its own keys, in
order, and nothing else; and each key that is handed over begins with the prefix it is mined for,
and makes with its hash the PHC string of its own digest. -/
theorem submissions_exact (device : Device) (hdevice : device.Computes) (o : Options)
    (ho : o.Checked) (deviceIndex : Int) (streamIndex : Int32) (events : List Event)
    (hevents : ∀ event ∈ events, event.Checked) :
    ∀ b ∈ (Lane.run device o (Lane.new deviceIndex streamIndex) events).2,
      b.result.attempts = b.request.batch_size ∧
      b.calls.map (fun c => (c.key, c.hashed_pure)) =
        (b.request.found b.look.around).map (fun m => (m.key, m.hash)) ∧
      ∀ c ∈ b.calls, c.Verifies b.request := by
  intro b hb
  have hmined := Lane.run_spec hdevice ho hevents (Lane.new_sound deviceIndex streamIndex) b hb
  refine ⟨?_, ?_, hmined.verifies⟩
  · rw [hmined.exact.attempts]
    unfold HashApiRequest.attempts
    rw [if_neg (by rw [hmined.random]; decide)]
  · have hpairs :=
      congrArg (List.map fun t : Bytes × Bytes × Bytes × UInt32 => (t.2.1, t.2.2.1))
      hmined.submitted
    rw [List.map_map, List.map_map, hmined.exact.found] at hpairs
    exact hpairs

/-! ## A lane whose first batch is aborted -/

def sampleOptions : Options where
  globalMiningDifficultyLock := 0
  globalLockLiveLanes := 0
  globalDevfeePermillage := 20
  globalDevfeeAddress := lit "0x" ++ List.replicate 40 (ch 'a')
  globalEcoDevfeeAddress := []
  globalMaxBatchSize := 1
  globalCudaStreamsPerDevice := 1
  globalWarpsPerBlock := 0
  globalPrecomputedRefs := false
  gpuFirstBlocksVerified := none
  build := .cuda

/-- A miner with a prefix of his own, so that there is one key only. -/
def sampleLook (answers : Answers Ptr) : Look where
  running := true
  globalDifficulty := 8
  globalDifficultyMargin := 0
  context := ⟨.SELF_MINING, [], [], [], []⟩
  identity := ⟨lit "0x" ++ List.replicate 40 (ch '0'), CudaHashBackend.zeros, lit "lFZB"⟩
  tm_min := 30
  around := CudaHashBackend.quiet
  answers

/-- A unit, a batch whose keys are copied and that is aborted then, a new unit and its batch. -/
def sampleEvents : List Event :=
  [.construct (sampleLook []) 0 1073741824, .turn (sampleLook CudaHashBackend.unrecorded),
    .construct (sampleLook []) 0 1073741824, .turn (sampleLook [])]

deriving instance DecidableEq for HashApiRequest

def sampleRequest : HashApiRequest where
  backend := lit "cuda"
  salt_hex := List.replicate 40 (ch '0')
  key_prefix := CudaHashBackend.zeros
  target_pattern := lit "lFZB"
  difficulty := 8
  allow_xuni := false
  first_block_dynamic_chunk_auto := true
  gpu_first_blocks := true

theorem hashOf_sample : sampleRequest.hashOf CudaHashBackend.zeros =
    lit
      "32FpKdx7lFZBNjvnSTlGM4STb2iCgnsNEJ++WJcqq6eubdL2RSYLf0gCTsOBHUfk7rnn0HaGpo+GcpVsf9Phhg" := by
  unfold HashApiRequest.hashOf
  rw [Numeral.digest_eq _ _ _ rfl (by decide +kernel) rfl]
  decide +kernel

/-- The prefix leaves no digit to be drawn. -/
theorem keys_sample (around : Surroundings) :
    sampleRequest.keys around = [CudaHashBackend.zeros] := by
  have hlen : (sampleRequest.keys around).length = 1 := sampleRequest.length_keys around
  obtain ⟨key, hkey⟩ := List.length_eq_one_iff.mp hlen
  have hmem : key ∈ sampleRequest.keys around := by
    rw [hkey]
    exact List.mem_singleton_self key
  have hprefix := HashApiRequest.prefix_keys rfl key hmem
  have hvalid : sampleRequest.Valid := HashApiRequest.valid_of_validate (by decide)
  have hlength : key.length = 64 := HashApiRequest.keys_length hvalid key hmem
  have hzeros : (normalizeHex sampleRequest.key_prefix).take 64 = CudaHashBackend.zeros := by
    decide
  rw [hzeros] at hprefix
  rw [hkey, hprefix.eq_of_length (by rw [hlength]; rfl)]

/-- A lane with one key and its hash, to which the result on whole runs is applied. -/
theorem submissions_exact_sample :
    ∃ b, (Lane.run Device.inOrder sampleOptions (Lane.new 0 0) sampleEvents).2 = [b] ∧
      b.calls.map (fun c => (c.key, c.hashed_pure)) = [(CudaHashBackend.zeros,
        lit
          "32FpKdx7lFZBNjvnSTlGM4STb2iCgnsNEJ++WJcqq6eubdL2RSYLf0gCTsOBHUfk7rnn0HaGpo+GcpVsf9Phhg")]
            ∧
      ∀ c ∈ b.calls, c.Verifies b.request := by
  have hrequests : (Lane.run Device.inOrder sampleOptions (Lane.new 0 0) sampleEvents).2.map
      Batch.request = [sampleRequest] := by
    decide
  obtain ⟨b, hb, hrequest⟩ := List.map_eq_singleton_iff.mp hrequests
  -- forty zeros and forty `a` are salts
  have hhex : ∀ c ∈ [ch '0', ch 'a'], HexSalt (List.replicate 40 c) := by
    intro c hc
    simp only [List.mem_cons, List.not_mem_nil, or_false] at hc
    rcases hc with rfl | rfl
    · exact ⟨rfl, by decide⟩
    · exact ⟨rfl, by decide⟩
  have hlook : ∀ answers, (sampleLook answers).Checked := fun answers =>
    ⟨⟨_, rfl, hhex (ch '0') (by decide)⟩, fun h => nomatch h⟩
  obtain ⟨-, hcalls, hverifies⟩ := submissions_exact Device.inOrder inOrder_computes
    sampleOptions ⟨by decide, ⟨_, rfl, hhex (ch 'a') (by decide)⟩,
      .inl rfl⟩ 0 0 sampleEvents (by
      intro event hevent
      simp only [sampleEvents, List.mem_cons, List.not_mem_nil, or_false] at hevent
      rcases hevent with rfl | rfl | rfl | rfl
      · show (1073741824 : UInt64).toNat < 2 ^ 47
        decide
      · exact hlook _
      · show (1073741824 : UInt64).toNat < 2 ^ 47
        decide
      · exact hlook _) b (by rw [hb]; exact List.mem_singleton_self b)
  refine ⟨b, hb, ?_, hverifies⟩
  rw [hcalls, hrequest]
  unfold HashApiRequest.found
  rw [keys_sample, List.zipIdx_singleton, List.flatMap_singleton]
  dsimp only
  rw [hashOf_sample]
  decide

end TreeMiner.Gpu

import Mathlib.Data.List.GetD
import TreeMiner.Gpu.BatchResult
import TreeMiner.Gpu.Initialization
import TreeMiner.Gpu.ParallelFill
import TreeMiner.Lib.Base64

/-!
# The input phase of a request (`CudaHashBackend::runBatch`)

The keys of a batch go to `password_storage_`, and their first blocks to the host buffer of the
runner or, by way of the keys, to the device. If the phase comes to its end, the next run takes
the first blocks of the keys that are stored (`input_spec`), as long as no first blocks from the
device were pending when the host began to fill in its own.

The two ways of filling in are two sequences of calls with the same end. On the host each key is
hashed as it is drawn; on the device all keys are drawn first. In both the keys are those of the
request's generator, whose prefix and length are checked beforehand.
-/

namespace TreeMiner.Gpu

open Argon2 Cxx Faults

/-! ## Requests -/

namespace HashApiRequest

/-- The salt, decoded. -/
def salt (request : HashApiRequest) : Bytes := hexBytes (normalizeHex request.salt_hex)

/-- The parameters of Argon2 for a request. -/
def argon2 (request : HashApiRequest) : Argon2.Params where
  lanes := 1
  tagLength := 64
  memory := request.difficulty.toNat
  passes := 1
  version := 0x13
  type := 2
  salt := request.salt
  secret := []
  data := []

/-- The base64 digest of a key under the salt and the difficulty of the request. -/
def hashOf (request : HashApiRequest) (key : Bytes) : Bytes := 
  Base64.encode (Argon2.digest request.argon2 key)

/-- The number of blocks of a segment. -/
def segmentBlocks (request : HashApiRequest) : Nat := segmentLength request.difficulty.toNat

section Request

variable {request : HashApiRequest} {around : Surroundings}

theorem segmentBlocks_eq : request.params.segmentBlocks.toNat = request.segmentBlocks :=
  segmentBlocks_toNat _ _ _ _ _ _

/-- The segments are within what the kernels accept, whatever the difficulty. -/
theorem segmentBlocks_bounds (request : HashApiRequest) :
    2 ≤ request.segmentBlocks ∧ request.segmentBlocks < 2 ^ 30 := by
  rw [← segmentBlocks_eq]
  exact segmentBlocks_new _ _ _ _ _ _

/-- What the checks of `validateRequest` let through. -/
structure Valid (request : HashApiRequest) : Prop where
  saltEven : (normalizeHex request.salt_hex).length % 2 = 0
  saltHex : ∀ c ∈ normalizeHex request.salt_hex, (hexVal c).isSome = true
  saltLong : 16 ≤ (normalizeHex request.salt_hex).length
  key : request.singleKey = true → (normalizeHex request.key).length = kHashApiKeyLength
  batch : 0 < request.batch_size.toNat

/-- A request without complaint has what the batch needs: a salt and a prefix in hex, and at least
one attempt. -/
theorem valid_of_validate (h : validateRequest request = []) : request.Valid := by
  -- no messages means that each of the checks passed
  have hpart : ∀ {wrong : Bool} {message : Bytes}, (if wrong = true then [message] else []) =
    [] →
      wrong = false := by
    intro wrong message hnil
    cases wrong with
    | false => rfl
    | true => cases hnil
  unfold validateRequest at h
  simp only [List.append_eq_nil_iff] at h
  obtain
    ⟨⟨⟨⟨⟨⟨⟨⟨⟨⟨⟨⟨⟨⟨-, -⟩, hsalt⟩, -⟩, hkey⟩, -⟩, -⟩, -⟩,
      hbatch⟩, -⟩, -⟩, -⟩, -⟩, -⟩, -⟩ := h
  by_cases hempty : (normalizeHex request.salt_hex).isEmpty = true
  · rw [if_pos hempty] at hsalt
    cases hsalt
  rw [if_neg hempty] at hsalt
  simp only [List.append_eq_nil_iff] at hsalt
  obtain ⟨⟨heven, hlong⟩, hhex⟩ := hsalt
  refine ⟨by simpa using hpart heven, ?_, by simpa using hpart hlong, fun hsingle => ?_, ?_⟩
  · have hall := hpart hhex
    rw [Bool.not_eq_false'] at hall
    exact List.all_eq_true.mp hall
  · have hsome : ¬ (normalizeHex request.key).isEmpty = true := by
      intro hnone
      unfold singleKey at hsingle
      rw [hnone] at hsingle
      cases hsingle
    rw [if_neg hsome] at hkey
    simp only [List.append_eq_nil_iff] at hkey
    simpa using hpart hkey.1.1
  · have hne := hpart hbatch
    rw [decide_eq_false_iff_not] at hne
    exact Nat.pos_of_ne_zero fun h0 => hne (UInt64.toNat_inj.mp h0)

end Request

end HashApiRequest

/-! ## The keys of a request -/

namespace RandomHexKeyGenerator

/-- The digits added to a key never make it longer than asked. -/
theorem nibbles_length_le (total_length : Nat) : ∀ (n : Nat) (random_bits : UInt64) (key : Bytes),
    key.length ≤ total_length → (nibbles total_length n random_bits key).length ≤ total_length
  | 0, _, _, h => h
  | n + 1, random_bits, key, h => by
    unfold nibbles
    split
    · apply nibbles_length_le total_length n
      rw [List.length_append, List.length_singleton]
      assumption
    · exact h

/-- A key is filled up to its length, whatever the prefix took of it. -/
theorem fillKey_length (g : RandomHexKeyGenerator) (drawn : Nat) (key : Bytes)
    (h : key.length ≤ g.total_length) : (g.fillKey drawn key).1.length = g.total_length := by
  fun_induction fillKey g drawn key with
  | case1 drawn key hlt ih => exact ih (nibbles_length_le _ _ _ _ h)
  | case2 drawn key hge => exact Nat.le_antisymm h (Nat.le_of_not_lt hge)

/-- So is every key that is drawn, and the generator keeps its length. -/
theorem nextRandomKey_spec (g : RandomHexKeyGenerator) :
    g.nextRandomKey.1.length = g.total_length ∧
      g.nextRandomKey.2.total_length = g.total_length := by
  unfold nextRandomKey
  by_cases hlong : g.keyPrefix.length ≥ g.total_length
  · rw [if_pos hlong]
    exact ⟨List.length_take_of_le hlong, rfl⟩
  · rw [if_neg hlong]
    exact ⟨fillKey_length g _ _ (Nat.le_of_lt (Nat.lt_of_not_le hlong)), rfl⟩

/-- As many keys are drawn as were asked for, all of them of that length. -/
theorem keys_spec : ∀ (n : Nat) (g : RandomHexKeyGenerator),
    (keys n g).length = n ∧ ∀ key ∈ keys n g, key.length = g.total_length
  | 0, _ => ⟨rfl, fun _ h => nomatch h⟩
  | n + 1, g => by
    obtain ⟨hkey, hnext⟩ := nextRandomKey_spec g
    obtain ⟨hlen, hall⟩ := keys_spec n g.nextRandomKey.2
    refine ⟨congrArg (· + 1) hlen, fun key hmem => ?_⟩
    rcases List.mem_cons.mp hmem with rfl | hmem
    · exact hkey
    · exact (hall key hmem).trans hnext

end RandomHexKeyGenerator

namespace HashApiRequest

section Request

variable {request : HashApiRequest} {around : Surroundings}

/-- There is one key for each attempt. -/
theorem length_keys (request : HashApiRequest) (around : Surroundings) :
    (request.keys around).length = request.attempts.toNat := by
  unfold keys
  by_cases hsingle : request.singleKey = true
  · rw [if_pos hsingle]
    unfold attempts
    rw [if_pos hsingle]
    rfl
  · rw [if_neg hsingle]
    exact (RandomHexKeyGenerator.keys_spec _ _).1

/-- A key of a valid request has 64 digits. -/
theorem keys_length (hv : request.Valid) : ∀ key ∈ request.keys around, key.length = 64 := by
  intro key hmem
  unfold keys at hmem
  by_cases hsingle : request.singleKey = true
  · rw [if_pos hsingle] at hmem
    rw [List.mem_singleton.mp hmem]
    exact hv.key hsingle
  · rw [if_neg hsingle] at hmem
    exact (RandomHexKeyGenerator.keys_spec _ _).2 key hmem

/-- Both decoders read the salt of a valid request alike. -/
theorem salt_spec (hv : request.Valid) :
    hex_to_bytes (normalizeHex request.salt_hex) = some request.salt ∧
      decodeHexBytes (normalizeHex request.salt_hex) = some request.salt ∧
        8 ≤ request.salt.length := by
  obtain ⟨hhost, hdevice, hdouble⟩ := decode_eq hv.saltEven hv.saltHex
  have hlong := hv.saltLong
  refine ⟨hhost, hdevice, ?_⟩
  show 8 ≤ (hexBytes _).length
  omega

theorem memoryCost_params : request.params.m_cost = request.difficulty :=
  UInt32.toUInt32_toUInt64 request.difficulty

/-- What the device is told about the hash is what the request asks for. -/
theorem decoded_params : request.params.decoded request.salt = request.argon2 := by
  unfold Argon2Params.decoded
  rw [memoryCost_params]
  rfl

/-- What the host fills in for a key. -/
theorem fillFirstBlocks_key (hv : request.Valid) (hsalt : request.salt.length < 2 ^ 32)
    {key : Bytes} (hkey : key.length = 64) :
    request.params.fillFirstBlocks (array key) (UInt64.ofNat key.length) =
      some (firstBlocks request.argon2 key) := by
  have hsize : (UInt64.ofNat key.length).toNat = key.length := by
    rw [hkey]
    rfl
  have hbytes : bytesAt (array key) key.length = key := by
    rw [bytesAt_array (Nat.le_refl _), List.take_length]
  rw [request.params.fillFirstBlocks_eq (salt_spec hv).1 hsalt _ (by rw [hsize, hkey]; decide),
    hsize, hbytes]
  show some (List.flatMap _ (List.range 1) ++ List.flatMap _ (List.range 1)) = _
  rw [List.range_one, List.flatMap_singleton, List.flatMap_singleton, decoded_params]
  rfl

end Request

end HashApiRequest

/-! ## On the host -/

section Host

variable {request : HashApiRequest} {device : Device} {inputs : DeviceInputs}

/-- The host has filled in the first blocks of these keys; what is on the device stays. -/
structure Runner.Filled (request : HashApiRequest) (inputs : DeviceInputs) (keys : List Bytes)
    (r : Runner) : Prop where
  configured : r.Configured request.attempts.toNat request.segmentBlocks
  inputs : r.inputs = inputs
  rows : ∀ job key, keys[job]? = some key →
    bytesAt (Ptr.advance (Buffer.at r.blocksIn) (job * 2048)) 2048 =
      Argon2.firstBlocks request.argon2 key

/-- The first blocks of key `l.length` go behind those of `l`. -/
theorem fillPasswordBlock_spec (hv : request.Valid) (hsalt : request.salt.length < 2 ^ 32)
    {r : Runner} {l : List Bytes} {key : Bytes} {index : UInt64} (h : r.Filled request inputs l)
    (hkey : key.length = 64) (hindex : index.toNat = l.length) (hfits : l.length < 2 ^ 53) :
    (CudaHashBackend.fillPasswordBlock request.params index key).Ensures True r
      (fun _ r' => r'.Filled request inputs (l ++ [key])) fun _ => True := by
  refine Faulty.Ensures.bind (Faulty.ensures_get ?_)
  rw [HashApiRequest.fillFirstBlocks_key hv hsalt hkey]
  dsimp only
  cases hin : r.blocksIn with
  | none => exact Faulty.ensures_throw trivial
  | some b =>
    refine Faulty.ensures_modify ⟨⟨h.configured.batch, h.configured.segment, h.configured.lanes,
      h.configured.marked⟩, h.inputs, fun job key' hget => ?_⟩
    have hoffset : (index * (1 * 2 * 1024)).toNat = l.length * 2048 := by
      rw [UInt64.toNat_mul, hindex]
      exact Nat.mod_eq_of_lt (show l.length * 2048 < 2 ^ 64 by omega)
    have hlong := length_firstBlocks request.argon2 key
    have hrow := h.rows job
    rw [hin] at hrow ⊢
    dsimp only [Buffer.at, Buffer.write, Option.map, Option.getD]
    rw [hoffset, FillRequest.bytesAt_copyAt_job _ hlong]
    -- the row just written, and the rows of the keys before it
    by_cases hjob : job = l.length
    · rw [if_pos hjob]
      rw [hjob, List.getElem?_concat_length] at hget
      rw [Option.some.inj hget]
    · rw [if_neg hjob]
      refine hrow key' ?_
      have hlt := (List.getElem?_eq_some_iff.mp hget).1
      rw [List.length_append, List.length_singleton] at hlt
      rwa [List.getElem?_append_left (by omega)] at hget

/-- Passwords filled in from an index on are behind those that were there before. -/
theorem fillPasswordBlocks_spec (hv : request.Valid) (hsalt : request.salt.length < 2 ^ 32)
    {r : Runner} {l passwords : List Bytes} {index : UInt64} (h : r.Filled request inputs l)
    (hkeys : ∀ key ∈ passwords, key.length = 64) (hindex : index.toNat = l.length)
    (hfits : l.length + passwords.length < 2 ^ 53) :
    (CudaHashBackend.fillPasswordBlocks request.params index passwords).Ensures True r
      (fun _ r' => r'.Filled request inputs (l ++ passwords)) fun _ => True := by
  induction passwords generalizing r l index with
  | nil =>
    rw [List.append_nil]
    exact Faulty.ensures_pure h
  | cons key passwords ih =>
    rw [List.length_cons] at hfits
    refine Faulty.Ensures.bind ((fillPasswordBlock_spec hv hsalt h (hkeys key List.mem_cons_self)
      hindex (by omega)).mono (fun _ r' h' => ?_) fun _ _ => trivial)
    have hnext : (index + 1).toNat = (l ++ [key]).length := by
      rw [UInt64.toNat_add, hindex, List.length_append, List.length_singleton]
      exact Nat.mod_eq_of_lt (show l.length + 1 < 2 ^ 64 by omega)
    have hrest := ih h' (fun k hk => hkeys k (List.mem_cons_of_mem _ hk)) hnext
      (by rw [List.length_append, List.length_singleton]; omega)
    rwa [List.append_assoc] at hrest

namespace CudaHashBackend

/-- The host has filled in the first blocks of the keys that are stored. -/
structure HostFilled (request : HashApiRequest) (inputs : DeviceInputs) (keys : List Bytes)
    (s : CudaHashBackend) : Prop where
  stored : s.password_storage_ = keys
  runner : ∃ r, s.backend_.runner_ = some r ∧ r.Filled request inputs keys

variable {s : CudaHashBackend} {r : Runner}

/-- What a call ensures of the runner it ensures of the backend that holds it. -/
theorem onRunner_ensures {α : Type} {m : Faulty Ptr Runner α}
    {Q : α → CudaHashBackend → Prop} {E : CudaHashBackend → Prop}
    (hr : s.backend_.runner_ = some r)
    (hm : m.Ensures True r
      (fun a r => Q a { s with backend_ := { s.backend_ with runner_ := some r } })
      fun r => E { s with backend_ := { s.backend_ with runner_ := some r } }) :
    (onBackend (CudaBackend.onRunner m)).Ensures True s Q E :=
  Faulty.Ensures.zoom (CudaBackend.onRunner_ensures hr hm)

/-- Drawing a key and filling it in, attempt by attempt, fills in the keys of the generator. -/
theorem drawAndFill_spec (hv : request.Valid) (hsalt : request.salt.length < 2 ^ 32) {n : Nat}
    {l : List Bytes} {index : UInt64} {g : RandomHexKeyGenerator}
    (h : HostFilled request inputs l s) (hg : g.total_length = 64) (hindex : index.toNat = l.length)
    (hfits : l.length + n < 2 ^ 53) :
    (drawAndFill request.params n index g).Ensures True s
      (fun _ s' => HostFilled request inputs (l ++ RandomHexKeyGenerator.keys n g) s')
        fun _ => True := by
  -- on the keys still to draw: each is stored behind the ones that stand there
  induction n generalizing s l index g with
  | zero =>
    unfold RandomHexKeyGenerator.keys
    rw [List.append_nil]
    exact Faulty.ensures_pure h
  | succ n ih =>
    obtain ⟨hkey, htotal⟩ := RandomHexKeyGenerator.nextRandomKey_spec g
    obtain ⟨r, hr, hfilled⟩ := h.runner
    refine Faulty.Ensures.bind (onRunner_ensures hr ?_)
    refine (fillPasswordBlock_spec hv hsalt hfilled (hkey.trans hg) hindex (by omega)).mono
      (fun _ r' h' => ?_) fun _ _ => trivial
    refine Faulty.Ensures.bind (Faulty.ensures_modify ?_)
    have hnext : (index + 1).toNat = (l ++ [g.nextRandomKey.1]).length := by
      rw [UInt64.toNat_add, hindex, List.length_append, List.length_singleton]
      exact Nat.mod_eq_of_lt (show l.length + 1 < 2 ^ 64 by omega)
    have hstored : HostFilled request inputs (l ++ [g.nextRandomKey.1])
        { s with
          backend_ := { s.backend_ with runner_ := some r' }
          password_storage_ := s.password_storage_ ++ [g.nextRandomKey.1] } :=
      ⟨congrArg (· ++ [g.nextRandomKey.1]) h.stored, r', rfl, h'⟩
    have hrest := ih hstored (htotal.trans hg) hnext
      (by rw [List.length_append, List.length_singleton]; omega)
    rwa [List.append_assoc] at hrest

/-- The host phase. -/
theorem hostInput_spec {around : Surroundings} (hv : request.Valid)
    (hsalt : request.salt.length < 2 ^ 32) (hfits : request.attempts.toNat < 2 ^ 53)
    (hs : HostFilled request inputs [] s) :
    (hostInput around request).Ensures True s
      (fun _ s' => HostFilled request inputs (request.keys around) s') fun _ => True := by
  obtain ⟨r, hr, hfilled⟩ := hs.runner
  unfold hostInput
  -- one worker goes through the keys in order; several fill in chunks of the keys drawn beforehand
  by_cases hone : firstBlockWorkerCount around.hardware_threads request.attempts
      request.first_block_workers ≤ 1
  · rw [if_pos hone]
    by_cases hsingle : request.singleKey = true
    · rw [if_pos hsingle]
      have hkeys : request.keys around = [normalizeHex request.key] := if_pos hsingle
      rw [hkeys]
      refine Faulty.Ensures.bind (Faulty.ensures_modify ?_)
      refine onRunner_ensures hr ?_
      refine (fillPasswordBlock_spec hv hsalt hfilled (hv.key hsingle) rfl (by decide)).mono
        (fun _ r' h' => ?_) fun _ _ => trivial
      exact ⟨congrArg (· ++ [normalizeHex request.key]) hs.stored, r', rfl, h'⟩
    · rw [if_neg hsingle]
      have hkeys : request.keys around =
          RandomHexKeyGenerator.keys request.attempts.toNat (request.keyGenerator around) :=
        if_neg hsingle
      rw [hkeys]
      exact drawAndFill_spec hv hsalt hs rfl rfl (by simpa using hfits)
  · rw [if_neg hone]
    have hsingle : ¬ request.singleKey = true := by
      intro hsingle
      refine hone ?_
      unfold HashApiRequest.attempts
      rw [if_pos hsingle]
      exact UInt64.le_refl 1
    have hkeys : request.keys around =
        RandomHexKeyGenerator.keys request.attempts.toNat (request.keyGenerator around) :=
      if_neg hsingle
    refine Faulty.Ensures.bind (Faulty.ensures_modify ?_)
    refine Faulty.Ensures.bind (Faulty.ensures_get ?_)
    dsimp only
    rw [hs.stored, List.nil_append, ← hkeys]
    refine onRunner_ensures hr ?_
    refine (fillPasswordBlocks_spec hv hsalt hfilled (HashApiRequest.keys_length hv) rfl ?_).mono
      (fun _ r' h' => ?_) fun _ _ => trivial
    · rw [HashApiRequest.length_keys, List.length_nil, Nat.zero_add]
      exact hfits
    · exact ⟨rfl, r', rfl, h'⟩

end CudaHashBackend

end Host

/-! ## On the device -/

section OnDevice

variable {request : HashApiRequest} {device : Device} {around : Surroundings}

/-- A request whose first blocks the device can make: its lengths are told in 32 bits, and CUDA
starts as many thread blocks. -/
structure HashApiRequest.Launches (request : HashApiRequest) : Prop where
  salt : 128 + request.salt.length < 2 ^ 32
  grid : (request.attempts.toNat + 127) / 128 < 2 ^ 31

/-- The next run takes the first blocks of these keys. -/
def Runner.FedWith (device : Device) (request : HashApiRequest) (keys : List Bytes) (r : Runner) :
    Prop :=
  r.Fed device request.attempts.toNat request.segmentBlocks fun job =>
    Argon2.firstBlocks request.argon2 (keys.getD job [])

/-- A runner filled with all the keys is fed, if the host makes the first blocks. -/
theorem Runner.Filled.fed {inputs : DeviceInputs} {keys : List Bytes} {r : Runner}
    (h : r.Filled request inputs keys) (hready : inputs.deviceFirstBlocksReady = false)
    (hcount : keys.length = request.attempts.toNat) : r.FedWith device request keys := by
  refine ⟨h.configured, fun hpending => ?_, fun _ job hjob => ?_⟩
  · rw [h.inputs, hready] at hpending
    cases hpending
  · rw [← hcount] at hjob
    rw [List.getD_eq_getElem _ _ hjob]
    exact h.rows job _ (List.getElem?_eq_getElem hjob)

/-- The keys that are on the device are those of the next run. -/
theorem fed_of_prepared (hdevice : device.Computes)
    (hfits : neededBytes request.attempts request.params.segmentBlocks < 2 ^ 64)
    (hlaunch : request.Launches) {r : Runner}
    (hr : r.Configured request.attempts.toNat request.segmentBlocks) {keys : List Bytes}
    (hcount : keys.length = request.attempts.toNat) (hkeys : ∀ key ∈ keys, key.length = 64)
    (hprepared : r.inputs.Prepared r.batchSize keys request.salt 64 request.difficulty 1
      ARGON2_VERSION_13 ARGON2_ID 1) : r.FedWith device request keys := by
  have hneeded : request.attempts.toNat * (4 * request.segmentBlocks) * 1024 < 2 ^ 64 := by
    rw [← HashApiRequest.segmentBlocks_eq]
    exact hfits
  obtain ⟨h2, hseg⟩ := HashApiRequest.segmentBlocks_bounds request
  have hbytes : 64 * keys.length < 2 ^ 64 := by
    have hgrid := hlaunch.grid
    omega
  refine ⟨hr, fun _ memory job hjob => ?_, fun hready => ?_⟩
  · obtain ⟨locals, tr, c, hrun, hdone, heq⟩ :=
      hdevice.firstBlocks r.inputs r.segmentBlocks r.batchSize memory
    rw [← hcount] at hjob
    have hresult :=
      DeviceInputs.runDeviceFirstBlockKernel_result (L := 64) hprepared hkeys (by decide)
      hlaunch.salt ⟨by rw [hcount]; exact hlaunch.grid,
        hbytes, by rw [hcount, hr.segment]; exact hneeded⟩
      (by rw [hr.segment]; exact h2) (by rw [hr.segment]; exact hseg) hrun hdone
      (List.getElem?_eq_getElem hjob)
    rw [hr.segment] at hresult
    show bytesAt
      (Ptr.advance (device.firstBlocks r.inputs r.segmentBlocks r.batchSize memory) _) 2048 = _
    rw [heq, List.getD_eq_getElem _ _ hjob]
    exact hresult
  · rw [hprepared.ready] at hready
    cases hready

/-- The first blocks of a batch have their places if its jobs have. -/
theorem HashApiRequest.attempts_lt
    (hfits : neededBytes request.attempts request.params.segmentBlocks < 2 ^ 64) :
    request.attempts.toNat < 2 ^ 53 := by
  have hseg := (HashApiRequest.segmentBlocks_bounds request).1
  rw [← HashApiRequest.segmentBlocks_eq] at hseg
  have hle : request.attempts.toNat * 8 ≤
      request.attempts.toNat * (4 * request.params.segmentBlocks.toNat) :=
    Nat.mul_le_mul_left _ (by omega)
  unfold neededBytes at hfits
  omega

/-- `prepareInputBlocksOnDevice` of the runner. -/
theorem prepareInputBlocks_spec (hdevice : device.Computes)
    (hfits : neededBytes request.attempts request.params.segmentBlocks < 2 ^ 64)
    (hlaunch : request.Launches) {r : Runner}
    (hr : r.Configured request.attempts.toNat request.segmentBlocks) {keys : List Bytes}
    (hcount : keys.length = request.attempts.toNat) (hkeys : ∀ key ∈ keys, key.length = 64) :
    (Runner.prepareInputBlocksOnDevice keys request.salt request.params.outLen request.params.m_cost
        request.params.t_cost request.params.version request.params.type
          request.params.lanes).Ensures
      True r (fun ok r' => ok = true → r'.FedWith device request keys) fun _ => True := by
  have hbytes : 64 * keys.length < 2 ^ 64 := by
    have hgrid := hlaunch.grid
    omega
  have hhead : (keys.headD []).length ≤ 64 := by
    cases keys with
    | nil => exact Nat.zero_le _
    | cons key keys => exact Nat.le_of_eq (hkeys key List.mem_cons_self)
  refine Faulty.Ensures.bind (Faulty.ensures_get (Faulty.Ensures.zoom ?_))
  refine (DeviceInputs.prepare_spec True r.inputs r.batchSize keys request.salt _ _ _ _ _ _
    (Nat.lt_of_le_of_lt (Nat.mul_le_mul_right _ hhead) hbytes)).mono
    (fun ok i hi hok => ?_) fun _ _ => trivial
  rw [if_pos hok, HashApiRequest.memoryCost_params] at hi
  exact fed_of_prepared hdevice hfits hlaunch
    (r := { r with inputs := i }) ⟨hr.batch, hr.segment, hr.lanes, hr.marked⟩ hcount hkeys hi.2

namespace CudaHashBackend

variable {s : CudaHashBackend}

/-- The keys of the request are stored, and the next run takes the first blocks of `fed`. -/
structure Paired (device : Device) (around : Surroundings) (request : HashApiRequest)
    (fed : List Bytes) (s : CudaHashBackend) : Prop where
  stored : s.password_storage_ = request.keys around
  runner : ∃ r, s.backend_.runner_ = some r ∧ r.FedWith device request fed

/-- The other way: the passwords go to the device, which makes the first blocks itself. -/
theorem deviceInput_spec (hdevice : device.Computes) (hv : request.Valid)
    (hfits : neededBytes request.attempts request.params.segmentBlocks < 2 ^ 64)
    (hlaunch : request.Launches) (hempty : s.password_storage_ = []) {r : Runner}
    (hr : s.backend_.runner_ = some r)
    (hconfigured : r.Configured request.attempts.toNat request.segmentBlocks) :
    (deviceInput around request).Ensures True s
      (fun _ s' => Paired device around request (request.keys around) s')
      fun _ => True := by
  refine Faulty.Ensures.bind (Faulty.ensures_modify ?_)
  rw [(HashApiRequest.salt_spec hv).2.1]
  refine Faulty.Ensures.bind (Faulty.ensures_get ?_)
  dsimp only
  rw [hempty, List.nil_append]
  refine Faulty.Ensures.bind (Faulty.Ensures.zoom ?_)
  refine Faulty.Ensures.bind (Faulty.ensures_get ?_)
  rw [if_neg (by rw [hr]; exact Bool.false_ne_true)]
  refine CudaBackend.onRunner_ensures hr ?_
  refine (prepareInputBlocks_spec hdevice hfits hlaunch hconfigured
    (HashApiRequest.length_keys request around)
    (HashApiRequest.keys_length hv)).mono (fun ok r' h' => ?_) fun _ _ => trivial
  -- a runner that could not prepare them makes the input phase throw
  by_cases hok : ok = true
  · rw [if_pos hok]
    exact Faulty.ensures_pure ⟨rfl, r', rfl, h' hok⟩
  · rw [if_neg hok]
    exact Faulty.ensures_throw trivial

/-- After the input phase the keys that are stored are those whose first blocks the run takes. -/
theorem input_spec (hdevice : device.Computes) (hv : request.Valid)
    (hfits : neededBytes request.attempts request.params.segmentBlocks < 2 ^ 64)
    (hsalt : request.salt.length < 2 ^ 32)
    (hlaunch : request.gpu_first_blocks = true → request.Launches) {r : Runner}
    (hr : s.backend_.runner_ = some r)
    (hconfigured : r.Configured request.attempts.toNat request.segmentBlocks)
    (hready : request.gpu_first_blocks = false → r.inputs.deviceFirstBlocksReady = false) :
    (input around request).Ensures True s
      (fun _ s' => Paired device around request (request.keys around) s')
      fun _ => True := by
  refine Faulty.Ensures.bind (Faulty.ensures_modify ?_)
  refine Faulty.Ensures.bind (Faulty.ensures_call (fun _ => ?_) fun _ => trivial)
  by_cases hgpu : request.gpu_first_blocks = true
  · rw [if_pos hgpu]
    exact deviceInput_spec hdevice hv hfits (hlaunch hgpu) rfl hr hconfigured
  · rw [if_neg hgpu]
    have hroom := HashApiRequest.attempts_lt hfits
    have hfilled : HostFilled request r.inputs [] { s with password_storage_ := [] } :=
      ⟨rfl, r, hr, hconfigured, rfl, fun _ _ h => nomatch h⟩
    refine (hostInput_spec hv hsalt hroom hfilled).mono (fun _ s' h' => ?_) fun _ _ => trivial
    obtain ⟨r', hr', hfilled'⟩ := h'.runner
    exact ⟨h'.stored, r', hr', hfilled'.fed (hready (Bool.eq_false_of_not_eq_true hgpu))
      (HashApiRequest.length_keys request around)⟩

/-- Where first blocks are pending on the device, the host phase does not keep the run from
taking them. -/
theorem input_pending (hv : request.Valid)
    (hfits : neededBytes request.attempts request.params.segmentBlocks < 2 ^ 64)
    (hsalt : request.salt.length < 2 ^ 32) (hhost : request.gpu_first_blocks = false) {r : Runner}
    (hr : s.backend_.runner_ = some r) {pending : List Bytes}
    (hfed : r.FedWith device request pending) (hready : r.inputs.deviceFirstBlocksReady = true) :
    (input around request).Ensures True s (fun _ s' => Paired device around request pending s')
      fun _ => True := by
  refine Faulty.Ensures.bind (Faulty.ensures_modify ?_)
  refine Faulty.Ensures.bind (Faulty.ensures_call (fun _ => ?_) fun _ => trivial)
  rw [if_neg (by rw [hhost]; exact Bool.false_ne_true)]
  have hfilled : HostFilled request r.inputs [] { s with password_storage_ := [] } :=
    ⟨rfl, r, hr, hfed.configured, rfl, fun _ _ h => nomatch h⟩
  refine (hostInput_spec hv hsalt (HashApiRequest.attempts_lt hfits) hfilled).mono
    (fun _ s' h' => ?_) fun _ _ => trivial
  obtain ⟨r', hr', hfilled'⟩ := h'.runner
  have hbatch : r'.batchSize = r.batchSize :=
    UInt64.toNat_inj.mp (hfilled'.configured.batch.trans hfed.configured.batch.symm)
  have hsegment : r'.segmentBlocks = r.segmentBlocks :=
    UInt32.toNat_inj.mp (hfilled'.configured.segment.trans hfed.configured.segment.symm)
  refine ⟨h'.stored, r', hr', hfilled'.configured, fun _ => ?_, fun hnot => ?_⟩
  · rw [hfilled'.inputs, hbatch, hsegment]
    exact hfed.fromDevice hready
  · rw [hfilled'.inputs, hready] at hnot
    cases hnot

end CudaHashBackend

end OnDevice

end TreeMiner.Gpu

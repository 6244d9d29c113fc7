import TreeMiner.Gpu.LaneFinds

/-!
# The reference backend (`hashapi/CpuHashBackend.cpp`, `Argon2idHasher.cpp`)

`runBatch` hashes the keys one after the other with libargon2, and looks for the patterns in the
whole encoded hash, where the backend of the device looks in the digest only. The library is a
parameter.

What the library is to do is a hypothesis (`Documented`): a hash it returns is the PHC string of
the Argon2id digest. The loop over the attempts keeps the matches of the keys done so far, so a
result that says `ok` reports the keys of the request, all of them and in order.
-/

namespace TreeMiner.Gpu

open Cxx

/-- libargon2: a call is told by its number, since what the machine can give it may differ. -/
structure Libargon2 where
  argon2_encodedlen (t_cost m_cost parallelism : UInt32) (saltlen hashlen : Nat) : Nat
  /-- The buffer of the caller after the call; `none` where it fails. -/
  argon2id_hash_encoded (call : Nat) (t_cost m_cost parallelism : UInt32) (pwd salt : Bytes)
    (hashlen encodedlen : Nat) : Option Bytes

/-- What its documentation says: a call that succeeds leaves the encoded hash of Argon2id, and a
zero byte. -/
def Libargon2.Documented (lib : Libargon2) : Prop :=
  ∀ call m_cost pwd salt encodedlen buffer,
    lib.argon2id_hash_encoded call 1 m_cost 1 pwd salt 64 encodedlen = some buffer →
      ∃ rest, buffer = phcOf m_cost salt pwd ++ 0 :: rest

/-! ## `Argon2idHasher.cpp` -/

/-- `hexchar_to_byte`; `none` where it throws. -/
def hexcharToByte (c : UInt8) : Option UInt8 :=
  if ch '0' ≤ c ∧ c ≤ ch '9' then some (c - ch '0')
  else if ch 'a' ≤ c ∧ c ≤ ch 'f' then some (c - ch 'a' + 10)
  else if ch 'A' ≤ c ∧ c ≤ ch 'F' then some (c - ch 'A' + 10)
  else none

/-- `hexstr_to_bytes`; behind the last character of an odd string stands a zero byte. -/
def hexstrToBytes : Bytes → Option (List UInt8)
  | [] => some []
  | [c] => do
    let high ← hexcharToByte c
    let low ← hexcharToByte 0
    some [(high <<< 4) ||| low]
  | c :: d :: hexstr => do
    let high ← hexcharToByte c
    let low ← hexcharToByte d
    let bytes ← hexstrToBytes hexstr
    some (((high <<< 4) ||| low) :: bytes)

structure Argon2idHasher where
  t_cost_ : UInt32
  m_cost_ : UInt32
  parallelism_ : UInt32
  hash_len_ : Nat
  salt_ : List UInt8

namespace Argon2idHasher

def new (t_cost m_cost parallelism : UInt32) (salt_hex : Bytes) (hash_len : Nat) :
    Option Argon2idHasher := do
  let salt ← hexstrToBytes salt_hex
  some ⟨t_cost, m_cost, parallelism, hash_len, salt⟩

/-- `generateHash`; `none` where it throws. -/
def generateHash (lib : Libargon2) (call : Nat) (hasher : Argon2idHasher) (password : Bytes) :
    Option Bytes := do
  let encoded_len := lib.argon2_encodedlen hasher.t_cost_ hasher.m_cost_ hasher.parallelism_
    hasher.salt_.length hasher.hash_len_
  let encoded_hash ← lib.argon2id_hash_encoded call hasher.t_cost_ hasher.m_cost_
    hasher.parallelism_
    password hasher.salt_ hasher.hash_len_ encoded_len
  some (encoded_hash.takeWhile (· ≠ 0))

end Argon2idHasher

/-! ## `hashapi/CpuHashBackend.cpp` -/

namespace CpuHashBackend

def kMinArgon2CpuDifficulty : UInt32 := 8

/-- The loop over the attempts, `turns` of them from attempt `i` on, and whether it came to its end
without an exception. -/
def attemptsFrom (lib : Libargon2) (request : HashApiRequest) (hasher : Argon2idHasher) :
    Nat → Nat → RandomHexKeyGenerator → HashApiResult → HashApiResult × Bool
  | 0, _, _, result => (result, true)
  | turns + 1, i, key_generator, result =>
    let (key, key_generator) :=
      if request.singleKey then (normalizeHex request.key, key_generator)
      else key_generator.nextRandomKey
    match hasher.generateHash lib i key with
    | none => (result, false)
    | some hash =>
      attemptsFrom lib request hasher turns (i + 1) key_generator { result with
        hash := if request.singleKey then hash else result.hash
        «matches» := result.«matches» ++ appendMatches request key hash i }

/-- The block that is tried: the hasher, the keys and the loop. -/
def compute (lib : Libargon2) (around : Surroundings) (request : HashApiRequest)
    (result : HashApiResult) :
    HashApiResult :=
  match Argon2idHasher.new 1 request.difficulty 1 (normalizeHex request.salt_hex)
    kDefaultHashLength.toNat with
  | none => { result with error := around.what }
  | some hasher =>
    let attempts := request.attempts
    match attemptsFrom lib request hasher attempts.toNat 0 (request.keyGenerator around) result with
    | (result, false) => { result with error := around.what }
    | (result, true) =>
      { result with
        ok := true
        attempts
        batch_size := attempts
        batch_size_min := attempts
        batch_size_max := attempts }

/-- `runBatch`, without the times. -/
def runBatch (lib : Libargon2) (around : Surroundings) (request : HashApiRequest) : HashApiResult :=
  let result : HashApiResult :=
    { request_id := request.request_id
      algorithm := request.algorithm
      backend := lit (if request.backend = lit "reference" then "reference" else "cpu")
      device_id := request.device_id
      batch_size := request.batch_size }
  let errors := validateRequest request
  if !errors.isEmpty then { result with error := joinErrors errors }
  else if request.backend = lit "cuda" then
    { result with error := lit "cuda backend is not available in CpuHashBackend" }
  else if request.difficulty < kMinArgon2CpuDifficulty then
    { result with error := lit "cpu/reference difficulty must be at least 8" }
  else compute lib around request result

end CpuHashBackend

/-! ## What a hash is -/

section

variable {lib : Libargon2} {request : HashApiRequest} {around : Surroundings}

/-- The two digits of a byte, as the hasher reads them and as the request is read. -/
theorem hexchar_pair : ∀ c ∈ hexDigits, ∀ d ∈ hexDigits,
    (do
      let high ← hexcharToByte c
      let low ← hexcharToByte d
      some ((high <<< 4) ||| low)) =
      some (UInt8.ofNat (16 * (hexVal c).getD 0 + (hexVal d).getD 0)) := by
  decide

/-- A text of hex digits of even length is decoded without fail. -/
theorem hexstr_to_bytes_eq : ∀ {hex : Bytes}, hex.length % 2 = 0 →
    (∀ c ∈ hex, (hexVal c).isSome = true) → hexstrToBytes hex = some (hexBytes hex)
  | [], _, _ => rfl
  | [_], h, _ => by simp at h
  | c :: d :: hex, h, hall => by
    simp only [List.forall_mem_cons] at hall
    have heven : hex.length % 2 = 0 := by
      simp only [List.length_cons] at h
      omega
    have hpair := hexchar_pair c (mem_hexDigits hall.1) d (mem_hexDigits hall.2.1)
    obtain ⟨high, hhigh, hlow⟩ := Option.bind_eq_some_iff.mp hpair
    obtain ⟨low, hlow, hbyte⟩ := Option.bind_eq_some_iff.mp hlow
    unfold hexstrToBytes hexBytes
    rw [hhigh, hlow, hexstr_to_bytes_eq heven hall.2.2]
    rw [Option.some.injEq] at hbyte
    show some (_ :: hexBytes hex) = _
    rw [hbyte]

/-- No byte of an encoded hash is zero. -/
theorem phcOf_nonzero (m_cost : UInt32) (salt key : Bytes) :
    ∀ c ∈ phcOf m_cost salt key, c ≠ 0 := by
  have hbase : ∀ bytes : Bytes, ∀ c ∈ Base64.encode bytes, c ≠ 0 := by
    intro bytes c hc
    obtain ⟨v, hv, rfl⟩ := Base64.encode_chars bytes c hc
    have hall : ∀ v < 64, Base64.char v ≠ 0 := by decide
    exact hall v hv
  have hdigits : ∀ c ∈ toDecimal m_cost.toNat, c ≠ 0 := by
    rintro c hc rfl
    exact absurd (toDecimal_digits m_cost.toNat 0 hc) (by decide)
  have hfirst : ∀ c ∈ lit "$argon2id$v=19$m=", c ≠ 0 := by decide
  have hsecond : ∀ c ∈ lit ",t=1,p=1$", c ≠ 0 := by decide
  intro c hc
  unfold phcOf at hc
  simp only [List.mem_append, List.mem_cons] at hc
  rcases hc with (((hc | hc) | hc) | hc) | rfl | hc
  · exact hfirst c hc
  · exact hdigits c hc
  · exact hsecond c hc
  · exact hbase _ c hc
  · decide
  · exact hbase _ c hc

/-- What is left before the zero byte. -/
theorem takeWhile_phc {phc rest : Bytes} (h : ∀ c ∈ phc, c ≠ 0) :
    (phc ++ 0 :: rest).takeWhile (· ≠ 0) = phc := by
  induction phc with
  | nil => rfl
  | cons c phc ih =>
    have hc : decide (c ≠ 0) = true := decide_eq_true (h c List.mem_cons_self)
    rw [List.cons_append, List.takeWhile_cons, if_pos hc,
      ih fun d hd => h d (List.mem_cons_of_mem c hd)]

/-- The hasher of a request. -/
theorem hasher_new (hv : request.Valid) :
    Argon2idHasher.new 1 request.difficulty 1
      (normalizeHex request.salt_hex) kDefaultHashLength.toNat =
      some ⟨1, request.difficulty, 1, 64, request.salt⟩ := by
  unfold Argon2idHasher.new
  rw [hexstr_to_bytes_eq hv.saltEven hv.saltHex]
  rfl

/-- A hash that the library returns is the PHC string of its key. -/
theorem generateHash_eq (hlib : lib.Documented) {call : Nat} {password hash : Bytes}
    (h : Argon2idHasher.generateHash lib call ⟨1, request.difficulty, 1, 64,
      request.salt⟩ password =
      some hash) :
    hash = phcOf request.difficulty request.salt password := by
  obtain ⟨buffer, hbuffer, htext⟩ := Option.bind_eq_some_iff.mp h
  obtain ⟨rest, hrest⟩ := hlib _ _ _ _ _ _ hbuffer
  rw [hrest, takeWhile_phc (phcOf_nonzero _ _ _)] at htext
  exact (Option.some.inj htext).symm

/-! ## The matches of a batch -/

/-- Every match of the keys of a request in the encoded hashes, in the order of the keys. -/
def HashApiRequest.foundEncoded (request : HashApiRequest) (around : Surroundings) :
    List HashApiMatch :=
  (request.keys around).zipIdx.flatMap fun (key, index) =>
    appendMatches request key (phcOf request.difficulty request.salt key) index

namespace CpuHashBackend

/-- The keys of the turns of the loop. -/
def turnKeys (request : HashApiRequest) : Nat → RandomHexKeyGenerator → List Bytes
  | 0, _ => []
  | turns + 1, key_generator =>
    let (key, key_generator) :=
      if request.singleKey then (normalizeHex request.key, key_generator)
      else key_generator.nextRandomKey
    key :: turnKeys request turns key_generator

/-- The matches a batch reports are those of the keys it has tried, each with its own hash. -/
theorem attemptsFrom_matches (hlib : lib.Documented) {turns i : Nat}
    {key_generator : RandomHexKeyGenerator} {result : HashApiResult}
    (hdone : (attemptsFrom lib request ⟨1, request.difficulty, 1, 64,
      request.salt⟩ turns i key_generator
      result).2 = true) :
    (attemptsFrom lib request ⟨1, request.difficulty, 1, 64, request.salt⟩ turns i key_generator
        result).1.«matches» =
      result.«matches» ++ ((turnKeys request turns key_generator).zipIdx i).flatMap
        fun (key, index) =>
        appendMatches request key (phcOf request.difficulty request.salt key) index := by
  -- on the turns left; a hash that fails ends the loop, so here every turn has one
  induction turns generalizing i key_generator result with
  | zero => exact (List.append_nil _).symm
  | succ turns ih =>
    unfold attemptsFrom at hdone ⊢
    unfold turnKeys
    dsimp only at hdone ⊢
    generalize (if request.singleKey = true then (normalizeHex request.key, key_generator)
      else key_generator.nextRandomKey) = turn at hdone ⊢
    cases hhash : Argon2idHasher.generateHash lib i ⟨1, request.difficulty, 1, 64,
      request.salt⟩ turn.1 with
    | none =>
      rw [hhash] at hdone
      exact absurd hdone Bool.false_ne_true
    | some hash =>
      rw [hhash] at hdone
      dsimp only at hdone ⊢
      rw [ih hdone, generateHash_eq hlib hhash, List.zipIdx_cons, List.flatMap_cons,
        List.append_assoc]

/-- The keys tried are the keys of the request's generator, in its order. -/
theorem turnKeys_eq (request : HashApiRequest) (around : Surroundings) :
    turnKeys request request.attempts.toNat (request.keyGenerator around) =
      request.keys around := by
  have hrandom : ∀ turns g, request.singleKey = false →
      turnKeys request turns g = RandomHexKeyGenerator.keys turns g := by
    intro turns
    induction turns with
    | zero => exact fun _ _ => rfl
    | succ turns ih =>
      intro g hsingle
      unfold turnKeys RandomHexKeyGenerator.keys
      rw [if_neg (by rw [hsingle]; decide)]
      exact congrArg _ (ih _ hsingle)
  unfold HashApiRequest.keys
  by_cases hsingle : request.singleKey = true
  · have hone : request.attempts = 1 := if_pos hsingle
    rw [if_pos hsingle, hone]
    show turnKeys request 1 _ = _
    unfold turnKeys turnKeys
    rw [if_pos hsingle]
  · rw [if_neg hsingle]
    exact hrandom _ _ (Bool.not_eq_true _ ▸ hsingle)

/-- A result that is ok has every match of the request's own keys in their encoded hashes. -/
structure Reported (around : Surroundings) (request : HashApiRequest) (result : HashApiResult) :
    Prop where
  found : result.«matches» = request.foundEncoded around
  attempts : result.attempts = request.attempts
  valid : request.Valid
  difficulty : kMinArgon2CpuDifficulty ≤ request.difficulty

/-- The loop itself never sets `ok`; that is done after its last turn. -/
theorem attemptsFrom_ok {hasher : Argon2idHasher} {turns i : Nat}
    {key_generator : RandomHexKeyGenerator} {result : HashApiResult} :
    (attemptsFrom lib request hasher turns i key_generator result).1.ok = result.ok := by
  induction turns generalizing i key_generator result with
  | zero => rfl
  | succ turns ih =>
    unfold attemptsFrom
    dsimp only
    split
    next => rfl
    next hash hhash => exact ih

/-- A batch that says it is done has reported the matches of its keys. -/
theorem compute_reported (hlib : lib.Documented) (hv : request.Valid)
    (hlow : kMinArgon2CpuDifficulty ≤ request.difficulty) {result : HashApiResult}
    (hfalse : result.ok = false) (hnone : result.«matches» = [])
    (hok : (compute lib around request result).ok = true) :
    Reported around request (compute lib around request result) := by
  unfold compute at hok ⊢
  rw [hasher_new hv] at hok ⊢
  dsimp only at hok ⊢
  have hkept := @attemptsFrom_ok lib request ⟨1, request.difficulty, 1, 64, request.salt⟩
    request.attempts.toNat 0 (request.keyGenerator around) result
  have hmatches := @attemptsFrom_matches lib request hlib request.attempts.toNat 0
    (request.keyGenerator around) result
  generalize attemptsFrom lib request ⟨1, request.difficulty, 1, 64, request.salt⟩
    request.attempts.toNat 0 (request.keyGenerator around) result = r at hok hkept hmatches ⊢
  obtain ⟨found, done⟩ := r
  cases done with
  | false =>
    have hno : found.ok = true := hok
    rw [show found.ok = result.ok from hkept, hfalse] at hno
    exact absurd hno Bool.false_ne_true
  | true =>
    refine ⟨?_, rfl, hv, hlow⟩
    show found.«matches» = _
    rw [hmatches rfl, hnone, turnKeys_eq]
    rfl

/-- What is reported, whichever keys are drawn and whatever the library fails at. -/
theorem runBatch_reported (hlib : lib.Documented) (hok : (runBatch lib around request).ok = true) :
    Reported around request (runBatch lib around request) := by
  unfold runBatch at hok ⊢
  dsimp only at hok ⊢
  by_cases herrors : (!(validateRequest request).isEmpty) = true
  · rw [if_pos herrors] at hok
    exact absurd hok Bool.false_ne_true
  by_cases hcuda : request.backend = lit "cuda"
  · rw [if_neg herrors, if_pos hcuda] at hok
    exact absurd hok Bool.false_ne_true
  by_cases hlow : request.difficulty < kMinArgon2CpuDifficulty
  · rw [if_neg herrors, if_neg hcuda, if_pos hlow] at hok
    exact absurd hok Bool.false_ne_true
  rw [if_neg herrors, if_neg hcuda, if_neg hlow] at hok ⊢
  have hnil : validateRequest request = [] := by simpa using herrors
  apply compute_reported hlib (HashApiRequest.valid_of_validate hnil)
    (UInt32.not_lt.mp hlow) rfl rfl hok

end CpuHashBackend

end

end TreeMiner.Gpu

import Mathlib.Data.List.Infix
import TreeMiner.Gpu.CpuBackend
import TreeMiner.Gpu.LaneCounts

/-!
# The CPU workers (`CpuMiningWorker.cpp`, `main.cpp`)

Workers mine batch after batch with the reference backend, each on a thread of its own. The
reference backend looks for the patterns in the whole PHC string; a worker drops what is not in
the digest, so that it submits what a lane of a GPU submits for the same keys
(`cpu_submissions_exact`).

The threads go on in any order, one turn of the loop of `runWorker` at a time. What a turn reads
from the rest of the process is given with it. The hashrates, the pauses and the exceptions of
the callback are left out.
-/

namespace TreeMiner.Gpu

open Cxx

def kMinCpuDifficulty : UInt32 := 8

/-- `CpuMiningWorker::Config`. -/
structure CpuConfig where
  workerCount : Nat := 1
  batch_size : UInt64 := 1
  /-- Above it a worker idles; 0 for no ceiling. -/
  max_difficulty : UInt32 := 0

/-- What a thread keeps from turn to turn. -/
structure CpuThread where
  attempts_since_match : UInt64 := 0
  ended : Bool := false

/-- The members that the threads share, the threads, and the number of the work function. -/
structure CpuMiningWorker where
  stop_requested_ : Bool := false
  attempts_ : UInt64 := 0
  matches_ : UInt64 := 0
  last_error_ : Bytes := []
  threads_ : List CpuThread
  cpuWorkSequence : UInt64 := 0

/-- What a turn finds in the process. -/
structure CpuLook where
  running : Bool
  globalDifficulty : Int32
  call : WorkCall
  around : Surroundings
  lib : Libargon2

/-- A batch of a worker, with what it has found and what was submitted. -/
structure CpuBatch where
  look : CpuLook
  request : HashApiRequest
  result : HashApiResult
  calls : List SubmitCall

inductive CpuEvent where
  /-- `stop`. -/
  | stop
  /-- A turn of the loop in `runWorker`. -/
  | turn (worker_index : Nat) (look : CpuLook)

/-- The difficulty provider. -/
def cpuDifficulty (o : Options) (globalDifficulty : Int32) : UInt32 :=
  let lock := o.globalMiningDifficultyLock
  (if lock > 0 then lock else globalDifficulty).toUInt32

/-- The request of a turn. -/
def cpuRequest (config : CpuConfig) (worker_index : Nat) (difficulty : UInt32) (work : Work) :
    HashApiRequest where
  backend := lit "cpu"
  salt_hex := work.salt_hex
  key_prefix := work.key_prefix
  target_pattern := work.target_pattern
  difficulty
  batch_size := config.batch_size
  device_id := worker_index
  allow_xuni := work.allow_xuni

/-- What `digestFromProtocolPhc` throws. -/
def protocolError (phc : Bytes) (difficulty : UInt32) : Bytes :=
  if (lit "$argon2id$v=19$m=" ++ toDecimal difficulty.toNat ++ lit ",t=1,p=1$").isPrefixOf phc then
    lit "CPU backend returned an invalid PHC string"
  else lit "CPU backend returned a non-protocol Argon2id hash"

namespace CpuMiningWorker

/-- After `start`. -/
def new (config : CpuConfig) : CpuMiningWorker where
  threads_ := List.replicate config.workerCount {}

def setThread (worker_index : Nat) (thread : CpuThread) (w : CpuMiningWorker) : CpuMiningWorker :=
  { w with threads_ := w.threads_.set worker_index thread }

/-- `recordError`, and the end of the thread. -/
def recordError (message : Bytes) (worker_index : Nat) (thread : CpuThread) (w : CpuMiningWorker) :
    CpuMiningWorker :=
  { w.setThread worker_index { thread with ended := true } with
    last_error_ := if w.last_error_.isEmpty then message else w.last_error_
    stop_requested_ := true }

/-- A turn in which the difficulty is right, and the batch that it has mined. -/
def mine (o : Options) (config : CpuConfig) (worker_index : Nat) (look : CpuLook)
    (difficulty : UInt32)
    (thread : CpuThread) (w : CpuMiningWorker) : CpuMiningWorker × Option CpuBatch :=
  let (mined, sequence) := cpuMineWork o look.call w.cpuWorkSequence
  let w := { w with cpuWorkSequence := sequence }
  match mined with
  | none => (w.recordError look.around.what worker_index thread, none)
  | some mined =>
    let work := look.call.workOf mined
    let request := cpuRequest config worker_index difficulty work
    let result := CpuHashBackend.runBatch look.lib look.around request
    if !result.ok then
      (w.recordError (lit "CPU hash batch failed: " ++ result.error) worker_index thread, none)
    else
      let r := workerMatches difficulty work thread.attempts_since_match 0 result.«matches»
      let w := { w with
        attempts_ := w.attempts_ + result.attempts
        matches_ := w.matches_ + UInt64.ofNat r.1.length }
      let batch : CpuBatch := ⟨look, request, result, r.1⟩
      match r.2 with
      | none =>
        -- the first hash that has not the form of the protocol
        let phc :=
          (result.«matches».find? fun m => (digestFromProtocolPhc m.hash difficulty).isNone).map
            (·.hash)
        (w.recordError (protocolError (phc.getD []) difficulty) worker_index thread, some batch)
      | some (attempts_since_match, next_attempt_index) =>
        (w.setThread worker_index { thread with
          attempts_since_match := finish attempts_since_match next_attempt_index result.attempts },
          some batch)

/-- A turn of the loop in `runWorker`. -/
def turn (o : Options) (config : CpuConfig) (worker_index : Nat) (look : CpuLook)
    (thread : CpuThread) (w : CpuMiningWorker) : CpuMiningWorker × Option CpuBatch :=
  if w.stop_requested_ || !look.running then
    (w.setThread worker_index { thread with ended := true }, none)
  else
    let difficulty := cpuDifficulty o look.globalDifficulty
    if difficulty < kMinCpuDifficulty then
      (w.recordError (lit "CPU mining difficulty must be at least 8") worker_index thread, none)
    else if config.max_difficulty > 0 ∧ difficulty > config.max_difficulty then (w, none)
    else w.mine o config worker_index look difficulty thread

def step (o : Options) (config : CpuConfig) (w : CpuMiningWorker) :
    CpuEvent → CpuMiningWorker × Option CpuBatch
  | .stop => ({ w with stop_requested_ := true }, none)
  | .turn worker_index look =>
    match w.threads_[worker_index]? with
    | none => (w, none)
    | some thread => if thread.ended then (w, none) else w.turn o config worker_index look thread

/-- A run, and the batches that the workers mine in it. -/
def run (o : Options) (config : CpuConfig) :
    CpuMiningWorker → List CpuEvent → CpuMiningWorker × List CpuBatch
  | w, [] => (w, [])
  | w, event :: events =>
    let (w, batch) := w.step o config event
    let (w, batches) := run o config w events
    (w, batch.toList ++ batches)

end CpuMiningWorker

/-! ## What a worker drops -/

section Dropped

variable {needle s t : Bytes} {request : HashApiRequest} {difficulty : UInt32} {work : Work}

/-- The search finds a pattern exactly when the text has it somewhere. -/
theorem contains_eq_true : contains needle t = true ↔ needle <:+: t := by
  induction t with
  | nil =>
    show needle.isPrefixOf [] = true ↔ _
    rw [List.isPrefixOf_iff_prefix, List.prefix_nil, List.infix_nil]
  | cons c t ih =>
    show (needle.isPrefixOf (c :: t) || contains needle t) = true ↔ _
    rw [Bool.or_eq_true, List.isPrefixOf_iff_prefix, ih, List.infix_cons_iff]

/-- What is in the digest is in the whole string. -/
theorem contains_append (h : contains needle t = true) : contains needle (s ++ t) = true :=
  contains_eq_true.mpr ((contains_eq_true.mp h).trans (List.suffix_append s t).isInfix)

/-- A text with XUNI and a digit keeps it when something is put in front. -/
theorem hasXuniMatch_append (h : hasXuniMatch t = true) : hasXuniMatch (s ++ t) = true := by
  induction s with
  | nil => exact h
  | cons c s ih =>
    show (_ || hasXuniMatch (s ++ t)) = true
    rw [ih, Bool.or_true]

/-- The digest is what follows the last separator of the encoded hash. -/
theorem digestFromProtocolPhc_phcOf (m_cost : UInt32) (salt key : Bytes) :
    digestFromProtocolPhc (phcOf m_cost salt key) m_cost =
      some (Base64.encode (Argon2.digest (xenParams m_cost salt) key)) := by
  have hlen : (Argon2.digest (xenParams m_cost salt) key).length = 64 := Argon2.length_longHash 64 _
  have hphc : phcOf m_cost salt key = lit "$argon2id$v=19$m=" ++ toDecimal m_cost.toNat ++
      phcTail salt (Argon2.digest (xenParams m_cost salt) key) := by
    unfold phcOf phcTail
    rw [base64Encode_eq, base64Encode_eq]
    simp only [List.append_assoc]
  rw [hphc, digestFromProtocolPhc_eq hlen, base64Encode_eq]

/-- What the worker keeps of the matches of a key is the matches of its digest. -/
theorem appendMatches_kept {key phc digest : Bytes} (index : Nat)
    (hdigest : digestFromProtocolPhc phc difficulty = some digest)
    (hsuffix : ∃ front, phc = front ++ digest)
    (htarget : request.target_pattern = work.target_pattern)
    (hxuni : request.allow_xuni = work.allow_xuni) (hother : work.target_pattern ≠ lit "XUNI") :
    ((appendMatches request key phc index).filter (Submitted difficulty work)).map
        (fun m => (m.key, digestFromProtocolPhc m.hash difficulty)) =
      (appendMatches request key digest index).map fun m => (m.key, some m.hash) := by
  obtain ⟨front, hfront⟩ := hsuffix
  have hpair : ∀ {pattern : Bytes} {superblock other : Bool},
      [(⟨key, phc, pattern, index, superblock⟩ : HashApiMatch)].map
          (fun m => (m.key, digestFromProtocolPhc m.hash difficulty)) =
        [(⟨key, digest, pattern, index, other⟩ : HashApiMatch)].map
          fun m => (m.key, some m.hash) := by
    intro pattern superblock other
    rw [List.map_singleton, List.map_singleton, hdigest]
  unfold appendMatches
  rw [List.filter_append, List.map_append, List.map_append]
  congr 1
  · have hsubmitted : Submitted difficulty work
        ⟨key, phc, work.target_pattern, index, isSuperblockHash phc⟩ =
          contains work.target_pattern digest := by
      unfold Submitted digestMatches
      rw [hdigest, Option.any_some, if_pos rfl]
    rw [htarget]
    -- the backend has looked in the whole string; the worker keeps what the digest has
    by_cases hin : contains work.target_pattern digest = true
    · have hwhole : contains work.target_pattern phc = true := by
        rw [hfront]
        exact contains_append hin
      rw [if_pos hwhole, if_pos hin, List.filter_cons_of_pos (hsubmitted.trans hin)]
      exact hpair
    · rw [if_neg hin]
      split
      · rw [List.filter_cons_of_neg (by rw [hsubmitted]; exact hin)]
        rfl
      · rfl
  · have hsubmitted : Submitted difficulty work ⟨key, phc, lit "XUNI", index, false⟩ =
        (work.allow_xuni && hasXuniMatch digest) := by
      unfold Submitted digestMatches
      rw [hdigest, Option.any_some, if_neg (Ne.symm hother), if_pos rfl]
    rw [hxuni]
    -- the same for XUNI
    by_cases hin : (work.allow_xuni && hasXuniMatch digest) = true
    · obtain ⟨hallow, hmatch⟩ := Bool.and_eq_true_iff.mp hin
      have hwhole : (work.allow_xuni && hasXuniMatch phc) = true := by
        rw [hallow, hfront, hasXuniMatch_append hmatch, Bool.and_self]
      rw [if_pos hwhole, if_pos hin, List.filter_cons_of_pos (hsubmitted.trans hin)]
      exact hpair
    · rw [if_neg hin]
      split
      · rw [List.filter_cons_of_neg (by rw [hsubmitted]; exact hin)]
        rfl
      · rfl

/-- Each match the worker sees belongs to one of the keys of the request. -/
theorem mem_foundEncoded {around : Surroundings} :
    ∀ m ∈ request.foundEncoded around, ∃ index key, index < (request.keys around).length ∧
      m ∈ appendMatches request key (phcOf request.difficulty request.salt key) index := by
  intro m hm
  unfold HashApiRequest.foundEncoded at hm
  obtain ⟨⟨key, index⟩, hzip, hmem⟩ := List.mem_flatMap.mp hm
  exact ⟨index, key, (List.mem_zipIdx' hzip).1, hmem⟩

/-- A worker keeps of the matches of its batch what a lane finds with the same keys. -/
theorem foundEncoded_kept {around : Surroundings}
    (htarget : request.target_pattern = work.target_pattern)
    (hxuni : request.allow_xuni = work.allow_xuni) (hother : work.target_pattern ≠ lit "XUNI") :
    ((request.foundEncoded around).filter (Submitted request.difficulty work)).map
        (fun m => (m.key, digestFromProtocolPhc m.hash request.difficulty)) =
      (request.found around).map fun m => (m.key, some m.hash) := by
  unfold HashApiRequest.foundEncoded HashApiRequest.found
  rw [List.filter_flatMap, List.map_flatMap, List.map_flatMap]
  apply List.flatMap_congr
  intro ⟨key, index⟩ _
  refine appendMatches_kept index (digestFromProtocolPhc_phcOf _ _ _) ?_ htarget hxuni hother
  refine ⟨lit "$argon2id$v=19$m=" ++ toDecimal request.difficulty.toNat ++ lit ",t=1,p=1$" ++
    Base64.encode request.salt ++ [ch '$'], ?_⟩
  unfold phcOf
  rw [List.append_assoc _ [ch '$'], List.singleton_append]
  rfl

/-- Every encoded hash has the form of the protocol. -/
theorem foundEncoded_readable {around : Surroundings} :
    ∀ m ∈ request.foundEncoded around,
      (digestFromProtocolPhc m.hash request.difficulty).isSome = true := by
  intro m hm
  obtain ⟨index, key, -, hmem⟩ := mem_foundEncoded m hm
  rw [(CudaHashBackend.mem_appendMatches m hmem).2, digestFromProtocolPhc_phcOf, Option.isSome_some]

/-- What is submitted of some matches: those that are kept, with their digests. -/
theorem workerMatches_calls {ms : List HashApiMatch} (a n : UInt64)
    (hread : ∀ m ∈ ms, (digestFromProtocolPhc m.hash difficulty).isSome = true) :
    (workerMatches difficulty work a n ms).1.map
        (fun c => (c.hexsalt, c.key, some c.hashed_pure, c.memory_cost)) =
      (ms.filter (Submitted difficulty work)).map
        fun m => (work.salt_hex, m.key, digestFromProtocolPhc m.hash difficulty, difficulty) := by
  induction ms generalizing a n with
  | nil => rfl
  | cons m ms ih =>
    have ih := fun a n => ih a n fun m' hm' => hread m' (List.mem_cons_of_mem m hm')
    obtain ⟨digest, hdigest⟩ := Option.isSome_iff_exists.mp (hread m List.mem_cons_self)
    have hsubmitted : Submitted difficulty work m = digestMatches work m digest := by
      unfold Submitted
      rw [hdigest, Option.any_some]
    unfold workerMatches
    dsimp only
    rw [hdigest]
    dsimp only
    -- a digest that does not match is not submitted, and the filter of the statement drops it too
    by_cases hmatch : digestMatches work m digest = true
    · rw [hmatch, List.filter_cons_of_pos (hsubmitted.trans hmatch), List.map_cons, hdigest,
        ← ih]
      rfl
    · rw [Bool.not_eq_true] at hmatch
      rw [hmatch, List.filter_cons_of_neg (by rw [hsubmitted, hmatch]; decide)]
      exact ih _ _

/-- What is handed over with them, and what is carried on, are the attempts carried so far and those
of the batch. -/
theorem workerMatches_sum {result : HashApiResult} (a : UInt64) (hinside : Inside result)
    (hread : ∀ m ∈ result.«matches»,
      (digestFromProtocolPhc m.hash difficulty).isSome = true) :
    ∃ rest next, (workerMatches difficulty work a 0 result.«matches»).2 = some (rest, next) ∧
      ((workerMatches difficulty work a 0 result.«matches»).1.map (·.attempts)).sum +
        finish rest next result.attempts = a + result.attempts := by
  obtain ⟨calls, rest, next, hrun, hmeter⟩ :=
    @workerMatches_meter result.attempts difficulty work result.«matches» a 0
      (Nat.zero_le _) hinside hread
  have htotal :=
    @ticks_total (Submitted difficulty work) _ _ _ (Nat.zero_le result.attempts.toNat) hinside
  have hmap : Meter.run UInt64.ofNat (UInt64.ofNat a.toNat)
      (ticks (Submitted difficulty work) result.attempts.toNat 0 result.«matches») = _ :=
    Meter.run_map rfl (fun a b => UInt64.ofNat_add a b) a.toNat
  rw [UInt64.ofNat_toNat, hmeter] at hmap
  obtain ⟨hpassed, hrest⟩ := Prod.mk.inj hmap
  have hsum := @Meter.run_sum
    (ticks (Submitted difficulty work) result.attempts.toNat 0 result.«matches») a.toNat
  change workerMatches difficulty work a 0 result.«matches» = _ at hrun
  refine ⟨rest, next, by rw [hrun], ?_⟩
  rw [hrun, hpassed, hrest, sum_ofNat, ← UInt64.ofNat_add, hsum, htotal, Nat.sub_zero,
    UInt64.ofNat_add, UInt64.ofNat_toNat, UInt64.ofNat_toNat]

end Dropped

/-! ## Turns -/

/-- What a turn finds: checked addresses, a pattern other than that of XUNI, and the library. -/
structure CpuLook.Checked (look : CpuLook) : Prop where
  user : HexAddress look.call.identity.userAddress
  consumer : look.call.context.mode = .PLATFORM_MINING → HexAddress look.call.context.address
  pattern : look.call.identity.testBlockPattern ≠ lit "XUNI"
  library : look.lib.Documented

def CpuEvent.Checked : CpuEvent → Prop
  | .stop => True
  | .turn _ look => look.Checked

/-- A salt that is mined for is that of an address. -/
theorem cpuMineWork_salt {o : Options} (ho : o.Checked) {look : CpuLook} (hlook : look.Checked)
    {sequence : UInt64} {work : Bytes × Bytes}
    (h : (cpuMineWork o look.call sequence).1 = some work) :
    HexSalt work.1 := by
  have hsub : ∀ {address salt : Bytes}, HexAddress address → substr address 2 = some salt →
      HexSalt salt := by
    intro address salt ⟨hexsalt, heq, hhex⟩ hsalt
    have hdrop : substr address 2 = some hexsalt := by
      rw [heq]
      rfl
    rw [hdrop] at hsalt
    cases hsalt
    exact hhex
  unfold cpuMineWork at h
  split at h
  -- the salt of a rented machine is its consumer's, otherwise the miner's own or that of a fee
  next hmode =>
    obtain ⟨hexsalt, heq, hhex⟩ := hlook.consumer hmode
    rw [heq] at h
    cases h
    exact hhex
  next =>
    split at h
    next => cases h
    next userSalt hsalt =>
      split at h
      · dsimp only at h
        split at h
        · obtain ⟨salt, hfee, hwork⟩ := Option.map_eq_some_iff.mp h
          rw [← hwork]
          split at hfee
          next heco =>
            apply hsub (ho.eco.resolve_left fun hnil => ?_) hfee
            rw [hnil] at heco
            simp at heco
          next => exact hsub ho.fee hfee
        · cases h
          exact hsub hlook.user hsalt
      · cases h
        exact hsub hlook.user hsalt

/-- A batch of a worker: within the bounds of the difficulty, and with what a lane would submit. -/
structure CpuBatch.Mined (config : CpuConfig) (b : CpuBatch) : Prop where
  low : kMinCpuDifficulty ≤ b.request.difficulty
  ceiling : config.max_difficulty = 0 ∨ b.request.difficulty ≤ config.max_difficulty
  attempts : b.result.attempts = config.batch_size
  submitted : b.calls.map (fun c => (c.hexsalt, c.key, c.hashed_pure, c.memory_cost)) =
    (b.request.found b.look.around).map fun m =>
      (b.request.salt_hex, m.key, m.hash, b.request.difficulty)
  verifies : ∀ c ∈ b.calls, c.Verifies b.request

/-- The attempts that the threads carry on. -/
def CpuMiningWorker.carried (w : CpuMiningWorker) : UInt64 :=
  (w.threads_.map (·.attempts_since_match)).sum

/-- The attempts that are handed over with the submitted keys of some batches. -/
def cpuHanded (batches : List CpuBatch) : UInt64 :=
  (batches.map fun b => (b.calls.map (·.attempts)).sum).sum

def cpuMade (batches : List CpuBatch) : UInt64 := (batches.map fun b => b.result.attempts).sum

def cpuSubmitted (batches : List CpuBatch) : Nat := (batches.map fun b => b.calls.length).sum

/-- What a step does to the counts. -/
structure Counted (batches : List CpuBatch) (w w' : CpuMiningWorker) : Prop where
  attempts : w'.attempts_ = w.attempts_ + cpuMade batches
  found : w'.matches_ = w.matches_ + UInt64.ofNat (cpuSubmitted batches)
  carried : cpuHanded batches + w'.carried = w.carried + cpuMade batches

/-- The attempts of two runs one after the other add up. -/
theorem counted_append {first rest : List CpuBatch} {w w' w'' : CpuMiningWorker}
    (h : Counted first w w') (h' : Counted rest w' w'') : Counted (first ++ rest) w w'' := by
  have hmade : cpuMade (first ++ rest) = cpuMade first + cpuMade rest := by
    unfold cpuMade
    rw [List.map_append, List.sum_append]
  have hhanded : cpuHanded (first ++ rest) = cpuHanded first + cpuHanded rest := by
    unfold cpuHanded
    rw [List.map_append, List.sum_append]
  have hsubmitted : cpuSubmitted (first ++ rest) = cpuSubmitted first + cpuSubmitted rest := by
    unfold cpuSubmitted
    rw [List.map_append, List.sum_append]
  refine ⟨?_, ?_, ?_⟩
  · rw [h'.attempts, h.attempts, hmade, UInt64.add_assoc]
  · rw [h'.found, h.found, hsubmitted, UInt64.ofNat_add, UInt64.add_assoc]
  · calc cpuHanded (first ++ rest) + w''.carried
        = cpuHanded first + (cpuHanded rest + w''.carried) := by rw [hhanded, UInt64.add_assoc]
      _ = cpuHanded first + w'.carried + cpuMade rest := by rw [h'.carried, UInt64.add_assoc]
      _ = w.carried + cpuMade (first ++ rest) := by rw [h.carried, hmade, UInt64.add_assoc]

section Turns

variable {o : Options} {config : CpuConfig} {w : CpuMiningWorker} {worker_index : Nat}
  {thread thread' : CpuThread}
  {look : CpuLook} {difficulty : UInt32} {around : Surroundings}

/-- The count of one thread is changed, those of the others stay. -/
theorem sum_set {threads : List CpuThread} (h : threads[worker_index]? = some thread)
    (passed : UInt64) {made : UInt64}
    (hcount : passed + thread'.attempts_since_match = thread.attempts_since_match + made) :
    passed + ((threads.set worker_index thread').map (·.attempts_since_match)).sum =
      (threads.map (·.attempts_since_match)).sum + made := by
  induction threads generalizing worker_index with
  | nil => cases h
  | cons t threads ih =>
    cases worker_index with
    | zero =>
      have hfirst : t = thread := Option.some.inj h
      rw [List.set_cons_zero, List.map_cons, List.map_cons, List.sum_cons, List.sum_cons, hfirst,
        ← UInt64.add_assoc, hcount, UInt64.add_assoc, UInt64.add_comm made, ← UInt64.add_assoc]
    | succ worker_index =>
      have hrest := @ih worker_index h
      rw [List.set_cons_succ, List.map_cons, List.map_cons, List.sum_cons, List.sum_cons,
        ← UInt64.add_assoc, UInt64.add_comm passed, UInt64.add_assoc, hrest, UInt64.add_assoc]

/-- A thread ends with the count it has. -/
theorem counted_ended (h : w.threads_[worker_index]? = some thread) {w' : CpuMiningWorker}
    (hattempts : w'.attempts_ = w.attempts_) (hmatches : w'.matches_ = w.matches_)
    (hthreads : w'.threads_ = w.threads_.set worker_index { thread with ended := true }) :
    Counted [] w w' := by
  refine ⟨?_, ?_, ?_⟩
  · rw [hattempts]
    exact (UInt64.add_zero _).symm
  · rw [hmatches]
    exact (UInt64.add_zero _).symm
  · unfold CpuMiningWorker.carried
    rw [hthreads]
    apply sum_set h
    exact UInt64.add_comm _ _

/-- Without any change of the counts. -/
theorem counted_same {w' : CpuMiningWorker} (hattempts : w'.attempts_ = w.attempts_)
    (hmatches : w'.matches_ = w.matches_) (hthreads : w'.threads_ = w.threads_) :
    Counted [] w w' := by
  refine ⟨?_, ?_, ?_⟩
  · rw [hattempts]
    exact (UInt64.add_zero _).symm
  · rw [hmatches]
    exact (UInt64.add_zero _).symm
  · unfold CpuMiningWorker.carried
    rw [hthreads]
    exact UInt64.add_comm _ _

/-- Every match lies inside the attempts of its batch. -/
theorem foundEncoded_inside {request : HashApiRequest} {result : HashApiResult}
    (h : CpuHashBackend.Reported around request result) : Inside result := by
  intro m hm
  rw [h.found] at hm
  obtain ⟨index, key, hlt, hmem⟩ := mem_foundEncoded m hm
  rw [mem_appendMatches_index m hmem, h.attempts, ← HashApiRequest.length_keys request around]
  exact hlt

/-- What is submitted of a batch that is ok. -/
theorem workerMatches_reported {request : HashApiRequest} {work : Work} {result : HashApiResult}
    (h : CpuHashBackend.Reported around request result) (hsalt : request.salt_hex = work.salt_hex)
    (htarget : request.target_pattern = work.target_pattern)
    (hxuni : request.allow_xuni = work.allow_xuni) (hother : work.target_pattern ≠ lit "XUNI")
    (a : UInt64) :
    (workerMatches request.difficulty work a 0 result.«matches»).1.map
        (fun c => (c.hexsalt, c.key, c.hashed_pure, c.memory_cost)) =
      (request.found around).map
        fun m => (request.salt_hex, m.key, m.hash, request.difficulty) := by
  have hread : ∀ m ∈ result.«matches»,
    (digestFromProtocolPhc m.hash request.difficulty).isSome = true := by
    rw [h.found]
    exact foundEncoded_readable
  have hcalls := @workerMatches_calls request.difficulty work result.«matches» a 0 hread
  have hkept :=
    congrArg
      (List.map fun p : Bytes × Option Bytes => (work.salt_hex, p.1, p.2, request.difficulty))
    (@foundEncoded_kept request work around htarget hxuni hother)
  rw [List.map_map, List.map_map] at hkept
  rw [h.found] at hcalls ⊢
  -- a digest that is there is taken out of its option
  have hinj : Function.Injective
    fun p : Bytes × Bytes × Bytes × UInt32 => (p.1, p.2.1, some p.2.2.1, p.2.2.2) := by
    intro p q heq
    simp only [Prod.mk.injEq, Option.some.injEq] at heq
    obtain ⟨h₁, h₂, h₃, h₄⟩ := heq
    exact Prod.ext h₁ (Prod.ext h₂ (Prod.ext h₃ h₄))
  apply List.map_injective_iff.mpr hinj
  rw [List.map_map, List.map_map, hsalt]
  exact hcalls.trans hkept

/-- A turn in which the difficulty is right. -/
theorem mine_spec (ho : o.Checked) (hlook : look.Checked)
    (hthread : w.threads_[worker_index]? = some thread) (hlow : kMinCpuDifficulty ≤ difficulty)
    (hceiling : config.max_difficulty = 0 ∨ difficulty ≤ config.max_difficulty) :
    Counted (w.mine o config worker_index look difficulty thread).2.toList w
        (w.mine o config worker_index look difficulty thread).1 ∧
      ∀ b ∈ (w.mine o config worker_index look difficulty thread).2, b.Mined config := by
  unfold CpuMiningWorker.mine
  dsimp only
  cases hmined : (cpuMineWork o look.call w.cpuWorkSequence).1 with
  | none => exact ⟨counted_ended hthread rfl rfl rfl, fun _ h => nomatch h⟩
  | some mined =>
    dsimp only
    -- a batch that failed ends the thread; what it has carried is not handed on
    by_cases hok : (CpuHashBackend.runBatch look.lib look.around
        (cpuRequest config worker_index difficulty (look.call.workOf mined))).ok = true
    · have hreported := CpuHashBackend.runBatch_reported hlook.library hok
      rw [if_neg (by rw [hok]; decide)]
      generalize CpuHashBackend.runBatch look.lib look.around
        (cpuRequest config worker_index difficulty (look.call.workOf mined)) =
          result at hreported ⊢
      have hread : ∀ m ∈ result.«matches», (digestFromProtocolPhc m.hash difficulty).isSome =
        true := by
        rw [hreported.found]
        exact foundEncoded_readable
      obtain ⟨rest, next, hrest, hsum⟩ :=
        @workerMatches_sum difficulty (look.call.workOf mined) result
        thread.attempts_since_match (foundEncoded_inside hreported) hread
      -- of the patterns only XUNI is written with digits behind it
      have hother : (look.call.workOf mined).target_pattern ≠ lit "XUNI" := by
        show (if look.call.identity.testBlockPattern.isEmpty then lit "XEN11"
          else look.call.identity.testBlockPattern) ≠ lit "XUNI"
        split
        · decide
        · exact hlook.pattern
      have hcalls := workerMatches_reported hreported rfl rfl rfl hother thread.attempts_since_match
      have hbatch : result.attempts = config.batch_size := hreported.attempts
      rw [hrest]
      constructor
      · refine ⟨?_, ?_, ?_⟩
        · exact congrArg (w.attempts_ + ·) (UInt64.add_zero _).symm
        · rfl
        · unfold CpuMiningWorker.carried cpuHanded cpuMade
          show (_ + 0 : UInt64) + _ = _ + (result.attempts + 0)
          rw [UInt64.add_zero, UInt64.add_zero]
          exact sum_set hthread _ hsum
      · intro b hb
        rw [← Option.some.inj hb]
        refine ⟨hlow, hceiling, hbatch, hcalls, ?_⟩
        intro c hc
        apply HashApiRequest.verifies_found hreported.valid rfl (cpuMineWork_salt ho hlook hmined)
        · rw [← hcalls]
          exact List.mem_map.mpr ⟨c, hc, rfl⟩
    · rw [if_pos (by rw [Bool.not_eq_true] at hok; rw [hok]; rfl)]
      exact ⟨counted_ended hthread rfl rfl rfl, fun _ h => nomatch h⟩

/-- A step of the workers, whichever it is. -/
theorem cpuStep_spec (ho : o.Checked) {event : CpuEvent} (hevent : event.Checked) :
    Counted (w.step o config event).2.toList w (w.step o config event).1 ∧
      ∀ b ∈ (w.step o config event).2, b.Mined config := by
  cases event with
  | stop => exact ⟨counted_same rfl rfl rfl, fun _ h => nomatch h⟩
  | turn worker_index look =>
    unfold CpuMiningWorker.step
    dsimp only
    cases hthread : w.threads_[worker_index]? with
    | none => exact ⟨counted_same rfl rfl rfl, fun _ h => nomatch h⟩
    | some thread =>
      dsimp only
      -- the ways in which a turn mines nothing, in the order of the source
      by_cases hended : thread.ended = true
      · rw [if_pos hended]
        exact ⟨counted_same rfl rfl rfl, fun _ h => nomatch h⟩
      rw [if_neg hended]
      unfold CpuMiningWorker.turn
      dsimp only
      by_cases hstop : (w.stop_requested_ || !look.running) = true
      · rw [if_pos hstop]
        exact ⟨counted_ended hthread rfl rfl rfl, fun _ h => nomatch h⟩
      rw [if_neg hstop]
      by_cases hlow : cpuDifficulty o look.globalDifficulty < kMinCpuDifficulty
      · rw [if_pos hlow]
        exact ⟨counted_ended hthread rfl rfl rfl, fun _ h => nomatch h⟩
      rw [if_neg hlow]
      by_cases hhigh : config.max_difficulty > 0 ∧
          cpuDifficulty o look.globalDifficulty > config.max_difficulty
      · rw [if_pos hhigh]
        exact ⟨counted_same rfl rfl rfl, fun _ h => nomatch h⟩
      rw [if_neg hhigh]
      apply mine_spec ho hevent hthread (UInt32.not_lt.mp hlow)
      by_cases hzero : config.max_difficulty = 0
      · exact .inl hzero
      · have hpos : config.max_difficulty > 0 := UInt32.pos_iff_ne_zero.mpr hzero
        exact .inr (UInt32.not_lt.mp fun h => hhigh ⟨hpos, h⟩)

end Turns

/-- Over a whole run of the worker the attempts handed on are those made, and every batch is mined.
-/
theorem cpuRun_spec {o : Options} (ho : o.Checked) {config : CpuConfig} {events : List CpuEvent}
    (hevents : ∀ event ∈ events, event.Checked) (w : CpuMiningWorker) :
    Counted (w.run o config events).2 w (w.run o config events).1 ∧
      ∀ b ∈ (w.run o config events).2, b.Mined config := by
  induction events generalizing w with
  | nil => exact ⟨counted_same rfl rfl rfl, fun _ h => nomatch h⟩
  | cons event events ih =>
    obtain ⟨hcounted, hmined⟩ :=
      @cpuStep_spec o config w ho event (hevents event List.mem_cons_self)
    obtain ⟨hrest, hothers⟩ :=
      ih (fun e he => hevents e (List.mem_cons_of_mem event he)) (w.step o config event).1
    refine ⟨counted_append hcounted hrest, ?_⟩
    intro b hb
    rcases List.mem_append.mp hb with hb | hb
    · exact hmined b (Option.mem_toList.mp hb)
    · exact hothers b hb

/-- In whatever order the workers go on, whatever the settings change to and whichever calls of the
library fail: each batch of a worker hands to the submit callback, in order, the keys that a lane
would hand over that drew the same keys, with the same digests, and nothing else; no batch is mined
below the lowest difficulty or above the ceiling; and the numbers of attempts and matches that are
shown are those of the batches, where the attempts handed over and those that the threads still
carry add up to the attempts made. -/
theorem cpu_submissions_exact (o : Options) (ho : o.Checked) (config : CpuConfig)
    (events : List CpuEvent) (hevents : ∀ event ∈ events, event.Checked) :
    let r := (CpuMiningWorker.new config).run o config events
    (∀ b ∈ r.2, kMinCpuDifficulty ≤ b.request.difficulty ∧
      (config.max_difficulty = 0 ∨ b.request.difficulty ≤ config.max_difficulty) ∧
      b.calls.map (fun c => (c.key, c.hashed_pure)) =
        (b.request.found b.look.around).map (fun m => (m.key, m.hash)) ∧
      ∀ c ∈ b.calls, c.Verifies b.request) ∧
    r.1.attempts_ = (r.2.map fun _ => config.batch_size).sum ∧
    r.1.matches_ = UInt64.ofNat (cpuSubmitted r.2) ∧
    cpuHanded r.2 + r.1.carried = r.1.attempts_ := by
  intro r
  -- the two invariants of the loop: what is counted and what each batch submitted
  obtain ⟨hcounted, hmined⟩ :=
    @cpuRun_spec o ho config events hevents (CpuMiningWorker.new config)
  have hnew : (CpuMiningWorker.new config).carried = 0 := by
    show ((List.replicate config.workerCount ({} : CpuThread)).map (·.attempts_since_match)).sum =
      0
    rw [List.map_replicate, List.sum_replicate]
    exact smul_zero _
  have hattempts : r.1.attempts_ = cpuMade r.2 := hcounted.attempts.trans (UInt64.zero_add _)
  refine ⟨?_, ?_, ?_, ?_⟩
  · intro b hb
    have h := hmined b hb
    refine ⟨h.low, h.ceiling, ?_, h.verifies⟩
    have hpairs :=
      congrArg (List.map fun t : Bytes × Bytes × Bytes × UInt32 => (t.2.1, t.2.2.1)) h.submitted
    rw [List.map_map, List.map_map] at hpairs
    exact hpairs
  · rw [hattempts]
    unfold cpuMade
    exact congrArg List.sum (List.map_congr_left fun b hb => (hmined b hb).attempts)
  · exact hcounted.found.trans (UInt64.zero_add _)
  · rw [hcounted.carried, hnew, UInt64.zero_add, hattempts]

/-! ## A worker with one key -/

/-- A library that never fails. -/
def sampleLib : Libargon2 where
  argon2_encodedlen _ _ _ _ _ := 150
  argon2id_hash_encoded _ _ m_cost _ pwd salt _ _ := some (phcOf m_cost salt pwd ++ [0])

def sampleCpuLook : CpuLook where
  running := true
  globalDifficulty := 8
  call := ⟨(sampleLook []).context, (sampleLook []).identity, 30⟩
  around := CudaHashBackend.quiet
  lib := sampleLib

def sampleCpuRequest : HashApiRequest :=
  cpuRequest {} 0 8 (sampleCpuLook.call.workOf (List.replicate 40 (ch '0'), CudaHashBackend.zeros))

/-- Whatever becomes of the thread, the batch is one of the run. -/
theorem mine_batch {o : Options} {config : CpuConfig} {worker_index : Nat} {look : CpuLook}
    {difficulty : UInt32} {thread : CpuThread} {w : CpuMiningWorker} {mined : Bytes × Bytes}
    (hmined : (cpuMineWork o look.call w.cpuWorkSequence).1 = some mined)
    (hok : (CpuHashBackend.runBatch look.lib look.around
      (cpuRequest config worker_index difficulty (look.call.workOf mined))).ok = true) :
    (w.mine o config worker_index look difficulty thread).2.map
      (fun b => (b.request, b.look.around)) =
      some (cpuRequest config worker_index difficulty (look.call.workOf mined), look.around) := by
  unfold CpuMiningWorker.mine
  dsimp only
  rw [hmined]
  dsimp only
  rw [if_neg (by rw [hok]; decide)]
  split
  next => rfl
  next => rfl

/-- A turn of a thread that is not asked to stop mines one batch. -/
theorem step_mine {o : Options} {config : CpuConfig} {w : CpuMiningWorker} {worker_index : Nat}
    {thread : CpuThread} {look : CpuLook} (hthread : w.threads_[worker_index]? = some thread)
    (hended : thread.ended = false) (hstop : (w.stop_requested_ || !look.running) = false)
    (hlow : ¬ cpuDifficulty o look.globalDifficulty < kMinCpuDifficulty)
    (hceiling : ¬ (config.max_difficulty > 0 ∧
      cpuDifficulty o look.globalDifficulty > config.max_difficulty)) :
    w.step o config (.turn worker_index look) =
      w.mine o config worker_index look (cpuDifficulty o look.globalDifficulty) thread := by
  unfold CpuMiningWorker.step
  dsimp only
  rw [hthread]
  dsimp only
  rw [if_neg (by rw [hended]; exact Bool.false_ne_true)]
  unfold CpuMiningWorker.turn
  rw [if_neg (by rw [hstop]; exact Bool.false_ne_true)]
  dsimp only
  rw [if_neg hlow, if_neg hceiling]

/-- A run of one event is one step. -/
theorem run_one (o : Options) (config : CpuConfig) (w : CpuMiningWorker) (event : CpuEvent) :
    (w.run o config [event]).2 = (w.step o config event).2.toList := by
  unfold CpuMiningWorker.run CpuMiningWorker.run
  exact List.append_nil _

/-- A worker with one key and its hash, to which the result on whole runs is applied. -/
theorem cpu_submissions_exact_sample :
    ∃ b, ((CpuMiningWorker.new {}).run sampleOptions {} [.turn 0 sampleCpuLook]).2 = [b] ∧
      b.calls.map (fun c => (c.key, c.hashed_pure)) = [(CudaHashBackend.zeros,
        lit
          "32FpKdx7lFZBNjvnSTlGM4STb2iCgnsNEJ++WJcqq6eubdL2RSYLf0gCTsOBHUfk7rnn0HaGpo+GcpVsf9Phhg")]
            ∧
      ∀ c ∈ b.calls, c.Verifies b.request := by
  have hbatch : (((CpuMiningWorker.new {}).run sampleOptions {} [.turn 0 sampleCpuLook]).2.map
      fun b => (b.request, b.look.around)) = [(sampleCpuRequest, CudaHashBackend.quiet)] := by
    have hdifficulty : cpuDifficulty sampleOptions sampleCpuLook.globalDifficulty = 8 := by decide
    have hstep :=
      @step_mine sampleOptions {} (CpuMiningWorker.new {}) 0 {} sampleCpuLook rfl rfl rfl
      (by rw [hdifficulty]; decide) (fun h => absurd h.1 (by decide))
    rw [hdifficulty] at hstep
    have hmine := @mine_batch sampleOptions {} 0 sampleCpuLook 8 {} (CpuMiningWorker.new {})
      (List.replicate 40 (ch '0'), CudaHashBackend.zeros) (by decide) (by decide)
    rw [run_one, hstep, ← Option.toList_map, hmine]
    rfl
  obtain ⟨b, hb, hrequest⟩ := List.map_eq_singleton_iff.mp hbatch
  obtain ⟨hrequest, haround⟩ := Prod.mk.inj hrequest
  -- forty zeros and forty `a` are salts
  have hhex : ∀ c ∈ [ch '0', ch 'a'], HexSalt (List.replicate 40 c) := by
    intro c hc
    simp only [List.mem_cons, List.not_mem_nil, or_false] at hc
    rcases hc with rfl | rfl
    · exact ⟨rfl, by decide⟩
    · exact ⟨rfl, by decide⟩
  obtain ⟨hexact, -⟩ := cpu_submissions_exact sampleOptions
    ⟨by decide, ⟨_, rfl, hhex (ch 'a') (by decide)⟩, .inl rfl⟩ {} [.turn 0 sampleCpuLook]
      (by
      intro event hevent
      rw [List.mem_singleton.mp hevent]
      refine ⟨⟨_, rfl, hhex (ch '0') (by decide)⟩, fun h => (nomatch h), by decide, ?_⟩
      intro call m_cost pwd salt encodedlen buffer h
      exact ⟨[], (Option.some.inj h).symm⟩)
  obtain ⟨-, -, hcalls, hverifies⟩ := hexact b (by rw [hb]; exact List.mem_singleton_self b)
  refine ⟨b, hb, ?_, hverifies⟩
  rw [hcalls, hrequest, haround]
  unfold HashApiRequest.found
  rw [show sampleCpuRequest.keys CudaHashBackend.quiet = [CudaHashBackend.zeros] from
    keys_sample CudaHashBackend.quiet, List.zipIdx_singleton, List.flatMap_singleton]
  dsimp only
  rw [show sampleCpuRequest.hashOf CudaHashBackend.zeros = _ from hashOf_sample]
  decide

end TreeMiner.Gpu

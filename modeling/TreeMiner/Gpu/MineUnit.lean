import Mathlib.Data.UInt
import TreeMiner.Gpu.PhcAssembler
import TreeMiner.Lib.Meter

/-!
# Attempt counts (`MineUnit::submitMatches`, `CpuMiningWorker::runWorker`)

Both loops cut a batch at its matches, hand the attempts since the last submitted match to the
callback and carry the rest over to the next batch. What they do with the counts is what a
meter does with the ticks of the batches (`mineLoop_meter`, `workerLoop_meter`), modulo 2^64.

The hashrate that a callback is given, which is measured, is left out, and of the CPU loop
the rounds that run no batch.
-/

namespace TreeMiner.Gpu

open Cxx Meter

/-- A call of the submit callback. -/
structure SubmitCall where
  hexsalt : Bytes
  key : Bytes
  hashed_pure : Bytes
  memory_cost : UInt32
  attempts : UInt64
  source : Bytes
  deriving DecidableEq

/-- The attempts up to a match and the index behind it, in both loops. -/
def advance (attempts next_attempt_index attempt_index : UInt64) : UInt64 × UInt64 :=
  if attempt_index ≥ next_attempt_index then
    (attempts + (attempt_index - next_attempt_index + 1), attempt_index + 1)
  else (attempts, next_attempt_index)

/-- The attempts behind the last match, in both loops. -/
def finish (attempts next_attempt_index batch_attempts : UInt64) : UInt64 :=
  if batch_attempts ≥ next_attempt_index then attempts + (batch_attempts - next_attempt_index)
  else attempts

/-! ## `MineUnit.cpp` -/

/-- The loop of `submitMatches`: what is submitted, and `attempts` and `nextAttemptIndex`. -/
def submitMatchesLoop (difficulty : UInt64) (salt : Bytes) : UInt64 → UInt64 →
    List HashApiMatch → List SubmitCall × UInt64 × UInt64
  | attempts, nextAttemptIndex, [] => ([], attempts, nextAttemptIndex)
  | attempts, nextAttemptIndex, m :: ms =>
    let (attempts, nextAttemptIndex) :=
      advance attempts nextAttemptIndex (UInt64.ofNat m.attempt_index)
    let r := submitMatchesLoop difficulty salt 0 nextAttemptIndex ms
    (⟨salt, m.key, m.hash, difficulty.toUInt32, attempts, lit "GPU"⟩ :: r.1, r.2)

/-- `MineUnit::submitMatches`, with the member `attempts` before and after. -/
def submitMatches (difficulty attempts : UInt64) (salt : Bytes) (result : HashApiResult) :
    List SubmitCall × UInt64 :=
  let r := submitMatchesLoop difficulty salt attempts 0 result.matches
  (r.1, finish r.2.1 r.2.2 result.attempts)

/-- `runMineLoop` from batch to batch; a failed one ends it. -/
def mineLoop (difficulty : UInt64) : UInt64 → List (Bytes × HashApiResult) →
    List SubmitCall × UInt64
  | attempts, [] => ([], attempts)
  | attempts, (salt, result) :: batches =>
    if !result.ok then ([], attempts)
    else
      let r := submitMatches difficulty attempts salt result
      let rest := mineLoop difficulty r.2 batches
      (r.1 ++ rest.1, rest.2)

/-! ## `CpuMiningWorker.cpp` -/

/-- `CpuMiningWorker::Work`. -/
structure Work where
  salt_hex : Bytes
  key_prefix : Bytes := []
  target_pattern : Bytes := lit "XEN11"
  allow_xuni : Bool := true

def digestMatches (work : Work) (m : HashApiMatch) (digest : Bytes) : Bool :=
  if m.matched_pattern = work.target_pattern then contains work.target_pattern digest
  else if m.matched_pattern = lit "XUNI" then work.allow_xuni && hasXuniMatch digest
  else false

/-- The loop over the matches of a batch: what is submitted, and `attempts_since_match` and
`next_attempt_index`; `none` where `digestFromProtocolPhc` throws. -/
def workerMatches (difficulty : UInt32) (work : Work) : UInt64 → UInt64 → List HashApiMatch →
    List SubmitCall × Option (UInt64 × UInt64)
  | attempts_since_match, next_attempt_index, [] =>
    ([], some (attempts_since_match, next_attempt_index))
  | attempts_since_match, next_attempt_index, m :: ms =>
    let (attempts_since_match, next_attempt_index) :=
      advance attempts_since_match next_attempt_index (UInt64.ofNat m.attempt_index)
    match digestFromProtocolPhc m.hash difficulty with
    | none => ([], none)
    | some digest =>
      if !digestMatches work m digest then
        workerMatches difficulty work attempts_since_match next_attempt_index ms
      else
        let r := workerMatches difficulty work 0 next_attempt_index ms
        (⟨work.salt_hex, m.key, digest, difficulty, attempts_since_match, lit "CPU"⟩ :: r.1,
          r.2)

/-- A batch of the CPU worker: what it was asked with, and what came back. -/
structure WorkerBatch where
  difficulty : UInt32
  work : Work
  result : HashApiResult

/-- `runWorker` from batch to batch; `none` when an exception ended it. -/
def workerLoop : UInt64 → List WorkerBatch → List SubmitCall × Option UInt64
  | attempts_since_match, [] => ([], some attempts_since_match)
  | attempts_since_match, b :: batches =>
    if !b.result.ok then ([], none)
    else
      let r := workerMatches b.difficulty b.work attempts_since_match 0 b.result.matches
      match r.2 with
      | none => (r.1, none)
      | some (attempts_since_match, next_attempt_index) =>
        let rest :=
          workerLoop (finish attempts_since_match next_attempt_index b.result.attempts) batches
        (r.1 ++ rest.1, rest.2)

/-! ## The ticks of a batch -/

/-- From `next` on: the attempts up to each match, a flush for a match that is submitted, and
the attempts behind the last. -/
def ticks (submitted : HashApiMatch → Bool) (attempts : Nat) :
    Nat → List HashApiMatch → List Tick
  | next, [] => [.count (attempts - next)]
  | next, m :: ms =>
    .count (m.attempt_index + 1 - next) :: ((if submitted m then [.flush] else []) ++
      ticks submitted attempts (max next (m.attempt_index + 1)) ms)

/-- The matches lie in the batch. -/
def Inside (result : HashApiResult) : Prop :=
  ∀ m ∈ result.matches, m.attempt_index < result.attempts.toNat

instance (result : HashApiResult) : Decidable (Inside result) :=
  inferInstanceAs (Decidable (∀ m ∈ result.matches, m.attempt_index < result.attempts.toNat))

section Ticks

variable {submitted : HashApiMatch → Bool} {attempts n : Nat} {ms : List HashApiMatch}

/-- Matches at whatever indexes, in whatever order: the ticks count the batch. -/
theorem ticks_total (hn : n ≤ attempts) (hms : ∀ m ∈ ms, m.attempt_index < attempts) :
    total (ticks submitted attempts n ms) = attempts - n := by
  induction ms generalizing n with
  | nil => rfl
  | cons m ms ih =>
    have hm := hms m List.mem_cons_self
    have ih := ih (n := max n (m.attempt_index + 1)) (by omega)
      fun m' hm' => hms m' (List.mem_cons_of_mem m hm')
    have hflush : total (if submitted m then [Tick.flush] else []) = 0 := by
      split
      · rfl
      · rfl
    show m.attempt_index + 1 - n + total ((if submitted m then [Tick.flush] else []) ++ _) = _
    rw [total_append, hflush, ih]
    omega

/-- Below 2^64 the comparison of the words is that of the numbers. -/
theorem ofNat_le_ofNat {n i : Nat} (hn : n < 18446744073709551616)
    (hi : i < 18446744073709551616) : UInt64.ofNat n ≤ UInt64.ofNat i ↔ n ≤ i := by
  rw [UInt64.le_iff_toNat_le, UInt64.toNat_ofNat_of_lt' hn, UInt64.toNat_ofNat_of_lt' hi]

/-- The guarded difference does not wrap around. -/
theorem advance_eq (a : UInt64) {n i : Nat} (hn : n < 18446744073709551616)
    (hi : i < 18446744073709551616) :
    advance a (UInt64.ofNat n) (UInt64.ofNat i) =
      (a + UInt64.ofNat (i + 1 - n), UInt64.ofNat (max n (i + 1))) := by
  unfold advance
  by_cases h : n ≤ i
  · have hdiff : i + 1 - n = i - n + 1 := by omega
    have hmax : max n (i + 1) = i + 1 := by omega
    rw [if_pos ((ofNat_le_ofNat hn hi).mpr h), hdiff, hmax, UInt64.ofNat_add, UInt64.ofNat_sub h,
      UInt64.ofNat_add]
    rfl
  · have hdiff : i + 1 - n = 0 := by omega
    have hmax : max n (i + 1) = n := by omega
    rw [if_neg fun hle => h ((ofNat_le_ofNat hn hi).mp hle), hdiff, hmax]
    show _ = (a + 0, _)
    rw [UInt64.add_zero]

/-- What is left of a batch after its last match is added at the end. -/
theorem finish_eq (a : UInt64) {n : Nat} {t : UInt64} (hn : n ≤ t.toNat) :
    finish a (UInt64.ofNat n) t = a + UInt64.ofNat (t.toNat - n) := by
  have ht := UInt64.toNat_lt t
  have hlt : n < 18446744073709551616 := by omega
  have hle : UInt64.ofNat n ≤ t := by
    rw [UInt64.le_iff_toNat_le, UInt64.toNat_ofNat_of_lt' hlt]
    exact hn
  unfold finish
  rw [if_pos hle, UInt64.ofNat_sub hn, UInt64.ofNat_toNat]

end Ticks

/-! ## The loops are meters -/

section Loops

variable {difficulty : UInt64} {salt : Bytes} {result : HashApiResult} {t : UInt64}

/-- The loop over the matches of a batch is a run of the meter over its ticks. -/
theorem submitMatchesLoop_meter {ms : List HashApiMatch} (a : UInt64) {n : Nat}
    (hn : n ≤ t.toNat) (hms : ∀ m ∈ ms, m.attempt_index < t.toNat) :
    run UInt64.ofNat a (ticks (fun _ => true) t.toNat n ms) =
      let r := submitMatchesLoop difficulty salt a (UInt64.ofNat n) ms
      (r.1.map (·.attempts), finish r.2.1 r.2.2 t) := by
  have ht := UInt64.toNat_lt t
  induction ms generalizing a n with
  | nil =>
    show ([], a + UInt64.ofNat (t.toNat - n)) = ([], finish a (UInt64.ofNat n) t)
    rw [finish_eq a hn]
  | cons m ms ih =>
    have hm := hms m List.mem_cons_self
    have ih := ih 0 (n := max n (m.attempt_index + 1)) (by omega)
      fun m' hm' => hms m' (List.mem_cons_of_mem m hm')
    unfold submitMatchesLoop
    rw [advance_eq a (by omega) (by omega)]
    show ((a + UInt64.ofNat (m.attempt_index + 1 - n)) ::
        (run UInt64.ofNat 0 (ticks (fun _ => true) t.toNat (max n (m.attempt_index + 1)) ms)).1,
      (run UInt64.ofNat 0 (ticks (fun _ => true) t.toNat (max n (m.attempt_index + 1)) ms)).2) = _
    rw [ih]
    rfl

/-- The attempts of a batch, cut at every match. -/
def gpuTicks (batches : List (Bytes × HashApiResult)) : List Tick :=
  batches.flatMap fun b => ticks (fun _ => true) b.2.attempts.toNat 0 b.2.matches

/-- So is the loop over the batches of the GPU unit. -/
theorem mineLoop_meter (a : UInt64) {batches : List (Bytes × HashApiResult)}
    (hb : ∀ b ∈ batches, b.2.ok = true ∧ Inside b.2) :
    run UInt64.ofNat a (gpuTicks batches) =
      ((mineLoop difficulty a batches).1.map (·.attempts), (mineLoop difficulty a batches).2) := by
  induction batches generalizing a with
  | nil => rfl
  | cons b batches ih =>
    obtain ⟨salt, result⟩ := b
    obtain ⟨hok, hin⟩ := hb _ List.mem_cons_self
    have hrest := fun b hmem => hb b (List.mem_cons_of_mem _ hmem)
    -- what the batch hands out and what it leaves
    have hbatch : run UInt64.ofNat a
      (ticks (fun _ => true) result.attempts.toNat 0 result.matches) =
        ((submitMatches difficulty a salt result).1.map (·.attempts),
          (submitMatches difficulty a salt result).2) :=
      submitMatchesLoop_meter a (Nat.zero_le _) hin
    have ih := ih (submitMatches difficulty a salt result).2 hrest
    have hcons : mineLoop difficulty a ((salt, result) :: batches) =
        ((submitMatches difficulty a salt result).1 ++
          (mineLoop difficulty (submitMatches difficulty a salt result).2 batches).1,
          (mineLoop difficulty (submitMatches difficulty a salt result).2 batches).2) :=
      if_neg (by rw [hok]; decide)
    have hticks : gpuTicks ((salt, result) :: batches) =
        ticks (fun _ => true) result.attempts.toNat 0 result.matches ++ gpuTicks batches :=
      List.flatMap_cons
    rw [hticks, hcons, run_append, hbatch, ih, List.map_append]

/-- What the CPU loop submits a match for. -/
def Submitted (difficulty : UInt32) (work : Work) (m : HashApiMatch) : Bool :=
  (digestFromProtocolPhc m.hash difficulty).any (digestMatches work m)

/-- The CPU worker's loop over its matches, which counts in the same way. -/
theorem workerMatches_meter {difficulty : UInt32} {work : Work} {ms : List HashApiMatch}
    (a : UInt64) {n : Nat} (hn : n ≤ t.toNat) (hms : ∀ m ∈ ms, m.attempt_index < t.toNat)
    (hphc : ∀ m ∈ ms, (digestFromProtocolPhc m.hash difficulty).isSome) :
    ∃ calls rest next, workerMatches difficulty work a (UInt64.ofNat n) ms =
        (calls, some (rest, next)) ∧
      run UInt64.ofNat a (ticks (Submitted difficulty work) t.toNat n ms) =
        (calls.map (·.attempts), finish rest next t) := by
  have ht := UInt64.toNat_lt t
  induction ms generalizing a n with
  | nil =>
    refine ⟨[], a, UInt64.ofNat n, rfl, ?_⟩
    rw [finish_eq a hn]
    rfl
  | cons m ms ih =>
    have hm := hms m List.mem_cons_self
    have hnext : max n (m.attempt_index + 1) ≤ t.toNat := by omega
    have hms' := fun m' hm' => hms m' (List.mem_cons_of_mem m hm')
    have hphc' := fun m' hm' => hphc m' (List.mem_cons_of_mem m hm')
    obtain ⟨digest, hdigest⟩ := Option.isSome_iff_exists.mp (hphc m List.mem_cons_self)
    -- what is submitted is decided by the digest, which can be read from every match
    have hsub : Submitted difficulty work m = digestMatches work m digest := by
      unfold Submitted
      rw [hdigest]
      rfl
    unfold workerMatches ticks
    rw [advance_eq a (by omega) (by omega), hsub]
    dsimp only
    rw [hdigest]
    dsimp only
    by_cases hmatch : digestMatches work m digest = true
    · -- the count is handed out and starts from zero
      obtain ⟨calls, rest, next, hrun, hmeter⟩ := ih 0 hnext hms' hphc'
      rw [hmatch, hrun]
      refine ⟨_, rest, next, rfl, ?_⟩
      show ((a + UInt64.ofNat (m.attempt_index + 1 - n)) ::
          (run UInt64.ofNat 0 (ticks (Submitted difficulty work) t.toNat _ ms)).1,
        (run UInt64.ofNat 0 (ticks (Submitted difficulty work) t.toNat _ ms)).2) = _
      rw [hmeter]
      rfl
    · obtain ⟨calls, rest, next, hrun, hmeter⟩ :=
        ih (a + UInt64.ofNat (m.attempt_index + 1 - n)) hnext hms' hphc'
      rw [Bool.not_eq_true] at hmatch
      rw [hmatch]
      exact ⟨calls, rest, next, hrun, hmeter⟩

/-- The attempts of a batch, cut at the matches that are submitted. -/
def cpuTicks (batches : List WorkerBatch) : List Tick :=
  batches.flatMap fun b =>
    ticks (Submitted b.difficulty b.work) b.result.attempts.toNat 0 b.result.matches

/-- Every hash that the batch reports is a protocol PHC. -/
def Readable (b : WorkerBatch) : Prop :=
  ∀ m ∈ b.result.matches, (digestFromProtocolPhc m.hash b.difficulty).isSome

instance (b : WorkerBatch) : Decidable (Readable b) :=
  inferInstanceAs
    (Decidable (∀ m ∈ b.result.matches, (digestFromProtocolPhc m.hash b.difficulty).isSome))

/-- And its loop over the batches. -/
theorem workerLoop_meter (a : UInt64) {batches : List WorkerBatch}
    (hb : ∀ b ∈ batches, b.result.ok = true ∧ Inside b.result ∧ Readable b) :
    ∃ calls rest, workerLoop a batches = (calls, some rest) ∧
      run UInt64.ofNat a (cpuTicks batches) = (calls.map (·.attempts), rest) := by
  induction batches generalizing a with
  | nil => exact ⟨[], a, rfl, rfl⟩
  | cons b batches ih =>
    obtain ⟨hok, hin, hphc⟩ := hb _ List.mem_cons_self
    obtain ⟨calls, count, next, hmatches, hbatch⟩ :=
      workerMatches_meter a (Nat.zero_le _) hin hphc
    obtain ⟨calls', rest, hloop, hmeter⟩ := ih (finish count next b.result.attempts)
      fun b hmem => hb b (List.mem_cons_of_mem _ hmem)
    have hcons : workerLoop a (b :: batches) = (calls ++ calls', some rest) := by
      change workerMatches b.difficulty b.work a 0 b.result.matches = _ at hmatches
      unfold workerLoop
      rw [if_neg (by rw [hok]; decide), hmatches]
      dsimp only
      rw [hloop]
    have hticks : cpuTicks (b :: batches) =
        ticks (Submitted b.difficulty b.work) b.result.attempts.toNat 0 b.result.matches ++
          cpuTicks batches :=
      List.flatMap_cons
    refine ⟨_, rest, hcons, ?_⟩
    rw [hticks, run_append, hbatch, hmeter, List.map_append]

end Loops

/-! ## Conservation -/

/-- The attempts of the batches. -/
def attemptsOf (results : List HashApiResult) : Nat := (results.map (·.attempts.toNat)).sum

/-- The ticks of all batches add up to their attempts. -/
theorem total_flatMap {β : Type} {f : β → List Tick} {g : β → HashApiResult} {bs : List β}
    (h : ∀ b ∈ bs, total (f b) = (g b).attempts.toNat) :
    total (bs.flatMap f) = attemptsOf (bs.map g) := by
  induction bs with
  | nil => rfl
  | cons b bs ih =>
    rw [List.flatMap_cons, total_append, h b List.mem_cons_self,
      ih fun b hb => h b (List.mem_cons_of_mem _ hb)]
    rfl

/-- The ticks of the GPU's batches are the attempts that they report. -/
theorem gpuTicks_total {batches : List (Bytes × HashApiResult)}
    (hb : ∀ b ∈ batches, Inside b.2) :
    total (gpuTicks batches) = attemptsOf (batches.map (·.2)) :=
  total_flatMap fun b hmem => ticks_total (Nat.zero_le _) (hb b hmem)

/-- And so are those of the CPU's batches. -/
theorem cpuTicks_total {batches : List WorkerBatch} (hb : ∀ b ∈ batches, Inside b.result) :
    total (cpuTicks batches) = attemptsOf (batches.map (·.result)) :=
  total_flatMap fun b hmem => ticks_total (Nat.zero_le _) (hb b hmem)

/-- What the callback was passed and what is carried at the end: the exact counts modulo 2^64,
where the exact counts add up to the attempts of the batches. -/
structure Conserved (ticks : List Tick) (passed : List UInt64) (rest : UInt64)
    (results : List HashApiResult) : Prop where
  /-- Each value is the exact count since the one before, modulo 2^64. -/
  passed_eq : passed = (run id 0 ticks).1.map UInt64.ofNat
  rest_eq : rest = UInt64.ofNat (run id 0 ticks).2
  /-- The exact counts. -/
  exact_sum : (run id 0 ticks).1.sum + (run id 0 ticks).2 = attemptsOf results
  /-- In the arithmetic of `std::size_t`. -/
  wrapped : passed.sum + rest = UInt64.ofNat (attemptsOf results)
  /-- As numbers, where no exact count reaches 2^64. -/
  sum_eq : (∀ n ∈ (run id 0 ticks).2 :: (run id 0 ticks).1, n < 18446744073709551616) →
    (passed.map UInt64.toNat).sum + rest.toNat = attemptsOf results

theorem sum_ofNat (ns : List Nat) : (ns.map UInt64.ofNat).sum = UInt64.ofNat ns.sum := by
  induction ns with
  | nil => rfl
  | cons n ns ih =>
    rw [List.map_cons, List.sum_cons, List.sum_cons, ih, UInt64.ofNat_add]

/-- A run of the meter whose ticks are the attempts conserves these. -/
theorem conserved_of_run {ticks : List Tick} {passed : List UInt64} {rest : UInt64}
    {results : List HashApiResult} (hrun : run UInt64.ofNat 0 ticks = (passed, rest))
    (htotal : total ticks = attemptsOf results) : Conserved ticks passed rest results := by
  have hmap : run UInt64.ofNat (UInt64.ofNat 0) ticks =
      ((run id 0 ticks).1.map UInt64.ofNat, UInt64.ofNat (run id 0 ticks).2) :=
    run_map rfl (fun a b => UInt64.ofNat_add a b) 0
  have himage : (passed, rest) =
      ((run id 0 ticks).1.map UInt64.ofNat, UInt64.ofNat (run id 0 ticks).2) :=
    hrun.symm.trans hmap
  obtain ⟨hpassed, hrest⟩ := Prod.mk.inj himage
  have hsum : (run id 0 ticks).1.sum + (run id 0 ticks).2 = attemptsOf results := by
    rw [run_sum, Nat.zero_add, htotal]
  refine ⟨hpassed, hrest, hsum, ?_, ?_⟩
  · rw [hpassed, hrest, sum_ofNat, ← UInt64.ofNat_add, hsum]
  · intro hlt
    have hback : ((run id 0 ticks).1.map UInt64.ofNat).map UInt64.toNat = (run id 0 ticks).1 := by
      rw [List.map_map]
      refine (List.map_congr_left fun n hn => ?_).trans (List.map_id _)
      exact UInt64.toNat_ofNat_of_lt' (hlt n (List.mem_cons_of_mem _ hn))
    rw [hpassed, hrest, hback, UInt64.toNat_ofNat_of_lt' (hlt _ List.mem_cons_self), hsum]

/-- In both loops the values passed on and the remainder carried at the end are the counts
of the attempts of the batches, cut at the submitted matches. -/
theorem attempts_conserved :
    (∀ (difficulty : UInt64) (batches : List (Bytes × HashApiResult)),
      (∀ b ∈ batches, b.2.ok = true ∧ Inside b.2) →
      Conserved (gpuTicks batches) ((mineLoop difficulty 0 batches).1.map (·.attempts))
        (mineLoop difficulty 0 batches).2 (batches.map (·.2))) ∧
    (∀ batches : List WorkerBatch,
      (∀ b ∈ batches, b.result.ok = true ∧ Inside b.result ∧ Readable b) →
      ∃ calls rest, workerLoop 0 batches = (calls, some rest) ∧
        Conserved (cpuTicks batches) (calls.map (·.attempts)) rest (batches.map (·.result))) := by
  constructor
  · intro difficulty batches hb
    exact conserved_of_run (mineLoop_meter 0 hb) (gpuTicks_total fun b hmem => (hb b hmem).2)
  · intro batches hb
    obtain ⟨calls, rest, hloop, hmeter⟩ := workerLoop_meter 0 hb
    exact ⟨calls, rest, hloop,
      conserved_of_run hmeter (cpuTicks_total fun b hmem => (hb b hmem).2.1)⟩

section Samples

def emptyBatch (attempts : UInt64) : HashApiResult := { ok := true, attempts := attempts }

def sampleMatch (attempt_index : Nat) : HashApiMatch where
  key := lit "k"
  hash := lit "$argon2id$v=19$m=8,t=1,p=1$c2FsdA$XEN11"
  matched_pattern := lit "XEN11"
  attempt_index := attempt_index
  is_superblock := false

/-- Two matches at the first index and one at the last. -/
def sampleBatch : HashApiResult :=
  { emptyBatch 5 with «matches» := [sampleMatch 0, sampleMatch 0, sampleMatch 4] }

/-- A batch of 7 without a match, the one of 5 with three, and one of 3 without. -/
def sampleResults : List HashApiResult := [emptyBatch 7, sampleBatch, emptyBatch 3]

/-- 8, 0 and 4 are passed on, and 3 are carried. -/
theorem attempts_conserved_sample :
    Conserved (gpuTicks (sampleResults.map fun r => ([], r))) [8, 0, 4] 3 sampleResults ∧
    Conserved (cpuTicks (sampleResults.map fun r => ⟨8, { salt_hex := [] }, r⟩)) [8, 0, 4] 3
      sampleResults := by
  constructor
  · have h := attempts_conserved.1 8 (sampleResults.map fun r => ([], r)) (by decide)
    have hpassed : (mineLoop 8 0 (sampleResults.map fun r => ([], r))).1.map (·.attempts) =
        [8, 0, 4] := by decide
    have hrest : (mineLoop 8 0 (sampleResults.map fun r => ([], r))).2 = 3 := by decide
    rw [hpassed, hrest] at h
    exact h
  · obtain ⟨calls, rest, hloop, h⟩ := attempts_conserved.2
      (sampleResults.map fun r => ⟨8, { salt_hex := [] }, r⟩) (by decide)
    have hpassed : (workerLoop 0 (sampleResults.map fun r => ⟨8, { salt_hex := [] }, r⟩)).1.map
        (·.attempts) = [8, 0, 4] := by decide
    have hrest : (workerLoop 0 (sampleResults.map fun r => ⟨8, { salt_hex := [] }, r⟩)).2 =
        some 3 := by decide
    rw [hloop] at hpassed hrest
    rw [hpassed, Option.some.inj hrest] at h
    exact h

/-- Half of what a `std::size_t` can count. -/
def hugeBatch : HashApiResult := emptyBatch 9223372036854775808

/-- Two batches of 2^63 attempts leave nothing, in both loops; and a match whose hash is no
protocol PHC ends the CPU worker. -/
theorem attempts_not_conserved :
    ¬ ((((mineLoop 8 0 [([], hugeBatch), ([], hugeBatch)]).1.map (·.attempts.toNat)).sum +
      (mineLoop 8 0 [([], hugeBatch), ([], hugeBatch)]).2.toNat =
        attemptsOf [hugeBatch, hugeBatch])) ∧
    ¬
      (((workerLoop 0 [⟨8, { salt_hex := [] }, hugeBatch⟩,
        ⟨8, { salt_hex := [] }, hugeBatch⟩]).2.map
      (·.toNat) = some (attemptsOf [hugeBatch, hugeBatch]))) ∧
    workerLoop 0 [⟨8, { salt_hex := [] },
      { emptyBatch 1 with «matches» := [{ sampleMatch 0 with hash := [] }] }⟩] =
        ([], none) := by
  decide

end Samples

end TreeMiner.Gpu

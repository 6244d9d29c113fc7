import TreeMiner.Gpu.Histories
import TreeMiner.Gpu.Inputs
import TreeMiner.Gpu.PhcAssembler
import TreeMiner.Lib.Argon2Numbers

/-!
# Keys and their hashes (`CudaHashBackend::runBatch`)

The keys of a batch are in `password_storage_`; their first blocks are in the host buffer of the
runner, or pending on the device, and a flag of the runner says which. The flag and the shape
that is noted outlive a request that was aborted. A match of a result is a key of the request
with its own digest if nothing of this kind has been left behind for it (`Safe`): then the run
takes the first blocks that this request has filled in, for its own memory size.

`Safe` is a condition on the state before the request. Along a history it holds again after
every request that was refused or that succeeded, so the only thing to fear is a request that
was aborted after it had filled in first blocks.
-/

namespace TreeMiner.Gpu

open Argon2 Cxx Faults

/-! ## The runner between requests -/

namespace Runner

/-- What every runner of the backend keeps to. -/
structure Kept (r : Runner) : Prop where
  lanes : r.lanes = 1
  marked : r.toKernelRunner.Marked

/-- No call of a batch takes away what `Kept` asks of the runner. -/
theorem kept_frame : Frame Kept := by
  refine ⟨fun _ _ h => ⟨h.lanes, h.marked⟩, fun _ _ h => ⟨h.lanes, h.marked⟩,
    fun _ _ h => ⟨h.lanes, h.marked⟩, fun _ _ h => ⟨h.lanes, h.marked⟩,
    fun _ _ h => ⟨h.lanes, h.marked⟩, fun r k h _ _ hmarked => ?_⟩
  exact ⟨h.lanes, hmarked h.marked⟩

/-- A runner on which nothing has been prepared. -/
structure Fresh (r : Runner) : Prop where
  kept : r.Kept
  notReady : r.inputs.deviceFirstBlocksReady = false

/-- Setting the runner up makes no first blocks ready. -/
theorem init_fresh (batchSize : UInt64) : (init batchSize).Preserves Fresh := by
  have hcheck : check.Preserves Fresh := check_frame
  have hcreate : ∀ e, (eventCreate e).Preserves Fresh := fun e =>
    hcheck.bind fun _ => Faulty.preserves_modify
      fun _ h => ⟨⟨h.kept.lanes, h.kept.marked⟩, h.notReady⟩
  refine Faulty.Preserves.bind (Faulty.preserves_modify fun r h => ?_) fun _ => ?_
  · exact ⟨⟨h.kept.lanes, h.kept.marked.table, h.kept.marked.none⟩, h.notReady⟩
  refine hcheck.bind fun _ => ?_
  refine Faulty.Preserves.bind (Faulty.preserves_modify fun r h => ?_) fun _ => ?_
  · exact ⟨⟨h.kept.lanes, h.kept.marked⟩, h.notReady⟩
  refine hcheck.bind fun _ => ?_
  refine Faulty.Preserves.bind (Faulty.preserves_modify fun r h => ?_) fun _ => ?_
  · exact ⟨⟨h.kept.lanes, h.kept.marked⟩, h.notReady⟩
  refine Faulty.preserves_call.bind fun fresh => ?_
  refine Faulty.Preserves.bind (Faulty.preserves_modify fun r h => ?_) fun _ => ?_
  · exact ⟨⟨h.kept.lanes, h.kept.marked⟩, h.notReady⟩
  iterate 8 refine (hcreate _).bind fun _ => ?_
  exact hcheck.bind fun _ => Faulty.preserves_modify fun _ h =>
    ⟨⟨h.kept.lanes, h.kept.marked⟩, h.notReady⟩

/-- A runner that is reconfigured has no first blocks ready. -/
theorem reconfigure_fresh (r : Runner) (segmentBlocks : UInt32) (batchSize : UInt64) :
    (r.reconfigure ARGON2_ID ARGON2_VERSION_13 1 1 segmentBlocks batchSize).Fresh :=
  ⟨⟨rfl, ⟨fun _ _ h => absurd rfl h, fun _ => rfl⟩⟩, rfl⟩

end Runner

/-! ## `ensureInitialized` -/

/-- The runner, if there is one, is as every runner of the backend. -/
def CudaBackend.KeepsRunner (b : CudaBackend) : Prop := ∀ r, b.runner_ = some r → r.Kept

/-- `init` leaves a runner for the shape with nothing prepared on it. -/
theorem CudaBackend.init_fresh {b : CudaBackend} (hb : b.KeepsRunner) (batchSize : UInt64)
    (segmentBlocks : UInt32) :
    (init batchSize ARGON2_ID ARGON2_VERSION_13 1 1 segmentBlocks).Ensures True b
      (fun _ b' => ∃ r, b'.runner_ = some r ∧ r.Fresh ∧ r.batchSize = batchSize ∧
        r.segmentBlocks = segmentBlocks) KeepsRunner := by
  refine Faulty.Ensures.bind (Faulty.ensures_get ?_)
  show Faulty.Ensures True (if b.reuses batchSize segmentBlocks = true then _ else _) b _ _
  -- a reused runner is configured anew, and that clears what was prepared on it
  by_cases hreuse : b.reuses batchSize segmentBlocks = true
  · rw [if_pos hreuse]
    refine Faulty.ensures_modify ?_
    obtain ⟨r, hr, -⟩ := (Option.any_eq_true _ _).mp hreuse
    exact ⟨_, congrArg (Option.map _) hr, r.reconfigure_fresh _ _, rfl, rfl⟩
  · rw [if_neg hreuse]
    refine Faulty.Ensures.bind (Faulty.ensures_call (fun _ => ?_) fun _ => hb)
    refine Faulty.Ensures.bind (Faulty.ensures_modify ?_)
    refine onRunner_ensures rfl ?_
    have hnew : (Runner.new ARGON2_ID ARGON2_VERSION_13 1 1 segmentBlocks batchSize).Fresh :=
      ⟨⟨rfl, KernelRunner.marked_new _ _⟩, rfl⟩
    refine (((Runner.init_spec rfl).and Runner.init_for (Runner.new_for _ _ _ _)).and
      (Runner.init_fresh batchSize) hnew).mono ?_ ?_
    · intro _ r hr
      exact ⟨r, rfl, hr.2, hr.1.2.batch, hr.1.2.segment⟩
    · intro r hr r' hr'
      cases hr'
      exact hr.2.kept

/-- The bytes of the jobs and the lengths of a request can be told. -/
structure HashApiRequest.Told (request : HashApiRequest) : Prop where
  fits : neededBytes request.attempts request.params.segmentBlocks < 2 ^ 64
  salt : request.salt.length < 2 ^ 32
  launches : request.gpu_first_blocks = true → request.Launches

namespace CudaHashBackend

variable {s : CudaHashBackend} {request : HashApiRequest} {around : Surroundings} {device : Device}

def Keeps (s : CudaHashBackend) : Prop := s.backend_.KeepsRunner

/-- The shape is the one noted. -/
def noted (batch_size : UInt64) (segment_blocks : UInt32) (s : CudaHashBackend) : Bool :=
  s.initialized_ && s.initialized_batch_size_ = batch_size &&
    s.initialized_segment_blocks_ = segment_blocks

/-- Nothing has been left behind that the request would take for its own: its sizes can be told,
and if its shape is the one noted, the runner in place is for this shape and has no first blocks
pending for a request that makes its own. -/
structure Safe (request : HashApiRequest) (s : CudaHashBackend) : Prop where
  told : request.Told
  inPlace : noted request.attempts request.params.segmentBlocks s = true →
    ∃ r, s.backend_.runner_ = some r ∧ r.batchSize = request.attempts ∧
      r.segmentBlocks = request.params.segmentBlocks ∧
      (request.gpu_first_blocks = false → r.inputs.deviceFirstBlocksReady = false)

/-- After the initialisation the runner has the sizes of the request. -/
theorem ensureInitialized_configured (hs : Keeps s) (hsafe : Safe request s) :
    (ensureInitialized request.params request.attempts).Ensures True s
      (fun _ s' => ∃ r, s'.backend_.runner_ = some r ∧
        r.Configured request.attempts.toNat request.segmentBlocks ∧
        (request.gpu_first_blocks = false → r.inputs.deviceFirstBlocksReady = false))
      fun _ => True := by
  refine Faulty.Ensures.bind (Faulty.ensures_get ?_)
  show Faulty.Ensures True (if noted request.attempts request.params.segmentBlocks s = true then _
    else _) s _ _
  by_cases hnoted : noted request.attempts request.params.segmentBlocks s = true
  · rw [if_pos hnoted]
    obtain ⟨r, hr, hbatch, hsegment, hready⟩ := hsafe.inPlace hnoted
    have hkept : r.Kept := hs r hr
    refine Faulty.ensures_pure ⟨r, hr, ⟨?_, ?_, hkept.lanes, hkept.marked⟩, hready⟩
    · rw [hbatch]
    · rw [hsegment, HashApiRequest.segmentBlocks_eq]
  · rw [if_neg hnoted]
    refine Faulty.Ensures.bind (Faulty.Ensures.zoom ?_)
    refine (CudaBackend.init_fresh hs _ _).mono (fun _ b' hb' => ?_) fun _ _ => trivial
    obtain ⟨r, hr, hfresh, hbatch, hsegment⟩ := hb'
    refine Faulty.ensures_modify ⟨r, hr, ⟨?_, ?_, hfresh.kept.lanes, hfresh.kept.marked⟩,
      fun _ => hfresh.notReady⟩
    · rw [hbatch]
    · rw [hsegment, HashApiRequest.segmentBlocks_eq]

/-- And the invariant of the backend is kept, whether it was made anew or used again. -/
theorem ensureInitialized_keeps (params : Argon2Params) (batch_size : UInt64) :
    (ensureInitialized params batch_size).Preserves Keeps := by
  refine Faulty.preserves_get.bind fun s => ?_
  dsimp only
  split
  · exact Faulty.preserves_pure _
  · have hinit : (CudaBackend.init batch_size ARGON2_ID ARGON2_VERSION_13 1 1
        params.segmentBlocks).Preserves CudaBackend.KeepsRunner := by
      refine Faulty.preserves_of_ensures fun b hb => ?_
      refine (CudaBackend.init_fresh hb _ _).mono (fun _ b' hb' => ?_) fun _ h => h
      obtain ⟨r, hr, hfresh, -⟩ := hb'
      intro r' hr'
      rw [hr] at hr'
      cases hr'
      exact hfresh.kept
    refine (Faulty.Preserves.zoom hinit (fun _ h => h) fun _ _ _ h => h).bind fun _ => ?_
    exact Faulty.preserves_modify fun _ h => h

/-! ## Requests in a row -/

/-- No call of a batch breaks the invariant of the backend. -/
theorem keeps_frame : Frame Keeps where
  backend {α m} hm := by
    have hframe : CudaBackend.Frame CudaBackend.KeepsRunner := by
      refine ⟨fun {α m} hrunner b as hb => ?_, fun _ _ _ hb => hb⟩
      unfold CudaBackend.onRunner
      cases hr : b.runner_ with
      | none => exact hb
      | some r =>
        intro r' hr'
        cases hr'
        exact hrunner _ Runner.kept_frame r as (hb r hr)
    exact Faulty.Preserves.zoom (hm _ hframe) (fun _ h => h) fun _ _ _ h => h
  passwords _ _ hs := hs

/-- Nor does a request, whatever fails in it. -/
theorem runBatch_keeps (device : Device) (around : Surroundings) (request : HashApiRequest) :
    (runBatch device around request).Preserves Keeps := by
  unfold runBatch
  dsimp only
  split
  · exact Faulty.preserves_pure _
  split
  · exact Faulty.preserves_pure _
  · refine Faulty.Preserves.orElse ?_ (Faulty.preserves_pure _)
    refine Faulty.Preserves.bind (keeps_frame.backend fun _ _ =>
      Faulty.preserves_call.bind fun _ => Faulty.preserves_pure _) fun _ => ?_
    refine Faulty.preserves_get.bind fun s => Faulty.Preserves.orElse ?_ (Faulty.preserves_pure _)
    refine (ensureInitialized_keeps _ _).bind fun _ => ?_
    refine (input_frame keeps_frame around request).bind fun _ => ?_
    refine (compute_frame keeps_frame device request).bind fun _ => ?_
    exact Faulty.preserves_get.bind fun _ => Faulty.preserves_pure _

/-- Nor a history of requests. -/
theorem after_keeps (device : Device) (hs : Keeps s) (history : List Served) :
    Keeps (after device s history) := by
  induction history generalizing s with
  | nil => exact hs
  | cons q history ih =>
    rw [after_cons]
    exact ih (runBatch_keeps device q.around q.request s q.answers hs)

/-! ## The compute phase -/

/-- The keys of the request are stored, and the output is that of the keys `fed`. -/
structure Computed (around : Surroundings) (request : HashApiRequest) (fed : List Bytes)
    (s : CudaHashBackend) : Prop where
  stored : s.password_storage_ = request.keys around
  runner : ∃ r, s.backend_.runner_ = some r ∧ r.Output request.attempts.toNat fun job =>
    lastBlock request.segmentBlocks (firstBlocks request.argon2 (fed.getD job []))

/-- What asks the runner and changes nothing of it leaves the backend as it is. -/
theorem onRunner_asks {m : Faulty Ptr Runner Unit} (hm : ∀ I, m.Preserves I)
    (J : CudaBackend → Prop) :
    (CudaBackend.onRunner m).Preserves J := by
  intro b as hb
  unfold CudaBackend.onRunner
  cases hr : b.runner_ with
  | none => exact hb
  | some r =>
    have hsame : (m r as).2.1 = r := hm (· = r) r as rfl
    show J { b with runner_ := some (m r as).2.1 }
    rw [hsame, ← hr]
    exact hb

/-- Asking for a time keeps the backend, since it keeps every runner. -/
theorem lastMs_asks {m : Faulty Ptr Runner Unit} (hm : ∀ I, m.Preserves I)
    (J : CudaBackend → Prop) :
    (CudaBackend.lastMs m).Preserves J := by
  refine Faulty.preserves_get.bind fun b => ?_
  split
  · exact Faulty.preserves_pure _
  · exact onRunner_asks hm J

theorem onBackend_asks {m : Faulty Ptr CudaBackend Unit} (hm : ∀ J, m.Preserves J)
    (K : CudaHashBackend → Prop) : (onBackend m).Preserves K := by
  intro s as hs
  have hsame : (m s.backend_ as).2.1 = s.backend_ := hm (· = s.backend_) s.backend_ as rfl
  show K { s with backend_ := (m s.backend_ as).2.1 }
  rw [hsame]
  exact hs

/-- A setting of the kernel. -/
theorem setting_spec {keys : List Bytes} {b : CudaBackend}
    (hb : ∃ r, b.runner_ = some r ∧ r.FedWith device request keys)
    (f : KernelRunner → KernelRunner) (hsegment : ∀ k, (f k).segmentBlocks = k.segmentBlocks)
    (hbatch : ∀ k, (f k).batchSize = k.batchSize)
    (hmarked : ∀ k : KernelRunner, k.Marked → (f k).Marked) :
    (CudaBackend.onRunner
      (Faulty.modify fun r => { r with toKernelRunner := f r.toKernelRunner })).Ensures
      True b (fun _ b' => ∃ r, b'.runner_ = some r ∧ r.FedWith device request keys)
        fun _ => True := by
  obtain ⟨r, hr, hfed⟩ := hb
  refine CudaBackend.onRunner_ensures hr (Faulty.ensures_modify ⟨_, rfl, ?_⟩)
  exact hfed.kernel (hsegment _) (hbatch _) (hmarked _)

/-- A run on a device that computes leaves in the output the last blocks of the keys it was fed. -/
theorem backendRun_spec (hdevice : device.Computes) {keys : List Bytes} {b : CudaBackend}
    {r : Runner} (hr : b.runner_ = some r) (hfed : r.FedWith device request keys) :
    (CudaBackend.run device).Ensures True b
      (fun _ b' => ∃ r, b'.runner_ = some r ∧ r.Output request.attempts.toNat fun job =>
        lastBlock request.segmentBlocks (firstBlocks request.argon2 (keys.getD job [])))
      fun _ => True := by
  obtain ⟨h2, hlt⟩ := HashApiRequest.segmentBlocks_bounds request
  refine Faulty.Ensures.bind (Faulty.ensures_get ?_)
  rw [if_neg (by rw [hr]; exact Bool.false_ne_true)]
  have hwarps : ∀ k : KernelRunner, _ := fun k => Runner.setWarpsPerBlock_same k b.warpsPerBlock_
  refine Faulty.Ensures.bind ((setting_spec ⟨r, hr, hfed⟩ _ (fun k => (hwarps k).1)
    (fun k => (hwarps k).2) fun k hm => hm.call (.setWarpsPerBlock _)).mono (fun _ b₁ h₁ => ?_)
    fun _ _ => trivial)
  refine Faulty.Ensures.bind
    ((setting_spec h₁ (KernelRunner.setPrecomputedRefs b.precomputedRefs_)
    (fun _ => rfl) (fun _ => rfl) fun k hm => hm.call (.setPrecomputedRefs _)).mono
      (fun _ b₂ h₂ => ?_)
    fun _ _ => trivial)
  obtain ⟨r₂, hr₂, hfed₂⟩ := h₂
  refine CudaBackend.onRunner_ensures hr₂ ?_
  exact (Runner.run_spec hdevice hfed₂ h2 hlt).mono (fun _ r' hout => ⟨r', rfl, hout⟩)
    fun _ _ => trivial

/-- After the run only the times are asked for. -/
theorem asked_preserves {K : CudaHashBackend → Prop} : (do
    onBackend CudaBackend.finish
    onBackend CudaBackend.getLastHostToDeviceMs
    onBackend CudaBackend.getLastGpuFirstBlockMs
    onBackend CudaBackend.getLastDeviceToHostMs : Faulty Ptr CudaHashBackend Unit).Preserves K := by
  refine (onBackend_asks (onRunner_asks fun _ => Runner.finish_frame) _).bind fun _ => ?_
  refine (onBackend_asks (lastMs_asks fun _ => Runner.eventElapsedTime_frame _ _) _).bind
    fun _ => ?_
  refine (onBackend_asks (lastMs_asks fun _ => Runner.getLastGpuFirstBlockMs_frame) _).bind
    fun _ => ?_
  exact onBackend_asks (lastMs_asks fun _ => Runner.eventElapsedTime_frame _ _) _

/-- So does the computation of a batch, timing included. -/
theorem compute_spec (hdevice : device.Computes) {fed : List Bytes}
    (hs : Paired device around request fed s) :
    (compute device request).Ensures True s (fun _ s' => Computed around request fed s')
      fun _ => True := by
  obtain ⟨r, hr, hfed⟩ := hs.runner
  have hrunner : (CudaBackend.setPrecomputedRefs request.precomputed_refs
      (CudaBackend.setWarpsPerBlock (resolveWarpsPerBlock request.warps_per_block)
        s.backend_)).runner_ = some r := by
    unfold CudaBackend.setWarpsPerBlock
    split
    · exact hr
    · split <;> exact hr
  refine Faulty.Ensures.bind (Faulty.Ensures.zoom (Faulty.ensures_modify ?_))
  refine Faulty.Ensures.bind (Faulty.Ensures.zoom (Faulty.ensures_modify ?_))
  refine Faulty.Ensures.bind (Faulty.Ensures.zoom ?_)
  refine (backendRun_spec hdevice hrunner hfed).mono (fun _ b' hb' => ?_) fun _ _ => trivial
  have hcomputed : Computed around request fed { s with backend_ := b' } := ⟨hs.stored, hb'⟩
  exact (asked_preserves.ensures hcomputed).mono (fun _ _ h => h) fun _ _ => trivial

/-! ## The digests -/

/-- The hash is the long hash of the last block. -/
theorem finalize_eq (out : Ptr) :
    request.params.finalize out = longHash 64 (bytesAt out 1024) := by
  have hlanes : request.params.lanes = 1 := rfl
  have hlong : digest host store32 Blake2b.new (64 : UInt64).toBitVec out (1024 : UInt64).toBitVec =
    _ :=
    digest_eq host_right (by decide) store32_eq Blake2b.new (by decide) out (by decide)
  unfold Argon2Params.finalize
  rw [if_pos hlanes]
  exact hlong

/-- The hash of a job in the output memory. -/
def hashAt (request : HashApiRequest) (out : Ptr) (job : Nat) : Bytes :=
  base64EncodeInto (request.params.finalize (out.advance (job * 1024)))

/-- All matches of one hash carry this hash and the key it was computed from. -/
theorem mem_appendMatches {key hash : Bytes} {attempt_index : Nat} :
    ∀ m ∈ appendMatches request key hash attempt_index, m.key = key ∧ m.hash = hash := by
  intro m hm
  unfold appendMatches at hm
  rcases List.mem_append.mp hm with hm | hm
  · split at hm
    · rw [List.mem_singleton.mp hm]
      exact ⟨rfl, rfl⟩
    · cases hm
  · split at hm
    · rw [List.mem_singleton.mp hm]
      exact ⟨rfl, rfl⟩
    · cases hm

/-- The matches of a chunk are those of its jobs. -/
theorem mem_chunkMatches {passwords : List Bytes} {out : Ptr} {first count : Nat}
    {m : HashApiMatch} :
    m ∈ chunkMatches request passwords first (finalizedHashes request.params out first count) ↔
      ∃ offset < count, m ∈ appendMatches request (passwords.getD (first + offset) [])
        (hashAt request out (first + offset)) (first + offset) := by
  unfold chunkMatches
  rw [List.mem_flatMap]
  constructor
  · intro ⟨⟨hash, offset⟩, hzip, hm⟩
    have hget : (finalizedHashes request.params out first count)[offset]? = some hash :=
      List.mem_zipIdx_iff_getElem?.mp hzip
    unfold finalizedHashes at hget
    rw [List.getElem?_map, Option.map_eq_some_iff] at hget
    obtain ⟨k, hk, rfl⟩ := hget
    obtain ⟨hlen, rfl⟩ := List.getElem?_eq_some_iff.mp hk
    rw [List.length_range] at hlen
    rw [List.getElem_range] at hm
    exact ⟨offset, hlen, hm⟩
  · intro ⟨offset, hlt, hm⟩
    refine ⟨(hashAt request out (first + offset), offset), List.mem_zipIdx_iff_getElem?.mpr ?_,
      hm⟩
    show (finalizedHashes request.params out first count)[offset]? = _
    unfold finalizedHashes
    rw [List.getElem?_map, List.getElem?_range hlt]
    rfl

/-- The loop adds the matches of the jobs from `first` on. -/
theorem mem_finalizeFrom (passwords : List Bytes) (out : Ptr) (first : Nat) (result : HashApiResult)
    (m : HashApiMatch) :
    m ∈ (finalizeFrom request passwords out first result).«matches» ↔
      m ∈ result.«matches» ∨
      ∃ job, first ≤ job ∧ job < request.attempts.toNat ∧
        m ∈ appendMatches request (passwords.getD job []) (hashAt request out job) job := by
  fun_induction finalizeFrom request passwords out first result with
  | case1 first result attempts hlt count hashes ih =>
    have hcount : count = min attempts (first + 64) - first := rfl
    refine ih.trans ?_
    show _ ∈ result.«matches» ++ chunkMatches request passwords first hashes ∨ _ ↔ _
    rw [List.mem_append, or_assoc, mem_chunkMatches]
    refine or_congr Iff.rfl ?_
    constructor
    · intro hm
      rcases hm with ⟨offset, hoffset, hm⟩ | ⟨job, hle, hjob, hm⟩
      · exact ⟨first + offset, by omega, by omega, hm⟩
      · exact ⟨job, Nat.le_trans (Nat.le_add_right _ _) hle, hjob, hm⟩
    · intro ⟨job, hle, hjob, hm⟩
      -- a job of this chunk of 64, or one of the chunks that follow
      by_cases hchunk : job < first + 64
      · left
        obtain ⟨offset, rfl⟩ := Nat.exists_eq_add_of_le hle
        exact ⟨offset, by omega, hm⟩
      · exact Or.inr ⟨job, Nat.not_lt.mp hchunk, hjob, hm⟩
  | case2 first result attempts hge =>
    have hnone : ¬ ∃ job, first ≤ job ∧ job < request.attempts.toNat ∧
        m ∈ appendMatches request (passwords.getD job []) (hashAt request out job) job := by
      intro ⟨job, hle, hjob, _⟩
      exact hge (Nat.lt_of_le_of_lt hle hjob)
    rw [or_iff_left hnone]

/-! ## What a result reports -/

/-- The matches of a result are those of the hashes of the keys `fed`, each under the key of the
request at its place. -/
def Reports (around : Surroundings) (request : HashApiRequest) (fed : List Bytes)
    (result : HashApiResult) : Prop :=
  ∀ m, m ∈ result.«matches» ↔ ∃ job < request.attempts.toNat,
    m ∈ appendMatches request ((request.keys around).getD job [])
      (request.hashOf (fed.getD job [])) job

/-- A batch whose input was paired reports matches whose hashes belong to their keys. -/
theorem batch_reports (hdevice : device.Computes) {fed : List Bytes} (result : HashApiResult)
    (hnone : result.«matches» = [])
    (hinput : (ensureInitialized request.params request.attempts).Ensures True s
      (fun _ s' => (input around request).Ensures True s'
        (fun _ s' => Paired device around request fed s') fun _ => True) fun _ => True) :
    (batch device around request result).Ensures True s
      (fun result _ => Reports around request fed result) fun _ => True := by
  refine Faulty.Ensures.bind (hinput.mono (fun _ s₁ h₁ => ?_) fun _ _ => trivial)
  refine Faulty.Ensures.bind (h₁.mono (fun _ s₂ h₂ => ?_) fun _ _ => trivial)
  refine Faulty.Ensures.bind
    ((compute_spec hdevice h₂).mono (fun _ s₃ h₃ => ?_) fun _ _ => trivial)
  refine Faulty.Ensures.bind (Faulty.ensures_get (Faulty.ensures_pure fun m => ?_))
  obtain ⟨r, hr, hout⟩ := h₃.runner
  show m ∈ (finalizeFrom request s₃.password_storage_ _ 0 result).«matches» ↔ _
  rw [mem_finalizeFrom, hnone, h₃.stored, hr, or_iff_right List.not_mem_nil]
  have hhash : ∀ job < request.attempts.toNat,
      hashAt request (Buffer.at r.blocksOut) job = request.hashOf (fed.getD job []) := by
    intro job hjob
    unfold hashAt
    rw [finalize_eq, hout job hjob]
    exact base64Encode_eq _
  constructor
  · intro ⟨job, _, hjob, hm⟩
    refine ⟨job, hjob, ?_⟩
    rw [← hhash job hjob]
    exact hm
  · intro ⟨job, hjob, hm⟩
    refine ⟨job, Nat.zero_le _, hjob, ?_⟩
    rw [← hhash job hjob] at hm
    exact hm

/-- And so does the request. -/
theorem runBatch_reports (hdevice : device.Computes) {fed : List Bytes}
    (hinput : request.Valid → (ensureInitialized request.params request.attempts).Ensures True s
      (fun _ s' => (input around request).Ensures True s'
        (fun _ s' => Paired device around request fed s') fun _ => True) fun _ => True) :
    (runBatch device around request).Ensures True s
      (fun result _ => result.ok = true → Reports around request fed result) fun _ => True := by
  unfold runBatch
  dsimp only
  -- a refused request reports nothing that is ok
  by_cases herrors : (!(validateRequest request).isEmpty) = true
  · rw [if_pos herrors]
    exact Faulty.ensures_pure fun h => nomatch h
  rw [if_neg herrors]
  have hv : request.Valid := by
    refine HashApiRequest.valid_of_validate ?_
    simpa using herrors
  by_cases hbackend : request.backend ≠ lit "cuda"
  · rw [if_pos hbackend]
    exact Faulty.ensures_pure fun h => nomatch h
  rw [if_neg hbackend]
  refine Faulty.Ensures.orElse (Faulty.Ensures.bind (Faulty.Ensures.zoom ?_))
  refine Faulty.Ensures.bind (Faulty.ensures_call (fun _ => Faulty.ensures_pure ?_) fun _ => ?_)
  · refine Faulty.Ensures.bind (Faulty.ensures_get (Faulty.Ensures.orElse ?_))
    refine (batch_reports hdevice _ rfl (hinput hv)).mono (fun _ _ h _ => h) fun _ _ => ?_
    exact Faulty.ensures_pure fun h => nomatch h
  · exact Faulty.ensures_pure fun h => nomatch h

/-- A request that is safe reports the hashes of its own keys. -/
theorem safe_reports (hdevice : device.Computes) (hs : Keeps s) (hsafe : Safe request s) :
    (runBatch device around request).Ensures True s
      (fun result _ => result.ok = true → Reports around request (request.keys around) result)
      fun _ => True := by
  refine runBatch_reports hdevice fun hv => ?_
  refine (ensureInitialized_configured hs hsafe).mono (fun _ s₁ h₁ => ?_) fun _ h => h
  obtain ⟨r, hr, hconfigured, hready⟩ := h₁
  exact input_spec hdevice hv hsafe.told.fits hsafe.told.salt hsafe.told.launches hr hconfigured
    hready

/-- A request for the shape that is noted, with first blocks of the host, reports the hashes of
the keys that are pending on the device. -/
theorem pending_reports (hdevice : device.Computes) (htold : request.Told)
    (hhost : request.gpu_first_blocks = false)
    (hnoted : noted request.attempts request.params.segmentBlocks s = true) {r : Runner}
    (hr : s.backend_.runner_ = some r) {pending : List Bytes}
    (hfed : r.FedWith device request pending) (hready : r.inputs.deviceFirstBlocksReady = true) :
    (runBatch device around request).Ensures True s
      (fun result _ => result.ok = true → Reports around request pending result)
        fun _ => True := by
  refine runBatch_reports hdevice fun hv => ?_
  refine Faulty.Ensures.bind (Faulty.ensures_get ?_)
  show Faulty.Ensures True (if noted request.attempts request.params.segmentBlocks s = true then _
    else _) s _ _
  rw [if_pos hnoted]
  exact Faulty.ensures_pure (input_pending hv htold.fits htold.salt hhost hr hfed hready)

/-- A new backend holds no runner, and the invariant asks nothing of it. -/
theorem new_keeps (deviceIndex : Int) : Keeps (new deviceIndex) := fun _ h => nomatch h

/-- The matches of a request that is safe. -/
theorem safe_matches (hdevice : device.Computes) (hs : Keeps s) (hsafe : Safe request s)
    {answers : Answers Ptr} {result : HashApiResult}
    (hresult : (runBatch device around request s answers).1 = some result)
    (hok : result.ok = true) :
    ∀ m ∈ result.«matches», m.key ∈ request.keys around ∧
      m.hash = request.hashOf m.key := by
  have hreports := (safe_reports hdevice hs hsafe).returned (Faulty.run_of_value hresult) hok
  intro m hm
  obtain ⟨job, hjob, hown⟩ := (hreports m).mp hm
  obtain ⟨hkey, hhash⟩ := mem_appendMatches m hown
  rw [← HashApiRequest.length_keys request around] at hjob
  rw [hhash, hkey, List.getD_eq_getElem _ _ hjob]
  exact ⟨List.getElem_mem hjob, rfl⟩

/-- In every run of requests that are all safe when they come, every match of a result that is ok
is a key of its request with its own digest. -/
theorem matches_paired (device : Device) (hdevice : device.Computes) (deviceIndex : Int)
    (history : List Served)
    (hsafe : ∀ before q rest, history = before ++ q :: rest →
      Safe q.request (after device (new deviceIndex) before)) :
    ∀ before q rest, history = before ++ q :: rest → ∀ result,
      (runBatch device q.around q.request (after device (new deviceIndex) before) q.answers).1 =
        some result → result.ok = true →
      ∀ m ∈ result.«matches», m.key ∈ q.request.keys q.around ∧
        m.hash = q.request.hashOf m.key := by
  intro before q rest hsplit result hresult hok
  exact safe_matches hdevice (after_keeps device (new_keeps deviceIndex) before)
    (hsafe before q rest hsplit) hresult hok

/-- A request for one key, whose hash is searched for a pattern. -/
def oneKey (digit : UInt8) (gpu_first_blocks : Bool) : HashApiRequest where
  backend := lit "cuda"
  salt_hex := lit "0123456789abcdef"
  key := List.replicate 64 digit
  target_pattern := lit "wDu7"
  difficulty := 8
  gpu_first_blocks := gpu_first_blocks

def zeros : Bytes := List.replicate 64 (ch '0')

def ones : Bytes := List.replicate 64 (ch '1')

/-- A request with first blocks of the device and one with first blocks of the host, and no call
fails. -/
theorem matches_paired_two : ∃ result, (runBatch Device.inOrder quiet (oneKey (ch '0') false)
      (after Device.inOrder (new 0) [⟨quiet, oneKey (ch '1') true, []⟩]) []).1 = some result ∧
    result.ok = true ∧
      ∀ m ∈ result.«matches», m.key ∈ (oneKey (ch '0') false).keys quiet ∧
      m.hash = (oneKey (ch '0') false).hashOf m.key := by
  have hvalue : (runBatch Device.inOrder quiet (oneKey (ch '0') false)
      (after Device.inOrder (new 0) [⟨quiet, oneKey (ch '1') true, []⟩]) []).1.map
        HashApiResult.ok =
        some true := by
    decide
  obtain ⟨result, hresult, hok⟩ := Option.map_eq_some_iff.mp hvalue
  -- the first request finds a new backend, the second what the first has left
  have hfirst : Safe (oneKey (ch '1') true) (new 0) :=
    ⟨⟨by decide, by decide, fun _ => ⟨by decide, by decide⟩⟩,
      fun h => nomatch h⟩
  have hsecond : Safe (oneKey (ch '0') false)
      (after Device.inOrder (new 0) [⟨quiet, oneKey (ch '1') true, []⟩]) := by
    refine ⟨⟨by decide, by decide, fun h => nomatch h⟩, fun _ => ?_⟩
    have hplace : (after Device.inOrder (new 0)
      [⟨quiet, oneKey (ch '1') true, []⟩]).backend_.runner_.map
        (fun r => (r.batchSize, r.segmentBlocks, r.inputs.deviceFirstBlocksReady)) =
          some (1, 2, false) := by
      decide
    obtain ⟨r, hr, hfields⟩ := Option.map_eq_some_iff.mp hplace
    obtain ⟨hbatch, hrest⟩ := Prod.mk.inj hfields
    obtain ⟨hsegment, hready⟩ := Prod.mk.inj hrest
    refine ⟨r, hr, hbatch.trans (by decide), hsegment.trans (by decide), fun _ => hready⟩
  refine ⟨result, hresult, hok, matches_paired Device.inOrder inOrder_computes 0
    [⟨quiet, oneKey (ch '1') true, []⟩, ⟨quiet, oneKey (ch '0') false, []⟩] ?_
    [⟨quiet, oneKey (ch '1') true, []⟩] _ [] rfl result hresult hok⟩
  intro before q rest hsplit
  -- no other place in a history of two
  match before, hsplit with
  | [], hsplit =>
    cases hsplit
    exact hfirst
  | [_], hsplit =>
    cases hsplit
    exact hsecond
  | _ :: _ :: before, hsplit =>
    have hlen := congrArg List.length hsplit
    simp at hlen

/-! ## Requests that are not aborted -/

/-- What is noted is what is in place. -/
def InPlace (s : CudaHashBackend) : Prop :=
  s.initialized_ = true → ∃ r, s.backend_.runner_ = some r ∧
    r.batchSize = s.initialized_batch_size_ ∧ r.segmentBlocks = s.initialized_segment_blocks_

/-- No first blocks are pending. -/
def NonePending (s : CudaHashBackend) : Prop :=
  ∀ r, s.backend_.runner_ = some r → r.inputs.deviceFirstBlocksReady = false

/-- Nothing has been left behind for any request. -/
theorem safe_of_clean (hplace : InPlace s) (hnone : NonePending s) (htold : request.Told) :
    Safe request s := by
  refine ⟨htold, fun hnoted => ?_⟩
  unfold noted at hnoted
  simp only [Bool.and_eq_true, decide_eq_true_eq] at hnoted
  obtain ⟨⟨hinit, hbatch⟩, hsegment⟩ := hnoted
  obtain ⟨r, hr, hb, hq⟩ := hplace hinit
  exact ⟨r, hr, hb.trans hbatch, hq.trans hsegment, fun _ => hnone r hr⟩

/-- No call of a batch changes the sizes that are noted or the runner they are noted for. -/
theorem inPlace_frame : Frame InPlace where
  backend {α m} hm := by
    intro s as hs hinit
    obtain ⟨r, hr, hplace⟩ := hs hinit
    -- a backend whose runner has these sizes
    have hframe : CudaBackend.Frame fun b => ∃ r, b.runner_ = some r ∧
        r.batchSize = s.initialized_batch_size_ ∧
          r.segmentBlocks = s.initialized_segment_blocks_ := by
      refine ⟨fun {α m} hrunner b as hb => ?_, fun _ _ _ hb => hb⟩
      obtain ⟨r, hr, hplace⟩ := hb
      unfold CudaBackend.onRunner
      rw [hr]
      refine ⟨_, rfl, hrunner (fun r => r.batchSize = _ ∧ r.segmentBlocks = _) ?_ r as hplace⟩
      refine ⟨fun _ _ h => h, fun _ _ h => h, fun _ _ h => h, fun _ _ h => h, fun _ _ h => h,
        fun r k h hsegment hbatch _ => ?_⟩
      exact ⟨hbatch.trans h.1, hsegment.trans h.2⟩
    exact hm _ hframe s.backend_ as ⟨r, hr, hplace⟩
  passwords _ _ hs := hs

/-- After an initialisation that returns, the sizes noted are those of the runner. -/
theorem ensureInitialized_inPlace (hkeeps : Keeps s) (hs : InPlace s) (params : Argon2Params)
    (batch_size : UInt64) :
    (ensureInitialized params batch_size).Ensures True s (fun _ s' => InPlace s')
      fun _ => True := by
  refine Faulty.Ensures.bind (Faulty.ensures_get ?_)
  dsimp only
  split
  · exact Faulty.ensures_pure hs
  · refine Faulty.Ensures.bind (Faulty.Ensures.zoom ?_)
    refine (CudaBackend.init_fresh hkeeps _ _).mono (fun _ b hb => ?_) fun _ _ => trivial
    obtain ⟨r, hr, -, hbatch, hsegment⟩ := hb
    exact Faulty.ensures_modify fun _ => ⟨r, hr, hbatch, hsegment⟩

/-- A run that returns has used up the mark that the first blocks are ready. -/
theorem runnerRun_notReady (r : Runner) : (Runner.run device).Ensures True r
    (fun _ r' => r'.inputs.deviceFirstBlocksReady = false) fun _ => True := by
  have hany : ∀ {α : Type} (m : Faulty Ptr Runner α) (r : Runner), m.Ensures True r
      (fun _ _ => True) fun _ => True := fun m r =>
    Faulty.Preserves.ensures (I := fun _ => True) (fun _ _ _ => trivial) trivial
  refine Faulty.Ensures.bind ((hany _ _).mono (fun _ r _ => ?_) fun _ h => h)
  refine Faulty.Ensures.bind ((hany _ _).mono (fun _ r _ => ?_) fun _ h => h)
  refine Faulty.Ensures.bind (Faulty.ensures_get (Faulty.Ensures.bind (Faulty.ensures_modify ?_)))
  refine Faulty.Ensures.bind ((hany _ _).mono (fun _ r _ => ?_) fun _ h => h)
  refine Faulty.Ensures.bind (Faulty.ensures_modify ?_)
  -- from here on nothing sets it
  refine (Faulty.Preserves.ensures (I := fun r : Runner => r.inputs.deviceFirstBlocksReady = false)
    ?_ rfl).mono (fun _ _ h => h) fun _ _ => trivial
  refine (Runner.eventRecord_frame _).bind fun _ => ?_
  refine Faulty.Preserves.bind (Faulty.preserves_of_ensures fun r hr => ?_) fun _ => ?_
  · have hfit : ∀ {r'}, Runner.Refit r r' → r'.inputs.deviceFirstBlocksReady = false := by
      intro r' h
      rw [h.same]
      exact hr
    exact Runner.ensurePrecomputedRefs_spec.mono (fun _ _ h => hfit h.1) fun _ h => hfit h
  refine Faulty.Preserves.bind (Faulty.preserves_modify fun _ h => h) fun _ => ?_
  refine Runner.check_frame.bind fun _ => (Runner.eventRecord_frame _).bind fun _ => ?_
  refine Faulty.Preserves.bind (Faulty.preserves_get.bind fun r => ?_)
    fun _ => Runner.eventRecord_frame _
  dsimp only
  split
  · exact Faulty.preserves_throw
  · exact Runner.check_frame.bind fun _ => Faulty.preserves_modify fun _ h => h

/-- A run, if there is a runner, leaves no first blocks pending. -/
theorem compute_nonePending (s : CudaHashBackend) : (compute device request).Ensures True s
    (fun _ s' => NonePending s') fun _ => True := by
  refine Faulty.Ensures.bind (Faulty.Ensures.zoom (Faulty.ensures_modify ?_))
  refine Faulty.Ensures.bind (Faulty.Ensures.zoom (Faulty.ensures_modify ?_))
  refine Faulty.Ensures.bind (Faulty.Ensures.zoom ?_)
  -- without a runner nothing is pending, and a run that returns has used its first blocks
  have hrun : ∀ b : CudaBackend, (CudaBackend.run device).Ensures True b
      (fun _ b' => ∀ r, b'.runner_ = some r → r.inputs.deviceFirstBlocksReady = false)
      fun _ => True := by
    intro b
    refine Faulty.Ensures.bind (Faulty.ensures_get ?_)
    cases hr : b.runner_ with
    | none =>
      refine Faulty.ensures_pure fun r h => ?_
      rw [hr] at h
      cases h
    | some r =>
      refine Faulty.Ensures.bind (CudaBackend.onRunner_ensures hr (Faulty.ensures_modify ?_))
      refine Faulty.Ensures.bind (CudaBackend.onRunner_ensures rfl (Faulty.ensures_modify ?_))
      refine CudaBackend.onRunner_ensures rfl
        ((runnerRun_notReady _).mono (fun _ r' h r'' hr'' => ?_)
        fun _ h => h)
      rw [← Option.some.inj hr'']
      exact h
  refine (hrun _).mono (fun _ b hb => ?_) fun _ h => h
  have hnone : NonePending { s with backend_ := b } := hb
  exact (asked_preserves.ensures hnone).mono (fun _ _ h => h) fun _ _ => trivial

/-- A request that is answered with a result that is ok leaves nothing behind. -/
theorem runBatch_clean (hkeeps : Keeps s) (hplace : InPlace s) :
    (runBatch device around request).Ensures True s
      (fun result s' => result.ok = true → InPlace s' ∧ NonePending s') fun _ => True := by
  have hbatch : ∀ result, (batch device around request result).Ensures True s
      (fun _ s' => InPlace s' ∧ NonePending s') fun _ => True := by
    intro result
    refine Faulty.Ensures.bind
      ((ensureInitialized_inPlace hkeeps hplace _ _).mono (fun _ s₁ h₁ => ?_)
      fun _ h => h)
    refine Faulty.Ensures.bind (((input_frame inPlace_frame around request).ensures h₁).mono
      (fun _ s₂ h₂ => ?_) fun _ _ => trivial)
    refine Faulty.Ensures.bind (((compute_nonePending s₂).and
      (compute_frame inPlace_frame device request) h₂).mono (fun _ s₃ h₃ => ?_)
        fun _ _ => trivial)
    exact Faulty.Ensures.bind (Faulty.ensures_get (Faulty.ensures_pure ⟨h₃.2, h₃.1⟩))
  unfold runBatch
  dsimp only
  split
  · exact Faulty.ensures_pure fun h => nomatch h
  split
  · exact Faulty.ensures_pure fun h => nomatch h
  refine Faulty.Ensures.orElse (Faulty.Ensures.bind (Faulty.Ensures.zoom ?_))
  refine Faulty.Ensures.bind (Faulty.ensures_call (fun _ => Faulty.ensures_pure ?_) fun _ => ?_)
  · refine Faulty.Ensures.bind (Faulty.ensures_get (Faulty.Ensures.orElse ?_))
    refine (hbatch _).mono (fun _ _ h _ => h) fun _ _ => ?_
    exact Faulty.ensures_pure fun h => nomatch h
  · exact Faulty.ensures_pure fun h => nomatch h

/-- Each request is refused, or answered with a result that is ok. -/
def Unaborted (device : Device) : CudaHashBackend → List Served → Prop
  | _, [] => True
  | s, q :: history =>
    (Refused q.request ∨
      (runBatch device q.around q.request s q.answers).1.map HashApiResult.ok = some true) ∧
      Unaborted device (runBatch device q.around q.request s q.answers).2.1 history

/-- Along a history whose requests were refused or succeeded, the sizes noted stay those of the
runner and nothing is left pending. -/
theorem unaborted_clean {history : List Served} (hkeeps : Keeps s) (hplace : InPlace s)
    (hnone : NonePending s) (hun : Unaborted device s history) :
    InPlace (after device s history) ∧ NonePending (after device s history) := by
  induction history generalizing s with
  | nil => exact ⟨hplace, hnone⟩
  | cons q history ih =>
    obtain ⟨hfirst, hrest⟩ := hun
    have hnext := runBatch_keeps device q.around q.request s q.answers hkeeps
    rw [after_cons]
    rcases hfirst with hrefused | hok
    · have hsame : (runBatch device q.around q.request s q.answers).2.1 = s :=
        refused_unchanged device hrefused q.answers
      rw [hsame] at hrest ⊢
      exact ih hkeeps hplace hnone hrest
    · obtain ⟨result, hresult, hok⟩ := Option.map_eq_some_iff.mp hok
      obtain ⟨hplace', hnone'⟩ := (runBatch_clean hkeeps hplace).returned
        (Faulty.run_of_value hresult) hok
      exact ih hnext hplace' hnone' hrest

/-- After requests of which none was aborted, every match is a key of its request with its own
digest, whichever way the first blocks were made. -/
theorem unaborted_paired (hdevice : device.Computes) (deviceIndex : Int) {history : List Served}
    (hun : Unaborted device (new deviceIndex) history) (htold : request.Told)
    {answers : Answers Ptr} {result : HashApiResult}
    (hresult : (runBatch device around request (after device (new deviceIndex) history) answers).1 =
      some result) (hok : result.ok = true) :
    ∀ m ∈ result.«matches», m.key ∈ request.keys around ∧
      m.hash = request.hashOf m.key := by
  have hkeeps := new_keeps deviceIndex
  obtain ⟨hplace, hnone⟩ :=
    unaborted_clean hkeeps (fun h => nomatch h) (fun _ h => nomatch h) hun
  exact safe_matches hdevice (after_keeps device hkeeps history) (safe_of_clean hplace hnone htold)
    hresult hok

/-! ## Keys that are left behind -/

theorem hashOf_zeros : (oneKey (ch '1') false).hashOf zeros =
    lit
      "tb868Er66lwDu7GR4BdYTmISEIHob1x7lxLH7jv0pJnJxLOq8ayoZbhNtWsuA4ouktQQ+M6+zvoVKjegxp83ug" := by
  unfold HashApiRequest.hashOf
  rw [Numeral.digest_eq _ _ _ rfl (by decide +kernel) rfl]
  decide +kernel

theorem hashOf_ones : (oneKey (ch '1') false).hashOf ones =
    lit
      "4++pFvxirCsDgy66pWRXtMkfzRAYYOh9T8moZFFI9kKCdWkLPdiFrImYgW77+JC2T5QjGabbsPmebHeVRYl1UQ" := by
  unfold HashApiRequest.hashOf
  rw [Numeral.digest_eq _ _ _ rfl (by decide +kernel) rfl]
  decide +kernel

/-- The calls up to the first event of `run` succeed, and that is not recorded. -/
def unrecorded : Answers Ptr := List.replicate 19 (some fun _ => 0) ++ [none]

/-- A request with first blocks of the device has been aborted after its keys were copied. -/
def leftBehind : CudaHashBackend :=
  after Device.inOrder (new 0) [⟨quiet, oneKey (ch '0') true, unrecorded⟩]

/-- What `leftBehind` has in its runner. -/
theorem leftBehind_fed : ∃ r, leftBehind.backend_.runner_ = some r ∧
    r.FedWith Device.inOrder (oneKey (ch '1') false) [zeros] ∧
    r.inputs.deviceFirstBlocksReady = true := by
  have hkeeps : Keeps leftBehind := after_keeps Device.inOrder (new_keeps 0) _
  -- the runner is looked at field by field, so that each fact is small enough to be decided
  have hsizes : leftBehind.backend_.runner_.map (fun r => (r.batchSize, r.segmentBlocks,
      r.inputs.deviceFirstBlocksReady)) = some (1, 2, true) := by
    decide
  have hlengths : leftBehind.backend_.runner_.map (fun r => (r.inputs.deviceFirstBlockKeyLength,
      r.inputs.deviceFirstBlockSaltLength)) = some (64, 8) := by
    decide
  have hparams : leftBehind.backend_.runner_.map (fun r => [r.inputs.deviceFirstBlockOutputLength,
      r.inputs.deviceFirstBlockMemoryCost, r.inputs.deviceFirstBlockTimeCost,
      r.inputs.deviceFirstBlockVersion, r.inputs.deviceFirstBlockType,
      r.inputs.deviceFirstBlockLanes]) = some [64, 8, 1, 0x13, 2, 1] := by
    decide
  have hkey : leftBehind.backend_.runner_.map (fun r =>
      r.inputs.deviceKeys.memory.map fun p => bytesAt p 64) = some (some zeros) := by
    decide
  have hsalt : leftBehind.backend_.runner_.map (fun r =>
      r.inputs.deviceSalt.memory.map fun p => bytesAt p 8) =
        some (some (oneKey (ch '1') false).salt) := by
    decide
  generalize leftBehind = s at *
  cases hr : s.backend_.runner_ with
  | none =>
    rw [hr] at hsizes
    cases hsizes
  | some r =>
    rw [hr, Option.map_some, Option.some.injEq] at hsizes hlengths hparams hkey hsalt
    simp only [Prod.mk.injEq, List.cons.injEq] at hsizes hlengths hparams
    obtain ⟨hbatch, hsegment, hready⟩ := hsizes
    obtain ⟨hkeyLength, hsaltLength⟩ := hlengths
    obtain ⟨hout, hmemory, htime, hversion, htype, hlanes, -⟩ := hparams
    obtain ⟨k, hk, hkeyBytes⟩ := Option.map_eq_some_iff.mp hkey
    obtain ⟨p, hp, hsaltBytes⟩ := Option.map_eq_some_iff.mp hsalt
    have hkept : r.Kept := hkeeps r hr
    refine ⟨r, rfl, fed_of_prepared inOrder_computes (by decide)
      ⟨by decide, by decide⟩ ⟨?_, ?_, hkept.lanes, hkept.marked⟩ rfl (by decide)
      ⟨hready, ?_, ?_, ?_, ⟨k, hk, hkeyBytes⟩, ⟨p, hp, hsaltBytes⟩, ?_, hout, hmemory,
        htime, hversion, htype, hlanes⟩, hready⟩
    · rw [hbatch]
      decide
    · rw [hsegment]
      decide
    · rw [hbatch]
      rfl
    · intro password hmem
      rw [List.mem_singleton.mp hmem, hkeyLength]
      rfl
    · rw [hkeyLength]
      decide
    · rw [hsaltLength]
      decide

/-- The next request, for the same shape, is answered with its own key and the hash of the key
that was left behind. -/
theorem left_behind_reported : Device.inOrder.Computes ∧ ∃ result,
    (runBatch Device.inOrder quiet (oneKey (ch '1') false) leftBehind []).1 = some result ∧
      result.ok = true ∧ ∃ m ∈ result.«matches», m.key = ones ∧
        m.hash = (oneKey (ch '1') false).hashOf zeros ∧
        m.hash ≠ (oneKey (ch '1') false).hashOf m.key := by
  obtain ⟨r, hr, hfed, hready⟩ := leftBehind_fed
  have hvalue : (runBatch Device.inOrder quiet (oneKey (ch '1') false) leftBehind []).1.map
      HashApiResult.ok = some true := by
    decide
  obtain ⟨result, hresult, hok⟩ := Option.map_eq_some_iff.mp hvalue
  have htold : (oneKey (ch '1') false).Told := ⟨by decide, by decide, fun h => nomatch h⟩
  have hpending : (runBatch Device.inOrder quiet (oneKey (ch '1') false)).Ensures True leftBehind _
    _ :=
    pending_reports inOrder_computes htold rfl (by decide) hr hfed hready
  have hreports := hpending.returned (Faulty.run_of_value hresult) hok
  refine ⟨inOrder_computes, result, hresult, hok,
    ⟨ones, (oneKey (ch '1') false).hashOf zeros, lit "wDu7", 0,
      isSuperblockHash ((oneKey (ch '1') false).hashOf zeros)⟩, (hreports _).mpr ⟨0, ?_, ?_⟩,
        rfl, rfl, ?_⟩
  · decide
  · have hfound : contains (lit "wDu7") ((oneKey (ch '1') false).hashOf zeros) = true := by
      rw [hashOf_zeros]
      decide
    refine List.mem_append_left _ ?_
    show _ ∈ if contains (lit "wDu7") ((oneKey (ch '1') false).hashOf zeros) = true then _ else _
    rw [if_pos hfound]
    exact List.mem_singleton_self _
  · show (oneKey (ch '1') false).hashOf zeros ≠ (oneKey (ch '1') false).hashOf ones
    rw [hashOf_zeros, hashOf_ones]
    decide

end CudaHashBackend

end TreeMiner.Gpu

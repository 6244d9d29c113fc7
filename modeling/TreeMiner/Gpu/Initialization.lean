import TreeMiner.Gpu.RunnerFrame

/-!
# Initialisation that fails (`CudaHashBackend.cpp`, `CudaBackend.cpp`, `kernelrunner.cu`)

`ensureInitialized` returns at once for the shape it has noted, and `CudaBackend::init` keeps a
runner that says it fits. Both go by what is noted, not by what is there: a runner is in place,
with its batch size and memory size noted, before its `init` has allocated anything, and nothing
is taken back when that throws.

This module is about one initialisation. Of a runner it keeps only the `Shape`: what is noted,
what has been made, and the sizes of what was allocated. A batch leaves the shape alone
(`shaped_frame`), so `ensureInitialized` is the only part of a request that matters here, and
`ensureInitialized_spec` says that the backend it leaves is usable exactly if the runner that
serves the request is `Prepared`. Which histories of requests lead to such a runner is the
subject of `Histories`.
-/

namespace TreeMiner.Gpu

open Cxx Faults

/-! ## What there is to a runner -/

/-- A runner without the contents of its memory: what is noted, what has been made, and the sizes
of what has been allocated. -/
structure Shape where
  type : UInt32
  version : UInt32
  passes : UInt32
  lanes : UInt32
  segmentBlocks : UInt32
  allocatedSegmentBlocks : UInt32
  batchSize : UInt64
  events : List CudaEvent
  stream : Bool
  memory : Option Nat
  blocksIn : Option Nat
  blocksOut : Option Nat

namespace Runner

def shape (r : Runner) : Shape where
  type := r.type
  version := r.version
  passes := r.passes
  lanes := r.lanes
  segmentBlocks := r.segmentBlocks
  allocatedSegmentBlocks := r.allocatedSegmentBlocks
  batchSize := r.batchSize
  events := r.events
  stream := r.stream
  memory := r.memory.map Buffer.size
  blocksIn := r.blocksIn.map Buffer.size
  blocksOut := r.blocksOut.map Buffer.size

end Runner

/-- Writing to a buffer leaves its size. -/
theorem Buffer.size_write (f : Ptr → Ptr) (b : Option Buffer) :
    (Buffer.write f b).map Buffer.size = b.map Buffer.size := by
  cases b <;> rfl

/-! ## A batch leaves the shape alone -/

section Frame

variable {sh : Shape}

/-- The shape is `sh`. -/
abbrev Shaped (sh : Shape) (r : Runner) : Prop := r.shape = sh

/-- No call of a batch changes the shape of the runner. -/
theorem shaped_frame : Runner.Frame (Shaped sh) := by
  have hsame : ∀ {r r' : Runner}, r'.shape = r.shape → Shaped sh r → Shaped sh r' :=
    fun h hr => h.trans hr
  refine ⟨fun r f => hsame ?_, fun r f => hsame ?_, fun r f => hsame ?_, fun _ _ hr => hr,
    fun _ _ hr => hr, fun r k hr hsegment hbatch _ => hsame ?_ hr⟩
  · unfold Runner.shape
    rw [Buffer.size_write]
  · unfold Runner.shape
    rw [Buffer.size_write]
  · unfold Runner.shape
    rw [Buffer.size_write]
  · unfold Runner.shape
    rw [hsegment, hbatch]

/-! ### The objects around the runner -/

/-- The shape of the runner, if there is one. -/
abbrev RunnerShaped (o : Option Shape) (b : CudaBackend) : Prop := b.runner_.map Runner.shape = o

/-- Nor is another runner put in its place. -/
theorem runnerShaped_frame {o : Option Shape} : CudaBackend.Frame (RunnerShaped o) where
  runner {α m} hm := by
    intro b as hb
    unfold CudaBackend.onRunner
    cases hr : b.runner_ with
    | none => exact hb
    | some r =>
      unfold RunnerShaped at hb
      rw [hr] at hb
      rw [← hb]
      exact congrArg some (hm _ shaped_frame r as rfl)
  settings _ _ _ hb := hb

/-- What is noted of the last initialisation, and the shape of the runner in place. -/
structure Marks where
  runner : Option Shape
  initialized : Bool
  batch_size : UInt64
  segment_blocks : UInt32

def CudaHashBackend.marks (s : CudaHashBackend) : Marks :=
  ⟨s.backend_.runner_.map Runner.shape, s.initialized_, s.initialized_batch_size_,
    s.initialized_segment_blocks_⟩

/-- The marks are `v`. -/
abbrev MarkedAs (v : Marks) (s : CudaHashBackend) : Prop := s.marks = v

/-- Nor are the marks of the backend changed. -/
theorem markedAs_frame {v : Marks} : CudaHashBackend.Frame (MarkedAs v) where
  backend {α m} hm := by
    refine Faulty.Preserves.zoom (hm _ (runnerShaped_frame (o := v.runner))) (fun s hs => ?_)
      fun b s hs hb => ?_
    · rw [← hs]
      rfl
    · have hrunner : b.runner_.map Runner.shape = s.marks.runner := by
        rw [hs]
        exact hb
      rw [← hs]
      show Marks.mk _ _ _ _ = Marks.mk _ _ _ _
      rw [hrunner]
      rfl
  passwords _ _ hs := hs

end Frame

/-! ## A runner that has come through its `init` -/

/-- The size `init` asks `cudaMalloc` for. -/
def memorySize (batchSize : UInt64) (segmentBlocks : UInt32) : UInt64 :=
  batchSize * 1 * segmentBlocks.toUInt64 * ARGON2_SYNC_POINTS.toUInt64 * 1024

/-- The bytes of the jobs of a batch. -/
def neededBytes (batchSize : UInt64) (segmentBlocks : UInt32) : Nat :=
  batchSize.toNat * (4 * segmentBlocks.toNat) * 1024

namespace Shape

/-- Everything `init` makes is there. -/
structure Complete (sh : Shape) : Prop where
  memory : sh.memory.isSome = true
  blocksIn : sh.blocksIn.isSome = true
  blocksOut : sh.blocksOut.isSome = true
  events : ∀ e, e ∈ sh.events
  stream : sh.stream = true

/-- The runner is complete, it is for this shape, and every job of the batch has its blocks in
each of the buffers. -/
structure ReadyFor (batchSize : UInt64) (segmentBlocks : UInt32) (sh : Shape) : Prop where
  complete : sh.Complete
  batch : sh.batchSize = batchSize
  segment : sh.segmentBlocks = segmentBlocks
  memory : ∀ n, sh.memory = some n → neededBytes batchSize segmentBlocks ≤ n
  jobs : ∀ job < batchSize.toNat,
    (∀ n, sh.blocksIn = some n → (job + 1) * 2048 ≤ n) ∧
      ∀ n, sh.blocksOut = some n → (job + 1) * 1024 ≤ n

/-- What is allocated has the size that goes with what is noted. -/
structure Sized (sh : Shape) : Prop where
  memory : ∀ n, sh.memory = some n →
    n = (memorySize sh.batchSize sh.allocatedSegmentBlocks).toNat
  blocksIn : ∀ n, sh.blocksIn = some n → n = (sh.batchSize * 1 * 2 * 1024).toNat
  blocksOut : ∀ n, sh.blocksOut = some n → n = (sh.batchSize * 1 * 1024).toNat

end Shape

namespace Runner

variable {r : Runner} {Q : Unit → Runner → Prop} {E : Runner → Prop}

/-- An event that is created is added to the runner's. -/
theorem eventCreate_ensures {e : CudaEvent} (hQ : Q () { r with events := e :: r.events })
    (hE : E r) : (eventCreate e).Ensures True r Q E :=
  Faulty.Ensures.bind (check_ensures (Faulty.ensures_modify hQ) hE)

/-- What `init` has noted for the runner, whether or not it comes to its end. -/
structure For (batchSize : UInt64) (segmentBlocks : UInt32) (r : Runner) : Prop where
  batch : r.batchSize = batchSize
  segment : r.segmentBlocks = segmentBlocks
  allocated : r.allocatedSegmentBlocks = segmentBlocks
  sized : r.shape.Sized

section Init

variable {batchSize : UInt64} {segmentBlocks : UInt32}

/-- A check leaves the sizes the runner was made for. -/
theorem check_for : check.Preserves (For batchSize segmentBlocks) :=
  Faulty.preserves_call.bind fun _ => Faulty.preserves_pure _

/-- The creation of an event leaves them too. -/
theorem eventCreate_for (e : CudaEvent) : (eventCreate e).Preserves (For batchSize segmentBlocks) :=
  check_for.bind fun _ => Faulty.preserves_modify fun _ hr =>
    ⟨hr.batch, hr.segment, hr.allocated,
      ⟨hr.sized.memory, hr.sized.blocksIn, hr.sized.blocksOut⟩⟩

/-- And so does the initialisation, whether or not it fails on the way. -/
theorem init_for : (init batchSize).Preserves (For batchSize segmentBlocks) := by
  refine Faulty.Preserves.bind (Faulty.preserves_modify fun r hr => ?_) fun _ => ?_
  · have hbatch : r.shape.batchSize = batchSize := hr.batch
    have halloc : r.shape.allocatedSegmentBlocks = r.segmentBlocks :=
      hr.allocated.trans hr.segment.symm
    have hsized := hr.sized
    refine ⟨rfl, hr.segment, hr.segment, ⟨fun n hn => ?_, fun n hn => ?_, fun n hn => ?_⟩⟩
    · rw [hsized.memory n hn, hbatch, halloc]
      rfl
    · rw [hsized.blocksIn n hn, hbatch]
      rfl
    · rw [hsized.blocksOut n hn, hbatch]
      rfl
  refine check_for.bind fun _ => ?_
  refine Faulty.Preserves.bind (Faulty.preserves_modify fun r hr => ?_) fun _ => ?_
  · exact ⟨hr.batch, hr.segment, hr.allocated,
      ⟨hr.sized.memory, fun n hn => (Option.some.inj hn).symm, hr.sized.blocksOut⟩⟩
  refine check_for.bind fun _ => ?_
  refine Faulty.Preserves.bind (Faulty.preserves_modify fun r hr => ?_) fun _ => ?_
  · exact ⟨hr.batch, hr.segment, hr.allocated,
      ⟨hr.sized.memory, hr.sized.blocksIn, fun n hn => (Option.some.inj hn).symm⟩⟩
  refine Faulty.preserves_call.bind fun fresh => ?_
  refine Faulty.Preserves.bind (Faulty.preserves_modify fun r hr => ?_) fun _ => ?_
  · exact ⟨hr.batch, hr.segment, hr.allocated,
      ⟨fun n hn => (Option.some.inj hn).symm, hr.sized.blocksIn, hr.sized.blocksOut⟩⟩
  iterate 8 refine (eventCreate_for _).bind fun _ => ?_
  exact check_for.bind fun _ => Faulty.preserves_modify fun _ hr =>
    ⟨hr.batch, hr.segment, hr.allocated,
      ⟨hr.sized.memory, hr.sized.blocksIn, hr.sized.blocksOut⟩⟩

/-- `init` makes everything, or throws before it has made the stream. -/
theorem init_spec (hstream : r.stream = false) :
    (init batchSize).Ensures True r (fun _ r' => r'.shape.Complete)
      fun r' => r'.stream = false := by
  refine Faulty.Ensures.bind (Faulty.ensures_modify ?_)
  refine Faulty.Ensures.bind (check_ensures ?_ hstream)
  refine Faulty.Ensures.bind (Faulty.ensures_modify ?_)
  refine Faulty.Ensures.bind (check_ensures ?_ hstream)
  refine Faulty.Ensures.bind (Faulty.ensures_modify ?_)
  refine Faulty.Ensures.bind (Faulty.ensures_call (fun fresh => ?_) fun _ => hstream)
  refine Faulty.Ensures.bind (Faulty.ensures_modify ?_)
  iterate 8 refine Faulty.Ensures.bind (eventCreate_ensures ?_ hstream)
  refine Faulty.Ensures.bind (check_ensures (Faulty.ensures_modify ?_) hstream)
  refine ⟨rfl, rfl, rfl, fun e => ?_, rfl⟩
  cases e <;> simp [shape]

/-- A new runner has the sizes that its constructor was given. -/
theorem new_for (type version passes lanes : UInt32) :
    For batchSize segmentBlocks (new type version passes lanes segmentBlocks batchSize) :=
  ⟨rfl, rfl, rfl, ⟨fun _ h => (nomatch h), fun _ h => (nomatch h), fun _ h => (nomatch h)⟩⟩

end Init

end Runner

/-! ## What is needed and what is allocated -/

/-- The size that is asked of the device is the needed one modulo 2^64. -/
theorem memorySize_toNat (batchSize : UInt64) (segmentBlocks : UInt32) :
    (memorySize batchSize segmentBlocks).toNat = neededBytes batchSize segmentBlocks % 2 ^ 64 := by
  unfold memorySize neededBytes
  rw [UInt64.toNat_mul, UInt64.toNat_mul, UInt64.toNat_mul, UInt64.toNat_mul,
    UInt32.toNat_toUInt64]
  show (batchSize.toNat * 1 % 2 ^ 64 * segmentBlocks.toNat % 2 ^ 64 * 4 % 2 ^ 64 * 1024) % 2 ^ 64 =
    _
  rw [Nat.mod_mul_mod, Nat.mul_assoc _ 4 1024, Nat.mod_mul_mod, Nat.mul_assoc _ _ (4 * 1024),
    Nat.mod_mul_mod, Nat.mul_one]
  congr 1
  rw [Nat.mul_comm 4 segmentBlocks.toNat, Nat.mul_assoc, Nat.mul_assoc]

/-- A complete runner for the shape is ready if its memory is large enough: the buffers of the
host are smaller. -/
theorem Shape.readyFor_iff {sh : Shape} {batchSize : UInt64} {segmentBlocks : UInt32}
    (hbatch : sh.Complete → sh.batchSize = batchSize ∧ sh.segmentBlocks = segmentBlocks)
    (hsized : sh.Sized) (hseg : 2 ≤ segmentBlocks.toNat) :
    sh.ReadyFor batchSize segmentBlocks ↔
      sh.Complete ∧ ∃ n, sh.memory = some n ∧ neededBytes batchSize segmentBlocks ≤ n := by
  constructor
  -- a runner that is ready has memory, and enough of it
  · intro h
    obtain ⟨n, hn⟩ := Option.isSome_iff_exists.mp h.complete.memory
    exact ⟨h.complete, n, hn, h.memory n hn⟩
  · intro ⟨hcomplete, n, hn, hle⟩
    obtain ⟨hb, hs⟩ := hbatch hcomplete
    have hlt : n < 2 ^ 64 := by
      rw [hsized.memory n hn]
      exact UInt64.toNat_lt _
    -- the buffers of the host are smaller than the memory, so their sizes do not wrap either
    have hhost : batchSize.toNat * 8192 < 2 ^ 64 := by
      refine Nat.lt_of_le_of_lt (Nat.le_trans ?_ hle) hlt
      unfold neededBytes
      rw [Nat.mul_assoc]
      exact Nat.mul_le_mul_left _ (by omega)
    have hin : (batchSize * 1 * 2 * 1024).toNat = batchSize.toNat * 2048 := by
      rw [UInt64.toNat_mul, UInt64.toNat_mul, UInt64.toNat_mul]
      show (batchSize.toNat * 1 % 2 ^ 64 * 2 % 2 ^ 64 * 1024) % 2 ^ 64 = _
      omega
    have hout : (batchSize * 1 * 1024).toNat = batchSize.toNat * 1024 := by
      rw [UInt64.toNat_mul, UInt64.toNat_mul]
      show (batchSize.toNat * 1 % 2 ^ 64 * 1024) % 2 ^ 64 = _
      omega
    refine ⟨hcomplete, hb, hs, fun m hm => ?_,
      fun job hjob => ⟨fun m hm => ?_, fun m hm => ?_⟩⟩
    · rw [hn] at hm
      rw [← Option.some.inj hm]
      exact hle
    · rw [hsized.blocksIn m hm, hb, hin]
      omega
    · rw [hsized.blocksOut m hm, hb, hout]
      omega

/-! ## One initialisation -/

namespace CudaBackend

variable {b : CudaBackend}

/-- What a call ensures of the runner it ensures of the backend that holds it. -/
theorem onRunner_ensures {α : Type} {fails : Prop} {m : Faulty Ptr Runner α} {r : Runner}
    {Q : α → CudaBackend → Prop} {E : CudaBackend → Prop} (hr : b.runner_ = some r)
    (hm : m.Ensures fails r (fun a r => Q a { b with runner_ := some r })
      fun r => E { b with runner_ := some r }) :
    (onRunner m).Ensures fails b Q E := by
  intro as has
  have hpost := hm as has
  unfold onRunner
  rw [hr]
  dsimp only
  generalize m r as = x at hpost ⊢
  obtain ⟨o, r', as'⟩ := x
  cases o with
  | some a => exact hpost
  | none => exact hpost

/-- The runner in place is kept for this shape. -/
def reuses (b : CudaBackend) (batchSize : UInt64) (segmentBlocks : UInt32) : Bool :=
  b.runner_.any fun r => r.canReuse ARGON2_ID ARGON2_VERSION_13 1 1 segmentBlocks batchSize

/-- `init` keeps the runner, or makes a new one; the new one is in place whether or not it is
complete. -/
theorem init_spec (batchSize : UInt64) (segmentBlocks : UInt32) :
    (init batchSize ARGON2_ID ARGON2_VERSION_13 1 1 segmentBlocks).Ensures True b
      (fun _ b' => if b.reuses batchSize segmentBlocks then
          ∃ r, b.runner_ = some r ∧ r.batchSize = batchSize ∧ b'.runner_ = some
            (r.reconfigure ARGON2_ID ARGON2_VERSION_13 1 1 segmentBlocks batchSize)
        else ∃ r, b'.runner_ = some r ∧ r.shape.Complete ∧ r.For batchSize segmentBlocks)
      fun b' => b' = b ∨ ∃ r, b'.runner_ = some r ∧ r.stream = false ∧
        r.For batchSize segmentBlocks := by
  refine Faulty.Ensures.bind (Faulty.ensures_get ?_)
  show Faulty.Ensures True (if b.reuses batchSize segmentBlocks = true then _ else _) b _ _
  -- a runner that can be reused keeps its buffers; only its segment size is set again
  by_cases hreuse : b.reuses batchSize segmentBlocks = true
  · rw [if_pos hreuse]
    refine Faulty.ensures_modify ?_
    obtain ⟨r, hr, hcan⟩ := (Option.any_eq_true _ _).mp hreuse
    have hbatch : r.batchSize = batchSize := by
      simp only [Runner.canReuse, Bool.and_eq_true, decide_eq_true_eq] at hcan
      exact hcan.1.2
    rw [if_pos hreuse]
    refine ⟨r, hr, hbatch, ?_⟩
    show Option.map _ b.runner_ = _
    rw [hr]
    rfl
  · rw [if_neg hreuse]
    refine Faulty.Ensures.bind (Faulty.ensures_call (fun _ => ?_) fun _ => Or.inl rfl)
    refine Faulty.Ensures.bind (Faulty.ensures_modify ?_)
    refine onRunner_ensures rfl ?_
    refine ((Runner.init_spec rfl).and Runner.init_for (Runner.new_for _ _ _ _)).mono ?_ ?_
    · intro _ r hr
      rw [if_neg hreuse]
      exact ⟨r, rfl, hr.1, hr.2⟩
    · intro r hr
      exact Or.inr ⟨r, rfl, hr.1, hr.2⟩

end CudaBackend

/-- The marks speak of the runner in place, as far as that is complete. -/
structure Marks.Sound (v : Marks) : Prop where
  sized : ∀ sh, v.runner = some sh → sh.Sized
  shaped : v.initialized = true → ∃ sh, v.runner = some sh ∧
    (sh.Complete → sh.batchSize = v.batch_size ∧ sh.segmentBlocks = v.segment_blocks)

namespace CudaHashBackend

variable (batch_size : UInt64) (segment_blocks : UInt32) (s : CudaHashBackend)

/-- The current runner is ready for a batch of this shape. -/
def Usable : Prop :=
  ∃ r, s.backend_.runner_ = some r ∧ r.shape.ReadyFor batch_size segment_blocks

/-- The runner in place will serve the request: its shape is the one noted, or it is kept. -/
def served : Bool :=
  (s.initialized_ && s.initialized_batch_size_ = batch_size &&
    s.initialized_segment_blocks_ = segment_blocks) || s.backend_.reuses batch_size segment_blocks

/-- A runner that is to serve the request has come through its `init`, with memory enough; for a
new one, what the jobs need can be told in 64 bits. -/
def Prepared : Prop :=
  if s.served batch_size segment_blocks then
    ∃ r m, s.backend_.runner_ = some r ∧ r.shape.Complete ∧ r.memory = some m ∧
      neededBytes batch_size segment_blocks ≤ m.size
  else neededBytes batch_size segment_blocks < 2 ^ 64

variable {batch_size segment_blocks s}

/-- The backend is usable for a request when the shape of its runner is ready for it. -/
theorem usable_iff {s' : CudaHashBackend} {r : Runner} (hr : s'.backend_.runner_ = some r) :
    Usable batch_size segment_blocks s' ↔ r.shape.ReadyFor batch_size segment_blocks := by
  constructor
  · intro ⟨r', hr', hready⟩
    rw [hr] at hr'
    cases hr'
    exact hready
  · exact fun hready => ⟨r, hr, hready⟩

/-- The condition for a request that the runner in place serves. -/
theorem prepared_served {r : Runner} (hr : s.backend_.runner_ = some r)
    (hserved : s.served batch_size segment_blocks = true) :
    Prepared batch_size segment_blocks s ↔ r.shape.Complete ∧
      ∃ n, r.shape.memory = some n ∧ neededBytes batch_size segment_blocks ≤ n := by
  unfold Prepared
  rw [if_pos hserved]
  constructor
  · intro ⟨r', m, hr', hcomplete, hm, hle⟩
    rw [hr] at hr'
    cases hr'
    exact ⟨hcomplete, m.size, congrArg (Option.map Buffer.size) hm, hle⟩
  · intro ⟨hcomplete, n, hn, hle⟩
    obtain ⟨m, hm, rfl⟩ := Option.map_eq_some_iff.mp hn
    exact ⟨r, m, hr, hcomplete, hm, hle⟩

variable (params : Argon2Params)

/-- `ensureInitialized` keeps the marks sound, and where it returns the backend is usable exactly
if the request was prepared. -/
theorem ensureInitialized_spec (hs : s.marks.Sound) (hseg : 2 ≤ params.segmentBlocks.toNat) :
    (ensureInitialized params batch_size).Ensures True s
      (fun _ s' => s'.marks.Sound ∧ (Usable batch_size params.segmentBlocks s' ↔
        Prepared batch_size params.segmentBlocks s))
      fun s' => s'.marks.Sound := by
  refine Faulty.Ensures.bind (Faulty.ensures_get ?_)
  dsimp only
  by_cases hnoted : (s.initialized_ && s.initialized_batch_size_ = batch_size &&
      s.initialized_segment_blocks_ = params.segmentBlocks) = true
  · -- the shape that is noted: nothing is done
    rw [if_pos hnoted]
    refine Faulty.ensures_pure ⟨hs, ?_⟩
    have hserved : s.served batch_size params.segmentBlocks = true := by
      unfold served
      rw [hnoted, Bool.true_or]
    simp only [Bool.and_eq_true, decide_eq_true_eq] at hnoted
    obtain ⟨⟨hinit, hbatch⟩, hsegment⟩ := hnoted
    obtain ⟨sh, hsh, hshaped⟩ := hs.shaped hinit
    obtain ⟨r, hr, rfl⟩ := Option.map_eq_some_iff.mp hsh
    rw [usable_iff hr, prepared_served hr hserved]
    refine Shape.readyFor_iff (fun hcomplete => ?_) (hs.sized _ hsh) hseg
    obtain ⟨hb, hq⟩ := hshaped hcomplete
    exact ⟨hb.trans hbatch, hq.trans hsegment⟩
  rw [if_neg hnoted]
  refine Faulty.Ensures.bind (Faulty.Ensures.zoom ?_)
  refine (CudaBackend.init_spec batch_size params.segmentBlocks).mono ?_ ?_
  · intro _ b' hb'
    refine Faulty.ensures_modify ?_
    by_cases hreuse : s.backend_.reuses batch_size params.segmentBlocks = true
    · -- the runner in place is kept
      rw [if_pos hreuse] at hb'
      obtain ⟨r, hr, hbatch, hr'⟩ := hb'
      have hserved : s.served batch_size params.segmentBlocks = true := by
        unfold served
        rw [hreuse, Bool.or_true]
      have hsized := hs.sized r.shape (congrArg (Option.map Runner.shape) hr)
      have hsized' : (r.reconfigure ARGON2_ID ARGON2_VERSION_13 1 1 params.segmentBlocks
          batch_size).shape.Sized := by
        refine ⟨fun n hn => ?_, fun n hn => ?_, fun n hn => ?_⟩
        · rw [hsized.memory n hn, show r.shape.batchSize = batch_size from hbatch]
          rfl
        · rw [hsized.blocksIn n hn, show r.shape.batchSize = batch_size from hbatch]
          rfl
        · rw [hsized.blocksOut n hn, show r.shape.batchSize = batch_size from hbatch]
          rfl
      have hready : (r.reconfigure ARGON2_ID ARGON2_VERSION_13 1 1 params.segmentBlocks
          batch_size).shape.ReadyFor batch_size params.segmentBlocks ↔ _ :=
        Shape.readyFor_iff (fun _ => ⟨rfl, rfl⟩) hsized' hseg
      refine ⟨⟨fun sh hsh => ?_, fun _ => ?_⟩, ?_⟩
      · obtain ⟨r', hr'', rfl⟩ := Option.map_eq_some_iff.mp hsh
        cases hr'.symm.trans hr''
        exact hsized'
      · exact ⟨_, congrArg (Option.map Runner.shape) hr', fun _ => ⟨rfl, rfl⟩⟩
      · rw [usable_iff hr', prepared_served hr hserved,
          hready]
        have hcomplete : (r.reconfigure ARGON2_ID ARGON2_VERSION_13 1 1 params.segmentBlocks
            batch_size).shape.Complete ↔ r.shape.Complete :=
          ⟨fun h => ⟨h.1, h.2, h.3, h.4, h.5⟩, fun h => ⟨h.1, h.2, h.3, h.4, h.5⟩⟩
        rw [hcomplete]
        rfl
    · -- a new runner has come through its `init`
      rw [if_neg hreuse] at hb'
      obtain ⟨r, hr, hcomplete, hfor⟩ := hb'
      have hnew : s.served batch_size params.segmentBlocks = false := by
        unfold served
        rw [Bool.eq_false_of_not_eq_true hnoted, Bool.eq_false_of_not_eq_true hreuse]
        rfl
      refine ⟨⟨fun sh hsh => ?_, fun _ => ?_⟩, ?_⟩
      · obtain ⟨r', hr', rfl⟩ := Option.map_eq_some_iff.mp hsh
        cases hr.symm.trans hr'
        exact hfor.sized
      · exact ⟨_, congrArg (Option.map Runner.shape) hr,
          fun _ => ⟨hfor.batch, hfor.segment⟩⟩
      · rw [usable_iff hr,
          Shape.readyFor_iff (fun _ => ⟨hfor.batch, hfor.segment⟩) hfor.sized hseg]
        unfold Prepared
        rw [if_neg (by rw [hnew]; exact Bool.false_ne_true)]
        obtain ⟨n, hn⟩ := Option.isSome_iff_exists.mp hcomplete.memory
        have hsize : n = neededBytes batch_size params.segmentBlocks % 2 ^ 64 := by
          rw [hfor.sized.memory n hn, show r.shape.batchSize = batch_size from hfor.batch,
            show r.shape.allocatedSegmentBlocks = params.segmentBlocks from hfor.allocated,
            memorySize_toNat]
        constructor
        · intro ⟨_, m, hm, hle⟩
          rw [hn] at hm
          cases hm
          omega
        · intro hlt
          exact ⟨hcomplete, n, hn, by omega⟩
  · intro b' hb'
    rcases hb' with rfl | ⟨r, hr, hstream, hfor⟩
    · exact hs
    · -- a runner that has not come through: the marks say nothing of it
      refine ⟨fun sh hsh => ?_, fun _ => ⟨_, congrArg (Option.map Runner.shape) hr, ?_⟩⟩
      · obtain ⟨r', hr', rfl⟩ := Option.map_eq_some_iff.mp hsh
        cases hr.symm.trans hr'
        exact hfor.sized
      · intro hcomplete
        exact absurd (hstream.symm.trans hcomplete.stream) Bool.false_ne_true

end CudaHashBackend

end TreeMiner.Gpu

import TreeMiner.Gpu.HashBackend

/-!
# What a batch leaves alone

A batch changes the contents of the buffers of a runner, its device inputs and its table of
references; a request changes no more than that once it is initialised, wherever an exception
ends it. What does not speak of these (`Frame`) is preserved, on each of the three objects.

A frame is a predicate that the few primitive changes keep. That each function of a batch
keeps every frame is proved once, function by function; an invariant is then shown to be a
frame, and the whole batch keeps it.
-/

namespace TreeMiner.Gpu

open Cxx Faults RefTable

namespace Runner

/-- What stays true of a runner when a batch works on it. -/
structure Frame (I : Runner → Prop) : Prop where
  memory : ∀ r f, I r → I { r with memory := Buffer.write f r.memory }
  blocksIn : ∀ r f, I r → I { r with blocksIn := Buffer.write f r.blocksIn }
  blocksOut : ∀ r f, I r → I { r with blocksOut := Buffer.write f r.blocksOut }
  inputs : ∀ r i, I r → I { r with inputs := i }
  used : ∀ r u, I r → I { r with lastUsedDeviceFirstBlocks := u }
  kernel : ∀ r k, I r → k.segmentBlocks = r.segmentBlocks → k.batchSize = r.batchSize →
    (r.toKernelRunner.Marked → k.Marked) → I { r with toKernelRunner := k }

/-! ## The table of references -/

/-- Another table for the same memory. -/
structure Refit (r r' : Runner) : Prop where
  same : r' = { r with toKernelRunner := r'.toKernelRunner }
  segment : r'.segmentBlocks = r.segmentBlocks
  batch : r'.batchSize = r.batchSize
  asked : r'.precomputedRefs = r.precomputedRefs
  marked : r.toKernelRunner.Marked → r'.toKernelRunner.Marked

/-- A table that is asked for is there. -/
def HasTable (r : Runner) : Prop :=
  r.toKernelRunner.Marked → r.precomputedRefs = true → 2 ≤ r.segmentBlocks.toNat →
    r.segmentBlocks.toNat < 2 ^ 30 → r.toKernelRunner.Current

variable {r : Runner} {Q : Unit → Runner → Prop} {E : Runner → Prop}

/-- A check that succeeds leaves the runner, and so does one that fails. -/
theorem check_ensures (hQ : Q () r) (hE : E r) : check.Ensures True r Q E :=
  Faulty.Ensures.bind (Faulty.ensures_call (fun _ => Faulty.ensures_pure hQ) fun _ => hE)

theorem eventRecord_ensures (e : CudaEvent) (hQ : Q () r) (hE : E r) :
    (eventRecord e).Ensures True r Q E := by
  refine Faulty.Ensures.bind (Faulty.ensures_get ?_)
  split
  · exact check_ensures hQ hE
  · exact Faulty.ensures_throw hE

/-- The table of references is made for the sizes of the runner, or its allocation has failed. -/
theorem makeRefs_spec (hnone : r.refs = none) :
    makeRefs.Ensures True r (fun _ r' => Refit r r' ∧ (r.toKernelRunner.Marked → HasTable r'))
      (Refit r) := by
  have hzero : r.toKernelRunner.Marked → r.refsSegmentBlocks = 0 := fun hm => hm.none hnone
  refine Faulty.Ensures.bind (Faulty.ensures_get ?_)
  dsimp only
  by_cases hempty : (generateIndexedRefTable r.segmentBlocks).isEmpty = true
  · rw [if_pos hempty]
    refine Faulty.ensures_pure ⟨⟨rfl, rfl, rfl, rfl, id⟩, fun _ _ _ h2 hlt => ?_⟩
    have hlen := length_generateIndexedRefTable h2 hlt
    rw [List.isEmpty_iff.mp hempty, indexedRefCount_toNat h2 hlt, List.length_nil] at hlen
    omega
  · rw [if_neg hempty]
    refine Faulty.Ensures.bind
      (Faulty.ensures_call (fun fresh => ?_) fun _ => ⟨rfl, rfl, rfl, rfl, id⟩)
    refine Faulty.Ensures.bind (Faulty.ensures_modify ?_)
    -- what `cudaMalloc` gave stands there, and no size is noted for it
    refine Faulty.Ensures.bind
      (check_ensures (Faulty.ensures_modify ?_) ⟨rfl, rfl, rfl, rfl, ?_⟩)
    · have hholds : Holds (KernelRunner.copyTable (generateIndexedRefTable r.segmentBlocks)
          (tableAt fresh)) (generateIndexedRefTable r.segmentBlocks) := copyTable_holds _ _
      refine ⟨⟨rfl, rfl, rfl,
        rfl, fun _ => ⟨fun refs hrefs _ => ?_, fun h => (nomatch h)⟩⟩,
        fun _ _ _ _ _ => ⟨_, rfl, hholds⟩⟩
      rw [← Option.some.inj hrefs]
      exact hholds
    · exact fun hm => ⟨fun _ _ hne => absurd (hzero hm) hne, fun h => (nomatch h)⟩

/-- After this call a marked runner has its table. -/
theorem ensurePrecomputedRefs_spec :
    ensurePrecomputedRefs.Ensures True r
      (fun _ r' => Refit r r' ∧ (r.toKernelRunner.Marked → HasTable r')) (Refit r) := by
  refine Faulty.Ensures.bind (Faulty.ensures_get ?_)
  have hself : Refit r r := ⟨rfl, rfl, rfl, rfl, id⟩
  by_cases hasked : r.precomputedRefs = true
  · rw [if_neg (by rw [hasked]; decide)]
    -- a table of another size is freed first
    by_cases hsome : r.refs.isSome = true
    · by_cases hsame : r.refsSegmentBlocks = r.segmentBlocks
      · rw [if_pos (by rw [hsome, hsame]; simp)]
        refine Faulty.ensures_pure ⟨hself, fun hm _ _ h2 _ => ?_⟩
        obtain ⟨refs, hrefs⟩ := Option.isSome_iff_exists.mp hsome
        have hne : r.refsSegmentBlocks ≠ 0 := by
          intro h0
          rw [← hsame, h0] at h2
          exact absurd h2 (by decide)
        have htable := hm.table refs hrefs hne
        rw [hsame] at htable
        exact ⟨refs, hrefs, htable⟩
      · rw [if_neg (by simp [hsame]), if_pos hsome]
        refine Faulty.Ensures.bind (check_ensures ?_ hself)
        refine Faulty.Ensures.bind (Faulty.ensures_modify ?_)
        have hfreed : KernelRunner.Marked
          { r.toKernelRunner with refs := none, refsSegmentBlocks := 0 } :=
          ⟨fun _ h => (nomatch h), fun _ => rfl⟩
        refine (makeRefs_spec rfl).mono (fun _ r' hr' => ?_) fun r' hr' => ?_
        · obtain ⟨hfit, htable⟩ := hr'
          exact ⟨⟨hfit.same, hfit.segment, hfit.batch, hfit.asked,
            fun _ => hfit.marked hfreed⟩, fun _ => htable hfreed⟩
        · exact ⟨hr'.same, hr'.segment, hr'.batch, hr'.asked, fun _ => hr'.marked hfreed⟩
    · rw [if_neg (by simp [hsome]), if_neg hsome]
      exact makeRefs_spec (Option.not_isSome_iff_eq_none.mp hsome)
  · rw [if_pos (by simp [hasked])]
    exact Faulty.ensures_pure ⟨hself, fun _ _ h => absurd h hasked⟩

/-! ## The calls of a batch -/

/-- The number of warps is no part of the sizes. -/
theorem setWarpsPerBlock_same (k : KernelRunner) (warps : UInt32) :
    (k.setWarpsPerBlock warps).segmentBlocks = k.segmentBlocks ∧
      (k.setWarpsPerBlock warps).batchSize = k.batchSize := by
  unfold KernelRunner.setWarpsPerBlock
  split
  · exact ⟨rfl, rfl⟩
  · split <;> exact ⟨rfl, rfl⟩

section Calls

variable {I : Runner → Prop}

theorem check_frame : check.Preserves I :=
  Faulty.preserves_call.bind fun _ => Faulty.preserves_pure _

theorem eventRecord_frame (e : CudaEvent) : (eventRecord e).Preserves I := by
  refine Faulty.preserves_get.bind fun r => ?_
  split
  · exact check_frame
  · exact Faulty.preserves_throw

theorem eventElapsedTime_frame (first last : CudaEvent) :
    (eventElapsedTime first last).Preserves I := by
  refine Faulty.preserves_get.bind fun r => ?_
  split
  · exact check_frame
  · exact Faulty.preserves_throw

theorem finish_frame : finish.Preserves I :=
  check_frame.bind fun _ => eventElapsedTime_frame _ _

theorem getLastGpuFirstBlockMs_frame : getLastGpuFirstBlockMs.Preserves I := by
  refine Faulty.preserves_get.bind fun r => ?_
  split
  · exact Faulty.preserves_pure _
  · exact eventElapsedTime_frame _ _

variable (hI : Frame I)

include hI

/-- Preparing the passwords on the device keeps what every single call keeps. -/
theorem prepare_frame (passwords : List Bytes) (saltBytes : Bytes)
    (outputLength memoryCost timeCost version type lanes : UInt32) :
    (prepareInputBlocksOnDevice passwords saltBytes outputLength memoryCost timeCost version type
      lanes).Preserves I := by
  refine Faulty.preserves_get.bind fun r => ?_
  exact Faulty.Preserves.zoom (J := fun _ => True) (fun _ _ _ => trivial) (fun _ _ => trivial)
    fun i r hr _ => hI.inputs r i hr

theorem copyInputBlocks_frame : copyInputBlocks.Preserves I := by
  refine Faulty.preserves_get.bind fun r => ?_
  split
  · exact Faulty.preserves_throw
  · exact check_frame.bind fun _ => Faulty.preserves_modify fun r => hI.memory r _

theorem copyOutputBlocks_frame : copyOutputBlocks.Preserves I := by
  refine Faulty.preserves_get.bind fun r => ?_
  dsimp only
  split
  · exact Faulty.preserves_throw
  · exact check_frame.bind fun _ => Faulty.preserves_modify fun r => hI.blocksOut r _

theorem ensurePrecomputedRefs_frame : ensurePrecomputedRefs.Preserves I := by
  have hfit : ∀ {r r' : Runner}, I r → Refit r r' → I r' := by
    intro r r' hr hfit
    rw [hfit.same]
    exact hI.kernel r _ hr hfit.segment hfit.batch hfit.marked
  refine Faulty.preserves_of_ensures fun r hr => ?_
  exact ensurePrecomputedRefs_spec.mono (fun _ _ h => hfit hr h.1) fun _ h => hfit hr h

/-- So does either way of making the first blocks. -/
theorem firstBlocks_frame (device : Device) (useDeviceFirstBlocks : Bool) :
    (firstBlocks device useDeviceFirstBlocks).Preserves I := by
  unfold firstBlocks
  split
  · refine (eventRecord_frame _).bind fun _ => (eventRecord_frame _).bind fun _ => ?_
    refine Faulty.Preserves.bind (Faulty.preserves_modify fun r => hI.memory r _) fun _ => ?_
    exact check_frame.bind fun _ => eventRecord_frame _
  · exact (copyInputBlocks_frame hI).bind fun _ => (eventRecord_frame _).bind fun _ =>
      (eventRecord_frame _).bind fun _ => eventRecord_frame _

/-- And a whole run of the kernels. -/
theorem run_frame (device : Device) : (run device).Preserves I := by
  refine (eventRecord_frame _).bind fun _ => (eventRecord_frame _).bind fun _ => ?_
  refine Faulty.preserves_get.bind fun r => ?_
  refine Faulty.Preserves.bind (Faulty.preserves_modify fun r => hI.used r _) fun _ => ?_
  refine (firstBlocks_frame hI device _).bind fun _ => ?_
  refine Faulty.Preserves.bind (Faulty.preserves_modify fun r => hI.inputs r _) fun _ => ?_
  refine (eventRecord_frame _).bind fun _ => (ensurePrecomputedRefs_frame hI).bind fun _ => ?_
  refine Faulty.Preserves.bind (Faulty.preserves_modify fun r => hI.memory r _) fun _ => ?_
  refine check_frame.bind fun _ => (eventRecord_frame _).bind fun _ => ?_
  exact (copyOutputBlocks_frame hI).bind fun _ => eventRecord_frame _

/-- And the filling of a password block by the host. -/
theorem fillPasswordBlock_frame (params : Argon2Params) (index : UInt64) (password : Bytes) :
    (CudaHashBackend.fillPasswordBlock params index password).Preserves I := by
  refine Faulty.preserves_get.bind fun r => ?_
  split
  · exact Faulty.preserves_throw
  split
  · exact Faulty.preserves_throw
  · exact Faulty.preserves_modify fun r => hI.blocksIn r _

/-- And of a list of them, one after the other. -/
theorem fillPasswordBlocks_frame (params : Argon2Params) :
    ∀ (index : UInt64) (passwords : List Bytes),
      (CudaHashBackend.fillPasswordBlocks params index passwords).Preserves I
  | _, [] => Faulty.preserves_pure _
  | index, password :: passwords =>
    (fillPasswordBlock_frame hI params index password).bind fun _ =>
      fillPasswordBlocks_frame params (index + 1) passwords

theorem setWarpsPerBlock_frame (warps : UInt32) {r : Runner} (hr : I r) :
    I { r with toKernelRunner := r.toKernelRunner.setWarpsPerBlock warps } := by
  have hsame := setWarpsPerBlock_same r.toKernelRunner warps
  exact hI.kernel r _ hr hsame.1 hsame.2 fun hm => hm.call (.setWarpsPerBlock warps)

theorem setPrecomputedRefs_frame (enabled : Bool) {r : Runner} (hr : I r) :
    I { r with toKernelRunner := r.toKernelRunner.setPrecomputedRefs enabled } :=
  hI.kernel r _ hr rfl rfl fun hm => hm.call (.setPrecomputedRefs enabled)

end Calls

end Runner

/-! ## The objects around the runner -/

namespace CudaBackend

/-- What stays true of a backend when a batch works on its runner. -/
structure Frame (J : CudaBackend → Prop) : Prop where
  runner : ∀ {α : Type} {m : Faulty Ptr Runner α}, (∀ I, Runner.Frame I → m.Preserves I) →
    (onRunner m).Preserves J
  settings : ∀ b warps refs, J b →
    J { b with warpsPerBlock_ := warps, precomputedRefs_ := refs }

variable {J : CudaBackend → Prop} (hJ : Frame J)

include hJ

theorem prepare_frame (passwords : List Bytes) (saltBytes : Bytes)
    (outputLength memoryCost timeCost version type lanes : UInt32) :
    (prepareInputBlocksOnDevice passwords saltBytes outputLength memoryCost timeCost version type
      lanes).Preserves J := by
  refine Faulty.preserves_get.bind fun b => ?_
  split
  · exact Faulty.preserves_pure _
  · exact hJ.runner fun _ hI => Runner.prepare_frame hI _ _ _ _ _ _ _ _

theorem run_frame (device : Device) : (run device).Preserves J := by
  refine Faulty.preserves_get.bind fun b => ?_
  split
  · exact Faulty.preserves_pure _
  · refine (hJ.runner fun _ hI => Faulty.preserves_modify fun r => ?_).bind fun _ => ?_
    · exact Runner.setWarpsPerBlock_frame hI _
    refine (hJ.runner fun _ hI => Faulty.preserves_modify fun r => ?_).bind fun _ => ?_
    · exact Runner.setPrecomputedRefs_frame hI _
    · exact hJ.runner fun _ hI => Runner.run_frame hI device

theorem lastMs_frame {m : Faulty Ptr Runner Unit} (hm : ∀ I, Runner.Frame I → m.Preserves I) :
    (lastMs m).Preserves J := by
  refine Faulty.preserves_get.bind fun b => ?_
  split
  · exact Faulty.preserves_pure _
  · exact hJ.runner hm

theorem setWarpsPerBlock_frame (warps : UInt32) {b : CudaBackend} (hb : J b) :
    J (setWarpsPerBlock warps b) := by
  unfold setWarpsPerBlock
  split
  · exact hJ.settings b _ _ hb
  · split <;> exact hJ.settings b _ _ hb

end CudaBackend

namespace CudaHashBackend

/-- What stays true of a backend from the input phase of a request on. -/
structure Frame (K : CudaHashBackend → Prop) : Prop where
  backend : ∀ {α : Type} {m : Faulty Ptr CudaBackend α},
    (∀ J, CudaBackend.Frame J → m.Preserves J) →
    (onBackend m).Preserves K
  passwords : ∀ s l, K s → K { s with password_storage_ := l }

variable {K : CudaHashBackend → Prop} (hK : Frame K)

include hK

theorem onRunner_frame {α : Type} {m : Faulty Ptr Runner α}
    (hm : ∀ I, Runner.Frame I → m.Preserves I) :
    (onBackend (CudaBackend.onRunner m)).Preserves K :=
  hK.backend fun _ hJ => hJ.runner hm

theorem store_frame (l : CudaHashBackend → List Bytes) :
    (Faulty.modify fun s => { s with password_storage_ := l s } :
      Faulty Ptr CudaHashBackend Unit).Preserves K :=
  Faulty.preserves_modify fun s => hK.passwords s (l s)

/-- Drawing a key and filling it in keeps it too, attempt by attempt. -/
theorem drawAndFill_frame (params : Argon2Params) : ∀ (n : Nat) (index : UInt64)
    (g : RandomHexKeyGenerator), (drawAndFill params n index g).Preserves K
  | 0, _, _ => Faulty.preserves_pure _
  | n + 1, index, g => by
    refine (onRunner_frame hK fun _ hI => Runner.fillPasswordBlock_frame hI params index _).bind
      fun _ => ?_
    exact Faulty.Preserves.bind (store_frame hK _) fun _ => drawAndFill_frame params n (index + 1) _

/-- And the whole input of a batch. -/
theorem input_frame (around : Surroundings) (request : HashApiRequest) :
    (input around request).Preserves K := by
  refine Faulty.Preserves.bind (store_frame hK _) fun _ => Faulty.preserves_call.bind fun _ => ?_
  split
  · refine Faulty.Preserves.bind (store_frame hK _) fun _ => ?_
    split
    · exact Faulty.preserves_throw
    · refine Faulty.preserves_get.bind fun s => ?_
      refine (hK.backend fun _ hJ => CudaBackend.prepare_frame hJ _ _ _ _ _ _ _ _).bind fun ok => ?_
      split
      · exact Faulty.preserves_pure _
      · exact Faulty.preserves_throw
  · unfold hostInput
    split
    · split
      · exact Faulty.Preserves.bind (store_frame hK _) fun _ =>
          onRunner_frame hK fun _ hI => Runner.fillPasswordBlock_frame hI _ _ _
      · exact drawAndFill_frame hK _ _ _ _
    · refine Faulty.Preserves.bind (store_frame hK _) fun _ => ?_
      exact Faulty.preserves_get.bind fun s =>
        onRunner_frame hK fun _ hI => Runner.fillPasswordBlocks_frame hI _ _ _

/-- And its computation. -/
theorem compute_frame (device : Device) (request : HashApiRequest) :
    (compute device request).Preserves K := by
  refine (hK.backend fun _ hJ => Faulty.preserves_modify fun b => ?_).bind fun _ => ?_
  · exact CudaBackend.setWarpsPerBlock_frame hJ _
  refine (hK.backend fun _ hJ => Faulty.preserves_modify fun b hb => ?_).bind fun _ => ?_
  · exact hJ.settings b _ _ hb
  refine (hK.backend fun _ hJ => CudaBackend.run_frame hJ device).bind fun _ => ?_
  refine (onRunner_frame hK fun _ _ => Runner.finish_frame).bind fun _ => ?_
  refine (hK.backend fun _ hJ => CudaBackend.lastMs_frame hJ fun _ _ =>
    Runner.eventElapsedTime_frame _ _).bind fun _ => ?_
  refine (hK.backend fun _ hJ => CudaBackend.lastMs_frame hJ fun _ _ =>
    Runner.getLastGpuFirstBlockMs_frame).bind fun _ => ?_
  exact hK.backend fun _ hJ => CudaBackend.lastMs_frame hJ fun _ _ =>
    Runner.eventElapsedTime_frame _ _

end CudaHashBackend

end TreeMiner.Gpu

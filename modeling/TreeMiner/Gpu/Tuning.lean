import TreeMiner.Gpu.Request
import TreeMiner.Lib.Binary64

/-!
# The size of a batch (`hashapi/HashApiTuning.cpp`)

A batch is as large as the free memory allows, computed in floating point with a thousandth of
slack. `batches_leave_reserve`: rounded as it is, the batch fits and the reserve stays free.

The rounding is followed operation by operation with a relative error for each (`Binary64`),
and the errors of the whole formula stay below the slack it allows itself. `Leaves` counts the
KiB that a job of the difficulty is taken to need, in exact arithmetic; the selection then
only takes minima, and a sequence of difficulties is sized by its largest member.
-/

namespace TreeMiner.Gpu

def kCudaBatchMemoryReserveBytes : UInt64 := 100 * 1024 * 1024

/-- `TREEMINER_GPU_HIP`, which the build sets. -/
inductive GpuBuild where
  | cuda
  | hip
  deriving DecidableEq

/-- What is kept free. -/
def reserveBytes (build : GpuBuild) (free_memory_bytes reserve_bytes : UInt64) : UInt64 :=
  match build with
  | .cuda => reserve_bytes
  | .hip => max (max reserve_bytes (1024 * 1024 * 1024)) (free_memory_bytes / 16)

def estimateCudaMemoryBatchLimit (build : GpuBuild) (free_memory_bytes : UInt64)
    (difficulty : UInt32) (reserve_bytes : UInt64) : UInt64 :=
  let reserve_bytes := reserveBytes build free_memory_bytes reserve_bytes
  if difficulty = 0 ∨ free_memory_bytes ≤ reserve_bytes then 0
  else
    let available_bytes := (free_memory_bytes - reserve_bytes).toFloat
    let bytes_per_attempt := difficulty.toFloat * 1024.0 * 1.001
    if bytes_per_attempt ≤ 0.0 then 0 else (available_bytes / bytes_per_attempt).toUInt64

def recommendedCudaBatchSize (difficulty : UInt32) : UInt64 :=
  if difficulty ≤ 1 then 2048
  else if difficulty ≤ 8 then 4096
  else if difficulty ≤ 64 then 3072
  else 0

structure CudaBatchSizeDecision where
  memory_limited_batch_size : UInt64 := 0
  tuned_batch_size : UInt64 := 0
  selected_batch_size : UInt64 := 0
  explicit_limit_applied : Bool := false
  tuned_default_applied : Bool := false

def selectCudaBatchSize (build : GpuBuild) (free_memory_bytes : UInt64) (difficulty : UInt32)
    (explicit_max_batch_size : UInt64) : CudaBatchSizeDecision :=
  let limit :=
    estimateCudaMemoryBatchLimit build free_memory_bytes difficulty kCudaBatchMemoryReserveBytes
  let decision : CudaBatchSizeDecision := { memory_limited_batch_size := limit }
  if limit = 0 then decision
  else if explicit_max_batch_size > 0 then
    { decision with
      selected_batch_size := min limit explicit_max_batch_size
      explicit_limit_applied := true }
  else
    let decision := { decision with tuned_batch_size := recommendedCudaBatchSize difficulty }
    if decision.tuned_batch_size > 0 then
      { decision with
        selected_batch_size := min limit decision.tuned_batch_size
        tuned_default_applied := true }
    else { decision with selected_batch_size := limit }

/-- `recommendedCudaBatchSizeForDifficultySequence`, from what is selected so far. -/
def recommendedForSequence (selected : UInt64) : List UInt32 → UInt64
  | [] => selected
  | difficulty :: difficulties =>
    let recommended := recommendedCudaBatchSize difficulty
    if recommended = 0 then 0
    else recommendedForSequence
      (if selected = 0 then recommended else min selected recommended) difficulties

def recommendedCudaBatchSizeForDifficultySequence (difficulties : List UInt32) : UInt64 :=
  recommendedForSequence 0 difficulties

def selectCudaBatchSizeForDifficultySequence (build : GpuBuild) (free_memory_bytes : UInt64)
    (difficulties : List UInt32) (explicit_max_batch_size : UInt64) : CudaBatchSizeDecision :=
  match difficulties with
  | [] => {}
  | difficulty :: rest =>
    let max_difficulty := rest.foldl max difficulty
    let limit := estimateCudaMemoryBatchLimit build free_memory_bytes max_difficulty
      kCudaBatchMemoryReserveBytes
    let decision : CudaBatchSizeDecision := { memory_limited_batch_size := limit }
    if limit = 0 then decision
    else if explicit_max_batch_size > 0 then
      { decision with
        selected_batch_size := min limit explicit_max_batch_size
        explicit_limit_applied := true }
    else
      let decision : CudaBatchSizeDecision := { decision with
        tuned_batch_size := recommendedCudaBatchSizeForDifficultySequence difficulties }
      if decision.tuned_batch_size > 0 then
        { decision with
          selected_batch_size := min limit decision.tuned_batch_size
          tuned_default_applied := true }
      else { decision with selected_batch_size := limit }

theorem toNat_min_le (a b : UInt64) : (min a b).toNat ≤ a.toNat := by
  show (if a ≤ b then a else b).toNat ≤ _
  split
  next => exact Nat.le_refl _
  next h => exact UInt64.le_iff_toNat_le.mp (UInt64.le_of_lt (UInt64.not_le.mp h))

section Fits

open Binary64 Float.Model

/-- The constant 1.001, as it is rounded. -/
theorem slack_value : Binary64.Holds (1.001 : Float) (value 4508103226997866 (-52)) := by
  have hpacked : (1.001 : Float) = .ofModel (.pack (.finite .positive 4508103226997866 (-52)
      (by decide))) := by
    decide
  rw [hpacked]
  exact holds_const ⟨by decide, by decide, by decide, by decide⟩

/-- The constant 1024 is exact in binary64. -/
theorem kibi_value : Binary64.Holds (1024.0 : Float) (value (2 ^ 52) (-42)) := by
  have hpacked : (1024.0 : Float) =
    .ofModel (.pack (.finite .positive (2 ^ 52) (-42) (by decide))) := by
    decide
  rw [hpacked]
  exact holds_const ⟨by decide, by decide, by decide, by decide⟩

/-- The quotient of the source, with every rounding. -/
theorem quotient_fits {a : UInt64} {d : UInt32} (ha : 0 < a.toNat) (hd : 0 < d.toNat) :
    (a.toFloat / (d.toFloat * 1024.0 * 1.001)).toUInt64.toNat * (d.toNat * 1024) ≤ a.toNat := by
  obtain ⟨x, hx, hxa⟩ := uint64_value ha
  obtain ⟨y, hy, hyd⟩ := uint32_value hd
  have ha1 : (1 : ℚ) ≤ a.toNat := by exact_mod_cast ha
  have hd1 : (1 : ℚ) ≤ d.toNat := by exact_mod_cast hd
  have ha64 : (a.toNat : ℚ) ≤ 2 ^ 64 := by exact_mod_cast Nat.le_of_lt a.toNat_lt
  have hd32 : (d.toNat : ℚ) ≤ 2 ^ 32 := by exact_mod_cast Nat.le_of_lt d.toNat_lt
  have hslackHolds := slack_value
  generalize hA : (a.toNat : ℚ) = A at *
  generalize hD : (d.toNat : ℚ) = D at *
  have hkibi : value (2 ^ 52) (-42) = 1024 := by
    unfold value
    norm_num
  have hslack : (1.0009 : ℚ) ≤ value 4508103226997866 (-52) ∧
    value 4508103226997866 (-52) ≤ 2 := by
    unfold value
    norm_num
  obtain ⟨hxlow, hxhigh⟩ := hxa.double (by linarith)
  obtain ⟨hylow, hyhigh⟩ := hyd.double (by linarith)
  -- the first product
  have hy1 : Moderate (y * value (2 ^ 52) (-42)) := by
    rw [hkibi]
    exact moderate_of (by linarith) (by linarith)
  obtain ⟨p, hp, hpy⟩ := mul_value hy kibi_value hy1
  rw [hkibi] at hpy
  obtain ⟨hplow, hphigh⟩ := hpy.double (by linarith)
  -- the second, with a factor of more than 1
  generalize value 4508103226997866 (-52) = c at hslack hslackHolds
  obtain ⟨hc, hc'⟩ := hslack
  have hpc : 256 ≤ p * c := by nlinarith
  have hpc' : p * c ≤ 2 ^ 45 := by nlinarith
  obtain ⟨q, hq, hqp⟩ := mul_value hp hslackHolds (moderate_of (by linarith) (by linarith))
  obtain ⟨hqlow, hqhigh⟩ := hqp.double (by linarith)
  have hq0 : 0 < q := by linarith
  -- the quotient
  have hxq : 1 / 2 ^ 80 ≤ x / q := by
    rw [le_div_iff₀ hq0]
    linarith
  have hxq' : x / q ≤ 2 ^ 80 := by
    rw [div_le_iff₀ hq0]
    linarith
  obtain ⟨r, hr, hrx⟩ := div_value hx hq (moderate_of hxq hxq')
  have hn := toUInt64_le hr
  have hfit : r * (D * 1024) ≤ A := by
    have hv : (0 : ℚ) < 1 - ulp := by
      unfold ulp
      norm_num
    have hw : (0 : ℚ) < 1 + ulp := by
      unfold ulp
      norm_num
    -- the slack is more than what the roundings take away
    have hslack : (1 + ulp) * (1 + ulp) ≤ c * ((1 - ulp) * (1 - ulp) * (1 - ulp)) := by
      refine le_trans ?_ (mul_le_mul_of_nonneg_right hc (by positivity))
      unfold ulp
      norm_num
    have hplow : D * (1 - ulp) * 1024 * (1 - ulp) ≤ p := by
      refine le_trans (mul_le_mul_of_nonneg_right ?_ (le_of_lt hv)) hpy.low
      exact mul_le_mul_of_nonneg_right hyd.low (by norm_num)
    have hqlow : D * 1024 * ((1 + ulp) * (1 + ulp)) ≤ q :=
      calc D * 1024 * ((1 + ulp) * (1 + ulp))
          ≤ D * 1024 * (c * ((1 - ulp) * (1 - ulp) * (1 - ulp))) :=
            mul_le_mul_of_nonneg_left hslack (by linarith)
        _ = D * (1 - ulp) * 1024 * (1 - ulp) * c * (1 - ulp) := by ring
        _ ≤ p * c * (1 - ulp) :=
            mul_le_mul_of_nonneg_right (mul_le_mul_of_nonneg_right hplow (by linarith))
              (le_of_lt hv)
        _ ≤ q := hqp.low
    calc r * (D * 1024)
        ≤ x / q * (1 + ulp) * (D * 1024) := mul_le_mul_of_nonneg_right hrx.high (by linarith)
      _ = x * (D * 1024 * (1 + ulp)) / q := by ring
      _ ≤ A * (1 + ulp) * (D * 1024 * (1 + ulp)) / q := by
          refine div_le_div_of_nonneg_right ?_ (le_of_lt hq0)
          exact mul_le_mul_of_nonneg_right hxa.high (by positivity)
      _ = A * (D * 1024 * ((1 + ulp) * (1 + ulp))) / q := by ring
      _ ≤ A * q / q := by
          refine div_le_div_of_nonneg_right ?_ (le_of_lt hq0)
          exact mul_le_mul_of_nonneg_left hqlow (by linarith)
      _ = A := mul_div_cancel_right₀ A (ne_of_gt hq0)
  have hcast : ((a.toFloat / (d.toFloat * 1024.0 * 1.001)).toUInt64.toNat : ℚ) * (D * 1024) ≤
    A :=
    le_trans (mul_le_mul_of_nonneg_right hn (by linarith)) hfit
  rw [← hA, ← hD] at hcast
  exact_mod_cast hcast

/-- The memory of a batch is no more than what is free without the reserve; no batch for the
difficulty zero. -/
def Leaves (build : GpuBuild) (free_memory_bytes : UInt64) (difficulty : UInt32)
    (reserve_bytes batch : UInt64) :
    Prop :=
  batch = 0 ∨ 0 < difficulty.toNat ∧
    batch.toNat * (difficulty.toNat * 1024) +
        (reserveBytes build free_memory_bytes reserve_bytes).toNat ≤ free_memory_bytes.toNat

variable {build : GpuBuild} {free_memory_bytes reserve_bytes : UInt64} {difficulty : UInt32}

/-- The limit by memory leaves the reserve free. -/
theorem estimate_leaves : Leaves build free_memory_bytes difficulty reserve_bytes
    (estimateCudaMemoryBatchLimit build free_memory_bytes difficulty reserve_bytes) := by
  unfold estimateCudaMemoryBatchLimit
  dsimp only
  split
  next => exact .inl rfl
  next h =>
    rw [not_or, UInt64.not_le] at h
    obtain ⟨hne, hfree⟩ := h
    split
    next => exact .inl rfl
    next =>
      have hd : 0 < difficulty.toNat := Nat.pos_of_ne_zero fun h0 => hne (UInt32.toNat_inj.mp h0)
      have hreserve := UInt64.lt_iff_toNat_lt.mp hfree
      have hsub := UInt64.toNat_sub_of_le _ _ (UInt64.le_of_lt hfree)
      have hquotient := quotient_fits (a := free_memory_bytes -
        reserveBytes build free_memory_bytes reserve_bytes) (by omega) hd
      exact .inr ⟨hd, by omega⟩

/-- A smaller batch leaves as much. -/
theorem Leaves.min {limit : UInt64}
    (h : Leaves build free_memory_bytes difficulty reserve_bytes limit) (batch : UInt64) :
    Leaves build free_memory_bytes difficulty reserve_bytes (min limit batch) := by
  have hle := toNat_min_le limit batch
  rcases h with rfl | ⟨hd, hfits⟩
  · exact .inl (UInt64.toNat_inj.mp (Nat.le_zero.mp hle))
  · exact .inr ⟨hd, (Nat.add_le_add_right (Nat.mul_le_mul_right _ hle) _).trans hfits⟩

/-- The batch for an easier difficulty leaves as much. -/
theorem Leaves.easier {batch : UInt64} {easier : UInt32} (hpos : 0 < easier.toNat)
    (hle : easier.toNat ≤ difficulty.toNat)
    (h : Leaves build free_memory_bytes difficulty reserve_bytes batch) :
    Leaves build free_memory_bytes easier reserve_bytes batch := by
  rcases h with hzero | ⟨-, hfits⟩
  · exact .inl hzero
  · refine .inr ⟨hpos, Nat.le_trans (Nat.add_le_add_right ?_ _) hfits⟩
    exact Nat.mul_le_mul_left _ (Nat.mul_le_mul_right _ hle)

/-- So does the batch that is selected, which is at most that limit. -/
theorem select_leaves (explicit_max_batch_size : UInt64) :
    Leaves build free_memory_bytes difficulty kCudaBatchMemoryReserveBytes
      (selectCudaBatchSize build free_memory_bytes difficulty
        explicit_max_batch_size).selected_batch_size := by
  have hleaves : Leaves build free_memory_bytes difficulty kCudaBatchMemoryReserveBytes _ :=
    estimate_leaves
  unfold selectCudaBatchSize
  dsimp only
  split
  · exact .inl rfl
  split
  · exact hleaves.min _
  split
  · exact hleaves.min _
  · exact hleaves

/-- The batch that is selected fits, and there is none for the difficulty zero. -/
theorem select_fits (build : GpuBuild) (free_memory_bytes : UInt64) (difficulty : UInt32)
    (explicit_max_batch_size : UInt64) :
    let selected := (selectCudaBatchSize build free_memory_bytes difficulty
      explicit_max_batch_size).selected_batch_size
    selected.toNat * (difficulty.toNat * 1024) ≤ free_memory_bytes.toNat ∧
      (selected ≠ 0 → 0 < difficulty.toNat) := by
  intro selected
  rcases @select_leaves build free_memory_bytes difficulty
    explicit_max_batch_size with hzero | ⟨hpos, hfits⟩
  · have hselected : selected = 0 := hzero
    rw [hselected]
    exact ⟨by simp, fun h => absurd rfl h⟩
  · exact ⟨Nat.le_trans (Nat.le_add_right _ _) hfits, fun _ => hpos⟩

/-- The largest difficulty of a sequence is at least each of them. -/
theorem le_foldl_max (difficulties : List UInt32) (start : UInt32) :
    start.toNat ≤ (difficulties.foldl max start).toNat ∧
      ∀ d ∈ difficulties, d.toNat ≤ (difficulties.foldl max start).toNat := by
  induction difficulties generalizing start with
  | nil => exact ⟨Nat.le_refl _, fun _ h => nomatch h⟩
  | cons d ds ih =>
    obtain ⟨hstart, hall⟩ := ih (max start d)
    have hmax : start.toNat ≤ (max start d).toNat ∧ d.toNat ≤ (max start d).toNat := by
      show start.toNat ≤ (if start ≤ d then d else start).toNat ∧
        _ ≤ (if start ≤ d then d else start).toNat
      split
      next h => exact ⟨UInt32.le_iff_toNat_le.mp h, Nat.le_refl _⟩
      next h =>
        exact ⟨Nat.le_refl _, UInt32.le_iff_toNat_le.mp (UInt32.le_of_lt (UInt32.not_le.mp h))⟩
    refine ⟨hmax.1.trans hstart, ?_⟩
    intro d' hd'
    rcases List.mem_cons.mp hd' with rfl | hd'
    · exact hmax.2.trans hstart
    · exact hall d' hd'

/-- Rounded as it is, the batch for a difficulty leaves the reserve free, and the batch for a
sequence of difficulties leaves it free at each of them. -/
theorem batches_leave_reserve (build : GpuBuild) (free_memory_bytes : UInt64)
    (explicit_max_batch_size : UInt64) :
    (∀ difficulty, Leaves build free_memory_bytes difficulty kCudaBatchMemoryReserveBytes
      (selectCudaBatchSize build free_memory_bytes difficulty
        explicit_max_batch_size).selected_batch_size) ∧
    ∀ difficulties : List UInt32, ∀ difficulty ∈ difficulties, 0 < difficulty.toNat →
      Leaves build free_memory_bytes difficulty kCudaBatchMemoryReserveBytes
        (selectCudaBatchSizeForDifficultySequence build free_memory_bytes difficulties
          explicit_max_batch_size).selected_batch_size := by
  refine ⟨fun _ => select_leaves _, ?_⟩
  intro difficulties difficulty hmem hpos
  cases difficulties with
  | nil => cases hmem
  | cons first rest =>
    -- the batch is chosen for the largest difficulty of the list, and a smaller one takes less
    have hle : difficulty.toNat ≤ (rest.foldl max first).toNat := by
      rcases List.mem_cons.mp hmem with rfl | hmem
      · exact (le_foldl_max rest difficulty).1
      · exact (le_foldl_max rest first).2 difficulty hmem
    have hleaves : Leaves build free_memory_bytes
      (rest.foldl max first) kCudaBatchMemoryReserveBytes _ :=
      estimate_leaves
    apply Leaves.easier hpos hle
    unfold selectCudaBatchSizeForDifficultySequence
    dsimp only
    split
    · exact .inl rfl
    split
    · exact hleaves.min _
    split
    · exact hleaves.min _
    · exact hleaves

/-- A device of one GiB and the difficulties 8 and 64, to which both results are applied. -/
theorem batches_leave_reserve_pair :
    (selectCudaBatchSizeForDifficultySequence .cuda 1073741824 [8, 64] 0).selected_batch_size =
      3072 ∧
      Leaves .cuda 1073741824 8 kCudaBatchMemoryReserveBytes
        (selectCudaBatchSizeForDifficultySequence .cuda 1073741824 [8, 64] 0).selected_batch_size :=
  ⟨by decide, (batches_leave_reserve .cuda 1073741824 0).2 [8, 64] 8 (by simp) (by decide)⟩

end Fits

end TreeMiner.Gpu

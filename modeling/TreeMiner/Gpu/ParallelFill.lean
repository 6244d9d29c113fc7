import Mathlib.Data.UInt
import TreeMiner.Gpu.HashBackend
import TreeMiner.Lib.WorkShare

/-!
# Filling the first blocks with several threads (`hashapi/CudaHashBackend.cpp`)

`fillPasswordBlocks` starts threads that take the indices of the passwords in chunks: each its
own, or the next one that `next_dynamic_index.fetch_add` hands out. A thread is in the middle of
a chunk or has returned; its next step is to fill the block it stands at, or to fetch. Every
interleaving is a schedule, a list of threads.

The counter has 64 bits and every thread advances it once more than it gets work. As long as
these last values do not wrap around (`NoWrap`), the threads share the indices as workers share
a supply (`WorkShare`), and the input memory becomes what one loop over the passwords makes of
it.
-/

namespace TreeMiner.Gpu

open Cxx Faults

/-- The arguments of `fillPasswordBlocks`, and what `std::thread::hardware_concurrency` says. -/
structure FillRequest where
  params : Argon2Params
  passwords : List Bytes
  worker_cap : UInt64
  dynamic_chunk_size : UInt64
  hardware_threads : UInt32

/-- The input memory of each job, as `getInputMemory` hands it out; `none` once an exception has
left a fill. -/
abbrev InputMemory := Option (UInt64 → List UInt8)

/-- A thread in its loop from `i` up to `last`, or at its end. -/
inductive FillThread where
  | filling (i last : UInt64)
  | returned
  deriving DecidableEq

/-- The shared counter, the threads, the input memory, and the indices filled so far. -/
structure Filling (W : Nat) where
  next_dynamic_index : UInt64
  threads : Fin W → FillThread
  memory : InputMemory
  filled : List UInt64

/-- `join` has returned for every thread. -/
def Filling.Joined {W : Nat} (s : Filling W) : Prop := ∀ t, s.threads t = .returned

namespace FillRequest

variable (r : FillRequest)

def attempts : UInt64 := UInt64.ofNat r.passwords.length

def workerCount : UInt64 :=
  firstBlockWorkerCount r.hardware_threads.toUInt64 r.attempts r.worker_cap

def chunkSize : UInt64 :=
  firstBlockSelectedChunkSize r.attempts r.workerCount r.dynamic_chunk_size

/-- With one worker there are no chunks. -/
def dynamicChunks : Bool := r.workerCount > 1 && r.dynamic_chunk_size > 0

/-- The first blocks of `passwords[i]`. -/
def firstBlocks (i : UInt64) : Option (List UInt8) :=
  let password := r.passwords.getD i.toNat []
  r.params.fillFirstBlocks (array password) (UInt64.ofNat password.length)

/-- `fillPasswordBlock(backend, params, i, passwords[i])`. -/
def fillPasswordBlock (memory : InputMemory) (i : UInt64) : InputMemory := do
  let memory ← memory
  let blocks ← r.firstBlocks i
  return Function.update memory i blocks

/-- `for (i = 0; i < attempts; ++i)`, in one thread. -/
def oneThread (memory : InputMemory) : InputMemory :=
  ((List.range r.passwords.length).map UInt64.ofNat).foldl r.fillPasswordBlock memory

/-- The loop that launches the threads, from a worker on. A thread that will fetch its chunks
starts with an empty one. -/
def launch : Nat → UInt64 → List FillThread
  | 0, _ => []
  | turns + 1, worker =>
    let static_begin := worker * r.chunkSize
    let static_end := min r.attempts (static_begin + r.chunkSize)
    if !r.dynamicChunks && static_begin ≥ static_end then []
    else
      (if r.dynamicChunks then .filling 0 0 else .filling static_begin static_end) ::
        launch turns (worker + 1)

/-- The threads. With one worker it is the caller that runs the loop. -/
def threads : List FillThread :=
  if r.workerCount ≤ 1 then [.filling 0 r.attempts] else r.launch r.workerCount.toNat 0

def start (memory : InputMemory) : Filling r.threads.length where
  next_dynamic_index := 0
  threads := fun t => r.threads[t]
  memory := memory
  filled := []

/-- The next step of thread `t`: it fills a block, or it fetches a chunk, or it returns. -/
def step {W : Nat} (s : Filling W) (t : Fin W) : Option (Filling W) :=
  match s.threads t with
  | .returned => none
  | .filling i last =>
    if i < last then
      some { s with
        threads := Function.update s.threads t (.filling (i + 1) last)
        memory := r.fillPasswordBlock s.memory i
        filled := s.filled ++ [i] }
    else if r.dynamicChunks then
      let begin := s.next_dynamic_index
      some { s with
        next_dynamic_index := begin + r.chunkSize
        threads := Function.update s.threads t
          (if begin ≥ r.attempts then .returned
          else .filling begin (min r.attempts (begin + r.chunkSize))) }
    else some { s with threads := Function.update s.threads t .returned }

/-- A schedule from the launch of the threads on. -/
def run (memory : InputMemory) (schedule : List (Fin r.threads.length)) :
    Option (Filling r.threads.length) := Steps.run r.step (r.start memory) schedule

/-- The last values of the counter do not wrap around: it is fetched once for each chunk, and
once more by each thread. -/
def NoWrap : Prop :=
  r.dynamicChunks = true →
    ((r.passwords.length + r.chunkSize.toNat - 1) / r.chunkSize.toNat + r.workerCount.toNat - 1) *
      r.chunkSize.toNat < 2 ^ 64

/-! ## Threads as workers -/

/-- The indices from `i` up to `last`. -/
def indices (i last : UInt64) : List Nat := List.range' i.toNat (last.toNat - i.toNat)

/-- What a thread has before it. -/
def jobs : FillThread → Option (List Nat)
  | .filling i last => some (indices i last)
  | .returned => none

/-- What the `k`-th `fetch_add` of a run gets its thread. -/
def source (k : Nat) : Option (List Nat) :=
  if r.dynamicChunks then
    let begin := UInt64.ofNat (k * r.chunkSize.toNat)
    if begin ≥ r.attempts then none
    else some (indices begin (min r.attempts (begin + r.chunkSize)))
  else none

/-- A state of the threads is one of workers: the counter says how often it was fetched. -/
structure Shares {W : Nat} (s : Filling W) (a : WorkShare.State (Fin W) Nat) : Prop where
  next : r.dynamicChunks = true →
    s.next_dynamic_index = UInt64.ofNat (a.asked * r.chunkSize.toNat)
  held : ∀ t, a.held t = jobs (s.threads t)
  log : s.filled.map UInt64.toNat = a.log

/-- A chunk is gone through from its first index to its last. -/
theorem indices_of_lt {i last : UInt64} (h : i < last) :
    indices i last = i.toNat :: indices (i + 1) last := by
  have hlt := UInt64.lt_iff_toNat_lt.mp h
  have hlast : last.toNat < 2 ^ 64 := last.toNat_lt
  have hnext : (i + 1).toNat = i.toNat + 1 := by
    rw [UInt64.toNat_add]
    exact Nat.mod_eq_of_lt (by
      show i.toNat + 1 < 2 ^ 64
      omega)
  unfold indices
  rw [hnext,
    show last.toNat - i.toNat = (last.toNat - (i.toNat + 1)) + 1 by omega, List.range'_succ]

theorem indices_of_ge {i last : UInt64} (h : ¬ i < last) : indices i last = [] := by
  have hge : ¬ i.toNat < last.toNat := fun hlt => h (UInt64.lt_iff_toNat_lt.mpr hlt)
  unfold indices
  rw [Nat.sub_eq_zero_of_le (Nat.not_lt.mp hge), List.range'_zero]

variable {r} {W : Nat} {s : Filling W} {a : WorkShare.State (Fin W) Nat}

/-- A step of a thread is the step of its worker. -/
theorem step_shares (h : r.Shares s a) (t : Fin W) :
    Option.Rel r.Shares (r.step s t) (WorkShare.step r.source a t) := by
  have hheld := h.held t
  have hupdate : ∀ w : FillThread, ∀ j, Function.update a.held t (jobs w) j =
      jobs (Function.update s.threads t w j) := by
    intro w j
    by_cases hj : j = t
    · rw [hj, Function.update_self, Function.update_self]
    · rw [Function.update_of_ne hj, Function.update_of_ne hj]
      exact h.held j
  unfold step
  -- a thread in a chunk fills one index; at its end it asks for the next chunk, or returns
  cases hthread : s.threads t with
  | returned =>
    rw [hthread] at hheld
    unfold WorkShare.step
    rw [hheld]
    exact .none
  | filling i last =>
    rw [hthread] at hheld
    dsimp only
    by_cases hi : i < last
    · rw [if_pos hi]
      have hjob : a.held t = some (i.toNat :: indices (i + 1) last) := by
        rw [hheld, ← indices_of_lt hi]
        rfl
      rw [WorkShare.step_job r.source hjob]
      refine .some ⟨h.next, hupdate (.filling (i + 1) last), ?_⟩
      rw [List.map_append, h.log]
      rfl
    · rw [if_neg hi]
      have hask : a.held t = some [] := by
        rw [hheld, ← indices_of_ge hi]
        rfl
      rw [WorkShare.step_ask hask]
      by_cases hdyn : r.dynamicChunks = true
      · rw [if_pos hdyn]
        have hnext := h.next hdyn
        have hsource : r.source a.asked =
          jobs (if s.next_dynamic_index ≥ r.attempts then .returned
            else .filling s.next_dynamic_index
              (min r.attempts (s.next_dynamic_index + r.chunkSize))) := by
          unfold source
          rw [if_pos hdyn, ← hnext]
          dsimp only
          split <;> rfl
        rw [hsource]
        refine .some ⟨fun _ => ?_, hupdate _, h.log⟩
        show s.next_dynamic_index + r.chunkSize = _
        rw [hnext, Nat.succ_mul, UInt64.ofNat_add, UInt64.ofNat_toNat]
      · rw [if_neg hdyn]
        have hsource : r.source a.asked = jobs .returned := if_neg hdyn
        rw [hsource]
        exact .some ⟨fun hd => absurd hd hdyn, hupdate _, h.log⟩

/-! ## The chunks -/

/-- Chunk `k` of `n` indices. -/
def piece (n c k : Nat) : List Nat := List.range' (k * c) (min n (k * c + c) - k * c)

/-- A chunk continues where the chunks before it end. -/
theorem range_piece (n c k : Nat) :
    List.range (min n (k * c)) ++ piece n c k = List.range (min n ((k + 1) * c)) := by
  have hsucc : (k + 1) * c = k * c + c := Nat.succ_mul k c
  unfold piece
  rw [hsucc, List.range_eq_range', List.range_eq_range']
  by_cases h : k * c ≤ n
  · have hmid : min n (k * c) = k * c := Nat.min_eq_right h
    have hend : min n (k * c + c) = k * c + (min n (k * c + c) - k * c) := by omega
    rw [hmid]
    nth_rewrite 2 [hend]
    have happend := @List.range'_append_1 0 (k * c) (min n (k * c + c) - k * c)
    rwa [Nat.zero_add] at happend
  · have hnone : min n (k * c + c) - k * c = 0 := by omega
    rw [hnone, List.range'_zero, List.append_nil, Nat.min_eq_left (by omega),
      Nat.min_eq_left (by omega)]

/-- The first `m` chunks. -/
theorem sum_pieces (n c m : Nat) :
    ∑ k ∈ Finset.range m, (piece n c k : Multiset Nat) =
      (List.range (min n (m * c)) : Multiset Nat) := by
  induction m with
  | zero =>
    rw [Nat.zero_mul, Nat.min_zero]
    rfl
  | succ m ih =>
    rw [Finset.sum_range_succ, ih, Multiset.coe_add, range_piece]

theorem toNat_min (a b : UInt64) : (min a b).toNat = min a.toNat b.toNat := by
  by_cases hle : a ≤ b
  · have hnat := UInt64.le_iff_toNat_le.mp hle
    rw [show min a b = a from if_pos hle, Nat.min_eq_left hnat]
  · have hnat : ¬ a.toNat ≤ b.toNat := fun h => hle (UInt64.le_iff_toNat_le.mpr h)
    rw [show min a b = b from if_neg hle, Nat.min_eq_right (by omega)]

theorem toNat_max (a b : UInt64) : (max a b).toNat = max a.toNat b.toNat := by
  by_cases hle : a ≤ b
  · have hnat := UInt64.le_iff_toNat_le.mp hle
    rw [show max a b = b from if_pos hle, Nat.max_eq_right hnat]
  · have hnat : ¬ a.toNat ≤ b.toNat := fun h => hle (UInt64.le_iff_toNat_le.mpr h)
    rw [show max a b = a from if_neg hle, Nat.max_eq_left (by omega)]

section Sizes

variable (r)

/-- Where there is more than one worker, there are at least eight passwords, and no more workers
than passwords or hardware threads. -/
theorem worker_count_le (h : r.workerCount > 1) :
    8 ≤ r.attempts.toNat ∧ 2 ≤ r.workerCount.toNat ∧
      r.workerCount.toNat ≤ r.attempts.toNat ∧ r.workerCount.toNat < 2 ^ 32 := by
  have hone : ¬ (1 : UInt64) > 1 := by decide
  have h2 : 2 ≤ r.workerCount.toNat := UInt64.lt_iff_toNat_lt.mp h
  have hthreads : r.hardware_threads.toUInt64.toNat < 2 ^ 32 := by
    rw [UInt32.toNat_toUInt64]
    exact r.hardware_threads.toNat_lt
  unfold workerCount firstBlockWorkerCount at h h2 ⊢
  by_cases hfew : r.attempts < kMinParallelFirstBlockAttempts
  · rw [if_pos hfew] at h
    exact absurd h hone
  · rw [if_neg hfew] at h h2 ⊢
    by_cases hhw : r.hardware_threads.toUInt64 < 2
    · rw [if_pos hhw] at h
      exact absurd h hone
    · have hmany : 8 ≤ r.attempts.toNat :=
        Nat.not_lt.mp fun hlt => hfew (UInt64.lt_iff_toNat_lt.mpr hlt)
      have h1 : (1 : UInt64).toNat = 1 := rfl
      rw [if_neg hhw] at h2 ⊢
      dsimp only at h2 ⊢
      by_cases hcap : r.worker_cap > 0
      · rw [if_pos hcap, toNat_max, toNat_min, toNat_min, h1] at h2 ⊢
        omega
      · rw [if_neg hcap, toNat_max, toNat_min, h1] at h2 ⊢
        omega

/-- Chunks are handed out only to more than one worker. -/
theorem dynamic_iff :
    r.dynamicChunks = true ↔ r.workerCount > 1 ∧ r.dynamic_chunk_size > 0 := by
  unfold dynamicChunks
  rw [Bool.and_eq_true, decide_eq_true_eq, decide_eq_true_eq]

/-- A dynamic chunk has at least one index, and no more than there are. -/
theorem chunk_size_dynamic (h : r.dynamicChunks = true) :
    1 ≤ r.chunkSize.toNat ∧ r.chunkSize.toNat ≤ r.attempts.toNat := by
  obtain ⟨hcount, hdyn⟩ := r.dynamic_iff.mp h
  obtain ⟨hmany, htwo, -, -⟩ := r.worker_count_le hcount
  have hpos : 0 < r.dynamic_chunk_size.toNat := UInt64.lt_iff_toNat_lt.mp hdyn
  have hne : ¬ (r.attempts = 0 ∨ r.workerCount = 0) := by
    intro h
    cases h with
    | inl h =>
      rw [h] at hmany
      exact absurd hmany (by decide)
    | inr h =>
      rw [h] at htwo
      exact absurd htwo (by decide)
  unfold chunkSize firstBlockSelectedChunkSize
  rw [if_neg hne, if_pos ⟨hdyn, hcount⟩, toNat_min]
  omega

/-- Static chunks, one for each worker, reach to the last index. -/
theorem chunk_size_static (hn : r.attempts.toNat < 2 ^ 63) (hcount : r.workerCount > 1)
    (h : ¬ r.dynamicChunks = true) :
    1 ≤ r.chunkSize.toNat ∧ r.attempts.toNat ≤ r.workerCount.toNat * r.chunkSize.toNat ∧
      r.workerCount.toNat * r.chunkSize.toNat < r.attempts.toNat + r.workerCount.toNat := by
  obtain ⟨hmany, htwo, hle, hlt⟩ := r.worker_count_le hcount
  have hdyn : ¬ (r.dynamic_chunk_size > 0 ∧ r.workerCount > 1) :=
    fun hd => h (r.dynamic_iff.mpr ⟨hcount, hd.1⟩)
  have hne : ¬ (r.attempts = 0 ∨ r.workerCount = 0) := by
    intro h
    cases h with
    | inl h =>
      rw [h] at hmany
      exact absurd hmany (by decide)
    | inr h =>
      rw [h] at htwo
      exact absurd htwo (by decide)
  -- the size is the quotient rounded up, so the chunks reach over all attempts and not a whole one
  -- too far
  have hsize : r.chunkSize.toNat =
      (r.attempts.toNat + r.workerCount.toNat - 1) / r.workerCount.toNat := by
    have hsum : (r.attempts + r.workerCount).toNat = r.attempts.toNat + r.workerCount.toNat := by
      rw [UInt64.toNat_add]
      exact Nat.mod_eq_of_lt (by omega)
    have hsub : (r.attempts + r.workerCount - 1).toNat =
        r.attempts.toNat + r.workerCount.toNat - 1 := by
      rw [UInt64.toNat_sub_of_le, hsum]
      · rfl
      · rw [UInt64.le_iff_toNat_le, hsum]
        show 1 ≤ _
        omega
    unfold chunkSize firstBlockSelectedChunkSize
    rw [if_neg hne, if_neg hdyn]
    unfold firstBlockChunkSize
    rw [if_neg hne, UInt64.toNat_div, hsub]
  have hpos : 0 < r.workerCount.toNat := by omega
  have hdiv := Nat.div_add_mod (r.attempts.toNat + r.workerCount.toNat - 1) r.workerCount.toNat
  have hmod := Nat.mod_lt (r.attempts.toNat + r.workerCount.toNat - 1) hpos
  rw [← hsize] at hdiv
  refine ⟨?_, by omega, by omega⟩
  rw [hsize]
  exact (Nat.one_le_div_iff hpos).mpr (by omega)

end Sizes

/-! ## What there is to share -/

/-- How many chunks the counter hands out. -/
def chunks (r : FillRequest) : Nat :=
  if r.dynamicChunks then (r.passwords.length + r.chunkSize.toNat - 1) / r.chunkSize.toNat else 0

section Sharing

variable (hn : r.passwords.length < 2 ^ 63)
include hn

/-- One attempt for each password. -/
theorem toNat_attempts : r.attempts.toNat = r.passwords.length :=
  UInt64.toNat_ofNat_of_lt' (show r.passwords.length < 2 ^ 64 by omega)

/-- As long as the counter has not wrapped around, its `k`-th value starts chunk `k`. -/
theorem source_piece (hdyn : r.dynamicChunks = true) {k : Nat}
    (hk : k * r.chunkSize.toNat < 2 ^ 64) :
    r.source k =
      if r.passwords.length ≤ k * r.chunkSize.toNat then none
      else some (piece r.passwords.length r.chunkSize.toNat k) := by
  have hbegin : (UInt64.ofNat (k * r.chunkSize.toNat)).toNat = k * r.chunkSize.toNat :=
    UInt64.toNat_ofNat_of_lt' hk
  obtain ⟨-, hle⟩ := r.chunk_size_dynamic hdyn
  rw [toNat_attempts hn] at hle
  unfold source
  rw [if_pos hdyn]
  dsimp only
  by_cases hend : r.passwords.length ≤ k * r.chunkSize.toNat
  · rw [if_pos hend, if_pos]
    rw [ge_iff_le, UInt64.le_iff_toNat_le, hbegin, toNat_attempts hn]
    exact hend
  · have hsum : (UInt64.ofNat (k * r.chunkSize.toNat) + r.chunkSize).toNat =
        k * r.chunkSize.toNat + r.chunkSize.toNat := by
      rw [UInt64.toNat_add, hbegin]
      exact Nat.mod_eq_of_lt (by omega)
    rw [if_neg hend, if_neg]
    · unfold indices piece
      rw [toNat_min, hsum, hbegin, toNat_attempts hn]
    · rw [ge_iff_le, UInt64.le_iff_toNat_le, hbegin, toNat_attempts hn]
      exact hend

omit hn in
/-- The chunks reach to the last index, and not further. -/
theorem lt_chunks_iff (hdyn : r.dynamicChunks = true) (k : Nat) :
    k < r.chunks ↔ k * r.chunkSize.toNat < r.passwords.length := by
  obtain ⟨hpos, -⟩ := r.chunk_size_dynamic hdyn
  unfold chunks
  rw [if_pos hdyn, ← Nat.succ_le_iff, Nat.le_div_iff_mul_le hpos, Nat.succ_mul]
  omega

/-- The shared counter hands out every chunk once, as long as it does not wrap. -/
theorem supply (hwrap : r.NoWrap) (hdyn : r.dynamicChunks = true) :
    WorkShare.Supply r.source r.chunks r.workerCount.toNat where
  given := by
    intro k hk
    have hlt := (lt_chunks_iff hdyn k).mp hk
    rw [source_piece hn hdyn (by omega), if_neg (by omega)]
    rfl
  dry := by
    intro k hk hlast
    have hge : ¬ k * r.chunkSize.toNat < r.passwords.length :=
      fun hlt => absurd ((lt_chunks_iff hdyn k).mpr hlt) (Nat.not_lt.mpr hk)
    have hmax : k * r.chunkSize.toNat < 2 ^ 64 := by
      refine Nat.lt_of_le_of_lt (Nat.mul_le_mul_right _ ?_) (hwrap hdyn)
      have hchunks : r.chunks =
          (r.passwords.length + r.chunkSize.toNat - 1) / r.chunkSize.toNat := if_pos hdyn
      omega
    rw [source_piece hn hdyn hmax, if_pos (Nat.not_lt.mp hge)]

/-- The launching loop, where each thread has its own chunk: what the threads from a worker on
have before them, up to the break at the first empty chunk. -/
theorem sum_launch (hcount : r.workerCount > 1) (hdyn : ¬ r.dynamicChunks = true) :
    ∀ turns k, k + turns = r.workerCount.toNat →
      (List.range (min r.passwords.length (k * r.chunkSize.toNat)) : Multiset Nat) +
          ((r.launch turns (UInt64.ofNat k)).map fun t => WorkShare.jobsOf (jobs t)).sum =
        (List.range r.passwords.length : Multiset Nat)
  | 0, k, hk => by
    obtain ⟨-, hreach, -⟩ :=
  r.chunk_size_static (by rw [toNat_attempts hn]; exact hn) hcount hdyn
    rw [toNat_attempts hn] at hreach
    rw [Nat.add_zero] at hk
    rw [hk, Nat.min_eq_left hreach]
    exact add_zero _
  | turns + 1, k, hk => by
    obtain ⟨hpos, hreach, hlt⟩ :=
      r.chunk_size_static (by rw [toNat_attempts hn]; exact hn) hcount hdyn
    obtain ⟨-, -, hle, hcount32⟩ := r.worker_count_le hcount
    rw [toNat_attempts hn] at hreach hlt hle
    have hk64 : (UInt64.ofNat k).toNat = k := UInt64.toNat_ofNat_of_lt' (show k < 2 ^ 64 by omega)
    have hmono : k * r.chunkSize.toNat + r.chunkSize.toNat ≤
        r.workerCount.toNat * r.chunkSize.toNat := by
      rw [← Nat.succ_mul]
      exact Nat.mul_le_mul_right _ (by omega)
    have hbegin : (UInt64.ofNat k * r.chunkSize).toNat = k * r.chunkSize.toNat := by
      rw [UInt64.toNat_mul, hk64]
      exact Nat.mod_eq_of_lt (by omega)
    have hend : (min r.attempts (UInt64.ofNat k * r.chunkSize + r.chunkSize)).toNat =
        min r.passwords.length (k * r.chunkSize.toNat + r.chunkSize.toNat) := by
      have hsum : (UInt64.ofNat k * r.chunkSize + r.chunkSize).toNat =
          k * r.chunkSize.toNat + r.chunkSize.toNat := by
        rw [UInt64.toNat_add, hbegin]
        exact Nat.mod_eq_of_lt (by omega)
      rw [toNat_min, hsum, toNat_attempts hn]
    have hfalse : r.dynamicChunks = false := Bool.not_eq_true _ ▸ hdyn
    unfold launch
    dsimp only
    rw [hfalse, Bool.not_false, Bool.true_and]
    by_cases hempty : UInt64.ofNat k * r.chunkSize ≥
        min r.attempts (UInt64.ofNat k * r.chunkSize + r.chunkSize)
    · -- the break: the chunks before have taken every index
      have hnat := UInt64.le_iff_toNat_le.mp hempty
      rw [hend, hbegin] at hnat
      rw [if_pos (decide_eq_true hempty), Nat.min_eq_left (by omega)]
      exact add_zero _
    -- one chunk more, which begins where those before it end
    · rw [if_neg (by rwa [decide_eq_true_eq])]
      have hrest := sum_launch hcount hdyn turns (k + 1) (by omega)
      have hpiece : WorkShare.jobsOf (jobs (.filling (UInt64.ofNat k * r.chunkSize)
          (min r.attempts (UInt64.ofNat k * r.chunkSize + r.chunkSize)))) =
          (piece r.passwords.length r.chunkSize.toNat k : Multiset Nat) := by
        show (indices _ _ : Multiset Nat) = _
        unfold indices piece
        rw [hend, hbegin]
      rw [← range_piece, ← Multiset.coe_add, add_assoc, UInt64.ofNat_add] at hrest
      rw [List.map_cons, List.sum_cons]
      simp only [Bool.false_eq_true, if_false]
      rw [hpiece]
      exact hrest

omit hn in
/-- With chunks to hand out every thread starts with none. -/
theorem launch_dynamic (hdyn : r.dynamicChunks = true) :
    ∀ turns worker, r.launch turns worker = List.replicate turns (.filling 0 0)
  | 0, _ => rfl
  | turns + 1, worker => by
    unfold launch
    rw [hdyn, launch_dynamic hdyn turns]
    rfl

omit hn in
theorem threads_dynamic (hdyn : r.dynamicChunks = true) :
    r.threads = List.replicate r.workerCount.toNat (.filling 0 0) := by
  have hcount := (r.dynamic_iff.mp hdyn).1
  have hmany : ¬ r.workerCount ≤ 1 := UInt64.not_le.mpr hcount
  unfold threads
  rw [if_neg hmany, launch_dynamic hdyn]

omit hn in
theorem chunks_static (hdyn : ¬ r.dynamicChunks = true) : r.chunks = 0 := if_neg hdyn

/-- What the threads have before them, and what the counter will hand out, is every index
once. -/
theorem all_indices :
    ((r.threads.map fun t => WorkShare.jobsOf (jobs t)).sum +
      ∑ k ∈ Finset.range r.chunks, WorkShare.jobsOf (r.source k)) =
      (List.range r.passwords.length : Multiset Nat) := by
  by_cases hdyn : r.dynamicChunks = true
  · have hnone : ((r.threads.map fun t => WorkShare.jobsOf (jobs t)).sum : Multiset Nat) = 0 := by
      rw [threads_dynamic hdyn, List.map_replicate, List.sum_replicate]
      exact nsmul_zero _
    have hpieces : ∀ k ∈ Finset.range r.chunks, WorkShare.jobsOf (r.source k) =
        (piece r.passwords.length r.chunkSize.toNat k : Multiset Nat) := by
      intro k hk
      have hlt := (lt_chunks_iff hdyn k).mp (Finset.mem_range.mp hk)
      rw [source_piece hn hdyn (by omega), if_neg (by omega)]
      rfl
    have hlast : r.passwords.length ≤ r.chunks * r.chunkSize.toNat :=
      Nat.not_lt.mp fun hlt => Nat.lt_irrefl _ ((lt_chunks_iff hdyn _).mpr hlt)
    rw [hnone, zero_add, Finset.sum_congr rfl hpieces, sum_pieces, Nat.min_eq_left hlast]
  · rw [chunks_static hdyn, Finset.range_zero, Finset.sum_empty, add_zero]
    by_cases hcount : r.workerCount > 1
    · have hmany : ¬ r.workerCount ≤ 1 := UInt64.not_le.mpr hcount
      have hall := sum_launch hn hcount hdyn r.workerCount.toNat 0 (Nat.zero_add _)
      rw [Nat.zero_mul, Nat.min_zero] at hall
      unfold threads
      rw [if_neg hmany]
      exact (zero_add _).symm.trans hall
    · have hone : r.workerCount ≤ 1 := UInt64.not_lt.mp hcount
      unfold threads
      rw [if_pos hone, List.map_singleton, List.sum_singleton, List.range_eq_range',
        ← toNat_attempts hn]
      rfl

/-- With or without chunks to hand out, the shared source supplies every thread. -/
theorem supply_threads (hwrap : r.NoWrap) :
    WorkShare.Supply r.source r.chunks (Fintype.card (Fin r.threads.length)) := by
  rw [Fintype.card_fin]
  by_cases hdyn : r.dynamicChunks = true
  · rw [threads_dynamic hdyn, List.length_replicate]
    exact supply hn hwrap hdyn
  · rw [chunks_static hdyn]
    refine ⟨fun k hk => ?_, fun k _ _ => if_neg hdyn⟩
    cases hk

omit hn in
/-- Every thread starts in its loop. -/
theorem threads_busy : ∀ t ∈ r.threads, jobs t ≠ none := by
  have hlaunch : ∀ turns worker, ∀ t ∈ r.launch turns worker, jobs t ≠ none := by
    intro turns
    induction turns with
    | zero =>
      intro worker t ht
      cases ht
    | succ turns ih =>
      intro worker t ht
      unfold launch at ht
      dsimp only at ht
      split at ht
      · cases ht
      · cases ht with
        | head => split <;> exact Option.some_ne_none _
        | tail _ ht => exact ih _ t ht
  intro t ht
  unfold threads at ht
  split at ht
  · rw [List.mem_singleton.mp ht]
    exact Option.some_ne_none _
  · exact hlaunch _ _ t ht

/-- There is a thread: the first static chunk is not empty. -/
theorem threads_ne_nil : r.threads ≠ [] := by
  unfold threads
  by_cases hcount : r.workerCount > 1
  · obtain ⟨hmany, htwo, -, -⟩ := r.worker_count_le hcount
    rw [if_neg (UInt64.not_le.mpr hcount)]
    obtain ⟨turns, hturns⟩ := Nat.exists_eq_add_of_le' (Nat.le_of_succ_le htwo)
    by_cases hdyn : r.dynamicChunks = true
    · rw [launch_dynamic hdyn, hturns]
      exact List.cons_ne_nil _ _
    · obtain ⟨hpos, -, -⟩ :=
        r.chunk_size_static (by rw [toNat_attempts hn]; exact hn) hcount hdyn
      have hfalse : r.dynamicChunks = false := Bool.not_eq_true _ ▸ hdyn
      have hfull : ¬ 0 * r.chunkSize ≥ min r.attempts (0 * r.chunkSize + r.chunkSize) := by
        rw [UInt64.zero_mul, UInt64.zero_add, ge_iff_le, UInt64.le_iff_toNat_le, toNat_min]
        show ¬ min r.attempts.toNat r.chunkSize.toNat ≤ 0
        omega
      rw [hturns]
      unfold launch
      dsimp only
      rw [hfalse, Bool.not_false, Bool.true_and, if_neg (by rwa [decide_eq_true_eq])]
      exact List.cons_ne_nil _ _
  · rw [if_pos (UInt64.not_lt.mp hcount)]
    exact List.cons_ne_nil _ _

end Sharing

/-! ## The input memory -/

section Memory

variable (r)

/-- Nothing is filled in once a fill has failed. -/
theorem fillPasswordBlock_none (i : UInt64) : r.fillPasswordBlock none i = none := by
  unfold fillPasswordBlock
  rw [Option.bind_eq_bind, Option.bind_none]

theorem foldl_none (is : List UInt64) : is.foldl r.fillPasswordBlock none = none := by
  induction is with
  | nil => rfl
  | cons i is ih => rw [List.foldl_cons, fillPasswordBlock_none, ih]

/-- A fill, by the blocks of its password. -/
theorem fillPasswordBlock_eq (memory : UInt64 → List UInt8) (i : UInt64) :
    r.fillPasswordBlock (some memory) i = (r.firstBlocks i).map (Function.update memory i) := by
  unfold fillPasswordBlock
  rw [Option.bind_eq_bind, Option.bind_some]
  cases r.firstBlocks i with
  | none => rfl
  | some blocks => rfl

/-- Different jobs have different memory: their order does not matter. -/
theorem fillPasswordBlock_comm (memory : InputMemory) (i j : UInt64) :
    r.fillPasswordBlock (r.fillPasswordBlock memory i) j =
      r.fillPasswordBlock (r.fillPasswordBlock memory j) i := by
  by_cases hij : i = j
  · rw [hij]
  · cases memory with
    | none => simp only [fillPasswordBlock_none]
    | some memory =>
      rw [r.fillPasswordBlock_eq memory i, r.fillPasswordBlock_eq memory j]
      cases hfirst : r.firstBlocks i with
      | none =>
        cases hsecond : r.firstBlocks j with
        | none => simp only [Option.map_none, fillPasswordBlock_none]
        | some second =>
          simp only [Option.map_none, Option.map_some, fillPasswordBlock_none,
            fillPasswordBlock_eq, hfirst]
      | some first =>
        cases hsecond : r.firstBlocks j with
        | none =>
          simp only [Option.map_none, Option.map_some, fillPasswordBlock_none,
            fillPasswordBlock_eq, hsecond]
        | some second =>
          simp only [Option.map_some, fillPasswordBlock_eq, hfirst, hsecond]
          rw [Function.update_comm hij]

/-- The memory is what the fills so far have made of it. -/
theorem run_memory {memory : InputMemory} {schedule : List (Fin r.threads.length)}
    {s : Filling r.threads.length} (hr : r.run memory schedule = some s) :
    s.memory = s.filled.foldl r.fillPasswordBlock memory := by
  refine Steps.run_invariant (I := fun _ s => s.memory = s.filled.foldl r.fillPasswordBlock memory)
    rfl ?_ hr
  intro _ s₁ t s₂ _ hs hstep
  unfold step at hstep
  cases hthread : s₁.threads t with
  | returned =>
    rw [hthread] at hstep
    cases hstep
  | filling i last =>
    rw [hthread] at hstep
    dsimp only at hstep
    by_cases hi : i < last
    · rw [if_pos hi] at hstep
      cases hstep
      rw [List.foldl_append, ← hs]
      rfl
    · rw [if_neg hi] at hstep
      split at hstep
      · cases hstep
        exact hs
      · cases hstep
        exact hs

/-- What one thread leaves, when nothing throws: each job its first blocks, and the memory of
other jobs as it was. -/
theorem fold_memory {before : UInt64 → List UInt8} {is : List UInt64}
    {after : UInt64 → List UInt8} (h : is.foldl r.fillPasswordBlock (some before) = some after) :
    (∀ i ∈ is, r.firstBlocks i = some (after i)) ∧ ∀ i, i ∉ is →
      after i = before i := by
  induction is using List.reverseRecOn generalizing after with
  | nil =>
    cases h
    refine ⟨?_, fun _ _ => rfl⟩
    intro i hi
    cases hi
  | append_singleton is j ih =>
    rw [List.foldl_append, List.foldl_cons, List.foldl_nil] at h
    cases hmid : is.foldl r.fillPasswordBlock (some before) with
    | none =>
      rw [hmid, fillPasswordBlock_none] at h
      cases h
    | some mid =>
      rw [hmid, fillPasswordBlock_eq] at h
      obtain ⟨blocks, hblocks, hafter⟩ := Option.map_eq_some_iff.mp h
      obtain ⟨hin, hout⟩ := ih hmid
      refine ⟨fun i hi => ?_, fun i hi => ?_⟩
      · by_cases hij : i = j
        · rw [← hafter, hij, Function.update_self]
          exact hblocks
        · have hi' : i ∈ is := by
            rw [List.mem_append, List.mem_singleton] at hi
            exact hi.resolve_right hij
          rw [← hafter, Function.update_of_ne hij]
          exact hin i hi'
      · rw [List.mem_append, List.mem_singleton, not_or] at hi
        rw [← hafter, Function.update_of_ne hi.2]
        exact hout i hi.1

/-! ### In the bytes of a runner -/

/-- The input memory of a job, where `getInputMemory` points. -/
def jobMemory (m : Ptr) (j : UInt64) : List UInt8 := bytesAt (m.advance (j.toNat * 2048)) 2048

/-- The blocks of one job are written, and no others. -/
theorem bytesAt_copyAt_job (m : Ptr) {blocks : List UInt8} (hblocks : blocks.length = 2048)
    (i j : Nat) :
    bytesAt (Ptr.advance (copyAt m (i * 2048) (array blocks) blocks.length) (j * 2048)) 2048 =
      if j = i then blocks else bytesAt (m.advance (j * 2048)) 2048 := by
  by_cases hij : j = i
  · rw [if_pos hij, hij]
    have hcopy : bytesAt
      (Ptr.advance (copyAt m (i * 2048) (array blocks) blocks.length) (i * 2048)) 2048 =
        bytesAt (array blocks) blocks.length := by
      rw [← hblocks]
      refine List.map_congr_left fun b hb => ?_
      have hlt : b < blocks.length := List.mem_range.mp hb
      unfold Ptr.advance copyAt
      rw [if_pos (by omega), Nat.add_sub_cancel_left]
    rw [hcopy, bytesAt_array (Nat.le_refl _), List.take_length]
  · rw [if_neg hij]
    refine List.map_congr_left fun b hb => ?_
    have hlt : b < 2048 := List.mem_range.mp hb
    unfold Ptr.advance copyAt
    rw [if_neg (by omega)]

/-- A fill changes the memory of its own job only. -/
theorem jobMemory_copyAt (m : Ptr) {blocks : List UInt8} (hblocks : blocks.length = 2048)
    (i j : UInt64) :
    jobMemory (copyAt m (i.toNat * 2048) (array blocks) blocks.length) j =
      Function.update (jobMemory m) i blocks j := by
  unfold jobMemory
  rw [bytesAt_copyAt_job m hblocks, Function.update_apply]
  by_cases hij : j = i
  · rw [if_pos hij, if_pos (congrArg UInt64.toNat hij)]
  · rw [if_neg hij, if_neg fun h => hij (UInt64.toNat_inj.mp h)]

/-- The host's initial hash has 64 bytes. -/
theorem length_hostHash (p : Argon2Params) {pwd : Ptr} {pwdLen : UInt64} {hash : List UInt8}
    (h : p.initialHash pwd pwdLen = some hash) : hash.length = 64 := by
  have hfinal : ∀ s, (Blake2b.final s 64#64).2.length = 64 := by
    intro s
    unfold Blake2b.final
    rw [if_pos (show 64#64 = 64 from rfl)]
    exact Blake2.length_output _
  unfold Argon2Params.initialHash at h
  by_cases hnone : p.secretLen = 0 ∧ p.adLen = 0
  · rw [if_pos hnone, Option.bind_eq_bind, Option.bind_eq_some_iff] at h
    obtain ⟨salt, -, h⟩ := h
    rw [← Option.some.inj h]
    exact hfinal _
  · rw [if_neg hnone, Option.bind_eq_bind, Option.bind_eq_some_iff] at h
    obtain ⟨salt, -, h⟩ := h
    rw [← Option.some.inj h]
    exact hfinal _

/-- One lane has two blocks of 1024 bytes. -/
theorem length_fillFirstBlocks {p : Argon2Params} (hlanes : p.lanes = 1) {pwd : Ptr}
    {pwdLen : UInt64} {blocks : List UInt8} (h : p.fillFirstBlocks pwd pwdLen = some blocks) :
    blocks.length = 2048 := by
  unfold Argon2Params.fillFirstBlocks at h
  rw [Option.bind_eq_bind, Option.bind_eq_some_iff] at h
  obtain ⟨initHash, hinit, h⟩ := h
  have hseed : initHash.length = 64 := length_hostHash p hinit
  have hlane : ∀ i, (Argon2Params.fillLanes initHash i p.lanes).length = 1024 := by
    intro i
    unfold Argon2Params.fillLanes
    rw [hlanes, show (1 : UInt32).toNat = 1 from rfl, List.range_one, List.flatMap_singleton,
      digestLong_eq _ (by simp [hseed, store32_eq, Argon2.length_le32])]
    exact Argon2.length_longHash 1024 _
  rw [← Option.some.inj h, List.length_append, hlane, hlane]

/-- The loop of the backend fills the input memory of a runner as one thread does here: it throws
where that throws, and otherwise leaves each job its blocks. -/
theorem fillPasswordBlocks_runs (hlanes : r.params.lanes = 1)
    (hfits : r.passwords.length * 2048 ≤ 2 ^ 64) {R : Runner} {size : Nat} {as : Answers Ptr}
    (rest : List Bytes) {k : Nat} {m : Ptr} {before : UInt64 → List UInt8}
    (hdrop : r.passwords.drop k = rest)
    (hm : ∀ j, j.toNat < r.passwords.length → jobMemory m j = before j) :
    match ((List.range' k rest.length).map UInt64.ofNat).foldl r.fillPasswordBlock
      (some before) with
    | some after => ∃ m',
      CudaHashBackend.fillPasswordBlocks r.params (UInt64.ofNat k) rest
          { R with blocksIn := some ⟨size, m⟩ } as =
        (some (), { R with blocksIn := some ⟨size, m'⟩ }, as) ∧
      ∀ j, j.toNat < r.passwords.length → jobMemory m' j = after j
    | none =>
      (CudaHashBackend.fillPasswordBlocks r.params (UInt64.ofNat k) rest
        { R with blocksIn := some ⟨size, m⟩ } as).1 = none := by
  -- along the passwords that are left; the memory agrees with what is filled in so far
  induction rest generalizing k m before with
  | nil => exact ⟨m, rfl, hm⟩
  | cons password rest ih =>
    have hk : k < r.passwords.length := by
      by_contra hge
      rw [List.drop_of_length_le (Nat.not_lt.mp hge)] at hdrop
      cases hdrop
    have hk64 : (UInt64.ofNat k).toNat = k := UInt64.toNat_ofNat_of_lt' (show k < 2 ^ 64 by omega)
    rw [List.drop_eq_getElem_cons hk] at hdrop
    obtain ⟨hpassword, hrest⟩ := List.cons.inj hdrop
    have haddress : (UInt64.ofNat k * (1 * 2 * 1024)).toNat = (UInt64.ofNat k).toNat * 2048 := by
      rw [UInt64.toNat_mul, hk64]
      show k * 2048 % 2 ^ 64 = k * 2048
      exact Nat.mod_eq_of_lt (by omega)
    have hfirst : r.firstBlocks (UInt64.ofNat k) =
        r.params.fillFirstBlocks (array password) (UInt64.ofNat password.length) := by
      unfold firstBlocks
      rw [hk64, List.getD_eq_getElem?_getD, List.getElem?_eq_getElem hk, Option.getD_some,
        hpassword]
    have hnext : UInt64.ofNat k + 1 = UInt64.ofNat (k + 1) := by
      rw [UInt64.ofNat_add]
      rfl
    rw [List.length_cons, List.range'_succ, List.map_cons, List.foldl_cons, fillPasswordBlock_eq,
      hfirst]
    unfold CudaHashBackend.fillPasswordBlocks
    cases hfill : r.params.fillFirstBlocks (array password) (UInt64.ofNat password.length) with
    | none =>
      have hthrow : CudaHashBackend.fillPasswordBlock r.params (UInt64.ofNat k) password
          { R with blocksIn := some ⟨size, m⟩ } as =
          (none, { R with blocksIn := some ⟨size, m⟩ }, as) := by
        unfold CudaHashBackend.fillPasswordBlock
        rw [hfill]
        rfl
      rw [Option.map_none, r.foldl_none, Faulty.bind_threw hthrow]
    | some blocks =>
      have hlength := length_fillFirstBlocks hlanes hfill
      have hwrite : CudaHashBackend.fillPasswordBlock r.params (UInt64.ofNat k) password
          { R with blocksIn := some ⟨size, m⟩ } as =
          (some (), { R with blocksIn := some ⟨size, copyAt m ((UInt64.ofNat k).toNat * 2048)
            (array blocks) blocks.length⟩ }, as) := by
        unfold CudaHashBackend.fillPasswordBlock
        rw [hfill, haddress]
        rfl
      rw [Option.map_some, Faulty.bind_run hwrite, hnext]
      refine ih hrest fun j hj => ?_
      rw [jobMemory_copyAt m hlength]
      by_cases hjk : j = UInt64.ofNat k
      · rw [hjk, Function.update_self, Function.update_self]
      · rw [Function.update_of_ne hjk, Function.update_of_ne hjk]
        exact hm j hj

/-- `oneThread` is the backend's own loop over its passwords. -/
theorem oneThread_runs (hlanes : r.params.lanes = 1) (hfits : r.passwords.length * 2048 ≤ 2 ^ 64)
    {R : Runner} {size : Nat} {as : Answers Ptr} (m : Ptr) :
    match r.oneThread (some (jobMemory m)) with
    | some after => ∃ m',
      CudaHashBackend.fillPasswordBlocks r.params 0 r.passwords
          { R with blocksIn := some ⟨size, m⟩ } as =
        (some (), { R with blocksIn := some ⟨size, m'⟩ }, as) ∧
      ∀ j, j.toNat < r.passwords.length → jobMemory m' j = after j
    | none =>
      (CudaHashBackend.fillPasswordBlocks r.params 0 r.passwords
        { R with blocksIn := some ⟨size, m⟩ } as).1 = none := by
  unfold oneThread
  rw [List.range_eq_range']
  exact r.fillPasswordBlocks_runs hlanes hfits r.passwords List.drop_zero fun _ _ => rfl

end Memory

/-! ## Every schedule fills what one thread fills -/

/-- Where the threads stand, as workers. -/
def workers (r : FillRequest) (t : Fin r.threads.length) : Option (List Nat) := jobs r.threads[t.1]

/-- At the start the threads stand where the shared work starts. -/
theorem start_shares (memory : InputMemory) :
    r.Shares (r.start memory) (WorkShare.start r.workers) where
  next := fun _ => by
    show 0 = UInt64.ofNat (0 * r.chunkSize.toNat)
    rw [Nat.zero_mul]
    rfl
  held := fun _ => rfl
  log := rfl

/-- A run of the threads is a run of the workers. -/
theorem run_shares {memory : InputMemory} {schedule : List (Fin r.threads.length)}
    {s : Filling r.threads.length} (hr : r.run memory schedule = some s) :
    ∃ a, Steps.run (WorkShare.step r.source) (WorkShare.start r.workers) schedule = some a ∧
      r.Shares s a := by
  have hrel := Steps.run_rel (fun s a t h => step_shares (r := r) h t) schedule
    (start_shares (r := r) memory)
  unfold run at hr
  rw [hr] at hrel
  generalize Steps.run (WorkShare.step r.source) (WorkShare.start r.workers) schedule = o at hrel
  cases hrel with
  | some h => exact ⟨_, rfl, h⟩

/-- And the other way round. -/
theorem shares_run {schedule : List (Fin r.threads.length)} {a : WorkShare.State _ Nat}
    (memory : InputMemory)
    (ha : Steps.run (WorkShare.step r.source) (WorkShare.start r.workers) schedule = some a) :
    ∃ s, r.run memory schedule = some s ∧ r.Shares s a := by
  have hrel := Steps.run_rel (fun s a t h => step_shares (r := r) h t) schedule
    (start_shares (r := r) memory)
  rw [ha] at hrel
  show ∃ s, Steps.run r.step (r.start memory) schedule = some s ∧ r.Shares s a
  generalize Steps.run r.step (r.start memory) schedule = o at hrel
  cases hrel with
  | some h => exact ⟨_, rfl, h⟩

/-- The threads can be joined exactly when all the work is done. -/
theorem joined_iff {W : Nat} {s : Filling W} {a : WorkShare.State (Fin W) Nat} (h : r.Shares s a) :
    a.Finished ↔ s.Joined := by
  refine forall_congr' fun t => ?_
  rw [h.held t]
  cases s.threads t with
  | filling i last =>
    constructor
    · intro hjobs
      cases hjobs
    · intro hthread
      cases hthread
  | returned => exact ⟨fun _ => rfl, fun _ => rfl⟩

/-- Whatever the interleaving of the threads: no index is filled twice and none that is not
there, no schedule goes on for ever and each can be completed, and when all threads are joined
every index has been filled, and the input memory is what one thread leaves. -/
theorem parallel_fill_once (r : FillRequest) (hn : r.passwords.length < 2 ^ 63) (hwrap : r.NoWrap)
    (memory : InputMemory) :
    ∃ bound, ∀ schedule s, r.run memory schedule = some s →
      schedule.length ≤ bound ∧
      (s.filled.map UInt64.toNat).Nodup ∧
      (∀ i ∈ s.filled, i.toNat < r.passwords.length) ∧
      (∃ more t, r.run memory (schedule ++ more) = some t ∧ t.Joined) ∧
      (s.Joined →
        (s.filled.map UInt64.toNat).Perm (List.range r.passwords.length) ∧
        s.memory = r.oneThread memory ∧
        ∀ before after, memory = some before → s.memory = some after →
          (∀ i password, r.passwords[i]? = some password →
            r.params.fillFirstBlocks (array password) (UInt64.ofNat password.length) =
              some (after (UInt64.ofNat i))) ∧
          ∀ j : UInt64, r.passwords.length ≤ j.toNat → after j = before j) := by
  have hsup := supply_threads hn hwrap
  have hbusy : ∀ t, r.workers t ≠ none := fun t => threads_busy _ (List.getElem_mem t.2)
  have hall : WorkShare.allJobs r.source r.chunks r.workers =
      (List.range r.passwords.length : Multiset Nat) := by
    rw [← all_indices hn, ← Fin.sum_univ_fun_getElem]
    rfl
  have : Nonempty (Fin r.threads.length) :=
    ⟨⟨0, List.length_pos_iff.mpr (threads_ne_nil hn)⟩⟩
  refine ⟨WorkShare.left r.source r.chunks (WorkShare.start r.workers), ?_⟩
  intro schedule s hr
  -- every run of the threads is a run of the shared work
  obtain ⟨a, ha, hs⟩ := run_shares hr
  have hle := WorkShare.log_le hsup hbusy ha
  rw [hall, ← hs.log] at hle
  refine ⟨?_, ?_, ?_, ?_, ?_⟩
  · have hsteps := (WorkShare.run_shared hsup hbusy ha).2
    omega
  · exact Multiset.coe_nodup.mp
      (Multiset.nodup_of_le hle (Multiset.coe_nodup.mpr List.nodup_range))
  · intro i hi
    have hmem := Multiset.mem_of_le hle (Multiset.mem_coe.mpr (List.mem_map_of_mem hi))
    exact List.mem_range.mp (Multiset.mem_coe.mp hmem)
  · obtain ⟨more, a', ha', hfin⟩ := WorkShare.exists_completion hsup hbusy ha
    obtain ⟨t, ht, hshares⟩ := shares_run memory ha'
    exact ⟨more, t, ht, (joined_iff hshares).mp hfin⟩
  -- all threads joined: the log is a permutation of the indices
  · intro hjoined
    have hlog := WorkShare.log_finished hsup hbusy ha ((joined_iff hs).mpr hjoined)
    rw [hall, ← hs.log] at hlog
    have hperm : (s.filled.map UInt64.toNat).Perm (List.range r.passwords.length) :=
      Multiset.coe_eq_coe.mp hlog
    have hindices : s.filled.Perm ((List.range r.passwords.length).map UInt64.ofNat) := by
      have hback := hperm.map UInt64.ofNat
      rw [List.map_map] at hback
      have hid : UInt64.ofNat ∘ UInt64.toNat = id := funext fun i => UInt64.ofNat_toNat
      rwa [hid, List.map_id] at hback
    have hmemory : s.memory = r.oneThread memory := by
      rw [r.run_memory hr]
      exact hindices.foldl_eq' (fun i _ j _ m => r.fillPasswordBlock_comm m i j) memory
    refine ⟨hperm, hmemory, ?_⟩
    intro before after hbefore hafter
    rw [hmemory, hbefore] at hafter
    obtain ⟨hin, hout⟩ := r.fold_memory hafter
    refine ⟨?_, ?_⟩
    · intro i password hget
      obtain ⟨hi, hpassword⟩ := List.getElem?_eq_some_iff.mp hget
      have hi64 : (UInt64.ofNat i).toNat = i := UInt64.toNat_ofNat_of_lt' (show i < 2 ^ 64 by omega)
      have hfill := hin (UInt64.ofNat i) (List.mem_map_of_mem (List.mem_range.mpr hi))
      unfold firstBlocks at hfill
      rwa [hi64, List.getD_eq_getElem?_getD, hget] at hfill
    · intro j hj
      refine hout j fun hmem => ?_
      obtain ⟨i, hi, hij⟩ := List.mem_map.mp hmem
      have hlt := List.mem_range.mp hi
      rw [← hij, UInt64.toNat_ofNat_of_lt' (show i < 2 ^ 64 by omega)] at hj
      omega

/-- Eight passwords in chunks of three, for four threads. -/
theorem parallel_fill_once_eight :
    ∃ r :
    FillRequest, r.passwords.length = 8 ∧ r.threads.length = 4 ∧ r.dynamicChunks = true ∧
      ∃ schedule s, r.run (some fun _ => []) schedule = some s ∧ s.Joined ∧
        (s.filled.map UInt64.toNat).Perm (List.range 8) := by
  let r : FillRequest :=
    ⟨Argon2Params.new 2 0x13 64 (lit "01ab") (fun _ => 0) 0 (fun _ => 0) 0 1 8 1,
    List.replicate 8 [], 0, 3, 4⟩
  have hdyn : r.dynamicChunks = true := by decide
  have hwrap : r.NoWrap := by
    intro _
    decide
  obtain ⟨bound, h⟩ := parallel_fill_once r (by decide) hwrap (some fun _ => [])
  obtain ⟨-, -, -, ⟨schedule, s, hrun, hjoined⟩, -⟩ := h [] _ rfl
  exact ⟨r, rfl, by decide, hdyn, _, s, hrun, hjoined, ((h _ s hrun).2.2.2.2 hjoined).1⟩

/-- Where the counter comes back to 0 with the first fetch of the last thread, that thread and the
first one fill the same index. -/
theorem refilled (r : FillRequest)
    (hdyn : r.dynamicChunks = true)
    (hwraps : UInt64.ofNat ((r.workerCount.toNat - 1) * r.chunkSize.toNat) = 0)
    (memory : InputMemory) :
    ∃ schedule s, r.run memory schedule = some s ∧ s.filled = [0, 0] := by
  obtain ⟨hcount, -⟩ := r.dynamic_iff.mp hdyn
  obtain ⟨hmany, htwo, -, -⟩ := r.worker_count_le hcount
  obtain ⟨hpos, hle⟩ := r.chunk_size_dynamic hdyn
  have hlength : r.threads.length = r.workerCount.toNat := by
    rw [threads_dynamic hdyn, List.length_replicate]
  have hheld : ∀ t, r.workers t = some [] := by
    intro t
    have hfetch : ∀ t ∈ r.threads, t = .filling 0 0 := by
      intro t ht
      rw [threads_dynamic hdyn] at ht
      exact (List.mem_replicate.mp ht).2
    unfold workers
    rw [hfetch _ (List.getElem_mem t.2)]
    rfl
  have hzero : ∀ k, UInt64.ofNat (k * r.chunkSize.toNat) = 0 →
      ∃ rest, r.source k = some (0 :: rest) := by
    intro k hk
    have hfirst : (0 : UInt64) < min r.attempts (0 + r.chunkSize) := by
      rw [UInt64.zero_add, UInt64.lt_iff_toNat_lt, toNat_min]
      show 0 < _
      omega
    have hmore : ¬ (0 : UInt64) ≥ r.attempts := by
      rw [ge_iff_le, UInt64.le_iff_toNat_le]
      show ¬ r.attempts.toNat ≤ 0
      omega
    unfold source
    rw [if_pos hdyn, hk]
    dsimp only
    rw [if_neg hmore, indices_of_lt hfirst]
    exact ⟨_, rfl⟩
  -- every thread fetches, one after the other
  obtain ⟨a, ha, -, hlog, -, hsource⟩ := WorkShare.run_asks r.source r.workers
    (List.finRange r.threads.length) (List.nodup_finRange _) fun t _ => hheld t
  have hat : ∀ t, a.held t = r.source t.1 := by
    intro t
    have ht := hsource t.1 (by rw [List.length_finRange]; exact t.2)
    rwa [List.getElem_finRange] at ht
  let first : Fin r.threads.length := ⟨0, by omega⟩
  let last : Fin r.threads.length := ⟨r.workerCount.toNat - 1, by omega⟩
  obtain ⟨rest, hrest⟩ := hzero 0 (by rw [Nat.zero_mul]; rfl)
  obtain ⟨rest', hrest'⟩ := hzero (r.workerCount.toNat - 1) hwraps
  have hone := WorkShare.step_job r.source ((hat first).trans hrest)
  have hother : last ≠ first := by
    intro h
    have hval := congrArg Fin.val h
    show False
    have hval' : r.workerCount.toNat - 1 = 0 := hval
    omega
  have htwice := WorkShare.step_job r.source
    (s := ⟨a.asked, Function.update a.held first (some rest), a.log ++ [0]⟩) (i := last)
    (by
      show Function.update a.held first (some rest) last = _
      rw [Function.update_of_ne hother]
      exact (hat last).trans hrest')
  have hrun := Steps.run_snoc.mpr ⟨_, Steps.run_snoc.mpr ⟨a, ha, hone⟩, htwice⟩
  obtain ⟨s, hs, hshares⟩ := shares_run memory hrun
  refine ⟨_, s, hs, ?_⟩
  have hfilled := hshares.log
  dsimp only at hfilled
  rw [hlog] at hfilled
  have hback := congrArg (List.map UInt64.ofNat) hfilled
  rw [List.map_map, show UInt64.ofNat ∘ UInt64.toNat = id from funext fun i => UInt64.ofNat_toNat,
    List.map_id] at hback
  exact hback

/-- 2³³ passwords in one chunk, for 2³¹ + 1 hardware threads: the last thread's first fetch
makes the counter come back to the first index, which is filled a second time. -/
theorem parallel_fill_wraps :
    ∃ r : FillRequest, r.passwords.length = 2 ^ 33 ∧ r.worker_cap = 0 ∧
      r.dynamic_chunk_size = 2 ^ 33 ∧ r.hardware_threads = 2 ^ 31 + 1 ∧
      ∃ schedule s, r.run (some fun _ => []) schedule = some s ∧
        ¬ (s.filled.map UInt64.toNat).Nodup := by
  obtain ⟨passwords, hlength⟩ : ∃ passwords : List Bytes, passwords.length = 2 ^ 33 :=
    ⟨List.replicate (2 ^ 33) [], List.length_replicate⟩
  let params := Argon2Params.new 2 0x13 64 (lit "01ab") (fun _ => 0) 0 (fun _ => 0) 0 1 8 1
  let r : FillRequest := ⟨params, passwords, 0, 2 ^ 33, 2 ^ 31 + 1⟩
  have hattempts : r.attempts = 2 ^ 33 := congrArg UInt64.ofNat hlength
  have hcount : r.workerCount = 2 ^ 31 + 1 := by
    unfold workerCount
    rw [hattempts]
    show firstBlockWorkerCount (2 ^ 31 + 1 : UInt32).toUInt64 (2 ^ 33) 0 = 2 ^ 31 + 1
    decide
  have hdyn : r.dynamicChunks = true := by
    rw [dynamic_iff, hcount]
    exact ⟨by decide, show (2 ^ 33 : UInt64) > 0 by decide⟩
  have hchunk : r.chunkSize = 2 ^ 33 := by
    unfold chunkSize
    rw [hattempts, hcount]
    show firstBlockSelectedChunkSize (2 ^ 33) (2 ^ 31 + 1) (2 ^ 33) = 2 ^ 33
    decide
  obtain ⟨schedule, s, hs, hfilled⟩ := refilled r hdyn
    (by rw [hcount, hchunk]; decide) (some fun _ => [])
  refine ⟨r, hlength, rfl, rfl, rfl, schedule, s, hs, ?_⟩
  rw [hfilled]
  decide

end FillRequest

end TreeMiner.Gpu

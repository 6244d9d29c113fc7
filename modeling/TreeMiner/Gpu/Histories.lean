import TreeMiner.Gpu.Initialization

/-!
# Requests after an initialisation that failed (`CudaHashBackend.cpp`, `kernelrunner.cu`)

A backend serves requests one after the other, and any call of any request may throw. What a
request finds in place was left there by an earlier one: the last request that made a runner
(`maker`). Of that request two things matter. Its `KernelRunner::init` makes twelve calls, and
the runner is complete exactly if none of them threw; where they stand in the list of answers
is fixed, so this is a condition on what the CUDA runtime answered and not on what the backend
has become (`Served.initUnharmed`). And the size it asked `cudaMalloc` for is a product of
64 bits, so a shape that needs 2^64 bytes or more was given less.

`initialized_usable_iff` puts this together for every history: where `ensureInitialized` returns,
the backend is usable if and only if the request is `Covered` by its history; and if no call of
any `init` threw and every size can be told, it is usable always. The second part rests on what
the code compares: a runner is only reused for a batch of its own size with no more blocks than
it was allocated for.
-/

namespace TreeMiner.Gpu

open Cxx Faults

namespace CudaHashBackend

variable {batch_size : UInt64} {segment_blocks : UInt32} {s : CudaHashBackend}

/-! ## Requests in a row -/

/-- A segment has at least two blocks, whatever the difficulty. -/
theorem segmentBlocks_params (request : HashApiRequest) :
    2 ≤ request.params.segmentBlocks.toNat :=
  (segmentBlocks_new _ _ _ _ _ request.difficulty).1

/-- What leaves the marks alone leaves them sound. -/
theorem preserves_sound {α : Type} {m : Faulty Ptr CudaHashBackend α}
    (hm : ∀ v, m.Preserves (MarkedAs v)) : m.Preserves fun s => s.marks.Sound := by
  intro s as hs
  rw [hm s.marks s as rfl]
  exact hs

variable (device : Device)

/-- A batch keeps the marks sound, whichever call of the device fails in it. -/
theorem batch_sound (around : Surroundings) (request : HashApiRequest) (result : HashApiResult) :
    (batch device around request result).Preserves fun s => s.marks.Sound := by
  refine Faulty.Preserves.bind (fun s as hs => ?_) fun _ => ?_
  · have hspec : (ensureInitialized request.params request.attempts).Ensures True s _ _ :=
      ensureInitialized_spec request.params hs (segmentBlocks_params request)
    have hpost := (hspec as fun _ => trivial).2
    generalize ensureInitialized request.params request.attempts s as = x at hpost ⊢
    obtain ⟨o, s', as'⟩ := x
    cases o with
    | some a => exact hpost.1
    | none => exact hpost
  · refine (preserves_sound fun _ => input_frame markedAs_frame around request).bind fun _ => ?_
    refine (preserves_sound fun _ => compute_frame markedAs_frame device request).bind fun _ => ?_
    exact Faulty.preserves_get.bind fun _ => Faulty.preserves_pure _

/-- So does a request, with its checks before and after the batch. -/
theorem runBatch_sound (around : Surroundings) (request : HashApiRequest) :
    (runBatch device around request).Preserves fun s => s.marks.Sound := by
  unfold runBatch
  dsimp only
  split
  · exact Faulty.preserves_pure _
  split
  · exact Faulty.preserves_pure _
  · refine Faulty.Preserves.orElse ?_ (Faulty.preserves_pure _)
    refine Faulty.Preserves.bind (preserves_sound fun _ => markedAs_frame.backend fun _ _ =>
      Faulty.preserves_call.bind fun _ => Faulty.preserves_pure _) fun _ => ?_
    refine Faulty.preserves_get.bind fun s => ?_
    exact (batch_sound device around request _).orElse (Faulty.preserves_pure _)

/-- A request with what it meets and what the calls answer. -/
structure Served where
  around : Surroundings
  request : HashApiRequest
  answers : Answers Ptr

/-- The backend after requests, one after the other. -/
def after (s : CudaHashBackend) (history : List Served) : CudaHashBackend :=
  history.foldl (fun s q => (runBatch device q.around q.request s q.answers).2.1) s

/-- The requests are served one after the other. -/
theorem after_cons (s : CudaHashBackend) (q : Served) (history : List Served) :
    after device s (q :: history) =
      after device (runBatch device q.around q.request s q.answers).2.1 history := by
  unfold after
  rw [List.foldl_cons]

/-- From one request to a whole history. -/
theorem after_sound {s : CudaHashBackend} (hs : s.marks.Sound) (history : List Served) :
    (after device s history).marks.Sound := by
  induction history generalizing s with
  | nil => exact hs
  | cons q history ih =>
    have hnext : ((runBatch device q.around q.request s q.answers).2.1).marks.Sound :=
      runBatch_sound device q.around q.request s q.answers hs
    rw [after_cons]
    exact ih hnext

/-- A backend that has just been made has no marks. -/
theorem new_sound (deviceIndex : Int) : (new deviceIndex).marks.Sound :=
  ⟨fun _ h => (nomatch h), fun h => (nomatch h)⟩

/-- The request is refused before anything is done. -/
def Refused (request : HashApiRequest) : Prop :=
  validateRequest request ≠ [] ∨ request.backend ≠ lit "cuda"

/-- A request that fails its checks changes nothing. -/
theorem refused_unchanged {around : Surroundings} {request : HashApiRequest} (h : Refused request)
    (answers : Answers Ptr) : (runBatch device around request s answers).2.1 = s := by
  unfold runBatch
  dsimp only
  by_cases herrors : (!(validateRequest request).isEmpty) = true
  · rw [if_pos herrors]
    rfl
  · rw [if_neg herrors]
    have hbackend : request.backend ≠ lit "cuda" := by
      refine h.resolve_left fun hne => hne ?_
      simpa using herrors
    rw [if_pos hbackend]
    rfl

end CudaHashBackend

/-! ## The calls of `KernelRunner::init` -/

namespace Runner

/-- A check asks the device once. -/
theorem check_calls : check.Calls 1 :=
  Faulty.calls_call.bind fun _ => Faulty.calls_pure ()

/-- So does the creation of an event. -/
theorem eventCreate_calls (e : CudaEvent) : (eventCreate e).Calls 1 :=
  check_calls.bind fun _ => Faulty.calls_modify _

/-- The two buffers of the host, the memory of the device, eight events, and the stream. -/
theorem init_calls (batchSize : UInt64) : (init batchSize).Calls 12 := by
  refine Faulty.Calls.bind (n := 0) (k := 12) (Faulty.calls_modify _) fun _ => ?_
  refine Faulty.Calls.bind (n := 1) (k := 11) check_calls fun _ => ?_
  refine Faulty.Calls.bind (n := 0) (k := 11) (Faulty.calls_modify _) fun _ => ?_
  refine Faulty.Calls.bind (n := 1) (k := 10) check_calls fun _ => ?_
  refine Faulty.Calls.bind (n := 0) (k := 10) (Faulty.calls_modify _) fun _ => ?_
  refine Faulty.Calls.bind (n := 1) (k := 9) Faulty.calls_call fun _ => ?_
  refine Faulty.Calls.bind (n := 0) (k := 9) (Faulty.calls_modify _) fun _ => ?_
  refine Faulty.Calls.bind (n := 1) (k := 8) (eventCreate_calls _) fun _ => ?_
  refine Faulty.Calls.bind (n := 1) (k := 7) (eventCreate_calls _) fun _ => ?_
  refine Faulty.Calls.bind (n := 1) (k := 6) (eventCreate_calls _) fun _ => ?_
  refine Faulty.Calls.bind (n := 1) (k := 5) (eventCreate_calls _) fun _ => ?_
  refine Faulty.Calls.bind (n := 1) (k := 4) (eventCreate_calls _) fun _ => ?_
  refine Faulty.Calls.bind (n := 1) (k := 3) (eventCreate_calls _) fun _ => ?_
  refine Faulty.Calls.bind (n := 1) (k := 2) (eventCreate_calls _) fun _ => ?_
  refine Faulty.Calls.bind (n := 1) (k := 1) (eventCreate_calls _) fun _ => ?_
  exact Faulty.Calls.bind (n := 1) (k := 0) check_calls fun _ => Faulty.calls_modify _

/-- A new runner is complete exactly if none of these calls threw. -/
theorem init_complete_iff {r : Runner} (hstream : r.stream = false) (batchSize : UInt64)
    (answers : Answers Ptr) : (init batchSize r answers).2.1.shape.Complete ↔
      Faulty.unharmed answers 0 12 = true := by
  have hcalls := (init_calls batchSize r answers).1
  have hspec : (init batchSize).Ensures True r (fun _ r' => r'.shape.Complete)
      fun r' => r'.stream = false := init_spec hstream
  have hpost := (hspec answers fun _ => trivial).2
  rw [← hcalls]
  match hr : init batchSize r answers, hpost with
  | (some (), r', _), hpost => exact ⟨fun _ => rfl, fun _ => hpost⟩
  | (none, r', _), hpost =>
    refine ⟨fun hcomplete => ?_, fun h => (nomatch h)⟩
    have hmade : r'.stream = true := hcomplete.stream
    rw [hpost] at hmade
    cases hmade

end Runner

namespace CudaBackend

variable {b : CudaBackend} {batchSize : UInt64} {segmentBlocks : UInt32}

/-- `init` that does not keep the runner: a new one is in place if there is memory for the object,
and it is complete exactly if none of the calls of its own `init` threw. -/
theorem init_made (hnew : b.reuses batchSize segmentBlocks = false) (answers : Answers Ptr) :
    if Faulty.unharmed answers 0 1 then
      ∃ r, (init batchSize ARGON2_ID ARGON2_VERSION_13 1 1 segmentBlocks b answers).2.1.runner_ =
          some r ∧ r.For batchSize segmentBlocks ∧
        (r.shape.Complete ↔ Faulty.unharmed answers 1 12 = true)
    else (init batchSize ARGON2_ID ARGON2_VERSION_13 1 1 segmentBlocks b answers).2.1 = b := by
  have hinit : init batchSize ARGON2_ID ARGON2_VERSION_13 1 1 segmentBlocks b answers = (do
      let _ ← Faulty.call
      Faulty.modify fun b => { b with
        runner_ := some (Runner.new ARGON2_ID ARGON2_VERSION_13 1 1 segmentBlocks batchSize) }
      onRunner (Runner.init batchSize) : Faulty Ptr CudaBackend Unit) b answers := by
    show (if b.reuses batchSize segmentBlocks = true then _ else _ :
      Faulty Ptr CudaBackend Unit) b answers = _
    rw [if_neg (by rw [hnew]; exact Bool.false_ne_true)]
  let new := Runner.new ARGON2_ID ARGON2_VERSION_13 1 1 segmentBlocks batchSize
  have hmade : ∀ rest, ∃ r,
      (onRunner (Runner.init batchSize) { b with runner_ := some new } rest).2.1.runner_ =
        some r ∧
        r.For batchSize segmentBlocks ∧
        (r.shape.Complete ↔ Faulty.unharmed rest 0 12 = true) := fun rest =>
    ⟨_, rfl, Runner.init_for _ rest (Runner.new_for _ _ _ _),
      Runner.init_complete_iff rfl batchSize rest⟩
  rw [hinit]
  -- only the first answer decides whether a runner is made at all
  match answers with
  | [] => exact hmade []
  | some _ :: rest => exact hmade rest
  | none :: _ => rfl

/-- `init` that keeps the runner. -/
theorem init_kept (hkept : b.reuses batchSize segmentBlocks = true) (answers : Answers Ptr) :
    ∃ r, b.runner_ = some r ∧
      r.canReuse ARGON2_ID ARGON2_VERSION_13 1 1 segmentBlocks batchSize = true ∧
      (init batchSize ARGON2_ID ARGON2_VERSION_13 1 1 segmentBlocks b answers).2.1.runner_ =
        some (r.reconfigure ARGON2_ID ARGON2_VERSION_13 1 1 segmentBlocks batchSize) := by
  obtain ⟨r, hr, hcan⟩ := (Option.any_eq_true _ _).mp hkept
  refine ⟨r, hr, hcan, ?_⟩
  show ((if b.reuses batchSize segmentBlocks = true then _ else _ :
    Faulty Ptr CudaBackend Unit) b answers).2.1.runner_ = _
  rw [if_pos hkept]
  show b.runner_.map _ = _
  rw [hr]
  rfl

end CudaBackend

/-- The bytes that the jobs of a request need. -/
def HashApiRequest.needed (request : HashApiRequest) : Nat :=
  neededBytes request.attempts request.params.segmentBlocks

namespace CudaHashBackend

/-! ## The request that made the runner -/

/-- The runner in place will serve the request, or a new one is made for it. -/
abbrev servedBy (request : HashApiRequest) (s : CudaHashBackend) : Bool :=
  s.served request.attempts request.params.segmentBlocks

/-- None of the calls of `KernelRunner::init` threw. Before them come `cudaSetDevice` and the
allocation of the object. -/
def Served.initUnharmed (q : Served) : Bool := Faulty.unharmed q.answers 2 12

/-- The request puts a new runner in place, complete or not: it is valid and for this backend, the
runner in place does not serve it, and the two calls before `KernelRunner::init` succeed. -/
def makes (q : Served) (s : CudaHashBackend) : Bool :=
  (validateRequest q.request).isEmpty && q.request.backend = lit "cuda" &&
    Faulty.unharmed q.answers 0 2 && !servedBy q.request s

/-- The last request of a history that put a runner in place; `o` is the one before the history. -/
def maker (device : Device) : CudaHashBackend → Option Served → List Served → Option Served
  | _, o, [] => o
  | s, o, q :: history =>
    maker device (runBatch device q.around q.request s q.answers).2.1
      (if makes q s then some q else o) history

/-- The request that made the current runner is carried along the history. -/
theorem maker_cons {device : Device} {o : Option Served} {q : Served} {history : List Served} :
    maker device s o (q :: history) =
      maker device (runBatch device q.around q.request s q.answers).2.1
        (if makes q s then some q else o) history := by
  rw [maker]

/-- What the runner in place has of the request that made it. -/
structure MadeBy (q : Served) (sh : Shape) : Prop where
  batch : sh.batchSize = q.request.attempts
  allocated : sh.allocatedSegmentBlocks = q.request.params.segmentBlocks
  within : sh.segmentBlocks ≤ sh.allocatedSegmentBlocks
  complete : sh.Complete ↔ q.initUnharmed = true

/-- The runner in place was made by the request `o`, and there is none if there is no request. -/
inductive InPlaceOf : Option Served → Option Shape → Prop where
  | none : InPlaceOf none none
  | made {q : Served} {sh : Shape} (h : MadeBy q sh) : InPlaceOf (some q) (some sh)

variable {request : HashApiRequest}

/-- The initialisation of a request: a new runner is of this request, and one that is kept is still
of the request that made it. -/
theorem ensureInitialized_inPlaceOf {o : Option Served} {q : Served}
    (ho : InPlaceOf o s.marks.runner) :
    InPlaceOf (if Faulty.unharmed q.answers 1 1 && !servedBy q.request s then some q else o)
      (ensureInitialized q.request.params q.request.attempts s
        (q.answers.drop 1)).2.1.marks.runner := by
  have hdrop : ∀ i n, Faulty.unharmed (q.answers.drop 1) i n =
    Faulty.unharmed q.answers (1 + i) n := by
    intro i n
    unfold Faulty.unharmed
    rw [List.drop_drop]
  by_cases hnoted : (s.initialized_ && s.initialized_batch_size_ = q.request.attempts &&
      s.initialized_segment_blocks_ = q.request.params.segmentBlocks) = true
  · -- nothing is done
    have hserved : servedBy q.request s = true := by
      unfold servedBy served
      rw [hnoted, Bool.true_or]
    rw [hserved, Bool.not_true, Bool.and_false, if_neg Bool.false_ne_true]
    show InPlaceOf o ((if _ then _ else _ : Faulty Ptr CudaHashBackend Unit) s _).2.1.marks.runner
    rw [if_pos hnoted]
    exact ho
  have hrunner : (ensureInitialized q.request.params q.request.attempts s
      (q.answers.drop 1)).2.1.marks.runner = (CudaBackend.init q.request.attempts ARGON2_ID
        ARGON2_VERSION_13 1 1 q.request.params.segmentBlocks s.backend_
          (q.answers.drop 1)).2.1.runner_.map Runner.shape := by
    show ((if _ then _ else _ : Faulty Ptr CudaHashBackend Unit) s _).2.1.marks.runner = _
    rw [if_neg hnoted]
    generalize hx : CudaBackend.init q.request.attempts ARGON2_ID ARGON2_VERSION_13 1 1
      q.request.params.segmentBlocks s.backend_ (q.answers.drop 1) = x
    have hzoom : onBackend (CudaBackend.init q.request.attempts ARGON2_ID ARGON2_VERSION_13 1 1
        q.request.params.segmentBlocks) s (q.answers.drop 1) =
          (x.1, { s with backend_ := x.2.1 }, x.2.2) := by
      rw [← hx]
      rfl
    obtain ⟨a, b, as⟩ := x
    cases a with
    | some _ =>
      rw [Faulty.bind_run hzoom]
      rfl
    | none =>
      rw [Faulty.bind_threw hzoom]
      rfl
  have hserved : servedBy q.request s =
      s.backend_.reuses q.request.attempts q.request.params.segmentBlocks := by
    unfold servedBy served
    rw [Bool.eq_false_of_not_eq_true hnoted, Bool.false_or]
  rw [hrunner, hserved]
  cases hreuse : s.backend_.reuses q.request.attempts q.request.params.segmentBlocks with
  | true =>
    -- the runner in place is kept, and has been allocated for no fewer blocks
    obtain ⟨r, hr, hcan, hr'⟩ := CudaBackend.init_kept hreuse (q.answers.drop 1)
    rw [Bool.not_true, Bool.and_false, if_neg Bool.false_ne_true, hr']
    have hplace : InPlaceOf o (some r.shape) := by
      rw [show s.marks.runner = some r.shape from congrArg (Option.map Runner.shape) hr] at ho
      exact ho
    cases hplace with
    | made hmade =>
      simp only [Runner.canReuse, Bool.and_eq_true, decide_eq_true_eq] at hcan
      obtain ⟨⟨-, hbatch⟩, hblocks⟩ := hcan
      refine .made ⟨hbatch.symm.trans hmade.batch, hmade.allocated, hblocks, ?_⟩
      rw [← hmade.complete]
      exact ⟨fun h => ⟨h.1, h.2, h.3, h.4, h.5⟩, fun h => ⟨h.1, h.2, h.3, h.4, h.5⟩⟩
  | false =>
    have hmade := CudaBackend.init_made hreuse (q.answers.drop 1)
    rw [hdrop, hdrop] at hmade
    rw [Bool.not_false, Bool.and_true]
    split at hmade
    next hgood =>
      obtain ⟨r, hr, hfor, hcomplete⟩ := hmade
      rw [if_pos hgood, hr]
      have hsame : r.segmentBlocks = r.allocatedSegmentBlocks :=
        hfor.segment.trans hfor.allocated.symm
      exact .made ⟨hfor.batch, hfor.allocated, (congrArg UInt32.toNat hsame).le, hcomplete⟩
    next hbad =>
      rw [if_neg hbad, hmade]
      exact ho

variable {device : Device}

/-- What follows `ensureInitialized` in a batch leaves the marks as they are. -/
theorem batch_marks (around : Surroundings) (result : HashApiResult) (answers : Answers Ptr) :
    (batch device around request result s answers).2.1.marks =
      (ensureInitialized request.params request.attempts s answers).2.1.marks := by
  -- what follows the initialization does not touch the marks
  have hrest : ∀ v, (do
      input around request
      compute device request
      let s ← Faulty.get
      let out := Buffer.at (s.backend_.runner_.bind Runner.blocksOut)
      let result := finalizeFrom request s.password_storage_ out 0 result
      return { result with
        ok := true
        attempts := request.attempts
        batch_size := request.attempts
        batch_size_min := request.attempts
        batch_size_max := request.attempts } : Faulty Ptr CudaHashBackend HashApiResult).Preserves
      (MarkedAs v) := by
    intro v
    refine (input_frame markedAs_frame around request).bind fun _ => ?_
    refine (compute_frame markedAs_frame device request).bind fun _ => ?_
    exact Faulty.preserves_get.bind fun _ => Faulty.preserves_pure _
  match hr : ensureInitialized request.params request.attempts s answers with
  | (some (), s', rest) =>
    unfold batch
    rw [Faulty.bind_run hr]
    exact hrest s'.marks s' rest rfl
  | (none, s', rest) =>
    unfold batch
    rw [Faulty.bind_threw hr]

/-- What is reported in place of a result leaves the state as the failure left it. -/
theorem orElse_pure_state {m : Faulty Ptr CudaHashBackend HashApiResult} {result : HashApiResult}
    {answers : Answers Ptr} : (m.orElse (pure result) s answers).2.1 = (m s answers).2.1 := by
  unfold Faulty.orElse
  generalize m s answers = x
  obtain ⟨a, s', rest⟩ := x
  cases a <;> rfl

/-- A request that is not refused changes the marks by its initialisation alone, which comes after
`cudaSetDevice`. -/
theorem runBatch_marks (around : Surroundings) (hserves : ¬ Refused request)
    (answers : Answers Ptr) : (runBatch device around request s answers).2.1.marks =
      if Faulty.unharmed answers 0 1 then
        (ensureInitialized request.params request.attempts s (answers.drop 1)).2.1.marks
      else s.marks := by
  obtain ⟨hvalid, hbackend⟩ := not_or.mp hserves
  have hempty : (validateRequest request).isEmpty = true := List.isEmpty_iff.mpr (not_not.mp hvalid)
  have hbatch : ∀ (result : HashApiResult) rest, ((Faulty.get >>= fun s : CudaHashBackend =>
      (batch device around request { result with device_id := s.backend_.deviceIndex_ }).orElse
        (pure { result with device_id := s.backend_.deviceIndex_, error := around.what }) :
          Faulty Ptr CudaHashBackend HashApiResult) s rest).2.1.marks =
      (ensureInitialized request.params request.attempts s rest).2.1.marks := by
    intro result rest
    exact (congrArg marks orElse_pure_state).trans (batch_marks around _ rest)
  unfold runBatch
  dsimp only
  rw [if_neg (by rw [hempty]; exact Bool.false_ne_true), if_neg hbackend, orElse_pure_state]
  match answers with
  | none :: _ => rfl
  | [] => exact hbatch _ []
  | some _ :: rest => exact hbatch _ rest

/-- One request: the runner in place is of this request if it makes one, and otherwise still of the
request that made it. -/
theorem runBatch_inPlaceOf {o : Option Served} {q : Served} (ho : InPlaceOf o s.marks.runner) :
    InPlaceOf (if makes q s then some q else o)
      (runBatch device q.around q.request s q.answers).2.1.marks.runner := by
  -- a refused request never reaches the backend
  by_cases hrefused : Refused q.request
  · have hmakes : makes q s = false := by
      unfold makes
      rcases hrefused with hinvalid | hbackend
      · rw [List.isEmpty_eq_false_iff.mpr hinvalid]
        rfl
      · rw [decide_eq_false hbackend, Bool.and_false]
        rfl
    rw [refused_unchanged device hrefused, hmakes, if_neg Bool.false_ne_true]
    exact ho
  have hmakes : makes q s = (Faulty.unharmed q.answers 0 1 &&
      (Faulty.unharmed q.answers 1 1 && !servedBy q.request s)) := by
    obtain ⟨hvalid, hbackend⟩ := not_or.mp hrefused
    unfold makes
    rw [List.isEmpty_iff.mpr (not_not.mp hvalid), decide_eq_true (not_not.mp hbackend),
      Faulty.unharmed_add (n := 1) (k := 1)]
    simp only [Bool.true_and, Bool.and_assoc, Nat.zero_add]
  have hspec := ensureInitialized_inPlaceOf (q := q) ho
  rw [runBatch_marks q.around hrefused, hmakes]
  cases Faulty.unharmed q.answers 0 1 with
  | true => exact hspec
  | false => exact ho

/-- Along a history the runner in place is the one that its maker asked for. -/
theorem after_inPlaceOf (history : List Served) : ∀ {s : CudaHashBackend} {o : Option Served},
    InPlaceOf o s.marks.runner →
      InPlaceOf (maker device s o history) (after device s history).marks.runner := by
  induction history with
  | nil => exact fun ho => ho
  | cons q history ih =>
    intro s o ho
    have hnext : InPlaceOf (if makes q s then some q else o)
        (runBatch device q.around q.request s q.answers).2.1.marks.runner := runBatch_inPlaceOf ho
    rw [after_cons, maker_cons]
    generalize (runBatch device q.around q.request s q.answers).2.1 = s₁ at hnext ⊢
    exact ih hnext

/-! ## Usable, by the history -/

/-- The condition on a history and the next request. If the runner in place serves it, none of
the calls of the `init` of that runner threw, and the size of the request that made it can be
told in 64 bits (or what is left of that size is still enough). If a new runner is made, its
size can be told. -/
def Covered (device : Device) (s : CudaHashBackend) (history : List Served)
    (request : HashApiRequest) : Prop :=
  if servedBy request (after device s history) then
    ∃ q, maker device s none history = some q ∧ q.initUnharmed = true ∧
      (q.request.needed < 2 ^ 64 ∨ request.needed ≤ q.request.needed % 2 ^ 64)
  else request.needed < 2 ^ 64

/-- The condition on a request of a history: if it makes a new runner, none of the calls of
`KernelRunner::init` throws and its size can be told in 64 bits. -/
def Sturdy (q : Served) (s : CudaHashBackend) : Prop :=
  makes q s = true → q.initUnharmed = true ∧ q.request.needed < 2 ^ 64

/-- A request that is served in place finds a runner. -/
theorem served_runner (hs : s.marks.Sound) (hserved : servedBy request s = true) :
    ∃ r, s.backend_.runner_ = some r := by
  unfold servedBy served at hserved
  rcases Bool.or_eq_true_iff.mp hserved with hnoted | hreuse
  · simp only [Bool.and_eq_true] at hnoted
    obtain ⟨sh, hsh, -⟩ := hs.shaped hnoted.1.1
    obtain ⟨r, hr, -⟩ := Option.map_eq_some_iff.mp hsh
    exact ⟨r, hr⟩
  · obtain ⟨r, hr, -⟩ := (Option.any_eq_true _ _).mp hreuse
    exact ⟨r, hr⟩

/-- A runner that serves a request has been allocated for at least as many blocks and for a batch of
the same size: that is what is compared. -/
theorem served_fits {q : Served} {r : Runner} (hs : s.marks.Sound)
    (hr : s.backend_.runner_ = some r) (hmade : MadeBy q r.shape)
    (hserved : servedBy request s = true) (hcomplete : r.shape.Complete) :
    request.needed ≤ q.request.needed := by
  have hfits : r.batchSize = request.attempts ∧
      request.params.segmentBlocks.toNat ≤ r.allocatedSegmentBlocks.toNat := by
    unfold servedBy served at hserved
    -- served because the marks say so, or because the backend may reuse its runner
    rcases Bool.or_eq_true_iff.mp hserved with hnoted | hreuse
    · simp only [Bool.and_eq_true, decide_eq_true_eq] at hnoted
      obtain ⟨⟨hinit, hbatch⟩, hsegment⟩ := hnoted
      obtain ⟨sh, hsh, hshaped⟩ := hs.shaped hinit
      rw [show s.marks.runner = some r.shape from congrArg (Option.map Runner.shape) hr] at hsh
      obtain rfl := Option.some.inj hsh
      obtain ⟨hb, hq⟩ := hshaped hcomplete
      refine ⟨hb.trans hbatch, ?_⟩
      have hwithin : r.segmentBlocks.toNat ≤ r.allocatedSegmentBlocks.toNat := hmade.within
      rw [show r.segmentBlocks = request.params.segmentBlocks from hq.trans hsegment] at hwithin
      exact hwithin
    · unfold CudaBackend.reuses at hreuse
      rw [hr] at hreuse
      simp only [Option.any_some, Runner.canReuse, Bool.and_eq_true, decide_eq_true_eq] at hreuse
      obtain ⟨⟨-, hbatch⟩, hblocks⟩ := hreuse
      exact ⟨hbatch, hblocks⟩
  have hbatch : request.attempts = q.request.attempts := hfits.1.symm.trans hmade.batch
  have halloc : r.allocatedSegmentBlocks = q.request.params.segmentBlocks := hmade.allocated
  unfold HashApiRequest.needed neededBytes
  rw [hbatch]
  refine Nat.mul_le_mul_right _ (Nat.mul_le_mul_left _ (Nat.mul_le_mul_left _ ?_))
  rw [← halloc]
  exact hfits.2

/-- The runner that serves the next request is large enough exactly when the history says so. -/
theorem prepared_iff_covered {history : List Served} (hs : (after device s history).marks.Sound)
    (hplace : InPlaceOf (maker device s none history) (after device s history).marks.runner) :
    Prepared request.attempts request.params.segmentBlocks (after device s history) ↔
      Covered device s history request := by
  by_cases hserved : servedBy request (after device s history) = true
  · obtain ⟨r, hr⟩ := served_runner hs hserved
    rw [prepared_served hr hserved]
    unfold Covered
    rw [if_pos hserved]
    have hshape : (after device s history).marks.runner = some r.shape :=
      congrArg (Option.map Runner.shape) hr
    rw [hshape] at hplace
    cases hmaker : maker device s none history with
    | none =>
      rw [hmaker] at hplace
      cases hplace
    | some q =>
      have hmade : MadeBy q r.shape := by
        rw [hmaker] at hplace
        cases hplace with
        | made h => exact h
      -- the size that was asked for, of which 64 bits are left
      have hsize : ∀ n, r.shape.memory = some n → n = q.request.needed % 2 ^ 64 := by
        intro n hn
        rw [(hs.sized _ hshape).memory n hn, hmade.batch, hmade.allocated, memorySize_toNat]
        rfl
      rw [hmade.complete]
      constructor
      · rintro ⟨hgood, n, hn, hle⟩
        rw [hsize n hn] at hle
        exact ⟨q, rfl, hgood, Or.inr hle⟩
      · rintro ⟨q', hq', hgood, hle⟩
        obtain rfl := Option.some.inj hq'
        have hcomplete := hmade.complete.mpr hgood
        obtain ⟨n, hn⟩ := Option.isSome_iff_exists.mp hcomplete.memory
        refine ⟨hgood, n, hn, ?_⟩
        show request.needed ≤ n
        rw [hsize n hn]
        rcases hle with hlt | hle
        · rw [Nat.mod_eq_of_lt hlt]
          exact served_fits hs hr hmade hserved hcomplete
        · exact hle
  · unfold Prepared Covered
    rw [if_neg hserved, if_neg hserved]
    rfl

/-- A runner that a run of sturdy requests has left was made by one of them. -/
theorem maker_sturdy (history : List Served) : ∀ {s : CudaHashBackend} {o : Option Served},
    (∀ before q rest, history = before ++ q :: rest → Sturdy q (after device s before)) →
    (∀ q, o = some q → q.initUnharmed = true ∧ q.request.needed < 2 ^ 64) →
    ∀ q, maker device s o history = some q →
      q.initUnharmed = true ∧ q.request.needed < 2 ^ 64 := by
  induction history with
  | nil => exact fun _ ho => ho
  | cons q history ih =>
    intro s o hrun ho q₁ hq₁
    rw [maker_cons] at hq₁
    have hrest : ∀ before q' rest, history = before ++ q' :: rest →
        Sturdy q' (after device (runBatch device q.around q.request s q.answers).2.1 before) := by
      intro before q' rest hsplit
      have hnext := hrun (q :: before) q' rest (congrArg (q :: ·) hsplit)
      rw [after_cons] at hnext
      exact hnext
    generalize (runBatch device q.around q.request s q.answers).2.1 = s₁ at hrest hq₁
    refine ih hrest (fun q' hq' => ?_) q₁ hq₁
    split at hq'
    next hmakes =>
      obtain rfl := Option.some.inj hq'
      exact hrun [] _ history rfl hmakes
    next => exact ho q' hq'

/-- Whatever requests there have been and whatever calls threw: where `ensureInitialized` returns
for the next request, the current runner is ready for it if and only if the request is covered
by the history. And in every run of requests none of which has a call of `KernelRunner::init`
throw or a size that 64 bits cannot tell, the runner is ready whenever `ensureInitialized`
returns. -/
theorem initialized_usable_iff (device : Device) (deviceIndex : Int) (history : List Served)
    (request : HashApiRequest) (answers : Answers Ptr) (s' : CudaHashBackend)
    (rest : Answers Ptr)
    (hrun : ensureInitialized request.params request.attempts
      (after device (new deviceIndex) history) answers = (some (), s', rest)) :
    (Usable request.attempts request.params.segmentBlocks s' ↔
      Covered device (new deviceIndex) history request) ∧
    ((∀ before q rest, history = before ++ q :: rest →
        Sturdy q (after device (new deviceIndex) before)) →
      (servedBy request (after device (new deviceIndex) history) = false →
        request.needed < 2 ^ 64) →
      Usable request.attempts request.params.segmentBlocks s') := by
  have hs := after_sound device (new_sound deviceIndex) history
  have hplace : InPlaceOf (maker device (new deviceIndex) none history)
      (after device (new deviceIndex) history).marks.runner := after_inPlaceOf history .none
  have hiff : Usable request.attempts request.params.segmentBlocks s' ↔
      Covered device (new deviceIndex) history request := by
    rw [← prepared_iff_covered hs hplace]
    exact ((ensureInitialized_spec request.params hs (segmentBlocks_params request)).returned
      hrun).2
  refine ⟨hiff, fun hsturdy hfits => hiff.mpr ?_⟩
  unfold Covered
  split
  next hserved =>
    cases hmaker : maker device (new deviceIndex) none history with
    | some q =>
      obtain ⟨hgood, hlt⟩ := maker_sturdy history hsturdy (fun _ h => by cases h) q hmaker
      exact ⟨q, rfl, hgood, Or.inl hlt⟩
    | none =>
      -- without a runner nothing could serve the request
      obtain ⟨r, hr⟩ := served_runner hs hserved
      rw [hmaker, show (after device (new deviceIndex) history).marks.runner = some r.shape from
        congrArg (Option.map Runner.shape) hr] at hplace
      cases hplace
  next hnew => exact hfits (Bool.eq_false_of_not_eq_true hnew)

/-! ## A runner without memory -/

/-- A request for one batch of eight blocks. -/
def oneJob : HashApiRequest where
  backend := lit "cuda"
  salt_hex := lit "0123456789abcdef"
  difficulty := 8

def quiet : Surroundings := ⟨1, fun _ => 0, []⟩

/-- A device whose kernels write nothing. -/
def idle : Device := ⟨fun _ _ _ memory => memory, fun _ memory => memory⟩

/-- The calls up to the two buffers of the host succeed, and `cudaMalloc` fails. -/
def outOfMemory :
    Answers Ptr := [some fun _ => 0, some fun _ => 0, some fun _ => 0, some fun _ => 0, none]

/-- A request for one batch of sixteen blocks. It comes through its initialisation, and then runs
out of memory on the host. -/
def larger : Served where
  around := quiet
  request := { oneJob with difficulty := 16 }
  answers := List.replicate 14 (some fun _ => 0) ++ [none]

/-- After it, the smaller request is served by the runner in place. -/
theorem initialized_usable_iff_reused :
    servedBy oneJob (after idle (new 0) [larger]) = true ∧
    Covered idle (new 0) [larger] oneJob ∧
    Usable oneJob.attempts oneJob.params.segmentBlocks
      (ensureInitialized oneJob.params oneJob.attempts (after idle (new 0) [larger]) []).2.1 := by
  have hserved : servedBy oneJob (after idle (new 0) [larger]) = true := by decide
  have hsturdy : ∀ before q rest, [larger] = before ++ q :: rest →
      Sturdy q (after idle (new 0) before) := by
    intro before q rest hsplit
    match before, hsplit with
    | [], hsplit =>
      cases hsplit
      exact fun _ => ⟨by decide, by decide⟩
    | _ :: before, hsplit =>
      have hlen := congrArg List.length hsplit
      simp at hlen
  have hfits : servedBy oneJob (after idle (new 0) [larger]) = false →
    oneJob.needed < 2 ^ 64 := by
    intro hnew
    rw [hserved] at hnew
    cases hnew
  have hiff := initialized_usable_iff idle 0 [larger] oneJob [] _ _
    (Faulty.run_of_value (by decide))
  have husable := hiff.2 hsturdy hfits
  exact ⟨hserved, hiff.1.mp husable, husable⟩

/-- The first request ends with an exception, and the same request again finds a runner that it
takes for its own and that has no memory. -/
theorem failed_init_reused :
    validateRequest oneJob = [] ∧
    ((runBatch idle quiet oneJob (new 0) outOfMemory).1.map HashApiResult.ok = some false) ∧
    ∃ s' rest, ensureInitialized oneJob.params oneJob.attempts
        (after idle (new 0) [⟨quiet, oneJob, outOfMemory⟩]) [] = (some (), s', rest) ∧
      ¬ Usable oneJob.attempts oneJob.params.segmentBlocks s' := by
  refine ⟨by decide, by decide, _, _,
    Faulty.run_of_value (by decide), ?_⟩
  intro ⟨r, hr, hready⟩
  have hnone : ((ensureInitialized oneJob.params oneJob.attempts
      (after idle (new 0) [⟨quiet, oneJob, outOfMemory⟩]) []).2.1.backend_.runner_.bind
        fun r => r.shape.memory) = none := by
    decide
  rw [hr] at hnone
  have hmemory := hready.complete.memory
  rw [show r.shape.memory = none from hnone] at hmemory
  exact absurd hmemory Bool.false_ne_true

end CudaHashBackend

end TreeMiner.Gpu

import Mathlib.Data.List.Induction
import TreeMiner.Platform.Manager

/-!
# The lease and the miners agree

Three pieces of state say whether the rig works for a consumer: the platform
state, the stored lease and the miners' context (`Agrees`). The handlers update
them separately. From a state in which they agree, every step but two keeps
them in agreement: a registration answer that arrives while a lease is stored
moves the platform state and nothing else, and a pause (or a shutdown) that
arrives after the lease's end finds no *active* lease to give up and leaves the
stored one behind. `step_agrees_iff` says that these are the only exceptions,
`lease_invariant_iff` carries it over whole runs.
-/

namespace TreeMiner

open Cxx Platform

/-- When the lease is over, in nanoseconds. -/
def LeaseInfo.endsAt (l : LeaseInfo) : Int := l.start_time + l.duration_sec.toInt * 1000000000

/-- Platform state, stored lease and mining context say the same thing. -/
structure Agrees (s : Platform) : Prop where
  mining : s.state = .MINING ↔ s.lease.isSome = true
  context : s.lease.isSome = true ↔ s.context.mode = .PLATFORM_MINING
  identity : ∀ l, s.lease = some l →
    s.context.address = l.consumer_address ∧ s.context.prefix_ = l.prefix_

/-- A stored lease has an end. -/
def Timed (s : Platform) : Prop := ∀ l, s.lease = some l → 0 < l.duration_sec

/-- A registration answer that moves the platform state: an acceptance, or a
rejection whose reason can be read. -/
def registers (msg : JsonValue) : Bool :=
  ackAccepted msg || (msg.value (lit "reason") (lit "unknown")).isSome

/-- The steps that keep the three in agreement: no registration answer while a
lease is stored, and no pause or shutdown once the stored lease is over. -/
def Meets (s : Platform) (x : Int × PlatformStep) : Prop :=
  s.running = true →
    match x.2 with
    | .watchdog _ => True
    | .message msg =>
      match route msg with
      | .registerAck => registers msg = true → s.lease = none
      | .pause | .shutdown => ∀ l, s.lease = some l → x.1 < l.endsAt
      | _ => True

/-- A watchdog pass at or past the lease's end finishes the lease. -/
def WatchdogEnds (keccak : Bytes → Bytes) (s : Platform) (x : Int × PlatformStep) : Prop :=
  ∀ connected l, s.running = true → x.2 = .watchdog connected → s.lease = some l →
    l.endsAt ≤ x.1 →
    (s.step keccak x).lease = none ∧ (s.step keccak x).context.mode = .SELF_MINING

/-! ## Expiry -/

/-- The elapsed whole seconds reach the duration exactly at the lease's end. -/
theorem isExpired_iff {l : LeaseInfo} (now : Int) (h : 0 < l.duration_sec) :
    isExpired (some l) now = true ↔ l.endsAt ≤ now := by
  have hpos : 0 < l.duration_sec.toInt := Int32.lt_iff_toInt_lt.mp h
  unfold isExpired LeaseInfo.endsAt
  dsimp only
  rw [if_neg (by rw [Int32.not_le]; exact h)]
  simp only [ge_iff_le, decide_eq_true_eq]
  by_cases hneg : now - l.start_time < 0
  · have hle : (now - l.start_time).tdiv 1000000000 ≤ 0 := by
      rw [← Int.neg_neg (now - l.start_time), Int.neg_tdiv]
      have := Int.tdiv_nonneg (a := -(now - l.start_time)) (b := 1000000000) (by omega) (by omega)
      omega
    constructor
    · intro hexp
      omega
    · intro hend
      omega
  · rw [Int.tdiv_eq_ediv_of_nonneg (by omega), Int.le_ediv_iff_mul_le (by omega)]
    omega

/-- A lease is active until it ends, if its duration is positive. -/
theorem hasActiveLease_iff {lease : Option LeaseInfo} {now : Int}
    (h : ∀ l, lease = some l → 0 < l.duration_sec) :
    hasActiveLease lease now = true ↔ ∃ l, lease = some l ∧ now < l.endsAt := by
  cases lease with
  | none => simp [hasActiveLease]
  | some l =>
    have hexp := isExpired_iff now (h l rfl)
    unfold hasActiveLease
    simp only [Option.isSome_some, Bool.true_and, Bool.not_eq_true', Bool.eq_false_iff, ne_eq, hexp,
      Int.not_le, Option.some.injEq, exists_eq_left']

/-! ## What each handler does -/

section Handlers

variable {keccak : Bytes → Bytes} {s : Platform} {msg : JsonValue} {now : Int}

/-- A task is refused, fails on a stored lease, or becomes the lease. -/
theorem handleAssignTask_cases (keccak : Bytes → Bytes) (s : Platform) (msg : JsonValue)
    (now : Int) :
    s.handleAssignTask keccak msg now = s ∨
    (s.state = .AVAILABLE ∧ s.lease.isSome = true ∧
      s.handleAssignTask keccak msg now = s.transitionTo .ERROR_STATE) ∨
    (s.state = .AVAILABLE ∧ ∃ l, 0 < l.duration_sec ∧
      s.handleAssignTask keccak msg now =
        { s with state := .MINING, lease := some l
                 context := toMiningContext (some l) s.identity }) := by
  unfold handleAssignTask
  split
  · exact Or.inl rfl
  next hav =>
    rw [not_not] at hav
    -- the checks of the handler, one after the other; each leaves the platform as it is
    split
    · dsimp only
      split
      · exact Or.inl rfl
      split
      · exact Or.inl rfl
      split
      · exact Or.inl rfl
      split
      · exact Or.inl rfl
      next hdur =>
        have hpos : 0 < taskDuration msg := by
          simp only [gt_iff_lt, Bool.or_eq_true, decide_eq_true_eq, not_or, Int32.not_lt] at hdur
          exact Int32.lt_of_lt_of_le (by decide) hdur.1
        unfold startLease
        cases hl : s.lease with
        | none =>
          refine Or.inr (Or.inr ⟨hav, ?_⟩)
          simp only [transitionTo, hl, switchToPlatformMining]
          refine ⟨_, ?_, rfl⟩
          exact hpos
        | some l =>
          refine Or.inr (Or.inl ⟨hav, rfl, ?_⟩)
          simp only [transitionTo, hl]
    · exact Or.inl rfl

/-- A release does nothing or completes the stored lease. -/
theorem handleRelease_cases (s : Platform) (msg : JsonValue) :
    s.handleRelease msg = s ∨ s.handleRelease msg = s.complete := by
  unfold handleRelease
  split
  · exact Or.inl rfl
  split
  · exact Or.inl rfl
  split
  · exact Or.inl rfl
  split
  · exact Or.inl rfl
  · exact Or.inr rfl

/-- Nothing changed that has to do with the lease. -/
structure SameStanding (s s' : Platform) : Prop where
  state : s'.state = s.state
  lease : s'.lease = s.lease
  context : s'.context = s.context

theorem SameStanding.refl : SameStanding s s := ⟨rfl, rfl, rfl⟩

/-- Two steps that leave state, lease and context leave them together. -/
theorem SameStanding.trans {s₁ s₂ : Platform} (h₁ : SameStanding s s₁)
    (h₂ : SameStanding s₁ s₂) :
    SameStanding s s₂ :=
  ⟨h₂.state.trans h₁.state, h₂.lease.trans h₁.lease, h₂.context.trans h₁.context⟩

/-- A new difficulty is no matter of the lease. -/
theorem configDifficulty_standing : SameStanding s (s.configDifficulty msg) := by
  unfold configDifficulty
  split
  · exact .refl
  · split <;> exact ⟨rfl, rfl, rfl⟩

/-- Nor is a new address. -/
theorem configAddress_standing : SameStanding s (s.configAddress keccak msg) := by
  unfold configAddress
  split
  · exact .refl
  · dsimp only
    split <;> exact ⟨rfl, rfl, rfl⟩

/-- Nor is a new prefix. -/
theorem configPrefix_standing : SameStanding s (s.configPrefix msg) := by
  unfold configPrefix
  split
  · exact .refl
  · dsimp only
    split <;> exact ⟨rfl, rfl, rfl⟩

/-- Nor is a new pattern. -/
theorem configPattern_standing : SameStanding s (s.configPattern msg) := by
  unfold configPattern
  split
  · exact .refl
  · dsimp only
    split <;> exact ⟨rfl, rfl, rfl⟩

/-- And so a message that sets any of them. -/
theorem handleSetConfig_standing (keccak : Bytes → Bytes) (msg : JsonValue) :
    SameStanding s (s.handleSetConfig keccak msg) := by
  unfold handleSetConfig
  dsimp only
  split
  · exact .refl
  · exact ((configDifficulty_standing.trans configAddress_standing).trans
      configPrefix_standing).trans configPattern_standing

/-! ## Agreement, handler by handler -/

/-- The invariant speaks of the state, the lease and the context only. -/
theorem Agrees.of_standing {s' : Platform} (h : Agrees s) (hs : SameStanding s s') : Agrees s' where
  mining := by rw [hs.state, hs.lease]; exact h.mining
  context := by rw [hs.lease, hs.context]; exact h.context
  identity := by rw [hs.lease, hs.context]; exact h.identity

/-- Without a lease the platform is not mining for one and mines for itself. -/
theorem Agrees.of_free (hstate : s.state ≠ .MINING) (hlease : s.lease = none)
    (hmode : s.context.mode = .SELF_MINING) : Agrees s where
  mining := by simp [hstate, hlease]
  context := by simp [hmode, hlease]
  identity := by simp [hlease]

/-- With no lease the mode is that of self mining. -/
theorem Agrees.self_mining (h : Agrees s) (hl : s.lease = none) :
    s.context.mode = .SELF_MINING := by
  cases hm : s.context.mode with
  | SELF_MINING => rfl
  | PLATFORM_MINING =>
    have := h.context.mpr hm
    rw [hl] at this
    cases this

/-- Leaving `MINING` alone is right exactly when nothing is stored. -/
theorem Agrees.transitionTo_iff {st : PlatformState} (h : Agrees s) (hst : st ≠ .MINING) :
    Agrees (s.transitionTo st) ↔ s.lease = none := by
  constructor
  · intro h'
    cases hl : s.lease with
    | none => rfl
    | some l =>
      refine absurd (h'.mining.mpr ?_) hst
      rw [show (s.transitionTo st).lease = s.lease from rfl, hl]
      rfl
  · intro hl
    exact Agrees.of_free hst hl (h.self_mining hl)

/-- Outside `MINING` nothing is stored. -/
theorem Agrees.lease_none (h : Agrees s) (hst : s.state ≠ .MINING) : s.lease = none := by
  cases hl : s.lease with
  | none => rfl
  | some l => exact absurd (h.mining.mpr (by rw [hl]; rfl)) hst

/-- The end of a lease leaves the platform free. -/
theorem complete_agrees :
    Agrees s.complete := Agrees.of_free (by simp [complete, transitionTo]) rfl rfl

/-- An accepted registration keeps the invariant exactly when there is no lease. -/
theorem handleRegisterAck_agrees_iff (h : Agrees s) :
    Agrees (s.handleRegisterAck msg) ↔ (registers msg = true → s.lease = none) := by
  unfold handleRegisterAck registers
  cases hacc : ackAccepted msg with
  | true =>
    simp only [if_true, Bool.true_or, true_implies]
    split
    next => exact h.transitionTo_iff (by decide)
    next hav =>
      rw [not_not] at hav
      simp [h, h.lease_none (by rw [hav]; decide)]
  | false =>
    simp only [Bool.false_eq_true, if_false, Bool.false_or]
    cases hv : msg.value (lit "reason") (lit "unknown") with
    | none => simp [h]
    | some r =>
      simp only [Option.isSome_some, true_implies]
      exact h.transitionTo_iff (by decide)

/-- A task that is assigned comes with its lease and its mode. -/
theorem handleAssignTask_agrees (h : Agrees s) : Agrees (s.handleAssignTask keccak msg now) := by
  rcases handleAssignTask_cases keccak s msg now with
    heq | ⟨hav, hl, -⟩ | ⟨hav, l, -, heq⟩
  · rw [heq]
    exact h
  · -- outside `MINING` no lease is stored, so starting one does not fail
    rw [h.lease_none (by rw [hav]; decide)] at hl
    cases hl
  · rw [heq]
    exact ⟨by simp, by simp [toMiningContext], by rintro l' ⟨⟩; exact ⟨rfl, rfl⟩⟩

/-- A release completes the lease it names, or changes nothing. -/
theorem handleRelease_agrees (h : Agrees s) : Agrees (s.handleRelease msg) := by
  rcases handleRelease_cases s msg with heq | heq
  · rw [heq]
    exact h
  · rw [heq]
    exact complete_agrees

/-- Giving up the active lease and going idle: right exactly when a stored lease
is still running. -/
theorem dropActiveLease_agrees_iff (h : Agrees s) (ht : Timed s) :
    Agrees ((s.dropActiveLease now).transitionTo .IDLE) ↔
      ∀ l, s.lease = some l → now < l.endsAt := by
  unfold dropActiveLease
  by_cases hact : hasActiveLease s.lease now = true
  · obtain ⟨l, hl, hlt⟩ := (hasActiveLease_iff ht).mp hact
    rw [if_pos hact]
    refine iff_of_true (Agrees.of_free (by simp [transitionTo]) rfl rfl) ?_
    intro l' hl'
    rw [hl] at hl'
    cases hl'
    exact hlt
  · rw [if_neg hact, h.transitionTo_iff (by decide)]
    rw [hasActiveLease_iff ht] at hact
    constructor
    · intro hl l hl'
      rw [hl] at hl'
      cases hl'
    · intro hall
      cases hl : s.lease with
      | none => rfl
      | some l => exact absurd ⟨l, hl, hall l hl⟩ hact

/-- To resume is to leave the idle state, in which no lease is held. -/
theorem handleResume_agrees (h : Agrees s) : Agrees s.handleResume := by
  unfold handleResume
  split
  next hidle =>
    exact (h.transitionTo_iff (by decide)).mpr (h.lease_none (by rw [hidle]; decide))
  next => exact h

/-- In the error state no lease is held, and the way out of it takes none up. -/
theorem recoverError_agrees {connected : Bool} (h : Agrees s) :
    Agrees (s.recoverError connected) := by
  unfold recoverError
  split
  next herr =>
    have hl := h.lease_none (by rw [herr]; decide)
    split
    · exact (h.transitionTo_iff (show PlatformState.AVAILABLE ≠ .MINING by decide)).mpr hl
    · exact (h.transitionTo_iff (by decide)).mpr hl
  next => exact h

/-- The watchdog ends a lease that has run out. -/
theorem watchdog_agrees {connected : Bool} (h : Agrees s) : Agrees (s.watchdog connected now) := by
  unfold watchdog
  dsimp only
  split
  · exact recoverError_agrees complete_agrees
  · exact recoverError_agrees h

/-! ## Steps and runs -/

/-- A step keeps the agreement exactly when it is none of the exceptions. -/
theorem step_agrees_iff (keccak : Bytes → Bytes) {x : Int × PlatformStep} (h : Agrees s)
    (ht : Timed s) :
    Agrees (s.step keccak x) ↔ Meets s x := by
  obtain ⟨now, x⟩ := x
  unfold Platform.step Meets
  cases hrun : s.running with
  | false => simp [h]
  | true =>
    simp only [if_true, true_implies]
    cases x with
    | watchdog connected => simp [watchdog_agrees h]
    | message msg =>
      simp only [onMessage]
      cases route msg with
      | registerAck => exact handleRegisterAck_agrees_iff h
      | assignTask => simp [handleAssignTask_agrees h]
      | release => simp [handleRelease_agrees h]
      | pause => exact dropActiveLease_agrees_iff h ht
      | resume => simp [handleResume_agrees h]
      | shutdown =>
        simp only [stop, hrun, if_true]
        exact dropActiveLease_agrees_iff (s := { s with running := false })
          (h.of_standing ⟨rfl, rfl, rfl⟩) ht
      | setConfig => simp [h.of_standing (handleSetConfig_standing keccak msg)]
      | ignored => simp [h]

/-- A step leaves the lease, drops it, or stores one with an end. -/
theorem step_lease (keccak : Bytes → Bytes) (s : Platform) (x : Int × PlatformStep) :
    (s.step keccak x).lease = s.lease ∨ (s.step keccak x).lease = none ∨
      ∃ l, (s.step keccak x).lease = some l ∧ 0 < l.duration_sec := by
  have hdrop : ∀ (s : Platform) now, (s.dropActiveLease now).lease = s.lease ∨
      (s.dropActiveLease now).lease = none := by
    intro s now
    unfold dropActiveLease
    split
    · exact Or.inr rfl
    · exact Or.inl rfl
  obtain ⟨now, x⟩ := x
  unfold Platform.step
  split
  next hrun =>
    cases x with
    | watchdog connected =>
      have hrec : ∀ s : Platform, (s.recoverError connected).lease = s.lease := by
        intro s
        unfold recoverError
        repeat' split
        all_goals rfl
      simp only [watchdog, hrec]
      split
      · exact Or.inr (Or.inl rfl)
      · exact Or.inl rfl
    | message msg =>
      simp only [onMessage]
      -- only an assigned task brings a lease, and its duration has been checked
      cases route msg with
      | registerAck =>
        left
        dsimp only
        unfold handleRegisterAck
        repeat' split
        all_goals rfl
      | assignTask =>
        rcases handleAssignTask_cases keccak s msg now with
          heq | ⟨-, -, heq⟩ | ⟨-, l, hl, heq⟩
        · exact Or.inl (by simp only [heq])
        · exact Or.inl (by simp only [heq]; rfl)
        · exact Or.inr (Or.inr ⟨l, by simp only [heq], hl⟩)
      | release =>
        rcases handleRelease_cases s msg with heq | heq
        · exact Or.inl (by simp only [heq])
        · exact Or.inr (Or.inl (by simp only [heq]; rfl))
      | pause => exact (hdrop s now).imp id Or.inl
      | resume =>
        left
        dsimp only
        unfold handleResume
        split <;> rfl
      | shutdown =>
        simp only [stop, hrun, if_true]
        exact (hdrop { s with running := false } now).imp id Or.inl
      | setConfig => exact Or.inl (handleSetConfig_standing keccak msg).lease
      | ignored => exact Or.inl rfl
  next => exact Or.inl rfl

/-- Every lease that is held has a positive duration. -/
theorem step_timed {x : Int × PlatformStep} (ht : Timed s) : Timed (s.step keccak x) := by
  intro l hl
  rcases step_lease keccak s x with heq | heq | ⟨l', heq, hpos⟩
  · rw [heq] at hl
    exact ht l hl
  · rw [heq] at hl
    cases hl
  · rw [heq] at hl
    cases hl
    exact hpos

/-- While they agree, the watchdog ends every lease that is over. -/
theorem watchdogEnds_of_agrees {x : Int × PlatformStep} (h : Agrees s) (ht : Timed s) :
    WatchdogEnds keccak s x := by
  intro connected l hrun hx hl hend
  have hmining : s.state = .MINING := h.mining.mpr (by rw [hl]; rfl)
  have hexp : isExpired s.lease x.1 = true := by
    rw [hl]
    exact (isExpired_iff _ (ht l hl)).mpr hend
  unfold Platform.step
  rw [if_pos hrun, hx]
  simp only [watchdog, hmining, hexp, decide_true, Bool.and_self, if_true]
  exact ⟨rfl, rfl⟩

/-- The manager as `start` leaves it, before or after it reports itself
available. -/
structure Started (s : Platform) : Prop where
  running : s.running = true
  state : s.state = .IDLE ∨ s.state = .AVAILABLE
  lease : s.lease = none
  mode : s.context.mode = .SELF_MINING

/-- A platform that has just been started is free. -/
theorem Started.agrees (h : Started s) : Agrees s := by
  refine Agrees.of_free ?_ h.lease h.mode
  rcases h.state with heq | heq <;> rw [heq] <;> decide

/-- And holds no lease. -/
theorem Started.timed (h : Started s) : Timed s := by
  intro l hl
  rw [h.lease] at hl
  cases hl

/-- A run with one step more. -/
theorem run_concat {xs : List (Int × PlatformStep)} {x : Int × PlatformStep} :
    s.run keccak (xs ++ [x]) = (s.run keccak xs).step keccak x := by
  unfold Platform.run
  rw [List.foldl_append, List.foldl_cons, List.foldl_nil]

/-- From one step to a whole run. -/
theorem run_timed {xs : List (Int × PlatformStep)} (ht : Timed s) : Timed (s.run keccak xs) := by
  induction xs using List.reverseRecOn with
  | nil => exact ht
  | append_singleton xs x ih =>
    rw [run_concat]
    exact step_timed ih

/-- Over any run of a started manager, at any times: platform state, lease and
context agree after every step, and every watchdog pass at or past the lease's
end finishes it, exactly when no step of the run is one of the exceptions. -/
theorem lease_invariant_iff {xs : List (Int × PlatformStep)} (hs : Started s) :
    ((∀ pre post, xs = pre ++ post → Agrees (s.run keccak pre)) ∧
      ∀ pre x post, xs = pre ++ x :: post → WatchdogEnds keccak (s.run keccak pre) x) ↔
      ∀ pre x post, xs = pre ++ x :: post → Meets (s.run keccak pre) x := by
  constructor
  · rintro ⟨hagree, -⟩ pre x post hxs
    rw [← step_agrees_iff keccak (hagree pre _ hxs) (run_timed hs.timed), ← run_concat]
    exact hagree (pre ++ [x]) post (by rw [hxs, List.append_assoc]; rfl)
  · intro hmeets
    have hagree : ∀ pre post, xs = pre ++ post → Agrees (s.run keccak pre) := by
      intro pre
      induction pre using List.reverseRecOn with
      | nil => exact fun _ _ => hs.agrees
      | append_singleton pre x ih =>
        intro post hxs
        have hxs' : xs = pre ++ x :: post := by rw [hxs, List.append_assoc]; rfl
        rw [run_concat]
        exact (step_agrees_iff keccak (ih _ hxs') (run_timed hs.timed)).mpr (hmeets _ _ _ hxs')
    exact ⟨hagree, fun pre x post hxs =>
      watchdogEnds_of_agrees (hagree pre _ hxs) (run_timed hs.timed)⟩

end Handlers

/-! ## A lease of one minute -/

/-- Keccak-256 of the sample address, in hexadecimal. -/
def sampleKeccak (_ : Bytes) : Bytes :=
  lit "D385650CE8FDC6DB7EE3A091D34814DBC4CE18219FFAE52182EFFF4034D707E5"

/-- A rig that has just started. -/
def sampleRig : Platform where
  running := true
  state := .AVAILABLE
  lease := none
  context := ⟨.SELF_MINING, [], [], [], []⟩
  identity := ⟨lit "0xme", [], []⟩
  globalDifficulty := 1

/-- A task for one minute. -/
def sampleTask : JsonValue := .object
  [(lit "command", .string (lit "assign_task")),
    (lit "consumer_address", .string (lit "0x5aAeb6053F3E94C9b9A09f33669435E7Ef1BeAed")),
    (lit "consumer_id", .string (lit "c1")),
    (lit "duration_sec", .number_unsigned 60),
    (lit "lease_id", .string (lit "l1"))]

/-- The platform accepts the registration, again. -/
def sampleAck : JsonValue := .object
  [(lit "accepted", .boolean true), (lit "command", .string (lit "register_ack"))]

theorem sampleRig_started : Started sampleRig := ⟨rfl, Or.inr rfl, rfl, rfl⟩

private theorem route_sampleTask : route sampleTask = .assignTask := by decide

/-- A task that is assigned to a platform that was just started. -/
theorem lease_invariant_iff_sample :
    Started sampleRig ∧
    (sampleRig.run sampleKeccak [(0, .message sampleTask)]).state = .MINING ∧
    Agrees (sampleRig.run sampleKeccak [(0, .message sampleTask)]) ∧
    WatchdogEnds sampleKeccak (sampleRig.run sampleKeccak [(0, .message sampleTask)])
      (60000000000, .watchdog true) := by
  have hmeets : ∀ x ∈
    [((0 : Int), PlatformStep.message sampleTask), (60000000000, .watchdog true)],
      ∀ s, Meets s x := by
    intro x hx s _
    simp only [List.mem_cons, List.not_mem_nil, or_false] at hx
    rcases hx with rfl | rfl
    · simp only [route_sampleTask]
    · trivial
  obtain ⟨hagree, hends⟩ := (@lease_invariant_iff sampleKeccak _
      [(0, .message sampleTask), (60000000000, .watchdog true)] sampleRig_started).mpr
    fun pre x post hxs => hmeets x (by rw [hxs]; simp) _
  exact ⟨sampleRig_started, by decide, hagree [_] [_] rfl, hends [_] _ [] rfl⟩

/-- A registration answer in the middle of a lease: the rig goes on mining for
the consumer and reports itself available. -/
theorem lease_invariant_reregistered :
    Started sampleRig ∧
    ¬ Agrees (sampleRig.run sampleKeccak [(0, .message sampleTask), (1, .message sampleAck)]) := by
  refine ⟨sampleRig_started, fun h => ?_⟩
  have hlease : (sampleRig.run sampleKeccak
      [(0, .message sampleTask), (1, .message sampleAck)]).lease.isSome = true := by
    decide
  have hstate : (sampleRig.run sampleKeccak
      [(0, .message sampleTask), (1, .message sampleAck)]).state = .AVAILABLE := by
    decide
  have := h.mining.mpr hlease
  rw [hstate] at this
  cases this

end TreeMiner

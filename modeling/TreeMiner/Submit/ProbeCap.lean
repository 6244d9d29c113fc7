import TreeMiner.Submit.HalfOpen

/-!
# The probe ceiling in a XUNI window (`CircuitBreaker.cpp`, `SubmissionManager.cpp`)

While an eligible XUNI exists the breaker caps its probe delay at `probe_cap_xuni_ms`.
It learns of one through `setXuniPressure`, and `submitStep_`, which calls it, does not
run while the breaker is open. So the flag stays for a whole outage what it was when
the breaker opened, and a window that opens during the outage, or a XUNI found in it,
does not pull the probe in.

The clock matters here: a call is followed with the readings of the monotonic clock it
has taken (`readings`), and a run with the last one (`lastMono`).
-/

namespace TreeMiner

open Cxx Interleave Checked

/-! ## Readings of the clock -/

/-- The readings of the monotonic clock in a call, oldest first. -/
def readings : Events → List Int
  | [] => []
  | ⟨.mono, t⟩ :: h => readings h ++ [t]
  | _ :: h => readings h

/-- Reading the clock, loading and storing members. -/
def Op.paced : Op → Bool
  | .mono | .members | .setMembers _ => true
  | _ => false

/-- What is loaded, stored and read of the clock. -/
def pace (h : Events) : Option Members × Option Members × List Int :=
  ((tally h).loaded, (tally h).stored, readings h)

/-- An operation that is not noted leaves the pace as it is. -/
theorem pace_cons_of_not_paced {o : Op} {a : o.Ans} {h : Events} (ho : o.paced = false) :
    pace (⟨o, a⟩ :: h) = pace h := by
  have hadd : ∀ (s : Tally) b, (if b = true then { s with retries := s.retries + 1 }
      else { s with lookups := s.lookups + 1 }).loaded = s.loaded ∧
      (if b = true then { s with retries := s.retries + 1 }
      else { s with lookups := s.lookups + 1 }).stored = s.stored := by
    intro s b
    cases b <;> exact ⟨rfl, rfl⟩
  unfold pace
  cases o with
  | mono | members | setMembers => cases ho
  | confirm key =>
    show ((Tally.add (tally h) _).loaded, (Tally.add (tally h) _).stored, readings h) = _
    unfold Tally.add
    dsimp only
    rw [(hadd _ _).1, (hadd _ _).2]
  | recordAttempt id c st body next now =>
    show ((Tally.add (tally h) _).loaded, (Tally.add (tally h) _).stored, readings h) = _
    unfold Tally.add
    dsimp only
    split <;> rfl
  | _ => rfl

/-- What is not marked is not noted either: the reading of the monotonic clock is the difference. -/
theorem Op.not_paced {o : Op} (ho : o.marked = false) : o.paced = false := by
  cases o with
  | mono | members | setMembers => cases ho
  | _ => rfl

/-- A part without marked operations keeps the pace. -/
theorem Silent.paced {α : Type} {P : α → Prop} {h : Events} {p : Step α}
    (hp : Silent Op.marked P h p) : Silent Op.paced P h p :=
  Prog.Along.mono (fun _ _ ha => ha) (fun _ _ ho => Op.not_paced ho) (fun _ _ ha => ha) hp

/-! ## What a call does to the schedule -/

section Breaker

variable {cfg : BreakerConfig} {b : Breaker} {now : Int}

/-- An open breaker probes after at most its interval and its ceiling, from `t` on. -/
def DueBy (cfg : BreakerConfig) (b : Breaker) (t : Int) : Prop :=
  b.next_probe_at_ms ≤ t + min b.probe_interval_ms (b.activeCapMs cfg)

/-- The probe is scheduled for now plus the interval, cut to the ceiling. -/
theorem scheduleProbe_dueBy : DueBy cfg (b.scheduleProbe cfg now) now := by
  have hcap : (b.scheduleProbe cfg now).activeCapMs cfg = b.activeCapMs cfg := rfl
  have hint : (b.scheduleProbe cfg now).probe_interval_ms = b.probe_interval_ms := rfl
  unfold DueBy
  rw [hcap, hint]
  unfold Breaker.scheduleProbe
  dsimp only
  split
  · rw [min_eq_left (min_le_right _ _)]
  · exact le_rfl

/-- An opening schedules the probe in the same way. -/
theorem doOpen_dueBy : DueBy cfg (b.doOpen cfg now) now := scheduleProbe_dueBy

/-- So does a failed probe, whose interval is the double one; the flag stays. -/
theorem onProbeFailure_dueBy (ho : b.state = .Open) :
    DueBy cfg (b.onProbeFailure cfg now) now ∧
      (b.onProbeFailure cfg now).probe_interval_ms =
        min (wrap64 (b.probe_interval_ms * 2)) cfg.probe_cap_ms ∧
      (b.onProbeFailure cfg now).xuni_pressure = b.xuni_pressure := by
  unfold Breaker.onProbeFailure
  rw [if_neg (by simp [ho])]
  exact ⟨scheduleProbe_dueBy, rfl, rfl⟩

/-- With the flag set the ceiling is the one for XUNI. -/
theorem activeCap_le (hx : b.xuni_pressure = true) :
    b.activeCapMs cfg ≤ cfg.probe_cap_xuni_ms := by
  unfold Breaker.activeCapMs
  rw [if_pos hx]
  exact min_le_right _ _

end Breaker

/-- An outcome that opens the breaker schedules a probe. -/
theorem afterOutcome_dueBy {cfg : Config} {m : Members} {was_closed : Bool} {c : Classification}
    {res : TransportResult} {now : Int} (ho : m.breaker.state ≠ .Open)
    (hopen : (afterOutcome cfg m was_closed c res now).breaker.state = .Open) :
    DueBy cfg.breaker (afterOutcome cfg m was_closed c res now).breaker now := by
  -- only the outcomes that reach `doOpen` leave the breaker open; an inconclusive verify keeps the
  -- state it found
  have hinc : m.breaker.onVerifyInconclusive.state = m.breaker.state := by
    unfold Breaker.onVerifyInconclusive
    dsimp only
    split <;> rfl
  unfold afterOutcome at hopen ⊢
  split at hopen
  next hacc => cases hopen
  next hacc =>
    rw [if_neg hacc]
    split at hopen
    next htf =>
      rw [if_pos htf]
      dsimp only at hopen ⊢
      unfold Breaker.onVerifyTransportFailure at hopen ⊢
      split at hopen
      next hh => simp only [hh]; exact doOpen_dueBy
      next hc =>
        simp only [hc]
        dsimp only at hopen ⊢
        split at hopen
        next hthr =>
          rw [if_pos hthr]
          exact doOpen_dueBy
        next =>
          rw [hc] at hopen
          cases hopen
      next hop => exact absurd hop ho
    next htf =>
      split at hopen <;> exact absurd (hinc ▸ hopen) ho

/-- The breaker stored, against the one loaded and the readings of the call. -/
structure Rescheduled (cfg : BreakerConfig) (b b' : Breaker) (ts : List Int) : Prop where
  outage : b.state = .Open → b'.state = .Open →
    ∃ t₁ t₂, (ts = [t₁, t₂] ∧ b.probeDue t₂ = false ∧ b' = b) ∨
      ∃ t₃, ts = [t₁, t₂, t₃] ∧ b.probeDue t₂ = true ∧
        b' = b.onProbeFailure cfg t₃
  opens : b.state ≠ .Open → b'.state = .Open → ∃ t ∈ ts, DueBy cfg b' t

/-- At every operation of a call. -/
def Paced (cfg : Config) (h : Events) (o : Op) : Prop :=
  (tally h).stored = none ∧ ∀ m', o = .setMembers m' → ∃ m, (tally h).loaded = some m ∧
    Rescheduled cfg.breaker m.breaker m'.breaker (readings h)

/-- And when it returns. -/
def PacedDone (cfg : Config) (h : Events) : Prop :=
  ∀ m', (tally h).stored = some m' → ∃ m, (tally h).loaded = some m ∧
    Rescheduled cfg.breaker m.breaker m'.breaker (readings h)

/-! ## Along a call -/

section Steps

variable {cfg : Config} {m₀ m : Members} {h : Events} {ts : List Int}

/-- While the members are loaded and not stored, an operation other than the store is in its place.
-/
theorem paced_of_pace {o : Op} (hp : pace h = (some m₀, none, ts))
    (ho : ∀ m, o ≠ .setMembers m) :
    Paced cfg h o :=
  ⟨(Prod.mk.inj (Prod.mk.inj hp).2).1, fun m' hm' => absurd hm' (ho m')⟩

/-- A helper that reads no clock. -/
theorem Silent.pacing {α : Type} {P : α → Prop} {D : Events → α → Prop} {p : Step α}
    (hs : Silent Op.paced P h p) (hp : pace h = (some m₀, none, ts))
    (hD : ∀ h' a, pace h' = (some m₀, none, ts) → P a → D h' a) :
    Prog.Along (fun _ _ => True) (Paced cfg) D h p := by
  refine hs.along pace_cons_of_not_paced (fun h' o hf ho => ?_) fun h' a hf ha => ?_
  · refine paced_of_pace (hf.trans hp) ?_
    rintro m rfl
    cases ho
  · exact hD h' a (hf.trans hp) ha

/-- One reading. -/
theorem pace_mono {t : Int} (hp : pace h = (some m₀, none, ts)) :
    pace (⟨.mono, t⟩ :: h) = (some m₀, none, ts ++ [t]) := by
  have hts : readings h = ts := (Prod.mk.inj (Prod.mk.inj hp).2).2
  unfold pace at hp ⊢
  rw [show readings (⟨.mono, t⟩ :: h) = readings h ++ [t] from rfl, ← hts]
  rw [← hts] at hp
  exact congrArg (fun x => (x.1, x.2.1, readings h ++ [t])) hp

/-- The evaluation of the margin reads the clock once and leaves the breaker alone. -/
theorem updateMargin_pacing (hp : pace h = (some m₀, none, ts)) :
    Prog.Along (fun _ _ => True) (Paced cfg)
      (fun h' m' => (∃ t, pace h' = (some m₀, none, ts ++ [t])) ∧ m'.breaker = m.breaker) h
      (updateMargin cfg m) := by
  refine Prog.Along.call (paced_of_pace hp (by simp)) fun now _ => ?_
  have hp₁ := pace_mono (t := now) hp
  dsimp only
  split
  · exact ⟨⟨now, hp₁⟩, outageClock_breaker⟩
  split
  · exact ⟨⟨now, hp₁⟩, outageClock_breaker⟩
  split
  · exact Prog.Along.call (paced_of_pace hp₁ (by simp))
      fun _ _ => ⟨⟨now, hp₁⟩, outageClock_breaker⟩
  · exact ⟨⟨now, hp₁⟩, outageClock_breaker⟩

/-- A step with an open breaker: no probe is due, or one is made and succeeds, or fails and is
scheduled anew. -/
theorem probeStep_pacing {t₁ : Int} (hp : pace h = (some m₀, none, [t₁]))
    (hm : m.breaker = m₀.breaker) (ho : m₀.breaker.state = .Open) :
    Prog.Along (fun _ _ => True) (Paced cfg)
      (fun h' r => ∃ ts, pace h' = (some m₀, none, ts) ∧
        Rescheduled cfg.breaker m₀.breaker r.2.breaker ts) h (probeStep cfg m) := by
  refine Prog.Along.call (paced_of_pace hp (by simp)) fun t₂ _ => ?_
  have hp₂ := pace_mono (t := t₂) hp
  split
  next hdue =>
    refine ⟨_, hp₂, fun _ _ => ⟨t₁, t₂, Or.inl ⟨rfl, ?_, hm⟩⟩,
      fun hne => absurd ho hne⟩
    rw [← hm]
    simpa using hdue
  next hdue =>
    refine Prog.Along.call (paced_of_pace hp₂ (by simp)) fun r _ => ?_
    have hp₃ : pace (⟨.difficulty, r⟩ :: ⟨.mono, t₂⟩ :: h) =
      (some m₀, none, [t₁] ++ [t₂]) :=
      (pace_cons_of_not_paced rfl).trans hp₂
    refine (trackServerDate_silent.paced.pacing hp₃ fun h' a hf ha =>
      (⟨hf, ha⟩ : pace h' = _ ∧ a.breaker = m.breaker)).bind fun h₄ m₄ hm₄ => ?_
    split
    · refine (handleDifficultyBody_silent.paced.pacing hm₄.1 fun h' a hf _ => hf).bind
        fun h₅ _ hp₅ => ?_
      refine (logBreakerTransition_silent.paced.pacing hp₅ fun h' a hf _ => hf).bind
        fun h₆ _ hp₆ => ?_
      refine ⟨_, hp₆, fun _ hop => ?_, fun hne => absurd ho hne⟩
      -- the breaker is half-open now
      have hst : m₄.breaker.state = .Open := by
        rw [hm₄.2, hm]
        exact ho
      have hop' : m₄.breaker.onProbeSuccess.state = .Open := hop
      unfold Breaker.onProbeSuccess at hop'
      rw [if_neg (by simp [hst])] at hop'
      cases hop'
    · refine Prog.Along.call (paced_of_pace hm₄.1 (by simp)) fun t₃ _ => ?_
      refine ⟨_, pace_mono hm₄.1, fun _ _ => ⟨t₁, t₂, Or.inr ⟨t₃, rfl, ?_, ?_⟩⟩,
        fun hne => absurd ho hne⟩
      · rw [← hm]
        simpa using hdue
      · show m₄.breaker.onProbeFailure cfg.breaker t₃ = _
        rw [hm₄.2, hm]

/-- What a step from a breaker that is not open leaves: if it is open now, it was opened
at one of the readings. -/
def Opened (cfg : Config) (m₀ : Members) (h : Events) (r : StepResult × Members) : Prop :=
  ∃ ts, pace h = (some m₀, none, ts) ∧
    (r.2.breaker.state = .Open → ∃ t ∈ ts, DueBy cfg.breaker r.2.breaker t)

/-- A part that ends with the state it began with has not opened the breaker. -/
theorem opened_of_state {r : StepResult × Members} {b : Breaker}
    (hp : pace h = (some m₀, none, ts)) (ho : b.state ≠ .Open)
    (hr : r.2.breaker.state = b.state) :
    Opened cfg m₀ h r := by
  refine ⟨ts, hp, fun hop => ?_⟩
  rw [hr] at hop
  exact absurd hop ho

/-- An admission changes no state. -/
theorem tryAdmit_state {b : Breaker} : b.tryAdmit.2.state = b.state := by
  unfold Breaker.tryAdmit
  split
  · rfl
  · split <;> rfl
  · rfl

/-- The first lookup leaves the breaker alone. -/
theorem confirmFresh_silent {rec : FindRecord} {c : Classification} :
    Silent Op.paced (fun r : Members × Classification × Option Bytes => r.1.breaker = m.breaker) h
      (confirmFresh cfg m rec c) := by
  unfold confirmFresh
  split
  · refine silent_call rfl fun conf => ?_
    refine trackServerDate_silent.paced.bind fun h₁ m₁ hm₁ => ?_
    exact lookupRetryTime_silent.paced.bind fun _ _ _ => hm₁
  · exact rfl

/-- If an attempt opens the breaker, it schedules the probe at its last reading of the clock. -/
theorem attempt_pacing {now_mono : Int} {rec : FindRecord} (hp : pace h = (some m₀, none, ts))
    (ho : m.breaker.state ≠ .Open) :
    Prog.Along (fun _ _ => True) (Paced cfg) (Opened cfg m₀) h (attempt cfg m now_mono rec) := by
  refine Prog.Along.call (paced_of_pace hp (by simp)) fun res _ => ?_
  have hp₁ : pace (⟨.submit rec.payload, res⟩ :: h) = (some m₀, none, ts) :=
    (pace_cons_of_not_paced rfl).trans hp
  refine (trackServerDate_silent.paced.pacing hp₁ fun h' a hf ha =>
    (⟨hf, ha⟩ : pace h' = _ ∧ a.breaker = m.breaker)).bind fun h₂ m₂ hm₂ => ?_
  refine (takeHint_silent.paced.pacing hm₂.1 fun h' a hf _ => hf).bind fun h₃ _ hp₃ => ?_
  refine (confirmFresh_silent.pacing hp₃ fun h' a hf ha =>
    (⟨hf, ha⟩ : pace h' = _ ∧ a.1.breaker = m₂.breaker)).bind fun h₄ r hr => ?_
  obtain ⟨m₄, c, next⟩ := r
  obtain ⟨hp₄, hm₄⟩ := hr
  refine (retryTime_silent.paced.pacing hp₄ fun h' a hf _ => hf).bind fun h₅ next₅ hp₅ => ?_
  refine Prog.Along.call (paced_of_pace hp₅ (by simp)) fun w _ => ?_
  have hp₆ : pace (⟨.wall, w⟩ :: h₅) = (some m₀, none, ts) :=
    (pace_cons_of_not_paced rfl).trans hp₅
  refine Prog.Along.call (paced_of_pace hp₆ (by simp)) fun _ _ => ?_
  have hp₇ : pace
    (⟨.recordAttempt rec.id c (httpStatus res) res.body next₅ (isoUtc w), ()⟩ ::
      ⟨.wall, w⟩ :: h₅) = (some m₀, none, ts) := (pace_cons_of_not_paced rfl).trans hp₆
  refine Prog.Along.call (paced_of_pace hp₇ (by simp)) fun now _ => ?_
  refine (logBreakerTransition_silent.paced.pacing (pace_mono (t := now) hp₇)
    fun h' a hf _ => hf).bind fun h₈ _ hp₈ => ?_
  refine ⟨_, hp₈, fun hop => ⟨now, by simp, ?_⟩⟩
  have ho₄ : m₄.breaker.state ≠ .Open := by
    rw [show m₄.breaker = m.breaker from hm₄.trans hm₂.2]
    exact ho
  exact afterOutcome_dueBy ho₄ hop

/-- So it is for the attempt with its admission. -/
theorem admitRecord_pacing {now_mono : Int} {rec : FindRecord}
    (hp : pace h = (some m₀, none, ts)) (ho : m.breaker.state ≠ .Open) :
    Prog.Along (fun _ _ => True) (Paced cfg) (Opened cfg m₀) h
      (admitRecord cfg m now_mono rec) := by
  unfold admitRecord
  dsimp only
  split
  · refine attempt_pacing hp ?_
    show m.breaker.tryAdmit.2.state ≠ .Open
    rw [tryAdmit_state]
    exact ho
  · exact opened_of_state hp ho tryAdmit_state

/-- A record that is parked unsent opens nothing. -/
theorem submitRecord_pacing {now_mono : Int} {rec : FindRecord}
    (hp : pace h = (some m₀, none, ts)) (ho : m.breaker.state ≠ .Open) :
    Prog.Along (fun _ _ => True) (Paced cfg) (Opened cfg m₀) h
      (submitRecord cfg m now_mono rec) := by
  unfold submitRecord
  split
  swap
  · exact admitRecord_pacing hp ho
  refine Prog.Along.call (paced_of_pace hp (by simp)) fun known _ => ?_
  have hp₁ : pace (⟨.lastDifficulty, known⟩ :: h) = (some m₀, none, ts) :=
    (pace_cons_of_not_paced rfl).trans hp
  split
  next d =>
    split
    · refine Prog.Along.call (paced_of_pace hp₁ (by simp)) fun w _ => ?_
      have hp₂ : pace (⟨.wall, w⟩ :: ⟨.lastDifficulty, some d⟩ :: h) =
        (some m₀, none, ts) :=
        (pace_cons_of_not_paced rfl).trans hp₁
      refine Prog.Along.call (paced_of_pace hp₂ (by simp)) fun _ _ => ?_
      exact opened_of_state ((pace_cons_of_not_paced rfl).trans hp₂) ho rfl
    · exact admitRecord_pacing hp₁ ho
  · exact admitRecord_pacing hp₁ ho

/-- The scheduling step sets the flag for XUNI and then makes one attempt at most. -/
theorem submitStep_pacing (hp : pace h = (some m₀, none, ts)) (ho : m.breaker.state ≠ .Open) :
    Prog.Along (fun _ _ => True) (Paced cfg) (Opened cfg m₀) h (submitStep cfg m) := by
  refine Prog.Along.call (paced_of_pace hp (by simp)) fun now_mono _ => ?_
  have hp₁ := pace_mono (t := now_mono) hp
  split
  · exact opened_of_state hp₁ ho rfl
  refine (enterWindow_silent.paced.pacing hp₁ fun h' a hf _ => hf).bind
    fun h₂ window hp₂ => ?_
  refine (fetchEligible_silent.paced.pacing hp₂ fun h' a hf _ => hf).bind fun h₃ r hp₃ => ?_
  obtain ⟨eligible, pressure⟩ := r
  refine Prog.Along.call (paced_of_pace hp₃ (by simp)) fun now _ => ?_
  have hp₄ := pace_mono (t := now) hp₃
  have hst : (m.breaker.setXuniPressure cfg.breaker pressure now).state = m.breaker.state :=
    setXuniPressure_state
  dsimp only
  split
  · exact opened_of_state hp₄ ho hst
  refine Prog.Along.call (paced_of_pace hp₄ (by simp)) fun trend _ => ?_
  have hp₅ := (pace_cons_of_not_paced (o := .trend) (a := trend) rfl).trans hp₄
  split
  · exact opened_of_state hp₅ ho hst
  · refine submitRecord_pacing hp₅ ?_
    show (m.breaker.setXuniPressure cfg.breaker pressure now).state ≠ .Open
    rw [hst]
    exact ho

/-- The confirmation does not move the breaker. -/
theorem confirmOne_silent {rec : FindRecord} :
    Silent Op.paced (fun r : Members × Bool => r.1.breaker = m.breaker) h
      (confirmOne cfg m rec) := by
  refine silent_call rfl fun conf => ?_
  refine trackServerDate_silent.paced.bind fun h₁ m₁ hm₁ => ?_
  refine lookupRetryTime_silent.paced.bind fun h₂ next _ => ?_
  exact silent_call rfl fun w => silent_call rfl fun _ => hm₁

/-- Nor does the loop over the records. -/
theorem confirmLoop_silent : ∀ (recs : List FindRecord) {m : Members} {h : Events},
    Silent Op.paced (fun m' : Members => m'.breaker = m.breaker) h (confirmLoop cfg recs m)
  | [], _, _ => rfl
  | rec :: recs, m, h => by
    refine confirmOne_silent.bind fun h₁ r hr => ?_
    obtain ⟨m₁, goOn⟩ := r
    cases goOn with
    | false => exact hr
    | true =>
      exact (confirmLoop_silent recs).mono (fun _ _ ha => ha) (fun _ _ hC => hC)
        fun _ _ hD => hD.trans hr

/-- Nor the confirmation step. -/
theorem confirmStep_silent :
    Silent Op.paced (fun r : StepResult × Members => r.2.breaker = m.breaker) h
      (confirmStep cfg m) := by
  unfold confirmStep
  split
  · exact rfl
  refine silent_call rfl fun w => ?_
  refine silent_call rfl fun batch => ?_
  split
  · exact rfl
  · exact (confirmLoop_silent batch).bind fun _ _ hm => hm

/-- What a step does to the schedule of the probe, for a breaker that was open and one that was not.
-/
theorem runStep_pacing (hp : pace h = (some m₀, none, [])) :
    Prog.Along (fun _ _ => True) (Paced cfg)
      (fun h' r => ∃ ts, pace h' = (some m₀, none, ts) ∧
      Rescheduled cfg.breaker m₀.breaker r.2.breaker ts) h (runStep cfg m₀) := by
  refine (updateMargin_pacing hp).bind fun h₁ m₁ hm₁ => ?_
  obtain ⟨⟨t₁, hp₁⟩, hbr⟩ := hm₁
  split
  next hopen =>
    rw [hbr] at hopen
    exact probeStep_pacing hp₁ hbr hopen
  next hopen =>
    have ho₀ : m₀.breaker.state ≠ .Open := hbr ▸ hopen
    refine (submitStep_pacing hp₁ hopen).bind fun h₂ r hr => ?_
    obtain ⟨submit_result, m₂⟩ := r
    obtain ⟨ts, hp₂, hdue⟩ := hr
    refine (confirmStep_silent.pacing hp₂ fun h' a hf ha =>
      (⟨hf, ha⟩ : pace h' = _ ∧ a.2.breaker = m₂.breaker)).bind fun h₃ r hr => ?_
    obtain ⟨confirm_result, m₃⟩ := r
    obtain ⟨hp₃, hm₃⟩ := hr
    dsimp only at hm₃ hdue
    have hdone : ∃ ts, pace h₃ = (some m₀, none, ts) ∧
        Rescheduled cfg.breaker m₀.breaker m₃.breaker ts := by
      refine ⟨ts, hp₃, fun hop => absurd hop ho₀, fun _ => ?_⟩
      rw [hm₃]
      exact hdue
    show Prog.Along _ _ _ _ (if submit_result = .Idle ∧ confirm_result ≠ .Idle then _ else _)
    split
    · exact hdone
    · exact hdone

/-- The same of a call of `runOnce`, which loads the members and stores them. -/
theorem runOnce_pacing :
    Prog.Along (fun _ _ => True) (Paced cfg) (fun h _ => PacedDone cfg h) [] (runOnce cfg) := by
  refine Prog.Along.call ⟨rfl, by simp⟩ fun fatal _ => ?_
  cases fatal with
  | true => exact fun m' hm' => by cases hm'
  | false =>
    refine Prog.Along.call ⟨rfl, by simp⟩ fun m _ => ?_
    refine (runStep_pacing rfl).bind fun h₁ r hr => ?_
    obtain ⟨r, m'⟩ := r
    obtain ⟨ts, hp, hres⟩ := hr
    obtain ⟨hload, hp⟩ := Prod.mk.inj hp
    obtain ⟨hstored, hts⟩ := Prod.mk.inj hp
    rw [← hts] at hres
    refine Prog.Along.call ⟨hstored, fun m'' hm'' => ?_⟩ fun _ _ => fun m'' hm'' => ?_
    · cases hm''
      exact ⟨m, hload, hres⟩
    · have hm' : m' = m'' := Option.some.inj hm''
      rw [← hm']
      exact ⟨m, hload, hres⟩

end Steps

/-! ## Runs -/

abbrev WatchedTrace := List (WatchedConf × Label sig Party Call)

/-- The last reading of the monotonic clock by this process, after one more step. -/
def readOn (last : Option Int) : Label sig Party Call → Option Int
  | .did _ ⟨.mono, t⟩ => some t
  | .restarted => none
  | _ => last

/-- The last reading of the monotonic clock by this process. -/
def lastMono (tr : WatchedTrace) : Option Int := tr.foldl (fun last y => readOn last y.2) none

/-- The monotonic clock does not go back. -/
def Steady (tr : WatchedTrace) (y : WatchedConf × Label sig Party Call) : Prop :=
  ∀ i t, y.2 = .did i ⟨.mono, t⟩ → ∀ last, lastMono tr = some last → last ≤ t

/-- The clock has been read at `t` or later. -/
def Past (tr : WatchedTrace) (t : Int) : Prop := ∃ last, lastMono tr = some last ∧ t ≤ last

/-- An open breaker has been scheduled at some time in the past. -/
def Scheduled (cfg : Config) (tr : WatchedTrace) (b : Breaker) : Prop :=
  b.state = .Open → ∃ t, Past tr t ∧ DueBy cfg.breaker b t

/-- Only the submission thread stores members, and it does so as `Paced` says. -/
def PacedBy (cfg : Config) : Party → Events → Op → Prop
  | .submission => Paced cfg
  | _ => fun _ o => ∀ m, o ≠ .setMembers m

def PacedDoneBy (cfg : Config) : Party → Events → Option StepResult → Prop
  | .submission => fun h _ => PacedDone cfg h
  | _ => fun _ _ => True

section Runs

variable {cfg : Config} {c c' : WatchedConf} {l : Label sig Party Call} {tr : WatchedTrace}

/-- One more label is one more chance of a reading. -/
theorem lastMono_snoc {y : WatchedConf × Label sig Party Call} :
    lastMono (tr ++ [y]) = readOn (lastMono tr) y.2 := by
  unfold lastMono
  rw [List.foldl_append]
  rfl

/-- What is past stays past, until the process restarts. -/
theorem Past.snoc {y : WatchedConf × Label sig Party Call} {t : Int} (hp : Past tr t)
    (hs : Steady tr y) (hr : y.2 ≠ .restarted) : Past (tr ++ [y]) t := by
  obtain ⟨last, hl, ht⟩ := hp
  unfold Past
  rw [lastMono_snoc]
  by_cases hm : ∃ i t', y.2 = .did i ⟨.mono, t'⟩
  · obtain ⟨i, t', hy⟩ := hm
    rw [hy]
    exact ⟨t', rfl, ht.trans (hs i t' hy last hl)⟩
  · refine ⟨last, ?_, ht⟩
    unfold readOn
    split
    next i t' hy => exact absurd ⟨i, t', hy⟩ hm
    next hy => exact absurd hy hr
    next => exact hl

/-- A reading that has been made is in the past. -/
theorem past_read {i : Party} {t : Int} : Past (tr ++ [(c, .did i ⟨.mono, t⟩)]) t := by
  unfold Past
  rw [lastMono_snoc]
  exact ⟨t, rfl, le_rfl⟩

/-- While the clock does not go back, the schedule of a breaker stays one that was made in the past.
-/
theorem Scheduled.snoc {b : Breaker} {y : WatchedConf × Label sig Party Call}
    (hb : Scheduled cfg tr b) (hs : Steady tr y) (hr : y.2 ≠ .restarted) :
    Scheduled cfg (tr ++ [y]) b := by
  intro ho
  obtain ⟨t, hp, hd⟩ := hb ho
  exact ⟨t, hp.snoc hs hr, hd⟩

/-- What is stored is scheduled, if what was loaded is and the readings are past. -/
theorem Rescheduled.scheduled {b b' : Breaker} {ts : List Int}
    (hr : Rescheduled cfg.breaker b b' ts) (hb : Scheduled cfg tr b)
    (hts : ∀ t ∈ ts, Past tr t) :
    Scheduled cfg tr b' := by
  intro ho'
  by_cases ho : b.state = .Open
  · obtain ⟨t₁, t₂, ⟨-, -, heq⟩ | ⟨t₃, hts₃, -, heq⟩⟩ := hr.outage ho ho'
    · rw [heq]
      exact hb ho
    · rw [heq]
      exact ⟨t₃, hts t₃ (by rw [hts₃]; simp), (onProbeFailure_dueBy ho).1⟩
  · obtain ⟨t, ht, hd⟩ := hr.opens ho ho'
    exact ⟨t, hts t ht, hd⟩

/-- Every call of every thread, of which only the submission thread touches the members. -/
theorem body_paced {i : Party} {k : Call} (hm : (watched cfg).may i k = true) :
    Prog.Along (fun _ _ => True) (PacedBy cfg i) (PacedDoneBy cfg i) [] ((watched cfg).body k) := by
  cases k with
  | runOnce =>
    cases i with
    | submission => exact runOnce_pacing.bind fun h' r hr => hr
    | poller | miner => cases hm
  | observeDifficulty d =>
    cases i with
    | poller =>
      refine Prog.Along.bind (E := fun _ _ => True) ?_ fun _ _ _ => trivial
      refine Prog.Along.mono (fun _ _ ha => ha) (fun h o ho => ?_) (fun _ _ ha => ha)
        (observeDifficulty_silent (h := []) (d := d))
      rintro m rfl
      cases ho
    | submission | miner => cases hm
  | append p =>
    cases i with
    | miner n => exact ⟨fun m hm => (by cases hm), fun _ _ => trivial⟩
    | submission | poller => cases hm

/-- The schedule is kept by the members, by what a call has loaded and by what it has
read of the clock. -/
structure Clocked (cfg : Config) (tr : WatchedTrace) (c : WatchedConf) : Prop where
  members : Scheduled cfg tr c.world.members.breaker
  loaded : ∀ h p, c.pool .submission = some ⟨h, p⟩ → ∀ m, (tally h).loaded = some m →
    Scheduled cfg tr m.breaker
  read : ∀ h p, c.pool .submission = some ⟨h, p⟩ → ∀ t ∈ readings h, Past tr t
  paths : c.Along (fun _ _ => True) (PacedBy cfg) (PacedDoneBy cfg)

/-- A step that is no restart stores the members of the submission thread's call, or
leaves them as they are. -/
theorem step_members (hs : (watched cfg).Step c l c')
    (hc : c.Along (fun _ _ => True) (PacedBy cfg) (PacedDoneBy cfg)) (hl : l ≠ .restarted) :
    c'.world.members = c.world.members ∨ ∃ h k, c.pool .submission =
      some ⟨h, .op (.setMembers c'.world.members) k⟩ := by
  rcases Machine.step_cases hs with ⟨i, k, -, -, -, rfl⟩ |
      ⟨i, h, o, k, x, a, w, rfl, hp, he, rfl⟩ |
    ⟨i, h, o, k, w, rfl, -, ha, rfl⟩ | ⟨w, rfl, -, -⟩
  · exact Or.inl rfl
  · by_cases hset : ∃ m, o = .setMembers m
    · obtain ⟨m, rfl⟩ := hset
      have hpath := (hc i _ hp).1
      cases he
      cases i with
      | submission => exact Or.inr ⟨h, k, hp⟩
      | poller | miner => exact absurd rfl (hpath m)
    · exact Or.inl (exec_members he fun m hm => hset ⟨m, hm⟩)
  · refine Or.inl ?_
    simp only [watched, core] at ha
    split at ha <;> cases ha
    dsimp only
    split <;> rfl
  · exact absurd rfl hl

/-- What one more operation adds to what a call has loaded and read. -/
theorem loaded_cons {e : Event sig} {h : Events} {m : Members}
    (hm : (tally (e :: h)).loaded = some m) :
    (tally h).loaded = some m ∨ e = ⟨.members, m⟩ := by
  obtain ⟨o, a⟩ := e
  by_cases ho : o.paced = false
  · exact Or.inl ((congrArg Prod.fst (pace_cons_of_not_paced ho)).symm.trans hm)
  · cases o with
    | members =>
      cases hm
      exact Or.inr rfl
    | mono | setMembers => exact Or.inl hm
    | _ => exact absurd rfl ho

/-- A reading of a history is its last event or one before. -/
theorem readings_cons {e : Event sig} {h : Events} {t : Int} (ht : t ∈ readings (e :: h)) :
    t ∈ readings h ∨ e = ⟨.mono, t⟩ := by
  obtain ⟨o, a⟩ := e
  cases o with
  | mono =>
    rcases List.mem_append.mp ht with ht | ht
    · exact Or.inl ht
    · rw [List.mem_singleton.mp ht]
      exact Or.inr rfl
  | _ => exact Or.inl ht

/-- A step of the machine keeps the invariant: the readings of the call in progress are of the past,
and so is the schedule that is stored. -/
theorem Clocked.step (hc : Clocked cfg tr c) (hst : Steady tr (c, l))
    (hs : (watched cfg).Step c l c') : Clocked cfg (tr ++ [(c, l)]) c' := by
  have hpaths := hc.paths.step hs (fun _ _ _ _ _ _ => trivial) fun i k hm => body_paced hm
  by_cases hl : l = .restarted
  · -- a new process: the breaker is closed and nothing runs
    subst hl
    rcases Machine.step_cases hs with ⟨_, _, hl, -⟩ | ⟨_, _, _, _, _, _, _, hl, -⟩ |
      ⟨_, _, _, _, _, hl, -⟩ | ⟨w, -, hcr, rfl⟩
    · cases hl
    · cases hl
    · cases hl
    · cases hcr
      exact ⟨fun ho => (by cases ho), fun h p hp => (by cases hp), fun h p hp => (by cases hp),
        hpaths⟩
  have hsch : ∀ {b}, Scheduled cfg tr b → Scheduled cfg (tr ++ [(c, l)]) b :=
    fun hb => hb.snoc hst hl
  have hpast : ∀ {t}, Past tr t → Past (tr ++ [(c, l)]) t := fun hp => hp.snoc hst hl
  refine ⟨?_, fun h p hp m hm => ?_, fun h p hp t ht => ?_, hpaths⟩
  -- the members: stored by the thread from a schedule it has made within its own step
  · rcases step_members hs hc.paths hl with heq | ⟨h, k, hp⟩
    · rw [heq]
      exact hsch hc.members
    · obtain ⟨m, hm, hres⟩ := (hc.paths .submission _ hp).1.2 _ rfl
      refine hsch (hres.scheduled (hc.loaded h _ hp m hm) (hc.read h _ hp))
  · rcases hs.thread hp with ⟨k, -, -, heq⟩ | ⟨h₀, o, k, a, x, rfl, hp₀, he, heq⟩ |
        ⟨hp₀, -⟩
    · cases heq
      cases hm
    · cases heq
      rcases loaded_cons hm with hm | heq
      · exact hsch (hc.loaded h₀ _ hp₀ m hm)
      · cases heq
        have hmem : c.world.members = m := (Prod.mk.inj (Option.some.inj he)).1
        exact hsch (hmem ▸ hc.members)
    · exact hsch (hc.loaded h p hp₀ m hm)
  -- the readings: a new one is of now, the others were past before
  · rcases hs.thread hp with ⟨k, -, -, heq⟩ | ⟨h₀, o, k, a, x, rfl, hp₀, he, heq⟩ |
        ⟨hp₀, -⟩
    · cases heq
      cases ht
    · cases heq
      rcases readings_cons ht with ht | heq
      · exact hpast (hc.read h₀ _ hp₀ t ht)
      · cases heq
        exact past_read
    · exact hpast (hc.read h p hp₀ t ht)

/-- It holds along every run whose clock does not go back. -/
theorem clocked_of_run {j : Journal} (hr : Run (watched cfg) (openOn cfg j) tr c)
    (hst : Each Steady tr) : Clocked cfg tr c := by
  refine hr.invariant (I := Clocked cfg) (fun _ _ _ _ _ hI hG hs => hI.step hG hs) ?_ hst
  exact ⟨fun ho => (by cases ho), fun h p hp => (by cases hp), fun h p hp => (by cases hp),
    Conf.along_of_empty fun _ => rfl⟩

/-! ## One call of `runOnce` in a run -/

/-- The steps of one call: no restart, and no other call of the submission thread. -/
def OneCall (tr : WatchedTrace) : Prop :=
  ∀ y ∈ tr, y.2 ≠ .restarted ∧ ∀ k, y.2 ≠ .started .submission k

/-- In a call that began with members `m`: until it stores its own, they are the ones it
loaded and the ones in force. -/
structure InCall (cfg : Config) (m : Members) (tr : WatchedTrace) (c : WatchedConf) : Prop where
  gone : c.pool .submission = none → c.world.members = m
  unstored : ∀ h p, c.pool .submission = some ⟨h, p⟩ → (tally h).stored = none →
    c.world.members = m
  stored : ∀ h p, c.pool .submission = some ⟨h, p⟩ → ∀ m', (tally h).stored = some m' →
    c.world.members = m'
  loaded : ∀ h p, c.pool .submission = some ⟨h, p⟩ → ∀ m', (tally h).loaded = some m' →
    m' = m
  read : ∀ h p, c.pool .submission = some ⟨h, p⟩ → ∀ t ∈ readings h,
    ∃ c₁, (c₁, performed .submission .mono t) ∈ tr
  paths : c.Along (fun _ _ => True) (PacedBy cfg) (PacedDoneBy cfg)

/-- Only the store of the members stores them. -/
theorem stored_cons {e : Event sig} {h : Events} (he : ∀ m, e.op ≠ .setMembers m) :
    (tally (e :: h)).stored = (tally h).stored := by
  obtain ⟨o, a⟩ := e
  by_cases ho : o.paced = false
  · exact congrArg (fun x => x.2.1) (pace_cons_of_not_paced ho)
  · cases o with
    | setMembers m => exact absurd rfl (he m)
    | mono | members => rfl
    | _ => exact absurd rfl ho

/-- A step within the call keeps what is known of its beginning. -/
theorem InCall.step {m : Members} (hc : InCall cfg m tr c) (hl : l ≠ .restarted)
    (hn : ∀ k, l ≠ .started .submission k) (hs : (watched cfg).Step c l c') :
    InCall cfg m (tr ++ [(c, l)]) c' := by
  have hpaths := hc.paths.step hs (fun _ _ _ _ _ _ => trivial) fun i k hm => body_paced hm
  have hread : ∀ h p, c.pool .submission = some ⟨h, p⟩ → ∀ t ∈ readings h,
      ∃ c₁, (c₁, performed .submission .mono t) ∈ tr ++ [(c, l)] := by
    intro h p hp t ht
    obtain ⟨c₁, h₁⟩ := hc.read h p hp t ht
    exact ⟨c₁, List.mem_append_left _ h₁⟩
  -- the call does not move and the members stay
  have hsame : c'.pool .submission = c.pool .submission → c'.world.members = c.world.members →
      InCall cfg m (tr ++ [(c, l)]) c' := by
    intro hp hm
    constructor
    · rw [hp, hm]
      exact hc.gone
    · rw [hp, hm]
      exact hc.unstored
    · rw [hp, hm]
      exact hc.stored
    · rw [hp]
      exact hc.loaded
    · rw [hp]
      exact hread
    · exact hpaths
  rcases Machine.step_cases hs with ⟨i, k, rfl, -, -, rfl⟩ |
      ⟨i, h, o, k, x, a, w, rfl, hp, he, rfl⟩ |
    ⟨i, h, o, k, w, rfl, hp, ha, rfl⟩ | ⟨w, rfl, -, -⟩
  · have hi : Party.submission ≠ i := fun hi => hn k (by rw [hi])
    exact hsame (Function.update_of_ne hi _ _) rfl
  · by_cases hi : Party.submission = i
    swap
    · refine hsame (Function.update_of_ne hi _ _) (exec_members he ?_)
      have hpath := (hc.paths i _ hp).1
      cases i with
      | submission => exact absurd rfl hi
      | poller | miner => exact hpath
    subst hi
    have hun : (tally h).stored = none := (hc.paths .submission _ hp).1.1
    have hnew : ∀ {h' p'},
      Function.update c.pool .submission (some ⟨⟨o, a⟩ :: h, k a⟩) .submission =
        some ⟨h', p'⟩ → h' = ⟨o, a⟩ :: h := by
      intro h' p' hp'
      rw [Function.update_self] at hp'
      cases hp'
      rfl
    have hold : c.world.members = m := hc.unstored h _ hp hun
    refine ⟨fun hg => ?_, fun h' p' hp' hst => ?_, fun h' p' hp' m' hst => ?_,
      fun h' p' hp' m' hm' => ?_, fun h' p' hp' t ht => ?_, hpaths⟩
    · dsimp only at hg
      rw [Function.update_self] at hg
      cases hg
    · rw [hnew hp'] at hst
      have hset : ∀ m', o ≠ .setMembers m' := by
        rintro m' rfl
        cases hst
      exact (exec_members he hset).trans hold
    · rw [hnew hp'] at hst
      by_cases hset : ∃ m'', o = .setMembers m''
      · obtain ⟨m'', rfl⟩ := hset
        cases hst
        cases he
        rfl
      · rw [stored_cons fun m'' hm'' => hset ⟨m'', hm''⟩, hun] at hst
        cases hst
    · rw [hnew hp'] at hm'
      rcases loaded_cons hm' with hm' | heq
      · exact hc.loaded h _ hp m' hm'
      · cases heq
        have hmem : c.world.members = m' := (Prod.mk.inj (Option.some.inj he)).1
        rw [← hmem]
        exact hold
    · rw [hnew hp'] at ht
      rcases readings_cons ht with ht | heq
      · exact hread h _ hp t ht
      · rw [heq]
        exact ⟨c, List.mem_append_right _ (List.mem_singleton.mpr rfl)⟩
  · have hw : w.members = c.world.members := by
      simp only [watched, core] at ha
      split at ha <;> cases ha
      split <;> rfl
    by_cases hi : Party.submission = i
    swap
    · exact hsame (Function.update_of_ne hi _ _) hw
    subst hi
    have hno : ∀ {h' p'}, Function.update c.pool .submission none .submission ≠
        some (⟨h', p'⟩ : Thread sig (Option StepResult)) := by
      intro h' p' hp'
      rw [Function.update_self] at hp'
      cases hp'
    refine ⟨fun _ => ?_, fun _ _ hp' => absurd hp' hno, fun _ _ hp' => absurd hp' hno,
      fun _ _ hp' => absurd hp' hno, fun _ _ hp' => absurd hp' hno, hpaths⟩
    exact hw.trans (hc.unstored h _ hp (hc.paths .submission _ hp).1.1)
  · exact absurd rfl hl

/-- A call begins with the members in force. -/
theorem inCall_started (hc : c.Along (fun _ _ => True) (PacedBy cfg) (PacedDoneBy cfg))
    (hs : (watched cfg).Step c (.started .submission .runOnce) c') :
    InCall cfg c.world.members [] c' := by
  have hpaths := hc.step hs (fun _ _ _ _ _ _ => trivial) fun i k hm => body_paced hm
  -- a call that starts has an empty history, so each condition on the history holds of it at once
  rcases Machine.step_cases hs with ⟨i, k, hl, -, -, rfl⟩ | ⟨_, _, _, _, _, _, _, hl, -⟩ |
    ⟨_, _, _, _, _, hl, -⟩ | ⟨_, hl, -, -⟩
  swap; · cases hl
  swap; · cases hl
  swap; · cases hl
  cases hl
  have hnew : ∀ {h p}, Function.update c.pool .submission
      (some ⟨[], (watched cfg).body .runOnce⟩) .submission = some ⟨h, p⟩ → h = [] := by
    intro h p hp
    rw [Function.update_self] at hp
    cases hp
    rfl
  refine ⟨fun _ => rfl, fun _ _ _ _ => rfl, fun h p hp m hm => ?_, fun h p hp m hm => ?_,
    fun h p hp t ht => ?_, hpaths⟩
  · rw [hnew hp] at hm
    cases hm
  · rw [hnew hp] at hm
    cases hm
  · rw [hnew hp] at ht
    cases ht

/-- The delay in force is no longer than the ceiling for XUNI: the flag is set, or the
interval, doubled where the probe comes due in the call, is short enough. -/
def Tight (cfg : BreakerConfig) (b : Breaker) (tr : WatchedTrace) : Prop :=
  b.xuni_pressure = true ∨
    (min b.probe_interval_ms cfg.probe_cap_ms ≤ cfg.probe_cap_xuni_ms ∧
      ((∃ c t, (c, performed .submission .mono t) ∈ tr ∧ b.probeDue t = true) →
        min (wrap64 (b.probe_interval_ms * 2)) cfg.probe_cap_ms ≤ cfg.probe_cap_xuni_ms))

/-- Over a run in which the monotonic clock does not go back: a call of `runOnce` that
begins with an open breaker, with the flag set or a short delay in force, and leaves it
open, leaves a probe scheduled within the ceiling for XUNI. -/
theorem xuni_probe_cap {j : Journal} {tr₁ tr₂ : WatchedTrace} {c₁ : WatchedConf}
    (hr : Run (watched cfg) (openOn cfg j)
      (tr₁ ++ (c₁, .started .submission .runOnce) :: tr₂) c)
    (hst : Each Steady (tr₁ ++ (c₁, .started .submission .runOnce) :: tr₂))
      (hone : OneCall tr₂)
    (hend : Thread.isDone (c.pool .submission) = true)
    (ho : c₁.world.members.breaker.state = .Open) (ho' : c.world.members.breaker.state = .Open)
    (ht : Tight cfg.breaker c₁.world.members.breaker tr₂) :
    ∃ now, lastMono (tr₁ ++ (c₁, .started .submission .runOnce) :: tr₂) = some now ∧
      c.world.members.breaker.next_probe_at_ms ≤ now + cfg.breaker.probe_cap_xuni_ms := by
  obtain ⟨c₂, hr₁, hs, hr₂⟩ := hr.split rfl
  have hclock := clocked_of_run hr hst
  have hcall : InCall cfg c₁.world.members tr₂ c := by
    refine hr₂.invariant (I := InCall cfg c₁.world.members)
      (fun _ _ _ _ _ hI hG hs => hI.step hG.1 hG.2 hs) ?_ (Each.of_forall hone)
    exact inCall_started (clocked_of_run hr₁ hst.of_append).paths hs
  obtain ⟨t, ⟨now, hnow, hle⟩, hdue⟩ := hclock.members ho'
  refine ⟨now, hnow, ?_⟩
  -- the flag and the interval of what the call left
  have hflag : ∀ b : Breaker, DueBy cfg.breaker b t → b.xuni_pressure = true →
      b.next_probe_at_ms ≤ now + cfg.breaker.probe_cap_xuni_ms := by
    intro b hb hx
    have hcap : b.activeCapMs cfg.breaker ≤ cfg.breaker.probe_cap_xuni_ms := activeCap_le hx
    have hmin := min_le_right b.probe_interval_ms (b.activeCapMs cfg.breaker)
    unfold DueBy at hb
    omega
  have hint : ∀ b : Breaker, DueBy cfg.breaker b t → b.xuni_pressure = false →
      min b.probe_interval_ms cfg.breaker.probe_cap_ms ≤ cfg.breaker.probe_cap_xuni_ms →
      b.next_probe_at_ms ≤ now + cfg.breaker.probe_cap_xuni_ms := by
    intro b hb hx hi
    unfold DueBy Breaker.activeCapMs at hb
    rw [hx] at hb
    simp only [Bool.false_eq_true, if_false] at hb
    omega
  have hkept : c.world.members.breaker = c₁.world.members.breaker →
      c.world.members.breaker.next_probe_at_ms ≤ now + cfg.breaker.probe_cap_xuni_ms := by
    intro heq
    cases hx : c.world.members.breaker.xuni_pressure with
    | true => exact hflag _ hdue hx
    | false =>
      refine hint _ hdue hx ?_
      rw [heq] at hx ⊢
      rcases ht with ht | ht
      · rw [hx] at ht
        cases ht
      · exact ht.1
  cases hpool : c.pool .submission with
  | none => exact hkept (congrArg Members.breaker (hcall.gone hpool))
  | some th =>
    obtain ⟨h, p⟩ := th
    cases p with
    | op o k =>
      rw [hpool] at hend
      cases hend
    | ret r =>
      cases hstored : (tally h).stored with
      | none => exact hkept (congrArg Members.breaker (hcall.unstored h _ hpool hstored))
      | some m' =>
        obtain ⟨m, hm, hres⟩ := hcall.paths .submission _ hpool m' hstored
        rw [hcall.loaded h _ hpool m hm] at hres
        have hm' : c.world.members = m' := hcall.stored h _ hpool m' hstored
        rw [hm'] at ho' hdue hkept ⊢
        obtain ⟨t₁, t₂, ⟨-, -, heq⟩ | ⟨t₃, hts, hd, heq⟩⟩ := hres.outage ho ho'
        · exact hkept heq
        obtain ⟨-, hi, hx⟩ : DueBy cfg.breaker _ t₃ ∧ _ ∧ _ := onProbeFailure_dueBy ho
        rw [← heq] at hi hx
        rcases ht with ht | ht
        · exact hflag _ hdue (hx.trans ht)
        cases hx' : m'.breaker.xuni_pressure with
        | true => exact hflag _ hdue hx'
        | false =>
          refine hint _ hdue hx' ?_
          obtain ⟨c₃, hc₃⟩ := hcall.read h _ hpool t₂ (by rw [hts]; simp)
          have hlong := ht.2 ⟨c₃, t₂, hc₃, hd⟩
          rw [hi]
          omega

end Runs

/-! ## Two outages -/

/-- The clock does not go back, as a test. -/
def forwardFrom (last : Option Int) : WatchedTrace → Bool
  | [] => true
  | y :: tr =>
    (match y.2 with
      | .did _ ⟨.mono, t⟩ => last.all (· ≤ t)
      | _ => true) && forwardFrom (readOn last y.2) tr

/-- The test says that no reading goes back. -/
theorem forwardFrom_sound {tr : WatchedTrace} (h : forwardFrom none tr = true) :
    Each Steady tr := by
  have hfrom : ∀ (tr₁ : WatchedTrace) (last : Option Int) x tr₂,
      forwardFrom last (tr₁ ++ x :: tr₂) = true → ∀ i t, x.2 = .did i ⟨.mono, t⟩ →
      ∀ t', tr₁.foldl (fun last y => readOn last y.2) last = some t' → t' ≤ t := by
    intro tr₁
    induction tr₁ with
    | nil =>
      intro last x tr₂ h i t hx t' ht'
      have hlast : last = some t' := ht'
      have hall := (Bool.and_eq_true_iff.mp h).1
      rw [hx, hlast] at hall
      exact of_decide_eq_true hall
    | cons y tr₁ ih =>
      intro last x tr₂ h
      exact ih _ x tr₂ (Bool.and_eq_true_iff.mp h).2
  intro tr₁ x tr₂ htr i t hx last hlast
  rw [htr] at h
  exact hfrom tr₁ none x tr₂ h i t hx last hlast

/-- One call, as a test. -/
def isOneCall (tr : WatchedTrace) : Bool :=
  tr.all fun y => match y.2 with
    | .restarted | .started .submission _ => false
    | _ => true

/-- The test says that the trace holds one call of `runOnce` and no restart. -/
theorem isOneCall_sound {tr : WatchedTrace} (h : isOneCall tr = true) : OneCall tr := by
  intro y hy
  have hy' := List.all_eq_true.mp h y hy
  refine ⟨fun hl => ?_, fun k hl => ?_⟩
  · rw [hl] at hy'
    cases hy'
  · rw [hl] at hy'
    cases hy'

/-- A schedule, then a call of the submission thread with these inputs: the trace and the
state before the call, the trace and the state after it. -/
def replayCall (cfg : Config) (before : List (Choice Party Input Call)) (xs : List Input) :
    Option (WatchedTrace × WatchedConf × WatchedTrace × WatchedConf) :=
  match (watched cfg).replay (openOn cfg .empty) before with
  | none => none
  | some (tr₁, c₁) =>
    match (watched cfg).step c₁ (.start .submission .runOnce) with
    | none => none
    | some (_, c₂) =>
      match (watched cfg).replay c₂ (acts .submission xs) with
      | none => none
      | some (tr₂, c) => some (tr₁, c₁, tr₂, c)

/-- A replay in two parts is a run that splits where the call begins. -/
theorem replayCall_run {cfg : Config} {before : List (Choice Party Input Call)} {xs : List Input}
    {tr₁ tr₂ : WatchedTrace} {c₁ c : WatchedConf}
    (h : replayCall cfg before xs = some (tr₁, c₁, tr₂, c)) :
    Run (watched cfg) (openOn cfg .empty)
      (tr₁ ++ (c₁, .started .submission .runOnce) :: tr₂) c := by
  unfold replayCall at h
  -- the three stages of the replay: the steps before the call, its start, the steps inside it
  split at h
  · cases h
  next hr₁ =>
    split at h
    · cases h
    next l c₂ hs =>
      split at h
      · cases h
      next hr₂ =>
        cases h
        have hl : l = .started .submission .runOnce := by
          simp only [Machine.step] at hs
          split at hs
          · cases hs
            rfl
          · cases hs
        subst hl
        exact (Machine.replay_run hr₁).append ((Machine.replay_run hr₂).cons ⟨_, hs⟩)

/-- What both outages have in common: a steady clock, one call, a breaker that is open
before and after it. -/
def throughOutage (tr₁ : WatchedTrace) (c₁ : WatchedConf) (tr₂ : WatchedTrace)
    (c : WatchedConf) : Bool :=
  forwardFrom none (tr₁ ++ (c₁, .started .submission .runOnce) :: tr₂) && isOneCall tr₂ &&
    Thread.isDone (c.pool .submission) && c₁.world.members.breaker.state == .Open &&
    c.world.members.breaker.state == .Open

/-- A XUNI find. -/
def windowFind : FoundPayload := { sampleFind with key := lit "k2", kind := .XUNI }

/-- The inputs of a probe at `t` that gets no answer. -/
def lostProbe (t : Int) : List Input :=
  List.replicate 4 (.time t) ++ .answer noAnswer :: List.replicate 2 (.time t)

/-- The window is open and the XUNI submitted when the server goes. -/
def goneInWindow : List (Choice Party Input Call) :=
  [.start (.miner 0) (.append windowFind), .act (.miner 0) .nothing] ++ roundAt 0 13 noAnswer 6

/-- The server goes with no XUNI journaled; one is found when the window opens. -/
def goneBefore : List (Choice Party Input Call) :=
  [.start (.miner 0) (.append sampleFind), .act (.miner 0) .nothing] ++
    roundAt 1200000 11 noAnswer 6 ++
    [.start (.miner 0) (.append windowFind), .act (.miner 0) .nothing]

/-- In the outage that began in the window, the second probe is 5 s after the first. -/
theorem xuni_probe_cap_window :
    ∃ tr₁ c₁ tr₂ c, Run (watched touchy) (openOn touchy .empty)
        (tr₁ ++ (c₁, .started .submission .runOnce) :: tr₂) c ∧
      throughOutage tr₁ c₁ tr₂ c = true ∧
        c₁.world.members.breaker.xuni_pressure = true ∧
      ∃ now, lastMono (tr₁ ++ (c₁, .started .submission .runOnce) :: tr₂) = some now ∧
        c.world.members.breaker.next_probe_at_ms ≤ now + 5000 := by
  have hany : (replayCall touchy goneInWindow (lostProbe 5000)).any (fun r =>
      throughOutage r.1 r.2.1 r.2.2.1 r.2.2.2 && r.2.1.world.members.breaker.xuni_pressure) =
        true := by
    decide
  obtain ⟨⟨tr₁, c₁, tr₂, c⟩, hget, hchk⟩ := Option.any_eq_true _ _ |>.mp hany
  have hr := replayCall_run hget
  obtain ⟨hthrough, hflag⟩ := Bool.and_eq_true_iff.mp hchk
  refine ⟨tr₁, c₁, tr₂, c, hr, hthrough, hflag, ?_⟩
  simp only [throughOutage, Bool.and_eq_true, beq_iff_eq] at hthrough
  obtain ⟨⟨⟨⟨hst, hone⟩, hdone⟩, ho⟩, ho'⟩ := hthrough
  exact xuni_probe_cap hr (forwardFrom_sound hst) (isOneCall_sound hone) hdone ho ho' (Or.inl hflag)

/-- In the other one the window is open, the XUNI eligible and the breaker open when the
call begins, and the call schedules the next probe 10 s ahead. -/
theorem late_window_slow_probe :
    ∃ tr₁ c₁ tr₂ c, Run (watched touchy) (openOn touchy .empty)
        (tr₁ ++ (c₁, .started .submission .runOnce) :: tr₂) c ∧
      Each Steady (tr₁ ++ (c₁, .started .submission .runOnce) :: tr₂) ∧ OneCall tr₂ ∧
      Thread.isDone (c.pool .submission) = true ∧
      c₁.world.members.breaker.state = .Open ∧ c.world.members.breaker.state = .Open ∧
      (xuniWindowAt (3300000 + c₁.world.members.server_offset_ms.getD 0)).isOpen = true ∧
      c₁.world.journal.fetchEligibleOfKind .XUNI (isoUtc 3300000) touchy.fetch_limit ≠ [] ∧
      lastMono (tr₁ ++ (c₁, .started .submission .runOnce) :: tr₂) = some 3300000 ∧
      3300000 + touchy.breaker.probe_cap_xuni_ms < c.world.members.breaker.next_probe_at_ms := by
  have hany : (replayCall touchy goneBefore (lostProbe 3300000)).any (fun r =>
      throughOutage r.1 r.2.1 r.2.2.1 r.2.2.2 &&
      (xuniWindowAt (3300000 + r.2.1.world.members.server_offset_ms.getD 0)).isOpen &&
      !(r.2.1.world.journal.fetchEligibleOfKind .XUNI (isoUtc 3300000) touchy.fetch_limit).isEmpty
        &&
      lastMono (r.1 ++ (r.2.1, .started .submission .runOnce) :: r.2.2.1) == some 3300000 &&
      decide (3300000 + touchy.breaker.probe_cap_xuni_ms <
        r.2.2.2.world.members.breaker.next_probe_at_ms)) = true := by
    decide
  obtain ⟨⟨tr₁, c₁, tr₂, c⟩, hget, hchk⟩ := Option.any_eq_true _ _ |>.mp hany
  simp only [throughOutage, Bool.and_eq_true, beq_iff_eq, decide_eq_true_eq, Bool.not_eq_true',
    List.isEmpty_eq_false_iff] at hchk
  obtain ⟨⟨⟨⟨⟨⟨⟨⟨hst, hone⟩, hdone⟩, ho⟩, ho'⟩, hwin⟩, helig⟩, hlast⟩,
    hlate⟩ := hchk
  exact ⟨tr₁, c₁, tr₂, c, replayCall_run hget, forwardFrom_sound hst, isOneCall_sound hone,
    hdone, ho, ho', hwin, helig, hlast, hlate⟩

end TreeMiner

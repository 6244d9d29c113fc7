import TreeMiner.Submit.System

/-!
# The half-open breaker (`SubmissionManager.cpp`, `CircuitBreaker.cpp`)

From `Open` a good probe leads to `HalfOpen` with one admission to give. `submitStep_`
takes it, and one of the outcomes has to give it back or leave the state. A call of
`runOnce` is followed by counting what it has done (`Tally`): requests, what it loaded
and stored, what it recorded for the find it submitted. `Disciplined` is what the count
satisfies at every point of every path; the admission being there at the end of a call
is what the next call begins with.
-/

namespace TreeMiner

open Cxx Interleave

abbrev Events := List (Event sig)

/-! ## What a call has done -/

/-- The requests of a call so far, the members it loaded and stored, and the status it
recorded for the find it picked. Lookups after the batch of unconfirmed finds was
fetched are retries. -/
structure Tally where
  loaded : Option Members := none
  stored : Option Members := none
  verifies : Nat := 0
  lookups : Nat := 0
  retrying : Bool := false
  retries : Nat := 0
  outcome : Option FindStatus := none

/-- Count one operation. -/
def Tally.add (s : Tally) : Event sig → Tally
  | ⟨.members, m⟩ => { s with loaded := some m }
  | ⟨.setMembers m, _⟩ => { s with stored := some m }
  | ⟨.submit _, _⟩ => { s with verifies := s.verifies + 1 }
  | ⟨.confirm _, _⟩ =>
    if s.retrying then { s with retries := s.retries + 1 }
    else { s with lookups := s.lookups + 1 }
  | ⟨.fetchAwaitingConfirmation _ _, _⟩ => { s with retrying := true }
  | ⟨.recordAttempt _ c _ _ _ _, _⟩ =>
    if s.retrying then s else { s with outcome := some c.next_status }
  | _ => s

/-- The count of a history, newest event first. -/
def tally : Events → Tally
  | [] => {}
  | e :: h => (tally h).add e

/-- The operations that count. -/
def Op.counted : Op → Bool
  | .members | .setMembers _ | .submit _ | .confirm _ => true
  | .fetchAwaitingConfirmation _ _ | .recordAttempt _ _ _ _ _ _ => true
  | _ => false

/-- An operation that is not counted leaves the tally of the call as it is. -/
theorem tally_cons_of_not_counted {o : Op} {a : o.Ans} {h : Events} (ho : o.counted = false) :
    tally (⟨o, a⟩ :: h) = tally h := by
  cases o with
  | members | setMembers | submit | confirm | fetchAwaitingConfirmation | recordAttempt => cases ho
  | _ => rfl

/-- A half-open breaker has its admission to give. -/
def Breaker.Sane (b : Breaker) : Prop := b.state = .HalfOpen → b.admission_available = true

/-- The find was accepted. -/
def Accepted (st : Option FindStatus) : Prop :=
  st = some .Acked ∨ st = some .AcceptedUnconfirmed

/-- What a call keeps to: from an open breaker no request but the probe; one `/verify`
at most; it stores a breaker that is not stuck, has retried no confirmation if that
breaker is open, and has closed it from half-open only with an accepted find. -/
structure Disciplined (s : Tally) : Prop where
  silent : ∀ m, s.loaded = some m → m.breaker.state = .Open →
    s.verifies = 0 ∧ s.lookups = 0 ∧ s.retries = 0
  one : s.verifies ≤ 1
  stored : ∀ m', s.stored = some m' → m'.breaker.Sane ∧
    (m'.breaker.state = .Open → s.retries = 0) ∧
    ∀ m, s.loaded = some m → m.breaker.state = .HalfOpen → m'.breaker.state = .Closed →
      Accepted s.outcome

/-- At every operation of a call. -/
def Watch (h : Events) (o : Op) : Prop :=
  Disciplined (tally h) ∧ ∀ m, o = .setMembers m → m.breaker.Sane

/-- What it relies on: the breaker it loads is not stuck. -/
def Loads : Event sig → Prop
  | ⟨.members, m⟩ => m.breaker.Sane
  | _ => True

/-! ## Silent helpers -/

/-- The operations that count, and the readings of the monotonic clock. -/
def Op.marked (o : Op) : Bool :=
  match o with
  | .mono => true
  | o => o.counted

/-- What is not marked is not counted either: the reading of the members is the difference. -/
theorem Op.not_counted {o : Op} (ho : o.marked = false) : o.counted = false := by
  cases o with
  | mono => cases ho
  | _ => exact ho

/-- None of the operations is in `S`, and every result meets `P`. -/
def Silent {α : Type} (S : Op → Bool) (P : α → Prop) (h : Events) (p : Step α) : Prop :=
  Prog.Along (fun _ _ => True) (fun _ o => S o = false) (fun _ a => P a) h p

section Silent

variable {α β δ : Type} {S : Op → Bool} {P : α → Prop} {Q : β → Prop} {h : Events}

/-- Two silent parts, the second with whatever the first has returned. -/
theorem Silent.bind {p : Step α} {f : α → Step β} (hp : Silent S P h p)
    (hf : ∀ h' a, P a → Silent S Q h' (f a)) : Silent S Q h (p.bind f) :=
  Prog.Along.bind hp hf

/-- A call that is not among the noted operations, and then silence. -/
theorem silent_call {o : Op} {f : o.Ans → Step β} (ho : S o = false)
    (hf : ∀ a, Silent S Q (⟨o, a⟩ :: h) (f a)) : Silent S Q h ((call o).bind f) :=
  Prog.Along.call ho fun a _ => hf a

/-- A part without marked operations has no counted ones. -/
theorem Silent.counted {p : Step α} (hp : Silent Op.marked P h p) : Silent Op.counted P h p :=
  Prog.Along.mono (fun _ _ ha => ha) (fun _ _ ho => Op.not_counted ho) (fun _ _ ha => ha) hp

/-- What only operations in `S` change, a silent helper leaves as it is. -/
theorem Silent.along {A : Events → Event sig → Prop} {C : Events → Op → Prop}
    {D : Events → α → Prop} {f : Events → δ}
    (hf : ∀ {o : Op} {a : o.Ans} {h : Events}, S o = false → f (⟨o, a⟩ :: h) = f h) :
    ∀ {p : Step α} {h : Events}, Silent S P h p →
      (∀ h' o, f h' = f h → S o = false → C h' o) →
        (∀ h' a, f h' = f h → P a → D h' a) →
      Prog.Along A C D h p
  | .ret _, _, hp, _, hD => hD _ _ rfl hp
  | .op o k, h, hp, hC, hD => by
    refine ⟨hC _ _ rfl hp.1, fun a _ => ?_⟩
    have hsame : f (⟨o, a⟩ :: h) = f h := hf hp.1
    refine Silent.along hf (hp.2 a trivial) (fun h' o' ht ho' => ?_) fun h' x ht hx => ?_
    · exact hC h' o' (ht.trans hsame) ho'
    · exact hD h' x (ht.trans hsame) hx

/-- Where the discipline is kept, a helper keeps it. -/
theorem Silent.watch {D : Events → α → Prop} {p : Step α} (hp : Silent Op.counted P h p)
    (hd : Disciplined (tally h)) (hD : ∀ h' a, tally h' = tally h → P a → D h' a) :
    Prog.Along (fun _ => Loads) Watch D h p := by
  refine hp.along tally_cons_of_not_counted (fun h' o ht ho => ⟨by rw [ht]; exact hd, ?_⟩) hD
  rintro m rfl
  cases ho

end Silent

section Helpers

variable {cfg : Config} {m : Members} {h : Events}

/-- The parts below touch neither the breaker nor what the tally counts: they read clocks, the
journal and the answers. -/
theorem observeDifficulty_silent {d : UInt32} :
    Silent Op.marked (fun _ => True) h (observeDifficulty d) := by
  refine silent_call rfl fun release => ?_
  cases release with
  | false => trivial
  | true => exact ⟨rfl, fun _ _ => trivial⟩

/-- The date of the server goes into the offset, and the breaker stays. -/
theorem trackServerDate_silent {r : TransportResult} :
    Silent Op.marked (fun m' : Members => m'.breaker = m.breaker) h (trackServerDate m r) := by
  unfold trackServerDate
  split
  · exact rfl
  · exact silent_call rfl fun _ => rfl

theorem observeAndLog_silent {d : UInt32} :
    Silent Op.marked (fun _ => True) h (do
      observeDifficulty d
      let w ← call .wall
      call (.recordDifficulty d (isoUtc w)) : Step Unit) := by
  refine observeDifficulty_silent.bind fun h' _ _ => ?_
  refine silent_call rfl fun w => ?_
  exact ⟨rfl, fun _ _ => trivial⟩

theorem handleDifficultyBody_silent {body : Bytes} :
    Silent Op.marked (fun _ => True) h (handleDifficultyBody body) := by
  unfold handleDifficultyBody
  split
  · trivial
  · exact observeAndLog_silent

theorem takeHint_silent {c : Classification} : Silent Op.marked (fun _ => True) h (takeHint c) := by
  unfold takeHint
  split
  · trivial
  · exact observeAndLog_silent

theorem backoffTimeIso_silent {n : Nat} {s : Option Nat} :
    Silent Op.marked (fun _ => True) h (backoffTimeIso cfg n s) :=
  silent_call rfl fun _ => trivial

/-- The clock of the outage reads the breaker and does not change it. -/
theorem outageClock_breaker {now : Int} : (outageClock m now).breaker = m.breaker := by
  unfold outageClock
  split
  · split <;> rfl
  · rfl

/-- The margin is evaluated for the miner; the breaker is read for it only. -/
theorem updateMargin_silent :
    Silent Op.counted (fun m' : Members => m'.breaker = m.breaker) h (updateMargin cfg m) := by
  refine silent_call rfl fun now => ?_
  dsimp only
  split
  · exact outageClock_breaker
  split
  · exact outageClock_breaker
  split
  · exact silent_call rfl fun _ => outageClock_breaker
  · exact outageClock_breaker

theorem logBreakerTransition_silent {before after : BreakerState} :
    Silent Op.marked (fun _ => True) h (logBreakerTransition before after) := by
  unfold logBreakerTransition
  split
  · trivial
  · exact silent_call rfl fun _ => trivial

theorem retryTime_silent {rec : FindRecord} {st : Int} {res : TransportResult}
    {c : Classification} {next : Option Bytes} :
    Silent Op.marked (fun _ => True) h (retryTime cfg rec st res c next) := by
  unfold retryTime
  split
  · exact backoffTimeIso_silent.bind fun _ _ _ => trivial
  · trivial

theorem lookupRetryTime_silent {rec : FindRecord} {retry : Bool} :
    Silent Op.marked (fun _ => True) h (lookupRetryTime cfg rec retry) := by
  unfold lookupRetryTime
  split
  · exact backoffTimeIso_silent.bind fun _ _ _ => trivial
  · trivial

theorem enterWindow_silent : Silent Op.marked (fun _ => True) h (enterWindow cfg m) := by
  refine silent_call rfl fun w => ?_
  refine silent_call rfl fun b => ?_
  split
  · exact silent_call rfl fun _ => silent_call rfl fun _ => trivial
  · exact silent_call rfl fun _ => trivial

theorem fetchEligible_silent {window : XuniWindowState} :
    Silent Op.marked (fun _ => True) h (fetchEligible cfg window) := by
  refine silent_call rfl fun w => ?_
  refine silent_call rfl fun xen11 => ?_
  split
  · exact silent_call rfl fun _ => trivial
  · trivial

end Helpers

/-! ## The breaker -/

section Breaker

variable {cfg : BreakerConfig} {b : Breaker} {now : Int}

/-- A good probe leaves the breaker half open with its admission, so that the next step is not
blocked. -/
theorem onProbeSuccess_sane (ho : b.state = .Open) :
    b.onProbeSuccess.Sane ∧ b.onProbeSuccess.state ≠ .Closed := by
  unfold Breaker.onProbeSuccess
  rw [if_neg (by simp [ho])]
  exact ⟨fun _ => rfl, by simp⟩

/-- A probe that fails leaves an open breaker open, and any other as it is. -/
theorem onProbeFailure_state : (b.onProbeFailure cfg now).state = b.state := by
  unfold Breaker.onProbeFailure
  split <;> rfl

/-- The flag for XUNI moves the next probe and nothing else. -/
theorem setXuniPressure_state {x : Bool} : (b.setXuniPressure cfg x now).state = b.state := by
  unfold Breaker.setXuniPressure
  dsimp only
  split <;> rfl

/-- In particular it keeps the admission of a half-open breaker. -/
theorem setXuniPressure_admission {x : Bool} :
    (b.setXuniPressure cfg x now).admission_available = b.admission_available := by
  unfold Breaker.setXuniPressure
  dsimp only
  split <;> rfl

/-- A breaker that is neither open nor stuck admits. -/
theorem tryAdmit_ok (hb : b.Sane) (ho : b.state ≠ .Open) :
    b.tryAdmit.1 = true ∧ b.tryAdmit.2.state = b.state := by
  unfold Breaker.tryAdmit
  split
  · exact ⟨rfl, rfl⟩
  next hh =>
    rw [if_pos (hb hh)]
    exact ⟨rfl, rfl⟩
  next hopen => exact absurd hopen ho

end Breaker

/-- Every outcome of an attempt gives the admission back or leaves the state; only an
accepted find closes. -/
theorem afterOutcome_breaker {cfg : Config} {m : Members} {was_closed : Bool} {c : Classification}
    {res : TransportResult} {now : Int} (ho : m.breaker.state ≠ .Open) :
    (afterOutcome cfg m was_closed c res now).breaker.Sane ∧
      (m.breaker.state = .HalfOpen →
        (afterOutcome cfg m was_closed c res now).breaker.state = .Closed →
        Accepted (some c.next_status)) := by
  -- an answer that settles nothing
  have hinc : m.breaker.onVerifyInconclusive.Sane ∧ (m.breaker.state = .HalfOpen →
      m.breaker.onVerifyInconclusive.state = .Closed → Accepted (some c.next_status)) := by
    unfold Breaker.onVerifyInconclusive
    dsimp only
    split
    next hh => exact ⟨fun _ => rfl, fun _ hc => by rw [hh] at hc; cases hc⟩
    next hh => exact ⟨fun h => absurd h hh, fun h => absurd h hh⟩
  unfold afterOutcome
  split
  -- an accepted submission closes the breaker
  next hacc =>
    refine ⟨fun h => (by cases h), fun _ _ => ?_⟩
    rcases hacc with h | h
    · exact Or.inl (congrArg some h)
    · exact Or.inr (congrArg some h)
  split
  next =>
    dsimp only
    unfold Breaker.onVerifyTransportFailure
    split
    next => exact ⟨fun h => (by cases h), fun _ h => (by cases h)⟩
    next hc =>
      dsimp only
      refine ⟨?_, fun h => by rw [hc] at h; cases h⟩
      split
      · exact fun h => by cases h
      · intro h
        rw [hc] at h
        cases h
    next hopen => exact absurd hopen ho
  split
  · exact hinc
  · exact hinc

/-! ## Along a call -/

section Steps

variable {cfg : Config} {m₀ m : Members} {h : Events} {s : Tally}

/-- A call that has stored nothing yet. -/
theorem disciplined_of_unstored (hs : s.stored = none) (h1 : s.verifies ≤ 1)
    (hl : s.loaded = some m₀) (ho : m₀.breaker.state ≠ .Open) : Disciplined s where
  silent m hm hopen := by
    rw [hl, Option.some.injEq] at hm
    rw [← hm] at hopen
    exact absurd hopen ho
  one := h1
  stored m' hm := by
    rw [hs] at hm
    cases hm

/-- A step with an open breaker ends open or half open, with nothing submitted and nothing blocked.
-/
theorem probeStep_silent (ho : m.breaker.state = .Open) :
    Silent Op.counted (fun r : StepResult × Members => r.1 ≠ .BreakerBlocked ∧
      r.2.breaker.Sane ∧
      r.2.breaker.state ≠ .Closed) h (probeStep cfg m) := by
  have hsane : ∀ b : Breaker, b.state = .Open → b.Sane ∧ b.state ≠ .Closed := by
    intro b hb
    refine ⟨fun h => ?_, ?_⟩ <;> rw [hb] at *
    · cases h
    · simp
  refine silent_call rfl fun now => ?_
  split
  · exact ⟨by simp, hsane _ ho⟩
  refine silent_call rfl fun r => ?_
  refine trackServerDate_silent.counted.bind fun h₁ m₁ hm₁ => ?_
  split
  · refine handleDifficultyBody_silent.counted.bind fun h₂ _ _ => ?_
    refine logBreakerTransition_silent.counted.bind fun h₃ _ _ => ?_
    exact ⟨by simp, onProbeSuccess_sane (by rw [hm₁]; exact ho)⟩
  · refine silent_call rfl fun now => ?_
    refine ⟨by simp, hsane _ ?_⟩
    show (m₁.breaker.onProbeFailure cfg.breaker now).state = .Open
    rw [onProbeFailure_state, hm₁]
    exact ho

/-- What `submitStep_` leaves. -/
def SubmitDone (m₀ m : Members) (h' : Events) (r : StepResult × Members) : Prop :=
  ∃ v l oc, tally h' = { loaded := some m₀, verifies := v, lookups := l, outcome := oc } ∧
    v ≤ 1 ∧
    r.1 ≠ .BreakerBlocked ∧ r.2.breaker.Sane ∧
    (m.breaker.state = .HalfOpen → r.2.breaker.state = .Closed → Accepted oc)

/-- The confirmation of a fresh acceptance asks `/block`, not `/verify`, so that the count of
submissions stays. -/
theorem confirmFresh_watch {v : Nat} {rec : FindRecord} {c : Classification}
    (ht : tally h = { loaded := some m₀, verifies := v }) (hv : v ≤ 1)
    (ho : m₀.breaker.state ≠ .Open) :
    Prog.Along (fun _ => Loads) Watch (fun h' r => (∃ l, tally h' =
      { loaded := some m₀, verifies := v, lookups := l }) ∧ r.1.breaker = m.breaker) h
      (confirmFresh cfg m rec c) := by
  have hd : Disciplined (tally h) := by
    rw [ht]
    exact disciplined_of_unstored rfl hv rfl ho
  unfold confirmFresh
  split
  swap
  · exact ⟨⟨0, ht⟩, rfl⟩
  refine Prog.Along.call ⟨hd, by simp⟩ fun conf _ => ?_
  have ht₁ : tally (⟨.confirm rec.payload.key, conf⟩ :: h) =
      { loaded := some m₀, verifies := v, lookups := 1 } := by
    show (tally h).add _ = _
    rw [ht]
    rfl
  have hd₁ : Disciplined (tally (⟨.confirm rec.payload.key, conf⟩ :: h)) := by
    rw [ht₁]
    exact disciplined_of_unstored rfl hv rfl ho
  refine (trackServerDate_silent.counted.watch hd₁ fun h' a ht' ha =>
    (⟨ht'.trans ht₁, ha⟩ : tally h' = _ ∧ a.breaker = m.breaker)).bind
      fun h₂ m₂ hm₂ => ?_
  have hd₂ : Disciplined (tally h₂) := by
    rw [hm₂.1]
    exact disciplined_of_unstored rfl hv rfl ho
  refine (lookupRetryTime_silent.counted.watch hd₂ fun h' a ht' _ => ht'.trans hm₂.1).bind
    fun h₃ next ht₃ => ?_
  exact ⟨⟨1, ht₃⟩, hm₂.2⟩

/-- An attempt is one submission at most, and its outcome takes the breaker out of the half-open
state or gives the admission back. -/
theorem attempt_watch {now_mono : Int} {rec : FindRecord}
    (ht : tally h = { loaded := some m₀ }) (ho₀ : m₀.breaker.state ≠ .Open)
    (ho : m.breaker.state ≠ .Open) :
    Prog.Along (fun _ => Loads) Watch (SubmitDone m₀ m) h (attempt cfg m now_mono rec) := by
  have hd : ∀ {h' v l oc}, tally h' =
      { loaded := some m₀, verifies := v, lookups := l, outcome := oc } → v ≤ 1 →
      Disciplined (tally h') := by
    intro h' v l oc ht' hv
    rw [ht']
    exact disciplined_of_unstored rfl hv rfl ho₀
  refine Prog.Along.call ⟨hd ht (Nat.zero_le 1), by simp⟩ fun res _ => ?_
  have ht₁ : tally (⟨.submit rec.payload, res⟩ :: h) =
    { loaded := some m₀, verifies := 1 } := by
    show (tally h).add _ = _
    rw [ht]
    rfl
  refine (trackServerDate_silent.counted.watch (hd ht₁ le_rfl) fun h' a ht' ha =>
    (⟨ht'.trans ht₁, ha⟩ : tally h' = _ ∧ a.breaker = m.breaker)).bind
      fun h₂ m₂ hm₂ => ?_
  refine (takeHint_silent.counted.watch (hd hm₂.1 le_rfl)
    fun h' a ht' _ => ht'.trans hm₂.1).bind
    fun h₃ _ ht₃ => ?_
  refine (confirmFresh_watch ht₃ le_rfl ho₀).bind fun h₄ r hr => ?_
  obtain ⟨m₄, c, next⟩ := r
  obtain ⟨⟨l, ht₄⟩, hm₄⟩ := hr
  refine (retryTime_silent.counted.watch (hd ht₄ le_rfl) fun h' a ht' _ => ht'.trans ht₄).bind
    fun h₅ next₅ ht₅ => ?_
  refine Prog.Along.call ⟨hd ht₅ le_rfl, by simp⟩ fun w _ => ?_
  refine Prog.Along.call ⟨hd ht₅ le_rfl, by simp⟩ fun _ _ => ?_
  -- the outcome is recorded, then the breaker learns of it
  have ht₆ : tally
    (⟨.recordAttempt rec.id c (httpStatus res) res.body next₅ (isoUtc w), ()⟩ ::
      ⟨.wall, w⟩ :: h₅) =
      { loaded := some m₀, verifies := 1, lookups := l, outcome := some c.next_status } := by
    show (tally h₅).add _ = _
    rw [ht₅]
    rfl
  refine Prog.Along.call ⟨hd ht₆ le_rfl, by simp⟩ fun now _ => ?_
  have ho₄ : m₄.breaker.state ≠ .Open := by
    rw [hm₄, hm₂.2]
    exact ho
  have ht₇ : tally
    (⟨.mono, now⟩ :: ⟨.recordAttempt rec.id c (httpStatus res) res.body next₅
      (isoUtc w), ()⟩ :: ⟨.wall, w⟩ :: h₅) = _ := ht₆
  refine (logBreakerTransition_silent.counted.watch (hd ht₇ le_rfl)
    fun h' a ht' _ => ht'.trans ht₇).bind
    fun h₈ _ ht₈ => ?_
  obtain ⟨hsane, hclosed⟩ :=
    @afterOutcome_breaker cfg m₄ (decide (m.breaker.state = .Closed)) c res now ho₄
  refine ⟨1, l, some c.next_status, ht₈, le_rfl, by simp, hsane, fun hh => hclosed ?_⟩
  rw [hm₄, hm₂.2]
  exact hh

/-- An admission is used up by the attempt that follows it at once. -/
theorem admitRecord_watch {now_mono : Int} {rec : FindRecord}
    (ht : tally h = { loaded := some m₀ }) (ho₀ : m₀.breaker.state ≠ .Open)
    (hb : m.breaker.Sane) (ho : m.breaker.state ≠ .Open) :
    Prog.Along (fun _ => Loads) Watch (SubmitDone m₀ m) h (admitRecord cfg m now_mono rec) := by
  obtain ⟨hok, hst⟩ := tryAdmit_ok hb ho
  unfold admitRecord
  dsimp only
  rw [if_pos hok]
  refine (attempt_watch ht ho₀ (by rw [hst]; exact ho)).mono (fun _ _ ha => ha)
    (fun _ _ hC => hC) ?_
  rintro h' r ⟨v, l, oc, ht', hv, hr, hsane, hclosed⟩
  exact ⟨v, l, oc, ht', hv, hr, hsane, fun hh => hclosed (by rw [hst]; exact hh)⟩

/-- A record that is parked unsent uses no admission. -/
theorem submitRecord_watch {now_mono : Int} {rec : FindRecord}
    (ht : tally h = { loaded := some m₀ }) (ho₀ : m₀.breaker.state ≠ .Open)
    (hb : m.breaker.Sane) (ho : m.breaker.state ≠ .Open) :
    Prog.Along (fun _ => Loads) Watch (SubmitDone m₀ m) h (submitRecord cfg m now_mono rec) := by
  have hd : Disciplined (tally h) := by
    rw [ht]
    exact disciplined_of_unstored rfl (Nat.zero_le 1) rfl ho₀
  unfold submitRecord
  split
  swap
  · exact admitRecord_watch ht ho₀ hb ho
  refine Prog.Along.call ⟨hd, by simp⟩ fun known _ => ?_
  have ht₁ : tally (⟨.lastDifficulty, known⟩ :: h) = { loaded := some m₀ } := ht
  split
  next d =>
    split
    · refine Prog.Along.call ⟨hd, by simp⟩ fun w _ => ?_
      refine Prog.Along.call ⟨hd, by simp⟩ fun _ _ => ?_
      refine ⟨0, 0, some .ParkedDifficulty, ?_, Nat.zero_le 1, by simp, hb, fun hh hc => ?_⟩
      · show (tally h).add _ = _
        rw [ht]
        rfl
      · rw [hh] at hc
        cases hc
    · exact admitRecord_watch ht₁ ho₀ hb ho
  · exact admitRecord_watch ht₁ ho₀ hb ho

/-- A scheduling step takes one record at most. -/
theorem submitStep_watch (ht : tally h = { loaded := some m₀ })
    (ho₀ : m₀.breaker.state ≠ .Open) (hb : m.breaker.Sane) (ho : m.breaker.state ≠ .Open) :
    Prog.Along (fun _ => Loads) Watch (SubmitDone m₀ m) h (submitStep cfg m) := by
  have hd : ∀ {h'}, tally h' = { loaded := some m₀ } → Disciplined (tally h') := by
    intro h' ht'
    rw [ht']
    exact disciplined_of_unstored rfl (Nat.zero_le 1) rfl ho₀
  -- a call that ends here has done nothing
  have hidle : ∀ {h'} {m' : Members}, tally h' = { loaded := some m₀ } →
      m'.breaker.state = m.breaker.state → m'.breaker.Sane →
        SubmitDone m₀ m h' (.Idle, m') := by
    intro h' m' ht' hst hsane
    refine ⟨0, 0, none, ht', Nat.zero_le 1, by simp, hsane, fun hh hc => ?_⟩
    rw [hst, hh] at hc
    cases hc
  refine Prog.Along.call ⟨hd ht, by simp⟩ fun now_mono _ => ?_
  have ht₁ : tally (⟨.mono, now_mono⟩ :: h) = { loaded := some m₀ } := ht
  split
  · exact hidle ht₁ rfl hb
  refine (enterWindow_silent.counted.watch (hd ht₁) fun h' a ht' _ => ht'.trans ht₁).bind
    fun h₂ window ht₂ => ?_
  refine (fetchEligible_silent.counted.watch (hd ht₂) fun h' a ht' _ => ht'.trans ht₂).bind
    fun h₃ r ht₃ => ?_
  obtain ⟨eligible, pressure⟩ := r
  refine Prog.Along.call ⟨hd ht₃, by simp⟩ fun now _ => ?_
  have ht₄ : tally (⟨.mono, now⟩ :: h₃) = { loaded := some m₀ } := ht₃
  have hst : (m.breaker.setXuniPressure cfg.breaker pressure now).state = m.breaker.state :=
    setXuniPressure_state
  have hsane : (m.breaker.setXuniPressure cfg.breaker pressure now).Sane := by
    intro hh
    rw [setXuniPressure_admission]
    exact hb (hst ▸ hh)
  dsimp only
  split
  · exact hidle ht₄ hst hsane
  refine Prog.Along.call ⟨hd ht₄, by simp⟩ fun trend _ => ?_
  have ht₅ : tally (⟨.trend, trend⟩ :: ⟨.mono, now⟩ :: h₃) = { loaded := some m₀ } :=
    ht₃
  split
  · exact hidle ht₅ hst hsane
  · refine (submitRecord_watch ht₅ ho₀ hsane (by rw [hst]; exact ho)).mono (fun _ _ ha => ha)
      (fun _ _ hC => hC) ?_
    rintro h' r ⟨v, l, oc, ht', hv, hr, hsane', hclosed⟩
    exact ⟨v, l, oc, ht', hv, hr, hsane', fun hh => hclosed (hst.trans hh)⟩

/-- The retries leave the rest of the count as it is. -/
def Retrying (s : Tally) (h' : Events) : Prop :=
  ∃ n, tally h' = { s with retrying := true, retries := n }

/-- The confirmation of a record leaves the breaker and the submissions alone. -/
theorem confirmOne_watch {rec : FindRecord} (hs : s.stored = none) (hv : s.verifies ≤ 1)
    (hl : s.loaded = some m₀) (ho₀ : m₀.breaker.state ≠ .Open) (ht : Retrying s h) :
    Prog.Along (fun _ => Loads) Watch
      (fun h' r => Retrying s h' ∧ r.1.breaker = m.breaker) h (confirmOne cfg m rec) := by
  -- a retry only looks up, so the members are not written before its end
  have hd : ∀ {h'}, Retrying s h' → Disciplined (tally h') := by
    rintro h' ⟨n, ht'⟩
    rw [ht']
    exact disciplined_of_unstored hs hv hl ho₀
  refine Prog.Along.call ⟨hd ht, by simp⟩ fun conf _ => ?_
  have ht₁ : Retrying s (⟨.confirm rec.payload.key, conf⟩ :: h) := by
    obtain ⟨n, hn⟩ := ht
    refine ⟨n + 1, ?_⟩
    show (tally h).add _ = _
    rw [hn]
    rfl
  refine (trackServerDate_silent.counted.watch (hd ht₁) fun h' a ht' ha =>
    (⟨by rw [Retrying, ht']; exact ht₁, ha⟩ : Retrying s h' ∧ a.breaker = m.breaker)).bind
    fun h₂ m₂ hm₂ => ?_
  refine (lookupRetryTime_silent.counted.watch (hd hm₂.1) fun h' a ht' _ =>
    (by rw [Retrying, ht']; exact hm₂.1 : Retrying s h')).bind fun h₃ next ht₃ => ?_
  refine Prog.Along.call ⟨hd ht₃, by simp⟩ fun w _ => ?_
  refine Prog.Along.call ⟨hd ht₃, by simp⟩ fun _ _ => ?_
  refine ⟨?_, hm₂.2⟩
  obtain ⟨n, hn⟩ := ht₃
  refine ⟨n, ?_⟩
  show (tally h₃).add _ = _
  rw [hn]
  rfl

/-- So does the loop over the records that await it, by induction on them. -/
theorem confirmLoop_watch (hs : s.stored = none) (hv : s.verifies ≤ 1) (hl : s.loaded = some m₀)
    (ho₀ : m₀.breaker.state ≠ .Open) :
    ∀ (recs : List FindRecord) {m : Members} {h : Events}, Retrying s h →
      Prog.Along (fun _ => Loads) Watch (fun h' m' => Retrying s h' ∧ m'.breaker = m.breaker) h
        (confirmLoop cfg recs m)
  | [], _, _, ht => ⟨ht, rfl⟩
  | rec :: recs, m, h, ht => by
    refine (confirmOne_watch hs hv hl ho₀ ht).bind fun h₁ r hr => ?_
    obtain ⟨m₁, goOn⟩ := r
    obtain ⟨ht₁, hm₁⟩ := hr
    cases goOn with
    | false => exact ⟨ht₁, hm₁⟩
    | true =>
      exact (confirmLoop_watch hs hv hl ho₀ recs ht₁).mono (fun _ _ ha => ha) (fun _ _ hC => hC)
        fun _ _ hD => ⟨hD.1, hD.2.trans hm₁⟩

/-- Confirmations are retried only while the breaker is not open, and do not move it. -/
theorem confirmStep_watch (hs : s.stored = none) (hv : s.verifies ≤ 1) (hl : s.loaded = some m₀)
    (ho₀ : m₀.breaker.state ≠ .Open) (ht : tally h = s) :
    Prog.Along (fun _ => Loads) Watch (fun h' r => r.1 ≠ .BreakerBlocked ∧
      r.2.breaker = m.breaker ∧
        ((tally h' = s) ∨ (Retrying s h' ∧ m.breaker.state ≠ .Open))) h
      (confirmStep cfg m) := by
  have hd : Disciplined (tally h) := by
    rw [ht]
    exact disciplined_of_unstored hs hv hl ho₀
  unfold confirmStep
  split
  · exact ⟨by simp, rfl, Or.inl ht⟩
  next ho =>
    refine Prog.Along.call ⟨hd, by simp⟩ fun w _ => ?_
    refine Prog.Along.call ⟨hd, by simp⟩ fun batch _ => ?_
    have ht₁ : Retrying s
      (⟨.fetchAwaitingConfirmation (isoUtc w) cfg.confirm_fetch_limit, batch⟩ ::
        ⟨.wall, w⟩ :: h) := by
      refine ⟨s.retries, ?_⟩
      show (tally h).add _ = _
      rw [ht]
      rfl
    split
    · exact ⟨by simp, rfl, Or.inr ⟨ht₁, ho⟩⟩
    · refine (confirmLoop_watch hs hv hl ho₀ batch ht₁).bind fun h₂ m₂ hm₂ => ?_
      exact ⟨by simp, hm₂.2, Or.inr ⟨hm₂.1, ho⟩⟩

/-- What a call leaves to store. -/
def StepDone (m₀ : Members) (h' : Events) (r : StepResult × Members) : Prop :=
  (tally h').loaded = some m₀ ∧ (tally h').stored = none ∧ r.1 ≠ .BreakerBlocked ∧
    r.2.breaker.Sane ∧ Disciplined { tally h' with stored := some r.2 }

/-- A step keeps the discipline of the breaker on both of its paths. -/
theorem runStep_watch (ht : tally h = { loaded := some m₀ }) (hb : m₀.breaker.Sane) :
    Prog.Along (fun _ => Loads) Watch (StepDone m₀) h (runStep cfg m₀) := by
  have hd : ∀ {h'}, tally h' = { loaded := some m₀ } → Disciplined (tally h') := by
    intro h' ht'
    rw [ht']
    refine ⟨fun _ _ _ => ⟨rfl, rfl, rfl⟩, Nat.zero_le 1, fun m' hm => ?_⟩
    cases hm
  refine (updateMargin_silent.watch (hd ht) fun h' a ht' ha =>
    (⟨ht'.trans ht, ha⟩ : tally h' = _ ∧ a.breaker = m₀.breaker)).bind
      fun h₁ m₁ hm₁ => ?_
  obtain ⟨ht₁, hbr⟩ := hm₁
  split
  next hopen =>
    refine (probeStep_silent hopen).watch (hd ht₁) fun h' r ht' hr => ?_
    obtain ⟨hr, hsane, hclosed⟩ := hr
    unfold StepDone
    rw [ht', ht₁]
    refine ⟨rfl, rfl, hr, hsane, ⟨fun _ _ _ => ⟨rfl, rfl, rfl⟩, Nat.zero_le 1, ?_⟩⟩
    intro m' hm'
    cases hm'
    exact ⟨hsane, fun _ => rfl, fun _ _ _ hc => absurd hc hclosed⟩
  next hopen =>
    have ho₀ : m₀.breaker.state ≠ .Open := hbr ▸ hopen
    refine (submitStep_watch ht₁ ho₀ (by rw [hbr]; exact hb) hopen).bind fun h₂ r hr => ?_
    obtain ⟨submit_result, m₂⟩ := r
    obtain ⟨v, l, oc, ht₂, hv, hr₂, hsane, hclosed⟩ := hr
    refine (confirmStep_watch rfl hv rfl ho₀ ht₂).bind fun h₃ r hr => ?_
    obtain ⟨confirm_result, m₃⟩ := r
    obtain ⟨hr₃, hm₃, ht₃⟩ := hr
    dsimp only at hr₂ hr₃ hm₃ hsane hclosed
    -- what is stored is the breaker after `submitStep_`
    have hdone : ∀ r', r' ≠ StepResult.BreakerBlocked → StepDone m₀ h₃ (r', m₃) := by
      intro r' hr'
      have hst : ∀ n, (n = 0 ∨ m₂.breaker.state ≠ .Open) → ∀ b,
          tally h₃ = ⟨some m₀, none, v, l, b, n, oc⟩ → StepDone m₀ h₃ (r', m₃) := by
        intro n hn b htn
        unfold StepDone
        rw [htn]
        refine ⟨rfl, rfl, hr', by rw [hm₃]; exact hsane, ⟨fun m hm hop => ?_, hv, ?_⟩⟩
        · cases hm
          exact absurd hop ho₀
        · intro m' hm'
          cases hm'
          rw [hm₃]
          refine ⟨hsane, fun hop => hn.resolve_right fun h => h hop, fun m hm hh hc => ?_⟩
          cases hm
          exact hclosed (by rw [hbr]; exact hh) hc
      rcases ht₃ with ht₃ | ⟨⟨n, ht₃⟩, hno⟩
      · exact hst 0 (Or.inl rfl) false ht₃
      · exact hst n (Or.inr hno) true ht₃
    show Prog.Along _ _ _ _ (if submit_result = .Idle ∧ confirm_result ≠ .Idle then _ else _)
    split
    · exact hdone _ hr₃
    · exact hdone _ hr₂

/-- A call of `runOnce` reads the members once, keeps the discipline, and stores them at its end. -/
theorem runOnce_watch :
    Prog.Along (fun _ => Loads) Watch (fun h' r => Disciplined (tally h') ∧ r ≠ .BreakerBlocked)
      []
      (runOnce cfg) := by
  have hd : Disciplined {} :=
    ⟨fun m hm => (by cases hm), Nat.zero_le 1, fun m hm => (by cases hm)⟩
  refine Prog.Along.call ⟨hd, by simp⟩ fun fatal _ => ?_
  cases fatal with
  | true => exact ⟨hd, by simp⟩
  | false =>
    refine Prog.Along.call ⟨hd, by simp⟩ fun m hm => ?_
    refine (runStep_watch rfl hm).bind fun h₁ r hr => ?_
    obtain ⟨r, m'⟩ := r
    obtain ⟨hload, hstored, hr, hsane, hdisc⟩ := hr
    have hd₁ : Disciplined (tally h₁) := by
      refine ⟨hdisc.silent, hdisc.one, fun m'' hm'' => ?_⟩
      rw [hstored] at hm''
      cases hm''
    refine Prog.Along.call ⟨hd₁, fun m'' hm'' => ?_⟩ fun _ _ => ⟨hdisc, hr⟩
    cases hm''
    exact hsane

end Steps

/-! ## Runs -/

/-- The submission core, with the results of `runOnce` kept. -/
def watched (cfg : Config) : Machine sig World Party Input Call (Option StepResult) where
  exec := (core cfg).exec
  body
    | .runOnce => (runOnce cfg).bind fun r => .ret (some r)
    | .observeDifficulty d => (observeDifficulty d).bind fun _ => .ret none
    | .append p => (call (.append p)).bind fun _ => .ret none
  may := (core cfg).may
  abort := (core cfg).abort
  crash := (core cfg).crash

abbrev WatchedConf := Conf sig World Party (Option StepResult)

/-- A process that has just opened a journal. -/
def openOn (cfg : Config) (j : Journal) : WatchedConf := ⟨boot cfg j, fun _ => none⟩

/-- The operations of each thread: only the submission thread stores members. -/
def Watched : Party → Events → Op → Prop
  | .submission => Watch
  | _ => fun _ o => ∀ m, o ≠ .setMembers m

/-- What its calls leave. -/
def WatchedDone : Party → Events → Option StepResult → Prop
  | .submission => fun h r => Disciplined (tally h) ∧ r ≠ some .BreakerBlocked
  | _ => fun _ _ => True

section Runs

variable {cfg : Config} {c c' : WatchedConf} {l : Label sig Party Call}

/-- Every call of every thread, of which only the submission thread has anything to keep. -/
theorem body_watched {i : Party} {k : Call} (hm : (watched cfg).may i k = true) :
    Prog.Along (fun _ => Loads) (Watched i) (WatchedDone i) [] ((watched cfg).body k) := by
  have hother : ∀ {i}, i ≠ .submission → ∀ {α : Type} {P : α → Prop} {p : Step α}
      {f : α → Step (Option StepResult)}, Silent Op.counted P [] p →
        (∀ a, ∃ r, f a = .ret r) →
      Prog.Along (fun _ => Loads) (Watched i) (WatchedDone i) [] (p.bind f) := by
    intro i hi α P p f hp hf
    refine (Prog.Along.mono (fun _ _ _ => trivial) (fun h o ho => ?_) (fun _ _ ha => ha) hp).bind
      fun h' a _ => ?_
    · cases i with
      | submission => exact absurd rfl hi
      | poller | miner =>
        rintro m rfl
        cases ho
    · obtain ⟨r, hr⟩ := hf a
      rw [hr]
      cases i with
      | submission => exact absurd rfl hi
      | poller | miner => trivial
  cases k with
  | runOnce =>
    cases i with
    | submission =>
      refine runOnce_watch.bind fun h' r hr => ⟨hr.1, ?_⟩
      simpa using hr.2
    | poller | miner => cases hm
  | observeDifficulty d =>
    cases i with
    | poller => exact hother (by simp) observeDifficulty_silent.counted fun _ => ⟨none, rfl⟩
    | submission | miner => cases hm
  | append p =>
    cases i with
    | miner n =>
      refine hother (by simp) (P := fun _ => True) ⟨rfl, fun _ _ => trivial⟩
        fun _ => ⟨none, rfl⟩
    | submission | poller => cases hm

/-- Members change only where they are stored. -/
theorem exec_members {o : Op} {w w' : World} {x : Input} {a : o.Ans}
    (he : exec o w x = some (a, w')) (ho : ∀ m, o ≠ .setMembers m) :
    w'.members = w.members := by
  cases o with
  | setMembers m => exact absurd rfl (ho m)
  | observe d =>
    simp only [exec, Option.some.injEq] at he
    rw [show w' = (w.observe d).2 by rw [he]]
    unfold World.observe
    split
    · rfl
    · split
      · rfl
      · split <;> rfl
  | recordAttempt =>
    simp only [exec] at he
    split at he <;> cases he
    rfl
  | mono | wall | submit | confirm | difficulty =>
    cases x <;> cases he
    rfl
  | _ => cases he; rfl

/-- Not stuck, and every thread on its path. -/
structure Going (c : WatchedConf) : Prop where
  sane : c.world.members.breaker.Sane
  paths : c.Along (fun _ => Loads) Watched WatchedDone

/-- While nothing throws, a step of the machine keeps what holds along the call. -/
theorem Going.step (hc : Going c) (hs : (watched cfg).Step c l c')
    (hno : ∀ o, l ≠ .threw .submission o) : Going c' := by
  refine ⟨?_, hc.paths.step hs (fun i h p e hl hp => ?_) fun i k hm => body_watched hm⟩
  · rcases Machine.step_cases hs with ⟨i, k, -, -, -, rfl⟩ |
        ⟨i, h, o, k, x, a, w, rfl, hp, he, rfl⟩ |
      ⟨i, h, o, k, w, rfl, -, ha, rfl⟩ | ⟨w, -, hcr, rfl⟩
    · exact hc.sane
    -- only the submission thread stores the members
    · by_cases hset : ∃ m, o = .setMembers m
      · obtain ⟨m, rfl⟩ := hset
        have hpath := (hc.paths i _ hp).1
        cases he
        cases i with
        | submission => exact hpath.2 m rfl
        | poller | miner => exact absurd rfl (hpath m)
      · have hm : w.members = c.world.members := exec_members he fun m hm => hset ⟨m, hm⟩
        show w.members.breaker.Sane
        rw [hm]
        exact hc.sane
    · -- another thread threw
      have hi : i ≠ .submission := by
        rintro rfl
        exact hno o rfl
      simp only [watched, core, if_neg hi] at ha
      split at ha <;> cases ha
      exact hc.sane
    · cases hcr
      exact fun h => by cases h
  · subst hl
    obtain ⟨op, a⟩ := e
    obtain ⟨-, -, x, -, he, -⟩ := hs.did
    cases op with
    | members =>
      have hm : c.world.members = a := (Prod.mk.inj (Option.some.inj he)).1
      show a.breaker.Sane
      rw [← hm]
      exact hc.sane
    | _ => trivial

/-- In every run in which no operation of the submission thread throws: a half-open
breaker has its admission to give, no `runOnce` returns `BreakerBlocked`, and every
`runOnce`, at every point, keeps the discipline. -/
theorem half_open_never_stuck {j : Journal} {tr : List (WatchedConf × Label sig Party Call)}
    (hr : Run (watched cfg) (openOn cfg j) tr c)
    (hno : ∀ y ∈ tr, ∀ o, y.2 ≠ .threw .submission o) :
    c.world.members.breaker.Sane ∧
      ∀ h p, c.pool .submission = some ⟨h, p⟩ →
        Disciplined (tally h) ∧ p ≠ .ret (some .BreakerBlocked) := by
  have hc : Going c := by
    refine hr.invariant (I := fun _ => Going) (fun _ _ _ _ _ hI hG hs => hI.step hs hG) ?_
      (Each.of_forall hno)
    exact ⟨fun h => (by cases h), Conf.along_of_empty fun _ => rfl⟩
  refine ⟨hc.sane, fun h p hp => ?_⟩
  have hpath := hc.paths .submission _ hp
  cases p with
  | ret r => exact ⟨hpath.1, fun h => hpath.2 (by cases h; rfl)⟩
  | op o k => exact ⟨hpath.1.1, by simp⟩

end Runs

/-- One call of the submission thread at time `t`, with `n` operations before the request
and `k` after it. -/
def roundAt (t : Int) (n : Nat) (r : TransportResult) (k : Nat) : List (Choice Party Input Call) :=
  .start .submission .runOnce ::
    acts .submission (List.replicate n (.time t) ++ .answer r :: List.replicate k (.time t))

/-- No answer at all. -/
def noAnswer : TransportResult := { transport_ok := false, http_status := 0, body := [] }

/-- A find whose `/verify` gets no answer, a probe that does, a `/verify` that is refused. -/
def recovering : List (Choice Party Input Call) :=
  [.start (.miner 0) (.append sampleFind), .act (.miner 0) .nothing] ++
    roundAt 0 13 noAnswer 6 ++ roundAt 5000 4 (reply 200 (lit "ok")) 2 ++
    roundAt 9000 12 (reply 401 (lit "x")) 6

/-- One failure opens the breaker. -/
def touchy : Config := { breaker := { failure_threshold := 1 } }

private theorem recovering_possible :
    ((watched touchy).replay (openOn touchy .empty) recovering).isSome = true := by
  decide +kernel

/-- Nothing throws, as a test. -/
def noThrow (tr : List (WatchedConf × Label sig Party Call)) : Bool :=
  tr.all fun y => match y.2 with
    | .threw _ _ => false
    | _ => true

/-- The test says what the theorem asks: no step of the trace is a throw of the submission thread.
-/
theorem noThrow_sound {tr : List (WatchedConf × Label sig Party Call)} (hn : noThrow tr = true) :
    ∀ y ∈ tr, ∀ o, y.2 ≠ .threw .submission o := by
  intro y hy o ho
  have hy' := List.all_eq_true.mp hn y hy
  rw [ho] at hy'
  cases hy'

theorem half_open_never_stuck_recovering :
    ∃ tr c, Run (watched touchy) (openOn touchy .empty) tr c ∧ noThrow tr = true ∧
      c.world.members.breaker.state = .HalfOpen ∧
      c.world.members.breaker.admission_available = true ∧
      ∀ h p, c.pool .submission = some ⟨h, p⟩ → Disciplined (tally h) := by
  have hr := Machine.replay_get recovering_possible
  have hn : noThrow ((watched touchy).replay (openOn touchy .empty) recovering |>.get
      recovering_possible).1 = true := by
    decide +kernel
  have hst : ((watched touchy).replay (openOn touchy .empty) recovering |>.get
      recovering_possible).2.world.members.breaker.state = .HalfOpen := by
    decide +kernel
  obtain ⟨hsane, hdisc⟩ := half_open_never_stuck hr (noThrow_sound hn)
  exact ⟨_, _, hr, hn, hst, hsane hst, fun h p hp => (hdisc h p hp).1⟩

end TreeMiner

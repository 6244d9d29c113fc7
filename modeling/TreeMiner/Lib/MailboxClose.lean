import TreeMiner.Lib.Mailbox

/-!
# Closing a mailbox

Whoever closes a service waits for its threads, and the consumer may sleep. Where each of them is,
is an invariant (`Arranged`). From the moment the flag is cleared no further message is taken out
(`stopped_step`), and every step brings the service nearer to its end (`rank_step`), at which
nothing can happen any more (`ended_step`). It always comes there, but for one case: a wake-up
that came between the consumer's look at the flag and its sleep (`progress`, `run_missed`).

The rank counts what is left to do: the phases of the closer, the helpers, the consumer on its way
out, and a message on its way in. A step of the service itself takes one off it, whatever the
order; only a message that arrives adds one.
-/

namespace Mailbox

variable {M T S : Type}

/-- The one who closes has sent its wake-up. -/
def Phase.woken : Phase → Bool
  | .severing => false
  | .waking => false
  | _ => true

/-- The one who closes has waited for the other threads. -/
def Phase.joined : Phase → Bool
  | .finishing => true
  | .closed => true
  | _ => false

/-- Where the consumer may be, with what the one who closes has done. -/
def Consumer.Fits (missed : Bool) : Option (Bool × Phase) → Consumer M → Prop
  | none, .closing => False
  | none, .exited => False
  | none, _ => missed = false
  | some (true, _), .closing => missed = false
  | some (true, phase), .ready => phase = .closed ∧ missed = false
  | some (true, phase), .exited => phase = .closed ∧ missed = false
  | some (true, _), _ => False
  | some (false, _), .closing => False
  | some (false, phase), .checked => missed = phase.woken
  | some (false, phase), .asleep => missed = phase.woken
  | some (false, _), _ => missed = false

/-- The threads and how far they are. -/
structure Arranged (s : State M T S) : Prop where
  open_iff : s.running = true ↔ s.closer = none
  severed : ∀ self phase, s.closer = some (self, phase) → phase ≠ .severing →
    s.callback = false ∧ s.arriving = none
  consumer : s.consumer.Fits s.missed s.closer
  joined : ∀ self phase, s.closer = some (self, phase) → phase.joined = true →
    s.helpers = 0 ∧ (self = false → s.gone = true)

/-! ## Where the threads are -/

section Threads

variable {sv : Service M T S} {s s' : State M T S} {t : T}

/-- A consumer that is woken up fits in anywhere. -/
theorem fits_ready {missed : Bool} {closer : Option (Bool × Phase)}
    (h : Consumer.Fits missed closer (.asleep : Consumer M)) :
    Consumer.Fits false closer (.ready : Consumer M) := by
  match closer, h with
  | none, _ => rfl
  | some (false, _), _ => rfl

/-- Whoever closes from without finds the consumer anywhere. -/
theorem fits_stopped {missed : Bool} {c : Consumer M} (h : c.Fits missed none) :
    c.Fits missed (some (false, .severing)) := by
  cases c with
  | ready => exact h
  | checked => exact h
  | asleep => exact h
  | handling m => exact h
  | closing => exact h.elim
  | exited => exact h.elim

/-- With the flag cleared, the consumer that looks at it ends. -/
theorem fits_exited {missed : Bool} {closer : Option (Bool × Phase)}
    (h : Consumer.Fits missed closer (.ready : Consumer M)) (hclosing : closer ≠ none) :
    Consumer.Fits missed closer (.exited : Consumer M) := by
  match closer, h with
  | none, _ => exact absurd rfl hclosing
  | some (true, _), h => exact h
  | some (false, _), h => exact h

/-- It goes on after a message. -/
theorem fits_after {missed : Bool} {closer : Option (Bool × Phase)} {m : M}
    (h : Consumer.Fits missed closer (.handling m)) :
    Consumer.Fits missed closer (.ready : Consumer M) := by
  match closer, h with
  | none, h => exact h
  | some (false, _), h => exact h

/-- It sleeps where it stood. -/
theorem fits_asleep {missed : Bool} {closer : Option (Bool × Phase)}
    (h : Consumer.Fits missed closer (.checked : Consumer M)) :
    Consumer.Fits missed closer (.asleep : Consumer M) := by
  match closer, h with
  | none, h => exact h
  | some (false, _), h => exact h

/-- The one who closes goes on. -/
theorem fits_phase {missed self : Bool} {phase next : Phase} {c : Consumer M}
    (h : c.Fits missed (some (self, phase))) (hphase : phase ≠ .closed)
      (hwoken : next.woken = phase.woken) :
    c.Fits missed (some (self, next)) := by
  cases self with
  | true =>
    cases c with
    | closing => exact h
    | ready => exact absurd h.1 hphase
    | exited => exact absurd h.1 hphase
    | checked => exact h.elim
    | asleep => exact h.elim
    | handling m => exact h.elim
  | false =>
    cases c with
    | closing => exact h.elim
    | checked => exact h.trans hwoken.symm
    | asleep => exact h.trans hwoken.symm
    | ready => exact h
    | exited => exact h
    | handling m => exact h

/-- After the wake-up, the consumer sleeps on where it had looked before. -/
theorem fits_woken {self : Bool} (h : s.consumer.Fits s.missed (some (self, .waking))) :
    s.wake.consumer.Fits s.sleepsOn (some (self, .cleaning)) := by
  unfold State.sleepsOn
  rcases wake_cases s with ⟨hasleep, heq⟩ | ⟨hne, heq⟩
  · rw [hasleep] at h
    rw [heq, hasleep]
    cases self with
    | true => exact h.elim
    | false => rfl
  · rw [heq]
    -- a consumer that was not asleep looks at the flag before it sleeps
    cases hc : s.consumer with
    | asleep => exact absurd hc hne
    | closing =>
      rw [hc] at h
      cases self with
      | true => rfl
      | false => exact h.elim
    | ready =>
      rw [hc] at h
      cases self with
      | true => exact (nomatch h.1)
      | false => rfl
    | exited =>
      rw [hc] at h
      cases self with
      | true => exact (nomatch h.1)
      | false => rfl
    | checked =>
      rw [hc] at h
      cases self with
      | true => exact h.elim
      | false => rfl
    | handling m =>
      rw [hc] at h
      cases self with
      | true => exact h.elim
      | false => rfl

/-- Waking the consumer keeps the arrangement of the phases. -/
theorem wake_arranged (h : Arranged s) : Arranged s.wake := by
  rcases wake_cases s with ⟨hasleep, heq⟩ | ⟨-, heq⟩
  · rw [heq]
    have hconsumer := h.consumer
    rw [hasleep] at hconsumer
    refine ⟨h.open_iff, h.severed, fits_ready hconsumer, ?_⟩
    intro self phase hc hp
    obtain ⟨hhelpers, hgone⟩ := h.joined self phase hc hp
    refine ⟨hhelpers, fun hself => ?_⟩
    -- one who sleeps has not ended
    have hgone := hgone hself
    unfold State.gone at hgone
    rw [hasleep] at hgone
    cases hgone
  · rw [heq]
    exact h

/-- The callback lets its message go. -/
theorem Arranged.let_go (h : Arranged s) : ∀ self phase, s.closer = some (self, phase) →
    phase ≠ .severing → s.callback = false ∧ (none : Option M) = none :=
  fun self phase hc hp => ⟨(h.severed self phase hc hp).1, rfl⟩

/-- The consumer goes on from a place before its end. -/
theorem Arranged.moved (h : Arranged s) {c d : Consumer M} (hd : s.consumer = d)
    (hhere : d.isExited = false) (hfits : c.Fits s.missed s.closer) :
    Arranged { s with consumer := c } := by
  refine ⟨h.open_iff, h.severed, hfits, ?_⟩
  intro self phase hc hp
  obtain ⟨hhelpers, hgone⟩ := h.joined self phase hc hp
  refine ⟨hhelpers, fun hself => ?_⟩
  have hgone := hgone hself
  unfold State.gone at hgone
  rw [hd, hhere] at hgone
  cases hgone

/-- One who begins to close. -/
theorem begins_arranged {c : Consumer M} {self : Bool}
    (hfits : c.Fits s.missed (some (self, .severing))) :
    Arranged { s with consumer := c, running := false, closer := some (self, .severing) } := by
  refine ⟨⟨fun h => (nomatch h), fun h => (nomatch h)⟩, ?_, hfits, ?_⟩
  · intro self' phase hc hp
    cases hc
    exact absurd rfl hp
  · intro self' phase hc hp
    cases hc
    cases hp

/-- The one who closes goes on, as long as it has not waited for the others. -/
theorem Arranged.goes_on (h : Arranged s) {self : Bool} {phase next : Phase}
    (hcloser : s.closer = some (self, phase)) {c : Consumer M} {missed callback : Bool}
    (hsevered : callback = false ∧ s.arriving = none) (hnext : next.joined = false)
    (hfits : c.Fits missed (some (self, next))) :
    Arranged { s with consumer := c, missed, callback, closer := some (self, next) } := by
  refine ⟨⟨fun hr => ?_, fun h => (nomatch h)⟩, fun _ _ _ _ => hsevered, hfits, ?_⟩
  · rw [h.open_iff.mp hr] at hcloser
    cases hcloser
  · intro self' phase' hc hp
    cases hc
    rw [hnext] at hp
    cases hp

/-- One step of any of the parties. -/
theorem step_arranged {x : Event M T} (h : Arranged s) (hs : step sv s x = some s') :
    Arranged s' := by
  have hconsumer := h.consumer
  cases Step.of_step hs with
  | ignored => exact h
  | arrived _ hcallback =>
    refine ⟨h.open_iff, ?_, h.consumer, h.joined⟩
    intro self phase hc hp
    -- a callback that is still there has not been severed
    rw [(h.severed self phase hc hp).1] at hcallback
    cases hcallback
  | late _ _ => exact ⟨h.open_iff, h.let_go, h.consumer, h.joined⟩
  | dropped _ _ => exact ⟨h.open_iff, h.let_go, h.consumer, h.joined⟩
  | accepted _ _ _ _ => exact wake_arranged ⟨h.open_iff, h.let_go, h.consumer, h.joined⟩
  | exited hready hstopped =>
    rw [hready] at hconsumer
    refine h.moved hready rfl (fits_exited hconsumer ?_)
    intro hnone
    rw [h.open_iff.mpr hnone] at hstopped
    cases hstopped
  | looked hready hrunning =>
    rw [hready, h.open_iff.mp hrunning] at hconsumer
    refine h.moved hready rfl ?_
    rw [h.open_iff.mp hrunning]
    exact hconsumer
  | @took _ m queue hready hrunning _ =>
    rw [hready, h.open_iff.mp hrunning] at hconsumer
    have hmoved : Arranged { s with consumer := .handling m } := by
      refine h.moved hready rfl ?_
      rw [h.open_iff.mp hrunning]
      exact hconsumer
    exact ⟨hmoved.open_iff, hmoved.severed, hmoved.consumer, hmoved.joined⟩
  | slept hchecked =>
    rw [hchecked] at hconsumer
    exact h.moved hchecked rfl (fits_asleep hconsumer)
  | handled hhandling _ =>
    rw [hhandling] at hconsumer
    have hmoved := h.moved hhandling rfl (fits_after hconsumer)
    exact ⟨hmoved.open_iff, hmoved.severed, hmoved.consumer, hmoved.joined⟩
  | closes hhandling hrunning _ =>
    rw [hhandling, h.open_iff.mp hrunning] at hconsumer
    have hbegins : Arranged { s with
        consumer := .closing, running := false, closer := some (true, .severing) } :=
      begins_arranged hconsumer
    exact ⟨hbegins.open_iff, hbegins.severed, hbegins.consumer, hbegins.joined⟩
  | released hclosing hclosed =>
    rw [hclosing, hclosed] at hconsumer
    refine h.moved hclosing rfl ?_
    rw [hclosed]
    exact ⟨rfl, hconsumer⟩
  | woke hasleep =>
    have hw := wake_arranged h
    unfold State.wake at hw
    rw [hasleep] at hw
    exact hw
  | passed _ => exact ⟨h.open_iff, h.severed, h.consumer, h.joined⟩
  | left _ _ =>
    refine ⟨h.open_iff, h.severed, h.consumer, ?_⟩
    intro self phase hc hp
    obtain ⟨hhelpers, hgone⟩ := h.joined self phase hc hp
    exact ⟨Nat.le_zero.mp (hhelpers ▸ Nat.sub_le s.helpers 1), hgone⟩
  | stopped hrunning =>
    rw [h.open_iff.mp hrunning] at hconsumer
    exact begins_arranged (fits_stopped hconsumer)
  | again _ => exact h
  | severed hcloser hfree =>
    rw [hcloser] at hconsumer
    exact h.goes_on hcloser ⟨rfl, hfree⟩ rfl (fits_phase hconsumer (fun h => nomatch h) rfl)
  | wakes hcloser =>
    rw [hcloser] at hconsumer
    have hgoes :=
      h.goes_on hcloser (h.severed _ _ hcloser fun h => nomatch h) rfl (fits_woken hconsumer)
    rcases wake_cases s with ⟨-, heq⟩ | ⟨-, heq⟩
    · rw [heq] at hgoes ⊢
      exact hgoes
    · rw [heq] at hgoes ⊢
      exact hgoes
  | cleaned hcloser =>
    rw [hcloser] at hconsumer
    have hgoes := h.goes_on hcloser (h.severed _ _ hcloser fun h => nomatch h) rfl
      (@fits_phase _ _ _ _ .joining _ hconsumer (fun h => nomatch h) rfl)
    exact ⟨hgoes.open_iff, hgoes.severed, hgoes.consumer, hgoes.joined⟩
  | joined hcloser hhelpers hgone =>
    rw [hcloser] at hconsumer
    refine ⟨⟨fun hr => ?_, fun h => (nomatch h)⟩,
      fun _ _ _ _ => h.severed _ _ hcloser fun h => (nomatch h),
      fits_phase hconsumer (fun h => nomatch h) rfl, ?_⟩
    · rw [h.open_iff.mp hr] at hcloser
      cases hcloser
    · intro self' phase' hc _
      cases hc
      exact ⟨hhelpers, hgone⟩
  | finished hcloser =>
    rw [hcloser] at hconsumer
    refine ⟨⟨fun hr => ?_, fun h => (nomatch h)⟩,
      fun _ _ _ _ => h.severed _ _ hcloser fun h => (nomatch h),
      fits_phase hconsumer (fun h => nomatch h) rfl, ?_⟩
    · rw [h.open_iff.mp hr] at hcloser
      cases hcloser
    · intro self' phase' hc _
      cases hc
      exact h.joined _ _ hcloser rfl

/-- The phases at the start. -/
theorem start_arranged (init : S) (helpers : Nat) :
    Arranged (State.start init helpers : State M T S) where
  open_iff := ⟨fun _ => rfl, fun _ => rfl⟩
  severed := fun _ _ h => nomatch h
  consumer := rfl
  joined := fun _ _ h => nomatch h

/-- From one step to a whole run. -/
theorem run_arranged {init : S} {helpers : Nat} {xs : List (Event M T)}
    (hr : Steps.run (step sv) (.start init helpers) xs = some s) : Arranged s :=
  Steps.run_invariant (I := fun _ s => Arranged s) (start_arranged init helpers)
    (fun _ _ _ _ _ h hs => step_arranged h hs) hr

end Threads

/-! ## A service that is being closed -/

section Closing

variable {sv : Service M T S} {s s' : State M T S} {t : T}

/-- The messages whose handling has begun. -/
def State.taken (s : State M T S) : List M := s.log.filterMap Effect.message ++ s.consumer.current

/-- Nothing is left to be done. -/
def State.ended (s : State M T S) : Bool :=
  s.gone && match s.closer with
    | some (_, .closed) => true
    | _ => false

/-- The consumer sleeps, and the one who closes waits for it. -/
def State.hangs (s : State M T S) : Bool :=
  (match s.consumer with
    | .asleep => true
    | _ => false) && s.missed && s.helpers = 0 && s.closer = some (false, .joining)

/-- A step that a thread of the service takes when it can. -/
def Event.own : Event M T → Bool
  | .enqueue => true
  | .consume _ => true
  | .leave => true
  | .close _ => true
  | _ => false

/-- The consumer has a step to take, also when the flag is cleared. -/
def Consumer.able : Consumer M → Bool
  | .ready => true
  | .checked => true
  | .handling _ => true
  | _ => false

/-- A message comes. -/
def Event.arrives : Event M T → Bool
  | .arrive _ => true
  | _ => false

def Consumer.rank : Consumer M → Nat
  | .checked => 3
  | .asleep => 2
  | .handling _ => 2
  | .closing => 2
  | .ready => 1
  | .exited => 0

def Phase.rank : Phase → Nat
  | .severing => 5
  | .waking => 4
  | .cleaning => 3
  | .joining => 2
  | .finishing => 1
  | .closed => 0

/-- The steps that are left. -/
def State.rank (s : State M T S) : Nat :=
  s.consumer.rank + (s.closer.elim 0 fun c => c.2.rank) + s.helpers + s.arriving.toList.length

/-- What holds at the end. -/
structure Over (s : State M T S) : Prop where
  consumer : s.consumer = .exited
  closer : ∃ self, s.closer = some (self, .closed)
  arriving : s.arriving = none
  callback : s.callback = false
  helpers : s.helpers = 0
  running : s.running = false

/-- When the closing has ended, everything is over. -/
theorem over_of_ended (h : Arranged s) (hended : s.ended = true) : Over s := by
  unfold State.ended at hended
  obtain ⟨hgone, hclosed⟩ := Bool.and_eq_true_iff.mp hended
  have hexited : s.consumer = .exited := by
    unfold State.gone at hgone
    cases hc : s.consumer with
    | exited => rfl
    | _ =>
      rw [hc] at hgone
      cases hgone
  split at hclosed
  next self hcloser =>
    obtain ⟨hcallback, harriving⟩ := h.severed self _ hcloser fun h => nomatch h
    refine ⟨hexited, ⟨self, hcloser⟩, harriving, hcallback, (h.joined self _ hcloser rfl).1,
      ?_⟩
    by_contra hr
    rw [h.open_iff.mp (by simpa using hr)] at hcloser
    cases hcloser
  · cases hclosed

/-- Nothing happens any more after the end. -/
theorem ended_step (h : Arranged s) (hended : s.ended = true) {x : Event M T}
    (hs : step sv s x = some s') :
    s' = s := by
  obtain ⟨hexited, ⟨self, hcloser⟩, harriving, hcallback, hhelpers, hstopped⟩ :=
    over_of_ended h hended
  -- a step that needs something else of the state
  have hno : ∀ {P : Prop} {c : Consumer M}, s.consumer = c → c ≠ .exited → P := by
    intro P c hc hne
    exact absurd (hc.symm.trans hexited) hne
  have hphase : ∀ {P : Prop} {self' : Bool} {phase : Phase}, s.closer = some (self', phase) →
      phase ≠ .closed → P := by
    intro P self' phase hc hne
    rw [hcloser] at hc
    cases hc
    exact absurd rfl hne
  cases Step.of_step hs with
  | ignored => rfl
  | again _ => rfl
  | arrived _ hc => exact absurd (hc.symm.trans hcallback) fun h => nomatch h
  | late ha _ => exact absurd (ha.symm.trans harriving) fun h => nomatch h
  | dropped ha _ => exact absurd (ha.symm.trans harriving) fun h => nomatch h
  | accepted ha _ _ _ => exact absurd (ha.symm.trans harriving) fun h => nomatch h
  | exited hc _ => exact hno hc fun h => nomatch h
  | looked hc _ => exact hno hc fun h => nomatch h
  | took hc _ _ => exact hno hc fun h => nomatch h
  | slept hc => exact hno hc fun h => nomatch h
  | handled hc _ => exact hno hc fun h => nomatch h
  | closes hc _ _ => exact hno hc fun h => nomatch h
  | released hc _ => exact hno hc fun h => nomatch h
  | woke hc => exact hno hc fun h => nomatch h
  | passed hmore =>
    rw [hhelpers] at hmore
    cases hmore
  | left _ hmore =>
    rw [hhelpers] at hmore
    cases hmore
  | stopped hr => exact absurd (hr.symm.trans hstopped) fun h => nomatch h
  | severed hc _ => exact hphase hc fun h => nomatch h
  | wakes hc => exact hphase hc fun h => nomatch h
  | cleaned hc => exact hphase hc fun h => nomatch h
  | joined hc _ _ => exact hphase hc fun h => nomatch h
  | finished hc => exact hphase hc fun h => nomatch h

/-- Without a message, the consumer changes nothing by going on. -/
theorem taken_moved (hlog : s'.log = s.log) (hc : s'.consumer.current = s.consumer.current) :
    s'.taken = s.taken := by
  unfold State.taken
  rw [hlog, hc]

/-- Once the flag is cleared it stays so, and no further message is taken out. -/
theorem stopped_step (hstopped : s.running = false) {x : Event M T} (hs : step sv s x = some s') :
    s'.running = false ∧ s'.taken = s.taken := by
  have hno : ∀ {P : Prop}, s.running = true → P :=
    fun hr => absurd (hr.symm.trans hstopped) fun h => nomatch h
  have hsilent : ∀ {e : Effect M T}, e.message = none →
      (s.log ++ [e]).filterMap Effect.message ++ s.consumer.current = s.taken := by
    intro e he
    unfold State.taken
    rw [filterMap_silent he]
  -- the steps that need the flag are out; the others take no message
  cases Step.of_step hs with
  | ignored => exact ⟨hstopped, rfl⟩
  | arrived _ _ => exact ⟨hstopped, rfl⟩
  | late _ _ => exact ⟨hstopped, rfl⟩
  | dropped _ hr => exact hno hr
  | accepted _ hr _ _ => exact hno hr
  | exited hready _ => exact ⟨hstopped, taken_moved rfl (by rw [hready]; rfl)⟩
  | looked _ hr => exact hno hr
  | took _ hr _ => exact hno hr
  | slept hchecked => exact ⟨hstopped, taken_moved rfl (by rw [hchecked]; rfl)⟩
  | @handled t m hhandling _ =>
    refine ⟨hstopped, ?_⟩
    unfold State.taken
    rw [hhandling, List.filterMap_append]
    show _ ++ [m] ++ [] = _ ++ [m]
    rw [List.append_nil]
  | closes _ hr _ => exact hno hr
  | released hclosing _ => exact ⟨hstopped, taken_moved rfl (by rw [hclosing]; rfl)⟩
  | woke hasleep => exact ⟨hstopped, taken_moved rfl (by rw [hasleep]; rfl)⟩
  | passed _ => exact ⟨hstopped, hsilent rfl⟩
  | left _ _ => exact ⟨hstopped, rfl⟩
  | stopped hr => exact hno hr
  | again _ => exact ⟨hstopped, rfl⟩
  | severed _ _ => exact ⟨hstopped, rfl⟩
  | wakes _ =>
    rcases wake_cases s with ⟨hasleep, heq⟩ | ⟨-, heq⟩
    · rw [heq]
      exact ⟨hstopped, taken_moved rfl (by rw [hasleep]; rfl)⟩
    · rw [heq]
      exact ⟨hstopped, rfl⟩
  | cleaned _ => exact ⟨hstopped, hsilent rfl⟩
  | joined _ _ _ => exact ⟨hstopped, rfl⟩
  | finished _ => exact ⟨hstopped, hsilent rfl⟩

/-- A step of its own brings the service nearer to its end; others add no more than a message that
comes. -/
theorem rank_step (hstopped : s.running = false) {x : Event M T} (hs : step sv s x = some s') :
    s'.rank + x.own.toNat ≤ s.rank + x.arrives.toNat := by
  have hno : ∀ {P : Prop}, s.running = true → P :=
    fun hr => absurd (hr.symm.trans hstopped) fun h => nomatch h
  have hsame : s.rank + false.toNat ≤ s.rank + false.toNat := Nat.le_refl _
  -- the consumer or the one who closes goes on
  have hconsumer : ∀ {a b : Nat}, a < b →
      a + (s.closer.elim 0 fun c => c.2.rank) + s.helpers + s.arriving.toList.length + 1 ≤
        b + (s.closer.elim 0 fun c => c.2.rank) + s.helpers + s.arriving.toList.length := by
    intro a b hlt
    omega
  have hcloser : ∀ {a b c : Nat}, a < b → c ≤ s.consumer.rank →
      c + a + s.helpers + s.arriving.toList.length + 1 ≤
        s.consumer.rank + b + s.helpers + s.arriving.toList.length := by
    intro a b c hlt hle
    omega
  have hhelpers : ∀ {a b c d : Nat}, 0 < c → a + b + (c - 1) + d + 1 ≤ a + b + c + d := by
    intro a b c d hmore
    omega
  cases Step.of_step hs with
  | ignored => exact Nat.le_succ _
  | again _ => exact hsame
  | arrived hfree _ =>
    unfold State.rank
    rw [hfree]
    exact Nat.le_refl _
  | late harriving _ =>
    unfold State.rank
    rw [harriving]
    exact Nat.le_refl _
  | dropped _ hr => exact hno hr
  | accepted _ hr _ _ => exact hno hr
  | exited hready _ =>
    unfold State.rank
    rw [hready]
    exact hconsumer (by decide : 0 < 1)
  | looked _ hr => exact hno hr
  | took _ hr _ => exact hno hr
  | slept hchecked =>
    unfold State.rank
    rw [hchecked]
    exact hconsumer (by decide : 2 < 3)
  | handled hhandling _ =>
    unfold State.rank
    rw [hhandling]
    exact hconsumer (by decide : 1 < 2)
  | closes _ hr _ => exact hno hr
  | released hclosing _ =>
    unfold State.rank
    rw [hclosing]
    exact hconsumer (by decide : 1 < 2)
  | woke hasleep =>
    unfold State.rank
    rw [hasleep]
    exact Nat.le_of_succ_le (hconsumer (by decide : 1 < 2))
  | passed _ => exact hsame
  | left _ hmore => exact hhelpers hmore
  | stopped hr => exact hno hr
  | severed hc _ =>
    unfold State.rank
    rw [hc]
    exact hcloser (by decide : 4 < 5) (Nat.le_refl _)
  | wakes hc =>
    unfold State.rank
    rw [hc]
    rcases wake_cases s with ⟨hasleep, heq⟩ | ⟨-, heq⟩
    · rw [heq]
      exact hcloser (by decide : 3 < 4) (by rw [hasleep]; exact (by decide : 1 ≤ 2))
    · rw [heq]
      exact hcloser (by decide : 3 < 4) (Nat.le_refl _)
  | cleaned hc =>
    unfold State.rank
    rw [hc]
    exact hcloser (by decide : 2 < 3) (Nat.le_refl _)
  | joined hc _ _ =>
    unfold State.rank
    rw [hc]
    exact hcloser (by decide : 1 < 2) (Nat.le_refl _)
  | finished hc =>
    unfold State.rank
    rw [hc]
    exact hcloser (by decide : 0 < 1) (Nat.le_refl _)

/-- A service that is being closed has ended, or can go on, or hangs. -/
theorem progress (h : Arranged s) (hstopped : s.running = false) (t : T) :
    s.ended = true ∨ s.hangs = true ∨ ∃ x :
    Event M T, x.own = true ∧ (step sv s x).isSome = true := by
  have hconsumer := h.consumer
  -- the consumer can go on, but where it sleeps or waits or has ended
  have hconsume : ∀ c : Consumer M, s.consumer = c → c.able = true →
      ∃ x : Event M T, x.own = true ∧ (step sv s x).isSome = true := by
    intro c hc hable
    refine ⟨.consume t, rfl, ?_⟩
    unfold step State.consume
    dsimp only
    rw [hc]
    cases c with
    | ready =>
      rw [hstopped]
      rfl
    | checked => rfl
    | handling m =>
      dsimp only
      rw [hstopped, Bool.and_false]
      rfl
    | asleep => cases hable
    | closing => cases hable
    | exited => cases hable
  have hclose : ∀ {P : Prop}, (s.close sv t).isSome = true →
      P ∨ ∃ x : Event M T, x.own = true ∧ (step sv s x).isSome = true :=
    fun hsome => .inr ⟨.close t, rfl, hsome⟩
  cases hcloser : s.closer with
  | none =>
    rw [h.open_iff.mpr hcloser] at hstopped
    cases hstopped
  | some closer =>
    obtain ⟨self, phase⟩ := closer
    rw [hcloser] at hconsumer
    cases phase with
    | severing =>
      right
      cases harriving : s.arriving with
      | none =>
        apply hclose
        unfold State.close
        rw [hcloser]
        dsimp only
        rw [harriving]
        rfl
      | some m =>
        right
        -- the callback needs the mutex of the queue
        cases hc : s.consumer with
        | checked => exact hconsume _ hc rfl
        | _ =>
          refine ⟨.enqueue, rfl, ?_⟩
          unfold step State.enqueue
          dsimp only
          rw [harriving, hc]
          dsimp only
          rw [hstopped]
          rfl
    | waking =>
      right
      apply hclose
      unfold State.close
      rw [hcloser]
      rfl
    | cleaning =>
      right
      apply hclose
      unfold State.close
      rw [hcloser]
      rfl
    | joining =>
      by_cases hhelpers : s.helpers = 0
      · have hjoined : (self || s.gone) = true → (s.close sv t).isSome = true := by
          intro hgone
          unfold State.close
          rw [hcloser]
          dsimp only
          rw [if_pos (Bool.and_eq_true_iff.mpr ⟨decide_eq_true hhelpers, hgone⟩)]
          rfl
        cases self with
        | true =>
          right
          exact hclose (hjoined rfl)
        | false =>
          cases hc : s.consumer with
          | asleep =>
            -- it was not there when it was woken
            right
            left
            rw [hc] at hconsumer
            have hmissed : s.missed = true := hconsumer
            unfold State.hangs
            rw [hc, hmissed, hhelpers, hcloser]
            rfl
          | exited =>
            right
            apply hclose (hjoined _)
            unfold State.gone
            rw [hc]
            rfl
          | closing =>
            rw [hc] at hconsumer
            exact hconsumer.elim
          | ready => exact .inr (.inr (hconsume _ hc rfl))
          | checked => exact .inr (.inr (hconsume _ hc rfl))
          | handling m => exact .inr (.inr (hconsume _ hc rfl))
      · right
        right
        refine ⟨.leave, rfl, ?_⟩
        have hmore : (!s.running && decide (s.helpers > 0)) = true := by
          rw [hstopped]
          exact decide_eq_true (Nat.pos_of_ne_zero hhelpers)
        unfold step State.leave
        dsimp only
        rw [if_pos hmore]
        rfl
    | finishing =>
      right
      apply hclose
      unfold State.close
      rw [hcloser]
      rfl
    | closed =>
      have hended : s.gone = true → s.ended = true := by
        intro hgone
        unfold State.ended
        rw [hgone, hcloser]
        rfl
      cases self with
      | false => exact .inl (hended ((h.joined false _ hcloser rfl).2 rfl))
      | true =>
        cases hc : s.consumer with
        | closing =>
          refine .inr (.inr ⟨.consume t, rfl, ?_⟩)
          unfold step State.consume
          dsimp only
          rw [hc, hcloser]
          rfl
        | ready => exact .inr (.inr (hconsume _ hc rfl))
        | exited =>
          left
          apply hended
          unfold State.gone
          rw [hc]
          rfl
        | checked =>
          rw [hc] at hconsumer
          exact hconsumer.elim
        | asleep =>
          rw [hc] at hconsumer
          exact hconsumer.elim
        | handling m =>
          rw [hc] at hconsumer
          exact hconsumer.elim

/-- A service that hangs has no step to take. -/
theorem hangs_stuck (h : Arranged s) (hhangs : s.hangs = true) {x : Event M T}
    (hown : x.own = true) :
    step sv s x = none := by
  unfold State.hangs at hhangs
  simp only [Bool.and_eq_true, decide_eq_true_eq] at hhangs
  obtain ⟨⟨⟨hsleeps, -⟩, hhelpers⟩, hcloser⟩ := hhangs
  -- asleep, nobody left to wake it, and the closer waits for it
  have hasleep : s.consumer = .asleep := by
    split at hsleeps
    next hc => exact hc
    · cases hsleeps
  have harriving := (h.severed false _ hcloser fun h => nomatch h).2
  cases x with
  | enqueue =>
    unfold step State.enqueue
    dsimp only
    rw [harriving]
  | consume t =>
    unfold step State.consume
    dsimp only
    rw [hasleep]
  | leave =>
    unfold step State.leave
    dsimp only
    rw [hhelpers, if_neg (by simp)]
  | close t =>
    unfold step State.close
    dsimp only
    rw [hcloser]
    dsimp only
    rw [if_neg]
    unfold State.gone
    rw [hasleep]
    simp [Consumer.isExited]
  | arrive m => cases hown
  | spurious => cases hown
  | pass t => cases hown
  | stop => cases hown

/-- The steps of its own that a service takes while it is being closed are no more than those that
were left and the messages that come. -/
theorem own_steps_le (hstopped : s.running = false) {xs : List (Event M T)}
    (hr : Steps.run (step sv) s xs = some s') :
    xs.countP Event.own + s'.rank ≤ s.rank + xs.countP Event.arrives := by
  induction xs generalizing s with
  | nil =>
    cases hr
    exact Nat.le_of_eq (Nat.add_comm _ _)
  | cons x xs ih =>
    obtain ⟨s₁, hs, hr⟩ := Option.bind_eq_some_iff.mp hr
    have hrest := ih (stopped_step hstopped hs).1 hr
    have hstep := rank_step hstopped hs
    have hone : ∀ b : Bool, (if b then 1 else 0) = b.toNat := by
      intro b
      cases b with
      | true => rfl
      | false => rfl
    rw [List.countP_cons, List.countP_cons, hone, hone]
    omega

/-- The wake-up of the one who closes comes between a look into the queue and the sleep. -/
def TooEarly (s : State M T S) (x : Event M T) : Prop :=
  (∃ t, x = .close t) ∧ (∃ self, s.closer = some (self, .waking)) ∧ s.sleepsOn = true

/-- Where a wake-up was missed, another thread closes, and is past the wake-up. -/
theorem missed_closer (h : Arranged s) (hmissed : s.missed = true) :
    ∃ phase, s.closer = some (false, phase) ∧ phase.woken = true := by
  have hconsumer := h.consumer
  rw [hmissed] at hconsumer
  -- a wake-up can be missed only after somebody has begun to close
  cases hcloser : s.closer with
  | none =>
    rw [hcloser] at hconsumer
    cases hc : s.consumer with
    | closing =>
      rw [hc] at hconsumer
      exact hconsumer.elim
    | exited =>
      rw [hc] at hconsumer
      exact hconsumer.elim
    | _ =>
      rw [hc] at hconsumer
      cases hconsumer
  | some closer =>
    obtain ⟨self, phase⟩ := closer
    rw [hcloser] at hconsumer
    cases self with
    | true =>
      cases hc : s.consumer with
      | closing =>
        rw [hc] at hconsumer
        cases hconsumer
      | ready =>
        rw [hc] at hconsumer
        exact (nomatch hconsumer.2)
      | exited =>
        rw [hc] at hconsumer
        exact (nomatch hconsumer.2)
      | _ =>
        rw [hc] at hconsumer
        exact hconsumer.elim
    | false =>
      cases hc : s.consumer with
      | checked =>
        rw [hc] at hconsumer
        exact ⟨phase, rfl, Eq.symm hconsumer⟩
      | asleep =>
        rw [hc] at hconsumer
        exact ⟨phase, rfl, Eq.symm hconsumer⟩
      | closing =>
        rw [hc] at hconsumer
        exact hconsumer.elim
      | _ =>
        rw [hc] at hconsumer
        cases hconsumer

/-- The only step by which a wake-up is missed; and it stays missed, unless the consumer wakes by
itself. -/
theorem missed_step (h : Arranged s) {x : Event M T} (hs : step sv s x = some s') :
    (s'.missed = true → s.missed = true ∨ TooEarly s x) ∧
      (s.missed = true ∨ TooEarly s x → x ≠ .spurious → s'.missed = true) := by
  have hstopped : s.missed = true → s.running = false := by
    intro hmissed
    obtain ⟨phase, hcloser, -⟩ := missed_closer h hmissed
    by_contra hr
    rw [h.open_iff.mp (by simpa using hr)] at hcloser
    cases hcloser
  -- a step that leaves it as it is, and is not the wake-up
  have hsame : (TooEarly s x → False) → s'.missed = s.missed →
      (s'.missed = true → s.missed = true ∨ TooEarly s x) ∧
        (s.missed = true ∨ TooEarly s x → x ≠ .spurious → s'.missed = true) := by
    intro hlate heq
    rw [heq]
    exact ⟨.inl, fun hor _ => hor.resolve_right hlate⟩
  have hother : (∀ t, x ≠ .close t) → TooEarly s x → False := fun hne hearly =>
    hearly.1.elim fun t ht => hne t ht
  have hphase : ∀ {self : Bool} {phase : Phase}, s.closer = some (self, phase) →
    phase ≠ .waking →
      TooEarly s x → False := by
    intro self phase hc hne hearly
    obtain ⟨self', hwaking⟩ := hearly.2.1
    rw [hc] at hwaking
    cases hwaking
    exact hne rfl
  cases Step.of_step hs with
  | ignored => exact hsame (hother fun t h => nomatch h) rfl
  | arrived _ _ => exact hsame (hother fun t h => nomatch h) rfl
  | late _ _ => exact hsame (hother fun t h => nomatch h) rfl
  | dropped _ _ => exact hsame (hother fun t h => nomatch h) rfl
  | accepted _ hrunning _ _ =>
    apply hsame (hother fun t h => nomatch h)
    -- nothing is missed while the flag is set
    have hnone : s.missed = false := by
      by_contra hmissed
      rw [hstopped (by simpa using hmissed)] at hrunning
      cases hrunning
    unfold State.wake
    split
    · exact hnone.symm
    · rfl
  | exited _ _ => exact hsame (hother fun t h => nomatch h) rfl
  | looked _ _ => exact hsame (hother fun t h => nomatch h) rfl
  | took _ _ _ => exact hsame (hother fun t h => nomatch h) rfl
  | slept _ => exact hsame (hother fun t h => nomatch h) rfl
  | handled _ _ => exact hsame (hother fun t h => nomatch h) rfl
  | closes _ _ _ => exact hsame (hother fun t h => nomatch h) rfl
  | released _ _ => exact hsame (hother fun t h => nomatch h) rfl
  | woke _ => exact ⟨fun h => (nomatch h), fun _ hne => absurd rfl hne⟩
  | passed _ => exact hsame (hother fun t h => nomatch h) rfl
  | left _ _ => exact hsame (hother fun t h => nomatch h) rfl
  | stopped _ => exact hsame (hother fun t h => nomatch h) rfl
  | again _ => exact hsame (hother fun t h => nomatch h) rfl
  | severed hc _ => exact hsame (hphase hc fun h => nomatch h) rfl
  | @wakes t self hc =>
    refine ⟨fun hsleeps => .inr ⟨⟨t, rfl⟩, ⟨self, hc⟩, hsleeps⟩, ?_⟩
    intro hor _
    rcases hor with hmissed | hearly
    · -- nothing is missed before the wake-up
      obtain ⟨phase, hphase, hwoken⟩ := missed_closer h hmissed
      rw [hc] at hphase
      cases hphase
      cases hwoken
    · exact hearly.2.2
  | cleaned hc => exact hsame (hphase hc fun h => nomatch h) rfl
  | joined hc _ _ => exact hsame (hphase hc fun h => nomatch h) rfl
  | finished hc => exact hsame (hphase hc fun h => nomatch h) rfl

/-- A service whose wake-up was missed does not come to its end. -/
theorem not_ended_of_missed (h : Arranged s) (hmissed : s.missed = true) : s.ended = false := by
  have hconsumer := h.consumer
  obtain ⟨phase, hcloser, hwoken⟩ := missed_closer h hmissed
  rw [hmissed, hcloser] at hconsumer
  unfold State.ended State.gone
  cases hc : s.consumer with
  | exited =>
    rw [hc] at hconsumer
    cases hconsumer
  | _ => rfl

/-- Along a run in which the consumer does not wake by itself, a wake-up is missed exactly when it
came too early. -/
theorem run_missed {init : S} {helpers : Nat} {xs : List (Event M T)}
    (hspurious : Event.spurious ∉ xs)
    (hr : Steps.run (step sv) (.start init helpers) xs = some s) :
    s.missed = true ↔ ∃ pre x post s₁, xs = pre ++ x :: post ∧
      Steps.run (step sv) (.start init helpers) pre = some s₁ ∧ TooEarly s₁ x := by
  -- along the run, from its end: the last step was too early, or one before it
  induction xs using List.reverseRecOn generalizing s with
  | nil =>
    cases hr
    refine ⟨fun h => (nomatch h), ?_⟩
    rintro ⟨pre, x, post, -, hsplit, -⟩
    exact absurd hsplit (by simp)
  | append_singleton xs x ih =>
    obtain ⟨s₁, hr₁, hs⟩ := Steps.run_snoc.mp hr
    have hnone : Event.spurious ∉ xs ∧ x ≠ .spurious := by
      simp only [List.mem_append, List.mem_singleton, not_or] at hspurious
      exact ⟨hspurious.1, fun h => hspurious.2 h.symm⟩
    obtain ⟨honly, hstays⟩ := missed_step (run_arranged hr₁) hs
    have ih := ih hnone.1 hr₁
    constructor
    · intro hmissed
      rcases honly hmissed with hbefore | hearly
      · obtain ⟨pre, y, post, s₂, hsplit, hr₂, hearly⟩ := ih.mp hbefore
        refine ⟨pre, y, post ++ [x], s₂, ?_, hr₂, hearly⟩
        rw [hsplit, List.append_assoc, List.cons_append]
      · exact ⟨xs, x, [], s₁, rfl, hr₁, hearly⟩
    · rintro ⟨pre, y, post, s₂, hsplit, hr₂, hearly⟩
      apply hstays _ hnone.2
      rcases List.eq_nil_or_concat post with rfl | ⟨post, z, rfl⟩
      · obtain ⟨rfl, hxy⟩ := List.append_inj' hsplit rfl
        cases hxy
        rw [hr₁] at hr₂
        cases hr₂
        exact .inr hearly
      · refine .inl (ih.mpr ⟨pre, y, post, s₂, ?_, hr₂, hearly⟩)
        rw [List.concat_eq_append, ← List.cons_append, ← List.append_assoc] at hsplit
        exact (List.append_inj' hsplit rfl).1

/-- The background threads do not come back. -/
theorem helpers_le {x : Event M T} (hs : step sv s x = some s') : s'.helpers ≤ s.helpers := by
  have hwake : ∀ s : State M T S, s.wake.helpers = s.helpers := by
    intro s
    unfold State.wake
    split
    · rfl
    · rfl
  cases Step.of_step hs with
  | accepted _ _ _ _ => exact Nat.le_of_eq (hwake _)
  | wakes _ => exact Nat.le_of_eq (hwake s)
  | left _ _ => exact Nat.sub_le _ 1
  | _ => exact Nat.le_refl _

/-- The flag is cleared by a handler that closes the service, or by a stop. -/
theorem running_kept (hnever : ∀ m t s, (sv.handle m t s).2 = false) {x : Event M T}
    (hs : step sv s x = some s') (hstop : x ≠ .stop) : s'.running = s.running := by
  have hwake : ∀ s : State M T S, s.wake.running = s.running := by
    intro s
    unfold State.wake
    split
    · rfl
    · rfl
  cases Step.of_step hs with
  | accepted _ _ _ _ => exact hwake _
  | wakes _ => exact hwake s
  | @closes t m _ _ hcloses =>
    rw [hnever m t s.state] at hcloses
    cases hcloses
  | stopped _ => exact absurd rfl hstop
  | _ => rfl

/-! ### Runs -/

section RunsOf

variable {init : S} {helpers : Nat} {xs ys : List (Event M T)}

/-- Helpers end and are not replaced. -/
theorem run_helpers_le (hr : Steps.run (step sv) (.start init helpers) xs = some s) :
    s.helpers ≤ helpers :=
  Steps.run_invariant (I := fun _ s => s.helpers ≤ helpers) (Nat.le_refl _)
    (fun _ _ _ _ _ h hs => Nat.le_trans (helpers_le hs) h) hr

/-- Few steps are left. -/
theorem rank_le (hr : Steps.run (step sv) (.start init helpers) xs = some s) :
    s.rank ≤ helpers + 9 := by
  have hconsumer : s.consumer.rank ≤ 3 := by
    cases s.consumer with
    | checked => exact (by decide : 3 ≤ 3)
    | asleep => exact (by decide : 2 ≤ 3)
    | handling m => exact (by decide : 2 ≤ 3)
    | closing => exact (by decide : 2 ≤ 3)
    | ready => exact (by decide : 1 ≤ 3)
    | exited => exact (by decide : 0 ≤ 3)
  have hcloser : (s.closer.elim 0 fun c => c.2.rank) ≤ 5 := by
    cases s.closer with
    | none => exact Nat.zero_le _
    | some c =>
      show c.2.rank ≤ 5
      cases c.2 <;> decide
  have harriving : s.arriving.toList.length ≤ 1 := by
    cases s.arriving with
    | none => exact Nat.zero_le _
    | some m => exact Nat.le_refl _
  have hhelpers := run_helpers_le hr
  unfold State.rank
  omega

/-- Once stopped the mailbox stays so, and no message is taken any more. -/
theorem run_stopped (hstopped : s.running = false) (hr : Steps.run (step sv) s ys = some s') :
    s'.running = false ∧ s'.taken = s.taken :=
  Steps.run_invariant (I := fun _ s' => s'.running = false ∧ s'.taken = s.taken) ⟨hstopped,
    rfl⟩
    (fun _ _ _ _ _ h hs =>
      ⟨(stopped_step h.1 hs).1, (stopped_step h.1 hs).2.trans h.2⟩) hr

/-- After its end nothing happens. -/
theorem run_ended (h : Arranged s) (hended : s.ended = true)
    (hr : Steps.run (step sv) s ys = some s') :
    s' = s :=
  Steps.run_invariant (I := fun _ s' => s' = s) rfl
    (fun _ _ _ _ _ heq hs => by
      rw [heq] at hs
      exact ended_step h hended hs) hr

end RunsOf

end Closing

end Mailbox

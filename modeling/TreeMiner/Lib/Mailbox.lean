import Mathlib.Data.List.Basic
import TreeMiner.Lib.Steps

/-!
# A bounded mailbox with one consumer, and how it is closed

A callback puts messages into a bounded queue, and drops the newest when it is full. One thread
takes them out and handles them, one at a time; it waits on a condition variable while there is
none. Other threads do background work. Whoever closes the service first clears the flag, takes
the callback away, wakes the consumer, and waits for the threads to end; the handler of a message
may close it too, and does not wait for itself then.

The flag is cleared without the mutex of the queue. A wake-up can so come after the consumer has
looked at the flag and before it sleeps; the state remembers that (`missed`).

Whatever the order of the steps, the messages are handled in the order in which they came, and
the state is what the effects make of it one after the other (`run_ordered`).
-/

namespace Mailbox

/-- What a service does with its messages, and where it is told the time. -/
structure Service (M T S : Type) where
  capacity : Nat
  fits : M → Bool
  /-- The handler, and whether it closes the service. -/
  handle : M → T → S → S × Bool
  background : T → S → S
  /-- What is done between waking the consumer and waiting for it. -/
  clean : T → S → S
  finish : S → S

/-- Where the consumer is. `checked`: it has found the queue empty and the flag set, and still
holds the mutex of the queue. -/
inductive Consumer (M : Type) where
  | ready
  | checked
  | asleep
  | handling (m : M)
  | closing
  | exited

def Consumer.isExited {M : Type} : Consumer M → Bool
  | .exited => true
  | _ => false

def Consumer.isChecked {M : Type} : Consumer M → Bool
  | .checked => true
  | _ => false

/-- Where the thread that closes is. -/
inductive Phase where
  | severing
  | waking
  | cleaning
  | joining
  | finishing
  | closed
  deriving DecidableEq

/-- What has changed the state of the service. -/
inductive Effect (M T : Type) where
  | handled (m : M) (t : T)
  | passed (t : T)
  | cleaned (t : T)
  | finished

structure State (M T S : Type) where
  state : S
  running : Bool
  callback : Bool
  /-- The message that the callback has, and with it the mutex of the callback. -/
  arriving : Option M
  queue : List M
  dropped : Nat
  consumer : Consumer M
  /-- Who closes, the consumer or another thread, and how far it is. -/
  closer : Option (Bool × Phase)
  /-- The threads in the background that have not ended. -/
  helpers : Nat
  missed : Bool
  arrived : List M
  accepted : List M
  /-- Messages that came after the flag was cleared. -/
  late : Nat
  log : List (Effect M T)

inductive Event (M T : Type) where
  | arrive (m : M)
  | enqueue
  | consume (t : T)
  | spurious
  | pass (t : T)
  | leave
  | stop
  | close (t : T)

variable {M T S : Type}

namespace State

/-- A service that has been started, with so many threads in the background. -/
def start (state : S) (helpers : Nat) : State M T S :=
  ⟨state, true, true, none, [], 0, .ready, none, helpers, false, [], [], 0, []⟩

/-- A message comes; without a callback nothing happens. -/
def arrive (s : State M T S) (m : M) : Option (State M T S) :=
  if s.arriving.isSome then none
  else if s.callback then some { s with arriving := some m, arrived := s.arrived ++ [m] }
  else some s

/-- A wake-up for the consumer. -/
def wake (s : State M T S) : State M T S :=
  match s.consumer with
  | .asleep => { s with consumer := .ready, missed := false }
  | _ => s

/-- The callback, under the mutex of the queue. -/
def enqueue (sv : Service M T S) (s : State M T S) : Option (State M T S) :=
  match s.arriving, s.consumer with
  | none, _ => none
  | some _, .checked => none
  | some m, _ =>
    let s := { s with arriving := none }
    if !s.running then some { s with late := s.late + 1 }
    else if !sv.fits m || s.queue.length ≥ sv.capacity then
      some { s with dropped := s.dropped + 1 }
    else some { s with queue := s.queue ++ [m], accepted := s.accepted ++ [m] }.wake

/-- Clear the flag; whoever does it first closes. -/
def exchange (s : State M T S) (self : Bool) : State M T S :=
  if s.running then { s with running := false, closer := some (self, .severing) } else s

/-- The next step of the consumer. -/
def consume (sv : Service M T S) (s : State M T S) (t : T) : Option (State M T S) :=
  match s.consumer with
  | .ready =>
    if !s.running then some { s with consumer := .exited }
    else
      match s.queue with
      | [] => some { s with consumer := .checked }
      | m :: queue => some { s with consumer := .handling m, queue }
  | .checked => some { s with consumer := .asleep }
  | .asleep => none
  | .handling m =>
    let (state, closes) := sv.handle m t s.state
    let s' : State M T S := { s with state, log := s.log ++ [.handled m t] }
    if closes && s.running then some { s'.exchange true with consumer := .closing }
    else some { s' with consumer := .ready }
  | .closing =>
    match s.closer with
    | some (true, .closed) => some { s with consumer := .ready }
    | _ => none
  | .exited => none

/-- A pass of a thread in the background; one that was begun before the flag was cleared may come
after it. -/
def pass (sv : Service M T S) (s : State M T S) (t : T) : Option (State M T S) :=
  if s.helpers > 0 then
    some { s with state := sv.background t s.state, log := s.log ++ [.passed t] }
  else none

/-- A thread in the background ends. -/
def leave (s : State M T S) : Option (State M T S) :=
  if !s.running && s.helpers > 0 then some { s with helpers := s.helpers - 1 } else none

/-- The consumer has ended. -/
def gone (s : State M T S) : Bool := s.consumer.isExited

/-- The consumer will sleep though it was woken. -/
def sleepsOn (s : State M T S) : Bool := s.consumer.isChecked

/-- The next step of the thread that closes. -/
def close (sv : Service M T S) (s : State M T S) (t : T) : Option (State M T S) :=
  match s.closer with
  | none => none
  | some (self, phase) =>
    match phase with
    | .severing =>
      if s.arriving.isSome then none
      else some { s with callback := false, closer := some (self, .waking) }
    | .waking => some { s.wake with closer := some (self, .cleaning), missed := s.sleepsOn }
    | .cleaning =>
      some { s with
        state := sv.clean t s.state
        closer := some (self, .joining)
        log := s.log ++ [.cleaned t] }
    | .joining =>
      if s.helpers = 0 && (self || s.gone) then some { s with closer := some (self, .finishing) }
      else none
    | .finishing =>
      some { s with
        state := sv.finish s.state
        closer := some (self, .closed)
        log := s.log ++ [.finished] }
    | .closed => none

end State

/-- A step of one of the threads; none where it is not possible. -/
def step (sv : Service M T S) (s : State M T S) : Event M T → Option (State M T S)
  | .arrive m => s.arrive m
  | .enqueue => s.enqueue sv
  | .consume t => s.consume sv t
  | .spurious =>
    match s.consumer with
    | .asleep => some s.wake
    | _ => none
  | .pass t => s.pass sv t
  | .leave => s.leave
  | .stop => some (s.exchange false)
  | .close t => s.close sv t

/-! ## The steps, one by one -/

/-- The graph of `step`: each thing a thread can do, with what it has found. -/
inductive Step (sv : Service M T S) (s : State M T S) : Event M T → State M T S → Prop where
  | ignored {m : M} : Step sv s (.arrive m) s
  | arrived {m : M} (hfree : s.arriving = none) (hcallback : s.callback = true) :
      Step sv s (.arrive m) { s with arriving := some m, arrived := s.arrived ++ [m] }
  | late {m : M} (harriving : s.arriving = some m) (hstopped : s.running = false) :
      Step sv s .enqueue { s with arriving := none, late := s.late + 1 }
  | dropped {m : M} (harriving : s.arriving = some m) (hrunning : s.running = true) :
      Step sv s .enqueue { s with arriving := none, dropped := s.dropped + 1 }
  | accepted {m : M} (harriving : s.arriving = some m) (hrunning : s.running = true)
      (hfits : sv.fits m = true) (hroom : s.queue.length < sv.capacity) :
      Step sv s .enqueue
        { s with arriving := none, queue := s.queue ++ [m], accepted := s.accepted ++ [m] }.wake
  | exited {t : T} (hready : s.consumer = .ready) (hstopped : s.running = false) :
      Step sv s (.consume t) { s with consumer := .exited }
  | looked {t : T} (hready : s.consumer = .ready) (hrunning : s.running = true) :
      Step sv s (.consume t) { s with consumer := .checked }
  | took {t : T} {m : M} {queue : List M} (hready : s.consumer = .ready)
    (hrunning : s.running = true)
      (hqueue : s.queue = m :: queue) :
      Step sv s (.consume t) { s with consumer := .handling m, queue }
  | slept {t : T} (hchecked : s.consumer = .checked) : Step sv s (.consume t)
    { s with consumer := .asleep }
  | handled {t : T} {m : M} (hhandling : s.consumer = .handling m)
      (hgoes : s.running = true → (sv.handle m t s.state).2 = false) :
      Step sv s (.consume t)
        { s with state := (sv.handle m t s.state).1, log := s.log ++
          [.handled m t], consumer := .ready }
  | closes {t : T} {m : M} (hhandling : s.consumer = .handling m) (hrunning : s.running = true)
      (hcloses : (sv.handle m t s.state).2 = true) :
      Step sv s (.consume t)
        { s with
          state := (sv.handle m t s.state).1, log := s.log ++ [.handled m t], consumer := .closing
          running := false, closer := some (true, .severing) }
  | released {t : T} (hclosing : s.consumer = .closing)
    (hclosed : s.closer = some (true, .closed)) :
      Step sv s (.consume t) { s with consumer := .ready }
  | woke (hasleep : s.consumer = .asleep) :
      Step sv s .spurious { s with consumer := .ready, missed := false }
  | passed {t : T} (hmore : 0 < s.helpers) :
      Step sv s (.pass t) { s with state := sv.background t s.state, log := s.log ++ [.passed t] }
  | left (hstopped : s.running = false) (hmore : 0 < s.helpers) :
      Step sv s .leave { s with helpers := s.helpers - 1 }
  | stopped (hrunning : s.running = true) :
      Step sv s .stop { s with running := false, closer := some (false, .severing) }
  | again (hstopped : s.running = false) : Step sv s .stop s
  | severed {t : T} {self : Bool} (hcloser : s.closer = some (self, .severing))
    (hfree : s.arriving = none) :
      Step sv s (.close t) { s with callback := false, closer := some (self, .waking) }
  | wakes {t : T} {self : Bool} (hcloser : s.closer = some (self, .waking)) :
      Step sv s (.close t) { s.wake with closer := some (self, .cleaning), missed := s.sleepsOn }
  | cleaned {t : T} {self : Bool} (hcloser : s.closer = some (self, .cleaning)) :
      Step sv s (.close t)
        { s with state := sv.clean t s.state, closer := some (self, .joining), log := s.log ++
          [.cleaned t] }
  | joined {t : T} {self : Bool} (hcloser : s.closer = some (self, .joining))
    (hhelpers : s.helpers = 0)
      (hgone : self = false → s.gone = true) :
      Step sv s (.close t) { s with closer := some (self, .finishing) }
  | finished {t : T} {self : Bool} (hcloser : s.closer = some (self, .finishing)) :
      Step sv s (.close t)
        { s with state := sv.finish s.state, closer := some (self, .closed), log := s.log ++
          [.finished] }

section Inversion

variable {sv : Service M T S} {s s' : State M T S}

/-- An enqueue that is made is a step of the mailbox. -/
theorem Step.of_enqueue (hs : s.enqueue sv = some s') : Step sv s .enqueue s' := by
  unfold State.enqueue at hs
  split at hs
  · cases hs
  · cases hs
  next _ _ m harriving _ =>
    dsimp only at hs
    split at hs
    next hstopped =>
      cases hs
      exact .late harriving (by simpa using hstopped)
    next hrunning =>
      have hrunning : s.running = true := by simpa using hrunning
      split at hs
      · cases hs
        exact .dropped harriving hrunning
      next hroom =>
        cases hs
        simp only [Bool.or_eq_true, Bool.not_eq_true', decide_eq_true_eq, not_or, Bool.not_eq_false,
          Nat.not_le] at hroom
        exact .accepted harriving hrunning hroom.1 hroom.2

/-- So is a message that is taken. -/
theorem Step.of_consume {t : T} (hs : s.consume sv t = some s') : Step sv s (.consume t) s' := by
  unfold State.consume at hs
  split at hs
  -- one case for each place in which the consumer can be
  next hready =>
    split at hs
    next hstopped =>
      cases hs
      exact .exited hready (by simpa using hstopped)
    next hrunning =>
      have hrunning : s.running = true := by simpa using hrunning
      split at hs
      · cases hs
        exact .looked hready hrunning
      next m queue hqueue =>
        cases hs
        exact .took hready hrunning hqueue
  next hchecked =>
    cases hs
    exact .slept hchecked
  · cases hs
  next m hhandling =>
    dsimp only at hs
    split at hs
    next hcloses =>
      obtain ⟨hcloses, hrunning⟩ := Bool.and_eq_true_iff.mp hcloses
      cases hs
      unfold State.exchange
      rw [if_pos hrunning]
      exact .closes hhandling hrunning hcloses
    next hgoes =>
      cases hs
      refine .handled hhandling fun hrunning => ?_
      rw [hrunning, Bool.and_true] at hgoes
      simpa using hgoes
  next hclosing =>
    split at hs
    next hclosed =>
      cases hs
      exact .released hclosing hclosed
    · cases hs
  · cases hs

/-- And its closing. -/
theorem Step.of_close {t : T} (hs : s.close sv t = some s') : Step sv s (.close t) s' := by
  unfold State.close at hs
  split at hs
  · cases hs
  next self phase hcloser =>
    split at hs
    · split at hs
      · cases hs
      next hfree =>
        cases hs
        exact .severed hcloser (by simpa using hfree)
    · cases hs
      exact .wakes hcloser
    · cases hs
      exact .cleaned hcloser
    · split at hs
      next hwaited =>
        cases hs
        rw [Bool.and_eq_true, decide_eq_true_eq, Bool.or_eq_true] at hwaited
        refine .joined hcloser hwaited.1 fun hself => hwaited.2.resolve_left ?_
        rw [hself]
        exact fun h => nomatch h
      · cases hs
    · cases hs
      exact .finished hcloser
    · cases hs

/-- What a step has done. -/
theorem Step.of_step {x : Event M T} (hs : step sv s x = some s') : Step sv s x s' := by
  cases x with
  | enqueue => exact .of_enqueue hs
  | consume t => exact .of_consume hs
  | close t => exact .of_close hs
  | arrive m =>
    unfold step State.arrive at hs
    dsimp only at hs
    split at hs
    · cases hs
    next hfree =>
      split at hs
      next hcallback =>
        cases hs
        exact .arrived (by simpa using hfree) hcallback
      · cases hs
        exact .ignored
  | spurious =>
    unfold step State.wake at hs
    dsimp only at hs
    split at hs
    next hasleep =>
      cases hs
      exact .woke hasleep
    · cases hs
  | pass t =>
    unfold step State.pass at hs
    dsimp only at hs
    split at hs
    next hmore =>
      cases hs
      exact .passed hmore
    · cases hs
  | leave =>
    unfold step State.leave at hs
    dsimp only at hs
    split at hs
    next hmore =>
      rw [Bool.and_eq_true, decide_eq_true_eq] at hmore
      cases hs
      exact .left (by simpa using hmore.1) hmore.2
    · cases hs
  | stop =>
    cases hs
    by_cases hrunning : s.running = true
    · unfold State.exchange
      rw [if_pos hrunning]
      exact .stopped hrunning
    · unfold State.exchange
      rw [if_neg hrunning]
      exact .again (by simpa using hrunning)

/-- A wake-up moves a consumer that sleeps, and nothing else. -/
theorem wake_cases (s : State M T S) :
    s.consumer = .asleep ∧ s.wake = { s with consumer := .ready, missed := false } ∨
      s.consumer ≠ .asleep ∧ s.wake = s := by
  unfold State.wake
  split
  next hasleep => exact .inl ⟨hasleep, rfl⟩
  next hne => exact .inr ⟨fun hasleep => hne hasleep, rfl⟩

end Inversion

/-! ## What holds in every state -/

/-- What an effect does to the state. -/
def Effect.apply (sv : Service M T S) (s : S) : Effect M T → S
  | .handled m t => (sv.handle m t s).1
  | .passed t => sv.background t s
  | .cleaned t => sv.clean t s
  | .finished => sv.finish s

/-- The message that an effect is of. -/
def Effect.message : Effect M T → Option M
  | .handled m _ => some m
  | _ => none

/-- An effect that carries no message leaves the messages of the log. -/
theorem filterMap_silent {log : List (Effect M T)} {e : Effect M T} (h : e.message = none) :
    (log ++ [e]).filterMap Effect.message = log.filterMap Effect.message := by
  rw [List.filterMap_append, List.filterMap_cons_none h, List.filterMap_nil, List.append_nil]

/-- The message that is being handled. -/
def Consumer.current : Consumer M → List M
  | .handling m => [m]
  | _ => []

/-- The messages and what has become of them. -/
structure Ordered (sv : Service M T S) (init : S) (s : State M T S) : Prop where
  /-- What was taken in has been handled, in order, or is being handled, or is in the queue. -/
  order : s.accepted = s.log.filterMap Effect.message ++ s.consumer.current ++ s.queue
  state : s.state = s.log.foldl (Effect.apply sv) init
  short : s.queue.length ≤ sv.capacity
  fits : ∀ m ∈ s.accepted, sv.fits m = true
  sub : (s.accepted ++ s.arriving.toList).Sublist s.arrived
  count : s.arrived.length = s.accepted.length + s.dropped + s.late + s.arriving.toList.length

section Order

variable {sv : Service M T S} {init : S} {s s' : State M T S} {t : T}

/-- Where the messages are concerned, only what the consumer has in hand matters of it. -/
theorem Ordered.moved (h : Ordered sv init s) {c : Consumer M} (hc : c.current = s.consumer.current)
    (missed : Bool) : Ordered sv init { s with consumer := c, missed } := by
  refine ⟨?_, h.state, h.short, h.fits, h.sub, h.count⟩
  show s.accepted = _ ++ c.current ++ s.queue
  rw [hc]
  exact h.order

/-- Waking the consumer keeps the order. -/
theorem wake_ordered (h : Ordered sv init s) : Ordered sv init s.wake := by
  rcases wake_cases s with ⟨hasleep, heq⟩ | ⟨-, heq⟩
  · rw [heq]
    exact h.moved (by rw [hasleep]; rfl) false
  · rw [heq]
    exact h

/-- The callback is done with the message. -/
theorem Ordered.let_go (h : Ordered sv init s) {m : M} (harriving : s.arriving = some m) :
    (s.accepted ++ (none : Option M).toList).Sublist s.arrived ∧
      s.arrived.length = s.accepted.length + s.dropped + s.late + 1 := by
  have hsub := h.sub
  have hcount := h.count
  rw [harriving] at hsub hcount
  rw [Option.toList_none, List.append_nil]
  exact ⟨(List.sublist_append_left _ _).trans hsub, hcount⟩

/-- A message that is accepted goes behind those in the queue. -/
theorem Ordered.accept (h : Ordered sv init s) {m : M} (harriving : s.arriving = some m)
    (hfits : sv.fits m = true) (hroom : s.queue.length < sv.capacity) :
    Ordered sv init { s with
      arriving := none, queue := s.queue ++ [m], accepted := s.accepted ++ [m] } := by
  obtain ⟨-, hcount⟩ := h.let_go harriving
  have hsub := h.sub
  rw [harriving] at hsub
  refine ⟨?_, h.state, ?_, ?_, ?_, ?_⟩
  · show s.accepted ++ [m] = _ ++ _ ++ (s.queue ++ [m])
    rw [h.order, List.append_assoc _ s.queue]
  · show (s.queue ++ [m]).length ≤ _
    rw [List.length_append]
    exact hroom
  · intro m' hm'
    rcases List.mem_append.mp hm' with hm' | hm'
    · exact h.fits m' hm'
    · rw [List.mem_singleton.mp hm']
      exact hfits
  · show (s.accepted ++ [m] ++ []).Sublist _
    rw [List.append_nil]
    exact hsub
  · show s.arrived.length = (s.accepted ++ [m]).length + s.dropped + s.late + 0
    rw [hcount, List.length_append]
    show _ = _ + 1 + _ + _ + 0
    omega

/-- An effect that is of no message. -/
theorem Ordered.silent (h : Ordered sv init s) {e : Effect M T} (he : e.message = none)
    (closer : Option (Bool × Phase)) :
    Ordered sv init { s with state := e.apply sv s.state, log := s.log ++ [e], closer } := by
  refine ⟨?_, ?_, h.short, h.fits, h.sub, h.count⟩
  · show s.accepted = (s.log ++ [e]).filterMap Effect.message ++ _ ++ _
    rw [filterMap_silent he]
    exact h.order
  · show _ = (s.log ++ [e]).foldl _ _
    rw [List.foldl_append, ← h.state]
    rfl

/-- The message in hand is handled. -/
theorem Ordered.handled (h : Ordered sv init s) {m : M} (hhandling : s.consumer = .handling m) (t : T)
    {c : Consumer M} (hc : c.current = []) (running : Bool) (closer : Option (Bool × Phase)) :
    Ordered sv init { s with
      state := (sv.handle m t s.state).1, log := s.log ++ [.handled m t], consumer :=
        c, running, closer } := by
  have horder := h.order
  rw [hhandling] at horder
  refine ⟨?_, ?_, h.short, h.fits, h.sub, h.count⟩
  · show s.accepted =
      (s.log ++ [Effect.handled m t]).filterMap Effect.message ++ c.current ++ s.queue
    rw [hc, List.filterMap_append, List.append_nil, horder]
    rfl
  · show _ = (s.log ++ [Effect.handled m t]).foldl _ _
    rw [List.foldl_append, ← h.state]
    rfl

/-- One step of any of the parties keeps the order. -/
theorem step_ordered {x : Event M T} (h : Ordered sv init s) (hs : step sv s x = some s') :
    Ordered sv init s' := by
  -- the order is a matter of the four events that touch the queue or the log
  cases Step.of_step hs with
  | ignored => exact h
  | @arrived m hfree _ =>
    have hsub := h.sub
    have hcount := h.count
    rw [hfree] at hsub hcount
    refine ⟨h.order, h.state, h.short, h.fits, ?_, ?_⟩
    · show (s.accepted ++ [m]).Sublist (s.arrived ++ [m])
      rw [Option.toList_none, List.append_nil] at hsub
      exact hsub.append (List.Sublist.refl _)
    · show (s.arrived ++ [m]).length = s.accepted.length + s.dropped + s.late + 1
      rw [List.length_append, hcount]
      rfl
  | late harriving _ =>
    obtain ⟨hsub, hcount⟩ := h.let_go harriving
    refine ⟨h.order, h.state, h.short, h.fits, hsub, ?_⟩
    show s.arrived.length = s.accepted.length + s.dropped + (s.late + 1) + 0
    omega
  | dropped harriving _ =>
    obtain ⟨hsub, hcount⟩ := h.let_go harriving
    refine ⟨h.order, h.state, h.short, h.fits, hsub, ?_⟩
    show s.arrived.length = s.accepted.length + (s.dropped + 1) + s.late + 0
    omega
  | accepted harriving _ hfits hroom => exact wake_ordered (h.accept harriving hfits hroom)
  | exited hready _ => exact h.moved (by rw [hready]; rfl) s.missed
  | looked hready _ => exact h.moved (by rw [hready]; rfl) s.missed
  | @took _ m queue hready _ hqueue =>
    have horder := h.order
    have hshort := h.short
    rw [hready, hqueue] at horder
    rw [hqueue] at hshort
    refine ⟨?_, h.state, Nat.le_of_succ_le hshort, h.fits, h.sub, h.count⟩
    show s.accepted = s.log.filterMap Effect.message ++ [m] ++ queue
    rw [horder, List.append_assoc, List.append_assoc]
    rfl
  | slept hchecked => exact h.moved (by rw [hchecked]; rfl) s.missed
  | @handled t _ hhandling _ => exact h.handled hhandling t rfl s.running s.closer
  | @closes t _ hhandling _ _ => exact h.handled hhandling t rfl false (some (true, .severing))
  | released hclosing _ => exact h.moved (by rw [hclosing]; rfl) s.missed
  | woke hasleep => exact h.moved (by rw [hasleep]; rfl) false
  | @passed t _ => exact h.silent (e := .passed t) rfl s.closer
  | left _ _ => exact ⟨h.order, h.state, h.short, h.fits, h.sub, h.count⟩
  | stopped _ => exact ⟨h.order, h.state, h.short, h.fits, h.sub, h.count⟩
  | again _ => exact h
  | severed _ _ => exact ⟨h.order, h.state, h.short, h.fits, h.sub, h.count⟩
  | wakes _ =>
    have hw := wake_ordered h
    exact ⟨hw.order, hw.state, hw.short, hw.fits, hw.sub, hw.count⟩
  | @cleaned t self _ => exact h.silent (e := .cleaned t) rfl (some (self, .joining))
  | joined _ _ _ => exact ⟨h.order, h.state, h.short, h.fits, h.sub, h.count⟩
  | @finished t self _ => exact h.silent (e := .finished) rfl (some (self, .closed))

/-- Whatever the order of the steps. -/
theorem run_ordered {helpers : Nat} {xs : List (Event M T)}
    (hr : Steps.run (step sv) (.start init helpers) xs = some s) : Ordered sv init s :=
  Steps.run_invariant (I := fun _ s => Ordered sv init s)
    ⟨rfl, rfl, Nat.zero_le _, fun _ h => absurd h List.not_mem_nil, List.Sublist.refl _, rfl⟩
    (fun _ _ _ _ _ h hs => step_ordered h hs) hr

end Order

end Mailbox

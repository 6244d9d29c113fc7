import TreeMiner.Lib.MailboxClose
import TreeMiner.Platform.Unsigned

/-!
# The command queue of the rig (`PlatformManager`)

The broker's thread only puts messages into the bounded queue. The dispatch thread takes them out
and handles them; two threads in the background send heartbeats and end expired leases. `stop` is
called by the main thread, or by the dispatch thread for a signed shutdown. The threads go on in
any order: the manager is a mailbox (`Mailbox`) whose handler is `onMessage`.

A handler, a pass of the watchdog and the clean-up of `stop` are one step each. The log lines, the
reports to the platform and the heartbeat's numbers are left out, and what comes before `start`
has returned.
-/

namespace TreeMiner.Delivery

open Cxx Platform Mailbox

structure QueuedCommand where
  topic : Bytes
  payload : Bytes

def COMMAND_QUEUE_CAPACITY : Nat := 256

def kMaxPayloadBytes : Nat := 64 * 1024

/-- What a step of a thread reads: the two clocks, and whether the broker is connected. -/
structure Reading where
  now : Int
  epoch : Int64
  connected : Bool

section

variable (hmac : Bytes → Bytes → Bytes) (dump : JsonValue → Bytes)
  (parse : Bytes → Option JsonValue) (keccak : Bytes → Bytes) (secret worker : Bytes)

/-- `onMessage` on the dispatch thread, but for the body of `stop`; whether `stop` is called. -/
def dispatch (cmd : QueuedCommand) (t : Reading) (r : Receiver) : Receiver × Bool :=
  match parse cmd.payload with
  | none => (r, false)
  | some msg =>
    if !msg.isObject then (r, false)
    else
      let a := authorizeCommand hmac dump secret worker msg t.epoch r.nonces
      if !a.1 then ({ r with nonces := a.2 }, false)
      else if route msg = .shutdown then
        ({ r with nonces := a.2, handled := .shutdown :: r.handled }, true)
      else (r.onMessage hmac dump parse keccak secret worker ⟨cmd.payload, t.now, t.epoch⟩,
        false)

/-- The manager: `enqueueCommand`, `dispatchLoop`, `leaseWatchdogLoop` and `stop`. -/
def manager : Service QueuedCommand Reading Receiver where
  capacity := COMMAND_QUEUE_CAPACITY
  fits cmd := cmd.payload.length ≤ kMaxPayloadBytes
  handle := dispatch hmac dump parse keccak secret worker
  background t r := { r with platform := r.platform.watchdog t.connected t.now }
  clean t r := { r with platform := ({ r.platform with running := false }).dropActiveLease t.now }
  finish r := { r with platform := r.platform.transitionTo .IDLE }

/-- What `start` leaves: the dispatch thread, the heartbeat and the watchdog. -/
def started (r : Receiver) : State QueuedCommand Reading Receiver := .start r 2

end

section Runs

variable {hmac : Bytes → Bytes → Bytes} {dump : JsonValue → Bytes}
  {parse : Bytes → Option JsonValue} {keccak : Bytes → Bytes} {secret worker : Bytes}

/-- A dispatch that does not stop the manager is `onMessage`, and one that does is all of
`onMessage` but the body of `stop`. -/
theorem dispatch_onMessage (cmd : QueuedCommand) (t : Reading) (r : Receiver) :
    let d := dispatch hmac dump parse keccak secret worker cmd t r
    let m := r.onMessage hmac dump parse keccak secret worker ⟨cmd.payload, t.now, t.epoch⟩
    (d.2 = false → d.1 = m) ∧
      (d.2 = true → m = { d.1 with platform := r.platform.stop t.now } ∧
        d.1.platform = r.platform) := by
  intro d m
  have hd : d = dispatch hmac dump parse keccak secret worker cmd t r := rfl
  have hm : m =
    r.onMessage hmac dump parse keccak secret worker ⟨cmd.payload, t.now, t.epoch⟩ := rfl
  unfold dispatch at hd
  -- the checks of the dispatcher and those of the receiver, side by side
  cases hparse : parse cmd.payload with
  | none =>
    rw [hparse] at hd
    unfold Receiver.onMessage at hm
    rw [hparse] at hm
    rw [hd, hm]
    exact ⟨fun _ => rfl, fun h => nomatch h⟩
  | some msg =>
    rw [hparse] at hd
    dsimp only at hd
    split at hd
    next hobject =>
      unfold Receiver.onMessage at hm
      rw [hparse] at hm
      dsimp only at hm
      rw [if_pos hobject] at hm
      rw [hd, hm]
      exact ⟨fun _ => rfl, fun h => nomatch h⟩
    next hobject =>
      split at hd
      next hauth =>
        unfold Receiver.onMessage at hm
        rw [hparse] at hm
        dsimp only at hm
        rw [if_neg hobject, if_pos hauth] at hm
        rw [hd, hm]
        exact ⟨fun _ => rfl, fun h => nomatch h⟩
      next hauth =>
        split at hd
        next hroute =>
          unfold Receiver.onMessage at hm
          rw [hparse] at hm
          dsimp only at hm
          have hstop : r.platform.onMessage keccak msg t.now = r.platform.stop t.now := by
            unfold Platform.onMessage
            rw [hroute]
          rw [if_neg hobject, if_neg hauth, hstop, hroute] at hm
          rw [hd, hm]
          exact ⟨fun h => (nomatch h), fun _ => ⟨rfl, rfl⟩⟩
        next =>
          rw [hd]
          exact ⟨fun _ => rfl, fun h => nomatch h⟩

/-- A change of the configuration does not stop the platform. -/
theorem handleSetConfig_running (p : Platform) (msg : JsonValue) :
    (p.handleSetConfig keccak msg).running = p.running := by
  -- field by field: none of the setters touches the flag
  have hdifficulty : ∀ (p : Platform) c, (p.configDifficulty c).running = p.running := by
    intro p c
    unfold configDifficulty
    split
    · rfl
    · split
      · rfl
      · rfl
  have haddress : ∀ (p : Platform) c, (p.configAddress keccak c).running = p.running := by
    intro p c
    unfold configAddress
    split
    · rfl
    · dsimp only
      split
      · rfl
      · rfl
  have hprefix : ∀ (p : Platform) c, (p.configPrefix c).running = p.running := by
    intro p c
    unfold configPrefix
    split
    · rfl
    · dsimp only
      split
      · rfl
      · rfl
  have hpattern : ∀ (p : Platform) c, (p.configPattern c).running = p.running := by
    intro p c
    unfold configPattern
    split
    · rfl
    · dsimp only
      split
      · rfl
      · rfl
  unfold handleSetConfig
  dsimp only
  split
  · rfl
  · rw [hpattern, hprefix, haddress, hdifficulty]

/-- Only a shutdown clears the flag. -/
theorem onMessage_running {p : Platform} {msg : JsonValue} (now : Int)
    (hroute : route msg ≠ .shutdown) :
    (p.onMessage keccak msg now).running = p.running := by
  unfold Platform.onMessage
  split
  · unfold Platform.handleRegisterAck
    split
    · split
      · rfl
      · rfl
    · split
      · rfl
      · rfl
  · rcases handleAssignTask_cases keccak p msg now with heq | ⟨-, -, heq⟩ | ⟨-, l, -, heq⟩
    · rw [heq]
    · rw [heq]
      rfl
    · rw [heq]
  · rcases handleRelease_cases p msg with heq | heq
    · rw [heq]
    · rw [heq]
      rfl
  · unfold Platform.handlePause dropActiveLease
    split
    · rfl
    · rfl
  · unfold Platform.handleResume
    split
    · rfl
    · rfl
  next hshutdown => exact absurd hshutdown hroute
  · exact handleSetConfig_running p msg
  · rfl

/-- Nor does the watchdog. -/
theorem watchdog_running (p : Platform) (connected : Bool) (now : Int) :
    (p.watchdog connected now).running = p.running := by
  have hrecover : ∀ p : Platform, (p.recoverError connected).running = p.running := by
    intro p
    unfold recoverError
    split
    · split
      · rfl
      · rfl
    · rfl
  unfold Platform.watchdog
  rw [hrecover]
  split
  · rfl
  · rfl

/-- The platform is as a sequential manager leaves it that still runs. -/
def Sequential (keccak : Bytes → Bytes) (p p' : Platform) : Prop :=
  (∃ steps, p' = Platform.run keccak p steps) ∧ p'.running = true

/-- One message more, handled behind the others. -/
theorem Sequential.step {p p' : Platform} (h : Sequential keccak p p') (x : Int × PlatformStep)
    (hrunning : (p'.step keccak x).running = true) : Sequential keccak p (p'.step keccak x) := by
  obtain ⟨⟨steps, rfl⟩, -⟩ := h
  exact ⟨⟨steps ++ [x], run_concat.symm⟩, hrunning⟩

/-- A command that does not stop the manager is a step, or none. -/
theorem Sequential.dispatch {p : Platform} {r : Receiver} (h : Sequential keccak p r.platform)
    (cmd : QueuedCommand) (t : Reading)
    (hgoes : (dispatch hmac dump parse keccak secret worker cmd t r).2 = false) :
    Sequential keccak p (dispatch hmac dump parse keccak secret worker cmd t r).1.platform := by
  unfold Delivery.dispatch at hgoes ⊢
  cases hparse : parse cmd.payload with
  | none => exact h
  | some msg =>
    rw [hparse] at hgoes
    dsimp only at hgoes ⊢
    by_cases hobject : (!msg.isObject) = true
    · rw [if_pos hobject]
      exact h
    rw [if_neg hobject] at hgoes ⊢
    split at hgoes
    next hauth =>
      rw [if_pos hauth]
      exact h
    next hauth =>
      split at hgoes
      · cases hgoes
      next hroute =>
        rw [if_neg hauth, if_neg hroute]
        unfold Receiver.onMessage
        rw [hparse]
        dsimp only
        rw [if_neg hobject, if_neg hauth]
        have hstep : r.platform.step keccak (t.now, .message msg) =
            r.platform.onMessage keccak msg t.now := by
          unfold Platform.step
          rw [if_pos h.2]
        have hrunning : (r.platform.onMessage keccak msg t.now).running = true :=
          (onMessage_running t.now hroute).trans h.2
        rw [← hstep] at hrunning
        have hnext := h.step (t.now, .message msg) hrunning
        rw [hstep] at hnext
        exact hnext

/-- A reading of the watchdog in between keeps the order. -/
theorem Sequential.watchdog {p p' : Platform} (h : Sequential keccak p p') (t : Reading) :
    Sequential keccak p (p'.watchdog t.connected t.now) := by
  have hstep : p'.step keccak (t.now, .watchdog t.connected) = p'.watchdog t.connected t.now := by
    unfold Platform.step
    rw [if_pos h.2]
  have hrunning := (watchdog_running p' t.connected t.now).trans h.2
  rw [← hstep] at hrunning
  have hnext := h.step (t.now, .watchdog t.connected) hrunning
  rw [hstep] at hnext
  exact hnext

/-- A stop of the manager. From the moment the flag is cleared its threads take at most eleven more
steps and one for each message that comes. Where none of them can go on any more, all threads have
ended and nothing can change the manager, unless the wake-up of `stop` came between the dispatch
thread's look at the flag and its sleep: then that thread sleeps, and `stop` waits for it for ever.
-/
theorem stop_completes (hmac : Bytes → Bytes → Bytes) (dump : JsonValue → Bytes)
    (parse : Bytes → Option JsonValue) (keccak : Bytes → Bytes) (secret worker : Bytes)
    (r : Receiver) (xs ys : List (Event QueuedCommand Reading))
    (hspurious : Event.spurious ∉ xs ++ ys)
    (s s' : State QueuedCommand Reading Receiver)
    (hr : Steps.run (step (manager hmac dump parse keccak secret worker)) (started r) xs = some s)
    (hstopped : s.running = false)
    (hr' : Steps.run (step (manager hmac dump parse keccak secret worker)) s ys = some s') :
    ys.countP Event.own ≤ 11 + ys.countP Event.arrives ∧
    ((∀ x : Event QueuedCommand Reading, x.own = true →
        step (manager hmac dump parse keccak secret worker) s' x = none) →
      (s'.ended = true ↔ ¬ ∃ pre x post s₁, xs ++ ys = pre ++ x :: post ∧
        Steps.run (step (manager hmac dump parse keccak secret worker)) (started r) pre =
          some s₁ ∧
        TooEarly s₁ x) ∧
      (s'.ended = false → s'.hangs = true)) ∧
    (s'.hangs = true → ∀ x : Event QueuedCommand Reading, x.own = true →
      step (manager hmac dump parse keccak secret worker) s' x = none) ∧
    (s'.ended = true → ∀ zs s'',
      Steps.run (step (manager hmac dump parse keccak secret worker)) s' zs = some s'' →
        s'' = s') := by
  have hall : Steps.run (step (manager hmac dump parse keccak secret worker)) (started r)
    (xs ++ ys) =
      some s' := by
    rw [Steps.run_append, hr]
    exact hr'
  have harranged : Arranged s' := run_arranged hall
  refine ⟨?_, ?_, fun hhangs x => hangs_stuck harranged hhangs,
    fun hended zs s'' hz => run_ended harranged hended hz⟩
  · have hsteps := own_steps_le hstopped hr'
    have hfew := rank_le hr
    omega
  · intro hstuck
    have hmissed := run_missed hspurious hall
    -- what is left where no thread can go on
    have hend : s'.ended = true ∨ s'.hangs = true := by
      rcases @progress _ _ _ (manager hmac dump parse keccak secret worker) s' harranged
        (run_stopped hstopped hr').1 ⟨0, 0, false⟩ with hended | hhangs | ⟨x, hown, hcan⟩
      · exact .inl hended
      · exact .inr hhangs
      · rw [hstuck x hown] at hcan
        cases hcan
    have hhangs : s'.hangs = true → s'.missed = true := by
      intro hhangs
      unfold State.hangs at hhangs
      simp only [Bool.and_eq_true] at hhangs
      exact hhangs.1.1.2
    refine ⟨⟨?_, ?_⟩, fun hnot => hend.resolve_left fun hended => ?_⟩
    · intro hended hearly
      rw [not_ended_of_missed harranged (hmissed.mpr hearly)] at hended
      cases hended
    · intro hnone
      exact hend.resolve_right fun hh => hnone (hmissed.mp (hhangs hh))
    · rw [hended] at hnot
      cases hnot

/-- Without a secret no command stops the manager, and none writes the configuration. -/
theorem dispatch_unsigned (cmd : QueuedCommand) (t : Reading) (r : Receiver) :
    (dispatch hmac dump parse keccak [] worker cmd t r).2 = false ∧
      SameConfig r.platform (dispatch hmac dump parse keccak [] worker cmd t r).1.platform := by
  have hstays : (dispatch hmac dump parse keccak [] worker cmd t r).2 = false := by
    unfold dispatch
    split
    · rfl
    next msg hparse =>
      split
      · rfl
      · dsimp only
        split
        · rfl
        next hauth =>
          have hunsigned : isMutatingCommand msg = false := by
            unfold authorizeCommand at hauth
            simpa using hauth
          rw [if_neg (route_of_unsigned hunsigned).1]
  refine ⟨hstays, ?_⟩
  rw [(dispatch_onMessage cmd t r).1 hstays]
  exact (unsigned_step worker r ⟨cmd.payload, t.now, t.epoch⟩).1

/-- The watchdog leaves the configuration. -/
theorem watchdog_config (p : Platform) (connected : Bool) (now : Int) :
    SameConfig p (p.watchdog connected now) := by
  have hrecover : ∀ p : Platform, SameConfig p (p.recoverError connected) := by
    intro p
    unfold recoverError
    split
    · split
      · exact ⟨rfl, rfl⟩
      · exact ⟨rfl, rfl⟩
    · exact .refl
  unfold Platform.watchdog
  split
  · have hcomplete : SameConfig p p.complete := ⟨rfl, rfl⟩
    exact hcomplete.trans (hrecover p.complete)
  · exact hrecover p

/-- What changes the manager's state leaves the configuration. -/
theorem apply_config (r : Receiver) (e : Effect QueuedCommand Reading) :
    SameConfig r.platform
      (Effect.apply (manager hmac dump parse keccak [] worker) r e).platform := by
  cases e with
  | handled cmd t => exact (dispatch_unsigned cmd t r).2
  | passed t => exact watchdog_config r.platform t.connected t.now
  | cleaned t =>
    show SameConfig r.platform (({ r.platform with running := false }).dropActiveLease t.now)
    unfold dropActiveLease
    split
    · exact ⟨rfl, rfl⟩
    · exact ⟨rfl, rfl⟩
  | finished => exact ⟨rfl, rfl⟩

/-- A manager without a secret, in whatever order its threads go on and whatever messages come: the
address, the prefix and the pattern it mines with and its difficulty are those it was started with,
and only the main thread stops it. -/
theorem unsigned_manager_kept (hmac : Bytes → Bytes → Bytes) (dump : JsonValue → Bytes)
    (parse : Bytes → Option JsonValue) (keccak : Bytes → Bytes) (worker : Bytes) (r : Receiver)
    (xs : List (Event QueuedCommand Reading)) (s : State QueuedCommand Reading Receiver)
    (hr : Steps.run (step (manager hmac dump parse keccak [] worker)) (started r) xs = some s) :
    s.state.platform.identity = r.platform.identity ∧
    s.state.platform.globalDifficulty = r.platform.globalDifficulty ∧
    (Event.stop ∉ xs → s.running = true) := by
  -- nothing that is applied unsigned writes the configuration
  have hconfig : SameConfig r.platform s.state.platform := by
    rw [(run_ordered hr).state]
    induction s.log using List.reverseRecOn with
    | nil => exact .refl
    | append_singleton log e ih =>
      rw [List.foldl_append]
      exact ih.trans (apply_config _ e)
  refine ⟨hconfig.identity, hconfig.difficulty, ?_⟩
  intro hstop
  refine (Steps.run_invariant (I := fun xs s => Event.stop ∉ xs → s.running = true)
    (fun _ => rfl) ?_ hr) hstop
  intro xs s₁ x s₂ _ hI hs hnone
  have hbefore := hI fun hmem => hnone (List.mem_append_left _ hmem)
  have hx : x ≠ .stop :=
    fun heq => hnone (List.mem_append_right _ (List.mem_singleton.mpr heq.symm))
  have hcloses : ∀ m t s, ((manager hmac dump parse keccak [] worker).handle m t s).2 = false :=
    fun m t s => (dispatch_unsigned m t s).1
  exact (running_kept hcloses hs hx).trans hbefore

end Runs

/-- `json::parse` on two control messages. -/
def controlParse (text : Bytes) : Option JsonValue :=
  if text = lit "\x7b\"action\":\"pause\"\x7d" then
    some (.object [(lit "action", .string (lit "pause"))])
  else shutdownParse text

def samplePause :
    QueuedCommand := ⟨lit "xenminer/rig1/control", lit "\x7b\"action\":\"pause\"\x7d"⟩

def sampleShutdown : QueuedCommand :=
  ⟨lit "xenminer/rig1/control", lit "\x7b\"action\":\"shutdown\"\x7d"⟩

def sampleReading : Reading := ⟨0, 1000, true⟩

/-- A manager without a secret. -/
def sampleManager : Service QueuedCommand Reading Receiver :=
  manager sampleHmac sampleDump controlParse id [] (lit "rig1")

/-- A pause, and a shutdown that is not signed; then the dispatch thread looks into the queue. -/
def sampleEvents : List (Event QueuedCommand Reading) :=
  [.arrive samplePause, .enqueue, .consume sampleReading, .arrive sampleShutdown,
    .consume sampleReading, .enqueue, .pass sampleReading, .consume sampleReading,
    .consume sampleReading,
      .consume sampleReading]

/-- The main thread stops the manager; its wake-up comes before the dispatch thread sleeps. -/
def sampleStop : List (Event QueuedCommand Reading) :=
  [.close sampleReading, .close sampleReading, .consume sampleReading, .close sampleReading, .leave,
    .leave]

/-- The main thread waits for ever. -/
theorem stop_completes_too_early :
    ∃ s', Steps.run (step sampleManager) (started idleReceiver)
      (sampleEvents ++ [.stop] ++ sampleStop) =
        some s' ∧
      (∀ x : Event QueuedCommand Reading, x.own = true → step sampleManager s' x = none) ∧
      ∃ pre x post s₁, sampleEvents ++ [.stop] ++ sampleStop = pre ++ x :: post ∧
        Steps.run (step sampleManager) (started idleReceiver) pre = some s₁ ∧
          TooEarly s₁ x := by
  have hbefore : (Steps.run (step sampleManager) (started idleReceiver)
      (sampleEvents ++ [.stop])).map (fun s => s.running) = some false := by
    rfl
  have hafter : (Steps.run (step sampleManager) (started idleReceiver)
      (sampleEvents ++ [.stop] ++ sampleStop)).map (fun s => (s.ended, s.hangs)) =
        some (false, true) := by
    rfl
  obtain ⟨s, hs, hstopped⟩ := Option.map_eq_some_iff.mp hbefore
  obtain ⟨s', hs', heq⟩ := Option.map_eq_some_iff.mp hafter
  obtain ⟨hended, hhangs⟩ := Prod.mk.inj heq
  have hrest : Steps.run (step sampleManager) s sampleStop = some s' := by
    rw [Steps.run_append, hs] at hs'
    exact hs'
  obtain ⟨-, hmissed, hstuck, -⟩ := stop_completes sampleHmac sampleDump controlParse id []
    (lit "rig1") idleReceiver (sampleEvents ++ [Event.stop]) sampleStop (by
      simp [sampleEvents, sampleStop]) s s' hs hstopped hrest
  refine ⟨s', hs', hstuck hhangs, ?_⟩
  by_contra hnone
  rw [(hmissed (hstuck hhangs)).1.mpr hnone] at hended
  cases hended

/-- The same schedule, for a manager without a secret. -/
theorem unsigned_manager_kept_sample :
    ∃ s, Steps.run (step sampleManager) (started idleReceiver) sampleEvents = some s ∧
      s.state.platform.identity = idleReceiver.platform.identity ∧ s.running = true := by
  have hrun : (Steps.run (step sampleManager) (started idleReceiver) sampleEvents).isSome =
    true := by
    rfl
  obtain ⟨s, hs⟩ := Option.isSome_iff_exists.mp hrun
  obtain ⟨hidentity, -, hrunning⟩ := unsigned_manager_kept sampleHmac sampleDump controlParse id
    (lit "rig1") idleReceiver sampleEvents s hs
  exact ⟨s, hs, hidentity, hrunning (by simp [sampleEvents])⟩

end TreeMiner.Delivery

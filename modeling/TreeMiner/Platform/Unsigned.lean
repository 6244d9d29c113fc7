import TreeMiner.Platform.Envelope
import TreeMiner.Platform.Lease

/-!
# Who may command the rig

`PlatformManager::onMessage` in full: parse, authorize, dispatch. With a secret
the envelope decides. Without one, `isMutatingCommand` does, and it reads the
message a second time: a `command` or `action` of the wrong type counts as empty
there and throws in the dispatch. The two readings differ only on messages the
dispatch drops, so what is let through unsigned is one of five commands
(`route_of_unsigned`), and none of their handlers writes the configuration.
-/

namespace TreeMiner

open Cxx Platform

/-- A member that has to be a string; anything else reads as empty. -/
def stringOrEmpty (msg : JsonValue) (key : Bytes) : Bytes :=
  match msg.find key with
  | some v => v.toBytes.getD []
  | none => []

/-- `isMutatingCommand`. -/
def isMutatingCommand (msg : JsonValue) : Bool :=
  if !msg.isObject then true
  else
    let command := stringOrEmpty msg (lit "command")
    if command = lit "register_ack" ∨ command = lit "assign_task" ∨ command = lit "release" then
      false
    else if command = [] then
      let action := stringOrEmpty msg (lit "action")
      if action = lit "pause" ∨ action = lit "resume" then false else true
    else true

/-- What the dispatch thread works on, and the commands whose handler ran, newest
first. -/
structure Receiver where
  platform : Platform
  nonces : NonceCache
  handled : List Command

/-- An MQTT payload and the two clocks it is handled at. -/
structure Payload where
  bytes : Bytes
  now : Int
  epoch : Int64

section

variable (hmac : Bytes → Bytes → Bytes) (dump : JsonValue → Bytes)
  (parse : Bytes → Option JsonValue) (keccak : Bytes → Bytes)

/-- `PlatformManager::authorizeCommand`. -/
def authorizeCommand (secret worker : Bytes) (msg : JsonValue) (epoch : Int64)
    (nonces : NonceCache) :
    Bool × NonceCache :=
  if secret ≠ [] then
    let r := verifyEnvelope hmac dump msg secret worker epoch nonces
    (r.1 == .Ok, r.2)
  else (!isMutatingCommand msg, nonces)

/-- `PlatformManager::onMessage`; `parse` is `json::parse`, without a result when it
throws. -/
def Receiver.onMessage (secret worker : Bytes) (r : Receiver) (p : Payload) : Receiver :=
  match parse p.bytes with
  | none => r
  | some msg =>
    if !msg.isObject then r
    else
      let a := authorizeCommand hmac dump secret worker msg p.epoch r.nonces
      if !a.1 then { r with nonces := a.2 }
      else
        { platform := r.platform.onMessage keccak msg p.now
          nonces := a.2
          handled := if route msg = .ignored then r.handled else route msg :: r.handled }

/-- The payloads one after the other. -/
def Receiver.run (secret worker : Bytes) (r : Receiver) (ps : List Payload) : Receiver :=
  ps.foldl (Receiver.onMessage hmac dump parse keccak secret worker) r

end

/-! ## The two readings -/

/-- What the throwing accessor returns is what the other one reads. -/
theorem stringOrEmpty_of_value {msg : JsonValue} {key s : Bytes} (h : msg.value key [] = some s) :
    stringOrEmpty msg key = s := by
  unfold JsonValue.value at h
  unfold stringOrEmpty
  cases hv : msg.find key with
  | none =>
    rw [hv] at h
    exact Option.some.inj h
  | some v =>
    rw [hv] at h
    dsimp only at h ⊢
    rw [h]
    rfl

/-- A message that is let through unsigned goes to one of the handlers of the
marketplace flow, or to none. -/
theorem route_of_unsigned {msg : JsonValue} (h : isMutatingCommand msg = false) :
    route msg ≠ .shutdown ∧ route msg ≠ .setConfig := by
  unfold isMutatingCommand at h
  unfold route
  split
  · exact ⟨by decide, by decide⟩
  next hobj =>
    rw [if_neg hobj] at h
    dsimp only at h
    split
    · exact ⟨by decide, by decide⟩
    next command hcommand =>
      rw [stringOrEmpty_of_value hcommand] at h
      split
      · exact ⟨by decide, by decide⟩
      split
      · exact ⟨by decide, by decide⟩
      split
      · exact ⟨by decide, by decide⟩
      split
      · exact ⟨by decide, by decide⟩
      next hack htask hrelease =>
        -- a control message: without a command, and its action pauses or resumes
        rw [if_neg (by simp [hack, htask, hrelease])] at h
        split at h
        · unfold routeControl
          split
          · exact ⟨by decide, by decide⟩
          next action haction =>
            rw [stringOrEmpty_of_value haction] at h
            split
            · exact ⟨by decide, by decide⟩
            split
            · exact ⟨by decide, by decide⟩
            split
            · exact ⟨by decide, by decide⟩
            next hpause hresume =>
              rw [if_neg (by simp [hpause, hresume])] at h
              cases h
        · cases h

/-! ## What the unsigned handlers leave alone -/

/-- The configuration is the same. -/
structure SameConfig (s s' : Platform) : Prop where
  identity : s'.identity = s.identity
  difficulty : s'.globalDifficulty = s.globalDifficulty

namespace SameConfig

variable {s s₁ s₂ : Platform} {msg : JsonValue} {now : Int}

theorem refl : SameConfig s s := ⟨rfl, rfl⟩

/-- Two steps that leave the configuration leave it together. -/
theorem trans (h₁ : SameConfig s s₁) (h₂ : SameConfig s₁ s₂) : SameConfig s s₂ :=
  ⟨h₂.identity.trans h₁.identity, h₂.difficulty.trans h₁.difficulty⟩

/-- A registration leaves identity and difficulty. -/
theorem handleRegisterAck : SameConfig s (s.handleRegisterAck msg) := by
  unfold Platform.handleRegisterAck
  split
  · split
    · exact ⟨rfl, rfl⟩
    · exact refl
  · split
    · exact refl
    · exact ⟨rfl, rfl⟩

/-- A task that is assigned changes neither the identity of the platform nor its difficulty. -/
theorem handleAssignTask (keccak : Bytes → Bytes) :
    SameConfig s (s.handleAssignTask keccak msg now) := by
  rcases handleAssignTask_cases keccak s msg now with heq | ⟨-, -, heq⟩ | ⟨-, l, -, heq⟩
  · rw [heq]
    exact refl
  · rw [heq]
    exact ⟨rfl, rfl⟩
  · rw [heq]
    exact ⟨rfl, rfl⟩

/-- A release leaves them too. -/
theorem handleRelease : SameConfig s (s.handleRelease msg) := by
  rcases handleRelease_cases s msg with heq | heq
  · rw [heq]
    exact refl
  · rw [heq]
    exact ⟨rfl, rfl⟩

/-- And so does a pause. -/
theorem handlePause : SameConfig s (s.handlePause now) := by
  unfold Platform.handlePause dropActiveLease
  split
  · exact ⟨rfl, rfl⟩
  · exact ⟨rfl, rfl⟩

/-- And its end. -/
theorem handleResume : SameConfig s s.handleResume := by
  unfold Platform.handleResume
  split
  · exact ⟨rfl, rfl⟩
  · exact refl

/-- A dispatched message that is neither a shutdown nor a configuration. -/
theorem onMessage (keccak : Bytes → Bytes) (hs : route msg ≠ .shutdown)
    (hc : route msg ≠ .setConfig) : SameConfig s (s.onMessage keccak msg now) := by
  unfold Platform.onMessage
  split
  · exact handleRegisterAck
  · exact handleAssignTask keccak
  · exact handleRelease
  · exact handlePause
  · exact handleResume
  next h => exact absurd h hs
  next h => exact absurd h hc
  · exact refl

end SameConfig

/-! ## Runs -/

section Runs

variable {hmac : Bytes → Bytes → Bytes} {dump : JsonValue → Bytes}
  {parse : Bytes → Option JsonValue} {keccak : Bytes → Bytes}

/-- One payload without a secret. -/
theorem unsigned_step (worker : Bytes) (r : Receiver) (p : Payload) :
    SameConfig r.platform (r.onMessage hmac dump parse keccak [] worker p).platform ∧
      (r.onMessage hmac dump parse keccak [] worker p).handled.count .shutdown =
        r.handled.count .shutdown := by
  unfold Receiver.onMessage
  split
  · exact ⟨.refl, rfl⟩
  next msg hparse =>
    split
    · exact ⟨.refl, rfl⟩
    · dsimp only
      split
      · exact ⟨.refl, rfl⟩
      next hauth =>
        have hmut : isMutatingCommand msg = false := by
          unfold authorizeCommand at hauth
          simpa using hauth
        obtain ⟨hs, hc⟩ := route_of_unsigned hmut
        refine ⟨.onMessage keccak hs hc, ?_⟩
        dsimp only
        split
        · rfl
        · exact List.count_cons_of_ne hs

/-- With an empty secret, whatever payloads arrive and in whichever platform state:
the configuration keeps its values and `stop` is not reached. With a secret, a
message the verifier does not answer with `Ok` reaches no handler. -/
theorem unsigned_never_mutates (worker : Bytes) :
    (∀ (r : Receiver) (ps : List Payload),
      let r' := r.run hmac dump parse keccak [] worker ps
      r'.platform.identity = r.platform.identity ∧
        r'.platform.globalDifficulty = r.platform.globalDifficulty ∧
        r'.handled.count .shutdown = r.handled.count .shutdown) ∧
    ∀ (secret : Bytes) (r : Receiver) (p : Payload) (msg : JsonValue), secret ≠ [] →
      parse p.bytes = some msg →
      (verifyEnvelope hmac dump msg secret worker p.epoch r.nonces).1 ≠ .Ok →
      (r.onMessage hmac dump parse keccak secret worker p).platform = r.platform ∧
        (r.onMessage hmac dump parse keccak secret worker p).handled = r.handled := by
  constructor
  · intro r ps
    have hrun : ∀ r : Receiver, SameConfig r.platform
        (r.run hmac dump parse keccak [] worker ps).platform ∧
        (r.run hmac dump parse keccak [] worker ps).handled.count .shutdown =
          r.handled.count .shutdown := by
      induction ps with
      | nil => exact fun r => ⟨.refl, rfl⟩
      | cons p ps ih =>
        intro r
        obtain ⟨hstep, hcount⟩ := @unsigned_step hmac dump parse keccak worker r p
        obtain ⟨hrest, hcount'⟩ := ih (r.onMessage hmac dump parse keccak [] worker p)
        exact ⟨hstep.trans hrest, hcount'.trans hcount⟩
    exact ⟨(hrun r).1.identity, (hrun r).1.difficulty, (hrun r).2⟩
  · intro secret r p msg hsecret hparse hstatus
    unfold Receiver.onMessage
    rw [hparse]
    dsimp only
    split
    · exact ⟨rfl, rfl⟩
    · have hno : (authorizeCommand hmac dump secret worker msg p.epoch r.nonces).1 = false := by
        unfold authorizeCommand
        rw [if_pos hsecret]
        exact beq_eq_false_iff_ne.mpr hstatus
      rw [hno, if_pos (by decide)]
      exact ⟨rfl, rfl⟩

end Runs

/-- `json::parse` on an unsigned shutdown. -/
def shutdownParse (text : Bytes) : Option JsonValue :=
  if text = lit "\x7b\"action\":\"shutdown\"\x7d" then
    some (.object [(lit "action", .string (lit "shutdown"))])
  else none

/-- A manager that is ready for a task. -/
def idleReceiver : Receiver where
  platform :=
    { running := true, state := .AVAILABLE, lease := none
      context := ⟨.SELF_MINING, lit "0xabc", [], [], []⟩
      identity := ⟨lit "0xabc", [], []⟩, globalDifficulty := 1727 }
  nonces := NonceCache.new 16
  handled := []

/-- The shutdown without and with a secret. -/
theorem unsigned_never_mutates_sample :
    let p : Payload := ⟨lit "\x7b\"action\":\"shutdown\"\x7d", 0, 1000⟩
    ((idleReceiver.run sampleHmac sampleDump shutdownParse id [] (lit "rig1") [p, p]).handled.count
      .shutdown = 0) ∧
    (idleReceiver.onMessage sampleHmac sampleDump shutdownParse id (lit "s3cret") (lit "rig1")
      p).handled = [] := by
  intro p
  obtain ⟨hrun, hsigned⟩ :=
    @unsigned_never_mutates sampleHmac sampleDump shutdownParse id (lit "rig1")
  refine ⟨(hrun idleReceiver [p, p]).2.2, ?_⟩
  exact (hsigned (lit "s3cret") idleReceiver p (.object [(lit "action", .string (lit "shutdown"))])
    (by decide) (if_pos rfl) (by decide)).2

end TreeMiner

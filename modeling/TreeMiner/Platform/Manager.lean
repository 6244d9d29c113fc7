import TreeMiner.Platform.Message

/-!
# `PlatformManager.cpp` and `LeaseManager.cpp`

The handlers of the platform commands and the lease watchdog, each as one step
on the state they share: the platform state, the lease the `LeaseManager`
stores, the context the `MiningCoordinator` hands to the miners and the
remotely set identity. Every command goes through `onMessage`; a message that
`authorizeCommand` turns away changes nothing and is no step. An exception out
of a JSON accessor is caught in `onMessage`, and every accessor that can throw
runs before the handler's first write: such a message is ignored.

Times are nanoseconds of the steady clock. Keccak-256 (Crypto++) is a
parameter.
-/

namespace TreeMiner

open Cxx

/-! ## Addresses -/

/-- `std::toupper`. -/
def toUpper (c : UInt8) : UInt8 := if 97 ≤ c && c ≤ 122 then c - 32 else c

/-- `to_checksum_address`; `keccak` gives the digest in hexadecimal. -/
def toChecksumAddress (keccak : Bytes → Bytes) (address : Bytes) : Bytes :=
  let address_lower := (address.drop 2).map toLower
  let hash := keccak address_lower
  lit "0x" ++ address_lower.mapIdx fun i c => if hash.getD i 0 ≥ ch '8' then toUpper c else c

/-- `is_valid_ethereum_address`: 40 hexadecimal digits with their checksum. -/
def isValidEthereumAddress (keccak : Bytes → Bytes) (address : Bytes) : Bool :=
  (address.take 2 == lit "0x" && isHexString (address.drop 2) 40 40) &&
    address == toChecksumAddress keccak address

/-! ## State -/

/-- `PlatformState`. -/
inductive PlatformState where
  | IDLE
  | AVAILABLE
  | LEASED
  | MINING
  | COMPLETED
  | ERROR_STATE
  deriving DecidableEq, Repr

/-- `MiningMode`. -/
inductive MiningMode where
  | SELF_MINING
  | PLATFORM_MINING
  deriving DecidableEq, Repr

/-- `MiningContext`. -/
structure MiningContext where
  mode : MiningMode
  address : Bytes
  prefix_ : Bytes
  consumer_id : Bytes
  lease_id : Bytes
  deriving DecidableEq

/-- `LeaseInfo`. -/
structure LeaseInfo where
  lease_id : Bytes
  consumer_id : Bytes
  consumer_address : Bytes
  prefix_ : Bytes
  duration_sec : Int32
  start_time : Int
  blocks_found : Int
  deriving DecidableEq

/-- `MiningIdentityConfig`. -/
structure MiningIdentityConfig where
  userAddress : Bytes
  selfMiningPrefix : Bytes
  testBlockPattern : Bytes
  deriving DecidableEq

/-- What the handlers and the watchdog share. -/
structure Platform where
  running : Bool
  state : PlatformState
  lease : Option LeaseInfo
  context : MiningContext
  identity : MiningIdentityConfig
  globalDifficulty : Int32
  deriving DecidableEq

/-! ## `LeaseManager` -/

/-- `LeaseManager::isExpiredInternal`. -/
def isExpired (lease : Option LeaseInfo) (now : Int) : Bool :=
  match lease with
  | none => true
  | some l =>
    if l.duration_sec ≤ 0 then false
    else (now - l.start_time).tdiv 1000000000 ≥ l.duration_sec.toInt

/-- `LeaseManager::hasActiveLease`. -/
def hasActiveLease (lease : Option LeaseInfo) (now : Int) : Bool :=
  lease.isSome && !isExpired lease now

/-- `LeaseManager::toMiningContext`. -/
def toMiningContext (lease : Option LeaseInfo) (identity : MiningIdentityConfig) : MiningContext :=
  match lease with
  | none => ⟨.SELF_MINING, identity.userAddress, [], [], []⟩
  | some l => ⟨.PLATFORM_MINING, l.consumer_address, l.prefix_, l.consumer_id, l.lease_id⟩

namespace Platform

/-- `PlatformManager::transitionTo`, without reports and callbacks. -/
def transitionTo (s : Platform) (state : PlatformState) : Platform := { s with state := state }

/-- `LeaseManager::startLease`; `none` when it returns false. -/
def startLease (s : Platform) (lease_id consumer_id consumer_address prefix_ : Bytes)
    (duration_sec : Int32) (now : Int) : Option Platform :=
  match s.lease with
  | some _ => none
  | none =>
    let lease : LeaseInfo :=
      { lease_id, consumer_id, consumer_address, prefix_, duration_sec
        start_time := now
        blocks_found := 0 }
    some { s with lease := some lease }

/-- `LeaseManager::endLease`. -/
def endLease (s : Platform) : Platform := { s with lease := none }

/-- `PlatformManager::switchToSelfMining`. -/
def switchToSelfMining (s : Platform) : Platform :=
  { s with context := ⟨.SELF_MINING, s.identity.userAddress, [], [], []⟩ }

/-- `PlatformManager::switchToPlatformMining`. -/
def switchToPlatformMining (s : Platform) (ctx : MiningContext) : Platform :=
  { s with context := ctx }

/-! ## Handlers -/

/-- The `accepted` flag of a registration answer. -/
def ackAccepted (msg : JsonValue) : Bool :=
  match msg.find (lit "accepted") with
  | some (.boolean b) => b
  | _ => false

/-- `PlatformManager::handleRegisterAck`. -/
def handleRegisterAck (s : Platform) (msg : JsonValue) : Platform :=
  if ackAccepted msg then
    if s.state ≠ .AVAILABLE then s.transitionTo .AVAILABLE else s
  else
    match msg.value (lit "reason") (lit "unknown") with
    | none => s
    | some _ => s.transitionTo .ERROR_STATE

/-- `PLATFORM_PREFIX_LENGTH`. -/
def PLATFORM_PREFIX_LENGTH : Nat := 16

/-- `duration_sec` of a task: an integer of either type cast to `int`, else an
hour. -/
def taskDuration (msg : JsonValue) : Int32 :=
  match (msg.find (lit "duration_sec")).bind JsonValue.toInt64 with
  | some d => d.toInt32
  | none => 3600

/-- `PlatformManager::handleAssignTask`. -/
def handleAssignTask (keccak : Bytes → Bytes) (s : Platform) (msg : JsonValue) (now : Int) :
    Platform :=
  if s.state ≠ .AVAILABLE then s
  else
    match msg.value (lit "lease_id") [], msg.value (lit "consumer_id") [],
        msg.value (lit "consumer_address") [], msg.value (lit "prefix") [] with
    | some lease_id, some consumer_id, some consumer_address, some prefix_ =>
      let duration_sec := taskDuration msg
      if !isSafeIdentifier lease_id 1 64 || !isSafeIdentifier consumer_id 1 64 then s
      else if !isValidEthereumAddress keccak consumer_address then s
      else if !prefix_.isEmpty &&
          !isHexString prefix_ PLATFORM_PREFIX_LENGTH PLATFORM_PREFIX_LENGTH then s
      else if duration_sec < 60 || duration_sec > 7 * 24 * 3600 then s
      else
        let s := s.transitionTo .LEASED
        match s.startLease lease_id consumer_id consumer_address prefix_ duration_sec now with
        | none => s.transitionTo .ERROR_STATE
        | some s =>
          (s.switchToPlatformMining (toMiningContext s.lease s.identity)).transitionTo .MINING
    | _, _, _, _ => s

/-- The lease is over: release it and mine for ourselves again. -/
def complete (s : Platform) : Platform :=
  ((s.transitionTo .COMPLETED).endLease.switchToSelfMining).transitionTo .AVAILABLE

/-- `PlatformManager::handleRelease`. -/
def handleRelease (s : Platform) (msg : JsonValue) : Platform :=
  match msg.value (lit "lease_id") [] with
  | none => s
  | some lease_id =>
    if !lease_id.isEmpty && !isSafeIdentifier lease_id 1 64 then s
    else
      match s.lease with
      | none => s
      | some current =>
        if !lease_id.isEmpty && current.lease_id ≠ lease_id then s else s.complete

/-- Give up an active lease: the common part of a pause and of `stop`. -/
def dropActiveLease (s : Platform) (now : Int) : Platform :=
  if hasActiveLease s.lease now then s.endLease.switchToSelfMining else s

/-- The pause action. -/
def handlePause (s : Platform) (now : Int) : Platform :=
  (s.dropActiveLease now).transitionTo .IDLE

/-- The resume action. -/
def handleResume (s : Platform) : Platform :=
  if s.state = .IDLE then s.transitionTo .AVAILABLE else s

/-- `PlatformManager::stop`. -/
def stop (s : Platform) (now : Int) : Platform :=
  if s.running then (({ s with running := false }).dropActiveLease now).transitionTo .IDLE else s

/-- A `set_config` field that is a string, or text that fails every check. -/
def configText (v : JsonValue) : Bytes := v.toBytes.getD [1]

/-- The difficulty part of `handleSetConfig`. -/
def configDifficulty (s : Platform) (config : JsonValue) : Platform :=
  match (config.find (lit "difficulty")).bind JsonValue.toInt64 with
  | none => s
  | some d =>
    if d.toInt32 ≥ 1 && d.toInt32 ≤ 10000000 then { s with globalDifficulty := d.toInt32 }
    else s

/-- The address part of `handleSetConfig`. -/
def configAddress (keccak : Bytes → Bytes) (s : Platform) (config : JsonValue) : Platform :=
  match config.find (lit "address") with
  | none => s
  | some v =>
    let addr := v.toBytes.getD []
    if !addr.isEmpty && isValidEthereumAddress keccak addr then
      { s with identity := { s.identity with userAddress := addr } }
    else s

/-- The prefix part of `handleSetConfig`. -/
def configPrefix (s : Platform) (config : JsonValue) : Platform :=
  match config.find (lit "prefix") with
  | none => s
  | some v =>
    let pfx := configText v
    if pfx.isEmpty || isHexString pfx 1 32 then
      { s with identity := { s.identity with selfMiningPrefix := pfx } }
    else s

/-- The block pattern part of `handleSetConfig`. -/
def configPattern (s : Platform) (config : JsonValue) : Platform :=
  match config.find (lit "block_pattern") with
  | none => s
  | some v =>
    let pat := configText v
    if pat.isEmpty || isSafeIdentifier pat 1 16 then
      { s with identity := { s.identity with testBlockPattern := pat } }
    else s

/-- `PlatformManager::handleSetConfig`. -/
def handleSetConfig (keccak : Bytes → Bytes) (s : Platform) (msg : JsonValue) : Platform :=
  let config := (msg.find (lit "config")).getD (.object [])
  if !config.isObject then s
  else (((s.configDifficulty config).configAddress keccak config).configPrefix config).configPattern
    config

/-! ## Dispatch -/

/-- Where a message goes. -/
inductive Command where
  | registerAck
  | assignTask
  | release
  | pause
  | resume
  | shutdown
  | setConfig
  | ignored
  deriving DecidableEq, Repr

/-- The action of a control message, as `handleControl` reads it. -/
def routeControl (msg : JsonValue) : Command :=
  match msg.value (lit "action") [] with
  | none => .ignored
  | some action =>
    if action.length > 32 then .ignored
    else if action = lit "pause" then .pause
    else if action = lit "resume" then .resume
    else if action = lit "shutdown" then .shutdown
    else if action = lit "set_config" then .setConfig
    else .ignored

/-- The dispatch of `onMessage`; everything but the three task commands is a
control message. -/
def route (msg : JsonValue) : Command :=
  if !msg.isObject then .ignored
  else
    match msg.value (lit "command") [] with
    | none => .ignored
    | some command =>
      if command.length > 64 then .ignored
      else if command = lit "register_ack" then .registerAck
      else if command = lit "assign_task" then .assignTask
      else if command = lit "release" then .release
      else routeControl msg

/-- `PlatformManager::onMessage`, for an authorized message. -/
def onMessage (keccak : Bytes → Bytes) (s : Platform) (msg : JsonValue) (now : Int) : Platform :=
  match route msg with
  | .registerAck => s.handleRegisterAck msg
  | .assignTask => s.handleAssignTask keccak msg now
  | .release => s.handleRelease msg
  | .pause => s.handlePause now
  | .resume => s.handleResume
  | .shutdown => s.stop now
  | .setConfig => s.handleSetConfig keccak msg
  | .ignored => s

/-- The error recovery of the watchdog. -/
def recoverError (s : Platform) (connected : Bool) : Platform :=
  if s.state = .ERROR_STATE then
    if connected then (s.transitionTo .IDLE).transitionTo .AVAILABLE else s.transitionTo .IDLE
  else s

/-- One pass of `leaseWatchdogLoop`. -/
def watchdog (s : Platform) (connected : Bool) (now : Int) : Platform :=
  let s := if s.state = .MINING && isExpired s.lease now then s.complete else s
  s.recoverError connected

end Platform

/-- A step of the manager: a message or a watchdog pass. -/
inductive PlatformStep where
  | message (msg : JsonValue)
  | watchdog (connected : Bool)

/-- A step at a time; a stopped manager takes none. -/
def Platform.step (keccak : Bytes → Bytes) (s : Platform) (x : Int × PlatformStep) : Platform :=
  if s.running then
    match x.2 with
    | .message msg => s.onMessage keccak msg x.1
    | .watchdog connected => s.watchdog connected x.1
  else s

/-- A run of steps. -/
def Platform.run (keccak : Bytes → Bytes) (s : Platform) (xs : List (Int × PlatformStep)) :
    Platform :=
  xs.foldl (Platform.step keccak) s

end TreeMiner

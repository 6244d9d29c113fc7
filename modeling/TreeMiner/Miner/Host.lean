import TreeMiner.Gpu.MineUnit
import TreeMiner.Journal.ImportRetry
import TreeMiner.Submit.System

/-!
# The miner process (`main.cpp`)

One process around the journal and the sink next to it: the startup that drains the
sink into the journal, the submission core, and any number of mining threads in the
submit callback. The callback journals first; when that throws it writes the find to
the sink, and when that fails too it declares the process fatal.

The sink is written with `write(2)` calls that another thread, or the end of the
process, can come between. An `EINTR` is no step: the call is made again.
-/

namespace TreeMiner.Miner

open Cxx Interleave FallbackSink

/-- What another thread can come between. -/
inductive Op where
  /-- An operation of the submission core. -/
  | core (o : TreeMiner.Op)
  /-- `FindJournal::append`; its `JournalError` is an answer here, since both callers catch it. -/
  | append (p : FoundPayload)
  | openSink
  /-- One `write(2)`. -/
  | writeSink (data : Bytes)
  | syncSink
  | closeSink
  /-- `PlatformManager::onBlockFound`. -/
  | onBlockFound (p : FoundPayload)
  | declareFatalDurabilityFailure
  /-- What `importInto` finds at the path of the sink. -/
  | readSink
  /-- The `remove` and `rename` of `importInto`. -/
  | archiveSink
  | recoverOnStartup
  /-- From here on the other threads run. -/
  | started

/-- What comes back; `none` for an append that threw and a write that failed. -/
@[reducible] def Op.Ans : Op → Type
  | .core o => o.Ans
  | .append _ => Option Int
  | .openSink | .syncSink | .closeSink => Bool
  | .writeSink _ => Option Nat
  | .readSink => SinkFile
  | _ => Unit

@[reducible] def sig : Sig := ⟨Op, Op.Ans⟩

/-- Ask for one operation. -/
abbrev call (o : Op) : Prog sig o.Ans := Prog.call (S := sig) o

/-- A program of the submission core. -/
def core {α : Type} : Prog TreeMiner.sig α → Prog sig α
  | .ret a => .ret a
  | .op o k => .op (.core o) fun a => core (k a)

/-! ## Capturing a find -/

/-- The payload of a find: captured from what the batch used. -/
def foundPayload (machineId : Bytes) (c : Gpu.SubmitCall) (hashrate : Double) (now : Int)
    (hashed_data : Bytes) : FoundPayload where
  key := c.key
  hash_to_verify := hashed_data
  account := lit "0x" ++ c.hexsalt
  kind := if contains (lit "XEN11") c.hashed_pure then .XEN11 else .XUNI
  memory_cost := c.memory_cost
  worker := machineId
  attempts := c.attempts
  hashes_per_second := hashrate
  found_at_utc := isoUtc now

/-- The loop of `writeAll`, with what is left; each round writes at least a byte. -/
def writeLoop : Nat → Bytes → Prog sig Bool
  | _, [] => .ret true
  | 0, _ :: _ => .ret false
  | fuel + 1, c :: data => .op (.writeSink (c :: data)) fun
    | some (n + 1) => writeLoop fuel (data.drop n)
    | _ => .ret false

@[irreducible] def writeAll (data : Bytes) : Prog sig Bool := writeLoop data.length data

/-- How a call of a thread ends. -/
inductive Outcome where
  | journaled (p : FoundPayload) (id : Int)
  | sunk (p : FoundPayload)
  /-- Neither the journal nor the sink took the find. -/
  | lost (p : FoundPayload)
  /-- `assemblePhc` threw. -/
  | threw
  | done
  deriving DecidableEq

section Programs

variable (libc : Libc) (machineId : Bytes)

/-- `FallbackSink::append`. -/
def appendSink (p : FoundPayload) : Prog sig Bool := do
  let opened ← call .openSink
  if opened then
    let ok ← writeAll (serialize libc p)
    let ok ← if ok then call .syncSink else pure false
    let closed ← call .closeSink
    return ok && closed
  else return false

/-- From the append to the report: journal first, then the sink. -/
def capture (p : FoundPayload) : Prog sig Outcome := do
  match ← call (.append p) with
  | some id =>
    call (.onBlockFound p)
    return .journaled p id
  | none =>
    let sunk ← appendSink libc p
    if sunk then
      call (.onBlockFound p)
      return .sunk p
    else
      call .declareFatalDurabilityFailure
      return .lost p

/-- `submitCallback`. -/
def submitCallback (c : Gpu.SubmitCall) (hashrate : Double) : Prog sig Outcome :=
  match Gpu.assemblePhc c.memory_cost c.hexsalt c.hashed_pure with
  | none => return .threw
  | some hashed_data => do
    let now ← call (.core .wall)
    capture libc (foundPayload machineId c hashrate now hashed_data)

/-! ## The startup -/

/-- The loop of `importInto`: whether every append went through. -/
def importLines : List Bytes → Prog sig Bool
  | [] => return true
  | line :: ls =>
    if FallbackSink.isBlank (stripEnd line) then importLines ls
    else
      match parseLine libc (stripEnd line) with
      | none => importLines ls
      | some p => do
        match ← call (.append p) with
        | some _ => importLines ls
        | none => return false

/-- `FallbackSink::importInto`. -/
def importInto : Prog sig Unit := do
  match ← call .readSink with
  | .bytes content =>
    let cleanPass ← importLines libc (lines content)
    if cleanPass then call .archiveSink else return ()
  -- no file, or one that cannot be opened; reads that fail later are `RunFaults.readFails`
  | _ => return ()

/-- The startup, until the other threads run. -/
def startup : Prog sig Outcome := do
  importInto libc
  call .recoverOnStartup
  call .started
  return .done

end Programs

/-! ## The process -/

/-- The submission core with the journal, the files next to it, and the process. -/
structure World where
  core : TreeMiner.World
  sink : Option Bytes
  archived : Option Bytes
  ready : Bool
  fatal : Bool
  /-- What the platform was told. -/
  reported : List FoundPayload

/-- What the outside supplies. -/
inductive Input where
  | core (x : TreeMiner.Input)
  | works
  | fails
  | wrote (n : Nat)
  | files (removed renamed : Bool)

inductive Party where
  | main
  | submission
  | poller
  | miner (n : Nat)
  deriving DecidableEq

inductive Call where
  | startup
  | runOnce
  | observeDifficulty (d : UInt32)
  | submitCallback (c : Gpu.SubmitCall) (hashrate : Double)

/-- `FindJournal::append` on the journal of the process. -/
def World.append (w : World) (p : FoundPayload) : World :=
  { w with core := { w.core with journal := (w.core.journal.append p).2 } }

/-- The append of the core, whose mining threads are the ones here. -/
def isAppend : TreeMiner.Op → Bool
  | .append _ => true
  | _ => false

/-- What an operation does; a `recoverOnStartup` that throws is the end of the process. -/
def execOp : (o : Op) → World → Input → Option (o.Ans × World)
  | .core o, w, .core x =>
    if isAppend o then none
    else (TreeMiner.exec o w.core x).map fun r => (r.1, { w with core := r.2 })
  | .append p, w, .works => some (some (w.core.journal.append p).1, w.append p)
  | .append _, w, .fails => some (none, w)
  | .openSink, w, .works => some (true, { w with sink := some (w.sink.getD []) })
  | .openSink, w, .fails => some (false, w)
  | .writeSink data, w, .wrote n =>
    if n ≤ data.length then
      some (some n, { w with sink := some (w.sink.getD [] ++ data.take n) })
    else none
  | .writeSink _, w, .fails => some (none, w)
  | .syncSink, w, .works => some (true, w)
  | .syncSink, w, .fails => some (false, w)
  | .closeSink, w, .works => some (true, w)
  | .closeSink, w, .fails => some (false, w)
  | .onBlockFound p, w, .works => some ((), { w with reported := w.reported ++ [p] })
  -- the platform manager is not running
  | .onBlockFound _, w, .fails => some ((), w)
  | .declareFatalDurabilityFailure, w, .works => some ((), { w with fatal := true })
  | .readSink, w, .works =>
    some (match w.sink with
      | none => .missing
      | some content => .bytes content, w)
  | .readSink, w, .fails => some (if w.sink.isNone then .missing else .unreadable, w)
  | .archiveSink, w, .files removed renamed =>
    some ((), if renamed then { w with sink := none, archived := w.sink }
      else { w with archived := if removed then none else w.archived })
  | .recoverOnStartup, w, .works =>
    some ((), { w with core := { w.core with journal := w.core.journal.recoverOnStartup } })
  | .started, w, .works => some ((), { w with ready := true })
  | _, _, _ => none

/-- The main thread runs alone until the startup is through. -/
def exec (i : Party) (o : Op) (w : World) (x : Input) : Option (o.Ans × World) :=
  if (i == .main) == w.ready then none else execOp o w x

/-- A new process on what the disk holds. -/
def boot (cfg : Config) (w : World) : World :=
  { w with core := TreeMiner.boot cfg w.core.journal, ready := false, fatal := false }

/-- What an exception leaves behind: as in the submission core; and what the platform manager
throws ends the mining thread. -/
def abort (i : Party) : Op → World → Option World
  | .core o, w =>
    if o.mayThrow then
      some (if i = .submission then { w with core := { w.core with fatal := true } } else w)
    else none
  | .onBlockFound _, w => some w
  | _, _ => none

/-- The miner. -/
def miner (cfg : Config) (libc : Libc) (machineId : Bytes) :
    Machine sig World Party Input Call Outcome where
  exec := exec
  body
    | .startup => startup libc
    | .runOnce => (core (runOnce cfg)).bind fun _ => .ret .done
    | .observeDifficulty d => (core (observeDifficulty d)).bind fun _ => .ret .done
    | .submitCallback c hashrate => submitCallback libc machineId c hashrate
  may
    | .main, .startup => true
    | .submission, .runOnce => true
    | .poller, .observeDifficulty _ => true
    | .miner _, .submitCallback _ _ => true
    | _, _ => false
  abort := abort
  crash w := some (boot cfg w)

abbrev Configuration := Conf sig World Party Outcome

abbrev Trace := List (Configuration × Label sig Party Call)

/-- How the last call of a party ended. -/
def outcome (c : Configuration) (i : Party) : Option Outcome :=
  match c.pool i with
  | some ⟨_, .ret o⟩ => some o
  | _ => none

/-- The first start: no journal and no sink. -/
def start (cfg : Config) : Configuration where
  world := ⟨TreeMiner.boot cfg .empty, none, none, false, false, []⟩
  pool := fun _ => none

end TreeMiner.Miner

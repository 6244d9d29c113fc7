import TreeMiner.Server.Store

/-!
# The calls that move money (`storage/accounts.py`, `settlement.py`, `matcher.py`)

The repository methods, `settle_lease`, the stop endpoint and the lease watchdog
as programs of statements, and the machine that interleaves any number of them
on the shared connection. Publishing a message, logging and reading the clock
touch neither the connection nor the lock; they are no operations of their own.

`AccountRepo.create` is no call of the machine: the accounts of a run are those it
begins with. Its INSERT changes no row that is there, its `commit` is one like those of the
other repository methods, and which row a login creates is the matter of `Wallet`.
-/

namespace TreeMiner.Server

open Interleave

/-- Await one statement. -/
abbrev await (o : Op) : Async o.Ans := Prog.call (S := sig) o

/-- How a call ends: with an exception, without a result, normally, or with a
settlement. -/
inductive Outcome where
  | raised
  | none
  | done
  | settled (r : Settlement)
  deriving DecidableEq

/-! ## `AccountRepo` -/

/-- `AccountRepo.update_balance`, then `_record_tx`. -/
def postBalance (account_id : Str) (new_balance : ℚ) (type : TxType) (amount : ℚ) :
    Async Outcome := do
  await (.setBalance account_id new_balance)
  await .commit
  let ok ← await (.insertTransaction ⟨account_id, type, amount, []⟩)
  if ok then
    await .commit
    return .done
  else return .raised

/-- `AccountRepo.deposit`. -/
def deposit (account_id : Str) (amount : ℚ) : Async Outcome := do
  if amount ≤ 0 then return .raised
  else
    match ← await (.getAccount account_id) with
    | none => return .raised
    | some acct => postBalance account_id (acct.balance + amount) .deposit amount

/-- `AccountRepo.withdraw`. -/
def withdraw (account_id : Str) (amount : ℚ) : Async Outcome := do
  if amount ≤ 0 then return .raised
  else
    match ← await (.getAccount account_id) with
    | none => return .raised
    | some acct =>
      if acct.balance < amount then return .raised
      else postBalance account_id (acct.balance - amount) .withdraw amount

/-- `AccountRepo.transfer`. -/
def transfer (from_id to_id : Str) (amount : ℚ) (ref : Str) : Async Outcome := do
  if amount ≤ 0 then return .raised
  else
    let found ← await (.debit from_id amount)
    if !found then return .raised
    else
      let _ ← await (.credit to_id amount)
      let out ← await (.insertTransaction ⟨from_id, .transfer_out, amount, ref⟩)
      if !out then return .raised
      else
        let into ← await (.insertTransaction ⟨to_id, .transfer_in, amount, ref⟩)
        if !into then return .raised
        else
          await .commit
          return .done

/-! ## `SettlementEngine` -/

def PLATFORM_ACCOUNT_ID : Str := "platform-treasury".toList
def PROVIDER_SHARE : ℚ := 95 / 100
def PLATFORM_SHARE : ℚ := 5 / 100

/-- The except branch of `settle_lease`: roll back whatever is open. -/
def settleFailed : Async Outcome := do
  let _ ← await .rollback
  return .none

/-- What is charged to a consumer with a balance. -/
def chargedCost (cost balance : ℚ) : ℚ := if balance < cost then max balance 0 else cost

/-- The cost of a lease before it is charged. -/
def LeaseInfo.cost (lease : LeaseInfo) : ℚ := lease.elapsed_sec * lease.price_per_sec

/-- The settlement of a lease for a cost. -/
def LeaseInfo.settlement (lease : LeaseInfo) (total_cost : ℚ) : Settlement where
  lease_id := lease.lease_id
  consumer_id := lease.consumer_id
  worker_id := lease.worker_id
  duration_sec := lease.elapsed_sec
  blocks_found := lease.blocks_found
  total_cost := total_cost
  provider_payout := total_cost * PROVIDER_SHARE
  platform_fee := total_cost * PLATFORM_SHARE

/-- The loop over the three audit rows; `false` at the first that raises. -/
def recordAll : List Transaction → Async Bool
  | [] => return true
  | r :: rs => do
    let ok ← await (.insertTransaction r)
    if ok then recordAll rs else return false

/-- The audit rows of a settlement. -/
def Settlement.audit (s : Settlement) : List Transaction :=
  [⟨s.consumer_id, .lease_charge, s.total_cost, s.lease_id⟩,
    ⟨s.worker_id, .provider_payout, s.provider_payout, s.lease_id⟩,
    ⟨PLATFORM_ACCOUNT_ID, .platform_fee, s.platform_fee, s.lease_id⟩]

/-- The updates, the audit rows and the commit of a settlement, then its row. -/
def postSettlement (s : Settlement) : Async Outcome := do
  let _ ← await (.charge s.lease_id s.consumer_id s.total_cost)
  let _ ← await (.payout s.lease_id s.worker_id s.provider_payout)
  let _ ← await (.payout s.lease_id PLATFORM_ACCOUNT_ID s.platform_fee)
  if !(← recordAll s.audit) then settleFailed
  else
    await .commit
    -- `SettlementRepo.create`, outside the try block
    let ok ← await (.insertSettlement s)
    if ok then
      await .commit
      return .settled s
    else return .raised

/-- `SettlementEngine.settle_lease`. -/
def settleLease (lease : LeaseInfo) : Async Outcome := do
  let ok ← await .begin_immediate
  if !ok then settleFailed
  else
    match ← await (.selectBalance lease.consumer_id) with
    | none =>
      let ok ← await .rollback
      if ok then return .none else settleFailed
    | some balance => postSettlement (lease.settlement (chargedCost lease.cost balance))

/-! ## `MatchingEngine` and the watchdog -/

/-- `LeaseRepo.update_state(…, "completed")`, then `WorkerRepo.update_state`. -/
def completeAndFree (lease : LeaseInfo) : Async Unit := do
  await (.completeLease lease.lease_id)
  await .commit
  await (.setWorkerState lease.worker_id "AVAILABLE".toList)
  await .commit

/-- `MatchingEngine.stop_lease`. -/
def stopLease (lease_id : Str) : Async (Option LeaseInfo) := do
  await .acquire
  match ← await (.getLease lease_id) with
  | none =>
    await .release
    return none
  | some lease =>
    if lease.state ≠ .active then
      await .release
      return none
    else
      completeAndFree lease
      await .release
      await (.getLease lease_id)

/-- The stop endpoint, for a caller who may stop the lease. -/
def stopEndpoint (lease_id : Str) : Async Outcome := do
  match ← await (.getLease lease_id) with
  | none => return .raised
  | some _ =>
    match ← stopLease lease_id with
    | none => return .raised
    | some lease => settleLease lease

/-- The loop of `LeaseRepo.find_expired` over the selected ids. -/
def fetchLeases : List Str → Async (List LeaseInfo)
  | [] => return []
  | id :: ids => do
    let lease ← await (.getLease id)
    let rest ← fetchLeases ids
    return lease.toList ++ rest

/-- The loop of `MatchingEngine.check_expired_leases`. -/
def completeAll : List LeaseInfo → Async (List (Option LeaseInfo))
  | [] => return []
  | lease :: leases => do
    completeAndFree lease
    let updated ← await (.getLease lease.lease_id)
    let rest ← completeAll leases
    return updated :: rest

/-- The watchdog's loop over the completed leases; an exception ends the pass. -/
def settleAll : List (Option LeaseInfo) → Async Outcome
  | [] => return .done
  | none :: _ => return .raised
  | some lease :: leases => do
    match ← settleLease lease with
    | .raised => return .raised
    | _ => settleAll leases

/-- One pass of `_lease_watchdog`. -/
def watchdogPass : Async Outcome := do
  let ids ← await .selectExpired
  let expired ← fetchLeases ids
  let completed ← completeAll expired
  settleAll completed

/-! ## Other repository coroutines -/

/-- A repository method that writes and commits, on leases and workers. -/
inductive RepoWrite where
  | incrementBlocks (lease_id : Str)
  | updateHashrateStats (lease_id : Str) (hashrate : ℚ)
  | createLease (r : Lease)
  | setWorkerState (worker_id state : Str)
  deriving DecidableEq

/-- Its body; only an INSERT can raise. -/
def repoWrite : RepoWrite → Async Outcome
  | .incrementBlocks lease_id => do
    await (.incrementBlocks lease_id)
    await .commit
    return .done
  | .updateHashrateStats lease_id hashrate => do
    await (.updateHashrate lease_id hashrate)
    await .commit
    return .done
  | .createLease r => do
    let ok ← await (.insertLease r)
    if ok then
      await .commit
      return .done
    else return .raised
  | .setWorkerState worker_id state => do
    await (.setWorkerState worker_id state)
    await .commit
    return .done

/-! ## The machine -/

/-- A coroutine of the server. -/
inductive Call where
  | deposit (account_id : Str) (amount : ℚ)
  | withdraw (account_id : Str) (amount : ℚ)
  | transfer (from_id to_id : Str) (amount : ℚ) (ref : Str)
  | settle (lease : LeaseInfo)
  | stop (lease_id : Str)
  | watchdog
  | repo (w : RepoWrite)
  deriving DecidableEq

/-- Its program. -/
def Call.body : Call → Async Outcome
  | .deposit id amount => Server.deposit id amount
  | .withdraw id amount => Server.withdraw id amount
  | .transfer from_id to_id amount ref => Server.transfer from_id to_id amount ref
  | .settle lease => settleLease lease
  | .stop lease_id => stopEndpoint lease_id
  | .watchdog => watchdogPass
  | .repo w => repoWrite w

/-- Coroutines on the shared connection, one number each. All of them are there
from the start; one that has not been scheduled has done nothing. Nothing throws
out of the machine and the process is not restarted. -/
def server : Machine sig World Nat ℚ Call Outcome where
  exec := exec
  body := Call.body
  may := fun _ _ => false
  abort := fun _ _ _ => none
  crash := fun _ => none

abbrev Configuration := Conf sig World Nat Outcome
abbrev Trace := List (Configuration × Label sig Nat Call)

/-- The database at rest, and the calls about to run. -/
def start (db : Db) (calls : List Call) : Configuration where
  world := ⟨⟨db, db, false⟩, none⟩
  pool := fun i => (calls[i]?).map fun k => ⟨[], k.body⟩

/-- Every coroutine has finished. -/
def Finished (c : Configuration) : Prop := ∀ i, Thread.isDone (c.pool i) = true

/-- What coroutine `i` has done so far, newest first. -/
def history (c : Configuration) (i : Nat) : List (Event sig) :=
  match c.pool i with
  | some t => t.hist
  | none => []

/-- How coroutine `i` ended. -/
def outcome (c : Configuration) (i : Nat) : Option Outcome :=
  match c.pool i with
  | some ⟨_, .ret r⟩ => some r
  | _ => none

/-! ## Steps -/

/-- Every step is one operation of one coroutine. -/
theorem server_step {c c' : Configuration} {l : Label sig Nat Call} (hs : server.Step c l c') :
    ∃ i h o k x a, l = .did i ⟨o, a⟩ ∧ c.pool i = some ⟨h, .op o k⟩ ∧
      exec i o c.world x = some (a, c'.world) ∧
      c'.pool = Function.update c.pool i (some ⟨⟨o, a⟩ :: h, k a⟩) := by
  rcases Machine.step_cases hs with ⟨i, k, -, hm, -⟩ |
      ⟨i, h, o, k, x, a, s, rfl, hp, he, rfl⟩ |
    ⟨i, h, o, k, s, -, -, ha, -⟩ | ⟨s, -, hc, -⟩
  · cases hm
  · exact ⟨i, h, o, k, x, a, rfl, hp, he, rfl⟩
  · cases ha
  · cases hc

section Threads

variable {c c' : Configuration} {n i : Nat}

/-- A step adds no coroutine. -/
theorem threads_update {t t' : Thread sig Outcome} (hc : ∀ j t, c.pool j = some t → j < n)
    (hp : c.pool i = some t) (hp' : c'.pool = Function.update c.pool i (some t')) :
    ∀ j t, c'.pool j = some t → j < n := by
  intro j u hu
  by_cases hj : j = i
  · rw [hj]
    exact hc i t hp
  · rw [hp', Function.update_of_ne hj] at hu
    exact hc j u hu

/-- The server starts one task for each call and no more. -/
theorem start_threads {db : Db} {calls : List Call} :
    ∀ j t, (start db calls).pool j = some t → j < calls.length := by
  intro j t ht
  obtain ⟨k, hk, -⟩ := Option.map_eq_some_iff.mp ht
  exact (List.getElem?_eq_some_iff.mp hk).1

/-- In every run the coroutines are those of the start. -/
theorem run_threads {db : Db} {calls : List Call} {tr : Trace}
    (hr : Run server (start db calls) tr c) : ∀ j t, c.pool j = some t → j < calls.length := by
  refine hr.invariant_conf (I := fun c => ∀ j t, c.pool j = some t → j < calls.length)
    (fun c₁ l c₂ hc hs => ?_) start_threads
  obtain ⟨i, h, o, k, x, a, -, hp, -, hp'⟩ := server_step hs
  exact threads_update hc hp hp'

/-- So it is enough to look at those. -/
theorem finished_of_lt (hc : ∀ j t, c.pool j = some t → j < n)
    (hf : ∀ j < n, Thread.isDone (c.pool j) = true) : Finished c := by
  intro j
  cases hp : c.pool j with
  | none => rfl
  | some t =>
    rw [← hp]
    exact hf j (hc j t hp)

end Threads

end TreeMiner.Server

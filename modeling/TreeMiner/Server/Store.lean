import TreeMiner.Lib.Interleave
import TreeMiner.Server.Accounts

/-!
# The shared connection (`storage/*.py` over `aiosqlite`)

All repositories of the marketplace server share one SQLite connection, and a
coroutine gives way to others at every statement. What a statement does is
therefore said once, as an operation on a world that holds the connection and
the matcher's lock.

The connection is a committed and a working database and the flag
`in_transaction`. The driver opens a transaction by itself before the first
INSERT or UPDATE outside one, also when that statement then fails or changes no
row; `commit()` outside a transaction does nothing; BEGIN inside one and
ROLLBACK outside one raise. Nothing in any of this knows which coroutine a
transaction belongs to.

Tables and columns that no modelled call reads are left out.
-/

namespace TreeMiner.Server

open Interleave

/-! ## Rows -/

/-- `leases.state`. -/
inductive LeaseState where
  | active
  | completed
  | cancelled
  deriving DecidableEq, Repr

/-- A row of `leases`. -/
structure Lease where
  lease_id : Str
  worker_id : Str
  consumer_id : Str
  duration_sec : ℚ
  price_per_sec : ℚ
  state : LeaseState
  created_at : ℚ
  ended_at : Option ℚ
  blocks_found : Nat
  total_hashrate_samples : ℚ
  hashrate_count : Nat
  deriving DecidableEq

/-- A new row: the columns no INSERT names have their defaults. -/
def Lease.opened (r : Lease) : Lease :=
  { r with
    state := .active
    ended_at := none
    blocks_found := 0
    total_hashrate_samples := 0
    hashrate_count := 0 }

/-- The dictionary `LeaseRepo.get` returns: the row and the elapsed time. -/
structure LeaseInfo extends Lease where
  elapsed_sec : ℚ
  deriving DecidableEq

/-- A row of `settlements`. -/
structure Settlement where
  lease_id : Str
  consumer_id : Str
  worker_id : Str
  duration_sec : ℚ
  blocks_found : Nat
  total_cost : ℚ
  provider_payout : ℚ
  platform_fee : ℚ
  deriving DecidableEq

/-- A row of `workers`. -/
structure Worker where
  worker_id : Str
  state : Str
  deriving DecidableEq

/-- `transactions.type`. -/
inductive TxType where
  | deposit
  | withdraw
  | lease_charge
  | provider_payout
  | platform_fee
  | transfer_in
  | transfer_out
  deriving DecidableEq, Repr

/-- A row of `transactions`. -/
structure Transaction where
  account_id : Str
  type : TxType
  amount : ℚ
  reference_id : Str
  deriving DecidableEq

/-- The database. -/
structure Db where
  accounts : Accounts
  workers : Table Worker.worker_id
  leases : Table Lease.lease_id
  settlements : Table Settlement.lease_id
  transactions : List Transaction

namespace Db

/-- The balance of an account, 0 if there is none. -/
def balance (db : Db) (account_id : Str) : ℚ :=
  ((db.accounts.get account_id).map Account.balance).getD 0

/-- The account exists. -/
def hasAccount (db : Db) (account_id : Str) : Bool := (db.accounts.get account_id).isSome

/-- `UPDATE accounts SET balance = … WHERE account_id = ?`. -/
def updateBalance (db : Db) (account_id : Str) (f : ℚ → ℚ) : Db :=
  { db with accounts :=
      db.accounts.modify account_id (fun r => { r with balance := f r.balance }) fun _ => rfl }

/-- `INSERT INTO transactions`: the account must exist. -/
def insertTransaction (db : Db) (r : Transaction) : Option Db :=
  if db.hasAccount r.account_id then some { db with transactions := db.transactions ++ [r] }
  else none

/-- `INSERT INTO settlements`: the lease must exist and have none. -/
def insertSettlement (db : Db) (r : Settlement) : Option Db :=
  if (db.leases.get r.lease_id).isSome then
    (db.settlements.insert? r).map fun t => { db with settlements := t }
  else none

/-- `INSERT INTO leases`: worker and consumer must exist, and the worker must
have no active lease. -/
def insertLease (db : Db) (r : Lease) : Option Db :=
  if (db.workers.get r.worker_id).isSome && db.hasAccount r.consumer_id &&
      !(db.leases.rows.any fun l => l.worker_id = r.worker_id ∧ l.state = .active) then
    (db.leases.insert? r.opened).map fun t => { db with leases := t }
  else none

/-- An UPDATE of one lease. -/
def updateLease (db : Db) (lease_id : Str) (f : Lease → Lease)
    (hf : ∀ r, (f r).lease_id = r.lease_id) : Db :=
  { db with leases := db.leases.modify lease_id f hf }

/-- `UPDATE workers SET state = ? WHERE worker_id = ?`. -/
def updateWorker (db : Db) (worker_id state : Str) : Db :=
  { db with workers := db.workers.modify worker_id (fun r => { r with state := state }) fun _ => rfl
    }

end Db

/-- `LeaseRepo.get` on a row: a lease without end, or with the end 0, is still
running. -/
def Lease.info (r : Lease) (now : ℚ) : LeaseInfo :=
  let ended := match r.ended_at with
    | some e => if e = 0 then now else e
    | none => now
  { r with elapsed_sec := ended - r.created_at }

/-! ## Statements -/

/-- What a coroutine can await that matters to others. -/
inductive Op where
  | begin_immediate
  | commit
  | rollback
  /-- `AccountRepo.get`. -/
  | getAccount (account_id : Str)
  /-- `SELECT balance FROM accounts` of `settle_lease`. -/
  | selectBalance (account_id : Str)
  /-- `AccountRepo.update_balance`: an absolute value. -/
  | setBalance (account_id : Str) (new_balance : ℚ)
  /-- The guarded debit of `transfer`. -/
  | debit (account_id : Str) (amount : ℚ)
  /-- The credit of `transfer`. -/
  | credit (account_id : Str) (amount : ℚ)
  /-- The consumer's UPDATE of `settle_lease`, for a lease. -/
  | charge (lease_id account_id : Str) (amount : ℚ)
  /-- The UPDATEs of `settle_lease` for provider and platform. -/
  | payout (lease_id account_id : Str) (amount : ℚ)
  | insertTransaction (r : Transaction)
  | insertSettlement (r : Settlement)
  /-- `LeaseRepo.get`. -/
  | getLease (lease_id : Str)
  /-- The SELECT of `LeaseRepo.find_expired`. -/
  | selectExpired
  /-- `UPDATE leases SET state = 'completed', ended_at = ?`. -/
  | completeLease (lease_id : Str)
  | incrementBlocks (lease_id : Str)
  | updateHashrate (lease_id : Str) (hashrate : ℚ)
  | insertLease (r : Lease)
  | setWorkerState (worker_id state : Str)
  /-- The matcher's `asyncio.Lock`. -/
  | acquire
  | release
  deriving DecidableEq

/-- What comes back. A statement that raises answers `false`; an UPDATE whose
row count matters answers whether there was a row. -/
@[reducible] def Op.Ans : Op → Type
  | .begin_immediate | .rollback => Bool
  | .getAccount _ => Option Account
  | .selectBalance _ => Option ℚ
  | .debit _ _ | .credit _ _ | .charge _ _ _ | .payout _ _ _ => Bool
  | .insertTransaction _ | .insertSettlement _ | .insertLease _ => Bool
  | .getLease _ => Option LeaseInfo
  | .selectExpired => List Str
  | _ => Unit

/-- The operations of the server. -/
@[reducible] def sig : Sig := ⟨Op, Op.Ans⟩

/-- A call of the server's code. -/
abbrev Async (α : Type) := Prog sig α

/-- The SQLite connection. -/
structure Conn where
  committed : Db
  working : Db
  in_transaction : Bool

/-- The connection and who holds the matcher's lock. -/
structure World where
  conn : Conn
  lock : Option Nat

/-- An INSERT or UPDATE: the driver opens a transaction unless one is open. -/
def World.dml (w : World) (f : Db → Db) : World :=
  { w with conn := { w.conn with working := f w.conn.working, in_transaction := true } }

/-- An INSERT that may fail. -/
def World.tryDml (w : World) (f : Db → Option Db) : Bool × World :=
  ((f w.conn.working).isSome, w.dml fun db => (f db).getD db)

/-- An UPDATE of an account's balance and whether the row was there. -/
def World.balanceDml (w : World) (account_id : Str) (f : ℚ → ℚ) : Bool × World :=
  (w.conn.working.hasAccount account_id, w.dml fun db => db.updateBalance account_id f)

/-- `db.commit()`. -/
def World.commit (w : World) : World :=
  if w.conn.in_transaction then
    { w with conn := ⟨w.conn.working, w.conn.working, false⟩ }
  else w

/-- `ROLLBACK`. -/
def World.rollback (w : World) : Bool × World :=
  if w.conn.in_transaction then
    (true, { w with conn := ⟨w.conn.committed, w.conn.committed, false⟩ })
  else (false, w)

/-- What an operation of coroutine `i` does at time `now`. -/
def exec (i : Nat) : (o : Op) → World → ℚ → Option (o.Ans × World)
  | .begin_immediate, w, _ =>
    if w.conn.in_transaction then some (false, w)
    else some (true, { w with conn := { w.conn with in_transaction := true } })
  | .commit, w, _ => some ((), w.commit)
  | .rollback, w, _ => some w.rollback
  | .getAccount id, w, _ => some (w.conn.working.accounts.get id, w)
  | .selectBalance id, w, _ => some ((w.conn.working.accounts.get id).map Account.balance, w)
  | .setBalance id b, w, _ => some ((), (w.balanceDml id fun _ => b).2)
  | .debit id amount, w, _ =>
    if w.conn.working.hasAccount id && w.conn.working.balance id ≥ amount then
      some (w.balanceDml id fun b => b - amount)
    else some (false, w.dml fun db => db)
  | .credit id amount, w, _ => some (w.balanceDml id fun b => b + amount)
  | .charge _ id amount, w, _ => some (w.balanceDml id fun b => b - amount)
  | .payout _ id amount, w, _ => some (w.balanceDml id fun b => b + amount)
  | .insertTransaction r, w, _ => some (w.tryDml fun db => db.insertTransaction r)
  | .insertSettlement r, w, _ => some (w.tryDml fun db => db.insertSettlement r)
  | .getLease id, w, now => some ((w.conn.working.leases.get id).map fun r => r.info now, w)
  | .selectExpired, w, now =>
    some ((w.conn.working.leases.rows.filter fun r =>
      r.state = .active ∧ r.created_at + r.duration_sec < now).map Lease.lease_id, w)
  | .completeLease id, w, now =>
    some ((), w.dml fun db => db.updateLease id
      (fun r => { r with state := .completed, ended_at := some now }) fun _ => rfl)
  | .incrementBlocks id, w, _ =>
    some ((), w.dml fun db => db.updateLease id
      (fun r => { r with blocks_found := r.blocks_found + 1 }) fun _ => rfl)
  | .updateHashrate id hashrate, w, _ =>
    some ((), w.dml fun db => db.updateLease id
      (fun r => { r with
        total_hashrate_samples := r.total_hashrate_samples + hashrate
        hashrate_count := r.hashrate_count + 1 }) fun _ => rfl)
  | .insertLease r, w, _ => some (w.tryDml fun db => db.insertLease r)
  | .setWorkerState id state, w, _ => some ((), w.dml fun db => db.updateWorker id state)
  | .acquire, w, _ => if w.lock.isNone then some ((), { w with lock := some i }) else none
  | .release, w, _ => some ((), { w with lock := none })

end TreeMiner.Server

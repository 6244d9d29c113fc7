import Mathlib.Data.List.Basic

/-!
# A share of a rotation

A counter goes round through `n` places and may be set back to the first one at any time. The
last `q` places of a round are a share. However often the counter is set back, of the places it
has visited no more than `q` in `n` belong to the share (`share_le`).

The proof keeps an account: every visit to a place saves `q`, a visit to the share costs `n`
besides, and the balance (`saved`) never becomes negative. Going back to the first place gives
away what was saved, so it cannot help the share.
-/

namespace Rotation

variable {n q : Nat}

/-- The place after `c`. -/
def next (n c : Nat) : Nat := if c + 1 ≥ n then 0 else c + 1

/-- The places are visited in order from `c` on, but for a return to the first one. -/
def Follows (n : Nat) : Nat → List Nat → Prop
  | _, [] => True
  | c, d :: ds => (d = c ∨ d = 0) ∧ Follows n (next n d) ds

/-- A counter at the first place may have been anywhere before. -/
theorem Follows.of_zero {ds : List Nat} (h : Follows n 0 ds) (c : Nat) : Follows n c ds := by
  cases ds with
  | nil => trivial
  | cons d ds => exact ⟨Or.inr (h.1.elim id id), h.2⟩

/-- The place is one of the last `q`. -/
def inShare (n q c : Nat) : Bool := n - c ≤ q

/-- What has been saved up before `c`: `q` for each place, less `n` for each of the share. -/
def saved (n q c : Nat) : Nat := if n - c ≤ q then (n - q) * (n - c) else q * c

/-- No round has saved anything yet. -/
theorem saved_zero (n q : Nat) : saved n q 0 = 0 := by
  unfold saved
  split
  next h => rw [Nat.sub_eq_zero_of_le (by omega), Nat.zero_mul]
  next => exact Nat.mul_zero q

/-- Each place saves `q`, and one of the share spends `n`. -/
theorem saved_next (hq : q ≤ n) {c : Nat} (hc : c < n) :
    saved n q (next n c) + (if inShare n q c then n else 0) ≤ saved n q c + q := by
  -- within the share of the cycle a place spends what was saved; outside of it `q` is put aside
  by_cases hshare : n - c ≤ q
  · have hsaved : saved n q c = (n - q) * (n - c) := if_pos hshare
    have hspent : (if inShare n q c then n else 0) = n := if_pos (decide_eq_true hshare)
    rw [hsaved, hspent]
    by_cases hlast : c + 1 ≥ n
    · have hnext : next n c = 0 := if_pos hlast
      rw [hnext, saved_zero, show n - c = 1 by omega]
      omega
    · have hnext : next n c = c + 1 := if_neg hlast
      have hafter : saved n q (c + 1) = (n - q) * (n - (c + 1)) := if_pos (by omega)
      rw [hnext, hafter, show n - c = n - (c + 1) + 1 by omega, Nat.mul_succ]
      omega
  · have hsaved : saved n q c = q * c := if_neg hshare
    have hspent : (if inShare n q c then n else 0) = 0 := if_neg (by simpa [inShare] using hshare)
    rw [hsaved, hspent, Nat.add_zero]
    by_cases hlast : c + 1 ≥ n
    · have hnext : next n c = 0 := if_pos hlast
      rw [hnext, saved_zero]
      exact Nat.zero_le _
    · have hnext : next n c = c + 1 := if_neg hlast
      rw [hnext]
      unfold saved
      split
      next hbegin =>
        have hq' : n - (c + 1) = q := by omega
        rw [hq', show n - q = c + 1 by omega, Nat.mul_comm]
        exact Nat.le_of_eq (Nat.mul_succ q c)
      next => exact Nat.le_of_eq (Nat.mul_succ q c)

/-- The next place is again one of the places. -/
theorem next_lt {c : Nat} (hn : 0 < n) : next n c < n := by
  unfold next
  split
  · exact hn
  · omega

/-- The places of the share, from a counter that has saved something on. -/
theorem share_saved (hn : 0 < n) (hq : q ≤ n) {c : Nat} (hc : c < n) {ds : List Nat}
    (h : Follows n c ds) :
    n * ds.countP (inShare n q) ≤ saved n q c + q * ds.length := by
  induction ds generalizing c with
  | nil => exact Nat.zero_le _
  | cons d ds ih =>
    obtain ⟨hd, hds⟩ := h
    -- a counter that is set back loses what it has saved
    have hstart : d < n ∧ saved n q d ≤ saved n q c := by
      rcases hd with rfl | rfl
      · exact ⟨hc, Nat.le_refl _⟩
      · exact ⟨hn, by rw [saved_zero]; exact Nat.zero_le _⟩
    have hstep := saved_next hq hstart.1
    have hrest := ih (next_lt hn) hds
    rw [List.countP_cons, Nat.mul_add, List.length_cons, Nat.mul_succ]
    split at hstep
    next hin =>
      rw [if_pos hin, Nat.mul_one]
      omega
    next hout =>
      rw [if_neg hout, Nat.mul_zero]
      omega

/-- No more than `q` in `n` places belong to the share. -/
theorem share_le (hn : 0 < n) {ds : List Nat} (h : Follows n 0 ds) :
    n * ds.countP (inShare n q) ≤ q * ds.length := by
  by_cases hq : q ≤ n
  · have hsaved := share_saved hn hq hn h
    rw [saved_zero, Nat.zero_add] at hsaved
    exact hsaved
  · exact Nat.mul_le_mul (by omega) List.countP_le_length

end Rotation

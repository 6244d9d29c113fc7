import Mathlib.Algebra.BigOperators.Group.List.Basic
import Mathlib.Algebra.Ring.Nat

/-!
# A running count that is read off and reset

A meter counts up, and at certain points its reading is handed out and it starts again from
zero. What has been handed out and what the meter shows at the end add up to everything that
was counted (`run_sum`). A meter whose readings are taken in another arithmetic, say modulo a
power of two, hands out the images of the exact readings (`run_map`).

The points at which it is read are given with the count since the last one, as ticks. A loop
that counts and resets in two places is compared with `run` over its ticks, and what it hands
out is then a matter of sums.
-/

namespace Meter

inductive Tick where
  | count (n : Nat)
  | flush

/-- The readings handed out, and the last one. -/
def run {α : Type} [Add α] [Zero α] (ofNat : Nat → α) : α → List Tick → List α × α
  | c, [] => ([], c)
  | c, .count n :: ts => run ofNat (c + ofNat n) ts
  | c, .flush :: ts =>
    let r := run ofNat 0 ts
    (c :: r.1, r.2)

/-- Everything that is counted. -/
def total : List Tick → Nat
  | [] => 0
  | .count n :: ts => n + total ts
  | .flush :: ts => total ts

variable {α : Type} [Add α] [Zero α] {ofNat : Nat → α} {ts us : List Tick}

/-- Ticks after others start from what these have left over. -/
theorem run_append (c : α) : run ofNat c (ts ++ us) =
    ((run ofNat c ts).1 ++ (run ofNat (run ofNat c ts).2 us).1,
      (run ofNat (run ofNat c ts).2 us).2) := by
  induction ts generalizing c with
  | nil => rfl
  | cons t ts ih =>
    cases t with
    | count n => exact ih (c + ofNat n)
    | flush =>
      show (_ :: (run ofNat 0 (ts ++ us)).1, (run ofNat 0 (ts ++ us)).2) = _
      rw [ih 0]
      rfl

/-- Totals add up. -/
theorem total_append : total (ts ++ us) = total ts + total us := by
  induction ts with
  | nil => exact (Nat.zero_add _).symm
  | cons t ts ih =>
    cases t with
    | count n =>
      show n + total (ts ++ us) = n + total ts + total us
      rw [ih, Nat.add_assoc]
    | flush => exact ih

/-- Nothing is counted twice and nothing is dropped. -/
theorem run_sum (c : Nat) : (run id c ts).1.sum + (run id c ts).2 = c + total ts := by
  induction ts generalizing c with
  | nil => exact Nat.zero_add c
  | cons t ts ih =>
    cases t with
    | count n =>
      show (run id (c + n) ts).1.sum + (run id (c + n) ts).2 = c + (n + total ts)
      rw [ih, Nat.add_assoc]
    | flush =>
      show (c :: (run id 0 ts).1).sum + (run id 0 ts).2 = c + total ts
      rw [List.sum_cons, Nat.add_assoc, ih, Nat.zero_add]

/-- The readings in an arithmetic that the natural numbers map to. -/
theorem run_map (h0 : ofNat 0 = 0) (hadd : ∀ a b, ofNat (a + b) = ofNat a + ofNat b) (c : Nat) :
    run ofNat (ofNat c) ts = ((run id c ts).1.map ofNat, ofNat (run id c ts).2) := by
  induction ts generalizing c with
  | nil => rfl
  | cons t ts ih =>
    cases t with
    | count n =>
      show run ofNat (ofNat c + ofNat n) ts = _
      rw [← hadd, ih]
      rfl
    | flush =>
      show (ofNat c :: (run ofNat 0 ts).1, (run ofNat 0 ts).2) = _
      rw [← h0, ih]
      rfl

end Meter

import Mathlib.Data.Int.Order.Basic

/-!
# Fixed-width integers and their overflow

A computation with 64-bit signed integers in which no operation leaves the range: each
result passes through `i64`, which keeps it or gives up. Where it does not give up, it is the
computation on unbounded integers (`i64_eq_some`).

Where the overflow is to be followed instead, the result passes through `wrap64`, which takes
it modulo `2 ^ 64` into the range, as two's complement machines do. On what fits it does
nothing (`wrap64_of_fits`).
-/

namespace Checked

/-- The range of a 64-bit signed integer. -/
def Fits64 (x : Int) : Prop := -9223372036854775808 ≤ x ∧ x ≤ 9223372036854775807

instance {x : Int} : Decidable (Fits64 x) := inferInstanceAs (Decidable (_ ∧ _))

/-- The result of a 64-bit operation, unless it overflows. -/
def i64 (x : Int) : Option Int := if Fits64 x then some x else none

/-- The result of a 32-bit unsigned operation, unless it overflows. -/
def u32 (n : Nat) : Option Nat := if n ≤ 4294967295 then some n else none

/-- An unsigned difference, unless it is negative. -/
def u32Sub (a b : Nat) : Option Nat := if b ≤ a then some (a - b) else none

variable {x v : Int}

/-- A number is an `int64_t` when it fits one, and then it is itself. -/
theorem i64_eq_some : i64 x = some v ↔ Fits64 x ∧ x = v := by
  unfold i64
  split
  next h => simp [h]
  next h => simp [h]

/-- A computation goes on from a result that fits. -/
theorem bind_i64 {α : Type} {f : Int → Option α} {a : α} :
    (i64 x).bind f = some a ↔ Fits64 x ∧ f x = some a := by
  unfold i64
  split
  next h => simp [h]
  next h => simp [h]

theorem i64_of_fits (h : Fits64 x) : i64 x = some x := i64_eq_some.mpr ⟨h, rfl⟩

theorem i64_isSome : (i64 x).isSome = true ↔ Fits64 x := by
  unfold i64
  split
  next h => simp [h]
  next h => simp [h]

/-- The result of a 64-bit operation whose overflow wraps around. -/
def wrap64 (x : Int) : Int := x.bmod 18446744073709551616

theorem wrap64_of_fits (h : Fits64 x) : wrap64 x = x := by
  obtain ⟨hlo, hhi⟩ := h
  unfold wrap64
  exact Int.bmod_eq_of_le (by omega) (by omega)

/-- Above the range, up to twice its bound, the result is negative. -/
theorem wrap64_neg (hlo : 9223372036854775808 ≤ x) (hhi : x < 18446744073709551616) :
    wrap64 x < 0 := by
  have hmod : x % 18446744073709551616 = x := Int.emod_eq_of_lt (by omega) hhi
  unfold wrap64
  rw [Int.bmod_def]
  norm_cast
  split <;> omega

/-- A computation goes on with a 32-bit number exactly when the number fits. -/
theorem bind_u32 {α : Type} {f : Nat → Option α} {n : Nat} {a : α} :
    (u32 n).bind f = some a ↔ n ≤ 4294967295 ∧ f n = some a := by
  unfold u32
  split
  next h => simp [h]
  next h => simp [h]

/-- And with a difference exactly when it is not negative. -/
theorem bind_u32Sub {α : Type} {f : Nat → Option α} {m n : Nat} {a : α} :
    (u32Sub m n).bind f = some a ↔ n ≤ m ∧ f (m - n) = some a := by
  unfold u32Sub
  split
  next h => simp [h]
  next h => simp [h]

end Checked

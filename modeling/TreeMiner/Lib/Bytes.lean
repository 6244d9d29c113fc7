import Mathlib.Algebra.Ring.Nat
import Mathlib.Data.List.Basic
import Mathlib.Data.Nat.Basic

/-!
# Byte strings

`std::string` is a list of bytes. What the sources use of the C and C++
libraries on such strings in the C locale is defined here once: character
classes, literals, substring search, ASCII case, and decimal numerals.

Decimal numerals are read from the front with an accumulator, as the sources do, and
written with `digits`. Reading undoes writing (`toDecimal_injective` is a
consequence), and the number of digits is bounded by the power of ten, from which the
bounds on fixed buffers come.
-/

namespace Cxx

/-- The contents of a `std::string`. -/
abbrev Bytes := List UInt8

/-- A fact about the bytes of a string is decided along the string, not over all bytes. -/
instance (priority := high) decidableForallMem {s : Bytes} {p : UInt8 → Prop} [DecidablePred p] :
    Decidable (∀ c ∈ s, p c) :=
  List.decidableBAll p s

/-- The byte of an ASCII character literal. -/
abbrev ch (c : Char) : UInt8 := UInt8.ofNat c.toNat

/-- A string literal: its UTF-8 bytes. -/
def lit (s : String) : Bytes := s.toList.flatMap String.utf8EncodeChar

/-- `std::isspace`: blank and the control characters 9 to 13. -/
def isSpace (c : UInt8) : Bool := c == 32 || (9 ≤ c && c ≤ 13)

/-- `std::isdigit`. -/
def isDigit (c : UInt8) : Bool := 48 ≤ c && c ≤ 57

/-- `std::isalnum`. -/
def isAlnum (c : UInt8) : Bool :=
  isDigit c || (65 ≤ c && c ≤ 90) || (97 ≤ c && c ≤ 122)

/-- `std::tolower`. -/
def toLower (c : UInt8) : UInt8 := if 65 ≤ c && c ≤ 90 then c + 32 else c

/-- A fact about bytes is checked on the 256 of them. -/
theorem forall_byte {P : UInt8 → Prop} (h : ∀ n < 256, P (UInt8.ofNat n)) (c : UInt8) :
    P c := by
  have hc := h c.toNat c.toNat_lt
  rwa [UInt8.ofNat_toNat] at hc

/-- Every byte is in the ASCII range. -/
def IsAscii (s : Bytes) : Prop := ∀ c ∈ s, c < 128

/-- Value of a hexadecimal digit, either case. -/
def hexVal (c : UInt8) : Option Nat :=
  if 48 ≤ c && c ≤ 57 then some (c.toNat - 48)
  else if 97 ≤ c && c ≤ 102 then some (c.toNat - 87)
  else if 65 ≤ c && c ≤ 70 then some (c.toNat - 55)
  else none

/-- `haystack.find(needle) != npos`. -/
def contains (needle : Bytes) : Bytes → Bool
  | [] => needle.isPrefixOf []
  | c :: s => needle.isPrefixOf (c :: s) || contains needle s

/-! ## Maps -/

/-- In a map without repeated names every assignment can be looked up. -/
theorem lookup_of_mem {β : Type} {k : Bytes} {v : β} :
    ∀ {fields : List (Bytes × β)}, (fields.map Prod.fst).Nodup → (k, v) ∈ fields →
      fields.lookup k = some v
  | [], _, h => absurd h List.not_mem_nil
  | (k', v') :: fields, hnd, h => by
    rw [List.map_cons, List.nodup_cons] at hnd
    rcases List.mem_cons.mp h with heq | hmem
    · cases heq
      rw [List.lookup_cons, beq_self_eq_true]
    · have hne : k ≠ k' := by
        intro hk
        subst hk
        exact hnd.1 (List.mem_map.mpr ⟨(k, v), hmem, rfl⟩)
      rw [List.lookup_cons, beq_eq_false_iff_ne.mpr hne]
      exact lookup_of_mem hnd.2 hmem

/-! ## Decimal numerals -/

/-- Digits of `n`, most significant first, with enough fuel. -/
def digits : Nat → Nat → Bytes
  | 0, _ => []
  | fuel + 1, n =>
    if n < 10 then [UInt8.ofNat (48 + n)]
    else digits fuel (n / 10) ++ [UInt8.ofNat (48 + n % 10)]

/-- `std::to_string` of an unsigned value. -/
def toDecimal (n : Nat) : Bytes := digits (n + 1) n

/-- `std::to_string` of a signed value. -/
def toDecimalInt : Int → Bytes
  | .ofNat n => toDecimal n
  | .negSucc n => ch '-' :: toDecimal (n + 1)

/-- Value of a digit string, with an accumulator. -/
def digitsVal (acc : Nat) : Bytes → Nat
  | [] => acc
  | c :: s => digitsVal (acc * 10 + (c.toNat - 48)) s

theorem digitsVal_nil (acc : Nat) : digitsVal acc [] = acc := rfl

theorem digitsVal_cons (c : UInt8) (s : Bytes) (acc : Nat) :
    digitsVal acc (c :: s) = digitsVal (acc * 10 + (c.toNat - 48)) s := by
  rfl

/-- A digit at the end counts for one more and the others for ten times as much. -/
theorem digitsVal_concat (c : UInt8) :
    ∀ (s : Bytes) (acc : Nat), digitsVal acc (s ++ [c]) = digitsVal acc s * 10 + (c.toNat - 48)
  | [], _ => rfl
  | d :: s, acc => digitsVal_concat c s (acc * 10 + (d.toNat - 48))

/-- The character of a digit. -/
private theorem digitByte {n : Nat} (h : n < 10) :
    (UInt8.ofNat (48 + n)).toNat = 48 + n ∧ isDigit (UInt8.ofNat (48 + n)) = true := by
  have hall : ∀ n < 10, (UInt8.ofNat (48 + n)).toNat = 48 + n ∧
      isDigit (UInt8.ofNat (48 + n)) = true := by decide
  exact hall n h

/-- The digits of a number are digits, and their value is the number. -/
theorem digits_spec : ∀ (fuel n : Nat), n < fuel → digits fuel n ≠ [] ∧
    (∀ c ∈ digits fuel n, isDigit c = true) ∧ digitsVal 0 (digits fuel n) = n
  | 0, n, h => absurd h (Nat.not_lt_zero n)
  | fuel + 1, n, h => by
    unfold digits
    split
    next hn =>
      obtain ⟨hval, hdig⟩ := digitByte hn
      refine ⟨List.cons_ne_nil _ _, ?_, ?_⟩
      · intro c hc
        rw [List.mem_singleton.mp hc]
        exact hdig
      · show 0 * 10 + ((UInt8.ofNat (48 + n)).toNat - 48) = n
        omega
    next hn =>
      obtain ⟨hval, hdig⟩ := digitByte (Nat.mod_lt n (by omega : 0 < 10))
      obtain ⟨-, hall, hrec⟩ := digits_spec fuel (n / 10) (by omega)
      refine ⟨by simp, ?_, ?_⟩
      · intro c hc
        rcases List.mem_append.mp hc with hc | hc
        · exact hall c hc
        · rw [List.mem_singleton.mp hc]
          exact hdig
      · rw [digitsVal_concat, hrec, hval]
        omega

/-- A number below a power of ten has no more digits than its exponent. -/
theorem digits_length : ∀ (fuel k n : Nat), n < 10 ^ (k + 1) → (digits fuel n).length ≤ k + 1
  | 0, _, _, _ => Nat.zero_le _
  | fuel + 1, k, n, h => by
    unfold digits
    split
    next => simp
    next hn =>
      cases k with
      | zero => omega
      | succ k =>
        have hdiv : n / 10 < 10 ^ (k + 1) := by
          rw [Nat.pow_succ] at h
          omega
        have ih := digits_length fuel k (n / 10) hdiv
        rw [List.length_append, List.length_singleton]
        omega

/-- The digits of a numeral are digits. -/
theorem toDecimal_digits (n : Nat) : ∀ c ∈ toDecimal n, isDigit c = true :=
  (digits_spec (n + 1) n (Nat.lt_succ_self n)).2.1

/-- No two numbers have the same digits. -/
theorem toDecimal_injective {n m : Nat} (h : toDecimal n = toDecimal m) : n = m := by
  have hval : ∀ k, digitsVal 0 (toDecimal k) = k := fun k =>
    (digits_spec (k + 1) k (Nat.lt_succ_self k)).2.2
  rw [← hval n, h, hval m]

/-- The same bound for the text of the number. -/
theorem toDecimal_length {k n : Nat} (h : n < 10 ^ (k + 1)) : (toDecimal n).length ≤ k + 1 :=
  digits_length (n + 1) k n h

/-- The digits are the bytes from 48 to 57. -/
theorem isDigit_bounds {c : UInt8} (h : isDigit c = true) : 48 ≤ c.toNat ∧ c.toNat ≤ 57 := by
  unfold isDigit at h
  rw [Bool.and_eq_true, decide_eq_true_eq, decide_eq_true_eq] at h
  exact ⟨UInt8.le_iff_toNat_le.mp h.1, UInt8.le_iff_toNat_le.mp h.2⟩

end Cxx

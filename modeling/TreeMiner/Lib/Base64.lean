import Mathlib.Algebra.Ring.Nat
import Mathlib.Data.List.Basic

/-!
# Base64 without padding (RFC 4648, section 4)

A text is cut into quanta of four characters, each of which says six bits; the last quantum
may have two characters, for one byte, or three, for two bytes. `decode` takes a text only if
the bits that its last quantum has left over are zero. `decode_encode` is the round trip.

The encoding is a recursion over three bytes at a time, and so are its lemmas: the length,
the alphabet of 64 characters, and that no two byte strings share an encoding. An encoder
that shifts words is compared with it quantum by quantum.
-/

namespace Base64

/-- The alphabet. -/
def char (v : Nat) : UInt8 :=
  if v < 26 then UInt8.ofNat (65 + v)
  else if v < 52 then UInt8.ofNat (71 + v)
  else if v < 62 then UInt8.ofNat (v - 4)
  else if v = 62 then 43
  else 47

/-- The value of a character of the alphabet. -/
def value (c : UInt8) : Option Nat :=
  if 65 ≤ c ∧ c ≤ 90 then some (c.toNat - 65)
  else if 97 ≤ c ∧ c ≤ 122 then some (c.toNat - 71)
  else if 48 ≤ c ∧ c ≤ 57 then some (c.toNat + 4)
  else if c = 43 then some 62
  else if c = 47 then some 63
  else none

/-- The value of a character is what it stands for. -/
theorem value_char {v : Nat} (h : v < 64) : value (char v) = some v := by
  have hall : ∀ v < 64, value (char v) = some v := by decide
  exact hall v h

/-- The characters of the six-bit digits of `n`, from the `k`-th down. -/
def sextets : Nat → Nat → List UInt8
  | 0, _ => []
  | k + 1, n => char (n / 64 ^ k % 64) :: sextets k n

def encode : List UInt8 → List UInt8
  | a :: b :: c :: rest => sextets 4 (a.toNat * 65536 + b.toNat * 256 + c.toNat) ++ encode rest
  | [a, b] => sextets 3 ((a.toNat * 256 + b.toNat) * 4)
  | [a] => sextets 2 (a.toNat * 16)
  | [] => []

def decode : List UInt8 → Option (List UInt8)
  | w :: x :: y :: z :: rest => do
    let n := (((← value w) * 64 + (← value x)) * 64 + (← value y)) * 64 + (← value z)
    let bytes ← decode rest
    some (UInt8.ofNat (n / 65536) :: UInt8.ofNat (n / 256 % 256) :: UInt8.ofNat (n % 256) :: bytes)
  | [w, x, y] => do
    let n := ((← value w) * 64 + (← value x)) * 64 + (← value y)
    if n % 4 = 0 then some [UInt8.ofNat (n / 1024), UInt8.ofNat (n / 4 % 256)] else none
  | [w, x] => do
    let n := (← value w) * 64 + (← value x)
    if n % 16 = 0 then some [UInt8.ofNat (n / 16)] else none
  | [_] => none
  | [] => some []

section RoundTrip

theorem sextets_two (n : Nat) : sextets 2 n = [char (n / 64 % 64), char (n % 64)] := by
  simp [sextets]

theorem sextets_three (n : Nat) :
    sextets 3 n = [char (n / 4096 % 64), char (n / 64 % 64), char (n % 64)] := by
  simp [sextets]

theorem sextets_four (n : Nat) : sextets 4 n =
    [char (n / 262144 % 64), char (n / 4096 % 64), char (n / 64 % 64), char (n % 64)] := by
  simp [sextets]

/-- As many characters as were asked for. -/
theorem sextets_length (k n : Nat) : (sextets k n).length = k := by
  induction k with
  | zero => rfl
  | succ k ih =>
    unfold sextets
    rw [List.length_cons, ih]

/-- Four characters for three bytes, and one more than the bytes that are left over. -/
theorem encode_length : ∀ bytes : List UInt8, (encode bytes).length =
    bytes.length / 3 * 4 + if bytes.length % 3 = 0 then 0 else bytes.length % 3 + 1
  | a :: b :: c :: rest => by
    have ih := encode_length rest
    unfold encode
    rw [List.length_append, sextets_length, ih, List.length_cons, List.length_cons,
      List.length_cons]
    have hdiv : (rest.length + 1 + 1 + 1) / 3 = rest.length / 3 + 1 := by omega
    have hmod : (rest.length + 1 + 1 + 1) % 3 = rest.length % 3 := by omega
    rw [hdiv, hmod]
    omega
  | [a, b] => by
    unfold encode
    rw [sextets_length]
    simp
  | [a] => by
    unfold encode
    rw [sextets_length]
    simp
  | [] => rfl

private theorem byte_lt (a : UInt8) : a.toNat < 256 := UInt8.toNat_lt a

private theorem ofNat_eq {n : Nat} {a : UInt8} (h : n = a.toNat) : UInt8.ofNat n = a := by
  rw [h, UInt8.ofNat_toNat]

/-- What was encoded is decoded to the same bytes, with no padding in between. -/
theorem decode_encode : ∀ bytes : List UInt8, decode (encode bytes) = some bytes
  | a :: b :: c :: rest => by
    have ih := decode_encode rest
    have ha := byte_lt a
    have hb := byte_lt b
    have hc := byte_lt c
    unfold encode
    rw [sextets_four]
    simp only [List.cons_append, List.nil_append, decode, Option.bind_eq_bind, Option.bind_some,
      value_char (Nat.mod_lt _ (by decide : 0 < 64)), ih]
    -- each byte is put together again from its six-bit pieces
    congr 2
    · exact ofNat_eq (by omega)
    · congr 1
      · exact ofNat_eq (by omega)
      · congr 1
        exact ofNat_eq (by omega)
  | [a, b] => by
    have ha := byte_lt a
    have hb := byte_lt b
    unfold encode
    rw [sextets_three]
    simp only [decode, Option.bind_eq_bind, Option.bind_some,
      value_char (Nat.mod_lt _ (by decide : 0 < 64))]
    rw [if_pos (by omega)]
    congr 2
    · exact ofNat_eq (by omega)
    · congr 1
      exact ofNat_eq (by omega)
  | [a] => by
    have ha := byte_lt a
    unfold encode
    rw [sextets_two]
    simp only [decode, Option.bind_eq_bind, Option.bind_some,
      value_char (Nat.mod_lt _ (by decide : 0 < 64))]
    rw [if_pos (by omega)]
    congr 2
    exact ofNat_eq (by omega)
  | [] => rfl

/-- No two byte strings have the same encoding. -/
theorem encode_injective {a b : List UInt8} (h : encode a = encode b) : a = b := by
  have hd := decode_encode a
  rw [h, decode_encode] at hd
  exact (Option.some.inj hd).symm

/-- Every character is one of the alphabet. -/
theorem sextets_chars (k n : Nat) : ∀ c ∈ sextets k n, ∃ v < 64, c = char v := by
  induction k with
  | zero => exact fun _ h => by cases h
  | succ k ih =>
    intro c hc
    rcases List.mem_cons.mp hc with rfl | hc
    · exact ⟨_, Nat.mod_lt _ (by decide), rfl⟩
    · exact ih c hc

/-- An encoding consists of the 64 characters. -/
theorem encode_chars : ∀ bytes : List UInt8, ∀ c ∈ encode bytes, ∃ v < 64, c = char v
  | a :: b :: c :: rest => by
    intro x hx
    unfold encode at hx
    rcases List.mem_append.mp hx with hx | hx
    · exact sextets_chars _ _ x hx
    · exact encode_chars rest x hx
  | [a, b] => sextets_chars _ _
  | [a] => sextets_chars _ _
  | [] => fun _ h => by cases h

end RoundTrip

end Base64

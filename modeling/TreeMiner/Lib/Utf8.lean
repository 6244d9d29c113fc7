import TreeMiner.Lib.Bytes

/-!
# UTF-8

Text as a list of characters and its bytes. What decodes is what some text encodes
to, so a decoder that refuses anything else is an inverse on both sides. One that
replaces the rest keeps the bytes exactly of what decodes (`encode_lossy`).

Well-formed sequences are those of the table in the Unicode standard, with its
narrower ranges for the second byte. The lossy decoder replaces one ill-formed piece
of one to three bytes at a time, and leaves every text that decodes as it was.
-/

namespace Utf8

open Cxx

/-- The bytes of a text. -/
def encode (s : List Char) : Bytes := s.flatMap String.utf8EncodeChar

/-- The text of the bytes, if they are UTF-8. -/
def decode (b : Bytes) : Option (List Char) := b.toByteArray.utf8Decode?.map Array.toList

variable {s : List Char} {b : Bytes}

/-- What was encoded is decoded to the same characters. -/
theorem decode_encode (s : List Char) : decode (encode s) = some s := by
  have h : s.utf8Encode.utf8Decode? = some s.toArray := List.utf8Decode?_utf8Encode
  show s.utf8Encode.utf8Decode?.map Array.toList = some s
  rw [h, Option.map_some, List.toList_toArray]

/-- Only a text's own bytes decode to it. -/
theorem encode_of_decode (h : decode b = some s) : encode s = b := by
  have hsome : b.toByteArray.utf8Decode?.isSome = true := by
    rw [← Option.isSome_map (f := Array.toList)]
    exact Option.isSome_of_eq_some h
  obtain ⟨m, hm⟩ := ByteArray.isSome_utf8Decode?_iff.mp hsome
  have hb : b = encode m := by
    have hlist : b.toByteArray = (encode m).toByteArray := hm
    rw [← List.toList_data_toByteArray (l := b), hlist, List.toList_data_toByteArray]
  rw [hb, decode_encode] at h
  rw [hb, Option.some.inj h]

/-- What decodes is a text's bytes. -/
theorem decode_isSome : (decode b).isSome = true ↔ ∃ s, encode s = b := by
  constructor
  · intro h
    obtain ⟨s, hs⟩ := Option.isSome_iff_exists.mp h
    exact ⟨s, encode_of_decode hs⟩
  · rintro ⟨s, rfl⟩
    rw [decode_encode]
    rfl

/-- Two texts are encoded one after the other. -/
theorem encode_append (s t : List Char) : encode (s ++ t) = encode s ++ encode t :=
  List.flatMap_append

/-! ## Replacing what is not UTF-8 -/

/-- The second byte of a sequence of three or four. -/
def second (a b : UInt8) : Bool :=
  if a = 0xE0 then 0xA0 ≤ b && b ≤ 0xBF
  else if a = 0xED then 0x80 ≤ b && b ≤ 0x9F
  else if a = 0xF0 then 0x90 ≤ b && b ≤ 0xBF
  else if a = 0xF4 then 0x80 ≤ b && b ≤ 0x8F
  else 0xE1 ≤ a && a ≤ 0xF3 && 0x80 ≤ b && b ≤ 0xBF

/-- How many bytes one replacement stands for: those that began a sequence. -/
def illFormed : Bytes → Nat
  | a :: b :: s =>
    if second a b then
      match s with
      | c :: _ => if 0xF0 ≤ a && 0x80 ≤ c && c ≤ 0xBF then 3 else 2
      | [] => 2
    else 1
  | _ => 1

/-- A piece that is not well formed is at least one byte, so that the decoder goes on. -/
theorem illFormed_pos : 0 < illFormed b := by
  unfold illFormed
  split
  · split
    · split
      · split <;> omega
      · omega
    · omega
  · omega

/-- The first character. -/
def decodeChar (b : Bytes) : Option Char := b.toByteArray.utf8DecodeChar? 0

/-- The text of the bytes, with U+FFFD for what is not UTF-8. -/
def lossy (b : Bytes) : List Char :=
  if _h : b = [] then []
  else match decodeChar b with
    | some c => c :: lossy (b.drop c.utf8Size)
    | none => Char.ofNat 0xFFFD :: lossy (b.drop (illFormed b))
termination_by b.length
decreasing_by
  · have hc := c.utf8Size_pos
    have hb := List.length_pos_of_ne_nil _h
    rw [List.length_drop]
    omega
  · have hi : 0 < illFormed b := illFormed_pos
    have hb := List.length_pos_of_ne_nil _h
    rw [List.length_drop]
    omega

/-- A character is read from its own bytes, whatever comes behind them. -/
theorem decodeChar_encode {c : Char} : decodeChar (String.utf8EncodeChar c ++ b) = some c := by
  have h : ((String.utf8EncodeChar c).toByteArray ++ b.toByteArray).utf8DecodeChar? 0 = some c :=
    ByteArray.utf8DecodeChar?_utf8EncodeChar_append
  rw [← List.toByteArray_append] at h
  exact h

/-- The lossy decoder loses nothing of a text. -/
theorem lossy_encode (s : List Char) : lossy (encode s) = s := by
  induction s with
  | nil => rw [encode, List.flatMap_nil, lossy, dif_pos rfl]
  | cons c s ih =>
    have hdrop : (String.utf8EncodeChar c ++ encode s).drop c.utf8Size = encode s :=
      List.drop_left' (String.length_utf8EncodeChar c)
    have hne : String.utf8EncodeChar c ++ encode s ≠ [] := by
      intro h
      have hlen := congrArg List.length h
      rw [List.length_append, String.length_utf8EncodeChar, List.length_nil] at hlen
      have hpos := c.utf8Size_pos
      omega
    show lossy (String.utf8EncodeChar c ++ encode s) = c :: s
    rw [lossy, dif_neg hne, decodeChar_encode]
    simp only
    rw [hdrop, ih]

/-- And it is no more than three. -/
theorem illFormed_le : illFormed b ≤ 3 := by
  unfold illFormed
  split
  · split
    · split
      · split <;> omega
      · omega
    · omega
  · omega

/-- A replacement is not shorter than what it stands for. -/
theorem length_le_lossy (b : Bytes) : b.length ≤ (encode (lossy b)).length := by
  fun_induction lossy b with
  | case1 => exact Nat.zero_le _
  | case2 b hne c hc ih =>
    rw [encode, List.flatMap_cons, List.length_append, String.length_utf8EncodeChar]
    rw [List.length_drop, encode] at ih
    omega
  | case3 b hne hc ih =>
    have hthree : (String.utf8EncodeChar (Char.ofNat 0xFFFD)).length = 3 := by decide
    have hle : illFormed b ≤ 3 := illFormed_le
    rw [encode, List.flatMap_cons, List.length_append, hthree]
    rw [List.length_drop, encode] at ih
    omega

/-- Replacing changes nothing exactly in UTF-8. -/
theorem encode_lossy : encode (lossy b) = b ↔ ∃ s, encode s = b := by
  constructor
  · intro h
    exact ⟨_, h⟩
  · rintro ⟨s, rfl⟩
    rw [lossy_encode]

end Utf8

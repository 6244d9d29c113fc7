import TreeMiner.Lib.Utf8

/-!
# The JSON grammar (RFC 8259)

`Text s j`: the byte string `s` is a JSON text and denotes `j`. Every rule
relates the text where it starts to the text it leaves, so that sequencing is
sharing a name. Strings are UTF-8, a character at a time. A decoded string is
the list of its code points, where a `\u` escape contributes the code unit it
names: for a text that is compared with ASCII the two agree.

The grammar says nothing about how a text is read; a scanner is proved against it.
Duplicate names are allowed, as the RFC allows them, and `member` takes the first one,
which is what a scanner that walks the members finds.
-/

namespace Json

open Cxx (Bytes ch lit isDigit hexVal)

/-- What a text denotes; a number keeps its spelling. -/
inductive Value where
  | null
  | bool (b : Bool)
  | num (spelling : Bytes)
  | str (s : List Nat)
  | arr (vs : List Value)
  | obj (ms : List (List Nat × Value))

/-- `ws` of the grammar. -/
def isWs (c : UInt8) : Bool := c == 32 || c == 9 || c == 10 || c == 13

/-- Insignificant whitespace. -/
inductive Ws : Bytes → Bytes → Prop where
  | nil (s : Bytes) : Ws s s
  | cons {c : UInt8} {s t : Bytes} (hc : isWs c = true) (h : Ws s t) : Ws (c :: s) t

/-- The code point of a two-character escape. -/
def escape (e : UInt8) : Option Nat :=
  if e = ch '"' then some 0x22
  else if e = ch '\\' then some 0x5C
  else if e = ch '/' then some 0x2F
  else if e = ch 'b' then some 8
  else if e = ch 'f' then some 12
  else if e = ch 'n' then some 10
  else if e = ch 'r' then some 13
  else if e = ch 't' then some 9
  else none

/-- The code unit of four hexadecimal digits. -/
def hexUnit (a b c d : UInt8) : Option Nat := do
  let a ← hexVal a
  let b ← hexVal b
  let c ← hexVal c
  let d ← hexVal d
  some (((a * 16 + b) * 16 + c) * 16 + d)

/-- The characters of a string and its closing quotation mark. -/
inductive Chars : Bytes → List Nat → Bytes → Prop where
  | close (t : Bytes) : Chars (ch '"' :: t) [] t
  | char {c : Char} {s t : Bytes} {v : List Nat} (hc : 0x20 ≤ c.toNat) (hq : c ≠ '"')
      (hb : c ≠ '\\') (h : Chars s v t) : Chars (String.utf8EncodeChar c ++ s) (c.toNat :: v) t
  | esc {e : UInt8} {u : Nat} {s t : Bytes} {v : List Nat} (he : escape e = some u)
      (h : Chars s v t) : Chars (ch '\\' :: e :: s) (u :: v) t
  | unit {a b c d : UInt8} {u : Nat} {s t : Bytes} {v : List Nat}
      (hu : hexUnit a b c d = some u) (h : Chars s v t) :
      Chars (ch '\\' :: ch 'u' :: a :: b :: c :: d :: s) (u :: v) t

/-- One or more digits. -/
def Digits (s : Bytes) : Prop := s ≠ [] ∧ ∀ c ∈ s, isDigit c = true

/-- `[ minus ] int [ frac ] [ exp ]`. -/
structure Number (s : Bytes) : Prop where
  spelled : ∃ sign int frac exp, s = sign ++ int ++ frac ++ exp ∧
    (sign = [] ∨ sign = [ch '-']) ∧
    Digits int ∧ (int = [ch '0'] ∨ int.head? ≠ some (ch '0')) ∧
    (frac = [] ∨ ∃ ds, frac = ch '.' :: ds ∧ Digits ds) ∧
    (exp = [] ∨ ∃ e sg ds, exp = e :: sg ++ ds ∧ (e = ch 'e' ∨ e = ch 'E') ∧
      (sg = [] ∨ sg = [ch '-'] ∨ sg = [ch '+']) ∧ Digits ds)

mutual

/-- A value of any kind. -/
inductive Val : Bytes → Value → Bytes → Prop where
  | null (t : Bytes) : Val (lit "null" ++ t) .null t
  | true (t : Bytes) : Val (lit "true" ++ t) (.bool .true) t
  | false (t : Bytes) : Val (lit "false" ++ t) (.bool .false) t
  | num {s : Bytes} (t : Bytes) (h : Number s) : Val (s ++ t) (.num s) t
  | str {s t : Bytes} {v : List Nat} (h : Chars s v t) : Val (ch '"' :: s) (.str v) t
  | arrNil {s t : Bytes} (h : Ws s (ch ']' :: t)) : Val (ch '[' :: s) (.arr []) t
  | arr {s t : Bytes} {vs : List Value} (h : Elements s vs t) : Val (ch '[' :: s) (.arr vs) t
  | objNil {s t : Bytes} (h : Ws s (ch '}' :: t)) : Val (ch '{' :: s) (.obj []) t
  | obj {s t : Bytes} {ms : List (List Nat × Value)} (h : Members s ms t) :
      Val (ch '{' :: s) (.obj ms) t

/-- The elements of an array and its closing bracket. -/
inductive Elements : Bytes → List Value → Bytes → Prop where
  | last {s s₁ s₂ t : Bytes} {v : Value} (hw : Ws s s₁) (hv : Val s₁ v s₂)
      (hc : Ws s₂ (ch ']' :: t)) : Elements s [v] t
  | cons {s s₁ s₂ s₃ t : Bytes} {v : Value} {vs : List Value} (hw : Ws s s₁)
    (hv : Val s₁ v s₂)
      (hc : Ws s₂ (ch ',' :: s₃)) (h : Elements s₃ vs t) : Elements s (v :: vs) t

/-- The members of an object and its closing brace. -/
inductive Members : Bytes → List (List Nat × Value) → Bytes → Prop where
  | last {s s₁ s₂ s₃ s₄ s₅ t : Bytes} {n : List Nat} {v : Value}
    (hw : Ws s (ch '"' :: s₁))
      (hn : Chars s₁ n s₂) (hs : Ws s₂ (ch ':' :: s₃)) (hw' : Ws s₃ s₄)
        (hv : Val s₄ v s₅)
      (hc : Ws s₅ (ch '}' :: t)) : Members s [(n, v)] t
  | cons {s s₁ s₂ s₃ s₄ s₅ s₆ t : Bytes} {n : List Nat} {v : Value}
      {ms : List (List Nat × Value)} (hw : Ws s (ch '"' :: s₁))
      (hn : Chars s₁ n s₂) (hs : Ws s₂ (ch ':' :: s₃)) (hw' : Ws s₃ s₄)
        (hv : Val s₄ v s₅)
      (hc : Ws s₅ (ch ',' :: s₆)) (h : Members s₆ ms t) : Members s ((n, v) :: ms) t

end

/-- A JSON text. -/
def Text (s : Bytes) (j : Value) :
    Prop := ∃ s₁ s₂, Ws s s₁ ∧ Val s₁ j s₂ ∧ Ws s₂ []

/-! ## One member of an object -/

/-- The text of a decoded string. -/
def text (v : List Nat) : Bytes := Utf8.encode (v.map Char.ofNat)

/-- The characters of a string whose `\u` escapes are ASCII. -/
inductive AsciiEscaped : Bytes → List Nat → Bytes → Prop where
  | close (t : Bytes) : AsciiEscaped (ch '"' :: t) [] t
  | char {c : Char} {s t : Bytes} {v : List Nat} (hc : 0x20 ≤ c.toNat) (hq : c ≠ '"')
      (hb : c ≠ '\\') (h : AsciiEscaped s v t) :
      AsciiEscaped (String.utf8EncodeChar c ++ s) (c.toNat :: v) t
  | esc {e : UInt8} {u : Nat} {s t : Bytes} {v : List Nat} (he : escape e = some u)
      (h : AsciiEscaped s v t) : AsciiEscaped (ch '\\' :: e :: s) (u :: v) t
  | unit {a b c d : UInt8} {u : Nat} {s t : Bytes} {v : List Nat}
      (hu : hexUnit a b c d = some u) (hascii : u < 128) (h : AsciiEscaped s v t) :
      AsciiEscaped (ch '\\' :: ch 'u' :: a :: b :: c :: d :: s) (u :: v) t

/-- A string of ASCII characters and escapes is a string of the grammar. -/
theorem AsciiEscaped.chars {s t : Bytes} {v : List Nat} (h : AsciiEscaped s v t) :
    Chars s v t := by
  induction h with
  | close t => exact .close t
  | char hc hq hb _ ih => exact .char hc hq hb ih
  | esc he _ ih => exact .esc he ih
  | unit hu _ _ ih => exact .unit hu ih

/-- Of the members in `s`, the first one named `n` has the value `v`, spelled
from `s'` up to `t`. -/
inductive FirstMember (n : List Nat) : Bytes → Bytes → Value → Bytes → Prop where
  | here {c : UInt8} {s s₁ s₂ s₃ s₄ s₅ s₆ : Bytes} {v : Value}
    (hw : Ws s (ch '"' :: s₁))
      (hn : Chars s₁ n s₂) (hs : Ws s₂ (ch ':' :: s₃)) (hw' : Ws s₃ s₄)
        (hv : Val s₄ v s₅)
      (hc : Ws s₅ (c :: s₆)) (hend : c = ch ',' ∨ c = ch '}') : FirstMember n s s₄ v s₅
  | later {s s₁ s₂ s₃ s₄ s₅ s₆ s' t : Bytes} {n' : List Nat} {v v' : Value}
      (hw : Ws s (ch '"' :: s₁)) (hn : Chars s₁ n' s₂) (hne : n' ≠ n)
      (hs : Ws s₂ (ch ':' :: s₃)) (hw' : Ws s₃ s₄) (hv : Val s₄ v' s₅)
      (hc : Ws s₅ (ch ',' :: s₆)) (h : FirstMember n s₆ s' v t) : FirstMember n s s' v t

/-- The object text `body` has `v`, spelled from `s` up to `t`, as the value of
its first member named `n`. -/
def First (n : List Nat) (body s : Bytes) (v : Value) (t : Bytes) : Prop :=
  ∃ s₀, Ws body (ch '{' :: s₀) ∧ FirstMember n s₀ s v t

/-- The value of the first member named `n`. -/
def member (n : List Nat) (ms : List (List Nat × Value)) : Option Value :=
  (ms.find? fun m => m.1 = n).map Prod.snd

theorem member_cons_pos {n n' : List Nat} {v : Value} {ms : List (List Nat × Value)}
    (h : n' = n) : member n ((n', v) :: ms) = some v := by
  rw [member, List.find?_cons_of_pos (by simpa using h)]
  rfl

theorem member_cons_neg {n n' : List Nat} {v : Value} {ms : List (List Nat × Value)}
    (h : n' ≠ n) : member n ((n', v) :: ms) = member n ms := by
  rw [member, List.find?_cons_of_neg (by simpa using h)]
  rfl

/-- A name is not found when no member has it. -/
theorem member_eq_none {n : List Nat} {ms : List (List Nat × Value)} :
    member n ms = none ↔ ∀ m ∈ ms, m.1 ≠ n := by
  simp [member, List.find?_eq_none]

/-- The first member of a name stands somewhere in the text. -/
theorem Members.first {n : List Nat} {v : Value} : ∀ {s t : Bytes}
    {ms : List (List Nat × Value)}, Members s ms t → member n ms = some v →
      ∃ s' t', FirstMember n s s' v t'
  | _, _, _, @Members.last _ _ _ _ _ _ _ n' _ hw hn hs hw' hv hc, hm => by
    by_cases hname : n' = n
    · rw [member_cons_pos hname] at hm
      cases hm
      subst hname
      exact ⟨_, _, .here hw hn hs hw' hv hc (Or.inr rfl)⟩
    · rw [member_cons_neg hname] at hm
      cases hm
  | _, _, _, @Members.cons _ _ _ _ _ _ _ _ n' _ _ hw hn hs hw' hv hc h, hm => by
    by_cases hname : n' = n
    · rw [member_cons_pos hname] at hm
      cases hm
      subst hname
      exact ⟨_, _, .here hw hn hs hw' hv hc (Or.inl rfl)⟩
    · rw [member_cons_neg hname] at hm
      obtain ⟨s', t', hf⟩ := Members.first h hm
      exact ⟨s', t', .later hw hn hname hs hw' hv hc hf⟩

/-- So does that of a whole object. -/
theorem Text.first {body : Bytes} {n : List Nat} {v : Value} {ms : List (List Nat × Value)}
    (h : Text body (.obj ms)) (hm : member n ms = some v) : ∃ s t, First n body s v t := by
  obtain ⟨s₁, s₂, hw, hv, -⟩ := h
  cases hv with
  | objNil => cases hm
  | obj hms =>
    obtain ⟨s, t, hf⟩ := hms.first hm
    exact ⟨s, t, _, hw, hf⟩

/-! ## What the lexical rules say about bytes -/

/-- A character outside ASCII is encoded in bytes outside ASCII. -/
theorem utf8EncodeChar_wide {c : Char} (hc : 128 ≤ c.toNat) :
    String.utf8EncodeChar c ≠ [] ∧ ∀ b ∈ String.utf8EncodeChar c, 128 ≤ b.toNat := by
  have hv : c.val.toNat = c.toNat := rfl
  unfold String.utf8EncodeChar
  dsimp only
  rw [hv]
  split
  · omega
  split
  · refine ⟨by simp, ?_⟩
    intro b hb
    simp only [List.mem_cons, List.not_mem_nil, or_false] at hb
    rcases hb with rfl | rfl <;> simp only [UInt8.toNat_ofNat'] <;> omega
  split
  · refine ⟨by simp, ?_⟩
    intro b hb
    simp only [List.mem_cons, List.not_mem_nil, or_false] at hb
    rcases hb with rfl | rfl | rfl <;> simp only [UInt8.toNat_ofNat'] <;> omega
  · refine ⟨by simp, ?_⟩
    intro b hb
    simp only [List.mem_cons, List.not_mem_nil, or_false] at hb
    rcases hb with rfl | rfl | rfl | rfl <;> simp only [UInt8.toNat_ofNat'] <;> omega

/-- A character below 128 is one byte. -/
theorem utf8EncodeChar_ascii {c : Char} (hc : c.toNat < 128) :
    String.utf8EncodeChar c = [UInt8.ofNat c.toNat] := by
  have hv : c.val.toNat = c.toNat := rfl
  unfold String.utf8EncodeChar
  dsimp only
  rw [hv, if_pos (by omega)]

/-- The bytes a number is spelled with. -/
def isNumByte (c : UInt8) : Bool :=
  isDigit c || c == ch '-' || c == ch '+' || c == ch '.' || c == ch 'e' || c == ch 'E'

/-- Digits are bytes of a number. -/
theorem Digits.isNumByte {s : Bytes} (h : Digits s) : ∀ c ∈ s, isNumByte c = true := by
  intro c hc
  unfold Json.isNumByte
  rw [h.2 c hc]
  rfl

/-- A number is not empty and has no other bytes. -/
theorem Number.bytes {s : Bytes} (h : Number s) : s ≠ [] ∧ ∀ c ∈ s, isNumByte c = true := by
  obtain ⟨sign, int, frac, exp, rfl, hsign, hint, -, hfrac, hexp⟩ := h.spelled
  refine ⟨by simp [hint.1], ?_⟩
  intro c hc
  simp only [List.mem_append] at hc
  -- the byte is of the sign, the integer part, the fraction or the exponent
  rcases hc with ((hc | hc) | hc) | hc
  · rcases hsign with rfl | rfl
    · cases hc
    · rw [List.mem_singleton.mp hc]; rfl
  · exact hint.isNumByte c hc
  · rcases hfrac with rfl | ⟨ds, rfl, hds⟩
    · cases hc
    · rcases List.mem_cons.mp hc with rfl | hc
      · rfl
      · exact hds.isNumByte c hc
  · rcases hexp with rfl | ⟨e, sg, ds, rfl, he, hsg, hds⟩
    · cases hc
    · simp only [List.cons_append, List.mem_cons, List.mem_append] at hc
      rcases hc with rfl | hc | hc
      · rcases he with rfl | rfl <;> rfl
      · rcases hsg with rfl | rfl | rfl
        · cases hc
        · rw [List.mem_singleton.mp hc]; rfl
        · rw [List.mem_singleton.mp hc]; rfl
      · exact hds.isNumByte c hc

end Json

import TreeMiner.Submit.Scanner

/-!
# Field extraction on well-formed JSON

`Json.First n body s v t` places the first member named `n` in the body of an
object. The scanner comes to the same value: names are compared decoded, and
every value before it is passed over whole, whatever brackets, commas and quotes
are in it. What it then returns depends on nothing but that value and how it is
spelled (`Extracts`).

The induction is over the derivation of the grammar, one lemma for each rule: what the
scanner does on a string, a number, a nested value, and then on the members one after
the other. Whitespace between tokens is part of the rules.
-/

namespace TreeMiner

open Cxx

/-! ## The value found -/

/-- What is extracted from the value `v` that is spelled from `s` up to `t`. -/
def Extracts (s t : Bytes) (r : Option Bytes) : Json.Value → Prop
  | .null => r = some (lit "null")
  | .bool .true => r = some (lit "true")
  | .bool .false => r = some (lit "false")
  | .num spelling => r = some spelling
  | .str v => ∀ s₁, s = ch '"' :: s₁ → Json.AsciiEscaped s₁ v t → r = some (Json.text v)
  | .arr _ => r = none
  | .obj _ => r = none

/-- An ASCII character is one byte of the text. -/
theorem text_cons_ascii {u : Nat} {v : List Nat} (hu : u < 128) :
    Json.text (u :: v) = UInt8.ofNat u :: Json.text v := by
  have hc : (Char.ofNat u).toNat = u := by
    have hvalid : u.isValidChar := Or.inl (by omega)
    rw [Char.ofNat, dif_pos hvalid]
    rfl
  show String.utf8EncodeChar (Char.ofNat u) ++ Json.text v = _
  rw [Json.utf8EncodeChar_ascii (by omega), hc]
  rfl

/-- A string with ASCII escapes is decoded to its text. -/
theorem stringLoop_escaped {s t : Bytes} {v : List Nat} (h : Json.AsciiEscaped s v t) :
    stringLoop s = some (Json.text v, t) := by
  induction h with
  | close t => exact stringLoop_close
  | @char c s t v _ hq hb _ ih =>
    rw [stringLoop_plain (utf8EncodeChar_raw hq hb), ih]
    have hc : Char.ofNat c.toNat = c := Char.ofNat_toNat c
    show some (String.utf8EncodeChar c ++ Json.text v, t) =
      some (String.utf8EncodeChar (Char.ofNat c.toNat) ++ Json.text v, t)
    rw [hc]
  | esc he _ ih =>
    obtain ⟨hse, hu, hne⟩ := escape_simpleEscape he
    rw [stringLoop_esc hne hse, ih, text_cons_ascii hu]
    rfl
  | unit hu hascii _ ih =>
    rw [stringLoop_unit hu, ih, text_cons_ascii hascii, unitByte, if_pos hascii]
    rfl

/-- A token runs up to the delimiter behind it. -/
theorem takeWhile_token {p t : Bytes} (hp : ∀ c ∈ p, isToken c = true) (ht : Delimited t) :
    (p ++ t).takeWhile (fun c => !endsBare c) = p := by
  rw [List.takeWhile_append_of_pos fun c hc => by simp [(isToken_not (hp c hc)).2.1]]
  cases t with
  | nil => simp
  | cons c t =>
    rw [List.takeWhile_cons_of_neg (by simpa [Delimited] using ht), List.append_nil]

/-- So it is captured whole. -/
theorem captureScalar_token {p t : Bytes} (hne : p ≠ []) (hp : ∀ c ∈ p, isToken c = true)
    (ht : Delimited t) : captureScalar (p ++ t) = some p := by
  obtain ⟨c, p, rfl⟩ := List.exists_cons_of_ne_nil hne
  obtain ⟨hsp, -, hq, ho, -, ho', -⟩ := isToken_not (hp c List.mem_cons_self)
  unfold captureScalar
  rw [List.cons_append, skipWs_cons hsp]
  dsimp only
  rw [if_neg hq,
    if_neg
      (by simp only [ho, ho', decide_false, Bool.or_self, Bool.false_eq_true, not_false_eq_true]), ← List.cons_append, takeWhile_token hp ht]

/-- An object or an array is not captured. -/
theorem captureScalar_nested (k : Kind) {s : Bytes} : captureScalar (k.opn :: s) = none := by
  unfold captureScalar
  rw [skipWs_cons (by cases k <;> rfl)]
  dsimp only
  rw [if_neg (by cases k <;> decide), if_pos (by cases k <;> decide)]

/-- The blanks before a value do not matter. -/
theorem captureScalar_ws {s t : Bytes} (h : Json.Ws s t) : captureScalar s = captureScalar t := by
  unfold captureScalar
  rw [skipWs_ws h]

/-- One case per kind of value. -/
theorem captureScalar_val {s t : Bytes} {v : Json.Value} (h : Json.Val s v t)
    (ht : Delimited t) : Extracts s t (captureScalar s) v := by
  cases h with
  | null => exact captureScalar_token (p := lit "null") (by decide) (by decide) ht
  | true => exact captureScalar_token (p := lit "true") (by decide) (by decide) ht
  | false => exact captureScalar_token (p := lit "false") (by decide) (by decide) ht
  | num t hn =>
    obtain ⟨hne, hb⟩ := hn.bytes
    exact captureScalar_token hne (fun c hc => isToken_of_isNumByte (hb c hc)) ht
  | str _ =>
    intro s₁ hs he
    cases hs
    have hp := stringLoop_escaped he
    unfold captureScalar
    rw [skipWs_cons rfl]
    dsimp only
    rw [if_pos rfl, parseJsonString, if_pos rfl, hp]
    rfl
  | arrNil => exact captureScalar_nested .bracket
  | arr => exact captureScalar_nested .bracket
  | objNil => exact captureScalar_nested .brace
  | obj => exact captureScalar_nested .brace

/-! ## The member found -/

/-- Given turns enough, the member loop ends at the first member of the name. -/
theorem fieldLoop_first {key s s' t : Bytes} {v : Json.Value} (hk : IsPlain key)
    (h : Json.FirstMember (codes key) s s' v t) :
    Delimited t ∧ Json.Val s' v t ∧
      ∃ turns, ∀ fuel, fieldLoop key (turns + fuel) s = captureScalar s' := by
  induction h with
  | here hw hn hs hw' hv hc hend =>
    refine ⟨Delimited.ws hc ?_, hv, 1, fun fuel => ?_⟩
    · rcases hend with rfl | rfl <;> rfl
    · rw [Nat.add_comm, fieldLoop_member hk hw hn hs, if_pos rfl, captureScalar_ws hw']
  | later hw hn hne hs hw' hv hc _ ih =>
    obtain ⟨ht, hv', turns, ih⟩ := ih
    refine ⟨ht, hv', turns + 1, fun fuel => ?_⟩
    rw [Nat.add_right_comm, fieldLoop_member hk hw hn hs, if_neg hne, nextMember_cons hw' hv hc, ih]

/-- The turns that `extractJsonField` grants are enough: it captures the value. -/
theorem extractJsonField_captures {key body s t : Bytes} {v : Json.Value} (hk : IsPlain key)
    (h : Json.First (codes key) body s v t) :
    Delimited t ∧ Json.Val s v t ∧ extractJsonField body key = captureScalar s := by
  obtain ⟨s₀, hw, hf⟩ := h
  obtain ⟨s₁, hs⟩ : ∃ s₁, skipWs s₀ = ch '"' :: s₁ := by
    cases hf with
    | here hw => exact ⟨_, skipWs_ws_cons hw rfl⟩
    | later hw => exact ⟨_, skipWs_ws_cons hw rfl⟩
  obtain ⟨ht, hv, turns, hturns⟩ := fieldLoop_first hk hf
  refine ⟨ht, hv, ?_⟩
  rw [extractJsonField_members hw hs]
  apply fieldLoop_enough (k := turns)
  · rw [hs, List.length_cons]
  · intro n
    rw [fieldLoop_skipWs, hturns n]

/-- A member that is not there is not found. -/
theorem extractJsonField_absent {body key : Bytes} {ms : List (List Nat × Json.Value)}
    (hb : Json.Text body (.obj ms)) (hk : IsPlain key) (hm : ∀ m ∈ ms, m.1 ≠ codes key) :
    extractJsonField body key = none := by
  obtain ⟨s₁, s₂, hw, hv, -⟩ := hb
  cases hv with
  | objNil hend =>
    unfold extractJsonField
    rw [skipWs_ws_cons hw rfl]
    dsimp only
    rw [if_neg (not_not_intro rfl), skipWs_ws_cons hend rfl]
    dsimp only
    rw [if_pos rfl]
  | @obj s _ _ hms =>
    obtain ⟨s', hs⟩ := members_quote hms
    rw [extractJsonField_members hw hs, fieldLoop_skipWs]
    exact members_missing hk hms hm _

/-- The first member of the name decides: its value is extracted, whatever
stands before it and after it, and where there is none, nothing. -/
theorem extractJsonField_spec {body key : Bytes} {ms : List (List Nat × Json.Value)}
    (hb : Json.Text body (.obj ms)) (hk : IsPlain key) :
    (∀ v, Json.member (codes key) ms = some v → ∃ s t, Json.First (codes key) body s v t) ∧
      (∀ s v t, Json.First (codes key) body s v t →
        Extracts s t (extractJsonField body key) v) ∧
      (Json.member (codes key) ms = none → extractJsonField body key = none) := by
  refine ⟨fun v hv => hb.first hv, ?_, ?_⟩
  · intro s v t hf
    obtain ⟨ht, hv, hx⟩ := extractJsonField_captures hk hf
    rw [hx]
    exact captureScalar_val hv ht
  · intro hm
    exact extractJsonField_absent hb hk (Json.member_eq_none.mp hm)

/-! ## An object with nested members -/

/-- A string of printable ASCII without quotes or backslashes is spelled as it
is. -/
theorem escaped_ascii {k t : Bytes}
    (hk : ∀ c ∈ k, 0x20 ≤ c.toNat ∧ c.toNat < 128 ∧ c ≠ ch '"' ∧ c ≠ ch '\\') :
    Json.AsciiEscaped (k ++ ch '"' :: t) (codes k) t := by
  induction k with
  | nil => exact .close t
  | cons c k ih =>
    obtain ⟨hlo, hhi, hq, hb⟩ := hk c List.mem_cons_self
    have hc : (Char.ofNat c.toNat).toNat = c.toNat := by
      have hv : c.toNat.isValidChar := Or.inl (by omega)
      rw [Char.ofNat, dif_pos hv]
      rfl
    have henc : String.utf8EncodeChar (Char.ofNat c.toNat) = [c] := by
      rw [Json.utf8EncodeChar_ascii (by omega), hc, UInt8.ofNat_toNat]
    have hne : ∀ d : Char, c ≠ ch d → Char.ofNat c.toNat ≠ d := by
      rintro d hd rfl
      rw [ch, hc, UInt8.ofNat_toNat] at hd
      exact hd rfl
    have h := Json.AsciiEscaped.char (c := Char.ofNat c.toNat) (by omega) (hne _ hq) (hne _ hb)
      (ih fun x hx => hk x (List.mem_cons_of_mem _ hx))
    rwa [henc, hc] at h

/-- A plain name of ASCII characters spells itself. -/
theorem chars_ascii {k t : Bytes}
    (hk : ∀ c ∈ k, 0x20 ≤ c.toNat ∧ c.toNat < 128 ∧ c ≠ ch '"' ∧ c ≠ ch '\\') :
    Json.Chars (k ++ ch '"' :: t) (codes k) t :=
  (escaped_ascii hk).chars

/-- `"\u0041,"` and the end of the object. -/
def nestedValue : Bytes :=
  ch '"' :: ch '\\' :: ch 'u' :: ch '0' :: ch '0' :: ch '4' :: ch '1' ::
    (lit "," ++ ch '"' :: [ch '}'])

/-- `"k": "\u0041,"` behind a member with brackets of both kinds, one of them
in a string, and a nested `k`. -/
def nestedBody : Bytes :=
  lit "\x7b\"n\":[\"]\x7d\",\x7b\"k\":1\x7d],\"k\":\"\\u0041,\"\x7d"

def nestedMembers : List (List Nat × Json.Value) :=
  [(codes (lit "n"), .arr [.str (codes (lit "]\x7d")), .obj [(codes (lit "k"), .num (lit "1"))]]),
    (codes (lit "k"), .str (codes (lit "A,")))]

/-- The sample body, byte by byte, so that the grammar can be followed along it. -/
theorem nestedBody_spelled : nestedBody = ch '{' :: ch '"' :: (lit "n" ++ ch '"' :: ch ':' ::
    ch '[' :: ch '"' :: (lit "]\x7d" ++ ch '"' :: ch ',' :: ch '{' :: ch '"' ::
      (lit "k" ++ ch '"' :: ch ':' :: (lit "1" ++ ch '}' :: ch ']' :: ch ',' :: ch '"' ::
        (lit "k" ++ ch '"' :: ch ':' :: nestedValue))))) := by
  decide

theorem nestedValue_str : Json.AsciiEscaped (nestedValue.drop 1) (codes (lit "A,")) [ch '}'] :=
  .unit rfl (by decide) (escaped_ascii (by decide))

theorem number_one : Json.Number (lit "1") :=
  ⟨[], lit "1", [], [], rfl, Or.inl rfl, ⟨by decide, by decide⟩,
    Or.inr (by decide), Or.inl rfl, Or.inl rfl⟩

/-- The value of `n`. -/
theorem nested_array {t : Bytes} : Json.Val (ch '[' :: ch '"' :: (lit "]\x7d" ++ ch '"' :: ch ',' ::
    ch '{' :: ch '"' :: (lit "k" ++ ch '"' :: ch ':' :: (lit "1" ++ ch '}' :: ch ']' :: t))))
    (.arr [.str (codes (lit "]\x7d")), .obj [(codes (lit "k"), .num (lit "1"))]]) t := by
  have hobj : Json.Members (ch '"' :: (lit "k" ++ ch '"' :: ch ':' :: (lit "1" ++ ch '}' ::
      ch ']' :: t))) [(codes (lit "k"), .num (lit "1"))] (ch ']' :: t) :=
    .last (.nil _) (chars_ascii (by decide)) (.nil _) (.nil _) (.num _ number_one) (.nil _)
  exact .arr (.cons (.nil _) (.str (chars_ascii (by decide))) (.nil _)
    (.last (.nil _) (.obj hobj) (.nil _)))

/-- The sample body is a JSON text of the object it was made from. -/
theorem nestedBody_text : Json.Text nestedBody (.obj nestedMembers) := by
  rw [nestedBody_spelled]
  have hlast : Json.Members (ch '"' :: (lit "k" ++ ch '"' :: ch ':' :: nestedValue))
      [(codes (lit "k"), .str (codes (lit "A,")))] [] :=
    .last (.nil _) (chars_ascii (by decide)) (.nil _) (.nil _)
      (.str nestedValue_str.chars) (.nil _)
  have hmembers := Json.Members.cons (.nil _) (chars_ascii (k := lit "n") (by decide))
    (.nil _) (.nil _) nested_array (.nil _) hlast
  exact ⟨_, [], .nil _, .obj hmembers, .nil _⟩

/-- Its first member with that name is the outer one; the one in the nested value does not count. -/
theorem nestedBody_first : Json.First (codes (lit "k")) nestedBody nestedValue
    (.str (codes (lit "A,"))) [ch '}'] := by
  rw [nestedBody_spelled]
  have hlast : Json.FirstMember (codes (lit "k")) (ch '"' :: (lit "k" ++ ch '"' :: ch ':' ::
      nestedValue)) nestedValue (.str (codes (lit "A,"))) [ch '}'] :=
    .here (.nil _) (chars_ascii (by decide)) (.nil _) (.nil _)
      (.str nestedValue_str.chars) (.nil _) (Or.inr rfl)
  exact ⟨_, .nil _, .later (.nil _) (chars_ascii (k := lit "n") (by decide))
    (by decide) (.nil _) (.nil _) nested_array (.nil _) hlast⟩

theorem extractJsonField_spec_nested :
    Json.First (codes (lit "k")) nestedBody nestedValue (.str (codes (lit "A,"))) [ch '}'] ∧
      extractJsonField nestedBody (lit "k") = some (lit "A,") ∧
      extractJsonField nestedBody (lit "m") = none := by
  have hk : IsPlain (lit "k") := by unfold IsPlain; decide
  have hm : IsPlain (lit "m") := by unfold IsPlain; decide
  refine ⟨nestedBody_first, ?_, ?_⟩
  · rw [(extractJsonField_spec nestedBody_text hk).2.1 _ _ _ nestedBody_first _ rfl
      nestedValue_str]
    decide
  · exact (extractJsonField_spec nestedBody_text hm).2.2 (by decide)

end TreeMiner

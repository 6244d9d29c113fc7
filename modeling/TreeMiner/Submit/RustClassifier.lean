import TreeMiner.Submit.Scanner

/-!
# `treeminer-protocol/src/classifier.rs`: the port of the classifier

The Rust classifier scans the bytes of a `&str` with positions, where the model of the
C++ one moves along suffixes. Both are loops over the same text, so each Rust function
at position `i` is compared with its sibling on `s.drop i`: they give the same value and
stop at the same place (`skip_ws_drop`, `string_loop_drop`, `nested_loop_drop`,
`field_loop_drop`).

Two things tell the scanners apart. `u8::is_ascii_whitespace` does not count vertical
tab, which `std::isspace` does; and a byte past ASCII is pushed as a `char`, so it is
encoded again. Both are the reason for `Plain`.
-/

namespace TreeMiner.RustClassifier

open Cxx

/-! ## The scanner -/

/-- `u8::is_ascii_whitespace`. -/
def isAsciiWhitespace (c : UInt8) : Bool :=
  c == 9 || c == 10 || c == 12 || c == 13 || c == 32

/-- `char::is_whitespace`: the Unicode property White_Space. -/
def isWhitespace (c : Char) : Bool :=
  let n := c.toNat
  (9 ≤ n && n ≤ 13) || n == 0x20 || n == 0x85 || n == 0xA0 || n == 0x1680 ||
    (0x2000 ≤ n && n ≤ 0x200A) || n == 0x2028 || n == 0x2029 || n == 0x202F || n == 0x205F ||
    n == 0x3000

/-- `is_blank`. -/
def isBlank (s : String) : Bool := s.toList.all isWhitespace

/-- `skip_ws`. -/
def skipWs (s : Bytes) (i : Nat) : Nat :=
  if h : i < s.length then
    if isAsciiWhitespace s[i] then skipWs s (i + 1) else i
  else i
termination_by s.length - i

/-- `String::push` of `char::from(c)`, as bytes. -/
def pushed (c : UInt8) : Bytes := String.utf8EncodeChar (Char.ofNat c.toNat)

/-- The arms of the escape that stand for one character. -/
def unescape (e : UInt8) : Option UInt8 :=
  if e = ch '"' then some (ch '"')
  else if e = ch '\\' then some (ch '\\')
  else if e = ch '/' then some (ch '/')
  else if e = ch 'b' then some 0x08
  else if e = ch 'f' then some 0x0c
  else if e = ch 'n' then some (ch '\n')
  else if e = ch 'r' then some (ch '\r')
  else if e = ch 't' then some (ch '\t')
  else none

/-- One digit of a `\u` escape. -/
def hexDigit (h : UInt8) : Option Nat :=
  if ch '0' ≤ h && h ≤ ch '9' then some (h.toNat - 48)
  else if ch 'a' ≤ h && h ≤ ch 'f' then some (h.toNat - 97 + 10)
  else if ch 'A' ≤ h && h ≤ ch 'F' then some (h.toNat - 65 + 10)
  else none

/-- The digits of a `\u` escape, from the left. -/
def hexCode : Nat → Bytes → Option Nat
  | code, [] => some code
  | code, h :: hs =>
    match hexDigit h with
    | some v => hexCode (code * 16 + v) hs
    | none => none

/-- What a `\u` escape pushes. -/
def unitChar (code : Nat) : Bytes :=
  if code < 0x80 then pushed (UInt8.ofNat code) else pushed (ch '?')

/-- The loop of `parse_json_string`: the text and the position after the quote. -/
def stringLoop (s : Bytes) (i : Nat) (out : Bytes) : Option (Bytes × Nat) :=
  if h : i < s.length then
    if s[i] = ch '"' then some (out, i + 1)
    else if s[i] = ch '\\' then
      if he : i + 1 < s.length then
        if s[i + 1] = ch 'u' then
          if i + 1 + 4 < s.length then
            match hexCode 0 ((s.drop (i + 2)).take 4) with
            | none => none
            | some code =>
              stringLoop s (i + 6) (out ++ unitChar code)
          else none
        else
          match unescape s[i + 1] with
          | none => none
          | some b => stringLoop s (i + 2) (out ++ pushed b)
      else none
    else stringLoop s (i + 1) (out ++ pushed s[i])
  else none
termination_by s.length - i

/-- `parse_json_string`. -/
def parseJsonString (s : Bytes) (i : Nat) : Option (Bytes × Nat) :=
  if h : i < s.length then
    if s[i] ≠ ch '"' then none else stringLoop s (i + 1) []
  else none

/-- The index goes forward: a string that ends has at least its closing quote. -/
theorem string_loop_lt {s : Bytes} {i : Nat} {out : Bytes} {r : Bytes × Nat}
    (h : stringLoop s i out = some r) : i < r.2 := by
  fun_induction stringLoop s i out with
  | case1 i out hi hq =>
    cases h
    exact Nat.lt_succ_self i
  | case3 i out hi hq hb he hu hl code hc ih =>
    have := ih h
    omega
  | case6 i out hi hq hb he hu b hc ih =>
    have := ih h
    omega
  | case8 i out hi hq hb ih =>
    have := ih h
    omega
  | _ => cases h

theorem parse_json_string_lt {s : Bytes} {i : Nat} {r : Bytes × Nat}
    (h : parseJsonString s i = some r) : i < r.2 := by
  unfold parseJsonString at h
  split at h
  · split at h
    · cases h
    · have := string_loop_lt h
      omega
  · cases h

/-- Where a bare token ends. -/
def endsBare (c : UInt8) : Bool :=
  c == ch ',' || c == ch '}' || c == ch ']' || isAsciiWhitespace c

/-- The loop over a bare token. -/
def bareEnd (s : Bytes) (i : Nat) : Nat :=
  if h : i < s.length then
    if endsBare s[i] then i else bareEnd s (i + 1)
  else i
termination_by s.length - i

/-- One level deeper at an opening bracket. -/
def opened (c opn : UInt8) (depth : Int) : Int := if c = opn then depth + 1 else depth

/-- The bracket loop of `skip_json_value`. -/
def nestedLoop (s : Bytes) (opn cls : UInt8) (i : Nat) (depth : Int) : Option Nat :=
  if h : i < s.length then
    if s[i] = ch '"' then
      match hp : parseJsonString s i with
      | none => none
      | some (_, i') => nestedLoop s opn cls i' depth
    else
      if s[i] = cls then
        if opened s[i] opn depth - 1 = 0 then some (i + 1)
        else nestedLoop s opn cls (i + 1) (opened s[i] opn depth - 1)
      else nestedLoop s opn cls (i + 1) (opened s[i] opn depth)
  else none
termination_by s.length - i
decreasing_by
  · have := parse_json_string_lt hp
    omega
  all_goals omega

/-- `skip_json_value`. -/
def skipJsonValue (s : Bytes) (i : Nat) : Option Nat :=
  let i := skipWs s i
  if h : i < s.length then
    if s[i] = ch '"' then (parseJsonString s i).map Prod.snd
    else if s[i] = ch '{' || s[i] = ch '[' then
      nestedLoop s s[i] (if s[i] = ch '{' then ch '}' else ch ']') i 0
    else some (bareEnd s i)
  else none

/-- `capture_scalar`. -/
def captureScalar (s : Bytes) (i : Nat) : Option Bytes :=
  let i := skipWs s i
  if h : i < s.length then
    if s[i] = ch '"' then (parseJsonString s i).map Prod.fst
    else if s[i] = ch '{' || s[i] = ch '[' then none
    else some ((s.drop i).take (bareEnd s i - i))
  else none

/-- The skipping of blanks does not go back. -/
theorem le_skip_ws {s : Bytes} {i : Nat} : i ≤ skipWs s i := by
  fun_induction skipWs s i with
  | case1 i h hw ih => omega
  | case2 | case3 => exact le_rfl

/-- Nor does the search for the end of a bare value. -/
theorem le_bare_end {s : Bytes} {i : Nat} : i ≤ bareEnd s i := by
  fun_induction bareEnd s i with
  | case2 i h hw ih => omega
  | case1 | case3 => exact le_rfl

/-- Nor the skipping of a nested value. -/
theorem nested_loop_le {s : Bytes} {opn cls : UInt8} {i j : Nat} {depth : Int}
    (h : nestedLoop s opn cls i depth = some j) : i ≤ j := by
  fun_induction nestedLoop s opn cls i depth with
  | case2 i depth hi hq out i' hp ih =>
    have h₁ := ih h
    have h₂ := parse_json_string_lt hp
    omega
  | case3 i depth hi hq hc hd =>
    cases h
    omega
  | case4 i depth hi hq hc hd ih =>
    have := ih h
    omega
  | case5 i depth hi hq hc ih =>
    have := ih h
    omega
  | _ => cases h

/-- Nor that of any value. -/
theorem skip_json_value_le {s : Bytes} {i j : Nat} (h : skipJsonValue s i = some j) : i ≤ j := by
  have hws : i ≤ skipWs s i := le_skip_ws
  unfold skipJsonValue at h
  dsimp only at h
  split at h
  · split at h
    · obtain ⟨r, hr, rfl⟩ := Option.map_eq_some_iff.mp h
      have := parse_json_string_lt hr
      omega
    split at h
    · exact Nat.le_trans hws (nested_loop_le h)
    · cases h
      exact Nat.le_trans hws le_bare_end
  · cases h

/-- The member loop of `extract_json_field`. -/
def fieldLoop (s key : Bytes) (i : Nat) : Option Bytes :=
  if i < s.length then
    match hk : parseJsonString s (skipWs s i) with
    | none => none
    | some (k, i₁) =>
      if h : skipWs s i₁ < s.length then
        if s[skipWs s i₁] ≠ ch ':' then none
        else if k = key then captureScalar s (skipWs s i₁ + 1)
        else
          match hv : skipJsonValue s (skipWs s i₁ + 1) with
          | none => none
          | some i₂ =>
            if h₂ : skipWs s i₂ < s.length then
              if s[skipWs s i₂] = ch ',' then fieldLoop s key (skipWs s i₂ + 1) else none
            else none
      else none
  else none
termination_by s.length - i
decreasing_by
  have h₁ : i ≤ skipWs s i := le_skip_ws
  have h₂ := parse_json_string_lt hk
  have h₃ : i₁ ≤ skipWs s i₁ := le_skip_ws
  have h₄ := skip_json_value_le hv
  have h₅ : i₂ ≤ skipWs s i₂ := le_skip_ws
  omega

/-- `extract_json_field`. -/
def extractJsonField (body key : Bytes) : Option Bytes :=
  let i := skipWs body 0
  if h : i < body.length then
    if body[i] ≠ ch '{' then none
    else
      let i := skipWs body (i + 1)
      if h : i < body.length then
        if body[i] = ch '}' then none else fieldLoop body key i
      else fieldLoop body key i
  else none

/-- `extract_json_message`. -/
def extractJsonMessage (body : Bytes) : Option Bytes :=
  (extractJsonField body (lit "message")).or (extractJsonField body (lit "error"))

/-! ## Numbers -/

/-- `u8::is_ascii_digit`. -/
def isAsciiDigit (c : UInt8) : Bool := ch '0' ≤ c && c ≤ ch '9'

/-- `str::find`: the first place where the needle stands. -/
def find (needle : Bytes) : Bytes → Option Nat
  | [] => if needle = [] then some 0 else none
  | c :: s => if needle.isPrefixOf (c :: s) then some 0 else (find needle s).map (· + 1)

/-- The digit loop of `parse_difficulty_hint`. -/
def hintDigits (s : Bytes) (d value : Nat) : Option Nat :=
  if h : d < s.length then
    if isAsciiDigit s[d] then
      let value := value * 10 + (s[d].toNat - 48)
      if value > 0xFFFFFFFF then none else hintDigits s (d + 1) value
    else some value
  else some value
termination_by s.length - d

/-- A needle that is found stands inside the text. -/
theorem find_lt {needle : Bytes} (hn : needle ≠ []) : ∀ {s : Bytes} {n : Nat},
    find needle s = some n → n < s.length
  | [], n, h => by
    rw [find, if_neg hn] at h
    cases h
  | c :: s, n, h => by
    rw [find] at h
    split at h
    · cases h
      exact Nat.zero_lt_succ _
    · obtain ⟨m, hm, rfl⟩ := Option.map_eq_some_iff.mp h
      exact Nat.succ_lt_succ (find_lt hn hm)

/-- The search loop of `parse_difficulty_hint`. -/
def hintLoop (message : Bytes) (search_from : Nat) : Option UInt32 :=
  match hf : find (lit "m=") (message.drop search_from) with
  | none => none
  | some rel =>
    if h : search_from + rel + 2 < message.length then
      if isAsciiDigit message[search_from + rel + 2] then
        (hintDigits message (search_from + rel + 2) 0).map UInt32.ofNat
      else hintLoop message (search_from + rel + 1)
    else hintLoop message (search_from + rel + 1)
termination_by message.length - search_from
decreasing_by
  all_goals
    have hlt := find_lt (by decide) hf
    rw [List.length_drop] at hlt
    omega

/-- `parse_difficulty_hint`. -/
def parseDifficultyHint (message : Bytes) : Option UInt32 := hintLoop message 0

/-- The digit loop of `parse_retry_after_seconds`: the value and where it stopped. -/
def retryDigits (s : Bytes) (i value : Nat) : Option (Nat × Nat) :=
  if h : i < s.length then
    if isAsciiDigit s[i] then
      if value > 100000000 then none
      else retryDigits s (i + 1) (value * 10 + (s[i].toNat - 48))
    else some (value, i)
  else some (value, i)
termination_by s.length - i

/-- `parse_retry_after_seconds`. -/
def parseRetryAfterSeconds (header_value : Bytes) : Option Nat :=
  let i := skipWs header_value 0
  if h : i < header_value.length then
    if isAsciiDigit header_value[i] then
      match retryDigits header_value i 0 with
      | none => none
      | some (value, i) => if skipWs header_value i ≠ header_value.length then
        none else some value
    else none
  else none

/-! ## The truth table -/

/-- `classify_with_retry_after`. The text is a `&str`; its bytes are `lit`. -/
def classifyWithRetryAfter (http_status : Int) (body : String) (kind : FindKind)
    (retry_after : Option String) : Classification :=
  if http_status ≤ 0 then pending (lit "transport failure; will retry with backoff")
  else if lit body = [] || isBlank body then
    pending (lit "empty response body (http " ++ toDecimalInt http_status ++
      lit "); will retry with backoff")
  else
    let message := (extractJsonMessage (lit body)).getD (lit body)
    if http_status = 200 then
      { next_status := .AcceptedUnconfirmed
        server_difficulty_hint := none
        needs_lookup_confirmation := true
        reason := lit "http 200; awaiting /get_block confirmation" }
    else if http_status = 429 then
      let c := pending (lit "rate limited (429)")
      match retry_after with
      | some header =>
        match parseRetryAfterSeconds (lit header) with
        | some secs => { c with reason := c.reason ++ (lit "; retry_after_s=" ++ toDecimal secs) }
        | none => c
      | none => c
    else if http_status = 408 || http_status = 425 || http_status ≥ 500 then
      pending (lit "server unhealthy (http " ++ toDecimalInt http_status ++
        lit "); will retry with backoff")
    else if http_status = 400 then
      if contains (lit "already exists") message then
        { next_status := .AcceptedUnconfirmed
          server_difficulty_hint := none
          needs_lookup_confirmation := true
          reason := lit "duplicate key (already exists); confirming via /get_block" }
      else quarantined (lit "unrecognized 400: " ++ message)
    else if http_status = 401 then
      if contains (lit "Hash verification failed") message then
        { next_status := .PermanentlyInvalid
          server_difficulty_hint := none
          needs_lookup_confirmation := false
          reason := lit "server rejected: hash verification failed" }
      else if contains (lit "outside of proper time frame") message ||
          contains (lit "outside of time window") message then
        if kind = .XUNI then
          { next_status := .ParkedXuniWindow
            server_difficulty_hint := none
            needs_lookup_confirmation := false
            reason := lit "XUNI outside server time window; parked for a later window" }
        else quarantined
          (lit
            "IMPOSSIBLE: XUNI-window rejection for a XEN11 record — server semantics changed, investigate: " ++ message)
      else
        match parseDifficultyHint message with
        | some hint =>
          { next_status := .ParkedDifficulty
            server_difficulty_hint := some hint
            needs_lookup_confirmation := false
            reason := lit "difficulty too low (server currently at m=" ++ toDecimal hint.toNat ++
              lit "); parked until difficulty falls" }
        | none => quarantined (lit "unrecognized 401: " ++ message)
    else quarantined (lit "unrecognized response (http " ++ toDecimalInt http_status ++
      lit "): " ++ message)

/-! ## The two scanners take the same way -/

/-- A byte both scanners treat alike. -/
def Plain (s : Bytes) : Prop := ∀ c ∈ s, c < 128 ∧ c ≠ 0x0B

section Alike

variable {s : Bytes} {i : Nat}

/-- The blanks of Rust are those of C++ but for the vertical tab. -/
theorem space_of_plain {c : UInt8} (hc : c ≠ 0x0B) : isAsciiWhitespace c = isSpace c := by
  revert hc
  exact forall_byte (P := fun c => c ≠ 0x0B → isAsciiWhitespace c = isSpace c)
    (by decide +kernel) c

/-- So are the delimiters of a bare value. -/
theorem ends_of_plain {c : UInt8} (hc : c ≠ 0x0B) : endsBare c = TreeMiner.endsBare c := by
  unfold endsBare TreeMiner.endsBare
  rw [space_of_plain hc]

/-- An ASCII byte is pushed as one byte of UTF-8. -/
theorem pushed_of_ascii {c : UInt8} (hc : c < 128) : pushed c = [c] := by
  revert hc
  exact forall_byte (P := fun c => c < 128 → pushed c = [c]) (by decide +kernel) c

theorem digit_eq (c : UInt8) : isAsciiDigit c = isDigit c := rfl

theorem unescape_eq (e : UInt8) : unescape e = simpleEscape e := rfl

theorem hex_digit_eq (h : UInt8) : hexDigit h = hexVal h :=
  forall_byte (P := fun c => hexDigit c = hexVal c) (by decide +kernel) h

/-- The Rust scanner keeps an index where the C++ one keeps a pointer: what is left behind the index
is what the pointer points to. -/
theorem skip_ws_drop (hs : Plain s) : s.drop (skipWs s i) = TreeMiner.skipWs (s.drop i) := by
  fun_induction skipWs s i with
  | case1 i h hw ih =>
    rw [ih, List.drop_eq_getElem_cons h]
    rw [space_of_plain (hs _ (List.getElem_mem h)).2] at hw
    show _ = List.dropWhile isSpace _
    rw [List.dropWhile_cons, if_pos hw]
    rfl
  | case2 i h hw =>
    rw [space_of_plain (hs _ (List.getElem_mem h)).2] at hw
    rw [List.drop_eq_getElem_cons h]
    show _ = List.dropWhile isSpace _
    rw [List.dropWhile_cons, if_neg hw]
  | case3 i h =>
    rw [List.drop_eq_nil_of_le (Nat.le_of_not_lt h)]
    rfl

/-- Four hexadecimal digits are read alike. -/
theorem hex_code_eq (a b c d : UInt8) : hexCode 0 [a, b, c, d] = hex4 a b c d := by
  simp only [hexCode, hex_digit_eq, hex4]
  cases hexVal a <;> cases hexVal b <;> cases hexVal c <;> cases hexVal d <;> simp

/-- A code unit is shown alike. -/
theorem unit_char_eq (code : Nat) : unitChar code = [unitByte code] := by
  unfold unitChar unitByte
  split
  next h =>
    refine pushed_of_ascii ?_
    rw [UInt8.lt_iff_toNat_lt, UInt8.toNat_ofNat_of_lt' (show code < 256 by omega)]
    exact h
  next => exact pushed_of_ascii (by decide)

/-- An escape stands for an ASCII character. -/
theorem unescape_ascii {e b : UInt8} (h : simpleEscape e = some b) : b < 128 := by
  have hall : ∀ e, (simpleEscape e).all (· < 128) = true :=
    forall_byte (P := fun e => (simpleEscape e).all (· < 128) = true) (by decide +kernel)
  have he := hall e
  rw [h] at he
  exact of_decide_eq_true he

/-- An escape that is cut off by the end of the text ends the string with a failure. -/
theorem stringLoop_short {t : Bytes} (ht : t.length < 4) :
    TreeMiner.stringLoop (ch '\\' :: ch 'u' :: t) = none := by
  rw [TreeMiner.stringLoop.eq_def]
  obtain _ | ⟨a, _ | ⟨b, _ | ⟨c, _ | ⟨d, t⟩⟩⟩⟩ := t
  · rfl
  · rfl
  · rfl
  · rfl
  · simp only [List.length_cons] at ht
    omega

/-- The digits of a `\u` escape. -/
theorem four_digits {i : Nat} (h : i + 1 + 4 < s.length) :
    (s.drop (i + 2)).take 4 = [s[i + 1 + 1], s[i + 1 + 1 + 1], s[i + 1 + 1 + 1 + 1],
      s[i + 1 + 1 + 1 + 1 + 1]] := by
  rw [List.drop_eq_getElem_cons (show i + 2 < _ by omega),
    List.drop_eq_getElem_cons (show i + 2 + 1 < _ by omega),
    List.drop_eq_getElem_cons (show i + 2 + 1 + 1 < _ by omega),
    List.drop_eq_getElem_cons (show i + 2 + 1 + 1 + 1 < _ by omega)]
  rfl

/-- The loops of the two string parsers: same text, same place. -/
theorem string_loop_drop (hs : Plain s) (out : Bytes) :
    (stringLoop s i out).map (fun r => (r.1, s.drop r.2)) =
      (TreeMiner.stringLoop (s.drop i)).map fun r => (out ++ r.1, r.2) := by
  -- case by case of the Rust loop; the C++ loop takes the same branch on the text that is left
  fun_induction stringLoop s i out with
  | case1 i out h hq =>
    rw [List.drop_eq_getElem_cons h, hq, stringLoop_close]
    simp
  | case2 i out h hq hb he hu hl hc =>
    rw [four_digits hl, hex_code_eq] at hc
    rw [List.drop_eq_getElem_cons h, List.drop_eq_getElem_cons he, hb, hu,
      List.drop_eq_getElem_cons (show i + 1 + 1 < _ by omega),
      List.drop_eq_getElem_cons (show i + 1 + 1 + 1 < _ by omega),
      List.drop_eq_getElem_cons (show i + 1 + 1 + 1 + 1 < _ by omega),
      List.drop_eq_getElem_cons (show i + 1 + 1 + 1 + 1 + 1 < _ by omega)]
    rw [TreeMiner.stringLoop]
    simp only [hc]
    rfl
  | case3 i out h hq hb he hu hl code hc ih =>
    rw [four_digits hl, hex_code_eq] at hc
    rw [ih, List.drop_eq_getElem_cons h, List.drop_eq_getElem_cons he, hb, hu,
      List.drop_eq_getElem_cons (show i + 1 + 1 < _ by omega),
      List.drop_eq_getElem_cons (show i + 1 + 1 + 1 < _ by omega),
      List.drop_eq_getElem_cons (show i + 1 + 1 + 1 + 1 < _ by omega),
      List.drop_eq_getElem_cons (show i + 1 + 1 + 1 + 1 + 1 < _ by omega),
      stringLoop_unit hc, unit_char_eq]
    simp [Option.map_map, Function.comp_def]
  | case4 i out h hq hb he hu hl =>
    have hshort : (s.drop (i + 1 + 1)).length < 4 := by
      rw [List.length_drop]
      omega
    rw [List.drop_eq_getElem_cons h, List.drop_eq_getElem_cons he, hb, hu, stringLoop_short hshort]
    rfl
  | case5 i out h hq hb he hu hc =>
    rw [unescape_eq] at hc
    rw [List.drop_eq_getElem_cons h, List.drop_eq_getElem_cons he, hb, TreeMiner.stringLoop.eq_def]
    simp only [if_neg hu, hc]
    rfl
  | case6 i out h hq hb he hu b hc ih =>
    rw [unescape_eq] at hc
    rw [ih, List.drop_eq_getElem_cons h, List.drop_eq_getElem_cons he, hb, stringLoop_esc hu hc,
      pushed_of_ascii (unescape_ascii hc)]
    simp [Option.map_map, Function.comp_def]
  | case7 i out h hq hb he =>
    rw [List.drop_eq_getElem_cons h, hb, List.drop_eq_nil_of_le (Nat.le_of_not_lt he)]
    rfl
  | case8 i out h hq hb ih =>
    rw [ih, List.drop_eq_getElem_cons h, stringLoop_char hq hb,
      pushed_of_ascii (hs _ (List.getElem_mem h)).1]
    simp [Option.map_map, Function.comp_def]
  | case9 i out h =>
    rw [List.drop_eq_nil_of_le (Nat.le_of_not_lt h)]
    rfl

/-- A string is parsed alike, up to the same place. -/
theorem parse_json_string_drop (hs : Plain s) :
    (parseJsonString s i).map (fun r => (r.1, s.drop r.2)) =
      TreeMiner.parseJsonString (s.drop i) := by
  unfold parseJsonString
  split
  next h =>
    rw [List.drop_eq_getElem_cons h, TreeMiner.parseJsonString]
    by_cases hq : s[i] = ch '"'
    · rw [if_neg (not_not.mpr hq), if_pos hq, string_loop_drop hs]
      simp
    · rw [if_pos hq, if_neg hq]
      rfl
  next h =>
    rw [List.drop_eq_nil_of_le (Nat.le_of_not_lt h)]
    rfl

/-- A bare value ends at the same place, and is the same bytes. -/
theorem bare_end_drop (hs : Plain s) :
    s.drop (bareEnd s i) = (s.drop i).dropWhile (fun c => !TreeMiner.endsBare c) ∧
      (s.drop i).take (bareEnd s i - i) =
        (s.drop i).takeWhile (fun c => !TreeMiner.endsBare c) := by
  fun_induction bareEnd s i with
  | case1 i h hw =>
    rw [ends_of_plain (hs _ (List.getElem_mem h)).2] at hw
    rw [List.drop_eq_getElem_cons h, List.dropWhile_cons, List.takeWhile_cons]
    simp [hw]
  | case2 i h hw ih =>
    rw [ends_of_plain (hs _ (List.getElem_mem h)).2] at hw
    have hle : i + 1 ≤ bareEnd s (i + 1) := le_bare_end
    rw [ih.1, List.drop_eq_getElem_cons h, List.dropWhile_cons, List.takeWhile_cons,
      show bareEnd s (i + 1) - i = (bareEnd s (i + 1) - (i + 1)) + 1 by omega, List.take_succ_cons,
      ih.2]
    simp [hw]
  | case3 i h =>
    rw [List.drop_eq_nil_of_le (Nat.le_of_not_lt h)]
    simp

/-- The bracket loops, from a position inside the brackets. -/
theorem nested_loop_drop (hs : Plain s) {opn cls : UInt8} (hne : opn ≠ cls) {depth : Int}
    {fuel d : Nat} (hf : (s.drop i).length ≤ fuel) (hd : depth = d) (h1 : 1 ≤ d) :
    (nestedLoop s opn cls i depth).map (s.drop ·) = skipNested opn cls fuel d (s.drop i) := by
  -- the position moves up the text while the fuel of the other loop goes down with what is left
  fun_induction nestedLoop s opn cls i depth generalizing fuel d with
  | case1 i depth h hq hp =>
    have hp' := parse_json_string_drop (i := i) hs
    rw [List.drop_eq_getElem_cons h] at hf hp' ⊢
    rw [hp] at hp'
    obtain ⟨n, rfl⟩ := Nat.exists_eq_succ_of_ne_zero (Nat.ne_zero_of_lt hf)
    rw [skipNested, if_pos hq, ← hp']
    rfl
  -- a string is passed over whole, so brackets in it do not count
  | case2 i depth h hq out i' hp ih =>
    have hp' := parse_json_string_drop (i := i) hs
    have hlt := parse_json_string_lt hp
    have hlen : (s.drop i').length < (s.drop i).length := by
      rw [List.length_drop, List.length_drop]
      dsimp only at hlt
      omega
    rw [List.drop_eq_getElem_cons h] at hf hp' hlen ⊢
    rw [hp] at hp'
    obtain ⟨n, rfl⟩ := Nat.exists_eq_succ_of_ne_zero (Nat.ne_zero_of_lt hf)
    rw [skipNested, if_pos hq, ← hp']
    exact ih (by omega) hd h1
  | case3 i depth h hq hc hz =>
    rw [List.drop_eq_getElem_cons h] at hf ⊢
    obtain ⟨n, rfl⟩ := Nat.exists_eq_succ_of_ne_zero (Nat.ne_zero_of_lt hf)
    have ho : s[i] ≠ opn := fun ho => hne (ho.symm.trans hc)
    rw [opened, if_neg ho] at hz
    rw [skipNested, if_neg hq, if_neg ho, if_pos hc, if_pos (by omega)]
    rfl
  | case4 i depth h hq hc hz ih =>
    rw [List.drop_eq_getElem_cons h] at hf ⊢
    obtain ⟨n, rfl⟩ := Nat.exists_eq_succ_of_ne_zero (Nat.ne_zero_of_lt hf)
    have ho : s[i] ≠ opn := fun ho => hne (ho.symm.trans hc)
    rw [opened, if_neg ho] at hz ih ⊢
    rw [skipNested, if_neg hq, if_neg ho, if_pos hc, if_neg (by omega)]
    exact ih (Nat.le_of_succ_le_succ hf) (by omega) (by omega)
  | case5 i depth h hq hc ih =>
    rw [List.drop_eq_getElem_cons h] at hf ⊢
    obtain ⟨n, rfl⟩ := Nat.exists_eq_succ_of_ne_zero (Nat.ne_zero_of_lt hf)
    rw [skipNested, if_neg hq]
    by_cases ho : s[i] = opn
    · rw [opened, if_pos ho] at ih ⊢
      rw [if_pos ho]
      exact ih (Nat.le_of_succ_le_succ hf) (by omega) (by omega)
    · rw [opened, if_neg ho] at ih ⊢
      rw [if_neg ho, if_neg hc]
      exact ih (Nat.le_of_succ_le_succ hf) hd h1
  | case6 i depth h =>
    rw [List.drop_eq_nil_of_le (Nat.le_of_not_lt h)]
    cases fuel <;> rfl

/-- The first bracket, then the loop. -/
theorem brackets_drop (hs : Plain s) {opn cls : UInt8} (hne : opn ≠ cls) (hq : opn ≠ ch '"')
    (h : i < s.length) (ho : s[i] = opn) :
    (nestedLoop s opn cls i 0).map (s.drop ·) =
      skipNested opn cls ((s.drop (i + 1)).length + 1) 0 (opn :: s.drop (i + 1)) := by
  rw [nestedLoop, dif_pos h]
  simp only [ho, opened, if_neg hq, if_pos, if_neg hne]
  rw [nested_loop_drop hs hne le_rfl (show (0 : Int) + 1 = (1 : Nat) by rfl) le_rfl, skipNested,
    if_neg hq, if_pos rfl]

/-- A value is skipped up to the same place. -/
theorem skip_json_value_drop (hs : Plain s) :
    (skipJsonValue s i).map (s.drop ·) = TreeMiner.skipJsonValue (s.drop i) := by
  unfold skipJsonValue TreeMiner.skipJsonValue
  rw [← skip_ws_drop hs]
  dsimp only
  split
  next h =>
    -- the value is told by its first byte: a string, a nested value, or a scalar
    have hcons := List.drop_eq_getElem_cons h
    rw [hcons]
    dsimp only
    by_cases hq : s[skipWs s i] = ch '"'
    · rw [if_pos hq, if_pos hq, ← hcons, ← parse_json_string_drop hs, Option.map_map,
        Option.map_map]
      rfl
    rw [if_neg hq, if_neg hq]
    by_cases hb : s[skipWs s i] = ch '{'
    · rw [if_pos hb, if_pos (by simp [hb]), hb, if_pos rfl]
      exact brackets_drop hs (by decide) (by decide) h hb
    by_cases hk : s[skipWs s i] = ch '['
    · rw [if_neg hb, if_pos hk, if_pos (by simp [hk]), hk, if_neg (by decide)]
      exact brackets_drop hs (by decide) (by decide) h hk
    · have hneither : ¬ (decide (s[skipWs s i] = ch '{') || decide (s[skipWs s i] = ch '[')) =
          true := by
        rw [decide_eq_false hb, decide_eq_false hk]
        decide
      rw [if_neg hneither, if_neg hb, if_neg hk, ← hcons]
      exact congrArg some (bare_end_drop hs).1
  next h =>
    rw [List.drop_eq_nil_of_le (Nat.le_of_not_lt h)]
    rfl

/-- A scalar is captured alike. -/
theorem capture_scalar_drop (hs : Plain s) :
    captureScalar s i = TreeMiner.captureScalar (s.drop i) := by
  unfold captureScalar TreeMiner.captureScalar
  rw [← skip_ws_drop hs]
  dsimp only
  split
  next h =>
    have hcons := List.drop_eq_getElem_cons h
    rw [(bare_end_drop hs).2, hcons]
    dsimp only
    by_cases hq : s[skipWs s i] = ch '"'
    · rw [if_pos hq, if_pos hq, ← hcons, ← parse_json_string_drop hs, Option.map_map]
      rfl
    · rw [if_neg hq, if_neg hq]
  next h =>
    rw [List.drop_eq_nil_of_le (Nat.le_of_not_lt h)]

/-- One turn of the member loop on a suffix, told in positions. -/
theorem fieldLoop_at (hs : Plain s) {key : Bytes} {fuel : Nat} :
    TreeMiner.fieldLoop key (fuel + 1) (s.drop i) =
      match parseJsonString s (skipWs s i) with
      | none => none
      | some (k, i₁) =>
        if h : skipWs s i₁ < s.length then
          if s[skipWs s i₁] ≠ ch ':' then none
          else if k = key then captureScalar s (skipWs s i₁ + 1)
          else
            match skipJsonValue s (skipWs s i₁ + 1) with
            | none => none
            | some i₂ =>
              if h₂ : skipWs s i₂ < s.length then
                if s[skipWs s i₂] = ch ',' then
                  TreeMiner.fieldLoop key fuel (s.drop (skipWs s i₂ + 1))
                else none
              else none
        else none := by
  rw [TreeMiner.fieldLoop, ← skip_ws_drop hs, ← parse_json_string_drop hs]
  cases hk : parseJsonString s (skipWs s i) with
  | none => rfl
  | some r =>
    obtain ⟨k, i₁⟩ := r
    simp only [Option.map_some]
    rw [← skip_ws_drop hs]
    by_cases h : skipWs s i₁ < s.length
    swap
    · rw [dif_neg h, List.drop_eq_nil_of_le (Nat.le_of_not_lt h)]
    rw [dif_pos h, List.drop_eq_getElem_cons h]
    simp only [capture_scalar_drop hs, ← skip_json_value_drop hs]
    -- no colon behind the name: both give up
    split
    · rfl
    split
    · rfl
    -- another member: its value is passed over and the loop goes on behind the comma
    cases hv : skipJsonValue s (skipWs s i₁ + 1) with
    | none => rfl
    | some i₂ =>
      simp only [Option.map_some]
      rw [← skip_ws_drop hs]
      by_cases h₂ : skipWs s i₂ < s.length
      · rw [dif_pos h₂, List.drop_eq_getElem_cons h₂]
      · rw [dif_neg h₂, List.drop_eq_nil_of_le (Nat.le_of_not_lt h₂)]

/-- The member loops. -/
theorem field_loop_drop (hs : Plain s) {key : Bytes} {fuel : Nat}
    (hf : (s.drop i).length ≤ fuel) :
    fieldLoop s key i = TreeMiner.fieldLoop key fuel (s.drop i) := by
  have hstep : ∀ {i fuel}, i < s.length → (s.drop i).length ≤ fuel →
    ∃ n, fuel = n + 1 := by
    intro i fuel hi hf
    rw [List.length_drop] at hf
    exact ⟨fuel - 1, by omega⟩
  -- only the case that goes on needs the fuel: the position has moved by at least one
  fun_induction fieldLoop s key i generalizing fuel with
  | case1 i hi hk =>
    obtain ⟨n, rfl⟩ := hstep hi hf
    simp only [fieldLoop_at hs, hk]
  | case2 i hi k i₁ hk h hc =>
    obtain ⟨n, rfl⟩ := hstep hi hf
    simp only [fieldLoop_at hs, hk, dif_pos h, if_pos hc]
  | case3 i hi i₁ h hc hk =>
    obtain ⟨n, rfl⟩ := hstep hi hf
    simp only [fieldLoop_at hs, hk, dif_pos h, if_neg hc, if_true]
  | case4 i hi k i₁ hk h hc hne hv =>
    obtain ⟨n, rfl⟩ := hstep hi hf
    simp only [fieldLoop_at hs, hk, dif_pos h, if_neg hc, if_neg hne, hv]
  | case5 i hi k i₁ hk h hc hne i₂ hv h₂ hcomma ih =>
    obtain ⟨n, rfl⟩ := hstep hi hf
    simp only [fieldLoop_at hs, hk, dif_pos h, if_neg hc, if_neg hne, hv, dif_pos h₂,
      if_pos hcomma]
    refine ih ?_
    have hle₁ : i ≤ skipWs s i := le_skip_ws
    have hlt := parse_json_string_lt hk
    have hle₂ : i₁ ≤ skipWs s i₁ := le_skip_ws
    have hle₃ := skip_json_value_le hv
    have hle₄ : i₂ ≤ skipWs s i₂ := le_skip_ws
    rw [List.length_drop] at hf ⊢
    dsimp only at hlt
    omega
  | case6 i hi k i₁ hk h hc hne i₂ hv h₂ hcomma =>
    obtain ⟨n, rfl⟩ := hstep hi hf
    simp only [fieldLoop_at hs, hk, dif_pos h, if_neg hc, if_neg hne, hv, dif_pos h₂,
      if_neg hcomma]
  | case7 i hi k i₁ hk h hc hne i₂ hv h₂ =>
    obtain ⟨n, rfl⟩ := hstep hi hf
    simp only [fieldLoop_at hs, hk, dif_pos h, if_neg hc, if_neg hne, hv, dif_neg h₂]
  | case8 i hi k i₁ hk h =>
    obtain ⟨n, rfl⟩ := hstep hi hf
    simp only [fieldLoop_at hs, hk, dif_neg h]
  | case9 i hi =>
    rw [List.drop_eq_nil_of_le (Nat.le_of_not_lt hi)]
    cases fuel <;> rfl

/-- On plain texts the two scanners extract the same field. -/
theorem extract_json_field_eq (hs : Plain s) (key : Bytes) :
    extractJsonField s key = TreeMiner.extractJsonField s key := by
  -- Rust works with an index into the body where C++ has the rest of it; each step is carried over
  -- by `drop`
  have hfirst : s.drop (skipWs s 0) = TreeMiner.skipWs s := skip_ws_drop hs
  unfold extractJsonField TreeMiner.extractJsonField
  rw [← hfirst]
  dsimp only
  split
  next h =>
    rw [List.drop_eq_getElem_cons h]
    dsimp only
    rw [← skip_ws_drop hs]
    split
    · rfl
    split
    next h₂ =>
      rw [List.drop_eq_getElem_cons h₂]
      dsimp only
      split
      · rfl
      · rw [← List.drop_eq_getElem_cons h₂]
        refine field_loop_drop hs ?_
        rw [List.length_drop, List.length_drop]
        omega
    next h₂ =>
      rw [fieldLoop, if_neg h₂, List.drop_eq_nil_of_le (Nat.le_of_not_lt h₂)]
  next h =>
    rw [List.drop_eq_nil_of_le (Nat.le_of_not_lt h)]

/-- So they read the same message, under whichever of its names. -/
theorem extract_json_message_eq (hs : Plain s) :
    extractJsonMessage s = TreeMiner.extractJsonMessage s := by
  unfold extractJsonMessage TreeMiner.extractJsonMessage
  rw [extract_json_field_eq hs, extract_json_field_eq hs]
  cases TreeMiner.extractJsonField s (lit "message") <;> rfl

/-- The digits of a hint are summed up alike, with the same bound. -/
theorem hint_digits_drop {d value : Nat} :
    hintDigits s d value = TreeMiner.hintDigits value (s.drop d) := by
  fun_induction hintDigits s d value with
  | case1 d value h hd v hv =>
    rw [digit_eq] at hd
    rw [List.drop_eq_getElem_cons h, TreeMiner.hintDigits, if_pos hd]
    exact (if_pos hv).symm
  | case2 d value h hd v hv ih =>
    rw [digit_eq] at hd
    rw [List.drop_eq_getElem_cons h, TreeMiner.hintDigits, if_pos hd, ih]
    exact (if_neg hv).symm
  | case3 d value h hd =>
    rw [digit_eq] at hd
    rw [List.drop_eq_getElem_cons h, TreeMiner.hintDigits, if_neg hd]
  | case4 d value h =>
    rw [List.drop_eq_nil_of_le (Nat.le_of_not_lt h)]
    rfl

theorem lit_hint : lit "m=" = [ch 'm', ch '='] := by decide

/-- The hint of a text: at its first `m=`, or past it. -/
theorem parseDifficultyHint_find : ∀ s : Bytes, TreeMiner.parseDifficultyHint s =
    match find (lit "m=") s with
    | none => none
    | some n =>
      match s.drop (n + 2) with
      | d :: t =>
        if isDigit d then (TreeMiner.hintDigits 0 (d :: t)).map UInt32.ofNat
        else TreeMiner.parseDifficultyHint (s.drop (n + 1))
      | [] => TreeMiner.parseDifficultyHint (s.drop (n + 1))
  | [] => by
    rw [find, if_neg (by decide)]
    rfl
  | c :: s => by
    rw [find]
    by_cases hp : (lit "m=").isPrefixOf (c :: s) = true
    · rw [if_pos hp]
      rw [lit_hint] at hp
      match s, hp with
      | [], hp => exact absurd hp (by simp [List.isPrefixOf])
      | e :: t, hp =>
        simp only [List.isPrefixOf, Bool.and_eq_true, beq_iff_eq, and_true] at hp
        obtain ⟨rfl, rfl⟩ := hp
        cases t with
        | nil => rfl
        | cons d t => rfl
    · -- no match here: both go on
      rw [if_neg hp]
      have hgo : TreeMiner.parseDifficultyHint (c :: s) = TreeMiner.parseDifficultyHint s := by
        rw [lit_hint] at hp
        by_cases hm : ∃ e d t, (c == ch 'm') = true ∧ s = e :: d :: t
        · obtain ⟨e, d, t, hc, rfl⟩ := hm
          have he : ¬ (e == ch '=' && isDigit d) = true := by
            intro he
            refine hp ?_
            simp only [List.isPrefixOf, Bool.and_eq_true, beq_iff_eq, and_true] at hc he ⊢
            exact ⟨hc.symm, he.1.symm⟩
          rw [beq_iff_eq] at hc
          rw [hc]
          exact if_neg he
        · rw [TreeMiner.parseDifficultyHint]
          intro e d t hc hs
          exact hm ⟨e, d, t, hc, hs⟩
      rw [hgo, parseDifficultyHint_find s]
      cases find (lit "m=") s <;> rfl

/-- The search goes on from an index instead of in what is left. -/
theorem hint_loop_drop {message : Bytes} {search_from : Nat} :
    hintLoop message search_from = TreeMiner.parseDifficultyHint (message.drop search_from) := by
  fun_induction hintLoop message search_from with
  | case1 k hf =>
    rw [parseDifficultyHint_find, hf]
  | case2 k rel hf h hd =>
    rw [digit_eq] at hd
    rw [parseDifficultyHint_find, hf]
    dsimp only
    rw [List.drop_drop, ← Nat.add_assoc, List.drop_eq_getElem_cons h]
    simp only [if_pos hd]
    rw [hint_digits_drop, List.drop_eq_getElem_cons h]
  | case3 k rel hf h hd ih =>
    rw [digit_eq] at hd
    rw [parseDifficultyHint_find, hf]
    dsimp only
    rw [List.drop_drop, List.drop_drop, ← Nat.add_assoc, ← Nat.add_assoc,
      List.drop_eq_getElem_cons h, ih]
    exact (if_neg hd).symm
  | case4 k rel hf h ih =>
    rw [parseDifficultyHint_find, hf]
    dsimp only
    rw [List.drop_drop, List.drop_drop, ← Nat.add_assoc, ← Nat.add_assoc,
      List.drop_eq_nil_of_le (Nat.le_of_not_lt h), ih]

/-- The digits of `Retry-After` are summed up alike. -/
theorem retry_digits_drop {value : Nat} :
    (retryDigits s i value).map (fun r => (r.1, s.drop r.2)) =
      TreeMiner.retryDigits value (s.drop i) := by
  fun_induction retryDigits s i value with
  | case1 i value h hd hv =>
    rw [digit_eq] at hd
    rw [List.drop_eq_getElem_cons h, TreeMiner.retryDigits, if_pos hd, if_pos hv]
    rfl
  | case2 i value h hd hv ih =>
    rw [digit_eq] at hd
    rw [ih, List.drop_eq_getElem_cons h, TreeMiner.retryDigits, if_pos hd, if_neg hv]
  | case3 i value h hd =>
    rw [digit_eq] at hd
    rw [Option.map_some, List.drop_eq_getElem_cons h, TreeMiner.retryDigits, if_neg hd]
  | case4 i value h =>
    rw [Option.map_some, List.drop_eq_nil_of_le (Nat.le_of_not_lt h)]
    rfl

/-- The index stays within the header. -/
theorem retry_digits_le {value : Nat} {r : Nat × Nat} (hi : i ≤ s.length)
    (h : retryDigits s i value = some r) : r.2 ≤ s.length := by
  fun_induction retryDigits s i value with
  | case1 => cases h
  | case2 i value hlt hd hv ih => exact ih hlt h
  | case3 i value hlt hd =>
    cases h
    exact hi
  | case4 i value hlt =>
    cases h
    exact hi

/-- So does the skipping of blanks. -/
theorem skip_ws_le_length (hi : i ≤ s.length) : skipWs s i ≤ s.length := by
  fun_induction skipWs s i with
  | case1 i h hw ih => exact ih h
  | case2 | case3 => exact hi

/-- On plain headers both read the same seconds. -/
theorem parse_retry_after_seconds_eq (hs : Plain s) :
    parseRetryAfterSeconds s = TreeMiner.parseRetryAfterSeconds s := by
  have hfirst : s.drop (skipWs s 0) = TreeMiner.skipWs s := skip_ws_drop hs
  unfold parseRetryAfterSeconds TreeMiner.parseRetryAfterSeconds
  rw [← hfirst]
  dsimp only
  split
  next h =>
    rw [List.drop_eq_getElem_cons h]
    dsimp only
    rw [digit_eq]
    split
    swap
    · rfl
    rw [← List.drop_eq_getElem_cons h, ← retry_digits_drop]
    cases hr : retryDigits s (skipWs s 0) 0 with
    | none => rfl
    | some r =>
      obtain ⟨value, j⟩ := r
      dsimp only [Option.map_some]
      rw [← skip_ws_drop hs]
      have hj : skipWs s j ≤ s.length := skip_ws_le_length (retry_digits_le (Nat.le_of_lt h) hr)
      by_cases hend : skipWs s j = s.length
      · rw [if_neg (not_not.mpr hend), if_pos (List.drop_eq_nil_of_le (Nat.le_of_eq hend.symm))]
      · rw [if_pos hend, if_neg]
        rw [List.drop_eq_nil_iff]
        omega
  next h =>
    rw [List.drop_eq_nil_of_le (Nat.le_of_not_lt h)]

end Alike

/-! ## The two classifiers -/

/-- Text of ASCII characters without vertical tab. -/
def PlainText (s : String) : Prop := ∀ c ∈ s.toList, c.toNat < 128 ∧ c.toNat ≠ 0x0B

section Texts

variable {s : String}

/-- An ASCII character is its own byte. -/
theorem utf8_of_ascii {c : Char} (hc : c.toNat < 128) :
    String.utf8EncodeChar c = [UInt8.ofNat c.toNat] := by
  unfold String.utf8EncodeChar
  have hle : c.val.toNat ≤ 127 := Nat.le_of_lt_succ hc
  simp only [hle, if_true]
  rfl

/-- A plain text is its characters, as bytes. -/
theorem lit_plain (hs : PlainText s) : lit s = s.toList.map fun c => UInt8.ofNat c.toNat := by
  unfold lit
  rw [List.map_eq_flatMap]
  exact List.flatMap_congr fun c hc => utf8_of_ascii (hs c hc).1

/-- So the bytes of a plain text are plain. -/
theorem plain_lit (hs : PlainText s) : Plain (lit s) := by
  intro b hb
  rw [lit_plain hs] at hb
  obtain ⟨c, hc, rfl⟩ := List.mem_map.mp hb
  obtain ⟨hlt, hvt⟩ := hs c hc
  have hnat : (UInt8.ofNat c.toNat).toNat = c.toNat :=
    UInt8.toNat_ofNat_of_lt' (show c.toNat < 256 by omega)
  refine ⟨?_, fun heq => hvt ?_⟩
  · rw [UInt8.lt_iff_toNat_lt, hnat]
    exact hlt
  · rw [← hnat, heq]
    rfl

/-- On plain texts a body is blank for both or for none. -/
theorem is_blank_eq (hs : PlainText s) : isBlank s = TreeMiner.isBlank (lit s) := by
  unfold isBlank TreeMiner.isBlank
  rw [lit_plain hs, List.all_map]
  rw [Bool.eq_iff_iff, List.all_eq_true, List.all_eq_true]
  refine forall₂_congr fun c hc => ?_
  obtain ⟨hlt, -⟩ := hs c hc
  have hnat : (UInt8.ofNat c.toNat).toNat = c.toNat :=
    UInt8.toNat_ofNat_of_lt' (show c.toNat < 256 by omega)
  show isWhitespace c = true ↔ isSpace (UInt8.ofNat c.toNat) = true
  simp only [isWhitespace, isSpace, Bool.or_eq_true, Bool.and_eq_true, beq_iff_eq,
    decide_eq_true_eq, ← UInt8.toNat_inj, UInt8.le_iff_toNat_le, hnat]
  simp
  omega

end Texts

/-- The classification, branch by branch: status, reason, hint and retry time are the same. -/
theorem classify_with_retry_after_eq {http_status : Int} {body : String} {kind : FindKind}
    {retry_after : Option String} (hbody : PlainText body)
    (hretry : ∀ header, retry_after = some header → PlainText header) :
    classifyWithRetryAfter http_status body kind retry_after =
      classify http_status (lit body) kind (retry_after.map lit) := by
  have hempty : (decide (lit body = []) || isBlank body) = TreeMiner.isBlank (lit body) := by
    rw [is_blank_eq hbody]
    cases lit body with
    | nil => rfl
    | cons c s => rfl
  have hsecs : ∀ header, retry_after = some header →
      parseRetryAfterSeconds (lit header) = TreeMiner.parseRetryAfterSeconds (lit header) :=
    fun header hh => parse_retry_after_seconds_eq (plain_lit (hretry header hh))
  unfold classifyWithRetryAfter classify
  rw [hempty, extract_json_message_eq (plain_lit hbody)]
  refine ite_congr rfl (fun _ => rfl) fun _ => ?_
  refine ite_congr rfl (fun _ => rfl) fun _ => ?_
  refine ite_congr rfl (fun _ => rfl) fun _ => ?_
  refine ite_congr rfl (fun _ => ?_) fun _ => ?_
  · -- the header is looked at only here
    cases retry_after with
    | none => rfl
    | some header =>
      dsimp only [Option.map_some, Option.bind_some]
      rw [hsecs header rfl]
      cases TreeMiner.parseRetryAfterSeconds (lit header) with
      | none => rfl
      | some secs => simp [pending]
  refine ite_congr rfl (fun _ => rfl) fun _ => ?_
  refine ite_congr rfl (fun _ => rfl) fun _ => ?_
  refine ite_congr rfl (fun _ => ?_) fun _ => rfl
  refine ite_congr rfl (fun _ => rfl) fun _ => ?_
  refine ite_congr rfl (fun _ => ?_) fun _ => ?_
  · cases kind <;> rfl
  · rw [parseDifficultyHint, hint_loop_drop, List.drop_zero]
    rfl

/-- For every status, kind, body and `Retry-After` of ASCII text without vertical tab,
the two classifiers give the same answer. -/
theorem classifiers_agree (http_status : Int) (body : String) (kind : FindKind)
    (retry_after : Option String) (hbody : PlainText body)
    (hretry : ∀ header, retry_after = some header → PlainText header) :
    classifyWithRetryAfter http_status body kind retry_after =
      classify http_status (lit body) kind (retry_after.map lit) :=
  classify_with_retry_after_eq hbody hretry

/-- A refusal that names the difficulty, with blanks and an escape. -/
def refusal : String := "\x7b \"error\" : \"m\\u003d80000 is required\" \x7d"

theorem classifiers_agree_refusal :
    PlainText refusal ∧ (classifyWithRetryAfter 401 refusal .XEN11 none).server_difficulty_hint =
      some 80000 := by
  have hall : refusal.toList.all (fun c => decide (c.toNat < 128 ∧ c.toNat ≠ 0x0B)) = true := by
    decide
  have hplain : PlainText refusal := fun c hc => of_decide_eq_true (List.all_eq_true.mp hall c hc)
  refine ⟨hplain, ?_⟩
  rw [classifiers_agree 401 refusal .XEN11 none hplain fun _ h => (by cases h)]
  decide +kernel

end TreeMiner.RustClassifier

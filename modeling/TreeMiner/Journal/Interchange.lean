import TreeMiner.Journal.RustSink
import TreeMiner.Journal.SinkRoundTrip

/-!
# One file format, two programs

The C++ and the Rust sink have an encoder and a decoder each. Both encoders write
the members of a payload with the same quoting (`escape_byte_eq`), so a line of
either is the same text but for the rate (`lineBody`). Both decoders are the flat
object parser with a string reader of their own; the Rust one adds that a string
has to be UTF-8 and that `\u` names no surrogate, and neither stops what was
written from UTF-8 strings.
-/

namespace TreeMiner

open Cxx FallbackSink

/-- The text of a line with this text for the rate. -/
def lineBody (rate : Bytes) (p : FoundPayload) : Bytes :=
  ch '{' :: (joined (lineMembers rate p) ++ [ch '}'])

namespace RustSink

/-! ## Quoting -/

/-- The two escape tables are one. -/
theorem escape_byte_eq : ∀ c : UInt8, escapeByte c = FallbackSink.escapeByte c :=
  forall_byte (by decide +kernel)

/-- The Rust string writer escapes as the C++ one does. -/
theorem append_json_string_eq (out value : Bytes) :
    appendJsonString out value = out ++ quote value := by
  unfold appendJsonString quote
  rw [show escapeByte = FallbackSink.escapeByte from funext escape_byte_eq]
  simp

/-- A line of the Rust sink: the same members, with its own text for the rate. -/
theorem serialize_eq (to_string : Double → Bytes) (p : FoundPayload) :
    serialize to_string p = lineBody (formatRate to_string p.hashes_per_second) p ++ [nl] := by
  have hkind : ∀ k, asStr k = kindName k := by
    intro k
    cases k with
    | XEN11 => rfl
    | XUNI => rfl
  unfold serialize lineBody lineMembers
  simp only [joined, memberText, FieldText.text, appendField, appendRawField,
    append_json_string_eq, hkind, if_true, Bool.false_eq_true, if_false, List.append_assoc,
    List.cons_append, List.nil_append]

/-! ## UTF-8 -/

theorem wide_of_isCont {c : UInt8} (h : isCont c = true) : ¬ c < 0x80 := by
  unfold isCont at h
  rw [Bool.and_eq_true, decide_eq_true_eq] at h
  exact UInt8.not_lt.mpr h.1

theorem wide_of_second3 {a b : UInt8} (h : second3 a b = true) : ¬ b < 0x80 := by
  unfold second3 at h
  split at h
  · rw [Bool.and_eq_true, decide_eq_true_eq] at h
    exact UInt8.not_lt.mpr (UInt8.le_trans (by decide) h.1)
  split at h
  · rw [Bool.and_eq_true, decide_eq_true_eq] at h
    exact UInt8.not_lt.mpr h.1
  · rw [Bool.and_eq_true] at h
    exact wide_of_isCont h.2

theorem wide_of_second4 {a b : UInt8} (h : second4 a b = true) : ¬ b < 0x80 := by
  unfold second4 at h
  split at h
  · rw [Bool.and_eq_true, decide_eq_true_eq] at h
    exact UInt8.not_lt.mpr (UInt8.le_trans (by decide) h.1)
  split at h
  · rw [Bool.and_eq_true, decide_eq_true_eq] at h
    exact UInt8.not_lt.mpr h.1
  · rw [Bool.and_eq_true] at h
    exact wide_of_isCont h.2

/-- ASCII in front does not matter. -/
theorem isUtf8_ascii {t : Bytes} : ∀ {s : Bytes}, IsAscii s → isUtf8 (s ++ t) = isUtf8 t
  | [], _ => rfl
  | c :: s, h => by
    rw [List.cons_append, isUtf8.eq_def]
    dsimp only
    rw [if_pos (h c List.mem_cons_self)]
    exact isUtf8_ascii fun x hx => h x (List.mem_cons_of_mem _ hx)

/-- A string between quotes keeps the line UTF-8: what is escaped is ASCII, and
a longer character is left as it is. -/
theorem isUtf8_escaped {s t : Bytes} (h : isUtf8 s = true) :
    isUtf8 (s.flatMap FallbackSink.escapeByte ++ t) = isUtf8 t := by
  have hnarrow : ∀ c : UInt8, c < 0x80 → ∀ x ∈ FallbackSink.escapeByte c, x < 128 :=
    forall_byte (by decide +kernel)
  have hwide : ∀ c : UInt8, ¬ c < 0x80 → FallbackSink.escapeByte c = [c] :=
    forall_byte (by decide +kernel)
  -- character by character: only ASCII bytes are escaped, and what stands for them is ASCII again
  fun_induction isUtf8 s with
  | case1 => rfl
  | case2 a s ha ih =>
    rw [List.flatMap_cons, List.append_assoc, isUtf8_ascii (hnarrow a ha)]
    exact ih h
  | case3 a ha => cases h
  | case4 a ha b s hlead ih =>
    rw [Bool.and_eq_true] at h
    rw [List.flatMap_cons, List.flatMap_cons, hwide a ha, hwide b (wide_of_isCont h.1)]
    show isUtf8 (a :: b :: (s.flatMap FallbackSink.escapeByte ++ t)) = _
    rw [isUtf8.eq_def]
    dsimp only
    rw [if_neg ha, if_pos hlead, h.1, ih h.2, Bool.true_and]
  | case5 a ha b hlead => cases h
  | case6 a ha b hlead c s hle ih =>
    rw [Bool.and_eq_true, Bool.and_eq_true] at h
    rw [List.flatMap_cons, List.flatMap_cons, List.flatMap_cons, hwide a ha,
      hwide b (wide_of_second3 h.1.1), hwide c (wide_of_isCont h.1.2)]
    show isUtf8 (a :: b :: c :: (s.flatMap FallbackSink.escapeByte ++ t)) = _
    rw [isUtf8.eq_def]
    dsimp only
    rw [if_neg ha, if_neg hlead, if_pos hle, h.1.1, h.1.2, ih h.2, Bool.true_and, Bool.true_and]
  | case7 a ha b hlead c hle => cases h
  | case8 a ha b hlead c hle d s ih =>
    rw [Bool.and_eq_true, Bool.and_eq_true, Bool.and_eq_true] at h
    rw [List.flatMap_cons, List.flatMap_cons, List.flatMap_cons, List.flatMap_cons, hwide a ha,
      hwide b (wide_of_second4 h.1.1.1), hwide c (wide_of_isCont h.1.1.2),
      hwide d (wide_of_isCont h.1.2)]
    show isUtf8 (a :: b :: c :: d :: (s.flatMap FallbackSink.escapeByte ++ t)) = _
    rw [isUtf8.eq_def]
    dsimp only
    rw [if_neg ha, if_neg hlead, if_neg hle, h.1.1.1, h.1.1.2, h.1.2, ih h.2, Bool.true_and,
      Bool.true_and, Bool.true_and]

/-- A quoted text is valid UTF-8 when the text is. -/
theorem isUtf8_quote {v t : Bytes} (h : isUtf8 v = true) : isUtf8 (quote v ++ t) = isUtf8 t := by
  have hq : IsAscii [ch '"'] := by
    unfold IsAscii
    decide
  show isUtf8 ([ch '"'] ++ (v.flatMap FallbackSink.escapeByte ++ [ch '"'] ++ t)) = _
  rw [isUtf8_ascii hq, List.append_assoc, isUtf8_escaped h, isUtf8_ascii hq]

/-- So is a number or a name, which has ASCII characters only. -/
theorem isUtf8_token {r t : Bytes} (h : IsToken r) : isUtf8 (r ++ t) = isUtf8 t := by
  have hnarrow : ∀ c : UInt8, isRateByte c = true → c < 128 := forall_byte (by decide +kernel)
  exact isUtf8_ascii fun c hc => hnarrow c (h.2 c hc)

/-- The strings of a member are UTF-8. -/
def Utf8Member (m : Member) : Prop :=
  isUtf8 m.1 = true ∧
    match m.2 with
    | .str v => isUtf8 v = true
    | .raw r => IsToken r

/-- And a member of the line. -/
theorem isUtf8_memberText {m : Member} {t : Bytes} (h : Utf8Member m) :
    isUtf8 (memberText m ++ t) = isUtf8 t := by
  have hcolon : IsAscii [ch ':'] := by
    unfold IsAscii
    decide
  obtain ⟨k, v⟩ := m
  show isUtf8 (quote k ++ ([ch ':'] ++ v.text) ++ t) = _
  rw [List.append_assoc, List.append_assoc, isUtf8_quote h.1, isUtf8_ascii hcolon]
  cases v with
  | str v => exact isUtf8_quote h.2
  | raw r => exact isUtf8_token h.2

/-- And all the members with their commas. -/
theorem isUtf8_joined {t : Bytes} : ∀ {ms : List Member}, (∀ m ∈ ms, Utf8Member m) →
    isUtf8 (joined ms ++ t) = isUtf8 t
  | [], _ => rfl
  | [m], h => isUtf8_memberText (h m List.mem_cons_self)
  | m :: m' :: ms, h => by
    have hcomma : IsAscii [ch ','] := by
      unfold IsAscii
      decide
    show isUtf8 (memberText m ++ ([ch ','] ++ joined (m' :: ms)) ++ t) = _
    rw [List.append_assoc, List.append_assoc, isUtf8_memberText (h m List.mem_cons_self),
      isUtf8_ascii hcomma]
    exact isUtf8_joined fun x hx => h x (List.mem_cons_of_mem _ hx)

/-! ## The Rust decoder -/

/-- The Rust loop over a string is the common loop with its own treatment of escapes. -/
theorem string_loop_eq (s : Bytes) : stringLoop s = stringLoopWith unitBytes s := by
  fun_induction stringLoop s with
  | case1 => rw [stringLoopWith]
  | _ =>
    rw [stringLoopWith.eq_def]
    simp only [if_true, if_false, *]

/-- Control characters are no surrogates. -/
theorem readsControl_unitBytes : ReadsControl unitBytes := by
  unfold ReadsControl
  decide

/-- A quoted UTF-8 string is read back. -/
theorem reads_parse_json_string {v : Bytes} (h : isUtf8 v = true) : Reads parseJsonString v := by
  intro t
  show parseJsonString (ch '"' :: (v.flatMap FallbackSink.escapeByte ++ [ch '"'] ++ t)) = _
  rw [parseJsonString, if_pos rfl, string_loop_eq, List.append_assoc, List.singleton_append,
    stringLoopWith_escaped readsControl_unitBytes]
  dsimp only
  rw [if_pos h]

/-- The Rust reading of a value, with its string reader. -/
theorem parse_value_eq (s : Bytes) : parseValue s = valueWith parseJsonString s := by
  cases s with
  | nil => rfl
  | cons c s => rfl

/-- The Rust loop over the members, with its string reader. -/
theorem members_loop_eq : ∀ (fuel : Nat) (fields : Fields) (s : Bytes),
    membersLoop fuel fields s = loopWith parseJsonString fuel fields s
  | 0, _, _ => rfl
  | fuel + 1, fields, s => by
    have hvalue : parseValue = valueWith parseJsonString := funext parse_value_eq
    have hrest : membersLoop fuel = loopWith parseJsonString fuel := by
      funext fields s
      exact members_loop_eq fuel fields s
    rw [membersLoop, hvalue, hrest]
    rfl

/-- The Rust reading of a line, with its string reader. -/
theorem parse_flat_object_eq (line : Bytes) :
    parseFlatObject line = objectWith parseJsonString line := by
  have hloop : membersLoop = loopWith parseJsonString := by
    funext fuel fields s
    exact members_loop_eq fuel fields s
  unfold parseFlatObject
  rw [hloop]
  rfl

/-- `str::parse::<u64>` reads back what `to_string` wrote. -/
theorem parse_u64_toDecimal {n : Nat} (h : n < 2 ^ 64) : parseU64 (toDecimal n) = some n := by
  obtain ⟨hne, hall, hval⟩ := digits_spec (n + 1) n (Nat.lt_succ_self n)
  have hdig : ∀ c : UInt8, isDigit c = true → c ≠ ch '-' ∧ c ≠ ch '+' :=
    forall_byte (by decide +kernel)
  obtain ⟨c, s, hcs⟩ : ∃ c s, toDecimal n = c :: s := List.exists_cons_of_ne_nil hne
  have hmem : c ∈ digits (n + 1) n := by
    rw [show digits (n + 1) n = c :: s from hcs]
    exact List.mem_cons_self
  obtain ⟨hminus, hplus⟩ := hdig c (hall c hmem)
  have hhead : (toDecimal n).head? = some c := by rw [hcs]; rfl
  have hval' : digitsVal 0 (toDecimal n) = n := hval
  have hsign : ¬ (toDecimal n = [] ∨ some c = some (ch '-')) := by
    rintro (hnil | hc)
    · exact hne hnil
    · exact hminus (Option.some.inj hc)
  have hno : ¬ some c = some (ch '+') := fun hc => hplus (Option.some.inj hc)
  unfold parseU64
  simp only [hhead, if_neg hsign, if_neg hno, hval']
  rw [if_neg]
  rintro (hnil | hnot | hbig)
  · exact hne hnil
  · exact hnot (List.all_eq_true.mpr hall)
  · omega

/-- The fields of a line make its payload when the rate is read back. -/
theorem payload_from_fields_line {parse_f64 : Bytes → Option Double} {rate : Bytes}
    {p : FoundPayload} {fields : Fields} (h : LineFields rate p fields)
    (hrate : parse_f64 rate = some p.hashes_per_second) :
    payloadFromFields parse_f64 fields = some p := by
  have hcost : p.memory_cost.toNat < 2 ^ 32 := p.memory_cost.toNat_lt
  have hattempts : p.attempts.toNat < 2 ^ 64 := p.attempts.toNat_lt
  unfold payloadFromFields
  rw [h.key, h.hash_to_verify, h.account, h.kind, h.memory_cost, h.worker, h.attempts,
    h.hashes_per_second, h.found_at_utc]
  simp only [Option.bind_eq_bind, Option.bind_some, parseKind_kindName,
    parse_u64_toDecimal (Nat.lt_trans hcost (by decide)), parse_u64_toDecimal hattempts, hrate]
  rw [if_neg (by omega), UInt32.ofNat_toNat, UInt64.ofNat_toNat]

end RustSink

/-! ## Lines -/

/-- The strings of a payload are UTF-8. -/
structure Utf8Strings (p : FoundPayload) : Prop where
  key : RustSink.isUtf8 p.key = true
  hash_to_verify : RustSink.isUtf8 p.hash_to_verify = true
  account : RustSink.isUtf8 p.account = true
  worker : RustSink.isUtf8 p.worker = true
  found_at_utc : RustSink.isUtf8 p.found_at_utc = true

/-- `f64` in Rust: `Display` and `str::parse`. -/
structure RustFloat where
  to_string : Double → Bytes
  parse : Bytes → Option Double

/-- A finite `f64` is printed without an exponent and read back, and what either
program prints for a finite rate both read alike. -/
structure RustFloat.Standard (rust : RustFloat) (libc : Libc) : Prop where
  finite : ∀ d, d.isFinite = true → rust.to_string d ≠ [] ∧
    ∀ c ∈ rust.to_string d, isRateByte c = true
  read : ∀ d, d.isFinite = true → rust.parse (rust.to_string d) = some d
  agree : ∀ d x, d.isFinite = true → ∀ s ∈ [libc.fmt d, rust.to_string d],
    (libc.strtod s = (x, s.length) ↔ rust.parse s = some x)

section Lines

variable {rate : Bytes} {p : FoundPayload}

/-- A decoder that reads the strings of a payload reads the members of its line. -/
theorem lineBody_read {str : Bytes → Option (Bytes × Bytes)}
    (h : ∀ m ∈ lineMembers rate p, m.ReadBy str) :
    objectWith str (lineBody rate p) = some (assigned (lineMembers rate p) []) :=
  objectWith_joined (List.cons_ne_nil _ _) h

/-- The names, the strings and the kind of a line are UTF-8, the numbers tokens. -/
theorem lineMembers_utf8 (hs : Utf8Strings p) (hrate : IsToken rate) :
    ∀ m ∈ lineMembers rate p, RustSink.Utf8Member m := by
  have hnames : ∀ k ∈ fieldNames, RustSink.isUtf8 k = true := by decide +kernel
  have hkind : ∀ k, RustSink.isUtf8 (kindName k) = true := by
    intro k
    cases k with
    | XEN11 => decide
    | XUNI => decide
  intro m hm
  refine ⟨hnames _ (List.mem_map_of_mem (f := Prod.fst) hm), ?_⟩
  simp only [lineMembers, List.mem_cons, List.not_mem_nil, or_false] at hm
  rcases hm with rfl | rfl | rfl | rfl | rfl | rfl | rfl | rfl | rfl
  · exact hs.key
  · exact hs.hash_to_verify
  · exact hs.account
  · exact hkind _
  · exact isToken_toDecimal _
  · exact hs.worker
  · exact isToken_toDecimal _
  · exact hrate
  · exact hs.found_at_utc

/-- A line is a Rust string. -/
theorem lineBody_utf8 (hs : Utf8Strings p) (hrate : IsToken rate) :
    RustSink.isUtf8 (lineBody rate p) = true := by
  have hbrace : IsAscii [ch '{'] := by
    unfold IsAscii
    decide
  show RustSink.isUtf8 ([ch '{'] ++ (joined (lineMembers rate p) ++ [ch '}'])) = true
  rw [RustSink.isUtf8_ascii hbrace, RustSink.isUtf8_joined (lineMembers_utf8 hs hrate)]
  decide

/-- What the Rust decoder makes of a line. -/
theorem parse_payload_lineBody {parse_f64 : Bytes → Option Double} (hs : Utf8Strings p)
    (hrate : IsToken rate) (hparse : parse_f64 rate = some p.hashes_per_second) :
    RustSink.parsePayload parse_f64 (lineBody rate p) = some p := by
  have hread : ∀ m ∈ lineMembers rate p, m.ReadBy RustSink.parseJsonString := by
    intro m hm
    obtain ⟨k, v⟩ := m
    obtain ⟨hk, hv⟩ := lineMembers_utf8 hs hrate _ hm
    refine ⟨RustSink.reads_parse_json_string hk, ?_⟩
    cases v with
    | str v => exact RustSink.reads_parse_json_string hv
    | raw r => exact hv
  unfold RustSink.parsePayload
  rw [RustSink.parse_flat_object_eq, lineBody_read hread, Option.bind_some]
  exact RustSink.payload_from_fields_line (lineFields rate p) hparse

/-- What the C++ decoder makes of a line. -/
theorem parseLine_lineBody {libc : Libc} (hs : Utf8Strings p) (hrate : IsToken rate)
    (hparse : libc.strtod rate = (p.hashes_per_second, rate.length)) :
    (parseFlatObject (lineBody rate p)).bind (payloadFromFields libc) = some p := by
  have hread : ∀ m ∈ lineMembers rate p, m.ReadBy parseJsonString := by
    intro m hm
    obtain ⟨k, v⟩ := m
    obtain ⟨-, hv⟩ := lineMembers_utf8 hs hrate _ hm
    refine ⟨reads_parseJsonString k, ?_⟩
    cases v with
    | str v => exact reads_parseJsonString v
    | raw r => exact hv
  have hdouble : parseDouble libc rate = some p.hashes_per_second := by
    unfold parseDouble
    rw [if_neg hrate.1, cStr_of_token hrate.2, hparse]
    exact if_neg (fun h => h rfl)
  rw [parseFlatObject_eq, lineBody_read hread, Option.bind_some]
  exact payloadFromFields_line (lineFields rate p) hdouble

end Lines

/-- For every payload with UTF-8 strings and a finite rate: what either program
writes, without its newline, the other reads back as the payload; and what the C++
program writes is a Rust string. -/
theorem sinks_interchangeable {libc : Libc} {rust : RustFloat} (hlibc : libc.Standard)
    (hrust : rust.Standard libc) (p : FoundPayload) (hs : Utf8Strings p)
    (hp : p.hashes_per_second.isFinite = true) :
    (∃ line, FallbackSink.serialize libc p = line ++ [nl] ∧ RustSink.isUtf8 line = true ∧
      RustSink.parsePayload rust.parse line = some p) ∧
    ∃ line, RustSink.serialize rust.to_string p = line ++ [nl] ∧
      (parseFlatObject line).bind (payloadFromFields libc) = some p := by
  obtain ⟨hne, -, hall⟩ := hlibc.finite _ hp
  obtain ⟨hne', hall'⟩ := hrust.finite _ hp
  -- a finite rate is written as the library formats it, never as null
  have hrate : rateText libc p.hashes_per_second = libc.fmt p.hashes_per_second :=
    rateText_finite hlibc hp
  have hrate' : RustSink.formatRate rust.to_string p.hashes_per_second =
      rust.to_string p.hashes_per_second := by
    unfold RustSink.formatRate
    rw [hp, if_neg (by decide)]
    dsimp only
    rw [if_neg]
    intro hany
    obtain ⟨c, hc, hbad⟩ := List.any_eq_true.mp hany
    exact (isRateByte_not c (hall' c hc)).2.2.2.2.2.2.2 (of_decide_eq_true hbad)
  constructor
  · refine ⟨lineBody (libc.fmt p.hashes_per_second) p, ?_, lineBody_utf8 hs ⟨hne, hall⟩,
      ?_⟩
    · rw [FallbackSink.serialize_eq, ← hrate]
      rfl
    · exact parse_payload_lineBody hs ⟨hne, hall⟩
        ((hrust.agree _ _ hp _ (.head _)).mp (hlibc.read _ hp))
  · refine ⟨lineBody (rust.to_string p.hashes_per_second) p, ?_, ?_⟩
    · rw [RustSink.serialize_eq, hrate']
    · exact parseLine_lineBody hs ⟨hne', hall'⟩
        ((hrust.agree _ _ hp _ (.tail _ (.head _))).mpr (hrust.read _ hp))

/-- `f64` that prints 1.0 as `1` and reads what the sample C library reads. -/
def sampleRust : RustFloat where
  to_string := sampleLibc.fmt
  parse s := if (sampleLibc.strtod s).2 = s.length then some (sampleLibc.strtod s).1 else none

/-- The sample formatter reads back what it has written. -/
theorem sampleRust_standard : sampleRust.Standard sampleLibc where
  finite d hd := ⟨(sampleLibc_standard.finite d hd).1, (sampleLibc_standard.finite d hd).2.2⟩
  read d hd := by
    show (if (sampleLibc.strtod (sampleLibc.fmt d)).2 = (sampleLibc.fmt d).length then
      some (sampleLibc.strtod (sampleLibc.fmt d)).1 else none) = some d
    rw [sampleLibc_standard.read d hd, if_pos rfl]
  agree d x hd s hs := by
    show _ ↔ (if (sampleLibc.strtod s).2 = s.length then some (sampleLibc.strtod s).1 else none) =
      _
    constructor
    · intro h
      rw [h, if_pos rfl]
    · intro h
      split at h
      next hlen => exact Prod.ext (Option.some.inj h) hlen
      next => cases h

/-- A payload with control characters, quotes and characters of every length. -/
def widePayload : FoundPayload :=
  ⟨lit "k\x00\"\\\n", lit "h\u00e9", lit "0xabc", .XUNI, 4294967295, lit "\u20ac\t",
    18446744073709551615, ⟨0x3FF0000000000000⟩, [0x7F, 0xF0, 0x9F, 0x98, 0x80]⟩

/-- A payload with characters outside ASCII, written by either sink and read by the other. -/
theorem sinks_interchangeable_sample :
    (∃ line, FallbackSink.serialize sampleLibc widePayload = line ++ [nl] ∧
      RustSink.isUtf8 line = true ∧
      RustSink.parsePayload sampleRust.parse line = some widePayload) ∧
    ∃ line, RustSink.serialize sampleRust.to_string widePayload = line ++ [nl] ∧
      (parseFlatObject line).bind (payloadFromFields sampleLibc) = some widePayload :=
  sinks_interchangeable sampleLibc_standard sampleRust_standard widePayload
    ⟨by decide, by decide, by decide, by decide, by decide⟩
    (by decide)

end TreeMiner

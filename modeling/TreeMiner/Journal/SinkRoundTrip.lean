import Mathlib.Data.List.Nodup
import Mathlib.Data.List.TakeWhile
import TreeMiner.Journal.FallbackSink

/-!
# What the sink writes it reads back

Encoder and decoder of the sink are separate hand-written code. Both see a line as
members, a quoted name and a quoted text or a bare number (`members`), so the
round trip is proved a piece at a time: a byte, a string, a value, the members
(`membersLoop_joined`), the payload (`parseLine_body`), the file
(`sink_round_trip`).

The same pieces say what a line cut short looks like to the parser: as long as the
closing brace is missing the member loop fails or runs to the end of the line
(`membersLoop_prefix`).
-/

namespace TreeMiner.FallbackSink

open Cxx

/-! ## Decimal numerals -/

/-- A bare token of the serializer. -/
def IsToken (s : Bytes) : Prop := s ≠ [] ∧ ∀ c ∈ s, isRateByte c = true

/-- The digits of a number are a token. -/
theorem isToken_toDecimal (n : Nat) : IsToken (toDecimal n) := by
  obtain ⟨hne, hall, -⟩ := digits_spec (n + 1) n (Nat.lt_succ_self n)
  refine ⟨hne, ?_⟩
  intro c hc
  unfold isRateByte
  rw [hall c hc]
  rfl

/-- What the parser asks of the bytes of a token. -/
theorem isRateByte_not : ∀ c : UInt8, isRateByte c = true →
    endsToken c = false ∧ isWs c = false ∧ c ≠ ch '"' ∧ c ≠ ch '{' ∧ c ≠ ch '[' ∧
      c ≠ nl ∧ c ≠ 0 ∧
      ¬ (c = ch 'n' ∨ c = ch 'i' ∨ c = ch 'N' ∨ c = ch 'I') :=
  forall_byte (by decide +kernel)

/-- A token has no NUL and is read in full. -/
theorem cStr_of_token {s : Bytes} (h : ∀ c ∈ s, isRateByte c = true) : cStr s = s := by
  unfold cStr
  rw [List.takeWhile_eq_self_iff]
  intro c hc
  have h0 := (isRateByte_not c (h c hc)).2.2.2.2.2.2.1
  simpa using h0

/-- `parseU64` reads back what `to_string` wrote. -/
theorem parseU64_toDecimal {n : Nat} (h : n < 2 ^ 64) : parseU64 (toDecimal n) = some n := by
  obtain ⟨hne, hall, hval⟩ := digits_spec (n + 1) n (Nat.lt_succ_self n)
  have hc : cStr (toDecimal n) = toDecimal n := cStr_of_token (isToken_toDecimal n).2
  unfold parseU64
  rw [if_neg (isToken_toDecimal n).1, hc]
  -- digits are neither blanks nor signs
  have hdig : ∀ c : UInt8, isDigit c = true → isSpace c = false ∧ c ≠ ch '-' ∧
    c ≠ ch '+' :=
    forall_byte (by decide +kernel)
  obtain ⟨c, s, hcs⟩ : ∃ c s, toDecimal n = c :: s := List.exists_cons_of_ne_nil hne
  have hcd : isDigit c = true :=
    hall c (by rw [show digits (n + 1) n = c :: s from hcs]; exact List.mem_cons_self)
  obtain ⟨hsp, hminus, hplus⟩ := hdig c hcd
  have htake : (toDecimal n).takeWhile isDigit = toDecimal n := List.takeWhile_eq_self_iff.mpr hall
  have hread : strtoull (toDecimal n) = (n, (toDecimal n).length, false) := by
    unfold strtoull
    have hblank : ((toDecimal n).takeWhile isSpace).length = 0 := by
      rw [hcs, List.takeWhile_cons_of_neg (by simp [hsp])]
      rfl
    have hhead : (toDecimal n).head? = some c := by rw [hcs]; rfl
    simp only [hblank, List.drop_zero, hhead]
    have h1 : (some c == some (ch '-')) = false := by simpa using hminus
    have h2 : (some c == some (ch '+')) = false := by simpa using hplus
    simp only [h1, h2, Bool.or_self, Bool.false_eq_true, if_false, List.drop_zero, htake]
    rw [if_neg (isToken_toDecimal n).1, show digitsVal 0 (toDecimal n) = n from hval,
      if_neg (by omega)]
    simp
  have hhead : (toDecimal n).head? ≠ some (ch '-') := by
    rw [hcs]
    simpa using hminus
  rw [hread, if_neg]
  intro hbad
  rcases hbad with hbad | hbad | hbad
  · cases hbad
  · exact hbad rfl
  · exact hhead hbad

/-! ## Strings -/

/-- A string as the serializer writes it. -/
def quote (v : Bytes) : Bytes := ch '"' :: (v.flatMap escapeByte ++ [ch '"'])

/-- The string loop, when `unit` decodes the four digits after `\u`. -/
def stringLoopWith (unit : Nat → Option Bytes) : Bytes → Option (Bytes × Bytes)
  | [] => none
  | c :: s =>
    if c = ch '"' then some ([], s)
    else if c = ch '\\' then
      match s with
      | [] => none
      | e :: s =>
        if e = ch 'u' then
          match s with
          | a :: b :: c :: d :: s =>
            match (hex4 a b c d).bind unit with
            | some bs => (stringLoopWith unit s).map fun r => (bs ++ r.1, r.2)
            | none => none
          | _ => none
        else
          match simpleEscape e with
          | some x => (stringLoopWith unit s).map fun r => (x :: r.1, r.2)
          | none => none
    else (stringLoopWith unit s).map fun r => (c :: r.1, r.2)

/-- The loop over a string is the common loop with the escapes put out as UTF-8. -/
theorem stringLoop_eq (s : Bytes) : stringLoop s = stringLoopWith (fun cp => some (utf8 cp)) s := by
  fun_induction stringLoop s with
  | case1 => rw [stringLoopWith]
  | _ =>
    rw [stringLoopWith.eq_def]
    simp only [if_true, if_false, Option.bind_some, Option.bind_none, *]

/-- The decoder of `\u` escapes takes a control character for itself. -/
def ReadsControl (unit : Nat → Option Bytes) : Prop := ∀ n < 32, unit n = some [UInt8.ofNat n]

section Unit

variable {unit : Nat → Option Bytes} (hunit : ReadsControl unit)

include hunit

/-- One escaped byte is read back. -/
theorem stringLoopWith_escapeByte (c : UInt8) (s : Bytes) :
    stringLoopWith unit (escapeByte c ++ s) =
    (stringLoopWith unit s).map fun r => (c :: r.1, r.2) := by
  have hsimple : ∀ e x : UInt8, e ≠ ch 'u' → simpleEscape e = some x →
      stringLoopWith unit (ch '\\' :: e :: s) =
        (stringLoopWith unit s).map fun r => (x :: r.1, r.2) := by
    intro e x hu hx
    rw [stringLoopWith.eq_def]
    simp only [if_neg hu, hx]
    rfl
  unfold escapeByte
  split
  next h => exact h ▸ hsimple (ch '"') (ch '"') (by decide) (by decide)
  split
  next h => exact h ▸ hsimple (ch '\\') (ch '\\') (by decide) (by decide)
  split
  next h => exact h ▸ hsimple (ch 'b') 8 (by decide) (by decide)
  split
  next h => exact h ▸ hsimple (ch 'f') 12 (by decide) (by decide)
  split
  next h => exact h ▸ hsimple (ch 'n') 10 (by decide) (by decide)
  split
  next h => exact h ▸ hsimple (ch 'r') 13 (by decide) (by decide)
  split
  next h => exact h ▸ hsimple (ch 't') 9 (by decide) (by decide)
  split
  next h =>
    -- the remaining control characters
    have hhex : ∀ n < 32,
        hex4 (ch '0') (ch '0') (kHex (n / 16 % 16)) (kHex (n % 16)) = some n := by decide
    have hlt : c.toNat < 32 := UInt8.lt_iff_toNat_lt.mp h
    have hu := hunit c.toNat hlt
    rw [UInt8.ofNat_toNat] at hu
    show stringLoopWith unit (ch '\\' :: ch 'u' :: ch '0' :: ch '0' :: kHex (c.toNat / 16 % 16) ::
      kHex (c.toNat % 16) :: s) = _
    rw [stringLoopWith.eq_def]
    simp only [hhex c.toNat hlt, Option.bind_some, hu]
    rfl
  next hq hb _ _ _ _ _ _ =>
    show stringLoopWith unit (c :: s) = _
    rw [stringLoopWith.eq_def]
    simp only [if_neg hq, if_neg hb]

/-- An escaped text is read back to its closing quote, for any treatment of escapes that can read
control characters. -/
theorem stringLoopWith_escaped (v t : Bytes) :
    stringLoopWith unit (v.flatMap escapeByte ++ ch '"' :: t) = some (v, t) := by
  induction v with
  | nil =>
    show stringLoopWith unit (ch '"' :: t) = _
    rw [stringLoopWith.eq_def]
    rfl
  | cons c v ih =>
    rw [List.flatMap_cons, List.append_assoc, stringLoopWith_escapeByte hunit, ih]
    rfl

end Unit

theorem readsControl_utf8 : ReadsControl fun cp => some (utf8 cp) := by
  unfold ReadsControl
  decide

/-- An escaped byte is read as the byte. -/
theorem stringLoop_escapeByte (c : UInt8) (s : Bytes) :
    stringLoop (escapeByte c ++ s) = (stringLoop s).map fun r => (c :: r.1, r.2) := by
  rw [stringLoop_eq, stringLoop_eq]
  exact stringLoopWith_escapeByte readsControl_utf8 c s

/-- And so an escaped text as the text. -/
theorem stringLoop_escaped (v t : Bytes) :
    stringLoop (v.flatMap escapeByte ++ ch '"' :: t) = some (v, t) := by
  rw [stringLoop_eq]
  exact stringLoopWith_escaped readsControl_utf8 v t

/-- A quoted string is read back. -/
theorem parseJsonString_quote (v t : Bytes) : parseJsonString (quote v ++ t) = some (v, t) := by
  show parseJsonString (ch '"' :: (v.flatMap escapeByte ++ [ch '"'] ++ t)) = _
  rw [parseJsonString, if_pos rfl, List.append_assoc]
  exact stringLoop_escaped v t

/-- An escape cut short does not parse. -/
theorem stringLoop_escapeByte_take : ∀ c : UInt8, ∀ n < (escapeByte c).length,
    stringLoop ((escapeByte c).take n) = none :=
  forall_byte (by decide +kernel)

/-- A string without its closing quote does not parse. -/
theorem stringLoop_prefix {v q : Bytes} (h : q <+: v.flatMap escapeByte) : stringLoop q = none := by
  induction v generalizing q with
  | nil => rw [List.prefix_nil.mp h, stringLoop]
  | cons c v ih =>
    rw [List.flatMap_cons] at h
    rcases prefix_append_cases h with ⟨n, hn, hq⟩ | ⟨q', hq, hpre⟩
    · rw [hq]
      exact stringLoop_escapeByte_take c n hn
    · rw [hq, stringLoop_escapeByte, ih hpre]
      rfl

/-- A quoted string cut short does not parse. -/
theorem parseJsonString_prefix {v : Bytes} {n : Nat} (hn : n < (quote v).length) :
    parseJsonString ((quote v).take n) = none := by
  cases n with
  | zero => rfl
  | succ n =>
    show parseJsonString (ch '"' :: (v.flatMap escapeByte ++ [ch '"']).take n) = none
    rw [parseJsonString, if_pos rfl]
    have hle : n ≤ (v.flatMap escapeByte).length := by
      simp only [quote, List.length_cons, List.length_append, List.length_nil] at hn
      omega
    rw [List.take_append_of_le_length hle]
    exact stringLoop_prefix (List.take_prefix _ _)

/-! ## Members -/

/-- The text of a value: quoted or bare. -/
inductive FieldText where
  | str (v : Bytes)
  | raw (t : Bytes)

/-- What the parser keeps of it. -/
def FieldText.value : FieldText → Bytes
  | .str v => v
  | .raw t => t

def FieldText.text : FieldText → Bytes
  | .str v => quote v
  | .raw t => t

/-- A bare text is a token. -/
def FieldText.Ok : FieldText → Prop
  | .str _ => True
  | .raw t => IsToken t

/-- A name and its value. -/
abbrev Member := Bytes × FieldText

def memberText (m : Member) : Bytes := quote m.1 ++ ch ':' :: m.2.text

/-- Members with commas between them. -/
def joined : List Member → Bytes
  | [] => []
  | [m] => memberText m
  | m :: ms => memberText m ++ ch ',' :: joined ms

/-- The members of a line. -/
def members (libc : Libc) (p : FoundPayload) : List Member :=
  [(lit "key", .str p.key), (lit "hash_to_verify", .str p.hash_to_verify),
    (lit "account", .str p.account), (lit "kind", .str (kindName p.kind)),
    (lit "memory_cost", .raw (toDecimal p.memory_cost.toNat)), (lit "worker", .str p.worker),
    (lit "attempts", .raw (toDecimal p.attempts.toNat)),
    (lit "hashes_per_second", .raw (rateText libc p.hashes_per_second)),
    (lit "found_at_utc", .str p.found_at_utc)]

/-- A line without its newline. -/
def body (libc : Libc) (p : FoundPayload) : Bytes :=
  ch '{' :: (joined (members libc p) ++ [ch '}'])

/-- A line is its body and a line break. -/
theorem serialize_eq (libc : Libc) (p : FoundPayload) : serialize libc p = body libc p ++ [nl] := by
  unfold serialize body members
  simp only [joined, memberText, FieldText.text, quote, appendField, appendRawField,
    appendJsonString, if_true, Bool.false_eq_true, if_false, List.append_assoc,
    List.cons_append, List.nil_append]

theorem joined_length : ∀ ms : List Member, ms.length ≤ (joined ms).length
  | [] => Nat.le_refl _
  | [m] => by
    simp only [joined, memberText, quote, List.length_cons, List.length_append, List.length_nil]
    omega
  | m :: m' :: ms => by
    have ih := joined_length (m' :: ms)
    simp only [joined, List.length_cons, List.length_append] at ih ⊢
    omega

/-- What may follow a value. -/
def StopsToken (t : Bytes) : Prop := ∀ c ∈ t.head?, endsToken c = true

section Reader

variable (str : Bytes → Option (Bytes × Bytes))

/-- A value, when `str` reads the strings. -/
def valueWith : Bytes → Option (Bytes × Bytes)
  | [] => none
  | c :: s =>
    if c = ch '"' then str (c :: s)
    else if c = ch '{' ∨ c = ch '[' then none
    else if endsToken c then none
    else some ((c :: s).takeWhile (fun c => !endsToken c), (c :: s).dropWhile fun c => !endsToken c)

/-- The member loop, when `str` reads the strings. -/
def loopWith : Nat → Fields → Bytes → Option (Fields × Bytes)
  | 0, _, _ => none
  | fuel + 1, fields, s =>
    match str (skipWs s) with
    | none => none
    | some (key, s) =>
      match skipWs s with
      | [] => none
      | c :: s =>
        if c = ch ':' then
          match valueWith str (skipWs s) with
          | none => none
          | some (value, s) =>
            match skipWs s with
            | [] => some ((key, value) :: fields, [])
            | c :: s =>
              if c = ch ',' then loopWith fuel ((key, value) :: fields) s
              else some ((key, value) :: fields, c :: s)
        else none

/-- A flat object, when `str` reads the strings. -/
def objectWith (line : Bytes) : Option Fields :=
  match skipWs line with
  | [] => none
  | c :: s =>
    if c = ch '{' then
      if (skipWs s).head? = some (ch '}') then closeObject [] (skipWs s)
      else
        match loopWith str (s.length + 1) [] s with
        | none => none
        | some (fields, s) => closeObject fields s
    else none

/-- `str` reads the string back, whatever follows. -/
def Reads (v : Bytes) : Prop := ∀ t, str (quote v ++ t) = some (v, t)

/-- A value `str` reads, or a token. -/
def FieldText.ReadBy : FieldText → Prop
  | .str v => Reads str v
  | .raw t => IsToken t

/-- A member all of whose strings `str` reads. -/
def Member.ReadBy (m : Member) : Prop := Reads str m.1 ∧ FieldText.ReadBy str m.2

end Reader

/-- The reading of a value, with this string reader. -/
theorem parseValue_eq (s : Bytes) : parseValue s = valueWith parseJsonString s := by
  cases s with
  | nil => rfl
  | cons c s => rfl

/-- The loop over the members, with this string reader. -/
theorem membersLoop_eq : ∀ (fuel : Nat) (fields : Fields) (s : Bytes),
    membersLoop fuel fields s = loopWith parseJsonString fuel fields s
  | 0, _, _ => rfl
  | fuel + 1, fields, s => by
    have hvalue : parseValue = valueWith parseJsonString := funext parseValue_eq
    have hrest : membersLoop fuel = loopWith parseJsonString fuel := by
      funext fields s
      exact membersLoop_eq fuel fields s
    rw [membersLoop, hvalue, hrest]
    rfl

/-- The reading of a line, with this string reader. -/
theorem parseFlatObject_eq (line : Bytes) :
    parseFlatObject line = objectWith parseJsonString line := by
  have hloop : membersLoop = loopWith parseJsonString := by
    funext fuel fields s
    exact membersLoop_eq fuel fields s
  unfold parseFlatObject
  rw [hloop]
  rfl

/-- The sink's own reader reads every string. -/
theorem reads_parseJsonString (v : Bytes) : Reads parseJsonString v := parseJsonString_quote v

/-- A text or a token that was written is one that this reader reads. -/
theorem FieldText.Ok.readBy {v : FieldText} (h : v.Ok) : v.ReadBy parseJsonString := by
  cases v with
  | str v => exact reads_parseJsonString v
  | raw r => exact h

/-- A value is read back up to what comes behind it. -/
theorem valueWith_text {str : Bytes → Option (Bytes × Bytes)} {v : FieldText} {t : Bytes}
    (hv : v.ReadBy str) (ht : StopsToken t) : valueWith str (v.text ++ t) = some (v.value, t) := by
  cases v with
  | str v =>
    show valueWith str (ch '"' :: (v.flatMap escapeByte ++ [ch '"'] ++ t)) = _
    rw [valueWith, if_pos rfl]
    exact hv t
  | raw r =>
    obtain ⟨hne, hall⟩ := hv
    obtain ⟨c, r, rfl⟩ := List.exists_cons_of_ne_nil hne
    obtain ⟨hend, -, hq, hb, hs, -⟩ := isRateByte_not c (hall c List.mem_cons_self)
    show valueWith str (c :: (r ++ t)) = _
    rw [valueWith, if_neg hq, if_neg (fun h => h.elim hb hs), hend, if_neg (by simp)]
    have htake : ∀ x ∈ c :: r, (!endsToken x) = true := by
      intro x hx
      rw [(isRateByte_not x (hall x hx)).1]
      rfl
    rw [← List.cons_append, List.takeWhile_append_of_pos htake,
      List.dropWhile_append_of_pos htake]
    cases t with
    | nil => simp [FieldText.value]
    | cons d t =>
      have hd : endsToken d = true := ht d rfl
      rw [List.takeWhile_cons_of_neg (by simp [hd]), List.dropWhile_cons_of_neg (by simp [hd]),
        List.append_nil]
      rfl

/-- The same for this string reader. -/
theorem parseValue_text {v : FieldText} {t : Bytes} (hv : v.Ok) (ht : StopsToken t) :
    parseValue (v.text ++ t) = some (v.value, t) :=
  (parseValue_eq _).trans (valueWith_text hv.readBy ht)

theorem skipWs_of_not {c : UInt8} {s : Bytes} (h : isWs c = false) : skipWs (c :: s) = c :: s := by
  unfold skipWs
  rw [List.dropWhile_cons_of_neg (by simp [h])]

theorem skipWs_quote (v t : Bytes) : skipWs (quote v ++ t) = quote v ++ t :=
  skipWs_of_not (by decide)

/-- The text of a value starts with no blank. -/
theorem skipWs_value {str : Bytes → Option (Bytes × Bytes)} {v : FieldText} (hv : v.ReadBy str)
    (t : Bytes) : skipWs (v.text ++ t) = v.text ++ t := by
  cases v with
  | str v => exact skipWs_quote v t
  | raw r =>
    obtain ⟨hne, hall⟩ := hv
    obtain ⟨c, r, rfl⟩ := List.exists_cons_of_ne_nil hne
    exact skipWs_of_not (isRateByte_not c (hall c List.mem_cons_self)).2.1

/-- The assignments the members make, newest first. -/
def assigned (ms : List Member) (fields : Fields) : Fields :=
  (ms.map fun m => (m.1, m.2.value)).reverse ++ fields

section Reader

variable {str : Bytes → Option (Bytes × Bytes)}

/-- One member: the loop goes on at what follows it. -/
theorem loopWith_member {fuel : Nat} {fields : Fields} {m : Member} {t : Bytes}
    (hm : m.ReadBy str) (ht : StopsToken t) :
    loopWith str (fuel + 1) fields (memberText m ++ t) =
      match skipWs t with
      | [] => some ((m.1, m.2.value) :: fields, [])
      | c :: s =>
        if c = ch ',' then loopWith str fuel ((m.1, m.2.value) :: fields) s
        else some ((m.1, m.2.value) :: fields, c :: s) := by
  have htext : memberText m ++ t = quote m.1 ++ (ch ':' :: (m.2.text ++ t)) := by
    simp only [memberText, List.append_assoc, List.cons_append]
  rw [loopWith, htext, skipWs_quote, hm.1]
  dsimp only
  rw [skipWs_of_not (by decide)]
  dsimp only
  rw [if_pos rfl, skipWs_value hm.2, valueWith_text hm.2 ht]

/-- The member loop reads back the members and stops at the closing brace. -/
theorem loopWith_joined {t : Bytes} : ∀ (ms : List Member) {fuel : Nat} {fields : Fields},
    ms ≠ [] → (∀ m ∈ ms, m.ReadBy str) → ms.length ≤ fuel →
    loopWith str fuel fields (joined ms ++ ch '}' :: t) = some (assigned ms fields, ch '}' :: t)
  | [], _, _, hne, _, _ => absurd rfl hne
  | [m], fuel, fields, _, hok, hfuel => by
    obtain ⟨f, rfl⟩ : ∃ f, fuel = f + 1 := ⟨fuel - 1, by simp at hfuel; omega⟩
    show loopWith str (f + 1) fields (memberText m ++ ch '}' :: t) = _
    rw [loopWith_member (hok m List.mem_cons_self) (by intro c hc; cases hc; decide),
      skipWs_of_not (by decide)]
    rfl
  | m :: m' :: ms, fuel, fields, _, hok, hfuel => by
    obtain ⟨f, rfl⟩ : ∃ f, fuel = f + 1 := ⟨fuel - 1, by simp at hfuel; omega⟩
    have htext : joined (m :: m' :: ms) ++ ch '}' :: t =
        memberText m ++ ch ',' :: (joined (m' :: ms) ++ ch '}' :: t) := by
      simp only [joined, List.append_assoc, List.cons_append]
    rw [htext, loopWith_member (hok m List.mem_cons_self) (by intro c hc; cases hc; decide),
      skipWs_of_not (by decide)]
    dsimp only
    rw [if_pos rfl, loopWith_joined (m' :: ms) (List.cons_ne_nil _ _)
      (fun x hx => hok x (List.mem_cons_of_mem _ hx)) (by simp at hfuel ⊢; omega)]
    simp [assigned]

/-- An object of members is read back. -/
theorem objectWith_joined {ms : List Member} (hne : ms ≠ []) (hok : ∀ m ∈ ms, m.ReadBy str) :
    objectWith str (ch '{' :: (joined ms ++ [ch '}'])) = some (assigned ms []) := by
  obtain ⟨s, hs⟩ : ∃ s, joined ms ++ [ch '}'] = ch '"' :: s := by
    match ms, hne with
    | [m], _ => exact ⟨_, rfl⟩
    | m :: m' :: ms, _ => exact ⟨_, rfl⟩
  have hlen : ms.length ≤ (joined ms ++ [ch '}']).length + 1 := by
    have := joined_length ms
    rw [List.length_append]
    omega
  unfold objectWith
  rw [skipWs_of_not (by decide)]
  dsimp only
  rw [if_pos rfl, if_neg, loopWith_joined _ hne hok hlen]
  · rfl
  · rw [hs, skipWs_of_not (by decide)]
    simp

end Reader

/-- One turn of the loop reads one member and leaves the rest to the next turn. -/
theorem membersLoop_member {fuel : Nat} {fields : Fields} {m : Member} {t : Bytes}
    (hm : m.2.Ok) (ht : StopsToken t) :
    membersLoop (fuel + 1) fields (memberText m ++ t) =
      match skipWs t with
      | [] => some ((m.1, m.2.value) :: fields, [])
      | c :: s =>
        if c = ch ',' then membersLoop fuel ((m.1, m.2.value) :: fields) s
        else some ((m.1, m.2.value) :: fields, c :: s) := by
  simp only [membersLoop_eq]
  exact loopWith_member ⟨reads_parseJsonString _, hm.readBy⟩ ht

/-- A name cut short. -/
theorem skipWs_quote_take (v : Bytes) (k : Nat) : skipWs ((quote v).take k) = (quote v).take k := by
  cases k with
  | zero => rfl
  | succ k => exact skipWs_of_not (by decide)

/-- A value cut short does not parse, or runs to the end of the line. -/
theorem parseValue_prefix {v : FieldText} {q : Bytes} (hv : v.Ok) (hq : q <+: v.text) :
    parseValue (skipWs q) = none ∨ ∃ x, parseValue (skipWs q) = some (x, []) := by
  have hstop : StopsToken [] := by
    intro c hc
    cases hc
  cases v with
  | str v =>
    rw [show (FieldText.str v).text = quote v ++ [] from (List.append_nil _).symm] at hq
    -- a string cut before its closing quote is no value; a bare token that is cut still is one
    rcases prefix_append_cases hq with ⟨k, hk, rfl⟩ | ⟨q', rfl, hnil⟩
    · left
      rw [skipWs_quote_take]
      have hpre := parseJsonString_prefix hk
      cases k with
      | zero => rfl
      | succ k => exact hpre
    · right
      rw [List.prefix_nil.mp hnil, skipWs_quote]
      exact ⟨v, parseValue_text (v := .str v) trivial hstop⟩
  | raw r =>
    by_cases hne : q = []
    · rw [hne]
      exact Or.inl rfl
    · right
      have hok : (FieldText.raw q).Ok := ⟨hne, fun c hc => hv.2 c (hq.subset hc)⟩
      have hws := skipWs_value hok.readBy []
      rw [List.append_nil] at hws
      rw [show skipWs q = q from hws]
      have hparse := parseValue_text hok hstop
      rw [List.append_nil] at hparse
      exact ⟨q, hparse⟩

/-- A member cut short: the loop fails or has reached the end of the line. -/
theorem membersLoop_member_prefix {fuel : Nat} {fields : Fields} {m : Member} {q : Bytes}
    (hm : m.2.Ok) (hq : q <+: memberText m) :
    membersLoop fuel fields q = none ∨
      ∃ fields', membersLoop fuel fields q = some (fields', []) := by
  cases fuel with
  | zero => exact Or.inl rfl
  | succ fuel =>
    rcases prefix_append_cases hq with ⟨k, hk, rfl⟩ | ⟨q', rfl, hpre⟩
    · -- inside the name
      left
      rw [membersLoop, skipWs_quote_take, parseJsonString_prefix hk]
    · rw [membersLoop, skipWs_quote, parseJsonString_quote]
      dsimp only
      cases q' with
      | nil => exact Or.inl rfl
      | cons c q' =>
        obtain ⟨rfl, hval⟩ := List.cons_prefix_cons.mp hpre
        rw [skipWs_of_not (by decide)]
        dsimp only
        rw [if_pos rfl]
        rcases parseValue_prefix hm hval with hnone | ⟨x, hx⟩
        · left
          rw [hnone]
        · right
          rw [hx]
          exact ⟨_, rfl⟩

/-- As long as the closing brace is missing, the member loop fails or has reached
the end of the line. -/
theorem membersLoop_prefix : ∀ (ms : List Member) {fuel : Nat} {fields : Fields} {q : Bytes},
    ms ≠ [] → (∀ m ∈ ms, m.2.Ok) → q <+: joined ms →
    membersLoop fuel fields q = none ∨
      ∃ fields', membersLoop fuel fields q = some (fields', [])
  | [], _, _, _, hne, _, _ => absurd rfl hne
  | [m], _, _, _, _, hok, hq => membersLoop_member_prefix (hok m List.mem_cons_self) hq
  | m :: m' :: ms, fuel, fields, q, _, hok, hq => by
    have hm := hok m List.mem_cons_self
    rw [show joined (m :: m' :: ms) = memberText m ++ ch ',' :: joined (m' :: ms) from rfl] at hq
    rcases prefix_append_cases hq with ⟨k, hk, rfl⟩ | ⟨q', rfl, hpre⟩
    · exact membersLoop_member_prefix hm (List.take_prefix _ _)
    · cases q' with
      | nil =>
        rw [List.append_nil]
        exact membersLoop_member_prefix hm (List.prefix_refl _)
      | cons c q' =>
        obtain ⟨rfl, hrest⟩ := List.cons_prefix_cons.mp hpre
        cases fuel with
        | zero => exact Or.inl rfl
        | succ fuel =>
          rw [membersLoop_member hm (by intro c hc; cases hc; decide), skipWs_of_not (by decide)]
          dsimp only
          rw [if_pos rfl]
          exact membersLoop_prefix (m' :: ms) (List.cons_ne_nil _ _)
            (fun x hx => hok x (List.mem_cons_of_mem _ hx)) hrest

/-! ## Lines -/

section Lines

variable {libc : Libc} (hlibc : libc.Standard)

include hlibc

theorem rateText_finite {d : Double} (hd : d.isFinite = true) : rateText libc d = libc.fmt d := by
  obtain ⟨hne, hlen, hall⟩ := hlibc.finite d hd
  have hpos : 0 < (libc.fmt d).length := List.length_pos_of_ne_nil hne
  unfold rateText
  dsimp only
  rw [if_neg (by omega), if_neg]
  intro hany
  obtain ⟨c, hc, hbad⟩ := List.any_eq_true.mp hany
  exact (isRateByte_not c (hall c hc)).2.2.2.2.2.2.2 (of_decide_eq_true hbad)

/-- The rate is always a bare token. -/
theorem isToken_rateText (d : Double) : IsToken (rateText libc d) := by
  have hzero : IsToken (lit "0") := ⟨by decide, by decide⟩
  by_cases hd : d.isFinite = true
  · rw [rateText_finite hlibc hd]
    obtain ⟨hne, -, hall⟩ := hlibc.finite d hd
    exact ⟨hne, hall⟩
  · have hn := hlibc.other d (Bool.eq_false_iff.mpr hd)
    unfold rateText
    dsimp only
    split
    · exact hzero
    · rw [if_pos]
      · exact hzero
      · exact List.any_eq_true.mpr ⟨ch 'n', hn, by decide⟩

/-- Every member of a line can be read. -/
theorem members_ok (p : FoundPayload) : ∀ m ∈ members libc p, m.2.Ok := by
  intro m hm
  simp only [members, List.mem_cons, List.not_mem_nil, or_false] at hm
  rcases hm with rfl | rfl | rfl | rfl | rfl | rfl | rfl | rfl | rfl
  · trivial
  · trivial
  · trivial
  · trivial
  · exact isToken_toDecimal _
  · trivial
  · exact isToken_toDecimal _
  · exact isToken_rateText hlibc _
  · trivial

/-- The parser reads the members of a line back. -/
theorem parseFlatObject_body (p : FoundPayload) :
    parseFlatObject (body libc p) = some (assigned (members libc p) []) := by
  rw [parseFlatObject_eq]
  exact objectWith_joined (List.cons_ne_nil _ _)
    fun m hm => ⟨reads_parseJsonString _, (members_ok hlibc p m hm).readBy⟩

/-- A line without its closing brace is not accepted. -/
theorem parseFlatObject_cut (p : FoundPayload) {q : Bytes}
    (hq : q <+: ch '{' :: joined (members libc p)) : parseFlatObject q = none := by
  cases q with
  | nil => rfl
  | cons c q =>
    obtain ⟨rfl, hrest⟩ := List.cons_prefix_cons.mp hq
    unfold parseFlatObject
    rw [skipWs_of_not (by decide)]
    dsimp only
    rw [if_pos rfl, if_neg]
    · have hloop : membersLoop (q.length + 1) [] q = none ∨
          ∃ f, membersLoop (q.length + 1) [] q = some (f, []) :=
        membersLoop_prefix (members libc p) (List.cons_ne_nil _ _) (members_ok hlibc p) hrest
      rcases hloop with hnone | ⟨f, hf⟩
      · rw [hnone]
      · rw [hf]
        rfl
    · -- the next byte is a quote, if there is one
      obtain ⟨s, hs⟩ : ∃ s, joined (members libc p) = ch '"' :: s := ⟨_, rfl⟩
      rw [hs] at hrest
      cases q with
      | nil => simp [skipWs]
      | cons c q =>
        obtain ⟨rfl, -⟩ := List.cons_prefix_cons.mp hrest
        rw [skipWs_of_not (by decide)]
        simp

end Lines

/-! ## Payloads -/

/-- The names of a line's members. -/
def fieldNames : List Bytes :=
  [lit "key", lit "hash_to_verify", lit "account", lit "kind", lit "memory_cost", lit "worker",
    lit "attempts", lit "hashes_per_second", lit "found_at_utc"]

/-- No field is written twice, so that none is overwritten when it is read. -/
theorem fieldNames_nodup : fieldNames.Nodup := by decide

/-- The members of a line with this text for the rate. -/
def lineMembers (rate : Bytes) (p : FoundPayload) : List Member :=
  [(lit "key", .str p.key), (lit "hash_to_verify", .str p.hash_to_verify),
    (lit "account", .str p.account), (lit "kind", .str (kindName p.kind)),
    (lit "memory_cost", .raw (toDecimal p.memory_cost.toNat)), (lit "worker", .str p.worker),
    (lit "attempts", .raw (toDecimal p.attempts.toNat)), (lit "hashes_per_second", .raw rate),
    (lit "found_at_utc", .str p.found_at_utc)]

/-- What is found under each name. -/
structure LineFields (rate : Bytes) (p : FoundPayload) (fields : Fields) : Prop where
  key : lookup fields "key" = some p.key
  hash_to_verify : lookup fields "hash_to_verify" = some p.hash_to_verify
  account : lookup fields "account" = some p.account
  kind : lookup fields "kind" = some (kindName p.kind)
  memory_cost : lookup fields "memory_cost" = some (toDecimal p.memory_cost.toNat)
  worker : lookup fields "worker" = some p.worker
  attempts : lookup fields "attempts" = some (toDecimal p.attempts.toNat)
  hashes_per_second : lookup fields "hashes_per_second" = some rate
  found_at_utc : lookup fields "found_at_utc" = some p.found_at_utc

/-- What the reader has of each field when the line is through. -/
theorem lineFields (rate : Bytes) (p : FoundPayload) :
    LineFields rate p (assigned (lineMembers rate p) []) := by
  have hfind : ∀ (k : String) (v : FieldText), (lit k, v) ∈ lineMembers rate p →
      lookup (assigned (lineMembers rate p) []) k = some v.value := by
    intro k v h
    unfold lookup assigned
    rw [List.append_nil]
    refine lookup_of_mem ?_ ?_
    · rw [List.map_reverse, List.nodup_reverse, List.map_map]
      exact fieldNames_nodup
    · rw [List.mem_reverse]
      exact List.mem_map_of_mem (f := fun m : Member => (m.1, m.2.value)) h
  exact
    { key := hfind _ _ (.head _)
      hash_to_verify := hfind _ _ (.tail _ (.head _))
      account := hfind _ _ (.tail _ (.tail _ (.head _)))
      kind := hfind _ _ (.tail _ (.tail _ (.tail _ (.head _))))
      memory_cost := hfind _ _ (.tail _ (.tail _ (.tail _ (.tail _ (.head _)))))
      worker := hfind _ _ (.tail _ (.tail _ (.tail _ (.tail _ (.tail _ (.head _))))))
      attempts := hfind _ _ (.tail _ (.tail _ (.tail _ (.tail _ (.tail _ (.tail _ (.head _)))))))
      hashes_per_second := hfind _ _
        (.tail _ (.tail _ (.tail _ (.tail _ (.tail _ (.tail _ (.tail _ (.head _))))))))
      found_at_utc := hfind _ _
        (.tail _ (.tail _ (.tail _ (.tail _ (.tail _ (.tail _ (.tail _ (.tail _ (.head _))))))))) }

/-- A kind is read back from its name. -/
theorem parseKind_kindName (k : FindKind) : parseKind (kindName k) = some k := by
  cases k with
  | XEN11 => exact if_pos rfl
  | XUNI =>
    have hne : lit "XUNI" ≠ lit "XEN11" := by decide
    unfold parseKind kindName
    rw [if_neg hne, if_pos rfl]

/-- The fields of a line make its payload when the rate is read back. -/
theorem payloadFromFields_line {libc : Libc} {rate : Bytes} {p : FoundPayload} {fields : Fields}
    (h : LineFields rate p fields) (hrate : parseDouble libc rate = some p.hashes_per_second) :
    payloadFromFields libc fields = some p := by
  have hcost : p.memory_cost.toNat < 2 ^ 32 := p.memory_cost.toNat_lt
  have hattempts : p.attempts.toNat < 2 ^ 64 := p.attempts.toNat_lt
  unfold payloadFromFields
  rw [h.key, h.hash_to_verify, h.account, h.kind, h.memory_cost, h.worker, h.attempts,
    h.hashes_per_second, h.found_at_utc]
  simp only [Option.bind_eq_bind, Option.bind_some, parseKind_kindName,
    parseU64_toDecimal (Nat.lt_trans hcost (by decide)), parseU64_toDecimal hattempts, hrate]
  rw [if_neg (by omega), UInt32.ofNat_toNat, UInt64.ofNat_toNat]

section Payload

variable {libc : Libc} (hlibc : libc.Standard) {p : FoundPayload}
  (hp : p.hashes_per_second.isFinite = true)

include hlibc hp

/-- A finite rate is read back from its text. -/
theorem parseDouble_rateText :
    parseDouble libc (rateText libc p.hashes_per_second) = some p.hashes_per_second := by
  obtain ⟨hne, -, hall⟩ := hlibc.finite _ hp
  rw [rateText_finite hlibc hp]
  unfold parseDouble
  rw [if_neg hne, cStr_of_token hall, hlibc.read _ hp]
  exact if_neg (fun h => h rfl)

/-- A line is read back as the payload it was written from. -/
theorem parseLine_body : parseLine libc (body libc p) = some p := by
  unfold parseLine
  rw [parseFlatObject_body hlibc, Option.bind_some]
  exact payloadFromFields_line (lineFields _ p) (parseDouble_rateText hlibc hp)

end Payload

/-! ## Files -/

section Files

variable {libc : Libc} (hlibc : libc.Standard)

/-- No line has a newline or a carriage return inside. -/
theorem quote_no_break (v : Bytes) : nl ∉ quote v ∧ (13 : UInt8) ∉ quote v := by
  have hbyte : ∀ c : UInt8, nl ∉ escapeByte c ∧ (13 : UInt8) ∉ escapeByte c :=
    forall_byte (by decide +kernel)
  have hpart : ∀ x : UInt8, x ≠ ch '"' → (∀ c : UInt8, x ∉ escapeByte c) →
    x ∉ quote v := by
    intro x hx hesc hmem
    rcases List.mem_cons.mp hmem with h | h
    · exact hx h
    · rcases List.mem_append.mp h with h | h
      · obtain ⟨c, -, hc⟩ := List.mem_flatMap.mp h
        exact hesc c hc
      · exact hx (List.mem_singleton.mp h)
  exact ⟨hpart _ (by decide) fun c => (hbyte c).1, hpart _ (by decide) fun c => (hbyte c).2⟩

/-- No token has a line break. -/
theorem token_no_break {t : Bytes} (h : IsToken t) : nl ∉ t ∧ (13 : UInt8) ∉ t :=
  ⟨fun hm => absurd (h.2 _ hm) (by decide), fun hm => absurd (h.2 _ hm) (by decide)⟩

/-- Nor has a member. -/
theorem memberText_no_break {x : UInt8} (hx : x ≠ ch ':') (hq : ∀ v, x ∉ quote v)
    (ht : ∀ t, IsToken t → x ∉ t) {m : Member} (hm : m.2.Ok) : x ∉ memberText m := by
  intro hmem
  rcases List.mem_append.mp hmem with h | h
  · exact hq _ h
  · rcases List.mem_cons.mp h with h | h
    · exact hx h
    · cases hv : m.2 with
      | str v =>
        rw [hv] at h
        exact hq v h
      | raw t =>
        rw [hv] at h hm
        exact ht t hm h

/-- Nor have the members with their commas. -/
theorem joined_no_break {x : UInt8} (hx : x ≠ ch ':' ∧ x ≠ ch ',') (hq : ∀ v, x ∉ quote v)
    (ht : ∀ t, IsToken t → x ∉ t) :
    ∀ {ms : List Member}, (∀ m ∈ ms, m.2.Ok) → x ∉ joined ms
  | [], _ => List.not_mem_nil
  | [m], hok => memberText_no_break hx.1 hq ht (hok m List.mem_cons_self)
  | m :: m' :: ms, hok => by
    intro hmem
    rcases List.mem_append.mp hmem with h | h
    · exact memberText_no_break hx.1 hq ht (hok m List.mem_cons_self) h
    · rcases List.mem_cons.mp h with h | h
      · exact hx.2 h
      · exact joined_no_break hx hq ht (fun y hy => hok y (List.mem_cons_of_mem _ hy)) h

include hlibc

/-- And so a line is one line. -/
theorem body_no_break (p : FoundPayload) : nl ∉ body libc p ∧ (13 : UInt8) ∉ body libc p := by
  have hpart : ∀ x : UInt8, x ≠ ch ':' ∧ x ≠ ch ',' → x ≠ ch '{' → x ≠ ch '}' →
      (∀ v, x ∉ quote v) → (∀ t, IsToken t → x ∉ t) → x ∉ body libc p := by
    intro x hx ho hc hq ht hmem
    rcases List.mem_cons.mp hmem with h | h
    · exact ho h
    · rcases List.mem_append.mp h with h | h
      · exact joined_no_break hx hq ht (members_ok hlibc p) h
      · exact hc (List.mem_singleton.mp h)
  exact ⟨hpart _ (by decide) (by decide) (by decide) (fun v => (quote_no_break v).1)
      (fun t h => (token_no_break h).1),
    hpart _ (by decide) (by decide) (by decide) (fun v => (quote_no_break v).2)
      (fun t h => (token_no_break h).2)⟩

/-- A piece of a line reaches the parser as it is. -/
theorem line_kept (p : FoundPayload) {q : Bytes} (hq : q <+: body libc p) (hne : q ≠ []) :
    stripEnd q = q ∧ isBlank q = false := by
  obtain ⟨hnl, hcr⟩ := body_no_break hlibc p
  obtain ⟨c, q, rfl⟩ := List.exists_cons_of_ne_nil hne
  refine ⟨?_, ?_⟩
  · unfold stripEnd
    cases hr : (c :: q).reverse with
    | nil => simp at hr
    | cons d r =>
      have hd : d ∈ c :: q := List.mem_reverse.mp (hr ▸ List.mem_cons_self)
      have hd₁ : d ≠ 13 := fun h => hcr (hq.subset (h ▸ hd))
      have hd₂ : d ≠ nl := fun h => hnl (hq.subset (h ▸ hd))
      rw [List.dropWhile_cons_of_neg (by simp [hd₁, hd₂]), ← hr, List.reverse_reverse]
  · obtain ⟨rfl, -⟩ := List.cons_prefix_cons.mp hq
    unfold isBlank
    rw [List.all_cons]
    rfl

/-- Whole lines are handed to the journal one by one. -/
theorem importLoop_bodies {rest : List Bytes} :
    ∀ (ps : List FoundPayload) (j : List FoundPayload) (stats : ImportStats),
      (∀ p ∈ ps, p.hashes_per_second.isFinite = true) →
      importLoop libc accept (ps.map (body libc) ++ rest) j stats =
        importLoop libc accept rest (j ++ ps) { stats with imported := stats.imported + ps.length }
  | [], j, stats, _ => by simp
  | p :: ps, j, stats, hfin => by
    obtain ⟨hstrip, hblank⟩ := line_kept hlibc p (List.prefix_refl _) (List.cons_ne_nil _ _)
    rw [List.map_cons, List.cons_append, importLoop, hstrip, hblank,
      parseLine_body hlibc (hfin p List.mem_cons_self)]
    show importLoop libc accept (ps.map (body libc) ++ rest) (j ++ [p])
      { stats with imported := stats.imported + 1 } = _
    rw [importLoop_bodies ps _ _ fun x hx => hfin x (List.mem_cons_of_mem _ hx)]
    simp only [List.append_assoc, List.singleton_append, List.length_cons]
    congr 2
    omega

/-- A file of whole lines, and a last one cut short, is read as the lines and
the rest. -/
theorem lines_serialized (ps : List FoundPayload) {q : Bytes} (hq : nl ∉ q) :
    lines (ps.flatMap (serialize libc) ++ q) =
      ps.map (body libc) ++ if q = [] then [] else [q] := by
  have hser : serialize libc = fun p => body libc p ++ [nl] := funext (serialize_eq libc)
  rw [hser]
  exact lines_flatMap (fun p => (body_no_break hlibc p).1) ps hq

/-- For every list of payloads with finite rates, `importInto` over the lines of
the list hands the journal exactly the list, in order, and counts nothing as
malformed; and no prefix of a payload's line that lacks the closing brace is
accepted by the parser. -/
theorem sink_round_trip :
    (∀ ps : List FoundPayload, (∀ p ∈ ps, p.hashes_per_second.isFinite = true) →
      importInto libc accept [] (.bytes (ps.flatMap (serialize libc))) =
        (ps, ⟨ps.length, 0, true⟩, true)) ∧
    ∀ (p : FoundPayload) (s q : Bytes), serialize libc p = s ++ [ch '}', nl] → q <+: s →
      parseFlatObject q = none := by
  refine ⟨fun ps hfin => ?_, fun p s q hs hq => ?_⟩
  · have hlines := lines_serialized hlibc ps (q := []) List.not_mem_nil
    rw [List.append_nil, if_pos rfl] at hlines
    show importLoop libc accept (lines (ps.flatMap (serialize libc))) [] ⟨0, 0, true⟩ = _
    rw [hlines, importLoop_bodies hlibc ps [] _ hfin, importLoop, Nat.zero_add, List.nil_append]
  · have hbody : s = ch '{' :: joined (members libc p) := by
      rw [serialize_eq] at hs
      have hsplit : body libc p ++ [nl] = (ch '{' :: joined (members libc p)) ++ [ch '}', nl] := by
        simp [body]
      exact (List.append_cancel_right (hsplit.symm.trans hs)).symm
    exact parseFlatObject_cut hlibc p (hbody ▸ hq)

end Files



/-- A C library that prints 1.0 as `1`, spells other finite doubles by their bits,
and reads its own spellings back. -/
def sampleLibc : Libc where
  fmt d :=
    if d.isFinite then
      if d.bits = 0x3FF0000000000000 then lit "1" else ch '-' :: toDecimal d.bits.toNat
    else lit "nan"
  strtod s :=
    match s with
    | [] => (⟨0⟩, 0)
    | c :: t =>
      if c = ch '-' then (⟨BitVec.ofNat 64 (digitsVal 0 t)⟩, s.length)
      else (⟨0x3FF0000000000000⟩, 1)

/-- The sample formatter reads back what it has written. -/
theorem sampleLibc_standard : sampleLibc.Standard where
  finite d hd := by
    have hone : lit "1" ≠ [] ∧ (lit "1").length < 64 ∧
      ∀ c ∈ lit "1", isRateByte c = true := by
      decide
    simp only [sampleLibc, hd, if_true]
    split
    · exact hone
    · refine ⟨List.cons_ne_nil _ _, ?_, ?_⟩
      · have hbits : d.bits.toNat < 10 ^ (19 + 1) :=
          Nat.lt_of_lt_of_le d.bits.isLt (by decide)
        have hlen := digits_length (d.bits.toNat + 1) 19 d.bits.toNat hbits
        show (toDecimal d.bits.toNat).length + 1 < 64
        unfold toDecimal
        omega
      · intro c hc
        rcases List.mem_cons.mp hc with rfl | hc
        · decide
        · exact (isToken_toDecimal _).2 c hc
  read d hd := by
    have hone : sampleLibc.strtod (lit "1") = (⟨0x3FF0000000000000⟩, (lit "1").length) := by
      decide
    obtain ⟨b⟩ := d
    by_cases hb : b = 0x3FF0000000000000
    · have hfmt : sampleLibc.fmt ⟨b⟩ = lit "1" := by
        simp only [sampleLibc, hd, if_true, if_pos hb]
      rw [hfmt, hone, hb]
    · obtain ⟨-, -, hval⟩ := digits_spec (b.toNat + 1) b.toNat (Nat.lt_succ_self _)
      have hfmt : sampleLibc.fmt ⟨b⟩ = ch '-' :: toDecimal b.toNat := by
        simp only [sampleLibc, hd, if_true, if_neg hb]
      rw [hfmt]
      show (Double.mk (BitVec.ofNat 64 (digitsVal 0 (toDecimal b.toNat))), _) = _
      rw [show digitsVal 0 (toDecimal b.toNat) = b.toNat from hval, BitVec.ofNat_toNat,
        BitVec.setWidth_eq]
  other d hd := by
    have hfmt : sampleLibc.fmt d = lit "nan" := by
      simp only [sampleLibc, hd, Bool.false_eq_true, if_false]
    rw [hfmt]
    decide

/-- A payload with every kind of byte in its strings. -/
def samplePayload : FoundPayload :=
  ⟨[0, 10, 13, 34, 92, 31, 127, 128, 255], lit "h", lit "0xabc", .XUNI, 4294967295, [9, 47],
    18446744073709551615, ⟨0x3FF0000000000000⟩, []⟩

/-- Two lines with escapes and control characters in their texts. -/
theorem sink_round_trip_sample :
    importInto sampleLibc accept [] (.bytes ([samplePayload, samplePayload].flatMap
      (serialize sampleLibc))) = ([samplePayload, samplePayload], ⟨2, 0, true⟩, true) ∧
    parseFlatObject ((body sampleLibc samplePayload).dropLast) = none := by
  have hrt := sink_round_trip sampleLibc_standard
  refine ⟨hrt.1 [samplePayload, samplePayload] (by decide), ?_⟩
  have hbody : (body sampleLibc samplePayload).dropLast =
      ch '{' :: joined (members sampleLibc samplePayload) := by
    unfold body
    rw [← List.cons_append, List.dropLast_concat]
  refine hrt.2 samplePayload _ _ ?_ (List.prefix_refl _)
  rw [serialize_eq, hbody]
  simp [body]

end TreeMiner.FallbackSink

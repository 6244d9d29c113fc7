import TreeMiner.Submit.RustManager

/-!
# HTTP dates on both sides

The C++ manager reads a `Date` header with stream extraction, the Rust manager by words.
On an IMF-fixdate, whatever its numbers, they come to the same (`fixdate_agrees`).

Neither reader is compared with the grammar of the RFC. Both are run on the text of a
`Fixdate`, field by field: the stream extraction skips and converts, the words are split
and parsed, and each field comes out with the number it was written from. What is not a
fixdate is left open.
-/

namespace TreeMiner.RustManager

open Cxx RustClassifier RustTransport

/-- An IMF-fixdate with a four-digit year. Its numbers need not name a day or a time. -/
structure Fixdate where
  wkday : Fin 7
  day : Fin 100
  month : Fin 12
  year : Fin 10000
  hour : Fin 100
  minute : Fin 100
  second : Fin 100

namespace Fixdate

/-- The last decimal digit. -/
def digit (n : Nat) : Char := Char.ofNat (48 + n % 10)

def pair (n : Nat) : Str := [digit (n / 10), digit n]

def quad (n : Nat) : Str := [digit (n / 1000), digit (n / 100), digit (n / 10), digit n]

def wkdayName (i : Fin 7) : Str :=
  (["Mon", "Tue", "Wed", "Thu", "Fri", "Sat", "Sun"].get i).toList

def monthName (i : Fin 12) : Str :=
  (["Jan", "Feb", "Mar", "Apr", "May", "Jun", "Jul", "Aug", "Sep", "Oct", "Nov",
    "Dec"].get i).toList

/-- The time of day. -/
def time (d : Fixdate) : Str := pair d.hour ++ ':' :: (pair d.minute ++ ':' :: pair d.second)

/-- `Sun, 06 Nov 1994 08:49:37 GMT`. -/
def text (d : Fixdate) : Str :=
  wkdayName d.wkday ++ ',' :: (' ' :: (pair d.day ++ ' ' :: (monthName d.month ++ ' ' ::
    (quad d.year ++ ' ' :: (d.time ++ ' ' :: "GMT".toList)))))

end Fixdate

open Fixdate

/-- The time of day in seconds, unless it is none. -/
def Fixdate.seconds (d : Fixdate) : Option Nat :=
  if (d.hour : Nat) > 23 ∨ (d.minute : Nat) > 59 ∨ (d.second : Nat) > 60 then none
  else some (d.hour * 3600 + d.minute * 60 + d.second)

/-- What both readers make of it. -/
def Fixdate.value (d : Fixdate) : Option Int :=
  if (d.day : Int) < 1 ∨ (d.day : Int) > 31 ∨ (d.year : Int) < 1970 then none
  else d.seconds.map fun secs =>
    daysFromCivil d.year (d.month + 1) d.day * 86400000 + secs * 1000

/-! ## By words -/

section Words

variable {n acc : Nat} {s : Str}

/-- The character of a digit has its value and is no blank. -/
theorem digit_spec (n : Nat) : (digit n).isDigit = true ∧ (digit n).toNat = 48 + n % 10 ∧
    isWhitespace (digit n) = false := by
  have hall : ∀ k < 10, (Char.ofNat (48 + k)).isDigit = true ∧
      (Char.ofNat (48 + k)).toNat = 48 + k ∧ isWhitespace (Char.ofNat (48 + k)) = false := by
    decide
  exact hall (n % 10) (Nat.mod_lt n (by decide))

/-- One digit more is one step of the parser. -/
theorem digits_value_digit :
    digitsValue acc (digit n :: s) = digitsValue (acc * 10 + n % 10) s := by
  obtain ⟨hdig, hval, -⟩ := digit_spec n
  rw [digitsValue, if_pos hdig, hval, Nat.add_sub_cancel_left]

/-- Two digits are parsed to their number. -/
theorem parse_digits_pair (h : n < 100) : parseDigits (pair n) = some n := by
  unfold pair
  rw [parseDigits, if_neg (List.cons_ne_nil _ _), digits_value_digit, digits_value_digit,
    digitsValue]
  congr 1
  omega

/-- So are four. -/
theorem parse_digits_quad (h : n < 10000) : parseDigits (quad n) = some n := by
  unfold quad
  rw [parseDigits, if_neg (List.cons_ne_nil _ _), digits_value_digit, digits_value_digit,
    digits_value_digit, digits_value_digit, digitsValue]
  congr 1
  omega

/-- A digit is no sign. -/
theorem digit_ne_sign : digit n ≠ '-' ∧ digit n ≠ '+' := by
  have hall : ∀ k < 10, Char.ofNat (48 + k) ≠ '-' ∧ Char.ofNat (48 + k) ≠ '+' := by decide
  exact hall (n % 10) (Nat.mod_lt n (by decide))

/-- The day of the month, as an `i32`. -/
theorem parse_i32_pair (h : n < 100) : parseI32 (pair n) = some (n : Int) := by
  have hd := parse_digits_pair h
  unfold pair at hd ⊢
  unfold parseI32
  split
  next heq => exact absurd (List.cons.inj heq).1 digit_ne_sign.1
  next heq => exact absurd (List.cons.inj heq).1 digit_ne_sign.2
  next =>
    rw [hd, Option.bind_some, if_pos (by omega)]

/-- The year, as an `i64`. -/
theorem parse_i64_quad (h : n < 10000) : parseI64 (quad n) = some (n : Int) := by
  have hd := parse_digits_quad h
  unfold quad at hd ⊢
  unfold parseI64
  split
  next heq => exact absurd (List.cons.inj heq).1 digit_ne_sign.1
  next heq => exact absurd (List.cons.inj heq).1 digit_ne_sign.2
  next =>
    rw [hd, Option.bind_some, if_pos (by omega)]

/-- The names of the months are read as their numbers. -/
theorem month_from_name_monthName : ∀ i : Fin 12, monthFromName (monthName i) = i + 1 := by
  decide

/-- The time of a fixdate is read as its seconds, if there are such. -/
theorem parse_hms_time (d : Fixdate) : parseHms d.time = d.seconds := by
  unfold Fixdate.time pair
  simp only [List.cons_append, List.nil_append]
  unfold parseHms Fixdate.seconds
  simp only [List.all_cons, List.all_nil, (digit_spec _).1, (digit_spec _).2.1]
  have hh := d.hour.isLt
  have hm := d.minute.isLt
  have hs := d.second.isLt
  have hpair : ∀ k : Nat, k < 100 → (48 + k / 10 % 10 - 48) * 10 + (48 + k % 10 - 48) = k := by
    intro k hk
    omega
  rw [hpair _ hh, hpair _ hm, hpair _ hs]
  simp

/-- The words of a text that starts with one. -/
theorem split_whitespace_cons {w : Str} (hw : ∀ c ∈ w, isWhitespace c = false)
    (hne : w ≠ []) :
    splitWhitespace (w ++ ' ' :: s) = w :: splitWhitespace s := by
  unfold splitWhitespace
  rw [List.splitOnP_append_cons_of_forall_mem hw ' ' (by decide),
    List.filter_cons_of_pos (by simpa using hne)]

/-- A blank in front splits nothing off. -/
theorem split_whitespace_space : splitWhitespace (' ' :: s) = splitWhitespace s := by
  unfold splitWhitespace
  rw [← List.nil_append (' ' :: s),
    List.splitOnP_append_cons_of_forall_mem (fun _ h => absurd h List.not_mem_nil) ' ' (by decide),
    List.filter_cons_of_neg (by simp)]

/-- A last word is split off whole. -/
theorem split_whitespace_last {w : Str} (hw : ∀ c ∈ w, isWhitespace c = false)
    (hne : w ≠ []) :
    splitWhitespace w = [w] := by
  unfold splitWhitespace
  rw [List.splitOnP_eq_singleton hw, List.filter_cons_of_pos (by simpa using hne), List.filter_nil]

/-- For words that are checked letter by letter. -/
theorem word_of_all {w : Str} (h : w.all (fun c => !isWhitespace c) = true) :
    ∀ c ∈ w, isWhitespace c = false := by
  intro c hc
  simpa using List.all_eq_true.mp h c hc

/-- The fields of a fixdate are words without blanks. -/
theorem pair_words (n : Nat) : (∀ c ∈ pair n, isWhitespace c = false) ∧ pair n ≠ [] := by
  refine ⟨?_, List.cons_ne_nil _ _⟩
  intro c hc
  simp only [pair, List.mem_cons, List.not_mem_nil, or_false] at hc
  rcases hc with rfl | rfl
  · exact (digit_spec _).2.2
  · exact (digit_spec _).2.2

theorem quad_words (n : Nat) : (∀ c ∈ quad n, isWhitespace c = false) ∧ quad n ≠ [] := by
  refine ⟨?_, List.cons_ne_nil _ _⟩
  intro c hc
  simp only [quad, List.mem_cons, List.not_mem_nil, or_false] at hc
  rcases hc with rfl | rfl | rfl | rfl
  · exact (digit_spec _).2.2
  · exact (digit_spec _).2.2
  · exact (digit_spec _).2.2
  · exact (digit_spec _).2.2

theorem time_word (d : Fixdate) : (∀ c ∈ d.time, isWhitespace c = false) ∧ d.time ≠ [] := by
  refine ⟨?_, by simp [Fixdate.time]⟩
  intro c hc
  simp only [Fixdate.time, List.mem_append, List.mem_cons] at hc
  rcases hc with hc | rfl | hc | rfl | hc
  · exact (pair_words _).1 c hc
  · decide
  · exact (pair_words _).1 c hc
  · decide
  · exact (pair_words _).1 c hc

theorem month_word (i : Fin 12) :
    (∀ c ∈ monthName i, isWhitespace c = false) ∧ monthName i ≠ [] := by
  have hall : ∀ i : Fin 12, (monthName i).all (fun c => !isWhitespace c) = true ∧
      monthName i ≠ [] := by
    decide
  exact ⟨word_of_all (hall i).1, (hall i).2⟩

/-- What stands behind the comma of a fixdate, field by field. -/
theorem after_comma_text (d : Fixdate) : afterComma d.text = ' ' :: (pair d.day ++ ' ' ::
    (monthName d.month ++ ' ' :: (quad d.year ++ ' ' :: (d.time ++ ' ' :: "GMT".toList)))) := by
  have hall : ∀ i : Fin 7, (wkdayName i).all (fun c => decide (c ≠ ',')) = true := by
    decide
  unfold afterComma Fixdate.text
  rw [List.dropWhile_append_of_pos (List.all_eq_true.mp (hall d.wkday)),
    List.dropWhile_cons_of_neg (by decide)]

/-- A fixdate is read by Rust as the instant it stands for. -/
theorem parse_http_date_ms_text (d : Fixdate) : parseHttpDateMs d.text = d.value := by
  unfold parseHttpDateMs
  rw [after_comma_text, split_whitespace_space,
    split_whitespace_cons (pair_words _).1 (pair_words _).2,
    split_whitespace_cons (month_word _).1 (month_word _).2,
    split_whitespace_cons (quad_words _).1 (quad_words _).2,
    split_whitespace_cons (time_word d).1 (time_word d).2,
    split_whitespace_last (word_of_all (by decide)) (by decide)]
  simp only
  rw [parse_i32_pair d.day.isLt, parse_i64_quad d.year.isLt, month_from_name_monthName,
    parse_hms_time]
  unfold Fixdate.value
  simp only [Option.bind_eq_bind, Option.bind_some]
  rw [if_neg (by decide)]
  have hmonth : ((d.month : Nat) + 1 = 0) ↔ False :=
    iff_false_intro (Nat.succ_ne_zero _)
  simp only [hmonth, false_or, Int.toNat_natCast]
  split
  · rfl
  · cases d.seconds <;> rfl

end Words

/-! ## By stream extraction -/

section Stream

variable {n : Nat} {s rest : Bytes}

/-- A character of ASCII text as its byte. -/
def byte (c : Char) : UInt8 := UInt8.ofNat c.toNat

/-- The byte of a digit has its value, and is neither a blank nor a sign. -/
theorem byte_digit (n : Nat) :
    isDigit (byte (digit n)) = true ∧ (byte (digit n)).toNat = 48 + n % 10 ∧
    isSpace (byte (digit n)) = false ∧ byte (digit n) ≠ ch '-' ∧
      byte (digit n) ≠ ch '+' := by
  have hall : ∀ k < 10, isDigit (byte (Char.ofNat (48 + k))) = true ∧
      (byte (Char.ofNat (48 + k))).toNat = 48 + k ∧
        isSpace (byte (Char.ofNat (48 + k))) = false ∧
      byte (Char.ofNat (48 + k)) ≠ ch '-' ∧ byte (Char.ofNat (48 + k)) ≠ ch '+' := by
    decide
  exact hall (n % 10) (Nat.mod_lt n (by decide))

/-- A number between blanks is read off. -/
theorem readInt_digits {c : UInt8} {ds : Bytes} (hds : ∀ x ∈ c :: ds, isDigit x = true)
    (hc : isSpace c = false ∧ c ≠ ch '-' ∧ c ≠ ch '+')
    (hval : digitsVal 0 (c :: ds) ≤ 2147483647) :
    readInt (32 :: (c :: ds ++ 32 :: rest)) = some ((digitsVal 0 (c :: ds) : Int), 32 :: rest) := by
  have hskip : skipWs (32 :: (c :: ds ++ 32 :: rest)) = c :: (ds ++ 32 :: rest) := by
    unfold skipWs
    rw [List.dropWhile_cons_of_pos (by decide), List.cons_append,
      List.dropWhile_cons_of_neg (by rw [hc.1]; decide)]
  have htake : (c :: (ds ++ 32 :: rest)).takeWhile isDigit = c :: ds := by
    rw [← List.cons_append, List.takeWhile_append_of_pos hds,
      List.takeWhile_cons_of_neg (by decide), List.append_nil]
  have hdrop : (c :: (ds ++ 32 :: rest)).dropWhile isDigit = 32 :: rest := by
    rw [← List.cons_append, List.dropWhile_append_of_pos hds,
      List.dropWhile_cons_of_neg (by decide)]
  unfold readInt
  rw [hskip]
  simp only [if_neg hc.2.1, if_neg hc.2.2]
  rw [htake, hdrop, if_neg]
  · rfl
  · simp
    omega

/-- A word is read up to the blank behind it. -/
theorem readWord_word {w : Bytes} (hw : ∀ x ∈ w, isSpace x = false) (hne : w ≠ []) :
    readWord (32 :: (w ++ 32 :: rest)) = some (w, 32 :: rest) := by
  obtain ⟨c, ds, rfl⟩ := List.exists_cons_of_ne_nil hne
  have hskip : skipWs (32 :: (c :: ds ++ 32 :: rest)) = c :: ds ++ 32 :: rest := by
    unfold skipWs
    rw [List.dropWhile_cons_of_pos (by decide), List.cons_append,
      List.dropWhile_cons_of_neg (by rw [hw c List.mem_cons_self]; decide)]
  have hword : ∀ x ∈ c :: ds, (!isSpace x) = true := fun x hx => by rw [hw x hx]; rfl
  unfold readWord
  rw [hskip]
  simp only
  rw [List.takeWhile_append_of_pos hword, List.takeWhile_cons_of_neg (by decide), List.append_nil,
    List.dropWhile_append_of_pos hword, List.dropWhile_cons_of_neg (by decide), if_neg hne]

/-- Or up to the end of the text. -/
theorem readWord_last {w : Bytes} (hw : ∀ x ∈ w, isSpace x = false) (hne : w ≠ []) :
    readWord (32 :: w) = some (w, []) := by
  obtain ⟨c, ds, rfl⟩ := List.exists_cons_of_ne_nil hne
  have hskip : skipWs (32 :: (c :: ds)) = c :: ds := by
    unfold skipWs
    rw [List.dropWhile_cons_of_pos (by decide),
      List.dropWhile_cons_of_neg (by rw [hw c List.mem_cons_self]; decide)]
  have hword : ∀ x ∈ c :: ds, (!isSpace x) = true := fun x hx => by rw [hw x hx]; rfl
  have htake : (c :: ds).takeWhile (!isSpace ·) = c :: ds := by
    have happ : ((c :: ds) ++ []).takeWhile (!isSpace ·) = (c :: ds) ++ _ :=
      List.takeWhile_append_of_pos hword
    rwa [List.append_nil, List.takeWhile_nil, List.append_nil] at happ
  have hdrop : (c :: ds).dropWhile (!isSpace ·) = [] := by
    have happ : ((c :: ds) ++ []).dropWhile (!isSpace ·) = _ := List.dropWhile_append_of_pos hword
    rwa [List.append_nil, List.dropWhile_nil] at happ
  unfold readWord
  rw [hskip]
  simp only
  rw [htake, hdrop, if_neg hne]

/-- One digit more is one step of the sum. -/
theorem digitsVal_digit {acc : Nat} :
    digitsVal acc (byte (digit n) :: s) = digitsVal (acc * 10 + n % 10) s := by
  rw [digitsVal_cons, (byte_digit n).2.1, Nat.add_sub_cancel_left]

/-- Two digits are summed up to their number. -/
theorem digitsVal_pair (h : n < 100) : digitsVal 0 ((pair n).map byte) = n := by
  simp only [pair, List.map_cons, List.map_nil, digitsVal_digit, digitsVal_nil]
  omega

/-- So are four. -/
theorem digitsVal_quad (h : n < 10000) : digitsVal 0 ((quad n).map byte) = n := by
  simp only [quad, List.map_cons, List.map_nil, digitsVal_digit, digitsVal_nil]
  omega

/-- A number that fits an `int` is read up to the blank behind it. -/
theorem readInt_digit {k : Nat} {ks : List Nat} (rest : Bytes)
    (hle : digitsVal 0 (((k :: ks).map digit).map byte) ≤ 2147483647) :
    readInt (32 :: (((k :: ks).map digit).map byte ++ 32 :: rest)) =
      some ((digitsVal 0 (((k :: ks).map digit).map byte) : Int), 32 :: rest) := by
  have hds : ∀ x ∈ ((k :: ks).map digit).map byte, isDigit x = true := by
    intro x hx
    obtain ⟨_, hc, rfl⟩ := List.mem_map.mp hx
    obtain ⟨j, -, rfl⟩ := List.mem_map.mp hc
    exact (byte_digit j).1
  exact readInt_digits hds (byte_digit k).2.2 hle

/-- The day of the month, as an `int`. -/
theorem readInt_pair (h : n < 100) :
    readInt (32 :: ((pair n).map byte ++ 32 :: rest)) = some ((n : Int), 32 :: rest) := by
  have hval : digitsVal 0 (([n / 10, n].map digit).map byte) = n := digitsVal_pair h
  have hread := readInt_digit rest (by rw [hval]; omega)
  rw [hval] at hread
  exact hread

/-- The year, as an `int`. -/
theorem readInt_quad (h : n < 10000) :
    readInt (32 :: ((quad n).map byte ++ 32 :: rest)) = some ((n : Int), 32 :: rest) := by
  have hval : digitsVal 0 (([n / 1000, n / 100, n / 10, n].map digit).map byte) = n :=
    digitsVal_quad h
  have hread := readInt_digit rest (by rw [hval]; omega)
  rw [hval] at hread
  exact hread

/-- The names of the months as bytes: words, and read as their numbers. -/
theorem monthFromName_monthName : ∀ i : Fin 12,
    (∀ x ∈ (monthName i).map byte, isSpace x = false) ∧ (monthName i).map byte ≠ [] ∧
      TreeMiner.monthFromName ((monthName i).map byte) = i + 1 := by
  decide

/-- The time is a word. -/
theorem time_bytes (d : Fixdate) :
    (∀ x ∈ d.time.map byte, isSpace x = false) ∧ d.time.map byte ≠ [] := by
  refine ⟨?_, by simp [Fixdate.time]⟩
  intro x hx
  obtain ⟨c, hc, rfl⟩ := List.mem_map.mp hx
  simp only [Fixdate.time, pair, List.mem_append, List.mem_cons, List.not_mem_nil, or_false] at hc
  have hcolon : isSpace (byte ':') = false := by decide
  rcases hc with (rfl | rfl) | rfl | (rfl | rfl) | rfl | rfl | rfl
  · exact (byte_digit _).2.2.1
  · exact (byte_digit _).2.2.1
  · exact hcolon
  · exact (byte_digit _).2.2.1
  · exact (byte_digit _).2.2.1
  · exact hcolon
  · exact (byte_digit _).2.2.1
  · exact (byte_digit _).2.2.1

/-- And is read as its seconds, as in Rust. -/
theorem parseHms_time (d : Fixdate) : TreeMiner.parseHms (d.time.map byte) = d.seconds := by
  have hcolon : byte ':' = ch ':' := by decide
  have hdig : ∀ i, isDigit (byte (digit i)) = true := fun i => (byte_digit i).1
  have hpair : ∀ k : Nat, k < 100 → digitsVal 0 [byte (digit (k / 10)), byte (digit k)] = k :=
    fun k hk => digitsVal_pair hk
  unfold Fixdate.time pair
  simp only [List.cons_append, List.nil_append, List.map_cons, List.map_nil, hcolon]
  unfold TreeMiner.parseHms Fixdate.seconds
  simp only [List.all_cons, List.all_nil, hdig, hpair _ d.hour.isLt, hpair _ d.minute.isLt,
    hpair _ d.second.isLt, and_self, if_true, Bool.and_self]

/-- What stands behind the comma, as bytes. -/
theorem afterComma_text (d : Fixdate) : TreeMiner.afterComma (d.text.map byte) =
    32 :: ((pair d.day).map byte ++ 32 :: ((monthName d.month).map byte ++ 32 ::
      ((quad d.year).map byte ++ 32 :: (d.time.map byte ++ 32 :: lit "GMT")))) := by
  have hall : ∀ i : Fin 7, ∀ c ∈ (wkdayName i).map byte, (c != ch ',') = true := by decide
  have hspace : byte ' ' = 32 := by decide
  have hgmt : "GMT".toList.map byte = lit "GMT" := by decide
  unfold TreeMiner.afterComma Fixdate.text
  simp only [List.map_append, List.map_cons, hspace, hgmt]
  rw [List.dropWhile_append_of_pos (hall d.wkday), List.dropWhile_cons_of_neg (by decide)]

/-- A fixdate is read by C++ as the instant it stands for. -/
theorem parseHttpDateMs_text (d : Fixdate) :
    TreeMiner.parseHttpDateMs (d.text.map byte) = d.value := by
  obtain ⟨hmonth, hmonth_ne, hname⟩ := monthFromName_monthName d.month
  unfold TreeMiner.parseHttpDateMs
  rw [afterComma_text, readInt_pair d.day.isLt]
  simp only [Option.bind_eq_bind, Option.bind_some]
  rw [readWord_word hmonth hmonth_ne]
  simp only [Option.bind_some]
  rw [readInt_quad d.year.isLt]
  simp only [Option.bind_some]
  rw [readWord_word (time_bytes d).1 (time_bytes d).2]
  simp only [Option.bind_some]
  rw [readWord_last (by decide) (by decide)]
  simp only [Option.bind_some, ne_eq, not_true_eq_false, false_and, if_false]
  rw [hname, parseHms_time]
  unfold Fixdate.value
  have hsucc : ((d.month : Nat) + 1 = 0) ↔ False := iff_false_intro (Nat.succ_ne_zero _)
  simp only [hsucc, false_or, Int.toNat_natCast]
  split
  · rfl
  · cases d.seconds <;> rfl

end Stream

/-- Both managers read a fixdate alike. -/
theorem fixdate_agrees (d : Fixdate) :
    TreeMiner.parseHttpDateMs (d.text.map byte) = parseHttpDateMs d.text := by
  rw [parseHttpDateMs_text, parse_http_date_ms_text]

end TreeMiner.RustManager

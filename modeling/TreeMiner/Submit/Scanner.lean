import TreeMiner.Lib.Json
import TreeMiner.Submit.Classifier

/-!
# The hand-written scanner on well-formed JSON

The scanner of `ResponseClassifier.cpp` validates nothing it does not need: it
jumps over strings, counts brackets of one kind and stops bare tokens at the
next delimiter. On a text that *is* JSON that is enough, and this module says
so: `skipJsonValue_val` passes over any value, and `fieldLoop_member` gives one
turn of the member loop for any field name written in plain ASCII.

A decoded JSON string and the bytes the scanner decodes are related by `Shown`:
ASCII is kept, and everything else shows up as bytes outside ASCII (raw UTF-8)
or as `?` (a `\u` escape).
-/

namespace TreeMiner

open Cxx

/-! ## Blanks -/

/-- A blank of the grammar is a blank of the scanner. -/
theorem isSpace_of_isWs {c : UInt8} (h : Json.isWs c = true) : isSpace c = true := by
  unfold Json.isWs at h
  simp only [Bool.or_eq_true, beq_iff_eq] at h
  rcases h with ((rfl | rfl) | rfl) | rfl <;> rfl

/-- So the blanks that the grammar allows are skipped. -/
theorem skipWs_ws {s t : Bytes} (h : Json.Ws s t) : skipWs s = skipWs t := by
  induction h with
  | nil => rfl
  | cons hc _ ih =>
    rw [← ih]
    unfold skipWs
    rw [List.dropWhile_cons_of_pos (isSpace_of_isWs hc)]

/-- Nothing is skipped before another byte. -/
theorem skipWs_cons {c : UInt8} {s : Bytes} (h : isSpace c = false) : skipWs (c :: s) = c :: s := by
  unfold skipWs
  rw [List.dropWhile_cons_of_neg (by simp [h])]

/-- The skipping ends where the blanks end. -/
theorem skipWs_ws_cons {c : UInt8} {s t : Bytes} (h : Json.Ws s (c :: t)) (hc : isSpace c = false) :
    skipWs s = c :: t := by
  rw [skipWs_ws h, skipWs_cons hc]

/-- Skipping twice is skipping once. -/
theorem skipWs_skipWs {s : Bytes} : skipWs (skipWs s) = skipWs s := by
  induction s with
  | nil => rfl
  | cons c s ih =>
    by_cases hc : isSpace c = true
    · have h : skipWs (c :: s) = skipWs s := List.dropWhile_cons_of_pos hc
      rw [h, ih]
    · rw [skipWs_cons (Bool.eq_false_iff.mpr hc), skipWs_cons (Bool.eq_false_iff.mpr hc)]

/-! ## Strings -/

/-- The code points of an ASCII text. -/
def codes (s : Bytes) : List Nat := s.map (·.toNat)

/-- How a decoded string looks to the scanner. -/
inductive Shown : List Nat → Bytes → Prop where
  | nil : Shown [] []
  | ascii {u : Nat} {v : List Nat} {b : Bytes} (hu : u < 128) (h : Shown v b) :
      Shown (u :: v) (UInt8.ofNat u :: b)
  | wide {u : Nat} {p : Bytes} {v : List Nat} {b : Bytes} (hu : 128 ≤ u) (hp : p ≠ [])
      (hp' : ∀ c ∈ p, c = ch '?' ∨ 128 ≤ c.toNat) (h : Shown v b) : Shown (u :: v) (p ++ b)

/-- An ASCII string is shown as it is. -/
theorem Shown.eq_of_ascii {v : List Nat} {b k : Bytes} (h : Shown v b) (hk : IsAscii k)
    (hv : v = codes k) : b = k := by
  induction h generalizing k with
  | nil =>
    cases k with
    | nil => rfl
    | cons c k => cases hv
  | @ascii u v b hu _ ih =>
    cases k with
    | nil => cases hv
    | cons c k =>
      simp only [codes, List.map_cons, List.cons.injEq] at hv
      rw [hv.1, UInt8.ofNat_toNat, ih (fun x hx => hk x (List.mem_cons_of_mem _ hx)) hv.2]
  | @wide u p v b hu _ _ _ _ =>
    cases k with
    | nil => cases hv
    | cons c k =>
      simp only [codes, List.map_cons, List.cons.injEq] at hv
      have hc := UInt8.lt_iff_toNat_lt.mp (hk c List.mem_cons_self)
      have h128 : (128 : UInt8).toNat = 128 := rfl
      omega

/-- Plain ASCII: no byte the scanner substitutes. -/
def IsPlain (s : Bytes) : Prop := ∀ c ∈ s, c.toNat < 128 ∧ c ≠ ch '?'

/-- What shows as plain ASCII is that text. -/
theorem Shown.codes_eq {v : List Nat} {b : Bytes} (h : Shown v b) (hb : IsPlain b) :
    v = codes b := by
  induction h with
  | nil => rfl
  | @ascii u v b hu _ ih =>
    simp only [codes, List.map_cons, List.cons.injEq]
    refine ⟨?_, ih fun c hc => hb c (List.mem_cons_of_mem _ hc)⟩
    rw [UInt8.toNat_ofNat', Nat.mod_eq_of_lt (by omega)]
  | @wide u p v b hu hp hp' _ _ =>
    obtain ⟨c, p, rfl⟩ := List.exists_cons_of_ne_nil hp
    have hc := hb c (by simp)
    rcases hp' c List.mem_cons_self with rfl | hw
    · exact absurd rfl hc.2
    · omega

/-- The loop over a string, byte by byte: the closing quote ends it. -/
theorem stringLoop_close {s : Bytes} : stringLoop (ch '"' :: s) = some ([], s) := by
  rw [stringLoop.eq_def]
  rfl

/-- A plain character stands for itself. -/
theorem stringLoop_char {c : UInt8} {s : Bytes} (hq : c ≠ ch '"') (hb : c ≠ ch '\\') :
    stringLoop (c :: s) = (stringLoop s).map fun r => (c :: r.1, r.2) := by
  rw [stringLoop.eq_def]
  simp only [if_neg hq, if_neg hb]

/-- An escape stands for its character. -/
theorem stringLoop_esc {e b : UInt8} {s : Bytes} (hu : e ≠ ch 'u')
    (he : simpleEscape e = some b) :
    stringLoop (ch '\\' :: e :: s) = (stringLoop s).map fun r => (b :: r.1, r.2) := by
  rw [stringLoop.eq_def]
  simp only [if_neg hu, he]
  rfl

/-- A code unit in hexadecimal stands for the byte that shows it. -/
theorem stringLoop_unit {a b c d : UInt8} {u : Nat} {s : Bytes} (hu : hex4 a b c d = some u) :
    stringLoop (ch '\\' :: ch 'u' :: a :: b :: c :: d :: s) =
      (stringLoop s).map fun r => (unitByte u :: r.1, r.2) := by
  rw [stringLoop.eq_def]
  simp only [hu]
  rfl

/-- Plain characters stand for themselves, however many. -/
theorem stringLoop_plain {p s : Bytes} (hp : ∀ c ∈ p, c ≠ ch '"' ∧ c ≠ ch '\\') :
    stringLoop (p ++ s) = (stringLoop s).map fun r => (p ++ r.1, r.2) := by
  induction p with
  | nil => simp
  | cons c p ih =>
    obtain ⟨hq, hb⟩ := hp c List.mem_cons_self
    rw [List.cons_append, stringLoop_char hq hb,
      ih fun x hx => hp x (List.mem_cons_of_mem _ hx), Option.map_map]
    rfl

/-- The escapes of the grammar are known to the scanner. -/
theorem escape_simpleEscape {e : UInt8} {u : Nat} (h : Json.escape e = some u) :
    simpleEscape e = some (UInt8.ofNat u) ∧ u < 128 ∧ e ≠ ch 'u' := by
  unfold Json.escape at h
  repeat' split at h
  all_goals cases h
  all_goals
    rename_i he
    subst he
    exact ⟨rfl, by decide, by decide⟩

/-- A byte of a raw character neither closes the string nor escapes. -/
theorem utf8EncodeChar_raw {c : Char} (hq : c ≠ '"') (hb : c ≠ '\\') :
    ∀ x ∈ String.utf8EncodeChar c, x ≠ ch '"' ∧ x ≠ ch '\\' := by
  intro x hx
  by_cases hw : c.toNat < 128
  · rw [Json.utf8EncodeChar_ascii hw, List.mem_singleton] at hx
    have hne : ∀ d : Char, d.toNat < 128 → c ≠ d → x ≠ ch d := by
      intro d hd hcd heq
      rw [hx] at heq
      have hval := congrArg UInt8.toNat heq
      simp only [ch, UInt8.toNat_ofNat'] at hval
      rw [Nat.mod_eq_of_lt (by omega), Nat.mod_eq_of_lt (by omega)] at hval
      exact hcd (Char.toNat_inj.mp hval)
    exact ⟨hne _ (by decide) hq, hne _ (by decide) hb⟩
  · have h128 := (Json.utf8EncodeChar_wide (c := c) (by omega)).2 x hx
    refine ⟨?_, ?_⟩
    · rintro rfl
      exact absurd h128 (by decide)
    · rintro rfl
      exact absurd h128 (by decide)

/-- The scanner decodes every JSON string. -/
theorem stringLoop_chars {s t : Bytes} {v : List Nat} (h : Json.Chars s v t) :
    ∃ b, stringLoop s = some (b, t) ∧ Shown v b := by
  induction h with
  | close t => exact ⟨[], stringLoop_close, .nil⟩
  | @char c s t v hc hq hb _ ih =>
    obtain ⟨b, hb', hs⟩ := ih
    rw [stringLoop_plain (utf8EncodeChar_raw hq hb), hb']
    refine ⟨_, rfl, ?_⟩
    by_cases hw : c.toNat < 128
    · rw [Json.utf8EncodeChar_ascii hw]
      exact .ascii hw hs
    · obtain ⟨hnil, hwide⟩ := Json.utf8EncodeChar_wide (c := c) (by omega)
      exact .wide (by omega) hnil (fun x hx => Or.inr (hwide x hx)) hs
  | esc he _ ih =>
    obtain ⟨b, hb', hs⟩ := ih
    obtain ⟨hse, hu, hne⟩ := escape_simpleEscape he
    rw [stringLoop_esc hne hse, hb']
    exact ⟨_, rfl, .ascii hu hs⟩
  | @unit a b c d u s t v hu _ ih =>
    obtain ⟨b', hb', hs⟩ := ih
    rw [stringLoop_unit hu, hb']
    refine ⟨_, rfl, ?_⟩
    unfold unitByte
    split
    next hlt => exact .ascii hlt hs
    next hge => exact Shown.wide (p := [ch '?']) (by omega) (by simp) (by simp) hs

/-- A string token, after blanks. -/
theorem parseJsonString_chars {s s₁ t : Bytes} {v : List Nat} (hw : Json.Ws s (ch '"' :: s₁))
    (h : Json.Chars s₁ v t) : ∃ b, parseJsonString (skipWs s) = some (b, t) ∧ Shown v b := by
  rw [skipWs_ws_cons hw rfl]
  exact stringLoop_chars h

/-! ## Bare tokens -/

/-- The bytes of a number or a literal name. -/
def isToken (c : UInt8) : Bool := isAlnum c || c == ch '-' || c == ch '+' || c == ch '.'

/-- A token byte is neither blank nor a delimiter nor the start of anything
else. -/
theorem isToken_not {c : UInt8} (h : isToken c = true) :
    isSpace c = false ∧ endsBare c = false ∧ c ≠ ch '"' ∧ c ≠ ch '{' ∧ c ≠ ch '}' ∧
      c ≠ ch '[' ∧ c ≠ ch ']' := by
  have hall : ∀ n < 256, isToken (UInt8.ofNat n) = true → isSpace (UInt8.ofNat n) = false ∧
      endsBare (UInt8.ofNat n) = false ∧ UInt8.ofNat n ≠ ch '"' ∧ UInt8.ofNat n ≠ ch '{' ∧
      UInt8.ofNat n ≠ ch '}' ∧ UInt8.ofNat n ≠ ch '[' ∧ UInt8.ofNat n ≠ ch ']' := by
    decide +kernel
  have hc := hall c.toNat c.toNat_lt
  rw [UInt8.ofNat_toNat] at hc
  exact hc h

/-- The bytes of a number are bytes of a token. -/
theorem isToken_of_isNumByte {c : UInt8} (h : Json.isNumByte c = true) : isToken c = true := by
  have hall : ∀ n < 256, Json.isNumByte (UInt8.ofNat n) = true →
    isToken (UInt8.ofNat n) = true := by
    decide +kernel
  have hc := hall c.toNat c.toNat_lt
  rw [UInt8.ofNat_toNat] at hc
  exact hc h

/-! ## Counting brackets -/

/-- The two kinds of brackets. -/
inductive Kind where
  | brace
  | bracket
  deriving DecidableEq

def Kind.opn : Kind → UInt8
  | .brace => ch '{'
  | .bracket => ch '['

def Kind.cls : Kind → UInt8
  | .brace => ch '}'
  | .bracket => ch ']'

/-- With `d` brackets of kind `k` open, the bracket loop started at `s` ends at
`r`; with none open it has ended. -/
def Closes (k : Kind) : Nat → Bytes → Bytes → Prop
  | 0, s, r => s = r
  | d + 1, s, r => ∃ fuel, skipNested k.opn k.cls fuel (d + 1) s = some r

section Closes

variable {k : Kind} {d : Nat} {r : Bytes}

/-- The count of brackets is unmoved by a byte that is neither a quote nor a bracket of its kind. -/
theorem Closes.other {c : UInt8} {s : Bytes} (hq : c ≠ ch '"') (ho : c ≠ k.opn)
    (hc : c ≠ k.cls) (h : Closes k (d + 1) s r) : Closes k (d + 1) (c :: s) r := by
  obtain ⟨fuel, h⟩ := h
  refine ⟨fuel + 1, ?_⟩
  rw [skipNested, if_neg hq, if_neg ho, if_neg hc]
  exact h

/-- A string is passed over, with the brackets in it. -/
theorem Closes.string {s b t : Bytes} (hb : stringLoop s = some (b, t))
    (h : Closes k (d + 1) t r) : Closes k (d + 1) (ch '"' :: s) r := by
  obtain ⟨fuel, h⟩ := h
  refine ⟨fuel + 1, ?_⟩
  have hp : parseJsonString (ch '"' :: s) = some (b, t) := hb
  rw [skipNested, if_pos rfl, hp]
  exact h

/-- The depth past a bracket of kind `k'` that closes. -/
def inside (k k' : Kind) (d : Nat) : Nat := if k = k' then d else d + 1

/-- A closing bracket ends a level, if it is of the kind that is counted. -/
theorem Closes.close {k' : Kind} {s : Bytes} (h : Closes k (inside k k' d) s r) :
    Closes k (d + 1) (k'.cls :: s) r := by
  by_cases hk : k = k'
  · subst hk
    have hq : k.cls ≠ ch '"' := by cases k <;> decide
    have ho : k.cls ≠ k.opn := by cases k <;> decide
    rw [inside, if_pos rfl] at h
    cases d with
    | zero =>
      refine ⟨1, ?_⟩
      rw [skipNested, if_neg hq, if_neg ho, if_pos rfl, if_pos rfl, ← h]
    | succ d =>
      obtain ⟨fuel, h⟩ := h
      refine ⟨fuel + 1, ?_⟩
      rw [skipNested, if_neg hq, if_neg ho, if_pos rfl, if_neg (by omega)]
      exact h
  · rw [inside, if_neg hk] at h
    exact Closes.other (by cases k' <;> decide) (by revert hk; cases k <;> cases k' <;> decide)
      (by revert hk; cases k <;> cases k' <;> decide) h

/-- An opening bracket begins one. -/
theorem Closes.open {k' : Kind} {s : Bytes}
    (h : Closes k (inside k k' d + if k = k' then 2 else 0) s r) :
    Closes k (d + 1) (k'.opn :: s) r := by
  by_cases hk : k = k'
  · subst hk
    rw [inside, if_pos rfl, if_pos rfl] at h
    obtain ⟨fuel, h⟩ := h
    refine ⟨fuel + 1, ?_⟩
    rw [skipNested, if_neg (by cases k <;> decide), if_pos rfl]
    exact h
  · rw [inside, if_neg hk, if_neg hk] at h
    exact Closes.other (by cases k' <;> decide) (by revert hk; cases k <;> cases k' <;> decide)
      (by revert hk; cases k <;> cases k' <;> decide) h

/-- Blanks do not matter to the count. -/
theorem Closes.ws {s t : Bytes} (hw : Json.Ws s t) (h : Closes k (d + 1) t r) :
    Closes k (d + 1) s r := by
  induction hw with
  | nil => exact h
  | @cons c s t hc _ ih =>
    have hsp := isSpace_of_isWs hc
    have hne : ∀ e, isSpace e = false → c ≠ e := by
      rintro e he rfl
      rw [hsp] at he
      cases he
    exact Closes.other (hne _ rfl) (hne _ (by cases k <;> rfl)) (hne _ (by cases k <;> rfl)) (ih h)

/-- Nor do numbers and names. -/
theorem Closes.token {p t : Bytes} (hp : ∀ c ∈ p, isToken c = true) (h : Closes k (d + 1) t r) :
    Closes k (d + 1) (p ++ t) r := by
  induction p with
  | nil => exact h
  | cons c p ih =>
    obtain ⟨-, -, hq, ho, hc, ho', hc'⟩ := isToken_not (hp c List.mem_cons_self)
    refine Closes.other hq ?_ ?_ (ih fun x hx => hp x (List.mem_cons_of_mem _ hx))
    · cases k
      · exact ho
      · exact ho'
    · cases k
      · exact hc
      · exact hc'

/-- A bracketed piece that closes its own bracket leaves the depth alone. -/
theorem Closes.bracketed (k' : Kind) {s t : Bytes}
    (hs : ∀ e, Closes k (inside k k' e) t r → Closes k (e + 1) s r) (h : Closes k (d + 1) t r) :
    Closes k (d + 1) (k'.opn :: s) r := by
  refine Closes.open ?_
  by_cases hk : k = k'
  · rw [inside, if_pos hk, if_pos hk]
    refine hs (d + 1) ?_
    rw [inside, if_pos hk]
    exact h
  · rw [inside, if_neg hk, if_neg hk]
    refine hs d ?_
    rw [inside, if_neg hk]
    exact h

end Closes

mutual

/-- The bracket loop passes over any value. -/
theorem val_closes {s t : Bytes} {v : Json.Value} {k : Kind} {d : Nat} {r : Bytes} :
    Json.Val s v t → Closes k (d + 1) t r → Closes k (d + 1) s r
  | .null _, h => h.token (p := lit "null") (by decide)
  | .true _, h => h.token (p := lit "true") (by decide)
  | .false _, h => h.token (p := lit "false") (by decide)
  | .num _ hn, h => h.token fun c hc => isToken_of_isNumByte (hn.bytes.2 c hc)
  | .str hs, h => h.string (stringLoop_chars hs).choose_spec.1
  | .arrNil hw, h => Closes.bracketed .bracket (fun _ h => (Closes.close h).ws hw) h
  | .arr he, h => Closes.bracketed .bracket (fun _ h => elements_closes he h) h
  | .objNil hw, h => Closes.bracketed .brace (fun _ h => (Closes.close h).ws hw) h
  | .obj hm, h => Closes.bracketed .brace (fun _ h => members_closes hm h) h

/-- The elements of an array are passed over, by induction on the grammar and together with the
members of an object. -/
theorem elements_closes {s t : Bytes} {vs : List Json.Value} {k : Kind} {d : Nat} {r : Bytes} :
    Json.Elements s vs t → Closes k (inside k .bracket d) t r → Closes k (d + 1) s r
  | .last hw hv hc, h => (val_closes hv ((Closes.close h).ws hc)).ws hw
  | .cons hw hv hc he, h =>
    (val_closes hv (((elements_closes he h).other (by decide) (by cases k <;> decide)
      (by cases k <;> decide)).ws hc)).ws hw

/-- The members of an object are passed over. -/
theorem members_closes {s t : Bytes} {ms : List (List Nat × Json.Value)} {k : Kind} {d : Nat}
    {r : Bytes} : Json.Members s ms t → Closes k (inside k .brace d) t r → Closes k (d + 1) s r
  | .last hw hn hs hw' hv hc, h =>
    (((((val_closes hv ((Closes.close h).ws hc)).ws hw').other (by decide) (by cases k <;> decide)
      (by cases k <;> decide)).ws hs).string (stringLoop_chars hn).choose_spec.1).ws hw
  | .cons hw hn hs hw' hv hc hm, h =>
    (((((val_closes hv (((members_closes hm h).other (by decide) (by cases k <;> decide)
      (by cases k <;> decide)).ws hc)).ws hw').other (by decide) (by cases k <;> decide)
      (by cases k <;> decide)).ws hs).string (stringLoop_chars hn).choose_spec.1).ws hw

end

/-- The count is back where it began. -/
private theorem closes_done {k : Kind} {t : Bytes} : Closes k (inside k k 0) t t := by
  rw [inside, if_pos rfl]
  rfl

/-- The shapes a value has for the scanner: a token, a string, or a bracket that
closes. -/
theorem val_shape {s t : Bytes} {v : Json.Value} (h : Json.Val s v t) :
    (∃ p, p ≠ [] ∧ (∀ c ∈ p, isToken c = true) ∧ s = p ++ t) ∨
    (∃ s' u, s = ch '"' :: s' ∧ Json.Chars s' u t) ∨
    (∃ k s', s = Kind.opn k :: s' ∧ Closes k 1 s' t) := by
  cases h with
  | null => exact Or.inl ⟨lit "null", by decide, by decide, rfl⟩
  | true => exact Or.inl ⟨lit "true", by decide, by decide, rfl⟩
  | false => exact Or.inl ⟨lit "false", by decide, by decide, rfl⟩
  | num t h =>
    obtain ⟨hne, hb⟩ := h.bytes
    exact Or.inl ⟨_, hne, fun c hc => isToken_of_isNumByte (hb c hc), rfl⟩
  | str h => exact Or.inr (Or.inl ⟨_, _, rfl, h⟩)
  | arrNil h => exact Or.inr (Or.inr ⟨.bracket, _, rfl, (Closes.close closes_done).ws h⟩)
  | arr h => exact Or.inr (Or.inr ⟨.bracket, _, rfl, elements_closes h closes_done⟩)
  | objNil h => exact Or.inr (Or.inr ⟨.brace, _, rfl, (Closes.close closes_done).ws h⟩)
  | obj h => exact Or.inr (Or.inr ⟨.brace, _, rfl, members_closes h closes_done⟩)

/-! ## Enough fuel -/

/-- A string takes at least its closing quote off the text, so that the fuel of the scanner
suffices. -/
theorem stringLoop_length {s : Bytes} : ∀ {b t : Bytes}, stringLoop s = some (b, t) →
    t.length < s.length := by
  -- a turn that goes on leaves a shorter text, and its rest is shorter still
  have hmap : ∀ {f : Bytes × Bytes → Bytes} {s' s b t : Bytes},
      (∀ {b t : Bytes}, stringLoop s' = some (b, t) → t.length < s'.length) →
      s'.length < s.length →
      (stringLoop s').map (fun r => (f r, r.2)) = some (b, t) → t.length < s.length := by
    intro f s' s b t ih hlt h
    obtain ⟨⟨b', t'⟩, hr, heq⟩ := Option.map_eq_some_iff.mp h
    cases heq
    exact lt_trans (ih hr) hlt
  fun_induction stringLoop s with
  | case1 => intro b t h; cases h
  | case2 => intro b t h; cases h; simp
  | case3 => intro b t h; cases h
  | case4 => intro b t h; cases h
  | case5 h₁ h₂ h₃ h₄ s code hu _ ih =>
    intro b t h
    exact hmap (f := fun r => unitByte code :: r.1) ih (by simp; omega) h
  | case6 => intro b t h; cases h
  | case7 => intro b t h; cases h
  | case8 e s _ b' _ _ ih =>
    intro b t h
    exact hmap (f := fun r => b' :: r.1) ih (by simp only [List.length_cons]; omega) h
  | case9 c s _ _ ih =>
    intro b t h
    exact hmap (f := fun r => c :: r.1) ih (by simp) h

/-- So does a string with both quotes. -/
theorem parseJsonString_length {s b t : Bytes} (h : parseJsonString s = some (b, t)) :
    t.length < s.length := by
  cases s with
  | nil => cases h
  | cons c s =>
    simp only [parseJsonString] at h
    split at h
    · exact lt_trans (stringLoop_length h) (by simp)
    · cases h

/-- The bracket loop needs no more turns than there are bytes. -/
theorem skipNested_fuel {opn cls : UInt8} {r : Bytes} : ∀ {fuel d : Nat} {s : Bytes},
    skipNested opn cls fuel d s = some r → ∀ {fuel' : Nat}, s.length ≤ fuel' →
      skipNested opn cls fuel' d s = some r := by
  intro fuel
  -- more fuel changes nothing once there is enough for the text
  induction fuel with
  | zero => intro d s h; cases h
  | succ fuel ih =>
    intro d s h fuel' hle
    cases s with
    | nil => cases h
    | cons c s =>
      rw [List.length_cons] at hle
      obtain ⟨fuel', rfl⟩ : ∃ n, fuel' = n + 1 := ⟨fuel' - 1, by omega⟩
      have hs : s.length ≤ fuel' := by omega
      simp only [skipNested] at h ⊢
      split
      next hq =>
        rw [if_pos hq] at h
        cases hp : parseJsonString (c :: s) with
        | none => rw [hp] at h; cases h
        | some p =>
          rw [hp] at h
          have hlen := parseJsonString_length (s := c :: s) (b := p.1) (t := p.2) hp
          rw [List.length_cons] at hlen
          exact ih h (by omega)
      next hq =>
        rw [if_neg hq] at h
        split
        next ho => rw [if_pos ho] at h; exact ih h hs
        next ho =>
          rw [if_neg ho] at h
          split
          next hc =>
            rw [if_pos hc] at h
            split
            next hd => rw [if_pos hd] at h; exact h
            next hd => rw [if_neg hd] at h; exact ih h hs
          next hc => rw [if_neg hc] at h; exact ih h hs

/-- The skipping of a nested value does not lengthen the text. -/
theorem skipNested_length {opn cls : UInt8} {r : Bytes} : ∀ {fuel d : Nat} {s : Bytes},
    skipNested opn cls fuel d s = some r → r.length ≤ s.length := by
  intro fuel
  -- on the fuel: each step drops at least the byte it looked at, or a whole string
  induction fuel with
  | zero => intro d s h; cases h
  | succ fuel ih =>
    intro d s h
    cases s with
    | nil => cases h
    | cons c s =>
      rw [List.length_cons]
      simp only [skipNested] at h
      split at h
      · cases hp : parseJsonString (c :: s) with
        | none => rw [hp] at h; cases h
        | some p =>
          rw [hp] at h
          have hlen := parseJsonString_length (s := c :: s) (b := p.1) (t := p.2) hp
          rw [List.length_cons] at hlen
          have := ih h
          omega
      split at h
      · exact le_trans (ih h) (by omega)
      split at h
      · split at h
        · cases h; omega
        · exact le_trans (ih h) (by omega)
      · exact le_trans (ih h) (by omega)

/-- Nor does that of blanks. -/
theorem skipWs_length {s : Bytes} : (skipWs s).length ≤ s.length :=
  (List.dropWhile_sublist _).length_le

/-- Nor that of any value. -/
theorem skipJsonValue_length {s t : Bytes} (h : skipJsonValue s = some t) :
    t.length ≤ s.length := by
  refine le_trans ?_ skipWs_length
  unfold skipJsonValue at h
  cases hs : skipWs s with
  | nil => rw [hs] at h; cases h
  | cons c s' =>
    rw [hs] at h
    dsimp only at h
    split at h
    · obtain ⟨⟨b, t'⟩, hr, heq⟩ := Option.map_eq_some_iff.mp h
      cases heq
      exact le_of_lt (parseJsonString_length hr)
    split at h
    · exact skipNested_length h
    split at h
    · exact skipNested_length h
    · cases h
      exact (List.dropWhile_sublist _).length_le

/-! ## Skipping a value -/

/-- What may follow a value inside an object: the end, a blank or a delimiter. -/
def Delimited : Bytes → Prop
  | [] => True
  | c :: _ => endsBare c = true

/-- Blanks before a delimiter are a delimiter. -/
theorem Delimited.ws {s t : Bytes} (h : Json.Ws s t) (ht : Delimited t) : Delimited s := by
  cases h with
  | nil => exact ht
  | cons hc =>
    simp [Delimited, endsBare, isSpace_of_isWs hc]

/-- A token ends at the delimiter behind it. -/
theorem dropWhile_token {p t : Bytes} (hp : ∀ c ∈ p, isToken c = true) (ht : Delimited t) :
    (p ++ t).dropWhile (fun c => !endsBare c) = t := by
  rw [List.dropWhile_append_of_pos fun c hc => by simp [(isToken_not (hp c hc)).2.1]]
  cases t with
  | nil => rfl
  | cons c t => exact List.dropWhile_cons_of_neg (by simpa [Delimited] using ht)

/-- The scanner passes over any value that is followed by a delimiter. -/
theorem skipJsonValue_val {w s t : Bytes} {v : Json.Value} (hw : Json.Ws w s)
    (hv : Json.Val s v t) (ht : Delimited t) : skipJsonValue w = some t := by
  -- brackets: the loop closes at depth one
  have hnest : ∀ (k : Kind) (s' : Bytes), Closes k 1 s' t →
      skipNested k.opn k.cls (s'.length + 1) 0 (k.opn :: s') = some t := by
    rintro k s' ⟨fuel, hf⟩
    have hone : skipNested k.opn k.cls (fuel + 1) 0 (k.opn :: s') = some t := by
      rw [skipNested, if_neg (by cases k <;> decide), if_pos rfl]
      exact hf
    exact skipNested_fuel hone (by simp)
  unfold skipJsonValue
  rw [skipWs_ws hw]
  rcases val_shape hv with ⟨p, hne, hp, rfl⟩ | ⟨s', u, rfl, hc⟩ | ⟨k, s', rfl, hc⟩
  · obtain ⟨c, p, rfl⟩ := List.exists_cons_of_ne_nil hne
    obtain ⟨hsp, -, hq, ho, -, ho', -⟩ := isToken_not (hp c List.mem_cons_self)
    rw [List.cons_append, skipWs_cons hsp]
    dsimp only
    rw [if_neg hq, if_neg ho, if_neg ho', ← List.cons_append, dropWhile_token hp ht]
  · rw [skipWs_cons rfl]
    obtain ⟨b, hb, -⟩ := stringLoop_chars hc
    have hp : parseJsonString (ch '"' :: s') = some (b, t) := hb
    dsimp only
    rw [if_pos rfl, hp]
    rfl
  · rw [skipWs_cons (by cases k <;> rfl)]
    dsimp only
    rw [if_neg (by cases k <;> decide)]
    cases k with
    | brace =>
      rw [if_pos (by decide)]
      exact hnest .brace s' hc
    | bracket =>
      rw [if_neg (by decide), if_pos (by decide)]
      exact hnest .bracket s' hc

/-! ## Finding a member -/

/-- The rest of a turn of the member loop, past a value that is not wanted. -/
def nextMember (key : Bytes) (fuel : Nat) (s : Bytes) : Option Bytes :=
  match skipJsonValue s with
  | none => none
  | some s =>
    match skipWs s with
    | [] => none
    | c :: s => if c = ch ',' then fieldLoop key fuel s else none

/-- One turn of the member loop on a well-formed member. -/
theorem fieldLoop_member {key s s₁ s₂ s₃ : Bytes} {n : List Nat} {fuel : Nat}
    (hk : IsPlain key) (hw : Json.Ws s (ch '"' :: s₁)) (hn : Json.Chars s₁ n s₂)
    (hs : Json.Ws s₂ (ch ':' :: s₃)) :
    fieldLoop key (fuel + 1) s =
      if n = codes key then captureScalar s₃ else nextMember key fuel s₃ := by
  obtain ⟨b, hb, hshown⟩ := parseJsonString_chars hw hn
  have hname : b = key ↔ n = codes key := by
    constructor
    · rintro rfl
      exact hshown.codes_eq hk
    · exact hshown.eq_of_ascii fun c hc => UInt8.lt_iff_toNat_lt.mpr (hk c hc).1
  rw [fieldLoop, hb]
  dsimp only
  rw [skipWs_ws_cons hs rfl]
  dsimp only
  rw [if_neg (not_not_intro rfl)]
  by_cases h : n = codes key
  · rw [if_pos (hname.mpr h), if_pos h]
  · rw [if_neg (fun hb => h (hname.mp hb)), if_neg h]
    rfl

/-- Behind the last member there is no next one. -/
theorem nextMember_last {key s s₁ s₂ t : Bytes} {v : Json.Value} {fuel : Nat}
    (hw : Json.Ws s s₁) (hv : Json.Val s₁ v s₂) (hc : Json.Ws s₂ (ch '}' :: t)) :
    nextMember key fuel s = none := by
  unfold nextMember
  rw [skipJsonValue_val hw hv (Delimited.ws hc rfl)]
  dsimp only
  rw [skipWs_ws_cons hc rfl]
  exact if_neg (by decide)

/-- Behind any other the search goes on after the comma. -/
theorem nextMember_cons {key s s₁ s₂ s₃ : Bytes} {v : Json.Value} {fuel : Nat}
    (hw : Json.Ws s s₁) (hv : Json.Val s₁ v s₂) (hc : Json.Ws s₂ (ch ',' :: s₃)) :
    nextMember key fuel s = fieldLoop key fuel s₃ := by
  unfold nextMember
  rw [skipJsonValue_val hw hv (Delimited.ws hc rfl)]
  dsimp only
  rw [skipWs_ws_cons hc rfl]
  exact if_pos rfl

/-- A string of the grammar is captured as its characters are shown. -/
theorem captureScalar_str {s s₁ t : Bytes} {u : List Nat} (hw : Json.Ws s s₁)
    (hv : Json.Val s₁ (.str u) t) : ∃ b, captureScalar s = some b ∧ Shown u b := by
  cases hv with
  | str hc =>
    obtain ⟨b, hb, hs⟩ := stringLoop_chars hc
    refine ⟨b, ?_, hs⟩
    unfold captureScalar
    rw [skipWs_ws_cons hw rfl]
    have hp : parseJsonString (ch '"' :: _) = some (b, t) := hb
    dsimp only
    rw [if_pos rfl, hp]
    rfl

/-- A member that is not there is not found. -/
theorem members_missing {key : Bytes} (hk : IsPlain key) :
    ∀ {s t : Bytes} {ms : List (List Nat × Json.Value)}, Json.Members s ms t →
      (∀ m ∈ ms, m.1 ≠ codes key) → ∀ fuel, fieldLoop key fuel s = none
  | _, _, _, _, _, 0 => rfl
  | _, _, _, .last hw hn hs hw' hv hc, hm, fuel + 1 => by
    rw [fieldLoop_member hk hw hn hs, if_neg (hm _ List.mem_cons_self), nextMember_last hw' hv hc]
  | _, _, _, .cons hw hn hs hw' hv hc h, hm, fuel + 1 => by
    rw [fieldLoop_member hk hw hn hs, if_neg (hm _ List.mem_cons_self), nextMember_cons hw' hv hc]
    exact members_missing hk h (fun m h => hm m (List.mem_cons_of_mem _ h)) fuel

/-- The member loop needs no more turns than there are bytes. -/
theorem fieldLoop_fuel {key r : Bytes} : ∀ {fuel : Nat} {s : Bytes},
    fieldLoop key fuel s = some r → ∀ {fuel' : Nat}, s.length ≤ fuel' →
      fieldLoop key fuel' s = some r := by
  intro fuel
  -- every turn takes at least one character off the text
  induction fuel with
  | zero => intro s h; cases h
  | succ fuel ih =>
    intro s h fuel' hle
    simp only [fieldLoop] at h
    cases hp : parseJsonString (skipWs s) with
    | none => rw [hp] at h; cases h
    | some p =>
      obtain ⟨k, s₁⟩ := p
      rw [hp] at h
      have hlen := parseJsonString_length hp
      have hws := skipWs_length (s := s)
      obtain ⟨fuel', rfl⟩ : ∃ n, fuel' = n + 1 := ⟨fuel' - 1, by omega⟩
      simp only [fieldLoop]
      rw [hp]
      dsimp only at h ⊢
      cases h₁ : skipWs s₁ with
      | nil => rw [h₁] at h; cases h
      | cons c s₂ =>
        have hl₁ := skipWs_length (s := s₁)
        rw [h₁, List.length_cons] at hl₁
        rw [h₁] at h
        dsimp only at h ⊢
        split
        next hc => rw [if_pos hc] at h; cases h
        next hc =>
          rw [if_neg hc] at h
          split
          next hk => rw [if_pos hk] at h; exact h
          next hk =>
            rw [if_neg hk] at h
            cases h₂ : skipJsonValue s₂ with
            | none => rw [h₂] at h; cases h
            | some s₃ =>
              have hl₂ := skipJsonValue_length h₂
              rw [h₂] at h
              dsimp only at h ⊢
              cases h₃ : skipWs s₃ with
              | nil => rw [h₃] at h; cases h
              | cons c' s₄ =>
                have hl₃ := skipWs_length (s := s₃)
                rw [h₃, List.length_cons] at hl₃
                rw [h₃] at h
                dsimp only at h ⊢
                split
                next hcomma => rw [if_pos hcomma] at h; exact ih h (by omega)
                next hcomma => rw [if_neg hcomma] at h; cases h

/-- With as many turns as bytes the answer is the one of any number beyond. -/
theorem fieldLoop_enough {key s : Bytes} {r : Option Bytes} {fuel k : Nat}
    (hlen : s.length ≤ fuel) (h : ∀ n, fieldLoop key (k + n) s = r) :
    fieldLoop key fuel s = r := by
  cases hf : fieldLoop key fuel s with
  | some x => rw [← h s.length, fieldLoop_fuel hf (by omega)]
  | none =>
    cases r with
    | none => rfl
    | some x =>
      rw [fieldLoop_fuel (h 0) hlen] at hf
      cases hf

/-- Leading blanks do not matter to the member loop. -/
theorem fieldLoop_skipWs {key s : Bytes} : ∀ {fuel : Nat},
    fieldLoop key fuel (skipWs s) = fieldLoop key fuel s
  | 0 => rfl
  | fuel + 1 => by simp only [fieldLoop, skipWs_skipWs]

/-! ## Objects -/

/-- On an object with members, `extractJsonField` is the member loop. -/
theorem extractJsonField_members {body key s s' : Bytes} (hw : Json.Ws body (ch '{' :: s))
    (hs : skipWs s = ch '"' :: s') :
    extractJsonField body key = fieldLoop key (s'.length + 1) (skipWs s) := by
  unfold extractJsonField
  rw [skipWs_ws_cons hw rfl]
  dsimp only
  rw [if_neg (not_not_intro rfl), hs]
  dsimp only
  rw [if_neg (by decide)]

/-- Members open with a quote. -/
theorem members_quote {s t : Bytes} {ms : List (List Nat × Json.Value)}
    (h : Json.Members s ms t) : ∃ s', skipWs s = ch '"' :: s' := by
  cases h with
  | last hw => exact ⟨_, skipWs_ws_cons hw rfl⟩
  | cons hw => exact ⟨_, skipWs_ws_cons hw rfl⟩

end TreeMiner

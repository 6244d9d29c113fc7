import TreeMiner.Submit.Extraction
import TreeMiner.Submit.System

/-!
# What counts as a confirmation

A `/get_block` body confirms a record when it is a JSON object that names the
record's key and no other hash (`Conforms`). `confirmationMatches` looks no
further than it has to: it reads a field by walking the members up to it and
stops there, it takes a bare token where a string is expected, and a member it
cannot take as a scalar counts as absent. The loose grammar below is the
language of the texts that walk accepts (`extractJsonField_iff`), so a body is
taken for a confirmation exactly when it *opens* as one
(`confirmationMatches_iff`). Every proper confirmation does; what else does is
what the check gets wrong.
-/

namespace TreeMiner

open Cxx

/-! ## The loose grammar -/

/-- The rest of a loosely written string, from just after its opening quote, the
text it decodes to and what it leaves: control characters and broken UTF-8 pass,
and a `\u` escape outside ASCII decodes to `?`. -/
inductive LooseChars : Bytes → Bytes → Bytes → Prop where
  | close (t : Bytes) : LooseChars (ch '"' :: t) [] t
  | char {c : UInt8} {s b t : Bytes} (hq : c ≠ ch '"') (hb : c ≠ ch '\\')
      (h : LooseChars s b t) : LooseChars (c :: s) (c :: b) t
  | esc {e x : UInt8} {s b t : Bytes} (he : simpleEscape e = some x) (h : LooseChars s b t) :
      LooseChars (ch '\\' :: e :: s) (x :: b) t
  | unit {h₁ h₂ h₃ h₄ : UInt8} {u : Nat} {s b t : Bytes}
    (hu : hex4 h₁ h₂ h₃ h₄ = some u)
      (h : LooseChars s b t) :
      LooseChars (ch '\\' :: ch 'u' :: h₁ :: h₂ :: h₃ :: h₄ :: s) (unitByte u :: b) t

/-- The rest of a text with `d` brackets of one kind open, and what is left once
they are closed; brackets of the other kind are not looked at. -/
inductive Balanced (k : Kind) : Nat → Bytes → Bytes → Prop where
  | done (t : Bytes) : Balanced k 0 t t
  | string {d : Nat} {s b u t : Bytes} (hs : LooseChars s b u) (h : Balanced k (d + 1) u t) :
      Balanced k (d + 1) (ch '"' :: s) t
  | opn {d : Nat} {s t : Bytes} (h : Balanced k (d + 2) s t) : Balanced k (d + 1) (k.opn :: s) t
  | cls {d : Nat} {s t : Bytes} (h : Balanced k d s t) : Balanced k (d + 1) (k.cls :: s) t
  | other {d : Nat} {c : UInt8} {s t : Bytes} (hq : c ≠ ch '"') (ho : c ≠ k.opn)
    (hc : c ≠ k.cls)
      (h : Balanced k (d + 1) s t) : Balanced k (d + 1) (c :: s) t

/-- The first byte of a bare token: of anything but a string, an object or an
array. -/
def startsBare (c : UInt8) : Prop := c ≠ ch '"' ∧ c ≠ ch '{' ∧ c ≠ ch '['

/-- Any value, loosely written, and what it leaves; a bare token is whatever
stands before the next delimiter. -/
inductive LooseValue (s : Bytes) : Bytes → Prop where
  | string {s₁ b t : Bytes} (hs : skipWs s = ch '"' :: s₁) (h : LooseChars s₁ b t) :
      LooseValue s t
  | nested {k : Kind} {s₁ t : Bytes} (hs : skipWs s = k.opn :: s₁) (h : Balanced k 1 s₁ t) :
      LooseValue s t
  | bare {c : UInt8} {s₁ : Bytes} (hs : skipWs s = c :: s₁) (hc : startsBare c) :
      LooseValue s ((c :: s₁).dropWhile fun c => !endsBare c)

/-- The text of a scalar, loosely written. -/
inductive LooseScalar (s : Bytes) : Bytes → Prop where
  | string {s₁ b t : Bytes} (hs : skipWs s = ch '"' :: s₁) (h : LooseChars s₁ b t) :
      LooseScalar s b
  | bare {c : UInt8} {s₁ : Bytes} (hs : skipWs s = c :: s₁) (hc : startsBare c) :
      LooseScalar s ((c :: s₁).takeWhile fun c => !endsBare c)

/-- A member's name and the colon after it; what is left starts at the value. -/
def Named (s name t : Bytes) : Prop :=
  ∃ s₁ s₂, skipWs s = ch '"' :: s₁ ∧ LooseChars s₁ name s₂ ∧
    skipWs s₂ = ch ':' :: t

/-- Members, separated by commas, up to the first one called `field`, which is
the scalar `val`. Nothing is asked of what follows it. -/
inductive Leads (field val : Bytes) : Bytes → Prop where
  | here {s t : Bytes} (hn : Named s field t) (hv : LooseScalar t val) : Leads field val s
  | later {s name t t₁ t₂ : Bytes} (hn : Named s name t) (hne : name ≠ field)
      (hv : LooseValue t t₁) (hc : skipWs t₁ = ch ',' :: t₂) (h : Leads field val t₂) :
      Leads field val s

/-- The body opens as an object with the member `field`, the scalar `val`. -/
def OpensWith (body field val : Bytes) : Prop :=
  ∃ s, skipWs body = ch '{' :: s ∧ Leads field val s

/-! ## The scanner reads the loose grammar -/

/-- What the loop over a string accepts, as a grammar: any escape, and any byte but a quote or a
backslash. -/
theorem stringLoop_iff {s b t : Bytes} : stringLoop s = some (b, t) ↔ LooseChars s b t := by
  constructor
  · intro h
    -- a turn of the loop reads one character or one escape, which is one rule of the grammar
    fun_induction stringLoop s generalizing b with
    | case1 => cases h
    | case2 => cases h; exact .close _
    | case3 => cases h
    | case4 => cases h
    | case5 h₁ h₂ h₃ h₄ s code hu _ ih =>
      obtain ⟨⟨b', t'⟩, hr, heq⟩ := Option.map_eq_some_iff.mp h
      cases heq
      exact .unit hu (ih hr)
    | case6 => cases h
    | case7 => cases h
    | case8 e s _ x hx _ ih =>
      obtain ⟨⟨b', t'⟩, hr, heq⟩ := Option.map_eq_some_iff.mp h
      cases heq
      exact .esc hx (ih hr)
    | case9 c s hq hb ih =>
      obtain ⟨⟨b', t'⟩, hr, heq⟩ := Option.map_eq_some_iff.mp h
      cases heq
      exact .char hq hb (ih hr)
  · intro h
    induction h with
    | close t => exact stringLoop_close
    | char hq hb _ ih => rw [stringLoop_char hq hb, ih]; rfl
    | esc he _ ih =>
      have hu : ∀ {e x}, simpleEscape e = some x → e ≠ ch 'u' := by
        rintro e x he rfl
        cases he
      rw [stringLoop_esc (hu he) he, ih]
      rfl
    | unit hu _ ih => rw [stringLoop_unit hu, ih]; rfl

/-- A string begins with its quote and goes on with such characters. -/
theorem parseJsonString_iff {s b t : Bytes} :
    parseJsonString s = some (b, t) ↔ ∃ s₁, s = ch '"' :: s₁ ∧ LooseChars s₁ b t := by
  cases s with
  | nil => simp [parseJsonString]
  | cons c s =>
    by_cases hc : c = ch '"'
    · subst hc
      simp [parseJsonString, stringLoop_iff]
    · simp only [parseJsonString, if_neg hc]
      constructor
      · intro h
        cases h
      · rintro ⟨s₁, heq, -⟩
        cases heq
        exact absurd rfl hc

/-- The bracket loop ends where the open brackets are closed. -/
theorem closes_iff {k : Kind} {d : Nat} {s t : Bytes} : Closes k d s t ↔ Balanced k d s t := by
  constructor
  · intro h
    cases d with
    | zero => cases h; exact .done _
    | succ d =>
      obtain ⟨fuel, h⟩ := h
      -- the fuel bounds the characters read, so the induction is on it and not on the depth
      induction fuel generalizing d s with
      | zero => cases h
      | succ fuel ih =>
        cases s with
        | nil => cases h
        | cons c s =>
          simp only [skipNested] at h
          split at h
          next hq =>
            subst hq
            cases hp : parseJsonString (ch '"' :: s) with
            | none => rw [hp] at h; cases h
            | some p =>
              obtain ⟨b, u⟩ := p
              rw [hp] at h
              obtain ⟨s₁, heq, hs⟩ := parseJsonString_iff.mp hp
              cases heq
              exact .string hs (ih _ h)
          next hq =>
            split at h
            next ho => subst ho; exact .opn (ih _ h)
            next ho =>
              split at h
              next hc =>
                subst hc
                split at h
                next hd =>
                  cases h
                  obtain rfl : d = 0 := by omega
                  exact .cls (.done _)
                next hd =>
                  obtain ⟨d, rfl⟩ : ∃ e, d = e + 1 := ⟨d - 1, by omega⟩
                  exact .cls (ih _ h)
              next hc => exact .other hq ho hc (ih _ h)
  · intro h
    -- every rule of the grammar is one turn of the loop
    induction h with
    | done t => rfl
    | string hs _ ih => exact Closes.string (stringLoop_iff.mpr hs) ih
    | opn _ ih => exact Closes.open (by simpa [inside] using ih)
    | cls _ ih => exact Closes.close (by simpa [inside] using ih)
    | other hq ho hc _ ih => exact Closes.other hq ho hc ih

/-- The skipping of a nested value counts brackets of one kind and passes over strings. -/
theorem skipNested_iff {k : Kind} {s t : Bytes} :
    skipNested k.opn k.cls (s.length + 1) 0 (k.opn :: s) = some t ↔ Balanced k 1 s t := by
  have hopen : ∀ fuel, skipNested k.opn k.cls (fuel + 1) 0 (k.opn :: s) =
      skipNested k.opn k.cls fuel 1 s := by
    intro fuel
    rw [skipNested, if_neg (by cases k <;> decide), if_pos rfl]
  rw [← closes_iff, hopen]
  constructor
  · intro h
    exact ⟨_, h⟩
  · rintro ⟨fuel, h⟩
    exact skipNested_fuel h le_rfl

/-- A value is skipped as a string, as a nested value, or as whatever stands before the next
delimiter. -/
theorem skipJsonValue_iff {s t : Bytes} : skipJsonValue s = some t ↔ LooseValue s t := by
  constructor
  · intro h
    unfold skipJsonValue at h
    split at h
    next => cases h
    next c s₁ hs =>
      split at h
      -- a string ends at its closing quote, whatever is in it
      next hq =>
        obtain ⟨⟨b, t'⟩, hp, heq⟩ := Option.map_eq_some_iff.mp h
        cases heq
        obtain ⟨s₂, heq, hc⟩ := parseJsonString_iff.mp hp
        cases heq
        exact .string hs hc
      next hq =>
        split at h
        next hb => subst hb; exact .nested (k := .brace) hs (skipNested_iff.mp h)
        next hb =>
          split at h
          next hk => subst hk; exact .nested (k := .bracket) hs (skipNested_iff.mp h)
          next hk => cases h; exact .bare hs ⟨hq, hb, hk⟩
  · intro h
    unfold skipJsonValue
    cases h with
    | string hs h =>
      rw [hs]
      dsimp only
      rw [if_pos rfl, parseJsonString_iff.mpr ⟨_, rfl, h⟩]
      rfl
    | @nested k s₁ _ hs h =>
      have hn := skipNested_iff.mpr h
      rw [hs]
      dsimp only
      rw [if_neg (by cases k <;> decide)]
      cases k with
      | brace => rw [if_pos (by rfl)]; exact hn
      | bracket => rw [if_neg (by decide), if_pos (by rfl)]; exact hn
    -- a bare token runs up to the next separator
    | bare hs hc =>
      rw [hs]
      dsimp only
      rw [if_neg hc.1, if_neg hc.2.1, if_neg hc.2.2]

/-- A scalar is captured as a string, or as what stands before the next delimiter. -/
theorem captureScalar_iff {s v : Bytes} : captureScalar s = some v ↔ LooseScalar s v := by
  constructor
  · intro h
    unfold captureScalar at h
    split at h
    next => cases h
    next c s₁ hs =>
      split at h
      next hq =>
        obtain ⟨⟨b, t⟩, hp, heq⟩ := Option.map_eq_some_iff.mp h
        cases heq
        obtain ⟨s₂, heq, hc⟩ := parseJsonString_iff.mp hp
        cases heq
        exact .string hs hc
      next hq =>
        split at h
        next => cases h
        next hb =>
          simp only [Bool.or_eq_true, decide_eq_true_eq, not_or] at hb
          cases h
          exact .bare hs ⟨hq, hb⟩
  · intro h
    unfold captureScalar
    cases h with
    | string hs h =>
      rw [hs]
      dsimp only
      rw [if_pos rfl, parseJsonString_iff.mpr ⟨_, rfl, h⟩]
      rfl
    | bare hs hc =>
      rw [hs]
      dsimp only
      rw [if_neg hc.1,
        if_neg
          (by simp only [Bool.or_eq_true, decide_eq_true_eq, hc.2.1, hc.2.2, or_self, not_false_eq_true])]

/-- The member loop, given turns enough, follows the members to the field. -/
theorem fieldLoop_iff {field val s : Bytes} :
    (∃ fuel, fieldLoop field fuel s = some val) ↔ Leads field val s := by
  constructor
  · rintro ⟨fuel, h⟩
    induction fuel generalizing s with
    | zero => cases h
    | succ fuel ih =>
      simp only [fieldLoop] at h
      split at h
      next => cases h
      next name s₁ hp =>
        obtain ⟨s₀, hs, hn⟩ := parseJsonString_iff.mp hp
        split at h
        next => cases h
        next c t hc =>
          split at h
          next => cases h
          next hcolon =>
            rw [not_not] at hcolon
            subst hcolon
            have hnamed : Named s name t := ⟨_, _, hs, hn, hc⟩
            split at h
            next heq => subst heq; exact .here hnamed (captureScalar_iff.mp h)
            next hne =>
              split at h
              next => cases h
              next t₁ hv =>
                split at h
                next => cases h
                next d t₂ hd =>
                  split at h
                  next hcomma =>
                    subst hcomma
                    exact .later hnamed hne (skipJsonValue_iff.mp hv) hd (ih h)
                  next => cases h
  · intro h
    -- one more turn of the loop in front of what is already read
    have hturn : ∀ {s name t : Bytes} (fuel : Nat), Named s name t →
        fieldLoop field (fuel + 1) s =
          if name = field then captureScalar t else nextMember field fuel t := by
      rintro s name t fuel ⟨s₁, s₂, hs, hn, hc⟩
      rw [fieldLoop, parseJsonString_iff.mpr ⟨_, hs, hn⟩]
      dsimp only
      rw [hc]
      dsimp only
      rw [if_neg (not_not_intro rfl)]
      rfl
    induction h with
    | here hn hv => exact ⟨1, by rw [hturn 0 hn, if_pos rfl, captureScalar_iff.mpr hv]⟩
    | later hn hne hv hc _ ih =>
      obtain ⟨fuel, ih⟩ := ih
      refine ⟨fuel + 1, ?_⟩
      rw [hturn fuel hn, if_neg hne, nextMember, skipJsonValue_iff.mpr hv]
      dsimp only
      rw [hc]
      dsimp only
      rw [if_pos rfl, ih]

/-- A body gives a field exactly when it opens with it. -/
theorem extractJsonField_iff {body field val : Bytes} :
    extractJsonField body field = some val ↔ OpensWith body field val := by
  constructor
  · intro h
    unfold extractJsonField at h
    split at h
    next => cases h
    next c s hs =>
      split at h
      next => cases h
      next hc =>
        rw [not_not] at hc
        subst hc
        split at h
        next => cases h
        next d s' hd =>
          split at h
          next => cases h
          next =>
            rw [← hd, fieldLoop_skipWs] at h
            exact ⟨s, hs, fieldLoop_iff.mp ⟨_, h⟩⟩
  · rintro ⟨s, hs, hl⟩
    -- a member begins with the quote of its name, so the body is not the empty object
    obtain ⟨s₁, hquote⟩ : ∃ s₁, skipWs s = ch '"' :: s₁ := by
      cases hl with
      | here hn => obtain ⟨s₁, _, h, -⟩ := hn; exact ⟨s₁, h⟩
      | later hn => obtain ⟨s₁, _, h, -⟩ := hn; exact ⟨s₁, h⟩
    obtain ⟨fuel, hf⟩ := fieldLoop_iff.mpr hl
    unfold extractJsonField
    rw [hs]
    dsimp only
    rw [if_neg (not_not_intro rfl), hquote]
    dsimp only
    rw [if_neg (by decide), ← hquote]
    rw [← fieldLoop_skipWs] at hf
    exact fieldLoop_fuel hf (by rw [hquote, List.length_cons])

/-! ## Confirmations -/

/-- The body is a JSON object that names the record's key, and no other hash. -/
def Conforms (rec : FindRecord) (body : Bytes) : Prop :=
  ∃ ms, Json.Text body (.obj ms) ∧
    (codes (lit "key"), Json.Value.str (codes rec.payload.key)) ∈ ms ∧
    ∀ m ∈ ms, m.1 = codes (lit "hash_to_verify") →
      m.2 = .str (codes rec.payload.hash_to_verify)

/-- The body opens as a confirmation: its first `key` is the record's, and so is
its first `hash_to_verify` if the walk comes to one that is a scalar. -/
def OpensAsConfirmation (rec : FindRecord) (body : Bytes) : Prop :=
  OpensWith body (lit "key") rec.payload.key ∧
    ∀ v, OpensWith body (lit "hash_to_verify") v → v = rec.payload.hash_to_verify

/-- The lookup confirms exactly the bodies whose beginning is that of an object with a matching
member; what comes behind that member is not read. -/
theorem confirmationMatches_iff {rec : FindRecord} {body : Bytes} :
    confirmationMatches rec body = .Confirmed ↔ OpensAsConfirmation rec body := by
  unfold OpensAsConfirmation
  simp only [← extractJsonField_iff]
  unfold confirmationMatches
  cases hk : extractJsonField body (lit "key") with
  | none => simp
  | some key =>
    by_cases heq : key = rec.payload.key
    · cases hh : extractJsonField body (lit "hash_to_verify") with
      | none => simp [heq]
      | some hash =>
        by_cases hash = rec.payload.hash_to_verify <;> simp_all
    · simp [heq]

theorem isPlain_key : IsPlain (lit "key") := by
  unfold IsPlain
  decide

theorem isPlain_hash_to_verify : IsPlain (lit "hash_to_verify") := by
  unfold IsPlain
  decide

/-- A member that is a string is the one the scanner finds, if no other has its
name. -/
theorem extractJsonField_str {body key : Bytes} {ms : List (List Nat × Json.Value)} {v : Bytes}
    (hb : Json.Text body (.obj ms)) (hk : IsPlain key) (hv : IsAscii v)
    (hnd : (ms.map Prod.fst).Nodup) (hm : (codes key, Json.Value.str (codes v)) ∈ ms) :
    extractJsonField body key = some v := by
  have hfirst : Json.member (codes key) ms = some (.str (codes v)) := by
    cases hf : Json.member (codes key) ms with
    | none => exact absurd rfl (Json.member_eq_none.mp hf _ hm)
    | some u =>
      obtain ⟨m, hfind, rfl⟩ := Option.map_eq_some_iff.mp hf
      have hname : m.1 = codes key := by simpa using List.find?_some hfind
      rw [List.inj_on_of_nodup_map hnd (List.mem_of_find?_eq_some hfind) hm hname]
  obtain ⟨s, t, hf⟩ := hb.first hfirst
  obtain ⟨-, hval, hx⟩ := extractJsonField_captures hk hf
  obtain ⟨b, hcap, hs⟩ := captureScalar_str (.nil s) hval
  rw [hx, hcap, hs.eq_of_ascii hv rfl]

/-- Every proper confirmation without repeated names is recognised. -/
theorem confirmationMatches_complete {rec : FindRecord} {body : Bytes}
    {ms : List (List Nat × Json.Value)} (hkey : IsAscii rec.payload.key)
    (hhash : IsAscii rec.payload.hash_to_verify) (hb : Json.Text body (.obj ms))
    (hnd : (ms.map Prod.fst).Nodup)
    (hm : (codes (lit "key"), Json.Value.str (codes rec.payload.key)) ∈ ms)
    (hh : ∀ m ∈ ms, m.1 = codes (lit "hash_to_verify") →
      m.2 = .str (codes rec.payload.hash_to_verify)) :
    confirmationMatches rec body = .Confirmed := by
  have hk := extractJsonField_str hb isPlain_key hkey hnd hm
  unfold confirmationMatches
  rw [hk]
  dsimp only
  rw [if_neg (not_not_intro rfl)]
  by_cases hex : ∃ m ∈ ms, m.1 = codes (lit "hash_to_verify")
  · obtain ⟨⟨n, v⟩, hmem, rfl⟩ := hex
    obtain rfl := hh _ hmem rfl
    rw [extractJsonField_str hb isPlain_hash_to_verify hhash hnd hmem]
    exact if_neg (not_not_intro rfl)
  · have hno : ∀ m ∈ ms, m.1 ≠ codes (lit "hash_to_verify") :=
      fun m hm heq => hex ⟨m, hm, heq⟩
    rw [extractJsonField_absent hb isPlain_hash_to_verify hno]

/-- The check is right about a body exactly when the body is a proper
confirmation or does not open as one; the converse half of the check is never at
fault. -/
theorem confirmation_sound_iff {rec : FindRecord} {body : Bytes} (hkey : IsAscii rec.payload.key)
    (hhash : IsAscii rec.payload.hash_to_verify) :
    ((confirmationMatches rec body = .Confirmed → Conforms rec body) ∧
      ∀ ms, Json.Text body (.obj ms) → (ms.map Prod.fst).Nodup →
        (codes (lit "key"), Json.Value.str (codes rec.payload.key)) ∈ ms →
        (∀ m ∈ ms, m.1 = codes (lit "hash_to_verify") →
          m.2 = .str (codes rec.payload.hash_to_verify)) →
        confirmationMatches rec body = .Confirmed) ↔
      (Conforms rec body ∨ ¬ OpensAsConfirmation rec body) := by
  rw [confirmationMatches_iff]
  constructor
  · rintro ⟨hs, -⟩
    by_cases ho : OpensAsConfirmation rec body
    · exact Or.inl (hs ho)
    · exact Or.inr ho
  · intro h
    refine ⟨fun ho => h.resolve_right (not_not_intro ho), ?_⟩
    intro ms hb hnd hm hh
    exact confirmationMatches_iff.mp (confirmationMatches_complete hkey hhash hb hnd hm hh)

/-- A record to look bodies up for. -/
def sampleRecord : FindRecord := Journal.newRow 1 sampleFind

/-- The object whose only member is the record's key is a confirmation. -/
theorem sampleRecord_conforms : Conforms sampleRecord (lit "\x7b\"key\":\"k1\"\x7d") := by
  refine ⟨[(codes (lit "key"), .str (codes (lit "k1")))], ?_, List.mem_singleton.mpr rfl, ?_⟩
  · have hbody : lit "\x7b\"key\":\"k1\"\x7d" = ch '{' :: ch '"' ::
        (lit "key" ++ ch '"' :: ch ':' :: ch '"' :: (lit "k1" ++ ch '"' :: [ch '}'])) := by
      decide
    have hval : Json.Chars (lit "k1" ++ ch '"' :: [ch '}']) (codes (lit "k1")) [ch '}'] :=
      chars_ascii (by decide)
    have hname := chars_ascii (k := lit "key")
      (t := ch ':' :: ch '"' :: (lit "k1" ++ ch '"' :: [ch '}'])) (by decide)
    rw [hbody]
    exact ⟨_, [], .nil _, .obj (.last (.nil _) hname (.nil _) (.nil _) (.str hval) (.nil _)),
      .nil _⟩
  · intro m hm heq
    rw [List.mem_singleton.mp hm] at heq
    exact absurd heq (by decide)

theorem confirmation_sound_iff_sample :
    IsAscii sampleRecord.payload.key ∧ IsAscii sampleRecord.payload.hash_to_verify ∧
      Conforms sampleRecord (lit "\x7b\"key\":\"k1\"\x7d") ∧
      (confirmationMatches sampleRecord (lit "\x7b\"key\":\"k1\"\x7d") = .Confirmed →
        Conforms sampleRecord (lit "\x7b\"key\":\"k1\"\x7d")) := by
  have hkey : IsAscii sampleRecord.payload.key := by unfold IsAscii; decide
  have hhash : IsAscii sampleRecord.payload.hash_to_verify := by unfold IsAscii; decide
  exact ⟨hkey, hhash, sampleRecord_conforms,
    ((confirmation_sound_iff hkey hhash).mpr (Or.inl sampleRecord_conforms)).1⟩

/-- What is JSON can be skipped. -/
theorem skipJsonValue_text {body : Bytes} {j : Json.Value} (h : Json.Text body j) :
    (skipJsonValue body).isSome = true := by
  obtain ⟨s₁, s₂, hw, hv, ht⟩ := h
  rw [skipJsonValue_val hw hv (Delimited.ws ht trivial)]
  rfl

/-- A body cut off before its closing brace is taken for a confirmation. -/
theorem confirmation_sound_truncated :
    IsAscii sampleRecord.payload.key ∧ IsAscii sampleRecord.payload.hash_to_verify ∧
      confirmationMatches sampleRecord (lit "\x7b\"key\":\"k1\"") = .Confirmed ∧
      ¬ Conforms sampleRecord (lit "\x7b\"key\":\"k1\"") := by
  refine ⟨by unfold IsAscii; decide, by unfold IsAscii; decide, by decide +kernel, ?_⟩
  rintro ⟨ms, ht, -⟩
  exact absurd (skipJsonValue_text ht) (by decide +kernel)

end TreeMiner

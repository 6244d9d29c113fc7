import TreeMiner.Gpu.Request
import TreeMiner.Journal.FindJournal
import TreeMiner.Lib.Base64

/-!
# PHC strings (`treeminer/PhcAssembler.h`, `CpuMiningWorker.cpp`)

`base64EncodeInto` shifts 32-bit words; its characters are those of base64 (`base64Encode_eq`),
so it is undone by decoding and its length is known. A PHC string has a fixed shape but for the
numeral of its memory cost, which is why it can be taken apart from the end: 123 bytes
follow the numeral.

Taking it apart is what the CPU worker does with the library's encoding: it looks for the last
`$` and takes what is behind it. No character of the base64 alphabet is a `$`, so that is the
digest and nothing else.
-/

namespace TreeMiner.Gpu

open Cxx

/-! ## `HashApiEncoding.cpp` -/

def base64EncodedLength (in_len : Nat) : Nat :=
  let full_groups := in_len / 3
  let remaining := in_len % 3
  full_groups * 4 + if remaining = 0 then 0 else remaining + 1

def base64Encode (bytes_to_encode : Bytes) : Bytes := base64EncodeInto bytes_to_encode

section Encoding

variable {value : UInt32} {n : Nat}

/-- A character of the table is the one of the alphabet. -/
theorem base64Char_eq (h : value.toNat = n) : base64Char value = Base64.char (n % 64) := by
  have hall : ∀ v < 64, kBase64Chars.getD v 0 = Base64.char v := by decide +kernel
  have hand : (value &&& 0x3f).toNat = n % 64 := by
    rw [UInt32.toNat_and, h]
    exact Nat.and_two_pow_sub_one_eq_mod n 6
  unfold base64Char
  rw [hand]
  exact hall _ (Nat.mod_lt _ (by decide))

theorem toNat_shiftRight (h : value.toNat = n) (k : UInt32) :
    (value >>> k).toNat = n / 2 ^ (k.toNat % 32) := by
  rw [UInt32.toNat_shiftRight, h, Nat.shiftRight_eq_div_pow]

theorem toNat_shiftLeft_byte (a : UInt8) {k : UInt32} (hk : k.toNat ≤ 16) :
    (a.toUInt32 <<< k).toNat = a.toNat <<< k.toNat := by
  have ha := UInt8.toNat_lt a
  have hpow : 2 ^ k.toNat ≤ 2 ^ 16 := Nat.pow_le_pow_right (by decide) hk
  rw [UInt32.toNat_shiftLeft, UInt8.toNat_toUInt32, Nat.mod_eq_of_lt (by omega : k.toNat < 32),
    Nat.shiftLeft_eq]
  refine Nat.mod_eq_of_lt (lt_of_le_of_lt (Nat.mul_le_mul (Nat.le_of_lt ha) hpow) ?_)
  decide

theorem toNat_two (a b : UInt8) : ((a.toUInt32 <<< 16) ||| (b.toUInt32 <<< 8)).toNat =
    (a.toNat * 256 + b.toNat) <<< 8 := by
  have hb := UInt8.toNat_lt b
  have hlt : b.toNat <<< 8 < 2 ^ 16 := by
    rw [Nat.shiftLeft_eq]
    omega
  rw [UInt32.toNat_or, toNat_shiftLeft_byte a (by decide), toNat_shiftLeft_byte b (by decide)]
  show a.toNat <<< 16 ||| b.toNat <<< 8 = _
  rw [← Nat.shiftLeft_add_eq_or_of_lt hlt, Nat.shiftLeft_eq, Nat.shiftLeft_eq, Nat.shiftLeft_eq]
  omega

/-- Three bytes put together are one number of 24 bits. -/
theorem toNat_three (a b c : UInt8) :
    ((a.toUInt32 <<< 16) ||| (b.toUInt32 <<< 8) ||| c.toUInt32).toNat =
      a.toNat * 65536 + b.toNat * 256 + c.toNat := by
  have hc := UInt8.toNat_lt c
  rw [UInt32.toNat_or, toNat_two, UInt8.toNat_toUInt32, ← Nat.shiftLeft_add_eq_or_of_lt hc,
    Nat.shiftLeft_eq]
  omega

/-- The encoder is base64. -/
theorem base64Encode_eq : ∀ bytes : Bytes, base64Encode bytes = Base64.encode bytes
  | a :: b :: c :: rest => by
    have ih := base64Encode_eq rest
    have h := toNat_three a b c
    unfold base64Encode at ih ⊢
    unfold base64EncodeInto Base64.encode
    rw [Base64.sextets_four]
    dsimp only
    rw [base64Char_eq (toNat_shiftRight h 18), base64Char_eq (toNat_shiftRight h 12),
      base64Char_eq (toNat_shiftRight h 6), base64Char_eq h, ih]
    rfl
  | [a, b] => by
    have h := toNat_two a b
    rw [Nat.shiftLeft_eq] at h
    unfold base64Encode base64EncodeInto Base64.encode
    rw [Base64.sextets_three]
    dsimp only
    rw [base64Char_eq (toNat_shiftRight h 18), base64Char_eq (toNat_shiftRight h 12),
      base64Char_eq (toNat_shiftRight h 6)]
    -- the bits below the last byte are zero
    have h18 : (a.toNat * 256 + b.toNat) * 256 / 262144 = (a.toNat * 256 + b.toNat) * 4 / 4096 := by
      omega
    have h12 : (a.toNat * 256 + b.toNat) * 256 / 4096 = (a.toNat * 256 + b.toNat) * 4 / 64 := by
      omega
    have h6 : (a.toNat * 256 + b.toNat) * 256 / 64 = (a.toNat * 256 + b.toNat) * 4 := by omega
    rw [← h18, ← h12, ← h6]
    rfl
  | [a] => by
    have h := toNat_shiftLeft_byte a (k := 16) (by decide)
    unfold base64Encode base64EncodeInto Base64.encode
    rw [Base64.sextets_two]
    dsimp only
    rw [base64Char_eq (toNat_shiftRight h 18), base64Char_eq (toNat_shiftRight h 12)]
    have h18 : a.toNat * 65536 / 262144 = a.toNat * 16 / 64 := by omega
    have h12 : a.toNat * 65536 / 4096 = a.toNat * 16 := by omega
    rw [← h18, ← h12, Nat.shiftLeft_eq]
    rfl
  | [] => rfl

/-- The length of the encoding is the one that is computed beforehand. -/
theorem base64Encode_length (bytes : Bytes) :
    (base64Encode bytes).length = base64EncodedLength bytes.length := by
  rw [base64Encode_eq, Base64.encode_length]
  rfl

/-- No `$` stands in an encoding, so that the last one ends the salt. -/
theorem dollar_not_mem_base64Encode (bytes : Bytes) : ch '$' ∉ base64Encode bytes := by
  intro h
  rw [base64Encode_eq] at h
  obtain ⟨v, hv, heq⟩ := Base64.encode_chars bytes _ h
  have hall : ∀ v < 64, ch '$' ≠ Base64.char v := by decide
  exact hall v hv heq

end Encoding

/-! ## `PhcAssembler.h` -/

/-- The lambda `nibble`; `none` where it throws. -/
def nibble (c : UInt8) : Option Nat :=
  if ch '0' ≤ c ∧ c ≤ ch '9' then some (c.toNat - 48)
  else if ch 'a' ≤ c ∧ c ≤ ch 'f' then some (c.toNat - 97 + 10)
  else if ch 'A' ≤ c ∧ c ≤ ch 'F' then some (c.toNat - 65 + 10)
  else none

/-- The loop of `hexToBytes`. -/
def hexPairs : Bytes → Option Bytes
  | c :: d :: hex => do
    let high ← nibble c
    let low ← nibble d
    let bytes ← hexPairs hex
    some (UInt8.ofNat ((high <<< 4) ||| low) :: bytes)
  | _ => some []

/-- `hexToBytes`; throws for an odd length. -/
def hexToBytes (hex : Bytes) : Option Bytes :=
  if hex.length % 2 ≠ 0 then none else hexPairs hex

def assemblePhc (memory_cost : UInt32) (hexsalt digest_b64 : Bytes) : Option Bytes := do
  let salt_bytes ← hexToBytes hexsalt
  let salt_b64 := base64Encode salt_bytes
  some (lit "$argon2id$v=19$m=" ++ toDecimal memory_cost.toNat ++ lit ",t=1,p=1$" ++ salt_b64 ++
    [ch '$'] ++ digest_b64)

/-! ## `CpuMiningWorker.cpp` -/

/-- `std::string::rfind` of a character. -/
def rfind (c : UInt8) : Bytes → Option Nat
  | [] => none
  | x :: s =>
    match rfind c s with
    | some i => some (i + 1)
    | none => if x = c then some 0 else none

/-- `digestFromProtocolPhc`; `none` where it throws. -/
def digestFromProtocolPhc (phc : Bytes) (difficulty : UInt32) : Option Bytes :=
  let parameters := lit "$argon2id$v=19$m=" ++ toDecimal difficulty.toNat ++ lit ",t=1,p=1$"
  if parameters.isPrefixOf phc then
    match rfind (ch '$') phc with
    | none => none
    | some digest_separator =>
      if digest_separator + 1 ≥ phc.length then none else some (phc.drop (digest_separator + 1))
  else none

section Phc

variable {m m₁ m₂ : UInt32} {hexsalt salt d phc s t : Bytes} {c : UInt8}

/-- A character that does not occur is not found. -/
theorem rfind_none (h : c ∉ t) : rfind c t = none := by
  induction t with
  | nil => rfl
  | cons x t ih =>
    have hne : x ≠ c := by
      rintro rfl
      exact h List.mem_cons_self
    unfold rfind
    rw [ih fun hc => h (List.mem_cons_of_mem x hc)]
    exact if_neg hne

/-- The last of these characters stands where none follows. -/
theorem rfind_append (h : c ∉ t) : rfind c (s ++ c :: t) = some s.length := by
  induction s with
  | nil =>
    show (match rfind c t with
      | some i => some (i + 1)
      | none => if c = c then some 0 else none) = _
    rw [rfind_none h]
    exact if_pos rfl
  | cons x s ih =>
    show (match rfind c (s ++ c :: t) with
      | some i => some (i + 1)
      | none => if x = c then some 0 else none) = _
    rw [ih]
    rfl

/-- What `substr` gives behind a separator. -/
theorem drop_separator (s t : Bytes) (c : UInt8) : (s ++ c :: t).drop (s.length + 1) = t := by
  rw [show s ++ c :: t = (s ++ [c]) ++ t by simp]
  exact List.drop_left' (by rw [List.length_append, List.length_singleton])

/-- Hex digits in pairs are decoded, two to a byte. -/
theorem hexPairs_digits : ∀ {hex : Bytes}, hex.length % 2 = 0 →
    (∀ c ∈ hex, (nibble c).isSome = true) →
    ∃ bytes, hexPairs hex = some bytes ∧ bytes.length = hex.length / 2
  | [], _, _ => ⟨[], rfl, rfl⟩
  | [c], h, _ => by simp at h
  | c :: d :: hex, h, hall => by
    simp only [List.forall_mem_cons] at hall
    obtain ⟨high, hhigh⟩ := Option.isSome_iff_exists.mp hall.1
    obtain ⟨low, hlow⟩ := Option.isSome_iff_exists.mp hall.2.1
    obtain ⟨bytes, hbytes, hlen⟩ := hexPairs_digits
      (by simp only [List.length_cons] at h; omega) hall.2.2
    refine ⟨UInt8.ofNat ((high <<< 4) ||| low) :: bytes, ?_, ?_⟩
    · unfold hexPairs
      rw [hhigh, hlow, hbytes]
      rfl
    · simp only [List.length_cons, hlen]
      omega

/-- The salt of an account: forty hexadecimal digits. -/
structure HexSalt (hexsalt : Bytes) : Prop where
  length : hexsalt.length = 40
  digits : ∀ c ∈ hexsalt, (nibble c).isSome = true

/-- A salt of forty hex digits has twenty bytes. -/
theorem HexSalt.bytes (h : HexSalt hexsalt) :
    ∃ salt, hexToBytes hexsalt = some salt ∧ salt.length = 20 := by
  have heven : hexsalt.length % 2 = 0 := by rw [h.length]
  obtain ⟨salt, hpairs, hlen⟩ := hexPairs_digits heven h.digits
  refine ⟨salt, ?_, by rw [hlen, h.length]⟩
  unfold hexToBytes
  rw [if_neg (by rw [heven]; decide)]
  exact hpairs

/-- What follows the numeral. -/
def phcTail (salt digest : Bytes) : Bytes :=
  lit ",t=1,p=1$" ++ base64Encode salt ++ ch '$' :: base64Encode digest

/-- The string that is assembled: the version, the memory and the tail with salt and digest. -/
theorem assemblePhc_eq (h : hexToBytes hexsalt = some salt) :
    assemblePhc m hexsalt (base64Encode d) =
      some (lit "$argon2id$v=19$m=" ++ toDecimal m.toNat ++ phcTail salt d) := by
  unfold assemblePhc phcTail
  rw [h, Option.bind_eq_bind, Option.bind_some]
  simp only [List.append_assoc, List.cons_append, List.nil_append]

/-- The tail has a fixed length, whatever the salt and the digest. -/
theorem phcTail_length (hs : salt.length = 20) (hd : d.length = 64) :
    (phcTail salt d).length = 123 := by
  have hlit : (lit ",t=1,p=1$").length = 9 := by decide
  unfold phcTail
  rw [List.length_append, List.length_append, List.length_cons, base64Encode_length,
    base64Encode_length, hs, hd, hlit]
  rfl

/-- 150 bytes when the memory cost has ten digits. -/
theorem assemblePhc_length (hs : salt.length = 20) (hd : d.length = 64) :
    (lit "$argon2id$v=19$m=" ++ toDecimal m.toNat ++ phcTail salt d).length =
      140 + (toDecimal m.toNat).length := by
  have hlit : (lit "$argon2id$v=19$m=").length = 17 := by decide
  rw [List.length_append, List.length_append, phcTail_length hs hd, hlit]
  omega

/-- The tail determines the salt and the digest. -/
theorem phcTail_injective {salt' d' : Bytes} (hs : salt.length = 20) (hs' : salt'.length = 20)
    (h : phcTail salt d = phcTail salt' d') : salt = salt' ∧ d = d' := by
  unfold phcTail at h
  rw [List.append_assoc, List.append_assoc] at h
  have hsalt : (base64Encode salt).length = (base64Encode salt').length := by
    rw [base64Encode_length, base64Encode_length, hs, hs']
  obtain ⟨h₁, h₂⟩ := List.append_inj (List.append_cancel_left h) hsalt
  rw [base64Encode_eq, base64Encode_eq] at h₁
  have h₂ := (List.cons.inj h₂).2
  rw [base64Encode_eq, base64Encode_eq] at h₂
  exact ⟨Base64.encode_injective h₁, Base64.encode_injective h₂⟩

/-- The text after the last `$` is the digest. -/
theorem digestFromProtocolPhc_eq (hd : d.length = 64) :
    digestFromProtocolPhc (lit "$argon2id$v=19$m=" ++ toDecimal m.toNat ++ phcTail salt d) m =
      some (base64Encode d) := by
  have hshape : lit "$argon2id$v=19$m=" ++ toDecimal m.toNat ++ phcTail salt d =
      (lit "$argon2id$v=19$m=" ++ toDecimal m.toNat ++ lit ",t=1,p=1$" ++ base64Encode salt) ++
        ch '$' :: base64Encode d := by
    unfold phcTail
    simp only [List.append_assoc]
  have hprefix : (lit "$argon2id$v=19$m=" ++ toDecimal m.toNat ++ lit ",t=1,p=1$").isPrefixOf
      (lit "$argon2id$v=19$m=" ++ toDecimal m.toNat ++ phcTail salt d) = true := by
    rw [List.isPrefixOf_iff_prefix, hshape, List.append_assoc _ (base64Encode salt)]
    exact List.prefix_append _ _
  have hlen : (base64Encode d).length = 86 := by
    rw [base64Encode_length, hd]
    rfl
  unfold digestFromProtocolPhc
  dsimp only
  rw [if_pos hprefix, hshape, rfind_append (dollar_not_mem_base64Encode d)]
  dsimp only
  generalize lit "$argon2id$v=19$m=" ++ toDecimal m.toNat ++ lit ",t=1,p=1$" ++
    base64Encode salt = front
  have hmore : ¬front.length + 1 ≥ (front ++ ch '$' :: base64Encode d).length := by
    rw [List.length_append, List.length_cons, hlen]
    omega
  rw [if_neg hmore, drop_separator]

end Phc

open Journal in
/-- **PHC strings.** Base64 encoding has the length that `base64EncodedLength` says and is undone
by decoding. For every memory cost, salt of forty hexadecimal digits and digest of 64 bytes, the
PHC string has at most 150 bytes, so that `append` stores the find as pending when it has an
account, and `digestFromProtocolPhc` gives the encoded digest back; and the string determines
the memory cost, the bytes of the salt and the digest. -/
theorem phc_round_trip :
    (∀ bytes : Bytes, (base64Encode bytes).length = base64EncodedLength bytes.length ∧
      Base64.decode (base64Encode bytes) = some bytes) ∧
    (∀ a b : Bytes, base64Encode a = base64Encode b → a = b) ∧
    (∀ (m : UInt32) (hexsalt d : Bytes), HexSalt hexsalt → d.length = 64 →
      ∃ phc, assemblePhc m hexsalt (base64Encode d) = some phc ∧ phc.length ≤ 150 ∧
        (∀ p : FoundPayload, p.hash_to_verify = phc → p.account ≠ [] →
          initialStatus p = (.Pending, []) ∧ ∀ id, (newRow id p).status = .Pending) ∧
        digestFromProtocolPhc phc m = some (base64Encode d)) ∧
    ∀ (m m' : UInt32) (hexsalt hexsalt' d d' : Bytes), HexSalt hexsalt → HexSalt hexsalt' →
      d.length = 64 → d'.length = 64 →
      assemblePhc m hexsalt (base64Encode d) = assemblePhc m' hexsalt' (base64Encode d') →
      m = m' ∧ hexToBytes hexsalt = hexToBytes hexsalt' ∧ d = d' := by
  refine ⟨?_, ?_, ?_, ?_⟩
  · intro bytes
    refine ⟨base64Encode_length bytes, ?_⟩
    rw [base64Encode_eq]
    exact Base64.decode_encode bytes
  · intro a b h
    rw [base64Encode_eq, base64Encode_eq] at h
    exact Base64.encode_injective h
  · intro m hexsalt d hh hd
    obtain ⟨salt, hsalt, hs⟩ := hh.bytes
    have hdigits : (toDecimal m.toNat).length ≤ 10 := by
      have hm := UInt32.toNat_lt m
      exact toDecimal_length (k := 9) (by omega)
    have hlen := assemblePhc_length (m := m) hs hd
    refine ⟨_, assemblePhc_eq hsalt, by omega, ?_, digestFromProtocolPhc_eq hd⟩
    intro p hp haccount
    have hinitial : initialStatus p = (.Pending, []) := by
      unfold initialStatus
      rw [if_neg, if_neg haccount]
      rw [hp]
      show ¬(_ > 150)
      omega
    refine ⟨hinitial, fun id => ?_⟩
    unfold newRow
    rw [hinitial]
  · intro m m' hexsalt hexsalt' d d' hh hh' hd hd' h
    obtain ⟨salt, hsalt, hs⟩ := hh.bytes
    obtain ⟨salt', hsalt', hs'⟩ := hh'.bytes
    rw [assemblePhc_eq hsalt, assemblePhc_eq hsalt'] at h
    -- both strings have the same number of bytes after the numeral
    have htail : (phcTail salt d).length = (phcTail salt' d').length := by
      rw [phcTail_length hs hd, phcTail_length hs' hd']
    obtain ⟨h₁, h₂⟩ := List.append_inj' (Option.some.inj h) htail
    have hm := toDecimal_injective (List.append_cancel_left h₁)
    obtain ⟨hsame, hd⟩ := phcTail_injective hs hs' h₂
    exact ⟨UInt32.toNat_inj.mp hm, by rw [hsalt, hsalt', hsame], hd⟩

/-- The largest memory cost. -/
theorem phc_round_trip_largest : ∃ phc, assemblePhc 4294967295 (List.replicate 40 (ch 'a'))
    (base64Encode (List.replicate 64 0)) = some phc ∧ phc.length ≤ 150 ∧
      digestFromProtocolPhc phc 4294967295 = some (base64Encode (List.replicate 64 0)) := by
  obtain ⟨phc, hphc, hlen, -, hdigest⟩ := phc_round_trip.2.2.1 4294967295
    (List.replicate 40 (ch 'a')) (List.replicate 64 0) ⟨by decide, by decide⟩ (by decide)
  exact ⟨phc, hphc, hlen, hdigest⟩

end TreeMiner.Gpu

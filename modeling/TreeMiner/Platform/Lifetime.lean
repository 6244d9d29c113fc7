import Mathlib.Algebra.Ring.Int.Defs
import TreeMiner.Platform.Signing

/-!
# The window of a command

The times of an envelope are JSON integers of either sign type, and the verifier
works on what `get<std::int64_t>` makes of them: an `issued_at` from 2^63 on
becomes negative, and the difference of two times far apart wraps to a negative
lifetime. `window_checked_iff` says for which times the checks mean what they
say. Of the two values only `issued_at` can go wrong alone: an `expires_at` that
becomes negative has expired.
-/

namespace TreeMiner

open Cxx

/-- A JSON integer: any value of either integer type. -/
inductive JsonInt where
  | signed (i : Int64)
  | unsigned (u : UInt64)
  deriving DecidableEq

namespace JsonInt

/-- The member of the message. -/
def toJson : JsonInt → JsonValue
  | signed i => .number_integer i
  | unsigned u => .number_unsigned u

/-- The integer that is written there. -/
def toInt : JsonInt → Int
  | signed i => i.toInt
  | unsigned u => u.toNat

/-- What `get<std::int64_t>` makes of it. -/
def toInt64 : JsonInt → Int64
  | signed i => i
  | unsigned u => u.toInt64

/-- An integer of the message is read as its 64-bit value. -/
theorem toJson_toInt64 (x : JsonInt) : x.toJson.toInt64 = some x.toInt64 := by
  cases x with
  | signed i => rfl
  | unsigned u => rfl

/-- The conversion takes 2^64 off what does not fit. -/
theorem toInt_toInt64 (x : JsonInt) : -2 ^ 63 ≤ x.toInt ∧ x.toInt < 2 ^ 64 ∧
    x.toInt64.toInt = if x.toInt < 2 ^ 63 then x.toInt else x.toInt - 2 ^ 64 := by
  cases x with
  | signed i =>
    have hlo := i.le_toInt
    have hhi := i.toInt_lt
    refine ⟨hlo, by simp only [toInt]; omega, ?_⟩
    exact (if_pos hhi).symm
  | unsigned u =>
    have hlt := u.toNat_lt
    have hval : (unsigned u).toInt = u.toNat := rfl
    have hread : (unsigned u).toInt64.toInt = Int.bmod u.toNat (2 ^ 64) :=
      BitVec.toInt_eq_toNat_bmod u.toBitVec
    rw [hval, hread, Int.bmod_eq_emod]
    refine ⟨by omega, by omega, ?_⟩
    split
    · rw [if_neg (by omega)]
      omega
    · rw [if_pos (by omega)]
      omega

end JsonInt

/-- The envelope of a message has these times. -/
def CarriesTimes (msg : JsonValue) (issued_at expires_at : JsonInt) : Prop :=
  ∃ auth, msg.find (lit "auth") = some auth ∧
    auth.find (lit "issued_at") = some issued_at.toJson ∧
    auth.find (lit "expires_at") = some expires_at.toJson

/-- A value of `std::int64_t`. -/
def InInt64 (n : Int) : Prop := -2 ^ 63 ≤ n ∧ n < 2 ^ 63

/-- The window the verifier is there for, on the integers the message carries, and
the two operations of the check stay within their type. -/
structure WindowHolds (issued_at expires_at : JsonInt) (now : Int64) : Prop where
  positive : 0 < expires_at.toInt - issued_at.toInt
  capped : expires_at.toInt - issued_at.toInt ≤ 900
  issued : issued_at.toInt ≤ now.toInt + 30
  live : now.toInt ≤ expires_at.toInt
  skew_fits : InInt64 (now.toInt + 30)
  lifetime_fits : InInt64 (expires_at.toInt64.toInt - issued_at.toInt64.toInt)

/-- The times do not slip through: not an `expires_at` that is still ahead with an
`issued_at` that lies 2^63 or more before it as it is read, or that was read as a
recent one because it is too large. -/
def ReadAsMeant (issued_at expires_at : JsonInt) (now : Int64) : Prop :=
  ¬ (now.toInt ≤ expires_at.toInt ∧ expires_at.toInt < 2 ^ 63 ∧
    (2 ^ 63 ≤ expires_at.toInt - issued_at.toInt64.toInt ∨
      2 ^ 63 ≤ issued_at.toInt ∧ expires_at.toInt - issued_at.toInt64.toInt ≤ 900))

/-- A signed operation of the check leaves its type: the sum with the skew, or the
difference where it is formed. The envelope has come as far as its times. -/
def CheckOverflows (msg : JsonValue) (worker : Bytes) (now : Int64) : Prop :=
  ∃ env, envelopeOf msg = some env ∧ env.bounded = true ∧ env.worker_id = worker ∧
    (¬ InInt64 (now.toInt + 30) ∨ env.issued_at ≤ now + kClockSkewSec ∧
      env.issued_at < env.expires_at ∧ ¬ InInt64 (env.expires_at.toInt - env.issued_at.toInt))

/-- What the time checks let through. -/
structure PassesWindow (issued_at expires_at now : Int64) : Prop where
  issued : issued_at ≤ now + kClockSkewSec
  positive : issued_at < expires_at
  capped : expires_at - issued_at ≤ kMaxLifetimeSec
  live : now ≤ expires_at

section

variable {issued_at expires_at now : Int64} (h0 : 0 ≤ now.toInt) (h62 : now.toInt ≤ 2 ^ 62)

include h0 h62

/-- The sum with the skew does not overflow. -/
theorem toInt_add_skew : (now + kClockSkewSec).toInt = now.toInt + 30 := by
  rw [Int64.toInt_add, show kClockSkewSec.toInt = 30 from rfl, Int.bmod_eq_of_le]
  · omega
  · omega

/-- The difference overflows when it is 2^63 or more, and is negative then. -/
theorem passesWindow_iff : PassesWindow issued_at expires_at now ↔
    issued_at.toInt ≤ now.toInt + 30 ∧ issued_at.toInt < expires_at.toInt ∧
      (expires_at.toInt - issued_at.toInt ≤ 900 ∨
        2 ^ 63 ≤ expires_at.toInt - issued_at.toInt) ∧
      now.toInt ≤ expires_at.toInt := by
  have hskew := toInt_add_skew h0 h62
  have hilo := issued_at.le_toInt
  have hehi := expires_at.toInt_lt
  have hcap : issued_at.toInt < expires_at.toInt →
      ((expires_at - issued_at).toInt ≤ kMaxLifetimeSec.toInt ↔
        expires_at.toInt - issued_at.toInt ≤ 900 ∨
          2 ^ 63 ≤ expires_at.toInt - issued_at.toInt) := by
    intro hlt
    rw [Int64.toInt_sub, show kMaxLifetimeSec.toInt = 900 from rfl, Int.bmod_eq_emod]
    split
    · omega
    · omega
  constructor
  · rintro ⟨hissued, hpos, hc, hlive⟩
    rw [Int64.le_iff_toInt_le] at hissued hc hlive
    rw [Int64.lt_iff_toInt_lt] at hpos
    exact ⟨hskew ▸ hissued, hpos, (hcap hpos).mp hc, hlive⟩
  · rintro ⟨hissued, hpos, hc, hlive⟩
    exact ⟨Int64.le_iff_toInt_le.mpr (hskew ▸ hissued), Int64.lt_iff_toInt_lt.mpr hpos,
      Int64.le_iff_toInt_le.mpr ((hcap hpos).mpr hc), Int64.le_iff_toInt_le.mpr hlive⟩

end

section

variable {issued_at expires_at : JsonInt} {now : Int64} (h0 : 0 ≤ now.toInt)
  (h62 : now.toInt ≤ 2 ^ 62)

include h0 h62

/-- Times that pass are read as meant exactly when their window holds. -/
theorem windowHolds_iff (h : PassesWindow issued_at.toInt64 expires_at.toInt64 now) :
    WindowHolds issued_at expires_at now ↔ ReadAsMeant issued_at expires_at now := by
  obtain ⟨hissued, hpos, hcap, hlive⟩ := (passesWindow_iff h0 h62).mp h
  obtain ⟨hilo, hihi, hi⟩ := issued_at.toInt_toInt64
  obtain ⟨helo, hehi, he⟩ := expires_at.toInt_toInt64
  unfold ReadAsMeant
  constructor
  · rintro ⟨hp, hc, hs, hl, -, hfits⟩ ⟨-, hfit, hbad⟩
    unfold InInt64 at hfits
    omega
  · intro hmeant
    -- what was let through is ahead of the clock, so `expires_at` was read as it is
    have hexp : expires_at.toInt < 2 ^ 63 := by omega
    refine ⟨by omega, by omega, by omega, by omega, ?_, ?_⟩
    · unfold InInt64
      omega
    · unfold InInt64
      omega

/-- Times that slip through pass. -/
theorem passesWindow_of_slip (h : ¬ ReadAsMeant issued_at expires_at now) :
    PassesWindow issued_at.toInt64 expires_at.toInt64 now := by
  obtain ⟨hilo, hihi, hi⟩ := issued_at.toInt_toInt64
  obtain ⟨helo, hehi, he⟩ := expires_at.toInt_toInt64
  obtain ⟨hlive, hfit, hbad⟩ := Classical.not_not.mp h
  rw [if_pos hfit] at he
  exact (passesWindow_iff h0 h62).mpr ⟨by omega, by omega, by omega, by omega⟩

end

/-! ## The verifier -/

section Verify

variable {hmac : Bytes → Bytes → Bytes} {dump : JsonValue → Bytes}

/-- An envelope that passes the checks has passed those on its times. -/
theorem checkEnvelope_window {msg : JsonValue} {secret worker : Bytes} {now : Int64}
    {env : Envelope} (h : checkEnvelope hmac dump msg secret worker now = .ok env) :
    PassesWindow env.issued_at env.expires_at now := by
  unfold checkEnvelope at h
  split at h
  · cases h
  split at h
  · cases h
  split at h
  · cases h
  split at h
  · cases h
  split at h
  · cases h
  split at h
  · cases h
  split at h
  · cases h
  next hissued =>
    split at h
    · cases h
    next hlife =>
      split at h
      · cases h
      next hlive =>
        split at h
        · cases h
        · cases h
          rw [Bool.or_eq_true, decide_eq_true_eq, decide_eq_true_eq, not_or] at hlife
          exact ⟨Int64.not_lt.mp hissued, Int64.not_le.mp hlife.1, Int64.not_lt.mp hlife.2,
            Int64.not_lt.mp hlive⟩

/-- The times of the envelope are those the message carries, as they are read. -/
theorem envelopeOf_times {msg : JsonValue} {env : Envelope} {issued_at expires_at : JsonInt}
    (h : envelopeOf msg = some env) (ht : CarriesTimes msg issued_at expires_at) :
    env.issued_at = issued_at.toInt64 ∧ env.expires_at = expires_at.toInt64 := by
  obtain ⟨auth, hauth, hi, he⟩ := ht
  unfold envelopeOf readAuth at h
  rw [hauth, Option.bind_some] at h
  unfold getInt64Field at h
  rw [hi, he, Option.bind_some, Option.bind_some, JsonInt.toJson_toInt64,
    JsonInt.toJson_toInt64] at h
  simp only [Option.bind_eq_bind, Option.bind_eq_some_iff] at h
  obtain ⟨w, -, c, -, n, -, s, -, i, hi', e, he', h⟩ := h
  cases hi'
  cases he'
  cases h
  exact ⟨rfl, rfl⟩

/-- The envelope of a command of the platform with given times, signed. -/
def timedEnvelope (hmac : Bytes → Bytes → Bytes) (dump : JsonValue → Bytes)
    (issued_at expires_at : JsonInt) : Envelope where
  worker_id := lit "rig1"
  command_id := lit "c1"
  nonce := lit "00112233aabbccdd"
  issued_at := issued_at.toInt64
  expires_at := expires_at.toInt64
  sig := hmacSha256Hex hmac (lit "s3cret") (signingString (lit "rig1") (lit "c1") issued_at.toInt64
    expires_at.toInt64 (lit "00112233aabbccdd")
    (canonicalBody dump (.object [(lit "command", .string (lit "release"))])))

/-- The command. -/
def timedCommand (hmac : Bytes → Bytes → Bytes) (dump : JsonValue → Bytes)
    (issued_at expires_at : JsonInt) : JsonValue :=
  .object (JsonValue.setMember (lit "auth")
    (authObject (timedEnvelope hmac dump issued_at expires_at) issued_at.toJson expires_at.toJson)
    [(lit "command", .string (lit "release"))])

/-- The command made for two times carries these times. -/
theorem timedCommand_carries (issued_at expires_at : JsonInt) :
    CarriesTimes (timedCommand hmac dump issued_at expires_at) issued_at expires_at := by
  have hkeys : [lit "command_id", lit "expires_at", lit "issued_at", lit "nonce", lit "sig",
      lit "worker_id"].Nodup := by decide
  refine ⟨_, JsonValue.lookup_setMember _, ?_, ?_⟩
  · exact lookup_of_mem hkeys (.tail _ (.tail _ (.head _)))
  · exact lookup_of_mem hkeys (.tail _ (.head _))

/-- And its auth member is read back. -/
theorem timedCommand_read (issued_at expires_at : JsonInt) :
    readAuth (authObject (timedEnvelope hmac dump issued_at expires_at) issued_at.toJson
      expires_at.toJson) = some (timedEnvelope hmac dump issued_at expires_at) :=
  readAuth_authObject (JsonInt.toJson_toInt64 _) (JsonInt.toJson_toInt64 _)

/-- Its fields are within the bounds of the reader. -/
theorem timedEnvelope_bounded (hlen : ∀ key data, (hmac key data).length = 32)
    (issued_at expires_at : JsonInt) :
    (timedEnvelope hmac dump issued_at expires_at).bounded = true := by
  have hids : isSafeIdentifier (lit "rig1") 1 kMaxIdLen = true ∧
      isSafeIdentifier (lit "c1") 1 kMaxIdLen = true ∧
      isHexString (lit "00112233aabbccdd") kMinNonceHexLen kMaxNonceHexLen = true := by
    decide
  unfold Envelope.bounded timedEnvelope
  dsimp only
  rw [hids.1, hids.2.1, hids.2.2, isHexString_hmac hlen]
  rfl

/-- A command whose times pass is accepted. -/
theorem timedCommand_ok (hlen : ∀ key data, (hmac key data).length = 32)
    {issued_at expires_at : JsonInt} {now : Int64}
    (h : PassesWindow issued_at.toInt64 expires_at.toInt64 now) :
    (verifyEnvelope hmac dump (timedCommand hmac dump issued_at expires_at) (lit "s3cret")
      (lit "rig1") now (NonceCache.new 16)).1 = .Ok := by
  have hok : checkEnvelope hmac dump (timedCommand hmac dump issued_at expires_at) (lit "s3cret")
      (timedEnvelope hmac dump issued_at expires_at).worker_id now =
      .ok (timedEnvelope hmac dump issued_at expires_at) := by
    refine checkEnvelope_signed rfl (JsonValue.lookup_setMember _) rfl
      (timedCommand_read issued_at expires_at) (timedEnvelope_bounded hlen issued_at expires_at)
      h.issued h.positive h.capped h.live ?_
    unfold timedCommand
    rw [canonicalBody_setMember]
    rfl
  exact verifyEnvelope_fresh hok (AList.notMem_empty _)

/-- What is accepted lies in its window exactly when the times are read as meant. -/
theorem accepted_in_window_iff (hlen : ∀ key data, (hmac key data).length = 32)
    (issued_at expires_at : JsonInt) {now : Int64} (h0 : 0 ≤ now.toInt)
    (h62 : now.toInt ≤ 2 ^ 62) :
    (∀ (msg : JsonValue) (secret worker : Bytes) (nonces : NonceCache),
      CarriesTimes msg issued_at expires_at →
      (verifyEnvelope hmac dump msg secret worker now nonces).1 = .Ok →
      WindowHolds issued_at expires_at now) ↔ ReadAsMeant issued_at expires_at now := by
  constructor
  · intro h
    by_contra hslip
    have hpass := passesWindow_of_slip h0 h62 hslip
    have hw := h _ _ _ _ (timedCommand_carries issued_at expires_at) (timedCommand_ok hlen hpass)
    exact hslip ((windowHolds_iff h0 h62 hpass).mp hw)
  · intro hmeant msg secret worker nonces ht hok
    cases hc : checkEnvelope hmac dump msg secret worker now with
    | error status =>
      rw [verifyEnvelope, hc] at hok
      exact absurd hok (checkEnvelope_error hc)
    | ok env =>
      obtain ⟨hi, he⟩ := envelopeOf_times (checkEnvelope_ok hc) ht
      have hpass := checkEnvelope_window hc
      rw [hi, he] at hpass
      exact (windowHolds_iff h0 h62 hpass).mpr hmeant

/-- No operation overflows exactly when the difference of the times, as they are
read, fits. -/
theorem checkOverflows_iff (issued_at expires_at : JsonInt) {now : Int64} (h0 : 0 ≤ now.toInt)
    (h62 : now.toInt ≤ 2 ^ 62) :
    (∀ (msg : JsonValue) (worker : Bytes), CarriesTimes msg issued_at expires_at →
      ¬ CheckOverflows msg worker now) ↔
    expires_at.toInt64.toInt - issued_at.toInt64.toInt < 2 ^ 63 := by
  have hskew := toInt_add_skew h0 h62
  have hehi := expires_at.toInt64.toInt_lt
  constructor
  · intro h
    by_contra hfits
    -- any message that gets as far as its times forms the difference
    let anyHmac : Bytes → Bytes → Bytes := fun _ _ => List.replicate 32 0
    have hb := @timedEnvelope_bounded anyHmac sampleDump (fun _ _ => rfl) issued_at expires_at
    refine h _ _ (@timedCommand_carries anyHmac sampleDump issued_at expires_at)
      ⟨_, ?_, hb, rfl, Or.inr ⟨?_, ?_, ?_⟩⟩
    · unfold envelopeOf timedCommand
      rw [show JsonValue.find (.object (JsonValue.setMember (lit "auth") _ _)) (lit "auth") = _ from
        JsonValue.lookup_setMember _]
      exact timedCommand_read issued_at expires_at
    · show issued_at.toInt64 ≤ now + kClockSkewSec
      rw [Int64.le_iff_toInt_le, hskew]
      omega
    · show issued_at.toInt64 < expires_at.toInt64
      rw [Int64.lt_iff_toInt_lt]
      omega
    · show ¬ InInt64 (expires_at.toInt64.toInt - issued_at.toInt64.toInt)
      unfold InInt64
      omega
  · rintro hfits msg worker ht ⟨env, henv, -, -, hover⟩
    obtain ⟨hi, he⟩ := envelopeOf_times henv ht
    rw [hi, he, Int64.lt_iff_toInt_lt] at hover
    unfold InInt64 at hover
    omega

/-- For times of any JSON integers and every clock from 0 to 2^62: every message
with these times that is accepted lies in its window, without an overflow, exactly
when the times are read as meant; and no such message, accepted or not, makes the
check overflow exactly when the difference of the times as read is below 2^63. -/
theorem window_checked_iff (hlen : ∀ key data, (hmac key data).length = 32)
    (issued_at expires_at : JsonInt) {now : Int64} (h0 : 0 ≤ now.toInt)
    (h62 : now.toInt ≤ 2 ^ 62) :
    ((∀ (msg : JsonValue) (secret worker : Bytes) (nonces : NonceCache),
      CarriesTimes msg issued_at expires_at →
      (verifyEnvelope hmac dump msg secret worker now nonces).1 = .Ok →
      WindowHolds issued_at expires_at now) ↔ ReadAsMeant issued_at expires_at now) ∧
    ((∀ (msg : JsonValue) (worker : Bytes), CarriesTimes msg issued_at expires_at →
      ¬ CheckOverflows msg worker now) ↔
      expires_at.toInt64.toInt - issued_at.toInt64.toInt < 2 ^ 63) :=
  ⟨accepted_in_window_iff hlen issued_at expires_at h0 h62,
    checkOverflows_iff issued_at expires_at h0 h62⟩

end Verify

/-- A command for a minute. -/
theorem window_checked_iff_sample : ReadAsMeant (.unsigned 1000) (.unsigned 1060) 1010 ∧
    ∀ (msg : JsonValue) (secret worker : Bytes) (nonces : NonceCache),
      CarriesTimes msg (.unsigned 1000) (.unsigned 1060) →
      (verifyEnvelope sampleHmac sampleDump msg secret worker 1010 nonces).1 = .Ok →
      WindowHolds (.unsigned 1000) (.unsigned 1060) 1010 := by
  have hmeant : ReadAsMeant (.unsigned 1000) (.unsigned 1060) 1010 := by
    unfold ReadAsMeant
    decide
  exact ⟨hmeant, (window_checked_iff sampleHmac_length (.unsigned 1000) (.unsigned 1060)
    (by decide) (by decide)).1.mpr hmeant⟩

/-- HMAC-SHA256 under the sample secret of the signing string of the sample command
with the smallest and the largest time. -/
def widestHmac (_ _ : Bytes) : Bytes :=
  [0xfe, 0x80, 0x99, 0x28, 0x4e, 0xe4, 0x40, 0xcb, 0xa0, 0x15, 0x67, 0xc1, 0xc2, 0xe4, 0x8f, 0x50,
    0xab, 0xbf, 0xd8, 0x3f, 0x85, 0x60, 0x1d, 0xe2, 0xe6, 0x21, 0x77, 0xd3, 0x37, 0xb2, 0xe0, 0x8b]

/-- A command that was valid from the first second to the last is accepted. -/
theorem widest_window_accepted :
    let times := (JsonInt.signed Int64.minValue, JsonInt.signed Int64.maxValue)
    let msg := timedCommand widestHmac sampleDump times.1 times.2
    CarriesTimes msg times.1 times.2 ∧
    (verifyEnvelope widestHmac sampleDump msg (lit "s3cret") (lit "rig1") 1000
      (NonceCache.new 16)).1 = .Ok ∧ ¬ WindowHolds times.1 times.2 1000 := by
  refine ⟨timedCommand_carries _ _, ?_, ?_⟩
  · exact timedCommand_ok (fun _ _ => rfl) ⟨by decide, by decide, by decide, by decide⟩
  · intro h
    exact absurd h.capped (by decide)

end TreeMiner

import Mathlib.Data.Finset.Card
import Mathlib.Data.List.AList
import TreeMiner.Platform.Message

/-!
# `CommandEnvelope.cpp`: signed commands and the replay cache

`verifyEnvelope` with everything it calls, and what a run of deliveries over one
`NonceCache` guarantees. The cache remembers a nonce until the envelope it came
in expires: `replay_refused` says that a nonce which was accepted is not accepted
again before then, whatever else is delivered in between and in which order, as
long as the cache never has to evict.

The argument is one invariant (`Remembers`): every accepted envelope that is
still ahead of the clock has its entry. A purge keeps it, because it drops
expired entries only; an insertion keeps it, because it happens only when the
nonce has no entry, so no unexpired acceptance of it exists. Delivery at the
very second an envelope expires is not covered: `purgeExpired` has dropped the
entry by then and the verifier has not yet turned the message away.

HMAC-SHA256 (OpenSSL) and `json::dump` are parameters: nothing here depends on
what they compute. Signed 64-bit arithmetic wraps.
-/

namespace TreeMiner

open Cxx

def kMaxLifetimeSec : Int64 := 15 * 60
def kClockSkewSec : Int64 := 30
def kMinNonceHexLen : Nat := 16
def kMaxNonceHexLen : Nat := 128
def kMaxIdLen : Nat := 128

/-! ## The replay cache -/

/-- The map `by_nonce_`: nonce to expiry. -/
abbrev NonceMap := AList fun _ : Bytes => Int64

/-- `NonceCache`. -/
structure NonceCache where
  capacity : Nat
  by_nonce : NonceMap
  insertion_order : List Bytes

namespace NonceCache

/-- `NonceCache::NonceCache`. -/
def new (capacity : Nat) : NonceCache := ⟨if capacity = 0 then 1 else capacity, ∅, []⟩

/-- The loop of `purgeExpired`: from the front, up to the first live entry. -/
def purgeLoop (now : Int64) : List Bytes → NonceMap → List Bytes × NonceMap
  | [], m => ([], m)
  | n :: order, m =>
    match m.lookup n with
    | some e => if e > now then (n :: order, m) else purgeLoop now order (m.erase n)
    | none => purgeLoop now order m

/-- `NonceCache::purgeExpired`. -/
def purgeExpired (c : NonceCache) (now : Int64) : NonceCache :=
  let r := purgeLoop now c.insertion_order c.by_nonce
  { c with by_nonce := r.2, insertion_order := r.1 }

/-- The eviction loop of `checkAndInsert`: first in, first out. -/
def evictLoop (capacity : Nat) : List Bytes → NonceMap → List Bytes × NonceMap
  | [], m => ([], m)
  | n :: order, m =>
    if m.keys.length ≥ capacity then evictLoop capacity order (m.erase n) else (n :: order, m)

/-- `NonceCache::checkAndInsert`. -/
def checkAndInsert (c : NonceCache) (nonce : Bytes) (expires_at now : Int64) : Bool × NonceCache :=
  let c := c.purgeExpired now
  match c.by_nonce.lookup nonce with
  | some _ => (false, c)
  | none =>
    let r := evictLoop c.capacity c.insertion_order c.by_nonce
    (true, { c with by_nonce := r.2.insert nonce expires_at, insertion_order := r.1 ++ [nonce] })

end NonceCache

/-! ## Verification -/

/-- `VerifyStatus`. -/
inductive VerifyStatus where
  | Ok
  | MissingAuth
  | MalformedAuth
  | WrongWorker
  | IssuedInFuture
  | LifetimeInvalid
  | Expired
  | BadSignature
  | ReplayedNonce
  deriving DecidableEq, Repr

/-- The fields of an `auth` object. -/
structure Envelope where
  worker_id : Bytes
  command_id : Bytes
  nonce : Bytes
  sig : Bytes
  issued_at : Int64
  expires_at : Int64
  deriving DecidableEq

/-- `getInt64Field`. -/
def getInt64Field (obj : JsonValue) (key : Bytes) : Option Int64 := (obj.find key).bind (·.toInt64)

/-- `getStringField`. -/
def getStringField (obj : JsonValue) (key : Bytes) :
    Option Bytes := (obj.find key).bind (·.toBytes)

/-- The typed fields of `auth`, all of them or nothing. -/
def readAuth (auth : JsonValue) : Option Envelope := do
  let worker_id ← getStringField auth (lit "worker_id")
  let command_id ← getStringField auth (lit "command_id")
  let nonce ← getStringField auth (lit "nonce")
  let sig ← getStringField auth (lit "sig")
  let issued_at ← getInt64Field auth (lit "issued_at")
  let expires_at ← getInt64Field auth (lit "expires_at")
  some { worker_id, command_id, nonce, sig, issued_at, expires_at }

/-- The envelope a message carries, if it is one. -/
def envelopeOf (msg : JsonValue) : Option Envelope := (msg.find (lit "auth")).bind readAuth

/-- The bounds on the fields. -/
def Envelope.bounded (env : Envelope) : Bool :=
  isSafeIdentifier env.worker_id 1 kMaxIdLen && isSafeIdentifier env.command_id 1 kMaxIdLen &&
    isHexString env.nonce kMinNonceHexLen kMaxNonceHexLen && isHexString env.sig 64 64

/-- One byte as two lower-case hexadecimal digits. -/
def hexByte (b : UInt8) : Bytes :=
  let digit (n : Nat) : UInt8 := if n < 10 then UInt8.ofNat (48 + n) else UInt8.ofNat (87 + n)
  [digit (b.toNat / 16), digit (b.toNat % 16)]

/-- `constantTimeHexEquals`. -/
def constantTimeHexEquals (a b : Bytes) : Bool :=
  a.length == b.length && a.map toLower == b.map toLower

/-- `signingString`. -/
def signingString (worker_id command_id : Bytes) (issued_at expires_at : Int64)
    (nonce body : Bytes) : Bytes :=
  lit "TMv1\n" ++ worker_id ++ lit "\n" ++ command_id ++ lit "\n" ++
    toDecimalInt issued_at.toInt ++ lit "\n" ++ toDecimalInt expires_at.toInt ++ lit "\n" ++
    nonce ++ lit "\n" ++ body

section Verify

variable (hmac : Bytes → Bytes → Bytes) (dump : JsonValue → Bytes)

/-- `hmacSha256Hex`. -/
def hmacSha256Hex (key data : Bytes) : Bytes := (hmac key data).flatMap hexByte

/-- `canonicalBody`. -/
def canonicalBody (msg : JsonValue) : Bytes := dump (msg.erase (lit "auth"))

/-- `signCommand`, for a message that is an object. -/
def signCommand (ms : List (Bytes × JsonValue)) (secret worker_id command_id nonce : Bytes)
    (issued_at expires_at : Int64) : JsonValue :=
  let body := canonicalBody dump (.object ms)
  let sig := hmacSha256Hex hmac secret
    (signingString worker_id command_id issued_at expires_at nonce body)
  .object (JsonValue.setMember (lit "auth") (.object
    [(lit "command_id", .string command_id), (lit "expires_at", .number_integer expires_at),
      (lit "issued_at", .number_integer issued_at), (lit "nonce", .string nonce),
      (lit "sig", .string sig), (lit "worker_id", .string worker_id)]) ms)

/-- Steps 1 to 4 of `verifyEnvelope`: schema, addressing, time window and
signature. -/
def checkEnvelope (msg : JsonValue) (secret expected_worker_id : Bytes) (now : Int64) :
    Except VerifyStatus Envelope :=
  if !msg.isObject then .error .MissingAuth
  else
    match msg.find (lit "auth") with
    | none => .error .MissingAuth
    | some auth =>
      if !auth.isObject then .error .MalformedAuth
      else
        match readAuth auth with
        | none => .error .MalformedAuth
        | some env =>
          if !env.bounded then .error .MalformedAuth
          else if env.worker_id ≠ expected_worker_id then .error .WrongWorker
          else if env.issued_at > now + kClockSkewSec then .error .IssuedInFuture
          else if env.expires_at ≤ env.issued_at ||
              env.expires_at - env.issued_at > kMaxLifetimeSec then .error .LifetimeInvalid
          else if now > env.expires_at then .error .Expired
          else if !constantTimeHexEquals env.sig (hmacSha256Hex hmac secret
              (signingString env.worker_id env.command_id env.issued_at env.expires_at env.nonce
                (canonicalBody dump msg))) then .error .BadSignature
          else .ok env

/-- `verifyEnvelope`. -/
def verifyEnvelope (msg : JsonValue) (secret expected_worker_id : Bytes) (now : Int64)
    (nonces : NonceCache) : VerifyStatus × NonceCache :=
  match checkEnvelope hmac dump msg secret expected_worker_id now with
  | .error status => (status, nonces)
  | .ok env =>
    match nonces.checkAndInsert env.nonce env.expires_at now with
    | (false, nonces) => (.ReplayedNonce, nonces)
    | (true, nonces) => (.Ok, nonces)

/-- A message and the time it is looked at. -/
structure Delivery where
  now : Int64
  msg : JsonValue

/-- The messages that were answered with `Ok`, in order, when `ds` is delivered
over one cache. -/
def accepted (secret worker : Bytes) : NonceCache → List Delivery → List Delivery
  | _, [] => []
  | c, d :: ds =>
    let r := verifyEnvelope hmac dump d.msg secret worker d.now c
    if r.1 = .Ok then d :: accepted secret worker r.2 ds else accepted secret worker r.2 ds

end Verify

/-! ## What the cache operations do -/

section Cache

variable {now : Int64} {n : Bytes}

/-- A purge leaves every live entry alone. -/
theorem purgeLoop_live {order : List Bytes} {m : NonceMap} {e : Int64} (h : m.lookup n = some e)
    (he : now < e) : (NonceCache.purgeLoop now order m).2.lookup n = some e := by
  induction order generalizing m with
  | nil => exact h
  | cons k order ih =>
    rw [NonceCache.purgeLoop]
    split
    next e' hk =>
      split
      next => exact h
      next hdead =>
        refine ih ?_
        have hne : n ≠ k := by
          rintro rfl
          rw [h] at hk
          cases hk
          exact hdead he
        rw [AList.lookup_erase_ne hne, h]
    next => exact ih h

/-- A purge adds nothing. -/
theorem mem_purgeLoop {order : List Bytes} {m : NonceMap}
    (h : n ∈ (NonceCache.purgeLoop now order m).2) : n ∈ m := by
  induction order generalizing m with
  | nil => exact h
  | cons k order ih =>
    rw [NonceCache.purgeLoop] at h
    split at h
    next =>
      split at h
      next => exact h
      next => exact (AList.mem_erase.mp (ih h)).2
    next => exact ih h

/-- Below capacity nothing is evicted. -/
theorem evictLoop_below {capacity : Nat} {order : List Bytes} {m : NonceMap}
    (h : m.keys.length < capacity) : NonceCache.evictLoop capacity order m = (order, m) := by
  cases order with
  | nil => rfl
  | cons k order => rw [NonceCache.evictLoop, if_neg (by omega)]

end Cache

/-! ## The invariant of a run -/

/-- The nonce of a delivered message. -/
def Delivery.nonce (d : Delivery) : Option Bytes := (envelopeOf d.msg).map (·.nonce)

/-- At time `t` and after the envelopes `es` were accepted: those ahead of the
clock have their entry, and every entry is of an accepted envelope. -/
structure Remembers (c : NonceCache) (es : List Envelope) (t : Int64) : Prop where
  live : ∀ env ∈ es, t < env.expires_at → c.by_nonce.lookup env.nonce = some env.expires_at
  known : ∀ n ∈ c.by_nonce, ∃ env ∈ es, env.nonce = n

namespace Remembers

variable {c : NonceCache} {es : List Envelope} {t now : Int64}

/-- Later, fewer messages are still in their window. -/
theorem mono (h : Remembers c es t) (ht : t ≤ now) : Remembers c es now where
  live env henv he := h.live env henv (Int64.lt_of_le_of_lt ht he)
  known := h.known

/-- Dropping what has expired keeps the others. -/
theorem purge (h : Remembers c es t) (ht : t ≤ now) : Remembers (c.purgeExpired now) es now where
  live env henv he := purgeLoop_live (h.live env henv (Int64.lt_of_le_of_lt ht he)) he
  known n hn := h.known n (mem_purgeLoop hn)

/-- There are no more entries than distinct nonces were accepted. -/
theorem size_le (h : Remembers c es t) :
    c.by_nonce.keys.length ≤ (es.map fun env => some env.nonce).toFinset.card := by
  have hnodup : (c.by_nonce.keys.map some).Nodup :=
    List.Nodup.map (Option.some_injective _) c.by_nonce.keys_nodup
  have hsub : (c.by_nonce.keys.map some).toFinset ⊆
    (es.map fun env => some env.nonce).toFinset := by
    intro x hx
    obtain ⟨n, hn, rfl⟩ := List.mem_map.mp (List.mem_toFinset.mp hx)
    obtain ⟨env, henv, rfl⟩ := h.known n hn
    exact List.mem_toFinset.mpr (List.mem_map.mpr ⟨env, henv, rfl⟩)
  have hcard := Finset.card_le_card hsub
  rw [List.toFinset_card_of_nodup hnodup, List.length_map] at hcard
  exact hcard

/-- A nonce without an entry is recorded; no accepted envelope with it is still
ahead of the clock. -/
theorem insert {env : Envelope} (h : Remembers c es now)
    (hnone : c.by_nonce.lookup env.nonce = none) :
    (∀ env' ∈ es, env'.nonce = env.nonce → env'.expires_at ≤ now) ∧
      Remembers { c with
        by_nonce := c.by_nonce.insert env.nonce env.expires_at
        insertion_order := c.insertion_order ++ [env.nonce] } (env :: es) now := by
  have hpast : ∀ env' ∈ es, env'.nonce = env.nonce → env'.expires_at ≤ now := by
    intro env' henv' heq
    by_contra hlt
    have := h.live env' henv' (Int64.not_le.mp hlt)
    rw [heq, hnone] at this
    cases this
  refine ⟨hpast, ?_, ?_⟩
  · intro env' henv' he
    rcases List.mem_cons.mp henv' with rfl | henv'
    · exact AList.lookup_insert _
    · have hne : env'.nonce ≠ env.nonce := by
        intro heq
        exact absurd he (Int64.not_lt.mpr (hpast env' henv' heq))
      rw [AList.lookup_insert_ne hne]
      exact h.live env' henv' he
  · intro n hn
    rcases (AList.mem_insert _).mp hn with rfl | hn
    · exact ⟨env, List.mem_cons_self, rfl⟩
    · obtain ⟨env', henv', heq⟩ := h.known n hn
      exact ⟨env', List.mem_cons_of_mem _ henv', heq⟩

end Remembers

/-! ## Runs -/

section Runs

variable {hmac : Bytes → Bytes → Bytes} {dump : JsonValue → Bytes} {secret worker : Bytes}
variable {c : NonceCache} {es : List Envelope} {t : Int64}

/-- What passes the checks before the replay check carries an envelope. -/
theorem checkEnvelope_ok {msg : JsonValue} {now : Int64} {env : Envelope}
    (h : checkEnvelope hmac dump msg secret worker now = .ok env) : envelopeOf msg = some env := by
  unfold checkEnvelope at h
  split at h
  · cases h
  split at h
  · cases h
  next auth hauth =>
    split at h
    · cases h
    split at h
    · cases h
    next env' henv =>
      repeat' split at h
      all_goals cases h
      rw [envelopeOf, hauth]
      exact henv

/-- None of those checks answers with `Ok`. -/
theorem checkEnvelope_error {msg : JsonValue} {now : Int64} {status : VerifyStatus}
    (h : checkEnvelope hmac dump msg secret worker now = .error status) : status ≠ .Ok := by
  unfold checkEnvelope at h
  repeat' split at h
  all_goals cases h
  all_goals decide

/-- One delivery. -/
theorem verifyEnvelope_remembers (hmac : Bytes → Bytes → Bytes) (dump : JsonValue → Bytes)
    (secret worker : Bytes) {d : Delivery} (h : Remembers c es t) (ht : t ≤ d.now)
    (hcap : (es.map fun env => some env.nonce).toFinset.card < c.capacity) :
    let r := verifyEnvelope hmac dump d.msg secret worker d.now c
    r.2.capacity = c.capacity ∧
      ((r.1 ≠ .Ok ∧ Remembers r.2 es d.now) ∨
        (r.1 = .Ok ∧ ∃ env, envelopeOf d.msg = some env ∧
          (∀ env' ∈ es, env'.nonce = env.nonce → env'.expires_at ≤ d.now) ∧
          Remembers r.2 (env :: es) d.now)) := by
  intro r
  have hr : r = verifyEnvelope hmac dump d.msg secret worker d.now c := rfl
  rw [verifyEnvelope] at hr
  have hp := h.purge ht
  split at hr
  next status hstatus =>
    rw [hr]
    exact ⟨rfl, Or.inl ⟨checkEnvelope_error hstatus, h.mono ht⟩⟩
  next env henv =>
    have hsize : (c.purgeExpired d.now).by_nonce.keys.length < (c.purgeExpired d.now).capacity :=
      lt_of_le_of_lt hp.size_le hcap
    rw [NonceCache.checkAndInsert] at hr
    dsimp only at hr
    cases hl : (c.purgeExpired d.now).by_nonce.lookup env.nonce with
    | some e =>
      rw [hl] at hr
      rw [hr]
      exact ⟨rfl, Or.inl ⟨by simp, hp⟩⟩
    | none =>
      rw [hl, evictLoop_below hsize] at hr
      rw [hr]
      obtain ⟨hpast, hi⟩ := hp.insert hl
      exact ⟨rfl, Or.inr ⟨rfl, env, checkEnvelope_ok henv, hpast, hi⟩⟩

/-- Over a run that starts with the envelopes `es` accepted. -/
theorem accepted_past {ds : List Delivery} (h : Remembers c es t) (ht : ∀ d ∈ ds, t ≤ d.now)
    (htimes : ds.Pairwise fun d d' => d.now ≤ d'.now)
    (hcap : (es.map (fun env => some env.nonce) ++
      (accepted hmac dump secret worker c ds).map Delivery.nonce).toFinset.card < c.capacity) :
    (∀ d ∈ accepted hmac dump secret worker c ds, ∃ env, envelopeOf d.msg = some env ∧
      ∀ env' ∈ es, env'.nonce = env.nonce → env'.expires_at ≤ d.now) ∧
    (accepted hmac dump secret worker c ds).Pairwise fun d d' =>
      ∃ env env', envelopeOf d.msg = some env ∧ envelopeOf d'.msg = some env' ∧
        (env.nonce = env'.nonce → env.expires_at ≤ d'.now) := by
  induction ds generalizing c es t with
  | nil => exact ⟨fun d hd => absurd hd List.not_mem_nil, List.Pairwise.nil⟩
  | cons d ds ih =>
    have hsmall : (es.map fun env => some env.nonce).toFinset.card < c.capacity := by
      refine lt_of_le_of_lt (Finset.card_le_card ?_) hcap
      intro x hx
      rw [List.mem_toFinset] at hx ⊢
      exact List.mem_append_left _ hx
    obtain ⟨hc, hstep⟩ := verifyEnvelope_remembers hmac dump secret worker h
      (ht d List.mem_cons_self) hsmall
    have htail := (List.pairwise_cons.mp htimes).1
    rw [accepted] at hcap ⊢
    rcases hstep with ⟨hno, hr⟩ | ⟨hok, env, henv, hpast, hr⟩
    · rw [if_neg hno] at hcap ⊢
      exact ih hr htail htimes.of_cons (by rw [hc]; exact hcap)
    · rw [if_pos hok] at hcap ⊢
      -- the accepted envelope joins those the rest of the run has to respect
      have hcap' : ((env :: es).map (fun env => some env.nonce) ++
          (accepted hmac dump secret worker
            (verifyEnvelope hmac dump d.msg secret worker d.now c).2 ds).map
            Delivery.nonce).toFinset.card < c.capacity := by
        refine lt_of_le_of_lt (Finset.card_le_card ?_) hcap
        intro x hx
        simp only [List.mem_toFinset, List.mem_append, List.map_cons, List.mem_cons] at hx ⊢
        have hd : d.nonce = some env.nonce := by rw [Delivery.nonce, henv]; rfl
        rw [hd]
        tauto
      obtain ⟨hall, hpair⟩ := ih hr htail htimes.of_cons (by rw [hc]; exact hcap')
      refine ⟨?_, List.Pairwise.cons ?_ hpair⟩
      · intro d' hd'
        rcases List.mem_cons.mp hd' with rfl | hd'
        · exact ⟨env, henv, hpast⟩
        · obtain ⟨env', henv', h'⟩ := hall d' hd'
          exact ⟨env', henv', fun e he => h' e (List.mem_cons_of_mem _ he)⟩
      · intro d' hd'
        obtain ⟨env', henv', h'⟩ := hall d' hd'
        exact ⟨env, env', henv, henv', h' env List.mem_cons_self⟩

/-- Over one fresh cache and at times that do not go back, with fewer distinct
nonces accepted than the cache holds: a nonce that was accepted is accepted again
only once the envelope it came in has expired. -/
theorem replay_refused {capacity : Nat} {ds : List Delivery}
    (htimes : ds.Pairwise fun d d' => d.now ≤ d'.now)
    (hcap : ((accepted hmac dump secret worker (NonceCache.new capacity) ds).map
      Delivery.nonce).toFinset.card < (NonceCache.new capacity).capacity) :
    (accepted hmac dump secret worker (NonceCache.new capacity) ds).Pairwise fun d d' =>
      ∃ env env', envelopeOf d.msg = some env ∧ envelopeOf d'.msg = some env' ∧
        (env.nonce = env'.nonce → env.expires_at ≤ d'.now) := by
  have hstart : Remembers (NonceCache.new capacity) [] Int64.minValue :=
    ⟨fun env henv => absurd henv List.not_mem_nil, fun n hn => absurd hn (AList.notMem_empty n)⟩
  exact (accepted_past hstart (fun d _ => Int64.minValue_le _) htimes hcap).2

end Runs

/-! ## A nonce used again -/

/-- A release command of the platform, signed for `rig1`. -/
def sampleCommand (hmac : Bytes → Bytes → Bytes) (dump : JsonValue → Bytes)
    (command_id : Bytes) (issued_at expires_at : Int64) : JsonValue :=
  signCommand hmac dump [(lit "command", .string (lit "release"))] (lit "s3cret") (lit "rig1")
    command_id (lit "00112233aabbccdd") issued_at expires_at

/-- HMAC-SHA256 under the sample secret of the signing strings of the two sample
commands. -/
def sampleHmac (_ data : Bytes) : Bytes :=
  if data = signingString (lit "rig1") (lit "c1") 1000 1060 (lit "00112233aabbccdd")
      (lit "\x7b\"command\":\"release\"\x7d") then
    [0xd5, 0xcd, 0xaf, 0xab, 0xb4, 0xf8, 0xa6, 0x94, 0x66, 0xf6, 0x3d, 0xa1, 0x4d, 0x5c, 0x75, 0x19,
      0x49, 0x77, 0x23, 0x35, 0xcd, 0x26, 0x72, 0x25, 0x7c, 0x8e, 0x93, 0x49, 0x8f, 0x6e, 0xe3,
        0x56]
  else
    [0xea, 0xfb, 0xbd, 0x13, 0x2d, 0x04, 0xad, 0x87, 0xb6, 0xdf, 0x0d, 0xbf, 0x2c, 0x56, 0x3a, 0x01,
      0xbf, 0x5b, 0x52, 0x54, 0x0c, 0x45, 0x8e, 0xb4, 0x07, 0x06, 0x5f, 0x05, 0xda, 0x9b, 0xe5,
        0x14]

/-- The dump of the sample commands' body. -/
def sampleDump (_ : JsonValue) : Bytes := lit "\x7b\"command\":\"release\"\x7d"

/-- The same command twice, and a new one with its nonce after it has expired. -/
def sampleDeliveries : List Delivery :=
  [⟨1000, sampleCommand sampleHmac sampleDump (lit "c1") 1000 1060⟩,
    ⟨1010, sampleCommand sampleHmac sampleDump (lit "c1") 1000 1060⟩,
    ⟨1061, sampleCommand sampleHmac sampleDump (lit "c2") 1061 1121⟩]

/-- The sample deliveries come in the order of their times. -/
private theorem sampleDeliveries_times :
    sampleDeliveries.Pairwise fun d d' => d.now ≤ d'.now := by
  decide

/-- Which of the sample deliveries are accepted. -/
private theorem sampleDeliveries_accepted :
    (accepted sampleHmac sampleDump (lit "s3cret") (lit "rig1") (NonceCache.new 16)
      sampleDeliveries).map (fun d => (d.now, d.nonce)) =
      [(1000, some (lit "00112233aabbccdd")), (1061, some (lit "00112233aabbccdd"))] := by
  decide

private theorem sampleDeliveries_nonces :
    (accepted sampleHmac sampleDump (lit "s3cret") (lit "rig1") (NonceCache.new 16)
      sampleDeliveries).map Delivery.nonce =
      [some (lit "00112233aabbccdd"), some (lit "00112233aabbccdd")] := by
  have h := congrArg (List.map Prod.snd) sampleDeliveries_accepted
  rwa [List.map_map] at h

/-- Deliveries of which one is repeated within its window, to which the result on all lists is
applied. -/
theorem replay_refused_sample :
    (accepted sampleHmac sampleDump (lit "s3cret") (lit "rig1") (NonceCache.new 16)
      sampleDeliveries).map (fun d => (d.now, d.nonce)) =
      [(1000, some (lit "00112233aabbccdd")), (1061, some (lit "00112233aabbccdd"))] ∧
    (accepted sampleHmac sampleDump (lit "s3cret") (lit "rig1") (NonceCache.new 16)
      sampleDeliveries).Pairwise fun d d' =>
      ∃ env env', envelopeOf d.msg = some env ∧ envelopeOf d'.msg = some env' ∧
        (env.nonce = env'.nonce → env.expires_at ≤ d'.now) := by
  refine ⟨sampleDeliveries_accepted, replay_refused sampleDeliveries_times ?_⟩
  rw [sampleDeliveries_nonces]
  decide

/-- One command, delivered when it was issued and in the second in which it expires: the purge has
dropped its nonce by then, the verifier still takes it, and the same message is accepted twice. -/
theorem same_message_accepted_again :
    let command := sampleCommand sampleHmac sampleDump (lit "c1") 1000 1060
    (accepted sampleHmac sampleDump (lit "s3cret") (lit "rig1") (NonceCache.new 16)
      [⟨1000, command⟩, ⟨1060, command⟩]).map Delivery.now = [1000, 1060] := by
  intro command
  decide

/-- A nonce may come back after it has expired: one nonce is accepted, twice. -/
theorem nonce_accepted_again :
    (sampleDeliveries.Pairwise fun d d' => d.now ≤ d'.now) ∧
    ((accepted sampleHmac sampleDump (lit "s3cret") (lit "rig1") (NonceCache.new 16)
      sampleDeliveries).map Delivery.nonce).toFinset.card < (NonceCache.new 16).capacity ∧
    ¬ ((accepted sampleHmac sampleDump (lit "s3cret") (lit "rig1") (NonceCache.new 16)
      sampleDeliveries).map Delivery.nonce).Nodup := by
  rw [sampleDeliveries_nonces]
  exact ⟨sampleDeliveries_times, by decide, by decide⟩

end TreeMiner

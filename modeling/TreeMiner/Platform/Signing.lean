import TreeMiner.Lib.Lines
import TreeMiner.Platform.Envelope

/-!
# What a signature covers

The signing string joins six fields with newlines, the last one free text. Only
the body may contain a newline, so the string can be cut at its first newlines
and the fields read off (`signingString_fields`). What the verifier hashes is
what the signer hashed: both drop the `auth` member, whatever it is, and
dump the rest. So an honest command passes.

The two directions are kept apart. That no two different commands have the same string
is injectivity of the joined text, on fields without a line break; that an honest
command passes holds for every body, signed before or not.
-/

namespace TreeMiner

open Cxx

/-! ## Reading the signing string -/

/-- A digit is neither a line break nor a minus sign. -/
theorem isDigit_ne {c : UInt8} (h : isDigit c = true) : c ≠ nl ∧ c ≠ ch '-' := by
  have hall : ∀ c : UInt8, isDigit c = true → c ≠ nl ∧ c ≠ ch '-' :=
    forall_byte (by decide +kernel)
  exact hall c h

/-- The text of an integer has no line break. -/
theorem toDecimalInt_no_newline : ∀ i : Int, nl ∉ toDecimalInt i
  | .ofNat n => fun h => (isDigit_ne (toDecimal_digits n _ h)).1 rfl
  | .negSucc n => by
    intro h
    rcases List.mem_cons.mp h with h | h
    · exact absurd h (by decide)
    · exact (isDigit_ne (toDecimal_digits _ _ h)).1 rfl

/-- The text of a natural number does not begin with a minus sign. -/
theorem toDecimal_ne_minus (n : Nat) (s : Bytes) : toDecimal n ≠ ch '-' :: s := by
  intro h
  have hmem : ch '-' ∈ toDecimal n := h ▸ List.mem_cons_self
  exact (isDigit_ne (toDecimal_digits n _ hmem)).2 rfl

/-- No two integers have the same text. -/
theorem toDecimalInt_injective : ∀ {i j : Int}, toDecimalInt i = toDecimalInt j → i = j
  | .ofNat _, .ofNat _, h => congrArg Int.ofNat (toDecimal_injective h)
  | .ofNat _, .negSucc _, h => absurd h (toDecimal_ne_minus _ _)
  | .negSucc _, .ofNat _, h => absurd h.symm (toDecimal_ne_minus _ _)
  | .negSucc _, .negSucc _, h =>
    congrArg Int.negSucc (Nat.succ_injective (toDecimal_injective (List.cons.inj h).2))

/-- A text over an alphabet without the newline. -/
theorem isTextOf_no_newline {p : UInt8 → Bool} {s : Bytes} {lo hi : Nat} (hp : p nl = false)
    (h : isTextOf p s lo hi = true) : nl ∉ s := by
  intro hmem
  unfold isTextOf at h
  rw [Bool.and_eq_true] at h
  have := List.all_eq_true.mp h.2 _ hmem
  rw [hp] at this
  cases this

/-- The names and the nonce pass the checks of `verifyEnvelope`. -/
structure SafeFields (worker_id command_id nonce : Bytes) : Prop where
  worker_id : isSafeIdentifier worker_id 1 kMaxIdLen = true
  command_id : isSafeIdentifier command_id 1 kMaxIdLen = true
  nonce : isHexString nonce kMinNonceHexLen kMaxNonceHexLen = true

namespace SafeFields

variable {w c n : Bytes}

/-- Fields that are safe have no line break, so that the joined text can be taken apart. -/
theorem no_newline (h : SafeFields w c n) : nl ∉ w ∧ nl ∉ c ∧ nl ∉ n :=
  ⟨isTextOf_no_newline (by decide) h.worker_id, isTextOf_no_newline (by decide) h.command_id,
    isTextOf_no_newline (by decide) h.nonce⟩

end SafeFields

/-- The signing string determines its fields. -/
theorem signingString_fields {w c n w' c' n' body body' : Bytes} {i e i' e' : Int64}
    (hs : SafeFields w c n) (hs' : SafeFields w' c' n')
    (h : signingString w c i e n body = signingString w' c' i' e' n' body') :
    w = w' ∧ c = c' ∧ i = i' ∧ e = e' ∧ n = n' ∧ body = body' := by
  obtain ⟨hw, hc, hn⟩ := hs.no_newline
  obtain ⟨hw', hc', hn'⟩ := hs'.no_newline
  have hlit : lit "\n" = [nl] := by decide
  unfold signingString at h
  rw [hlit] at h
  simp only [List.append_assoc, List.cons_append, List.nil_append] at h
  -- one field at a time, from the left
  obtain ⟨hw, h⟩ := cut_at_nl hw hw' (List.append_cancel_left h)
  obtain ⟨hc, h⟩ := cut_at_nl hc hc' h
  obtain ⟨hi, h⟩ := cut_at_nl (toDecimalInt_no_newline _) (toDecimalInt_no_newline _) h
  obtain ⟨he, h⟩ := cut_at_nl (toDecimalInt_no_newline _) (toDecimalInt_no_newline _) h
  obtain ⟨hn, hbody⟩ := cut_at_nl hn hn' h
  exact ⟨hw, hc, Int64.toInt_inj.mp (toDecimalInt_injective hi),
    Int64.toInt_inj.mp (toDecimalInt_injective he), hn, hbody⟩

/-! ## The member `auth` -/

namespace JsonValue

variable {key : Bytes} {v : JsonValue}

/-- A member that was set is found. -/
theorem lookup_setMember : ∀ ms :
    List (Bytes × JsonValue), (setMember key v ms).lookup key = some v
  | [] => by rw [setMember, List.lookup_cons_self]
  | m :: ms => by
    rw [setMember]
    split
    · exact List.lookup_cons_self
    next hne =>
      split
      · rw [List.lookup_cons, beq_eq_false_iff_ne.mpr (Ne.symm hne)]
        exact lookup_setMember ms
      · exact List.lookup_cons_self

/-- Setting a member is lost when it is erased. -/
theorem filter_setMember : ∀ ms : List (Bytes × JsonValue),
    (setMember key v ms).filter (fun m => m.1 ≠ key) = ms.filter fun m => m.1 ≠ key
  | [] => by simp [setMember]
  | m :: ms => by
    rw [setMember]
    split
    next heq => simp [heq]
    next hne =>
      split
      · rw [List.filter_cons, List.filter_cons, filter_setMember ms]
      · simp [List.filter_cons]

end JsonValue

/-- The body that is hashed does not depend on the `auth` member. -/
theorem canonicalBody_setMember (dump : JsonValue → Bytes) (v : JsonValue)
    (ms : List (Bytes × JsonValue)) :
    canonicalBody dump (.object (JsonValue.setMember (lit "auth") v ms)) =
      canonicalBody dump (.object ms) := by
  show dump (.object ((JsonValue.setMember (lit "auth") v ms).filter _)) = dump (.object _)
  rw [JsonValue.filter_setMember]

/-- The `auth` object of an envelope whose times are given as JSON numbers. -/
def authObject (env : Envelope) (issued_at expires_at : JsonValue) : JsonValue :=
  .object [(lit "command_id", .string env.command_id), (lit "expires_at", expires_at),
    (lit "issued_at", issued_at), (lit "nonce", .string env.nonce),
    (lit "sig", .string env.sig), (lit "worker_id", .string env.worker_id)]

/-- The fields of an `auth` object are read back. -/
theorem readAuth_authObject {env : Envelope} {issued_at expires_at : JsonValue}
    (hi : issued_at.toInt64 = some env.issued_at) (he : expires_at.toInt64 = some env.expires_at) :
    readAuth (authObject env issued_at expires_at) = some env := by
  have hkeys : [lit "command_id", lit "expires_at", lit "issued_at", lit "nonce", lit "sig",
      lit "worker_id"].Nodup := by decide
  have hfind : ∀ k v, (k, v) ∈ [(lit "command_id", JsonValue.string env.command_id),
      (lit "expires_at", expires_at), (lit "issued_at", issued_at),
      (lit "nonce", .string env.nonce), (lit "sig", .string env.sig),
      (lit "worker_id", .string env.worker_id)] →
      (authObject env issued_at expires_at).find k = some v :=
    fun k v hmem => lookup_of_mem hkeys hmem
  unfold readAuth getStringField getInt64Field
  rw [hfind _ _ (.head _), hfind _ _ (.tail _ (.head _)), hfind _ _ (.tail _ (.tail _ (.head _))),
    hfind _ _ (.tail _ (.tail _ (.tail _ (.head _)))),
    hfind _ _ (.tail _ (.tail _ (.tail _ (.tail _ (.head _))))),
    hfind _ _ (.tail _ (.tail _ (.tail _ (.tail _ (.tail _ (.head _))))))]
  simp only [JsonValue.toBytes, Option.bind_some, hi, he]
  rfl

/-! ## Honest commands -/

section Verify

variable {hmac : Bytes → Bytes → Bytes} {dump : JsonValue → Bytes}

/-- An envelope that was signed passes the checks before the replay check. -/
theorem checkEnvelope_signed {msg auth : JsonValue} {env : Envelope} {secret : Bytes} {now : Int64}
    (hobj : msg.isObject = true) (hauth : msg.find (lit "auth") = some auth)
    (hao : auth.isObject = true) (hread : readAuth auth = some env) (hb : env.bounded = true)
    (hfuture : env.issued_at ≤ now + kClockSkewSec) (hpos : env.issued_at < env.expires_at)
    (hcap : env.expires_at - env.issued_at ≤ kMaxLifetimeSec) (hlive : now ≤ env.expires_at)
    (hsig : env.sig = hmacSha256Hex hmac secret (signingString env.worker_id env.command_id
      env.issued_at env.expires_at env.nonce (canonicalBody dump msg))) :
    checkEnvelope hmac dump msg secret env.worker_id now = .ok env := by
  have heq : ∀ s : Bytes, constantTimeHexEquals s s = true := by
    intro s
    unfold constantTimeHexEquals
    simp
  unfold checkEnvelope
  rw [hobj, hauth]
  dsimp only
  rw [hao, hread]
  dsimp only
  rw [hb, ← hsig, heq, if_neg (by decide), if_neg (by decide), if_neg (by decide),
    if_neg (fun h => h rfl), if_neg (Int64.not_lt.mpr hfuture), if_neg ?_,
    if_neg (Int64.not_lt.mpr hlive), if_neg (by decide)]
  rw [Bool.or_eq_true, decide_eq_true_eq, decide_eq_true_eq]
  rintro (h | h)
  · exact Int64.not_le.mpr hpos h
  · exact Int64.not_lt.mpr hcap h

/-- A nonce the cache does not know is taken. -/
theorem checkAndInsert_fresh {c : NonceCache} {n : Bytes} (hn : n ∉ c.by_nonce) (e now : Int64) :
    (c.checkAndInsert n e now).1 = true := by
  have hnone : (c.purgeExpired now).by_nonce.lookup n = none :=
    AList.lookup_eq_none.mpr fun h => hn (mem_purgeLoop h)
  unfold NonceCache.checkAndInsert
  dsimp only
  rw [hnone]

/-- The replay check is the last: a new nonce is let through. -/
theorem verifyEnvelope_fresh {msg : JsonValue} {secret worker : Bytes} {now : Int64}
    {nonces : NonceCache} {env : Envelope}
    (hok : checkEnvelope hmac dump msg secret worker now = .ok env)
    (hfresh : env.nonce ∉ nonces.by_nonce) :
    (verifyEnvelope hmac dump msg secret worker now nonces).1 = .Ok := by
  have hins := checkAndInsert_fresh hfresh env.expires_at now
  unfold verifyEnvelope
  rw [hok]
  dsimp only
  revert hins
  rcases nonces.checkAndInsert env.nonce env.expires_at now with ⟨_ | _, nonces'⟩
  · intro hins
    cases hins
  · intro _
    rfl

/-- The digest is 64 hexadecimal digits. -/
theorem isHexString_hmac (hlen : ∀ key data, (hmac key data).length = 32) (key data : Bytes) :
    isHexString (hmacSha256Hex hmac key data) 64 64 = true := by
  have hbyte : ∀ b : UInt8, (hexByte b).length = 2 ∧ (hexByte b).all isHexDigit = true :=
    forall_byte (by decide +kernel)
  have htwo : ∀ bs : Bytes, (bs.flatMap hexByte).length = 2 * bs.length := by
    intro bs
    induction bs with
    | nil => rfl
    | cons b bs ih =>
      rw [List.flatMap_cons, List.length_append, (hbyte b).1, ih, List.length_cons]
      omega
  unfold isHexString isTextOf hmacSha256Hex
  rw [htwo, hlen, List.all_flatMap, Bool.and_eq_true, List.all_eq_true]
  exact ⟨by decide, fun b _ => (hbyte b).2⟩

/-- Equal signing strings of fields that pass the charset checks sign the same
fields; and a command signed with such fields for a time within its window is
accepted by the verifier with the same secret and worker id, as long as its nonce is
not in the cache, whatever `auth` member the message had before. -/
theorem signed_commands_verify (hlen : ∀ key data, (hmac key data).length = 32) :
    (∀ {w c n w' c' n' body body' : Bytes} {i e i' e' : Int64}, SafeFields w c n →
      SafeFields w' c' n' → signingString w c i e n body = signingString w' c' i' e' n' body' →
      w = w' ∧ c = c' ∧ i = i' ∧ e = e' ∧ n = n' ∧ body = body') ∧
    ∀ (ms : List (Bytes × JsonValue)) (secret : Bytes) {w c n : Bytes} {i e now : Int64}
      (nonces : NonceCache), SafeFields w c n → i ≤ now + kClockSkewSec → now ≤ e →
      0 < e.toInt - i.toInt → e.toInt - i.toInt ≤ kMaxLifetimeSec.toInt →
        n ∉ nonces.by_nonce →
      (verifyEnvelope hmac dump (signCommand hmac dump ms secret w c n i e) secret w now
        nonces).1 = .Ok := by
  refine ⟨fun hs hs' h => signingString_fields hs hs' h, ?_⟩
  intro ms secret w c n i e now nonces hs hfuture hlive hpos hcap hfresh
  let env : Envelope :=
    { worker_id := w, command_id := c, nonce := n, issued_at := i, expires_at := e
      sig := hmacSha256Hex hmac secret
        (signingString w c i e n (canonicalBody dump (.object ms))) }
  have hb : env.bounded = true := by
    unfold Envelope.bounded
    rw [hs.worker_id, hs.command_id, hs.nonce, isHexString_hmac hlen]
    rfl
  have hmsg : signCommand hmac dump ms secret w c n i e = .object (JsonValue.setMember (lit "auth")
      (authObject env (.number_integer i) (.number_integer e)) ms) := rfl
  -- the difference does not overflow
  have hsub : (e - i).toInt = e.toInt - i.toInt := by
    rw [Int64.toInt_sub, Int.bmod_eq_of_le (by omega) ?_]
    rw [show kMaxLifetimeSec.toInt = 900 from rfl] at hcap
    omega
  have hok : checkEnvelope hmac dump (signCommand hmac dump ms secret w c n i e) secret w now =
      .ok env := by
    rw [hmsg]
    have hauth : JsonValue.find (.object (JsonValue.setMember (lit "auth")
        (authObject env (.number_integer i) (.number_integer e)) ms)) (lit "auth") =
        some (authObject env (.number_integer i) (.number_integer e)) :=
      JsonValue.lookup_setMember ms
    have hread : readAuth (authObject env (.number_integer i) (.number_integer e)) = some env :=
      readAuth_authObject rfl rfl
    refine checkEnvelope_signed rfl hauth rfl hread hb hfuture ?_ ?_ hlive ?_
    · show i < e
      exact Int64.lt_iff_toInt_lt.mpr (by omega)
    · exact Int64.le_iff_toInt_le.mpr (hsub ▸ hcap)
    · rw [canonicalBody_setMember]
  exact verifyEnvelope_fresh hok hfresh

end Verify

theorem sampleHmac_length (key data : Bytes) : (sampleHmac key data).length = 32 := by
  unfold sampleHmac
  split
  · rfl
  · rfl

/-- A message that already has an `auth` member is signed. -/
theorem signed_commands_verify_sample :
    (∀ body body', signingString (lit "rig1") (lit "c1") 1000 1060 (lit "00112233aabbccdd") body =
      signingString (lit "rig1") (lit "c1") 1000 1060 (lit "00112233aabbccdd") body' →
      body = body') ∧
    (verifyEnvelope sampleHmac sampleDump (signCommand sampleHmac sampleDump
      [(lit "auth", .null), (lit "command", .string (lit "release"))] (lit "s3cret") (lit "rig1")
      (lit "c1") (lit "00112233aabbccdd") 1000 1060) (lit "s3cret") (lit "rig1") 1010
      (NonceCache.new 16)).1 = .Ok := by
  have hs : SafeFields (lit "rig1") (lit "c1") (lit "00112233aabbccdd") :=
    ⟨by decide, by decide, by decide⟩
  obtain ⟨hfields, hverify⟩ := @signed_commands_verify sampleHmac sampleDump sampleHmac_length
  refine ⟨fun body body' h => (hfields hs hs h).2.2.2.2.2, ?_⟩
  exact hverify _ _ (NonceCache.new 16) hs (by decide) (by decide) (by decide) (by decide)
    (AList.notMem_empty _)

end TreeMiner

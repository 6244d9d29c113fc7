import TreeMiner.Gpu.FirstBlocks

/-!
# Hashing in pieces (`blake2b.cpp`, `argon2params.cpp`)

`Blake2b::update` keeps the last block back, also when it is full, since `final` has to mark
it. What it must not do is let the result depend on where its callers cut the message:
`digestLong` hashes a length and then the input, and `initialHash` feeds the same fields in
five pieces where there is neither a secret nor associated data, and in thirteen otherwise.

That the pieces do not matter is `absorb_append`, used once for each piece. Both callers are
then equal to one hash of the whole message, whose layout is that of the RFC: lengths in
four bytes, little-endian, in front of every field.
-/

namespace TreeMiner.Gpu

open Blake2

/-! ## One update for each piece -/

/-- `update(chunk.data(), chunk.size())` for each chunk. -/
def Hasher.updates {w : Nat} (H : Hasher w) (s : Blake2bState w) (chunks : List (List UInt8)) :
    Blake2bState w :=
  chunks.foldl (fun s chunk => H.update s (array chunk) (BitVec.ofNat w chunk.length)) s

section Updates

variable {w : Nat} {H : Hasher w}

/-- One piece, when the message with it has a length below `2 ^ w`. -/
theorem Hasher.Right.piece (hH : H.Right) {s : Blake2bState w} {outLen : Nat} {msg : List UInt8}
    (hs : Absorbed s outLen msg) {chunk : List UInt8} (hlen : (msg ++ chunk).length < 2 ^ w) :
    Absorbed (H.update s (Gpu.array chunk) (BitVec.ofNat w chunk.length)) outLen
      (msg ++ chunk) := by
  rw [List.length_append] at hlen
  have hsize : (BitVec.ofNat w chunk.length).toNat = chunk.length := by
    rw [BitVec.toNat_ofNat]
    exact Nat.mod_eq_of_lt (by omega)
  have hnext := hH.update s outLen msg (Gpu.array chunk) (BitVec.ofNat w chunk.length) hs
    (by rw [hsize]; omega)
  rwa [hsize, bytesAt_array (Nat.le_refl _), List.take_length] at hnext

/-- All pieces: the induction is on the list of them, and what is absorbed is the message so
far. -/
theorem Hasher.Right.updates (hH : H.Right) {s : Blake2bState w} {outLen : Nat}
    {msg : List UInt8} (hs : Absorbed s outLen msg) (chunks : List (List UInt8))
    (hlen : (msg ++ chunks.flatten).length < 2 ^ w) :
    Absorbed (H.updates s chunks) outLen (msg ++ chunks.flatten) := by
  induction chunks generalizing s msg with
  | nil =>
    rw [List.flatten_nil, List.append_nil]
    exact hs
  | cons chunk chunks ih =>
    rw [List.flatten_cons, ← List.append_assoc] at hlen ⊢
    have hchunk : (msg ++ chunk).length < 2 ^ w := by
      rw [List.length_append] at hlen
      omega
    exact ih (hH.piece hs hchunk) hlen

/-- Where a message is cut does not matter. -/
theorem Hasher.Right.streams (hH : H.Right) (s : Blake2bState w) {n : BitVec w}
    (hn : n.toNat ≤ 64) (chunks : List (List UInt8)) (hlen : chunks.flatten.length < 2 ^ w) :
    (H.final (H.updates (H.init s n) chunks) n).2 = hash n.toNat chunks.flatten := by
  have hinit := hH.init s n hn
  have hall := hH.updates hinit chunks (by rwa [List.nil_append])
  rw [List.nil_append] at hall
  exact hH.final _ _ _ hall hn

end Updates

/-! ## The two paths of `initialHash` -/

namespace Argon2Params

/-- What follows the packed-header path in `initialHash`: each field in an update of its own. -/
def generalHash (p : Argon2Params) (pwd : Ptr) (pwdLen : UInt64) : Option (List UInt8) := do
  let blake := Blake2b.init Blake2b.new 64#64
  let blake := Blake2b.update blake (array (store32 p.lanes)) 4#64
  let blake := Blake2b.update blake (array (store32 p.outLen)) 4#64
  let blake := Blake2b.update blake (array (store32 p.m_cost)) 4#64
  let blake := Blake2b.update blake (array (store32 p.t_cost)) 4#64
  let blake := Blake2b.update blake (array (store32 p.version)) 4#64
  let blake := Blake2b.update blake (array (store32 p.type)) 4#64
  let blake := Blake2b.update blake (array (store32 pwdLen.toUInt32)) 4#64
  let blake := Blake2b.update blake pwd pwdLen.toBitVec
  let hexSalt ← hex_to_bytes p.salt
  let blake := Blake2b.update blake (array (store32 (UInt32.ofNat hexSalt.length))) 4#64
  let blake := Blake2b.update blake (array hexSalt) (BitVec.ofNat 64 hexSalt.length)
  let blake := Blake2b.update blake (array (store32 p.secretLen)) 4#64
  let blake := Blake2b.update blake p.secret p.secretLen.toUInt64.toBitVec
  let blake := Blake2b.update blake (array (store32 p.adLen)) 4#64
  let blake := Blake2b.update blake p.ad p.adLen.toUInt64.toBitVec
  return (Blake2b.final blake 64#64).2

/-- The packed-header path. -/
def packedHash (p : Argon2Params) (pwd : Ptr) (pwdLen : UInt64) : Option (List UInt8) := do
  let blake := Blake2b.init Blake2b.new 64#64
  let header := store32 p.lanes ++ store32 p.outLen ++ store32 p.m_cost ++ store32 p.t_cost ++
    store32 p.version ++ store32 p.type ++ store32 pwdLen.toUInt32
  let blake := Blake2b.update blake (array header) 28#64
  let blake := Blake2b.update blake pwd pwdLen.toBitVec
  let hexSalt ← hex_to_bytes p.salt
  let salt_length := store32 (UInt32.ofNat hexSalt.length)
  let blake := Blake2b.update blake (array salt_length) 4#64
  let blake := Blake2b.update blake (array hexSalt) (BitVec.ofNat 64 hexSalt.length)
  let empty_lengths := store32 p.secretLen ++ store32 p.adLen
  let blake := Blake2b.update blake (array empty_lengths) 8#64
  return (Blake2b.final blake 64#64).2

/-- `initialHash` is a choice between the two. -/
theorem initialHash_paths (p : Argon2Params) (pwd : Ptr) (pwdLen : UInt64) :
    p.initialHash pwd pwdLen =
      if p.secretLen = 0 ∧ p.adLen = 0 then p.packedHash pwd pwdLen
      else p.generalHash pwd pwdLen := rfl

theorem length_store32 (v : UInt32) : (store32 v).length = 4 := rfl

/-- The message of either path, where there is neither a secret nor associated data. -/
def prehash (p : Argon2Params) (salt pwd : List UInt8) (pwdLen : UInt64) : List UInt8 :=
  store32 p.lanes ++ store32 p.outLen ++ store32 p.m_cost ++ store32 p.t_cost ++
    store32 p.version ++ store32 p.type ++ store32 pwdLen.toUInt32 ++ pwd ++
    store32 (UInt32.ofNat salt.length) ++ salt ++ store32 p.secretLen ++ store32 p.adLen

section Paths

variable (p : Argon2Params) {salt : List UInt8} (pwd : Ptr) {pwdLen : UInt64}
  {s : Blake2bState 64} {msg : List UInt8}

/-- Feeding a word feeds its four bytes. -/
theorem feed_store32 (hs : Absorbed s 64 msg) (v : UInt32) :
    Absorbed (Blake2b.update s (array (store32 v)) 4#64) 64 (msg ++ store32 v) :=
  host_right.array hs (l := store32 v) (n := 4#64) rfl (by rw [length_store32]; decide)

/-- A pointer to nothing. -/
theorem feed_nothing (hs : Absorbed s 64 msg) (q : Ptr) {len : UInt32} (hlen : len = 0) :
    Absorbed (Blake2b.update s q len.toUInt64.toBitVec) 64 msg := by
  have hzero : (0 : UInt32).toUInt64.toBitVec.toNat = 0 := rfl
  have hnext := host_right.feed hs q (n := (0 : UInt32).toUInt64.toBitVec) (by rw [hzero]; decide)
  rw [hlen]
  rwa [hzero, show bytesAt q 0 = [] from rfl, List.append_nil] at hnext

/-- The password, its length having been fed. -/
theorem feed_password (pwdLen : UInt64) (hs : Absorbed s 64 msg)
    (hlen : msg.length + pwdLen.toNat < 2 ^ 64) :
    Absorbed (Blake2b.update s pwd pwdLen.toBitVec) 64 (msg ++ bytesAt pwd pwdLen.toNat) :=
  host_right.update s 64 msg pwd pwdLen.toBitVec hs
    (show min 128 msg.length + pwdLen.toNat < 2 ^ 64 by omega)

/-- The salt, its length having been fed. -/
theorem feed_salt (salt : List UInt8) (hs : Absorbed s 64 msg)
    (hlen : (msg ++ salt).length < 2 ^ 64) :
    Absorbed (Blake2b.update s (array salt) (BitVec.ofNat 64 salt.length)) 64 (msg ++ salt) :=
  host_right.piece hs hlen

/-- The packed path hashes it in five pieces. -/
theorem packedHash_eq (hsalt : hex_to_bytes p.salt = some salt)
    (hlen : (p.prehash salt (bytesAt pwd pwdLen.toNat) pwdLen).length < 2 ^ 64) :
    p.packedHash pwd pwdLen =
      some (hash 64 (p.prehash salt (bytesAt pwd pwdLen.toNat) pwdLen)) := by
  simp only [prehash, List.length_append, length_store32, length_bytesAt] at hlen
  have h0 := host_right.init Blake2b.new 64#64 (Nat.le_refl 64)
  have h1 := host_right.array h0 (l := store32 p.lanes ++ store32 p.outLen ++ store32 p.m_cost ++
    store32 p.t_cost ++ store32 p.version ++ store32 p.type ++ store32 pwdLen.toUInt32)
    (n := 28#64) rfl (by simp [length_store32])
  have h2 := feed_password pwd pwdLen h1
    (by simp only [List.length_append, length_store32, List.length_nil]; omega)
  have h3 := feed_store32 h2 (UInt32.ofNat salt.length)
  have h4 := feed_salt salt h3 (by
    simp only [List.length_append, length_store32, List.length_nil, length_bytesAt]
    omega)
  have h5 := host_right.array h4 (l := store32 p.secretLen ++ store32 p.adLen) (n := 8#64) rfl
    (by simp [length_store32])
  have hfinal := host_right.final _ 64#64 _ h5 (Nat.le_refl 64)
  unfold packedHash
  rw [hsalt]
  refine (congrArg some hfinal).trans (congrArg (fun m => some (hash 64 m)) ?_)
  simp only [prehash, List.append_assoc, List.nil_append]

/-- The general path hashes it in thirteen, two of them empty. -/
theorem generalHash_eq (hsecret : p.secretLen = 0) (had : p.adLen = 0)
    (hsalt : hex_to_bytes p.salt = some salt)
    (hlen : (p.prehash salt (bytesAt pwd pwdLen.toNat) pwdLen).length < 2 ^ 64) :
    p.generalHash pwd pwdLen =
      some (hash 64 (p.prehash salt (bytesAt pwd pwdLen.toNat) pwdLen)) := by
  simp only [prehash, List.length_append, length_store32, length_bytesAt] at hlen
  have h0 := host_right.init Blake2b.new 64#64 (Nat.le_refl 64)
  have h1 := feed_store32 (feed_store32 (feed_store32 h0 p.lanes) p.outLen) p.m_cost
  have h2 := feed_store32 (feed_store32 (feed_store32 h1 p.t_cost) p.version) p.type
  have h3 := feed_password pwd pwdLen (feed_store32 h2 pwdLen.toUInt32)
    (by simp only [List.length_append, length_store32, List.length_nil]; omega)
  have h4 := feed_salt salt (feed_store32 h3 (UInt32.ofNat salt.length)) (by
    simp only [List.length_append, length_store32, List.length_nil, length_bytesAt]
    omega)
  have h5 := feed_nothing (feed_store32 h4 p.secretLen) p.secret hsecret
  have h6 := feed_nothing (feed_store32 h5 p.adLen) p.ad had
  have hfinal := host_right.final _ 64#64 _ h6 (Nat.le_refl 64)
  unfold generalHash
  rw [hsalt]
  refine (congrArg some hfinal).trans (congrArg (fun m => some (hash 64 m)) ?_)
  simp only [prehash, List.append_assoc, List.nil_append]

/-- Both paths agree; a salt that does not decode throws on either. -/
theorem paths_agree (hsecret : p.secretLen = 0) (had : p.adLen = 0)
    (hlen : ∀ salt, hex_to_bytes p.salt = some salt →
      (p.prehash salt (bytesAt pwd pwdLen.toNat) pwdLen).length < 2 ^ 64) :
    p.packedHash pwd pwdLen = p.generalHash pwd pwdLen := by
  cases hsalt : hex_to_bytes p.salt with
  | none =>
    simp only [packedHash, generalHash, hsalt, Option.bind_eq_bind, Option.bind_none]
  | some salt =>
    rw [p.packedHash_eq pwd hsalt (hlen salt hsalt),
      p.generalHash_eq pwd hsecret had hsalt (hlen salt hsalt)]

end Paths

end Argon2Params

/-! ## The hash of the repository is BLAKE2b -/

/-- `init`, an `update` for each chunk and `final` are BLAKE2b of the whole message; so
`digestLong` is `H'`, and the two paths of `initialHash` give one result. -/
theorem streaming_blake2b :
    (∀ (b : Blake2bState 64) (n : UInt64) (chunks : List (List UInt8)), 1 ≤ n.toNat →
      n.toNat ≤ 64 → chunks.flatten.length < 2 ^ 64 →
      (Blake2b.final (host.updates (Blake2b.init b n.toBitVec) chunks) n.toBitVec).2 =
        hash n.toNat chunks.flatten) ∧
    (∀ (outLen : UInt64) (input : Ptr) (inLen : UInt64), 1 ≤ outLen.toNat →
      outLen.toNat < 2 ^ 32 →
        (Argon2.le32 outLen.toNat ++ bytesAt input inLen.toNat).length < 2 ^ 64 →
      digestLong outLen input inLen =
        Argon2.longHash outLen.toNat (bytesAt input inLen.toNat)) ∧
    ∀ (p : Argon2Params) (pwd : Ptr) (pwdLen : UInt64), p.secretLen = 0 → p.adLen = 0 →
      (∀ salt, hex_to_bytes p.salt = some salt →
        (p.prehash salt (bytesAt pwd pwdLen.toNat) pwdLen).length < 2 ^ 64) →
      p.initialHash pwd pwdLen = p.packedHash pwd pwdLen ∧
        p.packedHash pwd pwdLen = p.generalHash pwd pwdLen := by
  refine ⟨fun b n chunks _ hn hlen => ?_, fun outLen input inLen _ hout hlen => ?_,
    fun p pwd pwdLen hsecret had hlen => ⟨?_, p.paths_agree pwd hsecret had hlen⟩⟩
  · exact host_right.streams b hn chunks hlen
  · rw [List.length_append, Argon2.length_le32, length_bytesAt] at hlen
    exact digest_eq host_right (by decide) store32_eq Blake2b.new hout input hlen
  · rw [p.initialHash_paths, if_pos ⟨hsecret, had⟩]

/-- Pieces with an empty one among them, an `H'` that is longer than one hash, and a header
with a decoded salt. -/
theorem streaming_blake2b_pieces :
    (Blake2b.final (host.updates (Blake2b.init Blake2b.new 32#64) [[97], [], [98, 99]]) 32#64).2 =
        hash 32 [97, 98, 99] ∧
    digestLong 1024 (array [1, 2, 3]) 3 = Argon2.longHash 1024 [1, 2, 3] ∧
    ∃ p : Argon2Params, p.salt = Cxx.lit "01ab" ∧
      p.initialHash (array [97]) 1 = p.generalHash (array [97]) 1 := by
  obtain ⟨hpieces, hlong, hpaths⟩ := streaming_blake2b
  refine ⟨hpieces Blake2b.new 32 [[97], [], [98, 99]] (by decide) (by decide) (by decide),
    hlong 1024 (array [1, 2, 3]) 3 (by decide) (by decide) (by decide),
    Argon2Params.new 2 0x13 64 (Cxx.lit "01ab") (fun _ => 0) 0 (fun _ => 0) 0 1 8 1, rfl, ?_⟩
  obtain ⟨hpacked, hgeneral⟩ := hpaths
    (Argon2Params.new 2 0x13 64 (Cxx.lit "01ab") (fun _ => 0) 0 (fun _ => 0) 0 1 8 1) (array [97]) 1
    rfl rfl (by
      intro salt hsalt
      have hbytes : hex_to_bytes (Cxx.lit "01ab") = some [1, 0xab] := by decide
      cases hbytes.symm.trans hsalt
      decide)
  exact hpacked.trans hgeneral

end TreeMiner.Gpu

import Mathlib.Data.Fintype.Prod
import TreeMiner.Gpu.Blake2b
import TreeMiner.Gpu.Oneshot
import TreeMiner.Lib.Argon2Hash
import TreeMiner.Lib.Bytes
import TreeMiner.Lib.Faults
import TreeMiner.Lib.Footprint

/-!
# The first blocks of a job (`argon2params.cpp`, `kernelrunner.cu`)

`Argon2Params::fillFirstBlocks` fills them on the host; `argon2_first_blocks_kernel` does it on
the device, from keys and a salt that `prepareInputBlocksOnDevice` has copied there. The two
have their own `H'`, their own `H₀` and their own way to read the hexadecimal salt. Each is
shown to compute the first blocks of Argon2 (`Argon2.firstBlock`), whatever stood in memory and
in the local variables.

On the device each thread writes the blocks of its own job, so the kernel is a parallel program
with footprints that are apart. On the host it is a loop. Both end in the same memory, up to
what lies between the jobs.
-/

namespace TreeMiner.Gpu

open Argon2 Blake2 Cxx Faults Interleave

/-! ## The variable-length hash -/

/-- Subtracting a constant from a larger number does not wrap, in either width. -/
theorem sub_const {w k : Nat} {n : BitVec w} (h : k < n.toNat) :
    (n - BitVec.ofNat w k).toNat = n.toNat - k := by
  have hn : n.toNat < 2 ^ w := n.isLt
  have hk : (BitVec.ofNat w k).toNat = k := by
    rw [BitVec.toNat_ofNat]
    exact Nat.mod_eq_of_lt (by omega)
  rw [BitVec.toNat_sub_of_le (BitVec.le_def.mpr (by omega)), hk]

section Long

variable {w : Nat} (H : Hasher w) (store32 : UInt32 → List UInt8)

/-- `while (toProduce > OUT_BYTES)`, and the last hash. -/
def digestLoop (blake : Blake2bState w) (out_buffer : List UInt8) (toProduce : BitVec w) :
    List UInt8 :=
  if 64 < toProduce.toNat then
    let blake := H.init blake 64#w
    let blake := H.update blake (array out_buffer) 64#w
    let (blake, out_buffer) := H.final blake 64#w
    out_buffer.take 32 ++ digestLoop blake out_buffer (toProduce - 32#w)
  else
    let blake := H.init blake toProduce
    let blake := H.update blake (array out_buffer) 64#w
    (H.final blake toProduce).2
termination_by toProduce.toNat
decreasing_by
  rw [sub_const (by omega)]
  omega

/-- `digestLong` and `device_digest_long`; `blake` is the local variable before it is set. -/
def digest (blake : Blake2bState w) (outLen : BitVec w) (bin : Ptr) (inLen : BitVec w) :
    List UInt8 :=
  let outlen_bytes := store32 (UInt32.ofNat outLen.toNat)
  if outLen.toNat ≤ 64 then
    let blake := H.init blake outLen
    let blake := H.update blake (array outlen_bytes) 4#w
    let blake := H.update blake bin inLen
    (H.final blake outLen).2
  else
    let blake := H.init blake 64#w
    let blake := H.update blake (array outlen_bytes) 4#w
    let blake := H.update blake bin inLen
    let (blake, out_buffer) := H.final blake 64#w
    out_buffer.take 32 ++ digestLoop H blake out_buffer (outLen - 32#w)

end Long

/-- `store32`: the value is shifted from byte to byte. -/
def store32 (v : UInt32) : List UInt8 :=
  let v₁ := v >>> 8
  let v₂ := v₁ >>> 8
  let v₃ := v₂ >>> 8
  [v.toUInt8, v₁.toUInt8, v₂.toUInt8, v₃.toUInt8]

def deviceDigestLong (blake : Blake2bState 32) (out_len : UInt32) (input : Ptr)
    (input_len : UInt32) : List UInt8 :=
  digest device deviceStore32 blake out_len.toBitVec input input_len.toBitVec

/-- `Argon2Params::digestLong`. -/
def digestLong (outLen : UInt64) (bin : Ptr) (inLen : UInt64) : List UInt8 :=
  digest host store32 Blake2b.new outLen.toBitVec bin inLen.toBitVec

theorem store32_eq (v : UInt32) : store32 v = le32 v.toNat := by
  have hbyte : ∀ u : UInt32, ∀ k, u.toNat = v.toNat / 256 ^ k →
      u.toUInt8 = UInt8.ofNat (v.toNat / 256 ^ k) := by
    intro u k hu
    apply UInt8.toNat_inj.mp
    rw [UInt32.toNat_toUInt8, hu]
    exact UInt8.toNat_ofNat'.symm
  have hshift : ∀ u : UInt32, (u >>> 8).toNat = u.toNat / 256 := by
    intro u
    rw [UInt32.toNat_shiftRight, Nat.shiftRight_eq_div_pow]
    rfl
  have h1 : (v >>> 8).toNat = v.toNat / 256 ^ 1 := by rw [hshift, Nat.pow_one]
  have h2 : (v >>> 8 >>> 8).toNat = v.toNat / 256 ^ 2 := by
    rw [hshift, h1, Nat.div_div_eq_div_mul, ← Nat.pow_succ]
  have h3 : (v >>> 8 >>> 8 >>> 8).toNat = v.toNat / 256 ^ 3 := by
    rw [hshift, h2, Nat.div_div_eq_div_mul, ← Nat.pow_succ]
  have h0 : v.toNat = v.toNat / 256 ^ 0 := by rw [Nat.pow_zero, Nat.div_one]
  show [_, _, _, _] = [_, _, _, _]
  rw [hbyte _ 0 h0, hbyte _ 1 h1, hbyte _ 2 h2, hbyte _ 3 h3]

theorem device_store32_eq (v : UInt32) : deviceStore32 v = le32 v.toNat := by
  rw [← store32_eq]
  have h2 : v >>> 8 >>> 8 = v >>> 16 := by
    apply UInt32.toNat_inj.mp
    rw [UInt32.toNat_shiftRight, UInt32.toNat_shiftRight, UInt32.toNat_shiftRight,
      ← Nat.shiftRight_add]
    rfl
  have h3 : v >>> 16 >>> 8 = v >>> 24 := by
    apply UInt32.toNat_inj.mp
    rw [UInt32.toNat_shiftRight, UInt32.toNat_shiftRight, UInt32.toNat_shiftRight,
      ← Nat.shiftRight_add]
    rfl
  unfold store32 deviceStore32
  dsimp only
  rw [h2, h3]

section Right

variable {w : Nat} {H : Hasher w} {s : Blake2bState w} {outLen : Nat} {msg : List UInt8}

theorem toNat_const (hw : 32 ≤ w) {k : Nat} (hk : k < 2 ^ 32) : (BitVec.ofNat w k).toNat = k := by
  rw [BitVec.toNat_ofNat]
  exact Nat.mod_eq_of_lt (Nat.lt_of_lt_of_le hk (Nat.pow_le_pow_right (by decide) hw))

/-- Feeding what fits in a length whatever the buffer holds. -/
theorem Hasher.Right.feed (hH : H.Right) (hs : Absorbed s outLen msg) (p : Ptr) {n : BitVec w}
    (hlt : 128 + n.toNat < 2 ^ w) :
    Absorbed (H.update s p n) outLen (msg ++ bytesAt p n.toNat) :=
  hH.update s outLen msg p n hs (by omega)

/-- Feeding a local array. -/
theorem Hasher.Right.array (hH : H.Right) (hs : Absorbed s outLen msg) {l : List UInt8}
    {n : BitVec w} (hn : n.toNat = l.length) (hlt : 128 + l.length < 2 ^ w) :
    Absorbed (H.update s (Gpu.array l) n) outLen (msg ++ l) := by
  have hnext := hH.feed hs (Gpu.array l) (by rw [hn]; exact hlt)
  rwa [hn, bytesAt_array (Nat.le_refl _), List.take_length] at hnext

/-- The loop of `digestLong` produces the chain of hashes of which the standard takes half each. -/
theorem digestLoop_eq (hH : H.Right) (hw : 32 ≤ w) (blake : Blake2bState w)
    {out_buffer : List UInt8} (hbuf : out_buffer.length = 64) (toProduce : BitVec w) :
    digestLoop H blake out_buffer toProduce = longTail toProduce.toNat out_buffer := by
  have h64 : (64#w).toNat = 64 := toNat_const hw (by decide)
  have hpow : 2 ^ 32 ≤ 2 ^ w := Nat.pow_le_pow_right (by decide) hw
  have hfed : ∀ (blake : Blake2bState w) (outLen : BitVec w) {buf : List UInt8}, buf.length =
    64 →
      outLen.toNat ≤ 64 →
      (H.final (H.update (H.init blake outLen) (Gpu.array buf) 64#w) outLen).2 =
        hash outLen.toNat buf := by
    intro blake outLen buf hbuf hle
    refine hH.final _ _ _ ?_ hle
    have hnext := hH.array (hH.init blake outLen hle) (l := buf) (h64.trans hbuf.symm) (by omega)
    rwa [List.nil_append] at hnext
  -- on the bytes still to produce: each turn writes 32 of the 64 and hashes the buffer again
  induction blake, out_buffer, toProduce using digestLoop.induct H with
  | case1 blake buf toProduce h b₁ b₂ b₃ buf' hfin ih =>
    have hbuf' : buf' = hash 64 buf := by
      have heq := hfed blake 64#w hbuf (Nat.le_of_eq h64)
      rw [h64] at heq
      rw [← heq]
      exact (congrArg Prod.snd hfin).symm
    have hlen : buf'.length = 64 := by
      rw [hbuf']
      exact length_hash (Nat.le_refl 64) _
    have hloop : digestLoop H blake buf toProduce =
        buf'.take 32 ++ digestLoop H b₃ buf' (toProduce - 32#w) := by
      rw [digestLoop, if_pos h]
      show (H.final b₂ 64#w).2.take 32 ++
        digestLoop H (H.final b₂ 64#w).1 (H.final b₂ 64#w).2 (toProduce - 32#w) = _
      rw [hfin]
    rw [hloop, ih hlen, sub_const (by omega), longTail_of_gt h, hbuf']
  | case2 blake buf toProduce h =>
    rw [digestLoop, if_neg h, longTail_of_le (Nat.not_lt.mp h)]
    exact hfed blake toProduce hbuf (Nat.not_lt.mp h)

/-- Both implementations compute `H'`. -/
theorem digest_eq (hH : H.Right) (hw : 32 ≤ w) {store : UInt32 → List UInt8}
    (hstore : ∀ v, store v = le32 v.toNat) (blake : Blake2bState w) {outLen : BitVec w}
    (hout : outLen.toNat < 2 ^ 32) (bin : Ptr) {inLen : BitVec w} (hin : 4 + inLen.toNat < 2 ^ w) :
    digest H store blake outLen bin inLen = longHash outLen.toNat (bytesAt bin inLen.toNat) := by
  have h64 : (64#w).toNat = 64 := toNat_const hw (by decide)
  have h4 : (4#w).toNat = 4 := toNat_const hw (by decide)
  have hpow : 2 ^ 32 ≤ 2 ^ w := Nat.pow_le_pow_right (by decide) hw
  have hlen : (UInt32.ofNat outLen.toNat).toNat = outLen.toNat := UInt32.toNat_ofNat_of_lt' hout
  have hbytes : store (UInt32.ofNat outLen.toNat) = le32 outLen.toNat := by rw [hstore, hlen]
  have hfed : ∀ n : BitVec w, n.toNat ≤ 64 →
      (H.final
        (H.update (H.update (H.init blake n) (Gpu.array (le32 outLen.toNat)) 4#w) bin inLen) n).2 =
        hash n.toNat (le32 outLen.toNat ++ bytesAt bin inLen.toNat) := by
    intro n hle
    have hnext := hH.array (hH.init blake n hle) (l := le32 outLen.toNat)
      (h4.trans (length_le32 _).symm) (by rw [length_le32]; omega)
    rw [List.nil_append] at hnext
    refine hH.final _ _ _ (hH.update _ _ _ _ _ hnext ?_) hle
    rw [length_le32]
    omega
  unfold digest longHash
  rw [hbytes]
  -- a short digest is one hash; a long one starts the chain of `digestLoop`
  by_cases hsmall : outLen.toNat ≤ 64
  · rw [if_pos hsmall, if_pos hsmall]
    exact hfed outLen hsmall
  · rw [if_neg hsmall, if_neg hsmall]
    dsimp only
    have hfirst := hfed 64#w (Nat.le_of_eq h64)
    rw [h64] at hfirst
    rw [hfirst, digestLoop_eq hH hw _ (length_hash (Nat.le_refl 64) _), sub_const (by omega)]

end Right

/-! ## The salt -/

/-- `std::stoi(s, nullptr, 16)`; `none` where it throws. -/
def stoi16 (s : Bytes) : Option Int :=
  let s := s.dropWhile isSpace
  let neg := s.head? = some (ch '-')
  let s := if neg ∨ s.head? = some (ch '+') then s.tail else s
  let s := match s with
    | z :: x :: h :: rest =>
      if z = ch '0' ∧ (x = ch 'x' ∨ x = ch 'X') ∧ (hexVal h).isSome then h :: rest else s
    | _ => s
  let digits := s.takeWhile fun c => (hexVal c).isSome
  if digits.isEmpty then none
  else
    let value : Int := digits.foldl (fun n c => 16 * n + (hexVal c).getD 0) 0
    let value := if neg then -value else value
    if value < -2 ^ 31 ∨ 2 ^ 31 ≤ value then none else some value

/-- `hex_to_bytes`: each `substr(i, 2)`. -/
def hex_to_bytes : Bytes → Option Bytes
  | [] => some []
  | [c] => do
    let byte ← stoi16 [c]
    return [UInt8.ofInt byte]
  | c :: d :: hex => do
    let byte ← stoi16 [c, d]
    let bytes ← hex_to_bytes hex
    return UInt8.ofInt byte :: bytes

/-- `decodeHexNibble`; `none` where it throws. -/
def decodeHexNibble (value : UInt8) : Option UInt8 :=
  if value ≥ ch '0' ∧ value ≤ ch '9' then some (value - ch '0')
  else if value ≥ ch 'a' ∧ value ≤ ch 'f' then some (value - ch 'a' + 10)
  else if value ≥ ch 'A' ∧ value ≤ ch 'F' then some (value - ch 'A' + 10)
  else none

/-- `decodeHexBytes`; after the last character of a string stands a zero. -/
def decodeHexBytes : Bytes → Option Bytes
  | [] => some []
  | [c] => do
    let high ← decodeHexNibble c
    let low ← decodeHexNibble 0
    return [(high <<< 4) ||| low]
  | c :: d :: hex => do
    let high ← decodeHexNibble c
    let low ← decodeHexNibble d
    let bytes ← decodeHexBytes hex
    return ((high <<< 4) ||| low) :: bytes

/-- The bytes of a string of hexadecimal digits, two to a byte. -/
def hexBytes : Bytes → Bytes
  | c :: d :: hex => UInt8.ofNat (16 * (hexVal c).getD 0 + (hexVal d).getD 0) :: hexBytes hex
  | _ => []

/-- The hexadecimal digits. -/
def hexDigits : Bytes := (List.range 256).map UInt8.ofNat |>.filter fun c => (hexVal c).isSome

/-- A byte that the decoder reads is one of the hex digits. -/
theorem mem_hexDigits {c : UInt8} (h : (hexVal c).isSome = true) : c ∈ hexDigits := by
  unfold hexDigits
  refine List.mem_filter.mpr ⟨List.mem_map.mpr ⟨c.toNat, ?_, UInt8.ofNat_toNat⟩, h⟩
  exact List.mem_range.mpr c.toNat_lt

/-- Two digits, read by either function. -/
theorem two_digits : ∀ c ∈ hexDigits, ∀ d ∈ hexDigits,
    (stoi16 [c, d]).map UInt8.ofInt =
        some (UInt8.ofNat (16 * (hexVal c).getD 0 + (hexVal d).getD 0)) ∧
      (do return ((← decodeHexNibble c) <<< 4) ||| (← decodeHexNibble d)) =
        some (UInt8.ofNat (16 * (hexVal c).getD 0 + (hexVal d).getD 0)) := by
  decide

/-- Both functions decode a string of pairs of digits. -/
theorem decode_eq :
    ∀ {salt : Bytes}, salt.length % 2 = 0 → (∀ c ∈ salt, (hexVal c).isSome = true) →
    hex_to_bytes salt = some (hexBytes salt) ∧ decodeHexBytes salt = some (hexBytes salt) ∧
      2 * (hexBytes salt).length = salt.length
  | [], _, _ => ⟨rfl, rfl, rfl⟩
  | [_], heven, _ => nomatch heven
  | c :: d :: hex, heven, hhex => by
    have hrest : hex.length % 2 = 0 := by
      rw [List.length_cons, List.length_cons] at heven
      omega
    obtain ⟨hhost, hdevice, hlen⟩ := decode_eq hrest fun b hb =>
      hhex b (List.mem_cons_of_mem _ (List.mem_cons_of_mem _ hb))
    -- the host reads a pair with `stoi`, the device digit by digit
    obtain ⟨hstoi, hnibbles⟩ := two_digits c (mem_hexDigits (hhex c (by simp))) d
      (mem_hexDigits (hhex d (by simp)))
    refine ⟨?_, ?_, ?_⟩
    · obtain ⟨byte, hbyte, hval⟩ := Option.map_eq_some_iff.mp hstoi
      rw [hex_to_bytes, hbyte, hhost, hexBytes, ← hval]
      rfl
    · unfold decodeHexBytes hexBytes
      rw [hdevice]
      cases hc : decodeHexNibble c with
      | none =>
        rw [hc] at hnibbles
        cases hnibbles
      | some high =>
        cases hd : decodeHexNibble d with
        | none =>
          rw [hc, hd] at hnibbles
          cases hnibbles
        | some low =>
          rw [hc, hd] at hnibbles
          have hbyte : (high <<< 4) ||| low = _ := Option.some.inj hnibbles
          rw [← hbyte]
          rfl
    · rw [hexBytes, List.length_cons, List.length_cons, List.length_cons]
      omega

/-! ## The initial hash -/

/-- `device_initial_hash`; `blake` is the local variable before it is set. -/
def deviceInitialHash (blake : Blake2bState 32) (password : Ptr) (password_len : UInt32)
    (salt : Ptr) (salt_len output_len memory_cost time_cost version type lanes : UInt32) :
    List UInt8 :=
  let blake := deviceBlake2bInit blake 64#32
  let header := deviceStore32 lanes ++ deviceStore32 output_len ++ deviceStore32 memory_cost ++
    deviceStore32 time_cost ++ deviceStore32 version ++ deviceStore32 type ++
    deviceStore32 password_len
  let blake := deviceBlake2bUpdate blake (array header) 28#32
  let blake := deviceBlake2bUpdate blake password password_len.toBitVec
  let value := deviceStore32 salt_len
  let blake := deviceBlake2bUpdate blake (array value) 4#32
  let blake := deviceBlake2bUpdate blake salt salt_len.toBitVec
  let value := deviceStore32 0
  let blake := deviceBlake2bUpdate blake (array value) 4#32
  let blake := deviceBlake2bUpdate blake (array value) 4#32
  (deviceBlake2bFinal blake 64#32).2

/-- `Argon2Params`. -/
structure Argon2Params where
  type : UInt32
  version : UInt32
  salt : Bytes
  secret : Ptr
  ad : Ptr
  outLen : UInt32
  secretLen : UInt32
  adLen : UInt32
  t_cost : UInt32
  m_cost : UInt32
  lanes : UInt32
  segmentBlocks : UInt32

namespace Argon2Params

/-- The constructor. -/
def new (type version : UInt32) (outLen : UInt64) (salt : Bytes) (secret : Ptr) (secretLen : UInt64)
    (ad : Ptr) (adLen t_cost m_cost lanes : UInt64) : Argon2Params :=
  let segments := lanes * 4
  { type, version, salt, secret, ad
    outLen := outLen.toUInt32
    secretLen := secretLen.toUInt32
    adLen := adLen.toUInt32
    t_cost := t_cost.toUInt32
    m_cost := m_cost.toUInt32
    lanes := lanes.toUInt32
    segmentBlocks := (max m_cost (2 * segments) / segments).toUInt32 }

/-- `initialHash`; `none` where it throws. -/
def initialHash (p : Argon2Params) (pwd : Ptr) (pwdLen : UInt64) : Option (List UInt8) := do
  let blake := Blake2b.init Blake2b.new 64#64
  if p.secretLen = 0 ∧ p.adLen = 0 then
    let header := store32 p.lanes ++ store32 p.outLen ++ store32 p.m_cost ++ store32 p.t_cost ++
      store32 p.version ++ store32 p.type ++ store32 pwdLen.toUInt32
    let blake := Blake2b.update blake (array header) 28#64
    let blake := Blake2b.update blake pwd pwdLen.toBitVec
    let hexSalt ← hex_to_bytes p.salt
    let salt_length := store32 (UInt32.ofNat hexSalt.length)
    let blake := Blake2b.update blake (array salt_length) 4#64
    let blake := Blake2b.update blake (array hexSalt) (BitVec.ofNat 64 hexSalt.length)
    let empty_lengths := store32 p.secretLen ++ store32 p.adLen
    let blake := Blake2b.update blake (array empty_lengths) 8#64
    return (Blake2b.final blake 64#64).2
  else
    let blake := Blake2b.update blake (array (store32 p.lanes)) 4#64
    let blake := Blake2b.update blake (array (store32 p.outLen)) 4#64
    let blake := Blake2b.update blake (array (store32 p.m_cost)) 4#64
    let blake := Blake2b.update blake (array (store32 p.t_cost)) 4#64
    let blake := Blake2b.update blake (array (store32 p.version)) 4#64
    let blake := Blake2b.update blake (array (store32 p.type)) 4#64
    let blake := Blake2b.update blake (array (store32 pwdLen.toUInt32)) 4#64
    let blake := Blake2b.update blake pwd pwdLen.toBitVec
    let hexSalt ← hex_to_bytes p.salt
    let blake := Blake2b.update blake (array (store32 (UInt32.ofNat hexSalt.length))) 4#64
    let blake := Blake2b.update blake (array hexSalt) (BitVec.ofNat 64 hexSalt.length)
    let blake := Blake2b.update blake (array (store32 p.secretLen)) 4#64
    let blake := Blake2b.update blake p.secret p.secretLen.toUInt64.toBitVec
    let blake := Blake2b.update blake (array (store32 p.adLen)) 4#64
    let blake := Blake2b.update blake p.ad p.adLen.toUInt64.toBitVec
    return (Blake2b.final blake 64#64).2

/-- A loop of `fillFirstBlocks` over the lanes. -/
def fillLanes (initHash : List UInt8) (i lanes : UInt32) : List UInt8 :=
  (List.range lanes.toNat).flatMap fun l =>
    digestLong 1024 (array (initHash ++ store32 i ++ store32 (UInt32.ofNat l))) 72

/-- `fillFirstBlocks`: the bytes from `memory` on. -/
def fillFirstBlocks (p : Argon2Params) (pwd : Ptr) (pwdLen : UInt64) : Option (List UInt8) := do
  let initHash ← p.initialHash pwd pwdLen
  return fillLanes initHash 0 p.lanes ++ fillLanes initHash 1 p.lanes

/-- The parameters of the hash, once the salt is decoded. -/
def decoded (p : Argon2Params) (salt : Bytes) : Argon2.Params where
  lanes := p.lanes.toNat
  tagLength := p.outLen.toNat
  memory := p.m_cost.toNat
  passes := p.t_cost.toNat
  version := p.version.toNat
  type := p.type.toNat
  salt := salt
  secret := bytesAt p.secret p.secretLen.toNat
  data := bytesAt p.ad p.adLen.toNat

end Argon2Params

/-- The device computes `H₀` of a password and a salt, without a secret and without data. -/
theorem device_initial_hash_eq (blake : Blake2bState 32) (password : Ptr) {password_len : UInt32}
    (hpwd : 128 + password_len.toNat < 2 ^ 32) (salt : Ptr) {salt_len : UInt32}
    (hsalt : 128 + salt_len.toNat < 2 ^ 32)
    (output_len memory_cost time_cost version type lanes : UInt32) :
    deviceInitialHash blake password password_len salt salt_len output_len memory_cost time_cost
        version type lanes =
      Argon2.initialHash
        { lanes := lanes.toNat, tagLength := output_len.toNat, memory := memory_cost.toNat,
          passes := time_cost.toNat, version := version.toNat, type := type.toNat,
          salt := bytesAt salt salt_len.toNat, secret := [], data := [] }
        (bytesAt password password_len.toNat) := by
  have hH := device_right
  -- the inputs are fed in the order of the RFC: parameters, password, salt, and two empty lengths
  have h0 := hH.init blake 64#32 (Nat.le_refl 64)
  have h1 :=
    hH.array h0 (l := le32 lanes.toNat ++ le32 output_len.toNat ++ le32 memory_cost.toNat ++
    le32 time_cost.toNat ++ le32 version.toNat ++ le32 type.toNat ++ le32 password_len.toNat)
    (n := 28#32) (by simp [length_le32]) (by simp [length_le32])
  have h2 := hH.feed h1 password (n := password_len.toBitVec) hpwd
  have h3 := hH.array h2 (l := le32 salt_len.toNat) (n := 4#32) (length_le32 _).symm
    (by rw [length_le32]; decide)
  have h4 := hH.feed h3 salt (n := salt_len.toBitVec) hsalt
  have h5 :=
    hH.array h4 (l := le32 0) (n := 4#32) (length_le32 _).symm (by rw [length_le32]; decide)
  have h6 :=
    hH.array h5 (l := le32 0) (n := 4#32) (length_le32 _).symm (by rw [length_le32]; decide)
  have hfinal := hH.final _ _ _ h6 (Nat.le_refl 64)
  simp only [show device.init = deviceBlake2bInit from rfl,
    show device.update = deviceBlake2bUpdate from rfl,
    show device.final = deviceBlake2bFinal from rfl] at hfinal
  unfold deviceInitialHash
  simp only [device_store32_eq, UInt32.toNat_zero]
  rw [hfinal]
  unfold Argon2.initialHash withLength
  simp only [length_bytesAt, List.length_nil, List.append_assoc, List.nil_append, List.append_nil]
  rfl

namespace Argon2Params

/-- A length of bytes, as it is fed. -/
theorem toNat_length {l : List UInt8} (h : l.length < 2 ^ 63) :
    (BitVec.ofNat 64 l.length).toNat = l.length := by
  rw [BitVec.toNat_ofNat]
  exact Nat.mod_eq_of_lt (by omega)

/-- The host computes `H₀` as well, on either path. -/
theorem initialHash_eq (p : Argon2Params) {salt : Bytes} (hsalt : hex_to_bytes p.salt = some salt)
    (hlen : salt.length < 2 ^ 32) (pwd : Ptr) {pwdLen : UInt64} (hpwd : pwdLen.toNat < 2 ^ 32) :
    p.initialHash pwd pwdLen =
      some (Argon2.initialHash (p.decoded salt) (bytesAt pwd pwdLen.toNat)) := by
  have hH := host_right
  have h0 := hH.init Blake2b.new 64#64 (Nat.le_refl 64)
  have hpwdLen : pwdLen.toUInt32.toNat = pwdLen.toNat := by
    rw [UInt64.toNat_toUInt32]
    exact Nat.mod_eq_of_lt hpwd
  have hsaltLen : (UInt32.ofNat salt.length).toNat = salt.length := UInt32.toNat_ofNat_of_lt' hlen
  -- every field is fed by its length in four bytes and then its bytes
  have hfeed : ∀ {s : Blake2bState 64} {msg : List UInt8}, Absorbed s 64 msg → ∀ n : Nat,
      Absorbed (host.update s (array (le32 n)) 4#64) 64 (msg ++ le32 n) := fun hs n =>
    hH.array hs (l := le32 n) (n := 4#64) (length_le32 _).symm (by rw [length_le32]; decide)
  have hpassword : ∀ {s : Blake2bState 64} {msg : List UInt8}, Absorbed s 64 msg →
      Absorbed (host.update s pwd pwdLen.toBitVec) 64 (msg ++ bytesAt pwd pwdLen.toNat) :=
    fun hs => hH.feed hs pwd (show 128 + pwdLen.toNat < 2 ^ 64 by omega)
  have hsaltFeed : ∀ {s : Blake2bState 64} {msg : List UInt8}, Absorbed s 64 msg →
      Absorbed (host.update s (array salt) (BitVec.ofNat 64 salt.length)) 64 (msg ++ salt) :=
    fun hs => hH.array hs (toNat_length (by omega)) (by omega)
  have hinit : host.init = Blake2b.init := rfl
  have hupdate : host.update = Blake2b.update := rfl
  have hfin : host.final = Blake2b.final := rfl
  unfold initialHash
  rw [hsalt]
  -- without secret and data the source feeds two empty fields in one piece
  by_cases hnone : p.secretLen = 0 ∧ p.adLen = 0
  · have h1 :=
      hH.array h0 (l := le32 p.lanes.toNat ++ le32 p.outLen.toNat ++ le32 p.m_cost.toNat ++
      le32 p.t_cost.toNat ++ le32 p.version.toNat ++ le32 p.type.toNat ++ le32 pwdLen.toNat)
      (n := 28#64) (by simp [length_le32]) (by simp [length_le32])
    have h2 := hsaltFeed (hfeed (hpassword h1) salt.length)
    have h3 := hH.array h2 (l := le32 p.secretLen.toNat ++ le32 p.adLen.toNat) (n := 8#64)
      (by simp [length_le32]) (by simp [length_le32])
    have hfinal := hH.final _ 64#64 _ h3 (Nat.le_refl 64)
    simp only [hinit, hupdate, hfin] at hfinal
    rw [if_pos hnone]
    simp only [store32_eq, hpwdLen, hsaltLen, Option.bind_eq_bind, Option.bind_some,
      Option.pure_def]
    rw [hfinal]
    unfold Argon2.initialHash withLength decoded
    have hempty : ∀ q : Ptr, bytesAt q 0 = [] := fun _ => rfl
    simp only [length_bytesAt, hnone.1, hnone.2, UInt32.toNat_zero, List.append_assoc,
      List.nil_append, List.append_nil, hempty, List.length_nil]
    rfl
  · have h1 := hpassword (hfeed (hfeed (hfeed (hfeed (hfeed (hfeed (hfeed h0 p.lanes.toNat)
      p.outLen.toNat) p.m_cost.toNat) p.t_cost.toNat) p.version.toNat) p.type.toNat) pwdLen.toNat)
    have h2 := hfeed (hsaltFeed (hfeed h1 salt.length)) p.secretLen.toNat
    have hsecret : p.secretLen.toUInt64.toBitVec.toNat = p.secretLen.toNat :=
      UInt32.toNat_toUInt64 _
    have had : p.adLen.toUInt64.toBitVec.toNat = p.adLen.toNat := UInt32.toNat_toUInt64 _
    have hsecretLt : p.secretLen.toNat < 2 ^ 32 := p.secretLen.toNat_lt
    have hadLt : p.adLen.toNat < 2 ^ 32 := p.adLen.toNat_lt
    have h3 := hH.feed h2 p.secret (n := p.secretLen.toUInt64.toBitVec) (by rw [hsecret]; omega)
    have h4 := hH.feed (hfeed h3 p.adLen.toNat) p.ad (n := p.adLen.toUInt64.toBitVec)
      (by rw [had]; omega)
    have hfinal := hH.final _ 64#64 _ h4 (Nat.le_refl 64)
    simp only [hinit, hupdate, hfin] at hfinal
    rw [if_neg hnone]
    simp only [store32_eq, hpwdLen, hsaltLen, Option.bind_eq_bind, Option.bind_some,
      Option.pure_def]
    rw [hfinal, hsecret, had]
    unfold Argon2.initialHash withLength decoded
    simp only [length_bytesAt, List.append_assoc, List.nil_append]
    rfl

end Argon2Params

/-! ## The first blocks -/

/-- `H'` of a seed on the device. -/
theorem device_digest_long_eq (blake : Blake2bState 32) (seed : List UInt8)
    (hseed : seed.length = 72) :
    deviceDigestLong blake 1024 (array seed) 72 = longHash 1024 seed := by
  have h : digest device deviceStore32 blake (1024 : UInt32).toBitVec (array seed)
      (72 : UInt32).toBitVec = _ :=
    digest_eq device_right (Nat.le_refl 32) device_store32_eq blake (by decide) (array seed)
      (by decide)
  refine h.trans (congrArg (longHash 1024) ?_)
  exact (bytesAt_array (Nat.le_of_eq hseed.symm)).trans
    (List.take_of_length_le (Nat.le_of_eq hseed))

/-- `H'` of a seed on the host. -/
theorem digestLong_eq (seed : List UInt8) (hseed : seed.length = 72) :
    digestLong 1024 (array seed) 72 = longHash 1024 seed := by
  have h : digest host store32 Blake2b.new (1024 : UInt64).toBitVec (array seed)
      (72 : UInt64).toBitVec = _ :=
    digest_eq host_right (by decide) store32_eq Blake2b.new (by decide) (array seed) (by decide)
  refine h.trans (congrArg (longHash 1024) ?_)
  exact (bytesAt_array (Nat.le_of_eq hseed.symm)).trans
    (List.take_of_length_le (Nat.le_of_eq hseed))

/-- The initial hash has 64 bytes. -/
theorem length_initialHash (p : Argon2.Params) (password : List UInt8) :
    (Argon2.initialHash p password).length = 64 := length_hash (Nat.le_refl 64) _

/-- The host fills in blocks 0 and then blocks 1 of the lanes. -/
theorem Argon2Params.fillFirstBlocks_eq (p : Argon2Params) {salt : Bytes}
    (hsalt : hex_to_bytes p.salt = some salt) (hlen : salt.length < 2 ^ 32) (pwd : Ptr)
    {pwdLen : UInt64} (hpwd : pwdLen.toNat < 2 ^ 32) :
    p.fillFirstBlocks pwd pwdLen = some
      (((List.range p.lanes.toNat).flatMap fun l =>
          firstBlock (p.decoded salt) (bytesAt pwd pwdLen.toNat) l 0) ++
        (List.range p.lanes.toNat).flatMap fun l =>
          firstBlock (p.decoded salt) (bytesAt pwd pwdLen.toNat) l 1) := by
  -- the loop over the lanes, from lane `i` on
  have hlanes : ∀ i : UInt32, fillLanes
      (Argon2.initialHash (p.decoded salt) (bytesAt pwd pwdLen.toNat)) i p.lanes =
      (List.range p.lanes.toNat).flatMap fun l =>
        firstBlock (p.decoded salt) (bytesAt pwd pwdLen.toNat) l i.toNat := by
    intro i
    have hlane : ∀ l ∈ List.range p.lanes.toNat, digestLong 1024 (array
        (Argon2.initialHash (p.decoded salt) (bytesAt pwd pwdLen.toNat) ++ store32 i ++
          store32 (UInt32.ofNat l))) 72 =
        firstBlock (p.decoded salt) (bytesAt pwd pwdLen.toNat) l i.toNat := by
      intro l hl
      have hlt : l < 2 ^ 32 := Nat.lt_trans (List.mem_range.mp hl) p.lanes.toNat_lt
      rw [digestLong_eq _ (by simp [store32_eq, length_le32, length_initialHash]), store32_eq,
        store32_eq, UInt32.toNat_ofNat_of_lt' hlt]
      rfl
    unfold fillLanes
    rw [List.flatMap_def, List.flatMap_def, List.map_congr_left hlane]
  unfold fillFirstBlocks
  rw [p.initialHash_eq hsalt hlen pwd hpwd]
  show some (fillLanes _ 0 _ ++ fillLanes _ 1 _) = _
  rw [hlanes 0, hlanes 1]
  rfl

/-! ## The inputs on the device -/

/-- A pointer to device memory, null at first, and the capacity that is remembered for it. -/
structure DeviceBuffer where
  memory : Option Ptr
  capacity : UInt64

namespace DeviceBuffer

/-- `if (capacity < bytes)`: `cudaFree` what is there, and `cudaMalloc`, which answers with
memory that is not initialised. -/
def reserve (bytes : UInt64) : Faulty Ptr DeviceBuffer Unit := do
  let b ← Faulty.get
  if b.capacity < bytes then
    if b.memory.isSome then
      let _ ← Faulty.call
      Faulty.modify fun b => { b with memory := none }
    let fresh ← Faulty.call
    Faulty.modify fun _ => ⟨some fresh, bytes⟩

/-- `cudaMemcpy` to the device; to a null pointer it fails. -/
def copy (src : List UInt8) (bytes : UInt64) : Faulty Ptr DeviceBuffer Unit := do
  let b ← Faulty.get
  match b.memory with
  | none => Faulty.throw
  | some p =>
    let _ ← Faulty.call
    Faulty.modify fun b => { b with memory := some (copyAt p 0 (array src) bytes.toNat) }

end DeviceBuffer

/-- The members of `KernelRunner` for first blocks on the device. -/
structure DeviceInputs where
  deviceKeys : DeviceBuffer
  deviceSalt : DeviceBuffer
  deviceFirstBlocksReady : Bool
  deviceFirstBlockKeyLength : UInt64
  deviceFirstBlockSaltLength : UInt32
  deviceFirstBlockOutputLength : UInt32
  deviceFirstBlockMemoryCost : UInt32
  deviceFirstBlockTimeCost : UInt32
  deviceFirstBlockVersion : UInt32
  deviceFirstBlockType : UInt32
  deviceFirstBlockLanes : UInt32

namespace DeviceInputs

/-- As the constructor of `KernelRunner` leaves them. -/
def new : DeviceInputs := ⟨⟨none, 0⟩, ⟨none, 0⟩, false, 0, 0, 0, 0, 0, 0, 0, 0⟩

def onKeys {α : Type} (m : Faulty Ptr DeviceBuffer α) : Faulty Ptr DeviceInputs α :=
  m.zoom (·.deviceKeys) fun b s => { s with deviceKeys := b }

def onSalt {α : Type} (m : Faulty Ptr DeviceBuffer α) : Faulty Ptr DeviceInputs α :=
  m.zoom (·.deviceSalt) fun b s => { s with deviceSalt := b }

/-- `prepareInputBlocksOnDevice`. -/
def prepareInputBlocksOnDevice (batchSize : UInt64) (passwords : List Bytes) (saltBytes : Bytes)
    (outputLength memoryCost timeCost version type lanes : UInt32) :
    Faulty Ptr DeviceInputs Bool := do
  Faulty.modify fun s => { s with deviceFirstBlocksReady := false }
  let keyLength := (passwords.headD []).length
  if passwords = [] ∨ passwords.length ≠ batchSize.toNat ∨ outputLength ≠ 64 ∨
    timeCost ≠ 1 ∨
      lanes ≠ 1 ∨ saltBytes = [] ∨ saltBytes.length > 2 ^ 32 - 1 then
    return false
  else if keyLength = 0 ∨ keyLength > 2 ^ 32 - 1 then return false
  else if ∃ password ∈ passwords, password.length ≠ keyLength then return false
  else
    let keyBytes := UInt64.ofNat (keyLength * passwords.length)
    let saltSize := UInt64.ofNat saltBytes.length
    let flatKeys := passwords.flatten
    onKeys (DeviceBuffer.reserve keyBytes)
    onSalt (DeviceBuffer.reserve saltSize)
    onKeys (DeviceBuffer.copy flatKeys keyBytes)
    onSalt (DeviceBuffer.copy saltBytes saltSize)
    Faulty.modify fun s =>
      { s with
        deviceFirstBlocksReady := true
        deviceFirstBlockKeyLength := UInt64.ofNat keyLength
        deviceFirstBlockSaltLength := UInt32.ofNat saltBytes.length
        deviceFirstBlockOutputLength := outputLength
        deviceFirstBlockMemoryCost := memoryCost
        deviceFirstBlockTimeCost := timeCost
        deviceFirstBlockVersion := version
        deviceFirstBlockType := type
        deviceFirstBlockLanes := lanes }
    return true

end DeviceInputs

/-! ## What is on the device after the call -/

section Prepare

variable {fails : Prop}

namespace DeviceBuffer

/-- A capacity stands for memory. It does not after a `cudaMalloc` that failed. -/
def Sound (b : DeviceBuffer) : Prop := b.memory = none → b.capacity = 0

/-- A buffer that was reserved has memory, or the call has failed. -/
theorem reserve_spec (b : DeviceBuffer) {bytes : UInt64} (hbytes : 0 < bytes) :
    (reserve bytes).Ensures fails b (fun _ b' => b.Sound → b'.memory ≠ none)
      fun _ => fails := by
  unfold reserve
  refine Faulty.Ensures.bind (Faulty.ensures_get ?_)
  by_cases hlt : b.capacity < bytes
  · rw [if_pos hlt]
    have hmalloc : ∀ b' : DeviceBuffer, (do
        let fresh ← Faulty.call
        Faulty.modify fun _ => ⟨some fresh, bytes⟩ : Faulty Ptr DeviceBuffer Unit).Ensures fails
          b'
          (fun _ b' => b.Sound → b'.memory ≠ none) fun _ => fails := by
      intro b'
      refine Faulty.Ensures.bind (Faulty.ensures_call (fun fresh => ?_) id)
      exact Faulty.ensures_modify fun _ => Option.some_ne_none _
    -- an old buffer is freed before the new one is allocated
    by_cases hsome : b.memory.isSome = true
    · rw [if_pos hsome]
      refine Faulty.Ensures.bind (Faulty.ensures_call (fun _ => ?_) id)
      exact Faulty.Ensures.bind (Faulty.ensures_modify (hmalloc _))
    · rw [if_neg hsome]
      exact hmalloc b
  · rw [if_neg hlt]
    refine Faulty.ensures_pure fun hsound hnone => hlt ?_
    rw [hsound hnone]
    exact hbytes

/-- A copy that succeeds leaves the bytes of the host in the memory of the device. -/
theorem copy_spec (b : DeviceBuffer) {src : List UInt8} {bytes : UInt64}
    (hlen : bytes.toNat = src.length) :
    (copy src bytes).Ensures fails b
      (fun _ b' => ∃ p, b'.memory = some p ∧ bytesAt p src.length = src)
      fun _ => b.memory ≠ none → fails := by
  unfold copy
  refine Faulty.Ensures.bind (Faulty.ensures_get ?_)
  cases hb : b.memory with
  | none => exact Faulty.ensures_throw fun hne => absurd rfl hne
  | some p =>
    refine Faulty.Ensures.bind (Faulty.ensures_call (fun _ => ?_) fun hf _ => hf)
    refine Faulty.ensures_modify ⟨_, rfl, ?_⟩
    have hcopy : bytesAt (copyAt p 0 (array src) src.length) (0 + src.length) = _ := bytesAt_copyAt
    rw [Nat.zero_add, bytesAt_array (Nat.le_refl _), List.take_length] at hcopy
    rw [hlen, hcopy]
    rfl

end DeviceBuffer

namespace DeviceInputs

/-- The keys and the salt of a batch are on the device, with its parameters. -/
structure Prepared (batchSize : UInt64) (passwords : List Bytes) (saltBytes : Bytes)
    (outputLength memoryCost timeCost version type lanes : UInt32) (s : DeviceInputs) : Prop where
  ready : s.deviceFirstBlocksReady = true
  count : passwords.length = batchSize.toNat
  length : ∀ password ∈ passwords, password.length = s.deviceFirstBlockKeyLength.toNat
  keyLength : s.deviceFirstBlockKeyLength.toNat < 2 ^ 32
  keys : ∃ p, s.deviceKeys.memory = some p ∧
    bytesAt p passwords.flatten.length = passwords.flatten
  salt : ∃ p, s.deviceSalt.memory = some p ∧ bytesAt p saltBytes.length = saltBytes
  saltLength : s.deviceFirstBlockSaltLength.toNat = saltBytes.length
  outputLength : s.deviceFirstBlockOutputLength = outputLength
  memoryCost : s.deviceFirstBlockMemoryCost = memoryCost
  timeCost : s.deviceFirstBlockTimeCost = timeCost
  version : s.deviceFirstBlockVersion = version
  type : s.deviceFirstBlockType = type
  lanes : s.deviceFirstBlockLanes = lanes

/-- Passwords of one length lie behind each other without gaps. -/
theorem length_flatten {passwords : List Bytes} {L : Nat} (hL : ∀ p ∈ passwords, p.length = L) :
    passwords.flatten.length = L * passwords.length := by
  rw [List.length_flatten, List.map_congr_left hL, List.map_const', List.sum_replicate_nat,
    Nat.mul_comm]

/-- The batches that are taken. -/
def Accepts (batchSize : UInt64) (passwords : List Bytes) (saltBytes : Bytes)
    (outputLength timeCost lanes : UInt32) : Prop :=
  passwords ≠ [] ∧ passwords.length = batchSize.toNat ∧ outputLength = 64 ∧ timeCost = 1 ∧
    lanes = 1 ∧ saltBytes ≠ [] ∧ saltBytes.length < 2 ^ 32 ∧
    0 < (passwords.headD []).length ∧ (passwords.headD []).length < 2 ^ 32 ∧
    ∀ password ∈ passwords, password.length = (passwords.headD []).length

variable (fails) in
/-- `prepareInputBlocksOnDevice` takes a batch and copies it, refuses it, or throws; only a
CUDA call throws if the capacities are sound. What is not taken is not marked as ready. -/
theorem prepare_spec (s : DeviceInputs) (batchSize : UInt64) (passwords : List Bytes)
    (saltBytes : Bytes) (outputLength memoryCost timeCost version type lanes : UInt32)
    (hfit : (passwords.headD []).length * passwords.length < 2 ^ 64) :
    (prepareInputBlocksOnDevice batchSize passwords saltBytes outputLength memoryCost timeCost
        version type lanes).Ensures fails s
      (fun ok s' => (ok = true ↔
        Accepts batchSize passwords saltBytes outputLength timeCost lanes) ∧
        if ok then Prepared batchSize passwords saltBytes outputLength memoryCost timeCost version
          type lanes s'
        else s'.deviceFirstBlocksReady = false)
      fun s' => s'.deviceFirstBlocksReady = false ∧
        (s.deviceKeys.Sound → s.deviceSalt.Sound → fails) := by
  unfold prepareInputBlocksOnDevice
  refine Faulty.Ensures.bind (Faulty.ensures_modify ?_)
  dsimp only
  -- the checks of the source, one after the other; each refuses the batch
  by_cases h₁ : passwords = [] ∨ passwords.length ≠ batchSize.toNat ∨
    outputLength ≠ 64 ∨
      timeCost ≠ 1 ∨ lanes ≠ 1 ∨ saltBytes = [] ∨ saltBytes.length > 2 ^ 32 - 1
  · rw [if_pos h₁]
    refine Faulty.ensures_pure ⟨⟨fun h => (nomatch h), fun ha => ?_⟩, rfl⟩
    obtain ⟨hne, hcount, hout, htime, hlanes, hsalt, hsaltLen, -⟩ := ha
    simp only [hne, hcount, hout, htime, hlanes, hsalt, ne_eq, not_true_eq_false, false_or] at h₁
    omega
  rw [if_neg h₁]
  simp only [not_or, not_not, ne_eq, Nat.not_lt, gt_iff_lt] at h₁
  obtain ⟨hne, hcount, hout, htime, hlanes, hsalt, hsaltLen⟩ := h₁
  by_cases h₂ : (passwords.headD []).length = 0 ∨ (passwords.headD []).length > 2 ^ 32 - 1
  · rw [if_pos h₂]
    refine Faulty.ensures_pure ⟨⟨fun h => (nomatch h), fun ha => ?_⟩, rfl⟩
    obtain ⟨-, -, -, -, -, -, -, hpos, hlt, -⟩ := ha
    omega
  rw [if_neg h₂]
  by_cases h₃ : ∃ password ∈ passwords, password.length ≠ (passwords.headD []).length
  · rw [if_pos h₃]
    refine Faulty.ensures_pure ⟨⟨fun h => (nomatch h), fun ha => ?_⟩, rfl⟩
    obtain ⟨password, hmem, hlen⟩ := h₃
    exact absurd (ha.2.2.2.2.2.2.2.2.2 password hmem) hlen
  rw [if_neg h₃]
  have hall : ∀ password ∈ passwords, password.length = (passwords.headD []).length := by
    intro password hmem
    by_contra hlen
    exact h₃ ⟨password, hmem, hlen⟩
  have hcountPos : 0 < passwords.length := List.length_pos_iff.mpr hne
  have hsaltPos : 0 < saltBytes.length := List.length_pos_iff.mpr hsalt
  have hkeyBytes : (UInt64.ofNat ((passwords.headD []).length * passwords.length)).toNat =
      (passwords.headD []).length * passwords.length := UInt64.toNat_ofNat_of_lt' hfit
  have hsaltSize : (UInt64.ofNat saltBytes.length).toNat = saltBytes.length :=
    UInt64.toNat_ofNat_of_lt' (Nat.lt_of_le_of_lt hsaltLen (by decide))
  have hkeyPos : (0 : UInt64) < UInt64.ofNat ((passwords.headD []).length * passwords.length) := by
    rw [UInt64.lt_iff_toNat_lt, hkeyBytes]
    exact Nat.mul_pos (by omega) hcountPos
  have hsaltPos' : (0 : UInt64) < UInt64.ofNat saltBytes.length := by
    rw [UInt64.lt_iff_toNat_lt, hsaltSize]
    exact hsaltPos
  -- reserve and copy, for the keys and for the salt; any of the four calls may fail
  refine Faulty.Ensures.bind (Faulty.Ensures.zoom ?_)
  refine (DeviceBuffer.reserve_spec _ hkeyPos).mono (fun _ keys hkeys => ?_)
    (fun _ hf => ⟨rfl, fun _ _ => hf⟩)
  refine Faulty.Ensures.bind (Faulty.Ensures.zoom ?_)
  refine (DeviceBuffer.reserve_spec _ hsaltPos').mono (fun _ salt hsalts => ?_)
    (fun _ hf => ⟨rfl, fun _ _ => hf⟩)
  refine Faulty.Ensures.bind (Faulty.Ensures.zoom ?_)
  refine (DeviceBuffer.copy_spec _ (hkeyBytes.trans (length_flatten hall).symm)).mono
    (fun _ keys' hkeys' => ?_) (fun _ hf => ⟨rfl, fun hk _ => hf (hkeys hk)⟩)
  refine Faulty.Ensures.bind (Faulty.Ensures.zoom ?_)
  refine (DeviceBuffer.copy_spec _ hsaltSize).mono (fun _ salt' hsalt' => ?_)
    (fun _ hf => ⟨rfl, fun _ hs => hf (hsalts hs)⟩)
  refine Faulty.Ensures.bind
    (Faulty.ensures_modify (Faulty.ensures_pure ⟨⟨fun _ => ?_, fun _ => rfl⟩, ?_⟩))
  · exact ⟨hne, hcount, hout, htime, hlanes, hsalt, by omega, by omega, by omega, hall⟩
  · have hlength : (UInt64.ofNat (passwords.headD []).length).toNat =
        (passwords.headD []).length := UInt64.toNat_ofNat_of_lt' (show _ < 2 ^ 64 by omega)
    have hsalt32 : (UInt32.ofNat saltBytes.length).toNat = saltBytes.length :=
      UInt32.toNat_ofNat_of_lt' (show _ < 2 ^ 32 by omega)
    refine ⟨rfl, hcount, fun password hmem => ?_, ?_, hkeys', hsalt', hsalt32, rfl, rfl, rfl, rfl,
      rfl, rfl⟩
    · exact (hall password hmem).trans hlength.symm
    · show (UInt64.ofNat (passwords.headD []).length).toNat < 2 ^ 32
      omega

end DeviceInputs

end Prepare

/-! ## The kernel -/

/-- Store bytes from `out` on. -/
def storeBytes (out : Nat) : List UInt8 → Prog (memSig Nat UInt8) Unit
  | [] => pure ()
  | b :: bs => .op (.store out b) fun _ => storeBytes (out + 1) bs

/-- `argon2_first_blocks_kernel`: one thread; addresses are relative to `memory`, and `locals`
is what stands in its local variables at first. -/
def argon2FirstBlocksKernel (keys : Ptr) (key_length : UInt32) (salt : Ptr)
    (salt_length output_length memory_cost time_cost version type lanes segment_blocks : UInt32)
    (batch_size : UInt64) (locals : Fin 3 → Blake2bState 32)
    (blockIdx blockDim threadIdx : UInt32) : Prog (memSig Nat UInt8) Unit :=
  let jobId := blockIdx.toUInt64 * blockDim.toUInt64 + threadIdx.toUInt64
  if jobId ≥ batch_size then pure ()
  else do
    let password := keys.advance (jobId * key_length.toUInt64).toNat
    let init_hash := deviceInitialHash (locals 0) password key_length salt salt_length
      output_length memory_cost time_cost version type lanes
    let lane_blocks := ARGON2_SYNC_POINTS * segment_blocks
    let output := (jobId * lane_blocks.toUInt64).toNat * 1024
    let seed := init_hash ++ deviceStore32 0 ++ deviceStore32 0
    storeBytes output (deviceDigestLong (locals 1) 1024 (array seed) 72)
    let seed := init_hash ++ deviceStore32 1 ++ deviceStore32 0
    storeBytes (output + 1024) (deviceDigestLong (locals 2) 1024 (array seed) 72)

/-- Threads of a launch of `grid` blocks of `blockDim` threads. -/
abbrev ThreadOf (grid blockDim : UInt32) := Fin grid.toNat × Fin blockDim.toNat

namespace DeviceInputs

def threadsPerBlock : UInt64 := 128

/-- `dim3(grid)` of `runDeviceFirstBlockKernel`. -/
def grid (batchSize : UInt64) : UInt32 :=
  ((batchSize + threadsPerBlock - 1) / threadsPerBlock).toUInt32

/-- A thread of `runDeviceFirstBlockKernel`. -/
def firstBlockThread (s : DeviceInputs) (segmentBlocks : UInt32) (batchSize : UInt64)
    (locals : Fin 3 → Blake2bState 32) (blockIdx threadIdx : UInt32) :
    Prog (memSig Nat UInt8) Unit :=
  -- the kernel is launched only after both buffers have been filled
  argon2FirstBlocksKernel (s.deviceKeys.memory.getD fun _ => 0)
    s.deviceFirstBlockKeyLength.toUInt32 (s.deviceSalt.memory.getD fun _ => 0)
    s.deviceFirstBlockSaltLength s.deviceFirstBlockOutputLength s.deviceFirstBlockMemoryCost
    s.deviceFirstBlockTimeCost s.deviceFirstBlockVersion s.deviceFirstBlockType
    s.deviceFirstBlockLanes segmentBlocks batchSize locals blockIdx threadsPerBlock.toUInt32
    threadIdx

/-- `runDeviceFirstBlockKernel`, with all threads at the beginning. -/
def runDeviceFirstBlockKernel (s : DeviceInputs) (segmentBlocks : UInt32) (batchSize : UInt64)
    (locals : ThreadOf (grid batchSize) threadsPerBlock.toUInt32 → Fin 3 → Blake2bState 32)
    (memory : Ptr) : MemConf Nat UInt8 (ThreadOf (grid batchSize) threadsPerBlock.toUInt32) :=
  launch (fun t => some (s.firstBlockThread segmentBlocks batchSize (locals t)
    (UInt32.ofNat t.1) (UInt32.ofNat t.2))) memory

end DeviceInputs

/-! ## What the kernel writes -/

/-- The device's loop over the bytes is one copy. -/
theorem storeBytes_eval (bytes : List UInt8) (out : Nat) (memory : Ptr) :
    ((storeBytes out bytes).eval memory).2 = copyAt memory out (array bytes) bytes.length := by
  induction bytes generalizing out memory with
  | nil =>
    funext a
    exact (if_neg (by rw [List.length_nil]; omega)).symm
  | cons b bytes ih =>
    show ((storeBytes (out + 1) bytes).eval (Function.update memory out b)).2 = _
    rw [ih]
    funext a
    unfold copyAt array
    rw [List.length_cons]
    by_cases hfirst : a = out
    · rw [hfirst, if_neg (by omega), if_pos (by omega), Nat.sub_self, Function.update_self]
      rfl
    · rw [Function.update_of_ne hfirst]
      by_cases hin : out + 1 ≤ a ∧ a < out + 1 + bytes.length
      · rw [if_pos hin, if_pos (by omega), show a - out = a - (out + 1) + 1 by omega]
        rfl
      · rw [if_neg hin, if_neg (by omega)]

/-- Its writes stay where they were told to go. -/
theorem storeBytes_stays {R : Nat → Prop} (bytes : List UInt8) (out : Nat)
    (hR : ∀ i < bytes.length, R (out + i)) : (storeBytes out bytes).Stays R := by
  induction bytes generalizing out with
  | nil => trivial
  | cons b bytes ih =>
    refine ⟨hR 0 (by simp), fun _ => ih (out + 1) fun i hi => ?_⟩
    rw [Nat.add_assoc, Nat.add_comm 1]
    exact hR (i + 1) (by rw [List.length_cons]; omega)

/-- What stands where something was copied to. -/
theorem bytesAt_copied (m : Ptr) (pos : Nat) (src : List UInt8) :
    bytesAt ((copyAt m pos (array src) src.length).advance pos) src.length = src := by
  have hsame : bytesAt ((copyAt m pos (array src) src.length).advance pos) src.length =
      bytesAt (array src) src.length := by
    refine List.map_congr_left fun i hi => ?_
    have hlt : i < src.length := List.mem_range.mp hi
    show copyAt m pos (array src) src.length (pos + i) = _
    unfold copyAt
    rw [if_pos (by omega), Nat.add_sub_cancel_left]
  rw [hsame, bytesAt_array (Nat.le_refl _), List.take_length]

/-- Two stores one after the other leave both texts. -/
theorem storeBytes_two (a b : List UInt8) (out : Nat) (memory : Ptr) :
    bytesAt (Ptr.advance
      (((storeBytes out a).bind fun _ => storeBytes (out + a.length) b).eval memory).2 out)
        (a.length + b.length) = a ++ b := by
  rw [Prog.eval_bind, storeBytes_eval, storeBytes_eval, bytesAt_add]
  have hsnd := bytesAt_copied (copyAt memory out (array a) a.length) (out + a.length) b
  have hfst := bytesAt_copied memory out a
  have hadd : ∀ p : Ptr, (p.advance out).advance a.length = p.advance (out + a.length) := by
    intro p
    funext i
    show p (out + (a.length + i)) = p (out + a.length + i)
    rw [Nat.add_assoc]
  rw [hadd, hsnd]
  refine congrArg (· ++ b) (Eq.trans ?_ hfst)
  refine List.map_congr_left fun i hi => ?_
  -- the second store is beyond the first
  have hlt : i < a.length := List.mem_range.mp hi
  show copyAt _ (out + a.length) _ _ (out + i) = copyAt _ _ _ _ (out + i)
  rw [copyAt, if_neg (by omega)]

/-- The keys stand one after the other. -/
theorem flatten_slice {L : Nat} : ∀ {passwords : List Bytes} {job : Nat} {password : Bytes},
    (∀ p ∈ passwords, p.length = L) → passwords[job]? = some password →
      (passwords.flatten.drop (job * L)).take L = password
  | p :: rest, 0, password, hL, hget => by
    cases hget
    rw [Nat.zero_mul, List.drop_zero, List.flatten_cons,
      List.take_left' (hL _ List.mem_cons_self)]
  | p :: rest, job + 1, password, hL, hget => by
    have hp := hL p List.mem_cons_self
    rw [List.flatten_cons, Nat.succ_mul, Nat.add_comm, ← List.drop_drop, List.drop_left' hp]
    exact flatten_slice (fun q hq => hL q (List.mem_cons_of_mem _ hq)) hget

/-- What a launch over the jobs takes for granted: CUDA starts at most `2 ^ 31 - 1` thread
blocks, and the keys and the blocks of all jobs are in memory. -/
structure Fits (jobs keyLength laneBlocks : Nat) : Prop where
  grid : (jobs + 127) / 128 < 2 ^ 31
  keys : keyLength * jobs < 2 ^ 64
  blocks : jobs * laneBlocks * 1024 < 2 ^ 64

namespace DeviceInputs

section Threads

variable {s : DeviceInputs} {batchSize : UInt64} {passwords : List Bytes} {saltBytes : Bytes}
  {memoryCost version type segmentBlocks : UInt32} {L : Nat}

/-- The parameters of `H₀` on the device. -/
def params (saltBytes : Bytes) (memoryCost version type : UInt32) : Argon2.Params where
  lanes := 1
  tagLength := 64
  memory := memoryCost.toNat
  passes := 1
  version := version.toNat
  type := type.toNat
  salt := saltBytes
  secret := []
  data := []

/-- The job of a thread. -/
def jobOf {g b : UInt32} (t : ThreadOf g b) : Nat := t.1 * 128 + t.2

/-- Byte `a` belongs to the first two blocks of the job of the thread. -/
def Own (segmentBlocks : UInt32) (batchSize : UInt64) {g b : UInt32} (t : ThreadOf g b) (a : Nat) :
    Prop :=
  jobOf t < batchSize.toNat ∧ jobOf t * (4 * segmentBlocks.toNat) * 1024 ≤ a ∧
    a < jobOf t * (4 * segmentBlocks.toNat) * 1024 + 2048

/-- The grid is the batch over the threads of a block, rounded up, and does not wrap. -/
theorem grid_toNat (hbatch : (batchSize.toNat + 127) / 128 < 2 ^ 31) :
    (grid batchSize).toNat = (batchSize.toNat + 127) / 128 := by
  have hsum : (batchSize + threadsPerBlock - 1).toNat = batchSize.toNat + 127 := by
    have hadd : (batchSize + threadsPerBlock).toNat = batchSize.toNat + 128 := by
      rw [UInt64.toNat_add]
      exact Nat.mod_eq_of_lt (show batchSize.toNat + 128 < 2 ^ 64 by omega)
    have hle : (1 : UInt64) ≤ batchSize + threadsPerBlock := by
      rw [UInt64.le_iff_toNat_le, hadd]
      show 1 ≤ _
      omega
    rw [UInt64.toNat_sub_of_le _ _ hle, hadd]
    rfl
  unfold grid
  rw [UInt64.toNat_toUInt32, UInt64.toNat_div, hsum, show threadsPerBlock.toNat = 128 from rfl]
  exact Nat.mod_eq_of_lt (by omega)

/-- A thread stores the first blocks of its job, if that is in the batch. -/
theorem firstBlockThread_eq
    (hs : Prepared batchSize passwords saltBytes 64 memoryCost 1 version type 1 s)
    (hL : ∀ p ∈ passwords, p.length = L) (hlt : L < 2 ^ 31)
    (hsalt : 128 + saltBytes.length < 2 ^ 32)
    (hfits : Fits passwords.length L (4 * segmentBlocks.toNat))
    (hseg : segmentBlocks.toNat < 2 ^ 30) (locals : Fin 3 → Blake2bState 32)
    (t : ThreadOf (grid batchSize) threadsPerBlock.toUInt32) :
    (jobOf t < batchSize.toNat → ∀ password, passwords[jobOf t]? = some password →
      s.firstBlockThread segmentBlocks batchSize locals (UInt32.ofNat t.1) (UInt32.ofNat t.2) =
        (storeBytes (jobOf t * (4 * segmentBlocks.toNat) * 1024)
          (firstBlock (params saltBytes memoryCost version type) password 0 0)).bind fun _ =>
          storeBytes (jobOf t * (4 * segmentBlocks.toNat) * 1024 + 1024)
            (firstBlock (params saltBytes memoryCost version type) password 0 1)) ∧
    (¬ jobOf t < batchSize.toNat →
      s.firstBlockThread segmentBlocks batchSize locals (UInt32.ofNat t.1) (UInt32.ofNat t.2) =
        pure ()) := by
  have hblock : (t.1 : Nat) < 2 ^ 32 := Nat.lt_trans t.1.isLt (UInt32.toNat_lt _)
  have hthread : (t.2 : Nat) < 128 := t.2.isLt
  have hjob : ((UInt32.ofNat t.1).toUInt64 * threadsPerBlock.toUInt32.toUInt64 +
      (UInt32.ofNat t.2).toUInt64).toNat = jobOf t := by
    rw [UInt64.toNat_add, UInt64.toNat_mul, UInt32.toNat_toUInt64, UInt32.toNat_toUInt64,
      UInt32.toNat_toUInt64, UInt32.toNat_ofNat_of_lt' hblock,
      UInt32.toNat_ofNat_of_lt' (show (t.2 : Nat) < 2 ^ 32 by omega)]
    show ((t.1 : Nat) * 128 % 2 ^ 64 + (t.2 : Nat)) % 2 ^ 64 = (t.1 : Nat) * 128 + (t.2 : Nat)
    omega
  unfold firstBlockThread argon2FirstBlocksKernel
  dsimp only
  generalize hid : (UInt32.ofNat t.1).toUInt64 * threadsPerBlock.toUInt32.toUInt64 +
    (UInt32.ofNat t.2).toUInt64 = jobId at hjob
  refine ⟨fun hlow password hget => ?_, fun hhigh => ?_⟩
  · have hin : ¬ jobId ≥ batchSize := by
      rw [ge_iff_le, UInt64.le_iff_toNat_le, hjob]
      omega
    have hmem : password ∈ passwords := List.mem_of_getElem? hget
    have hkeyLen : s.deviceFirstBlockKeyLength.toNat = L :=
      (hs.length password hmem).symm.trans (hL password hmem)
    have hkeyLen32 : s.deviceFirstBlockKeyLength.toUInt32.toNat = L := by
      rw [UInt64.toNat_toUInt32, hkeyLen]
      exact Nat.mod_eq_of_lt (show L < 2 ^ 32 by omega)
    have hcount : jobOf t < passwords.length := by
      rw [hs.count]
      exact hlow
    have hkeyAt : jobOf t * L + L ≤ L * passwords.length := by
      have hle := Nat.mul_le_mul_right L (Nat.succ_le_of_lt hcount)
      rwa [Nat.succ_mul, Nat.mul_comm passwords.length] at hle
    have hoffset : (jobId * s.deviceFirstBlockKeyLength.toUInt32.toUInt64).toNat = jobOf t * L := by
      rw [UInt64.toNat_mul, UInt32.toNat_toUInt64, hkeyLen32, hjob]
      refine Nat.mod_eq_of_lt (Nat.lt_of_le_of_lt ?_ hfits.keys)
      omega
    have hlane : (ARGON2_SYNC_POINTS * segmentBlocks).toNat = 4 * segmentBlocks.toNat := by
      rw [UInt32.toNat_mul]
      exact Nat.mod_eq_of_lt (show 4 * segmentBlocks.toNat < 2 ^ 32 by omega)
    have hbase : (jobId * (ARGON2_SYNC_POINTS * segmentBlocks).toUInt64).toNat =
        jobOf t * (4 * segmentBlocks.toNat) := by
      rw [UInt64.toNat_mul, UInt32.toNat_toUInt64, hlane, hjob]
      have hle := Nat.mul_le_mul_right (4 * segmentBlocks.toNat) (Nat.le_of_lt hcount)
      have hblocks := hfits.blocks
      exact Nat.mod_eq_of_lt (by omega)
    obtain ⟨keys, hkeys, hkeyBytes⟩ := hs.keys
    obtain ⟨salt, hsaltMem, hsaltBytes⟩ := hs.salt
    -- the key of the job in the flat array
    have hpassword : bytesAt (keys.advance (jobOf t * L)) L = password := by
      have hlenFlat := length_flatten hL
      have hslice := flatten_slice hL hget
      rw [← hkeyBytes, drop_bytesAt (by omega), take_bytesAt (by omega)] at hslice
      exact hslice
    have hhash : deviceInitialHash (locals 0) (keys.advance (jobOf t * L))
        s.deviceFirstBlockKeyLength.toUInt32 salt s.deviceFirstBlockSaltLength 64 memoryCost 1
        version type 1 =
          Argon2.initialHash (params saltBytes memoryCost version type) password := by
      rw [device_initial_hash_eq _ _ (by rw [hkeyLen32]; omega) _
        (by rw [hs.saltLength]; exact hsalt), hkeyLen32, hpassword, hs.saltLength, hsaltBytes]
      rfl
    rw [if_neg hin, hkeys, hsaltMem, hoffset, hbase, hs.outputLength, hs.memoryCost, hs.timeCost,
      hs.version, hs.type, hs.lanes]
    simp only [Option.getD_some, hhash, device_store32_eq]
    rw [device_digest_long_eq _ _ (by simp [length_initialHash, length_le32]),
      device_digest_long_eq _ _ (by simp [length_initialHash, length_le32])]
    rfl
  · have hout : jobId ≥ batchSize := by
      rw [ge_iff_le, UInt64.le_iff_toNat_le, hjob]
      omega
    rw [if_pos hout]

/-- No two threads of the grid have the same job. -/
theorem jobOf_injective {g : UInt32} {t t' : ThreadOf g threadsPerBlock.toUInt32}
    (h : jobOf t = jobOf t') : t = t' := by
  have hlt : (t.2 : Nat) < 128 := t.2.isLt
  have hlt' : (t'.2 : Nat) < 128 := t'.2.isLt
  have heq : (t.1 : Nat) * 128 + (t.2 : Nat) = (t'.1 : Nat) * 128 + (t'.2 : Nat) := h
  exact Prod.ext (Fin.ext (by omega)) (Fin.ext (by omega))

/-- Every job of the batch has a thread. -/
theorem exists_jobOf (hbatch : (batchSize.toNat + 127) / 128 < 2 ^ 31) {job : Nat}
    (hjob : job < batchSize.toNat) :
    ∃ t : ThreadOf (grid batchSize) threadsPerBlock.toUInt32, jobOf t = job := by
  have hblock : job / 128 < (grid batchSize).toNat := by
    rw [grid_toNat hbatch]
    omega
  have hthread : job % 128 < threadsPerBlock.toUInt32.toNat := Nat.mod_lt _ (by decide)
  refine ⟨⟨⟨_, hblock⟩, ⟨_, hthread⟩⟩, ?_⟩
  show job / 128 * 128 + job % 128 = job
  omega

/-- What a thread writes is in the memory of its own job. -/
theorem Own.job (hseg : 2 ≤ segmentBlocks.toNat) {g b : UInt32} {t : ThreadOf g b} {a : Nat}
    (h : Own segmentBlocks batchSize t a) : a / (4 * segmentBlocks.toNat * 1024) = jobOf t := by
  obtain ⟨-, hlo, hhi⟩ := h
  rw [Nat.mul_assoc] at hlo hhi
  refine Nat.div_eq_of_lt_le hlo ?_
  rw [Nat.succ_mul]
  omega

/-- Whatever the order of the threads, a launch that has ended left the first blocks of each
job of the batch. -/
theorem runDeviceFirstBlockKernel_result
    (hs : Prepared batchSize passwords saltBytes 64 memoryCost 1 version type 1 s)
    (hL : ∀ p ∈ passwords, p.length = L) (hlt : L < 2 ^ 31)
    (hsalt : 128 + saltBytes.length < 2 ^ 32)
    (hfits : Fits passwords.length L (4 * segmentBlocks.toNat))
    (h2 : 2 ≤ segmentBlocks.toNat) (hseg : segmentBlocks.toNat < 2 ^ 30)
    {locals : ThreadOf (grid batchSize) threadsPerBlock.toUInt32 → Fin 3 → Blake2bState 32}
    {memory : Ptr} {tr c}
    (hr : Run (parallel Nat UInt8 _)
      (s.runDeviceFirstBlockKernel segmentBlocks batchSize locals memory) tr c)
    (hd : AllDone c) {job : Nat} {password : Bytes} (hget : passwords[job]? = some password) :
    bytesAt (Ptr.advance c.world (job * (4 * segmentBlocks.toNat) * 1024)) 2048 =
      firstBlock (params saltBytes memoryCost version type) password 0 0 ++
        firstBlock (params saltBytes memoryCost version type) password 0 1 := by
  have hlen : ∀ (p : Argon2.Params) (pw : Bytes) (i : Nat), (firstBlock p pw 0 i).length = 1024 :=
    fun p pw i => length_longHash 1024 _
  have hlaunched := launched_of_run (R := Own segmentBlocks batchSize) (fun t t' hne a ht ht' => ?_)
    (fun t q hq => ?_) hr
  -- what the thread of this job has written when all are done
  · have hjob : job < batchSize.toNat := by
      rw [← hs.count]
      exact (List.getElem?_eq_some_iff.mp hget).1
    have hbatch : (batchSize.toNat + 127) / 128 < 2 ^ 31 := by
      rw [← hs.count]
      exact hfits.grid
    obtain ⟨t, rfl⟩ := exists_jobOf hbatch hjob
    have hthread :=
      (firstBlockThread_eq hs hL hlt hsalt hfits hseg (locals t) t).1 hjob password hget
    have htwo := storeBytes_two (firstBlock (params saltBytes memoryCost version type) password 0 0)
      (firstBlock (params saltBytes memoryCost version type) password 0 1)
      (jobOf t * (4 * segmentBlocks.toNat) * 1024) memory
    rw [hlen, hlen] at htwo
    rw [← htwo]
    refine List.map_congr_left fun i hi => ?_
    have hi' : i < 2048 := List.mem_range.mp hi
    have hown : Own segmentBlocks batchSize t (jobOf t * (4 * segmentBlocks.toNat) * 1024 + i) :=
      ⟨hjob, Nat.le_add_right _ _, Nat.add_lt_add_left hi' _⟩
    have hcell := hlaunched.final hd rfl hown
    rw [hthread] at hcell
    exact hcell
  -- no two threads write in one job
  · exact hne (jobOf_injective ((ht.job h2).symm.trans (ht'.job h2)))
  -- and each writes in its own
  · rw [← Option.some.inj hq]
    have hthread := firstBlockThread_eq hs hL hlt hsalt hfits hseg (locals t) t
    by_cases hjob : jobOf t < batchSize.toNat
    · have hcount : jobOf t < passwords.length := by
        rw [hs.count]
        exact hjob
      rw [hthread.1 hjob _ (List.getElem?_eq_getElem hcount)]
      refine (storeBytes_stays _ _ fun i hi => ?_).bind fun _ _ => storeBytes_stays _ _
        fun i hi => ?_
      · rw [hlen] at hi
        exact ⟨hjob, by omega, by omega⟩
      · rw [hlen] at hi
        exact ⟨hjob, by omega, by omega⟩
    · rw [hthread.2 hjob]
      trivial

end Threads

end DeviceInputs

/-! ## Both fill in the same blocks -/

/-- The segments of one lane: a quarter of the memory cost, which is at least eight. -/
theorem segmentBlocks_toNat (type version : UInt32) (salt : Bytes) (secret ad : Ptr)
    (m_cost : UInt32) :
    (Argon2Params.new type version 64 salt secret 0 ad 0 1 m_cost.toUInt64 1).segmentBlocks.toNat =
      max m_cost.toNat 8 / 4 := by
  have hm : m_cost.toUInt64.toNat = m_cost.toNat := UInt32.toNat_toUInt64 _
  have hlt : m_cost.toNat < 2 ^ 32 := m_cost.toNat_lt
  have hmax : (max m_cost.toUInt64 8).toNat = max m_cost.toNat 8 := by
    by_cases hle : m_cost.toUInt64 ≤ 8
    · have hnat := UInt64.le_iff_toNat_le.mp hle
      rw [hm, show (8 : UInt64).toNat = 8 from rfl] at hnat
      have h8 : max m_cost.toUInt64 8 = 8 := if_pos hle
      rw [h8, Nat.max_eq_right hnat]
      rfl
    · have hnat : ¬ m_cost.toUInt64.toNat ≤ 8 := fun h => hle (UInt64.le_iff_toNat_le.mpr h)
      rw [hm] at hnat
      have hbig : max m_cost.toUInt64 8 = m_cost.toUInt64 := if_neg hle
      rw [hbig, hm, Nat.max_eq_left (by omega)]
  show (max m_cost.toUInt64 8 / 4).toUInt32.toNat = _
  rw [UInt64.toNat_toUInt32, UInt64.toNat_div, hmax, show (4 : UInt64).toNat = 4 from rfl]
  exact Nat.mod_eq_of_lt (by omega)

theorem segmentBlocks_new (type version : UInt32) (salt : Bytes) (secret ad : Ptr)
    (m_cost : UInt32) :
    let p := Argon2Params.new type version 64 salt secret 0 ad 0 1 m_cost.toUInt64 1
    2 ≤ p.segmentBlocks.toNat ∧ p.segmentBlocks.toNat < 2 ^ 30 := by
  have hlt : m_cost.toNat < 2 ^ 32 := m_cost.toNat_lt
  dsimp only
  rw [segmentBlocks_toNat]
  omega

/-- The kernel, fed by `prepareInputBlocksOnDevice` with the decoded salt, leaves for every job
what `fillFirstBlocks` writes for the same password. -/
theorem first_blocks_agree (type version m_cost : UInt32) (salt : Bytes) (secret ad : Ptr)
    (passwords : List Bytes) (L : Nat) (batchSize : UInt64) (hne : passwords ≠ [])
    (hL : ∀ password ∈ passwords, password.length = L) (hpos : 0 < L) (hlt : L < 2 ^ 31)
    (hsalt : salt ≠ []) (heven : salt.length % 2 = 0)
    (hhex : ∀ c ∈ salt, (hexVal c).isSome = true) (hsaltLen : salt.length < 2 ^ 31)
    (hbatch : batchSize.toNat = passwords.length)
    (hfits : Fits passwords.length L (4 *
      (Argon2Params.new type version 64 salt secret 0 ad 0 1 m_cost.toUInt64
        1).segmentBlocks.toNat)) :
    let p := Argon2Params.new type version 64 salt secret 0 ad 0 1 m_cost.toUInt64 1
    ∃ saltBytes, decodeHexBytes salt = some saltBytes ∧
      let prepare := DeviceInputs.prepareInputBlocksOnDevice batchSize passwords saltBytes p.outLen
        p.m_cost p.t_cost p.version p.type p.lanes
      (∀ answers, none ∉ answers → ∃ ok s rest,
        prepare DeviceInputs.new answers = (some ok, s, rest)) ∧
      ∀ s answers ok s' rest, prepare s answers = (some ok, s', rest) → ok = true ∧
        ∀ locals memory tr c, Run (parallel Nat UInt8 _)
            (s'.runDeviceFirstBlockKernel p.segmentBlocks batchSize locals memory) tr c →
          (∃ tr' c', Run (parallel Nat UInt8 _) c tr' c' ∧ AllDone c') ∧
          (AllDone c → ∀ job password, passwords[job]? = some password →
            p.fillFirstBlocks (array password) (UInt64.ofNat password.length) =
              some (bytesAt
                (Ptr.advance c.world (job * (4 * p.segmentBlocks.toNat) * 1024)) 2048)) := by
  obtain ⟨hhost, hdevice, hdouble⟩ := decode_eq heven hhex
  obtain ⟨h2, hseg⟩ := segmentBlocks_new type version salt secret ad m_cost
  generalize hp : Argon2Params.new type version 64 salt secret 0 ad 0 1 m_cost.toUInt64 1 = p at *
  have hout : p.outLen = 64 := by
    rw [← hp]
    rfl
  have htime : p.t_cost = 1 := by
    rw [← hp]
    rfl
  have hlanes : p.lanes = 1 := by
    rw [← hp]
    rfl
  have hps : hex_to_bytes p.salt = some (hexBytes salt) := by
    rw [← hp]
    exact hhost
  have hdecoded : p.decoded (hexBytes salt) =
      DeviceInputs.params (hexBytes salt) p.m_cost p.version p.type := by
    rw [← hp]
    rfl
  have hsaltPos : 0 < salt.length := List.length_pos_iff.mpr hsalt
  have hhead : (passwords.headD []).length = L := by
    cases passwords with
    | nil => exact absurd rfl hne
    | cons p ps => exact hL p List.mem_cons_self
  -- a batch in the range of the statement passes all checks
  have haccepts : DeviceInputs.Accepts batchSize passwords
    (hexBytes salt) p.outLen p.t_cost p.lanes := by
    refine ⟨hne, hbatch.symm, hout, htime, hlanes,
      fun hnil => ?_, by omega, by omega, by omega, ?_⟩
    · rw [hnil, List.length_nil] at hdouble
      omega
    · rw [hhead]
      exact hL
  have hspec : ∀ fails s, _ := fun fails s => DeviceInputs.prepare_spec fails s batchSize
    passwords (hexBytes salt) p.outLen p.m_cost p.t_cost p.version p.type p.lanes
    (by rw [hhead]; exact hfits.keys)
  refine ⟨hexBytes salt, hdevice, fun answers hnone => ?_, fun s answers ok s' rest hrun => ?_⟩
  · have hret := (hspec False DeviceInputs.new).mono (fun _ _ h => h) fun _ h =>
      h.2 (fun _ => rfl) fun _ => rfl
    obtain ⟨ok, s, rest, hrun, -⟩ := hret.returns hnone
    exact ⟨ok, s, rest, hrun⟩
  -- what the kernel writes, from what the preparation has left in the device
  · obtain ⟨hiff, hprep⟩ := (hspec True s).returned hrun
    have hok : ok = true := hiff.mpr haccepts
    rw [hok, if_pos rfl, hout, htime, hlanes] at hprep
    refine ⟨hok, fun locals memory tr c hr => ⟨exists_completion Finset.univ fun t ht =>
      absurd (Finset.mem_univ t) ht, fun hd job password hget => ?_⟩⟩
    have hmem : password.length = L := hL password (List.mem_of_getElem? hget)
    have hsize : (UInt64.ofNat password.length).toNat = L := by
      rw [hmem]
      exact UInt64.toNat_ofNat_of_lt' (show L < 2 ^ 64 by omega)
    have hbytes : bytesAt (array password) L = password := by
      rw [bytesAt_array (Nat.le_of_eq hmem.symm), List.take_of_length_le (Nat.le_of_eq hmem)]
    rw [DeviceInputs.runDeviceFirstBlockKernel_result hprep hL hlt
      (by omega) hfits h2 hseg hr hd hget,
      p.fillFirstBlocks_eq hps (by omega) _ (by rw [hsize]; omega), hsize, hbytes, hdecoded, hlanes]
    simp

/-- Two jobs with keys of two bytes. -/
theorem first_blocks_agree_two_jobs :
    let p := Argon2Params.new 2 0x13 64 (lit "01ab") (fun _ => 0) 0 (fun _ => 0) 0 1
      (8 : UInt32).toUInt64 1
    ∃ saltBytes s rest, decodeHexBytes (lit "01ab") = some saltBytes ∧
      DeviceInputs.prepareInputBlocksOnDevice 2
        [[1, 2], [3, 4]] saltBytes p.outLen p.m_cost p.t_cost
        p.version p.type p.lanes DeviceInputs.new [] = (some true, s, rest) ∧
      ∃ tr c, Run (parallel Nat UInt8 _) (s.runDeviceFirstBlockKernel p.segmentBlocks 2
          (fun _ _ => ⟨Vector.replicate 8 0, 0, 0, fun _ => 0, 0⟩) fun _ => 0) tr c ∧
            AllDone c ∧
        p.fillFirstBlocks (array [3, 4]) 2 =
          some (bytesAt (Ptr.advance c.world (1 * (4 * p.segmentBlocks.toNat) * 1024)) 2048) := by
  obtain ⟨saltBytes, hsalt, hreturns, hagree⟩ := first_blocks_agree 2 0x13 8 (lit "01ab")
    (fun _ => 0) (fun _ => 0) [[1, 2], [3, 4]] 2 2 (by decide) (by decide) (by decide) (by decide)
    (by decide) (by decide) (by decide) (by decide) (by decide)
    ⟨by decide, by decide, by decide⟩
  obtain ⟨ok, s, rest, hrun⟩ := hreturns [] (by simp)
  obtain ⟨rfl, hkernel⟩ := hagree _ _ _ _ _ hrun
  refine ⟨saltBytes, s, rest, hsalt, hrun, ?_⟩
  obtain ⟨⟨tr, c, hr, hd⟩, -⟩ :=
    hkernel (fun _ _ => ⟨Vector.replicate 8 0, 0, 0, fun _ => 0, 0⟩)
    (fun _ => 0) [] _ (.nil _)
  exact ⟨tr, c, hr, hd, (hkernel _ _ tr c hr).2 hd 1 [3, 4] rfl⟩

end TreeMiner.Gpu

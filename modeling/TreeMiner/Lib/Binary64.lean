import Mathlib

/-!
# Positive normal numbers of binary64

`Float` computes on a mantissa and an exponent and rounds to 53 bits. For positive numbers far
from the ends of the range, an operation gives the exact result up to a relative error of one
unit in the last place (`mul_value`, `div_value`, `ofNat_value`), and the cast to an integer
cuts off (`toUInt64_le`).

The lemmas go down to the definition of the operations in core: the exact result as a mantissa
with more bits, the shift that brings it back to 53, and the rounding of what was shifted out.
`Moderate` keeps the exponents far from overflow and from the subnormal numbers, so no other
case arises.
-/

namespace Binary64

open Float.Model Float.Model.UnpackedFloat

/-! ## Mantissas -/

/-- A shift divides the mantissa, whatever it does to the bits kept for rounding. -/
theorem mantissa_shift (em : ExtendedMantissa) (k : Nat) :
    (em >>> k).mantissa = em.mantissa / 2 ^ k := by
  induction k with
  | zero => exact (Nat.div_one _).symm
  | succ k ih =>
    show (em >>> k).mantissa / 2 = _
    rw [ih, Nat.div_div_eq_div_mul, Nat.pow_succ]

/-- A mantissa is rounded to one of its neighbours. -/
theorem roundedMantissa_bounds (em : ExtendedMantissa) :
    em.mantissa ≤ em.roundedMantissa ∧ em.roundedMantissa ≤ em.mantissa + 1 := by
  obtain ⟨m, r, s⟩ := em
  cases r <;> cases s <;>
    simp only [ExtendedMantissa.roundedMantissa, ExtendedMantissa.accuracy,
      Accuracy.roundToNearestEven] <;>
    omega

theorem ofMantissaAndAccuracy_mantissa (m : Nat) (a : Accuracy) :
    (ExtendedMantissa.ofMantissaAndAccuracy m a).mantissa = m := by
  cases a with
  | exact => rfl
  | inexact o => cases o <;> rfl

/-- What a mantissa of more than 52 bits is cut to. -/
theorem cut_bounds {m : Nat} (hm : 52 ≤ m.log2) :
    2 ^ 52 ≤ m / 2 ^ (m.log2 - 52) ∧ m / 2 ^ (m.log2 - 52) < 2 ^ 53 := by
  have hne : m ≠ 0 := by
    intro h
    rw [h] at hm
    exact absurd hm (by decide)
  have hlow : 2 ^ 52 * 2 ^ (m.log2 - 52) ≤ m := by
    rw [← Nat.pow_add, Nat.add_sub_cancel' hm]
    exact Nat.log2_self_le hne
  have hhigh : m < 2 ^ 53 * 2 ^ (m.log2 - 52) := by
    rw [← Nat.pow_add, show 53 + (m.log2 - 52) = m.log2 + 1 by omega]
    exact Nat.lt_log2_self
  exact ⟨(Nat.le_div_iff_mul_le (Nat.two_pow_pos _)).mpr hlow,
    Nat.div_lt_of_lt_mul (Nat.mul_comm _ _ ▸ hhigh)⟩

/-! ## Rounding -/

/-- The exponent that a number of `m` times a power of two gets, far from the subnormal ones. -/
theorem targetExponent_eq {m : Nat} {e : Int} (h : -1074 ≤ m.log2 + e - 52) :
    Format.binary64.targetExponent (totalExponent m e) = m.log2 + e - 52 := by
  unfold Format.targetExponent totalExponent Format.minExponent Format.mantissaBits
  dsimp only
  omega

/-- A mantissa of 53 bits, with its exponent. -/
structure Normal (m : Nat) (e : Int) : Prop where
  low : 2 ^ 52 ≤ m
  high : m < 2 ^ 53
  small : -1074 ≤ e
  large : e ≤ 971

/-- A normal mantissa has 53 bits. -/
theorem Normal.log2 {m : Nat} {e : Int} (h : Normal m e) : m.log2 = 52 :=
  (Nat.log2_eq_iff (by have := h.low; omega)).mpr ⟨h.low, h.high⟩

/-- The number that a mantissa and an exponent stand for. -/
def value (m : Nat) (e : Int) : ℚ := m * 2 ^ e

/-- Rounding of a mantissa of at least 53 bits: the result is between the neighbours of what
the mantissa is cut to. -/
theorem round_eq {m : Nat} {e : Int} (a : Accuracy) (hm : 52 ≤ m.log2)
    (hsmall : -1074 ≤ m.log2 + e - 52) (hlarge : m.log2 + e - 52 ≤ 970) :
    ∃ r m' e' h, roundWithAccuracy Format.binary64 .positive m e a = .finite .positive m' e' h ∧
      Normal m' e' ∧ m / 2 ^ (m.log2 - 52) ≤ r ∧ r ≤ m / 2 ^ (m.log2 - 52) + 1 ∧
      value m' e' = value r (m.log2 + e - 52) := by
  have htarget : (Format.binary64.targetExponent (totalExponent m e) - e).toNat = m.log2 - 52 := by
    rw [targetExponent_eq hsmall]
    omega
  obtain ⟨hlow, hhigh⟩ := cut_bounds hm
  -- the mantissa after the first shift, and rounded
  let em := ExtendedMantissa.ofMantissaAndAccuracy m a >>> (m.log2 - 52)
  have hem : em.mantissa = m / 2 ^ (m.log2 - 52) := by
    rw [mantissa_shift, ofMantissaAndAccuracy_mantissa]
  obtain ⟨hr, hr'⟩ := roundedMantissa_bounds em
  rw [hem] at hr hr'
  have hfirst : shiftToTargetExponent Format.binary64 m e a = (em, m.log2 + e - 52) := by
    unfold shiftToTargetExponent shiftToExponent
    dsimp only
    rw [htarget]
    refine Prod.ext rfl ?_
    show e + ((m.log2 - 52 : Nat) : Int) = _
    omega
  refine ⟨em.roundedMantissa, ?_⟩
  unfold roundWithAccuracy
  rw [hfirst]
  dsimp only
  generalize em.roundedMantissa = r at hr hr'
  -- the second shift is needed where the rounding carried
  by_cases hcarry : r < 2 ^ 53
  · have hlog : r.log2 = 52 := (Nat.log2_eq_iff (by omega)).mpr ⟨by omega, hcarry⟩
    have hshift : (shiftToTargetExponent Format.binary64 r (m.log2 + e - 52) .exact).1.mantissa =
      r ∧
        (shiftToTargetExponent Format.binary64 r (m.log2 + e - 52) .exact).2 = m.log2 + e - 52 := by
      unfold shiftToTargetExponent shiftToExponent
      dsimp only
      rw [targetExponent_eq (by omega), hlog,
        show ((((52 : Nat) : Int) + (m.log2 + e - 52) - 52) - (m.log2 + e - 52)).toNat = 0 by omega,
        mantissa_shift, ofMantissaAndAccuracy_mantissa]
      exact ⟨Nat.div_one r, by omega⟩
    have hne : r ≠ 0 := by omega
    refine ⟨r, m.log2 + e - 52, Nat.pos_of_ne_zero hne, ?_,
      ⟨by omega, hcarry, hsmall, by omega⟩, hr, hr', rfl⟩
    rw [dif_neg (by rw [hshift.1]; exact hne)]
    congr 1
    · exact hshift.1
    · exact hshift.2
  · have hr53 : r = 2 ^ 53 := by omega
    have hlog : r.log2 = 53 := by rw [hr53, Nat.log2_two_pow]
    have hshift : (shiftToTargetExponent Format.binary64 r (m.log2 + e - 52) .exact).1.mantissa =
      2 ^ 52 ∧
        (shiftToTargetExponent Format.binary64 r (m.log2 + e - 52) .exact).2 = m.log2 + e - 51 := by
      unfold shiftToTargetExponent shiftToExponent
      dsimp only
      rw [targetExponent_eq (by omega), hlog,
        show ((((53 : Nat) : Int) + (m.log2 + e - 52) - 52) - (m.log2 + e - 52)).toNat = 1 by omega,
        mantissa_shift, ofMantissaAndAccuracy_mantissa, hr53]
      exact ⟨by decide, by omega⟩
    refine ⟨2 ^ 52,
      m.log2 +
        e - 51, by decide, ?_, ⟨Nat.le_refl _, by decide, by omega, by omega⟩, hr, hr', ?_⟩
    · rw [dif_neg (by rw [hshift.1]; decide)]
      congr 1
      · exact hshift.1
      · exact hshift.2
    · unfold value
      rw [hr53, show (m.log2 : Int) + e - 51 =
        (m.log2 + e - 52) + 1 by omega, zpow_add_one₀ (by norm_num)]
      push_cast
      ring

/-! ## Relative errors -/

/-- One unit in the last place, relative to the number. -/
def ulp : ℚ := 1 / 2 ^ 52

/-- `y` is `x` up to a relative error of one unit in the last place. -/
structure Near (y x : ℚ) : Prop where
  low : x * (1 - ulp) ≤ y
  high : y ≤ x * (1 + ulp)

/-- A rounded number is within a factor of two of the exact one. -/
theorem Near.double {x y : ℚ} (h : Near y x) (hx : 0 < x) : x / 2 ≤ y ∧ y ≤ 2 * x := by
  have hulp : ulp ≤ 1 / 2 := by
    unfold ulp
    norm_num
  have hlow : x * ulp ≤ x * (1 / 2) := mul_le_mul_of_nonneg_left hulp (le_of_lt hx)
  constructor
  · linarith [h.low]
  · linarith [h.high]

/-- A positive normal number. -/
def Stands (u : Float.Model.UnpackedFloat) (x : ℚ) : Prop :=
  ∃ m e h, u = .finite .positive m e h ∧ Normal m e ∧ x = value m e

/-- With one exponent the value grows with the mantissa. -/
theorem value_mono {m n : Nat} {e : Int} (h : m ≤ n) : value m e ≤ value n e :=
  mul_le_mul_of_nonneg_right (by exact_mod_cast h) (le_of_lt (zpow_pos (by norm_num) e))

/-- A power of two moves from the mantissa to the exponent. -/
theorem value_shift (m k : Nat) (e : Int) : value (m * 2 ^ k) e = value m (e + k) := by
  unfold value
  rw [zpow_add₀ (by norm_num), zpow_natCast]
  push_cast
  ring

/-- What a bound of a number says of its exponent. -/
theorem exponent_le {m : Nat} {e b : Int} (hm : 0 < m) (h : value m e ≤ 2 ^ b) :
    m.log2 + e ≤ b := by
  have hpow : (2 : ℚ) ^ ((m.log2 : Int) + e) ≤ 2 ^ b := by
    refine le_trans ?_ h
    rw [zpow_add₀ (by norm_num), zpow_natCast]
    have hlow : (2 : ℚ) ^ m.log2 ≤ m := by exact_mod_cast Nat.log2_self_le (Nat.ne_of_gt hm)
    exact mul_le_mul_of_nonneg_right hlow (le_of_lt (zpow_pos (by norm_num) e))
  exact (zpow_le_zpow_iff_right₀ (by norm_num)).mp hpow

/-- A value of at least a power of two has that many bits. -/
theorem le_exponent {m : Nat} {e b : Int} (h : 2 ^ b ≤ value m e) : b ≤ m.log2 + e := by
  have hpow : (2 : ℚ) ^ b < 2 ^ ((m.log2 : Int) + 1 + e) := by
    refine lt_of_le_of_lt h ?_
    rw [zpow_add₀ (by norm_num), ← Nat.cast_succ, zpow_natCast]
    have hhigh : (m : ℚ) < 2 ^ (m.log2 + 1) := by exact_mod_cast Nat.lt_log2_self
    exact mul_lt_mul_of_pos_right hhigh (zpow_pos (by norm_num) e)
  have hlt := (zpow_lt_zpow_iff_right₀ (by norm_num)).mp hpow
  omega

/-- The numbers that the bounds below are about. -/
structure Moderate (x : ℚ) : Prop where
  low : 2 ^ (-500 : Int) ≤ x
  high : x ≤ 2 ^ (500 : Int)

/-- A moderate number stays clear of overflow and of the subnormal numbers. -/
theorem exponent_bounds {m : Nat} {e : Int} (hm : 0 < m) {x : ℚ} (hx : Moderate x)
    (hlow : value m e ≤ x) (hhigh : x ≤ value (m + 1) e) :
    -501 ≤ (m.log2 : Int) + e ∧ (m.log2 : Int) + e ≤ 500 := by
  refine ⟨le_exponent ?_, exponent_le hm (le_trans hlow hx.high)⟩
  have hdouble : value (m + 1) e ≤ 2 * value m e := by
    have h2 := value_mono (e := e) (show m + 1 ≤ m * 2 ^ 1 by omega)
    rw [value_shift] at h2
    refine le_trans h2 (le_of_eq ?_)
    unfold value
    rw [Nat.cast_one, zpow_add_one₀ (by norm_num)]
    ring
  have hhalf : (2 : ℚ) ^ (-501 : Int) * 2 = 2 ^ (-500 : Int) := by
    rw [show (-500 : Int) = -501 + 1 by norm_num, zpow_add_one₀ (by norm_num)]
  linarith [hx.low]

/-- Numbers between 2^-80 and 2^80 are moderate. -/
theorem moderate_of {x : ℚ} (hlow : 1 / 2 ^ 80 ≤ x) (hhigh : x ≤ 2 ^ 80) : Moderate x := by
  constructor
  · refine le_trans ?_ hlow
    rw [one_div, ← zpow_natCast, ← zpow_neg]
    exact zpow_le_zpow_right₀ (by norm_num) (by norm_num)
  · refine le_trans hhigh ?_
    rw [← zpow_natCast]
    exact zpow_le_zpow_right₀ (by norm_num) (by norm_num)

/-- A rounded number is near every number between its mantissa and the next. -/
theorem round_near {m : Nat} {e : Int} (a : Accuracy) (hm : 52 ≤ m.log2) {x : ℚ}
    (hx : Moderate x) (hlow : value m e ≤ x) (hhigh : x ≤ value (m + 1) e) :
    ∃ z, Stands (roundWithAccuracy Format.binary64 .positive m e a) z ∧ Near z x := by
  have hpos : 0 < m := Nat.pos_of_ne_zero fun h => by
    rw [h] at hm
    exact absurd hm (by decide)
  obtain ⟨hge, hle⟩ := exponent_bounds hpos hx hlow hhigh
  obtain ⟨r, m', e', h, hround, hnormal, hr, hr', hvalue⟩ :=
    round_eq (e := e) a hm (by omega) (by omega)
  refine ⟨value m' e', ⟨m', e', h, hround, hnormal, rfl⟩, ?_⟩
  rw [hvalue]
  -- the mantissa is between two multiples of the unit of the result
  obtain ⟨hcut, -⟩ := cut_bounds hm
  generalize hk : m.log2 - 52 = k at hr hr' hcut
  have hE : (m.log2 : Int) + e - 52 = e + k := by omega
  rw [hE]
  have hM := Nat.div_add_mod m (2 ^ k)
  have hlt := Nat.mod_lt m (Nat.two_pow_pos k)
  generalize m / 2 ^ k = M at *
  have hbelow : value M (e + k) ≤ x := by
    rw [← value_shift]
    exact le_trans (value_mono (by rw [Nat.mul_comm]; omega)) hlow
  have habove : x ≤ value (M + 1) (e + k) := by
    rw [← value_shift]
    refine le_trans hhigh (value_mono ?_)
    rw [Nat.add_mul, Nat.one_mul, Nat.mul_comm]
    omega
  have hunit : 2 ^ 52 * (2 : ℚ) ^ (e + (k : Int)) ≤ x := by
    refine le_trans ?_ hbelow
    refine le_trans (le_of_eq ?_) (value_mono hcut)
    unfold value
    push_cast
    rfl
  have hsmall : (2 : ℚ) ^ (e + (k : Int)) ≤ x * ulp := by
    unfold ulp
    linarith
  have hnext : value (M + 1) (e + k) = value M (e + k) + 2 ^ (e + (k : Int)) := by
    unfold value
    push_cast
    ring
  have hrlow := value_mono (e := e + k) hr
  have hrhigh := value_mono (e := e + k) hr'
  constructor
  · linarith
  · linarith

/-! ## Operations -/

/-- A float that is this number. -/
def Holds (f : Float) (x : ℚ) : Prop := Stands f.toModel.unpack x

section Words

variable {S : Format} {b : BitVec S.exponentBits} {m : BitVec S.mantissaBitsWithoutImplicit}

/-- A word with neither the least nor the greatest exponent. -/
theorem unpack_packComponents (hb : b ≠ -1#_) (hb0 : b ≠ 0#_) :
    ∃ h, UnpackedFloat.unpack S (packComponents S .positive b m) =
      .finite .positive (1#1 ++ m).toNat
        (b.toNat - (S.exponentBias + S.mantissaBitsWithoutImplicit)) h := by
  refine ⟨by simp, ?_⟩
  unfold UnpackedFloat.unpack
  simp only [unpackMantissa_packComponents, unpackExponent_packComponents,
    unpackSign_packComponents]
  rw [if_neg hb, if_neg hb0]
  rfl

end Words

/-- What is packed can be read back. -/
theorem unpack_pack {m : Nat} {e : Int} (h : 0 < m) (hn : Normal m e) :
    (Float.Model.pack (.finite .positive m e h)).unpack = .finite .positive m e h := by
  have hsmall := hn.small
  have hlarge := hn.large
  have hlow := hn.low
  have hhigh := hn.high
  -- the exponent with its bias
  obtain ⟨b, hb, hbe⟩ : ∃ b : Nat, (e + 1023 + 52).toNat = b ∧ (b : Int) = e + 1075 :=
    ⟨_, rfl, by omega⟩
  have hb11 : (BitVec.ofNat 11 b).toNat = b := by
    rw [BitVec.toNat_ofNat]
    omega
  have hpack : UnpackedFloat.pack Format.binary64 (.finite .positive m e h) =
      packComponents Format.binary64 .positive (BitVec.ofNat 11 b) (BitVec.ofNat 52 m) := by
    show (if 2 ^ 11 ≤ (e + 1023 + 52).toNat + 1 then _ else if m.log2 + 1 = 53 then _ else _) = _
    rw [if_neg (by omega), if_pos (by rw [hn.log2])]
    exact congrArg (fun n => packComponents Format.binary64 .positive (BitVec.ofNat 11 n)
      (BitVec.ofNat 52 m)) hb
  have hnot : BitVec.ofNat 11 b ≠ -1#11 := by
    intro heq
    have hnat := congrArg BitVec.toNat heq
    rw [hb11, show (-1#11).toNat = 2047 by decide] at hnat
    omega
  have hnonzero : BitVec.ofNat 11 b ≠ 0#11 := by
    intro heq
    have hnat := congrArg BitVec.toNat heq
    rw [hb11, show (0#11).toNat = 0 by decide] at hnat
    omega
  have hmantissa : (1#1 ++ BitVec.ofNat 52 m).toNat = m := by
    rw [BitVec.toNat_append, ← Nat.shiftLeft_add_eq_or_of_lt (BitVec.ofNat 52 m).isLt,
      BitVec.toNat_ofNat]
    show 2 ^ 52 + m % 2 ^ 52 = m
    omega
  obtain ⟨h', hunpack⟩ := unpack_packComponents (S := Format.binary64) (m := BitVec.ofNat 52 m)
    hnot hnonzero
  show UnpackedFloat.unpack Format.binary64 (UnpackedFloat.pack Format.binary64 _) = _
  rw [hpack, hunpack]
  congr 1
  show ((BitVec.ofNat 11 b).toNat : Int) - (1023 + 52) = e
  rw [hb11]
  omega

/-- Packing keeps a positive normal number. -/
theorem Stands.pack {u : Float.Model.UnpackedFloat} {x : ℚ} (h : Stands u x) :
    Stands (Float.Model.pack u).unpack x := by
  obtain ⟨m, e, hm, rfl, hn, hx⟩ := h
  exact ⟨m, e, hm, unpack_pack hm hn, hn, hx⟩

variable {f g : Float} {x y : ℚ}

theorem Normal.pos {m : Nat} {e : Int} (h : Normal m e) : 0 < m :=
  Nat.lt_of_lt_of_le (by decide) h.low

/-- A product of moderate size is computed up to one rounding. -/
theorem mul_value (hf : Holds f x) (hg : Holds g y) (hxy : Moderate (x * y)) :
    ∃ z, Holds (f * g) z ∧ Near z (x * y) := by
  obtain ⟨m, e, hm, hfu, hfn, rfl⟩ := hf
  obtain ⟨n, d, hn, hgu, hgn, rfl⟩ := hg
  have hprod : value m e * value n d = value (m * n) (e + d) := by
    unfold value
    rw [zpow_add₀ (by norm_num)]
    push_cast
    ring
  have hlog : 52 ≤ (m * n).log2 := by
    refine (Nat.le_log2 (Nat.ne_of_gt (Nat.mul_pos hm hn))).mpr ?_
    exact Nat.le_trans hfn.low (Nat.le_mul_of_pos_right m hn)
  rw [hprod] at hxy ⊢
  obtain ⟨z, hz, hnear⟩ := round_near .exact hlog hxy (le_refl _) (value_mono (Nat.le_succ _))
  refine ⟨z, Stands.pack ?_, hnear⟩
  rw [hfu, hgu]
  exact hz

/-- And so is a quotient. -/
theorem div_value (hf : Holds f x) (hg : Holds g y) (hxy : Moderate (x / y)) :
    ∃ z, Holds (f / g) z ∧ Near z (x / y) := by
  obtain ⟨m, e, hm, hfu, hfn, rfl⟩ := hf
  obtain ⟨n, d, hn, hgu, hgn, rfl⟩ := hg
  -- the quotient, with 53 bits more
  have hquot : value m e / value n d = (m * 2 ^ 53 : Nat) / n * 2 ^ (e - d - 53) := by
    unfold value
    rw [zpow_sub₀ (by norm_num), zpow_sub₀ (by norm_num)]
    have hn0 : (n : ℚ) ≠ 0 := by exact_mod_cast Nat.ne_of_gt hn
    have hd0 : (2 : ℚ) ^ d ≠ 0 := zpow_ne_zero d (by norm_num)
    push_cast
    field_simp
  have hE : (0 : ℚ) < 2 ^ (e - d - 53) := zpow_pos (by norm_num) _
  have hn' : (0 : ℚ) < n := by exact_mod_cast hn
  have hlow : value (m * 2 ^ 53 / n) (e - d - 53) ≤ value m e / value n d := by
    rw [hquot]
    refine mul_le_mul_of_nonneg_right ?_ (le_of_lt hE)
    rw [le_div_iff₀ hn']
    exact_mod_cast Nat.div_mul_le_self _ _
  have hhigh : value m e / value n d ≤ value (m * 2 ^ 53 / n + 1) (e - d - 53) := by
    rw [hquot]
    refine mul_le_mul_of_nonneg_right ?_ (le_of_lt hE)
    rw [div_le_iff₀ hn']
    exact_mod_cast Nat.le_of_lt (Nat.lt_mul_of_div_lt (Nat.lt_succ_self _) hn)
  have hbits : 2 ^ 52 ≤ m * 2 ^ 53 / n := by
    rw [Nat.le_div_iff_mul_le hn]
    have := hfn.low
    have := hgn.high
    omega
  have hlog : 52 ≤ (m * 2 ^ 53 / n).log2 := (Nat.le_log2 (by omega)).mpr hbits
  have hfew : (m * 2 ^ 53 / n).log2 < 54 := by
    rw [Nat.log2_lt (by omega), Nat.div_lt_iff_lt_mul hn]
    have := hfn.high
    have := hgn.low
    omega
  obtain ⟨hge, -⟩ := exponent_bounds (Nat.lt_of_lt_of_le (by decide) hbits) hxy hlow hhigh
  have hcore : divCore Format.binary64 m e n d =
      (m * 2 ^ 53 / n, e - d - 53, accuracyOfFraction (m * 2 ^ 53 % n) n) := by
    have htarget : min (e - d)
      (Format.binary64.targetExponent (totalExponent m e - totalExponent n d)) =
        e - d - 53 := by
      unfold Format.targetExponent totalExponent Format.minExponent Format.mantissaBits
      rw [hfn.log2, hgn.log2]
      dsimp only
      omega
    unfold divCore
    dsimp only
    rw [htarget, show (e - d - (e - d - 53)).toNat = 53 by omega, Nat.shiftLeft_eq]
  obtain ⟨z, hz, hnear⟩ :=
    round_near (accuracyOfFraction (m * 2 ^ 53 % n) n) hlog hxy hlow hhigh
  refine ⟨z, Stands.pack ?_, hnear⟩
  rw [hfu, hgu]
  have hdiv : UnpackedFloat.div Format.binary64 (.finite .positive m e hm)
    (.finite .positive n d hn) =
      (let (q, c, acc) := divCore Format.binary64 m e n d
      roundWithAccuracy Format.binary64 .positive q c acc) := rfl
  rw [hcore] at hdiv
  exact hdiv ▸ hz

/-- A whole number of at most 64 bits. -/
theorem ofNat_value {n : Nat} (hn : 0 < n) (hlt : n < 2 ^ 64) :
    ∃ z, Stands (UnpackedFloat.ofNat Format.binary64 n) z ∧ Near z n := by
  have hlog : n.log2 < 64 := (Nat.log2_lt (by omega)).mpr hlt
  -- the mantissa is widened to 53 bits
  obtain ⟨k, hk, hbits⟩ : ∃ k : Nat, (0 - ((n.log2 : Int) - 52)).toNat = k ∧
    52 ≤ n.log2 + k :=
    ⟨_, rfl, by omega⟩
  have hwide : (n * 2 ^ k).log2 = n.log2 + k := by
    rw [Nat.log2_eq_iff (Nat.ne_of_gt (Nat.mul_pos hn (Nat.two_pow_pos k))), Nat.pow_add,
      show n.log2 + k + 1 = n.log2 + 1 + k by omega, Nat.pow_add]
    exact ⟨Nat.mul_le_mul_right _ (Nat.log2_self_le (by omega)),
      Nat.mul_lt_mul_of_pos_right Nat.lt_log2_self (Nat.two_pow_pos k)⟩
  have hvalue : value (n * 2 ^ k) (-k) = n := by
    rw [value_shift, neg_add_cancel]
    exact mul_one _
  have hmoderate : Moderate (n : ℚ) := by
    refine moderate_of (le_trans (by norm_num) (show (1 : ℚ) ≤ n by exact_mod_cast hn)) ?_
    exact le_trans (show (n : ℚ) ≤ 2 ^ 64 by exact_mod_cast Nat.le_of_lt hlt) (by norm_num)
  obtain ⟨z, hz, hnear⟩ :=
    round_near (e := -k) .exact (hwide ▸ hbits) hmoderate (le_of_eq hvalue)
    (hvalue ▸ value_mono (Nat.le_succ _))
  refine ⟨z, ?_, hnear⟩
  have htarget : Format.binary64.targetExponent (totalExponent n 0) = n.log2 - 52 := by
    rw [targetExponent_eq (by omega)]
    omega
  unfold UnpackedFloat.ofNat UnpackedFloat.ofInt UnpackedFloat.normalize
  rw [compare_gt_iff_gt.mpr (show (n : Int) > 0 by omega)]
  dsimp only
  unfold UnpackedFloat.round decreaseExponent
  dsimp only
  rw [Int.toNat_natCast, htarget, hk, Nat.shiftLeft_eq, Int.zero_sub]
  exact hz

/-- A 64-bit number is converted up to one rounding. -/
theorem uint64_value {n : UInt64} (hn : 0 < n.toNat) :
    ∃ z, Holds n.toFloat z ∧ Near z n.toNat := by
  obtain ⟨z, hz, hnear⟩ := ofNat_value hn n.toNat_lt
  exact ⟨z, hz.pack, hnear⟩

/-- And so is a 32-bit number. -/
theorem uint32_value {n : UInt32} (hn : 0 < n.toNat) :
    ∃ z, Holds n.toFloat z ∧ Near z n.toNat := by
  obtain ⟨z, hz, hnear⟩ := ofNat_value hn (Nat.lt_trans n.toNat_lt (by decide))
  exact ⟨z, hz.pack, hnear⟩

/-- A constant, from its packed form. -/
theorem holds_const {m : Nat} {e : Int} (hn : Normal m e) :
    Holds (.ofModel (.pack (.finite .positive m e hn.pos))) (value m e) :=
  ⟨m, e, hn.pos, unpack_pack hn.pos hn, hn, rfl⟩

/-- Truncation never gives more than the value. -/
theorem roundToInt_le (m : Nat) (e : Int) :
    ∃ q : Nat, roundToInt .positive m e = q ∧ (q : ℚ) ≤ value m e := by
  refine ⟨(m <<< (e - 0).toNat) / 2 ^ (0 - (e - (e - 0).toNat)).toNat, ?_, ?_⟩
  · unfold roundToInt decreaseExponent shiftToExponent
    dsimp only
    rw [mantissa_shift, ofMantissaAndAccuracy_mantissa]
    rfl
  · obtain ⟨k, rfl | rfl⟩ := e.eq_nat_or_neg
    · rw [show ((k : Int) - 0).toNat = k by omega, show (0 - ((k : Int) - k)).toNat = 0 by omega,
        Nat.shiftLeft_eq, Nat.pow_zero, Nat.div_one]
      unfold value
      rw [zpow_natCast]
      exact_mod_cast le_refl _
    · rw [show (-(k : Int) - 0).toNat =
        0 by omega, show (0 - (-(k : Int) - (0 : Nat))).toNat = k by omega, Nat.shiftLeft_zero]
      unfold value
      rw [zpow_neg, zpow_natCast, ← div_eq_mul_inv, le_div_iff₀ (by positivity)]
      exact_mod_cast Nat.div_mul_le_self _ _

/-- The cast cuts off what is behind the point, and what is beyond the range. -/
theorem toUInt64_le (hf : Holds f x) : (f.toUInt64.toNat : ℚ) ≤ x := by
  obtain ⟨m, e, hm, hfu, -, rfl⟩ := hf
  obtain ⟨q, hq, hle⟩ := roundToInt_le m e
  have hto : f.toUInt64 = UInt64.ofNatClamp (roundToInt .positive m e).toNat := by
    show UInt64.ofNatClamp (f.toModel.unpack.toInt 0 _).toNat = _
    rw [hfu]
    rfl
  have hclamp : (UInt64.ofNatClamp q).toNat ≤ q := by
    unfold UInt64.ofNatClamp
    split
    next => exact Nat.le_refl _
    next hbeyond => exact Nat.le_trans (Nat.sub_le _ _) (Nat.not_lt.mp hbeyond)
  rw [hto, hq, Int.toNat_natCast]
  exact le_trans (by exact_mod_cast hclamp) hle

end Binary64

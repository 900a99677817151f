import Mathlib
import RecordFilter.Json.Basic

/-! The numbers that floats stand for, and the floats of the integers that fit 64 bits only without a sign. From 2^63 on
    every float stands for a multiple of 2048, and the float of an integer stands for one that no other float is nearer
    to the integer than. -/

namespace RecordFilter.Json
open Float.Model Float.Model.UnpackedFloat

/-- The number that a float stands for. The infinities and what is not a number stand for none. -/
def floatValue? (x : Float) : Option ℚ :=
  match x.toModel.unpack with
  | .zero _ => some 0
  | .finite s m e _ => some (s.apply m * 2 ^ e)
  | .infinity _ | .notANumber => none

/-! ### Bits that are dropped -/

/-- The mantissa is what is left of a number without its fraction, and the two bits tell how the fraction compares with
    a half. -/
def Truncates (em : ExtendedMantissa) (q : ℚ) : Prop :=
  match em.roundBit, em.stickyBit with
  | false, false => q = em.mantissa
  | false, true => em.mantissa < q ∧ q < em.mantissa + 1 / 2
  | true, false => q = em.mantissa + 1 / 2
  | true, true => em.mantissa + 1 / 2 < q ∧ q < em.mantissa + 1

/-- Dropping a bit more halves the number. -/
theorem Truncates.shiftRightOne {em : ExtendedMantissa} {q : ℚ} (h : Truncates em q) :
    Truncates em.shiftRightOne (q / 2) := by
  obtain ⟨m, r, s⟩ := em
  obtain ⟨j, rfl | rfl⟩ := Nat.even_or_odd' m
  · have hshift : ExtendedMantissa.shiftRightOne ⟨2 * j, r, s⟩ = ⟨j, false, r || s⟩ := by
      simp [ExtendedMantissa.shiftRightOne]
    rw [hshift]
    cases r <;> cases s <;> simp only [Truncates, Nat.cast_mul, Nat.cast_ofNat, Bool.or_true, Bool.or_false] at h ⊢
    · linarith
    · constructor <;> linarith
    · constructor <;> linarith
    · constructor <;> linarith
  · have hshift : ExtendedMantissa.shiftRightOne ⟨2 * j + 1, r, s⟩ = ⟨j, true, r || s⟩ := by
      simp [ExtendedMantissa.shiftRightOne, Nat.mul_add_div]
    rw [hshift]
    cases r <;> cases s <;>
      simp only [Truncates, Nat.cast_add, Nat.cast_mul, Nat.cast_ofNat, Nat.cast_one, Bool.or_true, Bool.or_false] at h ⊢
    · linarith
    · constructor <;> linarith
    · constructor <;> linarith
    · constructor <;> linarith

theorem truncates_shiftRight (m k : ℕ) : Truncates (ExtendedMantissa.mk m false false >>> k) (m / 2 ^ k) := by
  induction k with
  | zero => simp [Truncates, HShiftRight.hShiftRight, Nat.repeat]
  | succ k ih =>
    have hstep := ih.shiftRightOne
    rwa [div_div, ← pow_succ] at hstep

/-- Rounding goes to the nearest integer. -/
theorem Truncates.rounded {em : ExtendedMantissa} {q : ℚ} (h : Truncates em q) :
    |(em.roundedMantissa : ℚ) - q| ≤ 1 / 2 := by
  obtain ⟨m, r, s⟩ := em
  rw [abs_le]
  cases r <;> cases s <;> simp only [Truncates, ExtendedMantissa.roundedMantissa, ExtendedMantissa.accuracy,
    Accuracy.roundToNearestEven] at h ⊢
  · constructor <;> linarith
  · constructor <;> linarith
  · -- A tie goes down or up.
    rcases Nat.mod_two_eq_zero_or_one m with hbit | hbit <;> rw [hbit] <;> push_cast <;> constructor <;> linarith
  · push_cast
    constructor <;> linarith

/-! ### Rounding the integers without a sign -/

/-- A mantissa that fills its bits is found again behind the one that is implied. -/
theorem unpack_pack {m : ℕ} {e : ℤ} (hpos : 0 < m) (hlow : 2 ^ 52 ≤ m) (hhigh : m < 2 ^ 53) (he : 0 ≤ e) (he' : e ≤ 900) :
    (Float.Model.pack (.finite .positive m e hpos)).unpack = .finite .positive m e hpos := by
  have hlog : m.log2 + 1 = Format.binary64.mantissaBits := by
    rw [(Nat.log2_eq_iff (by omega)).mpr ⟨hlow, hhigh⟩]
    rfl
  obtain ⟨b, hb⟩ : ∃ b : ℕ, (b : ℤ) = e + 1075 := ⟨(e + 1075).toNat, by omega⟩
  have hbiased : (e + Format.binary64.exponentBias + Format.binary64.mantissaBitsWithoutImplicit).toNat = b := by
    show (e + 1023 + 52).toNat = b
    omega
  have hexponent : (BitVec.ofNat 11 b).toNat = b := by
    rw [BitVec.toNat_ofNat, Nat.mod_eq_of_lt (by omega)]
  have hmantissa : (1#1 ++ BitVec.ofNat 52 m).toNat = m := by
    rw [BitVec.toNat_append, ← Nat.shiftLeft_add_eq_or_of_lt (BitVec.isLt _), BitVec.toNat_ofNat]
    show 1 <<< 52 + m % 2 ^ 52 = m
    omega
  have hother : ∀ c : BitVec 11, b ≠ c.toNat → BitVec.ofNat 11 b ≠ c := fun c hne h =>
    hne (hexponent.symm.trans (congrArg BitVec.toNat h))
  have hinfinite : BitVec.ofNat 11 b ≠ -1#11 := hother _ (by show b ≠ 2047; omega)
  have hsubnormal : BitVec.ofNat 11 b ≠ 0#11 := hother _ (by show b ≠ 0; omega)
  show UnpackedFloat.unpack Format.binary64 (UnpackedFloat.pack Format.binary64 (.finite .positive m e hpos)) = _
  rw [UnpackedFloat.pack, hbiased, if_neg (by show ¬2 ^ 11 ≤ b + 1; omega), if_pos hlog, UnpackedFloat.unpack]
  simp only [unpackMantissa_packComponents, unpackExponent_packComponents, unpackSign_packComponents]
  rw [if_neg hinfinite, if_neg hsubnormal]
  have hvalue : ((BitVec.ofNat 11 b).toNat : ℤ) - (1023 + 52) = e := by
    rw [hexponent]
    omega
  congr

/-- The integers that fit 64 bits but not with a sign, cut off below the lowest of 53 bits. -/
theorem shiftToTargetExponent_natural {n : ℕ} (hlow : 2 ^ 63 ≤ n) (hhigh : n < 2 ^ 64) :
    shiftToTargetExponent Format.binary64 (n <<< 53) (-53) .exact =
      (ExtendedMantissa.mk (n <<< 53) false false >>> 64, 11) := by
  have hlog : (n <<< 53).log2 = 116 := by
    rw [Nat.shiftLeft_eq]
    exact (Nat.log2_eq_iff (by omega)).mpr ⟨by omega, by omega⟩
  have htarget : Format.binary64.targetExponent (totalExponent (n <<< 53) (-53)) = 11 := by
    rw [totalExponent, hlog]
    decide
  rw [shiftToTargetExponent, htarget]
  rfl

theorem toModel_ofNat {n : ℕ} (h : 2 ^ 53 ≤ n) : (Float.ofNat n).toModel =
    Float.Model.pack (roundWithAccuracy Format.binary64 .positive (n <<< 53) (-53) .exact) := by
  have hpos : n ≠ 0 := by omega
  have hslow : Float.ofNat n = Float.ofModel (Float.Model.ofScientific n 0) := dif_neg (by omega)
  have hsmall : ¬((0 : ℤ) < -(2 ^ 11 + n.log2)) := by omega
  rw [hslow]
  show Float.Model.pack (UnpackedFloat.ofScientific Format.binary64 n 0) = _
  rw [UnpackedFloat.ofScientific, dif_neg hpos, if_neg (by decide), if_neg hsmall, if_pos (Int.le_refl 0)]
  show Float.Model.pack (roundWithAccuracy Format.binary64 .positive (n <<< 53 * 1) (-53) .exact) = _
  rw [Nat.mul_one]

/-- A mantissa of 53 bits is kept. -/
theorem shiftToTargetExponent_full {m : ℕ} (hlow : 2 ^ 52 ≤ m) (hhigh : m < 2 ^ 53) :
    shiftToTargetExponent Format.binary64 m 11 .exact = (⟨m, false, false⟩, 11) := by
  have htarget : Format.binary64.targetExponent (totalExponent m 11) = 11 := by
    rw [totalExponent, (Nat.log2_eq_iff (by omega)).mpr ⟨hlow, hhigh⟩]
    decide
  rw [shiftToTargetExponent, htarget]
  rfl

/-- Rounded, what is left of such an integer fills 53 bits or is one too large for them. -/
theorem rounded_natural {n r : ℕ} (hlow : 2 ^ 63 ≤ n) (hhigh : n < 2 ^ 64)
    (hr : (ExtendedMantissa.mk (n <<< 53) false false >>> 64).roundedMantissa = r) :
    2 ^ 52 ≤ r ∧ r ≤ 2 ^ 53 ∧ |(r * 2048 : ℚ) - n| ≤ 1024 := by
  have hq : ((n <<< 53 : ℕ) : ℚ) / 2 ^ 64 = n / 2048 := by
    rw [Nat.shiftLeft_eq]
    push_cast
    ring
  have hnear := (truncates_shiftRight (n <<< 53) 64).rounded
  rw [hr, hq, abs_le] at hnear
  have hlow' : (2 ^ 63 : ℚ) ≤ n := by exact_mod_cast hlow
  have hhigh' : (n : ℚ) < 2 ^ 64 := by exact_mod_cast hhigh
  have hlowest : (2 ^ 52 : ℚ) < r + 1 := by linarith
  have hhighest : (r : ℚ) < 2 ^ 53 + 1 := by linarith
  exact ⟨Nat.lt_succ_iff.mp (by exact_mod_cast hlowest), Nat.lt_succ_iff.mp (by exact_mod_cast hhighest),
    abs_le.mpr ⟨by linarith, by linarith⟩⟩

/-- The nearest multiple of 2048 is what the float of such an integer stands for. -/
theorem floatValue?_ofNat {n : ℕ} (hlow : 2 ^ 63 ≤ n) (hhigh : n < 2 ^ 64) :
    ∃ k : ℕ, floatValue? (Float.ofNat n) = some (k * 2048 : ℚ) ∧ |(k * 2048 : ℚ) - n| ≤ 1024 := by
  have hmodel := toModel_ofNat (n := n) (by omega)
  rw [roundWithAccuracy, shiftToTargetExponent_natural hlow hhigh] at hmodel
  dsimp only at hmodel
  generalize hr : (ExtendedMantissa.mk (n <<< 53) false false >>> 64).roundedMantissa = r at hmodel
  obtain ⟨hlowest, hhighest, hnear⟩ := rounded_natural hlow hhigh hr
  refine ⟨r, ?_, hnear⟩
  rcases Nat.lt_or_eq_of_le hhighest with hfits | rfl
  · rw [shiftToTargetExponent_full hlowest hfits, dif_neg (by dsimp only; omega)] at hmodel
    dsimp only at hmodel
    rw [floatValue?, hmodel, unpack_pack _ hlowest hfits (by decide) (by decide)]
    show some (((r : ℤ) : ℚ) * 2 ^ (11 : ℤ)) = _
    norm_num
  · -- One bit too many: the mantissa is halved once more.
    have hcarry : shiftToTargetExponent Format.binary64 (2 ^ 53) 11 .exact = (⟨2 ^ 52, false, false⟩, 12) := rfl
    rw [hcarry, dif_neg (by decide)] at hmodel
    dsimp only at hmodel
    rw [floatValue?, hmodel, unpack_pack _ (by decide) (by decide) (by decide) (by decide)]
    show some ((((2 ^ 52 : ℕ) : ℤ) : ℚ) * 2 ^ (12 : ℤ)) = _
    norm_num

/-! ### The other floats -/

theorem mantissa_lt {v : Float.Model} {sign : Sign} {m : ℕ} {e : ℤ} {hpos : 0 < m}
    (h : v.unpack = .finite sign m e hpos) : m < 2 ^ 53 := by
  unfold Float.Model.unpack UnpackedFloat.unpack at h
  dsimp only at h
  split at h
  · split at h <;> cases h
  · split at h
    · split at h <;> cases h
      exact Nat.lt_trans (BitVec.isLt _) (by decide)
    · cases h
      exact BitVec.isLt (1#1 ++ @unpackMantissa Format.binary64 v.toBits.toBitVec)

/-- From 2^63 on, the numbers of floats are multiples of 2048. -/
theorem floatValue?_multiple {x : Float} {q : ℚ} (h : floatValue? x = some q) (hlow : 2 ^ 63 ≤ q) :
    ∃ k : ℕ, q = k * 2048 := by
  unfold floatValue? at h
  split at h
  · cases h
    norm_num at hlow
  · rename_i sign m e hpos hunpack
    have hm : (m : ℚ) < 2 ^ 53 := by exact_mod_cast mantissa_lt hunpack
    have hpower : (0 : ℚ) < 2 ^ e := zpow_pos (by norm_num) e
    cases sign with
    | negative =>
      cases h
      have hvalue : ((Sign.negative.apply m : ℤ) : ℚ) * 2 ^ e = -(m * 2 ^ e) := by simp [Sign.apply]
      have hnonneg : (0 : ℚ) ≤ m * 2 ^ e := mul_nonneg (Nat.cast_nonneg m) hpower.le
      linarith
    | positive =>
      cases h
      have hvalue : ((Sign.positive.apply m : ℤ) : ℚ) * 2 ^ e = m * 2 ^ e := by simp [Sign.apply]
      rw [hvalue] at hlow ⊢
      have he : 11 ≤ e := by
        by_contra hsmall
        have hpower' : (2 : ℚ) ^ e ≤ 2 ^ (10 : ℤ) := zpow_le_zpow_right₀ (by norm_num) (by omega)
        have hproduct : (m : ℚ) * 2 ^ e ≤ m * 2 ^ (10 : ℤ) := mul_le_mul_of_nonneg_left hpower' (Nat.cast_nonneg m)
        have hbound : (m : ℚ) * 2 ^ (10 : ℤ) < 2 ^ 63 := by
          rw [show (2 : ℚ) ^ (10 : ℤ) = 1024 by norm_num]
          linarith
        exact not_lt_of_ge hlow (hproduct.trans_lt hbound)
      obtain ⟨i, rfl⟩ := Int.le.dest he
      refine ⟨m * 2 ^ i, ?_⟩
      rw [zpow_add₀ (by norm_num)]
      push_cast
      norm_num
      ring
  · cases h
  · cases h

/-- Within 1024 of a number, a multiple of 2048 is as near to it as any other. -/
theorem multiple_nearest {k : ℕ} {q : ℚ} (h : |(k * 2048 : ℚ) - q| ≤ 1024) (j : ℕ) :
    |(k * 2048 : ℚ) - q| ≤ |(j * 2048 : ℚ) - q| := by
  rcases lt_trichotomy j k with hlt | rfl | hlt
  · have hstep : (j + 1 : ℚ) ≤ k := by exact_mod_cast hlt
    refine h.trans (le_abs.mpr (.inr ?_))
    linarith [(abs_le.mp h).2]
  · exact le_refl _
  · have hstep : (k + 1 : ℚ) ≤ j := by exact_mod_cast hlt
    refine h.trans (le_abs.mpr (.inl ?_))
    linarith [(abs_le.mp h).1]

/-- The float of an integer that fits 64 bits only without a sign stands for a number as near to it as that of any other
    float, and for the integer itself if that is a multiple of 2048. -/
theorem floatValue?_ofInt {n : ℤ} (hlow : 2 ^ 63 ≤ n) (hhigh : n < 2 ^ 64) :
    ∃ a, floatValue? (Float.ofInt n) = some a ∧ (∀ y b, floatValue? y = some b → |a - n| ≤ |b - n|) ∧
      (a = n ↔ 2048 ∣ n) := by
  obtain ⟨n, rfl⟩ := Int.eq_ofNat_of_zero_le (show 0 ≤ n by omega)
  obtain ⟨k, hvalue, hnear⟩ := floatValue?_ofNat (n := n) (by omega) (by omega)
  rw [Int.cast_natCast]
  refine ⟨k * 2048, hvalue, fun y b hb => ?_, fun h => ⟨k, ?_⟩, ?_⟩
  · rcases le_or_gt (2 ^ 63) b with hlarge | hsmall
    · obtain ⟨j, rfl⟩ := floatValue?_multiple hb hlarge
      exact multiple_nearest hnear j
    · -- 2^63 itself is a multiple, and nearer than what is smaller.
      have hlow' : (2 ^ 63 : ℚ) ≤ n := by exact_mod_cast hlow
      calc |(k * 2048 : ℚ) - n| ≤ |((2 ^ 52 : ℕ) * 2048 : ℚ) - n| := multiple_nearest hnear (2 ^ 52)
        _ = n - 2 ^ 63 := by
          rw [abs_of_nonpos (by norm_num; linarith)]
          norm_num
        _ ≤ |b - n| := le_abs.mpr (.inr (by linarith))
  · have hcast : k * 2048 = n := by exact_mod_cast h
    omega
  · intro hdvd
    obtain ⟨j, rfl⟩ := Int.natCast_dvd_natCast.mp hdvd
    have hself := multiple_nearest hnear j
    push_cast at hself ⊢
    rw [mul_comm (2048 : ℚ), sub_self, abs_zero] at hself
    linarith [abs_nonpos_iff.mp hself]

end RecordFilter.Json

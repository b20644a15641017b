import Lox.Number.Binary64
import Lox.Number.Format
import Mathlib

/-! # The double nearest to a fraction

What the double nearest to a fraction is depends on the value of the fraction
only: the binade the value lies in gives the exponent, and the value is rounded
to a whole number of steps. A value that is such a number of steps already is
kept. -/

namespace Lox.Binary64

/-- The rational number that a fraction stands for. -/
def Ratio.value (r : Ratio) : ℚ := r.num / r.den

/-- The whole number next to a rational number; of two that are equally near, the even one. -/
def roundEven (q : ℚ) : Nat :=
  if 2 * (q - ⌊q⌋₊) < 1 then ⌊q⌋₊
  else if 1 < 2 * (q - ⌊q⌋₊) then ⌊q⌋₊ + 1
  else ⌊q⌋₊ + ⌊q⌋₊ % 2

/-- The exponent of the doubles around a positive rational number. -/
def exponentAround (q : ℚ) : Int := max (Int.log 2 q - 52) leastExponent

/-- The bits of the double with a significand and an exponent. -/
def stepBits (significand : Nat) (exponent : Int) : Nat :=
  (exponent - leastExponent).toNat * Nat.pow 2 52 + significand

/-- The bits of the double nearest to a rational number. -/
def nearest (q : ℚ) : Nat :=
  if q = 0 then 0
  else min (stepBits (roundEven (q / 2 ^ exponentAround q)) (exponentAround q)) infinityBits

/-- What the significand and the exponent of a finite double are: the significand takes 53 bits, or
fewer with the least exponent. -/
structure Canonical (significand : Nat) (exponent : Int) : Prop where
  fits : significand < 2 ^ 53
  least : leastExponent ≤ exponent
  most : exponent ≤ 971
  full : 2 ^ 52 ≤ significand ∨ exponent = leastExponent

variable {r : Ratio} {n base s : Nat} {e : Int} {q : ℚ}

/-! ## The value of a fraction -/

theorem den_scaled (hbase : 0 < base) : 0 < (Ratio.scaled n base e).den := by
  unfold Ratio.scaled
  split
  · exact Nat.one_pos
  · exact Nat.pow_pos hbase

theorem value_scaled (hbase : 0 < base) : (Ratio.scaled n base e).value = n * (base : ℚ) ^ e := by
  have hne : (base : ℚ) ≠ 0 := by positivity
  unfold Ratio.scaled Ratio.value
  split
  · next hsign =>
    obtain ⟨k, rfl⟩ := Int.eq_ofNat_of_zero_le hsign
    simp
  · next hsign =>
    obtain ⟨k, hk⟩ := Int.eq_ofNat_of_zero_le (a := -e) (by omega)
    obtain rfl : e = -(k : Int) := by omega
    simp [div_eq_mul_inv]

theorem den_shrink (hden : 0 < r.den) (hbase : 0 < base) : 0 < (r.shrink base e).den := by
  unfold Ratio.shrink
  split
  · exact Nat.mul_pos hden (Nat.pow_pos hbase)
  · exact hden

theorem value_shrink (hbase : 0 < base) : (r.shrink base e).value = r.value / (base : ℚ) ^ e := by
  have hne : (base : ℚ) ≠ 0 := by positivity
  unfold Ratio.shrink Ratio.value
  split
  · next hsign =>
    obtain ⟨k, rfl⟩ := Int.eq_ofNat_of_zero_le hsign
    simp [div_div]
  · next hsign =>
    obtain ⟨k, hk⟩ := Int.eq_ofNat_of_zero_le (a := -e) (by omega)
    obtain rfl : e = -(k : Int) := by omega
    simp
    ring

theorem value_pos (hnum : r.num ≠ 0) (hden : 0 < r.den) : 0 < r.value := by
  have hnum : 0 < r.num := Nat.pos_of_ne_zero hnum
  unfold Ratio.value
  positivity

theorem one_le_value (hden : 0 < r.den) : r.den ≤ r.num ↔ 1 ≤ r.value := by
  have hden : (0 : ℚ) < r.den := by positivity
  rw [Ratio.value, one_le_div hden, Nat.cast_le]

/-! ## Rounding -/

/-- What division leaves over is the part behind the point. -/
theorem value_sub_floor (hden : 0 < r.den) :
    ⌊r.value⌋₊ = r.num / r.den ∧ r.value - ⌊r.value⌋₊ = (r.num % r.den : Nat) / r.den := by
  have hfloor : ⌊r.value⌋₊ = r.num / r.den := Nat.floor_div_eq_div r.num r.den
  refine ⟨hfloor, ?_⟩
  have hne : (r.den : ℚ) ≠ 0 := by positivity
  have hsplit : (r.num : ℚ) = r.den * (r.num / r.den : Nat) + (r.num % r.den : Nat) := by
    exact_mod_cast (Nat.div_add_mod r.num r.den).symm
  rw [hfloor, Ratio.value, sub_eq_iff_eq_add, eq_comm, div_add' _ _ _ hne]
  congr 1
  rw [hsplit]
  ring

theorem round_eq (hden : 0 < r.den) : r.round = roundEven r.value := by
  obtain ⟨hfloor, hrest⟩ := value_sub_floor hden
  have hden : (0 : ℚ) < r.den := by positivity
  have hbelow : 2 * ((r.num % r.den : Nat) / r.den : ℚ) < 1 ↔ 2 * (r.num % r.den) < r.den := by
    rw [← mul_div_assoc, div_lt_one hden]
    exact_mod_cast Iff.rfl
  have habove : 1 < 2 * ((r.num % r.den : Nat) / r.den : ℚ) ↔ r.den < 2 * (r.num % r.den) := by
    rw [← mul_div_assoc, one_lt_div hden]
    exact_mod_cast Iff.rfl
  simp only [Ratio.round, roundEven, hrest, hbelow, habove]
  rw [hfloor]

theorem roundEven_natCast : roundEven (n : ℚ) = n := by
  simp [roundEven]

/-! ## The exponent -/

/-- The logarithm is told by the powers around a number. -/
theorem log_eq {k : Int} (hq : 0 < q) (hlow : (2 : ℚ) ^ k ≤ q) (hhigh : q < 2 ^ (k + 1)) :
    Int.log 2 q = k := by
  have hle := (Int.zpow_le_iff_le_log Nat.one_lt_two hq).mp (by exact_mod_cast hlow)
  have hlt := (Int.lt_zpow_iff_log_lt Nat.one_lt_two hq).mp (by exact_mod_cast hhigh)
  omega

theorem natCast_log2 (hn : n ≠ 0) : (2 : ℚ) ^ n.log2 ≤ n ∧ (n : ℚ) < 2 ^ (n.log2 + 1) :=
  ⟨by exact_mod_cast Nat.log2_self_le hn, by exact_mod_cast Nat.lt_log2_self⟩

/-- The logarithms of the parts of a fraction give the one of its value up to one. -/
theorem value_between (hnum : r.num ≠ 0) (hden : r.den ≠ 0) :
    (2 : ℚ) ^ ((r.num.log2 : Int) - r.den.log2 - 1) ≤ r.value ∧
      r.value < 2 ^ ((r.num.log2 : Int) - r.den.log2 + 1) := by
  obtain ⟨hnumLow, hnumHigh⟩ := natCast_log2 hnum
  obtain ⟨hdenLow, hdenHigh⟩ := natCast_log2 hden
  have hpos : (0 : ℚ) < r.den := by positivity
  have hlow : (2 : ℚ) ^ ((r.num.log2 : Int) - r.den.log2 - 1) =
      2 ^ r.num.log2 / 2 ^ (r.den.log2 + 1) := by
    rw [sub_sub, zpow_sub₀ two_ne_zero]
    norm_cast
  have hhigh : (2 : ℚ) ^ ((r.num.log2 : Int) - r.den.log2 + 1) =
      2 ^ (r.num.log2 + 1) / 2 ^ r.den.log2 := by
    rw [sub_add_eq_add_sub, zpow_sub₀ two_ne_zero]
    norm_cast
  rw [hlow, hhigh, Ratio.value]
  constructor
  · exact div_le_div₀ (Nat.cast_nonneg _) hnumLow hpos hdenHigh.le
  · exact div_lt_div₀ hnumHigh hdenLow (by positivity) (by positivity)

theorem exponent_eq (hnum : r.num ≠ 0) (hden : 0 < r.den) : r.exponent = exponentAround r.value := by
  obtain ⟨hlow, hhigh⟩ := value_between hnum hden.ne'
  have hpos := value_pos hnum hden
  simp only [Ratio.exponent, exponentAround, one_le_value (den_shrink hden Nat.two_pos),
    value_shrink Nat.two_pos, Nat.cast_ofNat]
  generalize (r.num.log2 : Int) - r.den.log2 = order at hlow hhigh ⊢
  simp only [one_le_div (zpow_pos (two_pos : (0 : ℚ) < 2) order)]
  split
  · next hle => rw [log_eq hpos hle hhigh]
  · next hlt =>
    rw [log_eq hpos hlow (by simpa using hlt)]
    congr 1
    omega

/-! ## The nearest double -/

theorem value_eq_zero (hden : 0 < r.den) : r.value = 0 ↔ r.num = 0 := by
  have hne : (r.den : ℚ) ≠ 0 := by positivity
  rw [Ratio.value, div_eq_zero_iff, or_iff_left hne, Nat.cast_eq_zero]

/-- **The nearest double is one of the value.** -/
theorem nearestBits_eq (hden : 0 < r.den) : r.nearestBits = nearest r.value := by
  simp only [Ratio.nearestBits, nearest, value_eq_zero hden]
  split
  · rfl
  · next hnum =>
    rw [exponent_eq hnum hden, round_eq (den_shrink hden Nat.two_pos), value_shrink Nat.two_pos]
    rfl

/-- A double is the nearest one to itself. -/
theorem nearest_canonical (h : Canonical s e) : nearest (s * (2 : ℚ) ^ e) = stepBits s e := by
  have hpow : (0 : ℚ) < 2 ^ e := zpow_pos two_pos e
  by_cases hs : s = 0
  · subst hs
    obtain rfl : e = leastExponent := h.full.resolve_left (by decide)
    simp [nearest, stepBits]
  -- The binade of the value has the exponent, whether the significand is full or not.
  have hlog : Int.log 2 (s * (2 : ℚ) ^ e) = s.log2 + e := by
    obtain ⟨hlow, hhigh⟩ := natCast_log2 hs
    refine log_eq (by positivity) ?_ ?_
    · rw [zpow_add₀ two_ne_zero, zpow_natCast]
      exact mul_le_mul_of_nonneg_right hlow hpow.le
    · rw [add_right_comm, zpow_add₀ two_ne_zero]
      exact mul_lt_mul_of_pos_right (by exact_mod_cast hhigh) hpow
  have haround : exponentAround (s * (2 : ℚ) ^ e) = e := by
    have hbelow : s.log2 < 53 := (Nat.log2_lt hs).mpr h.fits
    have hleast := h.least
    rw [exponentAround, hlog]
    rcases h.full with hfull | rfl
    · have habove : 52 ≤ s.log2 := (Nat.le_log2 hs).mpr hfull
      omega
    · omega
  have hfinite : stepBits s e ≤ infinityBits := by
    have hfits := h.fits
    have hmost := h.most
    simp only [stepBits, infinityBits, leastExponent, Nat.pow_eq] at *
    omega
  have hvalue : (s : ℚ) * 2 ^ e ≠ 0 := by positivity
  rw [nearest, if_neg hvalue, haround, mul_div_cancel_right₀ _ hpow.ne',
    roundEven_natCast, min_eq_left hfinite]

end Lox.Binary64

/-! # Doubles and their bits

The bits of a finite double are its sign, and behind it the bits of its
significand and exponent. The doubles without a sign are told by these bits, and
negation gives the others. -/

namespace Lox.Binary64
open Float.Model.UnpackedFloat Lox.Number

variable {x : Float} {n : Nat}

/-! ## The fields of a double -/

theorem toNat_exponent (b : BitVec 64) :
    (@unpackExponent .binary64 b).toNat = b.toNat / 2 ^ 52 % 2 ^ 11 := by
  rw [unpackExponent_def, BitVec.extractLsb'_toNat, Nat.shiftRight_eq_div_pow]

theorem toNat_mantissa (b : BitVec 64) :
    (@unpackMantissa .binary64 b).toNat = b.toNat % 2 ^ 52 := by
  rw [unpackMantissa_def, BitVec.extractLsb'_toNat, Nat.shiftRight_zero]

theorem toNat_sign (b : BitVec 64) :
    (@unpackSign .binary64 b).toNat = b.toNat / 2 ^ 63 % 2 := by
  rw [unpackSign_def, BitVec.extractLsb'_toNat, Nat.shiftRight_eq_div_pow]
  rfl

theorem exponent_eq_ones (b : BitVec 64) :
    @unpackExponent .binary64 b = -1#_ ↔
      b.toNat / 2 ^ 52 % 2 ^ 11 = 0x7FF := by
  rw [← BitVec.toNat_inj, toNat_exponent]
  rfl

/-- A double is finite if its exponent is not the greatest one. -/
theorem isFinite_iff : x.isFinite = true ↔ x.toBits.toNat / 2 ^ 52 % 2 ^ 11 ≠ 0x7FF := by
  show (unpack .binary64 x.toBits.toBitVec).isFinite = true ↔ _
  rw [Ne, ← UInt64.toNat_toBitVec, ← exponent_eq_ones]
  fun_cases unpack with
  | case1 _ _ _ _ hones => exact iff_of_false nofun (not_not_intro hones)
  | case2 _ _ hones => exact iff_of_false nofun (not_not_intro hones)
  | case3 _ _ _ _ hones => exact iff_of_true rfl hones
  | case4 _ _ _ _ _ hones => exact iff_of_true rfl hones
  | case5 _ _ _ _ _ hones => exact iff_of_true rfl hones

/-- The parts of a finite double. -/
theorem parts_of_isFinite (h : x.isFinite = true) : ∃ significand exponent,
    parts x = .finite (decide (2 ^ 63 ≤ x.toBits.toNat)) significand exponent ∧
      Canonical significand exponent ∧ magnitudeBits x = stepBits significand exponent := by
  have hones := isFinite_iff.mp h
  have hlt := x.toBits.toNat_lt
  simp only [parts, Parts.ofBits, magnitudeBits, stepBits, leastExponent, Nat.pow_eq] at *
  generalize x.toBits.toNat = bits at *
  rw [Nat.mod_eq_of_lt hlt, if_neg hones]
  split
  · next hzero =>
    exact ⟨_, _, rfl, ⟨by omega, le_rfl, by decide, .inr rfl⟩, by omega⟩
  · next hzero =>
    refine ⟨_, _, rfl, ⟨by omega, ?_, by omega, .inl (by omega)⟩, by omega⟩
    rw [leastExponent]
    omega

/-! ## Doubles of bits -/

/-- Bits that are not greater than those of infinity are the bits of a double. -/
theorem toBits_ofBits (h : n ≤ infinityBits) : (Float.ofBits (UInt64.ofNat n)).toBits.toNat = n := by
  have hbound : infinityBits = 2047 * 2 ^ 52 := rfl
  have hnat : (UInt64.ofNat n).toNat = n := UInt64.toNat_ofNat_of_lt' (by simp only [UInt64.size]; omega)
  have hmantissa := toNat_mantissa (UInt64.ofNat n).toBitVec
  have hnan : @isNaNBits .binary64 (UInt64.ofNat n).toBitVec = false := by
    refine decide_eq_false fun hnan => hnan.2 (BitVec.eq_of_toNat_eq ?_)
    have hones := (exponent_eq_ones _).mp hnan.1
    rw [UInt64.toNat_toBitVec, hnat] at hones hmantissa
    rw [hmantissa, BitVec.toNat_zero]
    omega
  have hpack : (Float.ofBits (UInt64.ofNat n)).toBits.toBitVec = (UInt64.ofNat n).toBitVec := by
    refine (pack_unpack _).trans ?_
    rw [hnan]
    rfl
  rw [← UInt64.toNat_toBitVec, hpack, UInt64.toNat_toBitVec, hnat]

/-- A double without a sign is told by its magnitude. -/
theorem ofBits_magnitude (h : x.toBits.toNat < 2 ^ 63) :
    Float.ofBits (UInt64.ofNat (magnitudeBits x)) = x := by
  rw [magnitudeBits, Nat.pow_eq, Nat.mod_eq_of_lt h, UInt64.ofNat_toNat, Float.ofBits_toBits]

theorem magnitude_lt (h : x.isFinite = true) : magnitudeBits x < infinityBits := by
  have hones := isFinite_iff.mp h
  have hbound : infinityBits = 2047 * 2 ^ 52 := rfl
  rw [magnitudeBits, Nat.pow_eq]
  omega

/-- A finite double with a sign is the negation of the one without it. -/
theorem neg_ofBits_magnitude (h : x.isFinite = true) (hsign : 2 ^ 63 ≤ x.toBits.toNat) :
    -Float.ofBits (UInt64.ofNat (magnitudeBits x)) = x := by
  have hlt := x.toBits.toNat_lt
  have hbits := toBits_ofBits (magnitude_lt h).le
  generalize Float.ofBits (UInt64.ofNat (magnitudeBits x)) = y at hbits ⊢
  rw [magnitudeBits, Nat.pow_eq] at hbits
  have hneg : (unpack .binary64 y.toBits.toBitVec).neg =
      unpack .binary64 x.toBits.toBitVec := by
    have hsignX : @unpackSign .binary64 x.toBits.toBitVec = 1#1 := by
      refine BitVec.eq_of_toNat_eq ((toNat_sign _).trans ?_)
      rw [UInt64.toNat_toBitVec, BitVec.toNat_one Nat.one_pos]
      omega
    have hsignY : @unpackSign .binary64 y.toBits.toBitVec = 0#1 := by
      refine BitVec.eq_of_toNat_eq ((toNat_sign _).trans ?_)
      rw [UInt64.toNat_toBitVec, BitVec.toNat_zero]
      omega
    have hexponent : @unpackExponent .binary64 y.toBits.toBitVec =
        @unpackExponent .binary64 x.toBits.toBitVec := by
      refine BitVec.eq_of_toNat_eq ((toNat_exponent _).trans (.trans ?_ (toNat_exponent _).symm))
      rw [UInt64.toNat_toBitVec, UInt64.toNat_toBitVec]
      omega
    have hmantissa : @unpackMantissa .binary64 y.toBits.toBitVec =
        @unpackMantissa .binary64 x.toBits.toBitVec := by
      refine BitVec.eq_of_toNat_eq ((toNat_mantissa _).trans (.trans ?_ (toNat_mantissa _).symm))
      rw [UInt64.toNat_toBitVec, UInt64.toNat_toBitVec]
      omega
    simp only [unpack, hsignX, hsignY, hexponent, hmantissa]
    split
    · split <;> rfl
    · split
      · split <;> rfl
      · rfl
  rw [← Float.toBits_inj, ← UInt64.toBitVec_inj]
  show pack .binary64
    (unpack .binary64 y.toBits.toBitVec).neg = _
  rw [hneg]
  exact pack_unpack_of_valid x.toModel.valid

end Lox.Binary64

import Lox.Proofs.Number.Rounding
import Lox.Proofs.Token.Lexemes

/-! # Written numbers are read back

A numeral is what a number literal may look like, with the number it writes. A
finite double is written as a numeral, with a sign before it where it has one,
and the double nearest to the numeral is the written one without its sign. -/

namespace Lox
open Binary64

/-- A run of digits, with a point and more digits or without, that writes a number. -/
inductive Numeral : List Char → ℚ → Prop
  | whole {digits : List Char} {q : ℚ} (hsome : digits ≠ []) (hdigits : ∀ d ∈ digits, d.isDigit)
      (hvalue : (Nat.ofDigitChars 10 digits 0 : ℚ) = q) : Numeral digits q
  | fraction {digits behind : List Char} {q : ℚ} (hsome : digits ≠ [])
      (hdigits : ∀ d ∈ digits, d.isDigit) (hmore : behind ≠ []) (hbehind : ∀ d ∈ behind, d.isDigit)
      (hvalue : (Nat.ofDigitChars 10 (digits ++ behind) 0 : ℚ) * 10 ^ (-behind.length : Int) = q) :
      Numeral (digits ++ '.' :: behind) q

/-- The number that a decimal stands for. -/
def Decimal.value (d : Decimal) : ℚ := d.digits * 10 ^ d.exponent

variable {d : Decimal} {n bits significand : Nat} {exponent : Int} {text : List Char} {q : ℚ}
  {tie : Decimal.Tie} {x : Float} {f : Number.Format}

/-! ## Decimals -/

namespace Decimal

theorem nearestBits_eq (d : Decimal) : d.nearestBits = nearest d.value := by
  have hden : 0 < d.ratio.den := den_scaled (by decide)
  have hvalue : d.ratio.value = d.value := value_scaled (by decide)
  rw [Decimal.nearestBits, Binary64.nearestBits_eq hden, hvalue]

theorem value_stripZeros (fuel : Nat) (d : Decimal) : (d.stripZeros fuel).value = d.value := by
  fun_induction stripZeros fuel d with
  | case1 => rfl
  | case2 fuel d hzero ih =>
    have hdigits : (d.digits : ℚ) = (d.digits / 10 : Nat) * 10 := by
      exact_mod_cast (Nat.div_mul_cancel (Nat.dvd_of_mod_eq_zero hzero.2)).symm
    rw [ih, value, value, hdigits, zpow_add_one₀ (by norm_num)]
    ring
  | case3 => rfl

/-- A candidate reads back: it has been tried. -/
theorem nearestBits_candidate {r : Ratio} {count : Nat} (h : candidate tie bits r count = some d) :
    d.nearestBits = bits := by
  unfold candidate at h
  dsimp only at h
  generalize Decimal.mk _ (magnitude r - count) = lower at h
  generalize Decimal.mk _ (magnitude r - count) = upper at h
  split at h
  · next hlower hupper =>
    obtain rfl := Option.some.inj h
    rw [apply_ite Decimal.nearestBits, of_decide_eq_true hlower, of_decide_eq_true hupper, ite_self]
  · next hlower _ =>
    obtain rfl := Option.some.inj h
    exact of_decide_eq_true hlower
  · next _ hupper =>
    obtain rfl := Option.some.inj h
    exact of_decide_eq_true hupper
  · cases h

theorem value_exact : (exact significand exponent).value = significand * (2 : ℚ) ^ exponent := by
  unfold exact value
  split
  · next hsign =>
    obtain ⟨k, rfl⟩ := Int.eq_ofNat_of_zero_le hsign
    simp
  · next hsign =>
    obtain ⟨k, hk⟩ := Int.eq_ofNat_of_zero_le (a := -exponent) (by omega)
    obtain rfl : exponent = -(k : Int) := by omega
    have hten : (10 : ℚ) = 2 * 5 := by norm_num
    have hfive : (5 : ℚ) ^ k ≠ 0 := by positivity
    simp only [neg_neg, Int.toNat_natCast, Nat.pow_eq, Nat.cast_mul, Nat.cast_pow, Nat.cast_ofNat,
      zpow_neg, zpow_natCast, hten, mul_pow]
    field_simp

/-- The shortest decimal of a double has it as its nearest double. -/
theorem nearest_shortest (h : nearest (significand * (2 : ℚ) ^ exponent) = bits) :
    nearest (shortest tie bits significand exponent).value = bits := by
  rw [shortest, value_stripZeros]
  cases hfound : (List.range' 1 17).findSome?
      (candidate tie bits (.scaled significand 2 exponent)) with
  | none => rw [Option.getD_none, value_exact, h]
  | some d =>
    obtain ⟨count, -, hcount⟩ := List.exists_of_findSome?_eq_some hfound
    rw [Option.getD_some, ← nearestBits_eq, nearestBits_candidate hcount]

end Decimal

/-! ## Numerals -/

theorem digits_toDigits (n : Nat) : ∀ c ∈ Nat.toDigits 10 n, c.isDigit = true :=
  fun _ => Nat.isDigit_of_mem_toDigits (by decide) (by decide)

theorem digits_zeros (k : Nat) : ∀ c ∈ List.replicate k '0', c.isDigit = true := by
  intro c hc
  rw [List.eq_of_mem_replicate hc]
  rfl

theorem digits_append {cs ds : List Char} (hcs : ∀ c ∈ cs, c.isDigit = true)
    (hds : ∀ c ∈ ds, c.isDigit = true) : ∀ c ∈ cs ++ ds, c.isDigit = true :=
  List.forall_mem_append.mpr ⟨hcs, hds⟩

theorem ofDigitChars_zero (n : Nat) : Nat.ofDigitChars 10 ['0'] n = 10 * n :=
  Nat.ofDigitChars_replicate_zero (n := 1)

theorem numeral_toDigits (n : Nat) : Numeral (Nat.toDigits 10 n) n :=
  .whole Nat.toDigits_ne_nil (digits_toDigits n) (by rw [Nat.ofDigitChars_ten_toDigits])

/-- A point and a zero behind a whole number leave it as it is. -/
theorem numeral_point_zero (n : Nat) : Numeral (Nat.toDigits 10 n ++ ['.', '0']) n := by
  refine .fraction Nat.toDigits_ne_nil (digits_toDigits n) (List.cons_ne_nil _ _)
    (digits_zeros 1) ?_
  rw [Nat.ofDigitChars_append, Nat.ofDigitChars_ten_toDigits, ofDigitChars_zero]
  simp [mul_comm]

/-- What is written without an exponent is a numeral. -/
theorem numeral_positional (d : Decimal) : Numeral d.positional d.value := by
  have hread : Nat.ofDigitChars 10 d.text 0 = d.digits := Nat.ofDigitChars_ten_toDigits
  have htext := digits_toDigits d.digits
  unfold Decimal.positional Decimal.value
  dsimp only
  split
  · next hsign =>
    obtain ⟨k, hk⟩ := Int.eq_ofNat_of_zero_le hsign
    refine .whole (fun h => Nat.toDigits_ne_nil (List.append_eq_nil_iff.mp h).1)
      (digits_append htext (digits_zeros _)) ?_
    rw [Nat.ofDigitChars_append, Nat.ofDigitChars_replicate_zero, hread, hk]
    simp [mul_comm]
  · next hsign =>
    split
    · next hpoint =>
      have hlength : (d.text.drop d.pointAt.toNat).length = (-d.exponent).toNat := by
        rw [List.length_drop]
        simp only [Decimal.pointAt] at hpoint ⊢
        omega
      refine .fraction (fun h => ?_) (fun c hc => htext c (List.mem_of_mem_take hc))
        (fun h => ?_) (fun c hc => htext c (List.mem_of_mem_drop hc)) ?_
      · have hnone := congrArg List.length h
        have hpos : 0 < d.text.length := List.length_pos_of_ne_nil Nat.toDigits_ne_nil
        rw [List.length_take, List.length_nil] at hnone
        omega
      · rw [h, List.length_nil] at hlength
        omega
      · rw [List.take_append_drop, hread, hlength, Int.toNat_of_nonneg (by omega), neg_neg]
    · next hpoint =>
      have hlength : (List.replicate (-d.pointAt).toNat '0' ++ d.text).length =
          (-d.exponent).toNat := by
        rw [List.length_append, List.length_replicate]
        simp only [Decimal.pointAt] at hpoint ⊢
        omega
      refine .fraction (List.cons_ne_nil '0' []) (digits_zeros 1)
        (fun h => Nat.toDigits_ne_nil (List.append_eq_nil_iff.mp h).2)
        (digits_append (digits_zeros _) htext) ?_
      rw [hlength, Int.toNat_of_nonneg (by omega), neg_neg, Nat.ofDigitChars_append,
        Nat.ofDigitChars_append, ofDigitChars_zero, Nat.ofDigitChars_replicate_zero, Nat.mul_zero,
        hread]

/-- A numeral is a lexeme, of the double nearest to what it writes. -/
theorem Numeral.lexeme (h : Numeral text q) :
    Lexer.Lexeme (.number (Float.ofBits (UInt64.ofNat (nearest q)))) text := by
  have hfloat (digits behind : List Char) : (Decimal.ofText digits behind).toFloat =
      Float.ofBits (UInt64.ofNat (nearest (Decimal.ofText digits behind).value)) := by
    rw [Decimal.toFloat, Decimal.nearestBits_eq]
  cases h with
  | whole hsome hdigits hvalue =>
    have hq : (Decimal.ofText text []).value = q := by
      simp [Decimal.ofText, Decimal.value, hvalue]
    rw [← hq, ← hfloat]
    exact .whole hsome hdigits
  | @fraction digits behind _ hsome hdigits hmore hbehind hvalue =>
    have hq : (Decimal.ofText digits behind).value = q := hvalue
    rw [← hq, ← hfloat]
    exact .fraction hsome hdigits hmore hbehind

/-! ## Doubles -/

theorem nearestBits_le (r : Ratio) : r.nearestBits ≤ infinityBits := by
  unfold Ratio.nearestBits
  split
  · exact Nat.zero_le _
  · exact Nat.min_le_right ..

theorem isFinite_of_toFloat (h : d.toFloat.isInf = false) :
    d.toFloat.isFinite = true ∧ d.toFloat.toBits.toNat < 2 ^ 63 := by
  have hle := nearestBits_le d.ratio
  have hbits : d.toFloat.toBits.toNat = d.nearestBits := toBits_ofBits hle
  have hbound : infinityBits = 2047 * 2 ^ 52 := rfl
  have hne : d.nearestBits ≠ infinityBits := by
    intro heq
    rw [Decimal.toFloat, heq] at h
    exact absurd h (by decide +kernel)
  unfold Decimal.nearestBits at hbits hne
  refine ⟨isFinite_iff.mpr ?_, ?_⟩ <;> omega

/-- A number literal writes no number below zero, and nothing but numbers. -/
theorem isFinite_of_lexeme (h : Lexer.Lexeme (.number x) text) (hinf : x.isInf = false) :
    x.isFinite = true ∧ x.toBits.toNat < 2 ^ 63 := by
  cases h with
  | whole => exact isFinite_of_toFloat hinf
  | fraction => exact isFinite_of_toFloat hinf

namespace Number

theorem value_of_whole (h : whole? significand exponent = some n) :
    (n : ℚ) = significand * (2 : ℚ) ^ exponent := by
  unfold whole? at h
  split at h
  · next hsign =>
    obtain ⟨k, rfl⟩ := Int.eq_ofNat_of_zero_le hsign
    obtain rfl := Option.some.inj h
    simp
  · next hsign =>
    obtain ⟨k, hk⟩ := Int.eq_ofNat_of_zero_le (a := -exponent) (by omega)
    obtain rfl : exponent = -(k : Int) := by omega
    dsimp only at h
    split at h
    · next hzero =>
      obtain rfl := Option.some.inj h
      have hunit : (2 : ℚ) ^ k ≠ 0 := by positivity
      have hmul : (significand : ℚ) = (significand / 2 ^ k : Nat) * 2 ^ k := by
        have hdvd : 2 ^ k ∣ significand := by simpa using Nat.dvd_of_mod_eq_zero hzero
        exact_mod_cast (Nat.div_mul_cancel hdvd).symm
      simp only [neg_neg, Int.toNat_natCast, Nat.pow_eq, zpow_neg, zpow_natCast]
      exact (eq_mul_inv_iff_mul_eq₀ hunit).mpr hmul.symm
    · cases h

/-- **A finite double is written as a lexeme of it**, with its sign before the lexeme. -/
theorem exists_lexeme_of_isFinite (hf : f ∈ [Format.value, Format.literal])
    (h : x.isFinite = true) : ∃ text,
      (f.write x).toList = signed (decide (2 ^ 63 ≤ x.toBits.toNat)) text ∧
      Lexer.Lexeme (.number (Float.ofBits (UInt64.ofNat (magnitudeBits x)))) text := by
  obtain ⟨significand, exponent, hparts, hcanonical, hbits⟩ := parts_of_isFinite h
  have hnearest : nearest (significand * (2 : ℚ) ^ exponent) = magnitudeBits x :=
    (nearest_canonical hcanonical).trans hbits.symm
  have hsigned : f.signedZero = true := by
    rcases List.mem_pair.mp hf with rfl | rfl <;> rfl
  rw [Format.write, hparts]
  dsimp only
  cases hwhole : whole? significand exponent with
  | none =>
    refine ⟨_, String.toList_ofList, ?_⟩
    have hlexeme := (numeral_positional
      (Decimal.shortest .up (magnitudeBits x) significand exponent)).lexeme
    rwa [Decimal.nearest_shortest hnearest] at hlexeme
  | some n =>
    refine ⟨Nat.toDigits 10 n ++ f.wholeTail.toList, ?_, ?_⟩
    · rw [String.toList_append, String.toList_ofList, hsigned, Bool.true_or, Bool.and_true]
      cases decide (2 ^ 63 ≤ x.toBits.toNat) <;> rfl
    · rw [← hnearest, ← value_of_whole hwhole]
      rcases List.mem_pair.mp hf with rfl | rfl
      · exact (List.append_nil _).symm ▸ (numeral_toDigits n).lexeme
      · exact (numeral_point_zero n).lexeme

/-- What is written of a finite double without a sign is a lexeme of it. -/
theorem lexeme_write (hf : f ∈ [Format.value, Format.literal]) (h : x.isFinite = true)
    (hsign : x.toBits.toNat < 2 ^ 63) : Lexer.Lexeme (.number x) (f.write x).toList := by
  obtain ⟨text, htext, hlexeme⟩ := exists_lexeme_of_isFinite hf h
  rw [decide_eq_false (Nat.not_le.mpr hsign)] at htext
  rwa [htext, ← ofBits_magnitude hsign]

end Number
end Lox

import Lox.Number
import Mathlib

/-!
Doubles as exact rationals, and the decimal of six significant digits that is nearest to one of them.
-/

namespace Lox.Number

def absolute (bits : UInt64) : ℚ :=
  let exponent : ℕ := bits.toNat / 2 ^ 52 % 2 ^ 11
  let fraction : ℕ := bits.toNat % 2 ^ 52
  if exponent = 0 then (fraction / 2 ^ 52) * 2 ^ (-1022 : ℤ)
  else (1 + fraction / 2 ^ 52) * 2 ^ ((exponent : ℤ) - 1023)

theorem sign_iff (bits : UInt64) : sign bits = true ↔ 2 ^ 63 ≤ bits.toNat := by
  have hlt := bits.toNat_lt
  have hshift : (bits >>> 63).toNat = bits.toNat / 2 ^ 63 := by simp [Nat.shiftRight_eq_div_pow]
  rw [sign, bne_iff_ne, ne_eq, ← UInt64.toNat_inj, hshift]
  simp only [UInt64.toNat_zero]
  omega

theorem toNat_exponentField (bits : UInt64) :
    exponentField bits = bits.toNat / 2 ^ 52 % 2 ^ 11 := by
  have h : bits.toNat >>> 52 &&& 2 ^ 11 - 1 = bits.toNat / 2 ^ 52 % 2 ^ 11 := by
    rw [Nat.and_two_pow_sub_one_eq_mod, Nat.shiftRight_eq_div_pow]
  simpa [exponentField] using h

theorem toNat_fraction (bits : UInt64) : fraction bits = bits.toNat % 2 ^ 52 := by
  have h : bits.toNat &&& 2 ^ 52 - 1 = bits.toNat % 2 ^ 52 := Nat.and_two_pow_sub_one_eq_mod _ _
  simpa [fraction] using h

theorem absolute_eq (bits : UInt64) : absolute bits =
    if exponentField bits = 0 then (fraction bits / 2 ^ 52 : ℚ) * 2 ^ (-1022 : ℤ)
    else (1 + fraction bits / 2 ^ 52 : ℚ) * 2 ^ ((exponentField bits : ℤ) - 1023) := by
  rw [absolute, toNat_exponentField, toNat_fraction]

theorem isZero_iff (bits : UInt64) : isZero bits = true ↔ exponentField bits = 0 ∧ fraction bits = 0 := by
  have hlt := bits.toNat_lt
  have hshift : (bits <<< 1).toNat = bits.toNat * 2 % 2 ^ 64 := by
    simp [Nat.shiftLeft_eq]
  rw [isZero, beq_iff_eq, ← UInt64.toNat_inj, hshift, toNat_exponentField, toNat_fraction]
  simp only [UInt64.toNat_zero]
  omega

theorem magnitude_pos (bits : UInt64) : 0 < (magnitude bits).2 := by
  simp only [magnitude]
  split
  · exact Nat.one_pos
  · exact Nat.two_pow_pos _

theorem units_eq (m : ℕ) (q : ℤ) (x : ℕ × ℕ)
    (hx : x = if 0 ≤ q then (m * 2 ^ q.toNat, 1) else (m, 2 ^ (-q).toNat)) :
    (x.1 : ℚ) / x.2 = m * 2 ^ q := by
  subst hx
  split
  · next h =>
    push_cast
    rw [div_one, ← zpow_natCast (2 : ℚ), Int.toNat_of_nonneg h]
  · next h =>
    push_cast
    rw [← zpow_natCast (2 : ℚ), Int.toNat_of_nonneg (by omega), div_eq_mul_inv, ← zpow_neg, neg_neg]

theorem magnitude_eq (bits : UInt64) :
    ((magnitude bits).1 : ℚ) / (magnitude bits).2 = absolute bits := by
  rw [units_eq _ _ (magnitude bits) rfl, absolute_eq]
  have h52 (q : ℤ) : (2 : ℚ) ^ q = 2 ^ (q - 52) * 2 ^ (52 : ℕ) := by
    rw [← zpow_natCast, ← zpow_add₀ two_ne_zero]
    congr 1
    norm_num
  by_cases h : exponentField bits = 0
  · have he : (((max 0 1 : ℕ) : ℤ) - 1075) = -1022 - 52 := by norm_num
    rw [if_pos h, if_pos h, h, h52 (-1022), he]
    generalize (2 : ℚ) ^ (-1022 - 52 : ℤ) = u
    field_simp
  · have he : (exponentField bits : ℤ) - 1023 - 52 = exponentField bits - 1075 := by ring
    rw [if_neg h, if_neg h, Nat.max_eq_left (by omega), h52 ((exponentField bits : ℤ) - 1023), he]
    push_cast
    field_simp
    ring

theorem absolute_eq_zero_iff (bits : UInt64) : absolute bits = 0 ↔ isZero bits = true := by
  rw [isZero_iff, absolute_eq]
  split
  · next h => simp [h]
  · next h =>
    have hpos : (0 : ℚ) < 1 + fraction bits / 2 ^ 52 := by positivity
    simp [h, hpos.ne', zpow_ne_zero]

theorem digitCount_pos {n : ℕ} (hn : n ≠ 0) : digitCount n = digitCount (n / 10) + 1 := by
  rw [digitCount, if_neg hn]

theorem digitCount_bounds {n : ℕ} (hn : n ≠ 0) :
    10 ^ (digitCount n - 1) ≤ n ∧ n < 10 ^ digitCount n := by
  induction n using Nat.strong_induction_on with
  | _ n ih =>
    rw [digitCount_pos hn, Nat.add_sub_cancel]
    by_cases hlt : n / 10 = 0
    · rw [hlt, digitCount, if_pos rfl]
      omega
    · obtain ⟨hle, hgt⟩ := ih (n / 10) (by omega) hlt
      have hc := digitCount_pos hlt
      rw [hc, Nat.add_sub_cancel] at hle
      rw [hc] at hgt ⊢
      rw [Nat.pow_succ] at hgt ⊢
      rw [Nat.pow_succ]
      omega

theorem decimalExponent_bounds {num den : ℕ} (hnum : 0 < num) (hden : 0 < den) :
    (10 : ℚ) ^ decimalExponent num den ≤ num / den ∧
      (num / den : ℚ) < 10 ^ (decimalExponent num den + 1) := by
  have hden' : (0 : ℚ) < den := by exact_mod_cast hden
  have hnum' : (0 : ℚ) < num := by exact_mod_cast hnum
  unfold decimalExponent
  split
  · next hle =>
    have hq : num / den ≠ 0 := (Nat.div_pos hle hden).ne'
    obtain ⟨hlo, hhi⟩ := digitCount_bounds hq
    have hc := digitCount_pos hq
    set c := digitCount (num / den) with hcdef
    have hc1 : ((c : ℤ) - 1) = ((c - 1 : ℕ) : ℤ) := by omega
    constructor
    · rw [le_div_iff₀ hden', hc1, zpow_natCast]
      exact_mod_cast (Nat.le_div_iff_mul_le hden).mp hlo
    · rw [div_lt_iff₀ hden', sub_add_cancel, zpow_natCast]
      exact_mod_cast (Nat.div_lt_iff_lt_mul hden).mp hhi
  · next hlt =>
    -- The place of the first digit is read off the reciprocal, rounded up.
    have hk : (den + num - 1) / num - 1 ≠ 0 := by
      have : 2 ≤ (den + num - 1) / num := (Nat.le_div_iff_mul_le hnum).mpr (by omega)
      omega
    obtain ⟨hlo, hhi⟩ := digitCount_bounds hk
    have hc := digitCount_pos hk
    set k := (den + num - 1) / num - 1 with hkdef
    set c := digitCount k with hcdef
    have hceil : (den + num - 1) / num = k + 1 := by omega
    have hbelow : k * num < den := by
      have hmul := Nat.div_mul_le_self (den + num - 1) num
      rw [hceil, Nat.succ_mul] at hmul
      omega
    have habove : den ≤ (k + 1) * num := by
      have hmul := Nat.lt_div_mul_add (a := den + num - 1) hnum
      rw [hceil] at hmul
      omega
    have hup : (10 : ℕ) ^ (c - 1) * num < den :=
      lt_of_le_of_lt (Nat.mul_le_mul_right _ hlo) hbelow
    have hdown : den ≤ 10 ^ c * num := habove.trans (Nat.mul_le_mul_right _ hhi)
    constructor
    · rw [le_div_iff₀ hden', zpow_neg, zpow_natCast, inv_mul_le_iff₀ (by positivity)]
      exact_mod_cast hdown
    · have he : -(c : ℤ) + 1 = -((c - 1 : ℕ) : ℤ) := by omega
      rw [div_lt_iff₀ hden', he, zpow_neg, zpow_natCast, lt_inv_mul_iff₀ (by positivity)]
      exact_mod_cast hup

theorem roundDiv_bounds (num : ℕ) {den : ℕ} (hden : 0 < den) :
    2 * num ≤ (2 * roundDiv num den + 1) * den ∧ 2 * roundDiv num den * den ≤ 2 * num + den ∧
      (2 * num = (2 * roundDiv num den + 1) * den ∨ 2 * roundDiv num den * den = 2 * num + den →
        roundDiv num den % 2 = 0) := by
  have hsplit := Nat.div_add_mod num den
  have hlt := Nat.mod_lt num hden
  unfold roundDiv
  generalize num / den = q at *
  generalize num % den = r at *
  have h₁ : (2 * q + 1) * den = 2 * (den * q) + den := by ring
  have h₂ : 2 * q * den = 2 * (den * q) := by ring
  have h₃ : (2 * (q + 1) + 1) * den = 2 * (den * q) + 3 * den := by ring
  have h₄ : 2 * (q + 1) * den = 2 * (den * q) + 2 * den := by ring
  simp only
  split
  · omega
  · split
    · omega
    · split <;> omega

theorem roundDiv_near (num : ℕ) {den : ℕ} (hden : 0 < den) :
    |(num / den : ℚ) - roundDiv num den| ≤ 1 / 2 := by
  obtain ⟨hle, hge, -⟩ := roundDiv_bounds num hden
  have hden' : (0 : ℚ) < den := by exact_mod_cast hden
  have hle' : 2 * (num : ℚ) ≤ (2 * roundDiv num den + 1) * den := by exact_mod_cast hle
  have hge' : 2 * (roundDiv num den : ℚ) * den ≤ 2 * num + den := by exact_mod_cast hge
  rw [abs_le, neg_le_sub_iff_le_add, sub_le_iff_le_add, div_le_iff₀ hden', ← sub_le_iff_le_add,
    le_div_iff₀ hden']
  constructor <;> linarith

theorem roundDiv_even (num : ℕ) {den : ℕ} (hden : 0 < den)
    (h : |(num / den : ℚ) - roundDiv num den| = 1 / 2) : Even (roundDiv num den) := by
  have hden' : (0 : ℚ) < den := by exact_mod_cast hden
  rw [Nat.even_iff]
  apply (roundDiv_bounds num hden).2.2
  obtain h | h := (abs_eq (by norm_num)).mp h
  · left
    rw [sub_eq_iff_eq_add, div_eq_iff hden'.ne'] at h
    have h' : 2 * (num : ℚ) = (2 * roundDiv num den + 1) * den := by rw [h]; ring
    exact_mod_cast h'
  · right
    rw [sub_eq_iff_eq_add, div_eq_iff hden'.ne'] at h
    have h' : 2 * (roundDiv num den : ℚ) * den = 2 * num + den := by rw [h]; ring
    exact_mod_cast h'

namespace Decimal

def IsNormal (d : Decimal) : Prop :=
  100000 ≤ d.digits ∧ d.digits < 1000000

def value (d : Decimal) : ℚ :=
  d.digits * 10 ^ (d.exponent - 5)

/-- A decimal of six digits as near to a number as any other is; of two that are equally near it has
the even digits. -/
structure IsNearest (d : Decimal) (x : ℚ) : Prop where
  normal : d.IsNormal
  le : ∀ d' : Decimal, d'.IsNormal → |x - d.value| ≤ |x - d'.value|
  even : ∀ d' : Decimal, d'.IsNormal → d'.value ≠ d.value → |x - d'.value| = |x - d.value| →
    Even d.digits

theorem IsNormal.value_lt {d : Decimal} (h : d.IsNormal) : d.value < 10 ^ (d.exponent + 1) := by
  have hlt : (d.digits : ℚ) < 10 ^ 6 := by exact_mod_cast h.2
  have he : (10 : ℚ) ^ (d.exponent + 1) = 10 ^ (6 : ℕ) * 10 ^ (d.exponent - 5) := by
    rw [← zpow_natCast, ← zpow_add₀ (by norm_num)]
    congr 1
    norm_num
    ring
  rw [value, he]
  exact mul_lt_mul_of_pos_right hlt (by positivity)

theorem exists_units (d : Decimal) {e : ℤ} (he : e ≤ d.exponent) :
    ∃ m : ℕ, d.value = m * 10 ^ (e - 5) := by
  refine ⟨d.digits * 10 ^ (d.exponent - e).toNat, ?_⟩
  push_cast
  rw [value, mul_assoc, ← zpow_natCast (10 : ℚ), Int.toNat_of_nonneg (by omega),
    ← zpow_add₀ (by norm_num)]
  congr 2
  ring

section Units

variable {x u : ℚ} {e : ℤ} {d : ℕ}

theorem le_abs_sub_of_units (hu : 0 < u) (hd : |x / u - d| ≤ 1 / 2) (m : ℕ) :
    |x - d * u| ≤ |x - m * u| ∧
      ((m : ℚ) * u ≠ d * u → |x - m * u| = |x - d * u| → |x / u - d| = 1 / 2) := by
  have hscale (n : ℕ) : |x - n * u| = |x / u - n| * u := by
    rw [← abs_of_pos hu, ← abs_mul, abs_of_pos hu, sub_mul, div_mul_cancel₀ _ hu.ne']
  rw [hscale, hscale]
  by_cases hm : m = d
  · subst hm
    exact ⟨le_rfl, fun h => absurd rfl h⟩
  · -- Another number of units is a whole unit away, and so half a unit at least.
    have hone : (1 : ℚ) ≤ |(m : ℚ) - d| := by
      have h : (1 : ℤ) ≤ |(m : ℤ) - d| := Int.one_le_abs (by omega)
      exact_mod_cast h
    have htriangle : |(m : ℚ) - d| ≤ |x / u - d| + |x / u - m| := by
      have h := abs_sub_le (m : ℚ) (x / u) d
      rwa [abs_sub_comm (m : ℚ) (x / u), add_comm] at h
    refine ⟨mul_le_mul_of_nonneg_right (by linarith) hu.le, fun _ h => ?_⟩
    have heq : |x / u - m| = |x / u - d| := mul_right_cancel₀ hu.ne' h
    linarith

theorem abs_sub_lt_of_below (hu : u = 10 ^ (e - 5)) (hx : 100000 ≤ x / u) (hd : |x / u - d| ≤ 1 / 2)
    {d' : Decimal} (hd' : d'.IsNormal) (he : d'.exponent < e) : |x - d * u| < |x - d'.value| := by
  have hpos : 0 < u := hu ▸ by positivity
  have hleast : d'.value < 100000 * u := by
    have h10 : (100000 : ℚ) * u = 10 ^ e := by
      rw [hu, show (100000 : ℚ) = 10 ^ (5 : ℤ) by norm_num, ← zpow_add₀ (by norm_num)]
      congr 1
      ring
    rw [h10]
    exact hd'.value_lt.trans_le (zpow_le_zpow_right₀ (by norm_num) (by omega))
  have hx' : 100000 * u ≤ x := (le_div_iff₀ hpos).mp hx
  have hunits := (le_abs_sub_of_units hpos hd 100000).1
  push_cast at hunits
  rw [abs_of_nonneg (by linarith : 0 ≤ x - 100000 * u)] at hunits
  rw [abs_of_pos (by linarith : 0 < x - d'.value)]
  linarith

theorem isNearest_of_units (hu : u = 10 ^ (e - 5)) (hx : 100000 ≤ x / u) (hd : |x / u - d| ≤ 1 / 2)
    (heven : |x / u - d| = 1 / 2 → Even d) {r : Decimal} (hr : r.IsNormal) (hvalue : r.value = d * u)
    (hdigits : Even d → Even r.digits) : r.IsNearest x where
  normal := hr
  le d' hd' := by
    rw [hvalue]
    by_cases he : e ≤ d'.exponent
    · obtain ⟨m, hm⟩ := d'.exists_units he
      rw [hm, ← hu]
      exact (le_abs_sub_of_units (hu ▸ by positivity) hd m).1
    · exact (abs_sub_lt_of_below hu hx hd hd' (by omega)).le
  even d' hd' hne heq := by
    rw [hvalue] at hne heq
    by_cases he : e ≤ d'.exponent
    · obtain ⟨m, hm⟩ := d'.exists_units he
      rw [hm, ← hu] at hne heq
      exact hdigits (heven ((le_abs_sub_of_units (hu ▸ by positivity) hd m).2 hne heq))
    · exact absurd heq (abs_sub_lt_of_below hu hx hd hd' (by omega)).ne'

end Units

theorem exists_quotient (num : ℕ) {den : ℕ} (hden : 0 < den) (shift : ℤ) :
    ∃ n m : ℕ, 0 < m ∧ (n / m : ℚ) = num / den / 10 ^ shift ∧
      (if 0 ≤ shift then roundDiv num (den * 10 ^ shift.toNat)
        else roundDiv (num * 10 ^ (-shift).toNat) den) = roundDiv n m := by
  split
  · next h =>
    refine ⟨num, den * 10 ^ shift.toNat, by positivity, ?_, rfl⟩
    push_cast
    rw [← zpow_natCast (10 : ℚ), Int.toNat_of_nonneg h, div_mul_eq_div_div]
  · next h =>
    refine ⟨num * 10 ^ (-shift).toNat, den, hden, ?_, rfl⟩
    push_cast
    rw [← zpow_natCast (10 : ℚ), Int.toNat_of_nonneg (by omega), zpow_neg, ← div_eq_mul_inv,
      div_right_comm]

theorem nearest_isNearest {num den : ℕ} (hnum : 0 < num) (hden : 0 < den) :
    (nearest num den).IsNearest (num / den) := by
  obtain ⟨hlo, hhi⟩ := decimalExponent_bounds hnum hden
  obtain ⟨n, m, hm, hquot, hround⟩ := exists_quotient num hden (decimalExponent num den - 5)
  simp only [nearest, Nat.pow_eq, hround]
  generalize decimalExponent num den = e at *
  have hnear := roundDiv_near n hm
  have heven := roundDiv_even n hm
  rw [hquot] at hnear heven
  generalize roundDiv n m = d at *
  have hu : (0 : ℚ) < 10 ^ (e - 5) := by positivity
  have hx : (100000 : ℚ) ≤ num / den / 10 ^ (e - 5) := by
    rw [le_div_iff₀ hu, show (100000 : ℚ) = 10 ^ (5 : ℤ) by norm_num, ← zpow_add₀ (by norm_num)]
    simpa using hlo
  have hx' : (num / den / 10 ^ (e - 5) : ℚ) < 1000000 := by
    rw [div_lt_iff₀ hu, show (1000000 : ℚ) = 10 ^ (6 : ℤ) by norm_num, ← zpow_add₀ (by norm_num),
      show (6 : ℤ) + (e - 5) = e + 1 by ring]
    exact hhi
  obtain ⟨hbelow, habove⟩ := abs_le.mp hnear
  have hd : 100000 ≤ d := by
    have h : (99999 : ℚ) < d := by linarith
    have : 99999 < d := by exact_mod_cast h
    omega
  have hd' : d ≤ 1000000 := by
    have h : (d : ℚ) < 1000001 := by linarith
    have : d < 1000001 := by exact_mod_cast h
    omega
  split
  · next h =>
    have hcarried : Even 100000 := by decide
    refine isNearest_of_units rfl hx hnear heven ⟨le_rfl, by norm_num⟩ ?_ (fun _ => hcarried)
    rw [h, value]
    push_cast
    rw [show e + 1 - 5 = 1 + (e - 5) by ring, zpow_add₀ (by norm_num)]
    norm_num
    ring
  · next h =>
    have hlt : d < 1000000 := by omega
    exact isNearest_of_units rfl hx hnear heven ⟨hd, hlt⟩ rfl id

end Decimal

end Lox.Number

namespace Lox.Number

open Float.Model (Format)
open Float.Model.UnpackedFloat

variable (b : BitVec 64)

theorem packComponents_fields : packComponents .binary64 (.ofBitVec (@unpackSign .binary64 b))
    (@unpackExponent .binary64 b) (@unpackMantissa .binary64 b) = b := by
  have hsign (s : BitVec 1) : (Sign.ofBitVec s).toBitVec = s := by
    revert s
    decide
  have htop : @unpackSign .binary64 b = b.extractLsb 63 63 := rfl
  simp only [packComponents, hsign, htop, unpackExponent, unpackMantissa, BitVec.extractLsb]
  apply BitVec.eq_of_getElem_eq
  grind

theorem toNat_unpackExponent (bits : UInt64) :
    (@unpackExponent .binary64 bits.toBitVec).toNat = exponentField bits := by
  rw [toNat_exponentField]
  simp [unpackExponent, Nat.shiftRight_eq_div_pow]

theorem toNat_unpackMantissa (bits : UInt64) :
    (@unpackMantissa .binary64 bits.toBitVec).toNat = fraction bits := by
  rw [toNat_fraction]
  simp [unpackMantissa]

theorem toNat_implicit (m : BitVec 52) : (1#1 ++ m).toNat = 2 ^ 52 + m.toNat := by
  rw [BitVec.toNat_append, ← Nat.shiftLeft_add_eq_or_of_lt m.isLt]
  simp [Nat.shiftLeft_eq]

theorem log2_eq {n k : ℕ} (hlo : 2 ^ k ≤ n) (hhi : n < 2 ^ (k + 1)) : n.log2 = k := by
  have hne : n ≠ 0 := by
    have := Nat.two_pow_pos k
    omega
  have := (Nat.le_log2 hne).mpr hlo
  have := (Nat.log2_lt hne).mpr hhi
  omega

theorem pack_subnormal (s : Sign) (m : BitVec 52) {e : ℤ} (he : e = -1074) (hpos : 0 < m.toNat) :
    pack .binary64 (.finite s m.toNat e hpos) = packComponents .binary64 s 0#11 m := by
  subst he
  have hm : m.toNat < 2 ^ 52 := m.isLt
  have hlog : ¬ m.toNat.log2 + 1 = 53 := by
    have := (Nat.log2_lt hpos.ne').mpr hm
    omega
  have hpack : pack .binary64 (.finite s m.toNat (-1074) hpos) =
      if m.toNat.log2 + 1 = 53 then packComponents .binary64 s 1#11 (.ofNat 52 m.toNat)
      else packComponents .binary64 s 0#11 (.ofNat 52 m.toNat) := rfl
  rw [hpack, if_neg hlog]
  congr 1
  simp

theorem pack_normal (s : Sign) (e : BitVec 11) (m : BitVec 52) (he : e ≠ -1#11)
    (hpos : 0 < (1#1 ++ m).toNat) :
    pack .binary64 (.finite s (1#1 ++ m).toNat ((e.toNat : ℤ) - (1023 + 52)) hpos) =
      packComponents .binary64 s e m := by
  have hm : m.toNat < 2 ^ 52 := m.isLt
  have hlog : (1#1 ++ m).toNat.log2 = 52 := by
    rw [toNat_implicit]
    exact log2_eq (Nat.le_add_right _ _) (by omega)
  have hbias : ((e.toNat : ℤ) - (1023 + 52) + 1023 + 52).toNat = e.toNat := by omega
  have hsmall : ¬ 2 ^ 11 ≤ e.toNat + 1 := by
    have hlt : e.toNat < 2 ^ 11 := e.isLt
    have hne : e.toNat ≠ 2 ^ 11 - 1 := fun h => he (BitVec.toNat_inj.mp h)
    omega
  have hpack (k : ℕ) (hk : ((e.toNat : ℤ) - (1023 + 52) + 1023 + 52).toNat = k) :
      pack .binary64 (.finite s (1#1 ++ m).toNat ((e.toNat : ℤ) - (1023 + 52)) hpos) =
        if 2 ^ 11 ≤ k + 1 then packedInfinity .binary64 s
        else if (1#1 ++ m).toNat.log2 + 1 = 53 then
          packComponents .binary64 s (.ofNat 11 k) (.ofNat 52 (1#1 ++ m).toNat)
        else packComponents .binary64 s 0#11 (.ofNat 52 (1#1 ++ m).toNat) := by
    subst hk
    rfl
  rw [hpack _ hbias, hlog, if_neg hsmall, if_pos rfl, toNat_implicit]
  congr 1
  · simp
  · apply BitVec.eq_of_toNat_eq
    rw [BitVec.toNat_ofNat]
    omega

theorem pack_unpack (hnan : @unpackExponent .binary64 b = -1#11 →
    @unpackMantissa .binary64 b = 0#52) : pack .binary64 (unpack .binary64 b) = b := by
  have hwhole := packComponents_fields b
  unfold unpack
  dsimp only
  split
  · next he =>
    rw [if_pos (hnan he)]
    rw [he, hnan he] at hwhole
    exact hwhole
  · next he =>
    split
    · next hzero =>
      split
      · next hm =>
        rw [hzero, hm] at hwhole
        exact hwhole
      · have he : ((@unpackExponent .binary64 b).toNat : ℤ) - (1023 + 52) + 1 = -1074 := by
          rw [hzero]
          rfl
        rw [hzero] at hwhole
        exact (pack_subnormal _ _ he _).trans hwhole
    · exact (pack_normal _ _ _ he _).trans hwhole

theorem toBits_ofBits {bits : UInt64} (h : isNaN bits = false) : (Float.ofBits bits).toBits = bits := by
  refine UInt64.toBitVec_inj.mp (pack_unpack bits.toBitVec fun he => ?_)
  have hexponent : exponentField bits = 0x7ff := by
    rw [← toNat_unpackExponent, he]
    rfl
  have hfraction : fraction bits = 0 := by
    simpa [isNaN, hexponent] using h
  rw [← toNat_unpackMantissa] at hfraction
  exact BitVec.toNat_inj.mp hfraction

theorem isNaN_toBits_ofBits {bits : UInt64} (h : isNaN bits = true) :
    isNaN (Float.ofBits bits).toBits = true := by
  obtain ⟨hexponent, hfraction⟩ : exponentField bits = 0x7ff ∧ fraction bits ≠ 0 := by
    simpa [isNaN] using h
  have he : @unpackExponent .binary64 bits.toBitVec = -1#11 :=
    BitVec.toNat_inj.mp ((toNat_unpackExponent bits).trans hexponent)
  have hm : @unpackMantissa .binary64 bits.toBitVec ≠ 0#52 := by
    intro hm
    rw [← toNat_unpackMantissa, hm] at hfraction
    exact hfraction rfl
  have hunpack : unpack .binary64 bits.toBitVec = .notANumber := by
    unfold unpack
    dsimp only
    rw [if_pos he, if_neg hm]
  have hword : (Float.ofBits bits).toBits = 0x7ff8000000000000 := by
    refine UInt64.toBitVec_inj.mp ?_
    show pack .binary64 (unpack .binary64 bits.toBitVec) = _
    rw [hunpack]
    rfl
  rw [hword]
  decide

end Lox.Number

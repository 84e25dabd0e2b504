import Mathlib.Tactic.IntervalCases
import Lox.Proofs.Number.Rounding

namespace Lox.Number

def digitsValue (ds : Bytes) : ℕ :=
  ds.foldl (fun n c => n * 10 + (c.toNat - 48)) 0

structure IsWhole (ds : Bytes) : Prop where
  digits : ∀ c ∈ ds, isDigit c = true
  ne_nil : ds ≠ []
  head : ds.head? = some 48 → ds = [48]

inductive IsFraction : Bytes → ℚ → Prop where
  | none : IsFraction [] 0
  | point (ds : Bytes) (digits : ∀ c ∈ ds, isDigit c = true) (ne_nil : ds ≠ [])
      (last : ds.getLast? ≠ some 48) : IsFraction (46 :: ds) (digitsValue ds / 10 ^ ds.length)

/-- A number in plain notation. -/
def IsPlain (text : Bytes) (x : ℚ) : Prop :=
  ∃ whole fraction f, text = whole ++ fraction ∧ IsWhole whole ∧ IsFraction fraction f ∧
    x = digitsValue whole + f

def IsExponent (text : Bytes) (e : ℤ) : Prop :=
  ∃ ds, text = (if 0 ≤ e then 43 else 45) :: ds ∧ (∀ c ∈ ds, isDigit c = true) ∧
    2 ≤ ds.length ∧ (2 < ds.length → ds.head? ≠ some 48) ∧ digitsValue ds = e.natAbs

/-- A number in scientific notation with the given exponent. -/
def IsScientific (text : Bytes) (e : ℤ) (x : ℚ) : Prop :=
  ∃ c fraction f exponent, text = c :: fraction ++ 101 :: exponent ∧
    isDigit c = true ∧ c ≠ 48 ∧ IsFraction fraction f ∧ IsExponent exponent e ∧
    x = (digitsValue [c] + f) * 10 ^ e

theorem digitsValue_append (ds es : Bytes) :
    digitsValue (ds ++ es) = digitsValue ds * 10 ^ es.length + digitsValue es := by
  have hfrom (es : Bytes) (n : ℕ) :
      es.foldl (fun n c => n * 10 + (c.toNat - 48)) n = n * 10 ^ es.length + digitsValue es := by
    induction es generalizing n with
    | nil => simp [digitsValue]
    | cons c es ih =>
      rw [digitsValue, List.foldl_cons, List.foldl_cons, ih, ih, List.length_cons, pow_succ]
      ring
  rw [digitsValue, List.foldl_append, hfrom, ← digitsValue]

theorem digitsValue_replicate (n : ℕ) : digitsValue (List.replicate n 48) = 0 := by
  induction n with
  | zero => rfl
  | succ n ih => rw [List.replicate_succ', digitsValue_append, ih]; rfl

theorem toNat_digit {d : ℕ} (h : d < 10) : (48 + d).toUInt8.toNat = 48 + d := by
  rw [UInt8.toNat_ofNat']
  omega

theorem isDigit_iff (c : UInt8) : isDigit c = true ↔ 48 ≤ c.toNat ∧ c.toNat ≤ 57 := by
  simp [isDigit, UInt8.le_iff_toNat_le]

theorem isDigit_digit {d : ℕ} (h : d < 10) : isDigit (48 + d).toUInt8 = true := by
  rw [isDigit_iff, toNat_digit h]
  omega

theorem digitsValue_singleton {d : ℕ} (h : d < 10) : digitsValue [(48 + d).toUInt8] = d := by
  simp only [digitsValue, List.foldl_cons, List.foldl_nil, toNat_digit h]
  omega

theorem ofNat_eq (n : ℕ) :
    Bytes.ofNat n = (if n < 10 then [] else Bytes.ofNat (n / 10)) ++ [(48 + n % 10).toUInt8] := by
  have hdigits (n : ℕ) : Bytes.ofNat n = (Nat.toDigits 10 n).flatMap String.utf8EncodeChar := by
    simp [Bytes.ofNat, Bytes.ofString, String.toUTF8, Nat.repr, List.utf8Encode]
  have hdigit {d : ℕ} (h : d < 10) : String.utf8EncodeChar (Nat.digitChar d) = [(48 + d).toUInt8] := by
    interval_cases d <;> decide
  rw [hdigits, hdigits, Nat.toDigits_eq_if (by omega)]
  split
  · next h => simp [hdigit h, Nat.mod_eq_of_lt h]
  · simp [hdigit (Nat.mod_lt n (by omega))]

theorem digitsValue_ofNat (n : ℕ) : digitsValue (Bytes.ofNat n) = n := by
  induction n using Nat.strong_induction_on with
  | _ n ih =>
    rw [ofNat_eq, digitsValue_append, digitsValue_singleton (Nat.mod_lt n (by omega))]
    split
    · simp only [digitsValue, List.foldl_nil]
      omega
    · rw [ih (n / 10) (by omega), List.length_singleton]
      omega

theorem isDigit_of_mem_ofNat (n : ℕ) : ∀ c ∈ Bytes.ofNat n, isDigit c = true := by
  induction n using Nat.strong_induction_on with
  | _ n ih =>
    intro c hc
    rw [ofNat_eq, List.mem_append, List.mem_singleton] at hc
    obtain hc | rfl := hc
    · split at hc
      · cases hc
      · exact ih (n / 10) (by omega) c hc
    · exact isDigit_digit (Nat.mod_lt n (by omega))

theorem length_ofNat {n k : ℕ} (hlo : 10 ^ k ≤ n) (hhi : n < 10 ^ (k + 1)) :
    (Bytes.ofNat n).length = k + 1 := by
  induction k generalizing n with
  | zero => rw [ofNat_eq, if_pos (by omega)]; rfl
  | succ k ih =>
    rw [pow_succ] at hlo hhi
    have hpos : 0 < 10 ^ k := by positivity
    rw [ofNat_eq, if_neg (by omega), List.length_append, ih (by omega) (by omega),
      List.length_singleton]

theorem ofNat_ne_nil (n : ℕ) : Bytes.ofNat n ≠ [] := by
  rw [ofNat_eq]
  simp

theorem head_ofNat {n : ℕ} (hn : n ≠ 0) : (Bytes.ofNat n).head? ≠ some 48 := by
  induction n using Nat.strong_induction_on with
  | _ n ih =>
    rw [ofNat_eq]
    split
    · next h =>
      intro hc
      simp only [List.nil_append, List.head?_cons, Option.some.injEq] at hc
      have := congrArg UInt8.toNat hc
      rw [toNat_digit (by omega)] at this
      have h48 : (48 : UInt8).toNat = 48 := rfl
      omega
    · rw [List.head?_append_of_ne_nil _ (ofNat_ne_nil _)]
      exact ih (n / 10) (by omega) (by omega)

theorem trimZeros_append (ds : Bytes) : ∃ k, ds = trimZeros ds ++ List.replicate k 48 := by
  refine ⟨(ds.reverse.takeWhile (· == 48)).length, ?_⟩
  have hzeros : ds.reverse.takeWhile (· == 48) =
      List.replicate (ds.reverse.takeWhile (· == 48)).length 48 :=
    List.eq_replicate_of_mem fun c hc => by
      simpa using List.all_eq_true.mp List.all_takeWhile c hc
  have hsplit := congrArg List.reverse (List.takeWhile_append_dropWhile (p := (· == 48)) (l := ds.reverse))
  rw [List.reverse_append, List.reverse_reverse] at hsplit
  rw [trimZeros]
  conv_lhs => rw [← hsplit, hzeros]
  rw [List.reverse_replicate]

theorem getLast?_trimZeros (ds : Bytes) : (trimZeros ds).getLast? ≠ some 48 := by
  intro h
  rw [trimZeros, List.getLast?_reverse] at h
  have := List.head?_dropWhile_not (· == 48) ds.reverse
  rw [h] at this
  simp at this

theorem isFraction_pointed {ds : Bytes} (hds : ∀ c ∈ ds, isDigit c = true) :
    IsFraction (pointed ds) (digitsValue ds / 10 ^ ds.length) := by
  obtain ⟨k, hk⟩ := trimZeros_append ds
  have hvalue : (digitsValue ds / 10 ^ ds.length : ℚ) =
      digitsValue (trimZeros ds) / 10 ^ (trimZeros ds).length := by
    conv_lhs => rw [hk, digitsValue_append, digitsValue_replicate, List.length_append]
    rw [List.length_replicate, pow_add]
    push_cast
    field_simp
    ring
  rw [hvalue]
  unfold pointed
  split
  · next h =>
    rw [h]
    simpa [digitsValue] using IsFraction.none
  · next h =>
    refine .point _ (fun c hc => hds c ?_) h (getLast?_trimZeros ds)
    rw [hk]
    exact List.mem_append_left _ hc

namespace Decimal

variable {d : Decimal}

theorem IsNormal.length_ofNat (h : d.IsNormal) : (Bytes.ofNat d.digits).length = 6 :=
  Number.length_ofNat (k := 5) h.1 h.2

theorem IsNormal.head_ofNat (h : d.IsNormal) : (Bytes.ofNat d.digits).head? ≠ some 48 :=
  Number.head_ofNat (by have := h.1; omega)

theorem digits_eq (d : Decimal) (k : ℕ) :
    d.digits = digitsValue ((Bytes.ofNat d.digits).take k) *
        10 ^ ((Bytes.ofNat d.digits).drop k).length +
      digitsValue ((Bytes.ofNat d.digits).drop k) := by
  rw [← digitsValue_append, List.take_append_drop, digitsValue_ofNat]

theorem isPlain_whole (h : d.IsNormal) (hlo : 0 ≤ d.exponent) (hhi : d.exponent < 6) :
    IsPlain d.plain d.value := by
  have hlen := h.length_ofNat
  have hdigits := isDigit_of_mem_ofNat d.digits
  have hhead := h.head_ofNat
  have hsplit := d.digits_eq (d.exponent.toNat + 1)
  unfold plain
  rw [if_pos hlo]
  refine ⟨_, _, _, rfl, ⟨?_, ?_, ?_⟩,
    isFraction_pointed fun c hc => hdigits c (List.mem_of_mem_drop hc), ?_⟩
  · exact fun c hc => hdigits c (List.mem_of_mem_take hc)
  · intro hnil
    have := congrArg List.length hnil
    rw [List.length_take, hlen, List.length_nil] at this
    omega
  · intro hzero
    rw [List.head?_take, if_neg (by omega)] at hzero
    exact absurd hzero hhead
  · rw [List.length_drop, hlen] at hsplit ⊢
    have hexp : d.exponent - 5 = -((6 - (d.exponent.toNat + 1) : ℕ) : ℤ) := by omega
    generalize 6 - (d.exponent.toNat + 1) = k at *
    have hvalue := congrArg (Nat.cast : ℕ → ℚ) hsplit
    push_cast at hvalue
    rw [value, hvalue, hexp, zpow_neg, zpow_natCast, ← div_eq_mul_inv, add_div,
      mul_div_cancel_right₀ _ (by positivity)]

theorem isPlain_fraction (h : d.IsNormal) (hhi : d.exponent < 0) : IsPlain d.plain d.value := by
  have hlen := h.length_ofNat
  unfold plain
  rw [if_neg (by omega)]
  refine ⟨[48], _, _, rfl, ⟨?_, List.cons_ne_nil _ _, fun _ => rfl⟩, isFraction_pointed ?_, ?_⟩
  · intro c hc
    rw [List.mem_singleton.mp hc]
    rfl
  · intro c hc
    obtain hc | hc := List.mem_append.mp hc
    · rw [List.eq_of_mem_replicate hc]
      rfl
    · exact isDigit_of_mem_ofNat d.digits c hc
  · have hexp : d.exponent - 5 = -(((-d.exponent).toNat - 1 + 6 : ℕ) : ℤ) := by omega
    rw [digitsValue_append, digitsValue_replicate, digitsValue_ofNat, List.length_append,
      List.length_replicate, hlen, value, hexp, zpow_neg, zpow_natCast, ← div_eq_mul_inv]
    simp [digitsValue]

theorem isExponent_padLeft (e : ℤ) :
    IsExponent ((if 0 ≤ e then 43 else 45) :: Bytes.padLeft 2 48 (Bytes.ofNat e.natAbs)) e := by
  refine ⟨_, rfl, ?_, ?_, ?_, ?_⟩
  · intro c hc
    obtain hc | hc := List.mem_append.mp hc
    · rw [List.eq_of_mem_replicate hc]
      rfl
    · exact isDigit_of_mem_ofNat _ c hc
  · rw [Bytes.length_padLeft]
    exact le_max_left _ _
  · intro hlong
    rw [Bytes.length_padLeft] at hlong
    have hlen : 2 < (Bytes.ofNat e.natAbs).length := by omega
    rw [Bytes.padLeft, Nat.sub_eq_zero_of_le hlen.le, List.replicate_zero, List.nil_append]
    apply Number.head_ofNat
    intro hzero
    rw [hzero, ofNat_eq] at hlen
    simp at hlen
  · rw [Bytes.padLeft, digitsValue_append, digitsValue_replicate, digitsValue_ofNat, zero_mul, zero_add]

theorem isScientific_scientific (h : d.IsNormal) : IsScientific d.scientific d.exponent d.value := by
  have hlen := h.length_ofNat
  have hdigits := isDigit_of_mem_ofNat d.digits
  have hhead := h.head_ofNat
  have hsplit := d.digits_eq 1
  unfold scientific
  obtain ⟨c, rest, hds⟩ := List.exists_cons_of_ne_nil (ofNat_ne_nil d.digits)
  rw [hds] at hlen hdigits hhead hsplit ⊢
  have hrest : rest.length = 5 := by simpa using hlen
  refine ⟨c, _, _, _, rfl, hdigits c (by simp), ?_,
    isFraction_pointed fun c hc => hdigits c (List.mem_of_mem_drop hc), isExponent_padLeft d.exponent, ?_⟩
  · rintro rfl
    exact hhead rfl
  · have hvalue := congrArg (Nat.cast : ℕ → ℚ) hsplit
    simp only [List.take_succ_cons, List.take_zero, List.drop_succ_cons, List.drop_zero, hrest] at hvalue ⊢
    push_cast at hvalue
    rw [value, hvalue, zpow_sub₀ (by norm_num)]
    field_simp
    norm_num

theorem text_writes (h : d.IsNormal) :
    if -4 ≤ d.exponent ∧ d.exponent < 6 then IsPlain d.text d.value
      else IsScientific d.text d.exponent d.value := by
  unfold text
  split
  · next he =>
    by_cases hneg : d.exponent < 0
    · exact isPlain_fraction h hneg
    · exact isPlain_whole h (by omega) he.2
  · exact isScientific_scientific h

end Decimal

/-- A finite double is written as the nearest decimal of six digits: a minus just if the top bit is set, a
single zero for the two zeros, plain notation for exponents from -4 to 5 and scientific notation for
all others. -/
theorem format_writes_nearest (bits : UInt64) (hfinite : bits.toNat / 2 ^ 52 % 2 ^ 11 ≠ 2047) :
    ∃ text, format bits = (if 2 ^ 63 ≤ bits.toNat then [45] else []) ++ text ∧
      if absolute bits = 0 then text = [48]
      else ∃ d : Decimal, d.IsNearest (absolute bits) ∧
        if -4 ≤ d.exponent ∧ d.exponent < 6 then IsPlain text d.value
          else IsScientific text d.exponent d.value := by
  rw [← toNat_exponentField] at hfinite
  have hnan : isNaN bits = false := by simp [isNaN, hfinite]
  have hinf : isInfinite bits = false := by simp [isInfinite, hfinite]
  have hmark : (if sign bits then ("-" : Bytes) else ("" : Bytes)) =
      if 2 ^ 63 ≤ bits.toNat then [45] else [] := by
    simp only [← sign_iff]
    cases sign bits <;> rfl
  unfold format
  rw [if_neg (by simp [hnan])]
  simp only [hinf, hmark]
  by_cases hzero : isZero bits = true
  · refine ⟨[48], ?_, ?_⟩
    · rw [if_pos hzero]
      rfl
    · rw [if_pos ((absolute_eq_zero_iff bits).mpr hzero)]
  · have hne : absolute bits ≠ 0 := fun h => hzero ((absolute_eq_zero_iff bits).mp h)
    have hnum : 0 < (magnitude bits).1 := by
      rw [Nat.pos_iff_ne_zero]
      intro h
      rw [← magnitude_eq, h] at hne
      simp at hne
    refine ⟨_, by rw [if_neg hzero]; rfl, ?_⟩
    rw [if_neg hne]
    have hnear := Decimal.nearest_isNearest hnum (magnitude_pos bits)
    rw [magnitude_eq] at hnear
    exact ⟨_, hnear, Decimal.text_writes hnear.normal⟩

theorem format_writes_nearest_carry :
    format 0xc12e847f00000000 = ("-1e+06" : Bytes) ∧
    (0xc12e847f00000000 : UInt64).toNat / 2 ^ 52 % 2 ^ 11 ≠ 2047 ∧
    ∃ text, format 0xc12e847f00000000 =
        (if 2 ^ 63 ≤ (0xc12e847f00000000 : UInt64).toNat then [45] else []) ++ text ∧
      if absolute 0xc12e847f00000000 = 0 then text = [48]
      else ∃ d : Decimal, d.IsNearest (absolute 0xc12e847f00000000) ∧
        if -4 ≤ d.exponent ∧ d.exponent < 6 then IsPlain text d.value
          else IsScientific text d.exponent d.value :=
  ⟨by decide +kernel, by decide, format_writes_nearest _ (by decide)⟩

end Lox.Number

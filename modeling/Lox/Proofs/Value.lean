import Lox.Value

namespace Lox.Value

theorem or_and (a b c : UInt64) : (a ||| b) &&& c = (a &&& c) ||| (b &&& c) := by
  apply UInt64.toBitVec_inj.mp
  apply BitVec.eq_of_getLsbD_eq
  intro i _
  simp [Bool.and_or_distrib_right]

theorem handle_and_tags (ref : Ref) : ref.toUInt64 &&& (quietNaN ||| tagMask) = 0 := by
  apply UInt64.toBitVec_inj.mp
  apply BitVec.eq_of_getLsbD_eq
  intro i hi
  have hlow : ∀ i < 32, (0x7fff000000000000 : BitVec 64).getLsbD i = Bool.false := by decide
  have hmask : (quietNaN ||| tagMask).toBitVec = 0x7fff000000000000 := by decide
  simp only [UInt64.toBitVec_and, BitVec.getLsbD_and, hmask]
  by_cases h : i < 32
  · rw [hlow i h]
    simp
  · have : ref.toBitVec.getLsbD i = Bool.false := BitVec.getLsbD_of_ge _ _ (by omega)
    simp [this]

theorem isObject_object (ref : Ref) : (object ref).isObject = Bool.true := by
  simp only [isObject, object, or_and, handle_and_tags, beq_iff_eq]
  decide

def handle (v : Value) : Ref :=
  v.bits.toUInt32

theorem ref_of_isObject {v : Value} (h : v.isObject) : v.ref = .ok v.handle := by
  simp [ref, h, handle]

theorem handle_object (ref : Ref) : (object ref).handle = ref := by
  have h : (quietNaN ||| objectTag).toUInt32 = 0 := by decide
  simp only [handle, object, UInt64.toUInt32_or, h, UInt32.toUInt32_toUInt64]
  simp

theorem object_inj {a b : Ref} (h : object a = object b) : a = b := by
  rw [← handle_object a, h, handle_object]

theorem and_quietNaN_of_isObject {v : Value} (h : v.isObject = Bool.true) :
    v.bits &&& quietNaN = quietNaN ∧ v.bits &&& tagMask = objectTag := by
  simp only [isObject, beq_iff_eq] at h
  have hq : (quietNaN ||| tagMask) &&& quietNaN = quietNaN := by decide
  have ht : (quietNaN ||| tagMask) &&& tagMask = tagMask := by decide
  constructor
  · rw [← hq, ← UInt64.and_assoc, h]
    decide
  · rw [← ht, ← UInt64.and_assoc, h]
    decide

theorem isNumber_of_isObject {v : Value} (h : v.isObject = Bool.true) : v.isNumber = Bool.false := by
  obtain ⟨hq, ht⟩ := and_quietNaN_of_isObject h
  simp only [isNumber, hq, ht]
  decide

theorem isNumber_object (ref : Ref) : (object ref).isNumber = Bool.false :=
  isNumber_of_isObject (isObject_object ref)

theorem isObject_of_isNumber {v : Value} (h : v.isNumber = Bool.true) :
    v.isObject = Bool.false := by
  cases ho : v.isObject with
  | false => rfl
  | true => rw [isNumber_of_isObject ho] at h; cases h

theorem isNaN_of_isNumber_eq_false {bits : UInt64} (h : (⟨bits⟩ : Value).isNumber = Bool.false) :
    Number.isNaN bits = Bool.true := by
  simp only [isNumber, Bool.or_eq_false_iff, bne_eq_false_iff_eq] at h
  have hq := h.1
  have he : (bits >>> 52) &&& 0x7ff = 0x7ff := by
    have h₁ : bits &&& 0x7ff0000000000000 = 0x7ff0000000000000 := by
      rw [show (0x7ff0000000000000 : UInt64) = quietNaN &&& 0x7ff0000000000000 by decide,
        ← UInt64.and_assoc, hq]
    rw [show (0x7ff : UInt64) = (0x7ff0000000000000 : UInt64) >>> 52 by decide,
      ← UInt64.shiftRight_and, h₁]
  have hf : bits &&& 0xfffffffffffff ≠ 0 := by
    intro hz
    have h₁ : bits &&& 0x8000000000000 = 0x8000000000000 := by
      rw [show (0x8000000000000 : UInt64) = quietNaN &&& 0x8000000000000 by decide,
        ← UInt64.and_assoc, hq]
    rw [show (0x8000000000000 : UInt64) = 0xfffffffffffff &&& 0x8000000000000 by decide,
      ← UInt64.and_assoc, hz] at h₁
    revert h₁
    decide
  simp only [Number.isNaN, Number.exponentField, Number.fraction, he, Bool.and_eq_true, beq_iff_eq,
    bne_iff_ne]
  refine ⟨by decide, fun hz => hf ?_⟩
  exact UInt64.toNat_inj.mp hz

theorem isNumber_ofBits (bits : UInt64) : (ofBits bits).isNumber = Bool.true := by
  unfold ofBits
  split
  · decide
  · rename_i h
    cases hn : (⟨bits⟩ : Value).isNumber with
    | true => rfl
    | false => exact absurd (isNaN_of_isNumber_eq_false hn) h

theorem isNumber_number (f : Float) : (number f).isNumber = Bool.true :=
  isNumber_ofBits f.toBits

theorem ofBits_bits (bits : UInt64) : ofBits (ofBits bits).bits = ofBits bits := by
  by_cases h : Number.isNaN bits = Bool.true
  · have hbits : ofBits bits = ⟨canonicalNaN⟩ := if_pos h
    rw [hbits]
    decide
  · have hbits : ofBits bits = ⟨bits⟩ := if_neg h
    rw [hbits, hbits]

def IsNumeral (v : Value) : Prop :=
  v = ofBits v.bits

instance (v : Value) : Decidable v.IsNumeral :=
  inferInstanceAs (Decidable (v = ofBits v.bits))

theorem isNumeral_ofBits (bits : UInt64) : (ofBits bits).IsNumeral :=
  (ofBits_bits bits).symm

theorem isNumeral_number (f : Float) : (number f).IsNumeral :=
  isNumeral_ofBits f.toBits

theorem IsNumeral.isNumber {v : Value} (h : v.IsNumeral) : v.isNumber = Bool.true := by
  have hword := isNumber_ofBits v.bits
  rwa [← h] at hword

theorem IsNumeral.isObject {v : Value} (h : v.IsNumeral) : v.isObject = Bool.false :=
  isObject_of_isNumber h.isNumber

inductive IsCanonical : Value → Prop
  | nil : IsCanonical nil
  | bool (b : Bool) : IsCanonical (ofBool b)
  | number (bits : UInt64) : IsCanonical (ofBits bits)
  | object (ref : Ref) : IsCanonical (object ref)

theorem IsNumeral.isCanonical {v : Value} (h : v.IsNumeral) : v.IsCanonical := by
  have hword := IsCanonical.number v.bits
  rwa [← h] at hword

end Lox.Value

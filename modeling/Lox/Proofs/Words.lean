import Lox.Proofs.Number.Rounding
import Lox.Proofs.Value

namespace Lox

/-- What a value is made from. -/
inductive Datum where
  | nil
  | bool (b : Bool)
  | number (f : Float)
  | object (ref : Ref)

namespace Datum

def word : Datum → Value
  | nil => .nil
  | bool b => .ofBool b
  | number f => .number f
  | object ref => .object ref

def isNaN : Datum → Bool
  | number f => Number.isNaN f.toBits
  | _ => false

def Same : Datum → Datum → Prop
  | nil, nil => True
  | bool a, bool b => a = b
  | number f, number g => f.toBits = g.toBits ∨ Number.isNaN f.toBits = true ∧ Number.isNaN g.toBits = true
  | object r, object s => r = s
  | _, _ => False

end Datum

namespace Value

theorem ne_special_of_isNumber {v : Value} (h : v.isNumber = Bool.true) :
    v ≠ nil ∧ v ≠ true ∧ v ≠ false := by
  refine ⟨?_, ?_, ?_⟩ <;>
  · rintro rfl
    revert h
    decide

theorem ne_special_of_isObject {v : Value} (h : v.isObject = Bool.true) :
    v ≠ nil ∧ v ≠ true ∧ v ≠ false := by
  refine ⟨?_, ?_, ?_⟩ <;>
  · rintro rfl
    revert h
    decide

theorem ofBool_inj : ∀ {a b : Bool}, ofBool a = ofBool b → a = b := by
  decide

theorem isNaN_ofBits (bits : UInt64) : Number.isNaN (ofBits bits).bits = Number.isNaN bits := by
  unfold ofBits
  split
  · next h =>
    rw [h]
    decide
  · rfl

theorem ofBits_inj {a b : UInt64} :
    ofBits a = ofBits b ↔ a = b ∨ Number.isNaN a = Bool.true ∧ Number.isNaN b = Bool.true := by
  constructor
  · intro h
    have hnan : Number.isNaN a = Number.isNaN b := by
      rw [← isNaN_ofBits a, h, isNaN_ofBits]
    by_cases ha : Number.isNaN a = Bool.true
    · exact .inr ⟨ha, hnan ▸ ha⟩
    · rw [ofBits, ofBits, if_neg ha, if_neg (hnan ▸ ha)] at h
      exact .inl (Value.mk.inj h)
  · rintro (rfl | ⟨ha, hb⟩)
    · rfl
    · rw [ofBits, ofBits, if_pos ha, if_pos hb]

theorem ofBits_eq_number (bits : UInt64) : ofBits bits = number (Float.ofBits bits) := by
  apply ofBits_inj.mpr
  cases h : Number.isNaN bits with
  | true => exact .inr ⟨rfl, Number.isNaN_toBits_ofBits h⟩
  | false => exact .inl (Number.toBits_ofBits h).symm

theorem IsCanonical.exists_word {v : Value} (h : v.IsCanonical) : ∃ d : Datum, v = d.word := by
  cases h with
  | nil => exact ⟨.nil, rfl⟩
  | bool b => exact ⟨.bool b, rfl⟩
  | number bits => exact ⟨.number (Float.ofBits bits), ofBits_eq_number bits⟩
  | object ref => exact ⟨.object ref, rfl⟩

end Value

namespace Number

theorem equal_comm (a b : UInt64) : equal a b = equal b a := by
  unfold equal
  grind

theorem equal_trans {a b c : UInt64} (hab : equal a b = true) (hbc : equal b c = true) :
    equal a c = true := by
  unfold equal at *
  grind

theorem equal_self (a : UInt64) : equal a a = !isNaN a := by
  simp [equal]

end Number

namespace Value

theorem equal_comm (u v : Value) : u.equal v = v.equal u := by
  unfold equal
  rw [Bool.and_comm, Number.equal_comm]
  split
  · rfl
  · exact Bool.beq_comm

theorem equal_iff (u v : Value) : u.equal v = Bool.true ↔
    if u.isNumber then v.isNumber = Bool.true ∧ Number.equal u.bits v.bits = Bool.true else u = v := by
  unfold equal
  cases hu : u.isNumber with
  | false => simp
  | true =>
    cases hv : v.isNumber with
    | true => simp
    | false =>
      simp only [Bool.and_false, Bool.false_eq_true, ↓reduceIte, false_and, iff_false, beq_iff_eq]
      rintro rfl
      rw [hu] at hv
      cases hv

theorem equal_trans {u v w : Value} (huv : u.equal v = Bool.true) (hvw : v.equal w = Bool.true) :
    u.equal w = Bool.true := by
  rw [equal_iff] at huv hvw ⊢
  cases hu : u.isNumber with
  | true =>
    rw [if_pos hu] at huv
    rw [if_pos huv.1] at hvw
    exact ⟨hvw.1, Number.equal_trans huv.2 hvw.2⟩
  | false =>
    rw [if_neg (by simp [hu])] at huv
    subst huv
    simpa [hu] using hvw

theorem equal_self (v : Value) : v.equal v = !(v.isNumber && Number.isNaN v.bits) := by
  unfold equal
  rw [Bool.and_self, Number.equal_self]
  cases v.isNumber <;> simp

end Value

namespace Datum

def sorts : Datum → List Bool
  | number _ => [true, false, false, false]
  | bool _ => [false, true, false, false]
  | nil => [false, false, true, false]
  | object _ => [false, false, false, true]

theorem sorts_word (d : Datum) :
    [d.word.isNumber, d.word.isBool, d.word.isNil, d.word.isObject] = d.sorts := by
  have hrest {v : Value} (h : v ≠ .nil ∧ v ≠ .true ∧ v ≠ .false) : v.isBool = false ∧ v.isNil = false := by
    refine ⟨?_, beq_false_of_ne h.1⟩
    rw [Value.isBool, beq_false_of_ne h.2.1, beq_false_of_ne h.2.2]
    rfl
  cases d with
  | nil => decide
  | bool b => cases b <;> decide
  | number f =>
    have h : (Value.number f).isNumber = true := Value.isNumber_number f
    obtain ⟨hbool, hnil⟩ := hrest (Value.ne_special_of_isNumber h)
    simp only [word, sorts, h, hbool, hnil, Value.isObject_of_isNumber h]
  | object ref =>
    have h : (Value.object ref).isObject = true := Value.isObject_object ref
    obtain ⟨hbool, hnil⟩ := hrest (Value.ne_special_of_isObject h)
    simp only [word, sorts, h, hbool, hnil, Value.isNumber_of_isObject h]

theorem one_sort (d : Datum) :
    [d.word.isNumber, d.word.isBool, d.word.isNil, d.word.isObject].count true = 1 := by
  rw [sorts_word]
  cases d <;> rfl

theorem word_inj (d e : Datum) : d.word = e.word ↔ d.Same e := by
  constructor
  · intro h
    have hsorts : d.sorts = e.sorts := by rw [← sorts_word, h, sorts_word]
    cases d <;> cases e <;> try (simp [sorts] at hsorts; done)
    · trivial
    · exact Value.ofBool_inj h
    · exact Value.ofBits_inj.mp h
    · exact Value.object_inj h
  · intro h
    cases d <;> cases e <;> try contradiction
    · rfl
    · exact congrArg Value.ofBool h
    · exact Value.ofBits_inj.mpr h
    · exact congrArg Value.object h

theorem asBool_ofBool (b : Bool) : (Value.ofBool b).asBool = .ok b := by
  cases b <;> decide

theorem ref_object (r : Ref) : (Value.object r).ref = .ok r := by
  rw [Value.ref_of_isObject (Value.isObject_object r), Value.handle_object]

theorem asNumber_ofBits {bits : UInt64} (h : Number.isNaN bits = false) :
    ∃ f, (Value.number (Float.ofBits bits)).asNumber = .ok f ∧ f.toBits = bits := by
  have hbits := Number.toBits_ofBits h
  have hword : (Value.number (Float.ofBits bits)).bits = bits := by
    rw [Value.number, hbits, Value.ofBits, if_neg (by simp [h])]
  refine ⟨Float.ofBits bits, ?_, hbits⟩
  rw [Value.asNumber, if_pos (Value.isNumber_number _), hword]

theorem equal_word_self (d : Datum) : d.word.equal d.word = !d.isNaN := by
  rw [Value.equal_self]
  cases d with
  | nil => decide
  | bool b => cases b <;> decide
  | number f =>
    rw [show (number f).word.isNumber = true from Value.isNumber_number f, Bool.true_and]
    exact congrArg (!·) (Value.isNaN_ofBits f.toBits)
  | object ref =>
    rw [show (object ref).word.isNumber = false from Value.isNumber_object ref]
    rfl

end Datum

end Lox

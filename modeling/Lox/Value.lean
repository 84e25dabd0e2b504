import Lox.Fault
import Lox.Number

/-!
Values are 64-bit words. A word outside the tagged part of the quiet NaN space is a number; the
tagged words are `nil`, `true`, `false` and references to objects.
-/

namespace Lox

structure Value where
  bits : UInt64
deriving DecidableEq

namespace Value

def quietNaN : UInt64 := 0x7ff8000000000000
def tagMask : UInt64 := 0x0007000000000000
def objectTag : UInt64 := 0x0001000000000000
def specialTag : UInt64 := 0x0003000000000000

def canonicalNaN : UInt64 := 0x7ff8000000000001

def nil : Value := ⟨0x7ffb000000000000⟩
def true : Value := ⟨0x7ffb000000000001⟩
def false : Value := ⟨0x7ffb000000000002⟩

def zero : Value := ⟨0⟩

instance : Inhabited Value := ⟨zero⟩

def ofBool (b : Bool) : Value :=
  if b then true else false

def ofBits (bits : UInt64) : Value :=
  if Number.isNaN bits then ⟨canonicalNaN⟩ else ⟨bits⟩

def number (f : Float) : Value :=
  ofBits f.toBits

def object (ref : Ref) : Value :=
  ⟨quietNaN ||| objectTag ||| ref.toUInt64⟩

def isNumber (v : Value) : Bool :=
  v.bits &&& quietNaN != quietNaN || v.bits &&& tagMask == 0

def isObject (v : Value) : Bool :=
  v.bits &&& (quietNaN ||| tagMask) == quietNaN ||| objectTag

def isNil (v : Value) : Bool :=
  v == nil

def isBool (v : Value) : Bool :=
  v == true || v == false

def isFalsey (v : Value) : Bool :=
  v == nil || v == false

def asNumber (v : Value) : Except Fault Float :=
  if v.isNumber then .ok (Float.ofBits v.bits) else .error .notNumber

def asBool (v : Value) : Except Fault Bool :=
  if v.isBool then .ok (v == true) else .error .notBoolean

def ref (v : Value) : Except Fault Ref :=
  if v.isObject then .ok v.bits.toUInt32 else .error .notObject

def equal (a b : Value) : Bool :=
  if a.isNumber && b.isNumber then Number.equal a.bits b.bits else a == b

def typeName (v : Value) : String :=
  if v.isNumber then "number"
  else if v.isBool then "boolean"
  else if v.isNil then "nil"
  else if v.isObject then "object"
  else "unknown"

end Value

end Lox

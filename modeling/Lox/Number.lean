import Lox.Bytes

namespace Lox.Number

def sign (bits : UInt64) : Bool :=
  bits >>> 63 != 0

def exponentField (bits : UInt64) : Nat :=
  ((bits >>> 52) &&& 0x7ff).toNat

def fraction (bits : UInt64) : Nat :=
  (bits &&& 0xfffffffffffff).toNat

def isNaN (bits : UInt64) : Bool :=
  exponentField bits == 0x7ff && fraction bits != 0

def isInfinite (bits : UInt64) : Bool :=
  exponentField bits == 0x7ff && fraction bits == 0

def isZero (bits : UInt64) : Bool :=
  bits <<< 1 == 0

def equal (a b : UInt64) : Bool :=
  !isNaN a && !isNaN b && (a == b || (isZero a && isZero b))

def magnitude (bits : UInt64) : Nat × Nat :=
  let e := exponentField bits
  let m := if e = 0 then fraction bits else fraction bits + 0x10000000000000
  let q : Int := (max e 1 : Nat) - 1075
  if 0 ≤ q then (m * Nat.pow 2 q.toNat, 1) else (m, Nat.pow 2 (-q).toNat)

def truncate (bits : UInt64) : Int :=
  let (num, den) := magnitude bits
  if sign bits then -((num / den : Nat) : Int) else (num / den : Nat)

def roundDiv (num den : Nat) : Nat :=
  let q := num / den
  let r := num % den
  if 2 * r < den then q
  else if den < 2 * r then q + 1
  else if q % 2 = 0 then q else q + 1

def digitCount (n : Nat) : Nat :=
  if n = 0 then 0 else digitCount (n / 10) + 1

def decimalExponent (num den : Nat) : Int :=
  if den ≤ num then digitCount (num / den) - 1
  else -(digitCount ((den + num - 1) / num - 1) : Int)

structure Decimal where
  digits : Nat
  exponent : Int
deriving DecidableEq

def Decimal.nearest (num den : Nat) : Decimal :=
  let e := decimalExponent num den
  let shift := e - 5
  let d :=
    if 0 ≤ shift then roundDiv num (den * Nat.pow 10 shift.toNat)
    else roundDiv (num * Nat.pow 10 (-shift).toNat) den
  if d = 1000000 then ⟨100000, e + 1⟩ else ⟨d, e⟩

def trimZeros (ds : Bytes) : Bytes :=
  (ds.reverse.dropWhile (· == 48)).reverse

def pointed (ds : Bytes) : Bytes :=
  match trimZeros ds with
  | [] => []
  | rest => 46 :: rest

def Decimal.plain (d : Decimal) : Bytes :=
  let ds := Bytes.ofNat d.digits
  if 0 ≤ d.exponent then
    let whole := d.exponent.toNat + 1
    ds.take whole ++ pointed (ds.drop whole)
  else
    48 :: pointed (List.replicate ((-d.exponent).toNat - 1) 48 ++ ds)

def Decimal.scientific (d : Decimal) : Bytes :=
  let ds := Bytes.ofNat d.digits
  let mark : UInt8 := if 0 ≤ d.exponent then 43 else 45
  ds.take 1 ++ pointed (ds.drop 1) ++
    101 :: mark :: Bytes.padLeft 2 48 (Bytes.ofNat d.exponent.natAbs)

def Decimal.text (d : Decimal) : Bytes :=
  if -4 ≤ d.exponent ∧ d.exponent < 6 then d.plain else d.scientific

def format (bits : UInt64) : Bytes :=
  if isNaN bits then "nan"
  else
    let mark : Bytes := if sign bits then "-" else ""
    if isInfinite bits then mark ++ ("inf" : Bytes)
    else if isZero bits then mark ++ ("0" : Bytes)
    else
      let (num, den) := magnitude bits
      mark ++ (Decimal.nearest num den).text

def ofLiteral (literal : Bytes) : Float :=
  let whole := literal.takeWhile isDigit
  let rest := (literal.dropWhile isDigit).drop 1
  let mantissa := (whole ++ rest).foldl (fun n c => n * 10 + (c.toNat - 48)) 0
  Float.ofScientific mantissa true rest.length

end Lox.Number

import Lox.Bytes

namespace Lox.Utf8

def within (lo hi c : UInt8) : Bool :=
  lo ≤ c && c ≤ hi

def payload (c : UInt8) : Nat :=
  c.toNat % 64

def decode : Bytes → Option (Nat × Bytes)
  | [] => none
  | a :: r =>
    if a < 0x80 then some (a.toNat, r)
    else if within 0xc2 0xdf a then
      match r with
      | b :: r => if within 0x80 0xbf b then some (a.toNat % 32 * 64 + payload b, r) else none
      | _ => none
    else if within 0xe0 0xef a then
      match r with
      | b :: c :: r =>
        let lo : UInt8 := if a = 0xe0 then 0xa0 else 0x80
        let hi : UInt8 := if a = 0xed then 0x9f else 0xbf
        if within lo hi b && within 0x80 0xbf c then
          some (a.toNat % 16 * 4096 + payload b * 64 + payload c, r)
        else none
      | _ => none
    else if within 0xf0 0xf4 a then
      match r with
      | b :: c :: d :: r =>
        let lo : UInt8 := if a = 0xf0 then 0x90 else 0x80
        let hi : UInt8 := if a = 0xf4 then 0x8f else 0xbf
        if within lo hi b && within 0x80 0xbf c && within 0x80 0xbf d then
          some (a.toNat % 8 * 262144 + payload b * 4096 + payload c * 64 + payload d, r)
        else none
      | _ => none
    else none

/-- The encoding of a code point. -/
def encode (n : Nat) : Bytes :=
  if n < 0x80 then [n.toUInt8]
  else if n < 0x800 then [(0xc0 + n / 64).toUInt8, (0x80 + n % 64).toUInt8]
  else if n < 0x10000 then
    [(0xe0 + n / 4096).toUInt8, (0x80 + n / 64 % 64).toUInt8, (0x80 + n % 64).toUInt8]
  else
    [(0xf0 + n / 262144).toUInt8, (0x80 + n / 4096 % 64).toUInt8, (0x80 + n / 64 % 64).toUInt8,
      (0x80 + n % 64).toUInt8]

def isScalar (n : Nat) : Bool :=
  n < 0xd800 || (0xe000 ≤ n && n < 0x110000)

def validFrom : Nat → Bytes → Bool
  | _, [] => true
  | 0, _ => false
  | fuel + 1, b =>
    match decode b with
    | some (_, r) => validFrom fuel r
    | none => false

def valid (b : Bytes) : Bool :=
  validFrom b.length b

end Lox.Utf8

import Lox.Printable
import Lox.Token
import Lox.Utf8

namespace Lox.Quoted

def hexDigit (n : Nat) : UInt8 :=
  if n < 10 then (48 + n).toUInt8 else (87 + n).toUInt8

def hex : Nat → Nat → Bytes
  | 0, _ => []
  | width + 1, n => hex width (n / 16) ++ [hexDigit (n % 16)]

def shortEscape : Nat → Option UInt8
  | 7 => some 97
  | 8 => some 98
  | 9 => some 116
  | 10 => some 110
  | 11 => some 118
  | 12 => some 102
  | 13 => some 114
  | 34 => some 34
  | 92 => some 92
  | _ => none

def escape (n : Nat) : Bytes :=
  match shortEscape n with
  | some letter => [92, letter]
  | none =>
    if Printable.contains n then Utf8.encode n
    else if n < 32 || n = 127 then ("\\x" : Bytes) ++ hex 2 n
    else if n < 0x10000 then ("\\u" : Bytes) ++ hex 4 n
    else ("\\U" : Bytes) ++ hex 8 n

/-- The escaped pieces of a text; a byte that starts no character is escaped on its own. -/
def pieces : Nat → Bytes → List Bytes
  | 0, _ => []
  | _, [] => []
  | fuel + 1, c :: r =>
    match Utf8.decode (c :: r) with
    | some (n, rest) => escape n :: pieces fuel rest
    | none => (("\\x" : Bytes) ++ hex 2 c.toNat) :: pieces fuel r

def quoted (b : Bytes) : Bytes :=
  34 :: (pieces b.length b).flatten ++ [34]

end Lox.Quoted

namespace Lox.Token

def describe (t : Token) : Bytes :=
  Bytes.ofString t.kind.name ++ ("(" : Bytes) ++ Quoted.quoted t.lexeme ++ (") at line " : Bytes)
    ++ Bytes.ofNat t.line

end Lox.Token

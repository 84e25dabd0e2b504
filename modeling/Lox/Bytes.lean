
namespace Lox

abbrev Bytes := List UInt8

namespace Bytes

def ofString (s : String) : Bytes :=
  s.toUTF8.data.toList

instance : Coe String Bytes := ⟨ofString⟩

def toString? (b : Bytes) : Option String :=
  String.fromUTF8? ⟨b.toArray⟩

def ofNat (n : Nat) : Bytes :=
  ofString (Nat.repr n)

def ofInt : Int → Bytes
  | .ofNat n => ofNat n
  | .negSucc n => 45 :: ofNat (n + 1)

def padLeft (width : Nat) (fill : UInt8) (b : Bytes) : Bytes :=
  List.replicate (width - b.length) fill ++ b

def padRight (width : Nat) (fill : UInt8) (b : Bytes) : Bytes :=
  b ++ List.replicate (width - b.length) fill

def join (sep : Bytes) : List Bytes → Bytes
  | [] => []
  | [b] => b
  | b :: rest => b ++ sep ++ join sep rest

def startsWith (p b : Bytes) : Bool :=
  p.isPrefixOf b

def splitOn (c : UInt8) (b : Bytes) : List Bytes :=
  let (last, pieces) := b.foldr (fun x (current, done) =>
    if x = c then ([], current :: done) else (x :: current, done)) ([], [])
  last :: pieces

def lower (b : Bytes) : Bytes :=
  b.map fun c => if 65 ≤ c && c ≤ 90 then c + 32 else c

def boolean? (b : Bytes) : Option Bool :=
  if ["1", "t", "T", "TRUE", "true", "True"].any (ofString · == b) then some true
  else if ["0", "f", "F", "FALSE", "false", "False"].any (ofString · == b) then some false
  else none

def hash (b : Bytes) : UInt32 :=
  b.foldl (fun h x => (h ^^^ x.toUInt32) * 16777619) 2166136261

theorem length_padLeft (width : Nat) (fill : UInt8) (b : Bytes) :
    (padLeft width fill b).length = max width b.length := by
  simp [padLeft]; omega

end Bytes

namespace Ascii

@[match_pattern] abbrev tab : UInt8 := 9
@[match_pattern] abbrev newline : UInt8 := 10
@[match_pattern] abbrev carriageReturn : UInt8 := 13
@[match_pattern] abbrev space : UInt8 := 32
@[match_pattern] abbrev quote : UInt8 := 34
@[match_pattern] abbrev point : UInt8 := 46
@[match_pattern] abbrev slash : UInt8 := 47
@[match_pattern] abbrev equals : UInt8 := 61

end Ascii

def isDigit (c : UInt8) : Bool :=
  48 ≤ c && c ≤ 57

def hexValue (c : UInt8) : Option Nat :=
  if isDigit c then some (c.toNat - 48)
  else if 97 ≤ c && c ≤ 102 then some (c.toNat - 87)
  else if 65 ≤ c && c ≤ 70 then some (c.toNat - 55)
  else none

def isLetter (c : UInt8) : Bool :=
  (97 ≤ c && c ≤ 122) || (65 ≤ c && c ≤ 90) || c = 95

end Lox

import Lox.Utf8

namespace Lox.Blank

def codePoints : List Nat :=
  [0x09, 0x0a, 0x0b, 0x0c, 0x0d, 0x20, 0x85, 0xa0, 0x1680, 0x2000, 0x2001, 0x2002, 0x2003, 0x2004,
    0x2005, 0x2006, 0x2007, 0x2008, 0x2009, 0x200a, 0x2028, 0x2029, 0x202f, 0x205f, 0x3000]

def encodings : List Bytes :=
  codePoints.map Utf8.encode

def after? (pieces : List Bytes) (b : Bytes) : Option Bytes :=
  (pieces.find? (Bytes.startsWith · b)).map fun p => b.drop p.length

def stripFrom (pieces : List Bytes) : Nat → Bytes → Bytes
  | 0, b => b
  | fuel + 1, b =>
    match after? pieces b with
    | some r => stripFrom pieces fuel r
    | none => b

def trimLeft (b : Bytes) : Bytes :=
  stripFrom encodings b.length b

def trimRight (b : Bytes) : Bytes :=
  (stripFrom (encodings.map List.reverse) b.length b.reverse).reverse

def trim (b : Bytes) : Bytes :=
  trimRight (trimLeft b)

def firstWord : Bytes → Bytes
  | [] => []
  | c :: r => if (after? encodings (c :: r)).isSome then [] else c :: firstWord r

end Lox.Blank

import Lox.Utf8

namespace Lox.Cbor

inductive Item where
  | uint (n : Nat)
  -- The integer `-1 - n`.
  | negative (n : Nat)
  | bytes (b : Bytes)
  | text (pieces : List Bytes)
  | array (items : List Item)
  | map (entries : List (Item × Item))
  | tag (n : Nat) (content : Item)
  | simple (n : Nat)
  | float (bits : Bytes)
deriving Inhabited

namespace Item

def null : Item := .simple 22

def isNull : Item → Bool
  | simple n => n = 22 || n = 23
  | _ => false

def ofInt : Int → Item
  | .ofNat n => uint n
  | .negSucc n => negative n

def ofText (b : Bytes) : Item :=
  text [b]

end Item

def bigEndian : Nat → Nat → Bytes
  | 0, _ => []
  | width + 1, n => bigEndian width (n / 256) ++ [n.toUInt8]

def head (major n : Nat) : Bytes :=
  let first (info : Nat) : UInt8 := (major * 32 + info).toUInt8
  if n < 24 then [first n]
  else if n < 0x100 then first 24 :: bigEndian 1 n
  else if n < 0x10000 then first 25 :: bigEndian 2 n
  else if n < 0x100000000 then first 26 :: bigEndian 4 n
  else first 27 :: bigEndian 8 n

mutual

def Item.encode : Item → Bytes
  | .uint n => head 0 n
  | .negative n => head 1 n
  | .bytes b => head 2 b.length ++ b
  | .text pieces => head 3 pieces.flatten.length ++ pieces.flatten
  | .array items => head 4 items.length ++ encodeAll items
  | .map entries => head 5 entries.length ++ encodeEntries entries
  | .tag n content => head 6 n ++ content.encode
  | .simple n => head 7 n
  | .float bits =>
    (if bits.length = 2 then 0xf9 else if bits.length = 4 then 0xfa else 0xfb) :: bits

def encodeAll : List Item → Bytes
  | [] => []
  | item :: rest => item.encode ++ encodeAll rest

def encodeEntries : List (Item × Item) → Bytes
  | [] => []
  | (key, value) :: rest => key.encode ++ value.encode ++ encodeEntries rest

end

end Lox.Cbor

import Lox.Cbor.Item

/-!
Reading CBOR. A text is read when it is exactly one well-formed item, of definite or indefinite
length, that is not nested too deeply.
-/

namespace Lox.Cbor

def maxDepth : Nat := 32

def maxElements : Nat := 131072

def ofBigEndian (b : Bytes) : Nat :=
  b.foldl (fun n c => n * 256 + c.toNat) 0

def floatOf? (exponentBits fractionBits bits : Nat) : Option Float :=
  let top := Nat.pow 2 exponentBits
  let one := Nat.pow 2 fractionBits
  let exponent := bits / one % top
  let fraction := bits % one
  if exponent + 1 = top then none
  else
    let m := if exponent = 0 then fraction else fraction + one
    let scale : Int := (max exponent 1 : Nat) - (top / 2 - 1 + fractionBits : Nat)
    let f := (Float.ofNat m).scaleB scale
    some (if bits / one / top = 1 then -f else f)

def finite? (b : Bytes) : Option Float :=
  match b.length with
  | 2 => floatOf? 5 10 (ofBigEndian b)
  | 4 => floatOf? 8 23 (ofBigEndian b)
  | _ => floatOf? 11 52 (ofBigEndian b)

def split? (n : Nat) (b : Bytes) : Option (Bytes × Bytes) :=
  let (taken, rest) := b.splitAt n
  if taken.length = n then some (taken, rest) else none

structure Head where
  major : Nat
  info : Nat
  argument : Bytes
  value : Nat

def canBeIndefinite (major : Nat) : Bool :=
  2 ≤ major && major ≤ 5

def readHead : Bytes → Option (Head × Bytes)
  | [] => none
  | c :: r =>
    let major := c.toNat / 32
    let info := c.toNat % 32
    if info < 24 then some (⟨major, info, [], info⟩, r)
    else if info < 28 then do
      let (argument, r) ← split? (Nat.pow 2 (info - 24)) r
      let value := ofBigEndian argument
      if major = 7 ∧ info = 24 ∧ value < 32 then none
      return (⟨major, info, argument, value⟩, r)
    else if info = 31 ∧ canBeIndefinite major then some (⟨major, info, [], 0⟩, r)
    else none

abbrev Reader := Bytes → Option (Item × Bytes)

def readMany (read : Reader) (found : List Item) : Nat → Bytes → Option (List Item × Bytes)
  | 0, b => some (found.reverse, b)
  | count + 1, b => do
    let (item, b) ← read b
    readMany read (item :: found) count b

def breakByte : UInt8 := 0xff

def readUntilBreak (read : Reader) (found : List Item) : Nat → Bytes → Option (List Item × Bytes)
  | 0, _ => none
  | fuel + 1, b =>
    if b.head? = some breakByte then some (found.reverse, b.tail)
    else do
      let (item, b) ← read b
      readUntilBreak read (item :: found) fuel b

def readElements (fuel : Nat) (read : Reader) (perEntry : Nat) (h : Head) (b : Bytes) :
    Option (List Item × Bytes) :=
  if h.info = 31 then do
    let (items, b) ← readUntilBreak read [] fuel b
    if items.length % perEntry = 0 ∧ items.length ≤ maxElements * perEntry then
      return (items, b)
    else none
  else if h.value ≤ maxElements then readMany read [] (h.value * perEntry) b
  else none

def readPiece (major : Nat) : Reader := fun b => do
  let (h, b) ← readHead b
  if h.major ≠ major ∨ h.info = 31 then none
  let (piece, b) ← split? h.value b
  return (.bytes piece, b)

def Item.piece : Item → Bytes
  | .bytes b => b
  | _ => []

def readString (fuel : Nat) (h : Head) (b : Bytes) : Option (List Bytes × Bytes) :=
  if h.info = 31 then do
    let (pieces, b) ← readUntilBreak (readPiece h.major) [] fuel b
    return (pieces.map Item.piece, b)
  else do
    let (piece, b) ← split? h.value b
    return ([piece], b)

def entriesOf : List Item → List (Item × Item)
  | key :: value :: rest => (key, value) :: entriesOf rest
  | _ => []

def readTags : Nat → Bytes → Option (List Nat × Bytes)
  | 0, _ => none
  | fuel + 1, b =>
    match b with
    | c :: _ =>
      if c.toNat / 32 = 6 then do
        let (h, b) ← readHead b
        let (tags, b) ← readTags fuel b
        return (h.value :: tags, b)
      else some ([], b)
    | [] => none

/-- Reads an item that may be nested `depth` deep; every tag but the first of a row counts as one
level, and so does an array or a map. The fuel is more than the depth, and `size` more than the
length of the text. -/
def readItem (size : Nat) : Nat → Nat → Reader
  | 0, _, _ => none
  | fuel + 1, depth, b => do
    let (tags, b) ← readTags (depth + 2) b
    let spent := tags.length - 1
    if depth < spent then none
    let depth := depth - spent
    let (h, b) ← readHead b
    let nested : Reader := readItem size fuel (depth - 1)
    let (item, b) ← match h.major with
      | 0 => some (.uint h.value, b)
      | 1 => some (.negative h.value, b)
      | 2 => (readString size h b).map fun (pieces, b) => (.bytes pieces.flatten, b)
      | 3 => (readString size h b).map fun (pieces, b) => (.text pieces, b)
      | 4 =>
        if depth = 0 then none
        else (readElements size nested 1 h b).map fun (items, b) => (.array items, b)
      | 5 =>
        if depth = 0 then none
        else (readElements size nested 2 h b).map fun (items, b) => (.map (entriesOf items), b)
      | _ =>
        if h.info < 25 then some (.simple h.value, b) else some (.float h.argument, b)
    return (tags.foldr .tag item, b)

def read? (b : Bytes) : Option Item :=
  match readItem (b.length + 1) (maxDepth + 1) maxDepth b with
  | some (item, []) => some item
  | _ => none

end Lox.Cbor

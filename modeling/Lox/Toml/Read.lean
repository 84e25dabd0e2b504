import Lox.Instant
import Lox.Number
import Lox.Utf8

namespace Lox.Toml

abbrev Key := List Bytes

inductive Item where
  | string (text : Bytes)
  | integer (n : Int)
  | float (f : Float)
  | boolean (b : Bool)
  | moment
  | array (items : List Item)
  | table (entries : List (Key × Item))
deriving Inhabited

def Item.isArray : Item → Bool
  | array _ => true
  | _ => false

inductive Statement where
  | header (key : Key)
  | arrayHeader (key : Key)
  | assign (key : Key) (item : Item)

def isBareByte (c : UInt8) : Bool :=
  isLetter c || isDigit c || c = 45

def escapeByte (c : UInt8) : Bytes :=
  match c with
  | 34 => "\\\""
  | 92 => "\\\\"
  | 8 => "\\b"
  | 9 => "\\t"
  | 10 => "\\n"
  | 12 => "\\f"
  | 13 => "\\r"
  | c =>
    if c < 32 || c = 127 then
      let digit (n : Nat) : UInt8 := if n < 10 then (48 + n).toUInt8 else (87 + n).toUInt8
      ("\\u00" : Bytes) ++ [digit (c.toNat / 16), digit (c.toNat % 16)]
    else [c]

def keyPart (part : Bytes) : Bytes :=
  if !part.isEmpty && part.all isBareByte then part
  else 34 :: part.flatMap escapeByte ++ [34]

def Key.text (key : Key) : Bytes :=
  Bytes.join "." (key.map keyPart)

open Ascii

abbrev Reader := ReaderT Nat (StateT Bytes Option)

namespace Reader

def fail {α : Type} : Reader α := fun _ _ => none

def accept (b : Bytes) : Reader Bool := do
  let rest ← get
  if b.isPrefixOf rest then
    set (rest.drop b.length)
    return true
  return false

def expect (b : Bytes) : Reader Unit := do
  unless ← accept b do fail

def takeWhile (p : UInt8 → Bool) : Reader Bytes := do
  let rest ← get
  set (rest.dropWhile p)
  return rest.takeWhile p

def isSpace (c : UInt8) : Bool := c = space || c = tab

def skipSpace : Reader Unit := do
  let _ ← takeWhile isSpace

def atEnd : Reader Bool := return (← get).isEmpty

def dropBlank (comment : Bool) : Bytes → Bytes
  | [] => []
  | c :: r =>
    if c = newline then dropBlank false r
    else if comment then dropBlank true r
    else if isSpace c || c = carriageReturn then dropBlank false r
    else if c = 35 then dropBlank true r
    else c :: r

def skipBlank : Reader Unit := modify (dropBlank false)

def acceptNewline : Reader Bool := do
  if ← accept [newline] then return true
  accept [carriageReturn, newline]

def endLine : Reader Unit := do
  skipSpace
  if ← accept "#" then
    let _ ← takeWhile (· != newline)
  unless (← atEnd) || (← acceptNewline) do fail

def hexNumber (digits : Nat) : Reader Nat := do
  let rest ← get
  let ds ← (rest.take digits).mapM fun c => (hexValue c : Reader Nat)
  if ds.length < digits then fail
  set (rest.drop digits)
  return ds.foldl (fun n d => n * 16 + d) 0

def codePoint (digits : Nat) : Reader Bytes := do
  let n ← hexNumber digits
  unless Utf8.isScalar n do fail
  return Utf8.encode n

def escape : Reader Bytes := do
  let rest ← get
  match rest with
  | [] => fail
  | c :: r =>
    set r
    match c with
    | 98 => return [8]
    | 116 => return [9]
    | 110 => return [10]
    | 102 => return [12]
    | 114 => return [13]
    | 101 => return [27]
    | 34 => return [34]
    | 92 => return [92]
    | 120 => codePoint 2
    | 117 => codePoint 4
    | 85 => codePoint 8
    | _ => fail

def basicRest (found : Bytes) : Nat → Reader Bytes
  | 0 => fail
  | fuel + 1 => do
    match ← get with
    | [] => fail
    | c :: r =>
      if c = newline || c = carriageReturn then fail
      set r
      if c = quote then return found.reverse
      if c = 92 then basicRest ((← escape).reverse ++ found) fuel
      else basicRest (c :: found) fuel

def blankToNewline (b : Bytes) : Bool :=
  match b.dropWhile isSpace with
  | newline :: _ | carriageReturn :: _ => true
  | _ => false

/-- The rest of a string in three double quotes. The last quotes of a run end it, and up to two may
stand before these, or three after an escaped backslash, which `slack` tells. -/
def multilineRest (found : Bytes) (slack : Bool) : Nat → Reader Bytes
  | 0 => fail
  | fuel + 1 => do
    match ← get with
    | [] => fail
    | c :: r =>
      if c = quote then
        let quotes ← takeWhile (· = quote)
        let n := quotes.length
        if (if slack then 6 else 5) < n then fail
        if 3 ≤ n then return (quotes.drop 3 ++ found).reverse
        multilineRest (quotes ++ found) false fuel
      else
        set r
        if c = 92 then
          if blankToNewline r then
            let _ ← takeWhile fun c => isSpace c || c = newline || c = carriageReturn
            multilineRest found false fuel
          else
            let slack := r.head? == some 92
            multilineRest ((← escape).reverse ++ found) slack fuel
        else multilineRest (c :: found) false fuel

def literal : Reader Bytes := do
  let text ← takeWhile fun c => c != 39 && c != newline && c != carriageReturn
  expect "'"
  return text

def multilineLiteralRest (found : Bytes) : Nat → Reader Bytes
  | 0 => fail
  | fuel + 1 => do
    match ← get with
    | [] => fail
    | c :: r =>
      if c = 39 then
        let quotes ← takeWhile (· = 39)
        let n := quotes.length
        if 5 < n then fail
        if 3 ≤ n then return (quotes.drop 3 ++ found).reverse
        multilineLiteralRest (quotes ++ found) fuel
      else
        set r
        multilineLiteralRest (c :: found) fuel

def string? : Reader (Option Bytes) := do
  if ← accept "\"\"\"" then
    let _ ← acceptNewline
    return some (← multilineRest [] false (← read))
  else if ← accept "'''" then
    let _ ← acceptNewline
    return some (← multilineLiteralRest [] (← read))
  else if ← accept "\"" then return some (← basicRest [] (← read))
  else if ← accept "'" then return some (← literal)
  else return none

def simpleKey : Reader Bytes := do
  skipSpace
  if ← accept "\"" then basicRest [] (← read)
  else if ← accept "'" then literal
  else
    let name ← takeWhile isBareByte
    if name.isEmpty then fail
    return name

def keyFrom (found : List Bytes) : Nat → Reader Key
  | 0 => fail
  | fuel + 1 => do
    let part ← simpleKey
    skipSpace
    if ← accept "." then keyFrom (part :: found) fuel
    else return (part :: found).reverse

def key : Reader Key := do
  keyFrom [] (← read)

def digits? (isDig : UInt8 → Bool) (b : Bytes) : Option Bytes :=
  let parts := b.splitOn 95
  if parts.all fun p => !p.isEmpty && p.all isDig then some parts.flatten else none

def natOf (base : Nat) (ds : Bytes) : Nat :=
  ds.foldl (fun n c => n * base + (hexValue c).getD 0) 0

def signed (b : Bytes) : Bool × Bytes :=
  match b with
  | 43 :: r => (false, r)
  | 45 :: r => (true, r)
  | r => (false, r)

def inRange (n : Int) : Option Int :=
  if -0x8000000000000000 ≤ n ∧ n < 0x8000000000000000 then some n else none

def leadingZero (ds : Bytes) : Bool :=
  1 < ds.length && ds.head? == some 48

def integer? (b : Bytes) : Option Int := do
  match b with
  | 48 :: 120 :: r => inRange (natOf 16 (← digits? (fun c => (hexValue c).isSome) r))
  | 48 :: 111 :: r => inRange (natOf 8 (← digits? (fun c => 48 ≤ c && c ≤ 55) r))
  | 48 :: 98 :: r => inRange (natOf 2 (← digits? (fun c => c = 48 || c = 49) r))
  | _ =>
    let (negative, r) := signed b
    let ds ← digits? isDigit r
    if leadingZero ds then none
    let n : Int := natOf 10 ds
    inRange (if negative then -n else n)

def float? (b : Bytes) : Option Float := do
  let (negative, r) := signed b
  let sign (f : Float) : Float := if negative then -f else f
  if r == ("inf" : Bytes) then some (sign (1 / 0))
  else if r == ("nan" : Bytes) then some (0 / 0)
  else
    let isMark (c : UInt8) : Bool := c = 101 || c = 69
    if !r.any isMark && !r.contains point then none
    let mantissa := r.takeWhile (!isMark ·)
    let exponent := (r.dropWhile (!isMark ·)).drop 1
    let (below, power) ← if r.any isMark then
        let (below, e) := signed exponent
        pure (below, natOf 10 (← digits? isDigit e))
      else pure (false, 0)
    let whole ← digits? isDigit (mantissa.takeWhile (· != point))
    let part ← if mantissa.contains point then
        digits? isDigit ((mantissa.dropWhile (· != point)).drop 1)
      else pure []
    if leadingZero whole then none
    let m := natOf 10 (whole ++ part)
    let e : Int := (if below then -(power : Int) else power) - part.length
    let f := if m = 0 then 0 else if e < -100000 then 0 else if 100000 < e then 1 / 0
      else Float.ofScientific m (e < 0) e.natAbs
    if Number.isInfinite f.toBits then none
    some (sign f)

def number2 (b : Bytes) (i : Nat) : Option Nat :=
  match b.drop i with
  | x :: y :: _ => if isDigit x && isDigit y then some (natOf 10 [x, y]) else none
  | _ => none

def afterDate (b : Bytes) : Option Bytes := do
  let century ← number2 b 0
  let year := century * 100 + (← number2 b 2)
  let month ← number2 b 5
  let day ← number2 b 8
  if b[4]? = some 45 ∧ b[7]? = some 45 ∧ Instant.isDate year month day then some (b.drop 10)
  else none

def afterTime (b : Bytes) : Option Bytes := do
  let hour ← number2 b 0
  let minute ← number2 b 3
  if b[2]? ≠ some 58 ∨ 23 < hour ∨ 59 < minute then none
  match b.drop 5 with
  | 58 :: r =>
    let second ← number2 r 0
    if 59 < second then none
    match r.drop 2 with
    | 46 :: r =>
      if (r.takeWhile isDigit).isEmpty then none else some (r.dropWhile isDigit)
    | r => some r
  | r => some r

def isOffset (b : Bytes) : Bool :=
  match b with
  | [] | [90] | [122] => true
  | [c, _, _, 58, _, _] =>
    (c = 43 || c = 45) && (number2 b 1).any (· ≤ 24) && (number2 b 4).any (· ≤ 60)
  | _ => false

def isMoment (b : Bytes) : Bool :=
  match afterDate b with
  | some [] => true
  | some (c :: r) =>
    (c = 84 || c = 116 || c = space) && (afterTime r).any isOffset
  | none => (afterTime b).any (·.isEmpty)

def isWordByte (c : UInt8) : Bool :=
  isBareByte c || c = 43 || c = point || c = 58

def plain : Reader Item := do
  let word ← takeWhile isWordByte
  let rest ← get
  let word ← match afterDate word, rest with
    | some [], space :: c :: _ =>
      if isDigit c then
        set (rest.drop 1)
        pure (word ++ space :: (← takeWhile isWordByte))
      else pure word
    | _, _ => pure word
  if word == ("true" : Bytes) then return .boolean true
  if word == ("false" : Bytes) then return .boolean false
  match integer? word with
  | some n => return .integer n
  | none => match float? word with
    | some f => return .float f
    | none => if isMoment word then return .moment else fail

def arrayRest (item : Reader Item) (found : List Item) : Nat → Reader (List Item)
  | 0 => fail
  | fuel + 1 => do
    skipBlank
    if ← accept "]" then return found.reverse
    let x ← item
    skipBlank
    if ← accept "," then arrayRest item (x :: found) fuel
    else
      expect "]"
      return (x :: found).reverse

def tableRest (item : Reader Item) (found : List (Key × Item)) :
    Nat → Reader (List (Key × Item))
  | 0 => fail
  | fuel + 1 => do
    skipBlank
    if ← accept "\x7d" then return found.reverse
    let k ← key
    expect "="
    skipSpace
    let x ← item
    skipBlank
    if ← accept "," then tableRest item ((k, x) :: found) fuel
    else
      expect "\x7d"
      return ((k, x) :: found).reverse

def value : Nat → Reader Item
  | 0 => fail
  | fuel + 1 => do
    if let some text ← string? then return .string text
    if ← accept "[" then return .array (← arrayRest (value fuel) [] (← read))
    if ← accept "\x7b" then return .table (← tableRest (value fuel) [] (← read))
    plain

def statement : Reader Statement := do
  if ← accept "[[" then
    let k ← key
    expect "]]"
    return .arrayHeader k
  if ← accept "[" then
    let k ← key
    expect "]"
    return .header k
  let k ← key
  expect "="
  skipSpace
  return .assign k (← value (← read))

def statementsFrom (found : List Statement) : Nat → Reader (List Statement)
  | 0 => fail
  | fuel + 1 => do
    skipBlank
    if ← atEnd then return found.reverse
    let s ← statement
    endLine
    statementsFrom (s :: found) fuel

end Reader

def plainBytes : Bytes → Bool
  | [] => true
  | c :: r =>
    if c = carriageReturn then r.head? == some newline && plainBytes r
    else (c ≥ 32 && c != 127 || c = tab || c = newline) && plainBytes r

def dropMark : Bytes → Bytes
  | 0xff :: 0xfe :: r | 0xfe :: 0xff :: r | 0xef :: 0xbb :: 0xbf :: r => r
  | b => b

def statements? (text : Bytes) : Option (List Statement) := do
  let text := dropMark text
  if !Utf8.valid text || !plainBytes text then none
  let bound := text.length + 1
  let (found, _) ← Reader.statementsFrom [] bound bound text
  return found

end Lox.Toml

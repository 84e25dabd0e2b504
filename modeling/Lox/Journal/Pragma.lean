import Lox.Bytes

/-!
Settings of a database: a name and perhaps a value, which follows after an equals sign or stands in
parentheses. A name that is not known says nothing.
-/

namespace Lox.Journal

structure Pragma where
  name : Bytes
  value : Option Bytes := none

namespace Pragma

open Ascii

inductive Token where
  | word (quoted : Bool) (b : Bytes)
  | number (b : Bytes)
  | mark (c : UInt8)
deriving DecidableEq

def isBlank (c : UInt8) : Bool :=
  c = space || c = tab || c = newline || c = 12 || c = carriageReturn

def isWordByte (c : UInt8) : Bool :=
  isLetter c || isDigit c || c = 36 || 128 ≤ c

def closing? (c : UInt8) : Option UInt8 :=
  if c = quote || c = 39 || c = 96 then some c else if c = 91 then some 93 else none

def quoted? (last : UInt8) : Bytes → Option (Bytes × Bytes)
  | [] => none
  | c :: r =>
    if c ≠ last then (quoted? last r).map fun (b, rest) => (c :: b, rest)
    else
      match r with
      | d :: s =>
        if d = last ∧ last ≠ 93 then (quoted? last s).map fun (b, rest) => (c :: b, rest)
        else some ([], d :: s)
      | [] => some ([], [])

def powerLength : Bytes → Nat
  | e :: r =>
    let signs := if r.head? = some 43 ∨ r.head? = some 45 then 1 else 0
    let digits := ((r.drop signs).takeWhile isDigit).length
    if (e = 101 ∨ e = 69) ∧ 0 < digits then 1 + signs + digits else 0
  | [] => 0

def numberLength (b : Bytes) : Nat :=
  match b with
  | 48 :: x :: r =>
    let digits := (r.takeWhile fun c => (hexValue c).isSome).length
    if (x = 120 ∨ x = 88) ∧ 0 < digits then 2 + digits else decimal b
  | b => decimal b
where
  decimal (b : Bytes) : Nat :=
    let whole := (b.takeWhile isDigit).length
    let rest := b.drop whole
    let part := if rest.head? = some point then 1 + (rest.tail.takeWhile isDigit).length else 0
    whole + part + powerLength (rest.drop part)

def token? (c : UInt8) (r : Bytes) : Option (Token × Bytes) :=
  if let some last := closing? c then
    (quoted? last r).map fun (b, rest) => (.word true b, rest)
  else if isDigit c || c = point && r.head?.any isDigit then
    let (b, rest) := (c :: r).splitAt (numberLength (c :: r))
    if rest.head?.any isWordByte then none else some (.number b, rest)
  else if isWordByte c && c ≠ 36 then
    let (b, rest) := (c :: r).span isWordByte
    if (c = 120 || c = 88) && b.length = 1 && rest.head? = some 39 then none
    else some (.word false b, rest)
  else if c = equals then
    some (.mark c, if r.head? = some equals then r.tail else r)
  else if [40, 41, 43, 45, point, 59].contains c then some (.mark c, r)
  else none

def afterComment : Bytes → Bytes
  | 42 :: 47 :: r => r
  | _ :: r => afterComment r
  | [] => []

def tokens? : Nat → Bytes → Option (List Token)
  | 0, _ => none
  | _, [] => some []
  | fuel + 1, 45 :: 45 :: r => tokens? fuel (r.dropWhile (· != newline))
  | fuel + 1, 47 :: 42 :: c :: r => tokens? fuel (afterComment (c :: r))
  | fuel + 1, c :: r =>
    if isBlank c then tokens? fuel r
    else do
      let (token, rest) ← token? c r
      return token :: (← tokens? fuel rest)

def reserved : List String :=
  ["add", "all", "alter", "and", "as", "autoincrement", "between", "case", "check", "collate",
    "commit", "constraint", "create", "default", "deferrable", "delete", "distinct", "drop", "else",
    "escape", "except", "exists", "foreign", "from", "group", "having", "in", "index", "insert",
    "intersect", "into", "is", "isnull", "join", "limit", "not", "nothing", "notnull", "null", "on",
    "or", "order", "primary", "references", "returning", "select", "set", "table", "then", "to",
    "transaction", "union", "unique", "update", "using", "values", "when", "where"]

def isOneOf (words : List String) (b : Bytes) : Bool :=
  words.any (Bytes.ofString · == b.lower)

def Token.name? : Token → Option Bytes
  | .word isQuoted b => if !isQuoted && isOneOf reserved b then none else some b
  | _ => none

def Token.value? : Token → Option Bytes
  | .number b => some b
  | .word false b =>
    if isOneOf ["on", "delete", "default"] b then some b else (Token.word false b).name?
  | token => token.name?

def value? : List Token → Option Bytes
  | [token] => token.value?
  | [.mark 43, .number b] => some b
  | [.mark 45, .number b] => some (45 :: b)
  | _ => none

def rest? (name : Bytes) : List Token → Option Pragma
  | [] => some ⟨name, none⟩
  | .mark 61 :: tokens => (value? tokens).map fun value => ⟨name, some value⟩
  | .mark 40 :: tokens =>
    if tokens.getLast? = some (.mark 41) then
      (value? tokens.dropLast).map fun value => ⟨name, some value⟩
    else none
  | _ => none

def ofTokens? : List Token → Option Pragma
  | schema :: .mark 46 :: name :: tokens => do
    if !isOneOf ["main", "temp"] (← schema.name?) then none
    rest? (← name.name?) tokens
  | name :: tokens => do rest? (← name.name?) tokens
  | [] => none

def statement? : List Token → Option (List Pragma)
  | [] => some []
  | .word false word :: tokens =>
    if isOneOf ["pragma"] word then (ofTokens? tokens).map ([·]) else none
  | _ => none

def statements (tokens : List Token) : List Token × List (List Token) :=
  tokens.foldr (fun token (first, others) =>
    if token = .mark 59 then ([], first :: others) else (token :: first, others)) ([], [])

def parse? (b : Bytes) : Option (List Pragma) := do
  let text := b.takeWhile (· != 0)
  let (first, others) := statements (← tokens? (text.length + 1) text)
  return (← ofTokens? first) :: (← others.mapM statement?).flatten

def number (value : Bytes) : Nat :=
  let n := match value with
    | 48 :: x :: r =>
      if x = 120 ∨ x = 88 then
        (r.takeWhile fun c => (hexValue c).isSome).foldl
          (fun n c => n * 16 + (hexValue c).getD 0) 0
      else decimal value
    | value => decimal value
  if n < 0x80000000 then n else 0
where
  decimal (b : Bytes) : Nat :=
    (b.takeWhile isDigit).foldl (fun n c => n * 10 + (c.toNat - 48)) 0

def isOn (value : Bytes) : Bool :=
  if value.head?.any isDigit then number value % 256 != 0 else isOneOf ["on", "yes", "true"] value

structure Limits where
  readOnly : Bool := false
  maxPages : Option Nat := none

namespace Limits

def after? (l : Limits) (p : Pragma) : Option Limits :=
  match p.value with
  | none => some l
  | some value =>
    if isOneOf ["query_only"] p.name then some { l with readOnly := isOn value }
    else if isOneOf ["max_page_count"] p.name then
      some (if 0 < number value then { l with maxPages := some (number value) } else l)
    else if isOneOf ["encoding"] p.name then
      if isOneOf ["utf8", "utf-8", "utf-16le", "utf-16be", "utf16le", "utf16be", "utf-16", "utf16"]
        value then some l else none
    else some l

def allowTables (l : Limits) : Bool :=
  !l.readOnly && l.maxPages.all (4 ≤ ·)

end Limits

end Pragma

end Lox.Journal

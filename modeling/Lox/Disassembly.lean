import Lox.Heap.Basic
import Lox.Opcode

namespace Lox.HeapView

def codeByte (c : Chunk) (offset : Nat) : HeapView UInt8 :=
  match c.code.get? offset with
  | some b => pure b
  | none => throw .outOfRange

def lineAt (c : Chunk) (offset : Nat) : HeapView Int :=
  match c.lines.get? offset with
  | some n => pure n
  | none => throw .outOfRange

def constantAt (c : Chunk) (index : Nat) : HeapView Value :=
  match c.constants.get? index with
  | some v => pure v
  | none => throw .outOfRange

def listingMargin (c : Chunk) (offset : Nat) : HeapView Bytes := do
  let number := Bytes.padLeft 4 48 (Bytes.ofNat offset) ++ (" " : Bytes)
  let line ← lineAt c offset
  let same ← if 0 < offset then pure (line == (← lineAt c (offset - 1))) else pure false
  if same then return number ++ ("   | " : Bytes)
  else return number ++ Bytes.padLeft 4 32 (Bytes.ofInt line) ++ (" " : Bytes)

def mnemonicColumn (op : Opcode) : Bytes :=
  Bytes.padRight 16 32 op.mnemonic ++ (" " : Bytes)

def numberColumn (n : Nat) : Bytes :=
  Bytes.padLeft 4 32 (Bytes.ofNat n)

def listCaptures (c : Chunk) (offset : Nat) : Nat → HeapView (List Bytes)
  | 0 => return []
  | left + 1 => do
    let kind : Bytes := if (← codeByte c offset) = 1 then "local" else "upvalue"
    let index ← codeByte c (offset + 1)
    let line := Bytes.padLeft 4 48 (Bytes.ofNat offset)
      ++ ("      |                     " : Bytes) ++ kind ++ (" " : Bytes)
      ++ Bytes.ofNat index.toNat ++ ("\n" : Bytes)
    return line :: (← listCaptures c (offset + 2) left)

def listOperands (c : Chunk) (offset : Nat) (margin : Bytes) (op : Opcode) : HeapView (Bytes × Nat) := do
  let start := margin ++ mnemonicColumn op
  match op.operands with
  | .none => return (margin ++ Bytes.ofString op.mnemonic ++ ("\n" : Bytes), offset + 1)
  | .constant =>
    let index := (← codeByte c (offset + 1)).toNat
    let value ← formatValue (← constantAt c index)
    return (start ++ numberColumn index ++ (" '" : Bytes) ++ value ++ ("'\n" : Bytes), offset + 2)
  | .byte =>
    let operand ← codeByte c (offset + 1)
    return (start ++ numberColumn operand.toNat ++ ("\n" : Bytes), offset + 2)
  | .jump backward =>
    let distance := (← codeByte c (offset + 1)).toNat * 256 + (← codeByte c (offset + 2)).toNat
    let target : Int := if backward then offset + 3 - distance else offset + 3 + distance
    return (start ++ numberColumn offset ++ (" -> " : Bytes) ++ Bytes.ofInt target
      ++ ("\n" : Bytes), offset + 3)
  | .invoke =>
    let index := (← codeByte c (offset + 1)).toNat
    let count ← codeByte c (offset + 2)
    let value ← formatValue (← constantAt c index)
    return (start ++ ("(" : Bytes) ++ Bytes.ofNat count.toNat ++ (" args) " : Bytes)
      ++ numberColumn index ++ (" '" : Bytes) ++ value ++ ("'\n" : Bytes), offset + 3)
  | .closure =>
    let index := (← codeByte c (offset + 1)).toNat
    let value ← constantAt c index
    let text ← formatValue value
    let captured := (← functionAt (← locOfValue value)).upvalueCount.toNat
    let captures ← listCaptures c (offset + 2) captured
    return (start ++ numberColumn index ++ (" " : Bytes) ++ text ++ ("\n" : Bytes)
      ++ captures.flatten, offset + 2 + 2 * captured)

def listInstruction (c : Chunk) (offset : Nat) : HeapView (Bytes × Nat) := do
  let margin ← listingMargin c offset
  let byte ← codeByte c offset
  match Opcode.ofByte? byte with
  | none =>
    return (margin ++ ("Unknown opcode " : Bytes) ++ Bytes.ofNat byte.toNat ++ ("\n" : Bytes),
      offset + 1)
  | some op => listOperands c offset margin op

def listFrom (c : Chunk) (found : List Bytes) (offset : Nat) : Nat → HeapView (List Bytes)
  | 0 => return found.reverse
  | fuel + 1 => do
    if offset < c.code.size then
      let (text, following) ← listInstruction c offset
      listFrom c (text :: found) following fuel
    else return found.reverse

def listChunk (c : Chunk) (name : Bytes) : HeapView Bytes := do
  let lines ← listFrom c [] 0 c.code.size
  return ("== " : Bytes) ++ name ++ (" ==\n" : Bytes) ++ lines.flatten

/-- A function and those among its constants, outermost first. Each level of nesting takes one unit
of fuel. -/
def functionsFrom : Nat → Loc → HeapView (List Loc)
  | 0, _ => return []
  | fuel + 1, l => do
    let constants := (← functionAt l).chunk.constants.toList
    let nested ← constants.mapM fun v => do
      if ← ofKind v .function then functionsFrom fuel (← locOfValue v) else return []
    return l :: nested.flatten

def functionsOf (l : Loc) : HeapView (List Loc) := do
  functionsFrom ((← read).objects.size + 1) l

def disassemble (l : Loc) : HeapView Bytes := do
  let listings ← (← functionsOf l).mapM fun l => do
    let f ← functionAt l
    let name : Bytes := match f.name with
      | some s => s.chars
      | none => "<script>"
    listChunk f.chunk name
  return listings.flatten

end Lox.HeapView

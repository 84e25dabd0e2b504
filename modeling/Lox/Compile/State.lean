import Lox.Diagnostic
import Lox.Opcode
import Lox.Value

/-!
The state of a compilation: the tokens to come, the functions whose bodies are open, and the orders
that were given for their code.
-/

namespace Lox

inductive FunctionKind where
  | function | initializer | method | script
deriving DecidableEq

structure Local where
  name : Bytes
  -- The depth of its scope; missing while its initializer is compiled.
  depth : Option Nat
  captured : Bool := false

structure Capture where
  index : UInt8
  isLocal : Bool
deriving DecidableEq

structure Scope where
  kind : FunctionKind
  -- The variables in scope, newest first; the slot of one is the number of those after it.
  locals : List Local := []
  captures : List Capture := []
  depth : Nat := 0

structure Extent where
  arity : Nat := 0
  size : Nat := 0
  constants : Nat := 0

/-- A step in the making of functions. Most are about the innermost function that is open. -/
inductive Order where
  | begin
  | name (chars : Bytes)
  | byte (b : UInt8) (line : Nat)
  | patch (offset : Nat) (b : UInt8)
  | number (v : Value)
  | string (chars : Bytes)
  | enclose
  | parameter
  | capture (depth : Nat)
  | finish

structure Compiler where
  upcoming : List Token
  current : Token := ⟨.leftParen, [], 0⟩
  previous : Token := ⟨.leftParen, [], 0⟩
  panicking : Bool := false
  -- Newest first.
  diagnostics : List Diagnostic := []
  -- Innermost first.
  scopes : List Scope := []
  -- Innermost first.
  extents : List Extent := []
  -- For each open class, innermost first, whether it has a superclass.
  classes : List Bool := []
  -- Newest first.
  orders : List Order := []
  stuck : Bool := false

abbrev CompileM := StateM Compiler

namespace CompileM

def giveUp : CompileM Unit :=
  modify fun c => { c with stuck := true }

def problemAt (t : Token) (p : Problem) : CompileM Unit :=
  modify fun c =>
    if c.panicking then c
    else { c with panicking := true, diagnostics := .at_ t p :: c.diagnostics }

def problemAtCurrent (p : Problem) : CompileM Unit := do
  problemAt (← get).current p

def problem (p : Problem) : CompileM Unit := do
  problemAt (← get).previous p

/-- Makes the first token that is no error the current one. At the end of the text the current
token stays. -/
def advanceTo : List Token → CompileM Unit
  | [] => pure ()
  | t :: rest => do
    modify fun c => { c with current := t, upcoming := rest }
    if t.kind = .error then
      problemAt t (.lexical t.lexeme)
      advanceTo rest

def advance : CompileM Unit := do
  modify fun c => { c with previous := c.current }
  advanceTo (← get).upcoming

def check (k : TokenKind) : CompileM Bool :=
  return (← get).current.kind = k

def accept (k : TokenKind) : CompileM Bool := do
  if ← check k then
    advance
    return true
  else return false

def consume (k : TokenKind) (what : String) : CompileM Unit := do
  if ← check k then advance else problemAtCurrent (.expected what)

def lexeme : CompileM Bytes :=
  return (← get).previous.lexeme

def loop : Nat → CompileM Bool → CompileM Unit
  | 0, _ => giveUp
  | n + 1, body => do
    if ← body then loop n body

def beginsStatement : TokenKind → Bool
  | .class_ | .fun_ | .var_ | .for_ | .if_ | .while_ | .print_ | .return_ => true
  | _ => false

def synchronize (n : Nat) : CompileM Unit := do
  modify fun c => { c with panicking := false }
  loop n do
    let c ← get
    if c.current.kind = .eof || c.previous.kind = .semicolon || beginsStatement c.current.kind then
      return false
    advance
    return true

def scope : CompileM Scope :=
  return (← get).scopes.headD { kind := .script }

def modifyScope (f : Scope → Scope) : CompileM Unit :=
  modify fun c => { c with scopes := match c.scopes with
    | s :: rest => f s :: rest
    | [] => [] }

def extent : CompileM Extent :=
  return (← get).extents.headD {}

def order (o : Order) : CompileM Unit :=
  modify fun c => { c with orders := o :: c.orders }

def extend (o : Order) (f : Extent → Extent) : CompileM Unit :=
  modify fun c => { c with
    orders := o :: c.orders
    extents := match c.extents with
      | e :: rest => f e :: rest
      | [] => [] }

def codeSize : CompileM Nat :=
  return (← extent).size

def emitByte (b : UInt8) : CompileM Unit := do
  extend (.byte b (← get).previous.line) fun e => { e with size := e.size + 1 }

def emit (op : Opcode) : CompileM Unit :=
  emitByte op.toByte

def emitWith (op : Opcode) (operand : UInt8) : CompileM Unit := do
  emit op
  emitByte operand

def emitJump (op : Opcode) : CompileM Nat := do
  emit op
  emitByte 0xff
  emitByte 0xff
  return (← codeSize) - 2

def patchJump (place : Nat) : CompileM Unit := do
  let distance := (← codeSize) - place - 2
  if 65535 < distance then problem .jumpTooLong
  order (.patch place (distance / 256).toUInt8)
  order (.patch (place + 1) distance.toUInt8)

def emitLoop (start : Nat) : CompileM Unit := do
  emit .loop
  let distance := (← codeSize) - start + 2
  if 65535 < distance then problem .loopTooLong
  emitByte (distance / 256).toUInt8
  emitByte distance.toUInt8

def emitReturn : CompileM Unit := do
  if (← scope).kind = .initializer then emitWith .getLocal 0 else emit .nil
  emit .return_

def makeConstant (o : Order) : CompileM UInt8 := do
  let index := (← extent).constants
  extend o fun e => { e with constants := e.constants + 1 }
  if 256 ≤ index then
    problem .tooManyConstants
    return 0
  return index.toUInt8

def emitConstant (o : Order) : CompileM Unit := do
  emitWith .constant (← makeConstant o)

def nameConstant (name : Bytes) : CompileM UInt8 :=
  makeConstant (.string name)

end CompileM

end Lox

import Lox.Compile.Scope

namespace Lox

inductive Goal where
  | declaration
  | statement
  | expression (precedence : Nat)

namespace Precedence

def assignment : Nat := 1
def or_ : Nat := 2
def and_ : Nat := 3
def equality : Nat := 4
def comparison : Nat := 5
def term : Nat := 6
def factor : Nat := 7
def unary : Nat := 8
def call : Nat := 9

def of : TokenKind → Nat
  | .leftParen | .dot => call
  | .minus | .plus => term
  | .slash | .star => factor
  | .bangEqual | .equalEqual => equality
  | .greater | .greaterEqual | .less | .lessEqual => comparison
  | .and_ => and_
  | .or_ => or_
  | _ => 0

end Precedence

namespace CompileM

variable (parse : Goal → CompileM Unit) (n : Nat)

def expression : CompileM Unit :=
  parse (.expression Precedence.assignment)

def namedVariable (name : Bytes) (canAssign : Bool) : CompileM Unit := do
  let (getOp, setOp, operand) ← resolve name
  if ← pure canAssign <&&> accept .equal then
    expression parse
    emitWith setOp operand
  else emitWith getOp operand

def variable_ (canAssign : Bool) : CompileM Unit := do
  namedVariable parse (← lexeme) canAssign

def numberLiteral : CompileM Unit := do
  let f := Number.ofLiteral (← lexeme)
  if Number.isInfinite f.toBits then problem .numberLiteral
  else emitConstant (.number (.number f))

def stringLiteral : CompileM Unit := do
  let quoted ← lexeme
  if quoted.length < 2 then giveUp
  emitConstant (.string (quoted.drop 1).dropLast)

def grouping : CompileM Unit := do
  expression parse
  consume .rightParen "')' after expression"

def unary (operator : TokenKind) : CompileM Unit := do
  parse (.expression Precedence.unary)
  emit (if operator = .bang then .not else .negate)

def argumentsFrom (count : Nat) : Nat → CompileM Nat
  | 0 => do
    giveUp
    return count
  | fuel + 1 => do
    expression parse
    if count = 255 then problem .tooManyArguments
    if ← accept .comma then argumentsFrom (count + 1) fuel
    else return count + 1

def argumentList : CompileM UInt8 := do
  let count ← if ← check .rightParen then pure 0 else argumentsFrom parse 0 n
  consume .rightParen "')' after arguments"
  return count.toUInt8

def call : CompileM Unit := do
  emitWith .call (← argumentList parse n)

def property (name : UInt8) (canAssign : Bool) : CompileM Unit := do
  if ← pure canAssign <&&> accept .equal then
    expression parse
    emitWith .setProperty name
  else if ← accept .leftParen then
    let count ← argumentList parse n
    emitWith .invoke name
    emitByte count
  else emitWith .getProperty name

def dot (canAssign : Bool) : CompileM Unit := do
  consume .identifier "property name after '.'"
  property parse n (← nameConstant (← lexeme)) canAssign

def this_ : CompileM Unit := do
  if (← get).classes.isEmpty then problem .thisOutsideClass
  else variable_ parse false

def superMethod (name : UInt8) : CompileM Unit := do
  namedVariable parse "this" false
  if ← accept .leftParen then
    let count ← argumentList parse n
    namedVariable parse "super" false
    emitWith .superInvoke name
    emitByte count
  else
    namedVariable parse "super" false
    emitWith .getSuper name

def super_ : CompileM Unit := do
  match (← get).classes with
  | [] => problem .superOutsideClass
  | hasSuperclass :: _ => unless hasSuperclass do problem .superWithoutSuperclass
  consume .dot "'.' after 'super'"
  consume .identifier "superclass method name"
  superMethod parse n (← nameConstant (← lexeme))

def binaryCode : TokenKind → List Opcode
  | .bangEqual => [.equal, .not]
  | .equalEqual => [.equal]
  | .greater => [.greater]
  | .greaterEqual => [.less, .not]
  | .less => [.less]
  | .lessEqual => [.greater, .not]
  | .plus => [.add]
  | .minus => [.subtract]
  | .star => [.multiply]
  | .slash => [.divide]
  | _ => []

def binary (operator : TokenKind) : CompileM Unit := do
  parse (.expression (Precedence.of operator + 1))
  (binaryCode operator).forM emit

def and_ : CompileM Unit := do
  let endJump ← emitJump .jumpIfFalse
  emit .pop
  parse (.expression Precedence.and_)
  patchJump endJump

def or_ : CompileM Unit := do
  let elseJump ← emitJump .jumpIfFalse
  let endJump ← emitJump .jump
  patchJump elseJump
  emit .pop
  parse (.expression Precedence.or_)
  patchJump endJump

def prefixRule (canAssign : Bool) : TokenKind → Option (CompileM Unit)
  | .leftParen => some (grouping parse)
  | .minus => some (unary parse .minus)
  | .bang => some (unary parse .bang)
  | .identifier => some (variable_ parse canAssign)
  | .string => some stringLiteral
  | .number => some numberLiteral
  | .false_ => some (emit .false)
  | .nil_ => some (emit .nil)
  | .true_ => some (emit .true)
  | .super_ => some (super_ parse n)
  | .this_ => some (this_ parse)
  | _ => none

def infixRule (canAssign : Bool) : TokenKind → CompileM Unit
  | .leftParen => call parse n
  | .dot => dot parse n canAssign
  | .and_ => and_ parse
  | .or_ => or_ parse
  | operator => binary parse operator

def parsePrecedence (precedence : Nat) : CompileM Unit := do
  advance
  let canAssign : Bool := precedence ≤ Precedence.assignment
  match prefixRule parse n canAssign (← get).previous.kind with
  | none => problem (.expected "expression")
  | some rule =>
    rule
    loop n do
      if precedence ≤ Precedence.of (← get).current.kind then
        advance
        infixRule parse n canAssign (← get).previous.kind
        return true
      else return false
    if ← pure canAssign <&&> accept .equal then problem .assignmentTarget

def block : CompileM Unit := do
  loop n do
    if ← check .rightBrace <||> check .eof then return false
    parse .declaration
    return true
  consume .rightBrace "'\x7d' after block"

def printStatement : CompileM Unit := do
  expression parse
  consume .semicolon "';' after value"
  emit .print

def expressionStatement : CompileM Unit := do
  expression parse
  consume .semicolon "';' after expression"
  emit .pop

def returnStatement : CompileM Unit := do
  let kind := (← scope).kind
  if kind = .script then problem .returnFromScript
  if ← accept .semicolon then emitReturn
  else
    if kind = .initializer then problem .returnFromInitializer
    expression parse
    consume .semicolon "';' after return value"
    emit .return_

def ifStatement : CompileM Unit := do
  consume .leftParen "'(' after 'if'"
  expression parse
  consume .rightParen "')' after condition"
  let thenJump ← emitJump .jumpIfFalse
  emit .pop
  parse .statement
  let elseJump ← emitJump .jump
  patchJump thenJump
  emit .pop
  if ← accept .else_ then parse .statement
  patchJump elseJump

def whileStatement : CompileM Unit := do
  let start ← codeSize
  consume .leftParen "'(' after 'while'"
  expression parse
  consume .rightParen "')' after condition"
  let exitJump ← emitJump .jumpIfFalse
  emit .pop
  parse .statement
  emitLoop start
  patchJump exitJump
  emit .pop

def varDeclaration : CompileM Unit := do
  let global ← parseVariable "variable name"
  if ← accept .equal then expression parse else emit .nil
  consume .semicolon "';' after variable declaration"
  defineVariable global

def forCondition : CompileM (Option Nat) := do
  if ← accept .semicolon then return none
  expression parse
  consume .semicolon "';' after loop condition"
  let exitJump ← emitJump .jumpIfFalse
  emit .pop
  return some exitJump

def forIncrement (start : Nat) : CompileM Nat := do
  if ← accept .rightParen then return start
  let bodyJump ← emitJump .jump
  let incrementStart ← codeSize
  expression parse
  emit .pop
  consume .rightParen "')' after for clauses"
  emitLoop start
  patchJump bodyJump
  return incrementStart

def forInitializer : CompileM Unit := do
  if ← accept .semicolon then pure ()
  else if ← accept .var_ then varDeclaration parse
  else expressionStatement parse

def forStatement : CompileM Unit := do
  beginScope
  consume .leftParen "'(' after 'for'"
  forInitializer parse
  let start ← codeSize
  let exitJump ← forCondition parse
  let back ← forIncrement parse start
  parse .statement
  emitLoop back
  if let some place := exitJump then
    patchJump place
    emit .pop
  endScope

def statement : CompileM Unit := do
  if ← accept .print_ then printStatement parse
  else if ← accept .for_ then forStatement parse
  else if ← accept .if_ then ifStatement parse
  else if ← accept .return_ then returnStatement parse
  else if ← accept .while_ then whileStatement parse
  else if ← accept .leftBrace then
    beginScope
    block parse n
    endScope
  else expressionStatement parse

def parameters : CompileM Unit :=
  loop n do
    extend .parameter fun e => { e with arity := e.arity + 1 }
    if 255 < (← extent).arity then problemAtCurrent .tooManyParameters
    defineVariable (← parseVariable "parameter name")
    accept .comma

def functionBody : CompileM Unit := do
  beginScope
  consume .leftParen "'(' after function name"
  unless ← check .rightParen do parameters n
  consume .rightParen "')' after parameters"
  consume .leftBrace "'\x7b' before function body"
  block parse n

def function (kind : FunctionKind) : CompileM Unit := do
  beginFunction kind
  functionBody parse n
  let captures ← endFunction
  emitWith .closure (← makeConstant .enclose)
  captures.forM fun c => do
    emitByte (if c.isLocal then 1 else 0)
    emitByte c.index

def method : CompileM Unit := do
  consume .identifier "method name"
  let name ← lexeme
  let constant ← nameConstant name
  function parse n (if name = ("init" : Bytes) then .initializer else .method)
  emitWith .method constant

def superclass (className : Bytes) : CompileM Unit := do
  consume .identifier "superclass name"
  variable_ parse false
  if className = (← lexeme) then problem .ownSuperclass
  beginScope
  addLocal "super"
  defineVariable 0
  namedVariable parse className false
  emit .inherit
  modify fun c => { c with classes := true :: c.classes.tail }

def classDeclaration : CompileM Unit := do
  consume .identifier "class name"
  let className ← lexeme
  let constant ← nameConstant className
  declareVariable
  emitWith .class_ constant
  defineVariable constant
  modify fun c => { c with classes := false :: c.classes }
  if ← accept .less then superclass parse className
  namedVariable parse className false
  consume .leftBrace "'\x7b' before class body"
  loop n do
    if ← check .rightBrace <||> check .eof then return false
    method parse n
    return true
  consume .rightBrace "'\x7d' after class body"
  emit .pop
  if (← get).classes.head? = some true then endScope
  modify fun c => { c with classes := c.classes.tail }

def funDeclaration : CompileM Unit := do
  let global ← parseVariable "function name"
  markInitialized
  function parse n .function
  defineVariable global

def declarationOrStatement : CompileM Unit := do
  if ← accept .class_ then classDeclaration parse n
  else if ← accept .fun_ then funDeclaration parse n
  else if ← accept .var_ then varDeclaration parse
  else parse .statement

def declaration : CompileM Unit := do
  declarationOrStatement parse n
  if (← get).panicking then synchronize n

def production : Goal → CompileM Unit
  | .declaration => declaration parse n
  | .statement => statement parse n
  | .expression precedence => parsePrecedence parse n precedence

end CompileM

end Lox

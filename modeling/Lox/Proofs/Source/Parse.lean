import Lox.Compile.Grammar
import Lox.Token

/-!
The syntax trees of the language.
-/

namespace Lox

inductive UnaryOp where
  | not | negate
deriving DecidableEq

inductive BinaryOp where
  | equal | notEqual | greater | greaterEqual | less | lessEqual
  | add | subtract | multiply | divide
deriving DecidableEq

def BinaryOp.ofToken? : TokenKind → Option BinaryOp
  | .equalEqual => some .equal
  | .bangEqual => some .notEqual
  | .greater => some .greater
  | .greaterEqual => some .greaterEqual
  | .less => some .less
  | .lessEqual => some .lessEqual
  | .plus => some .add
  | .minus => some .subtract
  | .star => some .multiply
  | .slash => some .divide
  | _ => none

inductive Expr where
  | nil | true_ | false_
  | number (text : Bytes)
  | string (chars : Bytes)
  | variable_ (name : Bytes)
  | assign (name : Bytes) (value : Expr)
  | unary (op : UnaryOp) (operand : Expr)
  | binary (op : BinaryOp) (left right : Expr)
  | and_ (left right : Expr)
  | or_ (left right : Expr)
  | call (callee : Expr) (arguments : List Expr)
  | get (object : Expr) (name : Bytes)
  | set (object : Expr) (name : Bytes) (value : Expr)
  | invoke (object : Expr) (name : Bytes) (arguments : List Expr)
  | this_
  | super_ (name : Bytes)
  | superInvoke (name : Bytes) (arguments : List Expr)

structure Lambda (σ : Type) where
  name : Bytes
  parameters : List Bytes
  body : List σ

inductive Stmt where
  | skip
  | expression (e : Expr)
  | print (e : Expr)
  | return_ (value : Option Expr)
  | if_ (condition : Expr) (then_ else_ : Stmt)
  | while_ (condition : Expr) (body : Stmt)
  | for_ (initializer : Stmt) (condition increment : Option Expr) (body : Stmt)
  | block (body : List Stmt)
  | var_ (name : Bytes) (value : Option Expr)
  | fun_ (f : Lambda Stmt)
  | class_ (name : Bytes) (superclass : Option Bytes) (methods : List (Lambda Stmt))

def Stmt.isDeclaration : Stmt → Bool
  | .var_ .. | .fun_ _ | .class_ .. => true
  | _ => false

structure ClassBody where
  name : Bytes
  superclass : Option Bytes
  methods : List (Lambda Stmt)

mutual

def Stmt.classes : Stmt → List ClassBody
  | .if_ _ s t => s.classes ++ t.classes
  | .while_ _ s => s.classes
  | .for_ i _ _ s => i.classes ++ s.classes
  | .block ss => classesOfAll ss
  | .fun_ f => classesOfLambda f
  | .class_ name superclass methods => classesOfMethods methods ++ [⟨name, superclass, methods⟩]
  | .skip | .expression _ | .print _ | .return_ _ | .var_ .. => []

def Stmt.classesOfAll : List Stmt → List ClassBody
  | [] => []
  | s :: ss => s.classes ++ classesOfAll ss

def Stmt.classesOfLambda : Lambda Stmt → List ClassBody
  | ⟨_, _, body⟩ => classesOfAll body

def Stmt.classesOfMethods : List (Lambda Stmt) → List ClassBody
  | [] => []
  | f :: fs => classesOfLambda f ++ classesOfMethods fs

end

end Lox

namespace Lox

abbrev Parser := StateT (List Token) Option

namespace Parser

def peek : Parser Token := fun ts =>
  match ts with
  | t :: _ => some (t, ts)
  | [] => none

def next : Parser Token := fun ts =>
  match ts with
  | t :: u :: rest => some (t, u :: rest)
  | _ => none

def check (k : TokenKind) : Parser Bool := do
  return (← peek).kind = k

def accept (k : TokenKind) : Parser Bool := do
  if ← check k then
    let _ ← next
    return true
  else return false

def expect (k : TokenKind) : Parser Token := do
  if ← check k then next else failure

structure Parts where
  expression : Nat → Parser Expr
  statement : Parser Stmt
  declaration : Parser Stmt

variable (parts : Parts) (n : Nat)

def expression : Parser Expr :=
  parts.expression Precedence.assignment

def variable_ (name : Bytes) (canAssign : Bool) : Parser Expr := do
  if ← pure canAssign <&&> accept .equal then return .assign name (← expression parts)
  else return .variable_ name

def grouping : Parser Expr := do
  let e ← expression parts
  let _ ← expect .rightParen
  return e

def unary (op : UnaryOp) : Parser Expr := do
  return .unary op (← parts.expression Precedence.unary)

def argumentsFrom : Nat → Parser (List Expr)
  | 0 => failure
  | fuel + 1 => do
    let e ← expression parts
    if ← accept .comma then return e :: (← argumentsFrom fuel) else return [e]

def argumentList : Parser (List Expr) := do
  let arguments ← if ← check .rightParen then pure [] else argumentsFrom parts n
  let _ ← expect .rightParen
  return arguments

def dot (object : Expr) (canAssign : Bool) : Parser Expr := do
  let name := (← expect .identifier).lexeme
  if ← pure canAssign <&&> accept .equal then return .set object name (← expression parts)
  else if ← accept .leftParen then return .invoke object name (← argumentList parts n)
  else return .get object name

def super_ : Parser Expr := do
  let _ ← expect .dot
  let name := (← expect .identifier).lexeme
  if ← accept .leftParen then return .superInvoke name (← argumentList parts n)
  else return .super_ name

def operand (canAssign : Bool) (t : Token) : Parser Expr :=
  match t.kind with
  | .leftParen => grouping parts
  | .minus => unary parts .negate
  | .bang => unary parts .not
  | .identifier => variable_ parts t.lexeme canAssign
  | .string => return .string (t.lexeme.drop 1).dropLast
  | .number => return .number t.lexeme
  | .false_ => return .false_
  | .nil_ => return .nil
  | .true_ => return .true_
  | .super_ => super_ parts n
  | .this_ => return .this_
  | _ => failure

def binary (left : Expr) (k : TokenKind) : Parser Expr := do
  let right ← parts.expression (Precedence.of k + 1)
  match BinaryOp.ofToken? k with
  | some op => return .binary op left right
  | none => failure

def operation (canAssign : Bool) (e : Expr) : TokenKind → Parser Expr
  | .leftParen => return .call e (← argumentList parts n)
  | .dot => dot parts n e canAssign
  | .and_ => return .and_ e (← parts.expression Precedence.and_)
  | .or_ => return .or_ e (← parts.expression Precedence.or_)
  | k => binary parts e k

def operations (precedence : Nat) (canAssign : Bool) : Nat → Expr → Parser Expr
  | 0, _ => failure
  | fuel + 1, e => do
    if precedence ≤ Precedence.of (← peek).kind then
      let t ← next
      operations precedence canAssign fuel (← operation parts n canAssign e t.kind)
    else return e

def parsePrecedence (precedence : Nat) : Parser Expr := do
  let t ← next
  let canAssign : Bool := precedence ≤ Precedence.assignment
  let e ← operations parts n precedence canAssign n (← operand parts n canAssign t)
  if ← pure canAssign <&&> check .equal then failure else return e

def declarations : Nat → Parser (List Stmt)
  | 0 => failure
  | fuel + 1 => do
    if ← check .rightBrace <||> check .eof then return []
    else
      let s ← parts.declaration
      return s :: (← declarations fuel)

def block : Parser (List Stmt) := do
  let body ← declarations parts n
  let _ ← expect .rightBrace
  return body

def clause (closing : TokenKind) : Parser Expr := do
  let e ← expression parts
  let _ ← expect closing
  return e

def returnStatement : Parser Stmt := do
  if ← accept .semicolon then return .return_ none
  else return .return_ (some (← clause parts .semicolon))

def ifStatement : Parser Stmt := do
  let _ ← expect .leftParen
  let condition ← clause parts .rightParen
  let then_ ← parts.statement
  if ← accept .else_ then return .if_ condition then_ (← parts.statement)
  else return .if_ condition then_ .skip

def whileStatement : Parser Stmt := do
  let _ ← expect .leftParen
  let condition ← clause parts .rightParen
  return .while_ condition (← parts.statement)

def varDeclaration : Parser Stmt := do
  let name := (← expect .identifier).lexeme
  let value ← if ← accept .equal then some <$> expression parts else pure none
  let _ ← expect .semicolon
  return .var_ name value

def forInitializer : Parser Stmt := do
  if ← accept .semicolon then return .skip
  else if ← accept .var_ then varDeclaration parts
  else return .expression (← clause parts .semicolon)

def clause? (closing : TokenKind) : Parser (Option Expr) := do
  if ← accept closing then return none else return some (← clause parts closing)

def forStatement : Parser Stmt := do
  let _ ← expect .leftParen
  let initializer ← forInitializer parts
  let condition ← clause? parts .semicolon
  let increment ← clause? parts .rightParen
  return .for_ initializer condition increment (← parts.statement)

def statement : Parser Stmt := do
  if ← accept .print_ then return .print (← clause parts .semicolon)
  else if ← accept .for_ then forStatement parts
  else if ← accept .if_ then ifStatement parts
  else if ← accept .return_ then returnStatement parts
  else if ← accept .while_ then whileStatement parts
  else if ← accept .leftBrace then return .block (← block parts n)
  else return .expression (← clause parts .semicolon)

def parameters : Nat → Parser (List Bytes)
  | 0 => failure
  | fuel + 1 => do
    let name := (← expect .identifier).lexeme
    if ← accept .comma then return name :: (← parameters fuel) else return [name]

def lambda (name : Bytes) : Parser (Lambda Stmt) := do
  let _ ← expect .leftParen
  let parameters ← if ← check .rightParen then pure [] else parameters n
  let _ ← expect .rightParen
  let _ ← expect .leftBrace
  return ⟨name, parameters, ← block parts n⟩

def methods : Nat → Parser (List (Lambda Stmt))
  | 0 => failure
  | fuel + 1 => do
    if ← check .rightBrace <||> check .eof then return []
    else
      let name := (← expect .identifier).lexeme
      let f ← lambda parts n name
      return f :: (← methods fuel)

def classDeclaration : Parser Stmt := do
  let name := (← expect .identifier).lexeme
  let superclass ← if ← accept .less then (fun t => some t.lexeme) <$> expect .identifier else pure none
  let _ ← expect .leftBrace
  let ms ← methods parts n n
  let _ ← expect .rightBrace
  return .class_ name superclass ms

def funDeclaration : Parser Stmt := do
  let name := (← expect .identifier).lexeme
  return .fun_ (← lambda parts n name)

def declaration : Parser Stmt := do
  if ← accept .class_ then classDeclaration parts n
  else if ← accept .fun_ then funDeclaration parts n
  else if ← accept .var_ then varDeclaration parts
  else parts.statement

def upTo : Nat → Parts
  | 0 => ⟨fun _ => failure, failure, failure⟩
  | n + 1 =>
    { expression := parsePrecedence (upTo n) n
      statement := statement (upTo n) n
      declaration := declaration (upTo n) n }

class Bodies (p : Parser Stmt) : Prop where
  isDeclaration : ∀ ts s ts', p ts = some (s, ts') → s.isDeclaration = false

namespace Bodies

variable {α : Type}

theorem pure {s : Stmt} (h : s.isDeclaration = false) : Bodies (pure s) where
  isDeclaration _ _ _ hs := by
    cases hs
    exact h

instance bind {x : Parser α} {f : α → Parser Stmt} [hf : ∀ a, Bodies (f a)] : Bodies (x >>= f) where
  isDeclaration ts s ts' h := by
    obtain ⟨⟨a, ts₁⟩, -, h⟩ := Option.bind_eq_some_iff.mp h
    exact (hf a).isDeclaration ts₁ s ts' h

instance ite {p : Prop} [Decidable p] {x y : Parser Stmt} [hx : Bodies x] [hy : Bodies y] :
    Bodies (if p then x else y) := by
  split
  · exact hx
  · exact hy

instance ifStatement (parts : Parts) : Bodies (Parser.ifStatement parts) := by
  have hif (e : Expr) (s s' : Stmt) : Bodies (Pure.pure (Stmt.if_ e s s')) := pure rfl
  unfold Parser.ifStatement
  infer_instance

instance forStatement (parts : Parts) : Bodies (Parser.forStatement parts) := by
  have hfor (s s' : Stmt) (e e' : Option Expr) : Bodies (Pure.pure (Stmt.for_ s e e' s')) := pure rfl
  unfold Parser.forStatement
  infer_instance

instance returnStatement (parts : Parts) : Bodies (Parser.returnStatement parts) := by
  have hreturn (e : Option Expr) : Bodies (Pure.pure (Stmt.return_ e)) := pure rfl
  unfold Parser.returnStatement
  infer_instance

instance whileStatement (parts : Parts) : Bodies (Parser.whileStatement parts) := by
  have hwhile (e : Expr) (s : Stmt) : Bodies (Pure.pure (Stmt.while_ e s)) := pure rfl
  unfold Parser.whileStatement
  infer_instance

set_option synthInstance.maxSize 1024 in
instance statement (parts : Parts) (n : Nat) : Bodies (Parser.statement parts n) := by
  have hprint (e : Expr) : Bodies (Pure.pure (Stmt.print e)) := pure rfl
  have hexpression (e : Expr) : Bodies (Pure.pure (Stmt.expression e)) := pure rfl
  have hblock (body : List Stmt) : Bodies (Pure.pure (Stmt.block body)) := pure rfl
  unfold Parser.statement
  infer_instance

instance upTo (n : Nat) : Bodies (Parser.upTo n).statement := by
  cases n with
  | zero => exact ⟨fun _ _ _ h => nomatch h⟩
  | succ n => exact statement (Parser.upTo n) n

end Bodies

def script (parts : Parts) : Nat → Parser (List Stmt)
  | 0 => failure
  | fuel + 1 => do
    if ← check .eof then return []
    else
      let s ← parts.declaration
      return s :: (← script parts fuel)

end Parser

def parse? (tokens : List Token) : Option (List Stmt) :=
  let fuel := 4 * (tokens.length + 1)
  (Parser.script (Parser.upTo fuel) fuel tokens).map (·.1)

end Lox

import Lox.Machine
import Lox.Proofs.Ideal.World
import Lox.Proofs.Source.Parse

/-!
An evaluator of programs without classes, over the syntax tree. The variables in scope are names with cells;
a declaration that is not global makes a new cell, and a function keeps the variables that are in scope where it
is declared.
-/

namespace Lox

abbrev Bindings := List (Bytes × Nat)

/-- A function with the variables in scope at its declaration. The script is one too; it has no name. -/
structure Procedure where
  name : Option Bytes
  parameters : List Bytes
  body : List Stmt
  bindings : Bindings

namespace Procedure

def text (p : Procedure) : Bytes :=
  match p.name with
  | some name => ("<fn " : Bytes) ++ name ++ (">" : Bytes)
  | none => "<script>"

end Procedure

inductive Callable where
  | native (n : Native)
  | procedure (p : Procedure)

structure Store where
  clock : Clock
  callables : List Callable
  cells : List Val := []
  globals : Dict Val
  -- Newest first.
  printed : List Bytes := []

namespace Store

def new (clock : Clock) (body : List Stmt) : Store where
  clock
  callables := EmbedM.builtins.map .native ++ [.procedure ⟨none, [], body, []⟩]
  globals := (Dict.empty.set "clock" (.object 0)).set "gc" (.object 1)

def text (s : Store) : Val → Bytes
  | .nil => "nil"
  | .bool true => "true"
  | .bool false => "false"
  | .number bits => Number.format bits
  | .string chars => chars
  | .object a =>
    match s.callables[a]? with
    | some (.procedure p) => p.text
    | some (.native _) => "<native fn>"
    | none => []

end Store

inductive Halt where
  | timeout
  | problem (p : RuntimeProblem)
  | unsupported

abbrev EvalM := EStateM Halt Store

/-- How it goes on after a statement: with these variables in scope, or with the return of a value. -/
inductive Sequel where
  | onward (bindings : Bindings)
  | return_ (v : Val)

/-- What a function answers that ends so. -/
def Sequel.value : Sequel → Val
  | onward _ => .nil
  | return_ v => v

namespace EvalM

variable {α : Type}

def fail (p : RuntimeProblem) : EvalM α :=
  throw (.problem p)

def ofExcept : Except RuntimeProblem α → EvalM α
  | .ok a => return a
  | .error p => fail p

def allocate (v : Val) : EvalM Nat :=
  modifyGet fun s => (s.cells.length, { s with cells := s.cells ++ [v] })

def create (c : Callable) : EvalM Val :=
  modifyGet fun s => (.object s.callables.length, { s with callables := s.callables ++ [c] })

def setGlobal (name : Bytes) (v : Val) : EvalM Unit :=
  modify fun s => { s with globals := s.globals.set name v }

def print (v : Val) : EvalM Unit :=
  modify fun s => { s with printed := (s.text v ++ ("\n" : Bytes)) :: s.printed }

def read (bindings : Bindings) (name : Bytes) : EvalM Val := do
  let s ← get
  match bindings.lookup name with
  | some c => return s.cells[c]?.getD .nil
  | none =>
    match s.globals name with
    | some v => return v
    | none => fail (.undefinedVariable name)

def write (bindings : Bindings) (name : Bytes) (v : Val) : EvalM Unit := do
  match bindings.lookup name with
  | some c => modify fun s => { s with cells := s.cells.set c v }
  | none =>
    match (← get).globals name with
    | some _ => setGlobal name v
    | none => fail (.undefinedVariable name)

def define (inside : Bool) (bindings : Bindings) (name : Bytes) (v : Val) : EvalM Sequel := do
  if inside then return .onward ((name, ← allocate v) :: bindings)
  else
    setGlobal name v
    return .onward bindings

def andThen (x : EvalM Sequel) (f : Bindings → EvalM Sequel) : EvalM Sequel := do
  match ← x with
  | .onward bindings => f bindings
  | .return_ v => return .return_ v

/-- Runs the body as long as the condition holds, up to some number of times. -/
def loop (bindings : Bindings) (condition : EvalM Bool) (body : EvalM Sequel) : Nat → EvalM Sequel
  | 0 => throw .timeout
  | n + 1 => do
    if ← condition then andThen body fun _ => loop bindings condition body n
    else return .onward bindings

def host : HostFunction → EvalM Val
  | .clock => modifyGet fun s => (.ofFloat s.clock.now, { s with clock := s.clock.advance })
  | .gc => return .nil
  | .custom _ => throw .unsupported

def callNative (n : Native) (count : Nat) : EvalM Val := do
  if let some arity := n.arity then
    if count ≠ arity then fail (.arity arity count)
  host n.behaviour

end EvalM

def UnaryOp.apply : UnaryOp → Val → Except RuntimeProblem Val
  | not, v => .ok (.bool v.isFalsey)
  | negate, .number a => .ok (.ofFloat (-(Float.ofBits a)))
  | negate, _ => .error .operandNotNumber

namespace BinaryOp

def arithmetic (f : Float → Float → Val) : Val → Val → Except RuntimeProblem Val
  | .number a, .number b => .ok (f (Float.ofBits a) (Float.ofBits b))
  | _, _ => .error .operandsNotNumbers

def sum : Val → Val → Except RuntimeProblem Val
  | .string a, .string b => .ok (.string (a ++ b))
  | .number a, .number b => .ok (.ofFloat (Float.ofBits a + Float.ofBits b))
  | _, _ => .error .operandsNotAddable

def apply (op : BinaryOp) (a b : Val) : Except RuntimeProblem Val :=
  match op with
  | equal => .ok (.bool (a.equal b))
  | notEqual => .ok (.bool !(a.equal b))
  | greater => arithmetic (fun x y => .bool (y < x)) a b
  | greaterEqual => arithmetic (fun x y => .bool !(x < y)) a b
  | less => arithmetic (fun x y => .bool (x < y)) a b
  | lessEqual => arithmetic (fun x y => .bool !(y < x)) a b
  | add => sum a b
  | subtract => arithmetic (fun x y => .ofFloat (x - y)) a b
  | multiply => arithmetic (fun x y => .ofFloat (x * y)) a b
  | divide => arithmetic (fun x y => .ofFloat (x / y)) a b

end BinaryOp

open EvalM

section

variable (call : Val → List Val → EvalM Val)

mutual

def Expr.eval (bindings : Bindings) : Expr → EvalM Val
  | .nil => return .nil
  | .true_ => return .bool true
  | .false_ => return .bool false
  | .number text => return .ofFloat (Number.ofLiteral text)
  | .string chars => return .string chars
  | .variable_ name => read bindings name
  | .assign name value => do
    let v ← value.eval bindings
    write bindings name v
    return v
  | .unary op operand => do
    let v ← operand.eval bindings
    ofExcept (op.apply v)
  | .binary op left right => do
    let a ← left.eval bindings
    let b ← right.eval bindings
    ofExcept (op.apply a b)
  | .and_ left right => do
    let v ← left.eval bindings
    if v.isFalsey then return v else right.eval bindings
  | .or_ left right => do
    let v ← left.eval bindings
    if v.isFalsey then right.eval bindings else return v
  | .call callee arguments => do
    let f ← callee.eval bindings
    let vs ← evalAll bindings arguments
    call f vs
  | .get object _ => do
    let _ ← object.eval bindings
    fail .propertyOfOther
  | .set object _ value => do
    let _ ← object.eval bindings
    let _ ← value.eval bindings
    fail .fieldOfOther
  | .invoke object _ arguments => do
    let _ ← object.eval bindings
    let _ ← evalAll bindings arguments
    fail .methodOfOther
  | .this_ | .super_ _ | .superInvoke .. => throw .unsupported

def Expr.evalAll (bindings : Bindings) : List Expr → EvalM (List Val)
  | [] => return []
  | e :: es => do
    let v ← e.eval bindings
    let vs ← evalAll bindings es
    return v :: vs

end

def Expr.test (bindings : Bindings) (e : Expr) : EvalM Bool := do
  return !(← e.eval call bindings).isFalsey

variable (n : Nat)

mutual

def Stmt.exec (inside : Bool) (bindings : Bindings) : Stmt → EvalM Sequel
  | .skip => return .onward bindings
  | .expression e => do
    let _ ← e.eval call bindings
    return .onward bindings
  | .print e => do
    let v ← e.eval call bindings
    EvalM.print v
    return .onward bindings
  | .return_ value => do
    let v ← (value.getD .nil).eval call bindings
    return .return_ v
  | .if_ condition then_ else_ => do
    if ← condition.test call bindings then then_.exec inside bindings else else_.exec inside bindings
  | .while_ condition body =>
    loop bindings (condition.test call bindings) (body.exec inside bindings) n
  | .for_ initializer condition increment body =>
    andThen (initializer.exec true bindings) fun inner =>
      andThen (loop inner ((condition.getD .true_).test call inner)
        (andThen (body.exec true inner) fun innermost => do
          let _ ← (increment.getD .nil).eval call innermost
          return .onward innermost) n) fun _ => return .onward bindings
  | .block body => andThen (execAll true bindings body) fun _ => return .onward bindings
  | .var_ name value => do
    let v ← (value.getD .nil).eval call bindings
    define inside bindings name v
  | .fun_ f => do
    -- a function that is not global is in its own scope: its cell will be the next one
    let cell := (← get).cells.length
    let visible := if inside then (f.name, cell) :: bindings else bindings
    let v ← create (.procedure ⟨some f.name, f.parameters, f.body, visible⟩)
    define inside bindings f.name v
  | .class_ .. => throw .unsupported

def Stmt.execAll (inside : Bool) (bindings : Bindings) : List Stmt → EvalM Sequel
  | [] => return .onward bindings
  | s :: ss => andThen (s.exec inside bindings) fun inner => execAll inside inner ss

end

end

namespace Procedure

/-- The answer of a function to arguments, where it calls others by what is given. -/
def answer (call : Val → List Val → EvalM Val) (n : Nat) (p : Procedure) (arguments : List Val) : EvalM Val := do
  if arguments.length ≠ p.parameters.length then fail (.arity p.parameters.length arguments.length)
  let cells ← arguments.mapM allocate
  return (← Stmt.execAll call n p.name.isSome ((p.parameters.zip cells).reverse ++ p.bindings) p.body).value

end Procedure

/-- A call, where no more than some number of calls are active at once and no loop takes more turns than that. -/
def callWithin : Nat → Val → List Val → EvalM Val
  | 0, _, _ => throw .timeout
  | n + 1, f, arguments => do
    match f with
    | .object a =>
      match (← get).callables[a]? with
      | some (.procedure p) => p.answer (callWithin n) n arguments
      | some (.native g) => callNative g arguments.length
      | none => fail .notCallable
    | _ => fail .notCallable

/-- What a program comes to on a clock. -/
def evaluate (n : Nat) (clock : Clock) (body : List Stmt) : EStateM.Result Halt Store Sequel :=
  Stmt.execAll (callWithin n) n false [] body (Store.new clock body)

/-- A run has ended as an evaluation did: with the same output, and with its error and the report of it. -/
inductive Ends : EStateM.Result Halt Store Sequel → Progress → List Bytes → Prop
  | done {s : Sequel} {σ : Store} : Ends (.ok s σ) .done σ.printed
  | failed {p : RuntimeProblem} {σ : Store} {e : RuntimeError} : e.message = p.message →
      Ends (.error (.problem p) σ) (.failed (.runtime e)) ((e.text ++ ("\n" : Bytes)) :: σ.printed)

def RuntimeError.IsOverflow (e : RuntimeError) : Prop :=
  e.message = RuntimeProblem.stackOverflow.message

namespace EvalM

variable {α : Type} {x y : EvalM Sequel} {bindings : Bindings}

theorem andThen_onward (bindings : Bindings) (f : Bindings → EvalM Sequel) :
    andThen (pure (.onward bindings)) f = f bindings :=
  rfl

theorem andThen_bind (x : EvalM α) (f : α → EvalM Sequel) (g : Bindings → EvalM Sequel) :
    andThen (x >>= f) g = x >>= fun a => andThen (f a) g :=
  bind_assoc ..

theorem andThen_assoc (x : EvalM Sequel) (f g : Bindings → EvalM Sequel) :
    andThen (andThen x f) g = andThen x fun b => andThen (f b) g := by
  unfold andThen
  rw [bind_assoc]
  congr 1
  funext s
  cases s <;> rfl

/-- What is in scope after the body of a loop does not matter. -/
theorem loop_congr {condition : EvalM Bool} (h : ∀ z, andThen x (fun _ => z) = andThen y fun _ => z) (n : Nat) :
    loop bindings condition x n = loop bindings condition y n := by
  induction n with
  | zero => rfl
  | succ n ih => rw [loop, loop, ih, h]

end EvalM

open EvalM

/-- A for loop is a block with a while loop. -/
theorem Stmt.exec_for (call : Val → List Val → EvalM Val) (n : Nat) (inside : Bool) (bindings : Bindings)
    (initializer body : Stmt) (condition increment : Option Expr) :
    (Stmt.for_ initializer condition increment body).exec call n inside bindings =
      (Stmt.block [initializer, .while_ (condition.getD .true_)
        (.block [body, .expression (increment.getD .nil)])]).exec call n inside bindings := by
  have hturn (inner : Bindings) (z : EvalM Sequel) :
      andThen (andThen (body.exec call n true inner) fun innermost => do
        let _ ← (increment.getD .nil).eval call innermost
        return .onward innermost) (fun _ => z) =
      andThen ((Stmt.block [body, .expression (increment.getD .nil)]).exec call n true inner) fun _ => z := by
    simp only [Stmt.exec, Stmt.execAll, andThen_assoc, andThen_bind, andThen_onward]
  rw [Stmt.exec]
  have hloop (inner : Bindings) (test : EvalM Bool) : loop inner test _ n = loop inner test _ n :=
    loop_congr (hturn inner) n
  simp only [hloop]
  simp only [Stmt.exec, Stmt.execAll, andThen_assoc, andThen_onward]

end Lox

import Lox.Proofs.Source.Generate

/-!
Static scoping. The code of a syntax tree is told with every variable by the place of its declaration: the
function it belongs to, counted outwards from the one that uses it, and its slot there. No more is needed
for that than the variables in scope; nothing is captured and nothing changes on the way.
-/

namespace Lox

def FunctionKind.isMethod (k : FunctionKind) : Bool :=
  k = .method || k = .initializer

inductive VarName where
  | named (name : Bytes)
  | superclass
deriving DecidableEq

structure Nest where
  kind : FunctionKind
  inside : Bool
  -- The variables after that of the first slot, newest first.
  bindings : List VarName

abbrev Env := List Nest

inductive Target where
  | slot (out n : Nat)
  | global (name : Bytes)
  | nothing
deriving DecidableEq

inductive Use where
  | read (t : Target)
  | write (t : Target)
  | closure (body : List Use)
  | other (op : Opcode)

mutual

def Use.captures (out n : Nat) : Use → Bool
  | .read t | .write t => 0 < out && t = .slot out n
  | .closure body => capturesAny (out + 1) n body
  | .other _ => false

def Use.capturesAny (out n : Nat) : List Use → Bool
  | [] => false
  | u :: us => u.captures out n || capturesAny out n us

end

namespace Use

def drop (n : Nat) (uses : List Use) : Use :=
  .other (if capturesAny 0 n uses then .closeUpvalue else .pop)

def leave (kind : FunctionKind) : List Use :=
  [if kind = .initializer then .read (.slot 0 0) else .other .nil, .other .return_]

def condition : Option (List Use) → List Use
  | none => []
  | some a => a ++ [.other .jumpIfFalse, .other .pop]

def increment : Option (List Use) → List Use
  | none => []
  | some a => .other .jump :: a ++ [.other .pop, .other .loop]

def loop (before step : Option (List Use)) (body : List Use) : List Use :=
  condition before ++ increment step ++ body ++ [.other .loop] ++ (if before.isSome then [.other .pop] else [])

end Use

namespace VarName

def slot? (v : VarName) : List VarName → Option Nat
  | [] => none
  | u :: rest => if u = v then some (rest.length + 1) else slot? v rest

end VarName

namespace Env

def find (v : VarName) : Env → Option (Nat × Nat)
  | [] => none
  | n :: outer =>
    match v.slot? n.bindings with
    | some slot => some (0, slot)
    | none => (find v outer).map fun r => (r.1 + 1, r.2)

def target (env : Env) (name : Bytes) : Target :=
  match env.find (.named name) with
  | some (out, slot) => .slot out slot
  | none => .global name

def receiver (env : Env) : Target :=
  match env.findIdx? (·.kind.isMethod) with
  | some out => .slot out 0
  | none => .nothing

def superclass (env : Env) : Target :=
  match env.find .superclass with
  | some (out, slot) => .slot out slot
  | none => .nothing

def inside : Env → Bool
  | n :: _ => n.inside
  | [] => false

def kind : Env → FunctionKind
  | n :: _ => n.kind
  | [] => .script

def enter : Env → Env
  | n :: outer => { n with inside := true } :: outer
  | [] => []

def declare (v : VarName) : Env → Env
  | n :: outer => (if n.inside then { n with bindings := v :: n.bindings } else n) :: outer
  | [] => []

def newest : Env → Nat
  | n :: _ => n.bindings.length
  | [] => 0

def function (env : Env) (kind : FunctionKind) (parameters : List Bytes) : Env :=
  ⟨kind, true, parameters.reverse.map .named⟩ :: env

def define (env : Env) : List Use :=
  if env.inside then [] else [.other .defineGlobal]

end Env

mutual

def Expr.uses (env : Env) : Expr → List Use
  | .nil => [.other .nil]
  | .true_ => [.other .true]
  | .false_ => [.other .false]
  | .number _ => [.other .constant]
  | .string _ => [.other .constant]
  | .variable_ name => [.read (env.target name)]
  | .assign name value => value.uses env ++ [.write (env.target name)]
  | .unary op operand => operand.uses env ++ [.other op.code]
  | .binary op left right => left.uses env ++ right.uses env ++ op.code.map .other
  | .and_ left right => left.uses env ++ [.other .jumpIfFalse, .other .pop] ++ right.uses env
  | .or_ left right =>
    left.uses env ++ [.other .jumpIfFalse, .other .jump, .other .pop] ++ right.uses env
  | .call callee arguments => callee.uses env ++ usesOfAll env arguments ++ [.other .call]
  | .get object _ => object.uses env ++ [.other .getProperty]
  | .set object _ value => object.uses env ++ value.uses env ++ [.other .setProperty]
  | .invoke object _ arguments => object.uses env ++ usesOfAll env arguments ++ [.other .invoke]
  | .this_ => [.read env.receiver]
  | .super_ _ => [.read env.receiver, .read env.superclass, .other .getSuper]
  | .superInvoke _ arguments =>
    .read env.receiver :: usesOfAll env arguments ++ [.read env.superclass, .other .superInvoke]

def Expr.usesOfAll (env : Env) : List Expr → List Use
  | [] => []
  | e :: es => e.uses env ++ usesOfAll env es

end

def Stmt.declares : Stmt → Option Bytes
  | .var_ name _ => some name
  | .fun_ f => some f.name
  | .class_ name _ _ => some name
  | _ => none

namespace Env

def after (env : Env) (s : Stmt) : Env :=
  match s.declares with
  | some name => env.declare (.named name)
  | none => env

def drops (env : Env) (s : Stmt) (uses : List Use) : List Use :=
  if env.inside && s.declares.isSome then [.drop (env.after s).newest uses] else []

end Env

mutual

def Stmt.uses (env : Env) : Stmt → List Use
  | .skip => []
  | .expression e => e.uses env ++ [.other .pop]
  | .print e => e.uses env ++ [.other .print]
  | .return_ none => Use.leave env.kind
  | .return_ (some e) => e.uses env ++ [.other .return_]
  | .if_ condition then_ else_ =>
    condition.uses env ++ [.other .jumpIfFalse, .other .pop] ++ then_.uses env ++
      [.other .jump, .other .pop] ++ else_.uses env
  | .while_ condition body => Use.loop (some (condition.uses env)) none (body.uses env)
  | .for_ initializer condition increment body =>
    let header := env.enter.after initializer
    let all := initializer.uses env.enter ++
      Use.loop (condition.map (·.uses header)) (increment.map (·.uses header)) (body.uses header)
    all ++ env.enter.drops initializer all
  | .block body => (usesOfAll env.enter body).1 ++ (usesOfAll env.enter body).2
  | .var_ name value =>
    (match value with
      | some e => e.uses (env.declare (.named name))
      | none => [.other .nil]) ++ env.define
  | .fun_ f => usesOfFunction (env.declare (.named f.name)) .function f :: env.define
  | .class_ name none methods =>
    let own := env.declare (.named name)
    .other .class_ :: env.define ++ .read (own.target name) :: usesOfMethods own methods ++ [.other .pop]
  | .class_ name (some superclass) methods =>
    let own := env.declare (.named name)
    let inner := own.enter.declare .superclass
    let all := .read (inner.target name) :: .other .inherit :: .read (inner.target name) ::
      usesOfMethods inner methods ++ [.other .pop]
    .other .class_ :: env.define ++ .read (own.target superclass) :: all ++ [.drop inner.newest all]

def Stmt.usesOfAll (env : Env) : List Stmt → List Use × List Use
  | [] => ([], [])
  | s :: ss =>
    let all := s.uses env ++ (usesOfAll (env.after s) ss).1
    (all, (usesOfAll (env.after s) ss).2 ++ env.drops s all)

def Stmt.usesOfFunction (env : Env) (kind : FunctionKind) : Lambda Stmt → Use
  | ⟨_, parameters, body⟩ => .closure ((usesOfAll (env.function kind parameters) body).1 ++ Use.leave kind)

def Stmt.usesOfMethods (env : Env) : List (Lambda Stmt) → List Use
  | [] => []
  | ⟨name, parameters, body⟩ :: ms =>
    usesOfFunction env (if name = ("init" : Bytes) then .initializer else .method) ⟨name, parameters, body⟩ ::
      .other .method :: usesOfMethods env ms

end

def Stmt.usesOfScript (body : List Stmt) : List Use :=
  (usesOfAll [⟨.script, false, []⟩] body).1 ++ Use.leave .script

end Lox

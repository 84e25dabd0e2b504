import Lox.Compile.Scope
import Lox.Proofs.Source.Listing

namespace Lox

def Mark.ofName (name : Bytes) : Mark :=
  if name = "super" then .superclass else if name = "this" ∨ name = "" then .first else .plain

structure Level where
  kind : FunctionKind
  name : Option Bytes := none
  arity : Nat := 0
  -- The variables in scope, newest first.
  locals : List Local := []
  origins : List Origin := []
  depth : Nat := 0
  constants : List Item := []
  declared : List ClassBody := []

structure Plan where
  levels : List Level := []
  classes : List Bool := []

abbrev PlanM := StateT Plan Option

namespace Level

def capture (o : Origin) (l : Level) : Nat × Level :=
  match l.origins.findIdx? (· == o) with
  | some i => (i, l)
  | none => (l.origins.length, { l with origins := l.origins ++ [o] })

def findCapture (name : Bytes) : List Level → Option (Option Nat × List Level)
  | [] => some (none, [])
  | l :: outer =>
    match outer with
    | [] => some (none, [l])
    | o :: rest =>
      match findLocal name o.locals with
      | some (slot, variable_) =>
        if variable_.depth.isNone then none
        else
          let (i, l) := l.capture ⟨true, slot⟩
          some (some i, l :: { o with locals := captureLocal slot o.locals } :: rest)
      | none =>
        match findCapture name outer with
        | none => none
        | some (none, outer) => some (none, l :: outer)
        | some (some j, outer) =>
          let (i, l) := l.capture ⟨false, j⟩
          some (some i, l :: outer)

def mark : List Level → Origin → Mark
  | [], _ => .plain
  | l :: outer, o =>
    if o.isLocal then
      match l.locals.reverse[o.index]? with
      | some v => .ofName v.name
      | none => .plain
    else
      match l.origins[o.index]? with
      | some o => mark outer o
      | none => .plain

end Level

inductive Place where
  | slot (n : Nat)
  | captured (i : Nat)
  | global (k : Nat)

namespace Place

def index : Place → Nat
  | slot n => n
  | captured i => i
  | global k => k

def getOp : Place → Opcode
  | slot _ => .getLocal
  | captured _ => .getUpvalue
  | global _ => .getGlobal

def setOp : Place → Opcode
  | slot _ => .setLocal
  | captured _ => .setUpvalue
  | global _ => .setGlobal

def read (p : Place) : Line :=
  .instr p.getOp (.byte p.index)

def write (p : Place) : Line :=
  .instr p.setOp (.byte p.index)

end Place

namespace PlanM

def level : PlanM Level := fun g =>
  match g.levels with
  | l :: _ => some (l, g)
  | [] => none

def modifyLevel (f : Level → Level) : PlanM Unit := fun g =>
  match g.levels with
  | l :: rest => some ((), { g with levels := f l :: rest })
  | [] => none

def classes : PlanM (List Bool) :=
  return (← get).classes

def enlist (classes : List ClassBody) : PlanM Unit :=
  modifyLevel fun l => { l with declared := l.declared ++ classes }

def constant (item : Item) : PlanM Nat := do
  let l ← level
  modifyLevel fun l => { l with constants := l.constants ++ [item] }
  return l.constants.length

def resolve (name : Bytes) : PlanM Place := do
  match findLocal name (← level).locals with
  | some (slot, variable_) => if variable_.depth.isNone then failure else return .slot slot
  | none =>
    let g ← get
    match Level.findCapture name g.levels with
    | none => failure
    | some (index, levels) =>
      set { g with levels }
      match index with
      | some i => return .captured i
      | none => return .global (← constant (.string name))

def addLocal (name : Bytes) : PlanM Unit :=
  modifyLevel fun l => { l with locals := { name, depth := none } :: l.locals }

def hiddenNames : List Bytes := ["super", "this", ""]

def declare (name : Bytes) : PlanM Unit := do
  let l ← level
  if name ∈ hiddenNames then failure
  else if 0 < l.depth then
    if (sameScope l.depth l.locals).any (·.name == name) then failure
    else addLocal name

def declareNamed (name : Bytes) : PlanM Nat := do
  declare name
  if 0 < (← level).depth then return 0 else constant (.string name)

def initialize_ : PlanM Unit :=
  modifyLevel fun l =>
    if l.depth = 0 then l
    else { l with locals := match l.locals with
      | v :: rest => { v with depth := some l.depth } :: rest
      | [] => [] }

def define (k : Nat) : PlanM (List Line) := do
  if 0 < (← level).depth then
    initialize_
    return []
  else return [.instr .defineGlobal (.byte k)]

def beginScope : PlanM Unit :=
  modifyLevel fun l => { l with depth := l.depth + 1 }

def dropped (depth : Nat) : List Local → List Line × List Local
  | [] => ([], [])
  | v :: rest =>
    if v.depth.any (depth < ·) then
      let (code, left) := dropped depth rest
      (.instr (if v.captured then .closeUpvalue else .pop) .none :: code, left)
    else ([], v :: rest)

def endScope : PlanM (List Line) := do
  let l ← level
  let (code, locals) := dropped (l.depth - 1) l.locals
  modifyLevel fun l => { l with depth := l.depth - 1, locals }
  return code

def returnCode (kind : FunctionKind) : List Line :=
  [if kind = .initializer then .instr .getLocal (.byte 0) else .instr .nil .none, .instr .return_ .none]

def beginFunction (kind : FunctionKind) (name : Option Bytes) : PlanM Unit :=
  modify fun g =>
    let receiver : Bytes := if kind = .method || kind = .initializer then "this" else ""
    let l : Level := { kind, name, locals := [{ name := receiver, depth := some 0 }] }
    { g with levels := l :: g.levels }

def endFunction (body : List Line) : PlanM (Listing Item) := do
  let l ← level
  modify fun g => { g with levels := g.levels.tail }
  let marks := l.origins.map (Level.mark (← get).levels)
  return ⟨l.kind, l.arity, l.name, l.origins, marks, body ++ returnCode l.kind, l.constants, l.declared⟩

def parameter (name : Bytes) : PlanM Unit := do
  modifyLevel fun l => { l with arity := l.arity + 1 }
  let k ← declareNamed name
  let _ ← define k

def inheritFrom (name superclass : Bytes) : PlanM (List Line) := do
  let place ← resolve superclass
  if name = superclass then failure
  else
    beginScope
    addLocal "super"
    initialize_
    let own ← resolve name
    modify fun g => { g with classes := true :: g.classes.tail }
    return [place.read, own.read, .instr .inherit .none]

def openClass (name : Bytes) (superclass : Option Bytes) : PlanM (List Line) := do
  modify fun g => { g with classes := false :: g.classes }
  match superclass with
  | none => return []
  | some s => inheritFrom name s

def closeClass (inherits : Bool) : PlanM (List Line) := do
  let drop ← if inherits then endScope else pure []
  modify fun g => { g with classes := g.classes.tail }
  return drop

end PlanM

namespace UnaryOp

def code : UnaryOp → Opcode
  | not => .not
  | negate => .negate

end UnaryOp

namespace BinaryOp

def code : BinaryOp → List Opcode
  | equal => [.equal]
  | notEqual => [.equal, .not]
  | greater => [.greater]
  | greaterEqual => [.less, .not]
  | less => [.less]
  | lessEqual => [.greater, .not]
  | add => [.add]
  | subtract => [.subtract]
  | multiply => [.multiply]
  | divide => [.divide]

end BinaryOp

open PlanM

mutual

def Expr.code : Expr → PlanM (List Line)
  | .nil => return [.instr .nil .none]
  | .true_ => return [.instr .true .none]
  | .false_ => return [.instr .false .none]
  | .number text => do
    let f := Number.ofLiteral text
    if Number.isInfinite f.toBits then failure
    else return [.instr .constant (.byte (← constant (.number (.number f))))]
  | .string chars => do return [.instr .constant (.byte (← constant (.string chars)))]
  | .variable_ name => do return [(← resolve name).read]
  | .assign name value => do
    if name ∈ hiddenNames then failure
    else
      let place ← resolve name
      let a ← value.code
      return a ++ [place.write]
  | .unary op operand => do return (← operand.code) ++ [.instr op.code .none]
  | .binary op left right => do
    let a ← left.code
    let b ← right.code
    return a ++ b ++ op.code.map (.instr · .none)
  | .and_ left right => do
    let a ← left.code
    let b ← right.code
    return a ++ [.instr .jumpIfFalse (.short (1 + Code.size b)), .instr .pop .none] ++ b
  | .or_ left right => do
    let a ← left.code
    let b ← right.code
    return a ++ [.instr .jumpIfFalse (.short 3), .instr .jump (.short (1 + Code.size b)),
      .instr .pop .none] ++ b
  | .call callee arguments => do
    let a ← callee.code
    let b ← codeOfAll arguments
    return a ++ b ++ [.instr .call (.byte arguments.length)]
  | .get object name => do
    let a ← object.code
    return a ++ [.instr .getProperty (.byte (← constant (.string name)))]
  | .set object name value => do
    let a ← object.code
    let k ← constant (.string name)
    let b ← value.code
    return a ++ b ++ [.instr .setProperty (.byte k)]
  | .invoke object name arguments => do
    let a ← object.code
    let k ← constant (.string name)
    let b ← codeOfAll arguments
    return a ++ b ++ [.instr .invoke (.pair k arguments.length)]
  | .this_ => do
    if (← classes).isEmpty then failure else return [(← resolve "this").read]
  | .super_ name => do
    if (← classes).head? = some true then
      let k ← constant (.string name)
      let this ← resolve "this"
      let superclass ← resolve "super"
      return [this.read, superclass.read, .instr .getSuper (.byte k)]
    else failure
  | .superInvoke name arguments => do
    if (← classes).head? = some true then
      let k ← constant (.string name)
      let this ← resolve "this"
      let a ← codeOfAll arguments
      let superclass ← resolve "super"
      return this.read :: a ++ [superclass.read, .instr .superInvoke (.pair k arguments.length)]
    else failure

def Expr.codeOfAll : List Expr → PlanM (List Line)
  | [] => return []
  | e :: es => do
    let a ← e.code
    return a ++ (← codeOfAll es)

end

def bodyCode (isDeclaration : Bool) (code : PlanM (List Line)) : PlanM (List Line) :=
  if isDeclaration then failure else code

def conditionCode : Option (List Line) → Nat → List Line
  | none, _ => []
  | some a, past => a ++ [.instr .jumpIfFalse (.short (1 + past)), .instr .pop .none]

def incrementCode : Option (List Line) → Nat → List Line
  | none, _ => []
  | some a, before =>
    .instr .jump (.short (Code.size a + 4)) :: a ++
      [.instr .pop .none, .instr .loop (.short (before + Code.size a + 7))]

def Expr.code? : Option Expr → PlanM (Option (List Line))
  | none => return none
  | some e => do return some (← e.code)

def conditionSize : Option (List Line) → Nat
  | none => 0
  | some a => Code.size a + 4

def backSize (before : Nat) : Option (List Line) → Nat
  | none => before
  | some a => Code.size a + 4

def loopCode (condition increment : Option (List Line)) (body : List Line) : List Line :=
  let before := conditionSize condition
  let inc := incrementCode increment before
  conditionCode condition (Code.size inc + Code.size body + 3) ++ inc ++ body ++
    [.instr .loop (.short (backSize before increment + Code.size body + 3))] ++
    (if condition.isSome then [.instr .pop .none] else [])

mutual

def Stmt.code : Stmt → PlanM (List Line)
  | .skip => return []
  | .expression e => do
    let l ← level
    let a ← e.code
    return .mark l.locals.length :: a ++ [.instr .pop .none]
  | .print e => do
    let l ← level
    let a ← e.code
    return .mark l.locals.length :: a ++ [.instr .print .none]
  | .return_ none => do
    let l ← level
    if l.kind = .script then failure else return .mark l.locals.length :: returnCode l.kind
  | .return_ (some e) => do
    let l ← level
    if l.kind = .script || l.kind = .initializer then failure
    else
      let a ← e.code
      return .mark l.locals.length :: a ++ [.instr .return_ .none]
  | .if_ condition then_ else_ => do
    let l ← level
    let a ← condition.code
    let b ← bodyCode then_.isDeclaration then_.code
    let c ← bodyCode else_.isDeclaration else_.code
    return .mark l.locals.length :: a ++
      [.instr .jumpIfFalse (.short (Code.size b + 4)), .instr .pop .none] ++ b ++
      [.instr .jump (.short (1 + Code.size c)), .instr .pop .none] ++ c
  | .while_ condition body => do
    let l ← level
    let a ← condition.code
    let b ← bodyCode body.isDeclaration body.code
    return .mark l.locals.length :: loopCode (some a) none b
  | .for_ initializer condition increment body => do
    let l ← level
    beginScope
    let a ← initializer.code
    let b ← Expr.code? condition
    let c ← Expr.code? increment
    let d ← bodyCode body.isDeclaration body.code
    let drop ← endScope
    return .mark l.locals.length :: a ++ loopCode b c d ++ drop
  | .block body => do
    let l ← level
    beginScope
    let a ← codeOfAll body
    let drop ← endScope
    return .mark l.locals.length :: a ++ drop
  | .var_ name value => do
    let l ← level
    let k ← declareNamed name
    let a ← match value with
      | some e => e.code
      | none => pure [.instr .nil .none]
    return .mark l.locals.length :: a ++ (← define k)
  | .fun_ f => do
    let l ← level
    let k ← declareNamed f.name
    initialize_
    let a ← codeOfFunction .function f
    return .mark l.locals.length :: a ++ (← define k)
  | .class_ name superclass methods => do
    let l ← level
    let k ← constant (.string name)
    declare name
    let a ← define k
    let b ← openClass name superclass
    let own ← resolve name
    let c ← codeOfMethods methods
    let drop ← closeClass superclass.isSome
    enlist [⟨name, superclass, methods⟩]
    return .mark l.locals.length :: .instr .class_ (.byte k) :: a ++ b ++ own.read :: c ++
      [.instr .pop .none] ++ drop

def Stmt.codeOfAll : List Stmt → PlanM (List Line)
  | [] => return []
  | s :: ss => do
    let a ← s.code
    return a ++ (← codeOfAll ss)

def Stmt.codeOfFunction (kind : FunctionKind) : Lambda Stmt → PlanM (List Line)
  | ⟨name, parameters, body⟩ => do
    beginFunction kind (some name)
    beginScope
    parameters.forM parameter
    let f ← endFunction (← codeOfAll body)
    enlist f.classes
    return [.instr .closure (.closure (← constant (.function f)) f.origins)]

def Stmt.codeOfMethods : List (Lambda Stmt) → PlanM (List Line)
  | [] => return []
  | ⟨name, parameters, body⟩ :: ms => do
    let k ← constant (.string name)
    let kind : FunctionKind := if name = ("init" : Bytes) then .initializer else .method
    let a ← codeOfFunction kind ⟨name, parameters, body⟩
    return a ++ [.instr .method (.byte k)] ++ (← codeOfMethods ms)

end

structure Listing.Renders (f : Lambda Stmt) (g : Listing Item) : Prop where
  name : g.name = some f.name
  arity : g.arity = f.parameters.length
  made : ∃ kind p k p' l ls, Stmt.codeOfFunction kind f p =
    some ([.instr .closure (.closure k g.origins)], p') ∧ p'.levels = l :: ls ∧
      l.constants[k]? = some (.function g)

def scriptListing (body : List Stmt) : Option (Listing Item) := do
  let make : PlanM (Listing Item) := do
    beginFunction .script none
    endFunction (← Stmt.codeOfAll body)
  let (f, _) ← make {}
  return f

end Lox

import Lox.Compile.State

namespace Lox

def findLocal (name : Bytes) : List Local → Option (Nat × Local)
  | [] => none
  | l :: rest => if l.name = name then some (rest.length, l) else findLocal name rest

def captureLocal (slot : Nat) : List Local → List Local
  | [] => []
  | l :: rest =>
    if rest.length = slot then { l with captured := true } :: rest
    else l :: captureLocal slot rest

def sameScope (depth : Nat) (locals : List Local) : List Local :=
  locals.takeWhile fun l => !l.depth.any (· < depth)

inductive Finding where
  | problem (p : Problem)
  | capture (depth : Nat)

namespace Scope

def slotOf (s : Scope) (name : Bytes) : Option Nat × List Finding :=
  match findLocal name s.locals with
  | none => (none, [])
  | some (slot, l) => (some slot, if l.depth.isNone then [.problem .ownInitializer] else [])

def addCapture (depth : Nat) (s : Scope) (c : Capture) : Nat × Scope × List Finding :=
  match s.captures.findIdx? (· == c) with
  | some i => (i, s, [])
  | none =>
    if s.captures.length = 256 then (0, s, [.problem .tooManyCaptures])
    else (s.captures.length, { s with captures := s.captures ++ [c] }, [.capture depth])

/-- The index under which the first of nested functions captures a name from those around it, and
the functions with what they capture on the way. -/
def findCapture (name : Bytes) (depth : Nat) : List Scope → Option Nat × List Scope × List Finding
  | [] => (none, [], [])
  | s :: outer =>
    match outer with
    | [] => (none, [s], [])
    | o :: rest =>
      match o.slotOf name with
      | (some slot, found) =>
        let (i, s, added) := s.addCapture depth ⟨slot.toUInt8, true⟩
        (some i, s :: { o with locals := captureLocal slot o.locals } :: rest, found ++ added)
      | (none, _) =>
        match findCapture name (depth + 1) outer with
        | (some j, outer, found) =>
          let (i, s, added) := s.addCapture depth ⟨j.toUInt8, false⟩
          (some i, s :: outer, found ++ added)
        | (none, outer, found) => (none, s :: outer, found)

end Scope

namespace CompileM

def report : Finding → CompileM Unit
  | .problem p => problem p
  | .capture depth => order (.capture depth)

def beginFunction (kind : FunctionKind) : CompileM Unit := do
  modify fun c => { c with
    scopes := { kind } :: c.scopes
    extents := {} :: c.extents
    orders := .begin :: c.orders }
  if kind ≠ .script then order (.name (← lexeme))
  let receiver : Bytes := if kind = .method || kind = .initializer then "this" else ""
  modifyScope fun s => { s with locals := [{ name := receiver, depth := some 0 }] }

def endFunction : CompileM (List Capture) := do
  emitReturn
  let s ← scope
  modify fun c => { c with
    scopes := c.scopes.tail
    extents := c.extents.tail
    orders := .finish :: c.orders }
  return s.captures

def beginScope : CompileM Unit :=
  modifyScope fun s => { s with depth := s.depth + 1 }

def dropLocals (depth : Nat) : List Local → CompileM Unit
  | [] => pure ()
  | l :: rest => do
    if l.depth.any (depth < ·) then
      emit (if l.captured then .closeUpvalue else .pop)
      modifyScope fun s => { s with locals := rest }
      dropLocals depth rest

def endScope : CompileM Unit := do
  modifyScope fun s => { s with depth := s.depth - 1 }
  let s ← scope
  dropLocals s.depth s.locals

def addLocal (name : Bytes) : CompileM Unit := do
  if (← scope).locals.length = 256 then problem .tooManyLocals
  else modifyScope fun s => { s with locals := { name, depth := none } :: s.locals }

def declareVariable : CompileM Unit := do
  let s ← scope
  if 0 < s.depth then
    let name ← lexeme
    if (sameScope s.depth s.locals).any (·.name == name) then problem .duplicateLocal
    addLocal name

def parseVariable (what : String) : CompileM UInt8 := do
  consume .identifier what
  declareVariable
  if 0 < (← scope).depth then return 0
  nameConstant (← lexeme)

def markInitialized : CompileM Unit := do
  let s ← scope
  if 0 < s.depth ∧ s.locals.length = 0 then giveUp
  modifyScope fun s =>
    if s.depth = 0 then s
    else { s with locals := match s.locals with
      | l :: rest => { l with depth := some s.depth } :: rest
      | [] => [] }

def defineVariable (global : UInt8) : CompileM Unit := do
  if 0 < (← scope).depth then markInitialized else emitWith .defineGlobal global

def resolve (name : Bytes) : CompileM (Opcode × Opcode × UInt8) := do
  match (← scope).slotOf name with
  | (some slot, found) =>
    found.forM report
    return (.getLocal, .setLocal, slot.toUInt8)
  | (none, _) =>
    let (index, scopes, found) := Scope.findCapture name 0 (← get).scopes
    found.forM report
    modify fun c => { c with scopes }
    match index with
    | some i => return (.getUpvalue, .setUpvalue, i.toUInt8)
    | none => return (.getGlobal, .setGlobal, ← nameConstant name)

end CompileM

end Lox

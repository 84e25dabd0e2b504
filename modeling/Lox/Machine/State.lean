import Lox.Compile
import Lox.Failure
import Lox.Machine.Stack

/-!
The machine: a stack of values, the calls that are active, the global variables and the heap.
-/

namespace Lox

inductive CompilerChoice where
  | standard
  | none
  | failing (message : Bytes)

structure Machine where
  heap : Heap
  maxFrames : Nat
  -- All slots of the stack; those from `sp` on keep what was last in them.
  stack : Stack
  sp : Nat := 0
  calls : Calls := .none
  globals : Table := .empty
  initName : Option Symbol := none
  -- The captured slots with their upvalues, in descending order of the slots.
  openUpvalues : List (Int × Loc) := []
  -- What was printed, newest first.
  printed : List Bytes := []
  compiler : CompilerChoice := .standard
  clock : Clock := {}
  closed : Bool := false

inductive Stop where
  | fault (f : Fault)
  | error (e : RuntimeError)

abbrev MachineM := EStateM Stop Machine

def slotsPerFrame : Nat := 256

namespace Machine

/-- What the machine keeps alive: the stack in use, the closures of the active calls, the open
upvalues, the global variables and the name of initializers. -/
def links (stack : Stack) (sp : Nat) (calls : Calls) (openUpvalues : List (Int × Loc))
    (globals : Table) (initName : Option Symbol) : List Link :=
  ((stack.slice 0 sp).map .value) ++ (calls.frames.reverse.map fun f => .object f.closure)
    ++ (openUpvalues.map fun u => .object u.2) ++ globals.links
    ++ (initName.toList.map fun s => .object s.loc)

def kept (stack : Stack) (sp : Nat) (calls : Calls) (openUpvalues : List (Int × Loc))
    (globals : Table) (initName : Option Symbol) : Roots
  | .machine => links stack sp calls openUpvalues globals initName
  | _ => []

def output (m : Machine) : Bytes :=
  m.printed.reverse.flatten

end Machine

instance : MonadLift HeapView MachineM where
  monadLift view m :=
    match view m.heap with
    | .ok a => .ok a m
    | .error e => .error (.fault e) m

namespace MachineM

open HeapView

def stop {α : Type} (f : Fault) : MachineM α :=
  throw (.fault f)

def onHeap {α : Type} (act : HeapM α) : MachineM α := fun m =>
  let heap := m.heap
  let { stack, sp, calls, openUpvalues, globals, initName, .. } := m
  let m := { m with heap := default }
  match act (Machine.kept stack sp calls openUpvalues globals initName) heap with
  | .ok a heap => .ok a { m with heap }
  | .error e heap => .error (.fault e) { m with heap }

def push (v : Value) : MachineM Unit :=
  modify fun m =>
    let stack := if m.sp = m.stack.size then m.stack.grow slotsPerFrame else m.stack
    { m with stack := stack.set m.sp v, sp := m.sp + 1 }

def pop : MachineM Value := do
  let m ← get
  if m.sp = 0 then stop .outOfRange
  set { m with sp := m.sp - 1 }
  return m.stack.written.getD (m.sp - 1) Value.zero

def readSlot (i : Int) : MachineM Value := do
  let m ← get
  if i < 0 then stop .outOfRange
  match m.stack.get? i.toNat with
  | some v => return v
  | none => stop .outOfRange

def writeSlot (i : Int) (v : Value) : MachineM Unit := do
  let size := (← get).stack.size
  if i < 0 ∨ size ≤ i.toNat then stop .outOfRange
  modify fun m => { m with stack := m.stack.set i.toNat v }

def peek (distance : Nat) : MachineM Value := do
  readSlot ((← get).sp - 1 - distance)

def calleeSlot (count : Nat) : MachineM Int :=
  return (← get).sp - count - 1

def resetStack : MachineM Unit :=
  modify fun m => { m with sp := 0, calls := .none, openUpvalues := [] }

def print (text : Bytes) : MachineM Unit :=
  modify fun m => { m with printed := text :: m.printed }

def functionOf (closure : Loc) : MachineM Function :=
  (do functionAt (← closureAt closure).function : HeapView Function)

def traceLine (f : Frame) : MachineM TraceLine := do
  let fn ← functionOf f.closure
  match fn.chunk.lines.get? (f.ip - 1) with
  | none => stop .outOfRange
  | some line => return ⟨line, match fn.name with
    | some s => s.chars
    | none => []⟩

def raise {α : Type} (p : RuntimeProblem) : MachineM α := do
  let trace ← (← get).calls.frames.mapM traceLine
  throw (.error ⟨p.message, trace⟩)

def setGlobal (name : Symbol) (value : Value) : MachineM Bool := do
  let t := (← get).globals
  if t.isCrowded then
    let capacity := nextCapacity t.capacity
    onHeap (HeapM.account ((capacity - t.capacity : Nat) * 16))
    modify fun m => { m with globals := m.globals.growTo capacity }
  modifyGet fun m =>
    let (isNew, globals) := m.globals.insert name value
    (isNew, { m with globals })

def defineNative (native : Native) : MachineM Unit := do
  push (← onHeap do valueOf (← HeapM.intern native.name).loc)
  push (← onHeap do valueOf (← HeapM.newNative native))
  let name ← peek 1
  let _ ← setGlobal (← asSymbol name) (← peek 0)
  let _ ← pop
  let _ ← pop

end MachineM

end Lox

import Lox.Machine.Step

/-!
Programs on a machine. A machine runs one program at a time and keeps its global variables from one
to the next.
-/

namespace Lox

inductive Progress where
  | running
  | done
  | failed (f : Failure)

namespace Progress

def failure? : Progress → Option Failure
  | failed f => some f
  | _ => none

def result (p : Progress) : InterpretResult :=
  match p with
  | failed f => f.result
  | _ => .ok

end Progress

abbrev EmbedM := EStateM Fault Machine

namespace EmbedM

/-- An operation of the machine outside of a program, where no error of a program arises. -/
def ofMachine {α : Type} (act : MachineM α) : EmbedM α := fun m =>
  match act m with
  | .ok a m => .ok a m
  | .error (.fault f) m => .error f m
  | .error (.error e) m => .error (.other e.text) m

def onHeap {α : Type} (act : HeapM α) : EmbedM α :=
  ofMachine (MachineM.onHeap act)

def attempt (act : MachineM Progress) : EmbedM Progress := fun m =>
  match act m with
  | .ok p m => .ok p m
  | .error (.fault f) m => .error f m
  | .error (.error e) m =>
    .ok (.failed (.runtime e)) { m with
      printed := (e.text ++ ("\n" : Bytes)) :: m.printed
      sp := 0, calls := .none, openUpvalues := [] }

def enter (script : Loc) : EmbedM Progress :=
  attempt do
    MachineM.resetStack
    MachineM.push (← HeapView.valueOf script)
    let closure ← MachineM.onHeap (HeapM.newClosure script)
    let _ ← MachineM.pop
    MachineM.push (← HeapView.valueOf closure)
    MachineM.call closure 0
    return .running

def resume (fuel : Nat) : EmbedM Progress :=
  attempt do return if ← MachineM.run fuel then .running else .done

def finish (fuel : Nat) : Progress → EmbedM Progress
  | .running => resume fuel
  | p => pure p

def refuse (f : Failure) (lines : List Bytes) : EmbedM Progress := do
  modify fun m => { m with
    printed := (lines.map (· ++ ("\n" : Bytes))).reverse ++ m.printed }
  return .failed f

def start (source : Bytes) : EmbedM Progress := do
  let m ← get
  if m.closed then return .failed .closed
  match m.compiler with
  | .none => return .failed .noCompiler
  | .failing message => refuse (.other message) [message]
  | .standard =>
    match ← onHeap (compile source) with
    | .error ds => refuse (.compile ds) (ds.map Diagnostic.text)
    | .ok script => enter script

def interpret (fuel : Nat) (source : Bytes) : EmbedM Progress := do
  finish fuel (← start source)

def interpretFunction (fuel : Nat) (script : Loc) : EmbedM Progress := do
  if (← get).closed then return .failed .closed
  finish fuel (← enter script)

def defineNative (native : Native) : EmbedM Unit :=
  ofMachine (MachineM.defineNative native)

def builtins : List Native :=
  [⟨"clock", some 0, .clock⟩, ⟨"gc", some 0, .gc⟩]

/-- Registers the machine at its heap and defines the name of initializers and the natives that every machine
has. -/
def prepare : EmbedM Unit := do
  onHeap (HeapM.addRoots .machine)
  let name ← onHeap (HeapM.intern "init")
  modify fun m => { m with initName := some name }
  builtins.forM defineNative

def global? (name : Bytes) : EmbedM (Option Value) :=
  ofMachine (MachineM.global? name)

def close : EmbedM Unit :=
  modify fun m =>
    if m.closed then m
    else
      let heap := { m.heap with
        bytesAllocated := m.heap.bytesAllocated - m.globals.capacity * 16
        markers := m.heap.markers.erase .machine }
      { m with
        closed := true
        sp := 0
        calls := .none
        openUpvalues := []
        initName := none
        globals := .empty
        heap := heap.dispose }

end EmbedM

def defaultFrames : Nat := 64

def mostFrames : Nat := 0x2000000000

namespace Machine

def blank (options : GcOptions) (maxFrames : Nat) (compiler : CompilerChoice) (clock : Clock := {}) : Machine :=
  { heap := Heap.new options
    maxFrames
    stack := ⟨maxFrames * slotsPerFrame, #[]⟩
    compiler
    clock }

def new (options : GcOptions) (maxFrames : Int) (compiler : CompilerChoice) (clock : Clock := {}) :
    Except Fault Machine :=
  let maxFrames := if maxFrames ≤ 0 then defaultFrames else maxFrames.toNat
  if mostFrames < maxFrames then .error .oversize
  else
    match EmbedM.prepare (blank options maxFrames compiler clock) with
    | .ok _ m => .ok m
    | .error e _ => .error e

end Machine

end Lox

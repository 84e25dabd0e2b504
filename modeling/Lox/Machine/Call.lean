import Lox.Machine.State

namespace Lox.MachineM

open HeapView

def call (closure : Loc) (count : Nat) : MachineM Unit := do
  let arity := (← functionOf closure).arity
  if count ≠ arity then raise (.arity arity count)
  let m ← get
  let base ← calleeSlot count
  if m.calls.depth = m.maxFrames ∨ (m.maxFrames * slotsPerFrame : Nat) < base + slotsPerFrame then
    raise .stackOverflow
  modify fun m => { m with calls := m.calls.push ⟨closure, 0, base⟩ }

def stringValue (text : Bytes) : MachineM Value :=
  onHeap do valueOf (← HeapM.intern text).loc

def elapsed : MachineM Float :=
  modifyGet fun m => (m.clock.now, { m with clock := m.clock.advance })

def global? (name : Bytes) : MachineM (Option Value) := do
  let m ← get
  return (m.heap.strings.findText? name name.hash).bind m.globals.get?

def answer : HostCode → MachineM Value
  | .answer v => return v
  | .fail message => raise (.host message)
  | .elapsed next => do answer (next (← elapsed))
  | .collect next => do
    let _ ← onHeap HeapM.collect
    answer next
  | .write text next => do
    print text
    answer next
  | .format v next => do answer (next (← formatValue v))
  | .string chars next => do answer (next (← stringValue chars))
  | .class_ name next => do
    let name ← asSymbol name
    answer (next (← onHeap do valueOf (← HeapM.newClass name)))
  | .instance_ class_ next => do
    let l ← locOfValue class_
    let _ ← classAt l
    answer (next (← onHeap do valueOf (← HeapM.newInstance l)))
  | .field owner name next => do
    let i ← instanceAt (← locOfValue owner)
    answer (next (i.fields.get? (← asSymbol name)))
  | .setField owner name v next => do
    let l ← locOfValue owner
    let _ ← instanceAt l
    let name ← asSymbol name
    let _ ← onHeap (HeapM.rooting .host fun k =>
      HeapM.withRoots k [.value owner] (HeapM.setEntry l name v))
    answer next
  | .global name next => do answer (next (← global? name))
  | .setGlobal name v next => do
    let _ ← setGlobal (← asSymbol name) v
    answer next
  | .define name code next => do
    defineNative ⟨name, none, .custom code⟩
    answer next
  | .openSlots next => do answer (next ((← get).openUpvalues.map (·.1)))
  | .nested next => answer (next Failure.busy.text)
  | .holding v inner next => do
    let depth ← onHeap (HeapM.hold v)
    let result ← try answer inner finally onHeap (HeapM.unhold depth)
    answer (next result)

def host (f : HostFunction) (arguments : List Value) : MachineM Value :=
  match f with
  | .clock => return .number (← elapsed)
  | .gc => do
    let _ ← onHeap HeapM.collect
    return .nil
  | .custom code => answer (code arguments)

def callNative (n : Native) (count : Nat) : MachineM Unit := do
  if let some arity := n.arity then
    if count ≠ arity then raise (.arity arity count)
  let m ← get
  let result ← host n.behaviour (m.stack.slice (m.sp - count) m.sp)
  modify fun m => { m with sp := m.sp - (count + 1) }
  push result

def construct (l : Loc) (count : Nat) : MachineM Unit := do
  let instance_ ← onHeap do valueOf (← HeapM.newInstance l)
  writeSlot (← calleeSlot count) instance_
  let c ← classAt l
  match (← get).initName.bind c.methods.get? with
  | some initializer =>
    let closure ← locOfValue initializer
    let _ ← closureAt closure
    call closure count
  | none => if count ≠ 0 then raise (.arity 0 count)

def callValue (callee : Value) (count : Nat) : MachineM Unit := do
  if callee.isObject then
    let l ← locOfValue callee
    match (← object l).body with
    | .boundMethod b =>
      writeSlot (← calleeSlot count) b.receiver
      call b.method count
    | .class_ _ => construct l count
    | .closure _ => call l count
    | .native n => callNative n count
    | _ => raise .notCallable
  else raise .notCallable

def findMethod (class_ : Loc) (name : Symbol) : MachineM Value := do
  match (← classAt class_).methods.get? name with
  | some v => return v
  | none => raise (.undefinedProperty name.chars)

def invokeFromClass (class_ : Loc) (name : Symbol) (count : Nat) : MachineM Unit := do
  let method ← findMethod class_ name
  let closure ← locOfValue method
  let _ ← closureAt closure
  call closure count

def invoke (name : Symbol) (count : Nat) : MachineM Unit := do
  let receiver ← peek count
  unless ← ofKind receiver .instance_ do raise .methodOfOther
  let i ← instanceAt (← locOfValue receiver)
  match i.fields.get? name with
  | some value =>
    writeSlot (← calleeSlot count) value
    callValue value count
  | none => invokeFromClass i.class_ name count

def bindMethod (class_ : Loc) (name : Symbol) : MachineM Unit := do
  let method ← findMethod class_ name
  let depth ← onHeap (HeapM.hold method)
  let receiver ← peek 0
  let closure ← locOfValue method
  let _ ← closureAt closure
  let bound ← onHeap do valueOf (← HeapM.newBoundMethod receiver closure)
  onHeap (HeapM.unhold depth)
  let _ ← pop
  push bound

def insertUpvalue (slot : Int) (l : Loc) : List (Int × Loc) → List (Int × Loc)
  | [] => [(slot, l)]
  | u :: rest => if slot < u.1 then u :: insertUpvalue slot l rest else (slot, l) :: u :: rest

def captureUpvalue (slot : Int) : MachineM Loc := do
  match (← get).openUpvalues.find? (·.1 == slot) with
  | some u => return u.2
  | none =>
    let l ← onHeap (HeapM.newUpvalue slot)
    modify fun m => { m with openUpvalues := insertUpvalue slot l m.openUpvalues }
    return l

def closeFrom (last : Int) : List (Int × Loc) → MachineM Unit
  | [] => pure ()
  | (slot, l) :: rest => do
    if last ≤ slot then
      let v ← readSlot slot
      onHeap (modify (·.updateBody l fun _ => .upvalue (.closed v)))
      modify fun m => { m with openUpvalues := rest }
      closeFrom last rest

def closeUpvalues (last : Int) : MachineM Unit := do
  closeFrom last (← get).openUpvalues

def readUpvalue (l : Loc) : MachineM Value := do
  match ← upvalueAt l with
  | .stack slot => readSlot slot
  | .closed v => return v

def writeUpvalue (l : Loc) (v : Value) : MachineM Unit := do
  match ← upvalueAt l with
  | .stack slot => writeSlot slot v
  | .closed _ => onHeap (modify (·.updateBody l fun _ => .upvalue (.closed v)))

end Lox.MachineM

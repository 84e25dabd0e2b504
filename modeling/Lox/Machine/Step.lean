import Lox.Machine.Call

namespace Lox.MachineM

open HeapView

def frame : MachineM Frame := do
  match (← get).calls.frames with
  | f :: _ => return f
  | [] => stop .outOfRange

def jumpTo (ip : Nat) : MachineM Unit :=
  modify fun m => { m with calls := m.calls.jumpTo ip }

def codeAt (f : Function) (offset : Nat) : MachineM UInt8 :=
  match f.chunk.code.get? offset with
  | some b => return b
  | none => stop .outOfRange

def readByte : MachineM UInt8 := do
  let f ← frame
  let b ← codeAt (← functionOf f.closure) f.ip
  jumpTo (f.ip + 1)
  return b

def readShort : MachineM Nat := do
  let f ← frame
  let fn ← functionOf f.closure
  let hi ← codeAt fn f.ip
  let lo ← codeAt fn (f.ip + 1)
  jumpTo (f.ip + 2)
  return hi.toNat * 256 + lo.toNat

def readConstant : MachineM Value := do
  let index ← readByte
  let fn ← functionOf (← frame).closure
  match fn.chunk.constants.get? index.toNat with
  | some v => return v
  | none => stop .outOfRange

def readName : MachineM Symbol := do
  let v ← readConstant
  asSymbol v

def getLocal : MachineM Unit := do
  let slot ← readByte
  push (← readSlot ((← frame).base + slot.toNat))

def setLocal : MachineM Unit := do
  let slot ← readByte
  writeSlot ((← frame).base + slot.toNat) (← peek 0)

def getGlobal : MachineM Unit := do
  let name ← readName
  match (← get).globals.get? name with
  | some v => push v
  | none => raise (.undefinedVariable name.chars)

def defineGlobal : MachineM Unit := do
  let name ← readName
  let _ ← setGlobal name (← peek 0)
  let _ ← pop

def assignGlobal : MachineM Unit := do
  let name ← readName
  if ← setGlobal name (← peek 0) then
    modify fun m => { m with globals := (m.globals.delete name).2 }
    raise (.undefinedVariable name.chars)

def readCaptured : MachineM (Option Loc) := do
  let index ← readByte
  let closure := (← frame).closure
  let c ← closureAt closure
  match c.upvalues[index.toNat]? with
  | some u => return u
  | none => stop .outOfRange

def getUpvalue : MachineM Unit := do
  match ← readCaptured with
  | some l => push (← readUpvalue l)
  | none => stop .missing

def setUpvalue : MachineM Unit := do
  match ← readCaptured with
  | some l => writeUpvalue l (← peek 0)
  | none => stop .missing

def instanceOr (p : RuntimeProblem) (v : Value) : MachineM Loc := do
  if ← ofKind v .instance_ then locOfValue v else raise p

def getProperty : MachineM Unit := do
  let l ← instanceOr .propertyOfOther (← peek 0)
  let name ← readName
  let i ← instanceAt l
  match i.fields.get? name with
  | some v =>
    let _ ← pop
    push v
  | none => bindMethod i.class_ name

def setProperty : MachineM Unit := do
  let l ← instanceOr .fieldOfOther (← peek 1)
  let name ← readName
  let value ← peek 0
  let _ ← onHeap (HeapM.setEntry l name value)
  let value ← pop
  let _ ← pop
  push value

def popClass : MachineM Loc := do
  let l ← locOfValue (← pop)
  let _ ← classAt l
  return l

def getSuper : MachineM Unit := do
  let name ← readName
  bindMethod (← popClass) name

def equal : MachineM Unit := do
  let b ← pop
  let a ← pop
  push (.ofBool (a.equal b))

def popNumber : MachineM Float := do
  match (← pop).asNumber with
  | .ok f => return f
  | .error e => stop e

def isNumber (distance : Nat) : MachineM Bool := do
  return (← peek distance).isNumber

def numeric (f : Float → Float → Value) : MachineM Unit := do
  unless ← isNumber 0 <&&> isNumber 1 do raise .operandsNotNumbers
  let b ← popNumber
  let a ← popNumber
  push (f a b)

def concatenate : MachineM Unit := do
  let b ← peek 0
  let a ← peek 1
  let b ← asSymbol b
  let a ← asSymbol a
  let result ← stringValue (a.chars ++ b.chars)
  let _ ← pop
  let _ ← pop
  push result

def isString (distance : Nat) : MachineM Bool := do
  let v ← peek distance
  ofKind v .string

def add : MachineM Unit := do
  if ← isString 0 <&&> isString 1 then concatenate
  else if ← isNumber 0 <&&> isNumber 1 then
    let b ← popNumber
    let a ← popNumber
    push (.number (a + b))
  else raise .operandsNotAddable

def negate : MachineM Unit := do
  unless ← isNumber 0 do raise .operandNotNumber
  push (.number (-(← popNumber)))

def printTop : MachineM Unit := do
  let v ← pop
  print ((← formatValue v) ++ ("\n" : Bytes))

def jump (distance : Nat) : MachineM Unit := do
  jumpTo ((← frame).ip + distance)

def jumpIfFalse : MachineM Unit := do
  let distance ← readShort
  if (← peek 0).isFalsey then jump distance

def jumpBack : MachineM Unit := do
  let distance ← readShort
  let ip := (← frame).ip
  if ip < distance then stop .outOfRange
  jumpTo (ip - distance)

def callTop : MachineM Unit := do
  let count := (← readByte).toNat
  callValue (← peek count) count

def invokeTop : MachineM Unit := do
  let name ← readName
  let count ← readByte
  invoke name count.toNat

def superInvoke : MachineM Unit := do
  let name ← readName
  let count ← readByte
  invokeFromClass (← popClass) name count.toNat

def fillCaptures (closure : Loc) (i : Nat) : Nat → MachineM Unit
  | 0 => pure ()
  | left + 1 => do
    let isLocal ← readByte
    let index ← readByte
    let f ← frame
    let captured ←
      if isLocal = 1 then some <$> captureUpvalue (f.base + index.toNat)
      else match (← closureAt f.closure).upvalues[index.toNat]? with
        | some u => pure u
        | none => stop .outOfRange
    onHeap (modify (·.updateBody closure fun
      | .closure c => .closure { c with upvalues := c.upvalues.setIfInBounds i captured }
      | b => b))
    fillCaptures closure (i + 1) left

def makeClosure : MachineM Unit := do
  let v ← readConstant
  let function ← locOfValue v
  let closure ← onHeap (HeapM.newClosure function)
  push (← valueOf closure)
  fillCaptures closure 0 (← closureAt closure).upvalues.size

def closeTop : MachineM Unit := do
  closeUpvalues ((← get).sp - 1)
  let _ ← pop

def leave : MachineM Bool := do
  let f ← frame
  let result ← pop
  closeUpvalues f.base
  modify fun m => { m with calls := m.calls.pop }
  if (← get).calls.depth = 0 then
    let _ ← pop
    return false
  if f.base < 0 then stop .outOfRange
  modify fun m => { m with sp := f.base.toNat }
  push result
  return true

def makeClass : MachineM Unit := do
  let name ← readName
  push (← onHeap do valueOf (← HeapM.newClass name))

def inherit : MachineM Unit := do
  let superclass ← peek 1
  unless ← ofKind superclass .class_ do raise .superclassNotClass
  let subclass ← peek 0
  let source ← locOfValue superclass
  let target ← locOfValue subclass
  let _ ← classAt target
  onHeap (HeapM.inheritEntries source target)
  let _ ← pop

def defineMethod : MachineM Unit := do
  let name ← readName
  let method ← peek 0
  let class_ ← peek 1
  let l ← locOfValue class_
  let _ ← classAt l
  let _ ← onHeap (HeapM.setEntry l name method)
  let _ ← pop

def execute : Opcode → MachineM Unit
  | .constant => do push (← readConstant)
  | .nil => push .nil
  | .true => push .true
  | .false => push .false
  | .pop => do let _ ← pop
  | .getLocal => getLocal
  | .setLocal => setLocal
  | .getGlobal => getGlobal
  | .defineGlobal => defineGlobal
  | .setGlobal => assignGlobal
  | .getUpvalue => getUpvalue
  | .setUpvalue => setUpvalue
  | .getProperty => getProperty
  | .setProperty => setProperty
  | .getSuper => getSuper
  | .equal => equal
  | .greater => numeric fun a b => .ofBool (b < a)
  | .less => numeric fun a b => .ofBool (a < b)
  | .add => add
  | .subtract => numeric fun a b => .number (a - b)
  | .multiply => numeric fun a b => .number (a * b)
  | .divide => numeric fun a b => .number (a / b)
  | .not => do push (.ofBool (← pop).isFalsey)
  | .negate => negate
  | .print => printTop
  | .jump => do jump (← readShort)
  | .jumpIfFalse => jumpIfFalse
  | .loop => jumpBack
  | .call => callTop
  | .invoke => invokeTop
  | .superInvoke => superInvoke
  | .closure => makeClosure
  | .closeUpvalue => closeTop
  | .return_ => pure ()
  | .class_ => makeClass
  | .inherit => inherit
  | .method => defineMethod

/-- One instruction; false when the script has ended. -/
def step : MachineM Bool := do
  let byte ← readByte
  match Opcode.ofByte? byte with
  | some .return_ => leave
  | some op =>
    execute op
    return true
  | none => stop (.unknownOpcode byte ((← frame).ip - 1))

def run : Nat → MachineM Bool
  | 0 => return true
  | fuel + 1 => do
    if ← step then run fuel else return false

end Lox.MachineM

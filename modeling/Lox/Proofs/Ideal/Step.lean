import Lox.Machine
import Lox.Proofs.Ideal.World

namespace Lox.IdealM

def call (closure count : Nat) : IdealM Unit := do
  let p := (← closureAt closure).prototype
  if count ≠ p.arity then raise (.arity p.arity count)
  let i ← get
  let base ← calleeSlot count
  if i.frames.length = i.maxFrames ∨ i.maxFrames * slotsPerFrame < base + slotsPerFrame then
    raise .stackOverflow
  modify fun i => { i with frames := ⟨closure, 0, base⟩ :: i.frames }

def elapsed : IdealM Float :=
  modifyGet fun i => (i.clock.now, { i with clock := i.clock.advance })

def host : HostFunction → IdealM Val
  | .clock => return .ofFloat (← elapsed)
  | .gc => return .nil
  | .custom _ => stop .missing

def callNative (n : Native) (count : Nat) : IdealM Unit := do
  if let some arity := n.arity then
    if count ≠ arity then raise (.arity arity count)
  let result ← host n.behaviour
  let base ← calleeSlot count
  modify fun i => { i with stack := i.stack.take base }
  push result

def construct (a count : Nat) : IdealM Unit := do
  let instance_ ← create (.instance_ a .empty)
  writeSlot (← calleeSlot count) (.object instance_)
  match (← classAt a).2 "init" with
  | some initializer => call initializer count
  | none => if count ≠ 0 then raise (.arity 0 count)

def callValue (callee : Val) (count : Nat) : IdealM Unit := do
  match callee with
  | .object a =>
    match (← get).objects[a]? with
    | some (.bound receiver method) =>
      writeSlot (← calleeSlot count) receiver
      call method count
    | some (.class_ ..) => construct a count
    | some (.closure _) => call a count
    | some (.native n) => callNative n count
    | _ => raise .notCallable
  | _ => raise .notCallable

def findMethod (class_ : Nat) (name : Bytes) : IdealM Nat := do
  match (← classAt class_).2 name with
  | some m => return m
  | none => raise (.undefinedProperty name)

def invokeFromClass (class_ : Nat) (name : Bytes) (count : Nat) : IdealM Unit := do
  call (← findMethod class_ name) count

def instanceOr (p : RuntimeProblem) (v : Val) : IdealM (Nat × Nat × Dict Val) := do
  match v with
  | .object a =>
    match (← get).objects[a]? with
    | some (.instance_ class_ fields) => return (a, class_, fields)
    | _ => raise p
  | _ => raise p

def invoke (name : Bytes) (count : Nat) : IdealM Unit := do
  let (_, class_, fields) ← instanceOr .methodOfOther (← peek count)
  match fields name with
  | some value =>
    writeSlot (← calleeSlot count) value
    callValue value count
  | none => invokeFromClass class_ name count

def bindMethod (class_ : Nat) (name : Bytes) : IdealM Unit := do
  let method ← findMethod class_ name
  let receiver ← peek 0
  let _ ← closureAt method
  let bound ← create (.bound receiver method)
  let _ ← pop
  push (.object bound)

def insertUpvalue (slot u : Nat) : List (Nat × Nat) → List (Nat × Nat)
  | [] => [(slot, u)]
  | w :: rest => if slot < w.1 then w :: insertUpvalue slot u rest else (slot, u) :: w :: rest

def captureUpvalue (slot : Nat) : IdealM Nat := do
  match (← get).openUpvalues.find? (·.1 == slot) with
  | some w => return w.2
  | none =>
    modifyGet fun i => (i.upvalues.length, { i with
      upvalues := i.upvalues ++ [.slot slot]
      openUpvalues := insertUpvalue slot i.upvalues.length i.openUpvalues })

def closeFrom (last : Nat) : List (Nat × Nat) → IdealM Unit
  | [] => pure ()
  | (slot, u) :: rest => do
    if last ≤ slot then
      let v ← readSlot slot
      modify fun i => { i with upvalues := i.upvalues.set u (.closed v), openUpvalues := rest }
      closeFrom last rest

def closeUpvalues (last : Nat) : IdealM Unit := do
  closeFrom last (← get).openUpvalues

def readUpvalue (u : Nat) : IdealM Val := do
  match ← ofOption (← get).upvalues[u]? with
  | .slot n => readSlot n
  | .closed v => return v

def writeUpvalue (u : Nat) (v : Val) : IdealM Unit := do
  match ← ofOption (← get).upvalues[u]? with
  | .slot n => writeSlot n v
  | .closed _ => modify fun i => { i with upvalues := i.upvalues.set u (.closed v) }

def frame : IdealM Activation := do
  ofOption (← get).frames.head?

def jumpTo (ip : Nat) : IdealM Unit :=
  modify fun i => { i with frames := match i.frames with
    | f :: rest => { f with ip } :: rest
    | [] => [] }

def prototype : IdealM Prototype := do
  return (← closureAt (← frame).closure).prototype

def readByte : IdealM UInt8 := do
  let f ← frame
  let b ← ofOption (← prototype).code[f.ip]?
  jumpTo (f.ip + 1)
  return b

def readShort : IdealM Nat := do
  let hi ← readByte
  let lo ← readByte
  return hi.toNat * 256 + lo.toNat

def readConstant : IdealM Literal := do
  let index ← readByte
  ofOption (← prototype).constants[index.toNat]?

def readName : IdealM Bytes := do
  match ← readConstant with
  | .string chars => return chars
  | _ => stop .wrongKind

def readLocal : IdealM Nat := do
  let slot ← readByte
  return (← frame).base + slot.toNat

def getLocal : IdealM Unit := do
  push (← readSlot (← readLocal))

def setLocal : IdealM Unit := do
  let slot ← readLocal
  writeSlot slot (← peek 0)

def getGlobal : IdealM Unit := do
  let name ← readName
  match (← get).globals name with
  | some v => push v
  | none => raise (.undefinedVariable name)

def defineGlobal : IdealM Unit := do
  let name ← readName
  setGlobal name (← peek 0)
  let _ ← pop

def assignGlobal : IdealM Unit := do
  let name ← readName
  let v ← peek 0
  match (← get).globals name with
  | some _ => setGlobal name v
  | none => raise (.undefinedVariable name)

def readCaptured : IdealM Nat := do
  let index ← readByte
  ofOption (← ofOption (← closureAt (← frame).closure).captures[index.toNat]?)

def getUpvalue : IdealM Unit := do
  push (← readUpvalue (← readCaptured))

def setUpvalue : IdealM Unit := do
  let u ← readCaptured
  writeUpvalue u (← peek 0)

def getProperty : IdealM Unit := do
  let (_, class_, fields) ← instanceOr .propertyOfOther (← peek 0)
  let name ← readName
  match fields name with
  | some v =>
    let _ ← pop
    push v
  | none => bindMethod class_ name

def setProperty : IdealM Unit := do
  let (a, class_, fields) ← instanceOr .fieldOfOther (← peek 1)
  let name ← readName
  let value ← peek 0
  setObject a (.instance_ class_ (fields.set name value))
  let value ← pop
  let _ ← pop
  push value

def popClass : IdealM Nat := do
  asClass (← pop)

def getSuper : IdealM Unit := do
  let name ← readName
  bindMethod (← popClass) name

def equal : IdealM Unit := do
  let b ← pop
  let a ← pop
  push (.bool (a.equal b))

def popNumber : IdealM Float := do
  match ← pop with
  | .number bits => return Float.ofBits bits
  | _ => stop .notNumber

def numeric (f : Float → Float → Val) : IdealM Unit := do
  unless (← peek 0).isNumber && (← peek 1).isNumber do raise .operandsNotNumbers
  let b ← popNumber
  let a ← popNumber
  push (f a b)

def add : IdealM Unit := do
  match ← peek 0, ← peek 1 with
  | .string b, .string a =>
    let _ ← pop
    let _ ← pop
    push (.string (a ++ b))
  | .number _, .number _ =>
    let b ← popNumber
    let a ← popNumber
    push (.ofFloat (a + b))
  | _, _ => raise .operandsNotAddable

def negate : IdealM Unit := do
  unless (← peek 0).isNumber do raise .operandNotNumber
  push (.ofFloat (-(← popNumber)))

def textOf (v : Val) : IdealM Bytes := do
  ofOption (v.text? (fun c => c.prototype.text) (← get).objects)

def printTop : IdealM Unit := do
  let v ← pop
  print ((← textOf v) ++ ("\n" : Bytes))

def jump (distance : Nat) : IdealM Unit := do
  jumpTo ((← frame).ip + distance)

def jumpIfFalse : IdealM Unit := do
  let distance ← readShort
  if (← peek 0).isFalsey then jump distance

def jumpBack : IdealM Unit := do
  let distance ← readShort
  let ip := (← frame).ip
  if ip < distance then stop .outOfRange
  jumpTo (ip - distance)

def callTop : IdealM Unit := do
  let count := (← readByte).toNat
  callValue (← peek count) count

def invokeTop : IdealM Unit := do
  let name ← readName
  let count ← readByte
  invoke name count.toNat

def superInvoke : IdealM Unit := do
  let name ← readName
  let count ← readByte
  invokeFromClass (← popClass) name count.toNat

def fillCaptures (closure i : Nat) : Nat → IdealM Unit
  | 0 => pure ()
  | left + 1 => do
    let isLocal ← readByte
    let index ← readByte
    let f ← frame
    let captured ←
      if isLocal = 1 then captureUpvalue (f.base + index.toNat)
      else ofOption (← ofOption (← closureAt f.closure).captures[index.toNat]?)
    let c ← closureAt closure
    setObject closure (.closure { c with captures := c.captures.set i (some captured) })
    fillCaptures closure (i + 1) left

def makeClosure : IdealM Unit := do
  match ← readConstant with
  | .function p =>
    if HeapM.maxCaptures < p.captures then stop .oversize
    let closure ← create (.closure ⟨p, List.replicate p.captures none⟩)
    push (.object closure)
    fillCaptures closure 0 p.captures
  | _ => stop .wrongKind

def closeTop : IdealM Unit := do
  closeUpvalues (← calleeSlot 0)
  let _ ← pop

def leave : IdealM Bool := do
  let f ← frame
  let result ← pop
  closeUpvalues f.base
  modify fun i => { i with frames := i.frames.tail }
  if (← get).frames.isEmpty then
    let _ ← pop
    return false
  if (← get).stack.length < f.base then stop .outOfRange
  modify fun i => { i with stack := i.stack.take f.base ++ [result] }
  return true

def makeClass : IdealM Unit := do
  let name ← readName
  push (.object (← create (.class_ name .empty)))

def methodsOr (p : RuntimeProblem) (v : Val) : IdealM (Dict Nat) := do
  match v with
  | .object a =>
    match (← get).objects[a]? with
    | some (.class_ _ methods) => return methods
    | _ => raise p
  | _ => raise p

def inherit : IdealM Unit := do
  let methods ← methodsOr .superclassNotClass (← peek 1)
  let subclass ← asClass (← peek 0)
  let (name, own) ← classAt subclass
  setObject subclass (.class_ name (methods.overlay own))
  let _ ← pop

def defineMethod : IdealM Unit := do
  let name ← readName
  match ← peek 0 with
  | .object method =>
    let _ ← closureAt method
    let class_ ← asClass (← peek 1)
    let (className, methods) ← classAt class_
    setObject class_ (.class_ className (methods.set name method))
    let _ ← pop
  | _ => stop .wrongKind

def constant : IdealM Unit := do
  match ← readConstant with
  | .number v => push (.number v.bits)
  | .string chars => push (.string chars)
  | .function _ => stop .wrongKind

def execute : Opcode → IdealM Unit
  | .constant => constant
  | .nil => push .nil
  | .true => push (.bool true)
  | .false => push (.bool false)
  | .pop => do let _ ← pop
  | .getLocal => getLocal
  | .setLocal => setLocal
  | .getGlobal => getGlobal
  | .defineGlobal => defineGlobal
  | .setGlobal => assignGlobal
  | .getUpvalue => getUpvalue
  | .setUpvalue => setUpvalue
  | .getProperty => getProperty
  | .setProperty => setProperty
  | .getSuper => getSuper
  | .equal => equal
  | .greater => numeric fun a b => .bool (b < a)
  | .less => numeric fun a b => .bool (a < b)
  | .add => add
  | .subtract => numeric fun a b => .ofFloat (a - b)
  | .multiply => numeric fun a b => .ofFloat (a * b)
  | .divide => numeric fun a b => .ofFloat (a / b)
  | .not => do push (.bool (← pop).isFalsey)
  | .negate => negate
  | .print => printTop
  | .jump => do jump (← readShort)
  | .jumpIfFalse => jumpIfFalse
  | .loop => jumpBack
  | .call => callTop
  | .invoke => invokeTop
  | .superInvoke => superInvoke
  | .closure => makeClosure
  | .closeUpvalue => closeTop
  | .return_ => pure ()
  | .class_ => makeClass
  | .inherit => inherit
  | .method => defineMethod

def step : IdealM Bool := do
  let byte ← readByte
  match Opcode.ofByte? byte with
  | some .return_ => leave
  | some op =>
    execute op
    return true
  | none => stop .missing

def run : Nat → IdealM Bool
  | 0 => return true
  | fuel + 1 => do
    if ← step then run fuel else return false

end Lox.IdealM

import Lox.Heap.Collect

namespace Lox

namespace Heap

def takeHandle (l : Loc) (h : Heap) : Ref × Array (Option Loc) × List Ref :=
  match h.free with
  | ref :: rest => (ref, h.slots.setIfInBounds ref.toNat (some l), rest)
  | [] => (h.slots.size.toUInt32, h.slots.push (some l), [])

def link (body : Body) (size : Nat) (h : Heap) : Loc × Heap :=
  let l := h.objects.size
  let (ref, slots, free) := h.takeHandle l
  let h := { h with
    objects := h.objects.push ⟨ref, size, false, false, body⟩
    slots, free
    live := l :: h.live
    liveObjects := h.liveObjects + 1 }
  (l, h.log (.allocate ref size body.kind))

end Heap

namespace HeapM

open HeapView

def account (delta : Int) : HeapM Unit := do
  if (← getThe Heap).closed then throw .heapFreed
  modify fun h => { h with bytesAllocated := h.bytesAllocated + delta }
  let h ← getThe Heap
  if 0 < delta ∧ !h.collecting ∧ (h.options.stress ∨ h.nextGc < h.bytesAllocated) then
    let _ ← collect

def hold (v : Value) : HeapM Nat := do
  modify fun h => { h with holds := v :: h.holds }
  return (← getThe Heap).holds.length

def unhold (depth : Nat) : HeapM Unit := do
  let top := (← getThe Heap).holds.length
  if top ≠ depth then throw (.holdOrder depth top)
  modify fun h => { h with holds := h.holds.tail }

/-- Registers a marker: every collection asks it what to keep alive until it is removed. -/
def addRoots (k : RootMarker) : HeapM Unit :=
  modify fun h => { h with markers := h.markers ++ [k] }

def removeRoots (k : RootMarker) : HeapM Unit :=
  modify fun h => { h with markers := h.markers.erase k }

/-- An operation during which a marker stands for given links. -/
def withRoots {α : Type} (k : RootMarker) (links : List Link) (act : HeapM α) : HeapM α := fun roots =>
  act fun j => if j = k then links else roots j

/-- An operation with a marker of its own, which is registered for as long. -/
def rooting {α : Type} (marker : Nat → RootMarker) (act : RootMarker → HeapM α) : HeapM α := do
  let k := marker (← getThe Heap).serial
  addRoots k
  try act k
  finally removeRoots k

def allocate (body : Body) (size : Nat) : HeapM Loc := do
  account size
  modifyGet (·.link body size)

def reserveString : HeapM Unit := do
  let t := (← getThe Heap).strings
  if t.isCrowded then
    let capacity := nextCapacity t.capacity
    account ((capacity - t.capacity : Nat) * 16)
    modify fun h => { h with strings := h.strings.growTo capacity }

def newString (chars : Bytes) (hash : UInt32) : HeapM Symbol := do
  let l ← allocate (.string chars hash) (64 + chars.length)
  let depth ← hold (← valueOf l)
  reserveString
  modify fun h => { h with strings := (h.strings.insert ⟨l, chars, hash⟩ .nil).2 }
  unhold depth
  return ⟨l, chars, hash⟩

def intern (chars : Bytes) : HeapM Symbol := do
  let hash := chars.hash
  match (← getThe Heap).strings.findText? chars hash with
  | some s => return s
  | none => newString chars hash

def newFunction : HeapM Loc :=
  allocate (.function ⟨0, 0, none, .empty⟩) 168

def newNative (n : Native) : HeapM Loc :=
  allocate (.native n) 72

def maxCaptures : Int := 0x200000000000

def newClosure (function : Loc) : HeapM Loc := do
  let count := (← functionAt function).upvalueCount
  if count < 0 ∨ maxCaptures < count then throw .oversize
  let n := count.toNat
  allocate (.closure ⟨function, Array.replicate n none⟩) (72 + n * 8)

def newUpvalue (slot : Int) : HeapM Loc :=
  allocate (.upvalue (.stack slot)) 72

def newClass (name : Symbol) : HeapM Loc :=
  allocate (.class_ ⟨name, .empty⟩) 104

def newInstance (class_ : Loc) : HeapM Loc :=
  allocate (.instance_ ⟨class_, .empty⟩) 104

def newBoundMethod (receiver : Value) (method : Loc) : HeapM Loc :=
  allocate (.boundMethod ⟨receiver, method⟩) 56

def modifyFunction (l : Loc) (f : Function → Function) : HeapM Unit :=
  modify (·.updateBody l fun
    | .function fn => .function (f fn)
    | b => b)

def modifyChunk (l : Loc) (f : Chunk → Chunk) : HeapM Unit :=
  modifyFunction l fun ⟨arity, upvalueCount, name, chunk⟩ => ⟨arity, upvalueCount, name, f chunk⟩

def writeByte (l : Loc) (b : UInt8) (line : Int) : HeapM Unit := do
  let chunk := (← functionAt l).chunk
  if chunk.code.isFull then
    let old := chunk.code.capacity
    account (nextCapacity old - old : Nat)
    modifyChunk l fun ⟨code, lines, constants⟩ =>
      ⟨code.growTo (nextCapacity old), lines, constants⟩
  modifyChunk l fun ⟨code, lines, constants⟩ => ⟨code.push b, lines, constants⟩
  let chunk := (← functionAt l).chunk
  if chunk.lines.isFull then
    let old := chunk.lines.capacity
    account ((nextCapacity old - old : Nat) * 8)
    modifyChunk l fun ⟨code, lines, constants⟩ =>
      ⟨code, lines.growTo (nextCapacity old), constants⟩
  modifyChunk l fun ⟨code, lines, constants⟩ => ⟨code, lines.push line, constants⟩

def patchByte (l : Loc) (offset : Nat) (b : UInt8) : HeapM Unit := do
  if (← functionAt l).chunk.code.size ≤ offset then throw .outOfRange
  modifyChunk l fun ⟨code, lines, constants⟩ => ⟨code.set offset b, lines, constants⟩

def pushConstant (l : Loc) (v : Value) : HeapM Nat := do
  let constants := (← functionAt l).chunk.constants
  if constants.isFull then
    let old := constants.capacity
    account ((nextCapacity old - old : Nat) * 8)
    modifyChunk l fun ⟨code, lines, constants⟩ =>
      ⟨code, lines, constants.growTo (nextCapacity old)⟩
  modifyChunk l fun ⟨code, lines, constants⟩ => ⟨code, lines, constants.push v⟩
  return (← functionAt l).chunk.constants.size - 1

def addConstant (l : Loc) (v : Value) : HeapM Nat := do
  let depth ← hold v
  try pushConstant l v
  finally unhold depth

def modifyTable (l : Loc) (f : Table → Table) : HeapM Unit :=
  modify (·.updateBody l fun
    | .class_ ⟨name, methods⟩ => .class_ ⟨name, f methods⟩
    | .instance_ ⟨class_, fields⟩ => .instance_ ⟨class_, f fields⟩
    | b => b)

def setEntry (l : Loc) (key : Symbol) (value : Value) : HeapM Bool := do
  let t ← tableOf l
  if t.isCrowded then
    let capacity := nextCapacity t.capacity
    account ((capacity - t.capacity : Nat) * 16)
    modifyTable l (·.growTo capacity)
  let (isNew, t) := (← tableOf l).insert key value
  modifyTable l fun _ => t
  return isNew

def copyEntries (source target : Loc) (i : Nat) : Nat → HeapM Unit
  | 0 => pure ()
  | left + 1 => do
    match (← tableOf source).entries[i]? with
    | none => throw .outOfRange
    | some e =>
      if let some key := e.key then
        let _ ← setEntry target key e.value
      copyEntries source target (i + 1) left

def inheritEntries (source target : Loc) : HeapM Unit := do
  copyEntries source target 0 (← tableOf source).entries.size

end HeapM

namespace Heap

def dispose (h : Heap) : Heap :=
  if h.closed then h
  else
    let h := h.live.foldl (fun h l => h.release l) h
    { h with
      live := []
      bytesAllocated := h.bytesAllocated - h.strings.capacity * 16
      strings := .empty
      holds := []
      markers := []
      slots := #[none]
      free := []
      closed := true }

end Heap

end Lox

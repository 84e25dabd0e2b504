import Lox.Heap.Basic

namespace Lox

structure Collected where
  bytesBefore : Int
  bytesAfter : Int
  objectsFreed : Nat
  stringsFreed : Nat
  next : Int

namespace Collected

def nothing : Collected := ⟨0, 0, 0, 0, 0⟩

end Collected

namespace Heap

def release (l : Loc) (h : Heap) : Heap :=
  match h.objects[l]? with
  | none => h
  | some o =>
    let size := o.size + o.body.ownedBytes
    let h := { h with
      bytesAllocated := h.bytesAllocated - size
      bytesFreed := h.bytesFreed + size
      objectsFreed := h.objectsFreed + 1
      liveObjects := h.liveObjects - 1
      slots := h.slots.setIfInBounds o.ref.toNat none
      free := o.ref :: h.free }
    let h := h.update l fun o => { o with freed := true, body := o.body.emptied }
    h.log (.free o.ref o.kind)

def isMarked (h : Heap) (l : Loc) : Bool :=
  match h.objects[l]? with
  | some o => o.marked
  | none => false

def sweepList (kept : List Loc) : List Loc → Heap → Heap
  | [], h => { h with live := kept.reverse }
  | l :: rest, h =>
    if h.isMarked l then sweepList (l :: kept) rest (h.update l fun o => { o with marked := false })
    else sweepList kept rest (h.release l)

def sweep (h : Heap) : Heap :=
  sweepList [] h.live h

/-- The bytes left times the growth factor, without the fraction; a product that is too large for a
64-bit integer gives the least one. -/
def scaled (bytes : Int) (growth : Float) : Int :=
  let bits := (Float.ofInt bytes * growth).toBits
  if Number.isNaN bits || Number.isInfinite bits then -0x8000000000000000
  else
    let n := Number.truncate bits
    if n < -0x8000000000000000 ∨ 0x8000000000000000 ≤ n then -0x8000000000000000 else n

def threshold (h : Heap) : Int :=
  max (scaled h.bytesAllocated h.options.growth) h.options.min

end Heap

namespace HeapM

open HeapView

def markObject (l : Loc) : HeapM Unit := do
  let o ← object l
  if o.marked then return
  if o.freed then throw .freedMark
  modify fun h =>
    let h := h.update l fun o => { o with marked := true }
    let h := h.log (.mark o.ref o.kind)
    { h with gray := l :: h.gray }

def markValue (v : Value) : HeapM Unit := do
  if v.isObject then markObject (← locOfValue v)

def markDirect : Link → HeapM Unit
  | .value v => markValue v
  | .object l => markObject l
  | .fields _ => pure ()

def markFields (l : Loc) : HeapM Unit := do
  (← instanceAt l).fields.links.forM markDirect

def mark : Link → HeapM Unit
  | .fields l => markFields l
  | link => markDirect link

def blacken (l : Loc) : HeapM Unit := do
  let o ← object l
  modify fun h => { h.log (.blacken o.ref o.kind) with gray := h.gray.tail }
  o.body.links.forM mark

/-- Follows the links of gray objects until there are none; no object turns gray twice, so `fuel`
need not exceed the number of gray and unmarked ones. -/
def traceGray : Nat → HeapM Unit
  | 0 => pure ()
  | fuel + 1 => do
    match (← getThe Heap).gray with
    | [] => pure ()
    | l :: _ =>
      blacken l
      traceGray fuel

def markRoots : HeapM Unit := do
  let h ← getThe Heap
  h.holds.reverse.forM markValue
  (h.registered (← readThe Roots)).forM mark

def runCollection : HeapM Collected := do
  let before ← getThe Heap
  modify fun h => h.log .gcBegin
  markRoots
  let h ← getThe Heap
  traceGray (h.gray.length + h.objects.size)
  let h ← getThe Heap
  let (stringsFreed, strings) := h.strings.retain fun k => h.isMarked k.loc
  modify fun h => { h with strings }.sweep
  modify fun h =>
    let next := h.threshold
    let h := { h with nextGc := next, collections := h.collections + 1 }
    h.log (.gcEnd before.bytesAllocated h.bytesAllocated next)
  let after ← getThe Heap
  return {
    bytesBefore := before.bytesAllocated
    bytesAfter := after.bytesAllocated
    objectsFreed := after.objectsFreed - before.objectsFreed
    stringsFreed
    next := after.nextGc }

/-- Frees every object that neither a root nor a hold reaches. Inside a collection it does
nothing. -/
def collect : HeapM Collected := do
  if (← getThe Heap).collecting then return .nothing
  modify fun h => { h with collecting := true }
  try runCollection
  finally modify fun h => { h with collecting := false }

end HeapM

end Lox

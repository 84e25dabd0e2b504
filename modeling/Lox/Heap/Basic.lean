import Lox.Object

/-!
The heap: every object ever made, the handles by which values reach the live ones, and the account
of their bytes. At the end is the printed form of values.
-/

namespace Lox

structure GcOptions where
  initial : Int := 1048576
  min : Int := 1048576
  growth : Float := 2
  stress : Bool := false
  trace : Bool := false

namespace GcOptions

def normalized (o : GcOptions) : GcOptions :=
  { o with
    initial := if o.initial ≤ 0 then 1048576 else o.initial
    min := if o.min ≤ 0 then 1048576 else o.min
    growth := if o.growth ≤ 1 then 2 else o.growth }

end GcOptions

inductive Event where
  | allocate (ref : Ref) (size : Nat) (kind : Kind)
  | gcBegin
  | mark (ref : Ref) (kind : Kind)
  | blacken (ref : Ref) (kind : Kind)
  | free (ref : Ref) (kind : Kind)
  | gcEnd (before after next : Int)

namespace Event

def text : Event → String
  | allocate ref size kind =>
    toString ref.toNat ++ " allocate " ++ toString size ++ " for " ++ kind.name
  | gcBegin => "-- gc begin"
  | mark ref kind => toString ref.toNat ++ " mark " ++ kind.name
  | blacken ref kind => toString ref.toNat ++ " blacken " ++ kind.name
  | free ref kind => toString ref.toNat ++ " free type " ++ kind.name
  | gcEnd before after next =>
    "-- gc end: collected " ++ toString (before - after) ++ " bytes (from " ++ toString before
      ++ " to " ++ toString after ++ ") next at " ++ toString next

end Event

/-- Who can tell the heap what to keep alive, besides the holds. -/
inductive RootMarker where
  | machine
  -- A compilation, with a number that no other registered marker has.
  | compiler (serial : Nat)
  | host (serial : Nat)
deriving DecidableEq

def RootMarker.serial : RootMarker → Nat
  | machine => 0
  | compiler serial | host serial => serial

structure Heap where
  options : GcOptions
  objects : Array Object := #[]
  -- The live object of each handle; handle `0` has none.
  slots : Array (Option Loc) := #[none]
  -- Handles given back, the last one first.
  free : List Ref := []
  -- The live objects, newest first.
  live : List Loc := []
  strings : Table := .empty
  -- Values kept alive for a while, the last one first.
  holds : List Value := []
  -- The registered markers of roots, the last one registered last.
  markers : List RootMarker := []
  gray : List Loc := []
  bytesAllocated : Int := 0
  nextGc : Int
  liveObjects : Nat := 0
  collecting : Bool := false
  closed : Bool := false
  collections : Nat := 0
  objectsFreed : Nat := 0
  bytesFreed : Nat := 0
  -- The log, newest first.
  events : List Event := []

/-- What each marker keeps alive while it is registered. -/
abbrev Roots := RootMarker → List Link

/-- An operation on a heap, among markers that keep objects alive. A fault keeps what was done
before it. -/
abbrev HeapM := ReaderT Roots (EStateM Fault Heap)

structure HeapStats where
  bytesAllocated : Int
  nextGc : Int
  liveObjects : Nat
  internedStrings : Nat
  collections : Nat
  objectsFreed : Nat
  bytesFreed : Nat

namespace Heap

def new (options : GcOptions) : Heap :=
  let options := options.normalized
  { options, nextGc := options.initial }

instance : Inhabited Heap := ⟨new {}⟩

def stats (h : Heap) : HeapStats where
  bytesAllocated := h.bytesAllocated
  nextGc := h.nextGc
  liveObjects := h.liveObjects
  internedStrings := h.strings.live
  collections := h.collections
  objectsFreed := h.objectsFreed
  bytesFreed := h.bytesFreed

def find? (h : Heap) (ref : Ref) : Option Loc :=
  if ref = 0 then none else (h.slots[ref.toNat]?).join

def isLive (h : Heap) (ref : Ref) : Bool :=
  (h.find? ref).isSome

def log (e : Event) (h : Heap) : Heap :=
  if h.options.trace then { h with events := e :: h.events } else h

def serial (h : Heap) : Nat :=
  h.markers.foldr (fun k n => max (k.serial + 1) n) 0

def registered (h : Heap) (roots : Roots) : List Link :=
  h.markers.flatMap roots

def update (l : Loc) (f : Object → Object) (h : Heap) : Heap :=
  { h with objects := h.objects.modify l f }

def updateBody (l : Loc) (f : Body → Body) (h : Heap) : Heap :=
  h.update l fun ⟨ref, size, marked, freed, body⟩ => ⟨ref, size, marked, freed, f body⟩

def logLines (h : Heap) : List String :=
  h.events.reverse.map Event.text

end Heap

abbrev HeapView := ReaderT Heap (Except Fault)

namespace HeapView

def object (l : Loc) : HeapView Object := do
  match (← read).objects[l]? with
  | some o => return o
  | none => throw .missing

def locOf (ref : Ref) : HeapView Loc := do
  match (← read).find? ref with
  | some l => return l
  | none => throw (.deadObject ref)

def locOfValue (v : Value) : HeapView Loc := do
  locOf (← v.ref)

def ofKind (v : Value) (k : Kind) : HeapView Bool := do
  if v.isObject then return (← object (← locOfValue v)).kind == k else return false

def symbolAt (l : Loc) : HeapView Symbol := do
  match (← object l).body with
  | .string chars hash => return ⟨l, chars, hash⟩
  | _ => throw .wrongKind

def functionAt (l : Loc) : HeapView Function := do
  match (← object l).body with
  | .function f => return f
  | _ => throw .wrongKind

def closureAt (l : Loc) : HeapView Closure := do
  match (← object l).body with
  | .closure c => return c
  | _ => throw .wrongKind

def upvalueAt (l : Loc) : HeapView Upvalue := do
  match (← object l).body with
  | .upvalue u => return u
  | _ => throw .wrongKind

def classAt (l : Loc) : HeapView Class := do
  match (← object l).body with
  | .class_ c => return c
  | _ => throw .wrongKind

def instanceAt (l : Loc) : HeapView Instance := do
  match (← object l).body with
  | .instance_ i => return i
  | _ => throw .wrongKind

def tableOf (l : Loc) : HeapView Table := do
  match (← object l).body with
  | .class_ c => return c.methods
  | .instance_ i => return i.fields
  | _ => throw .wrongKind

def asSymbol (v : Value) : HeapView Symbol := do
  symbolAt (← locOfValue v)

def valueOf (l : Loc) : HeapView Value := do
  return .object (← object l).ref

end HeapView

instance : MonadLift HeapView HeapM where
  monadLift view _ h :=
    match view h with
    | .ok a => .ok a h
    | .error e => .error e h

end Lox

namespace Lox.HeapView

def formatObject (l : Loc) : HeapView Bytes := do
  match (← object l).body with
  | .boundMethod b => return (← functionAt (← closureAt b.method).function).text
  | .instance_ i => return (← classAt i.class_).name.chars ++ (" instance" : Bytes)
  | .class_ c => return c.name.chars
  | .upvalue _ => return "upvalue"
  | .closure c => return (← functionAt c.function).text
  | .function f => return f.text
  | .native _ => return "<native fn>"
  | .string chars _ => return chars

def formatValue (v : Value) : HeapView Bytes := do
  if v.isNumber then return Number.format v.bits
  else if v == .true then return "true"
  else if v == .false then return "false"
  else if v == .nil then return "nil"
  else if v.isObject then formatObject (← locOfValue v)
  else return "<unknown>"

end Lox.HeapView

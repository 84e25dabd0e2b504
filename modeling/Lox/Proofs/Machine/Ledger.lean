import Lox.Proofs.Machine.Lookups

/-!
The local variables of a program along its run. A variable is a slot of the stack from the instruction that fills it
to the one that takes it away; closures that capture it go on with it. A ledger says which variables there are,
which of them each closure has captured, and what was last assigned to each.
-/

namespace Lox

open HeapView

inductive Sight where
  | plain (v : Value)
  | text (chars : Bytes)
  | object (l : Loc)

def Heap.sight (h : Heap) (v : Value) : Sight :=
  match locOfValue v h with
  | .error _ => .plain v
  | .ok l => match (h.objects[l]?.map (·.body) : Option Body) with
    | some (.string chars _) => .text chars
    | _ => .object l

structure Variable where
  slot : Nat
  since : Nat
deriving DecidableEq

def Opcode.fills : Opcode → Bool
  | pop | setLocal | defineGlobal | setGlobal | setUpvalue | print | jump | jumpIfFalse | loop | closeUpvalue | inherit
  | method => .false
  | _ => .true

namespace Machine

def filledFrom (m m' : Machine) : Nat :=
  if m.depth < m'.depth then (m'.calls.frames.head?.map (·.base.toNat)).getD 0
  else if m.instr?.any (·.1.fills) then m'.sp - 1 else m'.sp

def sights (m : Machine) : List Sight :=
  m.values.map m.heap.sight

end Machine

structure Ledger where
  -- The variables in the slots of the stack, lowest first.
  slots : List Variable := []
  -- The variables that the closure at a place has captured.
  captured : Loc → List Variable := fun _ => []
  -- What was last assigned to a variable.
  value : Variable → Option Sight := fun _ => none

namespace Ledger

def fill (L : Ledger) (now low : Nat) (values : List Sight) : Ledger :=
  { L with
    slots := L.slots.take low ++ (List.range' low (values.length - low)).map (⟨·, now⟩)
    value := fun x => if x.since = now then values[x.slot]? else L.value x }

def assign (L : Ledger) (x : Variable) (v : Sight) : Ledger :=
  { L with value := Function.update L.value x (some v) }

def capture (L : Ledger) (closure : Loc) (xs : List Variable) : Ledger :=
  { L with captured := Function.update L.captured closure xs }

def variableOf (L : Ledger) (closure : Loc) (base : Nat) (isLocal : Bool) (index : Nat) : Option Variable :=
  if isLocal then L.slots[base + index]? else (L.captured closure)[index]?

def named? (L : Ledger) (m : Machine) (isLocal : Bool) (index : Nat) : Option Variable := do
  let f ← m.calls.frames.head?
  L.variableOf f.closure f.base.toNat isLocal index

def captures? (L : Ledger) (m : Machine) (offset : Nat) : Nat → Option (List Variable)
  | 0 => some []
  | left + 1 => do
    let isLocal ← m.operand? offset
    let index ← m.operand? (offset + 1)
    let x ← L.named? m (isLocal == 1) index
    return x :: (← L.captures? m (offset + 2) left)

def deal (L : Ledger) (m m' : Machine) : Option Ledger :=
  match m.instr? with
  | some (.setLocal, _) => do
    return L.assign (← L.named? m true (← m.operand? 1)) (← m.sights.getLast?)
  | some (.setUpvalue, _) => do
    return L.assign (← L.named? m false (← m.operand? 1)) (← m.sights.getLast?)
  | some (.closure, _) => do
    let l ← m'.top? 0
    let c ← (closureAt l m'.heap).toOption
    return L.capture l (← L.captures? m 2 c.upvalues.size)
  | _ => L

def after (L : Ledger) (now : Nat) (m m' : Machine) : Ledger :=
  let L := L.fill now (m.filledFrom m') m'.sights
  (L.deal m m').getD L

end Ledger

def Machine.ledger : List Machine → Ledger
  | m' :: m :: before => (ledger (m :: before)).after (before.length + 1) m m'
  | [m] => ({} : Ledger).fill 0 0 m.sights
  | [] => {}

def Machine.Uses (m : Machine) (l : Loc) (c : Closure) : Prop :=
  m.heap.Reach (m.heap.origins (MachineM.roots m)) l ∧ closureAt l m.heap = .ok c

def Machine.reads (m : Machine) (u : Loc) (v : Value) : Prop :=
  MachineM.readUpvalue u m = .ok v m

/-- The ledger is right about a machine. -/
structure Ledger.TrueOf (L : Ledger) (m : Machine) : Prop where
  -- The open upvalues are those of slots on the stack, the highest slot first.
  descending : m.openUpvalues.Pairwise fun v w => w.1 < v.1
  opened : ∀ s u, (s, u) ∈ m.openUpvalues → 0 ≤ s ∧ s < m.sp ∧ upvalueAt u m.heap = .ok (.stack s)
  listed : ∀ l c u s, m.Uses l c → some u ∈ c.upvalues → upvalueAt u m.heap = .ok (.stack s) → (s, u) ∈ m.openUpvalues
  -- A slot holds what was last assigned to its variable.
  slots : List.Forall₂ (fun x v => L.value x = some (m.heap.sight v)) L.slots m.values
  -- So does the upvalue of a variable that a closure has captured,
  captured : ∀ l c, m.Uses l c → List.Forall₂ (fun x u => ∃ k v, u = some k ∧ m.reads k v ∧
    L.value x = some (m.heap.sight v)) (L.captured l) c.upvalues.toList
  -- which is open as long as the variable is on the stack,
  alive : ∀ l c, m.Uses l c → ∀ x u, (x, some u) ∈ (L.captured l).zip c.upvalues.toList →
    ∀ s : Nat, upvalueAt u m.heap = .ok (.stack s) ↔ L.slots[s]? = some x
  -- and which belongs to no other one.
  shared : ∀ l c l' c', m.Uses l c → m.Uses l' c' → ∀ x u x' u', (x, some u) ∈ (L.captured l).zip c.upvalues.toList →
    (x', some u') ∈ (L.captured l').zip c'.upvalues.toList → (u = u' ↔ x = x')

end Lox

import Lox.Growable
import Lox.Value

/-!
Hash tables with open addressing, keyed by interned strings. A key is found by identity. A deleted
entry leaves a tombstone, which counts as an occupied slot until the table grows.
-/

namespace Lox

abbrev Loc := Nat

structure Symbol where
  loc : Loc
  chars : Bytes
  hash : UInt32
deriving DecidableEq, Inhabited

structure Entry where
  key : Option Symbol
  value : Value
deriving DecidableEq

namespace Entry

def empty : Entry := ⟨none, .nil⟩

def tombstone : Entry := ⟨none, .true⟩

instance : Inhabited Entry := ⟨empty⟩

def isTombstone (e : Entry) : Bool :=
  e.key.isNone && e.value == .true

end Entry

structure Table where
  entries : Array Entry
  -- Occupied slots, tombstones included.
  count : Nat
  live : Nat
deriving Inhabited

namespace Table

def empty : Table := ⟨#[], 0, 0⟩

def capacity (t : Table) : Nat :=
  t.entries.size

/-- The slot that holds a key, or else the one where it goes: the first tombstone on its path, or
the empty slot at the end of it. Searches at most `fuel` slots from `i` on. -/
def probe (entries : Array Entry) (key : Loc) (i : Nat) (tombstone : Option Nat) : Nat → Nat
  | 0 => tombstone.getD i
  | fuel + 1 =>
    let e := entries.getD i Entry.empty
    let following := (i + 1) % entries.size
    match e.key with
    | some k => if k.loc = key then i else probe entries key following tombstone fuel
    | none =>
      if e.isTombstone then probe entries key following (tombstone <|> some i) fuel
      else tombstone.getD i

def slotOf (entries : Array Entry) (key : Symbol) : Nat :=
  probe entries key.loc (key.hash.toNat % entries.size) none entries.size

def get? (t : Table) (key : Symbol) : Option Value :=
  if t.live = 0 then none
  else
    let e := t.entries.getD (slotOf t.entries key) Entry.empty
    e.key.map fun _ => e.value

def isCrowded (t : Table) : Bool :=
  3 * t.entries.size < 4 * (t.count + 1)

def place (entries : Array Entry) (key : Symbol) (value : Value) : Array Entry :=
  entries.setIfInBounds (slotOf entries key) ⟨some key, value⟩

def toList (t : Table) : List (Symbol × Value) :=
  t.entries.toList.filterMap fun e => e.key.map (·, e.value)

def growTo (capacity : Nat) (t : Table) : Table :=
  let bindings := t.toList
  let fresh := bindings.foldl (fun entries (key, value) => place entries key value)
    (Array.replicate capacity Entry.empty)
  ⟨fresh, bindings.length, bindings.length⟩

def insert (t : Table) (key : Symbol) (value : Value) : Bool × Table :=
  let i := slotOf t.entries key
  let e := t.entries.getD i Entry.empty
  let entries := t.entries.setIfInBounds i ⟨some key, value⟩
  if e.key.isSome then (false, { t with entries })
  else
    let count := if e.isTombstone then t.count else t.count + 1
    (true, ⟨entries, count, t.live + 1⟩)

def reserve (t : Table) : Table :=
  if t.isCrowded then t.growTo (nextCapacity t.capacity) else t

def set (t : Table) (key : Symbol) (value : Value) : Bool × Table :=
  t.reserve.insert key value

def delete (t : Table) (key : Symbol) : Bool × Table :=
  if t.live = 0 then (false, t)
  else
    let i := slotOf t.entries key
    if (t.entries.getD i Entry.empty).key.isNone then (false, t)
    else
      (true, { t with
        entries := t.entries.setIfInBounds i Entry.tombstone
        live := t.live - 1 })

def addAll (t source : Table) : Table :=
  source.toList.foldl (fun t (key, value) => (t.set key value).2) t

def probeText (entries : Array Entry) (chars : Bytes) (hash : UInt32) (i : Nat) :
    Nat → Option Symbol
  | 0 => none
  | fuel + 1 =>
    let e := entries.getD i Entry.empty
    let following := (i + 1) % entries.size
    match e.key with
    | some k =>
      if k.hash = hash ∧ k.chars = chars then some k
      else probeText entries chars hash following fuel
    | none => if e.isTombstone then probeText entries chars hash following fuel else none

def findText? (t : Table) (chars : Bytes) (hash : UInt32) : Option Symbol :=
  if t.live = 0 then none
  else probeText t.entries chars hash (hash.toNat % t.entries.size) t.entries.size

def retain (t : Table) (keep : Symbol → Bool) : Nat × Table :=
  let dropped (e : Entry) : Bool := e.key.any fun k => !keep k
  let n := t.entries.countP dropped
  (n, { t with
    entries := t.entries.map fun e => if dropped e then Entry.tombstone else e
    live := t.live - n })

end Table

end Lox

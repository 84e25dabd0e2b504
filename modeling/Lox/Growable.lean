/-!
A growable array that shows its capacity. Storage starts with eight slots and doubles, and the
slots past the end always hold the default element.
-/

namespace Lox

def nextCapacity (c : Nat) : Nat :=
  if c < 8 then 8 else c * 2

structure Growable (α : Type) where
  slots : Array α
  size : Nat
  size_le : size ≤ slots.size

namespace Growable

variable {α : Type}

def empty : Growable α :=
  ⟨#[], 0, Nat.le_refl 0⟩

instance : Inhabited (Growable α) := ⟨empty⟩

def capacity (a : Growable α) : Nat :=
  a.slots.size

def toArray (a : Growable α) : Array α :=
  a.slots.extract 0 a.size

def toList (a : Growable α) : List α :=
  a.slots.toList.take a.size

def get? (a : Growable α) (i : Nat) : Option α :=
  if i < a.size then a.slots[i]? else none

def isFull (a : Growable α) : Bool :=
  a.size == a.slots.size

def growTo [Inhabited α] (c : Nat) (a : Growable α) : Growable α :=
  ⟨a.slots ++ Array.replicate (c - a.slots.size) default, a.size, by
    have := a.size_le; simp; omega⟩

theorem size_lt_grown [Inhabited α] (a : Growable α) : a.size <
    (a.slots ++ Array.replicate (nextCapacity a.slots.size - a.slots.size) default).size := by
  have := a.size_le
  simp only [Array.size_append, Array.size_replicate, nextCapacity]
  split <;> omega

theorem succ_le_size_set {b : Array α} {i : Nat} (h : i < b.size) (v : α) : i + 1 ≤ (b.set i v h).size := by
  rw [Array.size_set]
  exact h

def push [Inhabited α] (a : Growable α) (v : α) : Growable α :=
  if h : a.size < a.slots.size then
    ⟨a.slots.set a.size v h, a.size + 1, succ_le_size_set h v⟩
  else
    ⟨(a.slots ++ Array.replicate (nextCapacity a.slots.size - a.slots.size) default).set a.size v
      a.size_lt_grown, a.size + 1, succ_le_size_set a.size_lt_grown v⟩

/-- One more element at the end, and its place. Before there is new storage, `hook` is called with the
array as it still is and with the capacities before and after. -/
def append {m : Type → Type} [Monad m] [Inhabited α] (hook : Growable α → Nat → Nat → m Unit)
    (a : Growable α) (v : α) : m (Nat × Growable α) := do
  if a.isFull then hook a a.capacity (nextCapacity a.capacity)
  return (a.size, a.push v)

def place? (i : Int) : Option Nat :=
  if 0 ≤ i then some i.toNat else none

def set (a : Growable α) (i : Nat) (v : α) : Growable α :=
  if h : i < a.size then
    have hs : i < a.slots.size := Nat.lt_of_lt_of_le h a.size_le
    ⟨a.slots.set i v hs, a.size, by simpa using a.size_le⟩
  else a

def set? (a : Growable α) (i : Nat) (v : α) : Option (Growable α) :=
  if i < a.size then some (a.set i v) else none

def last? (a : Growable α) : Option α :=
  if a.size = 0 then none else a.get? (a.size - 1)

/-- The array cut to `n` elements, and filled up to `n` with default elements when it is shorter;
`none` when its storage has no room for `n`. -/
def truncate? [Inhabited α] (a : Growable α) (n : Nat) : Option (Growable α) :=
  if h : n ≤ a.slots.size then
    let cleared := a.slots.extract 0 n ++ Array.replicate (a.size - n) default
      ++ a.slots.extract (max n a.size) a.slots.size
    some ⟨cleared, n, by simp [cleared]; omega⟩
  else none

def pop? [Inhabited α] (a : Growable α) : Option (α × Growable α) := do
  let v ← a.last?
  let b ← a.truncate? (a.size - 1)
  some (v, b)

end Growable

end Lox

import Lox.Value

/-!
What the host gives to a machine: a clock, and functions that go through operations of the library.
-/

namespace Lox

/-- The seconds since a machine was made, at each time that it looks. -/
structure Clock where
  reading : Nat → Float := fun _ => 0
  taken : Nat := 0

namespace Clock

def now (c : Clock) : Float :=
  c.reading c.taken

def advance (c : Clock) : Clock :=
  { c with taken := c.taken + 1 }

end Clock

/-- The rest of a call of a function of the host. Each operation hands its result to what comes next. -/
inductive HostCode where
  | answer (v : Value)
  | fail (message : Bytes)
  | elapsed (next : Float → HostCode)
  | collect (next : HostCode)
  | write (text : Bytes) (next : HostCode)
  | format (v : Value) (next : Bytes → HostCode)
  | string (chars : Bytes) (next : Value → HostCode)
  | class_ (name : Value) (next : Value → HostCode)
  | instance_ (class_ : Value) (next : Value → HostCode)
  | field (owner name : Value) (next : Option Value → HostCode)
  | setField (owner name v : Value) (next : HostCode)
  | global (name : Bytes) (next : Option Value → HostCode)
  | setGlobal (name v : Value) (next : HostCode)
  | define (name : Bytes) (code : List Value → HostCode) (next : HostCode)
  | openSlots (next : List Int → HostCode)
  -- Running a program on the machine or closing it: it is busy.
  | nested (next : Bytes → HostCode)
  | holding (v : Value) (inner : HostCode) (next : Value → HostCode)
deriving Inhabited

inductive HostFunction where
  | clock
  | gc
  | custom (code : List Value → HostCode)
deriving Inhabited

end Lox

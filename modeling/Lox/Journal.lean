import Lox.Instant
import Lox.Quoted
import Lox.Sha256

/-!
The record of the runs of a server.
-/

namespace Lox

namespace Journal

structure Entry where
  id : Bytes
  startedAt : Instant
  -- In nanoseconds.
  duration : Int
  status : Bytes
  digest : Bytes
  output : Bytes
  error : Bytes

def Entry.ofRun (id : Bytes) (startedAt : Instant) (duration : Int)
    (status source output error : Bytes) : Entry :=
  { id, startedAt, status, output, error
    duration := duration.tdiv 1000000 * 1000000
    digest := (Sha256.digest source).flatMap fun c => Quoted.hex 2 c.toNat }

end Journal

structure Journal where
  -- Last one first.
  entries : List Journal.Entry := []
  isOpen : Bool := true

namespace Journal

def record? (j : Journal) (e : Entry) : Option Journal :=
  if j.isOpen && !(j.entries.any (·.id == e.id)) then
    some { j with entries := e :: j.entries }
  else none

/-- The entries by the text of their time, latest first, and among equals the last one first. -/
def sorted (j : Journal) : List Entry :=
  j.entries.mergeSort fun a b => !decide (a.startedAt.text < b.startedAt.text)

/-- The first `n` entries of the order, or all when `n` is negative. An entry whose time cannot be
read back makes the whole answer fail. -/
def recent? (j : Journal) (n : Int) : Option (List Entry) :=
  let found := if n < 0 then j.sorted else j.sorted.take n.toNat
  if j.isOpen && found.all (·.startedAt.isReadable) then some found else none

def count? (j : Journal) : Option Nat :=
  if j.isOpen then some j.entries.length else none

def close (j : Journal) : Journal :=
  { j with isOpen := false }

end Journal

end Lox

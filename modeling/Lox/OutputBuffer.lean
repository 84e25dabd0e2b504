import Lox.Fault
import Lox.Growable

namespace Lox

structure OutputBuffer where
  data : Growable UInt8 := .empty

namespace OutputBuffer

def size (b : OutputBuffer) : Nat :=
  b.data.size

def write (b : OutputBuffer) (text : Bytes) : OutputBuffer :=
  ⟨text.foldl .push b.data⟩

def contents (b : OutputBuffer) : Bytes :=
  b.data.toList

def maxRead : Int := 0x1000000000000

def canRead (n : Int) : Bool :=
  0 ≤ n && n ≤ maxRead

def readAt (b : OutputBuffer) (n offset : Int) : Except Fault (Bytes × Bool) :=
  if !canRead n then .error .oversize
  else if (b.size : Int) ≤ offset then .ok ([], true)
  else if offset < 0 then .error .outOfRange
  else
    let piece := (b.contents.drop offset.toNat).take n.toNat
    .ok (piece, piece.length < n)

end OutputBuffer

end Lox

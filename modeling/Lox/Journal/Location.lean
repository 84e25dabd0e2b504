import Lox.Blank
import Lox.FileTree
import Lox.Journal.Pragma

namespace Lox.Journal

open Ascii

structure Location where
  path : Bytes
  parameters : List (Bytes × Bytes) := []

namespace Location

/-- The text that an escaped one stands for: a plus sign is a blank, and a percent sign goes before
the two digits of a byte. -/
def unescape? : Bytes → Option Bytes
  | [] => some []
  | 37 :: a :: b :: r => do
    let high ← hexValue a
    let low ← hexValue b
    return (high * 16 + low).toUInt8 :: (← unescape? r)
  | c :: r =>
    if c = 37 then none
    else do return (if c = 43 then space else c) :: (← unescape? r)

def parameter? (b : Bytes) : Option (Bytes × Bytes) := do
  if b.contains 59 then none
  let name := b.takeWhile (· != equals)
  return (← unescape? name, ← unescape? (b.drop (name.length + 1)))

def maxParameters : Nat := 10000

def parameters? (b : Bytes) : Option (List (Bytes × Bytes)) :=
  let parts := b.splitOn 38
  if maxParameters < parts.length then none
  else (parts.filter (!·.isEmpty)).mapM parameter?

def parse? (b : Bytes) : Option Location := do
  let before := if b.head? = some 63 then b else b.takeWhile (· != 63)
  let parameters ← parameters? (b.drop (before.length + 1))
  return ⟨before.takeWhile (· != 0), parameters⟩

def values (l : Location) (name : String) : List Bytes :=
  (l.parameters.filter (·.1 == Bytes.ofString name)).map (·.2)

def admits (l : Location) (name : String) (isRight : Bytes → Bool) : Bool :=
  match (l.values name).head? with
  | some value => value.isEmpty || isRight value
  | none => true

def oneOf (words : List String) (value : Bytes) : Bool :=
  words.any (Bytes.ofString · == value)

def isSound (l : Location) : Bool :=
  l.admits "_time_format" (oneOf ["sqlite"])
    && l.admits "_time_integer_format" (oneOf ["unix", "unix_milli", "unix_micro", "unix_nano"])
    && l.admits "_inttotime" (·.boolean?.isSome)
    && l.admits "_texttotime" (·.boolean?.isSome)
    && l.admits "_txlock" fun value => oneOf ["deferred", "immediate", "exclusive"] value.lower

def pragmas? (l : Location) : Option (List Pragma) := do
  let sortKey (b : Bytes) : Bytes := (Blank.trim b).lower
  let texts := (l.values "_pragma").mergeSort fun a b => decide (sortKey a ≤ sortKey b)
  return (← texts.mapM Pragma.parse?).flatten

def isWritable (l : Location) : Bool :=
  match l.pragmas?.bind (·.foldlM Pragma.Limits.after? {}) with
  | some limits => limits.allowTables
  | none => false

inductive Storage where
  | file | memory

def storage? (l : Location) : Option Storage :=
  match (l.values "vfs").dropWhile (·.isEmpty) with
  | [] => some .file
  | name :: rest =>
    if !rest.all (· == name) then none
    else if name == ("memdb" : Bytes) then some .memory
    else if oneOf ["unix", "unix-none", "unix-dotfile", "unix-excl"] name then some .file
    else none

def maxPath : Nat := 512

def undoPath (l : Location) : Bytes :=
  l.path ++ ("-journal" : Bytes)

def create? (t : FileTree) (l : Location) : Option FileTree := do
  match ← l.storage? with
  | .memory => return t
  | .file =>
    if t.contains l.path || maxPath < l.undoPath.length then none
    let t ← t.touch? l.path
    let _ ← t.touch? l.undoPath
    return t

end Location

def create? (t : FileTree) (location : Bytes) : Option FileTree := do
  let t ← t.makeDirectory? (Path.parent location)
  let l ← Location.parse? location
  if l.isSound && l.isWritable then l.create? t else none

end Lox.Journal

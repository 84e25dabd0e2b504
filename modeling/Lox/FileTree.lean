import Lox.Path

/-!
A tree of files, in which paths are followed one element at a time.
-/

namespace Lox

structure FileTree where
  files : List (List Bytes × Bytes)
  directory : List Bytes := []
  made : List (List Bytes) := []

namespace FileTree

/-- A place is a directory when it is the root, the working directory, one that was made or contains
one of these or a file. -/
def isDirectory (t : FileTree) (place : List Bytes) : Bool :=
  place.isPrefixOf t.directory || t.made.any place.isPrefixOf
    || t.files.any fun (path, _) => place.isPrefixOf path && place.length < path.length

def maxElement : Nat := 255

def maxPath : Nat := 4095

def isName (element : Bytes) : Bool :=
  element.length ≤ maxElement && !element.contains 0

def enter (t : FileTree) (place : List Bytes) (element : Bytes) : Option (List Bytes) :=
  if !t.isDirectory place || !isName element then none
  else if element.isEmpty || element == ("." : Bytes) then some place
  else if element == (".." : Bytes) then some place.dropLast
  else some (place ++ [element])

def place? (t : FileTree) (path : Bytes) : Option (List Bytes) :=
  if path.isEmpty || maxPath < path.length then none
  else (path.splitOn Ascii.slash).foldlM t.enter (if Path.isAbsolute path then [] else t.directory)

def read? (t : FileTree) (path : Bytes) : Option Bytes := do
  t.files.lookup (← t.place? path)

def contains (t : FileTree) (path : Bytes) : Bool :=
  match t.place? path with
  | some place => t.isDirectory place || (t.files.lookup place).isSome
  | none => false

def touch? (t : FileTree) (path : Bytes) : Option FileTree := do
  let place ← t.place? path
  if t.isDirectory place then none
  else if (t.files.lookup place).isSome then some t
  else some { t with files := (place, []) :: t.files }

def workingDirectory (t : FileTree) : Bytes :=
  Ascii.slash :: Bytes.join [Ascii.slash] t.directory

def makeDirectory? (t : FileTree) (path : Bytes) : Option FileTree :=
  let whole := if Path.isAbsolute path then Path.clean path else Path.join t.workingDirectory path
  let place := Path.elements whole
  if maxPath < path.length || !place.all isName || t.files.any (·.1.isPrefixOf place) then none
  else some { t with made := place :: t.made }

end FileTree

end Lox

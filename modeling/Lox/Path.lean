import Lox.Bytes

namespace Lox.Path

open Ascii

def isAbsolute (p : Bytes) : Bool :=
  p.head? == some slash

/-- The elements kept so far, last one first, with one more; `..` takes one off unless it cannot. -/
def step (rooted : Bool) (kept : List Bytes) (element : Bytes) : List Bytes :=
  if element.isEmpty || element == ("." : Bytes) then kept
  else if element == (".." : Bytes) then
    match kept with
    | last :: rest => if last == (".." : Bytes) then element :: kept else rest
    | [] => if rooted then [] else [element]
  else element :: kept

def clean (p : Bytes) : Bytes :=
  let rooted := isAbsolute p
  let kept := ((p.splitOn slash).foldl (step rooted) []).reverse
  let body := Bytes.join [slash] kept
  if rooted then slash :: body else if body.isEmpty then "." else body

def join (dir p : Bytes) : Bytes :=
  match [dir, p].filter (!·.isEmpty) with
  | [] => []
  | parts => clean (Bytes.join [slash] parts)

def parent (p : Bytes) : Bytes :=
  clean ((p.reverse.dropWhile (· != slash)).reverse)

def elements (p : Bytes) : List Bytes :=
  (p.splitOn slash).filter (!·.isEmpty)

def ancestors (p : Bytes) : List Bytes :=
  let parts := elements (clean p)
  (List.range (parts.length + 1)).reverse.map fun n => slash :: Bytes.join [slash] (parts.take n)

end Lox.Path

import Lox.Object
import Lox.Value

namespace Lox

structure Frame where
  closure : Loc
  ip : Nat
  base : Int

structure Calls where
  -- Innermost first.
  frames : List Frame := []
  depth : Nat := frames.length
  depth_eq : depth = frames.length := by rfl

namespace Calls

def none : Calls := {}

def push (f : Frame) (c : Calls) : Calls :=
  ⟨f :: c.frames, c.depth + 1, by simp [c.depth_eq]⟩

def pop (c : Calls) : Calls :=
  ⟨c.frames.tail, c.depth - 1, by simp [c.depth_eq]⟩

def jumpTo (ip : Nat) (c : Calls) : Calls :=
  match c with
  | ⟨f :: rest, depth, h⟩ => ⟨{ f with ip } :: rest, depth, h⟩
  | ⟨[], depth, h⟩ => ⟨[], depth, h⟩

end Calls

end Lox

namespace Lox

structure Stack where
  size : Nat
  written : Array Value := #[]

namespace Stack

def get? (s : Stack) (i : Nat) : Option Value :=
  if i < s.size then some (s.written.getD i .zero) else none

def set (s : Stack) (i : Nat) (v : Value) : Stack :=
  let written :=
    if i < s.written.size then s.written.setIfInBounds i v
    else (s.written ++ Array.replicate (i - s.written.size) Value.zero).push v
  ⟨max s.size (i + 1), written⟩

def grow (n : Nat) (s : Stack) : Stack :=
  ⟨s.size + n, s.written⟩

def slice (s : Stack) (first last : Nat) : List Value :=
  (s.written.extract first last).toList

end Stack

end Lox

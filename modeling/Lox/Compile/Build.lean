import Lox.Compile.State
import Lox.Heap.Allocate

namespace Lox

structure Site where
  marker : RootMarker
  open_ : List Loc := []
  ended : Option Loc := none

namespace Site

def links (s : Site) : List Link :=
  s.open_.map .object

def inner (s : Site) : HeapM Loc :=
  match s.open_ with
  | l :: _ => return l
  | [] => throw .missing

def keeping {α : Type} (s : Site) (act : HeapM α) : HeapM α :=
  HeapM.withRoots s.marker s.links act

def constant (s : Site) (v : Value) : HeapM Site := do
  let l ← s.inner
  let _ ← s.keeping (HeapM.addConstant l v)
  return s

end Site

namespace Order

open HeapM HeapView

def carryOut (s : Site) : Order → HeapM Site
  | .begin => do
    let l ← s.keeping newFunction
    return { s with open_ := l :: s.open_ }
  | .name chars => do
    let l ← s.inner
    s.keeping do
      let symbol ← intern chars
      modifyFunction l fun f => { f with name := some symbol }
    return s
  | .byte b line => do
    let l ← s.inner
    s.keeping (writeByte l b line)
    return s
  | .patch offset b => do
    let l ← s.inner
    patchByte l offset b
    return s
  | .number v => s.constant v
  | .string chars => do
    let v ← s.keeping do valueOf (← intern chars).loc
    s.constant v
  | .enclose => do
    match s.ended with
    | some l => s.constant (← valueOf l)
    | none => throw .missing
  | .parameter => do
    let l ← s.inner
    modifyFunction l fun f => { f with arity := f.arity + 1 }
    return s
  | .capture depth => do
    match s.open_[depth]? with
    | some l =>
      modifyFunction l fun f => { f with upvalueCount := f.upvalueCount + 1 }
      return s
    | none => throw .missing
  | .finish => do
    let l ← s.inner
    return { s with open_ := s.open_.tail, ended := some l }

def carryOutAll (s : Site) : List Order → HeapM Site
  | [] => return s
  | o :: os => do carryOutAll (← o.carryOut s) os

end Order

end Lox

import Lox.Heap.Allocate

namespace Lox

inductive Constant where
  | value (v : Value)
  | string (chars : Bytes)
  | function (name : Option Bytes) (arity upvalues : Int) (constants : List Constant)
      (code : List (UInt8 × Int))
deriving Inhabited

namespace HeapM

open HeapView

mutual

def constant : Constant → HeapM Value
  | .value v => return v
  | .string chars => do valueOf (← intern chars).loc
  | .function name arity upvalues constants code => do
    let l ← newFunction
    let depth ← hold (← valueOf l)
    modifyFunction l fun f => { f with arity, upvalueCount := upvalues }
    if let some name := name then
      let symbol ← intern name
      modifyFunction l fun f => { f with name := some symbol }
    addConstants l constants
    for (b, line) in code do
      writeByte l b line
    unhold depth
    valueOf l

def addConstants (l : Loc) : List Constant → HeapM Unit
  | [] => return ()
  | c :: rest => do
    let v ← constant c
    let _ ← addConstant l v
    addConstants l rest

end

end HeapM

end Lox

import Lox.Bytes

namespace Lox

abbrev Ref := UInt32

inductive Fault where
  | outOfRange
  | oversize
  | missing
  | wrongKind
  | deadObject (ref : Ref)
  | notNumber
  | notBoolean
  | notObject
  | unknownOpcode (byte : UInt8) (offset : Nat)
  | holdOrder (depth top : Nat)
  | heapFreed
  | freedMark
  | other (message : Bytes)
deriving DecidableEq, Inhabited

namespace Fault

def message : Fault → Bytes
  | .outOfRange | .missing | .wrongKind => "runtime error"
  | .oversize => "runtime error: makeslice: len out of range"
  | .deadObject ref => ("vm: access to freed or invalid object " : Bytes) ++ Bytes.ofNat ref.toNat
  | .notNumber => "Value.AsNumber: not a number"
  | .notBoolean => "Value.AsBool: not a boolean"
  | .notObject => "Value.Ref: not an object"
  | .unknownOpcode byte offset =>
    ("vm: unknown opcode " : Bytes) ++ Bytes.ofNat byte.toNat ++ (" at offset " : Bytes)
      ++ Bytes.ofNat offset
  | .holdOrder depth top =>
    ("vm: hold released out of order (depth " : Bytes) ++ Bytes.ofNat depth ++ (", top " : Bytes)
      ++ Bytes.ofNat top ++ (")" : Bytes)
  | .heapFreed => "vm: allocation on a freed heap"
  | .freedMark => "vm: marking a freed object"
  | .other text => text

end Fault

end Lox

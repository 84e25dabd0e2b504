
namespace Lox

inductive Opcode where
  | constant | nil | true | false | pop
  | getLocal | setLocal | getGlobal | defineGlobal | setGlobal | getUpvalue | setUpvalue
  | getProperty | setProperty | getSuper
  | equal | greater | less | add | subtract | multiply | divide | not | negate
  | print | jump | jumpIfFalse | loop
  | call | invoke | superInvoke | closure | closeUpvalue | return_
  | class_ | inherit | method
deriving DecidableEq, Inhabited

namespace Opcode

def all : Array Opcode :=
  #[constant, nil, .true, .false, pop, getLocal, setLocal, getGlobal, defineGlobal, setGlobal,
    getUpvalue, setUpvalue, getProperty, setProperty, getSuper, equal, greater, less, add, subtract,
    multiply, divide, not, negate, print, jump, jumpIfFalse, loop, call, invoke, superInvoke,
    closure, closeUpvalue, return_, class_, inherit, method]

def ofByte? (b : UInt8) : Option Opcode :=
  all[b.toNat]?

def toByte (op : Opcode) : UInt8 :=
  op.ctorIdx.toUInt8

theorem ofByte?_toByte (op : Opcode) : ofByte? op.toByte = some op := by
  cases op <;> rfl

def mnemonic : Opcode → String
  | constant => "OP_CONSTANT"
  | nil => "OP_NIL"
  | .true => "OP_TRUE"
  | .false => "OP_FALSE"
  | pop => "OP_POP"
  | getLocal => "OP_GET_LOCAL"
  | setLocal => "OP_SET_LOCAL"
  | getGlobal => "OP_GET_GLOBAL"
  | defineGlobal => "OP_DEFINE_GLOBAL"
  | setGlobal => "OP_SET_GLOBAL"
  | getUpvalue => "OP_GET_UPVALUE"
  | setUpvalue => "OP_SET_UPVALUE"
  | getProperty => "OP_GET_PROPERTY"
  | setProperty => "OP_SET_PROPERTY"
  | getSuper => "OP_GET_SUPER"
  | equal => "OP_EQUAL"
  | greater => "OP_GREATER"
  | less => "OP_LESS"
  | add => "OP_ADD"
  | subtract => "OP_SUBTRACT"
  | multiply => "OP_MULTIPLY"
  | divide => "OP_DIVIDE"
  | not => "OP_NOT"
  | negate => "OP_NEGATE"
  | print => "OP_PRINT"
  | jump => "OP_JUMP"
  | jumpIfFalse => "OP_JUMP_IF_FALSE"
  | loop => "OP_LOOP"
  | call => "OP_CALL"
  | invoke => "OP_INVOKE"
  | superInvoke => "OP_SUPER_INVOKE"
  | closure => "OP_CLOSURE"
  | closeUpvalue => "OP_CLOSE_UPVALUE"
  | return_ => "OP_RETURN"
  | class_ => "OP_CLASS"
  | inherit => "OP_INHERIT"
  | method => "OP_METHOD"

def nameOf (b : UInt8) : String :=
  match ofByte? b with
  | some op => op.mnemonic
  | none => "Opcode(" ++ toString b.toNat ++ ")"

inductive Operands where
  | none
  | constant
  | byte
  | jump (backward : Bool)
  | invoke
  | closure
deriving DecidableEq

def operands : Opcode → Operands
  | constant | getGlobal | defineGlobal | setGlobal | getProperty | setProperty | getSuper
  | class_ | method => .constant
  | getLocal | setLocal | getUpvalue | setUpvalue | call => .byte
  | jump | jumpIfFalse => .jump .false
  | loop => .jump .true
  | invoke | superInvoke => .invoke
  | closure => .closure
  | _ => .none

end Opcode

end Lox

import Lox.Host
import Lox.Table

namespace Lox

inductive Kind where
  | string | function | closure | upvalue | native | class_ | instance_ | boundMethod
deriving DecidableEq, Inhabited

namespace Kind

def all : List Kind :=
  [string, function, closure, upvalue, native, class_, instance_, boundMethod]

def name : Kind → String
  | string => "string"
  | function => "function"
  | closure => "closure"
  | upvalue => "upvalue"
  | native => "native"
  | class_ => "class"
  | instance_ => "instance"
  | boundMethod => "bound method"

def nameAt (n : UInt8) : String :=
  match all[n.toNat]? with
  | some k => k.name
  | none => "ObjectKind(" ++ toString n.toNat ++ ")"

end Kind

structure Chunk where
  code : Growable UInt8
  lines : Growable Int
  constants : Growable Value
deriving Inhabited

namespace Chunk

def empty : Chunk := ⟨.empty, .empty, .empty⟩

def size (c : Chunk) : Nat :=
  c.code.capacity + c.lines.capacity * 8 + c.constants.capacity * 8

end Chunk

structure Function where
  arity : Int
  upvalueCount : Int
  name : Option Symbol
  chunk : Chunk
deriving Inhabited

namespace Function

def displayName (f : Function) : Bytes :=
  match f.name with
  | some s => s.chars
  | none => "script"

def text (f : Function) : Bytes :=
  match f.name with
  | some s => ("<fn " : Bytes) ++ s.chars ++ (">" : Bytes)
  | none => "<script>"

end Function

structure Closure where
  function : Loc
  upvalues : Array (Option Loc)
deriving Inhabited

inductive Upvalue where
  | stack (slot : Int)
  | closed (value : Value)

structure Native where
  name : Bytes
  arity : Option Nat
  behaviour : HostFunction
deriving Inhabited

structure Class where
  name : Symbol
  methods : Table
deriving Inhabited

structure Instance where
  class_ : Loc
  fields : Table
deriving Inhabited

structure BoundMethod where
  receiver : Value
  method : Loc
deriving Inhabited

inductive Body where
  | string (chars : Bytes) (hash : UInt32)
  | function (f : Function)
  | closure (c : Closure)
  | upvalue (u : Upvalue)
  | native (n : Native)
  | class_ (c : Class)
  | instance_ (i : Instance)
  | boundMethod (b : BoundMethod)

instance : Inhabited Body := ⟨.string [] 0⟩

/-- What can keep an object alive. -/
inductive Link where
  | value (v : Value)
  | object (l : Loc)
  | fields (l : Loc)

namespace Table

/-- Every key and value of a table, slot by slot. -/
def links (t : Table) : List Link :=
  t.entries.toList.flatMap fun e =>
    match e.key with
    | some k => [.object k.loc, .value e.value]
    | none => [.value e.value]

end Table

namespace Body

def kind : Body → Kind
  | string .. => .string
  | function _ => .function
  | closure _ => .closure
  | upvalue _ => .upvalue
  | native _ => .native
  | class_ _ => .class_
  | instance_ _ => .instance_
  | boundMethod _ => .boundMethod

/-- The links of an object, in the order in which they are traced. -/
def links : Body → List Link
  | string .. => []
  | function f =>
    (f.name.toList.map fun s => .object s.loc) ++ f.chunk.constants.toList.map .value
  | closure c => .object c.function :: c.upvalues.toList.filterMap fun u => u.map .object
  | upvalue (.stack _) => []
  | upvalue (.closed v) => [.value v]
  | native _ => []
  | class_ c => .object c.name.loc :: c.methods.links
  | instance_ i => .object i.class_ :: i.fields.links
  | boundMethod b => [.value b.receiver, .object b.method]

def ownedBytes : Body → Nat
  | function f => f.chunk.size
  | class_ c => c.methods.capacity * 16
  | instance_ i => i.fields.capacity * 16
  | _ => 0

def emptied : Body → Body
  | function f => .function { f with chunk := .empty }
  | class_ c => .class_ { c with methods := .empty }
  | instance_ i => .instance_ { i with fields := .empty }
  | b => b

end Body

structure Object where
  ref : Ref
  size : Nat
  marked : Bool
  freed : Bool
  body : Body
deriving Inhabited

namespace Object

def kind (o : Object) : Kind :=
  o.body.kind

end Object

end Lox

import Lox.Machine

namespace Lox

inductive Status where
  | ok | compileError | runtimeError
  | internalError
deriving DecidableEq

namespace Status

def name : Status → Bytes
  | ok => "ok"
  | compileError => "compile_error"
  | runtimeError => "runtime_error"
  | internalError => "internal_error"

def all : List Status :=
  [ok, compileError, runtimeError, internalError]

def ofName? (b : Bytes) : Option Status :=
  all.find? (·.name == b)

def ofResult : InterpretResult → Status
  | .ok => ok
  | .compileError => compileError
  | .runtimeError => runtimeError

end Status

structure Outcome where
  status : Status
  output : Bytes := []
  error : Bytes := []
  -- The line of the error; `0` when there is none.
  line : Int := 0
  collections : Nat := 0

def Failure.line : Failure → Int
  | .compile (d :: _) => d.line
  | .runtime e => e.line
  | _ => 0

structure Engine where
  gc : GcOptions := {}
  maxFrames : Int := 0
  broken : Option Bytes := none

namespace Engine

def run (fuel : Nat) (e : Engine) (source : Bytes) : Outcome :=
  match e.broken with
  | some reason => { status := .internalError, error := reason }
  | none =>
    match Machine.new e.gc e.maxFrames .standard with
    | .error f => { status := .internalError, error := f.message }
    | .ok m =>
      match EmbedM.interpret fuel source m with
      | .ok p m =>
        { status := .ofResult p.result
          output := m.output
          error := (p.failure?.map Failure.text).getD []
          line := (p.failure?.map Failure.line).getD 0
          collections := m.heap.stats.collections }
      | .error f m => { status := .internalError, output := m.output, error := f.message }

end Engine

end Lox

import Lox.Diagnostic

namespace Lox

inductive RuntimeProblem where
  | undefinedVariable (name : Bytes)
  | undefinedProperty (name : Bytes)
  | propertyOfOther
  | fieldOfOther
  | methodOfOther
  | operandsNotNumbers
  | operandNotNumber
  | operandsNotAddable
  | superclassNotClass
  | arity (expected : Int) (got : Nat)
  | stackOverflow
  | notCallable
  | host (message : Bytes)

namespace RuntimeProblem

def message : RuntimeProblem → Bytes
  | undefinedVariable name => ("Undefined variable '" : Bytes) ++ name ++ ("'." : Bytes)
  | undefinedProperty name => ("Undefined property '" : Bytes) ++ name ++ ("'." : Bytes)
  | propertyOfOther => "Only instances have properties."
  | fieldOfOther => "Only instances have fields."
  | methodOfOther => "Only instances have methods."
  | operandsNotNumbers => "Operands must be numbers."
  | operandNotNumber => "Operand must be a number."
  | operandsNotAddable => "Operands must be two numbers or two strings."
  | superclassNotClass => "Superclass must be a class."
  | arity expected got =>
    ("Expected " : Bytes) ++ Bytes.ofInt expected ++ (" arguments but got " : Bytes)
      ++ Bytes.ofNat got ++ ("." : Bytes)
  | stackOverflow => "Stack overflow."
  | notCallable => "Can only call functions and classes."
  | host message => message

end RuntimeProblem

structure TraceLine where
  line : Int
  function : Bytes

namespace TraceLine

def text (t : TraceLine) : Bytes :=
  ("[line " : Bytes) ++ Bytes.ofInt t.line ++ ("] in " : Bytes)
    ++ if t.function.isEmpty then ("script" : Bytes) else t.function ++ ("()" : Bytes)

end TraceLine

structure RuntimeError where
  message : Bytes
  -- The active calls, innermost first.
  trace : List TraceLine

namespace RuntimeError

def text (e : RuntimeError) : Bytes :=
  Bytes.join "\n" (e.message :: e.trace.map TraceLine.text)

def line (e : RuntimeError) : Int :=
  match e.trace with
  | t :: _ => t.line
  | [] => 0

end RuntimeError

inductive Failure where
  | compile (diagnostics : List Diagnostic)
  | runtime (error : RuntimeError)
  | busy
  | closed
  | noCompiler
  | other (message : Bytes)

inductive InterpretResult where
  | ok | compileError | runtimeError
deriving DecidableEq

namespace InterpretResult

def name : InterpretResult → String
  | ok => "ok"
  | compileError => "compile error"
  | runtimeError => "runtime error"

def nameAt (n : Int) : String :=
  if n = 0 then ok.name
  else if n = 1 then compileError.name
  else if n = 2 then runtimeError.name
  else "InterpretResult(" ++ toString n ++ ")"

end InterpretResult

namespace Failure

def text : Failure → Bytes
  | compile ds => Diagnostic.report ds
  | runtime e => e.text
  | busy => "vm: already running"
  | closed => "vm: closed"
  | noCompiler => "vm: no compiler installed"
  | other message => message

def result : Failure → InterpretResult
  | compile _ | noCompiler | other _ => .compileError
  | runtime _ | busy | closed => .runtimeError

end Failure

end Lox

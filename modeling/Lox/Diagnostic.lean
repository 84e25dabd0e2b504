import Lox.Token

namespace Lox

inductive Problem where
  | lexical (message : Bytes)
  | expected (what : String)
  | jumpTooLong
  | loopTooLong
  | tooManyConstants
  | tooManyParameters
  | tooManyArguments
  | tooManyLocals
  | tooManyCaptures
  | duplicateLocal
  | ownInitializer
  | ownSuperclass
  | returnFromScript
  | returnFromInitializer
  | assignmentTarget
  | numberLiteral
  | thisOutsideClass
  | superOutsideClass
  | superWithoutSuperclass

namespace Problem

def message : Problem → Bytes
  | lexical m => m
  | expected what => ("Expect " : Bytes) ++ Bytes.ofString what ++ ("." : Bytes)
  | jumpTooLong => "Too much code to jump over."
  | loopTooLong => "Loop body too large."
  | tooManyConstants => "Too many constants in one chunk."
  | tooManyParameters => "Can't have more than 255 parameters."
  | tooManyArguments => "Can't have more than 255 arguments."
  | tooManyLocals => "Too many local variables in function."
  | tooManyCaptures => "Too many closure variables in function."
  | duplicateLocal => "Already a variable with this name in this scope."
  | ownInitializer => "Can't read local variable in its own initializer."
  | ownSuperclass => "A class can't inherit from itself."
  | returnFromScript => "Can't return from top-level code."
  | returnFromInitializer => "Can't return a value from an initializer."
  | assignmentTarget => "Invalid assignment target."
  | numberLiteral => "Invalid number literal."
  | thisOutsideClass => "Can't use 'this' outside of a class."
  | superOutsideClass => "Can't use 'super' outside of a class."
  | superWithoutSuperclass => "Can't use 'super' in a class with no superclass."

end Problem

structure Diagnostic where
  line : Nat
  place : Bytes
  message : Bytes
deriving DecidableEq

namespace Diagnostic

def at_ (t : Token) (p : Problem) : Diagnostic where
  line := t.line
  place := match t.kind with
    | .eof => " at end"
    | .error => ""
    | _ => (" at '" : Bytes) ++ t.lexeme ++ ("'" : Bytes)
  message := p.message

def text (d : Diagnostic) : Bytes :=
  ("[line " : Bytes) ++ Bytes.ofNat d.line ++ ("] Error" : Bytes) ++ d.place ++ (": " : Bytes)
    ++ d.message

def report (ds : List Diagnostic) : Bytes :=
  Bytes.join "\n" (ds.map text)

end Diagnostic

end Lox

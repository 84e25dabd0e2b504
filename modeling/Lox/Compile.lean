import Lox.Compile.Build
import Lox.Compile.Grammar
import Lox.Token.Scan

/-!
Compilation of a source text to the function of a script.
-/

namespace Lox

namespace CompileM

/-- Reads a goal. Three goals at most are entered before a token is taken, so a fuel of four times
the number of tokens is enough. -/
def parse : Nat → Goal → CompileM Unit
  | 0, _ => giveUp
  | n + 1, goal => production (parse n) n goal

def program (fuel : Nat) : CompileM Unit := do
  beginFunction .script
  advance
  loop fuel do
    if ← accept .eof then return false
    parse fuel .declaration
    return true
  let _ ← endFunction

end CompileM

def analyze (source : Bytes) : List Order × List Diagnostic :=
  let tokens := Token.scan source
  let c := (CompileM.program (4 * (tokens.length + 1)) { upcoming := tokens }).2
  if c.stuck then ([], []) else (c.orders.reverse, c.diagnostics.reverse)

def build (orders : List Order) : HeapM Site :=
  HeapM.rooting .compiler fun marker =>
    HeapM.withRoots marker [] (Order.carryOutAll { marker } orders)

def compile (source : Bytes) : HeapM (Except (List Diagnostic) Loc) := do
  let (orders, diagnostics) := analyze source
  match (← build orders).ended with
  | some script => return if diagnostics.isEmpty then .ok script else .error diagnostics
  | none => throw .missing

end Lox

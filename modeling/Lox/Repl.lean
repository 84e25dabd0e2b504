import Lox.Blank
import Lox.Server

namespace Lox

def maxLine : Nat := 65536

def dropReturn (line : Bytes) : Bytes :=
  if line.getLast? = some Ascii.carriageReturn then line.dropLast else line

def inputLines (input : Bytes) : List Bytes :=
  let pieces := input.splitOn Ascii.newline
  let pieces := if pieces.getLast? = some [] then pieces.dropLast else pieces
  (pieces.takeWhile (·.length < maxLine)).map dropReturn

structure Repl where
  host : Host

namespace Repl

def banner : Bytes :=
  "loxvm REPL (type 'exit' to quit, ':help' for commands)\n"

def prompt : Bytes := "> "

def help : Bytes :=
  "  :help   show this message\n  :stats  show run counters\n  exit    leave the REPL\n"

def new (fuel : Nat) (m : Manifest) : Repl where
  host := {
    runner := { execute := m.engine.run fuel }
    device := Device.acquire {} }

def counters (c : Counts) : Bytes :=
  ("runs " : Bytes) ++ Bytes.ofNat c.runs ++ (", compile errors " : Bytes)
    ++ Bytes.ofNat c.compileErrors ++ (", runtime errors " : Bytes) ++ Bytes.ofNat c.runtimeErrors
    ++ ("\n" : Bytes)

def command (r : Repl) (line : Bytes) : Bytes :=
  let name := Blank.firstWord line
  if name == (":help" : Bytes) then help
  else if name == (":stats" : Bytes) then counters r.host.runner.counts
  else ("Unknown command " : Bytes) ++ line ++ ("\n" : Bytes)

def execute (r : Repl) (source : Bytes) : Bytes × Repl :=
  let act : HostM Bytes := do
    let _ ← HostM.write none source
    HostM.readAll
  match act r.host with
  | .ok output host => (output, ⟨host⟩)
  | .error e host => (("Error: " : Bytes) ++ e.message ++ ("\n" : Bytes), ⟨host⟩)

/-- What a line prints and the prompt after it; `none` when the line ends the session. -/
def step (r : Repl) (line : Bytes) : Option (Bytes × Repl) :=
  let line := Blank.trim line
  if line == ("exit" : Bytes) || line == ("quit" : Bytes) then none
  else if line.isEmpty then some ([], r)
  else if line.head? = some 58 then some (r.command line, r)
  else some (r.execute line)

/-- All that the lines of an input print. The end of the input ends the line of the prompt. -/
def session (r : Repl) : List Bytes → Bytes
  | [] => prompt ++ ("\n" : Bytes)
  | line :: rest =>
    match r.step line with
    | none => prompt
    | some (output, r) => prompt ++ output ++ session r rest

def run (fuel : Nat) (m : Manifest) (input : Bytes) : Bytes :=
  banner ++ (new fuel m).session (inputLines input)

end Repl

end Lox

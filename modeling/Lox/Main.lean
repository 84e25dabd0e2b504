import Lox.CommandLine

namespace Lox.Program

def fuel : Nat := 1000000000000000000

def bytesOf (b : ByteArray) : Bytes :=
  b.data.toList

def arrayOf (b : Bytes) : ByteArray :=
  ⟨b.toArray⟩

def pathOf (b : Bytes) : String :=
  b.toString?.getD ""

def print (stream : IO.FS.Stream) (b : Bytes) : IO Unit := do
  unless b.isEmpty do
    stream.write (arrayOf b)
    stream.flush

def environment : CommandLine.Environment IO where
  workingDirectory := return Bytes.ofString (← IO.currentDir).toString
  contains path := do
    try
      let _ ← IO.FS.Handle.mk (pathOf path) .read
      return true
    catch _ => return false
  read? path := do
    try return some (bytesOf (← IO.FS.readBinFile (pathOf path)))
    catch _ => return none
  openLog path := do
    try
      let _ ← IO.FS.Handle.mk (pathOf path) .append
      return true
    catch _ => return false
  call? _ _ _ := return none

partial def readLine (input : IO.FS.Stream) (taken : Bytes) : IO (Bytes × Bool) := do
  let chunk := bytesOf (← input.read 1)
  match chunk with
  | [c] => if c = Ascii.newline then return (taken.reverse, true) else readLine input (c :: taken)
  | _ => return (taken.reverse, false)

partial def converse (input output : IO.FS.Stream) (r : Repl) : IO Unit := do
  print output Repl.prompt
  let (line, ended) ← readLine input []
  if maxLine ≤ line.length || (line.isEmpty && !ended) then print output "\n"
  else
    match r.step (dropReturn line) with
    | none => return
    | some (text, r) =>
      print output text
      converse input output r

end Lox.Program

def main (arguments : List String) : IO UInt32 := do
  let output ← IO.getStdout
  match ← Lox.CommandLine.run Lox.Program.environment Lox.Program.fuel
      (arguments.map Lox.Bytes.ofString) with
  | .done code text complaint =>
    Lox.Program.print output text
    Lox.Program.print (← IO.getStderr) complaint
    return code.toUInt32
  | .prompt manifest =>
    Lox.Program.print output Lox.Repl.banner
    Lox.Program.converse (← IO.getStdin) output (Lox.Repl.new Lox.Program.fuel manifest)
    return 0

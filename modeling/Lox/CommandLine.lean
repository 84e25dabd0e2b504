import Lox.CommandLine.Options
import Lox.Disassembly
import Lox.FileTree
import Lox.Repl

namespace Lox.CommandLine

structure Environment (m : Type → Type) where
  workingDirectory : m Bytes
  contains : Bytes → m Bool
  read? : Bytes → m (Option Bytes)
  openLog : Bytes → m Bool
  call? : Transport → Bytes → Bytes → m (Option Message.Result)

namespace Environment

def ofTree : Environment (StateM FileTree) where
  workingDirectory := return (← get).workingDirectory
  contains path := return (← get).contains path
  read? path := return (← get).read? path
  openLog path := do
    match (← get).touch? path with
    | some t =>
      set t
      return true
    | none => return false
  call? _ _ _ := return none

end Environment

namespace Exit

def usage : Nat := 64
def compileError : Nat := 65
def runtimeError : Nat := 70
def inputOutput : Nat := 74
def failure : Nat := 1
def crash : Nat := 2

def ofResult : InterpretResult → Nat
  | .ok => 0
  | .compileError => compileError
  | .runtimeError => runtimeError

def ofStatus : Status → Nat
  | .ok => 0
  | .compileError => compileError
  | .runtimeError | .internalError => runtimeError

end Exit

inductive Action where
  | done (code : Nat) (output complaint : Bytes)
  | prompt (m : Manifest)

def complain (code : Nat) (message : Bytes) : Action :=
  .done code [] message

def errorLine (message : Bytes) : Bytes :=
  ("Error: " : Bytes) ++ message ++ ("\n" : Bytes)

def usageText : Bytes :=
  "Usage: lox [options] [script]\n\nRuns a Lox script, or starts a REPL when no script is given.\n"

def load {m : Type → Type} [Monad m] (env : Environment m) (dir : Bytes) :
    m (Except Bytes Manifest) := do
  let path := Path.join dir Manifest.fileName
  match ← env.read? path with
  | none => return .error (("cannot read " : Bytes) ++ path)
  | some source =>
    match Manifest.parse source with
    | .error e => return .error (path ++ (": " : Bytes) ++ e.message)
    | .ok manifest =>
      let working ← env.workingDirectory
      return .ok { manifest with
        dir := if Path.isAbsolute dir then Path.clean dir else Path.join working dir }

def loadFirst {m : Type → Type} [Monad m] (env : Environment m) :
    List Bytes → m (Except Bytes Manifest)
  | [] => return .ok {}
  | dir :: rest => do
    if ← env.contains (Path.join dir Manifest.fileName) then load env dir
    else loadFirst env rest

def override (o : Options) (m : Manifest) : Manifest :=
  { m with
    verbosity := if 0 ≤ o.verbosity then o.verbosity else m.verbosity
    logFile := if o.logFile.isEmpty then m.logFile else o.logFile
    gc := { m.gc with stress := m.gc.stress || o.stressGc, trace := m.gc.trace || o.traceGc } }

def configure {m : Type → Type} [Monad m] (env : Environment m) (o : Options) :
    m (Except Bytes Manifest) := do
  let found ←
    if o.configDir.isEmpty then loadFirst env (Path.ancestors (← env.workingDirectory))
    else load env o.configDir
  return do
    let manifest := override o (← found)
    if manifest.isValid then .ok manifest else .error ManifestError.invalid.message

def runScript (fuel : Nat) (m : Manifest) (source : Bytes) : Action :=
  match Machine.new m.gc m.maxFrames .standard with
  | .error f => complain Exit.crash (errorLine f.message)
  | .ok machine =>
    match EmbedM.interpret fuel source machine with
    | .ok p machine => .done (Exit.ofResult p.result) machine.output []
    | .error f machine => .done Exit.crash machine.output (errorLine f.message)

def listScript (m : Manifest) (source : Bytes) : Action :=
  let act : HeapM (Except (List Diagnostic) Bytes) := do
    match ← compile source with
    | .error ds => return .error ds
    | .ok script => return .ok (← HeapView.disassemble script)
  match act (fun _ => []) (Heap.new m.gc) with
  | .ok (.ok listing) _ => .done 0 listing []
  | .ok (.error ds) _ => .done Exit.compileError (Diagnostic.report ds ++ ("\n" : Bytes)) []
  | .error f _ => .done Exit.crash [] (errorLine f.message)

def ofAnswer : Option Message.Result → Action
  | none => complain Exit.inputOutput (errorLine "no answer")
  | some r => .done (((Status.ofName? r.status).map Exit.ofStatus).getD 0) r.output []

def handle {m : Type → Type} [Monad m] (env : Environment m) (fuel : Nat) (o : Options)
    (manifest : Manifest) (source : Bytes) : m Action := do
  if o.disassemble then return listScript manifest source
  if !o.remote.isEmpty then return ofAnswer (← env.call? .connect o.remote source)
  if !o.remoteGrpc.isEmpty then return ofAnswer (← env.call? .grpc o.remoteGrpc source)
  return runScript fuel manifest source

def start {m : Type → Type} [Monad m] (env : Environment m) (fuel : Nat) (o : Options)
    (arguments : List Bytes) : m Action := do
  match ← configure env o with
  | .error message => return complain Exit.usage (errorLine message)
  | .ok manifest =>
    if let some path := manifest.logPath? then
      if !(← env.openLog path) then
        return complain Exit.failure (errorLine (("cannot open " : Bytes) ++ path))
    if o.lsp || o.serve then
      return complain Exit.failure (errorLine "no connection to serve")
    match arguments with
    | [] => return .prompt manifest
    | [path] =>
      match ← env.read? path with
      | none =>
        return complain Exit.inputOutput
          (("Could not open file " : Bytes) ++ path ++ ("\n" : Bytes))
      | some source => handle env fuel o manifest source
    | _ => return complain Exit.usage usageText

def run {m : Type → Type} [Monad m] (env : Environment m) (fuel : Nat) (arguments : List Bytes) :
    m Action :=
  match parse {} arguments with
  | .error misuse => return complain misuse.exitCode (misuse.message ++ usageText)
  | .ok (o, rest) => start env fuel o rest

def Action.perform (fuel : Nat) (input : Bytes) : Action → Nat × Bytes
  | done code output _ => (code, output)
  | prompt m => (0, Repl.run fuel m input)

end Lox.CommandLine

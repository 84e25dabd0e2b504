import Lox.Device
import Lox.Journal
import Lox.Journal.Location
import Lox.Manifest
import Lox.Service

namespace Lox

structure Server where
  host : Host
  journaling : Bool

def Manifest.engine (m : Manifest) : Engine :=
  { gc := m.gc, maxFrames := m.maxFrames }

namespace Server

inductive Obstacle where
  | journal
  | fault (f : Fault)

def new (fuel : Nat) (t : FileTree) (m : Manifest) : Except Obstacle Server := do
  if m.journalEnabled && (Journal.create? t m.journalFile).isNone then throw .journal
  match Runner.new (m.engine.run fuel) m.queueDepth.toNat false with
  | .error f => throw (.fault f)
  | .ok runner => return { host := { runner }, journaling := m.journalEnabled }

def idOf (number : Nat) : Bytes :=
  Bytes.padLeft 36 48 (Bytes.ofNat number)

def startOf (number : Nat) : Instant :=
  .ofNanos 1767225600 (number : Nat)

def duration : Int := 1000000

def entryOf (number : Nat) (source : Bytes) (o : Outcome) : Journal.Entry :=
  .ofRun (idOf number) (startOf number) duration o.status.name source o.output o.error

def journal (s : Server) : Journal :=
  (s.host.runner.completed.reverse.zipIdx).foldl (fun j ((source, outcome), number) =>
    (j.record? (entryOf number source outcome)).getD j) {}

/-- The last `n` runs on record, if there is a record. -/
def recent? (s : Server) (n : Int) : Option (List Journal.Entry) :=
  if s.journaling then s.journal.recent? n else none

def stats (s : Server) : Message.Stats :=
  let c := s.host.runner.counts
  { runs := c.runs
    compileErrors := c.compileErrors
    runtimeErrors := c.runtimeErrors
    internalErrors := c.internalErrors
    journal := if s.journaling then s.journal.entries.length else 0 }

def resultOf (number : Nat) (o : Outcome) : Message.Result :=
  { id := idOf number
    status := o.status.name
    output := o.output
    error := o.error
    line := o.line
    startedAt := startOf number
    duration
    collections := o.collections }

def answer (t : Transport) (request : Bytes) : EStateM Service.Error Server Bytes := fun s =>
  match Message.Request.decode? request with
  | none => .error (.malformed t) s
  | some { source } =>
    let back (runner : Runner) : Server := { s with host := { s.host with runner } }
    match Service.run none source s.host.runner with
    | .ok o r => .ok (resultOf (r.completed.length - 1) o).encode (back r)
    | .error e r => .error e (back r)

def call (t : Transport) (source : Bytes) : EStateM Service.Error Server Message.Result := do
  let request := Message.Request.encode ⟨source⟩
  Service.receive t request
  let reply ← answer t request
  Service.receive t reply
  match Message.Result.decode? reply with
  | some result => return result
  | none => throw (.malformed t)

end Server

end Lox

import Lox.Blank
import Lox.Message
import Lox.Runner

namespace Lox

inductive Transport where
  | connect | grpc
deriving DecidableEq

def Transport.limit? : Transport → Option Nat
  | .connect => none
  | .grpc => some (4 * 1024 * 1024)

namespace Service

inductive Code where
  | invalidArgument | unavailable | deadlineExceeded | canceled | internal | resourceExhausted
deriving DecidableEq

namespace Code

def name : Transport → Code → Bytes
  | .connect, invalidArgument => "invalid_argument"
  | .connect, unavailable => "unavailable"
  | .connect, deadlineExceeded => "deadline_exceeded"
  | .connect, canceled => "canceled"
  | .connect, internal => "internal"
  | .connect, resourceExhausted => "resource_exhausted"
  | .grpc, invalidArgument => "InvalidArgument"
  | .grpc, unavailable => "Unavailable"
  | .grpc, deadlineExceeded => "DeadlineExceeded"
  | .grpc, canceled => "Canceled"
  | .grpc, internal => "Internal"
  | .grpc, resourceExhausted => "ResourceExhausted"

def ofRefusal : Refusal → Code
  | .stopped => unavailable
  | .expired => deadlineExceeded
  | .canceled => canceled
  | _ => internal

end Code

structure Error where
  code : Code
  message : Bytes

namespace Error

def ofRefusal (r : Refusal) : Error :=
  ⟨.ofRefusal r, r.message⟩

def noSource : Error :=
  ⟨.invalidArgument, "source is required"⟩

def badText : Bytes :=
  "server: unmarshal *server.RunRequest: cbor: invalid UTF-8 string"

def malformed : Transport → Error
  | .connect => ⟨.invalidArgument, ("unmarshal message: " : Bytes) ++ badText⟩
  | .grpc => ⟨.internal, ("grpc: error unmarshalling request: " : Bytes) ++ badText⟩

def oversize (size limit : Nat) : Error :=
  ⟨.resourceExhausted, ("grpc: received message larger than max (" : Bytes) ++ Bytes.ofNat size
    ++ (" vs. " : Bytes) ++ Bytes.ofNat limit ++ (")" : Bytes)⟩

end Error

def receive {σ : Type} (t : Transport) (message : Bytes) : EStateM Error σ Unit := do
  if let some limit := t.limit? then
    if limit < message.length then throw (.oversize message.length limit)

def run (ended : Option Refusal) (source : Bytes) : EStateM Error Runner Outcome := fun r =>
  if (Blank.trim source).isEmpty then .error .noSource r
  else
    match RunnerM.run ended source r with
    | .ok outcome r => .ok outcome r
    | .error e r => .error (.ofRefusal e) r

end Service

end Lox

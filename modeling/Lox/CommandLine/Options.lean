import Lox.Bytes

namespace Lox.CommandLine

structure Options where
  configDir : Bytes := []
  verbosity : Int := -1
  logFile : Bytes := []
  serve : Bool := false
  lsp : Bool := false
  disassemble : Bool := false
  stressGc : Bool := false
  traceGc : Bool := false
  remote : Bytes := []
  remoteGrpc : Bytes := []

inductive Flag where
  | text (put : Bytes → Options → Options)
  | integer (put : Int → Options → Options)
  | switch (put : Bool → Options → Options)

def flags : List (String × Flag) :=
  [("config", .text fun b o => { o with configDir := b }),
    ("v", .integer fun n o => { o with verbosity := n }),
    ("log", .text fun b o => { o with logFile := b }),
    ("serve", .switch fun b o => { o with serve := b }),
    ("lsp", .switch fun b o => { o with lsp := b }),
    ("disasm", .switch fun b o => { o with disassemble := b }),
    ("stress-gc", .switch fun b o => { o with stressGc := b }),
    ("trace-gc", .switch fun b o => { o with traceGc := b }),
    ("remote", .text fun b o => { o with remote := b }),
    ("remote-grpc", .text fun b o => { o with remoteGrpc := b })]

def flag? (name : Bytes) : Option Flag :=
  (flags.find? fun entry => Bytes.ofString entry.1 == name).map (·.2)

def digit? (c : UInt8) : Option Nat :=
  if isDigit c then some (c.toNat - 48)
  else if 97 ≤ c && c ≤ 122 then some (c.toNat - 87)
  else if 65 ≤ c && c ≤ 90 then some (c.toNat - 55)
  else none

def digits? (base : Nat) (b : Bytes) : Option Nat :=
  b.foldlM (fun n c => do
    let d ← digit? c
    if d < base then some (n * base + d) else none) 0

def baseOf : Bytes → Nat × Bytes
  | 48 :: c :: d :: rest =>
    if c = 98 ∨ c = 66 then (2, 48 :: d :: rest)
    else if c = 111 ∨ c = 79 then (8, 48 :: d :: rest)
    else if c = 120 ∨ c = 88 then (16, 48 :: d :: rest)
    else (8, 48 :: c :: d :: rest)
  | 48 :: rest => (8, 48 :: rest)
  | b => (10, b)

def natural? (b : Bytes) : Option Nat :=
  let (base, text) := baseOf b
  let groups := text.splitOn 95
  if groups.all (!·.isEmpty) then digits? base groups.flatten else none

def integer? : Bytes → Option Int
  | 45 :: b => do
    let n ← natural? b
    if n ≤ 0x8000000000000000 then some (-n) else none
  | 43 :: b => do
    let n ← natural? b
    if n < 0x8000000000000000 then some n else none
  | b => do
    let n ← natural? b
    if n < 0x8000000000000000 then some n else none

inductive Misuse where
  | help
  | unknown (name : Bytes)
  | malformed (argument : Bytes)
  | badValue (name value : Bytes)
  | missingValue (name : Bytes)

namespace Misuse

def exitCode : Misuse → Nat
  | help => 0
  | _ => 2

def message : Misuse → Bytes
  | help => []
  | unknown name => ("flag provided but not defined: -" : Bytes) ++ name ++ ("\n" : Bytes)
  | malformed argument => ("bad flag syntax: " : Bytes) ++ argument ++ ("\n" : Bytes)
  | badValue name value =>
    ("invalid value \"" : Bytes) ++ value ++ ("\" for flag -" : Bytes) ++ name ++ ("\n" : Bytes)
  | missingValue name => ("flag needs an argument: -" : Bytes) ++ name ++ ("\n" : Bytes)

end Misuse

def isOption : Bytes → Bool
  | 45 :: _ :: _ => true
  | _ => false

def nameAndValue (argument : Bytes) : Bytes × Option Bytes :=
  let body := argument.drop 1
  let body := if body.head? = some 45 then body.drop 1 else body
  let name := body.takeWhile (· != Ascii.equals)
  (name, (body.drop name.length).tail?)

/-- Reads the options in front of the other arguments. -/
def parse (o : Options) : List Bytes → Except Misuse (Options × List Bytes)
  | [] => .ok (o, [])
  | argument :: rest =>
    if !isOption argument then .ok (o, argument :: rest)
    else if argument == ("--" : Bytes) then .ok (o, rest)
    else
      let (name, value) := nameAndValue argument
      if name.isEmpty || name.head? = some 45 then .error (.malformed argument)
      else
        match flag? name, value with
        | none, _ =>
          let asksHelp := name == ("help" : Bytes) || name == ("h" : Bytes)
          .error (if asksHelp then .help else .unknown name)
        | some (.switch put), none => parse (put true o) rest
        | some (.switch put), some value =>
          match Bytes.boolean? value with
          | some b => parse (put b o) rest
          | none => .error (.badValue name value)
        | some (.text put), some value => parse (put value o) rest
        | some (.integer put), some value =>
          match integer? value with
          | some n => parse (put n o) rest
          | none => .error (.badValue name value)
        | some flag, none =>
          match rest with
          | [] => .error (.missingValue name)
          | value :: rest =>
            match flag with
            | .integer put =>
              match integer? value with
              | some n => parse (put n o) rest
              | none => .error (.badValue name value)
            | .text put => parse (put value o) rest
            | .switch _ => .error (.missingValue name)

end Lox.CommandLine

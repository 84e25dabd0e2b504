import Lox.Heap.Basic
import Lox.Path
import Lox.Toml.Document

namespace Lox

structure Manifest where
  gc : GcOptions := {}
  maxFrames : Int := 64
  addr : Bytes := "localhost:8463"
  grpcAddr : Bytes := "localhost:8464"
  queueDepth : Int := 16
  journalEnabled : Bool := false
  journalPath : Bytes := ".loxvm/journal.db"
  verbosity : Int := 1
  logFile : Bytes := ""
  dir : Bytes := ""

inductive ManifestError where
  | parse
  | unknownKey (key : Toml.Key)
  | invalid

namespace ManifestError

def message : ManifestError → Bytes
  | parse => "parse error"
  | unknownKey key => ("invalid configuration: unknown key " : Bytes) ++ key.text
  | invalid => "invalid configuration"

end ManifestError

namespace Manifest

def fileName : Bytes := "loxvm.toml"

abbrev Setting := Toml.Item → Manifest → Option Manifest

def boolean (put : Bool → Manifest → Manifest) : Setting
  | .boolean b, m => some (put b m)
  | _, _ => none

def integer (put : Int → Manifest → Manifest) : Setting
  | .integer n, m => some (put n m)
  | _, _ => none

def text (put : Bytes → Manifest → Manifest) : Setting
  | .string b, m => some (put b m)
  | _, _ => none

def number (put : Float → Manifest → Manifest) : Setting
  | .float f, m => some (put f m)
  | .integer n, m => if n.natAbs < 0x20000000000000 then some (put (Float.ofInt n) m) else none
  | _, _ => none

def withGc (f : GcOptions → GcOptions) (m : Manifest) : Manifest :=
  { m with gc := f m.gc }

def settings : List (String × List (String × Setting)) :=
  [("gc", [
      ("initial-threshold", integer fun n => withGc fun gc => { gc with initial := n }),
      ("growth-factor", number fun f => withGc fun gc => { gc with growth := f }),
      ("min-threshold", integer fun n => withGc fun gc => { gc with min := n }),
      ("stress", boolean fun b => withGc fun gc => { gc with stress := b }),
      ("trace", boolean fun b => withGc fun gc => { gc with trace := b })]),
    ("vm", [("max-frames", integer fun n m => { m with maxFrames := n })]),
    ("server", [
      ("addr", text fun b m => { m with addr := b }),
      ("grpc-addr", text fun b m => { m with grpcAddr := b }),
      ("queue-depth", integer fun n m => { m with queueDepth := n })]),
    ("journal", [
      ("enabled", boolean fun b m => { m with journalEnabled := b }),
      ("path", text fun b m => { m with journalPath := b })]),
    ("log", [
      ("verbosity", integer fun n m => { m with verbosity := n }),
      ("file", text fun b m => { m with logFile := b })])]

def folded : Bytes → Bytes
  | [] => []
  | 0xc5 :: 0xbf :: r => 115 :: folded r
  | c :: r => (if 65 ≤ c && c ≤ 90 then c + 32 else c) :: folded r

def lookup {α : Type} (name : Bytes) (known : List (String × α)) : Option α :=
  (known.find? fun entry => Bytes.ofString entry.1 == folded name).map (·.2)

def isKnown : Toml.Key → Bool
  | [s] => (lookup s settings).isSome
  | [s, name] => ((lookup s settings).bind (lookup name)).isSome
  | _ => false

def readSection (known : List (String × Setting)) (es : Toml.Entries) (m : Manifest) :
    Option Manifest :=
  es.foldlM (fun m (name, node) =>
    match lookup name known with
    | none => some m
    | some setting =>
      match node with
      | .leaf item => setting item m
      | _ => none) m

def readSections (es : Toml.Entries) : Option Manifest :=
  es.foldlM (fun m (name, node) =>
    match lookup name settings with
    | none => some m
    | some known =>
      match node with
      | .table inner => readSection known inner m
      | _ => none) {}

def isValid (m : Manifest) : Bool :=
  0 < m.gc.initial && 1 < m.gc.growth && 0 < m.gc.min
    && 1 ≤ m.maxFrames && m.maxFrames ≤ 4096
    && 0 ≤ m.queueDepth
    && (!m.journalEnabled || !m.journalPath.isEmpty)
    && 0 ≤ m.verbosity && m.verbosity ≤ 5

/-- The configuration in a text. A key that something later has taken out of the document counts as
not known. -/
def parse (source : Bytes) : Except ManifestError Manifest := do
  let some document := Toml.read? source | throw .parse
  let some m := readSections document.root | throw .parse
  let isStray (key : Toml.Key) : Bool := !(isKnown key && document.contains key)
  if let some key := document.order.find? isStray then throw (.unknownKey key)
  if m.isValid then return m else throw .invalid

def resolve (m : Manifest) (path : Bytes) : Bytes :=
  if Path.isAbsolute path || m.dir.isEmpty then path else Path.join m.dir path

def journalFile (m : Manifest) : Bytes :=
  m.resolve m.journalPath

def logPath? (m : Manifest) : Option Bytes :=
  if m.logFile.isEmpty then none else some (m.resolve m.logFile)

end Manifest

end Lox

import Lox.Cbor.Read
import Lox.Instant
import Lox.Number

namespace Lox.Message

open Cbor

inductive Key where
  | number (n : Int)
  | name (b : Bytes)
deriving DecidableEq

def maxInteger : Nat := 0x7fffffffffffffff

def textOf? : Item → Option Bytes
  | .text pieces => if pieces.all Utf8.valid then some pieces.flatten else none
  | _ => none

def keyOf? : Item → Option Key
  | .uint n => some (.number n)
  | .negative n => if n ≤ maxInteger then some (.number (-1 - n)) else none
  | item => (textOf? item).map .name

def Key.isField (field : Nat) (key : Key) : Bool :=
  key == .number field || key == .name (Bytes.ofNat field)

def isAdmissible : Nat → Item → Bool
  | 0, .text _ => true
  | 0, _ => false
  | 1, .uint _ | 1, .negative _ | 1, .float _ => true
  | 1, _ => false
  | 2, .bytes _ | 3, .bytes _ => true
  | 2, _ | 3, _ => false
  | _, _ => true

def untagged : Item → Option Item
  | .tag n content =>
    if isAdmissible n content then
      match n, content with
      | 2, .bytes b => some (.uint (ofBigEndian b))
      | 3, .bytes b => some (.negative (ofBigEndian b))
      | _, content => untagged content
    else none
  | item => some item

def readText (item : Item) : Option Bytes := do
  let item ← untagged item
  if item.isNull then return []
  textOf? item

/-- A field that holds an integer; a simple value counts as its number, except for the two
booleans. -/
def readInteger (item : Item) : Option Int := do
  let item ← untagged item
  if item.isNull then return 0
  match item with
  | .uint n => if n ≤ maxInteger then some n else none
  | .negative n => if n ≤ maxInteger then some (-1 - n) else none
  | .simple n => if n = 20 ∨ n = 21 then none else some n
  | _ => none

def selfDescribed : Nat := 55799

def described : Item → Item
  | .tag n content => if n = selfDescribed then described content else .tag n content
  | item => item

def innermost : Item → Item
  | .tag _ content => innermost content
  | item => item

def timeContent (item : Item) : Option Item :=
  match described item with
  | .tag n content => if isAdmissible n content then some (innermost content) else none
  | item => some item

def instantOf (f : Float) : Instant :=
  let whole := Number.truncate f.toBits
  let part := f - (if f < 0 then f.ceil else f.floor)
  let seconds := if -0x8000000000000000 ≤ whole ∧ whole < 0x8000000000000000 then whole
    else -0x8000000000000000
  .ofNanos seconds (Number.truncate (part * 1e9).toBits)

/-- A field that holds a time: a number of seconds, an integer one modulo `2 ^ 64`, or a text. What
is not a finite number is no time at all. -/
def readTime (item : Item) : Option Instant := do
  let item ← timeContent item
  if item.isNull then return .zero
  match item with
  | .uint n => some ⟨Int.bmod n 0x10000000000000000, 0⟩
  | .negative n => if n ≤ maxInteger then some ⟨-1 - n, 0⟩ else none
  | .float bits => some (((finite? bits).map instantOf).getD .zero)
  | item => Instant.parse? (← textOf? item)

abbrev Fields := List (Key × Item)

def readFields (item : Item) : Option Fields := do
  let item ← untagged item
  if item.isNull then return []
  match item with
  | .map entries => entries.mapM fun (key, value) => return (← keyOf? key, value)
  | _ => none

def Fields.read {α : Type} (fields : Fields) (field : Nat) (zero : α) (read : Item → Option α) :
    Option α :=
  match fields.find? (·.1.isField field) with
  | some (_, item) => read item
  | none => some zero

def fieldsOf (b : Bytes) : Option Fields := do
  readFields (← Cbor.read? b)

def ofFields (fields : List (Nat × Item)) : Item :=
  .map (fields.map fun (n, item) => (.uint n, item))

structure Request where
  source : Bytes

namespace Request

def encode (r : Request) : Bytes :=
  (ofFields [(1, .ofText r.source)]).encode

def decode? (b : Bytes) : Option Request := do
  let fields ← fieldsOf b
  return { source := ← fields.read 1 [] readText }

end Request

def statsRequest : Bytes :=
  (ofFields []).encode

structure Result where
  id : Bytes := []
  status : Bytes := []
  output : Bytes := []
  error : Bytes := []
  line : Int := 0
  startedAt : Instant := .zero
  -- In nanoseconds.
  duration : Int := 0
  collections : Int := 0

namespace Result

/-- An empty error and the line `0` are left out, and only whole seconds of a time are written. -/
def encode (r : Result) : Bytes :=
  (ofFields ([(1, .ofText r.id), (2, .ofText r.status), (3, .ofText r.output)]
    ++ (if r.error.isEmpty then [] else [(4, .ofText r.error)])
    ++ (if r.line = 0 then [] else [(5, .ofInt r.line)])
    ++ [(6, if r.startedAt = .zero then .null else .ofInt r.startedAt.seconds),
      (7, .ofInt r.duration), (8, .ofInt r.collections)])).encode

def decode? (b : Bytes) : Option Result := do
  let fields ← fieldsOf b
  return {
    id := ← fields.read 1 [] readText
    status := ← fields.read 2 [] readText
    output := ← fields.read 3 [] readText
    error := ← fields.read 4 [] readText
    line := ← fields.read 5 0 readInteger
    startedAt := ← fields.read 6 .zero readTime
    duration := ← fields.read 7 0 readInteger
    collections := ← fields.read 8 0 readInteger }

end Result

structure Stats where
  runs : Int := 0
  compileErrors : Int := 0
  runtimeErrors : Int := 0
  internalErrors : Int := 0
  journal : Int := 0

namespace Stats

def encode (s : Stats) : Bytes :=
  (ofFields [
    (1, ofFields [(1, .ofInt s.runs), (2, .ofInt s.compileErrors), (3, .ofInt s.runtimeErrors),
      (4, .ofInt s.internalErrors)]),
    (2, .ofInt s.journal)]).encode

def decode? (b : Bytes) : Option Stats := do
  let fields ← fieldsOf b
  let counts : Fields ← fields.read 1 [] readFields
  return {
    runs := ← counts.read 1 0 readInteger
    compileErrors := ← counts.read 2 0 readInteger
    runtimeErrors := ← counts.read 3 0 readInteger
    internalErrors := ← counts.read 4 0 readInteger
    journal := ← fields.read 2 0 readInteger }

end Stats

end Lox.Message

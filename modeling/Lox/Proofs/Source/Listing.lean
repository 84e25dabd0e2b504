import Lox.Opcode
import Lox.Proofs.Compile.Draft
import Lox.Proofs.Source.Parse
import Mathlib.Algebra.Ring.Nat
import Mathlib.Data.List.Forall2

/-!
Code as a list of instructions with their operands as numbers. Where a declaration or statement begins
there is a mark with the number of variables in scope.
-/

namespace Lox

structure Origin where
  isLocal : Bool
  index : Nat
deriving DecidableEq

inductive Operand where
  | none
  | byte (n : Nat)
  | short (n : Nat)
  | pair (index count : Nat)
  | closure (index : Nat) (origins : List Origin)
deriving DecidableEq

namespace Operand

def size : Operand → Nat
  | none => 0
  | byte _ => 1
  | short _ => 2
  | pair .. => 2
  | closure _ origins => 1 + 2 * origins.length

def bytes : Operand → List UInt8
  | none => []
  | byte n => [n.toUInt8]
  | short n => [(n / 256).toUInt8, n.toUInt8]
  | pair index count => [index.toUInt8, count.toUInt8]
  | closure index origins =>
    index.toUInt8 :: origins.flatMap fun o => [if o.isLocal then 1 else 0, o.index.toUInt8]

def Fits : Operand → Prop
  | none => True
  | byte n => n < 256
  | short n => n < 65536
  | pair index count => index < 256 ∧ count < 256
  | closure index origins => index < 256 ∧ ∀ o ∈ origins, o.index < 256

theorem length_bytes (o : Operand) : o.bytes.length = o.size := by
  cases o with
  | closure index origins =>
    have hpairs : (origins.flatMap fun o : Origin =>
        [if o.isLocal then (1 : UInt8) else 0, o.index.toUInt8]).length = 2 * origins.length := by
      induction origins with
      | nil => rfl
      | cons o os ih =>
        rw [List.flatMap_cons, List.length_append, ih, List.length_cons]
        simp only [List.length_cons, List.length_nil]
        omega
    rw [bytes, size, List.length_cons, hpairs]
    omega
  | _ => rfl

end Operand

inductive Line where
  | mark (locals : Nat)
  | instr (op : Opcode) (operand : Operand)
deriving DecidableEq

namespace Line

def size : Line → Nat
  | mark _ => 0
  | instr _ operand => 1 + operand.size

def bytes : Line → List UInt8
  | mark _ => []
  | instr op operand => op.toByte :: operand.bytes

def Fits : Line → Prop
  | mark _ => True
  | instr _ operand => operand.Fits

theorem length_bytes (l : Line) : l.bytes.length = l.size := by
  cases l with
  | mark n => rfl
  | instr op operand =>
    simp only [bytes, size, List.length_cons, Operand.length_bytes]
    omega

end Line

namespace Code

def size (code : List Line) : Nat :=
  (code.map Line.size).sum

def bytes (code : List Line) : List UInt8 :=
  code.flatMap Line.bytes

def Fits (code : List Line) : Prop :=
  ∀ l ∈ code, l.Fits

@[simp] theorem size_nil : size [] = 0 := rfl

@[simp] theorem size_cons (l : Line) (code : List Line) : size (l :: code) = l.size + size code := rfl

@[simp] theorem size_append (a b : List Line) : size (a ++ b) = size a + size b := by
  simp [size]

@[simp] theorem bytes_nil : bytes [] = [] := rfl

@[simp] theorem bytes_cons (l : Line) (code : List Line) : bytes (l :: code) = l.bytes ++ bytes code :=
  rfl

@[simp] theorem bytes_append (a b : List Line) : bytes (a ++ b) = bytes a ++ bytes b := by
  simp [bytes]

@[simp] theorem length_bytes (code : List Line) : (bytes code).length = size code := by
  induction code with
  | nil => rfl
  | cons l code ih => rw [bytes_cons, List.length_append, Line.length_bytes, size_cons, ih]

theorem fits_nil : Fits [] := nofun

theorem Fits.append {a b : List Line} (ha : Fits a) (hb : Fits b) : Fits (a ++ b) := by
  intro l hl
  rcases List.mem_append.mp hl with hl | hl
  · exact ha l hl
  · exact hb l hl

theorem fits_plain (op : Opcode) : Fits [.instr op .none] :=
  List.forall_mem_singleton.mpr trivial

theorem fits_byte (op : Opcode) {n : Nat} (h : n < 256) : Fits [.instr op (.byte n)] :=
  List.forall_mem_singleton.mpr h

theorem fits_pair (op : Opcode) {index count : Nat} (hi : index < 256) (hc : count < 256) :
    Fits [.instr op (.pair index count)] :=
  List.forall_mem_singleton.mpr ⟨hi, hc⟩

theorem fits_cons {l : Line} {code : List Line} (hl : l.Fits) (hc : Fits code) : Fits (l :: code) :=
  List.forall_mem_cons.mpr ⟨hl, hc⟩

end Code

inductive Mark where
  | plain
  | superclass
  | first
deriving DecidableEq

/-- A function as a listing, with constants of type `κ`. -/
structure Listing (κ : Type) where
  kind : FunctionKind
  arity : Nat
  name : Option Bytes
  origins : List Origin
  marks : List Mark
  code : List Line
  constants : List κ
  classes : List ClassBody

inductive Item where
  | number (v : Value)
  | string (chars : Bytes)
  | function (f : Listing Item)

/-- A constant that stands for an item of a listing. -/
inductive Item.Made : Item → Literal → Prop where
  | number (v : Value) : Made (.number v) (.number v)
  | string (chars : Bytes) : Made (.string chars) (.string chars)
  | function {f : Listing Item} {p : Prototype} (arity : p.arity = f.arity) (name : p.name = f.name)
      (captures : p.captures = f.origins.length) (code : p.code = Code.bytes f.code)
      (lines : p.lines.length = p.code.length) (fits : Code.Fits f.code)
      (constants : List.Forall₂ Made f.constants p.constants) (few : f.origins.length ≤ 256) :
      Made (.function f) (.function p)

end Lox

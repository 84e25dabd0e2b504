import Lox.Compile.State
import Lox.Proofs.Value

/-!
Functions apart from any heap. The orders of a compilation, carried out on plain data, give the tree of
functions that they make on a heap.
-/

namespace Lox

structure Template (κ : Type) where
  arity : Nat := 0
  captures : Nat := 0
  name : Option Bytes := none
  code : List UInt8 := []
  lines : List Nat := []
  constants : List κ := []

inductive Literal where
  | number (v : Value)
  | string (chars : Bytes)
  | function (p : Template Literal)

abbrev Prototype := Template Literal

theorem Prototype.sizeOf_lt {p q : Prototype} (h : .function q ∈ p.constants) : sizeOf q < sizeOf p := by
  have hlt := List.sizeOf_lt_of_mem h
  obtain ⟨name, arity, captures, code, lines, constants⟩ := p
  simp only [Literal.function.sizeOf_spec, Template.mk.sizeOf_spec] at hlt ⊢
  omega

namespace Template

variable {κ : Type}

def addConstant (k : κ) (p : Template κ) : Template κ :=
  { p with constants := p.constants ++ [k] }

def addByte (b : UInt8) (line : Nat) (p : Template κ) : Template κ :=
  { p with code := p.code ++ [b], lines := p.lines ++ [line] }

def text (p : Template κ) : Bytes :=
  match p.name with
  | some chars => ("<fn " : Bytes) ++ chars ++ (">" : Bytes)
  | none => "<script>"

end Template

structure Drafts where
  open_ : List Prototype := []
  ended : Option Prototype := none

namespace Drafts

def onInner (f : Prototype → Prototype) (d : Drafts) : Option Drafts :=
  match d.open_ with
  | p :: rest => some ⟨f p :: rest, none⟩
  | [] => none

end Drafts

namespace Order

def draft (d : Drafts) : Order → Option Drafts
  | .begin => some ⟨{} :: d.open_, none⟩
  | .name chars => d.onInner fun p => { p with name := some chars }
  | .byte b line => d.onInner (·.addByte b line)
  | .patch offset b =>
    match d.open_ with
    | p :: rest =>
      if offset < p.code.length then some ⟨{ p with code := p.code.set offset b } :: rest, none⟩
      else none
    | [] => none
  | .number v => if v.IsNumeral then d.onInner (·.addConstant (.number v)) else none
  | .string chars => d.onInner (·.addConstant (.string chars))
  | .enclose =>
    match d.ended with
    | some p => d.onInner (·.addConstant (.function p))
    | none => none
  | .parameter => d.onInner fun p => { p with arity := p.arity + 1 }
  | .capture depth =>
    if depth < d.open_.length then
      some ⟨d.open_.modify depth fun p => { p with captures := p.captures + 1 }, none⟩
    else none
  | .finish =>
    match d.open_ with
    | p :: rest => some ⟨rest, some p⟩
    | [] => none

def draftAll (d : Drafts) (orders : List Order) : Option Drafts :=
  orders.foldlM draft d

theorem draftAll_cons (d : Drafts) (o : Order) (os : List Order) :
    draftAll d (o :: os) = (o.draft d).bind (draftAll · os) :=
  List.foldlM_cons

theorem draftAll_append (d : Drafts) (os os' : List Order) :
    draftAll d (os ++ os') = (draftAll d os).bind (draftAll · os') :=
  List.foldlM_append

end Order

end Lox

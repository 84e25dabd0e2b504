import Lox.Proofs.Ideal.Mirror
import Lox.Proofs.Machine.Trail
import Lox.Proofs.Verify.WellFormed

/-!
What is known of the state of the ideal machine while it runs verified code: which slots hold classes and
closures, which upvalues are open, with which slots each active call goes on, and how the classes were declared.
-/

namespace Lox

structure Facts where
  listing : Nat → Listing Item
  mark : Nat → Mark
  superclass : Nat → Nat
  home : Nat → Option Nat
  lineage : Lineage := {}
  bodies : List ClassBody := []
  declaring : Option Nat := none
  pending : Option Nat := none
  unfinished : Option Nat := none
  -- What each active call has in its first slot, innermost first.
  firsts : List Val := []

section

variable {objects objects' : List (Obj Routine)} {a : Nat} {p : Prototype} {v : Val} {Γ : Facts} {globals : Dict Val}

def ClassAt (objects : List (Obj Routine)) (a : Nat) : Prop :=
  ∃ name methods, objects[a]? = some (.class_ name methods)

def CodeAt (objects : List (Obj Routine)) (a : Nat) (p : Prototype) : Prop :=
  ∃ r, objects[a]? = some (.closure r) ∧ r.prototype = p

def ClosureAt (objects : List (Obj Routine)) (a : Nat) : Prop :=
  ∃ p, CodeAt objects a p

/-- Classes keep their names, and closures their code. -/
structure Obj.Later (objects objects' : List (Obj Routine)) : Prop where
  length : objects.length ≤ objects'.length
  classes : ∀ (a : Nat) name methods, objects[a]? = some (.class_ name methods) →
    ∃ methods', objects'[a]? = some (.class_ name methods')
  closures : ∀ (a : Nat) (p : Prototype), CodeAt objects a p → CodeAt objects' a p

theorem Obj.Later.refl (objects : List (Obj Routine)) : Obj.Later objects objects :=
  ⟨Nat.le_refl _, fun _ _ methods h => ⟨methods, h⟩, fun _ _ => id⟩

theorem Obj.Later.classAt (h : Obj.Later objects objects') (ha : ClassAt objects a) : ClassAt objects' a := by
  obtain ⟨name, methods, hm⟩ := ha
  exact ⟨name, h.classes a name methods hm⟩

theorem Obj.Later.closureAt (h : Obj.Later objects objects') (ha : ClosureAt objects a) : ClosureAt objects' a := by
  obtain ⟨p, hp⟩ := ha
  exact ⟨p, h.closures a p hp⟩

theorem Obj.Later.append (objects : List (Obj Routine)) (o : Obj Routine) : Obj.Later objects (objects ++ [o]) where
  length := by simp
  classes a name methods hm := ⟨methods, getElem?_append_of_some hm _⟩
  closures a p hp := by
    obtain ⟨r, hr, hrp⟩ := hp
    exact ⟨r, getElem?_append_of_some hr _, hrp⟩

theorem Obj.Later.set {o : Obj Routine}
    (hclass : ∀ name methods, objects[a]? = some (.class_ name methods) → ∃ methods', o = .class_ name methods')
    (hcode : ∀ p, CodeAt objects a p → ∃ r, o = .closure r ∧ r.prototype = p) :
    Obj.Later objects (objects.set a o) where
  length := by simp
  classes k name methods hm := by
    by_cases ha : a = k
    · subst ha
      obtain ⟨methods', rfl⟩ := hclass name methods hm
      exact ⟨methods', List.getElem?_set_self (List.getElem?_eq_some_iff.mp hm).1⟩
    · exact ⟨methods, by rw [List.getElem?_set_ne ha]; exact hm⟩
  closures k p hk := by
    obtain ⟨r, hr, hrp⟩ := id hk
    by_cases ha : a = k
    · subst ha
      obtain ⟨r', rfl, hrp'⟩ := hcode p hk
      exact ⟨r', List.getElem?_set_self (List.getElem?_eq_some_iff.mp hr).1, hrp'⟩
    · exact ⟨r, by rw [List.getElem?_set_ne ha]; exact hr, hrp⟩

theorem CodeAt.lt (h : CodeAt objects a p) : a < objects.length := by
  obtain ⟨r, hr, -⟩ := h
  exact (List.getElem?_eq_some_iff.mp hr).1

theorem ClassAt.lt (h : ClassAt objects a) : a < objects.length := by
  obtain ⟨name, methods, hm⟩ := h
  exact (List.getElem?_eq_some_iff.mp hm).1

def Facts.Holds (Γ : Facts) (c : Nat) : Content → Val → Prop
  | .any, _ | .first, _ => True
  | .own, v => ∃ k, v = .object k ∧ Γ.declaring = some k
  | .closure j, v => ∃ m f, v = .object m ∧ Γ.pending = some m ∧ (Γ.listing c).constants[j]? = some (.function f) ∧
      Γ.listing m = f
  | .superclass, v => ∃ p, v = .object p ∧ ∀ k, Γ.declaring = some k → Γ.lineage.parent k = some p
  | .receiver, v => Γ.firsts.head? = some v
  | .parent, v => ∃ k p, v = .object p ∧ Γ.home c = some k ∧ Γ.lineage.parent k = some p

theorem Facts.Holds.within {c : Nat} {x y : Content} (h : Γ.Holds c x v) (hy : x.Within y) : Γ.Holds c y v := by
  rcases hy with rfl | ⟨rfl, -⟩
  · exact h
  · trivial

theorem Facts.holds_calm {c : Nat} {s : Slot} (h : s.Calm) : Γ.Holds c s.content v := by
  rcases h with h | h <;> rw [h] <;> trivial

def Facts.Vouches (Γ : Facts) (objects : List (Obj Routine)) (upvalues a : Nat) : Obj Routine → Prop
  | .closure r => (Γ.listing a).Verified ∧ Item.Made (.function (Γ.listing a)) (.function r.prototype) ∧
      (Γ.listing a).classes ⊆ Γ.bodies ∧ r.captures.length = (Γ.listing a).marks.length ∧
      (∀ j u : Nat, r.captures[j]? = some (some u) → u < upvalues ∧ (Γ.listing a).marks[j]? = some (Γ.mark u) ∧
        (Γ.mark u = .superclass → ∃ k, Γ.home a = some k ∧ Γ.lineage.parent k = some (Γ.superclass u))) ∧
      (Γ.unfinished ≠ some a → none ∉ r.captures)
  | .native n => n ∈ EmbedM.builtins
  | .class_ .. => True
  | .instance_ k _ => ClassAt objects k
  | .bound _ m => ClosureAt objects m

def Facts.Gives (Γ : Facts) (d : Lambda Stmt) (x : Bytes × Nat) : Prop :=
  x.1 = d.name ∧ (Γ.listing x.2).Renders d

/-- A class is as its declaration says. -/
structure Facts.Fulfils (Γ : Facts) (k : Nat) (name : Bytes) (b : ClassBody) : Prop where
  listed : b ∈ Γ.bodies
  name : name = b.name
  superclass : (Γ.lineage.parent k).isSome = b.superclass.isSome
  methods : List.Forall₂ Γ.Gives b.methods (Γ.lineage.own k).reverse

/-- The lineage is that of the classes and closures there are, and each class has the methods that follow
from it. -/
structure Facts.Genuine (Γ : Facts) (objects : List (Obj Routine)) : Prop where
  parents : ∀ k p, Γ.lineage.parent k = some p → ClassAt objects k ∧ ClassAt objects p ∧
    (Γ.declaring = some p → k = p)
  owners : ∀ k name m, (name, m) ∈ Γ.lineage.own k → ClassAt objects k ∧ ClosureAt objects m ∧
    (Γ.listing m).name = some name ∧ (name = "init" → (Γ.listing m).kind = .initializer) ∧
    ((Γ.lineage.parent k).isSome → Γ.home m = some k)
  makers : ∀ m c, Γ.lineage.maker m = some c → ClosureAt objects m ∧ ClosureAt objects c ∧
    (Γ.home m = Γ.home c ∨ (∃ k name, (name, m) ∈ Γ.lineage.own k) ∨ Γ.pending = some m)
  tables : ∀ k name methods, objects[k]? = some (.class_ name methods) →
    ∀ n m, methods n = some m ↔ Γ.lineage.Nearest k n m
  bodies : ∀ k name methods, objects[k]? = some (.class_ name methods) → Γ.declaring ≠ some k →
    ∃ b, Γ.Fulfils k name b

structure Facts.Underway (Γ : Facts) (objects : List (Obj Routine)) (globals : Dict Val) (d : Lox.Underway) (k : Nat) :
    Prop where
  class_ : Γ.declaring = some k
  named : ∃ methods, objects[k]? = some (.class_ d.body.name methods)
  listed : d.body ∈ Γ.bodies
  made : ∃ made, d.body.methods = made ++ d.todo ∧ List.Forall₂ Γ.Gives made (Γ.lineage.own k).reverse
  global : ∀ name, d.global = some name → globals name = some (.object k)
  fresh : d.stage = .fresh → Γ.lineage.own k = []
  heir : d.stage = .heir ↔ (Γ.lineage.parent k).isSome
  idle : d.pending = false → Γ.pending = none
  pending : d.pending = true → ∃ m, Γ.pending = some m ∧ ClosureAt objects m ∧
    ((Γ.lineage.parent k).isSome → Γ.home m = some k)

theorem Facts.Underway.classAt {d : Lox.Underway} {k : Nat} (h : Γ.Underway objects globals d k) :
    ClassAt objects k :=
  ⟨_, h.named⟩

def Facts.Declares (Γ : Facts) (objects : List (Obj Routine)) (globals : Dict Val) : Option Lox.Underway → Prop
  | none => Γ.declaring = none ∧ Γ.pending = none
  | some d => ∃ k, Γ.Underway objects globals d k

theorem Facts.Underway.within {d e : Lox.Underway} {k : Nat} (h : Γ.Underway objects globals d k) (he : d.Within e) :
    Γ.Underway objects globals e k where
  class_ := h.class_
  named := he.body ▸ h.named
  listed := he.body ▸ h.listed
  made := he.body ▸ he.todo ▸ h.made
  global name hname := h.global name (he.global name hname)
  fresh hstage := by
    rcases he.stage with hs | ⟨-, hs⟩
    · exact h.fresh (hs ▸ hstage)
    · rw [hs] at hstage
      cases hstage
  heir := by
    rw [← h.heir]
    rcases he.stage with hs | ⟨hs, hs'⟩
    · rw [hs]
    · rw [hs, hs']
      decide
  idle hp := h.idle (he.pending ▸ hp)
  pending hp := h.pending (he.pending ▸ hp)

theorem Facts.Declares.within {d e : Option Lox.Underway} (h : Γ.Declares objects globals d)
    (he : Option.Rel Underway.Within d e) : Γ.Declares objects globals e := by
  cases he with
  | none => exact h
  | some he =>
    obtain ⟨k, hk⟩ := h
    exact ⟨k, hk.within he⟩

theorem Facts.Declares.same {Γ' : Facts} {d : Option Lox.Underway} (h : Γ.Declares objects globals d)
    (hdeclaring : Γ'.declaring = Γ.declaring) (hpending : Γ'.pending = Γ.pending)
    (hown : Γ'.lineage.own = Γ.lineage.own) (hparent : Γ'.lineage.parent = Γ.lineage.parent)
    (hbodies : Γ'.bodies = Γ.bodies) (hlisting : Γ'.listing = Γ.listing)
    (hhome : ∀ m, ClosureAt objects m → Γ'.home m = Γ.home m) : Γ'.Declares objects globals d := by
  cases d with
  | none => exact ⟨hdeclaring.trans h.1, hpending.trans h.2⟩
  | some d =>
    obtain ⟨k, hk⟩ := h
    have hgives : Γ'.Gives = Γ.Gives := by
      unfold Facts.Gives
      rw [hlisting]
    refine ⟨k, hdeclaring.trans hk.class_, hk.named, hbodies ▸ hk.listed, by rw [hgives, hown]; exact hk.made,
      hk.global, hown ▸ hk.fresh, hparent ▸ hk.heir,
      fun hp => hpending.trans (hk.idle hp), fun hp => ?_⟩
    obtain ⟨m, hm, hclosure, hhome'⟩ := hk.pending hp
    exact ⟨m, hpending.trans hm, hclosure, fun hs => (hhome m hclosure).trans (hhome' (hparent ▸ hs))⟩

theorem Facts.Declares.later {d : Option Lox.Underway} (h : Γ.Declares objects globals d)
    (hl : Obj.Later objects objects') : Γ.Declares objects' globals d := by
  cases d with
  | none => exact h
  | some d =>
    obtain ⟨k, hk⟩ := h
    obtain ⟨methods, hm⟩ := hk.named
    refine ⟨k, { hk with named := hl.classes k _ methods hm, pending := fun hp => ?_ }⟩
    obtain ⟨m, hm, hclosure, hhome⟩ := hk.pending hp
    exact ⟨m, hm, hl.closureAt hclosure, hhome⟩

end

structure Facts.Knows (Γ : Facts) (objects : List (Obj Routine)) (c : Nat) (p : Prototype) (a : Sheet) : Prop where
  closure : CodeAt objects c p
  certified : Certified (Γ.listing c) p a
  finished : Γ.unfinished ≠ some c

inductive Facts.Waiting (Γ : Facts) (objects : List (Obj Routine)) : List Activation → List Slot → Prop
  | nil : Waiting Γ objects [] []
  | cons {f : Activation} {rest : List Activation} {slots below : List Slot} {p : Prototype} {a : Sheet} :
      Γ.Knows objects f.closure p a → Admits (Sheet.shapeAt none a) f.ip ⟨{} :: slots, none⟩ →
      slots ≠ [] → (∀ s ∈ slots, s.Calm) → f.base = below.length → Γ.Waiting objects rest below →
      Waiting Γ objects (f :: rest) (slots ++ below)

structure Ideal.Typed (Γ : Facts) (i : Ideal) (c : Nat) (slots : List Slot) : Prop where
  values : List.Forall₂ (fun s v => Γ.Holds c s.content v) slots i.stack.reverse
  firsts : List.Forall₂ (fun f v => i.stack[f.base]? = some v ∧ slots.reverse[f.base]? = some ⟨.first, true⟩)
    i.frames Γ.firsts
  objects : ∀ (a : Nat) o, i.objects[a]? = some o → Γ.Vouches i.objects i.upvalues.length a o
  genuine : Γ.Genuine i.objects
  closed : ∀ (u : Nat) v, i.upvalues[u]? = some (.closed v) → Γ.mark u = .superclass → v = .object (Γ.superclass u)
  listed : ∀ n u : Nat, i.upvalues[u]? = some (.slot n) ↔ (n, u) ∈ i.openUpvalues
  descending : i.openUpvalues.Pairwise fun v w => w.1 < v.1
  held : ∀ n u : Nat, (n, u) ∈ i.openUpvalues → ∃ s, slots.reverse[n]? = some s ∧ s.held = true ∧
    s.content.mark = Γ.mark u ∧ (Γ.mark u = .superclass → i.stack[n]? = some (.object (Γ.superclass u)))

structure Ideal.Running (Γ : Facts) (i : Ideal) (f : Activation) (rest : List Activation) (p : Prototype) (a : Sheet)
    (s : Shape) (below : List Slot) : Prop where
  frames : i.frames = f :: rest
  waiting : Γ.Waiting i.objects rest below
  knows : Γ.Knows i.objects f.closure p a
  base : f.base = below.length
  place : f.ip ≤ p.code.length
  typed : i.Typed Γ f.closure (s.slots ++ below)
  declares : Γ.Declares i.objects i.globals s.known

/-- Before an instruction. -/
def Ideal.Sound (Γ : Facts) (i : Ideal) : Prop :=
  Γ.unfinished = none ∧ ∃ f rest p a s below, i.Running Γ f rest p a s below ∧ Admits (Sheet.shapeAt none a) f.ip s

end Lox

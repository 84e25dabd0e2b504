import Lox.Proofs.Source.Generate

namespace Lox

inductive Content where
  | any
  | own
  | closure (k : Nat)
  -- The class that another one inherits from, in a variable that no program assigns.
  | superclass
  | first
  | receiver
  | parent
deriving DecidableEq

namespace Content

def copy : Content → Content
  | own => own
  | _ => any

def mark : Content → Mark
  | superclass => .superclass
  | first => .first
  | _ => .plain

/-- What holds the first may be taken to hold the second. -/
def Within (c d : Content) : Prop :=
  c = d ∨ d = any ∧ c.mark = .plain

theorem Within.refl (c : Content) : c.Within c :=
  .inl rfl

theorem Within.trans {c d e : Content} (h : c.Within d) (h' : d.Within e) : c.Within e := by
  rcases h with rfl | ⟨rfl, hc⟩
  · exact h'
  · rcases h' with rfl | ⟨rfl, -⟩
    · exact .inr ⟨rfl, hc⟩
    · exact .inr ⟨rfl, hc⟩

theorem Within.mark {c d : Content} (h : c.Within d) : d.mark = c.mark := by
  rcases h with rfl | ⟨rfl, hc⟩
  · rfl
  · exact hc.symm

theorem mark_copy (c : Content) : c.copy.mark = .plain := by
  cases c <;> rfl

end Content

structure Slot where
  content : Content := .any
  held : Bool := false
deriving DecidableEq

namespace Slot

structure Within (a b : Slot) : Prop where
  content : a.content.Within b.content
  held : a.held = true → b.held = true

theorem Within.refl (a : Slot) : a.Within a :=
  ⟨.refl _, id⟩

theorem Within.trans {a b c : Slot} (h : a.Within b) (h' : b.Within c) : a.Within c :=
  ⟨h.content.trans h'.content, fun ha => h'.held (h.held ha)⟩

def Calm (a : Slot) : Prop :=
  a.content = .any ∨ a.content = .first

theorem ne_closure {a : Slot} (h : a.Calm ∨ a.content = .own) (i : Nat) : a.content ≠ .closure i := by
  rcases h with (h | h) | h <;> simp [h]

end Slot

inductive Stage where
  -- It has no methods yet, not even inherited ones.
  | fresh
  | root
  | heir
deriving DecidableEq

structure Underway where
  global : Option Bytes := none
  stage : Stage
  pending : Bool := false
  body : ClassBody
  todo : List (Lambda Stmt)

namespace Underway

structure Within (d e : Underway) : Prop where
  global : ∀ name, e.global = some name → d.global = some name
  stage : e.stage = d.stage ∨ d.stage = .fresh ∧ e.stage = .root
  pending : e.pending = d.pending
  body : e.body = d.body
  todo : e.todo = d.todo

theorem Within.refl (d : Underway) : d.Within d :=
  ⟨fun _ => id, .inl rfl, rfl, rfl, rfl⟩

theorem Within.trans {d e e' : Underway} (h : d.Within e) (h' : e.Within e') : d.Within e' where
  pending := h'.pending.trans h.pending
  body := h'.body.trans h.body
  todo := h'.todo.trans h.todo
  global name hn := h.global name (h'.global name hn)
  stage := by
    rcases h.stage with hs | ⟨hs, hs'⟩
    · rw [← hs]
      exact h'.stage
    · rcases h'.stage with ht | ⟨ht, -⟩
      · exact .inr ⟨hs, ht.trans hs'⟩
      · rw [hs'] at ht
        cases ht

end Underway

structure Shape where
  -- Newest first.
  slots : List Slot
  known : Option Underway := none

namespace Shape

structure Within (s t : Shape) : Prop where
  slots : List.Forall₂ Slot.Within s.slots t.slots
  known : Option.Rel Underway.Within s.known t.known

theorem known_refl : ∀ d : Option Underway, Option.Rel Underway.Within d d
  | none => .none
  | some d => .some (.refl d)

theorem Within.refl (s : Shape) : s.Within s :=
  ⟨List.forall₂_same.mpr fun a _ => .refl a, known_refl _⟩

theorem forall₂_trans {as bs cs : List Slot} (h : List.Forall₂ Slot.Within as bs)
    (h' : List.Forall₂ Slot.Within bs cs) : List.Forall₂ Slot.Within as cs := by
  induction h generalizing cs with
  | nil => exact h'
  | cons hab _ ih =>
    cases h' with
    | cons hbc h' => exact .cons (hab.trans hbc) (ih h')

theorem known_trans {d e e' : Option Underway} (h : Option.Rel Underway.Within d e)
    (h' : Option.Rel Underway.Within e e') : Option.Rel Underway.Within d e' := by
  cases h with
  | none => exact h'
  | some h =>
    cases h' with
    | some h' => exact .some (h.trans h')

theorem Within.trans {s t u : Shape} (h : s.Within t) (h' : t.Within u) : s.Within u :=
  ⟨forall₂_trans h.slots h'.slots, known_trans h.known h'.known⟩

theorem Within.height {s t : Shape} (h : s.Within t) : s.slots.length = t.slots.length :=
  h.slots.length_eq

end Shape

structure Signature where
  kind : FunctionKind
  constants : List Item
  marks : List Mark
  classes : List ClassBody

namespace Signature

def Names (γ : Signature) (k : Nat) (name : Bytes) : Prop :=
  γ.constants[k]? = some (.string name)

structure Provides (γ : Signature) (s : Shape) (o : Origin) (mark : Mark) : Prop where
  variable_ : if o.isLocal then ∃ a, s.slots.reverse[o.index]? = some a ∧ a.held = true ∧ a.content.mark = mark
    else γ.marks[o.index]? = some mark
  super : mark = .superclass → (o.isLocal = true ↔ ∃ d, s.known = some d ∧ d.stage = .heir)

end Signature

inductive Effect (γ : Signature) : Shape → Opcode → Operand → Shape → Prop
  | number {slots known k v} : γ.constants[k]? = some (.number v) →
      Effect γ ⟨slots, known⟩ .constant (.byte k) ⟨{} :: slots, known⟩
  | string {slots known k name} : γ.Names k name →
      Effect γ ⟨slots, known⟩ .constant (.byte k) ⟨{} :: slots, known⟩
  | literal {slots known op} : op ∈ [.nil, .true, .false] →
      Effect γ ⟨slots, known⟩ op .none ⟨{} :: slots, known⟩
  | pop {slots known c} : Effect γ ⟨⟨c, false⟩ :: slots, known⟩ .pop .none ⟨slots, known⟩
  | complete {slots d} : d.stage ≠ .fresh → d.pending = false → d.todo = [] →
      (d.stage = .heir ↔ d.body.superclass.isSome) → (∀ a ∈ slots, a.content ≠ .own) →
      Effect γ ⟨⟨.own, false⟩ :: slots, some d⟩ .pop .none ⟨slots, none⟩
  | closeUpvalue {slots known a} : slots ≠ [] →
      Effect γ ⟨a :: slots, known⟩ .closeUpvalue .none ⟨slots, known⟩
  | getLocal {slots known n a} : slots.reverse[n]? = some a →
      Effect γ ⟨slots, known⟩ .getLocal (.byte n) ⟨⟨a.content.copy, false⟩ :: slots, known⟩
  | receiver {slots known h} : slots.reverse[0]? = some ⟨.first, h⟩ →
      Effect γ ⟨slots, known⟩ .getLocal (.byte 0) ⟨⟨.receiver, false⟩ :: slots, known⟩
  | setLocal {slots n a h} : (a :: slots).reverse[n]? = some ⟨.any, h⟩ →
      Effect γ ⟨a :: slots, none⟩ .setLocal (.byte n) ⟨a :: slots, none⟩
  | getGlobal {slots known k name c} : γ.Names k name →
      (c = .any ∨ c = .own ∧ ∃ d, known = some d ∧ d.global = some name) →
      Effect γ ⟨slots, known⟩ .getGlobal (.byte k) ⟨⟨c, false⟩ :: slots, known⟩
  | defineGlobal {slots k name c} : γ.Names k name →
      Effect γ ⟨⟨c, false⟩ :: slots, none⟩ .defineGlobal (.byte k) ⟨slots, none⟩
  | defineClass {slots k name stage body todo} : γ.Names k name →
      Effect γ ⟨⟨.own, false⟩ :: slots, some { stage, body, todo }⟩ .defineGlobal (.byte k)
        ⟨slots, some { global := name, stage, body, todo }⟩
  | setGlobal {slots k name a} : γ.Names k name →
      Effect γ ⟨a :: slots, none⟩ .setGlobal (.byte k) ⟨a :: slots, none⟩
  | getUpvalue {slots known i c m} : γ.marks[i]? = some m → (c = .any ∨ c = .parent ∧ m = .superclass) →
      Effect γ ⟨slots, known⟩ .getUpvalue (.byte i) ⟨⟨c, false⟩ :: slots, known⟩
  | setUpvalue {slots i a} : γ.marks[i]? = some .plain → (∀ b ∈ a :: slots, b.Calm) →
      Effect γ ⟨a :: slots, none⟩ .setUpvalue (.byte i) ⟨a :: slots, none⟩
  | getProperty {slots k name c} : γ.Names k name →
      Effect γ ⟨⟨c, false⟩ :: slots, none⟩ .getProperty (.byte k) ⟨{} :: slots, none⟩
  | setProperty {slots k name c d} : γ.Names k name →
      Effect γ ⟨⟨c, false⟩ :: ⟨d, false⟩ :: slots, none⟩ .setProperty (.byte k) ⟨{} :: slots, none⟩
  | getSuper {slots k name c} : γ.Names k name →
      Effect γ ⟨⟨.parent, false⟩ :: ⟨c, false⟩ :: slots, none⟩ .getSuper (.byte k) ⟨{} :: slots, none⟩
  | unary {slots known op c} : op ∈ [.not, .negate] →
      Effect γ ⟨⟨c, false⟩ :: slots, known⟩ op .none ⟨{} :: slots, known⟩
  | binary {slots known op c d} : op ∈ [.equal, .greater, .less, .add, .subtract, .multiply, .divide] →
      Effect γ ⟨⟨c, false⟩ :: ⟨d, false⟩ :: slots, known⟩ op .none ⟨{} :: slots, known⟩
  | print {slots known c} : Effect γ ⟨⟨c, false⟩ :: slots, known⟩ .print .none ⟨slots, known⟩
  | call {slots n args} : args.length = n + 1 → (∀ a ∈ args, a.held = false) →
      (∀ a ∈ slots, a.Calm) →
      Effect γ ⟨args ++ slots, none⟩ .call (.byte n) ⟨{} :: slots, none⟩
  | invoke {slots k name n args} : γ.Names k name → args.length = n + 1 →
      (∀ a ∈ args, a.held = false) → (∀ a ∈ slots, a.Calm) →
      Effect γ ⟨args ++ slots, none⟩ .invoke (.pair k n) ⟨{} :: slots, none⟩
  | superInvoke {slots k name n args} : γ.Names k name → args.length = n + 1 →
      (∀ a ∈ args, a.held = false) → (∀ a ∈ slots, a.Calm) →
      Effect γ ⟨⟨.parent, false⟩ :: args ++ slots, none⟩ .superInvoke (.pair k n) ⟨{} :: slots, none⟩
  | closure {slots k f h} : γ.constants[k]? = some (.function f) →
      List.Forall₂ (γ.Provides ⟨⟨.any, h⟩ :: slots, none⟩) f.origins f.marks →
      Effect γ ⟨slots, none⟩ .closure (.closure k f.origins) ⟨⟨.any, h⟩ :: slots, none⟩
  | body {slots d k f} : γ.constants[k]? = some (.function f) → d.pending = false →
      List.Forall₂ (γ.Provides ⟨⟨.closure k, false⟩ :: slots, some d⟩) f.origins f.marks →
      Effect γ ⟨slots, some d⟩ .closure (.closure k f.origins)
          ⟨⟨.closure k, false⟩ :: slots, some { d with pending := true }⟩
  | class_ {slots k body} : γ.Names k body.name → body ∈ γ.classes → (∀ a ∈ slots, a.Calm) →
      Effect γ ⟨slots, none⟩ .class_ (.byte k)
        ⟨⟨.own, false⟩ :: slots, some { stage := .fresh, body, todo := body.methods }⟩
  | inherit {slots name c body todo} : (∀ a ∈ slots, a.Calm ∨ a.content = .own) →
      Effect γ ⟨⟨.own, false⟩ :: ⟨c, false⟩ :: slots, some { global := name, stage := .fresh, body, todo }⟩ .inherit
          .none
        ⟨⟨.superclass, false⟩ :: slots, some { global := name, stage := .heir, body, todo }⟩
  | method {slots k j f todo h} {d : Underway} {m : Lambda Stmt} : γ.Names k m.name →
      γ.constants[j]? = some (.function f) → f.Renders m → (m.name = ("init" : Bytes) → f.kind = .initializer) →
      d.stage ≠ .fresh → d.pending = false → d.todo = m :: todo → (∀ a ∈ slots, ∀ i, a.content ≠ .closure i) →
      Effect γ ⟨⟨.closure j, false⟩ :: ⟨.own, h⟩ :: slots, some { d with pending := true }⟩ .method (.byte k)
        ⟨⟨.own, h⟩ :: slots, some { d with todo }⟩

inductive Goes (γ : Signature) (s : Shape) (offset : Nat) : Line → List (Nat × Shape) → Prop
  | mark : Goes γ s offset (.mark s.slots.length) [(offset, s)]
  | effect {op operand t} : Effect γ s op operand t →
      Goes γ s offset (.instr op operand) [(offset + (1 + operand.size), t)]
  | jump {distance} : Goes γ s offset (.instr .jump (.short distance)) [(offset + 3 + distance, s)]
  | jumpIfFalse {distance} : s.slots ≠ [] →
      Goes γ s offset (.instr .jumpIfFalse (.short distance))
        [(offset + 3, s), (offset + 3 + distance, s)]
  | loop {distance} : distance ≤ offset + 3 →
      Goes γ s offset (.instr .loop (.short distance)) [(offset + 3 - distance, s)]
  | return_ {c a slots} : s = ⟨⟨c, false⟩ :: a :: slots, none⟩ → (γ.kind = .initializer → c = .receiver) →
      (γ.kind = .script → slots = []) → Goes γ s offset (.instr .return_ .none) []

abbrev Sheet := List (Shape × Line)

def Admits (at_ : Nat → Option Shape) (offset : Nat) (s : Shape) : Prop :=
  ∃ t, at_ offset = some t ∧ s.Within t

theorem Admits.within {at_ : Nat → Option Shape} {offset : Nat} {s t : Shape} (hs : s.Within t)
    (h : Admits at_ offset t) : Admits at_ offset s := by
  obtain ⟨u, hu, ht⟩ := h
  exact ⟨u, hu, hs.trans ht⟩

namespace Sheet

def lines (a : Sheet) : List Line :=
  a.map (·.2)

def size (a : Sheet) : Nat :=
  Code.size a.lines

def shapeAt (e : Option Shape) : Sheet → Nat → Option Shape
  | [], offset => if offset = 0 then e else none
  | (_, .mark _) :: a, offset => shapeAt e a offset
  | (s, .instr _ operand) :: a, offset =>
    if offset = 0 then some s
    else if offset < 1 + operand.size then none
    else shapeAt e a (offset - (1 + operand.size))

@[simp] theorem size_nil : size [] = 0 := rfl

@[simp] theorem size_cons (r : Shape × Line) (a : Sheet) : size (r :: a) = r.2.size + size a := rfl

@[simp] theorem size_append (a b : Sheet) : size (a ++ b) = size a + size b := by
  simp [size, lines]

@[simp] theorem lines_append (a b : Sheet) : lines (a ++ b) = lines a ++ lines b :=
  List.map_append

variable {γ : Signature} {a b : Sheet} {e e' : Option Shape} {s t : Shape}

@[simp] theorem shapeAt_size : shapeAt e a a.size = e := by
  induction a with
  | nil => rfl
  | cons r a ih =>
    obtain ⟨s, l⟩ := r
    cases l with
    | mark n =>
      rw [size_cons, show Line.size (.mark n) = 0 from rfl, Nat.zero_add]
      exact ih
    | instr op operand =>
      rw [size_cons, show Line.size (.instr op operand) = 1 + operand.size from rfl, shapeAt,
        if_neg (by omega), if_neg (by omega), Nat.add_sub_cancel_left]
      exact ih

theorem shapeAt_of_lt_size {offset : Nat} (h : offset < a.size) :
    shapeAt e a offset = shapeAt e' a offset := by
  induction a generalizing offset with
  | nil => cases h
  | cons r a ih =>
    obtain ⟨s, l⟩ := r
    cases l with
    | mark n =>
      rw [size_cons, show Line.size (.mark n) = 0 from rfl, Nat.zero_add] at h
      exact ih h
    | instr op operand =>
      rw [size_cons, show Line.size (.instr op operand) = 1 + operand.size from rfl] at h
      simp only [shapeAt]
      split
      · rfl
      · split
        · rfl
        · exact ih (by omega)

theorem shapeAt_append_left {offset : Nat} (h : offset ≤ a.size) :
    shapeAt e (a ++ b) offset = shapeAt (shapeAt e b 0) a offset := by
  induction a generalizing offset with
  | nil =>
    obtain rfl : offset = 0 := Nat.le_zero.mp h
    rfl
  | cons r a ih =>
    obtain ⟨s, l⟩ := r
    cases l with
    | mark n =>
      rw [size_cons, show Line.size (.mark n) = 0 from rfl, Nat.zero_add] at h
      exact ih h
    | instr op operand =>
      rw [size_cons, show Line.size (.instr op operand) = 1 + operand.size from rfl] at h
      simp only [List.cons_append, shapeAt]
      split
      · rfl
      · split
        · rfl
        · exact ih (by omega)

theorem shapeAt_append_right (offset : Nat) :
    shapeAt e (a ++ b) (a.size + offset) = shapeAt e b offset := by
  induction a with
  | nil =>
    rw [size_nil, Nat.zero_add]
    rfl
  | cons r a ih =>
    obtain ⟨s, l⟩ := r
    cases l with
    | mark n =>
      rw [size_cons, show Line.size (.mark n) = 0 from rfl, Nat.zero_add]
      exact ih
    | instr op operand =>
      rw [size_cons, show Line.size (.instr op operand) = 1 + operand.size from rfl, List.cons_append,
        shapeAt, if_neg (by omega), if_neg (by omega),
        show 1 + operand.size + size a + offset - (1 + operand.size) = size a + offset from by omega]
      exact ih

theorem shapeAt_of_size_lt {offset : Nat} (h : a.size < offset) : shapeAt e a offset = none := by
  obtain ⟨d, rfl⟩ : ∃ d, offset = a.size + (d + 1) := ⟨offset - a.size - 1, by omega⟩
  have := shapeAt_append_right (e := e) (a := a) (b := []) (d + 1)
  rw [List.append_nil] at this
  rw [this]
  rfl

theorem shapeAt_instr {offset : Nat} (h : shapeAt none a offset = some s) : ∃ before op operand after,
    a = before ++ (s, .instr op operand) :: after ∧ size before = offset := by
  induction a generalizing offset with
  | nil =>
    simp only [shapeAt] at h
    split at h <;> cases h
  | cons r a ih =>
    obtain ⟨t, l⟩ := r
    cases l with
    | mark n =>
      obtain ⟨before, op, operand, after, rfl, hsize⟩ := ih h
      exact ⟨(t, .mark n) :: before, op, operand, after, rfl, by
        rw [size_cons, hsize, show Line.size (.mark n) = 0 from rfl, Nat.zero_add]⟩
    | instr op operand =>
      simp only [shapeAt] at h
      split at h
      · rename_i hzero
        cases h
        exact ⟨[], op, operand, a, rfl, hzero.symm⟩
      · split at h
        · cases h
        · obtain ⟨before, op', operand', after, rfl, hsize⟩ := ih h
          refine ⟨(t, .instr op operand) :: before, op', operand', after, rfl, ?_⟩
          rw [size_cons, hsize, show Line.size (.instr op operand) = 1 + operand.size from rfl]
          omega

end Sheet

end Lox

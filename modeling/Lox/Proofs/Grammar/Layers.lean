import Lox.Compile.Grammar
import Lox.Proofs.Source.Generate

/-!
The grammar of expressions, layer by layer, and the code of what derives from it.

    expression = ((call ".")? IDENT "=" expression) | logic_or
    logic_or   = logic_and ("or" logic_and)*
    logic_and  = equality ("and" equality)*
    equality   = comparison (("!=" | "==") comparison)*
    comparison = term ((">" | ">=" | "<" | "<=") term)*
    term       = factor (("-" | "+") factor)*
    factor     = unary (("/" | "*") unary)*
    unary      = ("!" | "-") unary | call
    call       = primary ("(" (expression ("," expression)*)? ")" | "." IDENT)*
    primary    = "true" | "false" | "nil" | NUMBER | STRING | IDENT | "(" expression ")"
-/

namespace Lox

inductive Layer where
  | expression | or_ | and_ | equality | comparison | term | factor | unary | call | primary
deriving DecidableEq

namespace Layer

def depth : Layer → Nat
  | expression => 1
  | or_ => 2
  | and_ => 3
  | equality => 4
  | comparison => 5
  | term => 6
  | factor => 7
  | unary => 8
  | call => 9
  | primary => 10

instance : LE Layer := ⟨fun a b => a.depth ≤ b.depth⟩

instance : LT Layer := ⟨fun a b => a.depth < b.depth⟩

def joining? : TokenKind → Option Layer
  | .or_ => some or_
  | .and_ => some and_
  | .bangEqual | .equalEqual => some equality
  | .greater | .greaterEqual | .less | .lessEqual => some comparison
  | .minus | .plus => some term
  | .slash | .star => some factor
  | _ => none

def isRight : Layer → Bool
  | or_ | and_ => true
  | _ => false

def Joins (operator : TokenKind) (left right : Layer) : Prop :=
  match joining? operator with
  | none => False
  | some layer => if layer.isRight then layer < left ∧ layer ≤ right else layer ≤ left ∧ layer < right

end Layer

mutual

/-- A derivation of an expression, down to its tokens. A chain of operands is grouped to the left or to the
right, according to its layer. -/
inductive Phrase where
  | atom (t : Token)
  | group (opening : Token) (inner : Phrase) (closing : Token)
  | call (callee : Phrase) (opening : Token) (arguments : Arguments) (closing : Token)
  | get (object : Phrase) (dot name : Token)
  | unary (operator : Token) (operand : Phrase)
  | binary (left : Phrase) (operator : Token) (right : Phrase)
  | assign (name equal : Token) (value : Phrase)
  | set (object : Phrase) (dot name equal : Token) (value : Phrase)

inductive Arguments where
  | none
  | last (e : Phrase)
  | more (e : Phrase) (comma : Token) (rest : Arguments)

end

mutual

@[simp]
def Phrase.tokens : Phrase → List Token
  | .atom t => [t]
  | .group opening inner closing => opening :: (inner.tokens ++ [closing])
  | .call callee opening arguments closing => callee.tokens ++ opening :: (arguments.tokens ++ [closing])
  | .get object dot name => object.tokens ++ [dot, name]
  | .unary operator operand => operator :: operand.tokens
  | .binary left operator right => left.tokens ++ operator :: right.tokens
  | .assign name equal value => name :: equal :: value.tokens
  | .set object dot name equal value => object.tokens ++ dot :: name :: equal :: value.tokens

@[simp]
def Arguments.tokens : Arguments → List Token
  | .none => []
  | .last e => e.tokens
  | .more e comma rest => e.tokens ++ comma :: rest.tokens

end

def Phrase.layer : Phrase → Layer
  | .atom _ | .group .. => .primary
  | .call .. | .get .. => .call
  | .unary .. => .unary
  | .binary _ operator _ => (Layer.joining? operator.kind).getD .primary
  | .assign .. | .set .. => .expression

def Phrase.atoms : List TokenKind :=
  [.true_, .false_, .nil_, .number, .string, .identifier]

def Arguments.isNone : Arguments → Bool
  | .none => true
  | _ => false

mutual

/-- Every production is one of the grammar. -/
def Phrase.WellFormed : Phrase → Prop
  | .atom t => t.kind ∈ Phrase.atoms
  | .group opening inner closing =>
    opening.kind = .leftParen ∧ inner.WellFormed ∧ closing.kind = .rightParen
  | .call callee opening arguments closing =>
    .call ≤ callee.layer ∧ callee.WellFormed ∧ opening.kind = .leftParen ∧ arguments.WellFormed ∧
      closing.kind = .rightParen
  | .get object dot name =>
    .call ≤ object.layer ∧ object.WellFormed ∧ dot.kind = .dot ∧ name.kind = .identifier
  | .unary operator operand =>
    (operator.kind = .bang ∨ operator.kind = .minus) ∧ .unary ≤ operand.layer ∧ operand.WellFormed
  | .binary left operator right =>
    Layer.Joins operator.kind left.layer right.layer ∧ left.WellFormed ∧ right.WellFormed
  | .assign name equal value => name.kind = .identifier ∧ equal.kind = .equal ∧ value.WellFormed
  | .set object dot name equal value =>
    .call ≤ object.layer ∧ object.WellFormed ∧ dot.kind = .dot ∧ name.kind = .identifier ∧
      equal.kind = .equal ∧ value.WellFormed

def Arguments.WellFormed : Arguments → Prop
  | .none => True
  | .last e => e.WellFormed
  | .more e comma rest => e.WellFormed ∧ comma.kind = .comma ∧ rest.isNone = false ∧ rest.WellFormed

end

/-- The tokens derive from the grammar, by the given derivation. -/
def Phrase.Derives (φ : Phrase) (tokens : List Token) : Prop :=
  φ.WellFormed ∧ φ.tokens = tokens

namespace Phrase

def atomItems (t : Token) : List Item :=
  match t.kind with
  | .number => [.number (.number (Number.ofLiteral t.lexeme))]
  | .string => [.string (t.lexeme.drop 1).dropLast]
  | .identifier => [.string t.lexeme]
  | _ => []

def atomCode (t : Token) (k : Nat) : Line :=
  match t.kind with
  | .number | .string => .instr .constant (.byte k)
  | .identifier => .instr .getGlobal (.byte k)
  | .true_ => .instr .true .none
  | .false_ => .instr .false .none
  | _ => .instr .nil .none

def joined (operator : TokenKind) (left right : List Line) : List Line :=
  match operator with
  | .and_ => left ++ [.instr .jumpIfFalse (.short (1 + Code.size right)), .instr .pop .none] ++ right
  | .or_ => left ++ [.instr .jumpIfFalse (.short 3), .instr .jump (.short (1 + Code.size right)),
      .instr .pop .none] ++ right
  | k => left ++ right ++ ((BinaryOp.ofToken? k).elim [] BinaryOp.code).map (.instr · .none)

end Phrase

def Arguments.count : Arguments → Nat
  | .none => 0
  | .last _ => 1
  | .more _ _ rest => rest.count + 1

mutual

def Phrase.items : Phrase → List Item
  | .atom t => Phrase.atomItems t
  | .group _ inner _ => inner.items
  | .call callee _ arguments _ => callee.items ++ arguments.items
  | .get object _ name => object.items ++ [.string name.lexeme]
  | .unary _ operand => operand.items
  | .binary left _ right => left.items ++ right.items
  | .assign name _ value => .string name.lexeme :: value.items
  | .set object _ name _ value => object.items ++ .string name.lexeme :: value.items

def Arguments.items : Arguments → List Item
  | .none => []
  | .last e => e.items
  | .more e _ rest => e.items ++ rest.items

end

mutual

def Phrase.code (k : Nat) : Phrase → List Line
  | .atom t => [Phrase.atomCode t k]
  | .group _ inner _ => inner.code k
  | .call (.get object _ _) _ arguments _ =>
    object.code k ++ arguments.code (k + object.items.length + 1) ++
      [.instr .invoke (.pair (k + object.items.length) arguments.count)]
  | .call callee _ arguments _ =>
    callee.code k ++ arguments.code (k + callee.items.length) ++ [.instr .call (.byte arguments.count)]
  | .get object _ _ => object.code k ++ [.instr .getProperty (.byte (k + object.items.length))]
  | .unary operator operand =>
    operand.code k ++ [.instr (if operator.kind = .bang then .not else .negate) .none]
  | .binary left operator right =>
    Phrase.joined operator.kind (left.code k) (right.code (k + left.items.length))
  | .assign _ _ value => value.code (k + 1) ++ [.instr .setGlobal (.byte k)]
  | .set object _ _ _ value =>
    object.code k ++ value.code (k + object.items.length + 1) ++
      [.instr .setProperty (.byte (k + object.items.length))]

def Arguments.code (k : Nat) : Arguments → List Line
  | .none => []
  | .last e => e.code k
  | .more e _ rest => e.code k ++ rest.code (k + e.items.length)

end

def Token.InRange (t : Token) : Prop :=
  t.kind = .number → Number.isInfinite (Number.ofLiteral t.lexeme).toBits = false

namespace Phrase

def InRange (φ : Phrase) : Prop :=
  ∀ t ∈ φ.tokens, t.InRange

def Fits (φ : Phrase) (k : Nat) : Prop :=
  φ.InRange ∧ Code.Fits (φ.code k)

def WithinLimits (φ : Phrase) : Prop :=
  φ.Fits 0

def script (φ : Phrase) : Listing Item :=
  ⟨.script, 0, none, [], [], .mark 1 :: φ.code 0 ++ [.instr .print .none] ++ PlanM.returnCode .script, φ.items,
    []⟩

end Phrase

end Lox

namespace Lox

namespace Layer

def onRight (l : Layer) : Nat :=
  if l.isRight then l.depth else l.depth + 1

theorem of_joining {k : TokenKind} {l : Layer} (h : joining? k = some l) : Precedence.of k = l.depth := by
  cases k <;> cases h <;> rfl

theorem range_joining {k : TokenKind} {l : Layer} (h : joining? k = some l) :
    2 ≤ l.depth ∧ l.depth ≤ 7 ∧ (l.isRight = true ↔ l.depth ≤ 3) := by
  cases k <;> cases h <;> decide

theorem Joins.cases {k : TokenKind} {left right : Layer} (h : Joins k left right) :
    ∃ l, joining? k = some l ∧ l.onRight ≤ right.depth ∧
      (l.isRight = true → l.depth < left.depth) ∧ l.depth ≤ left.depth := by
  unfold Joins at h
  split at h
  · exact h.elim
  · rename_i l hl
    refine ⟨l, hl, ?_⟩
    unfold onRight
    split at h
    · rename_i hright
      rw [if_pos hright]
      exact ⟨h.2, fun _ => h.1, Nat.le_of_lt h.1⟩
    · rename_i hright
      rw [if_neg hright]
      exact ⟨h.2, fun hr => absurd hr hright, h.1⟩

theorem joins_of {k : TokenKind} {l left right : Layer} (hl : joining? k = some l)
    (hleft : if l.isRight then l < left else l ≤ left) (hright : l.onRight ≤ right.depth) : Joins k left right := by
  unfold onRight at hright
  rw [Joins, hl]
  dsimp only
  split
  · rename_i hr
    rw [if_pos hr] at hleft hright
    exact ⟨hleft, hright⟩
  · rename_i hr
    rw [if_neg hr] at hleft hright
    exact ⟨hleft, hright⟩

theorem operator_cases {k : TokenKind} (h : 0 < Precedence.of k) :
    k = .leftParen ∨ k = .dot ∨ ∃ l, joining? k = some l := by
  cases k with
  | leftParen => exact .inl rfl
  | dot => exact .inr (.inl rfl)
  | minus | plus | slash | star | bangEqual | equalEqual | greater | greaterEqual | less | lessEqual | and_ | or_ =>
    exact .inr (.inr ⟨_, rfl⟩)
  | _ => cases h

end Layer

namespace Phrase

def reach : Phrase → Nat
  | .atom _ | .group .. | .call .. | .get .. => 10
  | .unary .. => 8
  | .binary _ operator _ => ((Layer.joining? operator.kind).map Layer.onRight).getD 10
  | .assign .. | .set .. => 1

def isGet : Phrase → Bool
  | .get .. => true
  | _ => false

def Follows (φ : Phrase) (k : TokenKind) : Prop :=
  Precedence.of k < φ.reach ∧ (φ.isGet = true → k ≠ .leftParen)

theorem layer_binary {left right : Phrase} {operator : Token} {l : Layer}
    (h : Layer.joining? operator.kind = some l) : (binary left operator right).layer = l := by
  rw [layer, h]
  rfl

theorem reach_binary {left right : Phrase} {operator : Token} {l : Layer}
    (h : Layer.joining? operator.kind = some l) : (binary left operator right).reach = l.onRight := by
  rw [reach, h]
  rfl

theorem follows_of_lt {φ : Phrase} {q : Nat} {k : TokenKind} (hq : q ≤ φ.layer.depth)
    (hk : Precedence.of k < q) : φ.Follows k := by
  have hless : Precedence.of k < φ.layer.depth := Nat.lt_of_lt_of_le hk hq
  have hreach : φ.layer.depth ≤ φ.reach := by
    cases φ with
    | binary left operator right =>
      cases h : Layer.joining? operator.kind with
      | none => simp [layer, reach, h, Layer.depth]
      | some l =>
        rw [layer_binary h, reach_binary h]
        unfold Layer.onRight
        split <;> omega
    | _ => simp [layer, reach, Layer.depth]
  refine ⟨Nat.lt_of_lt_of_le hless hreach, fun hget hparen => ?_⟩
  cases φ <;> cases hget
  rw [hparen] at hless
  exact Nat.lt_irrefl 9 hless

theorem follows_of_joins {φ : Phrase} {k : TokenKind} {right : Layer} (h : Layer.Joins k φ.layer right) :
    φ.Follows k := by
  obtain ⟨l, hl, -, hstrict, hle⟩ := h.cases
  obtain ⟨htwo, hseven, hright⟩ := Layer.range_joining hl
  by_cases hr : l.isRight = true
  · exact follows_of_lt (hstrict hr) (by rw [Layer.of_joining hl]; omega)
  · have hdeep : 3 < l.depth := Nat.lt_of_not_le fun hle => hr (hright.mpr hle)
    have hparen : k ≠ .leftParen := by
      rintro rfl
      cases hl
    refine ⟨?_, fun _ => hparen⟩
    rw [Layer.of_joining hl]
    cases φ with
    | binary left operator r =>
      cases hm : Layer.joining? operator.kind with
      | none =>
        simp only [reach, hm, Option.map_none, Option.getD_none]
        omega
      | some m =>
        rw [layer_binary hm] at hle
        rw [reach_binary hm]
        have hmright : ¬m.isRight = true := fun hm' => by
          have := (Layer.range_joining hm).2.2.mp hm'
          omega
        rw [Layer.onRight, if_neg hmright]
        omega
    | unary => exact Nat.lt_succ_of_le hseven
    | assign | set => exact absurd (Nat.lt_of_lt_of_le hdeep hle : 3 < 1) (by decide)
    | _ => exact Nat.lt_of_le_of_lt hseven (by decide : 7 < 10)

theorem of_lt_ten (k : TokenKind) : Precedence.of k < 10 := by
  cases k <;> decide

theorem follows_of_call {φ : Phrase} {k : TokenKind} (h : .call ≤ φ.layer)
    (hk : φ.isGet = true → k ≠ .leftParen) : φ.Follows k := by
  refine ⟨?_, hk⟩
  have hnine : 9 ≤ φ.layer.depth := h
  have hof := of_lt_ten k
  cases φ with
  | binary left operator r =>
    cases hm : Layer.joining? operator.kind with
    | none => simpa only [reach, hm, Option.map_none, Option.getD_none] using hof
    | some m =>
      obtain ⟨-, hseven, -⟩ := Layer.range_joining hm
      rw [layer_binary hm] at hnine
      omega
  | unary | assign | set => exact absurd hnine (by simp [layer, Layer.depth])
  | _ => exact hof

theorem Follows.left {φ : Phrase} {k : TokenKind} {l : Layer} (h : φ.Follows k)
    (hl : Layer.joining? k = some l) : if l.isRight then l < φ.layer else l ≤ φ.layer := by
  obtain ⟨htwo, hseven, hright⟩ := Layer.range_joining hl
  have hreach := h.1
  rw [Layer.of_joining hl] at hreach
  have hless (hless : l.depth < φ.layer.depth) : if l.isRight then l < φ.layer else l ≤ φ.layer := by
    split
    · exact hless
    · exact Nat.le_of_lt hless
  cases φ with
  | assign | set => exact absurd (Nat.lt_of_le_of_lt htwo hreach : 2 < 1) (by decide)
  | binary left operator right =>
    cases hm : Layer.joining? operator.kind with
    | none =>
      refine hless ?_
      simp only [layer, hm, Option.getD_none]
      exact Nat.lt_of_le_of_lt hseven (by decide)
    | some m =>
      rw [layer_binary hm] at hless ⊢
      rw [reach_binary hm, Layer.onRight] at hreach
      obtain ⟨-, -, hmright⟩ := Layer.range_joining hm
      split at hreach
      · exact hless hreach
      · rename_i hm'
        have hdeep : 3 < m.depth := Nat.lt_of_not_le fun hle => hm' (hmright.mpr hle)
        split
        · rename_i hr
          exact Nat.lt_of_le_of_lt (hright.mp hr) hdeep
        · exact Nat.le_of_lt_succ hreach
  | unary => exact hless (Nat.lt_succ_of_le hseven)
  | atom | group => exact hless (Nat.lt_of_le_of_lt hseven (by decide : 7 < 10))
  | call | get => exact hless (Nat.lt_of_le_of_lt hseven (by decide : 7 < 9))

theorem Follows.callee {φ : Phrase} {k : TokenKind} (h : φ.Follows k) (hk : Precedence.of k = 9) :
    .call ≤ φ.layer := by
  have hreach := h.1
  rw [hk] at hreach
  cases φ with
  | assign | set | unary => exact absurd hreach (by simp [reach])
  | binary left operator right =>
    cases hm : Layer.joining? operator.kind with
    | none =>
      show 9 ≤ (layer _).depth
      simp only [layer, hm, Option.getD_none]
      decide
    | some m =>
      obtain ⟨-, hseven, -⟩ := Layer.range_joining hm
      rw [reach_binary hm, Layer.onRight] at hreach
      split at hreach <;> omega
  | atom | group => exact (by decide : 9 ≤ 10)
  | call | get => exact Nat.le_refl 9

end Phrase

end Lox

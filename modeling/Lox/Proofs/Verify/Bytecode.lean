import Lox.Proofs.Verify.Statements

namespace Lox

def Origin.read? : Nat → List UInt8 → Option (List Origin)
  | 0, _ => some []
  | n + 1, flag :: index :: rest =>
    if flag = 0 ∨ flag = 1 then (⟨flag = 1, index.toNat⟩ :: ·) <$> read? n rest else none
  | _ + 1, _ => none

namespace Opcode

def takes : Opcode → Operand → Nat
  | pop, _ | print, _ | defineGlobal, _ | closeUpvalue, _ | setLocal, _ | setGlobal, _ | setUpvalue, _
  | getProperty, _ | not, _ | negate, _ | jumpIfFalse, _ | return_, _ => 1
  | setProperty, _ | getSuper, _ | equal, _ | greater, _ | less, _ | add, _ | subtract, _ | multiply, _
  | divide, _ | inherit, _ | method, _ => 2
  | call, .byte n => n + 1
  | invoke, .pair _ n => n + 1
  | superInvoke, .pair _ n => n + 2
  | _, _ => 0

def leaves : Opcode → Nat
  | pop | print | defineGlobal | closeUpvalue | jump | loop | return_ => 0
  | _ => 1

def next : Opcode → Operand → Nat → List Int
  | jump, .short distance, offset => [offset + 3 + distance]
  | jumpIfFalse, .short distance, offset => [offset + 3, offset + 3 + distance]
  | loop, .short distance, offset => [offset + 3 - distance]
  | return_, _, _ => []
  | _, operand, offset => [offset + (1 + operand.size)]

def isNamed : Opcode → Bool
  | getGlobal | defineGlobal | setGlobal | getProperty | setProperty | getSuper | class_ | method
  | invoke | superInvoke => .true
  | _ => .false

end Opcode

namespace Operand

def constant? : Operand → Option Nat
  | byte n => some n
  | pair n _ => some n
  | closure n _ => some n
  | _ => Option.none

def read? (constants : List Literal) (op : Opcode) (bytes : List UInt8) : Option Operand :=
  match op.operands, bytes with
  | .none, _ => some .none
  | .constant, b :: _ => some (.byte b.toNat)
  | .byte, b :: _ => some (.byte b.toNat)
  | .jump _, hi :: lo :: _ => some (.short (hi.toNat * 256 + lo.toNat))
  | .invoke, b :: n :: _ => some (.pair b.toNat n.toNat)
  | .closure, b :: rest =>
    match constants[b.toNat]? with
    | some (.function q) => .closure b.toNat <$> Origin.read? q.captures rest
    | _ => Option.none
  | _, _ => Option.none

end Operand

namespace Template

def instrAt (p : Prototype) (offset : Nat) : Option (Opcode × Operand) :=
  match p.code.drop offset with
  | [] => none
  | b :: rest => do
    let op ← Opcode.ofByte? b
    return (op, ← Operand.read? p.constants op rest)

inductive Starts (p : Prototype) : Nat → Prop
  | first : Starts p 0
  | next {offset : Nat} {op : Opcode} {operand : Operand} : Starts p offset →
      p.instrAt offset = some (op, operand) → Starts p (offset + (1 + operand.size))

inductive Reaches (p : Prototype) : Nat → Nat → Prop
  | entry : Reaches p 0 (p.arity + 1)
  | next {offset target height : Nat} {op : Opcode} {operand : Operand} : Reaches p offset height →
      p.instrAt offset = some (op, operand) → (target : Int) ∈ op.next operand offset →
      Reaches p target (height - op.takes operand + op.leaves)

structure Names (p : Prototype) (op : Opcode) (operand : Operand) : Prop where
  constant : op = .constant → ∃ k, operand = .byte k ∧
    ((∃ v, p.constants[k]? = some (.number v)) ∨ ∃ chars, p.constants[k]? = some (.string chars))
  name : op.isNamed = true → ∃ k chars, operand.constant? = some k ∧ p.constants[k]? = some (.string chars)
  captured : op = .getUpvalue ∨ op = .setUpvalue → ∃ i, operand = .byte i ∧ i < p.captures
  closure : op = .closure → ∃ k origins q, operand = .closure k origins ∧
    p.constants[k]? = some (.function q) ∧ origins.length = q.captures ∧
    ∀ o ∈ origins, o.isLocal = false → o.index < p.captures

structure Has (height : Nat) (op : Opcode) (operand : Operand) : Prop where
  enough : op.takes operand ≤ height
  slot : op = .getLocal ∨ op = .setLocal → ∃ n, operand = .byte n ∧ n < height
  closure : op = .closure → ∀ k origins, operand = .closure k origins →
    ∀ o ∈ origins, o.isLocal = true → o.index < height + 1

end Template

/-- A function with the listing of its instructions: its code is that of the listing and fits together. -/
structure WellFormed (f : Listing Item) (p : Prototype) : Prop where
  arity : p.arity = f.arity
  captures : p.captures = f.origins.length
  -- Decoding ends exactly at the end of the code.
  decodes : p.Starts p.code.length
  instructions : ∀ offset, p.Starts offset → offset < p.code.length →
    ∃ op operand, p.instrAt offset = some (op, operand)
  -- No operand is a truncation.
  exact : ∀ before op operand after, f.code = before ++ .instr op operand :: after →
    p.instrAt (Code.size before) = some (op, operand)
  -- Control goes from instructions to instructions and never runs off the end.
  targets : ∀ offset op operand, p.Starts offset → p.instrAt offset = some (op, operand) →
    ∀ target ∈ op.next operand offset, ∃ n : Nat, target = n ∧ p.Starts n ∧ n < p.code.length
  names : ∀ offset op operand, p.Starts offset → p.instrAt offset = some (op, operand) → p.Names op operand
  runs : ∀ offset height, p.Reaches offset height →
    ∃ op operand, p.instrAt offset = some (op, operand) ∧ Template.Has height op operand
  -- The height is the same on every way to an instruction.
  heights : ∀ offset height height', p.Reaches offset height → p.Reaches offset height' → height = height'
  -- At the start of a declaration or statement the height is the number of variables in scope.
  statements : ∀ before locals after, f.code = before ++ .mark locals :: after →
    ∀ height, p.Reaches (Code.size before) height → height = locals

/-- The functions in a function, outermost first, each with its listing. -/
inductive Listing.Part (f : Listing Item) (p : Prototype) : Listing Item → Prototype → Prop
  | self : Part f p f p
  | constant {g g' : Listing Item} {q q' : Prototype} {k : Nat} : Part f p g q →
      g.constants[k]? = some (.function g') → q.constants[k]? = some (.function q') → Part f p g' q'

namespace Operand

def Suits : Operand → Opcode → Prop
  | none, op => op.operands = .none
  | byte _, op => op.operands = .constant ∨ op.operands = .byte
  | short _, op => ∃ backward, op.operands = .jump backward
  | pair _ _, op => op.operands = .invoke
  | closure _ _, op => op.operands = .closure

end Operand

theorem toNat_toUInt8 {n : Nat} (h : n < 256) : n.toUInt8.toNat = n := by
  simpa using h

theorem Origin.read?_bytes (origins : List Origin) (rest : List UInt8) (h : ∀ o ∈ origins, o.index < 256) :
    Origin.read? origins.length ((origins.flatMap fun o : Origin =>
      [if o.isLocal then (1 : UInt8) else 0, o.index.toUInt8]) ++ rest) = some origins := by
  induction origins with
  | nil => rfl
  | cons o origins ih =>
    obtain ⟨isLocal, index⟩ := o
    rw [List.flatMap_cons, List.append_assoc]
    simp only [List.cons_append, List.nil_append, List.length_cons, Origin.read?]
    rw [ih fun o ho => h o (.tail _ ho), toNat_toUInt8 (h _ (.head _))]
    cases isLocal <;> rfl

theorem Operand.read?_bytes {constants : List Literal} {op : Opcode} {operand : Operand}
    (hfits : operand.Fits) (hsuits : operand.Suits op)
    (hclosure : ∀ k origins, operand = .closure k origins →
      ∃ q, constants[k]? = some (.function q) ∧ q.captures = origins.length) (rest : List UInt8) :
    Operand.read? constants op (operand.bytes ++ rest) = some operand := by
  cases operand with
  | none =>
    have hop : op.operands = .none := hsuits
    unfold Operand.read?
    rw [hop]
  | byte n =>
    have hn : n.toUInt8.toNat = n := toNat_toUInt8 hfits
    rcases hsuits with hop | hop <;>
    · unfold Operand.read?
      rw [hop]
      simp only [Operand.bytes, List.cons_append, hn]
  | short n =>
    obtain ⟨backward, hop⟩ := hsuits
    have hfits : n < 65536 := hfits
    have hn : (n / 256).toUInt8.toNat * 256 + n.toUInt8.toNat = n := by
      rw [toNat_toUInt8 (by omega)]
      simp
      omega
    unfold Operand.read?
    rw [hop]
    simp only [Operand.bytes, List.cons_append, hn]
  | pair index count =>
    have hop : op.operands = .invoke := hsuits
    unfold Operand.read?
    rw [hop]
    simp only [Operand.bytes, List.cons_append, toNat_toUInt8 hfits.1, toNat_toUInt8 hfits.2]
  | closure k origins =>
    have hop : op.operands = .closure := hsuits
    obtain ⟨q, hq, hcaptures⟩ := hclosure k origins rfl
    unfold Operand.read?
    rw [hop]
    simp only [Operand.bytes, List.cons_append, toNat_toUInt8 hfits.1, hq, hcaptures,
      Origin.read?_bytes origins rest hfits.2]
    rfl

theorem Effect.suits {γ : Signature} {s t : Shape} {op : Opcode} {operand : Operand}
    (h : Effect γ s op operand t) : operand.Suits op := by
  cases h with
  | literal hop => rcases hop with _ | ⟨_, _ | ⟨_, _ | ⟨_, hop⟩⟩⟩ <;> first | rfl | cases hop
  | unary hop => rcases hop with _ | ⟨_, _ | ⟨_, hop⟩⟩ <;> first | rfl | cases hop
  | binary hop =>
    simp only [List.mem_cons, List.not_mem_nil, or_false] at hop
    rcases hop with rfl | rfl | rfl | rfl | rfl | rfl | rfl <;> rfl
  | _ => first | rfl | exact .inl rfl | exact .inr rfl

theorem Effect.height {γ : Signature} {s t : Shape} {op : Opcode} {operand : Operand}
    (h : Effect γ s op operand t) : op.takes operand ≤ s.slots.length ∧
      t.slots.length = s.slots.length - op.takes operand + op.leaves := by
  cases h with
  | literal hop =>
    simp only [List.mem_cons, List.not_mem_nil, or_false] at hop
    rcases hop with rfl | rfl | rfl <;> simp [Opcode.takes, Opcode.leaves]
  | unary hop =>
    simp only [List.mem_cons, List.not_mem_nil, or_false] at hop
    rcases hop with rfl | rfl <;> simp [Opcode.takes, Opcode.leaves]
  | binary hop =>
    simp only [List.mem_cons, List.not_mem_nil, or_false] at hop
    rcases hop with rfl | rfl | rfl | rfl | rfl | rfl | rfl <;> simp [Opcode.takes, Opcode.leaves]
  | call hlength => simp [Opcode.takes, Opcode.leaves, hlength]
  | invoke _ hlength => simp [Opcode.takes, Opcode.leaves, hlength]
  | superInvoke _ hlength => simp [Opcode.takes, Opcode.leaves, hlength]
  | _ => simp [Opcode.takes, Opcode.leaves]

theorem Effect.next {γ : Signature} {s t : Shape} {op : Opcode} {operand : Operand}
    (h : Effect γ s op operand t) (offset : Nat) :
    op.next operand offset = [((offset + (1 + operand.size) : Nat) : Int)] := by
  cases h with
  | literal hop =>
    simp only [List.mem_cons, List.not_mem_nil, or_false] at hop
    rcases hop with rfl | rfl | rfl <;> rfl
  | unary hop =>
    simp only [List.mem_cons, List.not_mem_nil, or_false] at hop
    rcases hop with rfl | rfl <;> rfl
  | binary hop =>
    simp only [List.mem_cons, List.not_mem_nil, or_false] at hop
    rcases hop with rfl | rfl | rfl | rfl | rfl | rfl | rfl <;> rfl
  | _ => rfl

theorem Goes.instr {γ : Signature} {s : Shape} {offset : Nat} {op : Opcode} {operand : Operand}
    {next : List (Nat × Shape)} (h : Goes γ s offset (.instr op operand) next) :
    operand.Suits op ∧ op.takes operand ≤ s.slots.length ∧ op.next operand offset = next.map (fun r => (r.1 : Int)) ∧
      ∀ r ∈ next, r.2.slots.length = s.slots.length - op.takes operand + op.leaves := by
  cases h with
  | effect he =>
    refine ⟨he.suits, he.height.1, he.next offset, fun r hr => ?_⟩
    rw [List.mem_singleton.mp hr]
    exact he.height.2
  | jump =>
    refine ⟨⟨_, rfl⟩, Nat.zero_le _, rfl, fun r hr => ?_⟩
    rw [List.mem_singleton.mp hr]
    rfl
  | jumpIfFalse hs =>
    refine ⟨⟨_, rfl⟩, List.length_pos_of_ne_nil hs, rfl, fun r hr => ?_⟩
    have := List.length_pos_of_ne_nil hs
    rcases List.mem_cons.mp hr with rfl | hr
    · simp only [Opcode.takes, Opcode.leaves]
      omega
    · rw [List.mem_singleton.mp hr]
      simp only [Opcode.takes, Opcode.leaves]
      omega
  | loop hd =>
    refine ⟨⟨_, rfl⟩, Nat.zero_le _, ?_, fun r hr => ?_⟩
    · rw [Opcode.next, List.map_singleton, Int.ofNat_sub hd]
      rfl
    rw [List.mem_singleton.mp hr]
    rfl
  | return_ hs =>
    refine ⟨rfl, ?_, rfl, nofun⟩
    rw [hs]
    exact Nat.succ_pos _

end Lox

import Lox.Proofs.Grammar.Layers
import Lox.Proofs.Source.Parse
import Lox.Proofs.Source.Plans

namespace Lox

namespace Reader

open Lox.Parser (peek next check expect)

variable (expression : Nat → Parser Phrase) (n : Nat)

def name (canAssign : Bool) (t : Token) : Parser Phrase := do
  if ← pure canAssign <&&> check .equal then
    return .assign t (← next) (← expression Precedence.assignment)
  else return .atom t

def argumentsFrom : Nat → Parser Arguments
  | 0 => failure
  | fuel + 1 => do
    let e ← expression Precedence.assignment
    if ← check .comma then return .more e (← next) (← argumentsFrom fuel) else return .last e

def call (callee : Phrase) (opening : Token) : Parser Phrase := do
  let arguments ← if ← check .rightParen then pure .none else argumentsFrom expression n
  return .call callee opening arguments (← expect .rightParen)

def property (canAssign : Bool) (object : Phrase) (dot name : Token) : Parser Phrase := do
  if ← pure canAssign <&&> check .equal then
    return .set object dot name (← next) (← expression Precedence.assignment)
  else if ← check .leftParen then call expression n (.get object dot name) (← next)
  else return .get object dot name

def access (canAssign : Bool) (object : Phrase) (dot : Token) : Parser Phrase := do
  property expression n canAssign object dot (← expect .identifier)

def operand (canAssign : Bool) (t : Token) : Parser Phrase :=
  match t.kind with
  | .leftParen => do
    let inner ← expression Precedence.assignment
    return .group t inner (← expect .rightParen)
  | .minus | .bang => do return .unary t (← expression Precedence.unary)
  | .identifier => name expression canAssign t
  | .string | .number | .false_ | .nil_ | .true_ => return .atom t
  | _ => failure

def operation (canAssign : Bool) (left : Phrase) (t : Token) : Parser Phrase :=
  match t.kind with
  | .leftParen => call expression n left t
  | .dot => access expression n canAssign left t
  | k =>
    match Layer.joining? k with
    | some layer => do return .binary left t (← expression layer.onRight)
    | none => failure

theorem operation_of_joining {canAssign : Bool} {left : Phrase} {t : Token} {layer : Layer}
    (h : Layer.joining? t.kind = some layer) : operation expression n canAssign left t =
      (do return .binary left t (← expression layer.onRight)) := by
  unfold operation
  generalize t.kind = k at h
  cases k <;> cases h <;> rfl

def operations (precedence : Nat) : Nat → Phrase → Parser Phrase
  | 0, _ => failure
  | fuel + 1, left => do
    if precedence ≤ Precedence.of (← peek).kind then
      let t ← next
      operations precedence fuel (← operation expression n (precedence ≤ Precedence.assignment) left t)
    else return left

def chain (precedence fuel : Nat) : Parser Phrase := do
  let t ← next
  operations expression n precedence fuel (← operand expression (precedence ≤ Precedence.assignment) t)

def parsePrecedence (precedence : Nat) : Parser Phrase := do
  let φ ← chain expression n precedence n
  if ← pure (decide (precedence ≤ Precedence.assignment)) <&&> check .equal then failure else return φ

def upTo : Nat → Nat → Parser Phrase
  | 0, _ => failure
  | n + 1, precedence => parsePrecedence (upTo n) n precedence

end Reader

namespace Parser

theorem next_cons (t : Token) {ts : List Token} (h : ts ≠ []) : next (t :: ts) = some (t, ts) := by
  cases ts with
  | nil => exact absurd rfl h
  | cons u rest => rfl

theorem expect_cons {k : TokenKind} {t : Token} {ts : List Token} (hk : t.kind = k) (h : ts ≠ []) :
    expect k (t :: ts) = some (t, ts) := by
  have hcheck : check k (t :: ts) = some (decide (t.kind = k), t :: ts) := rfl
  unfold expect
  rw [bind_of hcheck, decide_eq_true hk, if_pos rfl, next_cons t h]

theorem check_of_ne {k : TokenKind} {t : Token} {ts : List Token} (hk : t.kind ≠ k) :
    check k (t :: ts) = some (false, t :: ts) := by
  have hcheck : check k (t :: ts) = some (decide (t.kind = k), t :: ts) := rfl
  rw [hcheck, decide_eq_false hk]

theorem check_of_eq {k : TokenKind} {t : Token} {ts : List Token} (hk : t.kind = k) :
    check k (t :: ts) = some (true, t :: ts) := by
  have hcheck : check k (t :: ts) = some (decide (t.kind = k), t :: ts) := rfl
  rw [hcheck, decide_eq_true hk]

theorem assigns_of_ne {canAssign : Bool} {t : Token} {ts : List Token}
    (h : canAssign = true → t.kind ≠ .equal) :
    (pure canAssign <&&> check .equal) (t :: ts) = some (false, t :: ts) := by
  cases canAssign with
  | false => rfl
  | true => exact check_of_ne (h rfl)

theorem accept_of_ne {k : TokenKind} {t : Token} {ts : List Token} (h : t.kind ≠ k) :
    accept k (t :: ts) = some (false, t :: ts) := by
  unfold accept
  rw [bind_of (check_of_ne h)]
  rfl

theorem accept_of_eq {k : TokenKind} {t : Token} {ts : List Token} (h : t.kind = k) (hts : ts ≠ []) :
    accept k (t :: ts) = some (true, ts) := by
  unfold accept
  rw [bind_of (check_of_eq h), if_pos rfl, bind_of (next_cons t hts)]
  rfl

end Parser

namespace Phrase

def steps : Phrase → Nat
  | .call (.get object _ _) .. => object.steps + 1
  | .call callee .. => callee.steps + 1
  | .get object .. | .set object .. => object.steps + 1
  | .binary left .. => left.steps + 1
  | _ => 0

def Reads (φ : Phrase) : Prop :=
  ∀ {n q j : Nat} {u : Token} (rest : List Token), φ.tokens.length ≤ n → q ≤ φ.layer.depth →
    φ.Follows u.kind → (q ≤ 1 → u.kind ≠ .equal) →
    Reader.chain (Reader.upTo n) n q (j + φ.steps) (φ.tokens ++ u :: rest) =
      Reader.operations (Reader.upTo n) n q j φ (u :: rest)

theorem steps_lt : ∀ φ : Phrase, φ.steps < φ.tokens.length
  | .atom _ => Nat.one_pos
  | .group .. | .unary .. | .assign .. => Nat.succ_pos _
  | .call callee _ _ _ => by
    have h := steps_lt callee
    cases callee <;> simp only [steps, tokens, List.length_append, List.length_cons] at h ⊢ <;> omega
  | .get object _ _ | .set object _ _ _ _ | .binary object _ _ => by
    have h := steps_lt object
    simp only [steps, tokens, List.length_append, List.length_cons]
    omega

theorem operations_stop {parse : Nat → Parser Phrase} {n q j : Nat} {φ : Phrase} {u : Token}
    {rest : List Token} (hu : Precedence.of u.kind < q) :
    Reader.operations parse n q (j + 1) φ (u :: rest) = some (φ, u :: rest) := by
  have hpeek : Parser.peek (u :: rest) = some (u, u :: rest) := rfl
  rw [Reader.operations, bind_of hpeek, if_neg (Nat.not_le.mpr hu)]
  rfl

theorem operations_step {parse : Nat → Parser Phrase} {n q j : Nat} {φ : Phrase} {t : Token}
    {ts : List Token} (ht : q ≤ Precedence.of t.kind) (hts : ts ≠ []) :
    Reader.operations parse n q (j + 1) φ (t :: ts) = (do
      let ψ ← Reader.operation parse n (q ≤ Precedence.assignment) φ t
      Reader.operations parse n q j ψ) ts := by
  have hpeek : Parser.peek (t :: ts) = some (t, t :: ts) := rfl
  rw [Reader.operations, bind_of hpeek, if_pos ht, bind_of (Parser.next_cons t hts)]

theorem Reads.whole {φ : Phrase} (h : φ.Reads) {n q : Nat} {u : Token} (rest : List Token)
    (hn : φ.tokens.length < n) (hq : q ≤ φ.layer.depth) (hu : Precedence.of u.kind < q)
    (hequal : q ≤ 1 → u.kind ≠ .equal) :
    Reader.upTo n q (φ.tokens ++ u :: rest) = some (φ, u :: rest) := by
  have hsteps := φ.steps_lt
  obtain ⟨j, rfl⟩ : ∃ j, n = j + 1 + φ.steps + 1 := ⟨n - φ.steps - 2, by omega⟩
  have hchain := h (n := j + 1 + φ.steps) (j := j + 1) rest (by omega) hq (follows_of_lt hq hu) hequal
  rw [operations_stop hu] at hchain
  have hassigns : (pure (decide (q ≤ Precedence.assignment)) <&&> Parser.check .equal) (u :: rest) =
      some (false, u :: rest) := Parser.assigns_of_ne fun hle => hequal (of_decide_eq_true hle)
  rw [Reader.upTo, Reader.parsePrecedence, bind_of hchain, bind_of hassigns]
  rfl

theorem layer_pos (φ : Phrase) : 1 ≤ φ.layer.depth := by
  generalize φ.layer = l
  cases l <;> decide

theorem Reads.expression {φ : Phrase} (h : φ.Reads) {n : Nat} {u : Token} (rest : List Token)
    (hn : φ.tokens.length < n) (hu : Precedence.of u.kind < 1) (hequal : u.kind ≠ .equal) :
    Reader.upTo n Precedence.assignment (φ.tokens ++ u :: rest) = some (φ, u :: rest) :=
  h.whole rest hn φ.layer_pos hu fun _ => hequal

theorem chain_of_operand {parse : Nat → Parser Phrase} {n q j : Nat} {φ : Phrase} {t : Token}
    {ts ts' : List Token} (hts : ts ≠ [])
    (h : Reader.operand parse (q ≤ Precedence.assignment) t ts = some (φ, ts')) :
    Reader.chain parse n q j (t :: ts) = Reader.operations parse n q j φ ts' := by
  rw [Reader.chain, bind_of (Parser.next_cons t hts), bind_of h]

theorem reads_atom {t : Token} (ht : t.kind ∈ atoms) : (atom t).Reads := by
  intro n q j u rest _ _ _ hequal
  refine chain_of_operand (List.cons_ne_nil u rest) ?_
  have hassigns : (pure (decide (q ≤ Precedence.assignment)) <&&> Parser.check .equal) (u :: rest) =
      some (false, u :: rest) := Parser.assigns_of_ne fun hle => hequal (of_decide_eq_true hle)
  have hname : Reader.name (Reader.upTo n) (q ≤ Precedence.assignment) t (u :: rest) =
      some (atom t, u :: rest) := by
    rw [Reader.name, bind_of hassigns]
    rfl
  unfold Reader.operand
  simp only [atoms, List.mem_cons, List.not_mem_nil, or_false] at ht
  rcases ht with ht | ht | ht | ht | ht | ht <;> rw [ht]
  case inr.inr.inr.inr.inr => exact hname
  all_goals rfl

theorem reads_group {opening closing : Token} {inner : Phrase} (h : inner.Reads)
    (ho : opening.kind = .leftParen) (hc : closing.kind = .rightParen) :
    (group opening inner closing).Reads := by
  intro n q j u rest hn _ _ _
  simp only [tokens, List.length_cons, List.length_append] at hn
  rw [tokens, List.cons_append, List.append_assoc, List.singleton_append]
  refine chain_of_operand (by simp) ?_
  have hinner := h.expression (n := n) (u := closing) (u :: rest) (by omega)
    (by rw [hc]; decide) (by rw [hc]; nofun)
  unfold Reader.operand
  rw [ho]
  dsimp only
  rw [bind_of hinner, bind_of (Parser.expect_cons hc (List.cons_ne_nil u rest))]
  rfl

theorem reads_unary {operator : Token} {operand : Phrase} (h : operand.Reads)
    (ho : operator.kind = .bang ∨ operator.kind = .minus) (hlayer : .unary ≤ operand.layer) :
    (unary operator operand).Reads := by
  intro n q j u rest hn hq hfollows hequal
  simp only [tokens, List.length_cons] at hn
  rw [tokens, List.cons_append]
  refine chain_of_operand (by simp) ?_
  have hoperand := h.whole (n := n) (q := Precedence.unary) rest (by omega) hlayer hfollows.1
    (fun hle => absurd hle (by decide))
  unfold Reader.operand
  rcases ho with ho | ho <;>
  · rw [ho]
    dsimp only
    rw [bind_of hoperand]
    rfl

theorem reads_assign {name equal : Token} {value : Phrase} (h : value.Reads) (hname : name.kind = .identifier)
    (heq : equal.kind = .equal) : (assign name equal value).Reads := by
  intro n q j u rest hn hq hfollows hequal
  simp only [tokens, List.length_cons] at hn
  rw [tokens, List.cons_append, List.cons_append]
  refine chain_of_operand (by simp) ?_
  have hle : q ≤ 1 := hq
  have hvalue := h.expression (n := n) rest (by omega) hfollows.1 (hequal hle)
  unfold Reader.operand
  rw [hname]
  dsimp only
  have hassigns : (pure (decide (q ≤ Precedence.assignment)) <&&> Parser.check .equal)
      (equal :: (value.tokens ++ u :: rest)) = some (true, equal :: (value.tokens ++ u :: rest)) := by
    rw [decide_eq_true (show q ≤ Precedence.assignment from hle)]
    exact Parser.check_of_eq heq
  rw [Reader.name, bind_of hassigns, if_pos rfl, bind_of (Parser.next_cons equal (by simp)), bind_of hvalue]
  rfl

theorem Reads.step {left φ : Phrase} (h : left.Reads) {n q j : Nat} {t : Token} {ts ts' : List Token}
    (hn : left.tokens.length ≤ n) (hq : q ≤ left.layer.depth) (hfollows : left.Follows t.kind)
    (hequal : t.kind ≠ .equal) (ht : q ≤ Precedence.of t.kind) (hts : ts ≠ [])
    (hop : Reader.operation (Reader.upTo n) n (q ≤ Precedence.assignment) left t ts = some (φ, ts')) :
    Reader.chain (Reader.upTo n) n q (j + (left.steps + 1)) (left.tokens ++ t :: ts) =
      Reader.operations (Reader.upTo n) n q j φ ts' := by
  have hleft := h (j := j + 1) ts hn hq hfollows fun _ => hequal
  rw [show j + (left.steps + 1) = j + 1 + left.steps by omega, hleft, operations_step ht hts, bind_of hop]

theorem reads_binary {left right : Phrase} {operator : Token} (hl : left.Reads) (hr : right.Reads)
    (hjoins : Layer.Joins operator.kind left.layer right.layer) : (binary left operator right).Reads := by
  obtain ⟨l, hjoining, honRight, -, hle⟩ := hjoins.cases
  obtain ⟨htwo, -, -⟩ := Layer.range_joining hjoining
  intro n q j u rest hn hq hfollows hequal
  rw [layer_binary hjoining] at hq
  simp only [tokens, List.length_append, List.length_cons] at hn
  rw [tokens, List.append_assoc, List.cons_append]
  have hkind : operator.kind ≠ .equal := by
    intro heq
    rw [heq] at hjoining
    cases hjoining
  refine hl.step (by omega) (Nat.le_trans hq hle) (follows_of_joins hjoins) hkind
    (by rw [Layer.of_joining hjoining]; exact hq) (by simp) ?_
  have hu : Precedence.of u.kind < l.onRight := by
    rw [← reach_binary hjoining]
    exact hfollows.1
  have htwo' : 2 ≤ l.onRight := by
    unfold Layer.onRight
    split <;> omega
  have hright := hr.whole (n := n) rest (by omega) honRight hu (fun hle => by omega)
  rw [Reader.operation_of_joining _ _ hjoining, bind_of hright]
  rfl

theorem reads_get {object : Phrase} {dot name : Token} (h : object.Reads) (hlayer : .call ≤ object.layer)
    (hdot : dot.kind = .dot) (hname : name.kind = .identifier) : (get object dot name).Reads := by
  intro n q j u rest hn hq hfollows hequal
  simp only [tokens, List.length_append, List.length_cons] at hn
  rw [tokens, List.append_assoc, List.cons_append, List.singleton_append]
  have hparen : Parser.check .leftParen (u :: rest) = some (false, u :: rest) :=
    Parser.check_of_ne (hfollows.2 rfl)
  have hassigns : (pure (decide (q ≤ Precedence.assignment)) <&&> Parser.check .equal) (u :: rest) =
      some (false, u :: rest) := Parser.assigns_of_ne fun hle => hequal (of_decide_eq_true hle)
  refine h.step (by omega) (Nat.le_trans hq hlayer)
    (follows_of_call hlayer fun _ => by rw [hdot]; nofun) (by rw [hdot]; nofun) (by rw [hdot]; exact hq) (by simp) ?_
  unfold Reader.operation
  rw [hdot]
  dsimp only
  rw [Reader.access, bind_of (Parser.expect_cons hname (List.cons_ne_nil u rest)), Reader.property, bind_of hassigns,
    if_neg Bool.false_ne_true, bind_of hparen]
  rfl

theorem reads_set {object value : Phrase} {dot name equal : Token} (h : object.Reads) (hv : value.Reads)
    (hlayer : .call ≤ object.layer) (hdot : dot.kind = .dot) (hname : name.kind = .identifier)
    (heq : equal.kind = .equal) : (set object dot name equal value).Reads := by
  intro n q j u rest hn hq hfollows hequal
  have hle : q ≤ 1 := hq
  simp only [tokens, List.length_append, List.length_cons] at hn
  rw [tokens, List.append_assoc, List.cons_append, List.cons_append, List.cons_append]
  have hassigns : (pure (decide (q ≤ Precedence.assignment)) <&&> Parser.check .equal)
      (equal :: (value.tokens ++ u :: rest)) = some (true, equal :: (value.tokens ++ u :: rest)) := by
    rw [decide_eq_true (show q ≤ Precedence.assignment from hle)]
    exact Parser.check_of_eq heq
  have hvalue := hv.expression (n := n) rest (by omega) hfollows.1 (hequal hle)
  refine h.step (by omega) (Nat.le_trans hle object.layer_pos)
    (follows_of_call hlayer fun _ => by rw [hdot]; nofun) (by rw [hdot]; nofun)
    (by rw [hdot]; exact Nat.le_trans hle (by decide)) (by simp) ?_
  unfold Reader.operation
  rw [hdot]
  dsimp only
  rw [Reader.access, bind_of (Parser.expect_cons hname (List.cons_ne_nil _ _)), Reader.property, bind_of hassigns,
    if_pos rfl, bind_of (Parser.next_cons equal (by simp)), bind_of hvalue]
  rfl

theorem tokens_cons : ∀ φ : Phrase, φ.WellFormed → ∃ t ts, φ.tokens = t :: ts ∧ t.kind ≠ .rightParen
  | .atom t, h => ⟨t, [], rfl, fun hk => by rw [WellFormed, hk] at h; exact absurd h (by decide)⟩
  | .group opening inner closing, h => ⟨opening, _, rfl, by rw [h.1]; nofun⟩
  | .unary operator operand, h => ⟨operator, _, rfl, by rcases h.1 with hk | hk <;> rw [hk] <;> nofun⟩
  | .assign name equal value, h => ⟨name, _, rfl, by rw [h.1]; nofun⟩
  | .call callee opening arguments closing, h => by
    have hcallee : callee.WellFormed := by
      rw [WellFormed] at h
      exact h.2.1
    obtain ⟨t, ts, hts, hk⟩ := tokens_cons callee hcallee
    exact ⟨t, _, by rw [tokens, hts, List.cons_append], hk⟩
  | .get object dot name, h => by
    obtain ⟨t, ts, hts, hk⟩ := tokens_cons object h.2.1
    exact ⟨t, _, by rw [tokens, hts, List.cons_append], hk⟩
  | .binary left operator right, h => by
    obtain ⟨t, ts, hts, hk⟩ := tokens_cons left h.2.1
    exact ⟨t, _, by rw [tokens, hts, List.cons_append], hk⟩
  | .set object dot name equal value, h => by
    obtain ⟨t, ts, hts, hk⟩ := tokens_cons object h.2.1
    exact ⟨t, _, by rw [tokens, hts, List.cons_append], hk⟩

end Phrase

namespace Arguments

def Reads (as : Arguments) : Prop :=
  ∀ {n fuel : Nat} {u : Token} (rest : List Token), as.isNone = false → as.tokens.length < n →
    as.tokens.length < fuel → u.kind = .rightParen →
    Reader.argumentsFrom (Reader.upTo n) fuel (as.tokens ++ u :: rest) = some (as, u :: rest)

theorem reads_last {e : Phrase} (h : e.Reads) : (last e).Reads := by
  intro n fuel u rest _ hn hfuel hu
  obtain ⟨fuel, rfl⟩ : ∃ k, fuel = k + 1 := ⟨fuel - 1, by omega⟩
  have he := h.expression (n := n) (u := u) rest hn (by rw [hu]; decide) (by rw [hu]; nofun)
  have hcomma : Parser.check .comma (u :: rest) = some (false, u :: rest) :=
    Parser.check_of_ne (by rw [hu]; nofun)
  rw [tokens, Reader.argumentsFrom, bind_of he, bind_of hcomma]
  rfl

theorem reads_more {e : Phrase} {comma : Token} {as : Arguments} (h : e.Reads) (has : as.Reads)
    (hk : comma.kind = .comma) (hsome : as.isNone = false) : (more e comma as).Reads := by
  intro n fuel u rest _ hn hfuel hu
  simp only [tokens, List.length_append, List.length_cons] at hn hfuel
  obtain ⟨fuel, rfl⟩ : ∃ k, fuel = k + 1 := ⟨fuel - 1, by omega⟩
  rw [tokens, List.append_assoc, List.cons_append]
  have he := h.expression (n := n) (u := comma) (as.tokens ++ u :: rest) (by omega)
    (by rw [hk]; decide) (by rw [hk]; nofun)
  have hfuel' : as.tokens.length < fuel := by omega
  have hrest := has (n := n) rest hsome (by omega) hfuel' hu
  have hcomma : Parser.check .comma (comma :: (as.tokens ++ u :: rest)) =
      some (true, comma :: (as.tokens ++ u :: rest)) := Parser.check_of_eq hk
  rw [Reader.argumentsFrom, bind_of he, bind_of hcomma, if_pos rfl, bind_of (Parser.next_cons comma (by simp)),
    bind_of hrest]
  rfl

theorem tokens_cons {as : Arguments} (h : as.WellFormed) (hsome : as.isNone = false) :
    ∃ t ts, as.tokens = t :: ts ∧ t.kind ≠ .rightParen := by
  cases as with
  | none => cases hsome
  | last e => exact e.tokens_cons h
  | more e comma rest =>
    rw [WellFormed] at h
    obtain ⟨t, ts, hts, hk⟩ := e.tokens_cons h.1
    exact ⟨t, _, by rw [tokens, hts, List.cons_append], hk⟩

theorem Reads.call {as : Arguments} (h : as.Reads) (hwf : as.WellFormed) {n : Nat} {callee : Phrase}
    {opening closing u : Token} {rest : List Token} (hn : as.tokens.length < n) (hc : closing.kind = .rightParen) :
    Reader.call (Reader.upTo n) n callee opening (as.tokens ++ closing :: u :: rest) =
      some (.call callee opening as closing, u :: rest) := by
  have hexpect : Parser.expect .rightParen (closing :: u :: rest) = some (closing, u :: rest) :=
    Parser.expect_cons hc (List.cons_ne_nil u rest)
  have harguments : (do
      if ← Parser.check .rightParen then pure .none else Reader.argumentsFrom (Reader.upTo n) n : Parser Arguments)
      (as.tokens ++ closing :: u :: rest) = some (as, closing :: u :: rest) := by
    cases hnone : as.isNone with
    | true =>
      obtain rfl : as = .none := by cases as <;> first | rfl | cases hnone
      rw [tokens, List.nil_append, bind_of (Parser.check_of_eq hc)]
      rfl
    | false =>
      obtain ⟨t, ts, hts, hk⟩ := tokens_cons hwf hnone
      have hcheck : Parser.check .rightParen (as.tokens ++ closing :: u :: rest) =
          some (false, as.tokens ++ closing :: u :: rest) := by
        rw [hts]
        exact Parser.check_of_ne hk
      rw [bind_of hcheck, if_neg Bool.false_ne_true]
      exact h (u :: rest) hnone hn hn hc
  have hrun : Reader.call (Reader.upTo n) n callee opening = (do
      if ← Parser.check .rightParen then pure .none else Reader.argumentsFrom (Reader.upTo n) n : Parser Arguments) >>=
        fun as => do return .call callee opening as (← Parser.expect .rightParen) := by
    unfold Reader.call
    rw [bind_assoc]
    congr 1
    funext b
    cases b <;> rfl
  rw [hrun, bind_of harguments, bind_of hexpect]
  rfl

end Arguments

namespace Phrase

theorem reads_call {callee : Phrase} {opening closing : Token} {as : Arguments} (h : callee.Reads)
    (has : as.Reads) (hwf : as.WellFormed) (hget : callee.isGet = false) (hlayer : .call ≤ callee.layer)
    (ho : opening.kind = .leftParen) (hc : closing.kind = .rightParen) :
    (call callee opening as closing).Reads := by
  intro n q j u rest hn hq hfollows hequal
  have hsteps : (call callee opening as closing).steps = callee.steps + 1 := by
    cases callee <;> first | rfl | cases hget
  simp only [tokens, List.length_append, List.length_cons] at hn
  rw [hsteps, tokens, List.append_assoc, List.cons_append, List.append_assoc, List.singleton_append]
  refine h.step (by omega) (Nat.le_trans hq hlayer) (follows_of_call hlayer fun hg => ?_) (by rw [ho]; nofun)
    (by rw [ho]; exact hq) (by simp) ?_
  · rw [hget] at hg
    cases hg
  · unfold Reader.operation
    rw [ho]
    exact has.call hwf (by omega) hc

theorem reads_invoke {object : Phrase} {dot name opening closing : Token} {as : Arguments} (h : object.Reads)
    (has : as.Reads) (hwf : as.WellFormed) (hlayer : .call ≤ object.layer) (hdot : dot.kind = .dot)
    (hname : name.kind = .identifier) (ho : opening.kind = .leftParen) (hc : closing.kind = .rightParen) :
    (call (get object dot name) opening as closing).Reads := by
  intro n q j u rest hn hq hfollows hequal
  simp only [tokens, List.length_append, List.length_cons] at hn
  rw [tokens, tokens, List.append_assoc, List.append_assoc, List.cons_append, List.cons_append, List.nil_append,
    List.cons_append, List.append_assoc, List.singleton_append]
  have hassigns : (pure (decide (q ≤ Precedence.assignment)) <&&> Parser.check .equal)
      (opening :: (as.tokens ++ closing :: u :: rest)) =
        some (false, opening :: (as.tokens ++ closing :: u :: rest)) :=
    Parser.assigns_of_ne fun _ => by rw [ho]; nofun
  refine h.step (by omega) (Nat.le_trans hq hlayer) (follows_of_call hlayer fun _ => by rw [hdot]; nofun)
    (by rw [hdot]; nofun) (by rw [hdot]; exact hq) (by simp) ?_
  unfold Reader.operation
  rw [hdot]
  dsimp only
  rw [Reader.access, bind_of (Parser.expect_cons hname (List.cons_ne_nil _ _)), Reader.property, bind_of hassigns,
    if_neg Bool.false_ne_true, bind_of (Parser.check_of_eq ho), if_pos rfl,
    bind_of (Parser.next_cons opening (by simp))]
  exact has.call hwf (by omega) hc

end Phrase

mutual

theorem Phrase.reads : ∀ φ : Phrase, φ.WellFormed → φ.Reads
  | .atom _, h => Phrase.reads_atom h
  | .group _ inner _, ⟨ho, h, hc⟩ => Phrase.reads_group (Phrase.reads inner h) ho hc
  | .call callee opening arguments closing, h => by
    cases callee with
    | get object dot name =>
      obtain ⟨-, ⟨hlayer, h, hdot, hname⟩, ho, hargs, hc⟩ := h
      exact Phrase.reads_invoke (Phrase.reads object h) (Arguments.reads arguments hargs) hargs hlayer hdot hname ho hc
    | _ =>
      rw [Phrase.WellFormed] at h
      obtain ⟨hlayer, h, ho, hargs, hc⟩ := h
      exact Phrase.reads_call (Phrase.reads _ h) (Arguments.reads arguments hargs) hargs rfl hlayer ho hc
  | .get object _ _, ⟨hlayer, h, hdot, hname⟩ => Phrase.reads_get (Phrase.reads object h) hlayer hdot hname
  | .unary _ operand, ⟨ho, hlayer, h⟩ => Phrase.reads_unary (Phrase.reads operand h) ho hlayer
  | .binary left _ right, ⟨hjoins, hl, hr⟩ =>
    Phrase.reads_binary (Phrase.reads left hl) (Phrase.reads right hr) hjoins
  | .assign _ _ value, ⟨hname, heq, h⟩ => Phrase.reads_assign (Phrase.reads value h) hname heq
  | .set object _ _ _ value, ⟨hlayer, h, hdot, hname, heq, hv⟩ =>
    Phrase.reads_set (Phrase.reads object h) (Phrase.reads value hv) hlayer hdot hname heq

theorem Arguments.reads : ∀ as : Arguments, as.WellFormed → as.Reads
  | .none, _ => nofun
  | .last e, h => Arguments.reads_last (Phrase.reads e h)
  | .more e _ rest, ⟨h, hk, hsome, hrest⟩ =>
    Arguments.reads_more (Phrase.reads e h) (Arguments.reads rest hrest) hk hsome

end

theorem Phrase.Derives.unique {φ ψ : Phrase} {tokens : List Token} (hφ : φ.Derives tokens)
    (hψ : ψ.Derives tokens) : φ = ψ := by
  obtain ⟨hφ, rfl⟩ := hφ
  obtain ⟨hψ, htokens⟩ := hψ
  let u : Token := ⟨.semicolon, [], 0⟩
  have hend {ψ : Phrase} (h : ψ.WellFormed) : Reader.upTo (ψ.tokens.length + 1) Precedence.assignment
      (ψ.tokens ++ [u]) = some (ψ, [u]) :=
    Phrase.Reads.expression (Phrase.reads ψ h) [] (Nat.lt_succ_self _) (show 0 < 1 by decide) nofun
  have hread := hend hψ
  rw [htokens, hend hφ] at hread
  exact (Prod.mk.inj (Option.some.inj hread)).1

end Lox

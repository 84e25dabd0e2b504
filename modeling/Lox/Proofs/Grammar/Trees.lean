import Lox.Proofs.Grammar.Reader

namespace Lox

namespace Phrase

def atomExpr (t : Token) : Expr :=
  match t.kind with
  | .number => .number t.lexeme
  | .string => .string (t.lexeme.drop 1).dropLast
  | .identifier => .variable_ t.lexeme
  | .true_ => .true_
  | .false_ => .false_
  | _ => .nil

def joinedExpr (operator : TokenKind) (left right : Expr) : Expr :=
  match operator with
  | .and_ => .and_ left right
  | .or_ => .or_ left right
  | k => (BinaryOp.ofToken? k).elim left fun op => .binary op left right

end Phrase

mutual

def Phrase.expr : Phrase → Expr
  | .atom t => Phrase.atomExpr t
  | .group _ inner _ => inner.expr
  | .call (.get object _ name) _ arguments _ => .invoke object.expr name.lexeme arguments.exprs
  | .call callee _ arguments _ => .call callee.expr arguments.exprs
  | .get object _ name => .get object.expr name.lexeme
  | .unary operator operand => .unary (if operator.kind = .bang then .not else .negate) operand.expr
  | .binary left operator right => Phrase.joinedExpr operator.kind left.expr right.expr
  | .assign name _ value => .assign name.lexeme value.expr
  | .set object _ name _ value => .set object.expr name.lexeme value.expr

def Arguments.exprs : Arguments → List Expr
  | .none => []
  | .last e => [e.expr]
  | .more e _ rest => e.expr :: rest.exprs

end

namespace Parser

theorem next_some {t : Token} {ts ts' : List Token} (h : next ts = some (t, ts')) : ts = t :: ts' := by
  unfold next at h
  split at h
  · cases h
    rfl
  · cases h

theorem check_some {k : TokenKind} {b : Bool} {ts ts' : List Token} (h : check k ts = some (b, ts')) :
    ts' = ts ∧ ∃ t rest, ts = t :: rest ∧ b = decide (t.kind = k) := by
  cases ts with
  | nil => cases h
  | cons t rest =>
    cases h
    exact ⟨rfl, t, rest, rfl, rfl⟩

theorem expect_some {k : TokenKind} {t : Token} {ts ts' : List Token} (h : expect k ts = some (t, ts')) :
    ts = t :: ts' ∧ t.kind = k := by
  obtain ⟨b, ts₁, hcheck, h⟩ := bind_some h
  obtain ⟨rfl, u, rest, rfl, rfl⟩ := check_some hcheck
  by_cases hk : u.kind = k
  · rw [decide_eq_true hk, if_pos rfl] at h
    obtain ⟨rfl, rfl⟩ := List.cons.inj (next_some h)
    exact ⟨rfl, hk⟩
  · rw [decide_eq_false hk] at h
    cases h

theorem accept_some {k : TokenKind} {b : Bool} {ts ts' : List Token} (h : accept k ts = some (b, ts')) :
    (b = true ∧ ∃ t, ts = t :: ts' ∧ t.kind = k) ∨ (b = false ∧ ts' = ts ∧ ∀ u ∈ ts.head?, u.kind ≠ k) := by
  obtain ⟨found, ts₁, hcheck, h⟩ := bind_some h
  obtain ⟨rfl, u, rest, rfl, rfl⟩ := check_some hcheck
  by_cases hk : u.kind = k
  · rw [decide_eq_true hk, if_pos rfl] at h
    obtain ⟨t, ts₂, hnext, h⟩ := bind_some h
    cases h
    obtain ⟨rfl, rfl⟩ := List.cons.inj (next_some hnext)
    exact .inl ⟨rfl, u, rfl, hk⟩
  · rw [decide_eq_false hk] at h
    cases h
    refine .inr ⟨rfl, rfl, fun v hv => ?_⟩
    cases hv
    exact hk

theorem assigns_some {canAssign b : Bool} {ts ts' : List Token}
    (h : (pure canAssign <&&> accept .equal) ts = some (b, ts')) :
    (b = true ∧ canAssign = true ∧ ∃ t, ts = t :: ts' ∧ t.kind = .equal) ∨ (b = false ∧ ts' = ts) := by
  cases canAssign with
  | false =>
    cases h
    exact .inr ⟨rfl, rfl⟩
  | true =>
    rcases accept_some h with ⟨hb, ht⟩ | ⟨hb, hts, -⟩
    · exact .inl ⟨hb, rfl, ht⟩
    · exact .inr ⟨hb, hts⟩

end Parser

def OutsideClasses (ts : List Token) : Prop :=
  ∀ t ∈ ts, t.kind ≠ .this_ ∧ t.kind ≠ .super_

theorem OutsideClasses.append_right {ts ts' : List Token} (h : OutsideClasses (ts ++ ts')) : OutsideClasses ts' :=
  fun t ht => h t (List.mem_append_right ts ht)

theorem OutsideClasses.tail {t : Token} {ts : List Token} (h : OutsideClasses (t :: ts)) : OutsideClasses ts :=
  fun u hu => h u (List.mem_cons_of_mem t hu)

structure Phrase.Parsed (φ : Phrase) (depth : Nat) (ts : List Token) (e : Expr) (ts' : List Token) : Prop where
  wellFormed : φ.WellFormed
  layer : depth ≤ φ.layer.depth
  expr : φ.expr = e
  tokens : ts = φ.tokens ++ ts'
  follows : ∀ u ∈ ts'.head?, φ.Follows u.kind

def Parser.Parts.Derive (parts : Parser.Parts) : Prop :=
  ∀ {depth : Nat} {ts ts' : List Token} {e : Expr}, 0 < depth → depth ≤ 8 → OutsideClasses ts →
    parts.expression depth ts = some (e, ts') →
      ∃ φ : Phrase, φ.Parsed depth ts e ts' ∧ ∀ u ∈ ts'.head?, Precedence.of u.kind < depth

section Productions

variable {parts : Parser.Parts} (hparts : parts.Derive) {n depth : Nat} {ts ts' : List Token} {e : Expr}

namespace Phrase

theorem parsed_atom {t : Token} (ht : t.kind ∈ atoms) (hdepth : depth ≤ 8) :
    (atom t).Parsed depth (t :: ts) (atomExpr t) ts where
  wellFormed := ht
  layer := Nat.le_trans hdepth (by decide : 8 ≤ 10)
  expr := rfl
  tokens := rfl
  follows _ _ := follows_of_lt (Nat.le_refl _) (of_lt_ten _)

include hparts

theorem parsed_expression (houtside : OutsideClasses ts) (h : Parser.expression parts ts = some (e, ts')) :
    ∃ φ : Phrase, φ.WellFormed ∧ φ.expr = e ∧ ts = φ.tokens ++ ts' ∧
      ∀ u ∈ ts'.head?, Precedence.of u.kind < 1 := by
  obtain ⟨φ, hφ, hu⟩ := hparts (by decide) (by decide) houtside h
  exact ⟨φ, hφ.wellFormed, hφ.expr, hφ.tokens, hu⟩

theorem parsed_variable {t : Token} (ht : t.kind = .identifier) (hdepth : depth ≤ 8) (houtside : OutsideClasses ts)
    (h : Parser.variable_ parts t.lexeme (depth ≤ Precedence.assignment) ts = some (e, ts')) :
    ∃ φ : Phrase, φ.Parsed depth (t :: ts) e ts' := by
  obtain ⟨b, ts₁, hequal, hrest⟩ := bind_some h
  rcases Parser.assigns_some hequal with ⟨rfl, hassigns, equal, rfl, hk⟩ | ⟨rfl, rfl⟩
  · rw [if_pos rfl] at hrest
    obtain ⟨v, ts₂, hvalue, hend⟩ := bind_some hrest
    cases hend
    obtain ⟨φ, hwf, rfl, rfl, hu⟩ := parsed_expression hparts houtside.tail hvalue
    exact ⟨assign t equal φ, ⟨ht, hk, hwf⟩, of_decide_eq_true hassigns, rfl, rfl,
      fun u hmem => ⟨hu u hmem, nofun⟩⟩
  · rw [if_neg Bool.false_ne_true] at hrest
    cases hrest
    have hatom : atomExpr t = .variable_ t.lexeme := by
      unfold atomExpr
      rw [ht]
    exact ⟨atom t, hatom ▸ parsed_atom (by rw [ht]; decide) hdepth⟩

theorem parsed_grouping {t : Token} (ht : t.kind = .leftParen) (hdepth : depth ≤ 8) (houtside : OutsideClasses ts)
    (h : Parser.grouping parts ts = some (e, ts')) : ∃ φ : Phrase, φ.Parsed depth (t :: ts) e ts' := by
  obtain ⟨inner, ts₁, hinner, h⟩ := bind_some h
  obtain ⟨closing, ts₂, hclose, h⟩ := bind_some h
  cases h
  obtain ⟨rfl, hk⟩ := Parser.expect_some hclose
  obtain ⟨φ, hwf, rfl, rfl, -⟩ := parsed_expression hparts houtside hinner
  exact ⟨group t φ closing, ⟨ht, hwf, hk⟩, Nat.le_trans hdepth (by decide : 8 ≤ 10), rfl, by simp [tokens],
    fun _ _ => follows_of_lt (Nat.le_refl _) (of_lt_ten _)⟩

theorem parsed_unary {t : Token} (ht : t.kind = .bang ∨ t.kind = .minus) {op : UnaryOp}
    (hop : op = if t.kind = .bang then .not else .negate) (hdepth : depth ≤ 8) (houtside : OutsideClasses ts)
    (h : Parser.unary parts op ts = some (e, ts')) : ∃ φ : Phrase, φ.Parsed depth (t :: ts) e ts' := by
  obtain ⟨operand, ts₁, hoperand, h⟩ := bind_some h
  cases h
  obtain ⟨φ, hφ, hu⟩ := hparts (by decide) (by decide) houtside hoperand
  refine ⟨unary t φ, ⟨ht, hφ.layer, hφ.wellFormed⟩, hdepth, ?_, ?_, fun u hmem => ⟨hu u hmem, nofun⟩⟩
  · rw [expr, hφ.expr, hop]
  · rw [tokens, List.cons_append, hφ.tokens]

theorem parsed_operand {t : Token} (hdepth : depth ≤ 8) (houtside : OutsideClasses (t :: ts))
    (h : Parser.operand parts n (depth ≤ Precedence.assignment) t ts = some (e, ts')) :
    ∃ φ : Phrase, φ.Parsed depth (t :: ts) e ts' := by
  obtain ⟨hthis, hsuper⟩ := houtside t (List.mem_cons_self ..)
  have hatom {e : Expr} (ht : t.kind ∈ atoms) (he : atomExpr t = e) : ∃ φ : Phrase, φ.Parsed depth (t :: ts) e ts :=
    ⟨atom t, he ▸ parsed_atom ht hdepth⟩
  unfold Parser.operand at h
  cases hk : t.kind <;> rw [hk] at h
  case leftParen => exact parsed_grouping hparts hk hdepth houtside.tail h
  case minus => exact parsed_unary hparts (.inr hk) (by rw [hk]; rfl) hdepth houtside.tail h
  case bang => exact parsed_unary hparts (.inl hk) (by rw [hk]; rfl) hdepth houtside.tail h
  case identifier => exact parsed_variable hparts hk hdepth houtside.tail h
  case super_ => exact absurd hk hsuper
  case this_ => exact absurd hk hthis
  case string | number | true_ | false_ | nil_ =>
    cases h
    exact hatom (by rw [hk]; decide) (by unfold atomExpr; rw [hk])
  all_goals cases h

theorem parsed_argumentsFrom {fuel : Nat} {es : List Expr} (houtside : OutsideClasses ts)
    (h : Parser.argumentsFrom parts fuel ts = some (es, ts')) :
    ∃ as : Arguments, as.WellFormed ∧ as.isNone = false ∧ as.exprs = es ∧ ts = as.tokens ++ ts' := by
  induction fuel generalizing ts es with
  | zero => cases h
  | succ fuel ih =>
    obtain ⟨e, ts₁, he, hrest⟩ := bind_some h
    obtain ⟨φ, hwf, rfl, rfl, -⟩ := parsed_expression hparts houtside he
    obtain ⟨b, ts₂, hcomma, hmore⟩ := bind_some hrest
    rcases Parser.accept_some hcomma with ⟨rfl, comma, rfl, hk⟩ | ⟨rfl, rfl, -⟩
    · rw [if_pos rfl] at hmore
      obtain ⟨es, ts₃, hes, hend⟩ := bind_some hmore
      cases hend
      obtain ⟨as, has, hsome, rfl, rfl⟩ := ih houtside.append_right.tail hes
      exact ⟨.more φ comma as, ⟨hwf, hk, hsome, has⟩, rfl, rfl, by simp [Arguments.tokens]⟩
    · rw [if_neg Bool.false_ne_true] at hmore
      cases hmore
      exact ⟨.last φ, hwf, rfl, rfl, rfl⟩

theorem parsed_argumentList {es : List Expr} (houtside : OutsideClasses ts)
    (h : Parser.argumentList parts n ts = some (es, ts')) :
    ∃ (as : Arguments) (closing : Token), as.WellFormed ∧ as.exprs = es ∧ closing.kind = .rightParen ∧
      ts = as.tokens ++ closing :: ts' := by
  obtain ⟨b, ts₁, hcheck, hrest⟩ := bind_some h
  obtain ⟨rfl, -⟩ := Parser.check_some hcheck
  cases b with
  | true =>
    obtain ⟨_, ts₂, hnone, hrest⟩ := bind_some hrest
    obtain ⟨closing, ts₃, hclose, hend⟩ := bind_some hrest
    cases hnone
    cases hend
    obtain ⟨rfl, hk⟩ := Parser.expect_some hclose
    exact ⟨.none, closing, trivial, rfl, hk, rfl⟩
  | false =>
    obtain ⟨es, ts₂, hes, hrest⟩ := bind_some hrest
    obtain ⟨closing, ts₃, hclose, hend⟩ := bind_some hrest
    cases hend
    obtain ⟨as, has, -, rfl, rfl⟩ := parsed_argumentsFrom hparts houtside hes
    obtain ⟨rfl, hk⟩ := Parser.expect_some hclose
    exact ⟨as, closing, has, rfl, hk, rfl⟩

variable {left : Phrase} {t : Token} {ts₀ : List Token} {e₀ : Expr}

theorem parsed_call (hleft : left.Parsed depth ts₀ e₀ (t :: ts)) (ht : t.kind = .leftParen) (hdepth : depth ≤ 9)
    (houtside : OutsideClasses ts)
    (h : (do return .call e₀ (← Parser.argumentList parts n) : Parser Expr) ts = some (e, ts')) :
    ∃ φ : Phrase, φ.Parsed depth ts₀ e ts' := by
  have hfollows := hleft.follows t rfl
  rw [ht] at hfollows
  obtain ⟨es, ts₁, hes, hend⟩ := bind_some h
  cases hend
  obtain ⟨as, closing, has, rfl, hk, rfl⟩ := parsed_argumentList hparts houtside hes
  refine ⟨call left t as closing, ⟨hfollows.callee rfl, hleft.wellFormed, ht, has, hk⟩, hdepth, ?_, ?_,
    fun _ _ => ⟨of_lt_ten _, nofun⟩⟩
  · rw [← hleft.expr]
    cases left with
    | get => exact absurd rfl (hfollows.2 rfl)
    | _ => rfl
  · rw [hleft.tokens]
    simp [tokens]

theorem parsed_dot (hleft : left.Parsed depth ts₀ e₀ (t :: ts)) (ht : t.kind = .dot) (hdepth : depth ≤ 9)
    (houtside : OutsideClasses ts) (h : Parser.dot parts n e₀ (depth ≤ Precedence.assignment) ts = some (e, ts')) :
    ∃ φ : Phrase, φ.Parsed depth ts₀ e ts' := by
  have hlayer := (hleft.follows t rfl).callee (by rw [ht]; rfl)
  obtain ⟨name, ts₁, hname, hrest⟩ := bind_some h
  obtain ⟨rfl, hidentifier⟩ := Parser.expect_some hname
  obtain ⟨b, ts₂, hequal, hassign⟩ := bind_some hrest
  rcases Parser.assigns_some hequal with ⟨rfl, hassigns, equal, rfl, hk⟩ | ⟨rfl, rfl⟩
  · rw [if_pos rfl] at hassign
    obtain ⟨v, ts₃, hvalue, hend⟩ := bind_some hassign
    cases hend
    obtain ⟨φ, hwf, rfl, rfl, hu⟩ := parsed_expression hparts houtside.tail.tail hvalue
    refine ⟨set left t name equal φ, ⟨hlayer, hleft.wellFormed, ht, hidentifier, hk, hwf⟩,
      of_decide_eq_true hassigns, ?_, ?_, fun u hmem => ⟨hu u hmem, nofun⟩⟩
    · rw [expr, hleft.expr]
    · rw [hleft.tokens]
      simp [tokens]
  · rw [if_neg Bool.false_ne_true] at hassign
    have hget : (get left t name).WellFormed := ⟨hlayer, hleft.wellFormed, ht, hidentifier⟩
    obtain ⟨b, ts₃, hparen, hcall⟩ := bind_some hassign
    rcases Parser.accept_some hparen with ⟨rfl, opening, rfl, hk⟩ | ⟨rfl, rfl, hne⟩
    · rw [if_pos rfl] at hcall
      obtain ⟨es, ts₄, hes, hend⟩ := bind_some hcall
      cases hend
      obtain ⟨as, closing, has, rfl, hk', rfl⟩ := parsed_argumentList hparts houtside.tail.tail hes
      refine ⟨call (get left t name) opening as closing, ⟨Nat.le_refl _, hget, hk, has, hk'⟩, hdepth, ?_, ?_,
        fun _ _ => ⟨of_lt_ten _, nofun⟩⟩
      · rw [expr, hleft.expr]
      · rw [hleft.tokens]
        simp [tokens]
    · rw [if_neg Bool.false_ne_true] at hcall
      cases hcall
      refine ⟨get left t name, hget, hdepth, ?_, ?_, fun u hmem => ⟨of_lt_ten _, fun _ => hne u hmem⟩⟩
      · rw [expr, hleft.expr]
      · rw [hleft.tokens]
        simp [tokens]

omit hparts in
theorem operation_of_joining {canAssign : Bool} {k : TokenKind} {l : Layer} (h : Layer.joining? k = some l) :
    Parser.operation parts n canAssign e₀ k = (do return joinedExpr k e₀ (← parts.expression l.onRight)) := by
  cases k <;> cases h <;> rfl

theorem parsed_joined {l : Layer} (hleft : left.Parsed depth ts₀ e₀ (t :: ts)) (hl : Layer.joining? t.kind = some l)
    (hdepth : depth ≤ l.depth) (houtside : OutsideClasses ts)
    (h : (do return joinedExpr t.kind e₀ (← parts.expression l.onRight) : Parser Expr) ts = some (e, ts')) :
    ∃ φ : Phrase, φ.Parsed depth ts₀ e ts' := by
  obtain ⟨htwo, hseven, -⟩ := Layer.range_joining hl
  have hrange : 0 < l.onRight ∧ l.onRight ≤ 8 := by
    unfold Layer.onRight
    split <;> omega
  obtain ⟨r, ts₁, hr, hend⟩ := bind_some h
  cases hend
  obtain ⟨φ, hφ, hu⟩ := hparts hrange.1 hrange.2 houtside hr
  have hjoins := Layer.joins_of hl ((hleft.follows t rfl).left hl) hφ.layer
  refine ⟨binary left t φ, ⟨hjoins, hleft.wellFormed, hφ.wellFormed⟩, ?_, ?_, ?_, fun u hmem => ⟨?_, nofun⟩⟩
  · rw [layer_binary hl]
    exact hdepth
  · rw [expr, hleft.expr, hφ.expr]
  · rw [hleft.tokens, tokens, hφ.tokens]
    simp
  · rw [reach_binary hl]
    exact hu u hmem

theorem parsed_operation (hleft : left.Parsed depth ts₀ e₀ (t :: ts)) (hpos : 0 < depth)
    (hdepth : depth ≤ Precedence.of t.kind) (houtside : OutsideClasses ts)
    (h : Parser.operation parts n (depth ≤ Precedence.assignment) e₀ t.kind ts = some (e, ts')) :
    ∃ φ : Phrase, φ.Parsed depth ts₀ e ts' := by
  rcases Layer.operator_cases (Nat.lt_of_lt_of_le hpos hdepth) with hk | hk | ⟨l, hl⟩
  · rw [hk] at h hdepth
    exact parsed_call hparts hleft hk hdepth houtside h
  · rw [hk] at h hdepth
    exact parsed_dot hparts hleft hk hdepth houtside h
  · rw [operation_of_joining hl] at h
    rw [Layer.of_joining hl] at hdepth
    exact parsed_joined hparts hleft hl hdepth houtside h

theorem parsed_operations {fuel : Nat} (hleft : left.Parsed depth ts₀ e₀ ts) (hpos : 0 < depth)
    (houtside : OutsideClasses ts₀)
    (h : Parser.operations parts n depth (depth ≤ Precedence.assignment) fuel e₀ ts = some (e, ts')) :
    ∃ φ : Phrase, φ.Parsed depth ts₀ e ts' ∧ ∀ u ∈ ts'.head?, Precedence.of u.kind < depth := by
  induction fuel generalizing left e₀ ts with
  | zero => cases h
  | succ fuel ih =>
    obtain ⟨t, ts₁, hpeek, hrest⟩ := bind_some h
    obtain _ | ⟨u, rest⟩ := ts
    · cases hpeek
    cases hpeek
    by_cases hop : depth ≤ Precedence.of t.kind
    · rw [if_pos hop] at hrest
      obtain ⟨t', ts₂, hnext, hsome⟩ := bind_some hrest
      obtain ⟨rfl, rfl⟩ := List.cons.inj (Parser.next_some hnext)
      obtain ⟨e₁, ts₃, he₁, hmore⟩ := bind_some hsome
      have houtside' := houtside
      rw [hleft.tokens] at houtside'
      obtain ⟨φ, hφ⟩ := parsed_operation hparts hleft hpos hop houtside'.append_right.tail he₁
      exact ih hφ hmore
    · rw [if_neg hop] at hrest
      cases hrest
      refine ⟨left, hleft, fun u hmem => ?_⟩
      cases hmem
      exact Nat.lt_of_not_le hop

end Phrase

end Productions

theorem Parser.derive_upTo (n : Nat) : (Parser.upTo n).Derive := by
  induction n with
  | zero => exact fun _ _ _ h => nomatch h
  | succ n ih =>
    intro depth ts ts' e hpos hdepth houtside h
    obtain ⟨t, ts₁, hnext, hrest⟩ := bind_some h
    obtain rfl := Parser.next_some hnext
    obtain ⟨e₁, ts₂, hoperand, hrest⟩ := bind_some hrest
    obtain ⟨e₂, ts₃, hoperations, htarget⟩ := bind_some hrest
    obtain ⟨φ, hφ⟩ := Phrase.parsed_operand ih hdepth houtside hoperand
    obtain ⟨ψ, hψ, hu⟩ := Phrase.parsed_operations ih hφ hpos houtside hoperations
    obtain ⟨b, ts₄, hcheck, hend⟩ := bind_some htarget
    cases b with
    | true => cases hend
    | false =>
      cases hend
      have hsame : ts' = ts₃ := by
        generalize decide (depth ≤ Precedence.assignment) = canAssign at hcheck
        cases canAssign with
        | false =>
          cases hcheck
          rfl
        | true => exact (Parser.check_some hcheck).1
      exact hsame ▸ ⟨ψ, hψ, hu⟩

end Lox

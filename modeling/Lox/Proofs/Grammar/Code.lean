import Lox.Proofs.Grammar.Trees
import Lox.Proofs.Source.Declarations

namespace Lox

def Plan.script (items : List Item) : Plan :=
  { levels := [{ kind := .script, locals := [CompileM.receiver .script], constants := items }] }

namespace PlanM

variable {items : List Item}

theorem constant_script (item : Item) :
    constant item (Plan.script items) = some (items.length, Plan.script (items ++ [item])) :=
  rfl

theorem findLocal_script {name : Bytes} (h : name ≠ "") : findLocal name [CompileM.receiver .script] = none := by
  unfold findLocal
  rw [if_neg fun heq => h heq.symm]
  rfl

theorem resolve_script {name : Bytes} (h : name ≠ "") : resolve name (Plan.script items) =
    some (.global items.length, Plan.script (items ++ [.string name])) :=
  CompileM.plan_resolve_global rfl (findLocal_script h) rfl (constant_script (.string name))

end PlanM

def Phrase.Planned (φ : Phrase) : Prop :=
  ∀ {items : List Item} {lines : List Line} {g : Plan}, (∀ t ∈ φ.tokens, t.Genuine) →
    φ.expr.code (Plan.script items) = some (lines, g) →
      (∀ t ∈ φ.tokens, t.InRange) ∧ lines = φ.code items.length ∧ g = Plan.script (items ++ φ.items)

namespace Arguments

def Planned (as : Arguments) : Prop :=
  ∀ {items : List Item} {lines : List Line} {g : Plan}, (∀ t ∈ as.tokens, t.Genuine) →
    Expr.codeOfAll as.exprs (Plan.script items) = some (lines, g) →
      (∀ t ∈ as.tokens, t.InRange) ∧ lines = as.code items.length ∧ g = Plan.script (items ++ as.items)

theorem length_exprs : ∀ as : Arguments, as.exprs.length = as.count
  | .none => rfl
  | .last _ => rfl
  | .more _ _ rest => congrArg (· + 1) (length_exprs rest)

end Arguments

theorem Token.inRange_of_kind {t : Token} {k : TokenKind} (h : t.kind = k) (hk : k ≠ .number) : t.InRange :=
  fun hnumber => absurd (h.symm.trans hnumber) hk

theorem Token.Genuine.name_ne {t : Token} (h : t.Genuine) (hk : t.kind = .identifier) : t.lexeme ≠ "" :=
  (h.identifier hk).nonempty

namespace Phrase

theorem planned_atom {t : Token} (ht : t.kind ∈ atoms) : (atom t).Planned := by
  intro items lines g hgenuine h
  have hname := (hgenuine t (List.mem_singleton_self t)).name_ne
  have hrange {k : TokenKind} (hk : t.kind = k) (hne : k ≠ .number) : ∀ u ∈ (atom t).tokens, u.InRange :=
    List.forall_mem_singleton.mpr (Token.inRange_of_kind hk hne)
  simp only [atoms, List.mem_cons, List.not_mem_nil, or_false] at ht
  simp only [expr, atomExpr, code, Phrase.items, atomCode, atomItems] at h ⊢
  rcases ht with hk | hk | hk | hk | hk | hk <;> rw [hk] at h ⊢ <;> dsimp only at h ⊢ <;> rw [Expr.code] at h
  case inr.inr.inr.inl =>
    by_cases hinf : Number.isInfinite (Number.ofLiteral t.lexeme).toBits = true
    · rw [if_pos hinf] at h
      cases h
    · rw [if_neg hinf] at h
      cases h
      exact ⟨List.forall_mem_singleton.mpr fun _ => eq_false_of_ne_true hinf, rfl, rfl⟩
  case inr.inr.inr.inr.inl =>
    cases h
    exact ⟨hrange hk (by decide), rfl, rfl⟩
  case inr.inr.inr.inr.inr =>
    rw [bind_of (PlanM.resolve_script (hname hk))] at h
    cases h
    exact ⟨hrange hk (by decide), rfl, rfl⟩
  all_goals
    cases h
    exact ⟨hrange hk (by decide), rfl, by rw [List.append_nil]⟩

theorem planned_group {opening closing : Token} {inner : Phrase} (h : inner.Planned)
    (ho : opening.kind = .leftParen) (hc : closing.kind = .rightParen) :
    (group opening inner closing).Planned := by
  intro items lines g hgenuine hcode
  simp only [tokens, List.forall_mem_cons, List.forall_mem_append] at hgenuine ⊢
  obtain ⟨hrange, hlines, hg⟩ := h hgenuine.2.1 hcode
  exact ⟨⟨Token.inRange_of_kind ho nofun, hrange, Token.inRange_of_kind hc nofun, nofun⟩, hlines, hg⟩

theorem planned_unary {operator : Token} {operand : Phrase} (h : operand.Planned)
    (ho : operator.kind = .bang ∨ operator.kind = .minus) : (unary operator operand).Planned := by
  intro items lines g hgenuine hcode
  simp only [tokens, List.forall_mem_cons] at hgenuine ⊢
  rw [expr, Expr.code] at hcode
  obtain ⟨a, g₁, ha, hend⟩ := bind_some hcode
  cases hend
  obtain ⟨hrange, rfl, rfl⟩ := h hgenuine.2 ha
  refine ⟨⟨?_, hrange⟩, ?_, rfl⟩
  · rcases ho with ho | ho <;> exact Token.inRange_of_kind ho (by decide)
  · rw [code]
    split <;> rfl

theorem code_joined {k : TokenKind} {l : Layer} (h : Layer.joining? k = some l) (left right : Expr) :
    (joinedExpr k left right).code = (do
      let a ← left.code
      let b ← right.code
      return joined k a b) := by
  cases k <;> cases h <;> exact Expr.code.eq_def _

theorem planned_binary {left right : Phrase} {operator : Token} (hl : left.Planned) (hr : right.Planned)
    (hjoins : Layer.Joins operator.kind left.layer right.layer) : (binary left operator right).Planned := by
  obtain ⟨l, hjoining, -⟩ := hjoins.cases
  intro items lines g hgenuine hcode
  simp only [tokens, List.forall_mem_cons, List.forall_mem_append] at hgenuine ⊢
  rw [expr, code_joined hjoining] at hcode
  obtain ⟨a, g₁, ha, hrest⟩ := bind_some hcode
  obtain ⟨hrange, rfl, rfl⟩ := hl hgenuine.1 ha
  obtain ⟨b, g₂, hb, hend⟩ := bind_some hrest
  cases hend
  obtain ⟨hrange', rfl, rfl⟩ := hr hgenuine.2.2 hb
  refine ⟨⟨hrange, fun hk => ?_, hrange'⟩, ?_, ?_⟩
  · rw [hk] at hjoining
    cases hjoining
  · rw [code, List.length_append]
  · rw [Phrase.items, List.append_assoc]

theorem planned_assign {name equal : Token} {value : Phrase} (h : value.Planned) (hname : name.kind = .identifier)
    (heq : equal.kind = .equal) : (assign name equal value).Planned := by
  intro items lines g hgenuine hcode
  simp only [tokens, List.forall_mem_cons] at hgenuine ⊢
  rw [expr, Expr.code] at hcode
  split at hcode
  · cases hcode
  · rw [bind_of (PlanM.resolve_script (hgenuine.1.name_ne hname))] at hcode
    obtain ⟨a, g₁, ha, hend⟩ := bind_some hcode
    cases hend
    obtain ⟨hrange, rfl, rfl⟩ := h hgenuine.2.2 ha
    refine ⟨⟨Token.inRange_of_kind hname (by decide), Token.inRange_of_kind heq (by decide), hrange⟩, ?_, ?_⟩
    · rw [code, List.length_append]
      rfl
    · rw [Phrase.items, List.append_assoc, List.singleton_append]

theorem planned_get {object : Phrase} {dot name : Token} (h : object.Planned) (hdot : dot.kind = .dot)
    (hname : name.kind = .identifier) : (get object dot name).Planned := by
  intro items lines g hgenuine hcode
  simp only [tokens, List.forall_mem_append, List.forall_mem_cons] at hgenuine ⊢
  rw [expr, Expr.code] at hcode
  obtain ⟨a, g₁, ha, hrest⟩ := bind_some hcode
  obtain ⟨hrange, rfl, rfl⟩ := h hgenuine.1 ha
  rw [bind_of (PlanM.constant_script (.string name.lexeme))] at hrest
  cases hrest
  refine ⟨⟨hrange, Token.inRange_of_kind hdot (by decide), Token.inRange_of_kind hname (by decide), by rintro _ ⟨⟩⟩,
      ?_, ?_⟩
  · rw [code, List.length_append]
  · rw [Phrase.items, List.append_assoc]

theorem planned_set {object value : Phrase} {dot name equal : Token} (h : object.Planned) (hv : value.Planned)
    (hdot : dot.kind = .dot) (hname : name.kind = .identifier) (heq : equal.kind = .equal) :
    (set object dot name equal value).Planned := by
  intro items lines g hgenuine hcode
  simp only [tokens, List.forall_mem_append, List.forall_mem_cons] at hgenuine ⊢
  rw [expr, Expr.code] at hcode
  obtain ⟨a, g₁, ha, hrest⟩ := bind_some hcode
  obtain ⟨hrange, rfl, rfl⟩ := h hgenuine.1 ha
  rw [bind_of (PlanM.constant_script (.string name.lexeme))] at hrest
  obtain ⟨b, g₂, hb, hend⟩ := bind_some hrest
  cases hend
  obtain ⟨hrange', rfl, rfl⟩ := hv hgenuine.2.2.2.2 hb
  refine ⟨⟨hrange, Token.inRange_of_kind hdot (by decide), Token.inRange_of_kind hname (by decide),
    Token.inRange_of_kind heq (by decide), hrange'⟩, ?_, ?_⟩
  · simp only [code, List.length_append, List.length_singleton]
  · simp [Phrase.items]

theorem code_call {callee : Phrase} {opening closing : Token} {as : Arguments} (h : callee.isGet = false) (k : Nat) :
    (call callee opening as closing).code k = callee.code k ++ as.code (k + callee.items.length) ++
      [.instr .call (.byte as.count)] := by
  cases callee <;> first | rfl | cases h

theorem planned_call {callee : Phrase} {opening closing : Token} {as : Arguments} (h : callee.Planned)
    (has : as.Planned) (hget : callee.isGet = false) (ho : opening.kind = .leftParen)
    (hc : closing.kind = .rightParen) : (call callee opening as closing).Planned := by
  intro items lines g hgenuine hcode
  have hexpr : (call callee opening as closing).expr = .call callee.expr as.exprs := by
    cases callee <;> first | rfl | cases hget
  simp only [tokens, List.forall_mem_append, List.forall_mem_cons] at hgenuine ⊢
  rw [hexpr, Expr.code] at hcode
  obtain ⟨a, g₁, ha, hrest⟩ := bind_some hcode
  obtain ⟨hrange, rfl, rfl⟩ := h hgenuine.1 ha
  obtain ⟨b, g₂, hb, hend⟩ := bind_some hrest
  cases hend
  obtain ⟨hrange', rfl, rfl⟩ := has hgenuine.2.2.1 hb
  refine ⟨⟨hrange, Token.inRange_of_kind ho nofun, hrange', Token.inRange_of_kind hc nofun, nofun⟩, ?_, ?_⟩
  · rw [code_call hget, List.length_append, as.length_exprs]
  · rw [Phrase.items, List.append_assoc]

theorem planned_invoke {object : Phrase} {dot name opening closing : Token} {as : Arguments} (h : object.Planned)
    (has : as.Planned) (hdot : dot.kind = .dot) (hname : name.kind = .identifier) (ho : opening.kind = .leftParen)
    (hc : closing.kind = .rightParen) : (call (get object dot name) opening as closing).Planned := by
  intro items lines g hgenuine hcode
  simp only [tokens, List.forall_mem_append, List.forall_mem_cons] at hgenuine ⊢
  rw [expr, Expr.code] at hcode
  obtain ⟨a, g₁, ha, hrest⟩ := bind_some hcode
  obtain ⟨hrange, rfl, rfl⟩ := h hgenuine.1.1 ha
  rw [bind_of (PlanM.constant_script (.string name.lexeme))] at hrest
  obtain ⟨b, g₂, hb, hend⟩ := bind_some hrest
  cases hend
  obtain ⟨hrange', rfl, rfl⟩ := has hgenuine.2.2.1 hb
  refine ⟨⟨⟨hrange, Token.inRange_of_kind hdot (by decide), Token.inRange_of_kind hname (by decide), by rintro _ ⟨⟩⟩,
    Token.inRange_of_kind ho (by decide), hrange', Token.inRange_of_kind hc (by decide), by rintro _ ⟨⟩⟩, ?_, ?_⟩
  · simp only [code, List.length_append, List.length_singleton, as.length_exprs]
  · simp [Phrase.items]

end Phrase

namespace Arguments

theorem planned_more {e : Phrase} {comma : Token} {as : Arguments} (h : e.Planned) (has : as.Planned)
    (hk : comma.kind = .comma) : (more e comma as).Planned := by
  intro items lines g hgenuine hcode
  simp only [tokens, List.forall_mem_append, List.forall_mem_cons] at hgenuine ⊢
  rw [exprs, Expr.codeOfAll] at hcode
  obtain ⟨a, g₁, ha, hrest⟩ := bind_some hcode
  obtain ⟨hrange, rfl, rfl⟩ := h hgenuine.1 ha
  obtain ⟨b, g₂, hb, hend⟩ := bind_some hrest
  cases hend
  obtain ⟨hrange', rfl, rfl⟩ := has hgenuine.2.2 hb
  refine ⟨⟨hrange, Token.inRange_of_kind hk nofun, hrange'⟩, ?_, ?_⟩
  · rw [code, List.length_append]
  · rw [Arguments.items, List.append_assoc]

theorem planned_last {e : Phrase} (h : e.Planned) : (last e).Planned := by
  intro items lines g hgenuine hcode
  rw [exprs, Expr.codeOfAll] at hcode
  obtain ⟨a, g₁, ha, hrest⟩ := bind_some hcode
  obtain ⟨hrange, rfl, rfl⟩ := h hgenuine ha
  cases hrest
  exact ⟨hrange, List.append_nil _, rfl⟩

theorem planned_none : none.Planned := by
  intro items lines g _ hcode
  cases hcode
  exact ⟨nofun, rfl, by rw [Arguments.items, List.append_nil]⟩

end Arguments

mutual

theorem Phrase.planned : ∀ φ : Phrase, φ.WellFormed → φ.Planned
  | .atom _, h => Phrase.planned_atom h
  | .group _ inner _, ⟨ho, h, hc⟩ => Phrase.planned_group (Phrase.planned inner h) ho hc
  | .call callee opening arguments closing, h => by
    cases callee with
    | get object dot name =>
      obtain ⟨-, ⟨-, h, hdot, hname⟩, ho, hargs, hc⟩ := h
      exact Phrase.planned_invoke (Phrase.planned object h) (Arguments.planned arguments hargs) hdot hname ho hc
    | _ =>
      rw [Phrase.WellFormed] at h
      obtain ⟨-, h, ho, hargs, hc⟩ := h
      exact Phrase.planned_call (Phrase.planned _ h) (Arguments.planned arguments hargs) rfl ho hc
  | .get object _ _, ⟨_, h, hdot, hname⟩ => Phrase.planned_get (Phrase.planned object h) hdot hname
  | .unary _ operand, ⟨ho, _, h⟩ => Phrase.planned_unary (Phrase.planned operand h) ho
  | .binary left _ right, ⟨hjoins, hl, hr⟩ =>
    Phrase.planned_binary (Phrase.planned left hl) (Phrase.planned right hr) hjoins
  | .assign _ _ value, ⟨hname, heq, h⟩ => Phrase.planned_assign (Phrase.planned value h) hname heq
  | .set object _ _ _ value, ⟨_, h, hdot, hname, heq, hv⟩ =>
    Phrase.planned_set (Phrase.planned object h) (Phrase.planned value hv) hdot hname heq

theorem Arguments.planned : ∀ as : Arguments, as.WellFormed → as.Planned
  | .none, _ => Arguments.planned_none
  | .last e, h => Arguments.planned_last (Phrase.planned e h)
  | .more e _ rest, ⟨h, hk, _, hrest⟩ =>
    Arguments.planned_more (Phrase.planned e h) (Arguments.planned rest hrest) hk

end

theorem Phrase.script_of {φ : Phrase} (h : φ.WellFormed) (hgenuine : ∀ t ∈ φ.tokens, t.Genuine) {f : Listing Item}
    (hf : scriptListing [.print φ.expr] = some f) : φ.InRange ∧ f = φ.script := by
  obtain ⟨⟨f', g'⟩, hmake, hend⟩ := Option.bind_eq_some_iff.mp hf
  cases hend
  obtain ⟨_, g₁, hbegin, hrest⟩ := bind_some hmake
  cases hbegin
  obtain ⟨body, g₂, hbody, hfunction⟩ := bind_some hrest
  obtain ⟨a, g₃, ha, hbody⟩ := bind_some hbody
  rw [Stmt.code] at ha
  obtain ⟨l, g₄, hl, hprint⟩ := bind_some ha
  cases hl
  obtain ⟨lines, g₅, hlines, hprint⟩ := bind_some hprint
  cases hprint
  cases hbody
  obtain ⟨hrange, rfl, rfl⟩ := (Phrase.planned φ h : φ.Planned) hgenuine hlines
  cases hfunction
  refine ⟨hrange, ?_⟩
  show (⟨.script, 0, none, [], [], .mark 1 :: φ.code 0 ++ [Line.instr .print .none] ++ [] ++ PlanM.returnCode .script,
    [] ++ φ.items, []⟩ : Listing Item) = _
  rw [List.append_nil, List.nil_append]
  rfl

end Lox

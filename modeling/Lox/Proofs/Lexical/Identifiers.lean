import Lox.Proofs.Grammar.Trees
import Lox.Proofs.Source.Scan

namespace Lox

mutual

@[simp]
def Expr.Named : Expr → Prop
  | .nil | .true_ | .false_ | .number _ | .string _ | .this_ | .super_ _ => True
  | .variable_ name => IsIdentifier name
  | .assign name value => IsIdentifier name ∧ value.Named
  | .unary _ e | .get e _ => e.Named
  | .binary _ a b | .and_ a b | .or_ a b | .set a _ b => a.Named ∧ b.Named
  | .call e arguments | .invoke e _ arguments => e.Named ∧ NamedAll arguments
  | .superInvoke _ arguments => NamedAll arguments

@[simp]
def Expr.NamedAll : List Expr → Prop
  | [] => True
  | e :: es => e.Named ∧ NamedAll es

end

mutual

@[simp]
def Stmt.Named : Stmt → Prop
  | .skip => True
  | .expression e | .print e => e.Named
  | .return_ value => ∀ e ∈ value, e.Named
  | .if_ condition then_ else_ => condition.Named ∧ then_.Named ∧ else_.Named
  | .while_ condition body => condition.Named ∧ body.Named
  | .for_ initializer condition increment body => initializer.Named ∧ (∀ e ∈ condition, e.Named) ∧
      (∀ e ∈ increment, e.Named) ∧ body.Named
  | .block body => NamedAll body
  | .var_ name value => IsIdentifier name ∧ ∀ e ∈ value, e.Named
  | .fun_ f => IsIdentifier f.name ∧ NamedFunction f
  | .class_ name superclass methods => IsIdentifier name ∧ (∀ s ∈ superclass, IsIdentifier s) ∧
      NamedFunctions methods

@[simp]
def Stmt.NamedAll : List Stmt → Prop
  | [] => True
  | s :: ss => s.Named ∧ NamedAll ss

@[simp]
def Stmt.NamedFunction : Lambda Stmt → Prop
  | ⟨_, parameters, body⟩ => (∀ p ∈ parameters, IsIdentifier p) ∧ NamedAll body

@[simp]
def Stmt.NamedFunctions : List (Lambda Stmt) → Prop
  | [] => True
  | f :: fs => NamedFunction f ∧ NamedFunctions fs

end

namespace Parser

def Keeps {α : Type} (p : Parser α) (P : α → Prop) : Prop :=
  ∀ ts a ts', (∀ t ∈ ts, t.Genuine) → p ts = some (a, ts') → P a ∧ ∀ t ∈ ts', t.Genuine

section

variable {α β : Type} {p q : Parser α} {P M : α → Prop} {Q : β → Prop} {k : TokenKind}

namespace Keeps

theorem bind {f : α → Parser β} (hp : p.Keeps M) (hf : ∀ a, M a → (f a).Keeps Q) :
    (p >>= f).Keeps Q := by
  intro ts b ts₂ hts h
  obtain ⟨a, ts₁, ha, hb⟩ := bind_some h
  obtain ⟨hM, hts₁⟩ := hp ts a ts₁ hts ha
  exact hf a hM ts₁ b ts₂ hts₁ hb

theorem pure {a : α} (h : P a) : (Pure.pure a : Parser α).Keeps P := by
  intro ts b ts' hts hb
  cases hb
  exact ⟨h, hts⟩

theorem failure : (Alternative.failure : Parser α).Keeps P :=
  fun _ _ _ _ h => nomatch h

theorem ite {c : Prop} [Decidable c] (hp : p.Keeps P) (hq : q.Keeps P) :
    (if c then p else q).Keeps P := by
  split
  · exact hp
  · exact hq

theorem map {f : α → β} (hp : p.Keeps P) (hf : ∀ a, P a → Q (f a)) : (f <$> p).Keeps Q :=
  .bind hp fun a ha => .pure (hf a ha)

theorem join {c : Prop} [Decidable c] {f : α → Parser β} (hp : p.Keeps P) (hq : q.Keeps P)
    (hf : ∀ a, P a → (f a).Keeps Q) : (if c then p >>= f else q >>= f).Keeps Q :=
  .ite (.bind hp hf) (.bind hq hf)

end Keeps

theorem keeps_peek : peek.Keeps fun _ => True := by
  intro ts t ts' hts h
  unfold peek at h
  split at h
  · cases h
    exact ⟨trivial, hts⟩
  · cases h

theorem keeps_next : next.Keeps Token.Genuine := by
  intro ts t ts' hts h
  unfold next at h
  split at h
  · cases h
    exact ⟨hts _ (.head _), fun u hu => hts u (.tail _ hu)⟩
  · cases h

theorem keeps_check : (check k).Keeps fun _ => True :=
  .bind keeps_peek fun _ _ => .pure trivial

theorem keeps_accept : (accept k).Keeps fun _ => True :=
  .bind keeps_check fun _ _ => .ite (.bind keeps_next fun _ _ => .pure trivial) (.pure trivial)

theorem keeps_assigns {canAssign : Bool} : (Pure.pure canAssign <&&> accept k).Keeps fun _ => True := by
  cases canAssign with
  | true => exact keeps_accept
  | false => exact .pure trivial

theorem keeps_expect : (expect k).Keeps fun _ => True :=
  .bind keeps_check fun _ _ => .ite (fun ts t ts' hts h => ⟨trivial, (keeps_next ts t ts' hts h).2⟩) .failure

theorem keeps_identifier : (expect .identifier).Keeps fun t => IsIdentifier t.lexeme := by
  intro ts t ts' hts h
  obtain ⟨rfl, hkind⟩ := expect_some h
  exact ⟨(hts t (.head _)).identifier hkind, fun u hu => hts u (.tail _ hu)⟩

end

structure Parts.Named (parts : Parts) : Prop where
  expression : ∀ n, (parts.expression n).Keeps Expr.Named
  statement : parts.statement.Keeps Stmt.Named
  declaration : parts.declaration.Keeps Stmt.Named

section

variable {parts : Parts} (hparts : parts.Named) (n : Nat)

include hparts

theorem keeps_expression : (expression parts).Keeps Expr.Named :=
  hparts.expression _

theorem keeps_variable {name : Bytes} (hname : IsIdentifier name) (canAssign : Bool) :
    (variable_ parts name canAssign).Keeps Expr.Named :=
  .bind keeps_assigns fun _ _ =>
    .ite (.bind (keeps_expression hparts) fun _ he => .pure ⟨hname, he⟩) (.pure hname)

theorem keeps_argumentsFrom (fuel : Nat) : (argumentsFrom parts fuel).Keeps Expr.NamedAll := by
  induction fuel with
  | zero => exact .failure
  | succ fuel ih =>
    refine .bind (keeps_expression hparts) fun e he => .bind keeps_accept fun _ _ => .ite ?_ ?_
    · exact .bind ih fun es hes => .pure ⟨he, hes⟩
    · exact .pure ⟨he, trivial⟩

theorem keeps_argumentList : (argumentList parts n).Keeps Expr.NamedAll := by
  refine .bind keeps_check fun _ _ => .join (P := Expr.NamedAll) (.pure trivial)
    (keeps_argumentsFrom hparts n) fun es hes => ?_
  exact .bind keeps_expect fun _ _ => .pure hes

theorem keeps_dot {object : Expr} (hobject : object.Named) (canAssign : Bool) :
    (dot parts n object canAssign).Keeps Expr.Named := by
  refine .bind keeps_expect fun t _ => .bind keeps_assigns fun _ _ => .ite ?_ ?_
  · exact .bind (keeps_expression hparts) fun _ he => .pure ⟨hobject, he⟩
  · refine .bind keeps_accept fun _ _ => .ite ?_ (.pure hobject)
    exact .bind (keeps_argumentList hparts n) fun _ hes => .pure ⟨hobject, hes⟩

theorem keeps_super : (super_ parts n).Keeps Expr.Named := by
  refine .bind keeps_expect fun _ _ => .bind keeps_expect fun t _ => .bind keeps_accept fun _ _ => .ite ?_ ?_
  · exact .bind (keeps_argumentList hparts n) fun _ hes => .pure hes
  · exact .pure trivial

theorem keeps_operand (canAssign : Bool) {t : Token} (ht : t.Genuine) :
    (operand parts n canAssign t).Keeps Expr.Named := by
  unfold operand
  split
  · exact .bind (keeps_expression hparts) fun _ he => .bind keeps_expect fun _ _ => .pure he
  · exact .bind (hparts.expression _) fun _ he => .pure he
  · exact .bind (hparts.expression _) fun _ he => .pure he
  · rename_i hkind
    exact keeps_variable hparts (ht.identifier hkind) canAssign
  · exact .pure trivial
  · exact .pure trivial
  · exact .pure trivial
  · exact .pure trivial
  · exact .pure trivial
  · exact keeps_super hparts n
  · exact .pure trivial
  · exact .failure

theorem keeps_operation (canAssign : Bool) {e : Expr} (he : e.Named) (k : TokenKind) :
    (operation parts n canAssign e k).Keeps Expr.Named := by
  unfold operation
  split
  · exact .bind (keeps_argumentList hparts n) fun _ hes => .pure ⟨he, hes⟩
  · exact keeps_dot hparts n he canAssign
  · exact .bind (hparts.expression _) fun _ hright => .pure ⟨he, hright⟩
  · exact .bind (hparts.expression _) fun _ hright => .pure ⟨he, hright⟩
  · refine .bind (hparts.expression _) fun _ hright => ?_
    split
    · exact .pure ⟨he, hright⟩
    · exact .failure

theorem keeps_operations (precedence : Nat) (canAssign : Bool) (fuel : Nat) {e : Expr} (he : e.Named) :
    (operations parts n precedence canAssign fuel e).Keeps Expr.Named := by
  induction fuel generalizing e with
  | zero => exact .failure
  | succ fuel ih =>
    refine .bind keeps_peek fun _ _ => .ite ?_ (.pure he)
    exact .bind keeps_next fun t _ => .bind (keeps_operation hparts n canAssign he t.kind) fun _ he' => ih he'

theorem keeps_parsePrecedence (precedence : Nat) : (parsePrecedence parts n precedence).Keeps Expr.Named := by
  refine .bind keeps_next fun t ht => .bind (keeps_operand hparts n _ ht) fun e he => ?_
  refine .bind (keeps_operations hparts n precedence _ n he) fun e' he' => .bind (M := fun _ => True) ?_
    fun _ _ => .ite .failure (.pure he')
  by_cases hassign : precedence ≤ Precedence.assignment
  · rw [decide_eq_true hassign]
    exact keeps_check
  · rw [decide_eq_false hassign]
    exact .pure trivial

theorem keeps_declarations (fuel : Nat) : (declarations parts fuel).Keeps Stmt.NamedAll := by
  induction fuel with
  | zero => exact .failure
  | succ fuel ih =>
    refine .bind (M := fun _ => True) (.bind keeps_check fun b _ => ?_) fun _ _ => .ite (.pure trivial) ?_
    · cases b with
      | true => exact .pure trivial
      | false => exact keeps_check
    · exact .bind hparts.declaration fun s hs => .bind ih fun ss hss => .pure ⟨hs, hss⟩

theorem keeps_block : (block parts n).Keeps Stmt.NamedAll :=
  .bind (keeps_declarations hparts n) fun _ hbody => .bind keeps_expect fun _ _ => .pure hbody

theorem keeps_clause (k : TokenKind) : (clause parts k).Keeps Expr.Named :=
  .bind (keeps_expression hparts) fun _ he => .bind keeps_expect fun _ _ => .pure he

theorem keeps_clause? (k : TokenKind) : (clause? parts k).Keeps fun e => ∀ a ∈ e, a.Named := by
  refine .bind keeps_accept fun _ _ => .ite (.pure nofun) (.bind (keeps_clause hparts k) fun e he => .pure ?_)
  intro a ha
  cases ha
  exact he

theorem keeps_returnStatement : (returnStatement parts).Keeps Stmt.Named := by
  refine .bind keeps_accept fun _ _ => .ite (.pure ?_) (.bind (keeps_clause hparts _) fun e he => .pure ?_)
  · rw [Stmt.Named]
    exact nofun
  · rw [Stmt.Named]
    intro a ha
    cases ha
    exact he

theorem keeps_ifStatement : (ifStatement parts).Keeps Stmt.Named := by
  refine .bind keeps_expect fun _ _ => .bind (keeps_clause hparts _) fun e he => ?_
  refine .bind hparts.statement fun s hs => .bind keeps_accept fun _ _ => .ite ?_ (.pure ?_)
  · refine .bind hparts.statement fun s' hs' => .pure ?_
    rw [Stmt.Named]
    exact ⟨he, hs, hs'⟩
  · rw [Stmt.Named, Stmt.Named]
    exact ⟨he, hs, trivial⟩

theorem keeps_whileStatement : (whileStatement parts).Keeps Stmt.Named := by
  refine .bind keeps_expect fun _ _ => .bind (keeps_clause hparts _) fun e he => ?_
  refine .bind hparts.statement fun s hs => .pure ?_
  rw [Stmt.Named]
  exact ⟨he, hs⟩

theorem keeps_varDeclaration : (varDeclaration parts).Keeps Stmt.Named := by
  have hsome : (some <$> expression parts).Keeps fun value => ∀ e ∈ value, e.Named :=
    .map (keeps_expression hparts) fun e he a ha => Option.some.inj ha ▸ he
  refine .bind keeps_identifier fun t ht => .bind keeps_accept fun _ _ =>
    .join hsome (.pure nofun) fun value hvalue => .bind keeps_expect fun _ _ => .pure ?_
  rw [Stmt.Named]
  exact ⟨ht, hvalue⟩

theorem keeps_forInitializer : (forInitializer parts).Keeps Stmt.Named := by
  refine .bind keeps_accept fun _ _ => .ite (.pure ?_) (.bind keeps_accept fun _ _ =>
    .ite (keeps_varDeclaration hparts) (.bind (keeps_clause hparts _) fun e he => .pure ?_))
  · rw [Stmt.Named]
    trivial
  · rw [Stmt.Named]
    exact he

theorem keeps_forStatement : (forStatement parts).Keeps Stmt.Named := by
  refine .bind keeps_expect fun _ _ => .bind (keeps_forInitializer hparts) fun i hi => ?_
  refine .bind (keeps_clause? hparts _) fun c hc => .bind (keeps_clause? hparts _) fun d hd => ?_
  refine .bind hparts.statement fun s hs => .pure ?_
  rw [Stmt.Named]
  exact ⟨hi, hc, hd, hs⟩

theorem keeps_statement : (statement parts n).Keeps Stmt.Named := by
  have hexpression {k : TokenKind} {make : Expr → Stmt} (hmake : ∀ e, e.Named → (make e).Named) :
      (do return make (← clause parts k)).Keeps Stmt.Named :=
    .bind (keeps_clause hparts k) fun e he => .pure (hmake e he)
  refine .bind keeps_accept fun _ _ => .ite (hexpression fun e he => by rwa [Stmt.Named]) ?_
  refine .bind keeps_accept fun _ _ => .ite (keeps_forStatement hparts) ?_
  refine .bind keeps_accept fun _ _ => .ite (keeps_ifStatement hparts) ?_
  refine .bind keeps_accept fun _ _ => .ite (keeps_returnStatement hparts) ?_
  refine .bind keeps_accept fun _ _ => .ite (keeps_whileStatement hparts) ?_
  refine .bind keeps_accept fun _ _ => .ite ?_ (hexpression fun e he => by rwa [Stmt.Named])
  refine .bind (keeps_block hparts n) fun body hbody => .pure ?_
  rwa [Stmt.Named]

omit hparts in
theorem keeps_parameters (fuel : Nat) : (parameters fuel).Keeps fun ps => ∀ p ∈ ps, IsIdentifier p := by
  induction fuel with
  | zero => exact .failure
  | succ fuel ih =>
    refine .bind keeps_identifier fun t ht => .bind keeps_accept fun _ _ => .ite ?_ ?_
    · exact .bind ih fun ps hps => .pure (List.forall_mem_cons.mpr ⟨ht, hps⟩)
    · exact .pure (List.forall_mem_singleton.mpr ht)

theorem keeps_lambda (name : Bytes) : (lambda parts n name).Keeps fun f =>
    f.name = name ∧ Stmt.NamedFunction f := by
  refine .bind keeps_expect fun _ _ => .bind keeps_check fun _ _ => .join
    (P := fun ps => ∀ p ∈ ps, IsIdentifier p) (.pure nofun) (keeps_parameters n) fun ps hps => ?_
  refine .bind keeps_expect fun _ _ => .bind keeps_expect fun _ _ => ?_
  refine .bind (keeps_block hparts n) fun body hbody => .pure ⟨rfl, ?_⟩
  rw [Stmt.NamedFunction]
  exact ⟨hps, hbody⟩

theorem keeps_methods (fuel : Nat) : (methods parts n fuel).Keeps Stmt.NamedFunctions := by
  induction fuel with
  | zero => exact .failure
  | succ fuel ih =>
    refine .bind (M := fun _ => True) (.bind keeps_check fun b _ => ?_) fun _ _ => .ite (.pure ?_) ?_
    · cases b with
      | true => exact .pure trivial
      | false => exact keeps_check
    · rw [Stmt.NamedFunctions]
      trivial
    · refine .bind keeps_expect fun t _ => .bind (keeps_lambda hparts n _) fun f hf => ?_
      refine .bind ih fun fs hfs => .pure ?_
      rw [Stmt.NamedFunctions]
      exact ⟨hf.2, hfs⟩

theorem keeps_classDeclaration : (classDeclaration parts n).Keeps Stmt.Named := by
  have hsome : ((fun t => some t.lexeme) <$> expect .identifier).Keeps fun s => ∀ a ∈ s, IsIdentifier a :=
    .map keeps_identifier fun t ht a ha => Option.some.inj ha ▸ ht
  refine .bind keeps_identifier fun t ht => .bind keeps_accept fun _ _ =>
    .join hsome (.pure nofun) fun superclass hsuper => ?_
  refine .bind keeps_expect fun _ _ => .bind (keeps_methods hparts n n) fun ms hms => ?_
  refine .bind keeps_expect fun _ _ => .pure ?_
  rw [Stmt.Named]
  exact ⟨ht, hsuper, hms⟩

theorem keeps_funDeclaration : (funDeclaration parts n).Keeps Stmt.Named := by
  refine .bind keeps_identifier fun t ht => .bind (keeps_lambda hparts n _) fun f hf => .pure ?_
  rw [Stmt.Named, hf.1]
  exact ⟨ht, hf.2⟩

theorem keeps_declaration : (declaration parts n).Keeps Stmt.Named := by
  refine .bind keeps_accept fun _ _ => .ite (keeps_classDeclaration hparts n) ?_
  refine .bind keeps_accept fun _ _ => .ite (keeps_funDeclaration hparts n) ?_
  exact .bind keeps_accept fun _ _ => .ite (keeps_varDeclaration hparts) hparts.statement

theorem keeps_script (fuel : Nat) : (script parts fuel).Keeps Stmt.NamedAll := by
  induction fuel with
  | zero => exact .failure
  | succ fuel ih =>
    refine .bind keeps_check fun _ _ => .ite (.pure trivial) ?_
    exact .bind hparts.declaration fun s hs => .bind ih fun ss hss => .pure ⟨hs, hss⟩

end

theorem named_upTo (n : Nat) : (upTo n).Named := by
  induction n with
  | zero => exact ⟨fun _ => .failure, .failure, .failure⟩
  | succ n ih => exact ⟨keeps_parsePrecedence ih n, keeps_statement ih n, keeps_declaration ih n⟩

end Parser

theorem named_of_parse? {source : Bytes} {body : List Stmt} (h : parse? (Token.scan source) = some body) :
    Stmt.NamedAll body := by
  obtain ⟨⟨body', ts⟩, hscript, rfl⟩ := Option.map_eq_some_iff.mp h
  exact (Parser.keeps_script (Parser.named_upTo _) _ _ _ _
    (fun t ht => (Token.stream_scan source).genuine_of_mem t ht) hscript).1

end Lox

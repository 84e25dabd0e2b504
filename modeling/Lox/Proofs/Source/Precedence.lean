import Lox.Proofs.Source.Expressions

namespace Lox.CompileM

open Compiler

variable {parse : Goal → CompileM Unit} {parts : Parser.Parts} {n : Nat} {c : Compiler} {prev : Token}
  {ts : List Token} {g : Plan} {code : List UInt8} {codes : List (List UInt8)}

theorem accepts_or (hf : Tracks parse parts n) (e : Expr) (h : At c prev ts g (code :: codes))
    (hn : 4 * ts.length ≤ n) : Accepts (or_ parse) c fun _ =>
      Produces 0 (do return .or_ e (← parts.expression Precedence.or_)) (Completes e) ts g code codes := by
  have := hf.sketches
  refine .bind (accepts_emitJump .jumpIfFalse h) fun elseJump c₁ ⟨helse, h₁⟩ => ?_
  refine .bind (accepts_emitJump .jump h₁) fun endJump c₂ ⟨hend, h₂⟩ => ?_
  rw [List.append_assoc, List.cons_append, List.cons_append, List.cons_append, List.nil_append] at h₂
  refine .bind (accepts_patchJump helse h₂) fun _ c₃ ⟨_, h₃⟩ => ?_
  refine .bind (accepts_emit .pop h₃) fun _ c₄ h₄ => ?_
  refine .bind (hf.expression (by decide) h₄ hn)
    fun _ c₅ ⟨r, ts₅, a, g₅, prev₅, hp₅, hlen₅, hg₅, hfits, h₅⟩ => ?_
  have h₅' := h₅.recode (by simp : _ = (code ++ Code.bytes [Line.instr .jumpIfFalse (.short 3)]) ++
    Opcode.jump.toByte :: 0xff :: 0xff :: Code.bytes ([Line.instr .pop .none] ++ a))
  refine (accepts_patchJump (by simp [hend, Line.bytes, Operand.bytes]) h₅').weaken
    fun _ c₆ ⟨hfar, h₆⟩ => ?_
  rw [Code.length_bytes] at hfar h₆
  refine ⟨.or_ e r, ts₅, [Line.instr .jumpIfFalse (.short 3), Line.instr .jump (.short (1 + Code.size a)),
    Line.instr .pop .none] ++ a, g₅, prev₅, ?_, by omega, ?_, ?_, h₆.recode ?_⟩
  · rw [bind_of hp₅]
    rfl
  · intro g₀ l hl
    rw [Expr.code, bind_of hl, bind_of hg₅, ← List.append_assoc]
    rfl
  · refine .append (Code.fits_cons ?_ (Code.fits_cons hfar (Code.fits_plain _))) hfits
    show 3 < 65536
    decide
  · simp [Line.size, Operand.size]

theorem accepts_this (hprev : prev.lexeme = "this") (h : At c prev ts g (code :: codes)) :
    Accepts (this_ parse) c fun _ => Produces 0 (return .this_) (Made Expr.code) ts g code codes := by
  refine .read (rfl : (get : CompileM Compiler) c = (c, c)) ?_
  by_cases hcls : c.classes.isEmpty = true
  · rw [if_pos hcls]
    exact accepts_problem h.calm
  · rw [if_neg hcls]
    refine .read (run_lexeme h) ?_
    rw [hprev]
    refine (accepts_read "this" h).weaken fun _ c₁ ⟨place, g₁, hg₁, hfits, h₁⟩ => ?_
    refine ⟨.this_, ts, [place.read], g₁, prev, rfl, Nat.le_refl _, ?_, hfits, h₁⟩
    rw [h.classes] at hcls
    show Expr.code _ g = _
    have hread : PlanM.classes g = some (g.classes, g) := rfl
    rw [Expr.code, bind_of hread, if_neg hcls, bind_of hg₁]
    rfl

theorem accepts_superMethod (hf : Tracks parse parts n) (name : Bytes) {k : Nat} {g₀ : Plan}
    (hcls : g₀.classes.head? = some true) (hk : PlanM.constant (.string name) g₀ = some (k, g))
    (hlt : k < 256) (h : At c prev ts g (code :: codes)) (hn : 4 * ts.length ≤ n) :
    Accepts (superMethod parse n k.toUInt8) c fun _ => Produces 0 (do
      if ← Parser.accept .leftParen then return .superInvoke name (← Parser.argumentList parts n)
      else return .super_ name) (fun e _ lines g' => Expr.code e g₀ = some (lines, g')) ts g code codes := by
  have := hf.sketches
  have hread : PlanM.classes g₀ = some (g₀.classes, g₀) := rfl
  refine .bind (accepts_read "this" h) ?_
  rintro _ c₁ ⟨this, g₁, hg₁, hfits₁, h₁⟩
  refine .bind (accepts_accept h₁ (by decide)) fun b c₂ hb => ?_
  rcases hb with ⟨rfl, t, ts₂, rfl, -, h₂, hp₂, -⟩ | ⟨rfl, rfl, hp₂, -⟩
  · simp only [if_true]
    rw [List.length_cons] at hn
    refine .bind (accepts_argumentList hf h₂ (by omega)) ?_
    rintro b c₃ ⟨es, ts₃, a, g₃, prev₃, hp₃, hlen₃, hb, hargs, hg₃, hfits₃, h₃⟩
    subst hb
    refine .bind (accepts_read "super" h₃) ?_
    rintro _ c₄ ⟨superclass, g₄, hg₄, hfits₄, h₄⟩
    refine .bind (accepts_emitWith .superInvoke k h₄) fun _ c₅ h₅ => ?_
    refine (accepts_emitByte _ h₅).weaken fun _ c₆ h₆ => ?_
    refine ⟨.superInvoke name es, ts₃,
      this.read :: a ++ [superclass.read, .instr .superInvoke (.pair k es.length)], g₄, prev₃, ?_, ?_, ?_,
      .append (Code.fits_cons (hfits₁ _ (by simp)) hfits₃)
        (hfits₄.append (Code.fits_pair _ hlt hargs)), h₆.recode ?_⟩
    · rw [bind_of hp₂]
      simp only [if_true]
      rw [bind_of hp₃]
      rfl
    · rw [List.length_cons]
      omega
    · show Expr.code _ g₀ = _
      rw [Expr.code, bind_of hread, if_pos hcls, bind_of hk, bind_of hg₁, bind_of hg₃, bind_of hg₄]
      rfl
    · simp [Line.bytes, Operand.bytes]
  · simp only [Bool.false_eq_true, if_false]
    refine .bind (accepts_read "super" h₁) ?_
    rintro _ c₄ ⟨superclass, g₄, hg₄, hfits₄, h₄⟩
    refine (accepts_emitWith .getSuper k h₄).weaken fun _ c₅ h₅ => ?_
    refine ⟨.super_ name, ts, [this.read, superclass.read, .instr .getSuper (.byte k)], g₄, prev, ?_,
      Nat.le_refl _, ?_, hfits₁.append (hfits₄.append (Code.fits_byte _ hlt)), h₅.recode (by simp)⟩
    · rw [bind_of hp₂]
      rfl
    · show Expr.code _ g₀ = _
      rw [Expr.code, bind_of hread, if_pos hcls, bind_of hk, bind_of hg₁, bind_of hg₄]
      rfl

theorem accepts_super (hf : Tracks parse parts n) (h : At c prev ts g (code :: codes))
    (hn : 4 * ts.length ≤ n) : Accepts (super_ parse n) c fun _ =>
      Produces 0 (Parser.super_ parts n) (Made Expr.code) ts g code codes := by
  have := hf.sketches
  have hclasses := h.classes
  refine .read (rfl : (get : CompileM Compiler) c = (c, c)) ?_
  cases hcls : c.classes with
  | nil => exact accepts_problem_bind h.calm
  | cons b rest =>
    cases b with
    | false => exact accepts_problem_bind h.calm
    | true =>
      refine .bind (accepts_consume h (by nofun)) fun _ c₁ ⟨t, ts₁, hts, _, h₁, hp₁⟩ => ?_
      refine .bind (accepts_consume h₁ (by nofun)) fun _ c₂ ⟨u, ts₂, hts', _, h₂, hp₂⟩ => ?_
      refine .read (run_lexeme h₂) ?_
      refine .bind (accepts_nameConstant u.lexeme h₂) fun b c₃ ⟨k, g₃, hg₃, hk, hb, h₃⟩ => ?_
      subst hts hts' hb
      simp only [List.length_cons] at hn
      rw [hcls] at hclasses
      refine (accepts_superMethod hf u.lexeme (by rw [← hclasses]; rfl) hg₃ hk h₃ (by omega)).weaken
        fun _ c₄ ⟨e, ts₄, a, g₄, prev₄, hp₄, hlen₄, hg₄, hfits, h₄⟩ => ?_
      refine ⟨e, ts₄, a, g₄, prev₄, ?_, ?_, hg₄, hfits, h₄⟩
      · unfold Parser.super_
        rw [bind_of hp₁, bind_of hp₂]
        exact hp₄
      · simp only [List.length_cons]
        omega

theorem accepts_operand (hf : Tracks parse parts n) (canAssign : Bool) (hprev : prev.Genuine)
    {rule : CompileM Unit} (hrule : prefixRule parse n canAssign prev.kind = some rule)
    (h : At c prev ts g (code :: codes)) (hn : 4 * ts.length ≤ n) : Accepts rule c fun _ =>
      Produces 0 (Parser.operand parts n canAssign prev) (Made Expr.code) ts g code codes := by
  unfold Parser.operand
  cases hkind : prev.kind <;> rw [hkind] at hrule <;> cases hrule
  case leftParen => exact accepts_grouping hf h hn
  case minus => exact accepts_unary hf rfl h hn
  case bang => exact accepts_unary hf rfl h hn
  case identifier => exact accepts_variable hf (hprev.identifier hkind).not_hidden canAssign h hn
  case string => exact accepts_stringLiteral h
  case number => exact accepts_numberLiteral h
  case false_ => exact accepts_atom (by rw [Expr.code]) h
  case nil_ => exact accepts_atom (by rw [Expr.code]) h
  case true_ => exact accepts_atom (by rw [Expr.code]) h
  case super_ => exact accepts_super hf h hn
  case this_ => exact accepts_this (hprev.this hkind) h

theorem accepts_operation (hf : Tracks parse parts n) (canAssign : Bool) (e : Expr) {k : TokenKind}
    (hk : 0 < Precedence.of k) (h : At c prev ts g (code :: codes)) (hn : 4 * ts.length ≤ n) :
    Accepts (infixRule parse n canAssign k) c fun _ =>
      Produces 0 (Parser.operation parts n canAssign e k) (Completes e) ts g code codes := by
  cases k with
  | leftParen => exact accepts_call hf e h hn
  | dot => exact accepts_dot hf e canAssign h hn
  | and_ => exact accepts_and hf e h hn
  | or_ => exact accepts_or hf e h hn
  | minus | plus | slash | star | bangEqual | equalEqual | greater | greaterEqual | less | lessEqual =>
    exact accepts_binary hf e rfl h hn
  | _ => exact absurd hk (by decide)

def operators (parse : Goal → CompileM Unit) (n precedence : Nat) (canAssign : Bool) : CompileM Bool := do
  if precedence ≤ Precedence.of (← get).current.kind then
    advance
    infixRule parse n canAssign (← get).previous.kind
    return true
  else return false

instance [∀ g, Sketches (parse g)] (precedence : Nat) (canAssign : Bool) :
    Sketches (operators parse n precedence canAssign) := by
  unfold operators
  infer_instance

theorem accepts_operators (hf : Tracks parse parts n) {precedence : Nat} (hprec : 0 < precedence)
    (canAssign : Bool) (e : Expr) {t : Token} (h : At c prev (t :: ts) g (code :: codes))
    (hn : 4 * (t :: ts).length ≤ n) :
    Accepts (operators parse n precedence canAssign) c fun b c' =>
      (b = true ∧ precedence ≤ Precedence.of t.kind ∧ Parser.next (t :: ts) = some (t, ts) ∧
        Produces 0 (Parser.operation parts n canAssign e t.kind) (Completes e) ts g code codes c') ∨
      (b = false ∧ ¬precedence ≤ Precedence.of t.kind ∧ c' = c) := by
  have := hf.sketches
  obtain ⟨hcur, -⟩ := List.cons.inj h.tokens
  refine .read (rfl : (get : CompileM Compiler) c = (c, c)) ?_
  rw [hcur]
  by_cases hop : precedence ≤ Precedence.of t.kind
  · rw [if_pos hop]
    obtain _ | ⟨u, rest⟩ := ts
    · have heof : t.kind = .eof := h.stream
      rw [heof] at hop
      exact absurd hprec (Nat.not_lt.mpr hop)
    · refine .bind (accepts_advance_more h) fun _ c₁ h₁ => ?_
      refine .read (rfl : (get : CompileM Compiler) c₁ = (c₁, c₁)) ?_
      rw [h₁.previous]
      simp only [List.length_cons] at hn
      refine .bind (accepts_operation hf canAssign e (Nat.lt_of_lt_of_le hprec hop) h₁
        (by simp only [List.length_cons]; omega)) fun _ c₂ hprod => ?_
      exact .pure (.inl ⟨rfl, hop, rfl, hprod⟩)
  · rw [if_neg hop]
    exact .pure (.inr ⟨rfl, hop, rfl⟩)

theorem accepts_operations (hf : Tracks parse parts n) {precedence : Nat} (hprec : 0 < precedence)
    (canAssign : Bool) (fuel : Nat) (hfuel : ts.length ≤ fuel) {e : Expr} {lines : List Line} {g₀ : Plan}
    (he : e.code g₀ = some (lines, g)) (h : At c prev ts g (code :: codes)) (hn : 4 * ts.length ≤ n) :
    Accepts (loop fuel (operators parse n precedence canAssign)) c fun _ =>
      Produces 0 (Parser.operations parts n precedence canAssign fuel e)
        (fun e' _ lines' g' => e'.code g₀ = some (lines ++ lines', g')) ts g code codes := by
  have := hf.sketches
  induction fuel generalizing e lines c prev ts g code with
  | zero =>
    obtain _ | ⟨t, ts⟩ := ts
    · exact h.stream.elim
    · simp at hfuel
  | succ fuel ih =>
    obtain _ | ⟨t, rest⟩ := ts
    · exact h.stream.elim
    have hpeek : Parser.peek (t :: rest) = some (t, t :: rest) := rfl
    unfold loop
    refine .bind (accepts_operators hf hprec canAssign e h hn) fun b c₁ hb => ?_
    rcases hb with
      ⟨rfl, hop, hnext, e₁, ts₁, a, g₁, prev₁, hp₁, hlen₁, hg₁, hfits₁, h₁⟩ | ⟨rfl, hop, rfl⟩
    · rw [List.length_cons] at hfuel hn
      refine (ih (by omega) (hg₁ g₀ lines he) h₁ (by omega)).weaken
        fun _ c₂ ⟨e₂, ts₂, b, g₂, prev₂, hp₂, hlen₂, hg₂, hfits₂, h₂⟩ => ?_
      refine ⟨e₂, ts₂, a ++ b, g₂, prev₂, ?_, ?_, ?_, hfits₁.append hfits₂, h₂.recode (by simp)⟩
      · unfold Parser.operations
        rw [bind_of hpeek, if_pos hop, bind_of hnext, bind_of hp₁]
        exact hp₂
      · rw [List.length_cons]
        omega
      · show Expr.code _ g₀ = some (lines ++ (a ++ b), g₂)
        rw [← List.append_assoc]
        exact hg₂
    · refine .pure ⟨e, t :: rest, [], g, prev, ?_, Nat.le_refl _, ?_, Code.fits_nil, h.recode (by simp)⟩
      · unfold Parser.operations
        rw [bind_of hpeek, if_neg hop]
        rfl
      · show Expr.code _ g₀ = some (lines ++ [], g)
        rw [List.append_nil]
        exact he

theorem accepts_target (canAssign : Bool) (h : At c prev ts g (code :: codes)) :
    Accepts (do if ← pure canAssign <&&> accept .equal then problem .assignmentTarget) c fun _ c' =>
      c' = c ∧ (pure canAssign <&&> Parser.check .equal) ts = some (false, ts) := by
  cases canAssign with
  | false => exact .pure ⟨rfl, rfl⟩
  | true =>
    obtain _ | ⟨t, rest⟩ := ts
    · exact h.stream.elim
    obtain ⟨-, hpcheck⟩ := run_check (k := .equal) h
    refine .bind (accepts_accept h (by nofun)) fun b c₁ hb => ?_
    rcases hb with ⟨rfl, t₁, ts₁, hts, -, h₁, -⟩ | ⟨rfl, rfl, hne, -⟩
    · exact accepts_problem h₁.calm
    · refine .pure ⟨rfl, ?_⟩
      by_cases hkind : t.kind = .equal
      · rw [decide_eq_true hkind] at hpcheck
        unfold Parser.accept at hne
        rw [bind_of hpcheck] at hne
        cases rest <;> cases hne
      · rw [decide_eq_false hkind] at hpcheck
        exact hpcheck

def afterToken (parse : Goal → CompileM Unit) (n precedence : Nat) (canAssign : Bool) (k : TokenKind) :
    CompileM Unit :=
  match prefixRule parse n canAssign k with
  | none => problem (.expected "expression")
  | some rule => do
    rule
    loop n (operators parse n precedence canAssign)
    if ← pure canAssign <&&> accept .equal then problem .assignmentTarget

instance [∀ g, Sketches (parse g)] (precedence : Nat) (canAssign : Bool) (k : TokenKind) :
    Sketches (afterToken parse n precedence canAssign k) := by
  unfold afterToken
  split
  · infer_instance
  · rename_i rule hrule
    have := sketches_prefixRule parse n hrule
    infer_instance

theorem parsePrecedence_eq (parse : Goal → CompileM Unit) (n precedence : Nat) :
    parsePrecedence parse n precedence = (do
      advance
      let c ← get
      afterToken parse n precedence (decide (precedence ≤ Precedence.assignment)) c.previous.kind) :=
  rfl

theorem accepts_parsePrecedence (hf : Tracks parse parts n) {precedence : Nat} (hprec : 0 < precedence)
    (h : At c prev ts g (code :: codes)) (hn : 4 * ts.length ≤ n + 1) :
    Accepts (parsePrecedence parse n precedence) c fun _ =>
      Produces 1 (Parser.parsePrecedence parts n precedence) (Made Expr.code) ts g code codes := by
  have := hf.sketches
  rw [parsePrecedence_eq]
  unfold Parser.parsePrecedence
  generalize decide (precedence ≤ Precedence.assignment) = canAssign
  obtain _ | ⟨t, _ | ⟨u, rest⟩⟩ := ts
  · exact h.stream.elim
  · refine .bind (accepts_advance_end h) fun _ c₁ h₁ => ?_
    refine .read (rfl : (get : CompileM Compiler) c₁ = (c₁, c₁)) ?_
    have heof : t.kind = .eof := h.stream
    rw [h₁.previous, heof]
    exact accepts_problem h₁.calm
  · rw [List.length_cons] at hn
    refine .bind (accepts_advance_more h) fun _ c₁ h₁ => ?_
    refine .read (rfl : (get : CompileM Compiler) c₁ = (c₁, c₁)) ?_
    rw [h₁.previous]
    unfold afterToken
    cases hrule : prefixRule parse n canAssign t.kind with
    | none => exact accepts_problem h₁.calm
    | some rule =>
      have := sketches_prefixRule parse n hrule
      refine .bind (accepts_operand hf canAssign h.stream.genuine hrule h₁ (by omega))
        fun _ c₂ ⟨e₂, ts₂, a, g₂, prev₂, hp₂, hlen₂, hg₂, hfits₂, h₂⟩ => ?_
      refine .bind (accepts_operations hf hprec canAssign n (by omega) hg₂ h₂ (by omega))
        fun _ c₃ ⟨e₃, ts₃, b, g₃, prev₃, hp₃, hlen₃, hg₃, hfits₃, h₃⟩ => ?_
      refine (accepts_target canAssign h₃).weaken fun _ c₄ ⟨hc, htarget⟩ => ?_
      subst hc
      refine ⟨e₃, ts₃, a ++ b, g₃, prev₃, ?_, ?_, hg₃, hfits₂.append hfits₃, h₃.recode (by simp)⟩
      · have hnext : Parser.next (t :: u :: rest) = some (t, u :: rest) := rfl
        rw [bind_of hnext, bind_of hp₂, bind_of hp₃, bind_of htarget]
        rfl
      · rw [List.length_cons]
        omega

end Lox.CompileM

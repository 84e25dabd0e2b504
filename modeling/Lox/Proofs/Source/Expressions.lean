import Lox.Proofs.Source.Names

namespace Lox

def Produces {X : Type} (taken : Nat) (read : Parser X) (gen : X → Plan → List Line → Plan → Prop)
    (ts : List Token) (g : Plan) (code : List UInt8) (codes : List (List UInt8)) (c' : Compiler) : Prop :=
  ∃ x ts' lines g' prev', read ts = some (x, ts') ∧ ts'.length + taken ≤ ts.length ∧
    gen x g lines g' ∧ Code.Fits lines ∧ At c' prev' ts' g' ((code ++ Code.bytes lines) :: codes)

/-- The code of a tree. -/
def Made {X : Type} (gen : X → PlanM (List Line)) (x : X) (g : Plan) (lines : List Line) (g' : Plan) : Prop :=
  gen x g = some (lines, g')

def Completes (e e' : Expr) (g : Plan) (lines : List Line) (g' : Plan) : Prop :=
  ∀ g₀ a, e.code g₀ = some (a, g) → e'.code g₀ = some (a ++ lines, g')

structure Tracks (parse : Goal → CompileM Unit) (parts : Parser.Parts) (n : Nat) : Prop where
  sketches : ∀ g, CompileM.Sketches (parse g)
  bodies : Parser.Bodies parts.statement
  expression : ∀ {precedence c prev ts g code codes}, 0 < precedence → At c prev ts g (code :: codes) →
    4 * ts.length ≤ n → Accepts (parse (.expression precedence)) c fun _ =>
      Produces 1 (parts.expression precedence) (Made Expr.code) ts g code codes
  statement : ∀ {c prev ts g code codes}, At c prev ts g (code :: codes) →
    4 * ts.length + 1 ≤ n → Accepts (parse .statement) c fun _ =>
      Produces 1 parts.statement (Made Stmt.code) ts g code codes
  declaration : ∀ {c prev ts g code codes}, At c prev ts g (code :: codes) →
    4 * ts.length + 2 ≤ n → Accepts (parse .declaration) c fun _ =>
      Produces 1 parts.declaration (Made Stmt.code) ts g code codes

namespace CompileM

open Compiler

variable {parse : Goal → CompileM Unit} {parts : Parser.Parts} {n : Nat} {c : Compiler} {prev : Token}
  {ts : List Token} {g : Plan} {code : List UInt8} {codes : List (List UInt8)}

theorem accepts_expression (hf : Tracks parse parts n) (h : At c prev ts g (code :: codes))
    (hn : 4 * ts.length ≤ n) : Accepts (expression parse) c fun _ =>
      Produces 1 (Parser.expression parts) (Made Expr.code) ts g code codes :=
  hf.expression (by decide) h hn

theorem accepts_read (name : Bytes) (h : At c prev ts g (code :: codes)) :
    Accepts (namedVariable parse name false) c fun _ c' => ∃ place g',
      PlanM.resolve name g = some (place, g') ∧ Code.Fits [place.read] ∧
        At c' prev ts g' ((code ++ Code.bytes [place.read]) :: codes) := by
  have hrun : namedVariable parse name false = (do
      let r ← resolve name
      emitWith r.1 r.2.2) := rfl
  rw [hrun]
  refine .bind (accepts_resolve name h) fun r c₁ ⟨place, g₁, hg, hlt, hr, h₁⟩ => ?_
  subst hr
  refine (accepts_emitWith _ _ h₁).weaken fun _ c₂ h₂ => ?_
  exact ⟨place, g₁, hg, Code.fits_byte _ hlt, h₂⟩

theorem accepts_namedVariable (hf : Tracks parse parts n) {name : Bytes} (hname : name ∉ PlanM.hiddenNames)
    (canAssign : Bool) (h : At c prev ts g (code :: codes)) (hn : 4 * ts.length ≤ n) :
    Accepts (namedVariable parse name canAssign) c fun _ =>
      Produces 0 (Parser.variable_ parts name canAssign) (Made Expr.code) ts g code codes := by
  have := hf.sketches
  unfold Parser.variable_
  refine .bind (accepts_resolve name h) fun r c₁ ⟨place, g₁, hg, hlt, hr, h₁⟩ => ?_
  subst hr
  refine .bind (accepts_equal canAssign h₁) fun b c₂ hb => ?_
  rcases hb with ⟨rfl, t, ts₂, rfl, h₂, hp⟩ | ⟨rfl, rfl, hp⟩
  · simp only [List.length_cons] at hn
    simp only [if_true]
    refine .bind (accepts_expression hf h₂ (by omega))
      fun _ c₃ ⟨e, ts₃, a, g₃, prev₃, hp₃, hlen, hg₃, hfits, h₃⟩ => ?_
    refine (accepts_emitWith _ _ h₃).weaken fun _ c₄ h₄ => ?_
    refine ⟨.assign name e, ts₃, a ++ [place.write], g₃, prev₃, ?_, ?_, ?_,
      hfits.append (Code.fits_byte _ hlt), h₄.recode (by simp [Place.write])⟩
    · rw [bind_of hp]
      simp only [if_true]
      rw [bind_of hp₃]
      rfl
    · simp only [List.length_cons]
      omega
    · show Expr.code _ g = _
      rw [Expr.code, if_neg hname, bind_of hg, bind_of hg₃]
      rfl
  · simp only [Bool.false_eq_true, if_false]
    refine (accepts_emitWith _ _ h₁).weaken fun _ c₄ h₄ => ?_
    refine ⟨.variable_ name, ts, [place.read], g₁, prev, ?_, Nat.le_refl _, ?_, Code.fits_byte _ hlt, h₄⟩
    · rw [bind_of hp]
      rfl
    · show Expr.code _ g = _
      rw [Expr.code, bind_of hg]
      rfl

theorem accepts_variable (hf : Tracks parse parts n) (hname : prev.lexeme ∉ PlanM.hiddenNames) (canAssign : Bool)
    (h : At c prev ts g (code :: codes)) (hn : 4 * ts.length ≤ n) :
    Accepts (variable_ parse canAssign) c fun _ =>
      Produces 0 (Parser.variable_ parts prev.lexeme canAssign) (Made Expr.code) ts g code codes :=
  .read (run_lexeme h) (accepts_namedVariable hf hname canAssign h hn)

theorem accepts_atom {e : Expr} {op : Opcode} (he : e.code = (return [.instr op .none] : PlanM (List Line)))
    (h : At c prev ts g (code :: codes)) :
    Accepts (emit op) c fun _ => Produces 0 (return e) (Made Expr.code) ts g code codes := by
  refine (accepts_emit op h).weaken fun _ c₁ h₁ => ?_
  refine ⟨e, ts, _, g, prev, rfl, Nat.le_refl _, ?_, Code.fits_plain _, h₁⟩
  show Expr.code _ g = _
  rw [he]
  rfl

theorem accepts_numberLiteral (h : At c prev ts g (code :: codes)) :
    Accepts numberLiteral c fun _ =>
      Produces 0 (return .number prev.lexeme) (Made Expr.code) ts g code codes := by
  refine .read (run_lexeme h) ?_
  dsimp only
  by_cases hinf : Number.isInfinite (Number.ofLiteral prev.lexeme).toBits = true
  · rw [if_pos hinf]
    exact accepts_problem h.calm
  · rw [if_neg hinf]
    have hitem := Item.Made.number (.number (Number.ofLiteral prev.lexeme))
    refine (accepts_emitConstant hitem (fun d p ps _ hp => ?_) h).weaken
      fun _ c₁ ⟨i, g₁, hg, hi, h₁⟩ => ?_
    · simp [Order.draft, Drafts.onInner, hp, Value.isNumeral_number]
    · refine ⟨.number prev.lexeme, ts, _, g₁, prev, rfl, Nat.le_refl _, ?_,
        Code.fits_byte _ hi, h₁⟩
      show Expr.code _ g = _
      rw [Expr.code, if_neg hinf, bind_of hg]
      rfl

theorem accepts_stringLiteral (h : At c prev ts g (code :: codes)) :
    Accepts stringLiteral c fun _ =>
      Produces 0 (return .string (prev.lexeme.drop 1).dropLast) (Made Expr.code) ts g code codes := by
  have hitem := Item.Made.string (prev.lexeme.drop 1).dropLast
  have hconstant {c : Compiler} (h : At c prev ts g (code :: codes)) :
      Accepts (emitConstant (.string (prev.lexeme.drop 1).dropLast)) c fun _ =>
        Produces 0 (return .string (prev.lexeme.drop 1).dropLast) (Made Expr.code) ts g code codes := by
    refine (accepts_emitConstant hitem (fun d p ps _ hp => ?_) h).weaken
      fun _ c₁ ⟨i, g₁, hg, hi, h₁⟩ => ?_
    · simp [Order.draft, Drafts.onInner, hp]
    · refine ⟨.string _, ts, _, g₁, prev, rfl, Nat.le_refl _, ?_, Code.fits_byte _ hi, h₁⟩
      show Expr.code _ g = _
      rw [Expr.code, bind_of hg]
      rfl
  refine .read (run_lexeme h) ?_
  dsimp only
  split
  · exact accepts_giveUp_bind h fun _ => hconstant
  · exact hconstant h

theorem accepts_grouping (hf : Tracks parse parts n) (h : At c prev ts g (code :: codes))
    (hn : 4 * ts.length ≤ n) : Accepts (grouping parse) c fun _ =>
      Produces 0 (Parser.grouping parts) (Made Expr.code) ts g code codes := by
  refine .bind (accepts_expression hf h hn)
    fun _ c₁ ⟨e, ts₁, a, g₁, prev₁, hp₁, hlen₁, hg₁, hfits, h₁⟩ => ?_
  refine (accepts_consume h₁ (by nofun)).weaken fun _ c₂ ⟨t, ts₂, hts, _, h₂, hp₂⟩ => ?_
  subst hts
  refine ⟨e, ts₂, a, g₁, t, ?_, ?_, hg₁, hfits, h₂⟩
  · unfold Parser.grouping
    rw [bind_of hp₁, bind_of hp₂]
    rfl
  · simp only [List.length_cons] at hlen₁
    omega

theorem accepts_unary (hf : Tracks parse parts n) {k : TokenKind} {op : UnaryOp}
    (hop : (if k = .bang then .not else .negate) = op.code) (h : At c prev ts g (code :: codes))
    (hn : 4 * ts.length ≤ n) : Accepts (unary parse k) c fun _ =>
      Produces 0 (Parser.unary parts op) (Made Expr.code) ts g code codes := by
  refine .bind (hf.expression (by decide) h hn)
    fun _ c₁ ⟨e, ts₁, a, g₁, prev₁, hp₁, hlen₁, hg₁, hfits, h₁⟩ => ?_
  rw [hop]
  refine (accepts_emit op.code h₁).weaken fun _ c₂ h₂ => ?_
  refine ⟨.unary op e, ts₁, a ++ [.instr op.code .none], g₁, prev₁, ?_, by omega, ?_,
    hfits.append (Code.fits_plain _), h₂.recode (by simp)⟩
  · unfold Parser.unary
    rw [bind_of hp₁]
    rfl
  · show Expr.code _ g = _
    rw [Expr.code, bind_of hg₁]
    rfl

theorem accepts_argumentsFrom (hf : Tracks parse parts n) {count fuel : Nat} (hcount : count ≤ 255)
    (h : At c prev ts g (code :: codes)) (hn : 4 * ts.length ≤ n) (hfuel : ts.length ≤ fuel) :
    Accepts (argumentsFrom parse count fuel) c fun total c' => ∃ es ts' lines g' prev',
      Parser.argumentsFrom parts fuel ts = some (es, ts') ∧ ts'.length + 1 ≤ ts.length ∧
      total = count + es.length ∧ total < 256 ∧ Expr.codeOfAll es g = some (lines, g') ∧
      Code.Fits lines ∧ At c' prev' ts' g' ((code ++ Code.bytes lines) :: codes) := by
  have := hf.sketches
  induction fuel generalizing count c prev ts g code with
  | zero =>
    obtain _ | ⟨t, ts⟩ := ts
    · exact h.stream.elim
    · simp at hfuel
  | succ fuel ih =>
    unfold argumentsFrom
    refine .bind (accepts_expression hf h hn)
      fun _ c₁ ⟨e, ts₁, a, g₁, prev₁, hp₁, hlen₁, hg₁, hfits₁, h₁⟩ => ?_
    dsimp only
    by_cases hfull : count = 255
    · rw [if_pos hfull]
      exact accepts_problem_bind h₁.calm
    · rw [if_neg hfull]
      refine .bind (accepts_accept h₁ (by nofun)) fun b c₂ hb => ?_
      rcases hb with ⟨rfl, t, ts₂, rfl, -, h₂, hp₂, -⟩ | ⟨rfl, rfl, hp₂, -⟩
      · simp only [List.length_cons] at hlen₁
        refine (ih (by omega) h₂ (by omega) (by omega)).weaken
          fun total c₃ ⟨es, ts₃, b, g₃, prev₃, hp₃, hlen₃, htotal, hlt, hg₃, hfits₃, h₃⟩ => ?_
        refine ⟨e :: es, ts₃, a ++ b, g₃, prev₃, ?_, by omega, ?_, hlt, ?_, hfits₁.append hfits₃,
          h₃.recode (by simp)⟩
        · unfold Parser.argumentsFrom
          rw [bind_of hp₁, bind_of hp₂]
          simp only [if_true]
          rw [bind_of hp₃]
          rfl
        · rw [htotal, List.length_cons]
          omega
        · rw [Expr.codeOfAll, bind_of hg₁, bind_of hg₃]
          rfl
      · refine .pure ⟨[e], ts₁, a ++ [], g₁, prev₁, ?_, hlen₁, rfl, by omega, ?_,
          hfits₁.append Code.fits_nil, h₁.recode (by simp)⟩
        · unfold Parser.argumentsFrom
          rw [bind_of hp₁, bind_of hp₂]
          rfl
        · rw [Expr.codeOfAll, bind_of hg₁]
          rfl

theorem accepts_argumentList (hf : Tracks parse parts n) (h : At c prev ts g (code :: codes))
    (hn : 4 * ts.length ≤ n) : Accepts (argumentList parse n) c fun b c' => ∃ es ts' lines g' prev',
      Parser.argumentList parts n ts = some (es, ts') ∧ ts'.length + 1 ≤ ts.length ∧
      b = es.length.toUInt8 ∧ es.length < 256 ∧ Expr.codeOfAll es g = some (lines, g') ∧
      Code.Fits lines ∧ At c' prev' ts' g' ((code ++ Code.bytes lines) :: codes) := by
  have := hf.sketches
  obtain _ | ⟨t, rest⟩ := ts
  · exact h.stream.elim
  obtain ⟨hcheck, hpcheck⟩ := run_check (k := .rightParen) h
  unfold Parser.argumentList
  rw [bind_of hpcheck]
  refine .read hcheck ?_
  by_cases hclose : t.kind = .rightParen
  · rw [decide_eq_true hclose]
    simp only [if_true]
    refine .read (rfl : (pure 0 : CompileM Nat) c = (0, c)) ?_
    refine .bind (accepts_consume h (by nofun)) fun _ c₁ ⟨t₁, ts₁, hts, _, h₁, hp₁⟩ => ?_
    refine .pure ⟨[], ts₁, [], g, t₁, ?_, ?_, rfl, by decide, rfl, Code.fits_nil, h₁.recode (by simp)⟩
    · show (Parser.expect .rightParen >>= fun _ => pure []) _ = _
      rw [bind_of hp₁]
      rfl
    · exact Nat.le_of_eq (by rw [hts, List.length_cons])
  · rw [decide_eq_false hclose]
    simp only [Bool.false_eq_true, if_false]
    refine .bind (accepts_argumentsFrom hf (by decide) h hn (by omega))
      fun total c₁ ⟨es, ts₁, a, g₁, prev₁, hp₁, hlen₁, htotal, hlt, hg₁, hfits, h₁⟩ => ?_
    refine .bind (accepts_consume h₁ (by nofun)) fun _ c₂ ⟨t₂, ts₂, hts, _, h₂, hp₂⟩ => ?_
    rw [Nat.zero_add] at htotal
    subst htotal hts
    rw [List.length_cons] at hlen₁
    refine .pure ⟨es, ts₂, a, g₁, t₂, ?_, by omega, rfl, hlt, hg₁, hfits, h₂⟩
    rw [bind_of hp₁, bind_of hp₂]
    rfl

theorem accepts_call (hf : Tracks parse parts n) (e : Expr) (h : At c prev ts g (code :: codes))
    (hn : 4 * ts.length ≤ n) : Accepts (call parse n) c fun _ =>
      Produces 0 (do return .call e (← Parser.argumentList parts n)) (Completes e) ts g code codes := by
  have := hf.sketches
  refine .bind (accepts_argumentList hf h hn)
    fun b c₁ ⟨es, ts₁, a, g₁, prev₁, hp₁, hlen₁, hb, hlt, hg₁, hfits, h₁⟩ => ?_
  subst hb
  refine (accepts_emitWith .call _ h₁).weaken fun _ c₂ h₂ => ?_
  refine ⟨.call e es, ts₁, a ++ [.instr .call (.byte es.length)], g₁, prev₁, ?_, by omega, ?_,
    hfits.append (Code.fits_byte _ hlt), h₂.recode (by simp)⟩
  · rw [bind_of hp₁]
    rfl
  · intro g₀ l hl
    rw [Expr.code, bind_of hl, bind_of hg₁, ← List.append_assoc]
    rfl

theorem accepts_dot (hf : Tracks parse parts n) (e : Expr) (canAssign : Bool)
    (h : At c prev ts g (code :: codes)) (hn : 4 * ts.length ≤ n) :
    Accepts (dot parse n canAssign) c fun _ =>
      Produces 0 (Parser.dot parts n e canAssign) (Completes e) ts g code codes := by
  have := hf.sketches
  refine .bind (accepts_consume h (by decide)) ?_
  rintro _ c₁ ⟨t, ts₁, hts, _, h₁, hp₁⟩
  refine .read (run_lexeme h₁) ?_
  refine .bind (accepts_nameConstant t.lexeme h₁) ?_
  rintro b c₂ ⟨k, g₂, hg₂, hk, hb, h₂⟩
  subst hts hb
  simp only [List.length_cons] at hn
  unfold Parser.dot property
  refine .bind (accepts_equal canAssign h₂) fun b c₃ hb => ?_
  rcases hb with ⟨rfl, t₃, ts₃, rfl, h₃, hp₃⟩ | ⟨rfl, rfl, hp₃⟩
  · simp only [if_true]
    simp only [List.length_cons] at hn
    refine .bind (accepts_expression hf h₃ (by omega)) ?_
    rintro _ c₄ ⟨v, ts₄, a, g₄, prev₄, hp₄, hlen₄, hg₄, hfits, h₄⟩
    refine (accepts_emitWith .setProperty k h₄).weaken fun _ c₅ h₅ => ?_
    refine ⟨.set e t.lexeme v, ts₄, a ++ [.instr .setProperty (.byte k)], g₄, prev₄, ?_, ?_, ?_,
      hfits.append (Code.fits_byte _ hk), h₅.recode (by simp)⟩
    · rw [bind_of hp₁, bind_of hp₃]
      simp only [if_true]
      rw [bind_of hp₄]
      rfl
    · simp only [List.length_cons]
      omega
    · intro g₀ l hl
      rw [Expr.code, bind_of hl, bind_of hg₂, bind_of hg₄, ← List.append_assoc]
      rfl
  simp only [Bool.false_eq_true, if_false]
  refine .bind (accepts_accept h₂ (by decide)) fun b c₃ hb => ?_
  rcases hb with ⟨rfl, t₃, ts₃, rfl, -, h₃, hp₃', -⟩ | ⟨rfl, rfl, hp₃', -⟩
  · simp only [if_true]
    simp only [List.length_cons] at hn
    refine .bind (accepts_argumentList hf h₃ (by omega)) ?_
    rintro b c₄ ⟨es, ts₄, a, g₄, prev₄, hp₄, hlen₄, hb, hargs, hg₄, hfits, h₄⟩
    subst hb
    refine .bind (accepts_emitWith .invoke k h₄) fun _ c₅ h₅ => ?_
    refine (accepts_emitByte _ h₅).weaken fun _ c₆ h₆ => ?_
    refine ⟨.invoke e t.lexeme es, ts₄, a ++ [.instr .invoke (.pair k es.length)], g₄, prev₄, ?_, ?_, ?_,
      hfits.append (Code.fits_pair _ hk hargs), h₆.recode ?_⟩
    · rw [bind_of hp₁, bind_of hp₃]
      simp only [Bool.false_eq_true, if_false]
      rw [bind_of hp₃']
      simp only [if_true]
      rw [bind_of hp₄]
      rfl
    · simp only [List.length_cons]
      omega
    · intro g₀ l hl
      rw [Expr.code, bind_of hl, bind_of hg₂, bind_of hg₄, ← List.append_assoc]
      rfl
    · simp [Line.bytes, Operand.bytes]
  · simp only [Bool.false_eq_true, if_false]
    refine (accepts_emitWith .getProperty k h₂).weaken fun _ c₄ h₄ => ?_
    refine ⟨.get e t.lexeme, ts₁, _, g₂, t, ?_, Nat.le_succ _, ?_, Code.fits_byte _ hk, h₄⟩
    · rw [bind_of hp₁, bind_of hp₃]
      simp only [Bool.false_eq_true, if_false]
      rw [bind_of hp₃']
      rfl
    · intro g₀ l hl
      rw [Expr.code, bind_of hl, bind_of hg₂]
      rfl

theorem accepts_emitAll (ops : List Opcode) (h : At c prev ts g (code :: codes)) :
    Accepts (ops.forM emit) c fun _ c' =>
      At c' prev ts g ((code ++ Code.bytes (ops.map (.instr · .none))) :: codes) := by
  induction ops generalizing c code with
  | nil => exact .pure (h.recode (by simp))
  | cons op ops ih =>
    refine .bind (accepts_emit op h) fun _ c₁ h₁ => ?_
    exact (ih h₁).weaken fun _ c₂ h₂ => h₂.recode (by simp)

theorem binaryCode_of {k : TokenKind} {op : BinaryOp} (h : BinaryOp.ofToken? k = some op) :
    binaryCode k = op.code := by
  cases k <;> cases h <;> rfl

theorem accepts_binary (hf : Tracks parse parts n) (e : Expr) {k : TokenKind} {op : BinaryOp}
    (hop : BinaryOp.ofToken? k = some op) (h : At c prev ts g (code :: codes)) (hn : 4 * ts.length ≤ n) :
    Accepts (binary parse k) c fun _ =>
      Produces 0 (Parser.binary parts e k) (Completes e) ts g code codes := by
  have := hf.sketches
  refine .bind (hf.expression (Nat.succ_pos _) h hn)
    fun _ c₁ ⟨r, ts₁, a, g₁, prev₁, hp₁, hlen₁, hg₁, hfits, h₁⟩ => ?_
  rw [binaryCode_of hop]
  refine (accepts_emitAll op.code h₁).weaken fun _ c₂ h₂ => ?_
  refine ⟨.binary op e r, ts₁, a ++ op.code.map (.instr · .none), g₁, prev₁, ?_, by omega, ?_,
    hfits.append ?_, h₂.recode (by simp)⟩
  · unfold Parser.binary
    rw [bind_of hp₁, hop]
    rfl
  · intro g₀ l hl
    rw [Expr.code, bind_of hl, bind_of hg₁, ← List.append_assoc]
    rfl
  · intro l hl
    obtain ⟨op', -, rfl⟩ := List.mem_map.mp hl
    trivial

theorem accepts_and (hf : Tracks parse parts n) (e : Expr) (h : At c prev ts g (code :: codes))
    (hn : 4 * ts.length ≤ n) : Accepts (and_ parse) c fun _ =>
      Produces 0 (do return .and_ e (← parts.expression Precedence.and_)) (Completes e) ts g code codes := by
  have := hf.sketches
  refine .bind (accepts_emitJump .jumpIfFalse h) fun place c₁ ⟨hplace, h₁⟩ => ?_
  refine .bind (accepts_emit .pop h₁) fun _ c₂ h₂ => ?_
  refine .bind (hf.expression (by decide) h₂ hn)
    fun _ c₃ ⟨r, ts₃, a, g₃, prev₃, hp₃, hlen₃, hg₃, hfits, h₃⟩ => ?_
  have h₃' := h₃.recode (by simp :
    _ = code ++ Opcode.jumpIfFalse.toByte :: 0xff :: 0xff :: (Code.bytes ([Line.instr .pop .none] ++ a)))
  refine (accepts_patchJump hplace h₃').weaken fun _ c₄ ⟨hfar, h₄⟩ => ?_
  rw [Code.length_bytes] at hfar h₄
  refine ⟨.and_ e r, ts₃, [Line.instr .jumpIfFalse (.short (1 + Code.size a)), Line.instr .pop .none] ++ a,
    g₃, prev₃, ?_, by omega, ?_, ?_, h₄.recode ?_⟩
  · rw [bind_of hp₃]
    rfl
  · intro g₀ l hl
    rw [Expr.code, bind_of hl, bind_of hg₃, ← List.append_assoc]
    rfl
  · exact .append (Code.fits_cons hfar (Code.fits_plain _)) hfits
  · simp [Line.size, Operand.size]

end CompileM

end Lox

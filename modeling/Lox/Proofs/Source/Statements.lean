import Lox.Proofs.Source.Precedence

namespace Lox.CompileM

open Compiler

variable {α : Type} {parse : Goal → CompileM Unit} {parts : Parser.Parts} {n : Nat} {c : Compiler}
  {prev : Token} {ts : List Token} {g : Plan} {code : List UInt8} {codes : List (List UInt8)}

theorem accepts_clause_bind (hf : Tracks parse parts n) {k : TokenKind} (hk : k ≠ .eof) {what : String}
    {f : Unit → CompileM α} [hr : ∀ a, Reports (f a)] {post : α → Compiler → Prop}
    (h : At c prev ts g (code :: codes)) (hn : 4 * ts.length ≤ n)
    (hrest : ∀ e ts' lines g' prev' c', Parser.clause parts k ts = some (e, ts') →
      ts'.length + 2 ≤ ts.length → e.code g = some (lines, g') → Code.Fits lines →
      At c' prev' ts' g' ((code ++ Code.bytes lines) :: codes) → Accepts (f ()) c' post) :
    Accepts (expression parse >>= fun _ => consume k what >>= f) c post := by
  refine .bind (accepts_expression hf h hn)
    fun _ c₁ ⟨e, ts₁, a, g₁, prev₁, hp₁, hlen₁, hg₁, hfits, h₁⟩ => ?_
  refine .bind (accepts_consume h₁ hk) fun _ c₂ ⟨t, ts₂, hts, _, h₂, hp₂⟩ => ?_
  subst hts
  rw [List.length_cons] at hlen₁
  refine hrest e ts₂ a g₁ t c₂ ?_ (by omega) hg₁ hfits h₂
  unfold Parser.clause
  rw [bind_of hp₁, bind_of hp₂]
  rfl

theorem accepts_printStatement (hf : Tracks parse parts n) (h : At c prev ts g (code :: codes))
    (hn : 4 * ts.length ≤ n) : Accepts (printStatement parse) c fun _ =>
      Produces 0 (do return .print (← Parser.clause parts .semicolon)) (Made Stmt.code)
        ts g code codes := by
  obtain ⟨l, ls, -, hl⟩ := h.level
  refine accepts_clause_bind hf (by nofun) h hn fun e ts₁ a g₁ prev₁ c₁ hp₁ hlen₁ hg₁ hfits h₁ => ?_
  refine (accepts_emit .print h₁).weaken fun _ c₂ h₂ => ?_
  refine ⟨.print e, ts₁, .mark l.locals.length :: a ++ [.instr .print .none], g₁, prev₁, ?_, by omega, ?_,
    .append (Code.fits_cons trivial hfits) (Code.fits_plain _), h₂.recode (by simp [Line.bytes])⟩
  · rw [bind_of hp₁]
    rfl
  · show Stmt.code _ g = _
    rw [Stmt.code, bind_of hl, bind_of hg₁]
    rfl

theorem accepts_expressionStatement (hf : Tracks parse parts n) (h : At c prev ts g (code :: codes))
    (hn : 4 * ts.length ≤ n) : Accepts (expressionStatement parse) c fun _ =>
      Produces 1 (do return .expression (← Parser.clause parts .semicolon)) (Made Stmt.code)
        ts g code codes := by
  obtain ⟨l, ls, -, hl⟩ := h.level
  refine accepts_clause_bind hf (by nofun) h hn fun e ts₁ a g₁ prev₁ c₁ hp₁ hlen₁ hg₁ hfits h₁ => ?_
  refine (accepts_emit .pop h₁).weaken fun _ c₂ h₂ => ?_
  refine ⟨.expression e, ts₁, .mark l.locals.length :: a ++ [.instr .pop .none], g₁, prev₁, ?_, by omega,
    ?_, .append (Code.fits_cons trivial hfits) (Code.fits_plain _), h₂.recode (by simp [Line.bytes])⟩
  · rw [bind_of hp₁]
    rfl
  · show Stmt.code _ g = _
    rw [Stmt.code, bind_of hl, bind_of hg₁]
    rfl

theorem accepts_emitReturn {l : Level} (hl : PlanM.level g = some (l, g))
    (h : At c prev ts g (code :: codes)) : Accepts emitReturn c fun _ c' =>
      At c' prev ts g ((code ++ Code.bytes (PlanM.returnCode l.kind)) :: codes) := by
  obtain ⟨s, e, p, l', ls, hs, -, -, hl', ha⟩ := run_scope h
  rw [hl] at hl'
  obtain ⟨rfl, -⟩ := Prod.mk.inj (Option.some.inj hl')
  refine .read hs ?_
  rw [ha.kind]
  unfold PlanM.returnCode
  split
  · refine .bind (accepts_emitWith .getLocal 0 h) fun _ c₁ h₁ => ?_
    exact (accepts_emit .return_ h₁).weaken fun _ c₂ h₂ => h₂.recode (by simp)
  · refine .bind (accepts_emit .nil h) fun _ c₁ h₁ => ?_
    exact (accepts_emit .return_ h₁).weaken fun _ c₂ h₂ => h₂.recode (by simp)

theorem fits_returnCode (kind : FunctionKind) : Code.Fits (PlanM.returnCode kind) := by
  unfold PlanM.returnCode
  refine Code.fits_cons ?_ (Code.fits_plain _)
  split
  · show 0 < 256
    decide
  · trivial

theorem accepts_returnStatement (hf : Tracks parse parts n) (h : At c prev ts g (code :: codes))
    (hn : 4 * ts.length ≤ n) : Accepts (returnStatement parse) c fun _ =>
      Produces 0 (Parser.returnStatement parts) (Made Stmt.code) ts g code codes := by
  have := hf.sketches
  have hrest (kind : FunctionKind) : Sketches (do
      if ← accept .semicolon then emitReturn
      else
        if kind = .initializer then problem .returnFromInitializer
        expression parse
        consume .semicolon "';' after return value"
        emit .return_) := inferInstance
  obtain ⟨s, e, p, l, ls, hs, -, -, hl, ha⟩ := run_scope h
  unfold Parser.returnStatement
  refine .read hs ?_
  dsimp only
  by_cases hscript : s.kind = .script
  · rw [if_pos hscript]
    exact accepts_problem_bind h.calm
  rw [if_neg hscript]
  rw [ha.kind] at hscript ⊢
  refine .bind (accepts_accept h (by nofun)) fun b c₁ hb => ?_
  rcases hb with ⟨rfl, t, ts₁, rfl, -, h₁, hp₁, -⟩ | ⟨rfl, rfl, hp₁, -⟩
  · simp only [if_true]
    refine (accepts_emitReturn hl h₁).weaken fun _ c₂ h₂ => ?_
    refine ⟨.return_ none, ts₁, .mark l.locals.length :: PlanM.returnCode l.kind, g, t, ?_,
      Nat.le_succ _, ?_, Code.fits_cons trivial (fits_returnCode _), h₂⟩
    · rw [bind_of hp₁]
      rfl
    · show Stmt.code _ g = _
      rw [Stmt.code, bind_of hl, if_neg hscript]
      rfl
  · simp only [Bool.false_eq_true, if_false]
    by_cases hinit : l.kind = .initializer
    · rw [if_pos hinit]
      exact accepts_problem_bind h.calm
    rw [if_neg hinit]
    refine accepts_clause_bind hf (by nofun) h hn fun e ts₂ a g₂ prev₂ c₂ hp₂ hlen₂ hg₂ hfits h₂ => ?_
    refine (accepts_emit .return_ h₂).weaken fun _ c₃ h₃ => ?_
    refine ⟨.return_ (some e), ts₂, .mark l.locals.length :: a ++ [.instr .return_ .none], g₂, prev₂, ?_,
      by omega, ?_, .append (Code.fits_cons trivial hfits) (Code.fits_plain _),
      h₃.recode (by simp [Line.bytes])⟩
    · rw [bind_of hp₁]
      simp only [Bool.false_eq_true, if_false]
      rw [bind_of hp₂]
      rfl
    · show Stmt.code _ g = _
      rw [Stmt.code, bind_of hl, if_neg (by simp [hscript, hinit]), bind_of hg₂]
      rfl

theorem accepts_varDeclaration (hf : Tracks parse parts n) (h : At c prev ts g (code :: codes))
    (hn : 4 * ts.length ≤ n) : Accepts (varDeclaration parse) c fun _ =>
      Produces 0 (Parser.varDeclaration parts) (Made Stmt.code) ts g code codes := by
  have := hf.sketches
  obtain ⟨l, ls, -, hl⟩ := h.level
  unfold Parser.varDeclaration
  refine .bind (accepts_parseVariable _ h) ?_
  rintro b c₁ ⟨t, ts₁, k, g₁, hts, hp₁, hg₁, hk, hb, h₁⟩
  subst hts hb
  rw [List.length_cons] at hn
  refine .bind (accepts_accept h₁ (by decide)) fun b c₂ hb => ?_
  rcases hb with ⟨rfl, t₂, ts₂, rfl, -, h₂, hp₂, -⟩ | ⟨rfl, rfl, hp₂, -⟩
  · simp only [if_true]
    rw [List.length_cons] at hn
    refine .bind (accepts_expression hf h₂ (by omega)) ?_
    rintro _ c₃ ⟨e, ts₃, a, g₃, prev₃, hp₃, hlen₃, hg₃, hfits₃, h₃⟩
    refine .bind (accepts_consume h₃ (by decide)) ?_
    rintro _ c₄ ⟨t₄, ts₄, hts, _, h₄, hp₄⟩
    refine (accepts_defineVariable hk h₄).weaken ?_
    rintro _ c₅ ⟨lines, g₅, hg₅, hfits₅, h₅⟩
    subst hts
    rw [List.length_cons] at hlen₃
    refine ⟨.var_ t.lexeme (some e), ts₄, .mark l.locals.length :: a ++ lines, g₅, t₄, ?_, ?_, ?_,
      .append (Code.fits_cons trivial hfits₃) hfits₅, h₅.recode (by simp [Line.bytes])⟩
    · rw [bind_of hp₁, bind_of hp₂]
      simp only [if_true]
      have hvalue : (some <$> Parser.expression parts) ts₂ = some (some e, t₄ :: ts₄) := by
        rw [← bind_pure_comp, bind_of hp₃]
        rfl
      rw [bind_of hvalue, bind_of hp₄]
      rfl
    · simp only [List.length_cons]
      omega
    · show Stmt.code _ g = _
      rw [Stmt.code, bind_of hl, bind_of hg₁]
      dsimp only
      rw [bind_of hg₃, bind_of hg₅]
      rfl
  · simp only [Bool.false_eq_true, if_false]
    refine .bind (accepts_emit .nil h₁) fun _ c₃ h₃ => ?_
    refine .bind (accepts_consume h₃ (by decide)) ?_
    rintro _ c₄ ⟨t₄, ts₄, hts, _, h₄, hp₄⟩
    refine (accepts_defineVariable hk h₄).weaken ?_
    rintro _ c₅ ⟨lines, g₅, hg₅, hfits₅, h₅⟩
    subst hts
    refine ⟨.var_ t.lexeme none, ts₄, .mark l.locals.length :: [.instr .nil .none] ++ lines, g₅, t₄, ?_, ?_,
      ?_, .append (Code.fits_cons (l := .mark _) trivial (Code.fits_plain _)) hfits₅, h₅.recode (by simp [Line.bytes])⟩
    · rw [bind_of hp₁, bind_of hp₂]
      simp only [Bool.false_eq_true, if_false]
      have hvalue : (pure none : Parser (Option Expr)) (t₄ :: ts₄) = some (none, t₄ :: ts₄) := rfl
      rw [bind_of hvalue, bind_of hp₄]
      rfl
    · simp only [List.length_cons]
      omega
    · show Stmt.code _ g = _
      have hvalue : (pure [.instr .nil .none] : PlanM (List Line)) g₁ =
        some ([.instr .nil .none], g₁) := rfl
      rw [Stmt.code, bind_of hl, bind_of hg₁]
      dsimp only
      rw [bind_of hvalue, bind_of hg₅]
      rfl

theorem bodyCode_of (hf : Tracks parse parts n) {ts ts' : List Token} {s : Stmt} {lines : List Line}
    {g' : Plan} (hp : parts.statement ts = some (s, ts')) (hg : s.code g = some (lines, g')) :
    bodyCode s.isDeclaration s.code g = some (lines, g') := by
  rw [bodyCode, if_neg (Bool.eq_false_iff.mp (hf.bodies.isDeclaration ts s ts' hp))]
  exact hg

set_option synthInstance.maxSize 4096 in
theorem accepts_ifStatement (hf : Tracks parse parts n) (h : At c prev ts g (code :: codes))
    (hn : 4 * ts.length + 1 ≤ n) : Accepts (ifStatement parse) c fun _ =>
      Produces 0 (Parser.ifStatement parts) (Made Stmt.code) ts g code codes := by
  have := hf.sketches
  obtain ⟨l, ls, -, hl⟩ := h.level
  unfold Parser.ifStatement ifStatement
  dsimp only
  refine .bind (accepts_consume h (by decide)) ?_
  rintro _ c₁ ⟨t, ts₁, hts, _, h₁, hp₁⟩
  subst hts
  rw [List.length_cons] at hn
  refine accepts_clause_bind hf (by decide) h₁ (by omega) fun e ts₂ a g₂ prev₂ c₂ hp₂ hlen₂ hg₂ hfits₂ h₂ => ?_
  refine .bind (accepts_emitJump .jumpIfFalse h₂) ?_
  rintro thenJump c₃ ⟨hthen, h₃⟩
  refine .bind (accepts_emit .pop h₃) fun _ c₄ h₄ => ?_
  refine .bind (hf.statement h₄ (by omega)) ?_
  rintro _ c₅ ⟨s, ts₅, b, g₅, prev₅, hp₅, hlen₅, hg₅, hfits₅, h₅⟩
  refine .bind (accepts_emitJump .jump h₅) ?_
  rintro elseJump c₆ ⟨helse, h₆⟩
  have h₆' := h₆.recode (by simp : _ = (code ++ Code.bytes a) ++ Opcode.jumpIfFalse.toByte :: 0xff :: 0xff ::
    (Code.bytes ([Line.instr .pop .none] ++ b) ++ [Opcode.jump.toByte, 0xff, 0xff]))
  refine .bind (accepts_patchJump hthen h₆') ?_
  rintro _ c₇ ⟨hfar₇, h₇⟩
  refine .bind (accepts_emit .pop h₇) fun _ c₈ h₈ => ?_
  have hjif : (Code.bytes ([Line.instr .pop .none] ++ b) ++ [Opcode.jump.toByte, 0xff, 0xff]).length =
      Code.size b + 4 := by
    simp [Line.bytes, Operand.bytes]
  rw [hjif] at hfar₇ h₈
  -- the two ways on differ in the code of the second branch only
  have hend {s' : Stmt} {ts₉ : List Token} {d : List Line} {g₉ : Plan} {prev₉ : Token} {c₉ : Compiler}
      (hp₉ : Parser.accept .else_ ts₅ = some (false, ts₅) ∧ s' = .skip ∧ ts₉ = ts₅ ∨
        ∃ ts₁₀, Parser.accept .else_ ts₅ = some (true, ts₁₀) ∧ parts.statement ts₁₀ = some (s', ts₉))
      (hlen₉ : ts₉.length ≤ ts₅.length)
      (hg₉ : bodyCode s'.isDeclaration s'.code g₅ = some (d, g₉)) (hfits₉ : Code.Fits d)
      (h₉ : At c₉ prev₉ ts₉ g₉ ((code ++ Code.bytes a ++
        Code.bytes [Line.instr .jumpIfFalse (.short (Code.size b + 4)), Line.instr .pop .none] ++ Code.bytes b ++
        Opcode.jump.toByte :: 0xff :: 0xff :: Code.bytes ([Line.instr .pop .none] ++ d)) :: codes)) :
      Accepts (patchJump elseJump) c₉ fun _ => Produces 0 (do
        let _ ← Parser.expect .leftParen
        let condition ← Parser.clause parts .rightParen
        let then_ ← parts.statement
        if ← Parser.accept .else_ then return .if_ condition then_ (← parts.statement)
        else return .if_ condition then_ .skip) (Made Stmt.code) (t :: ts₁) g code codes := by
    refine (accepts_patchJump (by simp [helse, Line.bytes, Operand.bytes]) h₉).weaken ?_
    rintro _ c₁₀ ⟨hfar, h₁₀⟩
    have hjump : (Code.bytes ([Line.instr .pop .none] ++ d)).length = 1 + Code.size d := by
      rw [Code.length_bytes]
      rfl
    rw [hjump] at hfar h₁₀
    refine ⟨.if_ e s s', ts₉, .mark l.locals.length :: a ++
      [Line.instr .jumpIfFalse (.short (Code.size b + 4)), Line.instr .pop .none] ++ b ++
      [Line.instr .jump (.short (1 + Code.size d)), Line.instr .pop .none] ++ d, g₉, prev₉, ?_, ?_, ?_, ?_,
      h₁₀.recode (by simp [Line.bytes])⟩
    · rw [bind_of hp₁, bind_of hp₂, bind_of hp₅]
      rcases hp₉ with ⟨hno, rfl, rfl⟩ | ⟨ts₁₀, hyes, hs'⟩
      · rw [bind_of hno]
        rfl
      · rw [bind_of hyes]
        simp only [if_true]
        rw [bind_of hs']
        rfl
    · rw [List.length_cons]
      omega
    · show Stmt.code _ g = _
      rw [Stmt.code, bind_of hl, bind_of hg₂, bind_of (bodyCode_of hf hp₅ hg₅), bind_of hg₉]
      rfl
    · exact .append (.append (.append (.append (Code.fits_cons trivial hfits₂)
        (Code.fits_cons hfar₇ (Code.fits_plain _))) hfits₅) (Code.fits_cons hfar (Code.fits_plain _))) hfits₉
  refine .bind (accepts_accept h₈ (by decide)) fun b' c₉ hb => ?_
  rcases hb with ⟨rfl, t₉, ts₉, rfl, -, h₉, hp₉, -⟩ | ⟨rfl, rfl, hp₉, -⟩
  · simp only [if_true]
    rw [List.length_cons] at hlen₅
    refine .bind (hf.statement h₉ (by omega)) ?_
    rintro _ c₁₀ ⟨s', ts₁₀, d, g₁₀, prev₁₀, hp₁₀, hlen₁₀, hg₁₀, hfits₁₀, h₁₀⟩
    refine hend (.inr ⟨ts₉, hp₉, hp₁₀⟩) ?_ (bodyCode_of hf hp₁₀ hg₁₀) hfits₁₀ (h₁₀.recode (by simp))
    rw [List.length_cons]
    omega
  · simp only [Bool.false_eq_true, if_false]
    refine hend (.inl ⟨hp₉, rfl, rfl⟩) (Nat.le_refl _) (d := []) ?_ Code.fits_nil (h₈.recode (by simp))
    rw [bodyCode, if_neg (by simp [Stmt.isDeclaration]), Stmt.code]
    rfl

set_option synthInstance.maxSize 1024 in
theorem accepts_whileStatement (hf : Tracks parse parts n) (h : At c prev ts g (code :: codes))
    (hn : 4 * ts.length + 1 ≤ n) : Accepts (whileStatement parse) c fun _ =>
      Produces 0 (Parser.whileStatement parts) (Made Stmt.code) ts g code codes := by
  have := hf.sketches
  obtain ⟨l, ls, -, hl⟩ := h.level
  unfold Parser.whileStatement
  refine .read (run_codeSize h) ?_
  refine .bind (accepts_consume h (by decide)) ?_
  rintro _ c₁ ⟨t, ts₁, hts, _, h₁, hp₁⟩
  subst hts
  rw [List.length_cons] at hn
  refine accepts_clause_bind hf (by decide) h₁ (by omega) fun e ts₂ a g₂ prev₂ c₂ hp₂ hlen₂ hg₂ hfits₂ h₂ => ?_
  refine .bind (accepts_emitJump .jumpIfFalse h₂) ?_
  rintro exitJump c₃ ⟨hexit, h₃⟩
  refine .bind (accepts_emit .pop h₃) fun _ c₄ h₄ => ?_
  refine .bind (hf.statement h₄ (by omega)) ?_
  rintro _ c₅ ⟨s, ts₅, b, g₅, prev₅, hp₅, hlen₅, hg₅, hfits₅, h₅⟩
  have h₅' := h₅.recode (by simp : _ = code ++ (Code.bytes a ++
    Opcode.jumpIfFalse.toByte :: 0xff :: 0xff :: Code.bytes ([Line.instr .pop .none] ++ b)))
  refine .bind (accepts_emitLoop rfl h₅') ?_
  rintro _ c₆ ⟨hback, h₆⟩
  have hloop : (Code.bytes a ++ Opcode.jumpIfFalse.toByte :: 0xff :: 0xff ::
      Code.bytes ([Line.instr .pop .none] ++ b)).length + 3 = Code.size a + 4 + Code.size b + 3 := by
    simp [Line.bytes, Operand.bytes]
    omega
  rw [hloop] at hback h₆
  have h₆' := h₆.recode (by simp : _ = (code ++ Code.bytes a) ++ Opcode.jumpIfFalse.toByte :: 0xff :: 0xff ::
    Code.bytes ([Line.instr .pop .none] ++ b ++ [Line.instr .loop (.short (Code.size a + 4 + Code.size b + 3))]))
  refine .bind (accepts_patchJump hexit h₆') ?_
  rintro _ c₇ ⟨hfar, h₇⟩
  refine (accepts_emit .pop h₇).weaken fun _ c₈ h₈ => ?_
  have hjif : (Code.bytes ([Line.instr .pop .none] ++ b ++
      [Line.instr .loop (.short (Code.size a + 4 + Code.size b + 3))])).length = 1 + (Code.size b + 3) := by
    simp [Line.bytes, Operand.bytes]
    omega
  rw [hjif] at hfar h₈
  refine ⟨.while_ e s, ts₅, .mark l.locals.length :: loopCode (some a) none b, g₅, prev₅, ?_, ?_, ?_,
    Code.fits_cons trivial ?_, h₈.recode
        (by simp [Line.bytes, loopCode, conditionCode, incrementCode, conditionSize, backSize])⟩
  · rw [bind_of hp₁, bind_of hp₂, bind_of hp₅]
    rfl
  · rw [List.length_cons]
    omega
  · show Stmt.code _ g = _
    rw [Stmt.code, bind_of hl, bind_of hg₂, bind_of (bodyCode_of hf hp₅ hg₅)]
    rfl
  · have hjif' : (Line.instr .jumpIfFalse (.short (1 + (Code.size b + 3)))).Fits := hfar
    have hloop' : (Line.instr .loop (.short (Code.size a + 4 + Code.size b + 3))).Fits := hback
    simpa [loopCode, conditionCode, incrementCode, conditionSize, backSize] using
      (hfits₂.append (Code.fits_cons hjif' (Code.fits_plain .pop))).append
        (hfits₅.append (Code.fits_cons hloop' (Code.fits_plain .pop)))

def openCondition : Option (List Line) → List UInt8
  | none => []
  | some a => Code.bytes a ++ Opcode.jumpIfFalse.toByte :: 0xff :: 0xff :: Code.bytes [.instr .pop .none]

theorem accepts_forCondition (hf : Tracks parse parts n) (h : At c prev ts g (code :: codes))
    (hn : 4 * ts.length ≤ n) : Accepts (forCondition parse) c fun exit c' => ∃ e ts' a g' prev',
      Parser.clause? parts .semicolon ts = some (e, ts') ∧ ts'.length ≤ ts.length ∧
      Expr.code? e g = some (a, g') ∧ (∀ lines ∈ a, Code.Fits lines) ∧
      exit = a.map (fun lines => code.length + Code.size lines + 1) ∧
      At c' prev' ts' g' ((code ++ openCondition a) :: codes) := by
  have := hf.sketches
  unfold Parser.clause?
  refine .bind (accepts_accept h (by nofun)) fun b c₁ hb => ?_
  rcases hb with ⟨rfl, t, ts₁, rfl, -, h₁, hp₁, -⟩ | ⟨rfl, rfl, hp₁, -⟩
  · refine .pure ⟨none, ts₁, none, g, t, ?_, Nat.le_succ _, rfl, nofun, rfl, h₁.recode (by simp [openCondition])⟩
    rw [bind_of hp₁]
    rfl
  · simp only [Bool.false_eq_true, if_false]
    refine accepts_clause_bind hf (by nofun) h hn fun e ts₂ a g₂ prev₂ c₂ hp₂ hlen₂ hg₂ hfits₂ h₂ => ?_
    refine .bind (accepts_emitJump .jumpIfFalse h₂) fun exit c₃ ⟨hexit, h₃⟩ => ?_
    refine .bind (accepts_emit .pop h₃) fun _ c₄ h₄ => ?_
    refine .pure ⟨some e, ts₂, some a, g₂, prev₂, ?_, by omega, ?_, ?_, ?_,
      h₄.recode (by simp [openCondition])⟩
    · rw [bind_of hp₁]
      simp only [Bool.false_eq_true, if_false]
      rw [bind_of hp₂]
      rfl
    · rw [Expr.code?, bind_of hg₂]
      rfl
    · rintro lines ⟨⟩
      exact hfits₂
    · rw [hexit]
      simp

def loopBack (start before : Nat) : Option (List Line) → Nat
  | none => start
  | some _ => start + before + 3

set_option synthInstance.maxSize 1024 in
theorem accepts_forIncrement (hf : Tracks parse parts n) {pre post : List UInt8} {start : Nat}
    (hstart : start = pre.length) (h : At c prev ts g ((pre ++ post) :: codes)) (hn : 4 * ts.length ≤ n) :
    Accepts (forIncrement parse start) c fun back c' => ∃ e ts' a g' prev',
      Parser.clause? parts .rightParen ts = some (e, ts') ∧ ts'.length + 1 ≤ ts.length ∧
      Expr.code? e g = some (a, g') ∧ Code.Fits (incrementCode a post.length) ∧
      back = loopBack pre.length post.length a ∧
      At c' prev' ts' g' ((pre ++ post ++ Code.bytes (incrementCode a post.length)) :: codes) := by
  have := hf.sketches
  unfold Parser.clause?
  refine .bind (accepts_accept h (by decide)) fun b c₁ hb => ?_
  rcases hb with ⟨rfl, t, ts₁, rfl, -, h₁, hp₁, -⟩ | ⟨rfl, rfl, hp₁, -⟩
  · refine .pure ⟨none, ts₁, none, g, t, ?_, Nat.le_refl _, rfl, Code.fits_nil, hstart,
      h₁.recode (by simp [incrementCode])⟩
    rw [bind_of hp₁]
    rfl
  simp only [Bool.false_eq_true, if_false]
  refine .bind (accepts_emitJump .jump h) ?_
  rintro bodyJump c₂ ⟨hbody, h₂⟩
  refine .read (run_codeSize h₂) ?_
  refine .bind (accepts_expression hf h₂ hn) ?_
  rintro _ c₃ ⟨e, ts₃, a, g₃, prev₃, hp₃, hlen₃, hg₃, hfits₃, h₃⟩
  refine .bind (accepts_emit .pop h₃) fun _ c₄ h₄ => ?_
  refine .bind (accepts_consume h₄ (by decide)) ?_
  rintro _ c₅ ⟨t, ts₅, hts, _, h₅, hp₅⟩
  subst hts
  have h₅' := h₅.recode (by simp : _ = pre ++ (post ++ Opcode.jump.toByte :: 0xff :: 0xff ::
    Code.bytes (a ++ [Line.instr .pop .none])))
  refine .bind (accepts_emitLoop hstart h₅') ?_
  rintro _ c₆ ⟨hback, h₆⟩
  have hloop : (post ++ Opcode.jump.toByte :: 0xff :: 0xff ::
      Code.bytes (a ++ [Line.instr .pop .none])).length + 3 = post.length + Code.size a + 7 := by
    simp [Line.bytes, Operand.bytes]
    omega
  rw [hloop] at hback h₆
  have h₆' := h₆.recode (by simp : _ = (pre ++ post) ++ Opcode.jump.toByte :: 0xff :: 0xff ::
    Code.bytes (a ++ [Line.instr .pop .none, Line.instr .loop (.short (post.length + Code.size a + 7))]))
  refine .bind (accepts_patchJump hbody h₆') ?_
  rintro _ c₇ ⟨hfar, h₇⟩
  have hjump : (Code.bytes (a ++ [Line.instr .pop .none, Line.instr .loop
      (.short (post.length + Code.size a + 7))])).length = Code.size a + 4 := by
    rw [Code.length_bytes, Code.size_append]
    rfl
  rw [hjump] at hfar h₇
  rw [List.length_cons] at hlen₃
  refine .pure ⟨some e, ts₅, some a, g₃, t, ?_, by omega, ?_, ?_, ?_,
    h₇.recode (by simp [incrementCode])⟩
  · rw [bind_of hp₁]
    simp only [Bool.false_eq_true, if_false]
    unfold Parser.clause
    have hclause : (Parser.expression parts >>= fun e => Parser.expect .rightParen >>= fun _ => pure e) ts =
        some (e, ts₅) := by
      rw [bind_of hp₃, bind_of hp₅]
      rfl
    rw [bind_of hclause]
    rfl
  · rw [Expr.code?, bind_of hg₃]
    rfl
  · exact Code.fits_cons hfar (hfits₃.append (Code.fits_cons trivial (List.forall_mem_singleton.mpr hback)))
  · simp [loopBack]
    omega

theorem accepts_forInitializer (hf : Tracks parse parts n) (h : At c prev ts g (code :: codes))
    (hn : 4 * ts.length ≤ n) : Accepts (forInitializer parse) c fun _ =>
      Produces 1 (Parser.forInitializer parts) (Made Stmt.code) ts g code codes := by
  have := hf.sketches
  unfold Parser.forInitializer
  refine .bind (accepts_accept h (by decide)) fun b c₁ hb => ?_
  rcases hb with ⟨rfl, t, ts₁, rfl, -, h₁, hp₁, -⟩ | ⟨rfl, rfl, hp₁, -⟩
  · refine .pure ⟨.skip, ts₁, [], g, t, ?_, Nat.le_refl _, ?_, Code.fits_nil, h₁.recode (by simp)⟩
    · rw [bind_of hp₁]
      rfl
    · show Stmt.code _ g = _
      rw [Stmt.code]
      rfl
  simp only [Bool.false_eq_true, if_false]
  refine .bind (accepts_accept h (by decide)) fun b c₂ hb => ?_
  rcases hb with ⟨rfl, t, ts₂, rfl, -, h₂, hp₂, -⟩ | ⟨rfl, rfl, hp₂, -⟩
  · rw [List.length_cons] at hn
    refine (accepts_varDeclaration hf h₂ (by omega)).weaken ?_
    rintro _ c₃ ⟨s, ts₃, a, g₃, prev₃, hp₃, hlen₃, hg₃, hfits₃, h₃⟩
    refine ⟨s, ts₃, a, g₃, prev₃, ?_, ?_, hg₃, hfits₃, h₃⟩
    · rw [bind_of hp₁]
      simp only [Bool.false_eq_true, if_false]
      rw [bind_of hp₂]
      exact hp₃
    · rw [List.length_cons]
      omega
  · simp only [Bool.false_eq_true, if_false]
    refine (accepts_expressionStatement hf h hn).weaken ?_
    rintro _ c₃ ⟨s, ts₃, a, g₃, prev₃, hp₃, hlen₃, hg₃, hfits₃, h₃⟩
    refine ⟨s, ts₃, a, g₃, prev₃, ?_, hlen₃, hg₃, hfits₃, h₃⟩
    rw [bind_of hp₁]
    simp only [Bool.false_eq_true, if_false]
    rw [bind_of hp₂]
    exact hp₃

theorem length_openCondition (a : Option (List Line)) : (openCondition a).length = conditionSize a := by
  cases a <;> simp [openCondition, conditionSize, Line.bytes, Operand.bytes]

theorem accepts_loopBack {b : Option (List Line)} {d : List Line} {post : List UInt8} {before : Nat}
    (hpost : post.length = before)
    (h : At c prev ts g ((code ++ post ++ Code.bytes (incrementCode b before ++ d)) :: codes)) :
    Accepts (emitLoop (loopBack code.length before b)) c fun _ c' =>
      backSize before b + Code.size d + 3 < 65536 ∧
      At c' prev ts g ((code ++ post ++ Code.bytes (incrementCode b before ++ d ++
        [Line.instr .loop (.short (backSize before b + Code.size d + 3))])) :: codes) := by
  cases b with
  | none =>
    have h' := h.recode (by simp [incrementCode] : _ = code ++ (post ++ Code.bytes d))
    refine (accepts_emitLoop rfl h').weaken fun _ c₁ ⟨hback, h₁⟩ => ?_
    rw [List.length_append, Code.length_bytes, hpost] at hback h₁
    exact ⟨hback, h₁.recode (by simp [incrementCode, backSize])⟩
  | some i =>
    have h' := h.recode (by simp [incrementCode] : _ = (code ++ post ++
      Line.bytes (Line.instr .jump (.short (Code.size i + 4)))) ++ Code.bytes (i ++
        [Line.instr .pop .none, Line.instr .loop (.short (before + Code.size i + 7))] ++ d))
    refine (accepts_emitLoop ?_ h').weaken fun _ c₁ ⟨hback, h₁⟩ => ?_
    · simp [loopBack, Line.bytes, Operand.bytes, hpost, Nat.add_assoc]
    · have hsize : Code.size (i ++
          [Line.instr .pop .none, Line.instr .loop (.short (before + Code.size i + 7))] ++ d) =
            Code.size i + 4 + Code.size d := by
        simp only [Code.size_append]
        rfl
      rw [Code.length_bytes, hsize] at hback h₁
      exact ⟨hback, h₁.recode (by simp [incrementCode, backSize])⟩

def closeCondition : Option Nat → CompileM Unit
  | none => pure ()
  | some place => do
    patchJump place
    emit .pop

instance (exit : Option Nat) : Reports (closeCondition exit) := by
  unfold closeCondition
  split <;> infer_instance

theorem accepts_loopEnd {a b : Option (List Line)} {d : List Line} (ha : ∀ lines ∈ a, Code.Fits lines)
    (hb : Code.Fits (incrementCode b (conditionSize a))) (hd : Code.Fits d)
    (h : At c prev ts g ((code ++ openCondition a ++
      Code.bytes (incrementCode b (conditionSize a) ++ d)) :: codes)) :
    Accepts (do
      emitLoop (loopBack code.length (conditionSize a) b)
      closeCondition (a.map fun lines => code.length + Code.size lines + 1)) c fun _ c' =>
        Code.Fits (loopCode a b d) ∧ At c' prev ts g ((code ++ Code.bytes (loopCode a b d)) :: codes) := by
  refine .bind (accepts_loopBack (length_openCondition a) h) fun _ c₁ ⟨hback, h₁⟩ => ?_
  have hloop : Code.Fits [Line.instr .loop (.short (backSize (conditionSize a) b + Code.size d + 3))] :=
    List.forall_mem_singleton.mpr hback
  cases a with
  | none =>
    refine .pure ⟨?_, h₁.recode ?_⟩
    · simpa [loopCode, conditionCode] using (hb.append hd).append hloop
    · simp [loopCode, conditionCode, openCondition]
  | some a =>
    have h₁' := h₁.recode (by simp [openCondition] : _ = (code ++ Code.bytes a) ++
      Opcode.jumpIfFalse.toByte :: 0xff :: 0xff :: Code.bytes ([Line.instr .pop .none] ++
        incrementCode b (conditionSize (some a)) ++ d ++
        [Line.instr .loop (.short (backSize (conditionSize (some a)) b + Code.size d + 3))]))
    refine .bind (accepts_patchJump (by simp) h₁') fun _ c₂ ⟨hfar, h₂⟩ => ?_
    refine (accepts_emit .pop h₂).weaken fun _ c₃ h₃ => ?_
    have hjump : (Code.bytes ([Line.instr .pop .none] ++ incrementCode b (conditionSize (some a)) ++ d ++
        [Line.instr .loop (.short (backSize (conditionSize (some a)) b + Code.size d + 3))])).length =
          1 + (Code.size (incrementCode b (conditionSize (some a))) + Code.size d + 3) := by
      simp only [Code.length_bytes, Code.size_append, Nat.add_assoc]
      rfl
    rw [hjump] at hfar h₃
    refine ⟨?_, h₃.recode (by simp [loopCode, conditionCode])⟩
    have hexit : Code.Fits [Line.instr .jumpIfFalse
        (.short (1 + (Code.size (incrementCode b (conditionSize (some a))) + Code.size d + 3))),
        Line.instr .pop .none] := Code.fits_cons hfar (Code.fits_plain _)
    simpa [loopCode, conditionCode] using
      ((((ha a rfl).append hexit).append hb).append hd).append (hloop.append (Code.fits_plain .pop))

instance [∀ g, Sketches (parse g)] : Reports (forCondition parse) := by
  unfold forCondition
  infer_instance

def forClauses (parse : Goal → CompileM Unit) : CompileM Unit := do
  let start ← codeSize
  let exitJump ← forCondition parse
  let back ← forIncrement parse start
  parse .statement
  emitLoop back
  closeCondition exitJump

theorem forStatement_eq (parse : Goal → CompileM Unit) : forStatement parse = (do
    beginScope
    consume .leftParen "'(' after 'for'"
    forInitializer parse
    forClauses parse
    endScope) := by
  unfold forStatement forClauses closeCondition
  congr
  funext _
  congr
  funext _
  congr
  funext _ c
  simp only [run_bind]
  cases (forCondition parse (codeSize c).2).1 <;> rfl

instance [∀ g, Sketches (parse g)] : Reports (forClauses parse) := by
  unfold forClauses
  refine .bind fun _ => .bind fun _ => .bind fun _ => .bind fun _ => ?_
  infer_instance

def clauses (parts : Parser.Parts) : Parser (Option Expr × Option Expr × Stmt) := do
  let condition ← Parser.clause? parts .semicolon
  let increment ← Parser.clause? parts .rightParen
  let body ← parts.statement
  return (condition, increment, body)

def clausesCode (condition increment : Option Expr) (body : Stmt) : PlanM (List Line) := do
  let a ← Expr.code? condition
  let b ← Expr.code? increment
  let c ← bodyCode body.isDeclaration body.code
  return loopCode a b c

theorem accepts_forClauses (hf : Tracks parse parts n) (h : At c prev ts g (code :: codes))
    (hn : 4 * ts.length + 1 ≤ n) : Accepts (forClauses parse) c fun _ =>
      Produces 1 (clauses parts) (Made fun r => clausesCode r.1 r.2.1 r.2.2) ts g code codes := by
  have := hf.sketches
  refine .read (run_codeSize h) ?_
  refine .bind (accepts_forCondition hf h (by omega))
    fun exit c₁ ⟨e₁, ts₁, a, g₁, prev₁, hp₁, hlen₁, hg₁, hfits₁, hexit, h₁⟩ => ?_
  subst hexit
  refine .bind (accepts_forIncrement hf rfl h₁ (by omega))
    fun back c₂ ⟨e₂, ts₂, b, g₂, prev₂, hp₂, hlen₂, hg₂, hfits₂, hback, h₂⟩ => ?_
  subst hback
  refine .bind (hf.statement h₂ (by omega))
    fun _ c₃ ⟨s, ts₃, d, g₃, prev₃, hp₃, hlen₃, hg₃, hfits₃, h₃⟩ => ?_
  rw [length_openCondition] at hfits₂ h₃ ⊢
  refine (accepts_loopEnd hfits₁ hfits₂ hfits₃ (h₃.recode (by simp))).weaken fun _ c₄ ⟨hfits₄, h₄⟩ => ?_
  refine ⟨(e₁, e₂, s), ts₃, loopCode a b d, g₃, prev₃, ?_, by omega, ?_, hfits₄, h₄⟩
  · unfold clauses
    rw [bind_of hp₁, bind_of hp₂, bind_of hp₃]
    rfl
  · show clausesCode e₁ e₂ s g = _
    unfold clausesCode
    rw [bind_of hg₁, bind_of hg₂, bind_of (bodyCode_of hf hp₃ hg₃)]
    rfl

theorem accepts_forStatement (hf : Tracks parse parts n) (h : At c prev ts g (code :: codes))
    (hn : 4 * ts.length + 1 ≤ n) : Accepts (forStatement parse) c fun _ =>
      Produces 0 (Parser.forStatement parts) (Made Stmt.code) ts g code codes := by
  have := hf.sketches
  obtain ⟨l, ls, -, hl⟩ := h.level
  rw [forStatement_eq]
  refine .bind (accepts_beginScope h) fun _ c₁ ⟨g₁, hg₁, h₁⟩ => ?_
  refine .bind (accepts_consume h₁ (by nofun)) fun _ c₂ ⟨t, ts₂, hts, _, h₂, hp₂⟩ => ?_
  subst hts
  rw [List.length_cons] at hn
  refine .bind (accepts_forInitializer hf h₂ (by omega))
    fun _ c₃ ⟨s, ts₃, a, g₃, prev₃, hp₃, hlen₃, hg₃, hfits₃, h₃⟩ => ?_
  refine .bind (accepts_forClauses hf h₃ (by omega))
    fun _ c₄ ⟨r, ts₄, b, g₄, prev₄, hp₄, hlen₄, hg₄, hfits₄, h₄⟩ => ?_
  refine (accepts_endScope h₄).weaken fun _ c₅ ⟨drop, g₅, hg₅, hfits₅, h₅⟩ => ?_
  obtain ⟨condition, increment, body⟩ := r
  refine ⟨.for_ s condition increment body, ts₄, .mark l.locals.length :: a ++ b ++ drop, g₅, prev₄, ?_, ?_,
    ?_, .append (.append (Code.fits_cons trivial hfits₃) hfits₄) hfits₅, h₅.recode (by simp [Line.bytes])⟩
  · have hclauses : Parser.forStatement parts = (do
        let _ ← Parser.expect .leftParen
        let initializer ← Parser.forInitializer parts
        let r ← clauses parts
        return .for_ initializer r.1 r.2.1 r.2.2) := by
      unfold Parser.forStatement clauses
      simp only [bind_assoc, pure_bind]
    rw [hclauses, bind_of hp₂, bind_of hp₃, bind_of hp₄]
    rfl
  · rw [List.length_cons]
    omega
  · show Stmt.code _ g = _
    have hclauses : Stmt.code (.for_ s condition increment body) = (do
        let l ← PlanM.level
        PlanM.beginScope
        let a ← s.code
        let b ← clausesCode condition increment body
        let drop ← PlanM.endScope
        return .mark l.locals.length :: a ++ b ++ drop) := by
      rw [Stmt.code]
      unfold clausesCode
      simp only [bind_assoc, pure_bind]
    rw [hclauses, bind_of hl, bind_of hg₁, bind_of hg₃, bind_of hg₄, bind_of hg₅]
    rfl

theorem accepts_blockEnd {t : Token} {rest : List Token} (h : At c prev (t :: rest) g codes) :
    (check .rightBrace <||> check .eof) c = (decide (t.kind = .rightBrace ∨ t.kind = .eof), c) ∧
      (Parser.check .rightBrace <||> Parser.check .eof) (t :: rest) =
        some (decide (t.kind = .rightBrace ∨ t.kind = .eof), t :: rest) := by
  obtain ⟨hbrace, hpbrace⟩ := run_check (k := .rightBrace) h
  obtain ⟨heof, hpeof⟩ := run_check (k := .eof) h
  unfold orM
  rw [run_bind, hbrace, bind_of hpbrace]
  by_cases hclose : t.kind = .rightBrace
  · rw [decide_eq_true hclose, decide_eq_true (.inl hclose)]
    exact ⟨rfl, rfl⟩
  · rw [decide_eq_false hclose, decide_eq_decide.mpr (or_iff_right hclose)]
    exact ⟨heof, hpeof⟩

def blockItems (parse : Goal → CompileM Unit) (fuel : Nat) : CompileM Unit :=
  loop fuel do
    if ← check .rightBrace <||> check .eof then return false
    parse .declaration
    return true

theorem accepts_blockItems (hf : Tracks parse parts n) (fuel : Nat) (hfuel : ts.length ≤ fuel)
    (h : At c prev ts g (code :: codes)) (hn : 4 * ts.length + 2 ≤ n) :
    Accepts (blockItems parse fuel) c fun _ =>
      Produces 0 (Parser.declarations parts fuel) (Made Stmt.codeOfAll) ts g code codes := by
  have := hf.sketches
  induction fuel generalizing c prev ts g code with
  | zero =>
    obtain _ | ⟨t, ts⟩ := ts
    · exact h.stream.elim
    · simp at hfuel
  | succ fuel ih =>
    obtain _ | ⟨t, rest⟩ := ts
    · exact h.stream.elim
    obtain ⟨hend, hpend⟩ := accepts_blockEnd h
    unfold blockItems loop
    rw [bind_assoc]
    refine .read hend ?_
    by_cases hclose : t.kind = .rightBrace ∨ t.kind = .eof
    · rw [decide_eq_true hclose]
      refine .pure ⟨[], t :: rest, [], g, prev, ?_, Nat.le_refl _, ?_, Code.fits_nil, h.recode (by simp)⟩
      · unfold Parser.declarations
        rw [bind_of hpend, decide_eq_true hclose]
        rfl
      · show Stmt.codeOfAll _ g = _
        rw [Stmt.codeOfAll]
        rfl
    · rw [decide_eq_false hclose]
      simp only [Bool.false_eq_true, if_false, bind_assoc, pure_bind, if_true]
      refine .bind (hf.declaration h hn) ?_
      rintro _ c₁ ⟨s, ts₁, a, g₁, prev₁, hp₁, hlen₁, hg₁, hfits₁, h₁⟩
      rw [List.length_cons] at hfuel hlen₁ hn
      refine (ih (by omega) h₁ (by omega)).weaken ?_
      rintro _ c₂ ⟨ss, ts₂, b, g₂, prev₂, hp₂, hlen₂, hg₂, hfits₂, h₂⟩
      refine ⟨s :: ss, ts₂, a ++ b, g₂, prev₂, ?_, ?_, ?_, hfits₁.append hfits₂, h₂.recode (by simp)⟩
      · unfold Parser.declarations
        rw [bind_of hpend, decide_eq_false hclose, if_neg Bool.false_ne_true, bind_of hp₁, bind_of hp₂]
        rfl
      · rw [List.length_cons]
        omega
      · show Stmt.codeOfAll _ g = _
        rw [Stmt.codeOfAll, bind_of hg₁, bind_of hg₂]
        rfl

theorem accepts_block (hf : Tracks parse parts n) (h : At c prev ts g (code :: codes))
    (hn : 4 * ts.length + 2 ≤ n) : Accepts (block parse n) c fun _ =>
      Produces 1 (Parser.block parts n) (Made Stmt.codeOfAll) ts g code codes := by
  have := hf.sketches
  unfold Parser.block
  refine .bind (accepts_blockItems hf n (by omega) h hn)
    fun _ c₁ ⟨ss, ts₁, a, g₁, prev₁, hp₁, hlen₁, hg₁, hfits₁, h₁⟩ => ?_
  refine (accepts_consume h₁ (by nofun)).weaken fun _ c₂ ⟨t, ts₂, hts, _, h₂, hp₂⟩ => ?_
  subst hts
  refine ⟨ss, ts₂, a, g₁, t, ?_, hlen₁, hg₁, hfits₁, h₂⟩
  rw [bind_of hp₁, bind_of hp₂]
  rfl

theorem accepts_blockStatement (hf : Tracks parse parts n) (h : At c prev ts g (code :: codes))
    (hn : 4 * ts.length + 2 ≤ n) : Accepts (do
      beginScope
      block parse n
      endScope) c fun _ =>
        Produces 0 (do return .block (← Parser.block parts n)) (Made Stmt.code) ts g code codes := by
  have := hf.sketches
  obtain ⟨l, ls, -, hl⟩ := h.level
  refine .bind (accepts_beginScope h) fun _ c₁ ⟨g₁, hg₁, h₁⟩ => ?_
  refine .bind (accepts_block hf h₁ hn)
    fun _ c₂ ⟨ss, ts₂, a, g₂, prev₂, hp₂, hlen₂, hg₂, hfits₂, h₂⟩ => ?_
  refine (accepts_endScope h₂).weaken fun _ c₃ ⟨drop, g₃, hg₃, hfits₃, h₃⟩ => ?_
  refine ⟨.block ss, ts₂, .mark l.locals.length :: a ++ drop, g₃, prev₂, ?_, by omega, ?_,
    .append (Code.fits_cons trivial hfits₂) hfits₃, h₃.recode (by simp [Line.bytes])⟩
  · rw [bind_of hp₂]
    rfl
  · show Stmt.code _ g = _
    rw [Stmt.code, bind_of hl, bind_of hg₁, bind_of hg₂, bind_of hg₃]
    rfl

theorem Produces.choose {k : TokenKind} {taken : Nat} {x y : CompileM Unit} {p q : Parser Stmt}
    [Reports x] [Reports y] (hk : k ≠ .eof) (h : At c prev ts g (code :: codes))
    (hx : ∀ t ts' c', ts = t :: ts' → At c' t ts' g (code :: codes) →
      Accepts x c' fun _ => Produces 0 p (Made Stmt.code) ts' g code codes)
    (hy : Accepts y c fun _ => Produces taken q (Made Stmt.code) ts g code codes) (htaken : taken ≤ 1) :
    Accepts (do if ← accept k then x else y) c fun _ =>
      Produces taken (do if ← Parser.accept k then p else q) (Made Stmt.code) ts g code codes := by
  refine .bind (accepts_accept h hk) fun b c₁ hb => ?_
  rcases hb with ⟨rfl, t, ts₁, rfl, -, h₁, hp₁, -⟩ | ⟨rfl, rfl, hp₁, -⟩
  · refine (hx t ts₁ c₁ rfl h₁).weaken
      fun _ c₂ ⟨s, ts₂, a, g₂, prev₂, hp₂, hlen₂, hg₂, hfits₂, h₂⟩ => ?_
    refine ⟨s, ts₂, a, g₂, prev₂, ?_, ?_, hg₂, hfits₂, h₂⟩
    · rw [bind_of hp₁]
      exact hp₂
    · rw [List.length_cons]
      omega
  · refine hy.weaken fun _ c₂ ⟨s, ts₂, a, g₂, prev₂, hp₂, hlen₂, hg₂, hfits₂, h₂⟩ => ?_
    refine ⟨s, ts₂, a, g₂, prev₂, ?_, hlen₂, hg₂, hfits₂, h₂⟩
    rw [bind_of hp₁]
    exact hp₂

set_option synthInstance.maxSize 4096 in
theorem accepts_statement (hf : Tracks parse parts n) (h : At c prev ts g (code :: codes))
    (hn : 4 * ts.length ≤ n) : Accepts (statement parse n) c fun _ =>
      Produces 1 (Parser.statement parts n) (Made Stmt.code) ts g code codes := by
  have := hf.sketches
  have hless {t : Token} {ts' : List Token} (hts : ts = t :: ts') : 4 * ts'.length + 2 ≤ n := by
    rw [hts, List.length_cons] at hn
    omega
  refine Produces.choose nofun h (fun t ts' c' hts h' =>
    accepts_printStatement hf h' (by have := hless hts; omega)) ?_ (Nat.le_refl _)
  refine Produces.choose nofun h (fun t ts' c' hts h' =>
    accepts_forStatement hf h' (by have := hless hts; omega)) ?_ (Nat.le_refl _)
  refine Produces.choose nofun h (fun t ts' c' hts h' =>
    accepts_ifStatement hf h' (by have := hless hts; omega)) ?_ (Nat.le_refl _)
  refine Produces.choose nofun h (fun t ts' c' hts h' =>
    accepts_returnStatement hf h' (by have := hless hts; omega)) ?_ (Nat.le_refl _)
  refine Produces.choose nofun h (fun t ts' c' hts h' =>
    accepts_whileStatement hf h' (by have := hless hts; omega)) ?_ (Nat.le_refl _)
  refine Produces.choose nofun h (fun t ts' c' hts h' =>
    accepts_blockStatement hf h' (hless hts)) ?_ (Nat.le_refl _)
  exact accepts_expressionStatement hf h hn

end Lox.CompileM

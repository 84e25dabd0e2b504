import Lox.Proofs.Source.Ruling

set_option synthInstance.maxSize 1024

namespace Lox

namespace CompileM

open Compiler

variable {α β : Type} {places : List Nat}

class RulesFirst (act : CompileM α) : Prop where
  running : ∀ c, (act c).2.stuck = false → c.stuck = false
  reports : Reports act
  rules : ∀ last c rows rss, (act c).2.stuck = false → (act c).2.diagnostics = [] → c.Ruling last (rows :: rss) →
    1 ≤ (act c).2.previous.line ∧ ∃ more, (act c).2.Ruling last ((rows ++ more) :: rss)

instance (priority := low) Rules.of_first {act : CompileM α} [h : RulesFirst act] : Rules places act where
  running := h.running
  reports := h.reports
  rules last c rows rss hrun hclean _ hc _ := h.rules last c rows rss hrun hclean hc

namespace RulesFirst

theorem bind {x : CompileM α} {f : α → CompileM β} [hx : RulesFirst x] [hf : ∀ a, Rules [] (f a)] :
    RulesFirst (x >>= f) where
  running c h := hx.running c ((hf _).running _ h)
  reports :=
    have := hx.reports
    .bind fun a => (hf a).reports
  rules last c rows rss hrun hclean hc := by
    have hrest := hf (x c).1
    obtain ⟨hone, more, hc'⟩ := hx.rules last c rows rss (hrest.running _ hrun) (hrest.reports.clean _ hclean) hc
    obtain ⟨hone', more', hc''⟩ := hrest.rules last _ _ rss hrun hclean hone hc' nofun
    exact ⟨hone', more ++ more', by rwa [← List.append_assoc]⟩

instance : RulesFirst advance where
  running := (inferInstance : Starts advance).running
  reports := inferInstance
  rules last c rows rss hrun hclean hc := by
    obtain ⟨hone, hc'⟩ := ruling_advance hc hrun hclean
    exact ⟨hone, [], by rwa [List.append_nil]⟩

theorem giveUp : RulesFirst giveUp where
  running _ h := by cases h
  reports := inferInstance
  rules _ _ _ _ h := by cases h

theorem choose {t : TokenKind} {x y : CompileM α} [hx : Rules [] x] (hy : RulesFirst y) :
    RulesFirst (do if ← accept t then x else y) where
  running c h := by
    rw [run_bind, accept_eq] at h
    split at h
    · exact (inferInstance : Starts advance).running c (hx.running _ h)
    · exact hy.running c h
  reports := by
    have hleft := hx.reports
    have hright := hy.reports
    infer_instance
  rules last c rows rss hrun hclean hc := by
    rw [run_bind, accept_eq] at hrun hclean ⊢
    split at hrun
    · rename_i hkind
      rw [if_pos hkind] at hclean ⊢
      exact (bind : RulesFirst (do advance; x)).rules last c rows rss hrun hclean hc
    · rename_i hkind
      rw [if_neg hkind] at hclean ⊢
      exact hy.rules last c rows rss hrun hclean hc

theorem loop {body : CompileM Bool} [hbody : RulesFirst body] (n : Nat) : RulesFirst (loop n body) := by
  cases n with
  | zero => exact giveUp
  | succ n => exact bind

end RulesFirst

class RulesGoals (parse : Goal → CompileM Unit) : Prop extends OrdersGoals parse where
  goals : ∀ goal, RulesFirst (parse goal)

section Productions

variable (parse : Goal → CompileM Unit) (n : Nat) [hp : RulesGoals parse]

instance (goal : Goal) : RulesFirst (parse goal) :=
  hp.goals goal

instance : RulesFirst (expression parse) :=
  hp.goals _

instance (name : Bytes) (canAssign : Bool) : Rules places (namedVariable parse name canAssign) := by
  refine .bind_of (P := fun r => r.1.width? = some 1 ∧ r.2.1.width? = some 1) inferInstance (width_resolve name) ?_
  rintro ⟨getOp, setOp, operand⟩ ⟨hget, hset⟩
  have hread : Rules places (emitWith getOp operand) := rules_emitWith hget operand
  have hwrite : Rules places (emitWith setOp operand) := rules_emitWith hset operand
  dsimp only
  infer_instance

instance (canAssign : Bool) : Rules places (variable_ parse canAssign) := by
  unfold variable_
  infer_instance

omit hp in
instance : Rules places numberLiteral := by
  have hemit (f : Float) : Rules places (emitConstant (.number (.number f))) := rules_emitConstant
  unfold numberLiteral
  dsimp only
  infer_instance

omit hp in
instance : Rules places stringLiteral := by
  have hemit (chars : Bytes) : Rules places (emitConstant (.string chars)) := rules_emitConstant
  have hgiveUp : Rules places giveUp := .giveUp
  unfold stringLiteral
  infer_instance

instance : Rules places (grouping parse) := by
  unfold grouping
  infer_instance

instance (operator : TokenKind) : Rules places (unary parse operator) := by
  have hemit : Rules places (emit (if operator = .bang then .not else .negate)) := rules_emit (by split <;> rfl)
  unfold unary
  infer_instance

instance (count fuel : Nat) : Rules places (argumentsFrom parse count fuel) := by
  induction fuel generalizing count with
  | zero => exact (inferInstance : Rules places (do giveUp; pure count))
  | succ fuel ih =>
    unfold argumentsFrom
    infer_instance

instance : Rules places (argumentList parse n) := by
  unfold argumentList
  infer_instance

instance : Rules places (call parse n) := by
  have hemit (count : UInt8) : Rules places (emitWith .call count) := rules_emitWith rfl count
  unfold call
  infer_instance

instance (name : UInt8) (canAssign : Bool) : Rules places (property parse n name canAssign) := by
  have hset : Rules places (emitWith .setProperty name) := rules_emitWith rfl name
  have hget : Rules places (emitWith .getProperty name) := rules_emitWith rfl name
  have hinvoke (count : UInt8) : Rules places (do
      emitWith .invoke name
      emitByte count) := rules_emitPair rfl name count
  unfold property
  infer_instance

instance (canAssign : Bool) : Rules places (dot parse n canAssign) := by
  unfold dot
  infer_instance

instance : Rules places (this_ parse) := by
  unfold this_
  infer_instance

instance (name : UInt8) : Rules places (superMethod parse n name) := by
  have hget : Rules places (emitWith .getSuper name) := rules_emitWith rfl name
  have hinvoke (count : UInt8) : Rules places (do
      emitWith .superInvoke name
      emitByte count) := rules_emitPair rfl name count
  unfold superMethod
  infer_instance

instance : Rules places (super_ parse n) := by
  unfold super_
  dsimp only
  refine .bind fun c => ?_
  split
  · infer_instance
  · split <;> infer_instance

omit hp in
theorem width_binaryCode (operator : TokenKind) : ∀ op ∈ binaryCode operator, op.width? = some 0 := by
  cases operator <;> decide

instance (operator : TokenKind) : Rules places (binary parse operator) := by
  have hemit : Rules places ((binaryCode operator).forM emit) := rules_emits (width_binaryCode operator)
  unfold binary
  infer_instance

instance : Rules places (and_ parse) :=
  .jump rfl fun _ => .bind fun _ => .bind fun _ => .patch (List.mem_cons_self ..)

instance : Rules places (or_ parse) := by
  refine .jump rfl fun elseJump => .jump rfl fun endJump => .patch_bind (.tail _ (.head _)) fun _ => ?_
  exact .bind fun _ => .bind fun _ => .patch (.head _)

theorem rules_prefixRule {canAssign : Bool} {k : TokenKind} {rule : CompileM Unit}
    (h : prefixRule parse n canAssign k = some rule) : Rules places rule := by
  have hfalse : Rules places (emit .false) := rules_emit rfl
  have htrue : Rules places (emit .true) := rules_emit rfl
  cases k <;> cases h <;> infer_instance

instance (canAssign : Bool) (k : TokenKind) : Rules places (infixRule parse n canAssign k) := by
  unfold infixRule
  split <;> infer_instance

theorem first_parsePrecedence (precedence : Nat) : RulesFirst (parsePrecedence parse n precedence) := by
  unfold parsePrecedence
  refine @RulesFirst.bind _ _ _ _ _ fun _ => .bind fun c => ?_
  split
  · infer_instance
  · rename_i rule hrule
    have hfirst : Rules [] rule := rules_prefixRule parse n hrule
    infer_instance

instance : Rules places (block parse n) := by
  unfold block
  infer_instance

instance : Rules places (printStatement parse) := by
  have hprint : Rules places (emit .print) := rules_emit rfl
  unfold printStatement
  infer_instance

theorem first_expressionStatement : RulesFirst (expressionStatement parse) := by
  unfold expressionStatement
  exact .bind

instance : RulesFirst (expressionStatement parse) :=
  first_expressionStatement parse

instance : Rules places (returnStatement parse) := by
  have hreturn : Rules places (emit .return_) := rules_emit rfl
  unfold returnStatement
  infer_instance

instance : Rules places (ifStatement parse) := by
  refine .bind fun _ => .bind fun _ => .bind fun _ => .jump rfl fun thenJump => .bind fun _ => .bind fun _ => ?_
  refine .jump rfl fun elseJump => .patch_bind (.tail _ (.head _)) fun _ => .bind fun _ => .bind fun b => ?_
  cases b with
  | true => exact .bind fun _ => .patch (.head _)
  | false => exact .patch (.head _)

instance : Rules places (whileStatement parse) := by
  refine .bind fun start => .bind fun _ => .bind fun _ => .bind fun _ => .jump rfl fun exitJump => ?_
  refine .bind fun _ => .bind fun _ => .bind fun _ => .patch_bind (.head _) fun _ => ?_
  infer_instance

instance : Rules places (varDeclaration parse) := by
  unfold varDeclaration
  infer_instance

theorem rules_forCondition {f : Option Nat → CompileM α} (hnone : Rules places (f none))
    (hsome : ∀ place, Rules (place :: places) (f (some place))) : Rules places (forCondition parse >>= f) := by
  rw [forCondition_bind]
  refine .bind fun b => ?_
  cases b with
  | true => exact hnone
  | false => exact .bind fun _ => .bind fun _ => .jump rfl fun place => .bind fun _ => hsome place

instance (start : Nat) : Rules places (forIncrement parse start) := by
  refine .bind fun b => ?_
  cases b with
  | true => exact (inferInstance : Rules places (pure start))
  | false =>
    refine .jump rfl fun bodyJump => .bind fun _ => .bind fun _ => .bind fun _ => .bind fun _ => ?_
    refine .bind fun _ => .patch_bind (.head _) fun _ => ?_
    infer_instance

instance : Rules places (forInitializer parse) := by
  unfold forInitializer
  infer_instance

instance : Rules places (forStatement parse) := by
  refine .bind fun _ => .bind fun _ => .bind fun _ => .bind fun start => ?_
  refine rules_forCondition parse ?_ fun place => ?_
  · infer_instance
  · refine .bind fun back => .bind fun _ => .bind fun _ => .patch_bind (.head _) fun _ => ?_
    infer_instance

theorem first_statement : RulesFirst (statement parse n) := by
  unfold statement
  exact .choose <| .choose <| .choose <| .choose <| .choose <| .choose inferInstance

omit hp in
instance (classes : Compiler → List Bool) :
    Rules places (modify fun c : Compiler => { c with classes := classes c } : CompileM Unit) :=
  have : Reports (modify fun c : Compiler => { c with classes := classes c } : CompileM Unit) := .modify fun _ => rfl
  .unchanged (fun _ => rfl) (fun _ => rfl) fun _ => rfl

omit hp in
instance : Rules places (parameters n) := by
  have hparameter : Rules places (extend .parameter fun e => { e with arity := e.arity + 1 }) :=
    rules_extend (fun _ => rfl) fun h => { h with
      laid := ⟨h.laid.lines, h.laid.code, fun before r after hr =>
        (h.laid.fits before r after hr).mono List.prefix_rfl List.prefix_rfl⟩ }
  unfold parameters
  infer_instance

instance : Rules places (functionBody parse n) := by
  unfold functionBody
  infer_instance

theorem ruling_function {kind : FunctionKind} {last : Nat} {c : Compiler} {rows : List Row} {rss : List (List Row)}
    (hrun : (function parse n kind c).2.stuck = false) (hclean : (function parse n kind c).2.diagnostics = [])
    (hone : 1 ≤ c.previous.line) (hc : c.Ruling last (rows :: rss)) :
    1 ≤ (function parse n kind c).2.previous.line ∧ ∃ r, (function parse n kind c).2.Ruling last
        ((rows ++ [r]) :: rss) := by
  have hbody := (inferInstance : Rules [] (functionBody parse n))
  unfold function at hrun hclean ⊢
  rw [run_bind, run_bind, run_bind, run_bind, run_bind] at hrun hclean ⊢
  have hone₁ : 1 ≤ (beginFunction kind c).2.previous.line :=
    (congrArg (·.1.line) ((inferInstance : Quiet (beginFunction kind)).view c)).symm ▸ hone
  have hc₁ := ruling_beginFunction kind hc
  generalize (beginFunction kind c).2 = c₁ at *
  generalize hbodied : (functionBody parse n c₁).2 = c₂ at *
  have hclosing (index : UInt8) (captures : List Capture) : Quiet (do
      emitWith .closure index
      captures.forM fun k => do
        emitByte (if k.isLocal then 1 else 0)
        emitByte k.index) := inferInstance
  have hrun₄ := (hclosing _ _).running (makeConstant .enclose (endFunction c₂).2).2 hrun
  have hclean₄ := (congrArg (·.2.2.2.2) ((hclosing _ _).view (makeConstant .enclose (endFunction c₂).2).2)).symm.trans
      hclean
  have hrun₃ : (endFunction c₂).2.stuck = false := (inferInstance : Follows (makeConstant .enclose)).running _ hrun₄
  have hclean₃ : (endFunction c₂).2.diagnostics = [] := (inferInstance : Reports (makeConstant .enclose)).clean _
      hclean₄
  have hrun₂ : c₂.stuck = false := (inferInstance : Quiet endFunction).running _ hrun₃
  have hclean₂ : c₂.diagnostics = [] := (inferInstance : Reports endFunction).clean _ hclean₃
  obtain ⟨hone₂, more, hc₂⟩ := hbodied ▸ hbody.rules last c₁ [] (rows :: rss) (hbodied ▸ hrun₂) (hbodied ▸ hclean₂)
      hone₁ hc₁ nofun
  have hview₃ := (inferInstance : Quiet endFunction).view c₂
  obtain ⟨d, p, hd, hopens, hp, hcaptures⟩ := ended_endFunction hc₂ hone₂ hrun₃ hclean₃
  have hcalm : (endFunction c₂).2.panicking = false := (congrArg (·.2.2.2.1) hview₃).trans hc₂.calm
  obtain ⟨hview₄, hdrafted, hconstant⟩ := enclosed_makeConstant hd hopens hp hcalm hclean₄
  have hc₄ := hc₂.still (hview₄.trans hview₃) hdrafted
  have hone₄ : 1 ≤ (makeConstant .enclose (endFunction c₂).2).2.previous.line :=
    (congrArg (·.1.line) (hview₄.trans hview₃)).symm ▸ hone₂
  exact ruling_closure hc₄ hone₄ hconstant hcaptures

instance (kind : FunctionKind) : Rules places (function parse n kind) where
  running := (inferInstance : Follows (function parse n kind)).running
  reports := by
    have hbody := (inferInstance : Rules [] (functionBody parse n)).reports
    unfold function
    infer_instance
  rules last c rows rss hrun hclean hone hc _ := by
    obtain ⟨hone', r, hc'⟩ := ruling_function parse n hrun hclean hone hc
    exact ⟨hone', [r], hc'⟩

instance : Rules places (method parse n) := by
  have hemit (k : UInt8) : Rules places (emitWith .method k) := rules_emitWith rfl k
  unfold method
  infer_instance

instance (className : Bytes) : Rules places (superclass parse className) := by
  have hinherit : Rules places (emit .inherit) := rules_emit rfl
  unfold superclass
  dsimp only
  refine .bind fun _ => .bind fun _ => .bind fun name => ?_
  split <;> infer_instance

instance (className : Bytes) : Rules places (openClass parse className) := by
  unfold openClass
  infer_instance

instance (fuel : Nat) : Rules places (methodItems parse n fuel) := by
  unfold methodItems
  infer_instance

instance (className : Bytes) : Rules places (classBody parse n className) := by
  unfold classBody
  dsimp only
  infer_instance

instance : Rules places (classDeclaration parse n) := by
  have hclass (k : UInt8) : Rules places (emitWith .class_ k) := rules_emitWith rfl k
  rw [classDeclaration_eq]
  infer_instance

instance : Rules places (funDeclaration parse n) := by
  unfold funDeclaration
  infer_instance

theorem first_declarationOrStatement : RulesFirst (declarationOrStatement parse n) := by
  unfold declarationOrStatement
  exact .choose <| .choose <| .choose inferInstance

theorem first_declaration : RulesFirst (declaration parse n) := by
  have hrest : Rules [] (do if (← get).panicking then synchronize n) := {
    running c h := by
      cases hpanicking : c.panicking with
      | true =>
        have hskip : (do if (← get).panicking then synchronize n : CompileM Unit) c = synchronize n c :=
          congrFun (if_pos hpanicking) c
        rw [hskip] at h
        exact (orders_synchronize n).running c h
      | false =>
        have hstay : (do if (← get).panicking then synchronize n : CompileM Unit) c = ((), c) :=
          congrFun (if_neg (hpanicking ▸ Bool.false_ne_true)) c
        rwa [hstay] at h
    reports := inferInstance
    rules last c rows rss hrun hclean hone hc _ := by
      have hstay : (do if (← get).panicking then synchronize n : CompileM Unit) c = ((), c) :=
        congrFun (if_neg (hc.calm ▸ Bool.false_ne_true)) c
      rw [hstay]
      exact ⟨hone, [], by rwa [List.append_nil]⟩ }
  have hfirst := first_declarationOrStatement parse n
  exact .bind

end Productions

theorem rulesGoals_parse (n : Nat) : RulesGoals (parse n) := by
  induction n with
  | zero => exact { ordersGoals_parse 0 with goals := fun _ => .giveUp }
  | succ n ih =>
    refine { ordersGoals_parse (n + 1) with goals := fun goal => ?_ }
    cases goal with
    | declaration => exact first_declaration (parse n) n
    | statement => exact first_statement (parse n) n
    | expression precedence => exact first_parsePrecedence (parse n) n precedence

theorem ruling_start {t : Token} {ts : List Token} {last : Nat} (htokens : (t :: ts).Pairwise fun t u =>
    t.line ≤ u.line)
    (hbounds : ∀ u ∈ t :: ts, 1 ≤ u.line ∧ u.line ≤ last)
    (hclean : (advance (beginFunction .script { upcoming := t :: ts }).2).2.diagnostics = []) :
    (advance (beginFunction .script { upcoming := t :: ts }).2).2.Ruling last [[]] := by
  have hdrafted : (beginFunction .script { upcoming := t :: ts }).2.Drafted last 0 [[]] :=
    drafted_begin .script ⟨{}, rfl, .nil⟩
  obtain ⟨horders, hextents, hscopes, hcalm⟩ := advanceTo_keeps
      (beginFunction .script { upcoming := t :: ts }).2.upcoming
    { (beginFunction .script { upcoming := t :: ts }).2 with
    previous := (beginFunction .script { upcoming := t :: ts }).2.current }
  exact ⟨ordered_start htokens hbounds, hcalm rfl hclean, hdrafted.congr horders hextents (congrArg _ hscopes)
      (Nat.zero_le _)⟩

theorem ruled_program {t : Token} {ts : List Token} {last fuel : Nat} {d : List Prototype} {p : Prototype}
    (htokens : (t :: ts).Pairwise fun t u => t.line ≤ u.line) (hbounds : ∀ u ∈ t :: ts, 1 ≤ u.line ∧ u.line ≤ last)
    (hrun : (program fuel { upcoming := t :: ts }).2.stuck = false)
    (hclean : (program fuel { upcoming := t :: ts }).2.diagnostics = [])
    (hd : (program fuel { upcoming := t :: ts }).2.drafts = some ⟨d, some p⟩) : p.Ruled last := by
  have hparse := rulesGoals_parse fuel
  have hround : RulesFirst (do
      if ← accept .eof then return false
      parse fuel .declaration
      return true : CompileM Bool) := by
    refine .choose ?_
    exact .bind
  have hloop := hround.loop fuel
  rw [run_program] at hrun hclean hd
  unfold declarations at hrun hclean hd
  rw [run_bind] at hrun hclean hd
  generalize hlooped : (loop fuel _ _).2 = c₂ at hrun hclean hd
  have hrun₂ : c₂.stuck = false := (inferInstance : Quiet endFunction).running _ hrun
  have hclean₂ : c₂.diagnostics = [] := (inferInstance : Reports endFunction).clean _ hclean
  have hclean₁ := hloop.reports.clean _ (hlooped ▸ hclean₂)
  obtain ⟨hone, more, hc₂⟩ := hloop.rules last _ [] [] (hlooped ▸ hrun₂) (hlooped ▸ hclean₂)
      (ruling_start htokens hbounds hclean₁)
  obtain ⟨d', p', hd', -, hp, -⟩ := ended_endFunction (hlooped ▸ hc₂) (hlooped ▸ hone) hrun hclean
  rw [hd] at hd'
  cases hd'
  exact hp

end CompileM

theorem ruled_analyze {source : Bytes} {p : Prototype} (ha : (analyze source).2 = [])
    (hd : Order.draftAll {} (analyze source).1 = some ⟨[], some p⟩) : p.Ruled (1 + source.count Ascii.newline) := by
  have hrunning := CompileM.running_program (Token.stream_scan source) (Token.quoted_scan source)
  obtain ⟨htokens, hbounds⟩ := (Token.covers_scan source).lines
  rw [analyze_eq] at ha hd
  cases hscan : Token.scan source with
  | nil =>
    have hstream := Token.stream_scan source
    rw [hscan] at hstream
    exact hstream.elim
  | cons t ts =>
    rw [hscan] at htokens hbounds hrunning ha hd
    exact CompileM.ruled_program htokens hbounds hrunning (List.reverse_eq_nil_iff.mp ha) hd

end Lox

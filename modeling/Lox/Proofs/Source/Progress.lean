import Lox.Proofs.Source.Steps

set_option synthInstance.maxSize 1024

namespace Lox

namespace CompileM

open Compiler

class TakesExpressions (m : Nat) (parse : Goal → CompileM Unit) : Prop where
  expression : ∀ precedence, 0 < precedence → Consumes 0 1 m (parse (.expression precedence))

class TakesGoals (m : Nat) (parse : Goal → CompileM Unit) : Prop extends TakesExpressions m parse where
  statement : Consumes 1 1 m (parse .statement)
  declaration : Consumes 1 1 m (parse .declaration)

section Productions

variable {α : Type} (parse : Goal → CompileM Unit) (n : Nat) {m : Nat}

section Expressions

variable [hp : TakesExpressions m parse]

include hp

instance (precedence : Nat) : Consumes 0 1 m (parse (.expression (precedence + 1))) :=
  hp.expression _ (Nat.succ_pos _)

instance : Consumes 0 1 m (parse (.expression Precedence.and_)) :=
  hp.expression _ (by decide)

instance : Consumes 0 1 m (parse (.expression Precedence.or_)) :=
  hp.expression _ (by decide)

instance : Consumes 0 1 m (parse (.expression Precedence.unary)) :=
  hp.expression _ (by decide)

instance : Consumes 0 1 m (expression parse) :=
  hp.expression _ (by decide)

instance (name : Bytes) (canAssign : Bool) : Consumes 0 0 m (namedVariable parse name canAssign) := by
  unfold namedVariable
  infer_instance

instance (canAssign : Bool) : Consumes 0 0 m (variable_ parse canAssign) := by
  unfold variable_
  infer_instance

omit hp in
instance : Consumes 0 0 m numberLiteral := by
  unfold numberLiteral
  dsimp only
  infer_instance

omit hp in
theorem step_stringLiteral {c : Compiler} (hc : c.Ready) (hkind : c.previous.kind = .string) :
    Step 0 0 c (stringLiteral c).2 := by
  have hquoted : 2 ≤ c.previous.lexeme.length := hc.quoted _ (List.mem_cons_self ..) hkind
  let o : Order := .string (c.previous.lexeme.drop 1).dropLast
  have hrun : stringLiteral c = emitConstant o c := by
    unfold stringLiteral
    rw [run_bind]
    show (if c.previous.lexeme.length < 2 then do
        giveUp
        emitConstant o
      else emitConstant o : CompileM Unit) c = _
    rw [if_neg (Nat.not_lt.mpr hquoted)]
  rw [hrun]
  exact (inferInstance : Consumes 0 0 c.upcoming.length (emitConstant o)).step c hc (Nat.le_refl _)

instance : Consumes 0 0 m (grouping parse) := by
  unfold grouping
  infer_instance

instance (operator : TokenKind) : Consumes 0 0 m (unary parse operator) := by
  unfold unary
  infer_instance

theorem consumes_argumentsFrom (count : Nat) {fuel : Nat} (hfuel : m < fuel) :
    Consumes 0 0 m (argumentsFrom parse count fuel) := by
  refine ⟨fun c hc hm => ?_⟩
  have hless : c.upcoming.length < fuel := Nat.lt_of_le_of_lt hm hfuel
  clear hfuel
  induction fuel generalizing count c with
  | zero => omega
  | succ fuel ih =>
    have hrun : ∃ c₁, Step 0 0 c c₁ ∧ argumentsFrom parse count (fuel + 1) c = (do
        if ← accept .comma then argumentsFrom parse (count + 1) fuel
        else return count + 1 : CompileM Nat) c₁ := by
      have h₁ := (inferInstance : Consumes 0 0 m (expression parse)).step c hc hm
      rw [argumentsFrom, run_bind]
      dsimp only
      split
      · have h₂ := (inferInstance : Consumes 0 0 m (problem .tooManyArguments)).step _ h₁.ready
          (Nat.le_trans h₁.upcoming hm)
        exact ⟨_, h₁.trans h₂, rfl⟩
      · exact ⟨_, h₁, rfl⟩
    obtain ⟨c₁, h₁, hrun⟩ := hrun
    have h₂ := (inferInstance : Consumes 0 0 m (accept .comma)).step c₁ h₁.ready (Nat.le_trans h₁.upcoming hm)
    have hcomma := upcoming_accept (t := .comma) (by decide) h₁.ready
    have hle := h₁.upcoming
    rw [hrun, run_bind]
    cases hb : (accept .comma c₁).1 with
    | true =>
      have h₃ := hcomma hb
      exact (h₁.trans h₂).trans (ih (count + 1) _ h₂.ready (by omega) (by omega))
    | false => exact h₁.trans h₂

variable [hn : Fact (m < n)]

include hn

instance : Consumes 0 0 m (argumentsFrom parse 0 n) :=
  consumes_argumentsFrom parse 0 hn.out

instance : Consumes 0 0 m (argumentList parse n) := by
  unfold argumentList
  infer_instance

instance : Consumes 0 0 m (call parse n) := by
  unfold call
  infer_instance

instance (name : UInt8) (canAssign : Bool) : Consumes 0 0 m (property parse n name canAssign) := by
  unfold property
  infer_instance

instance (canAssign : Bool) : Consumes 0 0 m (dot parse n canAssign) := by
  unfold dot
  infer_instance

omit hn in
instance : Consumes 0 0 m (this_ parse) := by
  unfold this_
  infer_instance

instance (name : UInt8) : Consumes 0 0 m (superMethod parse n name) := by
  unfold superMethod
  infer_instance

instance : Consumes 0 0 m (super_ parse n) := by
  unfold super_
  refine .bind fun c => ?_
  split
  · infer_instance
  · dsimp only
    infer_instance

omit hn in
instance (operator : TokenKind) : Consumes 0 0 m (binary parse operator) := by
  unfold binary
  infer_instance

omit hn in
instance : Consumes 0 0 m (and_ parse) := by
  unfold and_
  infer_instance

omit hn in
instance : Consumes 0 0 m (or_ parse) := by
  unfold or_
  infer_instance

theorem step_prefixRule {canAssign : Bool} {rule : CompileM Unit} {c : Compiler}
    (h : prefixRule parse n canAssign c.previous.kind = some rule) (hc : c.Ready) (hm : c.upcoming.length ≤ m) :
    Step 0 0 c (rule c).2 := by
  have hrule : c.previous.kind = .string ∧ rule = stringLiteral ∨ Consumes 0 0 m rule := by
    unfold prefixRule at h
    split at h <;> cases h
    case h_5 hkind => exact .inl ⟨hkind, rfl⟩
    all_goals exact .inr inferInstance
  rcases hrule with ⟨hkind, rfl⟩ | hrule
  · exact step_stringLiteral hc hkind
  · exact hrule.step c hc hm

instance (canAssign : Bool) (k : TokenKind) : Consumes 0 0 m (infixRule parse n canAssign k) := by
  unfold infixRule
  split <;> infer_instance

instance (precedence : Nat) (canAssign : Bool) : Consumes 0 0 m (operators parse n precedence canAssign) := by
  unfold operators
  infer_instance

theorem consumes_operators {precedence : Nat} (hprecedence : 0 < precedence) (canAssign : Bool) :
    Consumes 0 0 m (loop n (operators parse n precedence canAssign)) := by
  refine .loop inferInstance (fun c hc hm hmore => ?_) hn.out
  have hrun : operators parse n precedence canAssign c =
      if precedence ≤ Precedence.of c.current.kind then
        (true, (infixRule parse n canAssign (advance c).2.previous.kind (advance c).2).2)
      else (false, c) := by
    unfold operators
    rw [run_bind]
    show (if precedence ≤ Precedence.of c.current.kind then do
        advance
        infixRule parse n canAssign (← get).previous.kind
        return true
      else return false : CompileM Bool) c = _
    split <;> rfl
  rw [hrun] at hmore ⊢
  split at hmore
  · rename_i htight
    rw [if_pos htight]
    have hpos : 0 < c.upcoming.length := hc.nonempty fun heof => by
      rw [heof] at htight
      have : Precedence.of .eof = 0 := rfl
      omega
    have h₁ := (inferInstance : Consumes 0 1 m advance).step c hc hm
    have h₂ := h₁.upcoming
    have h₃ := ((inferInstance : Consumes 0 0 m (infixRule parse n canAssign (advance c).2.previous.kind)).step
      _ h₁.ready (by omega)).upcoming
    dsimp only
    omega
  · cases hmore

theorem step_afterToken {precedence : Nat} (hprecedence : 0 < precedence) (canAssign : Bool) {c : Compiler}
    (hc : c.Ready) (hm : c.upcoming.length ≤ m) :
    Step 0 0 c (afterToken parse n precedence canAssign c.previous.kind c).2 := by
  unfold afterToken
  cases hrule : prefixRule parse n canAssign c.previous.kind with
  | none => exact (inferInstance : Consumes 0 0 m (problem (.expected "expression"))).step c hc hm
  | some rule =>
    have h₁ := step_prefixRule parse n hrule hc hm
    have hrest : Consumes 0 0 m (do
        loop n (operators parse n precedence canAssign)
        if ← pure canAssign <&&> accept .equal then problem .assignmentTarget) := by
      have := consumes_operators parse n (m := m) hprecedence canAssign
      infer_instance
    exact h₁.trans (hrest.step _ h₁.ready (Nat.le_trans h₁.upcoming hm))

omit hp hn in
theorem consumes_parsePrecedence (hp : 0 < m → TakesExpressions (m - 1) parse) (hn : m ≤ n)
    {precedence : Nat} (hprecedence : 0 < precedence) : Consumes 0 1 m (parsePrecedence parse n precedence) where
  step c hc hm := by
    let canAssign := decide (precedence ≤ Precedence.assignment)
    have h₁ := (inferInstance : Consumes 0 1 m advance).step c hc hm
    have hless := h₁.upcoming
    have hrun : parsePrecedence parse n precedence c =
        afterToken parse n precedence canAssign (advance c).2.previous.kind (advance c).2 := by
      rw [parsePrecedence_eq, run_bind, run_bind]
      rfl
    rw [hrun]
    by_cases heof : c.current.kind = .eof
    · -- at the end of the text there is no operand
      have hprevious : (advance c).2.previous = c.current := by
        unfold advance
        rw [run_bind]
        show (advanceTo c.upcoming { c with previous := c.current }).2.previous = _
        have hupcoming : c.upcoming = [] := by
          obtain ⟨-, hstream, -, -⟩ := hc
          cases hu : c.upcoming with
          | nil => rfl
          | cons t ts =>
            rw [hu] at hstream
            exact absurd heof hstream.1
        rw [hupcoming]
        rfl
      rw [hprevious, heof]
      exact h₁.trans ((inferInstance : Consumes 0 0 m (problem (.expected "expression"))).step _ h₁.ready (by omega))
    · have hpos := hc.nonempty heof
      have := hp (by omega)
      have : Fact (m - 1 < n) := ⟨by omega⟩
      exact h₁.trans (step_afterToken parse n hprecedence canAssign h₁.ready (by omega : _ ≤ m - 1))

end Expressions

def Opens (m : Nat) (act : CompileM α) : Prop :=
  ∀ c : Compiler, c.Ready → c.upcoming.length ≤ m → c.current.kind ≠ .rightBrace → c.current.kind ≠ .eof →
    (act c).2.upcoming.length < c.upcoming.length

theorem Consumes.opens {act : CompileM α} {d : Nat} (h : Consumes d 1 m act) : Opens m act := by
  intro c hc hm _ heof
  have hpos := hc.nonempty heof
  have hless := (h.step c hc hm).upcoming
  omega

theorem Opens.bind {β : Type} {x : CompileM α} {f : α → CompileM β} [hx : Consumes 1 0 m x]
    (hf : ∀ a, Opens m (f a)) [hf' : ∀ a, Consumes 1 0 m (f a)] : Opens m (x >>= f) := by
  intro c hc hm hbrace heof
  have h₁ := hx.step c hc hm
  have h₂ := h₁.upcoming
  have h₃ := ((hf' (x c).1).step _ h₁.ready (by omega)).upcoming
  show (f (x c).1 (x c).2).2.upcoming.length < _
  by_cases hsame : (x c).2.upcoming.length = c.upcoming.length
  · have hcurrent := h₁.still hsame
    have := hf (x c).1 _ h₁.ready (by omega) (hcurrent ▸ hbrace) (hcurrent ▸ heof)
    omega
  · omega

theorem Opens.bind_first {β : Type} {x : CompileM α} {f : α → CompileM β} (hx : Opens m x)
    [hx' : Consumes 1 0 m x] [hf : ∀ a, Consumes 1 0 m (f a)] : Opens m (x >>= f) := by
  intro c hc hm hbrace heof
  have h₁ := hx c hc hm hbrace heof
  have h₂ := ((hf (x c).1).step _ (hx'.step c hc hm).ready (by omega)).upcoming
  show (f (x c).1 (x c).2).2.upcoming.length < _
  omega

theorem round_eq (act : CompileM Unit) (c : Compiler) : (do
    if ← check .rightBrace <||> check .eof then return false
    act
    return true : CompileM Bool) c =
      if c.current.kind = .rightBrace ∨ c.current.kind = .eof then (false, c) else (true, (act c).2) := by
  have hcheck (k : TokenKind) : check k c = (decide (c.current.kind = k), c) := rfl
  have hor : (check .rightBrace <||> check .eof) c =
      (decide (c.current.kind = .rightBrace ∨ c.current.kind = .eof), c) := by
    unfold orM
    rw [run_bind, hcheck]
    by_cases hk : c.current.kind = .rightBrace
    · simp only [hk, decide_true, true_or]
      rfl
    · simp only [hk, decide_false, false_or]
      exact hcheck .eof
  rw [run_bind, hor]
  by_cases h : c.current.kind = .rightBrace ∨ c.current.kind = .eof
  · rw [if_pos h, decide_eq_true h]
    rfl
  · rw [if_neg h, decide_eq_false h]
    rfl

theorem consumes_rounds {act : CompileM Unit} [hact : Consumes 1 0 m act] (hopens : Opens m act) (hn : m < n) :
    Consumes 1 0 m (loop n do
      if ← check .rightBrace <||> check .eof then return false
      act
      return true) := by
  refine .loop inferInstance (fun c hc hm hmore => ?_) hn
  rw [round_eq] at hmore ⊢
  split at hmore
  · cases hmore
  · rename_i hends
    rw [if_neg hends]
    exact hopens c hc hm (fun h => hends (.inl h)) fun h => hends (.inr h)

theorem opens_rounds {act : CompileM Unit} [hact : Consumes 1 0 m act] (hopens : Opens m act) (hn : m < n) :
    Opens m (loop n do
      if ← check .rightBrace <||> check .eof then return false
      act
      return true) := by
  intro c hc hm hbrace heof
  obtain _ | n := n
  · omega
  have hless := hopens c hc hm hbrace heof
  have h₁ := hact.step c hc hm
  have hact' : Consumes 1 0 (m - 1) act := hact.mono (Nat.sub_le _ _)
  have hopens' : Opens (m - 1) act := fun c hc hm => hopens c hc (by omega)
  have hrest := (consumes_rounds n hopens' (by omega)).step (act c).2 h₁.ready (by omega)
  have hupcoming := hrest.upcoming
  have hround := round_eq act c
  rw [if_neg (by simp [hbrace, heof])] at hround
  unfold loop
  rw [run_bind, hround]
  exact Nat.lt_of_le_of_lt hupcoming hless

theorem run_parameterThen {c : Compiler} (hc : c.Ready) (hm : c.upcoming.length ≤ m) :
    ∃ c', Step 1 0 c c' ∧ parameterThen c = accept .comma c' := by
  have hvariable : Consumes 1 0 m (do defineVariable (← parseVariable "parameter name")) :=
    .declared (fun c hc _ => declared_parseVariable _ hc) fun k => inferInstance
  obtain ⟨c', h', hrun⟩ : ∃ c', Step 1 0 c c' ∧ parameterThen c =
      (do defineVariable (← parseVariable "parameter name"); accept .comma : CompileM Bool) c' := by
    have h₁ := (inferInstance : Consumes 1 0 m (extend .parameter fun e => { e with arity := e.arity + 1 })).step
      c hc hm
    unfold parameterThen
    rw [run_bind]
    generalize (extend .parameter (fun e => { e with arity := e.arity + 1 }) c).2 = c₁ at h₁
    rw [run_bind]
    by_cases hmany : 255 < (extent c₁).1.arity
    · have h₂ := (inferInstance : Consumes 1 0 m (problemAtCurrent .tooManyParameters)).step c₁ h₁.ready
        (Nat.le_trans h₁.upcoming hm)
      refine ⟨_, h₁.trans h₂, ?_⟩
      dsimp only
      rw [if_pos hmany, run_bind]
      rfl
    · refine ⟨c₁, h₁, ?_⟩
      dsimp only
      rw [if_neg hmany]
      rfl
  exact ⟨_, h'.trans (hvariable.step c' h'.ready (Nat.le_trans h'.upcoming hm)), hrun⟩

theorem consumes_parameters (hn : m < n) : Consumes 1 0 m (parameters n) := by
  have hstep : Consumes 1 0 m parameterThen := by
    refine ⟨fun c hc hm => ?_⟩
    obtain ⟨c', h', hrun⟩ := run_parameterThen hc hm
    rw [hrun]
    exact h'.trans ((inferInstance : Consumes 1 0 m (accept .comma)).step c' h'.ready
      (Nat.le_trans h'.upcoming hm))
  have htakes (c : Compiler) (hc : c.Ready) (hm : c.upcoming.length ≤ m) (hmore : (parameterThen c).1 = true) :
      (parameterThen c).2.upcoming.length < c.upcoming.length := by
    obtain ⟨c', h', hrun⟩ := run_parameterThen hc hm
    rw [hrun] at hmore ⊢
    have hcomma : TokenKind.comma ≠ .eof := nofun
    exact Nat.lt_of_lt_of_le (upcoming_accept hcomma h'.ready hmore) h'.upcoming
  exact .loop hstep htakes hn

theorem grounded_receiver (kind : FunctionKind) : ({ kind, locals := [receiver kind] } : Scope).Grounded :=
  rfl

theorem run_beginFunction (kind : FunctionKind) (c : Compiler) :
    ∃ orders, (beginFunction kind c).2 = opened kind orders c := by
  unfold beginFunction
  by_cases hkind : kind ≠ .script
  · rw [if_pos hkind]
    exact ⟨[.name c.previous.lexeme, .begin], rfl⟩
  · rw [if_neg hkind]
    exact ⟨[.begin], rfl⟩

theorem ready_opened (kind : FunctionKind) (orders : List Order) {c : Compiler} (hc : c.Ready) :
    (opened kind orders c).Ready := by
  refine { hc with grounded := fun s hs => ?_ }
  rcases List.mem_cons.mp hs with rfl | hs
  · exact grounded_receiver kind
  · exact hc.grounded s hs

theorem upcoming_endFunction {c : Compiler} (hc : c.Ready) :
    (endFunction c).2.upcoming.length ≤ c.upcoming.length :=
  ((inferInstance : Consumes 1 0 c.upcoming.length emitReturn).step c hc (Nat.le_refl _)).upcoming

theorem step_function (kind : FunctionKind) {body : CompileM Unit} {c : Compiler}
    (hbody : ∀ orders, Step 1 0 (opened kind orders c) (body (opened kind orders c)).2) :
    Step 0 0 c (endFunction (body (beginFunction kind c).2).2).2 := by
  obtain ⟨orders, hopened⟩ := run_beginFunction kind c
  have h₁ := hbody orders
  rw [hopened]
  generalize (body (opened kind orders c)).2 = c₁ at h₁
  have h₂ := (inferInstance : Consumes 1 0 c₁.upcoming.length emitReturn).step c₁ h₁.ready (Nat.le_refl _)
  have h₃ := h₁.trans h₂
  have hend : (endFunction c₁).2 = { (emitReturn c₁).2 with
      scopes := (emitReturn c₁).2.scopes.tail
      extents := (emitReturn c₁).2.extents.tail
      orders := .finish :: (emitReturn c₁).2.orders } := rfl
  rw [hend]
  refine ⟨{ h₃.ready with grounded := fun s hs => h₃.ready.grounded s (List.mem_of_mem_tail hs) }, h₃.upcoming,
    h₃.still, ?_⟩
  have houter := h₃.outer
  unfold shape at houter ⊢
  rw [← List.drop_one, List.map_drop, List.drop_zero, List.drop_zero, houter]
  rfl

section Goals

variable [hp : TakesGoals m parse] [hn : Fact (m < n)]

include hp

instance : Consumes 1 1 m (parse .statement) :=
  hp.statement

instance : Consumes 1 1 m (parse .declaration) :=
  hp.declaration

include hn

instance : Consumes 1 0 m (blockItems parse n) :=
  consumes_rounds n hp.declaration.opens hn.out

theorem opens_blockItems : Opens m (blockItems parse n) :=
  opens_rounds n hp.declaration.opens hn.out

omit hp hn in
theorem block_eq : block parse n = (do
    blockItems parse n
    consume .rightBrace "'\x7d' after block") :=
  rfl

instance : Consumes 1 0 m (block parse n) := by
  rw [block_eq]
  infer_instance

theorem opens_block : Opens m (block parse n) := by
  rw [block_eq]
  exact .bind_first (opens_blockItems parse n)

omit hp in
instance : Consumes 1 0 m (parameterList n) := by
  have := consumes_parameters n hn.out
  unfold parameterList
  infer_instance

instance : Consumes 1 0 m (functionBody parse n) := by
  rw [functionBody_eq]
  infer_instance

theorem opens_functionBody : Opens m (functionBody parse n) := by
  rw [functionBody_eq]
  refine .bind fun _ => .bind fun _ => .bind fun _ => .bind fun _ => .bind fun _ => ?_
  exact opens_block parse n

omit hp hn in
theorem run_function {kind : FunctionKind} {c : Compiler}
    (hbody : ∀ orders, Step 1 0 (opened kind orders c) (functionBody parse n (opened kind orders c)).2) :
    Step 0 0 c (function parse n kind c).2 ∧ ∃ orders,
      (function parse n kind c).2.upcoming.length ≤
        (functionBody parse n (opened kind orders c)).2.upcoming.length := by
  have hrest (captures : List Capture) : Consumes 0 0 c.upcoming.length (do
      emitWith .closure (← makeConstant .enclose)
      captures.forM fun c => do
        emitByte (if c.isLocal then 1 else 0)
        emitByte c.index) := inferInstance
  have h₁ := step_function kind hbody
  obtain ⟨orders, hopened⟩ := run_beginFunction kind c
  have h₂ := hbody orders
  unfold function
  rw [run_bind, run_bind, run_bind]
  rw [hopened] at h₁ ⊢
  have hend := upcoming_endFunction h₂.ready
  generalize endFunction (functionBody parse n (opened kind orders c)).2 = ended at h₁ hend ⊢
  have h₃ := (hrest ended.1).step ended.2 h₁.ready h₁.upcoming
  exact ⟨h₁.trans h₃, orders, Nat.le_trans h₃.upcoming hend⟩

instance (kind : FunctionKind) : Consumes 0 0 m (function parse n kind) where
  step _ hc hm := (run_function parse n fun orders =>
    (inferInstance : Consumes 1 0 m (functionBody parse n)).step _ (ready_opened kind orders hc) hm).1

theorem opens_function (kind : FunctionKind) : Opens m (function parse n kind) := by
  intro c hc hm hbrace heof
  obtain ⟨-, orders, hle⟩ := run_function parse n fun orders =>
    (inferInstance : Consumes 1 0 m (functionBody parse n)).step _ (ready_opened kind orders hc) hm
  exact Nat.lt_of_le_of_lt hle
    (opens_functionBody parse n (opened kind orders c) (ready_opened kind orders hc) hm hbrace heof)

instance : Consumes 1 0 m (method parse n) := by
  unfold method
  infer_instance

theorem opens_method : Opens m (method parse n) := by
  unfold method
  refine .bind fun _ => .bind fun name => .bind fun constant => ?_
  exact .bind_first (opens_function parse n _)

instance (fuel : Nat) [hfuel : Fact (m < fuel)] : Consumes 1 0 m (methodItems parse n fuel) :=
  consumes_rounds fuel (opens_method parse n) hfuel.out

end Goals

section Statements

variable [hp : TakesExpressions m parse]

include hp

instance : Consumes 1 0 m (printStatement parse) := by
  unfold printStatement
  infer_instance

theorem consumes_expressionStatement : Consumes 1 1 m (expressionStatement parse) := by
  unfold expressionStatement
  exact .bind_first

instance : Consumes 1 0 m (expressionStatement parse) :=
  have := consumes_expressionStatement parse (m := m)
  inferInstance

instance : Consumes 1 0 m (returnStatement parse) := by
  unfold returnStatement
  dsimp only
  infer_instance

instance : Consumes 1 0 m (varDeclaration parse) := by
  unfold varDeclaration
  refine .declared (fun c hc _ => declared_parseVariable _ hc) fun k => ?_
  dsimp only
  infer_instance

instance : Consumes 1 0 m (forInitializer parse) := by
  unfold forInitializer
  infer_instance

instance : Consumes 1 0 m (forCondition parse) := by
  unfold forCondition
  infer_instance

instance (start : Nat) : Consumes 1 0 m (forIncrement parse start) := by
  unfold forIncrement
  infer_instance

instance (className : Bytes) : Consumes 1 0 m (superclass parse className) := by
  have hclasses : Consumes 1 0 m (modify fun c : Compiler => { c with classes := true :: c.classes.tail } :
      CompileM Unit) := .modify fun _ => rfl
  have hadd : Consumes 1 0 m (do
      addLocal "super"
      defineVariable 0
      namedVariable parse className false
      emit .inherit
      modify fun c => { c with classes := true :: c.classes.tail }) :=
    .declared (fun c hc _ => declared_addLocal _ hc) fun _ => inferInstance
  unfold superclass
  dsimp only
  infer_instance

instance (className : Bytes) : Consumes 1 0 m (openClass parse className) := by
  have hclasses : Consumes 1 0 m (modify fun c : Compiler => { c with classes := false :: c.classes } :
      CompileM Unit) := .modify fun _ => rfl
  unfold openClass
  infer_instance

end Statements

section Goals

variable [hp : TakesGoals m parse]

include hp

instance : Consumes 1 0 m (ifStatement parse) := by
  unfold ifStatement
  refine .bind fun _ => .bind fun _ => .bind fun _ => .bind fun thenJump => ?_
  dsimp only
  infer_instance

instance : Consumes 1 0 m (whileStatement parse) := by
  unfold whileStatement
  infer_instance

omit hp in
instance (place : Option Nat) : Consumes 1 0 m (closeCondition place) := by
  unfold closeCondition
  cases place <;> infer_instance

instance : Consumes 1 0 m (forClauses parse) := by
  unfold forClauses
  infer_instance

instance : Consumes 1 0 m (forStatement parse) := by
  rw [forStatement_eq]
  infer_instance

variable [hn : Fact (m < n)]

include hn

instance (className : Bytes) : Consumes 1 0 m (classBody parse n className) := by
  have hclasses : Consumes 1 0 m (modify fun c : Compiler => { c with classes := c.classes.tail } :
      CompileM Unit) := .modify fun _ => rfl
  unfold classBody
  dsimp only
  infer_instance

instance : Consumes 1 0 m (classDeclaration parse n) := by
  rw [classDeclaration_eq]
  refine .bind fun _ => .bind fun className => .bind fun constant => ?_
  exact .declared (fun c hc _ => declared_declareVariable hc) fun _ => inferInstance

instance : Consumes 1 0 m (funDeclaration parse n) := by
  unfold funDeclaration
  exact .declared (fun c hc _ => declared_parseVariable _ hc) fun _ => inferInstance

end Goals

theorem consumes_statement [hp : TakesExpressions m parse] (hgoals : 0 < m → TakesGoals (m - 1) parse)
    (hn : m ≤ n) : Consumes 1 1 m (statement parse n) := by
  have hblock : 0 < m → Consumes 1 0 (m - 1) (do
      beginScope
      block parse n
      endScope) := fun hm => by
    have := hgoals hm
    have : Fact (m - 1 < n) := ⟨by omega⟩
    infer_instance
  unfold statement
  refine .choose (by decide) (Nat.le_refl _) (fun hm => ?_) (.choose (by decide) (Nat.le_refl _) (fun hm => ?_)
    (.choose (by decide) (Nat.le_refl _) (fun hm => ?_) (.choose (by decide) (Nat.le_refl _) (fun hm => ?_)
      (.choose (by decide) (Nat.le_refl _) (fun hm => ?_) (.choose (by decide) (Nat.le_refl _) hblock
        (consumes_expressionStatement parse))))))
  all_goals
    have := hgoals hm
    infer_instance

theorem consumes_declarationOrStatement (hstatement : Consumes 1 1 m (parse .statement))
    (hgoals : 0 < m → TakesGoals (m - 1) parse) (hn : m ≤ n) :
    Consumes 1 1 m (declarationOrStatement parse n) := by
  unfold declarationOrStatement
  refine .choose (by decide) (Nat.le_refl _) (fun hm => ?_) (.choose (by decide) (Nat.le_refl _) (fun hm => ?_)
    (.choose (by decide) (Nat.le_refl _) (fun hm => ?_) hstatement))
  all_goals
    have := hgoals hm
    have : Fact (m - 1 < n) := ⟨by omega⟩
    infer_instance

theorem consumes_declaration (hstatement : Consumes 1 1 m (parse .statement))
    (hgoals : 0 < m → TakesGoals (m - 1) parse) (hn : m < n) : Consumes 1 1 m (declaration parse n) := by
  have := consumes_declarationOrStatement parse n hstatement hgoals (Nat.le_of_lt hn)
  have := consumes_synchronize (d := 1) hn
  unfold declaration
  exact .bind_first

end Productions

theorem takes_parse (n m : Nat) :
    (3 * m + 1 ≤ n → TakesExpressions m (parse n)) ∧ (3 * m + 2 ≤ n → Consumes 1 1 m (parse n .statement)) ∧
      (3 * m + 3 ≤ n → Consumes 1 1 m (parse n .declaration)) := by
  induction n generalizing m with
  | zero => exact ⟨fun h => by omega, fun h => by omega, fun h => by omega⟩
  | succ n ih =>
    have hgoals (hn : 3 * m ≤ n) (hm : 0 < m) : TakesGoals (m - 1) (parse n) := by
      have := (ih (m - 1)).1 (by omega)
      exact ⟨(ih (m - 1)).2.1 (by omega), (ih (m - 1)).2.2 (by omega)⟩
    refine ⟨fun hn => ⟨fun precedence hprecedence => ?_⟩, fun hn => ?_, fun hn => ?_⟩
    · exact consumes_parsePrecedence (parse n) n (fun hm => (hgoals (by omega) hm).toTakesExpressions) (by omega)
        hprecedence
    · have := (ih m).1 (by omega)
      exact consumes_statement (parse n) n (hgoals (by omega)) (by omega)
    · exact consumes_declaration (parse n) n ((ih m).2.1 (by omega)) (hgoals (by omega)) (by omega)

def nextDeclaration (parse : Goal → CompileM Unit) : CompileM Bool := do
  if ← accept .eof then return false
  parse .declaration
  return true

theorem consumes_nextDeclaration {parse : Goal → CompileM Unit} {m n : Nat}
    [hdeclaration : Consumes 1 1 m (parse .declaration)] (hn : m < n) :
    Consumes 1 0 m (loop n (nextDeclaration parse)) := by
  have hstep : Consumes 1 0 m (nextDeclaration parse) := by
    unfold nextDeclaration
    infer_instance
  refine .loop hstep (fun c hc hm hmore => ?_) hn
  have hrun : nextDeclaration parse c =
      if c.current.kind = .eof then (false, (advance c).2) else (true, (parse .declaration c).2) := by
    unfold nextDeclaration
    rw [run_bind, accept_eq]
    split <;> rfl
  rw [hrun] at hmore ⊢
  split at hmore
  · cases hmore
  · rename_i heof
    rw [if_neg heof]
    have hpos := hc.nonempty heof
    have hless := (hdeclaration.step c hc hm).upcoming
    dsimp only
    omega

theorem ready_program {tokens : List Token} (hstream : Stream tokens) (hquoted : ∀ t ∈ tokens, t.Quoted) :
    ({ upcoming := tokens } : Compiler).Ready := by
  obtain _ | ⟨t, rest⟩ := tokens
  · exact hstream.elim
  have hnone : (⟨.leftParen, [], 0⟩ : Token).Quoted := nofun
  refine ⟨rfl, ⟨nofun, Token.genuine_of_kind nofun nofun, hstream⟩, fun u hu => ?_, nofun⟩
  rcases List.mem_cons.mp hu with rfl | hu
  · exact hnone
  · rcases List.mem_cons.mp hu with rfl | hu
    · exact hnone
    · exact hquoted u hu

theorem running_program {tokens : List Token} (hstream : Stream tokens) (hquoted : ∀ t ∈ tokens, t.Quoted) :
    (program (4 * (tokens.length + 1)) { upcoming := tokens }).2.stuck = false := by
  have hc := ready_program hstream hquoted
  let fuel := 4 * (tokens.length + 1)
  have hdeclaration := (takes_parse fuel tokens.length).2.2 (by omega)
  have hloop : Consumes 1 0 tokens.length (loop fuel (nextDeclaration (parse fuel))) :=
    consumes_nextDeclaration (by omega)
  have hbody : Consumes 1 0 tokens.length (declarations fuel) :=
    (inferInstance : Consumes 1 0 tokens.length (advance >>= fun _ => loop fuel (nextDeclaration (parse fuel))))
  have hstep := step_function .script fun orders =>
    hbody.step _ (ready_opened .script orders hc) (Nat.le_refl _)
  rw [run_program]
  exact hstep.ready.running

end CompileM

namespace Token

theorem length_lexeme {taken rest lexeme : Bytes} {line : Nat} {c : Cursor}
    (h : untilQuote taken rest line = some (lexeme, c)) : taken.length + 1 ≤ lexeme.length := by
  fun_induction untilQuote taken rest line with
  | case1 => cases h
  | case2 =>
    cases h
    simp
  | case3 _ _ _ _ _ ih =>
    have := ih h
    rw [List.length_cons] at this
    omega

theorem quoted_of_kind {t : Token} (h : t.kind ≠ .string) : t.Quoted :=
  fun hkind => absurd hkind h

theorem ofWord_ne_string (word : Bytes) : TokenKind.ofWord word ≠ .string := by
  intro hkind
  rcases ofWord_cases word with h | ⟨h, -⟩
  · rw [hkind] at h
    cases h
  · rw [hkind] at h
    exact absurd h (by decide)

theorem quoted_next (c : Cursor) : (next c).1.Quoted := by
  unfold next
  generalize skipBlank false c.rest c.line = at_
  obtain ⟨rest, line⟩ := at_
  dsimp only
  cases rest with
  | nil => exact quoted_of_kind nofun
  | cons b r =>
    dsimp only
    split
    · exact quoted_of_kind (ofWord_ne_string _)
    · split
      · unfold number
        dsimp only
        split
        · split <;> exact quoted_of_kind nofun
        · exact quoted_of_kind nofun
      · split
        · unfold string
          cases h : untilQuote [Ascii.quote] r line with
          | none => exact quoted_of_kind nofun
          | some found =>
            obtain ⟨lexeme, following⟩ := found
            exact fun _ => length_lexeme h
        · unfold operator
          split
          · exact quoted_of_kind nofun
          · rename_i kind hkind
            have hplain : kind ≠ .string := by
              unfold punctuation at hkind
              split at hkind <;> cases hkind <;> nofun
            split
            · rename_i longer _ _ hlonger
              refine quoted_of_kind ?_
              unfold withEqual at hlonger
              split at hlonger <;> cases hlonger <;> nofun
            · exact quoted_of_kind hplain

theorem quoted_scan (source : Bytes) : ∀ t ∈ scan source, t.Quoted := by
  rw [scan_eq]
  generalize source.length + 1 = fuel
  generalize (⟨source, 1⟩ : Cursor) = c
  induction fuel generalizing c with
  | zero => exact nofun
  | succ fuel ih =>
    unfold from_
    intro t ht
    split at ht
    · rw [List.mem_singleton.mp ht]
      exact quoted_next c
    · rcases List.mem_cons.mp ht with rfl | ht
      · exact quoted_next c
      · exact ih _ t ht

end Token

theorem analyze_eq (source : Bytes) : analyze source =
    ((CompileM.program (4 * ((Token.scan source).length + 1)) { upcoming := Token.scan source }).2.orders.reverse,
      (CompileM.program (4 * ((Token.scan source).length + 1))
        { upcoming := Token.scan source }).2.diagnostics.reverse) := by
  have hrunning := CompileM.running_program (Token.stream_scan source) (Token.quoted_scan source)
  unfold analyze
  dsimp only
  generalize (CompileM.program _ _).2 = c at hrunning ⊢
  rw [if_neg (by rw [hrunning]; exact Bool.false_ne_true)]

theorem draftAll_analyze (source : Bytes) :
    ∃ p, Order.draftAll {} (analyze source).1 = some ⟨[], some p⟩ := by
  obtain ⟨p, hp⟩ := CompileM.drafts_program (Token.scan source) (4 * ((Token.scan source).length + 1))
  unfold Compiler.drafts at hp
  rw [analyze_eq]
  exact ⟨p, hp⟩

end Lox

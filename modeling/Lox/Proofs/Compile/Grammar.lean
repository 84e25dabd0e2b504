import Lox.Proofs.Compile.Sketch

namespace Lox

namespace CompileM

open Compiler

variable {α : Type}

instance (kind : FunctionKind) : Reports (beginFunction kind) := by
  have hbegin : Reports (modify fun c : Compiler => { c with
      scopes := { kind } :: c.scopes
      extents := {} :: c.extents
      orders := .begin :: c.orders } : CompileM Unit) := .modify fun _ => rfl
  unfold beginFunction
  dsimp only
  infer_instance

instance : Reports endFunction := by
  have hend : Reports (modify fun c : Compiler => { c with
      scopes := c.scopes.tail
      extents := c.extents.tail
      orders := .finish :: c.orders } : CompileM Unit) := .modify fun _ => rfl
  unfold endFunction
  infer_instance

instance (o : Order) : Reports (makeConstant o) := by
  have hext : Reports (extend o fun e => { e with constants := e.constants + 1 }) := .modify fun _ => rfl
  unfold makeConstant
  dsimp only
  infer_instance

theorem sketches_function (kind : FunctionKind) (body : CompileM Unit) [hb : Sketches body]
    {f : List Capture → UInt8 → CompileM Unit} (hf : ∀ captures k, Sketches (f captures k)) :
    Sketches (do
      beginFunction kind
      body
      let captures ← endFunction
      f captures (← makeConstant .enclose)) where
  reports := inferInstance
  extends_ c hc := by
    obtain ⟨d, hd, hall⟩ := hc.made
    obtain ⟨h₁, htail₁⟩ := sketched_beginFunction ⟨hd, hall, hc.scopes⟩ kind
    have h₂ := hb.extends_ _ h₁
    obtain ⟨d', p, h₃, htail₃⟩ := outlined_endFunction h₂.sketched
    have hext : (endFunction (body (beginFunction kind c).2).2).2.extents = c.extents := by
      rw [htail₃, h₂.outer, htail₁]
    have h₄ := extends_enclose h₃ (by rw [hext]; exact hc.inside)
    have h₅ := (hf (endFunction (body (beginFunction kind c).2).2).1
      (makeConstant .enclose (endFunction (body (beginFunction kind c).2).2).2).1).extends_ _ h₄.sketched
    have h₆ := h₄.trans h₅
    refine ⟨h₆.sketched, ?_, ?_⟩
    · rw [← hext]
      exact h₆.outer
    · have hsize := h₆.size
      unfold Compiler.inner at hsize ⊢
      rw [hext] at hsize
      exact hsize

theorem Sketches.choose {k : TokenKind} {x y : CompileM α} (hx : Sketches x) (hy : Sketches y) :
    Sketches (do if ← accept k then x else y) := by
  refine .bind fun b => ?_
  cases b
  · exact hy
  · exact hx

theorem forCondition_bind (parse : Goal → CompileM Unit) (f : Option Nat → CompileM α) : forCondition parse >>= f = (do
    if ← accept .semicolon then f none
    else
      expression parse
      consume .semicolon "';' after loop condition"
      let exitJump ← emitJump .jumpIfFalse
      emit .pop
      f (some exitJump)) := by
  funext c
  simp only [forCondition, run_bind]
  cases (accept .semicolon c).1 <;> rfl

section Productions

variable (parse : Goal → CompileM Unit) (n : Nat) [hp : ∀ g, Sketches (parse g)]

include hp

instance : Sketches (expression parse) := hp _

instance (name : Bytes) (canAssign : Bool) : Sketches (namedVariable parse name canAssign) := by
  unfold namedVariable
  infer_instance

instance (canAssign : Bool) : Sketches (variable_ parse canAssign) := by
  unfold variable_
  infer_instance

omit hp in
instance : Sketches numberLiteral := by
  unfold numberLiteral emitConstant
  dsimp only
  infer_instance

omit hp in
instance : Sketches stringLiteral := by
  unfold stringLiteral emitConstant
  dsimp only
  infer_instance

instance : Sketches (grouping parse) := by
  unfold grouping
  infer_instance

instance (operator : TokenKind) : Sketches (unary parse operator) := by
  unfold unary
  infer_instance

instance (count fuel : Nat) : Sketches (argumentsFrom parse count fuel) := by
  induction fuel generalizing count with
  | zero => exact (inferInstance : Sketches (do giveUp; pure count))
  | succ fuel ih =>
    unfold argumentsFrom
    infer_instance

instance : Sketches (argumentList parse n) := by
  unfold argumentList
  infer_instance

instance : Sketches (call parse n) := by
  unfold call
  infer_instance

instance (name : UInt8) (canAssign : Bool) : Sketches (property parse n name canAssign) := by
  unfold property
  infer_instance

instance (canAssign : Bool) : Sketches (dot parse n canAssign) := by
  unfold dot
  infer_instance

instance : Sketches (this_ parse) := by
  unfold this_
  infer_instance

instance (name : UInt8) : Sketches (superMethod parse n name) := by
  unfold superMethod
  infer_instance

instance : Sketches (super_ parse n) := by
  unfold super_
  refine .bind fun c => ?_
  split
  · infer_instance
  · dsimp only
    infer_instance

instance (operator : TokenKind) : Sketches (binary parse operator) := by
  unfold binary
  infer_instance

instance : Sketches (and_ parse) := by
  refine Above.sketches ?_
  exact .jump fun place => .bind fun _ => .bind fun _ => .patch (by omega)

instance : Sketches (or_ parse) := by
  refine Above.sketches ?_
  refine .jump fun elseJump => .jump fun endJump => .patch_bind (by omega) fun _ => ?_
  exact .bind fun _ => .bind fun _ => .patch (by omega)

theorem sketches_prefixRule {canAssign : Bool} {k : TokenKind} {rule : CompileM Unit}
    (h : prefixRule parse n canAssign k = some rule) : Sketches rule := by
  unfold prefixRule at h
  split at h <;> cases h <;> infer_instance

instance (canAssign : Bool) (k : TokenKind) : Sketches (infixRule parse n canAssign k) := by
  unfold infixRule
  split <;> infer_instance

instance (precedence : Nat) : Sketches (parsePrecedence parse n precedence) := by
  unfold parsePrecedence
  dsimp only
  refine .bind fun _ => .bind fun c => ?_
  split
  · infer_instance
  · rename_i rule hrule
    have := sketches_prefixRule parse n hrule
    infer_instance

instance : Sketches (block parse n) := by
  unfold block
  infer_instance

instance : Sketches (printStatement parse) := by
  unfold printStatement
  infer_instance

instance : Sketches (expressionStatement parse) := by
  unfold expressionStatement
  infer_instance

instance : Sketches (returnStatement parse) := by
  have hrest (kind : FunctionKind) : Sketches (do
      if ← accept .semicolon then emitReturn
      else
        if kind = .initializer then problem .returnFromInitializer
        expression parse
        consume .semicolon "';' after return value"
        emit .return_) := inferInstance
  unfold returnStatement
  refine .bind fun s => ?_
  dsimp only
  split
  · exact .bind fun _ => hrest s.kind
  · exact hrest s.kind

instance : Sketches (ifStatement parse) := by
  refine Above.sketches ?_
  refine .bind fun _ => .bind fun _ => .bind fun _ => .jump fun thenJump => .bind fun _ => .bind fun _ => ?_
  refine .jump fun elseJump => .patch_bind (by omega) fun _ => .bind fun _ => .bind fun b => ?_
  cases b with
  | true => exact .bind fun _ => .patch (by omega)
  | false => exact .patch (by omega)

instance : Sketches (whileStatement parse) := by
  refine Above.sketches ?_
  refine .bind fun start => .bind fun _ => .bind fun _ => .bind fun _ => .jump fun exitJump => ?_
  exact .bind fun _ => .bind fun _ => .bind fun _ => .patch_bind (by omega) fun _ => .of_sketches

instance : Sketches (varDeclaration parse) := by
  unfold varDeclaration
  infer_instance

theorem above_forCondition {size : Nat} {f : Option Nat → CompileM α} (hnone : Above size (f none))
    (hsome : ∀ place, Above (max size (place + 2)) (f (some place))) :
    Above size (forCondition parse >>= f) := by
  rw [forCondition_bind]
  refine .bind fun b => ?_
  cases b with
  | true => exact hnone
  | false => exact .bind fun _ => .bind fun _ => .jump fun place => .bind fun _ => hsome place

instance (start : Nat) : Sketches (forIncrement parse start) := by
  refine Above.sketches (.bind fun b => ?_)
  cases b with
  | true => exact (.of_sketches : Above 0 (pure start))
  | false =>
    refine .jump fun bodyJump => .bind fun _ => .bind fun _ => .bind fun _ => .bind fun _ => ?_
    exact .bind fun _ => .patch_bind (by omega) fun _ => .of_sketches

instance : Sketches (forInitializer parse) :=
  .choose inferInstance (.choose inferInstance inferInstance)

instance : Sketches (forStatement parse) := by
  refine Above.sketches (.bind fun _ => .bind fun _ => .bind fun _ => .bind fun start => ?_)
  refine above_forCondition parse .of_sketches fun place => ?_
  refine .bind fun back => .bind fun _ => .bind fun _ => ?_
  exact .patch_bind (by omega) fun _ => .of_sketches

instance : Sketches (statement parse n) := by
  unfold statement
  refine .choose inferInstance (.choose inferInstance (.choose inferInstance ?_))
  exact .choose inferInstance (.choose inferInstance (.choose inferInstance inferInstance))

omit hp in
instance : Sketches (parameters n) := by
  have hparameter : Sketches (extend .parameter fun e => { e with arity := e.arity + 1 }) :=
    sketches_extend (fun e => Nat.le_refl _) fun d p ps hp =>
      ⟨{ p with arity := p.arity + 1 }, none, by simp [Order.draft, Drafts.onInner, hp], fun _ he => he⟩
  unfold parameters
  infer_instance

instance : Sketches (functionBody parse n) := by
  unfold functionBody
  refine .bind fun _ => .bind fun _ => .bind fun b => ?_
  dsimp only
  infer_instance

instance (kind : FunctionKind) : Sketches (function parse n kind) :=
  sketches_function kind (functionBody parse n) fun _ _ => inferInstance

instance : Sketches (method parse n) := by
  unfold method
  infer_instance

instance (className : Bytes) : Sketches (superclass parse className) := by
  have hmod : Sketches (modify fun c : Compiler => { c with classes := true :: c.classes.tail } :
      CompileM Unit) := .modify (fun _ => rfl) (fun _ => rfl) (fun _ => rfl) fun _ => rfl
  have hrest : Sketches (do
      beginScope
      addLocal "super"
      defineVariable 0
      namedVariable parse className false
      emit .inherit
      modify fun c => { c with classes := true :: c.classes.tail }) := inferInstance
  unfold superclass
  refine .bind fun _ => .bind fun _ => .bind fun own => ?_
  dsimp only
  split
  · exact .bind fun _ => hrest
  · exact hrest

instance : Sketches (classDeclaration parse n) := by
  have hbegin : Sketches (modify fun c : Compiler => { c with classes := false :: c.classes } :
      CompileM Unit) := .modify (fun _ => rfl) (fun _ => rfl) (fun _ => rfl) fun _ => rfl
  have hend : Sketches (modify fun c : Compiler => { c with classes := c.classes.tail } :
      CompileM Unit) := .modify (fun _ => rfl) (fun _ => rfl) (fun _ => rfl) fun _ => rfl
  have hlast : Sketches (do
      if (← get).classes.head? = some true then endScope
      modify fun c => { c with classes := c.classes.tail }) := by
    dsimp only
    infer_instance
  have hrest (className : Bytes) : Sketches (do
      namedVariable parse className false
      consume .leftBrace "'\x7b' before class body"
      loop n do
        if ← check .rightBrace <||> check .eof then return false
        method parse n
        return true
      consume .rightBrace "'\x7d' after class body"
      emit .pop
      if (← get).classes.head? = some true then endScope
      modify fun c => { c with classes := c.classes.tail }) :=
    .bind fun _ => .bind fun _ => .bind fun _ => .bind fun _ => .bind fun _ => hlast
  unfold classDeclaration
  refine .bind fun _ => .bind fun className => .bind fun constant => .bind fun _ => .bind fun _ => ?_
  refine .bind fun _ => .bind fun _ => .bind fun b => ?_
  cases b with
  | true => exact .bind fun _ => hrest className
  | false => exact hrest className

instance : Sketches (funDeclaration parse n) := by
  unfold funDeclaration
  infer_instance

instance : Sketches (declarationOrStatement parse n) :=
  .choose inferInstance (.choose inferInstance (.choose inferInstance inferInstance))

instance : Sketches (declaration parse n) := by
  unfold declaration
  infer_instance

instance (g : Goal) : Sketches (production parse n g) := by
  cases g <;> unfold production <;> infer_instance

end Productions

instance (n : Nat) (g : Goal) : Sketches (parse n g) := by
  induction n generalizing g with
  | zero => exact .giveUp
  | succ n ih => exact (inferInstance : Sketches (production (parse n) n g))

def declarations (fuel : Nat) : CompileM Unit := do
  advance
  loop fuel do
    if ← accept .eof then return false
    parse fuel .declaration
    return true

instance (fuel : Nat) : Sketches (declarations fuel) := by
  unfold declarations
  infer_instance

theorem run_program (fuel : Nat) (c : Compiler) : (program fuel c).2 =
    (endFunction (declarations fuel (beginFunction .script c).2).2).2 := rfl

theorem drafts_program (tokens : List Token) (fuel : Nat) :
    ∃ p, (program fuel { upcoming := tokens }).2.drafts = some ⟨[], some p⟩ := by
  let c : Compiler := { upcoming := tokens }
  have h : Outlined c {} := ⟨rfl, .nil, rfl⟩
  obtain ⟨h₁, hext₁⟩ := sketched_beginFunction h .script
  have h₂ := (inferInstance : Sketches (declarations fuel)).extends_ _ h₁
  obtain ⟨d, p, h₃, hext₃⟩ := outlined_endFunction h₂.sketched
  rw [h₂.outer, hext₁] at hext₃
  have hd : d = [] := by
    have hsizes := h₃.sizes
    rw [hext₃] at hsizes
    exact List.forall₂_nil_left_iff.mp hsizes
  subst hd
  refine ⟨p, ?_⟩
  rw [← h₃.drafts, run_program]

end CompileM

end Lox

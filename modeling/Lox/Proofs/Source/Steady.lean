import Lox.Proofs.Source.Plans

namespace Lox

class PlanM.Steady {α : Type} (act : PlanM α) : Prop where
  classes : ∀ g a g', act g = some (a, g') → g'.classes = g.classes

namespace PlanM.Steady

variable {α β : Type}

instance bind {x : PlanM α} {f : α → PlanM β} [hx : Steady x] [hf : ∀ a, Steady (f a)] :
    Steady (x >>= f) where
  classes g b g₂ h := by
    obtain ⟨⟨a, g₁⟩, hx₁, hf₁⟩ := Option.bind_eq_some_iff.mp h
    exact ((hf a).classes g₁ b g₂ hf₁).trans (hx.classes g a g₁ hx₁)

instance pure (a : α) : Steady (pure a) where
  classes g b g' h := by
    cases h
    rfl

instance failure : Steady (failure : PlanM α) where
  classes _ _ _ h := nomatch h

instance ite {p : Prop} [Decidable p] {x y : PlanM α} [hx : Steady x] [hy : Steady y] :
    Steady (if p then x else y) := by
  split
  · exact hx
  · exact hy

instance level : Steady level where
  classes _ _ _ h := by rw [(level_some h).1]

instance modifyLevel (f : Level → Level) : Steady (modifyLevel f) where
  classes g a g' h := by
    obtain ⟨l, ls, -, rfl⟩ := modifyLevel_some h
    rfl

instance classes_ : Steady PlanM.classes where
  classes g a g' h := by
    cases h
    rfl

instance constant (item : Item) : Steady (constant item) := by
  unfold PlanM.constant
  infer_instance

instance resolve (name : Bytes) : Steady (resolve name) where
  classes g place g' h := by
    obtain ⟨l, ls, -, h⟩ := resolve_some h
    rcases h with ⟨_, _, -, -, -, rfl⟩ | ⟨-, _, _, -, -, rfl⟩ | ⟨-, k, levels, -, hk, -⟩
    · rfl
    · rfl
    · exact (constant (.string name)).classes { g with levels } k g' hk

instance enlist (classes : List ClassBody) : Steady (enlist classes) := modifyLevel _

instance addLocal (name : Bytes) : Steady (addLocal name) := modifyLevel _

instance declare (name : Bytes) : Steady (declare name) := by
  unfold PlanM.declare
  infer_instance

instance declareNamed (name : Bytes) : Steady (declareNamed name) := by
  unfold PlanM.declareNamed
  infer_instance

instance initialize_ : Steady initialize_ := modifyLevel _

instance define (k : Nat) : Steady (define k) := by
  unfold PlanM.define
  infer_instance

instance beginScope : Steady beginScope := modifyLevel _

instance endScope : Steady endScope := by
  unfold PlanM.endScope
  infer_instance

instance beginFunction (kind : FunctionKind) (name : Option Bytes) : Steady (beginFunction kind name) where
  classes g a g' h := by
    cases h
    rfl

instance endFunction (body : List Line) : Steady (endFunction body) where
  classes g f g' h := by
    obtain ⟨l, ls, -, rfl, -⟩ := endFunction_some h
    rfl

instance parameter (name : Bytes) : Steady (parameter name) := by
  unfold PlanM.parameter
  infer_instance

instance forM {α : Type} (f : α → PlanM Unit) [hf : ∀ a, Steady (f a)] (as : List α) :
    Steady (as.forM f) := by
  induction as with
  | nil => exact pure ()
  | cons a as ih => exact (inferInstance : Steady (f a >>= fun _ => as.forM f))

end PlanM.Steady

namespace PlanM

variable {g g' : Plan}

theorem classes_openClass {name : Bytes} {superclass : Option Bytes} {lines : List Line}
    (h : openClass name superclass g = some (lines, g')) : g'.classes = superclass.isSome :: g.classes := by
  obtain ⟨u, g₁, hg₁, hrest⟩ := bind_some h
  cases hg₁
  cases superclass with
  | none =>
    cases hrest
    rfl
  | some s =>
    obtain ⟨place, g₂, hg₂, hrest⟩ := bind_some hrest
    have h₂ := (Steady.resolve s).classes _ _ _ hg₂
    split at hrest
    · cases hrest
    · obtain ⟨u, g₃, hg₃, hrest⟩ := bind_some hrest
      obtain ⟨u, g₄, hg₄, hrest⟩ := bind_some hrest
      obtain ⟨u, g₅, hg₅, hrest⟩ := bind_some hrest
      obtain ⟨own, g₆, hg₆, hrest⟩ := bind_some hrest
      have h₃ := Steady.beginScope.classes _ _ _ hg₃
      have h₄ := (Steady.addLocal "super").classes _ _ _ hg₄
      have h₅ := Steady.initialize_.classes _ _ _ hg₅
      have h₆ := (Steady.resolve name).classes _ _ _ hg₆
      cases hrest
      show true :: g₆.classes.tail = _
      rw [h₆, h₅, h₄, h₃, h₂]
      rfl

theorem classes_closeClass {inherits : Bool} {lines : List Line}
    (h : closeClass inherits g = some (lines, g')) : g'.classes = g.classes.tail := by
  cases inherits with
  | false =>
    cases h
    rfl
  | true =>
    obtain ⟨drop, g₁, hg₁, hrest⟩ := bind_some h
    have h₁ := Steady.endScope.classes _ _ _ hg₁
    cases hrest
    show g₁.classes.tail = _
    rw [h₁]

end PlanM

open PlanM

mutual

theorem Expr.steady_code (e : Expr) : Steady e.code := by
  cases e with
  | unary _ e | get e _ | assign _ e =>
    have := e.steady_code
    rw [Expr.code]
    infer_instance
  | binary _ a b | and_ a b | or_ a b | set a _ b =>
    have := a.steady_code
    have := b.steady_code
    rw [Expr.code]
    infer_instance
  | call e arguments | invoke e _ arguments =>
    have := e.steady_code
    have := Expr.steady_codeOfAll arguments
    rw [Expr.code]
    infer_instance
  | superInvoke _ arguments =>
    have := Expr.steady_codeOfAll arguments
    rw [Expr.code]
    infer_instance
  | _ =>
    rw [Expr.code]
    infer_instance

theorem Expr.steady_codeOfAll (es : List Expr) : Steady (Expr.codeOfAll es) := by
  cases es with
  | nil =>
    rw [Expr.codeOfAll]
    infer_instance
  | cons e es =>
    have := e.steady_code
    have := Expr.steady_codeOfAll es
    rw [Expr.codeOfAll]
    infer_instance

end

instance (e : Expr) : Steady e.code := e.steady_code

instance (e : Option Expr) : Steady (Expr.code? e) := by
  cases e <;> unfold Expr.code? <;> infer_instance

instance {b : Bool} {m : PlanM (List Line)} [hm : Steady m] : Steady (bodyCode b m) := by
  unfold bodyCode
  infer_instance

mutual

theorem Stmt.steady_code (s : Stmt) : Steady s.code := by
  cases s with
  | return_ e =>
    cases e <;> rw [Stmt.code] <;> infer_instance
  | if_ e s t =>
    have := s.steady_code
    have := t.steady_code
    rw [Stmt.code]
    infer_instance
  | while_ e s =>
    have := s.steady_code
    rw [Stmt.code]
    infer_instance
  | for_ i a b s =>
    have := i.steady_code
    have := s.steady_code
    rw [Stmt.code]
    infer_instance
  | block ss =>
    have := Stmt.steady_codeOfAll ss
    rw [Stmt.code]
    infer_instance
  | var_ name e =>
    cases e <;> rw [Stmt.code] <;> infer_instance
  | fun_ f =>
    have := Stmt.steady_codeOfFunction .function f
    rw [Stmt.code]
    infer_instance
  | class_ name superclass methods =>
    have := Stmt.steady_codeOfMethods methods
    constructor
    intro g lines g' h
    rw [Stmt.code] at h
    obtain ⟨l, g₁, hg₁, h⟩ := bind_some h
    obtain ⟨k, g₂, hg₂, h⟩ := bind_some h
    obtain ⟨u, g₃, hg₃, h⟩ := bind_some h
    obtain ⟨a, g₄, hg₄, h⟩ := bind_some h
    obtain ⟨b, g₅, hg₅, h⟩ := bind_some h
    obtain ⟨own, g₆, hg₆, h⟩ := bind_some h
    obtain ⟨c, g₇, hg₇, h⟩ := bind_some h
    obtain ⟨drop, g₈, hg₈, h⟩ := bind_some h
    obtain ⟨v, g₉, hg₉, h⟩ := bind_some h
    cases h
    rw [(Steady.enlist _).classes _ _ _ hg₉, classes_closeClass hg₈, (Stmt.steady_codeOfMethods methods).classes _ _ _
        hg₇,
      (Steady.resolve name).classes _ _ _ hg₆, classes_openClass hg₅, List.tail_cons,
      (Steady.define k).classes _ _ _ hg₄, (Steady.declare name).classes _ _ _ hg₃,
      (Steady.constant (.string name)).classes _ _ _ hg₂, Steady.level.classes _ _ _ hg₁]
  | _ =>
    rw [Stmt.code]
    infer_instance

theorem Stmt.steady_codeOfAll (ss : List Stmt) : Steady (Stmt.codeOfAll ss) := by
  cases ss with
  | nil =>
    rw [Stmt.codeOfAll]
    infer_instance
  | cons s ss =>
    have := s.steady_code
    have := Stmt.steady_codeOfAll ss
    rw [Stmt.codeOfAll]
    infer_instance

theorem Stmt.steady_codeOfFunction (kind : FunctionKind) (f : Lambda Stmt) :
    Steady (Stmt.codeOfFunction kind f) := by
  obtain ⟨name, parameters, body⟩ := f
  have := Stmt.steady_codeOfAll body
  rw [Stmt.codeOfFunction]
  have (f : Listing Item) : Steady (do
      enlist f.classes
      return [Line.instr .closure (.closure (← constant (.function f)) f.origins)]) := inferInstance
  infer_instance

theorem Stmt.steady_codeOfMethods (fs : List (Lambda Stmt)) : Steady (Stmt.codeOfMethods fs) := by
  cases fs with
  | nil =>
    rw [Stmt.codeOfMethods]
    infer_instance
  | cons f fs =>
    obtain ⟨name, parameters, body⟩ := f
    have := fun kind => Stmt.steady_codeOfFunction kind ⟨name, parameters, body⟩
    have := Stmt.steady_codeOfMethods fs
    rw [Stmt.codeOfMethods]
    infer_instance

end

end Lox

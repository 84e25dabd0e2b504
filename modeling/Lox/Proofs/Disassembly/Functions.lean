import Lox.Proofs.Verify.Plan

namespace Lox

mutual

def Stmt.functions : Stmt → List (Lambda Stmt)
  | .if_ _ s t => s.functions ++ t.functions
  | .while_ _ s => s.functions
  | .for_ i _ _ s => i.functions ++ s.functions
  | .block ss => functionsOfAll ss
  | .fun_ f => functionsOfLambda f
  | .class_ _ _ fs => functionsOfMethods fs
  | .skip | .expression _ | .print _ | .return_ _ | .var_ .. => []

def Stmt.functionsOfAll : List Stmt → List (Lambda Stmt)
  | [] => []
  | s :: ss => s.functions ++ functionsOfAll ss

def Stmt.functionsOfLambda : Lambda Stmt → List (Lambda Stmt)
  | ⟨name, parameters, body⟩ => ⟨name, parameters, body⟩ :: functionsOfAll body

def Stmt.functionsOfMethods : List (Lambda Stmt) → List (Lambda Stmt)
  | [] => []
  | f :: fs => functionsOfLambda f ++ functionsOfMethods fs

end

mutual

def Listing.functions : Listing Item → List (Listing Item)
  | ⟨kind, arity, name, origins, marks, code, constants, classes⟩ =>
    ⟨kind, arity, name, origins, marks, code, constants, classes⟩ :: Item.functionsOfAll constants

def Item.functions : Item → List (Listing Item)
  | .function f => f.functions
  | .number _ | .string _ => []

def Item.functionsOfAll : List Item → List (Listing Item)
  | [] => []
  | i :: is => i.functions ++ Item.functionsOfAll is

end

namespace Item

theorem functionsOfAll_append (is js : List Item) :
    functionsOfAll (is ++ js) = functionsOfAll is ++ functionsOfAll js := by
  induction is with
  | nil => rfl
  | cons i is ih => rw [List.cons_append, functionsOfAll, functionsOfAll, ih, List.append_assoc]

end Item

structure Level.Kept (l l' : Level) : Prop where
  name : l'.name = l.name
  arity : l'.arity = l.arity
  functions : Item.functionsOfAll l'.constants = Item.functionsOfAll l.constants
  declared : l'.declared = l.declared

namespace Level.Kept

theorem refl (l : Level) : l.Kept l :=
  ⟨rfl, rfl, rfl, rfl⟩

theorem trans {l l' l'' : Level} (h : l.Kept l') (h' : l'.Kept l'') : l.Kept l'' :=
  ⟨h'.name.trans h.name, h'.arity.trans h.arity, h'.functions.trans h.functions,
    h'.declared.trans h.declared⟩

end Level.Kept

namespace PlanM

class Quiet {α : Type} (act : PlanM α) : Prop where
  kept : ∀ g a g', act g = some (a, g') → List.Forall₂ Level.Kept g.levels g'.levels

namespace Quiet

variable {α β : Type}

instance bind {x : PlanM α} {f : α → PlanM β} [hx : Quiet x] [hf : ∀ a, Quiet (f a)] :
    Quiet (x >>= f) where
  kept g b g₂ h := by
    obtain ⟨⟨a, g₁⟩, hx₁, hf₁⟩ := Option.bind_eq_some_iff.mp h
    exact forall₂_chain .trans (hx.kept g a g₁ hx₁) ((hf a).kept g₁ b g₂ hf₁)

instance pure (a : α) : Quiet (pure a) where
  kept g b g' h := by
    cases h
    exact forall₂_refl .refl _

instance failure : Quiet (failure : PlanM α) where
  kept _ _ _ h := nomatch h

instance ite {p : Prop} [Decidable p] {x y : PlanM α} [hx : Quiet x] [hy : Quiet y] :
    Quiet (if p then x else y) := by
  split
  · exact hx
  · exact hy

instance level : Quiet level where
  kept _ _ _ h := by
    rw [(level_some h).1]
    exact forall₂_refl .refl _

theorem modifyLevel {f : Level → Level} (hf : ∀ l : Level, l.Kept (f l)) : Quiet (PlanM.modifyLevel f) where
  kept g a g' h := by
    obtain ⟨l, ls, hl, rfl⟩ := modifyLevel_some h
    rw [hl]
    exact .cons (hf l) (forall₂_refl .refl _)

instance classes_ : Quiet PlanM.classes where
  kept g a g' h := by
    cases h
    exact forall₂_refl .refl _

theorem constant {item : Item} (hitem : item.functions = []) : Quiet (constant item) where
  kept g k g' h := by
    obtain ⟨l, ls, hl, -, rfl⟩ := constant_some h
    rw [hl]
    refine .cons ⟨rfl, rfl, ?_, rfl⟩ (forall₂_refl .refl _)
    rw [Item.functionsOfAll_append, Item.functionsOfAll, hitem]
    exact List.append_nil _

instance string (chars : Bytes) : Quiet (PlanM.constant (.string chars)) := constant rfl

instance number (v : Value) : Quiet (PlanM.constant (.number v)) := constant rfl

theorem capture {o : Origin} {l l' : Level} {i : Nat} (h : l.capture o = (i, l')) : l.Kept l' := by
  unfold Level.capture at h
  split at h
  · cases h
    exact .refl l
  · cases h
    exact ⟨rfl, rfl, rfl, rfl⟩

theorem findCapture {name : Bytes} {r : Option Nat} {ls ls' : List Level}
    (h : Level.findCapture name ls = some (r, ls')) : List.Forall₂ Level.Kept ls ls' := by
  induction ls generalizing r ls' with
  | nil =>
    cases h
    exact .nil
  | cons l outer ih =>
    cases outer with
    | nil =>
      cases h
      exact forall₂_refl .refl _
    | cons o rest =>
      rw [Level.findCapture] at h
      cases hlocal : findLocal name o.locals with
      | some found =>
        obtain ⟨slot, v⟩ := found
        rw [hlocal] at h
        dsimp only at h
        split at h
        · cases h
        · cases h
          exact .cons (capture rfl) (.cons ⟨rfl, rfl, rfl, rfl⟩ (forall₂_refl .refl _))
      | none =>
        rw [hlocal] at h
        dsimp only at h
        cases hrec : Level.findCapture name (o :: rest) with
        | none =>
          rw [hrec] at h
          cases h
        | some found =>
          obtain ⟨index, outer'⟩ := found
          rw [hrec] at h
          cases index with
          | none =>
            cases h
            exact .cons (.refl l) (ih hrec)
          | some j =>
            cases h
            exact .cons (capture rfl) (ih hrec)

instance resolve (name : Bytes) : Quiet (resolve name) where
  kept g place g' h := by
    obtain ⟨l, ls, -, h⟩ := resolve_some h
    rcases h with ⟨_, _, -, -, -, rfl⟩ | ⟨-, _, _, hcap, -, rfl⟩ | ⟨-, k, levels, hcap, hk, -⟩
    · exact forall₂_refl .refl _
    · exact findCapture hcap
    · exact forall₂_chain .trans (findCapture hcap) ((string name).kept { g with levels } k g' hk)

instance addLocal (name : Bytes) : Quiet (addLocal name) := modifyLevel fun _ => ⟨rfl, rfl, rfl, rfl⟩

instance declare (name : Bytes) : Quiet (declare name) := by
  unfold PlanM.declare
  infer_instance

instance declareNamed (name : Bytes) : Quiet (declareNamed name) := by
  unfold PlanM.declareNamed
  infer_instance

instance initialize_ : Quiet initialize_ := modifyLevel fun l => by
  split
  · exact .refl l
  · exact ⟨rfl, rfl, rfl, rfl⟩

instance define (k : Nat) : Quiet (define k) := by
  unfold PlanM.define
  infer_instance

instance beginScope : Quiet beginScope := modifyLevel fun _ => ⟨rfl, rfl, rfl, rfl⟩

instance endScope : Quiet endScope where
  kept g lines g' h := by
    obtain ⟨l, ls, hl, -, rfl⟩ := endScope_some h
    rw [hl]
    exact .cons ⟨rfl, rfl, rfl, rfl⟩ (forall₂_refl .refl _)

theorem reclass (f : Plan → Plan) (hf : ∀ g, (f g).levels = g.levels) : Quiet (modify f) where
  kept g a g' h := by
    cases h
    show List.Forall₂ Level.Kept g.levels (f g).levels
    rw [hf g]
    exact forall₂_refl .refl _

instance inheritFrom (name superclass : Bytes) : Quiet (inheritFrom name superclass) := by
  have := reclass (fun g => { g with classes := true :: g.classes.tail }) fun _ => rfl
  unfold PlanM.inheritFrom
  infer_instance

instance openClass (name : Bytes) (superclass : Option Bytes) : Quiet (openClass name superclass) := by
  have hopen := reclass (fun g => { g with classes := false :: g.classes }) fun _ => rfl
  cases superclass with
  | none => exact @bind _ _ _ _ hopen fun _ => pure []
  | some s => exact @bind _ _ _ _ hopen fun _ => inheritFrom name s

instance closeClass (inherits : Bool) : Quiet (closeClass inherits) := by
  have := reclass (fun g => { g with classes := g.classes.tail }) fun _ => rfl
  unfold PlanM.closeClass
  infer_instance

end Quiet

end PlanM

open PlanM

mutual

theorem Expr.quiet_code (e : Expr) : Quiet e.code := by
  cases e with
  | unary _ e | get e _ | assign _ e =>
    have := e.quiet_code
    rw [Expr.code]
    infer_instance
  | binary _ a b | and_ a b | or_ a b | set a _ b =>
    have := a.quiet_code
    have := b.quiet_code
    rw [Expr.code]
    infer_instance
  | call e arguments | invoke e _ arguments =>
    have := e.quiet_code
    have := Expr.quiet_codeOfAll arguments
    rw [Expr.code]
    infer_instance
  | superInvoke _ arguments =>
    have := Expr.quiet_codeOfAll arguments
    rw [Expr.code]
    infer_instance
  | _ =>
    rw [Expr.code]
    infer_instance

theorem Expr.quiet_codeOfAll (es : List Expr) : Quiet (Expr.codeOfAll es) := by
  cases es with
  | nil =>
    rw [Expr.codeOfAll]
    infer_instance
  | cons e es =>
    have := e.quiet_code
    have := Expr.quiet_codeOfAll es
    rw [Expr.codeOfAll]
    infer_instance

end

instance (e : Expr) : Quiet e.code := e.quiet_code

instance (e : Option Expr) : Quiet (Expr.code? e) := by
  cases e <;> unfold Expr.code? <;> infer_instance

structure Plan.Collects (fs : List (Lambda Stmt)) (bs : List ClassBody) (g g' : Plan) : Prop where
  levels : ∃ l ls l' ls', g.levels = l :: ls ∧ g'.levels = l' :: ls' ∧ l'.name = l.name ∧ l'.arity = l.arity ∧
    List.Forall₂ Level.Kept ls ls' ∧ l'.declared = l.declared ++ bs ∧
      ∃ new, List.Forall₂ Listing.Renders fs new ∧
        Item.functionsOfAll l'.constants = Item.functionsOfAll l.constants ++ new

namespace Plan.Collects

variable {fs gs : List (Lambda Stmt)} {bs cs : List ClassBody} {g g₁ g₂ : Plan}

theorem trans (h : Collects fs bs g g₁) (h' : Collects gs cs g₁ g₂) : Collects (fs ++ gs) (bs ++ cs) g g₂ := by
  obtain ⟨l, ls, l₁, ls₁, hl, hl₁, hname, harity, hls, hdeclared, new, hnew, hfunctions⟩ := h.levels
  obtain ⟨l₁', ls₁', l₂, ls₂, hl₁', hl₂, hname', harity', hls', hdeclared', new', hnew', hfunctions'⟩ := h'.levels
  rw [hl₁] at hl₁'
  cases hl₁'
  refine ⟨l, ls, l₂, ls₂, hl, hl₂, hname'.trans hname, harity'.trans harity, forall₂_chain .trans hls hls', ?_,
    new ++ new', List.rel_append hnew hnew', ?_⟩
  · rw [hdeclared', hdeclared, List.append_assoc]
  · rw [hfunctions', hfunctions, List.append_assoc]

end Plan.Collects

def PlanM.Gathers {α : Type} (fs : List (Lambda Stmt)) (bs : List ClassBody) (act : PlanM α) : Prop :=
  ∀ g a g', act g = some (a, g') → g.levels ≠ [] → g.Collects fs bs g'

namespace PlanM.Gathers

variable {α β : Type} {fs gs : List (Lambda Stmt)} {bs cs : List ClassBody} {x : PlanM α} {f : α → PlanM β}

theorem of_quiet (hx : Quiet x) : Gathers [] [] x := by
  intro g a g' h hne
  obtain ⟨l, ls, hl⟩ := List.exists_cons_of_ne_nil hne
  have hkept := hx.kept g a g' h
  rw [hl] at hkept
  generalize hl' : g'.levels = levels at hkept
  cases hkept with
  | @cons _ l' _ ls' hhead htail =>
    exact ⟨l, ls, l', ls', hl, hl', hhead.name, hhead.arity, htail, by rw [hhead.declared, List.append_nil], [], .nil,
      by rw [hhead.functions, List.append_nil]⟩

theorem enlist (bs : List ClassBody) : Gathers [] bs (enlist bs) := by
  intro g a g' h _
  obtain ⟨l, ls, hl, rfl⟩ := enlist_some h
  exact ⟨l, ls, _, ls, hl, rfl, rfl, rfl, forall₂_refl .refl _, rfl, [], .nil, (List.append_nil _).symm⟩

theorem bind (hx : Gathers fs bs x) (hf : ∀ a, Gathers gs cs (f a)) : Gathers (fs ++ gs) (bs ++ cs) (x >>= f) := by
  intro g b g₂ h hne
  obtain ⟨a, g₁, hx₁, hf₁⟩ := bind_some h
  have hfirst := hx g a g₁ hx₁ hne
  refine hfirst.trans (hf a g₁ b g₂ hf₁ ?_)
  obtain ⟨-, -, l₁, ls₁, -, hl₁, -⟩ := hfirst.levels
  rw [hl₁]
  exact List.cons_ne_nil l₁ ls₁

theorem after_quiet (hx : Quiet x) (hf : ∀ a, Gathers fs bs (f a)) : Gathers fs bs (x >>= f) :=
  (of_quiet hx).bind hf

theorem then_quiet (hx : Gathers fs bs x) (hf : ∀ a, Quiet (f a)) : Gathers fs bs (x >>= f) := by
  have := hx.bind fun a => of_quiet (hf a)
  rwa [List.append_nil, List.append_nil] at this

end PlanM.Gathers

theorem PlanM.Gathers.bodyCode {fs : List (Lambda Stmt)} {bs : List ClassBody} {b : Bool} {m : PlanM (List Line)}
    (hm : Gathers fs bs m) : Gathers fs bs (bodyCode b m) := by
  unfold Lox.bodyCode
  split
  · exact fun _ _ _ h => nomatch h
  · exact hm

theorem arity_parameters {ps : List Bytes} {g g' : Plan} {u : Unit} {l : Level} {ls : List Level}
    (h : ps.forM parameter g = some (u, g')) (hl : g.levels = l :: ls) : ∃ l' ls', g'.levels = l' :: ls' ∧
      l'.name = l.name ∧ l'.arity = l.arity + ps.length ∧ List.Forall₂ Level.Kept ls ls' ∧
      Item.functionsOfAll l'.constants = Item.functionsOfAll l.constants ∧ l'.declared = l.declared := by
  induction ps generalizing g l ls with
  | nil =>
    cases h
    exact ⟨l, ls, hl, rfl, rfl, forall₂_refl .refl _, rfl, rfl⟩
  | cons p ps ih =>
    obtain ⟨u₁, g₁, hp, hrest⟩ := bind_some h
    obtain ⟨u₂, g₂, hmod, hp⟩ := bind_some hp
    obtain ⟨l', ls', hl', rfl⟩ := modifyLevel_some hmod
    rw [hl] at hl'
    cases hl'
    have hquiet : Quiet (declareNamed p >>= fun k => define k >>= fun _ => pure ()) := inferInstance
    have hkept := hquiet.kept _ _ _ hp
    generalize hl₁ : g₁.levels = levels at hkept
    cases hkept with
    | @cons _ l₁ _ ls₁ hhead htail =>
      obtain ⟨l₂, ls₂, hl₂, hname, harity, hls, hfunctions, hdeclared⟩ := ih hrest hl₁
      refine ⟨l₂, ls₂, hl₂, hname.trans hhead.name, ?_, forall₂_chain .trans htail hls,
        hfunctions.trans hhead.functions, hdeclared.trans hhead.declared⟩
      rw [harity, hhead.arity, List.length_cons]
      show l.arity + 1 + ps.length = _
      omega

mutual

theorem Stmt.gathers_code (s : Stmt) : Gathers s.functions s.classes s.code := by
  cases s with
  | skip | expression e | print e =>
    rw [Stmt.code, Stmt.functions, Stmt.classes]
    exact .of_quiet inferInstance
  | return_ e =>
    rw [Stmt.functions, Stmt.classes]
    cases e <;> rw [Stmt.code] <;> exact .of_quiet inferInstance
  | var_ name e =>
    rw [Stmt.functions, Stmt.classes]
    cases e <;> rw [Stmt.code] <;> exact .of_quiet inferInstance
  | if_ e s t =>
    rw [Stmt.code, Stmt.functions, Stmt.classes]
    refine .after_quiet inferInstance fun l => .after_quiet inferInstance fun a => ?_
    exact .bind s.gathers_code.bodyCode fun b => .then_quiet t.gathers_code.bodyCode inferInstance
  | while_ e s =>
    rw [Stmt.code, Stmt.functions, Stmt.classes]
    refine .after_quiet inferInstance fun l => .after_quiet inferInstance fun a => ?_
    exact .then_quiet s.gathers_code.bodyCode inferInstance
  | for_ i a b s =>
    rw [Stmt.code, Stmt.functions, Stmt.classes]
    refine .after_quiet inferInstance fun l => .after_quiet inferInstance fun u => ?_
    refine .bind i.gathers_code fun _ => .after_quiet inferInstance fun _ => .after_quiet inferInstance fun _ => ?_
    exact .then_quiet s.gathers_code.bodyCode inferInstance
  | block ss =>
    rw [Stmt.code, Stmt.functions, Stmt.classes]
    refine .after_quiet inferInstance fun l => .after_quiet inferInstance fun u => ?_
    exact .then_quiet (Stmt.gathers_codeOfAll ss) inferInstance
  | fun_ f =>
    rw [Stmt.code, Stmt.functions, Stmt.classes]
    refine .after_quiet inferInstance fun l => .after_quiet inferInstance fun k => ?_
    exact .after_quiet inferInstance fun u => .then_quiet (Stmt.gathers_codeOfFunction .function f) inferInstance
  | class_ name superclass methods =>
    rw [Stmt.code, Stmt.functions, Stmt.classes]
    refine .after_quiet inferInstance fun l => .after_quiet inferInstance fun k => ?_
    refine .after_quiet inferInstance fun u => .after_quiet inferInstance fun a => ?_
    refine .after_quiet inferInstance fun b => .after_quiet inferInstance fun own => ?_
    rw [← List.append_nil (Stmt.functionsOfMethods methods)]
    exact .bind (Stmt.gathers_codeOfMethods methods) fun c => .after_quiet inferInstance fun drop =>
      .then_quiet (.enlist _) inferInstance

theorem Stmt.gathers_codeOfAll (ss : List Stmt) :
    Gathers (Stmt.functionsOfAll ss) (Stmt.classesOfAll ss) (Stmt.codeOfAll ss) := by
  cases ss with
  | nil =>
    rw [Stmt.codeOfAll, Stmt.functionsOfAll, Stmt.classesOfAll]
    exact .of_quiet inferInstance
  | cons s ss =>
    rw [Stmt.codeOfAll, Stmt.functionsOfAll, Stmt.classesOfAll]
    exact .bind s.gathers_code fun a => .then_quiet (Stmt.gathers_codeOfAll ss) inferInstance

theorem Stmt.gathers_codeOfFunction (kind : FunctionKind) (f : Lambda Stmt) :
    Gathers (Stmt.functionsOfLambda f) (Stmt.classesOfLambda f) (Stmt.codeOfFunction kind f) := by
  obtain ⟨name, parameters, body⟩ := f
  intro g lines g' hrun hne
  have hmade := hrun
  rw [Stmt.codeOfFunction] at hrun
  obtain ⟨u₁, g₁, hbegin, hrun⟩ := bind_some hrun
  obtain ⟨u₂, g₂, hscope, hrun⟩ := bind_some hrun
  obtain ⟨u₃, g₃, hparameters, hrun⟩ := bind_some hrun
  obtain ⟨code, g₄, hbody, hrun⟩ := bind_some hrun
  obtain ⟨q, g₅, hend, hrun⟩ := bind_some hrun
  obtain ⟨u₄, g₅', henlist, hrun⟩ := bind_some hrun
  obtain ⟨k, g₆, hconstant, hrun⟩ := bind_some hrun
  cases hrun
  obtain ⟨l₀, ls₀, hl₀⟩ := List.exists_cons_of_ne_nil hne
  cases hbegin
  cases hscope
  obtain ⟨l₃, ls₃, hl₃, hname₃, harity₃, hls₃, hfunctions₃, hdeclared₃⟩ := arity_parameters hparameters rfl
  have hne₃ : g₃.levels ≠ [] := by
    rw [hl₃]
    exact List.cons_ne_nil l₃ ls₃
  obtain ⟨l₃', ls₃', l₄, ls₄, hl₃', hl₄, hname₄, harity₄, hls₄, hdeclared₄, new, hnew, hfunctions₄⟩ :=
    (Stmt.gathers_codeOfAll body g₃ code g₄ hbody hne₃).levels
  rw [hl₃] at hl₃'
  cases hl₃'
  obtain ⟨l₄', ls₄', hl₄', rfl, hq⟩ := endFunction_some hend
  rw [hl₄] at hl₄'
  cases hl₄'
  obtain ⟨l₅, ls₅, hl₅, rfl⟩ := enlist_some henlist
  obtain ⟨l₆, ls₆, hl₆, hk, rfl⟩ := constant_some hconstant
  cases hl₆
  have houter : List.Forall₂ Level.Kept _ _ := forall₂_chain .trans hls₃ hls₄
  rw [show ls₄ = l₅ :: ls₅ from hl₅] at houter
  have hfunctions : q.functions = q :: new := by
    rw [hq, Listing.functions, hfunctions₄, hfunctions₃]
    rfl
  have hrenders : q.Renders ⟨name, parameters, body⟩ := by
    refine ⟨?_, ?_, kind, g, k, _, _, _, hmade, rfl, ?_⟩
    · rw [hq]
      exact hname₄.trans hname₃
    · rw [hq]
      exact (harity₄.trans harity₃).trans (Nat.zero_add _)
    · rw [hk, List.getElem?_concat_length]
  change List.Forall₂ Level.Kept g.levels (l₅ :: ls₅) at houter
  rw [hl₀] at houter
  cases houter with
  | cons hhead htail =>
    have hclasses : q.classes = Stmt.classesOfAll body := by
      rw [hq]
      exact hdeclared₄.trans (congrArg (· ++ _) hdeclared₃)
    refine ⟨l₀, ls₀, _, ls₅, hl₀, rfl, hhead.name, hhead.arity, htail, ?_, q :: new, .cons hrenders hnew, ?_⟩
    · show l₅.declared ++ q.classes = _
      rw [hclasses, hhead.declared, Stmt.classesOfLambda]
    rw [Item.functionsOfAll_append, hhead.functions, Item.functionsOfAll, Item.functions, hfunctions]
    exact congrArg _ (List.append_nil _)

theorem Stmt.gathers_codeOfMethods (fs : List (Lambda Stmt)) :
    Gathers (Stmt.functionsOfMethods fs) (Stmt.classesOfMethods fs) (Stmt.codeOfMethods fs) := by
  cases fs with
  | nil =>
    rw [Stmt.codeOfMethods, Stmt.functionsOfMethods, Stmt.classesOfMethods]
    exact .of_quiet inferInstance
  | cons f fs =>
    obtain ⟨name, parameters, body⟩ := f
    rw [Stmt.codeOfMethods, Stmt.functionsOfMethods, Stmt.classesOfMethods]
    refine .after_quiet inferInstance fun k => ?_
    exact .bind (Stmt.gathers_codeOfFunction _ ⟨name, parameters, body⟩) fun a =>
      .then_quiet (Stmt.gathers_codeOfMethods fs) inferInstance

end

theorem scriptListing_functions {body : List Stmt} {f : Listing Item} (h : scriptListing body = some f) :
    ∃ gs, f.functions = f :: gs ∧ f.name = none ∧ f.arity = 0 ∧
      List.Forall₂ Listing.Renders (Stmt.functionsOfAll body) gs ∧ f.classes = Stmt.classesOfAll body := by
  unfold scriptListing at h
  obtain ⟨⟨f', g'⟩, hmake, hf⟩ := Option.bind_eq_some_iff.mp h
  cases hf
  obtain ⟨u, g₁, hbegin, hmake⟩ := bind_some hmake
  obtain ⟨code, g₂, hbody, hend⟩ := bind_some hmake
  cases hbegin
  obtain ⟨l₁, ls₁, l₂, ls₂, hl₁, hl₂, hname, harity, -, hdeclared, new, hnew, hfunctions⟩ :=
    (Stmt.gathers_codeOfAll body _ code g₂ hbody (List.cons_ne_nil _ _)).levels
  cases hl₁
  obtain ⟨l₂', ls₂', hl₂', -, rfl⟩ := endFunction_some hend
  rw [hl₂] at hl₂'
  cases hl₂'
  refine ⟨new, ?_, hname, harity, hnew, hdeclared⟩
  rw [Listing.functions, hfunctions]
  rfl

end Lox

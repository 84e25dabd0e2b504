import Lox.Proofs.Lexical.Resolve

namespace Lox

open PlanM

/-- Instructions that take variables off the stack. -/
def Code.Sheds (n : Nat) (code : List Line) : Prop :=
  code.length = n ∧ ∀ line ∈ code, line = .instr .pop .none ∨ line = .instr .closeUpvalue .none

section

variable {χ : List (List Origin)} {κ : List Item} {env : Env} {a b : List Line} {k : Nat} {name text chars : Bytes}
  {p : Place}

mutual

/-- The code of an expression without classes in a function with these constants, where upvalues lead through these
lists of origins. -/
inductive Expr.Codes (χ : List (List Origin)) (κ : List Item) (env : Env) : Expr → List Line → Prop
  | nil : Codes χ κ env .nil [.instr .nil .none]
  | true_ : Codes χ κ env .true_ [.instr .true .none]
  | false_ : Codes χ κ env .false_ [.instr .false .none]
  | number {text : Bytes} {k : Nat} : κ[k]? = some (.number (.number (Number.ofLiteral text))) →
      Codes χ κ env (.number text) [.instr .constant (.byte k)]
  | string {chars : Bytes} {k : Nat} : κ[k]? = some (.string chars) →
      Codes χ κ env (.string chars) [.instr .constant (.byte k)]
  | variable_ {name : Bytes} {p : Place} : p.Leads χ κ (env.target name) → Codes χ κ env (.variable_ name) [p.read]
  | assign {name : Bytes} {value : Expr} {p : Place} {a : List Line} : p.Leads χ κ (env.target name) →
      value.Codes χ κ env a → Codes χ κ env (.assign name value) (a ++ [p.write])
  | unary {op : UnaryOp} {operand : Expr} {a : List Line} : operand.Codes χ κ env a →
      Codes χ κ env (.unary op operand) (a ++ [.instr op.code .none])
  | binary {op : BinaryOp} {left right : Expr} {a b : List Line} : left.Codes χ κ env a → right.Codes χ κ env b →
      Codes χ κ env (.binary op left right) (a ++ b ++ op.code.map (.instr · .none))
  | and_ {left right : Expr} {a b : List Line} : left.Codes χ κ env a → right.Codes χ κ env b →
      Codes χ κ env (.and_ left right)
        (a ++ [.instr .jumpIfFalse (.short (1 + Code.size b)), .instr .pop .none] ++ b)
  | or_ {left right : Expr} {a b : List Line} : left.Codes χ κ env a → right.Codes χ κ env b →
      Codes χ κ env (.or_ left right)
        (a ++ [.instr .jumpIfFalse (.short 3), .instr .jump (.short (1 + Code.size b)), .instr .pop .none] ++ b)
  | call {callee : Expr} {arguments : List Expr} {a b : List Line} : callee.Codes χ κ env a →
      CodesAll χ κ env arguments b →
      Codes χ κ env (.call callee arguments) (a ++ b ++ [.instr .call (.byte arguments.length)])
  | get {object : Expr} {name : Bytes} {a : List Line} {k : Nat} : object.Codes χ κ env a →
      κ[k]? = some (.string name) → Codes χ κ env (.get object name) (a ++ [.instr .getProperty (.byte k)])
  | set {object value : Expr} {name : Bytes} {a b : List Line} {k : Nat} : object.Codes χ κ env a →
      value.Codes χ κ env b → κ[k]? = some (.string name) →
      Codes χ κ env (.set object name value) (a ++ b ++ [.instr .setProperty (.byte k)])
  | invoke {object : Expr} {name : Bytes} {arguments : List Expr} {a b : List Line} {k : Nat} :
      object.Codes χ κ env a → CodesAll χ κ env arguments b → κ[k]? = some (.string name) →
      Codes χ κ env (.invoke object name arguments) (a ++ b ++ [.instr .invoke (.pair k arguments.length)])

inductive Expr.CodesAll (χ : List (List Origin)) (κ : List Item) (env : Env) : List Expr → List Line → Prop
  | nil : CodesAll χ κ env [] []
  | cons {e : Expr} {es : List Expr} {a b : List Line} : e.Codes χ κ env a → CodesAll χ κ env es b →
      CodesAll χ κ env (e :: es) (a ++ b)

end

inductive Expr.CodesIf (χ : List (List Origin)) (κ : List Item) (env : Env) : Option Expr → Option (List Line) → Prop
  | none : CodesIf χ κ env none none
  | some {e : Expr} {a : List Line} : e.Codes χ κ env a → CodesIf χ κ env (some e) (some a)

/-- The end of a declaration: a variable keeps the slot of its value, and a global is defined. -/
inductive Env.Defines (κ : List Item) (env : Env) (name : Bytes) : List Line → Prop
  | inside : env.inside = true → Defines κ env name []
  | outside {k : Nat} : env.inside = false → κ[k]? = some (.string name) →
      Defines κ env name [.instr .defineGlobal (.byte k)]

mutual

inductive Stmt.Codes : List (List Origin) → List Item → Env → Stmt → List Line → Prop
  | skip {χ : List (List Origin)} {κ : List Item} {env : Env} : Codes χ κ env .skip []
  | expression {χ : List (List Origin)} {κ : List Item} {env : Env} {e : Expr} {a : List Line} {n : Nat} :
      e.Codes χ κ env a → Codes χ κ env (.expression e) (.mark n :: a ++ [.instr .pop .none])
  | print {χ : List (List Origin)} {κ : List Item} {env : Env} {e : Expr} {a : List Line} {n : Nat} :
      e.Codes χ κ env a → Codes χ κ env (.print e) (.mark n :: a ++ [.instr .print .none])
  | return_ {χ : List (List Origin)} {κ : List Item} {env : Env} {value : Option Expr} {a : List Line} {n : Nat} :
      env.kind ≠ .script → (value.getD .nil).Codes χ κ env a →
      Codes χ κ env (.return_ value) (.mark n :: a ++ [.instr .return_ .none])
  | if_ {χ : List (List Origin)} {κ : List Item} {env : Env} {condition : Expr} {then_ else_ : Stmt}
      {a b c : List Line} {n : Nat} : condition.Codes χ κ env a → then_.Codes χ κ env b → then_.declares = none →
      else_.Codes χ κ env c → else_.declares = none → Codes χ κ env (.if_ condition then_ else_) (.mark n :: a ++
        [.instr .jumpIfFalse (.short (Code.size b + 4)), .instr .pop .none] ++ b ++
        [.instr .jump (.short (1 + Code.size c)), .instr .pop .none] ++ c)
  | while_ {χ : List (List Origin)} {κ : List Item} {env : Env} {condition : Expr} {body : Stmt} {a b : List Line}
      {n : Nat} : condition.Codes χ κ env a → body.Codes χ κ env b → body.declares = none →
      Codes χ κ env (.while_ condition body) (.mark n :: loopCode (some a) none b)
  | for_ {χ : List (List Origin)} {κ : List Item} {env : Env} {initializer body : Stmt}
      {condition increment : Option Expr} {a d drop : List Line} {b c : Option (List Line)} {n : Nat} :
      initializer.Codes χ κ env.enter a → Expr.CodesIf χ κ (env.enter.after initializer) condition b →
      Expr.CodesIf χ κ (env.enter.after initializer) increment c →
      body.Codes χ κ (env.enter.after initializer) d → body.declares = none →
      Code.Sheds ((env.enter.after initializer).newest - env.newest) drop →
      Codes χ κ env (.for_ initializer condition increment body) (.mark n :: a ++ loopCode b c d ++ drop)
  | block {χ : List (List Origin)} {κ : List Item} {env env' : Env} {body : List Stmt} {a drop : List Line} {n : Nat} :
      CodesAll χ κ env.enter body a env' → Code.Sheds (env'.newest - env.newest) drop →
      Codes χ κ env (.block body) (.mark n :: a ++ drop)
  | var_ {χ : List (List Origin)} {κ : List Item} {env : Env} {name : Bytes} {value : Option Expr} {a b : List Line}
      {n : Nat} : (value.getD .nil).Codes χ κ env a → env.Defines κ name b →
      Codes χ κ env (.var_ name value) (.mark n :: a ++ b)
  | fun_ {χ : List (List Origin)} {κ : List Item} {env env' : Env} {f : Lambda Stmt} {g : Listing Item}
      {a b : List Line} {k n : Nat} : κ[k]? = some (.function g) → g.arity = f.parameters.length →
      g.name = some f.name →
      CodesAll (g.origins :: χ) g.constants ((env.declare (.named f.name)).function .function f.parameters) f.body a
        env' → g.code = a ++ returnCode .function → env.Defines κ f.name b →
      Codes χ κ env (.fun_ f) (.mark n :: .instr .closure (.closure k g.origins) :: b)

inductive Stmt.CodesAll : List (List Origin) → List Item → Env → List Stmt → List Line → Env → Prop
  | nil {χ : List (List Origin)} {κ : List Item} {env : Env} : CodesAll χ κ env [] [] env
  | cons {χ : List (List Origin)} {κ : List Item} {env env' : Env} {s : Stmt} {ss : List Stmt} {a b : List Line} :
      s.Codes χ κ env a → CodesAll χ κ (env.after s) ss b env' → CodesAll χ κ env (s :: ss) (a ++ b) env'

end

/-- The code of a function: that of its body in this environment, and a return at its end. -/
def Listing.CodesBody (g : Listing Item) (χ : List (List Origin)) (inner : Env) (body : List Stmt) : Prop :=
  ∃ a env', Stmt.CodesAll (g.origins :: χ) g.constants inner body a env' ∧ g.code = a ++ returnCode .function

/-- A name that is found where these functions are compiled stands for what the environment says. -/
def Env.Means (env : Env) (ls : List Level) : Prop :=
  ∀ ⦃name : Bytes⦄ ⦃p : Place⦄ ⦃g g' : Plan⦄, IsIdentifier name → List.Forall₂ Level.Grown ls g.levels →
    resolve name g = some (p, g') → targetIn name g.levels = env.target name

structure Env.Speaks (env : Env) (g : Plan) : Prop where
  housed : ∃ inner : Env, inner.Houses g
  means : env.Means g.levels
  classless : g.classes = []

end

section

variable {α : Type} {env inner : Env} {g g' g₁ g₂ : Plan} {ls ls' : List Level} {χ : List (List Origin)} {κ : List Item}
  {a b : List Line} {us : List Use} {name : Bytes} {k : Nat}

theorem forall₂_grown_trans {ls₁ ls₂ ls₃ : List Level} (h : List.Forall₂ Level.Grown ls₁ ls₂)
    (h' : List.Forall₂ Level.Grown ls₂ ls₃) : List.Forall₂ Level.Grown ls₁ ls₃ :=
  forall₂_chain .trans h h'

theorem Env.Means.grown (h : env.Means ls) (hls : List.Forall₂ Level.Grown ls ls') : env.Means ls' :=
  fun _ _ _ _ hname hgrown hr => h hname (forall₂_grown_trans hls hgrown) hr

theorem Env.Houses.speaks (h : env.Houses g) (hc : g.classes = []) : env.Speaks g where
  housed := ⟨env, h⟩
  means _ _ _ _ hname hgrown _ := (h.fits.grown hgrown).target hname
  classless := hc

theorem Env.Speaks.later {x : PlanM α} [hx : Steady x] {r : α} (h : env.Speaks g) (hr : x g = some (r, g'))
    (ht : Traces 0 g.levels g'.levels a us) : env.Speaks g' where
  housed := by
    obtain ⟨inner, hinner⟩ := h.housed
    exact ⟨inner, hinner.later hr ht⟩
  means := h.means.grown ht.adds.grown_of_zero.levels
  classless := (hx.classes _ _ _ hr).trans h.classless

theorem Env.Speaks.sound (h : env.Speaks g) : SoundLevels g.levels := by
  obtain ⟨inner, hinner⟩ := h.housed
  exact hinner.sound

theorem Env.Speaks.expr {e : Expr} (h : env.Speaks g) (ha : e.code g = some (a, g')) (hn : e.Named) :
    env.Speaks g' ∧ (Views g'.levels χ κ → Views g.levels χ κ) := by
  obtain ⟨inner, hinner⟩ := h.housed
  have htraces := e.traces_code ha hinner hn
  exact ⟨h.later ha htraces, fun hv => hv.before htraces.adds⟩

theorem Env.Speaks.exprs {es : List Expr} (h : env.Speaks g) (ha : Expr.codeOfAll es g = some (a, g'))
    (hn : Expr.NamedAll es) : env.Speaks g' ∧ (Views g'.levels χ κ → Views g.levels χ κ) := by
  obtain ⟨inner, hinner⟩ := h.housed
  have htraces := Expr.traces_codeOfAll es ha hinner hn
  have := Expr.steady_codeOfAll es
  exact ⟨h.later ha htraces, fun hv => hv.before htraces.adds⟩

theorem Env.Speaks.constant {item : Item} (h : env.Speaks g) (hk : constant item g = some (k, g'))
    (hitem : ∀ f, item ≠ .function f) : env.Speaks g' ∧ (Views g'.levels χ κ → Views g.levels χ κ) := by
  have htraces := traces_constant hk h.sound hitem
  exact ⟨h.later hk htraces, fun hv => hv.before htraces.adds⟩

theorem Env.Speaks.nameConstant (h : env.Speaks g) (hk : PlanM.constant (.string name) g = some (k, g')) :
    env.Speaks g' ∧ (Views g'.levels χ κ → Views g.levels χ κ) :=
  h.constant hk fun f hf => by cases hf

theorem constant_at {item : Item} (hk : constant item g = some (k, g')) (hv : Views g'.levels χ κ) :
    κ[k]? = some item := by
  obtain ⟨l, ls, hls, rfl, rfl⟩ := constant_some hk
  exact getElem?_of_extends (hv.constants _ rfl)

theorem Env.Speaks.resolved {p : Place} (h : env.Speaks g) (hname : IsIdentifier name)
    (hr : resolve name g = some (p, g')) : env.Speaks g' ∧ (Views g'.levels χ κ → Views g.levels χ κ) ∧
      (Views g'.levels χ κ → p.Leads χ κ (env.target name)) := by
  have hresolves := resolves hr h.sound
  rw [h.means hname (forall₂_refl .refl _) hr] at hresolves
  exact ⟨h.later hr hresolves.read, fun hv => hv.before hresolves.adds, hresolves.leads χ κ⟩

end

def Expr.CodesAs (e : Expr) : Prop :=
  ∀ ⦃env : Env⦄ ⦃g g' : Plan⦄ ⦃lines : List Line⦄ ⦃χ : List (List Origin)⦄ ⦃κ : List Item⦄,
    e.code g = some (lines, g') → env.Speaks g → e.Named → Views g'.levels χ κ → e.Codes χ κ env lines

def Expr.CodesAsAll (es : List Expr) : Prop :=
  ∀ ⦃env : Env⦄ ⦃g g' : Plan⦄ ⦃lines : List Line⦄ ⦃χ : List (List Origin)⦄ ⦃κ : List Item⦄,
    Expr.codeOfAll es g = some (lines, g') → env.Speaks g → Expr.NamedAll es → Views g'.levels χ κ →
      Expr.CodesAll χ κ env es lines

section

variable {value operand left right callee object : Expr} {arguments : List Expr}

theorem Expr.codesAs_number (text : Bytes) : Expr.CodesAs (.number text) := by
  intro env g g' lines χ κ h henv hn hv
  rw [Expr.code] at h
  split at h
  · cases h
  · obtain ⟨k, g₁, hk, h⟩ := bind_some h
    cases h
    exact .number (constant_at hk hv)

theorem Expr.codesAs_string (chars : Bytes) : Expr.CodesAs (.string chars) := by
  intro env g g' lines χ κ h henv hn hv
  rw [Expr.code] at h
  obtain ⟨k, g₁, hk, h⟩ := bind_some h
  cases h
  exact .string (constant_at hk hv)

theorem Expr.codesAs_variable (name : Bytes) : Expr.CodesAs (.variable_ name) := by
  intro env g g' lines χ κ h henv hn hv
  rw [Expr.code] at h
  obtain ⟨p, g₁, hp, h⟩ := bind_some h
  cases h
  exact .variable_ ((henv.resolved hn hp).2.2 hv)

theorem Expr.codesAs_assign (name : Bytes) (ih : value.CodesAs) : Expr.CodesAs (.assign name value) := by
  intro env g g' lines χ κ h henv hn hv
  rw [Expr.code] at h
  split at h
  · cases h
  · obtain ⟨p, g₁, hp, h⟩ := bind_some h
    obtain ⟨a, g₂, ha, h⟩ := bind_some h
    cases h
    obtain ⟨henv₁, -, hleads⟩ := henv.resolved (χ := χ) (κ := κ) hn.1 hp
    have hv₁ := (henv₁.expr ha hn.2).2 hv
    exact .assign (hleads hv₁) (ih ha henv₁ hn.2 hv)

theorem Expr.codesAs_unary (op : UnaryOp) (ih : operand.CodesAs) : Expr.CodesAs (.unary op operand) := by
  intro env g g' lines χ κ h henv hn hv
  rw [Expr.code] at h
  obtain ⟨a, g₁, ha, h⟩ := bind_some h
  cases h
  exact .unary (ih ha henv hn hv)

theorem Expr.codesAs_binary (op : BinaryOp) (ihl : left.CodesAs) (ihr : right.CodesAs) :
    Expr.CodesAs (.binary op left right) := by
  intro env g g' lines χ κ h henv hn hv
  rw [Expr.code] at h
  obtain ⟨a, g₁, ha, h⟩ := bind_some h
  obtain ⟨b, g₂, hb, h⟩ := bind_some h
  cases h
  obtain ⟨henv₁, -⟩ := henv.expr (χ := χ) (κ := κ) ha hn.1
  exact .binary (ihl ha henv hn.1 ((henv₁.expr hb hn.2).2 hv)) (ihr hb henv₁ hn.2 hv)

theorem Expr.codesAs_and (ihl : left.CodesAs) (ihr : right.CodesAs) : Expr.CodesAs (.and_ left right) := by
  intro env g g' lines χ κ h henv hn hv
  rw [Expr.code] at h
  obtain ⟨a, g₁, ha, h⟩ := bind_some h
  obtain ⟨b, g₂, hb, h⟩ := bind_some h
  cases h
  obtain ⟨henv₁, -⟩ := henv.expr (χ := χ) (κ := κ) ha hn.1
  exact .and_ (ihl ha henv hn.1 ((henv₁.expr hb hn.2).2 hv)) (ihr hb henv₁ hn.2 hv)

theorem Expr.codesAs_or (ihl : left.CodesAs) (ihr : right.CodesAs) : Expr.CodesAs (.or_ left right) := by
  intro env g g' lines χ κ h henv hn hv
  rw [Expr.code] at h
  obtain ⟨a, g₁, ha, h⟩ := bind_some h
  obtain ⟨b, g₂, hb, h⟩ := bind_some h
  cases h
  obtain ⟨henv₁, -⟩ := henv.expr (χ := χ) (κ := κ) ha hn.1
  exact .or_ (ihl ha henv hn.1 ((henv₁.expr hb hn.2).2 hv)) (ihr hb henv₁ hn.2 hv)

theorem Expr.codesAs_call (ihf : callee.CodesAs) (ihs : Expr.CodesAsAll arguments) :
    Expr.CodesAs (.call callee arguments) := by
  intro env g g' lines χ κ h henv hn hv
  rw [Expr.code] at h
  obtain ⟨a, g₁, ha, h⟩ := bind_some h
  obtain ⟨b, g₂, hb, h⟩ := bind_some h
  cases h
  obtain ⟨henv₁, -⟩ := henv.expr (χ := χ) (κ := κ) ha hn.1
  exact .call (ihf ha henv hn.1 ((henv₁.exprs hb hn.2).2 hv)) (ihs hb henv₁ hn.2 hv)

theorem Expr.codesAs_get (name : Bytes) (ih : object.CodesAs) : Expr.CodesAs (.get object name) := by
  intro env g g' lines χ κ h henv hn hv
  rw [Expr.code] at h
  obtain ⟨a, g₁, ha, h⟩ := bind_some h
  obtain ⟨k, g₂, hk, h⟩ := bind_some h
  cases h
  obtain ⟨henv₁, -⟩ := henv.expr (χ := χ) (κ := κ) ha hn
  exact .get (ih ha henv hn ((henv₁.nameConstant hk).2 hv)) (constant_at hk hv)

theorem Expr.codesAs_set (name : Bytes) (iho : object.CodesAs) (ihv : value.CodesAs) :
    Expr.CodesAs (.set object name value) := by
  intro env g g' lines χ κ h henv hn hv
  rw [Expr.code] at h
  obtain ⟨a, g₁, ha, h⟩ := bind_some h
  obtain ⟨k, g₂, hk, h⟩ := bind_some h
  obtain ⟨b, g₃, hb, h⟩ := bind_some h
  cases h
  obtain ⟨henv₁, -⟩ := henv.expr (χ := χ) (κ := κ) ha hn.1
  obtain ⟨henv₂, hback⟩ := henv₁.nameConstant (χ := χ) (κ := κ) hk
  have hv₂ := (henv₂.expr hb hn.2).2 hv
  exact .set (iho ha henv hn.1 (hback hv₂)) (ihv hb henv₂ hn.2 hv) (constant_at hk hv₂)

theorem Expr.codesAs_invoke (name : Bytes) (iho : object.CodesAs) (ihs : Expr.CodesAsAll arguments) :
    Expr.CodesAs (.invoke object name arguments) := by
  intro env g g' lines χ κ h henv hn hv
  rw [Expr.code] at h
  obtain ⟨a, g₁, ha, h⟩ := bind_some h
  obtain ⟨k, g₂, hk, h⟩ := bind_some h
  obtain ⟨b, g₃, hb, h⟩ := bind_some h
  cases h
  obtain ⟨henv₁, -⟩ := henv.expr (χ := χ) (κ := κ) ha hn.1
  obtain ⟨henv₂, hback⟩ := henv₁.nameConstant (χ := χ) (κ := κ) hk
  have hv₂ := (henv₂.exprs hb hn.2).2 hv
  exact .invoke (iho ha henv hn.1 (hback hv₂)) (ihs hb henv₂ hn.2 hv) (constant_at hk hv₂)

theorem Expr.codesAs_this : Expr.CodesAs .this_ := by
  intro env g g' lines χ κ h henv
  rw [Expr.code] at h
  obtain ⟨cs, g₁, hcs, h⟩ := bind_some h
  cases hcs
  rw [henv.classless] at h
  cases h

theorem Expr.codesAs_super (name : Bytes) : Expr.CodesAs (.super_ name) := by
  intro env g g' lines χ κ h henv
  rw [Expr.code] at h
  obtain ⟨cs, g₁, hcs, h⟩ := bind_some h
  cases hcs
  rw [henv.classless] at h
  cases h

theorem Expr.codesAs_superInvoke (name : Bytes) (arguments : List Expr) :
    Expr.CodesAs (.superInvoke name arguments) := by
  intro env g g' lines χ κ h henv
  rw [Expr.code] at h
  obtain ⟨cs, g₁, hcs, h⟩ := bind_some h
  cases hcs
  rw [henv.classless] at h
  cases h

end

mutual

theorem Expr.codesAs (e : Expr) : e.CodesAs := by
  cases e with
  | nil =>
    intro env g g' lines χ κ h henv hn hv
    cases h
    exact .nil
  | true_ =>
    intro env g g' lines χ κ h henv hn hv
    cases h
    exact .true_
  | false_ =>
    intro env g g' lines χ κ h henv hn hv
    cases h
    exact .false_
  | number text => exact Expr.codesAs_number text
  | string chars => exact Expr.codesAs_string chars
  | variable_ name => exact Expr.codesAs_variable name
  | assign name value => exact Expr.codesAs_assign name value.codesAs
  | unary op operand => exact Expr.codesAs_unary op operand.codesAs
  | binary op left right => exact Expr.codesAs_binary op left.codesAs right.codesAs
  | and_ left right => exact Expr.codesAs_and left.codesAs right.codesAs
  | or_ left right => exact Expr.codesAs_or left.codesAs right.codesAs
  | call callee arguments => exact Expr.codesAs_call callee.codesAs (Expr.codesAsAll arguments)
  | get object name => exact Expr.codesAs_get name object.codesAs
  | set object name value => exact Expr.codesAs_set name object.codesAs value.codesAs
  | invoke object name arguments => exact Expr.codesAs_invoke name object.codesAs (Expr.codesAsAll arguments)
  | this_ => exact Expr.codesAs_this
  | super_ name => exact Expr.codesAs_super name
  | superInvoke name arguments => exact Expr.codesAs_superInvoke name arguments

theorem Expr.codesAsAll (es : List Expr) : Expr.CodesAsAll es := by
  intro env g g' lines χ κ h henv hn hv
  cases es with
  | nil =>
    cases h
    exact .nil
  | cons e es =>
    rw [Expr.codeOfAll] at h
    obtain ⟨a, g₁, ha, h⟩ := bind_some h
    obtain ⟨b, g₂, hb, h⟩ := bind_some h
    cases h
    obtain ⟨henv₁, -⟩ := henv.expr (χ := χ) (κ := κ) ha hn.1
    exact .cons (e.codesAs ha henv hn.1 ((henv₁.exprs hb hn.2).2 hv)) (Expr.codesAsAll es hb henv₁ hn.2 hv)

end

section

variable {env env' : Env} {g g' g₁ g₂ g₃ : Plan} {l : Level} {ls : List Level} {χ : List (List Origin)} {κ : List Item}
  {a b drop lines : List Line} {us : List Use} {name : Bytes} {k n : Nat}

/-- A place of the program for statements without classes. -/
structure Env.Hosts (env : Env) (g : Plan) : Prop where
  houses : env.Houses g
  classless : g.classes = []
  plain : env.kind.isMethod = false

theorem Env.Hosts.speaks (h : env.Hosts g) : env.Speaks g :=
  h.houses.speaks h.classless

@[simp] theorem Env.kind_declare (env : Env) (v : VarName) : (env.declare v).kind = env.kind := by
  cases env with
  | nil => rfl
  | cons n outer =>
    rw [declare]
    split <;> rfl

@[simp] theorem Env.kind_enter (env : Env) : env.enter.kind = env.kind := by
  cases env <;> rfl

@[simp] theorem Env.kind_after (env : Env) (s : Stmt) : (env.after s).kind = env.kind := by
  unfold after
  split
  · exact kind_declare env _
  · rfl

theorem Stmt.Traced.back {s : Stmt} {ls' : List Level} (h : s.Traced env ls ls' a) (hv : Views ls' χ κ) :
    Views ls χ κ := by
  cases hs : s.declares with
  | some name => exact hv.before (h.of_some hs).traces.adds
  | none => exact hv.before (h.of_none hs).adds

theorem Env.Hosts.stmt {s : Stmt} (h : env.Hosts g) (ha : s.code g = some (a, g')) (hn : s.Named) :
    (env.after s).Hosts g' ∧ (Views g'.levels χ κ → Views g.levels χ κ) := by
  have hclasses : g'.classes = g.classes := s.steady_code.classes _ _ _ ha
  have htraced := s.traces_code ha h.houses hn
  exact ⟨⟨htraced.houses h.houses hclasses, hclasses.trans h.classless, (env.kind_after s).symm ▸ h.plain⟩,
    htraced.back⟩

theorem Env.Hosts.body {s : Stmt} (h : env.Hosts g) (hs : s.isDeclaration = false) (ha : s.code g = some (a, g'))
    (hn : s.Named) : s.declares = none ∧ env.Hosts g' := by
  have hnone := Stmt.declares_of_isDeclaration hs
  have hafter := (h.stmt (χ := []) (κ := []) ha hn).1
  rw [Env.after, hnone] at hafter
  exact ⟨hnone, hafter⟩

theorem Env.Hosts.expr {e : Expr} (h : env.Hosts g) (ha : e.code g = some (a, g')) (hn : e.Named) :
    env.Hosts g' := by
  have htraces := e.traces_code ha h.houses hn
  exact ⟨h.houses.later ha htraces, (e.steady_code.classes _ _ _ ha).trans h.classless, h.plain⟩

theorem Env.Hosts.enter (h : env.Hosts g) (hl : g.levels = l :: ls) :
    env.enter.Hosts { g with levels := { l with depth := l.depth + 1 } :: ls } :=
  ⟨h.houses.enter hl, h.classless, env.kind_enter.symm ▸ h.plain⟩

theorem Env.Fits.length (h : env.Fits (l :: ls)) : l.locals.length = env.newest + 1 := by
  cases h with
  | cons hn _ => exact hn.slots

theorem sheds_endScope (hl : g.levels = l :: ls) (hs : SoundLevels g.levels) (henv : env.Fits g.levels)
    (ha : Traces n ({ l with depth := l.depth + 1 } :: ls) g₂.levels a us) (hfits : env'.Fits g₂.levels)
    (hend : endScope g₂ = some (drop, g₃)) :
    Code.Sheds (env'.newest - env.newest) drop ∧ (Views g₃.levels χ κ → Views g₂.levels χ κ) := by
  obtain ⟨l₂, ls₂, hl₂, rfl, rfl⟩ := endScope_some hend
  rw [hl] at hs henv
  rw [hl₂] at ha hfits ⊢
  obtain ⟨hdropped, -, hgrown, -⟩ := dropped_scope hs ha.adds
  rw [hdropped]
  have hlength : l.locals.length = (l₂.locals.drop n).length := by
    cases hgrown with
    | cons hgrown _ => exact hgrown.locals.length_eq
  have hlocals := henv.length
  have hlocals₂ := hfits.length
  obtain ⟨q, qs, hq, hunder, -⟩ := ha.adds.levels rfl
  rw [List.length_drop] at hlength
  refine ⟨⟨?_, fun line hline => ?_⟩, fun hv => hv.congr rfl rfl⟩
  · rw [List.length_map, List.length_take]
    omega
  · obtain ⟨v, -, rfl⟩ := List.mem_map.mp hline
    cases v.captured
    · exact .inl rfl
    · exact .inr rfl

theorem Env.target_declare {x : Bytes} (hne : name ≠ x) (env : Env) :
    (env.declare (.named x)).target name = env.target name := by
  have hfind : (env.declare (.named x)).find (.named name) = env.find (.named name) := by
    cases env with
    | nil => rfl
    | cons n outer =>
      rw [declare]
      split
      · rw [find, find, VarName.slot?, if_neg (by simpa using hne.symm)]
      · rfl
  rw [target, target, hfind]

/-- The initializer of a variable is read where the variable is not there yet. -/
theorem Env.Hosts.declaring (h : env.Hosts g) (hname : IsIdentifier name)
    (hdeclare : declareNamed name g = some (k, g₁)) : env.Speaks g₁ := by
  have hclasses : g₁.classes = g.classes := (Steady.declareNamed name).classes _ _ _ hdeclare
  have hinner := h.houses.declaring hname hdeclare
  refine ⟨⟨_, hinner⟩, fun x p q q' hx hgrown hr => ?_, hclasses.trans h.classless⟩
  have htarget := (hinner.fits.grown hgrown).target hx
  obtain ⟨-, l, ls, hl, ⟨hzero, hk⟩ | ⟨hdeep, rfl, -, rfl⟩⟩ := declareNamed_some hdeclare
  · have hfits := h.houses.fits
    rw [hl] at hfits
    rwa [Env.declare_outside (hfits.outside hzero)] at htarget
  · -- the name of the variable itself is refused
    refine htarget.trans (Env.target_declare ?_ env)
    rintro rfl
    obtain ⟨l', ls', hl', hcases⟩ := resolve_some hr
    rw [hl'] at hgrown
    cases hgrown with
    | cons hgrown _ =>
      have hlocals := hgrown.locals
      cases hall : l'.locals with
      | nil =>
        rw [hall] at hlocals
        cases hlocals
      | cons u rest =>
        rw [hall] at hlocals
        cases hlocals with
        | cons hu _ =>
          have hfind : findLocal x l'.locals = some (rest.length, u) := by
            rw [hall, findLocal, if_pos hu.name]
          rcases hcases with ⟨slot, v, hv, hdepth, -⟩ | ⟨hnone, -⟩ | ⟨hnone, -⟩
          · rw [hfind] at hv
            cases hv
            rw [hu.depth] at hdepth
            cases hdepth
          · rw [hfind] at hnone
            cases hnone
          · rw [hfind] at hnone
            cases hnone

@[simp] theorem Env.inside_declare (env : Env) (v : VarName) : (env.declare v).inside = env.inside := by
  cases env with
  | nil => rfl
  | cons n outer =>
    rw [declare]
    split <;> rfl

theorem defines_name (henv : env.Fits g.levels) (hdeclare : declareNamed name g = some (k, g₁))
    (hfits : (env.declare (.named name)).Fits g₂.levels)
    (hback : env.inside = false → Views g₂.levels χ κ → Views g₁.levels χ κ)
    (hdefine : define k g₂ = some (b, g₃)) (hv : Views g₃.levels χ κ) :
    env.Defines κ name b ∧ Views g₂.levels χ κ := by
  obtain ⟨-, l, ls, hl, hcases⟩ := declareNamed_some hdeclare
  obtain ⟨q, qs, hq, ⟨hzero, rfl, rfl⟩ | ⟨hdeep, rfl, rfl⟩⟩ := define_some hdefine
  · rw [hq] at hfits
    have houtside : env.inside = false := (env.inside_declare _).symm.trans (hfits.outside hzero)
    rw [hl] at henv
    rcases hcases with ⟨-, hk⟩ | ⟨hdeep, -⟩
    · exact ⟨.outside houtside (constant_at hk (hback houtside hv)), hv⟩
    · rw [henv.deep hdeep] at houtside
      cases houtside
  · rw [hq] at hfits ⊢
    exact ⟨.inside ((env.inside_declare _).symm.trans (hfits.deep hdeep)), hv.congr rfl rfl⟩

end

def Stmt.CodesAs (s : Stmt) : Prop :=
  ∀ ⦃env : Env⦄ ⦃g g' : Plan⦄ ⦃lines : List Line⦄ ⦃χ : List (List Origin)⦄ ⦃κ : List Item⦄,
    s.code g = some (lines, g') → env.Hosts g → s.Named → s.classes = [] → Views g'.levels χ κ →
      s.Codes χ κ env lines

def Stmt.CodesAsAll (ss : List Stmt) : Prop :=
  ∀ ⦃env : Env⦄ ⦃g g' : Plan⦄ ⦃lines : List Line⦄ ⦃χ : List (List Origin)⦄ ⦃κ : List Item⦄,
    Stmt.codeOfAll ss g = some (lines, g') → env.Hosts g → Stmt.NamedAll ss → Stmt.classesOfAll ss = [] →
      Views g'.levels χ κ → ∃ env', Stmt.CodesAll χ κ env ss lines env' ∧ env'.Fits g'.levels

/-- The function that a declaration makes is among the constants. -/
def Lambda.CodesAs (f : Lambda Stmt) : Prop :=
  ∀ ⦃env : Env⦄ ⦃g g' : Plan⦄ ⦃lines : List Line⦄ ⦃χ : List (List Origin)⦄ ⦃κ : List Item⦄,
    Stmt.codeOfFunction .function f g = some (lines, g') → env.Hosts g → Stmt.NamedFunction f →
      Stmt.classesOfLambda f = [] → Views g'.levels χ κ → ∃ k h, κ[k]? = some (.function h) ∧
        lines = [.instr .closure (.closure k h.origins)] ∧ h.arity = f.parameters.length ∧ h.name = some f.name ∧
        h.CodesBody χ (env.function .function f.parameters) f.body

section

variable {then_ else_ initializer body : Stmt} {f : Lambda Stmt}

theorem Stmt.codesAs_expression (e : Expr) : Stmt.CodesAs (.expression e) := by
  intro env g g' lines χ κ h henv hn hc hv
  rw [Stmt.code] at h
  obtain ⟨l, ls, hls, h⟩ := level_bind h
  obtain ⟨a, g₁, ha, h⟩ := bind_some h
  cases h
  exact .expression (e.codesAs ha henv.speaks hn hv)

theorem Stmt.codesAs_print (e : Expr) : Stmt.CodesAs (.print e) := by
  intro env g g' lines χ κ h henv hn hc hv
  rw [Stmt.code] at h
  obtain ⟨l, ls, hls, h⟩ := level_bind h
  obtain ⟨a, g₁, ha, h⟩ := bind_some h
  cases h
  exact .print (e.codesAs ha henv.speaks hn hv)

theorem Stmt.codesAs_return (value : Option Expr) : Stmt.CodesAs (.return_ value) := by
  intro env g g' lines χ κ h henv hn hc hv
  have hkind {l : Level} {ls : List Level} (hl : g.levels = l :: ls) : l.kind = env.kind := by
    have hfits := henv.houses.fits
    rw [hl] at hfits
    cases hfits with
    | cons hn _ => exact hn.kind
  cases value with
  | none =>
    rw [Stmt.code] at h
    obtain ⟨l, ls, hls, h⟩ := level_bind h
    split at h
    · cases h
    · rename_i hscript
      cases h
      have hplain := henv.plain
      rw [← hkind hls] at hplain
      have hreturn : returnCode l.kind = [.instr .nil .none] ++ [.instr .return_ .none] := by
        generalize l.kind = kind at hplain
        cases kind <;> first | rfl | cases hplain
      rw [hreturn]
      exact .return_ (fun hs => hscript (by rw [hkind hls, hs])) .nil
  | some e =>
    rw [Stmt.code] at h
    obtain ⟨l, ls, hls, h⟩ := level_bind h
    split at h
    · cases h
    · rename_i hscript
      obtain ⟨a, g₁, ha, h⟩ := bind_some h
      cases h
      refine .return_ (fun hs => hscript ?_) (e.codesAs ha henv.speaks (hn e rfl) hv)
      rw [hkind hls, hs]
      rfl

theorem Stmt.codesAs_if (condition : Expr) (ihthen : then_.CodesAs) (ihelse : else_.CodesAs) :
    Stmt.CodesAs (.if_ condition then_ else_) := by
  intro env g g' lines χ κ h henv hn hc hv
  rw [Stmt.code] at h
  obtain ⟨l, ls, hls, h⟩ := level_bind h
  obtain ⟨a, g₁, ha, h⟩ := bind_some h
  obtain ⟨b, g₂, hb, h⟩ := bind_some h
  obtain ⟨c, g₃, hc', h⟩ := bind_some h
  cases h
  obtain ⟨hthen, hb⟩ := bodyCode_some hb
  obtain ⟨helse, hc'⟩ := bodyCode_some hc'
  obtain ⟨hcthen, hcelse⟩ := List.append_eq_nil_iff.mp hc
  obtain ⟨hncond, hnthen, hnelse⟩ := hn
  have henv₁ := henv.expr ha hncond
  obtain ⟨hnone, henv₂⟩ := henv₁.body hthen hb hnthen
  have hv₂ := (henv₂.stmt hc' hnelse).2 hv
  have hv₁ := (henv₁.stmt hb hnthen).2 hv₂
  exact .if_ (condition.codesAs ha henv.speaks hncond hv₁) (ihthen hb henv₁ hnthen hcthen hv₂) hnone
    (ihelse hc' henv₂ hnelse hcelse hv) (declares_of_isDeclaration helse)

theorem Stmt.codesAs_while (condition : Expr) (ih : body.CodesAs) : Stmt.CodesAs (.while_ condition body) := by
  intro env g g' lines χ κ h henv hn hc hv
  rw [Stmt.code] at h
  obtain ⟨l, ls, hls, h⟩ := level_bind h
  obtain ⟨a, g₁, ha, h⟩ := bind_some h
  obtain ⟨b, g₂, hb, h⟩ := bind_some h
  cases h
  obtain ⟨hbody, hb⟩ := bodyCode_some hb
  have henv₁ := henv.expr ha hn.1
  have hv₁ := (henv₁.stmt hb hn.2).2 hv
  exact .while_ (condition.codesAs ha henv.speaks hn.1 hv₁) (ih hb henv₁ hn.2 hc hv)
    (declares_of_isDeclaration hbody)

theorem Expr.codesAs_code? {env : Env} {g g' : Plan} {χ : List (List Origin)} {κ : List Item} (e : Option Expr)
    {a : Option (List Line)} (h : Expr.code? e g = some (a, g')) (henv : env.Hosts g) (hn : ∀ x ∈ e, x.Named) :
    env.Hosts g' ∧ (Views g'.levels χ κ → Views g.levels χ κ ∧ Expr.CodesIf χ κ env e a) := by
  cases e with
  | none =>
    cases h
    exact ⟨henv, fun hv => ⟨hv, .none⟩⟩
  | some e =>
    obtain ⟨a, g₁, ha, h⟩ := bind_some h
    cases h
    exact ⟨henv.expr ha (hn e rfl), fun hv =>
      ⟨(henv.speaks.expr ha (hn e rfl)).2 hv, .some (e.codesAs ha henv.speaks (hn e rfl) hv)⟩⟩

theorem Stmt.codesAs_for (condition increment : Option Expr) (ihinit : initializer.CodesAs) (ihbody : body.CodesAs) :
    Stmt.CodesAs (.for_ initializer condition increment body) := by
  intro env g g' lines χ κ h henv hn hc hv
  rw [Stmt.code] at h
  obtain ⟨l, ls, hls, h⟩ := level_bind h
  have h := scope_bind hls h
  obtain ⟨a, g₃, ha, h⟩ := bind_some h
  obtain ⟨b, g₄, hb, h⟩ := bind_some h
  obtain ⟨c, g₅, hc', h⟩ := bind_some h
  obtain ⟨d, g₆, hd, h⟩ := bind_some h
  obtain ⟨drop, g₇, hend, h⟩ := bind_some h
  cases h
  obtain ⟨hbody, hd⟩ := bodyCode_some hd
  obtain ⟨hninit, hncond, hninc, hnbody⟩ := hn
  obtain ⟨hcinit, hcbody⟩ := List.append_eq_nil_iff.mp hc
  have henv₂ := henv.enter hls
  obtain ⟨henv₃, hback₃⟩ := henv₂.stmt (χ := χ) (κ := κ) ha hninit
  obtain ⟨henv₄, hback₄⟩ := Expr.codesAs_code? (χ := χ) (κ := κ) condition hb henv₃ hncond
  obtain ⟨henv₅, hback₅⟩ := Expr.codesAs_code? (χ := χ) (κ := κ) increment hc' henv₄ hninc
  obtain ⟨hnone, henv₆⟩ := henv₅.body hbody hd hnbody
  -- what the loop adds to the functions, for the number of variables at its end
  obtain ⟨hcondition, -⟩ := Expr.traces_code? condition hb henv₃.houses hncond
  obtain ⟨hincrement, -⟩ := Expr.traces_code? increment hc' henv₄.houses hninc
  have hinner := (body.traces_code hd henv₅.houses hnbody).of_none hnone
  obtain ⟨n, hall, -⟩ := (initializer.traces_code ha henv₂.houses hninit).append
    (traces_loop hcondition hincrement hinner) (drops_none _)
  obtain ⟨hsheds, hback⟩ := sheds_endScope (χ := χ) (κ := κ) hls henv.houses.sound henv.houses.fits hall
    henv₆.houses.fits hend
  have hv₆ := hback hv
  obtain ⟨hv₄, hstep⟩ := hback₅ ((henv₅.stmt hd hnbody).2 hv₆)
  obtain ⟨hv₃, hcond⟩ := hback₄ hv₄
  exact .for_ (ihinit ha henv₂ hninit hcinit hv₃) hcond hstep (ihbody hd henv₅ hnbody hcbody hv₆) hnone hsheds

theorem Stmt.codesAs_block {body : List Stmt} (ih : Stmt.CodesAsAll body) : Stmt.CodesAs (.block body) := by
  intro env g g' lines χ κ h henv hn hc hv
  rw [Stmt.code] at h
  obtain ⟨l, ls, hls, h⟩ := level_bind h
  have h := scope_bind hls h
  obtain ⟨a, g₃, ha, h⟩ := bind_some h
  obtain ⟨drop, g₄, hend, h⟩ := bind_some h
  cases h
  obtain ⟨n, hall, -⟩ := Stmt.traces_codeOfAll body ha (henv.enter hls).houses hn
  obtain ⟨l₂, ls₂, hl₂, -, rfl⟩ := endScope_some hend
  have hv₃ : Views g₃.levels χ κ := by
    rw [hl₂]
    exact hv.congr rfl rfl
  obtain ⟨env', hbody, hfits⟩ := ih ha (henv.enter hls) hn hc hv₃
  exact .block hbody (sheds_endScope (χ := χ) (κ := κ) hls henv.houses.sound henv.houses.fits hall hfits hend).1

theorem Stmt.codesAs_var (name : Bytes) (value : Option Expr) : Stmt.CodesAs (.var_ name value) := by
  intro env g g' lines χ κ h henv hn hc hv
  obtain ⟨hname, hnvalue⟩ := hn
  rw [Stmt.code] at h
  obtain ⟨l, ls, hls, h⟩ := level_bind h
  obtain ⟨k, g₁, hk, h⟩ := bind_some h
  have hspeaks := henv.declaring hname hk
  have hinner := henv.houses.declaring hname hk
  cases value with
  | none =>
    obtain ⟨a, g₂, ha, hrest⟩ := bind_some h
    obtain ⟨b, g₃, hb, hlines⟩ := bind_some hrest
    cases ha
    cases hlines
    obtain ⟨hdefines, -⟩ := defines_name henv.houses.fits hk hinner.fits (fun _ => id) hb hv
    exact .var_ .nil hdefines
  | some e =>
    obtain ⟨a, g₂, ha, h⟩ := bind_some h
    obtain ⟨b, g₃, hb, h⟩ := bind_some h
    cases h
    have hvalue := e.traces_code ha hinner (hnvalue e rfl)
    obtain ⟨hdefines, hv₂⟩ := defines_name henv.houses.fits hk (hvalue.fits hinner.fits)
      (fun _ hv => hv.before hvalue.adds) hb hv
    exact .var_ (e.codesAs ha hspeaks (hnvalue e rfl) hv₂) hdefines

theorem Stmt.codesAs_fun (ih : f.CodesAs) : Stmt.CodesAs (.fun_ f) := by
  intro env g g' lines χ κ h henv hn hc hv
  obtain ⟨hname, hnf⟩ := hn
  rw [Stmt.code] at h
  obtain ⟨l, ls, hls, h⟩ := level_bind h
  obtain ⟨k, g₁, hk, h⟩ := bind_some h
  obtain ⟨u, g₂, hinit, h⟩ := bind_some h
  obtain ⟨a, g₃, ha, h⟩ := bind_some h
  obtain ⟨b, g₄, hb, h⟩ := bind_some h
  cases h
  have hclasses : g₂.classes = g.classes := (Steady.initialize_.classes _ _ _ hinit).trans
    ((Steady.declareNamed f.name).classes _ _ _ hk)
  have hdeclares := declares_named henv.houses hname hk hinit
  have henv₂ : (env.declare (.named f.name)).Hosts g₂ :=
    ⟨hdeclares.houses henv.houses hclasses, hclasses.trans henv.classless, (env.kind_declare _).symm ▸ henv.plain⟩
  have hmade := Stmt.traces_codeOfFunction .function f (fun hscript => by cases hscript) ha
    henv₂.houses.ready henv₂.houses.fits (fun hc => absurd henv₂.classless hc) hnf
  have hback : env.inside = false → Views g₃.levels χ κ → Views g₁.levels χ κ := by
    intro houtside hv₃
    have hfits := henv.houses.fits
    obtain ⟨l', ls', hl', ⟨-, rfl⟩ | ⟨hdeep, rfl⟩⟩ := initialize_some hinit
    · exact hv₃.before hmade.adds
    · have hfits₂ := henv₂.houses.fits
      have hinside : (env.declare (.named f.name)).inside = true :=
        Env.Fits.deep (show (env.declare (.named f.name)).Fits (initialized l' :: ls') from hfits₂) hdeep
      rw [env.inside_declare, houtside] at hinside
      cases hinside
  obtain ⟨hdefines, hv₃⟩ := defines_name henv.houses.fits hk (hmade.fits henv₂.houses.fits) hback hb hv
  obtain ⟨j, g, hj, rfl, harity, hname', a, env', hbody, hcode⟩ := ih ha henv₂ hnf hc hv₃
  exact .fun_ hj harity hname' hbody hcode hdefines

end

mutual

theorem Stmt.codesAs (s : Stmt) : s.CodesAs := by
  cases s with
  | skip =>
    intro env g g' lines χ κ h henv hn hc hv
    rw [Stmt.code] at h
    cases h
    exact .skip
  | expression e => exact Stmt.codesAs_expression e
  | print e => exact Stmt.codesAs_print e
  | return_ value => exact Stmt.codesAs_return value
  | if_ condition then_ else_ => exact Stmt.codesAs_if condition then_.codesAs else_.codesAs
  | while_ condition body => exact Stmt.codesAs_while condition body.codesAs
  | for_ initializer condition increment body =>
    exact Stmt.codesAs_for condition increment initializer.codesAs body.codesAs
  | block body => exact Stmt.codesAs_block (Stmt.codesAsAll body)
  | var_ name value => exact Stmt.codesAs_var name value
  | fun_ f => exact Stmt.codesAs_fun (Stmt.codesAsLambda f)
  | class_ name superclass methods =>
    intro env g g' lines χ κ h henv hn hc
    simp [Stmt.classes] at hc

theorem Stmt.codesAsAll (ss : List Stmt) : Stmt.CodesAsAll ss := by
  intro env g g' lines χ κ h henv hn hc hv
  cases ss with
  | nil =>
    rw [Stmt.codeOfAll] at h
    cases h
    exact ⟨env, .nil, henv.houses.fits⟩
  | cons s ss =>
    rw [Stmt.codeOfAll] at h
    obtain ⟨a, g₁, ha, h⟩ := bind_some h
    obtain ⟨b, g₂, hb, h⟩ := bind_some h
    cases h
    obtain ⟨hcs, hcss⟩ := List.append_eq_nil_iff.mp hc
    obtain ⟨henv₁, -⟩ := henv.stmt (χ := χ) (κ := κ) ha hn.1
    obtain ⟨n, hrest, -⟩ := Stmt.traces_codeOfAll ss hb henv₁.houses hn.2
    obtain ⟨env', hcodes, hfits⟩ := Stmt.codesAsAll ss hb henv₁ hn.2 hcss hv
    exact ⟨env', .cons (s.codesAs ha henv hn.1 hcs (hv.before hrest.adds)) hcodes, hfits⟩

theorem Stmt.codesAsLambda (f : Lambda Stmt) : f.CodesAs := by
  intro env g g' lines χ κ h henv hn hc hv
  obtain ⟨name, parameters, body⟩ := f
  rw [Stmt.codeOfFunction] at h
  obtain ⟨u, g₁, hbegin, h⟩ := bind_some h
  obtain ⟨u, g₂, hscope, h⟩ := bind_some h
  obtain ⟨u, g₃, hparameters, h⟩ := bind_some h
  obtain ⟨a, g₄, ha, h⟩ := bind_some h
  obtain ⟨q, g₅, hend, h⟩ := bind_some h
  obtain ⟨u, g₆, henlist, h⟩ := bind_some h
  obtain ⟨k, g₇, hk, h⟩ := bind_some h
  cases h
  have hheader : (do beginFunction .function (some name); beginScope; parameters.forM parameter) g =
      some (u, g₃) := by
    rw [bind_of hbegin, bind_of hscope]
    exact hparameters
  obtain ⟨hhouses, l, hl, hkind, hname, harity, -, -⟩ := henv.houses.fits.function henv.houses.ready
    (fun hc => absurd henv.classless hc) hn.1 hheader
  have hinner : (env.function .function parameters).Hosts g₃ :=
    ⟨hhouses, (opened_function henv.houses.sound hheader).classes.trans henv.classless, rfl⟩
  obtain ⟨n, hall, -⟩ := Stmt.traces_codeOfAll body ha hhouses hn.2
  obtain ⟨l₂, ls₂, hl₂, rfl, rfl⟩ := endFunction_some hend
  obtain ⟨r, rs, hr, rfl⟩ := enlist_some henlist
  have hlevels : ls₂ = r :: rs := hr
  subst hlevels
  rw [hl, hl₂] at hall
  obtain ⟨l', ls', hl', hgrown, -⟩ := hall.adds.levels rfl
  cases hl'
  have hkind' : l₂.kind = .function := hgrown.kind.trans hkind
  have hbody : Views g₄.levels (l₂.origins :: χ) l₂.constants := by
    rw [hl₂]
    obtain ⟨_, _, ⟨⟩, rfl, rfl⟩ := constant_some hk
    cases hv.origins with
    | cons ho horigins =>
      refine ⟨.cons (List.prefix_refl _) (.cons ho horigins), fun q hq => ?_⟩
      cases hq
      exact List.prefix_refl _
  obtain ⟨env', hcodes, -⟩ := Stmt.codesAsAll body ha hinner hn.2 hc hbody
  refine ⟨k, _, constant_at hk hv, rfl, hgrown.arity.trans harity, hgrown.name.trans hname, a, env', hcodes, ?_⟩
  rw [hkind']

end

/-- The code of a script without classes. -/
theorem scriptListing_codes {body : List Stmt} {f : Listing Item} (h : scriptListing body = some f)
    (hn : Stmt.NamedAll body) (hc : Stmt.classesOfAll body = []) :
    f.name = none ∧ f.CodesBody [] [⟨.script, false, []⟩] body := by
  obtain ⟨⟨q, g⟩, hmake, hq⟩ := Option.bind_eq_some_iff.mp h
  cases hq
  obtain ⟨u, g₁, hbegin, h₁⟩ := bind_some hmake
  obtain ⟨a, g₂, ha, hend⟩ := bind_some h₁
  cases hbegin
  let first : Level := { kind := .script, locals := [⟨"", some 0, false⟩] }
  have hhosts : Env.Hosts [⟨.script, false, []⟩] ⟨[first], []⟩ :=
    ⟨⟨(opened_script.ready ⟨trivial, nofun⟩).toOpen, .cons ⟨rfl, rfl, rfl, nofun⟩ .nil, fun hc => absurd rfl hc⟩,
      rfl, rfl⟩
  obtain ⟨n, hall, -⟩ := Stmt.traces_codeOfAll body ha hhosts.houses hn
  obtain ⟨l, ls, hl, hgrown, hls⟩ := hall.adds.levels rfl
  cases hls
  obtain ⟨l', ls', hl', rfl, rfl⟩ := endFunction_some hend
  rw [hl] at hl'
  cases hl'
  have hviews : Views g₂.levels [l.origins] l.constants := by
    rw [hl]
    refine ⟨.cons (List.prefix_refl _) .nil, fun q hq => ?_⟩
    cases hq
    exact List.prefix_refl _
  have hkind : l.kind = .script := hgrown.kind
  obtain ⟨env', hcodes, -⟩ := Stmt.codesAsAll body ha hhosts hn hc hviews
  refine ⟨hgrown.name, a, env', hcodes, ?_⟩
  show a ++ returnCode l.kind = _
  rw [hkind]
  rfl

end Lox

import Lox.Proofs.Lexical.Declarations
import Lox.Proofs.Verify.WellFormed

namespace Lox

open PlanM

section

variable {env own : Env} {g g' g₁ g₂ g₃ g₄ : Plan} {l : Level} {ls ls₁ ls₂ ls₃ : List Level}
  {a b c drop : List Line} {us vs : List Use} {name : Bytes} {place : Place} {m : Nat}

theorem Env.Fits.enter (h : env.Fits (l :: ls)) : env.enter.Fits ({ l with depth := l.depth + 1 } :: ls) := by
  cases h with
  | cons hn houter => exact .cons ⟨hn.kind, (decide_eq_true (Nat.succ_pos _)).symm, hn.names, hn.valid⟩ houter

theorem traces_plain (hfits : own.Fits g.levels) (hs : SoundLevels g.levels) (hname : IsIdentifier name)
    (hopen : openClass name none g = some (b, g₁)) (hown : resolve name g₁ = some (place, g₂))
    (hmethods : g₂.Open → own.Fits g₂.levels → Traces 0 g₂.levels g₃.levels c us)
    (hclose : closeClass false g₃ = some (drop, g₄)) :
    Traces 0 g.levels g₄.levels (b ++ place.read :: c ++ [.instr .pop .none] ++ drop)
      (.read (own.target name) :: us ++ [.other .pop]) := by
  cases hopen
  cases hclose
  have hread : Traces 0 g.levels g₂.levels [place.read] [.read (own.target name)] :=
    hfits.target hname ▸ (resolves hown hs).read
  have hclasses : g₂.classes = false :: g.classes := (Steady.resolve name).classes _ _ _ hown
  have hready : g₂.Open := ⟨hread.sound, fun hc => by rw [hclasses] at hc; cases hc⟩
  have hmade := hmethods hready (hread.fits hfits)
  rw [List.append_nil]
  exact (hread.append hmade).append (.other hmade.sound (by decide) _)

theorem traces_inheriting {s : Bytes} (hfits : own.Fits g.levels) (hs : SoundLevels g.levels)
    (hname : IsIdentifier name) (hsuper : IsIdentifier s) (hopen : openClass name (some s) g = some (b, g₁))
    (hown : resolve name g₁ = some (place, g₂))
    (hmethods : g₂.Open → (own.enter.declare .superclass).Fits g₂.levels → Traces 0 g₂.levels g₃.levels c us)
    (hclose : closeClass true g₃ = some (drop, g₄)) :
    Traces 0 g.levels g₄.levels (b ++ place.read :: c ++ [.instr .pop .none] ++ drop)
      (.read (own.target s) :: (.read ((own.enter.declare .superclass).target name) :: .other .inherit ::
        .read ((own.enter.declare .superclass).target name) :: us ++ [.other .pop]) ++
        [.drop (own.enter.declare .superclass).newest
          (.read ((own.enter.declare .superclass).target name) :: .other .inherit ::
            .read ((own.enter.declare .superclass).target name) :: us ++ [.other .pop])]) := by
  obtain ⟨other, own', p₂, p₆, l, ls, hplace, hl, hown', rfl, rfl⟩ := openClass_inherits hopen
  obtain ⟨drop', p₈, hend, h⟩ := bind_some hclose
  cases h
  have hread : Traces 0 g.levels p₂.levels [other.read] [.read (own.target s)] :=
    hfits.target hsuper ▸ (resolves hplace hs).read
  -- the scope with the variable of the superclass
  let inside : Level :=
    { l with depth := l.depth + 1, locals := ⟨"super", some (l.depth + 1), false⟩ :: l.locals }
  have hsound := hread.sound
  have hfits₂ := hread.fits hfits
  rw [hl] at hsound hfits₂
  have hdeclared : Traces 1 ({ l with depth := l.depth + 1 } :: ls) (inside :: ls) [] [] :=
    traces_declared (sound_deeper hsound) (Nat.succ_pos l.depth) "super"
  obtain ⟨hinner, hnewest⟩ := hfits₂.enter.declare (v := .superclass) (u := ⟨"super", some (l.depth + 1), false⟩)
    (Nat.succ_pos l.depth) trivial rfl (rfl : inside.locals = _) rfl rfl
  generalize own.enter.declare .superclass = inner at hmethods hinner hnewest ⊢
  have hclass : Traces 0 (inside :: ls) p₆.levels [own'.read] [.read (inner.target name)] :=
    hinner.target hname ▸ (resolves hown' hdeclared.sound).read
  have hclass' : Traces 0 p₆.levels g₂.levels [place.read] [.read (inner.target name)] :=
    (hclass.fits hinner).target hname ▸ (resolves hown hclass.sound).read
  have hready : g₂.Open := ⟨hclass'.sound, fun _ =>
    (HasSuper.grown ⟨_, .head _, _, .head _, rfl⟩ hclass.adds.grown_of_zero.levels).grown
      hclass'.adds.grown_of_zero.levels⟩
  have hmade := hmethods hready (hclass'.fits (hclass.fits hinner))
  have hbody := hclass.append ((Traces.other hclass.sound (o := .inherit) (by decide) .none).append
    ((hclass'.append hmade).append (.other hmade.sound (o := .pop) (by decide) .none)))
  -- its end
  have hfresh : heldAt (inside :: ls) 0 inner.newest = Use.capturesAny 0 inner.newest [] := by
    rw [hnewest]
    exact heldAt_newest (u := ⟨"super", some (l.depth + 1), false⟩) rfl
  have hdrops := drops_newest hinner hfresh hbody (drops_none _)
  have hall := hread.append (traces_scope (g := p₂) hl hread.sound (hdeclared.append hbody) hdrops hend)
  simpa using hall

inductive TracesIf : List Level → List Level → Option (List Line) → Option (List Use) → Prop
  | none {ls : List Level} : SoundLevels ls → TracesIf ls ls none none
  | some {ls ls' : List Level} {a : List Line} {us : List Use} : Traces 0 ls ls' a us →
      TracesIf ls ls' (some a) (some us)

theorem TracesIf.condition {a : Option (List Line)} {us : Option (List Use)} (h : TracesIf ls ls₁ a us)
    (past : Nat) : Traces 0 ls ls₁ (conditionCode a past) (Use.condition us) := by
  cases h with
  | none hs => exact .nil hs
  | some h =>
    have hjump := (Traces.other h.sound (o := .jumpIfFalse) (by decide) (.short (1 + past))).append
      (.other h.sound (o := .pop) (by decide) .none)
    exact h.append hjump

theorem TracesIf.increment {a : Option (List Line)} {us : Option (List Use)} (h : TracesIf ls ls₁ a us)
    (hs : SoundLevels ls) (before : Nat) : Traces 0 ls ls₁ (incrementCode a before) (Use.increment us) := by
  cases h with
  | none hs => exact .nil hs
  | @some _ a _ h =>
    have hback := (Traces.other h.sound (o := .pop) (by decide) .none).append
      (.other h.sound (o := .loop) (by decide) (.short (before + Code.size a + 7)))
    exact ((Traces.other hs (o := .jump) (by decide) (.short (Code.size a + 4))).append h).append hback

theorem traces_loop {before step : Option (List Line)} {us vs : Option (List Use)} {ws : List Use}
    (hbefore : TracesIf ls ls₁ before us) (hstep : TracesIf ls₁ ls₂ step vs) (hbody : Traces 0 ls₂ ls₃ c ws) :
    Traces 0 ls ls₃ (loopCode before step c) (Use.loop us vs ws) := by
  have hcondition := hbefore.condition
    (Code.size (incrementCode step (conditionSize before)) + Code.size c + 3)
  have hincrement := hstep.increment hcondition.sound (conditionSize before)
  have hback := Traces.other hbody.sound (o := .loop) (by decide)
    (.short (backSize (conditionSize before) step + Code.size c + 3))
  have hout : Traces 0 ls₃ ls₃ (if before.isSome then [.instr .pop .none] else [])
      (if us.isSome then [.other .pop] else []) := by
    cases hbefore with
    | none => exact .nil hbody.sound
    | some => exact .other hbody.sound (by decide) .none
  exact (((hcondition.append hincrement).append hbody).append hback).append hout

theorem Expr.traces_code? (e : Option Expr) {a : Option (List Line)} (h : Expr.code? e g = some (a, g'))
    (henv : env.Houses g) (hn : ∀ x ∈ e, x.Named) :
    TracesIf g.levels g'.levels a (e.map (·.uses env)) ∧ env.Houses g' := by
  cases e with
  | none =>
    cases h
    exact ⟨.none henv.sound, henv⟩
  | some e =>
    obtain ⟨a, g₁, ha, h⟩ := bind_some h
    cases h
    have hvalue := e.traces_code ha henv (hn e rfl)
    have := e.steady_code
    exact ⟨.some hvalue, henv.later ha hvalue⟩

def Stmt.Traced (env : Env) (s : Stmt) (ls ls' : List Level) (lines : List Line) : Prop :=
  match s.declares with
  | some name => Declares env name ls ls' lines (s.uses env)
  | none => Traces 0 ls ls' lines (s.uses env)

theorem Stmt.declares_of_isDeclaration {s : Stmt} (h : s.isDeclaration = false) : s.declares = none := by
  cases s <;> first | rfl | cases h

namespace Stmt.Traced

variable {s : Stmt}

theorem of_none (h : s.Traced env ls ls₁ a) (hs : s.declares = none) : Traces 0 ls ls₁ a (s.uses env) := by
  unfold Stmt.Traced at h
  rwa [hs] at h

theorem of_some (h : s.Traced env ls ls₁ a) (hs : s.declares = some name) :
    Declares env name ls ls₁ a (s.uses env) := by
  unfold Stmt.Traced at h
  rwa [hs] at h

theorem houses (h : s.Traced env g.levels g'.levels a) (henv : env.Houses g) (hclasses : g'.classes = g.classes) :
    (env.after s).Houses g' := by
  unfold Env.after
  cases hs : s.declares with
  | some name => exact (h.of_some hs).houses henv hclasses
  | none =>
    have hcode := h.of_none hs
    exact ⟨hcode.ready hclasses henv.ready, hcode.fits henv.fits, fun hc => henv.method (hclasses ▸ hc)⟩

theorem append {drops : List Use} (h : s.Traced env ls ls₁ a) (hb : Traces m ls₁ ls₂ b vs)
    (hdrops : Drops m ls₂ drops) : ∃ n, Traces n ls ls₂ (a ++ b) (s.uses env ++ vs) ∧
      Drops n ls₂ (drops ++ env.drops s (s.uses env ++ vs)) := by
  unfold Env.drops Env.after
  cases hs : s.declares with
  | some name =>
    have hcode := h.of_some hs
    rw [Option.isSome_some, Bool.and_true]
    exact ⟨_, hcode.traces.append hb, hcode.drops hb hdrops⟩
  | none =>
    rw [Option.isSome_none, Bool.and_false, if_neg Bool.false_ne_true, List.append_nil]
    exact ⟨m, (h.of_none hs).append hb, hdrops⟩

end Stmt.Traced

theorem Env.Houses.enter (h : env.Houses g) (hl : g.levels = l :: ls) :
    env.enter.Houses { g with levels := { l with depth := l.depth + 1 } :: ls } where
  ready := by
    refine ⟨sound_deeper (hl ▸ h.sound), fun hc => ?_⟩
    obtain ⟨q, hq, hsuper⟩ := h.ready.super hc
    rw [hl] at hq
    rcases List.mem_cons.mp hq with rfl | hq
    · exact ⟨_, .head _, hsuper⟩
    · exact ⟨q, .tail _ hq, hsuper⟩
  fits := (hl ▸ h.fits).enter
  method hc := by
    obtain ⟨n, hn, hk⟩ := h.method hc
    cases env with
    | nil => cases hn
    | cons q outer =>
      rcases List.mem_cons.mp hn with rfl | hn
      · exact ⟨_, .head _, hk⟩
      · exact ⟨n, .tail _ hn, hk⟩

theorem Env.Fits.function {kind : FunctionKind} {fname : Option Bytes} {parameters : List Bytes} {u : Unit}
    (henv : env.Fits g.levels) (hg : g.Open)
    (hmethod : g.classes ≠ [] → kind.isMethod = true ∨ ∃ n ∈ env, n.kind.isMethod = true)
    (hparameters : ∀ p ∈ parameters, IsIdentifier p)
    (h : (do beginFunction kind fname; beginScope; parameters.forM parameter) g = some (u, g₁)) :
    (env.function kind parameters).Houses g₁ ∧ ∃ l, g₁.levels = l :: g.levels ∧ l.kind = kind ∧ l.name = fname ∧
      l.arity = parameters.length ∧ l.origins = [] ∧ l.constants = [] := by
  have hopened : Opened kind fname parameters g g₁ := opened_function hg.sound h
  obtain ⟨l, hl, hfits, horigins, hconstants⟩ := fits_function henv hparameters h
  obtain ⟨q, hq, hkind, hname, harity, -⟩ := hopened.levels
  rw [hl] at hq
  cases hq
  refine ⟨⟨(hopened.ready hg).toOpen, hfits, fun hc => ?_⟩, l, hl, hkind, hname, harity, horigins, hconstants⟩
  rcases hmethod (hopened.classes ▸ hc) with hk | ⟨n, hn, hk⟩
  · exact ⟨_, .head _, hk⟩
  · exact ⟨n, .tail _ hn, hk⟩

theorem traces_returnCode {l : Level} (hl : g.levels = l :: ls) (henv : env.Fits g.levels)
    (hs : SoundLevels g.levels) : Traces 0 g.levels g.levels (returnCode l.kind) (Use.leave env.kind) where
  adds := (Traces.nil hs).adds
  tells χ κ _ := by
    rw [hl] at henv
    cases henv with
    | cons hn _ =>
      rw [hn.kind]
      exact tells_returnCode _
  held out k _ := by
    have hleave : Use.capturesAny out k (Use.leave env.kind) = false := by
      unfold Use.leave
      split <;> cases out <;> rfl
    rw [hleave, Bool.or_false]
  distinct := id

end

def Stmt.TracesCode (s : Stmt) : Prop :=
  ∀ ⦃env : Env⦄ ⦃g g' : Plan⦄ ⦃lines : List Line⦄, s.code g = some (lines, g') → env.Houses g → s.Named →
    s.Traced env g.levels g'.levels lines

def Stmt.TracesCodeOfAll (ss : List Stmt) : Prop :=
  ∀ ⦃env : Env⦄ ⦃g g' : Plan⦄ ⦃lines : List Line⦄, Stmt.codeOfAll ss g = some (lines, g') → env.Houses g →
    Stmt.NamedAll ss → ∃ n, Traces n g.levels g'.levels lines (Stmt.usesOfAll env ss).1 ∧
      Drops n g'.levels (Stmt.usesOfAll env ss).2

def Lambda.TracesCode (kind : FunctionKind) (f : Lambda Stmt) : Prop :=
  ∀ ⦃env : Env⦄ ⦃g g' : Plan⦄ ⦃lines : List Line⦄, Stmt.codeOfFunction kind f g = some (lines, g') → g.Open →
    env.Fits g.levels → (g.classes ≠ [] → kind.isMethod = true ∨ ∃ n ∈ env, n.kind.isMethod = true) →
    Stmt.NamedFunction f → Traces 0 g.levels g'.levels lines [Stmt.usesOfFunction env kind f]

def Stmt.TracesCodeOfMethods (fs : List (Lambda Stmt)) : Prop :=
  ∀ ⦃env : Env⦄ ⦃g g' : Plan⦄ ⦃lines : List Line⦄, Stmt.codeOfMethods fs g = some (lines, g') → g.Open →
    env.Fits g.levels → Stmt.NamedFunctions fs → Traces 0 g.levels g'.levels lines (Stmt.usesOfMethods env fs)

section

variable {then_ else_ initializer body : Stmt} {f : Lambda Stmt} {methods : List (Lambda Stmt)}

theorem Stmt.tracesCode_expression (e : Expr) : Stmt.TracesCode (.expression e) := by
  intro env g g' lines h henv hn
  rw [Stmt.code] at h
  obtain ⟨l, ls, hls, h⟩ := level_bind h
  obtain ⟨a, g₂, ha, h⟩ := bind_some h
  cases h
  have hvalue := e.traces_code ha henv hn
  exact (hvalue.append (.other hvalue.sound (by decide) .none)).marked _

theorem Stmt.tracesCode_print (e : Expr) : Stmt.TracesCode (.print e) := by
  intro env g g' lines h henv hn
  rw [Stmt.code] at h
  obtain ⟨l, ls, hls, h⟩ := level_bind h
  obtain ⟨a, g₂, ha, h⟩ := bind_some h
  cases h
  have hvalue := e.traces_code ha henv hn
  exact (hvalue.append (.other hvalue.sound (by decide) .none)).marked _

theorem Stmt.tracesCode_return (value : Option Expr) : Stmt.TracesCode (.return_ value) := by
  intro env g g' lines h henv hn
  cases value with
  | none =>
    rw [Stmt.code] at h
    obtain ⟨l, ls, hls, h⟩ := level_bind h
    split at h
    · cases h
    · cases h
      exact (traces_returnCode hls henv.fits henv.sound).marked _
  | some e =>
    rw [Stmt.code] at h
    obtain ⟨l, ls, hls, h⟩ := level_bind h
    split at h
    · cases h
    · obtain ⟨a, g₂, ha, h⟩ := bind_some h
      cases h
      have hvalue := e.traces_code ha henv (hn e rfl)
      exact (hvalue.append (.other hvalue.sound (by decide) .none)).marked _

theorem Stmt.tracesCode_if (condition : Expr) (ihthen_ : then_.TracesCode) (ihelse_ : else_.TracesCode) :
    Stmt.TracesCode (.if_ condition then_ else_) := by
  intro env g g' lines h henv hn
  rw [Stmt.code] at h
  obtain ⟨l, ls, hls, h⟩ := level_bind h
  obtain ⟨a, g₂, ha, h⟩ := bind_some h
  obtain ⟨b, g₃, hb, h⟩ := bind_some h
  obtain ⟨c, g₄, hc, h⟩ := bind_some h
  cases h
  obtain ⟨hthen, hb⟩ := bodyCode_some hb
  obtain ⟨helse, hc⟩ := bodyCode_some hc
  have := condition.steady_code
  have := then_.steady_code
  have hcondition := condition.traces_code ha henv hn.1
  have henv₂ := henv.later ha hcondition
  have hfirst := (ihthen_ hb henv₂ hn.2.1).of_none (declares_of_isDeclaration hthen)
  have hsecond := (ihelse_ hc (henv₂.later hb hfirst) hn.2.2).of_none (declares_of_isDeclaration helse)
  have hover := (Traces.other hcondition.sound (o := .jumpIfFalse) (by decide) (.short (Code.size b + 4))).append
    (.other hcondition.sound (o := .pop) (by decide) .none)
  have hpast := (Traces.other hfirst.sound (o := .jump) (by decide) (.short (1 + Code.size c))).append
    (.other hfirst.sound (o := .pop) (by decide) .none)
  exact ((((hcondition.append hover).append hfirst).append hpast).append hsecond).marked _

theorem Stmt.tracesCode_while (condition : Expr) (ihbody : body.TracesCode) :
    Stmt.TracesCode (.while_ condition body) := by
  intro env g g' lines h henv hn
  rw [Stmt.code] at h
  obtain ⟨l, ls, hls, h⟩ := level_bind h
  obtain ⟨a, g₂, ha, h⟩ := bind_some h
  obtain ⟨b, g₃, hb, h⟩ := bind_some h
  cases h
  obtain ⟨hbody, hb⟩ := bodyCode_some hb
  have := condition.steady_code
  have hcondition := condition.traces_code ha henv hn.1
  have hinner := (ihbody hb (henv.later ha hcondition) hn.2).of_none (declares_of_isDeclaration hbody)
  exact (traces_loop (.some hcondition) (.none hcondition.sound) hinner).marked _

theorem Stmt.tracesCode_for (condition increment : Option Expr) (ihinitializer : initializer.TracesCode)
    (ihbody : body.TracesCode) : Stmt.TracesCode (.for_ initializer condition increment body) := by
  intro env g g' lines h henv hn
  rw [Stmt.code] at h
  obtain ⟨l, ls, hls, h⟩ := level_bind h
  have h := scope_bind hls h
  obtain ⟨a, g₃, ha, h⟩ := bind_some h
  obtain ⟨b, g₄, hb, h⟩ := bind_some h
  obtain ⟨c, g₅, hc, h⟩ := bind_some h
  obtain ⟨d, g₆, hd, h⟩ := bind_some h
  obtain ⟨drop, g₇, hend, h⟩ := bind_some h
  cases h
  obtain ⟨hbody, hd⟩ := bodyCode_some hd
  obtain ⟨hninit, hncondition, hnincrement, hnbody⟩ := hn
  have hinit := ihinitializer ha (henv.enter hls) hninit
  have henv₃ := hinit.houses (henv.enter hls) (initializer.steady_code.classes _ _ _ ha)
  obtain ⟨hcondition, henv₄⟩ := Expr.traces_code? condition hb henv₃ hncondition
  obtain ⟨hincrement, henv₅⟩ := Expr.traces_code? increment hc henv₄ hnincrement
  have hinner := (ihbody hd henv₅ hnbody).of_none (declares_of_isDeclaration hbody)
  have hloop := traces_loop hcondition hincrement hinner
  obtain ⟨n, hall, hdrops⟩ := hinit.append hloop (drops_none _)
  exact (traces_scope hls henv.sound hall hdrops hend).marked _

theorem Stmt.tracesCode_block {body : List Stmt} (ihbody : Stmt.TracesCodeOfAll body) :
    Stmt.TracesCode (.block body) := by
  intro env g g' lines h henv hn
  rw [Stmt.code] at h
  obtain ⟨l, ls, hls, h⟩ := level_bind h
  have h := scope_bind hls h
  obtain ⟨a, g₃, ha, h⟩ := bind_some h
  obtain ⟨drop, g₄, hend, h⟩ := bind_some h
  cases h
  obtain ⟨n, hall, hdrops⟩ := ihbody ha (henv.enter hls) hn
  exact (traces_scope hls henv.sound hall hdrops hend).marked _

theorem Stmt.tracesCode_var (name : Bytes) (value : Option Expr) : Stmt.TracesCode (.var_ name value) := by
  intro env g g' lines h henv hn
  rw [Stmt.code] at h
  obtain ⟨l, ls, hls, h⟩ := level_bind h
  obtain ⟨k, g₂, hk, h⟩ := bind_some h
  cases value with
  | none =>
    obtain ⟨a, g₃, ha, hrest⟩ := bind_some h
    obtain ⟨b, g₄, hb, hlines⟩ := bind_some hrest
    cases ha
    cases hlines
    have hvar := declares_var henv hn.1 hk (fun henv₂ => .other henv₂.sound (o := .nil) (by decide) .none) hb
    exact hvar.marked _
  | some e =>
    obtain ⟨a, g₃, ha, h⟩ := bind_some h
    obtain ⟨b, g₄, hb, h⟩ := bind_some h
    cases h
    have hvar := declares_var henv hn.1 hk (fun henv₂ => e.traces_code ha henv₂ (hn.2 e rfl)) hb
    exact hvar.marked _

theorem Stmt.tracesCode_fun (ihf : f.TracesCode .function) : Stmt.TracesCode (.fun_ f) := by
  intro env g g' lines h henv hn
  rw [Stmt.code] at h
  obtain ⟨l, ls, hls, h⟩ := level_bind h
  obtain ⟨k, g₂, hk, h⟩ := bind_some h
  obtain ⟨u, g₃, hinit, h⟩ := bind_some h
  obtain ⟨a, g₄, ha, h⟩ := bind_some h
  obtain ⟨b, g₅, hb, h⟩ := bind_some h
  cases h
  have hfun := declares_fun henv hn.1 hk hinit (fun henv₃ => ihf ha henv₃.ready
    henv₃.fits (fun hc => .inr (henv₃.method hc)) hn.2) hb
  exact hfun.marked _

theorem Stmt.tracesCode_class (name : Bytes) (superclass : Option Bytes)
    (ihmethods : Stmt.TracesCodeOfMethods methods) : Stmt.TracesCode (.class_ name superclass methods) := by
  intro env g g' lines h henv hn
  rw [Stmt.code] at h
  obtain ⟨l, ls, hls, h⟩ := level_bind h
  obtain ⟨k, g₂, hk, h⟩ := bind_some h
  obtain ⟨u, g₃, hdeclare, h⟩ := bind_some h
  obtain ⟨a, g₄, hdefine, h⟩ := bind_some h
  obtain ⟨b, g₅, hopen, h⟩ := bind_some h
  obtain ⟨own, g₆, hown, h⟩ := bind_some h
  obtain ⟨c, g₇, hmethods, h⟩ := bind_some h
  obtain ⟨drop, g₈, hclose, h⟩ := bind_some h
  obtain ⟨u, g₉, henlist, h⟩ := bind_some h
  cases h
  obtain ⟨hname, hsuper, hnmethods⟩ := hn
  have hclass := declares_class henv hname hk hdeclare hdefine
  cases superclass with
  | none =>
    have hbody := traces_plain hclass.fits hclass.traces.sound hname hopen hown
      (fun hg hfits => ihmethods hmethods hg hfits hnmethods) hclose
    show Declares env name _ _ _ (Stmt.uses env (.class_ name none methods))
    rw [Stmt.uses]
    simpa using (hclass.append (hbody.enlisted henlist)).marked l.locals.length
  | some s =>
    have hbody := traces_inheriting hclass.fits hclass.traces.sound hname (hsuper s rfl) hopen hown
      (fun hg hfits => ihmethods hmethods hg hfits hnmethods) hclose
    show Declares env name _ _ _ (Stmt.uses env (.class_ name (some s) methods))
    rw [Stmt.uses]
    simpa using (hclass.append (hbody.enlisted henlist)).marked l.locals.length

end

mutual

theorem Stmt.traces_code (s : Stmt) : s.TracesCode := by
  cases s with
  | skip =>
    intro env g g' lines h henv hn
    rw [Stmt.code] at h
    cases h
    exact Traces.nil henv.sound
  | expression e => exact Stmt.tracesCode_expression e
  | print e => exact Stmt.tracesCode_print e
  | return_ value => exact Stmt.tracesCode_return value
  | if_ condition then_ else_ => exact Stmt.tracesCode_if condition then_.traces_code else_.traces_code
  | while_ condition body => exact Stmt.tracesCode_while condition body.traces_code
  | for_ initializer condition increment body =>
    exact Stmt.tracesCode_for condition increment initializer.traces_code body.traces_code
  | block body => exact Stmt.tracesCode_block (Stmt.traces_codeOfAll body)
  | var_ name value => exact Stmt.tracesCode_var name value
  | fun_ f => exact Stmt.tracesCode_fun (Stmt.traces_codeOfFunction .function f nofun)
  | class_ name superclass methods => exact Stmt.tracesCode_class name superclass (Stmt.traces_codeOfMethods methods)

theorem Stmt.traces_codeOfAll (ss : List Stmt) : Stmt.TracesCodeOfAll ss := by
  intro env g g' lines h henv hn
  cases ss with
  | nil =>
    rw [Stmt.codeOfAll] at h
    cases h
    exact ⟨0, .nil henv.sound, drops_none _⟩
  | cons s ss =>
    rw [Stmt.codeOfAll] at h
    obtain ⟨a, g₁, ha, h⟩ := bind_some h
    obtain ⟨b, g₂, hb, h⟩ := bind_some h
    cases h
    have hfirst := s.traces_code ha henv hn.1
    have henv₁ := hfirst.houses henv (s.steady_code.classes _ _ _ ha)
    obtain ⟨m, hrest, hdrops⟩ := Stmt.traces_codeOfAll ss hb henv₁ hn.2
    exact hfirst.append hrest hdrops

theorem Stmt.traces_codeOfFunction (kind : FunctionKind) (f : Lambda Stmt) (hscript : kind ≠ .script) :
    f.TracesCode kind := by
  intro env g g' lines h hg henv hmethod hn
  have hgrown := (Stmt.makes_codeOfFunction kind f hscript h hg).grown
  obtain ⟨name, parameters, body⟩ := f
  rw [Stmt.codeOfFunction] at h
  obtain ⟨u, g₁, hbegin, h⟩ := bind_some h
  obtain ⟨u, g₂, hscope, h⟩ := bind_some h
  obtain ⟨u, g₃, hparameters, h⟩ := bind_some h
  obtain ⟨a, g₄, ha, h⟩ := bind_some h
  obtain ⟨q, g₅, hend, h⟩ := bind_some h
  obtain ⟨u, g₆, henlist, h⟩ := bind_some h
  obtain ⟨k, g₇, hk, h⟩ := bind_some h
  cases h
  have hheader : (do beginFunction kind (some name); beginScope; parameters.forM parameter) g = some (u, g₃) := by
    rw [bind_of hbegin, bind_of hscope]
    exact hparameters
  obtain ⟨hhouses, l, hl, hkind, -, -, horigins, hconstants⟩ := henv.function hg hmethod hn.1 hheader
  obtain ⟨n, hbody, -⟩ := Stmt.traces_codeOfAll body ha hhouses hn.2
  rw [Stmt.usesOfFunction, ← hkind]
  rw [← hkind] at hbody
  exact traces_closure hl horigins hconstants hbody hend henlist hk hgrown

theorem Stmt.traces_codeOfMethods (fs : List (Lambda Stmt)) : Stmt.TracesCodeOfMethods fs := by
  intro env g g' lines h hg henv hn
  cases fs with
  | nil =>
    rw [Stmt.codeOfMethods] at h
    cases h
    exact .nil hg.sound
  | cons f fs =>
    obtain ⟨name, parameters, body⟩ := f
    rw [Stmt.codeOfMethods] at h
    obtain ⟨k, g₁, hk, h⟩ := bind_some h
    obtain ⟨a, g₂, ha, h⟩ := bind_some h
    obtain ⟨b, g₃, hb, h⟩ := bind_some h
    cases h
    have hname := traces_constant hk hg.sound nofun
    have hg₁ := hname.ready ((Steady.constant (.string name)).classes _ _ _ hk) hg
    have hfits₁ := hname.fits henv
    have hkind : (if name = ("init" : Bytes) then FunctionKind.initializer else .method).isMethod = true := by
      split <;> rfl
    have hfunction := Stmt.traces_codeOfFunction _ ⟨name, parameters, body⟩ (by split <;> nofun) ha hg₁ hfits₁
      (fun _ => .inl hkind) hn.1
    have hg₂ := hfunction.ready ((Stmt.steady_codeOfFunction _ _).classes _ _ _ ha) hg₁
    have hrest := Stmt.traces_codeOfMethods fs hb hg₂ (hfunction.fits hfits₁) hn.2
    exact ((hname.append hfunction).append (.other hfunction.sound (by decide) _)).append hrest

end

end Lox

namespace Lox

open PlanM Heap HeapM

theorem scriptListing_tells {body : List Stmt} {f : Listing Item} (h : scriptListing body = some f)
    (hn : Stmt.NamedAll body) : f.Tells (Stmt.usesOfScript body) ∧ f.Distinct := by
  obtain ⟨⟨q, g⟩, hmake, hq⟩ := Option.bind_eq_some_iff.mp h
  cases hq
  obtain ⟨u, g₁, hbegin, h₁⟩ := bind_some hmake
  obtain ⟨lines, g₂, hbody, hend⟩ := bind_some h₁
  cases hbegin
  let first : Level := { kind := .script, locals := [⟨"", some 0, false⟩] }
  have hhouses : Env.Houses [⟨.script, false, []⟩] ⟨[first], []⟩ :=
    ⟨(opened_script.ready ⟨trivial, nofun⟩).toOpen, .cons ⟨rfl, rfl, rfl, nofun⟩ .nil, fun hc => absurd rfl hc⟩
  obtain ⟨n, htraces, -⟩ := Stmt.traces_codeOfAll body hbody hhouses hn
  obtain ⟨l, ls, hl, hgrown, hls⟩ := htraces.adds.levels rfl
  cases hls
  obtain ⟨l', ls', hl', rfl, rfl⟩ := endFunction_some hend
  rw [hl] at hl' htraces
  cases hl'
  have hkind : l.kind = .script := hgrown.kind
  have hdistinct := htraces.distinct (List.forall_mem_singleton.mpr ⟨List.nodup_nil, nofun⟩) l (.head _)
  refine ⟨?_, .intro hdistinct.1 hdistinct.2⟩
  have hviews : Views [l] [l.origins] l.constants := by
    refine ⟨.cons (List.prefix_refl _) .nil, fun q hq => ?_⟩
    cases hq
    exact List.prefix_refl _
  refine (htraces.tells _ _ hviews).append ?_
  rw [hkind]
  exact tells_returnCode .script

example : Stmt.usesOfScript [.block [.var_ "a" none, .fun_ ⟨"f", [], [.print (.variable_ "a")]⟩]] =
    [.other .nil, .closure [.read (.slot 1 1), .other .print, .other .nil, .other .return_],
      .other .pop, .other .closeUpvalue, .other .nil, .other .return_] := rfl

theorem Listing.Distinct.part {f g : Listing Item} {p q : Prototype} (h : f.Distinct)
    (hpart : Listing.Part f p g q) : g.Distinct := by
  induction hpart with
  | self => exact h
  | constant _ hg _ ih =>
    obtain ⟨-, hnested⟩ := ih
    exact hnested _ (List.mem_of_getElem? hg)

/-- In every source text that is accepted the names resolve lexically: the code of all functions reads and writes
the variables that the names stand for where they are used, and the variables of a block are closed at its end if a
function inside uses them and popped if not. No function captures a variable twice. -/
theorem compile_resolves_lexically {r : Roots} {h h' : Heap} {source : Bytes} {l : Loc} (hs : h.Sound)
    (hlinked : h.Linked) (hopen : h.closed = false) (hr : h.Rooted r)
    (hrun : compile source r h = .ok (.ok l) h') : h'.Exhausted ∨ ∃ body f p,
      parse? (Token.scan source) = some body ∧ scriptListing body = some f ∧
      Item.Made (.function f) (.function p) ∧ h'.Spells l p ∧ f.Tells (Stmt.usesOfScript body) ∧
      (∀ g q, Listing.Part f p g q → g.origins.Nodup) ∧
      ∀ k fn, h'.FunctionIn l k fn → ∃ g q, Listing.Part f p g q ∧ h'.Spells k q := by
  refine (compile_spelled hs hlinked hopen hr hrun).imp_right ?_
  rintro ⟨body, f, p, hparse, hlisting, hmade, hspells, hparts⟩
  obtain ⟨htells, hdistinct⟩ := scriptListing_tells hlisting (named_of_parse? hparse)
  refine ⟨body, f, p, hparse, hlisting, hmade, hspells, htells, fun g q hpart => ?_, hparts⟩
  obtain ⟨hnodup, -⟩ := hdistinct.part hpart
  exact hnodup

def capturingMethod : Bytes :=
  "class A { m() {} } class B < A { m() { { var a; fun f() { a = this; } var b; } return super.m; } }"

theorem compile_resolves_lexically_capturing : ∃ l h', compile capturingMethod (fun _ => []) (Heap.new {}) =
    .ok (.ok l) h' ∧ ∃ body f p, parse? (Token.scan capturingMethod) = some body ∧ scriptListing body = some f ∧
      Item.Made (.function f) (.function p) ∧ h'.Spells l p ∧ f.Tells (Stmt.usesOfScript body) ∧
      (∀ g q, Listing.Part f p g q → g.origins.Nodup) ∧
      ∀ k fn, h'.FunctionIn l k fn → ∃ g q, Listing.Part f p g q ∧ h'.Spells k q := by
  obtain ⟨l, h', hrun, hroom⟩ := accepts_new capturingMethod (by decide +kernel)
  have hp := pictures_new {}
  exact ⟨l, h', hrun, (compile_resolves_lexically hp.sound hp.linked hp.closed rooted_new hrun).resolve_left hroom⟩

end Lox

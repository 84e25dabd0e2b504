import Lox.Proofs.Lexical.Openings
import Lox.Proofs.Verify.Statements

namespace Lox

open PlanM

structure Env.Houses (env : Env) (g : Plan) : Prop where
  ready : g.Open
  fits : env.Fits g.levels
  method : g.classes ≠ [] → ∃ n ∈ env, n.kind.isMethod = true

section

variable {env : Env} {g g' : Plan} {lines a b c : List Line} {us vs : List Use} {name : Bytes}

theorem Env.Houses.sound (h : env.Houses g) : SoundLevels g.levels :=
  h.ready.sound

theorem Env.Houses.later {α : Type} {x : PlanM α} [hx : Steady x] {r : α} (h : env.Houses g)
    (hr : x g = some (r, g')) (ht : Traces 0 g.levels g'.levels a us) : env.Houses g' where
  ready := ht.ready (hx.classes _ _ _ hr) h.ready
  fits := ht.fits h.fits
  method hc := h.method (hx.classes _ _ _ hr ▸ hc)

theorem traces_name {place : Place} (henv : env.Houses g) (hname : IsIdentifier name)
    (h : resolve name g = some (place, g')) : Resolves g.levels g'.levels place (env.target name) :=
  henv.fits.target hname ▸ resolves h henv.sound

theorem traces_this {place : Place} (henv : env.Houses g) (hclasses : g.classes ≠ [])
    (h : resolve "this" g = some (place, g')) : Traces 0 g.levels g'.levels [place.read] [.read env.receiver] :=
  henv.fits.receiver (henv.method hclasses) ▸ (resolves h henv.sound).read

theorem traces_super {place : Place} (henv : env.Houses g) (hsuper : g.classes.head? = some true)
    (h : resolve "super" g = some (place, g')) :
    Traces 0 g.levels g'.levels [place.read] [.read env.superclass] :=
  henv.fits.superclass (henv.ready.super hsuper) ▸ (resolves h henv.sound).read

theorem traces_operator (hs : SoundLevels g.levels) (op : BinaryOp) :
    Traces 0 g.levels g.levels (op.code.map (.instr · .none)) (op.code.map .other) :=
  .others hs op.code (by cases op <;> decide)

end

def Expr.TracesCode (e : Expr) : Prop :=
  ∀ ⦃env : Env⦄ ⦃g g' : Plan⦄ ⦃lines : List Line⦄, e.code g = some (lines, g') → env.Houses g → e.Named →
    Traces 0 g.levels g'.levels lines (e.uses env)

def Expr.TracesCodeOfAll (es : List Expr) : Prop :=
  ∀ ⦃env : Env⦄ ⦃g g' : Plan⦄ ⦃lines : List Line⦄, Expr.codeOfAll es g = some (lines, g') → env.Houses g →
    Expr.NamedAll es → Traces 0 g.levels g'.levels lines (Expr.usesOfAll env es)

section

variable {value operand left right callee object : Expr} {arguments : List Expr}

theorem Expr.tracesCode_number (text : Bytes) : Expr.TracesCode (.number text) := by
  intro env g g' lines h henv hn
  have hs := henv.sound
  rw [Expr.code] at h
  split at h
  · cases h
  · obtain ⟨k, g₁, hk, h⟩ := bind_some h
    cases h
    have hconstant := traces_constant hk hs nofun
    exact hconstant.append (.other hconstant.sound (by decide) _)

theorem Expr.tracesCode_string (chars : Bytes) : Expr.TracesCode (.string chars) := by
  intro env g g' lines h henv hn
  have hs := henv.sound
  rw [Expr.code] at h
  obtain ⟨k, g₁, hk, h⟩ := bind_some h
  cases h
  have hconstant := traces_constant hk hs nofun
  exact hconstant.append (.other hconstant.sound (by decide) _)

theorem Expr.tracesCode_variable (name : Bytes) : Expr.TracesCode (.variable_ name) := by
  intro env g g' lines h henv hn
  rw [Expr.code] at h
  obtain ⟨place, g₁, hp, h⟩ := bind_some h
  cases h
  exact (traces_name henv hn hp).read

theorem Expr.tracesCode_assign (name : Bytes) (ihvalue : value.TracesCode) :
    Expr.TracesCode (.assign name value) := by
  intro env g g' lines h henv hn
  rw [Expr.code] at h
  split at h
  · cases h
  · obtain ⟨place, g₁, hp, h⟩ := bind_some h
    obtain ⟨a, g₂, ha, h⟩ := bind_some h
    cases h
    have hplace := traces_name henv hn.1 hp
    exact hplace.write (ihvalue ha (henv.later hp hplace.read) hn.2)

theorem Expr.tracesCode_unary (op : UnaryOp) (ihoperand : operand.TracesCode) :
    Expr.TracesCode (.unary op operand) := by
  intro env g g' lines h henv hn
  rw [Expr.code] at h
  obtain ⟨a, g₁, ha, h⟩ := bind_some h
  cases h
  have hoperand := ihoperand ha henv hn
  exact hoperand.append (.other hoperand.sound (by cases op <;> decide) .none)

theorem Expr.tracesCode_binary (op : BinaryOp) (ihleft : left.TracesCode) (ihright : right.TracesCode) :
    Expr.TracesCode (.binary op left right) := by
  intro env g g' lines h henv hn
  rw [Expr.code] at h
  obtain ⟨a, g₁, ha, h⟩ := bind_some h
  obtain ⟨b, g₂, hb, h⟩ := bind_some h
  cases h
  have hleft := ihleft ha henv hn.1
  have hright := ihright hb (henv.later ha hleft) hn.2
  exact (hleft.append hright).append (traces_operator hright.sound op)

theorem Expr.tracesCode_and (ihleft : left.TracesCode) (ihright : right.TracesCode) :
    Expr.TracesCode (.and_ left right) := by
  intro env g g' lines h henv hn
  rw [Expr.code] at h
  obtain ⟨a, g₁, ha, h⟩ := bind_some h
  obtain ⟨b, g₂, hb, h⟩ := bind_some h
  cases h
  have hleft := ihleft ha henv hn.1
  have hright := ihright hb (henv.later ha hleft) hn.2
  have hjump := (Traces.other hleft.sound (o := .jumpIfFalse) (by decide) (.short (1 + Code.size b))).append
    (.other hleft.sound (o := .pop) (by decide) .none)
  exact (hleft.append hjump).append hright

theorem Expr.tracesCode_or (ihleft : left.TracesCode) (ihright : right.TracesCode) :
    Expr.TracesCode (.or_ left right) := by
  intro env g g' lines h henv hn
  rw [Expr.code] at h
  obtain ⟨a, g₁, ha, h⟩ := bind_some h
  obtain ⟨b, g₂, hb, h⟩ := bind_some h
  cases h
  have hleft := ihleft ha henv hn.1
  have hright := ihright hb (henv.later ha hleft) hn.2
  have hjump := ((Traces.other hleft.sound (o := .jumpIfFalse) (by decide) (.short 3)).append
    (.other hleft.sound (o := .jump) (by decide) (.short (1 + Code.size b)))).append
    (.other hleft.sound (o := .pop) (by decide) .none)
  exact (hleft.append hjump).append hright

theorem Expr.tracesCode_call (ihcallee : callee.TracesCode) (iharguments : Expr.TracesCodeOfAll arguments) :
    Expr.TracesCode (.call callee arguments) := by
  intro env g g' lines h henv hn
  rw [Expr.code] at h
  obtain ⟨a, g₁, ha, h⟩ := bind_some h
  obtain ⟨b, g₂, hb, h⟩ := bind_some h
  cases h
  have hcallee := ihcallee ha henv hn.1
  have harguments := iharguments hb (henv.later ha hcallee) hn.2
  exact (hcallee.append harguments).append (.other harguments.sound (by decide) _)

theorem Expr.tracesCode_get (name : Bytes) (ihobject : object.TracesCode) : Expr.TracesCode (.get object name) := by
  intro env g g' lines h henv hn
  rw [Expr.code] at h
  obtain ⟨a, g₁, ha, h⟩ := bind_some h
  obtain ⟨k, g₂, hk, h⟩ := bind_some h
  cases h
  have hobject := ihobject ha henv hn
  have hconstant := traces_constant hk hobject.sound nofun
  exact hobject.append (hconstant.append (.other hconstant.sound (by decide) _))

theorem Expr.tracesCode_set (name : Bytes) (ihobject : object.TracesCode) (ihvalue : value.TracesCode) :
    Expr.TracesCode (.set object name value) := by
  intro env g g' lines h henv hn
  rw [Expr.code] at h
  obtain ⟨a, g₁, ha, h⟩ := bind_some h
  obtain ⟨k, g₂, hk, h⟩ := bind_some h
  obtain ⟨b, g₃, hb, h⟩ := bind_some h
  cases h
  have hobject := ihobject ha henv hn.1
  have hconstant := traces_constant hk hobject.sound nofun
  have hvalue := ihvalue hb ((henv.later ha hobject).later hk hconstant) hn.2
  exact (hobject.append (hconstant.append hvalue)).append (.other hvalue.sound (by decide) _)

theorem Expr.tracesCode_invoke (name : Bytes) (ihobject : object.TracesCode)
    (iharguments : Expr.TracesCodeOfAll arguments) : Expr.TracesCode (.invoke object name arguments) := by
  intro env g g' lines h henv hn
  rw [Expr.code] at h
  obtain ⟨a, g₁, ha, h⟩ := bind_some h
  obtain ⟨k, g₂, hk, h⟩ := bind_some h
  obtain ⟨b, g₃, hb, h⟩ := bind_some h
  cases h
  have hobject := ihobject ha henv hn.1
  have hconstant := traces_constant hk hobject.sound nofun
  have harguments := iharguments hb ((henv.later ha hobject).later hk hconstant) hn.2
  exact (hobject.append (hconstant.append harguments)).append (.other harguments.sound (by decide) _)

theorem Expr.tracesCode_this : Expr.TracesCode .this_ := by
  intro env g g' lines h henv hn
  rw [Expr.code] at h
  obtain ⟨classes, g₁, hc, h⟩ := bind_some h
  cases hc
  split at h
  · cases h
  · rename_i hopen
    obtain ⟨place, g₂, hp, h⟩ := bind_some h
    cases h
    exact traces_this henv (by simpa using hopen) hp

theorem Expr.tracesCode_super (name : Bytes) : Expr.TracesCode (.super_ name) := by
  intro env g g' lines h henv hn
  have hs := henv.sound
  rw [Expr.code] at h
  obtain ⟨classes, g₁, hc, h⟩ := bind_some h
  cases hc
  split at h
  · rename_i hinherits
    obtain ⟨k, g₂, hk, h⟩ := bind_some h
    obtain ⟨this, g₃, hthis, h⟩ := bind_some h
    obtain ⟨superclass, g₄, hsuperclass, h⟩ := bind_some h
    cases h
    have hconstant := traces_constant hk hs nofun
    have hopen₂ : g₂.classes = g.classes := (Steady.constant (.string name)).classes _ _ _ hk
    have hopen₃ : g₃.classes = g₂.classes := (Steady.resolve "this").classes _ _ _ hthis
    have henv₂ := henv.later hk hconstant
    have hreceiver := traces_this henv₂ (fun hnil => by rw [← hopen₂, hnil] at hinherits; cases hinherits) hthis
    have hsuper := traces_super (henv₂.later hthis hreceiver) (by rw [hopen₃, hopen₂]; exact hinherits) hsuperclass
    exact hconstant.append (hreceiver.append (hsuper.append (.other hsuper.sound (by decide) _)))
  · cases h

theorem Expr.tracesCode_superInvoke (name : Bytes) (iharguments : Expr.TracesCodeOfAll arguments) :
    Expr.TracesCode (.superInvoke name arguments) := by
  intro env g g' lines h henv hn
  have hs := henv.sound
  rw [Expr.code] at h
  obtain ⟨classes, g₁, hc, h⟩ := bind_some h
  cases hc
  split at h
  · rename_i hinherits
    obtain ⟨k, g₂, hk, h⟩ := bind_some h
    obtain ⟨this, g₃, hthis, h⟩ := bind_some h
    obtain ⟨a, g₄, ha, h⟩ := bind_some h
    obtain ⟨superclass, g₅, hsuperclass, h⟩ := bind_some h
    cases h
    have hconstant := traces_constant hk hs nofun
    have hopen₂ : g₂.classes = g.classes := (Steady.constant (.string name)).classes _ _ _ hk
    have hopen₃ : g₃.classes = g₂.classes := (Steady.resolve "this").classes _ _ _ hthis
    have hopen₄ : g₄.classes = g₃.classes := (Expr.steady_codeOfAll arguments).classes _ _ _ ha
    have henv₂ := henv.later hk hconstant
    have hreceiver := traces_this henv₂ (fun hnil => by rw [← hopen₂, hnil] at hinherits; cases hinherits) hthis
    have henv₃ := henv₂.later hthis hreceiver
    have harguments := iharguments ha henv₃ hn
    have := Expr.steady_codeOfAll arguments
    have hsuper := traces_super (henv₃.later ha harguments) (by rw [hopen₄, hopen₃, hopen₂]; exact hinherits)
      hsuperclass
    exact hconstant.append ((hreceiver.append harguments).append
      (hsuper.append (.other hsuper.sound (by decide) _)))
  · cases h

end

mutual

theorem Expr.traces_code (e : Expr) : e.TracesCode := by
  cases e with
  | nil | true_ | false_ =>
    intro env g g' lines h henv hn
    rw [Expr.code] at h
    cases h
    exact .other henv.sound (by decide) .none
  | number text => exact Expr.tracesCode_number text
  | string chars => exact Expr.tracesCode_string chars
  | variable_ name => exact Expr.tracesCode_variable name
  | assign name value => exact Expr.tracesCode_assign name value.traces_code
  | unary op operand => exact Expr.tracesCode_unary op operand.traces_code
  | binary op left right => exact Expr.tracesCode_binary op left.traces_code right.traces_code
  | and_ left right => exact Expr.tracesCode_and left.traces_code right.traces_code
  | or_ left right => exact Expr.tracesCode_or left.traces_code right.traces_code
  | call callee arguments => exact Expr.tracesCode_call callee.traces_code (Expr.traces_codeOfAll arguments)
  | get object name => exact Expr.tracesCode_get name object.traces_code
  | set object name value => exact Expr.tracesCode_set name object.traces_code value.traces_code
  | invoke object name arguments =>
    exact Expr.tracesCode_invoke name object.traces_code (Expr.traces_codeOfAll arguments)
  | this_ => exact Expr.tracesCode_this
  | super_ name => exact Expr.tracesCode_super name
  | superInvoke name arguments => exact Expr.tracesCode_superInvoke name (Expr.traces_codeOfAll arguments)

theorem Expr.traces_codeOfAll (es : List Expr) : Expr.TracesCodeOfAll es := by
  intro env g g' lines h henv hn
  cases es with
  | nil =>
    rw [Expr.codeOfAll] at h
    cases h
    exact .nil henv.sound
  | cons e es =>
    rw [Expr.codeOfAll] at h
    obtain ⟨a, g₁, ha, h⟩ := bind_some h
    obtain ⟨b, g₂, hb, h⟩ := bind_some h
    cases h
    have hfirst := e.traces_code ha henv hn.1
    exact hfirst.append (Expr.traces_codeOfAll es hb (henv.later ha hfirst) hn.2)

end

end Lox

namespace Lox

open PlanM

/-- The code of a declaration, which makes a variable inside of a block. -/
structure Declares (env : Env) (name : Bytes) (ls ls' : List Level) (lines : List Line) (uses : List Use) :
    Prop where
  traces : Traces (if env.inside then 1 else 0) ls ls' lines uses
  fits : (env.declare (.named name)).Fits ls'
  fresh : env.inside = true → heldAt ls' 0 (env.declare (.named name)).newest =
    Use.capturesAny 0 (env.declare (.named name)).newest uses

section

variable {env : Env} {g g' g₁ g₂ g₃ : Plan} {ls ls₁ ls₂ : List Level} {lines a b c : List Line}
  {us vs : List Use} {name : Bytes} {n m k : Nat}

theorem Env.Fits.newest {v : VarName} (h : (env.declare v).Fits ls) (hinside : env.inside = true) :
    HasSlot ls 0 (env.declare v).newest := by
  cases env with
  | nil => cases hinside
  | cons n outer =>
    cases h with
    | cons hn _ => exact ⟨_, rfl, by rw [hn.slots]; exact Nat.lt_succ_self _⟩

theorem Declares.append (h : Declares env name ls ls₁ a us) (hb : Traces 0 ls₁ ls₂ b vs) :
    Declares env name ls ls₂ (a ++ b) (us ++ vs) where
  traces := by
    have := h.traces.append hb
    rwa [Nat.zero_add] at this
  fits := hb.fits h.fits
  fresh hinside := by
    rw [hb.held 0 _ (h.fits.newest hinside), h.fresh hinside, capturesAny_append]

theorem Declares.marked (h : Declares env name ls ls₁ a us) (k : Nat) :
    Declares env name ls ls₁ (.mark k :: a) us :=
  ⟨h.traces.marked k, h.fits, h.fresh⟩

theorem Declares.global (henv : env.Fits ls) (houtside : env.inside = false) (h : Traces 0 ls ls₁ a us) :
    Declares env name ls ls₁ a us where
  traces := by
    rw [houtside]
    exact h
  fits := by
    rw [Env.declare_outside houtside]
    exact h.fits henv
  fresh hinside := by
    rw [houtside] at hinside
    cases hinside

theorem Declares.at_once {l : Level} (henv : env.Fits (l :: ls)) (hs : SoundLevels (l :: ls)) (hdeep : 0 < l.depth)
    (hname : IsIdentifier name) :
    Declares env name (l :: ls) ({ l with locals := ⟨name, some l.depth, false⟩ :: l.locals } :: ls) [] [] := by
  obtain ⟨hfits, hnewest⟩ := henv.declare (v := .named name) (u := ⟨name, some l.depth, false⟩) hdeep hname rfl
    (rfl : ({ l with locals := ⟨name, some l.depth, false⟩ :: l.locals } : Level).locals = _) rfl rfl
  refine ⟨?_, hfits, fun _ => ?_⟩
  · rw [henv.deep hdeep]
    exact traces_declared hs hdeep name
  · rw [hnewest]
    exact heldAt_newest (u := ⟨name, some l.depth, false⟩) rfl

theorem Declares.drops {drops : List Use} (h : Declares env name ls ls₁ a us) (hb : Traces m ls₁ ls₂ b vs)
    (hdrops : Drops m ls₂ drops) : Drops (m + if env.inside then 1 else 0) ls₂
      (drops ++ if env.inside then [.drop (env.declare (.named name)).newest (us ++ vs)] else []) := by
  cases hinside : env.inside with
  | true => exact drops_newest h.fits (h.fresh hinside) hb hdrops
  | false =>
    rw [if_neg Bool.false_ne_true, if_neg Bool.false_ne_true, List.append_nil]
    exact hdrops

theorem Env.method_declare (h : ∃ n ∈ env, n.kind.isMethod = true) (v : VarName) :
    ∃ n ∈ env.declare v, n.kind.isMethod = true := by
  obtain ⟨n, hn, hk⟩ := h
  cases env with
  | nil => cases hn
  | cons q outer =>
    rcases List.mem_cons.mp hn with rfl | hn
    · refine ⟨_, .head _, ?_⟩
      split <;> exact hk
    · exact ⟨n, .tail _ hn, hk⟩

theorem Declares.houses (h : Declares env name g.levels g'.levels a us) (henv : env.Houses g)
    (hclasses : g'.classes = g.classes) : (env.declare (.named name)).Houses g' where
  ready := h.traces.ready hclasses henv.ready
  fits := h.fits
  method hc := Env.method_declare (henv.method (hclasses ▸ hc)) _

theorem Env.Houses.declaring (henv : env.Houses g) (hname : IsIdentifier name)
    (hdeclare : declareNamed name g = some (k, g₁)) : (env.declare (.named name)).Houses g₁ := by
  have hclasses : g₁.classes = g.classes := (Steady.declareNamed name).classes _ _ _ hdeclare
  have hmethod : g₁.classes ≠ [] → ∃ n ∈ env.declare (.named name), n.kind.isMethod = true := fun hc =>
    Env.method_declare (henv.method (hclasses ▸ hc)) _
  have hs := henv.sound
  have hfits := henv.fits
  obtain ⟨-, l, ls, hl, ⟨hzero, hk⟩ | ⟨hdeep, rfl, -, rfl⟩⟩ := declareNamed_some hdeclare
  · -- a global
    have hconstant := traces_constant hk hs (by rintro _ ⟨⟩)
    refine ⟨hconstant.ready hclasses henv.ready, ?_, hmethod⟩
    rw [hl] at hfits
    rw [Env.declare_outside (hfits.outside hzero)]
    exact hconstant.fits henv.fits
  · -- a variable of the function
    rw [hl] at hs hfits
    refine ⟨⟨sound_pending name hs hdeep, fun hc => ?_⟩, ?_, hmethod⟩
    · obtain ⟨q, hq, v, hv, hsuper⟩ := henv.ready.super hc
      rw [hl] at hq
      rcases List.mem_cons.mp hq with rfl | hq
      · exact ⟨_, .head _, v, .tail _ hv, hsuper⟩
      · exact ⟨q, .tail _ hq, v, hv, hsuper⟩
    · exact (hfits.declare (v := .named name) (u := ⟨name, none, false⟩) hdeep hname rfl
        (rfl : ({ l with locals := ⟨name, none, false⟩ :: l.locals } : Level).locals = _) rfl rfl).1

theorem declares_var (henv : env.Houses g) (hname : IsIdentifier name) (hdeclare : declareNamed name g = some (k, g₁))
    (ha : (env.declare (.named name)).Houses g₁ → Traces 0 g₁.levels g₂.levels a us)
    (hdefine : define k g₂ = some (b, g₃)) :
    Declares env name g.levels g₃.levels (a ++ b) (us ++ env.define) := by
  have hinner := henv.declaring hname hdeclare
  have hvalue := ha hinner
  obtain ⟨-, l, ls, hl, ⟨hzero, hk⟩ | ⟨hdeep, rfl, -, rfl⟩⟩ := declareNamed_some hdeclare
  · -- a global
    have hfits := henv.fits
    rw [hl] at hfits
    have houtside := hfits.outside hzero
    have hconstant := traces_constant hk henv.sound (by rintro _ ⟨⟩)
    have hall := hconstant.append hvalue
    obtain ⟨q, qs, hq, ⟨-, rfl, rfl⟩ | ⟨hpos, -⟩⟩ := define_some hdefine
    · rw [Env.define, houtside]
      exact .global henv.fits houtside (hall.append (.other hvalue.sound (by decide) _))
    · obtain ⟨q', qs', hq', hgrown, -⟩ := hall.adds.levels hl
      have hsame : q' = q := by
        have := hq'.symm.trans hq
        exact (List.cons.inj this).1
      have hdepth : q'.depth = l.depth := hgrown.depth
      rw [hsame] at hdepth
      omega
  · -- a variable of the function
    have hs := henv.sound
    have hfits := henv.fits
    rw [hl] at hs hfits
    obtain ⟨-, hnewest⟩ := hfits.declare (v := .named name) (u := ⟨name, none, false⟩) hdeep hname rfl
      (rfl : ({ l with locals := ⟨name, none, false⟩ :: l.locals } : Level).locals = _) rfl rfl
    obtain ⟨q, qs, hq, hcases⟩ := define_some hdefine
    rw [hq] at hvalue
    obtain ⟨q', qs', hq', hgrown, -⟩ := hvalue.adds.levels rfl
    cases hq'
    have hdepth : q.depth = l.depth := hgrown.depth
    rcases hcases with ⟨hzero, -⟩ | ⟨-, rfl, rfl⟩
    · omega
    · obtain ⟨htraces, hheld, u, kept, hlocals, hinit⟩ := traces_initialized hs hdeep name hvalue
      rw [hl, Env.define, hfits.deep hdeep, List.append_nil, if_pos rfl, List.append_nil]
      refine ⟨?_, ?_, fun _ => ?_⟩
      · rw [hfits.deep hdeep]
        exact htraces
      · have hlater := hvalue.fits hinner.fits
        generalize env.declare (.named name) = inner at hlater ⊢
        cases hlater with
        | cons hn houter =>
          refine .cons ⟨hn.kind, hn.inside, ?_, hn.valid⟩ houter
          rw [hinit, ← hn.names, hlocals]
          rfl
      · rw [hnewest]
        exact hheld

theorem declares_named {u : Unit} (henv : env.Houses g) (hname : IsIdentifier name)
    (hdeclare : declareNamed name g = some (k, g₁)) (hinit : initialize_ g₁ = some (u, g₂)) :
    Declares env name g.levels g₂.levels [] [] := by
  have hs := henv.sound
  have hfits := henv.fits
  obtain ⟨-, l, ls, hl, ⟨hzero, hk⟩ | ⟨hdeep, rfl, -, rfl⟩⟩ := declareNamed_some hdeclare
  · -- a global
    have hconstant := traces_constant hk hs (by rintro _ ⟨⟩)
    rw [hl] at hfits
    obtain ⟨q, qs, hq, ⟨-, rfl⟩ | ⟨hpos, -⟩⟩ := initialize_some hinit
    · exact .global henv.fits (hfits.outside hzero) hconstant
    · obtain ⟨q', qs', hq', hgrown, -⟩ := hconstant.adds.levels hl
      rw [hq] at hq'
      cases hq'
      have hdepth : q.depth = l.depth := hgrown.depth
      omega
  · -- a variable of the function
    rw [hl] at hs hfits
    obtain ⟨q, qs, hq, ⟨hzero, -⟩ | ⟨-, rfl⟩⟩ := initialize_some hinit
    · cases hq
      exact absurd hzero (Nat.ne_of_gt hdeep)
    · cases hq
      rw [hl]
      exact .at_once hfits hs hdeep hname

theorem declares_fun {u : Unit} {g₄ : Plan} (henv : env.Houses g) (hname : IsIdentifier name)
    (hdeclare : declareNamed name g = some (k, g₁)) (hinit : initialize_ g₁ = some (u, g₂))
    (ha : (env.declare (.named name)).Houses g₂ → Traces 0 g₂.levels g₃.levels a us)
    (hdefine : define k g₃ = some (b, g₄)) :
    Declares env name g.levels g₄.levels (a ++ b) (us ++ env.define) := by
  have hclasses : g₂.classes = g.classes := (Steady.initialize_.classes _ _ _ hinit).trans
    ((Steady.declareNamed name).classes _ _ _ hdeclare)
  have hdeclares := declares_named henv hname hdeclare hinit
  have hvalue := ha (hdeclares.houses henv hclasses)
  have hall := hdeclares.append hvalue
  have hadds := hall.traces.adds
  obtain ⟨l, ls, hl, -⟩ := (declareNamed_some hdeclare).2
  have hfits := henv.fits
  rw [hl] at hfits
  obtain ⟨q, qs, hq, hcases⟩ := define_some hdefine
  rw [hl, hq] at hadds
  obtain ⟨q', qs', hq', hgrown, -⟩ := hadds.levels rfl
  cases hq'
  have hdepth : q.depth = l.depth := hgrown.depth
  rcases hcases with ⟨hzero, rfl, rfl⟩ | ⟨hdeep, rfl, rfl⟩
  · rw [Env.define, hfits.outside (hdepth ▸ hzero)]
    exact hall.append (.other hvalue.sound (by decide) _)
  · have hinside := hfits.deep (hdepth ▸ hdeep)
    rw [hinside] at hadds
    have hlevels : (⟨q :: qs, []⟩ : Plan).levels = q :: qs := rfl
    have hsame : initialized q = q := initialized_adds hadds hlevels
    rw [Env.define, hinside, if_pos rfl, List.append_nil, List.append_nil]
    show Declares env name g.levels (initialized q :: qs) a us
    rw [hsame, ← hq]
    exact hall

theorem declares_class {u : Unit} (henv : env.Houses g) (hname : IsIdentifier name)
    (hk : constant (.string name) g = some (k, g₁)) (hdeclare : declare name g₁ = some (u, g₂))
    (hdefine : define k g₂ = some (a, g₃)) : Declares env name g.levels g₃.levels (.instr .class_ (.byte k) :: a)
      (.other .class_ :: env.define) := by
  have hconstant := traces_constant hk henv.sound (by rintro _ ⟨⟩)
  have hmade : Traces 0 g.levels g₁.levels [.instr .class_ (.byte k)] [.other .class_] :=
    hconstant.append (.other hconstant.sound (by decide) _)
  have hfits := hmade.fits henv.fits
  obtain ⟨-, l, ls, hl, hcases⟩ := declare_some hdeclare
  rw [hl] at hfits
  rcases hcases with ⟨hzero, rfl⟩ | ⟨hdeep, -, rfl⟩
  · -- a global
    have houtside := hfits.outside hzero
    obtain ⟨q, qs, hq, ⟨-, rfl, rfl⟩ | ⟨hpos, -⟩⟩ := define_some hdefine
    · rw [Env.define, houtside]
      exact .global henv.fits houtside (hmade.append (.other hmade.sound (by decide) _))
    · rw [hl] at hq
      cases hq
      omega
  · -- a variable of the function
    obtain ⟨q, qs, hq, ⟨hzero, -⟩ | ⟨-, rfl, rfl⟩⟩ := define_some hdefine
    · cases hq
      exact absurd hzero (Nat.ne_of_gt hdeep)
    cases hq
    have hs := hmade.sound
    rw [hl] at hs
    obtain ⟨hdeclared, hfits', hfresh⟩ := Declares.at_once hfits hs hdeep hname
    rw [Env.define, hfits.deep hdeep, if_pos rfl]
    refine ⟨?_, hfits', hfresh⟩
    rw [hl] at hmade
    exact hmade.append hdeclared

end

end Lox

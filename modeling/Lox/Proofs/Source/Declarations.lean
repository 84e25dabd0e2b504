import Lox.Proofs.Source.Statements
import Lox.Proofs.Source.Steady

namespace Lox.CompileM

open Compiler

variable {parse : Goal → CompileM Unit} {parts : Parser.Parts} {n : Nat} {c : Compiler}
  {prev : Token} {ts : List Token} {g : Plan} {code : List UInt8} {codes : List (List UInt8)}

def receiver (kind : FunctionKind) : Local :=
  ⟨if kind = .method || kind = .initializer then "this" else "", some 0, false⟩

def opened (kind : FunctionKind) (orders : List Order) (c : Compiler) : Compiler :=
  { c with
    scopes := { kind, locals := [receiver kind] } :: c.scopes
    extents := {} :: c.extents
    orders := orders ++ c.orders }

theorem at_opened (kind : FunctionKind) (orders : List Order) {name : Option Bytes}
    (ho : ∀ d, Order.draftAll d orders.reverse = some ⟨{ name } :: d.open_, none⟩) (h : At c prev ts g codes) :
    ∃ g', PlanM.beginFunction kind name g = some ((), g') ∧
      At (opened kind orders c) prev ts g' ([] :: codes) := by
  obtain ⟨d, hd, hall⟩ := h.drafted
  refine ⟨_, rfl, h.clean, h.calm, h.previous, h.tokens, h.stream, h.classes,
    ⟨{ name } :: d.open_, none⟩, ?_, ?_⟩
  · show Order.draftAll {} (orders ++ c.orders).reverse = _
    rw [List.reverse_append, Order.draftAll_append, show Order.draftAll {} c.orders.reverse = some d from hd]
    exact ho d
  · exact .cons
      { kind := rfl
        name := rfl
        arity := rfl
        parameters := rfl
        locals := rfl
        depth := rfl
        captures := rfl
        captured := rfl
        bytes := rfl
        traced := rfl
        size := rfl
        constants := .nil
        count := rfl
        slots := (by decide : 1 ≤ 256)
        few := Nat.zero_le _
        small := nofun } hall

theorem accepts_beginScript (h : At c prev ts g codes) :
    Accepts (beginFunction .script) c fun _ c' => ∃ g',
      PlanM.beginFunction .script none g = some ((), g') ∧ At c' prev ts g' ([] :: codes) :=
  fun _ => at_opened .script [.begin] (fun _ => rfl) h

theorem accepts_beginFunction {kind : FunctionKind} (hkind : kind ≠ .script) (h : At c prev ts g codes) :
    Accepts (beginFunction kind) c fun _ c' => ∃ g',
      PlanM.beginFunction kind (some prev.lexeme) g = some ((), g') ∧ At c' prev ts g' ([] :: codes) := by
  intro _
  have hrun : (beginFunction kind c).2 = opened kind [.name c.previous.lexeme, .begin] c := by
    unfold beginFunction
    rw [if_pos hkind]
    rfl
  rw [hrun, h.previous]
  exact at_opened kind _ (fun _ => rfl) h

def Ended (c : Compiler) (f : Listing Item) : Prop :=
  ∃ d p, c.drafts = some d ∧ d.ended = some p ∧ Item.Made (.function f) (.function p)

theorem accepts_endFunction {lines : List Line} (hfits : Code.Fits lines)
    (h : At c prev ts g (Code.bytes lines :: codes)) :
    Accepts endFunction c fun captures c' => ∃ f g', PlanM.endFunction lines g = some (f, g') ∧
      captures = f.origins.map Origin.capture ∧ (∀ o ∈ f.origins, o.index < 256) ∧ Ended c' f ∧
      At c' prev ts g' codes := by
  have hend : Reports (modify fun c : Compiler => { c with
      scopes := c.scopes.tail
      extents := c.extents.tail
      orders := .finish :: c.orders } : CompileM Unit) := .modify fun _ => rfl
  obtain ⟨l, ls, hlevels, hl⟩ := h.level
  refine .bind (accepts_emitReturn hl h) fun _ c₁ h₁ => ?_
  have h₁' := h₁.recode (by simp : _ = Code.bytes (lines ++ PlanM.returnCode l.kind))
  obtain ⟨d, s, ss, e, es, p, ps, l', ls', hd, hs, he, hp, hl', head, tail⟩ := h₁'.inner
  rw [hlevels] at hl'
  cases hl'
  have hscope : scope c₁ = (s, c₁) := by
    show (c₁.scopes.headD _, c₁) = _
    rw [hs]
    rfl
  refine .read hscope fun _ => ?_
  have hdrafts : Compiler.drafts { c₁ with
      scopes := c₁.scopes.tail
      extents := c₁.extents.tail
      orders := .finish :: c₁.orders } = some ⟨ps, some p⟩ := by
    rw [drafts_cons (o := .finish) (c := c₁) rfl, hd]
    show Order.draft d .finish = _
    simp only [Order.draft, hp]
  refine ⟨⟨l.kind, l.arity, l.name, l.origins, l.origins.map (Level.mark ls),
    lines ++ PlanM.returnCode l.kind, l.constants, l.declared⟩, { g with levels := ls }, ?_, head.captures, head.small,
        ⟨_, p, hdrafts, rfl, ?_⟩, ?_⟩
  · unfold PlanM.endFunction
    rw [bind_of hl]
    show some ((⟨l.kind, l.arity, l.name, l.origins, l.origins.map (Level.mark g.levels.tail),
      lines ++ PlanM.returnCode l.kind, l.constants, l.declared⟩ : Listing Item),
      { g with levels := g.levels.tail }) = _
    rw [hlevels]
    rfl
  · refine .function head.parameters head.name head.captured head.bytes ?_ ?_ head.constants
      head.few
    · rw [head.traced, head.bytes]
    · exact hfits.append (fits_returnCode _)
  · refine ⟨h₁.clean, h₁.calm, h₁.previous, h₁.tokens, h₁.stream, h₁.classes, ⟨ps, some p⟩, hdrafts, ?_⟩
    show AllAlike c₁.scopes.tail c₁.extents.tail ps ls codes
    rw [hs, he]
    exact tail

theorem at_enlist (classes : List ClassBody) (h : At c prev ts g (code :: codes)) :
    ∃ g', PlanM.enlist classes g = some ((), g') ∧ At c prev ts g' (code :: codes) := by
  obtain ⟨d, s, ss, e, es, p, ps, l, ls, hd, hs, he, hp, hl, head, tail⟩ := h.inner
  refine ⟨{ g with levels := { l with declared := l.declared ++ classes } :: ls }, ?_,
    ⟨h.clean, h.calm, h.previous, h.tokens, h.stream, h.classes, d, hd, ?_⟩⟩
  · unfold PlanM.enlist PlanM.modifyLevel
    rw [hl]
  · rw [hs, he, hp]
    exact .cons { head with } tail

theorem accepts_enclose {f : Listing Item} (hended : Ended c f) (h : At c prev ts g (code :: codes)) :
    Accepts (makeConstant .enclose) c fun b c' => ∃ i g', PlanM.constant (.function f) g = some (i, g') ∧
      i < 256 ∧ b = i.toUInt8 ∧ At c' prev ts g' (code :: codes) := by
  obtain ⟨d, p, hd, hp, hmade⟩ := hended
  refine accepts_makeConstant hmade (fun d' q ps hd' hq => ?_) h
  rw [hd] at hd'
  cases hd'
  simp [Order.draft, Drafts.onInner, hp, hq]

theorem accepts_originBytes (origins : List Origin) (h : At c prev ts g (code :: codes)) :
    Accepts ((origins.map Origin.capture).forM fun c => do
      emitByte (if c.isLocal then 1 else 0)
      emitByte c.index) c fun _ c' => At c' prev ts g ((code ++ origins.flatMap fun o : Origin =>
        [if o.isLocal then 1 else 0, o.index.toUInt8]) :: codes) := by
  induction origins generalizing c code with
  | nil => exact .pure (h.recode (by simp))
  | cons o origins ih =>
    have hbytes : Accepts (do
        emitByte (if o.isLocal then 1 else 0)
        emitByte o.index.toUInt8) c fun _ c' =>
          At c' prev ts g ((code ++ [if o.isLocal then 1 else 0, o.index.toUInt8]) :: codes) := by
      refine .bind (accepts_emitByte _ h) fun _ c₁ h₁ => ?_
      exact (accepts_emitByte _ h₁).weaken fun _ c₂ h₂ => h₂.recode (by simp)
    refine .bind hbytes fun _ c₁ h₁ => ?_
    exact (ih h₁).weaken fun _ c₂ h₂ => h₂.recode (by simp)

def Deep (g : Plan) : Prop :=
  ∃ l ls, g.levels = l :: ls ∧ 0 < l.depth

theorem accepts_defineLocal {k : UInt8} (hdeep : Deep g) (h : At c prev ts g (code :: codes)) :
    Accepts (defineVariable k) c fun _ c' => ∃ g', PlanM.initialize_ g = some ((), g') ∧
      (∀ k, PlanM.define k g = some ([], g')) ∧ Deep g' ∧ At c' prev ts g' (code :: codes) := by
  obtain ⟨l, ls, hlevels, hpos⟩ := hdeep
  obtain ⟨s, e, p, l', ls', hs, -, hlevels', hl, ha⟩ := run_scope h
  rw [hlevels] at hlevels'
  cases hlevels'
  refine .read hs ?_
  rw [ha.depth, if_pos hpos]
  refine (accepts_markInitialized h).weaken fun _ c₁ ⟨g₁, hg₁, h₁⟩ => ?_
  refine ⟨g₁, hg₁, fun k => ?_, ?_, h₁⟩
  · unfold PlanM.define
    rw [bind_of hl, if_pos hpos, bind_of hg₁]
    rfl
  · obtain ⟨l', ls', hlevels', hcases⟩ := PlanM.initialize_some hg₁
    rw [hlevels] at hlevels'
    cases hlevels'
    rcases hcases with ⟨-, rfl⟩ | ⟨-, rfl⟩
    · exact ⟨l, ls, hlevels, hpos⟩
    · exact ⟨_, ls, rfl, hpos⟩

theorem accepts_problemAtCurrent_bind {α : Type} {p : Problem} {f : Unit → CompileM α}
    {post : α → Compiler → Prop} [∀ a, Reports (f a)] (h : c.panicking = false) :
    Accepts (problemAtCurrent p >>= f) c post := by
  have hrun : (problemAtCurrent p >>= f) c = (problemAt c.current p >>= f) c := rfl
  exact .of_eq hrun (accepts_problemAt_bind h)

def parameterThen : CompileM Bool := do
  extend .parameter fun e => { e with arity := e.arity + 1 }
  if 255 < (← extent).arity then problemAtCurrent .tooManyParameters
  defineVariable (← parseVariable "parameter name")
  accept .comma

instance : Reports parameterThen := by
  have : Reports (extend .parameter fun e => { e with arity := e.arity + 1 }) := .modify fun _ => rfl
  unfold parameterThen
  dsimp only
  infer_instance

theorem accepts_parameter (hdeep : Deep g) (h : At c prev ts g (code :: codes)) :
    Accepts parameterThen c fun b c' => ∃ t ts' g', ts = t :: ts' ∧
      Parser.expect .identifier ts = some (t, ts') ∧ PlanM.parameter t.lexeme g = some ((), g') ∧ Deep g' ∧
      ((b = true ∧ ∃ u ts'', ts' = u :: ts'' ∧ Parser.accept .comma ts' = some (true, ts'') ∧
        At c' u ts'' g' (code :: codes)) ∨
      (b = false ∧ Parser.accept .comma ts' = some (false, ts') ∧ At c' t ts' g' (code :: codes))) := by
  have hparameter : Reports (extend .parameter fun e => { e with arity := e.arity + 1 }) := .modify fun _ => rfl
  obtain ⟨l, ls, hlevels, hpos⟩ := hdeep
  have hcount : Accepts (extend .parameter fun e => { e with arity := e.arity + 1 }) c fun _ c' =>
      At c' prev ts { g with levels := { l with arity := l.arity + 1 } :: ls } (code :: codes) := by
    intro _
    have h' := at_extend h (o := .parameter) (f := fun e => { e with arity := e.arity + 1 })
      (F := fun p => { p with arity := p.arity + 1 }) (G := fun l => { l with arity := l.arity + 1 })
      (fun d p ps _ hp => by simp [Order.draft, Drafts.onInner, hp]) fun s e p l ha => { ha with
        arity := congrArg (· + 1) ha.arity
        parameters := congrArg (· + 1) ha.parameters }
    rw [hlevels] at h'
    exact h'
  refine .bind hcount fun _ c₁ h₁ => ?_
  refine .read (rfl : extent c₁ = (c₁.extents.headD {}, c₁)) ?_
  dsimp only
  split
  · exact accepts_problemAtCurrent_bind h₁.calm
  refine .bind (accepts_parseVariable _ h₁) fun b c₂ ⟨t, ts₂, k, g₂, hts, hp₂, hg₂, hk, hb, h₂⟩ => ?_
  have hdeep₂ : Deep g₂ := by
    obtain ⟨-, l', ls', hlevels', ⟨hzero, -⟩ | ⟨hpos', -, -, rfl⟩⟩ := PlanM.declareNamed_some hg₂
    · cases hlevels'
      exact absurd hpos (by rw [show l.depth = 0 from hzero]; exact Nat.lt_irrefl 0)
    · exact ⟨_, ls', rfl, hpos'⟩
  refine .bind (accepts_defineLocal hdeep₂ h₂) fun _ c₃ ⟨g₃, _, hg₃, hdeep₃, h₃⟩ => ?_
  have hplan : PlanM.parameter t.lexeme g = some ((), g₃) := by
    have hmod : PlanM.modifyLevel (fun l => { l with arity := l.arity + 1 }) g =
        some ((), { g with levels := { l with arity := l.arity + 1 } :: ls }) := by
      unfold PlanM.modifyLevel
      rw [hlevels]
    unfold PlanM.parameter
    rw [bind_of hmod, bind_of hg₂, bind_of (hg₃ k)]
    rfl
  refine (accepts_accept h₃ (by nofun)).weaken fun b c₄ hb => ?_
  refine ⟨t, ts₂, g₃, hts, hp₂, hplan, hdeep₃, ?_⟩
  rcases hb with ⟨rfl, u, ts₄, hts₄, -, h₄, hp₄, -⟩ | ⟨rfl, rfl, hp₄, -⟩
  · exact .inl ⟨rfl, u, ts₄, hts₄, hp₄, h₄⟩
  · exact .inr ⟨rfl, hp₄, h₃⟩

theorem reports_loop {body : CompileM Bool} [hb : Reports body] (fuel : Nat) : Reports (loop fuel body) := by
  induction fuel with
  | zero => exact (inferInstance : Reports giveUp)
  | succ fuel ih =>
    unfold loop
    infer_instance

theorem accepts_parameters (fuel : Nat) (hfuel : ts.length ≤ fuel) (hdeep : Deep g)
    (h : At c prev ts g (code :: codes)) :
    Accepts (loop fuel parameterThen) c fun _ c' => ∃ names ts' g' prev',
      Parser.parameters fuel ts = some (names, ts') ∧ ts'.length ≤ ts.length ∧
      names.forM PlanM.parameter g = some ((), g') ∧ Deep g' ∧ At c' prev' ts' g' (code :: codes) := by
  induction fuel generalizing c prev ts g with
  | zero =>
    obtain _ | ⟨t, ts⟩ := ts
    · exact h.stream.elim
    · simp at hfuel
  | succ fuel ih =>
    have : Reports (loop fuel parameterThen) := reports_loop fuel
    unfold loop
    refine .bind (accepts_parameter hdeep h) fun b c₁ ⟨t, ts₁, g₁, hts, hp₁, hg₁, hdeep₁, hb⟩ => ?_
    subst hts
    rw [List.length_cons] at hfuel
    rcases hb with ⟨rfl, u, ts₂, rfl, hp₂, h₂⟩ | ⟨rfl, hp₂, h₂⟩
    · rw [List.length_cons] at hfuel
      refine (ih (by omega) hdeep₁ h₂).weaken fun _ c₃ ⟨names, ts₃, g₃, prev₃, hp₃, hlen₃, hg₃, hdeep₃, h₃⟩ => ?_
      refine ⟨t.lexeme :: names, ts₃, g₃, prev₃, ?_, ?_, ?_, hdeep₃, h₃⟩
      · unfold Parser.parameters
        rw [bind_of hp₁, bind_of hp₂]
        simp only [if_true]
        rw [bind_of hp₃]
        rfl
      · simp only [List.length_cons]
        omega
      · show (PlanM.parameter t.lexeme >>= fun _ => names.forM PlanM.parameter) g = _
        rw [bind_of hg₁]
        exact hg₃
    · refine .pure ⟨[t.lexeme], ts₁, g₁, t, ?_, Nat.le_succ _, ?_, hdeep₁, h₂⟩
      · unfold Parser.parameters
        rw [bind_of hp₁, bind_of hp₂]
        rfl
      · show (PlanM.parameter t.lexeme >>= fun _ => pure ()) g = _
        rw [bind_of hg₁]
        rfl

def parameterList (n : Nat) : CompileM Unit := do
  unless ← check .rightParen do parameters n

def parameterNames (n : Nat) : Parser (List Bytes) := do
  if ← Parser.check .rightParen then return [] else Parser.parameters n

theorem functionBody_eq (parse : Goal → CompileM Unit) (n : Nat) : functionBody parse n = (do
    beginScope
    consume .leftParen "'(' after function name"
    parameterList n
    consume .rightParen "')' after parameters"
    consume .leftBrace "'\x7b' before function body"
    block parse n) := by
  unfold functionBody parameterList
  congr
  funext _
  congr
  funext _ c
  simp only [run_bind]
  cases (check .rightParen c).1 <;> rfl

instance (n : Nat) : Reports (parameterList n) := by
  unfold parameterList
  infer_instance

theorem accepts_parameterList (hdeep : Deep g) (h : At c prev ts g (code :: codes)) (hn : ts.length ≤ n) :
    Accepts (parameterList n) c fun _ c' => ∃ names ts' g' prev',
      parameterNames n ts = some (names, ts') ∧
      ts'.length ≤ ts.length ∧ names.forM PlanM.parameter g = some ((), g') ∧
      At c' prev' ts' g' (code :: codes) := by
  obtain _ | ⟨t, rest⟩ := ts
  · exact h.stream.elim
  obtain ⟨hcheck, hpcheck⟩ := run_check (k := .rightParen) h
  unfold parameterNames
  rw [bind_of hpcheck]
  refine .read hcheck ?_
  by_cases hclose : t.kind = .rightParen
  · rw [decide_eq_true hclose]
    exact .pure ⟨[], t :: rest, g, prev, rfl, Nat.le_refl _, rfl, h⟩
  · rw [decide_eq_false hclose]
    refine (accepts_parameters n hn hdeep h).weaken
      fun _ c₁ ⟨names, ts₁, g₁, prev₁, hp₁, hlen₁, hg₁, _, h₁⟩ => ?_
    exact ⟨names, ts₁, g₁, prev₁, hp₁, hlen₁, hg₁, h₁⟩

theorem accepts_functionBody (hf : Tracks parse parts n) (name : Bytes) 
    (h : At c prev ts g (code :: codes)) (hn : 4 * ts.length ≤ n) :
    Accepts (functionBody parse n) c fun _ c' => ∃ f ts' lines g₀ g₁ g' prev',
      Parser.lambda parts n name ts = some (f, ts') ∧ ts'.length < ts.length ∧ f.name = name ∧
      PlanM.beginScope g = some ((), g₀) ∧ f.parameters.forM PlanM.parameter g₀ = some ((), g₁) ∧
      Stmt.codeOfAll f.body g₁ = some (lines, g') ∧ Code.Fits lines ∧
      At c' prev' ts' g' ((code ++ Code.bytes lines) :: codes) := by
  have := hf.sketches
  rw [functionBody_eq]
  refine .bind (accepts_beginScope h) fun _ c₁ ⟨g₁, hg₁, h₁⟩ => ?_
  have hdeep : Deep g₁ := by
    obtain ⟨l', ls', hlevels', rfl⟩ := PlanM.modifyLevel_some hg₁
    exact ⟨_, ls', rfl, Nat.succ_pos _⟩
  refine .bind (accepts_consume h₁ (by nofun)) fun _ c₂ ⟨t, ts₂, hts, _, h₂, hp₂⟩ => ?_
  subst hts
  rw [List.length_cons] at hn
  refine .bind (accepts_parameterList hdeep h₂ (by omega : _ ≤ n))
    fun _ c₃ ⟨names, ts₃, g₃, prev₃, hp₃, hlen₃, hg₃, h₃⟩ => ?_
  refine .bind (accepts_consume h₃ (by nofun)) fun _ c₄ ⟨t₄, ts₄, hts, _, h₄, hp₄⟩ => ?_
  subst hts
  refine .bind (accepts_consume h₄ (by nofun)) fun _ c₅ ⟨t₅, ts₅, hts, _, h₅, hp₅⟩ => ?_
  subst hts
  simp only [List.length_cons] at hlen₃
  refine (accepts_block hf h₅ (by omega)).weaken
    fun _ c₆ ⟨body, ts₆, a, g₆, prev₆, hp₆, hlen₆, hg₆, hfits₆, h₆⟩ => ?_
  refine ⟨⟨name, names, body⟩, ts₆, a, g₁, g₃, g₆, prev₆, ?_, ?_, rfl, hg₁, hg₃, hg₆, hfits₆, h₆⟩
  · have hplan : Parser.lambda parts n name = (do
        let _ ← Parser.expect .leftParen
        let parameters ← parameterNames n
        let _ ← Parser.expect .rightParen
        let _ ← Parser.expect .leftBrace
        return ⟨name, parameters, ← Parser.block parts n⟩) := by
      unfold Parser.lambda parameterNames
      congr
      funext _
      rw [bind_assoc]
      congr
      funext b
      cases b <;> rfl
    rw [hplan, bind_of hp₂, bind_of hp₃, bind_of hp₄, bind_of hp₅, bind_of hp₆]
    rfl
  · simp only [List.length_cons]
    omega

theorem accepts_function (hf : Tracks parse parts n) {kind : FunctionKind} (hkind : kind ≠ .script)
    (h : At c prev ts g (code :: codes)) (hn : 4 * ts.length ≤ n) :
    Accepts (function parse n kind) c fun _ c' => ∃ f ts' lines g' prev',
      Parser.lambda parts n prev.lexeme ts = some (f, ts') ∧ ts'.length < ts.length ∧
      f.name = prev.lexeme ∧ Stmt.codeOfFunction kind f g = some (lines, g') ∧ Code.Fits lines ∧
      At c' prev' ts' g' ((code ++ Code.bytes lines) :: codes) := by
  have := hf.sketches
  refine .bind (accepts_beginFunction hkind h) fun _ c₁ ⟨g₁, hg₁, h₁⟩ => ?_
  refine .bind (accepts_functionBody hf prev.lexeme h₁ hn)
    fun _ c₂ ⟨f, ts₂, a, g₂, g₃, g₄, prev₂, hp₂, hlen₂, hname, hg₂, hg₃, hg₄, hfits₂, h₂⟩ => ?_
  refine .bind (accepts_endFunction hfits₂ (h₂.recode (List.nil_append _)))
    fun captures c₃ ⟨listing, g₅, hg₅, hcaptures, hsmall, hended, h₃⟩ => ?_
  subst hcaptures
  obtain ⟨g₅', hg₅', h₃'⟩ := at_enlist listing.classes h₃
  refine .bind (accepts_enclose hended h₃') fun b c₄ ⟨k, g₆, hg₆, hk, hb, h₄⟩ => ?_
  subst hb
  refine .bind (accepts_emitWith .closure k h₄) fun _ c₅ h₅ => ?_
  refine (accepts_originBytes listing.origins h₅).weaken fun _ c₆ h₆ => ?_
  refine ⟨f, ts₂, [.instr .closure (.closure k listing.origins)], g₆, prev₂, hp₂, hlen₂, hname, ?_,
    List.forall_mem_singleton.mpr ⟨hk, hsmall⟩, h₆.recode (by simp [Line.bytes, Operand.bytes])⟩
  obtain ⟨name, parameters, body⟩ := f
  subst hname
  rw [Stmt.codeOfFunction, bind_of hg₁, bind_of hg₂, bind_of hg₃, bind_of hg₄, bind_of hg₅, bind_of hg₅',
    bind_of hg₆]
  rfl

theorem accepts_funDeclaration (hf : Tracks parse parts n) (h : At c prev ts g (code :: codes))
    (hn : 4 * ts.length ≤ n) : Accepts (funDeclaration parse n) c fun _ =>
      Produces 0 (Parser.funDeclaration parts n) (Made Stmt.code) ts g code codes := by
  have := hf.sketches
  obtain ⟨l, ls, -, hl⟩ := h.level
  refine .bind (accepts_parseVariable _ h) fun b c₁ ⟨t, ts₁, k, g₁, hts, hp₁, hg₁, hk, hb, h₁⟩ => ?_
  subst hts hb
  rw [List.length_cons] at hn
  refine .bind (accepts_markInitialized h₁) fun _ c₂ ⟨g₂, hg₂, h₂⟩ => ?_
  refine .bind (accepts_function hf (by decide) h₂ (by omega))
    fun _ c₃ ⟨f, ts₃, a, g₃, prev₃, hp₃, hlen₃, hname, hg₃, hfits₃, h₃⟩ => ?_
  refine (accepts_defineVariable hk h₃).weaken fun _ c₄ ⟨lines, g₄, hg₄, hfits₄, h₄⟩ => ?_
  refine ⟨.fun_ f, ts₃, .mark l.locals.length :: a ++ lines, g₄, prev₃, ?_, ?_, ?_,
    .append (Code.fits_cons trivial hfits₃) hfits₄, h₄.recode (by simp [Line.bytes])⟩
  · unfold Parser.funDeclaration
    rw [bind_of hp₁, bind_of hp₃]
    rfl
  · rw [List.length_cons]
    omega
  · show Stmt.code _ g = _
    rw [Stmt.code, bind_of hl, hname, bind_of hg₁, bind_of hg₂, bind_of hg₃, bind_of hg₄]
    rfl

theorem at_classes (classes : List Bool) (h : At c prev ts g codes) :
    At { c with classes } prev ts { g with classes } codes :=
  ⟨h.clean, h.calm, h.previous, h.tokens, h.stream, rfl, h.drafted⟩

theorem accepts_method (hf : Tracks parse parts n) (h : At c prev ts g (code :: codes))
    (hn : 4 * ts.length ≤ n) : Accepts (method parse n) c fun _ c' => ∃ t ts₁ f ts' lines g' prev',
      Parser.expect .identifier ts = some (t, ts₁) ∧ Parser.lambda parts n t.lexeme ts₁ = some (f, ts') ∧
      ts'.length < ts.length ∧ f.name = t.lexeme ∧ (∀ fs rest g'', Stmt.codeOfMethods fs g' = some (rest, g'') →
        Stmt.codeOfMethods (f :: fs) g = some (lines ++ rest, g'')) ∧ Code.Fits lines ∧
      At c' prev' ts' g' ((code ++ Code.bytes lines) :: codes) := by
  have := hf.sketches
  refine .bind (accepts_consume h (by nofun)) fun _ c₁ ⟨t, ts₁, hts, _, h₁, hp₁⟩ => ?_
  subst hts
  rw [List.length_cons] at hn
  refine .read (run_lexeme h₁) ?_
  refine .bind (accepts_nameConstant t.lexeme h₁) fun b c₂ ⟨k, g₂, hg₂, hk, hb, h₂⟩ => ?_
  subst hb
  have hkind : (if t.lexeme = ("init" : Bytes) then FunctionKind.initializer else .method) ≠ .script := by
    split <;> decide
  refine .bind (accepts_function hf hkind h₂ (by omega))
    fun _ c₃ ⟨f, ts₃, a, g₃, prev₃, hp₃, hlen₃, hname, hg₃, hfits₃, h₃⟩ => ?_
  refine (accepts_emitWith .method k h₃).weaken fun _ c₄ h₄ => ?_
  refine ⟨t, ts₁, f, ts₃, a ++ [.instr .method (.byte k)], g₃, prev₃, hp₁, hp₃, ?_, hname, ?_,
    hfits₃.append (Code.fits_byte _ hk), h₄.recode (by simp)⟩
  · rw [List.length_cons]
    omega
  · intro fs rest g'' hrest
    obtain ⟨name, parameters, body⟩ := f
    subst hname
    rw [Stmt.codeOfMethods, bind_of hg₂, bind_of hg₃, bind_of hrest]
    rfl

def methodItems (parse : Goal → CompileM Unit) (n fuel : Nat) : CompileM Unit :=
  loop fuel do
    if ← check .rightBrace <||> check .eof then return false
    method parse n
    return true

theorem accepts_methodItems (hf : Tracks parse parts n) (fuel : Nat) (hfuel : ts.length ≤ fuel)
    (h : At c prev ts g (code :: codes)) (hn : 4 * ts.length ≤ n) :
    Accepts (methodItems parse n fuel) c fun _ =>
      Produces 0 (Parser.methods parts n fuel) (Made Stmt.codeOfMethods) ts g code codes := by
  have := hf.sketches
  induction fuel generalizing c prev ts g code with
  | zero =>
    obtain _ | ⟨t, ts⟩ := ts
    · exact h.stream.elim
    · simp at hfuel
  | succ fuel ih =>
    obtain _ | ⟨t, rest⟩ := ts
    · exact h.stream.elim
    obtain ⟨hend, hpend⟩ := accepts_blockEnd h
    unfold methodItems loop
    rw [bind_assoc]
    refine .read hend ?_
    by_cases hclose : t.kind = .rightBrace ∨ t.kind = .eof
    · rw [decide_eq_true hclose]
      refine .pure ⟨[], t :: rest, [], g, prev, ?_, Nat.le_refl _, ?_, Code.fits_nil, h.recode (by simp)⟩
      · unfold Parser.methods
        rw [bind_of hpend, decide_eq_true hclose]
        rfl
      · show Stmt.codeOfMethods _ g = _
        rw [Stmt.codeOfMethods]
        rfl
    · rw [decide_eq_false hclose]
      simp only [Bool.false_eq_true, if_false, bind_assoc, pure_bind, if_true]
      refine .bind (accepts_method hf h hn)
        fun _ c₁ ⟨u, ts₀, f, ts₁, a, g₁, prev₁, hp₀, hp₁, hlen₁, hname, hg₁, hfits₁, h₁⟩ => ?_
      rw [List.length_cons] at hfuel hlen₁ hn
      refine (ih (by omega) h₁ (by omega)).weaken
        fun _ c₂ ⟨fs, ts₂, b, g₂, prev₂, hp₂, hlen₂, hg₂, hfits₂, h₂⟩ => ?_
      refine ⟨f :: fs, ts₂, a ++ b, g₂, prev₂, ?_, ?_, hg₁ fs b g₂ hg₂, hfits₁.append hfits₂,
        h₂.recode (by simp)⟩
      · unfold Parser.methods
        rw [bind_of hpend, decide_eq_false hclose, if_neg Bool.false_ne_true, bind_of hp₀, bind_of hp₁,
          bind_of hp₂]
        rfl
      · rw [List.length_cons]
        omega

theorem accepts_superclass (className : Bytes) (h : At c prev ts g (code :: codes)) :
    Accepts (superclass parse className) c fun _ c' => ∃ t ts' lines g', ts = t :: ts' ∧
      Parser.expect .identifier ts = some (t, ts') ∧
      PlanM.inheritFrom className t.lexeme g = some (lines, g') ∧ Code.Fits lines ∧
      At c' t ts' g' ((code ++ Code.bytes lines) :: codes) := by
  have hread (name : Bytes) : Reports (namedVariable parse name false) := by
    have hrun : namedVariable parse name false = (do
        let r ← resolve name
        emitWith r.1 r.2.2) := rfl
    rw [hrun]
    infer_instance
  have hmod : Reports (modify fun c : Compiler => { c with classes := true :: c.classes.tail } :
      CompileM Unit) := .modify fun _ => rfl
  have hvar : Reports (variable_ parse false) := .bind fun name => hread name
  have hrest : Reports (do
      beginScope
      addLocal "super"
      defineVariable 0
      namedVariable parse className false
      emit .inherit
      modify fun c => { c with classes := true :: c.classes.tail }) := inferInstance
  unfold superclass
  dsimp only
  refine .bind (accepts_consume h (by nofun)) fun _ c₁ ⟨t, ts₁, hts, _, h₁, hp₁⟩ => ?_
  have hsecond : Accepts (variable_ parse false) c₁ fun _ c' => ∃ place g',
      PlanM.resolve t.lexeme g = some (place, g') ∧ Code.Fits [place.read] ∧
        At c' t ts₁ g' ((code ++ Code.bytes [place.read]) :: codes) :=
    .read (run_lexeme h₁) (accepts_read t.lexeme h₁)
  refine .bind hsecond fun _ c₂ ⟨place, g₂, hg₂, hfits₂, h₂⟩ => ?_
  refine .read (run_lexeme h₂) ?_
  by_cases hown : className = t.lexeme
  · rw [if_pos hown]
    exact accepts_problem_bind h₂.calm
  rw [if_neg hown]
  refine .bind (accepts_beginScope h₂) fun _ c₃ ⟨g₃, hg₃, h₃⟩ => ?_
  have hdeep₃ : Deep g₃ := by
    obtain ⟨l', ls', hlevels', rfl⟩ := PlanM.modifyLevel_some hg₃
    exact ⟨_, ls', rfl, Nat.succ_pos _⟩
  refine .bind (accepts_addLocal "super" h₃) fun _ c₄ ⟨g₄, hg₄, h₄⟩ => ?_
  have hdeep₄ : Deep g₄ := by
    obtain ⟨l, ls, hlevels, hpos⟩ := hdeep₃
    obtain ⟨l', ls', hlevels', rfl⟩ := PlanM.modifyLevel_some hg₄
    rw [hlevels] at hlevels'
    cases hlevels'
    exact ⟨_, ls, rfl, hpos⟩
  refine .bind (accepts_defineLocal hdeep₄ h₄) fun _ c₅ ⟨g₅, hg₅, _, _, h₅⟩ => ?_
  refine .bind (accepts_read className h₅) fun _ c₆ ⟨own, g₆, hg₆, hfits₆, h₆⟩ => ?_
  refine .bind (accepts_emit .inherit h₆) fun _ c₇ h₇ => ?_
  intro _
  refine ⟨t, ts₁, [place.read, own.read, .instr .inherit .none],
    { g₆ with classes := true :: g₆.classes.tail }, hts, hp₁, ?_,
    (hfits₂.append hfits₆).append (Code.fits_plain _), ?_⟩
  · unfold PlanM.inheritFrom
    rw [bind_of hg₂, if_neg hown, bind_of hg₃, bind_of hg₄, bind_of hg₅, bind_of hg₆]
    rfl
  · have h₈ := at_classes (true :: g₆.classes.tail)
      (h₇.recode (by simp : _ = code ++ Code.bytes [place.read, own.read, .instr .inherit .none]))
    rw [← h₇.classes] at h₈ ⊢
    exact h₈

def openClass (parse : Goal → CompileM Unit) (className : Bytes) : CompileM Unit := do
  modify fun c => { c with classes := false :: c.classes }
  if ← accept .less then superclass parse className

def superclassName : Parser (Option Bytes) := do
  if ← Parser.accept .less then (fun t => some t.lexeme) <$> Parser.expect .identifier else pure none

def classBody (parse : Goal → CompileM Unit) (n : Nat) (className : Bytes) : CompileM Unit := do
  namedVariable parse className false
  consume .leftBrace "'\x7b' before class body"
  methodItems parse n n
  consume .rightBrace "'\x7d' after class body"
  emit .pop
  if (← get).classes.head? = some true then endScope
  modify fun c => { c with classes := c.classes.tail }

theorem classDeclaration_eq (parse : Goal → CompileM Unit) (n : Nat) : classDeclaration parse n = (do
    consume .identifier "class name"
    let className ← lexeme
    let constant ← nameConstant className
    declareVariable
    emitWith .class_ constant
    defineVariable constant
    openClass parse className
    classBody parse n className) := by
  unfold classDeclaration openClass classBody
  congr
  funext _
  congr
  funext className
  congr
  funext constant
  congr
  funext _
  congr
  funext _
  congr
  funext _
  rw [bind_assoc]
  congr
  funext _
  rw [bind_assoc]
  congr
  funext b
  cases b <;> rfl

instance [∀ g, Sketches (parse g)] (className : Bytes) : Reports (openClass parse className) := by
  have hbegin : Reports (modify fun c : Compiler => { c with classes := false :: c.classes } :
      CompileM Unit) := .modify fun _ => rfl
  unfold openClass
  infer_instance

theorem plan_openClass (className : Bytes) (g : Plan) (s : Option Bytes) :
    PlanM.openClass className s g = (match s with
      | none => return []
      | some s => PlanM.inheritFrom className s : PlanM (List Line)) { g with classes := false :: g.classes } := by
  cases s <;> rfl

theorem accepts_openClass (hf : Tracks parse parts n) (className : Bytes)
    (h : At c prev ts g (code :: codes)) : Accepts (openClass parse className) c fun _ =>
      Produces 0 superclassName (fun s g lines g' => PlanM.openClass className s g = some (lines, g'))
        ts g code codes := by
  have := hf.sketches
  have h₀ := at_classes (false :: g.classes) h
  rw [← h.classes] at h₀
  have hplan := h.classes ▸ plan_openClass className g
  suffices hopened : Accepts (do if ← accept .less then superclass parse className)
      { c with classes := false :: c.classes } _ from .of_eq (by rfl) hopened
  refine .bind (accepts_accept h₀ (by decide)) fun b c₁ hb => ?_
  rcases hb with ⟨rfl, t, ts₁, rfl, -, h₁, hp₁, -⟩ | ⟨rfl, rfl, hp₁, -⟩
  · refine (accepts_superclass className h₁).weaken ?_
    rintro _ c₂ ⟨u, ts₂, lines, g₂, hts, hp₂, hg₂, hfits₂, h₂⟩
    subst hts
    refine ⟨some u.lexeme, ts₂, lines, g₂, u, ?_, ?_, (hplan _).trans hg₂, hfits₂, h₂⟩
    · unfold superclassName
      rw [bind_of hp₁]
      simp only [if_true]
      rw [← bind_pure_comp, bind_of hp₂]
      rfl
    · simp only [List.length_cons]
      omega
  · refine .pure ⟨none, ts, [], { g with classes := false :: c.classes }, prev, ?_, Nat.le_refl _,
      (hplan _).trans rfl, Code.fits_nil, h₀.recode (by simp)⟩
    unfold superclassName
    rw [bind_of hp₁]
    rfl

theorem accepts_closeClass (h : At c prev ts g (code :: codes)) : Accepts (do
    if (← get).classes.head? = some true then endScope
    modify fun c => { c with classes := c.classes.tail }) c fun _ c' => ∃ lines g',
      PlanM.closeClass (g.classes.head? = some true) g = some (lines, g') ∧ Code.Fits lines ∧
        At c' prev ts g' ((code ++ Code.bytes lines) :: codes) := by
  have hend : Reports (modify fun c : Compiler => { c with classes := c.classes.tail } : CompileM Unit) :=
    .modify fun _ => rfl
  refine .read (rfl : (get : CompileM Compiler) c = (c, c)) ?_
  rw [h.classes]
  dsimp only
  unfold PlanM.closeClass
  by_cases hhead : g.classes.head? = some true
  · rw [if_pos hhead, decide_eq_true hhead]
    refine .bind (accepts_endScope h) fun _ c₁ ⟨lines, g₁, hg₁, hfits₁, h₁⟩ => ?_
    intro _
    refine ⟨lines, { g₁ with classes := g₁.classes.tail }, ?_, hfits₁, ?_⟩
    · simp only [if_true]
      rw [bind_of hg₁]
      rfl
    · have h₂ := at_classes g₁.classes.tail h₁
      rw [← h₁.classes] at h₂ ⊢
      exact h₂
  · rw [if_neg hhead, decide_eq_false hhead]
    intro _
    refine ⟨[], { g with classes := g.classes.tail }, rfl, Code.fits_nil, ?_⟩
    have h₂ := at_classes g.classes.tail (h.recode (by simp : _ = code ++ Code.bytes []))
    rw [← h.classes] at h₂ ⊢
    exact h₂

def methodList (parts : Parser.Parts) (n : Nat) : Parser (List (Lambda Stmt)) := do
  let _ ← Parser.expect .leftBrace
  let ms ← Parser.methods parts n n
  let _ ← Parser.expect .rightBrace
  return ms

def classCode (className : Bytes) (inherits : Bool) (ms : List (Lambda Stmt)) : PlanM (List Line) := do
  let own ← PlanM.resolve className
  let c ← Stmt.codeOfMethods ms
  let drop ← PlanM.closeClass inherits
  return own.read :: c ++ [.instr .pop .none] ++ drop

theorem accepts_classBody (hf : Tracks parse parts n) (className : Bytes)
    (h : At c prev ts g (code :: codes)) (hn : 4 * ts.length ≤ n) :
    Accepts (classBody parse n className) c fun _ =>
      Produces 0 (methodList parts n) (Made (classCode className (g.classes.head? = some true)))
        ts g code codes := by
  have := hf.sketches
  have hend : Reports (modify fun c : Compiler => { c with classes := c.classes.tail } : CompileM Unit) :=
    .modify fun _ => rfl
  have hlast : Reports (do
      if (← get).classes.head? = some true then endScope
      modify fun c => { c with classes := c.classes.tail }) := by
    dsimp only
    infer_instance
  have hmethods : Sketches (methodItems parse n n) := by
    unfold methodItems
    infer_instance
  refine @Accepts.bind _ _ _ _ _ _ _ (fun _ => .bind fun _ => .bind fun _ => .bind fun _ => .bind fun _ => hlast)
    (accepts_read className h) fun _ c₁ ⟨own, g₁, hg₁, hfits₁, h₁⟩ => ?_
  refine @Accepts.bind _ _ _ _ _ _ _ (fun _ => .bind fun _ => .bind fun _ => .bind fun _ => hlast)
    (accepts_consume h₁ (by nofun)) fun _ c₂ ⟨t, ts₂, hts, _, h₂, hp₂⟩ => ?_
  subst hts
  rw [List.length_cons] at hn
  refine @Accepts.bind _ _ _ _ _ _ _ (fun _ => .bind fun _ => .bind fun _ => hlast)
    (accepts_methodItems hf n (by omega) h₂ (by omega))
    fun _ c₃ ⟨ms, ts₃, a, g₃, prev₃, hp₃, hlen₃, hg₃, hfits₃, h₃⟩ => ?_
  refine @Accepts.bind _ _ _ _ _ _ _ (fun _ => .bind fun _ => hlast)
    (accepts_consume h₃ (by nofun)) fun _ c₄ ⟨t₄, ts₄, hts, _, h₄, hp₄⟩ => ?_
  subst hts
  refine @Accepts.bind _ _ _ _ _ _ _ (fun _ => hlast) (accepts_emit .pop h₄) fun _ c₅ h₅ => ?_
  refine (accepts_closeClass h₅).weaken fun _ c₆ ⟨drop, g₆, hg₆, hfits₆, h₆⟩ => ?_
  have hclasses : g₃.classes = g.classes := by
    rw [(Stmt.steady_codeOfMethods ms).classes _ _ _ hg₃, (PlanM.Steady.resolve className).classes _ _ _ hg₁]
  refine ⟨ms, ts₄, own.read :: a ++ [.instr .pop .none] ++ drop, g₆, t₄, ?_, ?_, ?_,
    .append (.append (Code.fits_cons (hfits₁ _ (by simp)) hfits₃) (Code.fits_plain _)) hfits₆,
    h₆.recode (by simp)⟩
  · unfold methodList
    rw [bind_of hp₂, bind_of hp₃, bind_of hp₄]
    rfl
  · rw [List.length_cons] at hlen₃ ⊢
    omega
  · rw [hclasses] at hg₆
    show classCode className _ ms g = _
    unfold classCode
    rw [bind_of hg₁, bind_of hg₃, bind_of hg₆]
    rfl

set_option synthInstance.maxSize 1024 in
theorem accepts_classDeclaration (hf : Tracks parse parts n) (h : At c prev ts g (code :: codes))
    (hn : 4 * ts.length ≤ n) : Accepts (classDeclaration parse n) c fun _ =>
      Produces 0 (Parser.classDeclaration parts n) (Made Stmt.code) ts g code codes := by
  have := hf.sketches
  have hbody (className : Bytes) : Reports (classBody parse n className) := by
    have hend : Sketches (modify fun c : Compiler => { c with classes := c.classes.tail } :
        CompileM Unit) := .modify (fun _ => rfl) (fun _ => rfl) (fun _ => rfl) fun _ => rfl
    have hlast : Sketches (do
        if (← get).classes.head? = some true then endScope
        modify fun c => { c with classes := c.classes.tail }) := by
      dsimp only
      infer_instance
    have hmethods : Sketches (methodItems parse n n) := by
      unfold methodItems
      infer_instance
    exact (Sketches.bind fun _ => .bind fun _ => .bind fun _ => .bind fun _ => .bind fun _ => hlast).reports
  obtain ⟨l, ls, -, hl⟩ := h.level
  rw [classDeclaration_eq]
  refine .bind (accepts_consume h (by nofun)) fun _ c₁ ⟨t, ts₁, hts, hkind, h₁, hp₁⟩ => ?_
  have hname := ((hts ▸ h.stream).genuine.identifier hkind).not_hidden
  subst hts
  rw [List.length_cons] at hn
  refine .read (run_lexeme h₁) ?_
  refine .bind (accepts_nameConstant t.lexeme h₁) fun b c₂ ⟨k, g₂, hg₂, hk, hb, h₂⟩ => ?_
  subst hb
  refine .bind (accepts_declareVariable hname h₂) fun _ c₃ ⟨g₃, hg₃, h₃⟩ => ?_
  refine .bind (accepts_emitWith .class_ k h₃) fun _ c₄ h₄ => ?_
  refine .bind (accepts_defineVariable hk h₄) fun _ c₅ ⟨a, g₅, hg₅, hfits₅, h₅⟩ => ?_
  refine .bind (accepts_openClass hf t.lexeme h₅)
    fun _ c₆ ⟨s, ts₆, b, g₆, prev₆, hp₆, hlen₆, hg₆, hfits₆, h₆⟩ => ?_
  refine (accepts_classBody hf t.lexeme h₆ (by omega)).weaken
    fun _ c₇ ⟨ms, ts₇, d, g₇, prev₇, hp₇, hlen₇, hg₇, hfits₇, h₇⟩ => ?_
  obtain ⟨g₈, hg₈, h₈⟩ := at_enlist [⟨t.lexeme, s, ms⟩] h₇
  refine ⟨.class_ t.lexeme s ms, ts₇, .mark l.locals.length :: .instr .class_ (.byte k) :: a ++ b ++ d, g₈,
    prev₇, ?_, ?_, ?_, .append (.append (Code.fits_cons trivial (Code.fits_cons hk hfits₅)) hfits₆) hfits₇,
    h₈.recode (by simp [Line.bytes])⟩
  · have hplan : Parser.classDeclaration parts n = (do
        let name := (← Parser.expect .identifier).lexeme
        let superclass ← superclassName
        let ms ← methodList parts n
        return .class_ name superclass ms) := by
      unfold Parser.classDeclaration superclassName methodList
      simp only [bind_assoc, pure_bind]
      refine bind_congr fun t => bind_congr fun b => ?_
      cases b <;> simp
    rw [hplan, bind_of hp₁, bind_of hp₆, bind_of hp₇]
    rfl
  · rw [List.length_cons]
    omega
  · show Stmt.code _ g = _
    have hhead : decide (g₆.classes.head? = some true) = s.isSome := by
      rw [PlanM.classes_openClass hg₆]
      cases s <;> rfl
    rw [hhead] at hg₇
    have hplan : Stmt.code (.class_ t.lexeme s ms) = (do
        let l ← PlanM.level
        let k ← PlanM.constant (.string t.lexeme)
        PlanM.declare t.lexeme
        let a ← PlanM.define k
        let b ← PlanM.openClass t.lexeme s
        let d ← classCode t.lexeme s.isSome ms
        PlanM.enlist [⟨t.lexeme, s, ms⟩]
        return .mark l.locals.length :: .instr .class_ (.byte k) :: a ++ b ++ d) := by
      rw [Stmt.code]
      unfold classCode
      simp
    rw [hplan, bind_of hl, bind_of hg₂, bind_of hg₃, bind_of hg₅, bind_of hg₆, bind_of hg₇,
      bind_of hg₈]
    rfl

theorem accepts_declarationOrStatement (hf : Tracks parse parts n) (h : At c prev ts g (code :: codes))
    (hn : 4 * ts.length + 1 ≤ n) : Accepts (declarationOrStatement parse n) c fun _ =>
      Produces 1 (Parser.declaration parts n) (Made Stmt.code) ts g code codes := by
  have := hf.sketches
  have hless {t : Token} {ts' : List Token} (hts : ts = t :: ts') : 4 * ts'.length ≤ n := by
    rw [hts, List.length_cons] at hn
    omega
  refine Produces.choose nofun h (fun t ts' c' hts h' =>
    accepts_classDeclaration hf h' (hless hts)) ?_ (Nat.le_refl _)
  refine Produces.choose nofun h (fun t ts' c' hts h' =>
    accepts_funDeclaration hf h' (hless hts)) ?_ (Nat.le_refl _)
  refine Produces.choose nofun h (fun t ts' c' hts h' =>
    accepts_varDeclaration hf h' (hless hts)) ?_ (Nat.le_refl _)
  exact hf.statement h hn

theorem accepts_declaration (hf : Tracks parse parts n) (h : At c prev ts g (code :: codes))
    (hn : 4 * ts.length + 1 ≤ n) : Accepts (declaration parse n) c fun _ =>
      Produces 1 (Parser.declaration parts n) (Made Stmt.code) ts g code codes := by
  have := hf.sketches
  refine .bind (accepts_declarationOrStatement hf h hn) fun _ c₁ hprod => ?_
  obtain ⟨s, ts₁, a, g₁, prev₁, hp₁, hlen₁, hg₁, hfits₁, h₁⟩ := id hprod
  refine .read (rfl : (get : CompileM Compiler) c₁ = (c₁, c₁)) ?_
  rw [if_neg (by rw [h₁.calm]; exact Bool.false_ne_true)]
  exact .pure hprod

theorem tracks (n : Nat) : Tracks (CompileM.parse n) (Parser.upTo n) n := by
  induction n with
  | zero =>
    have hnone {ts : List Token} (hs : Stream ts) : ¬4 * ts.length ≤ 0 := by
      obtain _ | ⟨t, ts⟩ := ts
      · exact hs.elim
      · simp
    refine ⟨fun g => inferInstance, inferInstance, ?_, ?_, ?_⟩
    · intro precedence c prev ts g code codes _ h hn
      exact absurd hn (hnone h.stream)
    · intro c prev ts g code codes h hn
      exact absurd hn (by omega)
    · intro c prev ts g code codes h hn
      exact absurd hn (by omega)
  | succ n ih =>
    refine ⟨fun g => inferInstance, inferInstance, ?_, ?_, ?_⟩
    · intro precedence c prev ts g code codes hprec h hn
      exact accepts_parsePrecedence ih hprec h hn
    · intro c prev ts g code codes h hn
      exact accepts_statement ih h (by omega)
    · intro c prev ts g code codes h hn
      exact accepts_declaration ih h (by omega)

end Lox.CompileM

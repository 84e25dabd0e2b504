import Lox.Proofs.Verify.Classes

namespace Lox

open PlanM

variable {g g' : Plan} {lines : List Line}

theorem level_bind {α : Type} {f : Level → PlanM α} {a : α} (h : (level >>= f) g = some (a, g')) :
    ∃ l ls, g.levels = l :: ls ∧ f l g = some (a, g') := by
  obtain ⟨l, g₁, hl, hrest⟩ := bind_some h
  obtain ⟨rfl, ls, hls⟩ := level_some hl
  exact ⟨l, ls, hls, hrest⟩

theorem scope_bind {α : Type} {l : Level} {ls : List Level} {x : PlanM α} {a : α} (hl : g.levels = l :: ls)
    (h : (beginScope >>= fun _ => x) g = some (a, g')) :
    x { g with levels := { l with depth := l.depth + 1 } :: ls } = some (a, g') := by
  obtain ⟨u, g₂, hscope, hrest⟩ := bind_some h
  obtain ⟨l', ls', hl', rfl⟩ := modifyLevel_some hscope
  rw [hl] at hl'
  cases hl'
  exact hrest

theorem bodyCode_some {b : Bool} {m : PlanM (List Line)} (h : bodyCode b m g = some (lines, g')) :
    b = false ∧ m g = some (lines, g') := by
  unfold bodyCode at h
  split at h
  · cases h
  · rename_i hb
    exact ⟨Bool.eq_false_iff.mpr hb, h⟩

theorem Expr.pushes_code? (e : Option Expr) {a : Option (List Line)} (h : Expr.code? e g = some (a, g'))
    (hg : g.Ready) : g.Grown g' ∧ ∀ b ∈ a, Pushes 1 g g' b := by
  cases e with
  | none =>
    cases h
    exact ⟨.refl hg.sound, nofun⟩
  | some e =>
    obtain ⟨b, g₁, hb, h⟩ := bind_some h
    cases h
    have hpushes := e.pushes_code hb hg
    refine ⟨hpushes.grown, fun c hc => ?_⟩
    cases hc
    exact hpushes

theorem runs_return {l : Level} {ls : List Level} {a : List Line} (hl : g.levels = l :: ls)
    (hg : g.Ready) (hsettled : g.Settled) (hgrown : g.Grown g')
    (ha : ∀ γ slots, Rooted slots → Suits γ slots g'.levels → ∀ e, Flows γ a ⟨slots, none⟩ e) :
    Runs 0 g g' a where
  adds := hgrown.adds
  idle h := h.grown hgrown.levels
  flows γ slots hsuits := by
    have hs := hg.sound
    have hbefore := hsuits.back hs hgrown
    rw [hl] at hs hbefore
    have hcovers := hbefore.covers fun v hv => hsettled l (by rw [hl]; rfl) v hv
    exact ha γ slots (rooted_of_covers hcovers hs.1) hsuits _

section

variable {g₁ g₂ g₃ : Plan} {a b c : List Line}

theorem runs_if (ha : Pushes 1 g g₁ a) (hb : Runs 0 g₁ g₂ b) (hc : Runs 0 g₂ g₃ c) :
    Runs 0 g g₃ (a ++ [.instr .jumpIfFalse (.short (Code.size b + 4)), .instr .pop .none] ++ b ++
      [.instr .jump (.short (1 + Code.size c)), .instr .pop .none] ++ c) where
  adds := ((ha.grown.trans hb.adds.grown_of_zero).trans hc.adds.grown_of_zero).adds
  idle h := hc.idle (hb.idle (h.grown ha.grown.levels))
  flows γ slots hsuits := by
    have hsuits₂ := hsuits.back hb.adds.sound hc.adds.grown_of_zero
    have hsuits₁ := hsuits₂.back ha.grown.sound hb.adds.grown_of_zero
    have hpop : Flows γ [.instr .pop .none] ⟨{} :: slots, none⟩ (some ⟨slots, none⟩) := .effect .pop
    have hways := Flows.branch (by simp) (hpop.append (hb.flows γ slots hsuits₂))
      (hpop.append (hc.flows γ slots hsuits))
    have hall := (ha.flows γ slots hsuits₁ [] nofun).append hways
    have hsize : 1 + Code.size b + 3 = Code.size b + 4 := by omega
    simpa [Line.size, Operand.size, hsize] using hall

theorem flows_loop {γ : Signature} {slots : List Slot} {a b : Option (List Line)} {c : List Line}
    (ha : ∀ x ∈ a, Pushes 1 g g₁ x) (hga : g.Grown g₁) (hb : ∀ x ∈ b, Pushes 1 g₁ g₂ x) (hgb : g₁.Grown g₂)
    (hc : Runs 0 g₂ g₃ c) (hsuits : Suits γ slots g₃.levels) :
    Flows γ (loopCode a b c) ⟨slots, none⟩ (some ⟨slots, none⟩) := by
  have hsuits₂ := hsuits.back hgb.sound hc.adds.grown_of_zero
  have hsuits₁ := hsuits₂.back hga.sound hgb
  exact .loop (fun x hx => (ha x hx).flows γ slots hsuits₁ [] nofun)
    (fun x hx => (hb x hx).flows γ slots hsuits₂ [] nofun) (hc.flows γ slots hsuits)

end

theorem runs_scope {l : Level} {ls : List Level} {n : Nat} {g₂ g₃ : Plan} {a drop : List Line}
    (hl : g.levels = l :: ls) (hg : g.Ready) (hsettled : g.Settled)
    (ha : Runs n { g with levels := { l with depth := l.depth + 1 } :: ls } g₂ a)
    (hend : endScope g₂ = some (drop, g₃)) : Runs 0 g g₃ (a ++ drop) := by
  obtain ⟨hgrown, hends⟩ := endScope_meets hl hg.sound hsettled ha.adds hend
  refine ⟨hgrown.adds, fun h => h.grown hgrown.levels, fun γ slots hsuits => ?_⟩
  obtain ⟨hslots, news, hnews, hsuits₂, hdrop⟩ := hends γ slots hsuits
  have hbody := ha.flows γ _ hsuits₂
  rw [← hnews, List.drop_left] at hbody
  exact hbody.append (hdrop slots none hslots)

theorem ready_deeper {l : Level} {ls : List Level} (hl : g.levels = l :: ls) (hg : g.Ready)
    (hsettled : g.Settled) : Plan.Ready { g with levels := { l with depth := l.depth + 1 } :: ls } ∧
      Plan.Settled { g with levels := { l with depth := l.depth + 1 } :: ls } := by
  refine ⟨⟨⟨sound_deeper (hl ▸ hg.sound), fun hc => ?_⟩, fun q hq v hv => ?_⟩, fun q hq v hv => ?_⟩
  · obtain ⟨q, hq, hsuper⟩ := hg.super hc
    rw [hl] at hq
    rcases List.mem_cons.mp hq with rfl | hq
    · exact ⟨_, .head _, hsuper⟩
    · exact ⟨q, .tail _ hq, hsuper⟩
  · cases hq
    exact hg.idle l (by rw [hl]; rfl) v hv
  · cases hq
    exact hsettled l (by rw [hl]; rfl) v hv

theorem idle_initialized {l : Level} {ls : List Level} (hl : g.levels = l :: ls) (h : g.Idle) :
    Plan.Idle { g with levels := initialized l :: ls } := by
  intro q hq v hv
  cases hq
  have hnames : ∀ u ∈ l.locals, u.name ≠ "super" := h l (by rw [hl]; rfl)
  simp only [initialized] at hv
  split at hv
  · rename_i u rest hlocals
    rw [hlocals] at hnames
    rcases List.mem_cons.mp hv with rfl | hv
    · exact hnames u (.head _)
    · exact hnames v (.tail _ hv)
  · cases hv

theorem runs_var {l : Level} {ls : List Level} {name : Bytes} {k : Nat} {g₁ g₂ g₃ : Plan} {a b : List Line}
    (hl : g.levels = l :: ls) (hg : g.Ready) (hdeclare : declareNamed name g = some (k, g₁))
    (ha : g₁.Ready → Pushes 1 g₁ g₂ a) (hdefine : define k g₂ = some (b, g₃)) :
    ∃ n, Runs n g g₃ (a ++ b) := by
  obtain ⟨hname, q, qs, hq, hcases⟩ := declareNamed_some hdeclare
  rw [hl] at hq
  cases hq
  rcases hcases with ⟨hzero, hk⟩ | ⟨hdeep, rfl, -, rfl⟩
  · -- a global
    obtain ⟨hgrown, hconst⟩ := names_of_constant hk hg.sound
    have hpushes := ha (hg.grown hgrown)
    obtain ⟨q, qs, hq, hcases⟩ := define_some hdefine
    have hdepth : q.depth = l.depth := by
      have hlevels := (hgrown.trans hpushes.grown).levels
      rw [hl, hq] at hlevels
      exact (List.forall₂_cons.mp hlevels).1.depth
    rcases hcases with ⟨-, rfl, rfl⟩ | ⟨hpos, -⟩
    · refine ⟨0, (hpushes.runs fun γ slots hsuits => ?_).earlier hgrown⟩
      exact .effect (.defineGlobal (hconst γ slots (hsuits.back hgrown.sound hpushes.grown)))
    · omega
  · -- a local
    have hs := hg.sound
    rw [hl] at hs
    have hready : Plan.Ready { g with levels := { l with locals := ⟨name, none, false⟩ :: l.locals } :: ls } := by
      refine ⟨⟨sound_pending name hs hdeep, fun hc => ?_⟩, fun q hq v hv => ?_⟩
      · obtain ⟨q, hq, v, hv, hsuper⟩ := hg.super hc
        rw [hl] at hq
        rcases List.mem_cons.mp hq with rfl | hq
        · exact ⟨_, .head _, v, .tail _ hv, hsuper⟩
        · exact ⟨q, .tail _ hq, v, hv, hsuper⟩
      · cases hq
        rcases List.mem_cons.mp hv with rfl | hv
        · exact ne_super hname
        · exact hg.idle l (by rw [hl]; rfl) v hv
    have hpushes := ha hready
    obtain ⟨q, qs, hq, hcases⟩ := define_some hdefine
    have hdepth : q.depth = l.depth := by
      have hlevels := hpushes.grown.levels
      rw [hq] at hlevels
      exact (List.forall₂_cons.mp hlevels).1.depth
    rcases hcases with ⟨hzero, -⟩ | ⟨-, rfl, rfl⟩
    · omega
    · obtain ⟨hadds, hinit⟩ := initialized_meets name hl hg.sound hdeep hpushes.grown hq
      refine ⟨1, hadds, fun _ => idle_initialized hq (hready.idle.grown hpushes.grown.levels), fun γ slots hsuits => ?_⟩
      obtain ⟨x, rest, rfl, hcontent, hsuits'⟩ := hinit γ slots hsuits
      rw [content_any hname] at hcontent
      rw [List.append_nil]
      have hvalue := hpushes.flows γ rest hsuits' [] nofun
      exact hvalue.leave ⟨.cons ⟨.inl hcontent.symm, nofun⟩ (forall₂_refl .refl _), Shape.known_refl _⟩

theorem runs_fun {l : Level} {ls : List Level} {name : Bytes} {m : Lambda Stmt} {k : Nat} {u : Unit}
    {g₁ g₂ g₃ g₄ : Plan} {a b : List Line} (hl : g.levels = l :: ls) (hg : g.Ready)
    (hdeclare : declareNamed name g = some (k, g₁)) (hinit : initialize_ g₁ = some (u, g₂))
    (ha : g₂.Open → Makes .function m g₂ g₃ a) (hdefine : define k g₃ = some (b, g₄)) :
    ∃ n, Runs n g g₄ (a ++ b) := by
  obtain ⟨hname, q, qs, hq, hcases⟩ := declareNamed_some hdeclare
  rw [hl] at hq
  cases hq
  rcases hcases with ⟨hzero, hk⟩ | ⟨hdeep, rfl, -, rfl⟩
  · -- a global
    obtain ⟨hgrown, hconst⟩ := names_of_constant hk hg.sound
    have hdepth {q : Level} {qs : List Level} {p : Plan} (hp : g.Grown p) (hq : p.levels = q :: qs) :
        q.depth = 0 := by
      have hlevels := hp.levels
      rw [hl, hq] at hlevels
      exact (List.forall₂_cons.mp hlevels).1.depth.trans hzero
    obtain ⟨q, qs, hq, ⟨-, rfl⟩ | ⟨hpos, -⟩⟩ := initialize_some hinit
    · have hmakes := ha (hg.grown hgrown).toOpen
      have hidle := (hg.idle.grown hgrown.levels).grown hmakes.grown.levels
      obtain ⟨q', qs', hq', ⟨-, rfl, rfl⟩ | ⟨hpos, -⟩⟩ := define_some hdefine
      · refine ⟨0, (hgrown.trans hmakes.grown).adds, fun _ => hidle, fun γ slots hsuits => ?_⟩
        obtain ⟨j, f, rfl, -, -, hclosure⟩ := hmakes.closure
        obtain ⟨hj, hprovides⟩ := hclosure γ slots none hsuits (by simpa using Plan.idle_iff.mp hidle)
        have hmake : Flows γ [.instr .closure (.closure j f.origins)] ⟨slots, none⟩
            (some ⟨{} :: slots, none⟩) :=
          .effect (.closure hj (hprovides.imp fun o b h => h.alike (forall₂_refl .refl _) [{}]))
        exact hmake.append (.effect (.defineGlobal
          (hconst γ slots (hsuits.back hgrown.sound hmakes.grown))))
      · rw [hdepth (hgrown.trans hmakes.grown) hq'] at hpos
        cases hpos
    · rw [hdepth hgrown hq] at hpos
      cases hpos
  · -- a local
    have hs := hg.sound
    rw [hl] at hs
    obtain ⟨q, qs, hq, ⟨hzero, -⟩ | ⟨-, rfl⟩⟩ := initialize_some hinit
    · cases hq
      exact absurd hzero (Nat.ne_of_gt hdeep)
    cases hq
    obtain ⟨hadds, hinitial⟩ := initialized_meets name hl hg.sound hdeep
      (.refl (sound_pending name hs hdeep)) rfl
    have hmakes := ha (hg.toOpen.adds hadds)
    have hidle : g₃.Idle := by
      refine Plan.Idle.grown (idle_initialized (g := { g with levels := _ :: ls }) rfl fun q hq v hv => ?_)
        hmakes.grown.levels
      cases hq
      rcases List.mem_cons.mp hv with rfl | hv
      · exact ne_super hname
      · exact hg.idle l (by rw [hl]; rfl) v hv
    have hall := hadds.trans hmakes.grown.adds
    obtain ⟨q, qs, hq, hcases⟩ := define_some hdefine
    have hdepth : q.depth = l.depth := by
      obtain ⟨q', qs', hq', hgrown, -⟩ := hall.levels hl
      rw [hq] at hq'
      cases hq'
      exact hgrown.depth
    rcases hcases with ⟨hzero, -⟩ | ⟨-, rfl, rfl⟩
    · omega
    rw [Nat.zero_add] at hall
    have hsame : ({ g₃ with levels := initialized q :: qs } : Plan) = g₃ := by
      rw [initialized_adds hall hq, ← hq]
    rw [hsame, List.append_nil]
    refine ⟨1, hall, fun _ => hidle, fun γ slots hsuits => ?_⟩
    obtain ⟨x, rest, rfl, hcontent, -⟩ := hinitial γ slots (hsuits.back hadds.sound hmakes.grown)
    rw [content_any hname] at hcontent
    obtain ⟨xc, xh⟩ := x
    cases hcontent
    obtain ⟨j, f, rfl, -, -, hclosure⟩ := hmakes.closure
    obtain ⟨hj, hprovides⟩ := hclosure γ _ none hsuits (by simpa using Plan.idle_iff.mp hidle)
    exact .effect (.closure hj hprovides)

theorem runs_class {name : Bytes} {superclass : Option Bytes} {ms : List (Lambda Stmt)} {k : Nat} {u v : Unit}
    {own : Place} {g₁ g₂ g₃ g₄ g₅ g₆ g₇ : Plan} {a b c drop : List Line} (hg : g.Ready) (hsettled : g.Settled)
    (hk : constant (.string name) g = some (k, g₁)) (hdeclare : declare name g₁ = some (u, g₂))
    (hdefine : define k g₂ = some (a, g₃)) (hopen : openClass name superclass g₃ = some (b, g₄))
    (hown : resolve name g₄ = some (own, g₅)) (hmethods : g₅.Open → Methods ms g₅ g₆ c)
    (hclose : closeClass superclass.isSome g₆ = some (drop, g₇)) (hclasses : g₇.classes = g.classes)
    (henlist : enlist [⟨name, superclass, ms⟩] g₇ = some (v, g')) :
    ∃ n, Runs n g g' (.instr .class_ (.byte k) :: a ++ b ++ own.read :: c ++ [.instr .pop .none] ++ drop) := by
  let body : ClassBody := ⟨name, superclass, ms⟩
  have hnamed : constant (.string body.name) g = some (k, g₁) := hk
  obtain ⟨n, hadds, hidle, hbegin⟩ := class_begins hg.sound hnamed hdeclare hdefine
  have hname := (declare_some hdeclare).1
  have hcompletes : Completes body g₃ g₇ (b ++ own.read :: c ++ [Line.instr .pop .none] ++ drop) := by
    cases superclass with
    | none => exact completes_plain hadds.sound (hsettled.adds hadds) (hidle hg.idle) hname hopen hown hmethods hclose
    | some s => exact completes_inherits hadds.sound (hsettled.adds hadds) hname hopen hown hmethods hclose
  obtain ⟨hlevels, hsound, hflows⟩ := hcompletes
  have hclasses₃ : g₃.classes = g.classes := by
    have := hadds.grown.classes
    exact this
  have hgrown : g₃.Grown g₇ := ⟨hlevels, hclasses.trans hclasses₃.symm, hsound⟩
  obtain ⟨hgrown', hdeclared⟩ := enlist_meets henlist hsound
  have hall := hadds.trans (hgrown.trans hgrown').adds
  rw [Nat.zero_add] at hall
  refine ⟨n, hall, fun h => (hidle h).grown (hgrown.trans hgrown').levels, fun γ slots hsuits => ?_⟩
  have hsuits₇ := hsuits.back hsound hgrown'
  have hbody : body ∈ γ.classes := by
    obtain ⟨l, ls, hl, ⟨-, -, hlisted⟩, -⟩ := hsuits
    exact hlisted (hdeclared l (by rw [hl]; rfl) (.head _))
  obtain ⟨base, d, hwithin, halike, hcalm, hbegun, hholds, hfirst⟩ :=
    hbegin hg.idle γ slots (hsuits₇.back hadds.sound hgrown) hbody
  have hrest := hflows γ slots hsuits₇ base d hwithin halike hcalm hbegun hholds
  have := hfirst.append hrest
  simpa using this

def Stmt.RunsCode (s : Stmt) : Prop :=
  ∀ ⦃g g' : Plan⦄ ⦃lines : List Line⦄, s.code g = some (lines, g') → g.Ready → g.Settled →
    ∃ n, (s.isDeclaration = false → n = 0) ∧ Runs n g g' lines

def Stmt.RunsCodeOfAll (ss : List Stmt) : Prop :=
  ∀ ⦃g g' : Plan⦄ ⦃lines : List Line⦄, Stmt.codeOfAll ss g = some (lines, g') → g.Ready → g.Settled →
    ∃ n, Runs n g g' lines

def Lambda.MakesCode (kind : FunctionKind) (f : Lambda Stmt) : Prop :=
  ∀ ⦃g g' : Plan⦄ ⦃lines : List Line⦄, Stmt.codeOfFunction kind f g = some (lines, g') → g.Open →
    Makes kind f g g' lines

def Stmt.MakesCodeOfMethods (fs : List (Lambda Stmt)) : Prop :=
  ∀ ⦃g g' : Plan⦄ ⦃lines : List Line⦄, Stmt.codeOfMethods fs g = some (lines, g') → g.Open → Methods fs g g' lines

section

variable {then_ else_ initializer body : Stmt} {f : Lambda Stmt} {methods : List (Lambda Stmt)}

theorem Stmt.runsCode_expression (e : Expr) : Stmt.RunsCode (.expression e) := by
  intro g g' lines h hg hsettled
  have hs := hg.sound
  rw [Stmt.code] at h
  obtain ⟨l, ls, hls, h⟩ := level_bind h
  obtain ⟨a, g₂, ha, h⟩ := bind_some h
  cases h
  have hruns := (e.pushes_code ha hg).runs fun γ slots _ => .effect .pop
  exact ⟨0, fun _ => rfl, hruns.marked hls hs hsettled⟩

theorem Stmt.runsCode_print (e : Expr) : Stmt.RunsCode (.print e) := by
  intro g g' lines h hg hsettled
  have hs := hg.sound
  rw [Stmt.code] at h
  obtain ⟨l, ls, hls, h⟩ := level_bind h
  obtain ⟨a, g₂, ha, h⟩ := bind_some h
  cases h
  have hruns := (e.pushes_code ha hg).runs fun γ slots _ => .effect .print
  exact ⟨0, fun _ => rfl, hruns.marked hls hs hsettled⟩

theorem Stmt.runsCode_return (value : Option Expr) : Stmt.RunsCode (.return_ value) := by
  intro g g' lines h hg hsettled
  have hs := hg.sound
  cases value with
  | none =>
    rw [Stmt.code] at h
    obtain ⟨l, ls, hls, h⟩ := level_bind h
    split at h
    · cases h
    · rename_i hscript
      cases h
      refine ⟨0, fun _ => rfl, Runs.marked ?_ hls hs hsettled⟩
      refine runs_return hls hg hsettled (.refl hs) fun γ slots hslots hsuits e => ?_
      have hkind : γ.kind = l.kind := hsuits.kind hls
      rw [← hkind]
      refine flows_returnCode hslots fun h => ?_
      exact absurd (hkind.symm.trans h) hscript
  | some e =>
    rw [Stmt.code] at h
    obtain ⟨l, ls, hls, h⟩ := level_bind h
    split at h
    · cases h
    · rename_i hkind
      obtain ⟨a, g₂, ha, h⟩ := bind_some h
      cases h
      have hvalue := e.pushes_code ha hg
      refine ⟨0, fun _ => rfl, Runs.marked ?_ hls hs hsettled⟩
      refine runs_return hls hg hsettled hvalue.grown fun γ slots ⟨b, hfirst⟩ hsuits e => ?_
      obtain ⟨x, rest, rfl⟩ := List.exists_cons_of_ne_nil (l := slots) (by rintro rfl; cases hfirst)
      have hkind' : γ.kind = l.kind := (hsuits.back hs hvalue.grown).kind hls
      refine (hvalue.flows γ _ hsuits [] nofun).append (.return_ (fun h => ?_) fun h => ?_)
      · simp [← hkind', h] at hkind
      · simp [← hkind', h] at hkind

theorem Stmt.runsCode_if (condition : Expr) (ihthen_ : then_.RunsCode) (ihelse_ : else_.RunsCode) :
    Stmt.RunsCode (.if_ condition then_ else_) := by
  intro g g' lines h hg hsettled
  have hs := hg.sound
  rw [Stmt.code] at h
  obtain ⟨l, ls, hls, h⟩ := level_bind h
  obtain ⟨a, g₂, ha, h⟩ := bind_some h
  obtain ⟨b, g₃, hb, h⟩ := bind_some h
  obtain ⟨c, g₄, hc, h⟩ := bind_some h
  cases h
  obtain ⟨hthen, hb⟩ := bodyCode_some hb
  obtain ⟨helse, hc⟩ := bodyCode_some hc
  have hcondition := condition.pushes_code ha hg
  have hg₂ := hg.grown hcondition.grown
  have hsettled₂ := hsettled.grown hcondition.grown
  obtain ⟨n, hn, hruns⟩ := ihthen_ hb hg₂ hsettled₂
  obtain ⟨m, hm, hruns'⟩ := ihelse_ hc (hruns.ready hg₂) (hsettled₂.adds hruns.adds)
  cases hn hthen
  cases hm helse
  exact ⟨0, fun _ => rfl, (runs_if hcondition hruns hruns').marked hls hs hsettled⟩

theorem Stmt.runsCode_while (condition : Expr) (ihbody : body.RunsCode) : Stmt.RunsCode (.while_ condition body) := by
  intro g g' lines h hg hsettled
  have hs := hg.sound
  rw [Stmt.code] at h
  obtain ⟨l, ls, hls, h⟩ := level_bind h
  obtain ⟨a, g₂, ha, h⟩ := bind_some h
  obtain ⟨b, g₃, hb, h⟩ := bind_some h
  cases h
  obtain ⟨hbody, hb⟩ := bodyCode_some hb
  have hcondition := condition.pushes_code ha hg
  have hg₂ := hg.grown hcondition.grown
  obtain ⟨n, hn, hruns⟩ := ihbody hb hg₂ (hsettled.grown hcondition.grown)
  cases hn hbody
  refine ⟨0, fun _ => rfl, Runs.marked
      ⟨?_, fun h => hruns.idle (h.grown hcondition.grown.levels), fun γ slots hsuits => ?_⟩ hls hs hsettled⟩
  · exact (hcondition.grown.trans hruns.adds.grown_of_zero).adds
  · refine flows_loop (fun x hx => ?_) hcondition.grown nofun (.refl hg₂.sound) hruns hsuits
    cases hx
    exact hcondition

theorem Stmt.runsCode_for (condition increment : Option Expr) (ihinitializer : initializer.RunsCode)
    (ihbody : body.RunsCode) : Stmt.RunsCode (.for_ initializer condition increment body) := by
  intro g g' lines h hg hsettled
  have hs := hg.sound
  rw [Stmt.code] at h
  obtain ⟨l, ls, hls, h⟩ := level_bind h
  have h := scope_bind hls h
  obtain ⟨a, g₃, ha, h⟩ := bind_some h
  obtain ⟨b, g₄, hb, h⟩ := bind_some h
  obtain ⟨c, g₅, hc, h⟩ := bind_some h
  obtain ⟨d, g₆, hd, h⟩ := bind_some h
  obtain ⟨drop, g₇, hend, h⟩ := bind_some h
  cases h
  obtain ⟨hbody, hd⟩ := bodyCode_some hd
  obtain ⟨hg₂, hsettled₂⟩ := ready_deeper hls hg hsettled
  obtain ⟨n, -, hinit⟩ := ihinitializer ha hg₂ hsettled₂
  have hg₃ := hinit.ready hg₂
  obtain ⟨hgrown₄, hcondition⟩ := Expr.pushes_code? condition hb hg₃
  obtain ⟨hgrown₅, hincrement⟩ := Expr.pushes_code? increment hc (hg₃.grown hgrown₄)
  have hgrown := hgrown₄.trans hgrown₅
  obtain ⟨m, hm, hruns⟩ := ihbody hd (hg₃.grown hgrown)
    ((hsettled₂.adds hinit.adds).grown hgrown)
  cases hm hbody
  have hloop : Runs 0 g₃ g₆ (loopCode b c d) :=
    ⟨(hgrown.trans hruns.adds.grown_of_zero).adds, fun h => hruns.idle (h.grown hgrown.levels), fun γ slots hsuits =>
      flows_loop hcondition hgrown₄ hincrement hgrown₅ hruns hsuits⟩
  have hall := runs_scope hls hg hsettled (hinit.append hloop) hend
  exact ⟨0, fun _ => rfl, hall.marked hls hs hsettled⟩

theorem Stmt.runsCode_block {body : List Stmt} (ihbody : Stmt.RunsCodeOfAll body) : Stmt.RunsCode (.block body) := by
  intro g g' lines h hg hsettled
  have hs := hg.sound
  rw [Stmt.code] at h
  obtain ⟨l, ls, hls, h⟩ := level_bind h
  have h := scope_bind hls h
  obtain ⟨a, g₃, ha, h⟩ := bind_some h
  obtain ⟨drop, g₄, hend, h⟩ := bind_some h
  cases h
  obtain ⟨hg₂, hsettled₂⟩ := ready_deeper hls hg hsettled
  obtain ⟨n, hruns⟩ := ihbody ha hg₂ hsettled₂
  exact ⟨0, fun _ => rfl, (runs_scope hls hg hsettled hruns hend).marked hls hs hsettled⟩

theorem Stmt.runsCode_var (name : Bytes) (value : Option Expr) : Stmt.RunsCode (.var_ name value) := by
  intro g g' lines h hg hsettled
  have hs := hg.sound
  rw [Stmt.code] at h
  obtain ⟨l, ls, hls, h⟩ := level_bind h
  obtain ⟨k, g₂, hk, h⟩ := bind_some h
  cases value with
  | none =>
    obtain ⟨a, g₃, ha, hrest⟩ := bind_some h
    obtain ⟨b, g₄, hb, hlines⟩ := bind_some hrest
    cases ha
    cases hlines
    obtain ⟨n, hruns⟩ := runs_var hls hg hk (fun hg₂ => pushes_literal (.head _) hg₂.sound) hb
    exact ⟨n, nofun, hruns.marked hls hs hsettled⟩
  | some e =>
    obtain ⟨a, g₃, ha, h⟩ := bind_some h
    obtain ⟨b, g₄, hb, h⟩ := bind_some h
    cases h
    obtain ⟨n, hruns⟩ := runs_var hls hg hk (fun hg₂ => e.pushes_code ha hg₂) hb
    exact ⟨n, nofun, hruns.marked hls hs hsettled⟩

theorem Stmt.runsCode_fun (ihf : f.MakesCode .function) : Stmt.RunsCode (.fun_ f) := by
  intro g g' lines h hg hsettled
  have hs := hg.sound
  rw [Stmt.code] at h
  obtain ⟨l, ls, hls, h⟩ := level_bind h
  obtain ⟨k, g₂, hk, h⟩ := bind_some h
  obtain ⟨u, g₃, hinit, h⟩ := bind_some h
  obtain ⟨a, g₄, ha, h⟩ := bind_some h
  obtain ⟨b, g₅, hb, h⟩ := bind_some h
  cases h
  obtain ⟨n, hruns⟩ := runs_fun hls hg hk hinit (ihf ha) hb
  exact ⟨n, nofun, hruns.marked hls hs hsettled⟩

theorem Stmt.runsCode_class (name : Bytes) (superclass : Option Bytes) (ihmethods : Stmt.MakesCodeOfMethods methods) :
    Stmt.RunsCode (.class_ name superclass methods) := by
  intro g g' lines h hg hsettled
  have hs := hg.sound
  have hclasses := (Stmt.steady_code (.class_ name superclass methods)).classes _ _ _ h
  rw [Stmt.code] at h
  obtain ⟨l, ls, hls, h⟩ := level_bind h
  obtain ⟨k, g₂, hk, h⟩ := bind_some h
  obtain ⟨u, g₃, hdeclare, h⟩ := bind_some h
  obtain ⟨a, g₄, hdefine, h⟩ := bind_some h
  obtain ⟨b, g₅, hopen, h⟩ := bind_some h
  obtain ⟨own, g₆, hown, h⟩ := bind_some h
  obtain ⟨c, g₇, hmethods, h⟩ := bind_some h
  obtain ⟨drop, g₈, hclose, h⟩ := bind_some h
  obtain ⟨v, g₉, henlist, h⟩ := bind_some h
  cases h
  obtain ⟨n, hruns⟩ := runs_class hg hsettled hk hdeclare hdefine hopen hown
    (ihmethods hmethods) hclose
    (((Steady.enlist _).classes _ _ _ henlist).symm.trans hclasses) henlist
  have := hruns.marked hls hs hsettled
  exact ⟨n, nofun, by simpa using this⟩

end

mutual

theorem Stmt.runs_code (s : Stmt) : s.RunsCode := by
  cases s with
  | skip =>
    intro g g' lines h hg hsettled
    rw [Stmt.code] at h
    cases h
    exact ⟨0, fun _ => rfl, .nil hg.sound⟩
  | expression e => exact Stmt.runsCode_expression e
  | print e => exact Stmt.runsCode_print e
  | return_ value => exact Stmt.runsCode_return value
  | if_ condition then_ else_ => exact Stmt.runsCode_if condition then_.runs_code else_.runs_code
  | while_ condition body => exact Stmt.runsCode_while condition body.runs_code
  | for_ initializer condition increment body =>
    exact Stmt.runsCode_for condition increment initializer.runs_code body.runs_code
  | block body => exact Stmt.runsCode_block (Stmt.runs_codeOfAll body)
  | var_ name value => exact Stmt.runsCode_var name value
  | fun_ f => exact Stmt.runsCode_fun (Stmt.makes_codeOfFunction .function f nofun)
  | class_ name superclass methods => exact Stmt.runsCode_class name superclass (Stmt.methods_codeOfMethods methods)

theorem Stmt.runs_codeOfAll (ss : List Stmt) : Stmt.RunsCodeOfAll ss := by
  intro g g' lines h hg hsettled
  cases ss with
  | nil =>
    rw [Stmt.codeOfAll] at h
    cases h
    exact ⟨0, .nil hg.sound⟩
  | cons s ss =>
    rw [Stmt.codeOfAll] at h
    obtain ⟨a, g₁, ha, h⟩ := bind_some h
    obtain ⟨b, g₂, hb, h⟩ := bind_some h
    cases h
    obtain ⟨n, -, hfirst⟩ := s.runs_code ha hg hsettled
    obtain ⟨m, hrest⟩ := Stmt.runs_codeOfAll ss hb (hfirst.ready hg) (hsettled.adds hfirst.adds)
    exact ⟨m + n, hfirst.append hrest⟩

theorem Stmt.makes_codeOfFunction (kind : FunctionKind) (f : Lambda Stmt) (hscript : kind ≠ .script) :
    f.MakesCode kind := by
  intro g g' lines h hg
  obtain ⟨name, parameters, body⟩ := f
  have hcode := h
  rw [Stmt.codeOfFunction] at h
  obtain ⟨u, g₁, hbegin, h⟩ := bind_some h
  obtain ⟨u, g₂, hscope, h⟩ := bind_some h
  obtain ⟨u, g₃, hparameters, h⟩ := bind_some h
  obtain ⟨a, g₄, ha, h⟩ := bind_some h
  obtain ⟨q, g₅, hend, h⟩ := bind_some h
  obtain ⟨v, g₆, henlist, h⟩ := bind_some h
  obtain ⟨k, g₇, hk, h⟩ := bind_some h
  cases h
  have hopened : Opened kind (some name) parameters g g₃ := opened_function hg.sound (u := u) (by
    rw [bind_of hbegin, bind_of hscope]
    exact hparameters)
  obtain ⟨n, hruns⟩ := Stmt.runs_codeOfAll body ha (hopened.ready hg) hopened.settled
  exact makes_function hopened hruns hend henlist hk hcode hscript

theorem Stmt.methods_codeOfMethods (fs : List (Lambda Stmt)) : Stmt.MakesCodeOfMethods fs := by
  intro g g' lines h hg
  cases fs with
  | nil =>
    rw [Stmt.codeOfMethods] at h
    cases h
    exact .nil hg.sound
  | cons f fs =>
    obtain ⟨name, parameters, body⟩ := f
    rw [Stmt.codeOfMethods] at h
    obtain ⟨k, g₁, hk, h⟩ := bind_some h
    obtain ⟨a, g₂, ha, h⟩ := bind_some h
    obtain ⟨b, g₃, hb, h⟩ := bind_some h
    cases h
    have hgrown := (names_of_constant hk hg.sound).1
    have hmakes := Stmt.makes_codeOfFunction _ ⟨name, parameters, body⟩ (by split <;> nofun) ha (hg.grown hgrown)
    exact .cons hg.sound hk hmakes (fun hinit => if_pos hinit)
      (Stmt.methods_codeOfMethods fs hb ((hg.grown hgrown).grown hmakes.grown))

end

theorem opened_script :
    Opened .script none [] {} ⟨[{ kind := .script, locals := [⟨"", some 0, false⟩] }], []⟩ := by
  refine ⟨⟨_, rfl, rfl, rfl, rfl, [], _, rfl, rfl, nofun, by decide⟩, rfl, ⟨⟨nofun, fun v hv d hd => ?_, fun _ => ⟨rfl,
    fun v hv => ?_, rfl⟩, ⟨_, rfl, by decide⟩, nofun⟩, trivial⟩, fun l hl v hv => ?_⟩
  · rw [List.mem_singleton.mp hv] at hd
    cases hd
    exact Nat.le_refl _
  · rw [List.mem_singleton.mp hv]
  · cases hl
    rw [List.mem_singleton.mp hv]
    rfl

theorem scriptListing_verified {body : List Stmt} {f : Listing Item} (h : scriptListing body = some f) :
    f.Verified ∧ f.arity = 0 ∧ f.origins = [] := by
  obtain ⟨⟨q, g⟩, hmake, hq⟩ := Option.bind_eq_some_iff.mp h
  cases hq
  obtain ⟨u, g₁, hbegin, h₁⟩ := bind_some hmake
  obtain ⟨lines, g₂, hbody, hend⟩ := bind_some h₁
  cases hbegin
  have hopened := opened_script
  obtain ⟨n, hruns⟩ := Stmt.runs_codeOfAll body hbody (hopened.ready ⟨trivial, nofun⟩) hopened.settled
  obtain ⟨l, ls, hl, hgrown, hls⟩ := hruns.adds.levels rfl
  obtain ⟨hverified, -, -, -, -, l', ls', hl', -, horigins, -⟩ := endFunction_meets hopened hruns hend
    fun _ l hl => by cases hl; rfl
  obtain ⟨l'', ls'', hl'', rfl, rfl⟩ := endFunction_some hend
  rw [hl] at hl' hl''
  cases hl'
  cases hl''
  cases hls
  refine ⟨hverified, hgrown.arity, List.eq_nil_iff_forall_not_mem.mpr fun o ho => ?_⟩
  have hsound := hruns.adds.sound
  rw [hl] at hsound
  exact (hsound.1.origins o ho).valid

end Lox

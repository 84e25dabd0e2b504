import Lox.Proofs.Verify.Declarations

namespace Lox

def Holds (name : Bytes) (g : Plan) (base : List Slot) (d : Underway) : Prop :=
  (∃ (l : Level) (ls : List Level) (extra : List Local) (v : Local) (kept : List Local)
    (temps : List Slot) (h : Bool) (rest : List Slot), g.levels = l :: ls ∧
    l.locals = extra ++ v :: kept ∧ (∀ u ∈ extra, u.name = "super") ∧ v.name = name ∧ base = temps ++
        ⟨.own, h⟩ :: rest ∧
    rest.length = kept.length) ∨
  ∃ l : Level, g.levels = [l] ∧ (∀ v ∈ l.locals, v.name ∈ PlanM.hiddenNames) ∧ d.global = some name

structure Methods (ms : List (Lambda Stmt)) (g g' : Plan) (lines : List Line) : Prop where
  grown : g.Grown g'
  flows : ∀ γ slots, Suits γ slots g'.levels → ∀ base d, List.Forall₂ Slot.Alike base slots → d.stage ≠ .fresh →
    d.pending = false → d.todo = ms → (d.stage = .heir ↔ Inherits g'.levels) →
    (∀ a ∈ base, ∀ i, a.content ≠ .closure i) →
    Flows γ lines ⟨⟨.own, false⟩ :: base, some d⟩ (some ⟨⟨.own, false⟩ :: base, some { d with todo := [] }⟩)

namespace Methods

variable {g g' g₁ g₂ g₃ : Plan} {a b : List Line} {k : Nat} {m : Lambda Stmt} {ms : List (Lambda Stmt)}
    {kind : FunctionKind}

theorem nil (h : SoundLevels g.levels) : Methods [] g g [] where
  grown := .refl h
  flows _ _ _ _ _ _ _ _ htodo _ _ := .nil ⟨forall₂_refl .refl _, .some ⟨fun _ => id, .inl rfl, rfl, rfl, htodo.symm⟩⟩

theorem cons (hs : SoundLevels g.levels) (hk : PlanM.constant (.string m.name) g = some (k, g₁))
    (ha : PlanM.Makes kind m g₁ g₂ a) (hkind : m.name = ("init" : Bytes) → kind = .initializer)
    (hb : Methods ms g₂ g₃ b) : Methods (m :: ms) g g₃ (a ++ [.instr .method (.byte k)] ++ b) := by
  obtain ⟨hgrown, hname⟩ := names_of_constant hk hs
  refine ⟨(hgrown.trans ha.grown).trans hb.grown,
    fun γ slots hsuits base d hbase hfresh hpending htodo hheir hother => ?_⟩
  obtain ⟨j, f, rfl, rfl, hrenders, hclosure⟩ := ha.closure
  obtain ⟨hj, hprovides⟩ := hclosure γ slots (some d) (hsuits.back ha.grown.sound hb.grown) (by
    rw [← inherits_grown hb.grown.levels, ← hheir]
    simp)
  have hname' := hname γ slots (hsuits.back hgrown.sound (ha.grown.trans hb.grown))
  have hmake : Flows γ [.instr .closure (.closure j f.origins)] ⟨⟨.own, false⟩ :: base, some d⟩
      (some ⟨⟨.closure j, false⟩ :: ⟨.own, false⟩ :: base, some { d with pending := true }⟩) :=
    .effect (.body hj hpending (hprovides.imp fun o m h => h.alike hbase [⟨.closure j, false⟩, ⟨.own, false⟩]))
  exact (hmake.append (.effect (.method hname' hj hrenders hkind hfresh hpending htodo hother))).append
    (hb.flows γ slots hsuits base { d with todo := ms } hbase hfresh hpending rfl hheir hother)

end Methods

namespace Holds

variable {name : Bytes} {g g' : Plan} {base : List Slot} {d : Underway} {place : Place}

theorem grown (h : Holds name g base d) (hg : List.Forall₂ Level.Grown g.levels g'.levels) :
    Holds name g' base d := by
  rcases h with ⟨l, ls, extra, v, kept, temps, h, rest, hl, hlocals, hextra, hname, hbase, hrest⟩ |
    ⟨l, hl, hnames, hknown⟩
  · rw [hl] at hg
    generalize hl' : g'.levels = levels at hg
    cases hg with
    | @cons _ l' _ ls' hgrown _ =>
      have hforall := hgrown.locals
      rw [hlocals] at hforall
      generalize hlocals' : l'.locals = locals at hforall
      obtain ⟨hfirst, hlast⟩ := List.forall₂_take extra.length hforall,
        List.forall₂_drop extra.length hforall
      rw [List.take_left] at hfirst
      rw [List.drop_left] at hlast
      generalize hdrop : locals.drop extra.length = last at hlast
      cases hlast with
      | @cons _ v' _ kept' hv hkept =>
        refine .inl ⟨l', ls', locals.take extra.length, v', kept', temps, h, rest, hl', ?_, fun u hu => ?_,
          hv.name.trans hname, hbase, hrest.trans hkept.length_eq⟩
        · rw [hlocals', ← hdrop, List.take_append_drop]
        · obtain ⟨u', hu', hu''⟩ := forall₂_mem_right hfirst hu
          exact hu''.name.trans (hextra u' hu')
  · rw [hl] at hg
    generalize hl' : g'.levels = levels at hg
    cases hg with
    | @cons _ l' _ ls' hgrown hnil =>
      cases hnil
      refine .inr ⟨l', hl', fun v hv => ?_, hknown⟩
      obtain ⟨u, hu, hu'⟩ := forall₂_mem_right hgrown.locals hv
      rw [hu'.name]
      exact hnames u hu

theorem beneath {l l' : Level} {ls : List Level} {v : Local} (h : Holds name g base d)
    (hl : g.levels = l :: ls) (hl' : l'.locals = v :: l.locals) (hv : v.name = "super") (a : Slot)
    (classes : List Bool) : Holds name ⟨l' :: ls, classes⟩ (a :: base) d := by
  rcases h with ⟨q, qs, extra, u, kept, temps, h, rest, hq, hlocals, hextra, hname, hbase, hrest⟩ |
    ⟨q, hq, hnames, hknown⟩
  · rw [hl] at hq
    cases hq
    refine .inl ⟨l', ls, v :: extra, u, kept, a :: temps, h, rest, rfl, ?_, ?_, hname, ?_, hrest⟩
    · rw [hl', hlocals]
      rfl
    · exact List.forall_mem_cons.mpr ⟨hv, hextra⟩
    · rw [hbase]
      rfl
  · rw [hl] at hq
    cases hq
    refine .inr ⟨l', rfl, ?_, hknown⟩
    rw [hl']
    exact List.forall_mem_cons.mpr ⟨hv ▸ .head _, hnames⟩

theorem findLocal_hidden {locals : List Local} (hname : name ∉ PlanM.hiddenNames)
    (h : ∀ v ∈ locals, v.name ∈ PlanM.hiddenNames) : findLocal name locals = none := by
  cases hfind : findLocal name locals with
  | none => rfl
  | some r =>
    obtain ⟨slot, v⟩ := r
    obtain ⟨hv, hv'⟩ := findLocal_some hfind
    exact absurd (hv' ▸ h v (List.mem_reverse.mp (List.mem_of_getElem? hv))) hname

theorem findLocal_beneath {extra kept : List Local} {v : Local} (hextra : ∀ u ∈ extra, u.name = "super")
    (hname : name ≠ "super") (hv : v.name = name) :
    findLocal name (extra ++ v :: kept) = some (kept.length, v) := by
  induction extra with
  | nil => rw [List.nil_append, findLocal, if_pos hv]
  | cons u extra ih =>
    rw [List.cons_append, findLocal, if_neg, ih fun w hw => hextra w (.tail _ hw)]
    rw [hextra u (.head _)]
    exact fun h => hname h.symm

theorem reads (h : Holds name g base d) (hname : name ∉ PlanM.hiddenNames)
    (hr : PlanM.resolve name g = some (place, g')) (hs : SoundLevels g.levels) {γ : Signature}
    {slots : List Slot} (hsuits : Suits γ slots g'.levels) :
    Flows γ [place.read] ⟨base, some d⟩ (some ⟨⟨.own, false⟩ :: base, some d⟩) := by
  obtain ⟨q, qs, hq, hcases⟩ := PlanM.resolve_some hr
  rcases h with ⟨l, ls, extra, v, kept, temps, h, rest, hl, hlocals, hextra, hv, hbase, hrest⟩ |
    ⟨l, hl, hnames, hknown⟩
  · rw [hl] at hq
    cases hq
    have hfind : findLocal name (extra ++ v :: kept) = some (kept.length, v) :=
      findLocal_beneath hextra (PlanM.ne_super hname) hv
    rw [← hlocals] at hfind
    rcases hcases with ⟨n, u, hfind', -, rfl, -⟩ | ⟨hnone, -⟩ | ⟨hnone, -⟩
    · rw [hfind] at hfind'
      cases hfind'
      have hat : (temps ++ ⟨.own, h⟩ :: rest).reverse[kept.length]? = some ⟨.own, h⟩ := by
        rw [← hrest, List.reverse_append, List.reverse_cons, List.append_assoc,
          List.getElem?_append_right (by simp)]
        simp
      rw [hbase]
      exact .effect (.getLocal hat)
    · rw [hfind] at hnone
      cases hnone
    · rw [hfind] at hnone
      cases hnone
  · rw [hl] at hq
    cases hq
    rcases hcases with ⟨n, u, hfind', -⟩ | ⟨-, i, levels, hcap, -⟩ | ⟨-, k, levels, hcap, hk, rfl⟩
    · rw [findLocal_hidden hname hnames] at hfind'
      cases hfind'
    · rw [hl] at hcap
      cases hcap
    · obtain ⟨rfl, -⟩ := (findCapture_spec hcap hs).2.2.2 rfl
      exact .effect (.getGlobal ((PlanM.constant_meets hk hs nofun).2 γ slots hsuits) (.inr ⟨rfl, d, rfl, hknown⟩))

end Holds

namespace PlanM

variable {n k : Nat} {g g' g₁ g₂ g₃ g₄ g₅ g₆ g₇ : Plan} {l : Level} {ls : List Level}
  {a b c drop : List Line} {name : Bytes} {body : ClassBody} {ms : List (Lambda Stmt)} {own : Place} {u : Unit}

structure Begun (body : ClassBody) (d : Underway) : Prop where
  stage : d.stage = .fresh
  pending : d.pending = false
  todo : d.todo = body.methods
  body : d.body = body

theorem class_begins (hs : SoundLevels g.levels) (hk : constant (.string body.name) g = some (k, g₁))
    (hdeclare : declare body.name g₁ = some (u, g₂)) (hdefine : define k g₂ = some (a, g₃)) :
    ∃ n, g.Adds n g₃ ∧ (g.Idle → g₃.Idle) ∧ (g.Idle → ∀ γ slots, Suits γ slots g₃.levels → body ∈ γ.classes → ∃ base d,
      List.Forall₂ Slot.Within base slots ∧ List.Forall₂ Slot.Alike base slots ∧
      (∀ a ∈ base, a.Calm ∨ a.content = .own) ∧ Begun body d ∧ Holds body.name g₃ base d ∧
      Flows γ (.instr .class_ (.byte k) :: a) ⟨slots.drop n, none⟩ (some ⟨base, some d⟩)) := by
  obtain ⟨hgrown, hconst⟩ := names_of_constant hk hs
  obtain ⟨hname, l, ls, hl, ⟨hzero, rfl⟩ | ⟨hdeep, -, rfl⟩⟩ := declare_some hdeclare
  · -- a global
    obtain ⟨q, qs, hq, hcases⟩ := define_some hdefine
    rw [hl] at hq
    cases hq
    rcases hcases with ⟨-, rfl, rfl⟩ | ⟨hpos, -⟩
    · refine ⟨0, hgrown.adds, fun hidle => hidle.grown hgrown.levels, fun hidle γ slots hsuits hbody => ?_⟩
      have hcalm : ∀ a ∈ slots, a.Calm := hsuits.calm (hidle.grown hgrown.levels)
      refine ⟨slots, ⟨some body.name, .fresh, false, body, body.methods⟩, forall₂_refl .refl _, forall₂_refl .refl _,
        fun a ha => .inl (hcalm a ha), ⟨rfl, rfl, rfl, rfl⟩, .inr ?_, ?_⟩
      · have hsound := hgrown.sound
        rw [hl] at hsound
        obtain ⟨rfl, hnames, -⟩ := hsound.1.outside hzero
        exact ⟨l, hl, fun v hv => by rw [hnames v hv]; decide, rfl⟩
      · have hk' := hconst γ slots hsuits
        exact Flows.append (a := [_]) (.effect (.class_ hk' hbody hcalm)) (.effect (.defineClass hk'))
    · omega
  · -- a local
    obtain ⟨q, qs, hq, hcases⟩ := define_some hdefine
    cases hq
    rcases hcases with ⟨hzero, -⟩ | ⟨-, rfl, rfl⟩
    · exact absurd hzero (Nat.ne_of_gt hdeep)
    · have hs₁ := hgrown.sound
      have hpending : SoundLevels ({ l with locals := ⟨body.name, none, false⟩ :: l.locals } :: ls) :=
        sound_pending body.name (hl ▸ hs₁) hdeep
      obtain ⟨hadds, hinit⟩ := initialized_meets body.name hl hs₁ hdeep (.refl hpending) rfl
      refine ⟨1, hgrown.adds.trans hadds, fun hidle => ?_, fun hidle γ slots hsuits hbody => ?_⟩
      · have hidle₁ := hidle.grown hgrown.levels
        intro q hq v hv
        cases hq
        rcases List.mem_cons.mp hv with rfl | hv
        · exact ne_super hname
        · exact hidle₁ l (by rw [hl]; rfl) v hv
      obtain ⟨x, rest, rfl, hcontent, hsuits'⟩ := hinit γ slots hsuits
      rw [content_any hname] at hcontent
      obtain ⟨xc, xh⟩ := x
      cases hcontent
      have hsuits₁ := hsuits.before hs₁ hadds
      have hk' := hconst γ _ hsuits₁
      have hcalm : ∀ a ∈ rest, a.Calm := hsuits₁.calm (hidle.grown hgrown.levels)
      refine ⟨⟨.own, xh⟩ :: rest, ⟨none, .fresh, false, body, body.methods⟩,
        .cons ⟨.inr ⟨rfl, rfl⟩, id⟩ (forall₂_refl .refl _), .cons ⟨rfl, rfl⟩ (forall₂_refl .refl _),
        List.forall_mem_cons.mpr ⟨.inr rfl, fun a ha => .inl (hcalm a ha)⟩, ⟨rfl, rfl, rfl, rfl⟩, .inl ?_, ?_⟩
      · refine ⟨_, ls, [], _, l.locals, [], xh, rest, rfl, rfl, by decide, rfl, rfl, ?_⟩
        obtain ⟨q, qs, hq, -, -, pend, kept, hlocals, hpend, hcovers⟩ := hsuits
        cases hq
        cases pend with
        | nil =>
          simp only [initialized, List.nil_append] at hlocals
          subst hlocals
          exact Nat.succ.inj hcovers.length_eq
        | cons w pend =>
          have hdepth := hpend w (.head _)
          rw [← (List.cons.inj hlocals).1] at hdepth
          cases hdepth
      · have hclass : Flows γ [.instr .class_ (.byte k)] ⟨rest, none⟩
            (some ⟨⟨.own, false⟩ :: rest, some ⟨none, .fresh, false, body, body.methods⟩⟩) :=
          .effect (.class_ hk' hbody hcalm)
        exact hclass.leave ⟨.cons ⟨.refl _, by rintro ⟨⟩⟩ (forall₂_refl .refl _), Shape.known_refl _⟩

theorem Covers.ne_own {slots : List Slot} {locals : List Local} (h : Covers slots locals) :
    ∀ a ∈ slots, a.content ≠ .own := by
  intro a ha
  obtain ⟨v, -, hhouses⟩ := forall₂_mem_left h ha
  rw [hhouses.content, Local.content]
  cases Mark.ofName v.name <;> decide

def Completes (body : ClassBody) (g g' : Plan) (lines : List Line) : Prop :=
  List.Forall₂ Level.Grown g.levels g'.levels ∧ SoundLevels g'.levels ∧
    ∀ γ slots, Suits γ slots g'.levels → ∀ base d, List.Forall₂ Slot.Within base slots →
      List.Forall₂ Slot.Alike base slots → (∀ a ∈ base, a.Calm ∨ a.content = .own) → Begun body d →
      Holds body.name g base d → Flows γ lines ⟨base, some d⟩ (some ⟨slots, none⟩)

theorem completes_plain (hs : SoundLevels g.levels) (hsettled : g.Settled) (hidle : g.Idle) (hname : name ∉ hiddenNames)
    (hopen : openClass name none g = some (b, g₁)) (hown : resolve name g₁ = some (own, g₂))
    (hmethods : g₂.Open → Methods ms g₂ g₃ c) (hclose : closeClass false g₃ = some (drop, g₄)) :
    Completes ⟨name, none, ms⟩ g g₄ (b ++ own.read :: c ++ [.instr .pop .none] ++ drop) := by
  cases hopen
  cases hclose
  change resolve name ⟨g.levels, false :: g.classes⟩ = some (own, g₂) at hown
  obtain ⟨hgrown, -⟩ := resolve_meets hown hs
  have hready : g₂.Open := ⟨hgrown.sound, fun hc => by rw [hgrown.classes] at hc; cases hc⟩
  obtain ⟨hgrown', hflows⟩ := hmethods hready
  have hlevels : List.Forall₂ Level.Grown _ _ := forall₂_chain .trans hgrown.levels hgrown'.levels
  refine ⟨hlevels, hgrown'.sound, fun γ slots hsuits base d hwithin hbase hcalm hbegun hholds => ?_⟩
  have hholds' : Holds name ⟨g.levels, false :: g.classes⟩ base d := hholds
  have hread := hholds'.reads hname hown hs (hsuits.back_levels hgrown.sound hgrown'.levels)
  let d' : Underway := ⟨d.global, .root, false, d.body, d.todo⟩
  have hroot : Underway.Within d d' := ⟨fun _ => id, .inr ⟨hbegun.stage, rfl⟩, hbegun.pending.symm, rfl, rfl⟩
  have hidle₃ : ¬Inherits g₃.levels := by
    rw [← Plan.idle_iff]
    exact (Plan.Idle.grown (g := ⟨g.levels, false :: g.classes⟩) hidle hgrown.levels).grown hgrown'.levels
  have hmade := (hflows γ slots hsuits base d' hbase nofun rfl hbegun.todo ⟨nofun, fun h => absurd h hidle₃⟩
    fun a ha => Slot.ne_closure (hcalm a ha)).leave
    (u := ⟨⟨.own, false⟩ :: slots, some { d' with todo := [] }⟩) ⟨.cons (.refl _) hwithin, Shape.known_refl _⟩
  have hcovers : ∀ a ∈ slots, a.content ≠ .own := by
    obtain ⟨q, qs, hq, -⟩ := id hsuits
    have hsuits' : Suits γ slots (q :: qs) := hq ▸ hsuits
    refine Covers.ne_own (hsuits'.covers fun v hv => ?_)
    have hsettled' : g₃.Settled :=
      (Plan.Settled.grown (g := ⟨g.levels, false :: g.classes⟩) hsettled hgrown).grown hgrown'
    exact hsettled' q (by rw [show g₃.levels = q :: qs from hq]; rfl) v hv
  have hstart := hread.leave (u := ⟨⟨.own, false⟩ :: base, some d'⟩) ⟨forall₂_refl .refl _, .some hroot⟩
  have hplain : d.body.superclass = none := by rw [hbegun.body]
  have hall := (hstart.append hmade).append (.effect (.complete nofun rfl rfl
    ⟨nofun, fun h => absurd (hplain ▸ h : (none : Option Bytes).isSome) Bool.false_ne_true⟩ hcovers))
  simpa using hall

theorem completes_inherits {s : Bytes} (hs : SoundLevels g.levels) (hsettled : g.Settled)
    (hname : name ∉ hiddenNames) (hopen : openClass name (some s) g = some (b, g₁))
    (hown : resolve name g₁ = some (own, g₂)) (hmethods : g₂.Open → Methods ms g₂ g₃ c)
    (hclose : closeClass true g₃ = some (drop, g₄)) :
    Completes ⟨name, some s, ms⟩ g g₄ (b ++ own.read :: c ++ [.instr .pop .none] ++ drop) := by
  obtain ⟨place, own', p₂, p₆, l, ls, hplace, hl, hown', rfl, rfl⟩ := openClass_inherits hopen
  obtain ⟨drop', p₈, hend, h⟩ := bind_some hclose
  cases h
  -- the superclass in its scope
  obtain ⟨hplaced, -⟩ := resolve_meets hplace hs
  have hsound₂ := hplaced.sound
  have hdeeper := sound_deeper (hl ▸ hsound₂)
  have hpending := sound_pending "super" hdeeper (Nat.succ_pos l.depth)
  obtain ⟨hadds, hsuper⟩ := initialized_meets "super"
    (g := ⟨{ l with depth := l.depth + 1 } :: ls, p₂.classes⟩) rfl hdeeper (Nat.succ_pos l.depth)
    (.refl hpending) rfl
  obtain ⟨hgrown₆, -⟩ := resolve_meets hown' hadds.sound
  obtain ⟨hgrown₂, -⟩ := resolve_meets hown hgrown₆.sound
  have hready : g₂.Open :=
    ⟨hgrown₂.sound, fun _ => (HasSuper.grown ⟨_, .head _, _, .head _, rfl⟩ hgrown₆.levels).grown hgrown₂.levels⟩
  obtain ⟨hgrown₃, hflows⟩ := hmethods hready
  have hbody : Plan.Grown ⟨p₆.levels, true :: p₆.classes.tail⟩ g₃ := hgrown₂.trans hgrown₃
  have hclasses₆ : g₃.classes = true :: p₂.classes.tail := by
    rw [hbody.classes, hgrown₆.classes]
  have hall : Plan.Adds 1 ⟨{ l with depth := l.depth + 1 } :: ls, true :: p₂.classes.tail⟩ g₃ := by
    have hfirst : Plan.Adds 1 ⟨{ l with depth := l.depth + 1 } :: ls, true :: p₂.classes.tail⟩
        ⟨p₆.levels, true :: p₆.classes.tail⟩ := by
      have := hadds.trans hgrown₆.adds
      exact ⟨⟨this.grown.levels, by rw [Plan.under, hgrown₆.classes], this.grown.sound⟩, this.sound,
        this.news⟩
    exact hfirst.trans hbody.adds
  have hsettled₂ : p₂.Settled := Plan.Settled.grown (g := ⟨g.levels, false :: g.classes⟩) hsettled hplaced
  obtain ⟨hgrown₈, hends⟩ := endScope_meets (g := ⟨p₂.levels, true :: p₂.classes.tail⟩) hl hsound₂
    hsettled₂ hall hend
  refine ⟨forall₂_chain .trans hplaced.levels hgrown₈.levels, hgrown₈.sound,
    fun γ slots hsuits base d hwithin hbase hcalm hbegun hholds => ?_⟩
  obtain ⟨hslots, news, hnews, hsuits₃, hdrop⟩ := hends γ slots hsuits
  obtain ⟨sup, rfl⟩ := List.length_eq_one_iff.mp hnews
  have hsuits₂ := hsuits₃.back hgrown₂.sound hgrown₃
  have hsuits₆ := hsuits₂.back_levels hgrown₆.sound hgrown₂.levels
  have hsuits₅ := hsuits₆.back hadds.sound hgrown₆
  obtain ⟨x, rest, hx, hcontent, -⟩ := hsuper γ _ hsuits₅
  cases hx
  obtain ⟨xc, xh⟩ := sup
  cases hcontent
  have hholds₂ := hholds.grown hplaced.levels
  have hread := resolve_reads hplace hs (hsuits.back_levels hsound₂ hgrown₈.levels)
    hbase.length_eq [] (some d)
  let inside : Level :=
    { l with depth := l.depth + 1, locals := ⟨"super", some (l.depth + 1), false⟩ :: l.locals }
  let at_ (stage : Stage) : Underway := ⟨d.global, stage, false, d.body, d.todo⟩
  have hholds₅ (a : Slot) (stage : Stage) : Holds name ⟨inside :: ls, p₂.classes⟩ (a :: base) (at_ stage) :=
    Holds.beneath (d := at_ stage) hholds₂ hl rfl rfl a p₂.classes
  have hclass := (hholds₅ {} .fresh).reads hname hown' hadds.sound hsuits₆
  have hinherit : Flows γ [.instr .inherit .none] ⟨⟨.own, false⟩ :: {} :: base, some (at_ .fresh)⟩
      (some ⟨⟨.superclass, xh⟩ :: base, some (at_ .heir)⟩) :=
    Flows.leave (.effect (.inherit hcalm)) ⟨.cons ⟨.refl _, by rintro ⟨⟩⟩ (forall₂_refl .refl _), Shape.known_refl _⟩
  have hclass' := ((hholds₅ ⟨.superclass, xh⟩ .heir).grown hgrown₆.levels).reads hname
    (g := ⟨p₆.levels, true :: p₆.classes.tail⟩) hown hgrown₆.sound hsuits₂
  have hinherits : Inherits g₃.levels := by
    rw [inherits_grown (forall₂_chain .trans hgrown₆.levels hbody.levels)]
    exact ⟨inside, rfl, _, .head _, rfl⟩
  have hmade := (hflows γ _ hsuits₃ (⟨.superclass, xh⟩ :: base) (at_ .heir) (.cons (.refl _) hbase) (by rintro ⟨⟩) rfl
      hbegun.todo
    ⟨fun _ => hinherits, fun _ => rfl⟩
    (List.forall_mem_cons.mpr ⟨by rintro _ ⟨⟩, fun a ha => Slot.ne_closure (hcalm a ha)⟩)).leave
    (u := ⟨⟨.own, false⟩ :: ⟨.superclass, xh⟩ :: slots, some { at_ .heir with todo := [] }⟩)
    ⟨.cons (.refl _) (.cons (.refl _) hwithin), Shape.known_refl _⟩
  have hcovers : ∀ a ∈ slots, a.content ≠ .own := by
    obtain ⟨q, qs, hq, -⟩ := id hsuits
    have hsuits' : Suits γ slots (q :: qs) := hq ▸ hsuits
    refine Covers.ne_own (hsuits'.covers fun v hv => ?_)
    have hsettled₈ := Plan.Settled.grown (g := ⟨p₂.levels, true :: p₂.classes.tail⟩) hsettled₂ hgrown₈
    exact hsettled₈ q (by rw [show p₈.levels = q :: qs from hq]; rfl) v hv
  have hheir : d.body.superclass.isSome = true := by rw [hbegun.body]; rfl
  have hcomplete : Flows γ [.instr .pop .none]
      ⟨⟨.own, false⟩ :: ⟨.superclass, xh⟩ :: slots, some { at_ .heir with todo := [] }⟩
      (some ⟨⟨.superclass, xh⟩ :: slots, none⟩) :=
    .effect (.complete (by rintro ⟨⟩) rfl rfl ⟨fun _ => hheir, fun _ => rfl⟩
        (List.forall_mem_cons.mpr ⟨by rintro ⟨⟩, hcovers⟩))
  have hrest := (hclass'.append hmade).append (hcomplete.append (hdrop slots none hslots))
  have hd : at_ .fresh = d := by
    show (⟨d.global, .fresh, false, d.body, d.todo⟩ : Underway) = d
    rw [← hbegun.stage, ← hbegun.pending]
  rw [hd] at hclass hinherit
  have := ((hread.append hclass).append hinherit).append hrest
  simpa using this

end PlanM

end Lox

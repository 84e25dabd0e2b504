import Lox.Proofs.Verify.Scopes

namespace Lox

structure Runs (n : Nat) (g g' : Plan) (lines : List Line) : Prop where
  adds : g.Adds n g'
  idle : g.Idle → g'.Idle
  flows : ∀ γ slots, Suits γ slots g'.levels → Flows γ lines ⟨slots.drop n, none⟩ (some ⟨slots, none⟩)

namespace Runs

variable {n m : Nat} {g g' g'' : Plan} {a b ops : List Line} {l : Level} {ls : List Level}

theorem nil (h : SoundLevels g.levels) : Runs 0 g g [] where
  adds := (Plan.Grown.refl h).adds
  idle := id
  flows _ _ _ := .nil (.refl _)

theorem append (ha : Runs n g g' a) (hb : Runs m g' g'' b) : Runs (m + n) g g'' (a ++ b) where
  adds := ha.adds.trans hb.adds
  idle h := hb.idle (ha.idle h)
  flows γ slots hsuits := by
    have hfirst := ha.flows γ _ (hsuits.before ha.adds.sound hb.adds)
    rw [List.drop_drop] at hfirst
    exact hfirst.append (hb.flows γ slots hsuits)

theorem earlier (h : Runs n g' g'' a) (hg : g.Grown g') : Runs n g g'' a where
  adds := hg.adds.trans h.adds
  idle hidle := h.idle (hidle.grown hg.levels)
  flows := h.flows

theorem marked (h : Runs n g g' a) (hl : g.levels = l :: ls) (hs : SoundLevels g.levels)
    (hsettled : g.Settled) : Runs n g g' (.mark l.locals.length :: a) where
  adds := h.adds
  idle := h.idle
  flows γ slots hsuits := by
    have hbefore := hsuits.before hs h.adds
    rw [hl] at hbefore
    have hcovers := hbefore.covers fun v hv => hsettled l (by rw [hl]; rfl) v hv
    have hmark : Flows γ [.mark (slots.drop n).length] ⟨slots.drop n, none⟩ (some ⟨slots.drop n, none⟩) :=
      .mark ⟨slots.drop n, none⟩
    rw [hcovers.length_eq] at hmark
    exact Flows.append (a := [_]) hmark (h.flows γ slots hsuits)

theorem ready (h : Runs n g g' a) (hg : g.Ready) : g'.Ready where
  toOpen := hg.toOpen.adds h.adds
  idle := h.idle hg.idle

end Runs

theorem Pushes.runs {g g' : Plan} {a ops : List Line} (h : Pushes 1 g g' a)
    (hops : ∀ γ slots, Suits γ slots g'.levels → Flows γ ops ⟨{} :: slots, none⟩ (some ⟨slots, none⟩)) :
    Runs 0 g g' (a ++ ops) where
  adds := h.grown.adds
  idle hidle := hidle.grown h.grown.levels
  flows γ slots hsuits := (h.flows γ slots hsuits [] nofun).append (hops γ slots hsuits)

namespace PlanM

variable {γ : Signature} {n : Nat} {g g' g₁ g₂ g₃ g₄ : Plan} {l : Level} {ls : List Level}
  {lines : List Line} {name : Bytes} {k : Nat}

theorem sound_pending (name : Bytes) (h : SoundLevels (l :: ls)) (hdeep : 0 < l.depth) :
    SoundLevels ({ l with locals := ⟨name, none, false⟩ :: l.locals } :: ls) := by
  refine ⟨⟨h.1.origins, fun v hv d hd => ?_, fun hzero => ?_, ?_, h.1.functions⟩, h.2⟩
  · rcases List.mem_cons.mp hv with rfl | hv
    · cases hd
    · exact h.1.depths v hv d hd
  · exact absurd hzero (Nat.ne_of_gt hdeep)
  · obtain ⟨v, hv, hname⟩ := h.1.receiver
    refine ⟨v, ?_, hname⟩
    rw [List.reverse_cons, List.getElem?_append_left (List.getElem?_eq_some_iff.mp hv).1, hv]

theorem initialized_meets (name : Bytes) (hl : g.levels = l :: ls) (hs : SoundLevels g.levels) (hdeep : 0 < l.depth)
    (hgrown : Plan.Grown { g with levels := { l with locals := ⟨name, none, false⟩ :: l.locals } :: ls } g₂)
    {l₂ : Level} {ls₂ : List Level} (hl₂ : g₂.levels = l₂ :: ls₂) :
    g.Adds 1 { g₂ with levels := initialized l₂ :: ls₂ } ∧ ∀ γ slots,
      Suits γ slots (initialized l₂ :: ls₂) → ∃ a rest, slots = a :: rest ∧
        a.content = Local.content ⟨name, none, false⟩ ∧ Suits γ rest g₂.levels := by
  have hlevels := hgrown.levels
  have hsound := hgrown.sound
  rw [hl₂] at hlevels hsound
  rw [hl] at hs
  obtain ⟨hgrown₂, hls⟩ := List.forall₂_cons.mp hlevels
  have hlocals := hgrown₂.locals
  have hdepth : l₂.depth = l.depth := hgrown₂.depth
  generalize hlocals₂ : l₂.locals = locals at hlocals
  cases hlocals with
  | @cons _ v _ kept hv hkept =>
  have hunder : (initialized l₂).under 1 = { l₂ with locals := kept } := by
    simp only [initialized, Level.under, hlocals₂, List.drop_succ_cons, List.drop_zero]
  have hback : l.Grown { l₂ with locals := kept } :=
    ⟨hgrown₂.kind, hgrown₂.name, hgrown₂.arity, hgrown₂.depth, hkept, hgrown₂.origins, hgrown₂.constants,
      hgrown₂.declared⟩
  have hinit : (initialized l₂).locals = { v with depth := some l₂.depth } :: kept := by
    simp only [initialized, hlocals₂]
  refine ⟨⟨⟨?_, hgrown.classes, ?_⟩, ⟨?_, hsound.2⟩, ?_⟩, fun γ slots hsuits => ?_⟩
  · rw [hl]
    simp only [Plan.under, List.modifyHead_cons, hunder]
    exact .cons hback hls
  · simp only [Plan.under, List.modifyHead_cons, hunder]
    exact ⟨hs.1.grown hback hsound.1.origins hsound.1.functions hls, hsound.2⟩
  · refine ⟨hsound.1.origins, fun u hu d hd => ?_, fun hzero => ?_, ?_, hsound.1.functions⟩
    · rw [hinit] at hu
      rcases List.mem_cons.mp hu with rfl | hu
      · cases hd
        exact Nat.le_refl _
      · exact hsound.1.depths u (by rw [hlocals₂]; exact .tail _ hu) d hd
    · exact absurd (hdepth ▸ hzero : l.depth = 0) (Nat.ne_of_gt hdeep)
    · obtain ⟨u, hu, hname⟩ := (hs.1.grown hback hsound.1.origins hsound.1.functions hls).receiver
      refine ⟨u, ?_, hname⟩
      rw [hinit, List.reverse_cons, List.getElem?_append_left (List.getElem?_eq_some_iff.mp hu).1]
      exact hu
  · intro q hq u hu
    cases hq
    rw [hinit, List.take_succ_cons, List.take_zero, List.mem_singleton] at hu
    rw [hu]
    rfl
  · obtain ⟨q, qs, hq, hconst, hmarks, pend, rest, hsplit, hpend, hcovers⟩ := hsuits
    cases hq
    rw [hinit] at hsplit
    cases pend with
    | cons u pend =>
      cases hsplit
      cases hpend _ (.head _)
    | nil =>
      rw [List.nil_append] at hsplit
      subst hsplit
      cases hcovers with
      | @cons a _ rest _ ha hrest =>
        refine ⟨a, rest, rfl, ?_, ?_⟩
        · rw [ha.content, Local.content, Local.content]
          dsimp only
          rw [hv.name]
        · rw [hl₂]
          refine ⟨l₂, ls₂, rfl, hconst, hmarks, [v], kept, hlocals₂, fun u hu => ?_, hrest⟩
          rw [List.mem_singleton.mp hu, hv.depth]

theorem initialized_adds (hadds : g.Adds 1 g') (hl : g'.levels = l :: ls) : initialized l = l := by
  obtain ⟨kind, name, arity, locals, origins, depth, constants⟩ := l
  cases locals with
  | nil => rfl
  | cons v rest =>
    obtain ⟨name', depth', captured⟩ := v
    have hdepth : depth' = some depth := hadds.news _ (by rw [hl]; rfl) _ (.head _)
    rw [hdepth]
    rfl

theorem ne_super (hname : name ∉ hiddenNames) : name ≠ "super" := by
  rintro rfl
  exact hname (.head _)

theorem content_any (hname : name ∉ hiddenNames) : Local.content ⟨name, none, false⟩ = .any := by
  rw [Local.content, ofName_plain hname]
  rfl

theorem parameter_some (hl : g.levels = l :: ls) (hdeep : 0 < l.depth) {u : Unit}
    (h : parameter name g = some (u, g')) : name ∉ hiddenNames ∧ g' = { g with levels :=
      { l with arity := l.arity + 1, locals := ⟨name, some l.depth, false⟩ :: l.locals } :: ls } := by
  obtain ⟨u, g₁, hmod, h⟩ := bind_some h
  obtain ⟨l₁, ls₁, hl₁, rfl⟩ := modifyLevel_some hmod
  rw [hl] at hl₁
  cases hl₁
  obtain ⟨k, g₂, hdecl, h⟩ := bind_some h
  obtain ⟨lines, g₃, hdef, h⟩ := bind_some h
  cases h
  obtain ⟨hname, l₂, ls₂, hl₂, hcases⟩ := declareNamed_some hdecl
  cases hl₂
  rcases hcases with ⟨hzero, -⟩ | ⟨-, -, -, rfl⟩
  · exact absurd hzero (Nat.ne_of_gt hdeep)
  · obtain ⟨l₃, ls₃, hl₃, hcases⟩ := define_some hdef
    cases hl₃
    rcases hcases with ⟨hzero, -⟩ | ⟨-, -, rfl⟩
    · exact absurd hzero (Nat.ne_of_gt hdeep)
    · exact ⟨hname, rfl⟩

theorem parameters_some (names : List Bytes) (hl : g.levels = l :: ls) (hdeep : 0 < l.depth) {u : Unit}
    (h : names.forM parameter g = some (u, g')) : ∃ news : List Local, news.length = names.length ∧
      (∀ v ∈ news, v.depth = some l.depth ∧ v.name ∉ hiddenNames) ∧ g' = { g with levels :=
        { l with arity := l.arity + names.length, locals := news ++ l.locals } :: ls } := by
  induction names generalizing g l with
  | nil =>
    cases h
    refine ⟨[], rfl, nofun, ?_⟩
    rw [List.nil_append, List.length_nil, Nat.add_zero, ← hl]
  | cons name names ih =>
    obtain ⟨u, g₁, hfirst, h⟩ := bind_some h
    obtain ⟨hname, rfl⟩ := parameter_some hl hdeep hfirst
    let next : Level :=
      { l with arity := l.arity + 1, locals := ⟨name, some l.depth, false⟩ :: l.locals }
    obtain ⟨news, hlength, hnews, rfl⟩ := ih (g := { g with levels := next :: ls }) rfl hdeep h
    refine ⟨news ++ [⟨name, some l.depth, false⟩], by simp [hlength], fun v hv => ?_, ?_⟩
    · rcases List.mem_append.mp hv with hv | hv
      · exact hnews v hv
      · rw [List.mem_singleton.mp hv]
        exact ⟨rfl, hname⟩
    · simp [next, Nat.add_assoc, Nat.add_comm 1]

/-- The first slot of a call has kept what it held. -/
def Rooted (slots : List Slot) : Prop :=
  ∃ h, slots.reverse[0]? = some ⟨.first, h⟩

theorem rooted_of_covers {slots : List Slot} {ls : List Level} (hcovers : Covers slots l.locals) (hs : l.Sound ls) :
    Rooted slots := by
  obtain ⟨v, hv, hname⟩ := hs.receiver
  obtain ⟨⟨c, h⟩, ha, hhouses⟩ := hcovers.at hv []
  have hcontent : c = v.content := hhouses.content
  rw [Local.content, hname] at hcontent
  subst hcontent
  exact ⟨h, ha⟩

theorem flows_returnCode {e : Option Shape} {slots : List Slot} (hslots : Rooted slots)
    (hscript : γ.kind = .script → slots.length = 1) :
    Flows γ (returnCode γ.kind) ⟨slots, none⟩ e := by
  obtain ⟨h, hfirst⟩ := hslots
  obtain ⟨a, rest, rfl⟩ := List.exists_cons_of_ne_nil (l := slots) (by rintro rfl; cases hfirst)
  have hrest : γ.kind = .script → rest = [] := fun hkind => List.eq_nil_of_length_eq_zero (Nat.succ.inj (hscript hkind))
  unfold returnCode
  split
  · exact Flows.append (a := [_]) (.effect (.receiver hfirst)) (.return_ (fun _ => rfl) hrest)
  · rename_i hkind
    exact Flows.append (a := [_]) (.effect (.literal (.head _))) (.return_ (fun h => absurd h hkind) hrest)

theorem provides_origins (hs : l.Sound ls) {slots : List Slot} {known : Option Underway} (hsuits : Suits γ slots ls)
    (hknown : (∃ d, known = some d ∧ d.stage = .heir) ↔ Inherits ls) :
    List.Forall₂ (γ.Provides ⟨slots, known⟩) l.origins (l.origins.map (Level.mark ls)) := by
  rw [List.forall₂_map_right_iff]
  refine List.forall₂_same.mpr fun o ho => ⟨?_, fun hsuper => ((hs.origins o ho).super hsuper).trans hknown.symm⟩
  have hvalid := (hs.origins o ho).valid
  obtain ⟨q, qs, rfl, -, hmarks, pend, rest, hlocals, hpend, hcovers⟩ := hsuits
  simp only [Origin.Valid, Level.mark] at hvalid ⊢
  by_cases hlocal : o.isLocal = true
  · rw [if_pos hlocal] at hvalid ⊢
    obtain ⟨v, hv, hdepth, hcaptured⟩ := hvalid
    rw [if_pos hlocal, hv]
    have hrest : rest.reverse[o.index]? = some v := by
      rw [hlocals, List.reverse_append] at hv
      by_cases hn : o.index < rest.reverse.length
      · rwa [List.getElem?_append_left hn] at hv
      · rw [List.getElem?_append_right (Nat.le_of_not_lt hn)] at hv
        rw [hpend v (List.mem_reverse.mp (List.mem_of_getElem? hv))] at hdepth
        cases hdepth
    obtain ⟨a, ha, hhouses⟩ := Covers.at hcovers hrest []
    refine ⟨a, ha, hhouses.held hcaptured, ?_⟩
    rw [hhouses.content, Local.content, Content.mark_content]
  · rw [if_neg hlocal] at hvalid ⊢
    rw [if_neg hlocal, List.getElem?_eq_getElem hvalid]
    have := List.prefix_iff_getElem?.mp hmarks o.index (by simpa using hvalid)
    rw [this, List.getElem_map]

structure Makes (kind : FunctionKind) (m : Lambda Stmt) (g g' : Plan) (lines : List Line) : Prop where
  grown : g.Grown g'
  closure : ∃ k f, lines = [.instr .closure (.closure k f.origins)] ∧ f.kind = kind ∧ f.Renders m ∧
    ∀ γ slots known, Suits γ slots g'.levels → ((∃ d, known = some d ∧ d.stage = .heir) ↔ Inherits g'.levels) →
      γ.constants[k]? = some (.function f) ∧ List.Forall₂ (γ.Provides ⟨slots, known⟩) f.origins f.marks

def heldSlots (locals : List Local) : List Slot :=
  locals.map fun v => ⟨v.content, true⟩

theorem suits_heldSlots (l : Level) (ls : List Level) :
    Suits ⟨l.kind, l.constants, l.origins.map (Level.mark ls), l.declared⟩ (heldSlots l.locals) (l :: ls) := by
  refine ⟨l, ls, rfl, ⟨rfl, List.prefix_refl _, List.Subset.refl _⟩, List.prefix_refl _, [], l.locals, rfl, nofun, ?_⟩
  generalize l.locals = locals
  induction locals with
  | nil => exact .nil
  | cons v locals ih => exact .cons ⟨rfl, fun _ => rfl⟩ ih

def Initial (n : Nat) (locals : List Local) : Prop :=
  ∃ news v, locals = news ++ [v] ∧ news.length = n ∧ (∀ u ∈ news, .ofName u.name = Mark.plain) ∧
    .ofName v.name = Mark.first

theorem Initial.grown {locals locals' : List Local} (h : Initial n locals)
    (hgrown : List.Forall₂ Local.Grown locals locals') : Initial n locals' := by
  obtain ⟨news, v, rfl, hlength, hnews, hv⟩ := h
  have hnews' := List.forall₂_take news.length hgrown
  have hlast := List.forall₂_drop news.length hgrown
  rw [List.take_left] at hnews'
  rw [List.drop_left] at hlast
  obtain ⟨v', _, hv', hnil, hdrop⟩ := List.forall₂_cons_left_iff.mp hlast
  cases hnil
  refine ⟨_, v', by rw [← hdrop, List.take_append_drop], hnews'.length_eq ▸ hlength, fun u' hu' => ?_, by
      rw [hv'.name, hv]⟩
  obtain ⟨u, hu, hu''⟩ := forall₂_mem_right hnews' hu'
  rw [hu''.name]
  exact hnews u hu

theorem Initial.ne_super {locals : List Local} (h : Initial n locals) : ∀ v ∈ locals, v.name ≠ "super" := by
  obtain ⟨news, v, rfl, -, hnews, hv⟩ := h
  intro u hu hname
  rcases List.mem_append.mp hu with hu | hu
  · have := hnews u hu
    rw [hname] at this
    cases this
  · rw [← List.mem_singleton.mp hu, hname] at hv
    cases hv

theorem entry_within {f : Listing Item} {locals : List Local} (h : Initial f.arity locals) :
    f.entry.Within ⟨heldSlots locals, none⟩ := by
  obtain ⟨news, v, rfl, hlength, hnews, hv⟩ := h
  refine ⟨?_, .none⟩
  have hsplit : heldSlots (news ++ [v]) = heldSlots news ++ [⟨.first, true⟩] := by
    simp only [heldSlots, List.map_append, List.map_cons, List.map_nil, Local.content, hv]
    rfl
  rw [hsplit, Listing.entry, ← hlength]
  refine List.rel_append ?_ (forall₂_refl .refl _)
  clear hlength hsplit
  induction news with
  | nil => exact .nil
  | cons u news ih =>
    obtain ⟨hu, hnews⟩ := List.forall_mem_cons.mp hnews
    refine .cons ⟨?_, fun _ => rfl⟩ (ih hnews)
    show Content.Within .any u.content
    rw [Local.content, hu]
    exact .refl _

structure Opened (kind : FunctionKind) (name : Option Bytes) (parameters : List Bytes) (g g₁ : Plan) :
    Prop where
  levels : ∃ l, g₁.levels = l :: g.levels ∧ l.kind = kind ∧ l.name = name ∧ l.arity = parameters.length ∧
    Initial parameters.length l.locals
  classes : g₁.classes = g.classes
  sound : SoundLevels g₁.levels
  settled : g₁.Settled

theorem Opened.ready {kind : FunctionKind} {fname : Option Bytes} {parameters : List Bytes}
    (h : Opened kind fname parameters g g₁) (hg : g.Open) : g₁.Ready where
  sound := h.sound
  idle q hq v hv := by
    obtain ⟨l, hl, -, -, -, hinitial⟩ := h.levels
    rw [hl] at hq
    cases hq
    exact hinitial.ne_super v hv
  super hc := by
    obtain ⟨l, hl, -⟩ := h.levels
    obtain ⟨q, hq, hsuper⟩ := hg.super (h.classes ▸ hc)
    rw [hl]
    exact ⟨q, .tail _ hq, hsuper⟩

theorem opened_function {kind : FunctionKind} {fname : Option Bytes} {parameters : List Bytes}
    (hs : SoundLevels g.levels) {u : Unit}
    (h : (do beginFunction kind fname; beginScope; parameters.forM parameter) g = some (u, g₁)) :
    Opened kind fname parameters g g₁ := by
  obtain ⟨u, g₂, hbegin, h⟩ := bind_some h
  cases hbegin
  obtain ⟨u, g₃, hscope, h⟩ := bind_some h
  obtain ⟨l₃, ls₃, hl₃, rfl⟩ := modifyLevel_some hscope
  cases hl₃
  obtain ⟨news, hlength, hnews, rfl⟩ := parameters_some parameters rfl (Nat.zero_lt_one) h
  have hreceiver : .ofName (if kind = .method || kind = .initializer then "this" else "" : Bytes) = Mark.first := by
    split <;> decide
  refine ⟨⟨_, rfl, rfl, rfl, by simp, news, _, rfl, hlength, fun v hv => ofName_plain (hnews v hv).2, hreceiver⟩, rfl,
    ⟨⟨nofun, fun v hv d hd => ?_, nofun, ⟨_, by rw [List.reverse_append]; rfl, hreceiver⟩, nofun⟩, hs⟩,
    fun l hl v hv => ?_⟩
  · rcases List.mem_append.mp hv with hv | hv
    · rw [(hnews v hv).1] at hd
      cases hd
      exact Nat.le_refl _
    · rw [List.mem_singleton.mp hv] at hd
      cases hd
      exact Nat.zero_le _
  · cases hl
    rcases List.mem_append.mp hv with hv | hv
    · rw [(hnews v hv).1]
      rfl
    · rw [List.mem_singleton.mp hv]
      rfl

theorem endFunction_meets {kind : FunctionKind} {fname : Option Bytes} {parameters : List Bytes}
    {f : Listing Item} (hopened : Opened kind fname parameters g g₁) (hbody : Runs n g₁ g₂ lines)
    (h : endFunction lines g₂ = some (f, g₃)) (hscript : kind = .script → ∀ l ∈ g₁.levels.head?, l.depth = 0) :
    f.Verified ∧ f.kind = kind ∧ f.name = fname ∧ f.arity = parameters.length ∧ g.Grown g₃ ∧
        ∃ l ls, g₂.levels = l :: ls ∧ g₃.levels = ls ∧
      f.origins = l.origins ∧ f.marks = l.origins.map (Level.mark ls) := by
  obtain ⟨l₁, hl₁, hkind, hname, harity, hinitial⟩ := hopened.levels
  obtain ⟨l, ls, hl, hgrown, hls⟩ := hbody.adds.levels hl₁
  obtain ⟨l', ls', hl', rfl, rfl⟩ := endFunction_some h
  rw [hl] at hl'
  cases hl'
  have hsound := hbody.adds.sound
  rw [hl] at hsound
  refine ⟨.intro (by simp) ?_ (fun q hq => (hsound.1.functions q hq).2) fun q hq => (hsound.1.functions q hq).1,
    hgrown.kind.trans hkind, hgrown.name.trans hname, hgrown.arity.trans harity,
    ⟨hls, ?_, hsound.2⟩, l, ls, hl, rfl, rfl, rfl⟩
  · have hflows := hbody.flows ⟨l.kind, l.constants, l.origins.map (Level.mark ls), l.declared⟩ (heldSlots l.locals)
      (by rw [hl]; exact suits_heldSlots l ls)
    have hrooted : Rooted (heldSlots l.locals) := by
      obtain ⟨v, hv, hfirst⟩ := hsound.1.receiver
      refine ⟨true, ?_⟩
      rw [heldSlots, ← List.map_reverse, List.getElem?_map, hv, Option.map_some, Local.content, hfirst]
      rfl
    have hlength : l.kind = .script → (heldSlots l.locals).length = 1 := by
      intro hk
      have hdepth := hscript (hkind ▸ hgrown.kind ▸ hk) l₁ (by rw [hl₁]; rfl)
      rw [heldSlots, List.length_map]
      exact (hsound.1.outside (hgrown.depth.trans hdepth)).2.2
    refine Flows.append (hflows.enter ?_) (flows_returnCode hrooted hlength)
    rw [heldSlots, ← List.map_drop]
    refine entry_within ?_
    rw [show Listing.arity _ = l.arity from rfl, show l.arity = l₁.arity from hgrown.arity, harity]
    exact hinitial.grown hgrown.locals
  · rw [← hopened.classes]
    exact hbody.adds.grown.classes

theorem enlist_meets {classes : List ClassBody} {u : Unit} (h : enlist classes g = some (u, g'))
    (hs : SoundLevels g.levels) : g.Grown g' ∧ ∀ l ∈ g'.levels.head?, classes ⊆ l.declared := by
  obtain ⟨l, ls, hl, rfl⟩ := enlist_some h
  rw [hl] at hs
  have hgrown : l.Grown { l with declared := l.declared ++ classes } :=
    ⟨rfl, rfl, rfl, rfl, forall₂_refl .refl _, List.prefix_refl _, List.prefix_refl _, List.subset_append_left ..⟩
  refine ⟨⟨?_, rfl, hs.1.grown hgrown hs.1.origins (fun f hf => ?_) (forall₂_refl .refl _), hs.2⟩, ?_⟩
  · rw [hl]
    exact .cons hgrown (forall₂_refl .refl _)
  · obtain ⟨hverified, hclasses⟩ := hs.1.functions f hf
    exact ⟨hverified, List.Subset.trans hclasses hgrown.declared⟩
  · rintro _ ⟨⟩
    exact List.subset_append_right ..

theorem makes_function {kind : FunctionKind} {fname : Bytes} {parameters : List Bytes} {body : List Stmt}
    {f : Listing Item} {k : Nat} {u : Unit} (hopened : Opened kind (some fname) parameters g g₁)
    (hbody : Runs n g₁ g₂ lines) (h : endFunction lines g₂ = some (f, g₃))
    (henlist : enlist f.classes g₃ = some (u, g₄)) (hk : constant (.function f) g₄ = some (k, g'))
    (hcode : Stmt.codeOfFunction kind ⟨fname, parameters, body⟩ g =
      some ([.instr .closure (.closure k f.origins)], g')) (hscript : kind ≠ .script) :
    Makes kind ⟨fname, parameters, body⟩ g g' [.instr .closure (.closure k f.origins)] := by
  obtain ⟨hverified, hkind, hname, harity, hgrown, l, ls, hl, rfl, horigins, hmarks⟩ :=
    endFunction_meets hopened hbody h
    fun h => absurd h hscript
  obtain ⟨hgrown₄, hclasses⟩ := enlist_meets henlist hgrown.sound
  obtain ⟨hgrown', hconst⟩ := constant_meets hk hgrown₄.sound fun q hq => by
    cases hq
    exact ⟨hverified, hclasses⟩
  have hall := hgrown₄.trans hgrown'
  have hrenders : f.Renders ⟨fname, parameters, body⟩ := by
    obtain ⟨l', ls', -, rfl, rfl⟩ := constant_some hk
    exact ⟨hname, harity, kind, g, _, _, _, ls', hcode, rfl, by simp⟩
  refine ⟨hgrown.trans hall, k, f, rfl, hkind, hrenders, fun γ slots known hsuits hknown =>
    ⟨hconst γ slots hsuits, ?_⟩⟩
  have hsound := hbody.adds.sound
  rw [hl] at hsound
  rw [horigins, hmarks]
  exact provides_origins hsound.1 (hsuits.back hgrown.sound hall) (hknown.trans (inherits_grown hall.levels))

end PlanM

end Lox

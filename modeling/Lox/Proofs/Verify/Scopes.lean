import Lox.Proofs.Verify.Expressions

namespace Lox

def Level.under (n : Nat) (l : Level) : Level :=
  { l with locals := l.locals.drop n }

def Plan.under (n : Nat) (g : Plan) : Plan :=
  { g with levels := g.levels.modifyHead (Level.under n) }

structure Plan.Adds (n : Nat) (g g' : Plan) : Prop where
  grown : g.Grown (g'.under n)
  sound : SoundLevels g'.levels
  news : ∀ l ∈ g'.levels.head?, ∀ v ∈ l.locals.take n, v.depth = some l.depth

def Plan.Settled (g : Plan) : Prop :=
  ∀ l ∈ g.levels.head?, ∀ v ∈ l.locals, v.depth.isSome = true

theorem Level.Grown.under {l l' : Level} (h : l.Grown l') (n : Nat) : (l.under n).Grown (l'.under n) :=
  ⟨h.kind, h.name, h.arity, h.depth, List.forall₂_drop n h.locals, h.origins, h.constants, h.declared⟩

theorem Level.Sound.under {l : Level} {ls : List Level} {n : Nat} (h : l.Sound ls)
    (hn : n < l.locals.length) : (l.under n).Sound ls where
  origins := h.origins
  depths v hv := h.depths v (List.mem_of_mem_drop hv)
  outside hd := by
    obtain ⟨houter, hnames, hlength⟩ := h.outside hd
    refine ⟨houter, fun v hv => hnames v (List.mem_of_mem_drop hv), ?_⟩
    simp only [Level.under, List.length_drop]
    omega
  receiver := by
    obtain ⟨v, hv, hname⟩ := h.receiver
    refine ⟨v, ?_, hname⟩
    rw [Level.under, List.reverse_drop, List.getElem?_take_of_lt (by omega), hv]
  functions := h.functions

namespace Plan

variable {n m : Nat} {g g' g'' : Plan}

@[simp] theorem under_zero (g : Plan) : g.under 0 = g := by
  obtain ⟨levels, classes⟩ := g
  cases levels <;> rfl

theorem under_under (g : Plan) : (g.under m).under n = g.under (m + n) := by
  obtain ⟨levels, classes⟩ := g
  cases levels with
  | nil => rfl
  | cons l ls =>
    show (⟨_ :: ls, classes⟩ : Plan) = ⟨_ :: ls, classes⟩
    rw [Level.under, Level.under, Level.under, List.drop_drop]

theorem Grown.adds (h : g.Grown g') : g.Adds 0 g' where
  grown := by rwa [under_zero]
  sound := h.sound
  news _ _ _ hv := by
    rw [List.take_zero] at hv
    cases hv

theorem Adds.grown_of_zero (h : g.Adds 0 g') : g.Grown g' := by
  have := h.grown
  rwa [under_zero] at this

theorem Adds.levels {l : Level} {ls : List Level} (h : g.Adds n g') (hl : g.levels = l :: ls) :
    ∃ l' ls', g'.levels = l' :: ls' ∧ l.Grown (l'.under n) ∧ List.Forall₂ Level.Grown ls ls' := by
  have hlevels := h.grown.levels
  rw [hl] at hlevels
  rcases hg' : g'.levels with _ | ⟨l', ls'⟩
  · simp [Plan.under, hg'] at hlevels
  · simp only [Plan.under, hg', List.modifyHead_cons, List.forall₂_cons] at hlevels
    exact ⟨l', ls', rfl, hlevels.1, hlevels.2⟩

theorem Adds.trans (h : g.Adds n g') (h' : g'.Adds m g'') : g.Adds (m + n) g'' := by
  rcases hg' : g'.levels with _ | ⟨l', ls'⟩
  · have hempty := h'.grown.levels
    rw [hg'] at hempty
    have hg'' : g''.levels = [] := by
      rcases hg'' : g''.levels with _ | ⟨l'', ls''⟩
      · rfl
      · simp [Plan.under, hg''] at hempty
    have hunder : ∀ k, g''.under k = ⟨[], g''.classes⟩ := fun k => by simp [Plan.under, hg'']
    refine ⟨⟨?_, h'.grown.classes.trans h.grown.classes, ?_⟩, h'.sound, ?_⟩
    · have := h.grown.levels
      rw [hunder]
      simpa [Plan.under, hg'] using this
    · rw [hunder]
      trivial
    · rw [hg'']
      nofun
  · obtain ⟨l'', ls'', hg'', hl, hls⟩ := h'.levels hg'
    have hsound := h'.sound
    have hfirst := h.grown.levels
    have hkept := h.grown.sound
    rw [hg''] at hsound
    simp only [Plan.under, hg', List.modifyHead_cons] at hfirst hkept
    have hlength : l'.locals.length = l''.locals.length - m := by
      rw [hl.locals.length_eq, Level.under, List.length_drop]
    have hroom : n < l'.locals.length := by
      have := hkept.1.locals_pos
      rw [Level.under, List.length_drop] at this
      omega
    refine ⟨?_, h'.sound, fun l hhead v hv => ?_⟩
    · rw [← under_under]
      refine ⟨forall₂_chain .trans h.grown.levels ?_, h'.grown.classes.trans h.grown.classes, ?_⟩
      · simp only [Plan.under, hg', hg'', List.modifyHead_cons]
        exact .cons (hl.under n) hls
      · simp only [Plan.under, hg'', List.modifyHead_cons]
        refine ⟨?_, hsound.2⟩
        rw [Level.under, Level.under, List.drop_drop]
        exact hsound.1.under (by omega)
    · rw [hg''] at hhead
      cases hhead
      rw [List.take_add] at hv
      rcases List.mem_append.mp hv with hv | hv
      · exact h'.news l'' (by rw [hg'']; rfl) v hv
      · have hforall : List.Forall₂ Local.Grown (l'.locals.take n) ((l''.locals.drop m).take n) :=
          List.forall₂_take n hl.locals
        obtain ⟨u, hu, hgrown⟩ := forall₂_mem_right hforall hv
        rw [hgrown.depth, h.news l' (by rw [hg']; rfl) u hu, ← hl.depth]
        rfl

theorem Settled.adds (h : g.Settled) (hadds : g.Adds n g') : g'.Settled := by
  intro l' hl' v hv
  rw [← List.take_append_drop n l'.locals] at hv
  rcases List.mem_append.mp hv with hv | hv
  · rw [hadds.news l' hl' v hv]
    rfl
  · rcases hg : g.levels with _ | ⟨l, ls⟩
    · have := hadds.grown.levels
      rcases hg' : g'.levels with _ | ⟨q, qs⟩
      · rw [hg'] at hl'
        cases hl'
      · simp [Plan.under, hg, hg'] at this
    · obtain ⟨q, qs, hg', hgrown, -⟩ := hadds.levels hg
      rw [hg'] at hl'
      cases hl'
      obtain ⟨u, hu, hu'⟩ := forall₂_mem_right hgrown.locals hv
      rw [hu'.depth]
      exact h l (by rw [hg]; rfl) u hu

theorem Settled.grown (h : g.Settled) (hg : g.Grown g') : g'.Settled :=
  h.adds hg.adds

theorem Open.adds (h : g.Open) (hadds : g.Adds n g') : g'.Open where
  sound := hadds.sound
  super hc := by
    obtain ⟨l, hl, v, hv, hname⟩ := (h.grown hadds.grown).super hc
    rcases hg' : g'.levels with _ | ⟨l', ls'⟩
    · simp [Plan.under, hg'] at hl
    · simp only [Plan.under, hg', List.modifyHead_cons] at hl
      rcases List.mem_cons.mp hl with rfl | hl
      · exact ⟨l', .head _, v, List.mem_of_mem_drop hv, hname⟩
      · exact ⟨l, .tail _ hl, v, hv, hname⟩

end Plan

section

variable {γ : Signature} {slots : List Slot} {n : Nat} {g g' : Plan} {l : Level} {ls : List Level}

theorem Suits.covers (h : Suits γ slots (l :: ls)) (hl : ∀ v ∈ l.locals, v.depth.isSome = true) :
    Covers slots l.locals := by
  obtain ⟨l', ls', hlevels, -, -, pend, rest, hlocals, hpend, hcovers⟩ := h
  cases hlevels
  cases pend with
  | nil =>
    rw [hlocals]
    exact hcovers
  | cons v pend =>
    have := hl v (by rw [hlocals]; simp)
    rw [hpend v (.head _)] at this
    cases this

theorem Suits.under (h : Suits γ slots g'.levels) (hadds : g.Adds n g') :
    Suits γ (slots.drop n) (g'.under n).levels := by
  obtain ⟨l, ls, hlevels, hconst, hmarks, pend, rest, hlocals, hpend, hcovers⟩ := h
  rw [Plan.under, hlevels, List.modifyHead_cons]
  cases n with
  | zero => exact ⟨l, ls, rfl, hconst, hmarks, pend, rest, hlocals, hpend, hcovers⟩
  | succ n =>
    cases pend with
    | nil =>
      refine ⟨l.under (n + 1), ls, rfl, hconst, hmarks, [], rest.drop (n + 1), ?_, nofun,
        List.forall₂_drop _ hcovers⟩
      rw [Level.under, hlocals]
      rfl
    | cons v pend =>
      have := hadds.news l (by rw [hlevels]; rfl) v (by rw [hlocals]; simp)
      rw [hpend v (.head _)] at this
      cases this

theorem Suits.before (h : Suits γ slots g'.levels) (hs : SoundLevels g.levels) (hadds : g.Adds n g') :
    Suits γ (slots.drop n) g.levels :=
  (h.under hadds).back hs hadds.grown

end

structure Slot.Alike (a b : Slot) : Prop where
  held : a.held = b.held
  mark : a.content.mark = b.content.mark

theorem Slot.Alike.refl (a : Slot) : a.Alike a :=
  ⟨rfl, rfl⟩

theorem Signature.Provides.alike {γ : Signature} {slots base : List Slot} {known : Option Underway} {o : Origin}
    {m : Mark} (h : γ.Provides ⟨slots, known⟩ o m) (hbase : List.Forall₂ Slot.Alike base slots)
    (temps : List Slot) : γ.Provides ⟨temps ++ base, known⟩ o m where
  super := h.super
  variable_ := by
    have hvariable := h.variable_
    split
    · rename_i hlocal
      rw [if_pos hlocal] at hvariable
      obtain ⟨a, ha, hheld, hmark⟩ := hvariable
      have hflip : List.Forall₂ (fun a c : Slot => c.Alike a) slots base := hbase.flip
      obtain ⟨c, hc, halike⟩ := forall₂_reverse_getElem? hflip ha
      refine ⟨c, ?_, halike.held.trans hheld, halike.mark.trans hmark⟩
      rw [List.reverse_append, List.getElem?_append_left (List.getElem?_eq_some_iff.mp hc).1, hc]
    · rename_i hlocal
      rwa [if_neg hlocal] at hvariable

namespace PlanM

variable {γ : Signature} {n : Nat} {g g' g₂ g₃ : Plan} {l : Level} {ls : List Level}
  {drop : List Line} {name : Bytes} {place : Place}

theorem resolve_reads (h : resolve name g = some (place, g')) (hs : SoundLevels g.levels)
    {slots : List Slot} (hsuits : Suits γ slots g'.levels) {base : List Slot}
    (hbase : base.length = slots.length) (temps : List Slot) (known : Option Underway) :
    Flows γ [place.read] ⟨temps ++ base, known⟩ (some ⟨{} :: (temps ++ base), known⟩) := by
  have hweak (c : Content) : (⟨⟨c.copy, false⟩ :: (temps ++ base), known⟩ : Shape).Within
      ⟨{} :: (temps ++ base), known⟩ :=
    ⟨.cons ⟨.inr ⟨rfl, Content.mark_copy c⟩, id⟩ (forall₂_refl .refl _), Shape.known_refl _⟩
  obtain ⟨l, ls, hls, ⟨n, v, hfind, hinit, rfl, rfl⟩ | ⟨-, i, levels, hcap, rfl, rfl⟩ |
    ⟨-, k, levels, hcap, hk, rfl⟩⟩ := resolve_some h
  · obtain ⟨l', ls', hlevels, -, -, pend, rest, hlocals, hpend, hcovers⟩ := hsuits
    rw [hls] at hlevels
    cases hlevels
    obtain ⟨hv, -⟩ := findLocal_some hfind
    have hrest : n < rest.length := by
      rw [hlocals, List.reverse_append] at hv
      by_cases hn : n < rest.reverse.length
      · simpa using hn
      · rw [List.getElem?_append_right (Nat.le_of_not_lt hn)] at hv
        have := hpend v (List.mem_reverse.mp (List.mem_of_getElem? hv))
        rw [this] at hinit
        cases hinit
    have hn : n < base.reverse.length := by
      rw [List.length_reverse, hbase, hcovers.length_eq]
      exact hrest
    have ha : (temps ++ base).reverse[n]? = some base.reverse[n] := by
      rw [List.reverse_append, List.getElem?_append_left hn, List.getElem?_eq_getElem hn]
    have hread : Flows γ [Place.read (.slot n)] ⟨temps ++ base, known⟩
        (some ⟨⟨base.reverse[n].content.copy, false⟩ :: (temps ++ base), known⟩) := .effect (.getLocal ha)
    exact hread.leave (hweak _)
  · obtain ⟨-, -, hsome, -⟩ := findCapture_spec hcap hs
    obtain ⟨l', outer, o, rfl, ho, -, -⟩ := hsome i rfl
    obtain ⟨l'', ls'', hlevels, -, hmarks, -⟩ := hsuits
    cases hlevels
    have hlt := (List.getElem?_eq_some_iff.mp ho).1
    exact .effect (.getUpvalue (List.prefix_iff_getElem?.mp hmarks i (by simpa using hlt)) (.inl rfl))
  · obtain ⟨rfl, -⟩ := (findCapture_spec hcap hs).2.2.2 rfl
    exact .effect (.getGlobal ((constant_meets hk hs nofun).2 γ slots hsuits) (.inl rfl))

theorem sound_deeper (h : SoundLevels (l :: ls)) : SoundLevels ({ l with depth := l.depth + 1 } :: ls) :=
  ⟨⟨h.1.origins, fun v hv d hd => Nat.le_succ_of_le (h.1.depths v hv d hd), nofun, h.1.receiver,
    h.1.functions⟩, h.2⟩

theorem dropped_append {depth : Nat} {news kept : List Local} (hnews : ∀ v ∈ news, v.depth = some (depth + 1))
    (hkept : ∀ v ∈ kept, ∀ d ∈ v.depth, d ≤ depth) : dropped depth (news ++ kept) =
      (news.map fun v => .instr (if v.captured then .closeUpvalue else .pop) .none, kept) := by
  induction news with
  | nil =>
    cases kept with
    | nil => rfl
    | cons v kept =>
      rw [List.nil_append, dropped, if_neg]
      · rfl
      · intro hany
        obtain ⟨d, hd, hlt⟩ := (Option.any_eq_true _ _).mp hany
        have := hkept v (.head _) d hd
        rw [decide_eq_true_eq] at hlt
        omega
  | cons v news ih =>
    rw [List.cons_append, dropped, if_pos (by rw [hnews v (.head _)]; simp),
      ih fun u hu => hnews u (.tail _ hu)]
    rfl

def slotsOf (locals : List Local) : List Slot :=
  locals.map fun v => ⟨v.content, v.captured⟩

theorem covers_slotsOf (locals : List Local) : Covers (slotsOf locals) locals := by
  induction locals with
  | nil => exact .nil
  | cons v locals ih => exact .cons ⟨rfl, id⟩ ih

theorem flows_dropped (locals : List Local) {base : List Slot} (hbase : base ≠ []) (known : Option Underway) :
    Flows γ (locals.map fun v => .instr (if v.captured then .closeUpvalue else .pop) .none)
      ⟨slotsOf locals ++ base, known⟩ (some ⟨base, known⟩) := by
  induction locals with
  | nil => exact .nil (.refl _)
  | cons v locals ih =>
    refine Flows.append (a := [_]) (.effect ?_) ih
    cases hc : v.captured with
    | true => exact .closeUpvalue (by simp [hbase])
    | false =>
      simp only [slotsOf, List.map_cons, hc]
      exact .pop

theorem dropped_scope {c c' : List Bool} {l₂ : Level} {ls₂ : List Level} (hs : SoundLevels (l :: ls))
    (hadds : Plan.Adds n ⟨{ l with depth := l.depth + 1 } :: ls, c⟩ ⟨l₂ :: ls₂, c'⟩) :
    dropped (l₂.depth - 1) l₂.locals =
      ((l₂.locals.take n).map fun v => .instr (if v.captured then .closeUpvalue else .pop) .none, l₂.locals.drop n) ∧
    l₂.depth - 1 = l.depth ∧
    List.Forall₂ Level.Grown (l :: ls) ({ l₂ with depth := l.depth, locals := l₂.locals.drop n } :: ls₂) ∧
    SoundLevels ({ l₂ with depth := l.depth, locals := l₂.locals.drop n } :: ls₂) := by
  obtain ⟨l₂', ls₂', hl₂, hgrown, hls⟩ := hadds.levels rfl
  cases hl₂
  have hsound := hadds.sound
  have hdepth : l₂.depth = l.depth + 1 := hgrown.depth
  have hnews : ∀ v ∈ l₂.locals.take n, v.depth = some (l.depth + 1) := fun v hv => by
    rw [hadds.news l₂ rfl v hv, hdepth]
  have hkept : ∀ v ∈ l₂.locals.drop n, ∀ d ∈ v.depth, d ≤ l.depth := fun v hv d hd => by
    obtain ⟨u, hu, hu'⟩ := forall₂_mem_right hgrown.locals hv
    rw [hu'.depth] at hd
    exact hs.1.depths u hu d hd
  have hdropped := dropped_append hnews hkept
  rw [List.take_append_drop] at hdropped
  have hdepth' : l₂.depth - 1 = l.depth := by rw [hdepth, Nat.add_sub_cancel]
  have hback : l.Grown { l₂ with depth := l.depth, locals := l₂.locals.drop n } :=
    ⟨hgrown.kind, hgrown.name, hgrown.arity, rfl, hgrown.locals, hgrown.origins, hgrown.constants, hgrown.declared⟩
  rw [hdepth']
  exact ⟨hdropped, rfl, .cons hback hls, hs.1.grown hback hsound.1.origins hsound.1.functions hls, hsound.2⟩

theorem endScope_meets (hl : g.levels = l :: ls) (hs : SoundLevels g.levels) (hsettled : g.Settled)
    (hadds : Plan.Adds n { g with levels := { l with depth := l.depth + 1 } :: ls } g₂)
    (h : endScope g₂ = some (drop, g₃)) : g.Grown g₃ ∧ ∀ γ slots, Suits γ slots g₃.levels → slots ≠ [] ∧
      ∃ news : List Slot, news.length = n ∧ Suits γ (news ++ slots) g₂.levels ∧
        ∀ base known, base ≠ [] → Flows γ drop ⟨news ++ base, known⟩ (some ⟨base, known⟩) := by
  obtain ⟨l₂, ls₂, hl₂, rfl, rfl⟩ := endScope_some h
  obtain ⟨levels₂, classes₂⟩ := g₂
  cases hl₂
  rw [hl] at hs
  obtain ⟨hdropped, hdepth, hlevels, hsound₃⟩ := dropped_scope hs hadds
  have hsound := hadds.sound
  obtain ⟨l', ls', hl', hgrown, hls⟩ := hadds.levels (l := { l with depth := l.depth + 1 }) rfl
  cases hl'
  rw [hdropped, hdepth]
  refine ⟨⟨hl ▸ hlevels, hadds.grown.classes, hsound₃⟩, fun γ slots hsuits => ?_⟩
  have hroom : n ≤ l₂.locals.length := by
    have := hgrown.locals.length_eq
    have hpos := hs.1.locals_pos
    simp only [Level.under, List.length_drop] at this
    omega
  have hcovers := hsuits.covers fun v hv => by
    obtain ⟨u, hu, hu'⟩ := forall₂_mem_right hgrown.locals hv
    rw [hu'.depth]
    exact hsettled l (by rw [hl]; rfl) u hu
  refine ⟨fun hslots => ?_, slotsOf (l₂.locals.take n), ?_, ?_, fun base known hbase => flows_dropped _ hbase known⟩
  · have hlength := hcovers.length_eq
    have := hgrown.locals.length_eq
    have hpos := hs.1.locals_pos
    simp only [hslots, Level.under, List.length_drop, List.length_nil] at hlength this
    omega
  · rw [slotsOf, List.length_map, List.length_take, Nat.min_eq_left hroom]
  · obtain ⟨l', ls', hlevels, hconst, hmarks, -⟩ := hsuits
    cases hlevels
    refine ⟨l₂, ls₂, rfl, hconst, hmarks, [], l₂.locals, rfl, nofun, ?_⟩
    have hall : Covers (slotsOf (l₂.locals.take n) ++ slots) (l₂.locals.take n ++ l₂.locals.drop n) :=
      List.rel_append (covers_slotsOf _) hcovers
    rwa [List.take_append_drop] at hall

end PlanM

end Lox

import Lox.Proofs.Verify.Plan

namespace Lox

structure Plan.Grown (g g' : Plan) : Prop where
  levels : List.Forall₂ Level.Grown g.levels g'.levels
  classes : g'.classes = g.classes
  sound : SoundLevels g'.levels

theorem Plan.Grown.trans {g g' g'' : Plan} (h : g.Grown g') (h' : g'.Grown g'') : g.Grown g'' :=
  ⟨forall₂_chain .trans h.levels h'.levels, h'.classes.trans h.classes, h'.sound⟩

theorem Plan.Grown.refl {g : Plan} (h : SoundLevels g.levels) : g.Grown g :=
  ⟨forall₂_refl .refl _, rfl, h⟩

def HasSuper (levels : List Level) : Prop :=
  ∃ l ∈ levels, ∃ v ∈ l.locals, v.name = "super"

theorem forall₂_mem_left {α β : Type} {R : α → β → Prop} {as : List α} {bs : List β}
    (h : List.Forall₂ R as bs) {a : α} (ha : a ∈ as) : ∃ b ∈ bs, R a b := by
  induction h with
  | nil => cases ha
  | cons hab _ ih =>
    rcases List.mem_cons.mp ha with rfl | ha
    · exact ⟨_, .head _, hab⟩
    · obtain ⟨b, hb, hR⟩ := ih ha
      exact ⟨b, .tail _ hb, hR⟩

theorem HasSuper.grown {ls ls' : List Level} (h : HasSuper ls) (hls : List.Forall₂ Level.Grown ls ls') :
    HasSuper ls' := by
  obtain ⟨l, hl, v, hv, hname⟩ := h
  obtain ⟨l', hl', hgrown⟩ := forall₂_mem_left hls hl
  obtain ⟨v', hv', hv''⟩ := forall₂_mem_left hgrown.locals hv
  exact ⟨l', hl', v', hv', hv''.name.trans hname⟩

def Mark.content : Mark → Content
  | plain => .any
  | superclass => .superclass
  | first => .first

@[simp] theorem Content.mark_content (m : Mark) : m.content.mark = m := by
  cases m <;> rfl

def Local.content (v : Local) : Content :=
  (Mark.ofName v.name).content

structure Slot.Houses (a : Slot) (v : Local) : Prop where
  content : a.content = v.content
  held : v.captured = true → a.held = true

theorem Slot.Houses.back {a : Slot} {v v' : Local} (h : a.Houses v') (hv : v.Grown v') : a.Houses v where
  content := by
    rw [h.content, Local.content, Local.content, hv.name]
  held hc := h.held (hv.captured hc)

abbrev Covers (slots : List Slot) (locals : List Local) : Prop :=
  List.Forall₂ Slot.Houses slots locals

theorem Covers.back {slots : List Slot} {locals locals' : List Local} (h : Covers slots locals')
    (hl : List.Forall₂ Local.Grown locals locals') : Covers slots locals := by
  induction hl generalizing slots with
  | nil => exact h
  | cons hv _ ih =>
    cases h with
    | cons ha h => exact .cons (ha.back hv) (ih h)

def Plan.Idle (g : Plan) : Prop :=
  ∀ l ∈ g.levels.head?, ∀ v ∈ l.locals, v.name ≠ "super"

theorem Plan.idle_iff {g : Plan} : g.Idle ↔ ¬Inherits g.levels := by
  simp [Idle, Inherits]

theorem Plan.Idle.grown {g g' : Plan} (h : g.Idle) (hg : List.Forall₂ Level.Grown g.levels g'.levels) : g'.Idle := by
  rw [idle_iff, inherits_grown hg, ← idle_iff]
  exact h

theorem Covers.calm {slots : List Slot} {locals : List Local} (h : Covers slots locals)
    (hidle : ∀ v ∈ locals, v.name ≠ "super") : ∀ a ∈ slots, a.Calm := by
  intro a ha
  obtain ⟨v, hv, hhouses⟩ := forall₂_mem_left h ha
  unfold Slot.Calm
  rw [hhouses.content, Local.content, Mark.ofName, if_neg (hidle v hv)]
  split
  · exact .inr rfl
  · exact .inl rfl

theorem Covers.at {slots : List Slot} {locals : List Local} {n : Nat} {v : Local} (h : Covers slots locals)
    (hv : locals.reverse[n]? = some v) (temps : List Slot) :
    ∃ a, (temps ++ slots).reverse[n]? = some a ∧ a.Houses v := by
  have hflip : List.Forall₂ (fun v (a : Slot) => a.Houses v) locals slots := List.Forall₂.flip h
  obtain ⟨a, ha, hR⟩ := forall₂_reverse_getElem? hflip hv
  refine ⟨a, ?_, hR⟩
  rw [List.reverse_append, List.getElem?_append_left (List.getElem?_eq_some_iff.mp ha).1, ha]

structure Suits (γ : Signature) (slots : List Slot) (levels : List Level) : Prop where
  suits : ∃ l ls, levels = l :: ls ∧ (γ.kind = l.kind ∧ l.constants <+: γ.constants ∧ l.declared ⊆ γ.classes) ∧
    l.origins.map (Level.mark ls) <+: γ.marks ∧
    ∃ pend rest, l.locals = pend ++ rest ∧ (∀ v ∈ pend, v.depth = none) ∧ Covers slots rest

variable {γ : Signature} {slots : List Slot} {g g' : Plan}

theorem Suits.kind {l : Level} {ls levels : List Level} (h : Suits γ slots levels) (hl : levels = l :: ls) :
    γ.kind = l.kind := by
  obtain ⟨q, qs, hq, ⟨hkind, -⟩, -⟩ := h
  rw [hl] at hq
  cases hq
  exact hkind

theorem Suits.calm (h : Suits γ slots g.levels) (hidle : g.Idle) : ∀ a ∈ slots, a.Calm := by
  obtain ⟨l, ls, hl, -, -, pend, rest, hlocals, -, hcovers⟩ := h
  refine Covers.calm hcovers fun v hv => hidle l (by rw [hl]; rfl) v ?_
  rw [hlocals]
  exact List.mem_append_right _ hv

theorem map_mark_grown {l l' : Level} {ls ls' : List Level} (hs : SoundLevels (l :: ls))
    (hl : l.origins <+: l'.origins) (hls : List.Forall₂ Level.Grown ls ls') :
    l.origins.map (Level.mark ls) <+: l'.origins.map (Level.mark ls') := by
  have heq : l.origins.map (Level.mark ls) = l.origins.map (Level.mark ls') :=
    List.map_congr_left fun o ho => (mark_grown hs.2 hls (hs.1.origins o ho).valid).symm
  rw [heq]
  exact hl.map _

theorem Suits.back_levels {levels levels' : List Level} (h : Suits γ slots levels')
    (hs : SoundLevels levels) (hlevels : List.Forall₂ Level.Grown levels levels') :
    Suits γ slots levels := by
  obtain ⟨l', ls', rfl, hconst, hmarks, pend', rest', hlocals, hpend, hcovers⟩ := h
  cases hlevels with
  | @cons l _ ls _ hgrown htail =>
    have hforall := hgrown.locals
    rw [hlocals] at hforall
    obtain ⟨pend, rest, hsplit, hpends, hrest⟩ : ∃ pend rest, l.locals = pend ++ rest ∧
        List.Forall₂ Local.Grown pend pend' ∧ List.Forall₂ Local.Grown rest rest' :=
      ⟨_, _, (List.take_append_drop pend'.length l.locals).symm,
        by simpa using List.forall₂_take pend'.length hforall,
        by simpa using List.forall₂_drop pend'.length hforall⟩
    refine ⟨⟨l, ls, rfl, ⟨hconst.1.trans hgrown.kind, hgrown.constants.trans hconst.2.1,
      List.Subset.trans hgrown.declared hconst.2.2⟩,
      (map_mark_grown hs hgrown.origins htail).trans hmarks, pend, rest, hsplit, fun v hv => ?_,
      hcovers.back hrest⟩⟩
    obtain ⟨v', hv', hv''⟩ := forall₂_mem_left hpends hv
    rw [← hv''.depth]
    exact hpend v' hv'

theorem Suits.back (h : Suits γ slots g'.levels) (hs : SoundLevels g.levels) (hg : g.Grown g') :
    Suits γ slots g.levels :=
  h.back_levels hs hg.levels

namespace PlanM

theorem constant_meets {item : Item} {k : Nat} (h : constant item g = some (k, g'))
    (hs : SoundLevels g.levels) (hitem : ∀ f, item = .function f → f.Verified ∧ ∀ l ∈ g.levels.head?, f.classes ⊆
    l.declared) :
    g.Grown g' ∧ ∀ γ slots, Suits γ slots g'.levels → γ.constants[k]? = some item := by
  obtain ⟨l, ls, hls, rfl, rfl⟩ := constant_some h
  rw [hls] at hs
  have hl : l.Grown { l with constants := l.constants ++ [item] } :=
    ⟨rfl, rfl, rfl, rfl, forall₂_refl .refl _, List.prefix_refl _, List.prefix_append _ _, List.Subset.refl _⟩
  refine ⟨⟨?_, rfl, ?_, hs.2⟩, ?_⟩
  · rw [hls]
    exact .cons hl (forall₂_refl .refl _)
  · refine hs.1.grown hl hs.1.origins (fun f hf => ?_) (forall₂_refl .refl _)
    rcases List.mem_append.mp hf with hf | hf
    · exact hs.1.functions f hf
    · obtain ⟨hverified, hclasses⟩ := hitem f (List.mem_singleton.mp hf).symm
      exact ⟨hverified, hclasses l (by rw [hls]; rfl)⟩
  · rintro γ slots ⟨l', ls', hlevels, hconst, -⟩
    cases hlevels
    have := List.prefix_iff_getElem?.mp hconst.2.1 l.constants.length (by simp)
    rw [this, List.getElem_append_right (Nat.le_refl _)]
    simp

theorem ofName_plain {name : Bytes} (h : name ∉ hiddenNames) : Mark.ofName name = .plain := by
  simp only [hiddenNames, List.mem_cons, List.not_mem_nil, or_false, not_or] at h
  rw [Mark.ofName, if_neg h.1, if_neg (by simp [h.2])]

theorem resolve_meets {name : Bytes} {place : Place} (h : resolve name g = some (place, g'))
    (hs : SoundLevels g.levels) : g.Grown g' ∧ ∀ γ slots, Suits γ slots g'.levels → ∀ temps known,
      Flows γ [place.read] ⟨temps ++ slots, known⟩ (some ⟨{} :: (temps ++ slots), known⟩) ∧
      (g.Idle → name = "super" → HasSuper g.levels → Flows γ [place.read] ⟨temps ++ slots, known⟩
        (some ⟨⟨.parent, false⟩ :: (temps ++ slots), known⟩)) ∧
      (g.Idle → name ∉ hiddenNames → (∀ a ∈ temps, a.content = .any) → ∀ a, a.content = .any →
        Flows γ [place.write] ⟨a :: (temps ++ slots), none⟩ (some ⟨a :: (temps ++ slots), none⟩)) := by
  obtain ⟨l, ls, hls, ⟨n, v, hfind, hinit, rfl, rfl⟩ | ⟨-, i, levels, hcap, rfl, rfl⟩ |
    ⟨hfind, k, levels, hcap, hk, rfl⟩⟩ := resolve_some h
  · -- a variable of the function
    refine ⟨.refl hs, ?_⟩
    rintro γ slots ⟨l', ls', hlevels, -, -, pend, rest, hlocals, hpend, hcovers⟩ temps known
    rw [hls] at hlevels
    cases hlevels
    obtain ⟨hv, hname⟩ := findLocal_some hfind
    have hrest : rest.reverse[n]? = some v := by
      rw [hlocals, List.reverse_append] at hv
      by_cases hn : n < rest.reverse.length
      · rwa [List.getElem?_append_left hn] at hv
      · rw [List.getElem?_append_right (Nat.le_of_not_lt hn)] at hv
        have := hpend v (List.mem_reverse.mp (List.mem_of_getElem? hv))
        rw [this] at hinit
        cases hinit
    obtain ⟨a, ha, hhouses⟩ := Covers.at hcovers hrest temps
    have hread : Flows γ [Place.read (.slot n)] ⟨temps ++ slots, known⟩
        (some ⟨⟨a.content.copy, false⟩ :: (temps ++ slots), known⟩) := .effect (.getLocal ha)
    refine ⟨hread.leave ⟨.cons ⟨.inr ⟨rfl, Content.mark_copy _⟩, id⟩ (forall₂_refl .refl _), Shape.known_refl _⟩,
      fun hidle hsuper _ => ?_, fun _ hne hcalm b hb => ?_⟩
    · have hmem : v ∈ l.locals := List.mem_reverse.mp (List.mem_of_getElem? hv)
      exact absurd (hname.trans hsuper) (hidle l (by rw [hls]; rfl) v hmem)
    · obtain ⟨⟨c, held⟩, hb', hhouses'⟩ := Covers.at hcovers hrest (b :: temps)
      have hcontent : c = v.content := hhouses'.content
      rw [Local.content, hname, ofName_plain hne] at hcontent
      subst hcontent
      exact .effect (.setLocal hb')
  · -- a captured variable
    obtain ⟨hgrown, hsound, hsome, -⟩ := findCapture_spec hcap hs
    obtain ⟨l', outer, o, rfl, ho, -, hmark⟩ := hsome i rfl
    refine ⟨⟨hgrown, rfl, hsound⟩, ?_⟩
    rintro γ slots ⟨l'', ls'', hlevels, -, hmarks, pend, rest, hlocals, -, hcovers⟩ temps known
    cases hlevels
    have hi : γ.marks[i]? = some (.ofName name) := by
      have hlt := (List.getElem?_eq_some_iff.mp ho).1
      rw [List.prefix_iff_getElem?.mp hmarks i (by simpa using hlt)]
      rw [List.getElem_map, Option.some.inj ((List.getElem?_eq_getElem hlt).symm.trans ho), hmark]
    refine ⟨.effect (.getUpvalue hi (.inl rfl)), fun _ hname _ => ?_, fun hidle hne hcalm a ha => ?_⟩
    · subst hname
      exact .effect (.getUpvalue hi (.inr ⟨rfl, rfl⟩))
    · rw [ofName_plain hne] at hi
      refine .effect (.setUpvalue hi (List.forall_mem_cons.mpr ⟨.inl ha, fun b hb => ?_⟩))
      rcases List.mem_append.mp hb with hb | hb
      · exact .inl (hcalm b hb)
      · have hidle' : Plan.Idle ⟨l' :: outer, g.classes⟩ := hidle.grown hgrown
        exact hcovers.calm (fun v hv => hidle' l' rfl v (by rw [hlocals]; exact List.mem_append_right _ hv)) b hb
  · -- a global
    obtain ⟨hgrown, hsound, -, hnone⟩ := findCapture_spec hcap hs
    obtain ⟨rfl, hnames⟩ := hnone rfl
    obtain ⟨hgrown', hconst⟩ := constant_meets hk hs nofun
    refine ⟨hgrown', fun γ slots hsuits temps known => ?_⟩
    have hk' : γ.Names k name := hconst γ slots hsuits
    refine ⟨.effect (.getGlobal hk' (.inl rfl)), fun _ hname ⟨q, hq, v, hv, hv'⟩ => ?_,
      fun _ _ _ a _ => .effect (.setGlobal hk')⟩
    rw [hls] at hq hnames
    rcases List.mem_cons.mp hq with rfl | hq
    · exact absurd (hv'.trans hname.symm) (findLocal_none hfind v hv)
    · exact absurd (hv'.trans hname.symm) (hnames q hq v hv)

end PlanM

end Lox

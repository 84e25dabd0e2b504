import Lox.Proofs.Source.Plans
import Lox.Proofs.Verify.Flow

namespace Lox

abbrev pushed (n : Nat) : List Slot :=
  List.replicate n ⟨.any, false⟩

def Listing.entry (f : Listing Item) : Shape :=
  ⟨pushed f.arity ++ [⟨.first, true⟩], none⟩

def Listing.signature (f : Listing Item) : Signature :=
  ⟨f.kind, f.constants, f.marks, f.classes⟩

inductive Listing.Verified : Listing Item → Prop
  | intro {f : Listing Item} : f.marks.length = f.origins.length →
      Flows f.signature f.code f.entry none →
      (∀ q, Item.function q ∈ f.constants → q.classes ⊆ f.classes) →
      (∀ q, Item.function q ∈ f.constants → q.Verified) → f.Verified

structure Local.Grown (v v' : Local) : Prop where
  name : v'.name = v.name
  depth : v'.depth = v.depth
  captured : v.captured = true → v'.captured = true

theorem Local.Grown.refl (v : Local) : v.Grown v :=
  ⟨rfl, rfl, id⟩

theorem Local.Grown.trans {u v w : Local} (h : u.Grown v) (h' : v.Grown w) : u.Grown w :=
  ⟨h'.name.trans h.name, h'.depth.trans h.depth, fun hu => h'.captured (h.captured hu)⟩

structure Level.Grown (l l' : Level) : Prop where
  kind : l'.kind = l.kind
  name : l'.name = l.name
  arity : l'.arity = l.arity
  depth : l'.depth = l.depth
  locals : List.Forall₂ Local.Grown l.locals l'.locals
  origins : l.origins <+: l'.origins
  constants : l.constants <+: l'.constants
  declared : l.declared ⊆ l'.declared

section

variable {α : Type} {R : α → α → Prop}

theorem forall₂_refl (hR : ∀ a, R a a) (as : List α) : List.Forall₂ R as as :=
  List.forall₂_same.mpr fun a _ => hR a

theorem forall₂_chain {α β γ : Type} {R : α → β → Prop} {S : β → γ → Prop} {T : α → γ → Prop}
    (hT : ∀ {a b c}, R a b → S b c → T a c) {as : List α} {bs : List β} {cs : List γ}
    (h : List.Forall₂ R as bs) (h' : List.Forall₂ S bs cs) : List.Forall₂ T as cs := by
  induction h generalizing cs with
  | nil =>
    cases h'
    exact .nil
  | cons hab _ ih =>
    cases h' with
    | cons hbc h' => exact .cons (hT hab hbc) (ih h')

theorem forall₂_reverse_getElem? {β : Type} {S : α → β → Prop} {as : List α} {bs : List β}
    (h : List.Forall₂ S as bs) {n : Nat} {a : α} (ha : as.reverse[n]? = some a) :
    ∃ b, bs.reverse[n]? = some b ∧ S a b := by
  have hrev := List.rel_reverse h
  generalize as.reverse = as', bs.reverse = bs' at hrev ha
  clear h
  induction hrev generalizing n with
  | nil => cases ha
  | cons hab _ ih =>
    cases n with
    | zero =>
      cases ha
      exact ⟨_, rfl, hab⟩
    | succ n => exact ih ha

theorem forall₂_getElem?_left {α β : Type} {R : α → β → Prop} {as : List α} {bs : List β}
    (h : List.Forall₂ R as bs) {n : Nat} {a : α} (ha : as[n]? = some a) :
    ∃ b, bs[n]? = some b ∧ R a b := by
  have hlt := (List.getElem?_eq_some_iff.mp ha).1
  have hlt' : n < bs.length := h.length_eq ▸ hlt
  refine ⟨bs[n], List.getElem?_eq_getElem hlt', ?_⟩
  obtain ⟨-, rfl⟩ := List.getElem?_eq_some_iff.mp ha
  exact h.get hlt hlt'

end

theorem Level.Grown.refl (l : Level) : l.Grown l :=
  ⟨rfl, rfl, rfl, rfl, forall₂_refl .refl _, List.prefix_refl _, List.prefix_refl _, List.Subset.refl _⟩

theorem Level.Grown.trans {l l' l'' : Level} (h : l.Grown l') (h' : l'.Grown l'') : l.Grown l'' :=
  ⟨h'.kind.trans h.kind, h'.name.trans h.name, h'.arity.trans h.arity, h'.depth.trans h.depth,
    forall₂_chain .trans h.locals h'.locals, h.origins.trans h'.origins,
    h.constants.trans h'.constants, List.Subset.trans h.declared h'.declared⟩

theorem findLocal_some {name : Bytes} {locals : List Local} {slot : Nat} {v : Local}
    (h : findLocal name locals = some (slot, v)) : locals.reverse[slot]? = some v ∧ v.name = name := by
  induction locals with
  | nil => cases h
  | cons u rest ih =>
    unfold findLocal at h
    split at h
    · cases h
      exact ⟨by simp, by assumption⟩
    · obtain ⟨hv, hname⟩ := ih h
      refine ⟨?_, hname⟩
      rw [List.reverse_cons, List.getElem?_append_left (List.getElem?_eq_some_iff.mp hv).1, hv]

theorem findLocal_none {name : Bytes} {locals : List Local} (h : findLocal name locals = none) :
    ∀ v ∈ locals, v.name ≠ name := by
  induction locals with
  | nil => nofun
  | cons u rest ih =>
    unfold findLocal at h
    split at h
    · cases h
    · exact List.forall_mem_cons.mpr ⟨by assumption, ih h⟩

theorem grown_captureLocal (slot : Nat) (locals : List Local) :
    List.Forall₂ Local.Grown locals (captureLocal slot locals) := by
  induction locals with
  | nil => exact .nil
  | cons v rest ih =>
    unfold captureLocal
    split
    · exact .cons ⟨rfl, rfl, fun _ => rfl⟩ (forall₂_refl .refl _)
    · exact .cons (.refl v) ih

theorem captureLocal_at {slot : Nat} {locals : List Local} {v : Local}
    (h : locals.reverse[slot]? = some v) :
    (captureLocal slot locals).reverse[slot]? = some { v with captured := true } := by
  induction locals with
  | nil => cases h
  | cons u rest ih =>
    unfold captureLocal
    rw [List.reverse_cons] at h
    split
    · rename_i hlen
      subst hlen
      simp only [List.reverse_cons, List.getElem?_append_right, List.length_reverse, Nat.le_refl,
        Nat.sub_self, List.getElem?_cons_zero, Option.some.injEq] at h ⊢
      rw [h]
    · rename_i hlen
      have hlt : slot < rest.reverse.length := by
        have := (List.getElem?_eq_some_iff.mp h).1
        simp only [List.length_append, List.length_reverse, List.length_cons, List.length_nil] at this ⊢
        omega
      rw [List.getElem?_append_left hlt] at h
      have := ih h
      rw [List.reverse_cons, List.getElem?_append_left (List.getElem?_eq_some_iff.mp this).1, this]

def Origin.Valid (o : Origin) : List Level → Prop
  | [] => False
  | l :: _ =>
    if o.isLocal then
      ∃ v, l.locals.reverse[o.index]? = some v ∧ v.depth.isSome = true ∧ v.captured = true
    else o.index < l.origins.length

def Inherits (levels : List Level) : Prop :=
  ∃ l ∈ levels.head?, ∃ v ∈ l.locals, v.name = "super"

/-- What is captured is there, and a superclass is captured where its class is declared. -/
structure Origin.Sound (o : Origin) (levels : List Level) : Prop where
  valid : o.Valid levels
  super : Level.mark levels o = .superclass → (o.isLocal = true ↔ Inherits levels)

structure Level.Sound (outer : List Level) (l : Level) : Prop where
  origins : ∀ o ∈ l.origins, o.Sound outer
  depths : ∀ v ∈ l.locals, ∀ d ∈ v.depth, d ≤ l.depth
  outside : l.depth = 0 → outer = [] ∧ (∀ v ∈ l.locals, v.name = "") ∧ l.locals.length = 1
  receiver : ∃ v, l.locals.reverse[0]? = some v ∧ .ofName v.name = Mark.first
  functions : ∀ f, Item.function f ∈ l.constants → f.Verified ∧ f.classes ⊆ l.declared

theorem Level.Sound.locals_pos {l : Level} {outer : List Level} (h : l.Sound outer) : 0 < l.locals.length := by
  obtain ⟨v, hv, -⟩ := h.receiver
  have := (List.getElem?_eq_some_iff.mp hv).1
  rwa [List.length_reverse] at this

def SoundLevels : List Level → Prop
  | [] => True
  | l :: outer => l.Sound outer ∧ SoundLevels outer

section

variable {ls ls' : List Level} {o : Origin}

theorem Origin.Valid.grown (h : o.Valid ls) (hls : List.Forall₂ Level.Grown ls ls') : o.Valid ls' := by
  cases hls with
  | nil => exact h
  | cons hl _ =>
    simp only [Origin.Valid] at h ⊢
    by_cases hlocal : o.isLocal = true
    · rw [if_pos hlocal] at h ⊢
      obtain ⟨v, hv, hdepth, hcap⟩ := h
      obtain ⟨v', hv', hgrown⟩ := forall₂_reverse_getElem? hl.locals hv
      exact ⟨v', hv', by rw [hgrown.depth]; exact hdepth, hgrown.captured hcap⟩
    · rw [if_neg hlocal] at h ⊢
      exact Nat.lt_of_lt_of_le h hl.origins.length_le

theorem inherits_grown (hls : List.Forall₂ Level.Grown ls ls') : Inherits ls' ↔ Inherits ls := by
  cases hls with
  | nil => exact Iff.rfl
  | cons hl _ =>
    have hnames {as bs : List Local} (h : List.Forall₂ Local.Grown as bs) :
        (∃ v ∈ bs, v.name = "super") ↔ ∃ v ∈ as, v.name = "super" := by
      induction h with
      | nil => exact Iff.rfl
      | cons hv _ ih => simp [hv.name, ih]
    simp [Inherits, hnames hl.locals]

theorem mark_grown (h : SoundLevels ls) (hls : List.Forall₂ Level.Grown ls ls') (ho : o.Valid ls) :
    Level.mark ls' o = Level.mark ls o := by
  induction hls generalizing o with
  | nil => rfl
  | cons hl hls ih =>
    simp only [Origin.Valid, Level.mark] at ho ⊢
    by_cases hlocal : o.isLocal = true
    · rw [if_pos hlocal] at ho ⊢
      obtain ⟨v, hv, -, -⟩ := ho
      obtain ⟨v', hv', hgrown⟩ := forall₂_reverse_getElem? hl.locals hv
      rw [if_pos hlocal, hv, hv']
      dsimp only
      rw [hgrown.name]
    · rw [if_neg hlocal] at ho ⊢
      rw [if_neg hlocal, List.getElem?_eq_getElem ho, List.prefix_iff_getElem?.mp hl.origins _ ho]
      exact ih h.2 (h.1.origins _ (List.getElem_mem ho)).valid

theorem Origin.Sound.grown (h : o.Sound ls) (hs : SoundLevels ls) (hls : List.Forall₂ Level.Grown ls ls') :
    o.Sound ls' where
  valid := h.valid.grown hls
  super hmark := by
    rw [mark_grown hs hls h.valid] at hmark
    rw [inherits_grown hls]
    exact h.super hmark

theorem forall₂_mem_right {α β : Type} {R : α → β → Prop} {as : List α} {bs : List β}
    (h : List.Forall₂ R as bs) {b : β} (hb : b ∈ bs) : ∃ a ∈ as, R a b := by
  induction h with
  | nil => cases hb
  | cons hab _ ih =>
    rcases List.mem_cons.mp hb with rfl | hb
    · exact ⟨_, .head _, hab⟩
    · obtain ⟨a, ha, hR⟩ := ih hb
      exact ⟨a, .tail _ ha, hR⟩

theorem Level.Sound.grown {l l' : Level} (h : l.Sound ls) (hl : l.Grown l')
    (horigins : ∀ o ∈ l'.origins, o.Sound ls')
    (hfunctions : ∀ f, Item.function f ∈ l'.constants → f.Verified ∧ f.classes ⊆ l'.declared)
    (hls : List.Forall₂ Level.Grown ls ls') : l'.Sound ls' where
  origins := horigins
  depths v hv d hd := by
    obtain ⟨u, hu, hgrown⟩ := forall₂_mem_right hl.locals hv
    rw [hgrown.depth] at hd
    rw [hl.depth]
    exact h.depths u hu d hd
  outside hd := by
    obtain ⟨rfl, hnames, hlength⟩ := h.outside (hl.depth ▸ hd)
    cases hls
    refine ⟨rfl, fun v hv => ?_, hl.locals.length_eq.symm.trans hlength⟩
    obtain ⟨u, hu, hgrown⟩ := forall₂_mem_right hl.locals hv
    exact hgrown.name.trans (hnames u hu)
  receiver := by
    obtain ⟨v, hv, hname⟩ := h.receiver
    obtain ⟨v', hv', hgrown⟩ := forall₂_reverse_getElem? hl.locals hv
    exact ⟨v', hv', by rw [hgrown.name, hname]⟩
  functions := hfunctions

theorem capture_spec {l l' : Level} {i : Nat} (hl : l.Sound ls) (hs : SoundLevels ls) (ho : o.Sound ls')
    (hls : List.Forall₂ Level.Grown ls ls') (h : l.capture o = (i, l')) :
    l.Grown l' ∧ l'.Sound ls' ∧ l'.origins[i]? = some o := by
  unfold Level.capture at h
  split at h
  · rename_i j hj
    cases h
    obtain ⟨hlt, hbeq, -⟩ := List.findIdx?_eq_some_iff_getElem.mp hj
    refine ⟨.refl l, hl.grown (.refl l) (fun o ho => (hl.origins o ho).grown hs hls) hl.functions hls, ?_⟩
    rw [List.getElem?_eq_getElem hlt, beq_iff_eq.mp hbeq]
  · cases h
    have hgrown : l.Grown { l with origins := l.origins ++ [o] } :=
      ⟨rfl, rfl, rfl, rfl, forall₂_refl .refl _, List.prefix_append _ _, List.prefix_refl _, List.Subset.refl _⟩
    refine ⟨hgrown, hl.grown hgrown (fun p hp => ?_) hl.functions hls, by simp⟩
    rcases List.mem_append.mp hp with hp | hp
    · exact (hl.origins p hp).grown hs hls
    · rw [List.mem_singleton] at hp
      exact hp ▸ ho

theorem ofName_superclass {name : Bytes} (h : Mark.ofName name = .superclass) : name = "super" := by
  unfold Mark.ofName at h
  split at h
  · assumption
  · split at h <;> cases h

theorem findCapture_spec {name : Bytes} {r : Option Nat} (h : Level.findCapture name ls = some (r, ls'))
    (hs : SoundLevels ls) : List.Forall₂ Level.Grown ls ls' ∧ SoundLevels ls' ∧
      (∀ i ∈ r, ∃ l' outer o, ls' = l' :: outer ∧ l'.origins[i]? = some o ∧ o.Sound outer ∧
        Level.mark outer o = .ofName name) ∧
      (r = none → ls' = ls ∧ ∀ l ∈ ls.tail, ∀ v ∈ l.locals, v.name ≠ name) := by
  induction ls generalizing r ls' with
  | nil =>
    cases h
    exact ⟨.nil, trivial, nofun, fun _ => ⟨rfl, nofun⟩⟩
  | cons l outer ih =>
    cases outer with
    | nil =>
      cases h
      exact ⟨.cons (.refl l) .nil, hs, nofun, fun _ => ⟨rfl, nofun⟩⟩
    | cons q rest =>
      rw [Level.findCapture] at h
      cases hfind : findLocal name q.locals with
      | some found =>
        obtain ⟨slot, v⟩ := found
        rw [hfind] at h
        dsimp only at h
        split at h
        · cases h
        · rename_i hinit
          cases h
          obtain ⟨hv, hname⟩ := findLocal_some hfind
          let q' : Level := { q with locals := captureLocal slot q.locals }
          have hq : q.Grown q' := ⟨rfl, rfl, rfl, rfl, grown_captureLocal _ _, List.prefix_refl _,
            List.prefix_refl _, List.Subset.refl _⟩
          have houter : List.Forall₂ Level.Grown (q :: rest) (q' :: rest) := .cons hq (forall₂_refl .refl _)
          have hq' : q'.Sound rest := hs.2.1.grown hq hs.2.1.origins hs.2.1.functions (forall₂_refl .refl _)
          have hvalid : Origin.Valid ⟨true, slot⟩ (q' :: rest) :=
            ⟨_, captureLocal_at hv, by simpa [Option.isSome_iff_ne_none] using hinit, rfl⟩
          have hmark : Level.mark (q' :: rest) ⟨true, slot⟩ = .ofName name := by
            simp only [Level.mark, if_true]
            rw [show q'.locals.reverse[slot]? = _ from captureLocal_at hv]
            dsimp only
            rw [hname]
          have hinherits : Inherits (q :: rest) ↔ Inherits (q' :: rest) := (inherits_grown houter).symm
          have hcaptured : Origin.Sound ⟨true, slot⟩ (q' :: rest) := by
            refine ⟨hvalid, fun hsuper => ⟨fun _ => hinherits.mp ⟨q, rfl, v, ?_, ?_⟩, fun _ => rfl⟩⟩
            · exact List.mem_reverse.mp (List.mem_of_getElem? hv)
            · rw [hname]
              exact ofName_superclass (hmark.symm.trans hsuper)
          obtain ⟨hgrown, hsound, hat⟩ := capture_spec hs.1 hs.2 hcaptured houter rfl
          refine ⟨.cons hgrown houter, ⟨hsound, hq', hs.2.2⟩, ?_, nofun⟩
          intro i hi
          cases hi
          exact ⟨_, _, _, rfl, hat, hcaptured, hmark⟩
      | none =>
        rw [hfind] at h
        dsimp only at h
        cases hrec : Level.findCapture name (q :: rest) with
        | none =>
          rw [hrec] at h
          cases h
        | some found =>
          obtain ⟨r', outer'⟩ := found
          rw [hrec] at h
          obtain ⟨hgrown, hsound, hsome, hnone⟩ := ih hrec hs.2
          cases r' with
          | none =>
            cases h
            obtain ⟨rfl, hnames⟩ := hnone rfl
            exact ⟨forall₂_refl .refl _, hs, nofun, fun _ => ⟨rfl,
              List.forall_mem_cons.mpr ⟨findLocal_none hfind, hnames⟩⟩⟩
          | some j =>
            cases h
            obtain ⟨q', rest', o, rfl, ho, hvalid, hmark⟩ := hsome j rfl
            have hmark' : Level.mark (q' :: rest') ⟨false, j⟩ = .ofName name := by
              rw [Level.mark, if_neg Bool.false_ne_true, ho]
              exact hmark
            have hj : Origin.Sound ⟨false, j⟩ (q' :: rest') := by
              refine ⟨(List.getElem?_eq_some_iff.mp ho).1, fun hsuper => ⟨nofun, fun hinherits => ?_⟩⟩
              obtain ⟨p, hp, v, hv, hname⟩ := (inherits_grown hgrown).mp hinherits
              cases hp
              exact absurd (hname.trans (ofName_superclass (hmark'.symm.trans hsuper)).symm) (findLocal_none hfind v hv)
            obtain ⟨hl, hl', hat⟩ := capture_spec hs.1 hs.2 hj hgrown rfl
            refine ⟨.cons hl hgrown, ⟨hl', hsound⟩, ?_, nofun⟩
            intro i hi
            cases hi
            exact ⟨_, _, _, rfl, hat, hj, hmark'⟩

end

end Lox

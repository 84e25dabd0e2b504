import Lox.Proofs.Safety.Fetch

namespace Lox

structure Slot.May (x y : Slot) : Prop where
  content : y.content = .any ∨ y.content = x.content
  held : x.held = true → y.held = true ∧ y.content.mark = x.content.mark

namespace Slot

variable {x y : Slot}

theorem May.refl (x : Slot) : x.May x :=
  ⟨.inr rfl, fun h => ⟨h, rfl⟩⟩

theorem Within.may (h : x.Within y) : x.May y :=
  ⟨h.content.elim (fun he => .inr he.symm) (fun he => .inl he.1), fun hx => ⟨h.held hx, h.content.mark⟩⟩

theorem may_of_free (hx : x.held = false) (b : Bool) : x.May ⟨.any, b⟩ :=
  ⟨.inl rfl, fun h => by rw [hx] at h; cases h⟩

theorem May.first (h : (⟨.first, true⟩ : Slot).May y) : y = ⟨.first, true⟩ := by
  obtain ⟨hheld, hmark⟩ := h.held rfl
  obtain ⟨c, held⟩ := y
  rcases h.content with hc | hc
  · subst hc
    cases hmark
  · subst hc
    subst hheld
    rfl

end Slot

section

variable {objects objects' : List (Obj Routine)} {Γ Γ' : Facts} {upvalues upvalues' a c : Nat} {o : Obj Routine}
  {p : Prototype} {v : Val} {x y : Slot}

theorem Slot.May.holds (h : x.May y) (hv : Γ.Holds c x.content v) : Γ.Holds c y.content v := by
  rcases h.content with hc | hc <;> rw [hc]
  · trivial
  · exact hv

structure Facts.Extends (Γ Γ' : Facts) (objects : List (Obj Routine)) (upvalues : Nat) : Prop where
  listing : ∀ c < objects.length, Γ'.listing c = Γ.listing c
  home : ∀ c < objects.length, Γ'.home c = Γ.home c
  mark : ∀ u < upvalues, Γ'.mark u = Γ.mark u
  superclass : ∀ u < upvalues, Γ'.superclass u = Γ.superclass u
  parent : ∀ k p, Γ.lineage.parent k = some p → Γ'.lineage.parent k = some p
  unfinished : ∀ c < objects.length, Γ'.unfinished = some c ↔ Γ.unfinished = some c
  bodies : Γ'.bodies = Γ.bodies

namespace Facts

theorem Extends.refl (Γ : Facts) (objects : List (Obj Routine)) (upvalues : Nat) : Γ.Extends Γ objects upvalues :=
  ⟨fun _ _ => rfl, fun _ _ => rfl, fun _ _ => rfl, fun _ _ => rfl, fun _ _ => id, fun _ _ => Iff.rfl, rfl⟩

theorem Vouches.extends (h : Γ.Vouches objects upvalues a o) (ha : objects[a]? = some o)
    (hΓ : Γ.Extends Γ' objects upvalues) (hl : Obj.Later objects objects') (hu : upvalues ≤ upvalues') :
    Γ'.Vouches objects' upvalues' a o := by
  have hlt := (List.getElem?_eq_some_iff.mp ha).1
  cases o with
  | closure r =>
    obtain ⟨hverified, hmade, hclasses, hlength, hcaptures, hfinished⟩ := h
    unfold Vouches
    rw [hΓ.listing a hlt, hΓ.home a hlt, hΓ.bodies]
    refine ⟨hverified, hmade, hclasses, hlength, fun j u hj => ?_, fun hne => hfinished fun he =>
      hne ((hΓ.unfinished a hlt).mpr he)⟩
    obtain ⟨hu', hmark, hsuper⟩ := hcaptures j u hj
    rw [hΓ.mark u hu', hΓ.superclass u hu']
    refine ⟨Nat.lt_of_lt_of_le hu' hu, hmark, fun hs => ?_⟩
    obtain ⟨k, hk, hparent⟩ := hsuper hs
    exact ⟨k, hk, hΓ.parent k _ hparent⟩
  | native n => exact h
  | class_ name methods => trivial
  | instance_ k fields => exact hl.classAt h
  | bound receiver m => exact hl.closureAt h

theorem Knows.extends {s : Sheet} (h : Γ.Knows objects c p s) (hΓ : Γ.Extends Γ' objects upvalues)
    (hl : Obj.Later objects objects') : Γ'.Knows objects' c p s := by
  obtain ⟨hclosure, hcertified, hfinished⟩ := h
  refine ⟨hl.closures c p hclosure, ?_, fun he => hfinished ((hΓ.unfinished c hclosure.lt).mp he)⟩
  rw [hΓ.listing c hclosure.lt]
  exact hcertified

theorem Waiting.extends {frames : List Activation} {below : List Slot} (h : Γ.Waiting objects frames below)
    (hΓ : Γ.Extends Γ' objects upvalues) (hl : Obj.Later objects objects') : Γ'.Waiting objects' frames below := by
  induction h with
  | nil => exact .nil
  | cons hknows hadmits hslots hcalm hbase _ ih => exact .cons (hknows.extends hΓ hl) hadmits hslots hcalm hbase ih

theorem Waiting.calm {frames : List Activation} {below : List Slot} (h : Γ.Waiting objects frames below) :
    ∀ s ∈ below, s.Calm := by
  induction h with
  | nil => rintro _ ⟨⟩
  | cons _ _ _ hcalm _ _ ih =>
    intro s hs
    rcases List.mem_append.mp hs with hs | hs
    · exact hcalm s hs
    · exact ih s hs

theorem Genuine.later (h : Γ.Genuine objects) (hl : Obj.Later objects objects')
    (ho : ∀ (k : Nat) name methods, objects'[k]? = some (.class_ name methods) →
      objects[k]? = some (.class_ name methods)) : Γ.Genuine objects' where
  parents k p hp := by
    obtain ⟨hk, hp', hlast⟩ := h.parents k p hp
    exact ⟨hl.classAt hk, hl.classAt hp', hlast⟩
  owners k name m hm := by
    obtain ⟨hk, hm', hrest⟩ := h.owners k name m hm
    exact ⟨hl.classAt hk, hl.closureAt hm', hrest⟩
  makers m c hm := by
    obtain ⟨hm', hc, hrest⟩ := h.makers m c hm
    exact ⟨hl.closureAt hm', hl.closureAt hc, hrest⟩
  tables k name methods hk := h.tables k name methods (ho k name methods hk)
  bodies k name methods hk := h.bodies k name methods (ho k name methods hk)

theorem gives_same {ds : List (Lambda Stmt)} {xs : List (Bytes × Nat)} (h : List.Forall₂ Γ.Gives ds xs)
    (hlisting : ∀ x ∈ xs, Γ'.listing x.2 = Γ.listing x.2) : List.Forall₂ Γ'.Gives ds xs := by
  induction h with
  | nil => exact .nil
  | @cons d x ds xs hx _ ih =>
    refine .cons ⟨hx.1, ?_⟩ (ih fun y hy => hlisting y (.tail _ hy))
    rw [hlisting x (.head _)]
    exact hx.2

theorem Fulfils.same {k : Nat} {name : Bytes} {b : ClassBody} (h : Γ.Fulfils k name b) (hbodies : Γ'.bodies = Γ.bodies)
    (hlisting : ∀ x ∈ Γ.lineage.own k, Γ'.listing x.2 = Γ.listing x.2)
    (hown : Γ'.lineage.own k = Γ.lineage.own k) (hparent : Γ'.lineage.parent k = Γ.lineage.parent k) :
    Γ'.Fulfils k name b where
  listed := hbodies ▸ h.listed
  name := h.name
  superclass := hparent ▸ h.superclass
  methods := by
    rw [hown]
    exact gives_same h.methods fun x hx => hlisting x (List.mem_reverse.mp hx)

theorem Genuine.same (h : Γ.Genuine objects) (hlineage : Γ'.lineage = Γ.lineage) (hlisting : Γ'.listing = Γ.listing)
    (hhome : Γ'.home = Γ.home) (hpending : Γ'.pending = Γ.pending) (hdeclaring : Γ'.declaring = Γ.declaring)
    (hbodies : Γ'.bodies = Γ.bodies) : Γ'.Genuine objects where
  parents := by
    rw [hlineage, hdeclaring]
    exact h.parents
  owners := by
    rw [hlineage, hlisting, hhome]
    exact h.owners
  makers := by
    rw [hlineage, hhome, hpending]
    exact h.makers
  tables := by
    rw [hlineage]
    exact h.tables
  bodies k name methods hk hne := by
    obtain ⟨b, hb⟩ := h.bodies k name methods hk (hdeclaring ▸ hne)
    exact ⟨b, hb.same hbodies (fun x _ => congrFun hlisting x.2) (by rw [hlineage]) (by rw [hlineage])⟩

end Facts

end

namespace Ideal

namespace Typed

variable {Γ Γ' : Facts} {i : Ideal} {slots slots' : List Slot} {x : Slot} {v : Val} {n c : Nat}

theorem length_stack (h : i.Typed Γ c slots) : i.stack.length = slots.length := by
  have := h.values.length_eq
  rw [List.length_reverse] at this
  exact this.symm

theorem value (h : i.Typed Γ c slots) {d : Nat} (hx : slots[d]? = some x) :
    ∃ v, i.stack.reverse[d]? = some v ∧ Γ.Holds c x.content v :=
  forall₂_getElem?_left h.values hx

theorem stack_at (h : i.Typed Γ c slots) (hx : slots.reverse[n]? = some x) :
    ∃ v, i.stack[n]? = some v ∧ Γ.Holds c x.content v := by
  have hlt := (List.getElem?_eq_some_iff.mp hx).1
  rw [List.length_reverse] at hlt
  have hlength := h.length_stack
  rw [List.getElem?_reverse hlt] at hx
  obtain ⟨v, hv, hholds⟩ := h.value hx
  refine ⟨v, ?_, hholds⟩
  rw [List.getElem?_reverse (by omega)] at hv
  rw [← hv]
  congr 1
  omega

theorem retype_values {vs : List Val} (hs : List.Forall₂ Slot.May slots slots')
    (hvs : List.Forall₂ (fun s v => Γ.Holds c s.content v) slots vs) :
    List.Forall₂ (fun s v => Γ.Holds c s.content v) slots' vs := by
  induction hs generalizing vs with
  | nil => exact hvs
  | cons hxy _ ih =>
    cases hvs with
    | cons hv hvs => exact .cons (hxy.holds hv) (ih hvs)

theorem retype (h : i.Typed Γ c slots) (hs : List.Forall₂ Slot.May slots slots') : i.Typed Γ c slots' :=
  { h with
    values := retype_values hs h.values
    firsts := h.firsts.imp fun f v hf => by
      obtain ⟨y, hy, hxy⟩ := forall₂_reverse_getElem? hs hf.2
      rw [hxy.first] at hy
      exact ⟨hf.1, hy⟩
    held := fun n u hu => by
      obtain ⟨x, hx, hheld, hmark, hsuper⟩ := h.held n u hu
      obtain ⟨y, hy, hxy⟩ := forall₂_reverse_getElem? hs hx
      obtain ⟨hheld', hsame⟩ := hxy.held hheld
      exact ⟨y, hy, hheld', hsame.trans hmark, hsuper⟩ }

theorem push (h : i.Typed Γ c slots) (hx : Γ.Holds c x.content v) :
    ({ i with stack := i.stack ++ [v] } : Ideal).Typed Γ c (x :: slots) :=
  { h with
    values := by
      rw [List.reverse_append]
      exact .cons hx h.values
    firsts := h.firsts.imp fun f v hf => by
      rw [List.reverse_cons]
      exact ⟨getElem?_append_of_some hf.1 _, getElem?_append_of_some hf.2 _⟩
    held := fun n u hu => by
      obtain ⟨y, hy, hheld, hmark, hsuper⟩ := h.held n u hu
      refine ⟨y, ?_, hheld, hmark, fun hs => getElem?_append_of_some (hsuper hs) _⟩
      rw [List.reverse_cons]
      exact getElem?_append_of_some hy _ }

theorem below_of_held {news : List Slot} {y : Slot} (hfree : ∀ x ∈ news, x.held = false)
    (hy : (news ++ slots).reverse[n]? = some y) (hheld : y.held = true) :
    n < slots.length ∧ slots.reverse[n]? = some y := by
  rw [List.reverse_append] at hy
  by_cases hn : n < slots.reverse.length
  · rw [List.getElem?_append_left hn] at hy
    rw [List.length_reverse] at hn
    exact ⟨hn, hy⟩
  · rw [List.getElem?_append_right (Nat.not_lt.mp hn)] at hy
    have := hfree y (List.mem_reverse.mp (List.mem_of_getElem? hy))
    rw [this] at hheld
    cases hheld

theorem drop (news : List Slot) (h : i.Typed Γ c (news ++ slots)) (hfree : ∀ x ∈ news, x.held = false) :
    ({ i with stack := i.stack.take slots.length } : Ideal).Typed Γ c slots :=
  { h with
    values := by
      have hlength := h.length_stack
      rw [List.length_append] at hlength
      have hvalues := List.forall₂_drop news.length h.values
      rw [List.drop_left, List.drop_reverse] at hvalues
      rwa [show i.stack.length - news.length = slots.length by omega] at hvalues
    firsts := h.firsts.imp fun f v hf => by
      obtain ⟨hn, hslot⟩ := below_of_held hfree hf.2 rfl
      exact ⟨by rw [List.getElem?_take_of_lt hn]; exact hf.1, hslot⟩
    held := fun n u hu => by
      obtain ⟨y, hy, hheld, hmark, hsuper⟩ := h.held n u hu
      obtain ⟨hn, hy'⟩ := below_of_held hfree hy hheld
      refine ⟨y, hy', hheld, hmark, fun hs => ?_⟩
      show (i.stack.take slots.length)[n]? = _
      rw [List.getElem?_take_of_lt hn]
      exact hsuper hs }

theorem set {held : Bool} (h : i.Typed Γ c slots) (hx : slots.reverse[n]? = some ⟨.any, held⟩) (v : Val) :
    ({ i with stack := i.stack.set n v } : Ideal).Typed Γ c slots where
  values := by
    have hvalues := List.rel_reverse h.values
    rw [List.reverse_reverse] at hvalues
    have hset : List.Forall₂ (fun s v => Γ.Holds c s.content v) slots.reverse (i.stack.set n v) := by
      have := forall₂_set hvalues n (show Γ.Holds c (⟨.any, held⟩ : Slot).content v from trivial)
      obtain ⟨hlt, hslot⟩ := List.getElem?_eq_some_iff.mp hx
      rwa [← hslot, List.set_getElem_self] at this
    have := List.rel_reverse hset
    rwa [List.reverse_reverse] at this
  firsts := h.firsts.imp fun f w hf => by
    have hne : n ≠ f.base := by
      rintro rfl
      rw [hf.2] at hx
      cases hx
    exact ⟨by rw [List.getElem?_set_ne hne]; exact hf.1, hf.2⟩
  objects := h.objects
  genuine := h.genuine
  closed := h.closed
  listed := h.listed
  descending := h.descending
  held m u hu := by
    obtain ⟨y, hy, hheld, hmark, hsuper⟩ := h.held m u hu
    refine ⟨y, hy, hheld, hmark, fun hs => ?_⟩
    have hne : n ≠ m := by
      rintro rfl
      rw [hx] at hy
      cases hy
      rw [hs] at hmark
      cases hmark
    show (i.stack.set n v)[m]? = _
    rw [List.getElem?_set_ne hne]
    exact hsuper hs

theorem reglobal (h : i.Typed Γ c slots) (globals : Dict Val) : ({ i with globals } : Ideal).Typed Γ c slots :=
  { h with }

theorem reobject {objects : List (Obj Routine)} (h : i.Typed Γ c slots)
    (hΓ : Γ.Extends Γ' i.objects i.upvalues.length) (hl : Obj.Later i.objects objects)
    (ho : ∀ (a : Nat) o, objects[a]? = some o → i.objects[a]? = some o ∨
      Γ'.Vouches objects i.upvalues.length a o)
    (hvalues : ∀ s ∈ slots, ∀ v, Γ.Holds c s.content v → Γ'.Holds c s.content v) (hfirsts : Γ'.firsts = Γ.firsts)
    (hgenuine : Γ'.Genuine objects) : ({ i with objects } : Ideal).Typed Γ' c slots where
  values := by
    refine List.forall₂_iff_get.mpr ⟨h.values.length_eq, fun n hn hn' => ?_⟩
    exact hvalues _ (List.get_mem _ _) _ (h.values.get hn hn')
  firsts := by
    rw [hfirsts]
    exact h.firsts
  objects a o ha := by
    rcases ho a o ha with hold | hnew
    · exact (h.objects a o hold).extends hold hΓ hl (Nat.le_refl _)
    · exact hnew
  genuine := hgenuine
  closed u v hu hs := by
    have hlt := (List.getElem?_eq_some_iff.mp hu).1
    rw [hΓ.mark u hlt] at hs
    rw [hΓ.superclass u hlt]
    exact h.closed u v hu hs
  listed := h.listed
  descending := h.descending
  held n u hu := by
    have hlt := (List.getElem?_eq_some_iff.mp ((h.listed n u).mpr hu)).1
    rw [hΓ.mark u hlt, hΓ.superclass u hlt]
    exact h.held n u hu

end Typed

namespace Running

open IdealM

variable {Γ Γ' : Facts} {i : Ideal} {f : Activation} {rest : List Activation} {p : Prototype} {a : Sheet} {s : Shape}
    {slots below : List Slot}
  {known known' : Option Underway} {x : Slot} {v : Val} {d n : Nat}

theorem floor (h : i.Running Γ f rest p a s below) : i.floor = below.length := by
  unfold Ideal.floor
  rw [h.frames]
  exact h.base

theorem length_stack (h : i.Running Γ f rest p a s below) : i.stack.length = s.slots.length + below.length := by
  rw [h.typed.length_stack, List.length_append]

theorem retype (h : i.Running Γ f rest p a ⟨slots, known⟩ below) {slots' : List Slot}
    (hs : List.Forall₂ Slot.May slots slots') : i.Running Γ f rest p a ⟨slots', known⟩ below :=
  { h with typed := h.typed.retype (List.rel_append hs (forall₂_refl Slot.May.refl below)) }

theorem within {t : Shape} (h : i.Running Γ f rest p a s below) (ht : s.Within t) : i.Running Γ f rest p a t below :=
  { h with
    typed := h.typed.retype (List.rel_append (ht.slots.imp fun _ _ => Slot.Within.may)
      (forall₂_refl Slot.May.refl below))
    declares := h.declares.within ht.known }

theorem peek (h : i.Running Γ f rest p a s below) (hx : s.slots[d]? = some x) :
    ∃ v, IdealM.peek d i = .ok v i ∧ i.stack.reverse[d]? = some v ∧ Γ.Holds f.closure x.content v := by
  have hlt := (List.getElem?_eq_some_iff.mp hx).1
  obtain ⟨v, hv, hholds⟩ := h.typed.value (getElem?_append_of_some hx below)
  have hlength := h.length_stack
  refine ⟨v, ?_, hv, hholds⟩
  rw [peek_eq, h.floor, if_pos (by omega)]
  rw [List.getElem?_reverse (by omega)] at hv
  rw [hv]

theorem push (h : i.Running Γ f rest p a s below) (hx : Γ.Holds f.closure x.content v) :
    ({ i with stack := i.stack ++ [v] } : Ideal).Running Γ f rest p a ⟨x :: s.slots, s.known⟩ below :=
  { h with typed := h.typed.push hx }

theorem safe_push {post : Unit → Ideal → Prop} (h : i.Running Γ f rest p a s below) (hx : Γ.Holds f.closure x.content v)
    (hpost : ∀ i', i'.Running Γ f rest p a ⟨x :: s.slots, s.known⟩ below → post () i') :
    Safe i (IdealM.push v) post :=
  hpost _ (h.push hx)

theorem pop (h : i.Running Γ f rest p a ⟨x :: slots, known⟩ below) (hx : x.held = false) :
    ∃ v, IdealM.pop i = .ok v { i with stack := i.stack.dropLast } ∧ i.stack.reverse[0]? = some v ∧
      Γ.Holds f.closure x.content v ∧
      ({ i with stack := i.stack.dropLast } : Ideal).Running Γ f rest p a ⟨slots, known⟩ below := by
  obtain ⟨v, hpeek, hv, hholds⟩ := h.peek (d := 0) rfl
  have hlength := h.length_stack
  have htyped : i.Typed Γ f.closure ([x] ++ (slots ++ below)) := h.typed
  have hdrop := htyped.drop [x] fun y hy => List.mem_singleton.mp hy ▸ hx
  have htake : i.stack.take (slots ++ below).length = i.stack.dropLast := by
    rw [List.dropLast_eq_take, List.length_append, hlength]
    simp only [List.length_cons]
    congr 1
    omega
  rw [htake] at hdrop
  refine ⟨v, ?_, hv, hholds, { h with typed := hdrop }⟩
  unfold IdealM.pop
  rw [runBind, hpeek]
  rfl

theorem calleeSlot (h : i.Running Γ f rest p a s below) (hd : d < s.slots.length) :
    IdealM.calleeSlot d i = .ok (i.stack.length - 1 - d) i := by
  have hlength := h.length_stack
  unfold IdealM.calleeSlot
  rw [runBind]
  simp only [runGet]
  rw [h.floor, if_pos (by omega)]
  rfl

theorem readSlot (h : i.Running Γ f rest p a s below) (hx : (s.slots ++ below).reverse[n]? = some x) :
    ∃ v, IdealM.readSlot n i = .ok v i ∧ i.stack[n]? = some v ∧ Γ.Holds f.closure x.content v := by
  obtain ⟨v, hv, hholds⟩ := h.typed.stack_at hx
  refine ⟨v, ?_, hv, hholds⟩
  unfold IdealM.readSlot
  rw [runBind]
  simp only [runGet]
  rw [hv]
  rfl

theorem writeSlot {held : Bool} (h : i.Running Γ f rest p a s below)
    (hx : (s.slots ++ below).reverse[n]? = some ⟨.any, held⟩) (v : Val) :
    IdealM.writeSlot n v i = .ok () { i with stack := i.stack.set n v } ∧
      ({ i with stack := i.stack.set n v } : Ideal).Running Γ f rest p a s below := by
  have hlt := (List.getElem?_eq_some_iff.mp hx).1
  rw [List.length_reverse, ← h.typed.length_stack] at hlt
  refine ⟨?_, { h with typed := h.typed.set hx v }⟩
  unfold IdealM.writeSlot
  rw [runBind]
  simp only [runGet]
  rw [if_neg (Nat.not_le.mpr hlt)]
  rfl

theorem reobject {objects : List (Obj Routine)} (h : i.Running Γ f rest p a ⟨slots, known⟩ below)
    (hΓ : Γ.Extends Γ' i.objects i.upvalues.length) (hl : Obj.Later i.objects objects)
    (ho : ∀ (a : Nat) o, objects[a]? = some o → i.objects[a]? = some o ∨
      Γ'.Vouches objects i.upvalues.length a o)
    (hvalues : ∀ s ∈ slots, ∀ v, Γ.Holds f.closure s.content v → Γ'.Holds f.closure s.content v)
    (hfirsts : Γ'.firsts = Γ.firsts) (hgenuine : Γ'.Genuine objects)
    (hdeclares : Γ'.Declares objects i.globals known') :
    ({ i with objects } : Ideal).Running Γ' f rest p a ⟨slots, known'⟩ below where
  frames := h.frames
  waiting := h.waiting.extends hΓ hl
  knows := h.knows.extends hΓ hl
  base := h.base
  place := h.place
  typed := by
    refine h.typed.reobject hΓ hl ho (fun s hs v hv => ?_) hfirsts hgenuine
    rcases List.mem_append.mp hs with hs | hs
    · exact hvalues s hs v hv
    · exact Facts.holds_calm (h.waiting.calm s hs)
  declares := hdeclares

theorem later {objects : List (Obj Routine)} (h : i.Running Γ f rest p a s below) (hl : Obj.Later i.objects objects)
    (hclasses : ∀ (k : Nat) name methods, objects[k]? = some (.class_ name methods) →
      i.objects[k]? = some (.class_ name methods))
    (ho : ∀ (a : Nat) o, objects[a]? = some o → i.objects[a]? = some o ∨
      Γ.Vouches objects i.upvalues.length a o) :
    ({ i with objects } : Ideal).Running Γ f rest p a s below :=
  h.reobject (.refl Γ _ _) hl ho (fun _ _ _ => id) rfl (h.typed.genuine.later hl hclasses) (h.declares.later hl)

theorem slot_at (h : i.Running Γ f rest p a s below) (hn : s.slots.reverse[n]? = some x) :
    (s.slots ++ below).reverse[f.base + n]? = some x := by
  rw [List.reverse_append, h.base, ← List.length_reverse, List.getElem?_append_right (by omega)]
  rw [← hn]
  congr 1
  omega

end Running

end Ideal

end Lox

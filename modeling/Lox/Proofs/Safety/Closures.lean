import Lox.Proofs.Safety.Classes

namespace Lox

namespace Facts

def bodyHome (Γ : Facts) (c : Nat) : Option Nat :=
  match Γ.declaring with
  | some k => if (Γ.lineage.parent k).isSome then some k else Γ.home c
  | none => Γ.home c

def make (Γ : Facts) (m c : Nat) (g : Listing Item) (pending : Option Nat) : Facts :=
  { Γ with
    listing := Function.update Γ.listing m g
    home := Function.update Γ.home m (Γ.bodyHome c)
    lineage := Γ.lineage.after (.makes m c)
    pending
    unfinished := some m }

def finish (Γ : Facts) : Facts :=
  { Γ with unfinished := none }

variable {Γ : Facts} {objects : List (Obj Routine)} {globals : Dict Val} {c m : Nat} {g : Listing Item}
  {pending : Option Nat} {known : Option Lox.Underway}

theorem bodyHome_heir {d : Lox.Underway} (h : Γ.Declares objects globals (some d)) (hd : d.stage = .heir) :
    ∃ k, Γ.declaring = some k ∧ Γ.bodyHome c = some k := by
  obtain ⟨k, hk⟩ := h
  refine ⟨k, hk.class_, ?_⟩
  simp only [bodyHome, hk.class_]
  rw [if_pos (hk.heir.mp hd)]

theorem bodyHome_other (h : Γ.Declares objects globals known) (hknown : ¬∃ d, known = some d ∧ d.stage = .heir) :
    Γ.bodyHome c = Γ.home c := by
  cases known with
  | none => simp only [bodyHome, h.1]
  | some d =>
    obtain ⟨k, hk⟩ := h
    simp only [bodyHome, hk.class_]
    rw [if_neg fun hs => hknown ⟨d, rfl, hk.heir.mpr hs⟩]

theorem home_make (hc : c ≠ m) : (Γ.make m c g pending).home m = (Γ.make m c g pending).bodyHome c := by
  have hself : (Γ.make m c g pending).home m = Γ.bodyHome c := Function.update_self ..
  have hother : (Γ.make m c g pending).home c = Γ.home c := Function.update_of_ne hc _ _
  rw [hself, bodyHome, bodyHome, hother]
  rfl

theorem extends_make (hfinished : Γ.unfinished = none) (upvalues : Nat) :
    Γ.Extends (Γ.make objects.length c g pending) objects upvalues where
  listing _ hlt := Function.update_of_ne (Nat.ne_of_lt hlt) _ _
  home _ hlt := Function.update_of_ne (Nat.ne_of_lt hlt) _ _
  mark _ _ := rfl
  superclass _ _ := rfl
  parent _ _ := id
  unfinished b hlt := by
    rw [hfinished]
    refine ⟨fun he => ?_, nofun⟩
    exact absurd (Option.some.inj he) (Nat.ne_of_gt hlt)
  bodies := rfl

theorem listing_make (h : Γ.Genuine objects) {k : Nat} {x : Bytes × Nat} (hx : x ∈ Γ.lineage.own k) :
    (Γ.make objects.length c g pending).listing x.2 = Γ.listing x.2 := by
  obtain ⟨-, ⟨p, hp⟩, -⟩ := h.owners k x.1 x.2 hx
  exact Function.update_of_ne (Nat.ne_of_lt hp.lt) _ _

theorem Underway.make {d : Lox.Underway} {k : Nat} (h : Γ.Underway objects globals d k) (hg : Γ.Genuine objects)
    (r : Routine) (c : Nat)
    (g : Listing Item) : (Γ.make objects.length c g (some objects.length)).Underway (objects ++ [.closure r]) globals
      { d with pending := true } k where
  class_ := h.class_
  named := by
    obtain ⟨methods, hm⟩ := h.named
    exact ⟨methods, getElem?_append_of_some hm _⟩
  listed := h.listed
  made := by
    obtain ⟨made, hmethods, hmade⟩ := h.made
    exact ⟨made, hmethods, gives_same hmade fun x hx => listing_make hg (List.mem_reverse.mp hx)⟩
  global := h.global
  fresh := h.fresh
  heir := h.heir
  idle := nofun
  pending _ := by
    refine ⟨objects.length, rfl, ⟨r.prototype, r, by simp, rfl⟩, fun hs => ?_⟩
    have hhome : (Γ.make objects.length c g (some objects.length)).home objects.length = Γ.bodyHome c :=
      Function.update_self ..
    have hheir : (Γ.lineage.parent k).isSome := hs
    simp only [hhome, bodyHome, h.class_, hheir, if_true]

theorem Genuine.make {r : Routine} (h : Γ.Genuine objects) (hc : ClosureAt objects c) (hidle : Γ.pending = none)
    (hpending : Γ.bodyHome c = Γ.home c ∨ pending = some objects.length) :
    (Γ.make objects.length c g pending).Genuine (objects ++ [.closure r]) := by
  have hl := Obj.Later.append objects (.closure r)
  have hnew : ClosureAt (objects ++ [Obj.closure r]) objects.length := ⟨r.prototype, r, by simp, rfl⟩
  have hhome {b : Nat} (hb : ClosureAt objects b) : (Γ.make objects.length c g pending).home b = Γ.home b := by
    obtain ⟨p, hp⟩ := hb
    exact Function.update_of_ne (Nat.ne_of_lt hp.lt) _ _
  refine ⟨fun k p hp => ?_, fun k n m hm => ?_, fun m c' hm => ?_, fun k className methods hk n m => ?_,
    fun k className methods hk hne => ?_⟩
  · obtain ⟨hk, hp', hlast⟩ := h.parents k p hp
    exact ⟨hl.classAt hk, hl.classAt hp', hlast⟩
  · obtain ⟨hk, hm', hname, hkind, howner⟩ := h.owners k n m hm
    obtain ⟨p, hp⟩ := id hm'
    have hlisting : (Γ.make objects.length c g pending).listing m = Γ.listing m :=
      Function.update_of_ne (Nat.ne_of_lt hp.lt) _ _
    rw [hlisting, hhome hm']
    exact ⟨hl.classAt hk, hl.closureAt hm', hname, hkind, howner⟩
  · by_cases hne : m = objects.length
    · subst hne
      have hself : (Γ.lineage.after (.makes objects.length c)).maker objects.length = some c := Function.update_self ..
      obtain rfl : c = c' := Option.some.inj (hself.symm.trans hm)
      refine ⟨hnew, hl.closureAt hc, ?_⟩
      have hown : (Γ.make objects.length c g pending).home objects.length = Γ.bodyHome c := Function.update_self ..
      rw [hown, hhome hc]
      exact hpending.imp id .inr
    · have hother : (Γ.lineage.after (.makes objects.length c)).maker m = Γ.lineage.maker m :=
        Function.update_of_ne hne _ _
      obtain ⟨hm', hc', hrest⟩ := h.makers m c' (hother.symm.trans hm)
      refine ⟨hl.closureAt hm', hl.closureAt hc', ?_⟩
      rw [hhome hm', hhome hc']
      rcases hrest with hrest | hrest | hp
      · exact .inl hrest
      · exact .inr (.inl hrest)
      · rw [hidle] at hp
        cases hp
  · have hsame : (Γ.lineage.after (.makes objects.length c)).Nearest k n m ↔ Γ.lineage.Nearest k n m :=
      Lineage.nearest_same (fun _ => rfl) rfl
    rw [List.getElem?_append] at hk
    split at hk
    · exact (h.tables k className methods hk n m).trans hsame.symm
    · rw [List.getElem?_singleton] at hk
      split at hk <;> cases hk
  · rw [List.getElem?_append] at hk
    split at hk
    · obtain ⟨b, hb⟩ := h.bodies k className methods hk hne
      exact ⟨b, hb.same rfl (fun x hx => listing_make h hx) rfl rfl⟩
    · rw [List.getElem?_singleton] at hk
      split at hk <;> cases hk

end Facts

theorem Facts.Waiting.finish {Γ : Facts} {objects : List (Obj Routine)} {frames : List Activation} {below : List Slot}
    (h : Γ.Waiting objects frames below) : Γ.finish.Waiting objects frames below := by
  induction h with
  | nil => exact .nil
  | cons hknows hadmits hslots hcalm hbase _ ih =>
    exact .cons ⟨hknows.closure, hknows.certified, nofun⟩ hadmits hslots hcalm hbase ih

namespace Ideal.Running

open IdealM

variable {Γ Γ' : Facts} {i : Ideal} {f : Activation} {rest : List Activation} {p : Prototype} {a : Sheet} {s t : Shape}
  {slots below : List Slot} {known : Option Underway} {k j m u : Nat} {x : Slot} {r : Routine}

theorem setCapture {mark : Mark} (h : i.Running Γ f rest p a t below) (hr : i.objects[m]? = some (.closure r))
    (hunfinished : Γ.unfinished = some m) (hj : (Γ.listing m).marks[j]? = some mark)
    (hu : Γ.Uses i.upvalues.length m u mark) :
    ({ i with objects := i.objects.set m (.closure { r with captures := r.captures.set j (some u) }) } : Ideal).Running
      Γ f rest p a t below := by
  have hlt := (List.getElem?_eq_some_iff.mp hr).1
  have hl : Obj.Later i.objects (i.objects.set m (.closure { r with captures := r.captures.set j (some u) })) := by
    refine .set ?_ ?_
    · intro name methods hm
      rw [hr] at hm
      cases hm
    · rintro q ⟨r', hr', hq⟩
      rw [hr] at hr'
      cases hr'
      exact ⟨_, rfl, hq⟩
  refine h.later hl (fun k name methods hk => ?_) fun b o hb => ?_
  · by_cases hne : m = k
    · subst hne
      rw [List.getElem?_set_self hlt] at hk
      cases hk
    · rwa [List.getElem?_set_ne hne] at hk
  · by_cases hne : m = b
    · subst hne
      rw [List.getElem?_set_self hlt] at hb
      cases hb
      obtain ⟨hverified, hmade, hclasses, hlength, hcaptures, -⟩ := h.typed.objects m _ hr
      refine .inr ⟨hverified, hmade, hclasses, by simpa using hlength, fun j' u' hj' => ?_, fun hne =>
          absurd hunfinished hne⟩
      by_cases hjj : j = j'
      · subst hjj
        rw [List.getElem?_set] at hj'
        split at hj'
        · split at hj'
          · cases hj'
            exact ⟨hu.lt, by rw [hu.mark]; exact hj, fun hs => hu.superclass (hu.mark ▸ hs)⟩
          · cases hj'
        · exact absurd rfl ‹_›
      · rw [List.getElem?_set_ne hjj] at hj'
        exact hcaptures j' u' hj'
    · exact .inl (by rwa [List.getElem?_set_ne hne] at hb)

theorem captureOrigin {o : Origin} {mark : Mark} (h : i.Running Γ f rest p a t below)
    (ho : (Γ.listing f.closure).signature.Provides t o mark) (hhome : Γ.home m = Γ.bodyHome f.closure) :
    ∃ u Γ' i', (∀ rest : Nat → IdealM Unit, (if o.isLocal then do
          rest (← IdealM.captureUpvalue (f.base + o.index))
        else do
          rest (← ofOption (← ofOption (← closureAt f.closure).captures[o.index]?)) : IdealM Unit) i = rest u i') ∧
      Γ' = { Γ with mark := Γ'.mark, superclass := Γ'.superclass } ∧ i'.Running Γ' f rest p a t below ∧
      i'.objects = i.objects ∧ i'.stack = i.stack ∧ i'.frames = i.frames ∧ Γ'.Uses i'.upvalues.length m u mark := by
  have hvariable := ho.variable_
  by_cases hlocal : o.isLocal = true
  · rw [if_pos hlocal] at hvariable
    obtain ⟨x, hx, hheld, hmark⟩ := hvariable
    obtain ⟨u, mark', superclass, upvalues, opened, hcapture, -, hrunning, hlt, hu, hsuper⟩ :=
      h.captureUpvalue (h.slot_at hx) hheld
    refine ⟨u, { Γ with mark := mark', superclass }, _, fun rest => ?_, rfl, hrunning, rfl, rfl, rfl, hlt,
      hu.trans hmark, fun hs => ?_⟩
    · rw [if_pos hlocal, runBind, hcapture]
    obtain ⟨d, hknown, hheir⟩ := (ho.super hs).mp hlocal
    have hdeclares := h.declares
    rw [hknown] at hdeclares
    obtain ⟨k, hk, hbody⟩ := Facts.bodyHome_heir (c := f.closure) hdeclares hheir
    obtain ⟨v, hv, hholds⟩ := h.typed.stack_at (h.slot_at hx)
    have hcontent : x.content = .superclass := by
      rw [hs] at hmark
      cases hc : x.content <;> rw [hc] at hmark <;> first | rfl | cases hmark
    rw [hcontent] at hholds
    obtain ⟨q, rfl, hparent⟩ := hholds
    rw [hsuper (hmark.trans hs)] at hv
    cases hv
    exact ⟨k, hhome.trans hbody, hparent k hk⟩
  · rw [if_neg hlocal] at hvariable
    obtain ⟨r, u, hr, hu, huses⟩ := h.captured hvariable
    refine ⟨u, Γ, i, fun rest => ?_, rfl, h, rfl, rfl, rfl, huses.lt, huses.mark, fun hs => ?_⟩
    · rw [if_neg hlocal, runBind, closureAt_eq hr]
      dsimp only
      rw [hu]
      rfl
    · rw [hhome, Facts.bodyHome_other h.declares fun hd => hlocal ((ho.super hs).mpr hd)]
      exact huses.superclass hs

theorem fillCaptures {origins : List Origin} {marks : List Mark} {γ : Signature} {bytes : List UInt8}
    (hprovides : List.Forall₂ (γ.Provides t) origins marks) (hfits : ∀ o ∈ origins, o.index < 256)
    (h : i.Running Γ f rest p a t below) (hγ : (Γ.listing f.closure).signature = γ)
    (hunfinished : Γ.unfinished = some m)
    (hhome : Γ.home m = Γ.bodyHome f.closure) (hr : i.objects[m]? = some (.closure r))
    (hlength : r.captures.length = j + origins.length) (hdone : none ∉ r.captures.take j)
    (hmarks : (Γ.listing m).marks.drop j = marks)
    (hb : p.Ahead f.ip ((origins.flatMap fun o => [if o.isLocal then 1 else 0, o.index.toUInt8]) ++ bytes)) :
    ∃ Γ' i', IdealM.fillCaptures m j origins.length i = .ok () i' ∧
      Γ' = { Γ with mark := Γ'.mark, superclass := Γ'.superclass } ∧
      i'.Running Γ' { f with ip := f.ip + 2 * origins.length } rest p a t below ∧ i'.stack = i.stack ∧
      ∃ r', i'.objects[m]? = some (.closure r') ∧ none ∉ r'.captures := by
  induction hprovides generalizing Γ i f r j with
  | nil =>
    refine ⟨Γ, i, rfl, rfl, h, rfl, r, hr, ?_⟩
    rwa [← List.take_of_length_le (Nat.le_of_eq hlength)]
  | @cons o mark origins marks ho _ ih =>
    rw [List.forall_mem_cons] at hfits
    obtain ⟨hread, h₁⟩ := h.readByte hb
    obtain ⟨hread', hnat, h₂⟩ := h₁.readOperand hfits.1 hb.tail
    rw [Ideal.moved_moved] at hread' h₂
    have hj : (Γ.listing m).marks[j]? = some mark := by
      rw [← List.head?_drop, hmarks]
      rfl
    obtain ⟨u, Γ', i₃, hcapture, hΓ', h₃, hobjects, hstack, hframes, huses⟩ := h₂.captureOrigin (hγ.symm ▸ ho) hhome
    have hr₃ : i₃.objects[m]? = some (.closure r) := hobjects ▸ hr
    have hunfinished' : Γ'.unfinished = some m := by rw [hΓ']; exact hunfinished
    have hlisting : Γ'.listing = Γ.listing := by rw [hΓ']
    have h₄ := h₃.setCapture hr₃ hunfinished' (hlisting ▸ hj) huses
    have hlt := (List.getElem?_eq_some_iff.mp hr₃).1
    have hset : none ∉ (r.captures.set j (some u)).take (j + 1) := by
      rw [List.take_add_one, List.take_set_of_le (Nat.le_refl _)]
      intro hmem
      rcases List.mem_append.mp hmem with hmem | hmem
      · exact hdone hmem
      · rw [List.getElem?_set] at hmem
        simp only [if_true] at hmem
        split at hmem <;> simp at hmem
    obtain ⟨Γ'', i₅, hfill, hΓ'', h₅, hstack', r', hr', hnone⟩ := ih hfits.2 h₄ (by rw [hlisting]; exact hγ)
        hunfinished'
      (by rw [hΓ']; exact hhome) (List.getElem?_set_self hlt)
      (by simp only [List.length_set, hlength, List.length_cons]; omega) hset
      (by rw [hlisting, ← List.tail_drop, hmarks]; rfl) hb.tail.tail
    refine ⟨Γ'', i₅, ?_, ?_, ?_, hstack'.trans hstack, r', hr', hnone⟩
    · have hframe : frame (i.moved (f.ip + 2)) = .ok { f with ip := f.ip + 2 } (i.moved (f.ip + 2)) :=
          frame_eq h₂.frames
      have hflag : ((if o.isLocal = true then (1 : UInt8) else 0) = 1) = (o.isLocal = true) := by
        cases o.isLocal <;> decide
      show IdealM.fillCaptures m j (origins.length + 1) i = _
      unfold IdealM.fillCaptures
      rw [runBind, hread]
      dsimp only
      rw [runBind, hread']
      dsimp only
      rw [runBind, hframe]
      dsimp only
      simp only [hflag, hnat]
      refine (hcapture _).trans ?_
      rw [runBind, closureAt_eq hr₃]
      exact hfill
    · rw [hΓ'', hΓ']
    · have hip : f.ip + 1 + 1 + 2 * origins.length = f.ip + 2 * (o :: origins).length := by
        rw [List.length_cons]
        omega
      rw [← hip]
      exact h₅

theorem finish (h : i.Running Γ f rest p a t below) (hunfinished : Γ.unfinished = some m)
    (hr : i.objects[m]? = some (.closure r)) (hnone : none ∉ r.captures) : i.Running Γ.finish f rest p a t below where
  frames := h.frames
  waiting := h.waiting.finish
  knows := ⟨h.knows.closure, h.knows.certified, nofun⟩
  base := h.base
  place := h.place
  typed := { h.typed with
    objects := fun b o ho => by
      have hvouches := h.typed.objects b o ho
      cases o with
      | closure r' =>
        obtain ⟨hverified, hmade, hclasses, hlength, hcaptures, hfinished⟩ := hvouches
        refine ⟨hverified, hmade, hclasses, hlength, hcaptures, fun _ => ?_⟩
        by_cases hne : b = m
        · subst hne
          rw [hr] at ho
          cases ho
          exact hnone
        · exact hfinished fun he => hne (Option.some.inj (hunfinished.symm.trans he)).symm
      | _ => exact hvouches
    genuine := h.typed.genuine.same rfl rfl rfl rfl rfl rfl }
  declares := h.declares.same rfl rfl rfl rfl rfl rfl fun _ _ => rfl

theorem makes {g : Listing Item} {q : Prototype} {pending : Option Nat}
    (h : i.Running Γ f rest p a ⟨slots, known⟩ below)
    (hk : (Γ.listing f.closure).constants[k]? = some (.function g)) (hq : Item.Made (.function g) (.function q))
    (hfinished : Γ.unfinished = none) (hidle : Γ.pending = none)
    (hpending : Γ.bodyHome f.closure = Γ.home f.closure ∨ pending = some i.objects.length)
    (hdeclares : (Γ.make i.objects.length f.closure g pending).Declares
      (i.objects ++ [Obj.closure ⟨q, List.replicate q.captures none⟩]) i.globals t.known)
    (hx : (Γ.make i.objects.length f.closure g pending).Holds f.closure x.content (.object i.objects.length))
    (ht : t.slots = x :: slots) :
    ({ i with
      objects := i.objects ++ [Obj.closure ⟨q, List.replicate q.captures none⟩]
      stack := i.stack ++ [Val.object i.objects.length] } : Ideal).Running
        (Γ.make i.objects.length f.closure g pending) f rest p a t below := by
  obtain ⟨known', slots'⟩ := t
  cases ht
  have hold : f.closure < i.objects.length := h.knows.closure.lt
  have hcreated : ({ i with
      objects := i.objects ++ [Obj.closure ⟨q, List.replicate q.captures none⟩] } : Ideal).Running
        (Γ.make i.objects.length f.closure g pending) f rest p a ⟨slots, slots'⟩ below := by
    refine h.reobject (Facts.extends_make hfinished _) (.append _ _) (fun b o hb => ?_) (fun y _ v hholds => ?_) rfl
      (h.typed.genuine.make ⟨p, h.knows.closure⟩ hidle hpending) hdeclares
    · rw [List.getElem?_append] at hb
      split at hb
      · exact .inl hb
      · rename_i hlt
        rw [List.getElem?_singleton] at hb
        split at hb
        · cases hb
          have hb' : b = i.objects.length := by omega
          subst hb'
          have hlisting : (Γ.make i.objects.length f.closure g pending).listing i.objects.length = g :=
            Function.update_self ..
          obtain ⟨r, hr, -⟩ := h.knows.closure
          obtain ⟨⟨-, -, hinner, hnested⟩, -, hclasses, -⟩ := h.typed.objects _ _ hr
          have hverified := hnested g (List.mem_of_getElem? hk)
          refine .inr ⟨by rw [hlisting]; exact hverified, by rw [hlisting]; exact hq, ?_, ?_, fun j u hj =>
              ?_, fun hne => absurd rfl hne⟩
          · rw [hlisting]
            exact List.Subset.trans (hinner g (List.mem_of_getElem? hk)) hclasses
          · rw [hlisting, List.length_replicate]
            obtain ⟨hmarks, -⟩ := hverified
            cases hq
            omega
          · rw [List.getElem?_replicate] at hj
            split at hj <;> cases hj
        · cases hb
    · revert hholds
      cases y.content with
      | closure j =>
        rintro ⟨m, -, -, hm, -⟩
        rw [hidle] at hm
        cases hm
      | parent =>
        rintro ⟨k, q, rfl, hhome, hparent⟩
        exact ⟨k, q, rfl, (Function.update_of_ne (Nat.ne_of_lt hold) _ _).trans hhome, hparent⟩
      | _ => exact id
  exact hcreated.push hx

theorem makeClosure {g : Listing Item} {pending : Option Nat} (h : i.Running Γ f rest p a ⟨slots, known⟩ below)
    (hk : (Γ.listing f.closure).constants[k]? = some (.function g)) (hlt : k < 256)
    (hfits : ∀ o ∈ g.origins, o.index < 256) (hb : p.Ahead f.ip (Operand.closure k g.origins).bytes)
    (hprovides : List.Forall₂ ((Γ.listing f.closure).signature.Provides t) g.origins g.marks)
    (hfinished : Γ.unfinished = none) (hidle : Γ.pending = none)
    (hpending : Γ.bodyHome f.closure = Γ.home f.closure ∨ pending = some i.objects.length)
    (hdeclares : ∀ r, (Γ.make i.objects.length f.closure g pending).Declares (i.objects ++ [.closure r]) i.globals
      t.known)
    (hx : (Γ.make i.objects.length f.closure g pending).Holds f.closure x.content (.object i.objects.length))
    (ht : t.slots = x :: slots) : Safe i IdealM.makeClosure fun _ i' => ∃ Γ' m,
      i'.stack.reverse[0]? = some (.object m) ∧ Γ'.lineage = Γ.lineage.after (.makes m f.closure) ∧
      Γ'.unfinished = none ∧ Γ'.firsts = Γ.firsts ∧ Γ'.declaring = Γ.declaring ∧ Γ'.bodies = Γ.bodies ∧
      i'.Running Γ' { f with ip := f.ip + (1 + 2 * g.origins.length) } rest p a t below := by
  obtain ⟨lit, hread, hmade, hrunning⟩ := h.readConstant hk hlt hb
  have hold : f.closure < i.objects.length := h.knows.closure.lt
  cases hmade with
  | @function _ q harity hname hcaptures hcode hlines hcodefits hconstants hfew =>
    unfold IdealM.makeClosure
    refine .step hread ?_
    have hmax : ¬HeapM.maxCaptures < (q.captures : Int) := by
      unfold HeapM.maxCaptures
      omega
    dsimp only
    rw [if_neg hmax]
    refine .step rfl (.step rfl ?_)
    have hq : Item.Made (.function g) (.function q) := .function harity hname hcaptures hcode hlines hcodefits
        hconstants hfew
    have hmakes := hrunning.makes hk hq hfinished hidle hpending (hdeclares _) hx ht
    have hne : f.closure ≠ i.objects.length := Nat.ne_of_lt hold
    have hlisting : (Γ.make i.objects.length f.closure g pending).listing f.closure = Γ.listing f.closure :=
      Function.update_of_ne hne _ _
    have hself : (Γ.make i.objects.length f.closure g pending).listing i.objects.length = g := Function.update_self ..
    obtain ⟨Γ', i', hfill, hΓ', hfilled, hstack, r, hr, hnone⟩ := fillCaptures (j := 0)
      (r := ⟨q, List.replicate q.captures none⟩) hprovides hfits hmakes
      (congrArg Listing.signature hlisting) rfl (Facts.home_make hne)
      (by simp [Ideal.moved])
      (by simp [hcaptures]) nofun (congrArg Listing.marks hself)
      (show p.Ahead (f.ip + 1) (_ ++ []) by rw [List.append_nil]; exact hb.tail)
    have hunfinished : Γ'.unfinished = some i.objects.length := by
      rw [hΓ']
      rfl
    rw [← hcaptures] at hfill
    refine .of_eq hfill ⟨Γ'.finish, i.objects.length, ?_, ?_, rfl, ?_, ?_, ?_, ?_⟩
    · rw [hstack, List.reverse_append]
      rfl
    · show Γ'.lineage = _
      rw [hΓ']
      rfl
    · show Γ'.firsts = _
      rw [hΓ']
      rfl
    · show Γ'.declaring = _
      rw [hΓ']
      rfl
    · show Γ'.bodies = _
      rw [hΓ']
      rfl
    · rw [← Nat.add_assoc]
      exact hfilled.finish hunfinished hr hnone

end Ideal.Running

end Lox

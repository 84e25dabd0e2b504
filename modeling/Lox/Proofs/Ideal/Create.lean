import Lox.Proofs.Ideal.Variables

namespace Lox

open Heap HeapView MachineM

variable {α β γ δ : Type}

namespace HeapM

variable {bad : Prop} {h : Heap} {r : Roots}

theorem delivers_value {act : HeapM Loc} {post : Loc → Heap → Prop}
    (ha : Delivers bad r h act post)
    (hobj : ∀ l h', post l h' → h'.Consistent ∧ h'.Alive l) :
    Delivers bad r h (do valueOf (← act)) fun v h' => ∃ l, post l h' ∧ h'.Names v l := by
  refine ha.bind (fun _ => grows_view _) fun l h' hpost => ?_
  obtain ⟨hc, o, ho, hf⟩ := hobj l h' hpost
  have hv : valueOf l h' = .ok (.object o.ref) := by
    unfold valueOf
    rw [view_bind, object_eq_ok.mpr ho]
    rfl
  exact delivers_view hv ⟨l, hpost, names_ref hc ho hf⟩

theorem Creates.alive {body : Body} {l : Loc} {h' : Heap} (hc : Creates r h body l h') :
    h'.Consistent ∧ h'.Alive l := by
  obtain ⟨o, ho, hf, -⟩ := hc.object
  exact ⟨hc.turns.sound.consistent, o, ho, hf⟩

end HeapM

open HeapM

section

variable {w : World} {m : Machine} {i : Ideal} (hm : Mirrors w m i)

include hm

theorem Mirrors.unplaced {body : Body} {l : Loc} {h' : Heap} (hc : Creates (roots m) m.heap body l h') :
    w l = none := by
  cases ht : w l with
  | none => rfl
  | some t => exact absurd (hm.pictures.placed l t ht) (Nat.not_lt.mpr hc.fresh)

theorem Mirrors.label {l : Loc} {o : Object} (hnone : w l = none) (ho : m.heap.objects[l]? = some o)
    (x : Obj Routine)
    (hd : m.heap.Depicts (w.put l (.object i.objects.length)) (i.objects ++ [x]) i.upvalues o.body
      (.object i.objects.length)) :
    Mirrors (w.put l (.object i.objects.length)) m { i with objects := i.objects ++ [x] } := by
  have hp : Pictures (w.put l (.object i.objects.length)) (i.objects ++ [x]) i.upvalues m.heap :=
    hm.pictures.label hnone ho (fun a y hy => getElem?_append_of_some hy _)
      (fun _ _ hu => hu) (by rintro a ⟨⟩; simp) nofun (by simp) (Nat.le_refl _) fun _ => hd
  exact hm.reheap (World.extends_put hnone _)
    (Carries.refl fun link hl => (hm.rooted link hl).1) hp

theorem Mirrors.create {body : Body} {l : Loc} {h' : Heap} (hc : Creates (roots m) m.heap body l h')
    (x : Obj Routine)
    (hd : h'.Depicts (w.put l (.object i.objects.length)) (i.objects ++ [x]) i.upvalues body
      (.object i.objects.length)) :
    Mirrors (w.put l (.object i.objects.length)) { m with heap := h' }
      { i with objects := i.objects ++ [x] } := by
  obtain ⟨o, ho, -, rfl⟩ := hc.object
  exact (hm.turn hc.turns).label (hm.unplaced hc) ho x hd

theorem Mirrors.createUpvalue {n : Nat} {l : Loc} {h' : Heap}
    (hc : Creates (roots m) m.heap (.upvalue (.stack n)) l h') :
    Mirrors (w.put l (.upvalue i.upvalues.length)) { m with heap := h' }
      { i with upvalues := i.upvalues ++ [.slot n] } := by
  have hnone := hm.unplaced hc
  obtain ⟨o, ho, -, hb⟩ := hc.object
  have hm' := hm.turn hc.turns
  have hp : Pictures (w.put l (.upvalue i.upvalues.length)) i.objects (i.upvalues ++ [Captured.slot n]) h' :=
    hm'.pictures.label hnone ho (fun _ _ hy => hy)
      (fun a y hy => getElem?_append_of_some hy _) nofun (by rintro a ⟨⟩; simp) (Nat.le_refl _)
      (by simp) fun _ => by rw [hb]; exact .slot (by simp)
  exact hm'.reheap (World.extends_put hnone _)
    (Carries.refl fun link hl => (hm'.rooted link hl).1) hp

theorem Mirrors.delivers_string (chars : Bytes) :
    Delivers False (roots m) m.heap (do valueOf (← intern chars).loc) fun v h' =>
      Turns (roots m) m.heap h' ∧ h'.Shows w v (.string chars) := by
  refine (turns_intern hm.pictures hm.rooted chars).bind (fun _ => grows_view _) ?_
  rintro s h' ⟨ht, rfl, hs⟩
  obtain ⟨o, ho, hf, -⟩ := id hs
  have hv : valueOf s.loc h' = .ok (.object o.ref) := by
    unfold valueOf
    rw [view_bind, object_eq_ok.mpr ho]
    rfl
  exact delivers_view hv ⟨ht, s.loc, s.hash, names_ref ht.sound.consistent ho hf, hs⟩

omit hm in
theorem find?_open {us : List (Int × Loc)} {vs : List (Nat × Nat)} {h : Heap} (slot : Nat)
    (hs : List.Forall₂ (SameOpen w h) us vs) :
    match vs.find? (·.1 == slot) with
    | some v => ∃ u, us.find? (·.1 == (slot : Int)) = some u ∧ SameOpen w h u v
    | none => us.find? (·.1 == (slot : Int)) = none := by
  induction hs with
  | nil => rfl
  | @cons u v us vs huv _ ih =>
    have hb : (u.1 == (slot : Int)) = (v.1 == slot) := by
      rw [huv.slot]
      by_cases h : v.1 = slot
      · simp [h]
      · have : (v.1 : Int) ≠ slot := fun he => h (Int.ofNat.inj he)
        simp [h, this]
    rw [List.find?_cons, List.find?_cons, hb]
    cases v.1 == slot
    · exact ih
    · exact ⟨u, rfl, huv⟩

omit hm in
theorem forall₂_insertUpvalue {us : List (Int × Loc)} {vs : List (Nat × Nat)} {h : Heap} {slot : Nat}
    {l : Loc} {u : Nat} (hs : List.Forall₂ (SameOpen w h) us vs)
    (hnew : SameOpen w h (slot, l) (slot, u)) :
    List.Forall₂ (SameOpen w h) (insertUpvalue slot l us) (IdealM.insertUpvalue slot u vs) := by
  induction hs with
  | nil => exact .cons hnew .nil
  | @cons u' v us vs huv hrest ih =>
    unfold insertUpvalue IdealM.insertUpvalue
    rw [huv.slot]
    by_cases hlt : slot < v.1
    · rw [if_pos hlt, if_pos (Int.ofNat_lt.mpr hlt)]
      exact .cons huv ih
    · rw [if_neg hlt, if_neg fun h => hlt (Int.ofNat_lt.mp h)]
      exact .cons hnew (.cons huv hrest)

structure Captures (w : World) (m : Machine) (i : Ideal) (l : Loc) (u : Nat) (m' : Machine) (i' : Ideal)
    (w' : World) : Prop where
  extends_ : w.Extends w'
  mirrors : Mirrors w' m' i'
  place : w' l = some (.upvalue u)
  alive : m'.heap.Alive l
  machine : ∃ heap openUpvalues, m' = { m with heap, openUpvalues }
  ideal : ∃ upvalues openUpvalues, i' = { i with upvalues, openUpvalues }

theorem sim_captureUpvalue (slot : Nat) :
    Sim m i (captureUpvalue slot) (IdealM.captureUpvalue slot) fun l u m' i' =>
      ∃ w', Captures w m i l u m' i' w' := by
  have hmod (l : Loc) : Grows (modify fun m : Machine =>
      { m with openUpvalues := insertUpvalue slot l m.openUpvalues } : MachineM Unit) :=
    .modify fun _ => rfl
  refine Sim.act_bind (x := get) rfl (Sim.spec_get ?_)
  have hfind := find?_open slot hm.opened
  cases hv : i.openUpvalues.find? (·.1 == slot) with
  | some v =>
    rw [hv] at hfind
    obtain ⟨u, hu, hs⟩ := hfind
    rw [hu]
    exact .pure ⟨w, .refl w, hm, hs.place, hs.alive, ⟨_, _, rfl⟩, ⟨_, _, rfl⟩⟩
  | none =>
    rw [hv] at hfind
    rw [hfind]
    refine Sim.act_heap (creates_allocate hm.pictures hm.rooted (by simp [Body.kind])
      (by simp [Body.links]) (by simp [Body.links]) (by simp [Body.links]) 72)
      fun l h' hc => ?_
    have hm₁ := hm.createUpvalue hc
    refine Sim.act_bind rfl (.inr
        ⟨w.put l (.upvalue i.upvalues.length), World.extends_put (hm.unplaced hc) _, ?_, by simp [World.put],
      hc.alive.2, ⟨_, _, rfl⟩, ⟨_, _, rfl⟩⟩)
    refine { hm₁ with filled := ⟨hm₁.filled.written, hm₁.filled.room⟩, opened := ?_ }
    exact forall₂_insertUpvalue hm₁.opened ⟨rfl, by simp [World.put], hc.alive.2⟩

def fillBody (n : Nat) (captured : Option Loc) : Body → Body
  | .closure c => .closure { c with upvalues := c.upvalues.setIfInBounds n captured }
  | b => b

omit hm in
theorem keepsStrings_fillBody (n : Nat) (captured : Option Loc) : KeepsStrings (fillBody n captured) :=
  ⟨fun _ _ => rfl, fun b hb => by cases b <;> simp_all [Body.kind, fillBody]⟩

omit hm in
theorem addsCanonical_fillBody (n : Nat) (captured : Option Loc) : AddsCanonical (fillBody n captured) := by
  intro b v hm
  cases b with
  | closure c => simp [fillBody, Body.links] at hm
  | _ => exact .inl hm

theorem Mirrors.fill {l k : Loc} {a u n : Nat} {r : Routine} (hw : w l = some (.object a))
    (hx : i.objects[a]? = some (.closure r)) (hk : w k = some (.upvalue u)) (hka : m.heap.Alive k) :
    Mirrors w { m with heap := m.heap.updateBody l (fillBody n (some k)) }
      { i with objects := i.objects.set a (.closure { r with captures := r.captures.set n (some u) }) } := by
  have hp := hm.pictures
  have hlt := hp.object_lt l a hw
  have hkeep := keepsStrings_fillBody n (some k)
  have hbody {o : Object} (ho : m.heap.objects[l]? = some o) (hf : o.freed = false) : ∃ c,
      o.body = .closure c ∧ w c.function = some (.function r.prototype) ∧
      List.Forall₂ (ShowsCapture w) c.upvalues.toList r.captures := by
    obtain ⟨c, hc, hfun, -, hcap, -⟩ := hp.closure ⟨o, ho, hf⟩ hw hx
    obtain ⟨o', ho', hb⟩ := closureAt_eq_ok.mp hc
    rw [ho] at ho'
    cases ho'
    exact ⟨c, hb, hfun, hcap⟩
  have hcan := (addsCanonical_fillBody n (some k)).canonical (h := m.heap) (l := l)
  refine hm.reheap (.refl w) (carries_updateBody hkeep hcan fun link hl => (hm.rooted link hl).1) ?_
  refine hp.update hkeep ?_ ?_ (fun _ _ _ _ => rfl) (by simp) rfl ?_
  · intro o ho hf link hl
    obtain ⟨c, hb, -, -⟩ := hbody ho hf
    have hvalid := hp.linked l ⟨o, ho, hf⟩
    simp only [linksAt, ho, hb] at hvalid
    rw [hb, fillBody] at hl
    rcases List.mem_cons.mp hl with rfl | hl
    · exact hvalid _ (.head _)
    · obtain ⟨o', hmem, ho'⟩ := List.mem_filterMap.mp hl
      simp only [Array.toList_setIfInBounds] at hmem
      rcases List.mem_or_eq_of_mem_set hmem with hmem | rfl
      · exact hvalid _ (.tail _ (List.mem_filterMap.mpr ⟨o', hmem, ho'⟩))
      · cases ho'
        exact .object hka
  · intro j b hj hb
    have hne : a ≠ b := fun he => hj (hp.object_inj j l a (he ▸ hb) hw)
    rw [List.getElem?_set_ne hne]
  · intro o t ho hf ht _
    rw [hw] at ht
    cases ht
    obtain ⟨c, hb, hfun, hcap⟩ := hbody ho hf
    rw [hb]
    refine .closure (List.getElem?_set_self hlt) hfun ?_
    simp only [Array.toList_setIfInBounds]
    exact forall₂_set hcap n hk

omit hm in
theorem grows_fillBody (l : Loc) (n left : Nat) (o : Option Loc) : Grows (do
    onHeap (modify (·.updateBody l (fillBody n o)))
    fillCaptures l (n + 1) left : MachineM Unit) :=
  have : Grows (onHeap (modify (·.updateBody l (fillBody n o)))) :=
    .onHeap (HeapM.grows_updateBody _ _)
  inferInstance

omit hm in
theorem grows_fillCapture (l : Loc) (n left : Nat) (f : Frame) (index isLocal : UInt8) : Grows (do
    let captured ←
      if isLocal = 1 then some <$> captureUpvalue (f.base + index.toNat)
      else match (← closureAt f.closure).upvalues[index.toNat]? with
        | some u => pure u
        | none => stop .outOfRange
    onHeap (modify (·.updateBody l (fillBody n captured)))
    fillCaptures l (n + 1) left : MachineM Unit) := by
  have hrest := grows_fillBody l n left
  dsimp only
  split
  · exact .bind hrest
  · refine .bind fun c => ?_
    split <;> infer_instance

omit hm in
theorem follows_fillCaptures {l : Loc} {a : Nat} (left : Nat) (w : World) (m : Machine) (i : Ideal)
    (n : Nat) (hm : Mirrors w m i) (ha : .object a ∈ i.stack) (hw : w l = some (.object a)) :
    Follows w m i (fillCaptures l n left) (IdealM.fillCaptures a n left) := by
  induction left generalizing w m i n with
  | zero => exact .pure ⟨rfl, w, .refl w, hm⟩
  | succ left ih =>
    -- what is left to do once the variable is known
    have hrest (w : World) (m : Machine) (i : Ideal) (hm : Mirrors w m i) (ha : .object a ∈ i.stack)
        (hw : w l = some (.object a)) (k : Loc) (u : Nat) (hk : w k = some (.upvalue u))
        (hka : m.heap.Alive k) : Follows w m i (do
          onHeap (modify (·.updateBody l (fillBody n (some k))))
          fillCaptures l (n + 1) left) (do
          let c ← IdealM.closureAt a
          IdealM.setObject a (.closure { c with captures := c.captures.set n (some u) })
          IdealM.fillCaptures a (n + 1) left) := by
      refine Sim.spec_closureAt fun r hr => ?_
      refine Sim.act_bind rfl (Sim.spec_bind rfl ?_)
      exact ih w _ _ (n + 1) (hm.fill hw hr hk hka) ha hw
    have hgrow := grows_fillCapture l n left
    unfold fillCaptures IdealM.fillCaptures
    refine (sim_readByte hm).bind_of_grows ?_ fun b => .bind fun index => .bind fun f => hgrow f index b
    rintro b _ m₁ i₁ ⟨rfl, hmove⟩
    have ha₁ : .object a ∈ i₁.stack := by
      obtain ⟨frames, rfl⟩ := hmove.ideal
      exact ha
    refine (sim_readByte hmove.mirrors).bind_of_grows ?_ fun index => .bind fun f => hgrow f index b
    rintro index _ m₂ i₂ ⟨rfl, hmove'⟩
    have ha₂ : .object a ∈ i₂.stack := by
      obtain ⟨frames, rfl⟩ := hmove'.ideal
      exact ha₁
    refine (sim_frame hmove'.mirrors).bind_of_grows ?_ fun f => hgrow f index b
    rintro f c m₂ i₂ ⟨rfl, rfl, hs, -⟩
    have hm₂ := hmove'.mirrors
    dsimp only
    split
    · rw [show f.base + (index.toNat : Int) = ((c.base + index.toNat : Nat) : Int) by
        rw [hs.base]; simp]
      rw [map_eq_pure_bind, bind_assoc]
      refine (sim_captureUpvalue hm₂ _).bind_of_grows ?_ fun k => grows_fillBody l n left (some k)
      rintro k u m₃ i₃ ⟨w', hcap⟩
      have ha₃ : .object a ∈ i₃.stack := by
        obtain ⟨upvalues, opened, rfl⟩ := hcap.ideal
        exact ha₂
      exact Sim.widen (hrest w' m₃ i₃ hcap.mirrors ha₃ (hcap.extends_ _ _ hw) k u hcap.place hcap.alive) hcap.extends_
    · refine Sim.spec_closureAt fun r hr => ?_
      obtain ⟨cl, hcl, -, -, hcaps, hlinks⟩ := hm₂.pictures.closure hs.alive hs.closure hr
      refine Sim.act_view hcl ?_
      refine Sim.spec_ofOption fun o ho => ?_
      obtain ⟨o', ho', hshow⟩ := forall₂_getElem? hcaps ho
      cases o with
      | none => trivial
      | some u =>
        cases o' with
        | none => exact hshow.elim
        | some k =>
          rw [Array.getElem?_toList] at ho'
          rw [ho']
          refine Sim.act_bind rfl (hrest w m₂ i₂ hm₂ ha₂ hw k u hshow ?_)
          refine (hm₂.pictures.linked _ hs.alive (.object k) ?_).alive (.object k)
          rw [hlinks]
          refine .tail _ (List.mem_filterMap.mpr ⟨some k, ?_, rfl⟩)
          exact List.mem_of_getElem? (Array.getElem?_toList ▸ ho')

def freshClosure (function : Loc) (n : Nat) : Body :=
  .closure ⟨function, Array.replicate n none⟩

omit hm in
theorem links_freshClosure {function : Loc} {n : Nat} {link : Link}
    (hl : link ∈ (freshClosure function n).links) : link = .object function := by
  rcases List.mem_cons.mp hl with rfl | hl
  · rfl
  · obtain ⟨o, ho, ho'⟩ := List.mem_filterMap.mp hl
    rw [Array.toList_replicate] at ho
    rw [(List.mem_replicate.mp ho).2] at ho'
    cases ho'

omit hm in
theorem creates_newClosure {h : Heap} {r : Roots} {objects : List (Obj Routine)}
    {upvalues : List Captured} (hp : Pictures w objects upvalues h) (hr : h.Rooted r) {k : Loc}
    {p : Prototype} (hw : w k = some (.function p)) (hs : h.Safe r (.object k))
    (hn : p.captures ≤ HeapM.maxCaptures) :
    Delivers False r h (newClosure k) (Creates r h (freshClosure k p.captures)) := by
  obtain ⟨f, hf, hsf, -⟩ := hp.function (hs.valid.alive (.object k)) hw
  unfold newClosure
  refine delivers_view_bind hf ?_
  rw [hsf.captures]
  dsimp only
  rw [if_neg (by omega), Int.toNat_natCast]
  refine creates_allocate hp hr (by simp [Body.kind]) ?_ ?_ ?_ _
  · intro link hl
    rw [links_freshClosure hl]
    exact hs
  · intro link hl
    rw [links_freshClosure hl]
    trivial
  · intro v hv
    cases links_freshClosure hv

theorem Mirrors.createClosure {k l : Loc} {h' : Heap} {p : Prototype} (hw : w k = some (.function p))
    (hc : Creates (roots m) m.heap (freshClosure k p.captures) l h') :
    Mirrors (w.put l (.object i.objects.length)) { m with heap := h' }
      { i with objects := i.objects ++ [.closure ⟨p, List.replicate p.captures none⟩] } := by
  refine hm.create hc _ (.closure (r := ⟨p, List.replicate p.captures none⟩) (by simp)
      (World.extends_put (hm.unplaced hc) _ _ _ hw) ?_)
  simp only [Array.toList_replicate]
  exact List.forall₂_same.mpr fun o ho => by rw [(List.mem_replicate.mp ho).2]; trivial

theorem follows_makeClosure : Follows w m i makeClosure IdealM.makeClosure := by
  have hnew (k : Loc) : Grows (onHeap (newClosure k)) := .onHeap (keeps_newClosure k).grows
  unfold makeClosure IdealM.makeClosure
  refine (sim_readConstant hm).bind ?_
  rintro v k m₁ i₁ ⟨hmove, hshow, hsafe⟩
  have hm₁ := hmove.mirrors
  have hshow : m₁.heap.ShowsConstant w v k := by
    obtain ⟨calls, rfl⟩ := hmove.machine
    exact hshow
  cases k with
  | number _ => trivial
  | string _ => trivial
  | function p =>
    obtain ⟨k, hname, hk⟩ := hshow
    dsimp only
    by_cases hmax : HeapM.maxCaptures < p.captures
    · rw [if_pos hmax]
      trivial
    · rw [if_neg hmax]
      refine Sim.act_view hname.locOfValue ?_
      have hsafe' : m₁.heap.Safe (roots m₁) (.object k) :=
        ⟨.object (hname.alive hm₁.pictures.sound.consistent), fun j hj => by
          cases hj
          exact hsafe.reach k hname.leads⟩
      refine Sim.act_heap (creates_newClosure hm₁.pictures hm₁.rooted hk hsafe' (Int.not_lt.mp hmax))
        fun l h' hc => ?_
      obtain ⟨o, ho, hf, hb⟩ := hc.object
      have hval : valueOf l h' = .ok (.object o.ref) := by
        unfold valueOf
        rw [view_bind, object_eq_ok.mpr ho]
        rfl
      refine Sim.act_view hval ?_
      have hm₂ := hm₁.createClosure hk hc
      refine Sim.spec_bind rfl ?_
      refine (sim_push hm₂ (v := .object o.ref) (x := .object i₁.objects.length) ?_).bind ?_
      · exact ⟨l, names_ref hc.turns.sound.consistent ho hf, by simp [World.put]⟩
      · rintro _ _ m₃ i₃ ⟨hm₃, rfl, stack, rfl⟩
        refine Sim.act_view (closureAt_eq_ok.mpr ⟨o, ho, hb⟩) ?_
        rw [Array.size_replicate]
        exact Sim.widen (follows_fillCaptures _ _ _ _ 0 hm₃ (by simp) (by simp [World.put]))
          (World.extends_put (hm₁.unplaced hc) _)

end

end Lox

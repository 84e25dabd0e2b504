import Lox.Proofs.Ideal.Calls

namespace Lox

open Heap HeapView MachineM HeapM

variable {α β γ δ : Type}

abbrev Heap.holding (h : Heap) (v : Value) : Heap :=
  { h with holds := v :: h.holds }

section

variable {w : World} {m : Machine} {i : Ideal} (hm : Mirrors w m i)

include hm

theorem Mirrors.hold {v : Value} {x : Val} (hx : m.heap.Shows w v x) :
    Pictures w i.objects i.upvalues (m.heap.holding v) ∧ (m.heap.holding v).Rooted (roots m) := by
  have hsame : m.heap.SameStore (m.heap.holding v) :=
    ⟨rfl, rfl, rfl, rfl, rfl, rfl, rfl⟩
  have hvalid {link : Link} (hv : m.heap.Valid link) (hd : IsDirect link) :
      (m.heap.holding v).Valid link := by
    cases hv with
    | plain hn => exact .plain hn
    | value ho hf ha => exact .value ho hf ha
    | object ha => exact .object ha
    | fields => exact absurd hd id
  refine ⟨hm.pictures.congr hsame rfl, fun link hl => ?_⟩
  rcases origins_hold.mp hl with rfl | hl
  · exact ⟨hvalid (hx.valid hm.pictures.sound.consistent) trivial, trivial⟩
  · obtain ⟨hv, hd⟩ := hm.rooted link hl
    exact ⟨hvalid hv hd, hd⟩

theorem Mirrors.release {v : Value} {x : Val} {h' : Heap} (hx : m.heap.Shows w v x)
    (ht : Turns (roots m) (m.heap.holding v) h') :
    Mirrors w { m with heap := { h' with holds := [] } } i := by
  obtain ⟨hp, hr⟩ := hm.hold hx
  have hc := ht.carries hp hr
  have hp' := ht.pictures hp hr
  have hsame : h'.SameStore { h' with holds := [] } := ⟨rfl, rfl, rfl, rfl, rfl, rfl, rfl⟩
  refine hm.reheap (.refl w) ?_ (hp'.congr hsame rfl)
  exact
    { shrunk := hc.shrunk
      size := hc.size
      names := hc.names
      strings := hc.strings
      alive := fun link hl k hk => by
        refine hc.alive link (origins_hold.mpr (.inr hl)) k ?_
        cases hk with
        | value ho hf => exact .value ho hf
        | object => exact .object _
        | fields => exact absurd (hm.rooted _ hl).2 id
      canonical := hc.canonical
      holds := hm.holds.symm
      closed := hc.closed
      markers := hc.markers }

theorem Mirrors.creates_bound {v u : Value} {x : Val} {k : Loc} (hx : m.heap.Shows w v x) (hu : u ∈ m.values)
    (hn : m.heap.Names v k) : Delivers False (roots m) (m.heap.holding v) (newBoundMethod u k)
      (Creates (roots m) (m.heap.holding v) (.boundMethod ⟨u, k⟩)) := by
  obtain ⟨hp, hr⟩ := hm.hold hx
  have hvalue : (m.heap.holding v).Safe (roots m) (.value u) :=
    hr.safe (origins_hold.mpr (.inr (hm.value_root hu)))
  have hmethod : (m.heap.holding v).Safe (roots m) (.object k) := by
    refine ⟨.object (hn.alive hm.pictures.sound.consistent), fun j hj => ?_⟩
    cases hj
    exact .root (origins_hold.mpr (.inl rfl)) (Names.leads (h := m.heap.holding v) hn)
  refine creates_allocate hp hr (by simp [Body.kind]) ?_ ?_ ?_ _
  · intro link hl
    rcases List.mem_cons.mp hl with rfl | hl
    · exact hvalue
    · rw [List.mem_singleton.mp hl]
      exact hmethod
  · intro link hl
    rcases List.mem_cons.mp hl with rfl | hl
    · trivial
    · rw [List.mem_singleton.mp hl]
      trivial
  · intro u' hu'
    obtain rfl : u' = u := by simpa [Body.links] using hu'
    obtain ⟨y, -, hy⟩ := forall₂_mem hm.stack hu
    exact hy.canonical

theorem Mirrors.unhold {v : Value} {h' : Heap} (hh : h'.holds = v :: m.heap.holds) :
    onHeap (HeapM.unhold (m.heap.holds.length + 1)) { m with heap := h' } =
      .ok () { m with heap := { h' with holds := [] } } := by
  refine onHeap_ok ?_
  show HeapM.unhold _ (roots m) h' = _
  rw [unhold_eq, if_neg (by rw [hh]; simp), hh, hm.holds]
  rfl

theorem follows_bindMethod {l : Loc} {k : Nat} {s : Symbol} (ha : m.heap.Alive l)
    (hw : w l = some (.object k)) (hs : m.heap.IsString s.loc s.chars s.hash) :
    Follows w m i (bindMethod l s) (IdealM.bindMethod k s.chars) := by
  have hgrow (receiver : Value) (depth : Nat) (k : Loc) : Grows (do
      let bound ← onHeap do valueOf (← newBoundMethod receiver k)
      onHeap (unhold depth)
      let _ ← pop
      push bound : MachineM Unit) :=
    have : Grows (onHeap do valueOf (← newBoundMethod receiver k)) := .value (grows_allocate _ _)
    .bind fun _ => inferInstance
  unfold bindMethod IdealM.bindMethod
  refine (sim_findMethod hm ha hw hs).bind_of_grows ?_ fun _ => .bind fun depth => .bind fun v =>
    .bind fun k => .bind fun _ => hgrow v depth k
  rintro v a m i ⟨rfl, rfl, hx⟩
  obtain ⟨hp, hr⟩ := hm.hold hx
  have hhold : onHeap (HeapM.hold v) m =
      .ok (m.heap.holds.length + 1) { m with heap := m.heap.holding v } := rfl
  refine Sim.act_bind hhold ?_
  refine Sim.spec_peek fun y hd hy => ?_
  obtain ⟨u, hu, hmem, hpeek⟩ := hm.peek (by omega) hy
  refine Sim.act_bind (hpeek _) ?_
  obtain ⟨k, hn, hk⟩ := id hx
  refine Sim.act_view (a := k) (Names.locOfValue (h := m.heap.holding v) hn) ?_
  refine Sim.spec_closureAt fun r hr' => ?_
  obtain ⟨c, hc, -⟩ := hp.closure (hn.alive hm.pictures.sound.consistent) hk hr'
  refine Sim.act_view hc ?_
  have hcreate := hm.creates_bound hx hmem hn
  refine Sim.act_heap (delivers_value hcreate fun _ _ hc => hc.alive) fun v' h' hv' => ?_
  obtain ⟨l', hc', hn'⟩ := hv'
  refine Sim.act_bind (hm.unhold hc'.turns.holds) (Sim.spec_bind rfl ?_)
  obtain ⟨o, ho, hf, hb⟩ := hc'.object
  have hnone : w l' = none := by
    cases ht : w l' with
    | none => rfl
    | some t => exact absurd (hm.pictures.placed l' t ht) (Nat.not_lt.mpr hc'.fresh)
  have hext := World.extends_put hnone (.object i.objects.length)
  have hm' := hm.release hx hc'.turns
  have hm'' := hm'.label hnone ho (.bound y a) (by
    rw [hb]
    have hvalue : (m.heap.holding v).Safe (roots m) (.value u) :=
      hr.safe (origins_hold.mpr (.inr (hm.value_root hmem)))
    have hu' := hc'.turns.shows hp hr hvalue hu
    have hsur : Survives h' { h' with holds := [] } := survives_congr rfl rfl
    exact .bound (by simp) (hsur.shows hext hu' fun j hj =>
      (hu'.valid hc'.turns.sound.consistent).alive hj) (hext _ _ hk))
  refine follows_pop_bind hm'' fun _ _ i' _ hm₃ => Sim.widen ?_ hext
  exact follows_push hm₃ ⟨l', hn', by simp [World.put]⟩

omit hm in
theorem grows_property (i : Instance) (s : Symbol) : Grows (match i.fields.get? s with
    | some v => do
      let _ ← pop
      push v
    | none => bindMethod i.class_ s : MachineM Unit) := by
  split <;> infer_instance

theorem follows_getProperty : Follows w m i getProperty IdealM.getProperty := by
  have hgrow := grows_property
  unfold getProperty IdealM.getProperty
  refine (sim_peek hm 0).bind_of_grows ?_ fun _ => .bind fun _ => .bind fun s => .bind fun i => hgrow i s
  rintro v x m i ⟨rfl, rfl, hx, hmem, -⟩
  refine (sim_instanceOr hm .propertyOfOther hx).bind_of_grows ?_ fun _ => .bind fun s => .bind fun i => hgrow i s
  rintro l ⟨a, k, fields⟩ m i ⟨rfl, rfl, hn, hw, ho⟩
  refine (sim_readName hm).bind_of_grows ?_ fun s => .bind fun i => hgrow i s
  rintro s chars m₁ i₁ ⟨hmove, rfl, hs, -⟩
  have hm₁ := hmove.mirrors
  obtain ⟨calls, rfl⟩ := hmove.machine
  obtain ⟨frames, rfl⟩ := hmove.ideal
  obtain ⟨inst, hinst, hcw, hca, ht, -⟩ :=
    hm₁.pictures.instance_ (hn.alive hm.pictures.sound.consistent) hw ho
  refine Sim.act_view hinst ?_
  have hget := ht.get?_eq hm₁.pictures.sound hs
  dsimp only at hget ⊢
  cases hf : fields s.chars with
  | some y =>
    rw [hf] at hget
    obtain ⟨value, hval, hshow, -⟩ := hget
    rw [hval]
    exact follows_pop_bind hm₁ fun _ _ _ _ hm₂ => follows_push hm₂ hshow
  | none =>
    rw [hf] at hget
    rw [hget]
    exact follows_bindMethod hm₁ hca hcw hs

theorem follows_setProperty : Follows w m i setProperty IdealM.setProperty := by
  unfold setProperty IdealM.setProperty
  refine (sim_peek hm 1).bind ?_
  rintro v x m i ⟨rfl, rfl, hx, hmem, -⟩
  refine (sim_instanceOr hm .fieldOfOther hx).bind ?_
  rintro l ⟨a, k, fields⟩ m i ⟨rfl, rfl, hn, hw, ho⟩
  refine (sim_readName hm).bind ?_
  rintro s chars m₁ i₁ ⟨hmove, rfl, hs, hreach⟩
  have hm₁ := hmove.mirrors
  obtain ⟨calls, rfl⟩ := hmove.machine
  obtain ⟨frames, rfl⟩ := hmove.ideal
  refine (sim_peek hm₁ 0).bind ?_
  rintro u y m₂ i₂ ⟨rfl, rfl, hu, humem, -⟩
  have hl := (hm₁.safe_object (v := v) hmem hn).reach l (.object l)
  refine Sim.act_heap (delivers_setEntry hm₁.pictures hm₁.rooted hl hw ho (.instance_ k fields)
    ⟨hs, hreach, hu, hm₁.safe_value humem⟩ (.instance_ k fields _) (.instance_ k _))
    fun _ h' hset => ?_
  obtain ⟨-, hwr, hp', -⟩ := hset
  have hm₂ := hm₁.reheap (.refl w) hwr.carries hp'
  refine Sim.spec_bind rfl ?_
  refine follows_pop_bind hm₂ fun u' y' i' hu' hm₃ => ?_
  exact follows_pop_bind hm₃ fun _ _ i'' _ hm₄ => follows_push hm₄ hu'

theorem sim_popClass : Sim m i popClass IdealM.popClass fun l k m' i' => Mirrors w m' i' ∧
    m' = { m with sp := m.sp - 1 } ∧ w l = some (.object k) ∧ m.heap.Alive l := by
  unfold popClass IdealM.popClass
  refine follows_pop_bind hm fun v x i' hx hm' => ?_
  rw [← bind_pure (IdealM.asClass x)]
  refine Sim.spec_asClass fun a name methods hxa ho => ?_
  subst hxa
  obtain ⟨l, hn, hw⟩ := hx
  have ha := hn.alive hm.pictures.sound.consistent
  obtain ⟨c, hc, -⟩ := hm'.pictures.class_ ha hw ho
  refine Sim.act_view hn.locOfValue (Sim.act_view hc ?_)
  exact .pure ⟨hm', rfl, hw, ha⟩

theorem follows_getSuper : Follows w m i getSuper IdealM.getSuper := by
  unfold getSuper IdealM.getSuper
  refine (sim_readName hm).bind ?_
  rintro s chars m₁ i₁ ⟨hmove, rfl, hs, -⟩
  refine (sim_popClass hmove.mirrors).bind ?_
  rintro l k m₂ i₂ ⟨hm₂, rfl, hw, ha⟩
  exact follows_bindMethod hm₂ ha hw hs

theorem follows_superInvoke : Follows w m i superInvoke IdealM.superInvoke := by
  unfold superInvoke IdealM.superInvoke
  refine (sim_readName hm).bind ?_
  rintro s chars m₁ i₁ ⟨hmove, rfl, hs, -⟩
  refine (sim_readByte hmove.mirrors).bind ?_
  rintro b _ m₂ i₂ ⟨rfl, hmove'⟩
  have hm₂ := hmove'.mirrors
  obtain ⟨calls, rfl⟩ := hmove'.machine
  refine (sim_popClass hm₂).bind ?_
  rintro l k m₃ i₃ ⟨hm₃, rfl, hw, ha⟩
  exact follows_invokeFromClass hm₃ ha hw hs _

theorem follows_invokeTop : Follows w m i invokeTop IdealM.invokeTop := by
  unfold invokeTop IdealM.invokeTop
  refine (sim_readName hm).bind ?_
  rintro s chars m₁ i₁ ⟨hmove, rfl, hs, -⟩
  refine (sim_readByte hmove.mirrors).bind ?_
  rintro b _ m₂ i₂ ⟨rfl, hmove'⟩
  have hm₂ := hmove'.mirrors
  obtain ⟨calls, rfl⟩ := hmove'.machine
  exact follows_invoke hm₂ hs _

theorem follows_callTop : Follows w m i callTop IdealM.callTop := by
  unfold callTop IdealM.callTop
  refine (sim_readByte hm).bind ?_
  rintro b _ m₁ i₁ ⟨rfl, hmove⟩
  refine (sim_peek hmove.mirrors _).bind ?_
  rintro v x m₁ i₁ ⟨rfl, rfl, hx, hmem, -⟩
  exact follows_callValue hmove.mirrors hmem hx _

theorem follows_makeClass : Follows w m i makeClass IdealM.makeClass := by
  unfold makeClass IdealM.makeClass
  refine (sim_readName hm).bind_of_grows ?_ fun s => ?_
  · rintro s chars m₁ i₁ ⟨hmove, rfl, hs, hreach⟩
    have hm₁ := hmove.mirrors
    have hcreate : Delivers False (roots m₁) m₁.heap (newClass s)
        (Creates (roots m₁) m₁.heap (.class_ ⟨s, .empty⟩)) := by
      have hlink {link : Link} (hl : link ∈ (Body.class_ ⟨s, .empty⟩).links) : link = .object s.loc := by
        rcases List.mem_cons.mp hl with rfl | hl
        · rfl
        · simp [Table.links, Table.empty] at hl
      refine creates_allocate hm₁.pictures hm₁.rooted (by simp [Body.kind]) ?_ ?_ ?_ _
      · intro link hl
        rw [hlink hl]
        refine ⟨.object hs.alive, fun k hk => ?_⟩
        cases hk
        exact hreach
      · intro link hl
        rw [hlink hl]
        trivial
      · intro v hv
        cases hlink hv
    refine Sim.act_heap (delivers_value hcreate fun _ _ hc => hc.alive) fun v h' hv => ?_
    obtain ⟨l, hc, hn⟩ := hv
    refine Sim.spec_bind rfl ?_
    have hobj : (i₁.objects ++ [Obj.class_ s.chars .empty])[i₁.objects.length]? =
        some (Obj.class_ s.chars .empty) := by simp
    have hm₂ := hm₁.create hc (.class_ s.chars .empty) (.class_ hobj
      (hc.turns.isString hm₁.pictures hm₁.rooted hreach hs) showsTable_empty)
    refine Sim.widen ?_ (World.extends_put (hm₁.unplaced hc) (.object i₁.objects.length))
    exact follows_push hm₂ ⟨l, hn, by simp [World.put]⟩
  · have : Grows (onHeap do valueOf (← newClass s)) := .value (grows_allocate _ _)
    infer_instance

theorem follows_defineMethod : Follows w m i defineMethod IdealM.defineMethod := by
  unfold defineMethod IdealM.defineMethod
  refine (sim_readName hm).bind ?_
  rintro s chars m₁ i₁ ⟨hmove, rfl, hs, hreach⟩
  have hm₁ := hmove.mirrors
  refine (sim_peek hm₁ 0).bind ?_
  rintro v x m₁ i₁ ⟨rfl, rfl, hx, hmem, -⟩
  cases x with
  | object a =>
    refine Sim.spec_closureAt fun r hr => ?_
    refine (sim_peek hm₁ 1).bind ?_
    rintro u y m₁ i₁ ⟨rfl, rfl, hy, humem, -⟩
    refine Sim.spec_asClass fun k name methods hk ho => ?_
    subst hk
    refine Sim.spec_classAt fun name' methods' ho' => ?_
    rw [ho] at ho'
    cases ho'
    obtain ⟨l, hn, hw⟩ := hy
    obtain ⟨c, hc, -⟩ := hm₁.pictures.class_ (hn.alive hm₁.pictures.sound.consistent) hw ho
    refine Sim.act_view hn.locOfValue (Sim.act_view hc ?_)
    have hl := (hm₁.safe_object humem hn).reach l (.object l)
    have hdict : HasDict (.class_ name (methods.set s.chars a))
        ((asValues methods).set s.chars (.object a)) := by
      rw [← asValues_set]
      exact .class_ name _
    refine Sim.act_heap (delivers_setEntry hm₁.pictures hm₁.rooted hl hw ho (.class_ name methods)
      ⟨hs, hreach, hx, hm₁.safe_value hmem⟩ (.class_ name methods _) hdict) fun _ h' hset => ?_
    obtain ⟨-, hwr, hp', -⟩ := hset
    refine Sim.spec_bind rfl ?_
    exact follows_drop (hm₁.reheap (.refl w) hwr.carries hp')
  | _ => trivial

theorem follows_inherit : Follows w m i inherit IdealM.inherit := by
  have hgrow (v : Value) : Grows (do
      let subclass ← peek 0
      let source ← locOfValue v
      let target ← locOfValue subclass
      let _ ← classAt target
      onHeap (inheritEntries source target)
      let _ ← pop : MachineM Unit) :=
    have (l k : Loc) : Grows (onHeap (inheritEntries l k)) :=
      .onHeap (keeps_inheritEntries l k).grows
    inferInstance
  unfold inherit IdealM.inherit
  dsimp only
  refine (sim_peek hm 1).bind_of_grows ?_ fun v => .bind fun b => ?_
  · rintro v x m i ⟨rfl, rfl, hx, hmem, -⟩
    have hkind := hm.pictures.ofKind hx .class_
    refine Sim.act_view hkind ?_
    have hraise {g : Dict Nat → IdealM Unit} (hk : (x.kind? i.objects == some .class_) = false) :
        Follows w m i (if (x.kind? i.objects == some .class_) = true then do
            let subclass ← peek 0
            let source ← locOfValue v
            let target ← locOfValue subclass
            let _ ← classAt target
            onHeap (inheritEntries source target)
            let _ ← pop
          else do
            raise .superclassNotClass
            let subclass ← peek 0
            let source ← locOfValue v
            let target ← locOfValue subclass
            let _ ← classAt target
            onHeap (inheritEntries source target)
            let _ ← pop) (IdealM.raise .superclassNotClass >>= g) := by
      rw [hk, if_neg (by simp)]
      exact sim_raise_bind_of_grows hm _ fun _ => hgrow v
    cases x with
    | nil => exact hraise rfl
    | bool b => exact hraise rfl
    | number bits => exact hraise rfl
    | string chars => exact hraise rfl
    | object b =>
      unfold IdealM.methodsOr
      rw [bind_assoc]
      refine Sim.spec_get ?_
      cases ho : i.objects[b]? with
      | none => exact hraise (by simp [Val.kind?, ho])
      | some z =>
        cases z with
        | class_ name methods =>
          rw [if_pos (by simp [Val.kind?, ho, Obj.kind]), pure_bind]
          refine (sim_peek hm 0).bind_of_grows ?_ fun u => ?_
          · rintro u y m i ⟨rfl, rfl, hy, humem, -⟩
            refine Sim.spec_asClass fun a name' own ha ho' => ?_
            subst ha
            refine Sim.spec_classAt fun name'' own' ho'' => ?_
            rw [ho'] at ho''
            cases ho''
            obtain ⟨s, hns, hws⟩ := hx
            obtain ⟨l, hn, hw⟩ := hy
            obtain ⟨c, hc, -⟩ := hm.pictures.class_ (hn.alive hm.pictures.sound.consistent) hw ho'
            refine Sim.act_view hns.locOfValue (Sim.act_view hn.locOfValue (Sim.act_view hc ?_))
            refine Sim.act_heap (delivers_inheritEntries hm.pictures hm.rooted
              ⟨_, hm.value_root hmem, hns.leads⟩ ⟨_, hm.value_root humem, hn.leads⟩ hws hw ho ho')
              fun _ h' hin => ?_
            refine Sim.spec_bind rfl ?_
            exact follows_drop (hm.reheap (.refl w) hin.1 hin.2)
          · have (l k : Loc) : Grows (onHeap (inheritEntries l k)) :=
              .onHeap (keeps_inheritEntries l k).grows
            infer_instance
        | _ => exact hraise (by simp [Val.kind?, ho, Obj.kind])
  · have := hgrow v
    infer_instance

end

end Lox

import Lox.Proofs.Ideal.Fetch

namespace Lox

open Heap HeapView MachineM

variable {α β γ δ : Type}

abbrev Follows (w : World) (m : Machine) (i : Ideal) (act : MachineM α) (spec : IdealM α) : Prop :=
  Sim m i act spec fun a b m' i' => a = b ∧ ∃ w', w.Extends w' ∧ Mirrors w' m' i'

theorem Sim.widen {w w' : World} {m : Machine} {i : Ideal} {act : MachineM α} {spec : IdealM α}
    (h : Follows w' m i act spec) (hw : w.Extends w') : Follows w m i act spec :=
  h.imp fun _ _ _ _ ⟨hab, w'', hw', hm⟩ => ⟨hab, w'', hw.trans hw', hm⟩

section

variable {w : World} {m : Machine} {i : Ideal} (hm : Mirrors w m i)

include hm

theorem follows_push {v : Value} {x : Val} (hx : m.heap.Shows w v x) :
    Follows w m i (push v) (IdealM.push x) :=
  (sim_push hm hx).imp fun _ _ _ _ h => ⟨rfl, w, .refl w, h.1⟩

theorem follows_pop_bind_of_grows {act : Value → MachineM α} {spec : Val → IdealM β}
    {post : α → β → Machine → Ideal → Prop}
    (hf : ∀ v x i', m.heap.Shows w v x → Mirrors w { m with sp := m.sp - 1 } i' →
      Sim { m with sp := m.sp - 1 } i' (act v) (spec x) post)
    (hg : ∀ v, Grows (act v)) :
    Sim m i (pop >>= act) (IdealM.pop >>= spec) post := by
  refine (sim_pop hm).bind ?_
  rintro v x m' i' ⟨rfl, -, hm', hx, -⟩
  exact hf v x i' hx hm'

theorem follows_pop_bind {act : Value → MachineM α} {spec : Val → IdealM β}
    {post : α → β → Machine → Ideal → Prop}
    (hf : ∀ v x i', m.heap.Shows w v x → Mirrors w { m with sp := m.sp - 1 } i' →
      Sim { m with sp := m.sp - 1 } i' (act v) (spec x) post)
    [hg : ∀ v, Grows (act v)] :
    Sim m i (pop >>= act) (IdealM.pop >>= spec) post :=
  follows_pop_bind_of_grows hm hf hg

theorem follows_drop : Follows w m i (do let _ ← pop) (do let _ ← IdealM.pop) := by
  refine follows_pop_bind hm fun _ _ _ _ hm' => ?_
  exact .pure ⟨rfl, w, .refl w, hm'⟩

theorem follows_getLocal : Follows w m i getLocal IdealM.getLocal := by
  unfold getLocal IdealM.getLocal IdealM.readLocal
  simp only [bind_assoc, pure_bind]
  refine (sim_readByte hm).bind ?_
  rintro b _ m' i' ⟨rfl, hmove⟩
  refine (sim_frame hmove.mirrors).bind ?_
  rintro f a _ _ ⟨rfl, rfl, hs, -⟩
  rw [show f.base + (b.toNat : Int) = ((a.base + b.toNat : Nat) : Int) by rw [hs.base]; simp]
  refine (sim_readSlot hmove.mirrors _).bind ?_
  rintro v x _ _ ⟨rfl, rfl, hx, -⟩
  exact follows_push hmove.mirrors hx

theorem follows_setLocal : Follows w m i setLocal IdealM.setLocal := by
  unfold setLocal IdealM.setLocal IdealM.readLocal
  simp only [bind_assoc, pure_bind]
  refine (sim_readByte hm).bind ?_
  rintro b _ m' i' ⟨rfl, hmove⟩
  refine (sim_frame hmove.mirrors).bind ?_
  rintro f a _ _ ⟨rfl, rfl, hs, -⟩
  rw [show f.base + (b.toNat : Int) = ((a.base + b.toNat : Nat) : Int) by rw [hs.base]; simp]
  refine (sim_peek hmove.mirrors 0).bind ?_
  rintro v x _ _ ⟨rfl, rfl, hx, -⟩
  exact (sim_writeSlot hmove.mirrors _ hx).imp fun _ _ _ _ h => ⟨rfl, w, .refl w, h.1⟩

theorem Mirrors.withGlobals {t : Table} {d : Dict Val} (ht : m.heap.ShowsTable w t d) :
    Mirrors w { m with globals := t } { i with globals := d } :=
  { hm with filled := ⟨hm.filled.written, hm.filled.room⟩, globals := ht }

theorem Mirrors.turn {h' : Heap} (ht : Turns (roots m) m.heap h') :
    Mirrors w { m with heap := h' } i :=
  hm.reheap (.refl w) (ht.carries hm.pictures hm.rooted) (ht.pictures hm.pictures hm.rooted)

theorem Mirrors.safe_value {v : Value} (hv : v ∈ m.values) : m.heap.Safe (roots m) (.value v) :=
  hm.rooted.safe (hm.value_root hv)

theorem Sim.act_setGlobal {s : Symbol} {v : Value} {x : Val} (hb : HeapM.Binding w (roots m) m.heap s v x)
    {f : Bool → MachineM α} {spec : IdealM β} {post : α → β → Machine → Ideal → Prop}
    (hf : ∀ h' globals, Mirrors w { m with heap := h', globals } { i with globals := i.globals.set s.chars x } →
      (i.globals s.chars = none →
        Mirrors w { m with heap := h', globals := (globals.delete s).2 } i) →
      Sim { m with heap := h', globals } i (f (i.globals s.chars).isNone) spec post)
    [hg : ∀ b, Grows (f b)] : Sim m i (setGlobal s v >>= f) spec post := by
  have hinsert {m : Machine} (hm : Mirrors w m i) (hk : m.heap.IsString s.loc s.chars s.hash)
      (hx : m.heap.Shows w v x) (hc : m.globals.isCrowded = false)
      (hf : ∀ globals, Mirrors w { m with globals } { i with globals := i.globals.set s.chars x } →
        (i.globals s.chars = none →
          Mirrors w { m with globals := (globals.delete s).2 } i) →
        Sim { m with globals } i (f (i.globals s.chars).isNone) spec post) :
      Sim m i ((modifyGet fun m : Machine =>
        ((m.globals.insert s v).1, { m with globals := (m.globals.insert s v).2 }) : MachineM Bool) >>= f)
        spec post := by
    have hfst := hm.globals.insert_fst hm.pictures.sound hk hc v
    have hins := hm.globals.insert hm.pictures.sound hk hc hx
    have hrun : (modifyGet fun m : Machine =>
        ((m.globals.insert s v).1, { m with globals := (m.globals.insert s v).2 }) : MachineM Bool) m =
          .ok (i.globals s.chars).isNone { m with globals := (m.globals.insert s v).2 } := by
      rw [← hfst]
      rfl
    exact act_bind hrun (hf _ (hm.withGlobals hins) fun hn =>
      hm.withGlobals (hm.globals.delete_insert hm.pictures.sound hk hc hn hx))
  unfold setGlobal
  simp only [bind_assoc]
  refine act_bind (x := get) rfl ?_
  cases hc : m.globals.isCrowded with
  | false =>
    rw [if_neg (by simp)]
    exact hinsert hm hb.isString hb.shows hc fun globals h₁ h₂ => hf m.heap globals h₁ h₂
  | true =>
    rw [if_pos rfl]
    simp only [bind_assoc]
    have hmod (capacity : Nat) : Grows (modify fun m : Machine =>
      { m with globals := m.globals.growTo capacity } : MachineM Unit) := .modify fun _ => rfl
    have hins : Grows (modifyGet fun m : Machine =>
      ((m.globals.insert s v).1, { m with globals := (m.globals.insert s v).2 }) : MachineM Bool) :=
      .modifyGet fun _ => rfl
    refine act_heap_of_grows (HeapM.turns_account hm.pictures hm.rooted _) (fun _ h' ht => ?_)
      fun _ => .bind fun _ => .bind fun b => hg b
    have hm₁ := hm.turn ht
    have hb₁ := hb.turns hm.pictures hm.rooted ht
    refine act_bind rfl ?_
    refine hinsert (hm₁.withGlobals hm₁.globals.growTo) hb₁.isString hb₁.shows
      hm.globals.sound.isCrowded_growTo fun globals h₁ h₂ => hf h' globals h₁ h₂

theorem follows_getGlobal : Follows w m i getGlobal IdealM.getGlobal := by
  refine (sim_readName hm).bind_of_grows ?_ fun _ => .bind fun _ => by split <;> infer_instance
  rintro s chars m' i' ⟨hmove, rfl, hstr, -⟩
  have hm' := hmove.mirrors
  refine Sim.act_bind (x := get) rfl (Sim.spec_get ?_)
  have hget := hm'.globals.get?_eq hm'.pictures.sound hstr
  cases hx : i'.globals s.chars with
  | none =>
    rw [hx] at hget
    rw [hget]
    exact sim_raise hm' _
  | some x =>
    rw [hx] at hget
    obtain ⟨v, hv, hshow, -⟩ := hget
    rw [hv]
    exact follows_push hm' hshow

theorem follows_defineGlobal : Follows w m i defineGlobal IdealM.defineGlobal := by
  unfold defineGlobal IdealM.defineGlobal
  refine (sim_readName hm).bind ?_
  rintro s chars m' i' ⟨hmove, rfl, hstr, hreach⟩
  have hm' := hmove.mirrors
  refine (sim_peek hm' 0).bind ?_
  rintro v x _ _ ⟨rfl, rfl, hx, hmem, -⟩
  refine Sim.act_setGlobal hm' ⟨hstr, hreach, hx, hm'.safe_value hmem⟩ fun h' globals h₁ _ => ?_
  exact Sim.spec_bind (y := IdealM.setGlobal s.chars x) rfl (follows_drop h₁)

theorem follows_assignGlobal : Follows w m i assignGlobal IdealM.assignGlobal := by
  have hdel (s : Symbol) : Grows (modify fun m : Machine =>
      { m with globals := (m.globals.delete s).2 } : MachineM Unit) := .modify fun _ => rfl
  unfold assignGlobal IdealM.assignGlobal
  refine (sim_readName hm).bind ?_
  rintro s chars m' i' ⟨hmove, rfl, hstr, hreach⟩
  have hm' := hmove.mirrors
  refine (sim_peek hm' 0).bind ?_
  rintro v x m' i' ⟨rfl, rfl, hx, hmem, -⟩
  refine Sim.spec_get ?_
  refine Sim.act_setGlobal hm' ⟨hstr, hreach, hx, hm'.safe_value hmem⟩ fun h' globals h₁ h₂ => ?_
  cases hn : i'.globals s.chars with
  | some y => exact .inr ⟨rfl, w, .refl w, h₁⟩
  | none =>
    refine Sim.act_bind rfl ?_
    exact sim_raise (h₂ hn) _

end

namespace Heap

variable {h : Heap} {w : World} {objects : List (Obj Routine)} {upvalues : List Captured}

theorem Depicts.isUpvalue {body : Body} {u : Nat}
    (hd : h.Depicts w objects upvalues body (.upvalue u)) : ∃ x, body = .upvalue x := by
  cases hd <;> exact ⟨_, rfl⟩

theorem addsCanonical_closeBody {v : Value} (hv : v.IsCanonical) : AddsCanonical (closeBody v) := by
  intro b u hm
  cases b with
  | upvalue x =>
    have : u = v := by simpa [closeBody, Body.links] using hm
    exact .inr (this ▸ hv)
  | _ => exact .inl hm

theorem Pictures.close (hp : Pictures w objects upvalues h) {l : Loc} {u : Nat} {v : Value} {x : Val}
    (hw : w l = some (.upvalue u)) (hx : h.Shows w v x) :
    Pictures w objects (upvalues.set u (.closed x)) (h.updateBody l (closeBody v)) := by
  have hlt := hp.upvalue_lt l u hw
  have hc := hp.sound.consistent
  have hlinks {o : Object} (ho : h.objects[l]? = some o) (hf : o.freed = false) :
      closeBody v o.body = .upvalue (.closed v) := by
    obtain ⟨y, hy⟩ := (hp.depicts l o _ ho hf hw).isUpvalue
    rw [hy, closeBody]
  refine hp.update (keepsStrings_closeBody v) ?_ (fun _ _ _ _ => rfl) ?_ rfl (by simp) ?_
  · intro o ho hf link hm
    rw [hlinks ho hf] at hm
    obtain rfl := List.mem_singleton.mp hm
    exact hx.valid hc
  · intro k b hk hb
    have hne : u ≠ b := fun he => hk (hp.upvalue_inj k l u (he ▸ hb) hw)
    rw [List.getElem?_set_ne hne]
  · intro o t ho hf ht _
    rw [hw] at ht
    cases ht
    rw [hlinks ho hf]
    refine .closed (List.getElem?_set_self hlt) ?_
    exact (survives_updateBody (keepsStrings_closeBody v)).shows (.refl w) hx fun k hk =>
      (alive_updateBody l k _).mpr ((hx.valid hc).alive hk)

end Heap

section

variable {w : World} {m : Machine} {i : Ideal} (hm : Mirrors w m i)

include hm

theorem Mirrors.close {l : Loc} {u : Nat} {v : Value} {x : Val} (hw : w l = some (.upvalue u))
    (ha : m.heap.Alive l) (hx : m.heap.Shows w v x) : ∃ h',
    onHeap (modify (·.updateBody l fun _ => .upvalue (.closed v))) m = .ok () { m with heap := h' } ∧
      Mirrors w { m with heap := h' } { i with upvalues := i.upvalues.set u (.closed x) } ∧
      ∀ v x, m.heap.Shows w v x → h'.Shows w v x := by
  obtain ⟨o, ho, -, hd⟩ := hm.pictures.body ha hw
  obtain ⟨y, hy⟩ := hd.isUpvalue
  have hkeep := keepsStrings_closeBody v
  have heq : m.heap.updateBody l (fun _ => .upvalue (.closed v)) = m.heap.updateBody l (closeBody v) := by
    refine updateBody_congr ho ?_
    rw [hy, closeBody]
  refine ⟨m.heap.updateBody l (closeBody v), ?_, ?_, ?_⟩
  · rw [← heq]
    rfl
  · have hcan := (addsCanonical_closeBody hx.canonical).canonical (h := m.heap) (l := l)
    exact hm.reheap (.refl w) (carries_updateBody hkeep hcan fun link hl => (hm.rooted link hl).1)
      (hm.pictures.close hw hx)
  · intro v' x' hx'
    exact (survives_updateBody hkeep).shows (.refl w) hx' fun k hk => (alive_updateBody l k _).mpr
      ((hx'.valid hm.pictures.sound.consistent).alive hk)

theorem sim_readCaptured : Sim m i readCaptured IdealM.readCaptured fun o u m' i' =>
    ∃ l, o = some l ∧ Moves w m i m' i' ∧ w l = some (.upvalue u) ∧ m'.heap.Alive l := by
  refine (sim_readByte hm).bind_of_grows ?_ fun _ => .bind fun _ => .bind fun _ => by split <;> infer_instance
  rintro b _ m' i' ⟨rfl, hmove⟩
  have hm' := hmove.mirrors
  refine Sim.spec_frame fun a as ha => Sim.spec_closureAt fun r hr => ?_
  obtain ⟨f, fs, hf, hs, -⟩ := hm'.frame ha
  obtain ⟨c, hc, -, -, hcap, hlinks⟩ := hm'.pictures.closure hs.alive hs.closure hr
  refine Sim.act_bind (frame_of_frames hf) (Sim.act_view hc ?_)
  refine Sim.spec_ofOption fun o ho => ?_
  obtain ⟨o', ho', hshow⟩ := forall₂_getElem? hcap ho
  cases o with
  | none => trivial
  | some u =>
    cases o' with
    | none => exact hshow.elim
    | some l =>
      rw [Array.getElem?_toList] at ho'
      rw [ho']
      refine .pure ⟨l, rfl, hmove, hshow, ?_⟩
      refine (hm'.pictures.linked _ hs.alive (.object l) ?_).alive (.object l)
      rw [hlinks]
      refine .tail _ (List.mem_filterMap.mpr ⟨some l, ?_, rfl⟩)
      exact List.mem_of_getElem? (Array.getElem?_toList ▸ ho')

theorem sim_readUpvalue {l : Loc} {u : Nat} (hw : w l = some (.upvalue u)) (ha : m.heap.Alive l) :
    Sim m i (readUpvalue l) (IdealM.readUpvalue u) fun v x m' i' =>
      m' = m ∧ i' = i ∧ m.heap.Shows w v x := by
  refine Sim.spec_get ?_
  rcases hm.pictures.captured ha hw with ⟨n, hu, hup⟩ | ⟨v, x, hu, hup, hx⟩
  · rw [hu]
    refine Sim.act_view hup ?_
    exact (sim_readSlot hm n).imp fun _ _ _ _ h => ⟨h.1, h.2.1, h.2.2.1⟩
  · rw [hu]
    refine Sim.act_view hup ?_
    exact .pure ⟨rfl, rfl, hx⟩

theorem follows_writeUpvalue {l : Loc} {u : Nat} {v : Value} {x : Val} (hw : w l = some (.upvalue u))
    (ha : m.heap.Alive l) (hx : m.heap.Shows w v x) :
    Follows w m i (writeUpvalue l v) (IdealM.writeUpvalue u x) := by
  refine Sim.spec_get ?_
  rcases hm.pictures.captured ha hw with ⟨n, hu, hup⟩ | ⟨v', x', hu, hup, -⟩
  · rw [hu]
    refine Sim.act_view hup ?_
    exact (sim_writeSlot hm n hx).imp fun _ _ _ _ h => ⟨rfl, w, .refl w, h.1⟩
  · rw [hu]
    refine Sim.act_view hup ?_
    obtain ⟨h', hrun, hm', -⟩ := hm.close hw ha hx
    unfold Sim
    simp only [hrun]
    exact .inr ⟨trivial, w, .refl w, hm'⟩

theorem follows_getUpvalue : Follows w m i getUpvalue IdealM.getUpvalue := by
  refine (sim_readCaptured hm).bind_of_grows ?_ fun _ => by split <;> infer_instance
  rintro _ u m' i' ⟨l, rfl, hmove, hw, ha⟩
  refine (sim_readUpvalue hmove.mirrors hw ha).bind ?_
  rintro v x _ _ ⟨rfl, rfl, hx⟩
  exact follows_push hmove.mirrors hx

theorem follows_setUpvalue : Follows w m i setUpvalue IdealM.setUpvalue := by
  refine (sim_readCaptured hm).bind_of_grows ?_ fun _ => by split <;> infer_instance
  rintro _ u m' i' ⟨l, rfl, hmove, hw, ha⟩
  refine (sim_peek hmove.mirrors 0).bind ?_
  rintro v x _ _ ⟨rfl, rfl, hx, -⟩
  exact follows_writeUpvalue hmove.mirrors hw ha hx

structure Closes (w : World) (m : Machine) (i : Ideal) (m' : Machine) (i' : Ideal) : Prop where
  mirrors : Mirrors w m' i'
  machine : ∃ heap openUpvalues, m' = { m with heap, openUpvalues }
  ideal : ∃ upvalues openUpvalues, i' = { i with upvalues, openUpvalues }
  shows : ∀ v x, m.heap.Shows w v x → m'.heap.Shows w v x

omit hm in
theorem sim_closeFrom (last : Nat) {us : List (Int × Loc)} {vs : List (Nat × Nat)} (m : Machine)
    (i : Ideal) (hm : Mirrors w m i) (hus : m.openUpvalues = us) (hvs : i.openUpvalues = vs) :
    Sim m i (closeFrom last us) (IdealM.closeFrom last vs) fun _ _ => Closes w m i := by
  induction us generalizing m i vs with
  | nil =>
    have ho := hm.opened
    rw [hus, hvs] at ho
    cases ho
    exact .pure ⟨hm, ⟨_, _, rfl⟩, ⟨_, _, rfl⟩, fun _ _ h => h⟩
  | cons u us ih =>
    have ho := hm.opened
    rw [hus, hvs] at ho
    cases ho with
    | @cons _ v _ vs hs hrest =>
      obtain ⟨slot, l⟩ := u
      obtain ⟨n, k⟩ := v
      have hslot : slot = (n : Int) := hs.slot
      subst hslot
      unfold closeFrom IdealM.closeFrom
      by_cases hl : last ≤ n
      · rw [if_pos hl, if_pos (Int.ofNat_le.mpr hl)]
        have hgrow : ∀ v : Value, Grows (do
            onHeap (modify (·.updateBody l fun _ => .upvalue (.closed v)))
            modify fun m => { m with openUpvalues := us }
            closeFrom last us : MachineM Unit) := fun v =>
          have : Grows (onHeap (modify (·.updateBody l fun _ => .upvalue (.closed v)))) :=
            .onHeap (HeapM.grows_updateBody _ _)
          have : Grows (modify fun m : Machine => { m with openUpvalues := us } : MachineM Unit) :=
            .modify fun _ => rfl
          inferInstance
        refine (sim_readSlot hm n).bind_of_grows ?_ hgrow
        rintro v x m i ⟨rfl, rfl, hx, -⟩
        obtain ⟨h', hrun, hm', hshows⟩ := hm.close hs.place hs.alive hx
        refine Sim.act_bind hrun (Sim.act_bind rfl (Sim.spec_bind rfl ?_))
        have hm'' : Mirrors w { m with heap := h', openUpvalues := us }
            { i with upvalues := i.upvalues.set k (.closed x), openUpvalues := vs } := by
          refine { hm' with filled := ⟨hm.filled.written, hm.filled.room⟩, opened := ?_ }
          have ho' := hm'.opened
          rw [show ({ m with heap := h' } : Machine).openUpvalues = _ from hus,
            show ({ i with upvalues := i.upvalues.set k (.closed x) } : Ideal).openUpvalues = _
              from hvs] at ho'
          cases ho' with
          | cons _ h => exact h
        refine (ih _ _ hm'' rfl rfl).imp ?_
        rintro _ _ m' i' ⟨hm₁, ⟨heap, opened, rfl⟩, ⟨upvalues, opened', rfl⟩, hshows'⟩
        exact ⟨hm₁, ⟨_, _, rfl⟩, ⟨_, _, rfl⟩, fun v x h => hshows' v x (hshows v x h)⟩
      · rw [if_neg hl, if_neg fun h => hl (Int.ofNat_le.mp h)]
        exact .pure ⟨hm, ⟨_, _, rfl⟩, ⟨_, _, rfl⟩, fun _ _ h => h⟩

theorem sim_closeUpvalues (last : Nat) :
    Sim m i (closeUpvalues last) (IdealM.closeUpvalues last) fun _ _ => Closes w m i := by
  refine Sim.act_bind (x := get) rfl (Sim.spec_get ?_)
  exact sim_closeFrom last m i hm rfl rfl

theorem follows_closeTop : Follows w m i closeTop IdealM.closeTop := by
  unfold closeTop IdealM.closeTop
  refine Sim.act_bind (x := get) rfl ?_
  refine Sim.spec_calleeSlot fun hd => ?_
  rw [hm.sp_eq, show (i.stack.length : Int) - 1 = ((i.stack.length - 1 - 0 : Nat) : Int) by omega]
  exact (sim_closeUpvalues hm _).bind fun _ _ m' i' hc => follows_drop hc.mirrors

theorem Mirrors.take {n : Nat} (hn : n ≤ i.stack.length) :
    Mirrors w { m with sp := n } { i with stack := i.stack.take n } := by
  have hsp := hm.sp_eq
  have hw := hm.filled.written
  have hr := hm.filled.room
  refine { hm with filled := ⟨?_, ?_⟩, stack := ?_ }
  · show n ≤ m.stack.written.size
    omega
  · show n ≤ m.stack.size
    omega
  · have hv : ({ m with sp := n } : Machine).values = m.values.take n :=
      Stack.slice_take (show n ≤ m.sp by omega)
    rw [hv]
    exact List.forall₂_take n hm.stack

theorem follows_leave : Follows w m i leave IdealM.leave := by
  have hpop : Grows (modify fun m : Machine => { m with calls := m.calls.pop } : MachineM Unit) :=
    .modify fun _ => rfl
  have hrest (f : Frame) (result : Value) : Grows (do
      if (← get).calls.depth = 0 then
        let _ ← pop
        return false
      if f.base < 0 then stop .outOfRange
      modify fun m => { m with sp := f.base.toNat }
      push result
      return true : MachineM Bool) := by
    have hback : Grows (modify fun m : Machine => { m with sp := f.base.toNat } : MachineM Unit) :=
      .modify fun _ => rfl
    refine .bind fun m => ?_
    dsimp only
    infer_instance
  unfold leave IdealM.leave
  refine (sim_frame hm).bind_of_grows ?_ fun f => .bind fun v => .bind fun _ => .bind fun _ => hrest f v
  rintro f a m i ⟨rfl, rfl, hs, fs, as, hfs, has⟩
  refine follows_pop_bind_of_grows hm (fun v x i' hx hm' => ?_) fun v => .bind fun _ => .bind fun _ => hrest f v
  rw [hs.base]
  refine (sim_closeUpvalues hm' a.base).bind_of_grows ?_ fun _ => .bind fun _ => hs.base ▸ hrest f v
  rintro _ _ m' i' ⟨hm', ⟨heap, opened, rfl⟩, hideal, hshows⟩
  refine Sim.act_bind rfl (Sim.spec_bind rfl ?_)
  have hm₁ : Mirrors w { m with heap, openUpvalues := opened, sp := m.sp - 1, calls := m.calls.pop }
      { i' with frames := i'.frames.tail } := by
    refine { hm' with filled := ⟨hm'.filled.written, hm'.filled.room⟩, frames := ?_ }
    show List.Forall₂ _ m.calls.frames.tail i'.frames.tail
    exact forall₂_tail hm'.frames
  have hx' := hshows v x hx
  refine Sim.act_bind (x := get) rfl (Sim.spec_get ?_)
  have hlen : m.calls.pop.frames.length = i'.frames.tail.length := hm₁.frames.length_eq
  have hdepth : m.calls.pop.depth = 0 ↔ i'.frames.tail.isEmpty = true := by
    rw [Calls.depth_eq, hlen, List.isEmpty_iff_length_eq_zero]
  by_cases hend : i'.frames.tail.isEmpty = true
  · rw [if_pos (hdepth.mpr hend), if_pos hend]
    refine follows_pop_bind hm₁ fun _ _ _ _ hm₂ => ?_
    exact .pure ⟨rfl, w, .refl w, hm₂⟩
  · rw [if_neg fun h => hend (hdepth.mp h), if_neg hend]
    rw [if_neg (show ¬ (a.base : Int) < 0 by omega)]
    refine Sim.spec_get ?_
    split
    · trivial
    · next hlt =>
      have hm₂ := hm₁.take (n := a.base) (Nat.le_of_not_lt hlt)
      refine Sim.act_bind rfl (Sim.spec_bind rfl ?_)
      obtain ⟨stack, hrun, hm₃⟩ := hm₂.push hx'
      exact Sim.act_bind hrun (.pure ⟨rfl, w, .refl w, hm₃⟩)

end

end Lox

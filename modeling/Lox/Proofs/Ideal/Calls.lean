import Lox.Proofs.Ideal.Create

namespace Lox

open Heap HeapView MachineM HeapM

variable {α β γ δ : Type}

theorem Sim.spec_call {m : Machine} {i : Ideal} {act : MachineM α} {a count : Nat}
    {post : α → Unit → Machine → Ideal → Prop}
    (hc : ∀ r, i.objects[a]? = some (.closure r) → Sim m i act (IdealM.call a count) post) :
    Sim m i act (IdealM.call a count) post := by
  by_cases h : ∃ r, i.objects[a]? = some (.closure r)
  · obtain ⟨r, hr⟩ := h
    exact hc r hr
  · unfold IdealM.call
    refine spec_closureAt fun r hr => absurd ⟨r, hr⟩ h

section

variable {w : World} {m : Machine} {i : Ideal} (hm : Mirrors w m i)

include hm

theorem follows_call {l : Loc} {a : Nat} (ha : m.heap.Alive l) (hw : w l = some (.object a))
    (count : Nat) : Follows w m i (call l count) (IdealM.call a count) := by
  have hmod (f : Frame) : Grows (modify fun m : Machine => { m with calls := m.calls.push f } :
      MachineM Unit) := .modify fun _ => rfl
  unfold call IdealM.call
  refine Sim.spec_closureAt fun r hr => ?_
  obtain ⟨fn, hfn, hsf, -⟩ := hm.function ha hw hr
  refine Sim.act_bind hfn ?_
  rw [hsf.arity]
  dsimp only
  by_cases hc : count = r.prototype.arity
  · rw [if_neg (by rw [hc]; simp), if_neg (by simpa using hc)]
    refine Sim.act_bind (x := get) rfl (Sim.spec_get ?_)
    refine (sim_calleeSlot hm count).bind ?_
    rintro s n m i ⟨rfl, rfl, rfl, -, -⟩
    have hdepth : m.calls.depth = i.frames.length := by
      rw [m.calls.depth_eq, hm.frames.length_eq]
    rw [hdepth, hm.maxFrames]
    have hover : ((i.maxFrames * slotsPerFrame : Nat) : Int) < (n : Int) + (slotsPerFrame : Int) ↔
        i.maxFrames * slotsPerFrame < n + slotsPerFrame := by
      rw [← Int.natCast_add, Int.ofNat_lt]
    by_cases ho : i.frames.length = i.maxFrames ∨ i.maxFrames * slotsPerFrame < n + slotsPerFrame
    · rw [if_pos (by rwa [hover]), if_pos ho]
      exact sim_raise_bind hm _
    · rw [if_neg (by rwa [hover]), if_neg ho]
      refine .inr ⟨rfl, w, .refl w, { hm with filled := ⟨hm.filled.written, hm.filled.room⟩, frames := ?_ }⟩
      exact .cons ⟨hw, ha, rfl, rfl⟩ hm.frames
  · rw [if_pos (show (count : Int) ≠ r.prototype.arity from fun h => hc (Int.ofNat.inj h)), if_pos hc]
    exact sim_raise_bind hm _

theorem sim_host (f : HostFunction) (arguments : List Value) :
    Sim m i (host f arguments) (IdealM.host f) fun v x m' i' =>
      Mirrors w m' i' ∧ m'.heap.Shows w v x := by
  cases f with
  | clock =>
    refine Sim.act_bind (x := elapsed) rfl (Sim.spec_bind (y := IdealM.elapsed) rfl ?_)
    rw [hm.clock]
    exact .pure ⟨{ hm with filled := ⟨hm.filled.written, hm.filled.room⟩, clock := rfl }, rfl, Value.isNumeral_number _⟩
  | gc =>
    refine Sim.act_heap (turns_collect hm.pictures hm.rooted) fun _ h' ht => ?_
    exact .pure ⟨hm.turn ht, rfl⟩
  | custom code => trivial

theorem follows_callNative (n : Native) (count : Nat) :
    Follows w m i (callNative n count) (IdealM.callNative n count) := by
  have hback : Grows (modify fun m : Machine => { m with sp := m.sp - (count + 1) } : MachineM Unit) :=
    .modify fun _ => rfl
  have hrest : Follows w m i (do
      let m ← get
      let result ← host n.behaviour (m.stack.slice (m.sp - count) m.sp)
      modify fun m => { m with sp := m.sp - (count + 1) }
      push result) (do
      let result ← IdealM.host n.behaviour
      let base ← IdealM.calleeSlot count
      modify fun i => { i with stack := i.stack.take base }
      IdealM.push result) := by
    refine Sim.act_bind (x := get) rfl ?_
    refine (sim_host hm n.behaviour _).bind ?_
    rintro v x m' i' ⟨hm', hx⟩
    refine Sim.spec_calleeSlot fun hd => ?_
    refine Sim.act_bind rfl (Sim.spec_bind rfl ?_)
    have hm'' := hm'.take (n := i'.stack.length - 1 - count) (by omega)
    have hsp : m'.sp - (count + 1) = i'.stack.length - 1 - count := by
      rw [hm'.sp_eq]
      omega
    change Follows w { m' with sp := m'.sp - (count + 1) } _ _ _
    rw [hsp]
    exact follows_push hm'' hx
  unfold callNative IdealM.callNative
  dsimp only
  cases n.arity with
  | none => exact hrest
  | some arity =>
    dsimp only
    by_cases hc : count = arity
    · rw [if_neg (by simpa using hc), if_neg (by simpa using hc)]
      exact hrest
    · rw [if_pos hc, if_pos hc]
      exact sim_raise_bind hm _

theorem Mirrors.safe_object {v : Value} {l : Loc} (hv : v ∈ m.values) (hn : m.heap.Names v l) :
    m.heap.Safe (roots m) (.object l) := by
  refine ⟨.object (hn.alive hm.pictures.sound.consistent), fun k hk => ?_⟩
  cases hk
  exact (hm.safe_value hv).reach l hn.leads

theorem Mirrors.method {l : Loc} {k : Nat} {name : Bytes} {methods : Dict Nat} {s : Symbol}
    (ha : m.heap.Alive l) (hw : w l = some (.object k))
    (hx : i.objects[k]? = some (.class_ name methods))
    (hs : m.heap.IsString s.loc s.chars s.hash) : ∃ c, classAt l m.heap = .ok c ∧
      match methods s.chars with
      | some a => ∃ v, c.methods.get? s = some v ∧ m.heap.Shows w v (.object a)
      | none => c.methods.get? s = none := by
  obtain ⟨c, hc, -, ht, -⟩ := hm.pictures.class_ ha hw hx
  refine ⟨c, hc, ?_⟩
  have hget := ht.get?_eq hm.pictures.sound hs
  unfold asValues at hget
  cases hm' : methods s.chars with
  | none =>
    rw [hm'] at hget
    exact hget
  | some a =>
    rw [hm'] at hget
    obtain ⟨v, hv, hshow, -⟩ := hget
    exact ⟨v, hv, hshow⟩

theorem follows_callMethod {v : Value} {a : Nat} (hx : m.heap.Shows w v (.object a)) (count : Nat) :
    Follows w m i (do
      let closure ← locOfValue v
      let _ ← closureAt closure
      call closure count) (IdealM.call a count) := by
  obtain ⟨l, hn, hw⟩ := hx
  have ha := hn.alive hm.pictures.sound.consistent
  refine Sim.spec_call fun r hr => ?_
  obtain ⟨c, hc, -⟩ := hm.pictures.closure ha hw hr
  refine Sim.act_view hn.locOfValue (Sim.act_view hc ?_)
  exact follows_call hm ha hw count

theorem follows_initialize {l : Loc} {a : Nat} (ha : m.heap.Alive l) (hw : w l = some (.object a))
    (count : Nat) : Follows w m i (do
      let c ← classAt l
      match (← get).initName.bind c.methods.get? with
      | some initializer =>
        let closure ← locOfValue initializer
        let _ ← closureAt closure
        call closure count
      | none => if count ≠ 0 then raise (.arity 0 count)) (do
      match (← IdealM.classAt a).2 "init" with
      | some initializer => IdealM.call initializer count
      | none => if count ≠ 0 then IdealM.raise (.arity 0 count)) := by
  refine Sim.spec_classAt fun name methods hx => ?_
  obtain ⟨s, hs, hchars, hstr⟩ := hm.initName
  obtain ⟨c, hcl, hmeth⟩ := hm.method ha hw hx hstr
  rw [hchars] at hmeth
  refine Sim.act_view hcl (Sim.act_bind (x := get) rfl ?_)
  rw [hs, Option.bind_some]
  dsimp only
  cases hi : methods "init" with
  | some initializer =>
    rw [hi] at hmeth
    obtain ⟨v, hv, hshow⟩ := hmeth
    rw [hv]
    exact follows_callMethod hm hshow count
  | none =>
    rw [hi] at hmeth
    rw [hmeth]
    dsimp only
    by_cases h0 : count = 0
    · rw [if_neg (by simpa using h0), if_neg (by simpa using h0)]
      exact .pure ⟨rfl, w, .refl w, hm⟩
    · rw [if_pos h0, if_pos h0]
      exact sim_raise hm _

theorem Mirrors.creates_instance {l : Loc} (hsafe : m.heap.Safe (roots m) (.object l)) :
    Delivers False (roots m) m.heap (newInstance l) (Creates (roots m) m.heap (.instance_ ⟨l, .empty⟩)) := by
  refine creates_allocate hm.pictures hm.rooted (by simp [Body.kind]) ?_ ?_ ?_ _
  · intro link hl
    rcases List.mem_cons.mp hl with rfl | hl
    · exact hsafe
    · simp [Table.links, Table.empty] at hl
  · intro link hl
    rcases List.mem_cons.mp hl with rfl | hl
    · trivial
    · simp [Table.links, Table.empty] at hl
  · simp [Body.links, Table.links, Table.empty]

theorem follows_construct {v : Value} {l : Loc} {a : Nat} (hv : v ∈ m.values) (hn : m.heap.Names v l)
    (hw : w l = some (.object a)) (count : Nat) :
    Follows w m i (construct l count) (IdealM.construct a count) := by
  have hrest : Grows (do
      let c ← classAt l
      match (← get).initName.bind c.methods.get? with
      | some initializer =>
        let closure ← locOfValue initializer
        let _ ← closureAt closure
        call closure count
      | none => if count ≠ 0 then raise (.arity 0 count) : MachineM Unit) := by
    refine .bind fun _ => .bind fun _ => ?_
    split <;> infer_instance
  have hsafe := hm.safe_object hv hn
  have hcreate := hm.creates_instance hsafe
  unfold construct IdealM.construct
  refine Sim.act_heap_of_grows (delivers_value hcreate fun _ _ hc => hc.alive) (fun v' h' hv' => ?_)
    fun _ => .bind fun _ => .bind fun _ => hrest
  obtain ⟨k, hc, hk⟩ := hv'
  have hext := World.extends_put (hm.unplaced hc) (.object i.objects.length)
  have hm₁ := hm.create hc (.instance_ a .empty) (.instance_ (by simp) (hext _ _ hw) showsTable_empty)
  have ha₁ : h'.Alive l := hc.turns.alive hm.pictures hm.rooted (hsafe.reach l (.object l))
  refine Sim.spec_bind rfl ?_
  refine (sim_calleeSlot hm₁ count).bind_of_grows ?_ fun _ => .bind fun _ => hrest
  rintro s n m₂ i₂ ⟨rfl, rfl, rfl, -, -⟩
  refine (sim_writeSlot hm₁ n (v := v') (x := .object i.objects.length) ?_).bind_of_grows ?_ fun _ => hrest
  · exact ⟨k, hk, by simp [World.put]⟩
  · rintro _ _ m₃ i₃ ⟨hm₃, rfl, -, stack, rfl⟩
    exact Sim.widen ( follows_initialize hm₃ ha₁ (hext _ _ hw) count) hext

theorem follows_callValue {v : Value} {x : Val} (hv : v ∈ m.values) (hx : m.heap.Shows w v x)
    (count : Nat) : Follows w m i (callValue v count) (IdealM.callValue x count) := by
  have hplain (ho : v.isObject = false) : Follows w m i (callValue v count) (IdealM.raise .notCallable) := by
    unfold callValue
    rw [if_neg (by rw [ho]; simp)]
    exact sim_raise hm _
  cases x with
  | nil => exact hplain (by rw [show v = .nil from hx]; rfl)
  | bool b =>
    refine hplain ?_
    rw [show v = .ofBool b from hx]
    cases b <;> rfl
  | number bits => exact hplain (hx.2.isObject)
  | string chars =>
    obtain ⟨l, hash, hn, o, ho, -, hb⟩ := hx
    unfold callValue IdealM.callValue
    rw [if_pos hn.isObject]
    refine Sim.act_view hn.locOfValue (Sim.act_view (object_eq_ok.mpr ho) ?_)
    rw [hb]
    exact sim_raise hm _
  | object a =>
    obtain ⟨l, hn, hw⟩ := hx
    have ha := hn.alive hm.pictures.sound.consistent
    obtain ⟨o, ho, -, hd⟩ := hm.pictures.body ha hw
    unfold callValue IdealM.callValue
    rw [if_pos hn.isObject]
    refine Sim.act_view hn.locOfValue (Sim.act_view (object_eq_ok.mpr ho) (Sim.spec_get ?_))
    generalize hb : o.body = b at hd
    cases hd with
    | closure hobj =>
      rw [hobj]
      exact follows_call hm ha hw count
    | native hobj =>
      rw [hobj]
      exact follows_callNative hm _ count
    | class_ hobj =>
      rw [hobj]
      exact follows_construct hm hv hn hw count
    | instance_ hobj =>
      rw [hobj]
      exact sim_raise hm _
    | bound hobj hrec hmeth =>
      rw [hobj]
      obtain ⟨o', b', ho', hb', -, -, hka⟩ := hm.pictures.bound ha hw hobj
      rw [object_eq_ok.mpr ho] at ho'
      cases ho'
      rw [hb] at hb'
      cases hb'
      refine (sim_calleeSlot hm count).bind ?_
      rintro s n m i ⟨rfl, rfl, rfl, -, -⟩
      refine (sim_writeSlot hm n hrec).bind ?_
      rintro _ _ m₂ i₂ ⟨hm₂, rfl, -, stack, rfl⟩
      exact follows_call hm₂ hka hmeth count

theorem sim_findMethod {l : Loc} {k : Nat} {s : Symbol} (ha : m.heap.Alive l)
    (hw : w l = some (.object k)) (hs : m.heap.IsString s.loc s.chars s.hash) :
    Sim m i (findMethod l s) (IdealM.findMethod k s.chars) fun v a m' i' =>
      m' = m ∧ i' = i ∧ m.heap.Shows w v (.object a) := by
  unfold findMethod IdealM.findMethod
  refine Sim.spec_classAt fun name methods hx => ?_
  obtain ⟨c, hcl, hmeth⟩ := hm.method ha hw hx hs
  refine Sim.act_view hcl ?_
  dsimp only
  cases hi : methods s.chars with
  | some a =>
    rw [hi] at hmeth
    obtain ⟨v, hv, hshow⟩ := hmeth
    rw [hv]
    exact .pure ⟨rfl, rfl, hshow⟩
  | none =>
    rw [hi] at hmeth
    rw [hmeth]
    exact sim_raise hm _

theorem follows_invokeFromClass {l : Loc} {k : Nat} {s : Symbol} (ha : m.heap.Alive l)
    (hw : w l = some (.object k)) (hs : m.heap.IsString s.loc s.chars s.hash) (count : Nat) :
    Follows w m i (invokeFromClass l s count) (IdealM.invokeFromClass k s.chars count) := by
  unfold invokeFromClass IdealM.invokeFromClass
  refine (sim_findMethod hm ha hw hs).bind ?_
  rintro v a m i ⟨rfl, rfl, hx⟩
  exact follows_callMethod hm hx count

theorem sim_instanceOr (p : RuntimeProblem) {v : Value} {x : Val} (hx : m.heap.Shows w v x) :
    Sim m i (instanceOr p v) (IdealM.instanceOr p x) fun l y m' i' => m' = m ∧ i' = i ∧
      m.heap.Names v l ∧ w l = some (.object y.1) ∧
      i.objects[y.1]? = some (.instance_ y.2.1 y.2.2) := by
  have hkind := hm.pictures.ofKind hx .instance_
  have hraise (hk : (x.kind? i.objects == some .instance_) = false) :
      Sim m i (instanceOr p v) (IdealM.raise p : IdealM (Nat × Nat × Dict Val)) fun l y m' i' =>
        m' = m ∧ i' = i ∧ m.heap.Names v l ∧ w l = some (.object y.1) ∧
        i.objects[y.1]? = some (.instance_ y.2.1 y.2.2) := by
    unfold instanceOr
    refine Sim.act_view hkind ?_
    rw [hk, if_neg (by simp)]
    exact sim_raise hm p
  cases x with
  | nil => exact hraise rfl
  | bool b => exact hraise rfl
  | number bits => exact hraise rfl
  | string chars => exact hraise rfl
  | object a =>
    unfold IdealM.instanceOr
    refine Sim.spec_get ?_
    cases ho : i.objects[a]? with
    | none => exact hraise (by simp [Val.kind?, ho])
    | some y =>
      cases y with
      | instance_ k fields =>
        obtain ⟨l, hn, hw⟩ := hx
        unfold instanceOr
        refine Sim.act_view hkind ?_
        rw [if_pos (by simp [Val.kind?, ho, Obj.kind])]
        unfold Sim
        rw [MachineM.run_view, hn.locOfValue]
        exact .inr ⟨rfl, rfl, hn, hw, ho⟩
      | _ => exact hraise (by simp [Val.kind?, ho, Obj.kind])

omit hm in
theorem raise_bind (p : RuntimeProblem) (f : α → MachineM β) : (raise p >>= f) = raise p := by
  unfold raise
  simp only [bind_assoc]
  funext m
  rw [runBind, runBind]
  simp only [runBind]
  rfl

omit hm in
theorem instanceOr_bind (p : RuntimeProblem) (v : Value) (f : Loc → MachineM α) :
    (do
      let b ← ofKind v .instance_
      if b then do f (← locOfValue v)
      else do
        raise p
        f (← locOfValue v) : MachineM α) = instanceOr p v >>= f := by
  unfold instanceOr
  rw [bind_assoc]
  congr 1
  funext b
  cases b
  · simp only [Bool.false_eq_true, ↓reduceIte]
    rw [raise_bind, raise_bind]
  · rfl

theorem follows_invoke {s : Symbol} (hs : m.heap.IsString s.loc s.chars s.hash) (count : Nat) :
    Follows w m i (invoke s count) (IdealM.invoke s.chars count) := by
  have hgrow (i : Instance) : Grows (match i.fields.get? s with
      | some value => do
        writeSlot (← calleeSlot count) value
        callValue value count
      | none => invokeFromClass i.class_ s count : MachineM Unit) := by
    split <;> infer_instance
  unfold invoke IdealM.invoke
  dsimp only
  refine (sim_peek hm count).bind_of_grows ?_ fun v => ?_
  · rintro v x m i ⟨rfl, rfl, hx, -, -⟩
    rw [instanceOr_bind]
    refine (sim_instanceOr hm .methodOfOther hx).bind_of_grows ?_ fun l => .bind hgrow
    rintro l ⟨a, k, fields⟩ m i ⟨rfl, rfl, hn, hw, ho⟩
    obtain ⟨inst, hinst, hcw, hca, ht, -⟩ :=
      hm.pictures.instance_ (hn.alive hm.pictures.sound.consistent) hw ho
    refine Sim.act_view hinst ?_
    have hget := ht.get?_eq hm.pictures.sound hs
    dsimp only at hget ⊢
    cases hf : fields s.chars with
    | some y =>
      rw [hf] at hget
      obtain ⟨value, hval, hshow, -⟩ := hget
      rw [hval]
      refine (sim_calleeSlot hm count).bind ?_
      rintro s n m i ⟨rfl, rfl, rfl, hlen, hlt⟩
      refine (sim_writeSlot hm n hshow).bind ?_
      rintro _ _ m₂ i₂ ⟨hm₂, rfl, hmem, stack, rfl⟩
      exact follows_callValue hm₂ hmem hshow count
    | none =>
      rw [hf] at hget
      rw [hget]
      exact follows_invokeFromClass hm hca hcw hs count
  · rw [instanceOr_bind]
    exact .bind fun l => .bind hgrow

end

end Lox

import Lox.Proofs.Safety.Upvalues

namespace Lox

namespace Facts

variable {Γ : Facts} {objects : List (Obj Routine)} {k m : Nat} {name n : Bytes} {methods : Dict Nat} {v : Val}

def called (Γ : Facts) (v : Val) : Facts :=
  { Γ with firsts := v :: Γ.firsts }

def returned (Γ : Facts) : Facts :=
  { Γ with firsts := Γ.firsts.tail }

theorem extends_called (upvalues : Nat) : Γ.Extends (Γ.called v) objects upvalues :=
  ⟨fun _ _ => rfl, fun _ _ => rfl, fun _ _ => rfl, fun _ _ => rfl, fun _ _ => id, fun _ _ => Iff.rfl, rfl⟩

theorem extends_returned (upvalues : Nat) : Γ.Extends Γ.returned objects upvalues :=
  ⟨fun _ _ => rfl, fun _ _ => rfl, fun _ _ => rfl, fun _ _ => rfl, fun _ _ => id, fun _ _ => Iff.rfl, rfl⟩

theorem Genuine.closureAt (h : Γ.Genuine objects) (hk : objects[k]? = some (.class_ name methods))
    (hm : methods n = some m) : ClosureAt objects m := by
  obtain ⟨k', hk'⟩ := ((h.tables k name methods hk n m).mp hm).declared
  exact (h.owners k' n m hk').2.1

end Facts

namespace Ideal

def Called (Γ : Facts) (f : Activation) (rest : List Activation) (p : Prototype) (a : Sheet)
    (slots below : List Slot) (i : Ideal) : Prop :=
  i.Running Γ f rest p a ⟨{} :: slots, none⟩ below ∨ ∃ v c q b, i.Running (Γ.called v)
    ⟨c, 0, (slots ++ below).length⟩ (f :: rest) q b (Γ.listing c).entry (slots ++ below)

theorem values_calm {Γ : Facts} {c : Nat} {slots : List Slot} {vs : List Val} (hcalm : ∀ x ∈ slots, x.Calm)
    (hlength : slots.length = vs.length) : List.Forall₂ (fun s v => Γ.Holds c s.content v) slots vs :=
  List.forall₂_iff_get.mpr ⟨hlength, fun _ _ _ => Facts.holds_calm (hcalm _ (List.get_mem _ _))⟩

theorem Typed.enter {Γ : Facts} {i : Ideal} {c arity : Nat} {args rest : List Slot} {v : Val} {g : Activation}
    (h : i.Typed Γ c (args ++ rest)) (hfree : ∀ x ∈ args, x.held = false) (hcalm : ∀ x ∈ rest, x.Calm)
    (hargs : args.length = arity + 1) (hbase : g.base = rest.length) (hv : i.stack[rest.length]? = some v) :
    ({ i with frames := g :: i.frames } : Ideal).Typed (Γ.called v) g.closure
      (pushed arity ++ [(⟨.first, true⟩ : Slot)] ++ rest) := by
  have hfirst : (pushed arity ++ [(⟨.first, true⟩ : Slot)] ++ rest).reverse[rest.length]? = some ⟨.first, true⟩ := by
    simp
  have hlow {n : Nat} {y : Slot} (hy : (args ++ rest).reverse[n]? = some y) (hheld : y.held = true) :
      (pushed arity ++ [(⟨.first, true⟩ : Slot)] ++ rest).reverse[n]? = some y := by
    obtain ⟨hn, hy'⟩ := Typed.below_of_held hfree hy hheld
    rw [List.reverse_append, List.getElem?_append_left (by simpa using hn)]
    exact hy'
  refine { h with values := ?_, firsts := ?_, objects := ?_, genuine := ?_, held := ?_ }
  · refine values_calm (fun x hx => ?_) ?_
    · simp only [List.mem_append, List.mem_singleton] at hx
      rcases hx with (hx | rfl) | hx
      · rw [List.eq_of_mem_replicate hx]
        exact .inl rfl
      · exact .inr rfl
      · exact hcalm x hx
    · have := h.length_stack
      simp only [List.length_append, List.length_replicate, List.length_singleton, List.length_reverse] at this ⊢
      omega
  · refine .cons ⟨hbase ▸ hv, hbase ▸ hfirst⟩ (h.firsts.imp fun f w hf => ⟨hf.1, hlow hf.2 rfl⟩)
  · exact fun b o hb => (h.objects b o hb).extends hb (Γ.extends_called _) (.refl _) (Nat.le_refl _)
  · exact h.genuine.same rfl rfl rfl rfl rfl rfl
  · intro n u hu
    obtain ⟨y, hy, hheld, hrest⟩ := h.held n u hu
    exact ⟨y, hlow hy hheld, hheld, hrest⟩

namespace Running

open IdealM

variable {Γ : Facts} {i : Ideal} {f : Activation} {rest : List Activation} {p : Prototype} {a : Sheet} {s : Shape}
  {args slots below : List Slot} {count n k j : Nat} {name : Bytes} {c d : Content} {v : Val}

theorem callee_slot (h : i.Running Γ f rest p a ⟨args ++ slots, none⟩ below) (hargs : args.length = count + 1) :
    IdealM.calleeSlot count i = .ok (slots ++ below).length i := by
  have hlength := h.length_stack
  simp only [List.length_append] at hlength
  rw [h.calleeSlot (by simp only [List.length_append]; omega), List.length_append]
  congr 1
  omega

theorem plain (h : i.Running Γ f rest p a ⟨args ++ slots, none⟩ below) (hfree : ∀ x ∈ args, x.held = false) :
    i.Running Γ f rest p a ⟨pushed args.length ++ slots, none⟩ below := by
  refine h.retype (List.rel_append ?_ (forall₂_refl Slot.May.refl _))
  refine List.forall₂_iff_get.mpr ⟨by simp, fun n hn hn' => ?_⟩
  simp only [List.get_eq_getElem, List.getElem_replicate]
  exact Slot.may_of_free (hfree _ (List.getElem_mem hn)) _

theorem pushed_free {n : Nat} : ∀ x ∈ pushed n, x.held = false := by
  intro x hx
  rw [List.eq_of_mem_replicate hx]

theorem replace (h : i.Running Γ f rest p a ⟨args ++ slots, none⟩ below) (hargs : args.length = count + 1)
    (hfree : ∀ x ∈ args, x.held = false) (v : Val) :
    IdealM.writeSlot (slots ++ below).length v i = .ok () { i with stack := i.stack.set (slots ++ below).length v } ∧
      ({ i with stack := i.stack.set (slots ++ below).length v } : Ideal).Running Γ f rest p a
        ⟨pushed (count + 1) ++ slots, none⟩ below := by
  have hplain := h.plain hfree
  rw [hargs] at hplain
  have hsplit : pushed (count + 1) ++ slots ++ below = pushed count ++ ({} :: (slots ++ below)) := by
    rw [pushed, List.replicate_succ', List.append_assoc, List.append_assoc]
    rfl
  have hslot : (pushed (count + 1) ++ slots ++ below).reverse[(slots ++ below).length]? = some ⟨.any, false⟩ := by
    rw [hsplit]
    generalize slots ++ below = rest
    simp
  exact hplain.writeSlot hslot v

theorem call (h : i.Running Γ f rest p a ⟨args ++ slots, none⟩ below) (hargs : args.length = count + 1)
    (hfree : ∀ x ∈ args, x.held = false) (hcalm : ∀ x ∈ slots, x.Calm) (hfinished : Γ.unfinished = none)
    (hadmits : Admits (Sheet.shapeAt none a) f.ip ⟨{} :: slots, none⟩) (hk : ClosureAt i.objects k) :
    Safe i (IdealM.call k count) fun _ => Called Γ f rest p a slots below := by
  obtain ⟨q, r, hr, rfl⟩ := hk
  obtain ⟨hverified, hmade, -⟩ := h.typed.objects _ _ hr
  unfold IdealM.call
  refine .step (closureAt_eq hr) ?_
  by_cases harity : count ≠ r.prototype.arity
  · rw [if_pos harity]
    exact h.raise_bind _ _
  rw [if_neg harity]
  refine .step rfl (.step (h.callee_slot hargs) ?_)
  split
  · exact h.raise_bind _ _
  obtain ⟨hmarks, ⟨b, hlines, hfits⟩, -⟩ := hverified
  have hcertified : Certified (Γ.listing k) r.prototype b := ⟨hlines, hmarks, hfits, hmade⟩
  have hentry : args.length = (Γ.listing k).arity + 1 := by
    rw [hargs, hcertified.arity, not_ne_iff.mp harity]
  have hrest : ∀ x ∈ slots ++ below, x.Calm := by
    intro x hx
    rcases List.mem_append.mp hx with hx | hx
    · exact hcalm x hx
    · exact h.waiting.calm x hx
  have htyped : i.Typed Γ f.closure (args ++ (slots ++ below)) := by
    rw [← List.append_assoc]
    exact h.typed
  obtain ⟨v, hv⟩ : ∃ v, i.stack[(slots ++ below).length]? = some v := by
    have := htyped.length_stack
    rw [List.length_append] at this
    exact ⟨_, List.getElem?_eq_getElem (by omega)⟩
  have hslots : slots ≠ [] := by
    rintro rfl
    obtain ⟨w, -, hw⟩ := h.first
    have hfirsts := h.typed.firsts
    rw [h.frames] at hfirsts
    generalize Γ.firsts = firsts at hfirsts
    cases hfirsts with
    | cons hf _ =>
      rw [List.append_nil] at hf
      have := (Typed.below_of_held hfree hf.2 rfl).1
      rw [h.base] at this
      exact Nat.lt_irrefl _ this
  refine .inr ⟨v, k, r.prototype, b, ?_, ?_, ⟨⟨r, hr, rfl⟩, hcertified, ?_⟩, rfl, Nat.zero_le _,
    htyped.enter hfree hrest hentry rfl hv, h.declares⟩
  · show _ :: i.frames = _
    rw [h.frames]
  · exact .cons (h.knows.extends (Γ.extends_called i.upvalues.length) (.refl _)) hadmits hslots hcalm h.base
      (h.waiting.extends (Γ.extends_called i.upvalues.length) (.refl _))
  · show Γ.unfinished ≠ some k
    rw [hfinished]
    nofun

theorem ticked (h : i.Running Γ f rest p a s below) (clock : Clock) :
    ({ i with clock } : Ideal).Running Γ f rest p a s below :=
  { h with typed := { h.typed with } }

theorem callNative {g : Native} (h : i.Running Γ f rest p a ⟨args ++ slots, none⟩ below)
    (hargs : args.length = count + 1)
    (hfree : ∀ x ∈ args, x.held = false) (hg : g ∈ EmbedM.builtins) :
    Safe i (IdealM.callNative g count) fun _ => Called Γ f rest p a slots below := by
  have hresult : Safe i (host g.behaviour) fun _ i' => ∃ clock, i' = { i with clock } := by
    simp only [EmbedM.builtins, List.mem_cons, List.not_mem_nil, or_false] at hg
    rcases hg with rfl | rfl
    · exact ⟨i.clock.advance, rfl⟩
    · exact ⟨i.clock, rfl⟩
  have hdone (v : Val) (clock : Clock) : Safe { i with clock } (do
      let base ← IdealM.calleeSlot count
      modify fun i => { i with stack := i.stack.take base }
      IdealM.push v) fun _ => Called Γ f rest p a slots below := by
    have hticked := h.ticked clock
    refine .step (hticked.callee_slot hargs) (.step rfl ?_)
    have htyped : ({ i with clock } : Ideal).Typed Γ f.closure (args ++ (slots ++ below)) := by
      rw [← List.append_assoc]
      exact hticked.typed
    have hdrop : ({ i with clock, stack := i.stack.take (slots ++ below).length } : Ideal).Running Γ f rest p a
        ⟨slots, none⟩ below := { hticked with typed := htyped.drop args hfree }
    exact hdrop.safe_push (x := {}) trivial fun _ => .inl
  unfold IdealM.callNative
  split
  · rename_i arity _
    by_cases hne : count ≠ arity
    · simp only [if_pos hne]
      exact h.raise_bind _ _
    · simp only [if_neg hne]
      refine .bind hresult ?_
      rintro v i' ⟨clock, rfl⟩
      exact hdone v clock
  · refine .bind hresult ?_
    rintro v i' ⟨clock, rfl⟩
    exact hdone v clock

theorem create {o : Obj Routine} (h : i.Running Γ f rest p a s below)
    (ho : Γ.Vouches i.objects i.upvalues.length i.objects.length o)
    (hclass : ∀ name methods, o ≠ .class_ name methods) (hclosure : ∀ r, o ≠ .closure r) :
    ({ i with objects := i.objects ++ [o] } : Ideal).Running Γ f rest p a s below := by
  have hl := Obj.Later.append i.objects o
  refine h.later hl (fun k name methods hk => ?_) fun b o' hb => ?_
  · rw [List.getElem?_append] at hk
    split at hk
    · exact hk
    · rw [List.getElem?_singleton] at hk
      split at hk
      · exact absurd (Option.some.inj hk) (hclass name methods)
      · cases hk
  · rw [List.getElem?_append] at hb
    split at hb
    · exact .inl hb
    · rw [List.getElem?_singleton] at hb
      split at hb
      · cases hb
        right
        cases o with
        | class_ name methods => exact absurd rfl (hclass name methods)
        | closure r => exact absurd rfl (hclosure r)
        | native n => exact ho
        | instance_ k fields => exact hl.classAt ho
        | bound receiver m => exact hl.closureAt ho
      · cases hb

theorem construct (h : i.Running Γ f rest p a ⟨args ++ slots, none⟩ below) (hargs : args.length = count + 1)
    (hfree : ∀ x ∈ args, x.held = false) (hcalm : ∀ x ∈ slots, x.Calm) (hfinished : Γ.unfinished = none)
    (hadmits : Admits (Sheet.shapeAt none a) f.ip ⟨{} :: slots, none⟩) (hk : ClassAt i.objects k) :
    Safe i (IdealM.construct k count) fun _ => Called Γ f rest p a slots below := by
  obtain ⟨name, methods, hclass⟩ := hk
  have hcreated := h.create (o := .instance_ k .empty) ⟨name, methods, hclass⟩ nofun nofun
  obtain ⟨hwrite, hreplaced⟩ := hcreated.replace hargs hfree (.object i.objects.length)
  have hclass' : (i.objects ++ [Obj.instance_ k .empty])[k]? = some (Obj.class_ name methods) :=
    getElem?_append_of_some hclass _
  unfold IdealM.construct
  refine .step rfl (.step (hcreated.callee_slot hargs) (.step hwrite ?_))
  refine .step (classAt_eq hclass') ?_
  dsimp only
  split
  · rename_i m hm
    exact hreplaced.call (by simp) pushed_free hcalm hfinished hadmits
      (hreplaced.typed.genuine.closureAt hclass' hm)
  · by_cases hcount : count ≠ 0
    · rw [if_pos hcount]
      exact hreplaced.raise _
    · rw [if_neg hcount]
      obtain rfl := not_ne_iff.mp hcount
      exact .inl hreplaced

theorem callValue (h : i.Running Γ f rest p a ⟨args ++ slots, none⟩ below) (hargs : args.length = count + 1)
    (hfree : ∀ x ∈ args, x.held = false) (hcalm : ∀ x ∈ slots, x.Calm) (hfinished : Γ.unfinished = none)
    (hadmits : Admits (Sheet.shapeAt none a) f.ip ⟨{} :: slots, none⟩) (v : Val) :
    Safe i (IdealM.callValue v count) fun _ => Called Γ f rest p a slots below := by
  unfold IdealM.callValue
  cases v with
  | object k =>
    refine .step rfl ?_
    split
    · rename_i receiver method hk
      obtain ⟨hwrite, hreplaced⟩ := h.replace hargs hfree receiver
      exact .step (h.callee_slot hargs) (.step hwrite
        (hreplaced.call (by simp) pushed_free hcalm hfinished hadmits (h.typed.objects _ _ hk)))
    · rename_i hk
      exact h.construct hargs hfree hcalm hfinished hadmits ⟨_, _, hk⟩
    · rename_i hk
      exact h.call hargs hfree hcalm hfinished hadmits ⟨_, _, hk, rfl⟩
    · rename_i hk
      exact h.callNative hargs hfree (h.typed.objects _ _ hk)
    · exact h.raise _
  | _ => exact h.raise _

theorem findMethod (h : i.Running Γ f rest p a s below) (hk : ClassAt i.objects k) (name : Bytes) :
    Safe i (IdealM.findMethod k name) fun m i' => i' = i ∧ ClosureAt i.objects m := by
  obtain ⟨className, methods, hclass⟩ := hk
  unfold IdealM.findMethod
  refine .step (classAt_eq hclass) ?_
  dsimp only
  split
  · rename_i m hm
    exact ⟨rfl, h.typed.genuine.closureAt hclass hm⟩
  · exact h.raise _

theorem invokeFromClass (h : i.Running Γ f rest p a ⟨args ++ slots, none⟩ below) (hargs : args.length = count + 1)
    (hfree : ∀ x ∈ args, x.held = false) (hcalm : ∀ x ∈ slots, x.Calm) (hfinished : Γ.unfinished = none)
    (hadmits : Admits (Sheet.shapeAt none a) f.ip ⟨{} :: slots, none⟩) (hk : ClassAt i.objects k) (name : Bytes) :
    Safe i (IdealM.invokeFromClass k name count) fun _ => Called Γ f rest p a slots below := by
  refine .bind (h.findMethod hk name) ?_
  rintro m i' ⟨rfl, hm⟩
  exact h.call hargs hfree hcalm hfinished hadmits hm

theorem invoke (h : i.Running Γ f rest p a ⟨args ++ slots, none⟩ below) (hargs : args.length = count + 1)
    (hfree : ∀ x ∈ args, x.held = false) (hcalm : ∀ x ∈ slots, x.Calm) (hfinished : Γ.unfinished = none)
    (hadmits : Admits (Sheet.shapeAt none a) f.ip ⟨{} :: slots, none⟩) (name : Bytes) :
    Safe i (IdealM.invoke name count) fun _ => Called Γ f rest p a slots below := by
  have hlt : count < (args ++ slots).length := by
    rw [List.length_append]
    omega
  obtain ⟨v, hpeek, -, -⟩ := h.peek (List.getElem?_eq_getElem hlt)
  unfold IdealM.invoke
  refine .step hpeek (.bind (h.instanceOr _ v) ?_)
  rintro ⟨m, class_, fields⟩ i' ⟨rfl, -, -, hclass⟩
  dsimp only
  split
  · rename_i value _
    obtain ⟨hwrite, hreplaced⟩ := h.replace hargs hfree value
    exact .step (h.callee_slot hargs) (.step hwrite
      (hreplaced.callValue (by simp) pushed_free hcalm hfinished hadmits value))
  · exact h.invokeFromClass hargs hfree hcalm hfinished hadmits hclass name

theorem bindMethod (h : i.Running Γ f rest p a ⟨⟨c, false⟩ :: slots, none⟩ below) (hk : ClassAt i.objects k)
    (name : Bytes) : Safe i (IdealM.bindMethod k name) fun _ i' =>
      i'.Running Γ f rest p a ⟨{} :: slots, none⟩ below := by
  unfold IdealM.bindMethod
  refine .bind (h.findMethod hk name) ?_
  rintro m i' ⟨rfl, q, r, hr, hq⟩
  obtain ⟨v, hpeek, -, -⟩ := h.peek (d := 0) rfl
  have hcreated := h.create (o := .bound v m) ⟨q, r, hr, hq⟩ nofun nofun
  obtain ⟨w, hpop, -, -, hpopped⟩ := hcreated.pop rfl
  exact .step hpeek (.step (closureAt_eq hr) (.step rfl (.step hpop
    (hpopped.safe_push (x := {}) trivial fun _ => id))))

theorem getProperty (h : i.Running Γ f rest p a ⟨⟨c, false⟩ :: slots, none⟩ below)
    (hk : (Γ.listing f.closure).signature.Names k name) (hlt : k < 256)
    (hb : p.Ahead f.ip (Operand.byte k).bytes) : Safe i IdealM.getProperty fun _ i' =>
      i'.Running Γ { f with ip := f.ip + 1 } rest p a ⟨{} :: slots, none⟩ below := by
  obtain ⟨v, hpeek, -, -⟩ := h.peek (d := 0) rfl
  unfold IdealM.getProperty
  refine .step hpeek (.bind (h.instanceOr _ v) ?_)
  rintro ⟨m, class_, fields⟩ i' ⟨rfl, -, -, hclass⟩
  obtain ⟨hread, hrunning⟩ := h.readName hk hlt hb
  refine .step hread ?_
  split
  · obtain ⟨w, hpop, -, -, hpopped⟩ := hrunning.pop rfl
    exact .step hpop (hpopped.safe_push (x := {}) trivial fun _ => id)
  · exact hrunning.bindMethod hclass name

theorem popParent (h : i.Running Γ f rest p a ⟨⟨.parent, false⟩ :: slots, none⟩ below) : ∃ k home,
    IdealM.popClass i = .ok k { i with stack := i.stack.dropLast } ∧ i.stack.reverse[0]? = some (.object k) ∧
      Γ.home f.closure = some home ∧ Γ.lineage.parent home = some k ∧ ClassAt i.objects k ∧
      ({ i with stack := i.stack.dropLast } : Ideal).Running Γ f rest p a ⟨slots, none⟩ below := by
  obtain ⟨v, hpop, hv, ⟨home, k, rfl, hhome, hparent⟩, hpopped⟩ := h.pop rfl
  have hclass := (h.typed.genuine.parents home k hparent).2.1
  refine ⟨k, home, ?_, hv, hhome, hparent, hclass, hpopped⟩
  unfold IdealM.popClass
  rw [runBind, hpop]
  exact asClass_eq hclass

theorem getSuper (h : i.Running Γ f rest p a ⟨⟨.parent, false⟩ :: ⟨c, false⟩ :: slots, none⟩ below)
    (hk : (Γ.listing f.closure).signature.Names k name) (hlt : k < 256)
    (hb : p.Ahead f.ip (Operand.byte k).bytes) : Safe i IdealM.getSuper fun _ i' =>
      i'.Running Γ { f with ip := f.ip + 1 } rest p a ⟨{} :: slots, none⟩ below := by
  obtain ⟨hread, hrunning⟩ := h.readName hk hlt hb
  obtain ⟨k', home, hpop, -, -, -, hclass, hpopped⟩ := hrunning.popParent
  exact .step hread (.step hpop (hpopped.bindMethod hclass name))

theorem callTop (h : i.Running Γ f rest p a ⟨args ++ slots, none⟩ below) (hargs : args.length = count + 1)
    (hfree : ∀ x ∈ args, x.held = false) (hcalm : ∀ x ∈ slots, x.Calm) (hfinished : Γ.unfinished = none)
    (hlt : count < 256) (hb : p.Ahead f.ip (Operand.byte count).bytes)
    (hadmits : Admits (Sheet.shapeAt none a) (f.ip + 1) ⟨{} :: slots, none⟩) :
    Safe i IdealM.callTop fun _ => Called Γ { f with ip := f.ip + 1 } rest p a slots below := by
  obtain ⟨hread, hnat, hrunning⟩ := h.readOperand hlt hb
  have hlt' : count < (args ++ slots).length := by
    rw [List.length_append]
    omega
  obtain ⟨v, hpeek, -, -⟩ := hrunning.peek (List.getElem?_eq_getElem hlt')
  unfold IdealM.callTop
  refine .step hread ?_
  rw [hnat]
  exact .step hpeek (hrunning.callValue hargs hfree hcalm hfinished hadmits v)

theorem readNamed (h : i.Running Γ f rest p a s below) (hk : (Γ.listing f.closure).signature.Names k name)
    (hk' : k < 256)
    (hlt : count < 256) (hb : p.Ahead f.ip (Operand.pair k count).bytes) :
    IdealM.readName i = .ok name (i.moved (f.ip + 1)) ∧
      IdealM.readByte (i.moved (f.ip + 1)) = .ok count.toUInt8 (i.moved (f.ip + 2)) ∧ count.toUInt8.toNat = count ∧
      (i.moved (f.ip + 2)).Running Γ { f with ip := f.ip + 2 } rest p a s below := by
  obtain ⟨hread, hrunning₁⟩ := h.readName hk hk' hb
  obtain ⟨hread', hnat, hrunning₂⟩ := hrunning₁.readOperand hlt hb.tail
  rw [Ideal.moved_moved] at hread' hrunning₂
  exact ⟨hread, hread', hnat, hrunning₂⟩

theorem invokeTop (h : i.Running Γ f rest p a ⟨args ++ slots, none⟩ below) (hargs : args.length = count + 1)
    (hfree : ∀ x ∈ args, x.held = false) (hcalm : ∀ x ∈ slots, x.Calm) (hfinished : Γ.unfinished = none)
    (hk : (Γ.listing f.closure).signature.Names k name) (hk' : k < 256) (hlt : count < 256)
    (hb : p.Ahead f.ip (Operand.pair k count).bytes)
    (hadmits : Admits (Sheet.shapeAt none a) (f.ip + 2) ⟨{} :: slots, none⟩) :
    Safe i IdealM.invokeTop fun _ => Called Γ { f with ip := f.ip + 2 } rest p a slots below := by
  obtain ⟨hread, hread', hnat, hrunning⟩ := h.readNamed hk hk' hlt hb
  unfold IdealM.invokeTop
  refine .step hread (.step hread' ?_)
  rw [hnat]
  exact hrunning.invoke hargs hfree hcalm hfinished hadmits name

theorem superInvoke (h : i.Running Γ f rest p a ⟨⟨.parent, false⟩ :: args ++ slots, none⟩ below)
    (hargs : args.length = count + 1) (hfree : ∀ x ∈ args, x.held = false) (hcalm : ∀ x ∈ slots, x.Calm)
    (hfinished : Γ.unfinished = none) (hk : (Γ.listing f.closure).signature.Names k name) (hk' : k < 256)
    (hlt : count < 256) (hb : p.Ahead f.ip (Operand.pair k count).bytes)
    (hadmits : Admits (Sheet.shapeAt none a) (f.ip + 2) ⟨{} :: slots, none⟩) :
    Safe i IdealM.superInvoke fun _ => Called Γ { f with ip := f.ip + 2 } rest p a slots below := by
  obtain ⟨hread, hread', hnat, hrunning⟩ := h.readNamed hk hk' hlt hb
  obtain ⟨k', home, hpop, -, -, -, hclass, hpopped⟩ := hrunning.popParent
  unfold IdealM.superInvoke
  refine .step hread (.step hread' (.step hpop ?_))
  rw [hnat]
  exact hpopped.invokeFromClass hargs hfree hcalm hfinished hadmits hclass name

end Running

theorem Typed.leave {Γ : Facts} {i : Ideal} {c : Nat} {slots below : List Slot} {f : Activation}
    {rest : List Activation} (h : i.Typed Γ c (slots ++ below)) (hframes : i.frames = f :: rest)
    (hlow : ∀ w ∈ i.openUpvalues, w.1 < below.length) (hbase : ∀ g ∈ rest, g.base < below.length)
    (hcalm : ∀ x ∈ below, x.Calm) (c' : Nat) :
    ({ i with stack := i.stack.take below.length, frames := rest } : Ideal).Typed Γ.returned c' below := by
  have hslot {n : Nat} (hn : n < below.length) : (slots ++ below).reverse[n]? = below.reverse[n]? := by
    rw [List.reverse_append, List.getElem?_append_left (by rwa [List.length_reverse])]
  have hlength := h.length_stack
  rw [List.length_append] at hlength
  refine { h with values := ?_, firsts := ?_, objects := ?_, genuine := ?_, held := ?_ }
  · refine values_calm hcalm ?_
    rw [List.length_reverse, List.length_take]
    omega
  · have hfirsts := h.firsts
    rw [hframes] at hfirsts
    show List.Forall₂ _ rest Γ.firsts.tail
    generalize Γ.firsts = firsts at hfirsts
    cases hfirsts with
    | cons _ hrest =>
      refine List.forall₂_iff_zip.mpr ⟨hrest.length_eq, fun {g v} hgv => ?_⟩
      obtain ⟨hv, hfirst⟩ := (List.forall₂_iff_zip.mp hrest).2 hgv
      have hlt := hbase g (List.of_mem_zip hgv).1
      exact ⟨(List.getElem?_take_of_lt hlt).trans hv, (hslot hlt).symm.trans hfirst⟩
  · exact fun b o hb => (h.objects b o hb).extends hb (Γ.extends_returned _) (.refl _) (Nat.le_refl _)
  · exact h.genuine.same rfl rfl rfl rfl rfl rfl
  · intro n u hu
    obtain ⟨y, hy, hheld, hmark, hsuper⟩ := h.held n u hu
    have hlt := hlow _ hu
    refine ⟨y, (hslot hlt).symm.trans hy, hheld, hmark, fun hs => ?_⟩
    exact (List.getElem?_take_of_lt hlt).trans (hsuper hs)

def Returned (Γ : Facts) (rest : List Activation) (v : Val) (more : Bool) (i : Ideal) : Prop :=
  (more = false ∧ rest = [] ∧ i.frames = [] ∧ i.openUpvalues = []) ∨
    (more = true ∧ ∃ g rest' q b slots below, rest = g :: rest' ∧
      i.Running Γ.returned g rest' q b ⟨{} :: slots, none⟩ below ∧ i.stack.reverse[0]? = some v ∧
      Admits (Sheet.shapeAt none b) g.ip ⟨{} :: slots, none⟩)

namespace Running

open IdealM

variable {Γ : Facts} {i : Ideal} {f : Activation} {rest : List Activation} {p : Prototype} {a : Sheet}
  {slots below : List Slot} {c : Content} {x : Slot}

theorem pop_of_idle (hframes : i.frames = []) (hstack : 0 < i.stack.length) :
    ∃ v, IdealM.pop i = .ok v { i with stack := i.stack.dropLast } := by
  have hget := List.getElem?_eq_getElem (show i.stack.length - 1 - 0 < i.stack.length by omega)
  refine ⟨i.stack[i.stack.length - 1 - 0], ?_⟩
  unfold IdealM.pop
  rw [runBind, peek_eq, show i.floor = 0 by rw [Ideal.floor, hframes], if_pos (by omega), hget]
  rfl

theorem leave (h : i.Running Γ f rest p a ⟨⟨c, false⟩ :: x :: slots, none⟩ below) :
    ∃ v, i.stack.reverse[0]? = some v ∧ Γ.Holds f.closure c v ∧ Safe i IdealM.leave (Returned Γ rest v) := by
  obtain ⟨v, hpop, hv, hholds, h₁⟩ := h.pop rfl
  refine ⟨v, hv, hholds, ?_⟩
  obtain ⟨upvalues, opened, hclose, h₂, hlow⟩ := h₁.closeUpvalues f.base
  have hlength : i.stack.dropLast.length = (x :: slots).length + below.length := h₁.length_stack
  have htail : i.frames.tail = rest := by
    rw [h.frames]
    rfl
  rw [h.base] at hlow
  unfold IdealM.leave
  refine .step (frame_eq h.frames) (.step hpop (.step hclose (.step rfl (.step rfl ?_))))
  have hwaiting := h.waiting
  cases hwaiting with
  | nil =>
    rw [if_pos (show i.frames.tail.isEmpty = true by rw [htail]; rfl)]
    have hpos : 0 < i.stack.dropLast.length := by
      rw [hlength, List.length_cons]
      omega
    let i₃ : Ideal :=
      { i with stack := i.stack.dropLast, upvalues, openUpvalues := opened, frames := i.frames.tail }
    obtain ⟨w, hlast⟩ := pop_of_idle (i := i₃) htail hpos
    exact .step hlast (.inl ⟨rfl, rfl, htail,
      List.eq_nil_iff_forall_not_mem.mpr fun w hw => absurd (hlow w hw) (Nat.not_lt_zero _)⟩)
  | @cons g rest slots' below' q b hknows hadmits hslots hcalm hbase hwaiting =>
    rw [if_neg (show ¬i.frames.tail.isEmpty = true by rw [htail]; nofun)]
    refine .step rfl ?_
    rw [if_neg (show ¬i.stack.dropLast.length < f.base by rw [hlength, h.base]; omega)]
    have hcalm' : ∀ y ∈ slots' ++ below', y.Calm := by
      intro y hy
      rcases List.mem_append.mp hy with hy | hy
      · exact hcalm y hy
      · exact hwaiting.calm y hy
    have hbases : ∀ g' ∈ g :: rest, g'.base < (slots' ++ below').length :=
      (Facts.Waiting.cons hknows hadmits hslots hcalm hbase hwaiting).base_lt
    have htyped := Typed.leave (f := f) (i := { i with stack := i.stack.dropLast, upvalues, openUpvalues := opened })
      h₂.typed h.frames hlow hbases hcalm' g.closure
    let i₃ : Ideal :=
      { i with stack := i.stack.dropLast.take f.base, upvalues, openUpvalues := opened, frames := i.frames.tail }
    have hwait : i₃.Running Γ.returned g rest q b ⟨slots', none⟩ below' := by
      simp only [i₃, htail, h.base]
      refine ⟨rfl, hwaiting.extends (Γ.extends_returned i.upvalues.length) (.refl _),
        hknows.extends (Γ.extends_returned i.upvalues.length) (.refl _), hbase, ?_, htyped, h.declares⟩
      obtain ⟨-, hlt, -⟩ := hknows.certified.admitted hadmits
      exact Nat.le_of_lt hlt
    exact .step rfl (.inr ⟨rfl, g, rest, q, b, slots', below', rfl, hwait.push (x := {}) trivial, by simp, hadmits⟩)

end Running

end Ideal

end Lox

import Lox.Proofs.Safety.Chronicle
import Lox.Proofs.Safety.Tracks

namespace Lox

open Heap HeapView

namespace IdealM.Brings

variable {i : Ideal} {n a j : Nat}

theorem captureUpvalue_keeps : Brings i (captureUpvalue n) fun _ i' => i'.stack = i.stack ∧ i'.calls = i.calls := by
  refine get ?_
  split
  · exact pure ⟨rfl, rfl⟩
  · rintro _ _ ⟨⟩
    exact ⟨rfl, rfl⟩

theorem fillCaptures_keeps (left : Nat) :
    Brings i (fillCaptures a j left) fun _ i' => i'.stack = i.stack ∧ i'.calls = i.calls := by
  induction left generalizing i j with
  | zero => exact pure ⟨rfl, rfl⟩
  | succ left ih =>
    have hrest {u : Nat} {i' : Ideal} (hi : i'.stack = i.stack ∧ i'.calls = i.calls) : Brings i' (do
        let c ← IdealM.closureAt a
        setObject a (.closure { c with captures := c.captures.set j (some u) })
        fillCaptures a (j + 1) left) fun _ i'' => i''.stack = i.stack ∧ i''.calls = i.calls := by
      refine closureAt.bind ?_
      rintro c _ ⟨rfl, -⟩
      exact .step rfl (ih.imp fun _ _ h => ⟨h.1.trans hi.1, h.2.trans hi.2⟩)
    unfold fillCaptures
    refine readByte.bind ?_
    rintro b _ ⟨f, r, -, -, -, rfl⟩
    refine readByte.bind ?_
    rintro c _ ⟨g, r, -, -, -, rfl⟩
    refine frame.bind ?_
    rintro g' _ ⟨rfl, -⟩
    have hmoved : ((i.moved (f.ip + 1)).moved (g.ip + 1)).calls = i.calls :=
      (Ideal.calls_moved _).trans (Ideal.calls_moved _)
    dsimp only
    split
    · exact captureUpvalue_keeps.bind fun _ _ h => hrest ⟨h.1, h.2.trans hmoved⟩
    · refine closureAt.bind ?_
      rintro r _ ⟨rfl, -⟩
      refine bind (M := fun _ i' => i' = (i.moved (f.ip + 1)).moved (g.ip + 1)) (ofOption fun _ _ => rfl) ?_
      rintro o _ rfl
      refine bind (M := fun _ i' => i' = (i.moved (f.ip + 1)).moved (g.ip + 1)) (ofOption fun _ _ => rfl) ?_
      rintro u _ rfl
      exact hrest ⟨rfl, hmoved⟩

theorem makeClosure_keeps : Brings i makeClosure fun _ i' =>
    i'.stack = i.stack ++ [.object i.objects.length] ∧ i'.calls = i.calls := by
  unfold makeClosure
  refine readConstant.bind ?_
  rintro c _ ⟨ip, rfl⟩
  cases c with
  | function p =>
    dsimp only
    split
    · exact stop.bind (M := fun _ _ => False) fun _ _ => False.elim
    · exact .step rfl (.step rfl ((fillCaptures_keeps _).imp fun _ _ h => ⟨h.1, h.2.trans (Ideal.calls_moved ip)⟩))
  | _ => exact stop

end IdealM.Brings

namespace Ideal

open IdealM

variable {Γ : Facts} {L : Ledger} {now : Nat} {w w' : World} {vs : List Sight} {own : Nat → Variable} {i i' : Ideal}
  {f : Activation} {rest : List Activation} {p : Prototype} {a : Sheet} {s t : Shape} {below : List Slot}
  {op : Opcode} {operand : Operand} {k : Nat} {g : Listing Item} {maker l : Loc}

theorem Typed.sheds {c : Nat} {slots : List Slot} (h : i.Typed Γ c slots) (hupvalues : i'.upvalues = i.upvalues)
    (hclosures : ∀ (a : Nat) r, i'.objects[a]? = some (.closure r) ↔ i.objects[a]? = some (.closure r))
    {news : List Val} (hstack : i'.stack = i.stack ++ news) : i.Sheds i.stack.length i' where
  low_le := Nat.le_refl _
  low_le' := by rw [hstack, List.length_append]; omega
  stack := by rw [hstack, List.take_left, List.take_length]
  upvalues := by
    rw [hupvalues, h.map_shut fun v hv => ?_]
    obtain ⟨y, hy, -⟩ := h.held v.1 v.2 hv
    have hlt := (List.getElem?_eq_some_iff.mp hy).1
    rwa [List.length_reverse, ← h.length_stack] at hlt
  closures := hclosures

theorem Running.makeClosure_tracks (h : i.Running Γ f rest p a s below)
    (hk : (Γ.listing f.closure).constants[k]? = some (.function g)) (hlt : k < 256)
    (hfits : ∀ o ∈ g.origins, o.index < 256) (hb : p.Ahead f.ip (Operand.closure k g.origins).bytes)
    (hlocal : ∀ o ∈ g.origins, o.isLocal = true → o.index < s.slots.length + 1) (hL : L.Tracks now w i own none)
    (hw : w.Extends w') (hinj : ∀ l k a, w' l = some (.object a) → w' k = some (.object a) → l = k)
    (hmaker : w' maker = some (.object f.closure)) (hl : w' l = some (.object i.objects.length))
    (hlength : vs.length = i.stack.length + 1) (htop : vs[i.stack.length]? = some (.object l)) :
    Brings i IdealM.makeClosure fun _ i' => ∃ own' ys,
      ((L.fill (now + 1) i.stack.length vs).capture l ys).Tracks (now + 1) w' i' own' none ∧
      List.Forall₂ (fun o y => (L.fill (now + 1) i.stack.length vs).variableOf maker f.base o.isLocal o.index = some y)
        g.origins ys ∧
      ∃ r, i'.objects[i.objects.length]? = some (.closure r) ∧ r.captures.length = g.origins.length := by
  obtain ⟨lit, hread, hmade, hrunning⟩ := h.readConstant hk hlt hb
  have hold : f.closure < i.objects.length := h.knows.closure.lt
  cases hmade with
  | @function _ q _ _ hcaptures _ _ _ _ _ =>
    unfold IdealM.makeClosure
    refine .step hread ?_
    dsimp only
    split
    · exact Brings.stop.bind (M := fun _ _ => False) fun _ _ => False.elim
    · refine .step rfl (.step rfl ?_)
      have hsheds : i.Sheds i.stack.length { i with stack := i.stack ++ [Val.object i.objects.length] } :=
        h.typed.sheds rfl (fun _ _ => Iff.rfl) rfl
      have hcount : vs.length = (i.stack ++ [Val.object i.objects.length]).length := by simp [hlength]
      have hfill := hL.fill hsheds hw hinj hcount fun n v hn hv => by
        rcases getElem?_snoc hv with hv | ⟨rfl, rfl⟩
        · exact absurd (List.getElem?_eq_some_iff.mp hv).1 (Nat.not_lt.mpr hn)
        · exact ⟨_, htop, .object hl⟩
      have hmakes := hfill.makes hl ⟨q, List.replicate q.captures none⟩
      have hmoved : (L.fill (now + 1) i.stack.length vs).Tracks (now + 1) w' { i.moved (f.ip + 1) with
          objects := i.objects ++ [Obj.closure ⟨q, List.replicate q.captures none⟩]
          stack := i.stack ++ [Val.object i.objects.length] } own (some i.objects.length) := hmakes.same rfl rfl rfl
      have hcode : CodeAt (i.objects ++ [Obj.closure ⟨q, List.replicate q.captures none⟩]) f.closure p := by
        obtain ⟨r, hr, hcode⟩ := h.knows.closure
        exact ⟨r, getElem?_append_of_some hr _, hcode⟩
      have hslots : (L.fill (now + 1) i.stack.length vs).slots.length = i.stack.length + 1 := by
        rw [hfill.length, List.length_append]
        rfl
      have hb' : p.Ahead (f.ip + 1) ((g.origins.flatMap fun o => [if o.isLocal then 1 else 0, o.index.toUInt8]) ++
          []) := by
        rw [List.append_nil]
        exact hb.tail
      have hfilled := hmoved.fillCaptures (j := 0) h.typed.listed hrunning.frames (Nat.ne_of_lt hold)
        List.getElem?_concat_length hcode hmaker hb' hfits (fun o ho hisLocal => by
          have := hlocal o ho hisLocal
          rw [hslots, h.length_stack, h.base]
          omega) (by simp [hcaptures]) .nil
      rw [← hcaptures] at hfilled
      refine hfilled.imp ?_
      rintro _ i' ⟨own', ys, r, htracks, hr, -, hcaptured, hys⟩
      exact ⟨own', ys, htracks.finish hl hinj hr hcaptured, hys, r, hr, hcaptured.length_eq.symm.trans
          hys.length_eq.symm⟩

theorem Facing.makeClosure (h : i.Facing Γ f rest p a s t below .closure operand) : ∃ k g,
    operand = .closure k g.origins ∧ (Γ.listing f.closure).constants[k]? = some (.function g) ∧
      ∀ o ∈ g.origins, o.isLocal = true → o.index < t.slots.length + 1 := by
  have hlocal {γ : Signature} {u : Shape} {origins : List Origin} {marks : List Mark}
      (hprovides : List.Forall₂ (γ.Provides u) origins marks) : ∀ o ∈ origins, o.isLocal = true →
      o.index < u.slots.length := by
    intro o ho hisLocal
    obtain ⟨mark, -, hp⟩ := forall₂_mem_left hprovides ho
    have hvariable := hp.variable_
    rw [if_pos hisLocal] at hvariable
    obtain ⟨x, hx, -⟩ := hvariable
    have := (List.getElem?_eq_some_iff.mp hx).1
    rwa [List.length_reverse] at this
  obtain ⟨next, hgoes, -⟩ := h.goes
  cases hgoes with
  | effect he =>
    cases he with
    | closure hk hprovides => exact ⟨_, _, rfl, hk, hlocal hprovides⟩
    | body hk _ hprovides => exact ⟨_, _, rfl, hk, hlocal hprovides⟩
    | literal hop | unary hop | binary hop => simp at hop

end Ideal

namespace Mirrors

variable {w w' : World} {m m' : Machine} {i i' : Ideal} {f : Activation} {rest : List Activation} {g : Frame}
  {p : Prototype} {op : Opcode} {name : Option Bytes} {L : Ledger} {n : Nat} {v : Val}

theorem sights (hm : Mirrors w m i) : List.Forall₂ (Sight.Of w) m.sights i.stack := by
  rw [Machine.sights, List.forall₂_map_left_iff]
  exact hm.stack.imp fun _ _ => hm.pictures.sight

theorem operand? (hm : Mirrors w m i) (hf : i.frames = f :: rest) (hp : CodeAt i.objects f.closure p) (n : Nat) :
    m.operand? n = p.code[f.ip + n]?.map UInt8.toNat := by
  obtain ⟨g, gs, fn, -, hsame, hrunning, hshows⟩ := hm.running? hf hp
  simp only [Machine.operand?, hrunning, Option.bind_eq_bind, Option.bind_some, Growable.get?_eq, hshows.code, hsame.ip]
  cases p.code[f.ip + n]? <;> rfl

theorem faces {Γ : Facts} {a : Sheet} {s t : Shape} {below : List Slot} {operand : Operand} (hm : Mirrors w m i)
    (hfacing : i.Facing Γ f rest p a s t below op operand) : ∃ g, m.instr? = some (op, p.nameAt (f.ip + 1)) ∧
      m.calls.frames.head? = some g ∧ SameCall w m.heap g f := by
  have hrunning := hfacing.running
  obtain ⟨g, gs, hg, hsame, -⟩ := hm.frame hrunning.frames
  refine ⟨g, (hm.instr? hrunning.frames hrunning.knows.closure).trans hfacing.instr?, ?_, hsame⟩
  rw [hg]
  rfl

theorem named? (hg : m.calls.frames.head? = some g) (hsame : SameCall w m.heap g f) (isLocal : Bool) (index : Nat) :
    L.named? m isLocal index = L.variableOf g.closure f.base isLocal index := by
  simp only [Ledger.named?, hg, Option.bind_eq_bind, Option.bind_some, hsame.base, Int.toNat_natCast]

theorem filledFrom (hm : Mirrors w m i) (hm' : Mirrors w' m' i') (hinstr : m.instr? = some (op, name)) :
    m.filledFrom m' = i.filledFrom op i' := by
  have hhead : (m'.calls.frames.head?.map (·.base.toNat)).getD 0 = (i'.frames.head?.map (·.base)).getD 0 := by
    have hframes := hm'.frames
    generalize m'.calls.frames = gs at hframes ⊢
    generalize i'.frames = fs at hframes ⊢
    cases hframes with
    | nil => rfl
    | cons h _ => simp [h.base]
  simp only [Machine.filledFrom, Ideal.filledFrom, Machine.depth, hm.frames.length_eq, hm'.frames.length_eq, hhead,
      hinstr,
    Option.any_some, hm'.sp_eq]

theorem filledFrom_same (hm : Mirrors w m i) (hm' : Mirrors w' m' i') (hinstr : m.instr? = some (op, name))
    (hcalls : i'.calls = i.calls) :
    m.filledFrom m' = if op.fills then i'.stack.length - 1 else i'.stack.length := by
  rw [hm.filledFrom hm' hinstr, Ideal.filledFrom, ← Ideal.length_calls, ← Ideal.length_calls, hcalls]
  exact if_neg (Nat.lt_irrefl _)

theorem captures? (hm : Mirrors w m i) (hf : i.frames = f :: rest) (hp : CodeAt i.objects f.closure p)
    (hg : m.calls.frames.head? = some g) (hsame : SameCall w m.heap g f) {origins : List Origin} {ys : List Variable}
    {bytes : List UInt8} {offset : Nat} (hfits : ∀ o ∈ origins, o.index < 256)
    (hb : p.Ahead (f.ip + offset) ((origins.flatMap fun o => [if o.isLocal then 1 else 0, o.index.toUInt8]) ++ bytes))
    (hys : List.Forall₂ (fun o y => L.variableOf g.closure f.base o.isLocal o.index = some y) origins ys) :
    L.captures? m offset origins.length = some ys := by
  induction hys generalizing offset with
  | nil => rfl
  | @cons o y origins ys hy _ ih =>
    rw [List.forall_mem_cons] at hfits
    have hnat : o.index.toUInt8.toNat = o.index := by
      rw [Nat.toUInt8_eq, UInt8.toNat_ofNat', Nat.mod_eq_of_lt hfits.1]
    have hflag : ((if o.isLocal = true then (1 : UInt8) else 0).toNat == 1) = o.isLocal := by
      cases o.isLocal <;> rfl
    have hread : m.operand? offset = some (if o.isLocal = true then (1 : UInt8) else 0).toNat := by
      rw [hm.operand? hf hp, hb.head]
      rfl
    have hread' : m.operand? (offset + 1) = some o.index := by
      rw [hm.operand? hf hp, ← Nat.add_assoc, hb.tail.head, Option.map_some, hnat]
    have hrest : L.captures? m (offset + 2) origins.length = some ys :=
      ih hfits.2 (show p.Ahead (f.ip + offset + 1 + 1) _ from hb.tail.tail)
    simp only [List.length_cons, Ledger.captures?, hread, hread', Option.bind_eq_bind, Option.bind_some, hflag,
      named? hg hsame, hy, hrest]
    rfl

theorem top_sight (hm : Mirrors w m i) (hv : i.stack.reverse[0]? = some v) : ∃ s, m.sights.getLast? = some s ∧
    s.Of w v := by
  obtain ⟨s, hs, hof⟩ := forall₂_getElem? (List.forall₂_reverse_iff.mpr hm.sights) hv
  rw [← List.head?_eq_getElem?, List.head?_reverse] at hs
  exact ⟨s, hs, hof⟩

end Mirrors

namespace Ledger.Tracks

variable {Γ : Facts} {L : Ledger} {now : Nat} {w w' : World} {vs : List Sight} {own : Nat → Variable} {m m' : Machine}
  {i i' : Ideal} {f : Activation} {rest : List Activation} {p : Prototype} {a : Sheet} {s t : Shape} {below : List Slot}
  {op : Opcode} {operand : Operand}

theorem refill {c : Nat} {slots : List Slot} (h : L.Tracks now w i own none) (htyped : i.Typed Γ c slots)
    (hw : w.Extends w') (hinj : ∀ l k a, w' l = some (.object a) → w' k = some (.object a) → l = k)
    (hlength : vs.length = i.stack.length) :
    (L.fill (now + 1) i.stack.length vs).Tracks (now + 1) w' i own none := by
  refine h.fill (htyped.sheds rfl (fun _ _ => Iff.rfl) (List.append_nil _).symm) hw hinj hlength fun n v hn hv => ?_
  exact absurd (List.getElem?_eq_some_iff.mp hv).1 (Nat.not_lt.mpr hn)

theorem after_eq {L' : Ledger} {low : Nat} (hlow : m.filledFrom m' = low)
    (h : (L.fill now low m'.sights).deal m m' = some L') : L.after now m m' = L' := by
  unfold after
  dsimp only
  rw [hlow, h, Option.getD_some]

variable {name : Option Bytes} {n : Nat} {x : Variable} {top : Sight}

theorem deal_assign {isLocal : Bool} (hinstr : m.instr? = some (if isLocal then .setLocal else .setUpvalue, name))
    (hread : m.operand? 1 = some n) (hx : L.named? m isLocal n = some x) (htop : m.sights.getLast? = some top) :
    L.deal m m' = some (L.assign x top) := by
  cases isLocal with
  | true =>
    simp only [if_true] at hinstr
    simp only [deal, hinstr, hread, hx, htop, Option.bind_eq_bind, Option.bind_some]
    rfl
  | false =>
    simp only [Bool.false_eq_true, if_false] at hinstr
    simp only [deal, hinstr, hread, hx, htop, Option.bind_eq_bind, Option.bind_some]
    rfl

theorem deal_closure {l : Loc} {c : Closure} {ys : List Variable} (hinstr : m.instr? = some (.closure, name))
    (hl : m'.top? 0 = some l) (hc : closureAt l m'.heap = .ok c) (hys : L.captures? m 2 c.upvalues.size = some ys) :
    L.deal m m' = some (L.capture l ys) := by
  simp only [deal, hinstr, hl, hc, hys, Except.toOption, Option.bind_eq_bind, Option.bind_some]
  rfl

section

variable (h : L.Tracks now w i own none) (hm : Mirrors w m i) (hm' : Mirrors w' m' i') (hw : w.Extends w')
  (hfacing : i.Facing Γ f rest p a s t below op operand) (hstep : IdealM.step i = .ok true i')

include h hm hm' hw hfacing hstep

theorem step_sheds (hop : op ≠ .setLocal ∧ op ≠ .setUpvalue ∧ op ≠ .closure) :
    (L.after (now + 1) m m').Tracks (now + 1) w' i' own none := by
  obtain ⟨g, hinstr, -⟩ := hm.faces hfacing
  have hdeal (L : Ledger) : L.deal m m' = some L := by
    unfold deal
    rw [hinstr]
    obtain ⟨h₁, h₂, h₃⟩ := hop
    cases op <;> first | rfl | contradiction
  rw [after_eq (hm.filledFrom hm' hinstr) (hdeal _)]
  exact h.fill (hfacing.sheds hstep hop) hw hm'.pictures.object_inj hm'.sights.length_eq fun n v _ hv =>
    forall₂_getElem? hm'.sights hv

omit hstep in
theorem after_assign (isLocal : Bool) {b : UInt8} {v : Val} (hop : op = if isLocal then .setLocal else .setUpvalue)
    (hcalls : i'.calls = i.calls) (hlength : i'.stack.length = i.stack.length) (hb : p.code[f.ip + 1]? = some b)
    (hv : i.stack.reverse[0]? = some v) :
    (L.fill (now + 1) i.stack.length m'.sights).Tracks (now + 1) w' i own none ∧ ∃ l top,
      w' l = some (.object f.closure) ∧ top.Of w' v ∧
      ∀ x, (L.fill (now + 1) i.stack.length m'.sights).variableOf l f.base isLocal b.toNat = some x →
        L.after (now + 1) m m' = (L.fill (now + 1) i.stack.length m'.sights).assign x top := by
  have hrunning := hfacing.running
  obtain ⟨g, hinstr, hhead, hsame⟩ := hm.faces hfacing
  have hfrom : m.filledFrom m' = i.stack.length := by
    rw [hm.filledFrom_same hm' hinstr hcalls, ← hlength, hop]
    cases isLocal <;> rfl
  have hrefill := h.refill hrunning.typed hw hm'.pictures.object_inj (hm'.sights.length_eq.trans hlength)
  obtain ⟨top, htop, hof⟩ := hm.top_sight hv
  have hread : m.operand? 1 = some b.toNat := by
    rw [hm.operand? hrunning.frames hrunning.knows.closure, hb]
    rfl
  refine ⟨hrefill, g.closure, top, hw _ _ hsame.closure, hof.mono hw, fun x hx => ?_⟩
  have hnamed := (Mirrors.named? hhead hsame isLocal b.toNat).trans hx
  exact after_eq hfrom (deal_assign (hop ▸ hinstr) hread hnamed htop)

theorem step_setLocal (hop : op = .setLocal) : (L.after (now + 1) m m').Tracks (now + 1) w' i' own none := by
  subst hop
  obtain ⟨f₁, r, b, v, hf₁, hr, hb, hv, hlt, hi'⟩ := IdealM.Brings.setLocal _ _ (hfacing.execute hstep (by decide))
  rw [Ideal.frames_moved hfacing.running.frames] at hf₁
  cases hf₁
  obtain ⟨r', hr', rfl⟩ := id hfacing.running.knows.closure
  cases hr.symm.trans hr'
  have hstack : i'.stack = i.stack.set (f.base + b.toNat) v := by rw [hi']; rfl
  have hcalls : i'.calls = i.calls := by
    rw [hi']
    exact (Ideal.calls_moved _).trans (Ideal.calls_moved _)
  obtain ⟨hrefill, l, top, -, hof, hafter⟩ := h.after_assign hm hm' hw hfacing true rfl hcalls
    (by rw [hstack, List.length_set]) hb hv
  have hslot : f.base + b.toNat < i.stack.length := hlt
  obtain ⟨x, hx⟩ : ∃ x, (L.fill (now + 1) i.stack.length m'.sights).slots[f.base + b.toNat]? = some x :=
    ⟨_, List.getElem?_eq_getElem (Nat.lt_of_lt_of_eq hslot hrefill.length.symm)⟩
  rw [hafter x ((if_pos rfl).trans hx)]
  exact (hrefill.assign hx hof).same (by rw [hi']; rfl) (by rw [hi']; rfl) hstack

theorem step_setUpvalue (hop : op = .setUpvalue) : (L.after (now + 1) m m').Tracks (now + 1) w' i' own none := by
  subst hop
  obtain ⟨f₁, r, b, u, v, hf₁, hr, hb, hcapture, hv, hi'⟩ :=
    IdealM.Brings.setUpvalue _ _ (hfacing.execute hstep (by decide))
  rw [Ideal.frames_moved hfacing.running.frames] at hf₁
  cases hf₁
  obtain ⟨r', hr', rfl⟩ := id hfacing.running.knows.closure
  cases hr.symm.trans hr'
  have hsame : i'.calls = i.calls ∧ i'.stack.length = i.stack.length := by
    rcases hi' with ⟨n, -, rfl⟩ | ⟨y, -, rfl⟩
    · exact ⟨(Ideal.calls_moved _).trans (Ideal.calls_moved _), List.length_set⟩
    · exact ⟨(Ideal.calls_moved _).trans (Ideal.calls_moved _), rfl⟩
  obtain ⟨hrefill, l, top, hl, hof, hafter⟩ := h.after_assign hm hm' hw hfacing false rfl hsame.1 hsame.2 hb hv
  obtain ⟨x, hx, u', hu', hlt, rfl⟩ :=
    forall₂_getElem? (hrefill.captured l f.closure r hl hr (Option.some_ne_none _).symm) hcapture
  cases hu'
  rw [hafter _ ((if_neg Bool.false_ne_true).trans hx)]
  rcases hi' with ⟨n, hu, rfl⟩ | ⟨y, hu, rfl⟩
  · exact (hrefill.assign (hrefill.opened u n hu) hof).same rfl rfl rfl
  · exact (hrefill.assign_closed hu hof).same rfl rfl rfl

theorem step_closure (hop : op = .closure) :
    ∃ own', (L.after (now + 1) m m').Tracks (now + 1) w' i' own' none := by
  subst hop
  have hrunning := hfacing.running
  have hcode := hrunning.knows.closure
  obtain ⟨g, hinstr, hhead, hsame⟩ := hm.faces hfacing
  obtain ⟨k, q, rfl, hk, hlocal⟩ := hfacing.makeClosure
  obtain ⟨-, hmoved⟩ := (hrunning.within hfacing.within).readByte hfacing.ahead
  have hrun : IdealM.makeClosure (i.moved (f.ip + 1)) = .ok () i' := hfacing.execute hstep (by decide)
  obtain ⟨hstack, hcalls⟩ := IdealM.Brings.makeClosure_keeps _ _ hrun
  have hlength : i'.stack.length = i.stack.length + 1 := by
    rw [hstack, List.length_append]
    rfl
  have hfrom : m.filledFrom m' = i.stack.length := by
    rw [hm.filledFrom_same hm' hinstr (hcalls.trans (Ideal.calls_moved _)), hlength]
    rfl
  have htop : i'.stack[i.stack.length]? = some (.object i.objects.length) := by
    rw [hstack]
    exact List.getElem?_concat_length
  have htop' : i'.stack.reverse[0]? = some (.object i.objects.length) := by
    rw [hstack, List.reverse_append]
    rfl
  obtain ⟨v, hv, l, hn, hl⟩ := forall₂_getElem? hm'.stack htop
  obtain ⟨s, hs, hof⟩ := forall₂_getElem? hm'.sights htop
  obtain rfl := hof.unique (.object hl) hm'.pictures.object_inj
  have hrel := hm'.top? 0
  rw [show i'.top? 0 = some i.objects.length from congrArg (·.bind Val.address?) htop'] at hrel
  obtain ⟨k', hk', hplace⟩ : ∃ k', m'.top? 0 = some k' ∧ w' k' = some (.object i.objects.length) := by
    generalize m'.top? 0 = o at hrel
    cases hrel with
    | some h => exact ⟨_, rfl, h⟩
  obtain rfl := hm'.pictures.object_inj _ _ _ hl hplace
  obtain ⟨own', ys, htracks, hys, r, hr, hcount⟩ := hmoved.makeClosure_tracks hk hfacing.fits.1 hfacing.fits.2
    hfacing.ahead.tail hlocal (h.same rfl rfl rfl) hw hm'.pictures.object_inj (hw _ _ hsame.closure) hl
    (hm'.sights.length_eq.trans hlength) hs _ _ hrun
  obtain ⟨c, hc, -, -, hcaptures, -⟩ := hm'.pictures.closure (hn.alive hm'.pictures.sound.consistent) hl hr
  have hsize : c.upvalues.size = q.origins.length := by
    rw [← hcount, ← hcaptures.length_eq, Array.length_toList]
  have hb : p.Ahead (f.ip + 2) ((q.origins.flatMap fun o => [if o.isLocal then 1 else 0, o.index.toUInt8]) ++ []) := by
    rw [List.append_nil]
    exact hfacing.ahead.tail.tail
  have hnamed := hm.captures? hrunning.frames hcode hhead hsame hfacing.fits.2 hb hys
  rw [← hsize] at hnamed
  exact ⟨own', after_eq hfrom (deal_closure hinstr hk' hc hnamed) ▸ htracks⟩

theorem step : ∃ own', (L.after (now + 1) m m').Tracks (now + 1) w' i' own' none := by
  by_cases hlocal : op = .setLocal
  · exact ⟨own, h.step_setLocal hm hm' hw hfacing hstep hlocal⟩
  by_cases hupvalue : op = .setUpvalue
  · exact ⟨own, h.step_setUpvalue hm hm' hw hfacing hstep hupvalue⟩
  by_cases hclosure : op = .closure
  · exact h.step_closure hm hm' hw hfacing hstep hclosure
  · exact ⟨own, h.step_sheds hm hm' hw hfacing hstep ⟨hlocal, hupvalue, hclosure⟩⟩

end

theorem begins {p : Prototype} (hi : i.Idle) (hm : Mirrors w m (i.launched p)) :
    (({} : Ledger).fill 0 0 m.sights).Tracks 0 w (i.launched p) (fun _ => ⟨0, 0⟩) none := by
  have hlength : m.sights.length = 1 := hm.sights.length_eq
  have hclosure {a : Nat} {r : Routine} (ha : (i.launched p).objects[a]? = some (.closure r)) :
      a = i.objects.length ∧ r = ⟨p, []⟩ := by
    rcases getElem?_snoc ha with ha | ⟨hlast, hr⟩
    · obtain ⟨g, -, hg⟩ := hi.natives _ (List.mem_of_getElem? ha)
      cases hg
    · cases hr
      exact ⟨hlast, rfl⟩
  have hslot {n : Nat} {x : Variable} (hx : (({} : Ledger).fill 0 0 m.sights).slots[n]? = some x) : x = ⟨n, 0⟩ := by
    rw [slots_fill (Nat.zero_le _), if_neg (Nat.not_lt_zero n)] at hx
    split at hx
    · exact (Option.some.inj hx).symm
    · cases hx
  have hupvalues (u : Nat) : (i.launched p).upvalues[u]? = none := by rw [Ideal.launched, hi.upvalues]; rfl
  have hnone {u : Nat} (hu : u < (i.launched p).upvalues.length) : False := by
    rw [Ideal.launched, hi.upvalues] at hu
    exact Nat.not_lt_zero u hu
  refine ⟨?_, fun n x v hx hv => ?_, fun n x hx => ?_, fun u hu => (hnone hu).elim, fun u hu => (hnone hu).elim,
    fun u n hu => ?_, fun u v hu => ?_, fun a r ha => ?_, fun l a r _ ha _ => ?_⟩
  · simp [Ledger.fill, hlength, Ideal.launched]
  · obtain rfl := hslot hx
    rw [value_fill]
    exact forall₂_getElem? hm.sights hv
  · obtain rfl := hslot hx
    exact ⟨rfl, Nat.le_refl _⟩
  · rw [hupvalues] at hu
    cases hu
  · rw [hupvalues] at hu
    cases hu
  · obtain ⟨rfl, -⟩ := hclosure ha
    have htop : (i.launched p).stack[0]? = some (.object i.objects.length) := rfl
    obtain ⟨v, -, l, -, hl⟩ := forall₂_getElem? hm.stack htop
    exact ⟨l, hl⟩
  · obtain ⟨-, rfl⟩ := hclosure ha
    exact .nil

end Ledger.Tracks

namespace Mirrors

variable {w : World} {m : Machine} {i : Ideal} {l : Loc} {c : Closure}

theorem uses (hm : Mirrors w m i) (hu : m.Uses l c) : ∃ a r, w l = some (.object a) ∧
    i.objects[a]? = some (.closure r) ∧
    List.Forall₂ (ShowsCapture w) c.upvalues.toList r.captures ∧ ∀ u, some u ∈ c.upvalues.toList → m.heap.Alive u := by
  obtain ⟨hreach, hc⟩ := hu
  have halive := (hm.pictures.intact hm.rooted).alive hreach
  obtain ⟨o, ho, hb⟩ := closureAt_eq_ok.mp hc
  rcases hm.known_of_reach hreach with ⟨t, ht⟩ | ⟨chars, hash, o', ho', -, hb'⟩
  · obtain ⟨o', ho', hlinks, hd⟩ := hm.pictures.body halive ht
    rw [ho] at ho'
    cases ho'
    rw [hb] at hlinks hd
    cases hd with
    | closure hr _ hcaptures =>
      refine ⟨_, _, ht, hr, hcaptures, fun u hmem => ?_⟩
      refine (hm.pictures.linked l halive (.object u) ?_).alive (.object u)
      rw [hlinks]
      exact .tail _ (List.mem_filterMap.mpr ⟨some u, hmem, rfl⟩)
  · rw [ho] at ho'
    cases ho'
    rw [hb] at hb'
    cases hb'

end Mirrors

namespace Ledger.Tracks

variable {L : Ledger} {now : Nat} {w : World} {m : Machine} {i : Ideal} {own : Nat → Variable} {Γ : Facts} {l u : Loc}
  {c : Closure}

def Owns (w : World) (m : Machine) (i : Ideal) (own : Nat → Variable) (x : Variable) (u : Loc) : Prop :=
  ∃ k < i.upvalues.length, w u = some (.upvalue k) ∧ m.heap.Alive u ∧ own k = x

theorem owns (h : L.Tracks now w i own none) (hm : Mirrors w m i) (hu : m.Uses l c) :
    List.Forall₂ (fun x o => ∃ u, o = some u ∧ Owns w m i own x u) (L.captured l) c.upvalues.toList := by
  obtain ⟨a, r, hl, hr, hcaptures, halive⟩ := hm.uses hu
  have hlisted := h.captured l a r hl hr (Option.some_ne_none a).symm
  generalize c.upvalues.toList = us at hcaptures halive
  generalize L.captured l = xs at hlisted
  generalize r.captures = os at hcaptures hlisted
  induction hlisted generalizing us with
  | nil =>
    cases hcaptures
    exact .nil
  | @cons x o xs os ho _ ih =>
    obtain ⟨k, rfl, hk, hown⟩ := ho
    cases hcaptures with
    | @cons u _ us _ hshows hcaptures =>
      cases u with
      | none => exact hshows.elim
      | some u =>
        exact .cons ⟨u, rfl, k, hk, hshows, halive u (.head _), hown⟩
            (ih _ (fun u hu => halive u (.tail _ hu)) hcaptures)

section

variable (h : L.Tracks now w i own none) (hm : Mirrors w m i)

include h hm

theorem slots_true : List.Forall₂ (fun x v => L.value x = some (m.heap.sight v)) L.slots m.values := by
  have hlength : L.slots.length = m.values.length := h.length.trans hm.stack.length_eq.symm
  refine List.forall₂_iff_get.mpr ⟨hlength, fun n hn hn' => ?_⟩
  obtain ⟨y, hy, hshows⟩ := forall₂_getElem?_left hm.stack (List.getElem?_eq_getElem hn')
  obtain ⟨s, hs, hof⟩ := h.values n _ y (List.getElem?_eq_getElem hn) hy
  exact hs.trans (congrArg some (hof.unique (hm.pictures.sight hshows) hm.pictures.object_inj))

theorem reads_true {x : Variable} (hx : Owns w m i own x u) : ∃ v, m.reads u v ∧ L.value x = some (m.heap.sight v) := by
  obtain ⟨k, hk, hu, halive, rfl⟩ := hx
  rcases hm.pictures.captured halive hu with ⟨n, hslot, hup⟩ | ⟨v, y, hclosed, hup, hshows⟩
  · obtain ⟨v, hv, hvalue⟩ := forall₂_getElem?_left (h.slots_true hm) (h.opened k n hslot)
    refine ⟨v, ?_, hvalue⟩
    unfold Machine.reads MachineM.readUpvalue
    rw [runBind, MachineM.run_view, hup]
    exact MachineM.readSlot_of_values hm.filled hv
  · obtain ⟨-, s, hs, hof⟩ := h.closed k y hclosed
    refine ⟨v, ?_, hs.trans (congrArg some (hof.unique (hm.pictures.sight hshows) hm.pictures.object_inj))⟩
    unfold Machine.reads MachineM.readUpvalue
    rw [runBind, MachineM.run_view, hup]
    rfl

theorem alive_true {x : Variable} (hx : Owns w m i own x u) (n : Nat) :
    upvalueAt u m.heap = .ok (.stack n) ↔ L.slots[n]? = some x := by
  obtain ⟨k, hk, hu, halive, rfl⟩ := hx
  rcases hm.pictures.captured halive hu with ⟨n', hslot, hup⟩ | ⟨v, y, hclosed, hup, -⟩
  · have hx := h.opened k n' hslot
    rw [hup]
    constructor
    · rintro ⟨⟩
      exact hx
    · intro hn
      obtain rfl : n' = n := (h.places n' _ hx).1.symm.trans (h.places n _ hn).1
      rfl
  · rw [hup]
    constructor
    · rintro ⟨⟩
    · intro hn
      exact absurd (List.mem_of_getElem? hn) (h.closed k y hclosed).1

theorem shared_true {x x' : Variable} {u u' : Loc} (hx : Owns w m i own x u) (hx' : Owns w m i own x' u') :
    u = u' ↔ x = x' := by
  obtain ⟨k, hk, hu, -, rfl⟩ := hx
  obtain ⟨k', hk', hu', -, rfl⟩ := hx'
  constructor
  · rintro rfl
    cases hu.symm.trans hu'
    rfl
  · intro he
    obtain rfl := h.injective k hk k' hk' he
    exact hm.pictures.upvalue_inj _ _ _ hu hu'

end

end Ledger.Tracks

namespace Stands

variable {L : Lineage} {w : World} {m : Machine} {i : Ideal} {Γ : Facts} {l u : Loc} {c : Closure} {s : Int}

theorem descending (h : Stands m L w i Γ) : m.openUpvalues.Pairwise fun v w => w.1 < v.1 := by
  obtain ⟨-, f, rest, p, a, s, below, hrunning, -⟩ := h.sound
  have hdescending := hrunning.typed.descending
  have hopened := h.mirrors.opened
  generalize m.openUpvalues = us at hopened ⊢
  generalize i.openUpvalues = vs at hopened hdescending
  induction hopened with
  | nil => exact .nil
  | @cons u v us vs hsame hopened ih =>
    rw [List.pairwise_cons] at hdescending ⊢
    refine ⟨fun u' hu' => ?_, ih hdescending.2⟩
    obtain ⟨v', hv', hsame'⟩ := forall₂_mem hopened hu'
    have := hdescending.1 v' hv'
    rw [hsame.slot, hsame'.slot]
    exact Int.ofNat_lt.mpr this

theorem opened (h : Stands m L w i Γ) (hu : (s, u) ∈ m.openUpvalues) :
    0 ≤ s ∧ s < m.sp ∧ upvalueAt u m.heap = .ok (.stack s) := by
  obtain ⟨-, f, rest, p, a, t, below, hrunning, -⟩ := h.sound
  obtain ⟨⟨n, k⟩, hmem, hsame⟩ := forall₂_mem h.mirrors.opened hu
  obtain rfl : s = n := hsame.slot
  obtain ⟨x, hx, -⟩ := hrunning.typed.held n k hmem
  have hlt := (List.getElem?_eq_some_iff.mp hx).1
  rw [List.length_reverse, ← hrunning.typed.length_stack, ← h.mirrors.sp_eq] at hlt
  refine ⟨Int.natCast_nonneg n, Int.ofNat_lt.mpr hlt, ?_⟩
  have hslot := (hrunning.typed.listed n k).mpr hmem
  rcases h.mirrors.pictures.captured hsame.alive hsame.place with ⟨n', hslot', hup⟩ | ⟨v, y, hclosed, -⟩
  · cases hslot.symm.trans hslot'
    exact hup
  · cases hslot.symm.trans hclosed

theorem listed (h : Stands m L w i Γ) (hl : m.Uses l c) (hc : some u ∈ c.upvalues)
    (hup : upvalueAt u m.heap = .ok (.stack s)) : (s, u) ∈ m.openUpvalues := by
  obtain ⟨-, f, rest, p, a, t, below, hrunning, -⟩ := h.sound
  obtain ⟨a, r, -, -, hcaptures, halive⟩ := h.mirrors.uses hl
  have hmem := Array.mem_toList_iff.mpr hc
  obtain ⟨o, -, hshows⟩ := forall₂_mem hcaptures hmem
  cases o with
  | none => exact hshows.elim
  | some k =>
    rcases h.mirrors.pictures.captured (halive u hmem) hshows with ⟨n, hslot, hup'⟩ | ⟨v, y, -, hup', -⟩
    · cases hup.symm.trans hup'
      obtain ⟨⟨s', u'⟩, hmem', hsame⟩ := forall₂_mem_right h.mirrors.opened ((hrunning.typed.listed n k).mp hslot)
      obtain rfl : s' = n := hsame.slot
      obtain rfl := h.mirrors.pictures.upvalue_inj _ _ _ hshows hsame.place
      exact hmem'
    · cases hup.symm.trans hup'

end Stands

theorem Ledger.Tracks.trueOf {L : Ledger} {now : Nat} {w : World} {m : Machine} {i : Ideal} {own : Nat → Variable}
    {Γ : Facts} {story : Lineage} (h : L.Tracks now w i own none) (hs : Stands m story w i Γ) : L.TrueOf m where
  descending := hs.descending
  opened _ _ := hs.opened
  listed _ _ _ _ := hs.listed
  slots := h.slots_true hs.mirrors
  captured l c hu := by
    refine (h.owns hs.mirrors hu).imp ?_
    rintro x o ⟨u, rfl, hx⟩
    obtain ⟨v, hread, hvalue⟩ := h.reads_true hs.mirrors hx
    exact ⟨u, v, rfl, hread, hvalue⟩
  alive l c hu x u hmem n := by
    obtain ⟨u', hu', hx⟩ := List.forall₂_zip (h.owns hs.mirrors hu) hmem
    cases hu'
    exact h.alive_true hs.mirrors hx n
  shared l c l' c' hu hu' x u x' u' hmem hmem' := by
    obtain ⟨v, hv, hx⟩ := List.forall₂_zip (h.owns hs.mirrors hu) hmem
    obtain ⟨v', hv', hx'⟩ := List.forall₂_zip (h.owns hs.mirrors hu') hmem'
    cases hv
    cases hv'
    exact h.shared_true hs.mirrors hx hx'

namespace Machine

variable {options : GcOptions} {n : Int} {clock : Clock} {m m' : Machine} {source : Bytes} {before : List Machine}

theorem Trail.tracks (hnew : Machine.new options n .standard clock = .ok m) (h : Trail m source (m' :: before)) :
    m'.heap.Exhausted ∨ ∃ w i Γ own, Stands m' (story (m' :: before)) w i Γ ∧
      (ledger (m' :: before)).Tracks before.length w i own none := by
  generalize htrail : m' :: before = trail at h
  induction h generalizing m' before with
  | @start m₁ hstart =>
    cases htrail
    refine (mirrors_start hnew hstart).imp_right ?_
    rintro ⟨w, f, p, hm, hf, -⟩
    have hidle := Ideal.idle_new (framesFor n) clock
    exact ⟨w, _, _, _, ⟨hm, hidle.sound hf, Lineage.alike_empty⟩, .begins hidle hm⟩
  | step _ hstep ih =>
    cases htrail
    rcases ih rfl with he | ⟨w, i, Γ, own, hstands, htracks⟩
    · exact .inl (MachineM.Grows.ok he hstep)
    · refine (hstands.step hstep).imp_right ?_
      rintro ⟨w', i', Γ', hw, hstands', hideal, -⟩
      obtain ⟨-, f, rest, p, a, s, t, below, op, operand, hfacing⟩ := hstands.sound.facing
      obtain ⟨own', htracks'⟩ := htracks.step hstands.mirrors hstands'.mirrors hw hfacing hideal
      exact ⟨w', i', Γ', own', hstands', htracks'⟩

/-- Before every instruction of a program the open upvalues are listed by their slots, and closures share one for each
variable that they have captured, with its slot as long as it has one. -/
theorem variables_are_shared (hnew : Machine.new options n .standard clock = .ok m)
    (h : Trail m source (m' :: before)) :
    m'.heap.Exhausted ∨ (ledger (m' :: before)).TrueOf m' := by
  refine (Trail.tracks hnew h).imp_right ?_
  rintro ⟨w, i, Γ, own, hstands, htracks⟩
  exact htracks.trueOf hstands

def endsAtSharing : List Machine → Bool
  | x :: before => decide (x.heap.slots.size ≤ 2 ^ 32) && (x.top? 0).any fun l => (x.top? 1).any fun k =>
      decide (l ≠ k ∧ (ledger (x :: before)).captured l ≠ [] ∧
        (ledger (x :: before)).captured l = (ledger (x :: before)).captured k)
  | [] => false

theorem variables_are_shared_pair : ∃ m m' before l k, Machine.new {} 4 .standard = .ok m ∧
    Trail m "\x7bvar a=1;fun f()\x7ba=2;\x7dfun g()\x7ba=3;\x7d\x7d" (m' :: before) ∧ l ≠ k ∧
    (ledger (m' :: before)).captured l ≠ [] ∧
    (ledger (m' :: before)).captured l = (ledger (m' :: before)).captured k ∧ (ledger (m' :: before)).TrueOf m' := by
  obtain ⟨m, trail, hnew, htrail, htest⟩ := exists_trail {} 4 "\x7bvar a=1;fun f()\x7ba=2;\x7dfun g()\x7ba=3;\x7d\x7d" 3
    endsAtSharing (by decide +kernel)
  cases trail with
  | nil => cases htest
  | cons m' before =>
    simp only [endsAtSharing, Bool.and_eq_true, Option.any_eq_true, decide_eq_true_eq] at htest
    obtain ⟨hroom, l, -, k, -, hne, hsome, hsame⟩ := htest
    have htrue := (variables_are_shared hnew htrail).resolve_left (Nat.not_lt.mpr hroom)
    exact ⟨m, m', before, l, k, hnew, htrail, hne, hsome, hsame, htrue⟩

end Machine

end Lox

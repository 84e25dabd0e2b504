import Lox.Proofs.Safety.Stack

namespace Lox

namespace Ideal.Running

open IdealM

variable {Γ : Facts} {i : Ideal} {f : Activation} {rest : List Activation} {p : Prototype} {a : Sheet} {s : Shape}
    {slots below : List Slot}
  {known : Option Underway} {x y : Slot} {v : Val} {n k : Nat} {name : Bytes} {c d : Content}

theorem first (h : i.Running Γ f rest p a s below) : ∃ v, Γ.firsts.head? = some v ∧ i.stack[f.base]? = some v := by
  have hfirsts := h.typed.firsts
  rw [h.frames] at hfirsts
  generalize Γ.firsts = firsts at hfirsts
  cases hfirsts with
  | cons hf _ => exact ⟨_, rfl, hf.1⟩

theorem constant {item : Item} (h : i.Running Γ f rest p a s below)
    (hk : (Γ.listing f.closure).constants[k]? = some item) (hitem : ∀ g, item ≠ .function g) (hlt : k < 256)
    (hb : p.Ahead f.ip (Operand.byte k).bytes) : Safe i IdealM.constant fun _ i' =>
      i'.Running Γ { f with ip := f.ip + 1 } rest p a ⟨{} :: s.slots, s.known⟩ below := by
  obtain ⟨lit, hread, hmade, hrunning⟩ := h.readConstant hk hlt hb
  refine .step hread ?_
  cases hmade with
  | number => exact hrunning.safe_push (x := {}) trivial fun _ => id
  | string => exact hrunning.safe_push (x := {}) trivial fun _ => id
  | function => exact absurd rfl (hitem _)

theorem equal (h : i.Running Γ f rest p a ⟨⟨c, false⟩ :: ⟨d, false⟩ :: slots, known⟩ below) :
    Safe i IdealM.equal fun _ i' => i'.Running Γ f rest p a ⟨{} :: slots, known⟩ below := by
  obtain ⟨v, hpop, -, -, h₁⟩ := h.pop rfl
  obtain ⟨w, hpop', -, -, h₂⟩ := h₁.pop rfl
  exact .step hpop (.step hpop' (h₂.safe_push (x := {}) trivial fun _ => id))

theorem popNumber (h : i.Running Γ f rest p a ⟨⟨c, false⟩ :: slots, known⟩ below) (hv : i.stack.reverse[0]? = some v)
    (hnumber : v.isNumber = true) : ∃ x, IdealM.popNumber i = .ok x { i with stack := i.stack.dropLast } ∧
      ({ i with stack := i.stack.dropLast } : Ideal).Running Γ f rest p a ⟨slots, known⟩ below := by
  obtain ⟨w, hpop, hw, -, h₁⟩ := h.pop rfl
  rw [hv] at hw
  cases hw
  cases v with
  | number bits =>
    refine ⟨Float.ofBits bits, ?_, h₁⟩
    unfold IdealM.popNumber
    rw [runBind, hpop]
    rfl
  | _ => cases hnumber

theorem reverse_dropLast {α : Type} (as : List α) (n : Nat) : as.dropLast.reverse[n]? = as.reverse[n + 1]? := by
  rw [← List.tail_reverse, List.getElem?_tail]

theorem popNumbers (h : i.Running Γ f rest p a ⟨⟨c, false⟩ :: ⟨d, false⟩ :: slots, known⟩ below) {v w : Val}
    (hv : i.stack.reverse[0]? = some v) (hw : i.stack.reverse[1]? = some w) (hnumber : v.isNumber = true)
    (hnumber' : w.isNumber = true) (result : Float → Float → Val) {act : IdealM Unit}
    (hact : act = do
      let b ← IdealM.popNumber
      let a ← IdealM.popNumber
      IdealM.push (result a b)) :
    Safe i act fun _ i' => i'.Running Γ f rest p a ⟨{} :: slots, known⟩ below := by
  subst hact
  obtain ⟨x, hpop, h₁⟩ := h.popNumber hv hnumber
  have hw' : i.stack.dropLast.reverse[0]? = some w := by rw [reverse_dropLast, hw]
  obtain ⟨y, hpop', h₂⟩ := h₁.popNumber hw' hnumber'
  exact .step hpop (.step hpop' (h₂.safe_push (x := {}) trivial fun _ => id))

theorem numeric (h : i.Running Γ f rest p a ⟨⟨c, false⟩ :: ⟨d, false⟩ :: slots, known⟩ below)
    (result : Float → Float → Val) :
    Safe i (IdealM.numeric result) fun _ i' => i'.Running Γ f rest p a ⟨{} :: slots, known⟩ below := by
  obtain ⟨v, hpeek, hv, -⟩ := h.peek (d := 0) rfl
  obtain ⟨w, hpeek', hw, -⟩ := h.peek (d := 1) rfl
  unfold IdealM.numeric
  refine .step hpeek (.step hpeek' ?_)
  by_cases hnumbers : v.isNumber = true ∧ w.isNumber = true
  · obtain ⟨hnumber, hnumber'⟩ := hnumbers
    simp only [hnumber, hnumber', Bool.and_self, if_true]
    exact h.popNumbers hv hw hnumber hnumber' result rfl
  · have hnot : (v.isNumber && w.isNumber) = false := by
      rw [Bool.and_eq_false_iff]
      simp only [not_and_or, Bool.not_eq_true] at hnumbers
      exact hnumbers
    simp only [hnot]
    exact h.raise_bind _ _

theorem add (h : i.Running Γ f rest p a ⟨⟨c, false⟩ :: ⟨d, false⟩ :: slots, known⟩ below) :
    Safe i IdealM.add fun _ i' => i'.Running Γ f rest p a ⟨{} :: slots, known⟩ below := by
  obtain ⟨v, hpeek, hv, -⟩ := h.peek (d := 0) rfl
  obtain ⟨w, hpeek', hw, -⟩ := h.peek (d := 1) rfl
  unfold IdealM.add
  refine .step hpeek (.step hpeek' ?_)
  split
  · obtain ⟨v, hpop, -, -, h₁⟩ := h.pop rfl
    obtain ⟨w, hpop', -, -, h₂⟩ := h₁.pop rfl
    exact .step hpop (.step hpop' (h₂.safe_push (x := {}) trivial fun _ => id))
  · exact h.popNumbers hv hw rfl rfl (fun a b => .ofFloat (a + b)) rfl
  · exact h.raise _

theorem not_ (h : i.Running Γ f rest p a ⟨⟨c, false⟩ :: slots, known⟩ below) :
    Safe i (execute .not) fun _ i' => i'.Running Γ f rest p a ⟨{} :: slots, known⟩ below := by
  obtain ⟨v, hpop, -, -, h₁⟩ := h.pop rfl
  exact .step hpop (h₁.safe_push (x := {}) trivial fun _ => id)

theorem negate (h : i.Running Γ f rest p a ⟨⟨c, false⟩ :: slots, known⟩ below) :
    Safe i IdealM.negate fun _ i' => i'.Running Γ f rest p a ⟨{} :: slots, known⟩ below := by
  obtain ⟨v, hpeek, hv, -⟩ := h.peek (d := 0) rfl
  unfold IdealM.negate
  refine .step hpeek ?_
  by_cases hnumber : v.isNumber = true
  · simp only [hnumber, if_true]
    obtain ⟨x, hpop, h₁⟩ := h.popNumber hv hnumber
    exact .step hpop (h₁.safe_push (x := {}) trivial fun _ => id)
  · simp only [Bool.not_eq_true] at hnumber
    simp only [hnumber]
    exact h.raise_bind _ _

theorem textOf (h : i.Running Γ f rest p a s below) (v : Val) : ∃ text, IdealM.textOf v i = .ok text i := by
  have htext : ∃ text, v.text? (fun c : Routine => c.prototype.text) i.objects = some text := by
    cases v with
    | object k =>
      show ∃ text, Obj.text? _ i.objects k = some text
      unfold Obj.text?
      cases hk : i.objects[k]? with
      | none => exact ⟨_, rfl⟩
      | some o =>
        have hvouches := h.typed.objects k o hk
        cases o with
        | instance_ k' fields =>
          obtain ⟨name, methods, hclass⟩ := hvouches
          simp only [hclass]
          exact ⟨_, rfl⟩
        | bound receiver m =>
          obtain ⟨q, r, hr, -⟩ := hvouches
          simp only [hr]
          exact ⟨_, rfl⟩
        | _ => exact ⟨_, rfl⟩
    | bool b => cases b <;> exact ⟨_, rfl⟩
    | _ => exact ⟨_, rfl⟩
  obtain ⟨text, htext⟩ := htext
  refine ⟨text, ?_⟩
  unfold IdealM.textOf
  rw [runBind]
  simp only [runGet, htext]
  rfl

theorem print (h : i.Running Γ f rest p a ⟨⟨c, false⟩ :: slots, known⟩ below) :
    Safe i IdealM.printTop fun _ i' => i'.Running Γ f rest p a ⟨slots, known⟩ below := by
  obtain ⟨v, hpop, -, -, h₁⟩ := h.pop rfl
  obtain ⟨text, htext⟩ := h₁.textOf v
  exact .step hpop (.step htext { h₁ with typed := { h₁.typed with } })

theorem jump {target : Nat} (h : i.Running Γ f rest p a s below) (htarget : target ≤ p.code.length)
    (hip : target = f.ip + n) : Safe i (IdealM.jump n) fun _ i' =>
      i'.Running Γ { f with ip := target } rest p a s below := by
  subst hip
  exact .step (frame_eq h.frames) (h.moved htarget)

theorem jumpTop (h : i.Running Γ f rest p a s below) (hn : n < 65536) (hb : p.Ahead f.ip (Operand.short n).bytes)
    (htarget : f.ip + 2 + n ≤ p.code.length) : Safe i (execute .jump) fun _ i' =>
      i'.Running Γ { f with ip := f.ip + 2 + n } rest p a s below := by
  obtain ⟨hread, hrunning⟩ := h.readShort hn hb
  exact .step hread ((hrunning.jump htarget rfl).imp fun _ _ => id)

theorem jumpIfFalse (h : i.Running Γ f rest p a s below) (hs : s.slots ≠ []) (hn : n < 65536)
    (hb : p.Ahead f.ip (Operand.short n).bytes) (htarget : f.ip + 2 + n ≤ p.code.length) :
    Safe i IdealM.jumpIfFalse fun _ i' => i'.Running Γ { f with ip := f.ip + 2 } rest p a s below ∨
      i'.Running Γ { f with ip := f.ip + 2 + n } rest p a s below := by
  obtain ⟨hread, hrunning⟩ := h.readShort hn hb
  obtain ⟨x, rest, hx⟩ := List.exists_cons_of_ne_nil hs
  obtain ⟨v, hpeek, -⟩ := hrunning.peek (d := 0) (x := x) (by rw [hx]; rfl)
  unfold IdealM.jumpIfFalse
  refine .step hread (.step hpeek ?_)
  by_cases hv : v.isFalsey = true
  · rw [if_pos hv]
    exact (hrunning.jump htarget rfl).imp fun _ _ => .inr
  · rw [if_neg hv]
    exact .inl hrunning

theorem jumpBack (h : i.Running Γ f rest p a s below) (hn : n < 65536) (hb : p.Ahead f.ip (Operand.short n).bytes)
    (hback : n ≤ f.ip + 2) : Safe i IdealM.jumpBack fun _ i' =>
      i'.Running Γ { f with ip := f.ip + 2 - n } rest p a s below := by
  obtain ⟨hread, hrunning⟩ := h.readShort hn hb
  unfold IdealM.jumpBack
  refine .step hread (.step (frame_eq hrunning.frames) ?_)
  rw [if_neg (Nat.not_lt.mpr hback)]
  refine .step rfl (hrunning.moved ?_)
  have := hrunning.place
  exact Nat.le_trans (Nat.sub_le _ _) this

theorem readLocal (h : i.Running Γ f rest p a s below) (hn : n < 256) (hb : p.Ahead f.ip (Operand.byte n).bytes) :
    IdealM.readLocal i = .ok (f.base + n) (i.moved (f.ip + 1)) ∧
      (i.moved (f.ip + 1)).Running Γ { f with ip := f.ip + 1 } rest p a s below := by
  obtain ⟨hread, hnat, hrunning⟩ := h.readOperand hn hb
  refine ⟨?_, hrunning⟩
  unfold IdealM.readLocal
  rw [runBind, hread]
  dsimp only
  rw [runBind, frame_eq hrunning.frames]
  dsimp only
  rw [hnat]
  rfl

theorem getLocal (h : i.Running Γ f rest p a s below) (hx : s.slots.reverse[n]? = some x) (hn : n < 256)
    (hb : p.Ahead f.ip (Operand.byte n).bytes) : Safe i IdealM.getLocal fun _ i' =>
      i'.Running Γ { f with ip := f.ip + 1 } rest p a ⟨⟨x.content.copy, false⟩ :: s.slots, s.known⟩ below := by
  obtain ⟨hread, hrunning⟩ := h.readLocal hn hb
  obtain ⟨v, hslot, -, hholds⟩ := hrunning.readSlot (hrunning.slot_at hx)
  refine .step hread (.step hslot (hrunning.safe_push ?_ fun _ => id))
  revert hholds
  cases x.content <;> first | exact id | exact fun _ => trivial

theorem getFirst {held : Bool} (h : i.Running Γ f rest p a s below) (hx : s.slots.reverse[0]? = some ⟨.first, held⟩)
    (hb : p.Ahead f.ip (Operand.byte 0).bytes) : Safe i IdealM.getLocal fun _ i' =>
      i'.Running Γ { f with ip := f.ip + 1 } rest p a ⟨⟨.receiver, false⟩ :: s.slots, s.known⟩ below := by
  obtain ⟨hread, hrunning⟩ := h.readLocal (by omega) hb
  obtain ⟨v, hslot, hv, -⟩ := hrunning.readSlot (hrunning.slot_at hx)
  obtain ⟨w, hfirst, hw⟩ := hrunning.first
  obtain rfl : w = v := Option.some.inj (hw.symm.trans hv)
  exact .step hread (.step hslot (hrunning.safe_push (x := ⟨.receiver, false⟩) hfirst fun _ => id))

theorem setLocal {held : Bool} (h : i.Running Γ f rest p a ⟨x :: slots, known⟩ below)
    (hx : (x :: slots).reverse[n]? = some ⟨.any, held⟩) (hn : n < 256)
    (hb : p.Ahead f.ip (Operand.byte n).bytes) : Safe i IdealM.setLocal fun _ i' =>
      i'.Running Γ { f with ip := f.ip + 1 } rest p a ⟨x :: slots, known⟩ below := by
  obtain ⟨hread, hrunning⟩ := h.readLocal hn hb
  obtain ⟨v, hpeek, -, -⟩ := hrunning.peek (d := 0) rfl
  obtain ⟨hwrite, hrunning'⟩ := hrunning.writeSlot (hrunning.slot_at hx) v
  exact .step hread (.step hpeek (.of_eq hwrite hrunning'))

theorem getGlobal (h : i.Running Γ f rest p a s below) (hk : (Γ.listing f.closure).signature.Names k name)
    (hlt : k < 256)
    (hc : c = .any ∨ c = .own ∧ ∃ d, s.known = some d ∧ d.global = some name)
    (hb : p.Ahead f.ip (Operand.byte k).bytes) : Safe i IdealM.getGlobal fun _ i' =>
      i'.Running Γ { f with ip := f.ip + 1 } rest p a ⟨⟨c, false⟩ :: s.slots, s.known⟩ below := by
  obtain ⟨hread, hrunning⟩ := h.readName hk hlt hb
  unfold IdealM.getGlobal
  refine .step hread (.step rfl ?_)
  split
  · rename_i v hv
    refine hrunning.safe_push ?_ fun _ => id
    rcases hc with rfl | ⟨rfl, d, hknown, hglobal⟩
    · trivial
    · have hdeclares := hrunning.declares
      rw [hknown] at hdeclares
      obtain ⟨m, hm⟩ := hdeclares
      have hbound := hm.global name hglobal
      rw [show (i.moved (f.ip + 1)).globals name = some v from hv] at hbound
      cases hbound
      exact ⟨m, rfl, hm.class_⟩
  · exact hrunning.raise _

theorem reglobal {known' : Option Underway} (h : i.Running Γ f rest p a ⟨slots, known⟩ below) (globals : Dict Val)
    (hdeclares : Γ.Declares i.objects globals known') :
    ({ i with globals } : Ideal).Running Γ f rest p a ⟨slots, known'⟩ below :=
  { h with typed := h.typed.reglobal globals, declares := hdeclares }

theorem defineGlobal (h : i.Running Γ f rest p a ⟨⟨c, false⟩ :: slots, none⟩ below)
    (hk : (Γ.listing f.closure).signature.Names k name) (hlt : k < 256)
    (hb : p.Ahead f.ip (Operand.byte k).bytes) : Safe i IdealM.defineGlobal fun _ i' =>
      i'.Running Γ { f with ip := f.ip + 1 } rest p a ⟨slots, none⟩ below := by
  obtain ⟨hread, hrunning⟩ := h.readName hk hlt hb
  obtain ⟨v, hpeek, -, -⟩ := hrunning.peek (d := 0) rfl
  have hdeclares : Γ.Declares (i.moved (f.ip + 1)).objects ((i.moved (f.ip + 1)).globals.set name v) none :=
    hrunning.declares
  have hrunning' := hrunning.reglobal _ hdeclares
  obtain ⟨w, hpop, -, -, hdone⟩ := hrunning'.pop rfl
  exact .step hread (.step hpeek (.step rfl (.step hpop hdone)))

theorem defineClass {stage : Stage} {body : ClassBody} {todo : List (Lambda Stmt)}
    (h : i.Running Γ f rest p a ⟨⟨.own, false⟩ :: slots, some { stage, body, todo }⟩ below)
    (hk : (Γ.listing f.closure).signature.Names k name) (hlt : k < 256)
    (hb : p.Ahead f.ip (Operand.byte k).bytes) : Safe i IdealM.defineGlobal fun _ i' =>
      i'.Running Γ { f with ip := f.ip + 1 } rest p a ⟨slots, some { global := name, stage, body, todo }⟩ below := by
  obtain ⟨hread, hrunning⟩ := h.readName hk hlt hb
  obtain ⟨v, hpeek, -, m, rfl, hclass⟩ := hrunning.peek (d := 0) rfl
  obtain ⟨m', hm⟩ := hrunning.declares
  obtain rfl : m' = m := Option.some.inj (hm.class_.symm.trans hclass)
  have hdeclares : Γ.Declares (i.moved (f.ip + 1)).objects ((i.moved (f.ip + 1)).globals.set name (.object m'))
      (some { global := some name, stage, body, todo }) := by
    refine ⟨m', { hm with global := fun name' hname => ?_ }⟩
    cases hname
    simp [Dict.set]
  have hrunning' := hrunning.reglobal _ hdeclares
  obtain ⟨w, hpop, -, -, hdone⟩ := hrunning'.pop rfl
  exact .step hread (.step hpeek (.step rfl (.step hpop hdone)))

theorem assignGlobal (h : i.Running Γ f rest p a ⟨x :: slots, none⟩ below)
    (hk : (Γ.listing f.closure).signature.Names k name) (hlt : k < 256)
    (hb : p.Ahead f.ip (Operand.byte k).bytes) : Safe i IdealM.assignGlobal fun _ i' =>
      i'.Running Γ { f with ip := f.ip + 1 } rest p a ⟨x :: slots, none⟩ below := by
  obtain ⟨hread, hrunning⟩ := h.readName hk hlt hb
  obtain ⟨v, hpeek, -, -⟩ := hrunning.peek (d := 0) rfl
  unfold IdealM.assignGlobal
  refine .step hread (.step hpeek (.step rfl ?_))
  split
  · exact hrunning.reglobal _ hrunning.declares
  · exact hrunning.raise _

theorem instanceOr (h : i.Running Γ f rest p a s below) (q : RuntimeProblem) (v : Val) :
    Safe i (IdealM.instanceOr q v) fun (m, k, fields) i' => i' = i ∧ v = .object m ∧
      i.objects[m]? = some (.instance_ k fields) ∧ ClassAt i.objects k := by
  unfold IdealM.instanceOr
  split
  · refine .step rfl ?_
    split
    · rename_i hm
      exact ⟨rfl, rfl, hm, h.typed.objects _ _ hm⟩
    · exact h.raise _
  · exact h.raise _

theorem setInstance {m k : Nat} {fields : Dict Val} (h : i.Running Γ f rest p a s below)
    (hm : i.objects[m]? = some (.instance_ k fields)) (hclass : ClassAt i.objects k) (fields' : Dict Val) :
    ({ i with objects := i.objects.set m (.instance_ k fields') } : Ideal).Running Γ f rest p a s below := by
  have hl : Obj.Later i.objects (i.objects.set m (.instance_ k fields')) := by
    refine .set ?_ ?_
    · intro name methods hm'
      rw [hm] at hm'
      cases hm'
    · rintro p ⟨r, hr, -⟩
      rw [hm] at hr
      cases hr
  refine h.later hl (fun k' name methods hk' => ?_) fun b o hb => ?_
  · by_cases hne : m = k'
    · subst hne
      rw [List.getElem?_set_self (List.getElem?_eq_some_iff.mp hm).1] at hk'
      cases hk'
    · rwa [List.getElem?_set_ne hne] at hk'
  · by_cases hne : m = b
    · subst hne
      rw [List.getElem?_set_self (List.getElem?_eq_some_iff.mp hm).1] at hb
      cases hb
      exact .inr (hl.classAt hclass)
    · exact .inl (by rwa [List.getElem?_set_ne hne] at hb)

theorem setProperty (h : i.Running Γ f rest p a ⟨⟨c, false⟩ :: ⟨d, false⟩ :: slots, none⟩ below)
    (hk : (Γ.listing f.closure).signature.Names k name) (hlt : k < 256)
    (hb : p.Ahead f.ip (Operand.byte k).bytes) : Safe i IdealM.setProperty fun _ i' =>
      i'.Running Γ { f with ip := f.ip + 1 } rest p a ⟨{} :: slots, none⟩ below := by
  obtain ⟨v, hpeek, -, -⟩ := h.peek (d := 1) rfl
  unfold IdealM.setProperty
  refine .step hpeek (.bind (h.instanceOr _ v) ?_)
  rintro ⟨m, class_, fields⟩ i' ⟨rfl, -, hm, hclass⟩
  obtain ⟨hread, hrunning⟩ := h.readName hk hlt hb
  obtain ⟨w, hpeek', -, -⟩ := hrunning.peek (d := 0) rfl
  have hset := hrunning.setInstance hm hclass (fields.set name w)
  obtain ⟨w', hpop, -, -, h₁⟩ := hset.pop rfl
  obtain ⟨v', hpop', -, -, h₂⟩ := h₁.pop rfl
  exact .step hread (.step hpeek' (.step rfl (.step hpop (.step hpop' (h₂.safe_push (x := {}) trivial fun _ => id)))))

end Ideal.Running

end Lox

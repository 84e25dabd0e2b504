import Lox.Proofs.Ideal.Classes
import Lox.Proofs.Ideal.Meaning

namespace Lox

open Heap HeapView MachineM HeapM

variable {α β γ δ : Type}

section

variable {w : World} {m : Machine} {i : Ideal} (hm : Mirrors w m i)

include hm

theorem follows_equal : Follows w m i equal IdealM.equal := by
  unfold equal IdealM.equal
  refine follows_pop_bind hm fun b y i₁ hb hm₁ => ?_
  refine follows_pop_bind hm₁ fun a x i₂ ha hm₂ => ?_
  rw [hm.pictures.equal ha hb]
  exact follows_push hm₂ rfl

theorem follows_not : Follows w m i (do push (.ofBool (← pop).isFalsey))
    (do IdealM.push (.bool (← IdealM.pop).isFalsey)) := by
  refine follows_pop_bind hm fun v x i₁ hx hm₁ => ?_
  rw [hx.isFalsey]
  exact follows_push hm₁ rfl

theorem sim_popNumber : Sim m i popNumber IdealM.popNumber fun f g m' i' =>
    f = g ∧ Mirrors w m' i' := by
  unfold popNumber IdealM.popNumber
  refine follows_pop_bind_of_grows hm (fun v x i₁ hx hm₁ => ?_) fun v => by split <;> infer_instance
  cases x with
  | number bits =>
    have hnum : v.asNumber = .ok (Float.ofBits bits) := by
      unfold Value.asNumber
      rw [if_pos hx.2.isNumber, hx.1]
    rw [hnum]
    exact .pure ⟨rfl, hm₁⟩
  | _ => trivial

theorem Mirrors.isNumber {d : Nat} {x : Val} (hd : d < i.stack.length)
    (hx : i.stack[i.stack.length - 1 - d]? = some x) : MachineM.isNumber d m = .ok x.isNumber m := by
  obtain ⟨v, hshow, -, hpeek⟩ := hm.peek hd hx
  unfold MachineM.isNumber
  rw [runBind, hpeek m.heap, ← hshow.isNumber]
  rfl

theorem Mirrors.isString {d : Nat} {x : Val} (hd : d < i.stack.length)
    (hx : i.stack[i.stack.length - 1 - d]? = some x) : MachineM.isString d m = .ok x.isString m := by
  obtain ⟨v, hshow, -, hpeek⟩ := hm.peek hd hx
  have hkind : (x.kind? i.objects == some .string) = x.isString := by
    cases x with
    | object a => cases ho : i.objects[a]? with
      | none => simp [Val.kind?, ho, Val.isString]
      | some o => cases o <;> simp [Val.kind?, ho, Val.isString, Obj.kind]
    | _ => rfl
  unfold MachineM.isString
  rw [runBind, hpeek m.heap]
  dsimp only
  rw [MachineM.run_view, hm.pictures.ofKind hshow, hkind]

omit hm in
theorem andM_eq {x y : MachineM Bool} {b c : Bool} (hx : x m = .ok b m) (hy : y m = .ok c m) :
    (x <&&> y) m = .ok (b && c) m := by
  unfold andM
  rw [runBind, hx]
  cases b
  · rfl
  · exact hy

theorem follows_numbers {f : Float → Float → Value} {g : Float → Float → Val}
    (hfg : ∀ a b, ∀ h : Heap, h.Shows w (f a b) (g a b)) :
    Follows w m i (do
      let b ← popNumber
      let a ← popNumber
      push (f a b)) (do
      let b ← IdealM.popNumber
      let a ← IdealM.popNumber
      IdealM.push (g a b)) := by
  refine (sim_popNumber hm).bind ?_
  rintro b _ m₁ i₁ ⟨rfl, hm₁⟩
  refine (sim_popNumber hm₁).bind ?_
  rintro a _ m₂ i₂ ⟨rfl, hm₂⟩
  exact follows_push hm₂ (hfg a b _)

theorem follows_numeric {f : Float → Float → Value} {g : Float → Float → Val}
    (hfg : ∀ a b, ∀ h : Heap, h.Shows w (f a b) (g a b)) :
    Follows w m i (numeric f) (IdealM.numeric g) := by
  unfold numeric IdealM.numeric
  dsimp only
  refine Sim.spec_peek fun x hd hx => Sim.spec_peek fun y hd' hy => ?_
  refine Sim.act_bind (andM_eq (hm.isNumber (by omega) hx) (hm.isNumber (by omega) hy)) ?_
  split
  · exact follows_numbers hm hfg
  · exact sim_raise_bind hm _

theorem follows_negate : Follows w m i negate IdealM.negate := by
  unfold negate IdealM.negate
  dsimp only
  refine Sim.spec_peek fun x hd hx => ?_
  refine Sim.act_bind (hm.isNumber (by omega) hx) ?_
  split
  · refine (sim_popNumber hm).bind ?_
    rintro b _ m₁ i₁ ⟨rfl, hm₁⟩
    exact follows_push hm₁ ⟨rfl, Value.isNumeral_number _⟩
  · exact sim_raise_bind hm _

theorem follows_concatenate {a b : Bytes} (hd : 1 < i.stack.length)
    (hb : i.stack[i.stack.length - 1 - 0]? = some (.string b))
    (ha : i.stack[i.stack.length - 1 - 1]? = some (.string a)) :
    Follows w m i concatenate (do
      let _ ← IdealM.pop
      let _ ← IdealM.pop
      IdealM.push (.string (a ++ b))) := by
  obtain ⟨v, ⟨l, hash, hn, hs⟩, -, hpeek⟩ := hm.peek (by omega) hb
  obtain ⟨u, ⟨k, hash', hn', hs'⟩, -, hpeek'⟩ := hm.peek hd ha
  unfold concatenate stringValue
  refine Sim.act_bind (hpeek m.heap) (Sim.act_bind (hpeek' m.heap) ?_)
  refine Sim.act_view (hn.asSymbol hs) (Sim.act_view (hn'.asSymbol hs') ?_)
  refine Sim.act_heap (hm.delivers_string (a ++ b)) fun v h' hv => ?_
  have hm₁ := hm.turn hv.1
  refine follows_pop_bind hm₁ fun _ _ i₁ _ hm₂ => follows_pop_bind hm₂ fun _ _ i₂ _ hm₃ => ?_
  exact follows_push hm₃ hv.2

theorem follows_add : Follows w m i add IdealM.add := by
  unfold add IdealM.add
  refine Sim.spec_peek fun x hd hx => Sim.spec_peek fun y hd' hy => ?_
  refine Sim.act_bind (andM_eq (hm.isString (by omega) hx) (hm.isString (by omega) hy)) ?_
  have hnum : (isNumber 0 <&&> isNumber 1) m = .ok (x.isNumber && y.isNumber) m :=
    andM_eq (hm.isNumber (by omega) hx) (hm.isNumber (by omega) hy)
  cases x <;> cases y
  case string.string b a => exact follows_concatenate hm (by omega) hx hy
  case number.number =>
    refine Sim.act_bind hnum ?_
    exact follows_numbers hm (f := fun a b => .number (a + b)) (g := fun a b => .ofFloat (a + b))
      fun _ _ _ => ⟨rfl, Value.isNumeral_number _⟩
  all_goals exact Sim.act_bind hnum (sim_raise hm _)

theorem follows_printTop : Follows w m i printTop IdealM.printTop := by
  unfold printTop IdealM.printTop IdealM.textOf
  refine follows_pop_bind hm fun v x i₁ hx hm₁ => ?_
  rw [bind_assoc]
  refine Sim.spec_get (Sim.spec_ofOption fun text ht => ?_)
  refine Sim.act_view (hm₁.pictures.formatValue hx ht) ?_
  exact (sim_print hm₁ _).imp fun _ _ _ _ h => ⟨rfl, w, .refl w, h⟩

theorem follows_jump (distance : Nat) : Follows w m i (jump distance) (IdealM.jump distance) := by
  refine (sim_frame hm).bind ?_
  rintro f a m i ⟨rfl, rfl, hs, fs, as, hfs, has⟩
  rw [hs.ip]
  exact (sim_jumpTo hm has _).imp fun _ _ _ _ h => ⟨rfl, w, .refl w, h.mirrors⟩

theorem follows_jumpIfFalse : Follows w m i jumpIfFalse IdealM.jumpIfFalse := by
  unfold jumpIfFalse IdealM.jumpIfFalse
  have (n : Nat) : Grows (jump n) := by unfold jump; infer_instance
  refine (sim_readShort hm).bind ?_
  rintro n _ m₁ i₁ ⟨rfl, hmove⟩
  refine (sim_peek hmove.mirrors 0).bind ?_
  rintro v x m i ⟨rfl, rfl, hx, -⟩
  rw [hx.isFalsey]
  split
  · exact follows_jump hmove.mirrors n
  · exact .pure ⟨rfl, w, .refl w, hmove.mirrors⟩

theorem follows_jumpBack : Follows w m i jumpBack IdealM.jumpBack := by
  unfold jumpBack IdealM.jumpBack
  dsimp only
  refine (sim_readShort hm).bind ?_
  rintro n _ m₁ i₁ ⟨rfl, hmove⟩
  refine (sim_frame hmove.mirrors).bind ?_
  rintro f a m i ⟨rfl, rfl, hs, fs, as, hfs, has⟩
  rw [hs.ip]
  split
  · trivial
  · exact (sim_jumpTo hmove.mirrors has _).imp fun _ _ _ _ h => ⟨rfl, w, .refl w, h.mirrors⟩

theorem follows_constant : Follows w m i (do push (← readConstant)) IdealM.constant := by
  refine (sim_readConstant hm).bind ?_
  rintro v k m₁ i₁ ⟨hmove, hshow, -⟩
  have hm₁ := hmove.mirrors
  obtain ⟨calls, rfl⟩ := hmove.machine
  cases k with
  | number u =>
    refine follows_push hm₁ ⟨?_, hshow.2⟩
    rw [hshow.1]
  | string chars => exact follows_push hm₁ hshow
  | function p => trivial

theorem follows_execute (op : Opcode) : Follows w m i (execute op) (IdealM.execute op) := by
  have hnumber (a : Float) (h : Heap) : h.Shows w (.number a) (.ofFloat a) :=
    ⟨rfl, Value.isNumeral_number a⟩
  cases op with
  | constant => exact follows_constant hm
  | nil => exact follows_push hm rfl
  | true => exact follows_push (x := .bool true) hm rfl
  | false => exact follows_push (x := .bool false) hm rfl
  | pop => exact follows_drop hm
  | getLocal => exact follows_getLocal hm
  | setLocal => exact follows_setLocal hm
  | getGlobal => exact follows_getGlobal hm
  | defineGlobal => exact follows_defineGlobal hm
  | setGlobal => exact follows_assignGlobal hm
  | getUpvalue => exact follows_getUpvalue hm
  | setUpvalue => exact follows_setUpvalue hm
  | getProperty => exact follows_getProperty hm
  | setProperty => exact follows_setProperty hm
  | getSuper => exact follows_getSuper hm
  | equal => exact follows_equal hm
  | greater => exact follows_numeric hm fun _ _ _ => rfl
  | less => exact follows_numeric hm fun _ _ _ => rfl
  | add => exact follows_add hm
  | subtract => exact follows_numeric hm fun _ _ => hnumber _
  | multiply => exact follows_numeric hm fun _ _ => hnumber _
  | divide => exact follows_numeric hm fun _ _ => hnumber _
  | not => exact follows_not hm
  | negate => exact follows_negate hm
  | print => exact follows_printTop hm
  | jump =>
    have (n : Nat) : Grows (jump n) := by unfold jump; infer_instance
    refine (sim_readShort hm).bind ?_
    rintro n _ m₁ i₁ ⟨rfl, hmove⟩
    exact follows_jump hmove.mirrors n
  | jumpIfFalse => exact follows_jumpIfFalse hm
  | loop => exact follows_jumpBack hm
  | call => exact follows_callTop hm
  | invoke => exact follows_invokeTop hm
  | superInvoke => exact follows_superInvoke hm
  | closure => exact follows_makeClosure hm
  | closeUpvalue => exact follows_closeTop hm
  | return_ => exact .pure ⟨rfl, w, .refl w, hm⟩
  | class_ => exact follows_makeClass hm
  | inherit => exact follows_inherit hm
  | method => exact follows_defineMethod hm

theorem follows_step : Follows w m i step IdealM.step := by
  unfold step IdealM.step
  refine (sim_readByte hm).bind_of_grows ?_ fun b => by split <;> infer_instance
  rintro b _ m₁ i₁ ⟨rfl, hmove⟩
  cases ho : Opcode.ofByte? b with
  | none => trivial
  | some op =>
    have hmore : Follows w m₁ i₁ (do execute op; return true) (do IdealM.execute op; return true) := by
      refine (follows_execute hmove.mirrors op).bind ?_
      rintro _ _ m₂ i₂ ⟨-, w', hw, hm₂⟩
      exact .pure ⟨rfl, w', hw, hm₂⟩
    cases op with
    | return_ => exact follows_leave hmove.mirrors
    | _ => exact hmore

omit hm in
theorem follows_run (fuel : Nat) (w : World) (m : Machine) (i : Ideal) (hm : Mirrors w m i) :
    Follows w m i (run fuel) (IdealM.run fuel) := by
  induction fuel generalizing w m i with
  | zero => exact .pure ⟨rfl, w, .refl w, hm⟩
  | succ fuel ih =>
    unfold run IdealM.run
    refine (follows_step hm).bind ?_
    rintro b _ m₁ i₁ ⟨rfl, w', hw, hm₁⟩
    cases b with
    | false => exact .pure ⟨rfl, w', hw, hm₁⟩
    | true => exact (ih w' m₁ i₁ hm₁).widen hw

end

end Lox

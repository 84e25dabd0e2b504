import Lox.Proofs.Safety.Upvalues

namespace Lox

theorem getElem?_snoc {α : Type} {xs : List α} {x y : α} {n : Nat} (h : (xs ++ [x])[n]? = some y) :
    xs[n]? = some y ∨ n = xs.length ∧ y = x := by
  rw [List.getElem?_append] at h
  split at h
  · exact .inl h
  · rw [List.getElem?_singleton] at h
    split at h
    · exact .inr ⟨by omega, (Option.some.inj h).symm⟩
    · cases h

inductive Ending where
  | drops
  | fills
  | enters

namespace Ideal

def calls (i : Ideal) : List (Nat × Nat) :=
  i.frames.map fun f => (f.closure, f.base)

structure Agrees (i : Ideal) (low : Nat) (i' : Ideal) : Prop where
  upvalues : i'.upvalues = i.upvalues
  closures : ∀ (a : Nat) r, i'.objects[a]? = some (.closure r) ↔ i.objects[a]? = some (.closure r)
  stack : i'.stack.take low = i.stack.take low

structure Turned (i : Ideal) (k : Nat) (e : Ending) (i' : Ideal) : Prop extends
    i.Agrees (i.stack.length - k) i' where
  ends : match e with
    | .drops => i'.calls = i.calls ∧ i'.stack.length = i.stack.length - k
    | .fills => i'.calls = i.calls ∧ i'.stack.length = i.stack.length - k + 1
    | .enters => (∃ c, i'.calls = (c, i.stack.length - k) :: i.calls) ∧ i.stack.length - k ≤ i'.stack.length

variable {i i' i'' : Ideal} {low j k : Nat} {e : Ending} {o : Obj Routine} {a : Nat}

theorem Agrees.mono (h : i.Agrees low i') (hk : k ≤ low) : i.Agrees k i' where
  upvalues := h.upvalues
  closures := h.closures
  stack := by
    have := congrArg (List.take k) h.stack
    rwa [List.take_take, List.take_take, Nat.min_eq_left hk] at this

theorem Agrees.trans (h : i.Agrees low i') (h' : i'.Agrees low i'') : i.Agrees low i'' where
  upvalues := h'.upvalues.trans h.upvalues
  closures a r := (h'.closures a r).trans (h.closures a r)
  stack := h'.stack.trans h.stack

theorem Agrees.turned (h : i.Agrees (i.stack.length - k) i') (hcalls : i'.calls = i.calls)
    (hlength : i'.stack.length = i.stack.length) (h' : i'.Turned k e i'') : i.Turned k e i'' where
  toAgrees := h.trans (hlength ▸ h'.toAgrees)
  ends := by
    have := h'.ends
    rw [hcalls, hlength] at this
    exact this

theorem Turned.trans (h : i.Turned j .drops i') (h' : i'.Turned k e i'') : i.Turned (j + k) e i'' where
  toAgrees := by
    have hlow : i.stack.length - (j + k) = i'.stack.length - k := by rw [h.ends.2]; omega
    rw [hlow]
    exact (h.toAgrees.mono (by rw [h.ends.2]; omega)).trans h'.toAgrees
  ends := by
    have := h'.ends
    rw [h.ends.1, h.ends.2, Nat.sub_sub] at this
    exact this

theorem turned_same (hupvalues : i'.upvalues = i.upvalues)
    (hclosures : ∀ (a : Nat) r, i'.objects[a]? = some (.closure r) ↔ i.objects[a]? = some (.closure r))
    (hstack : i'.stack = i.stack) (hcalls : i'.calls = i.calls) : i.Turned 0 .drops i' where
  upvalues := hupvalues
  closures := hclosures
  stack := by rw [hstack]
  ends := ⟨hcalls, by rw [hstack]; rfl⟩

theorem turned_refl (i : Ideal) : i.Turned 0 .drops i :=
  turned_same rfl (fun _ _ => Iff.rfl) rfl rfl

theorem calls_moved (ip : Nat) : (i.moved ip).calls = i.calls := by
  unfold calls moved
  cases i.frames <;> rfl

theorem turned_moved (ip : Nat) : i.Turned 0 .drops (i.moved ip) :=
  turned_same rfl (fun _ _ => Iff.rfl) rfl (calls_moved ip)

theorem Turned.of_moved {ip : Nat} (h : (i.moved ip).Turned k e i') : i.Turned k e i' := by
  have := (i.turned_moved ip).trans h
  rwa [Nat.zero_add] at this

theorem turned_create (ho : ∀ r, o ≠ .closure r) : i.Turned 0 .drops { i with objects := i.objects ++ [o] } := by
  refine turned_same rfl (fun a r => ⟨fun ha => ?_, fun ha => getElem?_append_of_some ha _⟩) rfl rfl
  rcases getElem?_snoc ha with ha | ⟨-, hr⟩
  · exact ha
  · exact absurd hr.symm (ho r)

theorem turned_setObject (ha : ∀ r, i.objects[a]? ≠ some (.closure r)) (ho : ∀ r, o ≠ .closure r) :
    i.Turned 0 .drops { i with objects := i.objects.set a o } := by
  refine turned_same rfl (fun b r => ?_) rfl rfl
  by_cases hab : a = b
  · subst hab
    refine ⟨fun h => ?_, fun h => absurd h (ha r)⟩
    have hmem : (i.objects.set a o)[a]? = some (.closure r) := h
    rw [List.getElem?_set_self' ] at hmem
    cases hold : i.objects[a]? with
    | none => rw [hold] at hmem; cases hmem
    | some x =>
      rw [hold] at hmem
      exact absurd (Option.some.inj hmem) (ho r)
  · show (i.objects.set a o)[b]? = _ ↔ _
    rw [List.getElem?_set_ne hab]

end Ideal

namespace IdealM

variable {α β : Type} {i : Ideal} {j k : Nat} {e : Ending}

def Brings (i : Ideal) (x : IdealM α) (P : α → Ideal → Prop) : Prop :=
  ∀ a i', x i = .ok a i' → P a i'

namespace Brings

variable {x : IdealM α} {f : α → IdealM β} {M : α → Ideal → Prop} {P : β → Ideal → Prop}

theorem bind (hx : Brings i x M) (hf : ∀ a i', M a i' → Brings i' (f a) P) : Brings i (x >>= f) P := by
  intro b i'' hrun
  rw [runBind] at hrun
  cases hr : x i with
  | ok a i' =>
    rw [hr] at hrun
    exact hf a i' (hx a i' hr) b i'' hrun
  | error s i' =>
    rw [hr] at hrun
    cases hrun

theorem pure {b : β} (h : P b i) : Brings i (Pure.pure b) P := by
  rintro _ _ ⟨⟩
  exact h

theorem imp {Q : α → Ideal → Prop} (h : Brings i x M) (himp : ∀ a i', M a i' → Q a i') : Brings i x Q :=
  fun a i' hrun => himp a i' (h a i' hrun)

theorem stop {f : Fault} : Brings i (IdealM.stop f : IdealM β) P := nofun

theorem raise {p : RuntimeProblem} : Brings i (IdealM.raise p : IdealM β) P := by
  unfold IdealM.raise
  refine bind (M := fun _ _ => True) (fun _ _ _ => trivial) fun _ _ _ => ?_
  exact bind (M := fun _ _ => True) (fun _ _ _ => trivial) fun _ _ _ => nofun

theorem step {a : α} {i' : Ideal} (hx : x i = .ok a i') (hf : Brings i' (f a) P) : Brings i (x >>= f) P := by
  refine bind (M := fun b i'' => b = a ∧ i'' = i') (fun b i'' hrun => ?_) ?_
  · rw [hx] at hrun
    cases hrun
    exact ⟨rfl, rfl⟩
  · rintro _ _ ⟨rfl, rfl⟩
    exact hf

theorem get {f : Ideal → IdealM β} (hf : Brings i (f i) P) : Brings i (MonadState.get >>= f) P :=
  step rfl hf

theorem ofOption {o : Option β} (h : ∀ b, o = some b → P b i) : Brings i (IdealM.ofOption o) P := by
  cases o with
  | none => exact stop
  | some b => exact pure (h b rfl)

theorem object {a : Nat} : Brings i (IdealM.object a) fun o i' => i' = i ∧ i.objects[a]? = some o :=
  get (ofOption fun _ ho => ⟨rfl, ho⟩)

theorem classAt {a : Nat} : Brings i (IdealM.classAt a) fun c i' => i' = i ∧
    i.objects[a]? = some (.class_ c.1 c.2) := by
  refine object.bind ?_
  rintro o i' ⟨rfl, ho⟩
  cases o with
  | class_ name methods => exact pure ⟨rfl, ho⟩
  | _ => exact stop

theorem instanceOr {p : RuntimeProblem} {v : Val} : Brings i (IdealM.instanceOr p v) fun x i' => i' = i ∧
    i.objects[x.1]? = some (.instance_ x.2.1 x.2.2) := by
  cases v with
  | object a =>
    refine get ?_
    split
    · rename_i ha
      exact pure ⟨rfl, ha⟩
    · exact raise
  | _ => exact raise

end Brings

def Turns (k : Nat) (e : Ending) (x : IdealM α) : Prop :=
  ∀ i, Brings i x fun _ i' => i.Turned k e i'

class Idle (x : IdealM α) : Prop where
  turns : Turns 0 .drops x

theorem Turns.bind {x : IdealM α} {f : α → IdealM β} (hx : Turns j .drops x) (hf : ∀ a, Turns k e (f a)) :
    Turns (j + k) e (x >>= f) :=
  fun i => (hx i).bind fun a i' h => (hf a i').imp fun _ _ h' => h.trans h'

theorem Turns.idle_bind {x : IdealM α} {f : α → IdealM β} [hx : Idle x] (hf : ∀ a, Turns k e (f a)) :
    Turns k e (x >>= f) := by
  have := hx.turns.bind hf
  rwa [Nat.zero_add] at this

theorem turns_stop (f : Fault) : Turns k e (stop f : IdealM α) := fun _ => .stop

theorem turns_raise (p : RuntimeProblem) : Turns k e (raise p : IdealM α) := fun _ => .raise

theorem turns_push (v : Val) : Turns 0 .fills (push v) := by
  rintro i _ _ ⟨⟩
  refine ⟨⟨rfl, fun _ _ => Iff.rfl, ?_⟩, rfl, ?_⟩
  · exact List.take_append_of_le_length (Nat.sub_le _ _)
  · simp

section Idle

variable {x : IdealM α}

instance {f : α → IdealM β} [Idle x] [hf : ∀ a, Idle (f a)] : Idle (x >>= f) :=
  ⟨.idle_bind fun a => (hf a).turns⟩

instance (a : α) : Idle (pure a : IdealM α) := ⟨fun i => .pure i.turned_refl⟩

instance : Idle (get : IdealM Ideal) := ⟨fun i => by rintro _ _ ⟨⟩; exact i.turned_refl⟩

instance (f : Fault) : Idle (stop f : IdealM α) := ⟨turns_stop f⟩

instance (p : RuntimeProblem) : Idle (raise p : IdealM α) := ⟨turns_raise p⟩

instance {c : Prop} [Decidable c] {y : IdealM α} [Idle x] [Idle y] : Idle (if c then x else y) := by
  split <;> infer_instance

instance (o : Option α) : Idle (ofOption o) := by
  cases o <;> unfold ofOption <;> infer_instance

instance (d : Nat) : Idle (peek d) := by
  unfold peek
  infer_instance

instance (n : Nat) : Idle (readSlot n) := by
  unfold readSlot
  infer_instance

instance (n : Nat) : Idle (calleeSlot n) := by
  unfold calleeSlot
  infer_instance

instance (text : Bytes) : Idle (print text) :=
  ⟨fun i => by rintro _ _ ⟨⟩; exact Ideal.turned_same rfl (fun _ _ => Iff.rfl) rfl rfl⟩

instance (name : Bytes) (v : Val) : Idle (setGlobal name v) :=
  ⟨fun i => by rintro _ _ ⟨⟩; exact Ideal.turned_same rfl (fun _ _ => Iff.rfl) rfl rfl⟩

instance (a : Nat) : Idle (object a) := by
  unfold object
  infer_instance

instance (a : Nat) : Idle (closureAt a) := by
  unfold closureAt
  have (o : Obj Routine) : Idle (match o with
      | .closure c => return c
      | _ => stop .wrongKind : IdealM Routine) := by split <;> infer_instance
  infer_instance

instance (a : Nat) : Idle (classAt a) := by
  unfold classAt
  have (o : Obj Routine) : Idle (match o with
      | .class_ name methods => return (name, methods)
      | _ => stop .wrongKind : IdealM (Bytes × Dict Nat)) := by split <;> infer_instance
  infer_instance

instance (v : Val) : Idle (asClass v) := by
  cases v <;> unfold asClass <;> infer_instance

instance : Idle frame := by
  unfold frame
  infer_instance

instance (ip : Nat) : Idle (jumpTo ip) :=
  ⟨fun i => by rintro _ _ ⟨⟩; exact i.turned_moved ip⟩

instance : Idle prototype := by
  unfold prototype
  infer_instance

instance : Idle readByte := by
  unfold readByte
  infer_instance

instance : Idle readShort := by
  unfold readShort
  infer_instance

instance : Idle readConstant := by
  unfold readConstant
  infer_instance

instance : Idle readName := by
  unfold readName
  have (l : Literal) : Idle (match l with
      | .string chars => return chars
      | _ => stop .wrongKind : IdealM Bytes) := by split <;> infer_instance
  infer_instance

instance : Idle readLocal := by
  unfold readLocal
  infer_instance

instance : Idle readCaptured := by
  unfold readCaptured
  infer_instance

instance (u : Nat) : Idle (readUpvalue u) := by
  unfold readUpvalue
  have (c : Captured) : Idle (match c with
      | .slot n => readSlot n
      | .closed v => return v : IdealM Val) := by split <;> infer_instance
  infer_instance

instance (v : Val) : Idle (textOf v) := by
  unfold textOf
  infer_instance

instance (p : RuntimeProblem) (v : Val) : Idle (instanceOr p v) where
  turns i := Brings.instanceOr.imp fun _ _ h => h.1 ▸ i.turned_refl

instance (p : RuntimeProblem) (v : Val) : Idle (methodsOr p v) := by
  unfold methodsOr
  cases v with
  | object a =>
    have (i : Ideal) : Idle (match i.objects[a]? with
        | some (.class_ _ methods) => return methods
        | _ => raise p : IdealM (Dict Nat)) := by split <;> infer_instance
    infer_instance
  | _ => infer_instance

instance (class_ : Nat) (name : Bytes) : Idle (findMethod class_ name) := by
  unfold findMethod
  have (c : Bytes × Dict Nat) : Idle (match c.2 name with
      | some m => return m
      | none => raise (.undefinedProperty name) : IdealM Nat) := by split <;> infer_instance
  infer_instance

instance : Idle elapsed := by
  refine ⟨fun i => ?_⟩
  rintro _ _ ⟨⟩
  exact ⟨⟨rfl, fun _ _ => Iff.rfl, rfl⟩, rfl, rfl⟩

instance (f : HostFunction) : Idle (host f) := by
  cases f <;> unfold host <;> infer_instance

theorem idle_create {o : Obj Routine} (ho : ∀ r, o ≠ .closure r) : Idle (create o) :=
  ⟨fun i => by rintro _ _ ⟨⟩; exact Ideal.turned_create ho⟩

theorem turns_pop : Turns 1 .drops pop := by
  unfold pop
  refine .idle_bind fun v i => ?_
  rintro _ _ ⟨⟩
  refine ⟨⟨rfl, fun _ _ => Iff.rfl, ?_⟩, rfl, ?_⟩
  · show i.stack.dropLast.take _ = _
    rw [List.dropLast_eq_take, List.take_take, Nat.min_self]
  · exact List.length_dropLast

theorem turns_popNumber : Turns 1 .drops popNumber := by
  unfold popNumber
  refine turns_pop.bind (k := 0) fun v => ?_
  split <;> exact Idle.turns

end Idle

end IdealM

end Lox

namespace Lox

namespace IdealM

open Lox.Ideal

variable {α β : Type} {i : Ideal} {k : Nat} {e : Ending}

namespace Brings

variable {n d : Nat} {v : Val}

theorem peek : Brings i (IdealM.peek d) fun v i' => i' = i ∧ i.stack.reverse[d]? = some v := by
  rintro v i' hrun
  rw [peek_eq] at hrun
  split at hrun
  · rename_i hlt
    cases hv : i.stack[i.stack.length - 1 - d]? <;> rw [hv] at hrun <;> cases hrun
    exact ⟨rfl, by rw [List.getElem?_reverse (by omega), hv]⟩
  · cases hrun

theorem readSlot : Brings i (IdealM.readSlot n) fun v i' => i' = i ∧ i.stack[n]? = some v :=
  get (ofOption fun _ hv => ⟨rfl, hv⟩)

theorem writeSlot : Brings i (IdealM.writeSlot n v) fun _ i' => n < i.stack.length ∧
    i' = { i with stack := i.stack.set n v } := by
  unfold IdealM.writeSlot
  refine get ?_
  split
  · exact stop.bind (M := fun _ _ => False) fun _ _ => False.elim
  · rintro _ _ ⟨⟩
    exact ⟨by omega, rfl⟩

theorem calleeSlot : Brings i (IdealM.calleeSlot n) fun base i' => i' = i ∧ i.floor + n < i.stack.length ∧
    base = i.stack.length - 1 - n := by
  unfold IdealM.calleeSlot
  refine get ?_
  split
  · rename_i hlt
    exact pure ⟨rfl, hlt, rfl⟩
  · exact stop

theorem frame : Brings i IdealM.frame fun f i' => i' = i ∧ i.frames.head? = some f :=
  get (ofOption fun _ hf => ⟨rfl, hf⟩)

theorem closureAt {a : Nat} : Brings i (IdealM.closureAt a) fun r i' => i' = i ∧ i.objects[a]? = some (.closure r) := by
  refine object.bind ?_
  rintro o i' ⟨rfl, ho⟩
  cases o with
  | closure r => exact pure ⟨rfl, ho⟩
  | _ => exact stop

theorem prototype : Brings i IdealM.prototype fun p i' => i' = i ∧ ∃ f r, i.frames.head? = some f ∧
    i.objects[f.closure]? = some (.closure r) ∧ r.prototype = p := by
  refine frame.bind ?_
  rintro f i' ⟨rfl, hf⟩
  refine closureAt.bind ?_
  rintro r i' ⟨rfl, hr⟩
  exact pure ⟨rfl, f, r, hf, hr, rfl⟩

theorem readByte : Brings i IdealM.readByte fun b i' => ∃ f r, i.frames.head? = some f ∧
    i.objects[f.closure]? = some (.closure r) ∧ r.prototype.code[f.ip]? = some b ∧ i' = i.moved (f.ip + 1) := by
  refine frame.bind ?_
  rintro f i' ⟨rfl, hf⟩
  refine prototype.bind ?_
  rintro p i' ⟨rfl, f', r, hf', hr, rfl⟩
  rw [hf] at hf'
  cases hf'
  refine (ofOption (P := fun b j => j = i' ∧ r.prototype.code[f.ip]? = some b) fun _ hb => ⟨rfl, hb⟩).bind ?_
  rintro b i' ⟨rfl, hb⟩
  rintro _ _ ⟨⟩
  exact ⟨f, r, hf, hr, hb, rfl⟩

theorem readConstant : Brings i IdealM.readConstant fun _ i' => ∃ ip, i' = i.moved ip := by
  refine readByte.bind ?_
  rintro b _ ⟨f, r, -, -, -, rfl⟩
  refine prototype.bind ?_
  rintro p i' ⟨rfl, -⟩
  exact ofOption fun _ _ => ⟨_, rfl⟩

theorem readName : Brings i IdealM.readName fun _ i' => ∃ ip, i' = i.moved ip := by
  refine readConstant.bind ?_
  rintro l i' hip
  split
  · exact pure hip
  · exact stop

end Brings

theorem turns_raise_bind (p : RuntimeProblem) (f : α → IdealM β) : Turns k e (raise p >>= f) :=
  fun _ => Brings.raise.bind (M := fun _ _ => False) fun _ _ => False.elim

theorem turns_drop : Turns 1 .drops (do let _ ← pop) :=
  turns_pop.bind (k := 0) fun _ => Idle.turns

theorem turns_constant : Turns 0 .fills constant := by
  unfold constant
  refine .idle_bind fun l => ?_
  split
  · exact turns_push _
  · exact turns_push _
  · exact turns_stop _

theorem turns_getLocal : Turns 0 .fills getLocal :=
  .idle_bind fun _ => .idle_bind fun v => turns_push v

theorem turns_getGlobal : Turns 0 .fills getGlobal := by
  unfold getGlobal
  refine .idle_bind fun name => .idle_bind fun i => ?_
  split
  · exact turns_push _
  · exact turns_raise _

theorem turns_defineGlobal : Turns 1 .drops defineGlobal :=
  .idle_bind fun _ => .idle_bind fun _ => .idle_bind fun _ => turns_drop

theorem turns_assignGlobal : Turns 0 .drops assignGlobal := by
  unfold assignGlobal
  refine .idle_bind fun name => .idle_bind fun v => .idle_bind fun i => ?_
  split
  · exact Idle.turns
  · exact turns_raise _

theorem turns_getUpvalue : Turns 0 .fills getUpvalue :=
  .idle_bind fun _ => .idle_bind fun v => turns_push v

theorem turns_bindMethod (class_ : Nat) (name : Bytes) : Turns 1 .fills (bindMethod class_ name) := by
  have hcreate (receiver : Val) (m : Nat) : Idle (create (.bound receiver m)) := idle_create nofun
  exact .idle_bind fun _ => .idle_bind fun _ => .idle_bind fun _ => .idle_bind fun _ =>
    turns_pop.bind fun _ => turns_push _

theorem turns_getProperty : Turns 1 .fills getProperty := by
  unfold getProperty
  refine .idle_bind fun v => .idle_bind fun x => .idle_bind fun name => ?_
  split
  · exact turns_pop.bind fun _ => turns_push _
  · exact turns_bindMethod _ _

theorem turns_setProperty : Turns 2 .fills setProperty := by
  intro i
  unfold setProperty
  refine Brings.peek.bind ?_
  rintro v _ ⟨rfl, -⟩
  refine Brings.instanceOr.bind ?_
  rintro ⟨a, class_, fields⟩ i ⟨rfl, ha⟩
  refine Brings.readName.bind ?_
  rintro name _ ⟨ip, rfl⟩
  refine Brings.peek.bind ?_
  rintro value _ ⟨rfl, -⟩
  have hset := turned_setObject (i := i.moved ip) (o := .instance_ class_ (fields.set name value))
    (a := a) (fun r hr => by rw [moved_objects, ha] at hr; cases hr) nofun
  have hturns : Turns 2 .fills (do
      let value ← pop
      let _ ← pop
      push value) := turns_pop.bind fun _ => turns_pop.bind fun _ => turns_push _
  refine .step rfl ((hturns _).imp fun _ _ h => ?_)
  exact (((turned_moved ip).trans hset).trans h)

theorem turns_popClass : Turns 1 .drops popClass :=
  turns_pop.bind (k := 0) fun _ => Idle.turns

theorem turns_getSuper : Turns 2 .fills getSuper :=
  .idle_bind fun _ => turns_popClass.bind fun _ => turns_bindMethod _ _

theorem turns_equal : Turns 2 .fills equal :=
  turns_pop.bind fun _ => turns_pop.bind fun _ => turns_push _

theorem turns_numeric (f : Float → Float → Val) : Turns 2 .fills (numeric f) := by
  unfold numeric
  refine .idle_bind fun x => .idle_bind fun y => ?_
  split
  · exact turns_popNumber.bind fun _ => turns_popNumber.bind fun _ => turns_push _
  · exact turns_raise_bind _ _

theorem turns_add : Turns 2 .fills add := by
  unfold add
  refine .idle_bind fun x => .idle_bind fun y => ?_
  split
  · exact turns_pop.bind fun _ => turns_pop.bind fun _ => turns_push _
  · exact turns_popNumber.bind fun _ => turns_popNumber.bind fun _ => turns_push _
  · exact turns_raise _

theorem turns_negate : Turns 1 .fills negate := by
  unfold negate
  refine .idle_bind fun x => ?_
  split
  · exact turns_popNumber.bind fun _ => turns_push _
  · exact turns_raise_bind _ _

theorem turns_not : Turns 1 .fills (do push (.bool (← pop).isFalsey)) :=
  turns_pop.bind fun _ => turns_push _

theorem turns_printTop : Turns 1 .drops printTop :=
  turns_pop.bind (k := 0) fun _ => Idle.turns

instance (distance : Nat) : Idle (jump distance) := by
  unfold jump
  infer_instance

instance : Idle jumpIfFalse := by
  unfold jumpIfFalse
  infer_instance

instance : Idle jumpBack := by
  unfold jumpBack
  infer_instance

theorem turns_makeClass : Turns 0 .fills makeClass := by
  have hcreate (name : Bytes) : Idle (create (.class_ name .empty)) := idle_create nofun
  exact .idle_bind fun _ => .idle_bind fun _ => turns_push _

theorem brings_setClass {a : Nat} {name name' : Bytes} {methods methods' : Dict Nat}
    (ha : i.objects[a]? = some (.class_ name methods)) : Brings i (do
      setObject a (.class_ name' methods')
      let _ ← pop) fun _ i' => i.Turned 1 .drops i' := by
  have hset := turned_setObject (i := i) (o := .class_ name' methods') (a := a)
    (fun r hr => by rw [ha] at hr; cases hr) nofun
  refine .step rfl ((turns_drop _).imp fun _ _ h => ?_)
  have := hset.trans h
  rwa [Nat.zero_add] at this

theorem turns_inherit : Turns 1 .drops inherit := by
  unfold inherit
  refine .idle_bind fun v => .idle_bind fun methods => .idle_bind fun v => .idle_bind fun a i => ?_
  refine Brings.classAt.bind ?_
  rintro ⟨name, own⟩ i' ⟨rfl, ha⟩
  exact brings_setClass ha

theorem turns_defineMethod : Turns 1 .drops defineMethod := by
  unfold defineMethod
  refine .idle_bind fun name => .idle_bind fun v => ?_
  split
  · refine .idle_bind fun r => .idle_bind fun v => .idle_bind fun a i => ?_
    refine Brings.classAt.bind ?_
    rintro ⟨className, methods⟩ i' ⟨rfl, ha⟩
    exact brings_setClass ha
  · exact turns_stop _

theorem turns_call (closure count : Nat) : Turns (count + 1) .enters (call closure count) := by
  unfold call
  refine .idle_bind fun r => ?_
  dsimp only
  split
  · exact turns_raise_bind _ _
  · intro i
    refine .get (Brings.calleeSlot.bind ?_)
    rintro base i' ⟨rfl, hlt, rfl⟩
    split
    · exact turns_raise_bind _ _ _
    · rintro _ _ ⟨⟩
      refine ⟨⟨rfl, fun _ _ => Iff.rfl, rfl⟩, ⟨closure, ?_⟩, Nat.sub_le _ _⟩
      show (closure, i'.stack.length - 1 - count) :: i'.calls = _
      rw [show i'.stack.length - 1 - count = i'.stack.length - (count + 1) by omega]

theorem agrees_callee {count : Nat} (v : Val) :
    i.Agrees (i.stack.length - (count + 1)) { i with stack := i.stack.set (i.stack.length - 1 - count) v } where
  upvalues := rfl
  closures _ _ := Iff.rfl
  stack := List.take_set_of_le (by omega)

def Answers (count : Nat) (x : IdealM α) : Prop :=
  ∀ i, Brings i x fun _ i' => i.Turned (count + 1) .fills i' ∨ i.Turned (count + 1) .enters i'

theorem answers_callNative (n : Native) (count : Nat) : Answers count (callNative n count) := by
  have hrest : Turns (count + 1) .fills (do
      let result ← host n.behaviour
      let base ← calleeSlot count
      modify fun i => { i with stack := i.stack.take base }
      push result) := by
    refine .idle_bind fun result i => Brings.calleeSlot.bind ?_
    rintro base i' ⟨rfl, hlt, rfl⟩
    have htake : i'.Turned (count + 1) .drops { i' with stack := i'.stack.take (i'.stack.length - 1 - count) } := by
      rw [show i'.stack.length - 1 - count = i'.stack.length - (count + 1) by omega]
      refine ⟨⟨rfl, fun _ _ => Iff.rfl, ?_⟩, rfl, ?_⟩
      · exact List.take_take.trans (by rw [Nat.min_self])
      · exact List.length_take_of_le (Nat.sub_le _ _)
    exact .step rfl ((turns_push result _).imp fun _ _ h => htake.trans h)
  have hturns : Turns (count + 1) .fills (callNative n count) := by
    unfold callNative
    split
    · split
      · exact turns_raise_bind _ _
      · exact hrest
    · exact hrest
  exact fun i => (hturns i).imp fun _ _ => .inl

theorem answers_construct (a count : Nat) : Answers count (construct a count) := by
  intro i
  unfold construct
  refine .step rfl (Brings.calleeSlot.bind ?_)
  rintro base i₁ ⟨rfl, hlt, rfl⟩
  refine Brings.writeSlot.bind ?_
  rintro _ i₂ ⟨hlt', rfl⟩
  refine Brings.classAt.bind ?_
  rintro c i₃ ⟨rfl, -⟩
  have hcreate := turned_create (i := i) (o := .instance_ a .empty) nofun
  have hagrees : i.Agrees (i.stack.length - (count + 1)) { i with
      objects := i.objects ++ [.instance_ a .empty]
      stack := i.stack.set (i.stack.length - 1 - count) (.object i.objects.length) } :=
    (hcreate.toAgrees.mono (Nat.sub_le_sub_left (Nat.zero_le _) _)).trans (agrees_callee _)
  split
  · refine (turns_call _ count _).imp fun _ i' h => .inr ?_
    exact hagrees.turned rfl List.length_set h
  · split
    · exact .raise
    · rename_i hcount
      obtain rfl : count = 0 := by omega
      refine .pure (.inl ⟨hagrees, rfl, ?_⟩)
      show (i.stack.set _ _).length = _
      rw [List.length_set]
      have : i.floor + 0 < i.stack.length := hlt
      omega

theorem answers_callValue (callee : Val) (count : Nat) : Answers count (callValue callee count) := by
  intro i
  unfold callValue
  split
  · refine .get ?_
    split
    · refine Brings.calleeSlot.bind ?_
      rintro base i₁ ⟨rfl, -, rfl⟩
      refine Brings.writeSlot.bind ?_
      rintro _ i₂ ⟨-, rfl⟩
      refine (turns_call _ count _).imp fun _ i' h => .inr ?_
      exact (agrees_callee _).turned rfl List.length_set h
    · exact answers_construct _ count i
    · exact (turns_call _ count i).imp fun _ _ => .inr
    · exact answers_callNative _ count i
    · exact .raise
  · exact .raise

theorem turns_invokeFromClass (class_ : Nat) (name : Bytes) (count : Nat) :
    Turns (count + 1) .enters (invokeFromClass class_ name count) :=
  .idle_bind fun _ => turns_call _ count

theorem answers_invoke (name : Bytes) (count : Nat) : Answers count (invoke name count) := by
  intro i
  unfold invoke
  refine Brings.peek.bind ?_
  rintro v i₁ ⟨rfl, -⟩
  refine Brings.instanceOr.bind ?_
  rintro ⟨a, class_, fields⟩ i₂ ⟨rfl, -⟩
  dsimp only
  split
  · refine Brings.calleeSlot.bind ?_
    rintro base i₃ ⟨rfl, -, rfl⟩
    refine Brings.writeSlot.bind ?_
    rintro _ i₄ ⟨-, rfl⟩
    refine (answers_callValue _ count _).imp fun _ i' h => ?_
    exact h.imp ((agrees_callee _).turned rfl List.length_set) ((agrees_callee _).turned rfl List.length_set)
  · exact (turns_invokeFromClass _ _ count _).imp fun _ _ => .inr

end IdealM

end Lox

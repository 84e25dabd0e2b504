import Lox.Proofs.Ideal.Step
import Lox.Proofs.Machine.Values

namespace Lox.IdealM

variable {α β : Type}

class Grows (act : IdealM α) : Prop where
  le : ∀ i, i.objects.length ≤ (finalState (act i)).objects.length

namespace Grows

theorem bind {x : IdealM α} {f : α → IdealM β} [hx : Grows x] (hf : ∀ a, Grows (f a)) : Grows (x >>= f) where
  le i := by
    rw [runBind]
    have h₁ := hx.le i
    cases hxr : x i with
    | error e i' =>
      rw [hxr] at h₁
      exact h₁
    | ok a i' =>
      rw [hxr] at h₁
      exact Nat.le_trans h₁ ((hf a).le i')

instance {x : IdealM α} {f : α → IdealM β} [Grows x] [hf : ∀ a, Grows (f a)] : Grows (x >>= f) :=
  bind hf

instance {x : IdealM α} (f : α → β) [hx : Grows x] : Grows (f <$> x) where
  le i := by
    have h₁ := hx.le i
    show _ ≤ (finalState (EStateM.map f x i)).objects.length
    unfold EStateM.map
    cases hxr : x i <;> rw [hxr] at h₁ <;> exact h₁

instance (a : α) : Grows (pure a : IdealM α) := ⟨fun _ => Nat.le_refl _⟩

instance : Grows (get : IdealM Ideal) := ⟨fun _ => Nat.le_refl _⟩

instance (e : Stop) : Grows (throw e : IdealM α) := ⟨fun _ => Nat.le_refl _⟩

instance (f : Fault) : Grows (stop f : IdealM α) := ⟨fun _ => Nat.le_refl _⟩

instance {c : Prop} [Decidable c] {x y : IdealM α} [hx : Grows x] [hy : Grows y] : Grows (if c then x else y) := by
  split
  · exact hx
  · exact hy

instance {f : α → IdealM β} [hf : ∀ a, Grows (f a)] (as : List α) : Grows (as.mapM f) := by
  induction as with
  | nil =>
    rw [List.mapM_nil]
    infer_instance
  | cons a as ih =>
    rw [List.mapM_cons]
    infer_instance

theorem modify {f : Ideal → Ideal} (hf : ∀ i, i.objects.length ≤ (f i).objects.length) :
    Grows (modify f : IdealM Unit) :=
  ⟨hf⟩

theorem modifyGet {f : Ideal → α × Ideal} (hf : ∀ i, i.objects.length ≤ (f i).2.objects.length) :
    Grows (modifyGet f : IdealM α) :=
  ⟨hf⟩

instance (o : Option α) : Grows (ofOption o) := by
  cases o
  · exact (inferInstance : Grows (stop .missing))
  · exact (inferInstance : Grows (pure _))

end Grows

instance (v : Val) : Grows (push v) := .modify fun _ => Nat.le_refl _

instance (d : Nat) : Grows (peek d) := by unfold peek; infer_instance

instance : Grows pop := by
  have : Grows (modify fun i : Ideal => { i with stack := i.stack.dropLast }) := .modify fun _ => Nat.le_refl _
  unfold pop
  infer_instance

instance (n : Nat) : Grows (readSlot n) := by unfold readSlot; infer_instance

instance (n : Nat) (v : Val) : Grows (writeSlot n v) := by
  have : Grows (modify fun i : Ideal => { i with stack := i.stack.set n v }) := .modify fun _ => Nat.le_refl _
  unfold writeSlot
  infer_instance

instance (count : Nat) : Grows (calleeSlot count) := by unfold calleeSlot; infer_instance

instance (text : Bytes) : Grows (print text) := .modify fun _ => Nat.le_refl _

instance (a : Nat) : Grows (object a) := by unfold object; infer_instance

instance (a : Nat) : Grows (closureAt a) := by
  have (o : Obj Routine) : Grows (match o with
      | .closure c => (return c : IdealM Routine)
      | _ => stop .wrongKind) := by split <;> infer_instance
  unfold closureAt
  infer_instance

instance (a : Nat) : Grows (classAt a) := by
  have (o : Obj Routine) : Grows (match o with
      | .class_ name methods => (return (name, methods) : IdealM (Bytes × Dict Nat))
      | _ => stop .wrongKind) := by split <;> infer_instance
  unfold classAt
  infer_instance

instance (o : Obj Routine) : Grows (create o) :=
  .modifyGet fun i => by simp

instance (a : Nat) (o : Obj Routine) : Grows (setObject a o) :=
  .modify fun i => by simp

instance (v : Val) : Grows (asClass v) := by
  unfold asClass
  split <;> infer_instance

instance (f : Activation) : Grows (traceLine f) := by unfold traceLine; infer_instance

instance (p : RuntimeProblem) : Grows (raise p : IdealM α) := by unfold raise; infer_instance

instance (name : Bytes) (v : Val) : Grows (setGlobal name v) := .modify fun _ => Nat.le_refl _

instance (closure count : Nat) : Grows (call closure count) := by
  have (base : Nat) : Grows (modify fun i : Ideal => { i with frames := ⟨closure, 0, base⟩ :: i.frames }) :=
    .modify fun _ => Nat.le_refl _
  unfold call
  infer_instance

instance : Grows elapsed := .modifyGet fun _ => Nat.le_refl _

instance (f : HostFunction) : Grows (host f) := by
  unfold host
  split <;> infer_instance

instance (n : Native) (count : Nat) : Grows (callNative n count) := by
  have (base : Nat) : Grows (modify fun i : Ideal => { i with stack := i.stack.take base }) :=
    .modify fun _ => Nat.le_refl _
  unfold callNative
  dsimp only
  split <;> infer_instance

instance (a count : Nat) : Grows (construct a count) := by
  have (o : Option Nat) : Grows (match o with
      | some initializer => call initializer count
      | none => if count ≠ 0 then raise (.arity 0 count) else pure ()) := by split <;> infer_instance
  unfold construct
  infer_instance

instance (callee : Val) (count : Nat) : Grows (callValue callee count) := by
  have (a : Nat) (o : Option (Obj Routine)) : Grows (match o with
      | some (.bound receiver method) => do
        writeSlot (← calleeSlot count) receiver
        call method count
      | some (.class_ ..) => construct a count
      | some (.closure _) => call a count
      | some (.native n) => callNative n count
      | _ => raise .notCallable) := by split <;> infer_instance
  unfold callValue
  split <;> infer_instance

instance (class_ : Nat) (name : Bytes) : Grows (findMethod class_ name) := by
  have (x : Bytes × Dict Nat) : Grows (match x.2 name with
      | some m => (return m : IdealM Nat)
      | none => raise (.undefinedProperty name)) := by split <;> infer_instance
  unfold findMethod
  infer_instance

instance (class_ : Nat) (name : Bytes) (count : Nat) : Grows (invokeFromClass class_ name count) := by
  unfold invokeFromClass
  infer_instance

instance (p : RuntimeProblem) (v : Val) : Grows (instanceOr p v) := by
  have (a : Nat) (o : Option (Obj Routine)) : Grows (match o with
      | some (.instance_ class_ fields) => (return (a, class_, fields) : IdealM (Nat × Nat × Dict Val))
      | _ => raise p) := by split <;> infer_instance
  unfold instanceOr
  split <;> infer_instance

instance (name : Bytes) (count : Nat) : Grows (invoke name count) := by
  have (x : Nat × Nat × Dict Val) : Grows (match x.2.2 name with
      | some value => do
        writeSlot (← calleeSlot count) value
        callValue value count
      | none => invokeFromClass x.2.1 name count) := by split <;> infer_instance
  unfold invoke
  infer_instance

instance (class_ : Nat) (name : Bytes) : Grows (bindMethod class_ name) := by
  unfold bindMethod
  infer_instance

instance (slot : Nat) : Grows (captureUpvalue slot) := by
  have (o : Option (Nat × Nat)) : Grows (match o with
      | some w => (return w.2 : IdealM Nat)
      | none => MonadStateOf.modifyGet fun i : Ideal => (i.upvalues.length, { i with
        upvalues := i.upvalues ++ [.slot slot]
        openUpvalues := insertUpvalue slot i.upvalues.length i.openUpvalues })) := by
    split
    · infer_instance
    · exact .modifyGet fun _ => Nat.le_refl _
  unfold captureUpvalue
  infer_instance

instance (last : Nat) (us : List (Nat × Nat)) : Grows (closeFrom last us) := by
  induction us with
  | nil => exact (inferInstance : Grows (pure ()))
  | cons u rest ih =>
    have (v : Val) : Grows (modify fun i : Ideal => { i with
        upvalues := i.upvalues.set u.2 (.closed v), openUpvalues := rest }) := .modify fun _ => Nat.le_refl _
    unfold closeFrom
    infer_instance

instance (last : Nat) : Grows (closeUpvalues last) := by unfold closeUpvalues; infer_instance

instance (u : Nat) : Grows (readUpvalue u) := by
  have (c : Captured) : Grows (match c with
      | .slot n => readSlot n
      | .closed v => (return v : IdealM Val)) := by split <;> infer_instance
  unfold readUpvalue
  infer_instance

instance (u : Nat) (v : Val) : Grows (writeUpvalue u v) := by
  have (c : Captured) : Grows (match c with
      | .slot n => writeSlot n v
      | .closed _ => modify fun i : Ideal => { i with upvalues := i.upvalues.set u (.closed v) }) := by
    split
    · infer_instance
    · exact .modify fun _ => Nat.le_refl _
  unfold writeUpvalue
  infer_instance

instance : Grows frame := by unfold frame; infer_instance

instance (ip : Nat) : Grows (jumpTo ip) := .modify fun _ => Nat.le_refl _

instance : Grows prototype := by unfold prototype; infer_instance

instance : Grows readByte := by unfold readByte; infer_instance

instance : Grows readShort := by unfold readShort; infer_instance

instance : Grows readConstant := by unfold readConstant; infer_instance

instance : Grows readName := by
  have (k : Literal) : Grows (match k with
      | .string chars => (return chars : IdealM Bytes)
      | _ => stop .wrongKind) := by split <;> infer_instance
  unfold readName
  infer_instance

instance : Grows readLocal := by unfold readLocal; infer_instance

instance : Grows readCaptured := by unfold readCaptured; infer_instance

instance : Grows getGlobal := by
  have (name : Bytes) (o : Option Val) : Grows (match o with
      | some v => push v
      | none => raise (.undefinedVariable name)) := by split <;> infer_instance
  unfold getGlobal
  infer_instance

instance : Grows assignGlobal := by
  have (name : Bytes) (v : Val) (o : Option Val) : Grows (match o with
      | some _ => setGlobal name v
      | none => raise (.undefinedVariable name)) := by split <;> infer_instance
  unfold assignGlobal
  infer_instance

instance : Grows getProperty := by
  have (x : Nat × Nat × Dict Val) (name : Bytes) : Grows (match x.2.2 name with
      | some v => do
        let _ ← pop
        push v
      | none => bindMethod x.2.1 name) := by split <;> infer_instance
  unfold getProperty
  infer_instance

instance : Grows setProperty := by unfold setProperty; infer_instance

instance : Grows popClass := by unfold popClass; infer_instance

instance : Grows popNumber := by
  have (v : Val) : Grows (match v with
      | .number bits => (return Float.ofBits bits : IdealM Float)
      | _ => stop .notNumber) := by split <;> infer_instance
  unfold popNumber
  infer_instance

instance (f : Float → Float → Val) : Grows (numeric f) := by unfold numeric; infer_instance

instance : Grows add := by
  have (x y : Val) : Grows (match x, y with
      | .string b, .string a => do
        let _ ← pop
        let _ ← pop
        push (.string (a ++ b))
      | .number _, .number _ => do
        let b ← popNumber
        let a ← popNumber
        push (.ofFloat (a + b))
      | _, _ => raise .operandsNotAddable) := by split <;> infer_instance
  unfold add
  infer_instance

instance (v : Val) : Grows (textOf v) := by unfold textOf; infer_instance

instance (distance : Nat) : Grows (jump distance) := by unfold jump; infer_instance

instance (closure i left : Nat) : Grows (fillCaptures closure i left) := by
  induction left generalizing i with
  | zero => exact (inferInstance : Grows (pure ()))
  | succ left ih =>
    unfold fillCaptures
    infer_instance

instance : Grows makeClosure := by
  have (k : Literal) : Grows (match k with
      | .function p => do
        if HeapM.maxCaptures < p.captures then stop .oversize
        let closure ← create (.closure ⟨p, List.replicate p.captures none⟩)
        push (.object closure)
        fillCaptures closure 0 p.captures
      | _ => stop .wrongKind) := by split <;> infer_instance
  unfold makeClosure
  infer_instance

instance : Grows closeTop := by unfold closeTop; infer_instance

instance : Grows leave := by
  have hpop : Grows (modify fun i => { i with frames := i.frames.tail } : IdealM Unit) :=
    .modify fun _ => Nat.le_refl _
  have hcut (n : Nat) (v : Val) : Grows (modify fun i => { i with stack := i.stack.take n ++ [v] } : IdealM Unit) :=
    .modify fun _ => Nat.le_refl _
  unfold leave
  dsimp only
  exact .bind fun f => .bind fun result => .bind fun _ => .bind fun _ => inferInstance

instance (p : RuntimeProblem) (v : Val) : Grows (methodsOr p v) := by
  have (o : Option (Obj Routine)) : Grows (match o with
      | some (.class_ _ methods) => (return methods : IdealM (Dict Nat))
      | _ => raise p) := by split <;> infer_instance
  unfold methodsOr
  split <;> infer_instance

instance : Grows inherit := by unfold inherit; infer_instance

instance : Grows defineMethod := by
  have (name : Bytes) (v : Val) : Grows (match v with
      | .object method => do
        let _ ← closureAt method
        let class_ ← asClass (← peek 1)
        let (className, methods) ← classAt class_
        setObject class_ (.class_ className (methods.set name method))
        let _ ← pop
      | _ => stop .wrongKind) := by split <;> infer_instance
  unfold defineMethod
  infer_instance

instance : Grows constant := by
  have (k : Literal) : Grows (match k with
      | .number v => push (.number v.bits)
      | .string chars => push (.string chars)
      | .function _ => stop .wrongKind) := by split <;> infer_instance
  unfold constant
  infer_instance

instance (op : Opcode) : Grows (execute op) := by
  unfold execute
  split <;> first
    | infer_instance
    | (unfold getLocal; infer_instance)
    | (unfold setLocal; infer_instance)
    | (unfold defineGlobal; infer_instance)
    | (unfold getUpvalue; infer_instance)
    | (unfold setUpvalue; infer_instance)
    | (unfold getSuper; infer_instance)
    | (unfold equal; infer_instance)
    | (unfold negate; infer_instance)
    | (unfold printTop; infer_instance)
    | (unfold jumpIfFalse; infer_instance)
    | (unfold jumpBack; infer_instance)
    | (unfold callTop; infer_instance)
    | (unfold invokeTop; infer_instance)
    | (unfold superInvoke; infer_instance)
    | (unfold makeClass; infer_instance)

instance : Grows step := by
  unfold step
  refine .bind fun byte => ?_
  split <;> infer_instance

end Lox.IdealM

import Lox.Proofs.Machine.Balance

namespace Lox

def Frame.advance (n : Nat) (f : Frame) : Frame :=
  { f with ip := f.ip + n }

theorem Frame.advance_advance (a b : Nat) (f : Frame) : (f.advance a).advance b = f.advance (a + b) := by
  simp only [advance, Nat.add_assoc]

@[simp]
theorem Calls.frames_jumpTo {c : Calls} {f : Frame} {rest : List Frame} (h : c.frames = f :: rest) (ip : Nat) :
    (c.jumpTo ip).frames = { f with ip } :: rest := by
  obtain ⟨frames, depth, hdepth⟩ := c
  dsimp only at h
  subst h
  rfl

namespace MachineM

open HeapView

variable {α β : Type}

class Still (act : MachineM α) : Prop where
  calls : ∀ m, (finalState (act m)).calls = m.calls

class Enters (act : MachineM α) : Prop where
  frames : ∀ m, ∃ entered, (finalState (act m)).calls.frames = entered ++ m.calls.frames

class Sure (act : MachineM α) : Prop where
  ok : ∀ m e m', act m ≠ .error (.error e) m'

structure Advances (n : Nat) (act : MachineM α) : Prop where
  sure : Sure act
  frames : ∀ m a m', act m = .ok a m' → ∀ f rest, m.calls.frames = f :: rest →
    m'.calls.frames = f.advance n :: rest

def Fetched (f : Frame) (rest : List Frame) (next : Nat) : EStateM.Result Stop Machine α → Prop
  | .ok _ m => ∃ entered, m.calls.frames = entered ++ { f with ip := next } :: rest
  | .error (.error _) m => m.calls.frames = f :: rest ∨
      ∃ entered, m.calls.frames = entered ++ { f with ip := next } :: rest
  | .error (.fault _) _ => True

def Fetches (n : Nat) (act : MachineM α) : Prop :=
  ∀ m f rest, m.calls.frames = f :: rest → Fetched f rest (f.ip + n) (act m)

namespace Still

instance bind {x : MachineM α} {f : α → MachineM β} [hx : Still x] [hf : ∀ a, Still (f a)] :
    Still (x >>= f) where
  calls m := by
    rw [runBind]
    have h₁ := hx.calls m
    cases hxr : x m with
    | error e m' =>
      rw [hxr] at h₁
      exact h₁
    | ok a m' =>
      rw [hxr] at h₁
      exact ((hf a).calls m').trans h₁

instance {x : MachineM α} (f : α → β) [hx : Still x] : Still (f <$> x) where
  calls m := by
    have h₁ := hx.calls m
    show (finalState (EStateM.map f x m)).calls = m.calls
    unfold EStateM.map
    cases hxr : x m <;> rw [hxr] at h₁ <;> exact h₁

instance (a : α) : Still (pure a : MachineM α) := ⟨fun _ => rfl⟩

instance : Still (get : MachineM Machine) := ⟨fun _ => rfl⟩

instance (e : Stop) : Still (throw e : MachineM α) := ⟨fun _ => rfl⟩

instance (f : Fault) : Still (stop f : MachineM α) := ⟨fun _ => rfl⟩

instance (view : HeapView α) : Still (liftM view : MachineM α) where
  calls m := by
    rw [run_view]
    cases view m.heap <;> rfl

instance {x : MachineM α} {y : MachineM β} [hx : Still x] [hy : Still y] : Still (tryFinally x y) where
  calls m := by
    rw [run_finally]
    have h₁ := hx.calls m
    cases hxr : x m with
    | ok a m' | error a m' =>
      rw [hxr] at h₁
      have h₂ := hy.calls m'
      cases hyr : y m' <;> rw [hyr] at h₂ <;> simp only [hyr] <;> exact h₂.trans h₁

instance {c : Prop} [Decidable c] {x y : MachineM α} [hx : Still x] [hy : Still y] :
    Still (if c then x else y) := by
  split
  · exact hx
  · exact hy

instance {x y : MachineM Bool} [Still x] [Still y] : Still (x <&&> y) := by
  have (b : Bool) : Still (if b then y else pure false) := inferInstance
  refine @bind _ _ x _ _ fun b => ?_
  cases b
  · exact inferInstanceAs (Still (pure false))
  · exact inferInstanceAs (Still y)

instance {f : α → MachineM β} [hf : ∀ a, Still (f a)] (as : List α) : Still (as.mapM f) := by
  induction as with
  | nil =>
    rw [List.mapM_nil]
    infer_instance
  | cons a as ih =>
    rw [List.mapM_cons]
    infer_instance

theorem modify {f : Machine → Machine} (hf : ∀ m, (f m).calls = m.calls) :
    Still (modify f : MachineM Unit) :=
  ⟨hf⟩

theorem modifyGet {f : Machine → α × Machine} (hf : ∀ m, (f m).2.calls = m.calls) :
    Still (modifyGet f : MachineM α) :=
  ⟨hf⟩

instance (act : HeapM α) : Still (onHeap act) where
  calls m := by
    rw [run_onHeap]
    cases act (roots m) m.heap <;> rfl

end Still

namespace Enters

instance (priority := low) {act : MachineM α} [h : Still act] : Enters act where
  frames m := ⟨[], by rw [h.calls m]; rfl⟩

instance bind {x : MachineM α} {f : α → MachineM β} [hx : Enters x] [hf : ∀ a, Enters (f a)] :
    Enters (x >>= f) where
  frames m := by
    rw [runBind]
    obtain ⟨first, h₁⟩ := hx.frames m
    cases hxr : x m with
    | error e m' =>
      rw [hxr] at h₁
      exact ⟨first, h₁⟩
    | ok a m' =>
      rw [hxr] at h₁
      obtain ⟨second, h₂⟩ := (hf a).frames m'
      refine ⟨second ++ first, ?_⟩
      rw [List.append_assoc, ← show m'.calls.frames = first ++ m.calls.frames from h₁]
      exact h₂

instance {c : Prop} [Decidable c] {x y : MachineM α} [hx : Enters x] [hy : Enters y] :
    Enters (if c then x else y) := by
  split
  · exact hx
  · exact hy

end Enters

namespace Sure

instance bind {x : MachineM α} {f : α → MachineM β} [hx : Sure x] [hf : ∀ a, Sure (f a)] :
    Sure (x >>= f) where
  ok m e m₂ h := by
    rw [runBind] at h
    cases hxr : x m with
    | error e' m' =>
      rw [hxr] at h
      cases h
      exact hx.ok m e _ hxr
    | ok a m' =>
      rw [hxr] at h
      exact (hf a).ok m' e m₂ h

instance {x : MachineM α} (f : α → β) [hx : Sure x] : Sure (f <$> x) where
  ok m e m₂ h := by
    change EStateM.map f x m = _ at h
    unfold EStateM.map at h
    cases hxr : x m with
    | ok a m' =>
      rw [hxr] at h
      cases h
    | error e' m' =>
      rw [hxr] at h
      cases h
      exact hx.ok m e _ hxr

instance (a : α) : Sure (pure a : MachineM α) where
  ok m e m' h := by
    change EStateM.Result.ok a m = _ at h
    cases h

instance : Sure (get : MachineM Machine) where
  ok m e m' h := by
    change EStateM.Result.ok m m = _ at h
    cases h

instance (f : Fault) : Sure (stop f : MachineM α) where
  ok m e m' h := by
    change EStateM.Result.error (Stop.fault f) m = _ at h
    cases h

instance (view : HeapView α) : Sure (liftM view : MachineM α) where
  ok m e m' h := by
    rw [run_view] at h
    cases hview : view m.heap <;> rw [hview] at h <;> cases h

instance {c : Prop} [Decidable c] {x y : MachineM α} [hx : Sure x] [hy : Sure y] :
    Sure (if c then x else y) := by
  split
  · exact hx
  · exact hy

instance (f : Machine → Machine) : Sure (modify f : MachineM Unit) where
  ok m e m' h := by
    change EStateM.Result.ok () (f m) = _ at h
    cases h

instance (act : HeapM α) : Sure (onHeap act) where
  ok m e m' h := by
    rw [run_onHeap] at h
    cases hact : act (roots m) m.heap <;> rw [hact] at h <;> cases h

end Sure

theorem bind_eq_ok {x : MachineM α} {f : α → MachineM β} {m m₂ : Machine} {b : β}
    (h : (x >>= f) m = .ok b m₂) : ∃ a m₁, x m = .ok a m₁ ∧ f a m₁ = .ok b m₂ := by
  rw [runBind] at h
  cases hx : x m with
  | ok a m₁ =>
    rw [hx] at h
    exact ⟨a, m₁, rfl, h⟩
  | error e m₁ =>
    rw [hx] at h
    cases h

theorem view_eq_ok {view : HeapView α} {m m' : Machine} {a : α} (h : (liftM view : MachineM α) m = .ok a m') :
    m' = m ∧ view m.heap = .ok a := by
  rw [run_view] at h
  cases hview : view m.heap with
  | ok b =>
    rw [hview] at h
    cases h
    exact ⟨rfl, rfl⟩
  | error e =>
    rw [hview] at h
    cases h

theorem onHeap_eq_ok {act : HeapM α} {m m' : Machine} {a : α} (h : onHeap act m = .ok a m') :
    ∃ h', act (roots m) m.heap = .ok a h' ∧ m' = { m with heap := h' } := by
  rw [run_onHeap] at h
  cases hact : act (roots m) m.heap with
  | ok b h' =>
    rw [hact] at h
    cases h
    exact ⟨h', rfl, rfl⟩
  | error e h' =>
    rw [hact] at h
    cases h

theorem Still.calls_eq {act : MachineM α} [hact : Still act] {m m' : Machine} {a : α} (h : act m = .ok a m') :
    m'.calls = m.calls := by
  have := hact.calls m
  rwa [h] at this

namespace Advances

variable {a b n : Nat} {x : MachineM α} {f : α → MachineM β}

theorem of_still [hx : Still x] [hs : Sure x] : Advances 0 x where
  sure := hs
  frames m a m' h f rest hf := by
    rw [Still.calls_eq h]
    exact hf

theorem bind (hx : Advances a x) (hf : ∀ r, Advances b (f r)) : Advances (a + b) (x >>= f) where
  sure :=
    have := hx.sure
    have := fun r => (hf r).sure
    inferInstance
  frames m r m₂ h g rest hg := by
    obtain ⟨s, m₁, h₁, h₂⟩ := bind_eq_ok h
    rw [(hf s).frames m₁ r m₂ h₂ _ rest (hx.frames m s m₁ h₁ g rest hg), Frame.advance_advance]

theorem then_still (hx : Advances n x) [hf : ∀ r, Still (f r)] [hs : ∀ r, Sure (f r)] :
    Advances n (x >>= f) :=
  hx.bind fun _ => of_still

theorem after_still [Still x] [Sure x] (hf : ∀ r, Advances n (f r)) : Advances n (x >>= f) := by
  have := (of_still (x := x)).bind hf
  rwa [Nat.zero_add] at this

end Advances

namespace Fetches

variable {n : Nat} {x : MachineM α} {f : α → MachineM β}

theorem of_enters [hx : Enters x] : Fetches 0 x := by
  intro m f rest hf
  obtain ⟨entered, h⟩ := hx.frames m
  rw [hf] at h
  cases hxr : x m with
  | ok a m' =>
    rw [hxr] at h
    exact ⟨entered, h⟩
  | error e m' =>
    rw [hxr] at h
    cases e with
    | fault e => trivial
    | error e => exact .inr ⟨entered, h⟩

theorem bind (hx : Advances n x) [hf : ∀ r, Enters (f r)] : Fetches n (x >>= f) := by
  intro m g rest hg
  rw [runBind]
  cases hxr : x m with
  | error e m' =>
    cases e with
    | fault e => trivial
    | error e => exact absurd hxr (hx.sure.ok m e m')
  | ok a m' =>
    have hframes := hx.frames m a m' hxr g rest hg
    obtain ⟨entered, h⟩ := (hf a).frames m'
    rw [hframes] at h
    dsimp only
    cases hfr : f a m' with
    | ok r m₂ =>
      rw [hfr] at h
      exact ⟨entered, h⟩
    | error e m₂ =>
      rw [hfr] at h
      cases e with
      | fault e => trivial
      | error e => exact .inr ⟨entered, h⟩

theorem after [hx : Still x] (hf : ∀ r, Fetches n (f r)) : Fetches n (x >>= f) := by
  intro m g rest hg
  rw [runBind]
  have hcalls := hx.calls m
  cases hxr : x m with
  | error e m' =>
    rw [hxr] at hcalls
    cases e with
    | fault e => trivial
    | error e =>
      refine .inl ?_
      rw [← hg, ← hcalls]
      rfl
  | ok a m' =>
    rw [hxr] at hcalls
    exact hf a m' g rest (by rw [← hg, ← hcalls]; rfl)

end Fetches

instance (v : Value) : Still (push v) := .modify fun _ => rfl

instance (v : Value) : Sure (push v) := inferInstanceAs (Sure (modify _))

instance : Still pop where
  calls m := by
    rw [pop_eq]
    split <;> rfl

instance (i : Int) : Still (readSlot i) := by
  refine @Still.bind _ _ _ _ _ fun m => ?_
  have : Still (match m.stack.get? i.toNat with
      | some v => return v
      | none => stop .outOfRange : MachineM Value) := by
    split <;> infer_instance
  dsimp only
  infer_instance

instance (i : Int) : Sure (readSlot i) := by
  refine @Sure.bind _ _ _ _ _ fun m => ?_
  have : Sure (match m.stack.get? i.toNat with
      | some v => return v
      | none => stop .outOfRange : MachineM Value) := by
    split <;> infer_instance
  dsimp only
  infer_instance

instance (i : Int) (v : Value) : Still (writeSlot i v) := by
  have : Still (modify fun m : Machine => { m with stack := m.stack.set i.toNat v } : MachineM Unit) :=
    .modify fun _ => rfl
  unfold writeSlot
  dsimp only
  infer_instance

instance (distance : Nat) : Still (peek distance) := by
  unfold peek
  infer_instance

instance (distance : Nat) : Sure (peek distance) := by
  unfold peek
  infer_instance

instance (count : Nat) : Still (calleeSlot count) := by
  unfold calleeSlot
  infer_instance

instance (text : Bytes) : Still (print text) := .modify fun _ => rfl

instance (closure : Loc) : Still (functionOf closure) := by
  unfold functionOf
  infer_instance

instance (closure : Loc) : Sure (functionOf closure) := by
  unfold functionOf
  infer_instance

instance (f : Frame) : Still (traceLine f) := by
  refine @Still.bind _ _ _ _ _ fun fn => ?_
  split <;> infer_instance

instance (p : RuntimeProblem) : Still (raise p : MachineM α) := by
  unfold raise
  infer_instance

instance (name : Symbol) (v : Value) : Still (setGlobal name v) := by
  have hgrow (capacity : Nat) : Still (modify fun m : Machine =>
      { m with globals := m.globals.growTo capacity } : MachineM Unit) := .modify fun _ => rfl
  have hinsert : Still (modifyGet fun m : Machine =>
      let (isNew, globals) := m.globals.insert name v
      (isNew, { m with globals }) : MachineM Bool) := .modifyGet fun _ => rfl
  refine @Still.bind _ _ _ _ _ fun m => ?_
  dsimp only
  infer_instance

instance (closure : Loc) (count : Nat) : Enters (call closure count) := by
  have hpush (base : Int) : Enters (modify fun m : Machine =>
      { m with calls := m.calls.push ⟨closure, 0, base⟩ } : MachineM Unit) :=
    ⟨fun m => ⟨[⟨closure, 0, base⟩], rfl⟩⟩
  unfold call
  dsimp only
  infer_instance

instance (text : Bytes) : Still (stringValue text) := by
  unfold stringValue
  infer_instance

instance : Still elapsed := .modifyGet fun _ => rfl

instance (name : Bytes) : Still (global? name) := by
  unfold global?
  infer_instance

instance (n : Native) : Still (defineNative n) := by
  have hbind (name : Value) : Still (do
      let _ ← setGlobal (← asSymbol name) (← peek 0)
      let _ ← pop
      let _ ← pop : MachineM Unit) := inferInstance
  unfold defineNative
  infer_instance

instance (code : HostCode) : Still (answer code) := by
  induction code with
  | nested next ih =>
    unfold answer
    exact ih _
  | _ =>
    unfold answer
    infer_instance

instance (f : HostFunction) (arguments : List Value) : Still (host f arguments) := by
  cases f <;> unfold host <;> infer_instance

instance (n : Native) (count : Nat) : Still (callNative n count) := by
  have (k : Nat) : Still (modify fun m : Machine => { m with sp := m.sp - k } : MachineM Unit) :=
    .modify fun _ => rfl
  unfold callNative
  dsimp only
  split <;> infer_instance

instance (l : Loc) (count : Nat) : Enters (construct l count) := by
  refine @Enters.bind _ _ _ _ _ fun v => @Enters.bind _ _ _ _ _ fun slot => ?_
  refine @Enters.bind _ _ _ _ _ fun u => @Enters.bind _ _ _ _ _ fun c => ?_
  refine @Enters.bind _ _ _ _ _ fun m => ?_
  split <;> infer_instance

instance (callee : Value) (count : Nat) : Enters (callValue callee count) := by
  have (o : Object) (l : Loc) : Enters (match o.body with
      | .boundMethod b => do
        writeSlot (← calleeSlot count) b.receiver
        call b.method count
      | .class_ _ => construct l count
      | .closure _ => call l count
      | .native n => callNative n count
      | _ => raise .notCallable : MachineM Unit) := by
    split <;> infer_instance
  unfold callValue
  infer_instance

instance (class_ : Loc) (name : Symbol) : Still (findMethod class_ name) := by
  refine @Still.bind _ _ _ _ _ fun c => ?_
  split <;> infer_instance

instance (class_ : Loc) (name : Symbol) (count : Nat) : Enters (invokeFromClass class_ name count) := by
  unfold invokeFromClass
  infer_instance

instance (name : Symbol) (count : Nat) : Enters (invoke name count) := by
  have (i : Instance) : Enters (match i.fields.get? name with
      | some value => do
        writeSlot (← calleeSlot count) value
        callValue value count
      | none => invokeFromClass i.class_ name count : MachineM Unit) := by
    split <;> infer_instance
  unfold invoke
  dsimp only
  infer_instance

instance (class_ : Loc) (name : Symbol) : Still (bindMethod class_ name) := by
  refine @Still.bind _ _ _ _ _ fun method => @Still.bind _ _ _ _ _ fun depth => ?_
  refine @Still.bind _ _ _ _ _ fun receiver => @Still.bind _ _ _ _ _ fun closure => ?_
  infer_instance

instance (slot : Int) : Still (captureUpvalue slot) := by
  have (l : Loc) : Still (modify fun m : Machine =>
      { m with openUpvalues := insertUpvalue slot l m.openUpvalues } : MachineM Unit) := .modify fun _ => rfl
  refine @Still.bind _ _ _ _ _ fun m => ?_
  split <;> infer_instance

instance (slot : Int) : Sure (captureUpvalue slot) := by
  refine @Sure.bind _ _ _ _ _ fun m => ?_
  split <;> infer_instance

instance (last : Int) (us : List (Int × Loc)) : Still (closeFrom last us) := by
  induction us with
  | nil =>
    unfold closeFrom
    infer_instance
  | cons u us ih =>
    have : Still (modify fun m : Machine => { m with openUpvalues := us } : MachineM Unit) :=
      .modify fun _ => rfl
    unfold closeFrom
    infer_instance

instance (last : Int) : Still (closeUpvalues last) := by
  unfold closeUpvalues
  infer_instance

instance (l : Loc) : Still (readUpvalue l) := by
  refine @Still.bind _ _ _ _ _ fun u => ?_
  split <;> infer_instance

instance (l : Loc) (v : Value) : Still (writeUpvalue l v) := by
  refine @Still.bind _ _ _ _ _ fun u => ?_
  split <;> infer_instance

instance : Still frame := by
  refine @Still.bind _ _ _ _ _ fun m => ?_
  split <;> infer_instance

instance : Sure frame := by
  refine @Sure.bind _ _ _ _ _ fun m => ?_
  split <;> infer_instance

instance (f : Function) (offset : Nat) : Still (codeAt f offset) := by
  unfold codeAt
  split <;> infer_instance

instance (f : Function) (offset : Nat) : Sure (codeAt f offset) := by
  unfold codeAt
  split <;> infer_instance

instance (ip : Nat) : Sure (jumpTo ip) := inferInstanceAs (Sure (modify _))

theorem frame_ok {m m' : Machine} {f : Frame} (h : frame m = .ok f m') :
    m' = m ∧ ∃ rest, m.calls.frames = f :: rest := by
  unfold frame at h
  obtain ⟨m₁, m₂, hget, h⟩ := bind_eq_ok h
  cases hget
  cases hframes : m.calls.frames with
  | nil =>
    simp only [hframes] at h
    cases h
  | cons g rest =>
    simp only [hframes] at h
    cases h
    exact ⟨rfl, rest, rfl⟩

theorem advances_jump {n : Nat} {x : MachineM α} {f : Frame → MachineM α}
    (hf : ∀ g, ∀ m a m', f g m = .ok a m' → ∃ c : Calls, c.frames = m.calls.frames ∧
      m'.calls = c.jumpTo (g.ip + n)) (hs : ∀ g, Sure (f g)) (hx : x = frame >>= f) : Advances n x := by
  subst hx
  refine ⟨inferInstance, fun m a m' h g rest hg => ?_⟩
  obtain ⟨g', m₁, hframe, h⟩ := bind_eq_ok h
  obtain ⟨rfl, rest', hg'⟩ := frame_ok hframe
  rw [hg] at hg'
  cases hg'
  obtain ⟨c, hc, hcalls⟩ := hf g m₁ a m' h
  rw [hcalls, Calls.frames_jumpTo (hc.trans hg)]
  rfl

theorem advances_readByte : Advances 1 readByte := by
  refine advances_jump (fun g m a m' h => ?_) (fun g => inferInstance) rfl
  obtain ⟨fn, m₁, hfn, h⟩ := bind_eq_ok h
  obtain ⟨b, m₂, hb, h⟩ := bind_eq_ok h
  cases h
  exact ⟨m₂.calls, by rw [Still.calls_eq hb, Still.calls_eq hfn], rfl⟩

theorem advances_readConstant : Advances 1 readConstant := by
  have hconstant (fn : Function) (index : UInt8) : Still (match fn.chunk.constants.get? index.toNat with
      | some v => return v
      | none => stop .outOfRange : MachineM Value) ∧ Sure (match fn.chunk.constants.get? index.toNat with
      | some v => return v
      | none => stop .outOfRange : MachineM Value) := by
    split <;> exact ⟨inferInstance, inferInstance⟩
  have := fun fn index => (hconstant fn index).1
  have := fun fn index => (hconstant fn index).2
  exact advances_readByte.then_still

theorem advances_readName : Advances 1 readName :=
  advances_readConstant.then_still

instance (distance : Nat) : Still (isNumber distance) := by
  unfold isNumber
  infer_instance

instance (distance : Nat) : Still (isString distance) := by
  unfold isString
  infer_instance

instance (p : RuntimeProblem) (v : Value) : Still (instanceOr p v) := by
  unfold instanceOr
  infer_instance

instance : Still popClass := by
  unfold popClass
  infer_instance

instance : Still popNumber := by
  refine @Still.bind _ _ _ _ _ fun v => ?_
  split <;> infer_instance

instance (f : Float → Float → Value) : Still (numeric f) := by
  unfold numeric
  dsimp only
  infer_instance

instance : Still concatenate := by
  refine @Still.bind _ _ _ _ _ fun b => @Still.bind _ _ _ _ _ fun a => ?_
  infer_instance

instance : Still add := by
  unfold add
  infer_instance

instance : Still equal := by
  unfold equal
  infer_instance

instance : Still negate := by
  unfold negate
  dsimp only
  infer_instance

instance : Still printTop := by
  unfold printTop
  infer_instance

instance : Still closeTop := by
  unfold closeTop
  infer_instance

instance : Still inherit := by
  refine @Still.bind _ _ _ _ _ fun superclass => ?_
  have : Still (do
      let subclass ← peek 0
      let source ← locOfValue superclass
      let target ← locOfValue subclass
      let _ ← classAt target
      onHeap (HeapM.inheritEntries source target)
      let _ ← pop : MachineM Unit) := inferInstance
  dsimp only
  infer_instance

theorem advances_readCaptured : Advances 1 readCaptured := by
  refine advances_readByte.bind (b := 0) fun index => ?_
  refine .after_still (x := frame) fun f => ?_
  refine .after_still fun c => ?_
  split <;> exact .of_still

def fetched (op : Opcode) : Nat :=
  match op.operands with
  | .none => 0
  | .constant | .byte | .closure => 1
  | .jump _ | .invoke => 2

theorem fetches_getGlobal : Fetches 1 getGlobal := by
  have (m : Machine) (name : Symbol) : Enters (match m.globals.get? name with
      | some v => push v
      | none => raise (.undefinedVariable name.chars) : MachineM Unit) := by
    split <;> infer_instance
  exact .bind advances_readName

theorem fetches_assignGlobal : Fetches 1 assignGlobal := by
  have (name : Symbol) : Still (modify fun m : Machine =>
      { m with globals := (m.globals.delete name).2 } : MachineM Unit) := .modify fun _ => rfl
  exact .bind advances_readName

theorem fetches_getUpvalue : Fetches 1 getUpvalue := by
  refine @Fetches.bind _ _ _ _ _ advances_readCaptured fun u => ?_
  split <;> infer_instance

theorem fetches_setUpvalue : Fetches 1 setUpvalue := by
  refine @Fetches.bind _ _ _ _ _ advances_readCaptured fun u => ?_
  split <;> infer_instance

theorem fetches_getProperty : Fetches 1 getProperty := by
  refine .after fun v => .after fun l => ?_
  have (name : Symbol) (i : Instance) : Enters (match i.fields.get? name with
      | some v => do
        let _ ← pop
        push v
      | none => bindMethod i.class_ name : MachineM Unit) := by
    split <;> infer_instance
  exact .bind advances_readName

theorem fetches_setProperty : Fetches 1 setProperty :=
  .after fun _ => .after fun _ => .bind advances_readName

theorem advances_invoke : Advances 2 (do
    let name ← readName
    let count ← readByte
    return (name, count) : MachineM (Symbol × UInt8)) :=
  advances_readName.bind fun _ => advances_readByte.then_still

theorem fetches_pair {k : Symbol → UInt8 → MachineM Unit} (hk : ∀ name count, Enters (k name count)) :
    Fetches 2 (do
      let name ← readName
      let count ← readByte
      k name count) := by
  have := advances_invoke
  have hsplit : (do
      let name ← readName
      let count ← readByte
      k name count) = (do
        let name ← readName
        let count ← readByte
        return (name, count) : MachineM (Symbol × UInt8)) >>= fun r => k r.1 r.2 := by
    simp only [bind_assoc, pure_bind]
  rw [hsplit]
  exact .bind this

theorem fetches_execute {op : Opcode} (hjump : ∀ backward, op.operands ≠ .jump backward)
    (hclosure : op.operands ≠ .closure) : Fetches (fetched op) (execute op) := by
  cases op with
  | jump | jumpIfFalse => exact absurd rfl (hjump false)
  | loop => exact absurd rfl (hjump true)
  | closure => exact absurd rfl hclosure
  | constant => exact .bind advances_readConstant
  | getLocal | setLocal => exact .bind advances_readByte
  | getGlobal => exact fetches_getGlobal
  | defineGlobal => exact .bind advances_readName
  | setGlobal => exact fetches_assignGlobal
  | getUpvalue => exact fetches_getUpvalue
  | setUpvalue => exact fetches_setUpvalue
  | getProperty => exact fetches_getProperty
  | setProperty => exact fetches_setProperty
  | getSuper => exact .bind advances_readName
  | call => exact .bind advances_readByte
  | invoke => exact fetches_pair fun _ _ => inferInstance
  | superInvoke => exact fetches_pair fun _ _ => inferInstance
  | class_ => exact .bind advances_readName
  | method => exact .bind advances_readName
  | nil | true | false | pop | not | return_ =>
    unfold execute
    exact .of_enters
  | equal | greater | less | subtract | multiply | divide | add | negate | print | closeUpvalue | inherit =>
    unfold execute
    exact .of_enters

theorem advances_fillCaptures (closure : Loc) (i left : Nat) :
    Advances (2 * left) (fillCaptures closure i left) := by
  induction left generalizing i with
  | zero =>
    rw [fillCaptures]
    exact .of_still
  | succ left ih =>
    have hpair : 2 * (left + 1) = 1 + (1 + 2 * left) := by omega
    rw [fillCaptures, hpair]
    refine advances_readByte.bind fun isLocal => advances_readByte.bind fun index => ?_
    refine .after_still fun f => ?_
    split
    · exact .after_still fun captured => .after_still fun _ => ih _
    · refine .after_still fun c => ?_
      split
      · exact .after_still fun captured => .after_still fun _ => ih _
      · exact .after_still fun captured => .after_still fun _ => ih _

theorem peek_calls {m : Machine} {d : Nat} {v : Value} (c : Calls) (h : peek d m = .ok v m) :
    peek d { m with calls := c } = .ok v { m with calls := c } := by
  change readSlot _ m = _ at h
  change readSlot _ { m with calls := c } = _
  rw [readSlot_eq] at h ⊢
  split at h
  · cases h
  · rename_i hpos
    rw [if_neg hpos]
    split at h
    · rename_i hget
      cases h
      dsimp only
      rw [hget]
    · cases h

structure Executes (m : Machine) (f : Frame) (rest : List Frame) (fn : Function) : Prop where
  frames : m.calls.frames = f :: rest
  function : (do functionAt (← closureAt f.closure).function : HeapView Function) m.heap = .ok fn

namespace Executes

variable {m : Machine} {f : Frame} {rest : List Frame} {fn : Function} {b hi lo : UInt8} {v : Value}

theorem functionOf (h : Executes m f rest fn) : functionOf f.closure m = .ok fn m := by
  unfold MachineM.functionOf
  rw [run_view, h.function]

theorem frame (h : Executes m f rest fn) : frame m = .ok f m := by
  rw [run_frame, h.frames]

theorem jumpTo (h : Executes m f rest fn) (ip : Nat) :
    Executes { m with calls := m.calls.jumpTo ip } { f with ip } rest fn :=
  ⟨Calls.frames_jumpTo h.frames ip, h.function⟩

theorem readByte (h : Executes m f rest fn) (hb : fn.chunk.code.get? f.ip = some b) :
    readByte m = .ok b { m with calls := m.calls.jumpTo (f.ip + 1) } := by
  unfold MachineM.readByte codeAt
  rw [runBind, h.frame]
  dsimp only
  rw [runBind, h.functionOf]
  dsimp only
  rw [hb]
  rfl

theorem readShort (h : Executes m f rest fn) (hhi : fn.chunk.code.get? f.ip = some hi)
    (hlo : fn.chunk.code.get? (f.ip + 1) = some lo) : readShort m =
      .ok (hi.toNat * 256 + lo.toNat) { m with calls := m.calls.jumpTo (f.ip + 2) } := by
  unfold MachineM.readShort codeAt
  rw [runBind, h.frame]
  dsimp only
  rw [runBind, h.functionOf]
  dsimp only
  rw [hhi, hlo]
  rfl

theorem readConstant (h : Executes m f rest fn) (hb : fn.chunk.code.get? f.ip = some b)
    (hv : fn.chunk.constants.get? b.toNat = some v) :
    readConstant m = .ok v { m with calls := m.calls.jumpTo (f.ip + 1) } := by
  unfold MachineM.readConstant
  rw [runBind, h.readByte hb]
  dsimp only
  have h' := h.jumpTo (f.ip + 1)
  rw [runBind, h'.frame]
  dsimp only
  rw [runBind, h'.functionOf]
  dsimp only
  rw [hv]
  rfl

theorem jump (h : Executes m f rest fn) (hhi : fn.chunk.code.get? f.ip = some hi)
    (hlo : fn.chunk.code.get? (f.ip + 1) = some lo) : ∃ m', execute .jump m = .ok () m' ∧
      m'.calls.frames = { f with ip := f.ip + 2 + (hi.toNat * 256 + lo.toNat) } :: rest := by
  have h' := h.jumpTo (f.ip + 2)
  refine ⟨_, ?_, (h'.jumpTo (f.ip + 2 + (hi.toNat * 256 + lo.toNat))).frames⟩
  change (do MachineM.jump (← MachineM.readShort)) m = _
  unfold MachineM.jump
  rw [runBind, h.readShort hhi hlo]
  dsimp only
  rw [runBind, h'.frame]
  rfl

theorem jumpBack (h : Executes m f rest fn) (hhi : fn.chunk.code.get? f.ip = some hi)
    (hlo : fn.chunk.code.get? (f.ip + 1) = some lo) (hle : hi.toNat * 256 + lo.toNat ≤ f.ip + 2) :
    ∃ m', execute .loop m = .ok () m' ∧
      m'.calls.frames = { f with ip := f.ip + 2 - (hi.toNat * 256 + lo.toNat) } :: rest := by
  have h' := h.jumpTo (f.ip + 2)
  refine ⟨_, ?_, (h'.jumpTo (f.ip + 2 - (hi.toNat * 256 + lo.toNat))).frames⟩
  change MachineM.jumpBack m = _
  unfold MachineM.jumpBack
  rw [runBind, h.readShort hhi hlo]
  dsimp only
  rw [runBind, h'.frame]
  dsimp only
  rw [if_neg (Nat.not_lt.mpr hle)]
  rfl

theorem jumpIfFalse (h : Executes m f rest fn) (hhi : fn.chunk.code.get? f.ip = some hi)
    (hlo : fn.chunk.code.get? (f.ip + 1) = some lo) (hv : peek 0 m = .ok v m) :
    ∃ m', execute .jumpIfFalse m = .ok () m' ∧ m'.calls.frames =
      { f with ip := if v.isFalsey then f.ip + 2 + (hi.toNat * 256 + lo.toNat) else f.ip + 2 } :: rest := by
  have h' := h.jumpTo (f.ip + 2)
  have hpeek := peek_calls (m.calls.jumpTo (f.ip + 2)) hv
  change ∃ m', MachineM.jumpIfFalse m = _ ∧ _
  unfold MachineM.jumpIfFalse MachineM.jump
  rw [runBind, h.readShort hhi hlo]
  dsimp only
  rw [runBind, hpeek]
  dsimp only
  split
  · refine ⟨_, ?_, (h'.jumpTo (f.ip + 2 + (hi.toNat * 256 + lo.toNat))).frames⟩
    rw [runBind, h'.frame]
    rfl
  · exact ⟨_, rfl, h'.frames⟩

theorem newClosure_size {r : Roots} {h h' : Heap} {k l : Loc} {q : Function} {c : Lox.Closure}
    (hrun : HeapM.newClosure k r h = .ok l h') (hq : functionAt k h = .ok q) (hc : closureAt l h' = .ok c) :
    c.upvalues.size = q.upvalueCount.toNat := by
  unfold HeapM.newClosure at hrun
  rw [HeapM.run_bind, HeapM.run_view, hq] at hrun
  dsimp only at hrun
  split at hrun
  · cases hrun
  · unfold HeapM.allocate at hrun
    rw [HeapM.run_bind] at hrun
    split at hrun
    · rename_i h₁ _
      rw [HeapM.run_modifyGet] at hrun
      injection hrun with hl hh
      obtain ⟨o, ho, hbody⟩ := closureAt_eq_ok.mp hc
      rw [← hl, ← hh, Heap.objects_link, Heap.link_fst, Array.getElem?_push, if_pos rfl] at ho
      cases ho
      cases hbody
      exact Array.size_replicate
    · cases hrun

theorem closure (h : Executes m f rest fn) (hb : fn.chunk.code.get? f.ip = some b)
    (hv : fn.chunk.constants.get? b.toNat = some v) {k : Loc} {q : Function}
    (hk : locOfValue v m.heap = .ok k) (hq : functionAt k m.heap = .ok q) :
    (∀ e m', execute .closure m ≠ .error (.error e) m') ∧ ∀ m', execute .closure m = .ok () m' →
      m'.calls.frames = f.advance (1 + 2 * q.upvalueCount.toNat) :: rest := by
  have hsure : Sure makeClosure := by
    have := advances_readConstant.sure
    have := fun c i n => (advances_fillCaptures c i n).sure
    unfold makeClosure
    infer_instance
  refine ⟨fun e m' he => hsure.ok m e m' he, fun m' hrun => ?_⟩
  change makeClosure m = _ at hrun
  obtain ⟨v', m₁, hconstant, hrun⟩ := bind_eq_ok hrun
  rw [h.readConstant hb hv] at hconstant
  cases hconstant
  obtain ⟨k', m₂, hloc, hrun⟩ := bind_eq_ok hrun
  obtain ⟨rfl, hk'⟩ := view_eq_ok hloc
  cases hk.symm.trans hk'
  obtain ⟨l, m₃, hnew, hrun⟩ := bind_eq_ok hrun
  obtain ⟨u, m₄, hvalue, hrun⟩ := bind_eq_ok hrun
  obtain ⟨_, m₅, hpush, hrun⟩ := bind_eq_ok hrun
  obtain ⟨c, m₆, hclosure, hrun⟩ := bind_eq_ok hrun
  have hsize : c.upvalues.size = q.upvalueCount.toNat := by
    obtain ⟨h', hmade, rfl⟩ := onHeap_eq_ok hnew
    obtain ⟨rfl, -⟩ := view_eq_ok hvalue
    cases hpush
    exact newClosure_size hmade hq (view_eq_ok hclosure).2
  have hframes : m₆.calls.frames = f.advance 1 :: rest := by
    rw [Still.calls_eq hclosure, Still.calls_eq hpush, Still.calls_eq hvalue, Still.calls_eq hnew]
    exact (h.jumpTo (f.ip + 1)).frames
  rw [(advances_fillCaptures l 0 _).frames m₆ _ m' hrun _ rest hframes, Frame.advance_advance, hsize]

end Executes

end MachineM

end Lox

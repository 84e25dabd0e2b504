import Lox.Proofs.Ideal.Create
import Lox.Proofs.Machine.Spot
import Mathlib.Data.List.TakeWhile

namespace Lox

open Heap HeapView Machine

structure Fitting (fit : Prototype → Prop) : Prop where
  vetted : ∀ p, fit p → p.Vetted
  inner : ∀ (p : Prototype) (k : Nat) q, fit p → p.constants[k]? = some (.function q) → fit q

namespace Machine

/-- A machine between two instructions. -/
def Between (fit : Prototype → Prop) (script : Prototype) (holds : List Value) (marks : List RootMarker)
    (m : Machine) : Prop :=
  ∃ (s : Spot) (height : Nat), m.Within fit script holds marks s s.offset height ∧ s.code.Reaches s.offset height

/-- A machine without calls, and with so many values on its stack. -/
structure Resting (fit : Prototype → Prop) (holds : List Value) (marks : List RootMarker) (n : Nat) (m : Machine) :
    Prop where
  kept : m.heap.Kept fit holds marks
  room : 0 < m.maxFrames
  written : m.sp ≤ m.stack.written.size
  space : m.sp ≤ m.stack.size
  sp : m.sp = n
  calls : m.calls.frames = []
  upvalues : m.openUpvalues = []

abbrev Ended (fit : Prototype → Prop) (holds : List Value) (marks : List RootMarker) (m : Machine) : Prop :=
  m.Resting fit holds marks 0

end Machine

structure Spot.Ready (s : Spot) (ip : Nat) (height : Int) (count : Nat) : Prop where
  inside : s.Inside ip
  entering : ∃ op operand height₀, s.code.Reaches s.offset height₀ ∧ s.code.instrAt s.offset = some (op, operand) ∧
    op.enters = true ∧ ip = s.offset + (1 + operand.size) ∧
    height = ((height₀ - op.takes operand : Nat) : Int) + count + 1

theorem Opcode.next_enters {op : Opcode} (h : op.enters = Bool.true) (operand : Operand) (offset : Nat) :
    op.next operand offset = [((offset + (1 + operand.size) : Nat) : Int)] ∧ op.leaves = 1 := by
  cases op <;> first | exact ⟨rfl, rfl⟩ | cases h

namespace MachineM

variable {α β : Type} {m : Machine} {fit : Prototype → Prop} {script p : Prototype} {holds : List Value}
    {marks : List RootMarker} {s : Spot}
  {ip count : Nat} {height : Int} {fails : RuntimeError → Machine → Prop} {l : Loc}

theorem Obeys.ite {c : Prop} [Decidable c] {x y : MachineM α} {post : α → Machine → Prop}
    (hx : c → Obeys m x post fails) (hy : ¬ c → Obeys m y post fails) : Obeys m (if c then x else y) post fails := by
  split
  · exact hx ‹_›
  · exact hy ‹_›

theorem obeys_stop {f : Fault} {post : α → Machine → Prop} : Obeys m (stop f) post fails :=
  trivial

theorem obeys_peek (distance : Nat) : Obeys m (peek distance) (fun _ m' => m' = m) fails := by
  unfold peek
  apply Obeys.get_bind
  unfold Obeys
  rw [readSlot_eq]
  split
  · rename_i h
    split at h
    · cases h
    · cases hv : m.stack.get? ((m.sp : Int) - 1 - distance).toNat <;> rw [hv] at h <;> cases h
      exact .inr rfl
  · rename_i h
    split at h
    · cases h
    · cases hv : m.stack.get? ((m.sp : Int) - 1 - distance).toNat <;> rw [hv] at h <;> cases h
  · trivial

theorem obeys_writeSlot (hw : m.Within fit script holds marks s ip height) (i : Int) (v : Value) :
    Obeys m (writeSlot i v) (fun _ m' => m'.Within fit script holds marks s ip height ∧ m'.heap = m.heap ∧
      m'.sp = m.sp ∧ m'.openUpvalues = m.openUpvalues) fails := by
  unfold writeSlot
  apply Obeys.get_bind
  dsimp only
  refine Obeys.ite (fun _ => obeys_stop) fun _ => ?_
  exact .inr ⟨hw.congr rfl rfl rfl rfl (fun h => h.set i.toNat v) rfl, rfl, rfl, rfl⟩

theorem within_setHolds (hw : m.Within fit script holds marks s ip height) (holds' : List Value) :
    ({ m with heap := { m.heap with holds := holds' } } : Machine).Within fit script holds' marks s ip height := by
  have hwaiting : ∀ {p : Prototype} {base : Int} {outer : List Pending}, Waiting fit script m.heap p base outer →
      Waiting fit script { m.heap with holds := holds' } p base outer := by
    intro p base outer hwait
    induction outer generalizing p base with
    | nil => exact hwait
    | cons q rest ih =>
      obtain ⟨⟨hfit, hcalls, hentered⟩, hrest⟩ := hwait
      exact ⟨⟨hfit, hcalls.congr rfl rfl, hentered⟩, ih hrest⟩
  exact
    { hw with
      kept := hw.kept.setHolds holds'
      calls := hw.calls.congr rfl rfl
      waiting := hwaiting hw.waiting }

theorem obeys_hold (hw : m.Within fit script holds marks s ip height) (v : Value) :
    Obeys m (onHeap (HeapM.hold v)) (fun depth m' => depth = holds.length + 1 ∧
      m' = { m with heap := { m.heap with holds := v :: m.heap.holds } } ∧
      m'.Within fit script (v :: holds) marks s ip height) fails :=
  .inr ⟨congrArg (·.length + 1) hw.kept.holds, rfl, hw.kept.holds ▸ within_setHolds hw (v :: m.heap.holds)⟩

theorem delivers_unhold_kept {v : Value} (hk : m.heap.Kept fit (v :: holds) marks) {post : Unit → Heap → Prop}
    (hp : post () { m.heap with holds }) :
    HeapM.Delivers True (roots m) m.heap (HeapM.unhold (holds.length + 1)) post :=
  HeapM.delivers_unhold hk.holds hp

instance : Stays elapsed :=
  .modifyGet (fun _ => rfl) (fun _ => rfl) (fun _ => rfl) (fun _ => rfl) (fun _ h => ⟨h.1, h.2⟩) fun _ => rfl

instance (name : Bytes) : Stays (global? name) := by
  unfold global?
  infer_instance

instance (n : Native) : Stays (defineNative n) := by
  have hname : Stays (onHeap do valueOf (← HeapM.intern n.name).loc) :=
    .onHeap ((HeapM.tends_intern n.name).bind fun _ => HeapM.tends_view _)
  have hnew : Stays (onHeap do valueOf (← HeapM.newNative n)) :=
    .value (HeapM.tends_allocate _ (by simp [Body.kind]) (by simp [Body.kind]) (by simp [Body.kind]) _)
  have hpops : Moves 0 (-2) (do
      let _ ← pop
      let _ ← pop : MachineM Unit) := .pop_bind fun _ => .pop_end rfl
  have hrest : Moves 0 (-2) (do
      let name ← peek 1
      let _ ← setGlobal (← asSymbol name) (← peek 0)
      let _ ← pop
      let _ ← pop : MachineM Unit) :=
    .stays_bind fun _ => .stays_bind fun _ => .stays_bind fun _ => .stays_bind fun _ => hpops
  have hpush (v : Value) {d : Int} {x : MachineM Unit} (hx : Moves 0 d x) : Moves 0 (d + 1) (do push v; x) :=
    (Moves.bind (inferInstance : Moves 0 1 (push v)) fun _ => hx).congr rfl (by omega)
  exact .stays_bind fun v => hpush v (.stays_bind fun w => hpush w hrest)

theorem stays_answer (code : HostCode) : Stays (answer code) := by
  induction code with
  | answer v =>
    unfold answer
    infer_instance
  | fail message =>
    unfold answer
    infer_instance
  | elapsed next ih | format v next ih | string chars next ih | field owner name next ih | global name next ih
  | openSlots next ih =>
    unfold answer
    infer_instance
  | nested next ih =>
    unfold answer
    exact ih _
  | collect next ih =>
    have : Stays (onHeap HeapM.collect) := .onHeap HeapM.tends_collect
    unfold answer
    infer_instance
  | write text next ih | setGlobal name v next ih | define name code next _ ih =>
    unfold answer
    infer_instance
  | class_ name next ih =>
    have (s : Symbol) : Stays (onHeap do valueOf (← HeapM.newClass s)) :=
      .value (HeapM.tends_allocate _ (by simp [Body.kind]) (by simp [Body.kind]) (by simp [Body.kind]) _)
    unfold answer
    infer_instance
  | instance_ class_ next ih =>
    have (l : Loc) : Stays (onHeap do valueOf (← HeapM.newInstance l)) :=
      .value (HeapM.tends_allocate _ (by simp [Body.kind]) (by simp [Body.kind]) (by simp [Body.kind]) _)
    unfold answer
    infer_instance
  | setField owner name v next ih =>
    have (l : Loc) (name : Symbol) : Stays (onHeap (HeapM.rooting .host fun k =>
        HeapM.withRoots k [.value owner] (HeapM.setEntry l name v))) :=
      .onHeap (.rooting RootMarker.numbers_host (HeapM.tends_setEntry l name v))
    unfold answer
    infer_instance
  | holding v inner next ih ih' =>
    have hunhold (depth : Nat) : HeapM.Grows (HeapM.unhold depth) := HeapM.grows_unhold depth
    have hgrow (depth : Nat) : Grows (onHeap (HeapM.unhold depth)) := .onHeap (hunhold depth)
    have hinner := ih.grows
    have hnext (w : Value) := (ih' w).grows
    unfold answer
    refine .intro inferInstance fun {fit script holds marks s ip height m} hw hin => ?_
    refine (obeys_hold hw v).bind (fun depth => inferInstance) ?_
    rintro depth m₁ ⟨rfl, -, hw₁⟩
    refine Obeys.bind (Obeys.finish (ih.keeps hw₁ hin) (hunhold _) (fun w m' hw' => ?_) fun e m' he => ?_)
      (fun w => inferInstance) fun w m' hw' => (ih' w).keeps hw' hin
    · exact delivers_unhold_kept hw'.kept (within_setHolds hw' holds)
    · exact delivers_unhold_kept he.kept ⟨he.kept.setHolds holds, he.room, he.trace⟩

instance (f : HostFunction) (arguments : List Value) : Stays (host f arguments) := by
  have : Stays (onHeap HeapM.collect) := .onHeap HeapM.tends_collect
  cases f with
  | clock | gc =>
    simp only [host]
    infer_instance
  | custom code => exact stays_answer _

theorem between_next {op : Opcode} {operand : Operand} {height₀ : Nat}
    (hw : m.Within fit script holds marks s ip height)
    (hr : s.code.Reaches s.offset height₀) (hi : s.code.instrAt s.offset = some (op, operand))
    (hnext : (ip : Int) ∈ op.next operand s.offset)
    (hheight : height = (height₀ - op.takes operand + op.leaves : Nat)) :
    m.Between fit script holds marks :=
  ⟨{ s with offset := ip }, _, { hw.resize hheight.symm with }, hr.next hi hnext⟩

theorem between_ready (hw : m.Within fit script holds marks s ip (height - count)) (hr : s.Ready ip height count) :
    m.Between fit script holds marks := by
  obtain ⟨-, op, operand, height₀, hreaches, hi, henters, hip, hheight⟩ := hr
  obtain ⟨hnext, hleaves⟩ := op.next_enters henters operand s.offset
  refine between_next hw hreaches hi (by rw [hnext, hip]; exact .head _) ?_
  rw [hheight, hleaves]
  omega

theorem obeys_raise_bind {problem : RuntimeProblem} {f : α → MachineM β} {post : β → Machine → Prop}
    [hg : ∀ a, Grows (f a)] (hw : m.Within fit script holds marks s ip height) (hin : s.Inside ip) :
    Obeys m (raise problem >>= f) post (s.Blames fit holds marks) := by
  have hraise : Obeys m (raise problem : MachineM α) (fun _ _ => False) (s.Blames fit holds marks) := obeys_raise hw hin
  exact hraise.bind hg fun _ _ => False.elim

theorem obeys_call (hw : m.Within fit script holds marks s ip height) (hr : s.Ready ip height count)
    (hc : m.heap.Calls l p) (hp : fit p) :
    Obeys m (call l count) (fun _ m' => m'.Between fit script holds marks) (s.Blames fit holds marks) := by
  obtain ⟨f, htranscribes, hfn⟩ := functionOf_eq hc
  have hview : Obeys m (functionOf l) (fun f m' => m' = m ∧ f.Transcribes p) (s.Blames fit holds marks) := by
    unfold Obeys
    rw [hfn]
    exact .inr ⟨rfl, htranscribes⟩
  have hpush (f : Frame) : Grows (modify fun m : Machine => { m with calls := m.calls.push f } : MachineM Unit) :=
    .modify fun _ => rfl
  unfold call
  dsimp only
  refine hview.bind (fun _ => inferInstance) ?_
  rintro f m' ⟨hm', hf⟩
  subst m'
  refine .ite (fun _ => obeys_raise_bind hw hr.inside) fun hcount => ?_
  have hcount : count = p.arity := by
    have := hf.arity
    omega
  unfold calleeSlot
  apply Obeys.get_bind
  apply Obeys.get_bind
  refine .ite (fun _ => obeys_raise_bind hw hr.inside) fun _ => ?_
  obtain ⟨-, op, operand, height₀, hreaches, hi, henters, hip, hheight⟩ := hr
  have hsp := hw.sp
  let waits : Pending := ⟨⟨s.closure, ip, s.base⟩, s.code, s.offset⟩
  have hbase : (m.sp : Int) - count - 1 = s.base + ((height₀ - op.takes operand : Nat) : Int) := by omega
  refine .inr ⟨⟨l, (m.sp : Int) - count - 1, p, 0, waits :: s.outer⟩, p.arity + 1, ?_, .entry⟩
  exact
    { kept := hw.kept
      room := hw.room
      written := hw.written
      space := hw.space
      fits := hp
      frames := by
        show _ :: m.calls.frames = _
        rw [hw.frames]
        rfl
      calls := hc
      waiting := ⟨⟨hw.fits, hw.calls, op, operand, height₀, hreaches, hi, henters, hip, hbase⟩, hw.waiting⟩
      sp := by
        show (m.sp : Int) = (m.sp : Int) - count - 1 + ((p.arity + 1 : Nat) : Int)
        omega
      upvalues := hw.upvalues }

theorem exists_calls {c : Closure} (hw : m.Within fit script holds marks s ip height) {v : Value}
    (hl : locOfValue v m.heap = .ok l) (hc : closureAt l m.heap = .ok c) : ∃ p, fit p ∧ m.heap.Calls l p := by
  obtain ⟨o, ho, hf⟩ := (leads_of_locOfValue hw.kept.sound.consistent hl).2
  obtain ⟨o', ho', hbody⟩ := closureAt_eq_ok.mp hc
  rw [ho] at ho'
  cases ho'
  exact hw.kept.vouched.closures l o ho hf (by rw [Object.kind, hbody]; rfl)

theorem obeys_callClosure (hw : m.Within fit script holds marks s ip height) (hr : s.Ready ip height count)
    (v : Value) :
    Obeys m (do
      let closure ← locOfValue v
      let _ ← closureAt closure
      call closure count) (fun _ m' => m'.Between fit script holds marks) (s.Blames fit holds marks) := by
  refine .view_bind fun l hl => .view_bind fun c hc => ?_
  obtain ⟨p, hp, hcalls⟩ := exists_calls hw hl hc
  exact obeys_call hw hr hcalls hp

theorem obeys_callNative (hw : m.Within fit script holds marks s ip height) (hr : s.Ready ip height count)
    (n : Native) :
    Obeys m (callNative n count) (fun _ m' => m'.Between fit script holds marks) (s.Blames fit holds marks) := by
  have hsub : Grows (modify fun m : Machine => { m with sp := m.sp - (count + 1) } : MachineM Unit) :=
    .modify fun _ => rfl
  have hanswer : Obeys m (do
      let m ← get
      let result ← host n.behaviour (m.stack.slice (m.sp - count) m.sp)
      modify fun m => { m with sp := m.sp - (count + 1) }
      push result) (fun _ m' => m'.Between fit script holds marks) (s.Blames fit holds marks) := by
    apply Obeys.get_bind
    refine (Stays.keeps inferInstance hw hr.inside).bind (fun _ => inferInstance) fun result m₁ hw₁ => ?_
    apply Obeys.modify_bind
    have hsp := hw₁.sp
    have hbase := hw₁.waiting.base_nonneg
    obtain ⟨-, op, operand, height₀, -, -, -, -, hheight⟩ := id hr
    have hw₂ : Machine.Within fit script holds marks s ip (height - (count + 1))
        { m₁ with sp := m₁.sp - (count + 1) } :=
      { hw₁ with
        written := Nat.le_trans (Nat.sub_le ..) hw₁.written
        space := Nat.le_trans (Nat.sub_le ..) hw₁.space
        sp := by
          show ((m₁.sp - (count + 1) : Nat) : Int) = _
          omega }
    refine .inr (between_ready ((hw₂.pushed result (written_grow _)).resize ?_) hr)
    omega
  unfold callNative
  dsimp only
  cases n.arity with
  | none => exact hanswer
  | some arity =>
    refine .ite (fun _ => ?_) fun _ => hanswer
    exact obeys_raise_bind hw hr.inside

theorem obeys_construct (hw : m.Within fit script holds marks s ip height) (hr : s.Ready ip height count) (l : Loc) :
    Obeys m (construct l count) (fun _ m' => m'.Between fit script holds marks) (s.Blames fit holds marks) := by
  have hnew : Stays (onHeap do valueOf (← HeapM.newInstance l)) :=
    .value (HeapM.tends_allocate _ (by simp [Body.kind]) (by simp [Body.kind]) (by simp [Body.kind]) _)
  have hgrow : Grows (onHeap do valueOf (← HeapM.newInstance l)) := hnew.grows
  unfold construct
  refine (hnew.keeps hw hr.inside).bind (fun v => .bind fun i => .bind fun _ => .bind fun c => .bind fun m => ?_)
    fun v m₁ hw₁ => ?_
  · split <;> infer_instance
  · unfold calleeSlot
    apply Obeys.get_bind
    refine (obeys_writeSlot hw₁ _ v).bind (fun _ => .bind fun c => .bind fun m => ?_) ?_
    · split <;> infer_instance
    rintro _ m₂ ⟨hw₂, _⟩
    refine .view_bind fun c _ => ?_
    apply Obeys.get_bind
    cases m₂.initName.bind c.methods.get? with
    | some initializer => exact obeys_callClosure hw₂ hr initializer
    | none =>
      refine .ite (fun _ => obeys_raise hw₂ hr.inside) fun hcount => ?_
      have hcount : count = 0 := by omega
      exact .inr (between_ready (hw₂.resize (by omega)) hr)

theorem obeys_callValue (hw : m.Within fit script holds marks s ip height) (hr : s.Ready ip height count)
    (callee : Value) :
    Obeys m (callValue callee count) (fun _ m' => m'.Between fit script holds marks) (s.Blames fit holds marks) := by
  have hraise {problem : RuntimeProblem} :
      Obeys m (raise problem : MachineM Unit) (fun _ m' => m'.Between fit script holds marks)
          (s.Blames fit holds marks) :=
    obeys_raise hw hr.inside
  unfold callValue
  refine .ite (fun _ => ?_) fun _ => hraise
  refine .view_bind fun l hl => .view_bind fun o ho => ?_
  obtain ⟨o', ho', hf⟩ := (leads_of_locOfValue hw.kept.sound.consistent hl).2
  rw [object_eq_ok.mp ho] at ho'
  cases ho'
  cases hbody : o.body with
  | boundMethod b =>
    obtain ⟨p, hp, hcalls⟩ := hw.kept.vouched.bounds l o b (object_eq_ok.mp ho) hf hbody
    unfold calleeSlot
    apply Obeys.get_bind
    refine (obeys_writeSlot hw _ b.receiver).bind (fun _ => inferInstance) ?_
    rintro _ m₁ ⟨hw₁, hheap, _⟩
    exact obeys_call hw₁ hr (hheap ▸ hcalls) hp
  | class_ c => exact obeys_construct hw hr l
  | closure c =>
    obtain ⟨p, hp, hcalls⟩ := exists_calls hw hl (closureAt_eq_ok.mpr ⟨o, object_eq_ok.mp ho, hbody⟩)
    exact obeys_call hw hr hcalls hp
  | native n => exact obeys_callNative hw hr n
  | _ => exact hraise

theorem obeys_invokeFromClass (hw : m.Within fit script holds marks s ip height) (hr : s.Ready ip height count)
    (l : Loc)
    (name : Symbol) : Obeys m (invokeFromClass l name count) (fun _ m' => m'.Between fit script holds marks)
      (s.Blames fit holds marks) := by
  unfold invokeFromClass
  refine (Stays.keeps inferInstance hw hr.inside).bind (fun _ => inferInstance) fun v m₁ hw₁ => ?_
  exact obeys_callClosure hw₁ hr v

theorem obeys_invoke (hw : m.Within fit script holds marks s ip height) (hr : s.Ready ip height count) (name : Symbol) :
    Obeys m (invoke name count) (fun _ m' => m'.Between fit script holds marks) (s.Blames fit holds marks) := by
  unfold invoke
  dsimp only
  refine (obeys_peek count).bind (fun receiver => ?_) ?_
  · refine .bind fun b => ?_
    split
    · refine .bind fun l => .bind fun i => ?_
      split <;> infer_instance
    · refine .bind fun _ => .bind fun l => .bind fun i => ?_
      split <;> infer_instance
  rintro receiver m' hm'
  subst m'
  refine .view_bind fun b _ => .ite (fun _ => ?_) fun _ => ?_
  · refine .view_bind fun l _ => .view_bind fun i _ => ?_
    cases i.fields.get? name with
    | none => exact obeys_invokeFromClass hw hr i.class_ name
    | some value =>
      unfold calleeSlot
      apply Obeys.get_bind
      refine (obeys_writeSlot hw _ value).bind (fun _ => inferInstance) ?_
      rintro _ m₁ ⟨hw₁, _⟩
      exact obeys_callValue hw₁ hr value
  · have hraise : Obeys m (raise .methodOfOther : MachineM Unit) (fun _ _ => False) (s.Blames fit holds marks) :=
      obeys_raise hw hr.inside
    refine hraise.bind (fun _ => .bind fun l => .bind fun i => ?_) fun _ _ => False.elim
    split <;> infer_instance

instance (class_ : Loc) (name : Symbol) : Stays (bindMethod class_ name) := by
  have hbound (receiver : Value) (l : Loc) : Grows (onHeap do valueOf (← HeapM.newBoundMethod receiver l)) :=
    .onHeap ((HeapM.grows_allocate _ _).bind fun _ => HeapM.grows_view _)
  have hrest (depth : Nat) (receiver : Value) (l : Loc) : Grows (do
      let bound ← onHeap do valueOf (← HeapM.newBoundMethod receiver l)
      onHeap (HeapM.unhold depth)
      let _ ← pop
      push bound) := by
    have := hbound receiver l
    infer_instance
  have hgrow : Grows (bindMethod class_ name) :=
    .bind fun method => .bind fun depth => .bind fun receiver => .bind fun closure => .bind fun _ =>
      hrest depth receiver closure
  refine .intro hgrow fun {fit script holds marks s ip height m} hw hin => ?_
  unfold bindMethod
  refine (Stays.keeps inferInstance hw hin).bind (fun method => .bind fun depth => .bind fun receiver =>
    .bind fun closure => .bind fun _ => hrest depth receiver closure) fun method m₁ hw₁ => ?_
  refine (obeys_hold hw₁ method).bind
    (fun depth => .bind fun receiver => .bind fun closure => .bind fun _ => hrest depth receiver closure) ?_
  rintro depth held ⟨rfl, -, hw₂⟩
  refine (obeys_peek 0).bind (fun receiver => .bind fun closure => .bind fun _ => hrest _ receiver closure) ?_
  rintro receiver m' hm'
  subst m'
  refine .view_bind fun l hl => .view_bind fun c hc => ?_
  obtain ⟨p, hp, hcalls⟩ := exists_calls hw₂ hl hc
  -- the method is held while the new object is made
  have hkept : ∀ h', held.heap.Passes (held.heap.origins (roots held)) h' → h'.Alive l := by
    intro h' hpasses
    have hm : .value method ∈ held.heap.origins (roots held) :=
      List.mem_append_left _ (List.mem_map_of_mem (by rw [hw₂.kept.holds]; simp))
    refine hpasses.rooted _ hm trivial l ?_ (leads_of_locOfValue hw₂.kept.sound.consistent hl).2
    rw [locOfValue_eq] at hl
    split at hl
    · next hobj =>
      cases hfind : held.heap.find? method.bits.toUInt32 with
      | none => simp [hfind] at hl
      | some k =>
        simp only [hfind, Except.ok.injEq] at hl
        exact hl ▸ .value hobj hfind
    · cases hl
  have hnew : HeapM.Delivers True (roots held) held.heap (do valueOf (← HeapM.newBoundMethod receiver l)) fun _ h' =>
      h'.Sound ∧ held.heap.Passes (held.heap.registered (roots held)) h' ∧ h'.Vouched fit := by
    refine (HeapM.delivers_newBoundMethod_calls hw₂.kept.sound hw₂.kept.vouched hp hcalls hkept receiver).bind
      (fun _ => HeapM.grows_view _) ?_
    rintro k h' ⟨hs, hpasses, hv⟩
    unfold HeapM.Delivers
    rw [HeapM.run_view]
    cases valueOf k h' with
    | ok v => exact .inr ⟨hs, hpasses.mono fun _ => HeapM.mem_origins, hv⟩
    | error e => exact .inr trivial
  refine (Obeys.onHeap hnew fun _ _ h => hw₂.reheap h.1 h.2.1 h.2.2).bind (fun _ => inferInstance)
    fun bound m₃ hw₃ => ?_
  have hunhold : Obeys m₃ (onHeap (HeapM.unhold (holds.length + 1)))
      (fun _ m' => m'.Within fit script holds marks s ip height) (s.Blames fit holds marks) := by
    have hreleased : HeapM.Delivers True (roots m₃) m₃.heap (HeapM.unhold (holds.length + 1)) fun _ h' =>
        h' = { m₃.heap with holds } := delivers_unhold_kept hw₃.kept rfl
    refine .onHeap hreleased ?_
    rintro _ h' rfl
    exact within_setHolds hw₃ holds
  refine hunhold.bind (fun _ => inferInstance) fun _ m₄ hw₄ => ?_
  exact Stays.keeps (Moves.pop_bind fun _ => Moves.push_end bound (by decide)) hw₄ hin

theorem body_eq_of_isUpvalue {h : Heap} {o : Object} {u : Upvalue} (ho : h.objects[l]? = some o)
    (hb : o.body = .upvalue u)
    (v : Value) : h.updateBody l (fun _ => .upvalue (.closed v)) = h.updateBody l (closeBody v) :=
  updateBody_congr ho (by rw [hb, closeBody])

theorem keepsCore_closeBody (v : Value) : KeepsCore (closeBody v) := fun b => by
  cases b <;> rfl

theorem obeys_close (hw : m.Within fit script holds marks s ip height) {o : Object} {u : Upvalue}
    (ho : m.heap.objects[l]? = some o) (hb : o.body = .upvalue u) (v : Value) :
    Obeys m (onHeap (modify (·.updateBody l fun _ => .upvalue (.closed v)))) (fun _ m' =>
      m'.Within fit script holds marks s ip height ∧ m'.openUpvalues = m.openUpvalues) fails := by
  have ht := HeapM.tends_updateBody l (keepsStrings_closeBody v) (keepsCore_closeBody v)
  have hv := ht.vouched (roots m) hw.kept.sound hw.kept.vouched
  have hset : HeapM.Delivers True (roots m) m.heap (modify (·.updateBody l fun _ => .upvalue (.closed v))) fun _ h =>
      h.Sound ∧ m.heap.Passes (m.heap.registered (roots m)) h ∧ h.Vouched fit := by
    unfold HeapM.Delivers at *
    rw [HeapM.run_modify] at *
    rwa [body_eq_of_isUpvalue ho hb]
  refine .onHeap hset ?_
  rintro _ _ ⟨hs, hp, hv⟩
  exact ⟨hw.reheap hs hp hv, rfl⟩

theorem within_setUpvalues (hw : m.Within fit script holds marks s ip height) {us : List (Int × Loc)}
    (hus : ∀ u ∈ us, u ∈ m.openUpvalues) : ({ m with openUpvalues := us } : Machine).Within fit script holds marks s ip
    height :=
  { hw with upvalues := fun u hu => hw.upvalues u (hus u hu) }

theorem obeys_closeFrom (last : Int) {us : List (Int × Loc)} (hw : m.Within fit script holds marks s ip height)
    (hus : m.openUpvalues = us) : Obeys m (closeFrom last us) (fun _ m' => m'.Within fit script holds marks s ip
    height ∧
      m'.openUpvalues = us.dropWhile (last ≤ ·.1)) fails := by
  induction us generalizing m with
  | nil => exact .inr ⟨hw, hus⟩
  | cons u us ih =>
    have hmod : Grows (modify fun m : Machine => { m with openUpvalues := us } : MachineM Unit) :=
      .modify fun _ => rfl
    have hset (v : Value) : Grows (onHeap (modify (·.updateBody u.2 fun _ => .upvalue (.closed v)))) :=
      .onHeap (HeapM.grows_updateBody _ _)
    unfold closeFrom
    by_cases hle : last ≤ u.1
    · rw [if_pos hle, List.dropWhile_cons_of_pos (by simpa using hle)]
      have hread : Obeys m (readSlot u.1) (fun _ m' => m' = m) fails := by
        unfold Obeys
        rw [readSlot_eq]
        split <;> rename_i h <;> split at h
        · cases h
        · cases hv : m.stack.get? u.1.toNat <;> rw [hv] at h <;> cases h
          exact .inr rfl
        · cases h
        · cases hv : m.stack.get? u.1.toNat <;> rw [hv] at h <;> cases h
        all_goals trivial
      refine hread.bind (fun _ => inferInstance) ?_
      rintro v m' hm'
      subst m'
      obtain ⟨-, o, w, ho, -, hb⟩ := hw.upvalues u (hus ▸ List.mem_cons_self ..)
      refine (obeys_close hw ho hb v).bind (fun _ => inferInstance) ?_
      rintro _ m₁ ⟨hw₁, hsame⟩
      exact ih (within_setUpvalues hw₁ fun w hw => by rw [hsame, hus]; exact .tail _ hw) rfl
    · rw [if_neg hle, List.dropWhile_cons_of_neg (by simpa using hle)]
      exact .inr ⟨hw, hus⟩

theorem obeys_closeUpvalues (hw : m.Within fit script holds marks s ip height) (last : Int) :
    Obeys m (closeUpvalues last) (fun _ m' => m'.Within fit script holds marks s ip height ∧
      m'.openUpvalues = m.openUpvalues.dropWhile (last ≤ ·.1)) fails := by
  unfold closeUpvalues
  apply Obeys.get_bind
  exact obeys_closeFrom last hw rfl

instance (last : Int) : Stays (closeUpvalues last) :=
  .intro inferInstance fun hw _ => (obeys_closeUpvalues hw last).imp fun _ _ hp => hp.1

instance (l : Loc) : Stays (readUpvalue l) := by
  refine .bind fun u => ?_
  split <;> infer_instance

instance (l : Loc) (v : Value) : Stays (writeUpvalue l v) :=
  .intro (inferInstance : Balances (writeUpvalue l v)).grows fun hw _ => by
    refine Obeys.view_bind fun u hu => ?_
    obtain ⟨o, ho, hb⟩ := upvalueAt_eq_ok.mp hu
    cases u with
    | stack slot => exact (obeys_writeSlot hw slot v).imp fun _ _ hp => hp.1
    | closed w => exact (obeys_close hw ho hb v).imp fun _ _ hp => hp.1

theorem obeys_captureUpvalue (hw : m.Within fit script holds marks s ip height) {slot : Int} (hslot : 0 ≤ slot) :
    Obeys m (captureUpvalue slot) (fun _ m' => m'.Within fit script holds marks s ip height) fails := by
  unfold captureUpvalue
  apply Obeys.get_bind
  cases m.openUpvalues.find? (·.1 == slot) with
  | some u => exact .inr hw
  | none =>
    have hmod (l : Loc) : Grows (modify fun m : Machine =>
        { m with openUpvalues := insertUpvalue slot l m.openUpvalues } : MachineM Unit) :=
      .modify fun _ => rfl
    have hkind : (Body.upvalue (.stack slot)).kind ≠ .string := by simp [Body.kind]
    have hnew : Obeys m (onHeap (HeapM.newUpvalue slot)) (fun l m' => m'.Within fit script holds marks s ip height ∧
        ∃ o v, m'.heap.objects[l]? = some o ∧ o.freed = false ∧ o.body = .upvalue v) fails := by
      refine .onHeap (HeapM.delivers_allocate_passes hw.kept.sound _ hkind _) ?_
      rintro l h ⟨hs, hp, ha⟩
      obtain ⟨⟨o, ho, hf, hb⟩, -⟩ := HeapM.allocated ha
      have hv := hw.kept.vouched.modest hw.kept.sound.consistent hp
        (HeapM.modest_of_allocates ha (by simp [Body.kind]) (by simp [Body.kind]))
      exact ⟨hw.reheap hs (hp.mono fun _ => HeapM.mem_origins) hv, o, _, ho, hf, hb⟩
    refine hnew.bind (fun _ => inferInstance) ?_
    rintro l m₁ ⟨hw₁, hl⟩
    refine .inr { hw₁ with upvalues := fun u hu => ?_ }
    rcases mem_insertUpvalue hu with rfl | hu
    · exact ⟨hslot, hl⟩
    · exact hw₁.upvalues u hu

theorem obeys_fillCaptures (l : Loc) (i left : Nat) (hw : m.Within fit script holds marks s ip height) :
    Obeys m (fillCaptures l i left) (fun _ m' => m'.Within fit script holds marks s (ip + 2 * left) height) fails := by
  induction left generalizing i ip m with
  | zero => exact .inr hw
  | succ left ih =>
    have hset (captured : Option Loc) : HeapM.Tends (modify (·.updateBody l (fillBody i captured))) :=
      HeapM.tends_updateBody l (keepsStrings_fillBody i captured) fun b => by cases b <;> rfl
    have hgrow (captured : Option Loc) : Grows (do
        onHeap (modify (·.updateBody l (fillBody i captured)))
        fillCaptures l (i + 1) left : MachineM Unit) :=
      have : Grows (onHeap (modify (·.updateBody l (fillBody i captured)))) := .onHeap (hset captured).keeps.grows
      .bind fun _ => inferInstance
    have hrest (captured : Option Loc) {m : Machine} (hw : m.Within fit script holds marks s (ip + 2) height) :
        Obeys m (do
        onHeap (modify (·.updateBody l (fillBody i captured)))
        fillCaptures l (i + 1) left) (fun _ m' => m'.Within fit script holds marks s (ip + 2 * (left + 1)) height)
            fails := by
      refine (Obeys.tends hw (hset captured)).bind (fun _ => inferInstance) fun _ m₁ hw₁ => ?_
      rw [show ip + 2 * (left + 1) = ip + 2 + 2 * left by omega]
      exact ih (i + 1) hw₁
    unfold fillCaptures
    refine (obeys_readByte hw).bind (fun _ => ?_) ?_
    · refine .bind fun index => .bind fun f => ?_
      dsimp only
      split
      · exact .bind fun _ => hgrow _
      · refine .bind fun c => ?_
        split
        · exact .bind fun _ => hgrow _
        · exact .bind fun _ => hgrow _
    rintro isLocal m₁ ⟨_, hw₁, _⟩
    refine (obeys_readByte hw₁).bind (fun _ => ?_) ?_
    · refine .bind fun f => ?_
      dsimp only
      split
      · exact .bind fun _ => hgrow _
      · refine .bind fun c => ?_
        split
        · exact .bind fun _ => hgrow _
        · exact .bind fun _ => hgrow _
    rintro index m₂ ⟨_, hw₂, _⟩
    refine obeys_frame_bind hw₂ ?_
    dsimp only
    have hslot := hw₂.waiting.base_nonneg
    refine .ite (fun _ => ?_) fun _ => ?_
    · have hcapture : Obeys m₂ (some <$> captureUpvalue (s.base + index.toNat))
          (fun _ m' => m'.Within fit script holds marks s (ip + 2) height) fails := by
        rw [← bind_pure_comp]
        exact (obeys_captureUpvalue hw₂ (by omega)).bind (fun _ => inferInstance) fun _ _ hw₃ => .pure hw₃
      exact hcapture.bind (fun _ => hgrow _) fun captured _ hw₃ => hrest captured hw₃
    · refine .view_bind fun c _ => ?_
      cases c.upvalues[index.toNat]? with
      | none => trivial
      | some u => exact hrest u hw₂

structure Functional (h : Heap) (v : Value) (l : Loc) (q : Prototype) (closure : Loc) : Prop where
  loc : locOfValue v h = .ok l
  bears : h.Bears l q
  kept : ∀ {roots : List Link} {h' : Heap}, .object closure ∈ roots → h.Passes roots h' → h'.Alive l

theorem obeys_readConstant {k : Nat} {b : UInt8} {bytes : List UInt8} {q : Prototype}
    (hw : m.Within fit script holds marks s ip height) (ha : s.code.Ahead ip (b :: bytes)) (hb : b.toNat = k)
    (hq : s.code.constants[k]? = some (.function q)) : Obeys m readConstant (fun v m' =>
      m'.Within fit script holds marks s (ip + 1) height ∧ ∃ l, Functional m'.heap v l q s.closure) fails := by
  unfold readConstant
  refine (obeys_readByte_ahead hw ha).bind (fun _ => .bind fun f => .bind fun fn => ?_) ?_
  · split <;> infer_instance
  rintro a m₁ ⟨hab, hw₁, _⟩
  refine obeys_frame_bind hw₁ ?_
  have hc := hw₁.kept.sound.consistent
  obtain ⟨o, c, ho, hf, hbody, hbears⟩ := hw₁.calls
  obtain ⟨o', f, ho', hf', hbody', hshows⟩ := bearsIn_iff.mp hbears
  obtain ⟨v, l, hv, hnames, -, hl⟩ := hshows.constants k q hq
  have hfn : functionOf s.closure m₁ = .ok f m₁ := by
    unfold functionOf
    rw [run_view, HeapView.view_bind, closureAt_eq_ok.mpr ⟨o, ho, hbody⟩]
    dsimp only
    rw [functionAt_eq_ok.mpr ⟨o', ho', hbody'⟩]
  unfold Obeys
  rw [runBind, hfn]
  dsimp only
  rw [Growable.get?_eq, hab, hb, hv]
  refine .inr ⟨hw₁, l, hnames.locOfValue, hl, fun hroot hp => ?_⟩
  -- the closure is kept alive, and so its function and the constants of that
  have hclosure := hp.rooted _ hroot trivial _ (.object _) ⟨o, ho, hf⟩
  have hfunction := hp.follows _ o (.object c.function) _ ho hclosure (by rw [hbody]; exact List.mem_singleton.mpr rfl)
    (.object _) hbears.alive
  refine hp.follows _ o' (.value v) l ho' hfunction ?_ hnames.leads (hnames.alive hc)
  rw [hbody']
  exact List.mem_map_of_mem (List.mem_of_getElem? hv)

theorem obeys_makeClosure {k : Nat} {origins : List Origin} {q : Prototype}
    (hw : m.Within fit script holds marks s ip height) (ha : s.code.Ahead ip (Operand.closure k origins).bytes)
    (hk : k < 256)
    (hq : s.code.constants[k]? = some (.function q)) (hcaptures : origins.length = q.captures) (hfit : fit q) :
    Obeys m makeClosure (fun _ m' =>
      m'.Within fit script holds marks s (ip + (Operand.closure k origins).size) (height + 1)) fails := by
  have hnew (l : Loc) : Grows (onHeap (HeapM.newClosure l)) := .onHeap (HeapM.keeps_newClosure l).grows
  unfold makeClosure
  refine (obeys_readConstant hw ha (toNat_toUInt8 hk) hq).bind (fun _ => inferInstance) ?_
  rintro v m₁ ⟨hw₁, l, hl⟩
  refine .view_bind fun l' hl' => ?_
  rw [hl.loc] at hl'
  cases hl'
  have hroot : .object s.closure ∈ m₁.heap.origins (roots m₁) := by
    refine HeapM.mem_origins (Machine.Within.mem_registered_frame hw₁.kept.mem_markers
        (f := ⟨s.closure, ip + 1, s.base⟩) ?_)
    rw [hw₁.frames]
    exact .head _
  have hmade : Obeys m₁ (onHeap (HeapM.newClosure l)) (fun c m' => m'.Within fit script holds marks s (ip + 1) height ∧
      ∃ o closure, m'.heap.objects[c]? = some o ∧ o.body = .closure closure ∧ closure.upvalues.size = q.captures)
          fails := by
    refine .onHeap (HeapM.delivers_newClosure_calls hw₁.kept.sound hw₁.kept.vouched hfit hl.bears
      fun _ hp => hl.kept hroot hp) ?_
    rintro c h ⟨hs, hp, hv, o, closure, ho, -, hbody, hsize, -⟩
    exact ⟨hw₁.reheap hs (hp.mono fun _ => HeapM.mem_origins) hv, o, closure, ho, hbody, hsize⟩
  refine hmade.bind (fun _ => inferInstance) ?_
  rintro c m₂ ⟨hw₂, o, closure, ho, hbody, hsize⟩
  refine .view_bind fun value _ => ?_
  have hpush : Obeys m₂ (push value) (fun _ m' => m'.Within fit script holds marks s (ip + 1) (height + 1) ∧
      m'.heap = m₂.heap) fails := .inr ⟨hw₂.pushed value (written_grow _), rfl⟩
  refine hpush.bind (fun _ => inferInstance) ?_
  rintro _ m₃ ⟨hw₃, hheap⟩
  refine .view_bind fun closure' hclosure' => ?_
  rw [hheap, closureAt_eq_ok.mpr ⟨o, ho, hbody⟩] at hclosure'
  cases hclosure'
  rw [hsize, ← hcaptures, show ip + (Operand.closure k origins).size = ip + 1 + 2 * origins.length by
    rw [Operand.size, Nat.add_assoc]]
  exact obeys_fillCaptures c 0 origins.length hw₃

theorem toNat_short {n : Nat} (h : n < 65536) : (n / 256).toUInt8.toNat * 256 + n.toUInt8.toNat = n := by
  rw [toNat_toUInt8 (by omega)]
  simp
  omega

theorem grows_jump (distance : Nat) : Grows (jump distance) := by
  unfold jump
  infer_instance

theorem obeys_jump (hw : m.Within fit script holds marks s ip height) (distance : Nat) : Obeys m (jump distance)
    (fun _ m' => m'.Within fit script holds marks s (ip + distance) height) fails :=
  obeys_frame_bind hw (.inr hw.moved)

theorem moves_raise {n : Nat} {d : Int} (problem : RuntimeProblem) : Moves n d (raise problem : MachineM α) where
  grows := inferInstance
  keeps hw hin _ := obeys_raise hw hin

theorem moves_stop {n : Nat} {d : Int} (f : Fault) : Moves n d (stop f : MachineM α) where
  grows := inferInstance
  keeps _ _ _ := trivial

theorem moves_name_bind {d : Int} {f : Symbol → MachineM β} (hf : ∀ name, Moves 0 d (f name)) :
    Moves 1 d (readName >>= f) :=
  (Moves.bind (inferInstance : Moves 1 0 readName) hf).congr rfl (Int.zero_add d).symm

instance : Moves 1 1 getLocal :=
  (Moves.bind (inferInstance : Moves 1 0 readByte) fun _ => .stays_bind fun _ => .stays_bind fun _ =>
    (inferInstance : Moves 0 1 (push _))).congr rfl rfl

instance : Moves 1 0 setLocal := by
  refine .bind_stays fun slot => ?_
  infer_instance

instance : Moves 1 1 getGlobal := by
  refine moves_name_bind fun name => .stays_bind fun m => ?_
  cases m.globals.get? name with
  | some v => exact .push_end v rfl
  | none => exact moves_raise _

instance : Moves 1 (-1) defineGlobal :=
  moves_name_bind fun _ => .stays_bind fun _ => .stays_bind fun _ => .pop_end rfl

instance : Moves 1 0 assignGlobal := by
  have (name : Symbol) : Stays (modify fun m : Machine =>
      { m with globals := (m.globals.delete name).2 } : MachineM Unit) :=
    .modify (fun _ => rfl) (fun _ => rfl) (fun _ => rfl) (fun _ => rfl) (fun _ h => ⟨h.1, h.2⟩) fun _ => rfl
  refine moves_name_bind fun name => ?_
  infer_instance

instance : Moves 1 1 getUpvalue := by
  refine (Moves.bind (inferInstance : Moves 1 0 readCaptured) fun u => ?_ : Moves (1 + 0) (0 + 1) _).congr rfl rfl
  cases u with
  | some l => exact .stays_bind fun v => .push_end v rfl
  | none => exact moves_stop _

instance : Moves 1 0 setUpvalue := by
  refine .bind_stays fun u => ?_
  split <;> infer_instance

instance : Moves 1 0 getProperty := by
  refine .stays_bind fun v => .stays_bind fun l => moves_name_bind fun name => .stays_bind fun i => ?_
  cases i.fields.get? name with
  | some v => exact .pop_bind fun _ => .push_end v rfl
  | none => exact (inferInstance : Stays (bindMethod i.class_ name))

instance : Moves 1 (-1) setProperty := by
  have (l : Loc) (name : Symbol) (v : Value) : Stays (onHeap (HeapM.setEntry l name v)) :=
    .onHeap (HeapM.tends_setEntry l name v)
  exact .stays_bind fun v => .stays_bind fun l => moves_name_bind fun name => .stays_bind fun value =>
      .stays_bind fun _ =>
    .pop_bind fun v => .pop_bind fun _ => .push_end v rfl

theorem moves_popClass : Moves 0 (-1) popClass :=
  .pop_bind fun v => (inferInstance : Stays (do
    let l ← locOfValue v
    let _ ← classAt l
    return l))

theorem moves_popClass_bind {d : Int} {f : Loc → MachineM β} (hf : ∀ l, Moves 0 (d + 1) (f l)) :
    Moves 0 d (popClass >>= f) :=
  (moves_popClass.bind hf).congr rfl (by omega)

instance : Moves 1 (-1) getSuper :=
  moves_name_bind fun name => moves_popClass_bind fun l => (inferInstance : Stays (bindMethod l name))

instance : Moves 0 (-1) equal :=
  .pop_bind fun _ => .pop_bind fun _ => .push_end _ rfl

theorem moves_popNumber_bind {d : Int} {f : Float → MachineM β} (hf : ∀ x, Moves 0 (d + 1) (f x)) :
    Moves 0 d (popNumber >>= f) := by
  have hpop : Moves 0 (-1) popNumber := .pop_bind fun v => by
    split
    · exact (inferInstance : Stays (pure _))
    · exact moves_stop _
  exact (hpop.bind hf).congr rfl (by omega)

instance (f : Float → Float → Value) : Moves 0 (-1) (numeric f) := by
  unfold numeric
  dsimp only
  refine .stays_bind fun b => .ite ?_ ?_
  · exact moves_popNumber_bind fun b => moves_popNumber_bind fun a => .push_end _ rfl
  · exact .stays_bind fun _ => moves_popNumber_bind fun b => moves_popNumber_bind fun a =>
      .push_end _ rfl

instance : Moves 0 (-1) concatenate :=
  .stays_bind fun _ => .stays_bind fun _ => .stays_bind fun _ => .stays_bind fun _ => .stays_bind fun _ =>
    .pop_bind fun _ => .pop_bind fun _ => .push_end _ rfl

instance : Moves 0 (-1) add :=
  .stays_bind fun _ => .ite inferInstance (.stays_bind fun _ => .ite
    (moves_popNumber_bind fun _ => moves_popNumber_bind fun _ => .push_end _ rfl) (moves_raise _))

instance : Moves 0 0 negate := by
  unfold negate
  dsimp only
  refine .stays_bind fun b => .ite ?_ ?_
  · exact moves_popNumber_bind fun x => .push_end _ rfl
  · exact .stays_bind fun _ => moves_popNumber_bind fun x => .push_end _ rfl

instance : Moves 0 (-1) printTop :=
  .pop_bind fun _ => .stays_bind fun _ => (inferInstance : Stays (print _))

instance : Moves 0 (-1) closeTop :=
  .stays_bind fun _ => .stays_bind fun _ => .pop_end rfl

instance : Moves 1 1 makeClass := by
  have (name : Symbol) : Stays (onHeap do valueOf (← HeapM.newClass name)) :=
    .value (HeapM.tends_allocate _ (by simp [Body.kind]) (by simp [Body.kind]) (by simp [Body.kind]) _)
  exact moves_name_bind fun name => .stays_bind fun v => .push_end v rfl

instance : Moves 0 (-1) inherit := by
  have (source target : Loc) : Stays (onHeap (HeapM.inheritEntries source target)) :=
    .onHeap (HeapM.tends_inheritEntries source target)
  unfold inherit
  dsimp only
  refine .stays_bind fun superclass => .stays_bind fun b => .ite ?_ ?_
  · exact .stays_bind fun _ => .stays_bind fun _ => .stays_bind fun _ => .stays_bind fun _ => .stays_bind fun _ =>
        .pop_end rfl
  · exact .stays_bind fun _ => .stays_bind fun _ => .stays_bind fun _ => .stays_bind fun _ =>
      .stays_bind fun _ => .stays_bind fun _ => .pop_end rfl

instance : Moves 1 (-1) defineMethod := by
  have (l : Loc) (name : Symbol) (v : Value) : Stays (onHeap (HeapM.setEntry l name v)) :=
    .onHeap (HeapM.tends_setEntry l name v)
  exact moves_name_bind fun name => .stays_bind fun _ => .stays_bind fun _ => .stays_bind fun _ => .stays_bind fun _ =>
    .stays_bind fun _ => .pop_end rfl

def isPlain : Opcode → Bool
  | .jump | .jumpIfFalse | .loop | .call | .invoke | .superInvoke | .closure | .return_ => false
  | _ => true

theorem moves_execute {op : Opcode} {operand : Operand} (hplain : isPlain op = true) (hs : operand.Suits op) :
    Moves operand.size ((op.leaves : Int) - op.takes operand) (execute op) := by
  have hsize : operand.size = match op.operands with
      | .none => 0
      | _ => 1 := by
    cases op <;> cases operand <;> first | rfl | simp [Operand.Suits, Opcode.operands, isPlain] at hs hplain
  have htakes : op.takes operand = op.takes .none := by
    cases op <;> first | rfl | cases hplain
  rw [hsize, htakes]
  cases op <;> cases hplain
  case constant =>
    exact (Moves.bind (inferInstance : Moves 1 0 readConstant) fun v => (inferInstance : Moves 0 1 (push v))).congr rfl
        rfl
  case pop => exact .pop_end rfl
  case not => exact .pop_bind fun _ => .push_end _ rfl
  all_goals
    simp only [execute]
    first
    | exact Moves.congr (n := 0) (d := 1) inferInstance rfl rfl
    | exact Moves.congr (n := 0) (d := 0) inferInstance rfl rfl
    | exact Moves.congr (n := 0) (d := -1) inferInstance rfl rfl
    | exact Moves.congr (n := 1) (d := 1) inferInstance rfl rfl
    | exact Moves.congr (n := 1) (d := 0) inferInstance rfl rfl
    | exact Moves.congr (n := 1) (d := -1) inferInstance rfl rfl

structure Begins (fit : Prototype → Prop) (script : Prototype) (holds : List Value) (marks : List RootMarker)
    (s : Spot) (op : Opcode)
    (operand : Operand) (height : Nat) (m : Machine) : Prop where
  within : m.Within fit script holds marks s (s.offset + 1) height
  reaches : s.code.Reaches s.offset height
  instr : s.code.instrAt s.offset = some (op, operand)
  starts : s.code.Starts s.offset
  ahead : s.code.Ahead (s.offset + 1) operand.bytes
  fits : operand.Fits
  suits : operand.Suits op
  enough : op.takes operand ≤ height

namespace Begins

variable {op : Opcode} {operand : Operand} {height : Nat}

theorem inside (hb : Begins fit script holds marks s op operand height m) {n : Nat} (hn : n ≤ operand.size) :
    s.Inside (s.offset + 1 + n) :=
  ⟨op, operand, hb.starts, hb.instr, by omega, by omega⟩

theorem ready (hb : Begins fit script holds marks s op operand height m) (henters : op.enters = true) {height' : Int}
    (hheight : height' = ((height - op.takes operand : Nat) : Int) + count + 1) :
    s.Ready (s.offset + 1 + operand.size) height' count :=
  ⟨hb.inside (Nat.le_refl _), op, operand, height, hb.reaches, hb.instr, henters, by omega, hheight⟩

theorem plain (hb : Begins fit script holds marks s op operand height m) (hplain : isPlain op = true) :
    Obeys m (execute op) (fun _ m' => m'.Between fit script holds marks) (s.Blames fit holds marks) := by
  have hmoves := moves_execute hplain hb.suits
  refine (hmoves.keeps hb.within (hb.inside (Nat.zero_le _)) (hb.inside (Nat.le_refl _))).imp fun _ m' hw' => ?_
  have hnext : op.next operand s.offset = [((s.offset + (1 + operand.size) : Nat) : Int)] := by
    cases op <;> first | rfl | cases hplain
  have := hb.enough
  exact between_next hw' hb.reaches hb.instr (by rw [hnext, Nat.add_assoc]; exact .head _) (by omega)

theorem short (hb : Begins fit script holds marks s op operand height m) {backward : Bool}
    (hop : op.operands = .jump backward) :
    ∃ distance, operand = .short distance ∧ Obeys m readShort (fun n m' =>
      n = distance ∧ m'.Within fit script holds marks s (s.offset + 3) height) (s.Blames fit holds marks) := by
  have hsuits := hb.suits
  have hfits := hb.fits
  have ha := hb.ahead
  cases operand <;> simp only [Operand.Suits, hop, reduceCtorEq, or_self] at hsuits
  exact ⟨_, rfl, (obeys_readShort hb.within ha).imp fun n m' h => ⟨h.1.trans (toNat_short hfits), h.2⟩⟩

theorem jump (hb : Begins fit script holds marks s .jump operand height m) :
    Obeys m (execute .jump) (fun _ m' => m'.Between fit script holds marks) (s.Blames fit holds marks) := by
  obtain ⟨distance, rfl, hread⟩ := hb.short rfl
  refine hread.bind (fun n => grows_jump n) ?_
  rintro n m₁ ⟨hn, hw₁⟩
  refine (obeys_jump hw₁ n).imp fun _ m₂ hw₂ => ?_
  exact between_next hw₂ hb.reaches hb.instr (List.mem_singleton.mpr (by omega)) (by simp [Opcode.takes, Opcode.leaves])

theorem jumpIfFalse (hb : Begins fit script holds marks s .jumpIfFalse operand height m) :
    Obeys m (execute .jumpIfFalse) (fun _ m' => m'.Between fit script holds marks) (s.Blames fit holds marks) := by
  obtain ⟨distance, rfl, hread⟩ := hb.short rfl
  have hheight : (height : Int) = (height - 1 + 1 : Nat) := by
    have : 1 ≤ height := hb.enough
    omega
  have hgrow (n : Nat) := grows_jump n
  refine hread.bind (fun _ => inferInstance) ?_
  rintro n m₁ ⟨hn, hw₁⟩
  refine (obeys_peek 0).bind (fun _ => inferInstance) ?_
  rintro v m' hm'
  subst m'
  refine .ite (fun _ => (obeys_jump hw₁ n).imp fun _ m₂ hw₂ => ?_) fun _ => .inr ?_
  · exact between_next hw₂ hb.reaches hb.instr (.tail _ (List.mem_singleton.mpr (by omega))) hheight
  · exact between_next hw₁ hb.reaches hb.instr (.head _) hheight

theorem loop (hb : Begins fit script holds marks s .loop operand height m) :
    Obeys m (execute .loop) (fun _ m' => m'.Between fit script holds marks) (s.Blames fit holds marks) := by
  obtain ⟨distance, rfl, hread⟩ := hb.short rfl
  refine hread.bind (fun _ => ?_) ?_
  · dsimp only
    infer_instance
  rintro n m₁ ⟨hn, hw₁⟩
  refine obeys_frame_bind hw₁ ?_
  dsimp only
  refine .ite (fun _ => obeys_stop) fun hle => .inr ?_
  have hmoved : Machine.Within fit script holds marks s (s.offset + 3 - n) height { m₁ with
      calls := m₁.calls.jumpTo (s.offset + 3 - n) } := hw₁.moved
  exact between_next hmoved hb.reaches hb.instr (List.mem_singleton.mpr (by omega))
    (by simp [Opcode.takes, Opcode.leaves])

theorem call (hb : Begins fit script holds marks s .call operand height m) :
    Obeys m (execute .call) (fun _ m' => m'.Between fit script holds marks) (s.Blames fit holds marks) := by
  have hsuits := hb.suits
  cases operand <;> simp only [Operand.Suits, Opcode.operands, reduceCtorEq, exists_false] at hsuits
  rename_i n
  refine (obeys_readByte_ahead hb.within hb.ahead).bind (fun _ => inferInstance) ?_
  rintro b m₁ ⟨rfl, hw₁, -⟩
  refine (obeys_peek _).bind (fun _ => inferInstance) ?_
  rintro v m' hm'
  subst m'
  refine obeys_callValue hw₁ (hb.ready rfl ?_) v
  have : n + 1 ≤ height := hb.enough
  rw [toNat_toUInt8 hb.fits]
  show (height : Int) = ((height - (n + 1) : Nat) : Int) + n + 1
  omega

theorem pair {index n : Nat} {f : Symbol → UInt8 → MachineM Unit} (hg : ∀ name b, Grows (f name b))
    (hb : Begins fit script holds marks s op (.pair index n) height m)
    (hf : ∀ name m', m'.Within fit script holds marks s (s.offset + 1 + 2) height → Obeys m' (f name n.toUInt8)
      (fun _ m' => m'.Between fit script holds marks) (s.Blames fit holds marks)) : Obeys m (do
        let name ← readName
        let count ← readByte
        f name count) (fun _ m' => m'.Between fit script holds marks) (s.Blames fit holds marks) := by
  have hname : Moves 1 0 readName := inferInstance
  refine (hname.keeps hb.within (hb.inside (Nat.zero_le _)) (hb.inside (by simp [Operand.size]))).bind
    (fun name => .bind fun b => hg name b) fun name m₁ hw₁ => ?_
  refine (obeys_readByte_ahead hw₁ hb.ahead.tail).bind (fun b => hg name b) ?_
  rintro b m₂ ⟨rfl, hw₂, -⟩
  exact hf name m₂ (hw₂.resize (by omega))

theorem invoke (hb : Begins fit script holds marks s .invoke operand height m) :
    Obeys m (execute .invoke) (fun _ m' => m'.Between fit script holds marks) (s.Blames fit holds marks) := by
  have hsuits := hb.suits
  cases operand <;> simp only [Operand.Suits, Opcode.operands, reduceCtorEq, or_self, exists_false] at hsuits
  rename_i k n
  refine hb.pair (fun _ _ => inferInstance) fun name m' hw' => obeys_invoke hw' (hb.ready rfl ?_) name
  have : n + 1 ≤ height := hb.enough
  rw [toNat_toUInt8 hb.fits.2]
  show (height : Int) = ((height - (n + 1) : Nat) : Int) + n + 1
  omega

theorem superInvoke (hb : Begins fit script holds marks s .superInvoke operand height m) :
    Obeys m (execute .superInvoke) (fun _ m' => m'.Between fit script holds marks) (s.Blames fit holds marks) := by
  have hsuits := hb.suits
  cases operand <;> simp only [Operand.Suits, Opcode.operands, reduceCtorEq, or_self, exists_false] at hsuits
  rename_i k n
  have hready : s.Ready (s.offset + 1 + 2) ((height : Int) - 1) n.toUInt8.toNat := hb.ready rfl (by
    have : n + 2 ≤ height := hb.enough
    rw [toNat_toUInt8 hb.fits.2]
    show (height : Int) - 1 = ((height - (n + 2) : Nat) : Int) + n + 1
    omega)
  refine hb.pair (fun _ _ => inferInstance) fun name m' hw' => ?_
  refine (moves_popClass.keeps hw' hready.inside hready.inside).bind (fun _ => inferInstance) fun l m₁ hw₁ => ?_
  exact obeys_invokeFromClass (hw₁.resize (by omega)) hready l name

theorem closure (hfit : Fitting fit) (hb : Begins fit script holds marks s .closure operand height m) :
    Obeys m (execute .closure) (fun _ m' => m'.Between fit script holds marks) (s.Blames fit holds marks) := by
  have hvetted := hfit.vetted _ hb.within.fits
  obtain ⟨k, origins, q, rfl, hq, hcaptures, -⟩ := (hvetted.names hb.starts hb.instr).closure rfl
  refine (obeys_makeClosure hb.within hb.ahead hb.fits.1 hq hcaptures
    (hfit.inner _ k q hb.within.fits hq)).imp fun _ m' hw' => ?_
  exact between_next hw' hb.reaches hb.instr (List.mem_singleton.mpr (by omega)) (by simp [Opcode.takes, Opcode.leaves])

theorem execute (hfit : Fitting fit) (hb : Begins fit script holds marks s op operand height m) (hop : op ≠ .return_) :
    Obeys m (execute op) (fun _ m' => m'.Between fit script holds marks) (s.Blames fit holds marks) := by
  by_cases hplain : isPlain op = true
  · exact hb.plain hplain
  cases op <;> simp only [isPlain, not_true_eq_false] at hplain
  case return_ => exact absurd rfl hop
  case jump => exact hb.jump
  case jumpIfFalse => exact hb.jumpIfFalse
  case loop => exact hb.loop
  case call => exact hb.call
  case invoke => exact hb.invoke
  case superInvoke => exact hb.superInvoke
  case closure => exact hb.closure hfit

theorem leave (hlow : script.EndsLow) (hb : Begins fit script holds marks s .return_ operand height m) : Obeys m leave
    (fun b m' => if b then m'.Between fit script holds marks else m'.Ended fit holds marks)
    (s.Blames fit holds marks) := by
  have hcalls : Grows (modify fun m : Machine => { m with calls := m.calls.pop } : MachineM Unit) := .modify fun _ =>
      rfl
  have hback : Grows (modify fun m : Machine => { m with sp := s.base.toNat } : MachineM Unit) :=
    .modify fun _ => rfl
  have hin := hb.inside (Nat.zero_le _)
  unfold MachineM.leave
  dsimp only
  refine obeys_frame_bind hb.within ?_
  dsimp only
  have hpop : Moves 0 (-1) pop := inferInstance
  have hgrow (result : Value) : Grows (do
      modify fun m : Machine => { m with calls := m.calls.pop }
      if (← get).calls.depth = 0 then
        let _ ← pop
        return false
      if s.base < 0 then stop .outOfRange
      modify fun m => { m with sp := s.base.toNat }
      push result
      return true : MachineM Bool) :=
    .bind fun _ => .bind fun m => by
      dsimp only
      infer_instance
  refine (hpop.keeps hb.within hin hin).bind (fun result => .bind fun _ => hgrow result) fun result m₁ hw₁ => ?_
  refine (obeys_closeUpvalues hw₁ s.base).bind (fun _ => hgrow result) ?_
  rintro _ m₂ ⟨hw₂, hupvalues⟩
  apply Obeys.modify_bind
  apply Obeys.get_bind
  have hframes := hw₂.frames
  have hdepth := m₂.calls.depth_eq
  have hsp := hw₂.sp
  have hwaiting := hw₂.waiting
  rw [hframes] at hdepth
  cases houter : s.outer with
  | nil =>
    rw [houter] at hwaiting hdepth
    obtain ⟨hscript, hbase⟩ := hwaiting
    have hheight : height = 2 := hlow s.offset height operand (hscript ▸ hb.reaches) (hscript ▸ hb.instr)
    have hone : m₂.sp = 1 := by
      rw [hheight] at hsp
      omega
    refine .ite (fun _ => ?_) fun hne => absurd (by show m₂.calls.depth - 1 = 0; rw [hdepth]; rfl) hne
    unfold Obeys
    rw [runBind, pop_eq, if_neg (by show ¬ m₂.sp = 0; omega)]
    refine .inr ⟨hw₂.kept, hw₂.room, Nat.le_trans (Nat.sub_le ..) hw₂.written, Nat.le_trans (Nat.sub_le ..) hw₂.space,
      by show m₂.sp - 1 = 0; omega, ?_, ?_⟩
    · show m₂.calls.frames.tail = []
      rw [hframes, houter]
      rfl
    · show m₂.openUpvalues = []
      rw [hupvalues, hbase, List.dropWhile_eq_nil_iff]
      exact fun u hu => by simpa using (hw₁.upvalues u hu).1
  | cons q rest =>
    rw [houter] at hwaiting hdepth
    obtain ⟨⟨hfits, hcode, op', operand', height', hreaches, hi, henters, hip, hbase⟩, hrest⟩ := hwaiting
    obtain ⟨hnext, hleaves⟩ := op'.next_enters henters operand' q.offset
    refine .ite (fun heq => ?_) fun _ => .ite (fun _ => obeys_stop) fun hneg => ?_
    · have heq : m₂.calls.depth - 1 = 0 := heq
      rw [hdepth] at heq
      simp at heq
    · apply Obeys.modify_bind
      have hbelow : s.base.toNat ≤ m₂.sp := by
        have : 1 ≤ height := hb.enough
        omega
      refine .inr ⟨⟨q.frame.closure, q.frame.base, q.code, q.frame.ip, rest⟩,
        height' - op'.takes operand' + op'.leaves, ?_, hreaches.next hi (by rw [hnext, hip]; exact .head _)⟩
      exact
        { kept := hw₂.kept
          room := hw₂.room
          written := by
            refine Stack.size_set_top (n := s.base.toNat) ?_ result
            split <;> exact Nat.le_trans hbelow hw₂.written
          space := Nat.le_max_right ..
          fits := hfits
          frames := by
            show m₂.calls.frames.tail = _
            rw [hframes, houter]
            rfl
          calls := hcode
          waiting := hrest
          sp := by
            show ((s.base.toNat + 1 : Nat) : Int) = q.frame.base + _
            omega
          upvalues := hw₂.upvalues }

end Begins

theorem obeys_step (hfit : Fitting fit) (hlow : script.EndsLow) {height : Nat}
    (hw : m.Within fit script holds marks s s.offset height) (hr : s.code.Reaches s.offset height) : Obeys m step
      (fun b m' => if b then m'.Between fit script holds marks else m'.Ended fit holds marks)
      (s.Blames fit holds marks) := by
  have hvetted := hfit.vetted _ hw.fits
  obtain ⟨op, operand, hi, hhas⟩ := hvetted.runs hr
  have hstarts := hvetted.starts hr
  obtain ⟨ha, hfits, hsuits⟩ := hvetted.ahead hstarts hi
  unfold step
  refine (obeys_readByte_ahead hw ha).bind (fun b => by split <;> infer_instance) ?_
  rintro b m₁ ⟨rfl, hw₁, -⟩
  rw [Opcode.ofByte?_toByte]
  have hb : Begins fit script holds marks s op operand height m₁ :=
      ⟨hw₁, hr, hi, hstarts, ha.tail, hfits, hsuits, hhas.enough⟩
  by_cases hop : op = .return_
  · subst hop
    exact hb.leave hlow
  · have hexecute := (hb.execute hfit hop).bind (f := fun _ => pure true) (fun _ => inferInstance) fun _ m' hm' =>
        (.pure hm' : Obeys m' (pure true)
        (fun b m' => if b then m'.Between fit script holds marks else m'.Ended fit holds marks) _)
    cases op <;> first | exact absurd rfl hop | exact hexecute

structure Fails (fit : Prototype → Prop) (script : Prototype) (holds : List Value) (marks : List RootMarker)
    (m : Machine) (e : RuntimeError)
    (m' : Machine) : Prop where
  kept : m'.heap.Kept fit holds marks
  room : 0 < m'.maxFrames
  arises : ∃ n m₁ s height, run n m = .ok true m₁ ∧ m₁.Within fit script holds marks s s.offset (height : Nat) ∧
    s.code.Reaches s.offset height ∧ step m₁ = .error (.error e) m' ∧ s.Blames fit holds marks e m'

theorem run_succ {m m' : Machine} (hstep : step m = .ok true m') (n : Nat) : run (n + 1) m = run n m' := by
  rw [run, runBind, hstep]
  rfl

theorem obeys_run (hfit : Fitting fit) (hlow : script.EndsLow) (fuel : Nat) (hm : m.Between fit script holds marks) :
    Obeys m (run fuel) (fun b m' => if b then m'.Between fit script holds marks else m'.Ended fit holds marks)
      (Fails fit script holds marks m) := by
  induction fuel generalizing m with
  | zero => exact .pure hm
  | succ fuel ih =>
    obtain ⟨s, height, hw, hr⟩ := id hm
    have hstep := obeys_step hfit hlow hw hr
    unfold Obeys at hstep ⊢
    rw [run, runBind]
    cases hrun : step m with
    | error e m' =>
      rw [hrun] at hstep
      cases e with
      | fault f => trivial
      | error e => exact hstep.imp_right fun hb => ⟨hb.kept, hb.room, 0, m, s, height, rfl, hw, hr, hrun, hb⟩
    | ok b m₁ =>
      rw [hrun] at hstep
      cases b with
      | false => exact hstep
      | true =>
        rcases hstep with hex | hnext
        · exact Obeys.of_exhausted inferInstance hex
        · refine Obeys.imp_fails (ih hnext) ?_
          rintro e m' ⟨hkept, hroom, n, m₂, s', height', hn, hrest⟩
          exact ⟨hkept, hroom, n + 1, m₂, s', height', (run_succ hrun n).trans hn, hrest⟩

end MachineM

end Lox

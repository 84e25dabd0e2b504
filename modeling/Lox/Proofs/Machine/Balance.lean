import Lox.Proofs.Compile.CarryOut
import Lox.Proofs.Machine.Values
import Lox.Proofs.Table.Operations

namespace Lox

namespace Heap

variable {h h' : Heap} {l : Loc}

def IsUpvalue (h : Heap) (l : Loc) : Prop :=
  ∃ o, h.objects[l]? = some o ∧ o.kind = .upvalue

theorem leads_of_locOfValue {v : Value} (hc : h.Consistent) (hl : HeapView.locOfValue v h = .ok l) :
    h.Leads (.value v) l ∧ h.Alive l := by
  rw [HeapView.locOfValue_eq] at hl
  split at hl
  · rename_i hobj
    cases hfind : h.find? v.bits.toUInt32 with
    | none => simp [hfind] at hl
    | some k =>
      simp only [hfind, Except.ok.injEq] at hl
      subst hl
      obtain ⟨o, ho, hof, -⟩ := hc.ref_of_find? hfind
      exact ⟨.value hobj hfind, o, ho, hof⟩
  · cases hl

theorem Leads.isObject {v : Value} (hl : h.Leads (.value v) l) : v.isObject := by
  cases hl with
  | value hv _ => exact hv

theorem IsUpvalue.books {r : Roots} {delta : Int} (hu : h.IsUpvalue l) (hb : Books r delta h h') :
    h'.IsUpvalue l := by
  obtain ⟨o, ho, hk⟩ := hu
  obtain ⟨o', ho', -, hk'⟩ := hb.handles l o ho
  exact ⟨o', ho', hk'.trans hk⟩

theorem IsUpvalue.exists_body (hu : h.IsUpvalue l) :
    ∃ o u, h.objects[l]? = some o ∧ o.body = .upvalue u := by
  obtain ⟨o, ho, hk⟩ := hu
  cases hb : o.body with
  | upvalue u => exact ⟨o, u, ho, hb⟩
  | _ => simp [Object.kind, hb, Body.kind] at hk

theorem keepsKinds_closeBody (v : Value) : KeepsKinds (closeBody v) :=
  ⟨fun _ _ => rfl, fun b => by cases b <;> rfl⟩

theorem ownedBytes_closeBody (v : Value) (b : Body) : (closeBody v b).ownedBytes = b.ownedBytes := by
  cases b <;> rfl

end Heap

namespace Machine

open Heap

structure Owes (m : Machine) (bytes : Int) : Prop where
  running : m.closed = false
  sound : m.heap.Sound
  counted : m.heap.Counted
  surplus : m.heap.surplus = bytes
  open_ : m.heap.closed = false
  registered : .machine ∈ m.heap.markers
  upvalues : ∀ u ∈ m.openUpvalues, m.heap.IsUpvalue u.2

def Balanced (m : Machine) : Prop :=
  m.Owes (m.globals.capacity * 16)

theorem Owes.reheap {m : Machine} {bytes delta : Int} {r : Roots} {h : Heap} (hm : m.Owes bytes)
    (hs : h.Sound) (hb : Books r delta m.heap h) : ({ m with heap := h } : Machine).Owes (bytes + delta) where
  running := hm.running
  sound := hs
  counted := hb.counted hm.counted
  surplus := by
    rw [← hm.surplus]
    exact hb.surplus
  open_ := hb.closed.trans hm.open_
  registered := by
    rw [hb.markers]
    exact hm.registered
  upvalues u hu := (hm.upvalues u hu).books hb

theorem Balanced.resettle {m : Machine} {r : Roots} {h : Heap} (hm : m.Balanced) (hs : h.Sound)
    (hb : Books r 0 m.heap h) : ({ m with heap := h } : Machine).Balanced := by
  have ho := hm.reheap hs hb
  rwa [Int.add_zero] at ho

/-- Two machines with the same heap and global variables that take as much storage. -/
structure Spares (m m' : Machine) : Prop where
  closed : m'.closed = m.closed
  heap : m'.heap = m.heap
  globals : m'.globals.capacity = m.globals.capacity
  upvalues : ∀ u ∈ m'.openUpvalues, u ∈ m.openUpvalues

theorem Spares.of_same {m m' : Machine} (heap : m'.heap = m.heap)
    (globals : m'.globals.capacity = m.globals.capacity)
    (upvalues : m'.openUpvalues = m.openUpvalues) (closed : m'.closed = m.closed) : Spares m m' :=
  ⟨closed, heap, globals, fun _ hu => upvalues ▸ hu⟩

theorem Balanced.spare {m m' : Machine} (hm : m.Balanced) (hs : Spares m m') : m'.Balanced where
  running := hs.closed.trans hm.running
  sound := hs.heap ▸ hm.sound
  counted := hs.heap ▸ hm.counted
  surplus := by
    rw [hs.heap, hs.globals]
    exact hm.surplus
  open_ := hs.heap ▸ hm.open_
  registered := hs.heap ▸ hm.registered
  upvalues u hu := hs.heap ▸ hm.upvalues u (hs.upvalues u hu)

end Machine

namespace MachineM

open Heap HeapView Machine

variable {α β : Type} {m : Machine}

def Meets (m : Machine) (act : MachineM α) (post : α → Machine → Prop) : Prop :=
  match act m with
  | .ok a m' => Exhausted m'.heap ∨ post a m'
  | .error (.error _) m' => Exhausted m'.heap ∨ m'.Balanced
  | .error (.fault _) _ => True

namespace Meets

theorem imp {act : MachineM α} {post post' : α → Machine → Prop} (hx : Meets m act post)
    (himp : ∀ a m', post a m' → post' a m') : Meets m act post' := by
  unfold Meets at *
  split <;> rename_i heq <;> rw [heq] at hx
  · exact hx.imp_right (himp _ _)
  · exact hx
  · trivial

theorem of_exhausted {act : MachineM α} {post : α → Machine → Prop} (hg : Grows act)
    (he : m.heap.Exhausted) : Meets m act post := by
  have hend : Exhausted (finalState (act m)).heap := Nat.lt_of_lt_of_le he (hg.le m)
  unfold Meets
  split <;> rename_i heq <;> rw [heq] at hend
  · exact .inl hend
  · exact .inl hend
  · trivial

theorem bind {x : MachineM α} {f : α → MachineM β} {mid : α → Machine → Prop}
    {post : β → Machine → Prop} (hx : Meets m x mid) (hg : ∀ a, Grows (f a))
    (hf : ∀ a m', mid a m' → Meets m' (f a) post) : Meets m (x >>= f) post := by
  unfold Meets at hx
  split at hx <;> rename_i a m' heq
  · have hmid : Meets m' (f a) post := hx.elim (of_exhausted (hg a)) (hf a m')
    unfold Meets at hmid ⊢
    rwa [runBind, heq]
  · unfold Meets
    rw [runBind, heq]
    exact hx
  · unfold Meets
    rw [runBind, heq]
    trivial

theorem view_bind {view : HeapView α} {f : α → MachineM β} {post : β → Machine → Prop}
    (hf : ∀ a, view m.heap = .ok a → Meets m (f a) post) : Meets m (liftM view >>= f) post := by
  unfold Meets
  rw [runBind, run_view]
  cases hv : view m.heap with
  | ok a => exact hf a hv
  | error e => trivial

theorem onHeap {act : HeapM α} {mid : α → Heap → Prop} {post : α → Machine → Prop}
    (hx : HeapM.Delivers True (roots m) m.heap act mid)
    (hp : ∀ a h, mid a h → post a { m with heap := h }) : Meets m (onHeap act) post := by
  unfold HeapM.Delivers at hx
  unfold Meets
  rw [run_onHeap]
  cases hrun : act (roots m) m.heap with
  | ok a h =>
    rw [hrun] at hx
    exact hx.imp_right (hp a h)
  | error e h => trivial

theorem settled {act : HeapM α} (hm : m.Balanced) (hx : HeapM.Settles (roots m) m.heap act) :
    Meets m (MachineM.onHeap act) fun _ m' => m'.Balanced :=
  onHeap hx fun _ _ hp => hm.resettle hp.1 hp.2

end Meets

class Balances (act : MachineM α) : Prop where
  grows : Grows act
  keeps : ∀ m, m.Balanced → Meets m act fun _ m' => m'.Balanced

namespace Balances

instance (priority := low) {act : MachineM α} [h : Balances act] : Grows act := h.grows

theorem bind {x : MachineM α} {f : α → MachineM β} [hx : Balances x] (hf : ∀ a, Balances (f a)) :
    Balances (x >>= f) where
  grows := .bind fun a => (hf a).grows
  keeps m hm := (hx.keeps m hm).bind (fun a => (hf a).grows) fun a m' hm' => (hf a).keeps m' hm'

instance {x : MachineM α} {f : α → MachineM β} [Balances x] [hf : ∀ a, Balances (f a)] :
    Balances (x >>= f) :=
  bind hf

instance {x : MachineM α} (f : α → β) [hx : Balances x] : Balances (f <$> x) where
  grows := inferInstance
  keeps m hm := by
    have h₁ := hx.keeps m hm
    unfold Meets at *
    show match EStateM.map f x m with
      | .ok a m' => _
      | .error (.error _) m' => _
      | .error (.fault _) _ => _
    unfold EStateM.map
    cases hxr : x m with
    | ok a m' =>
      rw [hxr] at h₁
      exact h₁
    | error e m' =>
      rw [hxr] at h₁
      cases e <;> exact h₁

instance (a : α) : Balances (pure a : MachineM α) := ⟨inferInstance, fun _ hm => .inr hm⟩

instance : Balances (get : MachineM Machine) := ⟨inferInstance, fun _ hm => .inr hm⟩

instance (e : Stop) : Balances (throw e : MachineM α) where
  grows := inferInstance
  keeps _ hm := by
    cases e with
    | fault f => trivial
    | error e => exact .inr hm

instance (f : Fault) : Balances (stop f : MachineM α) := ⟨inferInstance, fun _ _ => trivial⟩

instance (view : HeapView α) : Balances (liftM view : MachineM α) where
  grows := inferInstance
  keeps m hm := by
    unfold Meets
    rw [run_view]
    cases view m.heap with
    | ok a => exact .inr hm
    | error e => trivial

instance {x : MachineM α} {act : HeapM β} [hx : Balances x] [hy : Balances (MachineM.onHeap act)] :
    Balances (tryFinally x (MachineM.onHeap act)) where
  grows := inferInstance
  keeps m hm := by
    have hx' := hx.keeps m hm
    have hend (m' : Machine) (hm' : Exhausted m'.heap ∨ m'.Balanced) :
        Meets m' (MachineM.onHeap act) fun _ m'' => m''.Balanced :=
      hm'.elim (.of_exhausted inferInstance) (hy.keeps m')
    unfold Meets at hx' hend ⊢
    rw [run_finally]
    cases hxr : x m with
    | ok a m' =>
      rw [hxr] at hx'
      have hend' := hend m' hx'
      cases hyr : MachineM.onHeap act m' with
      | ok b m'' =>
        rw [hyr] at hend'
        simpa only [hyr] using hend'
      | error e m'' =>
        rw [hyr] at hend'
        simp only [hyr]
        cases e <;> exact hend'
    | error e m' =>
      rw [hxr] at hx'
      -- a fault stays one, since the heap only ever faults
      cases e with
      | fault f =>
        simp only [run_onHeap]
        cases act (roots m') m'.heap <;> trivial
      | error e =>
        have hend' := hend m' hx'
        cases hyr : MachineM.onHeap act m' with
        | ok b m'' =>
          rw [hyr] at hend'
          simpa only [hyr] using hend'
        | error e m'' =>
          rw [hyr] at hend'
          simp only [hyr]
          cases e <;> exact hend'

instance {c : Prop} [Decidable c] {x y : MachineM α} [hx : Balances x] [hy : Balances y] :
    Balances (if c then x else y) := by
  split
  · exact hx
  · exact hy

instance {x y : MachineM Bool} [Balances x] [Balances y] : Balances (x <&&> y) := by
  refine .bind fun b => ?_
  cases b
  · exact inferInstanceAs (Balances (pure false))
  · exact inferInstanceAs (Balances y)

instance {f : α → MachineM β} [hf : ∀ a, Balances (f a)] (as : List α) : Balances (as.mapM f) := by
  induction as with
  | nil =>
    rw [List.mapM_nil]
    infer_instance
  | cons a as ih =>
    rw [List.mapM_cons]
    infer_instance

theorem modify {f : Machine → Machine} (hf : ∀ m, Spares m (f m)) :
    Balances (modify f : MachineM Unit) where
  grows := .modify fun m => (hf m).heap
  keeps m hm := .inr (hm.spare (hf m))

theorem modifyGet {f : Machine → α × Machine} (hf : ∀ m, Spares m (f m).2) :
    Balances (modifyGet f : MachineM α) where
  grows := .modifyGet fun m => (hf m).heap
  keeps m hm := .inr (hm.spare (hf m))

theorem onHeap {act : HeapM α} (hg : HeapM.Grows act)
    (hs : ∀ {r h}, h.Sound → HeapM.Settles r h act) : Balances (onHeap act) where
  grows := .onHeap hg
  keeps _ hm := .settled hm (hs hm.sound)

theorem value {act : HeapM Loc} (hg : HeapM.Grows act)
    (hs : ∀ {r h}, h.Sound → HeapM.Settles r h act) :
    Balances (MachineM.onHeap (do valueOf (← act))) := by
  refine onHeap (hg.bind fun _ => HeapM.grows_view _) fun h => ?_
  exact (hs h).bind h (fun _ => HeapM.grows_view _) fun _ _ h' _ => HeapM.settles_view h' _

theorem updateBody (l : Loc) {f : Body → Body} (hf : KeepsKinds f)
    (hown : ∀ b, (f b).ownedBytes = b.ownedBytes) :
    Balances (MachineM.onHeap (MonadState.modifyGet fun h => ((), h.updateBody l f))) :=
  onHeap (HeapM.grows_updateBody l f) fun h => HeapM.settles_updateBody h l hf hown

instance : Balances (MachineM.onHeap HeapM.collect) := onHeap HeapM.grows_collect HeapM.settles_collect

instance (v : Value) : Balances (MachineM.onHeap (HeapM.hold v)) :=
  onHeap (HeapM.grows_hold v) fun h => HeapM.settles_hold h v

instance (depth : Nat) : Balances (MachineM.onHeap (HeapM.unhold depth)) :=
  onHeap (HeapM.grows_unhold depth) fun h => HeapM.settles_unhold h depth

end Balances

instance (v : Value) : Balances (push v) := .modify fun _ => .of_same rfl rfl rfl rfl

instance : Balances pop where
  grows := ⟨fun m => by
    rw [pop_eq]
    split <;> exact Nat.le_refl _⟩
  keeps m hm := by
    unfold Meets
    rw [pop_eq]
    split <;> rename_i h <;> split at h
    · cases h
    · cases h
      exact .inr (hm.spare (.of_same rfl rfl rfl rfl))
    all_goals cases h
    trivial

instance (i : Int) : Balances (readSlot i) := by
  refine .bind fun m => ?_
  have : Balances (match m.stack.get? i.toNat with
      | some v => return v
      | none => stop .outOfRange : MachineM Value) := by
    split <;> infer_instance
  dsimp only
  infer_instance

instance (i : Int) (v : Value) : Balances (writeSlot i v) := by
  have : Balances (modify fun m : Machine => { m with stack := m.stack.set i.toNat v } : MachineM Unit) :=
    .modify fun _ => .of_same rfl rfl rfl rfl
  unfold writeSlot
  dsimp only
  infer_instance

instance (distance : Nat) : Balances (peek distance) := by
  unfold peek
  infer_instance

instance (count : Nat) : Balances (calleeSlot count) := by
  unfold calleeSlot
  infer_instance

instance (text : Bytes) : Balances (print text) := .modify fun _ => .of_same rfl rfl rfl rfl

instance (closure : Loc) : Balances (functionOf closure) := by
  unfold functionOf
  infer_instance

instance (f : Frame) : Balances (traceLine f) := by
  refine .bind fun fn => ?_
  split <;> infer_instance

instance (p : RuntimeProblem) : Balances (raise p : MachineM α) := by
  unfold raise
  infer_instance

instance (name : Symbol) (v : Value) : Balances (setGlobal name v) := by
  have hmod (capacity : Nat) : Grows (modify fun m : Machine =>
      { m with globals := m.globals.growTo capacity } : MachineM Unit) := .modify fun _ => rfl
  have hins : Balances (modifyGet fun m : Machine =>
      let (isNew, globals) := m.globals.insert name v
      (isNew, { m with globals }) : MachineM Bool) :=
    .modifyGet fun m => .of_same rfl (Table.capacity_insert m.globals name v) rfl rfl
  have hgrow : Grows (setGlobal name v) := by
    unfold setGlobal
    dsimp only
    infer_instance
  refine ⟨hgrow, fun m hm => ?_⟩
  show Meets m (if m.globals.isCrowded then _ else _) _
  split
  · -- the charge comes first, then the storage that it pays for
    have hcharge := HeapM.delivers_account_books (r := roots m) hm.sound.consistent
      ((nextCapacity m.globals.capacity - m.globals.capacity : Nat) * 16)
    refine (Meets.onHeap hcharge fun _ h hp =>
      ⟨rfl, hm.reheap (hp.1.sound hm.sound) hp.2⟩ : Meets m _ fun _ m' =>
        m'.globals = m.globals ∧ m'.Owes _).bind (fun _ => inferInstance) ?_
    rintro _ m₁ ⟨hglobals, hm₁⟩
    refine hins.keeps _ { hm₁ with surplus := hm₁.surplus.trans ?_ }
    have hle := Table.le_nextCapacity m.globals.capacity
    rw [Table.capacity_growTo]
    omega
  · exact hins.keeps m hm

instance (text : Bytes) : Balances (stringValue text) := by
  refine .onHeap ((HeapM.grows_intern text).bind fun _ => HeapM.grows_view _) fun h => ?_
  exact (HeapM.settles_intern h text).bind h (fun _ => HeapM.grows_view _) fun _ _ h' _ =>
    HeapM.settles_view h' _

instance (n : Native) : Balances (defineNative n) := by
  have : Balances (onHeap do valueOf (← HeapM.newNative n)) :=
    .value (HeapM.grows_allocate _ _) fun h => HeapM.settles_newNative h n
  have : Balances (onHeap do valueOf (← HeapM.intern n.name).loc) :=
    inferInstanceAs (Balances (stringValue n.name))
  refine .bind fun _ => .bind fun _ => .bind fun _ => .bind fun _ => .bind fun _ => ?_
  infer_instance

instance (closure : Loc) (count : Nat) : Balances (call closure count) := by
  have (f : Frame) : Balances (modify fun m : Machine => { m with calls := m.calls.push f } :
      MachineM Unit) := .modify fun _ => .of_same rfl rfl rfl rfl
  unfold call
  dsimp only
  infer_instance

instance : Balances elapsed := .modifyGet fun _ => .of_same rfl rfl rfl rfl

instance (name : Bytes) : Balances (global? name) := by
  unfold global?
  infer_instance

theorem balances_setField {owner : Value} {l : Loc} (hm : m.Balanced) (hl : locOfValue owner m.heap = .ok l)
    (name : Symbol) (v : Value) : Meets m (onHeap (HeapM.rooting .host fun k =>
      HeapM.withRoots k [.value owner] (HeapM.setEntry l name v))) fun _ m' => m'.Balanced := by
  refine Meets.settled hm (HeapM.settles_rooting RootMarker.numbers_host fun k hk => ?_)
  obtain ⟨hlead, halive⟩ := leads_of_locOfValue hm.sound.consistent hl
  have hs : Sound { m.heap with markers := m.heap.markers ++ [k] } :=
    hm.sound.congr ⟨rfl, rfl, rfl, rfl, rfl, rfl, rfl⟩
  refine HeapM.settles_setEntry hs ?_ name v
  exact ⟨hm.open_, halive.congr rfl, .value owner,
    (mem_registered_joined hk).mpr (.inl (List.mem_singleton.mpr rfl)), trivial, hlead.congr (by rfl) (by rfl)⟩

theorem balances_answer (code : HostCode) : Balances (answer code) := by
  induction code with
  | answer v =>
    unfold answer
    infer_instance
  | fail message =>
    unfold answer
    infer_instance
  | elapsed next ih | format v next ih | string chars next ih | field owner name next ih | global name next ih
  | openSlots next ih =>
    unfold answer
    infer_instance
  | nested next ih =>
    unfold answer
    exact ih _
  | collect next ih | write text next ih | setGlobal name v next ih | define name code next _ ih =>
    unfold answer
    infer_instance
  | class_ name next ih =>
    have (s : Symbol) : Balances (onHeap do valueOf (← HeapM.newClass s)) :=
      .value (HeapM.grows_allocate _ _) fun h => HeapM.settles_newClass h s
    unfold answer
    infer_instance
  | instance_ class_ next ih =>
    have (l : Loc) : Balances (onHeap do valueOf (← HeapM.newInstance l)) :=
      .value (HeapM.grows_allocate _ _) fun h => HeapM.settles_newInstance h l
    unfold answer
    infer_instance
  | setField owner name v next ih =>
    have (l : Loc) (name : Symbol) : Grows (onHeap (HeapM.rooting .host fun k =>
        HeapM.withRoots k [.value owner] (HeapM.setEntry l name v))) :=
      .onHeap (HeapM.grows_rooting _ fun k => (HeapM.keeps_setEntry l name v).grows.withRoots k _)
    unfold answer
    refine ⟨inferInstance, fun m hm => Meets.view_bind fun l hl => Meets.view_bind fun _ _ =>
      Meets.view_bind fun s _ => ?_⟩
    exact (balances_setField hm hl s v).bind (fun _ => inferInstance) fun _ m' hm' => ih.keeps m' hm'
  | holding v inner next ih ih' =>
    unfold answer
    infer_instance

instance (f : HostFunction) (arguments : List Value) : Balances (host f arguments) := by
  cases f with
  | clock | gc =>
    simp only [host]
    infer_instance
  | custom code => exact balances_answer _

instance (n : Native) (count : Nat) : Balances (callNative n count) := by
  have : Balances (modify fun m : Machine => { m with sp := m.sp - (count + 1) } : MachineM Unit) :=
    .modify fun _ => .of_same rfl rfl rfl rfl
  unfold callNative
  dsimp only
  split <;> infer_instance

instance (l : Loc) (count : Nat) : Balances (construct l count) := by
  have : Balances (onHeap do valueOf (← HeapM.newInstance l)) :=
    .value (HeapM.grows_allocate _ _) fun h => HeapM.settles_newInstance h l
  refine .bind fun v => .bind fun slot => .bind fun _ => .bind fun c => .bind fun m => ?_
  split <;> infer_instance

instance (callee : Value) (count : Nat) : Balances (callValue callee count) := by
  have : Balances (do
      let l ← locOfValue callee
      match (← object l).body with
      | .boundMethod b =>
        writeSlot (← calleeSlot count) b.receiver
        call b.method count
      | .class_ _ => construct l count
      | .closure _ => call l count
      | .native n => callNative n count
      | _ => raise .notCallable : MachineM Unit) := by
    refine .bind fun l => .bind fun o => ?_
    split <;> infer_instance
  unfold callValue
  infer_instance

instance (class_ : Loc) (name : Symbol) : Balances (findMethod class_ name) := by
  refine .bind fun c => ?_
  split <;> infer_instance

instance (class_ : Loc) (name : Symbol) (count : Nat) : Balances (invokeFromClass class_ name count) := by
  unfold invokeFromClass
  infer_instance

instance (name : Symbol) (count : Nat) : Balances (invoke name count) := by
  have (receiver : Value) : Balances (do
      let i ← instanceAt (← locOfValue receiver)
      match i.fields.get? name with
      | some value =>
        writeSlot (← calleeSlot count) value
        callValue value count
      | none => invokeFromClass i.class_ name count : MachineM Unit) := by
    refine .bind fun l => .bind fun i => ?_
    split <;> infer_instance
  unfold invoke
  dsimp only
  infer_instance

instance (class_ : Loc) (name : Symbol) : Balances (bindMethod class_ name) := by
  have (receiver : Value) (l : Loc) : Balances (onHeap do valueOf (← HeapM.newBoundMethod receiver l)) :=
    .value (HeapM.grows_allocate _ _) fun h => HeapM.settles_newBoundMethod h receiver l
  refine .bind fun method => .bind fun depth => .bind fun receiver => .bind fun closure =>
    .bind fun _ => ?_
  have := this receiver closure
  refine .bind fun bound => ?_
  infer_instance

theorem readSlot_eq (i : Int) (m : Machine) : readSlot i m =
    if i < 0 then .error (.fault .outOfRange) m
    else match m.stack.get? i.toNat with
      | some v => .ok v m
      | none => .error (.fault .outOfRange) m := by
  unfold readSlot
  rw [runBind]
  show (if i < 0 then _ else _ : MachineM Value) m = _
  split
  · rfl
  · cases m.stack.get? i.toNat <;> rfl

theorem meets_readSlot (i : Int) : Meets m (readSlot i) fun v m' =>
    m' = m ∧ 0 ≤ i ∧ m.stack.get? i.toNat = some v := by
  unfold Meets
  rw [readSlot_eq]
  by_cases hi : i < 0
  · rw [if_pos hi]
    trivial
  · rw [if_neg hi]
    cases hv : m.stack.get? i.toNat with
    | none => trivial
    | some v => exact .inr ⟨rfl, by omega, rfl⟩

theorem mem_insertUpvalue {slot : Int} {l : Loc} {u : Int × Loc} {us : List (Int × Loc)}
    (hu : u ∈ insertUpvalue slot l us) : u = (slot, l) ∨ u ∈ us := by
  induction us with
  | nil => exact .inl (List.mem_singleton.mp hu)
  | cons w us ih =>
    unfold insertUpvalue at hu
    split at hu
    · rcases List.mem_cons.mp hu with rfl | hu
      · exact .inr (List.mem_cons_self ..)
      · exact (ih hu).imp_right (List.mem_cons_of_mem _)
    · exact List.mem_cons.mp hu

instance (slot : Int) : Balances (captureUpvalue slot) := by
  have hmod (l : Loc) : Grows (modify fun m : Machine =>
      { m with openUpvalues := insertUpvalue slot l m.openUpvalues } : MachineM Unit) :=
    .modify fun _ => rfl
  have hnew : Grows (onHeap (HeapM.newUpvalue slot)) := .onHeap (HeapM.grows_allocate _ _)
  have hgrow : Grows (captureUpvalue slot) := by
    refine .bind fun m => ?_
    split <;> infer_instance
  refine ⟨hgrow, fun m hm => ?_⟩
  show Meets m (match m.openUpvalues.find? (·.1 == slot) with
    | some u => _
    | none => _) _
  split
  · exact .inr hm
  · have hmade : HeapM.Delivers True (roots m) m.heap (HeapM.newUpvalue slot) fun l h =>
        (h.Sound ∧ Books (roots m) 0 m.heap h) ∧ h.IsUpvalue l := by
      refine HeapM.Delivers.and (HeapM.settles_newUpvalue hm.sound slot) ?_
      refine (HeapM.delivers_allocate hm.sound.consistent (fun _ => trivial) _ _).imp ?_
      rintro l h ⟨h₁, -, rfl, rfl, -⟩
      refine ⟨_, by rw [objects_link, Array.getElem?_push, if_pos rfl], rfl⟩
    have hopened : Meets m (onHeap (HeapM.newUpvalue slot)) fun l m' =>
        m'.Balanced ∧ m'.heap.IsUpvalue l := by
      refine Meets.onHeap hmade ?_
      rintro l h ⟨⟨hs, hb⟩, hl⟩
      exact ⟨hm.resettle hs hb, hl⟩
    refine hopened.bind (fun _ => inferInstance) ?_
    rintro l m₁ ⟨hm₁, hl⟩
    refine .inr { hm₁ with upvalues := fun u hu => ?_ }
    rcases mem_insertUpvalue hu with rfl | hu
    · exact hl
    · exact hm₁.upvalues u hu

theorem meets_close {l : Loc} (hm : m.Balanced) (hu : m.heap.IsUpvalue l) (v : Value) :
    Meets m (onHeap (modify (·.updateBody l fun _ => .upvalue (.closed v)))) fun _ m' =>
      m'.Balanced ∧ ∀ k, m.heap.IsUpvalue k → m'.heap.IsUpvalue k := by
  obtain ⟨o, u, ho, hbody⟩ := hu.exists_body
  have hsame : m.heap.updateBody l (fun _ => .upvalue (.closed v)) =
      m.heap.updateBody l (closeBody v) :=
    updateBody_congr ho (by rw [hbody, closeBody])
  have hset := HeapM.settles_updateBody (r := roots m) hm.sound l (keepsKinds_closeBody v)
    (ownedBytes_closeBody v)
  have hclose : HeapM.Settles (roots m) m.heap
      (modify (·.updateBody l fun _ => .upvalue (.closed v)) : HeapM Unit) := by
    unfold HeapM.Settles HeapM.Delivers at *
    rw [HeapM.run_modify] at *
    rwa [hsame]
  exact Meets.onHeap hclose fun _ h hp => ⟨hm.resettle hp.1 hp.2, fun k hk => hk.books hp.2⟩

instance (last : Int) (us : List (Int × Loc)) : Grows (closeFrom last us) := by
  induction us with
  | nil =>
    unfold closeFrom
    infer_instance
  | cons u us ih =>
    have : Grows (modify fun m : Machine => { m with openUpvalues := us } : MachineM Unit) :=
      .modify fun _ => rfl
    have (v : Value) : Grows (onHeap (modify (·.updateBody u.2 fun _ => .upvalue (.closed v)))) :=
      .onHeap (HeapM.grows_updateBody _ _)
    unfold closeFrom
    infer_instance

theorem meets_closeFrom (last : Int) {us : List (Int × Loc)} (hm : m.Balanced)
    (hus : ∀ u ∈ us, m.heap.IsUpvalue u.2) :
    Meets m (closeFrom last us) fun _ m' => m'.Balanced := by
  induction us generalizing m with
  | nil => exact .inr hm
  | cons u us ih =>
    have hmod : Grows (modify fun m : Machine => { m with openUpvalues := us } : MachineM Unit) :=
      .modify fun _ => rfl
    have hset (v : Value) : Grows (onHeap (modify (·.updateBody u.2 fun _ => .upvalue (.closed v)))) :=
      .onHeap (HeapM.grows_updateBody _ _)
    unfold closeFrom
    split
    · refine (meets_readSlot u.1).bind (fun _ => inferInstance) ?_
      rintro v _ ⟨rfl, -, -⟩
      refine (meets_close hm (hus u (List.mem_cons_self ..)) v).bind (fun _ => inferInstance) ?_
      rintro _ m₁ ⟨hm₁, hkeep⟩
      have hus₁ : ∀ w ∈ us, m₁.heap.IsUpvalue w.2 := fun w hw =>
        hkeep w.2 (hus w (List.mem_cons_of_mem _ hw))
      exact ih { hm₁ with upvalues := hus₁ } hus₁
    · exact .inr hm

instance (last : Int) : Balances (closeUpvalues last) where
  grows := by
    unfold closeUpvalues
    infer_instance
  keeps m hm := meets_closeFrom last hm hm.upvalues

instance (l : Loc) : Balances (readUpvalue l) := by
  refine .bind fun u => ?_
  split <;> infer_instance

instance (l : Loc) (v : Value) : Balances (writeUpvalue l v) := by
  have hclose : Grows (onHeap (modify (·.updateBody l fun _ => .upvalue (.closed v)))) :=
    .onHeap (HeapM.grows_updateBody _ _)
  have hgrow : Grows (writeUpvalue l v) := by
    refine .bind fun u => ?_
    split <;> infer_instance
  refine ⟨hgrow, fun m hm => Meets.view_bind fun u hu => ?_⟩
  obtain ⟨o, ho, hbody⟩ := upvalueAt_eq_ok.mp hu
  cases u with
  | stack slot => exact (inferInstance : Balances (writeSlot slot v)).keeps m hm
  | closed w =>
    have hup : m.heap.IsUpvalue l := ⟨o, ho, by rw [Object.kind, hbody]; rfl⟩
    exact (meets_close hm hup v).imp fun _ _ hp => hp.1

instance : Balances frame := by
  refine .bind fun m => ?_
  split <;> infer_instance

instance (ip : Nat) : Balances (jumpTo ip) := .modify fun _ => .of_same rfl rfl rfl rfl

instance (f : Function) (offset : Nat) : Balances (codeAt f offset) := by
  unfold codeAt
  split <;> infer_instance

instance : Balances readByte := by
  unfold readByte
  infer_instance

instance : Balances readShort := by
  unfold readShort
  infer_instance

instance : Balances readConstant := by
  refine .bind fun b => .bind fun f => .bind fun fn => ?_
  split <;> infer_instance

instance : Balances readName := by
  unfold readName
  infer_instance

instance : Balances readCaptured := by
  refine .bind fun b => .bind fun f => .bind fun c => ?_
  split <;> infer_instance

instance (p : RuntimeProblem) (v : Value) : Balances (instanceOr p v) := by
  unfold instanceOr
  infer_instance

instance : Balances popClass := by
  unfold popClass
  infer_instance

instance : Balances popNumber := by
  refine .bind fun v => ?_
  split <;> infer_instance

instance (distance : Nat) : Balances (isNumber distance) := by
  unfold isNumber
  infer_instance

instance (distance : Nat) : Balances (isString distance) := by
  unfold isString
  infer_instance

instance (closure : Loc) (i left : Nat) : Balances (fillCaptures closure i left) := by
  induction left generalizing i with
  | zero =>
    unfold fillCaptures
    infer_instance
  | succ left ih =>
    have (captured : Option Loc) : Balances (do
        onHeap (modify (·.updateBody closure fun
          | .closure c => .closure { c with upvalues := c.upvalues.setIfInBounds i captured }
          | b => b))
        fillCaptures closure (i + 1) left : MachineM Unit) :=
      have : Balances (onHeap (modify (·.updateBody closure fun
          | .closure c => .closure { c with upvalues := c.upvalues.setIfInBounds i captured }
          | b => b))) :=
        .updateBody closure ⟨fun _ _ => rfl, fun b => by cases b <;> rfl⟩ fun b => by cases b <;> rfl
      .bind fun _ => ih _
    refine .bind fun isLocal => .bind fun index => .bind fun f => ?_
    dsimp only
    split
    · infer_instance
    · refine .bind fun c => ?_
      split <;> infer_instance

instance : Balances makeClosure := by
  have (l : Loc) : Balances (onHeap (HeapM.newClosure l)) :=
    .onHeap (HeapM.keeps_newClosure l).grows fun h => HeapM.settles_newClosure h l
  unfold makeClosure
  infer_instance

instance : Balances getGlobal := by
  refine .bind fun name => .bind fun m => ?_
  split <;> infer_instance

instance : Balances assignGlobal := by
  have (name : Symbol) : Balances (modify fun m : Machine =>
      { m with globals := (m.globals.delete name).2 } : MachineM Unit) :=
    .modify fun m => .of_same rfl (Table.capacity_delete m.globals name) rfl rfl
  unfold assignGlobal
  infer_instance

instance : Balances getUpvalue := by
  refine .bind fun u => ?_
  split <;> infer_instance

instance : Balances setUpvalue := by
  refine .bind fun u => ?_
  split <;> infer_instance

instance : Balances getProperty := by
  refine .bind fun v => .bind fun l => .bind fun name => .bind fun i => ?_
  split <;> infer_instance

instance (f : Float → Float → Value) : Balances (numeric f) := by
  unfold numeric
  dsimp only
  infer_instance

instance : Balances concatenate := by
  unfold concatenate
  infer_instance

instance : Balances add := by
  unfold add
  infer_instance

instance : Balances leave := by
  have : Balances (modify fun m : Machine => { m with calls := m.calls.pop } : MachineM Unit) :=
    .modify fun _ => .of_same rfl rfl rfl rfl
  refine .bind fun f => .bind fun result => .bind fun _ => .bind fun _ => .bind fun m => ?_
  have hback : Balances (modify fun m : Machine => { m with sp := f.base.toNat } : MachineM Unit) :=
    .modify fun _ => .of_same rfl rfl rfl rfl
  dsimp only
  infer_instance

theorem meets_raise {p : RuntimeProblem} {post : α → Machine → Prop} (hm : m.Balanced) :
    Meets m (raise p) post := by
  have htrace : Balances (do (← get).calls.frames.mapM traceLine : MachineM (List TraceLine)) :=
    inferInstance
  refine (htrace.keeps m hm).bind (fun _ => inferInstance) fun _ _ hm' => ?_
  exact .inr hm'

theorem meets_peek (d : Nat) : Meets m (peek d) fun v m' =>
    m' = m ∧ (v.isObject → v ∈ m.stack.slice 0 m.sp) := by
  refine (meets_readSlot ((m.sp : Int) - 1 - d)).imp ?_
  rintro v m' ⟨hm', hpos, hv⟩
  refine ⟨hm', fun hobj => ?_⟩
  generalize hi : ((m.sp : Int) - 1 - d).toNat = i at hv
  have hlt : i < m.sp := by omega
  unfold Stack.get? at hv
  split at hv
  · rw [Array.getD_eq_getD_getElem?] at hv
    cases hw : m.stack.written[i]? with
    | none =>
      rw [hw] at hv
      cases hv
      cases hobj
    | some w =>
      rw [hw] at hv
      cases hv
      simp only [Stack.slice, Array.toList_extract, List.extract_eq_take_drop, List.drop_zero]
      refine List.mem_of_getElem? (i := i) ?_
      rw [List.getElem?_take_of_lt (by omega), Array.getElem?_toList, hw]
      rfl
  · cases hv

theorem run_frame (m : Machine) : frame m = match m.calls.frames with
    | f :: _ => .ok f m
    | [] => .error (.fault .outOfRange) m := by
  have hget : (get : MachineM Machine) m = .ok m m := rfl
  unfold frame
  rw [runBind, hget]
  cases hf : m.calls.frames <;> simp only [hf] <;> rfl

theorem meets_frame : Meets m frame fun _ m' => m' = m := by
  unfold Meets
  rw [run_frame]
  cases m.calls.frames with
  | nil => trivial
  | cons f fs => exact .inr rfl

theorem meets_readByte : Meets m readByte fun _ m' => ∃ calls, m' = { m with calls } := by
  refine meets_frame.bind (fun _ => inferInstance) ?_
  rintro f m' rfl
  refine Meets.view_bind fun fn _ => ?_
  unfold codeAt
  cases fn.chunk.code.get? f.ip with
  | none => trivial
  | some b => exact .inr ⟨_, rfl⟩

theorem meets_readConstant : Meets m readConstant fun _ m' => ∃ calls, m' = { m with calls } := by
  refine meets_readByte.bind (fun _ => .bind fun _ => .bind fun _ => by split <;> infer_instance) ?_
  rintro b _ ⟨calls, rfl⟩
  refine meets_frame.bind (fun _ => .bind fun _ => by split <;> infer_instance) ?_
  rintro f m' rfl
  refine Meets.view_bind fun fn _ => ?_
  cases fn.chunk.constants.get? b.toNat with
  | none => trivial
  | some v => exact .inr ⟨calls, rfl⟩

theorem meets_readName : Meets m readName fun _ m' => ∃ calls, m' = { m with calls } := by
  refine meets_readConstant.bind (fun _ => inferInstance) ?_
  rintro v _ ⟨calls, rfl⟩
  show Meets _ (liftM (asSymbol v)) _
  unfold Meets
  rw [run_view]
  cases asSymbol v _ with
  | ok s => exact .inr ⟨calls, rfl⟩
  | error e => trivial

theorem meets_instanceOr (hm : m.Balanced) (p : RuntimeProblem) (v : Value) :
    Meets m (instanceOr p v) fun l m' => m' = m ∧ locOfValue v m.heap = .ok l := by
  refine Meets.view_bind fun b _ => ?_
  cases b with
  | false => exact meets_raise hm
  | true =>
    show Meets m (liftM (locOfValue v)) _
    unfold Meets
    rw [run_view]
    cases locOfValue v m.heap with
    | ok l => exact .inr ⟨rfl, rfl⟩
    | error e => trivial

theorem pinned_of_slice {v : Value} {l : Loc} (hm : m.Balanced)
    (hv : v.isObject → v ∈ m.stack.slice 0 m.sp) (hl : locOfValue v m.heap = .ok l) :
    m.heap.Pinned (roots m) l := by
  obtain ⟨hlead, halive⟩ := leads_of_locOfValue hm.sound.consistent hl
  refine ⟨hm.open_, halive, .value v, mem_registered hm.registered ?_, trivial, hlead⟩
  simp only [Machine.links, List.append_assoc]
  exact List.mem_append_left _ (List.mem_map_of_mem (hv hlead.isObject))

instance : Balances setProperty where
  grows := by
    unfold setProperty
    infer_instance
  keeps m hm := by
    refine (meets_peek 1).bind (fun _ => inferInstance) ?_
    rintro v m' ⟨hm', hv⟩
    subst m'
    refine (meets_instanceOr hm .fieldOfOther v).bind (fun _ => inferInstance) ?_
    rintro l m' ⟨hm', hl⟩
    subst m'
    refine meets_readName.bind (fun _ => inferInstance) ?_
    rintro name _ ⟨calls, rfl⟩
    have hm₁ : Balanced { m with calls } := hm.spare (.of_same rfl rfl rfl rfl)
    refine (meets_peek 0).bind (fun _ => inferInstance) ?_
    rintro value _ ⟨rfl, -⟩
    have hset := HeapM.settles_setEntry hm₁.sound (pinned_of_slice hm₁ hv hl) name value
    refine (Meets.settled hm₁ hset).bind (fun _ => inferInstance) fun _ m₂ hm₂ => ?_
    exact Balances.keeps m₂ hm₂

instance : Balances defineMethod where
  grows := by
    unfold defineMethod
    infer_instance
  keeps m hm := by
    refine meets_readName.bind (fun _ => inferInstance) ?_
    rintro name _ ⟨calls, rfl⟩
    have hm₁ : Balanced { m with calls } := hm.spare (.of_same rfl rfl rfl rfl)
    refine (meets_peek 0).bind (fun _ => inferInstance) ?_
    rintro method _ ⟨rfl, -⟩
    refine (meets_peek 1).bind (fun _ => inferInstance) ?_
    rintro v _ ⟨rfl, hv⟩
    refine Meets.view_bind fun l hl => Meets.view_bind fun _ _ => ?_
    have hset := HeapM.settles_setEntry hm₁.sound (pinned_of_slice hm₁ hv hl) name method
    refine (Meets.settled hm₁ hset).bind (fun _ => inferInstance) fun _ m₂ hm₂ => ?_
    exact Balances.keeps m₂ hm₂

instance : Balances inherit where
  grows := by
    have (l k : Loc) : Grows (onHeap (HeapM.inheritEntries l k)) :=
      .onHeap (HeapM.keeps_inheritEntries l k).grows
    refine .bind fun superclass => .bind fun b => ?_
    split <;> infer_instance
  keeps m hm := by
    have (l k : Loc) : Grows (onHeap (HeapM.inheritEntries l k)) :=
      .onHeap (HeapM.keeps_inheritEntries l k).grows
    refine (meets_peek 1).bind (fun _ => .bind fun b => by split <;> infer_instance) ?_
    rintro superclass m' ⟨hm', -⟩
    subst m'
    refine Meets.view_bind fun b _ => ?_
    split
    · refine (meets_peek 0).bind (fun _ => inferInstance) ?_
      rintro v m' ⟨hm', hv⟩
      subst m'
      refine Meets.view_bind fun source _ => Meets.view_bind fun target hl =>
        Meets.view_bind fun _ _ => ?_
      have hset := HeapM.settles_inheritEntries source hm.sound (pinned_of_slice hm hv hl)
      refine (Meets.settled hm hset).bind (fun _ => inferInstance) fun _ m₂ hm₂ => ?_
      exact Balances.keeps m₂ hm₂
    · exact (meets_raise hm).bind (fun _ => inferInstance) fun _ _ => False.elim

instance (op : Opcode) : Balances (execute op) := by
  cases op <;> simp only [execute]
  case getLocal => unfold getLocal; infer_instance
  case setLocal => unfold setLocal; infer_instance
  case defineGlobal => unfold defineGlobal; infer_instance
  case getSuper => unfold getSuper; infer_instance
  case equal => unfold equal; infer_instance
  case negate => unfold negate; dsimp only; infer_instance
  case print => unfold printTop; infer_instance
  case jump => unfold jump; infer_instance
  case jumpIfFalse => unfold jumpIfFalse jump; infer_instance
  case loop => unfold jumpBack; dsimp only; infer_instance
  case call => unfold callTop; infer_instance
  case invoke => unfold invokeTop; infer_instance
  case superInvoke => unfold superInvoke; infer_instance
  case closeUpvalue => unfold closeTop; infer_instance
  case class_ =>
    have (name : Symbol) : Balances (onHeap do valueOf (← HeapM.newClass name)) :=
      .value (HeapM.grows_allocate _ _) fun h => HeapM.settles_newClass h name
    unfold makeClass
    infer_instance
  all_goals infer_instance

instance : Balances step := by
  refine .bind fun b => ?_
  split <;> infer_instance

instance (fuel : Nat) : Balances (run fuel) := by
  induction fuel with
  | zero => exact inferInstanceAs (Balances (pure true))
  | succ fuel ih =>
    unfold run
    infer_instance

end MachineM

end Lox

import Lox.Proofs.Heap.Bearing
import Lox.Proofs.Machine.Balance
import Lox.Proofs.Safety.Fetch

namespace Lox

open Heap HeapView

def Opcode.enters : Opcode → Bool
  | call | invoke | superInvoke => .true
  | _ => .false

namespace Template

def traceLine (p : Prototype) (offset : Nat) : TraceLine :=
  ⟨(p.lines[offset]?.getD 0 : Nat), p.name.getD []⟩

end Template

structure Pending where
  frame : Frame
  code : Prototype
  offset : Nat

/-- Where a machine is while it carries out an instruction: the innermost call, and those that wait. -/
structure Spot where
  closure : Loc
  base : Int
  code : Prototype
  offset : Nat
  outer : List Pending

namespace Spot

def trace (s : Spot) : List TraceLine :=
  s.code.traceLine s.offset :: s.outer.map fun q => q.code.traceLine q.offset

def Inside (s : Spot) (ip : Nat) : Prop :=
  ∃ op operand, s.code.Starts s.offset ∧ s.code.instrAt s.offset = some (op, operand) ∧ s.offset < ip ∧
    ip ≤ s.offset + (1 + operand.size)

theorem Inside.between {s : Spot} {ip ip' n : Nat} (h : s.Inside ip) (h' : s.Inside (ip + n)) (hle : ip ≤ ip')
    (hle' : ip' ≤ ip + n) : s.Inside ip' := by
  obtain ⟨op, operand, hs, hi, hlt, -⟩ := h
  obtain ⟨op', operand', -, hi', -, hend⟩ := h'
  rw [hi] at hi'
  cases hi'
  exact ⟨op, operand, hs, hi, by omega, by omega⟩

end Spot

section

variable (fit : Prototype → Prop) (script : Prototype) (holds : List Value) (marks : List RootMarker)

structure Pending.Waits (h : Heap) (base : Int) (q : Pending) : Prop where
  fits : fit q.code
  calls : h.Calls q.frame.closure q.code
  entered : ∃ op operand height, q.code.Reaches q.offset height ∧ q.code.instrAt q.offset = some (op, operand) ∧
    op.enters = true ∧ q.frame.ip = q.offset + (1 + operand.size) ∧
    base = q.frame.base + (height - op.takes operand : Nat)

def Waiting (h : Heap) : Prototype → Int → List Pending → Prop
  | p, base, [] => p = script ∧ base = 0
  | _, base, q :: rest => q.Waits fit h base ∧ Waiting h q.code q.frame.base rest

structure Heap.Kept (h : Heap) : Prop where
  sound : h.Sound
  opened : h.closed = false
  registered : .machine ∈ marks
  markers : h.markers = marks
  holds : h.holds = holds
  vouched : h.Vouched fit

/-- A machine within an instruction, with the stack of the innermost call at some height. -/
structure Machine.Within (s : Spot) (ip : Nat) (height : Int) (m : Machine) : Prop where
  kept : m.heap.Kept fit holds marks
  room : 0 < m.maxFrames
  written : m.sp ≤ m.stack.written.size
  space : m.sp ≤ m.stack.size
  fits : fit s.code
  frames : m.calls.frames = ⟨s.closure, ip, s.base⟩ :: s.outer.map Pending.frame
  calls : m.heap.Calls s.closure s.code
  waiting : Waiting fit script m.heap s.code s.base s.outer
  sp : (m.sp : Int) = s.base + height
  upvalues : ∀ u ∈ m.openUpvalues, 0 ≤ u.1 ∧ ∃ o v, m.heap.objects[u.2]? = some o ∧ o.freed = false ∧ o.body = .upvalue
      v

structure Spot.Blames (s : Spot) (e : RuntimeError) (m : Machine) : Prop where
  kept : m.heap.Kept fit holds marks
  room : 0 < m.maxFrames
  trace : (∀ p, fit p → p.Vetted ∧ p.Lined) → e.trace = s.trace

end

section

variable {fit : Prototype → Prop} {script p : Prototype} {holds : List Value} {marks : List RootMarker} {h h' : Heap}
    {base : Int}
  {outer : List Pending} {roots : List Link}

theorem Heap.Kept.mem_markers (hk : h.Kept fit holds marks) : .machine ∈ h.markers :=
  hk.markers ▸ hk.registered

theorem Heap.Kept.passes (hk : h.Kept fit holds marks) (hs : h'.Sound) (hp : h.Passes roots h') (hv : h'.Vouched fit) :
    h'.Kept fit holds marks :=
  ⟨hs, hp.closed.trans hk.opened, hk.registered, hp.markers.trans hk.markers, hp.holds.trans hk.holds, hv⟩

theorem Heap.Kept.setHolds (hk : h.Kept fit holds marks) (holds' : List Value) :
    Heap.Kept fit holds' marks { h with holds := holds' } :=
  ⟨hk.sound.congr ⟨rfl, rfl, rfl, rfl, rfl, rfl, rfl⟩, hk.opened, hk.registered, hk.markers, rfl,
    hk.vouched.congr rfl rfl⟩

theorem Waiting.base_nonneg (hw : Waiting fit script h p base outer) : 0 ≤ base := by
  induction outer generalizing p base with
  | nil =>
    obtain ⟨-, rfl⟩ := hw
    exact Int.le_refl 0
  | cons q rest ih =>
    obtain ⟨⟨-, -, op, operand, height, -, -, -, -, rfl⟩, hrest⟩ := hw
    have := ih hrest
    omega

theorem Waiting.waits (hw : Waiting fit script h p base outer) : ∀ q ∈ outer, ∃ base, q.Waits fit h base := by
  induction outer generalizing p base with
  | nil => exact nofun
  | cons q rest ih => exact List.forall_mem_cons.mpr ⟨⟨base, hw.1⟩, ih hw.2⟩

theorem Waiting.passes (hw : Waiting fit script h p base outer) (hc : h.Consistent) (hp : h.Passes roots h')
    (hroots : ∀ q ∈ outer, .object q.frame.closure ∈ roots) : Waiting fit script h' p base outer := by
  induction outer generalizing p base with
  | nil => exact hw
  | cons q rest ih =>
    obtain ⟨⟨hfit, hcalls, hentered⟩, hrest⟩ := hw
    refine ⟨⟨hfit, ?_, hentered⟩, ih hrest fun r hr => hroots r (.tail _ hr)⟩
    exact hcalls.passes hc hp (hp.rooted _ (hroots q (.head _)) trivial _ (.object _) hcalls.alive)

end

namespace Machine.Within

open MachineM

variable {fit : Prototype → Prop} {script : Prototype} {holds : List Value} {marks : List RootMarker} {s : Spot}
    {ip ip' : Nat} {height : Int}
  {m m' : Machine} {h : Heap}

theorem mem_registered_frame (hm : .machine ∈ m.heap.markers) {f : Frame} (hf : f ∈ m.calls.frames) :
    .object f.closure ∈ m.heap.registered (roots m) := by
  refine mem_registered hm ?_
  simp only [Machine.links, List.append_assoc, List.mem_append, List.mem_map, List.mem_reverse]
  exact .inr (.inl ⟨f, hf, rfl⟩)

theorem mem_registered_upvalue (hm : .machine ∈ m.heap.markers) {u : Int × Loc} (hu : u ∈ m.openUpvalues) :
    .object u.2 ∈ m.heap.registered (roots m) := by
  refine mem_registered hm ?_
  simp only [Machine.links, List.append_assoc, List.mem_append, List.mem_map]
  exact .inr (.inr (.inl ⟨u, hu, rfl⟩))

variable (hw : m.Within fit script holds marks s ip height)

include hw

theorem filled : m.Filled :=
  ⟨hw.written, hw.space⟩

theorem congr (hheap : m'.heap = m.heap) (hroom : m'.maxFrames = m.maxFrames) (hcalls : m'.calls = m.calls)
    (hsp : m'.sp = m.sp) (hfilled : m.Filled → m'.Filled) (hupvalues : m'.openUpvalues = m.openUpvalues) :
    m'.Within fit script holds marks s ip height where
  kept := hheap ▸ hw.kept
  room := hroom ▸ hw.room
  written := (hfilled hw.filled).written
  space := (hfilled hw.filled).room
  fits := hw.fits
  frames := hcalls ▸ hw.frames
  calls := hheap ▸ hw.calls
  waiting := hheap ▸ hw.waiting
  sp := hsp ▸ hw.sp
  upvalues := hheap ▸ hupvalues ▸ hw.upvalues

theorem resize {height' : Int} (he : height' = height) : m.Within fit script holds marks s ip height' :=
  he ▸ hw

theorem reheap (hs : h.Sound) (hp : m.heap.Passes (m.heap.registered (roots m)) h) (hv : h.Vouched fit) :
    ({ m with heap := h } : Machine).Within fit script holds marks s ip height := by
  have hc := hw.kept.sound.consistent
  have hframe {f : Frame} (hf : f ∈ m.calls.frames) (ha : m.heap.Alive f.closure) : h.Alive f.closure :=
    hp.rooted _ (mem_registered_frame hw.kept.mem_markers hf) trivial _ (.object _) ha
  exact
    { kept := hw.kept.passes hs hp hv
      room := hw.room
      written := hw.written
      space := hw.space
      fits := hw.fits
      frames := hw.frames
      calls := hw.calls.passes hc hp (hframe (by rw [hw.frames]; exact .head _) hw.calls.alive)
      waiting := hw.waiting.passes hc hp fun q hq =>
        mem_registered_frame hw.kept.mem_markers (by rw [hw.frames]; exact .tail _ (List.mem_map_of_mem hq))
      sp := hw.sp
      upvalues := fun u hu => by
        obtain ⟨hpos, o, v, ho, hf, hbody⟩ := hw.upvalues u hu
        obtain ⟨o', ho', hf'⟩ := hp.rooted _ (mem_registered_upvalue hw.kept.mem_markers hu) trivial _ (.object _)
            ⟨o, ho, hf⟩
        obtain ⟨o₁, ho₁, -, hcore⟩ := hp.lasting u.2 o' (Array.getElem?_eq_some_iff.mp ho).1 ho' hf'
        rw [ho] at ho₁
        cases ho₁
        obtain ⟨v', hv'⟩ : ∃ v', o'.body = .upvalue v' := by
          rw [hbody] at hcore
          cases hb : o'.body <;> rw [hb] at hcore <;> cases hcore
          exact ⟨_, rfl⟩
        exact ⟨hpos, o', v', ho', hf', hv'⟩ }

theorem moved : ({ m with calls := m.calls.jumpTo ip' } : Machine).Within fit script holds marks s ip' height := by
  have hframes := hw.frames
  obtain ⟨_, _, _, _, ⟨frames, depth, hdepth⟩, _, _, _, _, _, _, _⟩ := m
  subst hframes
  exact { hw with frames := rfl }

theorem pushed (v : Value) {stack : Stack} (hstack : stack.written = m.stack.written) :
    ({ m with stack := stack.set m.sp v, sp := m.sp + 1 } : Machine).Within fit script holds marks s ip (height + 1) :=
  { hw with
    written := Stack.size_set_top (hstack ▸ hw.written) v
    space := Nat.le_max_right ..
    sp := by
      have := hw.sp
      show ((m.sp + 1 : Nat) : Int) = _
      omega }

end Machine.Within

namespace MachineM

open Machine

variable {α β : Type} {m : Machine} {fit : Prototype → Prop} {script : Prototype} {holds : List Value}
    {marks : List RootMarker} {s : Spot}
  {ip : Nat} {height : Int}

/-- How an operation may end: as stated, with an error of the program as stated, with a fault, or without handles. -/
def Obeys (m : Machine) (act : MachineM α) (post : α → Machine → Prop) (fails : RuntimeError → Machine → Prop) : Prop :=
  match act m with
  | .ok a m' => Exhausted m'.heap ∨ post a m'
  | .error (.error e) m' => Exhausted m'.heap ∨ fails e m'
  | .error (.fault _) _ => True

namespace Obeys

variable {fails : RuntimeError → Machine → Prop}

theorem imp {act : MachineM α} {post post' : α → Machine → Prop} (hx : Obeys m act post fails)
    (himp : ∀ a m', post a m' → post' a m') : Obeys m act post' fails := by
  unfold Obeys at *
  split <;> rename_i heq <;> rw [heq] at hx
  · exact hx.imp_right (himp _ _)
  · exact hx
  · trivial

theorem imp_fails {act : MachineM α} {post : α → Machine → Prop} {fails' : RuntimeError → Machine → Prop}
    (hx : Obeys m act post fails) (himp : ∀ e m', fails e m' → fails' e m') : Obeys m act post fails' := by
  unfold Obeys at *
  split <;> rename_i heq <;> rw [heq] at hx
  · exact hx
  · exact hx.imp_right (himp _ _)
  · trivial

theorem of_exhausted {act : MachineM α} {post : α → Machine → Prop} (hg : Grows act) (he : m.heap.Exhausted) :
    Obeys m act post fails := by
  have hend : Exhausted (finalState (act m)).heap := Nat.lt_of_lt_of_le he (hg.le m)
  unfold Obeys
  split <;> rename_i heq <;> rw [heq] at hend
  · exact .inl hend
  · exact .inl hend
  · trivial

theorem bind {x : MachineM α} {f : α → MachineM β} {mid : α → Machine → Prop} {post : β → Machine → Prop}
    (hx : Obeys m x mid fails) (hg : ∀ a, Grows (f a)) (hf : ∀ a m', mid a m' → Obeys m' (f a) post fails) :
    Obeys m (x >>= f) post fails := by
  unfold Obeys at hx
  split at hx <;> rename_i a m' heq
  · have hmid : Obeys m' (f a) post fails := hx.elim (of_exhausted (hg a)) (hf a m')
    unfold Obeys at hmid ⊢
    rwa [runBind, heq]
  · unfold Obeys
    rw [runBind, heq]
    exact hx
  · unfold Obeys
    rw [runBind, heq]
    trivial

theorem pure {a : α} {post : α → Machine → Prop} (hp : post a m) : Obeys m (Pure.pure a) post fails :=
  .inr hp

theorem get_bind {f : Machine → MachineM β} {post : β → Machine → Prop} (hf : Obeys m (f m) post fails) :
    Obeys m (get >>= f) post fails := by
  unfold Obeys at *
  rwa [runBind, runGet]

theorem modify_bind {g : Machine → Machine} {f : Unit → MachineM β} {post : β → Machine → Prop}
    (hf : Obeys (g m) (f ()) post fails) : Obeys m (modify g >>= f) post fails :=
  hf

theorem view {view : HeapView α} {post : α → Machine → Prop} (hf : ∀ a, view m.heap = .ok a → post a m) :
    Obeys m (liftM view) post fails := by
  unfold Obeys
  rw [run_view]
  cases hv : view m.heap with
  | ok a => exact .inr (hf a hv)
  | error e => trivial

theorem view_bind {view : HeapView α} {f : α → MachineM β} {post : β → Machine → Prop}
    (hf : ∀ a, view m.heap = .ok a → Obeys m (f a) post fails) : Obeys m (liftM view >>= f) post fails := by
  unfold Obeys
  rw [runBind, run_view]
  cases hv : view m.heap with
  | ok a => exact hf a hv
  | error e => trivial

theorem onHeap {act : HeapM α} {mid : α → Heap → Prop} {post : α → Machine → Prop}
    (hx : HeapM.Delivers True (roots m) m.heap act mid) (hp : ∀ a h, mid a h → post a { m with heap := h }) :
    Obeys m (onHeap act) post fails := by
  unfold HeapM.Delivers at hx
  unfold Obeys
  rw [run_onHeap]
  cases hrun : act (roots m) m.heap with
  | ok a h =>
    rw [hrun] at hx
    exact hx.imp_right (hp a h)
  | error e h => trivial

theorem tends {act : HeapM α} (hw : m.Within fit script holds marks s ip height) (ht : HeapM.Tends act) :
    Obeys m (MachineM.onHeap act) (fun _ m' => m'.Within fit script holds marks s ip height) fails :=
  onHeap (ht.vouched _ hw.kept.sound hw.kept.vouched) fun _ _ ⟨hs, hp, hv⟩ => hw.reheap hs hp hv

theorem finish {x : MachineM α} {act : HeapM β} {mid post : α → Machine → Prop}
    {fails' : RuntimeError → Machine → Prop} (hx : Obeys m x mid fails') (hg : HeapM.Grows act)
    (hend : ∀ a m', mid a m' → HeapM.Delivers True (roots m') m'.heap act fun _ h => post a { m' with heap := h })
    (hfail : ∀ e m', fails' e m' → HeapM.Delivers True (roots m') m'.heap act fun _ h =>
    fails e { m' with heap := h }) :
    Obeys m (tryFinally x (MachineM.onHeap act)) post fails := by
  unfold Obeys at hx ⊢
  rw [run_finally]
  cases hxr : x m with
  | ok a m' =>
    rw [hxr] at hx
    have hrest : HeapM.Delivers True (roots m') m'.heap act fun _ h => post a { m' with heap := h } :=
      hx.elim (.of_exhausted hg) (hend a m')
    unfold HeapM.Delivers at hrest
    simp only [run_onHeap]
    cases hyr : act (roots m') m'.heap <;> simp only [hyr] at hrest ⊢
    exact hrest
  | error e m' =>
    rw [hxr] at hx
    simp only [run_onHeap]
    cases e with
    | fault f => cases act (roots m') m'.heap <;> trivial
    | error e =>
      have hrest : HeapM.Delivers True (roots m') m'.heap act fun _ h => fails e { m' with heap := h } :=
        hx.elim (.of_exhausted hg) (hfail e m')
      unfold HeapM.Delivers at hrest
      cases hyr : act (roots m') m'.heap <;> simp only [hyr] at hrest ⊢
      exact hrest

end Obeys

class Moves (bytes : Nat) (slots : Int) (act : MachineM α) : Prop where
  grows : Grows act
  keeps : ∀ {fit script holds marks s ip height} {m : Machine}, m.Within fit script holds marks s ip height →
      s.Inside ip →
    s.Inside (ip + bytes) → Obeys m act (fun _ m' => m'.Within fit script holds marks s (ip + bytes) (height + slots))
      (s.Blames fit holds marks)

abbrev Stays (act : MachineM α) : Prop :=
  Moves 0 0 act

namespace Moves

variable {n n' : Nat} {d d' : Int}

theorem bind {x : MachineM α} {f : α → MachineM β} (hx : Moves n d x) (hf : ∀ a, Moves n' d' (f a)) :
    Moves (n + n') (d + d') (x >>= f) where
  grows :=
    have := hx.grows
    .bind fun a => (hf a).grows
  keeps hw hin hin' := by
    rw [← Nat.add_assoc] at hin'
    rw [Nat.add_assoc] at hin'
    have hmid := hin.between hin' (Nat.le_add_right _ n) (by omega)
    rw [← Nat.add_assoc] at hin'
    refine (hx.keeps hw hin hmid).bind (fun a => (hf a).grows) fun a m' hw' => ?_
    rw [← Nat.add_assoc, ← Int.add_assoc]
    exact (hf a).keeps hw' hmid hin'

theorem congr {act : MachineM α} (hx : Moves n d act) (hn : n' = n) (hd : d' = d) : Moves n' d' act :=
  hn ▸ hd ▸ hx

theorem ite {c : Prop} [Decidable c] {x y : MachineM α} (hx : Moves n d x) (hy : Moves n d y) :
    Moves n d (if c then x else y) := by
  split
  · exact hx
  · exact hy

end Moves

namespace Stays

theorem keeps {act : MachineM α} (hx : Stays act) (hw : m.Within fit script holds marks s ip height)
    (hin : s.Inside ip) :
    Obeys m act (fun _ m' => m'.Within fit script holds marks s ip height) (s.Blames fit holds marks) :=
  (hx.2 hw hin hin).imp fun _ _ hw' => hw'.resize (Int.add_zero _).symm

theorem intro {act : MachineM α} (hg : Grows act) (hx : ∀ {fit script holds marks s ip height} {m : Machine},
    m.Within fit script holds marks s ip height → s.Inside ip →
      Obeys m act (fun _ m' => m'.Within fit script holds marks s ip height) (s.Blames fit holds marks)) :
          Stays act where
  grows := hg
  keeps hw hin _ := (hx hw hin).imp fun _ _ hw' => hw'.resize (Int.add_zero _)

theorem bind {x : MachineM α} {f : α → MachineM β} [hx : Stays x] (hf : ∀ a, Stays (f a)) : Stays (x >>= f) :=
  (Moves.bind hx hf).congr rfl rfl

instance {x : MachineM α} {f : α → MachineM β} [Stays x] [hf : ∀ a, Stays (f a)] : Stays (x >>= f) :=
  bind hf

instance {x : MachineM α} (f : α → β) [hx : Stays x] : Stays (f <$> x) := by
  rw [← bind_pure_comp]
  exact bind fun a => intro inferInstance fun hw _ => .pure hw

instance (a : α) : Stays (pure a : MachineM α) :=
  intro inferInstance fun hw _ => .pure hw

instance : Stays (get : MachineM Machine) :=
  intro inferInstance fun hw _ => .inr hw

instance (f : Fault) : Stays (stop f : MachineM α) :=
  intro inferInstance fun _ _ => trivial

instance (view : HeapView α) : Stays (liftM view : MachineM α) :=
  intro inferInstance fun hw _ => .view fun _ _ => hw

instance {c : Prop} [Decidable c] {x y : MachineM α} [hx : Stays x] [hy : Stays y] : Stays (if c then x else y) :=
  Moves.ite hx hy

instance {x y : MachineM Bool} [Stays x] [Stays y] : Stays (x <&&> y) := by
  refine bind fun b => ?_
  cases b
  · exact inferInstanceAs (Stays (pure false))
  · exact inferInstanceAs (Stays y)

theorem modify {f : Machine → Machine} (heap : ∀ m, (f m).heap = m.heap) (room : ∀ m, (f m).maxFrames = m.maxFrames)
    (calls : ∀ m, (f m).calls = m.calls) (sp : ∀ m, (f m).sp = m.sp) (filled : ∀ m, m.Filled → (f m).Filled)
    (upvalues : ∀ m, (f m).openUpvalues = m.openUpvalues) : Stays (modify f : MachineM Unit) :=
  intro (.modify heap) fun hw _ => .inr (hw.congr (heap _) (room _) (calls _) (sp _) (filled _) (upvalues _))

theorem modifyGet {f : Machine → α × Machine} (heap : ∀ m, (f m).2.heap = m.heap)
    (room : ∀ m, (f m).2.maxFrames = m.maxFrames) (calls : ∀ m, (f m).2.calls = m.calls) (sp : ∀ m, (f m).2.sp = m.sp)
    (filled : ∀ m, m.Filled → (f m).2.Filled) (upvalues : ∀ m, (f m).2.openUpvalues = m.openUpvalues) :
    Stays (modifyGet f : MachineM α) :=
  intro (.modifyGet heap) fun hw _ =>
    .inr (hw.congr (heap _) (room _) (calls _) (sp _) (filled _) (upvalues _))

theorem onHeap {act : HeapM α} (ht : HeapM.Tends act) : Stays (onHeap act) :=
  intro (.onHeap ht.keeps.grows) fun hw _ => .tends hw ht

theorem value {act : HeapM Loc} (ht : HeapM.Tends act) : Stays (MachineM.onHeap (do valueOf (← act))) :=
  onHeap (ht.bind fun _ => HeapM.tends_view _)

end Stays

namespace Moves

variable {n : Nat} {d : Int}

theorem bind_stays {x : MachineM α} {f : α → MachineM β} [hx : Moves n d x] (hf : ∀ a, Stays (f a)) :
    Moves n d (x >>= f) :=
  (bind hx hf).congr rfl (Int.add_zero d).symm

theorem stays_bind {x : MachineM α} {f : α → MachineM β} [hx : Stays x] (hf : ∀ a, Moves n d (f a)) :
    Moves n d (x >>= f) :=
  (bind hx hf).congr (Nat.zero_add n).symm (Int.zero_add d).symm

end Moves

theorem written_grow (m : Machine) :
    (if m.sp = m.stack.size then m.stack.grow slotsPerFrame else m.stack).written = m.stack.written := by
  split <;> rfl

instance (v : Value) : Moves 0 1 (push v) where
  grows := inferInstance
  keeps hw _ _ := .inr (hw.pushed v (written_grow _))

instance : Moves 0 (-1) pop where
  grows := inferInstance
  keeps {_ _ _ _ _ _ _ m} hw _ _ := by
    unfold Obeys
    rw [pop_eq]
    by_cases hsp : m.sp = 0
    · rw [if_pos hsp]
      trivial
    · rw [if_neg hsp]
      have := hw.sp
      exact .inr { hw with
        written := Nat.le_trans (Nat.sub_le ..) hw.written
        space := Nat.le_trans (Nat.sub_le ..) hw.space
        sp := by
          show ((m.sp - 1 : Nat) : Int) = _
          omega }

namespace Moves

variable {n : Nat} {d : Int}

theorem pop_bind {f : Value → MachineM β} (hf : ∀ v, Moves n (d + 1) (f v)) : Moves n d (pop >>= f) :=
  (bind (inferInstance : Moves 0 (-1) pop) hf).congr (Nat.zero_add n).symm (by omega)

theorem pop_end (hd : d = -1) : Moves 0 d (do let _ ← pop) :=
  (bind (inferInstance : Moves 0 (-1) pop) fun _ => (inferInstance : Stays (pure PUnit.unit))).congr rfl hd

theorem push_end (v : Value) (hd : d = 1) : Moves 0 d (push v) :=
  Moves.congr (inferInstance : Moves 0 1 (push v)) rfl hd

end Moves

instance (i : Int) : Stays (readSlot i) :=
  .intro inferInstance fun {_ _ _ _ _ _ _ m} hw _ => by
    unfold Obeys
    rw [readSlot_eq]
    split
    · rename_i h
      split at h
      · cases h
      · cases hv : m.stack.get? i.toNat <;> rw [hv] at h <;> cases h
        exact .inr hw
    · rename_i h
      split at h
      · cases h
      · cases hv : m.stack.get? i.toNat <;> rw [hv] at h <;> cases h
    · trivial

instance (i : Int) (v : Value) : Stays (writeSlot i v) := by
  have : Stays (modify fun m : Machine => { m with stack := m.stack.set i.toNat v } : MachineM Unit) :=
    .modify (fun _ => rfl) (fun _ => rfl) (fun _ => rfl) (fun _ => rfl) (fun _ h => h.set i.toNat v) fun _ => rfl
  unfold writeSlot
  dsimp only
  infer_instance

instance (distance : Nat) : Stays (peek distance) := by
  unfold peek
  infer_instance

instance (count : Nat) : Stays (calleeSlot count) := by
  unfold calleeSlot
  infer_instance

instance (text : Bytes) : Stays (print text) :=
  .modify (fun _ => rfl) (fun _ => rfl) (fun _ => rfl) (fun _ => rfl) (fun _ h => ⟨h.1, h.2⟩) fun _ => rfl

instance (closure : Loc) : Stays (functionOf closure) := by
  unfold functionOf
  infer_instance

theorem functionOf_eq {l : Loc} {p : Prototype} (hc : m.heap.Calls l p) :
    ∃ f, f.Transcribes p ∧ functionOf l m = .ok f m := by
  obtain ⟨o, c, ho, -, hbody, hbears⟩ := hc
  obtain ⟨o', f, ho', -, hbody', hshows⟩ := bearsIn_iff.mp hbears
  refine ⟨f, hshows.transcribes, ?_⟩
  unfold functionOf
  rw [run_view, HeapView.view_bind, closureAt_eq_ok.mpr ⟨o, ho, hbody⟩]
  dsimp only
  rw [functionAt_eq_ok.mpr ⟨o', ho', hbody'⟩]

theorem obeys_traceLine {fails : RuntimeError → Machine → Prop} {f : Frame} {p : Prototype} {offset : Nat}
    {clear : Prop} (hc : m.heap.Calls f.closure p) (hl : clear → p.lines[f.ip - 1]? = p.lines[offset]?) :
    Obeys m (traceLine f) (fun t m' => m' = m ∧ (clear → t = p.traceLine offset)) fails := by
  obtain ⟨fn, htranscribes, hfn⟩ := functionOf_eq hc
  unfold Obeys traceLine
  rw [runBind, hfn]
  dsimp only
  rw [Growable.get?_eq, htranscribes.lines, List.getElem?_map]
  cases hline : p.lines[f.ip - 1]? with
  | none => trivial
  | some line =>
    refine .inr ⟨rfl, fun hclear => ?_⟩
    rw [Template.traceLine, ← hl hclear, hline, ← htranscribes.name]
    cases fn.name <;> rfl

theorem obeys_traceLines {fails : RuntimeError → Machine → Prop} {p : Prototype} {base : Int} {outer : List Pending}
    (hw : Waiting fit script m.heap p base outer) : Obeys m ((outer.map Pending.frame).mapM traceLine)
      (fun ts m' => m' = m ∧ ((∀ p, fit p → p.Vetted ∧ p.Lined) → ts = outer.map fun q => q.code.traceLine q.offset))
      fails := by
  induction outer generalizing p base with
  | nil => exact .pure ⟨rfl, fun _ => rfl⟩
  | cons q rest ih =>
    obtain ⟨⟨hfit, hcalls, op, operand, height, hreaches, hi, -, hip, -⟩, hrest⟩ := hw
    have hline (hclear : ∀ p, fit p → p.Vetted ∧ p.Lined) :
        q.code.lines[q.frame.ip - 1]? = q.code.lines[q.offset]? := by
      obtain ⟨hvetted, hlined⟩ := hclear _ hfit
      rw [hip, show q.offset + (1 + operand.size) - 1 = q.offset + operand.size by omega]
      exact hlined _ _ _ (hvetted.starts hreaches) hi _ (by omega)
    rw [List.map_cons, List.mapM_cons]
    refine (obeys_traceLine hcalls hline).bind (fun _ => inferInstance) ?_
    rintro t _ ⟨rfl, ht⟩
    refine (ih hrest).bind (fun _ => inferInstance) ?_
    rintro ts _ ⟨rfl, hts⟩
    exact .pure ⟨rfl, fun hclear => by rw [ht hclear, hts hclear, List.map_cons]⟩

theorem obeys_raise {p : RuntimeProblem} {post : α → Machine → Prop} (hw : m.Within fit script holds marks s ip height)
    (hin : s.Inside ip) : Obeys m (raise p) post (s.Blames fit holds marks) := by
  unfold raise
  apply Obeys.get_bind
  rw [hw.frames, List.mapM_cons]
  have hline (hclear : ∀ p, fit p → p.Vetted ∧ p.Lined) : s.code.lines[ip - 1]? = s.code.lines[s.offset]? := by
    obtain ⟨op, operand, hs, hi, hlt, hle⟩ := hin
    rw [show ip - 1 = s.offset + (ip - 1 - s.offset) by omega]
    exact (hclear _ hw.fits).2 _ _ _ hs hi _ (by omega)
  have htrace : Obeys m (do
      let t ← traceLine ⟨s.closure, ip, s.base⟩
      let ts ← (s.outer.map Pending.frame).mapM traceLine
      return t :: ts) (fun ts m' => m' = m ∧ ((∀ p, fit p → p.Vetted ∧ p.Lined) → ts = s.trace))
        (s.Blames fit holds marks) := by
    refine (obeys_traceLine hw.calls hline).bind (fun _ => inferInstance) ?_
    rintro t _ ⟨rfl, ht⟩
    refine (obeys_traceLines hw.waiting).bind (fun _ => inferInstance) ?_
    rintro ts _ ⟨rfl, hts⟩
    exact .pure ⟨rfl, fun hclear => by rw [ht hclear, hts hclear, Spot.trace]⟩
  refine htrace.bind (fun _ => inferInstance) ?_
  rintro ts _ ⟨rfl, hts⟩
  exact .inr ⟨hw.kept, hw.room, hts⟩

instance (p : RuntimeProblem) : Stays (raise p : MachineM α) := by
  have hgrow : Grows (raise p : MachineM α) := by
    unfold raise
    infer_instance
  exact .intro hgrow obeys_raise

instance (name : Symbol) (v : Value) : Stays (setGlobal name v) := by
  have hgrow (capacity : Nat) : Stays (modify fun m : Machine =>
      { m with globals := m.globals.growTo capacity } : MachineM Unit) :=
    .modify (fun _ => rfl) (fun _ => rfl) (fun _ => rfl) (fun _ => rfl) (fun _ h => ⟨h.1, h.2⟩) fun _ => rfl
  have hins : Stays (modifyGet fun m : Machine =>
      let (isNew, globals) := m.globals.insert name v
      (isNew, { m with globals }) : MachineM Bool) :=
    .modifyGet (fun _ => rfl) (fun _ => rfl) (fun _ => rfl) (fun _ => rfl) (fun _ h => ⟨h.1, h.2⟩) fun _ => rfl
  have haccount (delta : Int) : Stays (onHeap (HeapM.account delta)) := .onHeap (HeapM.tends_account delta)
  unfold setGlobal
  dsimp only
  infer_instance

instance (text : Bytes) : Stays (stringValue text) :=
  .onHeap ((HeapM.tends_intern text).bind fun _ => HeapM.tends_view _)

instance (class_ : Loc) (name : Symbol) : Stays (findMethod class_ name) := by
  refine .bind fun c => ?_
  split <;> infer_instance

instance (p : RuntimeProblem) (v : Value) : Stays (instanceOr p v) := by
  unfold instanceOr
  infer_instance

instance (distance : Nat) : Stays (isNumber distance) := by
  unfold isNumber
  infer_instance

instance (distance : Nat) : Stays (isString distance) := by
  unfold isString
  infer_instance

theorem run_frame_within (hw : m.Within fit script holds marks s ip height) : frame m = .ok ⟨s.closure, ip, s.base⟩
    m := by
  rw [run_frame, hw.frames]

theorem obeys_frame_bind {f : Frame → MachineM β} {post : β → Machine → Prop} {fails : RuntimeError → Machine → Prop}
    (hw : m.Within fit script holds marks s ip height) (hf : Obeys m (f ⟨s.closure, ip, s.base⟩) post fails) :
    Obeys m (frame >>= f) post fails := by
  unfold Obeys at *
  rwa [runBind, run_frame_within hw]

instance : Stays frame :=
  .intro inferInstance fun hw _ => by
    unfold Obeys
    rw [run_frame_within hw]
    exact .inr hw

theorem obeys_codeAt {fails : RuntimeError → Machine → Prop} {f : Function} {p : Prototype} (hf : f.Transcribes p)
    (offset : Nat) : Obeys m (codeAt f offset) (fun b m' => m' = m ∧ p.code[offset]? = some b) fails := by
  unfold Obeys codeAt
  rw [Growable.get?_eq, hf.code]
  cases hb : p.code[offset]? with
  | none => trivial
  | some b => exact .inr ⟨rfl, rfl⟩

theorem obeys_readByte {fails : RuntimeError → Machine → Prop} (hw : m.Within fit script holds marks s ip height) :
    Obeys m readByte (fun b m' => s.code.code[ip]? = some b ∧ m'.Within fit script holds marks s (ip + 1) height ∧
      m'.heap = m.heap) fails := by
  refine obeys_frame_bind hw ?_
  obtain ⟨fn, htranscribes, hfn⟩ := functionOf_eq hw.calls
  have hview : Obeys m (functionOf s.closure) (fun f m' => m' = m ∧ f.Transcribes s.code) fails := by
    unfold Obeys
    rw [hfn]
    exact .inr ⟨rfl, htranscribes⟩
  refine hview.bind (fun _ => inferInstance) ?_
  rintro f _ ⟨rfl, hf⟩
  refine (obeys_codeAt hf ip).bind (fun _ => inferInstance) ?_
  rintro b _ ⟨rfl, hb⟩
  exact .inr ⟨hb, hw.moved, rfl⟩

instance : Moves 1 0 readByte where
  grows := inferInstance
  keeps hw _ _ := (obeys_readByte hw).imp fun _ _ ⟨_, hw', _⟩ => hw'.resize (Int.add_zero _)

theorem obeys_readByte_ahead {fails : RuntimeError → Machine → Prop} (hw : m.Within fit script holds marks s ip height)
    {b : UInt8}
    {bytes : List UInt8} (ha : s.code.Ahead ip (b :: bytes)) :
    Obeys m readByte (fun a m' => a = b ∧ m'.Within fit script holds marks s (ip + 1) height ∧ m'.heap = m.heap)
        fails :=
  (obeys_readByte hw).imp fun _ _ ⟨hb, hw', hh⟩ => ⟨Option.some.inj (hb.symm.trans ha.head), hw', hh⟩

theorem obeys_readShort {fails : RuntimeError → Machine → Prop} (hw : m.Within fit script holds marks s ip height)
    {hi lo : UInt8}
    {bytes : List UInt8} (ha : s.code.Ahead ip (hi :: lo :: bytes)) :
    Obeys m readShort (fun n m' => n = hi.toNat * 256 + lo.toNat ∧ m'.Within fit script holds marks s (ip + 2) height)
        fails := by
  refine obeys_frame_bind hw ?_
  obtain ⟨fn, htranscribes, hfn⟩ := functionOf_eq hw.calls
  have hview : Obeys m (functionOf s.closure) (fun f m' => m' = m ∧ f.Transcribes s.code) fails := by
    unfold Obeys
    rw [hfn]
    exact .inr ⟨rfl, htranscribes⟩
  refine hview.bind (fun _ => inferInstance) ?_
  rintro f _ ⟨rfl, hf⟩
  refine (obeys_codeAt hf ip).bind (fun _ => inferInstance) ?_
  rintro b _ ⟨rfl, hb⟩
  refine (obeys_codeAt hf (ip + 1)).bind (fun _ => inferInstance) ?_
  rintro b' _ ⟨rfl, hb'⟩
  refine .inr ⟨?_, hw.moved⟩
  rw [Option.some.inj (hb.symm.trans ha.head), Option.some.inj (hb'.symm.trans ha.tail.head)]

instance : Moves 1 0 readConstant := by
  have hrest (index : UInt8) : Stays (do
      let fn ← functionOf (← frame).closure
      match fn.chunk.constants.get? index.toNat with
      | some v => return v
      | none => stop .outOfRange : MachineM Value) := by
    refine .bind fun f => .bind fun fn => ?_
    split <;> infer_instance
  exact .bind_stays hrest

instance : Moves 1 0 readName :=
  .bind_stays fun v => inferInstanceAs (Stays (liftM (asSymbol v)))

instance : Moves 1 0 readCaptured := by
  have hrest (index : UInt8) : Stays (do
      let closure := (← frame).closure
      let c ← closureAt closure
      match c.upvalues[index.toNat]? with
      | some u => return u
      | none => stop .outOfRange : MachineM (Option Loc)) := by
    refine .bind fun f => .bind fun c => ?_
    split <;> infer_instance
  exact .bind_stays hrest

end MachineM

end Lox

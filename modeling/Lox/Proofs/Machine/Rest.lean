import Lox.Proofs.Compile.Deposit
import Lox.Proofs.Machine.Heights
import Lox.Proofs.Machine.Lookups
import Lox.Proofs.Machine.Session
import Lox.Proofs.Machine.Values

namespace Lox

open Heap HeapView Machine

def Heap.IsScript (h : Heap) (l : Loc) : Prop :=
  ∃ source p, (analyze source).2 = [] ∧ Order.draftAll {} (analyze source).1 = some ⟨[], some p⟩ ∧ h.Bears l p

theorem fitting_compiled : Fitting Template.Compiled where
  vetted _ h := h.vetted
  inner _ _ _ h hq := h.inner hq

namespace MachineM

variable {α β : Type} {m : Machine} {fit : Prototype → Prop} {script p : Prototype} {holds : List Value}
    {marks : List RootMarker} {n : Nat}
  {fails : RuntimeError → Machine → Prop} {l : Loc}

theorem Resting.push (hm : m.Resting fit holds marks n) (v : Value) :
    Obeys m (push v) (fun _ m' => m'.Resting fit holds marks (n + 1) ∧ m'.heap = m.heap) fails :=
  .inr ⟨{ hm with
    written := Stack.size_set_top (written_grow m ▸ hm.written) v
    space := Nat.le_max_right ..
    sp := congrArg (· + 1) hm.sp }, rfl⟩

theorem Resting.pop (hm : m.Resting fit holds marks (n + 1)) :
    Obeys m pop (fun _ m' => m'.Resting fit holds marks n ∧ m'.heap = m.heap) fails := by
  unfold Obeys
  rw [pop_eq, if_neg (by rw [hm.sp]; omega)]
  exact .inr ⟨{ hm with
    written := Nat.le_trans (Nat.sub_le ..) hm.written
    space := Nat.le_trans (Nat.sub_le ..) hm.space
    sp := by
      show m.sp - 1 = n
      rw [hm.sp]
      rfl }, rfl⟩

theorem Resting.reheap (hm : m.Resting fit holds marks n) {h : Heap} {roots : List Link} (hs : h.Sound)
    (hp : m.heap.Passes roots h) (hv : h.Vouched fit) : ({ m with heap := h } : Machine).Resting fit holds marks n :=
  { hm with kept := hm.kept.passes hs hp hv }

theorem Resting.tends {act : HeapM α} (hm : m.Resting fit holds marks n) (ht : HeapM.Tends act) :
    Obeys m (MachineM.onHeap act) (fun _ m' => m'.Resting fit holds marks n) fails :=
  .onHeap (ht.vouched _ hm.kept.sound hm.kept.vouched) fun _ _ h => Resting.reheap hm h.1 h.2.1 h.2.2

theorem Resting.setGlobal (hm : m.Resting fit holds marks n) (name : Symbol) (v : Value) :
    Obeys m (setGlobal name v) (fun _ m' => m'.Resting fit holds marks n) fails := by
  have hgrow (capacity : Nat) : Grows (modify fun m : Machine =>
      { m with globals := m.globals.growTo capacity } : MachineM Unit) := .modify fun _ => rfl
  unfold MachineM.setGlobal
  apply Obeys.get_bind
  dsimp only
  refine .ite (fun _ => ?_) fun _ => .inr { hm with }
  refine (Resting.tends hm (HeapM.tends_account _)).bind (fun _ => .bind fun _ => .modifyGet fun _ => rfl)
    fun _ m' hm' => ?_
  apply Obeys.modify_bind
  exact .inr { hm' with }

theorem Resting.defineNative (hm : m.Resting fit holds marks n) (native : Native) :
    Obeys m (defineNative native) (fun _ m' => m'.Resting fit holds marks n) fails := by
  have hnew : HeapM.Tends (do valueOf (← HeapM.newNative native)) :=
    (HeapM.tends_allocate _ (by simp [Body.kind]) (by simp [Body.kind]) (by simp [Body.kind]) _).bind fun _ =>
      HeapM.tends_view _
  have hgrow : Grows (onHeap do valueOf (← HeapM.newNative native)) := .onHeap hnew.keeps.grows
  unfold MachineM.defineNative
  refine (Resting.tends hm ((HeapM.tends_intern _).bind fun _ => HeapM.tends_view _)).bind
    (fun _ => .bind fun _ => .bind fun _ => .bind fun _ => .bind fun _ => inferInstance) fun v m₁ hm₁ => ?_
  refine (Resting.push hm₁ v).bind (fun _ => .bind fun _ => .bind fun _ => .bind fun _ => inferInstance) ?_
  rintro _ m₂ ⟨hm₂, _⟩
  refine (Resting.tends hm₂ hnew).bind (fun _ => inferInstance) fun v m₃ hm₃ => ?_
  refine (Resting.push hm₃ v).bind (fun _ => inferInstance) ?_
  rintro _ m₄ ⟨hm₄, _⟩
  refine (obeys_peek 1).bind (fun _ => inferInstance) ?_
  rintro name m₅ hm₅
  subst m₅
  refine .view_bind fun s _ => (obeys_peek 0).bind (fun _ => inferInstance) ?_
  rintro value m₆ hm₆
  subst m₆
  refine (Resting.setGlobal hm₄ s value).bind (fun _ => inferInstance) fun _ m₇ hm₇ => ?_
  refine (Resting.pop hm₇).bind (fun _ => inferInstance) ?_
  rintro _ m₈ ⟨hm₈, _⟩
  refine (Resting.pop hm₈).bind (fun _ => inferInstance) ?_
  rintro _ m₉ ⟨hm₉, _⟩
  exact .pure hm₉

theorem mem_registered_bottom {v : Value} {stack : Stack} (hmark : .machine ∈ m.heap.markers) (hsp : m.sp = 0) :
    .value v ∈ m.heap.registered (roots { m with stack := stack.set m.sp v, sp := m.sp + 1 }) := by
  refine Heap.mem_registered.mpr ⟨.machine, hmark, ?_⟩
  simp only [roots, Machine.kept, Machine.links, hsp, Stack.slice_set_top (Nat.zero_le _), List.append_assoc,
      List.mem_append,
    List.mem_map]
  exact .inl ⟨v, .inr (.head _), rfl⟩

theorem obeys_closureOf (hm : m.Ended fit holds marks) (hfit : fit p) (hb : m.heap.Bears l p) :
    Obeys m (EmbedM.closureOf l) (fun c m' => m'.Ended fit holds marks ∧ m'.heap.Calls c p) fails := by
  have hnew : Grows (onHeap (HeapM.newClosure l)) := .onHeap (HeapM.keeps_newClosure l).grows
  unfold EmbedM.closureOf
  refine .view_bind fun v hv => ?_
  obtain ⟨o, ho, hf⟩ := hb.alive
  rw [HeapM.valueOf_eq ho] at hv
  cases hv
  let stack := if m.sp = m.stack.size then m.stack.grow slotsPerFrame else m.stack
  let pushed : Machine := { m with stack := stack.set m.sp (.object o.ref), sp := m.sp + 1 }
  have hpushed : pushed.Resting fit holds marks 1 := { hm with
    written := Stack.size_set_top (written_grow m ▸ hm.written) _
    space := Nat.le_max_right ..
    sp := congrArg (· + 1) hm.sp }
  have hnames : m.heap.Names (.object o.ref) l := ⟨o.ref, rfl, hm.kept.sound.consistent.find?_ref ho hf⟩
  have hroot : .value (.object o.ref) ∈ m.heap.origins (roots pushed) :=
    HeapM.mem_origins (mem_registered_bottom hm.kept.mem_markers hm.sp)
  have hmade : Obeys pushed (onHeap (HeapM.newClosure l)) (fun c m' => m'.Resting fit holds marks 1 ∧ m'.heap.Calls c p)
      fails := by
    refine .onHeap (HeapM.delivers_newClosure_calls hm.kept.sound hm.kept.vouched hfit hb fun h' hp =>
      hp.rooted _ hroot trivial l hnames.leads hb.alive) ?_
    rintro c h ⟨hs, hp, hv, o', closure, ho', hf', hbody, -, hbears⟩
    exact ⟨Resting.reheap hpushed hs hp hv, o', closure, ho', hf', hbody, hbears⟩
  refine (show Obeys m (push (.object o.ref)) (fun _ m' => m' = pushed) fails from .inr rfl).bind
    (fun _ => inferInstance) ?_
  rintro _ m₁ rfl
  refine hmade.bind (fun _ => inferInstance) ?_
  rintro c m₂ ⟨hm₂, hcalls⟩
  refine (Resting.pop hm₂).bind (fun _ => inferInstance) ?_
  rintro _ m₃ ⟨hm₃, hheap⟩
  exact .pure ⟨hm₃, hheap ▸ hcalls⟩

theorem obeys_launch (hk : m.heap.Kept fit holds marks) (hroom : 0 < m.maxFrames) (hfit : fit p) (harity : p.arity = 0)
    (hb : m.heap.Bears l p) :
    Obeys m (EmbedM.launch l) (fun _ m' => m'.Between fit p holds marks) fun _ _ => False := by
  unfold EmbedM.launch
  apply Obeys.modify_bind
  have hm : Machine.Ended fit holds marks { m with sp := 0, calls := .none, openUpvalues := [] } :=
    ⟨hk, hroom, Nat.zero_le _, Nat.zero_le _, rfl, rfl, rfl⟩
  refine (obeys_closureOf hm hfit hb).bind (fun _ => inferInstance) ?_
  rintro c m₁ ⟨hm₁, hcalls⟩
  refine .view_bind fun v _ => (Resting.push hm₁ v).bind (fun _ => inferInstance) ?_
  rintro _ m₂ ⟨hm₂, hheap⟩
  rw [← hheap] at hcalls
  obtain ⟨f, htranscribes, hfn⟩ := functionOf_eq hcalls
  have hview : Obeys m₂ (functionOf c) (fun f m' => m' = m₂ ∧ f.Transcribes p) fun _ _ => False := by
    unfold Obeys
    rw [hfn]
    exact .inr ⟨rfl, htranscribes⟩
  have hpush (f : Frame) : Grows (modify fun m : Machine => { m with calls := m.calls.push f } : MachineM Unit) :=
    .modify fun _ => rfl
  unfold call
  dsimp only
  refine hview.bind (fun _ => inferInstance) ?_
  rintro f m' ⟨hm', hf⟩
  subst m'
  refine .ite (fun hne => absurd (harity ▸ hf.arity.symm) hne) fun _ => ?_
  unfold calleeSlot
  apply Obeys.get_bind
  apply Obeys.get_bind
  have hsp := hm₂.sp
  have hdepth := m₂.calls.depth_eq
  rw [hm₂.calls, List.length_nil] at hdepth
  have hfits : slotsPerFrame ≤ m₂.maxFrames * slotsPerFrame := Nat.le_mul_of_pos_left _ hm₂.room
  refine .ite (fun hfull => ?_) fun _ => ?_
  · have hpos := hm₂.room
    omega
  have hentry : p.Reaches 0 1 := by
    have h := Template.Reaches.entry (p := p)
    rwa [harity] at h
  refine .inr ⟨⟨c, (m₂.sp : Int) - (0 : Nat) - 1, p, 0, []⟩, 1, ?_, hentry⟩
  exact
    { kept := hm₂.kept
      room := hm₂.room
      written := hm₂.written
      space := hm₂.space
      fits := hfit
      frames := by
        show _ :: m₂.calls.frames = _
        rw [hm₂.calls]
        rfl
      calls := hcalls
      waiting := ⟨rfl, by
        show (m₂.sp : Int) - (0 : Nat) - 1 = 0
        omega⟩
      sp := by
        show (m₂.sp : Int) = (m₂.sp : Int) - (0 : Nat) - 1 + (1 : Nat)
        omega
      upvalues := hm₂.upvalues ▸ nofun }

end MachineM

namespace EmbedM

open MachineM

variable {m m' : Machine} {holds : List Value} {marks : List RootMarker} {p : Prototype} {fuel : Nat} {source : Bytes}
    {l : Loc}

theorem resting_attempt {q : Progress} (hk : m.heap.Kept Template.Compiled holds marks) (hroom : 0 < m.maxFrames)
    (hp : p.Compiled) (hlow : p.EndsLow) (harity : p.arity = 0) (hb : m.heap.Bears l p)
    (hrun : attempt (do
      launch l
      return if ← MachineM.run fuel then .running else .done) m = .ok q m') :
    m'.heap.Exhausted ∨ (q ≠ .running → m'.Resting Template.Compiled holds marks 0) ∧ q.result ≠ .compileError := by
  have hlaunch : Obeys m (launch l) (fun _ m' => m'.Between Template.Compiled p holds marks)
      (fun _ m' => m'.heap.Kept Template.Compiled holds marks ∧ 0 < m'.maxFrames) :=
    (obeys_launch hk hroom hp harity hb).imp_fails fun _ _ => False.elim
  have hobeys : Obeys m (do
      launch l
      return if ← MachineM.run fuel then Progress.running else .done)
      (fun q m' => (q ≠ .running → m'.Resting Template.Compiled holds marks 0) ∧ q.result ≠ .compileError)
      (fun _ m' => m'.heap.Kept Template.Compiled holds marks ∧ 0 < m'.maxFrames) := by
    refine hlaunch.bind (fun _ => inferInstance) fun _ m₁ hm₁ => ?_
    have hruns := (obeys_run fitting_compiled hlow fuel hm₁).imp_fails fun e m' hf => (⟨hf.kept, hf.room⟩ :
      m'.heap.Kept Template.Compiled holds marks ∧ 0 < m'.maxFrames)
    refine hruns.bind (fun _ => inferInstance) fun b m₂ hm₂ => .pure ?_
    cases b with
    | true => exact ⟨fun hne => absurd rfl hne, fun h => by cases h⟩
    | false => exact ⟨fun _ => hm₂, fun h => by cases h⟩
  unfold Obeys at hobeys
  unfold attempt at hrun
  split at hobeys <;> rename_i heq <;> rw [heq] at hrun <;> cases hrun
  · exact hobeys
  · exact hobeys.imp_right fun h => ⟨fun _ => ⟨h.1, h.2, Nat.zero_le _, Nat.zero_le _, rfl, rfl, rfl⟩, fun hr => by
        cases hr⟩

theorem resting_script {q : Progress} (hk : m.heap.Kept Template.Compiled holds marks) (hroom : 0 < m.maxFrames)
    (hl : m.heap.IsScript l) (hrun : attempt (do
      launch l
      return if ← MachineM.run fuel then .running else .done) m = .ok q m') :
    m'.heap.Exhausted ∨ (q ≠ .running → m'.Resting Template.Compiled holds marks 0) ∧ q.result ≠ .compileError := by
  obtain ⟨source, p, ha, hp, hb⟩ := hl
  obtain ⟨-, hlow, harity⟩ := Template.vetted_analyze ha hp
  exact resting_attempt hk hroom ⟨source, p, ha, hp, .self⟩ hlow harity hb hrun

theorem resting_compile {answer : Except (List Diagnostic) Loc} {h : Heap}
    (hm : m.Resting Template.Compiled holds marks 0)
    (hcompile : compile source (roots m) m.heap = .ok answer h) : h.Exhausted ∨
      ({ m with heap := h } : Machine).Resting Template.Compiled holds marks 0 ∧
        m.heap.Passes (m.heap.registered (roots m)) h ∧ ∀ l, answer = .ok l → h.IsScript l := by
  obtain ⟨p, hp⟩ := draftAll_analyze source
  have hdelivers := deposits_compile (r := roots m) hm.kept.sound hp
  unfold HeapM.Delivers at hdelivers
  rw [hcompile] at hdelivers
  refine hdelivers.imp_right ?_
  rintro ⟨hs, hpasses, hmodest, hscript⟩
  have hv := hm.kept.vouched.modest hm.kept.sound.consistent hpasses hmodest
  refine ⟨Resting.reheap hm hs hpasses hv, hpasses, fun l hl => ?_⟩
  obtain ⟨ha, hb⟩ := hscript l hl
  exact ⟨source, p, ha, hp, hb⟩

/-- The bindings of the global variables are as they were, and the objects that they name are still there. -/
def SameGlobals (m m' : Machine) : Prop :=
  m'.globals = m.globals ∧ ∀ link ∈ m.globals.links, ∀ l, m.heap.Leads link l → m.heap.Alive l →
    m'.heap.Leads link l ∧ m'.heap.Alive l

theorem sameGlobals_rfl : SameGlobals m m :=
  ⟨rfl, fun _ _ _ hl ha => ⟨hl, ha⟩⟩

theorem sameGlobals_compile {printed : List Bytes} {h : Heap} (hmark : .machine ∈ m.heap.markers)
    (hp : m.heap.Passes (m.heap.registered (roots m)) h) :
    SameGlobals m { m with heap := h, printed } := by
  refine ⟨rfl, fun link hm l hl ha => ?_⟩
  have hd := isDirect_table_links hm
  have hroot : link ∈ m.heap.registered (roots m) := by
    refine mem_registered hmark ?_
    simp only [Machine.links, List.mem_append]
    exact .inl (.inr hm)
  have ha' := hp.rooted link hroot hd l hl ha
  exact ⟨hp.leads hd hl ha.lt ha', ha'⟩

theorem resting_interpret {q : Progress} (hm : m.Resting Template.Compiled holds marks 0)
    (hrun : interpret fuel source m = .ok q m') : m'.heap.Exhausted ∨
      (q ≠ .running → m'.Resting Template.Compiled holds marks 0) ∧ (q.result = .compileError → SameGlobals m m') := by
  cases hclosed : m.closed with
  | true =>
    rw [interpret, runBind, start_eq, hclosed] at hrun
    cases hrun
    exact .inr ⟨fun _ => hm, fun _ => sameGlobals_rfl⟩
  | false =>
    cases hcompiler : m.compiler with
    | none =>
      rw [interpret, runBind, start_eq, hclosed, hcompiler] at hrun
      cases hrun
      exact .inr ⟨fun _ => hm, fun _ => sameGlobals_rfl⟩
    | failing message =>
      rw [interpret, runBind, start_eq, hclosed, hcompiler] at hrun
      cases hrun
      exact .inr ⟨fun _ => { hm with }, fun _ => sameGlobals_rfl⟩
    | standard =>
      rw [interpret_eq hclosed hcompiler] at hrun
      cases hc : compile source (roots m) m.heap with
      | error f h =>
        rw [hc] at hrun
        cases hrun
      | ok answer h =>
        rw [hc] at hrun
        have hcompiled := resting_compile hm hc
        cases answer with
        | error ds =>
          cases hrun
          refine hcompiled.imp_right ?_
          rintro ⟨hrest, hpasses, -⟩
          exact ⟨fun _ => { hrest with }, fun _ => sameGlobals_compile hm.kept.mem_markers hpasses⟩
        | ok l =>
          rcases hcompiled with hex | ⟨hrest, -, hscript⟩
          · have hlast : (finalState (attempt (do
                launch l
                return if ← MachineM.run fuel then .running else .done) { m with heap := h })).heap.Exhausted :=
              exhausted_attempt hex
            dsimp only at hrun
            rw [hrun] at hlast
            exact .inl hlast
          · exact (resting_script (m := { m with heap := h }) hrest.kept hm.room (hscript l rfl) hrun).imp_right
              fun h => ⟨h.1, fun he => absurd he h.2⟩

theorem interpretFunction_eq (hclosed : m.closed = false) (fuel : Nat) (l : Loc) : interpretFunction fuel l m = attempt
    (do
    launch l
    return if ← MachineM.run fuel then .running else .done) m := by
  have hopen : interpretFunction fuel l m = (do finish fuel (← enter l) : EmbedM Progress) m := by
    rw [interpretFunction, runBind]
    show (if m.closed then _ else _ : EmbedM Progress) m = _
    rw [hclosed]
    rfl
  rw [hopen, enter_eq, attempt_finish]

theorem resting_interpretFunction {q : Progress} (hm : m.Resting Template.Compiled holds marks 0)
    (hl : m.heap.IsScript l)
    (hclosed : m.closed = false) (hrun : interpretFunction fuel l m = .ok q m') :
    m'.heap.Exhausted ∨ (q ≠ .running → m'.Resting Template.Compiled holds marks 0) := by
  rw [interpretFunction_eq hclosed] at hrun
  exact (resting_script hm.kept hm.room hl hrun).imp_right And.left

theorem resting_ofMachine {α : Type} {act : MachineM α} {a : α} {n : Nat} {fails : RuntimeError → Machine → Prop}
    (hx : Obeys m act (fun _ m' => m'.Resting Template.Compiled holds marks n) fails)
    (hrun : ofMachine act m = .ok a m') : m'.heap.Exhausted ∨ m'.Resting Template.Compiled holds marks n := by
  unfold Obeys at hx
  unfold ofMachine at hrun
  cases ha : act m with
  | ok a m₁ =>
    rw [ha] at hx hrun
    cases hrun
    exact hx
  | error s m₁ =>
    rw [ha] at hrun
    cases s <;> cases hrun

theorem resting_prepare (hm : m.registered.Resting Template.Compiled holds marks 0) (hrun : prepare m = .ok () m') :
    m'.heap.Exhausted ∨ m'.Resting Template.Compiled holds marks 0 := by
  rw [prepare_eq] at hrun
  have hname (s : Symbol) : Grows (modify fun m : Machine => { m with initName := some s } : MachineM Unit) :=
    .modify fun _ => rfl
  have hnatives (ns : List Native) {m : Machine} (hm : m.Resting Template.Compiled holds marks 0) :
      Obeys m (ns.forM MachineM.defineNative) (fun _ m' => m'.Resting Template.Compiled holds marks 0) fun _ _ =>
          True := by
    induction ns generalizing m with
    | nil => exact .pure hm
    | cons native ns ih =>
      exact (Resting.defineNative hm native).bind (f := fun _ => ns.forM MachineM.defineNative)
        (fun _ => inferInstance) fun _ _ hm' => ih hm'
  have hforM : Grows (builtins.forM MachineM.defineNative) := inferInstance
  have hprepare : Obeys m.registered (do
      let name ← MachineM.onHeap (HeapM.intern "init")
      modify fun m => { m with initName := some name }
      builtins.forM MachineM.defineNative) (fun _ m' => m'.Resting Template.Compiled holds marks 0)
        fun _ _ => True := by
    refine (Resting.tends hm (HeapM.tends_intern _)).bind (fun _ => inferInstance) fun s m₁ hm₁ => ?_
    apply Obeys.modify_bind
    exact hnatives builtins { hm₁ with }
  exact resting_ofMachine hprepare hrun

structure Shut (m : Machine) : Prop where
  closed : m.closed = true
  freed : m.heap.closed = true
  strings : m.heap.strings = .empty
  idle : m.heap.collecting = false
  sp : m.sp = 0
  calls : m.calls.frames = []
  upvalues : m.openUpvalues = []

theorem shut_close (hm : m.Resting Template.Compiled holds marks 0) (hc : m.closed = false)
    (hrun : close m = .ok () m') :
    Shut m' := by
  let h := { m.heap with
    bytesAllocated := m.heap.bytesAllocated - m.globals.capacity * 16
    markers := m.heap.markers.erase .machine }
  have hclose : close m = .ok () { m with
      closed := true, sp := 0, calls := .none, openUpvalues := [], initName := none, globals := .empty,
      heap := h.dispose } := by
    show EStateM.Result.ok () (if m.closed then m else _) = _
    rw [hc]
    rfl
  rw [hclose] at hrun
  cases hrun
  have hsound : h.Sound := hm.kept.sound.congr ⟨rfl, rfl, rfl, rfl, rfl, rfl, rfl⟩
  have hopen : ¬ h.closed = true := by
    show ¬ m.heap.closed = true
    rw [hm.kept.opened]
    exact Bool.false_ne_true
  refine ⟨rfl, ?_, ?_, hsound.dispose.consistent.idle, rfl, rfl, rfl⟩ <;>
    rw [show Machine.heap _ = h.dispose from rfl, Heap.dispose, if_neg hopen]

def Quiet (m : Machine) : Prop :=
  m.Resting Template.Compiled m.heap.holds m.heap.markers 0 ∨ Shut m

theorem quiet_of_resting (hm : m.Resting Template.Compiled holds marks 0) : Quiet m :=
  .inl (by rwa [hm.kept.holds, hm.kept.markers])

theorem Quiet.resting (hm : Quiet m) (hopen : m.closed = false) :
    m.Resting Template.Compiled m.heap.holds m.heap.markers 0 := by
  rcases hm with hm | hm
  · exact hm
  · rw [hm.closed] at hopen
    cases hopen

theorem Quiet.still (hm : Quiet m) :
    m.sp = 0 ∧ m.calls.depth = 0 ∧ m.openUpvalues = [] ∧ m.heap.collecting = false := by
  have hdepth := m.calls.depth_eq
  rcases hm with hm | hm
  · exact ⟨hm.sp, by rw [hdepth, hm.calls]; rfl, hm.upvalues, hm.kept.sound.consistent.idle⟩
  · exact ⟨hm.sp, by rw [hdepth, hm.calls]; rfl, hm.upvalues, hm.idle⟩

theorem Quiet.setHolds (hm : Quiet m) (holds : List Value) : Quiet { m with heap := { m.heap with holds } } := by
  refine hm.imp (fun hm => ?_) fun hm => { hm with }
  exact { hm with kept := hm.kept.setHolds holds }

theorem Quiet.setMarkers (hm : Quiet m) {markers : List RootMarker}
    (hmarkers : .machine ∈ m.heap.markers → .machine ∈ markers) :
    Quiet { m with heap := { m.heap with markers } } := by
  refine hm.imp (fun hm => ?_) fun hm => { hm with }
  exact { hm with
    kept := ⟨hm.kept.sound.congr ⟨rfl, rfl, rfl, rfl, rfl, rfl, rfl⟩, hm.kept.opened, hmarkers hm.kept.mem_markers, rfl,
      hm.kept.holds, hm.kept.vouched.congr rfl rfl⟩ }

theorem quiet_onHeap {α : Type} {act : HeapM α} {a : α} (hm : Quiet m) (hopen : m.closed = false)
    (ht : HeapM.Tends act) (hrun : onHeap act m = .ok a m') (hroom : m'.heap.slots.size ≤ 2 ^ 32) : Quiet m' := by
  have hobeys : Obeys m (MachineM.onHeap act) (fun _ m' => m'.Resting Template.Compiled m.heap.holds m.heap.markers 0)
      fun _ _ => True := Resting.tends (hm.resting hopen) ht
  exact quiet_of_resting ((resting_ofMachine hobeys hrun).resolve_left (Nat.not_lt.mpr hroom))

/-- The machines of a host that runs source texts, as long as handles have 32 bits. Between them it may bind functions
of its own, compile source texts and run the scripts that come of them, intern texts, collect, hold values and let go
of them, register markers and remove them, and close the machine. -/
inductive Hosted : Machine → Prop where
  | new {options : GcOptions} {maxFrames : Int} {compiler : CompilerChoice} {clock : Clock} {m : Machine}
      (hnew : Machine.new options maxFrames compiler clock = .ok m) (hroom : m.heap.slots.size ≤ 2 ^ 32) : Hosted m
  | interpret {m m' : Machine} {fuel : Nat} {source : Bytes} {q : Progress} (hm : Hosted m)
      (hrun : EmbedM.interpret fuel source m = .ok q m') (hend : q ≠ .running) (hroom : m'.heap.slots.size ≤ 2 ^ 32) :
      Hosted m'
  | compile {m m' : Machine} {source : Bytes} {answer : Except (List Diagnostic) Loc} (hm : Hosted m)
      (hopen : m.closed = false) (hrun : onHeap (Lox.compile source) m = .ok answer m')
      (hroom : m'.heap.slots.size ≤ 2 ^ 32) : Hosted m'
  | interpretFunction {m m' : Machine} {fuel : Nat} {l : Loc} {q : Progress} (hm : Hosted m) (hl : m.heap.IsScript l)
      (hopen : m.closed = false) (hrun : EmbedM.interpretFunction fuel l m = .ok q m') (hend : q ≠ .running)
      (hroom : m'.heap.slots.size ≤ 2 ^ 32) : Hosted m'
  | defineNative {m m' : Machine} {native : Native} (hm : Hosted m)
      (hrun : EmbedM.defineNative native m = .ok () m') (hroom : m'.heap.slots.size ≤ 2 ^ 32) : Hosted m'
  | intern {m m' : Machine} {chars : Bytes} {s : Symbol} (hm : Hosted m) (hopen : m.closed = false)
      (hrun : onHeap (HeapM.intern chars) m = .ok s m') (hroom : m'.heap.slots.size ≤ 2 ^ 32) : Hosted m'
  | collect {m m' : Machine} {c : Collected} (hm : Hosted m) (hopen : m.closed = false)
      (hrun : onHeap HeapM.collect m = .ok c m') (hroom : m'.heap.slots.size ≤ 2 ^ 32) : Hosted m'
  | hold {m m' : Machine} {v : Value} {depth : Nat} (hm : Hosted m) (hrun : onHeap (HeapM.hold v) m = .ok depth m') :
      Hosted m'
  | unhold {m m' : Machine} {depth : Nat} (hm : Hosted m) (hrun : onHeap (HeapM.unhold depth) m = .ok () m') :
      Hosted m'
  | addRoots {m m' : Machine} {n : Nat} (hm : Hosted m) (hrun : onHeap (HeapM.addRoots (.host n)) m = .ok () m') :
      Hosted m'
  | removeRoots {m m' : Machine} {n : Nat} (hm : Hosted m)
      (hrun : onHeap (HeapM.removeRoots (.host n)) m = .ok () m') : Hosted m'
  | close {m m' : Machine} (hm : Hosted m) (hrun : EmbedM.close m = .ok () m') : Hosted m'

theorem resting_blank (options : GcOptions) (maxFrames : Int) (compiler : CompilerChoice) (clock : Clock) :
    (blank options (framesFor maxFrames) compiler clock).registered.Resting Template.Compiled [] [.machine] 0 where
  kept := ⟨(sound_new options).congr ⟨rfl, rfl, rfl, rfl, rfl, rfl, rfl⟩, rfl, .head _, rfl, rfl,
    (vouched_new options).congr rfl rfl⟩
  room := by
    show 0 < framesFor maxFrames
    unfold framesFor
    split
    · decide
    · omega
  written := Nat.zero_le _
  space := Nat.zero_le _
  sp := rfl
  calls := rfl
  upvalues := rfl

theorem interpret_closed (hc : m.closed = true) (fuel : Nat) (source : Bytes) :
    interpret fuel source m = .ok (.failed .closed) m := by
  rw [interpret, runBind, start_eq, hc]
  rfl

theorem defineNative_shut (hm : Shut m) (native : Native) (m' : Machine) : defineNative native m ≠ .ok () m' := by
  intro hrun
  unfold defineNative ofMachine MachineM.defineNative at hrun
  rw [runBind, run_onHeap, HeapM.run_bind, intern_closed hm.freed hm.strings] at hrun
  cases hrun

theorem Hosted.quiet (hm : Hosted m) : Quiet m := by
  induction hm with
  | @new options maxFrames compiler clock m hnew hroom =>
    rw [new_eq] at hnew
    split at hnew
    · cases hnew
    · cases hprep : prepare (blank options (framesFor maxFrames) compiler clock) with
      | error e m₁ =>
        rw [hprep] at hnew
        cases hnew
      | ok u m₁ =>
        rw [hprep] at hnew
        cases hnew
        exact quiet_of_resting ((resting_prepare (resting_blank options maxFrames compiler clock) hprep).resolve_left
          (Nat.not_lt.mpr hroom))
  | @interpret m m' fuel source q _ hrun hend hroom ih =>
    rcases ih with ih | ih
    · obtain ⟨hrest, -⟩ := (resting_interpret ih hrun).resolve_left (Nat.not_lt.mpr hroom)
      exact quiet_of_resting (hrest hend)
    · rw [interpret_closed ih.closed] at hrun
      cases hrun
      exact .inr ih
  | @compile m m' source answer _ hopen hrun hroom ih =>
    have hrest := ih.resting hopen
    unfold onHeap ofMachine at hrun
    rw [run_onHeap] at hrun
    cases hc : Lox.compile source (roots m) m.heap with
    | error f h =>
      rw [hc] at hrun
      cases hrun
    | ok answer' h =>
      rw [hc] at hrun
      cases hrun
      exact quiet_of_resting ((resting_compile hrest hc).resolve_left (Nat.not_lt.mpr hroom)).1
  | @interpretFunction m m' fuel l q _ hl hopen hrun hend hroom ih =>
    exact quiet_of_resting (((resting_interpretFunction (ih.resting hopen) hl hopen hrun).resolve_left
      (Nat.not_lt.mpr hroom)) hend)
  | @defineNative m m' native _ hrun hroom ih =>
    rcases ih with ih | ih
    · have hobeys : Obeys m (MachineM.defineNative native) (fun _ m' => m'.Resting Template.Compiled m.heap.holds
          m.heap.markers 0)
          fun _ _ => True := Resting.defineNative ih native
      exact quiet_of_resting ((resting_ofMachine hobeys hrun).resolve_left (Nat.not_lt.mpr hroom))
    · exact absurd hrun (defineNative_shut ih native m')
  | intern _ hopen hrun hroom ih => exact quiet_onHeap ih hopen (HeapM.tends_intern _) hrun hroom
  | collect _ hopen hrun hroom ih => exact quiet_onHeap ih hopen HeapM.tends_collect hrun hroom
  | hold _ hrun ih =>
    cases hrun
    exact ih.setHolds _
  | @unhold m m' depth _ hrun ih =>
    unfold onHeap ofMachine at hrun
    rw [run_onHeap, HeapM.unhold_eq] at hrun
    by_cases hd : m.heap.holds.length ≠ depth
    · rw [if_pos hd] at hrun
      cases hrun
    · rw [if_neg hd] at hrun
      cases hrun
      exact ih.setHolds _
  | addRoots _ hrun ih =>
    cases hrun
    exact ih.setMarkers fun hmark => List.mem_append_left _ hmark
  | removeRoots _ hrun ih =>
    cases hrun
    exact ih.setMarkers fun hmark => (List.mem_erase_of_ne (by simp)).mpr hmark
  | @close m m' _ hrun ih =>
    cases hc : m.closed with
    | true =>
      rw [close_closed hc] at hrun
      cases hrun
      exact ih
    | false =>
      rcases ih with ih | ih
      · exact .inr (shut_close ih hc hrun)
      · rw [ih.closed] at hc
        cases hc

/-- Whether a source text runs to its end, fails or is refused, the stack, the calls and the captured variables of the
machine are gone, nothing is held that was not held before, the same markers are registered and no collection goes
on. A source text that is refused leaves the global variables alone. -/
theorem interpret_leaves_globals {q : Progress} (hm : Hosted m) (hrun : interpret fuel source m = .ok q m')
    (hend : q ≠ .running) (hroom : m'.heap.slots.size ≤ 2 ^ 32) :
    m'.sp = 0 ∧ m'.calls.depth = 0 ∧ m'.openUpvalues = [] ∧ m'.heap.holds = m.heap.holds ∧
      m'.heap.markers = m.heap.markers ∧ m'.heap.collecting = false ∧
        (q.result = .compileError → SameGlobals m m') := by
  obtain ⟨hsp, hdepth, hupvalues, hidle⟩ := (hm.interpret hrun hend hroom).quiet.still
  have hkeeps : m'.heap.holds = m.heap.holds ∧ m'.heap.markers = m.heap.markers ∧
      (q.result = .compileError → SameGlobals m m') := by
    rcases hm.quiet with hquiet | hquiet
    · obtain ⟨hrest, hglobals⟩ := (resting_interpret hquiet hrun).resolve_left (Nat.not_lt.mpr hroom)
      exact ⟨(hrest hend).kept.holds, (hrest hend).kept.markers, hglobals⟩
    · rw [interpret_closed hquiet.closed] at hrun
      cases hrun
      exact ⟨rfl, rfl, fun _ => sameGlobals_rfl⟩
  exact ⟨hsp, hdepth, hupvalues, hkeeps.1, hkeeps.2.1, hidle, hkeeps.2.2⟩

def endsWithin (source : Bytes) : Bool :=
  match Machine.new {} 1 .standard with
  | .ok m =>
    match interpret 9 source m with
    | .ok .running _ => false
    | .ok _ m' => decide (m.heap.slots.size ≤ 2 ^ 32 ∧ m'.heap.slots.size ≤ 2 ^ 32)
    | .error _ _ => false
  | .error _ => false

theorem interpret_leaves_globals_negation : ∃ m m' q, Machine.new {} 1 .standard = .ok m ∧
    interpret 9 "{ var a = true; -a; }" m = .ok q m' ∧ m'.sp = 0 ∧ m'.calls.depth = 0 ∧ m'.openUpvalues = [] := by
  have hends : endsWithin "{ var a = true; -a; }" = true := by decide +kernel
  unfold endsWithin at hends
  cases hnew : Machine.new {} 1 .standard with
  | error f =>
    rw [hnew] at hends
    cases hends
  | ok m =>
    rw [hnew] at hends
    cases hrun : interpret 9 "{ var a = true; -a; }" m with
    | error f m' =>
      simp only [hrun] at hends
      cases hends
    | ok q m' =>
      simp only [hrun] at hends
      have hend : q ≠ .running := by
        rintro rfl
        cases hends
      have hsize : m.heap.slots.size ≤ 2 ^ 32 ∧ m'.heap.slots.size ≤ 2 ^ 32 := by
        cases q
        · exact absurd rfl hend
        all_goals exact of_decide_eq_true hends
      obtain ⟨hsp, hdepth, hupvalues, -⟩ := interpret_leaves_globals (.new hnew hsize.1) hrun hend hsize.2
      exact ⟨m, m', q, rfl, hrun, hsp, hdepth, hupvalues⟩

variable {l : Loc}

/-- The machines of a host between two instructions of a program. -/
inductive Live : Machine → Prop where
  | start {m m' : Machine} {source : Bytes} (hm : Hosted m) (hstart : start source m = .ok .running m') : Live m'
  | enter {m m' : Machine} {l : Loc} (hm : Hosted m) (hl : m.heap.IsScript l) (hopen : m.closed = false)
      (henter : enter l m = .ok .running m') : Live m'
  | step {m m' : Machine} (hm : Live m) (hstep : MachineM.step m = .ok true m') : Live m'

theorem between_enter (hk : m.heap.Kept Template.Compiled holds marks) (hroom : 0 < m.maxFrames)
    (hl : m.heap.IsScript l) (henter : enter l m = .ok .running m') : m'.heap.Exhausted ∨
      ∃ script, script.EndsLow ∧ m'.Between Template.Compiled script holds marks := by
  obtain ⟨source, p, ha, hp, hb⟩ := hl
  obtain ⟨-, hlow, harity⟩ := Template.vetted_analyze ha hp
  have hlaunch : Obeys m (launch l) (fun _ m' => m'.Between Template.Compiled p holds marks) fun _ _ => False :=
    obeys_launch hk hroom ⟨source, p, ha, hp, .self⟩ harity hb
  rw [enter_eq] at henter
  unfold Obeys at hlaunch
  unfold attempt at henter
  rw [runBind] at henter
  cases hrun : launch l m with
  | error e m₁ =>
    rw [hrun] at henter
    cases e <;> cases henter
  | ok u m₁ =>
    rw [hrun] at hlaunch henter
    cases henter
    exact hlaunch.imp_right fun h => ⟨p, hlow, h⟩

theorem between_start (hm : m.Resting Template.Compiled holds marks 0) (hstart : start source m = .ok .running m') :
    m'.heap.Exhausted ∨ ∃ script, script.EndsLow ∧ m'.Between Template.Compiled script holds marks := by
  cases hclosed : m.closed with
  | true =>
    rw [start_eq, hclosed] at hstart
    cases hstart
  | false =>
    cases hcompiler : m.compiler with
    | none | failing message =>
      rw [start_eq, hclosed, hcompiler] at hstart
      cases hstart
    | standard =>
      rw [start_standard hclosed hcompiler, runBind, onHeap, ofMachine, run_onHeap] at hstart
      cases hc : compile source (roots m) m.heap with
      | error f h =>
        rw [hc] at hstart
        cases hstart
      | ok answer h =>
        rw [hc] at hstart
        cases answer with
        | error ds => cases hstart
        | ok l =>
          change enter l { m with heap := h } = _ at hstart
          rcases resting_compile hm hc with hex | ⟨hrest, -, hscript⟩
          · have hlast : (finalState (enter l { m with heap := h })).heap.Exhausted := by
              rw [enter_eq]
              exact exhausted_attempt hex
            rw [hstart] at hlast
            exact .inl hlast
          · exact between_enter hrest.kept hm.room (hscript l rfl) hstart

theorem Live.between (hm : Live m) : m.heap.Exhausted ∨ ∃ script holds marks, script.EndsLow ∧
    m.Between Template.Compiled script holds marks := by
  induction hm with
  | @start m m' source hm hstart =>
    rcases hm.quiet with hquiet | hquiet
    · exact (between_start hquiet hstart).imp_right fun ⟨script, h⟩ => ⟨script, _, _, h⟩
    · rw [start_eq, hquiet.closed] at hstart
      cases hstart
  | enter hm hl hopen henter =>
    have hquiet := hm.quiet.resting hopen
    exact (between_enter hquiet.kept hquiet.room hl henter).imp_right fun ⟨script, h⟩ => ⟨script, _, _, h⟩
  | @step m m' _ hstep ih =>
    rcases ih with hex | ⟨script, holds, marks, hlow, s, height, hw, hr⟩
    · exact .inl (Grows.ok hex hstep)
    · have hobeys := obeys_step fitting_compiled hlow hw hr
      unfold Obeys at hobeys
      rw [hstep] at hobeys
      exact hobeys.imp_right fun h => ⟨script, holds, marks, hlow, h⟩

end EmbedM

end Lox

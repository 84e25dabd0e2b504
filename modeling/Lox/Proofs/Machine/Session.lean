import Lox.Proofs.Heap.Reachable
import Lox.Proofs.Machine.Balance

/-!
How a machine runs a program, from outside.
-/

namespace Lox

open Heap HeapView MachineM HeapM

variable {α β : Type}

instance (ns : List Native) : Balances (ns.forM defineNative) := by
  induction ns with
  | nil => exact (inferInstance : Balances (pure ()))
  | cons n ns ih => exact (inferInstance : Balances (do defineNative n; ns.forM defineNative))

def Machine.registered (m : Machine) : Machine :=
  { m with heap := { m.heap with markers := m.heap.markers ++ [.machine] } }

namespace EmbedM

theorem ofMachine_bind (x : MachineM α) (f : α → MachineM β) :
    ofMachine (x >>= f) = ofMachine x >>= fun a => ofMachine (f a) := by
  funext m
  rw [runBind]
  unfold ofMachine
  rw [runBind]
  cases x m with
  | ok a m => rfl
  | error s m => cases s <;> rfl

theorem ofMachine_forM (f : α → MachineM Unit) (xs : List α) :
    xs.forM (fun x => ofMachine (f x)) = ofMachine (xs.forM f) := by
  induction xs with
  | nil => rfl
  | cons x xs ih =>
    unfold List.forM
    rw [ofMachine_bind, ih]

theorem prepare_eq (m : Machine) : prepare m = ofMachine (do
    let name ← MachineM.onHeap (intern "init")
    modify fun m => { m with initName := some name }
    builtins.forM MachineM.defineNative) m.registered := by
  rw [ofMachine_bind]
  simp only [ofMachine_bind, ← ofMachine_forM]
  rfl

def closureOf (script : Loc) : MachineM Loc := do
  push (← valueOf script)
  let closure ← MachineM.onHeap (newClosure script)
  let _ ← pop
  return closure

def launch (script : Loc) : MachineM Unit := do
  resetStack
  let closure ← closureOf script
  push (← valueOf closure)
  MachineM.call closure 0

theorem enter_eq (script : Loc) : enter script = attempt do
    launch script
    return .running := by
  unfold enter launch closureOf
  simp only [bind_assoc, pure_bind]

theorem attempt_finish (act : MachineM Unit) (fuel : Nat) : (do
    finish fuel (← attempt do
      act
      return .running)) = attempt do
    act
    return if ← MachineM.run fuel then .running else .done := by
  funext m
  rw [runBind]
  unfold attempt
  rw [runBind, runBind]
  cases act m with
  | ok a m => rfl
  | error s m => cases s <;> rfl

theorem exhausted_attempt {act : MachineM Progress} {m : Machine} [hg : MachineM.Grows act]
    (he : m.heap.Exhausted) : (finalState (attempt act m)).heap.Exhausted := by
  have hle := Nat.lt_of_lt_of_le he (hg.le m)
  unfold attempt
  cases ha : act m with
  | ok a m' =>
    rw [ha] at hle
    exact hle
  | error s m' =>
    rw [ha] at hle
    cases s <;> exact hle

theorem start_eq (source : Bytes) (m : Machine) : start source m =
    (if m.closed then return .failed .closed
    else match m.compiler with
      | .none => return .failed .noCompiler
      | .failing message => refuse (.other message) [message]
      | .standard => do
        match ← onHeap (compile source) with
        | .error ds => refuse (.compile ds) (ds.map Diagnostic.text)
        | .ok script => enter script : EmbedM Progress) m :=
  rfl

theorem balanced_attempt {act : MachineM Progress} {m m' : Machine} {p : Progress} [hb : Balances act]
    (hm : m.Balanced) (hrun : attempt act m = .ok p m') : m'.heap.Exhausted ∨ m'.Balanced := by
  have hmeet := hb.keeps m hm
  unfold Meets at hmeet
  unfold attempt at hrun
  cases ha : act m with
  | ok a m₁ =>
    rw [ha] at hmeet hrun
    cases hrun
    exact hmeet
  | error s m₁ =>
    rw [ha] at hmeet hrun
    cases s with
    | fault f => cases hrun
    | error e =>
      cases hrun
      exact hmeet.imp_right fun h => h.spare ⟨rfl, rfl, rfl, nofun⟩

theorem start_standard {m : Machine} (hclosed : m.closed = false) (hcompiler : m.compiler = .standard)
    (source : Bytes) :
    start source m = (do
      match ← onHeap (compile source) with
      | .error ds => refuse (.compile ds) (ds.map Diagnostic.text)
      | .ok script => enter script : EmbedM Progress) m := by
  rw [start_eq, hclosed, hcompiler]
  rfl

theorem interpret_eq {m : Machine} (hclosed : m.closed = false) (hcompiler : m.compiler = .standard)
    (fuel : Nat) (source : Bytes) : interpret fuel source m =
    match compile source (roots m) m.heap with
    | .ok (.ok script) heap => attempt (do
        launch script
        return if ← MachineM.run fuel then .running else .done) { m with heap }
    | .ok (.error ds) heap => .ok (.failed (.compile ds)) { m with
        heap, printed := ((ds.map Diagnostic.text).map (· ++ ("\n" : Bytes))).reverse ++ m.printed }
    | .error f heap => .error f { m with heap } := by
  rw [interpret, runBind, start_standard hclosed hcompiler, runBind, onHeap, ofMachine, run_onHeap]
  cases compile source (roots m) m.heap with
  | error f heap => rfl
  | ok answer heap =>
    cases answer with
    | error ds => rfl
    | ok script =>
      dsimp only
      rw [← attempt_finish, runBind, enter_eq]

instance (script : Loc) : Balances (launch script) := by
  have hreset : Balances resetStack := .modify fun _ => ⟨rfl, rfl, rfl, nofun⟩
  have hnew : Balances (MachineM.onHeap (newClosure script)) :=
    .onHeap (keeps_newClosure script).grows fun h => settles_newClosure h script
  unfold launch closureOf
  infer_instance

theorem exhausted_interpret {m : Machine} (he : m.heap.Exhausted) (fuel : Nat) (source : Bytes) :
    (finalState (interpret fuel source m)).heap.Exhausted := by
  cases hclosed : m.closed with
  | true =>
    rw [interpret, runBind, start_eq, hclosed]
    exact he
  | false =>
    cases hcompiler : m.compiler with
    | standard =>
      have hle := Nat.lt_of_lt_of_le he (grows_compile source (roots m) m.heap)
      rw [interpret_eq hclosed hcompiler]
      cases hc : compile source (roots m) m.heap with
      | error f heap =>
        rw [hc] at hle
        exact hle
      | ok answer heap =>
        rw [hc] at hle
        cases answer with
        | error ds => exact hle
        | ok script => exact exhausted_attempt hle
    | none =>
      rw [interpret, runBind, start_eq, hclosed, hcompiler]
      exact he
    | failing message =>
      rw [interpret, runBind, start_eq, hclosed, hcompiler]
      exact he

end EmbedM

namespace Machine

def framesFor (n : Int) : Nat :=
  if n ≤ 0 then defaultFrames else n.toNat

theorem new_eq (options : GcOptions) (n : Int) (compiler : CompilerChoice) (clock : Clock) :
    Machine.new options n compiler clock = if mostFrames < framesFor n then .error .oversize
    else match EmbedM.prepare (blank options (framesFor n) compiler clock) with
      | .ok _ m => .ok m
      | .error e _ => .error e :=
  rfl

end Machine

end Lox

namespace Lox

open Heap HeapView MachineM

namespace Heap

variable {h : Heap}

structure Disposed (h h' : Heap) : Prop where
  bytes : h'.bytesAllocated = h.surplus
  live : h'.live = []
  liveObjects : h'.liveObjects = 0
  ever : h'.objectsFreed = h'.objects.size
  strings : h'.strings = .empty
  closed : h'.closed = true

theorem intern_closed {r : Roots} (hcl : h.closed = true) (hs : h.strings = .empty) (chars : Bytes) :
    HeapM.intern chars r h = .error .heapFreed h := by
  have hnone : h.strings.findText? chars chars.hash = none := by
    rw [hs]
    rfl
  unfold HeapM.intern HeapM.newString HeapM.allocate
  rw [HeapM.run_bind, HeapM.run_getHeap]
  simp only [hnone, HeapM.run_bind, HeapM.account_eq, hcl, ↓reduceIte]

theorem disposed (hc : h.Consistent) (hcount : h.Counted) (hopen : h.closed = false) :
    Disposed h h.dispose := by
  have hex : ∀ l ∈ h.live, ∃ o, h.objects[l]? = some o := by
    intro l hl
    obtain ⟨o, ho, -⟩ := (hc.live l).mp hl
    exact ⟨o, ho⟩
  have hsweep : h.sweep = { h.live.foldl (fun h l => h.release l) h with live := [] } :=
    sweepList_unmarked _ _ _ hc.unmarked
  have hsurplus := surplus_sweep hc.nodup hex
  obtain ⟨hlive, hever⟩ := hcount.sweep hc.nodup hex
  rw [hsweep] at hsurplus hlive hever
  have hnone : (h.live.foldl (fun h l => h.release l) h).liveObjects = 0 := hlive
  refine
    { bytes := hsurplus ▸ ?_
      live := ?_
      liveObjects := ?_
      ever := ?_
      strings := ?_
      closed := ?_ }
  all_goals rw [dispose, if_neg (by simp [hopen])]
  · simp [surplus, footprint]
  · exact hnone
  · simp only [hnone, Nat.zero_add] at hever
    exact hever

end Heap

namespace Machine

variable {m m' : Machine}

/-- The account of a machine: every byte that is charged belongs to a live object, to the arrays of
one, to the intern table or to the global variables. -/
structure Accounted (m : Machine) : Prop where
  bytes : m.heap.bytesAllocated = ((m.heap.live.map m.heap.costAt).sum +
    m.heap.strings.capacity * 16 + m.globals.capacity * 16 : Nat)
  live : m.heap.liveObjects = m.heap.live.length
  ever : m.heap.liveObjects + m.heap.objectsFreed = m.heap.objects.size

theorem Balanced.accounted (hm : m.Balanced) : m.Accounted where
  bytes := by
    have hs := hm.surplus
    simp only [Heap.surplus, footprint] at hs
    omega
  live := hm.counted.live
  ever := hm.counted.ever

structure Emptied (m : Machine) : Prop where
  closed : m.closed = true
  freed : m.heap.closed = true
  bytes : m.heap.bytesAllocated = 0
  live : m.heap.live = []
  liveObjects : m.heap.liveObjects = 0
  ever : m.heap.objectsFreed = m.heap.objects.size
  strings : m.heap.strings = .empty
  globals : m.globals = .empty

theorem Emptied.accounted (hm : m.Emptied) : m.Accounted where
  bytes := by
    rw [hm.bytes, hm.live, hm.strings, hm.globals]
    rfl
  live := by rw [hm.liveObjects, hm.live]; rfl
  ever := by rw [hm.liveObjects, hm.ever, Nat.zero_add]

def Settled (m : Machine) : Prop :=
  m.Balanced ∨ m.Emptied

theorem Settled.accounted (hm : m.Settled) : m.Accounted :=
  hm.elim Balanced.accounted Emptied.accounted

theorem Settled.balanced (hm : m.Settled) (hc : m.closed = false) : m.Balanced := by
  refine hm.resolve_right fun he => ?_
  rw [he.closed] at hc
  cases hc

theorem Settled.emptied (hm : m.Settled) (hc : m.closed = true) : m.Emptied := by
  refine hm.resolve_left fun hb => ?_
  rw [hb.running] at hc
  cases hc

theorem balanced_blank (options : GcOptions) (maxFrames : Nat) (compiler : CompilerChoice) (clock : Clock) :
    (blank options maxFrames compiler clock).registered.Balanced where
  running := rfl
  sound := (sound_new options).congr ⟨rfl, rfl, rfl, rfl, rfl, rfl, rfl⟩
  counted := ⟨rfl, rfl⟩
  surplus := rfl
  open_ := rfl
  registered := .head _
  upvalues := nofun

end Machine

namespace EmbedM

open Machine

variable {α : Type} {m m' : Machine}

theorem balanced_ofMachine {act : MachineM α} {a : α} [hb : Balances act] (hm : m.Balanced)
    (hrun : ofMachine act m = .ok a m') : m'.heap.Exhausted ∨ m'.Balanced := by
  have hmeet := hb.keeps m hm
  unfold Meets at hmeet
  unfold ofMachine at hrun
  cases ha : act m with
  | ok a m₁ =>
    rw [ha] at hmeet hrun
    cases hrun
    exact hmeet
  | error s m₁ =>
    rw [ha] at hrun
    cases s <;> cases hrun

theorem balanced_prepare (hm : m.registered.Balanced) (hrun : prepare m = .ok () m') :
    m'.heap.Exhausted ∨ m'.Balanced := by
  have hname (s : Symbol) : Balances (modify fun m : Machine => { m with initName := some s } :
      MachineM Unit) := .modify fun _ => .of_same rfl rfl rfl rfl
  have hintern : Balances (MachineM.onHeap (HeapM.intern "init")) :=
    .onHeap (HeapM.grows_intern _) fun h => HeapM.settles_intern h _
  rw [prepare_eq] at hrun
  exact balanced_ofMachine hm hrun

theorem balanced_interpret {fuel : Nat} {source : Bytes} {p : Progress} (hm : m.Balanced)
    (hrun : interpret fuel source m = .ok p m') : m'.heap.Exhausted ∨ m'.Balanced := by
  cases hcompiler : m.compiler with
  | none =>
    rw [interpret, runBind, start_eq, hm.running, hcompiler] at hrun
    cases hrun
    exact .inr hm
  | failing message =>
    rw [interpret, runBind, start_eq, hm.running, hcompiler] at hrun
    cases hrun
    exact .inr (hm.spare (.of_same rfl rfl rfl rfl))
  | standard =>
    rw [interpret_eq hm.running hcompiler] at hrun
    have hset := settles_compile (r := roots m) hm.sound hm.open_ source
    unfold HeapM.Settles HeapM.Delivers at hset
    cases hc : compile source (roots m) m.heap with
    | error f heap =>
      rw [hc] at hrun
      cases hrun
    | ok answer heap =>
      rw [hc] at hset hrun
      cases answer with
      | error ds =>
        cases hrun
        exact hset.imp_right fun h => (hm.resettle h.1 h.2).spare (.of_same rfl rfl rfl rfl)
      | ok script =>
        rcases hset with he | ⟨hs, hb⟩
        · have hlast : m' = finalState (attempt (do
              launch script
              return if ← MachineM.run fuel then .running else .done) { m with heap }) := by
            dsimp only at hrun
            rw [hrun]
            rfl
          rw [hlast]
          exact .inl (exhausted_attempt he)
        · exact balanced_attempt (hm.resettle hs hb) hrun

theorem balanced_interpretFunction {fuel : Nat} {script : Loc} {p : Progress} (hm : m.Balanced)
    (hrun : interpretFunction fuel script m = .ok p m') : m'.heap.Exhausted ∨ m'.Balanced := by
  have hopen : interpretFunction fuel script m = (do finish fuel (← enter script) : EmbedM Progress) m := by
    show (if m.closed then _ else _ : EmbedM Progress) m = _
    rw [hm.running]
    rfl
  rw [hopen, enter_eq, attempt_finish] at hrun
  exact balanced_attempt hm hrun

theorem emptied_close (hm : m.Balanced) (hrun : close m = .ok () m') : m'.Emptied := by
  let h := { m.heap with
    bytesAllocated := m.heap.bytesAllocated - m.globals.capacity * 16
    markers := m.heap.markers.erase .machine }
  have hstore : m.heap.SameStore h := ⟨rfl, rfl, rfl, rfl, rfl, rfl, rfl⟩
  have hd : Disposed h h.dispose := 
    disposed (hm.sound.consistent.congr hstore) ⟨hm.counted.live, hm.counted.ever⟩ hm.open_
  have hzero : h.surplus = 0 := by
    have hs := hm.surplus
    have hfoot : h.footprint = m.heap.footprint := rfl
    simp only [surplus] at hs ⊢
    rw [hfoot]
    show m.heap.bytesAllocated - m.globals.capacity * 16 - m.heap.footprint = 0
    omega
  have hclose : close m = .ok () { m with
      closed := true, sp := 0, calls := .none, openUpvalues := [], initName := none, globals := .empty,
      heap := h.dispose } := by
    show EStateM.Result.ok () (if m.closed then m else _) = _
    rw [hm.running]
    rfl
  rw [hclose] at hrun
  cases hrun
  exact ⟨rfl, hd.closed, hd.bytes.trans hzero, hd.live, hd.liveObjects, hd.ever, hd.strings, rfl⟩

theorem close_closed (hc : m.closed = true) : close m = .ok () m := by
  show EStateM.Result.ok () (if m.closed then m else _) = _
  rw [hc]
  rfl

theorem defineNative_emptied (hm : m.Emptied) (n : Native) (a : Unit) (m' : Machine) :
    defineNative n m ≠ .ok a m' := by
  intro hrun
  unfold defineNative ofMachine MachineM.defineNative at hrun
  rw [runBind, run_onHeap, HeapM.run_bind, intern_closed hm.freed hm.strings] at hrun
  cases hrun

inductive Request where
  | interpret (fuel : Nat) (source : Bytes)
  | interpretFunction (fuel : Nat) (script : Loc)
  | defineNative (native : Native)
  | close

def Request.run : Request → EmbedM Unit
  | interpret fuel source => do let _ ← EmbedM.interpret fuel source
  | interpretFunction fuel script => do let _ ← EmbedM.interpretFunction fuel script
  | defineNative native => EmbedM.defineNative native
  | close => EmbedM.close

/-- The machines that requests lead to, as long as handles have 32 bits. -/
inductive Session : Machine → Prop where
  | new {options : GcOptions} {maxFrames : Int} {compiler : CompilerChoice} {clock : Clock} {m : Machine}
      (hnew : Machine.new options maxFrames compiler clock = .ok m) (hroom : m.heap.slots.size ≤ 2 ^ 32) :
      Session m
  | request {m m' : Machine} (hs : Session m) (q : Request) (hrun : q.run m = .ok () m')
      (hroom : m'.heap.slots.size ≤ 2 ^ 32) : Session m'

theorem ok_of_discard {act : EmbedM α} (hrun : (do let _ ← act : EmbedM Unit) m = .ok () m') :
    ∃ a, act m = .ok a m' := by
  rw [runBind] at hrun
  cases ha : act m with
  | error e m₁ =>
    rw [ha] at hrun
    cases hrun
  | ok a m₁ =>
    rw [ha] at hrun
    cases hrun
    exact ⟨a, rfl⟩

theorem settled_request (hm : m.Settled) (q : Request) (hrun : q.run m = .ok () m')
    (hroom : m'.heap.slots.size ≤ 2 ^ 32) : m'.Settled := by
  have hend (h : m'.heap.Exhausted ∨ m'.Balanced) : m'.Settled :=
    .inl (h.resolve_left (Nat.not_lt.mpr hroom))
  cases hclosed : m.closed with
  | false =>
    have hb := hm.balanced hclosed
    cases q with
    | interpret fuel source =>
      obtain ⟨p, hp⟩ := ok_of_discard hrun
      exact hend (balanced_interpret hb hp)
    | interpretFunction fuel script =>
      obtain ⟨p, hp⟩ := ok_of_discard hrun
      exact hend (balanced_interpretFunction hb hp)
    | defineNative n => exact hend (balanced_ofMachine hb hrun)
    | close => exact .inr (emptied_close hb hrun)
  | true =>
    -- a machine that is closed refuses everything
    have he := hm.emptied hclosed
    cases q with
    | interpret fuel source =>
      obtain ⟨p, hp⟩ := ok_of_discard hrun
      rw [interpret, runBind, start_eq, hclosed] at hp
      cases hp
      exact hm
    | interpretFunction fuel script =>
      obtain ⟨p, hp⟩ := ok_of_discard hrun
      have hsame : interpretFunction fuel script m = .ok (.failed .closed) m := by
        show (if m.closed then _ else _ : EmbedM Progress) m = _
        rw [hclosed]
        rfl
      rw [hsame] at hp
      cases hp
      exact hm
    | defineNative n => exact absurd hrun (defineNative_emptied he n () m')
    | close =>
      rw [Request.run, close_closed hclosed] at hrun
      cases hrun
      exact hm

theorem Session.settled (hs : Session m) : m.Settled := by
  induction hs with
  | @new options maxFrames compiler clock m hnew hroom =>
    rw [new_eq] at hnew
    split at hnew
    · cases hnew
    · cases hprep : prepare (blank options (framesFor maxFrames) compiler clock) with
      | error e m₁ =>
        rw [hprep] at hnew
        cases hnew
      | ok u m₁ =>
        rw [hprep] at hnew
        cases hnew
        have hb := balanced_prepare (balanced_blank options (framesFor maxFrames) compiler clock) hprep
        exact .inl (hb.resolve_left (Nat.not_lt.mpr hroom))
  | request _ q hrun hroom ih => exact settled_request ih q hrun hroom

/-- Between any two requests every byte that a machine has charged is accounted for, and none is left
once it is closed. -/
theorem Session.every_byte_accounted (hs : Session m) : m.Accounted ∧ ∀ m', close m = .ok () m' →
    m'.heap.bytesAllocated = 0 ∧ m'.heap.liveObjects = 0 := by
  refine ⟨hs.settled.accounted, fun m' hrun => ?_⟩
  have he : m'.Emptied := by
    rcases hs.settled with hb | he
    · exact emptied_close hb hrun
    · rw [close_closed he.closed] at hrun
      cases hrun
      exact he
  exact ⟨he.bytes, he.liveObjects⟩

def runsWithin (source : Bytes) : Bool :=
  match Machine.new {} 1 .standard with
  | .ok m =>
    match (Request.interpret 9 source).run m with
    | .ok _ m' => decide (m.heap.slots.size ≤ 2 ^ 32 ∧ m'.heap.slots.size ≤ 2 ^ 32)
    | .error _ _ => false
  | .error _ => false

theorem accounted_declaration : ∃ m m', Machine.new {} 1 .standard = .ok m ∧
    (Request.interpret 9 "var a = \"b\";").run m = .ok () m' ∧ m'.Accounted ∧
      ∀ m'', close m' = .ok () m'' → m''.heap.bytesAllocated = 0 ∧ m''.heap.liveObjects = 0 := by
  have hroom : runsWithin "var a = \"b\";" = true := by decide +kernel
  unfold runsWithin at hroom
  cases hnew : Machine.new {} 1 .standard with
  | error f =>
    rw [hnew] at hroom
    cases hroom
  | ok m =>
    rw [hnew] at hroom
    cases hrun : (Request.interpret 9 "var a = \"b\";").run m with
    | error f m' =>
      simp only [hrun] at hroom
      cases hroom
    | ok u m' =>
      simp only [hrun] at hroom
      have hsize := of_decide_eq_true hroom
      have hs : Session m' := .request (.new hnew hsize.1) _ hrun hsize.2
      exact ⟨m, m', rfl, hrun, hs.every_byte_accounted⟩

end EmbedM

end Lox

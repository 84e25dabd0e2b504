import Lox.Proofs.Heap.Reachable
import Lox.Proofs.Ideal.Run
import Lox.Proofs.Ideal.Mirror
import Lox.Proofs.Machine.Session

namespace Lox

open Heap HeapView MachineM HeapM

variable {α β : Type}

namespace IdealM

def defineNative (n : Native) : IdealM Unit := do
  push (.string n.name)
  push (.object (← create (.native n)))
  setGlobal n.name (← peek 0)
  let _ ← pop
  let _ ← pop

def enter (p : Prototype) : IdealM Unit := do
  if HeapM.maxCaptures < p.captures then stop .oversize
  let closure ← create (.closure ⟨p, List.replicate p.captures none⟩)
  push (.object closure)
  call closure 0

end IdealM

def Ideal.new (maxFrames : Nat) (clock : Clock) : Ideal :=
  { maxFrames
    clock
    objects := EmbedM.builtins.map .native
    globals := (Dict.empty.set "clock" (.object 0)).set "gc" (.object 1) }

theorem defineNatives_eq (maxFrames : Nat) (clock : Clock) :
    EmbedM.builtins.forM IdealM.defineNative { maxFrames, clock } = .ok () (Ideal.new maxFrames clock) :=
  rfl

theorem follows_defineNative {w : World} {m : Machine} {i : Ideal} (hm : Mirrors w m i) (n : Native) :
    Follows w m i (defineNative n) (IdealM.defineNative n) := by
  have hrest : Grows (do
      push (← onHeap do valueOf (← newNative n))
      let name ← peek 1
      let _ ← setGlobal (← asSymbol name) (← peek 0)
      let _ ← pop
      let _ ← pop : MachineM Unit) :=
    have : Grows (onHeap do valueOf (← newNative n)) := .value (grows_allocate _ _)
    inferInstance
  unfold defineNative IdealM.defineNative
  refine Sim.act_heap_of_grows (hm.delivers_string n.name) (fun v h' hv => ?_) fun _ => .bind fun _ => hrest
  refine (sim_push (hm.turn hv.1) hv.2).bind_of_grows ?_ fun _ => hrest
  rintro _ _ m₁ i₁ ⟨hm₁, rfl, -⟩
  have hcreate : Delivers False (roots m₁) m₁.heap (newNative n)
      (Creates (roots m₁) m₁.heap (.native n)) :=
    creates_allocate hm₁.pictures hm₁.rooted (by simp [Body.kind]) (by simp [Body.links])
      (by simp [Body.links]) (by simp [Body.links]) _
  refine Sim.act_heap (delivers_value hcreate fun _ _ hc => hc.alive) fun u h₂ hu => ?_
  obtain ⟨l, hc, hn⟩ := hu
  refine Sim.spec_bind rfl ?_
  have hm₂ := hm₁.create hc (.native n) (.native (by simp))
  refine (sim_push hm₂ (v := u) (x := .object i.objects.length) ⟨l, hn, by simp [World.put]⟩).bind ?_
  rintro _ _ m₃ i₃ ⟨hm₃, rfl, -⟩
  obtain ⟨v', ⟨k, hash, hn', hs⟩, hmem, hpeek⟩ := hm₃.peek (d := 1) (x := .string n.name) (by simp)
    (by simp)
  refine Sim.act_bind (hpeek m₃.heap) (Sim.act_view (hn'.asSymbol hs) ?_)
  refine (sim_peek hm₃ 0).bind ?_
  rintro u' y m₃ i₃ ⟨rfl, rfl, hy, humem, -⟩
  refine Sim.act_setGlobal hm₃ (s := ⟨k, n.name, hash⟩) ⟨hs, ?_, hy, hm₃.safe_value humem⟩
    fun h' globals h₁ _ => ?_
  · exact (hm₃.safe_value hmem).reach k hn'.leads
  · refine Sim.spec_bind rfl ?_
    refine follows_pop_bind h₁ fun _ _ _ _ hm₄ =>
        Sim.widen ?_ (World.extends_put (hm₁.unplaced hc) (.object i.objects.length))
    exact follows_drop hm₄

theorem follows_defineNatives (ns : List Native) (w : World) (m : Machine) (i : Ideal)
    (hm : Mirrors w m i) : Follows w m i (ns.forM defineNative) (ns.forM IdealM.defineNative) := by
  induction ns generalizing w m i with
  | nil => exact .pure ⟨rfl, w, .refl w, hm⟩
  | cons n ns ih =>
    unfold List.forM
    refine (follows_defineNative hm n).bind_of_grows ?_ fun _ => inferInstance
    rintro _ _ m₁ i₁ ⟨-, w', hw, hm₁⟩
    exact (ih w' m₁ i₁ hm₁).widen hw

namespace Heap

theorem pictures_nothing {h : Heap} (hs : h.Sound) (hl : h.Linked) (hc : h.closed = false) :
    Pictures (fun _ => none) [] [] h where
  sound := hs
  linked := hl
  depicts _ _ _ _ _ hw := by cases hw
  placed _ _ hw := by cases hw
  object_lt _ _ hw := by cases hw
  upvalue_lt _ _ hw := by cases hw
  object_inj _ _ _ hw := by cases hw
  upvalue_inj _ _ _ hw := by cases hw
  closed := hc

theorem pictures_new (options : GcOptions) : Pictures (fun _ => none) [] [] (Heap.new options) := by
  refine pictures_nothing (sound_new options) ?_ rfl
  rintro l ⟨o, ho, -⟩
  simp [Heap.new] at ho

end Heap

namespace Machine

theorem follows_prepare (options : GcOptions) (maxFrames : Nat) (clock : Clock) :
    Follows (fun _ => none) (blank options maxFrames .standard clock).registered { maxFrames, clock } (do
      let name ← MachineM.onHeap (intern "init")
      modify fun m => { m with initName := some name }
      EmbedM.builtins.forM MachineM.defineNative)
      (EmbedM.builtins.forM IdealM.defineNative) := by
  have hp : Pictures (fun _ => none) [] [] (blank options maxFrames .standard clock).registered.heap :=
    (Heap.pictures_new options).congr ⟨rfl, rfl, rfl, rfl, rfl, rfl, rfl⟩ rfl
  have horigins : (blank options maxFrames .standard clock).registered.heap.origins
      (roots (blank options maxFrames .standard clock).registered) = [] := rfl
  have hr : (blank options maxFrames .standard clock).registered.heap.Rooted
      (roots (blank options maxFrames .standard clock).registered) := by
    intro link hl
    rw [horigins] at hl
    cases hl
  have hmod (s : Symbol) : MachineM.Grows (modify fun m : Machine => { m with initName := some s } :
    MachineM Unit) := .modify fun _ => rfl
  refine Sim.act_heap_of_grows (turns_intern hp hr "init") (fun s h' hs => ?_) fun s => .bind fun _ => inferInstance
  refine Sim.act_bind rfl ?_
  refine follows_defineNatives _ (fun _ => none) _ _ ?_
  exact
    { pictures := hs.1.pictures hp hr
      canonical := hs.1.evolves.canonical fun l ⟨o, ho, _⟩ => by cases ho
      filled := ⟨Nat.zero_le _, Nat.zero_le _⟩
      stack := .nil
      frames := .nil
      opened := .nil
      globals := showsTable_empty
      initName := ⟨s, rfl, hs.2.1, hs.2.2⟩
      holds := hs.1.holds
      markers := hs.1.evolves.markers
      printed := rfl
      maxFrames := rfl
      clock := rfl
      closed := rfl
      compiler := rfl }

theorem mirrors_new {options : GcOptions} {n : Int} {clock : Clock} {m : Machine}
    (hnew : Machine.new options n .standard clock = .ok m) :
    m.heap.Exhausted ∨ ∃ w, Mirrors w m (Ideal.new (framesFor n) clock) := by
  rw [new_eq] at hnew
  split at hnew
  · cases hnew
  · have hsim := follows_prepare options (framesFor n) clock
    rw [EmbedM.prepare_eq] at hnew
    unfold Follows Sim at hsim
    rw [defineNatives_eq] at hsim
    unfold EmbedM.ofMachine at hnew
    generalize (do
      let name ← MachineM.onHeap (intern "init")
      modify fun m => { m with initName := some name }
      EmbedM.builtins.forM MachineM.defineNative : MachineM Unit)
        (blank options (framesFor n) .standard clock).registered = r at hnew hsim
    cases r with
    | ok a m' =>
      cases hnew
      exact hsim.imp_right fun ⟨_, w, _, hm⟩ => ⟨w, hm⟩
    | error e m' => cases e <;> cases hnew

end Machine

theorem values_reset {m : Machine} (h : m.sp = 0) : m.values = [] := by
  rw [Machine.values, h]
  exact List.eq_nil_of_length_eq_zero (Stack.length_slice (Nat.zero_le _))

namespace Mirrors

variable {w : World} {m : Machine} {i : Ideal} (hm : Mirrors w m i)

include hm

theorem reset (hs : i.stack = []) (hf : i.frames = []) (ho : i.openUpvalues = []) (stack : Stack) :
    Mirrors w { m with stack, sp := 0, calls := .none, openUpvalues := [] } i :=
  { hm with
    filled := ⟨Nat.zero_le _, Nat.zero_le _⟩
    stack := by
      rw [hs, values_reset rfl]
      exact .nil
    frames := by rw [hf]; exact .nil
    opened := by rw [ho]; exact .nil }

theorem rooted_push {v : Value} {stack : Stack} (hv : m.heap.Valid (.value v))
    (hvalues : ({ m with stack, sp := m.sp + 1 } : Machine).values = m.values ++ [v]) :
    m.heap.Rooted (roots { m with stack, sp := m.sp + 1 }) ∧
      (∀ link ∈ m.heap.origins (roots m), link ∈ m.heap.origins (roots { m with stack, sp := m.sp + 1 })) ∧
      .value v ∈ m.heap.origins (roots { m with stack, sp := m.sp + 1 }) := by
  have horigins : m.heap.origins (roots { m with stack, sp := m.sp + 1 }) =
      (m.values ++ [v]).map .value ++ (m.calls.frames.reverse.map fun f => .object f.closure)
        ++ (m.openUpvalues.map fun u => .object u.2) ++ m.globals.links
        ++ (m.initName.toList.map fun s => .object s.loc) := by
    rw [Heap.origins, hm.holds, Heap.registered, hm.markers, ← hvalues]
    exact List.append_nil _
  have hsub : ∀ link, link ∈ m.heap.origins (roots { m with stack, sp := m.sp + 1 }) ↔
      link = .value v ∨ link ∈ m.heap.origins (roots m) := by
    intro link
    rw [horigins, hm.origins, Machine.links]
    simp only [List.map_append, List.mem_append, List.map_cons, List.map_nil, List.mem_singleton]
    show _ ↔ _ ∨ (((link ∈ List.map Link.value m.values ∨ _) ∨ _) ∨ _) ∨ _
    tauto
  refine ⟨fun link hl => ?_, fun link hl => (hsub link).mpr (.inr hl), (hsub _).mpr (.inl rfl)⟩
  rcases (hsub link).mp hl with rfl | hl
  · exact ⟨hv, trivial⟩
  · exact hm.rooted link hl

end Mirrors

theorem HeapM.Creates.mono {r r' : Roots} {h h' : Heap} {body : Body} {l : Loc}
    (hc : Creates r h body l h') (hsub : ∀ link ∈ h.origins r', link ∈ h.origins r) :
    Creates r' h body l h' :=
  ⟨⟨hc.turns.evolves.mono hsub, hc.turns.holds, hc.turns.sound⟩, hc.fresh, hc.object⟩

theorem sim_closureOf {w : World} {m : Machine} {i : Ideal} (hm : Mirrors w m i) {k : Loc}
    {p : Prototype} (hk : w k = some (.function p)) (ha : m.heap.Alive k)
    (hmax : p.captures ≤ HeapM.maxCaptures) :
    Sim m i (EmbedM.closureOf k) (IdealM.create (.closure ⟨p, List.replicate p.captures none⟩))
      fun l a m' i' => ∃ w', w.Extends w' ∧ Mirrors w' m' i' ∧ w' l = some (.object a) ∧ m'.heap.Alive l := by
  have hgrow (k : Loc) : MachineM.Grows (onHeap (newClosure k)) := .onHeap (keeps_newClosure k).grows
  have hc := hm.pictures.sound.consistent
  obtain ⟨o, hobj, hfreed⟩ := id ha
  have hname : m.heap.Names (.object o.ref) k := names_ref hc hobj hfreed
  refine Sim.act_view (a := .object o.ref)
    (by unfold valueOf; rw [view_bind, object_eq_ok.mpr hobj]; rfl) ?_
  obtain ⟨stack, hpush, hstack⟩ := push_eq (.object o.ref) m
  obtain ⟨hfilled, hvalues⟩ := hstack hm.filled
  refine Sim.act_bind hpush ?_
  obtain ⟨hrooted, hsub, hmem⟩ := hm.rooted_push
    (.value hname.isObject hname.find? (hname.alive hc)) hvalues
  have hsafe : m.heap.Safe (roots { m with stack, sp := m.sp + 1 }) (.object k) := by
    refine ⟨.object ha, fun j hj => ?_⟩
    cases hj
    exact (hrooted.safe hmem).reach k hname.leads
  refine Sim.act_heap (creates_newClosure hm.pictures hrooted hk hsafe hmax) fun l h' hcr => ?_
  -- the function leaves the stack again
  obtain ⟨hpop, hfilled', hvalues'⟩ := pop_of_values
    (m := { m with heap := h', stack, sp := m.sp + 1 }) ⟨hfilled.written, hfilled.room⟩ hvalues
  refine Sim.act_bind hpop ?_
  have hm₁ : Mirrors w { m with stack, sp := m.sp + 1 - 1 } i :=
    { hm with
      filled := ⟨hfilled'.written, hfilled'.room⟩
      stack := by
        rw [show ({ m with stack, sp := m.sp + 1 - 1 } : Machine).values = m.values from hvalues']
        exact hm.stack }
  have hroots : ∀ link ∈ m.heap.origins (roots { m with stack, sp := m.sp + 1 - 1 }),
      link ∈ m.heap.origins (roots { m with stack, sp := m.sp + 1 }) := by
    intro link hl
    refine hsub link ?_
    rw [hm.origins, Machine.links]
    rw [hm₁.origins, Machine.links] at hl
    rw [show stack.slice 0 (m.sp + 1 - 1) = m.stack.slice 0 m.sp from hvalues'] at hl
    exact hl
  have hcr' := hcr.mono hroots
  exact .inr ⟨_, World.extends_put (hm₁.unplaced hcr') _, hm₁.createClosure hk hcr', by simp [World.put], hcr.alive.2⟩

theorem follows_launch {w : World} {m : Machine} {i : Ideal} (hm : Mirrors w m i) {k : Loc}
    {p : Prototype} (hk : w k = some (.function p)) (ha : m.heap.Alive k) (hs : i.stack = [])
    (hf : i.frames = []) (ho : i.openUpvalues = []) :
    Follows w m i (EmbedM.launch k) (IdealM.enter p) := by
  unfold EmbedM.launch IdealM.enter
  dsimp only
  by_cases hmax : HeapM.maxCaptures < p.captures
  · rw [if_pos hmax]
    trivial
  · rw [if_neg hmax]
    refine Sim.act_bind rfl ?_
    have hm₀ := hm.reset hs hf ho m.stack
    refine (sim_closureOf hm₀ hk ha (Int.not_lt.mp hmax)).bind ?_
    rintro l a m₁ i₁ ⟨w', hw, hm₁, hl, o, hobj, hfreed⟩
    refine Sim.act_view (a := .object o.ref)
      (by unfold valueOf; rw [view_bind, object_eq_ok.mpr hobj]; rfl) ?_
    refine (sim_push hm₁ (v := .object o.ref) (x := .object a) ?_).bind ?_
    · exact ⟨l, names_ref hm₁.pictures.sound.consistent hobj hfreed, hl⟩
    · rintro _ _ m₂ i₂ ⟨hm₂, -, stack, rfl⟩
      exact (follows_call hm₂ ⟨o, hobj, hfreed⟩ hl 0).widen hw

namespace Ideal

def verdict : EStateM.Result Stop Ideal Progress → Option (Progress × List Bytes)
  | .ok p i => some (p, i.printed)
  | .error (.error e) i => some (.failed (.runtime e), (e.text ++ ("\n" : Bytes)) :: i.printed)
  | .error (.fault _) _ => none

def interpret (maxFrames fuel : Nat) (clock : Clock) (p : Prototype) : Option (Progress × List Bytes) :=
  verdict ((do
    IdealM.enter p
    return if ← IdealM.run fuel then .running else .done : IdealM Progress) (Ideal.new maxFrames clock))

end Ideal

theorem Sim.attempt {w : World} {m : Machine} {i : Ideal} {act : MachineM Progress} {spec : IdealM Progress}
    (h : Follows w m i act spec) {answer : Progress × List Bytes}
    (hv : Ideal.verdict (spec i) = some answer) :
    (finalState (EmbedM.attempt act m)).heap.Exhausted ∨
      ∃ m', EmbedM.attempt act m = .ok answer.1 m' ∧ m'.printed = answer.2 ∧ m'.Proper := by
  unfold Follows Sim at h
  unfold EmbedM.attempt
  cases hs : spec i with
  | ok b i' =>
    rw [hs] at h hv
    cases hv
    cases ha : act m with
    | ok a m' =>
      rw [ha] at h
      refine h.imp_right ?_
      rintro ⟨rfl, w, -, hm⟩
      exact ⟨m', rfl, hm.printed, hm.proper⟩
    | error e m' =>
      rw [ha] at h
      cases e <;> exact .inl h
  | error s i' =>
    cases s with
    | fault f =>
      rw [hs] at hv
      cases hv
    | error e =>
      rw [hs] at h hv
      cases hv
      cases ha : act m with
      | ok a m' =>
        rw [ha] at h
        exact .inl h
      | error s m' =>
        rw [ha] at h
        rcases h with h | ⟨rfl, w', hm⟩
        · cases s <;> exact .inl h
        · refine .inr ⟨_, rfl, ?_, hm.proper.shrink rfl rfl fun v hv => ?_⟩
          · simp only [hm.printed]
          · rw [values_reset rfl] at hv
            cases hv

namespace Ideal

def complaint (ds : List Diagnostic) : List Bytes :=
  ((ds.map Diagnostic.text).map (· ++ ("\n" : Bytes))).reverse

def answer (maxFrames fuel : Nat) (clock : Clock) (p : Prototype) : List Diagnostic → Option (Progress × List Bytes)
  | [] => interpret maxFrames fuel clock p
  | ds => some (.failed (.compile ds), complaint ds)

end Ideal

theorem interpret_new {options : GcOptions} {n : Int} {clock : Clock} {m : Machine} {source : Bytes} {p : Prototype}
    (hnew : Machine.new options n .standard clock = .ok m)
    (hd : Order.draftAll {} (analyze source).1 = some ⟨[], some p⟩) (fuel : Nat)
    {answer : Progress × List Bytes}
    (ha : Ideal.answer (Machine.framesFor n) fuel clock p (analyze source).2 = some answer) :
    (finalState (EmbedM.interpret fuel source m)).heap.Exhausted ∨
      ∃ m', EmbedM.interpret fuel source m = .ok answer.1 m' ∧ m'.printed = answer.2 ∧ m'.Proper := by
  rcases Machine.mirrors_new hnew with he | ⟨w, hm⟩
  · exact .inl (EmbedM.exhausted_interpret he fuel source)
  · rw [EmbedM.interpret_eq hm.closed hm.compiler]
    have hcompile := delivers_compile hm.pictures hm.rooted hd
    unfold Delivers at hcompile
    cases hc : compile source (roots m) m.heap with
    | error f heap =>
      rw [hc] at hcompile
      exact .inl (hcompile.resolve_right id)
    | ok result heap =>
      rw [hc] at hcompile
      cases result with
      | error ds =>
        refine hcompile.imp_right ?_
        rintro ⟨w', hw, hp, -, hcar, hne, rfl⟩
        dsimp only
        generalize (analyze source).2 = ds at ha hne
        cases ds with
        | nil => exact absurd rfl hne
        | cons d ds =>
          cases ha
          refine ⟨_, rfl, ?_, (hm.reheap hw hcar hp).proper.shrink rfl rfl fun _ hv => hv⟩
          rw [hm.printed]
          exact List.append_nil _
      | ok script =>
        rcases hcompile with he | ⟨w', hw, hp, -, hcar, hnil, halive, hscript⟩
        · exact .inl (EmbedM.exhausted_attempt he)
        · rw [hnil] at ha
          have hm' : Mirrors w' { m with heap } (Ideal.new (Machine.framesFor n) clock) := hm.reheap hw hcar hp
          refine Sim.attempt (w := w') ?_ ha
          refine (follows_launch hm' hscript halive rfl rfl rfl).bind ?_
          rintro _ _ m₁ i₁ ⟨-, w₁, hw₁, hm₁⟩
          refine (follows_run fuel w₁ m₁ i₁ hm₁).bind ?_
          rintro b _ m₂ i₂ ⟨rfl, w₂, hw₂, hm₂⟩
          exact .pure ⟨rfl, w₂, hw₁.trans hw₂, hm₂⟩

end Lox

import Lox.Proofs.Machine.Rest
import Lox.Proofs.Safety.Tables

/-!
Calls of properties. An instruction that looks a property up and calls it does the same as one that puts the property in
the place of the instance and then one that calls it, but for the method that the latter binds for a while.
-/

namespace Lox

open Heap HeapView MachineM

namespace Heap

variable {h h' : Heap} {links links' : List Link} {r : Roots} {k l : Loc} {u v : Value}

/-- What can be reached is the same in another heap, under the same names. -/
structure Spares (h : Heap) (links : List Link) (h' : Heap) : Prop where
  objects : ∀ l, h.Reach links l → h.Alive l → h'.objects[l]? = h.objects[l]?
  names : ∀ v l, h.Reach links l → locOfValue v h = .ok l → locOfValue v h' = .ok l

theorem Spares.refl (h : Heap) (links : List Link) : h.Spares links h :=
  ⟨fun _ _ _ => rfl, fun _ _ _ => id⟩

theorem Spares.mono (hs : h.Spares links' h') (hsub : ∀ l, h.Reach links l → h.Reach links' l) : h.Spares links h' :=
  ⟨fun l hl => hs.objects l (hsub l hl), fun v l hl => hs.names v l (hsub l hl)⟩

theorem object_of_locOfValue (hc : h.Consistent) (hl : locOfValue v h = .ok l) : v.isObject = true ∧
    ∃ o, h.objects[l]? = some o ∧ o.freed = false ∧ o.ref = v.handle := by
  cases (leads_of_locOfValue hc hl).1 with
  | value hv hf => exact ⟨hv, hc.ref_of_find? hf⟩

theorem locOfValue_of_object (hc : h.Consistent) (hv : v.isObject = true) {o : Object} (ho : h.objects[l]? = some o)
    (hf : o.freed = false) (hr : o.ref = v.handle) : locOfValue v h = .ok l := by
  rw [locOfValue_eq, if_pos hv, show v.bits.toUInt32 = o.ref from hr.symm, hc.find?_ref ho hf]

theorem ofKind_of_locOfValue (hc : h.Consistent) (hl : locOfValue v h = .ok l) {o : Object}
    (ho : h.objects[l]? = some o)
    (k : Kind) : ofKind v k h = .ok (o.kind == k) := by
  unfold HeapView.ofKind
  rw [if_pos (object_of_locOfValue hc hl).1, view_bind, hl]
  dsimp only
  rw [view_bind, object_eq_ok.mpr ho]
  rfl

theorem spares_allocates (hc : h.Consistent) {body : Body} {size : Nat} (ha : HeapM.Allocates r h body size l h') :
    h.Spares (h.origins r) h' := by
  obtain ⟨h₁, hch, rfl, rfl, hroom⟩ := ha
  have hobjects (l : Loc) (hl : h.Reach (h.origins r) l) (halive : h.Alive l) :
      (h₁.link body size).2.objects[l]? = h.objects[l]? := by
    have hlt := halive.lt
    rw [← hch.size] at hlt
    rw [objects_link, Array.getElem?_push, if_neg (Nat.ne_of_lt hlt), hch.kept l hl]
  refine ⟨hobjects, fun v l hl hv => ?_⟩
  obtain ⟨hobject, o, ho, hf, hr⟩ := object_of_locOfValue hc hv
  exact locOfValue_of_object (hch.consistent.link body size hroom) hobject ((hobjects l hl ⟨o, ho, hf⟩).trans ho) hf hr

theorem Reach.of_roots (hsub : ∀ link ∈ links', ∀ l, h.Leads link l → h.Reach links l) (hl : h.Reach links' l) :
    h.Reach links l := by
  induction hl with
  | root hm hl => exact hsub _ hm _ hl
  | link _ hm hl ih => exact .link ih hm hl

theorem Intact.holding (hi : h.Intact links) (hsub : ∀ link ∈ h.origins r, link ∈ links) (hl : h.Reach links l)
    (hm : .value v ∈ h.linksAt l) : (h.holding v).Intact ((h.holding v).origins r) := by
  have hreach (j : Loc) (hj : h.Reach ((h.holding v).origins r) j) : h.Reach links j := by
    refine hj.of_roots fun link hlink k hk => ?_
    rcases origins_hold.mp hlink with rfl | hlink
    · exact .link hl hm hk
    · exact .root (hsub link hlink) hk
  have hheld : h.Intact ((h.holding v).origins r) := by
    refine ⟨fun link hlink => ?_, fun j hj link hlink => hi.linked j (hreach j hj) link hlink⟩
    rcases origins_hold.mp hlink with rfl | hlink
    · exact hi.linked l hl _ hm
    · exact hi.origin link (hsub link hlink)
  refine Intact.congr ?_ ?_ hheld <;> rfl

theorem Reach.of_holding (hc : h.Consistent) (hk : locOfValue v h = .ok k) (hl : h.Reach (.object k :: h.origins r) l) :
    (h.holding v).Reach ((h.holding v).origins r) l := by
  have hheld : h.Reach ((h.holding v).origins r) l := by
    refine hl.of_roots fun link hlink j hj => ?_
    rcases List.mem_cons.mp hlink with rfl | hlink
    · cases hj
      exact .root (origins_hold.mpr (.inl rfl)) (leads_of_locOfValue hc hk).1
    · exact .root (origins_hold.mpr (.inr hlink)) hj
  refine Reach.congr ?_ ?_ hheld <;> rfl

theorem closureAt_congr (ho : h'.objects[l]? = h.objects[l]?) : closureAt l h' = closureAt l h := by
  rw [closureAt, view_bind, view_bind, object_eq, object_eq, ho]
  cases h.objects[l]? with
  | none => rfl
  | some o =>
    dsimp only
    cases o.body <;> rfl

theorem functionAt_congr (ho : h'.objects[l]? = h.objects[l]?) : functionAt l h' = functionAt l h := by
  rw [functionAt, view_bind, view_bind, object_eq, object_eq, ho]
  cases h.objects[l]? with
  | none => rfl
  | some o =>
    dsimp only
    cases o.body <;> rfl

theorem Spares.of_holding (hc : h.Consistent) (hk : locOfValue v h = .ok k)
    (hs : (h.holding v).Spares ((h.holding v).origins r) h') (holds : List Value) :
    h.Spares (.object k :: h.origins r) { h' with holds } where
  objects l hl ha := hs.objects l (hl.of_holding hc hk) (ha.congr rfl)
  names u l hl hu := locOfValue_setHolds.trans (hs.names u l (hl.of_holding hc hk) (locOfValue_setHolds.trans hu))

end Heap

/-- A link that can be reached from the machine names a freed object. -/
def Machine.Dangles (m : Machine) : Prop :=
  ¬ m.heap.Intact (m.heap.origins (roots m))

def Machine.Follows (m : Machine) (links : List Link) : Prop :=
  ∀ f ∈ m.calls.frames, m.heap.Reach links f.closure ∧ ∃ p, m.heap.Calls f.closure p

structure Machine.Bound (m : Machine) (k : Loc) (u b : Value) (heap : Heap) : Prop where
  spares : m.heap.Spares (.object k :: m.heap.origins (roots m)) heap
  method : ∃ l o, locOfValue b heap = .ok l ∧ heap.objects[l]? = some o ∧ o.body = .boundMethod ⟨u, k⟩

namespace MachineM

def property (receiver : Value) (name : Symbol) : MachineM Value := do
  let i ← instanceAt (← locOfValue receiver)
  match i.fields.get? name with
  | some v => return v
  | none => boundMethod i.class_ receiver name

def callInPlace (count : Nat) (callee : Value) : MachineM Unit := do
  writeSlot (← calleeSlot count) callee
  callValue (← peek count) count

def callProperty (name : Symbol) (count : Nat) : MachineM Unit := do
  callInPlace count (← property (← peek count) name)

def callSuper (name : Symbol) (count : Nat) : MachineM Unit := do
  let class_ ← popClass
  callInPlace count (← boundMethod class_ (← peek count) name)

def withHeap {α : Type} (heap : Heap) : EStateM.Result Stop Machine α → EStateM.Result Stop Machine α
  | .ok a m => .ok a { m with heap }
  | .error s m => .error s { m with heap }

/-- The second operation comes to the same as the first one, in a heap in which all that can be reached is the same. It
may also run out of handles, or be stopped by a fault when something is wrong with the heap. -/
def Fuses (bad : Prop) (m : Machine) (act act' : MachineM Unit) : Prop :=
  (finalState (act' m)).heap.Exhausted ∨ (bad ∧ ∃ f m', act' m = .error (.fault f) m') ∨
    ∃ heap, act' m = withHeap heap (act m) ∧
      (finalState (act m)).heap.Spares ((finalState (act m)).heap.origins (roots (finalState (act m)))) heap

section

variable {α : Type} {m : Machine} {heap : Heap} {links : List Link} {k l : Loc} {s : Symbol} {u v : Value} {count : Nat}
  {bad : Prop} {p : Prototype}

theorem rests_ok {act : MachineM α} {a : α} {m' : Machine} (hact : finalState (act m) = m) (h : act m = .ok a m') :
    m' = m := by
  rwa [h] at hact

theorem rests_bind {β : Type} {act : MachineM α} {f : α → MachineM β} (hact : finalState (act m) = m)
    (hf : ∀ a, finalState (f a m) = m) : finalState ((act >>= f) m) = m := by
  rw [runBind]
  cases h : act m with
  | error e m' =>
    rw [h] at hact
    exact hact
  | ok a m' =>
    rw [h] at hact
    obtain rfl : m' = m := hact
    exact hf a

theorem rests_functionOf : finalState (functionOf l m) = m := by
  unfold functionOf
  rw [run_view]
  split <;> rfl

theorem rests_traceLine {f : Frame} : finalState (traceLine f m) = m := by
  refine rests_bind rests_functionOf fun fn => ?_
  cases fn.chunk.lines.get? (f.ip - 1) <;> rfl

theorem rests_raise {p : RuntimeProblem} : finalState ((raise p : MachineM α) m) = m := by
  have hmap (fs : List Frame) : finalState (fs.mapM traceLine m) = m := by
    induction fs with
    | nil => rfl
    | cons f fs ih =>
      rw [List.mapM_cons]
      exact rests_bind rests_traceLine fun t => rests_bind ih fun ts => rfl
  exact rests_bind rfl fun m' => rests_bind (hmap m'.calls.frames) fun _ => rfl

theorem call_eq {fn : Function} (hfn : functionOf l m = .ok fn m) : call l count m = (
    if (count : Int) ≠ fn.arity then raise (.arity fn.arity count)
    else if m.calls.depth = m.maxFrames ∨
        ((m.maxFrames * slotsPerFrame : Nat) : Int) < (m.sp : Int) - count - 1 + slotsPerFrame then
      raise .stackOverflow
    else modify fun m => { m with calls := m.calls.push ⟨l, 0, (m.sp : Int) - count - 1⟩ } : MachineM Unit) m := by
  have hslot (m : Machine) : calleeSlot count m = .ok ((m.sp : Int) - count - 1) m := rfl
  unfold call
  rw [runBind, hfn]
  dsimp only
  by_cases hcount : (count : Int) ≠ fn.arity
  · simp only [if_pos hcount, raise_bind]
  · simp only [if_neg hcount]
    rw [runBind]
    dsimp only [runGet]
    rw [runBind, hslot]
    dsimp only
    by_cases hfull : m.calls.depth = m.maxFrames ∨
        ((m.maxFrames * slotsPerFrame : Nat) : Int) < (m.sp : Int) - count - 1 + slotsPerFrame
    · simp only [if_pos hfull, raise_bind]
    · simp only [if_neg hfull]
      rfl

theorem finalState_call : finalState (call k count m) = m ∨
    ∃ f, f.closure = k ∧ finalState (call k count m) = { m with calls := m.calls.push f } := by
  have hrests := rests_functionOf (l := k) (m := m)
  cases hfn : functionOf k m with
  | error e m' =>
    rw [hfn] at hrests
    refine .inl ?_
    unfold call
    rw [runBind, hfn]
    exact hrests
  | ok fn m' =>
    obtain rfl := rests_ok hrests hfn
    rw [call_eq hfn]
    split
    · exact .inl rests_raise
    · split
      · exact .inl rests_raise
      · exact .inr ⟨_, rfl, rfl⟩

theorem functionOf_withHeap (hs : m.heap.Spares links heap) (hl : m.heap.Reach links l) (hc : m.heap.Calls l p) :
    functionOf l { m with heap } = withHeap heap (functionOf l m) := by
  have hclosure : closureAt l heap = closureAt l m.heap := closureAt_congr (hs.objects l hl hc.alive)
  obtain ⟨o, c, ho, hf, hbody, hbears⟩ := hc
  have hat : closureAt l m.heap = .ok c := closureAt_eq_ok.mpr ⟨o, ho, hbody⟩
  -- the closure keeps its function alive
  have hlink : .object c.function ∈ m.heap.linksAt l := by
    rw [linksAt, ho]
    dsimp only
    rw [hbody]
    exact .head _
  have hfunction : functionAt c.function heap = functionAt c.function m.heap :=
    functionAt_congr (hs.objects _ (.link hl hlink (.object _)) hbears.alive)
  unfold functionOf
  rw [run_view, run_view, view_bind, view_bind]
  dsimp only
  rw [hclosure, hat]
  dsimp only
  rw [hfunction]
  cases functionAt c.function m.heap <;> rfl

theorem bind_withHeap {β : Type} {act : MachineM α} {f g : α → MachineM β}
    (hact : act { m with heap } = withHeap heap (act m))
    (hf : ∀ a m', act m = .ok a m' → f a { m' with heap } = withHeap heap (g a m')) :
    (act >>= f) { m with heap } = withHeap heap ((act >>= g) m) := by
  rw [runBind, runBind, hact]
  cases h : act m with
  | error e m' => rfl
  | ok a m' => exact hf a m' h

theorem traceLine_withHeap (hs : m.heap.Spares links heap) {f : Frame} (hf : m.heap.Reach links f.closure)
    (hc : m.heap.Calls f.closure p) : traceLine f { m with heap } = withHeap heap (traceLine f m) := by
  refine bind_withHeap (functionOf_withHeap hs hf hc) fun fn m' _ => ?_
  cases fn.chunk.lines.get? (f.ip - 1) <;> rfl

theorem mapM_traceLine_withHeap (hs : m.heap.Spares links heap) {fs : List Frame}
    (hf : ∀ f ∈ fs, m.heap.Reach links f.closure ∧ ∃ p, m.heap.Calls f.closure p) :
    fs.mapM traceLine { m with heap } = withHeap heap (fs.mapM traceLine m) := by
  induction fs with
  | nil => rfl
  | cons f fs ih =>
    rw [List.mapM_cons]
    obtain ⟨hreach, p, hcalls⟩ := hf f (.head _)
    refine bind_withHeap (traceLine_withHeap hs hreach hcalls) fun t m' ht => ?_
    obtain rfl := rests_ok rests_traceLine ht
    exact bind_withHeap (ih fun g hg => hf g (.tail _ hg)) fun _ _ _ => rfl

theorem raise_withHeap (hs : m.heap.Spares links heap) (hf : m.Follows links) (p : RuntimeProblem) :
    (raise p : MachineM α) { m with heap } = withHeap heap ((raise p : MachineM α) m) := by
  have hmap := mapM_traceLine_withHeap hs hf
  show (do throw (.error ⟨p.message, ← m.calls.frames.mapM traceLine⟩) : MachineM α) _ = withHeap heap
    ((do throw (.error ⟨p.message, ← m.calls.frames.mapM traceLine⟩) : MachineM α) m)
  exact bind_withHeap hmap fun _ _ _ => rfl

theorem call_withHeap (hs : m.heap.Spares links heap) (hf : m.Follows links) (hl : m.heap.Reach links l)
    (hc : m.heap.Calls l p) : call l count { m with heap } = withHeap heap (call l count m) := by
  have hsame := functionOf_withHeap hs hl hc
  have hrests := rests_functionOf (l := l) (m := m)
  cases hfn : functionOf l m with
  | error e m' =>
    unfold call
    rw [runBind, runBind, hsame, hfn]
    rfl
  | ok fn m' =>
    obtain rfl := rests_ok hrests hfn
    rw [hfn] at hsame
    rw [call_eq hfn, call_eq (m := { m' with heap }) hsame]
    dsimp only
    split
    · exact raise_withHeap hs hf _
    · split
      · exact raise_withHeap hs hf _
      · rfl

theorem set_set {stack : Stack} {n : Nat} (hn : n < stack.written.size) (hroom : n < stack.size)
    (hu : stack.written.getD n .zero = u) : (stack.set n v).set n u = stack := by
  obtain ⟨size, written⟩ := stack
  dsimp only at hn hroom hu
  simp only [Stack.set, if_pos hn, Array.size_setIfInBounds]
  congr 1
  · omega
  · refine Array.ext_getElem? fun j => ?_
    rw [Array.getElem?_setIfInBounds, Array.getElem?_setIfInBounds]
    by_cases hj : n = j
    · subst hj
      simp [hn, ← hu]
    · simp [hj]

theorem writeSlot_eq {n : Nat} (hn : n < m.stack.size) (v : Value) :
    writeSlot n v m = .ok () { m with stack := m.stack.set n v } := by
  unfold writeSlot
  rw [runBind]
  have hbad : ¬((n : Int) < 0 ∨ m.stack.size ≤ (n : Int).toNat) := by
    simp only [Int.toNat_natCast]
    omega
  simp only [runGet, if_neg hbad]
  rfl

theorem callInPlace_eq (hf : m.Filled) (hlt : count < m.sp) (v : Value) : callInPlace count v m = (do
    writeSlot (← calleeSlot count) v
    callValue v count : MachineM Unit) m := by
  have hslot (m : Machine) : calleeSlot count m = .ok ((m.sp : Int) - count - 1) m := rfl
  have hat : ((m.sp : Int) - count - 1) = ((m.sp - 1 - count : Nat) : Int) := by omega
  obtain ⟨stack, hwrite, hfilled, hvalues⟩ := writeSlot_of_lt (n := m.sp - 1 - count) hf (by omega) v
  have hpeek : peek count { m with stack } = .ok v { m with stack } := by
    refine peek_of_values hfilled hlt ?_
    rw [hvalues, List.getElem?_set_self]
    rw [hf.length]
    omega
  unfold callInPlace
  rw [runBind, runBind, hslot]
  dsimp only
  rw [hat, runBind, runBind, hwrite]
  dsimp only
  rw [runBind, hpeek]

theorem callInPlace_bound {o : Object} (hf : m.Filled) (hu : m.values.reverse[count]? = some u)
    (hl : locOfValue v m.heap = .ok l) (ho : m.heap.objects[l]? = some o) (hb : o.body = .boundMethod ⟨u, k⟩) :
    callInPlace count v m = call k count m := by
  have hlength := hf.length
  have hlt : count < m.sp := by
    rw [← hlength, ← List.length_reverse]
    exact (List.getElem?_eq_some_iff.mp hu).1
  have hroom := hf.room
  have hwritten := hf.written
  have hslot (m : Machine) : calleeSlot count m = .ok ((m.sp : Int) - count - 1) m := rfl
  have hat : ((m.sp : Int) - count - 1) = ((m.sp - 1 - count : Nat) : Int) := by omega
  have hbound : callValue v count { m with stack := m.stack.set (m.sp - 1 - count) v } = (do
      writeSlot (← calleeSlot count) u
      call k count : MachineM Unit) { m with stack := m.stack.set (m.sp - 1 - count) v } := by
    rw [callValue_object (m := { m with stack := m.stack.set (m.sp - 1 - count) v }) hl ho, hb]
  have hroom' : m.sp - 1 - count < (m.stack.set (m.sp - 1 - count) v).size :=
    Nat.lt_of_lt_of_le (by omega) (Nat.le_max_right ..)
  -- the receiver comes back to its place
  have hvalue : m.stack.written.getD (m.sp - 1 - count) .zero = u :=
    Option.some.inj ((Stack.getD_written hwritten (by omega)).symm.trans (value_under hf hu))
  rw [callInPlace_eq hf hlt, runBind, hslot]
  dsimp only
  rw [hat, runBind, writeSlot_eq (by omega)]
  dsimp only
  rw [hbound, runBind, hslot]
  dsimp only
  rw [hat, runBind, writeSlot_eq hroom']
  dsimp only
  rw [set_set (by omega) (by omega) hvalue]

theorem invoke_eq {j : Instance} (hc : m.heap.Consistent) (hpeek : peek count m = .ok u m)
    (hl : locOfValue u m.heap = .ok l) (hj : instanceAt l m.heap = .ok j) : invoke s count
    m = (match j.fields.get? s with
      | some v => do
        writeSlot (← calleeSlot count) v
        callValue v count
      | none => invokeFromClass j.class_ s count : MachineM Unit) m := by
  obtain ⟨o, ho, hbody⟩ := instanceAt_eq_ok.mp hj
  have hkind : HeapView.ofKind u .instance_ m.heap = .ok true := by
    rw [ofKind_of_locOfValue hc hl ho, Object.kind, hbody]
    rfl
  unfold invoke
  rw [runBind, hpeek]
  dsimp only
  rw [runBind, run_view, hkind]
  dsimp only
  rw [if_pos rfl, runBind, run_view, hl]
  exact bind_of_ok (by rw [run_view, hj])

theorem property_eq {j : Instance} (hl : locOfValue u m.heap = .ok l) (hj : instanceAt l m.heap = .ok j) :
    property u s m = (match j.fields.get? s with
      | some v => pure v
      | none => boundMethod j.class_ u s : MachineM Value) m := by
  unfold property
  rw [runBind, run_view, hl]
  exact bind_of_ok (by rw [run_view, hj])

theorem peek_under (hf : m.Filled) (hu : m.values.reverse[count]? = some u) (heap : Heap) (calls : Calls) :
    peek count { m with heap, calls } = .ok u { m with heap, calls } := by
  have hlt : count < m.sp := by
    rw [← hf.length, ← List.length_reverse]
    exact (List.getElem?_eq_some_iff.mp hu).1
  have hat := value_under hf hu
  exact peek_of_values (m := { m with heap, calls }) ⟨hf.written, hf.room⟩ hlt hat

variable {f : Frame} {rest : List Frame} {fn : Function}

theorem getProperty_eq (hc : m.heap.Consistent) (hex : Executes m f rest fn) (hf : m.Filled)
    (hu : m.values.reverse[0]? = some u) (hl : locOfValue u m.heap = .ok l) {j : Instance}
    (hj : instanceAt l m.heap = .ok j) : getProperty m = (do
      let s ← readName
      let v ← property u s
      let _ ← pop
      push v : MachineM Unit) m := by
  obtain ⟨o, ho, hbody⟩ := instanceAt_eq_ok.mp hj
  have hkind : HeapView.ofKind u .instance_ m.heap = .ok true := by
    rw [ofKind_of_locOfValue hc hl ho, Object.kind, hbody]
    rfl
  have hreceiver : instanceOr .propertyOfOther u m = .ok l m := by
    unfold instanceOr
    rw [runBind, run_view, hkind]
    dsimp only
    rw [if_pos rfl, run_view, hl]
  unfold getProperty
  rw [runBind, show peek 0 m = .ok u m from peek_under hf hu m.heap m.calls]
  dsimp only
  rw [runBind, hreceiver]
  dsimp only
  rw [runBind, runBind]
  cases hread : readName m with
  | error e m' => rfl
  | ok s m' =>
    obtain ⟨-, -, rfl⟩ := readName_eq_ok hex hread
    dsimp only
    rw [runBind, runBind, run_view, property_eq (m := { m with calls := m.calls.jumpTo (f.ip + 1) }) hl hj]
    dsimp only
    rw [hj]
    dsimp only
    cases j.fields.get? s with
    | some v => rfl
    | none =>
      dsimp only
      rw [bindMethod_eq (m := { m with calls := m.calls.jumpTo (f.ip + 1) }) fun heap => peek_under hf hu heap _,
          runBind]

theorem getSuper_eq (hex : Executes m f rest fn) (hf : m.Filled) (hu : m.values.reverse[1]? = some u) :
    getSuper m = (do
      let s ← readName
      let class_ ← popClass
      let v ← boundMethod class_ u s
      let _ ← pop
      push v : MachineM Unit) m := by
  unfold getSuper
  rw [runBind, runBind]
  cases hread : readName m with
  | error e m' => rfl
  | ok s m' =>
    obtain ⟨-, -, rfl⟩ := readName_eq_ok hex hread
    dsimp only
    rw [runBind, runBind]
    have hf' : ({ m with calls := m.calls.jumpTo (f.ip + 1) } : Machine).Filled := ⟨hf.written, hf.room⟩
    cases hpop : popClass { m with calls := m.calls.jumpTo (f.ip + 1) } with
    | error e m' => rfl
    | ok k m' =>
      obtain ⟨vs, v, hvs, -, rfl⟩ := popClass_eq_ok hf' hpop
      obtain ⟨-, hfilled, hvalues⟩ := pop_of_values hf' hvs
      dsimp only
      refine bindMethod_eq (fun heap => peek_under hfilled ?_ heap _) k s
      rw [hvalues]
      rw [show m.values = vs ++ [v] from hvs, List.reverse_append, List.reverse_singleton, List.singleton_append] at hu
      exact hu

theorem Fuses.of_eq {act act' : MachineM Unit} (h : act' m = act m) : Fuses bad m act act' := by
  refine .inr (.inr ⟨(finalState (act m)).heap, ?_, .refl _ _⟩)
  rw [h]
  cases act m <;> rfl

theorem findMethod_eq {c : Class} (hc : classAt l m.heap = .ok c) : findMethod l s m = (match c.methods.get? s with
    | some v => pure v
    | none => raise (.undefinedProperty s.chars) : MachineM Value) m := by
  unfold findMethod
  exact bind_of_ok (by rw [run_view, hc])

def bindHeld (u : Value) (depth : Nat) (k : Loc) : MachineM Value := do
  let bound ← onHeap do valueOf (← HeapM.newBoundMethod u k)
  onHeap (HeapM.unhold depth)
  return bound

theorem boundMethod_eq (hfind : findMethod l s m = .ok v m) : boundMethod l u s m = (do
    let k ← locOfValue v
    let _ ← closureAt k
    bindHeld u (m.heap.holds.length + 1) k : MachineM Value) { m with heap := m.heap.holding v } := by
  unfold boundMethod
  rw [runBind, hfind]
  exact bind_of_ok rfl

theorem bindHeld_ends (hc : m.heap.Consistent) (hk : locOfValue v m.heap = .ok k)
    (hbad : (m.heap.holding v).Trouble (roots m) → bad) :
    match bindHeld u (m.heap.holds.length + 1) k { m with heap := m.heap.holding v } with
    | .ok b m' => m'.heap.Exhausted ∨ ∃ heap, m' = { m with heap } ∧ m.Bound k u b heap
    | .error e m' => m'.heap.Exhausted ∨ bad ∧ ∃ f, e = .fault f := by
  have hheld := hc.setHolds (v :: m.heap.holds)
  have hmade : HeapM.Delivers bad (roots m) (m.heap.holding v) (do valueOf (← HeapM.newBoundMethod u k)) fun b h' =>
      ∃ l', HeapM.Allocates (roots m) (m.heap.holding v) (.boundMethod ⟨u, k⟩) 56 l' h' ∧ h'.Names b l' := by
    refine HeapM.delivers_value (HeapM.delivers_allocate hheld hbad _ _) ?_
    rintro l' h' ⟨h₁, hch, rfl, rfl, hroom⟩
    obtain ⟨ho, -⟩ := find?_link (.boundMethod ⟨u, k⟩) 56 hch.consistent hroom
    exact ⟨hch.consistent.link _ 56 hroom, _, ho, rfl⟩
  unfold HeapM.Delivers at hmade
  have hrun : bindHeld u (m.heap.holds.length + 1) k { m with heap := m.heap.holding v } = _ := runBind ..
  rw [hrun, run_onHeap, show roots { m with heap := m.heap.holding v } = roots m from rfl]
  cases hmake : (do valueOf (← HeapM.newBoundMethod u k) : HeapM Value) (roots m) (m.heap.holding v) with
  | error e h' =>
    rw [hmake] at hmade
    exact hmade.imp_right fun h => ⟨h, e, rfl⟩
  | ok b h' =>
    rw [hmake] at hmade
    dsimp only at hmade ⊢
    rw [runBind, run_onHeap, HeapM.unhold_eq]
    dsimp only
    rcases hmade with hex | ⟨l', hmade, hname⟩
    · by_cases hdepth : h'.holds.length ≠ m.heap.holds.length + 1
      · rw [if_pos hdepth]
        exact .inl hex
      · rw [if_neg hdepth]
        exact .inl hex
    · have hspares := (spares_allocates hheld hmade).of_holding hc hk m.heap.holds
      obtain ⟨h₁, hch, rfl, rfl, hroom⟩ := id hmade
      obtain ⟨ho, -⟩ := find?_link (.boundMethod ⟨u, k⟩) 56 hch.consistent hroom
      have hholds : (h₁.link (.boundMethod ⟨u, k⟩) 56).2.holds = v :: m.heap.holds := (holds_link _ 56).trans hch.holds
      rw [if_neg (by rw [hholds]; exact fun h => h rfl), hholds]
      exact .inr ⟨_, rfl, hspares, _, _, locOfValue_setHolds.trans hname.locOfValue, ho, rfl⟩

theorem spares_call (hs : m.heap.Spares (.object k :: m.heap.origins (roots m)) heap) :
    (finalState (call k count m)).heap.Spares ((finalState (call k count m)).heap.origins
      (roots (finalState (call k count m)))) heap := by
  have hcall : finalState (call k count m) = m ∨ _ := finalState_call
  rcases hcall with h | ⟨f, rfl, h⟩
  · rw [h]
    exact hs.mono fun l hl => hl.mono fun link hlink => .tail _ hlink
  · rw [h]
    refine hs.mono fun l hl => hl.mono fun link hlink => ?_
    rcases List.mem_append.mp hlink with hlink | hlink
    · exact .tail _ (List.mem_append_left _ hlink)
    · obtain ⟨marker, hmarker, hlink⟩ := Heap.mem_registered.mp hlink
      cases marker with
      | machine =>
        by_cases hnew : link = .object f.closure
        · exact hnew ▸ .head _
        · refine .tail _ (List.mem_append_right _ (Heap.mem_registered.mpr ⟨.machine, hmarker, ?_⟩))
          simp only [roots, Machine.kept, Machine.links, Calls.push, List.reverse_cons, List.map_append,
              List.mem_append,
            List.map_cons, List.map_nil, List.mem_cons, List.not_mem_nil, or_false, hnew] at hlink ⊢
          exact hlink
      | compiler | host n => cases hlink

end

end MachineM

theorem Table.binds_of_get? {t : Table} {s : Symbol} {v : Value} (h : t.get? s = some v) : ∃ k, t.Binds k v := by
  unfold get? at h
  split at h
  · cases h
  · simp only [getD_eq_entryAt, Option.map_eq_some_iff] at h
    obtain ⟨k, hk, rfl⟩ := h
    exact ⟨k, binds_of_key hk⟩

theorem mem_origins_take {m : Machine} {n : Nat} {link : Link} (hn : n ≤ m.sp)
    (hl : link ∈ m.heap.origins (roots { m with sp := n })) : link ∈ m.heap.origins (roots m) := by
  rcases List.mem_append.mp hl with hl | hl
  · exact List.mem_append_left _ hl
  · obtain ⟨marker, hmarker, hl⟩ := Heap.mem_registered.mp hl
    refine List.mem_append_right _ (Heap.mem_registered.mpr ⟨marker, hmarker, ?_⟩)
    cases marker with
    | machine =>
      simp only [roots, Machine.kept, Machine.links, List.append_assoc, List.mem_append, List.mem_map] at hl ⊢
      refine hl.imp_left ?_
      rintro ⟨v, hv, rfl⟩
      refine ⟨v, ?_, rfl⟩
      simp only [Stack.slice, Array.toList_extract, List.extract_eq_take_drop, List.drop_zero, Nat.sub_zero] at hv ⊢
      exact (List.take_prefix_take_left hn).subset hv
    | compiler | host n => cases hl

namespace Machine.Within

variable {fit : Prototype → Prop} {script : Prototype} {holds : List Value} {marks : List RootMarker} {spot : Spot}
  {ip : Nat} {height : Int} {m : Machine} {links : List Link} {s : Symbol} {u v : Value} {l : Loc} {count : Nat}

theorem fuses_fault {e : Fault} (hfused : invokeFromClass l s count m = .error (.fault e) m)
    (hplain : boundMethod l u s m = .error (.fault e) { m with heap := m.heap.holding v }) :
    Fuses (¬ m.heap.Intact links) m (invokeFromClass l s count) (do callInPlace count (← boundMethod l u s)) := by
  refine .inr (.inr ⟨m.heap.holding v, ?_, ?_⟩)
  · rw [runBind, hplain, hfused]
    rfl
  · rw [hfused]
    exact ⟨fun _ _ _ => rfl, fun _ _ _ hl => locOfValue_setHolds.trans hl⟩

variable (hw : m.Within fit script holds marks spot ip height)

include hw

theorem consistent : m.heap.Consistent :=
  hw.kept.sound.consistent

theorem follows : m.Follows (m.heap.origins (roots m)) := by
  intro f hf
  refine ⟨.root (HeapM.mem_origins (mem_registered_frame hw.kept.mem_markers hf)) (.object _), ?_⟩
  rw [hw.frames] at hf
  rcases List.mem_cons.mp hf with rfl | hf
  · exact ⟨_, hw.calls⟩
  · obtain ⟨q, hq, rfl⟩ := List.mem_map.mp hf
    obtain ⟨base, hwaits⟩ := hw.waiting.waits q hq
    exact ⟨_, hwaits.calls⟩

theorem executes : ∃ rest fn, Executes m ⟨spot.closure, ip, spot.base⟩ rest fn := by
  obtain ⟨o, c, ho, -, hbody, hbears⟩ := hw.calls
  obtain ⟨o', f, ho', -, hbody', -⟩ := bearsIn_iff.mp hbears
  refine ⟨_, f, hw.frames, ?_⟩
  rw [view_bind, closureAt_eq_ok.mpr ⟨o, ho, hbody⟩]
  exact functionAt_eq_ok.mpr ⟨o', ho', hbody'⟩

theorem reach_of_mem (hu : m.values.reverse[count]? = some u) (hl : locOfValue u m.heap = .ok l) :
    m.heap.Reach (m.heap.origins (roots m)) l := by
  refine .root (HeapM.mem_origins (mem_registered hw.kept.mem_markers ?_)) (leads_of_locOfValue hw.consistent hl).1
  simp only [Machine.links, List.append_assoc, List.mem_append, List.mem_map]
  exact .inl ⟨u, List.mem_reverse.mp (List.mem_of_getElem? hu), rfl⟩

theorem intact_of_not_trouble (hsub : ∀ link ∈ m.heap.origins (roots m), link ∈ links) (hl : m.heap.Reach links l)
    (hv : .value v ∈ m.heap.linksAt l) (ht : (m.heap.holding v).Trouble (roots m)) : ¬ m.heap.Intact links := by
  intro hi
  rcases ht with hclosed | hbroken | ⟨link, hlink, hindirect⟩
  · have hopen := hw.kept.opened
    rw [show m.heap.closed = true from hclosed] at hopen
    cases hopen
  · exact hbroken (hi.holding hsub hl hv)
  · rcases List.mem_append.mp hlink with hlink | hlink
    · obtain ⟨w, -, rfl⟩ := List.mem_map.mp hlink
      exact hindirect trivial
    · obtain ⟨marker, -, hlink⟩ := Heap.mem_registered.mp hlink
      cases marker with
      | machine =>
        simp only [roots, Machine.kept, Machine.links, List.mem_append, List.mem_map] at hlink
        rcases hlink with (((⟨w, -, rfl⟩ | ⟨f, -, rfl⟩) | ⟨w, -, rfl⟩) | hlink) | ⟨w, -, rfl⟩
        · exact hindirect trivial
        · exact hindirect trivial
        · exact hindirect trivial
        · exact hindirect (isDirect_table_links hlink)
        · exact hindirect trivial
      | compiler | host n => cases hlink

theorem fuses_closure (hsub : ∀ link ∈ m.heap.origins (roots m), link ∈ links) (hl : m.heap.Reach links l)
    (hu : m.values.reverse[count]? = some u) {c : Class} {k : Loc} {cl : Closure} (hc : classAt l m.heap = .ok c)
    (hv : c.methods.get? s = some v) (hk : locOfValue v m.heap = .ok k) (hcl : closureAt k m.heap = .ok cl)
    (hcall : invokeFromClass l s count m = call k count m)
    (hbound : boundMethod l u s m = bindHeld u (m.heap.holds.length + 1) k { m with heap := m.heap.holding v }) :
    Fuses (¬ m.heap.Intact links) m (invokeFromClass l s count) (do callInPlace count (← boundMethod l u s)) := by
  have hlink : .value v ∈ m.heap.linksAt l := by
    obtain ⟨o, ho, hbody⟩ := classAt_eq_ok.mp hc
    obtain ⟨j, hbinds⟩ := Table.binds_of_get? hv
    rw [linksAt, ho]
    dsimp only
    rw [hbody]
    exact .tail _ (Table.mem_links_of_binds hbinds).2
  obtain ⟨p, -, hcalls⟩ := exists_calls hw hk hcl
  have hends := bindHeld_ends (u := u) hw.consistent hk (hw.intact_of_not_trouble hsub hl hlink)
  have hgrow (b : Value) : Grows (callInPlace count b) := by
    unfold callInPlace
    infer_instance
  unfold Fuses
  rw [runBind, hbound, hcall]
  cases hrun : bindHeld u (m.heap.holds.length + 1) k { m with heap := m.heap.holding v } with
  | error e m' =>
    rw [hrun] at hends
    rcases hends with hex | ⟨hbroken, f, rfl⟩
    · exact .inl hex
    · exact .inr (.inl ⟨hbroken, f, m', rfl⟩)
  | ok b m' =>
    rw [hrun] at hends
    dsimp only
    rcases hends with hex | ⟨heap, rfl, hspares, l', o, hloc, ho, hbody⟩
    · exact .inl (Nat.lt_of_lt_of_le hex ((hgrow b).le m'))
    · refine .inr (.inr ⟨heap, ?_, spares_call hspares⟩)
      have hfilled : ({ m with heap } : Machine).Filled := ⟨hw.filled.written, hw.filled.room⟩
      rw [callInPlace_bound (m := { m with heap }) hfilled hu hloc ho hbody]
      have hfollows : m.Follows (.object k :: m.heap.origins (roots m)) := fun f hf =>
        (hw.follows f hf).imp_left fun h => h.mono fun link hlink => .tail _ hlink
      exact call_withHeap hspares hfollows (.root (.head _) (.object _)) hcalls

theorem fuses_method (hsub : ∀ link ∈ m.heap.origins (roots m), link ∈ links) (hl : m.heap.Reach links l)
    (hu : m.values.reverse[count]? = some u) : Fuses (¬ m.heap.Intact links) m (invokeFromClass l s count)
      (do callInPlace count (← boundMethod l u s)) := by
  -- when there is no method both end with the lookup
  have hnone {e : Stop} {m' : Machine} (hfind : findMethod l s m = .error e m') :
      Fuses (¬ m.heap.Intact links) m (invokeFromClass l s count) (do callInPlace count (← boundMethod l u s)) := by
    refine .of_eq ?_
    unfold invokeFromClass boundMethod
    rw [runBind, runBind, runBind, hfind]
  cases hc : classAt l m.heap with
  | error e =>
    have hfail : findMethod l s m = .error (.fault e) m := by
      unfold findMethod
      rw [runBind, run_view, hc]
    exact hnone hfail
  | ok c =>
    have hfind := findMethod_eq (s := s) hc
    cases hv : c.methods.get? s with
    | none =>
      rw [hv] at hfind
      cases hraise : (raise (.undefinedProperty s.chars) : MachineM Value) m with
      | ok v m' => exact absurd hraise raise_ne_ok
      | error e m' => exact hnone (hfind.trans hraise)
    | some v =>
      rw [hv] at hfind
      have hinvoke : invokeFromClass l s count m = (do
          let k ← locOfValue v
          let _ ← closureAt k
          call k count : MachineM Unit) m := by
        unfold invokeFromClass
        exact bind_of_ok hfind
      have hbind := boundMethod_eq (u := u) hfind
      have hsame (k : Loc) : closureAt k (m.heap.holding v) = closureAt k m.heap := closureAt_congr rfl
      cases hk : locOfValue v m.heap with
      | error e =>
        refine fuses_fault (e := e) (v := v) ?_ ?_
        · rw [hinvoke, runBind, run_view, hk]
        · rw [hbind, runBind, run_view, locOfValue_setHolds, hk]
      | ok k =>
        cases hcl : closureAt k m.heap with
        | error e =>
          refine fuses_fault (e := e) (v := v) ?_ ?_
          · rw [hinvoke, runBind, run_view, hk]
            dsimp only
            rw [runBind, run_view, hcl]
          · rw [hbind, runBind, run_view, locOfValue_setHolds, hk]
            dsimp only
            rw [runBind, run_view, hsame, hcl]
        | ok cl =>
          have hcall : invokeFromClass l s count m = call k count m := by
            rw [hinvoke, runBind, run_view, hk]
            dsimp only
            rw [runBind, run_view, hcl]
          have hbound : boundMethod l u s m = bindHeld u (m.heap.holds.length + 1) k
              { m with heap := m.heap.holding v } := by
            rw [hbind, runBind, run_view, locOfValue_setHolds, hk]
            dsimp only
            rw [runBind, run_view, hsame, hcl]
          exact hw.fuses_closure hsub hl hu hc hv hk hcl hcall hbound

theorem fuses_property (hu : m.values.reverse[count]? = some u) (hl : locOfValue u m.heap = .ok l) {j : Instance}
    (hj : instanceAt l m.heap = .ok j) : Fuses m.Dangles m (invoke s count) (callProperty s count) := by
  have hpeek : MachineM.peek count m = .ok u m := peek_under hw.filled hu m.heap m.calls
  have hinvoke := invoke_eq (s := s) hw.consistent hpeek hl hj
  have hproperty := property_eq (s := s) hl hj
  have hcall : callProperty s count m = (do callInPlace count (← property u s) : MachineM Unit) m := by
    unfold callProperty
    rw [runBind, hpeek]
  cases hfield : j.fields.get? s with
  | some v =>
    rw [hfield] at hinvoke hproperty
    refine .of_eq ?_
    have hlt : count < m.sp := by
      rw [← hw.filled.length, ← List.length_reverse]
      exact (List.getElem?_eq_some_iff.mp hu).1
    rw [hcall, hinvoke, runBind, hproperty]
    exact callInPlace_eq hw.filled hlt v
  | none =>
    rw [hfield] at hinvoke hproperty
    have hlink : .object j.class_ ∈ m.heap.linksAt l := by
      obtain ⟨o, ho, hbody⟩ := instanceAt_eq_ok.mp hj
      rw [linksAt, ho]
      dsimp only
      rw [hbody]
      exact .head _
    have hfuses := hw.fuses_method (s := s) (fun _ hlink => hlink) (.link (hw.reach_of_mem hu hl) hlink (.object _)) hu
    unfold Machine.Dangles Fuses at *
    rw [hcall, runBind, hproperty, hinvoke]
    rwa [runBind] at hfuses

theorem fuses_super (hv : m.values.reverse[0]? = some v) (hl : locOfValue v m.heap = .ok l) {c : Class}
    (hc : classAt l m.heap = .ok c) (hu : m.values.reverse[count + 1]? = some u) :
    Fuses m.Dangles m (do invokeFromClass (← popClass) s count) (callSuper s count) := by
  -- the class is taken off the stack
  obtain ⟨vs, hvs⟩ : ∃ vs, m.values = vs ++ [v] := by
    obtain ⟨rest, hrest⟩ : ∃ rest, m.values.reverse = v :: rest := by
      cases hr : m.values.reverse with
      | nil =>
        rw [hr] at hv
        cases hv
      | cons x rest =>
        rw [hr] at hv
        cases hv
        exact ⟨rest, rfl⟩
    exact ⟨rest.reverse, by rw [← List.reverse_reverse m.values, hrest, List.reverse_cons]⟩
  obtain ⟨hpop, hfilled, hvalues⟩ := pop_of_values hw.filled hvs
  have hpopped : popClass m = .ok l { m with sp := m.sp - 1 } := by
    unfold popClass
    rw [runBind, hpop]
    dsimp only
    rw [runBind, run_view, hl]
    dsimp only
    rw [runBind, run_view, hc]
    rfl
  have hu' : ({ m with sp := m.sp - 1 } : Machine).values.reverse[count]? = some u := by
    rw [hvalues]
    rw [hvs, List.reverse_append, List.reverse_singleton, List.singleton_append] at hu
    exact hu
  have hpos : 0 < m.sp := by
    rw [← hw.filled.length, hvs, List.length_append]
    exact Nat.succ_pos _
  have hw' : ({ m with sp := m.sp - 1 } : Machine).Within fit script holds marks spot ip (height - 1) :=
    { hw with
      written := hfilled.written
      space := hfilled.room
      sp := by
        have := hw.sp
        show ((m.sp - 1 : Nat) : Int) = _
        omega }
  have hsub : ∀ link ∈ m.heap.origins (roots { m with sp := m.sp - 1 }), link ∈ m.heap.origins (roots m) :=
    fun link hlink => mem_origins_take (Nat.sub_le ..) hlink
  have hfuses := hw'.fuses_method (s := s) hsub (hw.reach_of_mem hv hl) hu'
  have hpeek : MachineM.peek count { m with sp := m.sp - 1 } = .ok u { m with sp := m.sp - 1 } :=
    peek_under hfilled hu' m.heap m.calls
  unfold Machine.Dangles Fuses callSuper at *
  rw [runBind, runBind, hpopped]
  dsimp only
  rw [runBind, hpeek]
  exact hfuses

end Machine.Within

/-- Wherever the code of a program stands that a host runs, a call of a property of an instance under the arguments
fuses the instruction for the property and the call of what it puts in the place of the instance, and so does a call
of a method of a superclass. Only binding the method makes an object: when a variable that was captured before an
error still names a freed object, this may come upon it. The first program on a machine never gets there. -/
theorem Machine.fused_calls {x y : Machine} {ip : Nat} (hx : EmbedM.Live x)
    (hy : y = { x with calls := x.calls.jumpTo ip }) : x.heap.Exhausted ∨
      (∀ s u l j count, y.values.reverse[count]? = some u → locOfValue u y.heap = .ok l → instanceAt l y.heap = .ok j →
        Fuses y.Dangles y (invoke s count) (callProperty s count)) ∧
      (∀ u l j, y.values.reverse[0]? = some u → locOfValue u y.heap = .ok l → instanceAt l y.heap = .ok j →
        getProperty y = (do
          let s ← readName
          let v ← property u s
          let _ ← pop
          push v : MachineM Unit) y) ∧
      (∀ s u v l c count, y.values.reverse[0]? = some v → locOfValue v y.heap = .ok l → classAt l y.heap = .ok c →
        y.values.reverse[count + 1]? = some u →
          Fuses y.Dangles y (do invokeFromClass (← popClass) s count) (callSuper s count)) ∧
      (∀ u, y.values.reverse[1]? = some u → getSuper y = (do
        let s ← readName
        let class_ ← popClass
        let v ← boundMethod class_ u s
        let _ ← pop
        push v : MachineM Unit) y) ∧
      ∀ options n clock m source before, Machine.new options n .standard clock = .ok m →
        Trail m source (x :: before) → ¬ y.Dangles := by
  rcases hx.between with hex | ⟨script, holds, marks, -, spot, height, hw, -⟩
  · exact .inl hex
  have hw' : y.Within Template.Compiled script holds marks spot ip height := hy ▸ hw.moved
  obtain ⟨rest, fn, hex'⟩ := hw'.executes
  refine (em x.heap.Exhausted).imp_right fun hroom => ⟨fun s u l j count hu hl hj => hw'.fuses_property hu hl hj,
    fun u l j hu hl hj => getProperty_eq hw'.consistent hex' hw'.filled hu hl hj,
    fun s u v l c count hv hl hc hu => hw'.fuses_super hv hl hc hu, fun u hu => getSuper_eq hex' hw'.filled hu, ?_⟩
  intro options n clock m source before hnew htrail
  obtain ⟨w, i, Γ, h⟩ := (htrail.stands hnew).resolve_left hroom
  obtain ⟨-, f, rest', p, sheet, s, below, hrunning, -⟩ := h.sound
  obtain ⟨g, gs, fn', hg, -, hrun, -⟩ := h.mirrors.running? hrunning.frames hrunning.knows.closure
  obtain ⟨rest'', hexecutes⟩ := executes_of_running hrun
  obtain ⟨i', hm, -⟩ := h.mirrors.read hexecutes.frames ip
  subst hy
  exact fun hdangles => hdangles (hm.pictures.intact hm.rooted)

def endsAtMethod : List Machine → Bool
  | x :: _ => decide (x.heap.slots.size ≤ 2 ^ 32 ∧ x.instr? = some (Opcode.invoke, some ("m" : Bytes)) ∧
      (x.heap.strings.findText? "m" (Bytes.hash "m")).isSome) &&
    (x.top? 0).any fun l => (instanceAt l x.heap).isOk
  | [] => false

theorem EmbedM.live_of_trail {m x : Machine} {source : Bytes} {before : List Machine} (hm : Hosted m)
    (htrail : m.Trail source (x :: before)) : Live x := by
  generalize hall : x :: before = trail at htrail
  induction htrail generalizing x before with
  | start hstart =>
    cases hall
    exact .start hm hstart
  | step htrail hstep ih =>
    cases hall
    exact .step (ih rfl) hstep

def startsWithin (options : GcOptions) (n : Int) : Bool :=
  match Machine.new options n .standard with
  | .ok m => decide (m.heap.slots.size ≤ 2 ^ 32)
  | .error _ => false

theorem Machine.fused_calls_method : ∃ (m x : Machine) (before : List Machine) (s : Symbol),
    Machine.new {} 4 .standard = .ok m ∧ Trail m "class A{m(){}}A().m();" (x :: before) ∧
    x.instr? = some (.invoke, some s.chars) ∧ ¬ { x with calls := x.calls.jumpTo 0 }.Dangles ∧
    Fuses False { x with calls := x.calls.jumpTo 0 } (invoke s 0) (callProperty s 0) := by
  obtain ⟨m, trail, hnew, htrail, htest⟩ := exists_trail {} 4 "class A{m(){}}A().m();" 8 endsAtMethod
    (by decide +kernel)
  have hstart : startsWithin {} 4 = true := by decide +kernel
  unfold startsWithin at hstart
  rw [hnew] at hstart
  cases trail with
  | nil => cases htest
  | cons x before =>
    simp only [endsAtMethod, Bool.and_eq_true, decide_eq_true_eq, Option.any_eq_true] at htest
    obtain ⟨⟨hroom, hinstr, hname⟩, l, htop, hok⟩ := htest
    obtain ⟨s, hs⟩ := Option.isSome_iff_exists.mp hname
    obtain ⟨u, hu, hl⟩ := value_of_top? htop
    have hopen := Nat.not_lt.mpr hroom
    have hlive := EmbedM.live_of_trail (.new hnew (of_decide_eq_true hstart)) htrail
    obtain ⟨script, holds, marks, -, spot, height, hw, -⟩ := hlive.between.resolve_left hopen
    obtain ⟨-, hchars⟩ := (hw.kept.sound.findText?_eq_some_iff "m").mp hs
    cases hj : instanceAt l x.heap with
    | error e =>
      rw [hj] at hok
      cases hok
    | ok j =>
      obtain ⟨hcalls, -, -, -, hfirst⟩ := (fused_calls hlive rfl).resolve_left hopen
      have hsteady := hfirst {} 4 {} m _ before hnew htrail
      refine ⟨m, x, before, s, hnew, htrail, hchars ▸ hinstr, hsteady, ?_⟩
      exact (hcalls s u l j 0 hu hl hj).imp_right fun h => h.imp_left fun h => absurd h.1 hsteady

end Lox

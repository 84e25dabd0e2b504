import Lox.Machine
import Lox.Proofs.Compile.CarryOut

namespace Lox

theorem runBind {ε σ α β : Type} (x : EStateM ε σ α) (f : α → EStateM ε σ β) (s : σ) :
    (x >>= f) s = match x s with
    | .ok a s => f a s
    | .error e s => .error e s := by
  show EStateM.bind x f s = _
  unfold EStateM.bind
  cases x s <;> rfl

theorem runGet {ε σ : Type} (s : σ) : (get : EStateM ε σ σ) s = .ok s s := rfl

namespace MachineM

open Heap HeapView

variable {α β : Type} {m : Machine}

theorem run_view (view : HeapView α) : (liftM view : MachineM α) m = match view m.heap with
    | .ok a => .ok a m
    | .error e => .error (.fault e) m := rfl

def roots (m : Machine) : Roots :=
  Machine.kept m.stack m.sp m.calls m.openUpvalues m.globals m.initName

theorem mem_registered {link : Link} (hm : .machine ∈ m.heap.markers)
    (hl : link ∈ Machine.links m.stack m.sp m.calls m.openUpvalues m.globals m.initName) :
    link ∈ m.heap.registered (roots m) :=
  Heap.mem_registered.mpr ⟨.machine, hm, hl⟩

theorem run_onHeap (act : HeapM α) : onHeap act m = match act (roots m) m.heap with
    | .ok a heap => .ok a { m with heap }
    | .error e heap => .error (.fault e) { m with heap } := rfl

theorem run_finally (x : MachineM α) (y : MachineM β) : (tryFinally x y) m = match x m with
    | .ok a m => match y m with
      | .ok _ m => .ok a m
      | .error e m => .error e m
    | .error e m => match y m with
      | .ok _ m => .error e m
      | .error e m => .error e m := by
  show EStateM.map Prod.fst (MonadFinally.tryFinally' (m := EStateM Stop Machine) x fun _ => y) m = _
  simp only [EStateM.map, MonadFinally.tryFinally']
  cases x m with
  | ok a m => cases hy : y m <;> simp only [hy]
  | error e m => cases hy : y m <;> simp only [hy]

theorem onHeap_ok {act : HeapM α} {a : α} {h' : Heap} (ha : act (roots m) m.heap = .ok a h') :
    onHeap act m = .ok a { m with heap := h' } := by
  rw [run_onHeap, ha]

theorem pop_eq (m : Machine) : pop m =
    if m.sp = 0 then .error (.fault .outOfRange) m
    else .ok (m.stack.written.getD (m.sp - 1) .zero) { m with sp := m.sp - 1 } := by
  unfold pop
  rw [runBind]
  show (if m.sp = 0 then _ else _ : MachineM Value) m = _
  by_cases h : m.sp = 0
  · rw [if_pos h, if_pos h]
    rfl
  · rw [if_neg h, if_neg h]
    rfl

class Grows (act : MachineM α) : Prop where
  le : ∀ m, m.heap.slots.size ≤ (finalState (act m)).heap.slots.size

namespace Grows

theorem bind {x : MachineM α} {f : α → MachineM β} [hx : Grows x] (hf : ∀ a, Grows (f a)) :
    Grows (x >>= f) where
  le m := by
    rw [runBind]
    have h₁ := hx.le m
    cases hxr : x m with
    | error e m' =>
      rw [hxr] at h₁
      exact h₁
    | ok a m' =>
      rw [hxr] at h₁
      exact Nat.le_trans h₁ ((hf a).le m')

instance {x : MachineM α} {f : α → MachineM β} [Grows x] [hf : ∀ a, Grows (f a)] :
    Grows (x >>= f) :=
  bind hf

instance {x : MachineM α} (f : α → β) [hx : Grows x] : Grows (f <$> x) where
  le m := by
    have h₁ := hx.le m
    show m.heap.slots.size ≤ (finalState (EStateM.map f x m)).heap.slots.size
    unfold EStateM.map
    cases hxr : x m <;> rw [hxr] at h₁ <;> exact h₁

instance (a : α) : Grows (pure a : MachineM α) := ⟨fun _ => Nat.le_refl _⟩

instance : Grows (get : MachineM Machine) := ⟨fun _ => Nat.le_refl _⟩

instance (e : Stop) : Grows (throw e : MachineM α) := ⟨fun _ => Nat.le_refl _⟩

instance (f : Fault) : Grows (stop f : MachineM α) := ⟨fun _ => Nat.le_refl _⟩

instance (view : HeapView α) : Grows (liftM view : MachineM α) where
  le m := by
    rw [run_view]
    cases view m.heap <;> exact Nat.le_refl _

instance {x : MachineM α} {y : MachineM β} [hx : Grows x] [hy : Grows y] : Grows (tryFinally x y) where
  le m := by
    rw [run_finally]
    have h₁ := hx.le m
    cases hxr : x m with
    | ok a m' | error a m' =>
      rw [hxr] at h₁
      have h₂ := hy.le m'
      cases hyr : y m' <;> rw [hyr] at h₂ <;> simp only [hyr] <;> exact Nat.le_trans h₁ h₂

instance {c : Prop} [Decidable c] {x y : MachineM α} [hx : Grows x] [hy : Grows y] :
    Grows (if c then x else y) := by
  split
  · exact hx
  · exact hy

instance {x y : MachineM Bool} [Grows x] [Grows y] : Grows (x <&&> y) := by
  refine .bind fun b => ?_
  cases b
  · exact inferInstanceAs (Grows (pure false))
  · exact inferInstanceAs (Grows y)

instance {f : α → MachineM β} [hf : ∀ a, Grows (f a)] (as : List α) : Grows (as.mapM f) := by
  induction as with
  | nil =>
    rw [List.mapM_nil]
    infer_instance
  | cons a as ih =>
    rw [List.mapM_cons]
    infer_instance

theorem modify {f : Machine → Machine} (hf : ∀ m, (f m).heap = m.heap) :
    Grows (modify f : MachineM Unit) where
  le m := by
    show _ ≤ (f m).heap.slots.size
    exact Nat.le_of_eq (by rw [hf])

theorem modifyGet {f : Machine → α × Machine} (hf : ∀ m, (f m).2.heap = m.heap) :
    Grows (modifyGet f : MachineM α) where
  le m := by
    show _ ≤ (f m).2.heap.slots.size
    exact Nat.le_of_eq (by rw [hf])

theorem onHeap {act : HeapM α} (ha : HeapM.Grows act) : Grows (onHeap act) where
  le m := by
    rw [run_onHeap]
    have h₁ := ha (roots m) m.heap
    cases hr : act (roots m) m.heap <;> rw [hr] at h₁ <;> exact h₁

instance (delta : Int) : Grows (MachineM.onHeap (HeapM.account delta)) := onHeap (HeapM.grows_account delta)

instance : Grows (MachineM.onHeap HeapM.collect) := onHeap HeapM.grows_collect

instance (v : Value) : Grows (MachineM.onHeap (HeapM.hold v)) := onHeap (HeapM.grows_hold v)

instance (depth : Nat) : Grows (MachineM.onHeap (HeapM.unhold depth)) :=
  onHeap (HeapM.grows_unhold depth)

instance (body : Body) (size : Nat) : Grows (MachineM.onHeap (HeapM.allocate body size)) :=
  onHeap (HeapM.grows_allocate body size)

instance (l : Loc) (f : Body → Body) :
    Grows (MachineM.onHeap (MonadState.modifyGet fun h => ((), h.updateBody l f))) :=
  onHeap (HeapM.grows_updateBody l f)

instance (l : Loc) (key : Symbol) (v : Value) : Grows (MachineM.onHeap (HeapM.setEntry l key v)) :=
  onHeap (HeapM.keeps_setEntry l key v).grows

theorem value {act : HeapM Loc} (ha : HeapM.Grows act) :
    Grows (MachineM.onHeap (do valueOf (← act))) :=
  onHeap (ha.bind fun _ => HeapM.grows_view _)

end Grows

end MachineM

end Lox

namespace Lox

namespace Stack

theorem slice_set_top {s : Stack} {n : Nat} (hn : n ≤ s.written.size) (v : Value) :
    (s.set n v).slice 0 (n + 1) = s.slice 0 n ++ [v] := by
  apply List.ext_getElem?
  intro k
  unfold slice set
  dsimp only
  split
  · simp only [Array.toList_extract, Array.toList_setIfInBounds, List.extract_eq_take_drop]
    grind
  · have he : n - s.written.size = 0 := by omega
    simp only [Array.toList_extract, he, Array.replicate_zero, Array.append_empty, Array.toList_push,
      List.extract_eq_take_drop]
    grind

theorem size_set_top {s : Stack} {n : Nat} (hn : n ≤ s.written.size) (v : Value) :
    n + 1 ≤ (s.set n v).written.size := by
  unfold set
  dsimp only
  split
  · rw [Array.size_setIfInBounds]
    omega
  · simp only [Array.size_push, Array.size_append, Array.size_replicate]
    omega

theorem written_le_set {s : Stack} (n : Nat) (v : Value) : s.written.size ≤ (s.set n v).written.size := by
  unfold set
  dsimp only
  split
  · rw [Array.size_setIfInBounds]
  · simp only [Array.size_push, Array.size_append, Array.size_replicate]
    omega

theorem slice_set {s : Stack} {k n : Nat} (hn : n ≤ s.written.size) (hk : k < n) (v : Value) :
    (s.set k v).slice 0 n = (s.slice 0 n).set k v ∧ (s.set k v).written.size = s.written.size := by
  have hlt : k < s.written.size := by omega
  simp only [set, slice, hlt, ↓reduceIte, Array.size_setIfInBounds, and_true]
  apply List.ext_getElem?
  intro j
  simp only [Array.toList_extract, Array.toList_setIfInBounds, List.extract_eq_take_drop]
  grind

theorem slice_take {s : Stack} {k n : Nat} (hk : k ≤ n) : s.slice 0 k = (s.slice 0 n).take k := by
  simp only [slice, Array.toList_extract, List.extract_eq_take_drop]
  simp [List.take_take, Nat.min_eq_left hk]

theorem length_slice {s : Stack} {n : Nat} (hn : n ≤ s.written.size) : (s.slice 0 n).length = n := by
  simp only [slice, Array.toList_extract, List.extract_eq_take_drop]
  simp [Nat.min_eq_left hn]

theorem getD_written {s : Stack} {k n : Nat} (hn : n ≤ s.written.size) (hk : k < n) :
    (s.slice 0 n)[k]? = some (s.written.getD k .zero) := by
  have hlt : k < s.written.size := by omega
  simp only [slice, Array.toList_extract, List.extract_eq_take_drop, Array.getD_eq_getD_getElem?]
  simp [hk, hlt]

end Stack

namespace Machine

def values (m : Machine) : List Value :=
  m.stack.slice 0 m.sp

structure Filled (m : Machine) : Prop where
  written : m.sp ≤ m.stack.written.size
  room : m.sp ≤ m.stack.size

variable {m : Machine}

theorem Filled.length (hm : m.Filled) : m.values.length = m.sp :=
  Stack.length_slice hm.written

theorem Filled.set (hm : m.Filled) (n : Nat) (v : Value) : ({ m with stack := m.stack.set n v } : Machine).Filled :=
  ⟨Nat.le_trans hm.written (Stack.written_le_set n v), Nat.le_trans hm.room (Nat.le_max_left ..)⟩

end Machine

namespace MachineM

open Machine

variable {m : Machine}

theorem push_eq (v : Value) (m : Machine) : ∃ stack, push v m =
    .ok () { m with stack, sp := m.sp + 1 } ∧ (m.Filled →
      ({ m with stack, sp := m.sp + 1 } : Machine).Filled ∧
      ({ m with stack, sp := m.sp + 1 } : Machine).values = m.values ++ [v]) := by
  refine ⟨(if m.sp = m.stack.size then m.stack.grow slotsPerFrame else m.stack).set m.sp v, rfl, ?_⟩
  intro hm
  have hw : (if m.sp = m.stack.size then m.stack.grow slotsPerFrame else m.stack).written =
      m.stack.written := by
    split <;> rfl
  generalize (if m.sp = m.stack.size then m.stack.grow slotsPerFrame else m.stack) = s at hw
  have hs : m.sp ≤ s.written.size := hw ▸ hm.written
  refine ⟨⟨Stack.size_set_top hs v, ?_⟩, ?_⟩
  · show m.sp + 1 ≤ max s.size (m.sp + 1)
    omega
  · refine (Stack.slice_set_top hs v).trans ?_
    rw [values, Stack.slice, Stack.slice, hw]

theorem pop_of_values {vs : List Value} {v : Value} (hm : m.Filled) (hv : m.values = vs ++ [v]) :
    pop m = .ok v { m with sp := m.sp - 1 } ∧ ({ m with sp := m.sp - 1 } : Machine).Filled ∧
      ({ m with sp := m.sp - 1 } : Machine).values = vs := by
  have hlen : m.sp = vs.length + 1 := by rw [← hm.length, hv]; simp
  have hget : (m.stack.slice 0 m.sp)[m.sp - 1]? = _ := Stack.getD_written hm.written (by omega)
  rw [show m.stack.slice 0 m.sp = vs ++ [v] from hv, hlen] at hget
  simp only [Nat.add_sub_cancel, List.getElem?_concat_length] at hget
  refine ⟨?_, ⟨?_, ?_⟩, ?_⟩
  · rw [pop_eq, if_neg (by omega), hlen]
    simp only [Nat.add_sub_cancel]
    rw [← Option.some.inj hget]
  · have := hm.written
    show m.sp - 1 ≤ m.stack.written.size
    omega
  · have := hm.room
    show m.sp - 1 ≤ m.stack.size
    omega
  · refine (Stack.slice_take (show m.sp - 1 ≤ m.sp by omega)).trans ?_
    rw [show m.stack.slice 0 m.sp = vs ++ [v] from hv, hlen]
    simp

theorem readSlot_of_values {n : Nat} {v : Value} (hm : m.Filled) (hv : m.values[n]? = some v) :
    readSlot n m = .ok v m := by
  have hn : n < m.sp := by
    rw [← hm.length]
    exact (List.getElem?_eq_some_iff.mp hv).1
  have hget : m.stack.get? n = some v := by
    have hroom := hm.room
    rw [Stack.get?, if_pos (by omega), ← hv]
    exact (Stack.getD_written hm.written hn).symm
  unfold readSlot
  rw [runBind]
  show (if (n : Int) < 0 then _ else _ : MachineM Value) m = _
  rw [if_neg (by omega), Int.toNat_natCast, hget]
  rfl

theorem writeSlot_of_lt {n : Nat} (hm : m.Filled) (hn : n < m.sp) (v : Value) :
    ∃ stack, writeSlot n v m = .ok () { m with stack } ∧ ({ m with stack } : Machine).Filled ∧
      ({ m with stack } : Machine).values = m.values.set n v := by
  have hroom := hm.room
  obtain ⟨hvals, hsize⟩ := Stack.slice_set hm.written hn v
  refine ⟨m.stack.set n v, ?_, ⟨?_, ?_⟩, hvals⟩
  · unfold writeSlot
    rw [runBind]
    show (if (n : Int) < 0 ∨ m.stack.size ≤ (n : Int).toNat then _ else _ : MachineM Unit) m = _
    rw [if_neg (by omega)]
    rfl
  · show m.sp ≤ (m.stack.set n v).written.size
    rw [hsize]
    exact hm.written
  · show m.sp ≤ max m.stack.size (n + 1)
    omega

theorem peek_of_values {d : Nat} {v : Value} (hm : m.Filled) (hd : d < m.sp)
    (hv : m.values[m.sp - 1 - d]? = some v) : peek d m = .ok v m := by
  unfold peek
  rw [runBind]
  show readSlot ((m.sp : Int) - 1 - d) m = _
  rw [show (m.sp : Int) - 1 - d = ((m.sp - 1 - d : Nat) : Int) by omega]
  exact readSlot_of_values hm hv

theorem calleeSlot_of_lt {count : Nat} (hc : count < m.sp) :
    calleeSlot count m = .ok ((m.sp - 1 - count : Nat) : Int) m := by
  unfold calleeSlot
  rw [runBind]
  show EStateM.Result.ok ((m.sp : Int) - count - 1) m = _
  rw [show (m.sp : Int) - count - 1 = ((m.sp - 1 - count : Nat) : Int) by omega]

end MachineM

end Lox

import Lox.Proofs.Ideal.Mirror
import Lox.Proofs.Machine.Balance

/-!
Operations that do the same on a machine and on an ideal machine. An operation of the ideal machine that
faults says nothing about the machine, and a machine may run out of handles at any time.
-/

namespace Lox

open Heap MachineM

variable {α β γ δ : Type}

namespace IdealM

theorem peek_eq (d : Nat) (i : Ideal) : peek d i =
    if i.floor + d < i.stack.length then
      match i.stack[i.stack.length - 1 - d]? with
      | some x => .ok x i
      | none => .error (.fault .missing) i
    else .error (.fault .outOfRange) i := by
  unfold peek
  rw [runBind]
  show (if i.floor + d < i.stack.length then _ else _ : IdealM Val) i = _
  split
  · cases i.stack[i.stack.length - 1 - d]? <;> rfl
  · rfl

end IdealM

/-- From `m` and `i` the operations `act` and `spec` do the same. -/
def Sim (m : Machine) (i : Ideal) (act : MachineM α) (spec : IdealM β)
    (post : α → β → Machine → Ideal → Prop) : Prop :=
  match spec i with
  | .ok b i' =>
    match act m with
    | .ok a m' => m'.heap.Exhausted ∨ post a b m' i'
    | .error _ m' => m'.heap.Exhausted
  | .error (.error e) i' =>
    match act m with
    | .ok _ m' => m'.heap.Exhausted
    | .error s m' => m'.heap.Exhausted ∨ s = .error e ∧ ∃ w, Mirrors w m' i'
  | .error (.fault _) _ => True

namespace Sim

variable {m m' : Machine} {i i' : Ideal} {act : MachineM α} {spec : IdealM β}
  {post : α → β → Machine → Ideal → Prop}

theorem imp {post' : α → β → Machine → Ideal → Prop} (h : Sim m i act spec post)
    (himp : ∀ a b m' i', post a b m' i' → post' a b m' i') : Sim m i act spec post' := by
  unfold Sim at h ⊢
  cases hs : spec i with
  | ok b i' =>
    rw [hs] at h
    dsimp only at h ⊢
    cases ha : act m with
    | ok a m' =>
      rw [ha] at h
      exact h.imp_right (himp _ _ _ _)
    | error e m' =>
      rw [ha] at h
      exact h
  | error s i' =>
    rw [hs] at h
    cases s <;> exact h

theorem of_exhausted (h : (finalState (act m)).heap.Exhausted) : Sim m i act spec post := by
  unfold Sim
  cases hs : spec i with
  | ok b i' => cases ha : act m <;> rw [ha] at h <;> first | exact .inl h | exact h
  | error s i' =>
    cases s with
    | fault f => trivial
    | error e => cases ha : act m <;> rw [ha] at h <;> first | exact .inl h | exact h

theorem pure {a : α} {b : β} (h : post a b m i) : Sim m i (pure a) (pure b) post :=
  .inr h

theorem bind_of_grows {x : MachineM α} {y : IdealM β} {f : α → MachineM γ} {g : β → IdealM δ}
    {mid : α → β → Machine → Ideal → Prop} {post : γ → δ → Machine → Ideal → Prop}
    (hx : Sim m i x y mid)
    (hf : ∀ a b m' i', mid a b m' i' → Sim m' i' (f a) (g b) post) (hg : ∀ a, Grows (f a)) :
    Sim m i (x >>= f) (y >>= g) post := by
  have hgrow : ∀ a m', m'.heap.Exhausted → (finalState (f a m')).heap.Exhausted :=
    fun a m' he => Nat.lt_of_lt_of_le he ((hg a).le m')
  unfold Sim at hx
  cases hy : y i with
  | ok b i' =>
    rw [hy] at hx
    dsimp only at hx
    have hspec : (y >>= g) i = g b i' := by rw [runBind, hy]
    cases hxr : x m with
    | ok a m' =>
      rw [hxr] at hx
      have hact : (x >>= f) m = f a m' := by rw [runBind, hxr]
      have hs : Sim m' i' (f a) (g b) post := by
        rcases hx with he | hmid
        · exact of_exhausted (hgrow a m' he)
        · exact hf a b m' i' hmid
      unfold Sim at hs ⊢
      rwa [hspec, hact]
    | error e m' =>
      rw [hxr] at hx
      refine of_exhausted ?_
      rw [runBind, hxr]
      exact hx
  | error s i' =>
    cases s with
    | fault e =>
      unfold Sim
      rw [runBind, hy]
      trivial
    | error e =>
      rw [hy] at hx
      dsimp only at hx
      have hspec : (y >>= g) i = .error (.error e) i' := by rw [runBind, hy]
      cases hxr : x m with
      | ok a m' =>
        rw [hxr] at hx
        refine of_exhausted ?_
        rw [runBind, hxr]
        exact hgrow a m' hx
      | error s m' =>
        rw [hxr] at hx
        unfold Sim
        rw [hspec, runBind, hxr]
        exact hx

theorem bind {x : MachineM α} {y : IdealM β} {f : α → MachineM γ} {g : β → IdealM δ}
    {mid : α → β → Machine → Ideal → Prop} {post : γ → δ → Machine → Ideal → Prop}
    (hx : Sim m i x y mid)
    (hf : ∀ a b m' i', mid a b m' i' → Sim m' i' (f a) (g b) post) [hg : ∀ a, Grows (f a)] :
    Sim m i (x >>= f) (y >>= g) post :=
  hx.bind_of_grows hf hg

theorem act_bind {x : MachineM α} {f : α → MachineM γ} {a : α}
    {post : γ → β → Machine → Ideal → Prop} (hx : x m = .ok a m')
    (hf : Sim m' i (f a) spec post) : Sim m i (x >>= f) spec post := by
  unfold Sim at hf ⊢
  rwa [runBind, hx]

theorem spec_bind {y : IdealM β} {g : β → IdealM δ} {b : β}
    {post : α → δ → Machine → Ideal → Prop} (hy : y i = .ok b i')
    (hg : Sim m i' act (g b) post) : Sim m i act (y >>= g) post := by
  unfold Sim at hg ⊢
  rwa [runBind, hy]

theorem act_view {view : HeapView α} {f : α → MachineM γ} {a : α}
    {post : γ → β → Machine → Ideal → Prop} (hv : view m.heap = .ok a)
    (hf : Sim m i (f a) spec post) : Sim m i (liftM view >>= f) spec post := by
  refine act_bind ?_ hf
  rw [run_view, hv]

theorem act_heap_of_grows {x : HeapM α} {f : α → MachineM γ} {mid : α → Heap → Prop}
    {post : γ → β → Machine → Ideal → Prop} (hx : HeapM.Delivers False (roots m) m.heap x mid)
    (hf : ∀ a h', mid a h' → Sim { m with heap := h' } i (f a) spec post) (hg : ∀ a, Grows (f a)) :
    Sim m i (onHeap x >>= f) spec post := by
  unfold HeapM.Delivers at hx
  cases hr : x (roots m) m.heap with
  | ok a h' =>
    rw [hr] at hx
    have hrun : onHeap x m = .ok a { m with heap := h' } := by rw [run_onHeap, hr]
    refine act_bind hrun ?_
    rcases hx with he | hmid
    · exact of_exhausted (Nat.lt_of_lt_of_le he ((hg a).le { m with heap := h' }))
    · exact hf a h' hmid
  | error e h' =>
    rw [hr] at hx
    refine of_exhausted ?_
    rw [runBind, run_onHeap, hr]
    exact hx.resolve_right id

theorem act_heap {x : HeapM α} {f : α → MachineM γ} {mid : α → Heap → Prop}
    {post : γ → β → Machine → Ideal → Prop} (hx : HeapM.Delivers False (roots m) m.heap x mid)
    (hf : ∀ a h', mid a h' → Sim { m with heap := h' } i (f a) spec post) [hg : ∀ a, Grows (f a)] :
    Sim m i (onHeap x >>= f) spec post :=
  act_heap_of_grows hx hf hg

theorem spec_ofOption {o : Option β} {g : β → IdealM δ} {post : α → δ → Machine → Ideal → Prop}
    (hg : ∀ b, o = some b → Sim m i act (g b) post) :
    Sim m i act (IdealM.ofOption o >>= g) post := by
  cases o with
  | none => trivial
  | some b => exact spec_bind rfl (hg b rfl)

end Sim

section

variable {w : World} {m : Machine} {i : Ideal} (hm : Mirrors w m i)

include hm

theorem Mirrors.push {v : Value} {x : Val} (hx : m.heap.Shows w v x) : ∃ stack,
    MachineM.push v m = .ok () { m with stack, sp := m.sp + 1 } ∧
    Mirrors w { m with stack, sp := m.sp + 1 } { i with stack := i.stack ++ [x] } := by
  obtain ⟨stack, hrun, hstack⟩ := push_eq v m
  obtain ⟨hfilled, hvalues⟩ := hstack hm.filled
  refine ⟨stack, hrun, { hm with filled := hfilled, stack := ?_ }⟩
  rw [hvalues]
  exact forall₂_snoc hm.stack hx

theorem sim_push {v : Value} {x : Val} (hx : m.heap.Shows w v x) :
    Sim m i (push v) (IdealM.push x) fun _ _ m' i' => Mirrors w m' i' ∧
      i' = { i with stack := i.stack ++ [x] } ∧
      ∃ stack, m' = { m with stack, sp := m.sp + 1 } := by
  obtain ⟨stack, hrun, hm'⟩ := hm.push hx
  unfold Sim
  rw [hrun]
  exact .inr ⟨hm', rfl, stack, rfl⟩

theorem sim_peek (d : Nat) : Sim m i (peek d) (IdealM.peek d) fun v x m' i' =>
    m' = m ∧ i' = i ∧ m.heap.Shows w v x ∧ v ∈ m.values ∧
      i.stack[i.stack.length - 1 - d]? = some x ∧ i.floor + d < i.stack.length := by
  refine Sim.spec_bind (y := get) rfl ?_
  split
  · next hd =>
    have hsp := hm.sp_eq
    cases hx : i.stack[i.stack.length - 1 - d]? with
    | none => trivial
    | some x =>
      obtain ⟨v, hv, hshow⟩ := forall₂_getElem? hm.stack hx
      have hrun := peek_of_values (d := d) hm.filled (by omega) (hsp ▸ hv)
      unfold Sim
      rw [hrun]
      exact .inr ⟨rfl, rfl, hshow, List.mem_of_getElem? hv, rfl, hd⟩
  · trivial

theorem sim_pop : Sim m i pop IdealM.pop fun v x m' i' =>
    m' = { m with sp := m.sp - 1 } ∧ i' = { i with stack := i.stack.dropLast } ∧
      Mirrors w m' i' ∧ m.heap.Shows w v x ∧ i.stack = i.stack.dropLast ++ [x] := by
  by_cases hd : i.floor + 0 < i.stack.length
  · rcases List.eq_nil_or_concat' i.stack with hnil | ⟨xs, x, hx⟩
    · rw [hnil] at hd
      simp at hd
    · obtain ⟨vs, v, hv, hvs, hshow⟩ := forall₂_snoc_inv hm.stack hx
      obtain ⟨hrun, hfilled, hvalues⟩ := pop_of_values hm.filled hv
      have hpeek : IdealM.peek 0 i = .ok x i := by
        rw [IdealM.peek_eq, if_pos hd, hx]
        simp
      refine Sim.spec_bind hpeek ?_
      unfold Sim
      rw [hrun]
      refine .inr ⟨rfl, rfl, { hm with filled := hfilled, stack := ?_ }, hshow, ?_⟩
      · rw [hvalues]
        show List.Forall₂ _ vs i.stack.dropLast
        rw [hx, List.dropLast_concat]
        exact hvs
      · rw [hx, List.dropLast_concat]
  · unfold Sim IdealM.pop
    rw [runBind, IdealM.peek_eq, if_neg hd]
    trivial

theorem sim_readSlot (n : Nat) : Sim m i (readSlot n) (IdealM.readSlot n) fun v x m' i' =>
    m' = m ∧ i' = i ∧ m.heap.Shows w v x ∧ v ∈ m.values := by
  refine Sim.spec_bind (y := get) rfl ?_
  cases hx : i.stack[n]? with
  | none => trivial
  | some x =>
    obtain ⟨v, hv, hshow⟩ := forall₂_getElem? hm.stack hx
    unfold Sim
    rw [readSlot_of_values hm.filled hv]
    exact .inr ⟨rfl, rfl, hshow, List.mem_of_getElem? hv⟩

theorem sim_writeSlot (n : Nat) {v : Value} {x : Val} (hx : m.heap.Shows w v x) :
    Sim m i (writeSlot n v) (IdealM.writeSlot n x) fun _ _ m' i' => Mirrors w m' i' ∧
      i' = { i with stack := i.stack.set n x } ∧ v ∈ m'.values ∧ ∃ stack, m' = { m with stack } := by
  refine Sim.spec_bind (y := get) rfl ?_
  split
  · trivial
  · next hlt =>
    have hsp := hm.sp_eq
    obtain ⟨stack, hrun, hfilled, hvalues⟩ := writeSlot_of_lt hm.filled (n := n) (by omega) v
    unfold Sim
    rw [hrun]
    refine .inr ⟨{ hm with filled := hfilled, stack := ?_ }, rfl, ?_, stack, rfl⟩
    · rw [hvalues]
      exact forall₂_set hm.stack n hx
    · rw [hvalues]
      refine List.mem_set ?_ v
      rw [hm.filled.length]
      omega

theorem sim_calleeSlot (count : Nat) :
    Sim m i (calleeSlot count) (IdealM.calleeSlot count) fun s n m' i' =>
      m' = m ∧ i' = i ∧ s = n ∧ n = i.stack.length - 1 - count ∧ i.floor + count < i.stack.length := by
  refine Sim.spec_bind (y := get) rfl ?_
  split
  · next hlt =>
    have hsp := hm.sp_eq
    unfold Sim
    rw [calleeSlot_of_lt (by omega)]
    exact .inr ⟨rfl, rfl, by rw [hsp], rfl, hlt⟩
  · trivial

theorem sim_print (text : Bytes) : Sim m i (print text) (IdealM.print text) fun _ _ m' i' =>
    Mirrors w m' i' := by
  refine .inr { hm with printed := ?_, filled := ⟨hm.filled.written, hm.filled.room⟩ }
  show text :: m.printed = text :: i.printed
  rw [hm.printed]

end

end Lox

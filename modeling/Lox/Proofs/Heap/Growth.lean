import Lox.Proofs.Heap.Sound

namespace Lox

def finalState {ε σ α : Type} : EStateM.Result ε σ α → σ
  | .ok _ s => s
  | .error _ s => s

namespace HeapM

open Heap HeapView

def Grows {α : Type} (act : HeapM α) : Prop :=
  ∀ r h, h.slots.size ≤ (finalState (act r h)).slots.size

variable {α β : Type}

theorem Grows.bind {x : HeapM α} {f : α → HeapM β} (hx : Grows x) (hf : ∀ a, Grows (f a)) :
    Grows (x >>= f) := by
  intro r h
  rw [run_bind]
  have h₁ := hx r h
  cases hxr : x r h with
  | error e h' =>
    rw [hxr] at h₁
    exact h₁
  | ok a h' =>
    rw [hxr] at h₁
    exact Nat.le_trans h₁ (hf a r h')

theorem grows_pure (a : α) : Grows (pure a : HeapM α) := fun _ _ => Nat.le_refl _

theorem grows_throw (e : Fault) : Grows (throw e : HeapM α) := fun _ _ => Nat.le_refl _

theorem grows_getHeap : Grows (getThe Heap : HeapM Heap) := fun _ _ => Nat.le_refl _

theorem grows_modify {f : Heap → Heap} (hf : ∀ h, h.slots.size ≤ (f h).slots.size) :
    Grows (modify f : HeapM Unit) := fun _ h => hf h

theorem grows_modifyGet {f : Heap → α × Heap} (hf : ∀ h, h.slots.size ≤ (f h).2.slots.size) :
    Grows (modifyGet f : HeapM α) := fun _ h => hf h

theorem grows_view (view : HeapView α) : Grows (liftM view : HeapM α) := by
  intro r h
  rw [run_view]
  cases view h <;> exact Nat.le_refl _

theorem grows_ite {c : Prop} [Decidable c] {x y : HeapM α} (hx : Grows x) (hy : Grows y) :
    Grows (if c then x else y) := by
  split
  · exact hx
  · exact hy

theorem Grows.tryFinally {x : HeapM α} {y : HeapM β} (hx : Grows x) (hy : Grows y) :
    Grows (tryFinally x y) := by
  intro r h
  rw [run_finally]
  have h₁ := hx r h
  cases hxr : x r h with
  | ok a h' =>
    rw [hxr] at h₁
    have h₂ := hy r h'
    cases hyr : y r h' <;> rw [hyr] at h₂ <;> simp only [hyr] <;> exact Nat.le_trans h₁ h₂
  | error e h' =>
    rw [hxr] at h₁
    have h₂ := hy r h'
    cases hyr : y r h' <;> rw [hyr] at h₂ <;> simp only [hyr] <;> exact Nat.le_trans h₁ h₂

theorem grows_forM {f : α → HeapM Unit} (hf : ∀ a, Grows (f a)) (as : List α) :
    Grows (as.forM f) := by
  induction as with
  | nil => exact grows_pure ()
  | cons a as ih => exact (hf a).bind fun _ => ih

theorem slots_log_size (e : Event) (h : Heap) : (h.log e).slots.size = h.slots.size := by
  rw [log_slots]

theorem grows_markObject (l : Loc) : Grows (markObject l) := by
  apply (grows_view _).bind
  intro o
  apply grows_ite (grows_pure _)
  apply grows_ite ((grows_throw _).bind fun _ => ?_)
  · apply grows_modify
    intro h
    simp only [slots_log_size]
    exact Nat.le_refl _
  · apply grows_modify
    intro h
    simp only [slots_log_size]
    exact Nat.le_refl _

theorem grows_markValue (v : Value) : Grows (markValue v) := by
  apply grows_ite
  · exact (grows_view _).bind grows_markObject
  · exact grows_pure _

theorem grows_markDirect (link : Link) : Grows (markDirect link) := by
  cases link with
  | value v => exact grows_markValue v
  | object l => exact grows_markObject l
  | fields l => exact grows_pure _

theorem grows_mark (link : Link) : Grows (mark link) := by
  cases link with
  | value v => exact grows_markValue v
  | object l => exact grows_markObject l
  | fields l => exact (grows_view _).bind fun i => grows_forM grows_markDirect _

theorem grows_blacken (l : Loc) : Grows (blacken l) := by
  apply (grows_view _).bind
  intro o
  refine (grows_modify fun h => ?_).bind fun _ => grows_forM grows_mark _
  exact Nat.le_of_eq (slots_log_size _ h).symm

theorem grows_traceGray (fuel : Nat) : Grows (traceGray fuel) := by
  induction fuel with
  | zero => exact grows_pure ()
  | succ fuel ih =>
    apply grows_getHeap.bind
    intro h
    cases h.gray with
    | nil => exact grows_pure ()
    | cons l gray => exact (grows_blacken l).bind fun _ => ih

theorem grows_markRoots : Grows markRoots := by
  intro r h
  rw [markRoots_eq]
  exact grows_forM grows_mark _ r h

theorem slots_release_size (l : Loc) (h : Heap) : (h.release l).slots.size = h.slots.size := by
  cases ho : h.objects[l]? with
  | none => simp [release, ho]
  | some o => simp [slots_release ho]

theorem slots_sweepList_size (kept ls : List Loc) (h : Heap) :
    (sweepList kept ls h).slots.size = h.slots.size := by
  induction ls generalizing kept h with
  | nil => rfl
  | cons l ls ih =>
    rw [sweepList]
    split
    · exact ih _ _
    · exact (ih _ _).trans (slots_release_size l h)

theorem grows_runCollection : Grows runCollection := by
  intro r h
  rw [runCollection_eq]
  have h₁ := grows_markRoots r (h.log .gcBegin)
  rw [slots_log_size] at h₁
  cases hm : markRoots r (h.log .gcBegin) with
  | error e h' => rw [hm] at h₁; exact h₁
  | ok u h' =>
    rw [hm] at h₁
    have h₂ := grows_traceGray (h'.gray.length + h'.objects.size) r h'
    simp only []
    cases ht : traceGray (h'.gray.length + h'.objects.size) r h' with
    | error e h'' => rw [ht] at h₂; exact Nat.le_trans h₁ h₂
    | ok u h'' =>
      rw [ht] at h₂
      refine Nat.le_trans h₁ (Nat.le_trans h₂ (Nat.le_of_eq ?_))
      simp only [finalState, settle, slots_log_size]
      exact (slots_sweepList_size [] _ { h'' with
        strings := (h''.strings.retain fun k => h''.isMarked k.loc).2 }).symm

theorem grows_collect : Grows collect := by
  apply grows_getHeap.bind
  intro h
  apply grows_ite (grows_pure _)
  refine Grows.bind (grows_modify fun h => ?_) fun _ => grows_runCollection.tryFinally
    (grows_modify fun h => ?_)
  · exact Nat.le_refl _
  · exact Nat.le_refl _

theorem grows_account (delta : Int) : Grows (account delta) := by
  apply grows_getHeap.bind
  intro h
  have hrest : Grows (do
      modify fun h => { h with bytesAllocated := h.bytesAllocated + delta }
      let h ← getThe Heap
      if 0 < delta ∧ !h.collecting ∧ (h.options.stress ∨ h.nextGc < h.bytesAllocated) then
        let _ ← collect : HeapM Unit) := by
    refine Grows.bind (grows_modify fun h => ?_) fun _ => grows_getHeap.bind fun h => ?_
    · exact Nat.le_refl _
    · exact grows_ite (grows_collect.bind fun _ => grows_pure _) (grows_pure _)
  apply grows_ite ((grows_throw _).bind fun _ => hrest) hrest

theorem grows_hold (v : Value) : Grows (hold v) := by
  refine Grows.bind (grows_modify fun h => ?_) fun _ => grows_getHeap.bind fun _ => grows_pure _
  exact Nat.le_refl _

theorem grows_unhold (depth : Nat) : Grows (unhold depth) := by
  apply grows_getHeap.bind
  intro h
  have hrest : Grows (modify fun h => { h with holds := h.holds.tail } : HeapM Unit) :=
    grows_modify fun h => Nat.le_refl _
  exact grows_ite ((grows_throw _).bind fun _ => hrest) hrest

theorem grows_addRoots (k : RootMarker) : Grows (addRoots k) :=
  grows_modify fun _ => Nat.le_refl _

theorem grows_removeRoots (k : RootMarker) : Grows (removeRoots k) :=
  grows_modify fun _ => Nat.le_refl _

theorem Grows.withRoots {act : HeapM α} (hg : Grows act) (k : RootMarker) (links : List Link) :
    Grows (withRoots k links act) :=
  fun r h => hg (fun j => if j = k then links else r j) h

theorem grows_rooting (marker : Nat → RootMarker) {act : RootMarker → HeapM α} (hg : ∀ k, Grows (act k)) :
    Grows (rooting marker act) :=
  grows_getHeap.bind fun _ => (grows_addRoots _).bind fun _ => (hg _).tryFinally (grows_removeRoots _)

theorem grows_allocate (body : Body) (size : Nat) : Grows (allocate body size) := by
  refine (grows_account size).bind fun _ => grows_modifyGet fun h => ?_
  have := size_takeHandle h.objects.size h
  rw [slots_link]
  split at this <;> omega

theorem grows_reserveString : Grows reserveString := by
  apply grows_getHeap.bind
  intro h
  refine grows_ite ((grows_account _).bind fun _ => grows_modify fun h => ?_) (grows_pure _)
  exact Nat.le_refl _

theorem grows_newString (chars : Bytes) (hash : UInt32) : Grows (newString chars hash) := by
  refine (grows_allocate _ _).bind fun l => (grows_view _).bind fun v => (grows_hold v).bind
    fun depth => grows_reserveString.bind fun _ => Grows.bind (grows_modify fun h => ?_)
      fun _ => (grows_unhold depth).bind fun _ => grows_pure _
  exact Nat.le_refl _

theorem grows_intern (chars : Bytes) : Grows (intern chars) := by
  apply grows_getHeap.bind
  intro h
  cases h.strings.findText? chars chars.hash with
  | some s => exact grows_pure s
  | none => exact grows_newString _ _

theorem grows_updateBody (l : Loc) (f : Body → Body) :
    Grows (modify (·.updateBody l f) : HeapM Unit) :=
  grows_modify fun _ => Nat.le_refl _

end HeapM

end Lox

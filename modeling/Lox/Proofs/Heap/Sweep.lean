import Lox.Heap.Collect

namespace Lox

namespace Object

def unmark (o : Object) : Object :=
  { o with marked := false }

def release (o : Object) : Object :=
  { o with freed := true, body := o.body.emptied }

def sweep (o : Object) : Object :=
  if o.marked then o.unmark else o.release

end Object

namespace Heap

def freedRefs (h : Heap) (ls : List Loc) : List Ref :=
  ls.filterMap fun l => (h.objects[l]?).bind fun o => if o.marked then none else some o.ref

def clearSlots (slots : Array (Option Loc)) (refs : List Ref) : Array (Option Loc) :=
  refs.foldl (fun slots ref => slots.setIfInBounds ref.toNat none) slots

theorem size_clearSlots (slots : Array (Option Loc)) (refs : List Ref) :
    (clearSlots slots refs).size = slots.size := by
  induction refs generalizing slots with
  | nil => rfl
  | cons ref refs ih => exact (ih _).trans (by simp)

theorem getElem?_clearSlots (slots : Array (Option Loc)) (refs : List Ref) (i : Nat)
    (hi : i < slots.size) : (clearSlots slots refs)[i]? =
      if ∃ ref ∈ refs, ref.toNat = i then some none else slots[i]? := by
  induction refs generalizing slots with
  | nil => simp [clearSlots]
  | cons ref refs ih =>
    rw [show clearSlots slots (ref :: refs) = clearSlots (slots.setIfInBounds ref.toNat none) refs
      from rfl, ih _ (by simpa using hi)]
    by_cases hr : ref.toNat = i
    · subst hr
      simp [hi]
    · have hne : (slots.setIfInBounds ref.toNat none)[i]? = slots[i]? := by
        simp [hr]
      simp [hne, hr]

variable {h : Heap} {l : Loc} {o : Object}

theorem objects_update (l k : Loc) (f : Object → Object) :
    (h.update l f).objects[k]? = if k = l then (h.objects[k]?).map f else h.objects[k]? := by
  simp only [update, Array.getElem?_modify]
  by_cases hk : l = k
  · simp [hk]
  · simp [hk, Ne.symm hk]

theorem log_objects (e : Event) : (h.log e).objects = h.objects := by
  unfold log; split <;> rfl

theorem log_slots (e : Event) : (h.log e).slots = h.slots := by
  unfold log; split <;> rfl

theorem log_free (e : Event) : (h.log e).free = h.free := by
  unfold log; split <;> rfl

theorem log_live (e : Event) : (h.log e).live = h.live := by
  unfold log; split <;> rfl

theorem log_strings (e : Event) : (h.log e).strings = h.strings := by
  unfold log; split <;> rfl

theorem log_holds (e : Event) : (h.log e).holds = h.holds := by
  unfold log; split <;> rfl

theorem log_gray (e : Event) : (h.log e).gray = h.gray := by
  unfold log; split <;> rfl

theorem log_closed (e : Event) : (h.log e).closed = h.closed := by
  unfold log; split <;> rfl

theorem log_markers (e : Event) : (h.log e).markers = h.markers := by
  unfold log; split <;> rfl

theorem log_collecting (e : Event) : (h.log e).collecting = h.collecting := by
  unfold log; split <;> rfl

theorem log_options (e : Event) : (h.log e).options = h.options := by
  unfold log; split <;> rfl

theorem release_eq (ho : h.objects[l]? = some o) : h.release l =
    let size := o.size + o.body.ownedBytes
    ({ h with
      bytesAllocated := h.bytesAllocated - size
      bytesFreed := h.bytesFreed + size
      objectsFreed := h.objectsFreed + 1
      liveObjects := h.liveObjects - 1
      slots := h.slots.setIfInBounds o.ref.toNat none
      free := o.ref :: h.free }.update l Object.release).log (.free o.ref o.kind) := by
  simp only [release, ho]
  rfl

theorem objects_release (ho : h.objects[l]? = some o) (k : Loc) : (h.release l).objects[k]? =
    if k = l then (h.objects[k]?).map Object.release else h.objects[k]? := by
  rw [release_eq ho]
  simp only [log_objects, objects_update]

theorem slots_release (ho : h.objects[l]? = some o) :
    (h.release l).slots = h.slots.setIfInBounds o.ref.toNat none := by
  rw [release_eq ho]
  simp only [log_slots]
  rfl

theorem free_release (ho : h.objects[l]? = some o) : (h.release l).free = o.ref :: h.free := by
  rw [release_eq ho]
  simp only [log_free]
  rfl

structure SameFrame (h h' : Heap) : Prop where
  strings : h'.strings = h.strings
  holds : h'.holds = h.holds
  gray : h'.gray = h.gray
  closed : h'.closed = h.closed
  markers : h'.markers = h.markers
  collecting : h'.collecting = h.collecting
  options : h'.options = h.options
  size : h'.objects.size = h.objects.size

theorem SameFrame.trans {h h' h'' : Heap} (h₁ : h.SameFrame h') (h₂ : h'.SameFrame h'') :
    h.SameFrame h'' where
  strings := h₂.strings.trans h₁.strings
  holds := h₂.holds.trans h₁.holds
  gray := h₂.gray.trans h₁.gray
  closed := h₂.closed.trans h₁.closed
  markers := h₂.markers.trans h₁.markers
  collecting := h₂.collecting.trans h₁.collecting
  options := h₂.options.trans h₁.options
  size := h₂.size.trans h₁.size

theorem sameFrame_update (f : Object → Object) : h.SameFrame (h.update l f) :=
  ⟨rfl, rfl, rfl, rfl, rfl, rfl, rfl, by simp [update]⟩

theorem sameFrame_release (ho : h.objects[l]? = some o) : h.SameFrame (h.release l) := by
  rw [release_eq ho]
  constructor <;> simp only [log_strings, log_holds, log_gray, log_closed, log_markers,
    log_collecting,    log_options, log_objects] <;> simp [update]

structure Swept (h h' : Heap) (kept ls : List Loc) : Prop where
  objects : ∀ k, h'.objects[k]? =
    (h.objects[k]?).map fun o => if k ∈ ls then o.sweep else o
  live : h'.live = kept.reverse ++ ls.filter h.isMarked
  slots : h'.slots = clearSlots h.slots (h.freedRefs ls)
  free : h'.free = (h.freedRefs ls).reverse ++ h.free
  frame : h.SameFrame h'

theorem isMarked_congr {h' : Heap} {k : Loc} (hk : h'.objects[k]? = h.objects[k]?) :
    h'.isMarked k = h.isMarked k := by
  simp [isMarked, hk]

theorem freedRefs_congr {h' : Heap} {ls : List Loc}
    (hk : ∀ k ∈ ls, h'.objects[k]? = h.objects[k]?) : h'.freedRefs ls = h.freedRefs ls := by
  induction ls with
  | nil => rfl
  | cons l ls ih =>
    have hl := hk l (by simp)
    have hls := ih fun k hm => hk k (List.mem_cons_of_mem _ hm)
    simp only [freedRefs] at hls
    simp only [freedRefs, List.filterMap_cons, hl, hls]

theorem sweepList_swept (kept ls : List Loc) (h : Heap) (hnd : ls.Nodup)
    (hex : ∀ l ∈ ls, ∃ o, h.objects[l]? = some o) : h.Swept (sweepList kept ls h) kept ls := by
  induction ls generalizing kept h with
  | nil =>
    refine ⟨fun k => ?_, by simp [sweepList], rfl, rfl, ⟨rfl, rfl, rfl, rfl, rfl, rfl, rfl, rfl⟩⟩
    cases hk : h.objects[k]? <;> simp [sweepList, hk]
  | cons l ls ih =>
    obtain ⟨hl, hnd⟩ := List.nodup_cons.mp hnd
    obtain ⟨o, ho⟩ := hex l (by simp)
    have hne : ∀ k ∈ ls, k ≠ l := fun k hk he => hl (he ▸ hk)
    have hobj (f : Object → Object) (h₁ : Heap) (hf : o.sweep = f o)
        (h₁o : ∀ k, h₁.objects[k]? = if k = l then (h.objects[k]?).map f else h.objects[k]?)
        (k : Loc) : ((h₁.objects[k]?).map fun o => if k ∈ ls then o.sweep else o) =
          (h.objects[k]?).map fun o => if k ∈ l :: ls then o.sweep else o := by
      rw [h₁o]
      by_cases hk : k = l
      · subst hk
        simp [ho, hl, hf]
      · simp [hk]
    have hrest (f : Object → Object) (h₁ : Heap)
        (h₁o : ∀ k, h₁.objects[k]? = if k = l then (h.objects[k]?).map f else h.objects[k]?) :
        ∀ k ∈ ls, h₁.objects[k]? = h.objects[k]? := fun k hk => by rw [h₁o, if_neg (hne k hk)]
    cases hm : o.marked with
    | true =>
      have hmark : h.isMarked l = true := by simp [isMarked, ho, hm]
      have h₁o := fun k => objects_update (h := h) l k Object.unmark
      have hr := hrest _ _ h₁o
      have hstep : sweepList kept (l :: ls) h =
          sweepList (l :: kept) ls (h.update l Object.unmark) := by
        rw [sweepList, if_pos hmark]
        rfl
      rw [hstep]
      have := ih (l :: kept) (h.update l Object.unmark) hnd fun k hk => by
        obtain ⟨o', ho'⟩ := hex k (List.mem_cons_of_mem _ hk)
        exact ⟨o', (hr k hk).trans ho'⟩
      refine ⟨fun k => ?_, ?_, ?_, ?_, (sameFrame_update _).trans this.frame⟩
      · rw [this.objects]
        exact hobj Object.unmark _ (by simp [Object.sweep, hm]) h₁o k
      · rw [this.live, List.filter_cons, if_pos hmark,
          List.filter_congr fun k hk => isMarked_congr (hr k hk)]
        simp
      · rw [this.slots, freedRefs_congr hr]
        simp only [freedRefs, List.filterMap_cons, ho, Option.bind_some, hm, ↓reduceIte]
        rfl
      · rw [this.free, freedRefs_congr hr]
        simp only [freedRefs, List.filterMap_cons, ho, Option.bind_some, hm, ↓reduceIte]
        rfl
    | false =>
      have hmark : ¬ h.isMarked l = true := by simp [isMarked, ho, hm]
      have h₁o := objects_release ho
      have hr := hrest _ _ h₁o
      rw [sweepList, if_neg hmark]
      have := ih kept (h.release l) hnd fun k hk => by
        obtain ⟨o', ho'⟩ := hex k (List.mem_cons_of_mem _ hk)
        exact ⟨o', (hr k hk).trans ho'⟩
      have hrefs : h.freedRefs (l :: ls) = o.ref :: h.freedRefs ls := by
        simp [freedRefs, ho, hm]
      refine ⟨fun k => ?_, ?_, ?_, ?_, (sameFrame_release ho).trans this.frame⟩
      · rw [this.objects]
        exact hobj Object.release _ (by simp [Object.sweep, hm]) h₁o k
      · rw [this.live, List.filter_cons, if_neg hmark,
          List.filter_congr fun k hk => isMarked_congr (hr k hk)]
      · rw [this.slots, freedRefs_congr hr, hrefs, slots_release ho]
        rfl
      · rw [this.free, freedRefs_congr hr, hrefs, free_release ho]
        simp

end Heap

end Lox

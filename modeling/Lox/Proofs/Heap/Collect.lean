import Lox.Proofs.Heap.Consistent

namespace Lox

namespace Heap

variable {h h' : Heap}

theorem withMarks_unmarked (hc : h.Consistent) (events : List Event) :
    h.busy.withMarks (fun _ => false) [] events = { h.busy with events } := by
  have ho : h.objects.mapIdx (fun _ o => { o with marked := false }) = h.objects := by
    apply Array.ext_getElem?
    intro l
    rw [Array.getElem?_mapIdx]
    cases hl : h.objects[l]? with
    | none => rfl
    | some o =>
      have := hc.unmarked l o hl
      obtain ⟨ref, size, marked, freed, body⟩ := o
      simp only at this
      simp [this]
  have hg := hc.gray
  simp only [withMarks, busy, ho, ← hg]

theorem log_eq (e : Event) (h : Heap) :
    h.log e = { h with events := if h.options.trace then e :: h.events else h.events } := by
  unfold log
  split <;> rfl

end Heap

namespace HeapM

open Heap HeapView

variable {h h' : Heap} (r : Roots)

theorem forM_append {f : Link → HeapM Unit} (ks ls : List Link) (h : Heap) :
    ((ks ++ ls).forM f) r h = match ks.forM f r h with
      | .ok _ h => ls.forM f r h
      | .error e h => .error e h := by
  induction ks generalizing h with
  | nil => rfl
  | cons k ks ih =>
    rw [List.cons_append, run_forM_cons, run_forM_cons]
    cases f k r h with
    | ok _ h => exact ih h
    | error e h => rfl

theorem forM_markValue (vs : List Value) : vs.forM markValue = (vs.map Link.value).forM mark := by
  induction vs with
  | nil => rfl
  | cons v vs ih =>
    show (markValue v >>= fun _ => vs.forM markValue) =
      mark (.value v) >>= fun _ => (vs.map Link.value).forM mark
    rw [ih]
    rfl

theorem markRoots_eq (h : Heap) : markRoots r h = (h.origins r).forM mark r h := by
  simp only [markRoots, run_bind, run_getHeap, forM_markValue, origins, forM_append,
    List.map_reverse]
  cases ((h.holds.map Link.value).reverse.forM mark) r h with
  | error e h' => rfl
  | ok u h' => rfl

def sweptHeap (h : Heap) : Heap :=
  { h with strings := (h.strings.retain fun k => h.isMarked k.loc).2 }.sweep

def settle (before : Int) (h : Heap) : Heap :=
  { h with nextGc := h.threshold, collections := h.collections + 1 }.log
    (.gcEnd before h.bytesAllocated h.threshold)

def report (before marked after : Heap) : Collected where
  bytesBefore := before.bytesAllocated
  bytesAfter := after.bytesAllocated
  objectsFreed := after.objectsFreed - before.objectsFreed
  stringsFreed := (marked.strings.retain fun k => marked.isMarked k.loc).1
  next := after.nextGc

theorem runCollection_eq (h : Heap) : runCollection r h =
    match markRoots r (h.log .gcBegin) with
    | .error e h' => .error e h'
    | .ok _ h₁ => match traceGray (h₁.gray.length + h₁.objects.size) r h₁ with
      | .error e h' => .error e h'
      | .ok _ h₂ =>
        .ok (report h h₂ (settle h.bytesAllocated (sweptHeap h₂)))
          (settle h.bytesAllocated (sweptHeap h₂)) := by
  simp only [runCollection, run_bind, run_getHeap, run_modify]
  cases markRoots r (h.log .gcBegin) with
  | error e h' => rfl
  | ok u h₁ =>
    simp only []
    cases traceGray (h₁.gray.length + h₁.objects.size) r h₁ with
    | error e h' => rfl
    | ok u h₂ => rfl

theorem collect_eq (h : Heap) (hc : h.collecting = false) : collect r h =
    match runCollection r h.busy with
    | .ok c h' => .ok c { h' with collecting := false }
    | .error e h' => .error e { h' with collecting := false } := by
  simp only [collect, run_bind, run_getHeap, run_ite, hc]
  simp only [Bool.false_eq_true, ↓reduceIte, run_modify]
  rw [run_finally]
  simp only [run_modify, busy]
  generalize runCollection r _ = x
  cases x <;> rfl

theorem collect_busy (h : Heap) (hc : h.collecting = true) :
    collect r h = .ok .nothing h := by
  simp only [collect, run_bind, run_getHeap, run_ite, hc]
  rfl

section Result

variable (hc : h.Consistent)

include hc

theorem busy_log : (h.busy.log .gcBegin) = h.busy.withMarks (fun _ => false) []
    (if h.options.trace then .gcBegin :: h.events else h.events) := by
  rw [withMarks_unmarked hc, log_eq]
  rfl

theorem swept_sweptHeap (marks : Loc → Bool) (events : List Event) :
    (h.marked marks events
      (h.strings.retain fun k => (h.busy.withMarks marks [] events).isMarked k.loc).2).Swept
        (sweptHeap (h.busy.withMarks marks [] events)) [] h.live := by
  apply sweepList_swept [] h.live _ hc.nodup
  intro l hl
  obtain ⟨o, ho, -⟩ := (hc.live l).mp hl
  exact ⟨_, by rw [objects_marked]; show (h.objects[l]?).map _ = _; rw [ho]; rfl⟩

theorem collection_of_marks {roots : List Link} {marks : Loc → Bool} (events : List Event)
    (before : Int) (hm : ∀ l, marks l = true ↔ h.Reach roots l)
    (ha : ∀ l, marks l = true → h.Alive l) : h.Collection roots
      { settle before (sweptHeap (h.busy.withMarks marks [] events)) with collecting := false } := by
  have hs := swept_sweptHeap hc marks events
  have hkeep : ∀ k v, h.strings.Binds k v →
      (h.busy.withMarks marks [] events).isMarked k.loc = marks k.loc := by
    intro k v hb
    obtain ⟨o, ho, -⟩ := hc.interned k v hb
    exact isMarked_withMarks ho
  obtain ⟨hst, hbind⟩ := Table.retain_spec hc.strings fun k =>
    (h.busy.withMarks marks [] events).isMarked k.loc
  have hcon := consistent_sweep hc ha hs hst fun k v hb => by
    obtain ⟨hk, hb⟩ := (hbind k v).mp hb
    exact ⟨hb, hkeep k v hb ▸ hk⟩
  have hsame : SameStore { sweptHeap (h.busy.withMarks marks [] events) with collecting := false }
      { settle before (sweptHeap (h.busy.withMarks marks [] events)) with collecting := false } := by
    rw [settle, log_eq]
    exact ⟨rfl, rfl, rfl, rfl, rfl, rfl, rfl⟩
  have hset := log_eq (.gcEnd before (sweptHeap (h.busy.withMarks marks [] events)).bytesAllocated
    (sweptHeap (h.busy.withMarks marks [] events)).threshold)
    { sweptHeap (h.busy.withMarks marks [] events) with
      nextGc := (sweptHeap (h.busy.withMarks marks [] events)).threshold
      collections := (sweptHeap (h.busy.withMarks marks [] events)).collections + 1 }
  exact
    { kept := fun l hl => by
        rw [hsame.objects]
        by_cases hal : h.Alive l
        · obtain ⟨o, ho, hf⟩ := hal
          have hmark := (hm l).mpr (hl.resolve_right fun hn => hn ⟨o, ho, hf⟩)
          rw [ho]
          exact (objects_sweep hc hs ho hf).trans (by rw [if_pos hmark])
        · exact objects_sweep_freed hc ha hs hal
      freed := fun l hl ⟨o, ho, hf⟩ => by
        rw [hsame.objects, ho]
        have hmark : ¬ marks l = true := fun hmark => hl ((hm l).mp hmark)
        exact (objects_sweep hc hs ho hf).trans (by rw [if_neg hmark]; rfl)
      names := fun i l => by
        rw [hsame.slots, ← hm]
        exact slots_sweep hc hs i l
      strings := fun k v => by
        have hstr : (sweptHeap (h.busy.withMarks marks [] events)).strings = _ := hs.frame.strings
        rw [hsame.strings, ← hm]
        show (sweptHeap (h.busy.withMarks marks [] events)).strings.Binds k v ↔ _
        rw [hstr]
        refine (hbind k v).trans ⟨fun ⟨hk, hb⟩ => ⟨hb, hkeep k v hb ▸ hk⟩,
          fun ⟨hb, hk⟩ => ⟨(hkeep k v hb).trans hk, hb⟩⟩
      consistent := hcon.congr hsame
      holds := by rw [settle, hset]; exact hs.frame.holds
      closed := by rw [settle, hset]; exact hs.frame.closed
      markers := by rw [settle, hset]; exact hs.frame.markers
      options := by rw [settle, hset]; exact hs.frame.options
      size := by
        rw [hsame.objects]
        exact hs.frame.size.trans (by simp [marked, withMarks, busy])
      handles := by
        rw [hsame.slots]
        exact (congrArg Array.size hs.slots).trans (size_clearSlots _ _)
      capacity := by
        have hstr : (sweptHeap (h.busy.withMarks marks [] events)).strings = _ := hs.frame.strings
        rw [hsame.strings]
        show (sweptHeap (h.busy.withMarks marks [] events)).strings.capacity = _
        rw [hstr]
        simp [marked, Table.retain, Table.capacity] }

omit hc in
theorem reach_busy {roots : List Link} {l : Loc} : h.busy.Reach roots l ↔ h.Reach roots l :=
  ⟨Reach.congr (show h.objects = h.busy.objects from rfl) rfl,
    Reach.congr (show h.busy.objects = h.objects from rfl) rfl⟩

omit hc in
theorem intact_busy {roots : List Link} : h.busy.Intact roots ↔ h.Intact roots :=
  ⟨Intact.congr (show h.objects = h.busy.objects from rfl) rfl,
    Intact.congr (show h.busy.objects = h.objects from rfl) rfl⟩

theorem collect_marks (hi : h.Intact (h.origins r)) : ∃ c marks events,
    collect r h = .ok c { settle h.bytesAllocated
      (sweptHeap (h.busy.withMarks marks [] events)) with collecting := false } ∧
    (∀ l, marks l = true ↔ h.Reach (h.origins r) l) ∧ ∀ l, marks l = true → h.Alive l := by
  have hi' := intact_busy.mpr hi
  obtain ⟨marks, gray, events, he, ht, hpot⟩ := forM_mark_origins r
    (if h.options.trace then .gcBegin :: h.events else h.events) hi'.origin
  have hmark : markRoots r (h.busy.log .gcBegin) = .ok () (h.busy.withMarks marks gray events) := by
    rw [busy_log hc, markRoots_eq]
    exact he
  have hsize : (h.busy.withMarks marks gray events).objects.size = h.busy.objects.size := by
    simp [withMarks]
  obtain ⟨marks', events', hrun, ht'⟩ := Tracing.run r hi'
    ((h.busy.withMarks marks gray events).gray.length +
      (h.busy.withMarks marks gray events).objects.size) marks gray events ht
    (by rw [hsize, gray_withMarks]; omega)
  have hm : ∀ l, marks' l = true ↔ h.Reach (h.origins r) l := fun l =>
    (ht'.marks_iff l).trans reach_busy
  have ha : ∀ l, marks' l = true → h.Alive l := fun l hl =>
    (ht'.alive l hl).congr (show h.objects = h.busy.objects from rfl)
  refine ⟨report h.busy (h.busy.withMarks marks' [] events')
      (settle h.bytesAllocated (sweptHeap (h.busy.withMarks marks' [] events'))), marks', events',
    ?_, hm, ha⟩
  rw [collect_eq r h hc.idle, runCollection_eq, hmark]
  simp only [hrun]
  rfl

theorem collect_ok (hi : h.Intact (h.origins r)) :
    ∃ c h', collect r h = .ok c h' ∧ h.Collection (h.origins r) h' := by
  obtain ⟨c, marks, events, hrun, hm, ha⟩ := collect_marks r hc hi
  exact ⟨c, _, hrun, collection_of_marks hc events h.bytesAllocated hm ha⟩

theorem intact_of_collect {c : Collected} (hrun : collect r h = .ok c h') :
    h.Intact (h.origins r) := by
  rw [collect_eq r h hc.idle, runCollection_eq, busy_log hc, markRoots_eq] at hrun
  by_cases hv : ∀ link ∈ h.origins r, h.busy.Valid link
  · obtain ⟨marks, gray, events, he, ht, hpot⟩ := forM_mark_origins r
      (if h.options.trace then .gcBegin :: h.events else h.events) hv
    have hsize : (h.busy.withMarks marks gray events).objects.size = h.busy.objects.size := by
      simp [withMarks]
    rw [show ((h.busy.withMarks (fun _ => false) [] _).origins r).forM mark r _ = _ from he] at hrun
    simp only [] at hrun
    generalize htr : traceGray ((h.busy.withMarks marks gray events).gray.length +
      (h.busy.withMarks marks gray events).objects.size) r
        (h.busy.withMarks marks gray events) = x at hrun
    cases x with
    | error e h' => cases hrun
    | ok u h₂ =>
      exact intact_busy.mp (Tracing.intact_of_run r _ marks gray events ht
        (by rw [hsize, gray_withMarks]; omega) htr)
  · have herr : ∃ e h₁, (h.origins r).forM mark r (h.busy.withMarks (fun _ => false) []
        (if h.options.trace then .gcBegin :: h.events else h.events)) = .error e h₁ :=
      forM_mark_error r (fun link _ m g e hm hv => mark_error r hm hv) (by simp) hv [] _
    obtain ⟨e, h₁, he⟩ := herr
    rw [show ((h.busy.withMarks (fun _ => false) [] _).origins r).forM mark r _ = _ from he] at hrun
    cases hrun

end Result

end HeapM

end Lox

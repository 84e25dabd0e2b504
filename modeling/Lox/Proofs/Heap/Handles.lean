import Lox.Proofs.Heap.Reachable

namespace Lox

namespace Heap

variable {h h' h'' : Heap}

/-- The list of live objects is in order, and no handle is lost. -/
structure Orderly (h : Heap) : Prop where
  newest_first : h.live.Pairwise (· > ·)
  below : ∀ l ∈ h.live, l < h.objects.size
  spare : ∀ i : Nat, h.slots[i]? = some none → i = 0 ∨ ∃ ref ∈ h.free, ref.toNat = i

structure Tidies (h h' : Heap) : Prop where
  orderly : h.Orderly → h'.Orderly
  refs : ∀ (l : Loc) (o : Object), h.objects[l]? = some o →
    ∃ o', h'.objects[l]? = some o' ∧ o'.ref = o.ref

theorem Tidies.refl (h : Heap) : h.Tidies h :=
  ⟨id, fun _ o ho => ⟨o, ho, rfl⟩⟩

theorem Tidies.trans (h₁ : h.Tidies h') (h₂ : h'.Tidies h'') : h.Tidies h'' where
  orderly := h₂.orderly ∘ h₁.orderly
  refs l o ho := by
    obtain ⟨o', ho', hr⟩ := h₁.refs l o ho
    obtain ⟨o'', ho'', hr'⟩ := h₂.refs l o' ho'
    exact ⟨o'', ho'', hr'.trans hr⟩

theorem Tidies.of_eq (ho : h'.objects = h.objects) (hs : h'.slots = h.slots) (hf : h'.free = h.free)
    (hl : h'.live = h.live) : h.Tidies h' where
  orderly hh :=
    { newest_first := by rw [hl]; exact hh.newest_first
      below := by rw [hl, ho]; exact hh.below
      spare := by rw [hs, hf]; exact hh.spare }
  refs l o hlo := ⟨o, by rw [ho]; exact hlo, rfl⟩

theorem tidies_log (e : Event) : h.Tidies (h.log e) :=
  .of_eq (log_objects e) (log_slots e) (log_free e) (log_live e)

theorem tidies_update (l : Loc) {f : Object → Object} (hf : ∀ o, (f o).ref = o.ref) :
    h.Tidies (h.update l f) where
  orderly hh :=
    { newest_first := hh.newest_first
      below := fun k hk => by
        rw [update, Array.size_modify]
        exact hh.below k hk
      spare := hh.spare }
  refs k o ho := by
    rw [objects_update, ho]
    split
    · exact ⟨f o, rfl, hf o⟩
    · exact ⟨o, rfl, rfl⟩

theorem tidies_release (l : Loc) : h.Tidies (h.release l) := by
  cases ho : h.objects[l]? with
  | none =>
    rw [release, ho]
    exact .refl h
  | some p =>
    have hlive : (h.release l).live = h.live := by
      rw [release_eq ho, log_live]
      rfl
    have hsize := (sameFrame_release ho).size
    constructor
    · intro hh
      refine ⟨by rw [hlive]; exact hh.newest_first, by rw [hlive, hsize]; exact hh.below, fun i hi => ?_⟩
      rw [slots_release ho, Array.getElem?_setIfInBounds] at hi
      rw [free_release ho]
      by_cases hp : p.ref.toNat = i
      · exact .inr ⟨p.ref, by simp, hp⟩
      · rw [if_neg hp] at hi
        rcases hh.spare i hi with h0 | ⟨ref, hm, hr⟩
        · exact .inl h0
        · exact .inr ⟨ref, List.mem_cons_of_mem _ hm, hr⟩
    · intro k o hk
      rw [objects_release ho, hk]
      split
      · exact ⟨o.release, rfl, rfl⟩
      · exact ⟨o, rfl, rfl⟩

theorem orderly_setLive {live : List Loc} (hh : h.Orderly) (hs : live.Sublist h.live) :
    Orderly { h with live } where
  newest_first := hh.newest_first.sublist hs
  below l hl := hh.below l (hs.subset hl)
  spare := hh.spare

theorem tidies_sweepList (kept ls : List Loc) (hs : (kept.reverse ++ ls).Sublist h.live) :
    h.Tidies (sweepList kept ls h) := by
  induction ls generalizing kept h with
  | nil =>
    rw [List.append_nil] at hs
    exact ⟨fun hh => orderly_setLive hh hs, fun _ o ho => ⟨o, ho, rfl⟩⟩
  | cons l ls ih =>
    rw [sweepList]
    split
    · refine (tidies_update l (f := fun o => { o with marked := false }) fun _ => rfl).trans (ih _ ?_)
      rw [List.reverse_cons, List.append_assoc]
      exact hs
    · have hlive : (h.release l).live = h.live := by
        cases ho : h.objects[l]? with
        | none => rw [release, ho]
        | some p =>
          rw [release_eq ho, log_live]
          rfl
      refine (tidies_release l).trans (ih _ ?_)
      rw [hlive]
      exact ((List.sublist_cons_self l ls).append_left _).trans hs

theorem tidies_link (body : Body) (size : Nat) : h.Tidies (h.link body size).2 where
  orderly hh :=
    { newest_first := by
        rw [live_link]
        exact List.pairwise_cons.mpr ⟨hh.below, hh.newest_first⟩
      below := fun l hl => by
        rw [live_link] at hl
        rw [objects_link, Array.size_push]
        rcases List.mem_cons.mp hl with rfl | hl
        · exact Nat.lt_succ_self _
        · exact Nat.lt_succ_of_lt (hh.below l hl)
      spare := fun i hi => by
        rw [slots_link] at hi
        rw [free_link]
        unfold takeHandle at hi ⊢
        cases hf : h.free with
        | nil =>
          rw [hf, Array.getElem?_push] at hi
          by_cases hlast : i = h.slots.size
          · simp [hlast] at hi
          · rw [if_neg hlast] at hi
            rcases hh.spare i hi with h0 | ⟨ref, hm, -⟩
            · exact .inl h0
            · rw [hf] at hm
              cases hm
        | cons ref rest =>
          rw [hf, Array.getElem?_setIfInBounds] at hi
          by_cases hr : ref.toNat = i
          · rw [if_pos hr] at hi
            split at hi <;> cases hi
          · rw [if_neg hr] at hi
            rcases hh.spare i hi with h0 | ⟨ref', hm, hr'⟩
            · exact .inl h0
            · rw [hf] at hm
              rcases List.mem_cons.mp hm with rfl | hm
              · exact absurd hr' hr
              · exact .inr ⟨ref', hm, hr'⟩ }
  refs l o ho := by
    refine ⟨o, ?_, rfl⟩
    rw [objects_link, Array.getElem?_push, if_neg (Nat.ne_of_lt (Array.getElem?_eq_some_iff.mp ho).1)]
    exact ho

end Heap

namespace HeapM

open Heap HeapView

variable {α β : Type}

class Tidy (act : HeapM α) : Prop where
  tidies : ∀ r (h : Heap), h.Tidies (finalState (act r h))

namespace Tidy

theorem bind {x : HeapM α} {f : α → HeapM β} [hx : Tidy x] (hf : ∀ a, Tidy (f a)) : Tidy (x >>= f) where
  tidies r h := by
    have h₁ := hx.tidies r h
    rw [run_bind]
    cases hxr : x r h with
    | error e h' =>
      rw [hxr] at h₁
      exact h₁
    | ok a h' =>
      rw [hxr] at h₁
      exact h₁.trans ((hf a).tidies r h')

instance {x : HeapM α} {f : α → HeapM β} [Tidy x] [hf : ∀ a, Tidy (f a)] : Tidy (x >>= f) :=
  bind hf

instance (a : α) : Tidy (pure a : HeapM α) := ⟨fun _ h => .refl h⟩

instance (e : Fault) : Tidy (throw e : HeapM α) := ⟨fun _ h => .refl h⟩

instance : Tidy (getThe Heap : HeapM Heap) := ⟨fun _ h => .refl h⟩

instance (view : HeapView α) : Tidy (liftM view : HeapM α) where
  tidies r h := by
    rw [run_view]
    cases view h <;> exact .refl h

instance {c : Prop} [Decidable c] {x y : HeapM α} [hx : Tidy x] [hy : Tidy y] :
    Tidy (if c then x else y) := by
  split
  · exact hx
  · exact hy

instance {x : HeapM α} {y : HeapM β} [hx : Tidy x] [hy : Tidy y] : Tidy (tryFinally x y) where
  tidies r h := by
    have h₁ := hx.tidies r h
    rw [run_finally]
    cases hxr : x r h with
    | ok a h' =>
      rw [hxr] at h₁
      have h₂ := h₁.trans (hy.tidies r h')
      cases hyr : y r h' <;> rw [hyr] at h₂ <;> simp only [hyr] <;> exact h₂
    | error e h' =>
      rw [hxr] at h₁
      have h₂ := h₁.trans (hy.tidies r h')
      cases hyr : y r h' <;> rw [hyr] at h₂ <;> simp only [hyr] <;> exact h₂

instance {f : α → HeapM Unit} [hf : ∀ a, Tidy (f a)] (as : List α) : Tidy (as.forM f) := by
  induction as with
  | nil => exact inferInstanceAs (Tidy (pure ()))
  | cons a as ih => exact inferInstanceAs (Tidy (do f a; as.forM f))

theorem change {f : Heap → Heap} (hf : ∀ h : Heap, h.Tidies (f h)) : Tidy (modify f : HeapM Unit) :=
  ⟨fun _ h => hf h⟩

theorem other {f : Heap → Heap} (ho : ∀ h, (f h).objects = h.objects)
    (hs : ∀ h, (f h).slots = h.slots) (hf : ∀ h, (f h).free = h.free)
    (hl : ∀ h, (f h).live = h.live) : Tidy (modify f : HeapM Unit) :=
  change fun h => .of_eq (ho h) (hs h) (hf h) (hl h)

instance (l : Loc) : Tidy (markObject l) := by
  have hmark (o : Object) : Tidy (modify fun h : Heap =>
      let h := h.update l fun o => { o with marked := true }
      let h := h.log (.mark o.ref o.kind)
      { h with gray := l :: h.gray } : HeapM Unit) :=
    change fun h => by
      refine .trans ((tidies_update l (f := fun o => { o with marked := true }) fun _ => rfl).trans
        (tidies_log (.mark o.ref o.kind))) ?_
      exact .of_eq rfl rfl rfl rfl
  unfold markObject
  dsimp only at hmark ⊢
  infer_instance

instance (v : Value) : Tidy (markValue v) := by
  unfold markValue
  infer_instance

instance (link : Link) : Tidy (markDirect link) := by
  cases link with
  | value v => exact inferInstanceAs (Tidy (markValue v))
  | object l => exact inferInstanceAs (Tidy (markObject l))
  | fields l => exact inferInstanceAs (Tidy (pure ()))

instance (link : Link) : Tidy (mark link) := by
  cases link with
  | fields l =>
    unfold mark markFields
    infer_instance
  | value v => exact inferInstanceAs (Tidy (markDirect (.value v)))
  | object l => exact inferInstanceAs (Tidy (markDirect (.object l)))

instance (l : Loc) : Tidy (blacken l) := by
  have hlog (o : Object) : Tidy (modify fun h : Heap =>
      { h.log (.blacken o.ref o.kind) with gray := h.gray.tail } : HeapM Unit) :=
    change fun h => (tidies_log _).trans (.of_eq rfl rfl rfl rfl)
  unfold blacken
  infer_instance

instance (fuel : Nat) : Tidy (traceGray fuel) := by
  induction fuel with
  | zero => exact inferInstanceAs (Tidy (pure ()))
  | succ fuel ih =>
    unfold traceGray
    refine .bind fun h => ?_
    split <;> infer_instance

instance : Tidy markRoots where
  tidies r h := by
    rw [markRoots_eq]
    exact tidies r h

theorem tidies_settle (before : Int) (h : Heap) : h.Tidies (settle before (sweptHeap h)) := by
  have hretain : h.Tidies { h with strings := (h.strings.retain fun k => h.isMarked k.loc).2 } :=
    .of_eq rfl rfl rfl rfl
  have hsweep : h.Tidies (sweptHeap h) :=
    hretain.trans (tidies_sweepList [] _ (List.Sublist.refl _))
  have hcount : (sweptHeap h).Tidies { sweptHeap h with
      nextGc := (sweptHeap h).threshold, collections := (sweptHeap h).collections + 1 } :=
    .of_eq rfl rfl rfl rfl
  exact hsweep.trans (hcount.trans (tidies_log _))

instance : Tidy runCollection where
  tidies r h := by
    have h₁ := (inferInstance : Tidy markRoots).tidies r (h.log .gcBegin)
    rw [runCollection_eq]
    cases hm : markRoots r (h.log .gcBegin) with
    | error e h' =>
      rw [hm] at h₁
      exact (tidies_log _).trans h₁
    | ok u h' =>
      rw [hm] at h₁
      have h₂ := ((tidies_log _).trans h₁).trans
        ((inferInstance : Tidy (traceGray (h'.gray.length + h'.objects.size))).tidies r h')
      simp only []
      cases ht : traceGray (h'.gray.length + h'.objects.size) r h' with
      | error e h'' =>
        rw [ht] at h₂
        exact h₂
      | ok u h'' =>
        rw [ht] at h₂
        exact h₂.trans (tidies_settle _ h'')

instance : Tidy collect := by
  have hbegin : Tidy (modify fun h : Heap => { h with collecting := true } : HeapM Unit) :=
    other (fun _ => rfl) (fun _ => rfl) (fun _ => rfl) fun _ => rfl
  have hend : Tidy (modify fun h : Heap => { h with collecting := false } : HeapM Unit) :=
    other (fun _ => rfl) (fun _ => rfl) (fun _ => rfl) fun _ => rfl
  unfold collect
  infer_instance

instance (delta : Int) : Tidy (account delta) := by
  have hcharge : Tidy (modify fun h : Heap => { h with bytesAllocated := h.bytesAllocated + delta } :
      HeapM Unit) := other (fun _ => rfl) (fun _ => rfl) (fun _ => rfl) fun _ => rfl
  unfold account
  refine .bind fun h => ?_
  dsimp only
  split <;> infer_instance

instance (v : Value) : Tidy (hold v) := by
  have hpush : Tidy (modify fun h : Heap => { h with holds := v :: h.holds } : HeapM Unit) :=
    other (fun _ => rfl) (fun _ => rfl) (fun _ => rfl) fun _ => rfl
  unfold hold
  infer_instance

instance (k : RootMarker) : Tidy (addRoots k) :=
  other (fun _ => rfl) (fun _ => rfl) (fun _ => rfl) fun _ => rfl

instance (k : RootMarker) : Tidy (removeRoots k) :=
  other (fun _ => rfl) (fun _ => rfl) (fun _ => rfl) fun _ => rfl

instance (depth : Nat) : Tidy (unhold depth) := by
  have hpop : Tidy (modify fun h : Heap => { h with holds := h.holds.tail } : HeapM Unit) :=
    other (fun _ => rfl) (fun _ => rfl) (fun _ => rfl) fun _ => rfl
  unfold unhold
  dsimp only
  infer_instance

instance (body : Body) (size : Nat) : Tidy (allocate body size) := by
  have hlink : Tidy (modifyGet (·.link body size) : HeapM Loc) := ⟨fun _ _ => tidies_link body size⟩
  unfold allocate
  infer_instance

instance : Tidy reserveString := by
  have hgrow (capacity : Nat) : Tidy (modify fun h : Heap => { h with
      strings := h.strings.growTo capacity } : HeapM Unit) :=
    other (fun _ => rfl) (fun _ => rfl) (fun _ => rfl) fun _ => rfl
  unfold reserveString
  dsimp only
  infer_instance

instance (chars : Bytes) (hash : UInt32) : Tidy (newString chars hash) := by
  have hinsert (l : Loc) : Tidy (modify fun h : Heap => { h with
      strings := (h.strings.insert ⟨l, chars, hash⟩ .nil).2 } : HeapM Unit) :=
    other (fun _ => rfl) (fun _ => rfl) (fun _ => rfl) fun _ => rfl
  unfold newString
  infer_instance

instance (chars : Bytes) : Tidy (intern chars) := by
  unfold intern
  refine .bind fun h => ?_
  split <;> infer_instance

instance (function : Loc) : Tidy (newClosure function) := by
  unfold newClosure
  dsimp only
  infer_instance

instance (l : Loc) (f : Body → Body) : Tidy (modify (·.updateBody l f) : HeapM Unit) :=
  change fun _ => tidies_update l fun _ => rfl

instance (l : Loc) (f : Chunk → Chunk) : Tidy (modifyChunk l f) := by
  unfold modifyChunk modifyFunction
  infer_instance

instance (l : Loc) (f : Table → Table) : Tidy (modifyTable l f) := by
  unfold modifyTable
  infer_instance

instance (l : Loc) (b : UInt8) (line : Int) : Tidy (writeByte l b line) := by
  have hlines : Tidy (do
      let chunk := (← functionAt l).chunk
      if chunk.lines.isFull then
        let old := chunk.lines.capacity
        account ((nextCapacity old - old : Nat) * 8)
        modifyChunk l fun ⟨code, lines, constants⟩ =>
          ⟨code, lines.growTo (nextCapacity old), constants⟩
      modifyChunk l fun ⟨code, lines, constants⟩ => ⟨code, lines.push line, constants⟩ : HeapM Unit) := by
    dsimp only
    infer_instance
  unfold writeByte
  refine .bind fun f => ?_
  dsimp only at hlines ⊢
  split <;> infer_instance

instance (l : Loc) (offset : Nat) (b : UInt8) : Tidy (patchByte l offset b) := by
  unfold patchByte
  dsimp only
  infer_instance

instance (l : Loc) (v : Value) : Tidy (addConstant l v) := by
  unfold addConstant pushConstant
  dsimp only
  infer_instance

instance (l : Loc) (key : Symbol) (v : Value) : Tidy (setEntry l key v) := by
  unfold setEntry
  dsimp only
  infer_instance

instance (source target : Loc) (i left : Nat) : Tidy (copyEntries source target i left) := by
  induction left generalizing i with
  | zero => exact inferInstanceAs (Tidy (pure ()))
  | succ left ih =>
    unfold copyEntries
    refine .bind fun t => ?_
    split
    · infer_instance
    · dsimp only
      split <;> infer_instance

end Tidy

theorem Operation.tidy {act : HeapM α} (ho : Operation act) : Tidy act := by
  cases ho with
  | newFunction => exact inferInstanceAs (Tidy (allocate _ _))
  | newNative n => exact inferInstanceAs (Tidy (allocate _ _))
  | newUpvalue slot => exact inferInstanceAs (Tidy (allocate _ _))
  | newClass name => exact inferInstanceAs (Tidy (allocate _ _))
  | newInstance class_ => exact inferInstanceAs (Tidy (allocate _ _))
  | newBoundMethod receiver method => exact inferInstanceAs (Tidy (allocate _ _))
  | inheritEntries source target =>
    exact inferInstanceAs (Tidy (do copyEntries source target 0 (← tableOf source).entries.size))
  | _ => infer_instance

end HeapM

namespace Heap

open HeapM

variable {h h' : Heap}

theorem orderly_new (options : GcOptions) : (new options).Orderly where
  newest_first := List.Pairwise.nil
  below := nofun
  spare i hi := by
    cases i with
    | zero => exact .inl rfl
    | succ i => simp [new] at hi

theorem Orderly.dispose (hh : h.Orderly) : h.dispose.Orderly := by
  unfold Heap.dispose
  split
  · exact hh
  · refine ⟨List.Pairwise.nil, nofun, fun i hi => ?_⟩
    cases i with
    | zero => exact .inl rfl
    | succ i => simp at hi

theorem refs_dispose {l : Loc} {o : Object} (hs : h.Sound) (ho : h.objects[l]? = some o) :
    ∃ o', h.dispose.objects[l]? = some o' ∧ o'.ref = o.ref := by
  cases hcl : h.closed with
  | true =>
    rw [Heap.dispose, if_pos hcl]
    exact ⟨o, ho, rfl⟩
  | false =>
    rw [hs.consistent.objects_dispose hcl, ho]
    refine ⟨_, rfl, ?_⟩
    split
    · show o.sweep.ref = o.ref
      unfold Object.sweep
      split <;> rfl
    · rfl

theorem Reachable.orderly (hr : Reachable h) : h.Orderly := by
  induction hr with
  | new options => exact orderly_new options
  | @step α act h h' a _ ho roots hrun _ ih =>
    have ht := ho.tidy.tidies roots h
    rw [hrun] at ht
    exact ht.orderly ih
  | dispose _ ih => exact ih.dispose

theorem Later.refs (hl : h.Later h') (hr : Reachable h) {l : Loc} {o : Object}
    (ho : h.objects[l]? = some o) : ∃ o', h'.objects[l]? = some o' ∧ o'.ref = o.ref := by
  induction hl with
  | refl => exact ⟨o, ho, rfl⟩
  | @step α act h₁ h₂ a _ hop roots hrun _ ih =>
    obtain ⟨o₁, ho₁, hr₁⟩ := ih
    have ht := hop.tidy.tidies roots h₁
    rw [hrun] at ht
    obtain ⟨o₂, ho₂, hr₂⟩ := ht.refs l o₁ ho₁
    exact ⟨o₂, ho₂, hr₂.trans hr₁⟩
  | dispose hl ih =>
    obtain ⟨o₁, ho₁, hr₁⟩ := ih
    obtain ⟨o₂, ho₂, hr₂⟩ := refs_dispose (hl.reachable hr).sound ho₁
    exact ⟨o₂, ho₂, hr₂.trans hr₁⟩

/-- The live list, the handles and the handles to spare are views of one set of objects. -/
structure Housed (h : Heap) : Prop where
  newest_first : h.live.Pairwise (· > ·)
  unfreed : ∀ l ∈ h.live, ∃ o, h.objects[l]? = some o ∧ o.freed = false
  complete : ∀ (l : Loc) (o : Object), h.objects[l]? = some o → o.freed = false → l ∈ h.live
  slots : ∀ (i : Nat) (l : Loc), h.slots[i]? = some (some l) ↔
    l ∈ h.live ∧ ∃ o, h.objects[l]? = some o ∧ o.ref.toNat = i
  zero : h.slots[0]? = some none
  spare : ∀ ref : Ref, ref ∈ h.free ↔ ref ≠ 0 ∧ h.slots[ref.toNat]? = some none
  spare_nodup : h.free.Nodup

theorem Sound.housed (hs : h.Sound) (hh : h.Orderly) : h.Housed where
  newest_first := hh.newest_first
  unfreed l hl := (hs.consistent.live l).mp hl
  complete l o ho hf := (hs.consistent.live l).mpr ⟨o, ho, hf⟩
  slots i l := by
    constructor
    · intro hi
      obtain ⟨o, ho, hf, hr⟩ := hs.consistent.owner i l hi
      exact ⟨(hs.consistent.live l).mpr ⟨o, ho, hf⟩, o, ho, hr⟩
    · rintro ⟨hl, o, ho, rfl⟩
      obtain ⟨p, hp, hf⟩ := (hs.consistent.live l).mp hl
      rw [ho] at hp
      cases hp
      exact (hs.consistent.named l o ho hf).2
  zero := hs.consistent.zero
  spare ref := by
    refine ⟨hs.consistent.spare ref, fun ⟨h0, hn⟩ => ?_⟩
    rcases hh.spare _ hn with hz | ⟨ref', hm, hr⟩
    · exact absurd (UInt32.toNat_inj.mp hz) h0
    · rwa [UInt32.toNat_inj.mp hr] at hm
  spare_nodup := hs.consistent.spare_nodup

/-- In every heap that operations lead to the live list, the handles and the handles to spare agree: no two
live objects have one handle, and as long as an object lives it keeps the one that it got. -/
theorem Reachable.handles_agree (hr : Reachable h) : h.Housed ∧
    (∀ (k l : Loc) (o p : Object), k ∈ h.live → l ∈ h.live → h.objects[k]? = some o →
      h.objects[l]? = some p → o.ref = p.ref → k = l) ∧
    ∀ h', h.Later h' →
      (∀ l ∈ h'.live, l ∉ h.live → h.objects.size ≤ l) ∧
      ∀ (l : Loc) (o : Object), h.objects[l]? = some o → l ∈ h'.live →
        l ∈ h.live ∧ h.find? o.ref = some l ∧ h'.find? o.ref = some l := by
  have hs := hr.sound
  refine ⟨hs.housed hr.orderly, fun k l o p hk hl ho hp href => ?_, fun h' hl => ?_⟩
  · obtain ⟨o', ho', hof⟩ := (hs.consistent.live k).mp hk
    obtain ⟨p', hp', hpf⟩ := (hs.consistent.live l).mp hl
    rw [ho] at ho'
    rw [hp] at hp'
    cases ho'
    cases hp'
    exact hs.consistent.ref_inj ho hp hof hpf href
  · have hs' := (hl.reachable hr).sound
    have hback : ∀ l ∈ h'.live, l < h.objects.size → l ∈ h.live := fun l hl' hlt =>
      (hs.consistent.live l).mpr ((hl.steady hr).alive l hlt ((hs'.consistent.live l).mp hl'))
    refine ⟨fun l hl' hnot => Nat.le_of_not_lt fun hlt => hnot (hback l hl' hlt), ?_⟩
    intro l o ho hl'
    have hmem := hback l hl' (Array.getElem?_eq_some_iff.mp ho).1
    obtain ⟨p, hp, hpf⟩ := (hs.consistent.live l).mp hmem
    rw [ho] at hp
    cases hp
    obtain ⟨o', ho', hof⟩ := (hs'.consistent.live l).mp hl'
    obtain ⟨q, hq, href⟩ := hl.refs hr ho
    rw [ho'] at hq
    cases hq
    refine ⟨hmem, hs.consistent.find?_ref ho hpf, ?_⟩
    rw [← href]
    exact hs'.consistent.find?_ref ho' hof

def ring : Heap :=
  finalState ((do
    addRoots (.host 0)
    let a ← newUpvalue 0
    let b ← newUpvalue 1
    let _ ← newUpvalue 2
    modify (·.updateBody a (closeWith (.object 2)))
    modify (·.updateBody b (closeWith (.object 1))) : HeapM Unit) (fun _ => []) (new {}))

theorem reachable_ring : Reachable ring := by
  have h₀ := (Reachable.new {}).step (.addRoots (.host 0)) (fun _ => []) (a := ()) rfl (by decide)
  have h₁ := h₀.step (.newUpvalue 0) (fun _ => []) (a := 0) rfl (by decide)
  have h₂ := h₁.step (.newUpvalue 1) (fun _ => []) (a := 1) rfl (by decide)
  have h₃ := h₂.step (.newUpvalue 2) (fun _ => []) (a := 2) rfl (by decide)
  have h₄ := h₃.step (.assign 0 (keepsStrings_closeWith (.object 2))) (fun _ => []) (a := ()) rfl
    (by decide)
  exact h₄.step (.assign 1 (keepsStrings_closeWith (.object 1))) (fun _ => []) (a := ()) rfl
    (by decide)

theorem handles_agree_ring : ring.Housed ∧ ring.live = [2, 1, 0] ∧
    ∃ c h', collect (fun _ => [.object 0]) ring = .ok c h' ∧ 2 ∉ h'.live ∧ h'.find? 1 = some 0 := by
  obtain ⟨hh, -, hlater⟩ := reachable_ring.handles_agree
  obtain ⟨hi, hin⟩ : ring.Intact (ring.origins fun _ => [.object 0]) ∧
      ∀ l, ring.Reach (ring.origins fun _ => [.object 0]) l → l ∈ [0, 1] := intact_of_encloses (by decide +kernel)
  obtain ⟨c, h', hrun, hcol⟩ := collect_ok (fun _ => [.object 0]) reachable_ring.sound.consistent hi
  have halive (l : Loc) : l ∈ h'.live ↔ ring.Reach (ring.origins fun _ => [.object 0]) l :=
    (hcol.consistent.live l).trans (hcol.alive_iff hi l)
  have hroom : h'.slots.size ≤ 2 ^ 32 := hcol.consistent.size
  refine ⟨hh, rfl, c, h', hrun, fun h2 => absurd (hin 2 ((halive 2).mp h2)) (by decide), ?_⟩
  obtain ⟨-, hkeeps⟩ := hlater h' (.step .refl .collect (fun _ => [.object 0]) hrun hroom)
  exact (hkeeps 0 _ rfl ((halive 0).mpr (.root (List.mem_singleton.mpr rfl) (.object 0)))).2.2

end Heap

end Lox

import Lox.Proofs.Growable
import Lox.Proofs.Heap.Balance

namespace Lox

namespace Table

theorem capacity_place (es : Array Entry) (key : Symbol) (v : Value) :
    (place es key v).size = es.size := by
  simp [place]

theorem capacity_growTo (t : Table) (c : Nat) : (t.growTo c).capacity = c := by
  have hfold (bs : List (Symbol × Value)) (es : Array Entry) :
      (bs.foldl (fun es b => place es b.1 b.2) es).size = es.size := by
    induction bs generalizing es with
    | nil => rfl
    | cons b bs ih => exact (ih _).trans (capacity_place es b.1 b.2)
  simp [growTo, capacity, hfold]

theorem capacity_insert (t : Table) (key : Symbol) (v : Value) :
    (t.insert key v).2.capacity = t.capacity := by
  simp [capacity, insert_entries, capacity_place]

theorem le_nextCapacity (c : Nat) : c ≤ nextCapacity c := by
  unfold nextCapacity
  split <;> omega

end Table

namespace Growable

variable {α : Type} [Inhabited α]

theorem capacity_growTo (a : Growable α) {c : Nat} (hc : a.capacity ≤ c) :
    (a.growTo c).capacity = c := by
  simp only [capacity] at hc
  simp only [growTo, capacity, Array.size_append, Array.size_replicate]
  omega

theorem capacity_push (a : Growable α) (v : α) (hf : a.isFull = false) :
    (a.push v).capacity = a.capacity := by
  have hlt : a.size < a.slots.size := by
    have hle := a.size_le
    simp only [isFull, beq_eq_false_iff_ne, ne_eq] at hf
    omega
  simp [push, capacity, hlt]

theorem isFull_growTo (a : Growable α) : (a.growTo (nextCapacity a.capacity)).isFull = false := by
  have hle := a.size_le
  have hlt : a.capacity < nextCapacity a.capacity := by
    unfold nextCapacity
    split <;> omega
  simp only [capacity] at hlt
  simp only [isFull, growTo, capacity, Array.size_append, Array.size_replicate,
    beq_eq_false_iff_ne, ne_eq]
  omega

omit [Inhabited α] in
theorem capacity_set (a : Growable α) (i : Nat) (v : α) : (a.set i v).capacity = a.capacity := by
  unfold set
  split <;> simp [capacity]

end Growable

namespace HeapM

open Heap HeapView

variable {α β : Type} {r : Roots} {h h' : Heap}

theorem Delivers.of_exhausted {bad : Prop} {act : HeapM α} {post : α → Heap → Prop} (hg : Grows act)
    (he : h.Exhausted) : Delivers bad r h act post := by
  have hend : Exhausted (finalState (act r h)) := Nat.lt_of_lt_of_le he (hg r h)
  unfold Delivers
  cases hrun : act r h <;> rw [hrun] at hend <;> exact .inl hend

theorem Delivers.and {bad : Prop} {act : HeapM α} {post post' : α → Heap → Prop}
    (h₁ : Delivers bad r h act post) (h₂ : Delivers bad r h act post') :
    Delivers bad r h act fun a h' => post a h' ∧ post' a h' := by
  unfold Delivers at *
  cases hrun : act r h with
  | ok a h' =>
    rw [hrun] at h₁ h₂
    rcases h₁ with hex | h₁
    · exact .inl hex
    · exact h₂.imp_right fun h₂ => ⟨h₁, h₂⟩
  | error e h' =>
    rw [hrun] at h₁
    exact h₁

def Settles (r : Roots) (h : Heap) (act : HeapM α) : Prop :=
  Delivers True r h act fun _ h' => h'.Sound ∧ Books r 0 h h'

theorem Settles.of_keeps {act : HeapM α} (hk : Keeps act) (hs : h.Sound)
    (hb : Delivers True r h act fun _ h' => Books r 0 h h') : Settles r h act :=
  ((hk.sound r h hs).and hb).imp fun _ _ hp => ⟨hp.1.1, hp.2⟩

theorem Settles.bind {x : HeapM α} {f : α → HeapM β} (hs : h.Sound) (hx : Settles r h x)
    (hg : ∀ a, Grows (f a)) (hf : ∀ a h', h'.Sound → Books r 0 h h' → Settles r h' (f a)) :
    Settles r h (x >>= f) := by
  refine Delivers.bind hx hg fun a h₁ hmid => ?_
  refine (hf a h₁ hmid.1 hmid.2).imp fun b h₂ hpost => ⟨hpost.1, ?_⟩
  have hb := hmid.2.trans hs.consistent hpost.2
  rwa [Int.add_zero] at hb

theorem settles_pure (hs : h.Sound) (a : α) : Settles r h (pure a) :=
  delivers_pure ⟨hs, .refl hs.consistent⟩

theorem settles_view (hs : h.Sound) (view : HeapView α) : Settles r h (liftM view) := by
  unfold Settles Delivers
  rw [run_view]
  cases view h with
  | ok a => exact .inr ⟨hs, .refl hs.consistent⟩
  | error e => exact .inr trivial

theorem settles_view_bind {view : HeapView α} {f : α → HeapM β}
    (hf : ∀ a, view h = .ok a → Settles r h (f a)) : Settles r h (liftM view >>= f) := by
  cases hv : view h with
  | ok a => exact delivers_view_bind hv (hf a hv)
  | error e =>
    unfold Settles Delivers
    rw [run_bind, run_view, hv]
    exact .inr trivial

theorem Settles.tryFinally {x : HeapM α} {y : HeapM β} (hs : h.Sound) (hx : Settles r h x)
    (hg : Grows y) (hy : ∀ h', h'.Sound → Books r 0 h h' → Settles r h' y) :
    Settles r h (tryFinally x y) := by
  unfold Settles Delivers at hx ⊢
  rw [run_finally]
  cases hxr : x r h with
  | error e h' =>
    simp only []
    cases y r h' <;> exact .inr trivial
  | ok a h' =>
    rw [hxr] at hx
    simp only []
    rcases hx with hex | hx
    · have hend : Exhausted (finalState (y r h')) := Nat.lt_of_lt_of_le hex (hg r h')
      cases hyr : y r h' <;> rw [hyr] at hend <;> exact .inl hend
    · have hlast := hy h' hx.1 hx.2
      unfold Settles Delivers at hlast
      cases hyr : y r h' with
      | error e h'' => exact .inr trivial
      | ok b h'' =>
        rw [hyr] at hlast
        refine hlast.imp_right fun hpost => ⟨hpost.1, ?_⟩
        have hb := hx.2.trans hs.consistent hpost.2
        rwa [Int.add_zero] at hb

theorem delivers_account_books (hc : h.Consistent) (delta : Int) :
    Delivers True r h (account delta) fun _ h' =>
      h.Charged (h.origins r) h' ∧ Books r delta h h' := by
  unfold Delivers
  cases hrun : account delta r h with
  | ok u h' => exact .inr ⟨charged_of_account r delta hc hrun, books_account r hc hrun⟩
  | error e h' => exact .inr trivial

theorem settles_rooting {marker : Nat → RootMarker} {links : List Link} {act : HeapM α}
    (hm : RootMarker.Numbers marker) (hx : ∀ k, k ∉ h.markers →
      Settles (standing r k links) { h with markers := h.markers ++ [k] } act) :
    Settles r h (rooting marker fun k => withRoots k links act) := by
  refine delivers_rooting hm fun k hk => Delivers.imp (hx k hk) ?_
  rintro a h' ⟨hs', hb⟩
  exact ⟨hb.markers, hs'.congr ⟨rfl, rfl, rfl, rfl, rfl, rfl, rfl⟩, hb.unjoined hk⟩

theorem settles_collect (hs : h.Sound) : Settles r h collect := by
  refine .of_keeps keeps_collect hs ?_
  unfold Delivers
  cases hrun : collect r h with
  | ok c h' => exact .inr (books_collect r hs.consistent hrun)
  | error e h' => exact .inr trivial

theorem settles_hold (hs : h.Sound) (v : Value) : Settles r h (hold v) :=
  .of_keeps (keeps_hold v) hs (.inr (books_holds hs.consistent _))

theorem settles_unhold (hs : h.Sound) (depth : Nat) : Settles r h (unhold depth) := by
  refine .of_keeps (keeps_unhold depth) hs ?_
  unfold Delivers
  rw [unhold_eq]
  by_cases hd : h.holds.length ≠ depth
  · rw [if_pos hd]
    exact .inr trivial
  · rw [if_neg hd]
    exact .inr (books_holds hs.consistent _)

theorem delivers_allocate_books (hc : h.Consistent) (body : Body) (ho : body.ownedBytes = 0)
    (size : Nat) : Delivers True r h (allocate body size) fun l h' =>
      Allocates r h body size l h' ∧ Books r 0 h h' := by
  refine (delivers_account_books hc size).bind (fun _ => ?_) fun _ h₁ hch => ?_
  · refine grows_modifyGet fun h => ?_
    have hsize := size_takeHandle h.objects.size h
    rw [slots_link]
    split at hsize <;> omega
  · by_cases hex : Exhausted (h₁.link body size).2
    · exact .inl hex
    · have hroom := Nat.le_of_not_lt hex
      have hb := hch.2.trans hc (books_link hch.1.consistent body size hroom)
      rw [ho, Nat.add_zero, Int.add_right_neg] at hb
      exact .inr ⟨⟨h₁, hch.1, rfl, rfl, hroom⟩, hb⟩

theorem settles_allocate (hs : h.Sound) (body : Body) (hk : body.kind ≠ .string)
    (ho : body.ownedBytes = 0) (size : Nat) : Settles r h (allocate body size) :=
  .of_keeps (keeps_allocate body hk size) hs
    ((delivers_allocate_books hs.consistent body ho size).imp fun _ _ hp => hp.2)

theorem settles_newFunction (hs : h.Sound) : Settles r h newFunction :=
  settles_allocate hs _ (by simp [Body.kind]) rfl _

theorem settles_newNative (hs : h.Sound) (n : Native) : Settles r h (newNative n) :=
  settles_allocate hs _ (by simp [Body.kind]) rfl _

theorem settles_newUpvalue (hs : h.Sound) (slot : Int) : Settles r h (newUpvalue slot) :=
  settles_allocate hs _ (by simp [Body.kind]) rfl _

theorem settles_newClass (hs : h.Sound) (name : Symbol) : Settles r h (newClass name) :=
  settles_allocate hs _ (by simp [Body.kind]) rfl _

theorem settles_newInstance (hs : h.Sound) (class_ : Loc) : Settles r h (newInstance class_) :=
  settles_allocate hs _ (by simp [Body.kind]) rfl _

theorem settles_newBoundMethod (hs : h.Sound) (receiver : Value) (method : Loc) :
    Settles r h (newBoundMethod receiver method) :=
  settles_allocate hs _ (by simp [Body.kind]) rfl _

theorem settles_newClosure (hs : h.Sound) (function : Loc) : Settles r h (newClosure function) := by
  refine (settles_view hs _).bind hs (fun f => ?_) fun f h' hs' _ => ?_
  · have hnew := grows_allocate (.closure ⟨function, Array.replicate f.upvalueCount.toNat none⟩)
      (72 + f.upvalueCount.toNat * 8)
    exact grows_ite ((grows_throw _).bind fun _ => hnew) hnew
  · dsimp only
    split
    · exact .inr trivial
    · exact settles_allocate hs' _ (by simp [Body.kind]) rfl _

theorem delivers_reserveString_books (hc : h.Consistent) :
    Delivers True r h reserveString fun _ h' => ∃ h₁ t, h.Charged (h.origins r) h₁ ∧ t.Sound ∧
      (∀ k v, t.Binds k v ↔ h₁.strings.Binds k v) ∧ t.isCrowded = false ∧
        h' = { h₁ with strings := t } ∧ Books r ((t.capacity - h.strings.capacity : Int) * 16) h h₁ := by
  apply delivers_getHeap_bind
  cases hcrowd : h.strings.isCrowded with
  | false =>
    simp only [hcrowd]
    have hb := Books.refl (r := r) hc
    rw [show (0 : Int) = (h.strings.capacity - h.strings.capacity : Int) * 16 by omega] at hb
    exact delivers_pure ⟨h, _, charged_bytes hc _ h.bytesAllocated, hc.strings,
      fun _ _ => Iff.rfl, hcrowd, rfl, hb⟩
  | true =>
    simp only [hcrowd, ↓reduceIte]
    refine (delivers_account_books hc _).bind (fun _ => grows_modify fun h => Nat.le_refl _)
      fun _ h₂ hch => delivers_modify ?_
    have hs := hch.1.consistent.strings
    have hb := hch.2
    have hle := Table.le_nextCapacity h.strings.capacity
    refine ⟨h₂, _, hch.1, hch.1.capacity ▸ hs.growTo, ?_, hch.1.capacity ▸ hs.isCrowded_growTo, rfl, ?_⟩
    · rw [← hch.1.capacity]
      exact hs.binds_growTo
    · rw [Table.capacity_growTo]
      rwa [Int.ofNat_sub hle] at hb

theorem delivers_newString_books (hs : h.Sound) {chars : Bytes}
    (hnew : ∀ l hash, ¬ h.IsString l chars hash) :
    Delivers True r h (newString chars chars.hash) fun _ h' => Books r 0 h h' := by
  refine (delivers_allocate_books hs.consistent _ rfl _).bind (fun l => (grows_view _).bind fun v =>
    (grows_hold v).bind fun depth => grows_reserveString.bind fun _ => grows_finishString _ depth)
      fun l h₂ hal => ?_
  have hpend := pending_of_allocates hs (fun _ => trivial) hal.1
  obtain ⟨ref, hval, hp⟩ : ∃ ref, valueOf l h₂ = .ok (.object ref) ∧
    Pending True r h chars l ref h₂ := hpend
  apply delivers_view_bind hval
  apply delivers_hold_bind
  refine (delivers_reserveString_books (hp.consistent.setHolds _)).bind
    (fun _ => grows_finishString _ _) fun _ h₃ hres => ?_
  obtain ⟨h₁, t, hch, ht, hb, hcrowd, rfl, hbooks⟩ := hres
  apply delivers_modify_bind
  refine delivers_unhold_bind (v := .object ref) hch.holds (delivers_pure ?_)
  have hint := hp.interns hs (fun _ => trivial) hnew hch ht hb hcrowd
  have hheld := hal.2.trans hs.consistent (books_holds hp.consistent (.object ref :: h₂.holds))
  have hcharged := hheld.trans hs.consistent hbooks
  have hlast := hcharged.trans hs.consistent (books_strings hint.sound.consistent)
  have hzero : 0 + 0 + (t.capacity - h₂.strings.capacity : Int) * 16 +
      (h₁.strings.capacity - (t.insert ⟨l, chars, chars.hash⟩ .nil).2.capacity : Int) * 16 = 0 := by
    have hcap : h₁.strings.capacity = h₂.strings.capacity := hch.capacity
    rw [Table.capacity_insert, hcap]
    omega
  rwa [hzero] at hlast

theorem settles_intern (hs : h.Sound) (chars : Bytes) : Settles r h (intern chars) := by
  refine .of_keeps (keeps_intern chars) hs ?_
  apply delivers_getHeap_bind
  cases hf : h.strings.findText? chars chars.hash with
  | some s => exact delivers_pure (.refl hs.consistent)
  | none =>
    refine delivers_newString_books hs fun l hash hl => ?_
    have hfound := (hs.findText?_eq_some_iff chars (s := ⟨l, chars, hash⟩)).mpr ⟨hl, rfl⟩
    rw [hf] at hfound
    cases hfound

theorem keepsKinds_mapFunction (g : Function → Function) : KeepsKinds (mapFunction g) :=
  ⟨fun _ _ => rfl, fun b => by cases b <;> rfl⟩

theorem keepsKinds_mapTable (f : Table → Table) : KeepsKinds (mapTable f) :=
  ⟨fun _ _ => rfl, fun b => by cases b <;> rfl⟩

theorem settles_updateBody (hs : h.Sound) (l : Loc) {f : Body → Body} (hf : KeepsKinds f)
    (hown : ∀ b, (f b).ownedBytes = b.ownedBytes) :
    Settles r h (modify (·.updateBody l f) : HeapM Unit) :=
  delivers_modify ⟨hs.updateBody l hf.keepsStrings, books_updateBody_same hs.consistent hf hown⟩

theorem settles_modifyFunction (hs : h.Sound) (l : Loc) {g : Function → Function}
    (hg : ∀ f, (g f).chunk.size = f.chunk.size) : Settles r h (modifyFunction l g) := by
  refine settles_updateBody hs l (keepsKinds_mapFunction g) fun b => ?_
  cases b with
  | function f => exact hg f
  | _ => rfl

theorem settles_patchByte (hs : h.Sound) (l : Loc) (offset : Nat) (b : UInt8) :
    Settles r h (patchByte l offset b) := by
  have hset : ∀ {h : Heap}, h.Sound → Settles r h (modifyChunk l fun c =>
      ⟨c.code.set offset b, c.lines, c.constants⟩) := by
    intro h hs
    refine settles_modifyFunction hs l fun f => ?_
    simp only [Chunk.size, Growable.capacity_set]
  refine (settles_view hs _).bind hs (fun f => ?_) fun f h' hs' _ => ?_
  · exact grows_ite ((grows_throw _).bind fun _ => (keeps_modifyChunk l _).grows)
      (keeps_modifyChunk l _).grows
  · dsimp only
    split
    · exact .inr trivial
    · exact hset hs'

section Pinned

variable {l : Loc} {o : Object} {f : Body → Body}

theorem Pinned.freed_eq (hp : h.Pinned r l) (ho : h.objects[l]? = some o) : o.freed = false := by
  obtain ⟨p, hp', hf⟩ := hp.alive
  rw [ho] at hp'
  cases hp'
  exact hf

theorem settles_write (hs : h.Sound) (hp : h.Pinned r l) (ho : h.objects[l]? = some o)
    (hf : KeepsKinds f) (hown : (f o.body).ownedBytes = o.body.ownedBytes) :
    Settles r h (modify (·.updateBody l f) : HeapM Unit) := by
  have hb := books_updateBody (r := r) hs.consistent hf ho (Pinned.freed_eq hp ho)
  rw [hown, Int.sub_self] at hb
  exact delivers_modify ⟨hs.updateBody l hf.keepsStrings, hb⟩

theorem settles_enlarge (hs : h.Sound) (hp : h.Pinned r l) (ho : h.objects[l]? = some o)
    {delta : Int} (hf : KeepsKinds f)
    (hown : ((f o.body).ownedBytes : Int) = o.body.ownedBytes + delta) {rest : HeapM α}
    (hg : Grows rest)
    (hrest : ∀ h', h'.Sound → h'.Pinned r l →
      h'.objects[l]? = some { o with body := f o.body } → Settles r h' rest) :
    Settles r h (do
      account delta
      modify (·.updateBody l f)
      rest) := by
  refine (delivers_account_books hs.consistent delta).bind
    (fun _ => (grows_updateBody l f).bind fun _ => hg) fun _ h₁ hch => ?_
  have ho₁ := (hch.1.kept l hp.reach).trans ho
  have hs₁ := hch.1.sound hs
  have hp₁ := hch.2.pinned hs.consistent hp
  have hupd := books_updateBody (r := r) hs₁.consistent hf ho₁ (Pinned.freed_eq hp₁ ho₁)
  have hb := hch.2.trans hs.consistent hupd
  rw [hown, show delta + ((o.body.ownedBytes : Int) - (o.body.ownedBytes + delta)) = 0 by omega] at hb
  have hs₂ := hs₁.updateBody l hf.keepsStrings
  have ho₂ : (h₁.updateBody l f).objects[l]? = some { o with body := f o.body } := by
    rw [objects_updateBody, ho₁]
    simp
  apply delivers_modify_bind
  refine (hrest _ hs₂ (hupd.pinned hs₁.consistent hp₁) ho₂).imp fun a h₃ hpost => ⟨hpost.1, ?_⟩
  have hlast := hb.trans hs.consistent hpost.2
  rwa [Int.add_zero] at hlast

theorem settles_append {γ : Type} [Inhabited γ] (array : Chunk → Growable γ)
    (put : Growable γ → Chunk → Chunk) (weight : Nat) (harray : ∀ a c, array (put a c) = a)
    (hsize : ∀ a c, (put a c).size + weight * (array c).capacity = c.size + weight * a.capacity)
    (hs : h.Sound) (hp : h.Pinned r l) {fn : Function} (hfn : functionAt l h = .ok fn) (v : γ)
    {delta : Int} (hdelta : delta =
      weight * (nextCapacity (array fn.chunk).capacity - (array fn.chunk).capacity : Nat))
    {rest : HeapM α} (hg : Grows rest)
    (hrest : ∀ h', h'.Sound → h'.Pinned r l → Settles r h' rest) :
    Settles r h (if (array fn.chunk).isFull then (do
        account delta
        modifyChunk l fun c => put ((array c).growTo (nextCapacity (array fn.chunk).capacity)) c
        modifyChunk l fun c => put ((array c).push v) c
        rest)
      else (do
        modifyChunk l fun c => put ((array c).push v) c
        rest)) := by
  obtain ⟨o, ho, hb⟩ := functionAt_eq_ok.mp hfn
  have hpush : ∀ {h : Heap} {o : Object} {fn : Function}, h.Sound → h.Pinned r l →
      h.objects[l]? = some o → o.body = .function fn → (array fn.chunk).isFull = false →
      Settles r h (do
        modifyChunk l fun c => put ((array c).push v) c
        rest) := by
    intro h o fn hs hp ho hb hfull
    have hwrite : Settles r h (modifyChunk l fun c => put ((array c).push v) c) := by
      refine settles_write hs hp ho (keepsKinds_mapFunction _) ?_
      have hpushed := hsize ((array fn.chunk).push v) fn.chunk
      rw [Growable.capacity_push _ _ hfull] at hpushed
      rw [hb]
      exact Nat.add_right_cancel hpushed
    exact hwrite.bind hs (fun _ => hg) fun _ h' hs' hbooks =>
      hrest h' hs' (hbooks.pinned hs.consistent hp)
  split
  · refine settles_enlarge hs hp ho (keepsKinds_mapFunction _) ?_
      ((keeps_modifyChunk l _).grows.bind fun _ => hg) fun h' hs' hp' ho' =>
        hpush hs' hp' ho' (by rw [hb]; rfl) ?_
    · have hle := Table.le_nextCapacity (array fn.chunk).capacity
      have hgrown := hsize ((array fn.chunk).growTo (nextCapacity (array fn.chunk).capacity)) fn.chunk
      rw [Growable.capacity_growTo _ hle] at hgrown
      have hmul := Nat.mul_sub weight (nextCapacity (array fn.chunk).capacity) (array fn.chunk).capacity
      have hmono := Nat.mul_le_mul_left weight hle
      rw [hb, hdelta]
      show ((put _ fn.chunk).size : Int) = (fn.chunk.size : Nat) + _
      omega
    · rw [harray]
      exact Growable.isFull_growTo _
  · rename_i hfull
    exact hpush hs hp ho hb (by simpa using hfull)

theorem settles_writeByte (hs : h.Sound) (hp : h.Pinned r l) (b : UInt8) (line : Int) :
    Settles r h (writeByte l b line) := by
  have hlines : ∀ {h : Heap}, h.Sound → h.Pinned r l → Settles r h (do
      let chunk := (← functionAt l).chunk
      if chunk.lines.isFull then
        let old := chunk.lines.capacity
        account ((nextCapacity old - old : Nat) * 8)
        modifyChunk l fun c =>
          ⟨c.code, c.lines.growTo (nextCapacity old), c.constants⟩
      modifyChunk l fun c => ⟨c.code, c.lines.push line, c.constants⟩) := by
    intro h hs hp
    refine settles_view_bind fun fn hfn => ?_
    have happ := settles_append Chunk.lines (fun a c => ⟨c.code, a, c.constants⟩) 8
      (fun _ _ => rfl) (fun a c => by simp only [Chunk.size]; omega) hs hp hfn line
      (Int.mul_comm _ _) (grows_pure ()) fun h' hs' _ => settles_pure hs' ()
    simpa only [bind_pure_unit, Int.cast_ofNat_Int] using happ
  refine settles_view_bind fun fn hfn => ?_
  refine settles_append Chunk.code (fun a c => ⟨a, c.lines, c.constants⟩) 1 (fun _ _ => rfl)
    (fun a c => by simp only [Chunk.size]; omega) hs hp hfn b (Int.one_mul _).symm ?_
    fun h' hs' hp' => hlines hs' hp'
  refine (grows_view _).bind fun fn => ?_
  exact grows_ite ((grows_account _).bind fun _ => (keeps_modifyChunk l _).grows.bind fun _ =>
    (keeps_modifyChunk l _).grows) (keeps_modifyChunk l _).grows

theorem settles_pushConstant (hs : h.Sound) (hp : h.Pinned r l) (v : Value) :
    Settles r h (pushConstant l v) := by
  refine settles_view_bind fun fn hfn => ?_
  refine settles_append Chunk.constants (fun a c => ⟨c.code, c.lines, a⟩) 8 (fun _ _ => rfl)
    (fun a c => by simp only [Chunk.size]; omega) hs hp hfn v (Int.mul_comm _ _) ?_ ?_
  · exact (grows_view _).bind fun _ => grows_pure _
  · intro h' hs' _
    exact settles_view_bind fun fn _ => settles_pure hs' _

theorem settles_addConstant (hs : h.Sound) (hp : h.Pinned r l) (v : Value) :
    Settles r h (addConstant l v) := by
  refine (settles_hold hs v).bind hs (fun depth => ?_) fun depth h₁ hs₁ hb₁ => ?_
  · exact (keeps_pushConstant l v).grows.tryFinally (grows_unhold depth)
  · have hp₁ := hb₁.pinned hs.consistent hp
    exact (settles_pushConstant hs₁ hp₁ v).tryFinally hs₁ (grows_unhold depth)
      fun h₂ hs₂ _ => settles_unhold hs₂ depth

theorem tableOf_eq_ok {t : Table} : tableOf l h = .ok t ↔
    ∃ o, h.objects[l]? = some o ∧ tableIn o.body = some t := by
  constructor
  · intro ht
    rw [tableOf, view_bind, object_eq] at ht
    cases ho : h.objects[l]? with
    | none =>
      rw [ho] at ht
      cases ht
    | some o =>
      rw [ho] at ht
      refine ⟨o, rfl, ?_⟩
      cases hb : o.body <;> simp only [hb] at ht <;> cases ht <;> rfl
  · rintro ⟨o, ho, ht⟩
    exact tableOf_eq ho ht

theorem ownedBytes_mapTable {b : Body} {t : Table} (ht : tableIn b = some t) (f : Table → Table) :
    b.ownedBytes = t.capacity * 16 ∧ (mapTable f b).ownedBytes = (f t).capacity * 16 := by
  cases b <;> cases ht <;> exact ⟨rfl, rfl⟩

theorem settles_setEntry (hs : h.Sound) (hp : h.Pinned r l) (key : Symbol) (v : Value) :
    Settles r h (setEntry l key v) := by
  have hrest : Grows (do
      let t ← tableOf l
      modifyTable l fun _ => (t.insert key v).2
      return (t.insert key v).1 : HeapM Bool) :=
    (grows_view _).bind fun _ => (keeps_modifyTable l _).grows.bind fun _ => grows_pure _
  have hinsert : ∀ {h : Heap}, h.Sound → h.Pinned r l → Settles r h (do
      let t ← tableOf l
      modifyTable l fun _ => (t.insert key v).2
      return (t.insert key v).1) := by
    intro h hs hp
    refine settles_view_bind fun t ht => ?_
    obtain ⟨o, ho, htab⟩ := tableOf_eq_ok.mp ht
    have hwrite : Settles r h (modifyTable l fun _ => (t.insert key v).2) := by
      refine settles_write hs hp ho (keepsKinds_mapTable _) ?_
      obtain ⟨h₁, h₂⟩ := ownedBytes_mapTable htab fun _ => (t.insert key v).2
      exact h₂.trans (by rw [h₁, Table.capacity_insert])
    exact hwrite.bind hs (fun _ => grows_pure _) fun _ h' hs' _ => settles_pure hs' _
  refine settles_view_bind fun t ht => ?_
  obtain ⟨o, ho, htab⟩ := tableOf_eq_ok.mp ht
  dsimp only
  split
  · refine settles_enlarge hs hp ho (keepsKinds_mapTable _) ?_ hrest
      fun h' hs' hp' _ => hinsert hs' hp'
    obtain ⟨h₁, h₂⟩ := ownedBytes_mapTable htab (·.growTo (nextCapacity t.capacity))
    have hle := Table.le_nextCapacity t.capacity
    rw [Table.capacity_growTo] at h₂
    show ((mapTable _ o.body).ownedBytes : Int) = _
    rw [h₁, h₂]
    omega
  · exact hinsert hs hp

theorem settles_copyEntries (source : Loc) (i left : Nat) (hs : h.Sound) (hp : h.Pinned r l) :
    Settles r h (copyEntries source l i left) := by
  induction left generalizing i h with
  | zero => exact settles_pure hs ()
  | succ left ih =>
    refine settles_view_bind fun t _ => ?_
    cases t.entries[i]? with
    | none => exact .inr trivial
    | some e =>
      cases hk : e.key with
      | none => simpa only [hk] using ih (i + 1) hs hp
      | some key =>
        have hset := (settles_setEntry hs hp key e.value).bind hs
          (fun _ => (keeps_copyEntries source l (i + 1) left).grows)
          fun _ h' hs' hb => ih (i + 1) hs' (hb.pinned hs.consistent hp)
        simpa only [hk] using hset

theorem settles_inheritEntries (source : Loc) (hs : h.Sound) (hp : h.Pinned r l) :
    Settles r h (inheritEntries source l) :=
  settles_view_bind fun _ _ => settles_copyEntries source _ _ hs hp

end Pinned

end HeapM

end Lox

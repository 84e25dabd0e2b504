import Lox.Heap.Allocate
import Lox.Proofs.Heap.Collect

namespace Lox

namespace Heap

variable {h h' : Heap}

def IsString (h : Heap) (l : Loc) (chars : Bytes) (hash : UInt32) : Prop :=
  ∃ o, h.objects[l]? = some o ∧ o.freed = false ∧ o.body = .string chars hash

structure Interned (h : Heap) : Prop where
  hashed : ∀ l chars hash, h.IsString l chars hash → hash = chars.hash
  unique : ∀ k l chars hash hash', h.IsString k chars hash → h.IsString l chars hash' → k = l
  bound : ∀ l chars hash, h.IsString l chars hash → ∃ v, h.strings.Binds ⟨l, chars, hash⟩ v

structure Sound (h : Heap) : Prop where
  consistent : h.Consistent
  strings : h.Interned

theorem IsString.alive {l : Loc} {chars : Bytes} {hash : UInt32} (hs : h.IsString l chars hash) :
    h.Alive l := by
  obtain ⟨o, ho, hf, -⟩ := hs
  exact ⟨o, ho, hf⟩

/-- What charging bytes does to a heap: nothing that can be reached changes, and what changes is
freed. -/
structure Charged (h : Heap) (roots : List Link) (h' : Heap) : Prop where
  kept : ∀ l, h.Reach roots l → h'.objects[l]? = h.objects[l]?
  shrunk : ∀ (l : Loc) (o : Object), h'.objects[l]? = some o → o.freed = false →
    h.objects[l]? = some o
  follows : ∀ l link k, h'.Alive l → link ∈ h.linksAt l → h.Leads link k → h.Alive k → h'.Alive k
  strings : ∀ k v, h'.strings.Binds k v ↔ h.strings.Binds k v ∧ h'.Alive k.loc
  consistent : h'.Consistent
  holds : h'.holds = h.holds
  closed : h'.closed = h.closed
  markers : h'.markers = h.markers
  options : h'.options = h.options
  size : h'.objects.size = h.objects.size
  handles : h'.slots.size = h.slots.size
  capacity : h'.strings.capacity = h.strings.capacity

theorem Collection.alive_iff {roots : List Link} (hi : h.Intact roots)
    (hcol : h.Collection roots h') (l : Loc) : h'.Alive l ↔ h.Reach roots l := by
  constructor
  · rintro ⟨o, ho, hf⟩
    by_cases hal : h.Alive l
    · by_cases hr : h.Reach roots l
      · exact hr
      · have hfr := hcol.freed l hr hal
        obtain ⟨p, hp, -⟩ := hal
        rw [hfr, hp] at ho
        obtain rfl := Option.some.inj ho
        cases hf
    · rw [hcol.kept l (.inr hal)] at ho
      exact absurd ⟨o, ho, hf⟩ hal
  · intro hr
    obtain ⟨o, ho, hf⟩ := hi.alive hr
    exact ⟨o, by rw [hcol.kept l (.inl hr)]; exact ho, hf⟩

theorem Collection.charged {roots : List Link} (hi : h.Intact roots)
    (hcol : h.Collection roots h') : h.Charged roots h' where
  kept l hl := hcol.kept l (.inl hl)
  shrunk l o ho hf := by
    have hr := (hcol.alive_iff hi l).mp ⟨o, ho, hf⟩
    rw [← hcol.kept l (.inl hr)]
    exact ho
  follows l link k hl hlink hlead _ :=
    (hcol.alive_iff hi k).mpr (.link ((hcol.alive_iff hi l).mp hl) hlink hlead)
  strings k v := by
    rw [hcol.strings, hcol.alive_iff hi]
  consistent := hcol.consistent
  holds := hcol.holds
  closed := hcol.closed
  markers := hcol.markers
  options := hcol.options
  size := hcol.size
  handles := hcol.handles
  capacity := hcol.capacity

theorem charged_bytes (hc : h.Consistent) (roots : List Link) (bytesAllocated : Int) :
    h.Charged roots { h with bytesAllocated } where
  kept _ _ := rfl
  shrunk _ _ ho _ := ho
  follows _ _ _ _ _ _ ha := ha
  strings k v := by
    refine ⟨fun hb => ⟨hb, ?_⟩, And.left⟩
    obtain ⟨o, ho, hf, -⟩ := hc.interned k v hb
    exact ⟨o, ho, hf⟩
  consistent := hc.congr ⟨rfl, rfl, rfl, rfl, rfl, rfl, rfl⟩
  holds := rfl
  closed := rfl
  markers := rfl
  options := rfl
  size := rfl
  handles := rfl
  capacity := rfl

theorem Charged.of_bytes {roots : List Link} {bytesAllocated : Int}
    (hch : Charged { h with bytesAllocated } roots h') : h.Charged roots h' where
  kept l hl := hch.kept l (hl.congr (by rfl) (by rfl))
  shrunk := hch.shrunk
  follows l link k hl hlink hlead ha :=
    hch.follows l link k hl hlink (hlead.congr (by rfl) (by rfl)) ha
  strings := hch.strings
  consistent := hch.consistent
  holds := hch.holds
  closed := hch.closed
  markers := hch.markers
  options := hch.options
  size := hch.size
  handles := hch.handles
  capacity := hch.capacity

namespace Charged

variable {roots : List Link} (hch : h.Charged roots h')

include hch

theorem isString {l : Loc} {chars : Bytes} {hash : UInt32} (hs : h'.IsString l chars hash) :
    h.IsString l chars hash := by
  obtain ⟨o, ho, hf, hb⟩ := hs
  exact ⟨o, hch.shrunk l o ho hf, hf, hb⟩

theorem interned (hi : h.Interned) : h'.Interned where
  hashed l chars hash hs := hi.hashed l chars hash (hch.isString hs)
  unique k l chars hash hash' hk hl :=
    hi.unique k l chars hash hash' (hch.isString hk) (hch.isString hl)
  bound l chars hash hs := by
    obtain ⟨v, hv⟩ := hi.bound l chars hash (hch.isString hs)
    exact ⟨v, (hch.strings _ v).mpr ⟨hv, hs.alive⟩⟩

theorem sound (hs : h.Sound) : h'.Sound :=
  ⟨hch.consistent, hch.interned hs.strings⟩

end Charged

section Link

variable (body : Body) (size : Nat)

theorem link_fst : (h.link body size).1 = h.objects.size := rfl

theorem objects_link : (h.link body size).2.objects =
    h.objects.push ⟨(h.takeHandle h.objects.size).1, size, false, false, body⟩ :=
  log_objects _

theorem slots_link : (h.link body size).2.slots = (h.takeHandle h.objects.size).2.1 :=
  log_slots _

theorem free_link : (h.link body size).2.free = (h.takeHandle h.objects.size).2.2 :=
  log_free _

theorem live_link : (h.link body size).2.live = h.objects.size :: h.live :=
  log_live _

theorem strings_link : (h.link body size).2.strings = h.strings :=
  log_strings _

theorem holds_link : (h.link body size).2.holds = h.holds :=
  log_holds _

theorem gray_link : (h.link body size).2.gray = h.gray :=
  log_gray _

theorem closed_link : (h.link body size).2.closed = h.closed :=
  log_closed _

theorem markers_link : (h.link body size).2.markers = h.markers :=
  log_markers _

theorem collecting_link : (h.link body size).2.collecting = h.collecting :=
  log_collecting _

theorem options_link : (h.link body size).2.options = h.options :=
  log_options _

theorem size_takeHandle (l : Loc) (h : Heap) : (h.takeHandle l).2.1.size =
    if h.free.isEmpty then h.slots.size + 1 else h.slots.size := by
  unfold takeHandle
  cases h.free <;> simp

structure Fresh (h : Heap) (l : Loc) (ref : Ref) (slots : Array (Option Loc)) (free : List Ref) :
    Prop where
  nonzero : ref ≠ 0
  unused : ∀ k, h.slots[ref.toNat]? ≠ some (some k)
  slots : ∀ i : Nat, slots[i]? = if i = ref.toNat then some (some l) else h.slots[i]?
  spare : ∀ ref' ∈ free, ref' ∈ h.free ∧ ref' ≠ ref
  nodup : free.Nodup

theorem Consistent.takeHandle (hc : h.Consistent) (l : Loc)
    (hroom : (h.takeHandle l).2.1.size ≤ 2 ^ 32) :
    h.Fresh l (h.takeHandle l).1 (h.takeHandle l).2.1 (h.takeHandle l).2.2 := by
  cases hf : h.free with
  | nil =>
    have hth : h.takeHandle l = (h.slots.size.toUInt32, h.slots.push (some l), []) := by
      simp [Heap.takeHandle, hf]
    rw [hth] at hroom ⊢
    have hpos : 0 < h.slots.size := (Array.getElem?_eq_some_iff.mp hc.zero).1
    have hnat : h.slots.size.toUInt32.toNat = h.slots.size := by
      simp only [Array.size_push] at hroom
      simp only [Nat.toUInt32, UInt32.toNat_ofNat']
      omega
    refine ⟨fun h0 => ?_, fun k hk => ?_, fun i => ?_, by simp, List.nodup_nil⟩
    · have := congrArg UInt32.toNat h0
      rw [hnat] at this
      simp only [UInt32.toNat_zero] at this
      omega
    · have := (Array.getElem?_eq_some_iff.mp hk).1
      rw [hnat] at this
      omega
    · simp only [hnat, Array.getElem?_push]
  | cons ref rest =>
    have hth : h.takeHandle l = (ref, h.slots.setIfInBounds ref.toNat (some l), rest) := by
      simp [Heap.takeHandle, hf]
    rw [hth]
    have hmem : ref ∈ h.free := by simp [hf]
    obtain ⟨hne, hsl⟩ := hc.spare ref hmem
    have hnd := hc.spare_nodup
    rw [hf, List.nodup_cons] at hnd
    refine ⟨hne, fun k hk => ?_, fun i => ?_, fun ref' href' => ⟨by simp [hf, href'], ?_⟩, hnd.2⟩
    · rw [hsl] at hk
      cases hk
    · have hlt := (Array.getElem?_eq_some_iff.mp hsl).1
      by_cases hi : i = ref.toNat
      · subst hi
        simp [hlt]
      · simp [hi, Ne.symm hi]
    · rintro rfl
      exact hnd.1 href'

theorem alive_link (l : Loc) : (h.link body size).2.Alive l ↔ h.Alive l ∨ l = h.objects.size := by
  simp only [Alive, objects_link, Array.getElem?_push]
  by_cases hl : l = h.objects.size
  · simp [hl]
  · simp [hl]

theorem Consistent.link (hc : h.Consistent) (hroom : (h.link body size).2.slots.size ≤ 2 ^ 32) :
    (h.link body size).2.Consistent := by
  rw [slots_link] at hroom
  have hfresh := hc.takeHandle h.objects.size hroom
  have hold : ∀ {l : Loc} {o : Object}, h.objects[l]? = some o → l ≠ h.objects.size := fun ho =>
    Nat.ne_of_lt (Array.getElem?_eq_some_iff.mp ho).1
  exact
    { unmarked := fun l o ho => by
        rw [objects_link, Array.getElem?_push] at ho
        split at ho
        · cases ho; rfl
        · exact hc.unmarked l o ho
      gray := (gray_link body size).trans hc.gray
      idle := (collecting_link body size).trans hc.idle
      nodup := by
        rw [live_link]
        refine List.nodup_cons.mpr ⟨fun hm => ?_, hc.nodup⟩
        obtain ⟨o, ho, -⟩ := (hc.live _).mp hm
        exact hold ho rfl
      live := fun l => by
        rw [live_link, alive_link, List.mem_cons, hc.live, or_comm]
      named := fun l o ho hf => by
        rw [objects_link, Array.getElem?_push] at ho
        rw [slots_link, hfresh.slots]
        split at ho
        · rename_i hl
          cases ho
          exact ⟨hfresh.nonzero, by rw [if_pos rfl, hl]⟩
        · obtain ⟨hr, hsl⟩ := hc.named l o ho hf
          refine ⟨hr, ?_⟩
          rw [if_neg, hsl]
          intro he
          rw [he] at hsl
          exact hfresh.unused l hsl
      owner := fun i l hi => by
        rw [slots_link, hfresh.slots] at hi
        rw [objects_link, Array.getElem?_push]
        split at hi
        · rename_i he
          cases hi
          exact ⟨_, if_pos rfl, rfl, he.symm⟩
        · obtain ⟨o, ho, hf, hr⟩ := hc.owner i l hi
          exact ⟨o, by rw [if_neg (hold ho), ho], hf, hr⟩
      zero := by
        rw [slots_link, hfresh.slots, if_neg, hc.zero]
        intro he
        exact hfresh.nonzero (UInt32.toNat_inj.mp he.symm)
      size := by rw [slots_link]; exact hroom
      spare := fun ref href => by
        rw [free_link] at href
        obtain ⟨hmem, hne⟩ := hfresh.spare ref href
        obtain ⟨hr, hsl⟩ := hc.spare ref hmem
        refine ⟨hr, ?_⟩
        rw [slots_link, hfresh.slots, if_neg, hsl]
        intro he
        exact hne (UInt32.toNat_inj.mp he)
      spare_nodup := by rw [free_link]; exact hfresh.nodup
      strings := by rw [strings_link]; exact hc.strings
      interned := fun k v hb => by
        rw [strings_link] at hb
        obtain ⟨o, ho, hf, hbody⟩ := hc.interned k v hb
        refine ⟨o, ?_, hf, hbody⟩
        rw [objects_link, Array.getElem?_push, if_neg (hold ho), ho] }

theorem isString_link {l : Loc} {chars : Bytes} {hash : UInt32} :
    (h.link body size).2.IsString l chars hash ↔
      h.IsString l chars hash ∨ l = h.objects.size ∧ body = .string chars hash := by
  simp only [IsString, objects_link, Array.getElem?_push]
  by_cases hl : l = h.objects.size
  · simp [hl]
  · simp [hl]

theorem Sound.link (hs : h.Sound) (hbody : body.kind ≠ .string)
    (hroom : (h.link body size).2.slots.size ≤ 2 ^ 32) : (h.link body size).2.Sound := by
  have hstr : ∀ l chars hash, (h.link body size).2.IsString l chars hash →
      h.IsString l chars hash := fun l chars hash hl => by
    rcases (isString_link body size).mp hl with hl | ⟨-, rfl⟩
    · exact hl
    · exact absurd rfl hbody
  refine ⟨hs.consistent.link body size hroom, fun l chars hash hl => ?_,
    fun k l chars hash hash' hk hl => ?_, fun l chars hash hl => ?_⟩
  · exact hs.strings.hashed l chars hash (hstr _ _ _ hl)
  · exact hs.strings.unique k l chars hash hash' (hstr _ _ _ hk) (hstr _ _ _ hl)
  · rw [strings_link]
    exact hs.strings.bound l chars hash (hstr _ _ _ hl)

end Link

structure Steady (h h' : Heap) : Prop where
  size : h.objects.size ≤ h'.objects.size
  alive : ∀ l < h.objects.size, h'.Alive l → h.Alive l
  isString : ∀ l chars hash, h.IsString l chars hash → h'.Alive l → h'.IsString l chars hash

theorem Alive.lt {l : Loc} (ha : h.Alive l) : l < h.objects.size := by
  obtain ⟨o, ho, -⟩ := ha
  exact (Array.getElem?_eq_some_iff.mp ho).1

namespace Steady

theorem of_objects (ho : h'.objects = h.objects) : h.Steady h' where
  size := Nat.le_of_eq (by rw [ho])
  alive l _ ha := by
    unfold Alive at ha ⊢
    rwa [ho] at ha
  isString l chars hash hs _ := by
    unfold IsString at hs ⊢
    rwa [ho]

theorem trans {h'' : Heap} (h₁ : h.Steady h') (h₂ : h'.Steady h'') : h.Steady h'' where
  size := Nat.le_trans h₁.size h₂.size
  alive l hl ha := h₁.alive l hl (h₂.alive l (Nat.lt_of_lt_of_le hl h₁.size) ha)
  isString l chars hash hs ha := by
    have hl := Nat.lt_of_lt_of_le hs.alive.lt h₁.size
    exact h₂.isString l chars hash (h₁.isString l chars hash hs (h₂.alive l hl ha)) ha

theorem link (body : Body) (size : Nat) : h.Steady (h.link body size).2 where
  size := by
    rw [objects_link, Array.size_push]
    omega
  alive l hl ha := by
    rcases (alive_link body size l).mp ha with ha | rfl
    · exact ha
    · omega
  isString l chars hash hs _ := (isString_link body size).mpr (.inl hs)

end Steady

theorem Charged.steady {roots : List Link} (hch : h.Charged roots h') : h.Steady h' where
  size := Nat.le_of_eq hch.size.symm
  alive l _ ha := by
    obtain ⟨o, ho, hf⟩ := ha
    exact ⟨o, hch.shrunk l o ho hf, hf⟩
  isString l chars hash hs ha := by
    obtain ⟨o, ho, hf⟩ := ha
    obtain ⟨p, hp, -, hb⟩ := hs
    rw [hch.shrunk l o ho hf] at hp
    cases hp
    exact ⟨o, ho, hf, hb⟩

end Heap

namespace HeapM

open Heap

variable {h h' : Heap} (r : Roots) (delta : Int)

theorem account_eq (h : Heap) : account delta r h =
    if h.closed then .error .heapFreed h
    else if 0 < delta ∧ !h.collecting ∧
        (h.options.stress ∨ h.nextGc < h.bytesAllocated + delta) then
      match collect r { h with bytesAllocated := h.bytesAllocated + delta } with
      | .ok _ h' => .ok () h'
      | .error e h' => .error e h'
    else .ok () { h with bytesAllocated := h.bytesAllocated + delta } := by
  have hrest (h : Heap) : (do
      modify fun h => { h with bytesAllocated := h.bytesAllocated + delta }
      let h ← getThe Heap
      if 0 < delta ∧ !h.collecting ∧ (h.options.stress ∨ h.nextGc < h.bytesAllocated) then
        let _ ← collect : HeapM Unit) r h =
      if 0 < delta ∧ !h.collecting ∧ (h.options.stress ∨ h.nextGc < h.bytesAllocated + delta) then
        match collect r { h with bytesAllocated := h.bytesAllocated + delta } with
        | .ok _ h' => .ok () h'
        | .error e h' => .error e h'
      else .ok () { h with bytesAllocated := h.bytesAllocated + delta } := by
    simp only [run_bind, run_modify, run_getHeap, run_ite]
    split
    · generalize collect r _ = x
      cases x <;> rfl
    · rfl
  rw [← hrest]
  rw [show account delta r h = if h.closed = true then _ else _ from
    (run_bind r h _ _).trans ((run_ite r h (h.closed = true) _ _))]
  split
  · rfl
  · rfl

theorem account_ok (hc : h.Consistent) (hcl : h.closed = false) (hi : h.Intact (h.origins r)) :
    ∃ h', account delta r h = .ok () h' ∧ h.Charged (h.origins r) h' := by
  rw [account_eq, if_neg (by simp [hcl])]
  split
  · have hc' : Consistent { h with bytesAllocated := h.bytesAllocated + delta } :=
      hc.congr ⟨rfl, rfl, rfl, rfl, rfl, rfl, rfl⟩
    have hi' : Intact { h with bytesAllocated := h.bytesAllocated + delta } (h.origins r) :=
      hi.congr (by rfl) (by rfl)
    obtain ⟨c, h', hrun, hcol⟩ := collect_ok r hc' hi'
    rw [hrun]
    exact ⟨h', rfl, (hcol.charged hi').of_bytes⟩
  · exact ⟨_, rfl, charged_bytes hc _ _⟩

theorem charged_of_account (hc : h.Consistent) (hrun : account delta r h = .ok () h') :
    h.Charged (h.origins r) h' := by
  rw [account_eq] at hrun
  split at hrun
  · cases hrun
  · split at hrun
    · have hc' : Consistent { h with bytesAllocated := h.bytesAllocated + delta } :=
        hc.congr ⟨rfl, rfl, rfl, rfl, rfl, rfl, rfl⟩
      cases hcol : collect r { h with bytesAllocated := h.bytesAllocated + delta } with
      | error e h₁ => rw [hcol] at hrun; cases hrun
      | ok c h₁ =>
        rw [hcol] at hrun
        cases hrun
        have hi := intact_of_collect r hc' hcol
        obtain ⟨c', h₂, hrun₂, hch⟩ := collect_ok r hc' hi
        rw [hcol] at hrun₂
        cases hrun₂
        exact (hch.charged hi).of_bytes
    · cases hrun
      exact charged_bytes hc _ _

end HeapM

end Lox

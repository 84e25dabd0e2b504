import Mathlib.Algebra.Ring.Nat
import Lox.Proofs.Heap.Sweep
import Lox.Proofs.Heap.Trace
import Lox.Proofs.Table.Growth

namespace Lox

namespace Heap

structure Consistent (h : Heap) : Prop where
  unmarked : ∀ (l : Loc) (o : Object), h.objects[l]? = some o → o.marked = false
  gray : h.gray = []
  idle : h.collecting = false
  nodup : h.live.Nodup
  live : ∀ l, l ∈ h.live ↔ h.Alive l
  named : ∀ (l : Loc) (o : Object), h.objects[l]? = some o → o.freed = false →
    o.ref ≠ 0 ∧ h.slots[o.ref.toNat]? = some (some l)
  owner : ∀ (i : Nat) (l : Loc), h.slots[i]? = some (some l) →
    ∃ o, h.objects[l]? = some o ∧ o.freed = false ∧ o.ref.toNat = i
  zero : h.slots[0]? = some none
  size : h.slots.size ≤ 2 ^ 32
  spare : ∀ ref ∈ h.free, ref ≠ 0 ∧ h.slots[ref.toNat]? = some none
  spare_nodup : h.free.Nodup
  strings : h.strings.Sound
  interned : ∀ k v, h.strings.Binds k v → ∃ o, h.objects[k.loc]? = some o ∧ o.freed = false ∧
    o.body = .string k.chars k.hash

structure SameStore (h h' : Heap) : Prop where
  objects : h'.objects = h.objects
  slots : h'.slots = h.slots
  free : h'.free = h.free
  live : h'.live = h.live
  strings : h'.strings = h.strings
  gray : h'.gray = h.gray
  collecting : h'.collecting = h.collecting

theorem Alive.of_objects {h h' : Heap} (ho : h'.objects = h.objects) (l : Loc) :
    h'.Alive l ↔ h.Alive l :=
  ⟨Alive.congr ho.symm, Alive.congr ho⟩

theorem Consistent.congr {h h' : Heap} (hc : h.Consistent) (hs : h.SameStore h') :
    h'.Consistent where
  unmarked := by rw [hs.objects]; exact hc.unmarked
  gray := hs.gray.trans hc.gray
  idle := hs.collecting.trans hc.idle
  nodup := by rw [hs.live]; exact hc.nodup
  live l := by rw [hs.live, Alive.of_objects hs.objects]; exact hc.live l
  named := by rw [hs.objects, hs.slots]; exact hc.named
  owner := by rw [hs.objects, hs.slots]; exact hc.owner
  zero := by rw [hs.slots]; exact hc.zero
  size := by rw [hs.slots]; exact hc.size
  spare := by rw [hs.slots, hs.free]; exact hc.spare
  spare_nodup := by rw [hs.free]; exact hc.spare_nodup
  strings := by rw [hs.strings]; exact hc.strings
  interned := by rw [hs.objects, hs.strings]; exact hc.interned

theorem find?_eq_some {h : Heap} {ref : Ref} {l : Loc} :
    h.find? ref = some l ↔ ref ≠ 0 ∧ h.slots[ref.toNat]? = some (some l) := by
  unfold find?
  by_cases hr : ref = 0
  · simp [hr]
  · rw [if_neg hr]
    cases h.slots[ref.toNat]? <;> simp [hr]

theorem Consistent.find?_ref {h : Heap} (hc : h.Consistent) {l : Loc} {o : Object}
    (ho : h.objects[l]? = some o) (hf : o.freed = false) : h.find? o.ref = some l :=
  find?_eq_some.mpr (hc.named l o ho hf)

theorem Consistent.ref_of_find? {h : Heap} (hc : h.Consistent) {l : Loc} {ref : Ref}
    (hf : h.find? ref = some l) : ∃ o, h.objects[l]? = some o ∧ o.freed = false ∧ o.ref = ref := by
  obtain ⟨-, hs⟩ := find?_eq_some.mp hf
  obtain ⟨o, ho, hof, hr⟩ := hc.owner _ _ hs
  exact ⟨o, ho, hof, UInt32.toNat_inj.mp hr⟩

structure Collection (h : Heap) (roots : List Link) (h' : Heap) : Prop where
  kept : ∀ l, h.Reach roots l ∨ ¬ h.Alive l → h'.objects[l]? = h.objects[l]?
  freed : ∀ l, ¬ h.Reach roots l → h.Alive l →
    h'.objects[l]? = (h.objects[l]?).map Object.release
  names : ∀ (i : Nat) (l : Loc), h'.slots[i]? = some (some l) ↔
    h.slots[i]? = some (some l) ∧ h.Reach roots l
  strings : ∀ k v, h'.strings.Binds k v ↔ h.strings.Binds k v ∧ h.Reach roots k.loc
  consistent : h'.Consistent
  holds : h'.holds = h.holds
  closed : h'.closed = h.closed
  markers : h'.markers = h.markers
  options : h'.options = h.options
  size : h'.objects.size = h.objects.size
  handles : h'.slots.size = h.slots.size
  capacity : h'.strings.capacity = h.strings.capacity

theorem mem_freedRefs {h : Heap} {ls : List Loc} {ref : Ref} : ref ∈ h.freedRefs ls ↔
    ∃ l ∈ ls, ∃ o, h.objects[l]? = some o ∧ o.marked = false ∧ o.ref = ref := by
  simp only [freedRefs, List.mem_filterMap, Option.bind_eq_some_iff]
  constructor
  · rintro ⟨l, hl, o, ho, hr⟩
    cases hm : o.marked with
    | true => simp [hm] at hr
    | false =>
      simp only [hm, Bool.false_eq_true, ↓reduceIte, Option.some.injEq] at hr
      exact ⟨l, hl, o, ho, hm, hr⟩
  · rintro ⟨l, hl, o, ho, hm, rfl⟩
    exact ⟨l, hl, o, ho, by simp [hm]⟩

theorem nodup_freedRefs {h : Heap} {ls : List Loc} (hnd : ls.Nodup)
    (hinj : ∀ k ∈ ls, ∀ l ∈ ls, ∀ o p, h.objects[k]? = some o → h.objects[l]? = some p →
      o.ref = p.ref → k = l) : (h.freedRefs ls).Nodup := by
  induction ls with
  | nil => exact List.nodup_nil
  | cons l ls ih =>
    obtain ⟨hl, hnd⟩ := List.nodup_cons.mp hnd
    have hls := ih hnd fun k hk j hj =>
      hinj k (List.mem_cons_of_mem _ hk) j (List.mem_cons_of_mem _ hj)
    cases hr : (h.objects[l]?).bind fun o => if o.marked then none else some o.ref with
    | none => simpa [freedRefs, List.filterMap_cons, hr] using hls
    | some ref =>
      rw [show h.freedRefs (l :: ls) = ref :: h.freedRefs ls by
        simp [freedRefs, hr]]
      refine List.nodup_cons.mpr ⟨fun hmem => ?_, hls⟩
      obtain ⟨k, hk, p, hp, -, hpr⟩ := mem_freedRefs.mp hmem
      obtain ⟨o, ho, hor⟩ := Option.bind_eq_some_iff.mp hr
      cases hm : o.marked with
      | true => simp [hm] at hor
      | false =>
        simp only [hm, Bool.false_eq_true, ↓reduceIte, Option.some.injEq] at hor
        have := hinj l (by simp) k (List.mem_cons_of_mem _ hk) o p ho hp (hor.trans hpr.symm)
        exact hl (this ▸ hk)

section Sweep

variable {h hm h' : Heap} {marks : Loc → Bool} {events : List Event} {strings : Table}

def busy (h : Heap) : Heap :=
  { h with collecting := true }

def marked (h : Heap) (marks : Loc → Bool) (events : List Event) (strings : Table) : Heap :=
  { h.busy.withMarks marks [] events with strings }

theorem objects_marked (l : Loc) : (h.marked marks events strings).objects[l]? =
    h.objects[l]?.map fun o => { o with marked := marks l } := by
  simp [marked, withMarks, busy]

variable (hc : h.Consistent) (ha : ∀ l, marks l = true → h.Alive l)

include hc

theorem objects_sweep (hs : (h.marked marks events strings).Swept h' [] h.live) {l : Loc}
    {o : Object} (ho : h.objects[l]? = some o) (hf : o.freed = false) :
    h'.objects[l]? = some (if marks l then o else o.release) := by
  have hl : l ∈ h.live := (hc.live l).mpr ⟨o, ho, hf⟩
  have hm := hc.unmarked l o ho
  obtain ⟨ref, size, marked, freed, body⟩ := o
  rw [hs.objects, objects_marked, ho]
  simp only at hm hf
  subst hm hf
  cases marks l <;> simp [hl, Object.sweep, Object.unmark, Object.release]

include ha in
theorem objects_sweep_freed (hs : (h.marked marks events strings).Swept h' [] h.live) {l : Loc}
    (hd : ¬ h.Alive l) : h'.objects[l]? = h.objects[l]? := by
  have hl : l ∉ h.live := fun hl => hd ((hc.live l).mp hl)
  rw [hs.objects, objects_marked]
  cases ho : h.objects[l]? with
  | none => rfl
  | some o =>
    have hm : marks l = false := by
      cases hm : marks l with
      | false => rfl
      | true => exact absurd (ha l hm) hd
    have hom := hc.unmarked l o ho
    obtain ⟨ref, size, marked, freed, body⟩ := o
    simp only at hom
    subst hom
    simp [hl, hm]

theorem mem_dead {ref : Ref} : ref ∈ (h.marked marks events strings).freedRefs h.live ↔
    ∃ l o, h.objects[l]? = some o ∧ o.freed = false ∧ marks l = false ∧ o.ref = ref := by
  rw [mem_freedRefs]
  constructor
  · rintro ⟨l, hl, o, ho, hm, rfl⟩
    rw [objects_marked] at ho
    obtain ⟨p, hp, rfl⟩ := Option.map_eq_some_iff.mp ho
    obtain ⟨p', hp', hf⟩ := (hc.live l).mp hl
    rw [hp] at hp'
    cases hp'
    exact ⟨l, p, hp, hf, hm, rfl⟩
  · rintro ⟨l, o, ho, hf, hm, rfl⟩
    refine ⟨l, (hc.live l).mpr ⟨o, ho, hf⟩, { o with marked := marks l }, ?_, hm, rfl⟩
    rw [objects_marked, ho]
    rfl

theorem nodup_dead : ((h.marked marks events strings).freedRefs h.live).Nodup := by
  refine nodup_freedRefs hc.nodup fun k hk l hl o p ho hp hr => ?_
  obtain ⟨o', ho', hof⟩ := (hc.live k).mp hk
  obtain ⟨p', hp', hpf⟩ := (hc.live l).mp hl
  rw [objects_marked, ho'] at ho
  rw [objects_marked, hp'] at hp
  obtain rfl := Option.some.inj ho
  obtain rfl := Option.some.inj hp
  have h₁ := hc.find?_ref ho' hof
  have h₂ := hc.find?_ref hp' hpf
  simp only at hr
  rw [hr, h₂] at h₁
  exact (Option.some.inj h₁).symm

theorem slots_sweep (hs : (h.marked marks events strings).Swept h' [] h.live) (i : Nat) (l : Loc) :
    h'.slots[i]? = some (some l) ↔ h.slots[i]? = some (some l) ∧ marks l = true := by
  have hslots : h'.slots =
      clearSlots h.slots ((h.marked marks events strings).freedRefs h.live) := hs.slots
  by_cases hi : i < h.slots.size
  · rw [hslots, getElem?_clearSlots _ _ _ hi]
    constructor
    · intro he
      split at he
      · cases he
      · rename_i hdead
        obtain ⟨o, ho, hf, rfl⟩ := hc.owner i l he
        refine ⟨he, ?_⟩
        cases hm : marks l with
        | true => rfl
        | false => exact absurd ⟨_, (mem_dead hc).mpr ⟨l, o, ho, hf, hm, rfl⟩, rfl⟩ hdead
    · rintro ⟨he, hm⟩
      rw [if_neg, he]
      rintro ⟨ref, hmem, hr⟩
      obtain ⟨k, o, ho, hf, hk, rfl⟩ := (mem_dead hc).mp hmem
      have := (hc.named k o ho hf).2
      rw [hr, he] at this
      cases this
      rw [hm] at hk
      cases hk
  · have h₁ : h.slots[i]? = none := Array.getElem?_eq_none (by omega)
    have h₂ : h'.slots[i]? = none := by
      rw [hslots]
      exact Array.getElem?_eq_none (by rw [size_clearSlots]; omega)
    simp [h₁, h₂]

theorem slots_sweep_none (hs : (h.marked marks events strings).Swept h' [] h.live) (i : Nat)
    (hi : h.slots[i]? = some none ∨
      ∃ ref ∈ (h.marked marks events strings).freedRefs h.live, ref.toNat = i) :
    h'.slots[i]? = some none := by
  have hslots : h'.slots =
      clearSlots h.slots ((h.marked marks events strings).freedRefs h.live) := hs.slots
  have hlt : i < h.slots.size := by
    rcases hi with hi | ⟨ref, hmem, rfl⟩
    · exact (Array.getElem?_eq_some_iff.mp hi).1
    · obtain ⟨k, o, ho, hf, -, rfl⟩ := (mem_dead hc).mp hmem
      exact (Array.getElem?_eq_some_iff.mp (hc.named k o ho hf).2).1
  rw [hslots, getElem?_clearSlots _ _ _ hlt]
  split
  · rfl
  · rename_i hno
    exact hi.resolve_right hno

include ha

theorem alive_sweep (hs : (h.marked marks events strings).Swept h' [] h.live) (l : Loc) :
    h'.Alive l ↔ marks l = true := by
  constructor
  · rintro ⟨o, ho, hf⟩
    by_cases hal : h.Alive l
    · obtain ⟨p, hp, hpf⟩ := hal
      rw [objects_sweep hc hs hp hpf] at ho
      cases hm : marks l with
      | true => rfl
      | false =>
        simp only [hm, Bool.false_eq_true, ↓reduceIte, Option.some.injEq] at ho
        subst ho
        cases hf
    · rw [objects_sweep_freed hc ha hs hal] at ho
      exact absurd ⟨o, ho, hf⟩ hal
  · intro hm
    obtain ⟨o, ho, hf⟩ := ha l hm
    exact ⟨o, by rw [objects_sweep hc hs ho hf, if_pos hm], hf⟩

theorem consistent_sweep (hs : (h.marked marks events strings).Swept h' [] h.live)
    (hst : strings.Sound)
    (hbind : ∀ k v, strings.Binds k v → h.strings.Binds k v ∧ marks k.loc = true) :
    { h' with collecting := false }.Consistent where
  unmarked l o ho := by
    by_cases hal : h.Alive l
    · obtain ⟨p, hp, hpf⟩ := hal
      rw [objects_sweep hc hs hp hpf] at ho
      have hpm := hc.unmarked l p hp
      have hrm : p.release.marked = false := hpm
      rw [← Option.some.inj ho]
      split
      · exact hpm
      · exact hrm
    · rw [objects_sweep_freed hc ha hs hal] at ho
      exact hc.unmarked l o ho
  gray := hs.frame.gray
  idle := rfl
  nodup := by
    rw [hs.live]
    exact hc.nodup.filter _
  live l := by
    show l ∈ h'.live ↔ h'.Alive l
    rw [alive_sweep hc ha hs, hs.live]
    simp only [List.reverse_nil, List.nil_append, List.mem_filter]
    constructor
    · rintro ⟨hl, hm⟩
      obtain ⟨o, ho, -⟩ := (hc.live l).mp hl
      simpa [isMarked, objects_marked, ho] using hm
    · intro hm
      obtain ⟨o, ho, hf⟩ := ha l hm
      exact ⟨(hc.live l).mpr ⟨o, ho, hf⟩, by simpa [isMarked, objects_marked, ho] using hm⟩
  named l o ho hf := by
    have hm := (alive_sweep hc ha hs l).mp ⟨o, ho, hf⟩
    obtain ⟨p, hp, hpf⟩ := ha l hm
    rw [objects_sweep hc hs hp hpf, if_pos hm] at ho
    cases ho
    obtain ⟨hr, hsl⟩ := hc.named l _ hp hpf
    exact ⟨hr, (slots_sweep hc hs _ _).mpr ⟨hsl, hm⟩⟩
  owner i l hi := by
    obtain ⟨hsl, hm⟩ := (slots_sweep hc hs _ _).mp hi
    obtain ⟨o, ho, hf, hr⟩ := hc.owner i l hsl
    exact ⟨o, by rw [objects_sweep hc hs ho hf, if_pos hm], hf, hr⟩
  zero := slots_sweep_none hc hs 0 (.inl hc.zero)
  size := by
    rw [hs.slots, size_clearSlots]
    exact hc.size
  spare ref href := by
    rw [hs.free, List.mem_append, List.mem_reverse] at href
    rcases href with href | href
    · obtain ⟨k, o, ho, hf, -, rfl⟩ := (mem_dead hc).mp href
      exact ⟨(hc.named k o ho hf).1, slots_sweep_none hc hs _ (.inr ⟨_, href, rfl⟩)⟩
    · obtain ⟨hr, hsl⟩ := hc.spare ref href
      exact ⟨hr, slots_sweep_none hc hs _ (.inl hsl)⟩
  spare_nodup := by
    rw [hs.free, List.nodup_append]
    refine ⟨List.pairwise_reverse.mpr ((nodup_dead hc).imp Ne.symm), hc.spare_nodup, fun ref href ref' href' he => ?_⟩
    subst he
    obtain ⟨k, o, ho, hf, -, rfl⟩ := (mem_dead hc).mp (List.mem_reverse.mp href)
    have h₁ := (hc.named k o ho hf).2
    rw [(hc.spare _ href').2] at h₁
    cases h₁
  strings := by rw [hs.frame.strings]; exact hst
  interned k v hb := by
    rw [hs.frame.strings] at hb
    obtain ⟨hb, hm⟩ := hbind k v hb
    obtain ⟨o, ho, hf, hbody⟩ := hc.interned k v hb
    exact ⟨o, by rw [objects_sweep hc hs ho hf, if_pos hm], hf, hbody⟩

end Sweep

end Heap

end Lox

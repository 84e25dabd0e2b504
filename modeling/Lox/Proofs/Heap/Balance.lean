import Lox.Proofs.Heap.Reachable
import Lox.Proofs.Heap.Registry

namespace Lox

namespace Heap

variable {h h' h'' : Heap}

def costAt (h : Heap) (l : Loc) : Nat :=
  match h.objects[l]? with
  | some o => o.size + o.body.ownedBytes
  | none => 0

def footprint (h : Heap) : Nat :=
  (h.live.map h.costAt).sum + h.strings.capacity * 16

def surplus (h : Heap) : Int :=
  h.bytesAllocated - h.footprint

structure Counted (h : Heap) : Prop where
  live : h.liveObjects = h.live.length
  ever : h.liveObjects + h.objectsFreed = h.objects.size

theorem costAt_eq {l : Loc} {o : Object} (ho : h.objects[l]? = some o) :
    h.costAt l = o.size + o.body.ownedBytes := by
  simp [costAt, ho]

theorem costAt_congr {l : Loc} (ho : h'.objects[l]? = h.objects[l]?) :
    h'.costAt l = h.costAt l := by
  simp [costAt, ho]

theorem footprint_congr (hlive : h'.live = h.live) (hcost : ∀ l ∈ h.live, h'.costAt l = h.costAt l)
    (hcap : h'.strings.capacity = h.strings.capacity) : h'.footprint = h.footprint := by
  unfold footprint
  rw [hlive, hcap, List.map_congr_left hcost]

theorem log_bytesAllocated (e : Event) : (h.log e).bytesAllocated = h.bytesAllocated := by
  unfold log; split <;> rfl

theorem log_liveObjects (e : Event) : (h.log e).liveObjects = h.liveObjects := by
  unfold log; split <;> rfl

theorem log_objectsFreed (e : Event) : (h.log e).objectsFreed = h.objectsFreed := by
  unfold log; split <;> rfl

theorem kind_emptied (b : Body) : b.emptied.kind = b.kind := by
  cases b <;> rfl

theorem bytesAllocated_release {l : Loc} {o : Object} (ho : h.objects[l]? = some o) :
    (h.release l).bytesAllocated = h.bytesAllocated - h.costAt l ∧
      (h.release l).liveObjects = h.liveObjects - 1 ∧
      (h.release l).objectsFreed = h.objectsFreed + 1 := by
  rw [release_eq ho, log_bytesAllocated, log_liveObjects, log_objectsFreed, costAt_eq ho]
  exact ⟨rfl, rfl, rfl⟩

def unmarkedIn (h : Heap) (ls : List Loc) : List Loc :=
  ls.filter fun l => !h.isMarked l

theorem unmarkedIn_congr {ls : List Loc} (hk : ∀ k ∈ ls, h'.objects[k]? = h.objects[k]?) :
    h'.unmarkedIn ls = h.unmarkedIn ls :=
  List.filter_congr fun k hm => by rw [isMarked_congr (hk k hm)]

structure Refunded (h h' : Heap) (ls : List Loc) : Prop where
  bytes : h'.bytesAllocated = h.bytesAllocated - ((h.unmarkedIn ls).map h.costAt).sum
  live : ls.length ≤ h.liveObjects →
    h'.liveObjects + (h.unmarkedIn ls).length = h.liveObjects
  freed : h'.objectsFreed = h.objectsFreed + (h.unmarkedIn ls).length

theorem sweepList_refunded (kept ls : List Loc) (h : Heap) (hnd : ls.Nodup)
    (hex : ∀ l ∈ ls, ∃ o, h.objects[l]? = some o) : h.Refunded (sweepList kept ls h) ls := by
  induction ls generalizing kept h with
  | nil => constructor <;> simp [sweepList, unmarkedIn]
  | cons l ls ih =>
    obtain ⟨hl, hnd⟩ := List.nodup_cons.mp hnd
    obtain ⟨o, ho⟩ := hex l (by simp)
    have hne : ∀ k ∈ ls, k ≠ l := fun k hk he => hl (he ▸ hk)
    -- the rest of the list is the same objects, whatever becomes of the first one
    have hrest (h₁ : Heap) (h₁o : ∀ k ∈ ls, h₁.objects[k]? = h.objects[k]?) (kept : List Loc) :
        (sweepList kept ls h₁).bytesAllocated =
            h₁.bytesAllocated - ((h.unmarkedIn ls).map h.costAt).sum ∧
          (ls.length ≤ h₁.liveObjects →
            (sweepList kept ls h₁).liveObjects + (h.unmarkedIn ls).length = h₁.liveObjects) ∧
          (sweepList kept ls h₁).objectsFreed = h₁.objectsFreed + (h.unmarkedIn ls).length := by
      have hex₁ : ∀ k ∈ ls, ∃ o, h₁.objects[k]? = some o := by
        intro k hk
        obtain ⟨o', ho'⟩ := hex k (List.mem_cons_of_mem _ hk)
        exact ⟨o', (h₁o k hk).trans ho'⟩
      obtain ⟨hb, hlive, hfreed⟩ := ih kept h₁ hnd hex₁
      rw [unmarkedIn_congr h₁o] at hb hlive hfreed
      have hcost : (h.unmarkedIn ls).map h₁.costAt = (h.unmarkedIn ls).map h.costAt :=
        List.map_congr_left fun k hk => costAt_congr (h₁o k (List.mem_filter.mp hk).1)
      rw [hcost] at hb
      exact ⟨hb, hlive, hfreed⟩
    cases hm : h.isMarked l with
    | true =>
      have hcons : h.unmarkedIn (l :: ls) = h.unmarkedIn ls := by simp [unmarkedIn, hm]
      obtain ⟨hb, hlive, hfreed⟩ := hrest (h.update l Object.unmark)
        (fun k hk => by rw [objects_update, if_neg (hne k hk)]) (l :: kept)
      rw [sweepList, if_pos hm]
      constructor <;> rw [hcons]
      · exact hb
      · intro hlen
        rw [List.length_cons] at hlen
        exact hlive (Nat.le_of_succ_le hlen)
      · exact hfreed
    | false =>
      have hcons : h.unmarkedIn (l :: ls) = l :: h.unmarkedIn ls := by simp [unmarkedIn, hm]
      obtain ⟨hb₁, hlive₁, hfreed₁⟩ := bytesAllocated_release ho
      obtain ⟨hb, hlive, hfreed⟩ := hrest (h.release l)
        (fun k hk => by rw [objects_release ho, if_neg (hne k hk)]) kept
      rw [sweepList, if_neg (by simp [hm])]
      constructor <;> rw [hcons]
      · rw [hb, hb₁, List.map_cons, List.sum_cons]
        omega
      · intro hlen
        rw [List.length_cons] at hlen ⊢
        have := hlive (by omega)
        omega
      · rw [hfreed, hfreed₁, List.length_cons]
        omega

theorem sum_costAt_split (h : Heap) (ls : List Loc) (f : Loc → Nat) :
    (ls.map f).sum = ((ls.filter h.isMarked).map f).sum + ((h.unmarkedIn ls).map f).sum := by
  induction ls with
  | nil => rfl
  | cons l ls ih =>
    cases hm : h.isMarked l with
    | true =>
      simp only [unmarkedIn, List.filter_cons, hm, ↓reduceIte, Bool.not_true, Bool.false_eq_true,
        List.map_cons, List.sum_cons, ih]
      omega
    | false =>
      simp only [unmarkedIn, List.filter_cons, hm, ↓reduceIte, Bool.not_false, Bool.false_eq_true,
        List.map_cons, List.sum_cons, ih]
      omega

theorem length_split (h : Heap) (ls : List Loc) :
    ls.length = (ls.filter h.isMarked).length + (h.unmarkedIn ls).length := by
  simp only [unmarkedIn, ← List.countP_eq_length_filter]
  rw [List.length_eq_countP_add_countP h.isMarked]
  simp

section Sweep

variable (hnd : h.live.Nodup) (hex : ∀ l ∈ h.live, ∃ o, h.objects[l]? = some o)

include hnd hex

theorem surplus_sweep : h.sweep.surplus = h.surplus := by
  have hs := sweepList_swept [] h.live h hnd hex
  have hr := sweepList_refunded [] h.live h hnd hex
  have hlive : h.sweep.live = h.live.filter h.isMarked := hs.live
  have hcost : ∀ l ∈ h.live.filter h.isMarked, h.sweep.costAt l = h.costAt l := by
    intro l hl
    obtain ⟨hm, hmark⟩ := List.mem_filter.mp hl
    obtain ⟨o, ho⟩ := hex l hm
    have hmarked : o.marked = true := by simpa [isMarked, ho] using hmark
    have hsw : h.sweep.objects[l]? = some o.unmark := by
      rw [sweep, hs.objects, ho]
      simp [hm, Object.sweep, hmarked]
    rw [costAt_eq hsw, costAt_eq ho]
    rfl
  have hsplit := sum_costAt_split h h.live h.costAt
  have hbytes := hr.bytes
  have hcap : h.sweep.strings = h.strings := hs.frame.strings
  simp only [surplus, footprint, hlive, hcap, List.map_congr_left hcost]
  rw [show h.sweep.bytesAllocated = _ from hbytes]
  omega

theorem Counted.sweep (hcount : h.Counted) : h.sweep.Counted := by
  have hs := sweepList_swept [] h.live h hnd hex
  have hr := sweepList_refunded [] h.live h hnd hex
  have hlive : h.sweep.live = h.live.filter h.isMarked := hs.live
  have hsize : h.sweep.objects.size = h.objects.size := hs.frame.size
  have hleft : h.sweep.liveObjects + (h.unmarkedIn h.live).length = h.liveObjects :=
    hr.live (Nat.le_of_eq hcount.live.symm)
  have hfreed : h.sweep.objectsFreed = h.objectsFreed + (h.unmarkedIn h.live).length := hr.freed
  have hsplit := length_split h h.live
  have h₁ := hcount.live
  have h₂ := hcount.ever
  constructor
  · rw [hlive]
    omega
  · rw [hsize, hfreed]
    omega

end Sweep

structure Pinned (h : Heap) (r : Roots) (l : Loc) : Prop where
  open_ : h.closed = false
  alive : h.Alive l
  link : ∃ link ∈ h.registered r, IsDirect link ∧ h.Leads link l

theorem Pinned.reach {r : Roots} {l : Loc} (ha : h.Pinned r l) : h.Reach (h.origins r) l := by
  obtain ⟨link, hm, -, hl⟩ := ha.link
  exact .root (List.mem_append_right _ hm) hl

structure Books (r : Roots) (delta : Int) (h h' : Heap) : Prop where
  closed : h'.closed = h.closed
  markers : h'.markers = h.markers
  surplus : h'.surplus = h.surplus + delta
  counted : h.Counted → h'.Counted
  alive : ∀ l, h.Pinned r l → h'.Alive l
  handles : ∀ (l : Loc) (o : Object), h.objects[l]? = some o →
    ∃ o', h'.objects[l]? = some o' ∧ o'.ref = o.ref ∧ o'.kind = o.kind
  consistent : h'.Consistent

namespace Books

variable {r : Roots} {delta delta' : Int}

theorem pinned (hb : Books r delta h h') (hc : h.Consistent) {l : Loc} (ha : h.Pinned r l) :
    h'.Pinned r l := by
  obtain ⟨link, hm, hd, hl⟩ := ha.link
  refine ⟨hb.closed.trans ha.open_, hb.alive l ha, link, ?_, hd, ?_⟩
  · rwa [registered, hb.markers]
  cases hl with
  | value hv hf =>
    obtain ⟨o, ho, -, hr⟩ := hc.ref_of_find? hf
    obtain ⟨o', ho', hr', -⟩ := hb.handles l o ho
    obtain ⟨p, hp, hpf⟩ := hb.alive l ha
    rw [ho'] at hp
    cases hp
    have hfind := hb.consistent.find?_ref ho' hpf
    rw [hr', hr] at hfind
    exact .value hv hfind
  | object => exact .object l
  | fields => exact absurd hd id

theorem trans (hb : Books r delta h h') (hc : h.Consistent) (hb' : Books r delta' h' h'') :
    Books r (delta + delta') h h'' where
  closed := hb'.closed.trans hb.closed
  markers := hb'.markers.trans hb.markers
  surplus := by
    rw [hb'.surplus, hb.surplus]
    omega
  counted hcount := hb'.counted (hb.counted hcount)
  alive l ha := hb'.alive l (hb.pinned hc ha)
  handles l o ho := by
    obtain ⟨o', ho', hr', hk'⟩ := hb.handles l o ho
    obtain ⟨o'', ho'', hr'', hk''⟩ := hb'.handles l o' ho'
    exact ⟨o'', ho'', hr''.trans hr', hk''.trans hk'⟩
  consistent := hb'.consistent

theorem of_store (hc : h.Consistent) (hs : h.SameStore h') (hcl : h'.closed = h.closed)
    (hmk : h'.markers = h.markers) (hlive : h'.liveObjects = h.liveObjects)
    (hfreed : h'.objectsFreed = h.objectsFreed) :
    Books r (h'.bytesAllocated - h.bytesAllocated) h h' where
  closed := hcl
  markers := hmk
  surplus := by
    have hfoot := footprint_congr hs.live (fun l _ => costAt_congr (by rw [hs.objects]))
      (by rw [hs.strings])
    simp only [Heap.surplus, hfoot]
    omega
  counted hcount := by
    constructor
    · rw [hlive, hs.live, hcount.live]
    · rw [hlive, hfreed, hs.objects, hcount.ever]
  alive l ha := ha.alive.congr hs.objects
  handles l o ho := ⟨o, by rw [hs.objects, ho], rfl, rfl⟩
  consistent := hc.congr hs

theorem unjoined {k : RootMarker} {links : List Link} (hk : k ∉ h.markers)
    (hb : Books (standing r k links) delta { h with markers := h.markers ++ [k] } h') :
    Books r delta h { h' with markers := h.markers } where
  closed := hb.closed
  markers := rfl
  surplus := hb.surplus
  counted hcount :=
    have hcount' := hb.counted ⟨hcount.live, hcount.ever⟩
    ⟨hcount'.live, hcount'.ever⟩
  alive l ha := by
    obtain ⟨link, hm, hd, hl⟩ := ha.link
    exact (hb.alive l ⟨ha.open_, ha.alive.congr rfl, link, (mem_registered_joined hk).mpr (.inr hm), hd,
      hl.congr (by rfl) (by rfl)⟩).congr rfl
  handles := hb.handles
  consistent := hb.consistent.congr ⟨rfl, rfl, rfl, rfl, rfl, rfl, rfl⟩

theorem refl (hc : h.Consistent) : Books r 0 h h := by
  have hb := of_store (r := r) hc ⟨rfl, rfl, rfl, rfl, rfl, rfl, rfl⟩ rfl rfl rfl rfl
  rwa [Int.sub_self] at hb

end Books

theorem books_link {r : Roots} (hc : h.Consistent) (body : Body) (size : Nat)
    (hroom : (h.link body size).2.slots.size ≤ 2 ^ 32) :
    Books r (-(size + body.ownedBytes : Nat)) h (h.link body size).2 where
  closed := closed_link body size
  markers := markers_link body size
  surplus := by
    have hold : ∀ l ∈ h.live, (h.link body size).2.costAt l = h.costAt l := by
      intro l hl
      have hlt := ((hc.live l).mp hl).lt
      exact costAt_congr (by rw [objects_link, Array.getElem?_push, if_neg (Nat.ne_of_lt hlt)])
    have hobj : (h.link body size).2.objects[h.objects.size]? =
        some ⟨(h.takeHandle h.objects.size).1, size, false, false, body⟩ := by
      rw [objects_link, Array.getElem?_push, if_pos rfl]
    have hnew := costAt_eq hobj
    simp only at hnew
    have hbytes : (h.link body size).2.bytesAllocated = h.bytesAllocated := log_bytesAllocated _
    simp only [Heap.surplus, footprint, live_link, strings_link, hbytes, List.map_cons,
      List.sum_cons, hnew, List.map_congr_left hold]
    omega
  counted hcount := by
    have hlive : (h.link body size).2.liveObjects = h.liveObjects + 1 := log_liveObjects _
    have hfreed : (h.link body size).2.objectsFreed = h.objectsFreed := log_objectsFreed _
    have h₁ := hcount.live
    have h₂ := hcount.ever
    constructor
    · rw [hlive, live_link, List.length_cons]
      omega
    · rw [hlive, hfreed, objects_link, Array.size_push]
      omega
  alive l ha := (alive_link body size l).mpr (.inl ha.alive)
  handles l o ho := by
    refine ⟨o, ?_, rfl, rfl⟩
    have hlt := (Array.getElem?_eq_some_iff.mp ho).1
    rw [objects_link, Array.getElem?_push, if_neg (Nat.ne_of_lt hlt), ho]
  consistent := hc.link body size hroom

structure KeepsKinds (f : Body → Body) : Prop where
  string : ∀ chars hash, f (.string chars hash) = .string chars hash
  kind : ∀ b, (f b).kind = b.kind

theorem KeepsKinds.keepsStrings {f : Body → Body} (hf : KeepsKinds f) : KeepsStrings f where
  string := hf.string
  other b hb := by
    rw [hf.kind]
    exact hb

theorem sum_costAt_update {ls : List Loc} {l : Loc} (hnd : ls.Nodup) (hl : l ∈ ls)
    (hsame : ∀ k ∈ ls, k ≠ l → h'.costAt k = h.costAt k) :
    (ls.map h'.costAt).sum + h.costAt l = (ls.map h.costAt).sum + h'.costAt l := by
  induction ls with
  | nil => cases hl
  | cons k ls ih =>
    obtain ⟨hk, hnd⟩ := List.nodup_cons.mp hnd
    simp only [List.map_cons, List.sum_cons]
    by_cases hkl : k = l
    · subst hkl
      have hrest : ls.map h'.costAt = ls.map h.costAt := List.map_congr_left fun j hj =>
        hsame j (List.mem_cons_of_mem _ hj) fun he => hk (he ▸ hj)
      rw [hrest]
      omega
    · have hrest := ih hnd (List.mem_of_ne_of_mem (Ne.symm hkl) hl) fun j hj =>
        hsame j (List.mem_cons_of_mem _ hj)
      have hcost := hsame k (List.mem_cons_self ..) hkl
      omega

section Update

variable {r : Roots} (hc : h.Consistent) {l : Loc} {f : Body → Body} (hf : KeepsKinds f)

include hc hf

theorem books_updateBody_of_surplus {delta : Int}
    (hsur : (h.updateBody l f).surplus = h.surplus + delta) : Books r delta h (h.updateBody l f) where
  closed := rfl
  markers := rfl
  surplus := hsur
  counted hcount := by
    refine ⟨hcount.live, ?_⟩
    rw [show (h.updateBody l f).objects.size = h.objects.size by simp [updateBody, update]]
    exact hcount.ever
  alive k ha := (alive_updateBody l k f).mpr ha.alive
  handles k p hp := by
    refine ⟨_, by rw [objects_updateBody, hp]; rfl, ?_, ?_⟩
    · split <;> rfl
    · split
      · exact hf.kind p.body
      · rfl
  consistent := hc.updateBody l hf.keepsStrings

theorem books_updateBody {o : Object} (ho : h.objects[l]? = some o) (hlive : o.freed = false) :
    Books r (o.body.ownedBytes - (f o.body).ownedBytes) h (h.updateBody l f) := by
  apply books_updateBody_of_surplus hc hf
  have hnew : (h.updateBody l f).objects[l]? = some { o with body := f o.body } := by
    rw [objects_updateBody, ho]
    simp
  have hsame : ∀ k ∈ h.live, k ≠ l → (h.updateBody l f).costAt k = h.costAt k := by
    intro k _ hk
    refine costAt_congr ?_
    rw [objects_updateBody]
    simp [hk]
  have hsum := sum_costAt_update hc.nodup ((hc.live l).mpr ⟨o, ho, hlive⟩) hsame
  rw [costAt_eq ho, costAt_eq hnew] at hsum
  simp only [Heap.surplus, footprint]
  rw [show (h.updateBody l f).live = h.live from rfl,
    show (h.updateBody l f).strings = h.strings from rfl,
    show (h.updateBody l f).bytesAllocated = h.bytesAllocated from rfl]
  simp only at hsum
  omega

theorem books_updateBody_same (hown : ∀ b, (f b).ownedBytes = b.ownedBytes) :
    Books r 0 h (h.updateBody l f) := by
  apply books_updateBody_of_surplus hc hf
  have hcost : ∀ k ∈ h.live, (h.updateBody l f).costAt k = h.costAt k := by
    intro k _
    simp only [costAt, objects_updateBody]
    cases h.objects[k]? with
    | none => rfl
    | some o =>
      simp only [Option.map_some]
      split
      · rw [hown]
      · rfl
  have hfoot : (h.updateBody l f).footprint = h.footprint := footprint_congr rfl hcost rfl
  simp only [Heap.surplus, hfoot, Int.add_zero]
  rfl

end Update

theorem books_strings {r : Roots} {t : Table} {holds : List Value}
    (hc : Consistent { h with strings := t, holds }) :
    Books r ((h.strings.capacity - t.capacity : Int) * 16) h { h with strings := t, holds } where
  closed := rfl
  markers := rfl
  surplus := by
    simp only [Heap.surplus, footprint]
    have hcost : ∀ l ∈ h.live, costAt { h with strings := t, holds } l = h.costAt l :=
      fun l _ => rfl
    rw [List.map_congr_left hcost]
    omega
  counted hcount := ⟨hcount.live, hcount.ever⟩
  alive l ha := ha.alive
  handles l o ho := ⟨o, ho, rfl, rfl⟩
  consistent := hc

theorem books_holds {r : Roots} (hc : h.Consistent) (holds : List Value) :
    Books r 0 h { h with holds } := by
  have hs : h.SameStore { h with holds } := ⟨rfl, rfl, rfl, rfl, rfl, rfl, rfl⟩
  have hb := Books.of_store (r := r) hc hs rfl rfl rfl rfl
  rwa [Int.sub_self] at hb

end Heap

namespace HeapM

open Heap

variable {h h' : Heap} (r : Roots)

theorem books_collect (hc : h.Consistent) {c : Collected} (hrun : collect r h = .ok c h') :
    Books r 0 h h' := by
  have hi := intact_of_collect r hc hrun
  obtain ⟨c', marks, events, hok, hm, ha⟩ := collect_marks r hc hi
  rw [hrun] at hok
  injection hok with _ hh
  have hcol := collection_of_marks hc events h.bytesAllocated hm ha
  rw [← hh] at hcol
  -- the heap before the sweep, with marks and without the strings that have none
  let k := h.marked marks events
    (h.strings.retain fun s => (h.busy.withMarks marks [] events).isMarked s.loc).2
  have hobj : ∀ l : Loc, k.objects[l]? =
      h.objects[l]?.map fun o : Object => { o with marked := marks l } :=
    fun l => objects_marked l
  have hex : ∀ l ∈ k.live, ∃ o, k.objects[l]? = some o := by
    intro l hl
    obtain ⟨o, ho, -⟩ := (hc.live l).mp hl
    exact ⟨_, by rw [hobj, ho]; rfl⟩
  have hbefore : k.surplus = h.surplus := by
    have hcost : ∀ l ∈ h.live, k.costAt l = h.costAt l := by
      intro l _
      simp only [costAt, hobj]
      cases h.objects[l]? <;> rfl
    have hcap : k.strings.capacity = h.strings.capacity := by
      simp [k, marked, Table.retain, Table.capacity]
    have hfoot : k.footprint = h.footprint := footprint_congr rfl hcost hcap
    simp only [surplus, hfoot]
    rfl
  have hafter : h'.surplus = k.sweep.surplus ∧ (k.sweep.Counted → h'.Counted) := by
    have hset : h'.live = k.sweep.live ∧ h'.objects = k.sweep.objects ∧
        h'.strings = k.sweep.strings ∧ h'.bytesAllocated = k.sweep.bytesAllocated ∧
        h'.liveObjects = k.sweep.liveObjects ∧ h'.objectsFreed = k.sweep.objectsFreed := by
      rw [hh, settle]
      exact ⟨log_live _, log_objects _, log_strings _, log_bytesAllocated _, log_liveObjects _,
        log_objectsFreed _⟩
    obtain ⟨h₁, h₂, h₃, h₄, h₅, h₆⟩ := hset
    constructor
    · have hfoot := footprint_congr h₁ (fun l _ => costAt_congr (by rw [h₂])) (by rw [h₃])
      simp only [surplus, hfoot, h₄]
    · intro hcount
      exact ⟨by rw [h₅, h₁, hcount.live], by rw [h₅, h₆, h₂, hcount.ever]⟩
  exact
    { closed := hcol.closed
      markers := hcol.markers
      surplus := by
        rw [hafter.1, surplus_sweep (h := k) hc.nodup hex, hbefore, Int.add_zero]
      counted := fun hcount => by
        refine hafter.2 (Counted.sweep (h := k) hc.nodup hex ⟨hcount.live, ?_⟩)
        rw [show k.objects.size = h.objects.size by simp [k, marked, withMarks, busy]]
        exact hcount.ever
      alive := fun l hl => (hcol.alive_iff hi l).mpr hl.reach
      handles := fun l o ho => by
        by_cases hl : h.Reach (h.origins r) l ∨ ¬ h.Alive l
        · exact ⟨o, (hcol.kept l hl).trans ho, rfl, rfl⟩
        · rw [not_or, Classical.not_not] at hl
          have hfr := hcol.freed l hl.1 hl.2
          rw [ho] at hfr
          exact ⟨_, hfr, rfl, kind_emptied o.body⟩
      consistent := hcol.consistent }

theorem books_account (hc : h.Consistent) {delta : Int} (hrun : account delta r h = .ok () h') :
    Books r delta h h' := by
  have hbytes : Books r delta h { h with bytesAllocated := h.bytesAllocated + delta } := by
    have hs : h.SameStore { h with bytesAllocated := h.bytesAllocated + delta } :=
      ⟨rfl, rfl, rfl, rfl, rfl, rfl, rfl⟩
    have hb := Books.of_store (r := r) hc hs rfl rfl rfl rfl
    simpa [Int.add_comm, Int.add_sub_cancel] using hb
  rw [account_eq] at hrun
  split at hrun
  · cases hrun
  · split at hrun
    · cases hcol : collect r { h with bytesAllocated := h.bytesAllocated + delta } with
      | error e h₁ => rw [hcol] at hrun; cases hrun
      | ok c h₁ =>
        rw [hcol] at hrun
        cases hrun
        have hb := hbytes.trans hc (books_collect r hbytes.consistent hcol)
        rwa [Int.add_zero] at hb
    · cases hrun
      exact hbytes

end HeapM

end Lox

import Lox.Proofs.Heap.Evolve

namespace Lox

namespace Heap

/-- There are more handles in use than a handle can tell apart. -/
def Exhausted (h : Heap) : Prop :=
  2 ^ 32 < h.slots.size

/-- What can make a charge of bytes fail. -/
def Trouble (r : Roots) (h : Heap) : Prop :=
  h.closed = true ∨ ¬ h.Intact (h.origins r) ∨ ∃ link ∈ h.origins r, ¬ IsDirect link

theorem not_trouble {r : Roots} {h : Heap} (ht : ¬ h.Trouble r) : h.closed = false ∧
    h.Intact (h.origins r) ∧ ∀ link ∈ h.origins r, IsDirect link := by
  simp only [Trouble, not_or, not_exists, not_and, Classical.not_not, Bool.not_eq_true] at ht
  exact ht

end Heap

namespace HeapM

open Heap HeapView

variable {α β : Type}

/-- From the heap `h` an operation ends as stated, or fails because of `bad`. -/
def Delivers (bad : Prop) (r : Roots) (h : Heap) (act : HeapM α) (post : α → Heap → Prop) : Prop :=
  match act r h with
  | .ok a h' => Exhausted h' ∨ post a h'
  | .error _ h' => Exhausted h' ∨ bad

variable {bad : Prop} {r : Roots} {h h' : Heap}

theorem Delivers.imp {act : HeapM α} {post post' : α → Heap → Prop}
    (hd : Delivers bad r h act post) (himp : ∀ a h', post a h' → post' a h') :
    Delivers bad r h act post' := by
  unfold Delivers at hd ⊢
  split at hd
  · exact hd.imp_right (himp _ _)
  · exact hd

theorem Delivers.bind {x : HeapM α} {f : α → HeapM β} {mid : α → Heap → Prop}
    {post : β → Heap → Prop} (hx : Delivers bad r h x mid) (hg : ∀ a, Grows (f a))
    (hf : ∀ a h', mid a h' → Delivers bad r h' (f a) post) : Delivers bad r h (x >>= f) post := by
  unfold Delivers at hx ⊢
  rw [run_bind]
  cases hxr : x r h with
  | error e h' =>
    rw [hxr] at hx
    exact hx
  | ok a h' =>
    rw [hxr] at hx
    rcases hx with hex | hmid
    · have hgrow := hg a r h'
      have hend : Exhausted (finalState (f a r h')) := Nat.lt_of_lt_of_le hex hgrow
      simp only []
      cases hfr : f a r h' <;> rw [hfr] at hend <;> exact .inl hend
    · exact hf a h' hmid

theorem delivers_pure {a : α} {post : α → Heap → Prop} (hp : post a h) :
    Delivers bad r h (pure a) post :=
  .inr hp

theorem delivers_view {view : HeapView α} {a : α} {post : α → Heap → Prop} (hv : view h = .ok a)
    (hp : post a h) : Delivers bad r h (liftM view) post := by
  unfold Delivers
  rw [run_view, hv]
  exact .inr hp

theorem delivers_view_bind {view : HeapView α} {f : α → HeapM β} {a : α} {post : β → Heap → Prop}
    (hv : view h = .ok a) (hf : Delivers bad r h (f a) post) :
    Delivers bad r h (liftM view >>= f) post := by
  unfold Delivers
  rw [run_bind, run_view, hv]
  exact hf

theorem delivers_getHeap_bind {f : Heap → HeapM β} {post : β → Heap → Prop}
    (hf : Delivers bad r h (f h) post) : Delivers bad r h (getThe Heap >>= f) post := by
  unfold Delivers
  rw [run_bind, run_getHeap]
  exact hf

theorem delivers_modify {f : Heap → Heap} {post : Unit → Heap → Prop} (hp : post () (f h)) :
    Delivers bad r h (modify f) post :=
  .inr hp

theorem delivers_modify_bind {g : Heap → Heap} {f : Unit → HeapM β} {post : β → Heap → Prop}
    (hf : Delivers bad r (g h) (f ()) post) : Delivers bad r h (modify g >>= f) post := by
  unfold Delivers
  rw [run_bind, run_modify]
  exact hf

theorem Delivers.of_ok {act : HeapM α} {post : α → Heap → Prop} {a : α}
    (hd : Delivers bad r h act post) (hrun : act r h = .ok a h') (hroom : ¬ Exhausted h') :
    post a h' := by
  unfold Delivers at hd
  rw [hrun] at hd
  exact hd.resolve_left hroom

theorem delivers_account (hc : h.Consistent) (hbad : h.Trouble r → bad) (delta : Int) :
    Delivers bad r h (account delta) fun _ h' => h.Charged (h.origins r) h' := by
  unfold Delivers
  cases hrun : account delta r h with
  | ok u h' => exact .inr (charged_of_account r delta hc hrun)
  | error e h' =>
    right
    apply hbad
    by_cases hcl : h.closed = true
    · exact .inl hcl
    · refine .inr (.inl fun hi => ?_)
      obtain ⟨h₁, hok, -⟩ := account_ok r delta hc (by simpa using hcl) hi
      rw [hrun] at hok
      cases hok

def Allocates (r : Roots) (h : Heap) (body : Body) (size : Nat) (l : Loc) (h' : Heap) : Prop :=
  ∃ h₁, h.Charged (h.origins r) h₁ ∧ l = h₁.objects.size ∧ h' = (h₁.link body size).2 ∧
    h'.slots.size ≤ 2 ^ 32

theorem delivers_allocate (hc : h.Consistent) (hbad : h.Trouble r → bad) (body : Body)
    (size : Nat) : Delivers bad r h (allocate body size) (Allocates r h body size) := by
  refine (delivers_account hc hbad size).bind (fun _ => ?_) fun _ h₁ hch => ?_
  · refine grows_modifyGet fun h => ?_
    have := size_takeHandle h.objects.size h
    rw [slots_link]
    split at this <;> omega
  · by_cases hex : Exhausted (h₁.link body size).2
    · exact .inl hex
    · exact .inr ⟨h₁, hch, rfl, rfl, Nat.le_of_not_lt hex⟩

theorem delivers_hold_bind {v : Value} {f : Nat → HeapM β} {post : β → Heap → Prop}
    (hf : Delivers bad r { h with holds := v :: h.holds } (f (h.holds.length + 1)) post) :
    Delivers bad r h (hold v >>= f) post := by
  unfold Delivers
  rw [run_bind]
  exact hf

theorem unhold_eq (depth : Nat) (h : Heap) : unhold depth r h =
    if h.holds.length ≠ depth then .error (.holdOrder depth h.holds.length) h
    else .ok () { h with holds := h.holds.tail } := by
  have hrun := run_bind r h (getThe Heap) fun h => (do
    if h.holds.length ≠ depth then throw (.holdOrder depth h.holds.length)
    modify fun h => { h with holds := h.holds.tail } : HeapM Unit)
  refine hrun.trans ?_
  simp only [run_getHeap, run_bind, run_ite]
  split
  · rfl
  · rfl

theorem delivers_unhold {v : Value} {vs : List Value} {post : Unit → Heap → Prop}
    (hh : h.holds = v :: vs) (hp : post () { h with holds := vs }) :
    Delivers bad r h (unhold (vs.length + 1)) post := by
  unfold Delivers
  rw [unhold_eq, if_neg (by simp [hh]), hh]
  exact .inr hp

theorem delivers_unhold_bind {v : Value} {vs : List Value} {f : Unit → HeapM β}
    {post : β → Heap → Prop} (hh : h.holds = v :: vs)
    (hf : Delivers bad r { h with holds := vs } (f ()) post) :
    Delivers bad r h (unhold (vs.length + 1) >>= f) post := by
  unfold Delivers
  rw [run_bind, unhold_eq, if_neg (by simp [hh]), hh]
  exact hf

end HeapM

end Lox

namespace Lox

namespace Heap

variable {h h' : Heap}

theorem origins_congr {r : Roots} (hh : h'.holds = h.holds) (hk : h'.markers = h.markers) :
    h'.origins r = h.origins r := by
  simp only [origins, registered, hh, hk]

theorem origins_hold {r : Roots} {v : Value} {link : Link} :
    link ∈ origins { h with holds := v :: h.holds } r ↔ link = .value v ∨ link ∈ h.origins r := by
  simp only [origins, List.reverse_cons, List.map_append, List.map_cons, List.map_nil,
    List.mem_append, List.mem_singleton]
  constructor
  · rintro ((h₁ | h₁) | h₁)
    · exact .inr (.inl h₁)
    · exact .inl h₁
    · exact .inr (.inr h₁)
  · rintro (h₁ | h₁ | h₁)
    · exact .inl (.inr h₁)
    · exact .inl (.inl h₁)
    · exact .inr h₁

theorem Consistent.setHolds (hc : h.Consistent) (holds : List Value) :
    Consistent { h with holds } :=
  hc.congr ⟨rfl, rfl, rfl, rfl, rfl, rfl, rfl⟩

theorem IsString.agrees {t : Table} {l : Loc} {chars : Bytes} {hash : UInt32}
    (hs : h.IsString l chars hash)
    (hi : ∀ k v, t.Binds k v → h.IsString k.loc k.chars k.hash) :
    Table.Agrees t.entries ⟨l, chars, hash⟩ := by
  apply Table.agrees_of_binds
  intro k v hb hk
  obtain ⟨o, ho, -, hbody⟩ := hs
  obtain ⟨p, hp, -, hpbody⟩ := hi k v hb
  rw [hk, ho] at hp
  cases hp
  rw [hbody] at hpbody
  cases hpbody
  cases k
  simp only at hk
  rw [hk]

theorem Consistent.insertString (hc : h.Consistent) {t : Table} (ht : t.Sound)
    (hcrowd : t.isCrowded = false) (hb : ∀ k v, t.Binds k v ↔ h.strings.Binds k v) {l : Loc}
    {chars : Bytes} {hash : UInt32} (hs : h.IsString l chars hash) :
    Consistent { h with strings := (t.insert ⟨l, chars, hash⟩ .nil).2 } ∧
      ∀ k v, (t.insert ⟨l, chars, hash⟩ .nil).2.Binds k v ↔
        k = ⟨l, chars, hash⟩ ∧ v = .nil ∨ k.loc ≠ l ∧ h.strings.Binds k v := by
  have hi : ∀ k v, t.Binds k v → h.IsString k.loc k.chars k.hash := fun k v hk =>
    hc.interned k v ((hb k v).mp hk)
  have ha := hs.agrees hi
  have hbinds : ∀ k v, (t.insert ⟨l, chars, hash⟩ .nil).2.Binds k v ↔
      k = ⟨l, chars, hash⟩ ∧ v = .nil ∨ k.loc ≠ l ∧ h.strings.Binds k v := fun k v => by
    rw [Table.binds_insert ht ha hcrowd, hb]
  refine ⟨{ hc with
    strings := ht.insert .nil ha hcrowd
    interned := fun k v hk => ?_ }, hbinds⟩
  rcases (hbinds k v).mp hk with ⟨rfl, -⟩ | ⟨-, hk⟩
  · exact hs
  · exact hc.interned k v hk

theorem IsString.charged {roots : List Link} {l : Loc} {chars : Bytes} {hash : UInt32}
    (hs : h.IsString l chars hash) (hch : h.Charged roots h') (hr : h.Reach roots l) :
    h'.IsString l chars hash := by
  obtain ⟨o, ho, hf, hb⟩ := hs
  exact ⟨o, (hch.kept l hr).trans ho, hf, hb⟩

theorem Sound.findText?_eq_some_iff (hs : h.Sound) (chars : Bytes) {s : Symbol} :
    h.strings.findText? chars chars.hash = some s ↔
      h.IsString s.loc s.chars s.hash ∧ s.chars = chars := by
  have hfind := Table.findText?_eq_some_iff hs.consistent.strings chars
    (fun k v hb => hs.strings.hashed _ _ _ (hs.consistent.interned k v hb))
    (fun k v k' v' hb hb' hc => ?_) (k := s)
  · rw [hfind]
    refine and_congr_left fun _ => ⟨fun ⟨v, hv⟩ => hs.consistent.interned s v hv, fun hstr => ?_⟩
    exact hs.strings.bound _ _ _ hstr
  · have h₁ := hs.consistent.interned k v hb
    have h₂ := hs.consistent.interned k' v' hb'
    have hh₁ := hs.strings.hashed _ _ _ h₁
    have hh₂ := hs.strings.hashed _ _ _ h₂
    have hl := hs.strings.unique k.loc k'.loc k.chars k.hash k'.hash h₁ (hc ▸ h₂)
    obtain ⟨loc, cs, hash⟩ := k
    obtain ⟨loc', cs', hash'⟩ := k'
    simp only at hl hc hh₁ hh₂
    subst hl hc
    rw [hh₁, hh₂]

theorem find?_link (body : Body) (size : Nat) (hc : h.Consistent)
    (hroom : (h.link body size).2.slots.size ≤ 2 ^ 32) :
    (h.link body size).2.objects[h.objects.size]? =
        some ⟨(h.takeHandle h.objects.size).1, size, false, false, body⟩ ∧
      (h.link body size).2.find? (h.takeHandle h.objects.size).1 = some h.objects.size := by
  have ho : (h.link body size).2.objects[h.objects.size]? =
      some ⟨(h.takeHandle h.objects.size).1, size, false, false, body⟩ := by
    rw [objects_link, Array.getElem?_push, if_pos rfl]
  exact ⟨ho, (hc.link body size hroom).find?_ref ho rfl⟩

end Heap

namespace HeapM

open Heap HeapView

variable {bad : Prop} {r : Roots} {h : Heap}

theorem delivers_reserveString (hc : h.Consistent) (hbad : h.Trouble r → bad) :
    Delivers bad r h reserveString fun _ h' => ∃ h₁ t, h.Charged (h.origins r) h₁ ∧ t.Sound ∧
      (∀ k v, t.Binds k v ↔ h₁.strings.Binds k v) ∧ t.isCrowded = false ∧
        h' = { h₁ with strings := t } := by
  apply delivers_getHeap_bind
  cases hcrowd : h.strings.isCrowded with
  | false =>
    simp only [hcrowd]
    exact delivers_pure ⟨h, _, charged_bytes hc _ h.bytesAllocated, hc.strings,
      fun _ _ => Iff.rfl, hcrowd, rfl⟩
  | true =>
    simp only [hcrowd, ↓reduceIte]
    refine (delivers_account hc hbad _).bind (fun _ => grows_modify fun h => Nat.le_refl _)
      fun _ h₂ hch => delivers_modify ?_
    have hs := hch.consistent.strings
    refine ⟨h₂, _, hch, hch.capacity ▸ hs.growTo, ?_, hch.capacity ▸ hs.isCrowded_growTo, rfl⟩
    rw [← hch.capacity]
    exact hs.binds_growTo

theorem valueOf_eq {l : Loc} {o : Object} (ho : h.objects[l]? = some o) :
    valueOf l h = .ok (.object o.ref) := by
  rw [valueOf, view_bind, object_eq, ho]
  rfl

structure Interns (bad : Prop) (r : Roots) (h : Heap) (chars : Bytes) (s : Symbol) (h' : Heap) :
    Prop where
  chars : s.chars = chars
  isString : h'.IsString s.loc s.chars s.hash
  sound : h'.Sound
  steady : h.Steady h'
  holds : h'.holds = h.holds
  evolves : ¬ bad → h.Evolves (h.origins r) h'

structure Pending (bad : Prop) (r : Roots) (h : Heap) (chars : Bytes) (l : Loc) (ref : Ref)
    (h' : Heap) : Prop where
  consistent : h'.Consistent
  isString : h'.IsString l chars chars.hash
  named : h'.find? ref = some l
  old : ∀ k cs hash, h'.IsString k cs hash → k = l ∧ cs = chars ∧ hash = chars.hash ∨
    h.IsString k cs hash
  fresh : ∀ k v, h.strings.Binds k v → k.loc ≠ l
  strings : ∀ k v, h'.strings.Binds k v ↔ h.strings.Binds k v ∧ h'.Alive k.loc
  steady : h.Steady h'
  holds : h'.holds = h.holds
  closed : h'.closed = h.closed
  markers : h'.markers = h.markers
  evolves : ¬ bad → h.Evolves (h.origins r) h'

theorem pending_of_allocates (hs : h.Sound) (hbad : h.Trouble r → bad) {chars : Bytes} {size : Nat}
    {l : Loc} {h' : Heap} (ha : Allocates r h (.string chars chars.hash) size l h') :
    ∃ ref, valueOf l h' = .ok (.object ref) ∧ Pending bad r h chars l ref h' := by
  obtain ⟨h₁, hch, rfl, rfl, hroom⟩ := ha
  obtain ⟨ho, hfind⟩ :=
    find?_link (.string chars chars.hash) size hch.consistent hroom
  refine ⟨_, valueOf_eq ho,
    { consistent := hch.consistent.link _ size hroom
      isString := ⟨_, ho, rfl, rfl⟩
      named := hfind
      old := fun k cs hash hk => ?_
      fresh := fun k v hb hl => ?_
      strings := fun k v => ?_
      steady := hch.steady.trans (.link _ size)
      holds := (holds_link _ size).trans hch.holds
      closed := (closed_link _ size).trans hch.closed
      markers := (markers_link _ size).trans hch.markers
      evolves := fun hnb => ?_ }⟩
  · rcases (isString_link _ size).mp hk with hk | ⟨hl, hb⟩
    · exact .inr (hch.isString hk)
    · cases hb
      exact .inl ⟨hl, rfl, rfl⟩
  · obtain ⟨o, ho, hf, -⟩ := hs.consistent.interned k v hb
    exact Nat.ne_of_lt (Nat.lt_of_lt_of_eq (Alive.lt ⟨o, ho, hf⟩) hch.size.symm) hl
  · rw [strings_link, hch.strings, alive_link]
    refine and_congr_right fun hb => ⟨.inl, fun hk => hk.resolve_right fun hl => ?_⟩
    obtain ⟨o, ho, hf, -⟩ := hs.consistent.interned k v hb
    exact Nat.ne_of_lt (Nat.lt_of_lt_of_eq (Alive.lt ⟨o, ho, hf⟩) hch.size.symm) hl
  · obtain ⟨-, hi, hd⟩ := not_trouble (mt hbad hnb)
    exact (hch.evolves hs.consistent).trans hs.consistent hd hi (evolves_link hch.consistent (by simp [Body.links])
        (by simp [Body.links]) size hroom)

namespace Pending

variable {chars : Bytes} {l : Loc} {ref : Ref} {h' : Heap} (hp : Pending bad r h chars l ref h')

include hp

theorem origins : h'.origins r = h.origins r :=
  origins_congr hp.holds hp.markers

theorem trouble (hc : h.Consistent) (hbad : h.Trouble r → bad)
    (ht : Trouble r { h' with holds := .object ref :: h'.holds }) : bad := by
  apply Classical.byContradiction
  intro hnb
  obtain ⟨hcl, hi, hd⟩ := not_trouble (mt hbad hnb)
  have hi' := (hp.evolves hnb).intact hc hd hi
  rcases ht with ht | ht | ⟨link, hm, ht⟩
  · have hcl' := hp.closed
    rw [show h'.closed = true from ht, hcl] at hcl'
    cases hcl'
  · refine ht (Intact.congr (h := h') (by rfl) (by rfl) (hi'.more fun link hm => ?_))
    rcases origins_hold.mp hm with rfl | hm
    · refine .inr ⟨.value (Value.isObject_object _) (by rw [Value.handle_object]; exact hp.named)
        hp.isString.alive, fun k hk => ?_⟩
      obtain ⟨o, ho, -, hb⟩ := hp.isString
      cases hk with
      | value _ hf =>
        rw [Value.handle_object, hp.named] at hf
        obtain rfl := Option.some.inj hf
        simp [linksAt, ho, hb, Body.links]
    · exact .inl (hp.origins ▸ hm)
  · rcases origins_hold.mp hm with rfl | hm
    · exact ht trivial
    · exact ht (hd link (hp.origins ▸ hm))

theorem interns (hs : h.Sound) (hbad : h.Trouble r → bad)
    (hnew : ∀ l hash, ¬ h.IsString l chars hash) {h₁ : Heap}
    (hch : Charged { h' with holds := .object ref :: h'.holds }
      (Heap.origins { h' with holds := .object ref :: h'.holds } r) h₁) {t : Table} (ht : t.Sound)
    (hb : ∀ k v, t.Binds k v ↔ h₁.strings.Binds k v) (hcrowd : t.isCrowded = false) :
    Interns bad r h chars ⟨l, chars, chars.hash⟩
      { h₁ with
        strings := (t.insert ⟨l, chars, chars.hash⟩ .nil).2
        holds := h'.holds } := by
  have hstr : h₁.IsString l chars chars.hash := by
    refine IsString.charged (h := { h' with holds := .object ref :: h'.holds }) hp.isString hch ?_
    refine .root (origins_hold.mpr (.inl rfl)) (.value (Value.isObject_object _) ?_)
    rw [Value.handle_object]
    exact hp.named
  obtain ⟨hc, hbinds⟩ := hch.consistent.insertString ht hcrowd hb hstr
  have hold : ∀ k cs hash, h₁.IsString k cs hash →
      k = l ∧ cs = chars ∧ hash = chars.hash ∨ h.IsString k cs hash := fun k cs hash hk =>
    hp.old k cs hash (hch.isString hk)
  refine
    { chars := rfl
      isString := hstr
      sound := ⟨hc.setHolds h'.holds, fun k cs hash hk => ?_, fun k j cs hash hash' hk hj => ?_,
        fun k cs hash hk => ?_⟩
      steady := ?_
      holds := hp.holds
      evolves := fun hnb => ?_ }
  · rcases hold k cs hash hk with ⟨-, rfl, rfl⟩ | hk
    · rfl
    · exact hs.strings.hashed k cs hash hk
  · rcases hold k cs hash hk with ⟨rfl, rfl, -⟩ | hk'
    · rcases hold j _ hash' hj with ⟨rfl, -⟩ | hj
      · rfl
      · exact absurd hj (hnew j hash')
    · rcases hold j cs hash' hj with ⟨-, rfl, -⟩ | hj
      · exact absurd hk' (hnew k hash)
      · exact hs.strings.unique k j cs hash hash' hk' hj
  · rcases hold k cs hash hk with ⟨rfl, rfl, rfl⟩ | hk'
    · exact ⟨.nil, (hbinds _ _).mpr (.inl ⟨rfl, rfl⟩)⟩
    · obtain ⟨v, hv⟩ := hs.strings.bound k cs hash hk'
      have hk₁ : h₁.Alive k := hk.alive
      have hk' : h'.Alive k := (hch.isString hk).alive
      exact ⟨v, (hbinds _ _).mpr (.inr ⟨hp.fresh _ v hv,
        (hch.strings _ v).mpr ⟨(hp.strings _ v).mpr ⟨hv, hk'⟩, hk₁⟩⟩)⟩
  · have hheld : h'.Steady { h' with holds := .object ref :: h'.holds } := .of_objects rfl
    exact hp.steady.trans (hheld.trans (hch.steady.trans (.of_objects rfl)))
  · obtain ⟨-, hi, hd⟩ := not_trouble (mt hbad hnb)
    refine (hp.evolves hnb).trans hs.consistent hd hi ?_
    have hsub : ∀ link ∈ h.origins r,
        link ∈ Heap.origins { h' with holds := .object ref :: h'.holds } r := fun link hm =>
      origins_hold.mpr (.inr (hp.origins ▸ hm))
    exact ((hch.evolves (hp.consistent.setHolds _)).mono hsub).congr rfl rfl rfl rfl rfl rfl rfl rfl rfl rfl
      (hc.setHolds h'.holds)

end Pending

theorem grows_finishString (s : Symbol) (depth : Nat) : Grows (do
    modify fun h => { h with strings := (h.strings.insert s .nil).2 }
    unhold depth
    return s : HeapM Symbol) :=
  Grows.bind (grows_modify fun _ => Nat.le_refl _)
    fun _ => (grows_unhold depth).bind fun _ => grows_pure _

theorem delivers_newString (hs : h.Sound) (hbad : h.Trouble r → bad) {chars : Bytes}
    (hnew : ∀ l hash, ¬ h.IsString l chars hash) :
    Delivers bad r h (newString chars chars.hash) (Interns bad r h chars) := by
  refine (delivers_allocate hs.consistent hbad _ _).bind (fun l => (grows_view _).bind fun v =>
    (grows_hold v).bind fun depth => grows_reserveString.bind fun _ => grows_finishString _ depth)
      fun l h₂ hal => ?_
  obtain ⟨ref, hval, hp⟩ := pending_of_allocates hs hbad hal
  apply delivers_view_bind hval
  apply delivers_hold_bind
  refine (delivers_reserveString (hp.consistent.setHolds _) (hp.trouble hs.consistent hbad)).bind
    (fun _ => grows_finishString _ _) fun _ h₃ hres => ?_
  obtain ⟨h₁, t, hch, ht, hb, hcrowd, rfl⟩ := hres
  apply delivers_modify_bind
  refine delivers_unhold_bind (v := .object ref) hch.holds ?_
  exact delivers_pure (hp.interns hs hbad hnew hch ht hb hcrowd)

theorem delivers_intern (hs : h.Sound) (hbad : h.Trouble r → bad) (chars : Bytes) :
    Delivers bad r h (intern chars) (Interns bad r h chars) := by
  apply delivers_getHeap_bind
  cases hf : h.strings.findText? chars chars.hash with
  | some s =>
    obtain ⟨hstr, hc⟩ := (hs.findText?_eq_some_iff chars).mp hf
    exact delivers_pure ⟨hc, hstr, hs, .of_objects rfl, rfl, fun _ => .refl hs.consistent⟩
  | none =>
    refine delivers_newString hs hbad fun l hash hl => ?_
    have hfound := (hs.findText?_eq_some_iff chars (s := ⟨l, chars, hash⟩)).mpr ⟨hl, rfl⟩
    rw [hf] at hfound
    cases hfound

theorem intern_of_isString (hs : h.Sound) {s : Symbol} (hstr : h.IsString s.loc s.chars s.hash) :
    intern s.chars r h = .ok s h := by
  have hfound := (hs.findText?_eq_some_iff s.chars).mpr ⟨hstr, rfl⟩
  unfold intern
  rw [run_bind, run_getHeap]
  simp only [hfound]
  rfl

end HeapM

end Lox

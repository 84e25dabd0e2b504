import Lox.Proofs.Heap.Settle
import Lox.Proofs.Ideal.World

namespace Lox

inductive Core where
  | function (f : Function)
  | closure (function : Loc)
  | bound (method : Loc)
  | upvalue
  | other

namespace Core

def links : Core → List Link
  | function f => f.chunk.constants.toList.map .value
  | closure l => [.object l]
  | bound l => [.object l]
  | upvalue => []
  | other => []

end Core

def Body.core : Body → Core
  | .function f => .function f
  | .closure c => .closure c.function
  | .boundMethod b => .bound b.method
  | .upvalue _ => .upvalue
  | _ => .other

namespace Heap

variable {h h' h'' : Heap} {roots : List Link}

theorem mem_links_of_core {b : Body} {link : Link} (hm : link ∈ b.core.links) : link ∈ b.links := by
  cases b with
  | function f => exact List.mem_append_right _ hm
  | closure c => exact List.mem_cons.mpr (.inl (List.mem_singleton.mp hm))
  | boundMethod b => exact List.mem_cons_of_mem _ hm
  | _ => cases hm

theorem isDirect_of_core {c : Core} {link : Link} (hm : link ∈ c.links) : IsDirect link := by
  cases c with
  | function f =>
    obtain ⟨v, -, rfl⟩ := List.mem_map.mp hm
    trivial
  | closure l | bound l =>
    rw [List.mem_singleton.mp hm]
    trivial
  | upvalue | other => cases hm

structure Passes (roots : List Link) (h h' : Heap) : Prop where
  size : h.objects.size ≤ h'.objects.size
  names : ∀ ref l, l < h.objects.size → h.find? ref = some l → h'.Alive l → h'.find? ref = some l
  rooted : ∀ link ∈ roots, IsDirect link → ∀ l, h.Leads link l → h.Alive l → h'.Alive l
  lasting : ∀ (l : Loc) (o' : Object), l < h.objects.size → h'.objects[l]? = some o' → o'.freed = false →
    ∃ o, h.objects[l]? = some o ∧ o.freed = false ∧ o.body.core = o'.body.core
  follows : ∀ (l : Loc) (o : Object) link k, h.objects[l]? = some o → h'.Alive l → link ∈ o.body.core.links →
    h.Leads link k → h.Alive k → h'.Alive k
  holds : h'.holds = h.holds
  closed : h'.closed = h.closed
  markers : h'.markers = h.markers

namespace Passes

theorem refl (roots : List Link) (h : Heap) : h.Passes roots h where
  size := Nat.le_refl _
  names _ _ _ hf _ := hf
  rooted _ _ _ _ _ ha := ha
  lasting _ o _ ho hf := ⟨o, ho, hf, rfl⟩
  follows _ _ _ _ _ _ _ _ ha := ha
  holds := rfl
  closed := rfl
  markers := rfl

variable (hp : h.Passes roots h')

include hp

theorem alive {l : Loc} (hl : l < h.objects.size) (ha : h'.Alive l) : h.Alive l := by
  obtain ⟨o', ho', hf'⟩ := ha
  obtain ⟨o, ho, hf, -⟩ := hp.lasting l o' hl ho' hf'
  exact ⟨o, ho, hf⟩

theorem leads {link : Link} (hd : IsDirect link) {l : Loc} (hl : h.Leads link l) (hlt : l < h.objects.size)
    (ha : h'.Alive l) : h'.Leads link l := by
  cases hl with
  | value ho hf => exact .value ho (hp.names _ _ hlt hf ha)
  | object l => exact .object l
  | fields => exact absurd hd id

theorem trans (hp' : h'.Passes roots h'') : h.Passes roots h'' where
  size := Nat.le_trans hp.size hp'.size
  names ref l hlt hf ha :=
    have hlt' := Nat.lt_of_lt_of_le hlt hp.size
    hp'.names ref l hlt' (hp.names ref l hlt hf (hp'.alive hlt' ha)) ha
  rooted link hm hd l hl ha := by
    have ha' := hp.rooted link hm hd l hl ha
    exact hp'.rooted link hm hd l (hp.leads hd hl ha.lt ha') ha'
  lasting l o'' hlt ho'' hf'' := by
    obtain ⟨o', ho', hf', hc'⟩ := hp'.lasting l o'' (Nat.lt_of_lt_of_le hlt hp.size) ho'' hf''
    obtain ⟨o, ho, hf, hc⟩ := hp.lasting l o' hlt ho' hf'
    exact ⟨o, ho, hf, hc.trans hc'⟩
  follows l o link k ho hl hm hk ha := by
    have hlt := (Array.getElem?_eq_some_iff.mp ho).1
    have hl' := hp'.alive (Nat.lt_of_lt_of_le hlt hp.size) hl
    have hk' := hp.follows l o link k ho hl' hm hk ha
    obtain ⟨o', ho', hf'⟩ := hl'
    obtain ⟨p, hp₁, -, hc⟩ := hp.lasting l o' hlt ho' hf'
    rw [ho] at hp₁
    cases hp₁
    exact hp'.follows l o' link k ho' hl (hc ▸ hm) (hp.leads (isDirect_of_core hm) hk ha.lt hk') hk'
  holds := hp'.holds.trans hp.holds
  closed := hp'.closed.trans hp.closed
  markers := hp'.markers.trans hp.markers

theorem mono {roots' : List Link} (hsub : ∀ link ∈ roots', link ∈ roots) : h.Passes roots' h' :=
  { hp with rooted := fun link hm => hp.rooted link (hsub link hm) }

theorem congr {h₁ h₂ : Heap} (ho : h₁.objects = h.objects) (hs : h₁.slots = h.slots) (ho' : h₂.objects = h'.objects)
    (hs' : h₂.slots = h'.slots) (hh : h₂.holds = h₁.holds) (hcl : h₂.closed = h₁.closed)
    (hmk : h₂.markers = h₁.markers) : h₁.Passes roots h₂ where
  size := by
    rw [ho, ho']
    exact hp.size
  names ref l hlt hf ha := by
    have hback : h.find? ref = some l := by
      rw [← hf, find?, find?, hs]
    have hend := hp.names ref l (ho ▸ hlt) hback (ha.congr ho'.symm)
    rw [← hend, find?, find?, hs']
  rooted link hm hd l hl ha :=
    (hp.rooted link hm hd l (hl.congr ho.symm hs.symm) (ha.congr ho.symm)).congr ho'
  lasting := by
    rw [ho, ho']
    exact hp.lasting
  follows l o link k hl ha hm hk hka :=
    (hp.follows l o link k (ho ▸ hl) (ha.congr ho'.symm) hm (hk.congr ho.symm hs.symm) (hka.congr ho.symm)).congr ho'
  holds := hh
  closed := hcl
  markers := hmk

end Passes

theorem Charged.passes (hc : h.Consistent) (hch : h.Charged roots h') : h.Passes roots h' where
  size := Nat.le_of_eq hch.size.symm
  names ref l _ hf ha := (hch.evolves hc).find?_of_alive hc hf ha
  rooted link hm _ l hl ha := by
    obtain ⟨o, ho, hf⟩ := ha
    exact ⟨o, (hch.kept l (.root hm hl)).trans ho, hf⟩
  lasting l o' _ ho' hf' := ⟨o', hch.shrunk l o' ho' hf', hf', rfl⟩
  follows l o link k ho hl hm hk ha := by
    refine hch.follows l link k hl ?_ hk ha
    rw [linksAt, ho]
    exact mem_links_of_core hm
  holds := hch.holds
  closed := hch.closed
  markers := hch.markers

theorem passes_link (hc : h.Consistent) (body : Body) (size : Nat)
    (hroom : (h.link body size).2.slots.size ≤ 2 ^ 32) : h.Passes roots (h.link body size).2 := by
  have hold : ∀ l, l < h.objects.size → (h.link body size).2.objects[l]? = h.objects[l]? := by
    intro l hl
    rw [objects_link, Array.getElem?_push, if_neg (Nat.ne_of_lt hl)]
  exact
    { size := by
        rw [objects_link, Array.size_push]
        exact Nat.le_succ _
      names := fun ref l hlt hf _ => by
        obtain ⟨o, ho, hfree, rfl⟩ := hc.ref_of_find? hf
        exact (hc.link body size hroom).find?_ref ((hold l hlt).trans ho) hfree
      rooted := fun _ _ _ l _ ha => (alive_link body size l).mpr (.inl ha)
      lasting := fun l o' hlt ho' hf' => ⟨o', (hold l hlt).symm.trans ho', hf', rfl⟩
      follows := fun _ _ _ k _ _ _ _ ha => (alive_link body size k).mpr (.inl ha)
      holds := holds_link body size
      closed := closed_link body size
      markers := markers_link body size }

def Modest (h h' : Heap) : Prop :=
  ∀ (l : Loc) (o : Object), h.objects.size ≤ l → h'.objects[l]? = some o → o.freed = false →
    o.kind ≠ .closure ∧ o.kind ≠ .boundMethod

theorem kind_of_core {b b' : Body} (hb : b.core = b'.core) :
    (b.kind = .closure ↔ b'.kind = .closure) ∧ (b.kind = .boundMethod ↔ b'.kind = .boundMethod) := by
  cases b <;> cases b' <;> simp_all [Body.core, Body.kind]

theorem Modest.of_size (hs : h'.objects.size = h.objects.size) : h.Modest h' := by
  intro l o hl ho _
  have := (Array.getElem?_eq_some_iff.mp ho).1
  omega

theorem Modest.trans (hm : h.Modest h') (hp' : h'.Passes roots h'') (hm' : h'.Modest h'') : h.Modest h'' := by
  intro l o hl ho hf
  by_cases hlt : l < h'.objects.size
  · obtain ⟨o', ho', hf', hc⟩ := hp'.lasting l o hlt ho hf
    obtain ⟨hk, hk'⟩ := kind_of_core hc
    exact (hm l o' hl ho' hf').imp (mt hk.mpr) (mt hk'.mpr)
  · exact hm' l o (Nat.le_of_not_lt hlt) ho hf

theorem modest_link {body : Body} (hc : body.kind ≠ .closure) (hb : body.kind ≠ .boundMethod) (size : Nat) :
    h.Modest (h.link body size).2 := by
  intro l o hl ho _
  rw [objects_link, Array.getElem?_push] at ho
  split at ho
  · cases ho
    exact ⟨hc, hb⟩
  · rw [Array.getElem?_eq_none hl] at ho
    cases ho

def KeepsCore (f : Body → Body) : Prop :=
  ∀ b, (f b).core = b.core

theorem keepsCore_mapTable (f : Table → Table) : KeepsCore (mapTable f) := fun b => by
  cases b <;> rfl

theorem passes_updateBody (l : Loc) {f : Body → Body} (hf : ∀ o, h.objects[l]? = some o →
    (f o.body).core = o.body.core) :
    h.Passes roots (h.updateBody l f) where
  size := Nat.le_of_eq (by rw [updateBody, update, Array.size_modify])
  names _ _ _ hr _ := hr
  rooted _ _ _ k _ ha := (alive_updateBody l k f).mpr ha
  lasting k o' _ ho' hf' := by
    rw [objects_updateBody] at ho'
    obtain ⟨o, ho, rfl⟩ := Option.map_eq_some_iff.mp ho'
    refine ⟨o, ho, ?_, ?_⟩
    · split at hf' <;> exact hf'
    · split
      · rename_i hk
        exact (hf o (hk ▸ ho)).symm
      · rfl
  follows _ _ _ k _ _ _ _ ha := (alive_updateBody l k f).mpr ha
  holds := rfl
  closed := rfl
  markers := rfl

end Heap

namespace HeapM

open Heap HeapView

variable {α β : Type}

structure Tends (act : HeapM α) : Prop where
  keeps : Keeps act
  passes : ∀ r h, h.Sound → Delivers True r h act fun _ h' => h.Passes (h.registered r) h' ∧ h.Modest h'

theorem Tends.both {act : HeapM α} (ht : Tends act) (r : Roots) {h : Heap} (hs : h.Sound) :
    Delivers True r h act fun _ h' => h'.Sound ∧ h.Passes (h.registered r) h' ∧ h.Modest h' := by
  have hk := ht.keeps.sound r h hs
  have hp := ht.passes r h hs
  unfold Delivers at *
  cases hrun : act r h with
  | error e h' => exact .inr trivial
  | ok a h' =>
    rw [hrun] at hk hp
    rcases hk with hex | hk
    · exact .inl hex
    · exact hp.imp_right fun hp => ⟨hk.1, hp⟩

theorem Tends.bind {x : HeapM α} {f : α → HeapM β} (hx : Tends x) (hf : ∀ a, Tends (f a)) : Tends (x >>= f) where
  keeps := hx.keeps.bind fun a => (hf a).keeps
  passes r h hs := by
    refine (hx.both r hs).bind (fun a => (hf a).keeps.grows) fun a h' ⟨hs', hp, hm⟩ => ?_
    refine ((hf a).passes r h' hs').imp fun _ _ ⟨hp', hm'⟩ => ?_
    rw [Heap.registered, hp.markers] at hp'
    exact ⟨hp.trans hp', hm.trans hp' hm'⟩

theorem tends_pure (a : α) : Tends (pure a : HeapM α) :=
  ⟨keeps_pure a, fun _ h _ => delivers_pure ⟨.refl _ h, .of_size rfl⟩⟩

theorem tends_throw (e : Fault) : Tends (throw e : HeapM α) :=
  ⟨keeps_throw e, fun _ _ _ => .inr trivial⟩

theorem tends_view (view : HeapView α) : Tends (liftM view : HeapM α) := by
  refine ⟨keeps_view view, fun r h _ => ?_⟩
  unfold Delivers
  rw [run_view]
  cases view h with
  | ok a => exact .inr ⟨.refl _ h, .of_size rfl⟩
  | error e => exact .inr trivial

theorem tends_ite {c : Prop} [Decidable c] {x y : HeapM α} (hx : Tends x) (hy : Tends y) :
    Tends (if c then x else y) := by
  split
  · exact hx
  · exact hy

theorem mem_origins {r : Roots} {h : Heap} {link : Link} (hm : link ∈ h.registered r) : link ∈ h.origins r :=
  List.mem_append_right _ hm

theorem passes_of_charged {r : Roots} {h h' : Heap} (hc : h.Consistent) (hch : h.Charged (h.origins r) h') :
    h.Passes (h.registered r) h' :=
  (hch.passes hc).mono fun _ => mem_origins

theorem tends_account (delta : Int) : Tends (account delta) :=
  ⟨keeps_account delta, fun _ _ hs => (delivers_account hs.consistent (fun _ => trivial) delta).imp
    fun _ _ hch => ⟨passes_of_charged hs.consistent hch, .of_size hch.size⟩⟩

theorem tends_collect : Tends collect := by
  refine ⟨keeps_collect, fun r h hs => ?_⟩
  unfold Delivers
  cases hrun : collect r h with
  | error e h' => exact .inr trivial
  | ok c h' =>
    have hi := intact_of_collect r hs.consistent hrun
    obtain ⟨c', h₁, hok, hcol⟩ := collect_ok r hs.consistent hi
    rw [hrun] at hok
    cases hok
    exact .inr ⟨passes_of_charged hs.consistent (hcol.charged hi), .of_size (hcol.charged hi).size⟩

theorem passes_of_allocates {r : Roots} {h h' : Heap} {body : Body} {size : Nat} {l : Loc} (hs : h.Sound)
    (ha : Allocates r h body size l h') : h.Passes (h.origins r) h' := by
  obtain ⟨h₁, hch, -, rfl, hroom⟩ := ha
  exact (hch.passes hs.consistent).trans (passes_link hch.consistent body size hroom)

theorem modest_of_allocates {r : Roots} {h h' : Heap} {body : Body} {size : Nat} {l : Loc}
    (ha : Allocates r h body size l h') (hc : body.kind ≠ .closure) (hb : body.kind ≠ .boundMethod) : h.Modest h' := by
  obtain ⟨h₁, hch, -, rfl, hroom⟩ := ha
  have hmodest : h.Modest h₁ := .of_size hch.size
  have hpasses : h₁.Passes [] (h₁.link body size).2 := passes_link hch.consistent body size hroom
  exact hmodest.trans hpasses (modest_link hc hb size)

theorem tends_allocate (body : Body) (hs : body.kind ≠ .string) (hc : body.kind ≠ .closure)
    (hb : body.kind ≠ .boundMethod) (size : Nat) : Tends (allocate body size) :=
  ⟨keeps_allocate body hs size, fun _ _ hsound =>
    (delivers_allocate hsound.consistent (fun _ => trivial) body size).imp fun _ _ ha =>
      ⟨(passes_of_allocates hsound ha).mono fun _ => mem_origins, modest_of_allocates ha hc hb⟩⟩

theorem tends_updateBody (l : Loc) {f : Body → Body} (hf : KeepsStrings f) (hcore : KeepsCore f) :
    Tends (modify (·.updateBody l f) : HeapM Unit) :=
  ⟨keeps_updateBody l hf, fun _ _ _ => delivers_modify
    ⟨passes_updateBody l fun o _ => hcore o.body, .of_size (by rw [updateBody, update, Array.size_modify])⟩⟩

theorem tends_intern (chars : Bytes) : Tends (intern chars) := by
  refine ⟨keeps_intern chars, fun r h hs => ?_⟩
  apply delivers_getHeap_bind
  cases h.strings.findText? chars chars.hash with
  | some s => exact delivers_pure ⟨.refl _ h, .of_size rfl⟩
  | none =>
    refine (delivers_allocate hs.consistent (fun _ => trivial) _ _).bind (fun l => (grows_view _).bind fun v =>
      (grows_hold v).bind fun depth => grows_reserveString.bind fun _ => grows_finishString _ depth)
        fun l h₂ hal => ?_
    have hp₂ := (passes_of_allocates hs hal).mono fun _ => mem_origins
    obtain ⟨ref, hval, hpending⟩ : ∃ ref, valueOf l h₂ = .ok (.object ref) ∧ Pending True r h chars l ref h₂ :=
      pending_of_allocates hs (fun _ => trivial) hal
    apply delivers_view_bind hval
    apply delivers_hold_bind
    refine (delivers_reserveString (hpending.consistent.setHolds _) fun _ => trivial).bind
      (fun _ => grows_finishString _ _) fun _ h₃ hres => ?_
    obtain ⟨h₁, t, hch, -, -, -, rfl⟩ := hres
    apply delivers_modify_bind
    refine delivers_unhold_bind (v := .object ref) hch.holds (delivers_pure ?_)
    have hp₃ := passes_of_charged (hpending.consistent.setHolds (.object ref :: h₂.holds)) hch
    rw [Heap.registered, hp₂.markers] at hp₃
    have hp₄ : h₂.Passes (h.registered r) { h₁ with
        strings := (t.insert ⟨l, chars, chars.hash⟩ .nil).2
        holds := h₂.holds } := hp₃.congr rfl rfl rfl rfl rfl hch.closed hch.markers
    have hmodest : h.Modest h₂ := modest_of_allocates hal (fun h => by cases h) fun h => by cases h
    exact ⟨hp₂.trans hp₄, hmodest.trans hp₄ (.of_size hch.size)⟩

theorem tends_modifyTable (l : Loc) (f : Table → Table) : Tends (modifyTable l f) :=
  tends_updateBody l (keepsStrings_mapTable f) (keepsCore_mapTable f)

theorem tends_setEntry (l : Loc) (key : Symbol) (v : Value) : Tends (setEntry l key v) := by
  refine (tends_view _).bind fun t => ?_
  have hrest : Tends (do
      let t ← tableOf l
      modifyTable l fun _ => (t.insert key v).2
      return (t.insert key v).1 : HeapM Bool) :=
    (tends_view _).bind fun t => (tends_modifyTable l _).bind fun _ => tends_pure _
  exact tends_ite ((tends_account _).bind fun _ => (tends_modifyTable l _).bind fun _ => hrest) hrest

theorem Tends.rooting {marker : Nat → RootMarker} {links : List Link} {act : HeapM α}
    (hm : RootMarker.Numbers marker) (ht : Tends act) : Tends (rooting marker fun k => withRoots k links act) := by
  have hboth (r : Roots) {h : Heap} (hs : h.Sound) :
      Delivers True r h (HeapM.rooting marker fun k => withRoots k links act) fun _ h' =>
        (h'.Sound ∧ h.Steady h') ∧ h.Passes (h.registered r) h' ∧ h.Modest h' := by
    refine delivers_rooting hm fun k hk => ?_
    have hs' : Heap.Sound { h with markers := h.markers ++ [k] } := hs.congr ⟨rfl, rfl, rfl, rfl, rfl, rfl, rfl⟩
    refine Delivers.imp (Delivers.and (ht.keeps.sound (standing r k links) _ hs')
      (ht.passes (standing r k links) _ hs')) ?_
    rintro a h' ⟨⟨hsound, hsteady⟩, hp, hmodest⟩
    have hp' := hp.mono fun link hl => (mem_registered_joined hk).mpr (.inr hl)
    have hsound' : ({ h' with markers := h.markers } : Heap).Sound := hsound.congr ⟨rfl, rfl, rfl, rfl, rfl, rfl, rfl⟩
    exact ⟨hp.markers, ⟨hsound', hsteady.size, hsteady.alive, hsteady.isString⟩,
      hp'.congr rfl rfl rfl rfl hp.holds hp.closed rfl, hmodest⟩
  exact ⟨⟨grows_rooting _ fun k => ht.keeps.grows.withRoots k _, fun r h hs => (hboth r hs).imp fun _ _ hp => hp.1⟩,
    fun r h hs => (hboth r hs).imp fun _ _ hp => hp.2⟩

theorem tends_copyEntries (source target : Loc) (i left : Nat) : Tends (copyEntries source target i left) := by
  induction left generalizing i with
  | zero => exact tends_pure ()
  | succ left ih =>
    refine (tends_view _).bind fun t => ?_
    cases t.entries[i]? with
    | none => exact tends_throw _
    | some e =>
      cases hk : e.key with
      | none => simpa only [hk] using ih (i + 1)
      | some key => simpa only [hk] using (tends_setEntry _ _ _).bind fun _ => ih (i + 1)

theorem tends_inheritEntries (source target : Loc) : Tends (inheritEntries source target) :=
  (tends_view _).bind fun _ => tends_copyEntries _ _ _ _

end HeapM

structure Function.Transcribes (f : Function) (p : Prototype) : Prop where
  arity : f.arity = p.arity
  captures : f.upvalueCount = p.captures
  name : f.name.map Symbol.chars = p.name
  code : f.chunk.code.toList = p.code
  lines : f.chunk.lines.toList = p.lines.map Int.ofNat
  constants : f.chunk.constants.toList.length = p.constants.length

namespace Heap

variable {h h' : Heap} {roots : List Link} {fit : Prototype → Prop} {K : Loc → Prop} {l k : Loc}
  {p : Prototype}

inductive BearsIn (h : Heap) (K : Loc → Prop) : Loc → Prototype → Prop
  | intro {l : Loc} {o : Object} {f : Function} {p : Prototype} (place : Nat → Loc) :
      h.objects[l]? = some o → o.freed = false → o.body = .function f → f.Transcribes p →
      (∀ k q, p.constants[k]? = some (.function q) →
        ∃ v, f.chunk.constants.toList[k]? = some v ∧ h.Names v (place k) ∧ K (place k)) →
      (∀ k q, p.constants[k]? = some (.function q) → BearsIn h K (place k) q) → BearsIn h K l p

abbrev Bears (h : Heap) : Loc → Prototype → Prop :=
  h.BearsIn fun _ => True

theorem BearsIn.alive (hb : h.BearsIn K l p) : h.Alive l := by
  obtain ⟨-, ho, hf, -⟩ := hb
  exact ⟨_, ho, hf⟩

theorem BearsIn.mono {K' : Loc → Prop} (hb : h.BearsIn K l p) (hsub : ∀ k, K k → K' k) : h.BearsIn K' l p := by
  induction hb with
  | intro place ho hf hbody htranscribes hnames _ ih =>
    refine .intro place ho hf hbody htranscribes (fun k q hk => ?_) ih
    obtain ⟨v, hv, hnamed, hin⟩ := hnames k q hk
    exact ⟨v, hv, hnamed, hsub _ hin⟩

theorem BearsIn.congr (hb : h.BearsIn K l p) (ho : h'.objects = h.objects) (hs : h'.slots = h.slots) : h'.BearsIn K l
    p := by
  induction hb with
  | intro place hobj hf hbody htranscribes hnames _ ih =>
    refine .intro place (ho ▸ hobj) hf hbody htranscribes (fun k q hk => ?_) ih
    obtain ⟨v, hv, ⟨ref, rfl, hfind⟩, hin⟩ := hnames k q hk
    exact ⟨_, hv, ⟨ref, rfl, by rwa [find?, hs]⟩, hin⟩

theorem function_of_core {b : Body} {f : Function} (hb : b.core = .function f) : b = .function f := by
  cases b <;> cases hb
  rfl

theorem BearsIn.passes (hb : h.BearsIn K l p) (hc : h.Consistent) (hp : h.Passes roots h') (ha : h'.Alive l) :
    h'.BearsIn K l p := by
  induction hb with
  | @intro l o f p place ho hf hbody htranscribes hnames hbears ih =>
    have hold := ha
    obtain ⟨o', ho', hf'⟩ := ha
    obtain ⟨o₁, ho₁, -, hcore⟩ := hp.lasting l o' (Array.getElem?_eq_some_iff.mp ho).1 ho' hf'
    rw [ho] at ho₁
    cases ho₁
    have hbody' : o'.body = .function f := function_of_core (by rw [← hcore, hbody]; rfl)
    have hlives : ∀ k q, p.constants[k]? = some (.function q) → h'.Alive (place k) := by
      intro k q hk
      obtain ⟨v, hv, hnamed, -⟩ := hnames k q hk
      refine hp.follows l o (.value v) (place k) ho hold ?_ hnamed.leads (hnamed.alive hc)
      rw [hbody]
      exact List.mem_map_of_mem (List.mem_of_getElem? hv)
    refine .intro place ho' hf' hbody' htranscribes (fun k q hk => ?_) fun k q hk => ih k q hk (hlives k q hk)
    obtain ⟨v, hv, hnamed, hin⟩ := hnames k q hk
    obtain ⟨ref, rfl, hfind⟩ := id hnamed
    exact ⟨_, hv, ⟨ref, rfl, hp.names ref _ (hnamed.alive hc).lt hfind (hlives k q hk)⟩, hin⟩

structure ShowsIn (h : Heap) (K : Loc → Prop) (f : Function) (p : Prototype) : Prop where
  transcribes : f.Transcribes p
  constants : ∀ (k : Nat) q, p.constants[k]? = some (.function q) →
    ∃ v i, f.chunk.constants.toList[k]? = some v ∧ h.Names v i ∧ K i ∧ h.BearsIn K i q

theorem bearsIn_iff : h.BearsIn K l p ↔ ∃ (o : Object) (f : Function),
    h.objects[l]? = some o ∧ o.freed = false ∧ o.body = .function f ∧ h.ShowsIn K f p := by
  constructor
  · rintro ⟨place, ho, hf, hbody, htranscribes, hnames, hbears⟩
    refine ⟨_, _, ho, hf, hbody, htranscribes, fun k q hk => ?_⟩
    obtain ⟨v, hv, hnamed, hin⟩ := hnames k q hk
    exact ⟨v, place k, hv, hnamed, hin, hbears k q hk⟩
  · rintro ⟨o, f, ho, hf, hbody, htranscribes, hconstants⟩
    have hplace : ∀ k : Nat, ∃ i, ∀ q : Prototype, p.constants[k]? = some (Literal.function q) →
        (∃ v, f.chunk.constants.toList[k]? = some v ∧ h.Names v i ∧ K i) ∧ h.BearsIn K i q := by
      intro k
      by_cases hk : ∃ q : Prototype, p.constants[k]? = some (Literal.function q)
      · obtain ⟨q, hq⟩ := hk
        obtain ⟨v, i, hv, hnamed, hin, hbears⟩ := hconstants k q hq
        refine ⟨i, fun q' hq' => ?_⟩
        rw [hq] at hq'
        cases hq'
        exact ⟨⟨v, hv, hnamed, hin⟩, hbears⟩
      · exact ⟨0, fun q hq => absurd ⟨q, hq⟩ hk⟩
    obtain ⟨place, hplace⟩ := Classical.axiomOfChoice hplace
    exact .intro place ho hf hbody htranscribes (fun k q hk => (hplace k q hk).1) fun k q hk => (hplace k q hk).2

def Calls (h : Heap) (l : Loc) (p : Prototype) : Prop :=
  ∃ o c, h.objects[l]? = some o ∧ o.freed = false ∧ o.body = .closure c ∧ h.Bears c.function p

theorem Calls.alive (hc : h.Calls l p) : h.Alive l := by
  obtain ⟨o, c, ho, hf, -⟩ := hc
  exact ⟨o, ho, hf⟩

theorem Calls.congr (hc : h.Calls l p) (ho : h'.objects = h.objects) (hs : h'.slots = h.slots) : h'.Calls l p := by
  obtain ⟨o, c, hobj, hf, hbody, hbears⟩ := hc
  exact ⟨o, c, ho ▸ hobj, hf, hbody, hbears.congr ho hs⟩

theorem closure_of_core {b : Body} (hb : b.core = .closure k) : ∃ c, b = .closure c ∧ c.function = k := by
  cases b <;> cases hb
  exact ⟨_, rfl, rfl⟩

theorem bound_of_core {b : Body} (hb : b.core = .bound k) : ∃ c, b = .boundMethod c ∧ c.method = k := by
  cases b <;> cases hb
  exact ⟨_, rfl, rfl⟩

theorem Calls.passes (hcall : h.Calls l p) (hc : h.Consistent) (hp : h.Passes roots h') (ha : h'.Alive l) :
    h'.Calls l p := by
  obtain ⟨o, c, ho, hf, hbody, hbears⟩ := hcall
  obtain ⟨o', ho', hf'⟩ := id ha
  obtain ⟨o₁, ho₁, -, hcore⟩ := hp.lasting l o' (Array.getElem?_eq_some_iff.mp ho).1 ho' hf'
  rw [ho] at ho₁
  cases ho₁
  rw [hbody] at hcore
  obtain ⟨c', hbody', hfunction⟩ := closure_of_core hcore.symm
  refine ⟨o', c', ho', hf', hbody', hfunction ▸ hbears.passes hc hp ?_⟩
  refine hp.follows l o (.object c.function) _ ho ha ?_ (.object _) hbears.alive
  rw [hbody]
  exact List.mem_singleton.mpr rfl

structure Vouched (fit : Prototype → Prop) (h : Heap) : Prop where
  closures : ∀ (l : Loc) (o : Object), h.objects[l]? = some o → o.freed = false → o.kind = .closure →
    ∃ p, fit p ∧ h.Calls l p
  bounds : ∀ (l : Loc) (o : Object) b, h.objects[l]? = some o → o.freed = false → o.body = .boundMethod b →
    ∃ p, fit p ∧ h.Calls b.method p

theorem Vouched.passes (hv : h.Vouched fit) (hc : h.Consistent) (hp : h.Passes roots h')
    (hclosures : ∀ (l : Loc) (o : Object), h.objects.size ≤ l → h'.objects[l]? = some o → o.freed = false →
      o.kind = .closure → ∃ p, fit p ∧ h'.Calls l p)
    (hbounds : ∀ (l : Loc) (o : Object) b, h.objects.size ≤ l → h'.objects[l]? = some o → o.freed = false →
      o.body = .boundMethod b → ∃ p, fit p ∧ h'.Calls b.method p) : h'.Vouched fit where
  closures l o' ho' hf' hk := by
    by_cases hlt : l < h.objects.size
    · obtain ⟨o, ho, hf, hcore⟩ := hp.lasting l o' hlt ho' hf'
      obtain ⟨p, hfit, hcall⟩ := hv.closures l o ho hf ((kind_of_core hcore).1.mpr hk)
      exact ⟨p, hfit, hcall.passes hc hp ⟨o', ho', hf'⟩⟩
    · exact hclosures l o' (Nat.le_of_not_lt hlt) ho' hf' hk
  bounds l o' b ho' hf' hb := by
    by_cases hlt : l < h.objects.size
    · obtain ⟨o, ho, hf, hcore⟩ := hp.lasting l o' hlt ho' hf'
      rw [hb] at hcore
      obtain ⟨c, hbody, hmethod⟩ := bound_of_core hcore
      obtain ⟨p, hfit, hcall⟩ := hv.bounds l o c ho hf hbody
      rw [hmethod] at hcall
      refine ⟨p, hfit, hcall.passes hc hp
          (hp.follows l o (.object b.method) _ ho ⟨o', ho', hf'⟩ ?_ (.object _) hcall.alive)⟩
      rw [hcore]
      exact List.mem_singleton.mpr rfl
    · exact hbounds l o' b (Nat.le_of_not_lt hlt) ho' hf' hb

theorem Vouched.modest (hv : h.Vouched fit) (hc : h.Consistent) (hp : h.Passes roots h') (hm : h.Modest h') :
    h'.Vouched fit :=
  hv.passes hc hp (fun l o hl ho hf hk => absurd hk (hm l o hl ho hf).1) fun l o b hl ho hf hb =>
    absurd (by rw [Object.kind, hb]; rfl) (hm l o hl ho hf).2

theorem Vouched.congr (hv : h.Vouched fit) (ho : h'.objects = h.objects) (hs : h'.slots = h.slots) : h'.Vouched fit
    where
  closures l o hobj hf hk := by
    obtain ⟨p, hfit, hcall⟩ := hv.closures l o (ho ▸ hobj) hf hk
    exact ⟨p, hfit, hcall.congr ho hs⟩
  bounds l o b hobj hf hb := by
    obtain ⟨p, hfit, hcall⟩ := hv.bounds l o b (ho ▸ hobj) hf hb
    exact ⟨p, hfit, hcall.congr ho hs⟩

theorem vouched_new (options : GcOptions) : (new options).Vouched fit where
  closures l o ho := by simp [new] at ho
  bounds l o b ho := by simp [new] at ho

end Heap

namespace HeapM

open Heap HeapView

variable {r : Roots} {h : Heap} {fit : Prototype → Prop} {l k : Loc} {p : Prototype}

theorem Tends.vouched {α : Type} {act : HeapM α} (ht : Tends act) (r : Roots) (hs : h.Sound) (hv : h.Vouched fit) :
    Delivers True r h act fun _ h' => h'.Sound ∧ h.Passes (h.registered r) h' ∧ h'.Vouched fit :=
  (ht.both r hs).imp fun _ _ ⟨hs', hp, hm⟩ => ⟨hs', hp, hv.modest hs.consistent hp hm⟩

theorem allocated {h' : Heap} {body : Body} {size : Nat} (ha : Allocates r h body size l h') :
    (∃ o, h'.objects[l]? = some o ∧ o.freed = false ∧ o.body = body) ∧
      ∀ (j : Loc) (o : Object), h.objects.size ≤ j → h'.objects[j]? = some o → j = l ∧ o.body = body := by
  obtain ⟨h₁, hch, rfl, rfl, -⟩ := ha
  refine ⟨⟨_, by rw [objects_link, Array.getElem?_push, if_pos rfl], rfl, rfl⟩, fun j o hj ho => ?_⟩
  rw [objects_link, Array.getElem?_push] at ho
  split at ho
  · next he =>
    cases ho
    exact ⟨he, rfl⟩
  · rw [Array.getElem?_eq_none (hch.size ▸ hj)] at ho
    cases ho

theorem delivers_allocate_passes (hs : h.Sound) (body : Body) (hkind : body.kind ≠ .string)
    (size : Nat) : Delivers True r h (allocate body size) fun l h' =>
      h'.Sound ∧ h.Passes (h.origins r) h' ∧ Allocates r h body size l h' := by
  refine (Delivers.and ((keeps_allocate body hkind size).sound r h hs)
    (delivers_allocate hs.consistent (fun _ => trivial) body size)).imp fun _ _ ⟨hs', ha⟩ => ?_
  exact ⟨hs'.1, passes_of_allocates hs ha, ha⟩

theorem delivers_newClosure_calls (hs : h.Sound) (hv : h.Vouched fit) (hfit : fit p) (hb : h.Bears k p)
    (hkept : ∀ h', h.Passes (h.origins r) h' → h'.Alive k) :
    Delivers True r h (newClosure k) fun l h' => h'.Sound ∧ h.Passes (h.origins r) h' ∧ h'.Vouched fit ∧
      ∃ o c, h'.objects[l]? = some o ∧ o.freed = false ∧ o.body = .closure c ∧ c.upvalues.size = p.captures ∧
        h'.Bears c.function p := by
  cases id hb with
  | @intro _ o f _ place ho _ hbody htranscribes _ _ =>
    unfold newClosure
    apply delivers_view_bind (functionAt_eq_ok.mpr ⟨o, ho, hbody⟩)
    dsimp only
    split
    · exact .inr trivial
    · refine (delivers_allocate_passes hs _ (by simp [Body.kind]) _).imp ?_
      rintro l h' ⟨hs', hp, ha⟩
      obtain ⟨⟨o', ho', hf', hbody'⟩, hnew⟩ := allocated ha
      have hbears := hb.passes hs.consistent hp (hkept h' hp)
      refine ⟨hs', hp, hv.passes hs.consistent hp ?_ ?_, o', _, ho', hf', hbody', ?_, hbears⟩
      · intro j q hj hq _ _
        obtain ⟨rfl, -⟩ := hnew j q hj hq
        exact ⟨p, hfit, o', _, ho', hf', hbody', hbears⟩
      · intro j q b hj hq _ hbound
        obtain ⟨-, hclosure⟩ := hnew j q hj hq
        rw [hclosure] at hbound
        cases hbound
      · rw [Array.size_replicate, htranscribes.captures]
        rfl

theorem delivers_newBoundMethod_calls (hs : h.Sound) (hv : h.Vouched fit) (hfit : fit p) (hc : h.Calls k p)
    (hkept : ∀ h', h.Passes (h.origins r) h' → h'.Alive k) (receiver : Value) :
    Delivers True r h (newBoundMethod receiver k) fun _ h' =>
      h'.Sound ∧ h.Passes (h.origins r) h' ∧ h'.Vouched fit := by
  refine (delivers_allocate_passes hs _ (by simp [Body.kind]) _).imp ?_
  rintro l h' ⟨hs', hp, ha⟩
  obtain ⟨-, hnew⟩ := allocated ha
  have hcalls := hc.passes hs.consistent hp (hkept h' hp)
  refine ⟨hs', hp, hv.passes hs.consistent hp ?_ ?_⟩
  · intro j q hj hq _ hclosure
    obtain ⟨-, hbound⟩ := hnew j q hj hq
    rw [Object.kind, hbound] at hclosure
    cases hclosure
  · intro j q b hj hq _ hbody
    obtain ⟨-, hbound⟩ := hnew j q hj hq
    rw [hbound] at hbody
    cases hbody
    exact ⟨p, hfit, hcalls⟩

end HeapM

end Lox

import Lox.Proofs.Compile.CarryOut
import Lox.Proofs.Heap.Bearing

namespace Lox

open Heap HeapM HeapView

namespace Heap

variable {h h' : Heap} {roots : List Link} {K : Loc → Prop} {l k : Loc} {p : Prototype}

theorem BearsIn.updateBody (hb : h.BearsIn K k p) (hk : k ≠ l) (hl : ¬ K l) (f : Body → Body) :
    (h.updateBody l f).BearsIn K k p := by
  induction hb with
  | intro place ho hf hbody htranscribes hnames _ ih =>
    refine .intro place ?_ hf hbody htranscribes hnames fun j q hj => ih j q hj ?_
    · rw [objects_updateBody, ho, Option.map_some, if_neg hk]
    · obtain ⟨-, -, -, hin⟩ := hnames j q hj
      exact fun he => hl (he ▸ hin)

theorem ShowsIn.updateBody {f : Function} (hs : h.ShowsIn K f p) (hl : ¬ K l) (g : Body → Body) :
    (h.updateBody l g).ShowsIn K f p where
  transcribes := hs.transcribes
  constants j q hj := by
    obtain ⟨v, i, hv, hnamed, hin, hb⟩ := hs.constants j q hj
    exact ⟨v, i, hv, hnamed, hin, hb.updateBody (fun he : i = l => hl (he ▸ hin)) hl g⟩

theorem Passes.updateBody (hp : h.Passes roots h') (hl : h.objects.size ≤ l) (f : Body → Body) :
    h.Passes roots (h'.updateBody l f) where
  size := Nat.le_trans hp.size (Nat.le_of_eq (by rw [Heap.updateBody, update, Array.size_modify]))
  names ref k hk hf ha := hp.names ref k hk hf ((alive_updateBody l k f).mp ha)
  rooted link hm hd k hk ha := (alive_updateBody l k f).mpr (hp.rooted link hm hd k hk ha)
  lasting k o' hk ho' hf' := by
    rw [objects_updateBody] at ho'
    obtain ⟨o, ho, rfl⟩ := Option.map_eq_some_iff.mp ho'
    have hne : k ≠ l := fun he => absurd hk (Nat.not_lt.mpr (he ▸ hl))
    rw [if_neg hne] at hf' ⊢
    exact hp.lasting k o hk ho hf'
  follows k o link j ho hk hm hj ha :=
    (alive_updateBody l j f).mpr (hp.follows k o link j ho ((alive_updateBody l k f).mp hk) hm hj ha)
  holds := hp.holds
  closed := hp.closed
  markers := hp.markers

theorem Modest.updateBody (hm : h.Modest h') (l : Loc) (g : Function → Function) :
    h.Modest (h'.updateBody l (mapFunction g)) := by
  intro k o hk ho hf
  rw [objects_updateBody] at ho
  obtain ⟨o', ho', rfl⟩ := Option.map_eq_some_iff.mp ho
  have hkind : (if k = l then { o' with body := mapFunction g o'.body } else o').kind = o'.kind := by
    split
    · show (mapFunction g o'.body).kind = o'.body.kind
      cases o'.body <;> rfl
    · rfl
  rw [hkind]
  exact hm k o' hk ho' (by split at hf <;> exact hf)

end Heap

structure Depositing (base : Heap) (r : Roots) (K : Loc → Prop) (s : Site) (d : Drafts) (h : Heap) : Prop where
  sound : h.Sound
  marked : Site.Marked s.marker r h
  passes : base.Passes (base.registered r) h
  modest : base.Modest h
  open_ : List.Forall₂ (h.BearsIn K) s.open_ d.open_
  apart : ∀ l ∈ s.open_, ¬ K l ∧ base.objects.size ≤ l
  nodup : s.open_.Nodup
  inside : ∀ l, K l → l < h.objects.size
  ended : ∀ p, d.ended = some p → ∃ l, s.ended = some l ∧ K l ∧ h.BearsIn K l p

variable {base h h' : Heap} {r : Roots} {K : Loc → Prop} {s : Site} {d d' : Drafts} {l : Loc} {ls : List Loc}
  {p t q : Prototype} {rest : List Prototype} {g : Function → Function}

namespace Depositing

theorem start {k : RootMarker} (hs : h.Sound) (hm : Site.Marked k r h) :
    Depositing h r (fun _ => False) { marker := k } {} h where
  sound := hs
  marked := hm
  passes := .refl _ h
  modest := .of_size rfl
  open_ := .nil
  apart := nofun
  nodup := List.nodup_nil
  inside := nofun
  ended := nofun

variable (hb : Depositing base r K s d h)

include hb

theorem forget : Depositing base r K s ⟨d.open_, none⟩ h :=
  { hb with ended := nofun }

theorem open_cons (hd : d.open_ = p :: rest) : ∃ l ls, s.open_ = l :: ls := by
  have := hb.open_
  rw [hd, List.forall₂_cons_right_iff] at this
  obtain ⟨l, ls, -, -, hs⟩ := this
  exact ⟨l, ls, hs⟩

theorem bears {i : Nat} (hl : s.open_[i]? = some l) (hp : d.open_[i]? = some p) : h.BearsIn K l p := by
  obtain ⟨hi, rfl⟩ := List.getElem?_eq_some_iff.mp hl
  obtain ⟨hi', rfl⟩ := List.getElem?_eq_some_iff.mp hp
  exact hb.open_.get hi hi'

theorem registered : h.registered r = base.registered r := by
  rw [Heap.registered, Heap.registered, hb.passes.markers]

theorem mem_registered (hl : l ∈ s.open_) : .object l ∈ h.registered (s.roots r) :=
  (mem_registered_standing hb.marked.registered).mpr (.inl (List.mem_map_of_mem hl))

theorem turn {roots : List Link} (hroots : ∀ link ∈ h.registered (s.roots r), link ∈ roots) (hs : h'.Sound)
    (hp : h.Passes roots h') (hm : h.Modest h') : Depositing base r K s ⟨d.open_, none⟩ h' where
  sound := hs
  marked := ⟨by rw [hp.markers]; exact hb.marked.registered, hb.marked.bare⟩
  passes := hb.passes.trans (hp.mono fun link hl => hroots link (hb.marked.mem_registered (hb.registered ▸ hl)))
  modest := hb.modest.trans hp hm
  open_ := forall₂_of_mem hb.open_ fun l hl _ hlp => hlp.passes hb.sound.consistent hp <|
    hp.rooted (.object l) (hroots _ (hb.mem_registered hl)) trivial l (.object l) hlp.alive
  apart := hb.apart
  nodup := hb.nodup
  inside l hl := Nat.lt_of_lt_of_le (hb.inside l hl) hp.size
  ended := nofun

theorem modify {i : Nat} (hl : s.open_[i]? = some l) (hp : d.open_[i]? = some p)
    (hg : ∀ f, h.ShowsIn K f p → h.ShowsIn K (g f) t) :
    Depositing base r K s ⟨d.open_.set i t, none⟩ (h.updateBody l (mapFunction g)) := by
  obtain ⟨hK, hnew⟩ := hb.apart l (List.mem_of_getElem? hl)
  obtain ⟨o, f, ho, hf, hbody, hshows⟩ := bearsIn_iff.mp (hb.bears hl hp)
  have hsize : (h.updateBody l (mapFunction g)).objects.size = h.objects.size := by
    rw [updateBody, update, Array.size_modify]
  refine
    { sound := hb.sound.updateBody l (keepsStrings_mapFunction g)
      marked := ⟨hb.marked.registered, hb.marked.bare⟩
      passes := hb.passes.updateBody hnew _
      modest := hb.modest.updateBody l g
      open_ := ?_
      apart := hb.apart
      nodup := hb.nodup
      inside := fun k hk => hsize ▸ hb.inside k hk
      ended := fun f hf => by cases hf }
  rw [List.forall₂_iff_get]
  refine ⟨by simpa using hb.open_.length_eq, fun j hj hj' => ?_⟩
  have hjp := List.Forall₂.get hb.open_ hj (by simpa using hj')
  simp only [List.get_eq_getElem] at hjp ⊢
  by_cases hij : i = j
  · subst hij
    rw [(List.getElem?_eq_some_iff.mp hl).2, List.getElem_set_self]
    refine bearsIn_iff.mpr ⟨{ o with body := mapFunction g o.body }, g f, ?_, hf, ?_, (hg f hshows).updateBody hK _⟩
    · rw [objects_updateBody, ho, Option.map_some, if_pos rfl]
    · simp [hbody, mapFunction]
  · rw [List.getElem_set_ne hij]
    have hne : s.open_[j] ≠ l := by
      intro he
      have hi : i < s.open_.length := (List.getElem?_eq_some_iff.mp hl).1
      have hget : s.open_[i] = s.open_[j] := (List.getElem?_eq_some_iff.mp hl).2.trans he.symm
      exact hij ((List.getElem_inj hb.nodup).mp hget)
    exact hjp.updateBody hne hK _

theorem setHolds (holds : List Value) :
    Depositing { base with holds } r K s ⟨d.open_, none⟩ { h with holds } where
  sound := hb.sound.congr ⟨rfl, rfl, rfl, rfl, rfl, rfl, rfl⟩
  marked := ⟨hb.marked.registered, hb.marked.bare⟩
  passes := hb.passes.congr rfl rfl rfl rfl rfl hb.passes.closed hb.passes.markers
  modest := hb.modest
  open_ := hb.open_.imp fun _ _ hl => hl.congr rfl rfl
  apart := hb.apart
  nodup := hb.nodup
  inside := hb.inside
  ended := nofun

end Depositing

structure Forges (base : Heap) (r : Roots) (K : Loc → Prop) (s : Site) (rest : List Prototype) (p t : Prototype)
    {α : Type} (act : HeapM α) : Prop where
  grows : Grows act
  delivers : ∀ h, Depositing base r K s ⟨p :: rest, none⟩ h →
    Delivers True (s.roots r) h act fun _ h' => Depositing base r K s ⟨t :: rest, none⟩ h'

namespace Forges

variable {α β : Type}

theorem bind {x : HeapM α} {f : α → HeapM β} (hx : Forges base r K s rest p q x)
    (hf : ∀ a, Forges base r K s rest q t (f a)) : Forges base r K s rest p t (x >>= f) where
  grows := hx.grows.bind fun a => (hf a).grows
  delivers h hb := (hx.delivers h hb).bind (fun a => (hf a).grows) fun a h₁ hb₁ => (hf a).delivers h₁ hb₁

theorem pure (a : α) : Forges base r K s rest p p (pure a) :=
  ⟨grows_pure a, fun _ hb => delivers_pure hb⟩

theorem ite {c : Prop} [Decidable c] {x y : HeapM α} (hx : Forges base r K s rest p t x)
    (hy : Forges base r K s rest p t y) : Forges base r K s rest p t (if c then x else y) := by
  split
  · exact hx
  · exact hy

theorem of_tends {act : HeapM α} (ht : Tends act) : Forges base r K s rest p p act :=
  ⟨ht.keeps.grows, fun _ hb => (ht.both (s.roots r) hb.sound).imp fun _ _ h =>
    hb.turn (fun _ hl => hl) h.1 h.2.1 h.2.2⟩

theorem modifyFunction (hs : s.open_ = l :: ls) (hg : ∀ h f, ShowsIn h K f p → ShowsIn h K (g f) t) :
    Forges base r K s rest p t (modifyFunction l g) :=
  ⟨(keeps_modifyFunction l g).grows, fun h hb => delivers_modify (hb.modify (i := 0) (by rw [hs]; rfl) rfl (hg h))⟩

theorem modifyChunk {g : Chunk → Chunk} (hs : s.open_ = l :: ls)
    (hcode : ∀ c, c.code.toList = p.code → (g c).code.toList = t.code)
    (hlines : ∀ c, c.lines.toList = p.lines.map Int.ofNat → (g c).lines.toList = t.lines.map Int.ofNat)
    (hconst : ∀ c, (g c).constants.toList = c.constants.toList)
    (hsame : t.arity = p.arity ∧ t.captures = p.captures ∧ t.name = p.name ∧ t.constants = p.constants) :
    Forges base r K s rest p t (modifyChunk l g) := by
  obtain ⟨ha, hc, hn, hk⟩ := hsame
  refine modifyFunction hs ?_
  rintro h f ⟨ht, hconsts⟩
  refine ⟨?_, fun k q hq => ?_⟩
  · exact
      { arity := ht.arity.trans (congrArg _ ha.symm)
        captures := ht.captures.trans (congrArg _ hc.symm)
        name := ht.name.trans hn.symm
        code := hcode _ ht.code
        lines := hlines _ ht.lines
        constants := (congrArg List.length (hconst f.chunk)).trans (ht.constants.trans (congrArg _ hk.symm)) }
  · rw [hk] at hq
    rw [hconst f.chunk]
    exact hconsts k q hq

theorem view {f : Function → HeapM β} (hs : s.open_ = l :: ls) (hf : ∀ fn, Forges base r K s rest p t (f fn)) :
    Forges base r K s rest p t (do f (← functionAt l)) where
  grows := (grows_view _).bind fun fn => (hf fn).grows
  delivers h hb := by
    obtain ⟨o, fn, ho, -, hbody, -⟩ := bearsIn_iff.mp (hb.bears (i := 0) (by rw [hs]; rfl) rfl)
    exact delivers_view_bind (functionAt_eq_ok.mpr ⟨o, ho, hbody⟩) ((hf fn).delivers h hb)

theorem writeByte (hs : s.open_ = l :: ls) (b : UInt8) (line : Nat) :
    Forges base r K s rest p (p.addByte b line) (writeByte l b line) := by
  -- first the byte with its room, then the line with its own
  have hlines : Forges base r K s rest { p with code := p.code ++ [b] } (p.addByte b line) (do
        let chunk := (← functionAt l).chunk
        if chunk.lines.isFull then
          let old := chunk.lines.capacity
          HeapM.account ((nextCapacity old - old : Nat) * 8)
          HeapM.modifyChunk l fun c => ⟨c.code, c.lines.growTo (nextCapacity old), c.constants⟩
        HeapM.modifyChunk l fun c => ⟨c.code, c.lines.push line, c.constants⟩ : HeapM Unit) := by
    have hpush : Forges base r K s rest { p with code := p.code ++ [b] } (p.addByte b line)
        (HeapM.modifyChunk l fun c => ⟨c.code, c.lines.push line, c.constants⟩) := by
      refine modifyChunk hs (fun _ h => h) (fun c h => ?_) (fun _ => rfl) ⟨rfl, rfl, rfl, rfl⟩
      rw [Growable.toList_push, h]
      simp [Template.addByte]
    refine view hs fun fn => ite (bind (of_tends (tends_account _)) fun _ => bind ?_ fun _ => hpush) hpush
    refine modifyChunk hs (fun _ h => h) (fun c h => ?_) (fun _ => rfl) ⟨rfl, rfl, rfl, rfl⟩
    rw [Growable.toList_growTo, h]
  have hcode : Forges base r K s rest p { p with code := p.code ++ [b] }
      (HeapM.modifyChunk l fun c => ⟨c.code.push b, c.lines, c.constants⟩) := by
    refine modifyChunk hs (fun c h => ?_) (fun _ h => h) (fun _ => rfl) ⟨rfl, rfl, rfl, rfl⟩
    rw [Growable.toList_push, h]
  refine view hs fun fn => ite (bind (of_tends (tends_account _)) fun _ => bind ?_ fun _ =>
    bind hcode fun _ => hlines) (bind hcode fun _ => hlines)
  refine modifyChunk hs (fun c h => ?_) (fun _ h => h) (fun _ => rfl) ⟨rfl, rfl, rfl, rfl⟩
  rw [Growable.toList_growTo, h]

end Forges

def Heap.Provides (h : Heap) (K : Loc → Prop) (v : Value) (k : Literal) : Prop :=
  ∀ q, k = .function q → ∃ i, h.Names v i ∧ K i ∧ h.BearsIn K i q

section Constants

variable {v : Value} {k : Literal} {e : Option Prototype}

theorem Heap.ShowsIn.addConstant {f : Function} (hs : h.ShowsIn K f p) (hv : h.Provides K v k) :
    h.ShowsIn K { f with chunk := { f.chunk with constants := f.chunk.constants.push v } } (p.addConstant k) where
  transcribes := { hs.transcribes with
    constants := by
      rw [Growable.toList_push, List.length_append, hs.transcribes.constants, Template.addConstant, List.length_append]
      rfl }
  constants j q hj := by
    rw [Growable.toList_push]
    rw [Template.addConstant, List.getElem?_append] at hj
    rw [List.getElem?_append, hs.transcribes.constants]
    split at hj
    · next hlt =>
      rw [if_pos hlt]
      exact hs.constants j q hj
    · next hlt =>
      rw [if_neg hlt]
      cases hi : j - p.constants.length with
      | zero =>
        rw [hi] at hj
        obtain ⟨i, hnamed, hin, hb⟩ := hv q (Option.some.inj hj)
        exact ⟨v, i, rfl, hnamed, hin, hb⟩
      | succ n =>
        rw [hi] at hj
        cases hj

theorem deposits_appendConstant (hs : s.open_ = l :: ls) (hb : Depositing base r K s ⟨p :: rest, none⟩ h)
    (hv : h.Provides K v k) : Delivers True (s.roots r) h (do
      modifyChunk l fun c => ⟨c.code, c.lines, c.constants.push v⟩
      return (← functionAt l).chunk.constants.size - 1) fun _ h' =>
        Depositing base r K s ⟨p.addConstant k :: rest, none⟩ h' := by
  apply delivers_modify_bind
  have hb' := hb.modify (i := 0) (l := l) (by rw [hs]; rfl) rfl
    (g := fun f => { f with chunk := { f.chunk with constants := f.chunk.constants.push v } }) fun f hf =>
      hf.addConstant hv
  exact (Forges.view hs fun fn => .pure _).delivers _ hb'

theorem deposits_pushConstant (hs : s.open_ = l :: ls) (hb : Depositing base r K s ⟨p :: rest, none⟩ h)
    (hv : h.Provides K v k) (hm : v ∈ h.holds) : Delivers True (s.roots r) h (pushConstant l v) fun _ h' =>
      Depositing base r K s ⟨p.addConstant k :: rest, none⟩ h' := by
  obtain ⟨o, fn, ho, -, hbody, -⟩ := bearsIn_iff.mp (hb.bears (i := 0) (by rw [hs]; rfl) rfl)
  apply delivers_view_bind (functionAt_eq_ok.mpr ⟨o, ho, hbody⟩)
  dsimp only
  split
  · have hgrows : Grows (do
        modifyChunk l fun c => ⟨c.code, c.lines, c.constants.growTo (nextCapacity fn.chunk.constants.capacity)⟩
        modifyChunk l fun c => ⟨c.code, c.lines, c.constants.push v⟩
        return (← functionAt l).chunk.constants.size - 1 : HeapM Nat) :=
      (keeps_modifyChunk l _).grows.bind fun _ => (keeps_modifyChunk l _).grows.bind fun _ =>
        (grows_view _).bind fun _ => grows_pure _
    refine Delivers.bind (Delivers.and ((keeps_account _).sound _ h hb.sound)
      (delivers_account hb.sound.consistent (fun _ => trivial) _)) (fun _ => hgrows) ?_
    rintro _ h₁ ⟨⟨hsound, -⟩, hch⟩
    have hp := hch.passes hb.sound.consistent
    have hb₁ := hb.turn (fun _ => mem_origins) hsound hp (.of_size hch.size)
    have hv₁ : h₁.Provides K v k := by
      intro q hq
      obtain ⟨i, hnamed, hin, hbears⟩ := hv q hq
      have halive := hp.rooted (.value v) (List.mem_append_left _ (List.mem_map_of_mem (List.mem_reverse.mpr hm)))
        trivial i hnamed.leads hbears.alive
      obtain ⟨ref, rfl, hfind⟩ := hnamed
      exact ⟨i, ⟨ref, rfl, hp.names ref i hbears.alive.lt hfind halive⟩, hin, hbears.passes hb.sound.consistent hp
          halive⟩
    apply delivers_modify_bind
    let size := nextCapacity fn.chunk.constants.capacity
    let grown (f : Function) : Function :=
      { f with chunk := { f.chunk with constants := f.chunk.constants.growTo size } }
    have hgrown : ∀ f, h₁.ShowsIn K f p → h₁.ShowsIn K (grown f) p := fun f hf => by
      have hsame : (grown f).chunk.constants.toList = f.chunk.constants.toList := Growable.toList_growTo ..
      exact
        { transcribes := { hf.transcribes with constants := hsame ▸ hf.transcribes.constants }
          constants := fun j q hj => hsame ▸ hf.constants j q hj }
    have hK : ¬ K l := (hb₁.apart l (by rw [hs]; exact .head _)).1
    refine deposits_appendConstant hs (hb₁.modify (i := 0) (by rw [hs]; rfl) rfl hgrown) fun q hq => ?_
    obtain ⟨i, hnamed, hin, hbears⟩ := hv₁ q hq
    exact ⟨i, hnamed, hin, hbears.updateBody (fun he : i = l => hK (he ▸ hin)) hK _⟩
  · exact deposits_appendConstant hs hb hv

theorem Heap.Provides.setHolds (hv : h.Provides K v k) (holds : List Value) : Provides { h with holds } K v k := by
  intro q hq
  obtain ⟨i, hnamed, hin, hbears⟩ := hv q hq
  exact ⟨i, hnamed, hin, hbears.congr rfl rfl⟩

theorem deposits_addConstant (hs : s.open_ = l :: ls) (hb : Depositing base r K s ⟨p :: rest, e⟩ h)
    (hv : h.Provides K v k) : Delivers True (s.roots r) h (addConstant l v) fun _ h' =>
      Depositing base r K s ⟨p.addConstant k :: rest, none⟩ h' := by
  apply delivers_hold_bind
  have hb₁ := hb.setHolds (v :: h.holds)
  refine (deposits_pushConstant hs hb₁ (hv.setHolds _) (.head _)).tryFinally (grows_unhold _) ?_
  rintro _ h₂ hb₂
  refine delivers_unhold hb₂.passes.holds ?_
  have hb₃ := hb₂.setHolds h.holds
  rw [hb.passes.holds] at hb₃ ⊢
  exact hb₃

end Constants

def Deposits (base : Heap) (r : Roots) (d : Drafts) (s : Site) (h : Heap) : Prop :=
  ∃ K, Depositing base r K s d h

namespace Depositing

variable (hb : Depositing base r K s d h)

include hb

theorem deposits_begin : Delivers True r h (Order.begin.carryOut s) fun s' h' =>
    Deposits base r ⟨{} :: d.open_, none⟩ s' h' := by
  have hkind : (Body.function ⟨0, 0, none, .empty⟩).kind ≠ .string := by simp [Body.kind]
  refine Delivers.bind (Site.delivers_keeping (delivers_allocate_passes hb.sound _ hkind _))
    (fun _ => grows_pure _) ?_
  rintro l h' ⟨hs', hp, ha⟩
  have hb' := hb.turn (fun _ => mem_origins) hs' hp (modest_of_allocates ha (by simp [Body.kind]) (by simp [Body.kind]))
  obtain ⟨⟨o, ho, hf, hbody⟩, -⟩ := allocated ha
  have hlast : l = h.objects.size := by
    obtain ⟨h₁, hch, rfl, -, -⟩ := ha
    exact hch.size
  have hnew : ¬ K l := fun hK => absurd (hb.inside l hK) (Nat.not_lt.mpr (Nat.le_of_eq hlast.symm))
  refine delivers_pure ⟨K, { hb' with open_ := ?_, apart := ?_, nodup := ?_ }⟩
  · refine .cons (bearsIn_iff.mpr ⟨o, _, ho, hf, hbody, ⟨rfl, rfl, rfl, rfl, rfl, rfl⟩, ?_⟩) hb'.open_
    intro k q hk
    cases hk
  · intro k hk
    rcases List.mem_cons.mp hk with rfl | hk
    · exact ⟨hnew, hlast ▸ hb.passes.size⟩
    · exact hb.apart k hk
  · refine List.nodup_cons.mpr ⟨fun hl => ?_, hb.nodup⟩
    obtain ⟨i, hi⟩ := List.getElem?_of_mem hl
    have hi' : i < d.open_.length := hb.open_.length_eq ▸ (List.getElem?_eq_some_iff.mp hi).1
    exact absurd (hb.bears hi (List.getElem?_eq_getElem hi')).alive.lt (Nat.not_lt.mpr (Nat.le_of_eq hlast.symm))

theorem deposits_forge {α : Type} {x : Loc → HeapM α} (hd : d.open_ = p :: rest)
    (hx : ∀ l ls, s.open_ = l :: ls → Forges base r K s rest p t (x l)) :
    Delivers True r h (do
      let l ← s.inner
      let _ ← s.keeping (x l)
      return s) fun s' h' => Deposits base r ⟨t :: rest, none⟩ s' h' := by
  obtain ⟨l, ls, hs⟩ := hb.open_cons hd
  rw [Site.inner_bind hs]
  refine Delivers.bind (Site.delivers_keeping ((hx l ls hs).delivers h (hd ▸ hb.forget))) (fun _ => grows_pure _) ?_
  exact fun _ h' hb' => delivers_pure ⟨K, hb'⟩

theorem deposits_constant (hd : d.open_ = p :: rest) {v : Value} {k : Literal} (hv : h.Provides K v k) :
    Delivers True r h (s.constant v) fun s' h' => Deposits base r ⟨p.addConstant k :: rest, none⟩ s' h' := by
  obtain ⟨l, ls, hs⟩ := hb.open_cons hd
  rw [Site.constant, Site.inner_bind hs]
  have hb₀ : Depositing base r K s ⟨p :: rest, none⟩ h := hd ▸ hb.forget
  refine Delivers.bind (Site.delivers_keeping (deposits_addConstant hs hb₀ hv)) (fun _ => grows_pure _) ?_
  exact fun _ h' hb' => delivers_pure ⟨K, hb'⟩

theorem deposits_name (hd : d.open_ = p :: rest) (chars : Bytes) :
    Delivers True r h ((Order.name chars).carryOut s) fun s' h' =>
      Deposits base r ⟨{ p with name := some chars } :: rest, none⟩ s' h' := by
  obtain ⟨l, ls, hs⟩ := hb.open_cons hd
  rw [Order.carryOut, Site.inner_bind hs]
  have hgrow (symbol : Symbol) : Grows (HeapM.modifyFunction l fun f => { f with name := some symbol }) :=
    (keeps_modifyFunction l _).grows
  have hname : Delivers True (s.roots r) h (do
      let symbol ← intern chars
      HeapM.modifyFunction l fun f => { f with name := some symbol }) fun _ h' =>
        Depositing base r K s ⟨{ p with name := some chars } :: rest, none⟩ h' := by
    refine Delivers.bind (Delivers.and ((tends_intern chars).both _ hb.sound)
      (delivers_intern hb.sound (fun _ => trivial) chars)) hgrow ?_
    rintro symbol h₁ ⟨⟨hs₁, hp, hm⟩, hi⟩
    have hb₁ := hd ▸ hb.turn (fun _ hl => hl) hs₁ hp hm
    refine delivers_modify (hb₁.modify (i := 0) (t := { p with name := some chars }) (by rw [hs]; rfl) rfl fun f hf =>
        ?_)
    exact { hf with transcribes := { hf.transcribes with name := congrArg some hi.chars } }
  refine Delivers.bind (Site.delivers_keeping hname) (fun _ => grows_pure _) ?_
  exact fun _ h' hb' => delivers_pure ⟨K, hb'⟩

theorem deposits_patch (hd : d.open_ = p :: rest) (offset : Nat) (b : UInt8) :
    Delivers True r h ((Order.patch offset b).carryOut s) fun s' h' =>
      Deposits base r ⟨{ p with code := p.code.set offset b } :: rest, none⟩ s' h' := by
  have hforge := hb.deposits_forge (x := fun l => patchByte l offset b) hd
    (t := { p with code := p.code.set offset b }) fun l ls hs => ?_
  · simp only [Site.keeping_patchByte] at hforge
    exact hforge
  · refine .view hs fun fn => .ite (.bind (.of_tends (tends_throw _)) fun _ => ?_) ?_
    all_goals
      refine .modifyChunk hs (fun c h => ?_) (fun _ h => h) (fun _ => rfl) ⟨rfl, rfl, rfl, rfl⟩
      rw [Growable.toList_set, h]

theorem deposits_string (hd : d.open_ = p :: rest) (chars : Bytes) :
    Delivers True r h ((Order.string chars).carryOut s) fun s' h' =>
      Deposits base r ⟨p.addConstant (.string chars) :: rest, none⟩ s' h' := by
  have htext : Tends (do valueOf (← intern chars).loc : HeapM Value) :=
    (tends_intern chars).bind fun _ => tends_view _
  refine Delivers.bind (Site.delivers_keeping (htext.both _ hb.sound)) (fun v => s.grows_constant v) ?_
  rintro v h₁ ⟨hs₁, hp, hm⟩
  exact (hb.turn (fun _ hl => hl) hs₁ hp hm).deposits_constant hd nofun

theorem deposits_capture {depth : Nat} (hdepth : depth < d.open_.length) :
    Delivers True r h ((Order.capture depth).carryOut s) fun s' h' =>
      Deposits base r ⟨d.open_.modify depth fun p => { p with captures := p.captures + 1 }, none⟩ s' h' := by
  have hlen := hb.open_.length_eq
  obtain ⟨l, hl⟩ : ∃ l, s.open_[depth]? = some l := ⟨_, List.getElem?_eq_getElem (by omega)⟩
  obtain ⟨p, hp⟩ : ∃ p, d.open_[depth]? = some p := ⟨_, List.getElem?_eq_getElem hdepth⟩
  have hb' := hb.modify hl hp (g := fun f => { f with upvalueCount := f.upvalueCount + 1 })
    (t := { p with captures := p.captures + 1 }) fun f hf =>
      { hf with transcribes := { hf.transcribes with captures := by simp [hf.transcribes.captures] } }
  have hset : d.open_.modify depth (fun p => { p with captures := p.captures + 1 }) =
      d.open_.set depth { p with captures := p.captures + 1 } := by
    rw [List.modify_eq_set_getElem?, hp]
    rfl
  simp only [Order.carryOut, hl]
  apply delivers_modify_bind
  exact delivers_pure ⟨K, hset ▸ hb'⟩

theorem deposits_finish (hd : d.open_ = p :: rest) : Delivers True r h (Order.finish.carryOut s) fun s' h' =>
    Deposits base r ⟨rest, some p⟩ s' h' := by
  obtain ⟨l, ls, hs⟩ := hb.open_cons hd
  rw [Order.carryOut, Site.inner_bind hs]
  have hbears := hb.bears (i := 0) (l := l) (p := p) (by rw [hs]; rfl) (by rw [hd]; rfl)
  have hnodup := hb.nodup
  have hopen := hb.open_
  rw [hs, List.nodup_cons] at hnodup
  rw [hs, hd, List.forall₂_cons] at hopen
  have hmore : ∀ k, K k → K k ∨ k = l := fun _ hk => .inl hk
  refine delivers_pure ⟨fun k => K k ∨ k = l,
    { hb with open_ := ?_, apart := ?_, nodup := ?_, inside := ?_, ended := ?_ }⟩
  · rw [hs]
    exact hopen.2.imp fun _ _ hk => hk.mono hmore
  · rw [hs]
    intro k hk
    obtain ⟨hK, hnew⟩ := hb.apart k (hs ▸ List.mem_cons_of_mem _ hk)
    exact ⟨fun hin => hin.elim hK fun he => hnodup.1 (he ▸ hk), hnew⟩
  · rw [hs]
    exact hnodup.2
  · rintro k (hk | rfl)
    · exact hb.inside k hk
    · exact hbears.alive.lt
  · intro q hq
    cases hq
    exact ⟨l, rfl, .inr rfl, hbears.mono hmore⟩

theorem deposits_enclose (hd : d.open_ = p :: rest) (he : d.ended = some q) :
    Delivers True r h (Order.enclose.carryOut s) fun s' h' =>
      Deposits base r ⟨p.addConstant (.function q) :: rest, none⟩ s' h' := by
  obtain ⟨l, hl, hK, hbears⟩ := hb.ended q he
  obtain ⟨o, ho, hf⟩ := hbears.alive
  simp only [Order.carryOut, hl]
  apply delivers_view_bind (valueOf_eq ho)
  refine hb.deposits_constant hd fun q' hq' => ?_
  cases hq'
  exact ⟨l, names_ref hb.sound.consistent ho hf, hK, hbears⟩

end Depositing

theorem deposits_carryOut (hb : Depositing base r K s d h) (o : Order) (hd : o.draft d = some d') :
    Delivers True r h (o.carryOut s) fun s' h' => Deposits base r d' s' h' := by
  cases o with
  | begin =>
    cases hd
    exact hb.deposits_begin
  | name chars =>
    obtain ⟨p, rest, ho, rfl⟩ := Drafts.onInner_eq hd
    exact hb.deposits_name ho chars
  | byte b line =>
    obtain ⟨p, rest, ho, rfl⟩ := Drafts.onInner_eq hd
    exact hb.deposits_forge ho fun l ls hs => .writeByte hs b line
  | patch offset b =>
    simp only [Order.draft] at hd
    split at hd
    · next p rest ho =>
      split at hd
      · cases hd
        exact hb.deposits_patch ho offset b
      · cases hd
    · cases hd
  | number v =>
    simp only [Order.draft] at hd
    split at hd
    · obtain ⟨p, rest, ho, rfl⟩ := Drafts.onInner_eq hd
      exact hb.deposits_constant ho nofun
    · cases hd
  | string chars =>
    obtain ⟨p, rest, ho, rfl⟩ := Drafts.onInner_eq hd
    exact hb.deposits_string ho chars
  | enclose =>
    simp only [Order.draft] at hd
    split at hd
    · next q he =>
      obtain ⟨p, rest, ho, rfl⟩ := Drafts.onInner_eq hd
      exact hb.deposits_enclose ho he
    · cases hd
  | parameter =>
    obtain ⟨p, rest, ho, rfl⟩ := Drafts.onInner_eq hd
    refine hb.deposits_forge ho fun l ls hs => .modifyFunction (g := fun f => { f with arity := f.arity + 1 }) hs
      fun h f hf => ?_
    exact { hf with transcribes := { hf.transcribes with arity := by simp [hf.transcribes.arity] } }
  | capture depth =>
    simp only [Order.draft] at hd
    split at hd
    · next hlt =>
      cases hd
      exact hb.deposits_capture hlt
    · cases hd
  | finish =>
    simp only [Order.draft] at hd
    split at hd
    · next p rest ho =>
      cases hd
      exact hb.deposits_finish ho
    · cases hd

theorem deposits_carryOutAll (hb : Depositing base r K s d h) (os : List Order) (hd : Order.draftAll d os = some d') :
    Delivers True r h (Order.carryOutAll s os) fun s' h' => Deposits base r d' s' h' := by
  induction os generalizing K s d h with
  | nil =>
    cases hd
    exact delivers_pure ⟨K, hb⟩
  | cons o os ih =>
    rw [Order.draftAll_cons] at hd
    obtain ⟨d₁, hd₁, hd⟩ := Option.bind_eq_some_iff.mp hd
    refine (deposits_carryOut hb o hd₁).bind (fun s' => grows_carryOutAll s' os) ?_
    rintro s₁ h₁ ⟨_, hb₁⟩
    exact ih hb₁ hd

theorem deposits_build (hs : h.Sound) {orders : List Order} (hd : Order.draftAll {} orders = some d) :
    Delivers True r h (build orders) fun s h' => h'.Sound ∧ h.Passes (h.registered r) h' ∧ h.Modest h' ∧
      ∀ p, d.ended = some p → ∃ l, s.ended = some l ∧ h'.Bears l p := by
  refine delivers_rooting RootMarker.numbers_compiler fun k hk => ?_
  have hs₁ : Sound { h with markers := h.markers ++ [k] } := hs.congr ⟨rfl, rfl, rfl, rfl, rfl, rfl, rfl⟩
  have hm : Site.Marked k (standing r k []) { h with markers := h.markers ++ [k] } :=
    ⟨List.mem_append_right _ (List.mem_singleton.mpr rfl), if_pos rfl⟩
  refine Delivers.imp (deposits_carryOutAll (.start hs₁ hm) orders hd) ?_
  rintro s h' ⟨K, hb⟩
  refine ⟨hb.passes.markers, hb.sound.congr ⟨rfl, rfl, rfl, rfl, rfl, rfl, rfl⟩, ?_, hb.modest, fun p hp => ?_⟩
  · have hp := hb.passes.mono fun link hm => (mem_registered_joined hk).mpr (.inr hm)
    exact hp.congr rfl rfl rfl rfl hb.passes.holds hb.passes.closed rfl
  · obtain ⟨l, hl, -, hbears⟩ := hb.ended p hp
    exact ⟨l, hl, (hbears.mono fun _ _ => trivial).congr rfl rfl⟩

theorem deposits_compile (hs : h.Sound) {source : Bytes}
    (hd : Order.draftAll {} (analyze source).1 = some ⟨[], some p⟩) :
    Delivers True r h (compile source) fun answer h' => h'.Sound ∧ h.Passes (h.registered r) h' ∧ h.Modest h' ∧
      ∀ l, answer = .ok l → (analyze source).2 = [] ∧ h'.Bears l p := by
  unfold compile
  generalize analyze source = result at hd
  obtain ⟨orders, diagnostics⟩ := result
  refine (deposits_build hs hd).bind (fun s => ?_) ?_
  · cases s.ended with
    | none => exact grows_throw _
    | some l => exact grows_pure _
  · rintro s h' ⟨hs', hp, hm, hended⟩
    obtain ⟨l, hl, hbears⟩ := hended p rfl
    simp only [hl]
    refine delivers_pure ⟨hs', hp, hm, fun k hk => ?_⟩
    cases diagnostics with
    | nil =>
      cases hk
      exact ⟨rfl, hbears⟩
    | cons e es => cases hk

end Lox

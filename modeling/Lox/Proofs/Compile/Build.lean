import Lox.Compile.Build
import Lox.Proofs.Heap.Registry
import Lox.Proofs.Ideal.Entries

namespace Lox

open Heap HeapM HeapView

def OpenAt (w : World) (h : Heap) (l : Loc) (p : Prototype) : Prop :=
  w l = none ∧ ∃ o f, h.objects[l]? = some o ∧ o.freed = false ∧ o.body = .function f ∧
    h.ShowsFunction w f p

theorem OpenAt.alive {w : World} {h : Heap} {l : Loc} {p : Prototype} (ho : OpenAt w h l p) :
    h.Alive l := by
  obtain ⟨-, o, f, hobj, hf, -⟩ := ho
  exact ⟨o, hobj, hf⟩

namespace Site

abbrev roots (s : Site) (r : Roots) : Roots :=
  standing r s.marker s.links

structure Marked (k : RootMarker) (r : Roots) (h : Heap) : Prop where
  registered : k ∈ h.markers
  bare : r k = []

variable {k : RootMarker} {r : Roots} {h : Heap} {links : List Link} {link : Link}

theorem Marked.mem_registered (hs : Marked k r h) (hm : link ∈ h.registered r) :
    link ∈ h.registered (standing r k links) := by
  rw [mem_registered_standing hs.registered]
  obtain ⟨j, hj, hm⟩ := Heap.mem_registered.mp hm
  refine .inr ⟨j, hj, ?_, hm⟩
  rintro rfl
  rw [hs.bare] at hm
  cases hm

theorem Marked.mem_origins (hs : Marked k r h) :
    link ∈ h.origins (standing r k links) ↔ link ∈ h.origins r ∨ link ∈ links := by
  simp only [Heap.origins, List.mem_append, or_assoc]
  refine or_congr_right ⟨fun hm => ?_, ?_⟩
  · rcases (mem_registered_standing hs.registered).mp hm with hm | ⟨j, hj, -, hm⟩
    · exact .inr hm
    · exact .inl (Heap.mem_registered.mpr ⟨j, hj, hm⟩)
  · rintro (hm | hm)
    · exact hs.mem_registered hm
    · exact (mem_registered_standing hs.registered).mpr (.inl hm)

end Site

structure Building (w : World) (objects : List (Obj Routine)) (upvalues : List Captured) (r : Roots)
    (s : Site) (d : Drafts) (h : Heap) : Prop where
  pictures : Pictures w objects upvalues h
  marked : Site.Marked s.marker r h
  rooted : h.Rooted r
  open_ : List.Forall₂ (OpenAt w h) s.open_ d.open_
  nodup : s.open_.Nodup
  ended : ∀ p, d.ended = some p → ∃ l, s.ended = some l ∧ h.Alive l ∧ w l = some (.function p)

variable {w : World} {objects : List (Obj Routine)} {upvalues : List Captured} {r : Roots} {s : Site}
  {d : Drafts} {h h' : Heap}

theorem forall₂_alive {ls : List Loc} {ps : List Prototype} (ho : List.Forall₂ (OpenAt w h) ls ps)
    {l : Loc} (hl : l ∈ ls) : ∃ p, OpenAt w h l p := by
  induction ho with
  | nil => cases hl
  | cons hlp _ ih =>
    rcases List.mem_cons.mp hl with rfl | hl
    · exact ⟨_, hlp⟩
    · exact ih hl

theorem forall₂_of_mem {α β : Type} {R S : α → β → Prop} {as : List α} {bs : List β}
    (h : List.Forall₂ R as bs) (himp : ∀ a ∈ as, ∀ b, R a b → S a b) : List.Forall₂ S as bs := by
  induction h with
  | nil => exact .nil
  | cons hab _ ih =>
    exact .cons (himp _ (.head _) _ hab) (ih fun a ha => himp a (.tail _ ha))

namespace Building

variable (hb : Building w objects upvalues r s d h)

include hb

theorem rootedSite : h.Rooted (s.roots r) := by
  intro link hm
  rcases hb.marked.mem_origins.mp hm with hm | hm
  · exact hb.rooted link hm
  · obtain ⟨l, hl, rfl⟩ := List.mem_map.mp hm
    obtain ⟨p, hp⟩ := forall₂_alive hb.open_ hl
    exact ⟨.object hp.alive, trivial⟩

theorem mem_origins {link : Link} (hm : link ∈ h.origins r) : link ∈ h.origins (s.roots r) :=
  hb.marked.mem_origins.mpr (.inl hm)

theorem anchored {l : Loc} (hl : l ∈ s.open_) : h.Anchored (s.roots r) l :=
  ⟨.object l, hb.marked.mem_origins.mpr (.inr (List.mem_map.mpr ⟨l, hl, rfl⟩)), .object l⟩

theorem openAt {l : Loc} {p : Prototype} (ht : Turns (s.roots r) h h') (hl : l ∈ s.open_)
    (ho : OpenAt w h l p) : OpenAt w h' l p := by
  obtain ⟨hw, o, f, hobj, hf, hbody, hs⟩ := ho
  have hreach := (hb.anchored hl).reach
  refine ⟨hw, o, f, ht.object hb.pictures hb.rootedSite hreach hobj, hf, hbody, ?_⟩
  refine (ht.carries hb.pictures hb.rootedSite).showsFunction (.refl w) hs fun link hm k hk => ?_
  refine ht.alive hb.pictures hb.rootedSite (.link hreach ?_ hk)
  simpa only [linksAt, hobj, hbody] using hm

theorem turn (ht : Turns (s.roots r) h h') :
    Building w objects upvalues r s { d with ended := none } h' where
  pictures := ht.pictures hb.pictures hb.rootedSite
  marked := ⟨by rw [ht.evolves.markers]; exact hb.marked.registered, hb.marked.bare⟩
  rooted := by
    intro link hm
    have hor : h'.origins r = h.origins r := origins_congr ht.holds ht.evolves.markers
    rw [hor] at hm
    obtain ⟨hv, hd⟩ := hb.rooted link hm
    exact ⟨(ht.carries hb.pictures hb.rootedSite).valid (hb.mem_origins hm) hd hv, hd⟩
  open_ := forall₂_of_mem hb.open_ fun _ hl _ ho => hb.openAt ht hl ho
  nodup := hb.nodup
  ended := nofun

theorem carries (ht : Turns (s.roots r) h h') : Carries (h.origins r) h h' :=
  (ht.carries hb.pictures hb.rootedSite).mono fun _ => hb.mem_origins

omit hb in
theorem function {l : Loc} {p : Prototype} (ho : OpenAt w h l p) : ∃ f, functionAt l h = .ok f := by
  obtain ⟨-, o, f, hobj, -, hbody, -⟩ := ho
  exact ⟨f, functionAt_eq_ok.mpr ⟨o, hobj, hbody⟩⟩

end Building

def AddsConstants (g : Function → Function) : Prop :=
  ∀ f, ∀ v ∈ (g f).chunk.constants.toList, v ∈ f.chunk.constants.toList ∨ v.IsCanonical

theorem AddsConstants.of_same {g : Function → Function}
    (hg : ∀ f, (g f).chunk.constants.toList = f.chunk.constants.toList) : AddsConstants g :=
  fun f _ hv => .inl (hg f ▸ hv)

theorem AddsConstants.addsCanonical {g : Function → Function} (hg : AddsConstants g) :
    AddsCanonical (mapFunction g) := by
  intro b v hm
  cases b with
  | function f =>
    have hv : v ∈ (g f).chunk.constants.toList := by simpa [mapFunction, Body.links] using hm
    rcases hg f v hv with hv | hv
    · exact .inl (by simpa [Body.links] using hv)
    · exact .inr hv
  | _ => exact .inl hm

theorem ShowsFunction.valid (hc : h.Consistent) {f : Function} {p : Prototype}
    (hs : h.ShowsFunction w f p) : ∀ link ∈ (Body.function f).links, h.Valid link := by
  intro link hm
  rcases List.mem_append.mp hm with hm | hm
  · obtain ⟨s, hs', rfl⟩ := List.mem_map.mp hm
    exact .object (hs.named s (Option.mem_toList.mp hs')).alive
  · obtain ⟨v, hv, rfl⟩ := List.mem_map.mp hm
    obtain ⟨k, hk⟩ : ∃ k, h.ShowsConstant w v k := by
      have hcs := hs.constants
      revert hv
      generalize f.chunk.constants.toList = vs at hcs
      generalize p.constants = ks at hcs
      intro hv
      induction hcs with
      | nil => cases hv
      | cons hvk _ ih =>
        rcases List.mem_cons.mp hv with rfl | hv
        · exact ⟨_, hvk⟩
        · exact ih hv
    exact hk.valid hc

namespace Building

variable (hb : Building w objects upvalues r s d h) {l : Loc} {p p' : Prototype}
  {g : Function → Function}

include hb

theorem modify {i : Nat} (hl : s.open_[i]? = some l) (hp : d.open_[i]? = some p)
    (hg : ∀ f, h.ShowsFunction w f p → h.ShowsFunction w (g f) p') :
    Building w objects upvalues r s ⟨d.open_.set i p', none⟩ (h.updateBody l (mapFunction g)) := by
  have hlp : OpenAt w h l p := by
    have hi : i < s.open_.length := (List.getElem?_eq_some_iff.mp hl).1
    have hi' : i < d.open_.length := (List.getElem?_eq_some_iff.mp hp).1
    have := List.Forall₂.get hb.open_ hi hi'
    rw [List.get_eq_getElem, List.get_eq_getElem] at this
    rwa [(List.getElem?_eq_some_iff.mp hl).2, (List.getElem?_eq_some_iff.mp hp).2] at this
  obtain ⟨hw, o, f, ho, hf, hbody, hs⟩ := hlp
  have hkeep := keepsStrings_mapFunction g
  have hsur : Survives h (h.updateBody l (mapFunction g)) := survives_updateBody hkeep
  have hsound := hb.pictures.sound.consistent
  have halive : ∀ {f : Function} {p : Prototype}, h.ShowsFunction w f p →
      (h.updateBody l (mapFunction g)).ShowsFunction w f p := fun hs =>
    hsur.showsFunction (.refl w) hs fun link hm k hk =>
      (alive_updateBody l k _).mpr ((ShowsFunction.valid hsound hs link hm).alive hk)
  refine
    { pictures := ?_
      marked := ⟨hb.marked.registered, hb.marked.bare⟩
      rooted := ?_
      open_ := ?_
      nodup := hb.nodup
      ended := nofun }
  · refine hb.pictures.update hkeep ?_ (fun _ _ _ _ => rfl) (fun _ _ _ _ => rfl) rfl rfl ?_
    · intro o' ho' _
      rw [ho] at ho'
      cases ho'
      rw [hbody]
      exact ShowsFunction.valid hsound (hg f hs)
    · intro o' t _ _ ht
      rw [hw] at ht
      cases ht
  · intro link hm
    obtain ⟨hv, hd⟩ := hb.rooted link hm
    exact ⟨valid_updateBody hd hv, hd⟩
  · rw [List.forall₂_iff_get]
    have hlen := hb.open_.length_eq
    refine ⟨by simpa using hlen, fun j hj hj' => ?_⟩
    have hjp := List.Forall₂.get hb.open_ hj (by simpa using hj')
    simp only [List.get_eq_getElem] at hjp ⊢
    by_cases hij : i = j
    · subst hij
      rw [(List.getElem?_eq_some_iff.mp hl).2, List.getElem_set_self]
      refine ⟨hw, { o with body := mapFunction g o.body }, g f, ?_, hf, ?_, halive (hg f hs)⟩
      · rw [objects_updateBody, ho]
        simp
      · simp [hbody, mapFunction]
    · rw [List.getElem_set_ne hij]
      obtain ⟨hwj, oj, fj, hoj, hfj, hbj, hsj⟩ := hjp
      have hne : s.open_[j] ≠ l := by
        intro he
        apply hij
        have hi : i < s.open_.length := (List.getElem?_eq_some_iff.mp hl).1
        have hget : s.open_[i] = s.open_[j] := by
          rw [(List.getElem?_eq_some_iff.mp hl).2, he]
        exact (List.getElem_inj hb.nodup).mp hget
      refine ⟨hwj, oj, fj, ?_, hfj, hbj, halive hsj⟩
      rw [objects_updateBody, hoj]
      simp [hne]

theorem carriesModify (hg : AddsConstants g) :
    Carries (h.origins r) h (h.updateBody l (mapFunction g)) :=
  carries_updateBody (keepsStrings_mapFunction g) hg.addsCanonical.canonical fun link hm => (hb.rooted link hm).1

end Building

structure Crafts (w : World) (objects : List (Obj Routine)) (upvalues : List Captured) (r : Roots)
    (s : Site) (rest : List Prototype) (p p' : Prototype) {α : Type} (act : HeapM α) : Prop where
  grows : Grows act
  delivers : ∀ h, Building w objects upvalues r s ⟨p :: rest, none⟩ h →
    Delivers False (s.roots r) h act fun _ h' =>
      Building w objects upvalues r s ⟨p' :: rest, none⟩ h' ∧ Carries (h.origins r) h h'

namespace Crafts

variable {rest : List Prototype} {p p' q : Prototype} {α β : Type} {l : Loc} {ls : List Loc}

theorem bind {x : HeapM α} {f : α → HeapM β} (hx : Crafts w objects upvalues r s rest p q x)
    (hf : ∀ a, Crafts w objects upvalues r s rest q p' (f a)) :
    Crafts w objects upvalues r s rest p p' (x >>= f) where
  grows := hx.grows.bind fun a => (hf a).grows
  delivers h hb := by
    refine (hx.delivers h hb).bind (fun a => (hf a).grows) fun a h₁ ⟨hb₁, hcar⟩ => ?_
    refine ((hf a).delivers h₁ hb₁).imp fun _ h₂ ⟨hb₂, hcar'⟩ => ⟨hb₂, ?_⟩
    refine hcar.trans hb.pictures.sound.consistent (fun link hm => (hb.rooted link hm).2) ?_
    rwa [origins_congr hcar.holds hcar.markers] at hcar'

theorem ite {c : Prop} [Decidable c] {x y : HeapM α}
    (hx : Crafts w objects upvalues r s rest p p' x)
    (hy : Crafts w objects upvalues r s rest p p' y) :
    Crafts w objects upvalues r s rest p p' (if c then x else y) := by
  split
  · exact hx
  · exact hy

theorem account (delta : Int) : Crafts w objects upvalues r s rest p p (account delta) where
  grows := grows_account delta
  delivers _ hb := (turns_account hb.pictures hb.rootedSite delta).imp fun _ _ ht =>
    ⟨hb.turn ht, hb.carries ht⟩

theorem modifyFunction {g : Function → Function} (hs : s.open_ = l :: ls) (hadds : AddsConstants g)
    (hg : ∀ h f, Heap.Consistent h → h.ShowsFunction w f p → h.ShowsFunction w (g f) p') :
    Crafts w objects upvalues r s rest p p' (modifyFunction l g) where
  grows := (keeps_modifyFunction l g).grows
  delivers _ hb := delivers_modify ⟨hb.modify (i := 0) (by rw [hs]; rfl) rfl
    fun f => hg _ f hb.pictures.sound.consistent, hb.carriesModify hadds⟩

theorem modifyChunk {g : Chunk → Chunk} (hs : s.open_ = l :: ls)
    (hcode : ∀ c, c.code.toList = p.code → (g c).code.toList = p'.code)
    (hlines : ∀ c, c.lines.toList = p.lines.map Int.ofNat →
      (g c).lines.toList = p'.lines.map Int.ofNat)
    (hconst : ∀ c, (g c).constants.toList = c.constants.toList)
    (hsame : p'.arity = p.arity ∧ p'.captures = p.captures ∧ p'.name = p.name ∧
      p'.constants = p.constants) :
    Crafts w objects upvalues r s rest p p' (modifyChunk l g) := by
  refine modifyFunction hs (.of_same fun f => hconst f.chunk) fun h f _ hf => ?_
  obtain ⟨ha, hc, hn, hk⟩ := hsame
  exact
    { arity := by rw [ha]; exact hf.arity
      captures := by rw [hc]; exact hf.captures
      name := by rw [hn]; exact hf.name
      named := hf.named
      code := hcode _ hf.code
      lines := hlines _ hf.lines
      constants := by
        rw [hk]
        exact (hconst f.chunk).symm ▸ hf.constants }

theorem view {f : Function → HeapM β} (hs : s.open_ = l :: ls)
    (hf : ∀ fn, Crafts w objects upvalues r s rest p p' (f fn)) :
    Crafts w objects upvalues r s rest p p' (do f (← functionAt l)) where
  grows := (grows_view _).bind fun fn => (hf fn).grows
  delivers h hb := by
    have ho : OpenAt w h l p := by
      have := hb.open_
      rw [hs] at this
      exact (List.forall₂_cons.mp this).1
    obtain ⟨fn, hfn⟩ := Building.function ho
    exact delivers_view_bind hfn ((hf fn).delivers h hb)

theorem writeByte (hs : s.open_ = l :: ls) (b : UInt8) (line : Nat) :
    Crafts w objects upvalues r s rest p (p.addByte b line) (writeByte l b line) := by
  -- first the byte with its room, then the line with its own
  have hlines : Crafts w objects upvalues r s rest { p with code := p.code ++ [b] }
      (p.addByte b line) (do
        let chunk := (← functionAt l).chunk
        if chunk.lines.isFull then
          let old := chunk.lines.capacity
          HeapM.account ((nextCapacity old - old : Nat) * 8)
          HeapM.modifyChunk l fun c =>
            ⟨c.code, c.lines.growTo (nextCapacity old), c.constants⟩
        HeapM.modifyChunk l fun c =>
          ⟨c.code, c.lines.push line, c.constants⟩ : HeapM Unit) := by
    have hpush : Crafts w objects upvalues r s rest { p with code := p.code ++ [b] }
        (p.addByte b line) (HeapM.modifyChunk l fun c =>
          ⟨c.code, c.lines.push line, c.constants⟩) := by
      refine modifyChunk hs (fun _ h => h) (fun c h => ?_) (fun _ => rfl) ⟨rfl, rfl, rfl, rfl⟩
      rw [Growable.toList_push, h]
      simp [Template.addByte]
    refine view hs fun fn => ite (bind (account _) fun _ => bind ?_ fun _ => hpush) hpush
    refine modifyChunk hs (fun _ h => h) (fun c h => ?_) (fun _ => rfl) ⟨rfl, rfl, rfl, rfl⟩
    rw [Growable.toList_growTo, h]
  have hcode : Crafts w objects upvalues r s rest p { p with code := p.code ++ [b] }
      (HeapM.modifyChunk l fun c => ⟨c.code.push b, c.lines, c.constants⟩) := by
    refine modifyChunk hs (fun c h => ?_) (fun _ h => h) (fun _ => rfl) ⟨rfl, rfl, rfl, rfl⟩
    rw [Growable.toList_push, h]
  refine view hs fun fn => ite (bind (account _) fun _ => bind ?_ fun _ =>
    bind hcode fun _ => hlines) (bind hcode fun _ => hlines)
  refine modifyChunk hs (fun c h => ?_) (fun _ h => h) (fun _ => rfl) ⟨rfl, rfl, rfl, rfl⟩
  rw [Growable.toList_growTo, h]

end Crafts

theorem Building.forget (hb : Building w objects upvalues r s d h) :
    Building w objects upvalues r s ⟨d.open_, none⟩ h :=
  { hb with ended := nofun }

theorem Building.inner {p : Prototype} {rest : List Prototype} {e : Option Prototype} {l : Loc}
    {ls : List Loc} (hb : Building w objects upvalues r s ⟨p :: rest, e⟩ h) (hs : s.open_ = l :: ls) :
    OpenAt w h l p := by
  have := hb.open_
  rw [hs] at this
  exact (List.forall₂_cons.mp this).1

section Constants

variable {rest : List Prototype} {p : Prototype} {l : Loc} {ls : List Loc} {v : Value} {k : Literal}

theorem delivers_appendConstant (hs : s.open_ = l :: ls)
    (hb : Building w objects upvalues r s ⟨p :: rest, none⟩ h) (hv : h.ShowsConstant w v k) :
    Delivers False (s.roots r) h (do
      modifyChunk l fun c => ⟨c.code, c.lines, c.constants.push v⟩
      return (← functionAt l).chunk.constants.size - 1) fun _ h' =>
        Building w objects upvalues r s ⟨p.addConstant k :: rest, none⟩ h' ∧
          Carries (h.origins r) h h' := by
  apply delivers_modify_bind
  have hshow : ∀ f, h.ShowsFunction w f p → h.ShowsFunction w
      { f with chunk := { f.chunk with constants := f.chunk.constants.push v } }
      (p.addConstant k) := fun f hf => { hf with
    constants := by
      rw [Growable.toList_push]
      exact List.rel_append hf.constants (.cons hv .nil) }
  have hb' := hb.modify (i := 0) (l := l) (by rw [hs]; rfl) rfl hshow
  obtain ⟨fn, hfn⟩ := Building.function (hb'.inner hs)
  have hadds : AddsConstants fun f =>
      { f with chunk := { f.chunk with constants := f.chunk.constants.push v } } := by
    intro f u hu
    rw [Growable.toList_push] at hu
    rcases List.mem_append.mp hu with hu | hu
    · exact .inl hu
    · exact .inr (List.mem_singleton.mp hu ▸ hv.canonical)
  exact delivers_view_bind hfn (delivers_pure ⟨hb', hb.carriesModify hadds⟩)

theorem delivers_pushConstant (hs : s.open_ = l :: ls)
    (hb : Building w objects upvalues r s ⟨p :: rest, none⟩ h) (hv : h.ShowsConstant w v k)
    (hm : v ∈ h.holds) : Delivers False (s.roots r) h (pushConstant l v) fun _ h' =>
      Building w objects upvalues r s ⟨p.addConstant k :: rest, none⟩ h' ∧
        Carries (h.origins r) h h' := by
  obtain ⟨fn, hfn⟩ := Building.function (hb.inner hs)
  apply delivers_view_bind hfn
  dsimp only
  split
  · refine (turns_account hb.pictures hb.rootedSite _).bind (fun _ => ?_) fun _ h₁ ht => ?_
    · exact (keeps_modifyChunk l _).grows.bind fun _ => (keeps_modifyChunk l _).grows.bind fun _ =>
        (grows_view _).bind fun _ => grows_pure _
    · have hb₁ := hb.turn ht
      have hroot : .value v ∈ h.origins (s.roots r) :=
        List.mem_append_left _ (List.mem_map.mpr ⟨v, List.mem_reverse.mpr hm, rfl⟩)
      have hv₁ : h₁.ShowsConstant w v k :=
        (ht.carries hb.pictures hb.rootedSite).showsConstant (.refl w) hv fun j hj =>
          ht.alive hb.pictures hb.rootedSite (.root hroot hj)
      apply delivers_modify_bind
      have hshow : ∀ f, h₁.ShowsFunction w f p → h₁.ShowsFunction w
          { f with chunk := { f.chunk with
            constants := f.chunk.constants.growTo (nextCapacity fn.chunk.constants.capacity) } }
          p := fun f hf => { hf with
        constants := by
          rw [Growable.toList_growTo]
          exact hf.constants }
      have hb₂ := hb₁.modify (i := 0) (l := l) (by rw [hs]; rfl) rfl hshow
      have hv₂ := (survives_updateBody (keepsStrings_mapFunction _)).showsConstant (.refl w) hv₁
        fun j hj => (alive_updateBody l j (mapFunction fun f => { f with chunk := { f.chunk with
          constants := f.chunk.constants.growTo (nextCapacity fn.chunk.constants.capacity) } })).mpr
            ((hv₁.valid hb₁.pictures.sound.consistent).alive hj)
      refine (delivers_appendConstant hs hb₂ hv₂).imp fun _ h₃ ⟨hb₃, hcar⟩ => ⟨hb₃, ?_⟩
      have hdir := fun link hm => (hb.rooted link hm).2
      have h₁₃ := (hb₁.carriesModify (l := l) (.of_same fun _ => Growable.toList_growTo ..)).trans
          hb₁.pictures.sound.consistent
        (fun link hm => (hb₁.rooted link hm).2) hcar
      have hcar₁ := hb.carries ht
      rw [origins_congr hcar₁.holds hcar₁.markers] at h₁₃
      exact hcar₁.trans hb.pictures.sound.consistent hdir h₁₃
  · exact delivers_appendConstant hs hb hv

theorem Building.setHolds (hb : Building w objects upvalues r s d h) {holds : List Value}
    (hh : ∀ v ∈ holds, h.Valid (.value v)) :
    Building w objects upvalues r s ⟨d.open_, none⟩ { h with holds } := by
  have hsur : Survives h { h with holds } := survives_congr rfl rfl
  refine
    { pictures := hb.pictures.congr ⟨rfl, rfl, rfl, rfl, rfl, rfl, rfl⟩ rfl
      marked := ⟨hb.marked.registered, hb.marked.bare⟩
      rooted := fun link hm => ?_
      open_ := ?_
      nodup := hb.nodup
      ended := nofun }
  · rcases List.mem_append.mp hm with hm | hm
    · obtain ⟨v, hv, rfl⟩ := List.mem_map.mp hm
      exact ⟨(hh v (List.mem_reverse.mp hv)).congr (by rfl) (by rfl), trivial⟩
    · obtain ⟨hv, hd⟩ := hb.rooted link (List.mem_append_right _ hm)
      exact ⟨hv.congr (by rfl) (by rfl), hd⟩
  · refine hb.open_.imp fun l p ⟨hw, o, f, ho, hf, hbody, hs⟩ => ⟨hw, o, f, ho, hf, hbody, ?_⟩
    refine hsur.showsFunction (.refl w) hs fun link hm j hj => ?_
    exact (ShowsFunction.valid hb.pictures.sound.consistent hs link hm).alive hj

theorem delivers_addConstant (hs : s.open_ = l :: ls) {e : Option Prototype}
    (hb : Building w objects upvalues r s ⟨p :: rest, e⟩ h) (hv : h.ShowsConstant w v k) :
    Delivers False (s.roots r) h (addConstant l v) fun _ h' =>
      Building w objects upvalues r s ⟨p.addConstant k :: rest, none⟩ h' ∧
        Carries (h.origins r) h h' := by
  have hvalid := hv.valid hb.pictures.sound.consistent
  have hholds : ∀ u ∈ h.holds, h.Valid (.value u) := fun u hu =>
    (hb.rooted (.value u) (List.mem_append_left _
      (List.mem_map.mpr ⟨u, List.mem_reverse.mpr hu, rfl⟩))).1
  apply delivers_hold_bind
  have hholds₁ : ∀ u ∈ v :: h.holds, h.Valid (.value u) := by
    intro u hu
    rcases List.mem_cons.mp hu with rfl | hu
    · exact hvalid
    · exact hholds u hu
  have hb₁ := hb.setHolds hholds₁
  have hsur : Survives h { h with holds := v :: h.holds } := survives_congr rfl rfl
  have hv₁ := hsur.showsConstant (.refl w) hv fun j hj => hvalid.alive hj
  refine (delivers_pushConstant hs hb₁ hv₁ (.head _)).tryFinally (grows_unhold _) ?_
  rintro _ h₂ ⟨hb₂, hcar⟩
  refine delivers_unhold hcar.holds ?_
  have hsub : ∀ link ∈ h.origins r, link ∈ Heap.origins { h with holds := v :: h.holds } r := by
    intro link hm
    rcases List.mem_append.mp hm with hm | hm
    · refine List.mem_append_left _ ?_
      obtain ⟨u, hu, rfl⟩ := List.mem_map.mp hm
      exact List.mem_map.mpr ⟨u, by simpa using .inl (List.mem_reverse.mp hu), rfl⟩
    · exact List.mem_append_right _ hm
  refine ⟨hb₂.setHolds fun u hu => ?_, ?_⟩
  · have hm : .value u ∈ h₂.origins r := List.mem_append_left _ (List.mem_map.mpr
      ⟨u, by rw [hcar.holds]; simpa using .inl hu, rfl⟩)
    exact (hb₂.rooted _ hm).1
  · exact (hcar.mono hsub).congr rfl rfl rfl rfl rfl hcar.closed hcar.markers

end Constants

end Lox

import Lox.Compile
import Lox.Proofs.Compile.Build
import Lox.Proofs.Heap.Settle

namespace Lox

open Heap HeapM HeapView

namespace Site

theorem delivers_keeping {α : Type} {bad : Prop} {r : Roots} {s : Site} {h : Heap} {act : HeapM α}
    {post : α → Heap → Prop} (hx : Delivers bad (s.roots r) h act post) :
    Delivers bad r h (s.keeping act) post := hx

theorem grows_keeping {α : Type} (s : Site) {act : HeapM α} (hg : Grows act) :
    Grows (s.keeping act) := fun r h => hg (s.roots r) h

theorem inner_bind {α : Type} {s : Site} {l : Loc} {ls : List Loc} (hs : s.open_ = l :: ls)
    (f : Loc → HeapM α) : (do f (← s.inner)) = f l := by
  rw [inner, hs]
  rfl

end Site

variable {w : World} {objects : List (Obj Routine)} {upvalues : List Captured} {r : Roots} {s : Site}
  {d d' : Drafts} {h : Heap}

def Leaves (w : World) (objects : List (Obj Routine)) (upvalues : List Captured) (r : Roots)
    (h : Heap) (d : Drafts) (s : Site) (h' : Heap) : Prop :=
  ∃ w', w.Extends w' ∧ Building w' objects upvalues r s d h' ∧ Carries (h.origins r) h h'

namespace Building

variable (hb : Building w objects upvalues r s d h)

include hb

theorem open_cons {p : Prototype} {rest : List Prototype} (hd : d.open_ = p :: rest) :
    ∃ l ls, s.open_ = l :: ls := by
  have := hb.open_
  rw [hd, List.forall₂_cons_right_iff] at this
  obtain ⟨l, ls, -, -, hs⟩ := this
  exact ⟨l, ls, hs⟩

theorem fresh {l : Loc} (hl : h.objects.size ≤ l) : w l = none := by
  cases hw : w l with
  | none => rfl
  | some t => exact absurd (hb.pictures.placed l t hw) (Nat.not_lt.mpr hl)

theorem delivers_begin : Delivers False r h (Order.begin.carryOut s)
    fun s' h' => Leaves w objects upvalues r h ⟨{} :: d.open_, none⟩ s' h' := by
  have hkind : (Body.function ⟨0, 0, none, .empty⟩).kind ≠ .string := by simp [Body.kind]
  refine Delivers.bind (Site.delivers_keeping (creates_allocate hb.pictures hb.rootedSite hkind
    ?_ ?_ ?_ 168)) (fun _ => grows_pure _) ?_
  · simp [Body.links, Chunk.empty, Growable.toList_empty]
  · simp [Body.links, Chunk.empty, Growable.toList_empty]
  · simp [Body.links, Chunk.empty, Growable.toList_empty]
  · rintro l h' ⟨ht, hfresh, o, ho, hf, hbody⟩
    have hb' := hb.turn ht
    refine delivers_pure ⟨w, .refl w, { hb' with open_ := ?_, nodup := ?_ }, hb.carries ht⟩
    · refine .cons ⟨hb.fresh hfresh, o, _, ho, hf, hbody, ?_⟩ hb'.open_
      exact ⟨rfl, rfl, rfl, by rintro _ ⟨⟩, rfl, rfl, .nil⟩
    · refine List.nodup_cons.mpr ⟨fun hl => ?_, hb.nodup⟩
      obtain ⟨p, hp⟩ := forall₂_alive hb.open_ hl
      exact absurd hp.alive.lt (Nat.not_lt.mpr hfresh)

theorem delivers_craft {α : Type} {act : Loc → HeapM α} {p p' : Prototype} {rest : List Prototype}
    (hd : d.open_ = p :: rest)
    (hx : ∀ l ls, s.open_ = l :: ls → Crafts w objects upvalues r s rest p p' (act l)) :
    Delivers False r h (do
      let l ← s.inner
      let _ ← s.keeping (act l)
      return s) fun s' h' => Leaves w objects upvalues r h ⟨p' :: rest, none⟩ s' h' := by
  obtain ⟨l, ls, hs⟩ := hb.open_cons hd
  rw [Site.inner_bind hs]
  have hb₀ : Building w objects upvalues r s ⟨p :: rest, none⟩ h := hd ▸ hb.forget
  refine Delivers.bind (Site.delivers_keeping ((hx l ls hs).delivers h hb₀))
    (fun _ => grows_pure _) ?_
  rintro _ h' ⟨hb', hcar⟩
  exact delivers_pure ⟨w, .refl w, hb', hcar⟩

theorem delivers_constant {p : Prototype} {rest : List Prototype} (hd : d.open_ = p :: rest)
    {v : Value} {k : Literal} (hv : h.ShowsConstant w v k) : Delivers False r h (s.constant v)
      fun s' h' => Leaves w objects upvalues r h ⟨p.addConstant k :: rest, none⟩ s' h' := by
  obtain ⟨l, ls, hs⟩ := hb.open_cons hd
  rw [Site.constant, Site.inner_bind hs]
  have hb₀ : Building w objects upvalues r s ⟨p :: rest, none⟩ h := hd ▸ hb.forget
  refine Delivers.bind (Site.delivers_keeping (delivers_addConstant hs hb₀ hv))
    (fun _ => grows_pure _) ?_
  rintro _ h' ⟨hb', hcar⟩
  exact delivers_pure ⟨w, .refl w, hb', hcar⟩

theorem delivers_name {p : Prototype} {rest : List Prototype} (hd : d.open_ = p :: rest)
    (chars : Bytes) : Delivers False r h ((Order.name chars).carryOut s)
      fun s' h' => Leaves w objects upvalues r h ⟨{ p with name := some chars } :: rest, none⟩
        s' h' := by
  obtain ⟨l, ls, hs⟩ := hb.open_cons hd
  rw [Order.carryOut, Site.inner_bind hs]
  have hb₀ : Building w objects upvalues r s ⟨p :: rest, none⟩ h := hd ▸ hb.forget
  have hgrow (symbol : Symbol) : Grows (HeapM.modifyFunction l fun f => { f with name := some symbol }) :=
    (keeps_modifyFunction l _).grows
  have hname : Delivers False (s.roots r) h (do
      let symbol ← intern chars
      HeapM.modifyFunction l fun f => { f with name := some symbol }) fun _ h' =>
        Building w objects upvalues r s ⟨{ p with name := some chars } :: rest, none⟩ h' ∧
          Carries (h.origins r) h h' := by
    refine Delivers.bind (turns_intern hb.pictures hb.rootedSite chars) hgrow ?_
    rintro symbol h₁ ⟨ht, rfl, hstr⟩
    have hb₁ := hb₀.turn ht
    refine delivers_modify ⟨hb₁.modify (i := 0) (by rw [hs]; rfl) rfl fun f hf => ?_, ?_⟩
    · exact { hf with
        name := rfl
        named := fun t hn => by
          cases hn
          exact hstr }
    · have hcar := hb₁.carriesModify (l := l) (g := fun f => { f with name := some symbol })
        (.of_same fun _ => rfl)
      have hcar₀ := hb.carries ht
      rw [origins_congr hcar₀.holds hcar₀.markers] at hcar
      exact hcar₀.trans hb.pictures.sound.consistent (fun link hm => (hb.rooted link hm).2) hcar
  refine Delivers.bind (Site.delivers_keeping hname) (fun _ => grows_pure _) ?_
  rintro _ h' ⟨hb', hcar⟩
  exact delivers_pure ⟨w, .refl w, hb', hcar⟩

theorem delivers_patch {p : Prototype} {rest : List Prototype} (hd : d.open_ = p :: rest)
    {offset : Nat} (ho : offset < p.code.length) (b : UInt8) :
    Delivers False r h ((Order.patch offset b).carryOut s)
      fun s' h' => Leaves w objects upvalues r h ⟨{ p with code := p.code.set offset b } :: rest, none⟩
        s' h' := by
  obtain ⟨l, ls, hs⟩ := hb.open_cons hd
  rw [Order.carryOut, Site.inner_bind hs]
  have hb₀ : Building w objects upvalues r s ⟨p :: rest, none⟩ h := hd ▸ hb.forget
  obtain ⟨-, o, f, hobj, -, hbody, hf⟩ := hb₀.inner hs
  have hpatch : Delivers False r h (patchByte l offset b) fun _ h' =>
      Building w objects upvalues r s ⟨{ p with code := p.code.set offset b } :: rest, none⟩ h' ∧
        Carries (h.origins r) h h' := by
    apply delivers_view_bind (functionAt_eq_ok.mpr ⟨o, hobj, hbody⟩)
    rw [if_neg (by rw [← Growable.length_toList, hf.code]; omega)]
    refine delivers_modify ⟨hb₀.modify (i := 0) (by rw [hs]; rfl) rfl fun f hf => ?_,
      hb.carriesModify (.of_same fun _ => rfl)⟩
    exact { hf with
      code := by
        show (f.chunk.code.set offset b).toList = _
        rw [Growable.toList_set, hf.code] }
  refine hpatch.bind (fun _ => grows_pure _) ?_
  rintro _ h' ⟨hb', hcar⟩
  exact delivers_pure ⟨w, .refl w, hb', hcar⟩

theorem delivers_string {p : Prototype} {rest : List Prototype} (hd : d.open_ = p :: rest)
    (chars : Bytes) : Delivers False r h ((Order.string chars).carryOut s)
      fun s' h' => Leaves w objects upvalues r h ⟨p.addConstant (.string chars) :: rest, none⟩
        s' h' := by
  have hrest (v : Value) : Grows (s.constant v) := by
    unfold Site.constant
    refine Grows.bind ?_ fun l => (Site.grows_keeping s (keeps_addConstant l v).grows).bind
      fun _ => grows_pure _
    unfold Site.inner
    split
    · exact grows_pure _
    · exact grows_throw _
  have htext : Delivers False (s.roots r) h (do valueOf (← intern chars).loc) fun v h' =>
      Turns (s.roots r) h h' ∧ h'.ShowsConstant w v (.string chars) := by
    refine Delivers.bind (turns_intern hb.pictures hb.rootedSite chars) (fun _ => grows_view _) ?_
    rintro symbol h₁ ⟨ht, rfl, hstr⟩
    obtain ⟨o, ho, hf, hbody⟩ := id hstr
    refine delivers_view (valueOf_eq ho) ⟨ht, symbol.loc, symbol.hash, ?_, hstr⟩
    exact names_ref ht.sound.consistent ho hf
  refine Delivers.bind (Site.delivers_keeping htext) hrest ?_
  rintro v h₁ ⟨ht, hv⟩
  refine ((hb.turn ht).delivers_constant hd hv).imp ?_
  rintro s' h' ⟨w', hw, hb', hcar⟩
  have hcar₀ := hb.carries ht
  rw [origins_congr hcar₀.holds hcar₀.markers] at hcar
  exact ⟨w', hw, hb', hcar₀.trans hb.pictures.sound.consistent
    (fun link hm => (hb.rooted link hm).2) hcar⟩

theorem delivers_capture {depth : Nat} (hdepth : depth < d.open_.length) :
    Delivers False r h ((Order.capture depth).carryOut s) fun s' h' =>
      Leaves w objects upvalues r h
        ⟨d.open_.modify depth fun p => { p with captures := p.captures + 1 }, none⟩ s' h' := by
  have hlen := hb.open_.length_eq
  obtain ⟨l, hl⟩ : ∃ l, s.open_[depth]? = some l := ⟨_, List.getElem?_eq_getElem (by omega)⟩
  obtain ⟨p, hp⟩ : ∃ p, d.open_[depth]? = some p := ⟨_, List.getElem?_eq_getElem hdepth⟩
  have hshow : ∀ f, h.ShowsFunction w f p → h.ShowsFunction w
      { f with upvalueCount := f.upvalueCount + 1 } { p with captures := p.captures + 1 } :=
    fun f hf => { hf with captures := by simp [hf.captures] }
  have hb' := hb.modify hl hp hshow
  have hset : d.open_.modify depth (fun p => { p with captures := p.captures + 1 }) =
      d.open_.set depth { p with captures := p.captures + 1 } := by
    rw [List.modify_eq_set_getElem?, hp]
    rfl
  simp only [Order.carryOut, hl]
  apply delivers_modify_bind
  exact delivers_pure ⟨w, .refl w, hset ▸ hb', hb.carriesModify (.of_same fun _ => rfl)⟩

theorem delivers_finish {p : Prototype} {rest : List Prototype} (hd : d.open_ = p :: rest) :
    Delivers False r h (Order.finish.carryOut s)
      fun s' h' => Leaves w objects upvalues r h ⟨rest, some p⟩ s' h' := by
  obtain ⟨l, ls, hs⟩ := hb.open_cons hd
  rw [Order.carryOut, Site.inner_bind hs]
  have hb₀ : Building w objects upvalues r s ⟨p :: rest, none⟩ h := hd ▸ hb.forget
  obtain ⟨hw, o, f, ho, hf, hbody, hshow⟩ := hb₀.inner hs
  have hext : w.Extends (w.put l (.function p)) := World.extends_put hw _
  have hsame {f : Function} {p' : Prototype} (hsf : h.ShowsFunction w f p') :
      h.ShowsFunction (w.put l (.function p)) f p' :=
    (survives_congr rfl rfl).showsFunction hext hsf fun link hm j hj =>
      (ShowsFunction.valid hb.pictures.sound.consistent hsf link hm).alive hj
  have hnodup := hb.nodup
  rw [hs, List.nodup_cons] at hnodup
  refine delivers_pure ⟨w.put l (.function p), hext, ?_, .refl fun link hm => (hb.rooted link hm).1⟩
  refine
    { pictures := ?_
      marked := hb.marked
      rooted := hb.rooted
      open_ := ?_
      nodup := by rw [hs]; exact hnodup.2
      ended := ?_ }
  · refine hb.pictures.label hw ho (fun _ _ h => h) (fun _ _ h => h) (by rintro _ ⟨⟩) (by rintro _ ⟨⟩) (Nat.le_refl _)
      (Nat.le_refl _) fun _ => ?_
    rw [hbody]
    exact .function (hsame hshow)
  · have hopen := hb.open_
    rw [hs, hd, List.forall₂_cons] at hopen
    rw [hs]
    refine forall₂_of_mem hopen.2 ?_
    rintro k hk q ⟨hwk, ok, fk, hok, hfk, hbk, hsk⟩
    have hne : k ≠ l := fun he => hnodup.1 (he ▸ hk)
    refine ⟨?_, ok, fk, hok, hfk, hbk, hsame hsk⟩
    rw [World.put, if_neg hne]
    exact hwk
  · intro q hq
    cases hq
    exact ⟨l, rfl, ⟨o, ho, hf⟩, by simp [World.put]⟩

theorem delivers_enclose {p q : Prototype} {rest : List Prototype} (hd : d.open_ = p :: rest)
    (he : d.ended = some q) : Delivers False r h (Order.enclose.carryOut s)
      fun s' h' => Leaves w objects upvalues r h ⟨p.addConstant (.function q) :: rest, none⟩ s' h' := by
  obtain ⟨l, hl, ⟨o, ho, hf⟩, hw⟩ := hb.ended q he
  simp only [Order.carryOut, hl]
  apply delivers_view_bind (valueOf_eq ho)
  exact hb.delivers_constant hd ⟨l, names_ref hb.pictures.sound.consistent ho hf, hw⟩

end Building

theorem Drafts.onInner_eq {f : Prototype → Prototype} (hd : d.onInner f = some d') :
    ∃ p rest, d.open_ = p :: rest ∧ d' = ⟨f p :: rest, none⟩ := by
  unfold Drafts.onInner at hd
  split at hd
  · next p rest ho => exact ⟨p, rest, ho, (Option.some.inj hd).symm⟩
  · cases hd

theorem delivers_carryOut (hb : Building w objects upvalues r s d h) (o : Order)
    (hd : o.draft d = some d') :
    Delivers False r h (o.carryOut s) fun s' h' => Leaves w objects upvalues r h d' s' h' := by
  cases o with
  | begin =>
    cases hd
    exact hb.delivers_begin
  | name chars =>
    obtain ⟨p, rest, ho, rfl⟩ := Drafts.onInner_eq hd
    exact hb.delivers_name ho chars
  | byte b line =>
    obtain ⟨p, rest, ho, rfl⟩ := Drafts.onInner_eq hd
    exact hb.delivers_craft ho fun l ls hs => .writeByte hs b line
  | patch offset b =>
    simp only [Order.draft] at hd
    split at hd
    · next p rest ho =>
      split at hd
      · next hlt =>
        cases hd
        exact hb.delivers_patch ho hlt b
      · cases hd
    · cases hd
  | number v =>
    simp only [Order.draft] at hd
    split at hd
    · next hv =>
      obtain ⟨p, rest, ho, rfl⟩ := Drafts.onInner_eq hd
      exact hb.delivers_constant (k := .number v) ho ⟨rfl, hv⟩
    · cases hd
  | string chars =>
    obtain ⟨p, rest, ho, rfl⟩ := Drafts.onInner_eq hd
    exact hb.delivers_string ho chars
  | enclose =>
    simp only [Order.draft] at hd
    split at hd
    · next q he =>
      obtain ⟨p, rest, ho, rfl⟩ := Drafts.onInner_eq hd
      exact hb.delivers_enclose ho he
    · cases hd
  | parameter =>
    obtain ⟨p, rest, ho, rfl⟩ := Drafts.onInner_eq hd
    refine hb.delivers_craft ho fun l ls hs => .modifyFunction
      (g := fun f => { f with arity := f.arity + 1 }) hs (.of_same fun _ => rfl) fun _ f _ hf => ?_
    exact { hf with arity := by simp [hf.arity] }
  | capture depth =>
    simp only [Order.draft] at hd
    split at hd
    · next hlt =>
      cases hd
      exact hb.delivers_capture hlt
    · cases hd
  | finish =>
    simp only [Order.draft] at hd
    split at hd
    · next p rest ho =>
      cases hd
      exact hb.delivers_finish ho
    · cases hd

theorem Site.grows_inner (s : Site) : Grows s.inner := by
  unfold Site.inner
  split
  · exact grows_pure _
  · exact grows_throw _

theorem Site.grows_constant (s : Site) (v : Value) : Grows (s.constant v) :=
  s.grows_inner.bind fun l => (s.grows_keeping (keeps_addConstant l v).grows).bind
    fun _ => grows_pure _

theorem grows_carryOut (s : Site) (o : Order) : Grows (o.carryOut s) := by
  cases o with
  | begin => exact (s.grows_keeping (grows_allocate _ _)).bind fun _ => grows_pure _
  | name chars =>
    refine s.grows_inner.bind fun l => (s.grows_keeping ?_).bind fun _ => grows_pure _
    exact (grows_intern chars).bind fun _ => (keeps_modifyFunction l _).grows
  | byte b line =>
    exact s.grows_inner.bind fun l => (s.grows_keeping (keeps_writeByte l b line).grows).bind
      fun _ => grows_pure _
  | patch offset b =>
    exact s.grows_inner.bind fun l => (keeps_patchByte l offset b).grows.bind fun _ => grows_pure _
  | number v => exact s.grows_constant v
  | string chars =>
    refine (s.grows_keeping ?_).bind fun v => s.grows_constant v
    exact (grows_intern chars).bind fun _ => grows_view _
  | enclose =>
    simp only [Order.carryOut]
    split
    · exact (grows_view _).bind fun v => s.grows_constant v
    · exact grows_throw _
  | parameter =>
    exact s.grows_inner.bind fun l => (keeps_modifyFunction l _).grows.bind fun _ => grows_pure _
  | capture depth =>
    simp only [Order.carryOut]
    split
    · exact (keeps_modifyFunction _ _).grows.bind fun _ => grows_pure _
    · exact grows_throw _
  | finish => exact s.grows_inner.bind fun l => grows_pure _

theorem grows_carryOutAll (s : Site) (os : List Order) : Grows (Order.carryOutAll s os) := by
  induction os generalizing s with
  | nil => exact grows_pure s
  | cons o os ih => exact (grows_carryOut s o).bind ih

theorem delivers_carryOutAll (hb : Building w objects upvalues r s d h) (os : List Order)
    (hd : Order.draftAll d os = some d') :
    Delivers False r h (Order.carryOutAll s os) fun s' h' =>
      Leaves w objects upvalues r h d' s' h' := by
  induction os generalizing w s d h with
  | nil =>
    cases hd
    exact delivers_pure ⟨w, .refl w, hb, .refl fun link hm => (hb.rooted link hm).1⟩
  | cons o os ih =>
    rw [Order.draftAll_cons] at hd
    obtain ⟨d₁, hd₁, hd⟩ := Option.bind_eq_some_iff.mp hd
    refine (delivers_carryOut hb o hd₁).bind (fun s' => grows_carryOutAll s' os) ?_
    rintro s₁ h₁ ⟨w₁, hw₁, hb₁, hcar₁⟩
    refine (ih hb₁ hd).imp ?_
    rintro s₂ h₂ ⟨w₂, hw₂, hb₂, hcar₂⟩
    rw [origins_congr hcar₁.holds hcar₁.markers] at hcar₂
    exact ⟨w₂, hw₁.trans hw₂, hb₂, hcar₁.trans hb.pictures.sound.consistent
      (fun link hm => (hb.rooted link hm).2) hcar₂⟩

theorem grows_build (orders : List Order) : Grows (build orders) :=
  grows_rooting _ fun k => (grows_carryOutAll _ _).withRoots k []

theorem grows_compile (source : Bytes) : Grows (compile source) := by
  unfold compile
  generalize analyze source = result
  refine (grows_build _).bind fun s => ?_
  cases s.ended with
  | none => exact grows_throw _
  | some l => exact grows_pure _

def Answers (w : World) (h : Heap) (p : Prototype) (diagnostics : List Diagnostic) :
    Except (List Diagnostic) Loc → Prop
  | .ok l => diagnostics = [] ∧ h.Alive l ∧ w l = some (.function p)
  | .error ds => diagnostics ≠ [] ∧ ds = diagnostics

theorem delivers_build (hp : Pictures w objects upvalues h) (hr : h.Rooted r) {orders : List Order}
    (hd : Order.draftAll {} orders = some d) : Delivers False r h (build orders) fun s h' => ∃ w', w.Extends w' ∧
      Pictures w' objects upvalues h' ∧ h'.Rooted r ∧ Carries (h.origins r) h h' ∧
        ∀ p, d.ended = some p → ∃ l, s.ended = some l ∧ h'.Alive l ∧ w' l = some (.function p) := by
  refine delivers_rooting RootMarker.numbers_compiler fun k hk => ?_
  have hjoin (h₀ : Heap) (hm : h₀.markers = h.markers) {link : Link} :
      link ∈ origins { h₀ with markers := h.markers ++ [k] } (standing r k []) ↔ link ∈ h₀.origins r := by
    have horigins : link ∈ origins { h₀ with markers := h₀.markers ++ [k] } (standing r k []) ↔
        link ∈ [] ∨ link ∈ h₀.origins r := mem_origins_joined (hm ▸ hk)
    rw [hm] at horigins
    rw [horigins, List.mem_nil_iff, false_or]
  have hb : Building w objects upvalues (standing r k []) { marker := k } {} { h with markers := h.markers ++ [k] } :=
    { pictures := hp.congr ⟨rfl, rfl, rfl, rfl, rfl, rfl, rfl⟩ rfl
      marked := ⟨List.mem_append_right _ (List.mem_singleton.mpr rfl), if_pos rfl⟩
      rooted := fun link hm =>
        have ⟨hv, hd⟩ := hr link ((hjoin h rfl).mp hm)
        ⟨hv.congr (by rfl) (by rfl), hd⟩
      open_ := .nil
      nodup := List.nodup_nil
      ended := nofun }
  refine Delivers.imp (delivers_carryOutAll hb orders hd) ?_
  rintro s h' ⟨w', hw, hb', hcar⟩
  have horigins : h'.origins (standing r k []) =
      origins { h' with markers := h.markers ++ [k] } (standing r k []) := by
    rw [Heap.origins, Heap.origins, registered, registered, hcar.markers]
  refine ⟨hcar.markers, w', hw, hb'.pictures.congr ⟨rfl, rfl, rfl, rfl, rfl, rfl, rfl⟩ rfl, fun link hm => ?_, ?_,
    fun p hp => ?_⟩
  · obtain ⟨hv, hd⟩ := hb'.rooted link (horigins ▸ (hjoin { h' with markers := h.markers } rfl).mpr hm)
    exact ⟨hv.congr (by rfl) (by rfl), hd⟩
  · exact (hcar.mono fun link => (hjoin h rfl).mpr).congr rfl rfl rfl rfl hcar.holds hcar.closed rfl
  · obtain ⟨l, hl, ha, hwl⟩ := hb'.ended p hp
    exact ⟨l, hl, ha.congr rfl, hwl⟩

theorem delivers_compile (hp : Pictures w objects upvalues h) (hr : h.Rooted r) {source : Bytes}
    {p : Prototype} (hd : Order.draftAll {} (analyze source).1 = some ⟨[], some p⟩) :
    Delivers False r h (compile source) fun answer h' => ∃ w', w.Extends w' ∧
      Pictures w' objects upvalues h' ∧ h'.Rooted r ∧ Carries (h.origins r) h h' ∧
        Answers w' h' p (analyze source).2 answer := by
  unfold compile
  generalize analyze source = result at hd
  obtain ⟨orders, diagnostics⟩ := result
  refine (delivers_build hp hr hd).bind (fun s => ?_) ?_
  · cases s.ended with
    | none => exact grows_throw _
    | some l => exact grows_pure _
  · rintro s h' ⟨w', hw, hp', hr', hcar, hended⟩
    obtain ⟨l, hl, ha, hwl⟩ := hended p rfl
    simp only [hl]
    refine delivers_pure ⟨w', hw, hp', hr', hcar, ?_⟩
    cases diagnostics with
    | nil => exact ⟨rfl, ha, hwl⟩
    | cons e es => exact ⟨nofun, rfl⟩

end Lox

namespace Lox

open Heap HeapM HeapView

variable {α : Type} {r : Roots} {s : Site} {h h' : Heap}

theorem Heap.Books.mono {r' : Roots} {delta : Int} (hr : ∀ link ∈ h.registered r, link ∈ h.registered r')
    (hb : Books r' delta h h') : Books r delta h h' where
  closed := hb.closed
  markers := hb.markers
  surplus := hb.surplus
  counted := hb.counted
  alive l hp := by
    obtain ⟨link, hm, hl⟩ := hp.link
    exact hb.alive l ⟨hp.open_, hp.alive, link, hr link hm, hl⟩
  handles := hb.handles
  consistent := hb.consistent

namespace Site

structure Stands (s : Site) (r : Roots) (h : Heap) : Prop where
  open_ : h.closed = false
  marked : Marked s.marker r h
  alive : ∀ l ∈ s.open_, h.Alive l

theorem Stands.pinned (hst : s.Stands r h) {l : Loc} (hl : l ∈ s.open_) : h.Pinned (s.roots r) l := by
  refine ⟨hst.open_, hst.alive l hl, .object l, ?_, trivial, .object l⟩
  exact (mem_registered_standing hst.marked.registered).mpr (.inl (List.mem_map_of_mem hl))

theorem Stands.books {delta : Int} (hst : s.Stands r h) (hb : Books (s.roots r) delta h h') : Books r delta h h' :=
  hb.mono fun _ => hst.marked.mem_registered

theorem Stands.next (hst : s.Stands r h) (hb : Books (s.roots r) 0 h h') {ls : List Loc} (hls : ∀ l ∈ ls, h'.Alive l) :
    Stands { s with open_ := ls } r h' :=
  ⟨hb.closed.trans hst.open_, ⟨by rw [hb.markers]; exact hst.marked.registered, hst.marked.bare⟩, hls⟩

def Settled (r : Roots) (h : Heap) (s : Site) (h' : Heap) : Prop :=
  h'.Sound ∧ Books r 0 h h' ∧ s.Stands r h'

theorem delivers_settled (hst : s.Stands r h) {act : HeapM α} (hx : Settles (s.roots r) h act) :
    Delivers True r h (s.keeping act) fun _ h' => s.Settled r h h' := by
  refine delivers_keeping (Delivers.imp hx ?_)
  rintro _ h' ⟨hs', hb⟩
  exact ⟨hs', hst.books hb, hst.next hb fun l hl => hb.alive l (hst.pinned hl)⟩

theorem settled_inner (hst : s.Stands r h) {act : Loc → HeapM α}
    (hx : ∀ l ∈ s.open_, Settles (s.roots r) h (act l)) :
    Delivers True r h (do
      let l ← s.inner
      let _ ← s.keeping (act l)
      return s) fun s' h' => s'.Settled r h h' := by
  cases hopen : s.open_ with
  | nil =>
    rw [Site.inner, hopen]
    exact .inr trivial
  | cons l ls =>
    rw [inner_bind hopen]
    have hl : l ∈ s.open_ := by simp [hopen]
    exact (delivers_settled hst (hx l hl)).bind (fun _ => grows_pure _) fun _ _ hp => delivers_pure hp

theorem settled_constant (hs : h.Sound) (hst : s.Stands r h) (v : Value) :
    Delivers True r h (s.constant v) fun s' h' => s'.Settled r h h' :=
  settled_inner hst fun _ hl => settles_addConstant hs (hst.pinned hl) v

theorem keeping_patchByte (s : Site) (l : Loc) (offset : Nat) (b : UInt8) :
    s.keeping (patchByte l offset b) = patchByte l offset b := by
  funext r h
  simp only [keeping, withRoots, patchByte, run_bind, run_view]
  cases functionAt l h with
  | error e => rfl
  | ok f =>
    dsimp only
    split <;> rfl

theorem Settled.trans {s s' : Site} {h'' : Heap} (hs : h.Sound) (h₁ : s.Settled r h h')
    (h₂ : s'.Settled r h' h'') : s'.Settled r h h'' := by
  refine ⟨h₂.1, ?_, h₂.2.2⟩
  have hb := h₁.2.1.trans hs.consistent h₂.2.1
  rwa [Int.add_zero] at hb

end Site

open Site

theorem settled_begin (hs : h.Sound) (hst : s.Stands r h) :
    Delivers True r h (Order.begin.carryOut s) fun s' h' => s'.Settled r h h' := by
  have hnew : Delivers True (s.roots r) h newFunction fun l h' =>
      (h'.Sound ∧ Books (s.roots r) 0 h h') ∧ h'.Alive l := by
    refine Delivers.and (settles_newFunction hs) ?_
    refine (delivers_allocate hs.consistent (fun _ => trivial) _ _).imp ?_
    rintro l h' ⟨h₁, -, rfl, rfl, -⟩
    exact (alive_link _ _ _).mpr (.inr rfl)
  refine (delivers_keeping hnew).bind (fun _ => grows_pure _) ?_
  rintro l h' ⟨⟨hs', hb⟩, hl⟩
  refine delivers_pure ⟨hs', hst.books hb, hst.next hb fun k hk => ?_⟩
  rcases List.mem_cons.mp hk with rfl | hk
  · exact hl
  · exact hb.alive k (hst.pinned hk)

theorem settled_carryOut (hs : h.Sound) (hst : s.Stands r h) (o : Order) :
    Delivers True r h (o.carryOut s) fun s' h' => s'.Settled r h h' := by
  have hrefl : s.Settled r h h := ⟨hs, .refl hs.consistent, hst⟩
  cases o with
  | begin => exact settled_begin hs hst
  | name chars =>
    refine settled_inner hst fun l _ => (settles_intern hs chars).bind hs
      (fun _ => (keeps_modifyFunction l _).grows) fun symbol h' hs' _ => ?_
    exact settles_modifyFunction hs' l fun _ => rfl
  | byte b line => exact settled_inner hst fun l hl => settles_writeByte hs (hst.pinned hl) b line
  | patch offset b =>
    have hx := settled_inner (r := r) hst fun l _ => settles_patchByte hs l offset b
    simp only [keeping_patchByte] at hx
    exact hx
  | number v => exact settled_constant hs hst v
  | string chars =>
    have htext : Settles (s.roots r) h (do valueOf (← intern chars).loc) :=
      (settles_intern hs chars).bind hs (fun _ => grows_view _) fun _ _ hs' _ => settles_view hs' _
    refine (delivers_settled hst htext).bind (fun v => s.grows_constant v) fun v h₁ h₁' => ?_
    exact (settled_constant h₁'.1 h₁'.2.2 v).imp fun _ _ h₂ => h₁'.trans hs h₂
  | enclose =>
    simp only [Order.carryOut]
    cases s.ended with
    | none => exact .inr trivial
    | some l =>
      have hvalue : Delivers True r h (valueOf l) fun _ h' => s.Settled r h h' :=
        delivers_settled hst (settles_view hs (valueOf l))
      refine hvalue.bind (fun v => s.grows_constant v) fun v h₁ h₁' => ?_
      exact (settled_constant h₁'.1 h₁'.2.2 v).imp fun _ _ h₂ => h₁'.trans hs h₂
  | parameter =>
    exact settled_inner hst fun l _ =>
      settles_modifyFunction (g := fun f => { f with arity := f.arity + 1 }) hs l fun _ => rfl
  | capture depth =>
    simp only [Order.carryOut]
    cases s.open_[depth]? with
    | none => exact .inr trivial
    | some l =>
      have hupd : Settles (s.roots r) h (HeapM.modifyFunction l fun f =>
          { f with upvalueCount := f.upvalueCount + 1 }) :=
        settles_modifyFunction hs l fun _ => rfl
      exact (delivers_settled hst hupd).bind (fun _ => grows_pure _) fun _ _ hp => delivers_pure hp
  | finish =>
    cases hopen : s.open_ with
    | nil =>
      rw [Order.carryOut, Site.inner, hopen]
      exact .inr trivial
    | cons l ls =>
      rw [Order.carryOut, inner_bind hopen]
      refine delivers_pure ⟨hs, .refl hs.consistent, hst.open_, hst.marked, fun k hk => hst.alive k ?_⟩
      exact List.mem_of_mem_tail hk

theorem settled_carryOutAll (hs : h.Sound) (hst : s.Stands r h) (os : List Order) :
    Delivers True r h (Order.carryOutAll s os) fun s' h' => s'.Settled r h h' := by
  induction os generalizing s h with
  | nil => exact delivers_pure ⟨hs, .refl hs.consistent, hst⟩
  | cons o os ih =>
    refine (settled_carryOut hs hst o).bind (fun s' => grows_carryOutAll s' os) fun s₁ h₁ h₁' => ?_
    exact (ih h₁'.1 h₁'.2.2).imp fun _ _ h₂ => h₁'.trans hs h₂

theorem settles_build (hs : h.Sound) (hopen : h.closed = false) (orders : List Order) :
    Settles r h (build orders) := by
  refine delivers_rooting RootMarker.numbers_compiler fun k hk => ?_
  have hs₁ : Sound { h with markers := h.markers ++ [k] } := hs.congr ⟨rfl, rfl, rfl, rfl, rfl, rfl, rfl⟩
  have hst : Stands { marker := k } (standing r k []) { h with markers := h.markers ++ [k] } :=
    ⟨hopen, ⟨List.mem_append_right _ (List.mem_singleton.mpr rfl), if_pos rfl⟩, nofun⟩
  refine Delivers.imp (settled_carryOutAll hs₁ hst orders) ?_
  rintro s h' ⟨hs', hb, -⟩
  exact ⟨hb.markers, hs'.congr ⟨rfl, rfl, rfl, rfl, rfl, rfl, rfl⟩, hb.unjoined hk⟩

theorem settles_compile (hs : h.Sound) (hopen : h.closed = false) (source : Bytes) :
    Settles r h (compile source) := by
  unfold compile
  generalize analyze source = result
  refine Delivers.bind (settles_build hs hopen result.1) (fun s => ?_) ?_
  · cases s.ended with
    | none => exact grows_throw _
    | some l => exact grows_pure _
  · rintro s h' ⟨hs', hb⟩
    cases s.ended with
    | none => exact .inr trivial
    | some l => exact delivers_pure ⟨hs', hb⟩

end Lox

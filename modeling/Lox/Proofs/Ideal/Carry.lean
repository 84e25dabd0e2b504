import Lox.Proofs.Ideal.World

namespace Lox

namespace Heap

variable {h h' h'' : Heap} {w w' : World} {objects objects' : List (Obj Routine)}
  {upvalues upvalues' : List Captured} {roots roots' : List Link}

namespace Survives

variable (hc : Survives h h')

include hc

theorem namesOf {v : Value} {l : Loc} (hn : h.Names v l) (ha : h'.Alive l) : h'.Names v l := by
  obtain ⟨ref, rfl, hf⟩ := hn
  exact ⟨ref, rfl, hc.names ref l hf ha⟩

theorem leads {link : Link} {l : Loc} (hd : IsDirect link) (hl : h.Leads link l) (ha : h'.Alive l) :
    h'.Leads link l := by
  cases hl with
  | value ho hf => exact .value ho (hc.names _ l hf ha)
  | object l => exact .object l
  | fields => exact absurd hd id

theorem shows (hw : w.Extends w') {v : Value} {x : Val} (hs : h.Shows w v x)
    (ha : ∀ l, h.Leads (.value v) l → h'.Alive l) : h'.Shows w' v x := by
  cases x with
  | nil => exact hs
  | bool b => exact hs
  | number bits => exact hs
  | string chars =>
    obtain ⟨l, hash, hn, hstr⟩ := hs
    have hl := ha l hn.leads
    exact ⟨l, hash, hc.namesOf hn hl, hc.strings l chars hash hstr hl⟩
  | object a =>
    obtain ⟨l, hn, ht⟩ := hs
    exact ⟨l, hc.namesOf hn (ha l hn.leads), hw l _ ht⟩

theorem showsConstant (hw : w.Extends w') {v : Value} {k : Literal} (hs : h.ShowsConstant w v k)
    (ha : ∀ l, h.Leads (.value v) l → h'.Alive l) : h'.ShowsConstant w' v k := by
  cases k with
  | number u => exact hs
  | string chars =>
    obtain ⟨l, hash, hn, hstr⟩ := hs
    have hl := ha l hn.leads
    exact ⟨l, hash, hc.namesOf hn hl, hc.strings l chars hash hstr hl⟩
  | function p =>
    obtain ⟨l, hn, ht⟩ := hs
    exact ⟨l, hc.namesOf hn (ha l hn.leads), hw l _ ht⟩

theorem showsTable (hw : w.Extends w') {t : Table} {d : Dict Val} (hs : h.ShowsTable w t d)
    (ha : ∀ link ∈ t.links, ∀ l, h.Leads link l → h'.Alive l) : h'.ShowsTable w' t d where
  sound := hs.sound
  blank := hs.blank
  keys k v hb := hc.strings _ _ _ (hs.keys k v hb)
    (ha _ (Table.mem_links_of_binds hb).1 _ (.object _))
  values k v hb := by
    obtain ⟨x, hx, hsh⟩ := hs.values k v hb
    exact ⟨x, hx, hc.shows hw hsh (ha _ (Table.mem_links_of_binds hb).2)⟩
  total := hs.total

theorem forall₂_showsConstant (hw : w.Extends w') {vs : List Value} {ks : List Literal}
    (hs : List.Forall₂ (h.ShowsConstant w) vs ks)
    (ha : ∀ v ∈ vs, ∀ l, h.Leads (.value v) l → h'.Alive l) :
    List.Forall₂ (h'.ShowsConstant w') vs ks := by
  induction hs with
  | nil => exact .nil
  | cons hv _ ih =>
    refine .cons (hc.showsConstant hw hv (ha _ (.head _))) (ih fun v hm => ha v (.tail _ hm))

theorem showsFunction (hw : w.Extends w') {f : Function} {p : Prototype}
    (hs : h.ShowsFunction w f p)
    (ha : ∀ link ∈ (Body.function f).links, ∀ l, h.Leads link l → h'.Alive l) :
    h'.ShowsFunction w' f p :=
  { hs with
    named := fun s hn => by
      refine hc.strings _ _ _ (hs.named s hn) (ha (.object s.loc) ?_ _ (.object _))
      simp [Body.links, hn]
    constants := by
      refine hc.forall₂_showsConstant hw hs.constants fun v hm => ha (.value v) ?_
      exact List.mem_append.mpr (.inr (List.mem_map.mpr ⟨v, hm, rfl⟩)) }

end Survives

theorem survives_congr (ho : h'.objects = h.objects) (hs : h'.slots = h.slots) : Survives h h' where
  shrunk _ _ ha := ha.congr ho.symm
  size := Nat.le_of_eq (congrArg Array.size ho.symm)
  names ref l hf _ := by
    unfold find? at hf ⊢
    rwa [hs]
  strings l chars hash hstr _ := by
    obtain ⟨o, hobj, hf, hb⟩ := hstr
    exact ⟨o, by rw [ho]; exact hobj, hf, hb⟩

namespace Carries

variable (hc : Carries roots h h')

include hc

theorem valid {link : Link} (hm : link ∈ roots) (hd : IsDirect link) (hv : h.Valid link) :
    h'.Valid link := by
  cases hv with
  | plain hn => exact .plain hn
  | value ho hf _ =>
    have ha := hc.alive _ hm _ (.value ho hf)
    exact .value ho (hc.names _ _ hf ha) ha
  | object => exact .object (hc.alive _ hm _ (.object _))
  | fields => exact absurd hd id

theorem mono (hsub : ∀ link ∈ roots', link ∈ roots) : Carries roots' h h' :=
  { hc with alive := fun link hm => hc.alive link (hsub link hm) }

theorem trans (hcon : h.Consistent) (hd : ∀ link ∈ roots, IsDirect link)
    (hc' : Carries roots h' h'') : Carries roots h h'' where
  shrunk l hl ha := hc.shrunk l hl (hc'.shrunk l (Nat.lt_of_lt_of_le hl hc.size) ha)
  size := Nat.le_trans hc.size hc'.size
  names ref l hf ha := by
    have hl : l < h.objects.size := Names.alive ⟨ref, rfl, hf⟩ hcon |>.lt
    exact hc'.names ref l (hc.names ref l hf (hc'.shrunk l (Nat.lt_of_lt_of_le hl hc.size) ha)) ha
  strings l chars hash hs ha :=
    hc'.strings l chars hash (hc.strings l chars hash hs
      (hc'.shrunk l (Nat.lt_of_lt_of_le hs.alive.lt hc.size) ha)) ha
  alive link hm l hl :=
    hc'.alive link hm l (hc.leads (hd link hm) hl (hc.alive link hm l hl))
  canonical hw := hc'.canonical (hc.canonical hw)
  holds := hc'.holds.trans hc.holds
  closed := hc'.closed.trans hc.closed
  markers := hc'.markers.trans hc.markers

theorem congr {h₁ h₂ : Heap} (ho : h₁.objects = h.objects) (hs : h₁.slots = h.slots) (ho' : h₂.objects = h'.objects)
    (hs' : h₂.slots = h'.slots) (hh : h₂.holds = h₁.holds) (hcl : h₂.closed = h₁.closed)
    (hmk : h₂.markers = h₁.markers) : Carries roots h₁ h₂ where
  shrunk l hl ha := (hc.shrunk l (ho ▸ hl) (ha.congr ho'.symm)).congr ho
  size := by
    rw [ho, ho']
    exact hc.size
  names ref l hf ha := by
    unfold find? at hf ⊢
    rw [hs] at hf
    rw [hs']
    exact hc.names ref l hf (ha.congr ho'.symm)
  strings l chars hash := by
    rw [IsString, IsString, ho, ho']
    exact fun hstr ha => hc.strings l chars hash hstr (ha.congr ho'.symm)
  alive link hm l hl := (hc.alive link hm l (hl.congr ho.symm hs.symm)).congr ho'
  canonical hw := (hc.canonical (hw.congr ho.symm)).congr ho'
  holds := hh
  closed := hcl
  markers := hmk

end Carries

theorem forall₂_showsCapture (hw : w.Extends w') {ls : List (Option Loc)} {us : List (Option Nat)}
    (hs : List.Forall₂ (ShowsCapture w) ls us) : List.Forall₂ (ShowsCapture w') ls us := by
  refine hs.imp fun l u hl => ?_
  cases l <;> cases u
  · trivial
  · exact hl
  · exact hl
  · exact hw _ _ hl

theorem Depicts.carry (hc : Survives h h') (hw : w.Extends w') {body : Body} {t : Thing}
    (hd : h.Depicts w objects upvalues body t)
    (ho : ∀ a x, t = .object a → objects[a]? = some x → objects'[a]? = some x)
    (hu : ∀ u x, t = .upvalue u → upvalues[u]? = some x → upvalues'[u]? = some x)
    (ha : ∀ link ∈ body.links, ∀ l, h.Leads link l → h'.Alive l) :
    h'.Depicts w' objects' upvalues' body t := by
  cases hd with
  | function hf => exact .function (hc.showsFunction hw hf ha)
  | closure hobj hfun hcap =>
    exact .closure (ho _ _ rfl hobj) (hw _ _ hfun) (forall₂_showsCapture hw hcap)
  | native hobj => exact .native (ho _ _ rfl hobj)
  | class_ hobj hname htable =>
    refine .class_ (ho _ _ rfl hobj) (hc.strings _ _ _ hname (ha _ (.head _) _ (.object _)))
      (hc.showsTable hw htable fun link hm => ha link (.tail _ hm))
  | instance_ hobj hclass htable =>
    exact .instance_ (ho _ _ rfl hobj) (hw _ _ hclass)
      (hc.showsTable hw htable fun link hm => ha link (.tail _ hm))
  | bound hobj hrec hmeth =>
    exact .bound (ho _ _ rfl hobj) (hc.shows hw hrec (ha _ (.head _))) (hw _ _ hmeth)
  | slot hup => exact .slot (hu _ _ rfl hup)
  | closed hup hv => exact .closed (hu _ _ rfl hup) (hc.shows hw hv (ha _ (.head _)))

theorem Evolves.carries (he : h.Evolves roots h') (hcon : h.Consistent)
    (hv : ∀ link ∈ roots, h.Valid link) (hh : h'.holds = h.holds) : Carries roots h h' where
  shrunk l hl ha := by
    obtain ⟨o, ho, hf⟩ := ha
    exact ⟨o, he.shrunk l o hl ho hf, hf⟩
  size := he.size
  names ref l hf ha := he.find?_of_alive hcon hf ha
  strings l chars hash hs ha := by
    obtain ⟨o, ho, hf, hb⟩ := hs
    exact ⟨o, he.object_of_alive ho ha, hf, hb⟩
  alive link hm l hl := he.alive_of_reach (.root hm hl) ((hv link hm).alive hl)
  canonical := he.canonical
  holds := hh
  closed := he.closed
  markers := he.markers

theorem Pictures.evolve (hp : Pictures w objects upvalues h) (he : h.Evolves roots h')
    (hs : h'.Sound) (hv : ∀ link ∈ roots, h.Valid link) (hh : h'.holds = h.holds) :
    Pictures w objects upvalues h' :=
  { hp with
    sound := hs
    linked := he.linked hp.linked
    depicts := fun l o t ho hf hw => by
      have hlt := hp.placed l t hw
      have ho₀ := he.shrunk l o hlt ho hf
      refine (hp.depicts l o t ho₀ hf hw).carry (he.carries hp.sound.consistent hv hh).toSurvives (.refl w)
        (fun _ _ _ h => h) (fun _ _ _ h => h) fun link hm k hk => ?_
      have hm' : link ∈ h.linksAt l := by simpa only [linksAt, ho₀] using hm
      exact he.follows l link k hlt ⟨o, ho, hf⟩ hm' hk
        ((hp.linked l ⟨o, ho₀, hf⟩ link hm').alive hk)
    placed := fun l t hw => Nat.lt_of_lt_of_le (hp.placed l t hw) he.size
    closed := he.closed.trans hp.closed }

theorem Carries.refl (hv : ∀ link ∈ roots, h.Valid link) : Carries roots h h where
  shrunk _ _ ha := ha
  size := Nat.le_refl _
  names _ _ hf _ := hf
  strings _ _ _ hs _ := hs
  alive link hm _ hl := (hv link hm).alive hl
  canonical hw := hw
  holds := rfl
  closed := rfl
  markers := rfl

theorem Pictures.congr (hp : Pictures w objects upvalues h) (hs : h.SameStore h')
    (hc : h'.closed = h.closed) : Pictures w objects upvalues h' :=
  { hp with
    sound := hp.sound.congr hs
    linked := hp.linked.congr hs.objects hs.slots
    depicts := fun l o t ho hf hw => by
      rw [hs.objects] at ho
      refine (hp.depicts l o t ho hf hw).carry (survives_congr hs.objects hs.slots) (.refl w)
        (fun _ _ _ h => h) (fun _ _ _ h => h) fun link hm k hk => ?_
      have hm' : link ∈ h.linksAt l := by simpa only [linksAt, ho] using hm
      exact ((hp.linked l ⟨o, ho, hf⟩ link hm').alive hk).congr hs.objects
    placed := fun l t hw => hs.objects ▸ hp.placed l t hw
    closed := hc.trans hp.closed }

theorem Pictures.label (hp : Pictures w objects upvalues h) {l : Loc} {o : Object} {t : Thing}
    (hw : w l = none) (ho : h.objects[l]? = some o)
    (hobj : ∀ (a : Nat) x, objects[a]? = some x → objects'[a]? = some x)
    (hup : ∀ (u : Nat) x, upvalues[u]? = some x → upvalues'[u]? = some x)
    (ha : ∀ a, t = .object a → a = objects.length ∧ a < objects'.length)
    (hu : ∀ u, t = .upvalue u → u = upvalues.length ∧ u < upvalues'.length)
    (hlen : objects.length ≤ objects'.length) (hlen' : upvalues.length ≤ upvalues'.length)
    (hd : o.freed = false → h.Depicts (w.put l t) objects' upvalues' o.body t) :
    Pictures (w.put l t) objects' upvalues' h where
  sound := hp.sound
  linked := hp.linked
  depicts k p s hk hf hs := by
    unfold World.put at hs
    split at hs
    · next he =>
      subst he
      rw [hk] at ho
      cases ho
      cases hs
      exact hd hf
    · refine (hp.depicts k p s hk hf hs).carry (survives_congr rfl rfl) (World.extends_put hw t)
        (fun a x _ => hobj a x) (fun u x _ => hup u x) fun link hm j hj => ?_
      exact (hp.linked k ⟨p, hk, hf⟩ link (by simpa only [linksAt, hk] using hm)).alive hj
  placed k s hs := by
    unfold World.put at hs
    split at hs
    · next he =>
      subst he
      exact (Array.getElem?_eq_some_iff.mp ho).1
    · exact hp.placed k s hs
  object_lt k a hk := by
    unfold World.put at hk
    split at hk
    · exact (ha a (Option.some.inj hk)).2
    · exact Nat.lt_of_lt_of_le (hp.object_lt k a hk) hlen
  upvalue_lt k u hk := by
    unfold World.put at hk
    split at hk
    · exact (hu u (Option.some.inj hk)).2
    · exact Nat.lt_of_lt_of_le (hp.upvalue_lt k u hk) hlen'
  object_inj k j a hk hj := by
    unfold World.put at hk hj
    split at hk <;> split at hj
    · next h₁ h₂ => exact h₁.trans h₂.symm
    · exact absurd (ha a (Option.some.inj hk)).1 (Nat.ne_of_lt (hp.object_lt j a hj))
    · exact absurd (ha a (Option.some.inj hj)).1 (Nat.ne_of_lt (hp.object_lt k a hk))
    · exact hp.object_inj k j a hk hj
  upvalue_inj k j u hk hj := by
    unfold World.put at hk hj
    split at hk <;> split at hj
    · next h₁ h₂ => exact h₁.trans h₂.symm
    · exact absurd (hu u (Option.some.inj hk)).1 (Nat.ne_of_lt (hp.upvalue_lt j u hj))
    · exact absurd (hu u (Option.some.inj hj)).1 (Nat.ne_of_lt (hp.upvalue_lt k u hk))
    · exact hp.upvalue_inj k j u hk hj
  closed := hp.closed

theorem size_updateBody (l : Loc) (f : Body → Body) :
    (h.updateBody l f).objects.size = h.objects.size :=
  Array.size_modify

theorem survives_updateBody {l : Loc} {f : Body → Body} (hf : KeepsStrings f) :
    Survives h (h.updateBody l f) where
  shrunk k _ ha := (alive_updateBody l k f).mp ha
  size := Nat.le_of_eq (size_updateBody l f).symm
  names _ _ hr _ := hr
  strings _ _ _ hs _ := (isString_updateBody hf).mpr hs

theorem canonical_updateBody {l : Loc} {f : Body → Body} (hw : h.AllCanonical)
    (hnew : ∀ o, h.objects[l]? = some o → o.freed = false →
      ∀ v, .value v ∈ (f o.body).links → v.IsCanonical) : (h.updateBody l f).AllCanonical := by
  intro k hk v hm
  obtain ⟨o, ho, hfree⟩ := (alive_updateBody l k f).mp hk
  rw [linksAt, objects_updateBody, ho] at hm
  by_cases he : k = l
  · subst he
    simp only [Option.map_some, ↓reduceIte] at hm
    exact hnew o ho hfree v hm
  · simp only [Option.map_some, he, ↓reduceIte] at hm
    exact hw k ⟨o, ho, hfree⟩ v (by simpa only [linksAt, ho] using hm)

def AddsCanonical (f : Body → Body) : Prop :=
  ∀ b v, .value v ∈ (f b).links → .value v ∈ b.links ∨ v.IsCanonical

theorem AddsCanonical.canonical {f : Body → Body} (hf : AddsCanonical f) {l : Loc} (hw : h.AllCanonical) :
    (h.updateBody l f).AllCanonical := by
  apply canonical_updateBody hw
  intro o ho hfree v hm
  rcases hf o.body v hm with hm | hv
  · exact hw l ⟨o, ho, hfree⟩ v (by simpa only [linksAt, ho] using hm)
  · exact hv

theorem carries_updateBody {l : Loc} {f : Body → Body} (hf : KeepsStrings f)
    (hwords : h.AllCanonical → (h.updateBody l f).AllCanonical)
    (hv : ∀ link ∈ roots, h.Valid link) : Carries roots h (h.updateBody l f) where
  toSurvives := survives_updateBody hf
  canonical := hwords
  alive link hm k hk := (alive_updateBody l k f).mpr ((hv link hm).alive hk)
  holds := rfl
  closed := rfl
  markers := rfl

theorem valid_updateBody {l : Loc} {f : Body → Body} {link : Link} (hd : IsDirect link)
    (hv : h.Valid link) : (h.updateBody l f).Valid link := by
  cases hv with
  | plain hn => exact .plain hn
  | value ho hfind ha => exact .value ho hfind ((alive_updateBody l _ f).mpr ha)
  | object ha => exact .object ((alive_updateBody l _ f).mpr ha)
  | fields => exact absurd hd id

theorem linked_updateBody {l : Loc} {f : Body → Body} (hl : h.Linked)
    (hnew : ∀ o, h.objects[l]? = some o → o.freed = false →
      ∀ link ∈ (f o.body).links, h.Valid link) : (h.updateBody l f).Linked := by
  intro k hk link hm
  have hd := mem_linksAt_direct hm
  apply valid_updateBody hd
  obtain ⟨o, ho, hfree⟩ := (alive_updateBody l k f).mp hk
  rw [linksAt, objects_updateBody, ho] at hm
  by_cases he : k = l
  · subst he
    simp only [Option.map_some, ↓reduceIte] at hm
    exact hnew o ho hfree link hm
  · simp only [Option.map_some, he, ↓reduceIte] at hm
    exact hl k ⟨o, ho, hfree⟩ link (by simpa only [linksAt, ho] using hm)

theorem Pictures.update (hp : Pictures w objects upvalues h) {l : Loc} {f : Body → Body}
    (hf : KeepsStrings f)
    (hnew : ∀ o, h.objects[l]? = some o → o.freed = false →
      ∀ link ∈ (f o.body).links, h.Valid link)
    (hobj : ∀ k a, k ≠ l → w k = some (.object a) → objects'[a]? = objects[a]?)
    (hup : ∀ k u, k ≠ l → w k = some (.upvalue u) → upvalues'[u]? = upvalues[u]?)
    (hlen : objects'.length = objects.length) (hlen' : upvalues'.length = upvalues.length)
    (hd : ∀ o t, h.objects[l]? = some o → o.freed = false → w l = some t →
      h.Depicts w objects upvalues o.body t →
      (h.updateBody l f).Depicts w objects' upvalues' (f o.body) t) :
    Pictures w objects' upvalues' (h.updateBody l f) where
  sound := hp.sound.updateBody l hf
  linked := linked_updateBody hp.linked hnew
  depicts k o t ho hfree hw := by
    rw [objects_updateBody] at ho
    obtain ⟨p, hk, rfl⟩ := Option.map_eq_some_iff.mp ho
    by_cases he : k = l
    · subst he
      simp only [↓reduceIte] at hfree ⊢
      exact hd p t hk hfree hw (hp.depicts k p t hk hfree hw)
    · simp only [he, ↓reduceIte] at hfree ⊢
      refine (hp.depicts k p t hk hfree hw).carry (survives_updateBody hf) (.refl w) ?_ ?_ fun link hm j hj => ?_
      · rintro a x rfl hx
        rw [hobj k a he hw, hx]
      · rintro u x rfl hx
        rw [hup k u he hw, hx]
      · exact (alive_updateBody l j f).mpr ((hp.linked k ⟨p, hk, hfree⟩ link
          (by simpa only [linksAt, hk] using hm)).alive hj)
  placed k t hk := by rw [size_updateBody]; exact hp.placed k t hk
  object_lt k a hk := hlen ▸ hp.object_lt k a hk
  upvalue_lt k u hk := hlen' ▸ hp.upvalue_lt k u hk
  object_inj := hp.object_inj
  upvalue_inj := hp.upvalue_inj
  closed := hp.closed

end Heap

end Lox

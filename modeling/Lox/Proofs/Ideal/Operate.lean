import Lox.Proofs.Ideal.Carry

namespace Lox

namespace Heap

variable {h h' h'' : Heap} {w w' : World} {objects objects' : List (Obj Routine)}
  {upvalues upvalues' : List Captured} {r : Roots}

/-- Every root names a live object or none. -/
def Rooted (r : Roots) (h : Heap) : Prop :=
  ∀ link ∈ h.origins r, h.Valid link ∧ IsDirect link

structure Safe (r : Roots) (h : Heap) (link : Link) : Prop where
  valid : h.Valid link
  reach : ∀ k, h.Leads link k → h.Reach (h.origins r) k

theorem Rooted.safe (hr : h.Rooted r) {link : Link} (hm : link ∈ h.origins r) : h.Safe r link :=
  ⟨(hr link hm).1, fun _ hk => .root hm hk⟩

structure Turns (r : Roots) (h h' : Heap) : Prop where
  evolves : h.Evolves (h.origins r) h'
  holds : h'.holds = h.holds
  sound : h'.Sound

theorem Pictures.intact (hp : Pictures w objects upvalues h) (hr : h.Rooted r) :
    h.Intact (h.origins r) :=
  hp.linked.intact fun link hm => (hr link hm).1

theorem Pictures.not_trouble (hp : Pictures w objects upvalues h) (hr : h.Rooted r) :
    ¬ h.Trouble r := by
  rintro (hc | hi | ⟨link, hm, hd⟩)
  · rw [hp.closed] at hc
    cases hc
  · exact hi (hp.intact hr)
  · exact hd (hr link hm).2

namespace Turns

variable (ht : Turns r h h') (hp : Pictures w objects upvalues h) (hr : h.Rooted r)

include ht

theorem origins : h'.origins r = h.origins r :=
  origins_congr ht.holds ht.evolves.markers

include hp hr

theorem carries : Carries (h.origins r) h h' :=
  ht.evolves.carries hp.sound.consistent (fun link hm => (hr link hm).1) ht.holds

theorem pictures : Pictures w objects upvalues h' :=
  hp.evolve ht.evolves ht.sound (fun link hm => (hr link hm).1) ht.holds

theorem rooted : h'.Rooted r := by
  intro link hm
  rw [ht.origins] at hm
  obtain ⟨hv, hd⟩ := hr link hm
  exact ⟨(ht.carries hp hr).valid hm hd hv, hd⟩

theorem reach {l : Loc} (hl : h.Reach (h.origins r) l) : h'.Reach (h'.origins r) l := by
  rw [ht.origins]
  exact ht.evolves.reach hp.sound.consistent (fun link hm => (hr link hm).2) (hp.intact hr) hl

theorem alive {l : Loc} (hl : h.Reach (h.origins r) l) : h'.Alive l :=
  ht.evolves.alive_of_reach hl ((hp.intact hr).alive hl)

theorem object {l : Loc} {o : Object} (hl : h.Reach (h.origins r) l) (ho : h.objects[l]? = some o) :
    h'.objects[l]? = some o :=
  ht.evolves.object_of_alive ho (ht.alive hp hr hl)

theorem safe {link : Link} (hd : IsDirect link) (hs : h.Safe r link) : h'.Safe r link where
  valid := ht.evolves.valid hp.sound.consistent hd hs.valid fun l hl =>
    ht.alive hp hr (hs.reach l hl)
  reach k hk := ht.reach hp hr (hs.reach k (ht.evolves.leads_of_leads hp.sound.consistent hd hs.valid
    (fun l hl => ht.alive hp hr (hs.reach l hl)) hk))

theorem shows {v : Value} {x : Val} (hs : h.Safe r (.value v)) (hx : h.Shows w v x) :
    h'.Shows w v x :=
  (ht.carries hp hr).shows (.refl w) hx fun l hl => ht.alive hp hr (hs.reach l hl)

theorem isString {l : Loc} {chars : Bytes} {hash : UInt32} (hl : h.Reach (h.origins r) l)
    (hs : h.IsString l chars hash) : h'.IsString l chars hash :=
  (ht.carries hp hr).strings l chars hash hs (ht.alive hp hr hl)

theorem trans (ht' : Turns r h' h'') : Turns r h h'' where
  evolves := ht.evolves.trans hp.sound.consistent (fun link hm => (hr link hm).2) (hp.intact hr)
    (ht.origins ▸ ht'.evolves)
  holds := ht'.holds.trans ht.holds
  sound := ht'.sound

end Turns

theorem Charged.turns (hp : Pictures w objects upvalues h) (hch : h.Charged (h.origins r) h') :
    Turns r h h' :=
  ⟨hch.evolves hp.sound.consistent, hch.holds, hch.sound hp.sound⟩

theorem Shows.valid (hc : h.Consistent) {v : Value} {x : Val} (hs : h.Shows w v x) :
    h.Valid (.value v) := by
  have named {l : Loc} (hn : h.Names v l) : h.Valid (.value v) :=
    .value hn.isObject hn.find? (hn.alive hc)
  cases x with
  | nil => exact .plain (by rw [show v = .nil from hs]; rfl)
  | bool b =>
    refine .plain ?_
    rw [show v = .ofBool b from hs]
    cases b <;> rfl
  | number bits => exact .plain (hs.2.isObject)
  | string chars =>
    obtain ⟨l, hash, hn, -⟩ := hs
    exact named hn
  | object a =>
    obtain ⟨l, hn, -⟩ := hs
    exact named hn

theorem Names.canonical {v : Value} {l : Loc} (hn : h.Names v l) : v.IsCanonical := by
  obtain ⟨ref, rfl, -⟩ := hn
  exact .object ref

theorem Shows.canonical {v : Value} {x : Val} (hs : h.Shows w v x) : v.IsCanonical := by
  cases x with
  | nil =>
    rw [show v = .nil from hs]
    exact .nil
  | bool b =>
    rw [show v = .ofBool b from hs]
    exact .bool b
  | number bits => exact hs.2.isCanonical
  | string chars =>
    obtain ⟨l, hash, hn, -⟩ := hs
    exact hn.canonical
  | object a =>
    obtain ⟨l, hn, -⟩ := hs
    exact hn.canonical

theorem ShowsConstant.valid (hc : h.Consistent) {v : Value} {k : Literal}
    (hs : h.ShowsConstant w v k) : h.Valid (.value v) := by
  cases k with
  | number u => exact .plain hs.2.isObject
  | string chars =>
    obtain ⟨l, hash, hn, -⟩ := hs
    exact .value hn.isObject hn.find? (hn.alive hc)
  | function p =>
    obtain ⟨l, hn, -⟩ := hs
    exact .value hn.isObject hn.find? (hn.alive hc)

theorem ShowsConstant.canonical {v : Value} {k : Literal} (hs : h.ShowsConstant w v k) :
    v.IsCanonical := by
  cases k with
  | number u => exact hs.2.isCanonical
  | string chars =>
    obtain ⟨l, hash, hn, -⟩ := hs
    exact hn.canonical
  | function p =>
    obtain ⟨l, hn, -⟩ := hs
    exact hn.canonical

theorem Sound.symbol_eq (hs : h.Sound) {s s' : Symbol} (h₁ : h.IsString s.loc s.chars s.hash)
    (h₂ : h.IsString s'.loc s'.chars s'.hash) (hc : s.chars = s'.chars) : s = s' := by
  obtain ⟨loc, chars, hash⟩ := s
  obtain ⟨loc', chars', hash'⟩ := s'
  simp only at h₁ h₂ hc
  subst hc
  have hloc := hs.strings.unique loc loc' chars hash hash' h₁ h₂
  have hh := hs.strings.hashed loc chars hash h₁
  have hh' := hs.strings.hashed loc' chars hash' h₂
  rw [hloc, hh, hh']

theorem showsTable_empty : h.ShowsTable w .empty .empty where
  sound := Table.sound_empty
  blank := Table.blank_empty
  keys k v hb := absurd hb (Table.not_binds_empty k v)
  values k v hb := absurd hb (Table.not_binds_empty k v)
  total := nofun

namespace ShowsTable

variable {t : Table} {d : Dict Val} (hs : h.ShowsTable w t d)

include hs

theorem valid (hc : h.Consistent) : ∀ link ∈ t.links, h.Valid link := by
  intro link hm
  rcases Table.cases_of_mem_links hs.blank hm with ⟨k, v, hb, rfl | rfl⟩ | ⟨v, rfl, hn⟩
  · exact .object (hs.keys k v hb).alive
  · obtain ⟨x, -, hx⟩ := hs.values k v hb
    exact hx.valid hc
  · exact .plain (by rcases hn with rfl | rfl <;> rfl)

theorem canonical {v : Value} (hm : .value v ∈ t.links) : v.IsCanonical := by
  rcases Table.cases_of_mem_links hs.blank hm with ⟨k, u, hb, hv | hv⟩ | ⟨u, hv, hn⟩
  · cases hv
  · cases hv
    obtain ⟨x, -, hx⟩ := hs.values k v hb
    exact hx.canonical
  · cases hv
    rcases hn with rfl | rfl
    · exact .nil
    · exact .bool true

theorem agrees {key : Symbol} (hk : h.IsString key.loc key.chars key.hash) :
    Table.Agrees t.entries key :=
  hk.agrees hs.keys

theorem get?_eq (hsound : h.Sound) {key : Symbol} (hk : h.IsString key.loc key.chars key.hash) :
    match d key.chars with
    | some x => ∃ v, t.get? key = some v ∧ h.Shows w v x ∧ t.Binds key v
    | none => t.get? key = none := by
  have hget := fun v => Table.get?_eq_some_iff hs.sound (hs.agrees hk) (v := v)
  cases hd : d key.chars with
  | some x =>
    obtain ⟨k, v, hb, hc⟩ := hs.total _ _ hd
    obtain rfl := hsound.symbol_eq (hs.keys k v hb) hk hc
    obtain ⟨x', hx', hsh⟩ := hs.values k v hb
    rw [hd] at hx'
    cases hx'
    exact ⟨v, (hget v).mpr hb, hsh, hb⟩
  | none =>
    rw [Table.get?_eq_none_iff hs.sound (hs.agrees hk)]
    intro v hb
    obtain ⟨x, hx, -⟩ := hs.values key v hb
    rw [hd] at hx
    cases hx

theorem insert (hsound : h.Sound) {key : Symbol} (hk : h.IsString key.loc key.chars key.hash)
    (hcrowd : t.isCrowded = false) {v : Value} {x : Val} (hv : h.Shows w v x) :
    h.ShowsTable w (t.insert key v).2 (d.set key.chars x) := by
  have hb := fun k u => Table.binds_insert hs.sound (hs.agrees hk) hcrowd v k u
  refine
    { sound := hs.sound.insert v (hs.agrees hk) hcrowd
      blank := hs.blank.insert key v
      keys := fun k u hku => ?_
      values := fun k u hku => ?_
      total := fun name y hy => ?_ }
  · rcases (hb k u).mp hku with ⟨rfl, rfl⟩ | ⟨-, hku⟩
    · exact hk
    · exact hs.keys k u hku
  · rcases (hb k u).mp hku with ⟨rfl, rfl⟩ | ⟨hne, hku⟩
    · exact ⟨x, by simp [Dict.set], hv⟩
    · obtain ⟨y, hy, hsh⟩ := hs.values k u hku
      refine ⟨y, ?_, hsh⟩
      rw [Dict.set, if_neg, hy]
      intro hc
      exact hne (congrArg Symbol.loc (hsound.symbol_eq (hs.keys k u hku) hk hc))
  · unfold Dict.set at hy
    split at hy
    · next he => exact ⟨key, v, (hb key v).mpr (.inl ⟨rfl, rfl⟩), he.symm⟩
    · next hne =>
      obtain ⟨k, u, hku, hc⟩ := hs.total name y hy
      refine ⟨k, u, (hb k u).mpr (.inr ⟨fun hloc => hne ?_, hku⟩), hc⟩
      have hkk := hs.agrees hk
      obtain ⟨i, hi⟩ := hku
      rw [← hc, hkk i k (by rw [hi]) hloc]

theorem insert_fst (hsound : h.Sound) {key : Symbol} (hk : h.IsString key.loc key.chars key.hash)
    (hcrowd : t.isCrowded = false) (v : Value) : (t.insert key v).1 = (d key.chars).isNone := by
  rw [Bool.eq_iff_iff, Table.insert_fst hs.sound (hs.agrees hk) hcrowd v,
    ← Table.get?_eq_none_iff hs.sound (hs.agrees hk), Option.isNone_iff_eq_none]
  have hget := hs.get?_eq hsound hk
  cases hd : d key.chars with
  | none =>
    rw [hd] at hget
    simpa using hget
  | some x =>
    rw [hd] at hget
    obtain ⟨v, hv, -⟩ := hget
    simp [hv]

theorem growTo : h.ShowsTable w (t.growTo (nextCapacity t.capacity)) d where
  sound := hs.sound.growTo
  blank := Table.blank_growTo t _
  keys k v hb := hs.keys k v ((hs.sound.binds_growTo k v).mp hb)
  values k v hb := hs.values k v ((hs.sound.binds_growTo k v).mp hb)
  total name x hx := by
    obtain ⟨k, v, hb, hc⟩ := hs.total name x hx
    exact ⟨k, v, (hs.sound.binds_growTo k v).mpr hb, hc⟩

theorem delete_insert (hsound : h.Sound) {key : Symbol}
    (hk : h.IsString key.loc key.chars key.hash) (hcrowd : t.isCrowded = false)
    (hd : d key.chars = none) {v : Value} {x : Val} (hv : h.Shows w v x) :
    h.ShowsTable w ((t.insert key v).2.delete key).2 d := by
  have hs' := hs.insert hsound hk hcrowd hv
  obtain ⟨hsound', hbinds⟩ := Table.delete_spec hs'.sound (hs'.agrees hk)
  have hb := fun k u => Table.binds_insert hs.sound (hs.agrees hk) hcrowd v k u
  have hnew : ∀ u, ¬ t.Binds key u := by
    intro u hu
    obtain ⟨y, hy, -⟩ := hs.values key u hu
    rw [hd] at hy
    cases hy
  have hkept {k : Symbol} {u : Value} :
      ((t.insert key v).2.delete key).2.Binds k u ↔ t.Binds k u := by
    rw [hbinds, hb]
    constructor
    · rintro ⟨hne, ⟨rfl, -⟩ | ⟨-, hku⟩⟩
      · exact absurd rfl hne
      · exact hku
    · intro hku
      have hne : k.loc ≠ key.loc := by
        intro hl
        obtain ⟨i, hi⟩ := hku
        obtain rfl := hs.agrees hk i k (by rw [hi]) hl
        exact hnew u ⟨i, hi⟩
      exact ⟨hne, .inr ⟨hne, hku⟩⟩
  exact
    { sound := hsound'
      blank := hs'.blank.delete key
      keys := fun k u hku => hs.keys k u (hkept.mp hku)
      values := fun k u hku => hs.values k u (hkept.mp hku)
      total := fun name y hy => by
        obtain ⟨k, u, hku, hc⟩ := hs.total name y hy
        exact ⟨k, u, hkept.mpr hku, hc⟩ }

end ShowsTable

theorem links_mapTable {f : Table → Table} {b : Body} {t : Table} (ht : tableIn b = some t)
    {link : Link} (hm : link ∈ (mapTable f b).links) : link ∈ b.links ∨ link ∈ (f t).links := by
  cases b with
  | class_ c =>
    cases ht
    rcases List.mem_cons.mp hm with rfl | hm
    · exact .inl (.head _)
    · exact .inr hm
  | instance_ i =>
    cases ht
    rcases List.mem_cons.mp hm with rfl | hm
    · exact .inl (.head _)
    · exact .inr hm
  | _ => cases ht

inductive HasDict : Obj Routine → Dict Val → Prop where
  | class_ (name : Bytes) (methods : Dict Nat) : HasDict (.class_ name methods) (asValues methods)
  | instance_ (k : Nat) (fields : Dict Val) : HasDict (.instance_ k fields) fields

inductive Redefined : Obj Routine → Obj Routine → Prop where
  | class_ (name : Bytes) (methods methods' : Dict Nat) :
      Redefined (.class_ name methods) (.class_ name methods')
  | instance_ (k : Nat) (fields fields' : Dict Val) :
      Redefined (.instance_ k fields) (.instance_ k fields')

theorem Depicts.showsTable {body : Body} {a : Nat} {x : Obj Routine} {d : Dict Val}
    (hd : h.Depicts w objects upvalues body (.object a)) (hx : objects[a]? = some x)
    (hdict : HasDict x d) : ∃ t, tableIn body = some t ∧ h.ShowsTable w t d := by
  cases hd with
  | closure ho => rw [hx] at ho; cases ho; cases hdict
  | native ho => rw [hx] at ho; cases ho; cases hdict
  | class_ ho _ ht => rw [hx] at ho; cases ho; cases hdict; exact ⟨_, rfl, ht⟩
  | instance_ ho _ ht => rw [hx] at ho; cases ho; cases hdict; exact ⟨_, rfl, ht⟩
  | bound ho => rw [hx] at ho; cases ho; cases hdict

theorem Depicts.mapTable {f : Table → Table} {body : Body} {a : Nat} {x x' : Obj Routine} {t : Table}
    {d' : Dict Val} (hd : h.Depicts w objects upvalues body (.object a)) (hx : objects[a]? = some x)
    (hx' : objects'[a]? = some x') (hre : Redefined x x') (hdict : HasDict x' d')
    (ht : tableIn body = some t) (hnew : h.ShowsTable w (f t) d') :
    h.Depicts w objects' upvalues (mapTable f body) (.object a) := by
  cases hd with
  | closure ho => rw [hx] at ho; cases ho; cases hre
  | native ho => rw [hx] at ho; cases ho; cases hre
  | @class_ c _ _ ho hname _ =>
    rw [hx] at ho
    cases ho
    cases hre
    cases hdict
    cases ht
    exact .class_ hx' hname hnew
  | @instance_ i _ _ _ ho hclass _ =>
    rw [hx] at ho
    cases ho
    cases hre
    cases hdict
    cases ht
    exact .instance_ hx' hclass hnew
  | bound ho => rw [hx] at ho; cases ho; cases hre

theorem canonical_mapTable {l : Loc} {o : Object} {t : Table} {f : Table → Table} {d : Dict Val}
    (ho : h.objects[l]? = some o) (hf : o.freed = false) (ht : tableIn o.body = some t)
    (hnew : h.ShowsTable w (f t) d) (hw : h.AllCanonical) : (h.updateBody l (mapTable f)).AllCanonical := by
  apply canonical_updateBody hw
  intro p hp _ v hm
  rw [ho] at hp
  cases hp
  rcases links_mapTable ht hm with hm | hm
  · exact hw l ⟨o, ho, hf⟩ v (by simpa only [linksAt, ho] using hm)
  · exact hnew.canonical hm

theorem Pictures.retable (hp : Pictures w objects upvalues h) {l : Loc} {o : Object} {a : Nat}
    {x x' : Obj Routine} {t : Table} {f : Table → Table} {d' : Dict Val}
    (ho : h.objects[l]? = some o) (hf : o.freed = false) (hw : w l = some (.object a))
    (hx : objects[a]? = some x) (hre : Redefined x x') (hdict : HasDict x' d')
    (ht : tableIn o.body = some t) (hnew : h.ShowsTable w (f t) d') :
    Pictures w (objects.set a x') upvalues (h.updateBody l (mapTable f)) := by
  have hlt := hp.object_lt l a hw
  have hsur : Survives h (h.updateBody l (Heap.mapTable f)) :=
    survives_updateBody (keepsStrings_mapTable f)
  refine hp.update (keepsStrings_mapTable f) ?_ ?_ (fun _ _ _ _ => rfl) (by simp) rfl ?_
  · intro p hp' _ link hm
    rw [ho] at hp'
    cases hp'
    rcases links_mapTable ht hm with hm | hm
    · exact hp.linked l ⟨o, ho, hf⟩ link (by simpa only [linksAt, ho] using hm)
    · exact hnew.valid hp.sound.consistent link hm
  · intro k b hk hb
    have hne : a ≠ b := fun he => hk (hp.object_inj k l a (he ▸ hb) hw)
    rw [List.getElem?_set_ne hne]
  · intro p s hp' _ hs hd
    rw [ho] at hp'
    cases hp'
    rw [hw] at hs
    cases hs
    have hx' : (objects.set a x')[a]? = some x' := by
      rw [List.getElem?_set_self hlt]
    refine (hd.mapTable hx hx' hre hdict ht hnew).carry hsur (.refl w) (fun _ _ _ h => h)
      (fun _ _ _ h => h) fun link hm k hk => ?_
    have hv : h.Valid link := by
      rcases links_mapTable ht hm with hm | hm
      · exact hp.linked l ⟨o, ho, hf⟩ link (by simpa only [linksAt, ho] using hm)
      · exact hnew.valid hp.sound.consistent link hm
    exact (alive_updateBody l k _).mpr (hv.alive hk)

end Heap

end Lox

import Lox.Proofs.Ideal.Operate

namespace Lox

namespace Heap

variable {h h' h'' : Heap} {w w' : World} {objects objects' : List (Obj Routine)}
  {upvalues upvalues' : List Captured} {r : Roots}

def Anchored (r : Roots) (h : Heap) (l : Loc) : Prop :=
  ∃ link ∈ h.origins r, h.Leads link l

theorem Anchored.reach {l : Loc} (ha : h.Anchored r l) : h.Reach (h.origins r) l := by
  obtain ⟨link, hm, hl⟩ := ha
  exact .root hm hl

structure Writes (r : Roots) (l : Loc) (h h' : Heap) : Prop where
  carries : Carries (h.origins r) h h'
  kept : ∀ k o, k ≠ l → h.Reach (h.origins r) k → h.objects[k]? = some o → h'.objects[k]? = some o

namespace Writes

variable {l : Loc} (hw : Writes r l h h')

include hw

theorem origins : h'.origins r = h.origins r :=
  origins_congr hw.carries.holds hw.carries.markers

theorem rooted (hr : h.Rooted r) : h'.Rooted r := by
  intro link hm
  rw [hw.origins] at hm
  obtain ⟨hv, hd⟩ := hr link hm
  exact ⟨hw.carries.valid hm hd hv, hd⟩

theorem anchored (hr : h.Rooted r) {k : Loc} (hk : h.Anchored r k) : h'.Anchored r k := by
  obtain ⟨link, hm, hl⟩ := hk
  exact ⟨link, hw.origins ▸ hm, hw.carries.leads (hr link hm).2 hl (hw.carries.alive link hm k hl)⟩

end Writes

theorem writes_updateBody {l : Loc} {f : Body → Body} (hf : KeepsStrings f)
    (hwords : h.AllCanonical → (h.updateBody l f).AllCanonical) (hr : h.Rooted r) :
    Writes r l h (h.updateBody l f) := by
  refine ⟨carries_updateBody hf hwords fun link hm => (hr link hm).1, fun k o hk _ ho => ?_⟩
  rw [objects_updateBody, ho]
  simp [hk]

theorem Writes.updateBody {l : Loc} {f : Body → Body} (hw : Writes r l h h')
    (hf : KeepsStrings f) (hwords : h'.AllCanonical → (h'.updateBody l f).AllCanonical) :
    Writes r l h (h'.updateBody l f) where
  carries :=
    { hw.carries with
      canonical := fun h => hwords (hw.carries.canonical h)
      shrunk := fun k hk ha => hw.carries.shrunk k hk ((alive_updateBody l k f).mp ha)
      size := by rw [size_updateBody]; exact hw.carries.size
      names := fun ref k hk ha => hw.carries.names ref k hk ((alive_updateBody l k f).mp ha)
      strings := fun k chars hash hk ha => (isString_updateBody hf).mpr
        (hw.carries.strings k chars hash hk ((alive_updateBody l k f).mp ha))
      alive := fun link hm k hk => (alive_updateBody l k f).mpr (hw.carries.alive link hm k hk) }
  kept k o hk hreach ho := by
    rw [objects_updateBody, hw.kept k o hk hreach ho]
    simp [hk]

theorem Writes.after {l : Loc} (ht : Turns r h h') (hp : Pictures w objects upvalues h)
    (hr : h.Rooted r) (hw : Writes r l h' h'') : Writes r l h h'' where
  carries := (ht.carries hp hr).trans hp.sound.consistent (fun link hm => (hr link hm).2)
    (ht.origins ▸ hw.carries)
  kept k o hk hreach ho := hw.kept k o hk (ht.reach hp hr hreach) (ht.object hp hr hreach ho)

end Heap

namespace HeapM

open Heap HeapView

variable {h h' : Heap} {w : World} {objects : List (Obj Routine)} {upvalues : List Captured}
  {r : Roots} (hp : Pictures w objects upvalues h) (hr : h.Rooted r)

include hp hr

theorem turns_account (delta : Int) : Delivers False r h (account delta) fun _ h' => Turns r h h' :=
  (delivers_account hp.sound.consistent (hp.not_trouble hr) delta).imp fun _ _ hch => hch.turns hp

theorem turns_intern (chars : Bytes) : Delivers False r h (intern chars) fun s h' =>
    Turns r h h' ∧ s.chars = chars ∧ h'.IsString s.loc s.chars s.hash :=
  (delivers_intern hp.sound (hp.not_trouble hr) chars).imp fun _ _ hi =>
    ⟨⟨hi.evolves id, hi.holds, hi.sound⟩, hi.chars, hi.isString⟩

theorem turns_collect : Delivers False r h collect fun _ h' => Turns r h h' := by
  obtain ⟨c, h', hrun, hcol⟩ := collect_ok r hp.sound.consistent (hp.intact hr)
  unfold Delivers
  rw [hrun]
  exact .inr ((hcol.charged (hp.intact hr)).turns hp)

structure Creates (r : Roots) (h : Heap) (body : Body) (l : Loc) (h' : Heap) : Prop where
  turns : Turns r h h'
  fresh : h.objects.size ≤ l
  object : ∃ o, h'.objects[l]? = some o ∧ o.freed = false ∧ o.body = body

theorem creates_allocate {body : Body} (hb : body.kind ≠ .string)
    (hlinks : ∀ link ∈ body.links, h.Safe r link) (hd : ∀ link ∈ body.links, IsDirect link)
    (hwords : ∀ v, .value v ∈ body.links → v.IsCanonical) (size : Nat) :
    Delivers False r h (allocate body size) (Creates r h body) := by
  refine (delivers_allocate hp.sound.consistent (hp.not_trouble hr) body size).imp fun l h' ha => ?_
  obtain ⟨h₁, hch, rfl, rfl, hroom⟩ := ha
  have ht := hch.turns hp
  have he : h₁.Evolves (h₁.origins r) (h₁.link body size).2 := evolves_link hch.consistent
    (fun link hm => (ht.safe hp hr (hd link hm) (hlinks link hm)).valid) hwords size hroom
  refine ⟨ht.trans hp hr ⟨he, holds_link body size, (hch.sound hp.sound).link body size hb hroom⟩,
    Nat.le_of_eq hch.size.symm, _, (find?_link body size hch.consistent hroom).1, rfl, rfl⟩

def HasTable (h : Heap) (l : Loc) (t : Table) : Prop :=
  ∃ o, h.objects[l]? = some o ∧ tableIn o.body = some t

omit hp hr in
theorem HasTable.functional {l : Loc} {t t' : Table} (ht : HasTable h l t) (ht' : HasTable h l t') :
    t = t' := by
  obtain ⟨o, ho, hb⟩ := ht
  obtain ⟨o', ho', hb'⟩ := ht'
  rw [ho] at ho'
  cases ho'
  rw [hb] at hb'
  exact Option.some.inj hb'

omit hp hr in
theorem hasTable_mapTable {l : Loc} {t : Table} (f : Table → Table) (ht : HasTable h l t) :
    HasTable (h.updateBody l (mapTable f)) l (f t) := by
  obtain ⟨o, ho, hb⟩ := ht
  obtain ⟨o', ho', -, hb'⟩ := objects_mapTable f ho hb
  exact ⟨o', ho', hb'⟩

/-- An object with a table, and what it stands for. -/
structure Tabled (w : World) (objects : List (Obj Routine)) (h : Heap) (l : Loc) (a : Nat)
    (x : Obj Routine) (d : Dict Val) (t : Table) : Prop where
  place : w l = some (.object a)
  object : objects[a]? = some x
  dict : HasDict x d
  table : ∃ o, h.objects[l]? = some o ∧ o.freed = false ∧ tableIn o.body = some t
  shows : h.ShowsTable w t d

omit hr in
theorem tabled {l : Loc} {a : Nat} {x : Obj Routine} {d : Dict Val} (hl : h.Alive l)
    (hw : w l = some (.object a)) (hx : objects[a]? = some x) (hd : HasDict x d) :
    ∃ t, Tabled w objects h l a x d t := by
  obtain ⟨o, ho, hf⟩ := hl
  obtain ⟨t, ht, hs⟩ := (hp.depicts l o _ ho hf hw).showsTable hx hd
  exact ⟨t, hw, hx, hd, ⟨o, ho, hf, ht⟩, hs⟩

structure Binding (w : World) (r : Roots) (h : Heap) (key : Symbol) (v : Value) (y : Val) : Prop where
  isString : h.IsString key.loc key.chars key.hash
  reach : h.Reach (h.origins r) key.loc
  shows : h.Shows w v y
  safe : h.Safe r (.value v)

theorem Binding.turns {key : Symbol} {v : Value} {y : Val} (hb : Binding w r h key v y)
    (ht : Turns r h h') : Binding w r h' key v y where
  isString := ht.isString hp hr hb.reach hb.isString
  reach := ht.reach hp hr hb.reach
  shows := ht.shows hp hr hb.safe hb.shows
  safe := ht.safe hp hr trivial hb.safe

omit hp hr in
theorem redefined_refl {x : Obj Routine} {d : Dict Val} (hd : HasDict x d) : Redefined x x := by
  cases hd
  · exact .class_ ..
  · exact .instance_ ..

omit hr in
theorem delivers_insertEntry {l : Loc} {a : Nat} {x x' : Obj Routine} {d : Dict Val} {t : Table}
    (htab : Tabled w objects h l a x d t) (hcrowd : t.isCrowded = false) {key : Symbol} {v : Value}
    {y : Val} (hk : h.IsString key.loc key.chars key.hash) (hv : h.Shows w v y)
    (hre : Redefined x x') (hd' : HasDict x' (d.set key.chars y)) :
    Delivers False r h (do
      let (isNew, t) := (← tableOf l).insert key v
      modifyTable l fun _ => t
      return isNew) fun isNew h' => isNew = (d key.chars).isNone ∧
        (∃ t', h' = h.updateBody l (mapTable fun _ => t') ∧ t'.entries.size = t.entries.size) ∧
        (h.AllCanonical → h'.AllCanonical) ∧ Pictures w (objects.set a x') upvalues h' := by
  obtain ⟨o, ho, hf, ht⟩ := htab.table
  have hfst := htab.shows.insert_fst hp.sound hk hcrowd v
  have hins := htab.shows.insert hp.sound hk hcrowd hv
  have hsize : (t.insert key v).2.entries.size = t.entries.size := by
    rw [Table.insert_entries, Table.place, Array.size_setIfInBounds]
  apply delivers_view_bind (tableOf_eq ho ht)
  generalize t.insert key v = e at hfst hins hsize
  obtain ⟨isNew, t'⟩ := e
  apply delivers_modify_bind
  refine delivers_pure ⟨hfst, ⟨t', rfl, hsize⟩, canonical_mapTable (f := fun _ => t') ho hf ht hins, ?_⟩
  exact hp.retable (f := fun _ => t') ho hf htab.place htab.object hre hd' ht hins

theorem delivers_setEntry {l : Loc} {a : Nat} {x x' : Obj Routine} {d : Dict Val} {key : Symbol}
    {v : Value} {y : Val} (hl : h.Reach (h.origins r) l) (hw : w l = some (.object a))
    (hx : objects[a]? = some x) (hd : HasDict x d) (hb : Binding w r h key v y)
    (hre : Redefined x x') (hd' : HasDict x' (d.set key.chars y)) :
    Delivers False r h (setEntry l key v) fun isNew h' => isNew = (d key.chars).isNone ∧
      Writes r l h h' ∧ Pictures w (objects.set a x') upvalues h' ∧
      ∃ t', HasTable h' l t' ∧ ∀ t, HasTable h l t → t.entries.size ≤ t'.entries.size := by
  obtain ⟨t, htab⟩ := tabled hp ((hp.intact hr).alive hl) hw hx hd
  obtain ⟨o, ho, hf, ht⟩ := htab.table
  apply delivers_view_bind (tableOf_eq ho ht)
  cases hcrowd : t.isCrowded with
  | false =>
    refine (delivers_insertEntry hp htab hcrowd hb.isString hb.shows hre hd').imp ?_
    rintro isNew _ ⟨hnew, ⟨t', rfl, hsize⟩, hwords, hp'⟩
    refine ⟨hnew, writes_updateBody (keepsStrings_mapTable _) hwords hr, hp', t',
      hasTable_mapTable (fun _ => t') ⟨o, ho, ht⟩, fun t₀ ht₀ => ?_⟩
    exact Nat.le_of_eq (by rw [ht₀.functional ⟨o, ho, ht⟩, hsize])
  | true =>
    simp only [↓reduceIte]
    refine (turns_account hp hr _).bind (fun _ => ?_) fun _ h₁ hturn => ?_
    · refine (keeps_modifyTable l _).grows.bind fun _ => (grows_view _).bind fun t => ?_
      exact (keeps_modifyTable l _).grows.bind fun _ => grows_pure _
    · have hp₁ := hturn.pictures hp hr
      have hr₁ := hturn.rooted hp hr
      have ho₁ := hturn.object hp hr hl ho
      have hb₁ := hb.turns hp hr hturn
      have hs₁ := (hp₁.depicts l o _ ho₁ hf hw).showsTable hx hd
      obtain ⟨t₁, ht₁, hs₁⟩ := hs₁
      rw [ht] at ht₁
      cases ht₁
      apply delivers_modify_bind
      -- the table has grown, and stands for the same dictionary
      have hf₁ := keepsStrings_mapTable (·.growTo (nextCapacity t.capacity))
      have hself : objects.set a x = objects := by
        obtain ⟨hlt, hget⟩ := List.getElem?_eq_some_iff.mp hx
        rw [← hget, List.set_getElem_self]
      have hp₂ := hp₁.retable (f := (·.growTo (nextCapacity t.capacity))) ho₁ hf hw hx
        (redefined_refl hd) hd ht hs₁.growTo
      rw [hself] at hp₂
      obtain ⟨o₂, ho₂, hf₂, ht₂⟩ := objects_mapTable (·.growTo (nextCapacity t.capacity)) ho₁ ht
      have hcan := canonical_mapTable ho₁ hf ht hs₁.growTo
      have hcar := carries_updateBody hf₁ hcan fun link hm => (hr₁ link hm).1
      have hs₂ := (hp₂.depicts l o₂ _ ho₂ (hf₂.trans hf) hw).showsTable hx hd
      obtain ⟨t₂, ht₂', hs₂⟩ := hs₂
      rw [ht₂] at ht₂'
      cases ht₂'
      refine (delivers_insertEntry hp₂ ⟨hw, hx, hd, ⟨o₂, ho₂, hf₂.trans hf, ht₂⟩, hs₂⟩
        hs₁.sound.isCrowded_growTo ((isString_updateBody hf₁).mpr hb₁.isString) ?_ hre hd').imp ?_
      · exact hcar.shows (.refl w) hb₁.shows fun k hk =>
          (alive_updateBody l k _).mpr (hb₁.safe.valid.alive hk)
      · rintro isNew _ ⟨hnew, ⟨t', rfl, hsize⟩, hwords, hp'⟩
        have hwr := writes_updateBody hf₁ hcan hr₁
        refine ⟨hnew, .after hturn hp hr (hwr.updateBody (keepsStrings_mapTable _) hwords), hp', t',
          hasTable_mapTable (fun _ => t') ⟨o₂, ho₂, ht₂⟩, fun t₀ ht₀ => ?_⟩
        rw [ht₀.functional ⟨o, ho, ht⟩, hsize]
        exact hs₁.sound.size_le_growTo

end HeapM

end Lox

namespace Lox.HeapM

open Heap HeapView Table

variable {h h' : Heap} {w : World} {objects : List (Obj Routine)} {upvalues : List Captured}
  {r : Roots}

def Listed (es : Array Entry) (i : Nat) (name : Bytes) : Prop :=
  ∃ j k, i ≤ j ∧ (entryAt es j).key = some k ∧ k.chars = name

theorem listed_of_none {es : Array Entry} {i : Nat} (hk : (entryAt es i).key = none) (name : Bytes) :
    Listed es i name ↔ Listed es (i + 1) name := by
  constructor
  · rintro ⟨j, k, hj, hjk, hc⟩
    have : j ≠ i := by
      rintro rfl
      rw [hk] at hjk
      cases hjk
    exact ⟨j, k, by omega, hjk, hc⟩
  · rintro ⟨j, k, hj, hjk, hc⟩
    exact ⟨j, k, by omega, hjk, hc⟩

theorem listed_of_some {es : Array Entry} {i : Nat} {k : Symbol} (hk : (entryAt es i).key = some k)
    (name : Bytes) : Listed es i name ↔ name = k.chars ∨ Listed es (i + 1) name := by
  constructor
  · rintro ⟨j, k', hj, hjk, hc⟩
    by_cases he : j = i
    · subst he
      rw [hk] at hjk
      cases hjk
      exact .inl hc.symm
    · exact .inr ⟨j, k', by omega, hjk, hc⟩
  · rintro (rfl | ⟨j, k', hj, hjk, hc⟩)
    · exact ⟨i, k, Nat.le_refl i, hk, rfl⟩
    · exact ⟨j, k', by omega, hjk, hc⟩

theorem entries_getElem?_eq {es : Array Entry} {i : Nat} (hi : i < es.size) :
    es[i]? = some (entryAt es i) := by
  simp [entryAt, Array.getD_eq_getD_getElem?, hi]

theorem asValues_set (methods : Dict Nat) (name : Bytes) (m : Nat) :
    asValues (methods.set name m) = (asValues methods).set name (.object m) := by
  funext n
  unfold asValues Dict.set
  split <;> rfl

theorem binding_of_entry (hp : Pictures w objects upvalues h) {l : Loc} {a : Nat} {name : Bytes}
    {methods : Dict Nat} {t : Table} (ha : h.Anchored r l)
    (htab : Tabled w objects h l a (.class_ name methods) (asValues methods) t) {i : Nat} {k : Symbol}
    (hk : (entryAt t.entries i).key = some k) :
    ∃ m, methods k.chars = some m ∧
      Binding w r h k (entryAt t.entries i).value (.object m) := by
  have hb := binds_of_key (t := t) hk
  obtain ⟨x, hx, hs⟩ := htab.shows.values k _ hb
  obtain ⟨m, hm, rfl⟩ := Option.map_eq_some_iff.mp hx
  obtain ⟨o, ho, hf, ht⟩ := htab.table
  have hlinks : ∀ link ∈ t.links, link ∈ h.linksAt l := by
    intro link hlink
    simp only [linksAt, ho]
    cases hbody : o.body <;> rw [hbody] at ht <;> cases ht <;> exact List.mem_cons_of_mem _ hlink
  obtain ⟨h₁, h₂⟩ := mem_links_of_binds hb
  refine ⟨m, hm, htab.shows.keys k _ hb, .link ha.reach (hlinks _ h₁) (.object _), hs,
    hs.valid hp.sound.consistent, fun j hj => .link ha.reach (hlinks _ h₂) hj⟩

theorem delivers_copyEntries {s l : Loc} {a b : Nat} {name name' : Bytes} {methods own : Dict Nat}
    {t : Table} (hne : s ≠ l) (left i : Nat) (hi : i + left = t.entries.size)
    (hp : Pictures w objects upvalues h) (hr : h.Rooted r) (hs : h.Anchored r s)
    (hl : h.Anchored r l) (htab : Tabled w objects h s b (.class_ name' methods) (asValues methods) t)
    (hw : w l = some (.object a)) (hx : objects[a]? = some (.class_ name own)) :
    Delivers False r h (copyEntries s l i left) fun _ h' => Carries (h.origins r) h h' ∧
      ∃ own', Pictures w (objects.set a (.class_ name own')) upvalues h' ∧
        (∀ n, Listed t.entries i n → own' n = methods n) ∧
        ∀ n, ¬ Listed t.entries i n → own' n = own n := by
  induction left generalizing i h objects own with
  | zero =>
    refine delivers_pure ⟨.refl fun link hm => (hr link hm).1, own, ?_, fun n hn => ?_, fun _ _ => rfl⟩
    · obtain ⟨hlt, hget⟩ := List.getElem?_eq_some_iff.mp hx
      rwa [← hget, List.set_getElem_self]
    · obtain ⟨j, k, hj, hk, -⟩ := hn
      have := lt_size_of_key hk
      omega
  | succ left ih =>
    obtain ⟨o, ho, hf, ht⟩ := htab.table
    apply delivers_view_bind (tableOf_eq ho ht)
    rw [entries_getElem?_eq (by omega)]
    simp only
    cases hk : (entryAt t.entries i).key with
    | none =>
      simp only
      refine (ih (i + 1) (by omega) hp hr hs hl htab hx).imp fun _ h' => ?_
      rintro ⟨hcar, own', hp', hin, hout⟩
      refine ⟨hcar, own', hp', fun n hn => hin n ((listed_of_none hk n).mp hn), fun n hn => ?_⟩
      exact hout n fun hn' => hn ((listed_of_none hk n).mpr hn')
    | some k =>
      simp only
      obtain ⟨m, hm, hb⟩ := binding_of_entry hp hs htab hk
      refine (delivers_setEntry hp hr hl.reach hw hx (.class_ name own) hb
        (.class_ name own (own.set k.chars m)) (asValues_set own k.chars m ▸ .class_ ..)).bind
        (fun _ => (keeps_copyEntries _ _ _ _).grows) ?_
      rintro _ h₁ ⟨-, hwr, hp₁, -⟩
      have hr₁ := hwr.rooted hr
      have hab : b ≠ a := by
        rintro rfl
        exact hne (hp.object_inj s l b htab.place hw)
      have ho₁ := hwr.kept s o hne hs.reach ho
      have hobj : (objects.set a (.class_ name (own.set k.chars m)))[b]? =
          some (.class_ name' methods) := by
        rw [List.getElem?_set_ne (Ne.symm hab)]
        exact htab.object
      obtain ⟨t₁, htab₁⟩ := tabled hp₁ ⟨o, ho₁, hf⟩ htab.place hobj (.class_ name' methods)
      obtain ⟨o₁, ho₁', -, ht₁⟩ := htab₁.table
      rw [ho₁] at ho₁'
      cases ho₁'
      rw [ht] at ht₁
      cases ht₁
      have hlt := hp.object_lt l a hw
      refine (ih (i + 1) (by omega) hp₁ hr₁ (hwr.anchored hr hs) (hwr.anchored hr hl) htab₁
        (by rw [List.getElem?_set_self hlt])).imp fun _ h' => ?_
      rintro ⟨hcar, own', hp', hin, hout⟩
      rw [List.set_set] at hp'
      refine ⟨hwr.carries.trans hp.sound.consistent (fun link hm => (hr link hm).2)
        (hwr.origins ▸ hcar), own', hp', fun n hn => ?_, fun n hn => ?_⟩
      · by_cases hn' : Listed t.entries (i + 1) n
        · exact hin n hn'
        · rw [hout n hn']
          rcases (listed_of_some hk n).mp hn with rfl | hn
          · rw [Dict.set, if_pos rfl, hm]
          · exact absurd hn hn'
      · rw [hout n fun hn' => hn ((listed_of_some hk n).mpr (.inr hn'))]
        rw [Dict.set, if_neg]
        rintro rfl
        exact hn ((listed_of_some hk k.chars).mpr (.inl rfl))

theorem delivers_copyEntries_self {l : Loc} {a : Nat} {name : Bytes} {methods : Dict Nat} {t : Table}
    (left i : Nat) (hi : i + left ≤ t.entries.size) (hp : Pictures w objects upvalues h)
    (hr : h.Rooted r) (hl : h.Anchored r l)
    (htab : Tabled w objects h l a (.class_ name methods) (asValues methods) t) :
    Delivers False r h (copyEntries l l i left) fun _ h' => Carries (h.origins r) h h' ∧
      Pictures w objects upvalues h' := by
  induction left generalizing i h t with
  | zero => exact delivers_pure ⟨.refl fun link hm => (hr link hm).1, hp⟩
  | succ left ih =>
    obtain ⟨o, ho, hf, ht⟩ := htab.table
    apply delivers_view_bind (tableOf_eq ho ht)
    rw [entries_getElem?_eq (by omega)]
    simp only
    cases hk : (entryAt t.entries i).key with
    | none => exact ih (i + 1) (by omega) hp hr hl htab
    | some k =>
      simp only
      obtain ⟨m, hm, hb⟩ := binding_of_entry hp hl htab hk
      have hsame : methods.set k.chars m = methods := by
        funext n
        rw [Dict.set]
        split
        · next he => rw [he, hm]
        · rfl
      have hset : objects.set a (.class_ name (methods.set k.chars m)) = objects := by
        obtain ⟨hlt, hget⟩ := List.getElem?_eq_some_iff.mp htab.object
        rw [hsame, ← hget, List.set_getElem_self]
      refine (delivers_setEntry hp hr hl.reach htab.place htab.object htab.dict hb
        (.class_ name methods (methods.set k.chars m)) (asValues_set methods k.chars m ▸ .class_ ..)).bind
        (fun _ => (keeps_copyEntries _ _ _ _).grows) ?_
      rintro _ h₁ ⟨-, hwr, hp₁, t₁, ht₁, hsize⟩
      rw [hset] at hp₁
      have hl₁ := hwr.anchored hr hl
      have hr₁ := hwr.rooted hr
      obtain ⟨t₂, htab₂⟩ := tabled hp₁ ((hp₁.intact hr₁).alive hl₁.reach) htab.place htab.object
        htab.dict
      obtain ⟨o₂, ho₂, -, ht₂⟩ := htab₂.table
      obtain rfl := ht₁.functional ⟨o₂, ho₂, ht₂⟩
      have := hsize t ⟨o, ho, ht⟩
      refine (ih (i + 1) (by omega) hp₁ hr₁ hl₁ htab₂).imp fun _ h' => ?_
      rintro ⟨hcar, hp'⟩
      exact ⟨hwr.carries.trans hp.sound.consistent (fun link hm => (hr link hm).2)
        (hwr.origins ▸ hcar), hp'⟩

theorem delivers_inheritEntries {s l : Loc} {a b : Nat} {name name' : Bytes} {methods own : Dict Nat}
    (hp : Pictures w objects upvalues h) (hr : h.Rooted r) (hs : h.Anchored r s)
    (hl : h.Anchored r l) (hws : w s = some (.object b)) (hw : w l = some (.object a))
    (hxs : objects[b]? = some (.class_ name' methods))
    (hx : objects[a]? = some (.class_ name own)) :
    Delivers False r h (inheritEntries s l) fun _ h' => Carries (h.origins r) h h' ∧
      Pictures w (objects.set a (.class_ name (methods.overlay own))) upvalues h' := by
  obtain ⟨t, htab⟩ := tabled hp ((hp.intact hr).alive hs.reach) hws hxs (.class_ name' methods)
  obtain ⟨o, ho, hf, ht⟩ := htab.table
  apply delivers_view_bind (tableOf_eq ho ht)
  by_cases hne : s = l
  · subst hne
    rw [hws] at hw
    cases hw
    rw [hxs] at hx
    cases hx
    refine (delivers_copyEntries_self _ 0 (Nat.le_of_eq (Nat.zero_add _)) hp hr hs htab).imp ?_
    rintro _ h' ⟨hcar, hp'⟩
    refine ⟨hcar, ?_⟩
    have hover : Dict.overlay methods methods = methods := by
      funext n
      rw [Dict.overlay]
      cases methods n <;> rfl
    obtain ⟨hlt, hget⟩ := List.getElem?_eq_some_iff.mp hxs
    rwa [hover, ← hget, List.set_getElem_self]
  · refine (delivers_copyEntries hne _ 0 (Nat.zero_add _) hp hr hs hl htab hw hx).imp ?_
    rintro _ h' ⟨hcar, own', hp', hin, hout⟩
    have hown : own' = methods.overlay own := by
      funext n
      rw [Dict.overlay]
      cases hm : methods n with
      | some m =>
        obtain ⟨k, v, ⟨j, hj⟩, rfl⟩ := htab.shows.total n (.object m) (by simp [asValues, hm])
        rw [hin k.chars ⟨j, k, Nat.zero_le j, by rw [hj], rfl⟩, hm]
        rfl
      | none =>
        refine (hout n ?_).trans (by rw [Option.none_or])
        rintro ⟨j, k, -, hk, rfl⟩
        obtain ⟨x, hx', -⟩ := htab.shows.values k _ (binds_of_key hk)
        simp [asValues, hm] at hx'
    exact ⟨hcar, hown ▸ hp'⟩

end Lox.HeapM

import Lox.Proofs.Heap.Mark

namespace Lox

/-- From an object to what it refers to. -/
inductive Edge : Body → Link → Prop where
  | functionName {f : Function} {s : Symbol} : f.name = some s → Edge (.function f) (.object s.loc)
  | constant {f : Function} {v : Value} : v ∈ f.chunk.constants.toList → Edge (.function f) (.value v)
  | routine (c : Closure) : Edge (.closure c) (.object c.function)
  | captured {c : Closure} {l : Loc} : some l ∈ c.upvalues → Edge (.closure c) (.object l)
  | closed (v : Value) : Edge (.upvalue (.closed v)) (.value v)
  | className (c : Class) : Edge (.class_ c) (.object c.name.loc)
  | methodName {c : Class} {e : Entry} {s : Symbol} : e ∈ c.methods.entries → e.key = some s →
      Edge (.class_ c) (.object s.loc)
  | method {c : Class} {e : Entry} : e ∈ c.methods.entries → Edge (.class_ c) (.value e.value)
  | class_ (i : Instance) : Edge (.instance_ i) (.object i.class_)
  | fieldName {i : Instance} {e : Entry} {s : Symbol} : e ∈ i.fields.entries → e.key = some s →
      Edge (.instance_ i) (.object s.loc)
  | field {i : Instance} {e : Entry} : e ∈ i.fields.entries → Edge (.instance_ i) (.value e.value)
  | receiver (b : BoundMethod) : Edge (.boundMethod b) (.value b.receiver)
  | bound (b : BoundMethod) : Edge (.boundMethod b) (.object b.method)

theorem Table.mem_links {t : Table} {link : Link} : link ∈ t.links ↔
    ∃ e ∈ t.entries, (∃ s, e.key = some s ∧ link = .object s.loc) ∨ link = .value e.value := by
  simp only [Table.links, List.mem_flatMap, Array.mem_toList_iff]
  refine exists_congr fun e => and_congr_right fun _ => ?_
  cases e.key <;> simp

theorem edge_iff {b : Body} {link : Link} : Edge b link ↔ link ∈ b.links := by
  constructor
  · intro h
    cases h with
    | functionName hs => simp [Body.links, hs]
    | constant hv => exact List.mem_append_right _ (List.mem_map_of_mem hv)
    | routine c => exact .head _
    | @captured c l hl => exact .tail _ (List.mem_filterMap.mpr ⟨some l, Array.mem_toList_iff.mpr hl, rfl⟩)
    | closed v => exact .head _
    | className c => exact .head _
    | methodName he hs => exact .tail _ (Table.mem_links.mpr ⟨_, he, .inl ⟨_, hs, rfl⟩⟩)
    | method he => exact .tail _ (Table.mem_links.mpr ⟨_, he, .inr rfl⟩)
    | class_ i => exact .head _
    | fieldName he hs => exact .tail _ (Table.mem_links.mpr ⟨_, he, .inl ⟨_, hs, rfl⟩⟩)
    | field he => exact .tail _ (Table.mem_links.mpr ⟨_, he, .inr rfl⟩)
    | receiver b => exact .head _
    | bound b => exact .tail _ (.head _)
  · intro h
    cases b with
    | string chars hash => cases h
    | function f =>
      rcases List.mem_append.mp h with h | h
      · obtain ⟨s, hs, rfl⟩ := List.mem_map.mp h
        exact .functionName (Option.mem_toList.mp hs)
      · obtain ⟨v, hv, rfl⟩ := List.mem_map.mp h
        exact .constant hv
    | closure c =>
      rcases List.mem_cons.mp h with rfl | h
      · exact .routine c
      · obtain ⟨u, hu, hl⟩ := List.mem_filterMap.mp h
        obtain ⟨l, rfl, rfl⟩ := Option.map_eq_some_iff.mp hl
        exact .captured (Array.mem_toList_iff.mp hu)
    | upvalue u =>
      cases u with
      | stack slot => cases h
      | closed v =>
        obtain rfl := List.mem_singleton.mp h
        exact .closed v
    | native n => cases h
    | class_ c =>
      rcases List.mem_cons.mp h with rfl | h
      · exact .className c
      · obtain ⟨e, he, ⟨s, hs, rfl⟩ | rfl⟩ := Table.mem_links.mp h
        · exact .methodName he hs
        · exact .method he
    | instance_ i =>
      rcases List.mem_cons.mp h with rfl | h
      · exact .class_ i
      · obtain ⟨e, he, ⟨s, hs, rfl⟩ | rfl⟩ := Table.mem_links.mp h
        · exact .fieldName he hs
        · exact .field he
    | boundMethod b =>
      rcases List.mem_cons.mp h with rfl | h
      · exact .receiver b
      · obtain rfl := List.mem_singleton.mp h
        exact .bound b

namespace Heap

inductive Root (h : Heap) (roots : Roots) : Link → Prop where
  | held {v : Value} : v ∈ h.holds → Root h roots (.value v)
  | marker {k : RootMarker} {link : Link} : k ∈ h.markers → link ∈ roots k → Root h roots link

inductive Target (h : Heap) : Link → Loc → Prop where
  | value {v : Value} {l : Loc} : v.isObject = true → h.find? v.handle = some l → Target h (.value v) l
  | object (l : Loc) : Target h (.object l) l
  | fieldName {k : Loc} {o : Object} {i : Instance} {e : Entry} {s : Symbol} : h.objects[k]? = some o →
      o.body = .instance_ i → e ∈ i.fields.entries → e.key = some s → Target h (.fields k) s.loc
  | field {k l : Loc} {o : Object} {i : Instance} {e : Entry} : h.objects[k]? = some o → o.body = .instance_ i →
      e ∈ i.fields.entries → e.value.isObject = true → h.find? e.value.handle = some l → Target h (.fields k) l

inductive Reaches (h : Heap) (roots : Roots) : Loc → Prop where
  | root {link : Link} {l : Loc} : h.Root roots link → h.Target link l → Reaches h roots l
  | edge {k l : Loc} {o : Object} {link : Link} : Reaches h roots k → h.objects[k]? = some o → Edge o.body link →
      h.Target link l → Reaches h roots l

def Lives (h : Heap) (v : Value) : Prop :=
  v.isObject = true → ∃ l, h.find? v.handle = some l ∧ h.Alive l

def Lasting (h : Heap) : Link → Prop
  | .value v => h.Lives v
  | .object l => h.Alive l
  | .fields k => ∃ o i, h.objects[k]? = some o ∧ o.body = .instance_ i ∧
      ∀ e ∈ i.fields.entries, (∀ s, e.key = some s → h.Alive s.loc) ∧ h.Lives e.value

/-- No reference that can be reached is to a freed object. -/
structure Unbroken (h : Heap) (roots : Roots) : Prop where
  root : ∀ link, h.Root roots link → h.Lasting link
  edge : ∀ (l : Loc) (o : Object) link, h.Reaches roots l → h.objects[l]? = some o → Edge o.body link → h.Lasting link

variable {h : Heap} {roots : Roots}

theorem root_iff {link : Link} : h.Root roots link ↔ link ∈ h.origins roots := by
  simp only [origins, registered, List.mem_append, List.mem_map, List.mem_reverse, List.mem_flatMap]
  constructor
  · rintro (hv | ⟨hk, hl⟩)
    · exact .inl ⟨_, hv, rfl⟩
    · exact .inr ⟨_, hk, hl⟩
  · rintro (⟨v, hv, rfl⟩ | ⟨k, hk, hl⟩)
    · exact .held hv
    · exact .marker hk hl

theorem target_iff {link : Link} {l : Loc} : h.Target link l ↔ h.Leads link l := by
  constructor
  · rintro (⟨hv, hf⟩ | _ | ⟨ho, hb, he, hs⟩ | ⟨ho, hb, he, hv, hf⟩)
    · exact .value hv hf
    · exact .object l
    · exact .fields ho hb (Table.mem_links.mpr ⟨_, he, .inl ⟨_, hs, rfl⟩⟩) (.object _)
    · exact .fields ho hb (Table.mem_links.mpr ⟨_, he, .inr rfl⟩) (.value hv hf)
  · rintro (⟨hv, hf⟩ | _ | ⟨ho, hb, hm, hl⟩)
    · exact .value hv hf
    · exact .object l
    · obtain ⟨e, he, ⟨s, hs, rfl⟩ | rfl⟩ := Table.mem_links.mp hm
      · cases hl
        exact .fieldName ho hb he hs
      · cases hl with
        | value hv hf => exact .field ho hb he hv hf

theorem mem_linksAt {l : Loc} {link : Link} : link ∈ h.linksAt l ↔
    ∃ o, h.objects[l]? = some o ∧ Edge o.body link := by
  unfold linksAt
  cases h.objects[l]? with
  | none => simp
  | some o => simp [edge_iff]

theorem reaches_iff {l : Loc} : h.Reaches roots l ↔ h.Reach (h.origins roots) l := by
  constructor
  · intro hr
    induction hr with
    | root hm hl => exact .root (root_iff.mp hm) (target_iff.mp hl)
    | edge _ ho he hl ih => exact .link ih (mem_linksAt.mpr ⟨_, ho, he⟩) (target_iff.mp hl)
  · intro hr
    induction hr with
    | root hm hl => exact .root (root_iff.mpr hm) (target_iff.mpr hl)
    | link _ hm hl ih =>
      obtain ⟨o, ho, he⟩ := mem_linksAt.mp hm
      exact .edge ih ho he (target_iff.mpr hl)

theorem valid_value_iff {v : Value} : h.Valid (.value v) ↔ h.Lives v := by
  constructor
  · rintro (hn | ⟨-, hf, ha⟩) hv
    · rw [hn] at hv
      cases hv
    · exact ⟨_, hf, ha⟩
  · intro hn
    cases hv : v.isObject with
    | false => exact .plain hv
    | true =>
      obtain ⟨l, hf, ha⟩ := hn hv
      exact .value hv hf ha

theorem valid_object_iff {l : Loc} : h.Valid (.object l) ↔ h.Alive l :=
  ⟨fun | .object ha => ha, .object⟩

theorem lasting_iff {link : Link} : h.Lasting link ↔ h.Valid link := by
  cases link with
  | value v => exact valid_value_iff.symm
  | object l => exact valid_object_iff.symm
  | fields k =>
    constructor
    · rintro ⟨o, i, ho, hb, he⟩
      refine .fields ho hb fun link hm => ?_
      obtain ⟨e, hmem, ⟨s, hs, rfl⟩ | rfl⟩ := Table.mem_links.mp hm
      · exact .object ((he e hmem).1 s hs)
      · exact valid_value_iff.mpr (he e hmem).2
    · rintro (_ | _ | _ | ⟨ho, hb, hall⟩)
      refine ⟨_, _, ho, hb, fun e he => ⟨fun s hs => ?_, ?_⟩⟩
      · exact valid_object_iff.mp (hall _ (Table.mem_links.mpr ⟨e, he, .inl ⟨s, hs, rfl⟩⟩))
      · exact valid_value_iff.mp (hall _ (Table.mem_links.mpr ⟨e, he, .inr rfl⟩))

theorem unbroken_iff : h.Unbroken roots ↔ h.Intact (h.origins roots) := by
  constructor
  · rintro ⟨hr, he⟩
    refine ⟨fun link hm => lasting_iff.mp (hr link (root_iff.mpr hm)), fun l hl link hm => ?_⟩
    obtain ⟨o, ho, hedge⟩ := mem_linksAt.mp hm
    exact lasting_iff.mp (he l o link (reaches_iff.mpr hl) ho hedge)
  · rintro ⟨hr, he⟩
    refine ⟨fun link hm => lasting_iff.mpr (hr link (root_iff.mp hm)), fun l o link hl ho hedge => ?_⟩
    exact lasting_iff.mpr (he l (reaches_iff.mp hl) link (mem_linksAt.mpr ⟨o, ho, hedge⟩))

end Heap

end Lox

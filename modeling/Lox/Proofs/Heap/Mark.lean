import Lox.Heap.Allocate
import Lox.Heap.Collect
import Lox.Proofs.Value

namespace Lox.HeapM

open HeapView

variable {α β : Type} (r : Roots) (h : Heap)

theorem run_bind (x : HeapM α) (f : α → HeapM β) : (x >>= f) r h = match x r h with
    | .ok a h => f a r h
    | .error e h => .error e h := by
  show EStateM.bind (x r) (fun a => f a r) h = _
  unfold EStateM.bind
  cases x r h <;> rfl

theorem run_getHeap : (getThe Heap : HeapM Heap) r h = .ok h h := rfl

theorem run_modify (f : Heap → Heap) : (modify f : HeapM Unit) r h = .ok () (f h) := rfl

theorem run_modifyGet (f : Heap → α × Heap) :
    (modifyGet f : HeapM α) r h = .ok (f h).1 (f h).2 := rfl

theorem run_view (view : HeapView α) : (liftM view : HeapM α) r h = match view h with
    | .ok a => .ok a h
    | .error e => .error e h := rfl

theorem run_ite (c : Prop) [Decidable c] (x y : HeapM α) :
    (if c then x else y) r h = if c then x r h else y r h := by
  split <;> rfl

theorem run_finally (x : HeapM α) (y : HeapM β) : (tryFinally x y) r h = match x r h with
    | .ok a h => match y r h with
      | .ok _ h => .ok a h
      | .error e h => .error e h
    | .error e h => match y r h with
      | .ok _ h => .error e h
      | .error e h => .error e h := by
  show EStateM.map Prod.fst
    (MonadFinally.tryFinally' (m := EStateM Fault Heap) (x r) fun _ => y r) h = _
  simp only [EStateM.map, MonadFinally.tryFinally']
  cases x r h with
  | ok a h => cases hy : y r h <;> simp only [hy]
  | error e h => cases hy : y r h <;> simp only [hy]

theorem run_forM_cons (f : α → HeapM Unit) (a : α) (as : List α) :
    ((a :: as).forM f) r h = match f a r h with
      | .ok _ h => as.forM f r h
      | .error e h => .error e h := by
  refine (run_bind r h (f a) fun _ => as.forM f).trans ?_
  cases f a r h <;> rfl

end Lox.HeapM

namespace Lox.HeapView

variable {α β : Type} (h : Heap)

theorem view_bind (x : HeapView α) (f : α → HeapView β) : (x >>= f) h = match x h with
    | .ok a => f a h
    | .error e => .error e := by
  show Except.bind (x h) (fun a => f a h) = _
  unfold Except.bind
  cases x h <;> rfl

theorem view_pure (a : α) : (pure a : HeapView α) h = .ok a := rfl

theorem view_throw (e : Fault) : (throw e : HeapView α) h = .error e := rfl

theorem view_read : (read : HeapView Heap) h = .ok h := rfl

theorem object_eq (l : Loc) : object l h = match h.objects[l]? with
    | some o => .ok o
    | none => .error .missing := by
  rw [object, view_bind]
  simp only [view_read]
  cases h.objects[l]? <;> rfl

theorem locOf_eq (ref : Ref) : locOf ref h = match h.find? ref with
    | some l => .ok l
    | none => .error (.deadObject ref) := by
  rw [locOf, view_bind]
  simp only [view_read]
  cases h.find? ref <;> rfl

theorem locOfValue_eq (v : Value) : locOfValue v h =
    if v.isObject then
      match h.find? v.bits.toUInt32 with
      | some l => .ok l
      | none => .error (.deadObject v.bits.toUInt32)
    else .error .notObject := by
  rw [locOfValue, view_bind]
  by_cases ho : v.isObject = true
  · simp only [Value.ref, ho, ↓reduceIte]
    exact locOf_eq h v.bits.toUInt32
  · simp only [Value.ref, ho]
    rfl

variable {h : Heap} {l : Loc}

theorem object_eq_ok {o : Object} : object l h = .ok o ↔ h.objects[l]? = some o := by
  rw [object_eq]
  cases h.objects[l]? <;> simp

theorem symbolAt_eq_ok {s : Symbol} : symbolAt l h = .ok s ↔
    s.loc = l ∧ ∃ o, h.objects[l]? = some o ∧ o.body = .string s.chars s.hash := by
  rw [symbolAt, view_bind, object_eq]
  cases h.objects[l]? with
  | none => simp
  | some o =>
    cases hb : o.body <;> simp [hb, view_pure, view_throw]
    constructor
    · rintro rfl; exact ⟨rfl, rfl, rfl⟩
    · rintro ⟨rfl, rfl, rfl⟩; rfl

theorem functionAt_eq_ok {f : Function} : functionAt l h = .ok f ↔
    ∃ o, h.objects[l]? = some o ∧ o.body = .function f := by
  rw [functionAt, view_bind, object_eq]
  cases h.objects[l]? with
  | none => simp
  | some o => cases hb : o.body <;> simp [hb, view_pure, view_throw]

theorem closureAt_eq_ok {c : Closure} : closureAt l h = .ok c ↔
    ∃ o, h.objects[l]? = some o ∧ o.body = .closure c := by
  rw [closureAt, view_bind, object_eq]
  cases h.objects[l]? with
  | none => simp
  | some o => cases hb : o.body <;> simp [hb, view_pure, view_throw]

theorem upvalueAt_eq_ok {u : Upvalue} : upvalueAt l h = .ok u ↔
    ∃ o, h.objects[l]? = some o ∧ o.body = .upvalue u := by
  rw [upvalueAt, view_bind, object_eq]
  cases h.objects[l]? with
  | none => simp
  | some o => cases hb : o.body <;> simp [hb, view_pure, view_throw]

theorem classAt_eq_ok {c : Class} : classAt l h = .ok c ↔
    ∃ o, h.objects[l]? = some o ∧ o.body = .class_ c := by
  rw [classAt, view_bind, object_eq]
  cases h.objects[l]? with
  | none => simp
  | some o => cases hb : o.body <;> simp [hb, view_pure, view_throw]

theorem instanceAt_eq_ok {i : Instance} : instanceAt l h = .ok i ↔
    ∃ o, h.objects[l]? = some o ∧ o.body = .instance_ i := by
  rw [instanceAt, view_bind, object_eq]
  cases h.objects[l]? with
  | none => simp
  | some o => cases hb : o.body <;> simp [hb, view_pure, view_throw]

end Lox.HeapView

namespace Lox

namespace Heap

def Alive (h : Heap) (l : Loc) : Prop :=
  ∃ o, h.objects[l]? = some o ∧ o.freed = false

inductive Leads (h : Heap) : Link → Loc → Prop where
  | value {v : Value} {l : Loc} : v.isObject = true → h.find? v.handle = some l → Leads h (.value v) l
  | object (l : Loc) : Leads h (.object l) l
  | fields {k l : Loc} {o : Object} {i : Instance} {link : Link} : h.objects[k]? = some o →
      o.body = .instance_ i → link ∈ i.fields.links → Leads h link l → Leads h (.fields k) l

inductive Valid (h : Heap) : Link → Prop where
  | plain {v : Value} : v.isObject = false → Valid h (.value v)
  | value {v : Value} {l : Loc} : v.isObject = true → h.find? v.handle = some l → h.Alive l →
      Valid h (.value v)
  | object {l : Loc} : h.Alive l → Valid h (.object l)
  | fields {k : Loc} {o : Object} {i : Instance} : h.objects[k]? = some o →
      o.body = .instance_ i → (∀ link ∈ i.fields.links, Valid h link) → Valid h (.fields k)

def linksAt (h : Heap) (l : Loc) : List Link :=
  match h.objects[l]? with
  | some o => o.body.links
  | none => []

inductive Reach (h : Heap) (roots : List Link) : Loc → Prop where
  | root {link : Link} {l : Loc} : link ∈ roots → h.Leads link l → Reach h roots l
  | link {link : Link} {k l : Loc} : Reach h roots k → link ∈ h.linksAt k → h.Leads link l →
      Reach h roots l

/-- No link that can be reached names a freed object. -/
structure Intact (h : Heap) (roots : List Link) : Prop where
  origin : ∀ link ∈ roots, h.Valid link
  linked : ∀ l, h.Reach roots l → ∀ link ∈ h.linksAt l, h.Valid link

def origins (h : Heap) (roots : Roots) : List Link :=
  h.holds.reverse.map .value ++ h.registered roots

theorem Valid.alive {h : Heap} {link : Link} {l : Loc} (hv : h.Valid link) (hl : h.Leads link l) :
    h.Alive l := by
  induction hl with
  | value ho hf =>
    cases hv with
    | plain hn => rw [ho] at hn; cases hn
    | value _ hf' ha => rw [hf] at hf'; cases hf'; exact ha
  | object l => cases hv with | object ha => exact ha
  | fields ho hi hm _ ih =>
    cases hv with
    | fields ho' hi' hall =>
      rw [ho] at ho'
      cases ho'
      rw [hi] at hi'
      cases hi'
      exact ih (hall _ hm)

theorem Intact.alive {h : Heap} {roots : List Link} (hi : h.Intact roots) {l : Loc}
    (hr : h.Reach roots l) : h.Alive l := by
  cases hr with
  | root hm hl => exact (hi.origin _ hm).alive hl
  | link hk hm hl => exact (hi.linked _ hk _ hm).alive hl

theorem Reach.mono {h : Heap} {roots roots' : List Link} (hsub : ∀ link ∈ roots, link ∈ roots')
    {l : Loc} (hr : h.Reach roots l) : h.Reach roots' l := by
  induction hr with
  | root hm hl => exact .root (hsub _ hm) hl
  | link _ hm hl ih => exact .link ih hm hl

section Congr

variable {h h' : Heap} (ho : h'.objects = h.objects) (hs : h'.slots = h.slots)

include ho

theorem Alive.congr {l : Loc} (ha : h.Alive l) : h'.Alive l := by
  obtain ⟨o, h₁, h₂⟩ := ha
  exact ⟨o, by rw [ho, h₁], h₂⟩

theorem linksAt_congr (l : Loc) : h'.linksAt l = h.linksAt l := by
  simp only [linksAt, ho]

include hs

theorem Leads.congr {link : Link} {l : Loc} (hl : h.Leads link l) : h'.Leads link l := by
  induction hl with
  | value hv hf => exact .value hv (by rw [find?, hs]; exact hf)
  | object l => exact .object l
  | fields h₁ h₂ h₃ _ ih => exact .fields (by rw [ho]; exact h₁) h₂ h₃ ih

theorem Valid.congr {link : Link} (hv : h.Valid link) : h'.Valid link := by
  induction hv with
  | plain hn => exact .plain hn
  | value hv hf ha => exact .value hv (by rw [find?, hs]; exact hf) (ha.congr ho)
  | object ha => exact .object (ha.congr ho)
  | fields h₁ h₂ _ ih => exact .fields (by rw [ho]; exact h₁) h₂ ih

theorem Reach.congr {roots : List Link} {l : Loc} (hr : h.Reach roots l) : h'.Reach roots l := by
  induction hr with
  | root hm hl => exact .root hm (hl.congr ho hs)
  | link _ hm hl ih => exact .link ih (by rwa [linksAt_congr ho]) (hl.congr ho hs)

theorem Intact.congr {roots : List Link} (hi : h.Intact roots) : h'.Intact roots where
  origin link hl := (hi.origin link hl).congr ho hs
  linked l hl link hm := by
    rw [linksAt_congr ho] at hm
    exact (hi.linked l (hl.congr ho.symm hs.symm) link hm).congr ho hs

end Congr

/-- Links that are followed when an object is traced; none of them stands for a table. -/
def IsDirect : Link → Prop
  | .fields _ => False
  | _ => True

theorem isDirect_table_links {t : Table} {link : Link} (h : link ∈ t.links) : IsDirect link := by
  simp only [Table.links, List.mem_flatMap] at h
  obtain ⟨e, -, he⟩ := h
  cases hk : e.key <;> simp [hk] at he
  · subst he; trivial
  · rcases he with rfl | rfl <;> trivial

end Heap

namespace Heap

def withMarks (h : Heap) (marks : Loc → Bool) (gray : List Loc) (events : List Event) : Heap :=
  { h with
    objects := h.objects.mapIdx fun l o => { o with marked := marks l }
    gray, events }

variable {h : Heap} {marks marks' : Loc → Bool} {gray gray' : List Loc} {events events' : List Event}

theorem objects_withMarks (l : Loc) : (h.withMarks marks gray events).objects[l]? =
    h.objects[l]?.map fun o => { o with marked := marks l } := by
  simp [withMarks]

theorem find?_withMarks (ref : Ref) : (h.withMarks marks gray events).find? ref = h.find? ref := rfl

theorem isMarked_withMarks {l : Loc} {o : Object} (ho : h.objects[l]? = some o) :
    (h.withMarks marks gray events).isMarked l = marks l := by
  simp [isMarked, objects_withMarks, ho]

def addMark (marks : Loc → Bool) (l : Loc) : Loc → Bool :=
  fun k => marks k || k == l

theorem addMark_eq_true {l k : Loc} : addMark marks l k = true ↔ marks k = true ∨ k = l := by
  simp [addMark]

theorem update_withMarks (l : Loc) (events' : List Event) :
    { (h.withMarks marks gray events).update l (fun o => { o with marked := true }) with
      gray := l :: gray, events := events' } = h.withMarks (addMark marks l) (l :: gray) events' := by
  have ho : (h.objects.mapIdx fun l o => { o with marked := marks l }).modify l
      (fun o => { o with marked := true }) =
        h.objects.mapIdx fun k o => { o with marked := addMark marks l k } := by
    apply Array.ext_getElem?
    intro k
    rw [Array.getElem?_modify, Array.getElem?_mapIdx, Array.getElem?_mapIdx]
    by_cases hk : l = k
    · subst hk; cases h.objects[l]? <;> simp [addMark]
    · simp only [hk, ↓reduceIte]
      cases h.objects[k]? <;> simp [addMark, Ne.symm hk]
  simp only [withMarks, update]
  rw [ho]

def unmarked (h : Heap) (marks : Loc → Bool) : Nat :=
  (List.range h.objects.size).countP fun l => !marks l

theorem countP_addMark (marks : Loc → Bool) (l : Loc) (ls : List Loc) (hl : l ∈ ls)
    (hm : marks l = false) :
    (ls.countP fun k => !addMark marks l k) + 1 ≤ ls.countP fun k => !marks k := by
  induction ls with
  | nil => cases hl
  | cons k ks ih =>
    simp only [List.countP_cons]
    have hmono : (ks.countP fun k => !addMark marks l k) ≤ ks.countP fun k => !marks k := by
      apply List.countP_mono_left
      simp +contextual [addMark]
    rcases List.mem_cons.mp hl with rfl | hin
    · simp only [addMark, hm, beq_self_eq_true, Bool.or_true, Bool.not_true, Bool.not_false,
        Bool.false_eq_true, ↓reduceIte]
      simp only [addMark] at hmono
      omega
    · have := ih hin
      have hk : (if (!addMark marks l k) = true then 1 else 0) ≤ if (!marks k) = true then 1 else 0 := by
        cases hmk : marks k <;> simp [addMark, hmk]
        split <;> omega
      omega

theorem unmarked_addMark {l : Loc} (hl : l < h.objects.size) (hm : marks l = false) :
    h.unmarked (addMark marks l) + 1 ≤ h.unmarked marks :=
  countP_addMark marks l _ (List.mem_range.mpr hl) hm

/-- What marking a list of links does to the marks and the gray list. -/
structure Marks (h : Heap) (links : List Link) (marks marks' : Loc → Bool)
    (gray gray' : List Loc) : Prop where
  mono : ∀ l, marks l = true → marks' l = true
  gray_mono : ∀ l ∈ gray, l ∈ gray'
  fresh : ∀ l, marks' l = true → marks l = true ∨ l ∈ gray' ∧ ∃ link ∈ links, h.Leads link l
  gray_fresh : ∀ l ∈ gray', l ∈ gray ∨ marks' l = true
  targets : ∀ link ∈ links, ∀ l, h.Leads link l → marks' l = true
  potential : h.unmarked marks' + gray'.length ≤ h.unmarked marks + gray.length

theorem Marks.refl (links : List Link)
    (ht : ∀ link ∈ links, ∀ l, h.Leads link l → marks l = true) :
    h.Marks links marks marks gray gray where
  mono _ hl := hl
  gray_mono _ hl := hl
  fresh _ hl := .inl hl
  gray_fresh _ hl := .inl hl
  targets := ht
  potential := Nat.le_refl _

theorem Marks.cons {link : Link} {links : List Link} {marks₂ : Loc → Bool} {gray₂ : List Loc}
    (h₁ : h.Marks [link] marks marks' gray gray') (h₂ : h.Marks links marks' marks₂ gray' gray₂) :
    h.Marks (link :: links) marks marks₂ gray gray₂ where
  mono l hl := h₂.mono l (h₁.mono l hl)
  gray_mono l hl := h₂.gray_mono l (h₁.gray_mono l hl)
  fresh l hl := by
    rcases h₂.fresh l hl with hl | ⟨hg, k, hk, hkl⟩
    · rcases h₁.fresh l hl with hl | ⟨hg, k, hk, hkl⟩
      · exact .inl hl
      · exact .inr ⟨h₂.gray_mono l hg, k, by simp_all, hkl⟩
    · exact .inr ⟨hg, k, List.mem_cons_of_mem _ hk, hkl⟩
  gray_fresh l hl := by
    rcases h₂.gray_fresh l hl with hl | hl
    · rcases h₁.gray_fresh l hl with hl | hl
      · exact .inl hl
      · exact .inr (h₂.mono l hl)
    · exact .inr hl
  targets k hk l hl := by
    rcases List.mem_cons.mp hk with rfl | hk
    · exact h₂.mono l (h₁.targets k (by simp) l hl)
    · exact h₂.targets k hk l hl
  potential := Nat.le_trans h₂.potential h₁.potential

theorem Marks.of_object {l : Loc} {link : Link} (hlink : ∀ k, h.Leads link k ↔ k = l)
    (hm : h.Marks [.object l] marks marks' gray gray') : h.Marks [link] marks marks' gray gray' where
  mono := hm.mono
  gray_mono := hm.gray_mono
  fresh k hk := by
    rcases hm.fresh k hk with hk | ⟨hg, link', hmem, hl⟩
    · exact .inl hk
    · obtain rfl := List.mem_singleton.mp hmem
      cases hl
      exact .inr ⟨hg, link, by simp, (hlink _).mpr rfl⟩
  gray_fresh := hm.gray_fresh
  targets link' hmem k hk := by
    obtain rfl := List.mem_singleton.mp hmem
    rw [hlink] at hk
    subst hk
    exact hm.targets _ (by simp) _ (.object k)
  potential := hm.potential

end Heap

namespace HeapM

open Heap HeapView

variable {h : Heap} {marks : Loc → Bool} {gray : List Loc} {events : List Event} (r : Roots)

theorem markObject_eq (l : Loc) (h : Heap) : markObject l r h = match h.objects[l]? with
    | none => .error .missing h
    | some o =>
      if o.marked then .ok () h
      else if o.freed then .error .freedMark h
      else .ok () { (h.update l fun o => { o with marked := true }).log (.mark o.ref o.kind) with
        gray := l :: ((h.update l fun o => { o with marked := true }).log (.mark o.ref o.kind)).gray } := by
  simp only [markObject, run_bind, run_view, object_eq]
  cases h.objects[l]? with
  | none => rfl
  | some o =>
    by_cases hm : o.marked = true <;> by_cases hf : o.freed = true <;> simp [hm, hf] <;> rfl

theorem markObject_withMarks {l : Loc} (ha : h.Alive l) (marks : Loc → Bool) (gray : List Loc)
    (events : List Event) : ∃ marks' gray' events',
    markObject l r (h.withMarks marks gray events) = .ok () (h.withMarks marks' gray' events') ∧
      h.Marks [.object l] marks marks' gray gray' := by
  obtain ⟨o, ho, hf⟩ := ha
  rw [markObject_eq, objects_withMarks, ho]
  cases hm : marks l with
  | true =>
    refine ⟨marks, gray, events, by simp, .refl _ fun link hlink k hk => ?_⟩
    obtain rfl := List.mem_singleton.mp hlink
    cases hk
    exact hm
  | false =>
    have hlt : l < h.objects.size := (Array.getElem?_eq_some_iff.mp ho).1
    refine ⟨addMark marks l, l :: gray,
      if h.options.trace then .mark o.ref o.kind :: events else events, ?_, ?_⟩
    · simp only [Option.map_some, hf, Bool.false_eq_true, ↓reduceIte]
      congr 1
      rw [← update_withMarks]
      by_cases ht : h.options.trace = true
      · have ht' : ((h.withMarks marks gray events).update l
            fun o => { o with marked := true }).options.trace = true := ht
        simp only [log, ht', ht, ↓reduceIte]
        rfl
      · have ht' : ¬ ((h.withMarks marks gray events).update l
            fun o => { o with marked := true }).options.trace = true := ht
        simp only [log, ht', ht]
        rfl
    · have := unmarked_addMark hlt hm
      refine ⟨fun k hk => addMark_eq_true.mpr (.inl hk), fun k hk => by simp [hk], fun k hk => ?_,
        fun k hk => ?_, fun link hlink k hk => ?_, by simp only [List.length_cons]; omega⟩
      · rcases addMark_eq_true.mp hk with hk | rfl
        · exact .inl hk
        · exact .inr ⟨by simp, _, by simp, .object k⟩
      · rcases List.mem_cons.mp hk with rfl | hk
        · exact .inr (addMark_eq_true.mpr (.inr rfl))
        · exact .inl hk
      · obtain rfl := List.mem_singleton.mp hlink
        cases hk
        exact addMark_eq_true.mpr (.inr rfl)

theorem markObject_error {l : Loc} (hm : ∀ l, marks l = true → h.Alive l) (ha : ¬ h.Alive l) :
    ∃ e h', markObject l r (h.withMarks marks gray events) = .error e h' := by
  rw [markObject_eq, objects_withMarks]
  cases ho : h.objects[l]? with
  | none => exact ⟨_, _, rfl⟩
  | some o =>
    have hf : o.freed = true := by
      cases hf : o.freed with
      | true => rfl
      | false => exact absurd ⟨o, ho, hf⟩ ha
    have hl : marks l = false := by
      cases hl : marks l with
      | false => rfl
      | true => exact absurd (hm l hl) ha
    simp [hl, hf]

end HeapM

end Lox

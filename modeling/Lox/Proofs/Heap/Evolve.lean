import Lox.Proofs.Heap.Growth

namespace Lox

namespace Heap

variable {h h' h'' : Heap} {roots : List Link}

/-- No live object links to a freed one. -/
def Linked (h : Heap) : Prop :=
  ∀ l, h.Alive l → ∀ link ∈ h.linksAt l, h.Valid link

def AllCanonical (h : Heap) : Prop :=
  ∀ l, h.Alive l → ∀ v, .value v ∈ h.linksAt l → v.IsCanonical

theorem Linked.intact (hl : h.Linked) (hr : ∀ link ∈ roots, h.Valid link) : h.Intact roots := by
  refine ⟨hr, fun l hreach => hl l ?_⟩
  induction hreach with
  | root hm hlead => exact (hr _ hm).alive hlead
  | link _ hm hlead ih => exact (hl _ ih _ hm).alive hlead

theorem Linked.congr (hl : h.Linked) (ho : h'.objects = h.objects) (hs : h'.slots = h.slots) :
    h'.Linked := by
  intro l ha link hm
  rw [linksAt_congr ho] at hm
  exact (hl l (ha.congr ho.symm) link hm).congr ho hs

theorem AllCanonical.congr (hw : h.AllCanonical) (ho : h'.objects = h.objects) : h'.AllCanonical := by
  intro l ha v hm
  rw [linksAt_congr ho] at hm
  exact hw l (ha.congr ho.symm) v hm

structure Evolves (h : Heap) (roots : List Link) (h' : Heap) : Prop where
  kept : ∀ l, h.Reach roots l → h.Alive l → h'.objects[l]? = h.objects[l]?
  shrunk : ∀ (l : Loc) (o : Object), l < h.objects.size → h'.objects[l]? = some o →
    o.freed = false → h.objects[l]? = some o
  follows : ∀ l link k, l < h.objects.size → h'.Alive l → link ∈ h.linksAt l → h.Leads link k →
    h.Alive k → h'.Alive k
  linked : h.Linked → h'.Linked
  canonical : h.AllCanonical → h'.AllCanonical
  size : h.objects.size ≤ h'.objects.size
  consistent : h'.Consistent
  closed : h'.closed = h.closed
  markers : h'.markers = h.markers
  options : h'.options = h.options

theorem mem_linksAt_direct {l : Loc} {link : Link} (hm : link ∈ h.linksAt l) : IsDirect link := by
  unfold linksAt at hm
  cases ho : h.objects[l]? with
  | none => simp [ho] at hm
  | some o =>
    simp only [ho] at hm
    cases hb : o.body with
    | string chars hash => simp [hb, Body.links] at hm
    | function f =>
      simp only [hb, Body.links, List.mem_append, List.mem_map] at hm
      rcases hm with ⟨s, -, rfl⟩ | ⟨v, -, rfl⟩ <;> trivial
    | closure c =>
      simp only [hb, Body.links, List.mem_cons, List.mem_filterMap, Option.map_eq_some_iff] at hm
      rcases hm with rfl | ⟨u, -, k, -, rfl⟩ <;> trivial
    | upvalue u => cases u <;> simp [hb, Body.links] at hm; subst hm; trivial
    | native n => simp [hb, Body.links] at hm
    | class_ c =>
      simp only [hb, Body.links, List.mem_cons] at hm
      rcases hm with rfl | hm
      · trivial
      · exact isDirect_table_links hm
    | instance_ i =>
      simp only [hb, Body.links, List.mem_cons] at hm
      rcases hm with rfl | hm
      · trivial
      · exact isDirect_table_links hm
    | boundMethod b =>
      simp only [hb, Body.links, List.mem_cons, List.not_mem_nil, or_false] at hm
      rcases hm with rfl | rfl <;> trivial

theorem Valid.of_alive {link : Link} (hc : h.Consistent) (hc' : h'.Consistent)
    (hsame : ∀ (l : Loc) (o : Object), h.objects[l]? = some o → h'.Alive l → h'.objects[l]? = some o)
    (hd : IsDirect link) (hv : h.Valid link) (ha : ∀ l, h.Leads link l → h'.Alive l) :
    h'.Valid link := by
  cases hv with
  | plain hn => exact .plain hn
  | value ho hf _ =>
    have hl := ha _ (.value ho hf)
    obtain ⟨o, hobj, hof, hr⟩ := hc.ref_of_find? hf
    have hfind := hc'.find?_ref (hsame _ o hobj hl) hof
    rw [hr] at hfind
    exact .value ho hfind hl
  | object => exact .object (ha _ (.object _))
  | fields => exact absurd hd id

theorem Charged.object_of_alive (hch : h.Charged roots h') {l : Loc} {o : Object}
    (ho : h.objects[l]? = some o) (ha : h'.Alive l) : h'.objects[l]? = some o := by
  obtain ⟨o', ho', hf⟩ := ha
  have := hch.shrunk l o' ho' hf
  rw [ho] at this
  cases this
  exact ho'

theorem Charged.linked (hc : h.Consistent) (hch : h.Charged roots h') (hl : h.Linked) :
    h'.Linked := by
  intro l ⟨o, ho, hf⟩ link hm
  have ho₀ := hch.shrunk l o ho hf
  rw [show h'.linksAt l = h.linksAt l by simp only [linksAt, ho, ho₀]] at hm
  have hv := hl l ⟨o, ho₀, hf⟩ link hm
  exact hv.of_alive hc hch.consistent (fun _ _ => hch.object_of_alive) (mem_linksAt_direct hm)
    fun k hk => hch.follows l link k ⟨o, ho, hf⟩ hm hk (hv.alive hk)

theorem Charged.canonical (hch : h.Charged roots h') (hw : h.AllCanonical) : h'.AllCanonical := by
  intro l ⟨o, ho, hf⟩ v hm
  have ho₀ := hch.shrunk l o ho hf
  rw [show h'.linksAt l = h.linksAt l by simp only [linksAt, ho, ho₀]] at hm
  exact hw l ⟨o, ho₀, hf⟩ v hm

theorem Charged.evolves (hc : h.Consistent) (hch : h.Charged roots h') : h.Evolves roots h' where
  kept l hl _ := hch.kept l hl
  shrunk l o _ ho hf := hch.shrunk l o ho hf
  follows l link k _ := hch.follows l link k
  linked := hch.linked hc
  canonical := hch.canonical
  size := Nat.le_of_eq hch.size.symm
  consistent := hch.consistent
  closed := hch.closed
  markers := hch.markers
  options := hch.options

theorem Evolves.refl (hc : h.Consistent) : h.Evolves roots h where
  kept _ _ _ := rfl
  shrunk _ _ _ ho _ := ho
  follows _ _ _ _ _ _ _ ha := ha
  linked hl := hl
  canonical hw := hw
  size := Nat.le_refl _
  consistent := hc
  closed := rfl
  markers := rfl
  options := rfl

theorem Evolves.mono {roots' : List Link} (he : h.Evolves roots' h')
    (hsub : ∀ link ∈ roots, link ∈ roots') : h.Evolves roots h' :=
  { he with kept := fun l hl => he.kept l (hl.mono hsub) }

namespace Evolves

variable (he : h.Evolves roots h')

include he

theorem object_of_alive {l : Loc} {o : Object} (ho : h.objects[l]? = some o) (ha : h'.Alive l) :
    h'.objects[l]? = some o := by
  obtain ⟨o', ho', hf⟩ := ha
  have hlt := (Array.getElem?_eq_some_iff.mp ho).1
  have := he.shrunk l o' hlt ho' hf
  rw [ho] at this
  cases this
  exact ho'

theorem alive_of_reach {l : Loc} (hr : h.Reach roots l) (ha : h.Alive l) : h'.Alive l := by
  obtain ⟨o, ho, hf⟩ := ha
  exact ⟨o, by rw [he.kept l hr ⟨o, ho, hf⟩]; exact ho, hf⟩

theorem linksAt_of_reach (hi : h.Intact roots) {l : Loc} (hr : h.Reach roots l) :
    h'.linksAt l = h.linksAt l := by
  simp only [linksAt, he.kept l hr (hi.alive hr)]

variable (hc : h.Consistent)

include hc

theorem find?_of_alive {ref : Ref} {l : Loc} (hf : h.find? ref = some l) (ha : h'.Alive l) :
    h'.find? ref = some l := by
  obtain ⟨o, ho, hof, rfl⟩ := hc.ref_of_find? hf
  exact he.consistent.find?_ref (he.object_of_alive ho ha) hof

theorem leads {link : Link} {l : Loc} (hd : IsDirect link) (hl : h.Leads link l) (ha : h'.Alive l) :
    h'.Leads link l := by
  cases hl with
  | value ho hf => exact .value ho (he.find?_of_alive hc hf ha)
  | object l => exact .object l
  | fields => exact absurd hd id

theorem reach (hd : ∀ link ∈ roots, IsDirect link) (hi : h.Intact roots) {l : Loc}
    (hr : h.Reach roots l) : h'.Reach roots l := by
  induction hr with
  | root hm hl =>
    exact .root hm (he.leads hc (hd _ hm) hl
      (he.alive_of_reach (.root hm hl) ((hi.origin _ hm).alive hl)))
  | @link link k l hk hm hl ih =>
    have hr : h.Reach roots l := .link hk hm hl
    exact .link ih (by rwa [he.linksAt_of_reach hi hk]) (he.leads hc (mem_linksAt_direct hm) hl
      (he.alive_of_reach hr (hi.alive hr)))

theorem valid {link : Link} (hd : IsDirect link) (hv : h.Valid link)
    (ha : ∀ l, h.Leads link l → h'.Alive l) : h'.Valid link :=
  hv.of_alive hc he.consistent (fun _ _ => he.object_of_alive) hd ha

theorem leads_of_leads {link : Link} {l : Loc} (hd : IsDirect link) (hv : h.Valid link)
    (ha : ∀ l, h.Leads link l → h'.Alive l) (hl : h'.Leads link l) : h.Leads link l := by
  cases hl with
  | value ho hf =>
    cases hv with
    | plain hn => rw [ho] at hn; cases hn
    | value ho' hf' _ =>
      have := he.find?_of_alive hc hf' (ha _ (.value ho hf'))
      rw [hf] at this
      cases this
      exact .value ho hf'
  | object l => exact .object l
  | fields => exact absurd hd id

theorem reach_of_reach (hd : ∀ link ∈ roots, IsDirect link) (hi : h.Intact roots) {l : Loc}
    (hr : h'.Reach roots l) : h.Reach roots l := by
  have ha {k : Loc} (hk : h.Reach roots k) : h'.Alive k := he.alive_of_reach hk (hi.alive hk)
  induction hr with
  | root hm hl =>
    exact .root hm (he.leads_of_leads hc (hd _ hm) (hi.origin _ hm) (fun k hk => ha (.root hm hk)) hl)
  | link _ hm hl ih =>
    rw [he.linksAt_of_reach hi ih] at hm
    exact .link ih hm (he.leads_of_leads hc (mem_linksAt_direct hm) (hi.linked _ ih _ hm)
      (fun k hk => ha (.link ih hm hk)) hl)

theorem intact (hd : ∀ link ∈ roots, IsDirect link) (hi : h.Intact roots) : h'.Intact roots := by
  have ha {k : Loc} (hk : h.Reach roots k) : h'.Alive k := he.alive_of_reach hk (hi.alive hk)
  refine ⟨fun link hm => ?_, fun l hl link hm => ?_⟩
  · exact he.valid hc (hd _ hm) (hi.origin _ hm) fun k hk => ha (.root hm hk)
  · have hr := he.reach_of_reach hc hd hi hl
    rw [he.linksAt_of_reach hi hr] at hm
    exact he.valid hc (mem_linksAt_direct hm) (hi.linked _ hr _ hm) fun k hk => ha (.link hr hm hk)

theorem trans (hd : ∀ link ∈ roots, IsDirect link) (hi : h.Intact roots)
    (he' : h'.Evolves roots h'') : h.Evolves roots h'' where
  kept l hl ha :=
    (he'.kept l (he.reach hc hd hi hl) (he.alive_of_reach hl ha)).trans (he.kept l hl ha)
  shrunk l o hlt ho hf :=
    he.shrunk l o hlt (he'.shrunk l o (Nat.lt_of_lt_of_le hlt he.size) ho hf) hf
  follows l link k hlt hl hlink hlead hk := by
    obtain ⟨o, ho, hf⟩ := hl
    have ho' := he'.shrunk l o (Nat.lt_of_lt_of_le hlt he.size) ho hf
    have ho₀ := he.shrunk l o hlt ho' hf
    have hk' := he.follows l link k hlt ⟨o, ho', hf⟩ hlink hlead hk
    refine he'.follows l link k (Nat.lt_of_lt_of_le hlt he.size) ⟨o, ho, hf⟩ ?_
      (he.leads hc (mem_linksAt_direct hlink) hlead hk') hk'
    simp only [linksAt, ho'] at hlink ⊢
    simpa only [ho₀] using hlink
  linked hl := he'.linked (he.linked hl)
  canonical hw := he'.canonical (he.canonical hw)
  size := Nat.le_trans he.size he'.size
  consistent := he'.consistent
  closed := he'.closed.trans he.closed
  markers := he'.markers.trans he.markers
  options := he'.options.trans he.options

end Evolves

theorem Evolves.congr {h₁ h₂ : Heap} (he : h.Evolves roots h') (ho : h₁.objects = h.objects)
    (hs : h₁.slots = h.slots) (hcl : h₁.closed = h.closed) (hmk : h₁.markers = h.markers)
    (hop : h₁.options = h.options) (ho' : h₂.objects = h'.objects) (hs' : h₂.slots = h'.slots)
    (hcl' : h₂.closed = h'.closed) (hmk' : h₂.markers = h'.markers) (hop' : h₂.options = h'.options)
    (hc : h₂.Consistent) : h₁.Evolves roots h₂ where
  kept l hr ha := by
    rw [ho, ho']
    exact he.kept l (hr.congr ho.symm hs.symm) (ha.congr ho.symm)
  shrunk := by
    rw [ho, ho']
    exact he.shrunk
  follows l link k hlt hl hlink hlead ha := by
    rw [linksAt_congr ho] at hlink
    exact (he.follows l link k (ho ▸ hlt) (hl.congr ho'.symm) hlink (hlead.congr ho.symm hs.symm)
      (ha.congr ho.symm)).congr ho'
  linked hl := (he.linked (hl.congr ho.symm hs.symm)).congr ho' hs'
  canonical hw := (he.canonical (hw.congr ho.symm)).congr ho'
  size := by
    rw [ho, ho']
    exact he.size
  consistent := hc
  closed := by rw [hcl', he.closed, hcl]
  markers := by rw [hmk', he.markers, hmk]
  options := by rw [hop', he.options, hop]

theorem Intact.more {roots' : List Link} (hi : h.Intact roots)
    (hm : ∀ link ∈ roots', link ∈ roots ∨
      h.Valid link ∧ ∀ l, h.Leads link l → h.linksAt l = []) : h.Intact roots' := by
  have hr : ∀ l, h.Reach roots' l → h.Reach roots l ∨ h.linksAt l = [] := by
    intro l hl
    induction hl with
    | root hmem hlead =>
      rcases hm _ hmem with h₁ | ⟨-, h₁⟩
      · exact .inl (.root h₁ hlead)
      · exact .inr (h₁ _ hlead)
    | link _ hmem hlead ih =>
      rcases ih with ih | ih
      · exact .inl (.link ih hmem hlead)
      · rw [ih] at hmem
        cases hmem
  refine ⟨fun link hmem => ?_, fun l hl link hmem => ?_⟩
  · rcases hm _ hmem with h₁ | ⟨h₁, -⟩
    · exact hi.origin _ h₁
    · exact h₁
  · rcases hr l hl with h₁ | h₁
    · exact hi.linked l h₁ link hmem
    · rw [h₁] at hmem
      cases hmem

theorem evolves_link (hc : h.Consistent) {body : Body} (hlinks : ∀ link ∈ body.links, h.Valid link)
    (hwords : ∀ v, .value v ∈ body.links → v.IsCanonical) (size : Nat) (hroom : (h.link body size).2.slots.size ≤ 2 ^
    32) :
    h.Evolves roots (h.link body size).2 := by
  have hold : ∀ l, l < h.objects.size → (h.link body size).2.objects[l]? = h.objects[l]? := by
    intro l hl
    rw [objects_link, Array.getElem?_push, if_neg (by omega)]
  have hvalid {link : Link} (hd : IsDirect link) (hv : h.Valid link) :
      (h.link body size).2.Valid link := by
    refine hv.of_alive hc (hc.link body size hroom) (fun k p hp _ => ?_) hd
      fun k hk => (alive_link body size k).mpr (.inl (hv.alive hk))
    rw [hold k (Array.getElem?_eq_some_iff.mp hp).1, hp]
  have hnew (l : Loc) (o : Object) (ho : (h.link body size).2.objects[l]? = some o) :
      (h.objects[l]? = some o ∧ (h.link body size).2.linksAt l = h.linksAt l) ∨
        (h.link body size).2.linksAt l = body.links := by
    by_cases hlt : l < h.objects.size
    · have ho₀ := (hold l hlt).symm.trans ho
      exact .inl ⟨ho₀, by simp only [linksAt, ho, ho₀]⟩
    · rw [objects_link, Array.getElem?_push] at ho
      split at ho
      · next he =>
        rw [linksAt, objects_link, Array.getElem?_push, if_pos he]
        exact .inr rfl
      · rw [Array.getElem?_eq_none (Nat.le_of_not_lt hlt)] at ho
        cases ho
  refine
    { kept := fun l _ ha => hold l ha.lt
      shrunk := fun l o hlt ho _ => (hold l hlt).symm.trans ho
      follows := fun l link k _ _ _ _ ha => (alive_link body size k).mpr (.inl ha)
      linked := fun hl l ho link hm => ?_
      canonical := fun hw l ho v hm => ?_
      size := by rw [objects_link, Array.size_push]; omega
      consistent := hc.link body size hroom
      closed := closed_link body size
      markers := markers_link body size
      options := options_link body size }
  · obtain ⟨o, ho, hf⟩ := ho
    rcases hnew l o ho with ⟨ho₀, hsame⟩ | hsame
    · rw [hsame] at hm
      exact hvalid (mem_linksAt_direct hm) (hl l ⟨o, ho₀, hf⟩ link hm)
    · have hd := mem_linksAt_direct hm
      rw [hsame] at hm
      exact hvalid hd (hlinks link hm)
  · obtain ⟨o, ho, hf⟩ := ho
    rcases hnew l o ho with ⟨ho₀, hsame⟩ | hsame
    · rw [hsame] at hm
      exact hw l ⟨o, ho₀, hf⟩ v hm
    · rw [hsame] at hm
      exact hwords v hm

end Heap

end Lox

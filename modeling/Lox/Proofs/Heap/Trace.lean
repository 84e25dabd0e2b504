import Lox.Proofs.Heap.Mark

/-!
Tracing. Marked objects that are not gray have only marked targets; when the gray list is empty the
marks are exactly the objects that can be reached.
-/

namespace Lox

namespace HeapM

open Heap HeapView

variable {h : Heap} {marks : Loc → Bool} {gray : List Loc} {events : List Event} (r : Roots)

theorem markValue_eq (v : Value) (h : Heap) : markValue v r h =
    if v.isObject then
      match h.find? v.handle with
      | some l => markObject l r h
      | none => .error (.deadObject v.handle) h
    else .ok () h := by
  simp only [markValue, run_ite]
  split
  · rename_i ho
    simp only [run_bind, run_view, locOfValue_eq, ho, ↓reduceIte, Value.handle]
    cases h.find? v.bits.toUInt32 <;> rfl
  · rfl

theorem forM_markDirect {links : List Link} (hd : ∀ link ∈ links, IsDirect link) :
    links.forM markDirect = links.forM mark := by
  induction links with
  | nil => rfl
  | cons link links ih =>
    show (markDirect link >>= fun _ => links.forM markDirect) = mark link >>= fun _ => links.forM mark
    rw [ih fun k hk => hd k (List.mem_cons_of_mem _ hk)]
    cases link with
    | fields k => exact absurd (hd (.fields k) (by simp)) id
    | value v => rfl
    | object k => rfl

theorem markFields_eq (l : Loc) (h : Heap) : markFields l r h = match instanceAt l h with
    | .ok i => i.fields.links.forM mark r h
    | .error e => .error e h := by
  simp only [markFields, run_bind, run_view]
  cases instanceAt l h with
  | error e => rfl
  | ok i =>
    simp only []
    rw [forM_markDirect fun _ => isDirect_table_links]

theorem mark_direct_ok {link : Link} (hd : IsDirect link) (hv : h.Valid link) :
    ∃ marks' gray' events',
      mark link r (h.withMarks marks gray events) = .ok () (h.withMarks marks' gray' events') ∧
        h.Marks [link] marks marks' gray gray' := by
  cases hv with
  | fields => exact absurd hd id
  | object ha => exact markObject_withMarks r ha marks gray events
  | plain hn =>
    refine ⟨marks, gray, events, ?_, .refl _ fun link hlink k hk => ?_⟩
    · show markValue _ r _ = _
      rw [markValue_eq, if_neg (by simp [hn])]
    · obtain rfl := List.mem_singleton.mp hlink
      cases hk with | value ho => rw [hn] at ho; cases ho
  | @value v l ho hf ha =>
    obtain ⟨marks', gray', events', he, hm⟩ :=
      markObject_withMarks r ha marks gray events
    refine ⟨marks', gray', events', ?_, .of_object (fun k => ⟨fun hk => ?_, ?_⟩) hm⟩
    · show markValue _ r _ = _
      rw [markValue_eq, if_pos ho, find?_withMarks, hf]
      exact he
    · cases hk with | value _ hf' => rw [hf] at hf'; cases hf'; rfl
    · rintro rfl
      exact .value ho hf

theorem mark_direct_error {link : Link} (hd : IsDirect link)
    (hm : ∀ l, marks l = true → h.Alive l) (hv : ¬ h.Valid link) :
    ∃ e h', mark link r (h.withMarks marks gray events) = .error e h' := by
  cases link with
  | fields => exact absurd hd id
  | object l => exact markObject_error r hm fun ha => hv (.object ha)
  | value v =>
    show ∃ e h', markValue v r _ = .error e h'
    rw [markValue_eq]
    cases ho : v.isObject with
    | false => exact absurd (.plain ho) hv
    | true =>
      simp only [↓reduceIte, find?_withMarks]
      cases hf : h.find? v.handle with
      | none => exact ⟨_, _, rfl⟩
      | some l => exact markObject_error r hm fun ha => hv (.value ho hf ha)

theorem forM_of_mark_ok {links : List Link}
    (hlink : ∀ link ∈ links, ∀ marks gray events, ∃ marks' gray' events',
      mark link r (h.withMarks marks gray events) = .ok () (h.withMarks marks' gray' events') ∧
        h.Marks [link] marks marks' gray gray') (marks : Loc → Bool) (gray : List Loc)
    (events : List Event) : ∃ marks' gray' events',
      links.forM mark r (h.withMarks marks gray events) =
        .ok () (h.withMarks marks' gray' events') ∧ h.Marks links marks marks' gray gray' := by
  induction links generalizing marks gray events with
  | nil => exact ⟨marks, gray, events, rfl, .refl _ (by simp)⟩
  | cons link links ih =>
    obtain ⟨m₁, g₁, e₁, he₁, hm₁⟩ := hlink link (by simp) marks gray events
    obtain ⟨m₂, g₂, e₂, he₂, hm₂⟩ := ih (fun k hk => hlink k (List.mem_cons_of_mem _ hk)) m₁ g₁ e₁
    refine ⟨m₂, g₂, e₂, ?_, hm₁.cons hm₂⟩
    rw [run_forM_cons, he₁]
    exact he₂

theorem mark_ok {link : Link} (hv : h.Valid link) (marks : Loc → Bool) (gray : List Loc)
    (events : List Event) : ∃ marks' gray' events',
      mark link r (h.withMarks marks gray events) = .ok () (h.withMarks marks' gray' events') ∧
        h.Marks [link] marks marks' gray gray' := by
  by_cases hd : IsDirect link
  · exact mark_direct_ok r hd hv
  cases hv with
  | plain => exact absurd trivial hd
  | value => exact absurd trivial hd
  | object => exact absurd trivial hd
  | @fields k o i ho hb hall =>
    obtain ⟨marks', gray', events', he, hm⟩ := forM_of_mark_ok r
      (fun link (hlink : link ∈ i.fields.links) m g e =>
        mark_direct_ok r (isDirect_table_links hlink) (hall link hlink))
      marks gray events
    have hi : instanceAt k (h.withMarks marks gray events) = .ok i :=
      instanceAt_eq_ok.mpr ⟨{ o with marked := marks k }, by rw [objects_withMarks, ho]; rfl, hb⟩
    refine ⟨marks', gray', events', ?_, { hm with fresh := fun l hl => ?_, targets := fun link hlink l hl => ?_ }⟩
    · show markFields k r _ = _
      rw [markFields_eq, hi]
      exact he
    · rcases hm.fresh l hl with hl | ⟨hg, link, hmem, hlead⟩
      · exact .inl hl
      · exact .inr ⟨hg, _, by simp, .fields ho hb hmem hlead⟩
    · obtain rfl := List.mem_singleton.mp hlink
      cases hl with
      | fields ho' hb' hmem hlead =>
        rw [ho] at ho'
        cases ho'
        rw [hb] at hb'
        cases hb'
        exact hm.targets _ hmem l hlead

theorem forM_mark_error {links : List Link}
    (hlink : ∀ link ∈ links, ∀ marks gray events, (∀ l, marks l = true → h.Alive l) →
      ¬ h.Valid link → ∃ e h', mark link r (h.withMarks marks gray events) = .error e h')
    (hm : ∀ l, marks l = true → h.Alive l) (hv : ¬ ∀ link ∈ links, h.Valid link)
    (gray : List Loc) (events : List Event) :
    ∃ e h', links.forM mark r (h.withMarks marks gray events) = .error e h' := by
  induction links generalizing marks gray events with
  | nil => exact absurd (by simp) hv
  | cons link links ih =>
    rw [run_forM_cons]
    by_cases hl : h.Valid link
    · obtain ⟨m₁, g₁, e₁, he₁, hm₁⟩ := mark_ok r hl marks gray events
      rw [he₁]
      refine ih (fun k hk => hlink k (List.mem_cons_of_mem _ hk)) (fun l hm' => ?_)
        (fun hall => hv ?_) g₁ e₁
      · rcases hm₁.fresh l hm' with h' | ⟨-, k, hk, hlead⟩
        · exact hm l h'
        · obtain rfl := List.mem_singleton.mp hk
          exact hl.alive hlead
      · exact List.forall_mem_cons.mpr ⟨hl, hall⟩
    · obtain ⟨e, h', he⟩ := hlink link (by simp) marks gray events hm hl
      rw [he]
      exact ⟨e, h', rfl⟩

theorem mark_error {link : Link} (hm : ∀ l, marks l = true → h.Alive l) (hv : ¬ h.Valid link) :
    ∃ e h', mark link r (h.withMarks marks gray events) = .error e h' := by
  by_cases hd : IsDirect link
  · exact mark_direct_error r hd hm hv
  cases link with
  | value => exact absurd trivial hd
  | object => exact absurd trivial hd
  | fields k =>
    show ∃ e h', markFields k r _ = .error e h'
    rw [markFields_eq]
    cases hi : instanceAt k (h.withMarks marks gray events) with
    | error e => exact ⟨e, _, rfl⟩
    | ok i =>
      obtain ⟨o, ho, hb⟩ := instanceAt_eq_ok.mp hi
      rw [objects_withMarks] at ho
      obtain ⟨o', ho', rfl⟩ := Option.map_eq_some_iff.mp ho
      exact forM_mark_error r (fun link hlink m g e hm hv =>
        mark_direct_error r (isDirect_table_links hlink) hm hv) hm
        (fun hall => hv (.fields ho' hb hall)) gray events

structure Tracing (h : Heap) (roots : List Link) (marks : Loc → Bool) (gray : List Loc) : Prop where
  reach : ∀ l, marks l = true → h.Reach roots l
  alive : ∀ l, marks l = true → h.Alive l
  origin : ∀ link ∈ roots, h.Valid link ∧ ∀ l, h.Leads link l → marks l = true
  marked : ∀ l ∈ gray, marks l = true
  black : ∀ l, marks l = true → l ∉ gray → ∀ link ∈ h.linksAt l,
    h.Valid link ∧ ∀ k, h.Leads link k → marks k = true

theorem forM_mark_origins {roots : List Link} (events : List Event) :
    (∀ link ∈ roots, h.Valid link) → ∃ marks gray events',
      roots.forM mark r (h.withMarks (fun _ => false) [] events) =
        .ok () (h.withMarks marks gray events') ∧ Tracing h roots marks gray ∧
          h.unmarked marks + gray.length ≤ h.objects.size := by
  intro hv
  obtain ⟨marks, gray, events', he, hm⟩ := forM_of_mark_ok r (fun link hl => mark_ok r (hv link hl))
    (fun _ => false) [] events
  have hroot : ∀ l, marks l = true → l ∈ gray ∧ ∃ link ∈ roots, h.Leads link l := fun l hl =>
    (hm.fresh l hl).resolve_left (by simp)
  refine ⟨marks, gray, events', he, ⟨fun l hl => ?_, fun l hl => ?_, fun link hlink => ?_,
    fun l hl => ?_, fun l hl hg => absurd (hroot l hl).1 hg⟩, ?_⟩
  · obtain ⟨-, link, hmem, hlead⟩ := hroot l hl
    exact .root hmem hlead
  · obtain ⟨-, link, hmem, hlead⟩ := hroot l hl
    exact (hv link hmem).alive hlead
  · exact ⟨hv link hlink, hm.targets link hlink⟩
  · exact (hm.gray_fresh l hl).resolve_left (by simp)
  · have hle : h.unmarked (fun _ => false) ≤ h.objects.size := by
      have := List.countP_le_length (p := fun l => !(fun _ => false) l)
        (l := List.range h.objects.size)
      rwa [List.length_range] at this
    exact Nat.le_trans hm.potential (by simpa using hle)

theorem blacken_eq {l : Loc} {o : Object} (ho : h.objects[l]? = some o) :
    blacken l r (h.withMarks marks gray events) = (o.body.links.forM mark) r
      (h.withMarks marks gray.tail
        (if h.options.trace then .blacken o.ref o.kind :: events else events)) := by
  have hobj : object l (h.withMarks marks gray events) = .ok { o with marked := marks l } :=
    object_eq_ok.mpr (by rw [objects_withMarks, ho]; rfl)
  simp only [blacken, run_bind, run_view, hobj, run_modify]
  by_cases ht : h.options.trace = true
  · have ht' : (h.withMarks marks gray events).options.trace = true := ht
    simp only [Heap.log, ht', ht, ↓reduceIte]
    rfl
  · have ht' : ¬ (h.withMarks marks gray events).options.trace = true := ht
    simp only [Heap.log, ht', ht]
    rfl

theorem linksAt_eq {l : Loc} {o : Object} (ho : h.objects[l]? = some o) :
    h.linksAt l = o.body.links := by
  simp [linksAt, ho]

theorem Tracing.step {roots : List Link} {l : Loc} (ht : Tracing h roots marks (l :: gray))
    (events : List Event) :
    (∀ link ∈ h.linksAt l, h.Valid link) → ∃ marks' gray' events',
      blacken l r (h.withMarks marks (l :: gray) events) = .ok () (h.withMarks marks' gray' events') ∧
        Tracing h roots marks' gray' ∧
          h.unmarked marks' + gray'.length < h.unmarked marks + (l :: gray).length := by
  intro hv
  obtain ⟨o, ho, -⟩ := ht.alive l (ht.marked l (by simp))
  rw [blacken_eq r ho]
  rw [linksAt_eq ho] at hv
  obtain ⟨marks', gray', events', he, hm⟩ := forM_of_mark_ok r (fun link hl => mark_ok r (hv link hl))
    marks gray (if h.options.trace then .blacken o.ref o.kind :: events else events)
  refine ⟨marks', gray', events', he, ⟨fun k hk => ?_, fun k hk => ?_, fun link hlink => ?_,
    fun k hk => ?_, fun k hk hg link hlink => ?_⟩, ?_⟩
  · rcases hm.fresh k hk with hk | ⟨-, link, hmem, hlead⟩
    · exact ht.reach k hk
    · exact .link (ht.reach l (ht.marked l (by simp))) (by rw [linksAt_eq ho]; exact hmem) hlead
  · rcases hm.fresh k hk with hk | ⟨-, link, hmem, hlead⟩
    · exact ht.alive k hk
    · exact (hv link hmem).alive hlead
  · exact ⟨(ht.origin link hlink).1, fun k hk => hm.mono k ((ht.origin link hlink).2 k hk)⟩
  · rcases hm.gray_fresh k hk with hk | hk
    · exact hm.mono k (ht.marked k (List.mem_cons_of_mem _ hk))
    · exact hk
  · rcases hm.fresh k hk with hk | ⟨hg', -⟩
    · by_cases hkl : k = l
      · subst hkl
        rw [linksAt_eq ho] at hlink
        exact ⟨hv link hlink, hm.targets link hlink⟩
      · have hng : k ∉ l :: gray := by
          simp only [List.mem_cons, hkl, false_or]
          exact fun hin => hg (hm.gray_mono k hin)
        have := ht.black k hk hng link hlink
        exact ⟨this.1, fun j hj => hm.mono j (this.2 j hj)⟩
    · exact absurd hg' hg
  · have := hm.potential
    simp only [List.length_cons]
    omega

theorem traceGray_succ (fuel : Nat) (h : Heap) : traceGray (fuel + 1) r h = match h.gray with
    | [] => .ok () h
    | l :: _ => match blacken l r h with
      | .ok _ h => traceGray fuel r h
      | .error e h => .error e h := by
  simp only [traceGray, run_bind, run_getHeap]
  cases h.gray with
  | nil => rfl
  | cons l gray =>
    simp only [run_bind]
    cases blacken l r h <;> rfl

theorem gray_withMarks : (h.withMarks marks gray events).gray = gray := rfl

theorem Tracing.run {roots : List Link} (hi : h.Intact roots) (fuel : Nat) (marks : Loc → Bool)
    (gray : List Loc) (events : List Event) (ht : Tracing h roots marks gray)
    (hf : h.unmarked marks + gray.length ≤ fuel) : ∃ marks' events',
      traceGray fuel r (h.withMarks marks gray events) = .ok () (h.withMarks marks' [] events') ∧
        Tracing h roots marks' [] := by
  induction fuel generalizing marks gray events with
  | zero =>
    obtain rfl : gray = [] := List.length_eq_zero_iff.mp (by omega)
    exact ⟨marks, events, rfl, ht⟩
  | succ fuel ih =>
    rw [traceGray_succ, gray_withMarks]
    cases gray with
    | nil => exact ⟨marks, events, rfl, ht⟩
    | cons l gray =>
      obtain ⟨marks', gray', events', he, ht', hlt⟩ :=
        ht.step r events (hi.linked l (ht.reach l (ht.marked l (by simp))))
      simp only [he]
      exact ih marks' gray' events' ht' (by omega)

theorem Tracing.intact_of_run {roots : List Link} (fuel : Nat) (marks : Loc → Bool)
    (gray : List Loc) (events : List Event) (ht : Tracing h roots marks gray)
    (hf : h.unmarked marks + gray.length ≤ fuel) {h' : Heap}
    (hrun : traceGray fuel r (h.withMarks marks gray events) = .ok () h') : h.Intact roots := by
  have hdone (marks : Loc → Bool) (ht : Tracing h roots marks []) : h.Intact roots := by
    have hmarked : ∀ l, h.Reach roots l → marks l = true := by
      intro l hl
      induction hl with
      | root hm hl => exact (ht.origin _ hm).2 _ hl
      | link _ hm hl ih => exact (ht.black _ ih (by simp) _ hm).2 _ hl
    exact ⟨fun link hl => (ht.origin link hl).1, fun l hl link hlink =>
      (ht.black l (hmarked l hl) (by simp) link hlink).1⟩
  induction fuel generalizing marks gray events with
  | zero =>
    obtain rfl : gray = [] := List.length_eq_zero_iff.mp (by omega)
    exact hdone marks ht
  | succ fuel ih =>
    rw [traceGray_succ, gray_withMarks] at hrun
    cases gray with
    | nil => exact hdone marks ht
    | cons l gray =>
      obtain ⟨o, ho, -⟩ := ht.alive l (ht.marked l (by simp))
      by_cases hv : ∀ link ∈ h.linksAt l, h.Valid link
      · obtain ⟨marks', gray', events', he, ht', hlt⟩ := ht.step r events hv
        simp only [he] at hrun
        exact ih marks' gray' events' ht' (by omega) hrun
      · rw [linksAt_eq ho] at hv
        obtain ⟨e, h'', he⟩ := forM_mark_error r
          (fun link _ m g e hm hv => mark_error r hm hv) ht.alive hv gray
          (if h.options.trace then .blacken o.ref o.kind :: events else events)
        simp only [blacken_eq r ho, List.tail_cons, he] at hrun
        cases hrun

theorem Tracing.marks_iff {roots : List Link} (ht : Tracing h roots marks []) (l : Loc) :
    marks l = true ↔ h.Reach roots l := by
  refine ⟨ht.reach l, fun hl => ?_⟩
  induction hl with
  | root hm hl => exact (ht.origin _ hm).2 _ hl
  | link _ hm hl ih => exact (ht.black _ ih (by simp) _ hm).2 _ hl

end HeapM

end Lox

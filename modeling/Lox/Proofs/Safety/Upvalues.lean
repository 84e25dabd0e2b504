import Lox.Proofs.Safety.Operate

namespace Lox

namespace IdealM

variable {slot u n v last : Nat} {us : List (Nat × Nat)}

theorem mem_insertUpvalue : (n, v) ∈ insertUpvalue slot u us ↔ (n = slot ∧ v = u) ∨ (n, v) ∈ us := by
  induction us with
  | nil => simp [insertUpvalue]
  | cons w rest ih =>
    unfold insertUpvalue
    split
    · rw [List.mem_cons, ih, List.mem_cons]
      tauto
    · rw [List.mem_cons, Prod.mk.injEq]

theorem descending_insertUpvalue (h : us.Pairwise fun v w => w.1 < v.1) (hslot : ∀ w ∈ us, w.1 ≠ slot) :
    (insertUpvalue slot u us).Pairwise fun v w => w.1 < v.1 := by
  induction us with
  | nil => exact List.pairwise_singleton _ _
  | cons w rest ih =>
    rw [List.pairwise_cons] at h
    have hne := hslot w (.head _)
    unfold insertUpvalue
    split
    · rename_i hlt
      rw [List.pairwise_cons]
      refine ⟨fun x hx => ?_, ih h.2 fun x hx => hslot x (.tail _ hx)⟩
      obtain ⟨n, v⟩ := x
      rcases mem_insertUpvalue.mp hx with ⟨rfl, -⟩ | hx
      · exact hlt
      · exact h.1 _ hx
    · rw [List.pairwise_cons, List.pairwise_cons]
      refine ⟨fun x hx => ?_, h⟩
      rcases List.mem_cons.mp hx with rfl | hx
      · show x.1 < slot
        omega
      · have := h.1 x hx
        show x.1 < slot
        omega

end IdealM

structure Facts.Uses (Γ : Facts) (upvalues c u : Nat) (m : Mark) : Prop where
  lt : u < upvalues
  mark : Γ.mark u = m
  superclass : m = .superclass → ∃ k, Γ.home c = some k ∧ Γ.lineage.parent k = some (Γ.superclass u)

theorem Facts.Waiting.base_lt {Γ : Facts} {objects : List (Obj Routine)} {frames : List Activation}
    {below : List Slot} (h : Γ.Waiting objects frames below) : ∀ f ∈ frames, f.base < below.length := by
  induction h with
  | nil => nofun
  | cons _ _ hslots _ hbase _ ih =>
    intro g hg
    have := List.length_pos_of_ne_nil hslots
    rw [List.length_append]
    rcases List.mem_cons.mp hg with rfl | hg
    · omega
    · have := ih g hg
      omega

def Facts.capture (Γ : Facts) (u : Nat) (m : Mark) (k : Nat) : Facts :=
  { Γ with mark := Function.update Γ.mark u m, superclass := Function.update Γ.superclass u k }

namespace Facts

variable (Γ : Facts) (u : Nat) (m : Mark) (k : Nat) {v : Nat} {objects : List (Obj Routine)} {upvalues : Nat}

@[simp] theorem mark_capture : (Γ.capture u m k).mark u = m :=
  Function.update_self ..

@[simp] theorem superclass_capture : (Γ.capture u m k).superclass u = k :=
  Function.update_self ..

theorem mark_capture_of_ne (hv : v ≠ u) : (Γ.capture u m k).mark v = Γ.mark v :=
  Function.update_of_ne hv _ _

theorem superclass_capture_of_ne (hv : v ≠ u) : (Γ.capture u m k).superclass v = Γ.superclass v :=
  Function.update_of_ne hv _ _

theorem extends_capture : Γ.Extends (Γ.capture upvalues m k) objects upvalues where
  listing _ _ := rfl
  home _ _ := rfl
  mark _ hv := Γ.mark_capture_of_ne _ _ _ (Nat.ne_of_lt hv)
  superclass _ hv := Γ.superclass_capture_of_ne _ _ _ (Nat.ne_of_lt hv)
  parent _ _ := id
  unfinished _ _ := Iff.rfl
  bodies := rfl

end Facts

namespace Ideal

theorem Typed.capture {Γ : Facts} {i : Ideal} {c n k : Nat} {slots : List Slot} {x : Slot} (h : i.Typed Γ c slots)
    (hx : slots.reverse[n]? = some x) (hheld : x.held = true) (hnew : ∀ w ∈ i.openUpvalues, w.1 ≠ n)
    (hk : x.content.mark = .superclass → i.stack[n]? = some (.object k)) :
    ({ i with
      upvalues := i.upvalues ++ [.slot n]
      openUpvalues := IdealM.insertUpvalue n i.upvalues.length i.openUpvalues } : Ideal).Typed
        (Γ.capture i.upvalues.length x.content.mark k) c slots := by
  have hextends : Γ.Extends (Γ.capture i.upvalues.length x.content.mark k) i.objects i.upvalues.length :=
    Γ.extends_capture _ _
  have hlt {m u : Nat} (hu : (m, u) ∈ i.openUpvalues) : u < i.upvalues.length :=
    (List.getElem?_eq_some_iff.mp ((h.listed m u).mpr hu)).1
  constructor
  · exact h.values
  · exact h.firsts
  · intro a o ha
    exact (h.objects a o ha).extends ha hextends (.refl _) (by simp)
  · exact h.genuine.same rfl rfl rfl rfl rfl rfl
  · intro u v hu hs
    by_cases hu' : u < i.upvalues.length
    · rw [List.getElem?_append_left hu'] at hu
      rw [hextends.mark u hu'] at hs
      rw [hextends.superclass u hu']
      exact h.closed u v hu hs
    · rw [List.getElem?_append_right (Nat.not_lt.mp hu')] at hu
      cases hd : u - i.upvalues.length with
      | zero =>
        rw [hd] at hu
        cases hu
      | succ d =>
        rw [hd] at hu
        cases hu
  · intro m u
    show (i.upvalues ++ [Captured.slot n])[u]? = _ ↔ _ ∈ IdealM.insertUpvalue _ _ _
    rw [IdealM.mem_insertUpvalue, ← h.listed m u]
    by_cases hu' : u < i.upvalues.length
    · rw [List.getElem?_append_left hu']
      exact ⟨.inr, fun hm => hm.resolve_left fun he => Nat.ne_of_lt hu' he.2⟩
    · have hnone : i.upvalues[u]? = none := List.getElem?_eq_none (Nat.not_lt.mp hu')
      rw [hnone, List.getElem?_append_right (Nat.not_lt.mp hu')]
      cases hd : u - i.upvalues.length with
      | zero =>
        have hu : u = i.upvalues.length := by omega
        simp [hu, eq_comm]
      | succ d => simp; omega
  · exact IdealM.descending_insertUpvalue h.descending hnew
  · intro m u hu
    rcases IdealM.mem_insertUpvalue.mp hu with ⟨rfl, rfl⟩ | hu
    · refine ⟨x, hx, hheld, (Γ.mark_capture ..).symm, fun hs => ?_⟩
      rw [Γ.mark_capture] at hs
      rw [Γ.superclass_capture]
      exact hk hs
    · rw [hextends.mark u (hlt hu), hextends.superclass u (hlt hu)]
      exact h.held m u hu

theorem Typed.close {Γ : Facts} {i : Ideal} {c n u : Nat} {slots : List Slot} {v : Val} {rest : List (Nat × Nat)}
    (h : i.Typed Γ c slots) (hopen : i.openUpvalues = (n, u) :: rest) (hv : i.stack[n]? = some v) :
    ({ i with upvalues := i.upvalues.set u (.closed v), openUpvalues := rest } : Ideal).Typed Γ c slots where
  values := h.values
  firsts := h.firsts
  objects a o ha := by
    have hlength : (i.upvalues.set u (.closed v)).length = i.upvalues.length := List.length_set
    rw [hlength]
    exact h.objects a o ha
  genuine := h.genuine
  closed u' v' hu' hs := by
    by_cases hne : u = u'
    · subst hne
      have hlt : u < i.upvalues.length := by simpa using (List.getElem?_eq_some_iff.mp hu').1
      rw [List.getElem?_set_self hlt] at hu'
      cases hu'
      obtain ⟨-, -, -, -, hsuper⟩ := h.held n u (by rw [hopen]; exact .head _)
      rw [hsuper hs] at hv
      exact (Option.some.inj hv).symm
    · rw [List.getElem?_set_ne hne] at hu'
      exact h.closed u' v' hu' hs
  listed m u' := by
    have hslot : i.upvalues[u]? = some (.slot n) := (h.listed n u).mpr (by rw [hopen]; exact .head _)
    have hdescending := h.descending
    rw [hopen, List.pairwise_cons] at hdescending
    by_cases hne : u = u'
    · subst hne
      show (i.upvalues.set u _)[u]? = _ ↔ _
      rw [List.getElem?_set_self (List.getElem?_eq_some_iff.mp hslot).1]
      refine ⟨nofun, fun hm => ?_⟩
      have hslot' := (h.listed m u).mpr (by rw [hopen]; exact .tail _ hm)
      rw [hslot] at hslot'
      cases hslot'
      exact absurd (hdescending.1 _ hm) (Nat.lt_irrefl _)
    · show (i.upvalues.set u _)[u']? = _ ↔ _
      rw [List.getElem?_set_ne hne, h.listed m u', hopen, List.mem_cons, Prod.mk.injEq]
      exact ⟨fun hm => hm.resolve_left fun h => hne h.2.symm, .inr⟩
  descending := by
    have := h.descending
    rw [hopen, List.pairwise_cons] at this
    exact this.2
  held m u' hm := h.held m u' (by rw [hopen]; exact .tail _ hm)

theorem Typed.release {Γ : Facts} {i : Ideal} {c : Nat} {slots : List Slot} {x : Slot} (h : i.Typed Γ c (x :: slots))
    (hlow : ∀ w ∈ i.openUpvalues, w.1 < slots.length) (hbase : ∀ f ∈ i.frames, f.base < slots.length) :
    i.Typed Γ c (⟨x.content, false⟩ :: slots) := by
  have hsame {n : Nat} (y : Slot) (hn : n < slots.length) : (y :: slots).reverse[n]? = slots.reverse[n]? := by
    rw [List.reverse_cons, List.getElem?_append_left (by rwa [List.length_reverse])]
  refine { h with values := ?_, firsts := ?_, held := fun n u hu => ?_ }
  · have hvalues := h.values
    generalize i.stack.reverse = vs at hvalues ⊢
    cases hvalues with
    | cons hv hvs => exact .cons hv hvs
  · have hfirsts := h.firsts
    generalize Γ.firsts = firsts at hfirsts ⊢
    refine List.forall₂_iff_zip.mpr ⟨hfirsts.length_eq, fun {f v} hfv => ?_⟩
    obtain ⟨hv, hslot⟩ := (List.forall₂_iff_zip.mp hfirsts).2 hfv
    have hlt := hbase f (List.of_mem_zip hfv).1
    rw [hsame _ hlt] at hslot ⊢
    exact ⟨hv, hslot⟩
  · have hlt := hlow _ hu
    have := h.held n u hu
    rwa [hsame _ hlt] at this ⊢

namespace Running

open IdealM

variable {Γ : Facts} {i : Ideal} {f : Activation} {rest : List Activation} {p : Prototype} {a : Sheet} {s : Shape}
    {slots below : List Slot}
  {known : Option Underway} {x : Slot} {v : Val} {m : Mark} {j n u last : Nat} {c : Content}

theorem base_le (h : i.Running Γ f rest p a s below) : ∀ g ∈ i.frames, g.base ≤ below.length := by
  rw [h.frames]
  intro g hg
  rcases List.mem_cons.mp hg with rfl | hg
  · exact Nat.le_of_eq h.base
  · exact Nat.le_of_lt (h.waiting.base_lt g hg)

theorem captured (h : i.Running Γ f rest p a s below) (hm : (Γ.listing f.closure).marks[j]? = some m) :
    ∃ r u, i.objects[f.closure]? = some (.closure r) ∧ r.captures[j]? = some (some u) ∧
      Γ.Uses i.upvalues.length f.closure u m := by
  obtain ⟨r, hr, -⟩ := h.knows.closure
  obtain ⟨-, -, -, hlength, hcaptures, hfinished⟩ := h.typed.objects _ _ hr
  have hlt : j < r.captures.length := by
    rw [hlength]
    exact (List.getElem?_eq_some_iff.mp hm).1
  have hget := List.getElem?_eq_getElem hlt
  cases hu : r.captures[j] with
  | none => exact absurd (hu ▸ List.getElem_mem hlt) (hfinished h.knows.finished)
  | some u =>
    rw [hu] at hget
    obtain ⟨hlt', hmark, hsuper⟩ := hcaptures j u hget
    rw [hm] at hmark
    cases hmark
    exact ⟨r, u, hr, hget, hlt', rfl, hsuper⟩

theorem readCaptured (h : i.Running Γ f rest p a s below) (hm : (Γ.listing f.closure).marks[j]? = some m) (hj : j < 256)
    (hb : p.Ahead f.ip (Operand.byte j).bytes) : ∃ u, IdealM.readCaptured i = .ok u (i.moved (f.ip + 1)) ∧
      Γ.Uses i.upvalues.length f.closure u m ∧
      (i.moved (f.ip + 1)).Running Γ { f with ip := f.ip + 1 } rest p a s below := by
  obtain ⟨hread, hnat, hrunning⟩ := h.readOperand hj hb
  obtain ⟨r, u, hr, hget, huses⟩ := h.captured hm
  refine ⟨u, ?_, huses, hrunning⟩
  unfold IdealM.readCaptured
  rw [runBind, hread]
  dsimp only
  rw [runBind, frame_eq hrunning.frames]
  dsimp only
  rw [runBind, closureAt_eq (i := i.moved (f.ip + 1)) hr]
  dsimp only
  rw [hnat, hget]
  rfl

theorem readUpvalue (h : i.Running Γ f rest p a s below) (hu : u < i.upvalues.length) :
    ∃ v, IdealM.readUpvalue u i = .ok v i ∧ (Γ.mark u = .superclass → v = .object (Γ.superclass u)) := by
  have hget := List.getElem?_eq_getElem hu
  unfold IdealM.readUpvalue
  cases hcase : i.upvalues[u] with
  | slot n =>
    rw [hcase] at hget
    obtain ⟨x, hx, -, -, hsuper⟩ := h.typed.held n u ((h.typed.listed n u).mp hget)
    obtain ⟨v, hread, hv, -⟩ := h.readSlot hx
    refine ⟨v, ?_, fun hs => ?_⟩
    · rw [runBind]
      simp only [runGet, hget]
      exact hread
    · rw [hsuper hs] at hv
      exact (Option.some.inj hv).symm
  | closed v =>
    rw [hcase] at hget
    refine ⟨v, ?_, h.typed.closed u v hget⟩
    rw [runBind]
    simp only [runGet, hget]
    rfl

theorem getUpvalue (h : i.Running Γ f rest p a s below) (hm : (Γ.listing f.closure).marks[j]? = some m)
    (hc : c = .any ∨ c = .parent ∧ m = .superclass) (hj : j < 256) (hb : p.Ahead f.ip (Operand.byte j).bytes) :
    Safe i IdealM.getUpvalue fun _ i' =>
      i'.Running Γ { f with ip := f.ip + 1 } rest p a ⟨⟨c, false⟩ :: s.slots, s.known⟩ below := by
  obtain ⟨u, hread, huses, hrunning⟩ := h.readCaptured hm hj hb
  obtain ⟨v, hread', hsuper⟩ := hrunning.readUpvalue huses.lt
  refine .step hread (.step hread' (hrunning.safe_push ?_ fun _ => id))
  rcases hc with rfl | ⟨rfl, rfl⟩
  · trivial
  · obtain ⟨k, hk, hparent⟩ := huses.superclass rfl
    exact ⟨k, _, hsuper huses.mark, hk, hparent⟩

theorem writeUpvalue (h : i.Running Γ f rest p a s below) (hu : u < i.upvalues.length) (hmark : Γ.mark u = .plain)
    (hcalm : ∀ x ∈ s.slots, x.Calm) (v : Val) :
    Safe i (IdealM.writeUpvalue u v) fun _ i' => i'.Running Γ f rest p a s below := by
  have hget := List.getElem?_eq_getElem hu
  unfold IdealM.writeUpvalue
  refine .step rfl (.some hget ?_)
  cases hcase : i.upvalues[u] with
  | slot n =>
    rw [hcase] at hget
    obtain ⟨⟨c, held⟩, hx, -, hplain, -⟩ := h.typed.held n u ((h.typed.listed n u).mp hget)
    rw [hmark] at hplain
    have hany : c = .any := by
      have hmem := List.mem_reverse.mp (List.mem_of_getElem? hx)
      have : (⟨c, held⟩ : Slot).Calm := by
        rcases List.mem_append.mp hmem with hmem | hmem
        · exact hcalm _ hmem
        · exact h.waiting.calm _ hmem
      rcases this with hc | hc
      · exact hc
      · subst hc
        cases hplain
    subst hany
    obtain ⟨hwrite, hrunning⟩ := h.writeSlot hx v
    exact .of_eq hwrite hrunning
  | closed w =>
    rw [hcase] at hget
    refine { h with typed := { h.typed with objects := ?_, closed := ?_, listed := ?_ } }
    · intro b o hb
      have hlength : (i.upvalues.set u (.closed v)).length = i.upvalues.length := List.length_set
      rw [hlength]
      exact h.typed.objects b o hb
    · intro u' v' hu' hs
      by_cases hne : u = u'
      · subst hne
        rw [hmark] at hs
        cases hs
      · exact h.typed.closed u' v' (by rwa [← List.getElem?_set_ne hne]) hs
    · intro n u'
      show (i.upvalues.set u _)[u']? = _ ↔ _
      by_cases hne : u = u'
      · subst hne
        rw [List.getElem?_set_self hu, ← h.typed.listed n u, hget]
        exact ⟨nofun, nofun⟩
      · rw [List.getElem?_set_ne hne]
        exact h.typed.listed n u'

theorem setUpvalue (h : i.Running Γ f rest p a ⟨x :: slots, none⟩ below)
    (hm : (Γ.listing f.closure).marks[j]? = some .plain) (hcalm : ∀ y ∈ x :: slots, y.Calm) (hj : j < 256)
    (hb : p.Ahead f.ip (Operand.byte j).bytes) : Safe i IdealM.setUpvalue fun _ i' =>
      i'.Running Γ { f with ip := f.ip + 1 } rest p a ⟨x :: slots, none⟩ below := by
  obtain ⟨u, hread, huses, hrunning⟩ := h.readCaptured hm hj hb
  obtain ⟨v, hpeek, -, -⟩ := hrunning.peek (d := 0) rfl
  exact .step hread (.step hpeek (hrunning.writeUpvalue huses.lt huses.mark hcalm v))

theorem captureUpvalue (h : i.Running Γ f rest p a s below) (hx : (s.slots ++ below).reverse[n]? = some x)
    (hheld : x.held = true) : ∃ u mark superclass upvalues opened,
      IdealM.captureUpvalue n i = .ok u { i with upvalues, openUpvalues := opened } ∧
      Γ.Extends { Γ with mark, superclass } i.objects i.upvalues.length ∧
      ({ i with upvalues, openUpvalues := opened } : Ideal).Running { Γ with mark, superclass } f rest p a s below ∧
      u < upvalues.length ∧ mark u = x.content.mark ∧
      (x.content.mark = .superclass → i.stack[n]? = some (.object (superclass u))) := by
  unfold IdealM.captureUpvalue
  rw [runBind]
  simp only [runGet]
  cases hfind : i.openUpvalues.find? (·.1 == n) with
  | some w =>
    obtain ⟨n', u⟩ := w
    obtain rfl : n' = n := by simpa using List.find?_some hfind
    have hopen := List.mem_of_find?_eq_some hfind
    obtain ⟨y, hy, -, hmark, hsuper⟩ := h.typed.held n' u hopen
    rw [hx] at hy
    cases hy
    refine ⟨u, Γ.mark, Γ.superclass, i.upvalues, i.openUpvalues, rfl, .refl _ _ _, h, ?_, hmark.symm, fun hs =>
      hsuper (hmark ▸ hs)⟩
    exact (List.getElem?_eq_some_iff.mp ((h.typed.listed n' u).mpr hopen)).1
  | none =>
    have hnew : ∀ w ∈ i.openUpvalues, w.1 ≠ n := by
      simpa using hfind
    obtain ⟨k, hk⟩ : ∃ k, x.content.mark = .superclass → i.stack[n]? = some (.object k) := by
      obtain ⟨v, hv, hholds⟩ := h.typed.stack_at hx
      cases hc : x.content with
      | superclass =>
        rw [hc] at hholds
        obtain ⟨k, rfl, -⟩ := hholds
        exact ⟨k, fun _ => hv⟩
      | _ => exact ⟨0, fun h => by cases h⟩
    have hextends : Γ.Extends (Γ.capture i.upvalues.length x.content.mark k) i.objects i.upvalues.length :=
      Γ.extends_capture _ _
    refine ⟨i.upvalues.length, _, _, _, _, rfl, hextends, ?_, by simp, Γ.mark_capture _ _ k, fun hs => ?_⟩
    · refine ⟨h.frames, h.waiting.extends hextends (.refl _), h.knows.extends hextends (.refl _), h.base, h.place,
        h.typed.capture hx hheld hnew hk, ?_⟩
      exact h.declares.same rfl rfl rfl rfl rfl rfl fun _ _ => rfl
    · have hin := Γ.superclass_capture i.upvalues.length x.content.mark k
      exact (hk hs).trans (congrArg (fun k' => some (Val.object k')) hin.symm)

theorem closeFrom {us : List (Nat × Nat)} (last : Nat) (h : i.Running Γ f rest p a s below)
    (hus : i.openUpvalues = us) :
    ∃ upvalues, IdealM.closeFrom last us i =
        .ok () { i with upvalues, openUpvalues := us.dropWhile fun w => last ≤ w.1 } ∧
      ({ i with upvalues, openUpvalues := us.dropWhile fun w => last ≤ w.1 } : Ideal).Running Γ f rest p a s below ∧
      ∀ w ∈ us.dropWhile fun w => last ≤ w.1, w.1 < last := by
  induction us generalizing i with
  | nil =>
    refine ⟨i.upvalues, ?_, ?_, nofun⟩
    · rw [List.dropWhile_nil]
      nth_rewrite 2 [← hus]
      rfl
    · rw [List.dropWhile_nil, ← hus]
      exact h
  | cons w us ih =>
    obtain ⟨n, u⟩ := w
    by_cases hlast : last ≤ n
    · obtain ⟨x, hx, -⟩ := h.typed.held n u (by rw [hus]; exact .head _)
      obtain ⟨v, hread, hv, -⟩ := h.readSlot hx
      let i' : Ideal := { i with upvalues := i.upvalues.set u (.closed v), openUpvalues := us }
      have h' : i'.Running Γ f rest p a s below := { h with typed := h.typed.close hus hv }
      obtain ⟨upvalues, hclose, hrunning, hlow⟩ := ih h' rfl
      rw [List.dropWhile_cons_of_pos (by simpa using hlast)]
      refine ⟨upvalues, ?_, hrunning, hlow⟩
      unfold IdealM.closeFrom
      rw [if_pos hlast, runBind, hread]
      exact hclose
    · rw [List.dropWhile_cons_of_neg (by simpa using hlast)]
      refine ⟨i.upvalues, ?_, ?_, fun w hw => ?_⟩
      · unfold IdealM.closeFrom
        rw [if_neg hlast, ← hus]
        rfl
      · rw [← hus]
        exact h
      · have hdescending := h.typed.descending
        rw [hus, List.pairwise_cons] at hdescending
        rcases List.mem_cons.mp hw with rfl | hw
        · exact Nat.lt_of_not_le hlast
        · exact Nat.lt_trans (hdescending.1 w hw) (Nat.lt_of_not_le hlast)

theorem closeUpvalues (h : i.Running Γ f rest p a s below) (last : Nat) : ∃ upvalues opened,
    IdealM.closeUpvalues last i = .ok () { i with upvalues, openUpvalues := opened } ∧
      ({ i with upvalues, openUpvalues := opened } : Ideal).Running Γ f rest p a s below ∧
        ∀ w ∈ opened, w.1 < last := by
  obtain ⟨upvalues, hclose, hrunning, hlow⟩ := h.closeFrom last rfl
  exact ⟨upvalues, _, hclose, hrunning, hlow⟩

theorem closeTop (h : i.Running Γ f rest p a ⟨x :: slots, known⟩ below) (hslots : slots ≠ []) :
    Safe i IdealM.closeTop fun _ i' => i'.Running Γ f rest p a ⟨slots, known⟩ below := by
  have hlength : i.stack.length = slots.length + 1 + below.length := h.length_stack
  have hpos := List.length_pos_of_ne_nil hslots
  unfold IdealM.closeTop
  refine .step (h.calleeSlot (Nat.succ_pos _)) ?_
  obtain ⟨upvalues, opened, hclose, hrunning, hlow⟩ := h.closeUpvalues (i.stack.length - 1 - 0)
  refine .step hclose ?_
  have htyped : ({ i with upvalues, openUpvalues := opened } : Ideal).Typed Γ f.closure
      (⟨x.content, false⟩ :: (slots ++ below)) := Typed.release hrunning.typed
    (fun w hw => by rw [List.length_append]; have := hlow w hw; omega)
    (fun g hg => by rw [List.length_append]; have := hrunning.base_le g hg; omega)
  have hfree : ({ i with upvalues, openUpvalues := opened } : Ideal).Running Γ f rest p a
      ⟨⟨x.content, false⟩ :: slots, known⟩ below := { hrunning with typed := htyped }
  obtain ⟨v, hpop, -, -, hdone⟩ := hfree.pop rfl
  exact .step hpop hdone

end Running

end Ideal

end Lox

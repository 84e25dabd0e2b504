import Lox.Proofs.Ideal.Methods
import Lox.Proofs.Safety.Slots

namespace Lox

open Heap HeapView

variable {w w' : World} {s s' : Sight} {v : Val} {h : Heap} {objects : List (Obj Routine)} {upvalues : List Captured}

inductive Sight.Of (w : World) : Sight → Val → Prop
  | nil : Of w (.plain .nil) .nil
  | bool (b : Bool) : Of w (.plain (.ofBool b)) (.bool b)
  | number (bits : UInt64) : Of w (.plain ⟨bits⟩) (.number bits)
  | text (chars : Bytes) : Of w (.text chars) (.string chars)
  | object {l : Loc} {a : Nat} : w l = some (.object a) → Of w (.object l) (.object a)

theorem Sight.Of.mono (h : s.Of w v) (hw : w.Extends w') : s.Of w' v := by
  cases h with
  | nil => exact .nil
  | bool b => exact .bool b
  | number bits => exact .number bits
  | text chars => exact .text chars
  | object hl => exact .object (hw _ _ hl)

theorem Sight.Of.unique (h : s.Of w v) (h' : s'.Of w v)
    (hinj : ∀ l k a, w l = some (.object a) → w k = some (.object a) → l = k) : s = s' := by
  cases h with
  | object hl =>
    cases h' with
    | object hk => rw [hinj _ _ _ hl hk]
  | _ =>
    cases h'
    rfl

theorem Heap.Pictures.sight (hp : Pictures w objects upvalues h) {u : Value} (hu : h.Shows w u v) :
    (h.sight u).Of w v := by
  have hplain (hn : u.isObject = false) : h.sight u = .plain u := by
    rw [Heap.sight, locOfValue_plain hn]
  cases v with
  | nil =>
    obtain rfl : u = .nil := hu
    rw [hplain rfl]
    exact .nil
  | bool b =>
    obtain rfl : u = .ofBool b := hu
    rw [hplain (by cases b <;> rfl)]
    exact .bool b
  | number bits =>
    rw [hplain hu.2.isObject, hu.1]
    exact .number bits
  | string chars =>
    obtain ⟨l, hash, hn, o, ho, -, hb⟩ := hu
    simp only [Heap.sight, hn.locOfValue, ho, hb, Option.map_some]
    exact .text chars
  | object a =>
    obtain ⟨l, hn, hl⟩ := hu
    obtain ⟨o, ho, -, hd⟩ := hp.body (hn.alive hp.sound.consistent) hl
    have hsight : h.sight u = .object l := by
      simp only [Heap.sight, hn.locOfValue, ho, Option.map_some]
      generalize o.body = b at hd
      cases hd <;> rfl
    rw [hsight]
    exact .object hl

def Ideal.Listed (i : Ideal) : Prop :=
  ∀ n u : Nat, i.upvalues[u]? = some (.slot n) ↔ (n, u) ∈ i.openUpvalues

namespace Ledger

variable {L : Ledger} {now low n : Nat} {vs : List Sight} {x : Variable}

theorem slots_fill (hlow : low ≤ L.slots.length) : (L.fill now low vs).slots[n]? =
    if n < low then L.slots[n]? else if n < vs.length then some ⟨n, now⟩ else none := by
  have htake : (L.slots.take low).length = low := List.length_take_of_le hlow
  show (L.slots.take low ++ _)[n]? = _
  rw [List.getElem?_append, htake]
  split
  · rename_i hn
    exact List.getElem?_take_of_lt hn
  · rw [List.getElem?_map]
    split
    · rw [List.getElem?_range' (by omega)]
      simp only [Option.map_some, Option.some.injEq, Variable.mk.injEq, and_true]
      omega
    · rw [List.getElem?_eq_none (by rw [List.length_range']; omega)]
      rfl

theorem value_fill_of_ne (hx : x.since ≠ now) : (L.fill now low vs).value x = L.value x :=
  if_neg hx

theorem value_fill : (L.fill now low vs).value ⟨n, now⟩ = vs[n]? :=
  if_pos rfl

theorem captured_capture_self (l : Loc) (xs : List Variable) : (L.capture l xs).captured l = xs :=
  Function.update_self ..

theorem captured_capture_of_ne {k l : Loc} (h : k ≠ l) (xs : List Variable) :
    (L.capture l xs).captured k = L.captured k :=
  Function.update_of_ne h ..

structure Tracks (L : Ledger) (now : Nat) (w : World) (i : Ideal) (own : Nat → Variable) (unfinished : Option Nat) :
    Prop where
  length : L.slots.length = i.stack.length
  values : ∀ (n : Nat) x v, L.slots[n]? = some x → i.stack[n]? = some v → ∃ s, L.value x = some s ∧ s.Of w v
  places : ∀ (n : Nat) x, L.slots[n]? = some x → x.slot = n ∧ x.since ≤ now
  past : ∀ u < i.upvalues.length, (own u).since ≤ now
  injective : ∀ u < i.upvalues.length, ∀ u' < i.upvalues.length, own u = own u' → u = u'
  opened : ∀ u n : Nat, i.upvalues[u]? = some (.slot n) → L.slots[n]? = some (own u)
  closed : ∀ (u : Nat) v, i.upvalues[u]? = some (.closed v) → own u ∉ L.slots ∧ ∃ s, L.value (own u) = some s ∧ s.Of w v
  placed : ∀ (a : Nat) r, i.objects[a]? = some (.closure r) → ∃ l, w l = some (.object a)
  captured : ∀ (l a : Nat) r, w l = some (.object a) → i.objects[a]? = some (.closure r) → unfinished ≠ some a →
    List.Forall₂ (fun x o => ∃ u, o = some u ∧ u < i.upvalues.length ∧ own u = x) (L.captured l) r.captures

namespace Tracks

variable {i i' : Ideal} {own own' : Nat → Variable} {unfinished : Option Nat} {a u : Nat} {l : Loc}
  {r : Routine}

theorem same (h : L.Tracks now w i own unfinished) (hobjects : i'.objects = i.objects)
    (hupvalues : i'.upvalues = i.upvalues) (hstack : i'.stack = i.stack) : L.Tracks now w i' own unfinished where
  length := hstack ▸ h.length
  values := hstack ▸ h.values
  places := h.places
  past := hupvalues ▸ h.past
  injective := hupvalues ▸ h.injective
  opened := hupvalues ▸ h.opened
  closed := hupvalues ▸ h.closed
  placed := hobjects ▸ h.placed
  captured := by rw [hobjects, hupvalues]; exact h.captured

theorem shut_eq_slot {stack : List Val} {c : Captured} (hc : c.shut stack low = .slot n)
    (hlt : ∀ m, c = .slot m → m < stack.length) : c = .slot n ∧ n < low := by
  cases c with
  | closed v => cases hc
  | slot m =>
    simp only [Captured.shut, List.getElem?_eq_getElem (hlt m rfl), Option.map_some, Option.getD_some] at hc
    split at hc
    · cases hc
    · cases hc
      exact ⟨rfl, by omega⟩

theorem fill (h : L.Tracks now w i own none) (hs : i.Sheds low i') (hw : w.Extends w')
    (hinj : ∀ l k a, w' l = some (.object a) → w' k = some (.object a) → l = k) (hlength : vs.length = i'.stack.length)
    (hvs : ∀ (n : Nat) v, low ≤ n → i'.stack[n]? = some v → ∃ s, vs[n]? = some s ∧ s.Of w' v) :
    (L.fill (now + 1) low vs).Tracks (now + 1) w' i' own none := by
  have hlow : low ≤ L.slots.length := h.length ▸ hs.low_le
  have hlow' := hs.low_le'
  have hupvalues (u : Nat) : i'.upvalues[u]? = i.upvalues[u]?.map (Captured.shut i.stack low) := by
    rw [hs.upvalues, List.getElem?_map]
  have hcount : i'.upvalues.length = i.upvalues.length := by rw [hs.upvalues, List.length_map]
  have hstack {n : Nat} (hn : n < low) : i'.stack[n]? = i.stack[n]? := by
    have := congrArg (·[n]?) hs.stack
    simpa only [List.getElem?_take_of_lt hn] using this
  have hopen {u n : Nat} (hu : i.upvalues[u]? = some (.slot n)) : n < i.stack.length :=
    h.length ▸ (List.getElem?_eq_some_iff.mp (h.opened u n hu)).1
  have hold {x : Variable} (hx : x.since ≤ now) : (L.fill (now + 1) low vs).value x = L.value x :=
    value_fill_of_ne (by omega)
  have hslot {n : Nat} {x : Variable} (hx : (L.fill (now + 1) low vs).slots[n]? = some x) :
      (n < low ∧ L.slots[n]? = some x) ∨ (low ≤ n ∧ n < vs.length ∧ x = ⟨n, now + 1⟩) := by
    rw [slots_fill hlow] at hx
    split at hx
    · exact .inl ⟨‹_›, hx⟩
    · split at hx
      · exact .inr ⟨by omega, ‹_›, (Option.some.inj hx).symm⟩
      · cases hx
  have hgone {x : Variable} (hx : x.since ≤ now) (hmem : ∀ n < low, L.slots[n]? ≠ some x) :
      x ∉ (L.fill (now + 1) low vs).slots := by
    intro hin
    obtain ⟨n, hn⟩ := List.mem_iff_getElem?.mp hin
    rcases hslot hn with ⟨hlt, hn⟩ | ⟨-, -, rfl⟩
    · exact hmem n hlt hn
    · exact absurd hx (Nat.not_succ_le_self _)
  refine ⟨?_, fun n x v hx hv => ?_, fun n x hx => ?_, fun u hu => ?_, ?_, fun u n hu => ?_, fun u v hu => ?_,
    fun a r ha => ?_, fun l a r hl ha _ => ?_⟩
  · show (L.slots.take low ++ _).length = _
    rw [List.length_append, List.length_take_of_le hlow, List.length_map, List.length_range', hlength]
    omega
  · rcases hslot hx with ⟨hn, hx⟩ | ⟨hn, hlt, rfl⟩
    · rw [hstack hn] at hv
      obtain ⟨s, hs, hof⟩ := h.values n x v hx hv
      exact ⟨s, (hold (h.places n x hx).2).trans hs, hof.mono hw⟩
    · rw [value_fill]
      exact hvs n v hn hv
  · rcases hslot hx with ⟨hn, hx⟩ | ⟨-, -, rfl⟩
    · obtain ⟨hslot, hsince⟩ := h.places n x hx
      exact ⟨hslot, Nat.le_succ_of_le hsince⟩
    · exact ⟨rfl, Nat.le_refl _⟩
  · exact Nat.le_succ_of_le (h.past u (hcount ▸ hu))
  · rw [hcount]
    exact h.injective
  · rw [hupvalues] at hu
    obtain ⟨c, hc, hshut⟩ := Option.map_eq_some_iff.mp hu
    obtain ⟨rfl, hn⟩ := shut_eq_slot hshut fun m hm => hopen (hm ▸ hc)
    rw [slots_fill hlow, if_pos hn]
    exact h.opened u n hc
  · rw [hupvalues] at hu
    obtain ⟨c, hc, hshut⟩ := Option.map_eq_some_iff.mp hu
    have hpast := h.past u (List.getElem?_eq_some_iff.mp hc).1
    cases c with
    | closed v' =>
      cases hshut
      obtain ⟨hout, s, hs, hof⟩ := h.closed u v hc
      exact ⟨hgone hpast fun n _ hn => hout (List.mem_of_getElem? hn), s, (hold hpast).trans hs, hof.mono hw⟩
    | slot m =>
      have hm := h.opened u m hc
      have hlt := hopen hc
      simp only [Captured.shut, List.getElem?_eq_getElem hlt, Option.map_some, Option.getD_some] at hshut
      split at hshut
      · rename_i hle
        cases hshut
        refine ⟨hgone hpast fun n hn hx => ?_, ?_⟩
        · rw [← (h.places n _ hx).1, (h.places m _ hm).1] at hn
          omega
        · obtain ⟨s, hs, hof⟩ := h.values m _ _ hm (List.getElem?_eq_getElem hlt)
          exact ⟨s, (hold hpast).trans hs, hof.mono hw⟩
      · cases hshut
  · obtain ⟨l, hl⟩ := h.placed a r ((hs.closures a r).mp ha)
    exact ⟨l, hw _ _ hl⟩
  · rw [hs.closures] at ha
    obtain ⟨k, hk⟩ := h.placed a r ha
    obtain rfl := hinj l k a hl (hw _ _ hk)
    rw [hcount]
    exact h.captured l a r hk ha (Option.some_ne_none a).symm

theorem assign (h : L.Tracks now w i own none) (hx : L.slots[n]? = some x) (hv : s.Of w v) :
    (L.assign x s).Tracks now w { i with stack := i.stack.set n v } own none := by
  have hother {y : Variable} (hy : y ≠ x) : (L.assign x s).value y = L.value y := Function.update_of_ne hy _ _
  refine { h with length := by rw [List.length_set]; exact h.length, values := fun m y u hy hu => ?_, closed := fun u y
      hu => ?_ }
  · by_cases hmn : n = m
    · subst hmn
      obtain rfl : x = y := Option.some.inj (hx.symm.trans hy)
      have hlt : n < i.stack.length := h.length ▸ (List.getElem?_eq_some_iff.mp hx).1
      rw [List.getElem?_set_self hlt] at hu
      cases hu
      exact ⟨s, Function.update_self .., hv⟩
    · rw [List.getElem?_set_ne hmn] at hu
      rw [hother]
      · exact h.values m y u hy hu
      · rintro rfl
        exact hmn ((h.places n _ hx).1.symm.trans (h.places m _ hy).1)
  · obtain ⟨hout, hvalue⟩ := h.closed u y hu
    refine ⟨hout, ?_⟩
    rw [hother]
    · exact hvalue
    · rintro he
      exact hout (he ▸ List.mem_of_getElem? hx)

theorem assign_closed {y : Val} (h : L.Tracks now w i own none) (hu : i.upvalues[u]? = some (.closed y))
    (hv : s.Of w v) :
    (L.assign (own u) s).Tracks now w { i with upvalues := i.upvalues.set u (.closed v) } own none := by
  have hlt := (List.getElem?_eq_some_iff.mp hu).1
  have hother {y : Variable} (hy : y ≠ own u) : (L.assign (own u) s).value y = L.value y := Function.update_of_ne hy _ _
  obtain ⟨hout, -⟩ := h.closed u y hu
  refine ⟨h.length, fun n x v' hx hv' => ?_, h.places, ?_, ?_, fun u' n hu' => ?_, fun u' v' hu' => ?_, h.placed, ?_⟩
  · rw [hother]
    · exact h.values n x v' hx hv'
    · rintro rfl
      exact hout (List.mem_of_getElem? hx)
  · rw [List.length_set]
    exact h.past
  · rw [List.length_set]
    exact h.injective
  · by_cases hne : u = u'
    · subst hne
      rw [List.getElem?_set_self hlt] at hu'
      cases hu'
    · rw [List.getElem?_set_ne hne] at hu'
      exact h.opened u' n hu'
  · by_cases hne : u = u'
    · subst hne
      rw [List.getElem?_set_self hlt] at hu'
      cases hu'
      exact ⟨hout, s, Function.update_self .., hv⟩
    · rw [List.getElem?_set_ne hne] at hu'
      rw [hother fun he => hne (h.injective u' (List.getElem?_eq_some_iff.mp hu').1 u hlt he).symm]
      exact h.closed u' v' hu'
  · rw [List.length_set]
    exact h.captured

open IdealM

structure Extends (i : Ideal) (own : Nat → Variable) (i' : Ideal) (own' : Nat → Variable) : Prop where
  length : i.upvalues.length ≤ i'.upvalues.length
  same : ∀ u < i.upvalues.length, own' u = own u

theorem Extends.forall₂ (h : Extends i own i' own') {xs : List Variable} {os : List (Option Nat)}
    (hxs : List.Forall₂ (fun x o => ∃ u, o = some u ∧ u < i.upvalues.length ∧ own u = x) xs os) :
    List.Forall₂ (fun x o => ∃ u, o = some u ∧ u < i'.upvalues.length ∧ own' u = x) xs os := by
  refine hxs.imp ?_
  rintro x o ⟨u, rfl, hu, rfl⟩
  exact ⟨u, rfl, Nat.lt_of_lt_of_le hu h.length, h.same u hu⟩

theorem captureUpvalue (h : L.Tracks now w i own unfinished) (hlisted : i.Listed) (hx : L.slots[n]? = some x) :
    Brings i (IdealM.captureUpvalue n) fun u i' => ∃ own' upvalues opened,
      i' = { i with upvalues, openUpvalues := opened } ∧ L.Tracks now w i' own' unfinished ∧ i'.Listed ∧
      u < upvalues.length ∧ own' u = x ∧ Extends i own i' own' := by
  refine .get ?_
  cases hfind : i.openUpvalues.find? (·.1 == n) with
  | some v =>
    obtain ⟨m, u⟩ := v
    obtain rfl : m = n := by simpa using List.find?_some hfind
    have hu := (hlisted m u).mpr (List.mem_of_find?_eq_some hfind)
    refine .pure ⟨own, i.upvalues, i.openUpvalues, rfl, h, hlisted, (List.getElem?_eq_some_iff.mp hu).1, ?_,
      Nat.le_refl _, fun _ _ => rfl⟩
    exact Option.some.inj ((h.opened u m hu).symm.trans hx)
  | none =>
    have hnew : ∀ v ∈ i.openUpvalues, v.1 ≠ n := by simpa using hfind
    have hfresh {u : Nat} (hu : u < i.upvalues.length) : own u ≠ x := by
      intro he
      have hget := List.getElem?_eq_getElem hu
      cases hc : i.upvalues[u] with
      | slot m =>
        rw [hc] at hget
        have hm := h.opened u m hget
        rw [he] at hm
        exact hnew _ ((hlisted m u).mp hget) ((h.places m x hm).1.symm.trans (h.places n x hx).1)
      | closed v =>
        rw [hc] at hget
        exact (h.closed u v hget).1 (he ▸ List.mem_of_getElem? hx)
    let own' := Function.update own i.upvalues.length x
    have hself : own' i.upvalues.length = x := Function.update_self ..
    have hsame {u : Nat} (hu : u < i.upvalues.length) : own' u = own u := Function.update_of_ne (Nat.ne_of_lt hu) _ _
    have hextends : Extends i own { i with
        upvalues := i.upvalues ++ [.slot n]
        openUpvalues := IdealM.insertUpvalue n i.upvalues.length i.openUpvalues } own' :=
      ⟨by simp, fun u hu => hsame hu⟩
    have hlt {u : Nat} (hu : u < (i.upvalues ++ [Captured.slot n]).length) : u < i.upvalues.length ∨
        u = i.upvalues.length := by
      rw [List.length_append, List.length_singleton] at hu
      omega
    rintro _ _ ⟨⟩
    refine ⟨own', _, _, rfl, ⟨h.length, h.values, h.places, fun u hu => ?_, fun u hu u' hu' he => ?_, fun u m hu => ?_,
      fun u v hu => ?_, h.placed, fun l a r hl ha hne => hextends.forall₂ (h.captured l a r hl ha hne)⟩, fun m u => ?_,
      by simp, hself, hextends⟩
    · rcases hlt hu with hu | rfl
      · rw [hsame hu]
        exact h.past u hu
      · rw [hself]
        exact (h.places n x hx).2
    · rcases hlt hu with hu | rfl
      · rcases hlt hu' with hu' | rfl
        · rw [hsame hu, hsame hu'] at he
          exact h.injective u hu u' hu' he
        · rw [hsame hu, hself] at he
          exact absurd he (hfresh hu)
      · rcases hlt hu' with hu' | rfl
        · rw [hsame hu', hself] at he
          exact absurd he.symm (hfresh hu')
        · rfl
    · rcases getElem?_snoc hu with hold | ⟨rfl, hslot⟩
      · rw [hsame (List.getElem?_eq_some_iff.mp hold).1]
        exact h.opened u m hold
      · cases hslot
        rw [hself]
        exact hx
    · rcases getElem?_snoc hu with hold | ⟨-, hslot⟩
      · rw [hsame (List.getElem?_eq_some_iff.mp hold).1]
        exact h.closed u v hold
      · cases hslot
    · show (i.upvalues ++ [Captured.slot n])[u]? = _ ↔ (m, u) ∈ IdealM.insertUpvalue n i.upvalues.length i.openUpvalues
      rw [mem_insertUpvalue, ← hlisted m u]
      constructor
      · intro hu
        rcases getElem?_snoc hu with hold | ⟨rfl, hslot⟩
        · exact .inr hold
        · cases hslot
          exact .inl ⟨rfl, rfl⟩
      · rintro (⟨rfl, rfl⟩ | hu)
        · simp
        · exact getElem?_append_of_some hu _

theorem setCapture (h : L.Tracks now w i own (some a)) (hr : i.objects[a]? = some (.closure r)) (r' : Routine) :
    L.Tracks now w { i with objects := i.objects.set a (.closure r') } own (some a) := by
  refine { h with placed := fun b q hb => ?_, captured := fun l b q hl hb hne => ?_ }
  · by_cases hab : a = b
    · subst hab
      exact h.placed a r hr
    · rw [List.getElem?_set_ne hab] at hb
      exact h.placed b q hb
  · rw [List.getElem?_set_ne fun hab => hne (congrArg some hab)] at hb
    exact h.captured l b q hl hb hne

variable {f : Activation} {rest : List Activation} {p : Prototype} {maker : Loc} {bytes : List UInt8}

theorem readAhead {b : UInt8} (hf : i.frames = f :: rest) (hp : CodeAt i.objects f.closure p)
    (hb : p.Ahead f.ip (b :: bytes)) :
    Brings i IdealM.readByte fun c i' => c = b ∧ i' = i.moved (f.ip + 1) := by
  refine Brings.readByte.imp ?_
  rintro c i' ⟨g, r, hg, hr, hc, rfl⟩
  rw [hf] at hg
  cases hg
  obtain ⟨r', hr', rfl⟩ := hp
  obtain rfl : r = r' := by
    have := hr.symm.trans hr'
    cases this
    rfl
  rw [hb.head] at hc
  cases hc
  exact ⟨rfl, rfl⟩

theorem captureOrigin {o : Origin} {β : Type} {P : β → Ideal → Prop} {k : Nat → IdealM β}
    (h : L.Tracks now w i own (some a)) (hlisted : i.Listed) (ha : f.closure ≠ a)
    (hmaker : w maker = some (.object f.closure)) (hlocal : o.isLocal = true → f.base + o.index < L.slots.length)
    (hk : ∀ u x own' i', L.variableOf maker f.base o.isLocal o.index = some x → L.Tracks now w i' own' (some a) →
      i'.Listed → u < i'.upvalues.length → own' u = x → Extends i own i' own' → i'.objects = i.objects →
      i'.stack = i.stack → i'.frames = i.frames → Brings i' (k u) P) :
    Brings i (if o.isLocal = true then do
        k (← IdealM.captureUpvalue (f.base + o.index))
      else do
        k (← ofOption (← ofOption (← IdealM.closureAt f.closure).captures[o.index]?))) P := by
  split
  · rename_i hisLocal
    have hx := List.getElem?_eq_getElem (hlocal hisLocal)
    refine (h.captureUpvalue hlisted hx).bind ?_
    rintro u i' ⟨own', upvalues, opened, rfl, h', hlisted', hu, hown, hextends⟩
    refine hk u _ own' _ ?_ h' hlisted' hu hown hextends rfl rfl rfl
    rw [variableOf, if_pos hisLocal, hx]
  · rename_i hcaptured
    refine Brings.closureAt.bind ?_
    rintro r _ ⟨rfl, hr⟩
    refine (Brings.ofOption (P := fun c j => j = _ ∧ r.captures[o.index]? = some c) fun c hc => ⟨rfl, hc⟩).bind ?_
    rintro c _ ⟨rfl, hc⟩
    refine (Brings.ofOption (P := fun u j => j = _ ∧ c = some u) fun u hu => ⟨rfl, hu⟩).bind ?_
    rintro u i ⟨rfl, rfl⟩
    have hcaptures := h.captured maker f.closure r hmaker hr fun he => ha (Option.some.inj he).symm
    obtain ⟨x, hx, u', hu', hlt, hown⟩ := forall₂_getElem? hcaptures hc
    cases hu'
    refine hk u x own i ?_ h hlisted hlt hown ⟨Nat.le_refl _, fun _ _ => rfl⟩ rfl rfl rfl
    rw [variableOf, if_neg hcaptured, hx]

theorem fillCaptures {origins : List Origin} {xs : List Variable} {j : Nat}
    (h : L.Tracks now w i own (some a)) (hlisted : i.Listed) (hf : i.frames = f :: rest) (ha : f.closure ≠ a)
    (hr : i.objects[a]? = some (.closure r)) (hp : CodeAt i.objects f.closure p)
    (hmaker : w maker = some (.object f.closure))
    (hb : p.Ahead f.ip ((origins.flatMap fun o => [if o.isLocal then 1 else 0, o.index.toUInt8]) ++ bytes))
    (hfits : ∀ o ∈ origins, o.index < 256)
    (hlocal : ∀ o ∈ origins, o.isLocal = true → f.base + o.index < L.slots.length)
    (hlength : r.captures.length = j + origins.length)
    (hdone : List.Forall₂ (fun x o => ∃ u, o = some u ∧ u < i.upvalues.length ∧ own u = x) xs (r.captures.take j)) :
    Brings i (IdealM.fillCaptures a j origins.length) fun _ i' => ∃ own' ys r', L.Tracks now w i' own' (some a) ∧
      i'.objects[a]? = some (.closure r') ∧ i'.stack = i.stack ∧
      List.Forall₂ (fun x o => ∃ u, o = some u ∧ u < i'.upvalues.length ∧ own' u = x) (xs ++ ys) r'.captures ∧
      List.Forall₂ (fun o y => L.variableOf maker f.base o.isLocal o.index = some y) origins ys := by
  induction origins generalizing i f j r own xs with
  | nil =>
    refine .pure ⟨own, [], r, h, hr, rfl, ?_, .nil⟩
    rw [List.take_of_length_le (by simpa using Nat.le_of_eq hlength)] at hdone
    rwa [List.append_nil]
  | cons o origins ih =>
    rw [List.forall_mem_cons] at hfits hlocal
    have hflag : ((if o.isLocal = true then (1 : UInt8) else 0) = 1) = (o.isLocal = true) := by
      cases o.isLocal <;> decide
    have hnat : o.index.toUInt8.toNat = o.index := by
      rw [Nat.toUInt8_eq, UInt8.toNat_ofNat', Nat.mod_eq_of_lt hfits.1]
    have hf₁ : (i.moved (f.ip + 1)).frames = _ := Ideal.frames_moved hf
    have hf₂ : ((i.moved (f.ip + 1)).moved (f.ip + 1 + 1)).frames = _ := Ideal.frames_moved hf₁
    unfold IdealM.fillCaptures
    refine (readAhead hf hp hb).bind ?_
    rintro _ _ ⟨rfl, rfl⟩
    refine (readAhead hf₁ hp hb.tail).bind ?_
    rintro _ _ ⟨rfl, rfl⟩
    refine Brings.frame.bind ?_
    rintro g _ ⟨rfl, hg⟩
    rw [hf₂] at hg
    cases hg
    simp only [hflag, hnat]
    refine captureOrigin (f := { f with ip := f.ip + 1 + 1 }) (h.same rfl rfl rfl) hlisted ha hmaker hlocal.1 ?_
    intro u x own' i₃ hx h₃ hlisted₃ hu hown hextends hobjects hstack hframes
    have hr₃ : i₃.objects[a]? = some (.closure r) := hobjects ▸ hr
    have hlt := (List.getElem?_eq_some_iff.mp hr₃).1
    have hj : j < r.captures.length := by rw [hlength, List.length_cons]; omega
    refine Brings.closureAt.bind ?_
    rintro r' i₃ ⟨rfl, hr'⟩
    cases hr₃.symm.trans hr'
    have hdone' : List.Forall₂ (fun x o => ∃ u, o = some u ∧ u < i₃.upvalues.length ∧ own' u = x) (xs ++ [x])
        ((r.captures.set j (some u)).take (j + 1)) := by
      rw [List.take_add_one, List.take_set_of_le (Nat.le_refl _), List.getElem?_set_self hj]
      exact forall₂_snoc (hextends.forall₂ hdone) ⟨u, rfl, hu, hown⟩
    refine .step rfl ((ih (f := { f with ip := f.ip + 1 + 1 }) (h₃.setCapture hr₃ _) hlisted₃
      (hframes.trans hf₂) ha (List.getElem?_set_self hlt) ?_ hmaker hb.tail.tail hfits.2 hlocal.2 ?_ hdone').imp ?_)
    · obtain ⟨q, hq, hcode⟩ := hp
      refine ⟨q, ?_, hcode⟩
      rw [List.getElem?_set_ne (Ne.symm ha), hobjects]
      exact hq
    · simp only [List.length_set, hlength, List.length_cons]
      omega
    · rintro _ i₅ ⟨own'', ys, r', h₅, hr', hstack', hcaptures, hys⟩
      refine ⟨own'', x :: ys, r', h₅, hr', hstack'.trans hstack, ?_, .cons hx hys⟩
      rwa [List.append_assoc] at hcaptures

theorem makes (h : L.Tracks now w i own none) (hl : w l = some (.object i.objects.length)) (r : Routine) :
    L.Tracks now w { i with objects := i.objects ++ [.closure r] } own (some i.objects.length) := by
  refine { h with placed := fun b q hb => ?_, captured := fun k b q hk hb hne => ?_ }
  · rcases getElem?_snoc hb with hb | ⟨rfl, -⟩
    · exact h.placed b q hb
    · exact ⟨l, hl⟩
  · rcases getElem?_snoc hb with hb | ⟨rfl, -⟩
    · exact h.captured k b q hk hb (by rintro ⟨⟩)
    · exact absurd rfl hne

theorem finish {ys : List Variable} (h : L.Tracks now w i own (some a)) (hl : w l = some (.object a))
    (hinj : ∀ l k a, w l = some (.object a) → w k = some (.object a) → l = k) (hr : i.objects[a]? = some (.closure r))
    (hys : List.Forall₂ (fun x o => ∃ u, o = some u ∧ u < i.upvalues.length ∧ own u = x) ys r.captures) :
    (L.capture l ys).Tracks now w i own none := by
  refine { h with captured := fun k b q hk hb _ => ?_ }
  by_cases hab : a = b
  · subst hab
    obtain rfl := hinj l k a hl hk
    rw [hr] at hb
    cases hb
    rwa [captured_capture_self]
  · have hne : k ≠ l := by
      rintro rfl
      rw [hl] at hk
      cases hk
      exact hab rfl
    rw [captured_capture_of_ne hne]
    exact h.captured k b q hk hb fun he => hab (Option.some.inj he)

end Tracks

end Ledger

end Lox

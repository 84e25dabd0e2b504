import Lox.Proofs.Evaluation.Codes
import Lox.Proofs.Evaluation.Evaluator
import Lox.Proofs.Safety.Run
import Lox.Proofs.Safety.Turned

/-!
The ideal machine with a program that the evaluator runs. A slot of the stack holds a variable of the program, which
is a cell of the evaluator, or a value on its way. An upvalue of the machine is a cell as well, open or closed.
-/

namespace Lox

inductive Seat where
  | value (v : Val)
  | cell (c : Nat)

namespace Seat

def Holds (cells : List Val) : Seat → Val → Prop
  | value v, x => x = v
  | cell c, x => cells[c]? = some x

def cell? : Seat → Option Nat
  | value _ => none
  | cell c => some c

end Seat

def cellAt (seats : List Seat) (n : Nat) : Option Nat :=
  seats[n]?.bind Seat.cell?

/-- The cells of the upvalues of a machine. -/
abbrev Links := Nat → Option Nat

def Links.Extends (links links' : Links) : Prop :=
  ∀ u c, links u = some c → links' u = some c

/-- The variables of the functions around a closure are what its upvalues say. -/
structure Routine.Binds (r : Routine) (links : Links) (origins : List (List Origin)) (env : Env)
    (bindings : Bindings) : Prop where
  global : ∀ name, env.find (.named name) = none → bindings.lookup name = none
  captured : ∀ name out n, env.find (.named name) = some (out, n) → ∃ c, bindings.lookup name = some c ∧
    ∀ j, Origin.follow origins j = some (out + 1, n) → ∃ u, r.captures[j]? = some (some u) ∧ links u = some c

inductive Callable.Stands (links : Links) : Obj Routine → Callable → Prop
  | native (n : Native) : Stands links (.native n) (.native n)
  | procedure {r : Routine} {p : Procedure} {g : Listing Item} {χ : List (List Origin)} {env : Env}
      {kind : FunctionKind} : Item.Made (.function g) (.function r.prototype) → g.name = p.name →
      g.arity = p.parameters.length →
      g.CodesBody χ (⟨kind, p.name.isSome, p.parameters.reverse.map .named⟩ :: env) p.body →
      r.Binds links (g.origins :: χ) env p.bindings → Stands links (.closure r) (.procedure p)

/-- The machine is where the evaluator is. -/
structure Ideal.Enacts (i : Ideal) (σ : Store) (seats : List Seat) (links : Links) : Prop where
  stack : List.Forall₂ (Seat.Holds σ.cells) seats i.stack
  apart : ∀ n m c, cellAt seats n = some c → cellAt seats m = some c → n = m
  placed : ∀ u c, links u = some c → u < i.upvalues.length
  single : ∀ u w c, links u = some c → links w = some c → u = w
  opened : ∀ n u, (n, u) ∈ i.openUpvalues ↔ i.upvalues[u]? = some (.slot n)
  descending : i.openUpvalues.Pairwise fun v w => w.1 < v.1
  slots : ∀ u n, i.upvalues[u]? = some (.slot n) → links u = cellAt seats n
  closed : ∀ u v c, i.upvalues[u]? = some (.closed v) → links u = some c →
    σ.cells[c]? = some v ∧ ∀ n, cellAt seats n ≠ some c
  objects : List.Forall₂ (Callable.Stands links) i.objects σ.callables
  globals : i.globals = σ.globals
  clock : i.clock = σ.clock
  printed : i.printed = σ.printed

section

variable {i : Ideal} {σ : Store} {seats : List Seat} {links links' : Links} {c k n m u w : Nat} {v x : Val}
  {vs ws : List Val} {name : Bytes}

theorem Links.Extends.refl (links : Links) : links.Extends links :=
  fun _ _ => id

theorem Links.Extends.trans {links'' : Links} (h : links.Extends links') (h' : links'.Extends links'') :
    links.Extends links'' :=
  fun u c hu => h' u c (h u c hu)

theorem Routine.Binds.extends {r : Routine} {origins : List (List Origin)} {env : Env} {bindings : Bindings}
    (h : r.Binds links origins env bindings) (hl : links.Extends links') : r.Binds links' origins env bindings where
  global := h.global
  captured name out n hfind := by
    obtain ⟨c, hc, hupvalues⟩ := h.captured name out n hfind
    refine ⟨c, hc, fun j hj => ?_⟩
    obtain ⟨u, hu, hlink⟩ := hupvalues j hj
    exact ⟨u, hu, hl u c hlink⟩

theorem Callable.Stands.extends {o : Obj Routine} {p : Callable} (h : Callable.Stands links o p)
    (hl : links.Extends links') : Callable.Stands links' o p := by
  cases h with
  | native n => exact .native n
  | procedure hmade hname harity hcodes hbinds => exact .procedure hmade hname harity hcodes (hbinds.extends hl)

theorem cellAt_of_cell (h : seats[n]? = some (.cell c)) : cellAt seats n = some c := by
  rw [cellAt, h]
  rfl

theorem cell_of_cellAt (h : cellAt seats n = some c) : seats[n]? = some (.cell c) := by
  obtain ⟨s, hs, hc⟩ := Option.bind_eq_some_iff.mp h
  cases s with
  | value v => cases hc
  | cell d =>
    cases hc
    exact hs

theorem cellAt_value (h : seats[n]? = some (.value v)) : cellAt seats n = none := by
  rw [cellAt, h]
  rfl

theorem cellAt_values (seats : List Seat) (vs : List Val) (n : Nat) :
    cellAt (seats ++ vs.map .value) n = cellAt seats n := by
  unfold cellAt
  rw [List.getElem?_append]
  split
  · rfl
  · rename_i hn
    rw [List.getElem?_eq_none (Nat.not_lt.mp hn), List.getElem?_map]
    cases vs[n - seats.length]? <;> rfl

theorem cellAt_take (seats : List Seat) (k n : Nat) :
    cellAt (seats.take k) n = if n < k then cellAt seats n else none := by
  unfold cellAt
  rw [List.getElem?_take]
  split <;> rfl

theorem cellAt_set (hn : n < seats.length) (s : Seat) (m : Nat) :
    cellAt (seats.set n s) m = if n = m then s.cell? else cellAt seats m := by
  unfold cellAt
  split
  · rename_i hm
    subst hm
    rw [List.getElem?_set_self hn]
    rfl
  · rename_i hm
    rw [List.getElem?_set_ne hm]

theorem holds_append {cells : List Val} {s : Seat} (h : s.Holds cells x) (ws : List Val) : s.Holds (cells ++ ws) x := by
  cases s with
  | value v => exact h
  | cell c => exact (List.getElem?_append_left (List.getElem?_eq_some_iff.mp h).1).trans h

theorem holds_set {cells : List Val} {s : Seat} (h : s.Holds cells x) (hs : s.cell? ≠ some c) (v : Val) :
    s.Holds (cells.set c v) x := by
  cases s with
  | value w => exact h
  | cell d => exact (List.getElem?_set_ne fun hc => hs (congrArg some hc.symm)).trans h

theorem forall₂_of_getElem? {α β : Type} {R : α → β → Prop} {as : List α} {bs : List β}
    (hlength : as.length = bs.length) (h : ∀ (n : Nat) a b, as[n]? = some a → bs[n]? = some b → R a b) :
    List.Forall₂ R as bs :=
  List.forall₂_iff_get.mpr ⟨hlength, fun n hn hn' =>
    h n _ _ (List.getElem?_eq_getElem hn) (List.getElem?_eq_getElem hn')⟩

theorem forall₂_values {cells : List Val} (vs : List Val) :
    List.Forall₂ (Seat.Holds cells) (vs.map .value) vs := by
  induction vs with
  | nil => exact .nil
  | cons v vs ih => exact .cons rfl ih

theorem eq_of_values {cells : List Val} {xs : List Val} (h : List.Forall₂ (Seat.Holds cells) (vs.map .value) xs) :
    xs = vs := by
  induction vs generalizing xs with
  | nil =>
    cases h
    rfl
  | cons v vs ih =>
    cases h with
    | cons hv h => rw [show _ = v from hv, ih h]

theorem Ideal.Sound.opened_lt {Γ : Facts} (h : i.Sound Γ) : ∀ w ∈ i.openUpvalues, w.1 < i.stack.length := by
  obtain ⟨-, f, rest, p, a, s, below, h, -⟩ := h
  rintro ⟨n, u⟩ hw
  obtain ⟨x, hx, -⟩ := h.typed.held n u hw
  have hlt := (List.getElem?_eq_some_iff.mp hx).1
  rwa [List.length_reverse, ← h.typed.length_stack] at hlt

namespace Ideal.Enacts

theorem holds_at (h : i.Enacts σ seats links) {s : Seat} (hs : seats[n]? = some s) :
    ∃ x, i.stack[n]? = some x ∧ s.Holds σ.cells x :=
  forall₂_getElem?_left h.stack hs

theorem value_at (h : i.Enacts σ seats links) (hn : cellAt seats n = some c) :
    ∃ v, i.stack[n]? = some v ∧ σ.cells[c]? = some v :=
  h.holds_at (cell_of_cellAt hn)

theorem unique (h : i.Enacts σ seats links) (hu : i.upvalues[u]? = some (.slot n))
    (hw : i.upvalues[w]? = some (.slot n)) : u = w := by
  have hdescending := h.descending
  by_contra hne
  rcases List.pairwise_iff_getElem.mp hdescending with hpairs
  obtain ⟨j, hj, hju⟩ := List.mem_iff_getElem.mp ((h.opened n u).mpr hu)
  obtain ⟨k, hk, hkw⟩ := List.mem_iff_getElem.mp ((h.opened n w).mpr hw)
  rcases Nat.lt_trichotomy j k with hjk | rfl | hjk
  · have := hpairs j k hj hk hjk
    rw [hju, hkw] at this
    exact Nat.lt_irrefl _ this
  · rw [hju] at hkw
    exact hne (Prod.mk.inj hkw).2
  · have := hpairs k j hk hj hjk
    rw [hju, hkw] at this
    exact Nat.lt_irrefl _ this

theorem captured_at (h : i.Enacts σ seats links) (hu : links u = some c) :
    (∃ n v, i.upvalues[u]? = some (.slot n) ∧ cellAt seats n = some c ∧ i.stack[n]? = some v ∧ σ.cells[c]? = some v) ∨
      ∃ v, i.upvalues[u]? = some (.closed v) ∧ σ.cells[c]? = some v ∧ ∀ n, cellAt seats n ≠ some c := by
  have hlt := h.placed u c hu
  cases hat : i.upvalues[u]? with
  | none => exact absurd (List.getElem?_eq_none_iff.mp hat) (Nat.not_le.mpr hlt)
  | some k =>
    cases k with
    | slot n =>
      have hcell := (h.slots u n hat).symm.trans hu
      obtain ⟨v, hv, hc⟩ := h.value_at hcell
      exact .inl ⟨n, v, rfl, hcell, hv, hc⟩
    | closed v => exact .inr ⟨v, rfl, h.closed u v c hat hu⟩

theorem cell_lt (h : i.Enacts σ seats links) (hn : cellAt seats n = some c) : c < σ.cells.length := by
  obtain ⟨v, -, hc⟩ := h.value_at hn
  exact (List.getElem?_eq_some_iff.mp hc).1

theorem link_lt (h : i.Enacts σ seats links) (hu : links u = some c) : c < σ.cells.length := by
  rcases h.captured_at hu with ⟨n, v, -, -, -, hc⟩ | ⟨v, -, hc, -⟩ <;> exact (List.getElem?_eq_some_iff.mp hc).1

theorem top (h : i.Enacts σ (seats ++ vs.map .value) links) :
    ∃ S, i.stack = S ++ vs ∧ List.Forall₂ (Seat.Holds σ.cells) seats S := by
  obtain ⟨S, T, hS, hT, hstack⟩ : ∃ S T, List.Forall₂ (Seat.Holds σ.cells) seats S ∧
      List.Forall₂ (Seat.Holds σ.cells) (vs.map .value) T ∧ i.stack = S ++ T := by
    refine ⟨i.stack.take seats.length, i.stack.drop seats.length, ?_, ?_, (List.take_append_drop _ _).symm⟩
    · have := List.forall₂_take seats.length h.stack
      rwa [List.take_left] at this
    · have := List.forall₂_drop seats.length h.stack
      rwa [List.drop_left] at this
  rw [eq_of_values hT] at hstack
  exact ⟨S, hstack, hS⟩

/-- Values on their way give place to others. -/
theorem retop {S : List Val} (h : i.Enacts σ (seats ++ vs.map .value) links) (hS : i.stack = S ++ vs)
    (ws : List Val) : Ideal.Enacts { i with stack := S ++ ws } σ (seats ++ ws.map .value) links where
  stack := by
    obtain ⟨S', hS', hseats⟩ := h.top
    rw [hS] at hS'
    obtain rfl := List.append_cancel_right hS'
    exact List.rel_append hseats (forall₂_values ws)
  apart n m c := by
    rw [cellAt_values, cellAt_values]
    have := h.apart n m c
    rwa [cellAt_values, cellAt_values] at this
  placed := h.placed
  single := h.single
  opened := h.opened
  descending := h.descending
  slots u n hu := by
    rw [cellAt_values, ← cellAt_values seats vs]
    exact h.slots u n hu
  closed u v c hu hc := by
    obtain ⟨hv, hseat⟩ := h.closed u v c hu hc
    refine ⟨hv, fun n => ?_⟩
    rw [cellAt_values, ← cellAt_values seats vs]
    exact hseat n
  objects := h.objects
  globals := h.globals
  clock := h.clock
  printed := h.printed

theorem moved (h : i.Enacts σ seats links) (ip : Nat) : (i.moved ip).Enacts σ seats links :=
  { h with }

theorem setGlobal (h : i.Enacts σ seats links) (name : Bytes) (v : Val) :
    Ideal.Enacts { i with globals := i.globals.set name v } { σ with globals := σ.globals.set name v } seats links :=
  { h with globals := by rw [h.globals] }

theorem print (h : i.Enacts σ seats links) (text : Bytes) :
    Ideal.Enacts { i with printed := text :: i.printed } { σ with printed := text :: σ.printed } seats links :=
  { h with printed := by rw [h.printed] }

theorem tick (h : i.Enacts σ seats links) :
    Ideal.Enacts { i with clock := i.clock.advance } { σ with clock := σ.clock.advance } seats links :=
  { h with clock := by rw [h.clock] }

theorem create {o : Obj Routine} {p : Callable} (h : i.Enacts σ seats links) (ho : Callable.Stands links o p) :
    Ideal.Enacts { i with objects := i.objects ++ [o] } { σ with callables := σ.callables ++ [p] } seats links :=
  { h with objects := List.rel_append h.objects (.cons ho .nil) }

theorem writeSlot (h : i.Enacts σ seats links) (hn : cellAt seats n = some c) (v : Val) :
    Ideal.Enacts { i with stack := i.stack.set n v } { σ with cells := σ.cells.set c v } seats links where
  stack := by
    refine forall₂_of_getElem? (by rw [List.length_set, h.stack.length_eq]) fun m s x hs hx => ?_
    obtain ⟨y, hy, hholds⟩ := h.holds_at hs
    by_cases hm : n = m
    · subst hm
      rw [cell_of_cellAt hn] at hs
      cases hs
      rw [List.getElem?_set_self (List.getElem?_eq_some_iff.mp hy).1] at hx
      cases hx
      exact List.getElem?_set_self (h.cell_lt hn)
    · rw [List.getElem?_set_ne hm, hy] at hx
      cases hx
      refine holds_set hholds (fun hc => hm (h.apart n m c hn ?_)) v
      rw [cellAt, hs]
      exact hc
  apart := h.apart
  placed := h.placed
  single := h.single
  opened := h.opened
  descending := h.descending
  slots := h.slots
  closed u w d hu hd := by
    obtain ⟨hw, hseat⟩ := h.closed u w d hu hd
    have hne : c ≠ d := by
      rintro rfl
      exact hseat n hn
    exact ⟨(List.getElem?_set_ne hne).trans hw, hseat⟩
  objects := h.objects
  globals := h.globals
  clock := h.clock
  printed := h.printed

theorem writeClosed (h : i.Enacts σ seats links) (hu : links u = some c) (hx : i.upvalues[u]? = some (.closed x))
    (v : Val) : Ideal.Enacts { i with upvalues := i.upvalues.set u (.closed v) } { σ with cells := σ.cells.set c v }
      seats links where
  stack := by
    refine forall₂_of_getElem? h.stack.length_eq fun m s y hs hy => ?_
    obtain ⟨z, hz, hholds⟩ := h.holds_at hs
    rw [hy] at hz
    cases hz
    refine holds_set hholds (fun hc => (h.closed u x c hx hu).2 m ?_) v
    rw [cellAt, hs]
    exact hc
  apart := h.apart
  placed w d hw := by
    rw [List.length_set]
    exact h.placed w d hw
  single := h.single
  opened n w := by
    rw [h.opened n w]
    by_cases hne : u = w
    · subst hne
      rw [hx, List.getElem?_set_self (h.placed u c hu)]
      exact ⟨nofun, nofun⟩
    · rw [List.getElem?_set_ne hne]
  descending := h.descending
  slots w n hw := by
    by_cases hne : u = w
    · subst hne
      rw [List.getElem?_set_self (h.placed u c hu)] at hw
      cases hw
    · rw [List.getElem?_set_ne hne] at hw
      exact h.slots w n hw
  closed w y d hw hd := by
    by_cases hne : u = w
    · subst hne
      rw [List.getElem?_set_self (h.placed u c hu)] at hw
      cases hw
      obtain rfl : c = d := Option.some.inj (hu.symm.trans hd)
      exact ⟨List.getElem?_set_self (h.link_lt hu), (h.closed u x c hx hu).2⟩
    · rw [List.getElem?_set_ne hne] at hw
      obtain ⟨hy, hseat⟩ := h.closed w y d hw hd
      have hcells : c ≠ d := by
        rintro rfl
        exact hne (h.single u w c hu hd)
      exact ⟨(List.getElem?_set_ne hcells).trans hy, hseat⟩
  objects := h.objects
  globals := h.globals
  clock := h.clock
  printed := h.printed

/-- The slots from some place on are given up, when no upvalue is open there. -/
theorem cut (h : i.Enacts σ seats links) (hlow : ∀ w ∈ i.openUpvalues, w.1 < k) :
    Ideal.Enacts { i with stack := i.stack.take k } σ (seats.take k) links where
  stack := List.forall₂_take k h.stack
  apart n m c hn hm := by
    rw [cellAt_take] at hn hm
    split at hn
    · split at hm
      · exact h.apart n m c hn hm
      · cases hm
    · cases hn
  placed := h.placed
  single := h.single
  opened := h.opened
  descending := h.descending
  slots u n hu := by
    rw [cellAt_take, if_pos (hlow _ ((h.opened n u).mpr hu))]
    exact h.slots u n hu
  closed u v c hu hc := by
    obtain ⟨hv, hseat⟩ := h.closed u v c hu hc
    refine ⟨hv, fun n hn => ?_⟩
    rw [cellAt_take] at hn
    split at hn
    · exact hseat n hn
    · cases hn
  objects := h.objects
  globals := h.globals
  clock := h.clock
  printed := h.printed

/-- A variable that its upvalue now holds is no longer in its slot. -/
theorem close {rest : List (Nat × Nat)} (h : i.Enacts σ seats links) (hopen : i.openUpvalues = (n, u) :: rest)
    (hv : i.stack[n]? = some v) :
    Ideal.Enacts { i with upvalues := i.upvalues.set u (.closed v), openUpvalues := rest } σ
      (seats.set n (.value v)) links := by
  have hu : i.upvalues[u]? = some (.slot n) := (h.opened n u).mp (by rw [hopen]; exact .head _)
  have hult := (List.getElem?_eq_some_iff.mp hu).1
  have hn : n < seats.length := h.stack.length_eq ▸ (List.getElem?_eq_some_iff.mp hv).1
  have hother {m c : Nat} (hm : cellAt (seats.set n (.value v)) m = some c) : n ≠ m ∧ cellAt seats m = some c := by
    rw [cellAt_set hn] at hm
    split at hm
    · cases hm
    · exact ⟨‹_›, hm⟩
  have hdescending := h.descending
  rw [hopen, List.pairwise_cons] at hdescending
  constructor
  · refine forall₂_of_getElem? (by rw [List.length_set, h.stack.length_eq]) fun m s x hs hx => ?_
    by_cases hm : n = m
    · subst hm
      rw [List.getElem?_set_self hn] at hs
      cases hs
      exact Option.some.inj (hx.symm.trans hv)
    · rw [List.getElem?_set_ne hm] at hs
      obtain ⟨y, hy, hholds⟩ := h.holds_at hs
      obtain rfl : x = y := Option.some.inj (hx.symm.trans hy)
      exact hholds
  · exact fun m m' c hm hm' => h.apart m m' c (hother hm).2 (hother hm').2
  · intro w c hw
    rw [List.length_set]
    exact h.placed w c hw
  · exact h.single
  · intro m w
    by_cases hne : u = w
    · subst hne
      show _ ∈ rest ↔ (i.upvalues.set u _)[u]? = _
      rw [List.getElem?_set_self hult]
      refine ⟨fun hm => ?_, nofun⟩
      have hslot := (h.opened m u).mp (by rw [hopen]; exact .tail _ hm)
      rw [hu] at hslot
      cases hslot
      exact absurd (hdescending.1 _ hm) (Nat.lt_irrefl _)
    · show _ ∈ rest ↔ (i.upvalues.set u _)[w]? = _
      rw [List.getElem?_set_ne hne, ← h.opened m w, hopen, List.mem_cons, Prod.mk.injEq]
      exact ⟨.inr, fun hm => hm.resolve_left fun he => hne he.2.symm⟩
  · exact hdescending.2
  · intro w m hw
    by_cases hne : u = w
    · subst hne
      rw [List.getElem?_set_self hult] at hw
      cases hw
    · rw [List.getElem?_set_ne hne] at hw
      have hm : n ≠ m := by
        rintro rfl
        exact hne (h.unique hu hw)
      rw [cellAt_set hn, if_neg hm]
      exact h.slots w m hw
  · intro w x c hw hc
    by_cases hne : u = w
    · subst hne
      rw [List.getElem?_set_self hult] at hw
      cases hw
      have hcell := (h.slots u n hu).symm.trans hc
      obtain ⟨y, hy, hcells⟩ := h.value_at hcell
      obtain rfl : v = y := Option.some.inj (hv.symm.trans hy)
      exact ⟨hcells, fun m hm => (hother hm).1 (h.apart n m c hcell (hother hm).2)⟩
    · rw [List.getElem?_set_ne hne] at hw
      obtain ⟨hx, hseat⟩ := h.closed w x c hw hc
      exact ⟨hx, fun m hm => hseat m (hother hm).2⟩
  · exact h.objects
  · exact h.globals
  · exact h.clock
  · exact h.printed

end Ideal.Enacts

/-- What the upvalues stand for when the variables are in these seats. -/
def Ideal.relink (i : Ideal) (seats : List Seat) (links : Links) : Links :=
  fun u =>
    match i.upvalues[u]? with
    | some (.slot n) => cellAt seats n
    | _ => links u

namespace Ideal.Enacts

theorem relink_slot (hu : i.upvalues[u]? = some (.slot n)) : i.relink seats links u = cellAt seats n := by
  rw [relink, hu]

theorem relink_closed (hu : i.upvalues[u]? = some (.closed v)) : i.relink seats links u = links u := by
  rw [relink, hu]

/-- A value becomes a variable. -/
theorem allocate (h : i.Enacts σ seats links) (hv : seats[n]? = some (.value v)) :
    links.Extends (i.relink (seats.set n (.cell σ.cells.length)) links) ∧
      i.Enacts { σ with cells := σ.cells ++ [v] } (seats.set n (.cell σ.cells.length))
        (i.relink (seats.set n (.cell σ.cells.length)) links) := by
  have hn := (List.getElem?_eq_some_iff.mp hv).1
  have hcases {m c : Nat} (hm : cellAt (seats.set n (.cell σ.cells.length)) m = some c) :
      (m = n ∧ c = σ.cells.length) ∨ cellAt seats m = some c := by
    rw [cellAt_set hn] at hm
    split at hm
    · exact .inl ⟨‹n = m›.symm, (Option.some.inj hm).symm⟩
    · exact .inr hm
  have hlinks {w c : Nat} (hw : i.relink (seats.set n (.cell σ.cells.length)) links w = some c) :
      (∃ m, i.upvalues[w]? = some (.slot m) ∧ cellAt (seats.set n (.cell σ.cells.length)) m = some c) ∨
        (links w = some c ∧ ∀ m, cellAt seats m ≠ some c) := by
    cases hat : i.upvalues[w]? with
    | none =>
      rw [relink, hat] at hw
      exact absurd (List.getElem?_eq_none_iff.mp hat) (Nat.not_le.mpr (h.placed w c hw))
    | some k =>
      cases k with
      | slot m =>
        rw [relink_slot hat] at hw
        exact .inl ⟨m, rfl, hw⟩
      | closed x =>
        rw [relink_closed hat] at hw
        exact .inr ⟨hw, (h.closed w x c hat hw).2⟩
  have hapart (m m' c : Nat) (hm : cellAt (seats.set n (.cell σ.cells.length)) m = some c)
      (hm' : cellAt (seats.set n (.cell σ.cells.length)) m' = some c) : m = m' := by
    rcases hcases hm with ⟨hmn, hc⟩ | hold <;> rcases hcases hm' with ⟨hmn', hc'⟩ | hold'
    · exact hmn.trans hmn'.symm
    · exact absurd hc (Nat.ne_of_lt (h.cell_lt hold'))
    · exact absurd hc' (Nat.ne_of_lt (h.cell_lt hold))
    · exact h.apart m m' c hold hold'
  have hmixed {m w c : Nat} (hm : cellAt (seats.set n (.cell σ.cells.length)) m = some c) (hw : links w = some c)
      (hseat : ∀ m, cellAt seats m ≠ some c) : False := by
    rcases hcases hm with ⟨-, rfl⟩ | hm
    · exact Nat.lt_irrefl _ (h.link_lt hw)
    · exact hseat m hm
  have hextends : links.Extends (i.relink (seats.set n (.cell σ.cells.length)) links) := by
    intro w c hw
    rcases h.captured_at hw with ⟨m, x, hat, hm, -⟩ | ⟨x, hat, -⟩
    · rw [relink_slot hat, cellAt_set hn, if_neg, hm]
      rintro rfl
      rw [cellAt_value hv] at hm
      cases hm
    · rw [relink_closed hat, hw]
  refine ⟨hextends, ?_⟩
  constructor
  · refine forall₂_of_getElem? (by rw [List.length_set, h.stack.length_eq]) fun m s x hs hx => ?_
    by_cases hm : n = m
    · subst hm
      rw [List.getElem?_set_self hn] at hs
      cases hs
      obtain ⟨y, hy, hholds⟩ := h.holds_at hv
      obtain rfl : x = y := Option.some.inj (hx.symm.trans hy)
      rw [show x = v from hholds]
      exact List.getElem?_concat_length
    · rw [List.getElem?_set_ne hm] at hs
      obtain ⟨y, hy, hholds⟩ := h.holds_at hs
      obtain rfl : x = y := Option.some.inj (hx.symm.trans hy)
      exact holds_append hholds [v]
  · exact hapart
  · intro w c hw
    rcases hlinks hw with ⟨m, hat, -⟩ | ⟨hw, -⟩
    · exact (List.getElem?_eq_some_iff.mp hat).1
    · exact h.placed w c hw
  · intro w w' c hw hw'
    rcases hlinks hw with ⟨m, hat, hm⟩ | ⟨hw, hseat⟩ <;> rcases hlinks hw' with ⟨m', hat', hm'⟩ | ⟨hw', hseat'⟩
    · obtain rfl := hapart m m' c hm hm'
      exact h.unique hat hat'
    · exact (hmixed hm hw' hseat').elim
    · exact (hmixed hm' hw hseat).elim
    · exact h.single w w' c hw hw'
  · exact h.opened
  · exact h.descending
  · exact fun w m hw => relink_slot hw
  · intro w x c hw hc
    rw [relink_closed hw] at hc
    obtain ⟨hx, hseat⟩ := h.closed w x c hw hc
    exact ⟨(List.getElem?_append_left (h.link_lt hc)).trans hx, fun m hm => hmixed hm hc hseat⟩
  · exact h.objects.imp fun _ _ hs => hs.extends hextends
  · exact h.globals
  · exact h.clock
  · exact h.printed

theorem allocate_after {seats' : List Seat} (h : i.Enacts σ (seats ++ .value v :: seats') links) :
    ∃ links', links.Extends links' ∧
      i.Enacts { σ with cells := σ.cells ++ [v] } (seats ++ .cell σ.cells.length :: seats') links' := by
  have hset : (seats ++ Seat.value v :: seats').set seats.length (.cell σ.cells.length) =
      seats ++ .cell σ.cells.length :: seats' := by
    rw [List.set_append_right _ _ (Nat.le_refl _), Nat.sub_self, List.set_cons_zero]
  have := h.allocate (n := seats.length) (v := v) (by simp)
  rw [hset] at this
  exact ⟨_, this⟩

theorem captureUpvalue (h : i.Enacts σ seats links) (n : Nat) : ∃ u upvalues opened links',
    (∀ objects, IdealM.captureUpvalue n { i with objects } =
      .ok u { i with objects, upvalues, openUpvalues := opened }) ∧ links.Extends links' ∧
      links' u = cellAt seats n ∧
      Ideal.Enacts { i with upvalues, openUpvalues := opened } σ seats links' := by
  cases hfind : i.openUpvalues.find? (·.1 == n) with
  | some w =>
    obtain ⟨m, u⟩ := w
    obtain rfl : m = n := by simpa using List.find?_some hfind
    have hu := (h.opened m u).mp (List.mem_of_find?_eq_some hfind)
    refine ⟨u, i.upvalues, i.openUpvalues, links, fun objects => ?_, .refl links, h.slots u m hu, h⟩
    unfold IdealM.captureUpvalue
    rw [runBind]
    simp only [runGet, hfind]
    rfl
  | none =>
    have hrun (objects : List (Obj Routine)) : IdealM.captureUpvalue n { i with objects } =
        .ok i.upvalues.length { i with
          objects
          upvalues := i.upvalues ++ [.slot n]
          openUpvalues := IdealM.insertUpvalue n i.upvalues.length i.openUpvalues } := by
      unfold IdealM.captureUpvalue
      rw [runBind]
      simp only [runGet, hfind]
      rfl
    have hnew : ∀ w ∈ i.openUpvalues, w.1 ≠ n := by
      simpa using hfind
    let links' : Links := Function.update links i.upvalues.length (cellAt seats n)
    have hold {u c : Nat} (hu : links u = some c) : links' u = some c :=
      (Function.update_of_ne (Nat.ne_of_lt (h.placed u c hu)) _ _).trans hu
    have hcases {u c : Nat} (hu : links' u = some c) :
        (u = i.upvalues.length ∧ cellAt seats n = some c) ∨ links u = some c := by
      by_cases hnew : u = i.upvalues.length
      · subst hnew
        exact .inl ⟨rfl, (Function.update_self i.upvalues.length (cellAt seats n) links).symm.trans hu⟩
      · exact .inr ((Function.update_of_ne hnew _ _).symm.trans hu)
    have hfree {u c : Nat} (hn : cellAt seats n = some c) (hu : links u = some c) : False := by
      rcases h.captured_at hu with ⟨m, x, hat, hm, -⟩ | ⟨x, -, -, hseat⟩
      · exact hnew _ ((h.opened m u).mpr hat) (h.apart m n c hm hn)
      · exact hseat n hn
    have hat {u : Nat} {k : Captured} (hu : (i.upvalues ++ [.slot n])[u]? = some k) :
        i.upvalues[u]? = some k ∨ (u = i.upvalues.length ∧ k = .slot n) :=
      getElem?_snoc hu
    refine ⟨i.upvalues.length, _, _, links', hrun, fun u c => hold, Function.update_self .., ?_⟩
    constructor
    · exact h.stack
    · exact h.apart
    · intro u c hu
      rw [List.length_append]
      rcases hcases hu with ⟨rfl, -⟩ | hu
      · exact Nat.lt_succ_self _
      · exact Nat.lt_succ_of_lt (h.placed u c hu)
    · intro u w c hu hw
      rcases hcases hu with ⟨rfl, hn⟩ | hu <;> rcases hcases hw with ⟨rfl, hn'⟩ | hw
      · rfl
      · exact (hfree hn hw).elim
      · exact (hfree hn' hu).elim
      · exact h.single u w c hu hw
    · intro m u
      show _ ∈ IdealM.insertUpvalue _ _ _ ↔ (i.upvalues ++ [Captured.slot n])[u]? = _
      rw [IdealM.mem_insertUpvalue, h.opened m u]
      constructor
      · rintro (⟨rfl, rfl⟩ | hu)
        · exact List.getElem?_concat_length
        · exact getElem?_append_of_some hu _
      · intro hu
        rcases hat hu with hu | ⟨rfl, hk⟩
        · exact .inr hu
        · cases hk
          exact .inl ⟨rfl, rfl⟩
    · exact IdealM.descending_insertUpvalue h.descending hnew
    · intro u m hu
      rcases hat hu with hu | ⟨rfl, hk⟩
      · have hlt := (List.getElem?_eq_some_iff.mp hu).1
        exact (Function.update_of_ne (Nat.ne_of_lt hlt) _ _).trans (h.slots u m hu)
      · cases hk
        exact Function.update_self ..
    · intro u x c hu hc
      rcases hat hu with hu | ⟨-, hk⟩
      · have hlt := (List.getElem?_eq_some_iff.mp hu).1
        exact h.closed u x c hu ((Function.update_of_ne (Nat.ne_of_lt hlt) _ _).symm.trans hc)
      · cases hk
    · exact h.objects.imp fun _ _ hs => hs.extends fun u c => hold
    · exact h.globals
    · exact h.clock
    · exact h.printed

theorem push (h : i.Enacts σ seats links) (v : Val) :
    Ideal.Enacts { i with stack := i.stack ++ [v] } σ (seats ++ [.value v]) links := by
  have hnone : i.Enacts σ (seats ++ ([] : List Val).map .value) links := by
    rwa [List.map_nil, List.append_nil]
  exact hnone.retop (List.append_nil _).symm [v]

theorem closeFrom {us : List (Nat × Nat)} (last : Nat) (h : i.Enacts σ seats links) (hus : i.openUpvalues = us) :
    (∃ e j, IdealM.closeFrom last us i = .error (.fault e) j) ∨ ∃ upvalues opened seats',
      IdealM.closeFrom last us i = .ok () { i with upvalues, openUpvalues := opened } ∧
      seats'.take last = seats.take last ∧ (∀ w ∈ opened, w.1 < last) ∧
      Ideal.Enacts { i with upvalues, openUpvalues := opened } σ seats' links := by
  induction us generalizing i seats with
  | nil =>
    refine .inr ⟨i.upvalues, i.openUpvalues, seats, rfl, rfl, ?_, h⟩
    rw [hus]
    nofun
  | cons w us ih =>
    obtain ⟨n, u⟩ := w
    unfold IdealM.closeFrom
    by_cases hlast : last ≤ n
    · rw [if_pos hlast, runBind]
      unfold IdealM.readSlot
      rw [runBind]
      simp only [runGet]
      cases hv : i.stack[n]? with
      | none => exact .inl ⟨_, _, rfl⟩
      | some v =>
        rcases ih (h.close hus hv) rfl with ⟨e, j, hfault⟩ | ⟨upvalues, opened, seats', hclose, htake, hlow, h'⟩
        · exact .inl ⟨e, j, hfault⟩
        · refine .inr ⟨upvalues, opened, seats', hclose, htake.trans ?_, hlow, h'⟩
          rw [List.take_set, List.set_eq_of_length_le (by rw [List.length_take]; omega)]
    · rw [if_neg hlast]
      refine .inr ⟨i.upvalues, i.openUpvalues, seats, rfl, rfl, fun w hw => ?_, h⟩
      have hdescending := h.descending
      rw [hus] at hdescending hw
      rcases List.mem_cons.mp hw with rfl | hw
      · exact Nat.lt_of_not_le hlast
      · exact Nat.lt_trans ((List.pairwise_cons.mp hdescending).1 w hw) (Nat.lt_of_not_le hlast)

theorem closeUpvalues (h : i.Enacts σ seats links) (last : Nat) :
    (∃ e j, IdealM.closeUpvalues last i = .error (.fault e) j) ∨ ∃ upvalues opened,
      IdealM.closeUpvalues last i = .ok () { i with upvalues, openUpvalues := opened } ∧
      Ideal.Enacts { i with upvalues, openUpvalues := opened, stack := i.stack.take last } σ (seats.take last)
        links := by
  rcases h.closeFrom last rfl with hfault | ⟨upvalues, opened, seats', hclose, htake, hlow, h'⟩
  · exact .inl hfault
  · exact .inr ⟨upvalues, opened, hclose, htake ▸ h'.cut hlow⟩

end Ideal.Enacts

end

end Lox

import Lox.Proofs.Ideal.Entries
import Lox.Proofs.Ideal.Step
import Lox.Proofs.Machine.Values
import Lox.Proofs.Words

namespace Lox

open Heap

section Forall₂

variable {α β : Type} {R : α → β → Prop} {xs : List α} {ys : List β}

theorem forall₂_getElem? (h : List.Forall₂ R xs ys) {n : Nat} {y : β} (hy : ys[n]? = some y) :
    ∃ x, xs[n]? = some x ∧ R x y := by
  induction h generalizing n with
  | nil => simp at hy
  | cons hxy _ ih =>
    cases n with
    | zero =>
      simp only [List.getElem?_cons_zero, Option.some.injEq] at hy
      subst hy
      exact ⟨_, rfl, hxy⟩
    | succ n => exact ih hy

theorem forall₂_snoc (h : List.Forall₂ R xs ys) {x : α} {y : β} (hxy : R x y) :
    List.Forall₂ R (xs ++ [x]) (ys ++ [y]) :=
  List.rel_append h (.cons hxy .nil)

theorem forall₂_set (h : List.Forall₂ R xs ys) (n : Nat) {x : α} {y : β} (hxy : R x y) :
    List.Forall₂ R (xs.set n x) (ys.set n y) := by
  induction h generalizing n with
  | nil => exact .nil
  | cons hd htl ih =>
    cases n with
    | zero => exact .cons hxy htl
    | succ n => exact .cons hd (ih n)

theorem forall₂_mem (h : List.Forall₂ R xs ys) {x : α} (hx : x ∈ xs) : ∃ y ∈ ys, R x y := by
  induction h with
  | nil => cases hx
  | cons hxy _ ih =>
    rcases List.mem_cons.mp hx with rfl | hx
    · exact ⟨_, .head _, hxy⟩
    · obtain ⟨y, hy, hR⟩ := ih hx
      exact ⟨y, .tail _ hy, hR⟩

theorem forall₂_snoc_inv (h : List.Forall₂ R xs ys) {ys' : List β} {y : β} (hy : ys = ys' ++ [y]) :
    ∃ xs' x, xs = xs' ++ [x] ∧ List.Forall₂ R xs' ys' ∧ R x y := by
  subst hy
  obtain ⟨zs, ⟨z, hz⟩⟩ : ∃ zs, ∃ z, xs = zs ++ [z] := by
    rcases List.eq_nil_or_concat' xs with rfl | ⟨zs, z, hz⟩
    · have := h.length_eq
      simp at this
    · exact ⟨zs, z, hz⟩
  subst hz
  have hlen : zs.length = ys'.length := by
    have := h.length_eq
    simpa using this
  have h₁ := List.forall₂_take zs.length h
  have h₂ := List.forall₂_drop zs.length h
  rw [List.take_left, hlen, List.take_left] at h₁
  rw [List.drop_left, hlen, List.drop_left] at h₂
  cases h₂ with
  | cons hzy _ => exact ⟨zs, z, rfl, h₁, hzy⟩

theorem forall₂_tail (h : List.Forall₂ R xs ys) : List.Forall₂ R xs.tail ys.tail := by
  cases h with
  | nil => exact .nil
  | cons _ h => exact h

theorem getElem?_append_of_some {n : Nat} {x : α} (hx : xs[n]? = some x) (zs : List α) :
    (xs ++ zs)[n]? = some x := by
  rw [List.getElem?_append_left (List.getElem?_eq_some_iff.mp hx).1, hx]

theorem forall₂_imp_mem {S : α → β → Prop} (h : List.Forall₂ R xs ys)
    (himp : ∀ x y, x ∈ xs → R x y → S x y) : List.Forall₂ S xs ys := by
  induction h with
  | nil => exact .nil
  | cons hxy _ ih =>
    exact .cons (himp _ _ (.head _) hxy) (ih fun x y hx => himp x y (.tail _ hx))

end Forall₂

structure SameCall (w : World) (h : Heap) (f : Frame) (a : Activation) : Prop where
  closure : w f.closure = some (.object a.closure)
  alive : h.Alive f.closure
  ip : f.ip = a.ip
  base : f.base = a.base

structure SameOpen (w : World) (h : Heap) (u : Int × Loc) (v : Nat × Nat) : Prop where
  slot : u.1 = v.1
  place : w u.2 = some (.upvalue v.2)
  alive : h.Alive u.2

/-- A machine that is in the state of an ideal machine. -/
structure Mirrors (w : World) (m : Machine) (i : Ideal) : Prop where
  pictures : Pictures w i.objects i.upvalues m.heap
  canonical : m.heap.AllCanonical
  filled : m.Filled
  stack : List.Forall₂ (m.heap.Shows w) m.values i.stack
  frames : List.Forall₂ (SameCall w m.heap) m.calls.frames i.frames
  opened : List.Forall₂ (SameOpen w m.heap) m.openUpvalues i.openUpvalues
  globals : m.heap.ShowsTable w m.globals i.globals
  initName : ∃ s, m.initName = some s ∧ s.chars = "init" ∧ m.heap.IsString s.loc s.chars s.hash
  holds : m.heap.holds = []
  markers : m.heap.markers = [.machine]
  printed : m.printed = i.printed
  maxFrames : m.maxFrames = i.maxFrames
  clock : m.clock = i.clock
  closed : m.closed = false
  compiler : m.compiler = .standard

namespace Mirrors

open MachineM

variable {w w' : World} {m : Machine} {i : Ideal} (hm : Mirrors w m i)

include hm

theorem sp_eq : m.sp = i.stack.length := by
  rw [← hm.filled.length, hm.stack.length_eq]

theorem origins : m.heap.origins (roots m) =
    Machine.links m.stack m.sp m.calls m.openUpvalues m.globals m.initName := by
  rw [Heap.origins, hm.holds, Heap.registered, hm.markers]
  exact List.append_nil _

theorem root_cases {link : Link} (hl : link ∈ m.heap.origins (roots m)) :
    (∃ v ∈ m.values, link = .value v) ∨ (∃ f ∈ m.calls.frames, link = .object f.closure) ∨
      (∃ u ∈ m.openUpvalues, link = .object u.2) ∨ link ∈ m.globals.links ∨
      ∃ s, m.initName = some s ∧ link = .object s.loc := by
  rw [hm.origins, Machine.links] at hl
  simp only [List.mem_append, List.mem_map, List.mem_reverse, Option.mem_toList] at hl
  rcases hl with (((⟨v, hv, rfl⟩ | ⟨f, hf, rfl⟩) | ⟨u, hu, rfl⟩) | hl) | ⟨s, hs, rfl⟩
  · exact .inl ⟨v, hv, rfl⟩
  · exact .inr (.inl ⟨f, hf, rfl⟩)
  · exact .inr (.inr (.inl ⟨u, hu, rfl⟩))
  · exact .inr (.inr (.inr (.inl hl)))
  · exact .inr (.inr (.inr (.inr ⟨s, hs, rfl⟩)))

theorem value_root {v : Value} (hv : v ∈ m.values) : .value v ∈ m.heap.origins (roots m) := by
  rw [hm.origins, Machine.links]
  simp only [List.mem_append, List.mem_map]
  exact .inl (.inl (.inl (.inl ⟨v, hv, rfl⟩)))

theorem frame_root {f : Frame} (hf : f ∈ m.calls.frames) :
    .object f.closure ∈ m.heap.origins (roots m) := by
  rw [hm.origins, Machine.links]
  simp only [List.mem_append, List.mem_map, List.mem_reverse]
  exact .inl (.inl (.inl (.inr ⟨f, hf, rfl⟩)))

theorem open_root {u : Int × Loc} (hu : u ∈ m.openUpvalues) :
    .object u.2 ∈ m.heap.origins (roots m) := by
  rw [hm.origins, Machine.links]
  simp only [List.mem_append, List.mem_map, List.mem_reverse]
  exact .inl (.inl (.inr ⟨u, hu, rfl⟩))

theorem global_root {link : Link} (hl : link ∈ m.globals.links) :
    link ∈ m.heap.origins (roots m) := by
  rw [hm.origins, Machine.links]
  simp only [List.mem_append]
  exact .inl (.inr hl)

theorem rooted : m.heap.Rooted (roots m) := by
  intro link hl
  have hc := hm.pictures.sound.consistent
  rcases hm.root_cases hl with ⟨v, hv, rfl⟩ | ⟨f, hf, rfl⟩ | ⟨u, hu, rfl⟩ | hl | ⟨s, hs, rfl⟩
  · obtain ⟨x, -, hx⟩ := forall₂_mem hm.stack hv
    exact ⟨hx.valid hc, trivial⟩
  · obtain ⟨a, -, ha⟩ := forall₂_mem hm.frames hf
    exact ⟨.object ha.alive, trivial⟩
  · obtain ⟨b, -, hb⟩ := forall₂_mem hm.opened hu
    exact ⟨.object hb.alive, trivial⟩
  · refine ⟨hm.globals.valid hc link hl, ?_⟩
    rcases Table.cases_of_mem_links hm.globals.blank hl with ⟨_, _, _, rfl | rfl⟩ | ⟨_, rfl, _⟩ <;>
      trivial
  · obtain ⟨s', hs', -, hstr⟩ := hm.initName
    rw [hs] at hs'
    cases hs'
    exact ⟨.object hstr.alive, trivial⟩

theorem reheap {h' : Heap} {objects : List (Obj Routine)} {upvalues : List Captured}
    (hw : w.Extends w') (hc : Carries (m.heap.origins (roots m)) m.heap h')
    (hp : Pictures w' objects upvalues h') :
    Mirrors w' { m with heap := h' } { i with objects, upvalues } where
  pictures := hp
  canonical := hc.canonical hm.canonical
  filled := ⟨hm.filled.written, hm.filled.room⟩
  stack := forall₂_imp_mem hm.stack fun v x hv hx =>
    hc.shows hw hx (hc.alive _ (hm.value_root hv))
  frames := forall₂_imp_mem hm.frames fun f a hf ha =>
    ⟨hw _ _ ha.closure, hc.alive _ (hm.frame_root hf) _ (.object _), ha.ip, ha.base⟩
  opened := forall₂_imp_mem hm.opened fun u v hu hv =>
    ⟨hv.slot, hw _ _ hv.place, hc.alive _ (hm.open_root hu) _ (.object _)⟩
  globals := hc.showsTable hw hm.globals fun link hl => hc.alive link (hm.global_root hl)
  initName := by
    obtain ⟨s, hs, hchars, hstr⟩ := hm.initName
    refine ⟨s, hs, hchars, hc.strings _ _ _ hstr (hc.alive (.object s.loc) ?_ _ (.object _))⟩
    rw [hm.origins, Machine.links]
    simp [hs]
  holds := hc.holds.trans hm.holds
  markers := hc.markers.trans hm.markers
  printed := hm.printed
  maxFrames := hm.maxFrames
  clock := hm.clock
  closed := hm.closed
  compiler := hm.compiler

end Mirrors

end Lox

namespace Lox

open Heap

def Table.values (t : Table) : List Value :=
  t.entries.toList.map (·.value)

theorem Table.value_mem_links {t : Table} {v : Value} : .value v ∈ t.links ↔ v ∈ t.values := by
  simp only [links, values, List.mem_flatMap, List.mem_map]
  constructor
  · rintro ⟨e, he, hv⟩
    refine ⟨e, he, ?_⟩
    cases hk : e.key <;> simpa [hk, eq_comm] using hv
  · rintro ⟨e, he, rfl⟩
    refine ⟨e, he, ?_⟩
    cases e.key <;> simp

def Body.values : Body → List Value
  | function f => f.chunk.constants.toList
  | upvalue (.closed v) => [v]
  | class_ c => c.methods.values
  | instance_ i => i.fields.values
  | boundMethod b => [b.receiver]
  | _ => []

theorem Body.value_mem_links {b : Body} {v : Value} (h : v ∈ b.values) : .value v ∈ b.links := by
  unfold values at h
  split at h
  · simpa [links] using h
  · simpa [links] using h
  · exact .tail _ (Table.value_mem_links.mpr h)
  · exact .tail _ (Table.value_mem_links.mpr h)
  · simpa [links] using h
  · cases h

inductive Machine.InUse (m : Machine) : Value → Prop
  | stack {v : Value} : v ∈ m.values → m.InUse v
  | global {v : Value} : v ∈ m.globals.values → m.InUse v
  | object {v : Value} {l : Loc} {o : Object} : m.heap.objects[l]? = some o → o.freed = false →
      v ∈ o.body.values → m.InUse v

/-- A word that a constructor makes; if it is that of an object, the object is live. -/
def Heap.Proper (h : Heap) (v : Value) : Prop :=
  ∃ d : Datum, v = d.word ∧ ∀ ref, d = .object ref → h.isLive ref = true

theorem Heap.Valid.proper {h : Heap} {v : Value} (hv : h.Valid (.value v)) (hc : v.IsCanonical) :
    h.Proper v := by
  obtain ⟨d, rfl⟩ := hc.exists_word
  refine ⟨d, rfl, ?_⟩
  rintro ref rfl
  have hfind : ∃ l, h.find? (Datum.object ref).word.handle = some l := by
    cases hv with
    | plain hn =>
      have hobject : (Datum.object ref).word.isObject = true := Value.isObject_object ref
      rw [hobject] at hn
      cases hn
    | value _ hf _ => exact ⟨_, hf⟩
  obtain ⟨l, hl⟩ := hfind
  rw [show (Datum.object ref).word.handle = ref from Value.handle_object ref] at hl
  simp [isLive, hl]

def Machine.Proper (m : Machine) : Prop :=
  ∀ v, m.InUse v → m.heap.Proper v

variable {w : World} {m m' : Machine} {i : Ideal}

theorem Mirrors.proper (hm : Mirrors w m i) : m.Proper := by
  have hc := hm.pictures.sound.consistent
  intro v hv
  cases hv with
  | stack hv =>
    obtain ⟨x, -, hx⟩ := forall₂_mem hm.stack hv
    exact (hx.valid hc).proper hx.canonical
  | global hv =>
    have hl := Table.value_mem_links.mpr hv
    exact (hm.globals.valid hc _ hl).proper (hm.globals.canonical hl)
  | @object l o ho hf hv =>
    have hl : .value v ∈ m.heap.linksAt l := by
      rw [linksAt, ho]
      exact Body.value_mem_links hv
    exact (hm.pictures.linked l ⟨o, ho, hf⟩ _ hl).proper (hm.canonical l ⟨o, ho, hf⟩ v hl)

theorem Machine.Proper.shrink (hm : m.Proper) (hh : m'.heap = m.heap) (hg : m'.globals = m.globals)
    (hs : ∀ v ∈ m'.values, v ∈ m.values) : m'.Proper := by
  intro v hv
  rw [hh]
  apply hm
  cases hv with
  | stack hv => exact .stack (hs v hv)
  | global hv => exact .global (hg ▸ hv)
  | object ho hf hv => exact .object (hh ▸ ho) hf hv

end Lox

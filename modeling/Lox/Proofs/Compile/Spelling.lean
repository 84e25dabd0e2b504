import Lox.Proofs.Ideal.Start
import Lox.Proofs.Source.Progress

namespace Lox

open Heap HeapView

namespace Heap

mutual

/-- The function at a place is the given tree, and all objects of the tree are live. -/
inductive Spells (h : Heap) : Loc → Prototype → Prop
  | intro {l : Loc} {f : Function} {p : Prototype} (alive : h.Alive l) (there : functionAt l h = .ok f)
      (arity : f.arity = p.arity) (captures : f.upvalueCount = p.captures)
      (name : f.name.map Symbol.chars = p.name)
      (named : ∀ s, f.name = some s → h.IsString s.loc s.chars s.hash)
      (code : f.chunk.code.toList = p.code) (lines : f.chunk.lines.toList = p.lines.map Int.ofNat)
      (constants : List.Forall₂ (SpellsConstant h) f.chunk.constants.toList p.constants) : Spells h l p

inductive SpellsConstant (h : Heap) : Value → Literal → Prop
  | number {v : Value} (number : v.isNumber = true) : SpellsConstant h v (.number v)
  | string {v : Value} {l : Loc} {chars : Bytes} {hash : UInt32} (names : h.Names v l)
      (string : h.IsString l chars hash) : SpellsConstant h v (.string chars)
  | function {v : Value} {l : Loc} {p : Prototype} (names : h.Names v l) (spells : Spells h l p) :
      SpellsConstant h v (.function p)

end

variable {h : Heap} {w : World} {objects : List (Obj Routine)} {upvalues : List Captured}

namespace Pictures

variable (hp : Pictures w objects upvalues h)

include hp

theorem spellsConstants {vs : List Value} {ks : List Literal} (hs : List.Forall₂ (h.ShowsConstant w) vs ks)
    (hinner : ∀ q l, .function q ∈ ks → h.Alive l → w l = some (.function q) → h.Spells l q) :
    List.Forall₂ h.SpellsConstant vs ks := by
  induction hs with
  | nil => exact .nil
  | @cons v k vs ks hv _ ih =>
    refine .cons ?_ (ih fun q l hq => hinner q l (.tail _ hq))
    cases k with
    | number u =>
      obtain ⟨rfl, hnumber⟩ := hv
      exact .number hnumber.isNumber
    | string chars =>
      obtain ⟨l, hash, hnames, hstring⟩ := hv
      exact .string hnames hstring
    | function q =>
      obtain ⟨l, hnames, hw⟩ := hv
      exact .function hnames (hinner q l (.head _) (hnames.alive hp.sound.consistent) hw)

theorem spells (p : Prototype) (l : Loc) (ha : h.Alive l) (hw : w l = some (.function p)) : h.Spells l p := by
  obtain ⟨f, hf, hs, -⟩ := hp.function ha hw
  refine .intro ha hf hs.arity hs.captures hs.name hs.named hs.code hs.lines ?_
  exact hp.spellsConstants hs.constants fun q k _ hk hwk => spells q k hk hwk
termination_by sizeOf p
decreasing_by exact Prototype.sizeOf_lt ‹_›

end Pictures

end Heap

/-- Two compilations have come to the same: the same diagnostics, or functions that are the same tree. -/
def SameAnswers (h h' : Heap) : Except (List Diagnostic) Loc → Except (List Diagnostic) Loc → Prop
  | .ok l, .ok l' => ∃ p, h.Spells l p ∧ h'.Spells l' p
  | .error ds, .error ds' => ds ≠ [] ∧ ds = ds'
  | _, _ => False

theorem compile_spells {source : Bytes} {p : Prototype}
    (hdraft : Order.draftAll {} (analyze source).1 = some ⟨[], some p⟩) (options : GcOptions) :
    (finalState (compile source (fun _ => []) (Heap.new options))).Exhausted ∨
      ∃ answer h', compile source (fun _ => []) (Heap.new options) = .ok answer h' ∧
        match answer with
        | .ok l => (analyze source).2 = [] ∧ h'.Spells l p
        | .error ds => (analyze source).2 ≠ [] ∧ ds = (analyze source).2 := by
  have hrooted : (Heap.new options).Rooted (fun _ => []) := nofun
  have hdelivers := delivers_compile (pictures_new options) hrooted hdraft
  unfold HeapM.Delivers at hdelivers
  cases hrun : compile source (fun _ => []) (Heap.new options) with
  | error e h' =>
    rw [hrun] at hdelivers
    exact .inl (hdelivers.resolve_right id)
  | ok answer h' =>
    rw [hrun] at hdelivers
    refine hdelivers.imp id fun ⟨w, _, hp, _, _, hanswer⟩ => ⟨answer, h', rfl, ?_⟩
    cases answer with
    | ok l =>
      obtain ⟨hnone, halive, hl⟩ := hanswer
      exact ⟨hnone, hp.spells p l halive hl⟩
    | error ds => exact hanswer

/-- A source text is compiled to the same on all new heaps, whenever they collect. -/
theorem compile_same_on_all_heaps (source : Bytes) (options options' : GcOptions) :
    (finalState (compile source (fun _ => []) (Heap.new options))).Exhausted ∨
      (finalState (compile source (fun _ => []) (Heap.new options'))).Exhausted ∨
      ∃ answer answer' h h', compile source (fun _ => []) (Heap.new options) = .ok answer h ∧
        compile source (fun _ => []) (Heap.new options') = .ok answer' h' ∧ SameAnswers h h' answer answer' := by
  obtain ⟨p, hdraft⟩ := draftAll_analyze source
  rcases compile_spells hdraft options with hfull | ⟨answer, h, hrun, hanswer⟩
  · exact .inl hfull
  rcases compile_spells hdraft options' with hfull | ⟨answer', h', hrun', hanswer'⟩
  · exact .inr (.inl hfull)
  refine .inr (.inr ⟨answer, answer', h, h', hrun, hrun', ?_⟩)
  cases answer with
  | ok l =>
    cases answer' with
    | ok l' => exact ⟨p, hanswer.2, hanswer'.2⟩
    | error ds => exact absurd hanswer.1 hanswer'.1
  | error ds =>
    cases answer' with
    | ok l' => exact absurd hanswer'.1 hanswer.1
    | error ds' => exact ⟨hanswer.2 ▸ hanswer.1, hanswer.2.trans hanswer'.2.symm⟩

end Lox

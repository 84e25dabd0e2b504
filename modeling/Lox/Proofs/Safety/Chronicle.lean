import Lox.Proofs.Disassembly.Functions
import Lox.Proofs.Ideal.Methods
import Lox.Proofs.Machine.Namings
import Lox.Proofs.Safety.Run

namespace Lox

open Heap HeapView MachineM HeapM

variable {α β : Type}

namespace Sim

variable {m m' : Machine} {i : Ideal} {act : MachineM α} {spec : IdealM β} {post : α → β → Machine → Ideal → Prop}
  {q : β → Ideal → Prop} {a : α} {s : Stop}

theorem of_ok (h : Sim m i act spec post) (hs : IdealM.Safe i spec q) (hrun : act m = .ok a m') :
    m'.heap.Exhausted ∨ ∃ b i', spec i = .ok b i' ∧ post a b m' i' ∧ q b i' := by
  unfold Sim at h
  unfold IdealM.Safe at hs
  rw [hrun] at h
  cases hspec : spec i with
  | ok b i' =>
    rw [hspec] at h hs
    exact h.imp_right fun h => ⟨b, i', rfl, h, hs⟩
  | error e i' =>
    rw [hspec] at h hs
    cases e with
    | fault f => exact hs.elim
    | error e => exact .inl h

end Sim

section

variable {w : World} {m m' : Machine} {i i' : Ideal} {Γ : Facts}

namespace Mirrors

theorem biUnique (hm : Mirrors w m i) : Relator.BiUnique w.Numbers :=
  ⟨fun _ _ _ hl hk => hm.pictures.object_inj _ _ _ hl hk,
    fun _ _ _ ha hb => Thing.object.inj (Option.some.inj (ha.symm.trans hb))⟩

theorem compiled (hm : Mirrors w m i) {source : Bytes} {k : Loc} {h' : Heap}
    (hcompile : compile source (roots m) m.heap = .ok (.ok k) h') : h'.Exhausted ∨
      ∃ (w' : World) (f : Listing Item) (p : Prototype), w.Extends w' ∧ Mirrors w' { m with heap := h' } i ∧
        w' k = some (.function p) ∧ h'.Alive k ∧ f.Script p ∧ f.classes = classesOf source := by
  obtain ⟨body, f, p, hparse, hlisting, hdraft, hmade⟩ := analyze_accepted (accepted_of_compile hcompile)
  obtain ⟨hverified, harity, horigins⟩ := scriptListing_verified hlisting
  have hdelivers := delivers_compile hm.pictures hm.rooted hdraft
  unfold Delivers at hdelivers
  rw [hcompile] at hdelivers
  refine hdelivers.imp_right ?_
  rintro ⟨w', hw, hp, -, hcar, -, halive, hscript⟩
  obtain ⟨-, -, -, -, -, hclasses⟩ := scriptListing_functions hlisting
  refine ⟨w', f, p, hw, hm.reheap hw hcar hp, hscript, halive, ⟨hverified, harity, horigins, hmade⟩, ?_⟩
  rw [hclasses, classesOf, hparse]
  rfl

theorem start (hm : Mirrors w m i) (hi : i.Idle) {source : Bytes}
    (hstart : EmbedM.start source m = .ok .running m') : m'.heap.Exhausted ∨
      ∃ (w' : World) (f : Listing Item) (p : Prototype), Mirrors w' m' (i.launched p) ∧ f.Script p ∧
        f.classes = classesOf source := by
  rw [EmbedM.start_eq, hm.closed, hm.compiler] at hstart
  simp only [Bool.false_eq_true, if_false] at hstart
  rw [runBind, EmbedM.onHeap, EmbedM.ofMachine, run_onHeap] at hstart
  cases hcompile : compile source (roots m) m.heap with
  | error f heap =>
    rw [hcompile] at hstart
    cases hstart
  | ok answer heap =>
    rw [hcompile] at hstart
    cases answer with
    | error ds => cases hstart
    | ok script =>
      dsimp only at hstart
      rw [EmbedM.enter_eq] at hstart
      unfold EmbedM.attempt at hstart
      rw [runBind] at hstart
      cases hlaunch : EmbedM.launch script { m with heap } with
      | error s m₁ =>
        rw [hlaunch] at hstart
        cases s <;> cases hstart
      | ok u m₁ =>
        rw [hlaunch] at hstart
        cases hstart
        rcases hm.compiled hcompile with he | ⟨w₁, f, p, -, hm₁, hscript, halive, hf, hclasses⟩
        · exact .inl (Grows.ok (m := { m with heap }) he hlaunch)
        · refine ((follows_launch hm₁ hscript halive hi.stack hi.frames hi.opened).of_ok (hi.enter hf)
              hlaunch).imp_right ?_
          rintro ⟨-, i', -, ⟨-, w', -, hm'⟩, rfl⟩
          exact ⟨w', f, p, hm', hf, hclasses⟩

theorem top? (hm : Mirrors w m i) (d : Nat) : Option.Rel w.Numbers (m.top? d) (i.top? d) := by
  have hstack : List.Forall₂ (m.heap.Shows w) m.values.reverse i.stack.reverse := List.forall₂_reverse_iff.mpr hm.stack
  have hnone {v : Value} (hv : m.values.reverse[d]? = some v) (hplain : v.isObject = false) : m.top? d = none := by
    simp only [Machine.top?, hv, Option.bind_eq_bind, Option.bind_some, locOfValue_plain hplain, Except.toOption,
      Option.bind_none]
  cases hx : i.stack.reverse[d]? with
  | none =>
    have hv : m.values.reverse[d]? = none := by
      rw [List.getElem?_eq_none_iff] at hx ⊢
      rwa [hstack.length_eq]
    simp only [Machine.top?, Ideal.top?, hx, hv, Option.bind_eq_bind, Option.bind_none]
    exact .none
  | some x =>
    obtain ⟨v, hv, hshow⟩ := forall₂_getElem? hstack hx
    rw [Ideal.top?, hx, Option.bind_some]
    cases x with
    | nil =>
      rw [hnone hv (by rw [show v = .nil from hshow]; rfl)]
      exact .none
    | bool b =>
      rw [hnone hv (by rw [show v = .ofBool b from hshow]; cases b <;> rfl)]
      exact .none
    | number bits =>
      rw [hnone hv (hshow.2.isObject)]
      exact .none
    | string chars =>
      obtain ⟨l, hash, hn, o, ho, -, hb⟩ := hshow
      have hkind : o.kind = .string := by rw [Object.kind, hb]; rfl
      simp only [Machine.top?, hv, Option.bind_eq_bind, Option.bind_some, hn.locOfValue, Except.toOption, ho, hkind]
      exact .none
    | object a =>
      obtain ⟨l, hn, hw⟩ := hshow
      obtain ⟨o, ho, -, hd⟩ := hm.pictures.body (hn.alive hm.pictures.sound.consistent) hw
      obtain ⟨x, hx, hkind⟩ := hd.kind
      simp only [Machine.top?, hv, Option.bind_eq_bind, Option.bind_some, hn.locOfValue, Except.toOption, ho]
      have hkind' : o.kind = x.kind := hkind
      rw [hkind']
      cases x <;> exact .some hw

theorem nameAt {fn : Function} {p : Prototype} (hm : Mirrors w m i) (hfn : m.heap.ShowsFunction w fn p)
    (offset : Nat) : m.nameAt fn offset = p.nameAt offset := by
  unfold Machine.nameAt Prototype.nameAt
  rw [Growable.get?_eq, hfn.code]
  cases p.code[offset]? with
  | none => rfl
  | some b =>
    simp only [Option.bind_eq_bind, Option.bind_some]
    rw [Growable.get?_eq]
    cases hlit : p.constants[b.toNat]? with
    | none =>
      rw [List.getElem?_eq_none_iff] at hlit
      rw [List.getElem?_eq_none_iff.mpr (hfn.constants.length_eq ▸ hlit)]
      rfl
    | some lit =>
      obtain ⟨v, hv, hshow⟩ := forall₂_getElem? hfn.constants hlit
      rw [hv]
      simp only [Option.bind_some]
      cases lit with
      | number u =>
        have hplain := hshow.2.isObject
        simp only [asSymbol_plain hplain, Except.toOption, Option.bind_none]
      | string chars =>
        obtain ⟨l, hash, hn, hs⟩ := hshow
        simp only [hn.asSymbol hs, Except.toOption, Option.bind_some]
        rfl
      | function q =>
        obtain ⟨l, hn, hw⟩ := hshow
        obtain ⟨o, ho, -, hd⟩ := hm.pictures.body (hn.alive hm.pictures.sound.consistent) hw
        cases hsymbol : asSymbol v m.heap with
        | error e => simp only [Except.toOption, Option.bind_none]
        | ok s =>
          unfold asSymbol at hsymbol
          rw [view_bind, hn.locOfValue] at hsymbol
          obtain ⟨-, o', ho', hb⟩ := symbolAt_eq_ok.mp hsymbol
          rw [ho] at ho'
          cases ho'
          rw [hb] at hd
          cases hd

theorem running? (hm : Mirrors w m i) {f : Activation} {rest : List Activation} {p : Prototype}
    (hf : i.frames = f :: rest) (hp : CodeAt i.objects f.closure p) : ∃ g gs fn, m.calls.frames = g :: gs ∧
      SameCall w m.heap g f ∧ m.running? = some (g, fn) ∧ m.heap.ShowsFunction w fn p := by
  obtain ⟨r, hr, rfl⟩ := hp
  obtain ⟨g, gs, hg, hsame, -⟩ := hm.frame hf
  obtain ⟨c, hc, hwf, hfa, -⟩ := hm.pictures.closure hsame.alive hsame.closure hr
  obtain ⟨fn, hfn, hshows, -⟩ := hm.pictures.function hfa hwf
  refine ⟨g, gs, fn, hg, hsame, ?_, hshows⟩
  simp only [Machine.running?, hg, List.head?_cons, Option.bind_eq_bind, Option.bind_some, hc, hfn, Except.toOption]
  rfl

theorem instr? (hm : Mirrors w m i) {f : Activation} {rest : List Activation} {p : Prototype}
    (hf : i.frames = f :: rest) (hp : CodeAt i.objects f.closure p) : m.instr? = i.instr? := by
  obtain ⟨g, gs, fn, -, hsame, hrunning, hshows⟩ := hm.running? hf hp
  obtain ⟨r, hr, rfl⟩ := hp
  have hcode (offset : Nat) : fn.chunk.code.get? offset = r.prototype.code[offset]? := by
    rw [Growable.get?_eq, hshows.code]
  simp only [Machine.instr?, Ideal.instr?, hrunning, hf, hr, List.head?_cons, Option.bind_eq_bind, Option.bind_some,
    hcode, hm.nameAt hshows, hsame.ip]

theorem deed {f : Activation} {rest : List Activation} {p : Prototype} {w' : World} (hm : Mirrors w m i)
    (hm' : Mirrors w' m' i') (hw : w.Extends w') (hf : i.frames = f :: rest) (hp : CodeAt i.objects f.closure p) :
    (m.deed m').Alike w'.Numbers (i.deed i') := by
  have hwide {l a : Option Nat} (h : Option.Rel w.Numbers l a) : Option.Rel w'.Numbers l a := by
    cases h with
    | none => exact .none
    | some h => exact .some (hw _ _ h)
  have hrunning : Option.Rel w.Numbers (m.calls.frames.head?.map (·.closure)) i.closures.head? := by
    obtain ⟨g, gs, hg, hsame, -⟩ := hm.frame hf
    rw [hg, Ideal.closures, hf]
    exact .some hsame.closure
  unfold Machine.deed Ideal.deed
  rw [hm.instr? hf hp]
  cases i.instr? with
  | none => exact .idle
  | some x =>
    exact Deed.alike_of (hwide hrunning) (hwide (hm.top? 0)) (hwide (hm.top? 1)) (hm'.top? 0)

end Mirrors

/-- A machine that mirrors a sound ideal machine, with the same story of the classes. -/
structure Stands (m : Machine) (L : Lineage) (w : World) (i : Ideal) (Γ : Facts) : Prop where
  mirrors : Mirrors w m i
  sound : i.Sound Γ
  story : L.Alike w.Numbers Γ.lineage

theorem Stands.step {L : Lineage} (h : Stands m L w i Γ) (hstep : MachineM.step m = .ok true m') :
    m'.heap.Exhausted ∨ ∃ w' i' Γ', w.Extends w' ∧ Stands m' (L.after (m.deed m')) w' i' Γ' ∧
      IdealM.step i = .ok true i' ∧ Γ.Leads i Γ' i' := by
  refine ((follows_step h.mirrors).of_ok h.sound.step hstep).imp_right ?_
  rintro ⟨-, i', hideal, ⟨rfl, w', hw, hm'⟩, ⟨hmore, -⟩ | ⟨-, Γ', hleads⟩⟩
  · cases hmore
  · obtain ⟨-, f, rest, p, a, s, below, hrunning, -⟩ := id h.sound
    refine ⟨w', i', Γ', hw, ⟨hm', hleads.sound, ?_⟩, hideal, hleads⟩
    rw [hleads.lineage]
    exact (h.story.mono fun _ _ => hw _ _).after hm'.biUnique
      (h.mirrors.deed hm' hw hrunning.frames hrunning.knows.closure)

theorem Machine.mirrors_start {options : GcOptions} {n : Int} {clock : Clock} {source : Bytes}
    (hnew : Machine.new options n .standard clock = .ok m) (hstart : EmbedM.start source m = .ok .running m') :
    m'.heap.Exhausted ∨ ∃ (w : World) (f : Listing Item) (p : Prototype),
      Mirrors w m' ((Ideal.new (framesFor n) clock).launched p) ∧ f.Script p ∧ f.classes = classesOf source := by
  rcases Machine.mirrors_new hnew with he | ⟨w, hm⟩
  · have hrun : EmbedM.interpret 0 source m = .ok .running m' := by
      rw [EmbedM.interpret, runBind, hstart]
      rfl
    have hend := EmbedM.exhausted_interpret he 0 source
    rw [hrun] at hend
    exact .inl hend
  · exact hm.start (Ideal.idle_new _ _) hstart

theorem Machine.Trail.stands_classes {options : GcOptions} {n : Int} {clock : Clock} {source : Bytes}
    {before : List Machine} (hnew : Machine.new options n .standard clock = .ok m) (h : Trail m source (m' :: before)) :
    m'.heap.Exhausted ∨ ∃ w i Γ, Stands m' (story (m' :: before)) w i Γ ∧ Γ.bodies = classesOf source := by
  generalize htrail : m' :: before = trail at h
  induction h generalizing m' before with
  | @start m₁ hstart =>
    cases htrail
    refine (Machine.mirrors_start hnew hstart).imp_right ?_
    rintro ⟨w, f, p, hm, hf, hclasses⟩
    exact ⟨w, _, _, ⟨hm, (Ideal.idle_new _ _).sound hf, Lineage.alike_empty⟩, hclasses⟩
  | step _ hstep ih =>
    cases htrail
    rcases ih rfl with he | ⟨w, i, Γ, hstands, hbodies⟩
    · exact .inl (Grows.ok he hstep)
    · refine (hstands.step hstep).imp_right ?_
      rintro ⟨w', i', Γ', -, hstands', -, hleads⟩
      exact ⟨w', i', Γ', hstands', hleads.bodies.trans hbodies⟩

theorem Machine.Trail.stands {options : GcOptions} {n : Int} {clock : Clock} {source : Bytes} {before : List Machine}
    (hnew : Machine.new options n .standard clock = .ok m) (h : Trail m source (m' :: before)) :
    m'.heap.Exhausted ∨ ∃ w i Γ, Stands m' (story (m' :: before)) w i Γ := by
  refine (h.stands_classes hnew).imp_right ?_
  rintro ⟨w, i, Γ, hstands, -⟩
  exact ⟨w, i, Γ, hstands⟩

theorem Machine.Trail.exhausted {x y : Machine} {source : Bytes} {after before rest : List Machine}
    (h : Trail m source (y :: rest)) (hsplit : y :: rest = after ++ x :: before) (he : x.heap.Exhausted) :
    y.heap.Exhausted := by
  induction after generalizing y rest with
  | nil =>
    cases hsplit
    exact he
  | cons z after ih =>
    obtain ⟨rfl, hrest⟩ := List.cons.inj hsplit
    obtain ⟨u, us, rfl⟩ : ∃ u us, rest = u :: us := by
      rw [hrest]
      cases after <;> exact ⟨_, _, rfl⟩
    exact Grows.ok (ih h.tail.1 hrest) h.tail.2

theorem Stands.along {x y : Machine} {source : Bytes} {after before rest : List Machine} {P : Facts → Ideal → Prop}
    (h : Stands x (Machine.story (x :: before)) w i Γ) (hP : P Γ i) (htrail : Machine.Trail m source (y :: rest))
    (hsplit : y :: rest = after ++ x :: before)
    (hstep : ∀ u ∈ after, ∀ {w i i' Γ Γ'}, Mirrors w u i' → IdealM.step i = .ok true i' → Γ.Leads i Γ' i' →
      P Γ i → P Γ' i') :
    y.heap.Exhausted ∨ ∃ w' i' Γ', w.Extends w' ∧ Stands y (Machine.story (y :: rest)) w' i' Γ' ∧ P Γ' i' := by
  induction after generalizing y rest with
  | nil =>
    cases hsplit
    exact .inr ⟨w, i, Γ, .refl w, h, hP⟩
  | cons z after ih =>
    obtain ⟨rfl, hrest⟩ := List.cons.inj hsplit
    obtain ⟨u, us, rfl⟩ : ∃ u us, rest = u :: us := by
      rw [hrest]
      cases after <;> exact ⟨_, _, rfl⟩
    obtain ⟨htrail', hlast⟩ := htrail.tail
    rcases ih htrail' hrest fun u hu => hstep u (.tail _ hu) with he | ⟨w', i', Γ', hw, hstands, hP'⟩
    · exact .inl (Grows.ok he hlast)
    · refine (hstands.step hlast).imp_right ?_
      rintro ⟨w'', i'', Γ'', hw', hstands', hideal, hleads⟩
      exact ⟨w'', i'', Γ'', hw.trans hw', hstands', hstep y (.head _) hstands'.mirrors hideal hleads hP'⟩

end

end Lox

namespace Lox

open Heap HeapView

/-- How far an accepted program can come. -/
def Progress.Sound (p : Progress) : Prop :=
  p = .running ∨ p = .done ∨ ∃ e, p = .failed (.runtime e)

namespace IdealM

theorem verdict_of_safe {i : Ideal} {act : IdealM Progress} (h : Safe i act fun p _ => p.Sound) :
    ∃ p printed, Ideal.verdict (act i) = some (p, printed) ∧ p.Sound := by
  unfold Safe at h
  cases hrun : act i with
  | ok p i' =>
    rw [hrun] at h
    exact ⟨p, i'.printed, rfl, h⟩
  | error s i' =>
    rw [hrun] at h
    cases s with
    | fault f => exact h.elim
    | error e => exact ⟨.failed (.runtime e), _, rfl, .inr (.inr ⟨e, rfl⟩)⟩

end IdealM

namespace Ideal

open IdealM

theorem interpret_sound {f : Listing Item} {p : Prototype} (hf : f.Script p) (maxFrames fuel : Nat) (clock : Clock) :
    ∃ q printed, Ideal.interpret maxFrames fuel clock p = some (q, printed) ∧ q.Sound := by
  have hidle := idle_new maxFrames clock
  refine verdict_of_safe (.bind (hidle.enter hf) fun _ i hi => ?_)
  subst hi
  refine .bind ((hidle.sound hf).run fuel) fun more i' _ => .pure ?_
  cases more
  · exact .inr (.inl rfl)
  · exact .inl rfl

theorem answer_sound (source : Bytes) (maxFrames fuel : Nat) (clock : Clock) : ∃ p q printed,
    Order.draftAll {} (analyze source).1 = some ⟨[], some p⟩ ∧
      Ideal.answer maxFrames fuel clock p (analyze source).2 = some (q, printed) ∧
          ((analyze source).2 = [] → q.Sound) := by
  cases hds : (analyze source).2 with
  | nil =>
    obtain ⟨body, f, p, -, hlisting, hdraft, hmade⟩ := analyze_accepted hds
    obtain ⟨hverified, harity, horigins⟩ := scriptListing_verified hlisting
    obtain ⟨q, printed, hrun, hq⟩ := interpret_sound ⟨hverified, harity, horigins, hmade⟩ maxFrames fuel clock
    exact ⟨p, q, printed, hdraft, hrun, fun _ => hq⟩
  | cons d ds =>
    obtain ⟨p, hdraft⟩ := draftAll_analyze source
    exact ⟨p, .failed (.compile (d :: ds)), _, hdraft, rfl, nofun⟩

end Ideal

namespace Machine

/-- Before an instruction that has all that it needs: its operand is read from the code of the innermost call, the
constants and captured variables that it names are there, and the values that it takes off the stack are those of that
call. -/
def Equipped (m : Machine) : Prop :=
  ∃ (f : Frame) (fn : Function) (w : World) (p : Prototype) (op : Opcode) (operand : Operand) (height : Nat),
    m.running? = some (f, fn) ∧ m.heap.ShowsFunction w fn p ∧ p.instrAt f.ip = some (op, operand) ∧
      p.Names op operand ∧ Template.Has height op operand ∧ (m.sp : Int) = f.base + height

end Machine

variable {options options' : GcOptions} {n : Int} {clock : Clock} {m m' : Machine} {i : Ideal} {source : Bytes}
    {w : World} {L : Lineage}
  {Γ : Facts}

theorem Stands.equipped (h : Stands m L w i Γ) : m.Equipped := by
  obtain ⟨-, f, rest, p, a, s, t, below, op, operand, hfacing⟩ := h.sound.facing
  have hrunning := hfacing.running
  have hcertified := hrunning.knows.certified
  obtain ⟨g, gs, fn, -, hsame, hfn, hshows⟩ := h.mirrors.running? hrunning.frames hrunning.knows.closure
  obtain ⟨next, hgoes, -⟩ := hfacing.goes
  obtain ⟨hnames, hhas⟩ := hgoes.instr_names hcertified.constants hcertified.captures
  refine ⟨g, fn, w, p, op, operand, s.slots.length, hfn, hshows, ?_, hnames, hfacing.within.height ▸ hhas, ?_⟩
  · rw [hsame.ip, hfacing.instrAt]
  · have hstack := hrunning.typed.values.length_eq
    rw [List.length_append, List.length_reverse] at hstack
    rw [h.mirrors.sp_eq, hsame.base, hrunning.base, ← hstack]
    push_cast
    omega

theorem Machine.exists_new (stress : Bool) : ∃ m, Machine.new { stress := stress } 4 .standard = .ok m := by
  have hstarts : ∀ stress, (Machine.new { stress := stress } 4 .standard).toOption.isSome = true := by
    decide +kernel
  have hsome := hstarts stress
  cases hnew : Machine.new { stress := stress } 4 .standard with
  | error f =>
    rw [hnew] at hsome
    cases hsome
  | ok m => exact ⟨m, rfl⟩

/-- Whatever accepted program a new machine runs, for however long: it is still running, has come to its end or has met
an error of its own, and before every instruction all that the instruction needs is there. -/
theorem Machine.runs_soundly (hnew : Machine.new options n .standard clock = .ok m)
    (haccepted : (analyze source).2 = []) :
    (∀ fuel, (finalState (EmbedM.interpret fuel source m)).heap.Exhausted ∨
      ∃ p m', EmbedM.interpret fuel source m = .ok p m' ∧ p.Sound) ∧
    ∀ m' before, Trail m source (m' :: before) → m'.heap.Exhausted ∨ m'.Equipped := by
  refine ⟨fun fuel => ?_, fun m' before htrail => ?_⟩
  · obtain ⟨p, q, printed, hdraft, hanswer, hq⟩ := Ideal.answer_sound source (framesFor n) fuel clock
    refine (interpret_new hnew hdraft fuel hanswer).imp_right ?_
    rintro ⟨m', hrun, -⟩
    exact ⟨q, m', hrun, hq haccepted⟩
  · refine (htrail.stands hnew).imp_right ?_
    rintro ⟨w, i, Γ, hstands⟩
    exact hstands.equipped

theorem Machine.runs_soundly_method : ∃ m, Machine.new {} 4 .standard = .ok m ∧
    ((∀ fuel, (finalState (EmbedM.interpret fuel "class A{m(){}}A().m();" m)).heap.Exhausted ∨
      ∃ p m', EmbedM.interpret fuel "class A{m(){}}A().m();" m = .ok p m' ∧ p.Sound) ∧
    ∀ m' before, Trail m "class A{m(){}}A().m();" (m' :: before) → m'.heap.Exhausted ∨ m'.Equipped) := by
  obtain ⟨m, hnew⟩ := exists_new false
  exact ⟨m, hnew, runs_soundly hnew (by decide +kernel)⟩

/-- Two new machines that collect their garbage at different times come equally far with a source text, and print the
same. -/
theorem Machine.same_with_any_collections (hnew : Machine.new options n .standard clock = .ok m)
    (hnew' : Machine.new options' n .standard clock = .ok m') (fuel : Nat) (source : Bytes) :
    (finalState (EmbedM.interpret fuel source m)).heap.Exhausted ∨
    (finalState (EmbedM.interpret fuel source m')).heap.Exhausted ∨
    ∃ p m₁ m₁', EmbedM.interpret fuel source m = .ok p m₁ ∧ EmbedM.interpret fuel source m' = .ok p m₁' ∧
      m₁.output = m₁'.output := by
  obtain ⟨p, q, printed, hdraft, hanswer, -⟩ := Ideal.answer_sound source (framesFor n) fuel clock
  rcases interpret_new hnew hdraft fuel hanswer with hfull | ⟨m₁, hrun, hprinted, -⟩
  · exact .inl hfull
  rcases interpret_new hnew' hdraft fuel hanswer with hfull | ⟨m₁', hrun', hprinted', -⟩
  · exact .inr (.inl hfull)
  refine .inr (.inr ⟨q, m₁, m₁', hrun, hrun', ?_⟩)
  rw [Machine.output, Machine.output, hprinted, hprinted']

theorem Machine.same_with_any_collections_stress : ∃ m m', Machine.new {} 4 .standard = .ok m ∧
    Machine.new { stress := true } 4 .standard = .ok m' ∧
    ((finalState (EmbedM.interpret 9 "print \"a\" + \"b\";" m)).heap.Exhausted ∨
    (finalState (EmbedM.interpret 9 "print \"a\" + \"b\";" m')).heap.Exhausted ∨
    ∃ p m₁ m₁', EmbedM.interpret 9 "print \"a\" + \"b\";" m = .ok p m₁ ∧
      EmbedM.interpret 9 "print \"a\" + \"b\";" m' = .ok p m₁' ∧ m₁.output = m₁'.output) := by
  obtain ⟨m, hnew⟩ := exists_new false
  obtain ⟨m', hnew'⟩ := exists_new true
  exact ⟨m, m', hnew, hnew', same_with_any_collections hnew hnew' 9 _⟩

end Lox

namespace Lox

/-- The words of values keep apart what they are made from, give it back and compare as it does. -/
structure Datum.Laws : Prop where
  one_sort : ∀ d : Datum, [d.word.isNumber, d.word.isBool, d.word.isNil, d.word.isObject].count true = 1
  injective : ∀ d e : Datum, d.word = e.word ↔ d.Same e
  asNumber : ∀ bits, Number.isNaN bits = false →
    ∃ f, (Value.number (Float.ofBits bits)).asNumber = .ok f ∧ f.toBits = bits
  asBool : ∀ b, (Value.ofBool b).asBool = .ok b
  ref : ∀ r, (Value.object r).ref = .ok r
  equal_comm : ∀ d e : Datum, d.word.equal e.word = e.word.equal d.word
  equal_trans : ∀ d e f : Datum, d.word.equal e.word = true → e.word.equal f.word = true →
    d.word.equal f.word = true
  equal_self : ∀ d : Datum, d.word.equal d.word = !d.isNaN

theorem Datum.laws : Datum.Laws where
  one_sort := one_sort
  injective := word_inj
  asNumber _ := asNumber_ofBits
  asBool := asBool_ofBool
  ref := ref_object
  equal_comm _ _ := Value.equal_comm ..
  equal_trans _ _ _ := Value.equal_trans
  equal_self := equal_word_self

variable {options : GcOptions} {n : Int} {clock : Clock} {m : Machine} {source : Bytes}

/-- Between the instructions of a program and after its end, the values on the stack, in the globals and in live
objects are words of the constructors, and those of objects name live ones. -/
theorem Machine.values_stay_proper (hnew : Machine.new options n .standard clock = .ok m) :
    (∀ m' before, Trail m source (m' :: before) → m'.heap.Exhausted ∨ m'.Proper) ∧
    (∀ fuel, (finalState (EmbedM.interpret fuel source m)).heap.Exhausted ∨
      ∃ p m', EmbedM.interpret fuel source m = .ok p m' ∧ m'.Proper) ∧ Datum.Laws := by
  refine ⟨fun m' before htrail => ?_, fun fuel => ?_, Datum.laws⟩
  · refine (htrail.stands hnew).imp_right ?_
    rintro ⟨w, i, Γ, hstands⟩
    exact hstands.mirrors.proper
  · obtain ⟨p, q, printed, hdraft, hanswer, -⟩ := Ideal.answer_sound source (framesFor n) fuel clock
    refine (interpret_new hnew hdraft fuel hanswer).imp_right ?_
    rintro ⟨m', hrun, -, hproper⟩
    exact ⟨q, m', hrun, hproper⟩

theorem Machine.values_stay_proper_nan : ∃ m, Machine.new {} 4 .standard = .ok m ∧
    ((∀ m' before, Trail m "var a=0/0;{var b=a;fun f(){print b;}a=f;}a();" (m' :: before) →
      m'.heap.Exhausted ∨ m'.Proper) ∧
    (∀ fuel, (finalState (EmbedM.interpret fuel "var a=0/0;{var b=a;fun f(){print b;}a=f;}a();" m)).heap.Exhausted ∨
      ∃ p m', EmbedM.interpret fuel "var a=0/0;{var b=a;fun f(){print b;}a=f;}a();" m = .ok p m' ∧
        m'.Proper) ∧ Datum.Laws) := by
  obtain ⟨m, hnew⟩ := exists_new false
  exact ⟨m, hnew, values_stay_proper hnew⟩

end Lox

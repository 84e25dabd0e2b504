import Lox.Proofs.Disassembly.Functions
import Lox.Proofs.Machine.Rest
import Lox.Proofs.Source.Tables

namespace Lox

open Heap HeapView Machine

namespace Template

variable {source : Bytes} {p q : Prototype}

theorem name_analyze (ha : (analyze source).2 = []) (hd : Order.draftAll {} (analyze source).1 = some ⟨[], some p⟩) :
    p.name = none := by
  obtain ⟨body, f, p', -, hlisting, hdraft, hmade⟩ := analyze_accepted ha
  rw [hd] at hdraft
  cases hdraft
  obtain ⟨gs, -, hname, -⟩ := scriptListing_functions hlisting
  cases hmade with
  | function _ name => exact name.trans hname

theorem Compiled.lined (h : p.Compiled) : p.Lined := by
  obtain ⟨source, r, ha, hd, hpart⟩ := h
  exact ((ruled_analyze ha hd).part hpart).lined

end Template

/-- Where the calls of a machine are that is about to carry out an instruction. The innermost call is at the
instruction, and each of the others behind the one that entered the next call. -/
structure Spot.Describes (s : Spot) (script : Prototype) (m : Machine) : Prop where
  frames : m.calls.frames = ⟨s.closure, s.offset, s.base⟩ :: s.outer.map Pending.frame
  code : m.heap.Calls s.closure s.code
  instr : ∃ op operand, s.code.Starts s.offset ∧ s.code.instrAt s.offset = some (op, operand)
  pending : ∀ q ∈ s.outer, m.heap.Calls q.frame.closure q.code ∧ ∃ op operand, q.code.Starts q.offset ∧
    q.code.instrAt q.offset = some (op, operand) ∧ op.enters = true ∧ q.frame.ip = q.offset + (1 + operand.size)
  compiled : ∀ p ∈ s.code :: s.outer.map Pending.code, p.Compiled
  script : (s.code :: s.outer.map Pending.code).getLast? = some script

section

variable {script p : Prototype} {h : Heap} {base : Int} {outer : List Pending}

theorem Waiting.last (hw : Waiting Template.Compiled script h p base outer) :
    (p :: outer.map Pending.code).getLast? = some script := by
  induction outer generalizing p base with
  | nil => exact congrArg some hw.1
  | cons q rest ih =>
    rw [List.map_cons, List.getLast?_cons_cons]
    exact ih hw.2

end

theorem Machine.Within.describes {script : Prototype} {holds : List Value} {marks : List RootMarker} {s : Spot}
    {height : Nat} {m : Machine} (hw : m.Within Template.Compiled script holds marks s s.offset height)
    (hr : s.code.Reaches s.offset height) :
    s.Describes script m where
  frames := hw.frames
  code := hw.calls
  instr := by
    obtain ⟨op, operand, hi, -⟩ := hw.fits.vetted.runs hr
    exact ⟨op, operand, hw.fits.vetted.starts hr, hi⟩
  pending q hq := by
    obtain ⟨base, hfits, hcalls, op, operand, height', hreaches, hi, henters, hip, -⟩ := hw.waiting.waits q hq
    exact ⟨hcalls, op, operand, hfits.vetted.starts hreaches, hi, henters, hip⟩
  compiled := by
    refine List.forall_mem_cons.mpr ⟨hw.fits, fun p hp => ?_⟩
    obtain ⟨q, hq, rfl⟩ := List.mem_map.mp hp
    obtain ⟨base, hwaits⟩ := hw.waiting.waits q hq
    exact hwaits.fits
  script := hw.waiting.last

namespace EmbedM

open MachineM

variable {m m' : Machine} {holds : List Value} {marks : List RootMarker} {p : Prototype} {fuel : Nat} {source : Bytes}
  {l : Loc} {e : RuntimeError}

/-- A run of a program from a machine fails at an instruction with an error that tells where its calls are. -/
def FailsAt (script : Prototype) (e : RuntimeError) (s : Spot) (m : Machine) : Prop :=
  ∃ n m₁ m₂, MachineM.run n m = .ok true m₁ ∧ s.Describes script m₁ ∧ step m₁ = .error (.error e) m₂ ∧
    e.trace = s.trace ∧ e.trace.length = m₁.calls.depth

theorem failsAt_attempt (hk : m.heap.Kept Template.Compiled holds marks) (hroom : 0 < m.maxFrames) (hp : p.Compiled)
    (hlow : p.EndsLow) (harity : p.arity = 0) (hb : m.heap.Bears l p) (hrun : attempt (do
      launch l
      return if ← MachineM.run fuel then .running else .done) m = .ok (.failed (.runtime e)) m') :
    m'.heap.Exhausted ∨ ∃ m₀ s, enter l m = .ok .running m₀ ∧ FailsAt p e s m₀ := by
  have hlaunch : Obeys m (launch l) (fun _ m' => m'.Between Template.Compiled p holds marks) fun _ _ => False :=
    obeys_launch hk hroom hp harity hb
  rw [enter_eq]
  unfold attempt at hrun ⊢
  rw [runBind] at hrun ⊢
  unfold Obeys at hlaunch
  cases hstart : launch l m with
  | error f m₀ =>
    rw [hstart] at hlaunch hrun
    cases f with
    | fault f => cases hrun
    | error e' =>
      cases hrun
      exact .inl (hlaunch.resolve_right id)
  | ok u m₀ =>
    rw [hstart] at hlaunch hrun
    dsimp only at hrun
    have hgrow : Exhausted m₀.heap → Exhausted (finalState (MachineM.run fuel m₀)).heap := fun he =>
      Nat.lt_of_lt_of_le he ((inferInstance : Grows (MachineM.run fuel)).le m₀)
    rw [runBind] at hrun
    cases hran : MachineM.run fuel m₀ with
    | ok b m₁ =>
      rw [hran] at hrun
      cases b <;> cases hrun
    | error f m₁ =>
      rw [hran] at hrun hgrow
      cases f with
      | fault f => cases hrun
      | error e' =>
        cases hrun
        rcases hlaunch with hex | hbetween
        · exact .inl (hgrow hex)
        · have hfails := obeys_run fitting_compiled hlow fuel hbetween
          unfold Obeys at hfails
          rw [hran] at hfails
          refine hfails.imp_right ?_
          rintro ⟨-, -, n, m₂, s, height, hn, hw, hreaches, hstep, hblames⟩
          have htrace := hblames.trace fun p hp => ⟨hp.vetted, hp.lined⟩
          refine ⟨m₀, s, rfl, n, m₂, m₁, hn, hw.describes hreaches, hstep, htrace, ?_⟩
          rw [htrace, m₂.calls.depth_eq, hw.frames, Spot.trace]
          simp

/-- When a source text ends with an error, nothing was wrong with the text, and the functions in its script have the
lines of the text. The trace of the error has an entry for each active call, the innermost first and the script last,
with the name of its function and the line of the instruction that it carries out: the one that fails, or the one that
entered the next call. -/
theorem interpret_traces (hm : Hosted m) (hrun : interpret fuel source m = .ok (.failed (.runtime e)) m')
    (hroom : m'.heap.slots.size ≤ 2 ^ 32) : ∃ script m₀ s, (analyze source).2 = [] ∧
      Order.draftAll {} (analyze source).1 = some ⟨[], some script⟩ ∧ script.name = none ∧
      (∀ p, script.Part p → p.Tabled (1 + source.count Ascii.newline)) ∧
      start source m = .ok .running m₀ ∧ FailsAt script e s m₀ := by
  rcases hm.quiet with hquiet | hquiet
  · cases hclosed : m.closed with
    | true =>
      rw [interpret_closed hclosed] at hrun
      cases hrun
    | false =>
      cases hcompiler : m.compiler with
      | none =>
        rw [interpret, runBind, start_eq, hclosed, hcompiler] at hrun
        cases hrun
      | failing message =>
        rw [interpret, runBind, start_eq, hclosed, hcompiler] at hrun
        cases hrun
      | standard =>
        rw [interpret_eq hclosed hcompiler] at hrun
        obtain ⟨p, hp⟩ := draftAll_analyze source
        have hdelivers := deposits_compile (r := roots m) hquiet.kept.sound hp
        unfold HeapM.Delivers at hdelivers
        cases hc : compile source (roots m) m.heap with
        | error f h =>
          rw [hc] at hrun
          cases hrun
        | ok answer h =>
          rw [hc] at hdelivers hrun
          cases answer with
          | error ds => cases hrun
          | ok l =>
            dsimp only at hrun
            have hroomy : ¬ Exhausted m'.heap := Nat.not_lt.mpr hroom
            have hlast (hex : Exhausted h) : Exhausted m'.heap := by
              have hend : Exhausted (finalState (attempt (do
                  launch l
                  return if ← MachineM.run fuel then .running else .done) { m with heap := h })).heap :=
                exhausted_attempt hex
              rwa [hrun] at hend
            obtain ⟨hs, hpasses, hmodest, hscript⟩ := hdelivers.resolve_left fun hex => hroomy (hlast hex)
            obtain ⟨ha, hb⟩ := hscript l rfl
            obtain ⟨-, hlow, harity⟩ := Template.vetted_analyze ha hp
            have hv := hquiet.kept.vouched.modest hquiet.kept.sound.consistent hpasses hmodest
            have hkept := (Resting.reheap hquiet hs hpasses hv).kept
            obtain ⟨m₀, s, hstart, hfails⟩ := (failsAt_attempt (m := { m with heap := h }) hkept hquiet.room
              ⟨source, p, ha, hp, .self⟩ hlow harity hb hrun).resolve_left hroomy
            refine ⟨p, m₀, s, ha, hp, Template.name_analyze ha hp, fun q hq => ((ruled_analyze ha hp).part hq).tabled,
                ?_,
              hfails⟩
            rw [start_standard hclosed hcompiler, runBind, onHeap, ofMachine, run_onHeap, hc]
            exact hstart
  · rw [interpret_closed hquiet.closed] at hrun
    cases hrun

def tracedWithin? (source : Bytes) : Option (List Int) :=
  match Machine.new {} 2 .standard with
  | .ok m =>
    match interpret 9 source m with
    | .ok (.failed (.runtime e)) m' =>
      if m.heap.slots.size ≤ 2 ^ 32 ∧ m'.heap.slots.size ≤ 2 ^ 32 then some (e.trace.map (·.line)) else none
    | _ => none
  | .error _ => none

theorem interpret_traces_function : ∃ m m' e script m₀ s, Machine.new {} 2 .standard = .ok m ∧
    interpret 9 "fun f() \x7b\n-nil; \x7d\nf();" m = .ok (.failed (.runtime e)) m' ∧ e.trace.map (·.line) = [2, 3] ∧
      start "fun f() \x7b\n-nil; \x7d\nf();" m = .ok .running m₀ ∧ FailsAt script e s m₀ := by
  have htraced : tracedWithin? "fun f() \x7b\n-nil; \x7d\nf();" = some [2, 3] := by decide +kernel
  unfold tracedWithin? at htraced
  cases hnew : Machine.new {} 2 .standard with
  | error f =>
    rw [hnew] at htraced
    cases htraced
  | ok m =>
    rw [hnew] at htraced
    dsimp only at htraced
    split at htraced
    · rename_i e m' hrun
      split at htraced
      · rename_i hsize
        obtain ⟨script, m₀, s, -, -, -, -, hstart, hfails⟩ := interpret_traces (.new hnew hsize.1) hrun hsize.2
        exact ⟨m, m', e, script, m₀, s, rfl, hrun, Option.some.inj htraced, hstart, hfails⟩
      · cases htraced
    · cases htraced

end EmbedM

end Lox

import Lox.Proofs.Runner.Traffic
import Mathlib.Data.List.Induction
import Mathlib.Data.List.Nodup

namespace Lox.Traffic

variable {execute : Bytes → Outcome} {es : List Event} {r : Runner} {t t₀ t' : Traffic}

namespace Served

theorem leave (h : Served execute es r) (hidle : r.worker = .idle) :
    Served execute es { r with worker := .gone } := by
  have hi := h.inside
  have hu := h.unrecorded
  have hd := h.undelivered
  rw [hidle] at hi hu hd
  exact ⟨h.engine, h.queue, h.room, h.numbers, hi, hu, hd, h.outcomes, h.ready, h.completed, h.counts⟩

theorem began_prefix (h : Served execute es r) : began es <+: accepted es :=
  ⟨r.queue, h.queue⟩

theorem ended_prefix (h : Served execute es r) : (ended es).map Prod.fst <+: began es :=
  ⟨Traffic.inside r.worker, h.inside⟩

theorem recorded_prefix (h : Served execute es r) : recorded es <+: ended es :=
  ⟨Traffic.unrecorded r.worker, h.unrecorded⟩

theorem delivered_prefix (h : Served execute es r) : delivered es <+: recorded es :=
  ⟨Traffic.undelivered r.worker, h.undelivered⟩

theorem length_began (h : Served execute es r) : (began es).length ≤ (ended es).length + 1 := by
  rw [← h.inside, List.length_append, List.length_map]
  refine Nat.add_le_add_left ?_ _
  cases r.worker <;> simp [Traffic.inside]

theorem nodup_numbers (h : Served execute es r) : ((accepted es).map Job.number).Nodup := by
  rw [h.numbers]
  exact List.nodup_range

theorem eq_of_number (h : Served execute es r) {job job' : Job} (hjob : job ∈ accepted es)
    (hjob' : job' ∈ accepted es) (heq : job.number = job'.number) : job = job' :=
  List.inj_on_of_nodup_map h.nodup_numbers hjob hjob' heq

theorem accepted_of_delivered (h : Served execute es r) {job : Job} {outcome : Outcome}
    (hd : (job, outcome) ∈ delivered es) : job ∈ accepted es ∧ outcome = execute job.source := by
  have hended := h.recorded_prefix.subset (h.delivered_prefix.subset hd)
  exact ⟨h.began_prefix.subset (h.ended_prefix.subset (List.mem_map_of_mem hended)), h.outcomes _ hended⟩

theorem delivered_of_outcome? (h : Served execute es r) {number : Nat} {outcome : Outcome}
    (ho : r.outcome? number = some outcome) : ∃ job, job.number = number ∧ (job, outcome) ∈ delivered es := by
  unfold Runner.outcome? at ho
  obtain ⟨before, after, heq, -⟩ := List.lookup_eq_some_iff.mp ho
  have hmem : (number, outcome) ∈ r.delivered := by
    rw [heq]
    simp
  rw [h.ready] at hmem
  obtain ⟨⟨job, o⟩, hjob, heq⟩ := List.mem_map.mp hmem
  cases heq
  exact ⟨job, rfl, List.mem_reverse.mp hjob⟩

theorem outcome?_of_began (h : Served execute es r) (hgone : r.worker = .gone) {job : Job}
    (hjob : job ∈ began es) : r.outcome? job.number ≠ none := by
  have hi := h.inside
  have hu := h.unrecorded
  have hd := h.undelivered
  rw [hgone] at hi hu hd
  simp only [Traffic.inside, Traffic.unrecorded, Traffic.undelivered, List.append_nil] at hi hu hd
  rw [← hi, ← hu, ← hd] at hjob
  obtain ⟨⟨j, outcome⟩, hmem, rfl⟩ := List.mem_map.mp hjob
  intro hnone
  unfold Runner.outcome? at hnone
  have hready : (j.number, outcome) ∈ r.delivered := by
    rw [h.ready]
    exact List.mem_map.mpr ⟨(j, outcome), List.mem_reverse.mpr hmem, rfl⟩
  have := List.lookup_eq_none_iff.mp hnone _ hready
  simp at this

end Served

namespace Faithful

theorem answered (h : Faithful execute es t) {i number : Nat} {outcome : Outcome} (ha : Awaits es i number)
    (ho : t.runner.outcome? number = some outcome) : Answered es i outcome := by
  obtain ⟨source, hcalled, haccepts, -⟩ := ha.accepted
  obtain ⟨job, rfl, hdelivered⟩ := h.served.delivered_of_outcome? ho
  have hjob := (h.served.accepted_of_delivered hdelivered).1
  have heq : job = ⟨job.number, source⟩ := h.served.eq_of_number hjob (mem_accepted.mpr ⟨i, haccepts⟩) rfl
  rw [heq] at hdelivered
  exact ⟨_, source, hcalled, haccepts, hdelivered⟩

theorem unserved (h : Faithful execute es t) {i number : Nat} (ha : Awaits es i number)
    (hgone : t.runner.worker = .gone) (ho : t.runner.outcome? number = none) : Unserved es t.runner i := by
  intro job hjob
  obtain ⟨source, -, -, honly⟩ := ha.accepted
  refine ⟨hgone, fun hbegan => ?_⟩
  have := h.served.outcome?_of_began hgone hbegan
  rw [honly job hjob] at this
  exact this ho

theorem step {e : Option Event} (h : Faithful execute es t) (hs : Step t e t') :
    Faithful execute (es ++ e.toList) t' := by
  have hnil : es ++ (none : Option Event).toList = es := List.append_nil es
  cases hs with
  | call waits source => exact ⟨h.served.aside trivial, h.attended.called waits source⟩
  | @enter i waits source hat hopen =>
    refine ⟨hnil.symm ▸ h.served, h.attended.move hat nofun ?_ nofun nofun⟩
    rw [hnil]
    exact h.attended.stands i (.arriving waits source) hat
  | @refuse i waits source hat hstopping =>
    have hstands : ∀ job, ¬Accepts es i job := by
      rcases hat with hat | hat
      · exact (h.attended.stands i _ hat).2.1
      · exact (h.attended.stands i _ hat).2.1
    have hunserved : Unserved es t.runner i := fun job hjob => absurd hjob (hstands job)
    rcases hat with hat | hat
    · exact ⟨h.served.aside trivial, h.attended.leave hat nofun fun _ => hunserved⟩
    · exact ⟨h.served.aside trivial, h.attended.leave hat nofun fun _ => hunserved⟩
  | @withdraw i waits source reason hat hends =>
    refine ⟨h.served.aside trivial, h.attended.leave hat nofun fun heq => ?_⟩
    cases heq
    rcases hends with hends | hends <;> cases hends
  | @accept i waits source number r hat htakes =>
    exact ⟨h.served.accept i htakes, h.attended.accept hat htakes⟩
  | @take job r htakes hrunning =>
    refine ⟨h.served.take htakes hrunning, h.attended.work (fun x hx => ?_) fun hgone => ?_⟩
    · cases hx
      rfl
    · unfold Runner.take? at htakes
      rw [hgone] at htakes
      cases htakes
  | @proceed r hgoes =>
    refine ⟨h.served.proceed hgoes, h.attended.work (fun x hx => ?_) fun hgone => ?_⟩
    · unfold progress at hx
      split at hx <;> cases hx <;> rfl
    · unfold Runner.proceed? at hgoes
      rw [hgone] at hgoes
      cases hgoes
  | @leave r hleaves =>
    unfold Runner.leave? at hleaves
    split at hleaves
    · rename_i hidle
      split at hleaves
      · cases hleaves
        refine ⟨hnil.symm ▸ h.served.leave hidle, h.attended.work nofun fun hgone => ?_⟩
        rw [hgone] at hidle
        cases hidle
      · cases hleaves
    · cases hleaves
  | @receive i number outcome hat hthere =>
    have hawaits : Awaits es i number := by
      rcases hat with hat | hat
      · exact h.attended.stands i _ hat
      · exact (h.attended.stands i _ hat).1
    have hanswered (o : Outcome) (ho : (Except.ok outcome : Except Refusal Outcome) = .ok o) : Answered es i o := by
      cases ho
      exact h.answered hawaits hthere
    rcases hat with hat | hat
    · exact ⟨h.served.aside trivial, h.attended.leave hat hanswered nofun⟩
    · exact ⟨h.served.aside trivial, h.attended.leave hat hanswered nofun⟩
  | @notice i number hat hgone =>
    refine ⟨hnil.symm ▸ h.served, h.attended.move hat nofun ?_ nofun nofun⟩
    rw [hnil]
    exact ⟨h.attended.stands i _ hat, gone_of_isStopped hgone⟩
  | @miss i number hat hmissing =>
    obtain ⟨hawaits, hgone⟩ := h.attended.stands i _ hat
    exact ⟨h.served.aside trivial, h.attended.leave hat nofun fun _ => h.unserved hawaits hgone hmissing⟩
  | @giveUp i number reason hat hends =>
    refine ⟨h.served.aside trivial, h.attended.leave hat nofun fun heq => ?_⟩
    cases heq
    rcases hends with hends | hends <;> cases hends
  | askToStop =>
    refine ⟨hnil.symm ▸ h.served.congr rfl, h.attended.join nofun rfl trivial⟩
  | @stopped i hat hgone =>
    exact ⟨hnil.symm ▸ h.served, h.attended.move hat nofun trivial nofun nofun⟩
  | release =>
    rw [hnil]
    exact ⟨h.served.congr rfl, h.attended.release⟩

theorem start (execute : Bytes → Outcome) (depth : Nat) (held : Bool) :
    Faithful execute [] ⟨{ execute, depth, held }, []⟩ where
  served := .start execute depth held
  attended := ⟨nofun, nofun, nofun, nofun⟩

end Faithful

namespace Run

theorem faithful (h : Run t₀ es t) (h₀ : Faithful execute [] t₀) : Faithful execute es t := by
  induction h with
  | start => exact h₀
  | next _ hs ih => exact ih.step hs

theorem of_prefix (h : Run t₀ es t) {before : List Event} (hbefore : before <+: es) :
    ∃ t', Run t₀ before t' := by
  induction h with
  | start =>
    rw [List.prefix_nil.mp hbefore]
    exact ⟨t₀, .start⟩
  | @next es t t' e hr hs ih =>
    cases e with
    | none =>
      rw [Option.toList_none, List.append_nil] at hbefore
      exact ih hbefore
    | some e =>
      rcases List.prefix_concat_iff.mp hbefore with rfl | hbefore
      · exact ⟨t', hr.next hs⟩
      · exact ih hbefore

end Run

def howMany (status : Status) (es : List Event) : Nat :=
  (ended es).countP fun e => e.2.status = status

theorem tally_append (l : List (Job × Outcome)) (e : Job × Outcome) :
    tally (l ++ [e]) = (tally l).add e.2.status := by
  unfold tally
  rw [List.foldl_append]
  rfl

theorem tally_eq (l : List (Job × Outcome)) : tally l = {
    runs := l.length
    compileErrors := l.countP fun e => e.2.status = .compileError
    runtimeErrors := l.countP fun e => e.2.status = .runtimeError
    internalErrors := l.countP fun e => e.2.status = .internalError } := by
  induction l using List.reverseRecOn with
  | nil => rfl
  | append_singleton l e ih =>
    rw [tally_append, ih]
    cases hstatus : e.2.status <;> simp [Counts.add, List.countP_append, hstatus]

/-- What the callers of a runner can rely on, whatever turns it and they have taken. -/
structure Serial (execute : Bytes → Outcome) (es : List Event) (r : Runner) : Prop where
  -- Programs are executed in the order in which they were accepted,
  order : began es <+: accepted es
  -- once
  once : (began es).Nodup
  -- and one at a time: none begins before all earlier ones have ended.
  alone : ∀ before, before <+: es → (ended before).map Prod.fst <+: began before ∧
    (began before).length ≤ (ended before).length + 1
  outcomes : ∀ job outcome, (job, outcome) ∈ ended es → outcome = execute job.source
  -- The end of every program goes on record once, before the outcome is delivered.
  recorded : r.worker = .idle ∨ r.worker = .gone → recorded es = ended es ∧ (ended es).map Prod.fst = began es
  delivered : ∀ before, before <+: es → delivered before <+: Traffic.recorded before ∧
    Traffic.recorded before <+: ended before
  completed : r.completed = (Traffic.recorded es).reverse.map fun e => (e.1.source, e.2)
  -- A caller that gets an outcome gets the one of its own program.
  own : ∀ i outcome, .returned i (.ok outcome) ∈ es → ∃ source job, .called i true source ∈ es ∧
    Accepts es i job ∧ job.source = source ∧ (job, outcome) ∈ Traffic.delivered es ∧ outcome = execute source
  -- A caller that is told that the runner was stopped has no program that is executed.
  refused : ∀ i, .returned i (.error .stopped) ∈ es → ∀ job, Accepts es i job → job ∉ began es
  -- Between two programs the counts are those of all programs that were executed.
  counts : (∀ job, r.worker ≠ .running job) → (ended es).map Prod.fst = began es ∧
    r.counts = {
      runs := (began es).length
      compileErrors := howMany .compileError es
      runtimeErrors := howMany .runtimeError es
      internalErrors := howMany .internalError es }

/-- A runner and its callers can rely on each other. -/
theorem Run.serial {execute : Bytes → Outcome} {depth : Nat} {held : Bool} {es : List Event} {t : Traffic}
    (h : Run ⟨{ execute, depth, held }, []⟩ es t) : Serial execute es t.runner := by
  have hstart := Faithful.start execute depth held
  have hfaithful := h.faithful hstart
  have hserved := hfaithful.served
  have hbefore (before : List Event) (hb : before <+: es) : ∃ r, Served execute before r := by
    obtain ⟨t', ht'⟩ := h.of_prefix hb
    exact ⟨t'.runner, (ht'.faithful hstart).served⟩
  refine {
    order := hserved.began_prefix
    once := hserved.began_prefix.sublist.nodup hserved.nodup_numbers.of_map
    alone := fun before hb => ?_
    outcomes := fun job outcome hended => hserved.outcomes _ hended
    recorded := fun hworker => ?_
    delivered := fun before hb => ?_
    completed := hserved.completed
    own := fun i outcome hreturned => ?_
    refused := fun i hreturned job hjob => (hfaithful.attended.refused i hreturned job hjob).2
    counts := fun houtside => ?_ }
  · obtain ⟨r, hr⟩ := hbefore before hb
    exact ⟨hr.ended_prefix, hr.length_began⟩
  · have hinside := hserved.inside
    have hunrecorded := hserved.unrecorded
    rcases hworker with hworker | hworker <;> rw [hworker] at hinside hunrecorded
    all_goals
      simp only [inside, unrecorded, List.append_nil] at hinside hunrecorded
      exact ⟨hunrecorded, hinside⟩
  · obtain ⟨r, hr⟩ := hbefore before hb
    exact ⟨hr.delivered_prefix, hr.recorded_prefix⟩
  · obtain ⟨number, source, hcalled, haccepts, hdelivered⟩ := hfaithful.attended.answered i outcome hreturned
    exact ⟨source, _, hcalled, haccepts, rfl, hdelivered, (hserved.accepted_of_delivered hdelivered).2⟩
  · have hinside : (ended es).map Prod.fst = began es := by
      rw [← hserved.inside]
      cases hworker : t.runner.worker with
      | running job => exact absurd hworker (houtside job)
      | _ => exact (List.append_nil _).symm
    refine ⟨hinside, ?_⟩
    rw [hserved.counts, tally_eq, ← hinside, List.length_map]
    rfl

def echo (source : Bytes) : Outcome :=
  { status := .ok, output := source }

def halfServed : List Event :=
  [.called 0 true [1], .accepted 0 ⟨0, [1]⟩, .began ⟨0, [1]⟩, .called 1 true [2], .accepted 1 ⟨1, [2]⟩,
    .ended ⟨0, [1]⟩ (echo [1]), .recorded ⟨0, [1]⟩ (echo [1]), .delivered ⟨0, [1]⟩ (echo [1]),
    .returned 0 (.ok (echo [1])), .returned 1 (.error .stopped)]

theorem run_halfServed : ∃ t, Run ⟨{ execute := echo, depth := 1 }, []⟩ halfServed t := by
  have h₀ : Run ⟨{ execute := echo, depth := 1 }, []⟩ _ _ := .start
  have h₁ := h₀.next (.call _ true [1])
  have h₂ := h₁.next (.enter (i := 0) rfl rfl)
  have h₃ := h₂.next (.accept (i := 0) rfl rfl)
  have h₄ := h₃.next (.take rfl rfl)
  have h₅ := h₄.next (.call _ true [2])
  have h₆ := h₅.next (.enter (i := 1) rfl rfl)
  have h₇ := h₆.next (.accept (i := 1) rfl rfl)
  have h₈ := h₇.next (.askToStop _)
  have h₉ := h₈.next (.proceed rfl)
  have h₁₀ := h₉.next (.proceed rfl)
  have h₁₁ := h₁₀.next (.proceed rfl)
  have h₁₂ := h₁₁.next (.leave rfl)
  have h₁₃ := h₁₂.next (.notice (i := 0) rfl rfl)
  have h₁₄ := h₁₃.next (.notice (i := 1) rfl rfl)
  have h₁₅ := h₁₄.next (.receive (i := 0) (.inr rfl) rfl)
  exact ⟨_, h₁₅.next (.miss (i := 1) rfl rfl)⟩

theorem Run.serial_halfServed :
    ∃ t, Run ⟨{ execute := echo, depth := 1 }, []⟩ halfServed t ∧ Serial echo halfServed t.runner := by
  obtain ⟨t, h⟩ := run_halfServed
  exact ⟨t, h, h.serial⟩

def Reached (t₀ : Traffic) (r : Runner) : Prop :=
  ∃ es cs, Run t₀ es ⟨r, cs⟩

def after {α : Type} (act : RunnerM α) (r : Runner) : Runner :=
  match act r with
  | .ok _ r | .error _ r => r

namespace Reached

theorem next {cs : List Caller} {e : Option Event} (h : Run t₀ es t) (hs : Step t e ⟨r, cs⟩) :
    Reached t₀ r :=
  ⟨_, _, h.next hs⟩

theorem workFor (fuel : Nat) {r : Runner} (h : Reached t₀ r) : Reached t₀ (r.workFor fuel) := by
  induction fuel generalizing r with
  | zero => exact h
  | succ fuel ih =>
    obtain ⟨es, cs, hrun⟩ := h
    unfold Runner.workFor
    cases hgoes : r.proceed? with
    | some r' => exact ih (next hrun (.proceed hgoes))
    | none =>
      cases htakes : r.take? with
      | none => exact ⟨es, cs, hrun⟩
      | some r' =>
        have hrunning : ∃ job, r'.worker = .running job := by
          unfold Runner.take? at htakes
          split at htakes
          · cases htakes
            exact ⟨_, rfl⟩
          · cases htakes
        obtain ⟨job, hrunning⟩ := hrunning
        exact ih (next hrun (.take htakes hrunning))

theorem work (h : Reached t₀ r) : Reached t₀ r.work :=
  h.workFor _

theorem accept (h : Reached t₀ r) (hopen : r.stopping = false) {source : Bytes} {number : Nat} {r' : Runner}
    (hr : r.accept? source = some (number, r')) : Reached t₀ r' := by
  obtain ⟨es, cs, hrun⟩ := h
  have hcalled := hrun.next (.call _ true source)
  have harrived : (cs ++ [Caller.arriving true source])[cs.length]? = some (.arriving true source) := by simp
  have hentered := hcalled.next (.enter harrived hopen)
  have hoffers : ((cs ++ [Caller.arriving true source]).set cs.length (.offering true source))[cs.length]? =
      some (.offering true source) := by simp
  exact next hentered (.accept hoffers hr)

theorem submit (h : Reached t₀ r) (ended : Option Refusal) (source : Bytes) :
    Reached t₀ (after (RunnerM.submit ended source) r) := by
  unfold after RunnerM.submit
  simp only [bind, EStateM.bind, run_get]
  cases hstopping : r.stopping with
  | true => exact h
  | false =>
    cases ended with
    | some reason => exact h
    | none =>
      cases haccept : r.accept? source with
      | none => exact h
      | some taken => exact (h.accept hstopping haccept).work

theorem run (h : Reached t₀ r) (ended : Option Refusal) (source : Bytes) :
    Reached t₀ (after (RunnerM.run ended source) r) := by
  have hsubmit := h.submit ended source
  unfold after at hsubmit ⊢
  unfold RunnerM.run
  simp only [bind, EStateM.bind, run_get]
  cases hresult : RunnerM.submit ended source r with
  | error reason r' =>
    rw [hresult] at hsubmit
    exact hsubmit
  | ok number r' =>
    rw [hresult] at hsubmit
    dsimp only
    cases r'.outcome? number with
    | some outcome => exact hsubmit
    | none => exact hsubmit

theorem stop (h : Reached t₀ r) : Reached t₀ (after RunnerM.stop r) := by
  obtain ⟨es, cs, hrun⟩ := h
  have hwork : Reached t₀ r.askToStop.work := (next hrun (.askToStop _)).work
  change Reached t₀ (r.askToStop.work.leave?.getD r.askToStop.work)
  cases hleaves : r.askToStop.work.leave? with
  | none => exact hwork
  | some r' =>
    obtain ⟨es, cs, hrun⟩ := hwork
    exact next hrun (.leave hleaves)

theorem release (h : Reached t₀ r) : Reached t₀ (after RunnerM.release r) := by
  obtain ⟨es, cs, hrun⟩ := h
  exact work (next hrun (.release _))

end Reached

end Lox.Traffic

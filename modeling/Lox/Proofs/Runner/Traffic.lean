import Lox.Runner
import Mathlib.Data.List.Basic

/-!
Any number of callers and the worker of one runner, taking turns in any order. A step is one operation on
what they share; its event, if it has one, goes on the record.
-/

namespace Lox

theorem run_get {σ : Type} (s : σ) : (get : EStateM Refusal σ σ) s = .ok s s := rfl

namespace Traffic

inductive Caller where
  | arriving (waits : Bool) (source : Bytes)
  | offering (waits : Bool) (source : Bytes)
  | waiting (number : Nat)
  | looking (number : Nat)
  | stopping
  | left

inductive Event where
  | called (caller : Nat) (waits : Bool) (source : Bytes)
  | accepted (caller : Nat) (job : Job)
  | handed (caller : Nat) (job : Job)
  | began (job : Job)
  | ended (job : Job) (outcome : Outcome)
  | recorded (job : Job) (outcome : Outcome)
  | delivered (job : Job) (outcome : Outcome)
  | returned (caller : Nat) (result : Except Refusal Outcome)

end Traffic

structure Traffic where
  runner : Runner
  callers : List Traffic.Caller := []

namespace Traffic

def Ending (reason : Refusal) : Prop :=
  reason = .canceled ∨ reason = .expired

def progress (r : Runner) : Option Event :=
  match r.worker with
  | .running job => some (.ended job (r.execute job.source))
  | .finished job outcome => some (.recorded job outcome)
  | .recorded job outcome => some (.delivered job outcome)
  | _ => none

inductive Step : Traffic → Option Event → Traffic → Prop where
  | call (t : Traffic) (waits : Bool) (source : Bytes) :
      Step t (some (.called t.callers.length waits source))
        { t with callers := t.callers ++ [.arriving waits source] }
  | enter {t : Traffic} {i : Nat} {waits : Bool} {source : Bytes}
      (at_ : t.callers[i]? = some (.arriving waits source)) (open_ : t.runner.stopping = false) :
      Step t none { t with callers := t.callers.set i (.offering waits source) }
  | refuse {t : Traffic} {i : Nat} {waits : Bool} {source : Bytes}
      (at_ : t.callers[i]? = some (.arriving waits source) ∨ t.callers[i]? = some (.offering waits source))
      (stopping : t.runner.stopping = true) :
      Step t (some (.returned i (.error .stopped))) { t with callers := t.callers.set i .left }
  | withdraw {t : Traffic} {i : Nat} {waits : Bool} {source : Bytes} {reason : Refusal}
      (at_ : t.callers[i]? = some (.offering waits source)) (ends : Ending reason) :
      Step t (some (.returned i (.error reason))) { t with callers := t.callers.set i .left }
  | accept {t : Traffic} {i : Nat} {waits : Bool} {source : Bytes} {number : Nat} {r : Runner}
      (at_ : t.callers[i]? = some (.offering waits source))
      (takes : t.runner.accept? source = some (number, r)) :
      Step t (some (if t.runner.queue.length < t.runner.depth then .accepted i ⟨number, source⟩
          else .handed i ⟨number, source⟩))
        ⟨r, t.callers.set i (if waits then .waiting number else .left)⟩
  | take {t : Traffic} {job : Job} {r : Runner} (takes : t.runner.take? = some r)
      (running : r.worker = .running job) : Step t (some (.began job)) { t with runner := r }
  | proceed {t : Traffic} {r : Runner} (goes : t.runner.proceed? = some r) :
      Step t (progress t.runner) { t with runner := r }
  | leave {t : Traffic} {r : Runner} (leaves : t.runner.leave? = some r) :
      Step t none { t with runner := r }
  | receive {t : Traffic} {i number : Nat} {outcome : Outcome}
      (at_ : t.callers[i]? = some (.waiting number) ∨ t.callers[i]? = some (.looking number))
      (there : t.runner.outcome? number = some outcome) :
      Step t (some (.returned i (.ok outcome))) { t with callers := t.callers.set i .left }
  | notice {t : Traffic} {i number : Nat} (at_ : t.callers[i]? = some (.waiting number))
      (gone : t.runner.isStopped = true) :
      Step t none { t with callers := t.callers.set i (.looking number) }
  | miss {t : Traffic} {i number : Nat} (at_ : t.callers[i]? = some (.looking number))
      (missing : t.runner.outcome? number = none) :
      Step t (some (.returned i (.error .stopped))) { t with callers := t.callers.set i .left }
  | giveUp {t : Traffic} {i number : Nat} {reason : Refusal}
      (at_ : t.callers[i]? = some (.waiting number)) (ends : Ending reason) :
      Step t (some (.returned i (.error reason))) { t with callers := t.callers.set i .left }
  | askToStop (t : Traffic) :
      Step t none ⟨t.runner.askToStop, t.callers ++ [.stopping]⟩
  | stopped {t : Traffic} {i : Nat} (at_ : t.callers[i]? = some .stopping)
      (gone : t.runner.isStopped = true) :
      Step t none { t with callers := t.callers.set i .left }
  | release (t : Traffic) : Step t none { t with runner := { t.runner with held := false } }

inductive Run (t₀ : Traffic) : List Event → Traffic → Prop where
  | start : Run t₀ [] t₀
  | next {es : List Event} {t t' : Traffic} {e : Option Event} :
      Run t₀ es t → Step t e t' → Run t₀ (es ++ e.toList) t'

def Accepts (es : List Event) (i : Nat) (job : Job) : Prop :=
  .accepted i job ∈ es ∨ .handed i job ∈ es

@[simp]
def Event.accepted? : Event → Option Job
  | .accepted _ job | .handed _ job => some job
  | _ => none

@[simp]
def Event.began? : Event → Option Job
  | .began job | .handed _ job => some job
  | _ => none

@[simp]
def Event.ended? : Event → Option (Job × Outcome)
  | .ended job outcome => some (job, outcome)
  | _ => none

@[simp]
def Event.recorded? : Event → Option (Job × Outcome)
  | .recorded job outcome => some (job, outcome)
  | _ => none

@[simp]
def Event.delivered? : Event → Option (Job × Outcome)
  | .delivered job outcome => some (job, outcome)
  | _ => none

def accepted (es : List Event) : List Job := es.filterMap Event.accepted?

def began (es : List Event) : List Job := es.filterMap Event.began?

def ended (es : List Event) : List (Job × Outcome) := es.filterMap Event.ended?

def recorded (es : List Event) : List (Job × Outcome) := es.filterMap Event.recorded?

def delivered (es : List Event) : List (Job × Outcome) := es.filterMap Event.delivered?

section Snoc

variable (es : List Event) (e : Event)

@[simp]
theorem accepted_snoc : accepted (es ++ [e]) = accepted es ++ e.accepted?.toList := by
  unfold accepted
  rw [List.filterMap_append]
  cases e <;> rfl

@[simp]
theorem began_snoc : began (es ++ [e]) = began es ++ e.began?.toList := by
  unfold began
  rw [List.filterMap_append]
  cases e <;> rfl

@[simp]
theorem ended_snoc : ended (es ++ [e]) = ended es ++ e.ended?.toList := by
  unfold ended
  rw [List.filterMap_append]
  cases e <;> rfl

@[simp]
theorem recorded_snoc : recorded (es ++ [e]) = recorded es ++ e.recorded?.toList := by
  unfold recorded
  rw [List.filterMap_append]
  cases e <;> rfl

@[simp]
theorem delivered_snoc : delivered (es ++ [e]) = delivered es ++ e.delivered?.toList := by
  unfold delivered
  rw [List.filterMap_append]
  cases e <;> rfl

end Snoc

theorem mem_accepted {es : List Event} {job : Job} : job ∈ accepted es ↔ ∃ i, Accepts es i job := by
  unfold accepted Accepts
  rw [List.mem_filterMap]
  constructor
  · rintro ⟨e, he, hjob⟩
    cases e with
    | accepted i j =>
      cases hjob
      exact ⟨i, .inl he⟩
    | handed i j =>
      cases hjob
      exact ⟨i, .inr he⟩
    | _ => cases hjob
  · rintro ⟨i, h | h⟩
    · exact ⟨_, h, rfl⟩
    · exact ⟨_, h, rfl⟩

def Event.caller? : Event → Option Nat
  | .called i .. | .accepted i _ | .handed i _ | .returned i _ => some i
  | _ => none

def inside : Worker → List Job
  | .running job => [job]
  | _ => []

def unrecorded : Worker → List (Job × Outcome)
  | .finished job outcome => [(job, outcome)]
  | _ => []

def undelivered : Worker → List (Job × Outcome)
  | .recorded job outcome => [(job, outcome)]
  | _ => []

def tally (outcomes : List (Job × Outcome)) : Counts :=
  outcomes.foldl (fun c e => c.add e.2.status) {}

structure Served (execute : Bytes → Outcome) (es : List Event) (r : Runner) : Prop where
  engine : r.execute = execute
  queue : began es ++ r.queue = accepted es
  room : r.queue.length ≤ r.depth
  numbers : (accepted es).map Job.number = List.range r.accepted
  inside : (ended es).map Prod.fst ++ inside r.worker = began es
  unrecorded : recorded es ++ unrecorded r.worker = ended es
  undelivered : delivered es ++ undelivered r.worker = recorded es
  outcomes : ∀ e ∈ ended es, e.2 = execute e.1.source
  ready : r.delivered = (delivered es).reverse.map fun e => (e.1.number, e.2)
  completed : r.completed = (recorded es).reverse.map fun e => (e.1.source, e.2)
  counts : r.counts = tally (ended es)

def Event.IsAside : Event → Prop
  | .called .. | .returned .. => True
  | _ => False

namespace Served

variable {execute : Bytes → Outcome} {es : List Event} {r r' : Runner}

theorem start (execute : Bytes → Outcome) (depth : Nat) (held : Bool) :
    Served execute [] { execute, depth, held } where
  engine := rfl
  queue := rfl
  room := Nat.zero_le _
  numbers := rfl
  inside := rfl
  unrecorded := rfl
  undelivered := rfl
  outcomes _ he := nomatch he
  ready := rfl
  completed := rfl
  counts := rfl

theorem aside (h : Served execute es r) {e : Event} (he : e.IsAside) : Served execute (es ++ [e]) r := by
  have hsame : accepted (es ++ [e]) = accepted es ∧ began (es ++ [e]) = began es ∧
      ended (es ++ [e]) = ended es ∧ recorded (es ++ [e]) = recorded es ∧
      delivered (es ++ [e]) = delivered es := by
    cases e with
    | called | returned => simp
    | _ => exact he.elim
  obtain ⟨ha, hb, he, hr, hd⟩ := hsame
  obtain ⟨engine, queue, room, numbers, inside, unrecorded, undelivered, outcomes, ready, completed, counts⟩ := h
  rw [← ha] at queue numbers
  rw [← hb] at queue inside
  rw [← he] at inside unrecorded outcomes counts
  rw [← hr] at unrecorded undelivered completed
  rw [← hd] at undelivered ready
  exact ⟨engine, queue, room, numbers, inside, unrecorded, undelivered, outcomes, ready, completed, counts⟩

theorem congr (h : Served execute es r)
    (hsame : r' = { r with stopping := r'.stopping, held := r'.held }) : Served execute es r' := by
  rw [hsame]
  exact ⟨h.engine, h.queue, h.room, h.numbers, h.inside, h.unrecorded, h.undelivered, h.outcomes, h.ready,
    h.completed, h.counts⟩

theorem numbers_snoc (h : Served execute es r) (source : Bytes) :
    (accepted es ++ [(⟨r.accepted, source⟩ : Job)]).map Job.number = List.range (r.accepted + 1) := by
  rw [List.map_append, h.numbers, List.range_succ, List.map_singleton]

theorem accept (h : Served execute es r) {source : Bytes} {number : Nat} (i : Nat)
    (hr : r.accept? source = some (number, r')) : Served execute
      (es ++ [if r.queue.length < r.depth then .accepted i ⟨number, source⟩ else .handed i ⟨number, source⟩])
      r' := by
  unfold Runner.accept? at hr
  split at hr
  · rename_i hroom
    cases hr
    rw [if_pos hroom]
    exact {
      engine := h.engine
      queue := by simp [← h.queue]
      room := by simpa using Nat.succ_le_of_lt hroom
      numbers := by simpa using h.numbers_snoc source
      inside := by simpa using h.inside
      unrecorded := by simpa using h.unrecorded
      undelivered := by simpa using h.undelivered
      outcomes := by simpa using h.outcomes
      ready := by simpa using h.ready
      completed := by simpa using h.completed
      counts := by simpa using h.counts }
  · rename_i hroom
    split at hr
    · rename_i hdepth hidle
      cases hr
      rw [if_neg hroom]
      have hqueue : r.queue = [] := by
        have hle := h.room
        rw [hdepth] at hle
        exact List.eq_nil_of_length_eq_zero (Nat.le_zero.mp hle)
      have hi := h.inside
      have hu := h.unrecorded
      have hd := h.undelivered
      have hq := h.queue
      rw [hidle] at hi hu hd
      rw [hqueue] at hq
      simp only [Traffic.inside, Traffic.unrecorded, Traffic.undelivered, List.append_nil] at hi hu hd hq
      exact {
        engine := h.engine
        queue := by simp [hqueue, hq]
        room := h.room
        numbers := by simpa using h.numbers_snoc source
        inside := by simp [Traffic.inside, hi]
        unrecorded := by simpa [Traffic.unrecorded] using hu
        undelivered := by simpa [Traffic.undelivered] using hd
        outcomes := by simpa using h.outcomes
        ready := by simpa using h.ready
        completed := by simpa using h.completed
        counts := by simpa using h.counts }
    · cases hr

theorem take (h : Served execute es r) {job : Job} (hr : r.take? = some r')
    (hrunning : r'.worker = .running job) : Served execute (es ++ [.began job]) r' := by
  unfold Runner.take? at hr
  split at hr
  · rename_i j rest hidle hqueue
    cases hr
    cases hrunning
    have hi := h.inside
    have hu := h.unrecorded
    have hd := h.undelivered
    have hq := h.queue
    rw [hidle] at hi hu hd
    rw [hqueue] at hq
    simp only [Traffic.inside, Traffic.unrecorded, Traffic.undelivered, List.append_nil] at hi hu hd
    exact {
      engine := h.engine
      queue := by simpa using hq
      room := by
        have hle := h.room
        rw [hqueue, List.length_cons] at hle
        exact Nat.le_of_succ_le hle
      numbers := by simpa using h.numbers
      inside := by simp [Traffic.inside, hi]
      unrecorded := by simpa [Traffic.unrecorded] using hu
      undelivered := by simpa [Traffic.undelivered] using hd
      outcomes := by simpa using h.outcomes
      ready := by simpa using h.ready
      completed := by simpa using h.completed
      counts := by simpa using h.counts }
  · cases hr

theorem proceed (h : Served execute es r) (hr : r.proceed? = some r') :
    Served execute (es ++ (progress r).toList) r' := by
  have hi := h.inside
  have hu := h.unrecorded
  have hd := h.undelivered
  unfold Runner.proceed? at hr
  unfold progress
  cases hworker : r.worker with
  | running job =>
    simp only [hworker, Traffic.inside, Traffic.unrecorded, Traffic.undelivered, List.append_nil] at hr hi hu hd ⊢
    split at hr
    · cases hr
    · cases hr
      exact {
        engine := h.engine
        queue := by simpa using h.queue
        room := h.room
        numbers := by simpa using h.numbers
        inside := by simp [Traffic.inside, hi]
        unrecorded := by simp [Traffic.unrecorded, hu]
        undelivered := by simp [Traffic.undelivered, hd]
        outcomes := by
          intro e he
          rw [Option.toList_some, ended_snoc] at he
          rcases List.mem_append.mp he with he | he
          · exact h.outcomes e he
          · rw [List.mem_singleton.mp he, h.engine]
        ready := by simpa using h.ready
        completed := by simpa using h.completed
        counts := by simp [tally, h.counts] }
  | finished job outcome =>
    simp only [hworker, Traffic.inside, Traffic.unrecorded, Traffic.undelivered, List.append_nil] at hr hi hu hd ⊢
    cases hr
    exact {
      engine := h.engine
      queue := by simpa using h.queue
      room := h.room
      numbers := by simpa using h.numbers
      inside := by simpa [Traffic.inside] using hi
      unrecorded := by simpa [Traffic.unrecorded] using hu
      undelivered := by simp [Traffic.undelivered, hd]
      outcomes := by simpa using h.outcomes
      ready := by simpa using h.ready
      completed := by simpa using h.completed
      counts := by simpa using h.counts }
  | recorded job outcome =>
    simp only [hworker, Traffic.inside, Traffic.unrecorded, Traffic.undelivered, List.append_nil] at hr hi hu hd ⊢
    cases hr
    exact {
      engine := h.engine
      queue := by simpa using h.queue
      room := h.room
      numbers := by simpa using h.numbers
      inside := by simpa [Traffic.inside] using hi
      unrecorded := by simpa [Traffic.unrecorded] using hu
      undelivered := by simpa [Traffic.undelivered] using hd
      outcomes := by simpa using h.outcomes
      ready := by simpa using h.ready
      completed := by simpa using h.completed
      counts := by simpa using h.counts }
  | _ => simp [hworker] at hr

end Served

structure Awaits (es : List Event) (i number : Nat) : Prop where
  accepted : ∃ source, .called i true source ∈ es ∧ Accepts es i ⟨number, source⟩ ∧
    ∀ job, Accepts es i job → job = ⟨number, source⟩
  unanswered : ∀ result, .returned i result ∉ es

/-- What the record says of a caller. -/
def Stands (es : List Event) (r : Runner) (i : Nat) : Caller → Prop
  | .arriving waits source | .offering waits source =>
    .called i waits source ∈ es ∧ (∀ job, ¬Accepts es i job) ∧ ∀ result, .returned i result ∉ es
  | .waiting number => Awaits es i number
  | .looking number => Awaits es i number ∧ r.worker = .gone
  | .stopping | .left => True

def Answered (es : List Event) (i : Nat) (outcome : Outcome) : Prop :=
  ∃ number source, .called i true source ∈ es ∧ Accepts es i ⟨number, source⟩ ∧
    (⟨number, source⟩, outcome) ∈ delivered es

def Unserved (es : List Event) (r : Runner) (i : Nat) : Prop :=
  ∀ job, Accepts es i job → r.worker = .gone ∧ job ∉ began es

structure Attended (es : List Event) (t : Traffic) : Prop where
  known : ∀ e ∈ es, ∀ i, e.caller? = some i → i < t.callers.length
  stands : ∀ i c, t.callers[i]? = some c → Stands es t.runner i c
  answered : ∀ i outcome, .returned i (.ok outcome) ∈ es → Answered es i outcome
  refused : ∀ i, .returned i (.error .stopped) ∈ es → Unserved es t.runner i

section Append

variable {es new : List Event} {r r' : Runner} {i : Nat}

theorem Accepts.append {job : Job} (h : Accepts es i job) : Accepts (es ++ new) i job :=
  h.imp (List.mem_append_left _) (List.mem_append_left _)

theorem accepts_append {job : Job} (hnew : ∀ e ∈ new, e.caller? ≠ some i) :
    Accepts (es ++ new) i job ↔ Accepts es i job := by
  refine ⟨fun h => ?_, Accepts.append⟩
  rcases h with h | h <;> rcases List.mem_append.mp h with h | h
  · exact .inl h
  · exact absurd rfl (hnew _ h)
  · exact .inr h
  · exact absurd rfl (hnew _ h)

theorem not_returned_append (h : ∀ result, .returned i result ∉ es)
    (hnew : ∀ e ∈ new, e.caller? ≠ some i) (result : Except Refusal Outcome) :
    .returned i result ∉ es ++ new := by
  intro hmem
  rcases List.mem_append.mp hmem with hmem | hmem
  · exact h result hmem
  · exact hnew _ hmem rfl

theorem Awaits.append {number : Nat} (h : Awaits es i number) (hnew : ∀ e ∈ new, e.caller? ≠ some i) :
    Awaits (es ++ new) i number := by
  obtain ⟨⟨source, hcalled, haccepts, honly⟩, hunanswered⟩ := h
  refine ⟨⟨source, List.mem_append_left _ hcalled, haccepts.append, fun job hjob => ?_⟩,
    not_returned_append hunanswered hnew⟩
  exact honly job ((accepts_append hnew).mp hjob)

theorem Stands.append {c : Caller} (h : Stands es r i c) (hnew : ∀ e ∈ new, e.caller? ≠ some i)
    (hgone : r.worker = .gone → r'.worker = .gone) : Stands (es ++ new) r' i c := by
  cases c with
  | arriving waits source | offering waits source =>
    obtain ⟨hcalled, haccepts, hreturned⟩ := h
    refine ⟨List.mem_append_left _ hcalled, fun job hjob => ?_, not_returned_append hreturned hnew⟩
    exact haccepts job ((accepts_append hnew).mp hjob)
  | waiting number => exact Awaits.append h hnew
  | looking number => exact ⟨h.1.append hnew, hgone h.2⟩
  | stopping | left => trivial

theorem Answered.append {outcome : Outcome} (h : Answered es i outcome) : Answered (es ++ new) i outcome := by
  obtain ⟨number, source, hcalled, haccepts, hdelivered⟩ := h
  refine ⟨number, source, List.mem_append_left _ hcalled, haccepts.append, ?_⟩
  unfold delivered
  rw [List.filterMap_append]
  exact List.mem_append_left _ hdelivered

end Append

theorem mem_snoc {es : List Event} {e : Option Event} {x : Event} (h : x ∈ es ++ e.toList) :
    x ∈ es ∨ e = some x := by
  rcases List.mem_append.mp h with h | h
  · exact .inl h
  · exact .inr (Option.mem_toList.mp h)

theorem Attended.next {es : List Event} {t t' : Traffic} {e : Option Event} {i : Nat} (h : Attended es t)
    (hlength : t.callers.length ≤ t'.callers.length)
    (habout : ∀ x, e = some x → ∀ j, x.caller? = some j → j = i ∧ i < t'.callers.length)
    (hothers : ∀ j c, j ≠ i → t'.callers[j]? = some c → t.callers[j]? = some c)
    (hgone : t.runner.worker = .gone →
      t'.runner.worker = .gone ∧ began (es ++ e.toList) = began es)
    (hself : ∀ c, t'.callers[i]? = some c → Stands (es ++ e.toList) t'.runner i c)
    (hanswered : ∀ outcome, e = some (.returned i (.ok outcome)) → Answered es i outcome)
    (hrefused : e = some (.returned i (.error .stopped)) → Unserved es t.runner i)
    (hfresh : ∀ x job, e = some x → x.accepted? = some job → ∀ result, .returned i result ∉ es) :
    Attended (es ++ e.toList) t' where
  known x hx j hj := by
    rcases mem_snoc hx with hx | hx
    · exact Nat.lt_of_lt_of_le (h.known x hx j hj) hlength
    · obtain ⟨rfl, hlt⟩ := habout x hx j hj
      exact hlt
  stands j c hc := by
    by_cases hj : j = i
    · rw [hj] at hc ⊢
      exact hself c hc
    · refine (h.stands j c (hothers j c hj hc)).append (fun x hx hcaller => ?_) fun hg => (hgone hg).1
      exact hj (habout x (Option.mem_toList.mp hx) j hcaller).1
  answered j outcome hj := by
    rcases mem_snoc hj with hj | hj
    · exact (h.answered j outcome hj).append
    · obtain ⟨rfl, -⟩ := habout _ hj j rfl
      exact (hanswered outcome hj).append
  refused j hj job hjob := by
    rcases mem_snoc hj with hj | hj
    · have hold : Accepts es j job := by
        rcases hjob with hjob | hjob <;> rcases mem_snoc hjob with hjob | hjob
        · exact .inl hjob
        · obtain ⟨rfl, -⟩ := habout _ hjob j rfl
          exact absurd hj (hfresh _ job hjob rfl _)
        · exact .inr hjob
        · obtain ⟨rfl, -⟩ := habout _ hjob j rfl
          exact absurd hj (hfresh _ job hjob rfl _)
      obtain ⟨hworker, hbegan⟩ := h.refused j hj job hold
      rw [(hgone hworker).2]
      exact ⟨(hgone hworker).1, hbegan⟩
    · obtain ⟨rfl, -⟩ := habout _ hj j rfl
      have hold : Accepts es j job := by
        rcases hjob with hjob | hjob <;> rcases mem_snoc hjob with hjob | hjob
        · exact .inl hjob
        · exact nomatch hj.symm.trans hjob
        · exact .inr hjob
        · exact nomatch hj.symm.trans hjob
      obtain ⟨hworker, hbegan⟩ := hrefused hj job hold
      rw [(hgone hworker).2]
      exact ⟨(hgone hworker).1, hbegan⟩

structure Faithful (execute : Bytes → Outcome) (es : List Event) (t : Traffic) : Prop where
  served : Served execute es t.runner
  attended : Attended es t

theorem gone_of_isStopped {r : Runner} (h : r.isStopped = true) : r.worker = .gone := by
  unfold Runner.isStopped at h
  split at h
  · assumption
  · cases h

theorem lt_of_at {cs : List Caller} {i : Nat} {c : Caller} (h : cs[i]? = some c) : i < cs.length :=
  (List.getElem?_eq_some_iff.mp h).1

theorem getElem?_set_ne {cs : List Caller} {i j : Nat} {c c' : Caller} (hj : j ≠ i)
    (h : (cs.set i c')[j]? = some c) : cs[j]? = some c := by
  rwa [List.getElem?_set_ne hj.symm] at h

theorem getElem?_set_self {cs : List Caller} {i : Nat} {c c' : Caller} (h : (cs.set i c')[i]? = some c) :
    c = c' := by
  obtain ⟨hlt, rfl⟩ := List.getElem?_eq_some_iff.mp h
  exact List.getElem_set_self hlt

variable {execute : Bytes → Outcome} {es : List Event} {t t' : Traffic}

theorem Attended.move (h : Attended es t) {i : Nat} {c c' : Caller} (hat : t.callers[i]? = some c)
    {e : Option Event} (he : ∀ x, e = some x → x.caller? = some i ∧ x.IsAside)
    (hself : Stands (es ++ e.toList) t.runner i c')
    (hanswered : ∀ outcome, e = some (.returned i (.ok outcome)) → Answered es i outcome)
    (hrefused : e = some (.returned i (.error .stopped)) → Unserved es t.runner i) :
    Attended (es ++ e.toList) { t with callers := t.callers.set i c' } := by
  refine h.next (Nat.le_of_eq (List.length_set ..).symm) (fun x hx j hj => ?_) (fun j c hj hc => ?_)
    (fun hgone => ⟨hgone, ?_⟩) (fun c hc => ?_) hanswered hrefused fun x job hx hjob => ?_
  · rw [(he x hx).1] at hj
    cases hj
    exact ⟨rfl, by simpa using lt_of_at hat⟩
  · exact getElem?_set_ne hj hc
  · cases e with
    | none => exact congrArg began (List.append_nil es)
    | some x =>
      have hx := (he x rfl).2
      cases x <;> first | exact hx.elim | simp
  · rw [getElem?_set_self hc]
    exact hself
  · have hx := (he x hx).2
    cases x <;> first | exact hx.elim | cases hjob

theorem Attended.leave (h : Attended es t) {i : Nat} {c : Caller} (hat : t.callers[i]? = some c)
    {result : Except Refusal Outcome} (hanswered : ∀ outcome, result = .ok outcome → Answered es i outcome)
    (hrefused : result = .error .stopped → Unserved es t.runner i) :
    Attended (es ++ [.returned i result]) { t with callers := t.callers.set i .left } := by
  refine h.move (e := some (.returned i result)) hat (fun x hx => ?_) trivial (fun outcome heq => ?_) fun heq => ?_
  · cases hx
    exact ⟨rfl, trivial⟩
  · cases heq
    exact hanswered outcome rfl
  · cases heq
    exact hrefused rfl

theorem Attended.work (h : Attended es t) {r : Runner} {e : Option Event}
    (he : ∀ x, e = some x → x.caller? = none) (hgone : t.runner.worker ≠ .gone) :
    Attended (es ++ e.toList) { t with runner := r } := by
  have hne {x : Event} {i : Nat} (hx : x.caller? = some i) : e ≠ some x := fun h =>
    nomatch (he x h).symm.trans hx
  refine h.next (i := t.callers.length) (Nat.le_refl _) (fun x hx j hj => ?_) (fun _ _ _ hc => hc)
    (fun hg => absurd hg hgone) (fun c hc => ?_) (fun _ heq => ?_) (fun heq => ?_) fun x job hx hjob => ?_
  · exact absurd hx (hne hj)
  · exact absurd (lt_of_at hc) (Nat.lt_irrefl _)
  · exact absurd heq (hne rfl)
  · exact absurd heq (hne rfl)
  · cases x with
    | accepted j _ | handed j _ => exact absurd hx (hne rfl)
    | _ => cases hjob

theorem Attended.join (h : Attended es t) {r : Runner} {c' : Caller} {e : Option Event}
    (he : ∀ x, e = some x → ∃ waits source, x = .called t.callers.length waits source)
    (hr : r.worker = t.runner.worker) (hself : Stands (es ++ e.toList) r t.callers.length c') :
    Attended (es ++ e.toList) ⟨r, t.callers ++ [c']⟩ := by
  refine h.next (i := t.callers.length) (by simp) (fun x hx j hj => ?_) (fun j c hj hc => ?_)
    (fun hgone => ⟨hr.trans hgone, ?_⟩) (fun c hc => ?_) (fun _ heq => ?_) (fun heq => ?_)
    fun x job hx hjob => ?_
  · obtain ⟨waits, source, rfl⟩ := he x hx
    cases hj
    exact ⟨rfl, by simp⟩
  · have hlt := lt_of_at hc
    rw [List.length_append, List.length_singleton] at hlt
    rwa [List.getElem?_append_left (by omega)] at hc
  · cases e with
    | none => exact congrArg began (List.append_nil es)
    | some x =>
      obtain ⟨waits, source, rfl⟩ := he x rfl
      simp
  · rw [List.getElem?_append_right (Nat.le_refl _), Nat.sub_self] at hc
    cases hc
    exact hself
  · obtain ⟨_, _, hx⟩ := he _ heq
    cases hx
  · obtain ⟨_, _, hx⟩ := he _ heq
    cases hx
  · obtain ⟨_, _, rfl⟩ := he x hx
    cases hjob

theorem Attended.unknown (h : Attended es t) {x : Event} (hx : x.caller? = some t.callers.length) : x ∉ es :=
  fun hmem => absurd (h.known x hmem _ hx) (Nat.lt_irrefl _)

theorem Attended.called (h : Attended es t) (waits : Bool) (source : Bytes) :
    Attended (es ++ [.called t.callers.length waits source])
      { t with callers := t.callers ++ [.arriving waits source] } := by
  refine h.join (e := some (.called t.callers.length waits source)) (fun x hx => ?_) rfl
    ⟨by simp, fun job hjob => ?_, fun result hresult => ?_⟩
  · cases hx
    exact ⟨waits, source, rfl⟩
  · rcases hjob with hjob | hjob <;> rcases mem_snoc hjob with hjob | hjob
    · exact h.unknown rfl hjob
    · cases hjob
    · exact h.unknown rfl hjob
    · cases hjob
  · rcases mem_snoc hresult with hresult | hresult
    · exact h.unknown rfl hresult
    · cases hresult

theorem Attended.release (h : Attended es t) :
    Attended es { t with runner := { t.runner with held := false } } :=
  ⟨h.known, h.stands, h.answered, h.refused⟩

theorem Attended.accept (h : Attended es t) {i number : Nat} {waits : Bool} {source : Bytes} {r : Runner}
    (hat : t.callers[i]? = some (.offering waits source)) (hr : t.runner.accept? source = some (number, r)) :
    Attended (es ++ [if t.runner.queue.length < t.runner.depth then .accepted i ⟨number, source⟩
        else .handed i ⟨number, source⟩])
      ⟨r, t.callers.set i (if waits then .waiting number else .left)⟩ := by
  obtain ⟨hcalled, hnone, hunanswered⟩ := h.stands i _ hat
  generalize hx : (if t.runner.queue.length < t.runner.depth then Event.accepted i ⟨number, source⟩
    else .handed i ⟨number, source⟩) = x
  have hcaller : x.caller? = some i := by
    rw [← hx]
    split <;> rfl
  have hjob : x.accepted? = some ⟨number, source⟩ := by
    rw [← hx]
    split <;> rfl
  have haccepts (job : Job) : Accepts (es ++ [x]) i job ↔ job = ⟨number, source⟩ := by
    constructor
    · intro hjob'
      rcases hjob' with hjob' | hjob' <;> rcases List.mem_append.mp hjob' with hjob' | hjob'
      · exact absurd (.inl hjob') (hnone job)
      · rw [← List.mem_singleton.mp hjob'] at hjob
        exact Option.some.inj hjob
      · exact absurd (.inr hjob') (hnone job)
      · rw [← List.mem_singleton.mp hjob'] at hjob
        exact Option.some.inj hjob
    · rintro rfl
      rw [← hx]
      unfold Accepts
      split <;> simp
  have hreturned (result : Except Refusal Outcome) : .returned i result ∉ es ++ [x] := by
    intro hmem
    rcases List.mem_append.mp hmem with hmem | hmem
    · exact hunanswered result hmem
    · rw [← List.mem_singleton.mp hmem] at hjob
      cases hjob
  refine h.next (e := some x) (i := i) (Nat.le_of_eq (List.length_set ..).symm) (fun y hy j hj => ?_)
    (fun j c hj hc => getElem?_set_ne hj hc) (fun hgone => ?_) (fun c hc => ?_) (fun outcome heq => ?_)
    (fun heq => ?_) fun _ _ _ _ => hunanswered
  · cases hy
    rw [hcaller] at hj
    cases hj
    exact ⟨rfl, by simpa using lt_of_at hat⟩
  · -- a worker that is gone takes nothing; the program only joins the queue
    unfold Runner.accept? at hr
    split at hr
    · rename_i hroom
      rw [if_pos hroom] at hx
      cases hr
      rw [← hx]
      exact ⟨hgone, by simp⟩
    · rw [hgone] at hr
      split at hr
      · rename_i hidle
        cases hidle
      · cases hr
  · rw [getElem?_set_self hc]
    cases waits with
    | false => trivial
    | true =>
      exact ⟨⟨source, List.mem_append_left _ hcalled, (haccepts _).mpr rfl, fun job h => (haccepts job).mp h⟩,
        hreturned⟩
  · cases heq
    cases hjob
  · cases heq
    cases hjob

end Lox.Traffic

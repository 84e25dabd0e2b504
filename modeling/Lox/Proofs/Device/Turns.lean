import Lox.Device
import Lox.Proofs.Runner.Traffic
import Mathlib.Logic.Function.Basic

/-!
Any number of users of one device, taking turns in any order with each other and with the runner. A user
looks at the device and changes it only while it has the lock of the device; it waits for a program without
the lock, so that the device may have been closed, opened and written to when it comes back.
-/

namespace Lox

namespace Desk

inductive Request where
  | open_ | close | result
  | write (source : Bytes)
  | read (n : Nat)

inductive User where
  | entering (q : Request)
  | inside (q : Request)
  | waiting (q : Request) (number : Nat)
  | returning (q : Request) (number : Nat)
  | back (q : Request) (number : Nat)
  | handing (source : Bytes)
  | offering (source : Bytes)
  | accepted (source : Bytes) (number : Nat)
  | left

def User.holds : User → Bool
  | .inside _ | .back .. | .handing _ | .offering _ | .accepted .. => true
  | _ => false

inductive Watch where
  | waiting
  | looking
  | ended (result : Except Refusal Outcome)

inductive Deed where
  | called (q : Request)
  | submitted (job : Job) (atOnce : Bool)
  | wrote (length : Nat)
  | harvested (number : Nat) (outcome : Outcome)
  | gaveUp (number : Nat)
  | opened
  | closed
  | showed (last : Option Outcome)
  | read (n : Nat) (piece : Bytes)
  | reachedEnd
  | refused (reason : Refusal)

inductive Event where
  | runner (e : Traffic.Event)
  | did (user : Nat) (d : Deed)

structure Shared where
  runner : Runner
  device : Device := {}
  watch : Nat → Option Watch := fun _ => none

end Desk

structure Desk extends Desk.Shared where
  lock : Option Nat := none
  users : List Desk.User := []

namespace Desk

inductive Behind : Shared → Option Traffic.Event → Shared → Prop where
  | submit {x : Shared} {source : Bytes} {number : Nat} {r : Runner} (i : Nat)
      (takes : x.runner.accept? source = some (number, r)) :
      Behind x (some (if x.runner.queue.length < x.runner.depth then .accepted i ⟨number, source⟩
          else .handed i ⟨number, source⟩)) { x with runner := r }
  | take {x : Shared} {job : Job} {r : Runner} (takes : x.runner.take? = some r)
      (running : r.worker = .running job) : Behind x (some (.began job)) { x with runner := r }
  | proceed {x : Shared} {r : Runner} (goes : x.runner.proceed? = some r) :
      Behind x (Traffic.progress x.runner) { x with runner := r }
  | leave {x : Shared} {r : Runner} (leaves : x.runner.leave? = some r) :
      Behind x none { x with runner := r }
  | askToStop (x : Shared) : Behind x none { x with runner := x.runner.askToStop }
  | release (x : Shared) : Behind x none { x with runner := { x.runner with held := false } }
  | receive {x : Shared} {number : Nat} {outcome : Outcome}
      (watched : x.watch number = some .waiting ∨ x.watch number = some .looking)
      (there : x.runner.outcome? number = some outcome) :
      Behind x none { x with watch := Function.update x.watch number (some (.ended (.ok outcome))) }
  | notice {x : Shared} {number : Nat} (watched : x.watch number = some .waiting)
      (gone : x.runner.isStopped = true) :
      Behind x none { x with watch := Function.update x.watch number (some .looking) }
  | miss {x : Shared} {number : Nat} (watched : x.watch number = some .looking)
      (missing : x.runner.outcome? number = none) :
      Behind x none { x with watch := Function.update x.watch number (some (.ended (.error .stopped))) }

inductive Act : Shared → User → Option Deed → Shared → User → Prop where
  | enter (x : Shared) (q : Request) : Act x (.entering q) none x (.inside q)
  | open_ {x : Shared} (free : x.device.isOpen = false) :
      Act x (.inside .open_) (some .opened) { x with device := x.device.acquire } .left
  | busy {x : Shared} (open_ : x.device.isOpen = true) :
      Act x (.inside .open_) (some (.refused .deviceBusy)) x .left
  | close {x : Shared} (open_ : x.device.isOpen = true) :
      Act x (.inside .close) (some .closed) { x with device := x.device.release } .left
  | notOpen {x : Shared} {q : Request} (hq : q ≠ .open_ ∧ q ≠ .result) (closed : x.device.isOpen = false) :
      Act x (.inside q) (some (.refused .deviceNotOpen)) x .left
  | show_ (x : Shared) : Act x (.inside .result) (some (.showed x.device.last)) x .left
  | wait {x : Shared} {q : Request} {number : Nat} (hq : q ≠ .open_ ∧ q ≠ .close ∧ q ≠ .result)
      (open_ : x.device.isOpen = true) (pending : x.device.pending = some number) :
      Act x (.inside q) none x (.waiting q number)
  | wake {x : Shared} {q : Request} {number : Nat} {result : Except Refusal Outcome}
      (ended : x.watch number = some (.ended result)) : Act x (.waiting q number) none x (.returning q number)
  | giveUpWaiting (x : Shared) {q : Request} {number : Nat} {reason : Refusal}
      (ends : Traffic.Ending reason) : Act x (.waiting q number) (some (.refused reason)) x .left
  | reenter (x : Shared) (q : Request) (number : Nat) : Act x (.returning q number) none x (.back q number)
  | late {x : Shared} {q : Request} {number : Nat} (other : x.device.pending ≠ some number) :
      Act x (.back q number) none x (.inside q)
  | harvest {x : Shared} {q : Request} {number : Nat} {outcome : Outcome}
      (pending : x.device.pending = some number) (ended : x.watch number = some (.ended (.ok outcome))) :
      Act x (.back q number) (some (.harvested number outcome))
        { x with device := x.device.harvest outcome } (.inside q)
  | giveUp {x : Shared} {q : Request} {number : Nat} {reason : Refusal}
      (pending : x.device.pending = some number) (ended : x.watch number = some (.ended (.error reason))) :
      Act x (.back q number) (some (.gaveUp number)) { x with device := x.device.giveUp } .left
  | read {x : Shared} {n : Nat} {piece : Bytes} {d : Device} (open_ : x.device.isOpen = true)
      (settled : x.device.pending = none) (more : x.device.next n = (some piece, d)) :
      Act x (.inside (.read n)) (some (.read n piece)) { x with device := d } .left
  | reachEnd {x : Shared} {n : Nat} {d : Device} (open_ : x.device.isOpen = true)
      (settled : x.device.pending = none) (end_ : x.device.next n = (none, d)) :
      Act x (.inside (.read n)) (some .reachedEnd) { x with device := d } .left
  | hand {x : Shared} {source : Bytes} (open_ : x.device.isOpen = true)
      (settled : x.device.pending = none) : Act x (.inside (.write source)) none x (.handing source)
  | offer {x : Shared} {source : Bytes} (open_ : x.runner.stopping = false) :
      Act x (.handing source) none x (.offering source)
  | refuse {x : Shared} {u : User} {source : Bytes} (at_ : u = .handing source ∨ u = .offering source)
      (stopping : x.runner.stopping = true) : Act x u (some (.refused .stopped)) x .left
  | withdraw (x : Shared) {source : Bytes} {reason : Refusal} (ends : Traffic.Ending reason) :
      Act x (.offering source) (some (.refused reason)) x .left
  | accept {x : Shared} {source : Bytes} {number : Nat} {r : Runner}
      (takes : x.runner.accept? source = some (number, r)) :
      Act x (.offering source)
        (some (.submitted ⟨number, source⟩ (decide (x.runner.depth ≤ x.runner.queue.length))))
        { x with runner := r } (.accepted source number)
  | wrote (x : Shared) (source : Bytes) (number : Nat) :
      Act x (.accepted source number) (some (.wrote source.length))
        { x with
          device := x.device.wrote number
          watch := Function.update x.watch number (some .waiting) } .left

inductive Step : Desk → Option Event → Desk → Prop where
  | behind {s : Desk} {e : Option Traffic.Event} {x : Shared} (moves : Behind s.toShared e x) :
      Step s (e.map .runner) { s with toShared := x }
  | call (s : Desk) (q : Request) :
      Step s (some (.did s.users.length (.called q))) { s with users := s.users ++ [.entering q] }
  | act {s : Desk} {i : Nat} {u u' : User} {d : Option Deed} {x : Shared} (at_ : s.users[i]? = some u)
      (acts : Act s.toShared u d x u') (free : u'.holds = true → u.holds = true ∨ s.lock = none) :
      Step s (d.map (.did i)) {
        toShared := x
        lock := if u'.holds then some i else if u.holds then none else s.lock
        users := s.users.set i u' }

inductive Run (s₀ : Desk) : List Event → Desk → Prop where
  | start : Run s₀ [] s₀
  | next {es : List Event} {s s' : Desk} {e : Option Event} :
      Run s₀ es s → Step s e s' → Run s₀ (es ++ e.toList) s'

def Deed.submitted? : Deed → Option Job
  | .submitted job _ => some job
  | _ => none

def Deed.settled? : Deed → Option Nat
  | .harvested number _ | .gaveUp number => some number
  | _ => none

def Event.submitted? : Event → Option Job
  | .runner _ => none
  | .did _ d => d.submitted?

def Event.settled? : Event → Option Nat
  | .runner _ => none
  | .did _ d => d.settled?

def Event.ofRunner? : Event → Option Traffic.Event
  | .runner e => some e
  | .did i (.submitted job atOnce) => some (if atOnce then .handed i job else .accepted i job)
  | .did .. => none

def submitted (es : List Event) : List Job := es.filterMap Event.submitted?

def settled (es : List Event) : List Nat := es.filterMap Event.settled?

def ofRunner (es : List Event) : List Traffic.Event := es.filterMap Event.ofRunner?

structure Tape where
  last : Option Outcome := none
  read : Bytes := []

namespace Tape

def output (t : Tape) : Bytes :=
  (t.last.map Outcome.output).getD []

def play (t : Tape) : Deed → Tape
  | .harvested _ outcome => ⟨some outcome, []⟩
  | .read _ piece => { t with read := t.read ++ piece }
  | .opened | .reachedEnd => { t with read := [] }
  | _ => t

def note (t : Tape) : Event → Tape
  | .runner _ => t
  | .did _ d => t.play d

end Tape

def tape (es : List Event) : Tape := es.foldl Tape.note {}

section Next

variable {β : Type} (es : List Event) (e : Option Event)

theorem filterMap_next (f : Event → Option β) :
    (es ++ e.toList).filterMap f = es.filterMap f ++ (e.bind f).toList := by
  rw [List.filterMap_append]
  cases e with
  | none => rfl
  | some e =>
    rw [Option.toList_some, List.filterMap_cons]
    cases he : f e <;> simp [he]

theorem submitted_next : submitted (es ++ e.toList) = submitted es ++ (e.bind Event.submitted?).toList :=
  filterMap_next es e _

theorem settled_next : settled (es ++ e.toList) = settled es ++ (e.bind Event.settled?).toList :=
  filterMap_next es e _

theorem ofRunner_next : ofRunner (es ++ e.toList) = ofRunner es ++ (e.bind Event.ofRunner?).toList :=
  filterMap_next es e _

theorem tape_next : tape (es ++ e.toList) = e.elim (tape es) (tape es).note := by
  unfold tape
  rw [List.foldl_append]
  cases e <;> rfl

end Next

end Desk

end Lox

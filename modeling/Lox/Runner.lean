import Lox.Outcome

/-!
A runner takes programs from many callers and runs them one at a time, in the order in which it
accepted them. It is a queue and a worker; the steps of both are single operations here, so that
every order in which callers and the worker take turns can be spelled out. The operations at the end
take the one order in which the worker goes on as far as it can after every call.
-/

namespace Lox

inductive Refusal where
  | deviceBusy
  | deviceNotOpen
  | stopped
  | canceled
  | expired
  | stuck
deriving DecidableEq

namespace Refusal

def message : Refusal → Bytes
  | deviceBusy => "server: device busy"
  | deviceNotOpen => "server: device not open"
  | stopped => "server: runner stopped"
  | canceled => "context canceled"
  | expired => "context deadline exceeded"
  | stuck => "no answer"

end Refusal

structure Job where
  number : Nat
  source : Bytes

inductive Worker where
  | idle
  | running (job : Job)
  | finished (job : Job) (outcome : Outcome)
  | recorded (job : Job) (outcome : Outcome)
  | gone

structure Counts where
  runs : Nat := 0
  compileErrors : Nat := 0
  runtimeErrors : Nat := 0
  internalErrors : Nat := 0
deriving DecidableEq

namespace Counts

def add (c : Counts) (status : Status) : Counts :=
  let c := { c with runs := c.runs + 1 }
  match status with
  | .ok => c
  | .compileError => { c with compileErrors := c.compileErrors + 1 }
  | .runtimeError => { c with runtimeErrors := c.runtimeErrors + 1 }
  | .internalError => { c with internalErrors := c.internalErrors + 1 }

end Counts

structure Runner where
  execute : Bytes → Outcome
  depth : Nat := 16
  -- The programs that wait, first one first.
  queue : List Job := []
  worker : Worker := .idle
  accepted : Nat := 0
  delivered : List (Nat × Outcome) := []
  -- The programs that have ended, last one first.
  completed : List (Bytes × Outcome) := []
  counts : Counts := {}
  stopping : Bool := false
  held : Bool := false

namespace Runner

def mostDepth : Nat := 11728124029606

def new (execute : Bytes → Outcome) (depth : Nat) (held : Bool) : Except Fault Runner :=
  if mostDepth < depth then .error .oversize else .ok { execute, depth, held }

/-- Accepts a program, if there is room. Without a queue, the worker has to be idle to take it. -/
def accept? (r : Runner) (source : Bytes) : Option (Nat × Runner) :=
  let job : Job := ⟨r.accepted, source⟩
  if r.queue.length < r.depth then
    some (job.number, { r with queue := r.queue ++ [job], accepted := r.accepted + 1 })
  else
    match r.depth, r.worker with
    | 0, .idle => some (job.number, { r with worker := .running job, accepted := r.accepted + 1 })
    | _, _ => none

def outcome? (r : Runner) (number : Nat) : Option Outcome :=
  r.delivered.lookup number

def askToStop (r : Runner) : Runner :=
  { r with stopping := true }

def isStopped (r : Runner) : Bool :=
  match r.worker with
  | .gone => true
  | _ => false

def take? (r : Runner) : Option Runner :=
  match r.worker, r.queue with
  | .idle, job :: rest => some { r with worker := .running job, queue := rest }
  | _, _ => none

def proceed? (r : Runner) : Option Runner :=
  match r.worker with
  | .running job =>
    if r.held then none
    else
      let outcome := r.execute job.source
      some { r with worker := .finished job outcome, counts := r.counts.add outcome.status }
  | .finished job outcome =>
    some { r with
      worker := .recorded job outcome
      completed := (job.source, outcome) :: r.completed }
  | .recorded job outcome =>
    some { r with worker := .idle, delivered := (job.number, outcome) :: r.delivered }
  | _ => none

def leave? (r : Runner) : Option Runner :=
  match r.worker with
  | .idle => if r.stopping then some { r with worker := .gone } else none
  | _ => none

def workFor : Nat → Runner → Runner
  | 0, r => r
  | fuel + 1, r =>
    match r.proceed? <|> r.take? with
    | some r => workFor fuel r
    | none => r

def work (r : Runner) : Runner :=
  workFor (4 * (r.queue.length + 1)) r

end Runner

abbrev RunnerM := EStateM Refusal Runner

namespace RunnerM

def submit (ended : Option Refusal) (source : Bytes) : RunnerM Nat := do
  let r ← get
  if r.stopping then throw .stopped
  if let some reason := ended then throw reason
  match r.accept? source with
  | some (number, r) =>
    set r.work
    return number
  | none => throw .stuck

def run (ended : Option Refusal) (source : Bytes) : RunnerM Outcome := do
  let number ← submit ended source
  let r ← get
  match r.outcome? number with
  | some outcome => return outcome
  | none => throw (if r.isStopped then .stopped else .stuck)

def stop : RunnerM Unit :=
  modify fun r =>
    let r := r.askToStop.work
    r.leave?.getD r

def release : RunnerM Unit :=
  modify fun r => { r with held := false }.work

end RunnerM

end Lox

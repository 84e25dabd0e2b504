import Lox.Runner

/-!
A device gives one holder at a time a runner to write programs to and to read their output from.
-/

namespace Lox

structure Device where
  isOpen : Bool := false
  pending : Option Nat := none
  last : Option Outcome := none
  output : Bytes := []
  offset : Nat := 0

namespace Device

def acquire (d : Device) : Device :=
  { d with isOpen := true, offset := 0 }

def release (d : Device) : Device :=
  { d with isOpen := false }

def harvest (d : Device) (outcome : Outcome) : Device :=
  { d with pending := none, last := some outcome, output := outcome.output, offset := 0 }

def giveUp (d : Device) : Device :=
  { d with pending := none }

def wrote (d : Device) (number : Nat) : Device :=
  { d with pending := some number }

def next (d : Device) (n : Nat) : Option Bytes × Device :=
  match d.output.drop d.offset with
  | [] => (none, { d with offset := 0 })
  | rest =>
    let piece := rest.take n
    (some piece, { d with offset := d.offset + piece.length })

def rest (d : Device) : Bytes × Device :=
  (d.output.drop d.offset, { d with offset := 0 })

end Device

structure Host where
  runner : Runner
  device : Device := {}

abbrev HostM := EStateM Refusal Host

namespace HostM

def onRunner {α : Type} (act : RunnerM α) : HostM α := fun h =>
  match act h.runner with
  | .ok a runner => .ok a { h with runner }
  | .error e runner => .error e { h with runner }

def onDevice {α : Type} (f : Device → α × Device) : HostM α :=
  modifyGet fun h => ((f h.device).1, { h with device := (f h.device).2 })

def changeDevice (f : Device → Device) : HostM Unit :=
  onDevice fun d => ((), f d)

def openDevice : HostM Unit := do
  if (← get).device.isOpen then throw .deviceBusy
  changeDevice .acquire

def closeDevice : HostM Unit := do
  if !(← get).device.isOpen then throw .deviceNotOpen
  changeDevice .release

def settle (ended : Option Refusal) : HostM Unit := do
  let h ← get
  if !h.device.isOpen then throw .deviceNotOpen
  if let some number := h.device.pending then
    match h.runner.outcome? number with
    | some outcome => changeDevice (·.harvest outcome)
    | none =>
      if h.runner.isStopped then
        changeDevice .giveUp
        throw .stopped
      throw (ended.getD .stuck)

def write (ended : Option Refusal) (source : Bytes) : HostM Nat := do
  settle ended
  let number ← onRunner (RunnerM.submit ended source)
  changeDevice (·.wrote number)
  return source.length

def read (ended : Option Refusal) (n : Nat) : HostM (Option Bytes) := do
  settle ended
  onDevice (·.next n)

def readAll : HostM Bytes := do
  settle none
  onDevice Device.rest

end HostM

end Lox

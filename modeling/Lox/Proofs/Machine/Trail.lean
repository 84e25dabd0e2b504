import Lox.Bytes
import Lox.Opcode
import Lox.Proofs.Machine.Values
import Mathlib.Logic.Function.Basic

/-!
Which classes inherit from which, the methods that their bodies declare, and which closure made which. Classes
and closures are numbers here.
-/

namespace Lox

inductive Deed where
  | idle
  | makes (closure maker : Nat)
  | inherits (class_ superclass : Nat)
  | declares (class_ : Nat) (name : Bytes) (method : Nat)
deriving DecidableEq

def Deed.of (op : Opcode) (name : Option Bytes) (running top second made : Option Nat) : Deed :=
  match op with
  | .closure => match made, running with
    | some c, some maker => .makes c maker
    | _, _ => .idle
  | .inherit => match top, second with
    | some k, some p => .inherits k p
    | _, _ => .idle
  | .method => match name, top, second with
    | some n, some m, some k => .declares k n m
    | _, _, _ => .idle
  | _ => .idle

structure Lineage where
  maker : Nat → Option Nat := fun _ => none
  parent : Nat → Option Nat := fun _ => none
  -- The methods declared in the body of a class, newest first.
  own : Nat → List (Bytes × Nat) := fun _ => []

namespace Lineage

def after (L : Lineage) : Deed → Lineage
  | .idle => L
  | .makes c maker => { L with maker := Function.update L.maker c (some maker) }
  | .inherits k p => { L with parent := Function.update L.parent k (some p) }
  | .declares k name m => { L with own := Function.update L.own k ((name, m) :: L.own k) }

/-- The method is the last of its name in the body of the class, or in that of the nearest class above it whose
body declares one. -/
inductive Nearest (L : Lineage) : Nat → Bytes → Nat → Prop
  | own {k : Nat} {n : Bytes} {m : Nat} : (L.own k).lookup n = some m → Nearest L k n m
  | inherited {k p : Nat} {n : Bytes} {m : Nat} : (L.own k).lookup n = none → L.parent k = some p → Nearest L p n m →
        Nearest L k n m

/-- The second class is the first one, or one from which that inherits. -/
inductive Chain (L : Lineage) : Nat → Nat → Prop
  | self {k : Nat} : Chain L k k
  | above {k p q : Nat} : L.parent k = some p → Chain L p q → Chain L k q

/-- The closure is a method declared in the body of the class, or is made by one that belongs to it. -/
inductive Belongs (L : Lineage) : Nat → Nat → Prop
  | method {n : Bytes} {c k : Nat} : (n, c) ∈ L.own k → Belongs L c k
  | made {c c' k : Nat} : L.maker c' = some c → (∀ k n, (n, c') ∉ L.own k) → Belongs L c k → Belongs L c' k

variable {L : Lineage} {k k' p m m' c d : Nat} {n name : Bytes}

theorem Nearest.unique (h : L.Nearest k n m) (h' : L.Nearest k n m') : m = m' := by
  induction h with
  | own hm =>
    cases h' with
    | own hm' =>
      rw [hm] at hm'
      exact Option.some.inj hm'
    | inherited hnone _ _ =>
      rw [hm] at hnone
      cases hnone
  | inherited hnone hp _ ih =>
    cases h' with
    | own hm' =>
      rw [hm'] at hnone
      cases hnone
    | inherited _ hp' h' =>
      rw [hp] at hp'
      cases hp'
      exact ih h'

theorem mem_own_of_lookup {methods : List (Bytes × Nat)} (h : methods.lookup n = some m) : (n, m) ∈ methods := by
  induction methods with
  | nil => cases h
  | cons x rest ih =>
    obtain ⟨n', m'⟩ := x
    rw [List.lookup_cons] at h
    by_cases hn : n = n'
    · subst hn
      simp only [beq_self_eq_true] at h
      cases h
      exact .head _
    · rw [beq_eq_false_iff_ne.mpr hn] at h
      exact .tail _ (ih h)

theorem Nearest.declared (h : L.Nearest k n m) : ∃ k', (n, m) ∈ L.own k' := by
  induction h with
  | own hm => exact ⟨_, mem_own_of_lookup hm⟩
  | inherited _ _ _ ih => exact ih

@[simp] theorem after_makes_own : (L.after (.makes c m)).own = L.own := rfl

@[simp] theorem after_makes_parent : (L.after (.makes c m)).parent = L.parent := rfl

@[simp] theorem after_inherits_own : (L.after (.inherits k p)).own = L.own := rfl

@[simp] theorem after_inherits_maker : (L.after (.inherits k p)).maker = L.maker := rfl

@[simp] theorem after_declares_parent : (L.after (.declares k n m)).parent = L.parent := rfl

@[simp] theorem after_declares_maker : (L.after (.declares k n m)).maker = L.maker := rfl

theorem mem_own_after (h : (n, m) ∈ L.own k) (d : Deed) : (n, m) ∈ (L.after d).own k := by
  cases d with
  | idle | makes | inherits => exact h
  | declares k' n' m' =>
    by_cases hk : k = k'
    · subst hk
      rw [show (L.after (.declares k n' m')).own k = (n', m') :: L.own k from Function.update_self ..]
      exact .tail _ h
    · rw [show (L.after (.declares k' n' m')).own k = L.own k from Function.update_of_ne hk ..]
      exact h

theorem Nearest.same {L' : Lineage} (h : L.Nearest k n m) (hown : ∀ k, (L'.own k).lookup n = (L.own k).lookup n)
    (hparent : L'.parent = L.parent) : L'.Nearest k n m := by
  induction h with
  | own hm => exact .own ((hown _).trans hm)
  | inherited hnone hp _ ih => exact .inherited ((hown _).trans hnone) (hparent ▸ hp) (ih hown)

theorem nearest_same {L' : Lineage} (hown : ∀ k, (L'.own k).lookup n = (L.own k).lookup n)
    (hparent : L'.parent = L.parent) : L'.Nearest k n m ↔ L.Nearest k n m :=
  ⟨fun h => h.same (fun k => (hown k).symm) hparent.symm, fun h => h.same hown hparent⟩

theorem nearest_away {L' : Lineage} (hown : ∀ k ≠ d, L'.own k = L.own k) (hparent : ∀ k ≠ d, L'.parent k = L.parent k)
    (hlast : ∀ k, L.parent k = some d → k = d) (hk : k ≠ d) : L'.Nearest k n m ↔ L.Nearest k n m := by
  have habove {k p : Nat} (hk : k ≠ d) (hp : L.parent k = some p) : p ≠ d := by
    rintro rfl
    exact hk (hlast k hp)
  constructor
  · intro h
    induction h with
    | own hm => exact .own (hown _ hk ▸ hm)
    | inherited hnone hp _ ih =>
      rw [hown _ hk] at hnone
      rw [hparent _ hk] at hp
      exact .inherited hnone hp (ih (habove hk hp))
  · intro h
    induction h with
    | own hm => exact .own ((hown _ hk).symm ▸ hm)
    | inherited hnone hp _ ih =>
      exact .inherited ((hown _ hk).symm ▸ hnone) ((hparent _ hk).symm ▸ hp) (ih (habove hk hp))

theorem nearest_declares (hlast : ∀ k, L.parent k = some d → k = d) :
    (L.after (.declares d name c)).Nearest k n m ↔ if k = d ∧ n = name then m = c else L.Nearest k n m := by
  have hown : ∀ k ≠ d, (L.after (.declares d name c)).own k = L.own k :=
    fun k hk => Function.update_of_ne hk _ _
  have hself : (L.after (.declares d name c)).own d = (name, c) :: L.own d := Function.update_self ..
  by_cases hk : k = d
  · subst hk
    by_cases hn : n = name
    · subst hn
      rw [if_pos ⟨rfl, rfl⟩]
      have hlookup : ((L.after (.declares k n c)).own k).lookup n = some c := by rw [hself]; simp
      constructor
      · intro h
        exact h.unique (.own hlookup)
      · rintro rfl
        exact .own hlookup
    · rw [if_neg (fun h => hn h.2)]
      refine nearest_same (fun k' => ?_) rfl
      by_cases hk' : k' = k
      · subst hk'
        rw [hself, List.lookup_cons, beq_eq_false_iff_ne.mpr hn]
      · rw [hown k' hk']
  · rw [if_neg (fun h => hk h.1)]
    exact nearest_away hown (fun _ _ => rfl) hlast hk

theorem not_nearest_self (hempty : L.own d = []) (hself : L.parent d = some d) : ¬L.Nearest d n m := by
  intro h
  generalize hk : d = k at h
  induction h with
  | own hm =>
    subst hk
    rw [hempty] at hm
    cases hm
  | inherited _ hp _ ih =>
    subst hk
    rw [hself] at hp
    cases hp
    exact ih rfl

theorem nearest_inherits (hempty : L.own d = []) (hnone : L.parent d = none) (hlast : ∀ k, L.parent k = some d →
    k = d) :
    (L.after (.inherits d p)).Nearest k n m ↔ L.Nearest (if k = d then p else k) n m := by
  have hparent : ∀ k ≠ d, (L.after (.inherits d p)).parent k = L.parent k :=
    fun k hk => Function.update_of_ne hk _ _
  have hself : (L.after (.inherits d p)).parent d = some p := Function.update_self ..
  have hlookup : ((L.after (.inherits d p)).own d).lookup n = none := by
    rw [after_inherits_own, hempty]
    rfl
  by_cases hk : k = d
  · subst hk
    rw [if_pos rfl]
    by_cases hp : p = k
    · subst hp
      -- a class that inherits from itself has no methods, before or after
      have hbefore : ¬L.Nearest p n m := by
        intro h
        cases h with
        | own hm =>
          rw [hempty] at hm
          cases hm
        | inherited _ hp _ =>
          rw [hnone] at hp
          cases hp
      exact ⟨fun h => absurd h (not_nearest_self (L := L.after (.inherits p p)) hempty hself), fun h =>
          absurd h hbefore⟩
    · have haway : (L.after (.inherits k p)).Nearest p n m ↔ L.Nearest p n m :=
        nearest_away (fun _ _ => rfl) hparent hlast hp
      constructor
      · intro h
        cases h with
        | own hm =>
          rw [hlookup] at hm
          cases hm
        | inherited _ hp' h =>
          rw [hself] at hp'
          cases hp'
          exact haway.mp h
      · intro h
        exact .inherited hlookup hself (haway.mpr h)
  · rw [if_neg hk]
    exact nearest_away (fun _ _ => rfl) hparent hlast hk

end Lineage

end Lox

namespace Lox

open HeapView

namespace Machine

def running? (m : Machine) : Option (Frame × Function) := do
  let f ← m.calls.frames.head?
  let c ← (closureAt f.closure m.heap).toOption
  let fn ← (functionAt c.function m.heap).toOption
  return (f, fn)

def nameAt (m : Machine) (fn : Function) (offset : Nat) : Option Bytes := do
  let b ← fn.chunk.code.get? offset
  let v ← fn.chunk.constants.get? b.toNat
  let s ← (asSymbol v m.heap).toOption
  return s.chars

def instr? (m : Machine) : Option (Opcode × Option Bytes) := do
  let (f, fn) ← m.running?
  let op ← Opcode.ofByte? (← fn.chunk.code.get? f.ip)
  return (op, m.nameAt fn (f.ip + 1))

def top? (m : Machine) (d : Nat) : Option Loc := do
  let v ← m.values.reverse[d]?
  let l ← (locOfValue v m.heap).toOption
  let o ← m.heap.objects[l]?
  match o.kind with
  | .string => none
  | _ => some l

def deed (m m' : Machine) : Deed :=
  match m.instr? with
  | some (op, name) => .of op name (m.calls.frames.head?.map (·.closure)) (m.top? 0) (m.top? 1) (m'.top? 0)
  | none => .idle

def story : List Machine → Lineage
  | m' :: m :: before => (story (m :: before)).after (m.deed m')
  | _ => {}

/-- The states between the instructions of a program, newest first; it begins on the machine `m`. -/
inductive Trail (m : Machine) (source : Bytes) : List Machine → Prop
  | start {m' : Machine} : EmbedM.start source m = .ok .running m' → Trail m source [m']
  | step {m' m'' : Machine} {before : List Machine} : Trail m source (m' :: before) →
      MachineM.step m' = .ok true m'' → Trail m source (m'' :: m' :: before)

theorem Trail.tail {m x y : Machine} {source : Bytes} {before : List Machine} (h : Trail m source (y :: x :: before)) :
    Trail m source (x :: before) ∧ MachineM.step x = .ok true y := by
  cases h with
  | step h hstep => exact ⟨h, hstep⟩

theorem Trail.before {m x : Machine} {source : Bytes} {after before : List Machine}
    (h : Trail m source (after ++ x :: before)) : Trail m source (x :: before) := by
  induction after with
  | nil => exact h
  | cons y after ih =>
    cases after with
    | nil => exact h.tail.1
    | cons z after => exact ih h.tail.1

def trail? (m : Machine) (source : Bytes) : Nat → Option (List Machine)
  | 0 => match EmbedM.start source m with
    | .ok .running m' => some [m']
    | _ => none
  | n + 1 => match m.trail? source n with
    | some (m' :: before) => match MachineM.step m' with
      | .ok true m'' => some (m'' :: m' :: before)
      | _ => none
    | _ => none

theorem trail_of_trail? {m : Machine} {source : Bytes} {n : Nat} {trail : List Machine}
    (h : m.trail? source n = some trail) : Trail m source trail := by
  induction n generalizing trail with
  | zero =>
    unfold trail? at h
    split at h
    · cases h
      rename_i hstart
      exact .start hstart
    · cases h
  | succ n ih =>
    unfold trail? at h
    split at h
    · rename_i hbefore
      split at h
      · cases h
        rename_i hstep
        exact .step (ih hbefore) hstep
      · cases h
    · cases h

theorem exists_trail (options : GcOptions) (n : Int) (source : Bytes) (k : Nat) (test : List Machine → Bool)
    (h : (match Machine.new options n .standard with
      | .ok m => (m.trail? source k).any test
      | .error _ => false) = true) : ∃ m trail, Machine.new options n .standard = .ok m ∧ Trail m source trail ∧
    test trail = true := by
  cases hnew : Machine.new options n .standard with
  | error f =>
    rw [hnew] at h
    cases h
  | ok m =>
    rw [hnew] at h
    obtain ⟨trail, htrail, htest⟩ := (Option.any_eq_true _ _).mp h
    exact ⟨m, trail, rfl, trail_of_trail? htrail, htest⟩

end Machine

end Lox

import Lox.Machine.State
import Lox.Proofs.Compile.Draft
import Lox.Proofs.Growable
import Lox.Proofs.Heap.Keep
import Mathlib.Data.List.Forall2

/-!
The ideal machine: the instructions of the machine without a heap to look after. A string is its text, a
function is its prototype, and no object ever goes away.
-/

namespace Lox

inductive Val where
  | nil
  | bool (b : Bool)
  | number (bits : UInt64)
  | string (chars : Bytes)
  | object (a : Nat)
deriving DecidableEq

namespace Val

instance : Inhabited Val := ⟨nil⟩

def ofFloat (f : Float) : Val :=
  number (Value.number f).bits

def isFalsey : Val → Bool
  | nil => true
  | bool b => !b
  | _ => false

def isNumber : Val → Bool
  | number _ => true
  | _ => false

def isString : Val → Bool
  | string _ => true
  | _ => false

def equal : Val → Val → Bool
  | number a, number b => Number.equal a b
  | a, b => a = b

end Val

abbrev Dict (α : Type) := Bytes → Option α

namespace Dict

variable {α : Type}

def empty : Dict α := fun _ => none

def set (d : Dict α) (name : Bytes) (v : α) : Dict α := fun n => if n = name then some v else d n

def overlay (d e : Dict α) : Dict α := fun n => (d n).or (e n)

end Dict

inductive Obj (κ : Type) where
  | closure (c : κ)
  | native (n : Native)
  | class_ (name : Bytes) (methods : Dict Nat)
  | instance_ (class_ : Nat) (fields : Dict Val)
  | bound (receiver : Val) (method : Nat)

namespace Obj

variable {κ : Type}

def closure? : Obj κ → Option κ
  | closure c => some c
  | _ => none

def text? (label : κ → Bytes) (objects : List (Obj κ)) (a : Nat) : Option Bytes :=
  match objects[a]? with
  | some (closure c) => some (label c)
  | some (native _) => some "<native fn>"
  | some (class_ name _) => some name
  | some (instance_ k _) =>
    match objects[k]? with
    | some (class_ name _) => some (name ++ (" instance" : Bytes))
    | _ => none
  | some (bound _ m) => (objects[m]?.bind closure?).map label
  | none => some []

end Obj

namespace Val

variable {κ : Type}

def text? (label : κ → Bytes) (objects : List (Obj κ)) : Val → Option Bytes
  | nil => some "nil"
  | bool true => some "true"
  | bool false => some "false"
  | number bits => some (Number.format bits)
  | string chars => some chars
  | object a => Obj.text? label objects a

end Val

structure Routine where
  prototype : Prototype
  captures : List (Option Nat)

inductive Captured where
  | slot (n : Nat)
  | closed (v : Val)

structure Activation where
  closure : Nat
  ip : Nat
  base : Nat

structure Ideal where
  maxFrames : Nat
  clock : Clock
  objects : List (Obj Routine) := []
  upvalues : List Captured := []
  -- Lowest slot first.
  stack : List Val := []
  -- Innermost first.
  frames : List Activation := []
  globals : Dict Val := .empty
  -- The captured slots with their upvalues, in descending order of the slots.
  openUpvalues : List (Nat × Nat) := []
  -- Newest first.
  printed : List Bytes := []

abbrev IdealM := EStateM Stop Ideal

namespace Ideal

def floor (i : Ideal) : Nat :=
  match i.frames with
  | f :: _ => f.base
  | [] => 0

end Ideal

namespace IdealM

open Lox.Ideal

def stop {α : Type} (f : Fault) : IdealM α :=
  throw (.fault f)

def ofOption {α : Type} : Option α → IdealM α
  | some a => return a
  | none => stop .missing

def push (v : Val) : IdealM Unit :=
  modify fun i => { i with stack := i.stack ++ [v] }

def peek (distance : Nat) : IdealM Val := do
  let i ← get
  if i.floor + distance < i.stack.length then
    ofOption i.stack[i.stack.length - 1 - distance]?
  else stop .outOfRange

def pop : IdealM Val := do
  let v ← peek 0
  modify fun i => { i with stack := i.stack.dropLast }
  return v

def readSlot (n : Nat) : IdealM Val := do
  ofOption (← get).stack[n]?

def writeSlot (n : Nat) (v : Val) : IdealM Unit := do
  if (← get).stack.length ≤ n then stop .outOfRange
  modify fun i => { i with stack := i.stack.set n v }

def calleeSlot (count : Nat) : IdealM Nat := do
  let i ← get
  if i.floor + count < i.stack.length then return i.stack.length - 1 - count
  else stop .outOfRange

def print (text : Bytes) : IdealM Unit :=
  modify fun i => { i with printed := text :: i.printed }

def object (a : Nat) : IdealM (Obj Routine) := do
  ofOption (← get).objects[a]?

def closureAt (a : Nat) : IdealM Routine := do
  match ← object a with
  | .closure c => return c
  | _ => stop .wrongKind

def classAt (a : Nat) : IdealM (Bytes × Dict Nat) := do
  match ← object a with
  | .class_ name methods => return (name, methods)
  | _ => stop .wrongKind

def create (o : Obj Routine) : IdealM Nat :=
  modifyGet fun i => (i.objects.length, { i with objects := i.objects ++ [o] })

def setObject (a : Nat) (o : Obj Routine) : IdealM Unit :=
  modify fun i => { i with objects := i.objects.set a o }

def asClass : Val → IdealM Nat
  | .object a => do
    let _ ← classAt a
    return a
  | _ => stop .notObject

def traceLine (f : Activation) : IdealM TraceLine := do
  let p := (← closureAt f.closure).prototype
  let line ← ofOption p.lines[f.ip - 1]?
  return ⟨line, p.name.getD []⟩

def raise {α : Type} (p : RuntimeProblem) : IdealM α := do
  let trace ← (← get).frames.mapM traceLine
  throw (.error ⟨p.message, trace⟩)

def setGlobal (name : Bytes) (v : Val) : IdealM Unit :=
  modify fun i => { i with globals := i.globals.set name v }

end IdealM

end Lox

namespace Lox

inductive Thing where
  | function (p : Prototype)
  | object (a : Nat)
  | upvalue (u : Nat)

abbrev World := Loc → Option Thing

namespace World

def Extends (w w' : World) : Prop :=
  ∀ l t, w l = some t → w' l = some t

theorem Extends.refl (w : World) : w.Extends w := fun _ _ h => h

theorem Extends.trans {w w' w'' : World} (h : w.Extends w') (h' : w'.Extends w'') :
    w.Extends w'' := fun l t hl => h' l t (h l t hl)

def put (w : World) (l : Loc) (t : Thing) : World :=
  fun k => if k = l then some t else w k

theorem extends_put {w : World} {l : Loc} (hl : w l = none) (t : Thing) : w.Extends (w.put l t) := by
  intro k s hk
  have : k ≠ l := by
    rintro rfl
    rw [hl] at hk
    cases hk
  rwa [put, if_neg this]

end World

namespace Table

def Blank (t : Table) : Prop :=
  ∀ i, (entryAt t.entries i).key = none →
    (entryAt t.entries i).value = .nil ∨ (entryAt t.entries i).value = .true

theorem blank_of_empty (es : Array Entry) (h : ∀ i, entryAt es i = .empty) (count live : Nat) :
    Blank ⟨es, count, live⟩ := by
  intro i _
  rw [h]
  exact .inl rfl

theorem blank_empty : Blank .empty :=
  blank_of_empty #[] (fun i => by simp [entryAt]) 0 0

theorem blank_set {t : Table} (ht : t.Blank) (i : Nat) (e : Entry)
    (he : e.key = none → e.value = .nil ∨ e.value = .true) (count live : Nat) :
    Blank ⟨t.entries.setIfInBounds i e, count, live⟩ := by
  by_cases hi : i < t.entries.size
  · intro j
    rw [show entryAt (⟨t.entries.setIfInBounds i e, count, live⟩ : Table).entries j =
      if j = i then e else entryAt t.entries j from entryAt_set _ _ _ _ hi]
    split
    · exact he
    · exact ht j
  · rw [Array.setIfInBounds_eq_of_size_le (by omega)]
    exact ht

theorem Blank.insert {t : Table} (ht : t.Blank) (key : Symbol) (v : Value) :
    (t.insert key v).2.Blank := by
  have h := blank_set ht (slotOf t.entries key) ⟨some key, v⟩ nofun (t.insert key v).2.count
    (t.insert key v).2.live
  change Blank ⟨place t.entries key v, _, _⟩ at h
  rwa [← insert_entries] at h

theorem Blank.delete {t : Table} (ht : t.Blank) (key : Symbol) : (t.delete key).2.Blank := by
  unfold Table.delete
  split
  · exact ht
  · dsimp only
    split
    · exact ht
    · exact blank_set ht _ _ (fun _ => .inr rfl) _ _

theorem blank_foldl_place (bs : List (Symbol × Value)) (es : Array Entry) (count live : Nat)
    (h : Blank ⟨es, count, live⟩) :
    Blank ⟨bs.foldl (fun entries (key, value) => place entries key value) es, count, live⟩ := by
  induction bs generalizing es with
  | nil => exact h
  | cons b bs ih => exact ih _ (blank_set h _ ⟨some b.1, b.2⟩ nofun _ _)

theorem blank_growTo (t : Table) (capacity : Nat) : (t.growTo capacity).Blank :=
  blank_foldl_place _ _ _ _ (blank_of_empty _ (entryAt_replicate capacity) _ _)

theorem mem_links_of_binds {t : Table} {k : Symbol} {v : Value} (h : t.Binds k v) :
    .object k.loc ∈ t.links ∧ .value v ∈ t.links := by
  obtain ⟨i, hi⟩ := h
  have hlt := lt_size_of_key (show (entryAt t.entries i).key = some k by rw [hi])
  have he : (⟨some k, v⟩ : Entry) ∈ t.entries.toList := by
    rw [← hi]
    simp [entryAt, Array.getD_eq_getD_getElem?, hlt]
  constructor <;> exact List.mem_flatMap.mpr ⟨_, he, by simp⟩

theorem cases_of_mem_links {t : Table} (ht : t.Blank) {link : Link} (h : link ∈ t.links) :
    (∃ k v, t.Binds k v ∧ (link = .object k.loc ∨ link = .value v)) ∨
      ∃ v, link = .value v ∧ (v = .nil ∨ v = .true) := by
  obtain ⟨e, he, hm⟩ := List.mem_flatMap.mp h
  obtain ⟨i, hi, rfl⟩ := List.mem_iff_getElem.mp he
  have hat : entryAt t.entries i = t.entries.toList[i] := by
    have : i < t.entries.size := by simpa using hi
    simp [entryAt, Array.getD_eq_getD_getElem?, this]
  rw [← hat] at hm
  cases hk : (entryAt t.entries i).key with
  | none =>
    rw [hk] at hm
    simp only [List.mem_singleton] at hm
    exact .inr ⟨_, hm, ht i hk⟩
  | some k =>
    rw [hk] at hm
    simp only [List.mem_cons, List.not_mem_nil, or_false] at hm
    exact .inl ⟨k, _, binds_of_key hk, hm⟩

end Table

namespace Heap

variable {h h' : Heap} {w w' : World} {objects : List (Obj Routine)} {upvalues : List Captured}

def Names (h : Heap) (v : Value) (l : Loc) : Prop :=
  ∃ ref, v = .object ref ∧ h.find? ref = some l

theorem Names.isObject {v : Value} {l : Loc} (hn : h.Names v l) : v.isObject = true := by
  obtain ⟨ref, rfl, -⟩ := hn
  exact Value.isObject_object ref

theorem Names.find? {v : Value} {l : Loc} (hn : h.Names v l) : h.find? v.handle = some l := by
  obtain ⟨ref, rfl, hf⟩ := hn
  rwa [Value.handle_object]

theorem Names.leads {v : Value} {l : Loc} (hn : h.Names v l) : h.Leads (.value v) l :=
  .value hn.isObject hn.find?

theorem Names.alive {v : Value} {l : Loc} (hn : h.Names v l) (hc : h.Consistent) : h.Alive l := by
  obtain ⟨ref, -, hf⟩ := hn
  obtain ⟨o, ho, hfree, -⟩ := hc.ref_of_find? hf
  exact ⟨o, ho, hfree⟩

theorem Names.functional {v : Value} {l k : Loc} (hl : h.Names v l) (hk : h.Names v k) : l = k := by
  have := hl.find?
  rw [hk.find?] at this
  exact (Option.some.inj this).symm

theorem Names.injective {u v : Value} {l : Loc} (hc : h.Consistent) (hu : h.Names u l)
    (hv : h.Names v l) : u = v := by
  obtain ⟨ref, rfl, hf⟩ := hu
  obtain ⟨ref', rfl, hf'⟩ := hv
  obtain ⟨o, ho, -, rfl⟩ := hc.ref_of_find? hf
  obtain ⟨o', ho', -, rfl⟩ := hc.ref_of_find? hf'
  rw [ho] at ho'
  cases ho'
  rfl

theorem names_ref {l : Loc} {o : Object} (hc : h.Consistent) (ho : h.objects[l]? = some o)
    (hf : o.freed = false) : h.Names (.object o.ref) l :=
  ⟨o.ref, rfl, hc.find?_ref ho hf⟩

def Shows (h : Heap) (w : World) (v : Value) : Val → Prop
  | .nil => v = .nil
  | .bool b => v = .ofBool b
  | .number bits => v = ⟨bits⟩ ∧ v.IsNumeral
  | .string chars => ∃ l hash, h.Names v l ∧ h.IsString l chars hash
  | .object a => ∃ l, h.Names v l ∧ w l = some (.object a)

def ShowsConstant (h : Heap) (w : World) (v : Value) : Literal → Prop
  | .number u => v = u ∧ v.IsNumeral
  | .string chars => ∃ l hash, h.Names v l ∧ h.IsString l chars hash
  | .function p => ∃ l, h.Names v l ∧ w l = some (.function p)

structure ShowsTable (h : Heap) (w : World) (t : Table) (d : Dict Val) : Prop where
  sound : t.Sound
  blank : t.Blank
  keys : ∀ k v, t.Binds k v → h.IsString k.loc k.chars k.hash
  values : ∀ k v, t.Binds k v → ∃ x, d k.chars = some x ∧ h.Shows w v x
  total : ∀ name x, d name = some x → ∃ k v, t.Binds k v ∧ k.chars = name

structure ShowsFunction (h : Heap) (w : World) (f : Function) (p : Prototype) : Prop where
  arity : f.arity = p.arity
  captures : f.upvalueCount = p.captures
  name : f.name.map Symbol.chars = p.name
  named : ∀ s, f.name = some s → h.IsString s.loc s.chars s.hash
  code : f.chunk.code.toList = p.code
  lines : f.chunk.lines.toList = p.lines.map Int.ofNat
  constants : List.Forall₂ (h.ShowsConstant w) f.chunk.constants.toList p.constants

def ShowsCapture (w : World) : Option Loc → Option Nat → Prop
  | some l, some u => w l = some (.upvalue u)
  | none, none => True
  | _, _ => False

def asValues (methods : Dict Nat) : Dict Val :=
  fun n => (methods n).map .object

inductive Depicts (h : Heap) (w : World) (objects : List (Obj Routine)) (upvalues : List Captured) :
    Body → Thing → Prop where
  | function {f : Function} {p : Prototype} : h.ShowsFunction w f p →
      Depicts h w objects upvalues (.function f) (.function p)
  | closure {c : Closure} {a : Nat} {r : Routine} : objects[a]? = some (.closure r) →
      w c.function = some (.function r.prototype) →
      List.Forall₂ (ShowsCapture w) c.upvalues.toList r.captures →
      Depicts h w objects upvalues (.closure c) (.object a)
  | native {n : Native} {a : Nat} : objects[a]? = some (.native n) →
      Depicts h w objects upvalues (.native n) (.object a)
  | class_ {c : Class} {a : Nat} {methods : Dict Nat} :
      objects[a]? = some (.class_ c.name.chars methods) →
      h.IsString c.name.loc c.name.chars c.name.hash →
      h.ShowsTable w c.methods (asValues methods) →
      Depicts h w objects upvalues (.class_ c) (.object a)
  | instance_ {i : Instance} {a k : Nat} {fields : Dict Val} :
      objects[a]? = some (.instance_ k fields) → w i.class_ = some (.object k) →
      h.ShowsTable w i.fields fields →
      Depicts h w objects upvalues (.instance_ i) (.object a)
  | bound {b : BoundMethod} {a m : Nat} {receiver : Val} :
      objects[a]? = some (.bound receiver m) → h.Shows w b.receiver receiver →
      w b.method = some (.object m) →
      Depicts h w objects upvalues (.boundMethod b) (.object a)
  | slot {n u : Nat} : upvalues[u]? = some (.slot n) →
      Depicts h w objects upvalues (.upvalue (.stack n)) (.upvalue u)
  | closed {v : Value} {x : Val} {u : Nat} : upvalues[u]? = some (.closed x) → h.Shows w v x →
      Depicts h w objects upvalues (.upvalue (.closed v)) (.upvalue u)

/-- The heap of a machine whose objects stand for those of an ideal machine. -/
structure Pictures (w : World) (objects : List (Obj Routine)) (upvalues : List Captured) (h : Heap) :
    Prop where
  sound : h.Sound
  linked : h.Linked
  depicts : ∀ (l : Loc) (o : Object) (t : Thing), h.objects[l]? = some o → o.freed = false →
    w l = some t → h.Depicts w objects upvalues o.body t
  placed : ∀ l t, w l = some t → l < h.objects.size
  object_lt : ∀ l a, w l = some (.object a) → a < objects.length
  upvalue_lt : ∀ l u, w l = some (.upvalue u) → u < upvalues.length
  object_inj : ∀ l k a, w l = some (.object a) → w k = some (.object a) → l = k
  upvalue_inj : ∀ l k u, w l = some (.upvalue u) → w k = some (.upvalue u) → l = k
  closed : h.closed = false

structure Survives (h h' : Heap) : Prop where
  shrunk : ∀ l, l < h.objects.size → h'.Alive l → h.Alive l
  size : h.objects.size ≤ h'.objects.size
  names : ∀ ref l, h.find? ref = some l → h'.Alive l → h'.find? ref = some l
  strings : ∀ l chars hash, h.IsString l chars hash → h'.Alive l → h'.IsString l chars hash

structure Carries (roots : List Link) (h h' : Heap) : Prop extends Survives h h' where
  alive : ∀ link ∈ roots, ∀ l, h.Leads link l → h'.Alive l
  canonical : h.AllCanonical → h'.AllCanonical
  holds : h'.holds = h.holds
  closed : h'.closed = h.closed
  markers : h'.markers = h.markers

end Heap

end Lox

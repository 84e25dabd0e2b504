import Lox.Proofs.Heap.Intern
import Lox.Proofs.Machine.Frames
import Lox.Proofs.Machine.Trail

namespace Lox

open HeapView

namespace Machine

variable (m : Machine)

def binding? (t : Table) (name : Bytes) : Option Value := do
  t.get? (← m.heap.strings.findText? name name.hash)

def entry? (t : Table) (name : Bytes) : Option Loc := do
  (locOfValue (← m.binding? t name) m.heap).toOption

def method? (l : Loc) (name : Bytes) : Option Loc := do
  m.entry? (← (classAt l m.heap).toOption).methods name

def field? (l : Loc) (name : Bytes) : Option Loc := do
  m.entry? (← (instanceAt l m.heap).toOption).fields name

def depth : Nat :=
  m.calls.frames.length

def innermost? : Option Loc :=
  m.calls.frames.head?.map (·.closure)

def receiver? : Option Loc := do
  let f ← m.calls.frames.head?
  let v ← m.values[f.base.toNat]?
  (locOfValue v m.heap).toOption

def bound? : Option Loc := do
  match (← m.heap.objects[← m.top? 0]?).body with
  | .boundMethod b => some b.method
  | _ => none

def operand? (n : Nat) : Option Nat := do
  let (f, fn) ← m.running?
  return (← fn.chunk.code.get? (f.ip + n)).toNat

/-- What the next instruction calls, if it calls the value of an expression or of a field. -/
def callee? : Option Loc := do
  match ← m.instr? with
  | (.call, _) => m.top? (← m.operand? 1)
  | (.invoke, some name) => m.field? (← m.top? (← m.operand? 2)) name
  | _ => none

/-- The next instruction calls the closure at `c`, a method, on the object at `l`. -/
inductive CallsMethod (l c : Loc) : Prop
  | bound {k : Loc} {o : Object} {v : Value} : m.callee? = some k → m.heap.objects[k]? = some o →
      o.body = .boundMethod ⟨v, c⟩ → locOfValue v m.heap = .ok l → CallsMethod l c
  | invoked {name : Bytes} {n : Nat} {i : Instance} : m.instr? = some (.invoke, some name) → m.operand? 2 = some n →
      m.top? n = some l → instanceAt l m.heap = .ok i → m.binding? i.fields name = none →
      m.method? i.class_ name = some c → CallsMethod l c
  | super {name : Bytes} {n : Nat} {k : Loc} : m.instr? = some (.superInvoke, some name) → m.operand? 2 = some n →
      m.top? 0 = some k → m.top? (n + 1) = some l → m.method? k name = some c → CallsMethod l c

end Machine

theorem locOfValue_plain {v : Value} {h : Heap} (hv : v.isObject = false) : locOfValue v h = .error .notObject := by
  unfold locOfValue Value.ref
  rw [hv]
  rfl

theorem asSymbol_plain {v : Value} {h : Heap} (hv : v.isObject = false) : asSymbol v h = .error .notObject := by
  unfold asSymbol
  rw [view_bind, locOfValue_plain hv]

namespace MachineM

variable {α : Type} {m m' : Machine} {f : Frame} {rest : List Frame} {fn : Function} {k l : Loc} {s : Symbol}
    {v : Value}
  {count : Nat} {op : Opcode} {name : Option Bytes}

theorem Grows.ok {act : MachineM α} {a : α} [hg : Grows act] (he : m.heap.Exhausted)
    (hrun : act m = .ok a m') : m'.heap.Exhausted := by
  have hle := hg.le m
  rw [hrun] at hle
  exact Nat.lt_of_lt_of_le he hle

theorem bind_of_ok {β : Type} {act : MachineM α} {g : α → MachineM β} {a : α} (h : act m = .ok a m') :
    (act >>= g) m = g a m' := by
  rw [runBind, h]

theorem executes_of_running (h : m.running? = some (f, fn)) : ∃ rest, Executes m f rest fn := by
  unfold Machine.running? at h
  simp only [Option.bind_eq_bind, Option.bind_eq_some_iff] at h
  obtain ⟨g, hg, c, hc, fn', hfn, h⟩ := h
  cases h
  obtain ⟨rest, hrest⟩ := List.head?_eq_some_iff.mp hg
  refine ⟨rest, hrest, ?_⟩
  cases hclosure : closureAt f.closure m.heap with
  | error e =>
    rw [hclosure] at hc
    cases hc
  | ok c' =>
    rw [hclosure] at hc
    cases hc
    rw [view_bind, hclosure]
    cases hfunction : functionAt c.function m.heap with
    | error e =>
      rw [hfunction] at hfn
      cases hfn
    | ok fn' =>
      rw [hfunction] at hfn
      cases hfn
      exact hfunction

theorem Executes.running? (h : Executes m f rest fn) : m.running? = some (f, fn) := by
  have hfunction := h.function
  rw [view_bind] at hfunction
  unfold Machine.running?
  rw [h.frames]
  cases hclosure : closureAt f.closure m.heap with
  | error e =>
    rw [hclosure] at hfunction
    cases hfunction
  | ok c =>
    rw [hclosure] at hfunction
    simp only [List.head?_cons, Option.bind_eq_bind, Option.bind_some, hclosure, Except.toOption, hfunction]
    rfl

theorem Executes.operand? (h : Executes m f rest fn) {n : Nat} {b : UInt8}
    (hb : fn.chunk.code.get? (f.ip + n) = some b) :
    m.operand? n = some b.toNat := by
  simp only [Machine.operand?, h.running?, Option.bind_eq_bind, Option.bind_some, hb]
  rfl

theorem step_eq (h : m.instr? = some (op, name)) (hop : op ≠ .return_) : ∃ f rest fn, Executes m f rest fn ∧
    name = m.nameAt fn (f.ip + 1) ∧ step m =
      (do execute op; return true : MachineM Bool) { m with calls := m.calls.jumpTo (f.ip + 1) } := by
  unfold Machine.instr? at h
  simp only [Option.bind_eq_bind, Option.bind_eq_some_iff] at h
  obtain ⟨⟨f, fn⟩, hrunning, b, hb, op', hop', h⟩ := h
  cases h
  obtain ⟨rest, hex⟩ := executes_of_running hrunning
  refine ⟨f, rest, fn, hex, rfl, ?_⟩
  unfold step
  rw [runBind, hex.readByte hb]
  dsimp only
  rw [hop']
  cases op <;> first | rfl | exact absurd rfl hop

theorem readByte_eq_ok (h : Executes m f rest fn) {b : UInt8} (hread : readByte m = .ok b m') :
    fn.chunk.code.get? f.ip = some b ∧ m' = { m with calls := m.calls.jumpTo (f.ip + 1) } := by
  cases hb : fn.chunk.code.get? f.ip with
  | none =>
    unfold readByte codeAt at hread
    rw [runBind, h.frame] at hread
    dsimp only at hread
    rw [runBind, h.functionOf] at hread
    dsimp only at hread
    rw [hb] at hread
    cases hread
  | some b' =>
    rw [h.readByte hb] at hread
    cases hread
    exact ⟨rfl, rfl⟩

theorem readName_eq_ok (h : Executes m f rest fn) (hread : readName m = .ok s m') :
    m.nameAt fn f.ip = some s.chars ∧ (∃ v, asSymbol v m.heap = .ok s) ∧
      m' = { m with calls := m.calls.jumpTo (f.ip + 1) } := by
  unfold readName readConstant at hread
  obtain ⟨v, m₁, hread₁, hread₂⟩ := bind_eq_ok hread
  obtain ⟨b, m₂, hbyte, hconstant⟩ := bind_eq_ok hread₁
  obtain ⟨hb, rfl⟩ := readByte_eq_ok h hbyte
  have h' := h.jumpTo (f.ip + 1)
  rw [runBind, h'.frame] at hconstant
  dsimp only at hconstant
  rw [runBind, h'.functionOf] at hconstant
  dsimp only at hconstant
  cases hv : fn.chunk.constants.get? b.toNat with
  | none =>
    rw [hv] at hconstant
    cases hconstant
  | some v' =>
    rw [hv] at hconstant
    cases hconstant
    obtain ⟨rfl, hsymbol⟩ := view_eq_ok hread₂
    refine ⟨?_, ⟨v, hsymbol⟩, rfl⟩
    have hsymbol : asSymbol v m.heap = .ok s := hsymbol
    simp only [Machine.nameAt, hb, Option.bind_eq_bind, Option.bind_some, hv, hsymbol, Except.toOption]
    rfl

theorem raise_ne_ok {p : RuntimeProblem} {a : α} : (raise p : MachineM α) m ≠ .ok a m' := by
  intro h
  unfold raise at h
  obtain ⟨m₁, m₂, -, hrest⟩ := bind_eq_ok h
  obtain ⟨trace, m₃, -, hthrow⟩ := bind_eq_ok hrest
  cases hthrow

theorem unless_raise_eq_ok {c : Prop} [Decidable c] {p : RuntimeProblem} {act : MachineM α} {a : α}
    (h : (do
      if c then raise p
      act : MachineM α) m = .ok a m') : ¬c ∧ act m = .ok a m' := by
  by_cases hc : c
  · simp only [if_pos hc] at h
    obtain ⟨u, m₁, hraise, -⟩ := bind_eq_ok h
    exact absurd hraise raise_ne_ok
  · simp only [if_neg hc] at h
    exact ⟨hc, h⟩

theorem call_eq_ok (h : call k count m = .ok () m') :
    m' = { m with calls := m.calls.push ⟨k, 0, (m.sp : Int) - count - 1⟩ } := by
  unfold call at h
  obtain ⟨fn, m₁, hfn, hrest⟩ := bind_eq_ok h
  obtain ⟨rfl, -⟩ := view_eq_ok hfn
  obtain ⟨-, hrest⟩ := unless_raise_eq_ok hrest
  obtain ⟨m₂, m₃, hget, hrest⟩ := bind_eq_ok hrest
  cases hget
  obtain ⟨base, m₄, hbase, hrest⟩ := bind_eq_ok hrest
  cases hbase
  obtain ⟨-, hrest⟩ := unless_raise_eq_ok hrest
  cases hrest
  rfl

theorem findMethod_eq_ok (h : findMethod l s m = .ok v m') :
    m' = m ∧ ∃ c, classAt l m.heap = .ok c ∧ c.methods.get? s = some v := by
  unfold findMethod at h
  obtain ⟨c, m₁, hview, hrest⟩ := bind_eq_ok h
  obtain ⟨rfl, hc⟩ := view_eq_ok hview
  cases hv : c.methods.get? s with
  | none =>
    rw [hv] at hrest
    exact absurd hrest raise_ne_ok
  | some v' =>
    rw [hv] at hrest
    cases hrest
    exact ⟨rfl, c, hc, hv⟩

theorem callMethod_eq_ok (h : (do
      let closure ← locOfValue v
      let _ ← closureAt closure
      call closure count : MachineM Unit) m = .ok () m') : ∃ k, locOfValue v m.heap = .ok k ∧
    m' = { m with calls := m.calls.push ⟨k, 0, (m.sp : Int) - count - 1⟩ } := by
  obtain ⟨k, m₁, hview, hrest⟩ := bind_eq_ok h
  obtain ⟨rfl, hk⟩ := view_eq_ok hview
  obtain ⟨c, m₂, hclosure, hcall⟩ := bind_eq_ok hrest
  obtain ⟨rfl, -⟩ := view_eq_ok hclosure
  exact ⟨k, hk, call_eq_ok hcall⟩

theorem invokeFromClass_eq_ok (h : invokeFromClass l s count m = .ok () m') : ∃ c v k, classAt l m.heap = .ok c ∧
    c.methods.get? s = some v ∧ locOfValue v m.heap = .ok k ∧
    m' = { m with calls := m.calls.push ⟨k, 0, (m.sp : Int) - count - 1⟩ } := by
  unfold invokeFromClass at h
  obtain ⟨v, m₁, hfind, hrest⟩ := bind_eq_ok h
  obtain ⟨rfl, c, hc, hv⟩ := findMethod_eq_ok hfind
  obtain ⟨k, hk, hm'⟩ := callMethod_eq_ok hrest
  exact ⟨c, v, k, hc, hv, hk, hm'⟩

theorem popClass_eq_ok (hf : m.Filled) (h : popClass m = .ok l m') : ∃ vs v, m.values = vs ++ [v] ∧
    locOfValue v m.heap = .ok l ∧ m' = { m with sp := m.sp - 1 } := by
  unfold popClass at h
  obtain ⟨v, m₁, hpop, hrest⟩ := bind_eq_ok h
  have hsp : m.sp ≠ 0 := by
    intro hsp
    rw [pop_eq, if_pos hsp] at hpop
    cases hpop
  obtain ⟨vs, u, hvs⟩ : ∃ vs u, m.values = vs ++ [u] := by
    rcases List.eq_nil_or_concat' m.values with hnil | hvs
    · have hlength := hf.length
      rw [hnil] at hlength
      exact absurd hlength.symm hsp
    · exact hvs
  rw [(pop_of_values hf hvs).1] at hpop
  cases hpop
  obtain ⟨k, m₂, hview, hrest₂⟩ := bind_eq_ok hrest
  obtain ⟨rfl, hk⟩ := view_eq_ok hview
  obtain ⟨c, m₃, hclass, hpure⟩ := bind_eq_ok hrest₂
  obtain ⟨rfl, -⟩ := view_eq_ok hclass
  cases hpure
  exact ⟨vs, v, hvs, hk, rfl⟩

theorem writeSlot_eq_ok (hf : m.Filled) (h : writeSlot ((m.sp : Int) - count - 1) v m = .ok () m') : count < m.sp ∧
    ∃ stack, m' = { m with stack } ∧ ({ m with stack } : Machine).Filled ∧
      ({ m with stack } : Machine).values = m.values.set (m.sp - 1 - count) v := by
  have hlt : count < m.sp := by
    by_contra hle
    unfold writeSlot at h
    rw [runBind] at h
    have hneg : (m.sp : Int) - count - 1 < 0 := by omega
    simp only [runGet, if_pos (Or.inl hneg)] at h
    cases h
  refine ⟨hlt, ?_⟩
  obtain ⟨stack, hwrite, hfilled, hvalues⟩ := writeSlot_of_lt hf (show m.sp - 1 - count < m.sp by omega) v
  rw [show (m.sp : Int) - count - 1 = ((m.sp - 1 - count : Nat) : Int) by omega, hwrite] at h
  cases h
  exact ⟨stack, rfl, hfilled, hvalues⟩

theorem construct_eq_ok (hf : m.Filled) (h : construct l count m = .ok () m') : ∃ v heap stack c,
    (do valueOf (← HeapM.newInstance l) : HeapM Value) (roots m) m.heap = .ok v heap ∧ classAt l heap = .ok c ∧
    count < m.sp ∧ ({ m with heap, stack } : Machine).Filled ∧
    ({ m with heap, stack } : Machine).values = m.values.set (m.sp - 1 - count) v ∧
    (count = 0 ∧ m' = { m with heap, stack } ∨ ∃ s u k, m.initName = some s ∧ c.methods.get? s = some u ∧
      locOfValue u heap = .ok k ∧
      m' = { m with heap, stack, calls := m.calls.push ⟨k, 0, (m.sp : Int) - count - 1⟩ }) := by
  unfold construct at h
  obtain ⟨v, m₁, hnew, hrest₁⟩ := bind_eq_ok h
  obtain ⟨heap, hact, rfl⟩ := onHeap_eq_ok hnew
  obtain ⟨n, m₂, hslot, hrest₂⟩ := bind_eq_ok hrest₁
  cases hslot
  obtain ⟨⟨⟩, m₃, hwrite, hrest₃⟩ := bind_eq_ok hrest₂
  obtain ⟨hlt, stack, rfl, hfilled, hvalues⟩ :=
    writeSlot_eq_ok (m := { m with heap }) ⟨hf.written, hf.room⟩ hwrite
  obtain ⟨c, m₄, hview, hrest₄⟩ := bind_eq_ok hrest₃
  obtain ⟨rfl, hc⟩ := view_eq_ok hview
  obtain ⟨m₅, m₆, hget, hrest₅⟩ := bind_eq_ok hrest₄
  cases hget
  refine ⟨v, heap, stack, c, hact, hc, hlt, hfilled, hvalues, ?_⟩
  dsimp only at hrest₅
  cases hinit : m.initName.bind c.methods.get? with
  | some u =>
    rw [hinit] at hrest₅
    obtain ⟨s, hs, hu⟩ := Option.bind_eq_some_iff.mp hinit
    obtain ⟨k, hk, rfl⟩ := callMethod_eq_ok hrest₅
    exact .inr ⟨s, u, k, hs, hu, hk, rfl⟩
  | none =>
    rw [hinit] at hrest₅
    by_cases hcount : count ≠ 0
    · simp only [if_pos hcount] at hrest₅
      exact absurd hrest₅ raise_ne_ok
    · simp only [if_neg hcount] at hrest₅
      cases hrest₅
      exact .inl ⟨not_ne_iff.mp hcount, rfl⟩

theorem callValue_object {o : Object} (hk : locOfValue v m.heap = .ok l) (ho : m.heap.objects[l]? = some o) :
    callValue v count m = (match o.body with
      | .boundMethod b => do
        writeSlot (← calleeSlot count) b.receiver
        call b.method count
      | .class_ _ => construct l count
      | .closure _ => call l count
      | .native n => callNative n count
      | _ => raise .notCallable : MachineM Unit) m := by
  have hobject : v.isObject = true := by
    by_contra hplain
    rw [locOfValue_plain (Bool.eq_false_iff.mpr hplain)] at hk
    cases hk
  unfold callValue
  rw [if_pos hobject, runBind, run_view, hk]
  exact bind_of_ok (by rw [run_view, object_eq_ok.mpr ho])

theorem callValue_class {c : Class} (hk : locOfValue v m.heap = .ok l) (hc : classAt l m.heap = .ok c) :
    callValue v count m = construct l count m := by
  obtain ⟨o, ho, hb⟩ := classAt_eq_ok.mp hc
  rw [callValue_object hk ho, hb]

theorem callValue_bound_eq_ok {o : Object} {u : Value} {c : Loc} (hf : m.Filled) (hk : locOfValue v m.heap = .ok l)
    (ho : m.heap.objects[l]? = some o) (hb : o.body = .boundMethod ⟨u, c⟩) (h : callValue v count m = .ok () m') :
    m'.heap = m.heap ∧ m'.values[m.sp - 1 - count]? = some u ∧
      m'.calls = m.calls.push ⟨c, 0, (m.sp : Int) - count - 1⟩ := by
  rw [callValue_object hk ho, hb] at h
  obtain ⟨n, m₁, hslot, hrest⟩ := bind_eq_ok h
  cases hslot
  obtain ⟨⟨⟩, m₂, hwrite, hcall⟩ := bind_eq_ok hrest
  obtain ⟨hlt, stack, rfl, hfilled, hvalues⟩ := writeSlot_eq_ok hf hwrite
  rw [call_eq_ok hcall]
  refine ⟨rfl, ?_, rfl⟩
  show ({ m with stack } : Machine).values[m.sp - 1 - count]? = some u
  rw [hvalues, List.getElem?_set_self]
  rw [hf.length]
  omega

theorem peek_eq_ok {d : Nat} (hf : m.Filled) (h : peek d m = .ok v m') : m' = m ∧ m.values.reverse[d]? = some v := by
  have hlength := hf.length
  by_cases hd : d < m.sp
  · have hlt : m.sp - 1 - d < m.values.length := by omega
    rw [peek_of_values hf hd (List.getElem?_eq_getElem hlt)] at h
    cases h
    rw [List.getElem?_reverse (by omega), hlength]
    exact ⟨rfl, List.getElem?_eq_getElem hlt⟩
  · have hneg : (m.sp : Int) - 1 - d < 0 := by omega
    unfold peek readSlot at h
    rw [runBind] at h
    dsimp only [runGet] at h
    rw [runBind] at h
    simp only [if_pos hneg] at h
    cases h

theorem invoke_eq_ok (hf : m.Filled) (h : invoke s count m = .ok () m') : ∃ v l i, m.values.reverse[count]? = some v ∧
    locOfValue v m.heap = .ok l ∧ instanceAt l m.heap = .ok i ∧
    ((∃ u m₁, i.fields.get? s = some u ∧ writeSlot ((m.sp : Int) - count - 1) u m = .ok () m₁ ∧
        callValue u count m₁ = .ok () m') ∨
      i.fields.get? s = none ∧ invokeFromClass i.class_ s count m = .ok () m') := by
  unfold invoke at h
  obtain ⟨v, m₁, hpeek, hrest₁⟩ := bind_eq_ok h
  obtain ⟨rfl, hv⟩ := peek_eq_ok hf hpeek
  obtain ⟨b, m₂, hkind, hrest₂⟩ := bind_eq_ok hrest₁
  obtain ⟨rfl, -⟩ := view_eq_ok hkind
  cases b with
  | false =>
    obtain ⟨u, m₃, hraise, -⟩ := bind_eq_ok hrest₂
    exact absurd hraise raise_ne_ok
  | true =>
    obtain ⟨l, m₃, hview, hrest₃⟩ := bind_eq_ok hrest₂
    obtain ⟨rfl, hl⟩ := view_eq_ok hview
    obtain ⟨i, m₄, hview', hrest₄⟩ := bind_eq_ok hrest₃
    obtain ⟨rfl, hi⟩ := view_eq_ok hview'
    refine ⟨v, l, i, hv, hl, hi, ?_⟩
    cases hfield : i.fields.get? s with
    | none =>
      rw [hfield] at hrest₄
      exact .inr ⟨rfl, hrest₄⟩
    | some u =>
      rw [hfield] at hrest₄
      obtain ⟨n, m₅, hslot, hrest₅⟩ := bind_eq_ok hrest₄
      cases hslot
      obtain ⟨⟨⟩, m₆, hwrite, hcall⟩ := bind_eq_ok hrest₅
      exact .inl ⟨u, m₆, rfl, hwrite, hcall⟩

variable {x y : Machine} {c : Loc} {n : Nat}

theorem closures_jumpTo {calls : Calls} (ip : Nat) :
    (calls.jumpTo ip).frames.map (·.closure) = calls.frames.map (·.closure) := by
  obtain ⟨frames, depth, hd⟩ := calls
  cases frames <;> rfl

theorem depth_eq (h : y.calls.frames.map (·.closure) = x.calls.frames.map (·.closure)) : y.depth = x.depth := by
  have hlength := congrArg List.length h
  rwa [List.length_map, List.length_map] at hlength

theorem entered (hcalls : y.calls = m.calls.push ⟨c, 0, (m.sp : Int) - n - 1⟩)
    (hv : y.values[m.sp - 1 - n]? = some v) (hl : locOfValue v y.heap = .ok l) :
    y.depth = m.depth + 1 ∧ y.innermost? = some c ∧ y.receiver? = some l := by
  have hframes : y.calls.frames = ⟨c, 0, (m.sp : Int) - n - 1⟩ :: m.calls.frames := by rw [hcalls]; rfl
  have hbase : ((m.sp : Int) - n - 1).toNat = m.sp - 1 - n := by omega
  refine ⟨by rw [Machine.depth, hframes]; rfl, by rw [Machine.innermost?, hframes]; rfl, ?_⟩
  simp only [Machine.receiver?, hframes, List.head?_cons, Option.bind_eq_bind, Option.bind_some, hbase, hv, hl]
  rfl

theorem value_under (hf : m.Filled) (hv : m.values.reverse[n]? = some v) : m.values[m.sp - 1 - n]? = some v := by
  have hlt : n < m.values.length := by
    rw [← List.length_reverse]
    exact (List.getElem?_eq_some_iff.mp hv).1
  rw [← hv, List.getElem?_reverse hlt, hf.length]

end MachineM

namespace Machine

variable {m : Machine} {d : Nat} {l : Loc} {v : Value} {vs : List Value} {o : Object}

theorem ok_of_toOption {ε α : Type} {e : Except ε α} {a : α} (h : e.toOption = some a) : e = .ok a := by
  cases e with
  | error _ => cases h
  | ok _ =>
    cases h
    rfl

theorem value_of_receiver? (h : m.receiver? = some l) : ∃ f fs v, m.calls.frames = f :: fs ∧
    m.values[f.base.toNat]? = some v ∧ locOfValue v m.heap = .ok l := by
  unfold receiver? at h
  simp only [Option.bind_eq_bind, Option.bind_eq_some_iff] at h
  obtain ⟨f, hf, v, hv, hl⟩ := h
  obtain ⟨fs, hfs⟩ := List.head?_eq_some_iff.mp hf
  exact ⟨f, fs, v, hfs, hv, ok_of_toOption hl⟩

theorem value_of_top? (h : m.top? d = some l) : ∃ v, m.values.reverse[d]? = some v ∧ locOfValue v m.heap = .ok l := by
  unfold top? at h
  simp only [Option.bind_eq_bind, Option.bind_eq_some_iff] at h
  obtain ⟨v, hv, k, hk, o, -, h⟩ := h
  refine ⟨v, hv, ?_⟩
  split at h
  · cases h
  · cases h
    exact ok_of_toOption hk

theorem top?_eq (hv : m.values.reverse[d]? = some v) (hk : locOfValue v m.heap = .ok l)
    (ho : m.heap.objects[l]? = some o)
    (hkind : o.kind ≠ .string) : m.top? d = some l := by
  simp only [top?, hv, Option.bind_eq_bind, Option.bind_some, hk, Except.toOption, ho]

end Machine

end Lox

import Lox.Proofs.Evaluation.Enacts

/-!
The machine against the evaluator: what one instruction does where the evaluator takes a step, and what many do.
A scene is an active call of a function together with the variables around it.
-/

namespace Lox

variable {α β : Type}

namespace IdealM

theorem run_succ (k : Nat) (i : Ideal) : run (k + 1) i = match step i with
    | .ok true i' => run k i'
    | r => r := by
  rw [run, runBind]
  cases step i with
  | error e i' => rfl
  | ok more i' => cases more <;> rfl

theorem run_add (j k : Nat) (i : Ideal) : run (j + k) i = match run j i with
    | .ok true i' => run k i'
    | r => r := by
  induction j generalizing i with
  | zero =>
    rw [Nat.zero_add]
    rfl
  | succ j ih =>
    rw [Nat.add_right_comm, run_succ, run_succ]
    cases step i with
    | error e i' => rfl
    | ok more i' =>
      cases more with
      | false => rfl
      | true => exact ih i'

theorem run_trans {j k : Nat} {i i' : Ideal} (h : run j i = .ok true i') : run (j + k) i = run k i' := by
  rw [run_add, h]

theorem run_one {i i' : Ideal} (h : step i = .ok true i') : run 1 i = .ok true i' := by
  rw [run_succ, h]
  rfl

theorem run_error {i i' : Ideal} {e : Stop} (h : step i = .error e i') : run 1 i = .error e i' := by
  rw [run_succ, h]

theorem run_le {i i' : Ideal} {k fuel : Nat} (h : run k i = .ok true i') (hk : fuel ≤ k) :
    ∃ j, run fuel i = .ok true j := by
  obtain ⟨d, rfl⟩ := Nat.exists_eq_add_of_le hk
  rw [run_add] at h
  split at h
  · exact ⟨_, by assumption⟩
  · exact ⟨i', h⟩

/-- A run that has ended stays as it is. -/
theorem run_final {i : Ideal} {k : Nat} (hk : ∀ j, run k i ≠ .ok true j) (fuel : Nat) :
    (∃ j, run fuel i = .ok true j) ∨ run fuel i = run k i := by
  rcases Nat.le_total fuel k with hle | hle
  · obtain ⟨d, rfl⟩ := Nat.exists_eq_add_of_le hle
    cases hrun : run fuel i with
    | ok more j =>
      cases more with
      | true => exact .inl ⟨j, rfl⟩
      | false =>
        rw [run_add, hrun]
        exact .inr rfl
    | error e j =>
      rw [run_add, hrun]
      exact .inr rfl
  · obtain ⟨d, rfl⟩ := Nat.exists_eq_add_of_le hle
    refine .inr ?_
    rw [run_add]
    split
    · exact absurd (by assumption) (hk _)
    · rfl

end IdealM

/-- The machine gets where the evaluator does, unless the stack overflows before. It is busy with an evaluation that
is cut off for this number of instructions at least. -/
inductive Ideal.Comes (n : Nat) (i : Ideal) (P : α → Store → Ideal → Prop) : EStateM.Result Halt Store α → Prop
  | done {a : α} {σ : Store} {k : Nat} {i' : Ideal} : IdealM.run k i = .ok true i' → P a σ i' → Comes n i P (.ok a σ)
  | timeout {σ : Store} {k : Nat} {i' : Ideal} : IdealM.run k i = .ok true i' → n ≤ k →
      Comes n i P (.error .timeout σ)
  | problem {p : RuntimeProblem} {σ : Store} {k : Nat} {i' : Ideal} {e : RuntimeError} :
      IdealM.run k i = .error (.error e) i' → e.message = p.message → i'.printed = σ.printed →
      Comes n i P (.error (.problem p) σ)
  | overflow {r : EStateM.Result Halt Store α} {k : Nat} {i' : Ideal} {e : RuntimeError} :
      IdealM.run k i = .error (.error e) i' → e.message = RuntimeProblem.stackOverflow.message → Comes n i P r

namespace Ideal.Comes

variable {m n k : Nat} {i i' : Ideal} {P : α → Store → Ideal → Prop} {Q : β → Store → Ideal → Prop}
  {r : EStateM.Result Halt Store α}

theorem after (hrun : IdealM.run k i = .ok true i') (h : Comes n i' P r) : Comes (k + n) i P r := by
  cases h with
  | done h hp => exact .done ((IdealM.run_trans hrun).trans h) hp
  | timeout h hn => exact .timeout ((IdealM.run_trans hrun).trans h) (Nat.add_le_add_left hn k)
  | problem h hp hprinted => exact .problem ((IdealM.run_trans hrun).trans h) hp hprinted
  | overflow h he => exact .overflow ((IdealM.run_trans hrun).trans h) he

theorem weaken (h : Comes n i P r) (hm : m ≤ n) : Comes m i P r := by
  cases h with
  | done h hp => exact .done h hp
  | timeout h hn => exact .timeout h (Nat.le_trans hm hn)
  | problem h hp hprinted => exact .problem h hp hprinted
  | overflow h he => exact .overflow h he

theorem pure {a : α} {σ : Store} (h : P a σ i) : Comes n i P ((Pure.pure a : EvalM α) σ) :=
  .done (k := 0) rfl h

theorem bind {x : EvalM α} {f : α → EvalM β} {σ : Store} (h : Comes n i P (x σ))
    (hf : ∀ a σ' i', P a σ' i' → Comes n i' Q (f a σ')) : Comes n i Q ((x >>= f) σ) := by
  rw [runBind]
  generalize x σ = r at h
  cases h with
  | done hrun hp => exact (after hrun (hf _ _ _ hp)).weaken (Nat.le_add_left ..)
  | timeout hrun hn => exact .timeout hrun hn
  | problem hrun hp hprinted => exact .problem hrun hp hprinted
  | overflow hrun he => exact .overflow hrun he

theorem imp {P' : α → Store → Ideal → Prop} (h : Comes n i P r) (himp : ∀ a σ i', P a σ i' → P' a σ i') :
    Comes n i P' r := by
  cases h with
  | done h hp => exact .done h (himp _ _ _ hp)
  | timeout h hn => exact .timeout h hn
  | problem h hp hprinted => exact .problem h hp hprinted
  | overflow h he => exact .overflow h he

end Ideal.Comes

namespace IdealM

/-- What the machine does is what the evaluator does, faults and stack overflows apart. -/
def Does (i : Ideal) (x : IdealM α) (r : EStateM.Result Halt Store β) (Q : α → Ideal → β → Store → Prop) : Prop :=
  match x i with
  | .ok a i' => ∃ b σ, r = .ok b σ ∧ Q a i' b σ
  | .error (.error e) i' => e.message = RuntimeProblem.stackOverflow.message ∨
      ∃ p σ, r = .error (.problem p) σ ∧ e.message = p.message ∧ i'.printed = σ.printed
  | .error (.fault _) _ => True

namespace Does

variable {γ : Type} {i i' : Ideal} {x : IdealM α} {f : α → IdealM γ} {r : EStateM.Result Halt Store β}
  {Q : α → Ideal → β → Store → Prop} {R : γ → Ideal → β → Store → Prop} {σ : Store} {a : α} {b : β}

theorem of_eq (hx : x i = .ok a i') (h : Q a i' b σ) : Does i x (.ok b σ) Q := by
  unfold Does
  rw [hx]
  exact ⟨b, σ, rfl, h⟩

theorem pure (h : Q a i b σ) : Does i (Pure.pure a) (.ok b σ) Q :=
  of_eq rfl h

theorem step (hx : x i = .ok a i') (h : Does i' (f a) r R) : Does i (x >>= f) r R := by
  unfold Does at h ⊢
  rw [runBind, hx]
  exact h

theorem fault {e : Fault} (hx : x i = .error (.fault e) i') : Does i (x >>= f) r R := by
  unfold Does
  rw [runBind, hx]
  trivial

theorem imp {Q' : α → Ideal → β → Store → Prop} (h : Does i x r Q) (himp : ∀ a j b σ, Q a j b σ → Q' a j b σ) :
    Does i x r Q' := by
  unfold Does at h ⊢
  split at h
  · obtain ⟨b, σ, hr, hq⟩ := h
    exact ⟨b, σ, hr, himp _ _ _ _ hq⟩
  · exact h
  · trivial

theorem map {δ : Type} {b' : δ} {σ' : Store} {Q' : α → Ideal → δ → Store → Prop} (h : Does i x (.ok b σ) Q)
    (himp : ∀ a j, Q a j b σ → Q' a j b' σ') : Does i x (.ok b' σ') Q' := by
  unfold Does at h ⊢
  split at h
  · obtain ⟨_, _, hr, hq⟩ := h
    cases hr
    exact ⟨b', σ', rfl, himp _ _ hq⟩
  · rcases h with he | ⟨p, _, hr, -⟩
    · exact .inl he
    · cases hr
  · trivial

theorem stop {e : Fault} : Does i (IdealM.stop e : IdealM α) r Q :=
  trivial

theorem ofOption {o : Option α} (h : ∀ a, o = some a → Does i (f a) r R) : Does i (IdealM.ofOption o >>= f) r R := by
  cases o with
  | none => exact fault rfl
  | some a => exact step rfl (h a rfl)

theorem traceLine (f : Activation) (i : Ideal) :
    (∃ line, IdealM.traceLine f i = .ok line i) ∨ ∃ e, IdealM.traceLine f i = .error (.fault e) i := by
  unfold IdealM.traceLine
  cases ho : i.objects[f.closure]? with
  | none =>
    unfold IdealM.closureAt IdealM.object
    rw [runBind, runBind, runBind]
    simp only [runGet, ho]
    exact .inr ⟨_, rfl⟩
  | some o =>
    cases o with
    | closure c =>
      rw [runBind, IdealM.closureAt_eq ho]
      dsimp only
      cases c.prototype.lines[f.ip - 1]? with
      | none => exact .inr ⟨_, rfl⟩
      | some line => exact .inl ⟨_, rfl⟩
    | _ =>
      unfold IdealM.closureAt
      rw [runBind, runBind, IdealM.object_eq ho]
      exact .inr ⟨_, rfl⟩

theorem trace (frames : List Activation) (i : Ideal) :
    (∃ lines, frames.mapM IdealM.traceLine i = .ok lines i) ∨
      ∃ e, frames.mapM IdealM.traceLine i = .error (.fault e) i := by
  induction frames with
  | nil => exact .inl ⟨[], rfl⟩
  | cons f frames ih =>
    rw [List.mapM_cons, runBind]
    rcases traceLine f i with ⟨line, hline⟩ | ⟨e, he⟩
    · rw [hline]
      dsimp only
      rw [runBind]
      rcases ih with ⟨lines, hlines⟩ | ⟨e, he⟩
      · rw [hlines]
        exact .inl ⟨line :: lines, rfl⟩
      · rw [he]
        exact .inr ⟨e, rfl⟩
    · rw [he]
      exact .inr ⟨e, rfl⟩

theorem raise_eq (p : RuntimeProblem) (i : Ideal) :
    (∃ trace, (IdealM.raise p : IdealM α) i = .error (.error ⟨p.message, trace⟩) i) ∨
      ∃ e, (IdealM.raise p : IdealM α) i = .error (.fault e) i := by
  unfold IdealM.raise
  rw [runBind]
  simp only [runGet]
  rw [runBind]
  rcases trace i.frames i with ⟨lines, hlines⟩ | ⟨e, he⟩
  · rw [hlines]
    exact .inl ⟨lines, rfl⟩
  · rw [he]
    exact .inr ⟨e, rfl⟩

theorem raise {p : RuntimeProblem} (hprinted : i.printed = σ.printed) :
    Does i (IdealM.raise p : IdealM α) (.error (.problem p) σ : EStateM.Result Halt Store β) Q := by
  unfold Does
  rcases raise_eq (α := α) p i with ⟨lines, h⟩ | ⟨e, h⟩
  · rw [h]
    exact .inr ⟨p, σ, rfl, rfl, hprinted⟩
  · rw [h]
    trivial

theorem raise_bind {p : RuntimeProblem} (hprinted : i.printed = σ.printed) :
    Does i ((IdealM.raise p : IdealM α) >>= f) (.error (.problem p) σ : EStateM.Result Halt Store β) R := by
  unfold Does
  rw [runBind]
  rcases raise_eq (α := α) p i with ⟨lines, h⟩ | ⟨e, h⟩
  · rw [h]
    exact .inr ⟨p, σ, rfl, rfl, hprinted⟩
  · rw [h]
    trivial

theorem overflow_bind : Does i ((IdealM.raise .stackOverflow : IdealM α) >>= f) r R := by
  unfold Does
  rw [runBind]
  rcases raise_eq (α := α) .stackOverflow i with ⟨lines, h⟩ | ⟨e, h⟩
  · rw [h]
    exact .inl rfl
  · rw [h]
    trivial

section

variable {d n count : Nat} {v : Val} {S vs : List Val} {g : Val → IdealM γ}

theorem peek (hv : i.stack.reverse[d]? = some v) (h : Does i (g v) r R) : Does i (IdealM.peek d >>= g) r R := by
  have hlt := (List.getElem?_eq_some_iff.mp hv).1
  rw [List.length_reverse] at hlt
  rw [List.getElem?_reverse hlt] at hv
  by_cases hfloor : i.floor + d < i.stack.length
  · refine step (a := v) ?_ h
    unfold IdealM.peek
    rw [runBind]
    simp only [runGet]
    rw [if_pos hfloor, hv]
    rfl
  · have hpeek : IdealM.peek d i = .error (.fault .outOfRange) i := by
      unfold IdealM.peek
      rw [runBind]
      simp only [runGet]
      rw [if_neg hfloor]
      rfl
    exact fault hpeek

theorem pop (hS : i.stack = S ++ [v]) (h : Does { i with stack := S } (g v) r R) :
    Does i (IdealM.pop >>= g) r R := by
  unfold IdealM.pop
  rw [bind_assoc]
  refine peek (v := v) (by rw [hS]; simp) (step rfl ?_)
  show Does { i with stack := i.stack.dropLast } (g v) r R
  rw [show i.stack.dropLast = S by rw [hS, List.dropLast_concat]]
  exact h

theorem calleeSlot {g : Nat → IdealM γ} (hS : i.stack = S ++ v :: vs) (h : Does i (g S.length) r R) :
    Does i (IdealM.calleeSlot vs.length >>= g) r R := by
  have hlength : i.stack.length - 1 - vs.length = S.length := by
    rw [hS, List.length_append, List.length_cons]
    omega
  by_cases hfloor : i.floor + vs.length < i.stack.length
  · refine step (a := S.length) ?_ h
    unfold IdealM.calleeSlot
    rw [runBind]
    simp only [runGet]
    rw [if_pos hfloor, hlength]
    rfl
  · have hslot : IdealM.calleeSlot vs.length i = .error (.fault .outOfRange) i := by
      unfold IdealM.calleeSlot
      rw [runBind]
      simp only [runGet]
      rw [if_neg hfloor]
      rfl
    exact fault hslot

theorem writeSlot {Q : Unit → Ideal → β → Store → Prop} (h : Q () { i with stack := i.stack.set n v } b σ) :
    Does i (IdealM.writeSlot n v) (.ok b σ) Q := by
  unfold IdealM.writeSlot
  refine step rfl ?_
  split
  · exact fault rfl
  · exact of_eq rfl h

theorem callClosure {a : Nat} {c : Routine} {Q : Unit → Ideal → β → Store → Prop}
    (ha : i.objects[a]? = some (.closure c)) (h : Does i (IdealM.call a count) r Q) :
    Does i (callValue (.object a) count) r Q := by
  refine step rfl ?_
  rw [ha]
  exact h

theorem callNative {a : Nat} {g : Native} {Q : Unit → Ideal → β → Store → Prop}
    (ha : i.objects[a]? = some (.native g)) (h : Does i (IdealM.callNative g count) r Q) :
    Does i (callValue (.object a) count) r Q := by
  refine step rfl ?_
  rw [ha]
  exact h

theorem readSlot (hn : i.stack[n]? = some v) (h : Does i (g v) r R) : Does i (IdealM.readSlot n >>= g) r R := by
  refine step (a := v) ?_ h
  unfold IdealM.readSlot
  rw [runBind]
  simp only [runGet]
  rw [hn]
  rfl

end

end Does

end IdealM

namespace EvalM

variable {bindings : Bindings} {name : Bytes} {σ : Store} {c : Nat} {v : Val}

theorem read_cell (hc : bindings.lookup name = some c) (hv : σ.cells[c]? = some v) :
    read bindings name σ = .ok v σ := by
  unfold read
  rw [runBind]
  simp only [runGet, hc, hv]
  rfl

theorem read_global (hname : bindings.lookup name = none) (hv : σ.globals name = some v) :
    read bindings name σ = .ok v σ := by
  unfold read
  rw [runBind]
  simp only [runGet, hname, hv]
  rfl

theorem read_undefined (hname : bindings.lookup name = none) (hv : σ.globals name = none) :
    read bindings name σ = .error (.problem (.undefinedVariable name)) σ := by
  unfold read
  rw [runBind]
  simp only [runGet, hname, hv]
  rfl

theorem write_cell (hc : bindings.lookup name = some c) (v : Val) :
    write bindings name v σ = .ok () { σ with cells := σ.cells.set c v } := by
  unfold write
  simp only [hc]
  rfl

theorem write_global {x : Val} (hname : bindings.lookup name = none) (hx : σ.globals name = some x) (v : Val) :
    write bindings name v σ = .ok () { σ with globals := σ.globals.set name v } := by
  unfold write
  simp only [hname]
  rw [runBind]
  simp only [runGet, hx]
  rfl

theorem write_undefined (hname : bindings.lookup name = none) (hx : σ.globals name = none) (v : Val) :
    write bindings name v σ = .error (.problem (.undefinedVariable name)) σ := by
  unfold write
  simp only [hname]
  rw [runBind]
  simp only [runGet, hx]
  rfl

end EvalM

/-- An active call of a function with what was there when it began: the variables around the function, what is on the
stack below, and who waits for it to return. -/
structure Scene where
  closure : Nat
  routine : Routine
  listing : Listing Item
  kind : FunctionKind
  outer : List (List Origin)
  env : Env
  bindings : Bindings
  below : List Seat
  rest : List Activation
  objects : List (Obj Routine)
  links : Links
  made : Item.Made (.function listing) (.function routine.prototype)
  running : objects[closure]? = some (.closure routine)
  binds : routine.Binds links (listing.origins :: outer) env bindings
  called : kind = .script ∨ rest ≠ []

namespace Scene

def origins (F : Scene) : List (List Origin) :=
  F.listing.origins :: F.outer

def scope (F : Scene) (inside : Bool) (own : Bindings) : Env :=
  ⟨F.kind, inside, own.map fun b => .named b.1⟩ :: F.env

def seats (F : Scene) (own : Bindings) : List Seat :=
  F.below ++ .value (.object F.closure) :: own.reverse.map fun b => .cell b.2

/-- These lines are next. -/
def Code (F : Scene) (ip : Nat) (lines : List Line) : Prop :=
  ∃ before after, F.listing.code = before ++ lines ++ after ∧ Code.size before = ip

/-- The machine is in the call where the evaluator is, with these variables of the function and these values on their
way. -/
structure Shows (F : Scene) (ip : Nat) (σ : Store) (own : Bindings) (vs : List Val) (links : Links) (i : Ideal) :
    Prop where
  enacts : i.Enacts σ (F.seats own ++ vs.map .value) links
  frames : i.frames = ⟨F.closure, ip, F.below.length⟩ :: F.rest
  objects : F.objects <+: i.objects
  links : F.links.Extends links

def Holds (F : Scene) (ip : Nat) (σ : Store) (own : Bindings) (vs : List Val) (i : Ideal) : Prop :=
  ∃ links, F.Shows ip σ own vs links i

/-- Before an instruction. -/
def At (F : Scene) (ip : Nat) (σ : Store) (own : Bindings) (vs : List Val) (i : Ideal) : Prop :=
  F.Holds ip σ own vs i ∧ ∃ Γ, i.Sound Γ

/-- The call has come to an end with this value. -/
structure Left (F : Scene) (v : Val) (σ : Store) (links : Links) (i : Ideal) : Prop where
  enacts : i.Enacts σ (F.below ++ [.value v]) links
  frames : i.frames = F.rest
  objects : F.objects <+: i.objects
  links : F.links.Extends links

variable {F : Scene} {inside : Bool} {own : Bindings} {lines a b : List Line} {op : Opcode} {operand : Operand}
  {ip n k : Nat} {name : Bytes} {v : Val} {vs : List Val} {σ : Store} {links : Links} {i : Ideal} {c out : Nat}
  {item : Item}

theorem scope_newest (F : Scene) (inside : Bool) (own : Bindings) : (F.scope inside own).newest = own.length :=
  List.length_map _

theorem seats_declare (F : Scene) (own : Bindings) (name : Bytes) (c : Nat) :
    F.seats ((name, c) :: own) = F.seats own ++ [.cell c] := by
  simp [seats]

theorem length_of_scope {own' : Bindings} (h : F.scope inside own = F.scope inside own') :
    own.length = own'.length := by
  rw [← scope_newest F inside own, h, scope_newest]

namespace Code

theorem split (h : F.Code ip (a ++ b)) : F.Code ip a ∧ F.Code (ip + Lox.Code.size a) b := by
  obtain ⟨before, after, hcode, rfl⟩ := h
  exact ⟨⟨before, b ++ after, by simp [hcode], rfl⟩, ⟨before ++ a, after, by simp [hcode], by simp⟩⟩

theorem mark (h : F.Code ip (.mark n :: lines)) : F.Code ip lines :=
  (split (a := [.mark n]) h).2

theorem next (h : F.Code ip (.instr op operand :: lines)) : F.Code (ip + (1 + operand.size)) lines :=
  (split (a := [.instr op operand]) h).2

theorem ahead (h : F.Code ip (.instr op operand :: lines)) :
    F.routine.prototype.Ahead ip (op.toByte :: operand.bytes) ∧ operand.Fits := by
  obtain ⟨before, after, hcode, rfl⟩ := h
  cases F.made with
  | function _ _ _ code _ fits =>
    refine ⟨⟨Lox.Code.bytes (lines ++ after), ?_⟩, fits (.instr op operand) (by simp [hcode])⟩
    rw [code, hcode, ← Lox.Code.length_bytes]
    simp [Line.bytes]

end Code

theorem constant_at (F : Scene) (hk : F.listing.constants[k]? = some item) :
    ∃ lit, F.routine.prototype.constants[k]? = some lit ∧ Item.Made item lit := by
  cases F.made with
  | function _ _ _ _ _ _ constants => exact forall₂_getElem?_left constants hk

namespace Shows

theorem codeAt (h : F.Shows ip σ own vs links i) : CodeAt i.objects F.closure F.routine.prototype := by
  obtain ⟨objects, hobjects⟩ := h.objects
  exact ⟨F.routine, hobjects ▸ getElem?_append_of_some F.running objects, rfl⟩

theorem moved (h : F.Shows ip σ own vs links i) (ip' : Nat) : F.Shows ip' σ own vs links (i.moved ip') where
  enacts := h.enacts.moved ip'
  frames := Ideal.frames_moved h.frames
  objects := h.objects
  links := h.links

theorem holds (h : F.Shows ip σ own vs links i) : F.Holds ip σ own vs i :=
  ⟨links, h⟩

theorem top (h : F.Shows ip σ own vs links i) : ∃ S, i.stack = S ++ vs ∧ S.length = (F.seats own).length := by
  obtain ⟨S, hS, hseats⟩ := h.enacts.top
  exact ⟨S, hS, hseats.length_eq.symm⟩

theorem retop {S : List Val} (h : F.Shows ip σ own vs links i) (hS : i.stack = S ++ vs) (ws : List Val) :
    F.Shows ip σ own ws links { i with stack := S ++ ws } where
  enacts := h.enacts.retop hS ws
  frames := h.frames
  objects := h.objects
  links := h.links

theorem push (h : F.Shows ip σ own vs links i) (v : Val) :
    F.Shows ip σ own (vs ++ [v]) links { i with stack := i.stack ++ [v] } := by
  obtain ⟨S, hS, -⟩ := h.top
  have := h.retop hS (vs ++ [v])
  rwa [← List.append_assoc, ← hS] at this

theorem readByte {b : UInt8} {bytes : List UInt8} (h : F.Shows ip σ own vs links i)
    (hb : F.routine.prototype.Ahead ip (b :: bytes)) : IdealM.readByte i = .ok b (i.moved (ip + 1)) :=
  IdealM.readByte_eq h.frames h.codeAt hb

theorem readOperand {bytes : List UInt8} (h : F.Shows ip σ own vs links i) (hn : n < 256)
    (hb : F.routine.prototype.Ahead ip (n.toUInt8 :: bytes)) :
    IdealM.readByte i = .ok n.toUInt8 (i.moved (ip + 1)) ∧ n.toUInt8.toNat = n :=
  ⟨h.readByte hb, toNat_toUInt8 hn⟩

theorem readShort (h : F.Shows ip σ own vs links i) (hn : n < 65536)
    (hb : F.routine.prototype.Ahead ip (Operand.short n).bytes) :
    IdealM.readShort i = .ok n (i.moved (ip + 2)) :=
  IdealM.readShort_eq h.frames h.codeAt hn hb

theorem readConstant {bytes : List UInt8} (h : F.Shows ip σ own vs links i)
    (hk : F.listing.constants[k]? = some item) (hlt : k < 256)
    (hb : F.routine.prototype.Ahead ip (k.toUInt8 :: bytes)) :
    ∃ lit, IdealM.readConstant i = .ok lit (i.moved (ip + 1)) ∧ Item.Made item lit := by
  obtain ⟨hread, hnat⟩ := h.readOperand hlt hb
  obtain ⟨lit, hlit, hmade⟩ := F.constant_at hk
  refine ⟨lit, ?_, hmade⟩
  unfold IdealM.readConstant
  rw [runBind, hread]
  dsimp only
  rw [runBind, IdealM.prototype_eq (h.moved (ip + 1)).frames (h.moved (ip + 1)).codeAt]
  dsimp only
  rw [hnat, hlit]
  rfl

theorem readName {bytes : List UInt8} (h : F.Shows ip σ own vs links i)
    (hk : F.listing.constants[k]? = some (.string name)) (hlt : k < 256)
    (hb : F.routine.prototype.Ahead ip (k.toUInt8 :: bytes)) : IdealM.readName i = .ok name (i.moved (ip + 1)) := by
  obtain ⟨lit, hread, hmade⟩ := h.readConstant hk hlt hb
  cases hmade
  unfold IdealM.readName
  rw [runBind, hread]
  rfl

end Shows

section

variable {p : Prototype} {f : Activation} {rest : List Activation} {bytes : List UInt8}

theorem step_execute (hf : i.frames = f :: rest) (hp : CodeAt i.objects f.closure p)
    (hb : p.Ahead f.ip (op.toByte :: bytes)) (hop : op ≠ .return_) :
    IdealM.step i = (do IdealM.execute op; return true : IdealM Bool) (i.moved (f.ip + 1)) := by
  unfold IdealM.step
  rw [runBind, IdealM.readByte_eq hf hp hb]
  dsimp only
  rw [Opcode.ofByte?_toByte]
  cases op <;> first | rfl | exact absurd rfl hop

theorem step_leave (hf : i.frames = f :: rest) (hp : CodeAt i.objects f.closure p)
    (hb : p.Ahead f.ip (Opcode.return_.toByte :: bytes)) : IdealM.step i = IdealM.leave (i.moved (f.ip + 1)) := by
  unfold IdealM.step
  rw [runBind, IdealM.readByte_eq hf hp hb]
  dsimp only
  rw [Opcode.ofByte?_toByte]

end

/-- What an instruction leaves when it ends with a value on its way. -/
abbrev Pushes (F : Scene) (ip : Nat) (own : Bindings) (vs : List Val) : Unit → Ideal → Val → Store → Prop :=
  fun _ j v σ => F.Holds ip σ own (vs ++ [v]) j

abbrev Goes (F : Scene) (ip : Nat) (own : Bindings) (vs : List Val) : Unit → Ideal → β → Store → Prop :=
  fun _ j _ σ => F.Holds ip σ own vs j

namespace At

variable {Q : Unit → Ideal → β → Store → Prop} {r : EStateM.Result Halt Store β}

theorem step (h : F.At ip σ own vs i) (hcode : F.Code ip (.instr op operand :: lines)) (hop : op ≠ .return_)
    (hdoes : ∀ links, F.Shows (ip + 1) σ own vs links (i.moved (ip + 1)) →
      F.routine.prototype.Ahead (ip + 1) operand.bytes → operand.Fits →
      IdealM.Does (i.moved (ip + 1)) (IdealM.execute op) r Q) :
    (∃ j b σ', IdealM.step i = .ok true j ∧ r = .ok b σ' ∧ Q () j b σ' ∧ ∃ Γ, j.Sound Γ) ∨
      ∃ e j, IdealM.step i = .error (.error e) j ∧ (e.message = RuntimeProblem.stackOverflow.message ∨
        ∃ p σ', r = .error (.problem p) σ' ∧ e.message = p.message ∧ j.printed = σ'.printed) := by
  obtain ⟨⟨links, hshows⟩, Γ, hsound⟩ := h
  obtain ⟨hahead, hfits⟩ := hcode.ahead
  have hdoes := hdoes links (hshows.moved (ip + 1)) hahead.tail hfits
  have hstep := step_execute hshows.frames hshows.codeAt hahead hop
  have hsafe := hsound.step
  unfold IdealM.Safe at hsafe
  unfold IdealM.Does at hdoes
  rw [hstep, runBind] at hsafe ⊢
  dsimp only at hsafe hdoes ⊢
  cases hexecute : IdealM.execute op (i.moved (ip + 1)) with
  | ok u j =>
    rw [hexecute] at hsafe hdoes
    obtain ⟨b, σ', hr, hq⟩ := hdoes
    rcases hsafe with ⟨⟨⟩, -⟩ | ⟨-, Γ', hleads⟩
    exact .inl ⟨j, b, σ', rfl, hr, hq, Γ', hleads.sound⟩
  | error e j =>
    rw [hexecute] at hsafe hdoes
    cases e with
    | error e => exact .inr ⟨e, j, rfl, hdoes⟩
    | fault f => exact hsafe.elim

/-- An instruction that does what a step of the evaluator does. -/
theorem turn (h : F.At ip σ own vs i) (hcode : F.Code ip (.instr op operand :: lines)) (hop : op ≠ .return_)
    (hdoes : ∀ links, F.Shows (ip + 1) σ own vs links (i.moved (ip + 1)) →
      F.routine.prototype.Ahead (ip + 1) operand.bytes → operand.Fits →
      IdealM.Does (i.moved (ip + 1)) (IdealM.execute op) r Q) :
    i.Comes n (fun b σ' j => Q () j b σ' ∧ ∃ Γ, j.Sound Γ) r := by
  rcases h.step hcode hop hdoes with ⟨j, b, σ', hstep, rfl, hq⟩ | ⟨e, j, hstep, he | ⟨p, σ', rfl, he, hprinted⟩⟩
  · exact .done (IdealM.run_one hstep) hq
  · exact .overflow (IdealM.run_error hstep) he
  · exact .problem (IdealM.run_error hstep) he hprinted

/-- An instruction on the way. -/
theorem idle {r' : EStateM.Result Halt Store α} {P : α → Store → Ideal → Prop} {σ' : Store}
    {Q : Unit → Ideal → Unit → Store → Prop} (h : F.At ip σ own vs i)
    (hcode : F.Code ip (.instr op operand :: lines)) (hop : op ≠ .return_)
    (hdoes : ∀ links, F.Shows (ip + 1) σ own vs links (i.moved (ip + 1)) →
      F.routine.prototype.Ahead (ip + 1) operand.bytes → operand.Fits →
      IdealM.Does (i.moved (ip + 1)) (IdealM.execute op) (.ok () σ') Q)
    (hrest : ∀ j, Q () j () σ' → (∃ Γ, j.Sound Γ) → j.Comes n P r') : i.Comes (n + 1) P r' := by
  rcases h.step hcode hop hdoes with ⟨j, b, σ'', hstep, hr, hq, hsound⟩ | ⟨e, j, hstep, he | ⟨p, σ'', ⟨⟩, -⟩⟩
  · cases hr
    exact (Ideal.Comes.after (IdealM.run_one hstep) (hrest j hq hsound)).weaken (Nat.le_of_eq (Nat.add_comm n 1))
  · exact .overflow (IdealM.run_error hstep) he

theorem pass {r' : EStateM.Result Halt Store α} {P : α → Store → Ideal → Prop} {σ' : Store} {ip' : Nat}
    {own' : Bindings} {vs' : List Val} (h : F.At ip σ own vs i) (hcode : F.Code ip (.instr op operand :: lines))
    (hop : op ≠ .return_)
    (hdoes : ∀ links, F.Shows (ip + 1) σ own vs links (i.moved (ip + 1)) →
      F.routine.prototype.Ahead (ip + 1) operand.bytes → operand.Fits →
      IdealM.Does (i.moved (ip + 1)) (IdealM.execute op) (.ok () σ') (F.Goes ip' own' vs'))
    (hrest : ∀ j, F.At ip' σ' own' vs' j → j.Comes n P r') : i.Comes n P r' :=
  (h.idle hcode hop hdoes fun j hj hsound => hrest j ⟨hj, hsound⟩).weaken (Nat.le_succ n)

end At

theorem follow_pos {χ : List (List Origin)} {j : Nat} (h : Origin.follow χ j = some (out, n)) : 0 < out := by
  cases χ with
  | nil => cases h
  | cons origins outer =>
    rw [Origin.follow] at h
    split at h
    · cases h
    · cases h
      exact Nat.one_pos
    · obtain ⟨r, -, hr⟩ := Option.map_eq_some_iff.mp h
      cases hr
      exact Nat.succ_pos _

theorem slot_some {s : Seat} (h : (VarName.named name).slot? (own.map fun b => .named b.1) = some n) :
    ∃ c, own.lookup name = some c ∧ (s :: own.reverse.map fun b => Seat.cell b.2)[n]? = some (.cell c) := by
  induction own generalizing n with
  | nil => cases h
  | cons b own ih =>
    obtain ⟨x, d⟩ := b
    rw [List.map_cons, VarName.slot?] at h
    split at h
    · rename_i hx
      cases hx
      cases h
      exact ⟨d, by simp [List.lookup], by simp⟩
    · rename_i hx
      obtain ⟨c, hc, hseat⟩ := ih h
      have hne : (name == x) = false := by
        rw [beq_eq_false_iff_ne]
        rintro rfl
        exact hx rfl
      refine ⟨c, by rw [List.lookup_cons, hne]; exact hc, ?_⟩
      rw [List.reverse_cons, List.map_append, ← List.cons_append]
      exact getElem?_append_of_some hseat _

theorem slot_none (h : (VarName.named name).slot? (own.map fun b => .named b.1) = none) : own.lookup name = none := by
  induction own with
  | nil => rfl
  | cons b own ih =>
    obtain ⟨x, d⟩ := b
    rw [List.map_cons, VarName.slot?] at h
    split at h
    · cases h
    · rename_i hx
      have hne : (name == x) = false := by
        rw [beq_eq_false_iff_ne]
        rintro rfl
        exact hx rfl
      rw [List.lookup_cons, hne]
      exact ih h

theorem lookup_own (F : Scene) (own : Bindings) (name : Bytes) :
    (own ++ F.bindings).lookup name = (own.lookup name).or (F.bindings.lookup name) :=
  List.lookup_append

namespace Shows

/-- Every variable has a cell, and it is in its slot or an upvalue leads to it. -/
theorem sees (h : F.Shows ip σ own vs links i) (hfind : (F.scope inside own).find (.named name) = some (out, n)) :
    ∃ c, (own ++ F.bindings).lookup name = some c ∧
      (out = 0 → cellAt (F.seats own ++ vs.map .value) (F.below.length + n) = some c) ∧
      ∀ j, Origin.follow F.origins j = some (out, n) →
        ∃ u, F.routine.captures[j]? = some (some u) ∧ links u = some c := by
  rw [scope, Env.find] at hfind
  rw [lookup_own]
  cases hslot : (VarName.named name).slot? (own.map fun b => .named b.1) with
  | some slot =>
    simp only [hslot] at hfind
    cases hfind
    obtain ⟨c, hc, hseat⟩ := slot_some (s := .value (.object F.closure)) hslot
    refine ⟨c, by rw [hc]; rfl, fun _ => ?_, fun j hj => absurd (follow_pos hj) (Nat.lt_irrefl 0)⟩
    rw [cellAt_values]
    refine cellAt_of_cell ?_
    rw [seats, List.getElem?_append_right (Nat.le_add_right ..), Nat.add_sub_cancel_left]
    exact hseat
  | none =>
    simp only [hslot] at hfind
    obtain ⟨⟨out', n'⟩, hout, heq⟩ := Option.map_eq_some_iff.mp hfind
    cases heq
    obtain ⟨c, hc, hupvalues⟩ := F.binds.captured name out' n' hout
    refine ⟨c, by rw [slot_none hslot, hc]; rfl, (fun h => by cases h), fun j hj => ?_⟩
    obtain ⟨u, hu, hlink⟩ := hupvalues j hj
    exact ⟨u, hu, h.links u c hlink⟩

end Shows

theorem lookup_none (hfind : (F.scope inside own).find (.named name) = none) :
    (own ++ F.bindings).lookup name = none := by
  rw [scope, Env.find] at hfind
  rw [lookup_own]
  cases hslot : (VarName.named name).slot? (own.map fun b => .named b.1) with
  | some slot =>
    simp only [hslot] at hfind
    cases hfind
  | none =>
    simp only [hslot] at hfind
    rw [slot_none hslot, F.binds.global name (Option.map_eq_none_iff.mp hfind)]
    rfl

open IdealM (Does)

namespace Shows

theorem printed (h : F.Shows ip σ own vs links i) : i.printed = σ.printed :=
  h.enacts.printed

theorem readLocal (h : F.Shows ip σ own vs links i) (hn : n < 256)
    (hb : F.routine.prototype.Ahead ip (Operand.byte n).bytes) :
    IdealM.readLocal i = .ok (F.below.length + n) (i.moved (ip + 1)) := by
  obtain ⟨hread, hnat⟩ := h.readOperand hn hb
  unfold IdealM.readLocal
  rw [runBind, hread]
  dsimp only
  rw [runBind, IdealM.frame_eq (h.moved (ip + 1)).frames]
  dsimp only
  rw [hnat]
  rfl

theorem readCaptured {j u : Nat} (h : F.Shows ip σ own vs links i) (hj : j < 256)
    (hb : F.routine.prototype.Ahead ip (Operand.byte j).bytes) (hu : F.routine.captures[j]? = some (some u)) :
    IdealM.readCaptured i = .ok u (i.moved (ip + 1)) := by
  obtain ⟨hread, hnat⟩ := h.readOperand hj hb
  obtain ⟨objects, hobjects⟩ := h.objects
  have hclosure : (i.moved (ip + 1)).objects[F.closure]? = some (.closure F.routine) :=
    hobjects ▸ getElem?_append_of_some F.running objects
  unfold IdealM.readCaptured
  rw [runBind, hread]
  dsimp only
  rw [runBind, IdealM.frame_eq (h.moved (ip + 1)).frames]
  dsimp only
  rw [runBind, IdealM.closureAt_eq hclosure]
  dsimp only
  rw [hnat, hu]
  rfl

theorem readUpvalue {u : Nat} (h : F.Shows ip σ own vs links i) (hu : links u = some c) :
    ∃ v, IdealM.readUpvalue u i = .ok v i ∧ σ.cells[c]? = some v := by
  unfold IdealM.readUpvalue
  rw [runBind]
  simp only [runGet]
  rcases h.enacts.captured_at hu with ⟨n, v, hat, -, hv, hc⟩ | ⟨v, hat, hc, -⟩
  · refine ⟨v, ?_, hc⟩
    rw [hat]
    unfold IdealM.ofOption
    dsimp only
    rw [runBind]
    show IdealM.readSlot n i = _
    unfold IdealM.readSlot
    rw [runBind]
    simp only [runGet, hv]
    rfl
  · refine ⟨v, ?_, hc⟩
    rw [hat]
    rfl

end Shows

namespace Shows

theorem pushes (h : F.Shows ip σ own vs links i) (v : Val) :
    Does i (IdealM.push v) (.ok v σ) (F.Pushes ip own vs) :=
  .of_eq rfl ⟨links, h.push v⟩

theorem number {text : Bytes} (h : F.Shows ip σ own vs links i)
    (hk : F.listing.constants[k]? = some (.number (.number (Number.ofLiteral text)))) (hlt : k < 256)
    (hb : F.routine.prototype.Ahead ip (Operand.byte k).bytes) :
    Does i IdealM.constant (.ok (Val.ofFloat (Number.ofLiteral text)) σ) (F.Pushes (ip + 1) own vs) := by
  obtain ⟨lit, hread, hmade⟩ := h.readConstant hk hlt hb
  cases hmade
  exact .step hread ((h.moved (ip + 1)).pushes _)

theorem string {chars : Bytes} (h : F.Shows ip σ own vs links i) (hk : F.listing.constants[k]? = some (.string chars))
    (hlt : k < 256) (hb : F.routine.prototype.Ahead ip (Operand.byte k).bytes) :
    Does i IdealM.constant (.ok (Val.string chars) σ) (F.Pushes (ip + 1) own vs) := by
  obtain ⟨lit, hread, hmade⟩ := h.readConstant hk hlt hb
  cases hmade
  exact .step hread ((h.moved (ip + 1)).pushes _)

theorem getLocal (h : F.Shows ip σ own vs links i) (hname : (own ++ F.bindings).lookup name = some c)
    (hcell : cellAt (F.seats own ++ vs.map .value) (F.below.length + n) = some c) (hn : n < 256)
    (hb : F.routine.prototype.Ahead ip (Operand.byte n).bytes) :
    Does i IdealM.getLocal (EvalM.read (own ++ F.bindings) name σ) (F.Pushes (ip + 1) own vs) := by
  obtain ⟨v, hv, hc⟩ := h.enacts.value_at hcell
  rw [EvalM.read_cell hname hc]
  exact .step (h.readLocal hn hb) (.readSlot hv ((h.moved (ip + 1)).pushes v))

theorem getUpvalue {j u : Nat} (h : F.Shows ip σ own vs links i) (hname : (own ++ F.bindings).lookup name = some c)
    (hu : F.routine.captures[j]? = some (some u)) (hlink : links u = some c) (hj : j < 256)
    (hb : F.routine.prototype.Ahead ip (Operand.byte j).bytes) :
    Does i IdealM.getUpvalue (EvalM.read (own ++ F.bindings) name σ) (F.Pushes (ip + 1) own vs) := by
  obtain ⟨v, hread, hc⟩ := (h.moved (ip + 1)).readUpvalue hlink
  rw [EvalM.read_cell hname hc]
  exact .step (h.readCaptured hj hb hu) (.step hread ((h.moved (ip + 1)).pushes v))

theorem getGlobal (h : F.Shows ip σ own vs links i) (hname : (own ++ F.bindings).lookup name = none)
    (hk : F.listing.constants[k]? = some (.string name)) (hlt : k < 256)
    (hb : F.routine.prototype.Ahead ip (Operand.byte k).bytes) :
    Does i IdealM.getGlobal (EvalM.read (own ++ F.bindings) name σ) (F.Pushes (ip + 1) own vs) := by
  have hglobals : (i.moved (ip + 1)).globals = σ.globals := h.enacts.globals
  refine .step (h.readName hk hlt hb) (.step rfl ?_)
  cases hv : σ.globals name with
  | some v =>
    rw [hglobals, hv, EvalM.read_global hname hv]
    exact (h.moved (ip + 1)).pushes v
  | none =>
    rw [hglobals, hv, EvalM.read_undefined hname hv]
    exact .raise (h.moved (ip + 1)).printed

theorem top_at (h : F.Shows ip σ own (vs ++ [v]) links i) : i.stack.reverse[0]? = some v := by
  obtain ⟨S, hS, -⟩ := h.top
  rw [hS]
  simp

theorem setLocal (h : F.Shows ip σ own (vs ++ [v]) links i) (hname : (own ++ F.bindings).lookup name = some c)
    (hcell : cellAt (F.seats own ++ (vs ++ [v]).map .value) (F.below.length + n) = some c) (hn : n < 256)
    (hb : F.routine.prototype.Ahead ip (Operand.byte n).bytes) :
    Does i IdealM.setLocal (EvalM.write (own ++ F.bindings) name v σ) (F.Goes (ip + 1) own (vs ++ [v])) := by
  rw [EvalM.write_cell hname]
  refine .step (h.readLocal hn hb) (.peek (h.moved (ip + 1)).top_at (.writeSlot ⟨links, ?_⟩))
  have h' := h.moved (ip + 1)
  exact { h' with enacts := h'.enacts.writeSlot hcell v }

theorem setUpvalue {j u : Nat} (h : F.Shows ip σ own (vs ++ [v]) links i)
    (hname : (own ++ F.bindings).lookup name = some c) (hu : F.routine.captures[j]? = some (some u))
    (hlink : links u = some c) (hj : j < 256) (hb : F.routine.prototype.Ahead ip (Operand.byte j).bytes) :
    Does i IdealM.setUpvalue (EvalM.write (own ++ F.bindings) name v σ) (F.Goes (ip + 1) own (vs ++ [v])) := by
  have h' := h.moved (ip + 1)
  rw [EvalM.write_cell hname]
  refine .step (h.readCaptured hj hb hu) (.peek h'.top_at (.step rfl ?_))
  rcases h'.enacts.captured_at hlink with ⟨n, x, hat, hcell, -⟩ | ⟨x, hat, -⟩
  · refine .ofOption fun k hk => ?_
    obtain rfl : k = .slot n := Option.some.inj (hk.symm.trans hat)
    exact .writeSlot ⟨links, { h' with enacts := h'.enacts.writeSlot hcell v }⟩
  · refine .ofOption fun k hk => ?_
    obtain rfl : k = .closed x := Option.some.inj (hk.symm.trans hat)
    exact .of_eq rfl ⟨links, { h' with enacts := h'.enacts.writeClosed hlink hat v }⟩

theorem assignGlobal (h : F.Shows ip σ own (vs ++ [v]) links i) (hname : (own ++ F.bindings).lookup name = none)
    (hk : F.listing.constants[k]? = some (.string name)) (hlt : k < 256)
    (hb : F.routine.prototype.Ahead ip (Operand.byte k).bytes) :
    Does i IdealM.assignGlobal (EvalM.write (own ++ F.bindings) name v σ) (F.Goes (ip + 1) own (vs ++ [v])) := by
  have h' := h.moved (ip + 1)
  refine .step (h.readName hk hlt hb) (.peek h'.top_at (.step rfl ?_))
  cases hx : σ.globals name with
  | some x =>
    rw [h'.enacts.globals, hx, EvalM.write_global hname hx]
    exact .of_eq rfl ⟨links, { h' with enacts := h'.enacts.setGlobal name v }⟩
  | none =>
    rw [h'.enacts.globals, hx, EvalM.write_undefined hname hx]
    exact .raise h'.printed

theorem pop (h : F.Shows ip σ own (vs ++ [v]) links i) {γ δ : Type} {g : Val → IdealM γ}
    {r : EStateM.Result Halt Store δ} {R : γ → Ideal → δ → Store → Prop}
    (hrest : ∀ j, F.Shows ip σ own vs links j → Does j (g v) r R) : Does i (IdealM.pop >>= g) r R := by
  obtain ⟨S, hS, -⟩ := h.top
  exact .pop (hS.trans (List.append_assoc ..).symm) (hrest _ (h.retop hS vs))

theorem drop (h : F.Shows ip σ own (vs ++ [v]) links i) :
    Does i (IdealM.execute .pop) (.ok () σ) (F.Goes ip own vs) :=
  h.pop fun _ h' => .pure ⟨links, h'⟩

theorem defineGlobal (h : F.Shows ip σ own (vs ++ [v]) links i)
    (hk : F.listing.constants[k]? = some (.string name)) (hlt : k < 256)
    (hb : F.routine.prototype.Ahead ip (Operand.byte k).bytes) :
    Does i IdealM.defineGlobal (EvalM.setGlobal name v σ) (F.Goes (ip + 1) own vs) := by
  have h' := h.moved (ip + 1)
  refine .step (h.readName hk hlt hb) (.peek h'.top_at (.step rfl ?_))
  have h'' : F.Shows (ip + 1) { σ with globals := σ.globals.set name v } own (vs ++ [v]) links _ :=
    { h' with enacts := h'.enacts.setGlobal name v }
  exact h''.pop fun _ h' => .pure ⟨links, h'⟩

theorem unary (h : F.Shows ip σ own (vs ++ [v]) links i) (op : UnaryOp) :
    Does i (IdealM.execute op.code) (EvalM.ofExcept (op.apply v) σ) (F.Pushes ip own vs) := by
  cases op with
  | not => exact h.pop fun _ h' => h'.pushes _
  | negate =>
    refine .peek h.top_at ?_
    cases v with
    | number bits =>
      show Does i (IdealM.popNumber >>= _) _ _
      unfold IdealM.popNumber
      rw [bind_assoc]
      exact h.pop fun _ h' => .step rfl (h'.pushes _)
    | _ => exact .raise_bind h.printed

theorem second_at {w : Val} (h : F.Shows ip σ own (vs ++ [v] ++ [w]) links i) : i.stack.reverse[1]? = some v := by
  obtain ⟨S, hS, -⟩ := h.top
  rw [hS]
  simp

theorem numbers {bits bits' : UInt64} (h : F.Shows ip σ own (vs ++ [.number bits] ++ [.number bits']) links i)
    (f : Float → Float → Val) : Does i (do
      let b ← IdealM.popNumber
      let a ← IdealM.popNumber
      IdealM.push (f a b)) (.ok (f (Float.ofBits bits) (Float.ofBits bits')) σ) (F.Pushes ip own vs) := by
  unfold IdealM.popNumber
  rw [bind_assoc]
  refine h.pop fun _ h' => .step rfl ?_
  rw [bind_assoc]
  exact h'.pop fun _ h'' => .step rfl (h''.pushes _)

theorem numeric {w : Val} (h : F.Shows ip σ own (vs ++ [v] ++ [w]) links i) (f : Float → Float → Val) :
    Does i (IdealM.numeric f) (EvalM.ofExcept (BinaryOp.arithmetic f v w) σ) (F.Pushes ip own vs) := by
  refine .peek h.top_at (.peek h.second_at ?_)
  cases w with
  | number bits' =>
    cases v with
    | number bits => exact h.numbers f
    | _ => exact .raise_bind h.printed
  | _ => cases v <;> exact .raise_bind h.printed

theorem add {w : Val} (h : F.Shows ip σ own (vs ++ [v] ++ [w]) links i) :
    Does i IdealM.add (EvalM.ofExcept (BinaryOp.sum v w) σ) (F.Pushes ip own vs) := by
  refine .peek h.top_at (.peek h.second_at ?_)
  cases w with
  | string chars' =>
    cases v with
    | string chars => exact h.pop fun _ h' => h'.pop fun _ h'' => h''.pushes _
    | _ => exact .raise h.printed
  | number bits' =>
    cases v with
    | number bits => exact h.numbers fun a b => .ofFloat (a + b)
    | _ => exact .raise h.printed
  | _ => cases v <;> exact .raise h.printed

theorem equal {w : Val} (h : F.Shows ip σ own (vs ++ [v] ++ [w]) links i) :
    Does i IdealM.equal (.ok (Val.bool (v.equal w)) σ) (F.Pushes ip own vs) :=
  h.pop fun _ h' => h'.pop fun _ h'' => h''.pushes _

theorem jump {d : Nat} (h : F.Shows ip σ own vs links i) (hd : d < 65536)
    (hb : F.routine.prototype.Ahead ip (Operand.short d).bytes) :
    Does i (IdealM.execute .jump) (.ok () σ) (F.Goes (ip + 2 + d) own vs) := by
  have h' := h.moved (ip + 2)
  exact .step (h.readShort hd hb) (.step (IdealM.frame_eq h'.frames) (.of_eq rfl ⟨links, h'.moved (ip + 2 + d)⟩))

theorem jumpIfFalse {d : Nat} (h : F.Shows ip σ own (vs ++ [v]) links i) (hd : d < 65536)
    (hb : F.routine.prototype.Ahead ip (Operand.short d).bytes) :
    Does i (IdealM.execute .jumpIfFalse) (.ok () σ)
      (F.Goes (if v.isFalsey then ip + 2 + d else ip + 2) own (vs ++ [v])) := by
  have h' := h.moved (ip + 2)
  refine .step (h.readShort hd hb) (.peek h'.top_at ?_)
  cases v.isFalsey with
  | true => exact .step (IdealM.frame_eq h'.frames) (.of_eq rfl ⟨links, h'.moved (ip + 2 + d)⟩)
  | false => exact .of_eq rfl ⟨links, h'⟩

theorem jumpBack {d : Nat} (h : F.Shows ip σ own vs links i) (hd : d < 65536)
    (hb : F.routine.prototype.Ahead ip (Operand.short d).bytes) :
    Does i (IdealM.execute .loop) (.ok () σ) (F.Goes (ip + 2 - d) own vs) := by
  have h' := h.moved (ip + 2)
  refine .step (h.readShort hd hb) (.step (IdealM.frame_eq h'.frames) ?_)
  dsimp only
  split
  · exact .fault rfl
  · exact .step rfl (.of_eq rfl ⟨links, h'.moved (ip + 2 - d)⟩)

theorem text (h : F.Shows ip σ own vs links i) (v : Val) :
    v.text? (fun c : Routine => c.prototype.text) i.objects = some (σ.text v) := by
  cases v with
  | object a =>
    show Obj.text? _ i.objects a = _
    unfold Obj.text?
    cases ho : i.objects[a]? with
    | none =>
      have hnone : σ.callables[a]? = none := by
        rw [List.getElem?_eq_none_iff, ← h.enacts.objects.length_eq]
        exact List.getElem?_eq_none_iff.mp ho
      simp only [Store.text, hnone]
    | some o =>
      obtain ⟨p, hp, hstands⟩ := forall₂_getElem?_left h.enacts.objects ho
      cases hstands with
      | native n => simp only [Store.text, hp]
      | @procedure r p g _ _ _ hmade hname =>
        cases hmade with
        | function _ name =>
          obtain ⟨_ | called, parameters, body, bindings⟩ := p <;>
            simp only [Store.text, hp, Procedure.text, Template.text, name, hname]
  | bool b => cases b <;> rfl
  | _ => rfl

theorem print (h : F.Shows ip σ own (vs ++ [v]) links i) :
    Does i IdealM.printTop (EvalM.print v σ) (F.Goes ip own vs) := by
  refine h.pop fun j h' => ?_
  have htext : IdealM.textOf v j = .ok (σ.text v) j := by
    unfold IdealM.textOf
    rw [runBind]
    simp only [runGet]
    rw [h'.text v]
    rfl
  exact .step htext (.of_eq rfl ⟨links, { h' with enacts := h'.enacts.print _ }⟩)

theorem refuse {p : RuntimeProblem} {w : Val} (h : F.Shows ip σ own vs links i) {γ δ : Type}
    {g : Nat × Nat × Dict Val → IdealM γ} {R : γ → Ideal → δ → Store → Prop} :
    Does i (IdealM.instanceOr p w >>= g) (.error (.problem p) σ) R := by
  unfold IdealM.instanceOr
  cases w with
  | object a =>
    rw [bind_assoc]
    refine .step rfl ?_
    cases ho : i.objects[a]? with
    | none => exact .raise_bind h.printed
    | some o =>
      obtain ⟨p, hp, hstands⟩ := forall₂_getElem?_left h.enacts.objects ho
      cases hstands <;> exact .raise_bind h.printed
  | _ => exact .raise_bind h.printed

theorem peek_at {args : List Val} (h : F.Shows ip σ own (vs ++ v :: args) links i) :
    i.stack.reverse[args.length]? = some v := by
  obtain ⟨S, hS, -⟩ := h.top
  rw [hS]
  simp

theorem answer {f : Val} {args : List Val} (h : F.Shows ip σ own (vs ++ f :: args) links i) (v : Val) :
    Does i (do
      let base ← IdealM.calleeSlot args.length
      modify fun i => { i with stack := i.stack.take base }
      IdealM.push v) (.ok v σ) (F.Pushes ip own vs) := by
  obtain ⟨S, hS, -⟩ := h.top
  rw [← List.append_assoc] at hS
  refine .calleeSlot hS (.step rfl ?_)
  show Does { i with stack := i.stack.take (S ++ vs).length } _ _ _
  rw [show i.stack.take (S ++ vs).length = S ++ vs by rw [hS, List.take_left]]
  exact (h.retop (hS.trans (List.append_assoc ..)) vs).pushes v

theorem host {f : Val} {args : List Val} (h : F.Shows ip σ own (vs ++ f :: args) links i) (code : HostFunction) :
    Does i (do
      let v ← IdealM.host code
      let base ← IdealM.calleeSlot args.length
      modify fun i => { i with stack := i.stack.take base }
      IdealM.push v) (EvalM.host code σ) (F.Pushes ip own vs) := by
  cases code with
  | clock =>
    have h' : F.Shows ip { σ with clock := σ.clock.advance } own (vs ++ f :: args) links
        { i with clock := i.clock.advance } := { h with enacts := h.enacts.tick }
    refine .step (a := Val.ofFloat σ.clock.now) ?_ (h'.answer _)
    rw [← h.enacts.clock]
    rfl
  | gc => exact .step rfl (h.answer _)
  | custom code => exact .fault rfl

theorem callNative {f : Val} {args : List Val} (h : F.Shows ip σ own (vs ++ f :: args) links i) (g : Native) :
    Does i (IdealM.callNative g args.length) (EvalM.callNative g args.length σ) (F.Pushes ip own vs) := by
  unfold IdealM.callNative EvalM.callNative
  cases g.arity with
  | none => exact h.host g.behaviour
  | some arity =>
    dsimp only
    split
    · exact .raise_bind h.printed
    · exact h.host g.behaviour

theorem call_arity {f : Val} {args : List Val} {a : Nat} {r : Routine}
    {Q : Unit → Ideal → β → Store → Prop} (h : F.Shows ip σ own (vs ++ f :: args) links i)
    (hr : i.objects[a]? = some (.closure r)) (hcount : args.length ≠ r.prototype.arity) :
    Does i (IdealM.call a args.length) (.error (.problem (.arity r.prototype.arity args.length)) σ) Q := by
  refine .step (IdealM.closureAt_eq hr) ?_
  rw [if_pos hcount]
  exact .raise_bind h.printed

theorem call {f : Val} {args : List Val} {a : Nat} {r : Routine} (h : F.Shows ip σ own (vs ++ f :: args) links i)
    (hr : i.objects[a]? = some (.closure r)) (hcount : args.length = r.prototype.arity) :
    Does i (IdealM.call a args.length) (.ok () σ) fun _ j _ _ =>
      j = { i with frames := ⟨a, 0, (F.seats own ++ vs.map Seat.value).length⟩ :: i.frames } := by
  obtain ⟨S, hS, hlength⟩ := h.top
  rw [← List.append_assoc] at hS
  refine .step (IdealM.closureAt_eq hr) ?_
  rw [if_neg (not_not.mpr hcount)]
  refine .step rfl (.calleeSlot hS ?_)
  split
  · exact .overflow_bind
  · refine .of_eq rfl ?_
    rw [List.length_append, List.length_append, List.length_map, hlength]

theorem callTop {f : Val} {args : List Val} {r : EStateM.Result Halt Store β} {Q : Unit → Ideal → β → Store → Prop}
    (h : F.Shows ip σ own (vs ++ f :: args) links i) (hcount : args.length < 256)
    (hb : F.routine.prototype.Ahead ip (Operand.byte args.length).bytes)
    (hdoes : Does (i.moved (ip + 1)) (IdealM.callValue f args.length) r Q) : Does i IdealM.callTop r Q := by
  obtain ⟨hread, hnat⟩ := h.readOperand hcount hb
  refine .step hread (.peek (v := f) ?_ ?_)
  · rw [hnat]
    exact (h.moved (ip + 1)).peek_at
  · rw [hnat]
    exact hdoes

/-- What is no function is not called. -/
theorem callOther {f : Val} {Q : Unit → Ideal → β → Store → Prop} (h : F.Shows ip σ own vs links i)
    (hf : ∀ a, f = .object a → i.objects[a]? = none) (count : Nat) :
    Does i (IdealM.callValue f count) (.error (.problem .notCallable) σ) Q := by
  unfold IdealM.callValue
  cases f with
  | object a =>
    refine .step rfl ?_
    rw [hf a rfl]
    exact .raise h.printed
  | _ => exact .raise h.printed

theorem leave (h : F.Shows ip σ own (vs ++ [v]) links i) (hrest : F.rest ≠ []) :
    Does i IdealM.leave (.ok v σ) fun more j w σ' => more = true ∧ F.Left w σ' links j := by
  refine .step (IdealM.frame_eq h.frames) (h.pop fun j h' => ?_)
  rcases h'.enacts.closeUpvalues F.below.length with ⟨e, k, hfault⟩ | ⟨upvalues, opened, hclose, henacts⟩
  · exact .fault hfault
  · have hbelow : (F.seats own ++ vs.map Seat.value).take F.below.length = F.below := by
      rw [seats, List.append_assoc, List.take_left]
    rw [hbelow] at henacts
    refine .step hclose (.step rfl (.step rfl ?_))
    have hframes : j.frames.tail = F.rest := by rw [h'.frames]; rfl
    split
    · rename_i hempty
      exact absurd (hframes ▸ List.isEmpty_iff.mp hempty) hrest
    · refine .step rfl ?_
      split
      · exact .fault rfl
      · exact .step rfl (.pure ⟨rfl, { henacts.push v with }, hframes, h'.objects, h'.links⟩)

theorem finish (h : F.Shows ip σ own (vs ++ [v]) links i) (hrest : F.rest = []) :
    Does i IdealM.leave (.ok () σ) fun more j _ σ' => more = false ∧ j.printed = σ'.printed := by
  refine .step (IdealM.frame_eq h.frames) (h.pop fun j h' => ?_)
  rcases h'.enacts.closeUpvalues F.below.length with ⟨e, k, hfault⟩ | ⟨upvalues, opened, hclose, henacts⟩
  · exact .fault hfault
  · refine .step hclose (.step rfl (.step rfl ?_))
    have hframes : j.frames.tail = [] := by rw [h'.frames, hrest]; rfl
    rw [if_pos (List.isEmpty_iff.mpr hframes)]
    have hstack : j.stack ≠ [] := by
      obtain ⟨S, hS, hlength⟩ := h'.top
      refine List.ne_nil_of_length_pos ?_
      rw [hS, List.length_append, hlength, seats]
      simp
    obtain ⟨S, x, hS⟩ := (List.eq_nil_or_concat j.stack).resolve_left hstack
    exact .pop (hS.trans (List.concat_eq_append ..)) (.pure ⟨rfl, henacts.printed⟩)

end Shows

end Scene

end Lox

import Lox.Proofs.Evaluation.Scene

/-!
Compiled expressions do what the evaluator does with the syntax tree, each kind from its parts; declarations make
variables and closures, and the end of a block takes its variables away.
-/

namespace Lox

open IdealM (Does)

variable {call : Val → List Val → EvalM Val} {n : Nat}

/-- The code of an expression ends with its value on the way. -/
def Expr.Evaluates (call : Val → List Val → EvalM Val) (n : Nat) (e : Expr) : Prop :=
  ∀ ⦃F : Scene⦄ ⦃inside : Bool⦄ ⦃own : Bindings⦄ ⦃lines : List Line⦄ ⦃ip : Nat⦄ ⦃vs : List Val⦄ ⦃σ : Store⦄ ⦃i : Ideal⦄,
    e.Codes F.origins F.listing.constants (F.scope inside own) lines → F.Code ip lines → F.At ip σ own vs i →
      i.Comes n (fun v σ' j => F.At (ip + Code.size lines) σ' own (vs ++ [v]) j)
        (e.eval call (own ++ F.bindings) σ)

def Expr.EvaluatesAll (call : Val → List Val → EvalM Val) (n : Nat) (es : List Expr) : Prop :=
  ∀ ⦃F : Scene⦄ ⦃inside : Bool⦄ ⦃own : Bindings⦄ ⦃lines : List Line⦄ ⦃ip : Nat⦄ ⦃vs : List Val⦄ ⦃σ : Store⦄ ⦃i : Ideal⦄,
    Expr.CodesAll F.origins F.listing.constants (F.scope inside own) es lines → F.Code ip lines → F.At ip σ own vs i →
      i.Comes n (fun ws σ' j => ws.length = es.length ∧ F.At (ip + Code.size lines) σ' own (vs ++ ws) j)
        (Expr.evalAll call (own ++ F.bindings) es σ)

/-- A call with its function and its arguments on their way ends with the answer. -/
def CallsRun (call : Val → List Val → EvalM Val) (n : Nat) : Prop :=
  ∀ ⦃F : Scene⦄ ⦃own : Bindings⦄ ⦃lines : List Line⦄ ⦃ip : Nat⦄ ⦃vs args : List Val⦄ ⦃f : Val⦄ ⦃σ : Store⦄ ⦃i : Ideal⦄,
    F.Code ip (.instr .call (.byte args.length) :: lines) → F.At ip σ own (vs ++ f :: args) i →
      i.Comes n (fun v σ' j => F.At (ip + 2) σ' own (vs ++ [v]) j) (call f args σ)

namespace Scene

variable {F : Scene} {inside : Bool} {own : Bindings} {lines : List Line} {ip : Nat} {name : Bytes} {v w : Val}
  {vs : List Val} {σ : Store} {i : Ideal} {p : Place}

theorem getOp_ne (p : Place) : p.getOp ≠ .return_ := by
  cases p <;> (intro h; cases h)

theorem setOp_ne (p : Place) : p.setOp ≠ .return_ := by
  cases p <;> (intro h; cases h)

theorem At.read (h : F.At ip σ own vs i)
    (hp : p.Leads F.origins F.listing.constants ((F.scope inside own).target name)) (hcode : F.Code ip [p.read]) :
    i.Comes n (fun v σ' j => F.At (ip + 2) σ' own (vs ++ [v]) j) (EvalM.read (own ++ F.bindings) name σ) := by
  rw [Env.target] at hp
  cases hfind : (F.scope inside own).find (.named name) with
  | none =>
    rw [hfind] at hp
    cases hp with
    | global hk => exact h.turn hcode (getOp_ne _) fun _ hs hb hfits => hs.getGlobal (lookup_none hfind) hk hfits hb
  | some r =>
    obtain ⟨out, m⟩ := r
    rw [hfind] at hp
    cases hp with
    | slot m =>
      refine h.turn (Q := F.Pushes (ip + 2) own vs) hcode (getOp_ne _) fun _ hs hb hfits => ?_
      obtain ⟨c, hc, hcell, -⟩ := hs.sees hfind
      exact hs.getLocal hc (hcell rfl) hfits hb
    | captured hj =>
      refine h.turn (Q := F.Pushes (ip + 2) own vs) hcode (getOp_ne _) fun _ hs hb hfits => ?_
      obtain ⟨c, hc, -, hupvalues⟩ := hs.sees hfind
      obtain ⟨u, hu, hlink⟩ := hupvalues _ hj
      exact hs.getUpvalue hc hu hlink hfits hb

theorem At.write (h : F.At ip σ own (vs ++ [v]) i)
    (hp : p.Leads F.origins F.listing.constants ((F.scope inside own).target name)) (hcode : F.Code ip [p.write]) :
    i.Comes n (fun _ σ' j => F.At (ip + 2) σ' own (vs ++ [v]) j) (EvalM.write (own ++ F.bindings) name v σ) := by
  rw [Env.target] at hp
  cases hfind : (F.scope inside own).find (.named name) with
  | none =>
    rw [hfind] at hp
    cases hp with
    | global hk => exact h.turn hcode (setOp_ne _) fun _ hs hb hfits => hs.assignGlobal (lookup_none hfind) hk hfits hb
  | some r =>
    obtain ⟨out, m⟩ := r
    rw [hfind] at hp
    cases hp with
    | slot m =>
      refine h.turn (Q := F.Goes (ip + 2) own (vs ++ [v])) hcode (setOp_ne _) fun _ hs hb hfits => ?_
      obtain ⟨c, hc, hcell, -⟩ := hs.sees hfind
      exact hs.setLocal hc (hcell rfl) hfits hb
    | captured hj =>
      refine h.turn (Q := F.Goes (ip + 2) own (vs ++ [v])) hcode (setOp_ne _) fun _ hs hb hfits => ?_
      obtain ⟨c, hc, -, hupvalues⟩ := hs.sees hfind
      obtain ⟨u, hu, hlink⟩ := hupvalues _ hj
      exact hs.setUpvalue hc hu hlink hfits hb

theorem At.unary (h : F.At ip σ own (vs ++ [v]) i) (op : UnaryOp) (hcode : F.Code ip (.instr op.code .none :: lines)) :
    i.Comes n (fun v σ' j => F.At (ip + 1) σ' own (vs ++ [v]) j) (EvalM.ofExcept (op.apply v) σ) :=
  h.turn hcode (by cases op <;> nofun) fun _ hs _ _ => hs.unary op

/-- An operator that negates another one is followed by the instruction for that. -/
theorem At.negated {x : Except RuntimeProblem Val} {op : Opcode} {y : EvalM Val}
    (h : F.At ip σ own (vs ++ [v] ++ [w]) i) (hcode : F.Code ip [.instr op .none, .instr .not .none])
    (hop : op ≠ .return_)
    (hdoes : ∀ links j, F.Shows (ip + 1) σ own (vs ++ [v] ++ [w]) links j →
      Does j (IdealM.execute op) (EvalM.ofExcept x σ) (F.Pushes (ip + 1) own vs))
    (hy : y = do let v ← EvalM.ofExcept x; EvalM.ofExcept (UnaryOp.not.apply v)) :
    i.Comes n (fun v σ' j => F.At (ip + 2) σ' own (vs ++ [v]) j) (y σ) := by
  rw [hy]
  have hbase : i.Comes n (fun v σ' j => F.At (ip + 1) σ' own (vs ++ [v]) j) (EvalM.ofExcept x σ) :=
    h.turn hcode hop fun links hs _ _ => hdoes links _ hs
  exact hbase.bind fun v σ' j hj => hj.unary .not hcode.next

theorem At.binary (h : F.At ip σ own (vs ++ [v] ++ [w]) i) (op : BinaryOp)
    (hcode : F.Code ip (op.code.map (.instr · .none))) :
    i.Comes n (fun v σ' j => F.At (ip + Code.size (op.code.map (.instr · .none))) σ' own (vs ++ [v]) j)
      (EvalM.ofExcept (op.apply v w) σ) := by
  cases op with
  | equal => exact h.turn hcode nofun fun _ hs _ _ => hs.equal
  | notEqual => exact h.negated (x := .ok (.bool (v.equal w))) hcode nofun (fun _ _ hs => hs.equal) rfl
  | greater => exact h.turn hcode nofun fun _ hs _ _ => hs.numeric _
  | greaterEqual =>
    refine h.negated hcode nofun (fun _ _ hs => hs.numeric fun x y => .bool (x < y)) ?_
    cases v <;> cases w <;> rfl
  | less => exact h.turn hcode nofun fun _ hs _ _ => hs.numeric _
  | lessEqual =>
    refine h.negated hcode nofun (fun _ _ hs => hs.numeric fun x y => .bool (y < x)) ?_
    cases v <;> cases w <;> rfl
  | add => exact h.turn hcode nofun fun _ hs _ _ => hs.add
  | subtract => exact h.turn hcode nofun fun _ hs _ _ => hs.numeric _
  | multiply => exact h.turn hcode nofun fun _ hs _ _ => hs.numeric _
  | divide => exact h.turn hcode nofun fun _ hs _ _ => hs.numeric _

theorem At.cast {ip' : Nat} (h : F.At ip σ own vs i) (hip : ip = ip') : F.At ip' σ own vs i :=
  hip ▸ h

section

variable {α : Type} {P : α → Store → Ideal → Prop} {r : EStateM.Result Halt Store α} {d : Nat}

theorem At.jump (h : F.At ip σ own vs i) (hcode : F.Code ip (.instr .jump (.short d) :: lines))
    (hrest : ∀ j, F.At (ip + 3 + d) σ own vs j → j.Comes n P r) : i.Comes n P r :=
  h.pass hcode nofun (fun _ hs hb hfits => hs.jump hfits hb) hrest

theorem At.jumpIfFalse (h : F.At ip σ own (vs ++ [v]) i)
    (hcode : F.Code ip (.instr .jumpIfFalse (.short d) :: lines))
    (hfalsey : v.isFalsey = true → ∀ j, F.At (ip + 3 + d) σ own (vs ++ [v]) j → j.Comes n P r)
    (htruthy : v.isFalsey = false → ∀ j, F.At (ip + 3) σ own (vs ++ [v]) j → j.Comes n P r) : i.Comes n P r := by
  refine h.pass hcode nofun (fun _ hs hb hfits => hs.jumpIfFalse hfits hb) fun j hj => ?_
  cases hv : v.isFalsey with
  | true => exact hfalsey hv j (hj.cast (if_pos hv))
  | false => exact htruthy hv j (hj.cast (if_neg (by rw [hv]; nofun)))

theorem At.drop (h : F.At ip σ own (vs ++ [v]) i) (hcode : F.Code ip (.instr .pop .none :: lines))
    (hrest : ∀ j, F.At (ip + 1) σ own vs j → j.Comes n P r) : i.Comes n P r :=
  h.pass hcode nofun (fun _ hs _ _ => hs.drop) hrest

end

end Scene

section

variable {value operand left right callee object : Expr} {arguments : List Expr}

theorem Expr.evaluates_nil : Expr.Evaluates call n .nil := by
  intro F inside own lines ip vs σ i hcodes hcode h
  cases hcodes
  exact h.turn hcode nofun fun _ hs _ _ => hs.pushes .nil

theorem Expr.evaluates_true : Expr.Evaluates call n .true_ := by
  intro F inside own lines ip vs σ i hcodes hcode h
  cases hcodes
  exact h.turn hcode nofun fun _ hs _ _ => hs.pushes (.bool true)

theorem Expr.evaluates_false : Expr.Evaluates call n .false_ := by
  intro F inside own lines ip vs σ i hcodes hcode h
  cases hcodes
  exact h.turn hcode nofun fun _ hs _ _ => hs.pushes (.bool false)

theorem Expr.evaluates_number (text : Bytes) : Expr.Evaluates call n (.number text) := by
  intro F inside own lines ip vs σ i hcodes hcode h
  cases hcodes with
  | number hk => exact h.turn hcode nofun fun _ hs hb hfits => hs.number hk hfits hb

theorem Expr.evaluates_string (chars : Bytes) : Expr.Evaluates call n (.string chars) := by
  intro F inside own lines ip vs σ i hcodes hcode h
  cases hcodes with
  | string hk => exact h.turn hcode nofun fun _ hs hb hfits => hs.string hk hfits hb

theorem Expr.evaluates_variable (name : Bytes) : Expr.Evaluates call n (.variable_ name) := by
  intro F inside own lines ip vs σ i hcodes hcode h
  cases hcodes with
  | variable_ hp => exact h.read hp hcode

theorem Expr.evaluates_assign (name : Bytes) (ih : value.Evaluates call n) :
    Expr.Evaluates call n (.assign name value) := by
  intro F inside own lines ip vs σ i hcodes hcode h
  cases hcodes with
  | assign hp ha =>
    obtain ⟨hvalue, hwrite⟩ := hcode.split
    rw [Code.size_append, ← Nat.add_assoc]
    refine (ih ha hvalue h).bind fun v σ' j hj => ?_
    exact (hj.write hp hwrite).bind fun _ σ'' k hk => .pure hk

theorem Expr.evaluates_unary (op : UnaryOp) (ih : operand.Evaluates call n) :
    Expr.Evaluates call n (.unary op operand) := by
  intro F inside own lines ip vs σ i hcodes hcode h
  cases hcodes with
  | unary ha =>
    obtain ⟨hoperand, hop⟩ := hcode.split
    rw [Code.size_append, ← Nat.add_assoc]
    exact (ih ha hoperand h).bind fun v σ' j hj => hj.unary op hop

theorem Expr.evaluates_binary (op : BinaryOp) (ihl : left.Evaluates call n) (ihr : right.Evaluates call n) :
    Expr.Evaluates call n (.binary op left right) := by
  intro F inside own lines ip vs σ i hcodes hcode h
  cases hcodes with
  | binary ha hb =>
    obtain ⟨hoperands, hop⟩ := hcode.split
    obtain ⟨hleft, hright⟩ := hoperands.split
    rw [Code.size_append] at hop ⊢
    rw [Code.size_append, ← Nat.add_assoc, ← Nat.add_assoc]
    rw [← Nat.add_assoc] at hop
    refine (ihl ha hleft h).bind fun v σ' j hj => ?_
    exact (ihr hb hright hj).bind fun w σ'' k hk => hk.binary op hop

theorem Expr.evaluates_and (ihl : left.Evaluates call n) (ihr : right.Evaluates call n) :
    Expr.Evaluates call n (.and_ left right) := by
  intro F inside own lines ip vs σ i hcodes hcode h
  cases hcodes with
  | @and_ _ _ a b ha hb =>
    obtain ⟨hboth, hright⟩ := hcode.split
    obtain ⟨hleft, hjump⟩ := hboth.split
    simp only [Code.size_append, Code.size_cons, Code.size_nil, Line.size, Operand.size] at hright ⊢
    refine (ihl ha hleft h).bind fun v σ' j hj => hj.jumpIfFalse hjump (fun hv k hk => ?_) fun hv k hk => ?_
    · rw [if_pos hv]
      exact .pure (hk.cast (by omega))
    · rw [if_neg (Bool.eq_false_iff.mp hv)]
      refine hk.drop hjump.next fun l hl => ?_
      exact (ihr hb hright (hl.cast (by omega))).imp fun w σ'' m hm => hm.cast (by omega)

theorem Expr.evaluates_or (ihl : left.Evaluates call n) (ihr : right.Evaluates call n) :
    Expr.Evaluates call n (.or_ left right) := by
  intro F inside own lines ip vs σ i hcodes hcode h
  cases hcodes with
  | @or_ _ _ a b ha hb =>
    obtain ⟨hboth, hright⟩ := hcode.split
    obtain ⟨hleft, hjump⟩ := hboth.split
    simp only [Code.size_append, Code.size_cons, Code.size_nil, Line.size, Operand.size] at hright ⊢
    refine (ihl ha hleft h).bind fun v σ' j hj => hj.jumpIfFalse hjump (fun hv k hk => ?_) fun hv k hk => ?_
    · rw [if_pos hv]
      refine hk.drop hjump.next.next fun l hl => ?_
      exact (ihr hb hright (hl.cast (by omega))).imp fun w σ'' m hm => hm.cast (by omega)
    · rw [if_neg (Bool.eq_false_iff.mp hv)]
      exact hk.jump hjump.next fun l hl => .pure (hl.cast (by omega))

theorem Expr.evaluates_call (hcall : CallsRun call n) (ihf : callee.Evaluates call n)
    (ihs : Expr.EvaluatesAll call n arguments) : Expr.Evaluates call n (.call callee arguments) := by
  intro F inside own lines ip vs σ i hcodes hcode h
  cases hcodes with
  | call ha hb =>
    obtain ⟨hparts, hlast⟩ := hcode.split
    obtain ⟨hcallee, harguments⟩ := hparts.split
    rw [Code.size_append] at hlast ⊢
    rw [Code.size_append, ← Nat.add_assoc, ← Nat.add_assoc]
    rw [← Nat.add_assoc] at hlast
    refine (ihf ha hcallee h).bind fun f σ' j hj => (ihs hb harguments hj).bind fun args σ'' k hk => ?_
    obtain ⟨hlength, hk⟩ := hk
    rw [List.append_assoc] at hk
    rw [← hlength] at hlast ⊢
    exact hcall hlast hk

theorem Expr.evaluates_get (name : Bytes) (ih : object.Evaluates call n) :
    Expr.Evaluates call n (.get object name) := by
  intro F inside own lines ip vs σ i hcodes hcode h
  cases hcodes with
  | get ha hk =>
    obtain ⟨hobject, hget⟩ := hcode.split
    refine (ih ha hobject h).bind fun v σ' j hj => ?_
    exact hj.turn (Q := fun _ _ _ _ => False) hget nofun (fun _ hs _ _ => .peek hs.top_at hs.refuse)
      |>.imp fun _ _ _ hfalse => hfalse.1.elim

theorem Expr.evaluates_set (name : Bytes) (iho : object.Evaluates call n) (ihv : value.Evaluates call n) :
    Expr.Evaluates call n (.set object name value) := by
  intro F inside own lines ip vs σ i hcodes hcode h
  cases hcodes with
  | set ha hb hk =>
    obtain ⟨hparts, hset⟩ := hcode.split
    obtain ⟨hobject, hvalue⟩ := hparts.split
    rw [Code.size_append, ← Nat.add_assoc] at hset
    refine (iho ha hobject h).bind fun v σ' j hj => (ihv hb hvalue hj).bind fun w σ'' k hk => ?_
    exact hk.turn (Q := fun _ _ _ _ => False) hset nofun (fun _ hs _ _ => .peek hs.second_at hs.refuse)
      |>.imp fun _ _ _ hfalse => hfalse.1.elim

theorem Expr.evaluates_invoke (name : Bytes) (iho : object.Evaluates call n)
    (ihs : Expr.EvaluatesAll call n arguments) : Expr.Evaluates call n (.invoke object name arguments) := by
  intro F inside own lines ip vs σ i hcodes hcode h
  cases hcodes with
  | invoke ha hb hname =>
    obtain ⟨hparts, hinvoke⟩ := hcode.split
    obtain ⟨hobject, harguments⟩ := hparts.split
    rw [Code.size_append, ← Nat.add_assoc] at hinvoke
    refine (iho ha hobject h).bind fun v σ' j hj => (ihs hb harguments hj).bind fun args σ'' k hk => ?_
    obtain ⟨hlength, hk⟩ := hk
    rw [List.append_assoc] at hk
    refine (hk.turn (Q := fun _ _ _ _ => False) hinvoke nofun fun _ hs hbytes hfits => ?_).imp
      fun _ _ _ hfalse => hfalse.1.elim
    have hread := hs.readName hname hfits.1 hbytes
    obtain ⟨hcount, hnat⟩ := (hs.moved _).readOperand hfits.2 hbytes.tail
    refine .step hread (.step hcount ?_)
    rw [hnat, ← hlength]
    exact .peek ((hs.moved _).moved _).peek_at ((hs.moved _).moved _).refuse

theorem Expr.evaluatesAll_nil : Expr.EvaluatesAll call n [] := by
  intro F inside own lines ip vs σ i hcodes hcode h
  cases hcodes
  exact .pure ⟨rfl, by rwa [List.append_nil]⟩

theorem Expr.evaluatesAll_cons {e : Expr} {es : List Expr} (ih : e.Evaluates call n)
    (ihs : Expr.EvaluatesAll call n es) : Expr.EvaluatesAll call n (e :: es) := by
  intro F inside own lines ip vs σ i hcodes hcode h
  cases hcodes with
  | cons ha hb =>
    obtain ⟨hfirst, hrest⟩ := hcode.split
    rw [Code.size_append, ← Nat.add_assoc]
    refine (ih ha hfirst h).bind fun v σ' j hj => (ihs hb hrest hj).bind fun ws σ'' k hk => ?_
    obtain ⟨hlength, hk⟩ := hk
    rw [List.append_assoc] at hk
    exact .pure ⟨congrArg (· + 1) hlength, hk⟩

end

mutual

theorem Expr.evaluates (hcall : CallsRun call n) (e : Expr) : e.Evaluates call n := by
  cases e with
  | nil => exact Expr.evaluates_nil
  | true_ => exact Expr.evaluates_true
  | false_ => exact Expr.evaluates_false
  | number text => exact Expr.evaluates_number text
  | string chars => exact Expr.evaluates_string chars
  | variable_ name => exact Expr.evaluates_variable name
  | assign name value => exact Expr.evaluates_assign name (value.evaluates hcall)
  | unary op operand => exact Expr.evaluates_unary op (operand.evaluates hcall)
  | binary op left right => exact Expr.evaluates_binary op (left.evaluates hcall) (right.evaluates hcall)
  | and_ left right => exact Expr.evaluates_and (left.evaluates hcall) (right.evaluates hcall)
  | or_ left right => exact Expr.evaluates_or (left.evaluates hcall) (right.evaluates hcall)
  | call callee arguments =>
    exact Expr.evaluates_call hcall (callee.evaluates hcall) (Expr.evaluatesAll hcall arguments)
  | get object name => exact Expr.evaluates_get name (object.evaluates hcall)
  | set object name value => exact Expr.evaluates_set name (object.evaluates hcall) (value.evaluates hcall)
  | invoke object name arguments =>
    exact Expr.evaluates_invoke name (object.evaluates hcall) (Expr.evaluatesAll hcall arguments)
  | this_ =>
    intro F inside own lines ip vs σ i hcodes
    cases hcodes
  | super_ name =>
    intro F inside own lines ip vs σ i hcodes
    cases hcodes
  | superInvoke name arguments =>
    intro F inside own lines ip vs σ i hcodes
    cases hcodes

theorem Expr.evaluatesAll (hcall : CallsRun call n) (es : List Expr) : Expr.EvaluatesAll call n es := by
  cases es with
  | nil => exact Expr.evaluatesAll_nil
  | cons e es => exact Expr.evaluatesAll_cons (e.evaluates hcall) (Expr.evaluatesAll hcall es)

end

namespace Ideal.Comes

variable {α : Type} {i : Ideal} {P Q : α → Store → Ideal → Prop} {r : EStateM.Result Halt Store α}

theorem further (h : i.Comes n P r) (hf : ∀ a σ j, P a σ j → j.Comes n Q (.ok a σ)) : i.Comes n Q r := by
  cases h with
  | done hrun hp => exact ((hf _ _ _ hp).after hrun).weaken (Nat.le_add_left ..)
  | timeout hrun hn => exact .timeout hrun hn
  | problem hrun hp hprinted => exact .problem hrun hp hprinted
  | overflow hrun he => exact .overflow hrun he

end Ideal.Comes

namespace Scene

/-- Where it goes on after a statement: behind its code with variables of this kind, or with the caller. -/
def Continues (F : Scene) (ip : Nat) (K : Bindings → Prop) : Sequel → Store → Ideal → Prop
  | .onward bindings, σ, j => ∃ own, bindings = own ++ F.bindings ∧ K own ∧ F.At ip σ own [] j
  | .return_ v, σ, j => (∃ links, F.Left v σ links j) ∧ ∃ Γ, j.Sound Γ

variable {α : Type} {F : Scene} {inside : Bool} {own own' : Bindings} {lines a : List Line} {ip ip' d : Nat}
  {name : Bytes} {v : Val} {vs : List Val} {σ : Store} {i : Ideal} {K K' : Bindings → Prop}
  {P : α → Store → Ideal → Prop} {r : EStateM.Result Halt Store α} {q : EStateM.Result Halt Store Sequel}

theorem onward (h : i.Comes n (F.Continues ip K) q) (hf : ∀ own σ j, K own → F.At ip σ own [] j →
    j.Comes n (F.Continues ip' K') (.ok (.onward (own ++ F.bindings)) σ)) : i.Comes n (F.Continues ip' K') q := by
  refine h.further fun s σ j hs => ?_
  cases s with
  | onward bindings =>
    obtain ⟨own, rfl, hK, hat⟩ := hs
    exact hf own σ j hK hat
  | return_ v => exact .pure hs

theorem andThen {x : EvalM Sequel} {f : Bindings → EvalM Sequel} (h : i.Comes n (F.Continues ip K) (x σ))
    (hf : ∀ own σ' j, K own → F.At ip σ' own [] j → j.Comes n (F.Continues ip' K') (f (own ++ F.bindings) σ')) :
    i.Comes n (F.Continues ip' K') (EvalM.andThen x f σ) := by
  refine h.bind fun s σ j hs => ?_
  cases s with
  | onward bindings =>
    obtain ⟨own, rfl, hK, hat⟩ := hs
    exact hf own σ j hK hat
  | return_ v => exact .pure hs

theorem At.jumpBack (h : F.At ip σ own vs i) (hcode : F.Code ip (.instr .loop (.short d) :: lines))
    (hd : ip + 3 - d = ip') (hrest : ∀ j, F.At ip' σ own vs j → j.Comes n P r) : i.Comes (n + 1) P r :=
  h.idle hcode nofun (fun _ hs hb hfits => hs.jumpBack hfits hb) fun j hj hsound =>
    hrest j (At.cast ⟨hj, hsound⟩ hd)

theorem At.leave (h : F.At ip σ own (vs ++ [v]) i) (hcode : F.Code ip (.instr .return_ .none :: lines))
    (hrest : F.rest ≠ []) (hf : ∀ links j, F.Left v σ links j → (∃ Γ, j.Sound Γ) → j.Comes n P r) :
    i.Comes n P r := by
  obtain ⟨⟨links, hshows⟩, Γ, hsound⟩ := h
  obtain ⟨hahead, -⟩ := hcode.ahead
  have hdoes := (hshows.moved (ip + 1)).leave hrest
  have hsafe := hsound.step
  unfold IdealM.Safe at hsafe
  unfold Does at hdoes
  have hstep := step_leave hshows.frames hshows.codeAt hahead
  rw [hstep] at hsafe
  dsimp only at hsafe hdoes hstep
  cases hleave : IdealM.leave (i.moved (ip + 1)) with
  | ok more j =>
    rw [hleave] at hsafe hdoes hstep
    obtain ⟨w, σ', hr, rfl, hleft⟩ := hdoes
    cases hr
    rcases hsafe with ⟨⟨⟩, -⟩ | ⟨-, Γ', hleads⟩
    exact ((hf links j hleft ⟨Γ', hleads.sound⟩).after (IdealM.run_one hstep)).weaken (Nat.le_add_left ..)
  | error e j =>
    rw [hleave] at hsafe hdoes hstep
    cases e with
    | fault f => exact hsafe.elim
    | error e =>
      rcases hdoes with he | ⟨p, σ', hr, -⟩
      · exact .overflow (IdealM.run_error hstep) he
      · cases hr

theorem At.finish (h : F.At ip σ own (vs ++ [v]) i) (hcode : F.Code ip (.instr .return_ .none :: lines))
    (hrest : F.rest = []) : (∃ j, IdealM.step i = .ok false j ∧ j.printed = σ.printed) ∨
      ∃ e j, IdealM.step i = .error (.error e) j ∧ e.message = RuntimeProblem.stackOverflow.message := by
  obtain ⟨⟨links, hshows⟩, Γ, hsound⟩ := h
  obtain ⟨hahead, -⟩ := hcode.ahead
  have hdoes := (hshows.moved (ip + 1)).finish hrest
  have hsafe := hsound.step
  unfold IdealM.Safe at hsafe
  unfold Does at hdoes
  rw [step_leave hshows.frames hshows.codeAt hahead] at hsafe ⊢
  dsimp only at hsafe hdoes ⊢
  cases hleave : IdealM.leave (i.moved (ip + 1)) with
  | ok more j =>
    rw [hleave] at hdoes
    obtain ⟨b, σ', hr, rfl, hprinted⟩ := hdoes
    cases hr
    exact .inl ⟨j, rfl, hprinted⟩
  | error e j =>
    rw [hleave] at hsafe hdoes
    cases e with
    | fault f => exact hsafe.elim
    | error e =>
      rcases hdoes with he | ⟨p, σ', hr, -⟩
      · exact .inr ⟨e, j, rfl, he⟩
      · cases hr

/-- A value on its way becomes a variable. -/
theorem Shows.declare {links : Links} (h : F.Shows ip σ own (v :: vs) links i) (name : Bytes) : ∃ links',
    F.Shows ip { σ with cells := σ.cells ++ [v] } ((name, σ.cells.length) :: own) vs links' i := by
  obtain ⟨links', hextends, henacts⟩ := h.enacts.allocate_after
  refine ⟨links', ?_, h.frames, h.objects, h.links.trans hextends⟩
  rw [seats_declare, List.append_assoc]
  exact henacts

theorem At.declare (h : F.At ip σ own [v] i) (name : Bytes) :
    F.At ip { σ with cells := σ.cells ++ [v] } ((name, σ.cells.length) :: own) [] i := by
  obtain ⟨⟨links, hshows⟩, hsound⟩ := h
  exact ⟨hshows.declare name, hsound⟩

theorem At.define {b : List Line} (h : F.At ip σ own [v] i)
    (hdefines : (F.scope inside own).Defines F.listing.constants name b) (hcode : F.Code ip b) :
    i.Comes n (F.Continues (ip + Code.size b) fun own' =>
        own <:+ own' ∧ (F.scope inside own).declare (.named name) = F.scope inside own')
      (EvalM.define inside (own ++ F.bindings) name v σ) := by
  cases hdefines with
  | inside hinside =>
    obtain rfl : inside = true := hinside
    exact .pure ⟨(name, σ.cells.length) :: own, rfl, ⟨List.suffix_cons .., rfl⟩, h.declare name⟩
  | outside hinside hk =>
    obtain rfl : inside = false := hinside
    have h : F.At ip σ own ([] ++ [v]) i := h
    refine Ideal.Comes.bind (h.turn hcode nofun fun _ hs hb hfits => hs.defineGlobal hk hfits hb) fun _ σ' j hj => ?_
    exact .pure ⟨own, rfl, ⟨List.suffix_refl _, rfl⟩, hj⟩

theorem Shows.newest {b : Bytes × Nat} {links : Links} (h : F.Shows ip σ (b :: own) [] links i) :
    ∃ S x, i.stack = S ++ [x] ∧
      (F.seats (b :: own) ++ ([] : List Val).map Seat.value).take S.length =
        F.seats own ++ ([] : List Val).map Seat.value := by
  obtain ⟨S, hS, hlength⟩ := h.top
  rw [List.append_nil] at hS
  rw [seats_declare F own b.1 b.2] at hlength ⊢
  obtain ⟨T, x, rfl⟩ := (List.eq_nil_or_concat S).resolve_left (List.ne_nil_of_length_pos (by rw [hlength]; simp))
  rw [List.concat_eq_append] at hS hlength
  have hT : T.length = (F.seats own).length := by simpa using hlength
  exact ⟨T, x, hS, by rw [List.map_nil, List.append_nil, List.append_nil, hT]; exact List.take_left⟩

theorem Shows.closeTop {b : Bytes × Nat} {links : Links} (h : F.Shows ip σ (b :: own) [] links i) :
    Does i IdealM.closeTop (.ok () σ) (F.Goes ip own []) := by
  obtain ⟨S, x, hS, htake⟩ := h.newest
  refine .calleeSlot hS ?_
  rcases h.enacts.closeUpvalues S.length with ⟨e, j, hfault⟩ | ⟨upvalues, opened, hclose, henacts⟩
  · exact .fault hfault
  · rw [htake, hS, List.take_left] at henacts
    exact .step hclose (.pop hS (.pure ⟨links, henacts, h.frames, h.objects, h.links⟩))

theorem At.shed {b : Bytes × Nat} {line : Line} (h : F.At ip σ (b :: own) [] i) (hcode : F.Code ip (line :: lines))
    (hline : line = .instr .pop .none ∨ line = .instr .closeUpvalue .none)
    (hrest : ∀ j, F.At (ip + 1) σ own [] j → j.Comes n P r) : i.Comes n P r := by
  rcases hline with rfl | rfl
  · -- no upvalue is open behind the end of the stack, so the variable was not captured
    refine (h.idle (Q := fun _ j _ _ => ∃ links S x, F.Shows (ip + 1) σ (b :: own) [] links (i.moved (ip + 1)) ∧
      i.stack = S ++ [x] ∧ (F.seats (b :: own) ++ ([] : List Val).map Seat.value).take S.length =
        F.seats own ++ ([] : List Val).map Seat.value ∧ j = { i.moved (ip + 1) with stack := S }) hcode nofun
      (fun links hs _ _ => show Does _ _ (.ok () σ) _ from ?_) fun j hj hsound => ?_).weaken (Nat.le_succ n)
    · obtain ⟨S, x, hS, htake⟩ := hs.newest
      exact .pop hS (.pure ⟨links, S, x, hs, hS, htake, rfl⟩)
    · obtain ⟨links, S, x, hs, hS, htake, rfl⟩ := hj
      have henacts := hs.enacts.cut (k := S.length) (hsound.elim fun _ h => h.opened_lt)
      have hbelow : (i.moved (ip + 1)).stack.take S.length = S := by rw [Ideal.moved_stack, hS, List.take_left]
      rw [htake, hbelow] at henacts
      exact hrest _ ⟨⟨links, henacts, hs.frames, hs.objects, hs.links⟩, hsound⟩
  · exact h.pass hcode nofun (fun _ hs _ _ => hs.closeTop) hrest

theorem At.sheds {new : Bindings} {drop : List Line} (h : F.At ip σ (new ++ own) [] i) (hcode : F.Code ip drop)
    (hdrop : Lox.Code.Sheds new.length drop)
    (hrest : ∀ j, F.At (ip + Lox.Code.size drop) σ own [] j → j.Comes n P r) : i.Comes n P r := by
  induction new generalizing ip drop i with
  | nil =>
    obtain rfl := List.eq_nil_of_length_eq_zero hdrop.1
    exact hrest i h
  | cons b new ih =>
    obtain ⟨hlength, hlines⟩ := hdrop
    cases drop with
    | nil => cases hlength
    | cons line drop =>
      rw [List.forall_mem_cons] at hlines
      have hsize : line.size = 1 := by
        rcases hlines.1 with rfl | rfl <;> rfl
      refine h.shed hcode hlines.1 fun j hj => ?_
      have hcode' := (Code.split (a := [line]) hcode).2
      rw [Lox.Code.size_cons, hsize] at hcode'
      refine ih hj hcode' ⟨Nat.succ.inj hlength, hlines.2⟩ fun k hk => hrest k (hk.cast ?_)
      rw [Lox.Code.size_cons, hsize, Nat.add_assoc]

/-- An upvalue of a new closure leads where its origin says. -/
def Supplies (F : Scene) (own : Bindings) (vs : List Val) (links : Links) (o : Origin) (u : Nat) : Prop :=
  if o.isLocal then
    ∀ c, cellAt (F.seats own ++ vs.map Seat.value) (F.below.length + o.index) = some c → links u = some c
  else F.routine.captures[o.index]? = some (some u)

theorem Supplies.extends {links links' : Links} {o : Origin} {u : Nat} (h : F.Supplies own vs links o u)
    (hl : links.Extends links') : F.Supplies own vs links' o u := by
  unfold Supplies at h ⊢
  split
  · rename_i hlocal
    rw [if_pos hlocal] at h
    exact fun c hc => hl u c (h c hc)
  · rename_i hlocal
    rwa [if_neg hlocal] at h

theorem Shows.supply {β γ : Type} {objects : List (Obj Routine)} {links : Links} {o : Origin} {g : Nat → IdealM γ}
    {r : EStateM.Result Halt Store β} {R : γ → Ideal → β → Store → Prop}
    (h : F.Shows ip σ own vs links { i with objects }) (hobjects : objects <+: i.objects)
    (hrest : ∀ u j links', links.Extends links' → F.Supplies own vs links' o u → j.objects = i.objects →
      F.Shows ip σ own vs links' { j with objects } → Does j (g u) r R) :
    Does i (if o.isLocal = true then IdealM.captureUpvalue (F.below.length + o.index) >>= g
      else do g (← IdealM.ofOption (← IdealM.ofOption
        (← IdealM.closureAt F.closure).captures[o.index]?))) r R := by
  split
  · rename_i hlocal
    obtain ⟨u, upvalues, opened, links', hcapture, hextends, hu, henacts⟩ :=
      h.enacts.captureUpvalue (F.below.length + o.index)
    refine .step (hcapture i.objects) (hrest u _ links' hextends ?_ rfl
      ⟨henacts, h.frames, h.objects, h.links.trans hextends⟩)
    rw [Supplies, if_pos hlocal]
    exact fun c hc => hu.trans hc
  · rename_i hlocal
    have hclosure : i.objects[F.closure]? = some (.closure F.routine) := by
      obtain ⟨more, hmore⟩ := h.objects.trans hobjects
      exact hmore ▸ getElem?_append_of_some F.running more
    refine .step (IdealM.closureAt_eq hclosure) (.ofOption fun x hx => .ofOption fun u hu => ?_)
    subst hu
    refine hrest u i links (.refl links) ?_ rfl h
    rw [Supplies, if_neg hlocal]
    exact hx

theorem Shows.fillCaptures {objects : List (Obj Routine)} {links : Links} {p : Prototype} {filled : List Nat}
    {origins : List Origin} (h : F.Shows ip σ own vs links { i with objects })
    (hobjects : i.objects =
      objects ++ [.closure ⟨p, filled.map some ++ List.replicate origins.length none⟩])
    (hb : F.routine.prototype.Ahead ip (origins.flatMap fun o => [if o.isLocal then 1 else 0, o.index.toUInt8]))
    (hfits : ∀ o ∈ origins, o.index < 256) :
    Does i (IdealM.fillCaptures objects.length filled.length origins.length) (.ok () σ) fun _ j _ _ =>
      ∃ links' more, links.Extends links' ∧ List.Forall₂ (F.Supplies own vs links') origins more ∧
        j.objects = objects ++ [.closure ⟨p, (filled ++ more).map some⟩] ∧
        F.Shows (ip + 2 * origins.length) σ own vs links' { j with objects } := by
  induction origins generalizing i ip links filled with
  | nil =>
    refine .pure ⟨links, [], .refl links, .nil, ?_, h⟩
    rw [hobjects, List.append_nil]
    simp
  | cons o origins ih =>
    rw [List.forall_mem_cons] at hfits
    have hprefix : objects <+: i.objects := hobjects ▸ List.prefix_append ..
    obtain ⟨more, hmore⟩ := h.objects.trans hprefix
    have hcode : CodeAt i.objects F.closure F.routine.prototype :=
      ⟨F.routine, hmore ▸ getElem?_append_of_some F.running more, rfl⟩
    have hflag : ((if o.isLocal = true then (1 : UInt8) else 0) = 1) = (o.isLocal = true) := by
      cases o.isLocal <;> decide
    have h₁ := (h.moved (ip + 1)).moved (ip + 1 + 1)
    have hframes : i.frames = ⟨F.closure, ip, F.below.length⟩ :: F.rest := h.frames
    have hframes₁ : (i.moved (ip + 1)).frames = ⟨F.closure, ip + 1, F.below.length⟩ :: F.rest :=
      Ideal.frames_moved hframes
    have hframes₂ : ((i.moved (ip + 1)).moved (ip + 1 + 1)).frames =
        ⟨F.closure, ip + 1 + 1, F.below.length⟩ :: F.rest := Ideal.frames_moved hframes₁
    unfold IdealM.fillCaptures
    refine .step (IdealM.readByte_eq hframes hcode hb) (.step (IdealM.readByte_eq hframes₁ hcode hb.tail)
      (.step (IdealM.frame_eq hframes₂) ?_))
    simp only [hflag, toNat_toUInt8 hfits.1]
    refine Shows.supply (i := (i.moved (ip + 1)).moved (ip + 1 + 1)) h₁ hprefix ?_
    intro u j links' hextends hsupplies hj hshows
    have hclosure : j.objects[objects.length]? =
        some (.closure ⟨p, filled.map some ++ List.replicate (origins.length + 1) none⟩) := by
      rw [hj, Ideal.moved_objects, Ideal.moved_objects, hobjects]
      simp
    have hset : j.objects.set objects.length (.closure
        ⟨p, (filled.map some ++ List.replicate (origins.length + 1) none).set filled.length (some u)⟩) =
        objects ++ [.closure ⟨p, (filled ++ [u]).map some ++ List.replicate origins.length none⟩] := by
      rw [hj, Ideal.moved_objects, Ideal.moved_objects, hobjects]
      simp [List.replicate_succ]
    refine .step (IdealM.closureAt_eq hclosure) (.step rfl ?_)
    dsimp only
    rw [hset]
    have hrest := ih (i := { j with
      objects := objects ++ [.closure ⟨p, (filled ++ [u]).map some ++ List.replicate origins.length none⟩] })
      hshows rfl hb.tail.tail hfits.2
    rw [List.length_append] at hrest
    refine hrest.imp fun _ k _ σ' hk => ?_
    obtain ⟨links'', more, hextends', hmore', hk, hshows'⟩ := hk
    refine ⟨links'', u :: more, hextends.trans hextends', .cons (hsupplies.extends hextends') hmore', ?_, ?_⟩
    · rw [hk, List.append_assoc]
      rfl
    · rwa [List.length_cons, show ip + 2 * (origins.length + 1) = ip + 1 + 1 + 2 * origins.length by omega]

theorem Shows.binds {links : Links} {r : Routine} {g : Listing Item} {us : List Nat}
    (h : F.Shows ip σ own vs links i) (hsupplies : List.Forall₂ (F.Supplies own vs links) g.origins us)
    (hr : r.captures = us.map some) :
    r.Binds links (g.origins :: F.origins) (F.scope inside own) (own ++ F.bindings) where
  global name hfind := lookup_none hfind
  captured name out m hfind := by
    obtain ⟨c, hc, hslot, hupvalues⟩ := h.sees hfind
    refine ⟨c, hc, fun j hj => ?_⟩
    rw [Origin.follow] at hj
    cases ho : g.origins[j]? with
    | none =>
      rw [ho] at hj
      cases hj
    | some o =>
      obtain ⟨u, hu, hsupply⟩ := forall₂_getElem?_left hsupplies ho
      have hat : r.captures[j]? = some (some u) := by rw [hr, List.getElem?_map, hu]; rfl
      obtain ⟨isLocal, index⟩ := o
      rw [ho] at hj
      cases isLocal with
      | true =>
        cases hj
        exact ⟨u, hat, hsupply c (hslot rfl)⟩
      | false =>
        obtain ⟨⟨d, m'⟩, hfollow, heq⟩ := Option.map_eq_some_iff.mp hj
        cases heq
        obtain ⟨u', hu', hlink⟩ := hupvalues index hfollow
        obtain rfl : u' = u := Option.some.inj (Option.some.inj (hu'.symm.trans hsupply))
        exact ⟨u', hat, hlink⟩

theorem Shows.makeClosure {σ' : Store} {vs' : List Val} {links links' : Links} {f : Lambda Stmt} {g : Listing Item}
    {k : Nat} (h : F.Shows ip σ own vs links i)
    (hready : F.Shows (ip + 1) σ' own' vs' links'
      { i.moved (ip + 1) with stack := i.stack ++ [.object i.objects.length] })
    (hk : F.listing.constants[k]? = some (.function g)) (harity : g.arity = f.parameters.length)
    (hname : g.name = some f.name)
    (hcodes : g.CodesBody F.origins ((F.scope inside own').function .function f.parameters) f.body)
    (hfits : (Operand.closure k g.origins).Fits)
    (hb : F.routine.prototype.Ahead ip (Operand.closure k g.origins).bytes) :
    Does i IdealM.makeClosure
      (.ok () { σ' with callables :=
        σ'.callables ++ [.procedure ⟨some f.name, f.parameters, f.body, own' ++ F.bindings⟩] })
      (F.Goes (ip + (Operand.closure k g.origins).size) own' vs') := by
  obtain ⟨lit, hread, hmade⟩ := h.readConstant hk hfits.1 hb
  have hfunction := hmade
  cases hfunction with
  | @function _ p arity name captures code lines fits constants few =>
    refine .step hread ?_
    dsimp only
    split
    · exact .fault rfl
    · refine .step rfl (.step rfl ?_)
      rw [captures]
      have hnew : i.objects ++ [.closure ⟨p, List.replicate g.origins.length none⟩] =
          i.objects ++ [.closure ⟨p, ([] : List Nat).map some ++ List.replicate g.origins.length none⟩] := rfl
      have hfill := Shows.fillCaptures (i := { i.moved (ip + 1) with
        stack := i.stack ++ [.object i.objects.length]
        objects := i.objects ++ [.closure ⟨p, List.replicate g.origins.length none⟩] }) hready hnew hb.tail hfits.2
      refine hfill.map fun _ j hj => ?_
      obtain ⟨links'', more, hextends, hsupplies, hj, hshows⟩ := hj
      rw [List.nil_append, Ideal.moved_objects] at hj
      have hstands : Callable.Stands links'' (.closure ⟨p, more.map some⟩)
          (.procedure ⟨some f.name, f.parameters, f.body, own' ++ F.bindings⟩) :=
        .procedure hmade hname harity hcodes (hshows.binds hsupplies rfl)
      have henacts : Ideal.Enacts { j with objects := i.objects ++ [.closure ⟨p, more.map some⟩] } { σ' with
          callables := σ'.callables ++ [.procedure ⟨some f.name, f.parameters, f.body, own' ++ F.bindings⟩] }
          (F.seats own' ++ vs'.map .value) links'' := hshows.enacts.create hstands
      rw [← hj] at henacts
      have hsize : ip + 1 + 2 * g.origins.length = ip + (Operand.closure k g.origins).size :=
        Nat.add_assoc ..
      refine ⟨links'', henacts, hsize ▸ hshows.frames, ?_, hshows.links⟩
      rw [hj]
      exact hshows.objects.trans (List.prefix_append ..)

end Scene

end Lox

import Lox.Proofs.Evaluation.Runs

/-!
Statements and calls, and with them the run of a whole program, do what the evaluator does with the syntax tree.
-/

namespace Lox

open IdealM (Does)

variable {call : Val → List Val → EvalM Val} {n : Nat}

/-- The code of a statement ends with the variables that are in scope after it. -/
def Stmt.Executes (call : Val → List Val → EvalM Val) (n : Nat) (s : Stmt) : Prop :=
  ∀ ⦃F : Scene⦄ ⦃inside : Bool⦄ ⦃own : Bindings⦄ ⦃lines : List Line⦄ ⦃ip : Nat⦄ ⦃σ : Store⦄ ⦃i : Ideal⦄,
    s.Codes F.origins F.listing.constants (F.scope inside own) lines → F.Code ip lines → F.At ip σ own [] i →
      i.Comes n (F.Continues (ip + Code.size lines) fun own' =>
          own <:+ own' ∧ (F.scope inside own).after s = F.scope inside own')
        (s.exec call n inside (own ++ F.bindings) σ)

def Stmt.ExecutesAll (call : Val → List Val → EvalM Val) (n : Nat) (ss : List Stmt) : Prop :=
  ∀ ⦃F : Scene⦄ ⦃inside : Bool⦄ ⦃own : Bindings⦄ ⦃lines : List Line⦄ ⦃ip : Nat⦄ ⦃σ : Store⦄ ⦃i : Ideal⦄ ⦃env : Env⦄,
    Stmt.CodesAll F.origins F.listing.constants (F.scope inside own) ss lines env → F.Code ip lines →
      F.At ip σ own [] i →
        i.Comes n (F.Continues (ip + Code.size lines) fun own' => own <:+ own' ∧ env = F.scope inside own')
          (Stmt.execAll call n inside (own ++ F.bindings) ss σ)

@[simp] theorem Code.size_mark (k : Nat) (lines : List Line) : Code.size (.mark k :: lines) = Code.size lines :=
  Nat.zero_add _

namespace Scene

theorem Code.cast {F : Scene} {lines : List Line} {ip ip' : Nat} (h : F.Code ip lines) (hip : ip = ip') :
    F.Code ip' lines :=
  hip ▸ h

variable {α : Type} {F : Scene} {inside : Bool} {own own' : Bindings} {lines a : List Line} {b : Option (List Line)}
  {ip last back : Nat} {v : Val} {vs : List Val} {σ : Store} {i : Ideal} {K : Bindings → Prop}
  {P : α → Store → Ideal → Prop} {e : Expr} {s : Stmt} {x : Option Expr}

theorem At.continues (h : F.At ip σ own [] i) (hK : K own) :
    i.Comes n (F.Continues ip K) (.ok (.onward (own ++ F.bindings)) σ) :=
  .done (k := 0) rfl ⟨own, rfl, hK, h⟩

theorem eq_of_after (hs : s.declares = none)
    (h : own <:+ own' ∧ (F.scope inside own).after s = F.scope inside own') : own' = own := by
  obtain ⟨hsuffix, hscope⟩ := h
  rw [Env.after, hs] at hscope
  exact (hsuffix.eq_of_length (length_of_scope hscope)).symm

/-- The branch on a condition, where the value of the condition is still to be dropped if it does not hold. -/
theorem At.branch {d : Nat} {f : Bool → EvalM α} (h : F.At ip σ own [] i) (he : e.Evaluates call n)
    (hcodes : e.Codes F.origins F.listing.constants (F.scope inside own) a)
    (hcode : F.Code ip (a ++ [.instr .jumpIfFalse (.short d), .instr .pop .none]))
    (htrue : ∀ σ' j, F.At (ip + Lox.Code.size a + 4) σ' own [] j → j.Comes n P (f true σ'))
    (hfalse : ∀ v σ' j, F.At (ip + Lox.Code.size a + 3 + d) σ' own ([] ++ [v]) j → j.Comes n P (f false σ')) :
    i.Comes n P ((e.test call (own ++ F.bindings) >>= f) σ) := by
  obtain ⟨hvalue, hjump⟩ := hcode.split
  unfold Expr.test
  rw [bind_assoc]
  refine (he hcodes hvalue h).bind fun v σ' j hj => ?_
  show j.Comes n P (f (!v.isFalsey) σ')
  refine hj.jumpIfFalse hjump (fun hv k hk => ?_) fun hv k hk => ?_
  · rw [hv]
    exact hfalse v σ' k hk
  · rw [hv]
    exact hk.drop hjump.next fun l hl => htrue σ' l hl

theorem size_conditionCode (b : Option (List Line)) (past : Nat) :
    Lox.Code.size (conditionCode b past) = conditionSize b := by
  cases b with
  | none => rfl
  | some a => simp [conditionCode, conditionSize, Line.size, Operand.size]

/-- The condition of a loop, if it has one. -/
theorem At.condition {past : Nat} (h : F.At ip σ own [] i) (hx : ∀ e ∈ x, e.Evaluates call n)
    (hcodes : Expr.CodesIf F.origins F.listing.constants (F.scope inside own) x b)
    (hcode : F.Code ip (conditionCode b past))
    (hexit : F.Code (ip + conditionSize b + past) (if b.isSome then [.instr .pop .none] else [])) :
    i.Comes n (fun c σ' j => F.At (ip + conditionSize b + if c then 0 else
        past + Lox.Code.size (if b.isSome then [.instr .pop .none] else [])) σ' own [] j)
      ((x.getD .true_).test call (own ++ F.bindings) σ) := by
  cases hcodes with
  | none => exact .done (k := 0) rfl h
  | @some e a ha =>
    rw [← bind_pure (Expr.test call (own ++ F.bindings) _ : EvalM Bool)]
    refine h.branch (hx _ rfl) ha hcode (fun σ' j hj => .pure (hj.cast rfl)) fun v σ' j hj => ?_
    have hj : F.At (ip + conditionSize (some a) + past) σ' own ([] ++ [v]) j := hj.cast (by
      rw [conditionSize]
      omega)
    exact hj.drop hexit fun k hk => .pure hk

/-- A loop whose turns end before the jump back to its head. -/
theorem At.turns {test : EvalM Bool} {turn : EvalM Sequel} {enter exit m : Nat} (h : F.At ip σ own [] i)
    (htest : ∀ σ j, F.At ip σ own [] j →
      j.Comes n (fun c σ' k => F.At (enter + if c then 0 else exit) σ' own [] k) (test σ))
    (hturn : ∀ σ j, F.At enter σ own [] j → j.Comes n (F.Continues last (· = own)) (turn σ))
    (hcode : F.Code last (.instr .loop (.short back) :: lines)) (hback : last + 3 - back = ip) (hm : m ≤ n) :
    i.Comes m (F.Continues (enter + exit) (· = own)) (EvalM.loop (own ++ F.bindings) test turn m σ) := by
  induction m generalizing σ i with
  | zero => exact .timeout (k := 0) rfl (Nat.le_refl 0)
  | succ m ih =>
    unfold EvalM.loop
    refine ((htest σ i h).weaken hm).bind fun c σ' j hj => ?_
    cases c with
    | false => exact hj.continues rfl
    | true =>
      refine Scene.andThen ((hturn σ' j hj).weaken hm) fun own' σ'' k hK hk => ?_
      obtain rfl : own' = own := hK
      exact hk.jumpBack hcode hback fun l hl => ih hl (Nat.le_of_succ_le hm)

/-- The parts of a loop without an increment, where it turns. -/
theorem Code.turning {d : List Line} (h : F.Code ip (loopCode b none d)) : F.Code (ip + conditionSize b) d ∧
    F.Code (ip + conditionSize b + Lox.Code.size d)
      [.instr .loop (.short (conditionSize b + Lox.Code.size d + 3))] := by
  obtain ⟨hturn, hloop⟩ := h.split.1.split
  obtain ⟨-, hbody⟩ := hturn.split
  simp only [incrementCode, List.append_nil, Lox.Code.size_append, size_conditionCode] at hloop hbody
  exact ⟨hbody, hloop.cast (Nat.add_assoc ..).symm⟩

/-- The parts of a loop with an increment, which comes before the body. -/
theorem Code.incrementing {c d : List Line} (h : F.Code ip (loopCode b (some c) d)) :
    F.Code (ip + conditionSize b) [.instr .jump (.short (Lox.Code.size c + 4))] ∧
    F.Code (ip + conditionSize b + 3) (c ++
      [.instr .pop .none, .instr .loop (.short (conditionSize b + Lox.Code.size c + 7))]) ∧
    F.Code (ip + conditionSize b + 3 + Lox.Code.size c + 4) (d ++
      [.instr .loop (.short (Lox.Code.size c + 4 + Lox.Code.size d + 3))]) := by
  have hloop := h.split.1
  rw [List.append_assoc] at hloop
  obtain ⟨hfirst, hturn⟩ := hloop.split
  obtain ⟨hjump, hincrement⟩ :=
    split (a := [.instr .jump (.short (Lox.Code.size c + 4))]) (hfirst.split.2)
  simp only [incrementCode, Lox.Code.size_append, Lox.Code.size_cons, Lox.Code.size_nil, Line.size, Operand.size,
    size_conditionCode] at hjump hincrement hturn
  exact ⟨hjump, hincrement, hturn.cast (by omega)⟩

theorem At.loop {turn : EvalM Sequel} {c : Option (List Line)} {d : List Line} (h : F.At ip σ own [] i)
    (hx : ∀ e ∈ x, e.Evaluates call n)
    (hcodes : Expr.CodesIf F.origins F.listing.constants (F.scope inside own) x b) (hcode : F.Code ip (loopCode b c d))
    (hturn : ∀ σ j, F.At (ip + conditionSize b) σ own [] j → j.Comes n (F.Continues last (· = own)) (turn σ))
    (hlast : F.Code last (.instr .loop (.short back) :: lines)) (hback : last + 3 - back = ip) :
    i.Comes n (F.Continues (ip + Lox.Code.size (loopCode b c d)) (· = own))
      (EvalM.loop (own ++ F.bindings) ((x.getD .true_).test call (own ++ F.bindings)) turn n σ) := by
  unfold loopCode at hcode ⊢
  dsimp only at hcode ⊢
  obtain ⟨hloop, hexit⟩ := hcode.split
  obtain ⟨htest, -⟩ := hloop.split.1.split.1.split
  simp only [Lox.Code.size_append, Lox.Code.size_cons, Lox.Code.size_nil, Line.size, Operand.size,
    size_conditionCode] at hexit ⊢
  rw [show ip + (conditionSize b + Lox.Code.size (incrementCode c (conditionSize b)) + Lox.Code.size d +
    (1 + 2 + 0)) = ip + conditionSize b + (Lox.Code.size (incrementCode c (conditionSize b)) + Lox.Code.size d + 3)
    by omega] at hexit
  have hturns := h.turns (fun σ j hj => hj.condition hx hcodes htest hexit) hturn hlast hback (Nat.le_refl n)
  rwa [show ip + (conditionSize b + Lox.Code.size (incrementCode c (conditionSize b)) + Lox.Code.size d +
    (1 + 2 + 0) + Lox.Code.size (if b.isSome then [.instr .pop .none] else [])) = ip + conditionSize b +
    (Lox.Code.size (incrementCode c (conditionSize b)) + Lox.Code.size d + 3 +
      Lox.Code.size (if b.isSome then [.instr .pop .none] else [])) by omega]

theorem settle {q : EStateM.Result Halt Store Sequel} (h : i.Comes n (F.Continues ip (· = own)) q)
    (hs : s.declares = none) : i.Comes n (F.Continues ip fun own' =>
      own <:+ own' ∧ (F.scope inside own).after s = F.scope inside own') q := by
  refine Scene.onward h fun own' σ j hK hat => hat.continues ?_
  obtain rfl : own' = own := hK
  exact ⟨List.suffix_refl _, by rw [Env.after, hs]⟩

end Scene

theorem Stmt.Executes.alone {F : Scene} {inside : Bool} {own : Bindings} {lines : List Line} {ip : Nat} {σ : Store}
    {i : Ideal} {s : Stmt} (h : s.Executes call n) (hs : s.declares = none)
    (hcodes : s.Codes F.origins F.listing.constants (F.scope inside own) lines) (hcode : F.Code ip lines)
    (hat : F.At ip σ own [] i) :
    i.Comes n (F.Continues (ip + Code.size lines) (· = own)) (s.exec call n inside (own ++ F.bindings) σ) :=
  Scene.onward (h hcodes hcode hat) fun _ _ _ hK hat => hat.continues (Scene.eq_of_after hs hK)

namespace Scene

variable {F : Scene} {inside : Bool} {own : Bindings} {d : List Line} {b c : Option (List Line)} {ip : Nat}
  {σ : Store} {i : Ideal} {condition increment : Option Expr} {body : Stmt}

theorem newest_append (F : Scene) (inside : Bool) (new own : Bindings) :
    (F.scope true (new ++ own)).newest - (F.scope inside own).newest = new.length := by
  rw [scope_newest, scope_newest, List.length_append, Nat.add_sub_cancel]

/-- A loop with its increment, if it has one, at the end of each turn. -/
theorem At.stepping (h : F.At ip σ own [] i) (hcondition : ∀ e ∈ condition, e.Evaluates call n)
    (hincrement : ∀ e ∈ increment, e.Evaluates call n) (hbody : body.Executes call n) (hnone : body.declares = none)
    (hb : Expr.CodesIf F.origins F.listing.constants (F.scope true own) condition b)
    (hc : Expr.CodesIf F.origins F.listing.constants (F.scope true own) increment c)
    (hd : body.Codes F.origins F.listing.constants (F.scope true own) d) (hcode : F.Code ip (loopCode b c d)) :
    i.Comes n (F.Continues (ip + Lox.Code.size (loopCode b c d)) (· = own))
      (EvalM.loop (own ++ F.bindings) ((condition.getD .true_).test call (own ++ F.bindings))
        (EvalM.andThen (body.exec call n true (own ++ F.bindings)) fun innermost => do
          let _ ← (increment.getD .nil).eval call innermost
          return .onward innermost) n σ) := by
  cases hc with
  | none =>
    obtain ⟨hturn, hback⟩ := hcode.turning
    refine h.loop hcondition hb hcode (fun σ' j hj => ?_) hback (by omega)
    refine Scene.andThen (hbody.alone hnone hd hturn hj) fun own' σ'' k hK hk => ?_
    obtain rfl : own' = own := hK
    exact hk.continues rfl
  | some he =>
    obtain ⟨hjump, hstep, hturn⟩ := hcode.incrementing
    obtain ⟨hvalue, hpop⟩ := hstep.split
    obtain ⟨hturn, hback⟩ := hturn.split
    refine h.loop hcondition hb hcode (fun σ' j hj => hj.jump hjump fun k hk => ?_) hpop.next
      (by simp only [Operand.size]; omega)
    refine Scene.andThen (hbody.alone hnone hd hturn (hk.cast (by omega))) fun own' σ'' l hK hl => ?_
    obtain rfl : own' = own := hK
    refine (hl.jumpBack hback (show _ = ip + conditionSize b + 3 by omega) fun m hm => ?_).weaken (Nat.le_succ n)
    refine (hincrement _ rfl he hvalue hm).bind fun v σ''' q hq => hq.drop hpop fun r hr => ?_
    exact hr.continues rfl

end Scene

section

variable {e condition : Expr} {then_ else_ initializer body : Stmt}

theorem Stmt.executes_skip : Stmt.Executes call n .skip := by
  intro F inside own lines ip σ i hcodes hcode h
  cases hcodes
  exact h.continues ⟨List.suffix_refl _, rfl⟩

theorem Stmt.executes_expression (he : e.Evaluates call n) : Stmt.Executes call n (.expression e) := by
  intro F inside own lines ip σ i hcodes hcode h
  cases hcodes with
  | expression ha =>
    obtain ⟨hmarked, hpop⟩ := hcode.split
    rw [Code.size_append, ← Nat.add_assoc, Code.size_mark] at *
    refine (he ha hmarked.mark h).bind fun v σ' j hj => hj.drop hpop fun k hk => ?_
    exact hk.continues ⟨List.suffix_refl _, rfl⟩

theorem Stmt.executes_print (he : e.Evaluates call n) : Stmt.Executes call n (.print e) := by
  intro F inside own lines ip σ i hcodes hcode h
  cases hcodes with
  | print ha =>
    obtain ⟨hmarked, hprint⟩ := hcode.split
    rw [Code.size_mark] at hprint
    rw [Code.size_append, ← Nat.add_assoc, Code.size_mark]
    refine (he ha hmarked.mark h).bind fun v σ' j hj => ?_
    refine Ideal.Comes.bind (hj.turn hprint nofun fun _ hs _ _ => hs.print) fun _ σ'' k hk => ?_
    exact Scene.At.continues hk ⟨List.suffix_refl _, rfl⟩

theorem Stmt.executes_return {value : Option Expr} (he : (value.getD .nil).Evaluates call n) :
    Stmt.Executes call n (.return_ value) := by
  intro F inside own lines ip σ i hcodes hcode h
  cases hcodes with
  | return_ hkind ha =>
    obtain ⟨hmarked, hreturn⟩ := hcode.split
    rw [Code.size_mark] at hreturn
    refine (he ha hmarked.mark h).bind fun v σ' j hj => ?_
    refine hj.leave hreturn (F.called.resolve_left hkind) fun links k hleft hsound => ?_
    exact .pure ⟨⟨links, hleft⟩, hsound⟩

theorem Stmt.executes_if (he : condition.Evaluates call n) (ihthen : then_.Executes call n)
    (ihelse : else_.Executes call n) : Stmt.Executes call n (.if_ condition then_ else_) := by
  intro F inside own lines ip σ i hcodes hcode h
  cases hcodes with
  | @if_ _ _ _ _ _ _ a b c _ ha hb hthen hc helse =>
    obtain ⟨hjumped, hcelse⟩ := hcode.split
    obtain ⟨hbranch, hjump⟩ := hjumped.split
    obtain ⟨htest, hcthen⟩ := hbranch.split
    simp only [Code.size_append, Code.size_cons, Code.size_nil, Line.size, Operand.size] at hcelse hjump hcthen ⊢
    refine Scene.settle ?_ rfl
    refine h.branch he ha (Scene.Code.mark htest) (fun σ' j hj => ?_) fun v σ' j hj => ?_
    · refine Scene.onward (ihthen.alone hthen hb hcthen (hj.cast (by omega))) fun own' σ'' k hK hk => ?_
      exact (hk.cast (by omega)).jump hjump fun l hl => (hl.cast (by omega)).continues hK
    · refine Scene.At.drop (hj.cast ?_) hjump.next fun k hk => ?_
      · simp only [Operand.size]
        omega
      refine Scene.onward (ihelse.alone helse hc hcelse (hk.cast ?_)) fun own' σ'' l hK hl => ?_
      · simp only [Operand.size]
        omega
      · exact (hl.cast (by omega)).continues hK

theorem Stmt.executes_while (he : condition.Evaluates call n) (ih : body.Executes call n) :
    Stmt.Executes call n (.while_ condition body) := by
  intro F inside own lines ip σ i hcodes hcode h
  cases hcodes with
  | while_ ha hb hnone =>
    refine Scene.settle ?_ rfl
    rw [Code.size_mark]
    have hcode := Scene.Code.mark hcode
    obtain ⟨hbody, hback⟩ := hcode.turning
    exact h.loop (x := some condition) (by rintro e ⟨⟩; exact he) (.some ha) hcode
      (fun σ' j hj => ih.alone hnone hb hbody hj) hback (by omega)

theorem Stmt.executes_for {increment : Option Expr} {condition : Option Expr} (ihinit : initializer.Executes call n)
    (hcondition : ∀ e ∈ condition, e.Evaluates call n) (hincrement : ∀ e ∈ increment, e.Evaluates call n)
    (ihbody : body.Executes call n) : Stmt.Executes call n (.for_ initializer condition increment body) := by
  intro F inside own lines ip σ i hcodes hcode h
  cases hcodes with
  | @for_ _ _ _ _ _ _ _ a d drop b c _ ha hb hc hd hnone hdrop =>
    refine Scene.settle ?_ rfl
    obtain ⟨hmarked, hcdrop⟩ := hcode.split
    obtain ⟨hinit, hloop⟩ := hmarked.split
    simp only [Code.size_append, Code.size_mark, ← Nat.add_assoc] at hcdrop hloop ⊢
    refine Scene.andThen (ihinit ha hinit.mark h) fun own' σ' j hK hj => ?_
    obtain ⟨⟨new, rfl⟩, hscope⟩ := hK
    rw [show (F.scope inside own).enter.after initializer = F.scope true (new ++ own) from hscope] at hb hc hd hdrop
    rw [Scene.newest_append] at hdrop
    have hturns := hj.stepping hcondition hincrement ihbody hnone hb hc hd hloop
    refine Scene.andThen hturns fun own' σ'' k hK hk => ?_
    obtain rfl : own' = new ++ own := hK
    exact hk.sheds hcdrop hdrop fun l hl => hl.continues rfl

theorem Stmt.executes_block {body : List Stmt} (ih : Stmt.ExecutesAll call n body) :
    Stmt.Executes call n (.block body) := by
  intro F inside own lines ip σ i hcodes hcode h
  cases hcodes with
  | @block _ _ _ env' _ a drop _ ha hdrop =>
    refine Scene.settle ?_ rfl
    obtain ⟨hmarked, hcdrop⟩ := hcode.split
    simp only [Code.size_append, Code.size_mark, ← Nat.add_assoc] at hcdrop ⊢
    refine Scene.andThen (ih ha hmarked.mark h) fun own' σ' j hK hj => ?_
    obtain ⟨⟨new, rfl⟩, rfl⟩ := hK
    rw [Scene.newest_append] at hdrop
    exact hj.sheds hcdrop hdrop fun k hk => hk.continues rfl

theorem Stmt.executes_var {name : Bytes} {value : Option Expr} (he : (value.getD .nil).Evaluates call n) :
    Stmt.Executes call n (.var_ name value) := by
  intro F inside own lines ip σ i hcodes hcode h
  cases hcodes with
  | var_ ha hdefines =>
    obtain ⟨hmarked, hdefine⟩ := hcode.split
    simp only [Code.size_append, Code.size_mark, ← Nat.add_assoc] at hdefine ⊢
    refine (he ha hmarked.mark h).bind fun v σ' j hj => ?_
    exact hj.define hdefines hdefine

theorem Stmt.exec_fun_inside (f : Lambda Stmt) (own outer : Bindings) (σ : Store) :
    (Stmt.fun_ f).exec call n true (own ++ outer) σ = .ok (.onward ((f.name, σ.cells.length) :: own ++ outer)) { σ with
      cells := σ.cells ++ [.object σ.callables.length]
      callables := σ.callables ++
        [.procedure ⟨some f.name, f.parameters, f.body, (f.name, σ.cells.length) :: own ++ outer⟩] } :=
  rfl

theorem Stmt.exec_fun_outside (f : Lambda Stmt) (bindings : Bindings) (σ : Store) :
    (Stmt.fun_ f).exec call n false bindings σ =
      EvalM.define false bindings f.name (.object σ.callables.length) { σ with
        callables := σ.callables ++ [.procedure ⟨some f.name, f.parameters, f.body, bindings⟩] } :=
  rfl

theorem Stmt.executes_fun (f : Lambda Stmt) : Stmt.Executes call n (.fun_ f) := by
  intro F inside own lines ip σ i hcodes hcode h
  have hlength : i.objects.length = σ.callables.length := by
    obtain ⟨⟨links, hs⟩, -⟩ := h
    exact hs.enacts.objects.length_eq
  cases hcodes with
  | @fun_ _ _ _ env' _ g a b k _ hk harity hname ha hlast hdefines =>
    have hcode := Scene.Code.mark hcode
    have hsize : ip + (Line.instr .closure (.closure k g.origins)).size = ip + 1 + (Operand.closure k g.origins).size :=
      (Nat.add_assoc ..).symm
    rw [Code.size_mark, Code.size_cons, ← Nat.add_assoc, hsize]
    cases hdefines with
    | inside hinside =>
      obtain rfl : inside = true := hinside
      rw [exec_fun_inside, ← hlength, Code.size_nil, Nat.add_zero]
      refine h.pass hcode nofun (fun links hs hb hfits => ?_) fun j hj => hj.continues ⟨List.suffix_cons .., rfl⟩
      obtain ⟨links', hready⟩ := ((hs.moved (ip + 1 + 1)).push (.object i.objects.length)).declare f.name
      exact hs.makeClosure hready hk harity hname ⟨a, env', ha, hlast⟩ hfits hb
    | outside hinside hd =>
      obtain rfl : inside = false := hinside
      rw [exec_fun_outside, ← hlength]
      refine h.pass hcode nofun (fun links hs hb hfits => ?_) fun j hj =>
        hj.define (.outside rfl hd) (hcode.next.cast hsize)
      exact hs.makeClosure ((hs.moved (ip + 1 + 1)).push _) hk harity hname ⟨a, env', ha, hlast⟩ hfits hb

end

mutual

theorem Stmt.executes (hcall : CallsRun call n) (s : Stmt) : s.Executes call n := by
  cases s with
  | skip => exact Stmt.executes_skip
  | expression e => exact Stmt.executes_expression (e.evaluates hcall)
  | print e => exact Stmt.executes_print (e.evaluates hcall)
  | return_ value => exact Stmt.executes_return (Expr.evaluates hcall _)
  | if_ condition then_ else_ =>
    exact Stmt.executes_if (condition.evaluates hcall) (then_.executes hcall) (else_.executes hcall)
  | while_ condition body => exact Stmt.executes_while (condition.evaluates hcall) (body.executes hcall)
  | for_ initializer condition increment body =>
    exact Stmt.executes_for (initializer.executes hcall) (fun e _ => e.evaluates hcall)
      (fun e _ => e.evaluates hcall) (body.executes hcall)
  | block body => exact Stmt.executes_block (Stmt.executesAll hcall body)
  | var_ name value => exact Stmt.executes_var (Expr.evaluates hcall _)
  | fun_ f => exact Stmt.executes_fun f
  | class_ name superclass methods =>
    intro F inside own lines ip σ i hcodes
    cases hcodes

theorem Stmt.executesAll (hcall : CallsRun call n) (ss : List Stmt) : Stmt.ExecutesAll call n ss := by
  cases ss with
  | nil =>
    intro F inside own lines ip σ i env hcodes hcode h
    cases hcodes
    exact h.continues ⟨List.suffix_refl _, rfl⟩
  | cons s ss =>
    intro F inside own lines ip σ i env hcodes hcode h
    cases hcodes with
    | cons ha hb =>
      obtain ⟨hfirst, hrest⟩ := hcode.split
      rw [Code.size_append, ← Nat.add_assoc]
      refine Scene.andThen (s.executes hcall ha hfirst h) fun own' σ' j hK hj => ?_
      obtain ⟨hsuffix, hscope⟩ := hK
      rw [hscope] at hb
      refine Scene.onward (Stmt.executesAll hcall ss hb hrest hj) fun own'' σ'' k hK hk => hk.continues ?_
      exact ⟨hsuffix.trans hK.1, hK.2⟩

end

variable {a : Nat} {args : List Val} {σ : Store} {p : Procedure}

theorem callWithin_none (hp : σ.callables[a]? = none) :
    callWithin (n + 1) (.object a) args σ = .error (.problem .notCallable) σ := by
  unfold callWithin
  dsimp only
  rw [runBind]
  simp only [runGet, hp]
  rfl

theorem callWithin_native {g : Native} (hp : σ.callables[a]? = some (.native g)) :
    callWithin (n + 1) (.object a) args σ = EvalM.callNative g args.length σ := by
  unfold callWithin
  dsimp only
  rw [runBind]
  simp only [runGet, hp]

theorem callWithin_procedure (hp : σ.callables[a]? = some (.procedure p)) :
    callWithin (n + 1) (.object a) args σ = p.answer (callWithin n) n args σ := by
  unfold callWithin
  dsimp only
  rw [runBind]
  simp only [runGet, hp]

theorem Procedure.answer_arity (h : args.length ≠ p.parameters.length) :
    p.answer call n args σ = .error (.problem (.arity p.parameters.length args.length)) σ := by
  unfold answer
  rw [if_pos h]
  rfl

theorem Procedure.answer_eq {cells : List Nat} {τ : Store} (h : args.length = p.parameters.length)
    (hcells : args.mapM EvalM.allocate σ = .ok cells τ) :
    p.answer call n args σ = (do
      let s ← Stmt.execAll call n p.name.isSome ((p.parameters.zip cells).reverse ++ p.bindings) p.body
      return s.value : EvalM Val) τ := by
  unfold answer
  rw [if_neg (not_not.mpr h)]
  show ((args.mapM EvalM.allocate) >>= _ : EvalM Val) σ = _
  rw [runBind]
  simp only [hcells]

namespace Scene

variable {F : Scene} {own : Bindings} {ip : Nat} {vs : List Val} {links : Links} {i : Ideal} {names : List Bytes}

/-- Arguments become parameters. -/
theorem Shows.declareAll (h : F.Shows ip σ own vs links i) (hlength : vs.length = names.length) :
    ∃ cells links', vs.mapM EvalM.allocate σ = .ok cells { σ with cells := σ.cells ++ vs } ∧
      cells.length = names.length ∧
      F.Shows ip { σ with cells := σ.cells ++ vs } ((names.zip cells).reverse ++ own) [] links' i := by
  induction vs generalizing σ own links names with
  | nil =>
    obtain rfl := List.eq_nil_of_length_eq_zero hlength.symm
    exact ⟨[], links, by rw [List.append_nil]; rfl, rfl, by rwa [List.append_nil]⟩
  | cons v vs ih =>
    cases names with
    | nil => cases hlength
    | cons name names =>
      obtain ⟨links', h'⟩ := h.declare name
      obtain ⟨cells, links'', hcells, hcount, h''⟩ := ih h' (Nat.succ.inj hlength)
      refine ⟨σ.cells.length :: cells, links'', ?_, congrArg (· + 1) hcount, ?_⟩
      · rw [List.mapM_cons, runBind]
        show (vs.mapM EvalM.allocate >>= fun cells => pure (σ.cells.length :: cells) : EvalM (List Nat))
          { σ with cells := σ.cells ++ [v] } = _
        rw [runBind, hcells, List.append_assoc]
        rfl
      · rw [List.append_assoc] at h''
        rw [List.zip_cons_cons, List.reverse_cons, List.append_assoc]
        exact h''

theorem scope_parameters (F : Scene) (inside : Bool) {cells : List Nat} (hlength : cells.length = names.length) :
    F.scope inside ((names.zip cells).reverse ++ []) = ⟨F.kind, inside, names.reverse.map .named⟩ :: F.env := by
  have hnames : (names.zip cells).map (fun b => VarName.named b.1) = names.map .named := by
    conv_rhs => rw [← List.map_fst_zip (Nat.le_of_eq hlength.symm), List.map_map]
    rfl
  rw [scope, List.append_nil, List.map_reverse, hnames, List.map_reverse]

/-- A function that begins comes to its answer. -/
theorem Shows.answers {args : List Val} (hbodies : ∀ ss, Stmt.ExecutesAll call n ss)
    (hbindings : F.bindings = p.bindings)
    (hbody : F.listing.CodesBody F.outer (⟨F.kind, p.name.isSome, p.parameters.reverse.map .named⟩ :: F.env) p.body)
    (hrest : F.rest ≠ []) (hcount : args.length = p.parameters.length) (h : F.Shows 0 σ [] args links i)
    (hsound : ∃ Γ, i.Sound Γ) :
    i.Comes n (fun v σ' j => (∃ links', F.Left v σ' links' j) ∧ ∃ Γ, j.Sound Γ) (p.answer call n args σ) := by
  obtain ⟨cells, links', hcells, hlength, hready⟩ := h.declareAll hcount
  rw [Procedure.answer_eq hcount hcells, ← hbindings]
  obtain ⟨lines, env', hcodes, hend⟩ := hbody
  rw [← scope_parameters F p.name.isSome hlength] at hcodes
  have hcode : F.Code 0 (lines ++ PlanM.returnCode .function) := ⟨[], [], by rw [List.append_nil]; exact hend, rfl⟩
  obtain ⟨hlines, hreturn⟩ := hcode.split
  have hruns := hbodies p.body hcodes hlines ⟨⟨links', hready⟩, hsound⟩
  rw [List.append_nil] at hruns
  refine hruns.bind fun s σ' j hj => ?_
  cases s with
  | onward bindings =>
    obtain ⟨own, -, -, hat⟩ := hj
    refine (hat.turn (Q := F.Pushes (0 + Lox.Code.size lines + 1) own []) hreturn nofun
      fun _ hs _ _ => hs.pushes .nil).further fun v σ'' k hk => ?_
    exact At.leave hk hreturn.next hrest fun links'' l hleft hsound => .pure ⟨⟨links'', hleft⟩, hsound⟩
  | return_ v => exact .pure hj

/-- A call of a function from this one. -/
def inner (F : Scene) (own : Bindings) (ip : Nat) (vs : List Val) {a : Nat} {r : Routine} {g : Listing Item}
    {χ : List (List Origin)} {env : Env} {objects : List (Obj Routine)} {links : Links} (kind : FunctionKind)
    (p : Procedure) (made : Item.Made (.function g) (.function r.prototype))
    (running : objects[a]? = some (.closure r)) (binds : r.Binds links (g.origins :: χ) env p.bindings) : Scene where
  closure := a
  routine := r
  listing := g
  kind := kind
  outer := χ
  env := env
  bindings := p.bindings
  below := F.seats own ++ vs.map .value
  rest := ⟨F.closure, ip, F.below.length⟩ :: F.rest
  objects := objects
  links := links
  made := made
  running := running
  binds := binds
  called := .inr (List.cons_ne_nil _ _)

section

variable {a : Nat} {args : List Val} {r : Routine} {g : Listing Item} {χ : List (List Origin)} {env : Env}
  {objects : List (Obj Routine)} {kind : FunctionKind} {made : Item.Made (.function g) (.function r.prototype)}
  {running : objects[a]? = some (.closure r)} {binds : r.Binds links (g.origins :: χ) env p.bindings}

theorem Shows.enter (h : F.Shows ip σ own (vs ++ .object a :: args) links i) (hobjects : i.objects = objects) :
    (F.inner own ip vs kind p made running binds).Shows 0 σ [] args links
      { i with frames := ⟨a, 0, (F.seats own ++ vs.map Seat.value).length⟩ :: i.frames } where
  enacts := by
    have hseats : (F.inner own ip vs kind p made running binds).seats [] ++ args.map .value =
        F.seats own ++ (vs ++ .object a :: args).map .value := by
      simp [seats, inner]
    rw [hseats]
    exact { h.enacts with }
  frames := congrArg _ h.frames
  objects := show objects <+: i.objects from hobjects ▸ List.prefix_refl _
  links := .refl links

theorem Left.resume {v : Val} {τ : Store} {links' : Links} {j : Ideal}
    (hleft : (F.inner own ip vs kind p made running binds).Left v τ links' j)
    (h : F.Shows ip σ own (vs ++ .object a :: args) links i) (hobjects : i.objects = objects) :
    F.Shows ip τ own (vs ++ [v]) links' j where
  enacts := by
    rw [List.map_append, ← List.append_assoc]
    exact hleft.enacts
  frames := hleft.frames
  objects := (hobjects ▸ h.objects).trans hleft.objects
  links := h.links.trans hleft.links

end

theorem At.callProcedure {lines : List Line} (hbodies : ∀ ss, Stmt.ExecutesAll call n ss)
    (h : F.At ip σ own (vs ++ .object a :: args) i) (hcode : F.Code ip (.instr .call (.byte args.length) :: lines))
    (hp : σ.callables[a]? = some (.procedure p)) :
    i.Comes (n + 1) (fun v σ' j => F.At (ip + 2) σ' own (vs ++ [v]) j) (p.answer call n args σ) := by
  obtain ⟨links, hshows⟩ := h.1
  obtain ⟨o, ho, hstands⟩ := forall₂_getElem? hshows.enacts.objects hp
  cases hstands with
  | @procedure r _ g χ env kind made name arity hbody binds =>
    have harity : r.prototype.arity = p.parameters.length := by
      cases made with
      | function harity => exact harity.trans arity
    by_cases hcount : args.length = p.parameters.length
    · refine h.idle (Q := fun _ j _ _ => j = { (i.moved (ip + 1)).moved (ip + 1 + 1) with
        frames := ⟨a, 0, (F.seats own ++ vs.map Seat.value).length⟩ :: ((i.moved (ip + 1)).moved (ip + 1 + 1)).frames })
        hcode nofun (fun links' hs hb hfits => show Does _ _ (.ok () σ) _ from ?_) fun j hj hsound => ?_
      · exact hs.callTop hfits hb (.callClosure ho ((hs.moved _).call ho (hcount.trans harity.symm)))
      · subst hj
        have hcaller := (hshows.moved (ip + 1)).moved (ip + 1 + 1)
        have hbegun : (F.inner own (ip + 1 + 1) vs kind p made ho binds).Shows 0 σ [] args links
          { (i.moved (ip + 1)).moved (ip + 1 + 1) with
            frames := ⟨a, 0, (F.seats own ++ vs.map Seat.value).length⟩ ::
              ((i.moved (ip + 1)).moved (ip + 1 + 1)).frames } := hcaller.enter rfl
        refine (hbegun.answers hbodies rfl hbody (List.cons_ne_nil _ _) hcount hsound).imp fun v σ' j hj => ?_
        obtain ⟨⟨links', hleft⟩, hsound⟩ := hj
        exact ⟨⟨links', hleft.resume hcaller rfl⟩, hsound⟩
    · rw [Procedure.answer_arity hcount]
      refine (h.turn (Q := F.Pushes (ip + 2) own vs) hcode nofun fun links' hs hb hfits => ?_)
      rw [← harity]
      exact hs.callTop hfits hb (.callClosure ho ((hs.moved _).call_arity ho (harity ▸ hcount)))

end Scene

theorem callWithin_other {f : Val} (hf : ∀ a, f ≠ .object a) :
    callWithin (n + 1) f args σ = .error (.problem .notCallable) σ := by
  unfold callWithin
  cases f with
  | object a => exact absurd rfl (hf a)
  | _ => rfl

/-- Calls run, however many may be active. -/
theorem callsRun (n : Nat) : CallsRun (callWithin n) n := by
  induction n with
  | zero => exact fun _ _ _ _ _ _ _ _ _ _ _ => .timeout (k := 0) rfl (Nat.zero_le 0)
  | succ n ih =>
    intro F own lines ip vs args f σ i hcode h
    have hrefuse (hf : ∀ a, f = .object a → i.objects[a]? = none) :
        i.Comes (n + 1) (fun v σ' j => F.At (ip + 2) σ' own (vs ++ [v]) j) (.error (.problem .notCallable) σ) :=
      h.turn (Q := F.Pushes (ip + 2) own vs) hcode nofun fun _ hs hb hfits =>
        hs.callTop hfits hb ((hs.moved _).callOther hf _)
    obtain ⟨links, hshows⟩ := h.1
    cases f with
    | object a =>
      cases hp : σ.callables[a]? with
      | none =>
        rw [callWithin_none hp]
        refine hrefuse fun b hb => ?_
        cases hb
        rw [List.getElem?_eq_none_iff, hshows.enacts.objects.length_eq]
        exact List.getElem?_eq_none_iff.mp hp
      | some c =>
        cases c with
        | native g =>
          rw [callWithin_native hp]
          obtain ⟨o, ho, hstands⟩ := forall₂_getElem? hshows.enacts.objects hp
          cases hstands
          refine h.turn (Q := F.Pushes (ip + 2) own vs) hcode nofun fun _ hs hb hfits =>
            hs.callTop hfits hb (.callNative ho ((hs.moved _).callNative g))
        | procedure p =>
          rw [callWithin_procedure hp]
          exact h.callProcedure (Stmt.executesAll ih) hcode hp
    | _ =>
      rw [callWithin_other fun a ha => by cases ha]
      exact hrefuse fun a ha => by cases ha

section

variable {f : Listing Item} {p : Prototype} {body : List Stmt}

theorem Ideal.does_enter (maxFrames : Nat) (clock : Clock) (body : List Stmt) (hf : f.Script p) :
    Does (Ideal.new maxFrames clock) (IdealM.enter p) (.ok () (Store.new clock body)) fun _ i _ _ =>
      i = (Ideal.new maxFrames clock).launched p := by
  obtain ⟨harity, hcaptures⟩ := hf.prototype
  unfold IdealM.enter
  split
  · exact .stop
  · rw [hcaptures]
    have hclosure : ((Ideal.new maxFrames clock).launched p).objects[2]? = some (.closure ⟨p, []⟩) := rfl
    refine .step rfl (.step rfl (.step (IdealM.closureAt_eq hclosure) ?_))
    rw [if_neg (show ¬0 ≠ p.arity from fun hne => hne harity.symm)]
    refine .step rfl (show Does _ (IdealM.calleeSlot ([] : List Val).length >>= _) _ _ from
      .calleeSlot (S := []) (v := .object 2) rfl ?_)
    split
    · exact .overflow_bind
    · exact .of_eq rfl rfl

/-- The call of a script. -/
def Scene.script (made : Item.Made (.function f) (.function p)) (maxFrames : Nat) (clock : Clock) : Scene where
  closure := (Ideal.new maxFrames clock).objects.length
  routine := ⟨p, []⟩
  listing := f
  kind := .script
  outer := []
  env := []
  bindings := []
  below := []
  rest := []
  objects := ((Ideal.new maxFrames clock).launched p).objects
  links := fun _ => none
  made := made
  running := List.getElem?_concat_length
  binds := ⟨fun _ _ => rfl, nofun⟩
  called := .inl rfl

theorem Scene.Shows.script (maxFrames : Nat) (clock : Clock) (hf : f.Script p) (hname : f.name = none)
    (hbody : f.CodesBody [] [⟨.script, false, []⟩] body) :
    (Scene.script hf.made maxFrames clock).Shows 0 (Store.new clock body) [] [] (fun _ => none)
      ((Ideal.new maxFrames clock).launched p) where
  enacts := by
    constructor
    · exact .cons rfl .nil
    · rintro (_ | n) m c hn
      · cases hn
      · cases hn
    · nofun
    · nofun
    · exact fun n u => ⟨nofun, nofun⟩
    · exact .nil
    · nofun
    · nofun
    · have hscript : Callable.Stands (fun _ => none) (.closure ⟨p, []⟩) (.procedure ⟨none, [], body, []⟩) :=
        .procedure hf.made hname hf.arity hbody (Scene.script hf.made maxFrames clock).binds
      exact .cons (.native _) (.cons (.native _) (.cons hscript .nil))
    · rfl
    · rfl
    · rfl
  frames := rfl
  objects := List.prefix_refl _
  links := .refl _

theorem Ideal.script_comes (maxFrames : Nat) (clock : Clock) (hf : f.Script p) (hname : f.name = none)
    (hbody : f.CodesBody [] [⟨.script, false, []⟩] body) (n : Nat) :
    ((Ideal.new maxFrames clock).launched p).Comes n
      (fun _ σ i => ∃ j, IdealM.run 1 i = .ok false j ∧ j.printed = σ.printed) (evaluate n clock body) := by
  have hshows := Scene.Shows.script maxFrames clock hf hname hbody
  obtain ⟨lines, env', hcodes, hend⟩ := hbody
  have hcode : (Scene.script hf.made maxFrames clock).Code 0 (lines ++ PlanM.returnCode .function) :=
    ⟨[], [], by rw [List.append_nil]; exact hend, rfl⟩
  obtain ⟨hlines, hreturn⟩ := hcode.split
  have hat : (Scene.script hf.made maxFrames clock).At 0 (Store.new clock body) [] []
      ((Ideal.new maxFrames clock).launched p) := ⟨⟨_, hshows⟩, _, (Ideal.idle_new maxFrames clock).sound hf⟩
  have hcodes : Stmt.CodesAll (Scene.script hf.made maxFrames clock).origins
      (Scene.script hf.made maxFrames clock).listing.constants
      ((Scene.script hf.made maxFrames clock).scope false []) body lines env' := hcodes
  have hruns := Stmt.executesAll (callsRun n) body hcodes hlines hat
  refine hruns.further fun s σ i hi => ?_
  cases s with
  | onward bindings =>
    obtain ⟨own, -, -, hat⟩ := hi
    refine hat.pass hreturn nofun (fun _ hs _ _ => (hs.pushes .nil).map fun _ _ => id) fun j hj => ?_
    have hj : (Scene.script hf.made maxFrames clock).At _ σ own ([] ++ [.nil]) j := hj
    rcases hj.finish hreturn.next rfl with ⟨k, hstep, hprinted⟩ | ⟨e, k, hstep, he⟩
    · exact .done (k := 0) rfl ⟨k, by rw [IdealM.run_succ, hstep], hprinted⟩
    · exact .overflow (IdealM.run_error hstep) he
  | return_ v =>
    obtain ⟨⟨links, hleft⟩, Γ, -, g, rest, q, a, t, below, hrunning, -⟩ := hi
    have hframes : i.frames = [] := hleft.frames
    rw [hrunning.frames] at hframes
    cases hframes

theorem Ideal.interpret_ends {n fuel : Nat} (maxFrames : Nat) (clock : Clock) (hf : f.Script p)
    (hname : f.name = none)
    (hbody : f.CodesBody [] [⟨.script, false, []⟩] body) (hfuel : fuel ≤ n) : ∃ progress printed,
      Ideal.interpret maxFrames fuel clock p = some (progress, printed) ∧ (progress = .running ∨
        (∃ e, progress = .failed (.runtime e) ∧ e.IsOverflow) ∨ Ends (evaluate n clock body) progress printed) := by
  have hsafe := (Ideal.idle_new maxFrames clock).enter hf
  have hdoes := Ideal.does_enter maxFrames clock body hf
  unfold IdealM.Safe at hsafe
  unfold Does at hdoes
  unfold Ideal.interpret
  rw [runBind]
  cases henter : IdealM.enter p (Ideal.new maxFrames clock) with
  | error e i =>
    rw [henter] at hsafe hdoes
    cases e with
    | fault f => exact hsafe.elim
    | error e =>
      rcases hdoes with he | ⟨q, σ, hr, -⟩
      · exact ⟨_, _, rfl, .inr (.inl ⟨e, rfl, he⟩)⟩
      · cases hr
  | ok u i =>
    rw [henter] at hdoes
    obtain ⟨-, -, -, rfl⟩ := hdoes
    dsimp only
    have hcomes := Ideal.script_comes maxFrames clock hf hname hbody n
    generalize evaluate n clock body = r at hcomes ⊢
    have hrunning {j : Ideal} (h : IdealM.run fuel ((Ideal.new maxFrames clock).launched p) = .ok true j) :
        ∃ progress printed, Ideal.verdict ((do
          return if ← IdealM.run fuel then .running else .done : IdealM Progress)
            ((Ideal.new maxFrames clock).launched p)) = some (progress, printed) ∧ (progress = .running ∨
          (∃ e, progress = .failed (.runtime e) ∧ e.IsOverflow) ∨ Ends r progress printed) := by
      rw [runBind, h]
      exact ⟨.running, _, rfl, .inl rfl⟩
    cases hcomes with
    | @done s σ k i hrun hlast =>
      obtain ⟨j, hj, hprinted⟩ := hlast
      have hend : IdealM.run (k + 1) ((Ideal.new maxFrames clock).launched p) = .ok false j :=
        (IdealM.run_trans hrun).trans hj
      rcases IdealM.run_final (by rw [hend]; nofun) fuel with ⟨j, h⟩ | h
      · exact hrunning h
      · rw [runBind, h, hend]
        exact ⟨.done, _, rfl, .inr (.inr (hprinted ▸ .done))⟩
    | timeout hrun hn =>
      obtain ⟨j, h⟩ := IdealM.run_le hrun (Nat.le_trans hfuel hn)
      exact hrunning h
    | @problem q σ k i e hrun he hprinted =>
      rcases IdealM.run_final (by rw [hrun]; nofun) fuel with ⟨j, h⟩ | h
      · exact hrunning h
      · rw [runBind, h, hrun]
        exact ⟨_, _, rfl, .inr (.inr (hprinted ▸ .failed he))⟩
    | @overflow _ k i e hrun he =>
      rcases IdealM.run_final (by rw [hrun]; nofun) fuel with ⟨j, h⟩ | h
      · exact hrunning h
      · rw [runBind, h, hrun]
        exact ⟨_, _, rfl, .inr (.inl ⟨e, rfl, he⟩)⟩

end

/-- A program without classes does what the evaluator does with its syntax tree, on any new machine and with any clock:
when it has ended without a stack overflow, it has the same output, and the same error if it ended with one. -/
theorem Machine.interpret_evaluates {options : GcOptions} {n : Int} {clock : Clock} {m : Machine} {source : Bytes}
    {fuel bound : Nat} (hnew : Machine.new options n .standard clock = .ok m) (haccepted : (analyze source).2 = [])
    (hclasses : classesOf source = []) (hbound : fuel ≤ bound) :
    (finalState (EmbedM.interpret fuel source m)).heap.Exhausted ∨ ∃ body progress m',
      parse? (Token.scan source) = some body ∧ EmbedM.interpret fuel source m = .ok progress m' ∧
      (progress = .running ∨ (∃ e, progress = .failed (.runtime e) ∧ e.IsOverflow) ∨
        Ends (evaluate bound clock body) progress m'.printed) := by
  obtain ⟨body, f, p, hparse, hlisting, hdraft, hmade⟩ := analyze_accepted haccepted
  obtain ⟨hverified, harity, horigins⟩ := scriptListing_verified hlisting
  rw [classesOf, hparse] at hclasses
  obtain ⟨hname, hbody⟩ := scriptListing_codes hlisting (named_of_parse? hparse) hclasses
  have hf : f.Script p := ⟨hverified, harity, horigins, hmade⟩
  obtain ⟨progress, printed, hrun, hends⟩ :=
    Ideal.interpret_ends (framesFor n) clock hf hname hbody hbound
  have hanswer : Ideal.answer (framesFor n) fuel clock p (analyze source).2 = some (progress, printed) := by
    rw [haccepted]
    exact hrun
  refine (interpret_new hnew hdraft fuel hanswer).imp_right ?_
  rintro ⟨m', hinterpret, hprinted, -⟩
  exact ⟨body, progress, m', hparse, hinterpret, hprinted ▸ hends⟩

/-- The output of a program that a new machine has done after so many instructions. -/
def Machine.outputWithin? (fuel : Nat) (source : Bytes) : Option (List Bytes) :=
  match Machine.new {} 2 .standard with
  | .ok m =>
    match EmbedM.interpret fuel source m with
    | .ok .done m' => if m'.heap.slots.size ≤ 2 ^ 32 then some m'.printed else none
    | _ => none
  | .error _ => none

theorem Machine.interpret_evaluates_captured : ∃ m m' body s σ, Machine.new {} 2 .standard = .ok m ∧
    EmbedM.interpret 20 "\x7b var a; fun f() \x7b a = true; \x7d f(); print a; \x7d" m = .ok .done m' ∧
    parse? (Token.scan "\x7b var a; fun f() \x7b a = true; \x7d f(); print a; \x7d") = some body ∧
    evaluate 20 {} body = .ok s σ ∧ σ.printed = m'.printed ∧ m'.printed = ["true\n"] := by
  have houtput : Machine.outputWithin? 20 "\x7b var a; fun f() \x7b a = true; \x7d f(); print a; \x7d" =
      some [("true\n" : Bytes)] := by decide +kernel
  have haccepted : (analyze "\x7b var a; fun f() \x7b a = true; \x7d f(); print a; \x7d").2 = [] := by decide +kernel
  have hclasses : classesOf "\x7b var a; fun f() \x7b a = true; \x7d f(); print a; \x7d" = [] := by decide +kernel
  unfold Machine.outputWithin? at houtput
  cases hnew : Machine.new {} 2 .standard with
  | error f =>
    rw [hnew] at houtput
    cases houtput
  | ok m =>
    rw [hnew] at houtput
    dsimp only at houtput
    split at houtput
    · rename_i m' hrun
      split at houtput
      · rename_i hsize
        rcases Machine.interpret_evaluates hnew haccepted hclasses (Nat.le_refl 20) with
          he | ⟨body, progress, m'', hparse, hrun', hends⟩
        · rw [hrun] at he
          exact absurd hsize (Nat.not_le.mpr he)
        · rw [hrun] at hrun'
          cases hrun'
          obtain hends := (hends.resolve_left nofun).resolve_left nofun
          generalize hr : evaluate 20 {} body = r at hends
          generalize hprinted : m'.printed = printed at hends houtput
          cases hends
          exact ⟨m, m', body, _, _, rfl, hrun, hparse, hr, hprinted.symm, hprinted.trans (Option.some.inj houtput)⟩
      · cases houtput
    · cases houtput

end Lox

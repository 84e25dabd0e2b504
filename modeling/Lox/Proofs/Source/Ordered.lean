import Lox.Proofs.Source.Steps

set_option synthInstance.maxSize 1024

namespace Lox

namespace Compiler

structure Ordered (last : Nat) (c : Compiler) : Prop where
  tokens : (c.current :: c.upcoming).Pairwise fun t u => t.line ≤ u.line
  previous : c.previous.line ≤ c.current.line
  bounds : ∀ t ∈ c.current :: c.upcoming, 1 ≤ t.line ∧ t.line ≤ last
  sorted : c.diagnostics.Pairwise fun d e => e.line ≤ d.line
  reported : ∀ d ∈ c.diagnostics, 1 ≤ d.line ∧ d.line ≤ c.current.line

structure Abreast (last : Nat) (c : Compiler) : Prop extends Ordered last c where
  reach : c.panicking = false → 1 ≤ c.previous.line ∧ ∀ d ∈ c.diagnostics, d.line ≤ c.previous.line

def view (c : Compiler) : Token × Token × List Token × Bool × List Diagnostic :=
  (c.previous, c.current, c.upcoming, c.panicking, c.diagnostics)

variable {last : Nat} {c c' : Compiler}

theorem Ordered.of_view (hc : c.Ordered last) (h : c'.view = c.view) : c'.Ordered last := by
  simp only [view, Prod.mk.injEq] at h
  obtain ⟨hprevious, hcurrent, hupcoming, -, hdiagnostics⟩ := h
  obtain ⟨htokens, hbehind, hbounds, hsorted, hreported⟩ := hc
  exact ⟨by rwa [hcurrent, hupcoming], by rwa [hprevious, hcurrent], by rwa [hcurrent, hupcoming],
    by rwa [hdiagnostics], by rwa [hdiagnostics, hcurrent]⟩

theorem Abreast.of_view (hc : c.Abreast last) (h : c'.view = c.view) : c'.Abreast last := by
  refine ⟨hc.toOrdered.of_view h, ?_⟩
  simp only [view, Prod.mk.injEq] at h
  obtain ⟨hprevious, -, -, hpanicking, hdiagnostics⟩ := h
  rw [hprevious, hpanicking, hdiagnostics]
  exact hc.reach

theorem Ordered.report (hc : c.Ordered last) (t : Token) (p : Problem) (hone : 1 ≤ t.line)
    (hline : t.line ≤ c.current.line) (hreach : ∀ d ∈ c.diagnostics, d.line ≤ t.line) :
    ({ c with panicking := true, diagnostics := .at_ t p :: c.diagnostics } : Compiler).Ordered last where
  tokens := hc.tokens
  previous := hc.previous
  bounds := hc.bounds
  sorted := List.pairwise_cons.mpr ⟨hreach, hc.sorted⟩
  reported := List.forall_mem_cons.mpr ⟨⟨hone, hline⟩, hc.reported⟩

theorem Ordered.current_pos (hc : c.Ordered last) : 1 ≤ c.current.line :=
  (hc.bounds _ (List.mem_cons_self ..)).1

theorem Ordered.abreast_of_panicking (hc : c.Ordered last) (hpanicking : c.panicking = true) : c.Abreast last :=
  ⟨hc, fun h => by rw [hpanicking] at h; cases h⟩

end Compiler

namespace CompileM

open Compiler

variable {α β : Type} {last : Nat}

class Quiet (act : CompileM α) : Prop where
  running : ∀ c, (act c).2.stuck = false → c.stuck = false
  view : ∀ c, (act c).2.view = c.view

class Follows (act : CompileM α) : Prop where
  running : ∀ c, (act c).2.stuck = false → c.stuck = false
  abreast : ∀ last c, (act c).2.stuck = false → c.Abreast last → (act c).2.Abreast last

class Starts (act : CompileM α) : Prop where
  running : ∀ c, (act c).2.stuck = false → c.stuck = false
  abreast : ∀ last c, (act c).2.stuck = false → c.Ordered last → (act c).2.Abreast last

class Orders (act : CompileM α) : Prop where
  running : ∀ c, (act c).2.stuck = false → c.stuck = false
  ordered : ∀ last c, (act c).2.stuck = false → c.Ordered last → (act c).2.Ordered last

instance (priority := low) Follows.of_quiet {act : CompileM α} [h : Quiet act] : Follows act :=
  ⟨h.running, fun _ c _ hc => hc.of_view (h.view c)⟩

instance (priority := low) Follows.of_starts {act : CompileM α} [h : Starts act] : Follows act :=
  ⟨h.running, fun last c hrun hc => h.abreast last c hrun hc.toOrdered⟩

theorem Orders.of_quiet {act : CompileM α} [h : Quiet act] : Orders act :=
  ⟨h.running, fun _ c _ hc => hc.of_view (h.view c)⟩

theorem Orders.of_starts {act : CompileM α} [h : Starts act] : Orders act :=
  ⟨h.running, fun last c hrun hc => (h.abreast last c hrun hc).toOrdered⟩

theorem Quiet.bind {x : CompileM α} {f : α → CompileM β} [hx : Quiet x] (hf : ∀ a, Quiet (f a)) : Quiet (x >>= f) where
  running c h := hx.running c ((hf _).running _ h)
  view c := ((hf _).view _).trans (hx.view c)

theorem Follows.bind {x : CompileM α} {f : α → CompileM β} [hx : Follows x] (hf : ∀ a, Follows (f a)) :
    Follows (x >>= f) where
  running c h := hx.running c ((hf _).running _ h)
  abreast last c h hc := (hf _).abreast last _ h (hx.abreast last c ((hf _).running _ h) hc)

instance {x : CompileM α} {f : α → CompileM β} [Quiet x] [hf : ∀ a, Quiet (f a)] : Quiet (x >>= f) :=
  .bind hf

instance {x : CompileM α} {f : α → CompileM β} [Follows x] [hf : ∀ a, Follows (f a)] : Follows (x >>= f) :=
  .bind hf

theorem Starts.bind {x : CompileM α} {f : α → CompileM β} [hx : Starts x] [hf : ∀ a, Follows (f a)] :
    Starts (x >>= f) where
  running c h := hx.running c ((hf _).running _ h)
  abreast last c h hc := (hf _).abreast last _ h (hx.abreast last c ((hf _).running _ h) hc)

theorem Starts.after {x : CompileM α} {f : α → CompileM β} [hx : Orders x] [hf : ∀ a, Starts (f a)] :
    Starts (x >>= f) where
  running c h := hx.running c ((hf _).running _ h)
  abreast last c h hc := (hf _).abreast last _ h (hx.ordered last c ((hf _).running _ h) hc)

theorem Orders.bind {x : CompileM α} {f : α → CompileM β} [hx : Orders x] [hf : ∀ a, Orders (f a)] :
    Orders (x >>= f) where
  running c h := hx.running c ((hf _).running _ h)
  ordered last c h hc := (hf _).ordered last _ h (hx.ordered last c ((hf _).running _ h) hc)

instance (a : α) : Quiet (pure a : CompileM α) :=
  ⟨fun _ h => h, fun _ => rfl⟩

instance : Quiet (get : CompileM Compiler) :=
  ⟨fun _ h => h, fun _ => rfl⟩

theorem Quiet.modify {f : Compiler → Compiler} (hrunning : ∀ c, (f c).stuck = c.stuck)
    (hview : ∀ c, (f c).view = c.view) : Quiet (modify f : CompileM Unit) :=
  ⟨fun c h => (hrunning c).symm.trans h, hview⟩

instance {p : Prop} [Decidable p] {x y : CompileM α} [hx : Quiet x] [hy : Quiet y] :
    Quiet (if p then x else y) := by
  split
  · exact hx
  · exact hy

instance {p : Prop} [Decidable p] {x y : CompileM α} [hx : Follows x] [hy : Follows y] :
    Follows (if p then x else y) := by
  split
  · exact hx
  · exact hy

instance {p : Prop} [Decidable p] {x y : CompileM α} [hx : Starts x] [hy : Starts y] :
    Starts (if p then x else y) := by
  split
  · exact hx
  · exact hy

theorem Orders.ite {p : Prop} [Decidable p] {x y : CompileM α} (hx : Orders x) (hy : Orders y) :
    Orders (if p then x else y) := by
  split
  · exact hx
  · exact hy

instance {x y : CompileM Bool} [Quiet x] [Quiet y] : Quiet (x <&&> y) := by
  refine .bind fun b => ?_
  cases b
  · exact (inferInstance : Quiet (pure false))
  · exact (inferInstance : Quiet y)

instance {x y : CompileM Bool} [Follows x] [Follows y] : Follows (x <&&> y) := by
  refine .bind fun b => ?_
  cases b
  · exact (inferInstance : Follows (pure false))
  · exact (inferInstance : Follows y)

instance {x y : CompileM Bool} [Quiet x] [Quiet y] : Quiet (x <||> y) := by
  refine .bind fun b => ?_
  cases b
  · exact (inferInstance : Quiet y)
  · exact (inferInstance : Quiet (pure true))

instance {f : α → CompileM Unit} [hf : ∀ a, Quiet (f a)] (as : List α) : Quiet (as.forM f) := by
  induction as with
  | nil => exact (inferInstance : Quiet (pure ()))
  | cons a as ih => exact (inferInstance : Quiet (do f a; as.forM f))

instance {f : α → CompileM Unit} [hf : ∀ a, Follows (f a)] (as : List α) : Follows (as.forM f) := by
  induction as with
  | nil => exact (inferInstance : Follows (pure ()))
  | cons a as ih => exact (inferInstance : Follows (do f a; as.forM f))

theorem starts_giveUp {x : CompileM α} (hx : ∀ c, (x c).2.stuck = true) : Starts x where
  running c h := by rw [hx] at h; cases h
  abreast _ c h := by rw [hx] at h; cases h

instance : Starts giveUp :=
  starts_giveUp fun _ => rfl

instance {body : CompileM Bool} [hbody : Follows body] (n : Nat) : Follows (loop n body) := by
  induction n with
  | zero =>
    unfold loop
    infer_instance
  | succ n ih =>
    unfold loop
    infer_instance

theorem orders_loop {body : CompileM Bool} (hbody : Orders body) (n : Nat) : Orders (loop n body) := by
  induction n with
  | zero => exact @Orders.of_starts _ giveUp _
  | succ n ih =>
    have hrest (b : Bool) : Orders (if b then loop n body else pure ()) := .ite ih .of_quiet
    exact .bind

theorem stuck_problemAt (t : Token) (p : Problem) (c : Compiler) : (problemAt t p c).2.stuck = c.stuck := by
  rw [problemAt_eq]
  split <;> rfl

instance (p : Problem) : Starts (problemAtCurrent p) where
  running c h := (stuck_problemAt c.current p c).symm.trans h
  abreast last c _ hc := by
    show (problemAt c.current p c).2.Abreast last
    rw [problemAt_eq]
    split
    · exact hc.abreast_of_panicking ‹_›
    · exact (hc.report _ _ hc.current_pos (Nat.le_refl _) fun d hd => (hc.reported d hd).2).abreast_of_panicking rfl

instance (p : Problem) : Follows (problem p) where
  running c h := (stuck_problemAt c.previous p c).symm.trans h
  abreast last c _ hc := by
    show (problemAt c.previous p c).2.Abreast last
    rw [problemAt_eq]
    split
    · exact hc
    · rename_i hcalm
      obtain ⟨hone, hreach⟩ := hc.reach (eq_false_of_ne_true hcalm)
      exact (hc.toOrdered.report _ _ hone hc.previous hreach).abreast_of_panicking rfl

structure Arrives (last : Nat) (c c' : Compiler) : Prop where
  ordered : c'.Ordered last
  previous : c'.previous = c.previous
  calm : c'.panicking = false → c.panicking = false ∧ c'.diagnostics = c.diagnostics

theorem arrives_at {t : Token} {ts : List Token} {c : Compiler}
    (hc : ({ c with current := t, upcoming := ts } : Compiler).Ordered last)
    (hrest : ∀ c : Compiler, c.Ordered last → c.upcoming = ts → Arrives last c (advanceTo ts c).2) :
    Arrives last { c with current := t, upcoming := ts } (advanceTo (t :: ts) c).2 := by
  let c₁ : Compiler := { c with current := t, upcoming := ts }
  show Arrives last c₁ ((if t.kind = .error then do
    problemAt t (.lexical t.lexeme)
    advanceTo ts
  else pure () : CompileM Unit) c₁).2
  split
  · show Arrives last c₁ (advanceTo ts (problemAt t (.lexical t.lexeme) c₁).2).2
    rw [problemAt_eq]
    split
    · exact hrest c₁ hc rfl
    · have hreport := hc.report t (.lexical t.lexeme) hc.current_pos (Nat.le_refl _) fun d hd => (hc.reported d hd).2
      obtain ⟨hordered, hprevious, hcalm⟩ := hrest _ hreport rfl
      exact ⟨hordered, hprevious, fun h => nomatch (hcalm h).1⟩
  · exact ⟨hc, rfl, fun h => ⟨h, rfl⟩⟩

theorem arrives_advanceTo (ts : List Token) {c : Compiler} (hc : c.Ordered last) (hts : c.upcoming = ts) :
    Arrives last c (advanceTo ts c).2 := by
  induction ts generalizing c with
  | nil => exact ⟨hc, rfl, fun h => ⟨h, rfl⟩⟩
  | cons t ts ih =>
    obtain ⟨htokens, hprevious, hbounds, hsorted, hreported⟩ := hc
    rw [hts] at htokens hbounds
    obtain ⟨hcurrent, htokens⟩ := List.pairwise_cons.mp htokens
    have honward : c.current.line ≤ t.line := hcurrent t (List.mem_cons_self ..)
    have hnext : ({ c with current := t, upcoming := ts } : Compiler).Ordered last :=
      ⟨htokens, Nat.le_trans hprevious honward, (List.forall_mem_cons.mp hbounds).2, hsorted,
        fun d hd => ⟨(hreported d hd).1, Nat.le_trans (hreported d hd).2 honward⟩⟩
    exact { arrives_at hnext fun c hc hts => ih hc hts with }

theorem stuck_advanceTo (ts : List Token) (c : Compiler) : (advanceTo ts c).2.stuck = c.stuck := by
  induction ts generalizing c with
  | nil => rfl
  | cons t ts ih =>
    let c₁ : Compiler := { c with current := t, upcoming := ts }
    show ((if t.kind = .error then do
      problemAt t (.lexical t.lexeme)
      advanceTo ts
    else pure () : CompileM Unit) c₁).2.stuck = _
    split
    · show (advanceTo ts (problemAt t (.lexical t.lexeme) c₁).2).2.stuck = _
      rw [ih, stuck_problemAt]
    · rfl

instance : Starts advance where
  running c h := (stuck_advanceTo c.upcoming { c with previous := c.current }).symm.trans h
  abreast last c _ hc := by
    have hmoved : ({ c with previous := c.current } : Compiler).Ordered last :=
      { hc with previous := Nat.le_refl _ }
    obtain ⟨hordered, hprevious, hcalm⟩ := arrives_advanceTo c.upcoming hmoved rfl
    have hprevious : (advance c).2.previous = c.current := hprevious
    refine ⟨hordered, fun h => ?_⟩
    have hdiagnostics : (advance c).2.diagnostics = c.diagnostics := (hcalm h).2
    rw [hprevious, hdiagnostics]
    exact ⟨hc.current_pos, fun d hd => (hc.reported d hd).2⟩

instance (t : TokenKind) : Quiet (check t) := by
  unfold check
  infer_instance

instance (t : TokenKind) : Follows (accept t) := by
  unfold accept
  infer_instance

theorem orders_accept (t : TokenKind) : Orders (accept t) where
  running := (inferInstance : Follows (accept t)).running
  ordered last c h hc := by
    rw [accept_eq] at h ⊢
    split
    · rename_i hkind
      rw [if_pos hkind] at h
      exact ((inferInstance : Starts advance).abreast last c h hc).toOrdered
    · exact hc

theorem Starts.choose {t : TokenKind} {x y : CompileM α} [hx : Follows x] (hy : Starts y) :
    Starts (do if ← accept t then x else y) where
  running c h := by
    rw [run_bind, accept_eq] at h
    split at h
    · exact (inferInstance : Starts advance).running c (hx.running _ h)
    · exact hy.running c h
  abreast last c h hc := by
    rw [run_bind, accept_eq] at h ⊢
    split at h
    · rename_i hkind
      rw [if_pos hkind]
      exact hx.abreast last _ h ((inferInstance : Starts advance).abreast last c (hx.running _ h) hc)
    · rename_i hkind
      rw [if_neg hkind]
      exact hy.abreast last c h hc

instance (t : TokenKind) (what : String) : Starts (consume t what) := by
  have hcheck : Orders (check t) := .of_quiet
  exact .after

instance : Quiet lexeme := by
  unfold lexeme
  infer_instance

theorem orders_synchronize (n : Nat) : Orders (synchronize n) := by
  have hcalm : Orders (modify fun c : Compiler => { c with panicking := false } : CompileM Unit) :=
    ⟨fun _ h => h, fun _ _ _ hc => ⟨hc.1, hc.2, hc.3, hc.4, hc.5⟩⟩
  have hbody : Orders (do
      let c ← get
      if c.current.kind = .eof || c.previous.kind = .semicolon || beginsStatement c.current.kind then
        return false
      advance
      return true : CompileM Bool) := by
    have hadvance : Starts (do advance; return true) := .bind
    have hget : Orders (get : CompileM Compiler) := .of_quiet
    have hround (c : Compiler) : Orders (if c.current.kind = .eof || c.previous.kind = .semicolon ||
        beginsStatement c.current.kind then return false else do advance; return true) :=
      .ite .of_quiet .of_starts
    exact .bind
  unfold synchronize
  have hloop := orders_loop hbody n
  exact .bind

instance : Quiet scope := by
  unfold scope
  infer_instance

instance : Quiet extent := by
  unfold extent
  infer_instance

instance : Quiet codeSize := by
  unfold codeSize
  infer_instance

instance (f : Scope → Scope) : Quiet (modifyScope f) :=
  .modify (fun _ => rfl) fun _ => rfl

instance (o : Order) : Quiet (order o) :=
  .modify (fun _ => rfl) fun _ => rfl

instance (o : Order) (f : Extent → Extent) : Quiet (extend o f) :=
  .modify (fun _ => rfl) fun _ => rfl

instance (b : UInt8) : Quiet (emitByte b) := by
  unfold emitByte
  infer_instance

instance (op : Opcode) : Quiet (emit op) := by
  unfold emit
  infer_instance

instance (op : Opcode) (operand : UInt8) : Quiet (emitWith op operand) := by
  unfold emitWith
  infer_instance

instance (op : Opcode) : Quiet (emitJump op) := by
  unfold emitJump
  infer_instance

instance (place : Nat) : Follows (patchJump place) := by
  unfold patchJump
  dsimp only
  infer_instance

instance (start : Nat) : Follows (emitLoop start) := by
  unfold emitLoop
  dsimp only
  infer_instance

instance : Quiet emitReturn := by
  unfold emitReturn
  infer_instance

instance (o : Order) : Follows (makeConstant o) := by
  unfold makeConstant
  dsimp only
  infer_instance

instance (o : Order) : Follows (emitConstant o) := by
  unfold emitConstant
  infer_instance

instance (name : Bytes) : Follows (nameConstant name) := by
  unfold nameConstant
  infer_instance

theorem quiet_change {f : Compiler → Compiler} {g : Unit → CompileM α} [hg : ∀ u, Quiet (g u)]
    (hrunning : ∀ c, (f c).stuck = c.stuck) (hview : ∀ c, (f c).view = c.view) :
    Quiet ((modify f : CompileM Unit) >>= g) :=
  have := Quiet.modify hrunning hview
  .bind hg

instance (kind : FunctionKind) : Quiet (beginFunction kind) := by
  unfold beginFunction
  exact quiet_change (fun _ => rfl) fun _ => rfl

instance : Quiet endFunction := by
  unfold endFunction
  refine .bind fun _ => .bind fun s => ?_
  exact quiet_change (fun _ => rfl) fun _ => rfl

instance : Quiet beginScope := by
  unfold beginScope
  infer_instance

instance (depth : Nat) (locals : List Local) : Quiet (dropLocals depth locals) := by
  induction locals with
  | nil =>
    unfold dropLocals
    infer_instance
  | cons l rest ih =>
    unfold dropLocals
    infer_instance

instance : Quiet endScope := by
  unfold endScope
  infer_instance

instance (name : Bytes) : Follows (addLocal name) := by
  unfold addLocal
  infer_instance

instance : Follows declareVariable := by
  unfold declareVariable
  dsimp only
  infer_instance

instance (what : String) : Starts (parseVariable what) := by
  unfold parseVariable
  exact .bind

instance : Follows markInitialized := by
  unfold markInitialized
  infer_instance

instance (global : UInt8) : Follows (defineVariable global) := by
  unfold defineVariable
  infer_instance

instance (f : Finding) : Follows (report f) := by
  cases f with
  | problem p => exact (inferInstance : Follows (problem p))
  | capture depth => exact (inferInstance : Follows (order (.capture depth)))

instance (name : Bytes) : Follows (resolve name) := by
  have houter (scopes : List Scope) (index : Option Nat) : Follows (do
      modify fun c : Compiler => { c with scopes }
      match index with
      | some i => return (Opcode.getUpvalue, Opcode.setUpvalue, i.toUInt8)
      | none => return (.getGlobal, .setGlobal, ← nameConstant name) : CompileM (Opcode × Opcode × UInt8)) := by
    have hmodify : Quiet (modify fun c : Compiler => { c with scopes } : CompileM Unit) :=
      .modify (fun _ => rfl) fun _ => rfl
    cases index <;> infer_instance
  unfold resolve
  refine .bind fun s => ?_
  generalize s.slotOf name = x
  obtain ⟨slot, found⟩ := x
  cases slot with
  | some slot => exact (inferInstance : Follows (do
      found.forM report
      return (Opcode.getLocal, Opcode.setLocal, slot.toUInt8)))
  | none =>
    refine .bind fun c => ?_
    generalize Scope.findCapture name 0 c.scopes = y
    obtain ⟨index, scopes, found⟩ := y
    exact .bind fun _ => houter scopes index

end CompileM

end Lox

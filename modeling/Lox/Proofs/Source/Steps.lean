import Lox.Proofs.Source.Scan

namespace Lox

def Token.Quoted (t : Token) : Prop :=
  t.kind = .string → 2 ≤ t.lexeme.length

namespace Scope

def Grounded (s : Scope) : Prop :=
  (s.locals.map (·.depth)).getLast? = some (some 0)

def shape (s : Scope) : Nat × Nat :=
  (s.depth, s.locals.length)

theorem Grounded.pos {s : Scope} (hs : s.Grounded) : 0 < s.locals.length := by
  unfold Grounded at hs
  cases hl : s.locals with
  | nil =>
    rw [hl] at hs
    cases hs
  | cons => exact Nat.succ_pos _

theorem depths_captureLocal (slot : Nat) (locals : List Local) :
    (captureLocal slot locals).map (·.depth) = locals.map (·.depth) := by
  induction locals with
  | nil => rfl
  | cons l rest ih =>
    unfold captureLocal
    split
    · rfl
    · rw [List.map_cons, ih, List.map_cons]

theorem locals_addCapture (depth : Nat) (s : Scope) (k : Capture) :
    (s.addCapture depth k).2.1.locals = s.locals ∧ (s.addCapture depth k).2.1.depth = s.depth := by
  unfold addCapture
  split
  · exact ⟨rfl, rfl⟩
  · split <;> exact ⟨rfl, rfl⟩

def SameDepths (s s' : Scope) : Prop :=
  s'.depth = s.depth ∧ s'.locals.map (·.depth) = s.locals.map (·.depth)

theorem SameDepths.shape {s s' : Scope} (h : s.SameDepths s') : s'.shape = s.shape := by
  have hlength := congrArg List.length h.2
  rw [List.length_map, List.length_map] at hlength
  rw [Scope.shape, Scope.shape, h.1, hlength]

theorem SameDepths.grounded {s s' : Scope} (h : s.SameDepths s') (hs : s.Grounded) : s'.Grounded := by
  unfold Grounded
  rw [h.2]
  exact hs

theorem shape_of_sameDepths {scopes scopes' : List Scope} (h : List.Forall₂ SameDepths scopes scopes') :
    scopes'.map shape = scopes.map shape := by
  induction h with
  | nil => rfl
  | cons h _ ih => rw [List.map_cons, List.map_cons, h.shape, ih]

theorem grounded_of_sameDepths {scopes scopes' : List Scope} (h : List.Forall₂ SameDepths scopes scopes')
    (hg : ∀ s ∈ scopes, s.Grounded) : ∀ s ∈ scopes', s.Grounded := by
  induction h with
  | nil => exact nofun
  | cons h _ ih =>
    rintro s hs
    rcases List.mem_cons.mp hs with rfl | hs
    · exact h.grounded (hg _ (List.mem_cons_self ..))
    · exact ih (fun s hs => hg s (List.mem_cons_of_mem _ hs)) s hs

theorem sameDepths_findCapture (name : Bytes) (depth : Nat) (scopes : List Scope) :
    List.Forall₂ SameDepths scopes (findCapture name depth scopes).2.1 := by
  have hsame (s : Scope) : s.SameDepths s := ⟨rfl, rfl⟩
  have hadd (depth : Nat) (s : Scope) (k : Capture) : s.SameDepths (s.addCapture depth k).2.1 := by
    obtain ⟨hlocals, hdepth⟩ := locals_addCapture depth s k
    exact ⟨hdepth, by rw [hlocals]⟩
  induction scopes generalizing depth with
  | nil => exact .nil
  | cons s outer ih =>
    cases outer with
    | nil => exact .cons (hsame s) .nil
    | cons o rest =>
      have hrest := ih (depth + 1)
      rw [findCapture]
      split
      · exact .cons (hadd ..) (.cons ⟨rfl, depths_captureLocal ..⟩ (List.forall₂_same.mpr fun s _ => hsame s))
      · split
        · rename_i hf
          rw [hf] at hrest
          exact .cons (hadd ..) hrest
        · rename_i hf
          rw [hf] at hrest
          exact .cons (hsame s) hrest

end Scope

namespace Compiler

def shape (c : Compiler) : List (Nat × Nat) :=
  c.scopes.map Scope.shape

structure Ready (c : Compiler) : Prop where
  running : c.stuck = false
  stream : Stream (c.current :: c.upcoming)
  quoted : ∀ t ∈ c.previous :: c.current :: c.upcoming, t.Quoted
  grounded : ∀ s ∈ c.scopes, s.Grounded

structure Step (d k : Nat) (c c' : Compiler) : Prop where
  ready : c'.Ready
  upcoming : c'.upcoming.length ≤ c.upcoming.length - k
  still : c'.upcoming.length = c.upcoming.length → c'.current = c.current
  outer : c'.shape.drop d = c.shape.drop d

def front (c : Compiler) : Bool × Token × Token × List Token × List Scope :=
  (c.stuck, c.previous, c.current, c.upcoming, c.scopes)

variable {c c' c'' : Compiler} {d k : Nat}

theorem Ready.nonempty (hc : c.Ready) (h : c.current.kind ≠ .eof) : 0 < c.upcoming.length := by
  obtain ⟨-, hstream, -, -⟩ := hc
  cases hu : c.upcoming with
  | nil =>
    rw [hu] at hstream
    exact absurd hstream h
  | cons t ts => exact Nat.succ_pos _

namespace Step

theorem of_front (hc : c.Ready) (h : c'.front = c.front) : Step d 0 c c' := by
  simp only [front, Prod.mk.injEq] at h
  obtain ⟨hstuck, hprevious, hcurrent, hupcoming, hscopes⟩ := h
  obtain ⟨hrunning, hstream, hquoted, hgrounded⟩ := hc
  refine ⟨⟨?_, ?_, ?_, ?_⟩, ?_, fun _ => hcurrent, ?_⟩
  · rw [hstuck, hrunning]
  · rwa [hcurrent, hupcoming]
  · rwa [hprevious, hcurrent, hupcoming]
  · rwa [hscopes]
  · rw [hupcoming]
    exact Nat.le_refl _
  · rw [shape, hscopes, shape]

theorem refl (hc : c.Ready) : Step d 0 c c :=
  of_front hc rfl

theorem trans (h : Step d k c c') (h' : Step d 0 c' c'') : Step d k c c'' where
  ready := h'.ready
  upcoming := Nat.le_trans h'.upcoming h.upcoming
  still heq := by
    have h₁ := h.upcoming
    have h₂ := h'.upcoming
    rw [h'.still (by omega), h.still (by omega)]
  outer := h'.outer.trans h.outer

theorem zero_trans (h : Step d 0 c c') (h' : Step d k c' c'') : Step d k c c'' where
  ready := h'.ready
  upcoming := by
    have h₁ := h.upcoming
    have h₂ := h'.upcoming
    omega
  still heq := by
    have h₁ := h.upcoming
    have h₂ := h'.upcoming
    rw [h'.still (by omega), h.still (by omega)]
  outer := h'.outer.trans h.outer

theorem any (h : Step d k c c') : Step d 0 c c' :=
  { h with upcoming := Nat.le_trans h.upcoming (Nat.sub_le _ _) }

theorem outward (h : Step 0 k c c') : Step d k c c' :=
  { h with outer := congrArg (List.drop d) h.outer }

end Step

end Compiler

namespace CompileM

open Compiler

variable {α β : Type} {d k m : Nat}

class Consumes (d k m : Nat) (act : CompileM α) : Prop where
  step : ∀ c : Compiler, c.Ready → c.upcoming.length ≤ m → Step d k c (act c).2

namespace Consumes

instance (priority := low) any {act : CompileM α} [h : Consumes d 1 m act] : Consumes d 0 m act :=
  ⟨fun c hc hm => (h.step c hc hm).any⟩

instance (priority := low) outward {act : CompileM α} [h : Consumes 0 k m act] : Consumes 1 k m act :=
  ⟨fun c hc hm => (h.step c hc hm).outward⟩

theorem mono {m' : Nat} {act : CompileM α} (h : Consumes d k m act) (hm : m' ≤ m) : Consumes d k m' act :=
  ⟨fun c hc hm' => h.step c hc (Nat.le_trans hm' hm)⟩

theorem bind {x : CompileM α} {f : α → CompileM β} [hx : Consumes d 0 m x] (hf : ∀ a, Consumes d k m (f a)) :
    Consumes d k m (x >>= f) where
  step c hc hm := by
    have h₁ := hx.step c hc hm
    exact h₁.zero_trans ((hf _).step _ h₁.ready (Nat.le_trans h₁.upcoming hm))

instance {x : CompileM α} {f : α → CompileM β} [Consumes d 0 m x] [hf : ∀ a, Consumes d 0 m (f a)] :
    Consumes d 0 m (x >>= f) :=
  bind hf

theorem bind_first {x : CompileM α} {f : α → CompileM β} [hx : Consumes d k m x]
    [hf : ∀ a, Consumes d 0 m (f a)] : Consumes d k m (x >>= f) where
  step c hc hm := by
    have h₁ := hx.step c hc hm
    have h₂ := h₁.upcoming
    exact h₁.trans ((hf _).step _ h₁.ready (by omega))

instance (a : α) : Consumes d 0 m (pure a : CompileM α) :=
  ⟨fun _ hc _ => .refl hc⟩

instance : Consumes d 0 m (get : CompileM Compiler) :=
  ⟨fun _ hc _ => .refl hc⟩

theorem modify {f : Compiler → Compiler} (hf : ∀ c, (f c).front = c.front) :
    Consumes d 0 m (modify f : CompileM Unit) :=
  ⟨fun c hc _ => .of_front hc (hf c)⟩

instance {p : Prop} [Decidable p] {x y : CompileM α} [hx : Consumes d k m x] [hy : Consumes d k m y] :
    Consumes d k m (if p then x else y) := by
  split
  · exact hx
  · exact hy

instance {x y : CompileM Bool} [Consumes d 0 m x] [Consumes d 0 m y] : Consumes d 0 m (x <&&> y) := by
  refine .bind fun b => ?_
  cases b
  · exact (inferInstance : Consumes d 0 m (pure false))
  · exact (inferInstance : Consumes d 0 m y)

instance {x y : CompileM Bool} [Consumes d 0 m x] [Consumes d 0 m y] : Consumes d 0 m (x <||> y) := by
  refine .bind fun b => ?_
  cases b
  · exact (inferInstance : Consumes d 0 m y)
  · exact (inferInstance : Consumes d 0 m (pure true))

instance {f : α → CompileM Unit} [hf : ∀ a, Consumes d 0 m (f a)] (as : List α) :
    Consumes d 0 m (as.forM f) := by
  induction as with
  | nil => exact (inferInstance : Consumes d 0 m (pure ()))
  | cons a as ih => exact (inferInstance : Consumes d 0 m (do f a; as.forM f))

theorem loop {body : CompileM Bool} {n : Nat} (hbody : Consumes d 0 m body)
    (htakes : ∀ c : Compiler, c.Ready → c.upcoming.length ≤ m → (body c).1 = true →
      (body c).2.upcoming.length < c.upcoming.length) (hn : m < n) : Consumes d 0 m (loop n body) := by
  refine ⟨fun c hc hm => ?_⟩
  have hfuel : c.upcoming.length < n := Nat.lt_of_le_of_lt hm hn
  clear hn
  induction n generalizing c with
  | zero => omega
  | succ n ih =>
    unfold CompileM.loop
    rw [run_bind]
    have h₁ := hbody.step c hc hm
    have hless := htakes c hc hm
    cases hmore : (body c).1 with
    | false => exact h₁
    | true =>
      rw [hmore] at hless
      have h₂ := hless rfl
      exact h₁.trans (ih (body c).2 h₁.ready (by omega) (by omega))

end Consumes

instance (t : Token) (p : Problem) : Consumes d 0 m (problemAt t p) where
  step c hc _ := by
    rw [problemAt_eq]
    split
    · exact .refl hc
    · exact .of_front hc rfl

instance (p : Problem) : Consumes d 0 m (problemAtCurrent p) := by
  unfold problemAtCurrent
  infer_instance

instance (p : Problem) : Consumes d 0 m (problem p) := by
  unfold problem
  infer_instance

theorem step_advanceTo {c : Compiler} (hc : c.Ready) (ts : List Token) (hts : c.upcoming = ts) :
    Step d 1 c (advanceTo ts c).2 := by
  induction ts generalizing c with
  | nil =>
    have h : Step d 0 c c := .refl hc
    refine { h with upcoming := ?_ }
    show c.upcoming.length ≤ _
    rw [hts]
    exact Nat.zero_le _
  | cons t ts ih =>
    let c' : Compiler := { c with current := t, upcoming := ts }
    have hready : c'.Ready := by
      obtain ⟨hrunning, hstream, hquoted, hgrounded⟩ := hc
      rw [hts] at hstream hquoted
      refine ⟨hrunning, hstream.2.2, fun u hu => hquoted u ?_, hgrounded⟩
      rcases List.mem_cons.mp hu with rfl | hu
      · exact List.mem_cons_self ..
      · exact List.mem_cons_of_mem _ (List.mem_cons_of_mem _ hu)
    have hstep : Step d 1 c c' := by
      have hlength : c.upcoming.length = ts.length + 1 := by rw [hts, List.length_cons]
      refine ⟨hready, ?_, fun heq => ?_, rfl⟩
      · rw [hlength]
        exact Nat.le_refl _
      · have : ts.length = c.upcoming.length := heq
        omega
    show Step d 1 c ((if t.kind = .error then do
      problemAt t (.lexical t.lexeme)
      advanceTo ts
    else pure () : CompileM Unit) c').2
    split
    · have hproblem := (inferInstance : Consumes d 0 ts.length (problemAt t (.lexical t.lexeme))).step c' hready
        (Nat.le_refl _)
      have hup : (problemAt t (.lexical t.lexeme) c').2.upcoming = ts := by
        rw [problemAt_eq]
        split <;> rfl
      exact hstep.trans (hproblem.trans (ih hproblem.ready hup).any)
    · exact hstep

instance : Consumes d 1 m advance where
  step c hc _ := by
    have hready : ({ c with previous := c.current } : Compiler).Ready := by
      obtain ⟨hrunning, hstream, hquoted, hgrounded⟩ := hc
      refine ⟨hrunning, hstream, fun u hu => hquoted u ?_, hgrounded⟩
      rcases List.mem_cons.mp hu with rfl | hu
      · exact List.mem_cons_of_mem _ (List.mem_cons_self ..)
      · exact List.mem_cons_of_mem _ hu
    obtain ⟨h₁, h₂, h₃, h₄⟩ := step_advanceTo (d := d) hready c.upcoming rfl
    exact ⟨h₁, h₂, h₃, h₄⟩

instance (t : TokenKind) : Consumes d 0 m (check t) := by
  unfold check
  infer_instance

instance (t : TokenKind) : Consumes d 0 m (accept t) := by
  unfold accept
  infer_instance

instance (t : TokenKind) (what : String) : Consumes d 0 m (consume t what) := by
  unfold consume
  infer_instance

instance : Consumes d 0 m lexeme := by
  unfold lexeme
  infer_instance

theorem accept_eq (t : TokenKind) (c : Compiler) :
    accept t c = if c.current.kind = t then (true, (advance c).2) else (false, c) := by
  have hcheck : check t c = (decide (c.current.kind = t), c) := rfl
  unfold accept
  rw [run_bind, hcheck]
  simp only [decide_eq_true_eq]
  split <;> rfl

theorem upcoming_accept {t : TokenKind} (ht : t ≠ .eof) {c : Compiler} (hc : c.Ready)
    (h : (accept t c).1 = true) : (accept t c).2.upcoming.length < c.upcoming.length := by
  rw [accept_eq] at h ⊢
  split at h
  · rename_i hkind
    rw [if_pos hkind]
    have hpos := hc.nonempty (hkind ▸ ht)
    have hless := ((inferInstance : Consumes 0 1 c.upcoming.length advance).step c hc (Nat.le_refl _)).upcoming
    dsimp only
    omega
  · cases h

theorem Consumes.choose {t : TokenKind} (ht : t ≠ .eof) {x y : CompileM α} (hk : k ≤ 1)
    (hx : 0 < m → Consumes d 0 (m - 1) x) (hy : Consumes d k m y) :
    Consumes d k m (do if ← accept t then x else y) where
  step c hc hm := by
    have h₁ := (inferInstance : Consumes d 0 m (accept t)).step c hc hm
    have hless := upcoming_accept ht hc
    rw [run_bind]
    cases hb : (accept t c).1 with
    | true =>
      rw [hb] at hless
      have h₂ := hless rfl
      have h₃ := (hx (by omega)).step _ h₁.ready (by omega)
      have h₄ := h₃.upcoming
      refine { h₁.trans h₃ with upcoming := ?_ }
      show (x (accept t c).2).2.upcoming.length ≤ _
      omega
    | false =>
      have hsame : (accept t c).2 = c := by
        rw [accept_eq] at hb ⊢
        split at hb
        · cases hb
        · rw [if_neg ‹_›]
      rw [hsame]
      exact hy.step c hc hm

theorem consumes_synchronize {n : Nat} (hn : m < n) : Consumes d 0 m (synchronize n) := by
  have hcalm : Consumes d 0 m (modify fun c : Compiler => { c with panicking := false } : CompileM Unit) :=
    .modify fun _ => rfl
  have hbody (c : Compiler) : (do
      let c ← get
      if c.current.kind = .eof || c.previous.kind = .semicolon || beginsStatement c.current.kind then
        return false
      advance
      return true : CompileM Bool) c =
        if c.current.kind = .eof || c.previous.kind = .semicolon || beginsStatement c.current.kind then
          (false, c)
        else (true, (advance c).2) := by
    rw [run_bind]
    show (if c.current.kind = .eof || c.previous.kind = .semicolon || beginsStatement c.current.kind then
      (pure false : CompileM Bool) else do advance; return true) c = _
    split <;> rfl
  unfold synchronize
  refine .bind fun _ => .loop inferInstance (fun c hc hm hmore => ?_) hn
  rw [hbody] at hmore ⊢
  split at hmore
  · cases hmore
  · rename_i hends
    rw [if_neg hends]
    have hpos : 0 < c.upcoming.length := hc.nonempty fun heof => hends (by simp [heof])
    have hless := ((inferInstance : Consumes d 1 m advance).step c hc hm).upcoming
    dsimp only
    omega

instance : Consumes d 0 m scope := by
  unfold scope
  infer_instance

instance : Consumes d 0 m extent := by
  unfold extent
  infer_instance

instance : Consumes d 0 m codeSize := by
  unfold codeSize
  infer_instance

instance (o : Order) : Consumes d 0 m (order o) :=
  .modify fun _ => rfl

instance (o : Order) (f : Extent → Extent) : Consumes d 0 m (extend o f) :=
  .modify fun _ => rfl

instance (b : UInt8) : Consumes d 0 m (emitByte b) := by
  unfold emitByte
  infer_instance

instance (op : Opcode) : Consumes d 0 m (emit op) := by
  unfold emit
  infer_instance

instance (op : Opcode) (operand : UInt8) : Consumes d 0 m (emitWith op operand) := by
  unfold emitWith
  infer_instance

instance (op : Opcode) : Consumes d 0 m (emitJump op) := by
  unfold emitJump
  infer_instance

instance (place : Nat) : Consumes d 0 m (patchJump place) := by
  unfold patchJump
  dsimp only
  infer_instance

instance (start : Nat) : Consumes d 0 m (emitLoop start) := by
  unfold emitLoop
  dsimp only
  infer_instance

instance : Consumes d 0 m emitReturn := by
  unfold emitReturn
  infer_instance

instance (o : Order) : Consumes d 0 m (makeConstant o) := by
  unfold makeConstant
  dsimp only
  infer_instance

instance (o : Order) : Consumes d 0 m (emitConstant o) := by
  unfold emitConstant
  infer_instance

instance (name : Bytes) : Consumes d 0 m (nameConstant name) := by
  unfold nameConstant
  infer_instance

theorem step_scopes {c : Compiler} (hc : c.Ready) {scopes : List Scope} (hg : ∀ s ∈ scopes, s.Grounded)
    (hshape : (scopes.map Scope.shape).drop d = c.shape.drop d) :
    Step d 0 c { c with scopes } where
  ready := { hc with grounded := hg }
  upcoming := Nat.le_refl _
  still _ := rfl
  outer := hshape

theorem consumes_modifyScope {f : Scope → Scope} (hf : ∀ s : Scope, s.Grounded → (f s).Grounded) :
    Consumes 1 0 m (modifyScope f) where
  step c hc _ := by
    rw [run_modifyScope]
    show Step 1 0 c { c with scopes := c.scopes.modifyHead f }
    have hg := hc.grounded
    refine step_scopes hc (fun s hs => ?_) ?_
    · cases hscopes : c.scopes with
      | nil =>
        rw [hscopes] at hs
        cases hs
      | cons s' rest =>
        rw [hscopes] at hs hg
        rcases List.mem_cons.mp hs with rfl | hs
        · exact hf s' (hg s' (List.mem_cons_self ..))
        · exact hg s (List.mem_cons_of_mem _ hs)
    · unfold shape
      cases c.scopes <;> rfl

instance : Consumes 1 0 m beginScope :=
  consumes_modifyScope fun _ hs => hs

theorem step_dropLocals (depth : Nat) (locals : List Local) {c : Compiler} {s : Scope} {ss : List Scope}
    (hc : c.Ready) (hs : c.scopes = s :: ss) (hl : s.locals = locals) :
    Step 1 0 c (dropLocals depth locals c).2 := by
  induction locals generalizing c s with
  | nil => exact .refl hc
  | cons l rest ih =>
    have hg := hc.grounded s (by rw [hs]; exact List.mem_cons_self ..)
    unfold dropLocals
    by_cases hdeep : l.depth.any (depth < ·) = true
    · rw [if_pos hdeep]
      have hemit := (inferInstance : Consumes 1 0 c.upcoming.length
        (emit (if l.captured then .closeUpvalue else .pop))).step c hc (Nat.le_refl _)
      have hrest : ({ s with locals := rest } : Scope).Grounded := by
        unfold Scope.Grounded at hg ⊢
        rw [hl] at hg
        -- the slot of the function is not dropped
        cases rest with
        | nil =>
          have hzero : l.depth = some 0 := Option.some.inj hg
          rw [hzero] at hdeep
          simp at hdeep
        | cons b rest => exact hg
      let c' := (emit (if l.captured then .closeUpvalue else .pop) c).2
      have hdrop : Step 1 0 c' { c' with scopes := { s with locals := rest } :: ss } := by
        refine step_scopes hemit.ready (fun t ht => ?_) ?_
        · rcases List.mem_cons.mp ht with rfl | ht
          · exact hrest
          · exact hc.grounded t (by rw [hs]; exact List.mem_cons_of_mem _ ht)
        · show _ = (c.scopes.map _).drop 1
          rw [hs]
          rfl
      have hrun : (modifyScope (fun s => { s with locals := rest }) c').2 =
          { c' with scopes := { s with locals := rest } :: ss } := by
        rw [run_modifyScope, show c'.scopes = s :: ss from hs]
        rfl
      show Step 1 0 c (dropLocals depth rest (modifyScope (fun s => { s with locals := rest }) c').2).2
      rw [hrun]
      exact hemit.trans (hdrop.trans (ih hdrop.ready rfl rfl))
    · rw [if_neg hdeep]
      exact .refl hc

instance : Consumes 1 0 m endScope where
  step c hc hm := by
    have h₁ := (consumes_modifyScope (m := m) (f := fun s => { s with depth := s.depth - 1 }) fun _ hs => hs).step c hc
        hm
    unfold endScope
    rw [run_bind, run_bind]
    refine h₁.trans ?_
    generalize (modifyScope (fun s => { s with depth := s.depth - 1 }) c).2 = c₁ at h₁
    show Step 1 0 c₁ (dropLocals (c₁.scopes.headD { kind := .script }).depth
      (c₁.scopes.headD { kind := .script }).locals c₁).2
    cases hs : c₁.scopes with
    | nil => exact .refl h₁.ready
    | cons s ss => exact step_dropLocals s.depth s.locals h₁.ready hs rfl

def Declared (c : Compiler) : Prop :=
  ∀ x ∈ c.shape.head?, x.1 = 0 ∨ 2 ≤ x.2

class Defines (d m : Nat) (act : CompileM α) : Prop where
  step : ∀ c : Compiler, c.Ready → c.upcoming.length ≤ m → Declared c → Step d 0 c (act c).2

namespace Defines

instance (priority := low) of_consumes {act : CompileM α} [h : Consumes d 0 m act] : Defines d m act :=
  ⟨fun c hc hm _ => h.step c hc hm⟩

theorem bind {x : CompileM α} {f : α → CompileM β} [hx : Defines 0 m x] (hf : ∀ a, Defines d m (f a)) :
    Defines d m (x >>= f) where
  step c hc hm hd := by
    have h₁ := hx.step c hc hm hd
    have hshape : (x c).2.shape = c.shape := h₁.outer
    have hd' : Declared (x c).2 := by
      unfold Declared
      rw [hshape]
      exact hd
    have h₂ := (hf (x c).1).step _ h₁.ready (Nat.le_trans h₁.upcoming hm) hd'
    exact h₁.outward.trans h₂

instance {x : CompileM α} {f : α → CompileM β} [Defines 0 m x] [hf : ∀ a, Defines d m (f a)] :
    Defines d m (x >>= f) :=
  bind hf

instance {p : Prop} [Decidable p] {x y : CompileM α} [hx : Defines d m x] [hy : Defines d m y] :
    Defines d m (if p then x else y) := by
  split
  · exact hx
  · exact hy

end Defines

theorem Consumes.declared {x : CompileM α} {f : α → CompileM β} [hx : Consumes 1 0 m x]
    (hd : ∀ c : Compiler, c.Ready → c.upcoming.length ≤ m → Declared (x c).2) (hf : ∀ a, Defines 1 m (f a)) :
    Consumes 1 0 m (x >>= f) where
  step c hc hm := by
    have h₁ := hx.step c hc hm
    exact h₁.trans ((hf _).step _ h₁.ready (Nat.le_trans h₁.upcoming hm) (hd c hc hm))

instance : Defines d m markInitialized where
  step c hc _ hd := by
    let mark (s : Scope) : Scope := if s.depth = 0 then s
      else { s with locals := match s.locals with
        | l :: rest => { l with depth := some s.depth } :: rest
        | [] => [] }
    have hrun : (markInitialized c).2 =
        if 0 < (c.scopes.headD { kind := .script }).depth ∧ (c.scopes.headD { kind := .script }).locals.length = 0
        then (modifyScope mark (giveUp c).2).2 else (modifyScope mark c).2 := by
      unfold markInitialized
      rw [run_bind]
      show ((if 0 < (c.scopes.headD { kind := .script }).depth ∧
          (c.scopes.headD { kind := .script }).locals.length = 0 then do giveUp; modifyScope mark
        else modifyScope mark : CompileM Unit) c).2 = _
      split <;> rfl
    have hmodify : (modifyScope mark c).2 = { c with scopes := match c.scopes with
        | s :: rest => mark s :: rest
        | [] => [] } := rfl
    have hg := hc.grounded
    unfold Declared shape at hd
    rw [hrun, hmodify]
    cases hs : c.scopes with
    | nil =>
      rw [if_neg (by simp)]
      exact step_scopes hc nofun (by unfold shape; rw [hs])
    | cons s ss =>
      rw [hs] at hd hg
      have hs' : s.depth = 0 ∨ 2 ≤ s.locals.length := hd _ rfl
      have hground := hg s (List.mem_cons_self ..)
      have hmark : (mark s).Grounded ∧ (mark s).depth = s.depth ∧
          (mark s).locals.length = s.locals.length := by
        by_cases hdepth : s.depth = 0
        · rw [show mark s = s from if_pos hdepth]
          exact ⟨hground, rfl, rfl⟩
        · rw [show mark s = _ from if_neg hdepth]
          unfold Scope.Grounded at hground ⊢
          cases hlocals : s.locals with
          | nil => simp [hlocals] at hground
          | cons l rest =>
            cases rest with
            | nil => simp [hlocals, hdepth] at hs'
            | cons b rest =>
              rw [hlocals] at hground
              exact ⟨hground, rfl, rfl⟩
      rw [List.headD_cons, if_neg (by omega)]
      refine step_scopes hc (fun t ht => ?_) ?_
      · rcases List.mem_cons.mp ht with rfl | ht
        · exact hmark.1
        · exact hg t (List.mem_cons_of_mem _ ht)
      · unfold shape
        rw [hs, List.map_cons, List.map_cons, Scope.shape, hmark.2.1, hmark.2.2, Scope.shape]

instance (global : UInt8) : Defines d m (defineVariable global) := by
  unfold defineVariable
  infer_instance

theorem declared_addLocal (name : Bytes) {c : Compiler} (hc : c.Ready) : Declared (addLocal name c).2 := by
  have hrun : (addLocal name c).2 = if (c.scopes.headD { kind := .script }).locals.length = 256 then
      (problem .tooManyLocals c).2 else { c with scopes := match c.scopes with
        | s :: rest => { s with locals := { name, depth := none } :: s.locals } :: rest
        | [] => [] } := by
    unfold addLocal
    rw [run_bind]
    show ((if (c.scopes.headD { kind := .script }).locals.length = 256 then problem .tooManyLocals
      else modifyScope fun s => { s with locals := { name, depth := none } :: s.locals } : CompileM Unit) c).2 = _
    split <;> rfl
  rw [hrun]
  split
  · rename_i hfull
    have hscopes : (problem .tooManyLocals c).2.scopes = c.scopes := by
      show (problemAt c.previous .tooManyLocals c).2.scopes = _
      rw [problemAt_eq]
      split <;> rfl
    unfold Declared shape
    rw [hscopes]
    cases hs : c.scopes with
    | nil => exact nofun
    | cons s ss =>
      rw [hs, List.headD_cons] at hfull
      rintro x hx
      cases hx
      right
      simp only [Scope.shape]
      omega
  · unfold Declared shape
    dsimp only
    cases hs : c.scopes with
    | nil => exact nofun
    | cons s ss =>
      have hpos := (hc.grounded s (by rw [hs]; exact List.mem_cons_self ..)).pos
      rintro x hx
      cases hx
      right
      simp only [Scope.shape, List.length_cons]
      omega

instance (name : Bytes) : Consumes 1 0 m (addLocal name) := by
  have hadd : Consumes 1 0 m (modifyScope fun s => { s with locals := { name, depth := none } :: s.locals }) :=
    consumes_modifyScope fun s hs => by
      unfold Scope.Grounded at hs ⊢
      rw [List.map_cons, List.getLast?_cons, hs]
      rfl
  unfold addLocal
  infer_instance

theorem declared_declareVariable {c : Compiler} (hc : c.Ready) : Declared (declareVariable c).2 := by
  let s := c.scopes.headD { kind := .script }
  have hrun : (declareVariable c).2 = if 0 < s.depth then
      (if (sameScope s.depth s.locals).any (·.name == c.previous.lexeme) then
        (addLocal c.previous.lexeme (problem .duplicateLocal c).2).2 else (addLocal c.previous.lexeme c).2)
      else c := by
    unfold declareVariable
    rw [run_bind]
    show ((if 0 < s.depth then do
        let name ← lexeme
        if (sameScope s.depth s.locals).any (·.name == name) then problem .duplicateLocal
        addLocal name
      else pure () : CompileM Unit) c).2 = _
    split
    · show ((if (sameScope s.depth s.locals).any (·.name == c.previous.lexeme) then do
          problem .duplicateLocal
          addLocal c.previous.lexeme
        else addLocal c.previous.lexeme : CompileM Unit) c).2 = _
      split <;> rfl
    · rfl
  rw [hrun]
  split
  · split
    · have hproblem := (inferInstance : Consumes 0 0 c.upcoming.length (problem .duplicateLocal)).step c hc
        (Nat.le_refl _)
      exact declared_addLocal _ hproblem.ready
    · exact declared_addLocal _ hc
  · rename_i hdepth
    unfold Declared shape
    dsimp only [s] at hdepth
    cases hs : c.scopes with
    | nil => exact nofun
    | cons t ts =>
      rw [hs, List.headD_cons] at hdepth
      rintro x hx
      cases hx
      left
      simp only [Scope.shape]
      omega

instance : Consumes 1 0 m declareVariable := by
  unfold declareVariable
  dsimp only
  infer_instance

instance (what : String) : Consumes 1 0 m (parseVariable what) := by
  unfold parseVariable
  infer_instance

theorem declared_parseVariable (what : String) {c : Compiler} (hc : c.Ready) :
    Declared (parseVariable what c).2 := by
  have hconsume := (inferInstance : Consumes 0 0 c.upcoming.length (consume .identifier what)).step c hc
    (Nat.le_refl _)
  let c' := (declareVariable (consume .identifier what c).2).2
  have hdeclared : Declared c' := declared_declareVariable hconsume.ready
  have hready := ((inferInstance : Consumes 1 0 c.upcoming.length declareVariable).step _ hconsume.ready
    hconsume.upcoming).ready
  have hname : Consumes 0 0 c'.upcoming.length (do
      if 0 < (← scope).depth then return 0
      nameConstant (← lexeme)) := inferInstance
  have hrest := hname.step c' hready (Nat.le_refl _)
  have hshape : (parseVariable what c).2.shape = c'.shape := hrest.outer
  unfold Declared
  rw [hshape]
  exact hdeclared

instance (f : Finding) : Consumes d 0 m (report f) := by
  cases f with
  | problem p => exact (inferInstance : Consumes d 0 m (problem p))
  | capture depth => exact (inferInstance : Consumes d 0 m (order (.capture depth)))

theorem scopes_reports (found : List Finding) (c : Compiler) : (found.forM report c).2.scopes = c.scopes := by
  induction found generalizing c with
  | nil => rfl
  | cons f found ih =>
    show (found.forM report (report f c).2).2.scopes = _
    rw [ih]
    cases f with
    | problem p =>
      show (problemAt c.previous p c).2.scopes = _
      rw [problemAt_eq]
      split <;> rfl
    | capture depth => rfl

instance (name : Bytes) (index : Option Nat) : Consumes d 0 m (outerAccess name index) := by
  cases index <;> unfold outerAccess <;> infer_instance

instance (name : Bytes) : Consumes d 0 m (resolve name) where
  step c hc hm := by
    cases hs : (c.scopes.headD { kind := .script }).slotOf name with
    | mk slot found =>
      cases slot with
      | some slot =>
        rw [resolve_local hs]
        exact (inferInstance : Consumes d 0 m (found.forM report)).step c hc hm
      | none =>
        obtain ⟨index, scopes, found', hf⟩ : ∃ index scopes found',
            Scope.findCapture name 0 c.scopes = (index, scopes, found') := ⟨_, _, _, rfl⟩
        have hsame := Scope.sameDepths_findCapture name 0 c.scopes
        rw [hf] at hsame
        have h₁ := (inferInstance : Consumes d 0 m (found'.forM report)).step c hc hm
        have hscopes := scopes_reports found' c
        have h₂ : Step d 0 (found'.forM report c).2 { (found'.forM report c).2 with scopes } := by
          refine step_scopes h₁.ready (Scope.grounded_of_sameDepths hsame hc.grounded) ?_
          unfold shape
          rw [hscopes, Scope.shape_of_sameDepths hsame]
        rw [resolve_other hs hf]
        have h₃ := (inferInstance : Consumes d 0 m (outerAccess name index)).step _ h₂.ready
          (Nat.le_trans (h₁.trans h₂).upcoming hm)
        exact (h₁.trans h₂).trans h₃

end CompileM

end Lox

import Lox.Compile
import Lox.Proofs.Compile.Draft
import Lox.Proofs.Value
import Mathlib.Data.List.Forall2

namespace Lox

namespace Compiler

def drafts (c : Compiler) : Option Drafts :=
  Order.draftAll {} c.orders.reverse

def inner (c : Compiler) : Extent :=
  c.extents.headD {}

structure Sketched (c : Compiler) : Prop where
  made : ∃ d, c.drafts = some d ∧ List.Forall₂ (fun e p => p.code.length = e.size) c.extents d.open_
  scopes : c.scopes.length = c.extents.length
  inside : c.extents ≠ []

structure Extends (c c' : Compiler) : Prop where
  sketched : c'.Sketched
  outer : c'.extents.tail = c.extents.tail
  size : c.inner.size ≤ c'.inner.size

variable {c c' c'' : Compiler}

theorem Extends.refl (h : c.Sketched) : Extends c c :=
  ⟨h, rfl, Nat.le_refl _⟩

theorem Extends.trans (h : Extends c c') (h' : Extends c' c'') : Extends c c'' :=
  ⟨h'.sketched, h'.outer.trans h.outer, Nat.le_trans h.size h'.size⟩

theorem Sketched.cases (h : c.Sketched) : ∃ d e es p ps, c.drafts = some d ∧ c.extents = e :: es ∧
    d.open_ = p :: ps ∧ p.code.length = e.size ∧
      List.Forall₂ (fun e p => p.code.length = e.size) es ps := by
  obtain ⟨⟨d, hd, hall⟩, -, hin⟩ := h
  cases hes : c.extents with
  | nil => exact absurd hes hin
  | cons e es =>
    rw [hes, List.forall₂_cons_left_iff] at hall
    obtain ⟨p, ps, hp, hps, ho⟩ := hall
    exact ⟨d, e, es, p, ps, hd, rfl, ho, hp, hps⟩

theorem Extends.length (h : Extends c c') (hc : c.Sketched) : c'.extents.length = c.extents.length := by
  have h₁ := List.length_pos_iff.mpr hc.inside
  have h₂ := List.length_pos_iff.mpr h.sketched.inside
  have h₃ := congrArg List.length h.outer
  rw [List.length_tail, List.length_tail] at h₃
  omega

theorem drafts_cons {o : Order} (h : c'.orders = o :: c.orders) :
    c'.drafts = c.drafts.bind (o.draft ·) := by
  unfold drafts
  rw [h, List.reverse_cons, Order.draftAll_append]
  congr 1
  funext d
  rw [Order.draftAll_cons]
  cases o.draft d <;> rfl

theorem Sketched.congr (h : c.Sketched) (ho : c'.orders = c.orders) (he : c'.extents = c.extents)
    (hs : c'.scopes.length = c.scopes.length) : Extends c c' := by
  refine ⟨⟨?_, ?_, ?_⟩, ?_, ?_⟩
  · obtain ⟨d, hd, hall⟩ := h.made
    refine ⟨d, ?_, he ▸ hall⟩
    rw [← hd]
    unfold drafts
    rw [ho]
  · rw [hs, he, h.scopes]
  · rw [he]
    exact h.inside
  · rw [he]
  · unfold inner
    exact Nat.le_of_eq (by rw [he])

theorem Sketched.step (h : c.Sketched) {o : Order} {f : Extent → Extent}
    (ho : c'.orders = o :: c.orders) (he : c'.extents = c.extents.modifyHead f)
    (hs : c'.scopes = c.scopes) (hf : ∀ e, e.size ≤ (f e).size)
    (hd : ∀ d p ps, d.open_ = p :: ps → ∃ p' e', o.draft d = some ⟨p' :: ps, e'⟩ ∧
      ∀ e : Extent, p.code.length = e.size → p'.code.length = (f e).size) : Extends c c' := by
  obtain ⟨d, e, es, p, ps, hdraft, hes, hopen, hp, hps⟩ := h.cases
  obtain ⟨p', e', hstep, hsize⟩ := hd d p ps hopen
  have hes' : c'.extents = f e :: es := by rw [he, hes]; rfl
  refine ⟨⟨⟨⟨p' :: ps, e'⟩, ?_, ?_⟩, ?_, ?_⟩, ?_, ?_⟩
  · rw [drafts_cons ho, hdraft]
    exact hstep
  · rw [hes']
    exact .cons (hsize e hp) hps
  · rw [hs, h.scopes, hes, hes']
    rfl
  · simp [hes']
  · rw [hes', hes]
    rfl
  · unfold inner
    rw [hes', hes]
    exact hf e

end Compiler

namespace CompileM

open Compiler

variable {α β : Type}

theorem run_bind (x : CompileM α) (f : α → CompileM β) (c : Compiler) :
    (x >>= f) c = f (x c).1 (x c).2 := rfl

class Reports (act : CompileM α) : Prop where
  clean : ∀ c, (act c).2.diagnostics = [] → c.diagnostics = []

namespace Reports

theorem bind {x : CompileM α} {f : α → CompileM β} [hx : Reports x] (hf : ∀ a, Reports (f a)) :
    Reports (x >>= f) :=
  ⟨fun c h => hx.clean c ((hf (x c).1).clean (x c).2 h)⟩

instance {x : CompileM α} {f : α → CompileM β} [Reports x] [hf : ∀ a, Reports (f a)] :
    Reports (x >>= f) :=
  bind hf

instance (a : α) : Reports (pure a : CompileM α) := ⟨fun _ h => h⟩

instance : Reports (get : CompileM Compiler) := ⟨fun _ h => h⟩

theorem modify {f : Compiler → Compiler} (hf : ∀ c, (f c).diagnostics = c.diagnostics) :
    Reports (modify f : CompileM Unit) :=
  ⟨fun c h => (hf c).symm.trans h⟩

instance {p : Prop} [Decidable p] {x y : CompileM α} [hx : Reports x] [hy : Reports y] :
    Reports (if p then x else y) := by
  split
  · exact hx
  · exact hy

end Reports

class Sketches (act : CompileM α) : Prop where
  reports : Reports act
  extends_ : ∀ c, c.Sketched → Extends c (act c).2

namespace Sketches

instance (priority := low) {act : CompileM α} [h : Sketches act] : Reports act := h.reports

theorem bind {x : CompileM α} {f : α → CompileM β} [hx : Sketches x] (hf : ∀ a, Sketches (f a)) :
    Sketches (x >>= f) where
  reports := .bind fun a => (hf a).reports
  extends_ c hc := by
    have h := hx.extends_ c hc
    exact h.trans ((hf (x c).1).extends_ (x c).2 h.sketched)

instance {x : CompileM α} {f : α → CompileM β} [Sketches x] [hf : ∀ a, Sketches (f a)] :
    Sketches (x >>= f) :=
  bind hf

instance (a : α) : Sketches (pure a : CompileM α) := ⟨inferInstance, fun _ h => .refl h⟩

instance : Sketches (get : CompileM Compiler) := ⟨inferInstance, fun _ h => .refl h⟩

theorem modify {f : Compiler → Compiler} (hd : ∀ c, (f c).diagnostics = c.diagnostics)
    (ho : ∀ c, (f c).orders = c.orders) (he : ∀ c, (f c).extents = c.extents)
    (hs : ∀ c, (f c).scopes.length = c.scopes.length) : Sketches (modify f : CompileM Unit) where
  reports := .modify hd
  extends_ c hc := hc.congr (ho c) (he c) (hs c)

instance giveUp : Sketches giveUp :=
  modify (fun _ => rfl) (fun _ => rfl) (fun _ => rfl) fun _ => rfl

instance {p : Prop} [Decidable p] {x y : CompileM α} [hx : Sketches x] [hy : Sketches y] :
    Sketches (if p then x else y) := by
  split
  · exact hx
  · exact hy

instance {x y : CompileM Bool} [Sketches x] [Sketches y] : Sketches (x <&&> y) := by
  refine .bind fun b => ?_
  cases b
  · exact (inferInstance : Sketches (pure false))
  · exact (inferInstance : Sketches y)

instance {x y : CompileM Bool} [Sketches x] [Sketches y] : Sketches (x <||> y) := by
  refine .bind fun b => ?_
  cases b
  · exact (inferInstance : Sketches y)
  · exact (inferInstance : Sketches (pure true))

instance {f : α → CompileM Unit} [hf : ∀ a, Sketches (f a)] (as : List α) : Sketches (as.forM f) := by
  induction as with
  | nil => exact (inferInstance : Sketches (pure ()))
  | cons a as ih => exact (inferInstance : Sketches (do f a; as.forM f))

instance (n : Nat) (body : CompileM Bool) [Sketches body] : Sketches (loop n body) := by
  induction n with
  | zero => exact giveUp
  | succ n ih =>
    unfold loop
    infer_instance

end Sketches

theorem problemAt_eq (t : Token) (p : Problem) (c : Compiler) : problemAt t p c =
    ((), if c.panicking then c
      else { c with panicking := true, diagnostics := .at_ t p :: c.diagnostics }) := rfl

instance (t : Token) (p : Problem) : Sketches (problemAt t p) where
  reports := ⟨fun c h => by
    rw [problemAt_eq] at h
    split at h
    · exact h
    · cases h⟩
  extends_ c hc := by
    rw [problemAt_eq]
    split
    · exact .refl hc
    · exact hc.congr rfl rfl rfl

instance (p : Problem) : Sketches (problemAtCurrent p) := by
  unfold problemAtCurrent
  infer_instance

instance (p : Problem) : Sketches (problem p) := by
  unfold problem
  infer_instance

instance (ts : List Token) : Sketches (advanceTo ts) := by
  induction ts with
  | nil => exact (inferInstance : Sketches (pure ()))
  | cons t ts ih =>
    have hmod : Sketches (modify fun c : Compiler => { c with current := t, upcoming := ts } :
        CompileM Unit) := .modify (fun _ => rfl) (fun _ => rfl) (fun _ => rfl) fun _ => rfl
    unfold advanceTo
    infer_instance

instance : Sketches advance := by
  have hmod : Sketches (modify fun c : Compiler => { c with previous := c.current } :
      CompileM Unit) := .modify (fun _ => rfl) (fun _ => rfl) (fun _ => rfl) fun _ => rfl
  unfold advance
  infer_instance

instance (k : TokenKind) : Sketches (check k) := by
  unfold check
  infer_instance

instance (k : TokenKind) : Sketches (accept k) := by
  unfold accept
  infer_instance

instance (k : TokenKind) (what : String) : Sketches (consume k what) := by
  unfold consume
  infer_instance

instance : Sketches lexeme := by
  unfold lexeme
  infer_instance

instance (n : Nat) : Sketches (synchronize n) := by
  have hmod : Sketches (modify fun c : Compiler => { c with panicking := false } :
      CompileM Unit) := .modify (fun _ => rfl) (fun _ => rfl) (fun _ => rfl) fun _ => rfl
  unfold synchronize
  infer_instance

instance : Sketches scope := by
  unfold scope
  infer_instance

theorem run_modifyScope (f : Scope → Scope) (c : Compiler) :
    modifyScope f c = ((), { c with scopes := c.scopes.modifyHead f }) := by
  refine congrArg (fun scopes => ((), { c with scopes })) ?_
  cases c.scopes <;> rfl

instance (f : Scope → Scope) : Sketches (modifyScope f) :=
  .modify (fun _ => rfl) (fun _ => rfl) (fun _ => rfl) fun c => by
    cases h : c.scopes <;> rfl

instance : Sketches extent := by
  unfold extent
  infer_instance

instance : Sketches codeSize := by
  unfold codeSize
  infer_instance

theorem extents_extend (o : Order) (f : Extent → Extent) (c : Compiler) :
    (extend o f c).2.extents = c.extents.modifyHead f := by
  obtain ⟨_, _, _, _, _, _, extents, _, _, _⟩ := c
  cases extents <;> rfl

theorem sketches_extend {o : Order} {f : Extent → Extent} (hf : ∀ e, e.size ≤ (f e).size)
    (hd : ∀ d p ps, d.open_ = p :: ps → ∃ p' e', o.draft d = some ⟨p' :: ps, e'⟩ ∧
      ∀ e : Extent, p.code.length = e.size → p'.code.length = (f e).size) : Sketches (extend o f) where
  reports := .modify fun _ => rfl
  extends_ c hc := by
    exact hc.step (f := f) (o := o) rfl (extents_extend o f c) rfl hf hd

instance (b : UInt8) : Sketches (emitByte b) := by
  have hbyte (line : Nat) : Sketches (extend (.byte b line) fun e => { e with size := e.size + 1 }) := by
    refine sketches_extend (fun e => Nat.le_succ _) fun d p ps hp => ?_
    refine ⟨p.addByte b line, none, by simp [Order.draft, Drafts.onInner, hp], fun e he => ?_⟩
    simp [Template.addByte, he]
  unfold emitByte
  infer_instance

instance (op : Opcode) : Sketches (emit op) := by
  unfold emit
  infer_instance

instance (op : Opcode) (operand : UInt8) : Sketches (emitWith op operand) := by
  unfold emitWith
  infer_instance

instance (op : Opcode) : Sketches (emitJump op) := by
  unfold emitJump
  infer_instance

instance (start : Nat) : Sketches (emitLoop start) := by
  unfold emitLoop
  infer_instance

instance : Sketches emitReturn := by
  unfold emitReturn
  infer_instance

theorem sketches_makeConstant {o : Order} (hd : ∀ d p ps, d.open_ = p :: ps →
    ∃ p' e', o.draft d = some ⟨p' :: ps, e'⟩ ∧ p'.code = p.code) : Sketches (makeConstant o) := by
  have hext : Sketches (extend o fun e => { e with constants := e.constants + 1 }) := by
    refine sketches_extend (fun e => Nat.le_refl _) fun d p ps hp => ?_
    obtain ⟨p', e', hstep, hcode⟩ := hd d p ps hp
    exact ⟨p', e', hstep, fun e he => by rw [hcode, he]⟩
  unfold makeConstant
  dsimp only
  infer_instance

instance (chars : Bytes) : Sketches (makeConstant (.string chars)) :=
  sketches_makeConstant fun d p ps hp =>
    ⟨p.addConstant (.string chars), none, by simp [Order.draft, Drafts.onInner, hp], rfl⟩

instance (f : Float) : Sketches (makeConstant (.number (.number f))) :=
  sketches_makeConstant fun d p ps hp =>
    ⟨p.addConstant (.number (.number f)), none,
      by simp [Order.draft, Drafts.onInner, hp, Value.isNumeral_number], rfl⟩

instance (chars : Bytes) : Sketches (nameConstant chars) := by
  unfold nameConstant
  infer_instance

instance : Sketches beginScope := by
  unfold beginScope
  infer_instance

instance (depth : Nat) (locals : List Local) : Sketches (dropLocals depth locals) := by
  induction locals with
  | nil => exact (inferInstance : Sketches (pure ()))
  | cons l rest ih =>
    unfold dropLocals
    infer_instance

instance : Sketches endScope := by
  unfold endScope
  infer_instance

instance (name : Bytes) : Sketches (addLocal name) := by
  unfold addLocal
  infer_instance

instance : Sketches declareVariable := by
  unfold declareVariable
  dsimp only
  infer_instance

instance (what : String) : Sketches (parseVariable what) := by
  unfold parseVariable
  infer_instance

instance : Sketches markInitialized := by
  unfold markInitialized
  dsimp only
  infer_instance

instance (global : UInt8) : Sketches (defineVariable global) := by
  unfold defineVariable
  infer_instance

def CapturesWithin (low high : Nat) (found : List Finding) : Prop :=
  ∀ d, .capture d ∈ found → low ≤ d ∧ d < high

theorem CapturesWithin.append {low high : Nat} {a b : List Finding} (ha : CapturesWithin low high a)
    (hb : CapturesWithin low high b) : CapturesWithin low high (a ++ b) := by
  intro d hd
  rcases List.mem_append.mp hd with hd | hd
  · exact ha d hd
  · exact hb d hd

theorem capturesWithin_slotOf (low high : Nat) (s : Scope) (name : Bytes) :
    CapturesWithin low high (s.slotOf name).2 := by
  intro d hd
  unfold Scope.slotOf at hd
  split at hd
  · cases hd
  · dsimp only at hd
    split at hd
    · cases List.mem_singleton.mp hd
    · cases hd

theorem capturesWithin_addCapture (depth : Nat) (s : Scope) (k : Capture) :
    CapturesWithin depth (depth + 1) (s.addCapture depth k).2.2 := by
  intro d hd
  unfold Scope.addCapture at hd
  split at hd
  · cases hd
  · split at hd
    · cases List.mem_singleton.mp hd
    · cases List.mem_singleton.mp hd
      omega

theorem findCapture_findings (name : Bytes) (depth : Nat) (scopes : List Scope) :
    (Scope.findCapture name depth scopes).2.1.length = scopes.length ∧
      CapturesWithin depth (depth + scopes.length) (Scope.findCapture name depth scopes).2.2 := by
  induction scopes generalizing depth with
  | nil => exact ⟨rfl, nofun⟩
  | cons s outer ih =>
    cases outer with
    | nil => exact ⟨rfl, nofun⟩
    | cons o rest =>
      have hadd (k : Capture) : CapturesWithin depth (depth + (s :: o :: rest).length)
          (s.addCapture depth k).2.2 := fun d hd => by
        have := capturesWithin_addCapture depth s k d hd
        simp only [List.length_cons]
        omega
      have hslot := capturesWithin_slotOf depth (depth + (s :: o :: rest).length) o name
      rw [Scope.findCapture]
      split
      · rename_i slot found hs
        rw [hs] at hslot
        exact ⟨rfl, hslot.append (hadd _)⟩
      · obtain ⟨hlen, hwithin⟩ := ih (depth + 1)
        have hlift : CapturesWithin depth (depth + (s :: o :: rest).length)
            (Scope.findCapture name (depth + 1) (o :: rest)).2.2 := fun d hd => by
          have := hwithin d hd
          simp only [List.length_cons] at this ⊢
          omega
        split
        · rename_i hf
          rw [hf] at hlen hlift
          exact ⟨by rw [List.length_cons, hlen]; rfl, hlift.append (hadd _)⟩
        · rename_i hf
          rw [hf] at hlen hlift
          exact ⟨by rw [List.length_cons, hlen]; rfl, hlift⟩

theorem extends_capture {c : Compiler} (hc : c.Sketched) {d : Nat} (hd : d < c.extents.length) :
    Extends c (order (.capture d) c).2 := by
  obtain ⟨drafts, hdrafts, hall⟩ := hc.made
  have hlen := hall.length_eq
  refine ⟨⟨⟨⟨drafts.open_.modify d fun p => { p with captures := p.captures + 1 }, none⟩, ?_, ?_⟩,
    hc.scopes, hc.inside⟩, rfl, Nat.le_refl _⟩
  · rw [drafts_cons (o := .capture d) rfl, hdrafts]
    show Order.draft drafts (.capture d) = _
    rw [Order.draft, if_pos (by omega)]
  · show List.Forall₂ _ c.extents _
    rw [List.forall₂_iff_get] at hall ⊢
    refine ⟨by simp [hlen], fun i hi hj => ?_⟩
    have := hall.2 i hi (by simpa using hj)
    simp only [List.get_eq_getElem, List.getElem_modify] at this ⊢
    split <;> exact this

theorem extends_reports {c : Compiler} (hc : c.Sketched) {found : List Finding}
    (hf : CapturesWithin 0 c.extents.length found) : Extends c (found.forM report c).2 := by
  induction found generalizing c with
  | nil => exact .refl hc
  | cons f found ih =>
    have hstep : Extends c (report f c).2 := by
      cases f with
      | problem p => exact (inferInstance : Sketches (problem p)).extends_ c hc
      | capture d => exact extends_capture hc (hf d (List.mem_cons_self ..)).2
    refine hstep.trans (ih hstep.sketched fun d hd => ?_)
    have := hf d (List.mem_cons_of_mem _ hd)
    have hlen := hstep.length hc
    omega

instance (f : Finding) : Reports (report f) := by
  cases f with
  | problem p => exact (inferInstance : Reports (problem p))
  | capture d => exact .modify fun _ => rfl

instance {f : α → CompileM Unit} [hf : ∀ a, Reports (f a)] (as : List α) : Reports (as.forM f) := by
  induction as with
  | nil => exact (inferInstance : Reports (pure ()))
  | cons a as ih => exact (inferInstance : Reports (do f a; as.forM f))

theorem resolve_local {name : Bytes} {c : Compiler} {slot : Nat} {found : List Finding}
    (hs : (c.scopes.headD { kind := .script }).slotOf name = (some slot, found)) :
    resolve name c = ((.getLocal, .setLocal, slot.toUInt8), (found.forM report c).2) := by
  have hscope : scope c = (c.scopes.headD { kind := .script }, c) := rfl
  unfold resolve
  rw [run_bind, hscope]
  simp only [hs]
  rfl

def outerAccess (name : Bytes) : Option Nat → CompileM (Opcode × Opcode × UInt8)
  | some i => return (.getUpvalue, .setUpvalue, i.toUInt8)
  | none => return (.getGlobal, .setGlobal, ← nameConstant name)

theorem resolve_other {name : Bytes} {c : Compiler} {found found' : List Finding}
    {index : Option Nat} {scopes : List Scope}
    (hs : (c.scopes.headD { kind := .script }).slotOf name = (none, found))
    (hf : Scope.findCapture name 0 c.scopes = (index, scopes, found')) :
    resolve name c = outerAccess name index { (found'.forM report c).2 with scopes } := by
  have hscope : scope c = (c.scopes.headD { kind := .script }, c) := rfl
  have hget : (get : CompileM Compiler) c = (c, c) := rfl
  unfold resolve
  rw [run_bind, hscope]
  simp only [hs]
  rw [run_bind]
  simp only [hget, hf]
  rfl

instance (name : Bytes) : Sketches (resolve name) where
  reports := by
    have hset (scopes : List Scope) : Reports (modify fun c : Compiler => { c with scopes } :
        CompileM Unit) := .modify fun _ => rfl
    unfold resolve
    refine .bind fun s => ?_
    split
    · infer_instance
    · refine .bind fun c => ?_
      dsimp only
      refine .bind fun _ => .bind fun _ => ?_
      split <;> infer_instance
  extends_ c hc := by
    cases hs : (c.scopes.headD { kind := .script }).slotOf name with
    | mk slot found =>
      cases slot with
      | some slot =>
        have hfound := capturesWithin_slotOf 0 c.extents.length
          (c.scopes.headD { kind := .script }) name
        rw [hs] at hfound
        rw [resolve_local hs]
        exact extends_reports hc hfound
      | none =>
        obtain ⟨index, scopes, found', hf⟩ : ∃ index scopes found',
            Scope.findCapture name 0 c.scopes = (index, scopes, found') := ⟨_, _, _, rfl⟩
        obtain ⟨hsize, hfound⟩ := findCapture_findings name 0 c.scopes
        rw [hf] at hsize hfound
        rw [Nat.zero_add, hc.scopes] at hfound
        have h₁ := extends_reports hc hfound
        have h₂ : Extends c { (found'.forM report c).2 with scopes } := by
          refine h₁.trans (h₁.sketched.congr rfl rfl ?_)
          rw [h₁.sketched.scopes, h₁.length hc, ← hc.scopes]
          exact hsize
        rw [resolve_other hs hf]
        cases index with
        | some i => exact h₂
        | none => exact h₂.trans ((inferInstance : Sketches (nameConstant name)).extends_ _ h₂.sketched)

theorem size_emitByte {c : Compiler} (hc : c.Sketched) (b : UInt8) :
    (emitByte b c).2.inner.size = c.inner.size + 1 := by
  obtain ⟨d, e, es, p, ps, -, hes, -⟩ := hc.cases
  have hemit : (emitByte b c).2.extents = c.extents.modifyHead fun e => { e with size := e.size + 1 } :=
    extents_extend _ _ c
  unfold Compiler.inner
  rw [hemit, hes]
  rfl

theorem size_emitJump {c : Compiler} (hc : c.Sketched) (op : Opcode) :
    (emitJump op c).2.inner.size = c.inner.size + 3 := by
  have h₁ := (inferInstance : Sketches (emitByte op.toByte)).extends_ c hc
  have h₂ := (inferInstance : Sketches (emitByte 0xff)).extends_ _ h₁.sketched
  have hs₁ := size_emitByte hc op.toByte
  have hs₂ := size_emitByte h₁.sketched 0xff
  have hs₃ := size_emitByte h₂.sketched 0xff
  show (emitByte 0xff (emitByte 0xff (emitByte op.toByte c).2).2).2.inner.size = _
  omega

theorem extends_patch {c : Compiler} (hc : c.Sketched) {offset : Nat} (ho : offset < c.inner.size)
    (b : UInt8) : Extends c (order (.patch offset b) c).2 := by
  obtain ⟨d, e, es, p, ps, hd, hes, hopen, hp, hps⟩ := hc.cases
  have hlt : offset < p.code.length := by
    rw [hp]
    simpa [Compiler.inner, hes] using ho
  refine ⟨⟨⟨⟨{ p with code := p.code.set offset b } :: ps, none⟩, ?_, ?_⟩, hc.scopes, hc.inside⟩,
    rfl, Nat.le_refl _⟩
  · rw [drafts_cons (o := .patch offset b) rfl, hd]
    show Order.draft d (.patch offset b) = _
    simp only [Order.draft, hopen]
    rw [if_pos hlt]
  · show List.Forall₂ _ c.extents _
    rw [hes]
    refine .cons ?_ hps
    rw [List.length_set]
    exact hp

instance (o : Order) : Reports (order o) := .modify fun _ => rfl

instance (place : Nat) : Reports (patchJump place) := by
  unfold patchJump
  dsimp only
  infer_instance

structure Above (size : Nat) (act : CompileM α) : Prop where
  reports : Reports act
  extends_ : ∀ c, c.Sketched → size ≤ c.inner.size → Extends c (act c).2

namespace Above

variable {size : Nat}

theorem of_sketches {act : CompileM α} [h : Sketches act] : Above size act :=
  ⟨h.reports, fun c hc _ => h.extends_ c hc⟩

theorem bind {x : CompileM α} {f : α → CompileM β} [hx : Sketches x] (hf : ∀ a, Above size (f a)) :
    Above size (x >>= f) where
  reports := .bind fun a => (hf a).reports
  extends_ c hc hs := by
    have h := hx.extends_ c hc
    exact h.trans ((hf _).extends_ _ h.sketched (Nat.le_trans hs h.size))

theorem jump {op : Opcode} {f : Nat → CompileM α} (hf : ∀ place, Above (max size (place + 2)) (f place)) :
    Above size (emitJump op >>= f) where
  reports := .bind fun place => (hf place).reports
  extends_ c hc hs := by
    have h := (inferInstance : Sketches (emitJump op)).extends_ c hc
    refine h.trans ((hf (emitJump op c).1).extends_ (emitJump op c).2 h.sketched ?_)
    have hsize := size_emitJump hc op
    have hplace : (emitJump op c).1 = (emitJump op c).2.inner.size - 2 := rfl
    omega

theorem patch {place : Nat} (hp : place + 2 ≤ size) : Above size (patchJump place) where
  reports := inferInstance
  extends_ c hc hs := by
    have htwo (c : Compiler) (hc : c.Sketched) (hs : size ≤ c.inner.size) (b b' : UInt8) :
        Extends c (order (.patch (place + 1) b') (order (.patch place b) c).2).2 := by
      have h := extends_patch hc (Nat.lt_of_lt_of_le (by omega : place < size) hs) b
      exact h.trans (extends_patch h.sketched (by have := h.size; omega) b')
    unfold patchJump
    rw [run_bind]
    dsimp only
    split
    · have h := (inferInstance : Sketches (problem .jumpTooLong)).extends_ c hc
      exact h.trans (htwo _ h.sketched (Nat.le_trans hs h.size) _ _)
    · exact htwo c hc hs _ _

theorem patch_bind {place : Nat} {f : Unit → CompileM α} (hp : place + 2 ≤ size)
    (hf : ∀ a, Above size (f a)) : Above size (patchJump place >>= f) where
  reports := .bind fun a => (hf a).reports
  extends_ c hc hs := by
    have h := (patch hp).extends_ c hc hs
    exact h.trans ((hf _).extends_ _ h.sketched (Nat.le_trans hs h.size))

theorem sketches {act : CompileM α} (h : Above 0 act) : Sketches act :=
  ⟨h.reports, fun c hc => h.extends_ c hc (Nat.zero_le _)⟩

end Above

structure Outlined (c : Compiler) (d : Drafts) : Prop where
  drafts : c.drafts = some d
  sizes : List.Forall₂ (fun e p => p.code.length = e.size) c.extents d.open_
  scopes : c.scopes.length = c.extents.length

instance (chars : Bytes) : Sketches (order (.name chars)) where
  reports := .modify fun _ => rfl
  extends_ c hc := by
    refine hc.step (o := .name chars) (f := id) rfl ?_ rfl (fun e => Nat.le_refl _) fun d p ps hp => ?_
    · rw [List.modifyHead_id]
      rfl
    · exact ⟨{ p with name := some chars }, none, by simp [Order.draft, Drafts.onInner, hp],
        fun _ he => he⟩

theorem sketched_beginFunction {c : Compiler} {d : Drafts} (hc : Outlined c d) (kind : FunctionKind) :
    (beginFunction kind c).2.Sketched ∧ (beginFunction kind c).2.extents.tail = c.extents := by
  let rest : CompileM Unit := do
    if kind ≠ .script then order (.name (← lexeme))
    let receiver : Bytes := if kind = .method || kind = .initializer then "this" else ""
    modifyScope fun s => { s with locals := [{ name := receiver, depth := some 0 }] }
  let c₁ : Compiler := { c with
    scopes := { kind } :: c.scopes
    extents := {} :: c.extents
    orders := .begin :: c.orders }
  have h₁ : c₁.Sketched := by
    refine ⟨⟨⟨{} :: d.open_, none⟩, ?_, .cons rfl hc.sizes⟩, ?_, List.cons_ne_nil _ _⟩
    · rw [drafts_cons (o := .begin) (c := c) rfl, hc.drafts]
      rfl
    · exact congrArg (· + 1) hc.scopes
  have hrest : Sketches rest := by
    dsimp only [rest]
    infer_instance
  have h := hrest.extends_ c₁ h₁
  exact ⟨h.sketched, h.outer⟩

theorem outlined_endFunction {c : Compiler} (hc : c.Sketched) :
    ∃ d p, Outlined (endFunction c).2 ⟨d, some p⟩ ∧ (endFunction c).2.extents = c.extents.tail := by
  have h := (inferInstance : Sketches emitReturn).extends_ c hc
  obtain ⟨d, e, es, p, ps, hd, hes, hopen, -, hps⟩ := h.sketched.cases
  have hlen := h.sketched.scopes
  have hext : (endFunction c).2.extents = es := by
    show (emitReturn c).2.extents.tail = es
    rw [hes]
    rfl
  refine ⟨ps, p, ⟨?_, ?_, ?_⟩, ?_⟩
  · rw [drafts_cons (o := .finish) (c := (emitReturn c).2) rfl, hd]
    show Order.draft d .finish = _
    simp only [Order.draft, hopen]
  · rw [hext]
    exact hps
  · rw [hext]
    show (emitReturn c).2.scopes.tail.length = _
    rw [hes] at hlen
    rw [List.length_tail, hlen]
    rfl
  · rw [hext, ← h.outer, hes]
    rfl

theorem extends_enclose {c : Compiler} {d : List Prototype} {p : Prototype}
    (hc : Outlined c ⟨d, some p⟩) (hin : c.extents ≠ []) : Extends c (makeConstant .enclose c).2 := by
  let add (c : Compiler) : Compiler :=
    (extend .enclose (fun e => { e with constants := e.constants + 1 }) c).2
  have hadd : Extends c (add c) := by
    have hs : c.Sketched := ⟨⟨_, hc.drafts, hc.sizes⟩, hc.scopes, hin⟩
    cases hes : c.extents with
    | nil => exact absurd hes hin
    | cons e es =>
      have hsizes := hc.sizes
      rw [hes, List.forall₂_cons_left_iff] at hsizes
      obtain ⟨q, qs, hq, hqs, hopen⟩ := hsizes
      have hes' : (add c).extents = { e with constants := e.constants + 1 } :: es := by
        rw [extents_extend, hes]
        rfl
      refine ⟨⟨⟨⟨q.addConstant (.function p) :: qs, none⟩, ?_, ?_⟩, ?_, ?_⟩, ?_, ?_⟩
      · rw [drafts_cons (o := .enclose) (c := c) rfl, hc.drafts]
        show Order.draft ⟨d, some p⟩ .enclose = _
        simp only [Order.draft, Drafts.onInner]
        rw [show d = q :: qs from hopen]
      · rw [hes']
        exact .cons hq hqs
      · rw [hes']
        show c.scopes.length = _
        rw [hc.scopes, hes]
        rfl
      · simp [hes']
      · rw [hes', hes]
        rfl
      · unfold Compiler.inner
        exact Nat.le_of_eq (by rw [hes', hes]; rfl)
  show Extends c ((if 256 ≤ c.inner.constants then do
      problem .tooManyConstants
      return 0
    else return c.inner.constants.toUInt8 : CompileM UInt8) (add c)).2
  split
  · exact hadd.trans ((inferInstance : Sketches (problem .tooManyConstants)).extends_ _ hadd.sketched)
  · exact hadd

end CompileM

end Lox

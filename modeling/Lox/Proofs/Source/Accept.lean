import Lox.Proofs.Compile.Grammar
import Lox.Proofs.Source.Parse
import Lox.Proofs.Source.Plans

namespace Lox

def Origin.capture (o : Origin) : Capture :=
  ⟨o.index.toUInt8, o.isLocal⟩

structure IsIdentifier (name : Bytes) : Prop where
  kind : TokenKind.ofWord name = .identifier
  nonempty : name ≠ ""

namespace IsIdentifier

variable {name : Bytes}

theorem ne_this (h : IsIdentifier name) : name ≠ "this" := by
  rintro rfl
  exact absurd h.kind (by decide)

theorem ne_super (h : IsIdentifier name) : name ≠ "super" := by
  rintro rfl
  exact absurd h.kind (by decide)

theorem not_hidden (h : IsIdentifier name) : name ∉ PlanM.hiddenNames := by
  simp [PlanM.hiddenNames, h.ne_super, h.ne_this, h.nonempty]

end IsIdentifier

/-- The names that are keywords stand for their keywords only. -/
structure Token.Genuine (t : Token) : Prop where
  this : t.kind = .this_ → t.lexeme = "this"
  identifier : t.kind = .identifier → IsIdentifier t.lexeme

def Stream : List Token → Prop
  | [] => False
  | [t] => t.kind = .eof
  | t :: u :: rest => t.kind ≠ .eof ∧ t.Genuine ∧ Stream (u :: rest)

theorem Stream.genuine {t : Token} {rest : List Token} (h : Stream (t :: rest)) : t.Genuine := by
  cases rest with
  | nil =>
    have heof : t.kind = .eof := h
    constructor
    · intro ht
      rw [heof] at ht
      cases ht
    · intro ht
      rw [heof] at ht
      cases ht
  | cons u rest => exact h.2.1

theorem Stream.genuine_of_mem {ts : List Token} (h : Stream ts) : ∀ t ∈ ts, t.Genuine := by
  induction ts with
  | nil => exact nofun
  | cons t rest ih =>
    intro u hu
    rcases List.mem_cons.mp hu with rfl | hu
    · exact h.genuine
    · obtain _ | ⟨v, rest⟩ := rest
      · cases hu
      · exact ih h.2.2 u hu

theorem Stream.kind_last {ts : List Token} {t : Token} (h : Stream (ts ++ [t])) : t.kind = .eof := by
  induction ts with
  | nil => exact h
  | cons u ts ih =>
    cases ts with
    | nil => exact h.2.2
    | cons v ts => exact ih h.2.2

structure Alike (s : Scope) (e : Extent) (p : Prototype) (l : Level) (code : List UInt8) : Prop where
  kind : s.kind = l.kind
  name : p.name = l.name
  arity : e.arity = l.arity
  parameters : p.arity = l.arity
  locals : s.locals = l.locals
  depth : s.depth = l.depth
  captures : s.captures = l.origins.map Origin.capture
  captured : p.captures = l.origins.length
  bytes : p.code = code
  traced : p.lines.length = code.length
  size : e.size = code.length
  constants : List.Forall₂ Item.Made l.constants p.constants
  count : e.constants = l.constants.length
  slots : l.locals.length ≤ 256
  few : l.origins.length ≤ 256
  small : ∀ o ∈ l.origins, o.index < 256

inductive AllAlike :
    List Scope → List Extent → List Prototype → List Level → List (List UInt8) → Prop where
  | nil : AllAlike [] [] [] [] []
  | cons {s e p l code ss es ps ls codes} (head : Alike s e p l code) (tail : AllAlike ss es ps ls codes) :
      AllAlike (s :: ss) (e :: es) (p :: ps) (l :: ls) (code :: codes)

theorem AllAlike.length_eq {ss es ps ls codes} (h : AllAlike ss es ps ls codes) :
    ss.length = ps.length := by
  induction h with
  | nil => rfl
  | cons _ _ ih => exact congrArg (· + 1) ih

structure At (c : Compiler) (prev : Token) (ts : List Token) (g : Plan) (codes : List (List UInt8)) :
    Prop where
  clean : c.diagnostics = []
  calm : c.panicking = false
  previous : c.previous = prev
  tokens : c.current :: c.upcoming = ts
  stream : Stream ts
  classes : c.classes = g.classes
  drafted : ∃ d, c.drafts = some d ∧ AllAlike c.scopes c.extents d.open_ g.levels codes

def Accepts {α : Type} (act : CompileM α) (c : Compiler) (post : α → Compiler → Prop) : Prop :=
  (act c).2.diagnostics = [] → post (act c).1 (act c).2

namespace Accepts

open CompileM

variable {α β : Type} {c : Compiler} {post : β → Compiler → Prop} {mid : α → Compiler → Prop}

theorem bind {x : CompileM α} {f : α → CompileM β} [hf : ∀ a, Reports (f a)] (hx : Accepts x c mid)
    (hmid : ∀ a c', mid a c' → Accepts (f a) c' post) : Accepts (x >>= f) c post := by
  intro h
  exact hmid _ _ (hx ((hf (x c).1).clean (x c).2 h)) h

theorem pure {a : β} (h : post a c) : Accepts (Pure.pure a) c post :=
  fun _ => h

theorem weaken {x : CompileM α} {post' : α → Compiler → Prop} (hx : Accepts x c mid)
    (h : ∀ a c', mid a c' → post' a c') : Accepts x c post' :=
  fun hc => h _ _ (hx hc)

theorem of_eq {x y : CompileM β} {c' : Compiler} (heq : x c = y c') (h : Accepts y c' post) :
    Accepts x c post := by
  unfold Accepts
  rw [heq]
  exact h

theorem read {x : CompileM α} {f : α → CompileM β} {a : α} (hx : x c = (a, c))
    (h : Accepts (f a) c post) : Accepts (x >>= f) c post := by
  unfold Accepts
  rw [run_bind, hx]
  exact h

end Accepts

namespace At

variable {c : Compiler} {prev : Token} {ts : List Token} {g : Plan} {code : List UInt8}
  {codes : List (List UInt8)}

theorem inner (h : At c prev ts g (code :: codes)) : ∃ d s ss e es p ps l ls, c.drafts = some d ∧
    c.scopes = s :: ss ∧ c.extents = e :: es ∧ d.open_ = p :: ps ∧ g.levels = l :: ls ∧
      Alike s e p l code ∧ AllAlike ss es ps ls codes := by
  obtain ⟨d, hd, hall⟩ := h.drafted
  generalize hs : c.scopes = scopes at hall
  generalize he : c.extents = extents at hall
  generalize hp : d.open_ = prototypes at hall
  generalize hl : g.levels = levels at hall
  cases hall with
  | cons head tail => exact ⟨d, _, _, _, _, _, _, _, _, hd, rfl, rfl, hp, rfl, head, tail⟩

theorem recode {code' : List UInt8} (h : At c prev ts g (code :: codes)) (heq : code = code') :
    At c prev ts g (code' :: codes) :=
  heq ▸ h

theorem level (h : At c prev ts g (code :: codes)) : ∃ l ls, g.levels = l :: ls ∧
    PlanM.level g = some (l, g) := by
  obtain ⟨-, -, -, -, -, -, -, l, ls, -, -, -, -, hl, -⟩ := h.inner
  refine ⟨l, ls, hl, ?_⟩
  unfold PlanM.level
  rw [hl]

end At

namespace CompileM

open Compiler

variable {α β : Type} {c : Compiler} {prev : Token} {ts : List Token} {g : Plan} {code : List UInt8}
  {codes : List (List UInt8)}

theorem accepts_problemAt {t : Token} {p : Problem} {post : Unit → Compiler → Prop}
    (h : c.panicking = false) : Accepts (problemAt t p) c post := by
  intro hclean
  rw [problemAt_eq, if_neg (by simp [h])] at hclean
  cases hclean

theorem accepts_problem {p : Problem} {post : Unit → Compiler → Prop} (h : c.panicking = false) :
    Accepts (problem p) c post :=
  accepts_problemAt h

theorem accepts_problemAtCurrent {p : Problem} {post : Unit → Compiler → Prop}
    (h : c.panicking = false) : Accepts (problemAtCurrent p) c post :=
  accepts_problemAt h

theorem accepts_giveUp_bind {f : Unit → CompileM α} {post : α → Compiler → Prop} (h : At c prev ts g codes)
    (hf : ∀ c', At c' prev ts g codes → Accepts (f ()) c' post) : Accepts (giveUp >>= f) c post :=
  hf { c with stuck := true }
    ⟨h.clean, h.calm, h.previous, h.tokens, h.stream, h.classes, h.drafted⟩

theorem accepts_problemAt_bind {t : Token} {p : Problem} {f : Unit → CompileM α}
    {post : α → Compiler → Prop} [∀ a, Reports (f a)] (h : c.panicking = false) :
    Accepts (problemAt t p >>= f) c post := by
  have hfalse : Accepts (problemAt t p) c fun _ _ => False := accepts_problemAt h
  exact .bind hfalse fun _ _ => False.elim

theorem problem_bind_ne {p : Problem} {f : Unit → CompileM α} [∀ a, Reports (f a)]
    (h : c.panicking = false) : ((problem p >>= f) c).2.diagnostics ≠ [] := by
  have hfalse : Accepts (do problemAt c.previous p; f ()) c fun _ _ => False := accepts_problemAt_bind h
  exact hfalse

theorem accepts_problem_bind {p : Problem} {f : Unit → CompileM α} {post : α → Compiler → Prop}
    [∀ a, Reports (f a)] (h : c.panicking = false) : Accepts (problem p >>= f) c post :=
  accepts_problemAt_bind h

theorem accepts_advance_more {t u : Token} {rest : List Token}
    (h : At c prev (t :: u :: rest) g codes) :
    Accepts advance c fun _ c' => At c' t (u :: rest) g codes := by
  intro hclean
  obtain ⟨hcur, hup⟩ := List.cons.inj h.tokens
  have hrun : advance c = advanceTo (u :: rest) { c with previous := t } := by
    unfold advance
    rw [run_bind, ← hcur, ← hup]
    rfl
  have hto : advanceTo (u :: rest) { c with previous := t } =
      (if u.kind = TokenKind.error then do
        problemAt u (.lexical u.lexeme)
        advanceTo rest
      else pure ()) { c with previous := t, current := u, upcoming := rest } := rfl
  rw [hrun, hto] at hclean ⊢
  split at hclean
  · have hfalse : Accepts (do
        problemAt u (.lexical u.lexeme)
        advanceTo rest) { c with previous := t, current := u, upcoming := rest } fun _ _ => False :=
      accepts_problemAt_bind h.calm
    exact (hfalse hclean).elim
  · rw [if_neg ‹_›]
    exact ⟨h.clean, h.calm, rfl, rfl, h.stream.2.2, h.classes, h.drafted⟩

theorem accepts_advance_end {t : Token} (h : At c prev [t] g codes) :
    Accepts advance c fun _ c' => At c' t [t] g codes := by
  intro _
  obtain ⟨hcur, hup⟩ := List.cons.inj h.tokens
  have hrun : advance c = ((), { c with previous := t }) := by
    unfold advance
    rw [run_bind, ← hcur]
    show advanceTo c.upcoming _ = _
    rw [congrArg advanceTo hup]
    rfl
  rw [hrun]
  exact ⟨h.clean, h.calm, rfl, h.tokens, h.stream, h.classes, h.drafted⟩

theorem run_check {k : TokenKind} {t : Token} {rest : List Token} (h : At c prev (t :: rest) g codes) :
    check k c = (decide (t.kind = k), c) ∧
      Parser.check k (t :: rest) = some (decide (t.kind = k), t :: rest) := by
  obtain ⟨hcur, -⟩ := List.cons.inj h.tokens
  refine ⟨?_, rfl⟩
  rw [← hcur]
  rfl

theorem accepts_accept {k : TokenKind} (h : At c prev ts g codes) (hk : k ≠ .eof) :
    Accepts (accept k) c fun b c' =>
      (b = true ∧ ∃ t ts', ts = t :: ts' ∧ t.kind = k ∧ At c' t ts' g codes ∧
        Parser.accept k ts = some (true, ts') ∧ Parser.expect k ts = some (t, ts')) ∨
      (b = false ∧ c' = c ∧ Parser.accept k ts = some (false, ts) ∧ Parser.expect k ts = none) := by
  obtain _ | ⟨t, rest⟩ := ts
  · exact h.stream.elim
  obtain ⟨hc, hp⟩ := run_check (k := k) h
  intro hclean
  have hrun : accept k c = (if t.kind = k then (do advance; return true) else return false :
      CompileM Bool) c := by
    unfold accept
    rw [run_bind, hc]
    simp only [decide_eq_true_eq]
  rw [hrun] at hclean ⊢
  by_cases hkind : t.kind = k
  · left
    rw [if_pos hkind] at hclean ⊢
    obtain _ | ⟨u, rest⟩ := rest
    · exact absurd (hkind.symm.trans h.stream) hk
    · refine ⟨rfl, t, u :: rest, rfl, hkind, accepts_advance_more h hclean, ?_, ?_⟩
      · unfold Parser.accept
        rw [bind_of hp, decide_eq_true hkind]
        rfl
      · unfold Parser.expect
        rw [bind_of hp, decide_eq_true hkind]
        rfl
  · right
    rw [if_neg hkind] at hclean ⊢
    refine ⟨rfl, rfl, ?_, ?_⟩
    · unfold Parser.accept
      rw [bind_of hp, decide_eq_false hkind]
      rfl
    · unfold Parser.expect
      rw [bind_of hp, decide_eq_false hkind]
      rfl

theorem accepts_equal (canAssign : Bool) (h : At c prev ts g codes) :
    Accepts (pure canAssign <&&> accept .equal) c fun b c' =>
      (b = true ∧ ∃ t ts', ts = t :: ts' ∧ At c' t ts' g codes ∧
        (pure canAssign <&&> Parser.accept .equal) ts = some (true, ts')) ∨
      (b = false ∧ c' = c ∧ (pure canAssign <&&> Parser.accept .equal) ts = some (false, ts)) := by
  cases canAssign with
  | false => exact .pure (.inr ⟨rfl, rfl, rfl⟩)
  | true =>
    refine (accepts_accept h (by nofun)).weaken fun b c' hb => ?_
    rcases hb with ⟨rfl, t, ts', hts, -, hat, hp, -⟩ | ⟨rfl, rfl, hp, -⟩
    · exact .inl ⟨rfl, t, ts', hts, hat, hp⟩
    · exact .inr ⟨rfl, rfl, hp⟩

theorem accepts_consume {k : TokenKind} {what : String} (h : At c prev ts g codes) (hk : k ≠ .eof) :
    Accepts (consume k what) c fun _ c' => ∃ t ts', ts = t :: ts' ∧ t.kind = k ∧ At c' t ts' g codes ∧
      Parser.expect k ts = some (t, ts') := by
  have hrun : consume k what = (do
      if ← accept k then pure () else problemAtCurrent (.expected what)) := by
    funext c
    have hcheck : (check k c).2 = c := rfl
    unfold consume accept
    simp only [run_bind, hcheck]
    cases (check k c).1 <;> rfl
  rw [hrun]
  refine .bind (accepts_accept h hk) fun b c' hb => ?_
  rcases hb with ⟨rfl, t, ts', hts, hkind, hat, -, hp⟩ | ⟨rfl, rfl, -⟩
  · exact .pure ⟨t, ts', hts, hkind, hat, hp⟩
  · exact accepts_problemAtCurrent h.calm

theorem run_lexeme (h : At c prev ts g codes) : lexeme c = (prev.lexeme, c) := by
  rw [← h.previous]
  rfl

theorem at_extend (h : At c prev ts g (code :: codes)) {o : Order} {f : Extent → Extent}
    {F : Prototype → Prototype} {G : Level → Level} {code' : List UInt8}
    (ho : ∀ d p ps, c.drafts = some d → d.open_ = p :: ps → o.draft d = some ⟨F p :: ps, none⟩)
    (halike : ∀ s e p l, Alike s e p l code → Alike s (f e) (F p) (G l) code') :
    At (extend o f c).2 prev ts { g with levels := g.levels.modifyHead G } (code' :: codes) := by
  obtain ⟨d, s, ss, e, es, p, ps, l, ls, hd, hs, he, hp, hl, head, tail⟩ := h.inner
  refine ⟨h.clean, h.calm, h.previous, h.tokens, h.stream, h.classes, ⟨F p :: ps, none⟩, ?_, ?_⟩
  · rw [drafts_cons (o := o) (c := c) rfl, hd]
    exact ho d p ps hd hp
  · have hext : (extend o f c).2.extents = f e :: es := by
      rw [extents_extend, he]
      rfl
    show AllAlike c.scopes (extend o f c).2.extents (F p :: ps) (g.levels.modifyHead G) (code' :: codes)
    rw [hext, hs, hl]
    exact .cons (halike s e p l head) tail

theorem accepts_emitByte (b : UInt8) (h : At c prev ts g (code :: codes)) :
    Accepts (emitByte b) c fun _ c' => At c' prev ts g ((code ++ [b]) :: codes) := by
  intro _
  have hat : At (emitByte b c).2 prev ts { g with levels := g.levels.modifyHead id }
      ((code ++ [b]) :: codes) := by
    refine at_extend h (F := (·.addByte b c.previous.line))
      (fun d p ps _ hp => by simp [Order.draft, Drafts.onInner, hp]) fun s e p l ha => { ha with
        bytes := ?_
        traced := ?_
        size := ?_ }
    · simp [Template.addByte, ha.bytes]
    · simp [Template.addByte, ha.traced]
    · simp [ha.size]
  rw [List.modifyHead_id] at hat
  exact hat

theorem accepts_emit (op : Opcode) (h : At c prev ts g (code :: codes)) :
    Accepts (emit op) c fun _ c' =>
      At c' prev ts g ((code ++ Code.bytes [.instr op .none]) :: codes) :=
  accepts_emitByte op.toByte h

theorem accepts_emitWith (op : Opcode) (n : Nat) (h : At c prev ts g (code :: codes)) :
    Accepts (emitWith op n.toUInt8) c fun _ c' =>
      At c' prev ts g ((code ++ Code.bytes [.instr op (.byte n)]) :: codes) := by
  refine .bind (accepts_emit op h) fun _ c₁ h₁ => ?_
  refine (accepts_emitByte n.toUInt8 h₁).weaken fun _ c₂ h₂ => ?_
  rw [List.append_assoc] at h₂
  exact h₂

theorem run_codeSize (h : At c prev ts g (code :: codes)) : codeSize c = (code.length, c) := by
  obtain ⟨d, s, ss, e, es, p, ps, l, ls, hd, hs, he, hp, hl, head, tail⟩ := h.inner
  show ((c.extents.headD {}).size, c) = _
  rw [he, ← head.size]
  rfl

theorem accepts_emitJump (op : Opcode) (h : At c prev ts g (code :: codes)) :
    Accepts (emitJump op) c fun place c' => place = code.length + 1 ∧
      At c' prev ts g ((code ++ op.toByte :: [0xff, 0xff]) :: codes) := by
  refine .bind (accepts_emit op h) fun _ c₁ h₁ => ?_
  refine .bind (accepts_emitByte 0xff h₁) fun _ c₂ h₂ => ?_
  refine .bind (accepts_emitByte 0xff h₂) fun _ c₃ h₃ => ?_
  rw [List.append_assoc, List.append_assoc] at h₃
  intro _
  have hsize := run_codeSize h₃
  refine ⟨?_, ?_⟩
  · show (codeSize c₃).1 - 2 = _
    rw [hsize]
    simp only [List.length_append, Code.bytes, List.flatMap_cons, List.flatMap_nil, Line.bytes,
      Operand.bytes, List.length_cons, List.length_nil, List.append_nil]
    omega
  · exact h₃

theorem at_patch {pre post : List UInt8} {x : UInt8} (b : UInt8)
    (h : At c prev ts g ((pre ++ x :: post) :: codes)) :
    At (order (.patch pre.length b) c).2 prev ts g ((pre ++ b :: post) :: codes) := by
  obtain ⟨d, s, ss, e, es, p, ps, l, ls, hd, hs, he, hp, hl, head, tail⟩ := h.inner
  have hset : p.code.set pre.length b = pre ++ b :: post := by
    rw [head.bytes]
    simp
  refine ⟨h.clean, h.calm, h.previous, h.tokens, h.stream, h.classes,
    ⟨{ p with code := p.code.set pre.length b } :: ps, none⟩, ?_, ?_⟩
  · rw [drafts_cons (o := .patch pre.length b) (c := c) rfl, hd]
    show Order.draft d (.patch pre.length b) = _
    simp only [Order.draft, hp]
    rw [if_pos (by rw [head.bytes]; simp)]
  · show AllAlike c.scopes c.extents _ g.levels _
    rw [hs, he, hl]
    exact .cons { head with
      bytes := hset
      traced := by simpa using head.traced
      size := by rw [head.size]; simp } tail

theorem accepts_patchJump {pre post : List UInt8} {op : Opcode} {x y : UInt8} {place : Nat}
    (hplace : place = pre.length + 1) (h : At c prev ts g ((pre ++ op.toByte :: x :: y :: post) :: codes)) :
    Accepts (patchJump place) c fun _ c' => post.length < 65536 ∧
      At c' prev ts g ((pre ++ Code.bytes [.instr op (.short post.length)] ++ post) :: codes) := by
  have hsize := run_codeSize h
  have hdist : (codeSize c).1 - place - 2 = post.length := by
    rw [hsize, hplace]
    simp only [List.length_append, List.length_cons]
    omega
  have hpatch (c : Compiler) (h : At c prev ts g ((pre ++ op.toByte :: x :: y :: post) :: codes)) :
      Accepts (do
        order (.patch place (post.length / 256).toUInt8)
        order (.patch (place + 1) post.length.toUInt8)) c fun _ c' =>
          At c' prev ts g ((pre ++ Code.bytes [.instr op (.short post.length)] ++ post) :: codes) := by
    intro _
    have h₁ : At c prev ts g (((pre ++ [op.toByte]) ++ x :: y :: post) :: codes) := by simpa using h
    have h₂ := at_patch (post.length / 256).toUInt8 h₁
    have h₃ : At (order (.patch (pre ++ [op.toByte]).length (post.length / 256).toUInt8) c).2 prev ts g
        (((pre ++ [op.toByte] ++ [(post.length / 256).toUInt8]) ++ y :: post) :: codes) := by
      simpa using h₂
    have h₄ := at_patch post.length.toUInt8 h₃
    simp only [List.length_append, List.length_cons, List.length_nil] at h₄
    simp only [List.append_assoc, List.cons_append, List.nil_append] at h₄
    subst hplace
    simpa [run_bind, Code.bytes, Line.bytes, Operand.bytes] using h₄
  unfold patchJump
  intro hclean
  rw [run_bind] at hclean ⊢
  dsimp only at hclean ⊢
  rw [hdist, hsize] at hclean ⊢
  by_cases hlt : 65535 < post.length
  · rw [if_pos hlt] at hclean
    exact absurd hclean (problem_bind_ne h.calm)
  · rw [if_neg hlt] at hclean ⊢
    exact ⟨by omega, hpatch c h hclean⟩

theorem accepts_emitLoop {pre post : List UInt8} {start : Nat} (hstart : start = pre.length)
    (h : At c prev ts g ((pre ++ post) :: codes)) :
    Accepts (emitLoop start) c fun _ c' => post.length + 3 < 65536 ∧
      At c' prev ts g ((pre ++ post ++ Code.bytes [.instr .loop (.short (post.length + 3))]) :: codes) := by
  refine .bind (accepts_emit .loop h) fun _ c₁ h₁ => ?_
  have hsize := run_codeSize h₁
  have hdist : (codeSize c₁).1 - start + 2 = post.length + 3 := by
    rw [hsize, hstart]
    simp only [List.length_append, Code.bytes, List.flatMap_cons, List.flatMap_nil, Line.bytes,
      Operand.bytes, List.length_cons, List.length_nil, List.append_nil]
    omega
  have hbytes : Accepts (do
      emitByte ((post.length + 3) / 256).toUInt8
      emitByte (post.length + 3).toUInt8) c₁ fun _ c' =>
        At c' prev ts g ((pre ++ post ++ Code.bytes [.instr .loop (.short (post.length + 3))]) :: codes) := by
    refine .bind (accepts_emitByte _ h₁) fun _ c₂ h₂ => ?_
    refine (accepts_emitByte _ h₂).weaken fun _ c₃ h₃ => ?_
    simpa [Code.bytes, Line.bytes, Operand.bytes] using h₃
  intro hclean
  rw [run_bind] at hclean ⊢
  dsimp only at hclean ⊢
  rw [hdist, hsize] at hclean ⊢
  by_cases hlt : 65535 < post.length + 3
  · rw [if_pos hlt] at hclean
    exact absurd hclean (problem_bind_ne h₁.calm)
  · rw [if_neg hlt] at hclean ⊢
    exact ⟨by omega, hbytes hclean⟩

theorem run_modifyLevel (G : Level → Level) (h : At c prev ts g (code :: codes)) :
    PlanM.modifyLevel G g = some ((), { g with levels := g.levels.modifyHead G }) := by
  obtain ⟨l, ls, hl, -⟩ := h.level
  unfold PlanM.modifyLevel
  rw [hl]
  rfl

theorem accepts_makeConstant {o : Order} {item : Item} {k : Literal} (hk : Item.Made item k)
    (ho : ∀ d p ps, c.drafts = some d → d.open_ = p :: ps → o.draft d = some ⟨p.addConstant k :: ps, none⟩)
    (h : At c prev ts g (code :: codes)) :
    Accepts (makeConstant o) c fun b c' => ∃ i g', PlanM.constant item g = some (i, g') ∧ i < 256 ∧
      b = i.toUInt8 ∧ At c' prev ts g' (code :: codes) := by
  obtain ⟨d, s, ss, e, es, p, ps, l, ls, hd, hs, he, hp, hl, head, tail⟩ := h.inner
  have hat := at_extend h (f := fun e => { e with constants := e.constants + 1 })
    (G := fun l => { l with constants := l.constants ++ [item] }) ho
    fun s e p l ha => { ha with
      constants := List.rel_append ha.constants (.cons hk .nil)
      count := by simp [ha.count] }
  have hrun : (extent c).1.constants = l.constants.length := by
    show (c.extents.headD {}).constants = _
    rw [he]
    exact head.count
  have hplan : PlanM.constant item g = some (l.constants.length,
      { g with levels := g.levels.modifyHead fun l => { l with constants := l.constants ++ [item] } }) := by
    have hlevel : PlanM.level g = some (l, g) := by
      unfold PlanM.level
      rw [hl]
    unfold PlanM.constant
    rw [bind_of hlevel, bind_of (run_modifyLevel _ h)]
    rfl
  intro hclean
  unfold makeConstant at hclean ⊢
  rw [run_bind, hrun, run_bind] at hclean ⊢
  split at hclean
  · exact absurd hclean (problem_bind_ne hat.calm)
  · rename_i hlt
    rw [if_neg hlt]
    exact ⟨l.constants.length, _, hplan, by omega, rfl, hat⟩

theorem accepts_nameConstant (name : Bytes) (h : At c prev ts g (code :: codes)) :
    Accepts (nameConstant name) c fun b c' => ∃ i g', PlanM.constant (.string name) g = some (i, g') ∧
      i < 256 ∧ b = i.toUInt8 ∧ At c' prev ts g' (code :: codes) :=
  accepts_makeConstant (.string name) (fun d p ps _ hp => by simp [Order.draft, Drafts.onInner, hp]) h

theorem accepts_emitConstant {o : Order} {item : Item} {k : Literal} (hk : Item.Made item k)
    (ho : ∀ d p ps, c.drafts = some d → d.open_ = p :: ps → o.draft d = some ⟨p.addConstant k :: ps, none⟩)
    (h : At c prev ts g (code :: codes)) :
    Accepts (emitConstant o) c fun _ c' => ∃ i g', PlanM.constant item g = some (i, g') ∧ i < 256 ∧
      At c' prev ts g' ((code ++ Code.bytes [.instr .constant (.byte i)]) :: codes) := by
  refine .bind (accepts_makeConstant hk ho h) fun b c₁ ⟨i, g', hg, hi, hb, h₁⟩ => ?_
  subst hb
  exact (accepts_emitWith .constant i h₁).weaken fun _ c₂ h₂ => ⟨i, g', hg, hi, h₂⟩

end CompileM

end Lox

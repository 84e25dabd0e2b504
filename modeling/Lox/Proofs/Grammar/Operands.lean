import Lox.Proofs.Grammar.Code
import Lox.Proofs.Source.Steps

namespace Lox

structure Clear (c : Compiler) (prev : Token) (ts : List Token) (items : List Item) (code : List UInt8) : Prop where
  compiler : At c prev ts (Plan.script items) [code]
  quiet : ∀ t ∈ ts, t.kind ≠ .error

theorem Clear.recode {c : Compiler} {prev : Token} {ts : List Token} {items : List Item} {code code' : List UInt8}
    (h : Clear c prev ts items code) (heq : code = code') : Clear c prev ts items code' :=
  heq ▸ h

namespace CompileM

open Compiler

def Yields {α : Type} (act : CompileM α) (c : Compiler) (post : α → Compiler → Prop) : Prop :=
  post (act c).1 (act c).2

namespace Yields

variable {α β : Type} {c : Compiler} {post : β → Compiler → Prop} {mid : α → Compiler → Prop}

theorem bind {x : CompileM α} {f : α → CompileM β} (hx : Yields x c mid)
    (hmid : ∀ a c', mid a c' → Yields (f a) c' post) : Yields (x >>= f) c post :=
  hmid _ _ hx

theorem weaken {x : CompileM α} {post' : α → Compiler → Prop} (hx : Yields x c mid)
    (h : ∀ a c', mid a c' → post' a c') : Yields x c post' :=
  h _ _ hx

theorem pure {b : β} (h : post b c) : Yields (Pure.pure b) c post :=
  h

theorem read {x : CompileM α} {f : α → CompileM β} {a : α} (hx : x c = (a, c)) (h : Yields (f a) c post) :
    Yields (x >>= f) c post := by
  unfold Yields
  rw [run_bind, hx]
  exact h

theorem congr {x y : CompileM β} {c' : Compiler} (heq : x c = y c') (h : Yields y c' post) : Yields x c post := by
  unfold Yields
  rw [heq]
  exact h

end Yields

variable {α : Type} {c : Compiler} {prev : Token} {ts ts' : List Token} {items : List Item} {code : List UInt8}

theorem yields_advance {t : Token} (h : Clear c prev ts items code) (hnext : Parser.next ts = some (t, ts')) :
    Yields advance c fun _ c' => Clear c' t ts' items code := by
  obtain _ | ⟨t, _ | ⟨u, rest⟩⟩ := ts
  · cases hnext
  · cases hnext
  · cases hnext
    have hquiet : ∀ v ∈ u :: rest, v.kind ≠ .error := fun v hv => h.quiet v (List.mem_cons_of_mem t hv)
    have hclean : (advance c).2.diagnostics = [] := by
      obtain ⟨hcur, hup⟩ := List.cons.inj h.compiler.tokens
      have hrun : advance c = advanceTo (u :: rest) { c with previous := t } := by
        unfold advance
        rw [run_bind, ← hcur, ← hup]
        rfl
      have hto : advanceTo (u :: rest) { c with previous := t } =
          ((), { c with previous := t, current := u, upcoming := rest }) := by
        show (if u.kind = .error then (do
          problemAt u (.lexical u.lexeme)
          advanceTo rest) else pure () : CompileM Unit) _ = _
        rw [if_neg (hquiet u (List.mem_cons_self ..))]
        rfl
      rw [hrun, hto]
      exact h.compiler.clean
    exact ⟨accepts_advance_more h.compiler hclean, hquiet⟩

theorem run_check_clear {k : TokenKind} {b : Bool} (h : Clear c prev ts items code)
    (hcheck : Parser.check k ts = some (b, ts')) : ts' = ts ∧ check k c = (b, c) := by
  obtain ⟨rfl, t, rest, rfl, rfl⟩ := Parser.check_some hcheck
  exact ⟨rfl, (run_check h.compiler).1⟩

theorem yields_accept {k : TokenKind} {t : Token} {ts₁ : List Token} (h : Clear c prev ts items code)
    (hcheck : Parser.check k ts = some (true, ts₁)) (hnext : Parser.next ts₁ = some (t, ts')) :
    Yields (accept k) c fun b c' => b = true ∧ Clear c' t ts' items code := by
  obtain ⟨rfl, hrun⟩ := run_check_clear h hcheck
  unfold accept
  refine .read hrun ?_
  rw [if_pos rfl]
  exact .bind (yields_advance h hnext) fun _ c₁ h₁ => .pure ⟨rfl, h₁⟩

theorem run_accept_none {k : TokenKind} {ts₁ : List Token} (h : Clear c prev ts items code)
    (hcheck : Parser.check k ts = some (false, ts₁)) : accept k c = (false, c) := by
  obtain ⟨-, hrun⟩ := run_check_clear h hcheck
  unfold accept
  rw [run_bind, hrun]
  rfl

theorem yields_consume {k : TokenKind} {what : String} {t : Token} (h : Clear c prev ts items code)
    (hexpect : Parser.expect k ts = some (t, ts')) :
    Yields (consume k what) c fun _ c' => Clear c' t ts' items code := by
  obtain ⟨b, ts₁, hcheck, hrest⟩ := bind_some hexpect
  obtain ⟨rfl, hrun⟩ := run_check_clear h hcheck
  cases b with
  | false => cases hrest
  | true =>
    unfold consume
    refine .read hrun ?_
    exact yields_advance h hrest

theorem yields_emitByte (b : UInt8) (h : Clear c prev ts items code) :
    Yields (emitByte b) c fun _ c' => Clear c' prev ts items (code ++ [b]) :=
  ⟨accepts_emitByte b h.compiler h.compiler.clean, h.quiet⟩

theorem yields_emit (op : Opcode) (h : Clear c prev ts items code) :
    Yields (emit op) c fun _ c' => Clear c' prev ts items (code ++ Code.bytes [.instr op .none]) :=
  ⟨accepts_emit op h.compiler h.compiler.clean, h.quiet⟩

theorem yields_emitWith (op : Opcode) (k : Nat) (h : Clear c prev ts items code) :
    Yields (emitWith op k.toUInt8) c fun _ c' => Clear c' prev ts items (code ++ Code.bytes [.instr op (.byte k)]) :=
  ⟨accepts_emitWith op k h.compiler h.compiler.clean, h.quiet⟩

theorem yields_emitJump (op : Opcode) (h : Clear c prev ts items code) :
    Yields (emitJump op) c fun place c' => place = code.length + 1 ∧
      Clear c' prev ts items (code ++ op.toByte :: [0xff, 0xff]) := by
  obtain ⟨hplace, hat⟩ := accepts_emitJump op h.compiler h.compiler.clean
  exact ⟨hplace, hat, h.quiet⟩

theorem yields_patchJump {pre post : List UInt8} {op : Opcode} {x y : UInt8} {place : Nat}
    (hplace : place = pre.length + 1) (hfar : post.length < 65536)
    (h : Clear c prev ts items (pre ++ op.toByte :: x :: y :: post)) :
    Yields (patchJump place) c fun _ c' =>
      Clear c' prev ts items (pre ++ Code.bytes [.instr op (.short post.length)] ++ post) := by
  have hclean : (patchJump place c).2.diagnostics = [] := by
    have hdistance : (codeSize c).1 - place - 2 = post.length := by
      rw [run_codeSize h.compiler, hplace]
      simp only [List.length_append, List.length_cons]
      omega
    unfold patchJump
    rw [run_bind]
    dsimp only
    rw [hdistance, run_codeSize h.compiler, if_neg (by omega)]
    exact h.compiler.clean
  exact ⟨(accepts_patchJump hplace h.compiler hclean).2, h.quiet⟩

theorem yields_makeConstant {o : Order} {item : Item} {k : Literal} (hk : Item.Made item k)
    (ho : ∀ d p ps, c.drafts = some d → d.open_ = p :: ps → o.draft d = some ⟨p.addConstant k :: ps, none⟩)
    (hroom : items.length < 256) (h : Clear c prev ts items code) :
    Yields (makeConstant o) c fun b c' =>
      b = items.length.toUInt8 ∧ Clear c' prev ts (items ++ [item]) code := by
  have hclean : (makeConstant o c).2.diagnostics = [] := by
    obtain ⟨d, s, ss, e, es, p, ps, l, ls, hd, hs, he, hp, hl, head, tail⟩ := h.compiler.inner
    cases hl
    have hcount : (extent c).1.constants = items.length := by
      show (c.extents.headD {}).constants = _
      rw [he]
      exact head.count
    unfold makeConstant
    rw [run_bind, hcount, run_bind, if_neg (Nat.not_le.mpr hroom)]
    exact h.compiler.clean
  obtain ⟨i, g', hg, -, hb, hat⟩ := accepts_makeConstant hk ho h.compiler hclean
  rw [PlanM.constant_script] at hg
  cases hg
  exact ⟨hb, hat, h.quiet⟩

theorem yields_nameConstant (name : Bytes) (hroom : items.length < 256) (h : Clear c prev ts items code) :
    Yields (nameConstant name) c fun b c' =>
      b = items.length.toUInt8 ∧ Clear c' prev ts (items ++ [.string name]) code :=
  yields_makeConstant (.string name) (fun d p ps _ hp => by simp [Order.draft, Drafts.onInner, hp]) hroom h

theorem yields_resolve {name : Bytes} (hname : name ≠ "") (hroom : items.length < 256)
    (h : Clear c prev ts items code) :
    Yields (resolve name) c fun r c' => r = (.getGlobal, .setGlobal, items.length.toUInt8) ∧
      Clear c' prev ts (items ++ [.string name]) code := by
  obtain ⟨d, s, ss, e, es, p, ps, l, ls, hd, hs, he, hp, hl, head, tail⟩ := h.compiler.inner
  cases hl
  cases tail
  have hslot : (c.scopes.headD { kind := .script }).slotOf name = (none, []) := by
    rw [hs]
    show s.slotOf name = _
    unfold Scope.slotOf
    rw [head.locals]
    dsimp only
    rw [PlanM.findLocal_script hname]
  have hcapture : Scope.findCapture name 0 c.scopes = (none, [s], []) := by
    rw [hs]
    rfl
  have hrun : resolve name c = ((do
      let b ← nameConstant name
      return (.getGlobal, .setGlobal, b)) : CompileM (Opcode × Opcode × UInt8)) c := by
    have hsame : { (([] : List Finding).forM report c).2 with scopes := [s] } = c := by
      show { c with scopes := [s] } = c
      rw [← hs]
    rw [resolve_other hslot hcapture, hsame]
    rfl
  have hconstant : Yields (do
      let b ← nameConstant name
      return (.getGlobal, .setGlobal, b) : CompileM (Opcode × Opcode × UInt8)) c fun r c' =>
        r = (.getGlobal, .setGlobal, items.length.toUInt8) ∧ Clear c' prev ts (items ++ [.string name]) code := by
    refine .bind (yields_nameConstant name hroom h) ?_
    rintro _ c₁ ⟨rfl, h₁⟩
    exact .pure ⟨rfl, h₁⟩
  exact .congr hrun hconstant

end CompileM

end Lox

namespace Lox

def Phrase.Emitted (φ : Phrase) (ts : List Token) (items : List Item) (code : List UInt8) (c : Compiler) : Prop :=
  ∃ prev, Clear c prev ts (items ++ φ.items) (code ++ Code.bytes (φ.code items.length))

def Arguments.Emitted (as : Arguments) (ts : List Token) (items : List Item) (code : List UInt8)
    (c : Compiler) : Prop :=
  ∃ prev, Clear c prev ts (items ++ as.items) (code ++ Code.bytes (as.code items.length))

def CompileM.Compiles (parse : Goal → CompileM Unit) (read : Nat → Parser Phrase) : Prop :=
  ∀ {depth : Nat} {c : Compiler} {prev : Token} {ts ts' : List Token} {items : List Item} {code : List UInt8}
    {φ : Phrase}, read depth ts = some (φ, ts') → Clear c prev ts items code → φ.Fits items.length →
      Yields (parse (.expression depth)) c fun _ => φ.Emitted ts' items code

namespace Code

theorem fits_append {a b : List Line} : Fits (a ++ b) ↔ Fits a ∧ Fits b :=
  List.forall_mem_append

theorem fits_cons_iff {l : Line} {code : List Line} : Fits (l :: code) ↔ l.Fits ∧ Fits code :=
  List.forall_mem_cons

end Code

theorem Phrase.Fits.room {t : Token} {k : Nat} {op : Opcode} (h : (Phrase.atom t).Fits k)
    (hcode : Phrase.atomCode t k = .instr op (.byte k)) : k < 256 := by
  have hline := h.2 _ (List.mem_singleton_self _)
  rw [hcode] at hline
  exact hline

namespace CompileM

variable {parse : Goal → CompileM Unit} {read : Nat → Parser Phrase} (hp : Compiles parse read) {n : Nat}
  {c : Compiler} {prev t : Token} {ts ts' : List Token} {items : List Item} {code : List UInt8} {φ : Phrase}
  {canAssign : Bool}

theorem yields_assigns {b : Bool} {ts₁ : List Token} (h : Clear c prev ts items code)
    (hcheck : (pure canAssign <&&> Parser.check .equal) ts = some (b, ts₁)) :
    (b = true ∧ ∀ {t ts'}, Parser.next ts₁ = some (t, ts') →
      Yields (pure canAssign <&&> accept .equal) c fun b c' => b = true ∧ Clear c' t ts' items code) ∨
    (b = false ∧ ts₁ = ts ∧ (pure canAssign <&&> accept .equal) c = (false, c)) := by
  cases canAssign with
  | false =>
    cases hcheck
    exact .inr ⟨rfl, rfl, rfl⟩
  | true =>
    cases b with
    | true => exact .inl ⟨rfl, fun hnext => yields_accept h hcheck hnext⟩
    | false => exact .inr ⟨rfl, (run_check_clear h hcheck).1, run_accept_none h hcheck⟩

theorem yields_atom {op : Opcode} (hitems : Phrase.atomItems t = [])
    (hcode : Phrase.atomCode t items.length = .instr op .none) (h : Clear c prev ts items code) :
    Yields (emit op) c fun _ => (Phrase.atom t).Emitted ts items code := by
  refine (yields_emit op h).weaken fun _ c₁ h₁ => ⟨prev, ?_⟩
  rw [Phrase.items, Phrase.code, hitems, hcode, List.append_nil]
  exact h₁

theorem yields_constant {item : Item} {k : Literal} {o : Order} (hk : Item.Made item k)
    (ho : ∀ d p ps, c.drafts = some d → d.open_ = p :: ps → o.draft d = some ⟨p.addConstant k :: ps, none⟩)
    (hitems : Phrase.atomItems t = [item])
    (hcode : Phrase.atomCode t items.length = .instr .constant (.byte items.length)) (hroom : items.length < 256)
    (h : Clear c prev ts items code) :
    Yields (emitConstant o) c fun _ => (Phrase.atom t).Emitted ts items code := by
  refine .bind (yields_makeConstant hk ho hroom h) ?_
  rintro _ c₁ ⟨rfl, h₁⟩
  refine (yields_emitWith .constant items.length h₁).weaken fun _ c₂ h₂ => ⟨prev, ?_⟩
  rw [Phrase.items, Phrase.code, hitems, hcode]
  exact h₂

theorem yields_numberLiteral (ht : t.kind = .number) (hfits : (Phrase.atom t).Fits items.length)
    (h : Clear c t ts items code) : Yields numberLiteral c fun _ => (Phrase.atom t).Emitted ts items code := by
  have hrange := hfits.1 t (List.mem_singleton_self t) ht
  have hcode : Phrase.atomCode t items.length = .instr .constant (.byte items.length) := by
    unfold Phrase.atomCode
    rw [ht]
  have hrun : numberLiteral c = emitConstant (.number (.number (Number.ofLiteral t.lexeme))) c := by
    unfold numberLiteral
    rw [run_bind, run_lexeme h.compiler]
    dsimp only
    rw [hrange]
    rfl
  refine .congr hrun ?_
  refine yields_constant (.number (.number (Number.ofLiteral t.lexeme))) (fun d p ps _ hp => ?_) ?_ hcode
    (hfits.room hcode) h
  · simp [Order.draft, Drafts.onInner, hp, Value.isNumeral_number]
  · unfold Phrase.atomItems
    rw [ht]

theorem yields_stringLiteral (ht : t.kind = .string) (hfits : (Phrase.atom t).Fits items.length)
    (h : Clear c t ts items code) : Yields stringLiteral c fun _ => (Phrase.atom t).Emitted ts items code := by
  have hcode : Phrase.atomCode t items.length = .instr .constant (.byte items.length) := by
    unfold Phrase.atomCode
    rw [ht]
  have hconstant {c : Compiler} (h : Clear c t ts items code) :
      Yields (emitConstant (.string (t.lexeme.drop 1).dropLast)) c fun _ => (Phrase.atom t).Emitted ts items code := by
    refine yields_constant (.string (t.lexeme.drop 1).dropLast) (fun d p ps _ hp => ?_) ?_ hcode (hfits.room hcode) h
    · simp [Order.draft, Drafts.onInner, hp]
    · unfold Phrase.atomItems
      rw [ht]
  unfold stringLiteral
  refine .read (run_lexeme h.compiler) ?_
  dsimp only
  split
  · have hstuck : Clear { c with stuck := true } t ts items code :=
      ⟨⟨h.compiler.clean, h.compiler.calm, h.compiler.previous, h.compiler.tokens, h.compiler.stream,
        h.compiler.classes, h.compiler.drafted⟩, h.quiet⟩
    exact hconstant hstuck
  · exact hconstant h

include hp

theorem yields_variable (ht : t.kind = .identifier) (hgenuine : t.Genuine)
    (hread : Reader.name read canAssign t ts = some (φ, ts')) (hfits : φ.Fits items.length)
    (h : Clear c t ts items code) : Yields (variable_ parse canAssign) c fun _ => φ.Emitted ts' items code := by
  obtain ⟨b, ts₁, hcheck, hrest⟩ := bind_some hread
  have hrun : variable_ parse canAssign c = namedVariable parse t.lexeme canAssign c := by
    unfold variable_
    rw [run_bind, run_lexeme h.compiler]
  have hatom : Phrase.atomItems t = [.string t.lexeme] ∧
      Phrase.atomCode t items.length = .instr .getGlobal (.byte items.length) := by
    unfold Phrase.atomItems Phrase.atomCode
    rw [ht]
    exact ⟨rfl, rfl⟩
  refine .congr hrun ?_
  cases b with
  | true =>
    rw [if_pos rfl] at hrest
    obtain ⟨equal, ts₂, hnext, hrest⟩ := bind_some hrest
    obtain ⟨value, ts₃, hvalue, hend⟩ := bind_some hrest
    cases hend
    obtain ⟨hrange, hcode⟩ := hfits
    rw [Phrase.code, Code.fits_append, Code.fits_cons_iff] at hcode
    have hvalueFits : value.Fits (items ++ [Item.string t.lexeme]).length := by
      rw [List.length_append]
      exact ⟨fun u hu => hrange u (.tail _ (.tail _ hu)), hcode.1⟩
    refine Yields.bind (yields_resolve (hgenuine.name_ne ht) hcode.2.1 h) ?_
    rintro _ c₁ ⟨rfl, h₁⟩
    rcases yields_assigns h₁ hcheck with ⟨-, hassign⟩ | ⟨hfalse, -⟩
    · refine Yields.bind (hassign hnext) ?_
      rintro _ c₂ ⟨rfl, h₂⟩
      rw [if_pos rfl]
      refine Yields.bind (hp hvalue h₂ hvalueFits) ?_
      rintro _ c₃ ⟨prev₃, h₃⟩
      refine (yields_emitWith .setGlobal items.length h₃).weaken fun _ c₄ h₄ => ⟨prev₃, ?_⟩
      simpa [Phrase.items, Phrase.code] using h₄
    · cases hfalse
  | false =>
    cases hrest
    refine Yields.bind (yields_resolve (hgenuine.name_ne ht) (hfits.room hatom.2) h) ?_
    rintro _ c₁ ⟨rfl, h₁⟩
    rcases yields_assigns h₁ hcheck with ⟨htrue, -⟩ | ⟨-, rfl, hnone⟩
    · cases htrue
    · refine Yields.read hnone ?_
      rw [if_neg Bool.false_ne_true]
      refine (yields_emitWith .getGlobal items.length h₁).weaken fun _ c₄ h₄ => ⟨t, ?_⟩
      rw [Phrase.items, Phrase.code, hatom.1, hatom.2]
      exact h₄

theorem yields_grouping {opening : Token} (hread : (do
      let inner ← read Precedence.assignment
      return .group opening inner (← Parser.expect .rightParen) : Parser Phrase) ts = some (φ, ts'))
    (hfits : φ.Fits items.length) (h : Clear c prev ts items code) :
    Yields (grouping parse) c fun _ => φ.Emitted ts' items code := by
  obtain ⟨inner, ts₁, hinner, hrest⟩ := bind_some hread
  obtain ⟨closing, ts₂, hclose, hend⟩ := bind_some hrest
  cases hend
  have hinnerFits : inner.Fits items.length :=
    ⟨fun u hu => hfits.1 u (.tail _ (List.mem_append_left _ hu)), hfits.2⟩
  refine Yields.bind (hp hinner h hinnerFits) fun _ c₁ ⟨prev₁, h₁⟩ => ?_
  exact (yields_consume h₁ hclose).weaken fun _ c₂ h₂ => ⟨closing, h₂⟩

theorem yields_unary {operator : TokenKind} (ht : t.kind = operator)
    (hread : (do return .unary t (← read Precedence.unary) : Parser Phrase) ts = some (φ, ts'))
    (hfits : φ.Fits items.length) (h : Clear c prev ts items code) :
    Yields (unary parse operator) c fun _ => φ.Emitted ts' items code := by
  obtain ⟨operand, ts₁, hoperand, hend⟩ := bind_some hread
  cases hend
  have hoperandFits : operand.Fits items.length := by
    obtain ⟨hrange, hcode⟩ := hfits
    rw [Phrase.code, Code.fits_append] at hcode
    exact ⟨fun u hu => hrange u (.tail _ hu), hcode.1⟩
  refine Yields.bind (hp hoperand h hoperandFits) ?_
  rintro _ c₁ ⟨prev₁, h₁⟩
  refine (yields_emit _ h₁).weaken fun _ c₂ h₂ => ⟨prev₁, ?_⟩
  rw [Phrase.code, ht]
  exact h₂.recode (by simp)

theorem yields_operand (hgenuine : t.Genuine) (hread : Reader.operand read canAssign t ts = some (φ, ts'))
    (hfits : φ.Fits items.length) (h : Clear c t ts items code) :
    ∃ rule, prefixRule parse n canAssign t.kind = some rule ∧ Yields rule c fun _ => φ.Emitted ts' items code := by
  unfold Reader.operand at hread
  cases hk : t.kind <;> rw [hk] at hread
  case leftParen => exact ⟨_, rfl, yields_grouping hp hread hfits h⟩
  case minus => exact ⟨_, rfl, yields_unary hp hk hread hfits h⟩
  case bang => exact ⟨_, rfl, yields_unary hp hk hread hfits h⟩
  case identifier => exact ⟨_, rfl, yields_variable hp hk hgenuine hread hfits h⟩
  case string =>
    cases hread
    exact ⟨_, rfl, yields_stringLiteral hk hfits h⟩
  case number =>
    cases hread
    exact ⟨_, rfl, yields_numberLiteral hk hfits h⟩
  case true_ | false_ | nil_ =>
    cases hread
    exact ⟨_, rfl, yields_atom (by unfold Phrase.atomItems; rw [hk]) (by unfold Phrase.atomCode; rw [hk]) h⟩
  all_goals cases hread

end CompileM

end Lox

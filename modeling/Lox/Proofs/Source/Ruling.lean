import Lox.Proofs.Source.Names
import Lox.Proofs.Source.Rows

set_option synthInstance.maxSize 1024

namespace Lox

structure Opened (last line : Nat) (rows : List Row) (s : Scope) (e : Extent) (p : Prototype) : Prop where
  laid : p.Laid rows
  sorted : (rows.map Row.line).Pairwise (· ≤ ·)
  bounds : ∀ r ∈ rows, 1 ≤ r.line ∧ r.line ≤ line
  inner : ∀ (k : Nat) q, p.constants[k]? = some (.function q) → q.Ruled last
  captures : p.captures = s.captures.length
  size : e.size = p.code.length
  constants : e.constants = p.constants.length

inductive AllOpened (last line : Nat) : List (List Row) → List Scope → List Extent → List Prototype → Prop
  | nil : AllOpened last line [] [] [] []
  | cons {rows s e p rss ss es ps} (head : Opened last line rows s e p) (tail : AllOpened last line rss ss es ps) :
      AllOpened last line (rows :: rss) (s :: ss) (e :: es) (p :: ps)

variable {last line line' : Nat} {rows : List Row} {rss : List (List Row)} {s : Scope} {ss : List Scope} {e : Extent}
  {es : List Extent} {p : Prototype} {ps : List Prototype}

theorem Opened.mono (h : Opened last line rows s e p) (hline : line ≤ line') : Opened last line' rows s e p :=
  { h with bounds := fun r hr => ⟨(h.bounds r hr).1, Nat.le_trans (h.bounds r hr).2 hline⟩ }

theorem AllOpened.mono (h : AllOpened last line rss ss es ps) (hline : line ≤ line') :
    AllOpened last line' rss ss es ps := by
  induction h with
  | nil => exact .nil
  | cons head _ ih => exact .cons (head.mono hline) ih

theorem AllOpened.length_eq (h : AllOpened last line rss ss es ps) : ss.length = ps.length := by
  induction h with
  | nil => rfl
  | cons _ _ ih => exact congrArg (· + 1) ih

theorem Opened.emit (h : Opened last line rows s e p) (hline : 1 ≤ line) {op : Opcode} {bytes : List UInt8}
    (hwidth : ∀ n, op.width? = some n → bytes.length = n)
    (hclosure : op = .closure → ∃ (k : UInt8) (q : Prototype), bytes[0]? = some k ∧
      p.constants[k.toNat]? = some (.function q) ∧ bytes.length = 1 + 2 * q.captures) :
    Opened last line (rows ++ [⟨op, bytes.length, line⟩]) s { e with size := e.size + (1 + bytes.length) } { p with
      code := p.code ++ op.toByte :: bytes
      lines := p.lines ++ List.replicate (1 + bytes.length) line } where
  laid := h.laid.emit hwidth hclosure
  sorted := by
    rw [List.map_append, List.pairwise_append]
    refine ⟨h.sorted, List.pairwise_singleton .., fun l hl k hk => ?_⟩
    obtain ⟨r, hr, rfl⟩ := List.mem_map.mp hl
    rw [List.mem_singleton.mp hk]
    exact (h.bounds r hr).2
  bounds r hr := by
    rcases List.mem_append.mp hr with hr | hr
    · exact h.bounds r hr
    · rw [List.mem_singleton.mp hr]
      exact ⟨hline, Nat.le_refl _⟩
  inner := h.inner
  captures := h.captures
  size := by
    rw [h.size, List.length_append]
    simp [Nat.add_comm]
  constants := h.constants

theorem Opened.addConstant (h : Opened last line rows s e p) {k : Literal} (hk : ∀ q, k = .function q → q.Ruled last) :
    Opened last line rows s { e with constants := e.constants + 1 } (p.addConstant k) where
  laid := h.laid.addConstant k
  sorted := h.sorted
  bounds := h.bounds
  inner i q hq := by
    unfold Template.addConstant at hq
    rcases Nat.lt_trichotomy i p.constants.length with hi | rfl | hi
    · rw [List.getElem?_append_left hi] at hq
      exact h.inner i q hq
    · rw [List.getElem?_concat_length] at hq
      exact hk q (Option.some.inj hq)
    · rw [List.getElem?_eq_none (by simp; omega)] at hq
      cases hq
  captures := h.captures
  size := h.size
  constants := by simp [Template.addConstant, h.constants]

theorem Opened.patch (h : Opened last line rows s e p) {n : Nat} (hn : Rows.Place rows n) (a b : UInt8) :
    Opened last line rows s e { p with code := (p.code.set n a).set (n + 1) b } :=
  { h with
    laid := h.laid.patch hn a b
    size := by
      rw [List.length_set, List.length_set]
      exact h.size }

theorem Opened.ruled (h : Opened last line rows s e p) (hline : line ≤ last) : p.Ruled last :=
  .intro rows h.laid h.sorted (fun r hr => ⟨(h.bounds r hr).1, Nat.le_trans (h.bounds r hr).2 hline⟩) h.inner

theorem opened_new (last line : Nat) (kind : FunctionKind) : Opened last line [] { kind } {} {} :=
  ⟨Template.laid_new, .nil, nofun, fun k q hq => by simp at hq, rfl, rfl, rfl⟩

theorem Opened.addCapture (h : Opened last line rows s e p) {pre post after : List Prototype} {c : Capture}
    (hcap : CompileM.capturing (pre ++ p :: post) (s.addCapture pre.length c).2.2 = some after) :
    ∃ p', after = pre ++ p' :: post ∧ Opened last line rows (s.addCapture pre.length c).2.1 e p' := by
  unfold Scope.addCapture at hcap ⊢
  split at hcap
  · cases hcap
    exact ⟨p, rfl, h⟩
  · split at hcap
    · cases hcap
    · rename_i hfew
      rw [if_neg hfew]
      rw [CompileM.capturing, CompileM.modify_middle] at hcap
      cases hcap
      exact ⟨_, rfl, { h with captures := by simp [h.captures], laid := ⟨h.laid.lines, h.laid.code, fun b r a hr =>
        (h.laid.fits b r a hr).mono List.prefix_rfl List.prefix_rfl⟩ }⟩

theorem AllOpened.findCapture {name : Bytes} {pre after : List Prototype} (h : AllOpened last line rss ss es ps)
    (hcap : CompileM.capturing (pre ++ ps) (Scope.findCapture name pre.length ss).2.2 = some after) :
    ∃ ps', after = pre ++ ps' ∧ AllOpened last line rss (Scope.findCapture name pre.length ss).2.1 es ps' := by
  induction h generalizing pre after with
  | nil =>
    cases hcap
    exact ⟨[], rfl, .nil⟩
  | @cons rows s e p rss ss es ps head tail ih =>
    cases tail with
    | nil =>
      cases hcap
      exact ⟨[p], rfl, .cons head .nil⟩
    | @cons rows' o e' p' rss rest es ps head' tail' =>
      have hlength : (pre ++ [p]).length = pre.length + 1 := by simp
      have hinner (after : List Prototype) := @ih (pre ++ [p]) after
      rw [hlength] at hinner
      rw [Scope.findCapture] at hcap ⊢
      obtain ⟨slot, found, hslot⟩ : ∃ slot found, o.slotOf name = (slot, found) := ⟨_, _, rfl⟩
      rw [hslot] at hcap ⊢
      cases slot with
      | some slot =>
        dsimp only at hcap ⊢
        rw [CompileM.capturing_append] at hcap
        obtain ⟨mid, hmid, hcap⟩ := Option.bind_eq_some_iff.mp hcap
        obtain rfl : mid = pre ++ p :: p' :: ps := by
          unfold Scope.slotOf at hslot
          split at hslot <;> cases hslot
          split at hmid <;> cases hmid
          rfl
        obtain ⟨p₁, rfl, h₁⟩ := head.addCapture hcap
        exact ⟨_, rfl, .cons h₁ (.cons { head' with } tail')⟩
      | none =>
        dsimp only at hcap ⊢
        obtain ⟨index, outer, found', hfind⟩ : ∃ index outer found',
            Scope.findCapture name (pre.length + 1) (o :: rest) = (index, outer, found') := ⟨_, _, _, rfl⟩
        rw [hfind] at hcap hinner ⊢
        cases index with
        | none =>
          obtain ⟨ps', rfl, h₁⟩ := hinner after (by rw [List.append_assoc]; exact hcap)
          exact ⟨p :: ps', by simp, .cons head h₁⟩
        | some j =>
          dsimp only at hcap ⊢
          rw [CompileM.capturing_append] at hcap
          obtain ⟨mid, hmid, hcap⟩ := Option.bind_eq_some_iff.mp hcap
          obtain ⟨ps', rfl, h₁⟩ := hinner mid (by rw [List.append_assoc]; exact hmid)
          rw [List.append_assoc] at hcap
          obtain ⟨p₁, rfl, h₂⟩ := head.addCapture hcap
          exact ⟨_, rfl, .cons h₂ h₁⟩

theorem AllOpened.rescope {ss' : List Scope} (h : AllOpened last line rss ss es ps)
    (hss : ss'.map (·.captures.length) = ss.map (·.captures.length)) : AllOpened last line rss ss' es ps := by
  induction h generalizing ss' with
  | nil =>
    cases List.map_eq_nil_iff.mp hss
    exact .nil
  | cons head _ ih =>
    obtain ⟨s', ss', rfl, hs, hss⟩ := List.map_eq_cons_iff.mp hss
    exact .cons { head with captures := head.captures.trans hs.symm } (ih hss)

namespace Compiler

def Drafted (last line : Nat) (c : Compiler) (rss : List (List Row)) : Prop :=
  ∃ d, c.drafts = some d ∧ AllOpened last line rss c.scopes c.extents d.open_

structure Ruling (last : Nat) (c : Compiler) (rss : List (List Row)) : Prop where
  ordered : c.Ordered last
  calm : c.panicking = false
  drafted : c.Drafted last c.previous.line rss

variable {c c' : Compiler}

theorem Ruling.size (hc : c.Ruling last (rows :: rss)) : (c.extents.headD {}).size = Rows.size rows := by
  obtain ⟨d, -, hopens⟩ := hc.drafted
  generalize c.scopes = ss, c.extents = es, d.open_ = ps at hopens
  cases hopens with
  | cons head _ => exact head.size.trans head.laid.code

theorem Ruling.still {rss' : List (List Row)} (hc : c.Ruling last rss) (hview : c'.view = c.view)
    (hdrafted : c'.Drafted last c.previous.line rss') : c'.Ruling last rss' := by
  have hordered := hc.ordered.of_view hview
  simp only [view, Prod.mk.injEq] at hview
  obtain ⟨hprevious, -, -, hpanicking, -⟩ := hview
  exact ⟨hordered, hpanicking.trans hc.calm, hprevious ▸ hdrafted⟩

theorem Drafted.congr (h : c.Drafted last line rss) (horders : c'.orders = c.orders) (hextents : c'.extents = c.extents)
    (hscopes : c'.scopes.map (·.captures.length) = c.scopes.map (·.captures.length)) (hline : line ≤ line') :
    c'.Drafted last line' rss := by
  obtain ⟨d, hd, hopens⟩ := h
  refine ⟨d, ?_, hextents ▸ (hopens.mono hline).rescope hscopes⟩
  rw [← hd]
  unfold drafts
  rw [horders]

end Compiler

namespace CompileM

open Compiler

variable {α β : Type} {places : List Nat} {c : Compiler}

class Rules (places : List Nat) (act : CompileM α) : Prop where
  running : ∀ c, (act c).2.stuck = false → c.stuck = false
  reports : Reports act
  rules : ∀ last c rows rss, (act c).2.stuck = false → (act c).2.diagnostics = [] → 1 ≤ c.previous.line →
    c.Ruling last (rows :: rss) → (∀ n ∈ places, Rows.Place rows n) →
      1 ≤ (act c).2.previous.line ∧ ∃ more, (act c).2.Ruling last ((rows ++ more) :: rss)

namespace Rules

theorem bind_of {x : CompileM α} {f : α → CompileM β} (hx : Rules places x) {P : α → Prop} (hp : ∀ c, P (x c).1)
    (hf : ∀ a, P a → Rules places (f a)) : Rules places (x >>= f) where
  running c h := hx.running c ((hf _ (hp c)).running _ h)
  reports := ⟨fun c h => hx.reports.clean c ((hf _ (hp c)).reports.clean _ h)⟩
  rules last c rows rss hrun hclean hone hc hplaces := by
    have hrest := hf _ (hp c)
    obtain ⟨hone', more, hc'⟩ := hx.rules last c rows rss (hrest.running _ hrun) (hrest.reports.clean _ hclean) hone hc
      hplaces
    obtain ⟨hone'', more', hc''⟩ := hrest.rules last _ _ rss hrun hclean hone' hc' fun n hn => (hplaces n hn).append
        more
    exact ⟨hone'', more ++ more', by rwa [← List.append_assoc]⟩

theorem bind {x : CompileM α} {f : α → CompileM β} [hx : Rules places x] (hf : ∀ a, Rules places (f a)) :
    Rules places (x >>= f) :=
  bind_of (P := fun _ => True) hx (fun _ => trivial) fun a _ => hf a

instance {x : CompileM α} {f : α → CompileM β} [Rules places x] [hf : ∀ a, Rules places (f a)] :
    Rules places (x >>= f) :=
  bind hf

theorem unchanged {act : CompileM α} [hq : Quiet act] [hr : Reports act] (horders : ∀ c, (act c).2.orders = c.orders)
    (hextents : ∀ c, (act c).2.extents = c.extents)
    (hscopes : ∀ c, (act c).2.scopes.map (·.captures.length) = c.scopes.map (·.captures.length)) :
    Rules places act where
  running := hq.running
  reports := hr
  rules last c rows rss _ _ hone hc _ := by
    refine ⟨congrArg (·.1.line) (hq.view c) ▸ hone, [], ?_⟩
    rw [List.append_nil]
    exact hc.still (hq.view c) (hc.drafted.congr (horders c) (hextents c) (hscopes c) (Nat.le_refl _))

instance (a : α) : Rules places (pure a : CompileM α) :=
  unchanged (fun _ => rfl) (fun _ => rfl) fun _ => rfl

instance : Rules places (get : CompileM Compiler) :=
  unchanged (fun _ => rfl) (fun _ => rfl) fun _ => rfl

instance {q : Prop} [Decidable q] {x y : CompileM α} [hx : Rules places x] [hy : Rules places y] :
    Rules places (if q then x else y) := by
  split
  · exact hx
  · exact hy

instance {x y : CompileM Bool} [Rules places x] [Rules places y] : Rules places (x <&&> y) := by
  refine .bind fun b => ?_
  cases b
  · exact (inferInstance : Rules places (pure false))
  · exact (inferInstance : Rules places y)

instance {x y : CompileM Bool} [Rules places x] [Rules places y] : Rules places (x <||> y) := by
  refine .bind fun b => ?_
  cases b
  · exact (inferInstance : Rules places y)
  · exact (inferInstance : Rules places (pure true))

instance {f : α → CompileM Unit} [hf : ∀ a, Rules places (f a)] (as : List α) : Rules places (as.forM f) := by
  induction as with
  | nil => exact (inferInstance : Rules places (pure ()))
  | cons a as ih => exact (inferInstance : Rules places (do f a; as.forM f))

instance giveUp : Rules places giveUp where
  running _ h := by cases h
  reports := inferInstance
  rules _ _ _ _ h := by cases h

instance (n : Nat) (body : CompileM Bool) [Rules places body] : Rules places (loop n body) := by
  induction n with
  | zero => exact giveUp
  | succ n ih =>
    unfold loop
    infer_instance

end Rules

theorem problemAt_diagnostics {t : Token} {q : Problem} (hcalm : c.panicking = false) :
    (problemAt t q c).2.diagnostics ≠ [] := by
  rw [problemAt_eq, if_neg (by simp [hcalm])]
  exact List.cons_ne_nil _ _

instance (q : Problem) : Rules places (problem q) where
  running c h := (stuck_problemAt c.previous q c).symm.trans h
  reports := inferInstance
  rules _ c _ _ _ hclean _ hc _ := absurd hclean (problemAt_diagnostics (t := c.previous) hc.calm)

instance (q : Problem) : Rules places (problemAtCurrent q) where
  running c h := (stuck_problemAt c.current q c).symm.trans h
  reports := inferInstance
  rules _ c _ _ _ hclean _ hc _ := absurd hclean (problemAt_diagnostics (t := c.current) hc.calm)

theorem advanceTo_keeps (ts : List Token) (c : Compiler) : (advanceTo ts c).2.orders = c.orders ∧
    (advanceTo ts c).2.extents = c.extents ∧ (advanceTo ts c).2.scopes = c.scopes ∧
      (c.panicking = false → (advanceTo ts c).2.diagnostics = [] → (advanceTo ts c).2.panicking = false) := by
  induction ts generalizing c with
  | nil => exact ⟨rfl, rfl, rfl, fun h _ => h⟩
  | cons t ts ih =>
    let c₁ : Compiler := { c with current := t, upcoming := ts }
    have hstep : (advanceTo (t :: ts) c).2 = if t.kind = .error then
        (advanceTo ts (problemAt t (.lexical t.lexeme) c₁).2).2 else c₁ := by
      show ((if t.kind = .error then do
        problemAt t (.lexical t.lexeme)
        advanceTo ts
      else pure () : CompileM Unit) c₁).2 = _
      split <;> rfl
    rw [hstep]
    split
    · obtain ⟨horders, hextents, hscopes, -⟩ := ih (problemAt t (.lexical t.lexeme) c₁).2
      have hframe : (problemAt t (.lexical t.lexeme) c₁).2.orders = c.orders ∧
          (problemAt t (.lexical t.lexeme) c₁).2.extents = c.extents ∧
            (problemAt t (.lexical t.lexeme) c₁).2.scopes = c.scopes := by
        rw [problemAt_eq]
        split <;> exact ⟨rfl, rfl, rfl⟩
      refine ⟨horders.trans hframe.1, hextents.trans hframe.2.1, hscopes.trans hframe.2.2, fun hcalm hclean => ?_⟩
      have hearlier := (inferInstance : Reports (advanceTo ts)).clean _ hclean
      exact absurd hearlier (problemAt_diagnostics (c := c₁) hcalm)
    · exact ⟨rfl, rfl, rfl, fun h _ => h⟩

theorem ruling_advance (hc : c.Ruling last rss) (hrun : (advance c).2.stuck = false)
    (hclean : (advance c).2.diagnostics = []) : 1 ≤ (advance c).2.previous.line ∧ (advance c).2.Ruling last rss := by
  obtain ⟨hordered, hreach⟩ := (inferInstance : Starts advance).abreast last c hrun hc.ordered
  obtain ⟨horders, hextents, hscopes, hcalm⟩ := advanceTo_keeps c.upcoming { c with previous := c.current }
  have hcalm : (advance c).2.panicking = false := hcalm hc.calm hclean
  have hmoved : ({ c with previous := c.current } : Compiler).Ordered last :=
      { hc.ordered with previous := Nat.le_refl _ }
  have hprevious : (advance c).2.previous = c.current := (arrives_advanceTo c.upcoming hmoved rfl).previous
  refine ⟨(hreach hcalm).1, hordered, hcalm, ?_⟩
  exact hc.drafted.congr horders hextents (congrArg _ hscopes) (hprevious ▸ hc.ordered.previous)

instance : Rules places advance where
  running := (inferInstance : Starts advance).running
  reports := inferInstance
  rules last c rows rss hrun hclean _ hc _ := by
    obtain ⟨hone, hc'⟩ := ruling_advance hc hrun hclean
    exact ⟨hone, [], by rwa [List.append_nil]⟩

instance (k : TokenKind) : Rules places (check k) := by
  unfold check
  infer_instance

instance (k : TokenKind) : Rules places (accept k) := by
  unfold accept
  infer_instance

instance (k : TokenKind) (what : String) : Rules places (consume k what) := by
  unfold consume
  infer_instance

instance : Rules places lexeme := by
  unfold lexeme
  infer_instance

instance : Rules places scope := by
  unfold scope
  infer_instance

instance : Rules places extent := by
  unfold extent
  infer_instance

instance : Rules places codeSize := by
  unfold codeSize
  infer_instance

theorem captures_modifyScope {f : Scope → Scope} (hf : ∀ s, (f s).captures = s.captures) (c : Compiler) :
    (modifyScope f c).2.scopes.map (·.captures.length) = c.scopes.map (·.captures.length) := by
  rw [run_modifyScope]
  cases c.scopes with
  | nil => rfl
  | cons s ss => simp [hf]

theorem rules_modifyScope {f : Scope → Scope} (hf : ∀ s, (f s).captures = s.captures) : Rules places (modifyScope f) :=
  .unchanged (fun _ => rfl) (fun _ => rfl) (captures_modifyScope hf)

theorem run_emitBytes (bytes : List UInt8) (c : Compiler) : (bytes.forM emitByte c).2 = { c with
    orders := (bytes.map fun b => Order.byte b c.previous.line).reverse ++ c.orders
    extents := c.extents.modifyHead fun e => { e with size := e.size + bytes.length } } := by
  induction bytes generalizing c with
  | nil =>
    show c = _
    cases c with
    | mk _ _ _ _ _ _ extents _ _ _ => cases extents <;> rfl
  | cons b bytes ih =>
    show (bytes.forM emitByte (emitByte b c).2).2 = _
    have hextents : (emitByte b c).2.extents = c.extents.modifyHead fun e => { e with size := e.size + 1 } :=
      extents_extend _ _ c
    have hemit : (emitByte b c).2 = { c with
        orders := .byte b c.previous.line :: c.orders
        extents := c.extents.modifyHead fun e => { e with size := e.size + 1 } } := by
      rw [← hextents]
      rfl
    rw [ih, hemit]
    cases c with
    | mk _ _ _ _ _ _ extents _ _ _ =>
      cases extents with
      | nil => simp
      | cons e es =>
        simp only [List.modifyHead_cons, List.length_cons, List.map_cons, List.reverse_cons, List.append_assoc,
          List.singleton_append]
        rw [show e.size + 1 + bytes.length = e.size + (bytes.length + 1) by omega]

theorem draftAll_bytes (bytes : List UInt8) (line : Nat) (p : Prototype) (ps : List Prototype) :
    Order.draftAll ⟨p :: ps, none⟩ (bytes.map fun b => Order.byte b line) = some ⟨{ p with
      code := p.code ++ bytes
      lines := p.lines ++ List.replicate bytes.length line } :: ps, none⟩ := by
  induction bytes generalizing p with
  | nil => simp [Order.draftAll]
  | cons b bytes ih =>
    rw [List.map_cons, Order.draftAll_cons]
    show Order.draftAll ⟨p.addByte b line :: ps, none⟩ _ = _
    rw [ih]
    simp [Template.addByte, List.replicate_succ]

theorem drafted_emit {op : Opcode} {bytes : List UInt8} (h : c.Drafted last c.previous.line (rows :: rss))
    (hone : 1 ≤ c.previous.line) (hwidth : ∀ n, op.width? = some n → bytes.length = n)
    (hclosure : op = .closure → ∀ d p ps, c.drafts = some d → d.open_ = p :: ps → ∃ (k : UInt8) (q : Prototype),
      bytes[0]? = some k ∧ p.constants[k.toNat]? = some (.function q) ∧ bytes.length = 1 + 2 * q.captures) :
    ((op.toByte :: bytes).forM emitByte c).2.Drafted last c.previous.line
      ((rows ++ [⟨op, bytes.length, c.previous.line⟩]) :: rss) := by
  obtain ⟨⟨open_, ended⟩, hd, hopens⟩ := h
  rw [run_emitBytes]
  generalize hss : c.scopes = ss, hes : c.extents = es at hopens
  cases hopens with
  | @cons _ s e p _ ss es ps head tail =>
    have hemit := head.emit hone hwidth fun hop => hclosure hop _ p ps hd rfl
    refine ⟨⟨{ p with
      code := p.code ++ op.toByte :: bytes
      lines := p.lines ++ List.replicate (1 + bytes.length) c.previous.line } :: ps, none⟩, ?_, ?_⟩
    · unfold drafts at hd ⊢
      rw [List.reverse_append, List.reverse_reverse, Order.draftAll_append, hd]
      show Order.draftAll ⟨p :: ps, ended⟩ _ = _
      rw [List.map_cons, Order.draftAll_cons]
      show Order.draftAll ⟨p.addByte op.toByte c.previous.line :: ps, none⟩ _ = _
      rw [draftAll_bytes]
      simp [Template.addByte, List.replicate_add]
    · simp only [List.modifyHead_cons, List.length_cons]
      rw [Nat.add_comm bytes.length 1]
      exact .cons hemit tail

theorem ruling_emitBytes {op : Opcode} {bytes : List UInt8} (hc : c.Ruling last (rows :: rss))
    (hone : 1 ≤ c.previous.line) (hwidth : op.width? = some bytes.length) :
    ((op.toByte :: bytes).forM emitByte c).2.Ruling last ((rows ++ [⟨op, bytes.length, c.previous.line⟩]) :: rss) := by
  have hclosure : op ≠ .closure := by
    rintro rfl
    cases hwidth
  have hdrafted : ((op.toByte :: bytes).forM emitByte c).2.Drafted last c.previous.line _ :=
    drafted_emit hc.drafted hone (fun n hn => Option.some.inj (hwidth.symm.trans hn)) (absurd · hclosure)
  exact hc.still ((inferInstance : Quiet ((op.toByte :: bytes).forM emitByte)).view c) hdrafted

theorem rules_emitBytes {op : Opcode} {bytes : List UInt8} (hwidth : op.width? = some bytes.length) :
    Rules places ((op.toByte :: bytes).forM emitByte) where
  running := (inferInstance : Quiet ((op.toByte :: bytes).forM emitByte)).running
  reports := inferInstance
  rules last c rows rss _ _ hone hc _ := by
    refine ⟨?_, _, ruling_emitBytes hc hone hwidth⟩
    rw [run_emitBytes]
    exact hone

theorem rules_emit {op : Opcode} (hop : op.width? = some 0) : Rules places (emit op) :=
  (rules_emitBytes hop : Rules places ([op.toByte].forM emitByte))

theorem rules_emitWith {op : Opcode} (hop : op.width? = some 1) (operand : UInt8) :
    Rules places (emitWith op operand) :=
  (rules_emitBytes hop : Rules places ([op.toByte, operand].forM emitByte))

theorem rules_emitPair {op : Opcode} (hop : op.width? = some 2) (a b : UInt8) : Rules places (do
    emitWith op a
    emitByte b) :=
  (rules_emitBytes hop : Rules places ([op.toByte, a, b].forM emitByte))

theorem rules_emits {ops : List Opcode} (hops : ∀ op ∈ ops, op.width? = some 0) : Rules places (ops.forM emit) := by
  induction ops with
  | nil => exact (inferInstance : Rules places (pure ()))
  | cons op ops ih =>
    have hfirst : Rules places (emit op) := rules_emit (hops op (List.mem_cons_self ..))
    have hrest := ih fun op hop => hops op (List.mem_cons_of_mem _ hop)
    exact (inferInstance : Rules places (do emit op; ops.forM emit))

instance : Rules places (emit .pop) :=
  rules_emit rfl

instance : Rules places (emit .nil) :=
  rules_emit rfl

instance : Rules places emitReturn := by
  have hself : Rules places (emitWith .getLocal 0) := rules_emitWith rfl 0
  have hreturn : Rules places (emit .return_) := rules_emit rfl
  unfold emitReturn
  infer_instance

theorem Rules.jump {op : Opcode} (hop : op.width? = some 2) {f : Nat → CompileM α}
    (hf : ∀ place, Rules (place :: places) (f place)) : Rules places (emitJump op >>= f) where
  running c h := (inferInstance : Quiet (emitJump op)).running c ((hf _).running _ h)
  reports := .bind fun place => (hf place).reports
  rules last c rows rss hrun hclean hone hc hplaces := by
    have hjump : (emitJump op c).2.Ruling last ((rows ++ [⟨op, 2, c.previous.line⟩]) :: rss) :=
      (ruling_emitBytes hc hone hop : ([op.toByte, 0xff, 0xff].forM emitByte c).2.Ruling last _)
    have hplace : (emitJump op c).1 = Rows.size rows + 1 := by
      show ((emitJump op c).2.extents.headD {}).size - 2 = _
      rw [hjump.size, Rows.size_append]
      rfl
    have hline : (emitJump op c).2.previous = c.previous := congrArg (·.1)
        ((inferInstance : Quiet (emitJump op)).view c)
    have hplaces' : ∀ n ∈ (emitJump op c).1 :: places, Rows.Place (rows ++ [⟨op, 2, c.previous.line⟩]) n := by
      refine List.forall_mem_cons.mpr ⟨⟨rows, _, [], rfl, hop, rfl, hplace⟩, fun n hn => (hplaces n hn).append _⟩
    obtain ⟨hone', more, hc'⟩ := (hf (emitJump op c).1).rules last (emitJump op c).2 _ rss hrun hclean (hline ▸ hone)
      hjump hplaces'
    exact ⟨hone', [⟨op, 2, c.previous.line⟩] ++ more, by rwa [← List.append_assoc]⟩

theorem rules_patch {place : Nat} (hplace : place ∈ places) (a b : UInt8) : Rules places (do
    order (.patch place a)
    order (.patch (place + 1) b)) where
  running _ h := h
  reports := inferInstance
  rules last c rows rss _ _ hone hc hplaces := by
    have hat := hplaces place hplace
    obtain ⟨⟨open_, ended⟩, hd, hopens⟩ := hc.drafted
    refine ⟨hone, [], ?_⟩
    rw [List.append_nil]
    refine hc.still rfl ?_
    generalize hss : c.scopes = ss, hes : c.extents = es at hopens
    cases hopens with
    | @cons _ s e p _ ss es ps head tail =>
      refine ⟨⟨{ p with code := (p.code.set place a).set (place + 1) b } :: ps, none⟩, ?_, ?_⟩
      · have hlt := hat.lt
        rw [← head.laid.code] at hlt
        have hfirst : (order (.patch place a) c).2.drafts =
            some ⟨{ p with code := p.code.set place a } :: ps, none⟩ := by
          rw [drafts_cons (o := .patch place a) (c := c) rfl, hd]
          show Order.draft ⟨p :: ps, ended⟩ (.patch place a) = _
          exact if_pos (by omega)
        rw [drafts_cons (o := .patch (place + 1) b) (c := (order (.patch place a) c).2) rfl, hfirst]
        show Order.draft ⟨{ p with code := p.code.set place a } :: ps, none⟩ (.patch (place + 1) b) = _
        exact if_pos (by rwa [List.length_set])
      · show AllOpened last c.previous.line (rows :: rss) c.scopes c.extents _
        rw [hss, hes]
        exact .cons (head.patch hat a b) tail

theorem Rules.patch {place : Nat} (hplace : place ∈ places) : Rules places (patchJump place) := by
  have hpatch (distance : Nat) := rules_patch hplace (distance / 256).toUInt8 distance.toUInt8
  unfold patchJump
  dsimp only
  infer_instance

instance (start : Nat) : Rules places (emitLoop start) where
  running := (inferInstance : Follows (emitLoop start)).running
  reports := inferInstance
  rules last c rows rss hrun hclean hone hc hplaces := by
    unfold emitLoop at hrun hclean ⊢
    rw [run_bind, run_bind] at hrun hclean ⊢
    dsimp only at hrun hclean ⊢
    generalize (codeSize (emit .loop c).2).1 - start + 2 = distance at hrun hclean ⊢
    split at hrun
    · rename_i hlong
      rw [if_pos hlong] at hclean
      have hreport : (problemAt (emit .loop c).2.previous .loopTooLong (emit .loop c).2).2.diagnostics = [] :=
        (inferInstance : Reports (do
          emitByte (distance / 256).toUInt8
          emitByte distance.toUInt8)).clean _ hclean
      exact absurd hreport (problemAt_diagnostics hc.calm)
    · rename_i hshort
      rw [if_neg hshort] at hclean ⊢
      have hemit : Rules places ([Opcode.loop.toByte, (distance / 256).toUInt8, distance.toUInt8].forM emitByte) :=
        rules_emitBytes rfl
      exact hemit.rules last c rows rss hrun hclean hone hc hplaces

theorem Rules.patch_bind {place : Nat} (hplace : place ∈ places) {f : Unit → CompileM α}
    (hf : ∀ a, Rules places (f a)) :
    Rules places (patchJump place >>= f) :=
  have := Rules.patch hplace
  .bind hf

theorem drafted_extend {o : Order} {f : Prototype → Prototype} {g : Extent → Extent} {c' : Compiler}
    (hc : c.Drafted last line (rows :: rss)) (ho : ∀ d : Drafts, o.draft d = d.onInner f)
    (hf : ∀ {s e p}, Opened last line rows s e p → Opened last line rows s (g e) (f p))
    (horders : c'.orders = o :: c.orders) (hextents : c'.extents = c.extents.modifyHead g)
    (hscopes : c'.scopes = c.scopes) :
    c'.Drafted last line (rows :: rss) := by
  obtain ⟨⟨open_, ended⟩, hd, hopens⟩ := hc
  generalize hss : c.scopes = ss, hes : c.extents = es at hopens
  cases hopens with
  | @cons _ s e p _ ss es ps head tail =>
    refine ⟨⟨f p :: ps, none⟩, ?_, ?_⟩
    · rw [drafts_cons horders, hd]
      exact ho ⟨p :: ps, ended⟩
    · rw [hextents, hscopes, hss, hes]
      exact .cons (hf head) tail

theorem rules_extend {o : Order} {f : Prototype → Prototype} {g : Extent → Extent}
    (ho : ∀ d : Drafts, o.draft d = d.onInner f)
    (hf : ∀ {last line rows s e p}, Opened last line rows s e p → Opened last line rows s (g e) (f p)) :
    Rules places (extend o g) where
  running _ h := h
  reports := .modify fun _ => rfl
  rules last c rows rss _ _ hone hc _ := by
    refine ⟨hone, [], ?_⟩
    rw [List.append_nil]
    exact hc.still rfl (drafted_extend hc.drafted ho hf rfl (extents_extend o g c) rfl)

theorem rules_makeConstant {o : Order} {k : Literal} (hk : ∀ q, k ≠ .function q)
    (ho : ∀ d : Drafts, o.draft d = d.onInner (·.addConstant k)) : Rules places (makeConstant o) := by
  have hextend : Rules places (extend o fun e => { e with constants := e.constants + 1 }) :=
    rules_extend ho fun h => h.addConstant fun q hq => absurd hq (hk q)
  unfold makeConstant
  dsimp only
  infer_instance

instance (chars : Bytes) : Rules places (makeConstant (.string chars)) :=
  rules_makeConstant (fun _ h => by cases h) fun _ => rfl

instance (f : Float) : Rules places (makeConstant (.number (.number f))) :=
  rules_makeConstant (fun _ h => by cases h) fun _ => if_pos (Value.isNumeral_number f)

instance (name : Bytes) : Rules places (nameConstant name) := by
  unfold nameConstant
  infer_instance

theorem rules_emitConstant {o : Order} [Rules places (makeConstant o)] : Rules places (emitConstant o) := by
  have hemit (k : UInt8) : Rules places (emitWith .constant k) := rules_emitWith rfl k
  unfold emitConstant
  infer_instance

instance : Rules places beginScope :=
  rules_modifyScope fun _ => rfl

instance (depth : Nat) (locals : List Local) : Rules places (dropLocals depth locals) := by
  induction locals with
  | nil => exact (inferInstance : Rules places (pure ()))
  | cons l rest ih =>
    have hdrop : Rules places (emit (if l.captured then .closeUpvalue else .pop)) :=
      rules_emit (by split <;> rfl)
    have hlocals : Rules places (modifyScope fun s => { s with locals := rest }) := rules_modifyScope fun _ => rfl
    unfold dropLocals
    infer_instance

instance : Rules places endScope := by
  have hdepth : Rules places (modifyScope fun s => { s with depth := s.depth - 1 }) := rules_modifyScope fun _ => rfl
  unfold endScope
  infer_instance

instance (name : Bytes) : Rules places (addLocal name) := by
  have hlocals : Rules places (modifyScope fun s => { s with locals := { name, depth := none } :: s.locals }) :=
    rules_modifyScope fun _ => rfl
  unfold addLocal
  infer_instance

instance : Rules places declareVariable := by
  unfold declareVariable
  dsimp only
  infer_instance

instance (what : String) : Rules places (parseVariable what) := by
  unfold parseVariable
  infer_instance

instance : Rules places markInitialized := by
  have hdepth : Rules places (modifyScope fun s => if s.depth = 0 then s
      else { s with locals := match s.locals with
        | l :: rest => { l with depth := some s.depth } :: rest
        | [] => [] }) := rules_modifyScope fun s => by split <;> rfl
  unfold markInitialized
  dsimp only
  infer_instance

instance (global : UInt8) : Rules places (defineVariable global) := by
  have hemit : Rules places (emitWith .defineGlobal global) := rules_emitWith rfl global
  unfold defineVariable
  infer_instance

theorem ruling_search {found : List Finding} {scopes : List Scope} {index : Option Nat} {name : Bytes}
    (hc : c.Ruling last rss) (hfind : Scope.findCapture name 0 c.scopes = (index, scopes, found))
    (hclean : (found.forM report c).2.diagnostics = []) :
    (found.forM report c).2.previous = c.previous ∧
      ({ (found.forM report c).2 with scopes } : Compiler).Ruling last rss := by
  obtain ⟨d, hd, hopens⟩ := hc.drafted
  have hwithin := (findCapture_findings name 0 c.scopes).2
  rw [hfind, Nat.zero_add, hopens.length_eq] at hwithin
  obtain ⟨d', hcap, hd', heq⟩ := accepts_reports hd hc.calm hwithin hclean
  have hcaptured (after : List Prototype) := @AllOpened.findCapture last c.previous.line rss c.scopes c.extents d.open_
    name [] after hopens
  simp only [List.length_nil, hfind, List.nil_append] at hcaptured
  obtain ⟨ps', hafter, hopens'⟩ := hcaptured _ hcap
  have hprevious : (found.forM report c).2.previous = c.previous := by rw [heq]
  refine ⟨hprevious, hc.still ?_ ⟨d', hd', ?_⟩⟩
  · rw [heq]
    rfl
  · rw [heq, hafter]
    exact hopens'

theorem width_resolve (name : Bytes) (c : Compiler) :
    (resolve name c).1.1.width? = some 1 ∧ (resolve name c).1.2.1.width? = some 1 := by
  cases hslot : (c.scopes.headD { kind := .script }).slotOf name with
  | mk slot found =>
    cases slot with
    | some slot =>
      rw [resolve_local hslot]
      exact ⟨rfl, rfl⟩
    | none =>
      obtain ⟨index, scopes, found', hfind⟩ : ∃ index scopes found',
          Scope.findCapture name 0 c.scopes = (index, scopes, found') := ⟨_, _, _, rfl⟩
      rw [resolve_other hslot hfind]
      cases index <;> exact ⟨rfl, rfl⟩

instance (name : Bytes) : Rules places (resolve name) where
  running := (inferInstance : Follows (resolve name)).running
  reports := inferInstance
  rules last c rows rss hrun hclean hone hc hplaces := by
    cases hslot : (c.scopes.headD { kind := .script }).slotOf name with
    | mk slot found =>
      cases slot with
      | some slot =>
        have hlocal : found = [] ∨ found = [.problem .ownInitializer] := by
          unfold Scope.slotOf at hslot
          split at hslot <;> cases hslot
          split
          · exact .inr rfl
          · exact .inl rfl
        rw [resolve_local hslot] at hclean ⊢
        rcases hlocal with rfl | rfl
        · exact ⟨hone, [], by rwa [List.append_nil]⟩
        · exact absurd hclean (problemAt_diagnostics (t := c.previous) hc.calm)
      | none =>
        obtain ⟨index, scopes, found', hfind⟩ : ∃ index scopes found',
            Scope.findCapture name 0 c.scopes = (index, scopes, found') := ⟨_, _, _, rfl⟩
        rw [resolve_other hslot hfind] at hrun hclean ⊢
        have houter : Rules places (outerAccess name index) := by
          unfold outerAccess
          split <;> infer_instance
        have hearlier := houter.reports.clean _ hclean
        obtain ⟨hprevious, hc'⟩ := ruling_search hc hfind hearlier
        exact houter.rules last { (found'.forM report c).2 with scopes } rows rss hrun hclean
          (congrArg Token.line hprevious ▸ hone) hc' hplaces

theorem drafted_begin {last line : Nat} {c : Compiler} {rss : List (List Row)} (kind : FunctionKind)
    (hc : c.Drafted last line rss) : (beginFunction kind c).2.Drafted last line ([] :: rss) := by
  let c₁ : Compiler := { c with
    scopes := { kind } :: c.scopes
    extents := {} :: c.extents
    orders := .begin :: c.orders }
  have h₁ : c₁.Drafted last line ([] :: rss) := by
    obtain ⟨d, hd, hopens⟩ := hc
    refine ⟨⟨{} :: d.open_, none⟩, ?_, .cons (opened_new last line kind) hopens⟩
    rw [drafts_cons (o := .begin) (c := c) rfl, hd]
    rfl
  have hnamed : (if kind ≠ .script then order (.name c.previous.lexeme) c₁ else ((), c₁)).2.Drafted last line
      ([] :: rss) := by
    split
    · refine drafted_extend (g := id) (f := fun p => { p with name := some c.previous.lexeme }) h₁ (fun _ => rfl) ?_
          rfl ?_ rfl
      · exact fun h => { h with
          laid := ⟨h.laid.lines, h.laid.code, fun before r after hr =>
            (h.laid.fits before r after hr).mono List.prefix_rfl List.prefix_rfl⟩ }
      · rw [List.modifyHead_id]
        rfl
    · exact h₁
  have hlast : (beginFunction kind c).2 = (modifyScope (fun s => { s with
      locals := [{ name := if kind = .method || kind = .initializer then "this" else "", depth := some 0 }] })
        (if kind ≠ .script then order (.name c.previous.lexeme) c₁ else ((), c₁)).2).2 := by
    unfold beginFunction
    rw [run_bind]
    dsimp only
    split <;> rfl
  rw [hlast]
  refine hnamed.congr rfl rfl ?_ (Nat.le_refl _)
  exact captures_modifyScope (by exact fun _ => rfl) _

theorem ruling_beginFunction {last : Nat} {c : Compiler} {rss : List (List Row)} (kind : FunctionKind)
    (hc : c.Ruling last rss) : (beginFunction kind c).2.Ruling last ([] :: rss) :=
  hc.still ((inferInstance : Quiet (beginFunction kind)).view c) (drafted_begin kind hc.drafted)

theorem ended_endFunction {last : Nat} {c : Compiler} {rows : List Row} {rss : List (List Row)}
    (hc : c.Ruling last (rows :: rss)) (hone : 1 ≤ c.previous.line) (hrun : (endFunction c).2.stuck = false)
    (hclean : (endFunction c).2.diagnostics = []) : ∃ d p, (endFunction c).2.drafts = some ⟨d, some p⟩ ∧
      AllOpened last c.previous.line rss (endFunction c).2.scopes (endFunction c).2.extents d ∧ p.Ruled last ∧
        (endFunction c).1.length = p.captures := by
  have hreturn := (inferInstance : Rules [] emitReturn)
  obtain ⟨-, more, hc'⟩ := hreturn.rules last c rows rss hrun hclean hone hc nofun
  have hview := (inferInstance : Quiet emitReturn).view c
  have hprevious : (emitReturn c).2.previous = c.previous := congrArg (·.1) hview
  have hlast : c.previous.line ≤ last :=
    Nat.le_trans hc.ordered.previous (hc.ordered.bounds _ (List.mem_cons_self ..)).2
  obtain ⟨⟨open_, ended⟩, hd, hopens⟩ := hc'.drafted
  rw [hprevious] at hopens
  generalize hss : (emitReturn c).2.scopes = ss, hes : (emitReturn c).2.extents = es at hopens
  cases hopens with
  | @cons _ s e p _ ss es ps head tail =>
    have hscopes : (endFunction c).2.scopes = ss := congrArg List.tail hss
    have hextents : (endFunction c).2.extents = es := congrArg List.tail hes
    refine ⟨ps, p, ?_, hscopes ▸ hextents ▸ tail, head.ruled hlast, ?_⟩
    · rw [drafts_cons (o := .finish) (c := (emitReturn c).2) rfl, hd]
      rfl
    · have hcaptures : (endFunction c).1 = s.captures := by
        show ((emitReturn c).2.scopes.headD { kind := .script }).captures = _
        rw [hss]
        rfl
      rw [hcaptures, head.captures]

theorem enclosed_makeConstant {last line : Nat} {c : Compiler} {rows : List Row} {rss : List (List Row)}
    {d : List Prototype} {p : Prototype} (hd : c.drafts = some ⟨d, some p⟩)
    (hopens : AllOpened last line (rows :: rss) c.scopes c.extents d) (hp : p.Ruled last) (hcalm : c.panicking = false)
    (hclean : (makeConstant .enclose c).2.diagnostics = []) : (makeConstant .enclose c).2.view = c.view ∧
      (makeConstant .enclose c).2.Drafted last line (rows :: rss) ∧
      ∀ d q qs, (makeConstant .enclose c).2.drafts = some d → d.open_ = q :: qs →
        q.constants[(makeConstant .enclose c).1.toNat]? = some (.function p) := by
  let c₁ := (extend .enclose (fun e => { e with constants := e.constants + 1 }) c).2
  have hmake : makeConstant .enclose c = if 256 ≤ (c.extents.headD {}).constants then (do
      problem .tooManyConstants
      return 0) c₁ else ((c.extents.headD {}).constants.toUInt8, c₁) := by
    unfold makeConstant
    rw [run_bind]
    split <;> rename_i h
    · exact (if_pos h).symm
    · exact (if_neg h).symm
  rw [hmake] at hclean ⊢
  split at hclean
  · exact absurd hclean (problemAt_diagnostics (t := c₁.previous) hcalm)
  · rename_i hfew
    rw [if_neg hfew]
    have hextents := extents_extend .enclose (fun e => { e with constants := e.constants + 1 }) c
    generalize hss : c.scopes = ss, hes : c.extents = es at hopens
    cases hopens with
    | @cons _ s e q _ ss es qs head tail =>
      have hdraft : c₁.drafts = some ⟨q.addConstant (.function p) :: qs, none⟩ := by
        rw [drafts_cons (o := .enclose) (c := c) rfl, hd]
        rfl
      refine ⟨rfl, ⟨_, hdraft, ?_⟩, fun d' q' qs' hd' hq' => ?_⟩
      · rw [hextents, hes]
        show AllOpened last line (rows :: rss) c.scopes _ _
        rw [hss]
        exact .cons (head.addConstant fun q hq => Literal.function.inj hq ▸ hp) tail
      · rw [hdraft] at hd'
        cases hd'
        cases hq'
        rw [hes] at hfew
        have hlt : e.constants < 256 := Nat.not_le.mp hfew
        have hindex : (e.constants.toUInt8).toNat = q.constants.length := by
          rw [UInt8.toNat_ofNat', Nat.mod_eq_of_lt hlt, head.constants]
        show (q.addConstant (.function p)).constants[(e.constants.toUInt8).toNat]? = _
        rw [hindex]
        exact List.getElem?_concat_length

theorem run_captures (captures : List Capture) (c : Compiler) :
    (captures.forM fun k => do
      emitByte (if k.isLocal then 1 else 0)
      emitByte k.index : CompileM Unit) c =
    (captures.flatMap fun k => [if k.isLocal then 1 else 0, k.index]).forM emitByte c := by
  induction captures generalizing c with
  | nil => rfl
  | cons k captures ih => exact ih _

theorem length_captures (captures : List Capture) :
    (captures.flatMap fun k => [if k.isLocal then (1 : UInt8) else 0, k.index]).length = 2 * captures.length := by
  simp [List.length_flatMap, Nat.mul_comm]

theorem ruling_closure {last : Nat} {c : Compiler} {rows : List Row} {rss : List (List Row)} {p : Prototype}
    {index : UInt8}
    {captures : List Capture} (hc : c.Ruling last (rows :: rss)) (hone : 1 ≤ c.previous.line)
    (hconstant : ∀ d q qs, c.drafts = some d → d.open_ = q :: qs → q.constants[index.toNat]? = some (.function p))
    (hcaptures : captures.length = p.captures) :
    1 ≤ (captures.forM (fun k => do
      emitByte (if k.isLocal then 1 else 0)
      emitByte k.index : Capture → CompileM Unit) (emitWith .closure index c).2).2.previous.line ∧
    ∃ r, (captures.forM (fun k => do
      emitByte (if k.isLocal then 1 else 0)
      emitByte k.index : Capture → CompileM Unit) (emitWith .closure index c).2).2.Ruling last
          ((rows ++ [r]) :: rss) := by
  rw [run_captures]
  generalize hbytes : (captures.flatMap fun k => [if k.isLocal then (1 : UInt8) else 0, k.index]) = bytes
  have hlength : (index :: bytes).length = 1 + 2 * p.captures := by
    rw [List.length_cons, ← hbytes, length_captures, hcaptures, Nat.add_comm]
  have hdrafted : ((Opcode.closure.toByte :: index :: bytes).forM emitByte c).2.Drafted last c.previous.line _ :=
    drafted_emit hc.drafted hone (fun n hn => by cases hn) fun _ d q qs hd hq =>
      ⟨index, p, rfl, hconstant d q qs hd hq, hlength⟩
  have hview := (inferInstance : Quiet ((Opcode.closure.toByte :: index :: bytes).forM emitByte)).view c
  show 1 ≤ ((Opcode.closure.toByte :: index :: bytes).forM emitByte c).2.previous.line ∧
    ∃ r, ((Opcode.closure.toByte :: index :: bytes).forM emitByte c).2.Ruling last ((rows ++ [r]) :: rss)
  exact ⟨congrArg (·.1.line) hview ▸ hone, _, hc.still hview hdrafted⟩

end CompileM

end Lox

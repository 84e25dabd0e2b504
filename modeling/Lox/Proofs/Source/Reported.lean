import Lox.Proofs.Heap.Reachable
import Lox.Proofs.Ideal.Start
import Lox.Proofs.Source.Ordered
import Lox.Proofs.Source.Progress
import Lox.Proofs.Text.Covers
import Lox.Proofs.Text.Declared

namespace Lox

open Heap HeapView

structure Heap.Compiled (h : Heap) (r : Roots) (h' : Heap) (answer : Except (List Diagnostic) Loc) : Prop where
  function : ∀ l, answer = .ok l → h'.Alive l ∧ ∃ f, functionAt l h' = .ok f
  diagnosed : ∀ ds, answer = .error ds → ds ≠ []
  holds : h'.holds = h.holds
  markers : h'.markers = h.markers
  collected : ∃ c h'', HeapM.collect r h' = .ok c h'' ∧ h'.Exact r h''

/-- The tokens of a source text come to their end, the compiler is never stuck on them, and no step of the
compilation fails on the heap. -/
theorem compile_total {r : Roots} {h : Heap} (source : Bytes) (hs : h.Sound) (hlinked : h.Linked)
    (hopen : h.closed = false) (hr : h.Rooted r) :
    Stream (Token.scan source) ∧
      (CompileM.program (4 * ((Token.scan source).length + 1)) { upcoming := Token.scan source }).2.stuck = false ∧
      ((∃ answer h', compile source r h = .ok answer h' ∧ h.Compiled r h' answer) ∨
        (finalState (compile source r h)).Exhausted) := by
  have hp := pictures_nothing hs hlinked hopen
  obtain ⟨p, hdraft⟩ := draftAll_analyze source
  have hdelivers := delivers_compile hp hr hdraft
  refine ⟨Token.stream_scan source, CompileM.running_program (Token.stream_scan source) (Token.quoted_scan source), ?_⟩
  unfold HeapM.Delivers at hdelivers
  cases hrun : compile source r h with
  | error e h' =>
    rw [hrun] at hdelivers
    exact .inr (hdelivers.resolve_right id)
  | ok answer h' =>
    rw [hrun] at hdelivers
    refine hdelivers.elim .inr fun ⟨w, _, hp', hr', hcarries, hanswer⟩ => .inl ⟨answer, h', rfl, ?_⟩
    have hintact := hp'.linked.intact fun link hm => (hr' link hm).1
    obtain ⟨c, h'', hcollect, hcollection⟩ := HeapM.collect_ok r hp'.sound.consistent hintact
    refine ⟨?_, ?_, hcarries.holds, hcarries.markers, c, h'', hcollect, hcollection.exact hp'.sound hintact⟩
    · rintro l rfl
      obtain ⟨-, halive, hl⟩ := hanswer
      obtain ⟨f, hf, -⟩ := hp'.function halive hl
      exact ⟨halive, f, hf⟩
    · rintro ds rfl
      obtain ⟨hne, rfl⟩ := hanswer
      exact hne

def refusedWithin (source : Bytes) : Bool :=
  match compile source (fun _ => []) (Heap.new {}) with
  | .ok (.error _) h' => decide (h'.slots.size ≤ 2 ^ 32)
  | _ => false

theorem compile_total_unfinished : ∃ ds h', compile "print 1" (fun _ => []) (Heap.new {}) = .ok (.error ds) h' ∧
    (Heap.new {}).Compiled (fun _ => []) h' (.error ds) := by
  have hroom : refusedWithin "print 1" = true := by decide +kernel
  unfold refusedWithin at hroom
  have hp := pictures_new {}
  have hr : (Heap.new {}).Rooted (fun _ => []) := by
    have horigins : (Heap.new {}).origins (fun _ => []) = [] := rfl
    intro link hlink
    rw [horigins] at hlink
    cases hlink
  rcases (compile_total "print 1" hp.sound hp.linked hp.closed hr).2.2 with ⟨answer, h', hrun, hcompiled⟩ | hfull
  · rw [hrun] at hroom
    cases answer with
    | ok l => cases hroom
    | error ds => exact ⟨ds, h', hrun, hcompiled⟩
  · unfold Exhausted at hfull
    cases hrun : compile "print 1" (fun _ => []) (Heap.new {}) with
    | error e h' =>
      simp only [hrun] at hroom
      cases hroom
    | ok answer h' =>
      rw [hrun] at hroom hfull
      cases answer with
      | ok l => cases hroom
      | error ds => exact absurd (of_decide_eq_true hroom) (Nat.not_le.mpr hfull)

end Lox

set_option synthInstance.maxSize 1024

namespace Lox

namespace CompileM

open Compiler

class OrdersGoals (parse : Goal → CompileM Unit) : Prop where
  expression : ∀ precedence, Starts (parse (.expression precedence))
  statement : Starts (parse .statement)
  declaration : Orders (parse .declaration)

section Productions

variable {α : Type} (parse : Goal → CompileM Unit) (n : Nat) [hp : OrdersGoals parse]

instance (precedence : Nat) : Starts (parse (.expression precedence)) :=
  hp.expression precedence

instance : Starts (parse .statement) :=
  hp.statement

instance : Starts (expression parse) :=
  hp.expression _

instance (name : Bytes) (canAssign : Bool) : Follows (namedVariable parse name canAssign) := by
  unfold namedVariable
  infer_instance

instance (canAssign : Bool) : Follows (variable_ parse canAssign) := by
  unfold variable_
  infer_instance

omit hp in
instance : Follows numberLiteral := by
  unfold numberLiteral
  dsimp only
  infer_instance

omit hp in
instance : Follows stringLiteral := by
  unfold stringLiteral
  infer_instance

instance : Follows (grouping parse) := by
  unfold grouping
  infer_instance

instance (operator : TokenKind) : Follows (unary parse operator) := by
  unfold unary
  infer_instance

instance (count fuel : Nat) : Follows (argumentsFrom parse count fuel) := by
  induction fuel generalizing count with
  | zero =>
    unfold argumentsFrom
    infer_instance
  | succ fuel ih =>
    unfold argumentsFrom
    infer_instance

instance : Follows (argumentList parse n) := by
  unfold argumentList
  infer_instance

instance : Follows (call parse n) := by
  unfold call
  infer_instance

instance (name : UInt8) (canAssign : Bool) : Follows (property parse n name canAssign) := by
  unfold property
  infer_instance

instance (canAssign : Bool) : Follows (dot parse n canAssign) := by
  unfold dot
  infer_instance

instance : Follows (this_ parse) := by
  unfold this_
  infer_instance

instance (name : UInt8) : Follows (superMethod parse n name) := by
  unfold superMethod
  infer_instance

instance : Follows (super_ parse n) := by
  unfold super_
  dsimp only
  refine .bind fun c => ?_
  split
  · infer_instance
  · split <;> infer_instance

instance (operator : TokenKind) : Follows (binary parse operator) := by
  unfold binary
  infer_instance

instance : Follows (and_ parse) := by
  unfold and_
  infer_instance

instance : Follows (or_ parse) := by
  unfold or_
  infer_instance

theorem follows_prefixRule {canAssign : Bool} {k : TokenKind} {rule : CompileM Unit}
    (h : prefixRule parse n canAssign k = some rule) : Follows rule := by
  cases k <;> cases h <;> infer_instance

instance (canAssign : Bool) (k : TokenKind) : Follows (infixRule parse n canAssign k) := by
  unfold infixRule
  split <;> infer_instance

theorem starts_parsePrecedence (precedence : Nat) : Starts (parsePrecedence parse n precedence) := by
  unfold parsePrecedence
  refine @Starts.bind _ _ _ _ _ fun _ => .bind fun c => ?_
  split
  · infer_instance
  · rename_i rule hrule
    have hfirst := follows_prefixRule parse n hrule
    infer_instance

theorem starts_block : Starts (block parse n) := by
  have hround : Orders (do
      if ← check .rightBrace <||> check .eof then return false
      parse .declaration
      return true : CompileM Bool) := by
    have hends : Orders (check .rightBrace <||> check .eof) := .of_quiet
    have hdeclaration := hp.declaration
    have hmore : Orders (do parse .declaration; return true) := @Orders.bind _ _ _ _ _ fun _ => .of_quiet
    have hchoice (b : Bool) : Orders (if b then return false else do parse .declaration; return true) :=
      .ite .of_quiet hmore
    exact .bind
  have hrounds := orders_loop hround n
  exact .after

instance : Starts (block parse n) :=
  starts_block parse n

instance : Follows (printStatement parse) := by
  unfold printStatement
  infer_instance

instance : Starts (expressionStatement parse) := by
  unfold expressionStatement
  exact .bind

instance : Follows (returnStatement parse) := by
  unfold returnStatement
  infer_instance

instance : Follows (ifStatement parse) := by
  unfold ifStatement
  refine .bind fun _ => .bind fun _ => .bind fun _ => .bind fun thenJump => ?_
  dsimp only
  infer_instance

instance : Follows (whileStatement parse) := by
  unfold whileStatement
  infer_instance

instance : Follows (varDeclaration parse) := by
  unfold varDeclaration
  infer_instance

instance : Follows (forCondition parse) := by
  unfold forCondition
  infer_instance

instance (start : Nat) : Follows (forIncrement parse start) := by
  unfold forIncrement
  infer_instance

instance : Follows (forInitializer parse) := by
  unfold forInitializer
  infer_instance

omit hp in
instance (place : Option Nat) : Follows (closeCondition place) := by
  unfold closeCondition
  cases place <;> infer_instance

instance : Follows (forClauses parse) := by
  unfold forClauses
  infer_instance

instance : Follows (forStatement parse) := by
  rw [forStatement_eq]
  infer_instance

theorem starts_statement : Starts (statement parse n) := by
  unfold statement
  exact .choose <| .choose <| .choose <| .choose <| .choose <| .choose inferInstance

omit hp in
instance (classes : Compiler → List Bool) :
    Quiet (modify fun c : Compiler => { c with classes := classes c } : CompileM Unit) :=
  .modify (fun _ => rfl) fun _ => rfl

omit hp in
instance : Follows (parameters n) := by
  unfold parameters
  infer_instance

instance : Follows (functionBody parse n) := by
  unfold functionBody
  infer_instance

instance (kind : FunctionKind) : Follows (function parse n kind) := by
  unfold function
  infer_instance

instance : Follows (method parse n) := by
  unfold method
  infer_instance

instance (className : Bytes) : Follows (superclass parse className) := by
  unfold superclass
  dsimp only
  refine .bind fun _ => .bind fun _ => .bind fun name => ?_
  split <;> infer_instance

instance (className : Bytes) : Follows (openClass parse className) := by
  unfold openClass
  infer_instance

instance (fuel : Nat) : Follows (methodItems parse n fuel) := by
  unfold methodItems
  infer_instance

instance (className : Bytes) : Follows (classBody parse n className) := by
  unfold classBody
  dsimp only
  infer_instance

instance : Follows (classDeclaration parse n) := by
  rw [classDeclaration_eq]
  infer_instance

instance : Follows (funDeclaration parse n) := by
  unfold funDeclaration
  infer_instance

theorem starts_declarationOrStatement : Starts (declarationOrStatement parse n) := by
  unfold declarationOrStatement
  exact .choose <| .choose <| .choose inferInstance

theorem orders_declaration : Orders (declaration parse n) := by
  have hfirst := @Orders.of_starts _ _ (starts_declarationOrStatement parse n)
  have hget : Orders (get : CompileM Compiler) := .of_quiet
  have hlast (c : Compiler) : Orders (if c.panicking then synchronize n else pure ()) :=
    .ite (orders_synchronize n) .of_quiet
  have hrest : Orders (do if (← get).panicking then synchronize n) := .bind
  exact .bind

end Productions

theorem ordersGoals_parse (n : Nat) : OrdersGoals (parse n) := by
  induction n with
  | zero => exact ⟨fun _ => (inferInstance : Starts giveUp), (inferInstance : Starts giveUp), @Orders.of_starts _
        giveUp _⟩
  | succ n ih =>
    exact ⟨fun precedence => starts_parsePrecedence (parse n) n precedence, starts_statement (parse n) n,
      orders_declaration (parse n) n⟩

theorem ordered_start {t : Token} {ts : List Token} {last : Nat} (htokens : (t :: ts).Pairwise fun t u =>
    t.line ≤ u.line)
    (hbounds : ∀ u ∈ t :: ts, 1 ≤ u.line ∧ u.line ≤ last) :
    (advance (beginFunction .script { upcoming := t :: ts }).2).2.Ordered last := by
  let c₀ : Compiler := (beginFunction .script { upcoming := t :: ts }).2
  have hview : c₀.view = ({ upcoming := t :: ts } : Compiler).view :=
    (inferInstance : Quiet (beginFunction .script)).view _
  simp only [Compiler.view, Prod.mk.injEq] at hview
  obtain ⟨-, hcurrent, hupcoming, -, hdiagnostics⟩ := hview
  show (advanceTo c₀.upcoming { c₀ with previous := c₀.current }).2.Ordered last
  rw [hupcoming]
  refine (arrives_at (c := { c₀ with previous := c₀.current }) ?_ fun c hc hts => arrives_advanceTo ts hc hts).ordered
  refine ⟨htokens, ?_, hbounds, ?_, ?_⟩
  · rw [hcurrent]
    exact Nat.zero_le _
  · rw [hdiagnostics]
    exact .nil
  · rw [hdiagnostics]
    exact (by rintro _ ⟨⟩)

theorem ordered_program {t : Token} {ts : List Token} {last fuel : Nat}
    (htokens : (t :: ts).Pairwise fun t u => t.line ≤ u.line) (hbounds : ∀ u ∈ t :: ts, 1 ≤ u.line ∧ u.line ≤ last)
    (hrunning : (program fuel { upcoming := t :: ts }).2.stuck = false) :
    (program fuel { upcoming := t :: ts }).2.Ordered last := by
  have hround : Orders (do
      if ← accept .eof then return false
      parse fuel .declaration
      return true : CompileM Bool) := by
    have heof := orders_accept .eof
    have hdeclaration := (ordersGoals_parse fuel).declaration
    have hmore : Orders (do parse fuel .declaration; return true) := @Orders.bind _ _ _ _ _ fun _ => .of_quiet
    have hchoice (b : Bool) : Orders (if b then return false else do parse fuel .declaration; return true) :=
      .ite .of_quiet hmore
    exact .bind
  have hrounds := orders_loop hround fuel
  have hend : Orders (do let _ ← endFunction : CompileM Unit) := .of_quiet
  have hrest : Orders (do
      loop fuel do
        if ← accept .eof then return false
        parse fuel .declaration
        return true
      let _ ← endFunction : CompileM Unit) := .bind
  exact hrest.ordered last _ hrunning (ordered_start htokens hbounds)

end CompileM

theorem analyze_ordered (source : Bytes) : ((analyze source).2.Pairwise fun d e => d.line ≤ e.line) ∧
    ∀ d ∈ (analyze source).2, 1 ≤ d.line ∧ d.line ≤ 1 + source.count Ascii.newline := by
  have hrunning := CompileM.running_program (Token.stream_scan source) (Token.quoted_scan source)
  obtain ⟨htokens, hbounds⟩ := (Token.covers_scan source).lines
  rw [analyze_eq]
  cases hscan : Token.scan source with
  | nil =>
    have hstream := Token.stream_scan source
    rw [hscan] at hstream
    exact hstream.elim
  | cons t ts =>
    rw [hscan] at htokens hbounds hrunning
    obtain ⟨-, -, hbound, hsorted, hreported⟩ := CompileM.ordered_program htokens hbounds hrunning
    refine ⟨List.pairwise_reverse.mpr hsorted, fun d hd => ?_⟩
    obtain ⟨hone, hcurrent⟩ := hreported d (List.mem_reverse.mp hd)
    exact ⟨hone, Nat.le_trans hcurrent (hbound _ (List.mem_cons_self ..)).2⟩

theorem diagnostics_of_compile {source : Bytes} {r : Roots} {h h' : Heap} {answer : Except (List Diagnostic) Loc}
    (hrun : compile source r h = .ok answer h') : (∀ l, answer = .ok l → (analyze source).2 = []) ∧
      ∀ ds, answer = .error ds → ds = (analyze source).2 ∧ ds ≠ [] := by
  unfold compile at hrun
  generalize analyze source = result at hrun ⊢
  obtain ⟨orders, diagnostics⟩ := result
  dsimp only at hrun ⊢
  rw [HeapM.run_bind] at hrun
  cases hrest : build orders r h with
  | error e h₁ =>
    rw [hrest] at hrun
    cases hrun
  | ok s h₁ =>
    rw [hrest] at hrun
    cases hended : s.ended with
    | none =>
      simp only [hended] at hrun
      cases hrun
    | some k =>
      simp only [hended] at hrun
      cases diagnostics with
      | nil =>
        cases hrun
        exact ⟨fun _ _ => rfl, nofun⟩
      | cons d ds =>
        cases hrun
        refine ⟨nofun, ?_⟩
        rintro _ ⟨⟩
        exact ⟨rfl, nofun⟩

namespace Editor

/-- A report marks the line of the text that a diagnostic is about, from its start to its end. -/
def Marks (text : Bytes) (d : Diagnostic) (p : Report) : Prop :=
  ∃ l, LineAt text (d.line - 1) l ∧ p.span = ⟨d.line - 1, 0, d.line - 1, l.length⟩ ∧
    p.message = ("Error" : Bytes) ++ d.place ++ (": " : Bytes) ++ d.message

theorem marks_report {text : Bytes} {d : Diagnostic} (hone : 1 ≤ d.line)
    (hlast : d.line ≤ 1 + text.count Ascii.newline) : Marks text d (report (lines text).toArray d) := by
  obtain ⟨l, hl⟩ := line_of_bounds hone hlast
  have hat : (lines text).toArray[d.line - 1]? = some l := by rw [List.getElem?_toArray, hl]
  refine ⟨l, lineAt_of_lines hl, ?_, rfl⟩
  unfold report
  dsimp only
  rw [hat]

theorem diagnostics_eq (options : GcOptions) {text : Bytes} (hwrong : (analyze text).2 ≠ []) :
    diagnostics options text = (analyze text).2.map (report (lines text).toArray) ∨
      (finalState (compile text (fun _ => []) (Heap.new options))).Exhausted := by
  have hp := Heap.pictures_new options
  have hr : (Heap.new options).Rooted (fun _ => []) := by
    have horigins : (Heap.new options).origins (fun _ => []) = [] := rfl
    intro link hlink
    rw [horigins] at hlink
    cases hlink
  refine (compile_total text hp.sound hp.linked hp.closed hr).2.2.imp_left ?_
  rintro ⟨answer, h', hrun, -⟩
  have hanswer := diagnostics_of_compile hrun
  unfold diagnostics
  rw [hrun]
  cases answer with
  | ok l => exact absurd (hanswer.1 l rfl) hwrong
  | error ds =>
    dsimp only
    rw [(hanswer.2 ds rfl).1]

end Editor

/-- The diagnostics of a text that is refused come in the order of its lines, each about one of them, and the editor
marks just these lines, whatever its collector does. -/
theorem compile_reports_in_order {source : Bytes} {r : Roots} {h h' : Heap} {ds : List Diagnostic}
    (hrun : compile source r h = .ok (.error ds) h') :
    (ds.Pairwise fun d e => d.line ≤ e.line) ∧
      (∀ d ∈ ds, 1 ≤ d.line ∧ d.line ≤ 1 + source.count Ascii.newline) ∧
      ∀ options, List.Forall₂ (Editor.Marks source) ds (Editor.diagnostics options source) ∨
        (finalState (compile source (fun _ => []) (Heap.new options))).Exhausted := by
  obtain ⟨hds, hne⟩ := (diagnostics_of_compile hrun).2 ds rfl
  obtain ⟨hsorted, hbounds⟩ := analyze_ordered source
  rw [← hds] at hsorted hbounds
  refine ⟨hsorted, hbounds, fun options => ?_⟩
  refine (Editor.diagnostics_eq options (hds ▸ hne)).imp_left fun heq => ?_
  rw [heq, ← hds, List.forall₂_map_right_iff, List.forall₂_same]
  exact fun d hd => Editor.marks_report (hbounds d hd).1 (hbounds d hd).2

def refusedAt? (source : Bytes) : Option (List Nat) :=
  match compile source (fun _ => []) (Heap.new {}) with
  | .ok (.error ds) _ => some (ds.map (·.line))
  | _ => none

theorem compile_reports_in_order_lines :
    ∃ ds h', compile "print\n;1\n;)" (fun _ => []) (Heap.new {}) = .ok (.error ds) h' ∧ ds.map (·.line) = [2, 3] ∧
      (ds.Pairwise fun d e => d.line ≤ e.line) ∧
      (∀ d ∈ ds, 1 ≤ d.line ∧ d.line ≤ 1 + (Bytes.ofString "print\n;1\n;)").count Ascii.newline) ∧
      ∀ options, List.Forall₂ (Editor.Marks "print\n;1\n;)") ds (Editor.diagnostics options "print\n;1\n;)") ∨
        (finalState (compile "print\n;1\n;)" (fun _ => []) (Heap.new options))).Exhausted := by
  have hwrong : refusedAt? "print\n;1\n;)" = some [2, 3] := by decide +kernel
  unfold refusedAt? at hwrong
  cases hrun : compile "print\n;1\n;)" (fun _ => []) (Heap.new {}) with
  | error e h' =>
    rw [hrun] at hwrong
    cases hwrong
  | ok answer h' =>
    rw [hrun] at hwrong
    cases answer with
    | ok l => cases hwrong
    | error ds => exact ⟨ds, h', rfl, Option.some.inj hwrong, compile_reports_in_order hrun⟩

end Lox

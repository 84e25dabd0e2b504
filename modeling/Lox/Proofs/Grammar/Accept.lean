import Lox.Proofs.Grammar.Operators
import Lox.Proofs.Ideal.Start
import Lox.Proofs.Source.Script

namespace Lox

/-- The tokens of a statement that prints what has the tokens `t`, at the top level. Errors, semicolons, `this`
and `super` are left out. -/
structure Prints (tokens t : List Token) (keyword semicolon end_ : Token) : Prop where
  tokens : tokens = keyword :: (t ++ [semicolon, end_])
  keyword : keyword.kind = .print_
  semicolon : semicolon.kind = .semicolon
  plain : ∀ u ∈ t, u.kind ≠ .error ∧ u.kind ≠ .semicolon ∧ u.kind ≠ .this_ ∧ u.kind ≠ .super_

namespace CompileM

open Compiler

variable {c : Compiler} {prev t₀ keyword semicolon end_ : Token} {ts t : List Token} {items : List Item}
  {code : List UInt8} {φ : Phrase} {n : Nat}

theorem yields_printStatement (hφ : φ.WellFormed) (hlimits : φ.WithinLimits)
    (hsemicolon : semicolon.kind = .semicolon) (hn : φ.tokens.length < n)
    (h : Clear c prev (φ.tokens ++ [semicolon, end_]) [] []) :
    Yields (printStatement (parse n)) c fun _ c' => ∃ items code, Clear c' semicolon [end_] items code := by
  have hread : Reader.upTo n Precedence.assignment (φ.tokens ++ [semicolon, end_]) = some (φ, [semicolon, end_]) :=
    Phrase.Reads.expression (Phrase.reads φ hφ) [end_] hn (by rw [hsemicolon]; decide) (by rw [hsemicolon]; nofun)
  refine Yields.bind (compiles_parse n hread h hlimits) fun _ c₁ ⟨prev₁, h₁⟩ => ?_
  refine Yields.bind (yields_consume h₁ (Parser.expect_cons hsemicolon (by simp))) fun _ c₂ h₂ => ?_
  exact (yields_emit .print h₂).weaken fun _ c₃ h₃ => ⟨_, _, h₃⟩

theorem yields_declaration (hkeyword : keyword.kind = .print_) (hφ : φ.WellFormed) (hlimits : φ.WithinLimits)
    (hsemicolon : semicolon.kind = .semicolon) (hn : φ.tokens.length < n)
    (h : Clear c prev (keyword :: (φ.tokens ++ [semicolon, end_])) [] []) :
    Yields (parse (n + 2) .declaration) c fun _ c' => ∃ items code, Clear c' semicolon [end_] items code := by
  have hne {k : TokenKind} (hk : k ≠ .print_) : accept k c = (false, c) :=
    run_accept_none h (Parser.check_of_ne (by rw [hkeyword]; exact hk.symm))
  have hstatement : Yields (statement (parse n) n) c fun _ c' =>
      ∃ items code, Clear c' semicolon [end_] items code := by
    unfold statement
    refine Yields.bind (yields_accept h (Parser.check_of_eq hkeyword) (Parser.next_cons keyword (by simp))) ?_
    rintro _ c₁ ⟨rfl, h₁⟩
    exact yields_printStatement hφ hlimits hsemicolon hn h₁
  have hrest : Yields (declarationOrStatement (parse (n + 1)) (n + 1)) c fun _ c' =>
      ∃ items code, Clear c' semicolon [end_] items code := by
    unfold declarationOrStatement
    exact Yields.read (hne nofun) (Yields.read (hne nofun) (Yields.read (hne nofun) hstatement))
  refine Yields.bind hrest fun _ c₁ ⟨items, code, h₁⟩ => ?_
  refine Yields.read (rfl : (get : CompileM Compiler) c₁ = (c₁, c₁)) ?_
  rw [if_neg (by rw [h₁.compiler.calm]; exact Bool.false_ne_true)]
  exact .pure ⟨items, code, h₁⟩

theorem clean_endFunction {c : Compiler} : (endFunction c).2.diagnostics = c.diagnostics := by
  have hreturn : (emitReturn c).2.diagnostics = c.diagnostics := by
    unfold emitReturn
    rw [run_bind]
    split <;> rfl
  rw [← hreturn]
  rfl

theorem clean_declarations {fuel : Nat} (hkeyword : keyword.kind = .print_) (hφ : φ.WellFormed)
    (hlimits : φ.WithinLimits) (hsemicolon : semicolon.kind = .semicolon) (hend : end_.kind = .eof)
    (hfuel : φ.tokens.length + 2 < fuel)
    (h : Clear c prev (t₀ :: keyword :: (φ.tokens ++ [semicolon, end_])) [] []) :
    (declarations fuel c).2.diagnostics = [] := by
  obtain ⟨n, rfl⟩ : ∃ n, fuel = n + 2 := ⟨fuel - 2, by omega⟩
  have hfirst {c : Compiler} (h : Clear c t₀ (keyword :: (φ.tokens ++ [semicolon, end_])) [] []) :
      Yields (nextDeclaration (parse (n + 2))) c fun b c' =>
        b = true ∧ ∃ items code, Clear c' semicolon [end_] items code := by
    refine Yields.read (run_accept_none h (Parser.check_of_ne (by rw [hkeyword]; nofun))) ?_
    refine Yields.bind (yields_declaration hkeyword hφ hlimits hsemicolon (by omega) h) fun _ c₁ h₁ => ?_
    exact .pure ⟨rfl, h₁⟩
  have hlast {c : Compiler} {items : List Item} {code : List UInt8} (h : Clear c semicolon [end_] items code) :
      Yields (nextDeclaration (parse (n + 2))) c fun b c' => b = false ∧ c'.diagnostics = [] := by
    obtain ⟨hcurrent, hupcoming⟩ := List.cons.inj h.compiler.tokens
    have hadvance : (advance c).2.diagnostics = [] := by
      unfold advance
      rw [run_bind]
      show (advanceTo c.upcoming _).2.diagnostics = _
      rw [hupcoming]
      exact h.compiler.clean
    have haccept : accept .eof c = (true, (advance c).2) := by
      rw [accept_eq, if_pos (by rw [hcurrent]; exact hend)]
    unfold nextDeclaration Yields
    rw [run_bind, haccept]
    exact ⟨rfl, hadvance⟩
  have hrun : Yields (do advance; loop (n + 2) (nextDeclaration (parse (n + 2))) : CompileM Unit) c fun _ c' =>
      c'.diagnostics = [] := by
    refine Yields.bind (yields_advance h (Parser.next_cons t₀ (by simp))) fun _ c₁ h₁ => ?_
    refine Yields.bind (hfirst h₁) ?_
    rintro _ c₂ ⟨rfl, items, code, h₂⟩
    refine Yields.bind (hlast h₂) ?_
    rintro _ c₃ ⟨rfl, h₃⟩
    exact h₃
  exact hrun

theorem clean_program {tokens : List Token} (h : Prints tokens t keyword semicolon end_) (hend : end_.kind = .eof)
    (hstream : Stream tokens) (hφ : φ.Derives t) (hlimits : φ.WithinLimits) :
    (program (4 * (tokens.length + 1)) { upcoming := tokens }).2.diagnostics = [] := by
  obtain ⟨hφ, rfl⟩ := hφ
  obtain ⟨rfl, hkeyword, hsemicolon, hplain⟩ := h
  let tokens := keyword :: (φ.tokens ++ [semicolon, end_])
  let c₀ : Compiler := { upcoming := tokens }
  -- before the first token is read, the compiler holds a token of no meaning
  have h₀ : At c₀ c₀.previous (c₀.current :: tokens) {} [] :=
    ⟨rfl, rfl, rfl, rfl,
      ⟨(show TokenKind.leftParen ≠ .eof from nofun),
        Token.genuine_of_kind (show TokenKind.leftParen ≠ .this_ from nofun)
        (show TokenKind.leftParen ≠ .identifier from nofun), hstream⟩,
      rfl, {}, rfl, .nil⟩
  have hquiet : ∀ u ∈ c₀.current :: tokens, u.kind ≠ .error := by
    intro u hu
    simp only [tokens, List.mem_cons, List.mem_append, List.not_mem_nil, or_false] at hu
    rcases hu with rfl | rfl | hu | rfl | rfl
    · exact nofun
    · rw [hkeyword]
      nofun
    · exact (hplain u hu).1
    · rw [hsemicolon]
      nofun
    · rw [hend]
      nofun
  obtain ⟨g, hg, hopened⟩ := accepts_beginScript h₀ rfl
  cases hg
  have h₁ : Clear (beginFunction .script c₀).2 c₀.previous (c₀.current :: tokens) [] [] := ⟨hopened, hquiet⟩
  rw [run_program, clean_endFunction]
  refine clean_declarations hkeyword hφ hlimits hsemicolon hend ?_ h₁
  simp only [List.length_cons, List.length_append]
  omega

end CompileM

namespace Parser

theorem declaration_print {n : Nat} {t : Token} {ts : List Token} (ht : t.kind = .print_) (hts : ts ≠ []) :
    (upTo (n + 2)).declaration (t :: ts) = (do return .print (← clause (upTo n) .semicolon) : Parser Stmt) ts := by
  have hne (k : TokenKind) (hk : k ≠ .print_) : accept k (t :: ts) = some (false, t :: ts) :=
    accept_of_ne (by rw [ht]; exact hk.symm)
  show declaration (upTo (n + 1)) (n + 1) (t :: ts) = _
  unfold declaration
  rw [bind_of (hne .class_ nofun), if_neg Bool.false_ne_true, bind_of (hne .fun_ nofun), if_neg Bool.false_ne_true,
    bind_of (hne .var_ nofun), if_neg Bool.false_ne_true]
  show statement (upTo n) n (t :: ts) = _
  unfold statement
  rw [bind_of (accept_of_eq ht hts), if_pos rfl]

end Parser

theorem split_at_semicolon {t a b : List Token} {semicolon end_ u : Token}
    (h : t ++ [semicolon, end_] = a ++ u :: b) (ht : ∀ v ∈ t, v.kind ≠ .semicolon) (hend : end_.kind ≠ .semicolon)
    (hu : u.kind = .semicolon) : t = a ∧ b = [end_] := by
  induction t generalizing a with
  | nil =>
    obtain _ | ⟨v, _ | ⟨w, a⟩⟩ := a
    · obtain ⟨-, rfl⟩ := List.cons.inj h
      exact ⟨rfl, rfl⟩
    · obtain ⟨-, hrest⟩ := List.cons.inj h
      obtain ⟨rfl, -⟩ := List.cons.inj hrest
      exact absurd hu hend
    · have hlength := congrArg List.length h
      simp at hlength
  | cons v t ih =>
    obtain _ | ⟨w, a⟩ := a
    · obtain ⟨rfl, -⟩ := List.cons.inj h
      exact absurd hu (ht v (List.mem_cons_self ..))
    · obtain ⟨rfl, hrest⟩ := List.cons.inj h
      obtain ⟨rfl, hb⟩ := ih hrest fun x hx => ht x (List.mem_cons_of_mem _ hx)
      exact ⟨rfl, hb⟩

theorem Prints.derives {tokens t : List Token} {keyword semicolon end_ : Token}
    (h : Prints tokens t keyword semicolon end_) (hend : end_.kind = .eof) {body : List Stmt}
    (hparse : parse? tokens = some body) : ∃ φ : Phrase, φ.Derives t ∧ body = [.print φ.expr] := by
  obtain ⟨rfl, hkeyword, hsemicolon, hplain⟩ := h
  obtain ⟨⟨body', ts'⟩, hscript, rfl⟩ := Option.map_eq_some_iff.mp hparse
  obtain ⟨n, hn⟩ : ∃ n, 4 * ((keyword :: (t ++ [semicolon, end_])).length + 1) = n + 2 :=
    ⟨_, (Nat.sub_add_cancel (by omega)).symm⟩
  rw [hn] at hscript
  unfold Parser.script at hscript
  rw [bind_of (Parser.check_of_ne (by rw [hkeyword]; decide)), if_neg Bool.false_ne_true] at hscript
  obtain ⟨s, ts₁, hs, hscript⟩ := bind_some hscript
  rw [Parser.declaration_print hkeyword (by simp)] at hs
  obtain ⟨e, ts₂, hclause, hprint⟩ := bind_some hs
  cases hprint
  obtain ⟨e', ts₃, he, hclose⟩ := bind_some hclause
  obtain ⟨u, ts₄, hexpect, hreturn⟩ := bind_some hclose
  cases hreturn
  obtain ⟨rfl, hu⟩ := Parser.expect_some hexpect
  have hclasses : OutsideClasses (t ++ [semicolon, end_]) := by
    intro v hv
    simp only [List.mem_append, List.mem_cons, List.not_mem_nil, or_false] at hv
    rcases hv with hv | rfl | rfl
    · exact (hplain v hv).2.2
    · rw [hsemicolon]
      exact ⟨by decide, by decide⟩
    · rw [hend]
      exact ⟨by decide, by decide⟩
  obtain ⟨φ, hφ, rfl, htokens, -⟩ := Phrase.parsed_expression (Parser.derive_upTo n) hclasses he
  obtain ⟨rfl, rfl⟩ := split_at_semicolon htokens (fun v hv => (hplain v hv).2.1) (by rw [hend]; decide) hu
  obtain ⟨rest, ts₅, hrest, hbody⟩ := bind_some hscript
  cases hbody
  unfold Parser.script at hrest
  rw [bind_of (Parser.check_of_eq hend), if_pos rfl] at hrest
  cases hrest
  exact ⟨φ, ⟨hφ, rfl⟩, rfl⟩

open Heap HeapView

def Phrase.CompiledFrom (φ : Phrase) (source : Bytes) : Prop :=
  ∃ p, Order.draftAll {} (analyze source).1 = some ⟨[], some p⟩ ∧ Item.Made (.function φ.script) (.function p) ∧
    ∀ {r : Roots} {h : Heap}, h.Sound → h.Linked → h.closed = false → h.Rooted r →
      (∃ l f w h', compile source r h = .ok (.ok l) h' ∧ functionAt l h' = .ok f ∧ h'.ShowsFunction w f p) ∨
        (finalState (compile source r h)).Exhausted

theorem Prints.accepted {source : Bytes} {t : List Token} {keyword semicolon end_ : Token}
    (h : Prints (Token.scan source) t keyword semicolon end_) (hend : end_.kind = .eof)
    (hclean : (analyze source).2 = []) : ∃ φ : Phrase, φ.Derives t ∧ φ.WithinLimits ∧ φ.CompiledFrom source := by
  obtain ⟨body, f, p, hparse, hlisting, hdraft, hmade⟩ := analyze_accepted hclean
  obtain ⟨φ, hφ, rfl⟩ := h.derives hend hparse
  have hgenuine : ∀ u ∈ φ.tokens, u.Genuine := fun u hu => (Token.stream_scan source).genuine_of_mem u (by
    rw [h.tokens]
    exact .tail _ (List.mem_append_left _ (hφ.2 ▸ hu)))
  obtain ⟨hrange, rfl⟩ := Phrase.script_of hφ.1 hgenuine hlisting
  refine ⟨φ, hφ, ⟨hrange, ?_⟩, p, hdraft, hmade, fun {r h} hs hlinked hopen hr => ?_⟩
  · cases hmade with
    | function _ _ _ _ _ hfits _ =>
      exact fun l hl => hfits l (.tail _ (List.mem_append_left _ (List.mem_append_left _ hl)))
  · have hdelivers := delivers_compile (pictures_nothing hs hlinked hopen) hr hdraft
    unfold HeapM.Delivers at hdelivers
    cases hrun : compile source r h with
    | error e h' =>
      rw [hrun] at hdelivers
      exact .inr (hdelivers.resolve_right id)
    | ok answer h' =>
      rw [hrun] at hdelivers
      refine hdelivers.elim .inr fun ⟨w, _, hp, _, _, hanswer⟩ => .inl ?_
      cases answer with
      | ok l =>
        obtain ⟨-, halive, hl⟩ := hanswer
        obtain ⟨f, hf, hshows⟩ := hp.function halive hl
        exact ⟨l, f, w, h', rfl, hf, hshows.1⟩
      | error diagnostics => exact absurd hclean hanswer.1

/-- A source text `print t;` is accepted if and only if `t` derives from the grammar, within the limits. The
derivation is unique, and what the text is compiled to is the script of it. -/
theorem print_accepted {source : Bytes} {t : List Token} {keyword semicolon end_ : Token}
    (h : Prints (Token.scan source) t keyword semicolon end_) :
    ((analyze source).2 = [] ↔ ∃ φ : Phrase, φ.Derives t ∧ φ.WithinLimits) ∧
    (∀ φ ψ : Phrase, φ.Derives t → ψ.Derives t → φ = ψ) ∧
    ∀ φ : Phrase, φ.Derives t → φ.WithinLimits → φ.CompiledFrom source := by
  have hstream := Token.stream_scan source
  have hend : end_.kind = .eof := by
    have hlast := hstream
    rw [h.tokens,
      show keyword :: (t ++ [semicolon, end_]) = (keyword :: t ++ [semicolon]) ++ [end_] by simp] at hlast
    exact hlast.kind_last
  have hclean {φ : Phrase} (hφ : φ.Derives t) (hlimits : φ.WithinLimits) : (analyze source).2 = [] := by
    rw [analyze_eq, CompileM.clean_program h hend hstream hφ hlimits]
    rfl
  refine ⟨⟨fun haccepted => ?_, fun ⟨φ, hφ, hlimits⟩ => hclean hφ hlimits⟩, fun φ ψ hφ hψ => hφ.unique hψ,
    fun φ hφ hlimits => ?_⟩
  · obtain ⟨φ, hφ, hlimits, -⟩ := h.accepted hend haccepted
    exact ⟨φ, hφ, hlimits⟩
  · obtain ⟨ψ, hψ, -, hcompiled⟩ := h.accepted hend (hclean hφ hlimits)
    obtain rfl := hφ.unique hψ
    exact hcompiled

theorem print_accepted_set : ∃ t keyword semicolon end_,
    Prints (Token.scan "print a.b = 1 - 2 - c or d;") t keyword semicolon end_ ∧
      (analyze "print a.b = 1 - 2 - c or d;").2 = [] ∧
      ∃ φ : Phrase, φ.Derives t ∧ φ.WithinLimits ∧ φ.CompiledFrom "print a.b = 1 - 2 - c or d;" := by
  have hprints : Prints (Token.scan "print a.b = 1 - 2 - c or d;")
      [⟨.identifier, "a", 1⟩, ⟨.dot, ".", 1⟩, ⟨.identifier, "b", 1⟩, ⟨.equal, "=", 1⟩, ⟨.number, "1", 1⟩,
        ⟨.minus, "-", 1⟩, ⟨.number, "2", 1⟩, ⟨.minus, "-", 1⟩, ⟨.identifier, "c", 1⟩, ⟨.or_, "or", 1⟩,
        ⟨.identifier, "d", 1⟩]
      ⟨.print_, "print", 1⟩ ⟨.semicolon, ";", 1⟩ ⟨.eof, "", 1⟩ :=
    ⟨by decide +kernel, rfl, rfl, by decide +kernel⟩
  have hclean : (analyze "print a.b = 1 - 2 - c or d;").2 = [] := by
    rw [← List.isEmpty_iff]
    decide +kernel
  obtain ⟨φ, hφ, hlimits⟩ := (print_accepted hprints).1.mp hclean
  exact ⟨_, _, _, _, hprints, hclean, φ, hφ, hlimits, (print_accepted hprints).2.2 φ hφ hlimits⟩

end Lox

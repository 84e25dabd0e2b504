import Lox.Proofs.Source.Progress

namespace Lox

namespace CompileM

open Compiler

variable {parse : Goal → CompileM Unit} {parts : Parser.Parts} {n : Nat} {c : Compiler}
  {prev : Token} {ts : List Token} {g : Plan} {code : List UInt8} {codes : List (List UInt8)}

theorem accepts_nextDeclaration (hf : Tracks parse parts n) {t : Token}
    (h : At c prev (t :: ts) g (code :: codes)) (hn : 4 * (t :: ts).length + 2 ≤ n) :
    Accepts (nextDeclaration parse) c fun b c' =>
      (b = false ∧ t.kind = .eof ∧ At c' t (t :: ts) g (code :: codes)) ∨
      (b = true ∧ t.kind ≠ .eof ∧
        Produces 1 parts.declaration (Made Stmt.code) (t :: ts) g code codes c') := by
  have := hf.sketches
  obtain ⟨hcheck, -⟩ := run_check (k := .eof) h
  have haccept : accept .eof c = (if t.kind = .eof then (do advance; return true) else return false :
      CompileM Bool) c := by
    unfold accept
    rw [run_bind, hcheck]
    simp only [decide_eq_true_eq]
  by_cases heof : t.kind = .eof
  · rw [if_pos heof] at haccept
    obtain _ | ⟨u, rest⟩ := ts
    · have hend : Accepts (accept .eof) c fun b c' => b = true ∧ At c' t [t] g (code :: codes) :=
        .of_eq haccept (.bind (accepts_advance_end h) fun _ c₁ h₁ => .pure ⟨rfl, h₁⟩)
      refine hend.bind ?_
      rintro _ c₁ ⟨rfl, h₁⟩
      exact .pure (.inl ⟨rfl, heof, h₁⟩)
    · exact absurd heof h.stream.1
  · rw [if_neg heof] at haccept
    refine .read haccept ?_
    simp only [Bool.false_eq_true, if_false]
    exact .bind (hf.declaration h hn) fun _ c₁ hprod => .pure (.inr ⟨rfl, heof, hprod⟩)

theorem accepts_script (hf : Tracks parse parts n) (fuel : Nat) (hfuel : ts.length ≤ fuel)
    (h : At c prev ts g (code :: codes)) (hn : 4 * ts.length + 2 ≤ n) :
    Accepts (loop fuel (nextDeclaration parse)) c fun _ =>
      Produces 0 (Parser.script parts fuel) (Made Stmt.codeOfAll) ts g code codes := by
  have := hf.sketches
  have hnext : Sketches (nextDeclaration parse) := by
    unfold nextDeclaration
    infer_instance
  induction fuel generalizing c prev ts g code with
  | zero =>
    obtain _ | ⟨t, ts⟩ := ts
    · exact h.stream.elim
    · simp at hfuel
  | succ fuel ih =>
    obtain _ | ⟨t, rest⟩ := ts
    · exact h.stream.elim
    obtain ⟨-, hpcheck⟩ := run_check (k := .eof) h
    unfold loop
    refine .bind (accepts_nextDeclaration hf h hn) fun b c₁ hb => ?_
    rcases hb with ⟨rfl, heof, h₁⟩ | ⟨rfl, heof, s, ts₁, a, g₁, prev₁, hp₁, hlen₁, hg₁, hfits₁, h₁⟩
    · refine .pure ⟨[], t :: rest, [], g, t, ?_, Nat.le_refl _, ?_, Code.fits_nil, h₁.recode (by simp)⟩
      · unfold Parser.script
        rw [bind_of hpcheck, decide_eq_true heof]
        rfl
      · show Stmt.codeOfAll _ g = _
        rw [Stmt.codeOfAll]
        rfl
    · rw [List.length_cons] at hfuel hlen₁ hn
      refine (ih (by omega) h₁ (by omega)).weaken
        fun _ c₂ ⟨ss, ts₂, b, g₂, prev₂, hp₂, hlen₂, hg₂, hfits₂, h₂⟩ => ?_
      refine ⟨s :: ss, ts₂, a ++ b, g₂, prev₂, ?_, ?_, ?_, hfits₁.append hfits₂, h₂.recode (by simp)⟩
      · unfold Parser.script
        rw [bind_of hpcheck, decide_eq_false heof, if_neg Bool.false_ne_true, bind_of hp₁, bind_of hp₂]
        rfl
      · rw [List.length_cons]
        omega
      · show Stmt.codeOfAll _ g = _
        rw [Stmt.codeOfAll, bind_of hg₁, bind_of hg₂]
        rfl

end CompileM

open CompileM

/-- The classes that a source text declares, at any depth. -/
def classesOf (source : Bytes) : List ClassBody :=
  ((parse? (Token.scan source)).map Stmt.classesOfAll).getD []

theorem analyze_accepted {source : Bytes} (h : (analyze source).2 = []) :
    ∃ body f p, parse? (Token.scan source) = some body ∧ scriptListing body = some f ∧
      Order.draftAll {} (analyze source).1 = some ⟨[], some p⟩ ∧
      Item.Made (.function f) (.function p) := by
  obtain ⟨t, rest, hscan⟩ : ∃ t rest, Token.scan source = t :: rest := by
    have hstream : Stream (Token.scan source) := Token.stream_scan source
    cases htokens : Token.scan source with
    | nil =>
      rw [htokens] at hstream
      exact hstream.elim
    | cons t rest => exact ⟨t, rest, rfl⟩
  have hstream : Stream (t :: rest) := hscan ▸ Token.stream_scan source
  let fuel := 4 * ((t :: rest).length + 1)
  let c₀ : Compiler := { upcoming := t :: rest }
  -- before the first token is read, the compiler holds a token of no meaning
  have h₀ : At c₀ c₀.previous (c₀.current :: t :: rest) {} [] :=
    ⟨rfl, rfl, rfl, rfl,
      ⟨(show TokenKind.leftParen ≠ .eof from nofun),
        Token.genuine_of_kind (show TokenKind.leftParen ≠ .this_ from nofun)
        (show TokenKind.leftParen ≠ .identifier from nofun), hstream⟩,
      rfl, {}, rfl, .nil⟩
  have hprogram : Accepts (beginFunction .script >>= fun _ => declarations fuel >>= fun _ => endFunction)
      c₀ fun _ c' => ∃ body f, parse? (t :: rest) = some body ∧ scriptListing body = some f ∧
        Ended c' f ∧ ∃ prev ts g, At c' prev ts g [] := by
    have hnext : Sketches (nextDeclaration (CompileM.parse fuel)) := by
      unfold nextDeclaration
      infer_instance
    refine .bind (accepts_beginScript h₀) fun _ c₁ ⟨g₁, hg₁, h₁⟩ => ?_
    have hdeclarations : Accepts (declarations fuel) c₁ fun _ =>
        Produces 0 (Parser.script (Parser.upTo fuel) fuel) (Made Stmt.codeOfAll) (t :: rest) g₁ [] [] :=
      .bind (accepts_advance_more h₁) fun _ c₂ h₂ =>
        accepts_script (tracks fuel) fuel (by simp only [fuel]; omega) h₂ (by simp only [fuel]; omega)
    refine hdeclarations.bind ?_
    rintro _ c₂ ⟨body, ts', lines, g₂, prev₂, hparse, -, hg₂, hfits, h₂⟩
    refine (accepts_endFunction hfits (h₂.recode (by simp))).weaken
      fun _ c₃ ⟨f, g₃, hg₃, _, _, hended, h₃⟩ => ⟨body, f, ?_, ?_, hended, _, _, _, h₃⟩
    · unfold parse?
      show Option.map _ (Parser.script (Parser.upTo fuel) fuel (t :: rest)) = _
      rw [hparse]
      rfl
    · unfold scriptListing
      dsimp only
      rw [bind_of hg₁, bind_of hg₂, hg₃]
      rfl
  have hrun : (program fuel c₀).2 =
      ((beginFunction .script >>= fun _ => declarations fuel >>= fun _ => endFunction) c₀).2 := rfl
  have hc : (analyze source).1 = (program fuel c₀).2.orders.reverse ∧
      (analyze source).2 = (program fuel c₀).2.diagnostics.reverse := by
    rw [analyze_eq, hscan]
    exact ⟨rfl, rfl⟩
  rw [hc.2, List.reverse_eq_nil_iff, hrun] at h
  obtain ⟨body, f, hparse, hlisting, ⟨d, p, hd, hp, hmade⟩, prev, ts, g, hat⟩ := hprogram h
  rw [← hrun] at hd hat
  obtain ⟨d', hd', halike⟩ := hat.drafted
  obtain rfl : d = d' := by
    rw [hd] at hd'
    exact Option.some.inj hd'
  refine ⟨body, f, p, ?_, hlisting, ?_, hmade⟩
  · rw [hscan]
    exact hparse
  · rw [hc.1]
    show (program fuel c₀).2.drafts = _
    generalize hss : (program fuel c₀).2.scopes = ss, hes : (program fuel c₀).2.extents = es at halike
    generalize hls : g.levels = ls, hcodes : ([] : List (List UInt8)) = codes at halike
    generalize hopen : d.open_ = ps at halike
    cases halike with
    | nil =>
      obtain ⟨ps, e⟩ := d
      rw [hd, ← hp, ← hopen]
    | cons => exact nomatch hcodes

end Lox

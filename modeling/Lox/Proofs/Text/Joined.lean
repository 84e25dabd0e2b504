import Lox.Proofs.Text.Covers

namespace Lox

def IsSeparator (s : Bytes) : Prop :=
  ∃ c g, s = c :: g ∧ IsBlank c ∧ Gap g

/-- Lexemes with a separator between each two. -/
inductive Joined : List (TokenKind × Bytes) → Bytes → Prop
  | nil : Joined [] []
  | single {k : TokenKind} {b : Bytes} (hk : Lexeme k b) : Joined [(k, b)] b
  | cons {k : TokenKind} {b s text : Bytes} {l : List (TokenKind × Bytes)} (hk : Lexeme k b) (hs : IsSeparator s)
      (hl : l ≠ []) (h : Joined l text) : Joined ((k, b) :: l) (b ++ (s ++ text))

theorem IsSeparator.gap {s : Bytes} (hs : IsSeparator s) : Gap s := by
  obtain ⟨c, g, rfl, hc, hg⟩ := hs
  exact .blank hc hg

namespace Token

def shape (t : Token) : TokenKind × Bytes :=
  (t.kind, t.lexeme)

inductive Spaced : List (TokenKind × Bytes) → Bytes → Prop
  | finish : Spaced [] []
  | lexeme {k : TokenKind} {b text : Bytes} {l : List (TokenKind × Bytes)} (hk : Lexeme k b) (hcut : Cut text)
      (h : Spaced l text) : Spaced ((k, b) :: l) (b ++ text)
  | gap {g text : Bytes} {l : List (TokenKind × Bytes)} (hg : Gap g) (h : Spaced l text) : Spaced l (g ++ text)

theorem cut_separator {s : Bytes} (hs : IsSeparator s) (text : Bytes) : Cut (s ++ text) := by
  obtain ⟨c, g, rfl, hc, -⟩ := hs
  rintro d hd
  cases hd
  exact hc

theorem spaced_of_joined {l : List (TokenKind × Bytes)} {text : Bytes} (h : Joined l text) : Spaced l text := by
  induction h with
  | nil => exact .finish
  | @single k b hk =>
    have hlast := @Spaced.lexeme k b [] [] hk nofun .finish
    rwa [List.append_nil] at hlast
  | cons hk hs _ _ ih => exact .lexeme hk (cut_separator hs _) (.gap hs.gap ih)

theorem from_gap {g : Bytes} (hg : Gap g) (text : Bytes) (line fuel : Nat) :
    from_ fuel ⟨g ++ text, line⟩ = from_ fuel ⟨text, line + g.count Ascii.newline⟩ := by
  have hnext : next ⟨g ++ text, line⟩ = next ⟨text, line + g.count Ascii.newline⟩ := by
    unfold next
    dsimp only
    rw [skipBlank_gap hg]
  cases fuel with
  | zero => rfl
  | succ fuel =>
    unfold from_
    rw [hnext]

theorem shape_from {l : List (TokenKind × Bytes)} {text : Bytes} (h : Spaced l text) :
    ∀ {fuel : Nat} (line : Nat), text.length < fuel →
      (from_ fuel ⟨text, line⟩).map shape = l ++ [(.eof, [])] := by
  induction h with
  | finish =>
    intro fuel line hfuel
    cases fuel with
    | zero => exact absurd hfuel (Nat.not_lt_zero _)
    | succ fuel => rfl
  | @lexeme k b text l hk hcut _ ih =>
    intro fuel line hfuel
    cases fuel with
    | zero => exact absurd hfuel (Nat.not_lt_zero _)
    | succ fuel =>
      have hpos : 0 < b.length := List.length_pos_of_ne_nil hk.ne_nil
      rw [List.length_append] at hfuel
      rw [from_, next_lexeme line hk hcut]
      dsimp only
      rw [if_neg hk.kind_ne.1, List.map_cons, ih _ (by omega)]
      rfl
  | @gap g text l hg _ ih =>
    intro fuel line hfuel
    rw [List.length_append] at hfuel
    rw [from_gap hg, ih _ (by omega)]

theorem shape_scan {l : List (TokenKind × Bytes)} {text : Bytes} (h : Spaced l text) :
    (scan text).map shape = l ++ [(.eof, [])] := by
  rw [scan_eq]
  exact shape_from h 1 (Nat.lt_succ_self _)

theorem spaced_join {ts : List Token} (hts : ∀ t ∈ ts, Lexeme t.kind t.lexeme) {tail : List Bytes}
    (htail : tail = [] ∨ tail = [[]]) : Spaced (ts.map shape) (Bytes.join " " (ts.map (·.lexeme) ++ tail)) := by
  have hspace : IsSeparator (Bytes.ofString " ") := ⟨Ascii.space, [], rfl, .inl rfl, .nil⟩
  induction ts with
  | nil =>
    rcases htail with rfl | rfl
    · exact .finish
    · exact .finish
  | cons t ts ih =>
    obtain ⟨ht, hts⟩ := List.forall_mem_cons.mp hts
    have hrest := ih hts
    rw [List.map_cons, List.map_cons, List.cons_append]
    cases hwords : ts.map (·.lexeme) ++ tail with
    | nil =>
      rw [hwords] at hrest
      have hlast := @Spaced.lexeme _ _ [] _ ht nofun hrest
      rwa [List.append_nil] at hlast
    | cons w words =>
      rw [hwords] at hrest
      have hnext := Spaced.lexeme ht (cut_separator hspace _) (.gap hspace.gap hrest)
      rw [← List.append_assoc] at hnext
      exact hnext

/-- Joined lexemes are read as they were. The tokens of a text without errors are read again from their lexemes
alone, with single spaces between them. -/
theorem scan_undoes_joining : (∀ l text, Joined l text → (scan text).map shape = l ++ [(.eof, [])]) ∧
    ∀ source, (∀ t ∈ scan source, t.kind ≠ .error) →
      (scan (Bytes.join " " ((scan source).map (·.lexeme)))).map shape = (scan source).map shape ∧
      (scan (Bytes.join " " ((scan source).dropLast.map (·.lexeme)))).map shape = (scan source).map shape := by
  refine ⟨fun l text h => shape_scan (spaced_of_joined h), fun source hgood => ?_⟩
  have hcovers := covers_scan source
  obtain ⟨ts, n, hscan, hts⟩ := hcovers.last
  rw [hscan] at hgood
  have hlexemes : ∀ t ∈ ts, Lexeme t.kind t.lexeme := by
    intro t ht
    refine hcovers.lexemes t ?_ (hts t ht) (hgood t (List.mem_append_left _ ht))
    rw [hscan]
    exact List.mem_append_left _ ht
  rw [hscan, List.dropLast_concat, List.map_append, List.map_append]
  refine ⟨shape_scan (spaced_join hlexemes (.inr rfl)), ?_⟩
  have hbare := spaced_join hlexemes (.inl rfl)
  rw [List.append_nil] at hbare
  exact shape_scan hbare

theorem scan_undoes_joining_comment :
    (Joined [(.print_, "print"), (.number, "1.5")] "print //\n1.5" ∧
      (scan "print //\n1.5").map shape =
        [(TokenKind.print_, Bytes.ofString "print"), (.number, Bytes.ofString "1.5"), (.eof, [])]) ∧
    (∀ t ∈ scan "a=!b", t.kind ≠ .error) ∧
      (scan (Bytes.join " " ((scan "a=!b").map (·.lexeme)))).map shape = (scan "a=!b").map shape := by
  have hseparator : IsSeparator (Bytes.ofString " //\n") :=
    ⟨Ascii.space, _, rfl, .inl rfl, @Gap.comment [] [] nofun .nil⟩
  have hnumber : Lexeme .number (Bytes.ofString "1.5") :=
    @Lexeme.fraction [49] [53] nofun (List.forall_mem_singleton.mpr rfl) nofun (List.forall_mem_singleton.mpr rfl)
  have hjoined : Joined [(.print_, "print"), (.number, "1.5")] (Bytes.ofString "print //\n1.5") :=
    .cons (.keyword (k := .print_) (by decide)) hseparator nofun (.single hnumber)
  have hgood : ∀ t ∈ scan "a=!b", t.kind ≠ .error := by
    decide
  exact ⟨⟨hjoined, scan_undoes_joining.1 _ _ hjoined⟩, hgood, (scan_undoes_joining.2 _ hgood).1⟩

end Token

end Lox

import Lox.Proofs.Text.Lexemes

namespace Lox

open Ascii

namespace Token

inductive Covers : Nat → Bytes → List Token → Prop
  | finish (line : Nat) : Covers line [] [⟨.eof, [], line⟩]
  | blank {line : Nat} {c : UInt8} {rest : Bytes} {ts : List Token} (hc : IsBlank c)
      (h : Covers (line + [c].count newline) rest ts) : Covers line (c :: rest) ts
  | comment {line : Nat} {text rest : Bytes} {ts : List Token} (ht : newline ∉ text)
      (hend : ∀ c ∈ rest.head?, c = newline) (h : Covers line rest ts) :
      Covers line (slash :: slash :: (text ++ rest)) ts
  | lexeme {line : Nat} {k : TokenKind} {b rest : Bytes} {ts : List Token} (hk : Lexeme k b)
      (h : Covers (line + b.count newline) rest ts) :
      Covers line (b ++ rest) (⟨k, b, line + b.count newline⟩ :: ts)
  | unexpected {line : Nat} {c : UInt8} {rest : Bytes} {ts : List Token} (hc : ¬ IsBlank c)
      (hnone : ∀ k b, ¬ Lexeme k (c :: b)) (h : Covers line rest ts) :
      Covers line (c :: rest) (⟨.error, "Unexpected character.", line⟩ :: ts)
  | unclosed {line : Nat} {text : Bytes} (ht : quote ∉ text) :
      Covers line (quote :: text) [⟨.error, "Unterminated string.", line + text.count newline⟩,
        ⟨.eof, [], line + text.count newline⟩]

theorem Covers.of_nil {line : Nat} {text : Bytes} {ts : List Token} (h : Covers line text ts) (htext : text = []) :
    ts = [⟨.eof, [], line⟩] := by
  cases h with
  | finish => rfl
  | blank | comment | unexpected | unclosed => cases htext
  | lexeme hk => exact absurd (List.append_eq_nil_iff.mp htext).1 hk.ne_nil

theorem Covers.last {line : Nat} {text : Bytes} {ts : List Token} (h : Covers line text ts) :
    ∃ us n, ts = us ++ [⟨.eof, [], n⟩] ∧ ∀ u ∈ us, u.kind ≠ .eof := by
  have hcons {t : Token} {ts : List Token} (ht : t.kind ≠ .eof)
      (h : ∃ us n, ts = us ++ [⟨.eof, [], n⟩] ∧ ∀ u ∈ us, u.kind ≠ .eof) :
      ∃ us n, t :: ts = us ++ [⟨.eof, [], n⟩] ∧ ∀ u ∈ us, u.kind ≠ .eof := by
    obtain ⟨us, n, rfl, hus⟩ := h
    exact ⟨t :: us, n, rfl, List.forall_mem_cons.mpr ⟨ht, hus⟩⟩
  induction h with
  | finish => exact ⟨[], _, rfl, nofun⟩
  | blank _ _ ih | comment _ _ _ ih => exact ih
  | lexeme hk _ ih => exact hcons hk.kind_ne.1 ih
  | unexpected _ _ _ ih => exact hcons nofun ih
  | unclosed => exact ⟨[_], _, rfl, by simp⟩

theorem Covers.lexemes {line : Nat} {text : Bytes} {ts : List Token} (h : Covers line text ts) :
    ∀ t ∈ ts, t.kind ≠ .eof → t.kind ≠ .error → Lexeme t.kind t.lexeme := by
  induction h with
  | finish => simp
  | blank _ _ ih | comment _ _ _ ih => exact ih
  | lexeme hk _ ih => exact List.forall_mem_cons.mpr ⟨fun _ _ => hk, ih⟩
  | unexpected _ _ _ ih => exact List.forall_mem_cons.mpr ⟨fun _ he => absurd rfl he, ih⟩
  | unclosed => simp

theorem Covers.lines {line : Nat} {text : Bytes} {ts : List Token} (h : Covers line text ts) :
    (ts.Pairwise fun t u => t.line ≤ u.line) ∧ ∀ t ∈ ts, line ≤ t.line ∧ t.line ≤ line + text.count newline := by
  have hcons {line n : Nat} {t : Token} {b rest : Bytes} {ts : List Token} (ht : line ≤ t.line)
      (hn : n = b.count newline) (hline : t.line = line + n)
      (h : (ts.Pairwise fun t u => t.line ≤ u.line) ∧
        ∀ u ∈ ts, t.line ≤ u.line ∧ u.line ≤ t.line + rest.count newline) :
      ((t :: ts).Pairwise fun t u => t.line ≤ u.line) ∧
        ∀ u ∈ t :: ts, line ≤ u.line ∧ u.line ≤ line + (b ++ rest).count newline := by
    rw [List.count_append, ← hn]
    refine ⟨List.pairwise_cons.mpr ⟨fun u hu => (h.2 u hu).1, h.1⟩, List.forall_mem_cons.mpr ⟨?_, fun u hu => ?_⟩⟩
    · omega
    · have := h.2 u hu
      omega
  induction h with
  | finish => simp
  | @blank line c rest ts _ _ ih =>
    refine ⟨ih.1, fun t ht => ?_⟩
    have hbounds := ih.2 t ht
    rw [← List.singleton_append, List.count_append]
    omega
  | @comment line text rest ts _ _ _ ih =>
    refine ⟨ih.1, fun t ht => ?_⟩
    have hbounds := ih.2 t ht
    rw [← List.cons_append, ← List.cons_append, List.count_append]
    omega
  | lexeme _ _ ih => exact hcons (Nat.le_add_right _ _) rfl rfl ih
  | @unexpected line c rest ts hc _ _ ih =>
    have hcount : 0 = [c].count newline := by
      rw [List.count_singleton, beq_eq_false_iff_ne.mpr fun heq => hc (.inr (.inr (.inr heq)))]
      rfl
    exact hcons (b := [c]) (Nat.le_refl _) hcount rfl ih
  | @unclosed line text _ =>
    have hquote : (quote == newline) = false := rfl
    simp [List.count_cons, hquote]

theorem covers_skipBlank {ts : List Token} (comment : Bool) (text : Bytes) (line : Nat) :
    Covers (skipBlank comment text line).line (skipBlank comment text line).rest ts →
      match comment with
      | false => Covers line text ts
      | true => ∃ skipped rest, text = skipped ++ rest ∧ newline ∉ skipped ∧
          (∀ c ∈ rest.head?, c = newline) ∧ Covers line rest ts := by
  fun_induction skipBlank comment text line with
  | case1 comment line =>
    intro h
    cases comment with
    | false => exact h
    | true => exact ⟨[], [], rfl, List.not_mem_nil, by rintro _ ⟨⟩, h⟩
  | case2 comment line r ih =>
    intro h
    have hrest : Covers line (newline :: r) ts := .blank (.inr (.inr (.inr rfl))) (ih h)
    cases comment with
    | false => exact hrest
    | true => exact ⟨[], _, rfl, by decide, fun _ hc => (Option.some.inj hc).symm, hrest⟩
  | case3 line c r hc ih =>
    intro h
    obtain ⟨skipped, rest, rfl, hskipped, hend, hrest⟩ := ih h
    refine ⟨c :: skipped, rest, rfl, fun hmem => ?_, hend, hrest⟩
    exact (List.mem_cons.mp hmem).elim (fun heq => hc heq.symm) hskipped
  | case4 comment line c r hc hcomment hblank ih =>
    intro h
    obtain rfl := eq_false_of_ne_true hcomment
    have hcount : [c].count newline = 0 := by simp [hc]
    have hc' : IsBlank c := by
      simp only [Bool.or_eq_true, decide_eq_true_eq] at hblank
      rcases hblank with (hs | hs) | hs
      · exact .inl hs
      · exact .inr (.inr (.inl hs))
      · exact .inr (.inl hs)
    exact .blank hc' (by rw [hcount]; exact ih h)
  | case5 comment line c r hc hcomment hblank hslash ih =>
    intro h
    obtain rfl := eq_false_of_ne_true hcomment
    simp only [Bool.and_eq_true, decide_eq_true_eq] at hslash
    obtain ⟨rfl, hhead⟩ := hslash
    obtain ⟨r, rfl⟩ := List.head?_eq_some_iff.mp hhead
    obtain ⟨skipped, rest, hr, hskipped, hend, hrest⟩ := ih h
    cases skipped with
    | nil =>
      -- the second slash belongs to the comment
      obtain rfl : slash :: r = rest := hr
      exact absurd (hend slash rfl) (by decide)
    | cons c skipped =>
      obtain ⟨rfl, rfl⟩ := List.cons.inj hr
      exact .comment (fun hmem => hskipped (List.mem_cons_of_mem _ hmem)) hend hrest
  | case6 comment line c r hc hcomment hblank hslash =>
    intro h
    obtain rfl := eq_false_of_ne_true hcomment
    exact h

def Takes (line : Nat) (text : Bytes) (r : Token × Cursor) : Prop :=
  ∀ ts, Covers r.2.line r.2.rest ts → Covers line text (r.1 :: ts)

theorem takes_of {line : Nat} {text : Bytes} {k : TokenKind} {b rest : Bytes} (hk : Lexeme k b)
    (hcount : b.count newline = 0) (htext : b ++ rest = text) : Takes line text (⟨k, b, line⟩, ⟨rest, line⟩) := by
  intro ts h
  have hlexeme := @Covers.lexeme line _ _ _ _ hk (by rw [hcount]; exact h)
  rw [hcount, htext] at hlexeme
  exact hlexeme

theorem span_spec (p : UInt8 → Bool) (text : Bytes) : (text.span p).1 ++ (text.span p).2 = text ∧
    ∀ c ∈ (text.span p).1, p c = true := by
  rw [List.span_eq_takeWhile_dropWhile]
  exact ⟨List.takeWhile_append_dropWhile, List.all_eq_true.mp List.all_takeWhile⟩

theorem span_ne_nil {p : UInt8 → Bool} {c : UInt8} (r : Bytes) (hc : p c = true) : ((c :: r).span p).1 ≠ [] := by
  rw [List.span_eq_takeWhile_dropWhile]
  dsimp only
  rw [List.takeWhile_cons_of_pos hc]
  nofun

theorem lexeme_word {c : UInt8} {w : Bytes} (hc : isLetter c = true)
    (hw : ∀ b ∈ w, (isLetter b || isDigit b) = true) : Lexeme (TokenKind.ofWord (c :: w)) (c :: w) := by
  rcases ofWord_cases (c :: w) with hid | ⟨hk, hname⟩
  · rw [hid]
    refine .identifier hc hw fun k hk hname => ?_
    have hkind := ofWord_keyword k hk
    rw [hname, hid] at hkind
    subst hkind
    exact absurd hk (by decide)
  · have hkeyword := Lexeme.keyword hk
    rwa [← hname] at hkeyword

theorem takes_word {c : UInt8} (r : Bytes) (line : Nat) (hc : isLetter c = true) :
    Takes line (c :: r) (word (c :: r) line) := by
  have hfirst : (isLetter c || isDigit c) = true := by rw [hc, Bool.true_or]
  have hspec := span_spec (fun c => isLetter c || isDigit c) (c :: r)
  have hne := span_ne_nil (p := fun c => isLetter c || isDigit c) r hfirst
  unfold word
  generalize (c :: r).span (fun c => isLetter c || isDigit c) = x at hspec hne
  obtain ⟨name, rest⟩ := x
  obtain ⟨htext, hall⟩ := hspec
  dsimp only at htext hall hne ⊢
  cases name with
  | nil => exact absurd rfl hne
  | cons d w =>
    obtain ⟨rfl, rfl⟩ := List.cons.inj htext
    exact takes_of (lexeme_word hc fun b hb => hall b (List.mem_cons_of_mem _ hb))
      (count_newline_of (p := fun c => isLetter c || isDigit c) hall rfl) rfl

theorem takes_number {c : UInt8} (r : Bytes) (line : Nat) (hc : isDigit c = true) :
    Takes line (c :: r) (number (c :: r) line) := by
  obtain ⟨htext, hall⟩ := span_spec isDigit (c :: r)
  have hne := span_ne_nil r hc
  unfold number
  generalize (c :: r).span isDigit = x at htext hall hne
  obtain ⟨digits, rest⟩ := x
  dsimp only at htext hall hne ⊢
  have hwhole : Takes line (c :: r) (⟨.number, digits, line⟩, ⟨rest, line⟩) :=
    takes_of (.whole hne hall) (count_newline_of hall rfl) htext
  split
  · rename_i d r'
    split
    · rename_i hd
      obtain ⟨hpart, hp⟩ := span_spec isDigit (d :: r')
      have hpne := span_ne_nil r' hd
      generalize (d :: r').span isDigit = y at hpart hp hpne
      obtain ⟨part, rest⟩ := y
      dsimp only at hpart hp hpne ⊢
      have hcount : (digits ++ point :: part).count newline = 0 := by
        rw [List.count_append, List.count_cons, count_newline_of hall rfl, count_newline_of hp rfl]
        rfl
      exact takes_of (.fraction hne hall hpne hp) hcount
        (by rw [List.append_assoc, List.cons_append, hpart]; exact htext)
    · exact hwhole
  · exact hwhole

theorem untilQuote_some {taken rest lexeme : Bytes} {line : Nat} {c : Cursor}
    (h : untilQuote taken rest line = some (lexeme, c)) : ∃ text, quote ∉ text ∧
      rest = text ++ quote :: c.rest ∧ lexeme = taken.reverse ++ (text ++ [quote]) ∧
        c.line = line + text.count newline := by
  fun_induction untilQuote taken rest line with
  | case1 => cases h
  | case2 =>
    cases h
    exact ⟨[], by decide, rfl, by simp, rfl⟩
  | case3 taken line d r hd ih =>
    obtain ⟨text, ht, rfl, rfl, hline⟩ := ih h
    refine ⟨d :: text, fun hmem => ?_, rfl, by simp, ?_⟩
    · exact (List.mem_cons.mp hmem).elim (fun heq => hd heq.symm) ht
    · rw [hline, List.count_cons]
      by_cases hn : d = newline
      · simp [hn, Nat.add_assoc, Nat.add_comm]
      · simp [hn]

theorem untilQuote_none {taken rest : Bytes} {line : Nat} (h : untilQuote taken rest line = none) :
    quote ∉ rest := by
  intro hmem
  obtain ⟨text, r, rfl, ht⟩ := List.eq_append_cons_of_mem hmem
  rw [untilQuote_append taken r line ht] at h
  cases h

theorem takes_string (r : Bytes) (line : Nat) : Takes line (quote :: r) (string r line) := by
  intro ts h
  unfold string at h ⊢
  cases huntil : untilQuote [quote] r line with
  | none =>
    rw [huntil] at h
    obtain rfl := h.of_nil rfl
    exact .unclosed (untilQuote_none huntil)
  | some x =>
    obtain ⟨lexeme, c⟩ := x
    rw [huntil] at h
    dsimp only at h ⊢
    obtain ⟨text, ht, rfl, rfl, hline⟩ := untilQuote_some huntil
    have hquote : (quote == newline) = false := rfl
    have hcount : (quote :: (text ++ [quote])).count newline = text.count newline := by
      simp [List.count_cons, hquote]
    have hlexeme := @Covers.lexeme line _ _ _ _ (.string ht) (by rw [hcount, ← hline]; exact h)
    rw [hcount, ← hline] at hlexeme
    have htext : quote :: (text ++ quote :: c.rest) = quote :: (text ++ [quote]) ++ c.rest := by simp
    rw [htext]
    exact hlexeme

theorem punctuation_spec {c : UInt8} {k : TokenKind} (h : punctuation c = some k) :
    k ∈ TokenKind.signs ∧ Bytes.ofString k.name = [c] := by
  unfold punctuation at h
  split at h <;> cases h <;> exact ⟨by decide, rfl⟩

theorem withEqual_spec {c : UInt8} {k k' : TokenKind} (hc : punctuation c = some k) (h : withEqual k = some k') :
    k' ∈ TokenKind.signs ∧ Bytes.ofString k'.name = [c, equals] := by
  have hname := (punctuation_spec hc).2
  cases k <;> cases h <;> cases hname <;> exact ⟨by decide, rfl⟩

theorem punctuation_of_sign : ∀ k ∈ TokenKind.signs, ∀ c ∈ (Bytes.ofString k.name).head?, punctuation c ≠ none := by
  decide +kernel

theorem no_lexeme {c : UInt8} (hletter : isLetter c = false) (hdigit : isDigit c = false) (hquote : c ≠ quote)
    (hsign : punctuation c = none) (k : TokenKind) (b : Bytes) : ¬ Lexeme k (c :: b) := by
  generalize htext : c :: b = text
  intro h
  have hhead : ∀ {d : UInt8} {r : Bytes}, text = d :: r → c = d := by
    rintro d r rfl
    exact (List.cons.inj htext).1
  cases h with
  | sign hk => exact punctuation_of_sign k hk c (by rw [← htext]; rfl) hsign
  | keyword hk =>
    obtain ⟨d, w, hname, hd, -⟩ := letters_keyword hk
    rw [← hhead hname, hletter] at hd
    cases hd
  | identifier hc =>
    rw [← hhead rfl, hletter] at hc
    cases hc
  | whole hne hd =>
    have hc := hd c (by rw [← htext]; exact List.mem_cons_self ..)
    rw [hdigit] at hc
    cases hc
  | @fraction digits part hne hd =>
    cases digits with
    | nil => exact hne rfl
    | cons d digits =>
      have hc := hd d (List.mem_cons_self ..)
      rw [← hhead rfl, hdigit] at hc
      cases hc
  | string => exact hquote (hhead rfl)

theorem takes_operator {c : UInt8} (r : Bytes) (line : Nat) (hblank : ¬ IsBlank c) (hletter : isLetter c = false)
    (hdigit : isDigit c = false) (hquote : c ≠ quote) : Takes line (c :: r) (operator c r line) := by
  have hsign {k : TokenKind} {b rest : Bytes} (hk : k ∈ TokenKind.signs) (hb : Bytes.ofString k.name = b) :
      Takes line (b ++ rest) (⟨k, b, line⟩, ⟨rest, line⟩) := by
    have hcount : ∀ k ∈ TokenKind.signs, (Bytes.ofString k.name).count newline = 0 := by
      decide
    subst hb
    exact takes_of (.sign hk) (hcount k hk) rfl
  unfold operator
  cases hp : punctuation c with
  | none =>
    intro ts h
    exact .unexpected hblank (no_lexeme hletter hdigit hquote hp) h
  | some k =>
    obtain ⟨hk, hname⟩ := punctuation_spec hp
    dsimp only
    split
    · rename_i longer r' hlonger
      obtain ⟨hk', hname'⟩ := withEqual_spec hp hlonger
      exact hsign hk' hname'
    · exact hsign hk hname

theorem skipBlank_head (comment : Bool) (text : Bytes) (line : Nat) :
    ∀ c ∈ (skipBlank comment text line).rest.head?, ¬ IsBlank c := by
  fun_induction skipBlank comment text line with
  | case1 => rintro _ ⟨⟩
  | case2 _ _ _ ih | case3 _ _ _ _ ih | case4 _ _ _ _ _ _ _ ih | case5 _ _ _ _ _ _ _ _ ih => exact ih
  | case6 comment line c r hc hcomment hblank hslash =>
    rintro d hd (hs | hs | hs | hs) <;> cases hd <;> simp_all

theorem takes_next (c : Cursor) (h : (next c).1.kind ≠ .eof) : Takes c.line c.rest (next c) := by
  intro ts hts
  have hskip := @covers_skipBlank ((next c).1 :: ts) false c.rest c.line
  have hhead := skipBlank_head false c.rest c.line
  unfold next at h hts hskip ⊢
  generalize skipBlank false c.rest c.line = at_ at h hts hskip hhead ⊢
  obtain ⟨text, line⟩ := at_
  cases text with
  | nil => exact absurd rfl h
  | cons b r =>
    have hblank := hhead b rfl
    refine hskip ?_
    dsimp only at hts ⊢
    by_cases hletter : isLetter b = true
    · rw [if_pos hletter] at hts ⊢
      exact takes_word r line hletter ts hts
    · rw [if_neg hletter] at hts ⊢
      by_cases hdigit : isDigit b = true
      · rw [if_pos hdigit] at hts ⊢
        exact takes_number r line hdigit ts hts
      · rw [if_neg hdigit] at hts ⊢
        by_cases hquote : b = quote
        · rw [if_pos hquote] at hts ⊢
          subst hquote
          exact takes_string r line ts hts
        · rw [if_neg hquote] at hts ⊢
          exact takes_operator r line hblank (eq_false_of_ne_true hletter) (eq_false_of_ne_true hdigit) hquote ts hts

theorem covers_eof {c : Cursor} (h : (next c).1.kind = .eof) : Covers c.line c.rest [(next c).1] := by
  have hskip := @covers_skipBlank [(next c).1] false c.rest c.line
  unfold next at h hskip ⊢
  generalize skipBlank false c.rest c.line = at_ at h hskip ⊢
  obtain ⟨text, line⟩ := at_
  refine hskip ?_
  cases text with
  | nil => exact .finish line
  | cons b r =>
    dsimp only at h
    split at h
    · exact absurd h (reads_word ‹_› r line).kind
    · split at h
      · exact absurd h (reads_number ‹_› r line).kind
      · split at h
        · exact absurd h (reads_string r line b).kind
        · exact absurd h (reads_operator b r line).kind

theorem covers_from {fuel : Nat} {c : Cursor} (h : c.rest.length < fuel) : Covers c.line c.rest (from_ fuel c) := by
  induction fuel generalizing c with
  | zero => omega
  | succ fuel ih =>
    unfold from_
    split
    · exact covers_eof ‹_›
    · rename_i hkind
      have hread := (reads_next c hkind).shorter
      exact takes_next c hkind _ (ih (by omega))

theorem covers_scan (source : Bytes) : Covers 1 source (scan source) := by
  rw [scan_eq]
  exact covers_from (c := ⟨source, 1⟩) (Nat.lt_succ_self _)

end Token

end Lox

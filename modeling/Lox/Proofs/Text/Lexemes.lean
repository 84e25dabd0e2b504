import Lox.Proofs.Source.Scan

namespace Lox

namespace TokenKind

def signs : List TokenKind :=
  [leftParen, rightParen, leftBrace, rightBrace, comma, dot, minus, plus, semicolon, slash, star, bang,
    bangEqual, equal, equalEqual, greater, greaterEqual, less, lessEqual]

end TokenKind

def IsBlank (c : UInt8) : Prop :=
  c = Ascii.space ∨ c = Ascii.tab ∨ c = Ascii.carriageReturn ∨ c = Ascii.newline

inductive Lexeme : TokenKind → Bytes → Prop
  | sign {k : TokenKind} (hk : k ∈ TokenKind.signs) : Lexeme k (Bytes.ofString k.name)
  | keyword {k : TokenKind} (hk : k ∈ TokenKind.keywords) : Lexeme k (Bytes.ofString k.name)
  | identifier {c : UInt8} {w : Bytes} (hc : isLetter c = true) (hw : ∀ b ∈ w, (isLetter b || isDigit b) = true)
      (hfree : ∀ k ∈ TokenKind.keywords, Bytes.ofString k.name ≠ c :: w) : Lexeme .identifier (c :: w)
  | whole {digits : Bytes} (hne : digits ≠ []) (hd : ∀ b ∈ digits, isDigit b = true) : Lexeme .number digits
  | fraction {digits part : Bytes} (hne : digits ≠ []) (hd : ∀ b ∈ digits, isDigit b = true) (hpart : part ≠ [])
      (hp : ∀ b ∈ part, isDigit b = true) : Lexeme .number (digits ++ Ascii.point :: part)
  | string {text : Bytes} (ht : Ascii.quote ∉ text) : Lexeme .string (Ascii.quote :: (text ++ [Ascii.quote]))

inductive Gap : Bytes → Prop
  | nil : Gap []
  | blank {c : UInt8} {g : Bytes} (hc : IsBlank c) (hg : Gap g) : Gap (c :: g)
  | comment {text g : Bytes} (ht : Ascii.newline ∉ text) (hg : Gap g) :
      Gap (Ascii.slash :: Ascii.slash :: (text ++ Ascii.newline :: g))

namespace Lexeme

variable {k : TokenKind} {b : Bytes}

theorem ne_nil (h : Lexeme k b) : b ≠ [] := by
  cases h with
  | sign hk => revert k; decide
  | keyword hk => revert k; decide
  | identifier | string => nofun
  | whole hne => exact hne
  | fraction => simp

theorem kind_ne (h : Lexeme k b) : k ≠ .eof ∧ k ≠ .error := by
  cases h with
  | sign hk => revert k; decide
  | keyword hk => revert k; decide
  | identifier | whole | fraction | string => exact ⟨nofun, nofun⟩

end Lexeme

namespace Token

open Ascii

theorem not_isBlank_of_letter {c : UInt8} (hc : isLetter c = true) : ¬ IsBlank c := by
  rintro (rfl | rfl | rfl | rfl) <;> cases hc

theorem not_isBlank_of_digit {c : UInt8} (hc : isDigit c = true) : ¬ IsBlank c := by
  rintro (rfl | rfl | rfl | rfl) <;> cases hc

theorem not_letter_of_digit {c : UInt8} (hc : isDigit c = true) : isLetter c = false := by
  simp only [isDigit, isLetter, Bool.and_eq_true, decide_eq_true_eq, Bool.or_eq_false_iff, Bool.and_eq_false_iff,
    decide_eq_false_iff_not, UInt8.le_iff_toNat_le, UInt8.ext_iff] at hc ⊢
  simp only [UInt8.reduceToNat] at hc ⊢
  omega

theorem not_slash_of_letter {c : UInt8} (hc : isLetter c = true) : c ≠ slash := by
  rintro rfl
  cases hc

theorem not_slash_of_digit {c : UInt8} (hc : isDigit c = true) : c ≠ slash := by
  rintro rfl
  cases hc

theorem skipBlank_stop {c : UInt8} {r : Bytes} (line : Nat) (hc : ¬ IsBlank c)
    (hslash : c = slash → r.head? ≠ some slash) : skipBlank false (c :: r) line = ⟨c :: r, line⟩ := by
  simp only [IsBlank, not_or] at hc
  obtain ⟨hspace, htab, hreturn, hnewline⟩ := hc
  unfold skipBlank
  by_cases hs : c = slash
  · simp [hnewline, hspace, htab, hreturn, hslash hs]
  · simp [hnewline, hspace, htab, hreturn, hs]

theorem skipBlank_blank {c : UInt8} (r : Bytes) (line : Nat) (hc : IsBlank c) :
    skipBlank false (c :: r) line = skipBlank false r (line + [c].count newline) := by
  rcases hc with rfl | rfl | rfl | rfl <;> rfl

theorem skipBlank_comment {text : Bytes} (r : Bytes) (line : Nat) (ht : newline ∉ text) :
    skipBlank true (text ++ r) line = skipBlank true r line := by
  induction text with
  | nil => rfl
  | cons c text ih =>
    obtain ⟨hc, ht⟩ := not_or.mp (List.mem_cons.not.mp ht)
    rw [List.cons_append, skipBlank, if_neg (Ne.symm hc), if_pos rfl, ih ht]

theorem skipBlank_gap {g : Bytes} (hg : Gap g) (r : Bytes) (line : Nat) :
    skipBlank false (g ++ r) line = skipBlank false r (line + g.count newline) := by
  induction hg generalizing line with
  | nil => rfl
  | blank hc _ ih =>
    rw [List.cons_append, skipBlank_blank _ _ hc, ih, Nat.add_assoc, ← List.count_append, List.singleton_append]
  | @comment text g ht _ ih =>
    have hcount : (slash :: slash :: (text ++ newline :: g)).count newline = 1 + g.count newline := by
      have htext : text.count newline = 0 := List.count_eq_zero.mpr ht
      have hslash : (slash == newline) = false := rfl
      simp [List.count_cons, htext, hslash, Nat.add_comm]
    have hstart : skipBlank false (slash :: slash :: ((text ++ newline :: g) ++ r)) line
        = skipBlank true ((text ++ newline :: g) ++ r) line := rfl
    have hend : skipBlank true (newline :: (g ++ r)) line = skipBlank false (g ++ r) (line + 1) := rfl
    rw [List.cons_append, List.cons_append, hstart, List.append_assoc, skipBlank_comment _ _ ht,
      List.cons_append, hend, ih, hcount, Nat.add_assoc]

def Cut (text : Bytes) : Prop :=
  ∀ c ∈ text.head?, IsBlank c

theorem Cut.not_head {text : Bytes} (h : Cut text) {p : UInt8 → Bool} (hp : ∀ c, p c = true → ¬ IsBlank c) :
    ∀ c ∈ text.head?, p c = false := by
  intro c hc
  cases hpc : p c with
  | false => rfl
  | true => exact absurd (h c hc) (hp c hpc)

theorem span_append {p : UInt8 → Bool} {b text : Bytes} (hb : ∀ c ∈ b, p c = true)
    (htext : ∀ c ∈ text.head?, p c = false) : (b ++ text).span p = (b, text) := by
  have hdrop : text.dropWhile p = text := by
    cases text with
    | nil => rfl
    | cons c text => exact List.dropWhile_cons_of_neg (by simp [htext c rfl])
  have htake : text.takeWhile p = [] := by
    cases text with
    | nil => rfl
    | cons c text => exact List.takeWhile_cons_of_neg (by simp [htext c rfl])
  rw [List.span_eq_takeWhile_dropWhile, List.takeWhile_append_of_pos hb, List.dropWhile_append_of_pos hb, hdrop,
    htake, List.append_nil]

theorem count_newline_of {p : UInt8 → Bool} {b : Bytes} (hb : ∀ c ∈ b, p c = true) (hp : p newline = false) :
    b.count newline = 0 := by
  refine List.count_eq_zero.mpr fun hmem => ?_
  have hnewline := hb newline hmem
  rw [hp] at hnewline
  cases hnewline

theorem next_stop {c : UInt8} {r : Bytes} (line : Nat) (hc : ¬ IsBlank c)
    (hslash : c = slash → r.head? ≠ some slash) : next ⟨c :: r, line⟩ =
      if isLetter c then word (c :: r) line
      else if isDigit c then number (c :: r) line
      else if c = quote then string r line
      else operator c r line := by
  unfold next
  rw [skipBlank_stop line hc hslash]

theorem next_word {c : UInt8} {w text : Bytes} (line : Nat) (hc : isLetter c = true)
    (hw : ∀ b ∈ w, (isLetter b || isDigit b) = true) (ht : Cut text) :
    next ⟨c :: w ++ text, line⟩ = (⟨.ofWord (c :: w), c :: w, line⟩, ⟨text, line⟩) := by
  have hall : ∀ b ∈ c :: w, (isLetter b || isDigit b) = true := by
    intro b hb
    rcases List.mem_cons.mp hb with rfl | hb
    · rw [hc, Bool.true_or]
    · exact hw b hb
  have hhead := ht.not_head (p := fun b => isLetter b || isDigit b) fun b hb => by
    rcases Bool.or_eq_true _ _ ▸ hb with hb | hb
    · exact not_isBlank_of_letter hb
    · exact not_isBlank_of_digit hb
  rw [List.cons_append, next_stop line (not_isBlank_of_letter hc) fun h => absurd h (not_slash_of_letter hc),
    if_pos hc]
  unfold word
  rw [← List.cons_append, span_append hall hhead]

theorem next_digits {digits text : Bytes} (line : Nat) (hne : digits ≠ []) (hd : ∀ b ∈ digits, isDigit b = true) :
    next ⟨digits ++ text, line⟩ = number (digits ++ text) line := by
  cases digits with
  | nil => exact absurd rfl hne
  | cons c r =>
    have hc := hd c (List.mem_cons_self ..)
    rw [List.cons_append, next_stop line (not_isBlank_of_digit hc) fun h => absurd h (not_slash_of_digit hc),
      if_neg (by simp [not_letter_of_digit hc]), if_pos hc]

theorem next_whole {digits text : Bytes} (line : Nat) (hne : digits ≠ []) (hd : ∀ b ∈ digits, isDigit b = true)
    (ht : Cut text) : next ⟨digits ++ text, line⟩ = (⟨.number, digits, line⟩, ⟨text, line⟩) := by
  rw [next_digits line hne hd]
  unfold number
  rw [span_append hd (ht.not_head fun _ => not_isBlank_of_digit)]
  dsimp only
  split
  · -- the text does not go on with a point
    rename_i c r
    exact absurd (ht point rfl) (by unfold IsBlank; decide)
  · rfl

theorem next_fraction {digits part text : Bytes} (line : Nat) (hne : digits ≠ [])
    (hd : ∀ b ∈ digits, isDigit b = true) (hpart : part ≠ []) (hp : ∀ b ∈ part, isDigit b = true) (ht : Cut text) :
    next ⟨digits ++ point :: part ++ text, line⟩ = (⟨.number, digits ++ point :: part, line⟩, ⟨text, line⟩) := by
  rw [List.append_assoc, next_digits line hne hd]
  unfold number
  rw [span_append hd (by rintro c hc; cases hc; rfl)]
  cases part with
  | nil => exact absurd rfl hpart
  | cons c r =>
    have hspan : (c :: r.append text).span isDigit = (c :: r, text) :=
      span_append hp (ht.not_head fun _ => not_isBlank_of_digit)
    show (if isDigit c = true then _ else _) = _
    rw [if_pos (hp c (List.mem_cons_self ..)), hspan]

theorem untilQuote_append {text : Bytes} (taken rest : Bytes) (line : Nat) (ht : quote ∉ text) :
    untilQuote taken (text ++ quote :: rest) line =
      some (taken.reverse ++ (text ++ [quote]), ⟨rest, line + text.count newline⟩) := by
  induction text generalizing taken line with
  | nil => simp [untilQuote]
  | cons c text ih =>
    obtain ⟨hc, ht⟩ := not_or.mp (List.mem_cons.not.mp ht)
    rw [List.cons_append, untilQuote, if_neg (Ne.symm hc), ih _ _ ht, List.count_cons]
    by_cases hn : c = newline
    · simp [hn, Nat.add_assoc, Nat.add_comm]
    · simp [hn]

theorem next_string {text : Bytes} (rest : Bytes) (line : Nat) (ht : quote ∉ text) :
    next ⟨quote :: (text ++ [quote]) ++ rest, line⟩ =
      (⟨.string, quote :: (text ++ [quote]), line + text.count newline⟩, ⟨rest, line + text.count newline⟩) := by
  have hblank : ¬ IsBlank quote := by
    unfold IsBlank
    decide
  rw [List.cons_append, next_stop line hblank (absurd · (by decide)), if_neg (by decide), if_neg (by decide), if_pos
      rfl]
  unfold string
  rw [List.append_assoc, List.singleton_append, untilQuote_append _ _ _ ht]
  rfl

theorem next_sign {k : TokenKind} {text : Bytes} (line : Nat) (hk : k ∈ TokenKind.signs) (ht : Cut text) :
    next ⟨Bytes.ofString k.name ++ text, line⟩ = (⟨k, Bytes.ofString k.name, line⟩, ⟨text, line⟩) := by
  -- a blank after a sign is neither the rest of a longer sign nor of the start of a comment
  have htext : text = [] ∨ ∃ c r, text = c :: r ∧ IsBlank c := by
    cases text with
    | nil => exact .inl rfl
    | cons c r => exact .inr ⟨c, r, rfl, ht c rfl⟩
  cases k <;> first
    | exact absurd hk (by decide)
    | rcases htext with rfl | ⟨c, r, rfl, rfl | rfl | rfl | rfl⟩ <;> rfl

theorem ofWord_keyword : ∀ k ∈ TokenKind.keywords, TokenKind.ofWord (Bytes.ofString k.name) = k := by
  decide

theorem ofWord_identifier {w : Bytes} (h : ∀ k ∈ TokenKind.keywords, Bytes.ofString k.name ≠ w) :
    TokenKind.ofWord w = .identifier := by
  rcases ofWord_cases w with hid | ⟨hk, hw⟩
  · exact hid
  · exact absurd hw.symm (h _ hk)

theorem letters_keyword {k : TokenKind} (hk : k ∈ TokenKind.keywords) :
    ∃ c w, Bytes.ofString k.name = c :: w ∧ isLetter c = true ∧ (∀ b ∈ w, (isLetter b || isDigit b) = true) := by
  have hletters : ∀ k ∈ TokenKind.keywords, Bytes.ofString k.name ≠ [] ∧
      ∀ b ∈ Bytes.ofString k.name, isLetter b = true := by
    decide +kernel
  obtain ⟨hne, hall⟩ := hletters k hk
  cases hname : Bytes.ofString k.name with
  | nil => exact absurd hname hne
  | cons c w =>
    rw [hname] at hall
    refine ⟨c, w, rfl, hall c (List.mem_cons_self ..), fun b hb => ?_⟩
    rw [hall b (List.mem_cons_of_mem _ hb), Bool.true_or]

theorem next_lexeme {k : TokenKind} {b text : Bytes} (line : Nat) (h : Lexeme k b) (ht : Cut text) :
    next ⟨b ++ text, line⟩ = (⟨k, b, line + b.count newline⟩, ⟨text, line + b.count newline⟩) := by
  have hword {w : Bytes} (hw : ∀ c ∈ w, (isLetter c || isDigit c) = true) : w.count newline = 0 :=
    count_newline_of (p := fun c => isLetter c || isDigit c) hw rfl
  cases h with
  | sign hk =>
    have hcount : ∀ k ∈ TokenKind.signs, (Bytes.ofString k.name).count newline = 0 := by
      decide
    rw [next_sign line hk ht, hcount _ hk, Nat.add_zero]
  | keyword hk =>
    obtain ⟨c, w, hname, hc, hw⟩ := letters_keyword hk
    have hkind := ofWord_keyword _ hk
    rw [hname] at hkind ⊢
    rw [next_word line hc hw ht, hkind, hword, Nat.add_zero]
    rintro b hb
    rcases List.mem_cons.mp hb with rfl | hb
    · rw [hc, Bool.true_or]
    · exact hw b hb
  | identifier hc hw hfree =>
    rw [next_word line hc hw ht, ofWord_identifier hfree, hword, Nat.add_zero]
    rintro b hb
    rcases List.mem_cons.mp hb with rfl | hb
    · rw [hc, Bool.true_or]
    · exact hw b hb
  | whole hne hd => rw [next_whole line hne hd ht, count_newline_of hd rfl, Nat.add_zero]
  | @fraction digits part hne hd hpart hp =>
    have hcount : (digits ++ point :: part).count newline = 0 := by
      rw [List.count_append, List.count_cons, count_newline_of hd rfl, count_newline_of hp rfl]
      rfl
    rw [next_fraction line hne hd hpart hp ht, hcount, Nat.add_zero]
  | @string content hq =>
    have hquote : (quote == newline) = false := rfl
    have hcount : (quote :: (content ++ [quote])).count newline = content.count newline := by
      simp [List.count_cons, hquote]
    rw [next_string text line hq, hcount]

end Token

end Lox

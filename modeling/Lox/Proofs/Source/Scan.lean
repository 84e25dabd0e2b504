import Lox.Proofs.Source.Declarations
import Mathlib.Data.List.TakeDrop

namespace Lox

namespace Token

def from_ : Nat → Cursor → List Token
  | 0, _ => []
  | fuel + 1, c => if (next c).1.kind = .eof then [(next c).1] else (next c).1 :: from_ fuel (next c).2

theorem collect_eq (found : List Token) (c : Cursor) (fuel : Nat) :
    collect found c fuel = found.reverse ++ from_ fuel c := by
  induction fuel generalizing found c with
  | zero => simp [collect, from_]
  | succ fuel ih =>
    unfold collect from_
    dsimp only
    split
    · simp
    · rw [ih]
      simp

theorem scan_eq (source : Bytes) : scan source = from_ (source.length + 1) ⟨source, 1⟩ :=
  collect_eq [] _ _

theorem length_skipBlank (comment : Bool) (rest : Bytes) (line : Nat) :
    (skipBlank comment rest line).rest.length ≤ rest.length := by
  fun_induction skipBlank comment rest line <;> simp only [List.length_cons] at * <;> omega

structure Reads (r : Token × Cursor) (text : Bytes) : Prop where
  kind : r.1.kind ≠ .eof
  genuine : r.1.Genuine
  shorter : r.2.rest.length < text.length

theorem genuine_of_kind {t : Token} (h : t.kind ≠ .this_) (h' : t.kind ≠ .identifier) : t.Genuine :=
  ⟨fun ht => absurd ht h, fun ht => absurd ht h'⟩

theorem length_untilQuote {taken rest lexeme : Bytes} {line : Nat} {c : Cursor}
    (h : untilQuote taken rest line = some (lexeme, c)) : c.rest.length < rest.length := by
  fun_induction untilQuote taken rest line with
  | case1 => cases h
  | case2 =>
    cases h
    exact Nat.lt_succ_self _
  | case3 _ _ _ _ _ ih => exact Nat.lt_succ_of_lt (ih h)

theorem reads_string (rest : Bytes) (line : Nat) (c : UInt8) : Reads (string rest line) (c :: rest) := by
  unfold string
  cases h : untilQuote [Ascii.quote] rest line with
  | none => exact ⟨by simp, genuine_of_kind (by simp) (by simp), Nat.succ_pos _⟩
  | some r =>
    obtain ⟨lexeme, following⟩ := r
    exact ⟨by simp, genuine_of_kind (by simp) (by simp), Nat.lt_succ_of_lt (length_untilQuote h)⟩

theorem ofWord_cases (word : Bytes) : TokenKind.ofWord word = .identifier ∨
    (TokenKind.ofWord word ∈ TokenKind.keywords ∧ word = Bytes.ofString (TokenKind.ofWord word).name) := by
  unfold TokenKind.ofWord
  cases h : TokenKind.keywords.find? (fun k => Bytes.ofString k.name == word) with
  | none => exact .inl rfl
  | some k =>
    have hk := List.find?_some h
    exact .inr ⟨List.mem_of_find?_eq_some h, (beq_iff_eq.mp hk).symm⟩

theorem genuine_word {word : Bytes} (hne : word ≠ []) (line : Nat) :
    (⟨.ofWord word, word, line⟩ : Token).Genuine := by
  constructor
  · intro hk
    rcases ofWord_cases word with hid | ⟨-, hw⟩
    · exact absurd (hid.symm.trans hk) (by decide)
    · dsimp only at hk ⊢
      rw [hk] at hw
      exact hw
  · intro hk
    exact ⟨hk, hne⟩

theorem length_span {p : UInt8 → Bool} {c : UInt8} (hc : p c = true) (rest : Bytes) :
    ((c :: rest).span p).2.length < (c :: rest).length := by
  rw [List.span_eq_takeWhile_dropWhile]
  dsimp only
  rw [List.dropWhile_cons_of_pos hc]
  exact Nat.lt_succ_of_le (List.dropWhile_suffix p).length_le

theorem ofWord_ne_eof (word : Bytes) : TokenKind.ofWord word ≠ .eof := by
  rcases ofWord_cases word with h | ⟨h, -⟩
  · rw [h]
    decide
  · intro he
    rw [he] at h
    exact absurd h (by decide)

theorem reads_word {c : UInt8} (hc : isLetter c = true) (rest : Bytes) (line : Nat) :
    Reads (word (c :: rest) line) (c :: rest) := by
  have hfirst : (isLetter c || isDigit c) = true := by rw [hc]; rfl
  have hne : ((c :: rest).span fun c => isLetter c || isDigit c).1 ≠ [] := by
    rw [List.span_eq_takeWhile_dropWhile]
    dsimp only
    rw [List.takeWhile_cons_of_pos (p := fun c => isLetter c || isDigit c) hfirst]
    nofun
  exact ⟨ofWord_ne_eof _, genuine_word hne _,
    length_span (p := fun c => isLetter c || isDigit c) hfirst rest⟩

theorem reads_number {c : UInt8} (hc : isDigit c = true) (rest : Bytes) (line : Nat) :
    Reads (number (c :: rest) line) (c :: rest) := by
  have hless := length_span hc rest
  have hnumber (lexeme : Bytes) : (⟨.number, lexeme, line⟩ : Token).Genuine :=
    genuine_of_kind (by simp) (by simp)
  unfold number
  generalize (c :: rest).span isDigit = r at hless
  obtain ⟨whole, r⟩ := r
  dsimp only at hless ⊢
  split
  · rename_i point d r'
    split
    · rename_i hd
      have hmore := length_span hd r'
      exact ⟨by simp, hnumber _, Nat.lt_trans hmore (Nat.lt_of_succ_lt hless)⟩
    · exact ⟨by simp, hnumber _, hless⟩
  · exact ⟨by simp, hnumber _, hless⟩

def isSign : TokenKind → Bool
  | .eof | .this_ | .identifier => false
  | _ => true

theorem isSign_punctuation {c : UInt8} {k : TokenKind} (h : punctuation c = some k) : isSign k = true := by
  unfold punctuation at h
  split at h <;> cases h <;> rfl

theorem isSign_withEqual {k k' : TokenKind} (h : withEqual k = some k') : isSign k' = true := by
  unfold withEqual at h
  split at h <;> cases h <;> rfl

theorem reads_sign {t : Token} {c : Cursor} {text : Bytes} (hk : isSign t.kind = true)
    (hless : c.rest.length < text.length) : Reads (t, c) text := by
  refine ⟨?_, genuine_of_kind ?_ ?_, hless⟩ <;> intro h <;> rw [h] at hk <;> cases hk

theorem reads_operator (c : UInt8) (rest : Bytes) (line : Nat) :
    Reads (operator c rest line) (c :: rest) := by
  unfold operator
  split
  · exact reads_sign rfl (Nat.lt_succ_self _)
  · rename_i kind hkind
    split
    · rename_i longer r hlonger
      exact reads_sign (isSign_withEqual hlonger) (by simp only [List.length_cons]; omega)
    · exact reads_sign (isSign_punctuation hkind) (Nat.lt_succ_self _)

theorem reads_next (c : Cursor) (h : (next c).1.kind ≠ .eof) : Reads (next c) c.rest := by
  have hblank := length_skipBlank false c.rest c.line
  unfold next at h ⊢
  generalize skipBlank false c.rest c.line = at_ at h hblank
  obtain ⟨rest, line⟩ := at_
  dsimp only at h hblank ⊢
  cases rest with
  | nil => exact absurd rfl h
  | cons b r =>
    have hlonger {x : Token × Cursor} (hx : Reads x (b :: r)) : Reads x c.rest :=
      ⟨hx.kind, hx.genuine, Nat.lt_of_lt_of_le hx.shorter hblank⟩
    refine hlonger ?_
    dsimp only
    split
    · exact reads_word ‹_› r line
    · split
      · exact reads_number ‹_› r line
      · split
        · exact reads_string r line b
        · exact reads_operator b r line

theorem stream_from {fuel : Nat} {c : Cursor} (h : c.rest.length < fuel) : Stream (from_ fuel c) := by
  induction fuel generalizing c with
  | zero => omega
  | succ fuel ih =>
    unfold from_
    split
    · assumption
    · rename_i hkind
      have hread := reads_next c hkind
      have hrest := ih (c := (next c).2) (by have := hread.shorter; omega)
      cases htokens : from_ fuel (next c).2 with
      | nil =>
        rw [htokens] at hrest
        exact hrest.elim
      | cons u rest =>
        rw [htokens] at hrest
        exact ⟨hkind, hread.genuine, hrest⟩

theorem stream_scan (source : Bytes) : Stream (scan source) := by
  rw [scan_eq]
  exact stream_from (Nat.lt_succ_self _)

end Token

end Lox

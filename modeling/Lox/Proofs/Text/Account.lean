import Lox.Proofs.Text.Covers

/-!
Where the tokens of a source text stand in it. The stretches of the tokens follow one another, each is spelled as
its token says, and a byte outside of all of them is blank or in a comment.
-/

namespace Lox

open Ascii

structure Stretch where
  start : Nat
  stop : Nat

namespace Stretch

def Holds (p : Stretch) (i : Nat) : Prop :=
  p.start ≤ i ∧ i < p.stop

def bytes (p : Stretch) (source : Bytes) : Bytes :=
  (source.take p.stop).drop p.start

theorem bytes_append {source before b rest : Bytes} (h : source = before ++ (b ++ rest)) :
    (⟨before.length, before.length + b.length⟩ : Stretch).bytes source = b := by
  subst h
  rw [bytes, ← List.append_assoc, ← List.length_append, List.take_left, List.drop_left]

def IsComment (p : Stretch) (source : Bytes) : Prop :=
  (∃ text, p.bytes source = slash :: slash :: text ∧ newline ∉ text) ∧
    ∀ c ∈ source[p.stop]?, c = newline

end Stretch

namespace Token

inductive Refused (source : Bytes) (p : Stretch) : Bytes → Prop
  | byte {c : UInt8} (hp : p.bytes source = [c]) (hblank : ¬ IsBlank c) (hnone : ∀ k b, ¬ Lexeme k (c :: b)) :
      Refused source p "Unexpected character."
  | unclosed {text : Bytes} (hp : p.bytes source = quote :: text) (ht : quote ∉ text)
      (hend : p.stop = source.length) : Refused source p "Unterminated string."

structure StandsFor (source : Bytes) (t : Token) (p : Stretch) : Prop where
  stop_le : p.stop ≤ source.length
  line : t.line = 1 + (source.take p.stop).count newline
  start_lt : t.kind ≠ .eof → p.start < p.stop
  eof : t.kind = .eof → p = ⟨source.length, source.length⟩ ∧ t.lexeme = []
  refused : t.kind = .error → Refused source p t.lexeme
  lexeme : t.kind ≠ .eof → t.kind ≠ .error → p.bytes source = t.lexeme ∧ Lexeme t.kind t.lexeme

/-- The tokens of a source from a position on, with their stretches. -/
structure Account (source : Bytes) (start : Nat) (ts : List Token) (places : List Stretch) : Prop where
  standing : List.Forall₂ (StandsFor source) ts places
  ordered : places.Pairwise fun p q => p.stop ≤ q.start
  after : ∀ p ∈ places, start ≤ p.start
  idle : ∀ i (hi : i < source.length), start ≤ i → (∀ p ∈ places, ¬ p.Holds i) → IsBlank source[i] ∨
    ∃ q : Stretch, start ≤ q.start ∧ q.Holds i ∧ q.IsComment source ∧ ∀ j, q.Holds j → ∀ p ∈ places, ¬ p.Holds j

namespace Account

variable {source : Bytes} {start stop : Nat} {t : Token} {ts : List Token} {places : List Stretch}

theorem cons (hle : start ≤ stop) (ht : StandsFor source t ⟨start, stop⟩) (h : Account source stop ts places) :
    Account source start (t :: ts) (⟨start, stop⟩ :: places) where
  standing := .cons ht h.standing
  ordered := List.pairwise_cons.mpr ⟨h.after, h.ordered⟩
  after p hp := by
    rcases List.mem_cons.mp hp with rfl | hp
    · exact Nat.le_refl _
    · exact Nat.le_trans hle (h.after p hp)
  idle i hi hstart hout := by
    obtain ⟨hfirst, hout⟩ := List.forall_mem_cons.mp hout
    have hstop : stop ≤ i := Nat.le_of_not_lt fun hlt => hfirst ⟨hstart, hlt⟩
    refine (h.idle i hi hstop hout).imp_right fun ⟨q, hq, hholds, hcomment, hapart⟩ => ?_
    refine ⟨q, Nat.le_trans hle hq, hholds, hcomment, fun j hj => List.forall_mem_cons.mpr ⟨?_, hapart j hj⟩⟩
    exact fun hp => absurd hp.2 (Nat.not_lt.mpr (Nat.le_trans hq hj.1))

theorem skip (hle : start ≤ stop) (h : Account source stop ts places)
    (hgap : (∀ i (hi : i < source.length), start ≤ i → i < stop → IsBlank source[i]) ∨
      (⟨start, stop⟩ : Stretch).IsComment source) : Account source start ts places where
  standing := h.standing
  ordered := h.ordered
  after p hp := Nat.le_trans hle (h.after p hp)
  idle i hi hstart hout := by
    by_cases hstop : i < stop
    · rcases hgap with hblank | hcomment
      · exact .inl (hblank i hi hstart hstop)
      · refine .inr ⟨⟨start, stop⟩, Nat.le_refl _, ⟨hstart, hstop⟩, hcomment, fun j hj p hp hholds => ?_⟩
        exact absurd hj.2 (Nat.not_lt.mpr (Nat.le_trans (h.after p hp) hholds.1))
    · refine (h.idle i hi (Nat.le_of_not_lt hstop) hout).imp_right fun ⟨q, hq, hholds, hcomment, hapart⟩ => ?_
      exact ⟨q, Nat.le_trans hle hq, hholds, hcomment, hapart⟩

end Account

theorem standsFor_eof {source : Bytes} {line : Nat} (hline : line = 1 + source.count newline) :
    StandsFor source ⟨.eof, [], line⟩ ⟨source.length, source.length⟩ where
  stop_le := Nat.le_refl _
  line := by rw [List.take_length, hline]
  start_lt h := absurd rfl h
  eof _ := ⟨rfl, rfl⟩
  refused h := by cases h
  lexeme h := absurd rfl h

theorem account_eof {source : Bytes} {line : Nat} (hline : line = 1 + source.count newline) :
    Account source source.length [⟨.eof, [], line⟩] [⟨source.length, source.length⟩] where
  standing := .cons (standsFor_eof hline) .nil
  ordered := List.pairwise_singleton _ _
  after p hp := by
    obtain rfl := List.mem_singleton.mp hp
    exact Nat.le_refl _
  idle i hi hstart := absurd hi (Nat.not_lt.mpr hstart)

theorem standsFor_refused {source before b rest message : Bytes} (h : source = before ++ (b ++ rest)) (hb : b ≠ [])
    (hr : Refused source ⟨before.length, before.length + b.length⟩ message) :
    StandsFor source ⟨.error, message, 1 + (before ++ b).count newline⟩ ⟨before.length, before.length + b.length⟩ := by
  have hpos : 0 < b.length := List.length_pos_of_ne_nil hb
  refine ⟨?_, ?_, fun _ => ?_, fun hk => ?_, fun _ => hr, fun _ hk => absurd rfl hk⟩
  · rw [h, List.length_append, List.length_append]
    dsimp only
    omega
  · rw [h, ← List.append_assoc]
    dsimp only
    rw [← List.length_append, List.take_left]
  · dsimp only
    omega
  · cases hk

theorem standsFor_lexeme {source before b rest : Bytes} {k : TokenKind} (h : source = before ++ (b ++ rest))
    (hk : Lexeme k b) :
    StandsFor source ⟨k, b, 1 + (before ++ b).count newline⟩ ⟨before.length, before.length + b.length⟩ := by
  have hpos : 0 < b.length := List.length_pos_of_ne_nil hk.ne_nil
  obtain ⟨heof, herror⟩ := hk.kind_ne
  refine ⟨?_, ?_, fun _ => ?_, fun he => absurd he heof, fun he => absurd he herror, fun _ _ => ⟨?_, hk⟩⟩
  · rw [h, List.length_append, List.length_append]
    dsimp only
    omega
  · rw [h, ← List.append_assoc]
    dsimp only
    rw [← List.length_append, List.take_left]
  · dsimp only
    omega
  · exact Stretch.bytes_append h

theorem Covers.account {line : Nat} {text : Bytes} {ts : List Token} (h : Covers line text ts) :
    ∀ {source before : Bytes}, source = before ++ text → line = 1 + before.count newline →
      ∃ places, Account source before.length ts places := by
  induction h with
  | finish line =>
    rintro source before hsource hline
    rw [List.append_nil] at hsource
    subst hsource
    exact ⟨_, account_eof hline⟩
  | @blank line c rest ts hc _ ih =>
    rintro source before hsource hline
    have hsplit : source = (before ++ [c]) ++ rest := by rw [hsource, List.append_assoc, List.singleton_append]
    obtain ⟨places, hplaces⟩ := ih hsplit (by rw [List.count_append, hline, Nat.add_assoc])
    rw [List.length_append] at hplaces
    refine ⟨places, hplaces.skip (Nat.le_add_right _ _) (.inl fun i hi hstart hstop => ?_)⟩
    have hat : i = before.length := by
      rw [List.length_singleton] at hstop
      omega
    subst hat
    simpa [hsource] using hc
  | @comment line text rest ts ht hend _ ih =>
    rintro source before hsource hline
    have hsplit : source = before ++ ((slash :: slash :: text) ++ rest) := hsource
    have hcount : (slash :: slash :: text).count newline = 0 := by
      have hslash : (slash == newline) = false := rfl
      simp [List.count_cons, List.count_eq_zero.mpr ht, hslash]
    obtain ⟨places, hplaces⟩ := @ih source (before ++ (slash :: slash :: text))
      (hsplit.trans (List.append_assoc ..).symm) (by rw [List.count_append, hcount, hline, Nat.add_zero])
    rw [List.length_append] at hplaces
    refine ⟨places, hplaces.skip (Nat.le_add_right _ _) (.inr ⟨⟨text, Stretch.bytes_append hsplit, ht⟩, ?_⟩)⟩
    dsimp only
    intro c hc
    refine hend c ?_
    rwa [hsplit, ← List.append_assoc, ← List.length_append, List.getElem?_append_right (Nat.le_refl _), Nat.sub_self,
      ← List.head?_eq_getElem?] at hc
  | @lexeme line k b rest ts hk _ ih =>
    rintro source before hsource hline
    have hlines : line + b.count newline = 1 + (before ++ b).count newline := by
      rw [List.count_append, hline, Nat.add_assoc]
    obtain ⟨places, hplaces⟩ := @ih source (before ++ b) (hsource.trans (List.append_assoc ..).symm) hlines
    rw [List.length_append] at hplaces
    rw [hlines]
    exact ⟨_, hplaces.cons (Nat.le_add_right _ _) (standsFor_lexeme hsource hk)⟩
  | @unexpected line c rest ts hc hnone _ ih =>
    rintro source before hsource hline
    have hsplit : source = before ++ ([c] ++ rest) := hsource
    have hcount : [c].count newline = 0 := by
      rw [List.count_singleton, beq_eq_false_iff_ne.mpr fun heq => hc (.inr (.inr (.inr heq)))]
      rfl
    have hlines : line = 1 + (before ++ [c]).count newline := by
      rw [List.count_append, hcount, hline, Nat.add_zero]
    obtain ⟨places, hplaces⟩ := @ih source (before ++ [c]) (hsplit.trans (List.append_assoc ..).symm) hlines
    rw [List.length_append] at hplaces
    rw [hlines]
    exact ⟨_, hplaces.cons (Nat.le_add_right _ _)
      (standsFor_refused hsplit nofun (.byte (Stretch.bytes_append hsplit) hc hnone))⟩
  | @unclosed line text ht =>
    rintro source before hsource hline
    have hsplit : source = before ++ ((quote :: text) ++ []) := by rw [List.append_nil, hsource]
    have hlength : before.length + (quote :: text).length = source.length := by
      rw [hsource, List.length_append]
    have hcount : (quote :: text).count newline = text.count newline := by
      have hquote : (quote == newline) = false := rfl
      simp [List.count_cons, hquote]
    have hlines : line + text.count newline = 1 + (before ++ (quote :: text)).count newline := by
      rw [List.count_append, hcount, hline, Nat.add_assoc]
    rw [hlines]
    have hlast : Account source source.length [⟨.eof, [], 1 + (before ++ (quote :: text)).count newline⟩] _ :=
      account_eof (by rw [hsource])
    rw [← hlength] at hlast
    exact ⟨_, hlast.cons (Nat.le_add_right _ _)
      (standsFor_refused hsplit nofun (.unclosed (Stretch.bytes_append hsplit) ht hlength))⟩

/-- The tokens of a source text stand one after the other in it, each where its line says, the last one and no
other at the end, and between them are blanks and comments only. -/
theorem scan_accounts (source : Bytes) :
    (∃ ts line, scan source = ts ++ [⟨.eof, [], line⟩] ∧ ∀ t ∈ ts, t.kind ≠ .eof) ∧
      ∃ places, Account source 0 (scan source) places :=
  ⟨(covers_scan source).last, @Covers.account _ _ _ (covers_scan source) source [] rfl rfl⟩

end Token

end Lox

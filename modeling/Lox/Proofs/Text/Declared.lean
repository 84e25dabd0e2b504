import Lox.Editor
import Lox.Proofs.Text.Account
import Mathlib.Data.List.TakeWhile

namespace Lox

open Ascii

namespace Bytes

theorem splitOn_cons (c x : UInt8) (b : Bytes) : splitOn c (x :: b) =
    if x = c then [] :: splitOn c b else (x :: (splitOn c b).headD []) :: (splitOn c b).tail := by
  unfold splitOn
  rw [List.foldr_cons]
  generalize List.foldr _ _ b = state
  obtain ⟨last, pieces⟩ := state
  dsimp only
  split <;> rfl

theorem splitOn_ne_nil (c : UInt8) (b : Bytes) : splitOn c b ≠ [] := by
  unfold splitOn
  nofun

theorem length_splitOn (c : UInt8) (b : Bytes) : (splitOn c b).length = b.count c + 1 := by
  induction b with
  | nil => rfl
  | cons x b ih =>
    rw [splitOn_cons, List.count_cons]
    by_cases hx : x = c
    · rw [if_pos hx, if_pos (beq_iff_eq.mpr hx), List.length_cons, ih]
    · have hpos := List.length_pos_iff.mpr (splitOn_ne_nil c b)
      rw [if_neg hx, if_neg (fun h => hx (beq_iff_eq.mp h)), List.length_cons, List.length_tail]
      omega

end Bytes

namespace Editor

theorem length_lines (text : Bytes) : (lines text).length = text.count newline + 1 :=
  Bytes.length_splitOn newline text

/-- The bytes of a text between two newlines, or between one and an end of it, with the number of the
newlines before them. -/
def LineAt (text : Bytes) (n : Nat) (l : Bytes) : Prop :=
  ∃ before after, text = before ++ l ++ after ∧ before.count newline = n ∧ newline ∉ l ∧
    (∀ c ∈ before.getLast?, c = newline) ∧ ∀ c ∈ after.head?, c = newline

theorem lineAt_of_lines {text l : Bytes} {n : Nat} (hl : (lines text)[n]? = some l) : LineAt text n l := by
  unfold lines at hl
  induction text generalizing n l with
  | nil =>
    cases n with
    | zero => cases hl; exact ⟨[], [], rfl, rfl, by simp, by simp, by simp⟩
    | succ n => cases hl
  | cons c text ih =>
    rw [Bytes.splitOn_cons] at hl
    split at hl
    · next hc =>
      cases n with
      | zero => cases hl; exact ⟨[], c :: text, rfl, rfl, by simp, by simp, by simp [hc]⟩
      | succ n =>
        obtain ⟨before, after, rfl, rfl, hmem, hbefore, hafter⟩ := ih hl
        refine ⟨c :: before, after, rfl, by rw [hc, List.count_cons_self], hmem, fun x hx => ?_, hafter⟩
        cases before with
        | nil => exact (Option.some.inj hx).symm.trans hc
        | cons y before => exact hbefore x hx
    · next hc =>
      cases n with
      | zero =>
        -- The first line goes on with the first line of the rest, as no newline is before that one.
        obtain ⟨l', ls, hls⟩ := List.exists_cons_of_ne_nil (Bytes.splitOn_ne_nil newline text)
        rw [hls] at hl
        cases hl
        obtain ⟨before, after, rfl, hcount, hmem, hbefore, hafter⟩ := ih (n := 0) (l := l') (by rw [hls]; rfl)
        have hnil : before = [] := by
          cases hlast : before.getLast? with
          | none => exact List.getLast?_eq_none_iff.mp hlast
          | some x =>
            obtain rfl := hbefore x hlast
            exact absurd (List.mem_of_getLast? hlast) (List.count_eq_zero.mp hcount)
        subst hnil
        exact ⟨[], after, rfl, rfl, by simp [Ne.symm hc, hmem], by simp, hafter⟩
      | succ n =>
        obtain ⟨before, after, rfl, hcount, hmem, hbefore, hafter⟩ :=
          ih (n := n + 1) (l := l) (by rwa [List.getElem?_cons_succ, List.getElem?_tail] at hl)
        refine ⟨c :: before, after, rfl, by rw [List.count_cons_of_ne hc, hcount], hmem, fun x hx => ?_, hafter⟩
        cases before with
        | nil => cases hcount
        | cons y before => exact hbefore x hx

def lastLine (text : Bytes) : Bytes :=
  (text.reverse.takeWhile (· ≠ newline)).reverse

def firstLine (text : Bytes) : Bytes :=
  text.takeWhile (· ≠ newline)

theorem head?_lines (text : Bytes) : (lines text).head? = some (firstLine text) := by
  unfold lines firstLine
  induction text with
  | nil => rfl
  | cons c text ih =>
    rw [Bytes.splitOn_cons]
    by_cases hc : c = newline
    · rw [if_pos hc, List.takeWhile_cons_of_neg (by simpa using hc)]
      rfl
    · rw [if_neg hc, List.takeWhile_cons_of_pos (by simpa using hc), List.head?_cons, List.headD_eq_head?_getD, ih]
      rfl

theorem lastLine_append (b text : Bytes) : lastLine (b ++ newline :: text) = lastLine text := by
  have hstop (bytes : Bytes) : (bytes ++ newline :: b.reverse).takeWhile (· ≠ newline) =
      bytes.takeWhile (· ≠ newline) := by
    induction bytes with
    | nil => exact List.takeWhile_cons_of_neg (by simp)
    | cons c bytes ih =>
      rw [List.cons_append, List.takeWhile_cons, List.takeWhile_cons, ih]
  rw [lastLine, List.reverse_append, List.reverse_cons, List.append_assoc, List.singleton_append, hstop, lastLine]

theorem lastLine_of_not_mem {text : Bytes} (h : newline ∉ text) : lastLine text = text := by
  have hall : ∀ c ∈ text.reverse, decide (c ≠ newline) = true := by
    intro c hc
    exact decide_eq_true fun heq => h (heq ▸ List.mem_reverse.mp hc)
  rw [lastLine, List.takeWhile_eq_self_iff.mpr hall, List.reverse_reverse]

theorem lastLine_concat (before : Bytes) {b : Bytes} (hb : newline ∉ b) :
    lastLine (before ++ b) = lastLine before ++ b := by
  have hall : ∀ c ∈ b.reverse, decide (c ≠ newline) = true := by
    intro c hc
    exact decide_eq_true fun heq => hb (heq ▸ List.mem_reverse.mp hc)
  rw [lastLine, List.reverse_append, List.takeWhile_append_of_pos hall, List.reverse_append, List.reverse_reverse,
    lastLine]

theorem firstLine_append {b : Bytes} (hb : newline ∉ b) (rest : Bytes) : firstLine (b ++ rest) = b ++ firstLine rest :=
  List.takeWhile_append_of_pos fun _ hc => decide_eq_true fun heq => hb (heq ▸ hc)

theorem lines_newline (text : Bytes) : lines (newline :: text) = [] :: lines text := by
  rw [lines, Bytes.splitOn_cons, if_pos rfl]
  rfl

theorem lines_append {b : Bytes} (hb : newline ∉ b) (text : Bytes) :
    lines (b ++ text) = (b ++ firstLine text) :: (lines text).tail := by
  induction b with
  | nil =>
    have hhead := head?_lines text
    cases hlines : lines text with
    | nil => rw [hlines] at hhead; cases hhead
    | cons l ls =>
      rw [hlines] at hhead
      rw [List.nil_append, hlines, Option.some.inj hhead]
      rfl
  | cons c b ih =>
    obtain ⟨hc, hb⟩ := not_or.mp (List.mem_cons.not.mp hb)
    have hrest := ih hb
    unfold lines at hrest ⊢
    rw [List.cons_append, Bytes.splitOn_cons, if_neg (Ne.symm hc), hrest]
    rfl

theorem line_at (before rest : Bytes) :
    (lines (before ++ rest))[before.count newline]? = some (lastLine before ++ firstLine rest) := by
  obtain ⟨n, hn⟩ : ∃ n, before.length = n := ⟨_, rfl⟩
  induction n using Nat.strongRecOn generalizing before with
  | ind n ih =>
    by_cases hmem : newline ∈ before
    · obtain ⟨b, text, rfl, hb⟩ := List.eq_append_cons_of_mem hmem
      have hcount : (b ++ newline :: text).count newline = text.count newline + 1 := by
        rw [List.count_append, List.count_eq_zero.mpr hb, List.count_cons_self, Nat.zero_add]
      rw [List.length_append, List.length_cons] at hn
      rw [hcount, lastLine_append, List.append_assoc, List.cons_append, lines_append hb, List.getElem?_cons_succ,
        lines_newline, List.tail_cons]
      exact ih text.length (by omega) text rfl
    · rw [List.count_eq_zero.mpr hmem, lines_append hmem, lastLine_of_not_mem hmem]
      rfl

theorem line_of_bounds {text : Bytes} {n : Nat} (hone : 1 ≤ n) (hlast : n ≤ 1 + text.count newline) :
    ∃ l, (lines text)[n - 1]? = some l := by
  have hlt : n - 1 < (lines text).length := by
    rw [length_lines]
    omega
  exact ⟨_, List.getElem?_eq_getElem hlt⟩

end Editor

end Lox

namespace Lox

open Ascii

namespace Editor

def WordAt (row name : Bytes) (column : Nat) : Prop :=
  name <+: row.drop column ∧ (∀ c, 0 < column → row[column - 1]? = some c → isWordByte c = false) ∧
    ∀ c, row[column + name.length]? = some c → isWordByte c = false

theorem not_wordAt_within {row name : Bytes} {column i : Nat} (hname : ∀ c ∈ name, isWordByte c = true)
    (hat : name <+: row.drop column) (hi : i < name.length) : ¬ WordAt row name (column + (i + 1)) := by
  rintro ⟨-, hbefore, -⟩
  have hget : row[column + i]? = some name[i] := by
    obtain ⟨rest, hrest⟩ := hat
    rw [← List.getElem?_drop, ← hrest, List.getElem?_append_left hi, List.getElem?_eq_getElem hi]
  have hword := hname name[i] (List.getElem_mem hi)
  rw [hbefore name[i] (by omega) hget] at hword
  cases hword

theorem wordAt_iff {row name before rest : Bytes} (hrow : row = before ++ rest) :
    WordAt row name before.length ↔ name.isPrefixOf rest = true ∧
      (before.getLast?.all (!isWordByte ·) && (rest.drop name.length).head?.all (!isWordByte ·)) = true := by
  have hdrop : row.drop before.length = rest := by rw [hrow, List.drop_left]
  have hfollowing : row[before.length + name.length]? = (rest.drop name.length).head? := by
    rw [← hdrop, List.drop_drop, List.head?_drop]
  have hprevious : (∀ c, 0 < before.length → row[before.length - 1]? = some c → isWordByte c = false) ↔
      before.getLast?.all (!isWordByte ·) = true := by
    rw [List.getLast?_eq_getElem?]
    cases hlength : before.length with
    | zero => simp [List.length_eq_zero_iff.mp hlength]
    | succ n =>
      have hget : row[n + 1 - 1]? = before[n + 1 - 1]? := by
        rw [hrow, List.getElem?_append_left (by omega)]
      rw [hget]
      cases before[n + 1 - 1]? <;> simp
  have hall : (∀ c, (rest.drop name.length).head? = some c → isWordByte c = false) ↔
      (rest.drop name.length).head?.all (!isWordByte ·) = true := by
    cases (rest.drop name.length).head? <;> simp
  rw [WordAt, hdrop, hfollowing, hprevious, hall, List.isPrefixOf_iff_prefix, Bool.and_eq_true]

theorem columnFrom_spec {row name : Bytes} (hne : name ≠ []) (hname : ∀ c ∈ name, isWordByte c = true) (rest : Bytes) :
    ∀ {before : Bytes} {skip : Nat}, row = before ++ rest → (∀ c < before.length + skip, ¬ WordAt row name c) →
      (WordAt row name (columnFrom name before.getLast? before.length skip rest) ∧
        ∀ c < columnFrom name before.getLast? before.length skip rest, ¬ WordAt row name c) ∨
      (columnFrom name before.getLast? before.length skip rest = 0 ∧ ∀ c, ¬ WordAt row name c) := by
  induction rest with
  | nil =>
    intro before skip hrow hnone
    refine .inr ⟨by unfold columnFrom; rfl, fun c hword => ?_⟩
    by_cases hc : c < before.length + skip
    · exact hnone c hc hword
    · have hempty : row.drop c = [] := List.drop_eq_nil_of_le (by rw [hrow, List.append_nil]; omega)
      have hat := hword.1
      rw [hempty] at hat
      exact hne (List.prefix_nil.mp hat)
  | cons b rest ih =>
    intro before skip hrow hnone
    have hnext : row = (before ++ [b]) ++ rest := by rw [hrow, List.append_assoc, List.singleton_append]
    have hlast : (before ++ [b]).getLast? = some b := List.getLast?_concat ..
    have hlength : (before ++ [b]).length = before.length + 1 := by simp
    have hdrop : row.drop before.length = b :: rest := by rw [hrow, List.drop_left]
    have hgo {skip : Nat} (hnone : ∀ c < before.length + 1 + skip, ¬ WordAt row name c) := by
      have hrest := @ih (before ++ [b]) skip hnext (by rw [hlength]; exact hnone)
      rw [hlast, hlength] at hrest
      exact hrest
    cases skip with
    | succ skip =>
      unfold columnFrom
      exact hgo fun c hc => hnone c (by omega)
    | zero =>
      have hiff := @wordAt_iff _ name _ _ hrow
      unfold columnFrom
      dsimp only
      split
      · rename_i hbegins
        split
        · rename_i halone
          exact .inl ⟨hiff.mpr ⟨hbegins, halone⟩, hnone⟩
        · rename_i halone
          refine hgo fun c hc hword => ?_
          have hhere : ¬ WordAt row name before.length := fun h => halone (hiff.mp h).2
          have hat : name <+: row.drop before.length := by
            rw [hdrop]
            exact List.isPrefixOf_iff_prefix.mp hbegins
          rcases Nat.lt_trichotomy c before.length with hlt | rfl | hgt
          · exact hnone c hlt hword
          · exact hhere hword
          · obtain ⟨i, rfl⟩ := Nat.exists_eq_add_of_lt hgt
            exact not_wordAt_within hname hat (i := i) (by omega) (by rwa [← Nat.add_assoc])
      · rename_i hbegins
        refine hgo fun c hc hword => ?_
        rcases Nat.lt_succ_iff_lt_or_eq.mp hc with hlt | rfl
        · exact hnone c hlt hword
        · exact hbegins (hiff.mp hword).1

theorem columnOf_spec (row : Bytes) {name : Bytes} (hne : name ≠ []) (hname : ∀ c ∈ name, isWordByte c = true) :
    (WordAt row name (columnOf row name) ∧ ∀ c < columnOf row name, ¬ WordAt row name c) ∨
      (columnOf row name = 0 ∧ ∀ c, ¬ WordAt row name c) :=
  @columnFrom_spec row name hne hname row [] 0 rfl (fun _ hc => absurd hc (Nat.not_lt_zero _))

theorem columnOf_eq_iff {row name : Bytes} (hne : name ≠ []) (hname : ∀ c ∈ name, isWordByte c = true)
    (column : Nat) : columnOf row name = column ↔
      (WordAt row name column ∧ ∀ c < column, ¬ WordAt row name c) ∨
        (column = 0 ∧ ∀ c, ¬ WordAt row name c) := by
  have hspec := columnOf_spec row hne hname
  constructor
  · rintro rfl
    exact hspec
  · rintro (⟨hword, hfirst⟩ | ⟨rfl, hnone⟩)
    · rcases hspec with ⟨hword', hfirst'⟩ | ⟨-, hnone⟩
      · rcases Nat.lt_trichotomy (columnOf row name) column with hlt | heq | hgt
        · exact absurd hword' (hfirst _ hlt)
        · exact heq
        · exact absurd hword (hfirst' _ hgt)
      · exact absurd hword (hnone column)
    · rcases hspec with ⟨hword', -⟩ | ⟨hzero, -⟩
      · exact absurd hword' (hnone _)
      · exact hzero

def lineColumn (text : Bytes) (i : Nat) : Nat × Nat :=
  ((text.take i).count newline, (lastLine (text.take i)).length)

def spanOf (text : Bytes) (p : Stretch) : Span :=
  ⟨(lineColumn text p.start).1, (lineColumn text p.start).2, (lineColumn text p.stop).1, (lineColumn text p.stop).2⟩

def declaringNames : List Token → List Stretch → List (Token × Token × Stretch)
  | keyword :: name :: ts, _ :: p :: ps =>
    if (kindOf keyword.kind).isSome ∧ name.kind = .identifier then
      (keyword, name, p) :: declaringNames (name :: ts) (p :: ps)
    else declaringNames (name :: ts) (p :: ps)
  | _, _ => []

def Foremost (row name : Bytes) (column : Nat) : Prop :=
  (WordAt row name column ∧ ∀ c < column, ¬ WordAt row name c) ∨ (column = 0 ∧ ∀ c, ¬ WordAt row name c)

/-- A declaration has the kind of its keyword, and the name and the line of the name behind it. That name stands on
this line, and the declaration is there just if the name is foremost. -/
structure Declares (text : Bytes) (d : Declaration) (keyword name : Token) (p : Stretch) : Prop where
  kind : kindOf keyword.kind = some d.kind
  line : d.line = name.line
  name : name.kind = .identifier ∧ d.name = name.lexeme
  place : ∃ l, (lines text)[(spanOf text p).startLine]? = some l ∧
    d.name <+: l.drop (spanOf text p).startColumn ∧
    (d.span = spanOf text p ↔ Foremost l d.name (spanOf text p).startColumn)

theorem word_of_identifier {k : TokenKind} {b : Bytes} (h : Lexeme k b) (hk : k = .identifier) :
    b ≠ [] ∧ newline ∉ b ∧ ∀ c ∈ b, isWordByte c = true := by
  have hword {c : UInt8} (hc : (isLetter c || isDigit c) = true) : isWordByte c = true := by
    unfold isWordByte
    rw [hc]
    rfl
  have hall {b : Bytes} (hb : ∀ c ∈ b, (isLetter c || isDigit c) = true) :
      newline ∉ b ∧ ∀ c ∈ b, isWordByte c = true :=
    ⟨fun hmem => absurd (hb newline hmem) (by decide), fun c hc => hword (hb c hc)⟩
  cases h with
  | sign hsign =>
    subst hk
    exact absurd hsign (by decide)
  | keyword hkeyword =>
    subst hk
    exact absurd hkeyword (by decide)
  | identifier hc hw =>
    refine ⟨nofun, hall fun b hb => ?_⟩
    rcases List.mem_cons.mp hb with rfl | hb
    · rw [hc, Bool.true_or]
    · exact hw b hb
  | whole | fraction | string => cases hk

theorem split_of_standsFor {text : Bytes} {t : Token} {p : Stretch} (hp : Token.StandsFor text t p)
    (heof : t.kind ≠ .eof) (herror : t.kind ≠ .error) :
    text = text.take p.start ++ (t.lexeme ++ text.drop p.stop) ∧ text.take p.stop = text.take p.start ++ t.lexeme := by
  have hlt := hp.start_lt heof
  have hbytes := (hp.lexeme heof herror).1
  have htake : text.take p.stop = text.take p.start ++ t.lexeme := by
    rw [← hbytes, Stretch.bytes]
    have hstart : text.take p.start = (text.take p.stop).take p.start := by
      rw [List.take_take, Nat.min_eq_left (Nat.le_of_lt hlt)]
    rw [hstart, List.take_append_drop]
  refine ⟨?_, htake⟩
  rw [← List.append_assoc, ← htake, List.take_append_drop]

theorem declares_of {text : Bytes} {keyword name : Token} {kind : DeclarationKind} {p : Stretch} (superclass : Bytes)
    (hkind : kindOf keyword.kind = some kind) (hname : name.kind = .identifier) (hp : Token.StandsFor text name p) :
    Declares text ⟨kind, name.lexeme, superclass, name.line, match (lines text).toArray[name.line - 1]? with
      | some l => columnOf l name.lexeme
      | none => 0⟩ keyword name p := by
  have heof : name.kind ≠ .eof := by rw [hname]; nofun
  have herror : name.kind ≠ .error := by rw [hname]; nofun
  obtain ⟨hne, hnewline, hword⟩ := word_of_identifier (hp.lexeme heof herror).2 hname
  obtain ⟨htext, htake⟩ := split_of_standsFor hp heof herror
  have hline := line_at (text.take p.start) (name.lexeme ++ text.drop p.stop)
  rw [← htext, firstLine_append hnewline] at hline
  have hcount : (text.take p.stop).count newline = (text.take p.start).count newline := by
    rw [htake, List.count_append, List.count_eq_zero.mpr hnewline, Nat.add_zero]
  have hnumber : name.line - 1 = (text.take p.start).count newline := by
    rw [hp.line, hcount]
    omega
  have hspan : spanOf text p = ⟨(text.take p.start).count newline, (lastLine (text.take p.start)).length,
      (text.take p.start).count newline, (lastLine (text.take p.start)).length + name.lexeme.length⟩ := by
    rw [spanOf, lineColumn, lineColumn, hcount, htake, lastLine_concat _ hnewline, List.length_append]
  refine ⟨hkind, rfl, ⟨hname, rfl⟩, lastLine (text.take p.start) ++ (name.lexeme ++ firstLine (text.drop p.stop)),
    ?_, ?_, ?_⟩
  · rw [hspan]
    exact hline
  · rw [hspan]
    dsimp only
    rw [List.drop_left]
    exact List.prefix_append ..
  · rw [List.getElem?_toArray, hnumber, hline, hspan, Foremost, ← columnOf_eq_iff hne hword]
    dsimp only
    unfold Declaration.span
    dsimp only
    rw [hnumber]
    constructor
    · intro h
      exact (Span.mk.inj h).2.1
    · intro h
      rw [h]

theorem declares_names {text : Bytes} {ts : List Token} {ps : List Stretch}
    (h : List.Forall₂ (Token.StandsFor text) ts ps) :
    List.Forall₂ (fun d x => Declares text d x.1 x.2.1 x.2.2) (declarationsIn (lines text).toArray ts)
      (declaringNames ts ps) := by
  induction h with
  | nil => exact .nil
  | @cons keyword p ts ps _ hrest ih =>
    cases hrest with
    | nil =>
      have hnone : declarationsIn (lines text).toArray [keyword] = [] := by
        unfold declarationsIn
        split
        · rename_i hnil
          cases hnil
        · rfl
      rw [hnone]
      exact .nil
    | @cons name q ts ps hname _ =>
      obtain ⟨k, b, n⟩ := name
      unfold declarationsIn declaringNames
      cases hkind : kindOf keyword.kind with
      | none => simpa using ih
      | some kind =>
        by_cases hk : k = .identifier
        · subst hk
          rw [if_pos ⟨rfl, rfl⟩]
          exact .cons (declares_of _ hkind rfl hname) ih
        · rw [if_neg fun h => hk h.2]
          split
          · rename_i hsome hcons
            cases hcons
            exact absurd rfl hk
          · exact ih

/-- Every declaration of a text stands for a name behind a keyword, in order, and is at its place just if the name is
foremost on its line. -/
theorem declarations_place (text : Bytes) : ∃ places, Token.Account text 0 (Token.scan text) places ∧
    List.Forall₂ (fun d x => Declares text d x.1 x.2.1 x.2.2) (declarations text)
      (declaringNames (Token.scan text) places) := by
  obtain ⟨-, places, haccount⟩ := Token.scan_accounts text
  exact ⟨places, haccount, declares_names haccount.standing⟩

theorem declaration_at_earlier_use : ¬ ∀ text places, Token.Account text 0 (Token.scan text) places →
    List.Forall₂ (fun d x => d.span = spanOf text x.2.2) (declarations text)
      (declaringNames (Token.scan text) places) := by
  intro h
  obtain ⟨-, places, haccount⟩ := Token.scan_accounts "x; var x;"
  have hplaces := h _ _ haccount
  have hscan : Token.scan "x; var x;" = [⟨.identifier, "x", 1⟩, ⟨.semicolon, ";", 1⟩, ⟨.var_, "var", 1⟩,
      ⟨.identifier, "x", 1⟩, ⟨.semicolon, ";", 1⟩, ⟨.eof, [], 1⟩] := by
    decide
  have hdeclarations : declarations "x; var x;" = [⟨.var_, "x", [], 1, 0⟩] := by
    unfold declarations
    rw [hscan]
    rfl
  obtain ⟨hstanding, hordered, -, -⟩ := haccount
  rw [hscan] at hstanding hplaces
  rw [hdeclarations] at hplaces
  rcases hstanding with _ | ⟨-, _ | ⟨-, _ | ⟨hvar, _ | ⟨hx, _ | ⟨-, hlast⟩⟩⟩⟩⟩
  rename_i a b p q c rest
  have hspan : (⟨.var_, "x", [], 1, 0⟩ : Declaration).span = spanOf "x; var x;" q := by
    cases hplaces with
    | cons h _ => exact h
  have hcolumn : (lastLine ((Bytes.ofString "x; var x;").take q.start)).length = 0 :=
    (congrArg Span.startColumn hspan).symm
  have hline : newline ∉ (Bytes.ofString "x; var x;").take q.start :=
    fun hmem => absurd (List.mem_of_mem_take hmem) (by decide)
  have hpvar := hvar.start_lt nofun
  have hqx := hx.start_lt nofun
  have hend := hx.stop_le
  have hbehind : p.stop ≤ q.start := by
    simp only [List.pairwise_cons, List.forall_mem_cons] at hordered
    exact hordered.2.2.1.1
  rw [lastLine_of_not_mem hline, List.length_take] at hcolumn
  omega

end Editor

end Lox

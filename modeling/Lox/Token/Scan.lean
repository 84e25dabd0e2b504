import Lox.Token

/-!
Scanning: a source text is cut into tokens, the last of which is `eof`. Blanks and comments are
skipped, and a byte that starts no lexeme, or a string that does not end, gives an error token.
-/

namespace Lox.Token

open Ascii

structure Cursor where
  rest : Bytes
  line : Nat

def skipBlank (comment : Bool) (rest : Bytes) (line : Nat) : Cursor :=
  match rest with
  | [] => ⟨[], line⟩
  | c :: r =>
    if c = newline then skipBlank false r (line + 1)
    else if comment then skipBlank true r line
    else if c = space || c = carriageReturn || c = tab then skipBlank false r line
    else if c = slash && r.head? = some slash then skipBlank true r line
    else ⟨c :: r, line⟩

def untilQuote (taken rest : Bytes) (line : Nat) : Option (Bytes × Cursor) :=
  match rest with
  | [] => none
  | c :: r =>
    if c = quote then some ((quote :: taken).reverse, ⟨r, line⟩)
    else untilQuote (c :: taken) r (if c = newline then line + 1 else line)

def string (rest : Bytes) (line : Nat) : Token × Cursor :=
  match untilQuote [quote] rest line with
  | some (lexeme, following) => (⟨.string, lexeme, following.line⟩, following)
  | none =>
    let last := line + rest.count newline
    (⟨.error, "Unterminated string.", last⟩, ⟨[], last⟩)

def number (text : Bytes) (line : Nat) : Token × Cursor :=
  let (whole, r) := text.span isDigit
  match r with
  | point :: c :: r' =>
    if isDigit c then
      let (part, r'') := (c :: r').span isDigit
      (⟨.number, whole ++ point :: part, line⟩, ⟨r'', line⟩)
    else (⟨.number, whole, line⟩, ⟨r, line⟩)
  | _ => (⟨.number, whole, line⟩, ⟨r, line⟩)

def word (text : Bytes) (line : Nat) : Token × Cursor :=
  let (name, r) := text.span fun c => isLetter c || isDigit c
  (⟨.ofWord name, name, line⟩, ⟨r, line⟩)

def punctuation : UInt8 → Option TokenKind
  | 40 => some .leftParen
  | 41 => some .rightParen
  | 123 => some .leftBrace
  | 125 => some .rightBrace
  | 59 => some .semicolon
  | 44 => some .comma
  | 46 => some .dot
  | 45 => some .minus
  | 43 => some .plus
  | 47 => some .slash
  | 42 => some .star
  | 33 => some .bang
  | 61 => some .equal
  | 60 => some .less
  | 62 => some .greater
  | _ => none

def withEqual : TokenKind → Option TokenKind
  | .bang => some .bangEqual
  | .equal => some .equalEqual
  | .less => some .lessEqual
  | .greater => some .greaterEqual
  | _ => none

def operator (c : UInt8) (rest : Bytes) (line : Nat) : Token × Cursor :=
  match punctuation c with
  | none => (⟨.error, "Unexpected character.", line⟩, ⟨rest, line⟩)
  | some kind =>
    match withEqual kind, rest with
    | some longer, equals :: r => (⟨longer, [c, equals], line⟩, ⟨r, line⟩)
    | _, _ => (⟨kind, [c], line⟩, ⟨rest, line⟩)

def next (at_ : Cursor) : Token × Cursor :=
  let ⟨rest, line⟩ := skipBlank false at_.rest at_.line
  match rest with
  | [] => (⟨.eof, [], line⟩, ⟨[], line⟩)
  | c :: r =>
    if isLetter c then word (c :: r) line
    else if isDigit c then number (c :: r) line
    else if c = quote then string r line
    else operator c r line

/-- The tokens from a cursor on, at most `fuel` of them, put in front of those already found. -/
def collect (found : List Token) (at_ : Cursor) : Nat → List Token
  | 0 => found.reverse
  | fuel + 1 =>
    let (token, following) := next at_
    if token.kind = .eof then (token :: found).reverse
    else collect (token :: found) following fuel

def scan (source : Bytes) : List Token :=
  collect [] ⟨source, 1⟩ (source.length + 1)

end Lox.Token

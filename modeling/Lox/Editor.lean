import Lox.Compile

/-!
What an editor asks about a text: its declarations, completions, explanations of words and problems.
Lines count from zero, except that of a declaration, and columns count bytes.
-/

namespace Lox

structure Span where
  startLine : Nat
  startColumn : Nat
  endLine : Nat
  endColumn : Nat

inductive DeclarationKind where
  | var_ | fun_ | class_
deriving DecidableEq

structure Declaration where
  kind : DeclarationKind
  name : Bytes
  superclass : Bytes
  -- Counted from one.
  line : Nat
  column : Nat

namespace Declaration

def span (d : Declaration) : Span :=
  ⟨d.line - 1, d.column, d.line - 1, d.column + d.name.length⟩

def detail (d : Declaration) : Bytes :=
  match d.kind with
  | .class_ =>
    ("class " : Bytes) ++ d.name
      ++ if d.superclass.isEmpty then [] else (" < " : Bytes) ++ d.superclass
  | .fun_ => ("fun " : Bytes) ++ d.name
  | .var_ => ("var " : Bytes) ++ d.name

end Declaration

namespace Editor

def sourceName : String := "loxvm-lsp"

def version : String := "0.1.0"

def natives : List Bytes := ["clock", "gc"]

def isWordByte (c : UInt8) : Bool :=
  isLetter c || isDigit c || c = 0xaa || c = 0xb5 || c = 0xba
    || (0xc0 ≤ c && c != 0xd7 && c != 0xf7)

def lines (text : Bytes) : List Bytes :=
  text.splitOn Ascii.newline

/-- The column from `column` on where a name stands as a whole word; `previous` is the byte before,
and `skip` bytes are part of an occurrence that is none. -/
def columnFrom (name : Bytes) (previous : Option UInt8) (column skip : Nat) : Bytes → Nat
  | [] => 0
  | c :: r =>
    match skip with
    | skip + 1 => columnFrom name (some c) (column + 1) skip r
    | 0 =>
      if name.isPrefixOf (c :: r) then
        let following := ((c :: r).drop name.length).head?
        if previous.all (!isWordByte ·) && following.all (!isWordByte ·) then column
        else columnFrom name (some c) (column + 1) (name.length - 1) r
      else columnFrom name (some c) (column + 1) 0 r

def columnOf (line name : Bytes) : Nat :=
  columnFrom name none 0 0 line

def kindOf : TokenKind → Option DeclarationKind
  | .var_ => some .var_
  | .fun_ => some .fun_
  | .class_ => some .class_
  | _ => none

def superclassOf : List Token → Bytes
  | ⟨.less, _, _⟩ :: ⟨.identifier, name, _⟩ :: _ => name
  | _ => []

def declarationsIn (text : Array Bytes) : List Token → List Declaration
  | [] => []
  | keyword :: rest =>
    match kindOf keyword.kind, rest with
    | some kind, ⟨.identifier, name, line⟩ :: following =>
      let superclass := if kind = .class_ then superclassOf following else []
      let column := match text[line - 1]? with
        | some l => columnOf l name
        | none => 0
      ⟨kind, name, superclass, line, column⟩ :: declarationsIn text rest
    | _, _ => declarationsIn text rest

def declarations (text : Bytes) : List Declaration :=
  declarationsIn (lines text).toArray (Token.scan text)

def declaration? (text name : Bytes) : Option Declaration :=
  (declarations text).find? (·.name == name)

inductive CompletionKind where
  | function | variable_ | class_ | keyword
deriving DecidableEq

namespace CompletionKind

def number : CompletionKind → Nat
  | function => 3
  | variable_ => 6
  | class_ => 7
  | keyword => 14

end CompletionKind

structure Completion where
  label : Bytes
  kind : CompletionKind
  detail : Bytes

def ofDeclaration (d : Declaration) : Completion :=
  ⟨d.name, match d.kind with
    | .class_ => .class_
    | .fun_ => .function
    | .var_ => .variable_, d.detail⟩

def candidates (text : Bytes) : List Completion :=
  (declarations text).map ofDeclaration
    ++ natives.map (fun name => ⟨name, .function, "native"⟩)
    ++ TokenKind.keywords.map (fun k => ⟨Bytes.ofString k.name, .keyword, "keyword"⟩)

def complete (text start : Bytes) : List Completion :=
  ((candidates text).foldl (fun found c =>
    if start.isPrefixOf c.label && !found.any (·.label == c.label) then c :: found else found)
    []).reverse

def hover (text word : Bytes) : Option Bytes :=
  match declaration? text word with
  | some d =>
    some (("```lox\n" : Bytes) ++ d.detail ++ ("\n```\ndeclared on line " : Bytes)
      ++ Bytes.ofNat d.line)
  | none =>
    if natives.contains word then
      some (("```lox\nfun " : Bytes) ++ word ++ ("()\n```\nnative" : Bytes))
    else none

structure Report where
  span : Span
  message : Bytes

def report (text : Array Bytes) (d : Diagnostic) : Report :=
  let line := d.line - 1
  let width := match text[line]? with
    | some l => l.length
    | none => 0
  ⟨⟨line, 0, line, width⟩, ("Error" : Bytes) ++ d.place ++ (": " : Bytes) ++ d.message⟩

def diagnostics (options : GcOptions) (text : Bytes) : List Report :=
  match compile text (fun _ => []) (Heap.new options) with
  | .ok (.error ds) _ => ds.map (report (lines text).toArray)
  | .ok (.ok _) _ => []
  | .error f _ => [⟨⟨0, 0, 0, 0⟩, f.message⟩]

def around (text : Bytes) (line column : Nat) : Option (Bytes × Bytes) :=
  (lines text)[line]?.map fun l => (l.take column, l.drop column)

def wordBefore (text : Bytes) (line column : Nat) : Bytes :=
  match around text line column with
  | some (before, _) => (before.reverse.takeWhile isWordByte).reverse
  | none => []

def wordAt (text : Bytes) (line column : Nat) : Bytes :=
  match around text line column with
  | some (before, after) =>
    (before.reverse.takeWhile isWordByte).reverse ++ after.takeWhile isWordByte
  | none => []

end Editor

structure Editor where
  options : GcOptions
  documents : List (Bytes × Bytes) := []

namespace Editor

structure Published where
  uri : Bytes
  reports : List Report

inductive Change where
  | whole (text : Bytes)
  | ranged

def forget (uri : Bytes) (e : Editor) : Editor :=
  { e with documents := e.documents.filter (·.1 != uri) }

def text? (e : Editor) (uri : Bytes) : Option Bytes :=
  e.documents.lookup uri

def openText (e : Editor) (uri text : Bytes) : Editor × Published :=
  ({ e.forget uri with documents := (uri, text) :: (e.forget uri).documents },
    ⟨uri, diagnostics e.options text⟩)

def change (e : Editor) (uri : Bytes) (changes : List Change) : Editor × Option Published :=
  match changes.getLast? with
  | some (.whole text) =>
    let (e, p) := e.openText uri text
    (e, some p)
  | _ => (e, none)

def close (e : Editor) (uri : Bytes) : Editor × Published :=
  (e.forget uri, ⟨uri, []⟩)

def completeAt (e : Editor) (uri : Bytes) (line column : Nat) : Option (List Completion) := do
  let text ← e.text? uri
  let start := wordBefore text line column
  if start.isEmpty then none else some (complete text start)

def wordIn (e : Editor) (uri : Bytes) (line column : Nat) : Option (Bytes × Bytes) := do
  let text ← e.text? uri
  let word := wordAt text line column
  if word.isEmpty then none else some (text, word)

def hoverAt (e : Editor) (uri : Bytes) (line column : Nat) : Option Bytes := do
  let (text, word) ← e.wordIn uri line column
  hover text word

def definitionAt (e : Editor) (uri : Bytes) (line column : Nat) : Option Span := do
  let (text, word) ← e.wordIn uri line column
  return (← declaration? text word).span

end Editor

end Lox

import Lox.Bytes

namespace Lox

inductive TokenKind where
  | leftParen | rightParen | leftBrace | rightBrace | comma | dot | minus | plus | semicolon
  | slash | star
  | bang | bangEqual | equal | equalEqual | greater | greaterEqual | less | lessEqual
  | identifier | string | number
  | and_ | class_ | else_ | false_ | for_ | fun_ | if_ | nil_ | or_ | print_ | return_ | super_
  | this_ | true_ | var_ | while_
  | error | eof
deriving DecidableEq, Inhabited

namespace TokenKind

def all : List TokenKind :=
  [leftParen, rightParen, leftBrace, rightBrace, comma, dot, minus, plus, semicolon, slash, star,
    bang, bangEqual, equal, equalEqual, greater, greaterEqual, less, lessEqual, identifier, string,
    number, and_, class_, else_, false_, for_, fun_, if_, nil_, or_, print_, return_, super_, this_,
    true_, var_, while_, error, eof]

def index (k : TokenKind) : Nat :=
  all.idxOf k

def name : TokenKind → String
  | leftParen => "("
  | rightParen => ")"
  | leftBrace => "\x7b"
  | rightBrace => "\x7d"
  | comma => ","
  | dot => "."
  | minus => "-"
  | plus => "+"
  | semicolon => ";"
  | slash => "/"
  | star => "*"
  | bang => "!"
  | bangEqual => "!="
  | equal => "="
  | equalEqual => "=="
  | greater => ">"
  | greaterEqual => ">="
  | less => "<"
  | lessEqual => "<="
  | identifier => "IDENTIFIER"
  | string => "STRING"
  | number => "NUMBER"
  | and_ => "and"
  | class_ => "class"
  | else_ => "else"
  | false_ => "false"
  | for_ => "for"
  | fun_ => "fun"
  | if_ => "if"
  | nil_ => "nil"
  | or_ => "or"
  | print_ => "print"
  | return_ => "return"
  | super_ => "super"
  | this_ => "this"
  | true_ => "true"
  | var_ => "var"
  | while_ => "while"
  | error => "ERROR"
  | eof => "EOF"

def nameAt (n : Int) : String :=
  match n with
  | .ofNat i => match all[i]? with
    | some k => k.name
    | none => "TokenType(" ++ toString n ++ ")"
  | .negSucc _ => "TokenType(" ++ toString n ++ ")"

def keywords : List TokenKind :=
  [and_, class_, else_, false_, for_, fun_, if_, nil_, or_, print_, return_, super_, this_, true_,
    var_, while_]

def ofWord (word : Bytes) : TokenKind :=
  (keywords.find? (fun k => Bytes.ofString k.name == word)).getD identifier

end TokenKind

structure Token where
  kind : TokenKind
  lexeme : Bytes
  line : Nat
deriving DecidableEq, Inhabited

end Lox

import BlockScript.Span
import BlockScript.Numeral.Decimal

/-!
# Tokens

The words of the language: symbols, keywords, identifiers and literals. A token keeps its text,
the value of a literal, its line and its span. Every list of tokens that the scanner makes ends
with one token of the kind `endOfInput`.

## Main definitions

* `Symbol`, `Keyword` — the fixed words, each with its spelling
* `Token.Kind` — the kinds of tokens
* `Token` — a token of a source
-/

namespace BlockScript

/-- Punctuation and operators. -/
inductive Symbol where
  | leftParen | rightParen | leftBrace | rightBrace
  | comma | dot | minus | plus | semicolon | slash | star
  | bang | bangEqual | equal | equalEqual
  | greater | greaterEqual | less | lessEqual
deriving DecidableEq, Repr

namespace Symbol

/-- How a symbol is written. -/
def spelling : Symbol → String
  | .leftParen => "("
  | .rightParen => ")"
  | .leftBrace => "\x7b"
  | .rightBrace => "\x7d"
  | .comma => ","
  | .dot => "."
  | .minus => "-"
  | .plus => "+"
  | .semicolon => ";"
  | .slash => "/"
  | .star => "*"
  | .bang => "!"
  | .bangEqual => "!="
  | .equal => "="
  | .equalEqual => "=="
  | .greater => ">"
  | .greaterEqual => ">="
  | .less => "<"
  | .lessEqual => "<="

/-- The name of a symbol in a token listing. -/
def name : Symbol → String
  | .leftParen => "LtParen"
  | .rightParen => "RtParen"
  | .leftBrace => "LtBrace"
  | .rightBrace => "RtBrace"
  | .comma => "Comma"
  | .dot => "Dot"
  | .minus => "Minus"
  | .plus => "Plus"
  | .semicolon => "Semicolon"
  | .slash => "Slash"
  | .star => "Asterisk"
  | .bang => "Bang"
  | .bangEqual => "BangEqual"
  | .equal => "Equal"
  | .equalEqual => "EqualEqual"
  | .greater => "Greater"
  | .greaterEqual => "GreaterEqual"
  | .less => "Less"
  | .lessEqual => "LessEqual"

/-- All symbols. -/
def all : List Symbol :=
  [.leftParen, .rightParen, .leftBrace, .rightBrace, .comma, .dot, .minus, .plus, .semicolon,
    .slash, .star, .bang, .bangEqual, .equal, .equalEqual, .greater, .greaterEqual, .less,
    .lessEqual]

/-- The symbol that is one character. -/
def ofChar? : Char → Option Symbol
  | '(' => some .leftParen
  | ')' => some .rightParen
  | '\x7b' => some .leftBrace
  | '\x7d' => some .rightBrace
  | ',' => some .comma
  | '.' => some .dot
  | '-' => some .minus
  | '+' => some .plus
  | ';' => some .semicolon
  | '/' => some .slash
  | '*' => some .star
  | '!' => some .bang
  | '=' => some .equal
  | '>' => some .greater
  | '<' => some .less
  | _ => none

/-- The symbol that `c` forms together with an equals sign after it. -/
def withEqual? : Char → Option Symbol
  | '!' => some .bangEqual
  | '=' => some .equalEqual
  | '>' => some .greaterEqual
  | '<' => some .lessEqual
  | _ => none

end Symbol

/-- The reserved words. -/
inductive Keyword where
  | andWord | classWord | elseWord | falseWord | forWord | funcWord | ifWord | nilWord | orWord
  | printWord | returnWord | superWord | thisWord | trueWord | varWord | whileWord
deriving DecidableEq, Repr

namespace Keyword

/-- How a keyword is written. -/
def spelling : Keyword → String
  | .andWord => "and"
  | .classWord => "class"
  | .elseWord => "else"
  | .falseWord => "false"
  | .forWord => "for"
  | .funcWord => "func"
  | .ifWord => "if"
  | .nilWord => "nil"
  | .orWord => "or"
  | .printWord => "print"
  | .returnWord => "return"
  | .superWord => "super"
  | .thisWord => "this"
  | .trueWord => "true"
  | .varWord => "var"
  | .whileWord => "while"

/-- The name of a keyword in a token listing. -/
def name : Keyword → String
  | .andWord => "And"
  | .classWord => "Class"
  | .elseWord => "Else"
  | .falseWord => "False"
  | .forWord => "For"
  | .funcWord => "Func"
  | .ifWord => "If"
  | .nilWord => "Nil"
  | .orWord => "Or"
  | .printWord => "Print"
  | .returnWord => "Return"
  | .superWord => "Super"
  | .thisWord => "This"
  | .trueWord => "True"
  | .varWord => "Var"
  | .whileWord => "While"

/-- All keywords. -/
def all : List Keyword :=
  [.andWord, .classWord, .elseWord, .falseWord, .forWord, .funcWord, .ifWord, .nilWord, .orWord,
    .printWord, .returnWord, .superWord, .thisWord, .trueWord, .varWord, .whileWord]

/-- The keyword written as `word`, if there is one. -/
def ofSpelling? (word : String) : Option Keyword := all.find? (·.spelling = word)

/-- Whether a declaration or statement can begin with the keyword. -/
def startsStatement : Keyword → Bool
  | .classWord | .funcWord | .varWord | .forWord | .ifWord | .whileWord | .printWord
  | .returnWord => true
  | _ => false

end Keyword

/-- The value of a literal token. -/
inductive Literal where
  | number (value : Float)
  | text (value : String)

/-- The text of a literal's value. -/
def Literal.display : Literal → String
  | .number value => Numeral.text value
  | .text value => value

namespace Token

/-- The kinds of tokens. No scanned token has the kind `error`. -/
inductive Kind where
  | symbol (symbol : Symbol)
  | keyword (keyword : Keyword)
  | identifier
  | string
  | number
  | error
  | endOfInput
deriving DecidableEq, Repr

namespace Kind

/-- The name of a kind in a token listing. -/
def name : Kind → String
  | .symbol s => s.name
  | .keyword k => k.name
  | .identifier => "Identifier"
  | .string => "String"
  | .number => "Number"
  | .error => "Error"
  | .endOfInput => "Eof"

/-- All kinds. -/
def all : List Kind :=
  Symbol.all.map .symbol ++ Keyword.all.map .keyword ++
    [.identifier, .string, .number, .error, .endOfInput]

/-- The kind with the given name. -/
def ofName? (name : String) : Option Kind := all.find? (·.name = name)

/-- Whether a declaration or statement can begin with a keyword of this kind. -/
def startsStatement : Kind → Bool
  | .keyword k => k.startsStatement
  | _ => false

end Kind

end Token

/-- A token of a source. -/
structure Token where
  kind : Token.Kind
  lexeme : String
  literal : Option Literal
  line : Nat
  span : Span

namespace Token

/-- The token that ends the input at an offset. -/
def endOfInput (offset line : Nat) : Token := ⟨.endOfInput, "", none, line, .empty offset⟩

/-- A token in a listing: its kind, its text and the value of a literal. -/
def display (token : Token) : String :=
  let head := token.kind.name ++ " " ++ token.lexeme
  match token.literal with
  | none => head
  | some literal => head ++ " " ++ literal.display

end Token

end BlockScript

import ScopeScript.Number.Text

/-! Tokens: symbols, keywords, names and literals, each with the text it was written
as and the line that text ends on. -/
namespace ScopeScript

/-- A written text and the line it ends on. -/
structure Lexeme where
  text : String
  line : Nat
  deriving DecidableEq, Repr

inductive Symbol where
  | leftParen | rightParen | leftBrace | rightBrace
  | comma | dot | minus | plus | semicolon | slash | star
  | bang | bangEqual | equal | equalEqual
  | greater | greaterEqual | less | lessEqual
  deriving DecidableEq, Repr

namespace Symbol

def label : Symbol → String
  | leftParen => "LEFT_PAREN"
  | rightParen => "RIGHT_PAREN"
  | leftBrace => "LEFT_BRACE"
  | rightBrace => "RIGHT_BRACE"
  | comma => "COMMA"
  | dot => "DOT"
  | minus => "MINUS"
  | plus => "PLUS"
  | semicolon => "SEMICOLON"
  | slash => "SLASH"
  | star => "STAR"
  | bang => "BANG"
  | bangEqual => "BANG_EQUAL"
  | equal => "EQUAL"
  | equalEqual => "EQUAL_EQUAL"
  | greater => "GREATER"
  | greaterEqual => "GREATER_EQUAL"
  | less => "LESS"
  | lessEqual => "LESS_EQUAL"

def all : List Symbol :=
  [leftParen, rightParen, leftBrace, rightBrace, comma, dot, minus, plus, semicolon, slash, star,
    bang, bangEqual, equal, equalEqual, greater, greaterEqual, less, lessEqual]

theorem mem_all (s : Symbol) : s ∈ all := by cases s <;> decide

/-- The symbol written as one character. -/
def ofChar? : Char → Option Symbol
  | '(' => some leftParen
  | ')' => some rightParen
  | '\x7b' => some leftBrace
  | '\x7d' => some rightBrace
  | ',' => some comma
  | '.' => some dot
  | '-' => some minus
  | '+' => some plus
  | ';' => some semicolon
  | '/' => some slash
  | '*' => some star
  | '!' => some bang
  | '=' => some equal
  | '>' => some greater
  | '<' => some less
  | _ => none

/-- The symbol written as this one with an equals sign after it. -/
def withEqual? : Symbol → Option Symbol
  | bang => some bangEqual
  | equal => some equalEqual
  | greater => some greaterEqual
  | less => some lessEqual
  | _ => none

end Symbol

inductive Keyword where
  | kwAnd | kwClass | kwElse | kwFalse | kwFun | kwFor | kwIf | kwNil | kwOr
  | kwPrint | kwReturn | kwSuper | kwThis | kwTrue | kwVar | kwWhile
  deriving DecidableEq, Repr

namespace Keyword

def word : Keyword → String
  | kwAnd => "and"
  | kwClass => "class"
  | kwElse => "else"
  | kwFalse => "false"
  | kwFun => "fun"
  | kwFor => "for"
  | kwIf => "if"
  | kwNil => "nil"
  | kwOr => "or"
  | kwPrint => "print"
  | kwReturn => "return"
  | kwSuper => "super"
  | kwThis => "this"
  | kwTrue => "true"
  | kwVar => "var"
  | kwWhile => "while"

def all : List Keyword :=
  [kwAnd, kwClass, kwElse, kwFalse, kwFun, kwFor, kwIf, kwNil, kwOr, kwPrint, kwReturn, kwSuper,
    kwThis, kwTrue, kwVar, kwWhile]

def ofWord? (word : String) : Option Keyword := all.find? (·.word = word)

def label (k : Keyword) : String := k.word.toUpper

theorem mem_all (k : Keyword) : k ∈ all := by cases k <;> decide

end Keyword

/-- What a token is. The literals carry their values; `endOfInput` closes every scan. -/
inductive Kind where
  | symbol (s : Symbol)
  | keyword (k : Keyword)
  | identifier
  | string (contents : String)
  | number (value : Float)
  | endOfInput
  deriving DecidableEq

namespace Kind

def label : Kind → String
  | symbol s => s.label
  | keyword k => k.label
  | identifier => "IDENTIFIER"
  | string _ => "STRING"
  | number _ => "NUMBER"
  | endOfInput => "EOF"

/-- A number in a token listing: whole numbers below `2 ^ 63` are written out in full and
keep one decimal place, all others are plain. -/
def numberText (x : Float) : String :=
  match Number.whole? x with
  | some (negative, n) =>
    if n < Nat.pow 2 63 then Number.sign (negative && n != 0) ++ toString n ++ ".0"
    else Number.plain x
  | none => Number.plain x

def literalText : Kind → String
  | string contents => contents
  | number value => numberText value
  | _ => "null"

end Kind

structure Token extends Lexeme where
  kind : Kind
  deriving DecidableEq

/-- A line of a token listing: kind, lexeme and literal value. -/
def Token.listing (t : Token) : String :=
  t.kind.label ++ " " ++ t.text ++ " " ++ t.kind.literalText

end ScopeScript

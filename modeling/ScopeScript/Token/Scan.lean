import ScopeScript.Token.Piece

/-! The tokens and lexical errors of a source text, in order, each with the line its
piece ends on, and one closing token. -/
namespace ScopeScript

inductive LexicalCause where
  | unterminatedString
  | unexpectedCharacter (c : Char)
  deriving DecidableEq, Repr

def LexicalCause.message : LexicalCause → String
  | unterminatedString => "Unterminated string."
  | unexpectedCharacter c => "Unexpected character: " ++ c.toString

structure LexicalError where
  cause : LexicalCause
  line : Nat
  deriving DecidableEq, Repr

inductive Item where
  | token (t : Token)
  | error (e : LexicalError)
  deriving DecidableEq

namespace Item

def token? : Item → Option Token
  | token t => some t
  | error _ => none

def error? : Item → Option LexicalError
  | token _ => none
  | error e => some e

end Item

namespace Piece

def newlines (p : Piece) : Nat := p.text.count '\n'

/-- What a piece that ends on `line` contributes to a scan. -/
def item? (line : Nat) : Piece → Option Item
  | blank _ | comment _ => none
  | token kind text => some (.token ⟨⟨String.ofList text, line⟩, kind⟩)
  | unexpected c => some (.error ⟨.unexpectedCharacter c, line⟩)
  | unterminated _ => some (.error ⟨.unterminatedString, line⟩)

end Piece

/-- The items of pieces that start on `line`, closed by the end of input. -/
def itemsFrom (line : Nat) : List Piece → List Item
  | [] => [.token ⟨⟨"", line⟩, .endOfInput⟩]
  | piece :: rest =>
    let line := line + piece.newlines
    (piece.item? line).toList ++ itemsFrom line rest

/-- Everything a source text holds, in order. -/
def scan (source : String) : List Item := itemsFrom 1 (pieces source.toList)

/-- The tokens of a source text. -/
def tokens (source : String) : List Token := (scan source).filterMap Item.token?

/-- The lexical errors of a source text. -/
def lexicalErrors (source : String) : List LexicalError := (scan source).filterMap Item.error?

end ScopeScript

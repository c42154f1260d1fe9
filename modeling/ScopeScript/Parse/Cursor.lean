import ScopeScript.Parse.Error
import ScopeScript.Tree.Expr

/-! The parser's cursor: the tokens still to be read, the line of the end of input and
the number of the next expression node. An error leaves the cursor where it arose, so
numbers drawn before it stay drawn. -/
namespace ScopeScript

structure Cursor where
  rest : List Token
  endLine : Nat
  nextId : ExprId

namespace Cursor

/-- A token list is read up to its first end of input. One that has none ends on the line
of its last token. -/
def ofTokens (tokens : List Token) (nextId : ExprId) : Cursor where
  rest := tokens.takeWhile (·.kind ≠ .endOfInput)
  endLine := ((tokens.find? (·.kind = .endOfInput)).or tokens.getLast?).elim 1 (·.line)
  nextId := nextId

/-- The place of the next token. -/
def place (c : Cursor) : Place :=
  match c.rest with
  | [] => .ofEnd c.endLine
  | t :: _ => .ofLexeme t.toLexeme

end Cursor

abbrev Parse := EStateM ParseError Cursor

namespace Parse

/-- A complaint about the next token. -/
def fail (cause : ParseCause) : Parse α := fun c => .error ⟨cause, c.place⟩ c

/-- A complaint about a token already read. -/
def failAt (l : Lexeme) (cause : ParseCause) : Parse α := fun c => .error ⟨cause, .ofLexeme l⟩ c

/-- The kind of the next token, and none at the end. -/
def peek : Parse (Option Kind) := fun c => .ok (c.rest.head?.map (·.kind)) c

/-- Reads the next token if `select` takes its kind. -/
def takeIf (select : Kind → Option α) : Parse (Option (α × Lexeme)) := fun c =>
  match c.rest with
  | [] => .ok none c
  | t :: rest =>
    match select t.kind with
    | none => .ok none c
    | some a => .ok (some (a, t.toLexeme)) { c with rest := rest }

/-- Reads the next token if it is of this kind. -/
def take? (kind : Kind) : Parse (Option Lexeme) := do
  return (← takeIf fun k => if k = kind then some () else none).map (·.2)

/-- Reads the next token if it is of this kind, and says whether it was. -/
def accept (kind : Kind) : Parse Bool := return (← take? kind).isSome

/-- Reads the next token, which must be of this kind. -/
def expect (kind : Kind) (cause : ParseCause) : Parse Lexeme := do
  match ← take? kind with
  | some l => return l
  | none => fail cause

/-- Numbers handed out count up from the cursor's. -/
def freshId : Parse ExprId := fun c => .ok c.nextId { c with nextId := c.nextId + 1 }

/-- Items with commas between them, at least one and at most as many as there is `room`. -/
def separated (item : Parse α) (overflow : ParseCause) : (room : Nat) → Parse (List α)
  | 0 => fail overflow
  | room + 1 => do
    let first ← item
    if ← accept (.symbol .comma) then
      return first :: (← separated item overflow room)
    else
      return [first]

/-- The most parameters or arguments that a list may have. -/
def listLimit : Nat := 255

/-- A list in parentheses whose opening one has been read: its items, and the closing one. -/
def parenthesized (item : Parse α) (overflow unclosed : ParseCause) :
    Parse (List α × Lexeme) := do
  let items ←
    if (← peek) = some (.symbol .rightParen) then pure []
    else separated item overflow listLimit
  return (items, ← expect (.symbol .rightParen) unclosed)

end Parse
end ScopeScript

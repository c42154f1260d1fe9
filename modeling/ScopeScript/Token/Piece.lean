import ScopeScript.Token

/-! Source text falls into pieces: blanks, comments, tokens, characters that begin
nothing and a string left open. The pieces of a text are its characters in order,
so nothing is skipped and nothing is read twice. -/
namespace ScopeScript

inductive Piece where
  | blank (c : Char)
  | comment (text : List Char)
  | token (kind : Kind) (text : List Char)
  | unexpected (c : Char)
  | unterminated (text : List Char)

namespace Piece

/-- The characters a piece covers. -/
def text : Piece → List Char
  | blank c | unexpected c => [c]
  | comment text | token _ text | unterminated text => text

def isSpace (c : Char) : Bool := c = ' ' || c = '\r' || c = '\t' || c = '\n'

def isWordStart (c : Char) : Bool := c.isAlpha || c = '_'

def isWordRest (c : Char) : Bool := c.isAlphanum || c = '_'

/-- A string literal whose opening quote has been read. It runs to the next quote, over
any number of lines. -/
def quoted (rest : List Char) : Piece :=
  let contents := rest.takeWhile (· ≠ '"')
  match rest.dropWhile (· ≠ '"') with
  | [] => unterminated ('"' :: contents)
  | _ => token (.string (String.ofList contents)) ('"' :: (contents ++ ['"']))

/-- Digits, and a fraction if a digit follows the point. -/
def numeral (text : List Char) : Piece :=
  let whole := text.takeWhile Char.isDigit
  match text.dropWhile Char.isDigit with
  | '.' :: after =>
    match after.takeWhile Char.isDigit with
    | [] => token (.number (Number.read whole [])) whole
    | fraction => token (.number (Number.read whole fraction)) (whole ++ '.' :: fraction)
  | _ => token (.number (Number.read whole [])) whole

/-- A whole word is a keyword or a name. -/
def word (text : List Char) : Piece :=
  match Keyword.ofWord? (String.ofList text) with
  | some k => token (.keyword k) text
  | none => token .identifier text

/-- A symbol takes an equals sign after it whenever the pair is a symbol too. -/
def symbol (s : Symbol) (c : Char) (rest : List Char) : Piece :=
  match s.withEqual?, rest with
  | some pair, '=' :: _ => token (.symbol pair) [c, '=']
  | _, _ => token (.symbol s) [c]

/-- The piece at the front of a text that begins with `c`. -/
def cut (c : Char) (rest : List Char) : Piece :=
  if isSpace c then blank c
  else if c = '"' then quoted rest
  else if c = '/' ∧ rest.head? = some '/' then comment (c :: rest.takeWhile (· ≠ '\n'))
  else if c.isDigit then numeral (c :: rest)
  else if isWordStart c then word (c :: rest.takeWhile isWordRest)
  else match Symbol.ofChar? c with
    | some s => symbol s c rest
    | none => unexpected c

end Piece

/-- Cuts a text into pieces; the first `covered` characters belong to the piece before. -/
def piecesFrom : (covered : Nat) → List Char → List Piece
  | _, [] => []
  | 0, c :: rest =>
    let piece := Piece.cut c rest
    piece :: piecesFrom (piece.text.length - 1) rest
  | covered + 1, _ :: rest => piecesFrom covered rest

def pieces (text : List Char) : List Piece := piecesFrom 0 text

theorem piecesFrom_eq_drop (covered : Nat) (text : List Char) :
    piecesFrom covered text = pieces (text.drop covered) := by
  induction text generalizing covered with
  | nil => cases covered <;> simp [pieces, piecesFrom]
  | cons c rest ih =>
    cases covered with
    | zero => rfl
    | succ covered => simpa [piecesFrom] using ih covered

end ScopeScript

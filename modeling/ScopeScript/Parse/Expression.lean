import ScopeScript.Parse.Cursor

/-! Parsing expressions. Each procedure takes a `bound` on the number of tokens left, and
what it answers is the same for every number that is one: loops read at least one token
a round, and a nested expression starts behind the token that opens it. -/
namespace ScopeScript

/-- An operator between two operands. -/
inductive InfixOp where
  | binary (op : BinaryOp)
  | logical (op : LogicalOp)
  deriving DecidableEq, Repr

def InfixOp.node (id : ExprId) (sign : Lexeme) (left right : Expr) : InfixOp → Expr
  | binary op => .binary id op sign left right
  | logical op => .logical id op sign left right

/-- The operators of one precedence. -/
abbrev Level := Kind → Option InfixOp

namespace Level

def disjunction : Level
  | .keyword .kwOr => some (.logical .or)
  | _ => none

def conjunction : Level
  | .keyword .kwAnd => some (.logical .and)
  | _ => none

def equality : Level
  | .symbol .bangEqual => some (.binary .notEqual)
  | .symbol .equalEqual => some (.binary .equal)
  | _ => none

def comparison : Level
  | .symbol .greater => some (.binary .greater)
  | .symbol .greaterEqual => some (.binary .greaterEqual)
  | .symbol .less => some (.binary .less)
  | .symbol .lessEqual => some (.binary .lessEqual)
  | _ => none

def sum : Level
  | .symbol .minus => some (.binary .subtract)
  | .symbol .plus => some (.binary .add)
  | _ => none

def product : Level
  | .symbol .slash => some (.binary .divide)
  | .symbol .star => some (.binary .multiply)
  | _ => none

/-- Every level of infix operators, the loosest first. -/
def all : List Level := [disjunction, conjunction, equality, comparison, sum, product]

end Level

def UnaryOp.ofKind? : Kind → Option UnaryOp
  | .symbol .bang => some .not
  | .symbol .minus => some .negate
  | _ => none

/-- What the first token of a primary expression announces. -/
inductive PrimaryStart where
  | literal (value : Literal)
  | this
  | name
  | group

def PrimaryStart.ofKind? : Kind → Option PrimaryStart
  | .keyword .kwFalse => some (literal (.boolean false))
  | .keyword .kwTrue => some (literal (.boolean true))
  | .keyword .kwNil => some (literal .nil)
  | .number value => some (literal (.number value))
  | .string contents => some (literal (.string contents))
  | .keyword .kwThis => some this
  | .identifier => some name
  | .symbol .leftParen => some group
  | _ => none

namespace Parse

/-- Literals, names, `this` and groups. -/
def primary (expression : Parse Expr) : Parse Expr := do
  match ← takeIf PrimaryStart.ofKind? with
  | none => fail .expression
  | some (.literal value, _) => return .literal (← freshId) value
  | some (.this, keyword) => return .this (← freshId) keyword
  | some (.name, name) => return .var (← freshId) name
  | some (.group, _) => do
    let inner ← expression
    let _ ← expect (.symbol .rightParen) .groupClose
    return .group (← freshId) inner

/-- Calls and property reads that follow an expression, the leftmost innermost. -/
def calls (expression : Parse Expr) : (bound : Nat) → Expr → Parse Expr
  | 0, subject => return subject
  | bound + 1, subject => do
    if ← accept (.symbol .leftParen) then
      let (arguments, closing) ← parenthesized expression .tooManyArguments .argumentsClose
      calls expression bound (.call (← freshId) subject arguments closing)
    else if ← accept (.symbol .dot) then
      let property ← expect .identifier .propertyName
      calls expression bound (.get (← freshId) subject property)
    else
      return subject

/-- The signs in front of an operand. -/
def signs : (bound : Nat) → Parse (List (UnaryOp × Lexeme))
  | 0 => return []
  | bound + 1 => do
    match ← takeIf UnaryOp.ofKind? with
    | none => return []
    | some sign => return sign :: (← signs bound)

/-- Puts signs in front of an operand, the last of them innermost. -/
def signed : List (UnaryOp × Lexeme) → Expr → Parse Expr
  | [], operand => return operand
  | (op, sign) :: rest, operand => do
    let inner ← signed rest operand
    return .unary (← freshId) op sign inner

/-- An operand of the tightest infix operators. -/
def unary (bound : Nat) (expression : Parse Expr) : Parse Expr := do
  let before ← signs (bound + 1)
  let operand ← calls expression bound (← primary expression)
  signed before operand

/-- Joins operands to the left of an operator as long as one of the level follows. -/
def chainFrom (level : Level) (operand : Parse Expr) : (bound : Nat) → Expr → Parse Expr
  | 0, left => return left
  | bound + 1, left => do
    match ← takeIf level with
    | none => return left
    | some (op, sign) => do
      let right ← operand
      chainFrom level operand bound (op.node (← freshId) sign left right)

/-- Operands with operators of one level between them. -/
def chain (bound : Nat) (level : Level) (operand : Parse Expr) : Parse Expr := do
  chainFrom level operand bound (← operand)

/-- Everything that binds tighter than an assignment. -/
def operation (bound : Nat) (expression : Parse Expr) : Parse Expr :=
  Level.all.foldr (chain bound) (unary bound expression)

/-- An operation, or an assignment to the name or property that the operation turned out
to be. -/
def assignment (bound : Nat) (expression : Parse Expr) : Parse Expr := do
  let target ← operation bound expression
  match ← take? (.symbol .equal) with
  | none => return target
  | some sign => do
    let value ← expression
    match target with
    | .var _ name => return .assign (← freshId) name value
    | .get _ object property => return .set (← freshId) object property value
    | _ => failAt sign .assignmentTarget

/-- An expression. With no token left there is none. -/
def expression : (bound : Nat) → Parse Expr
  | 0 => fail .expression
  | bound + 1 => assignment bound (expression bound)

/-- One expression and nothing after it. -/
def soleExpression (bound : Nat) : Parse Expr := do
  let e ← expression bound
  match ← peek with
  | none => return e
  | some _ => fail .endOfExpression

end Parse

/-- Reads a token list as one expression, numbering its nodes from `nextId`. -/
def parseExpression (tokens : List Token) (nextId : ExprId) : Except ParseError Expr :=
  let cursor := Cursor.ofTokens tokens nextId
  match Parse.soleExpression cursor.rest.length cursor with
  | .ok e _ => .ok e
  | .error e _ => .error e

end ScopeScript

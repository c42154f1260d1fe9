import ScopeScript.Token

/-! Expressions. Every node carries the number it was given when it was built, which
tells apart two occurrences of one name. Operators are kept both as what they do and
as they were written. -/
namespace ScopeScript

abbrev ExprId := Nat

inductive Literal where
  | number (value : Float)
  | string (contents : String)
  | boolean (value : Bool)
  | nil
  deriving DecidableEq

inductive UnaryOp where
  | not | negate
  deriving DecidableEq, Repr

inductive BinaryOp where
  | add | subtract | multiply | divide
  | equal | notEqual | greater | greaterEqual | less | lessEqual
  deriving DecidableEq, Repr

inductive LogicalOp where
  | and | or
  deriving DecidableEq, Repr

inductive Expr where
  | literal (id : ExprId) (value : Literal)
  | group (id : ExprId) (inner : Expr)
  | var (id : ExprId) (name : Lexeme)
  | this (id : ExprId) (keyword : Lexeme)
  | assign (id : ExprId) (name : Lexeme) (value : Expr)
  | unary (id : ExprId) (op : UnaryOp) (sign : Lexeme) (operand : Expr)
  | binary (id : ExprId) (op : BinaryOp) (sign : Lexeme) (left right : Expr)
  | logical (id : ExprId) (op : LogicalOp) (sign : Lexeme) (left right : Expr)
  | call (id : ExprId) (callee : Expr) (arguments : List Expr) (closing : Lexeme)
  | get (id : ExprId) (object : Expr) (property : Lexeme)
  | set (id : ExprId) (object : Expr) (property : Lexeme) (value : Expr)

def Expr.id : Expr → ExprId
  | literal id _ | group id _ | var id _ | this id _ | assign id _ _ | unary id _ _ _
  | binary id _ _ _ _ | logical id _ _ _ _ | call id _ _ _ | get id _ _ | set id _ _ _ => id

end ScopeScript

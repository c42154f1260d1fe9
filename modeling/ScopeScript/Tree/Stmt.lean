import ScopeScript.Tree.Expr

/-! Statements and the declarations of functions and methods. -/
namespace ScopeScript

/-- The name a class inherits from, an expression node of its own. -/
structure Superclass where
  id : ExprId
  name : Lexeme
  deriving DecidableEq, Repr

mutual

inductive Stmt where
  | expression (value : Expr)
  | print (value : Expr)
  | var (name : Lexeme) (initial : Option Expr)
  | block (body : List Stmt)
  | ifThen (condition : Expr) (yes : Stmt)
  | ifElse (condition : Expr) (yes no : Stmt)
  | whileLoop (condition : Expr) (body : Stmt)
  | function (declaration : FunctionDecl)
  | returns (keyword : Lexeme) (value : Option Expr)
  | classDecl (name : Lexeme) (superclass : Option Superclass) (methods : List FunctionDecl)

inductive FunctionDecl where
  | mk (name : Lexeme) (params : List Lexeme) (body : List Stmt)

end

namespace FunctionDecl

def name : FunctionDecl → Lexeme
  | mk name _ _ => name

def params : FunctionDecl → List Lexeme
  | mk _ params _ => params

def body : FunctionDecl → List Stmt
  | mk _ _ body => body

end FunctionDecl
end ScopeScript

import ScopeScript.Tree.Stmt

/-! A one-line listing of trees that shows every node's number and every kept lexeme
with its line. -/
namespace ScopeScript

/-- A lexeme with its line. -/
def Lexeme.dump (l : Lexeme) : String := l.text ++ "@" ++ toString l.line

def Literal.dump : Literal → String
  | .number value => "num " ++ Number.plain value
  | .string contents => "str \"" ++ contents ++ "\""
  | .boolean true => "true"
  | .boolean false => "false"
  | .nil => "nil"

/-- A node: its number, what it is and its parts. -/
def dumpNode (id : ExprId) (text : String) : String := "(#" ++ toString id ++ " " ++ text ++ ")"

namespace Expr

mutual

/-- The listing of an expression. -/
def dump : Expr → String
  | literal id value => dumpNode id value.dump
  | group id inner => dumpNode id ("group " ++ inner.dump)
  | var id name => dumpNode id ("var " ++ name.dump)
  | this id keyword => dumpNode id ("this " ++ keyword.dump)
  | assign id name value => dumpNode id ("assign " ++ name.dump ++ " " ++ value.dump)
  | unary id _ sign operand => dumpNode id ("unary " ++ sign.dump ++ " " ++ operand.dump)
  | binary id _ sign left right =>
    dumpNode id ("binary " ++ sign.dump ++ " " ++ left.dump ++ " " ++ right.dump)
  | logical id _ sign left right =>
    dumpNode id ("logical " ++ sign.dump ++ " " ++ left.dump ++ " " ++ right.dump)
  | call id callee arguments closing =>
    dumpNode id ("call " ++ closing.dump ++ " " ++ callee.dump ++ dumpEach arguments)
  | get id object property => dumpNode id ("get " ++ property.dump ++ " " ++ object.dump)
  | set id object property value =>
    dumpNode id ("set " ++ property.dump ++ " " ++ object.dump ++ " " ++ value.dump)

/-- Each expression with a space before it. -/
def dumpEach : List Expr → String
  | [] => ""
  | e :: rest => " " ++ e.dump ++ dumpEach rest

end

end Expr

/-- An optional last part with a space before it. -/
def dumpOptional : Option Expr → String
  | none => ""
  | some e => " " ++ e.dump

def Superclass.dump (s : Superclass) : String := dumpNode s.id ("var " ++ s.name.dump)

mutual

/-- The listing of a statement. -/
def Stmt.dump : Stmt → String
  | .expression value => "(expr " ++ value.dump ++ ")"
  | .print value => "(print " ++ value.dump ++ ")"
  | .var name initial => "(var " ++ name.dump ++ dumpOptional initial ++ ")"
  | .block body => "(block [" ++ " ".intercalate (Stmt.dumpEach body) ++ "])"
  | .ifThen condition yes => "(if " ++ condition.dump ++ " " ++ yes.dump ++ ")"
  | .ifElse condition yes no =>
    "(if " ++ condition.dump ++ " " ++ yes.dump ++ " " ++ no.dump ++ ")"
  | .whileLoop condition body => "(while " ++ condition.dump ++ " " ++ body.dump ++ ")"
  | .function declaration => "(fun " ++ declaration.dump ++ ")"
  | .returns keyword value => "(return " ++ keyword.dump ++ dumpOptional value ++ ")"
  | .classDecl name superclass methods =>
    "(class " ++ name.dump ++ (superclass.elim "" fun s => " < " ++ s.dump) ++
      FunctionDecl.dumpMethods methods ++ ")"

def Stmt.dumpEach : List Stmt → List String
  | [] => []
  | s :: rest => s.dump :: Stmt.dumpEach rest

def FunctionDecl.dump : FunctionDecl → String
  | .mk name params body =>
    name.dump ++ " (" ++ " ".intercalate (params.map Lexeme.dump) ++ ") [" ++
      " ".intercalate (Stmt.dumpEach body) ++ "]"

def FunctionDecl.dumpMethods : List FunctionDecl → String
  | [] => ""
  | m :: rest => " (method " ++ m.dump ++ ")" ++ FunctionDecl.dumpMethods rest

end

end ScopeScript

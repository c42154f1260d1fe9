import ScopeScript.Parse.Expression
import ScopeScript.Tree.Stmt

/-! Parsing statements and declarations. As with expressions, `bound` is a bound on the
number of tokens left and does not otherwise matter; `statement` and `declaration` parse
what stands inside, behind at least one token more. -/
namespace ScopeScript

/-- A round of a `for`: its last clause runs after the body. -/
def Stmt.forRound (body : Stmt) : Option Expr → Stmt
  | none => body
  | some step => .block [body, .expression step]

/-- The loop that a `for` stands for: its first clause runs once in a scope of its own. -/
def Stmt.forLoop (first : Option Stmt) (condition : Expr) (step : Option Expr) (body : Stmt) :
    Stmt :=
  match first with
  | none => .whileLoop condition (body.forRound step)
  | some s => .block [s, .whileLoop condition (body.forRound step)]

namespace Parse

/-- An expression, unless the token that ends its clause follows at once. -/
def optionalBefore (ending : Kind) (bound : Nat) : Parse (Option Expr) := do
  if (← peek) = some ending then return none
  else return some (← expression bound)

def expressionStatement (bound : Nat) : Parse Stmt := do
  let value ← expression bound
  let _ ← expect (.symbol .semicolon) .expressionEnd
  return .expression value

/-- A variable's declaration behind its keyword. -/
def varDeclaration (bound : Nat) : Parse Stmt := do
  let name ← expect .identifier .variableName
  let initial ←
    if ← accept (.symbol .equal) then pure (some (← expression bound)) else pure none
  let _ ← expect (.symbol .semicolon) .variableEnd
  return .var name initial

def printStatement (bound : Nat) : Parse Stmt := do
  let value ← expression bound
  let _ ← expect (.symbol .semicolon) .printEnd
  return .print value

def returnStatement (bound : Nat) (keyword : Lexeme) : Parse Stmt := do
  let value ← optionalBefore (.symbol .semicolon) bound
  let _ ← expect (.symbol .semicolon) .returnEnd
  return .returns keyword value

def ifStatement (bound : Nat) (statement : Parse Stmt) : Parse Stmt := do
  let _ ← expect (.symbol .leftParen) .ifOpen
  let condition ← expression bound
  let _ ← expect (.symbol .rightParen) .ifClose
  let yes ← statement
  if ← accept (.keyword .kwElse) then
    return .ifElse condition yes (← statement)
  else
    return .ifThen condition yes

def whileStatement (bound : Nat) (statement : Parse Stmt) : Parse Stmt := do
  let _ ← expect (.symbol .leftParen) .whileOpen
  let condition ← expression bound
  let _ ← expect (.symbol .rightParen) .whileClose
  return .whileLoop condition (← statement)

/-- The first clause of a `for`, with its semicolon. -/
def forFirst (bound : Nat) : Parse (Option Stmt) := do
  if ← accept (.symbol .semicolon) then return none
  else if ← accept (.keyword .kwVar) then return some (← varDeclaration bound)
  else return some (← expressionStatement bound)

/-- A missing condition is the literal `true`, numbered after the body. -/
def forStatement (bound : Nat) (statement : Parse Stmt) : Parse Stmt := do
  let _ ← expect (.symbol .leftParen) .forOpen
  let first ← forFirst bound
  let condition ← optionalBefore (.symbol .semicolon) bound
  let _ ← expect (.symbol .semicolon) .forConditionEnd
  let step ← optionalBefore (.symbol .rightParen) bound
  let _ ← expect (.symbol .rightParen) .forClose
  let body ← statement
  let condition ← match condition with
    | some e => pure e
    | none => pure (.literal (← freshId) (.boolean true))
  return .forLoop first condition step body

/-- Items up to a closing brace or the end of the input. -/
def untilBrace (item : Parse α) : (bound : Nat) → Parse (List α)
  | 0 => return []
  | bound + 1 => do
    match ← peek with
    | none | some (.symbol .rightBrace) => return []
    | some _ => do
      let first ← item
      return first :: (← untilBrace item bound)

/-- The statements of a block whose opening brace has been read. -/
def block (bound : Nat) (declaration : Parse Stmt) : Parse (List Stmt) := do
  let body ← untilBrace declaration bound
  let _ ← expect (.symbol .rightBrace) .blockClose
  return body

/-- Name, parameters and body of a function or method. -/
def function (bound : Nat) (declaration : Parse Stmt) (role : FunctionRole) :
    Parse FunctionDecl := do
  let name ← expect .identifier (.functionName role)
  let _ ← expect (.symbol .leftParen) (.parametersOpen role)
  let (params, _) ←
    parenthesized (expect .identifier .parameterName) .tooManyParameters .parametersClose
  let _ ← expect (.symbol .leftBrace) (.bodyOpen role)
  return .mk name params (← block bound declaration)

def superclass : Parse (Option Superclass) := do
  if ← accept (.symbol .less) then
    let name ← expect .identifier .superclassName
    return some ⟨← freshId, name⟩
  else
    return none

/-- A class behind its keyword. -/
def classDeclaration (bound : Nat) (declaration : Parse Stmt) : Parse Stmt := do
  let name ← expect .identifier .className
  let parent ← superclass
  let _ ← expect (.symbol .leftBrace) .classOpen
  let methods ← untilBrace (function bound declaration .method) bound
  let _ ← expect (.symbol .rightBrace) .classClose
  return .classDecl name parent methods

/-- The keywords and the brace that tell which statement follows. -/
inductive StatementStart where
  | forLoop | ifElse | whileLoop | returns | block | print

def StatementStart.ofKind? : Kind → Option StatementStart
  | .keyword .kwFor => some forLoop
  | .keyword .kwIf => some ifElse
  | .keyword .kwWhile => some whileLoop
  | .keyword .kwReturn => some returns
  | .symbol .leftBrace => some block
  | .keyword .kwPrint => some print
  | _ => none

/-- Any statement that may stand as a branch or a loop's body. -/
def statementWith (bound : Nat) (statement declaration : Parse Stmt) : Parse Stmt := do
  match ← takeIf StatementStart.ofKind? with
  | some (.forLoop, _) => forStatement bound statement
  | some (.ifElse, _) => ifStatement bound statement
  | some (.whileLoop, _) => whileStatement bound statement
  | some (.returns, keyword) => returnStatement bound keyword
  | some (.block, _) => return .block (← block bound declaration)
  | some (.print, _) => printStatement bound
  | none => expressionStatement (bound + 1)

/-- The keywords that begin a declaration. -/
inductive DeclarationStart where
  | classDecl | function | var

def DeclarationStart.ofKind? : Kind → Option DeclarationStart
  | .keyword .kwClass => some classDecl
  | .keyword .kwFun => some function
  | .keyword .kwVar => some var
  | _ => none

/-- A declaration, or any statement. -/
def declarationWith (bound : Nat) (statement declaration : Parse Stmt) : Parse Stmt := do
  match ← takeIf DeclarationStart.ofKind? with
  | some (.classDecl, _) => classDeclaration bound declaration
  | some (.function, _) => return .function (← function bound declaration .function)
  | some (.var, _) => varDeclaration bound
  | none => statementWith bound statement declaration

mutual

/-- A statement. With no token left an expression is missing. -/
def statement : (bound : Nat) → Parse Stmt
  | 0 => fail .expression
  | bound + 1 => statementWith bound (statement bound) (declaration bound)

/-- A declaration or statement. -/
def declaration : (bound : Nat) → Parse Stmt
  | 0 => fail .expression
  | bound + 1 => declarationWith bound (statement bound) (declaration bound)

end

end Parse
end ScopeScript
